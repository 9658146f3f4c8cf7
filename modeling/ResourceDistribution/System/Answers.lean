import ResourceDistribution.Node.TrackerClient
import ResourceDistribution.System.RequestSize
import ResourceDistribution.System.Resolution
import ResourceDistribution.Tracker.Isolation
import ResourceDistribution.Tracker.Routes
import ResourceDistribution.Tracker.Snapshot

/-!
# The answers to a node's commands

What a node reads of the answers to an update, to a removal and to the request for the list of
files. Like that to a query (`reads_response`), each is read as what it says, if its numbers fit. So
`list` logs the files of the live entries, whatever the other clients have sent, as long as it has
no surrogates and its numbers fit (`lists_runAll`).
-/

open Python Codec Node Tracker

namespace System

/-! ### What the node reads -/

/-- What a file in the list says, in the tracker's terms. -/
def summaryMeant (file : TrackerDto.FileSummary) : Tracker.FileSummary where
  fileHash := Str.ofString file.fileHash
  fileName := Str.ofString file.fileName
  fileSize := file.fileSize.map Nat.cast
  blockSize := file.blockSize.map Nat.cast
  peerCount := file.peerCount
  availableBlocks := file.availableBlocks.map Nat.cast

/-- The numbers of a file fit into their types. -/
structure SummaryFits (file : TrackerDto.FileSummary) : Prop where
  fileSize_lt : ∀ n ∈ file.fileSize, n < 2 ^ 64
  blockSize_lt : ∀ n ∈ file.blockSize, n < 2 ^ 64
  peerCount_lt : file.peerCount < 2 ^ 64
  availableBlocks_lt : ∀ i ∈ file.availableBlocks, i < 2 ^ 64

/-- A file is read from its fields. Its number of peers is an integer here: for a cast the kernel
would evaluate the comparison with the bound of the type. -/
theorem read_summary_iff {fileHash fileName : Str} {fileSize blockSize : Option ℤ} {peerCount : ℤ}
    {availableBlocks : List ℤ} {file : TrackerDto.FileSummary} :
  TrackerDto.FileSummary.read (.dict [
      (Str.ofString "file_hash", .str fileHash),
      (Str.ofString "file_name", .str fileName),
      (Str.ofString "file_size", optionalJson fileSize),
      (Str.ofString "block_size", optionalJson blockSize),
      (Str.ofString "peer_count", .int peerCount),
      (Str.ofString "available_blocks", .list (availableBlocks.map .int))]) = some file
    ↔ (fileHash = Str.ofString file.fileHash ∧ fileName = Str.ofString file.fileName ∧
        fileSize = file.fileSize.map Nat.cast ∧ blockSize = file.blockSize.map Nat.cast ∧
        peerCount = file.peerCount ∧ availableBlocks = file.availableBlocks.map Nat.cast) ∧
      SummaryFits file
  := by
  simp only [TrackerDto.FileSummary.read, field_cons, String.reduceEq, if_true, if_false,
    Option.bind_eq_bind, Option.bind_some, Option.bind_eq_some_iff, reads_unsigned 64 _ _,
    reads_string _ _, reads_option 64 _ _, reads_vec (reads_unsigned 64) _ _, Option.pure_def,
    Option.some.injEq]
  constructor
  · rintro ⟨fileHash, ⟨rfl, -⟩, fileName, ⟨rfl, -⟩, fileSize, ⟨rfl, hfile⟩, blockSize,
      ⟨rfl, hblock⟩, peerCount, ⟨rfl, hpeers⟩, availableBlocks, ⟨rfl, havailable⟩, rfl⟩
    exact ⟨⟨rfl, rfl, rfl, rfl, rfl, rfl⟩, hfile, hblock, hpeers, havailable⟩
  · rintro ⟨⟨rfl, rfl, rfl, rfl, rfl, rfl⟩, hfile, hblock, hpeers, havailable⟩
    exact ⟨_, ⟨rfl, trivial⟩, _, ⟨rfl, trivial⟩, _, ⟨rfl, hfile⟩, _, ⟨rfl, hblock⟩, _,
      ⟨rfl, hpeers⟩, _, ⟨rfl, havailable⟩, rfl⟩

theorem reads_summary :
  Reads TrackerDto.FileSummary.read summaryJson summaryMeant SummaryFits
  := by
  rintro ⟨fileHash, fileName, fileSize, blockSize, peerCount, availableBlocks⟩ file
  rw [summaryJson, read_summary_iff, summaryMeant, Tracker.FileSummary.mk.injEq, Int.natCast_inj]

/-- The node reads the list of files exactly when it reads all of them, and reads what it says. -/
theorem reads_files :
  Reads FilesResponse.read filesJson (fun response => response.files.map summaryMeant)
    fun response => ∀ file ∈ response.files, SummaryFits file
  := by
  rintro files ⟨read⟩
  simp only [filesJson, FilesResponse.read, field_cons, if_true, Option.bind_eq_bind,
    Option.bind_some, Option.bind_eq_some_iff, reads_vec reads_summary _ _, Option.pure_def,
    Option.some.injEq, FilesResponse.mk.injEq]
  constructor
  · rintro ⟨_, h, rfl⟩
    exact h
  · intro h
    exact ⟨_, h, rfl⟩

/-- What the answer to an update says, in the tracker's terms. -/
def updateMeant (response : UpdateNodeResponse) : UpdateResponse where
  nodeId := Str.ofString response.nodeId
  registeredResources := response.registeredResources
  knownFiles := response.knownFiles
  expiresAt := Str.ofString response.expiresAt
  serverTime := Str.ofString response.serverTime

theorem read_update_iff {status nodeId : Str} {registeredResources knownFiles : ℤ}
    {expiresAt serverTime : Str} {response : UpdateNodeResponse} :
  UpdateNodeResponse.read (.dict [
      (Str.ofString "status", .str status),
      (Str.ofString "node_id", .str nodeId),
      (Str.ofString "registered_resources", .int registeredResources),
      (Str.ofString "known_files", .int knownFiles),
      (Str.ofString "expires_at", .str expiresAt),
      (Str.ofString "server_time", .str serverTime)]) = some response
    ↔ status = Str.ofString response.status ∧ nodeId = Str.ofString response.nodeId ∧
      registeredResources = response.registeredResources ∧ knownFiles = response.knownFiles ∧
      expiresAt = Str.ofString response.expiresAt ∧ serverTime = Str.ofString response.serverTime ∧
      response.registeredResources < 2 ^ 64 ∧ response.knownFiles < 2 ^ 64
  := by
  simp only [UpdateNodeResponse.read, field_cons, String.reduceEq, if_true, if_false,
    Option.bind_eq_bind, Option.bind_some, Option.bind_eq_some_iff, reads_unsigned 64 _ _,
    reads_string _ _, Option.pure_def, Option.some.injEq]
  constructor
  · rintro ⟨status, ⟨rfl, -⟩, nodeId, ⟨rfl, -⟩, registered, ⟨rfl, hregistered⟩, known,
      ⟨rfl, hknown⟩, expiresAt, ⟨rfl, -⟩, serverTime, ⟨rfl, -⟩, rfl⟩
    exact ⟨rfl, rfl, rfl, rfl, rfl, rfl, hregistered, hknown⟩
  · rintro ⟨rfl, rfl, rfl, rfl, rfl, rfl, hregistered, hknown⟩
    exact ⟨_, ⟨rfl, trivial⟩, _, ⟨rfl, trivial⟩, _, ⟨rfl, hregistered⟩, _, ⟨rfl, hknown⟩, _,
      ⟨rfl, trivial⟩, _, ⟨rfl, trivial⟩, rfl⟩

/-- The node reads the answer to an update if its numbers fit. -/
theorem reads_update :
  Reads UpdateNodeResponse.read updateJson updateMeant fun response =>
    response.status = "ok" ∧ response.registeredResources < 2 ^ 64 ∧ response.knownFiles < 2 ^ 64
  := by
  rintro ⟨nodeId, registeredResources, knownFiles, expiresAt, serverTime⟩ response
  rw [updateJson, read_update_iff, updateMeant, UpdateResponse.mk.injEq, Int.natCast_inj,
    Int.natCast_inj, Str.ofString_inj]
  constructor
  · rintro ⟨hstatus, hid, hregistered, hknown, hexpires, htime, hfits⟩
    exact ⟨⟨hid, hregistered, hknown, hexpires, htime⟩, hstatus.symm, hfits⟩
  · rintro ⟨⟨hid, hregistered, hknown, hexpires, htime⟩, hstatus, hfits⟩
    exact ⟨hstatus.symm, hid, hregistered, hknown, hexpires, htime, hfits⟩

/-- The node reads the answer to a removal. -/
theorem read_removedJson (existed : Bool) :
  OfflineResponse.read (removedJson existed) = some ⟨"ok", existed⟩
  := by
  simp only [OfflineResponse.read, removedJson, field_cons, String.reduceEq, if_true, if_false,
    Option.bind_eq_bind, Option.bind_some, readString, readBool, Option.pure_def]
  rfl

/-! ### Answers are plain -/

/-- An object is plain if its values are, and its keys are distinct. -/
theorem plain_fields {fields : List (String × Json)} (h : ∀ i ∈ fields, PlainValue i.2)
    (hkeys : (fields.map Prod.fst).Nodup) :
  PlainValue (jsonOfFields fields)
  := by
  constructor
  · apply plainFields_iff.mpr
    intro i hi
    obtain ⟨i, hmem, rfl⟩ := List.mem_map.mp hi
    exact ⟨Str.encodable_ofString _, h i hmem⟩
  · rw [List.map_map, show Prod.fst ∘ (fun i : String × Json => (Str.ofString i.1, i.2))
      = Str.ofString ∘ Prod.fst from rfl, ← List.map_map]
    apply hkeys.map Str.ofString_injective

theorem plain_nat {n : ℕ} (h : n < 2 ^ 64) :
  PlainValue (.int n)
  := by
  constructor
  · apply Int.natCast_nonneg
  · exact_mod_cast h

theorem plain_optionalJson {o : Option ℕ} (h : ∀ n ∈ o, n < 2 ^ 64) :
  PlainValue (optionalJson (o.map Nat.cast))
  := by
  cases o with
  | none => trivial
  | some n => apply plain_nat (h n rfl)

/-- A list is plain if what is written for its items is. -/
theorem plain_list {α β : Type} {write : α → Json} {image : β → α} {l : List β}
    (h : ∀ b ∈ l, PlainValue (write (image b))) :
  PlainValue (.list ((l.map image).map write))
  := by
  apply plainItems_iff.mpr
  intro v hv
  obtain ⟨a, ha, rfl⟩ := List.mem_map.mp hv
  obtain ⟨b, hb, rfl⟩ := List.mem_map.mp ha
  apply h b hb

theorem plain_numbers {numbers : List ℕ} (h : ∀ n ∈ numbers, n < 2 ^ 64) :
  PlainValue (.list ((numbers.map Nat.cast).map Json.int))
  := plain_list fun n hn => plain_nat (h n hn)

/-- A file that the node can read is plain, as it stands in the list. -/
theorem plain_summaryJson {file : TrackerDto.FileSummary} (h : SummaryFits file) :
  PlainValue (summaryJson (summaryMeant file))
  := by
  change PlainValue (jsonOfFields [
    ("file_hash", jsonOfString file.fileHash),
    ("file_name", jsonOfString file.fileName),
    ("file_size", optionalJson (file.fileSize.map Nat.cast)),
    ("block_size", optionalJson (file.blockSize.map Nat.cast)),
    ("peer_count", .int file.peerCount),
    ("available_blocks", .list ((file.availableBlocks.map Nat.cast).map Json.int))])
  apply plain_fields
  · simp only [List.forall_mem_cons, List.not_mem_nil, false_implies, implies_true, and_true]
    exact ⟨Str.encodable_ofString _, Str.encodable_ofString _, plain_optionalJson h.fileSize_lt,
      plain_optionalJson h.blockSize_lt, plain_nat h.peerCount_lt,
      plain_numbers h.availableBlocks_lt⟩
  · simp only [List.map_cons, List.map_nil]
    decide

/-- The list of files is plain if the node can read all of them. -/
theorem plain_filesJson {files : List TrackerDto.FileSummary}
    (h : ∀ file ∈ files, SummaryFits file) :
  PlainValue (filesJson (files.map summaryMeant))
  := by
  have hlist : PlainValue (.list ((files.map summaryMeant).map summaryJson)) :=
    plain_list fun file hfile => plain_summaryJson (h file hfile)
  change PlainValue (jsonOfFields [("files", .list ((files.map summaryMeant).map summaryJson))])
  apply plain_fields
  · intro i hi
    rw [List.mem_singleton.mp hi]
    exact hlist
  · apply List.nodup_singleton

/-- So is the answer to an update whose numbers fit, and the answer to a removal. -/
theorem plain_updateJson {response : UpdateNodeResponse}
    (hregistered : response.registeredResources < 2 ^ 64) (hknown : response.knownFiles < 2 ^ 64) :
  PlainValue (updateJson (updateMeant response))
  := by
  change PlainValue (jsonOfFields [
    ("status", jsonOfString "ok"),
    ("node_id", jsonOfString response.nodeId),
    ("registered_resources", .int response.registeredResources),
    ("known_files", .int response.knownFiles),
    ("expires_at", jsonOfString response.expiresAt),
    ("server_time", jsonOfString response.serverTime)])
  apply plain_fields
  · simp only [List.forall_mem_cons, List.not_mem_nil, false_implies, implies_true, and_true]
    exact ⟨Str.encodable_ofString _, Str.encodable_ofString _, plain_nat hregistered,
      plain_nat hknown, Str.encodable_ofString _, Str.encodable_ofString _⟩
  · simp only [List.map_cons, List.map_nil]
    decide

theorem plain_removedJson (existed : Bool) :
  PlainValue (removedJson existed)
  := by
  change PlainValue (jsonOfFields [("status", jsonOfString "ok"), ("removed", .bool existed)])
  apply plain_fields
  · simp only [List.forall_mem_cons, List.not_mem_nil, false_implies, implies_true, and_true]
    exact ⟨Str.encodable_ofString _, trivial⟩
  · simp only [List.map_cons, List.map_nil]
    decide

/-! ### Answers are not nested deep -/

@[simp]
theorem depth_optionalJson (o : Option ℤ) :
  (optionalJson o).depth = 0
  := by
  cases o with
  | none => rfl
  | some n => rfl

theorem depth_summaryJson (summary : FileSummary) :
  (summaryJson summary).depth ≤ 2
  := by
  simp [summaryJson]

/-- The answers that a client parses are nested less deep than it is able to parse. -/
theorem depth_filesJson (files : List FileSummary) :
  (filesJson files).depth ≤ 7
  := by
  have hsummary : ∀ file : FileSummary, (summaryJson file).depth ≤ 5 := by
    intro file
    apply (depth_summaryJson file).trans (by decide)
  simp [filesJson, hsummary]

theorem depth_updateJson (response : UpdateResponse) :
  (updateJson response).depth ≤ 7
  := by
  simp [updateJson]

theorem depth_removedJson (existed : Bool) :
  (removedJson existed).depth ≤ 7
  := by
  simp [removedJson]

/-! ### What the tracker stores -/

/-- The numbers that the list of files shows of a record fit into the node's types. -/
def Listable (record : Record) : Prop :=
  ∀ resource ∈ record.resources, (∀ n ∈ resource.fileSize, n < 2 ^ 64) ∧
    (∀ n ∈ resource.blockSize, n < 2 ^ 64) ∧ ∀ block ∈ resource.blocks, block.index < 2 ^ 64

/-- The value that some resource of some record gives is readable if all of them are. -/
theorem readable_given (field : Resource → Option ℤ) (records : List Record) (fileHash : Str)
    (h : ∀ record ∈ records, ∀ resource ∈ record.resources, ∀ n ∈ field resource,
      0 ≤ n ∧ n < 2 ^ 64) :
  Readable (Option.map Nat.cast) (fun o => ∀ m ∈ o, m < 2 ^ 64)
    (records.findSome? (Record.given field fileHash))
  := by
  apply readable_option.mpr
  intro n hn
  obtain ⟨record, hrecord, hgiven⟩ := List.exists_of_findSome?_eq_some hn
  obtain ⟨resource, hresource, hfield⟩ := List.exists_of_findSome?_eq_some hgiven
  obtain ⟨hnonneg, hlt⟩ := h record hrecord resource (List.mem_filter.mp hresource).1 n hfield
  exact readable_number hnonneg hlt

/-- The summary of an entry is readable if its strings are, its peers can be counted, and the
numbers of the records fit. -/
theorem readable_summary {nodes : Nodes} (hvalid : nodes.Valid)
    (hlistable : ∀ record ∈ nodes.values, Listable record) {entry : IndexEntry}
    (hentry : entry ∈ (fileIndex nodes).values) (hencodable : entry.Encodable)
    (hpeers : entry.peers.length < 2 ^ 64) :
  Readable summaryMeant SummaryFits (summaryOf entry)
  := by
  obtain ⟨⟨fileHash, entry⟩, hitem, rfl⟩ := List.mem_map.mp hentry
  have hspec := entrySpec_of_get? (Dict.get?_eq_some_iff.mpr hitem)
  dsimp only at hencodable hpeers ⊢
  have hresources : ∀ record ∈ nodes.values, ∀ resource ∈ record.resources, resource.Valid := by
    intro record hrecord
    obtain ⟨⟨k, _⟩, hitem, rfl⟩ := List.mem_map.mp hrecord
    exact (hvalid k _ (Dict.get?_eq_some_iff.mpr hitem)).resources_valid
  obtain ⟨name, hname⟩ := hencodable.fileName
  obtain ⟨hash, hhash⟩ := hencodable.fileHash
  obtain ⟨fileSize, hfileSize, hfile⟩ := readable_given Resource.fileSize nodes.values
    fileHash fun record hrecord resource hresource n hn =>
      ⟨(hresources record hrecord resource hresource).fileSize_nonneg n hn,
        (hlistable record hrecord resource hresource).1 n hn⟩
  obtain ⟨blockSize, hblockSize, hblock⟩ := readable_given Resource.blockSize nodes.values
    fileHash fun record hrecord resource hresource n hn =>
      ⟨(hresources record hrecord resource hresource).blockSize_nonneg n hn,
        (hlistable record hrecord resource hresource).2.1 n hn⟩
  have havailable : ∀ n ∈ sortedSet (nodes.values.flatMap (Record.blockIndexes fileHash)),
      Readable (Nat.cast : ℕ → ℤ) (fun m => m < 2 ^ 64) n := by
    intro n hn
    obtain ⟨record, hrecord, hn⟩ := List.mem_flatMap.mp (mem_sortedSet.mp hn)
    obtain ⟨resource, hresource, hn⟩ := List.mem_flatMap.mp hn
    obtain ⟨block, hblock, rfl⟩ := List.mem_map.mp hn
    have hresource := (List.mem_filter.mp hresource).1
    exact readable_number
      ((hresources record hrecord resource hresource).blocks_valid block hblock).index_nonneg
      ((hlistable record hrecord resource hresource).2.2 block hblock)
  obtain ⟨availableBlocks, havailable, hfits⟩ := readable_list.mpr havailable
  use ⟨hash, name, fileSize, blockSize, entry.peers.length, availableBlocks⟩
  refine ⟨?_, hfile, hblock, hpeers, hfits⟩
  rw [summaryOf, summaryMeant, ← hname, ← hhash, ← hfileSize, ← hblockSize, ← havailable,
    hspec.fileSize_eq, hspec.blockSize_eq, hspec.availableBlocks_eq]

/-! ### Requests -/

section RecursionLimit

variable [RecursionLimit] [UnicodeData]

/-- What becomes of a body that a client posts. -/
def Moment.post (moment : Moment) (server : Server) (clientHost path : Str) (body : List UInt8) :
    Option Response × Nodes :=
  server.doPost moment.nodes moment.clock path (some (decimalText body.length)) body clientHost

/-- What becomes of a request without a body. -/
def Moment.get (moment : Moment) (server : Server) (path : Str) : Option Response × Nodes :=
  server.doGet moment.nodes moment.clock path

/-- What arrives at the client of a response, if there is one. -/
def received (response : Option Response) : Option (ℕ × String) :=
  response.map fun response => (response.status, response.body)

/-- A client, at `clientHost`, that reaches the tracker at a moment. -/
def Moment.client (moment : Moment) (server : Server) (clientHost : Str)
    (parse : String → Option Json) : TrackerClient where
  post path body := received (moment.post server clientHost (Str.ofString path) body).1
  get path := received (moment.get server (Str.ofString path)).1
  parse := parse

omit [UnicodeData] in
/-- An answer that is plain is received as it was sent. -/
theorem receive_sendJson {client : TrackerClient} (hparse : Parses client.parse) {payload : Json}
    (hplain : PlainValue payload) (hdepth : payload.depth ≤ 7) {response : Response}
    (hsend : sendJson 200 payload = some response) {α : Type} {read : Json → Option α} {a : α}
    (hread : read payload = some a)
    (send rejected decode : String) :
  client.receive read send rejected decode (received (some response)) = .ok a
  := by
  obtain ⟨hstatus, hbody⟩ := sendJson_eq_some hsend
  have hok : ¬ (400 ≤ response.status ∧ response.status < 600) := by
    rw [hstatus]
    decide
  rw [received, Option.map_some, TrackerClient.receive, if_neg hok, Json.eq_of_dumps_encode hbody,
    hparse payload hplain hdepth, Option.bind_eq_bind, Option.bind_some, hread]

omit [RecursionLimit] [UnicodeData] in
/-- The list of files is asked for at its endpoint. -/
theorem getRequest_files :
  getRequest (Str.ofString "/api/v1/files") = some .files
  := by
  have hpath : endpoint (Str.ofString "/api/v1/files") = Str.ofString "/api/v1/files" := by
    decide
  rw [getRequest, hpath]
  rfl

/-- The list of files of a clean map is received as what is live. -/
theorem listFiles_eq_ok {moment : Moment} (hclean : moment.nodes.Clean) (server : Server)
    (clientHost : Str) {parse : String → Option Json} (hparse : Parses parse)
    {files : List TrackerDto.FileSummary}
    (hfiles : files.map summaryMeant = (Tracker.listFiles moment.nodes (moment.clock 0)).1)
    (hfits : ∀ file ∈ files, SummaryFits file) :
  (moment.client server clientHost parse).listFiles = .ok ⟨files⟩
  := by
  have hread : Request.IsRead .files := trivial
  have hsome := hclean.isSome_handle server moment.clock hread
  have hanswer : (server.handle moment.nodes moment.clock .files).1
      = sendJson 200 (filesJson (files.map summaryMeant)) := by
    rw [hfiles]
    simp only [Server.handle, hclean.listFiles_eq_ok server]
    rfl
  obtain ⟨response, hresponse⟩ := Option.isSome_iff_exists.mp hsome
  have hget : (moment.client server clientHost parse).get "/api/v1/files"
      = received (some response) := by
    simp only [Moment.client, Moment.get, Server.doGet, getRequest_files, hresponse]
  rw [TrackerClient.listFiles, hget]
  apply receive_sendJson hparse (plain_filesJson hfits) (depth_filesJson _)
    (hanswer.symm.trans hresponse)
  apply (reads_files _ _).mpr ⟨rfl, hfits⟩

/-! ### The list of files -/

/-- What `list` logs of some files. -/
def listLog (files : List TrackerDto.FileSummary) : List String :=
  if files = [] then ["Tracker has no files."]
  else "file_name | file_hash | peers | blocks" :: files.map TrackerDto.FileSummary.line

/-- The files of a clean map are listed if their numbers fit. -/
theorem exists_listTrackerFiles_eq_ok (moment : Moment) (hclean : moment.nodes.Clean)
    (hvalid : moment.nodes.Valid)
    (hlistable : ∀ k record, moment.nodes.get? k = some record → Listable record)
    (hpeers : ∀ entry ∈ moment.live, entry.peers.length < 2 ^ 64) (server : Server)
    (clientHost : Str) {parse : String → Option Json} (hparse : Parses parse) :
  ∃ files : List TrackerDto.FileSummary,
    files.map summaryMeant = (Tracker.listFiles moment.nodes (moment.clock 0)).1 ∧
    (moment.client server clientHost parse).listTrackerFiles = .ok (listLog files)
  := by
  have hreadable : ∀ summary ∈ (Tracker.listFiles moment.nodes (moment.clock 0)).1,
      Readable summaryMeant SummaryFits summary := by
    intro summary hsummary
    rw [Tracker.listFiles, Keyed.mem_sortBy] at hsummary
    obtain ⟨entry, hentry, rfl⟩ := List.mem_map.mp hsummary
    apply readable_summary (hvalid.cleanupExpired (moment.clock 0)) _ hentry
      ((hclean.cleanupExpired (moment.clock 0)).encodable_entry hentry) (hpeers entry hentry)
    intro record hrecord
    obtain ⟨k, hk, -⟩ := mem_values_cleanupExpired.mp hrecord
    apply hlistable k record hk
  obtain ⟨files, hfiles, hfits⟩ := readable_list.mpr hreadable
  use files, hfiles.symm
  rw [TrackerClient.listTrackerFiles, listFiles_eq_ok hclean server clientHost hparse hfiles.symm
    hfits, listLog]
  by_cases hempty : files = []
  · rw [if_pos hempty]
    simp only [bind, Except.bind, if_pos hempty]
    rfl
  · rw [if_neg hempty]
    simp only [bind, Except.bind, if_neg hempty]
    rfl

/-- If the call is an update and is accepted, it makes a record without surrogates and without
metadata that is nested too deep, whose numbers fit. -/
def ListableOperation (nodeTtlSeconds : ℤ) (now : Time) (op : Operation) : Prop :=
  ∀ payload remoteHost record, op = .updateNode payload remoteHost →
    updateRecord nodeTtlSeconds payload remoteHost now = .ok record →
    record.Clean ∧ Listable record

/-- After every history of such calls every node that lists the files logs the files of the live
entries, in their order. -/
theorem lists_runAll (server : Server) (history : History)
    (hhistory : ∀ i ∈ history, ListableOperation server.nodeTtlSeconds i.2 i.1) (clock : Clock)
    (hpeers : ∀ entry ∈ (Moment.mk (runAll server.nodeTtlSeconds history) clock).live,
      entry.peers.length < 2 ^ 64) (clientHost : Str) {parse : String → Option Json}
    (hparse : Parses parse) :
  ∃ files : List TrackerDto.FileSummary,
    files.map summaryMeant
      = (Tracker.listFiles (runAll server.nodeTtlSeconds history) (clock 0)).1 ∧
    ((Moment.mk (runAll server.nodeTtlSeconds history) clock).client server clientHost
      parse).listTrackerFiles = .ok (listLog files)
  := by
  apply exists_listTrackerFiles_eq_ok ⟨runAll server.nodeTtlSeconds history, clock⟩ _
    (valid_runAll _ history) _ hpeers server clientHost hparse
  · apply forall_runAll
    intro i hi payload remoteHost record hop hrecord
    apply (hhistory i hi payload remoteHost record hop hrecord).1.cleanFor hrecord
  · apply forall_runAll (P := fun _ => Listable)
    intro i hi payload remoteHost record hop hrecord
    apply (hhistory i hi payload remoteHost record hop hrecord).2

end RecursionLimit

/-- A file of which the block is sent as a bare index is listed, though a node cannot read the
answer to a query of it. -/
theorem lists_runAll_bareBlock :
  let _ := UnicodeData.ascii
  let _ := RecursionLimit.default
  let parse := fun body => (Json.loads body).toOption
  let nodes := runAll 90 [(updateWithBlock (.int 0), 0)]
  ∃ files : List TrackerDto.FileSummary,
    files.map summaryMeant = (Tracker.listFiles nodes 0).1 ∧
    ((Moment.mk nodes fun _ => 0).client memoryServer [] parse).listTrackerFiles
      = .ok (listLog files)
  := by
  intro _ _ parse nodes
  apply lists_runAll memoryServer [(updateWithBlock (.int 0), 0)] _ (fun _ => 0) _ [] parses_loads
  · intro i hi payload remoteHost record hop hrecord
    rw [List.mem_singleton.mp hi] at hop hrecord
    obtain ⟨rfl, rfl⟩ := Operation.updateNode.inj hop
    obtain rfl := Except.ok.inj hrecord
    constructor
    · constructor
      · exact ⟨"node-a", rfl⟩
      · exact ⟨"127.0.0.1", rfl⟩
      · intro resource hresource
        obtain rfl := List.mem_singleton.mp hresource
        constructor
        · exact ⟨"x", rfl⟩
        · exact ⟨"a", rfl⟩
        · intro block hblock
          obtain rfl := List.mem_singleton.mp hblock
          simp [Block.Encodable]
        · simp [asOptionalString]
      · exact True.intro
      · decide
      · decide
    · intro resource hresource
      obtain rfl := List.mem_singleton.mp hresource
      decide
  · decide

end System
