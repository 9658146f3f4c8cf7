import ResourceDistribution.System.Answers

/-!
# Looking up a target

`resolve_download_target` over the texts of its requests and answers. To what a target is resolved
is settled by the files that are live when the two queries arrive, whatever happens in between,
however the client encodes its queries and whatever else it parses (`looksUp_runAll`).
-/

open Python Json Fallible Codec Node Tracker

namespace System

/-! ### Answers are plain -/

/-- What a node can read of a block is plain. -/
theorem plain_blockJson {block : TrackerBlock} (h : BlockFits block) :
  PlainValue (blockJson (blockMeant block))
  := by
  change PlainValue (jsonOfFields [
    ("index", .int block.index),
    ("hash", jsonOfString block.hash),
    ("size", .int block.size)])
  apply plain_fields
  · simp only [List.forall_mem_cons, List.not_mem_nil, false_implies, implies_true, and_true]
    exact ⟨plain_nat h.index_lt, Str.encodable_ofString _, plain_nat h.size_lt⟩
  · simp only [List.map_cons, List.map_nil]
    decide

/-- So is what it can read of a peer. -/
theorem plain_peerJson {peer : PeerLocation} (h : PeerFits peer) :
  PlainValue (peerJson (peerMeant peer))
  := by
  have hport : peer.port < 2 ^ 64 := h.port_lt.trans (by decide)
  have hblocks : PlainValue (.list ((peer.blocks.map blockMeant).map blockJson)) :=
    plain_list fun block hblock => plain_blockJson (h.blocks_fit block hblock)
  change PlainValue (jsonOfFields [
    ("node_id", jsonOfString peer.nodeId),
    ("host", jsonOfString peer.host),
    ("port", .int peer.port),
    ("last_seen", jsonOfString peer.lastSeen),
    ("expires_at", jsonOfString peer.expiresAt),
    ("blocks", .list ((peer.blocks.map blockMeant).map blockJson))])
  apply plain_fields
  · simp only [List.forall_mem_cons, List.not_mem_nil, false_implies, implies_true, and_true]
    exact ⟨Str.encodable_ofString _, Str.encodable_ofString _, plain_nat hport,
      Str.encodable_ofString _, Str.encodable_ofString _, hblocks⟩
  · simp only [List.map_cons, List.map_nil]
    decide

/-- So is what it can read of an entry. -/
theorem plain_entryJson {location : FileLocation} (h : LocationFits location) :
  PlainValue (entryJson (entryMeant location))
  := by
  have hpeers : PlainValue (.list ((location.peers.map peerMeant).map peerJson)) :=
    plain_list fun peer hpeer => plain_peerJson (h.peers_fit peer hpeer)
  change PlainValue (jsonOfFields [
    ("file_hash", jsonOfString location.fileHash),
    ("file_name", jsonOfString location.fileName),
    ("file_size", optionalJson (location.fileSize.map Nat.cast)),
    ("block_size", optionalJson (location.blockSize.map Nat.cast)),
    ("peers", .list ((location.peers.map peerMeant).map peerJson)),
    ("available_blocks", .list ((location.availableBlocks.map Nat.cast).map Json.int))])
  apply plain_fields
  · simp only [List.forall_mem_cons, List.not_mem_nil, false_implies, implies_true, and_true]
    exact ⟨Str.encodable_ofString _, Str.encodable_ofString _, plain_optionalJson h.fileSize_lt,
      plain_optionalJson h.blockSize_lt, hpeers, plain_numbers h.availableBlocks_lt⟩
  · simp only [List.map_cons, List.map_nil]
    decide

/-- The answer to a query is plain if the node can read all of it. -/
theorem plain_queryJson {locations : List FileLocation}
    (h : ∀ location ∈ locations, LocationFits location) :
  PlainValue (queryJson (locations.map entryMeant))
  := by
  have hlist : PlainValue (.list ((locations.map entryMeant).map entryJson)) :=
    plain_list fun location hlocation => plain_entryJson (h location hlocation)
  change PlainValue (jsonOfFields [("locations", .list ((locations.map entryMeant).map entryJson))])
  apply plain_fields
  · intro i hi
    rw [List.mem_singleton.mp hi]
    exact hlist
  · apply List.nodup_singleton

theorem depth_peerJson (peer : Peer) :
  (peerJson peer).depth ≤ 3
  := by
  have hblock : ∀ block : Block, (blockJson block).depth ≤ 1 := depth_blockJson
  simp [peerJson, hblock]

theorem depth_entryJson (entry : IndexEntry) :
  (entryJson entry).depth ≤ 5
  := by
  have hpeer : ∀ peer : Peer, (peerJson peer).depth ≤ 3 := depth_peerJson
  simp [entryJson, hpeer]

/-- It is nested less deep than the node is able to parse. -/
theorem depth_queryJson (entries : List IndexEntry) :
  (queryJson entries).depth ≤ 7
  := by
  have hentry : ∀ entry : IndexEntry, (entryJson entry).depth ≤ 5 := depth_entryJson
  simp [queryJson, hentry]

/-! ### Live entries -/

/-- The entries with a given hash. -/
def withHash (entries : List IndexEntry) (fileHash : Str) : List IndexEntry :=
  entries.filter fun entry => entry.fileHash = fileHash

/-- The entries with a given name. -/
def withName (entries : List IndexEntry) (fileName : Str) : List IndexEntry :=
  entries.filter fun entry => entry.fileName = fileName

/-- The live entries have distinct hashes. -/
theorem Moment.nodup_fileHash (moment : Moment) :
  (moment.live.map IndexEntry.fileHash).Nodup
  := by
  have hkeys : (fileIndex (cleanupExpired moment.nodes (moment.clock 0)).2).values.map
      IndexEntry.fileHash = (fileIndex (cleanupExpired moment.nodes (moment.clock 0)).2).keys := by
    rw [Dict.values, Dict.keys, List.map_map]
    apply List.map_congr_left
    rintro ⟨fileHash, entry⟩ hitem
    apply fileHash_of_mem_fileIndex hitem
  rw [Moment.live, hkeys]
  exact (fileIndex _).nodup

/-- At most one of them has a given hash. -/
theorem Moment.length_withHash_le (moment : Moment) (fileHash : Str) :
  (withHash moment.live fileHash).length ≤ 1
  := by
  have hsublist : (withHash moment.live fileHash).Sublist moment.live := List.filter_sublist
  have hnodup := (hsublist.map IndexEntry.fileHash).nodup moment.nodup_fileHash
  have hsame : (withHash moment.live fileHash).map IndexEntry.fileHash
      = List.replicate (withHash moment.live fileHash).length fileHash := by
    apply List.eq_replicate_iff.mpr
    constructor
    · apply List.length_map
    · intro s hs
      obtain ⟨entry, hentry, rfl⟩ := List.mem_map.mp hs
      apply of_decide_eq_true (List.mem_filter.mp hentry).2
  rw [hsame] at hnodup
  apply List.nodup_replicate.mp hnodup

/-! ### Queries -/

/-- What a client makes of the body of an answer to a query. -/
def decodeQuery (parse : String → Option Json) (body : String) : Option QueryResponse := do
  let v ← parse body
  QueryResponse.read v

section RecursionLimit

variable [RecursionLimit] [UnicodeData]

/-- The answer to a query that a client encodes in its way. -/
def Moment.ask (moment : Moment) (server : Server) (enc : Url.FormEncoding) (key value : String) :
    Option (ℕ × String) :=
  received (moment.get server (queryTarget enc [(key, value)])).1

/-- However it is encoded, it arrives as the query that is meant. -/
theorem Moment.ask_eq_send (moment : Moment) (server : Server) (enc : Url.FormEncoding) :
  moment.ask server enc = moment.send server
  := by
  funext key value
  have hvalues : ∀ name, valuesOf name [(key, value)] = parameter name key value := by
    intro name
    by_cases h : value ≠ "" ∧ key = name
    · rw [valuesOf, parameter, if_pos h.symm, List.filter_singleton, decide_eq_true h]
      rfl
    · rw [valuesOf, parameter, if_neg (mt And.symm h), List.filter_singleton, decide_eq_false h]
      rfl
  rw [Moment.ask, Moment.get, Server.doGet, getRequest_queryTarget, hvalues, hvalues]
  rfl

omit [RecursionLimit] [UnicodeData] in
/-- What a query passes on is a criterion, unless it is blank. -/
theorem first_eq_none_iff {key value : String} (hkey : key = "file_hash" ∨ key = "file_name")
    (hvalue : value ≠ "") :
  first (parameter "file_hash" key value) = none ∧ first (parameter "file_name" key value) = none
    ↔ (Str.ofString value).strip = []
  := by
  rcases hkey with rfl | rfl
  all_goals
    rw [first_parameter hvalue, first_parameter_of_ne (by decide)]
    simp

omit [RecursionLimit] [UnicodeData] in
theorem ne_empty_of_trim {value : String} (h : trim value ≠ "") :
  value ≠ ""
  := by
  rintro rfl
  cases h rfl

/-- Neither the node nor the tracker finds a target blank. -/
def Asked (target : String) : Prop := trim target ≠ "" ∧ (Str.ofString target).strip ≠ []

/-- Every record of the moment is clean, and a node can read whatever an answer may show of it. -/
structure Moment.Served (moment : Moment) : Prop where
  clean : moment.nodes.Clean
  shown : ∀ k record, moment.nodes.get? k = some record → Shown k record

namespace Moment.Served

variable {moment : Moment} (h : moment.Served) {parse : String → Option Json}
  (hparse : Parses parse)

include h hparse in
omit [UnicodeData] in
/-- Then a node decodes every answer. -/
theorem decodes (key value : String) :
  Decodes (decodeQuery parse) moment key value
  := by
  intro entries after hfind body hbody
  obtain ⟨response, hread, hmeant⟩ := answersReadable_of_shown h.shown _ _ _ _ _ hfind
  have hfits := ((reads_response _ _).mp hread).2
  use response
  constructor
  · rw [Json.eq_of_dumps_encode hbody, decodeQuery, ← hmeant, hparse _ (plain_queryJson hfits)
      (depth_queryJson _), hmeant]
    exact hread
  · exact hmeant

include h in
/-- A query is answered as `find_file_locations` answers it. -/
theorem handle_query (server : Server) (fileHash fileName : List Str) :
  (server.handle moment.nodes moment.clock (.query fileHash fileName)).1
    = answerCatching ((findFileLocations moment.nodes (first fileHash) (first fileName)
        (moment.clock 0)).map fun found => queryJson found.1)
  := by
  change answerCatching ((server.findFileLocations moment.nodes (first fileHash) (first fileName)
    (moment.clock 0) (moment.clock 1)).1.map queryJson) = _
  rw [(h.clean.findFileLocations_eq server _ _ _ _).1]
  cases findFileLocations moment.nodes (first fileHash) (first fileName) (moment.clock 0) with
  | ok found => rfl
  | error e => rfl

include h in
/-- Every query is answered. -/
theorem exists_send_eq (server : Server) (key value : String) :
  ∃ response, moment.send server key value = some (response.status, response.body) ∧
    answerCatching ((findFileLocations moment.nodes (first (parameter "file_hash" key value))
      (first (parameter "file_name" key value)) (moment.clock 0)).map fun found =>
        queryJson found.1) = some response
  := by
  have hread : Request.IsRead
      (.query (parameter "file_hash" key value) (parameter "file_name" key value)) := trivial
  have hsome := h.clean.isSome_handle server moment.clock hread
  obtain ⟨response, hresponse⟩ := Option.isSome_iff_exists.mp hsome
  use response
  constructor
  · rw [Moment.send, hresponse, Option.map_some]
  · rw [← h.handle_query server, hresponse]

include h in
/-- A query by something that is not blank is answered with what is found. -/
theorem status_send (server : Server) {key value : String}
    (hkey : key = "file_hash" ∨ key = "file_name") (hvalue : value ≠ "")
    (hstrip : (Str.ofString value).strip ≠ []) :
  (moment.send server key value).map Prod.fst = some 200
  := by
  have hgiven := mt (first_eq_none_iff hkey hvalue).mp hstrip
  rw [← criterion_first, ← criterion_first (parameter "file_name" key value)] at hgiven
  obtain ⟨entries, hfind⟩ :=
    exists_findFileLocations_eq_ok moment.nodes (moment.clock 0) hgiven
  obtain ⟨response, hsend, hanswer⟩ := h.exists_send_eq server key value
  rw [hfind] at hanswer
  rw [hsend, Option.map_some, (sendJson_eq_some hanswer).1]

include h in
/-- A query by something blank is refused. -/
theorem query_blank (server : Server) (decode : String → Option QueryResponse)
    {key value : String} (hkey : key = "file_hash" ∨ key = "file_name") (hvalue : trim value ≠ "")
    (hblank : (Str.ofString value).strip = []) :
  query (moment.send server) decode key value = .error (.rejected key)
  := by
  obtain ⟨hhash, hname⟩ := (first_eq_none_iff hkey (ne_empty_of_trim hvalue)).mpr hblank
  obtain ⟨response, hsend, hanswer⟩ := h.exists_send_eq server key value
  rw [hhash, hname] at hanswer
  have hstatus : response.status = 400 := (sendJson_eq_some hanswer).1
  have hrejected : 400 ≤ response.status ∧ response.status < 600 := by
    rw [hstatus]
    decide
  rw [query, if_neg hvalue, hsend]
  dsimp only
  rw [if_pos hrejected]

include h hparse in
/-- A query by something that is not blank finds the live entries that have it. -/
theorem exists_query_eq_ok (server : Server) {key value : String}
    (hkey : key = "file_hash" ∨ key = "file_name") (hasked : Asked value) :
  ∃ response, query (moment.send server) (decodeQuery parse) key value = .ok response ∧
    (response.locations.map entryMeant).Perm
      ((if key = "file_hash" then withHash else withName) moment.live (Str.ofString value).strip)
  := by
  obtain ⟨htrim, hstrip⟩ := hasked
  have hne : value ≠ "" := ne_empty_of_trim htrim
  have hdecodes := h.decodes hparse key value
  obtain ⟨response, hquery⟩ :=
    System.exists_query_eq_ok htrim hdecodes (h.status_send server hkey hne hstrip)
  use response, hquery
  obtain ⟨-, after, hfind⟩ := exists_of_query hdecodes hquery
  have hfound := (findFileLocations_eq_ok_iff.mp hfind).2.1
  rw [criterion_first, criterion_first] at hfound
  rw [hfound]
  apply (Keyed.sortBy_perm _ _).trans
  apply List.Perm.of_eq
  rcases hkey with rfl | rfl
  all_goals
    rw [first_parameter hne, first_parameter_of_ne (by decide), if_neg hstrip]
    apply List.filter_congr
    intro entry _
    simp [passes, hstrip]

end Moment.Served

/-! ### Targets -/

/-- `resolve_download_target(target)` of a client, where its first query arrives at the moment
`first` and the second one, if it is sent, at the moment `second`. -/
def lookUp (server : Server) (enc : Url.FormEncoding) (parse : String → Option Json)
    (first second : Moment) (target : String) : Except TargetError FileLocation :=
  resolveDownloadTarget (query (first.ask server enc) (decodeQuery parse) "file_hash")
    (query (second.ask server enc) (decodeQuery parse) "file_name") target

/-- What becomes of a target where `first` and `second` are the live entries at the two queries. A
target that is blank only to the tracker is refused by it. -/
inductive LooksUp (first second : List IndexEntry) (target : String) :
    Except TargetError FileLocation → Prop
  | empty (htrim : trim target = "") : LooksUp first second target (.error .emptyValue)
  | blank (htrim : trim target ≠ "") (hblank : (Str.ofString target).strip = []) :
      LooksUp first second target (.error (.rejected "file_hash"))
  | byHash (location : FileLocation) (hasked : Asked target)
      (hhash : withHash first (Str.ofString target).strip = [entryMeant location]) :
      LooksUp first second target (.ok location)
  | byName (location : FileLocation) (hasked : Asked target)
      (hhash : withHash first (Str.ofString target).strip = [])
      (hname : withName second (Str.ofString target).strip = [entryMeant location]) :
      LooksUp first second target (.ok location)
  | unmatched (hasked : Asked target) (hhash : withHash first (Str.ofString target).strip = [])
      (hname : withName second (Str.ofString target).strip = []) :
      LooksUp first second target (.error (.noMatch target))
  | ambiguous (hasked : Asked target) (hhash : withHash first (Str.ofString target).strip = [])
      (hname : 1 < (withName second (Str.ofString target).strip).length) :
      LooksUp first second target
        (.error (.ambiguous (withName second (Str.ofString target).strip).length target))

/-- At moments whose records are clean and readable a target is looked up. -/
theorem looksUp_lookUp (server : Server) (enc : Url.FormEncoding) {parse : String → Option Json}
    (hparse : Parses parse) {first second : Moment} (hfirst : first.Served)
    (hsecond : second.Served) (target : String) :
  LooksUp first.live second.live target (lookUp server enc parse first second target)
  := by
  rw [lookUp, Moment.ask_eq_send, Moment.ask_eq_send, resolveDownloadTarget]
  by_cases htrim : trim target = ""
  · rw [query, if_pos htrim]
    apply LooksUp.empty htrim
  by_cases hstrip : (Str.ofString target).strip = []
  · rw [hfirst.query_blank server _ (.inl rfl) htrim hstrip]
    apply LooksUp.blank htrim hstrip
  have hasked : Asked target := ⟨htrim, hstrip⟩
  obtain ⟨byHash, hquery, hhash⟩ := hfirst.exists_query_eq_ok hparse server (.inl rfl) hasked
  rw [if_pos rfl] at hhash
  have hone := first.length_withHash_le (Str.ofString target).strip
  rw [← hhash.length_eq, List.length_map] at hone
  rw [hquery]
  cases hlocations : byHash.locations with
  | cons location rest =>
      rw [hlocations] at hhash hone
      have hrest : rest.length ≤ 0 := Nat.le_of_succ_le_succ hone
      obtain rfl := List.length_eq_zero_iff.mp (Nat.le_zero.mp hrest)
      simp only [bind, Except.bind, hlocations]
      apply LooksUp.byHash location hasked (List.singleton_perm.mp hhash).symm
  | nil =>
      rw [hlocations] at hhash
      have hnone := List.nil_perm.mp hhash
      obtain ⟨byName, hquery, hname⟩ := hsecond.exists_query_eq_ok hparse server (.inr rfl) hasked
      rw [if_neg (by decide)] at hname
      simp only [bind, Except.bind, hlocations, hquery]
      cases hlocations : byName.locations with
      | nil =>
          rw [hlocations] at hname
          apply LooksUp.unmatched hasked hnone (List.nil_perm.mp hname)
      | cons location rest =>
          rw [hlocations] at hname
          cases rest with
          | nil => apply LooksUp.byName location hasked hnone (List.singleton_perm.mp hname).symm
          | cons other rest =>
              have hlength := hname.length_eq
              rw [List.length_map] at hlength
              simp only [hlength]
              apply LooksUp.ambiguous hasked hnone
              rw [← hlength, List.length_cons, List.length_cons]
              omega

/-- If the call is an update and is accepted, it makes a record that is clean and of which a node
can read whatever an answer may show. -/
def ServedOperation (nodeTtlSeconds : ℤ) (now : Time) (op : Operation) : Prop :=
  ∀ payload remoteHost record, op = .updateNode payload remoteHost →
    updateRecord nodeTtlSeconds payload remoteHost now = .ok record →
    record.Clean ∧ ReadableRecord record

/-- Histories of such calls leave what can be served. -/
theorem served_runAll {nodeTtlSeconds : ℤ} {history : History}
    (h : ∀ i ∈ history, ServedOperation nodeTtlSeconds i.2 i.1) (clock : Clock) :
  (Moment.mk (runAll nodeTtlSeconds history) clock).Served
  := by
  constructor
  · apply forall_runAll
    intro i hi payload remoteHost record hop hrecord
    apply (h i hi payload remoteHost record hop hrecord).1.cleanFor hrecord
  · apply forall_runAll
    intro i hi payload remoteHost record hop hrecord
    obtain ⟨hclean, hreadable⟩ := h i hi payload remoteHost record hop hrecord
    have hfor := hclean.cleanFor hrecord
    exact ⟨(updateRecord_spec hrecord).valid, ⟨hfor.lastSeen, hfor.expiresAt⟩, hreadable⟩

/-- After every history of such calls a target is looked up by what is live then, and at the second
query by what is live after the calls in between. -/
theorem looksUp_runAll (server : Server) (enc : Url.FormEncoding) {parse : String → Option Json}
    (hparse : Parses parse) (history later : History)
    (hhistory : ∀ i ∈ history ++ later, ServedOperation server.nodeTtlSeconds i.2 i.1)
    (clock clock' : Clock) (target : String) :
  let first := Moment.mk (runAll server.nodeTtlSeconds history) clock
  let second := Moment.mk (runAll server.nodeTtlSeconds (history ++ later)) clock'
  LooksUp first.live second.live target (lookUp server enc parse first second target)
  := by
  apply looksUp_lookUp server enc hparse
  · apply served_runAll
    intro i hi
    apply hhistory i (List.mem_append_left later hi)
  · apply served_runAll hhistory

end RecursionLimit

/-! ### A file of one full block -/

/-- The update of a node that holds a file of one block, with its hash and its size. -/
def updateWithFullBlock : Operation := updateWithBlock (.dict [
  (Str.ofString "index", .int 0),
  (Str.ofString "hash", .str (Str.ofString "y")),
  (Str.ofString "size", .int 1)])

/-- Its record can be served. -/
theorem served_updateWithFullBlock :
  let _ := UnicodeData.ascii
  let _ := RecursionLimit.default
  ServedOperation 90 0 updateWithFullBlock
  := by
  intro _ _ payload remoteHost record hop hrecord
  obtain ⟨rfl, rfl⟩ := Operation.updateNode.inj hop
  obtain rfl := Except.ok.inj hrecord
  have hblock : ∀ block ∈ [Block.mk 0 (some (Str.ofString "y")) (some 1)],
      ReadableBlock block := by
    intro block hblock
    obtain rfl := List.mem_singleton.mp hblock
    exact ⟨by decide, ⟨_, rfl, "y", rfl⟩, ⟨_, rfl, by decide⟩⟩
  constructor
  · constructor
    · exact ⟨"node-a", rfl⟩
    · exact ⟨"127.0.0.1", rfl⟩
    · intro resource hresource
      obtain rfl := List.mem_singleton.mp hresource
      constructor
      · exact ⟨"x", rfl⟩
      · exact ⟨"a", rfl⟩
      · intro block hmem hash hhash
        obtain ⟨_, hsome, hencodable⟩ := (hblock block hmem).hash_encodable
        cases (Option.mem_unique hhash hsome)
        exact hencodable
      · simp [asOptionalString]
    · exact True.intro
    · decide
    · decide
  · intro resource hresource
    obtain rfl := List.mem_singleton.mp hresource
    refine ⟨⟨"node-a", rfl⟩, ⟨"127.0.0.1", rfl⟩, ⟨"x", rfl⟩, ⟨"a", rfl⟩, hblock, ?_, ?_⟩
    · intro n hn
      simp at hn
    · intro n hn
      simp at hn

/-- The file is looked up by its name, first while it is live and then at the end of its lease. -/
theorem looksUp_runAll_fullBlock :
  let _ := UnicodeData.ascii
  let _ := RecursionLimit.default
  let history := [(updateWithFullBlock, 0)]
  let first := Moment.mk (runAll 90 history) fun _ => 0
  let second := Moment.mk (runAll 90 (history ++ [(.listFiles, 1)])) fun _ => 90 * ticksPerSecond
  LooksUp first.live second.live "a" (lookUp memoryServer Url.quotePlus
    (fun body => (Json.loads body).toOption) first second "a")
  := by
  intro _ _ history first second
  apply looksUp_runAll memoryServer Url.quotePlus parses_loads history [(.listFiles, 1)]
  intro i hi
  rcases List.mem_append.mp hi with hi | hi
  · rw [List.mem_singleton.mp hi]
    exact served_updateWithFullBlock
  · rw [List.mem_singleton.mp hi]
    intro _ _ _ hop
    cases hop

end System
