import ResourceDistribution.System.Exchange

/-!
# Sessions

What nodes do at the tracker: they publish their indexes, list the files and go offline, in any
order. A session over texts does to the tracker's map what the calls do that the texts mean, and the
nodes log what these calls return (`session_simulates`). So whoever lists the files logs those of the
indexes that nodes have been told are published (`list_logs_announced`).
-/

open Python Json Fallible Codec Node Tracker

namespace System

/-- The calls of a session. -/
def historyOf (session : List Exchange) : History :=
  session.filterMap fun e => e.call.map fun op => (op, e.clock 0)

/-! ### Publications -/

/-- The files of some publications, as they are listed: every hash once, under the name that some
publication gives it, with the number of resources that have it, and with the blocks that these
have. -/
structure Shows (announced : List (Exchange × ResourceIndex))
    (files : List TrackerDto.FileSummary) : Prop where
  nodup : (files.map TrackerDto.FileSummary.fileHash).Nodup
  mem_iff : ∀ fileHash, (∃ file ∈ files, file.fileHash = fileHash) ↔
    ∃ i ∈ announced, ∃ resource ∈ i.2.resources, resource.fileHash = fileHash
  fileName : ∀ file ∈ files, ∃ i ∈ announced, ∃ resource ∈ i.2.resources,
    resource.fileHash = file.fileHash ∧
      Str.ofString file.fileName = (Str.ofString resource.fileName).strip
  peerCount : ∀ file ∈ files, file.peerCount = (announced.map fun i =>
    (i.2.resources.filter fun resource => resource.fileHash = file.fileHash).length).sum
  blocks_nodup : ∀ file ∈ files, file.availableBlocks.Nodup
  mem_blocks : ∀ file ∈ files, ∀ n, n ∈ file.availableBlocks ↔
    ∃ i ∈ announced, ∃ resource ∈ i.2.resources, resource.fileHash = file.fileHash ∧
      ∃ block ∈ resource.blocks, block.index = n

/-- The records are those of some publications. -/
def Stores (announced : List (Exchange × ResourceIndex)) (nodes : Nodes) : Prop :=
  nodes.values.map Record.resources = announced.map fun i => i.2.resources.map published

theorem Stores.exists_iff {announced : List (Exchange × ResourceIndex)} {nodes : Nodes}
    (h : Stores announced nodes) (P : Resource → Prop) :
  (∃ record ∈ nodes.values, ∃ resource ∈ record.resources, P resource)
    ↔ ∃ i ∈ announced, ∃ resource ∈ i.2.resources, P (published resource)
  := by
  have hleft : (∃ record ∈ nodes.values, ∃ resource ∈ record.resources, P resource)
      ↔ ∃ resources ∈ nodes.values.map Record.resources, ∃ resource ∈ resources, P resource := by
    simp
  rw [hleft, h]
  simp

/-- A published resource has the hash that was announced. -/
theorem fileHash_published_iff {resource : FileResource} {fileHash : String} :
  (published resource).fileHash = Str.ofString fileHash ↔ resource.fileHash = fileHash
  := Str.ofString_inj

/-- The name of an entry is the one that some publication gives the file, stripped. -/
theorem Stores.exists_named {announced : List (Exchange × ResourceIndex)} {nodes : Nodes}
    (h : Stores announced nodes) {fileHash : String} {entry : IndexEntry}
    (hspec : EntrySpec nodes.values (Str.ofString fileHash) entry) :
  ∃ i ∈ announced, ∃ resource ∈ i.2.resources,
    resource.fileHash = fileHash ∧ entry.fileName = (Str.ofString resource.fileName).strip
  := by
  obtain ⟨record, hrecord, hgiven⟩ := List.exists_of_findSome?_eq_some hspec.fileName_eq
  obtain ⟨resource, hresource, hname⟩ := List.exists_of_findSome?_eq_some hgiven
  obtain ⟨hresource, hhash⟩ := List.mem_filter.mp hresource
  obtain ⟨i, hi, resource, hresource, hhash, hname⟩ := (h.exists_iff fun resource =>
    resource.fileHash = Str.ofString fileHash ∧ resource.fileName = entry.fileName).mp
      ⟨record, hrecord, resource, hresource, of_decide_eq_true hhash, Option.some.inj hname⟩
  exact ⟨i, hi, resource, hresource, fileHash_published_iff.mp hhash, hname.symm⟩

theorem length_flatMap_peers (records : List Record) (fileHash : Str) :
  (records.flatMap (Record.peers fileHash)).length = ((records.map Record.resources).map
    fun resources => (resources.filter fun resource => resource.fileHash = fileHash).length).sum
  := by
  rw [List.length_flatMap, List.map_map]
  congr 1
  apply List.map_congr_left
  intro record _
  apply List.length_map

theorem mem_flatMap_blockIndexes {records : List Record} {fileHash : Str} {n : ℤ} :
  n ∈ records.flatMap (Record.blockIndexes fileHash) ↔
    ∃ record ∈ records, ∃ resource ∈ record.resources,
      resource.fileHash = fileHash ∧ ∃ block ∈ resource.blocks, block.index = n
  := by
  simp [Record.blockIndexes, Record.resourcesOf, List.mem_flatMap, and_assoc]

/-- A file of a list of all is the summary of an entry. -/
theorem exists_entry_of_perm {nodes : Nodes} {files : List TrackerDto.FileSummary}
    (hfiles : (files.map summaryMeant).Perm (summaries nodes)) {file : TrackerDto.FileSummary}
    (hfile : file ∈ files) :
  ∃ entry, summaryMeant file = summaryOf entry ∧
    EntrySpec nodes.values (Str.ofString file.fileHash) entry
  := by
  obtain ⟨entry, hentry, heq⟩ := List.mem_map.mp (hfiles.mem_iff.mp (List.mem_map_of_mem hfile))
  have hhash : Str.ofString file.fileHash = entry.fileHash :=
    (congrArg Tracker.FileSummary.fileHash heq).symm
  rw [hhash]
  exact ⟨entry, heq.symm, entrySpec_of_get? (get?_of_mem_values hentry)⟩

/-- The hashes of a list of all files are the keys of the index. -/
theorem fileHashes_perm {nodes : Nodes} {files : List TrackerDto.FileSummary}
    (hfiles : (files.map summaryMeant).Perm (summaries nodes)) :
  ((files.map TrackerDto.FileSummary.fileHash).map Str.ofString).Perm (fileIndex nodes).keys
  := by
  have hperm := hfiles.map Tracker.FileSummary.fileHash
  rw [map_fileHash_summaries, List.map_map] at hperm
  rw [List.map_map]
  exact hperm

/-- The hashes that are listed are those that were announced. -/
theorem Stores.mem_fileHashes_iff {announced : List (Exchange × ResourceIndex)} {nodes : Nodes}
    (h : Stores announced nodes) {files : List TrackerDto.FileSummary}
    (hfiles : (files.map summaryMeant).Perm (summaries nodes)) (fileHash : String) :
  (∃ file ∈ files, file.fileHash = fileHash) ↔
    ∃ i ∈ announced, ∃ resource ∈ i.2.resources, resource.fileHash = fileHash
  := by
  have hmem : (∃ file ∈ files, file.fileHash = fileHash)
      ↔ Str.ofString fileHash ∈ (fileIndex nodes).keys := by
    rw [← (fileHashes_perm hfiles).mem_iff, List.mem_map_of_injective Str.ofString_injective]
    simp
  rw [hmem, mem_keys_fileIndex,
    h.exists_iff fun resource => resource.fileHash = Str.ofString fileHash]
  simp only [fileHash_published_iff]

/-- The peers of an entry are as many as the resources that were announced with its hash. -/
theorem Stores.length_peers {announced : List (Exchange × ResourceIndex)} {nodes : Nodes}
    (h : Stores announced nodes) {fileHash : String} {entry : IndexEntry}
    (hspec : EntrySpec nodes.values (Str.ofString fileHash) entry) :
  entry.peers.length = (announced.map fun i =>
    (i.2.resources.filter fun resource => resource.fileHash = fileHash).length).sum
  := by
  rw [hspec.peers_eq, length_flatMap_peers, h, List.map_map]
  congr 1
  apply List.map_congr_left
  intro i _
  rw [Function.comp_apply, List.filter_map, List.length_map]
  congr 1
  apply List.filter_congr
  intro resource _
  rw [Function.comp_apply, decide_eq_decide]
  apply fileHash_published_iff

/-- The blocks of an entry are those that were announced for its hash. -/
theorem Stores.mem_availableBlocks_iff {announced : List (Exchange × ResourceIndex)}
    {nodes : Nodes} (h : Stores announced nodes) {fileHash : String} {entry : IndexEntry}
    (hspec : EntrySpec nodes.values (Str.ofString fileHash) entry) (n : ℕ) :
  (n : ℤ) ∈ entry.availableBlocks ↔
    ∃ i ∈ announced, ∃ resource ∈ i.2.resources, resource.fileHash = fileHash ∧
      ∃ block ∈ resource.blocks, block.index = n
  := by
  rw [hspec.availableBlocks_eq, mem_sortedSet, mem_flatMap_blockIndexes,
    h.exists_iff fun resource => resource.fileHash = Str.ofString fileHash ∧
      ∃ block ∈ resource.blocks, block.index = n]
  simp only [fileHash_published_iff]
  simp [published, publishedBlock]

/-- The files of a map that stores some publications show them. -/
theorem Stores.shows {announced : List (Exchange × ResourceIndex)} {nodes : Nodes}
    (h : Stores announced nodes) {files : List TrackerDto.FileSummary}
    (hfiles : (files.map summaryMeant).Perm (summaries nodes)) :
  Shows announced files
  := by
  constructor
  · apply List.Nodup.of_map Str.ofString
    exact (fileHashes_perm hfiles).nodup_iff.mpr (fileIndex nodes).nodup
  · exact h.mem_fileHashes_iff hfiles
  · intro file hfile
    obtain ⟨entry, heq, hspec⟩ := exists_entry_of_perm hfiles hfile
    have hentry : Str.ofString file.fileName = entry.fileName :=
      congrArg Tracker.FileSummary.fileName heq
    rw [hentry]
    apply h.exists_named hspec
  · intro file hfile
    obtain ⟨entry, heq, hspec⟩ := exists_entry_of_perm hfiles hfile
    have hcount : file.peerCount = entry.peers.length :=
      congrArg Tracker.FileSummary.peerCount heq
    rw [hcount, h.length_peers hspec]
  · intro file hfile
    obtain ⟨entry, heq, hspec⟩ := exists_entry_of_perm hfiles hfile
    have hblocks : file.availableBlocks.map Nat.cast = entry.availableBlocks :=
      congrArg Tracker.FileSummary.availableBlocks heq
    apply List.Nodup.of_map (Nat.cast : ℕ → ℤ)
    rw [hblocks, hspec.availableBlocks_eq]
    apply (pairwise_sortedSet _).imp
    apply ne_of_lt
  · intro file hfile n
    obtain ⟨entry, heq, hspec⟩ := exists_entry_of_perm hfiles hfile
    have hblocks : file.availableBlocks.map Nat.cast = entry.availableBlocks :=
      congrArg Tracker.FileSummary.availableBlocks heq
    rw [← h.mem_availableBlocks_iff hspec, ← hblocks,
      List.mem_map_of_injective (f := (Nat.cast : ℕ → ℤ)) Nat.cast_injective]

section RecursionLimit

variable [RecursionLimit] [UnicodeData]

/-- What the tracker stores after a session. -/
def runSession (server : Server) (session : List Exchange) : Nodes :=
  session.foldl (fun nodes e => e.after server nodes) Dict.empty

variable {server : Server}

/-! ### Runs -/

omit [RecursionLimit] [UnicodeData] in
/-- Only a publish asks for an update. -/
theorem Exchange.exists_of_call_eq {e : Exchange} {payload : Json} {remoteHost : Option Str}
    (h : e.call = some (.updateNode payload remoteHost)) :
  ∃ index, e.command = .publish (.ok index) ∧ payload = (e.update index).toJson ∧
    remoteHost = some (Str.ofString e.clientHost)
  := by
  rw [Exchange.call] at h
  split at h
  · cases h
  · rename_i index hcommand
    split at h
    · obtain ⟨rfl, rfl⟩ := Operation.updateNode.inj (Option.some.inj h)
      exact ⟨index, hcommand, rfl, rfl⟩
    · cases h
  · cases h
  · split at h
    · cases h
    · cases h

/-- The record that an exchange makes, if it makes one, is clean, and its numbers fit. -/
theorem Exchange.clean_of_call_eq {e : Exchange} (hfits : e.Fits) {nodeTtlSeconds : ℤ}
    {payload : Json} {remoteHost : Option Str} {now : Time} {record : Record}
    (h : e.call = some (.updateNode payload remoteHost))
    (hrecord : updateRecord nodeTtlSeconds payload remoteHost now = .ok record) :
  (record.Clean ∧ Listable record) ∧ record.resources.length = e.weight
  := by
  obtain ⟨index, hcommand, rfl, rfl⟩ := Exchange.exists_of_call_eq h
  have hindex := hfits.index_fits index hcommand
  use clean_of_updateRecord_toJson hindex hrecord
  rw [(resources_of_updateRecord (fun r hr => (hindex r hr).1) hrecord).2, List.length_map,
    Exchange.weight, hcommand]

omit [RecursionLimit] [UnicodeData] in
theorem mem_historyOf {session : List Exchange} {i : Operation × Time}
    (h : i ∈ historyOf session) :
  ∃ e ∈ session, e.call = some i.1 ∧ i.2 = e.clock 0
  := by
  obtain ⟨e, he, hcall⟩ := List.mem_filterMap.mp h
  obtain ⟨op, hop, rfl⟩ := Option.map_eq_some_iff.mp hcall
  exact ⟨e, he, hop, rfl⟩

omit [RecursionLimit] in
/-- What is left after a cleanup are the records that run. -/
theorem mem_items_cleanup_iff (nodeTtlSeconds : ℤ) {session : List Exchange} {t : Time}
    (hclock : ∀ e ∈ session, e.clock 0 ≤ t) (i : Str × Record) :
  i ∈ (cleanupExpired (runAll nodeTtlSeconds (historyOf session)) t).2.items
    ↔ lease nodeTtlSeconds (historyOf session) t i.1 = some i.2
  := by
  have hhistory : ∀ j ∈ historyOf session, j.2 ≤ t := by
    intro j hj
    obtain ⟨e, he, -, htime⟩ := mem_historyOf hj
    rw [htime]
    apply hclock e he
  rw [← live_runAll hhistory, ← get?_cleanupExpired, Dict.get?_eq_some_iff]

omit [RecursionLimit] in
theorem runAll_historyOf_append (nodeTtlSeconds : ℤ) (session : List Exchange) (e : Exchange) :
  runAll nodeTtlSeconds (historyOf (session ++ [e]))
    = (e.call.map fun op => op.after nodeTtlSeconds
        (runAll nodeTtlSeconds (historyOf session)) (e.clock 0)).getD
      (runAll nodeTtlSeconds (historyOf session))
  := by
  rw [historyOf, List.filterMap_append, runAll, List.foldl_append]
  cases hcall : e.call with
  | none =>
      simp only [List.filterMap_cons, hcall, Option.map_none, List.filterMap_nil, List.foldl_nil,
        Option.getD_none]
      rfl
  | some op =>
      simp only [List.filterMap_cons, hcall, Option.map_some, List.filterMap_nil, List.foldl_cons,
        List.foldl_nil, Option.getD_some]
      rfl

section Session

variable {nodeTtlSeconds : ℤ} {session : List Exchange}

variable (nodeTtlSeconds) in
/-- The calls of a session leave a clean map. -/
theorem clean_historyOf (hfits : ∀ e ∈ session, e.Fits) :
  Nodes.Clean (runAll nodeTtlSeconds (historyOf session))
  := by
  apply forall_runAll
  intro i hi payload remoteHost record hop hrecord
  obtain ⟨e, he, hcall, -⟩ := mem_historyOf hi
  rw [hop] at hcall
  apply (Exchange.clean_of_call_eq (hfits e he) hcall hrecord).1.1.cleanFor hrecord

theorem listable_historyOf (hfits : ∀ e ∈ session, e.Fits) :
  ∀ k record, (runAll nodeTtlSeconds (historyOf session)).get? k = some record → Listable record
  := by
  apply forall_runAll (P := fun _ => Listable)
  intro i hi payload remoteHost record hop hrecord
  obtain ⟨e, he, hcall, -⟩ := mem_historyOf hi
  rw [hop] at hcall
  apply (Exchange.clean_of_call_eq (hfits e he) hcall hrecord).1.2

variable (nodeTtlSeconds) in
/-- They store no more resources than were published. -/
theorem length_holdings_historyOf_le (hfits : ∀ e ∈ session, e.Fits) :
  (holdings (runAll nodeTtlSeconds (historyOf session))).length
    ≤ (session.map Exchange.weight).sum
  := by
  induction session using List.reverseRecOn with
  | nil => rfl
  | append_singleton session e ih =>
      have hbefore := ih fun e' he' => hfits e' (List.mem_append_left _ he')
      have he : e.Fits := hfits e (List.mem_append_right _ (List.mem_singleton_self e))
      rw [runAll_historyOf_append, List.map_append, List.sum_append, List.map_singleton,
        List.sum_singleton]
      cases hcall : e.call with
      | none =>
          rw [Option.map_none, Option.getD_none]
          omega
      | some op =>
          rw [Option.map_some, Option.getD_some]
          apply (length_holdings_after_le _).trans (Nat.add_le_add_right hbefore e.weight)
          rintro payload remoteHost record rfl hrecord
          apply (Exchange.clean_of_call_eq he hcall hrecord).2.le

/-- A session over texts does to the tracker's map what the calls do. -/
theorem runSession_eq (hfits : ∀ e ∈ session, e.Fits) :
  runSession server session = runAll server.nodeTtlSeconds (historyOf session)
  := by
  induction session using List.reverseRecOn with
  | nil => rfl
  | append_singleton session e ih =>
      have hbefore : ∀ e' ∈ session, e'.Fits := fun e' he' => hfits e' (List.mem_append_left _ he')
      have he : e.Fits := hfits e (List.mem_append_right _ (List.mem_singleton_self e))
      have hlast : runSession server (session ++ [e])
          = e.after server (runSession server session) := by
        rw [runSession, List.foldl_append]
        rfl
      rw [hlast, ih hbefore, Exchange.after_eq he (clean_historyOf _ hbefore),
        runAll_historyOf_append]

variable (server) in
/-- If fewer than 2^64 resources are published in all, a node logs what is to be reported. -/
theorem reports_of_fits (hfits : ∀ e ∈ session, e.Fits) {e : Exchange} (he : e.Fits)
    (hcount : (session.map Exchange.weight).sum + e.weight < 2 ^ 64) {parse : String → Option Json}
    (hparse : Parses parse) :
  e.Reports server.nodeTtlSeconds (runAll server.nodeTtlSeconds (historyOf session))
    (e.log server parse (runSession server session))
  := by
  rw [runSession_eq hfits]
  have hclean := clean_historyOf server.nodeTtlSeconds hfits
  have hle := length_holdings_historyOf_le server.nodeTtlSeconds hfits
  cases hcommand : e.command with
  | publish scanned => apply Exchange.reports_publish server he hcommand hclean (by omega) hparse
  | list =>
      apply Exchange.reports_list server hcommand hclean (valid_runAll _ _)
        (listable_historyOf hfits) (by omega) hparse
  | offline => apply Exchange.reports_offline server hcommand hclean hparse

/-- In a session of nodes that publish fewer than 2^64 resources in all, the tracker stores, before
every exchange, what the calls so far leave, and the node logs what its call returns. -/
theorem session_simulates (server : Server) (session : List Exchange)
    (hfits : ∀ e ∈ session, e.Fits) (hcount : (session.map Exchange.weight).sum < 2 ^ 64)
    {parse : String → Option Json} (hparse : Parses parse) :
  ∀ before e after, session = before ++ e :: after →
    runSession server before = runAll server.nodeTtlSeconds (historyOf before) ∧
    e.Reports server.nodeTtlSeconds (runAll server.nodeTtlSeconds (historyOf before))
      (e.log server parse (runSession server before))
  := by
  rintro before e after rfl
  have hbefore : ∀ e' ∈ before, e'.Fits := fun e' he' => hfits e' (List.mem_append_left _ he')
  have he : e.Fits := hfits e (List.mem_append_right _ List.mem_cons_self)
  rw [List.map_append, List.sum_append, List.map_cons, List.sum_cons] at hcount
  use runSession_eq hbefore
  apply reports_of_fits server hbefore he (by omega) hparse

/-! ### What nodes have been told -/

omit [RecursionLimit] [UnicodeData] in
/-- The id under which the tracker stores the node. -/
def Exchange.key (e : Exchange) : Str := (Str.ofString e.nodeId).strip

omit [RecursionLimit] in
/-- What an exchange does to the record of the node: an accepted publish gives it a record, an
accepted removal takes its record away. -/
def Exchange.write (e : Exchange) (nodeTtlSeconds : ℤ) : Option (Option Record) :=
  match e.call, e.command with
  | some _, .publish (.ok index) =>
      (updateRecord nodeTtlSeconds (e.update index).toJson (some (Str.ofString e.clientHost))
        (e.clock 0)).toOption.map some
  | some _, .offline => if e.key = [] then none else some none
  | _, _ => none

omit [RecursionLimit] in
/-- The record is stored under the key of the node. -/
theorem Exchange.nodeId_eq_key {e : Exchange} {index : ResourceIndex} {remoteHost : Option Str}
    {now : Time} {record : Record}
    (h : updateRecord nodeTtlSeconds (e.update index).toJson remoteHost now = .ok record) :
  record.nodeId = e.key
  := by
  obtain ⟨items, raw, hitems, hr⟩ := exists_of_updateRecord h
  obtain rfl := Json.dict.inj hitems
  obtain ⟨t, ht, -, hid⟩ := asNonEmptyString_eq_ok_iff.mp hr.nodeId
  rw [List.map_cons, Json.get_cons, if_pos rfl] at ht
  rw [hid, ← Json.str.inj ht]
  rfl

omit [RecursionLimit] [UnicodeData] in
/-- The host under which the tracker lists the node: the one that it announces, unless it announces
none. -/
def Exchange.host (e : Exchange) : Str :=
  (Str.ofString (if e.peerHost = "" then e.clientHost else e.peerHost)).strip

omit [RecursionLimit] in
theorem Exchange.host_eq {e : Exchange} {index : ResourceIndex} {now : Time} {record : Record}
    (h : updateRecord nodeTtlSeconds (e.update index).toJson (some (Str.ofString e.clientHost)) now
      = .ok record) :
  record.host = e.host
  := by
  obtain ⟨items, raw, hitems, hr⟩ := exists_of_updateRecord h
  obtain rfl := Json.dict.inj hitems
  obtain ⟨t, ht, -, hhost⟩ := asNonEmptyString_eq_ok_iff.mp hr.host
  simp only [List.map_cons, List.map_nil, Json.get_cons, String.reduceEq, if_true, if_false]
    at ht
  change (((jsonOfString e.peerHost).or .null).or .null).or (jsonOfString e.clientHost) = .str t
    at ht
  rw [hhost, Exchange.host]
  by_cases hempty : e.peerHost = ""
  · rw [hempty] at ht
    rw [if_pos hempty, ← Json.str.inj ht]
  · have hne : Str.ofString e.peerHost ≠ [] := by
      intro hnil
      apply hempty (Str.ofString_injective hnil)
    simp only [jsonOfString, Json.or, Json.truthy, hne, ne_eq, not_false_eq_true, decide_true,
      if_true] at ht
    rw [if_neg hempty, ← Json.str.inj ht]

omit [RecursionLimit] in
theorem Exchange.port_eq {e : Exchange} {index : ResourceIndex} {remoteHost : Option Str}
    {now : Time} {record : Record}
    (h : updateRecord nodeTtlSeconds (e.update index).toJson remoteHost now = .ok record) :
  record.port = e.peerPort
  := by
  obtain ⟨items, raw, hitems, hr⟩ := exists_of_updateRecord h
  obtain rfl := Json.dict.inj hitems
  have hport := hr.port
  simp only [List.map_cons, List.map_nil, asPort, Json.get_cons, String.reduceEq, if_true, if_false]
    at hport
  obtain ⟨port, hint, hbound⟩ := bind_eq_ok.mp hport
  have hsent : port = e.peerPort := by
    change asInt (.int e.peerPort) "port" (some 1) = .ok port at hint
    by_cases hle : (1 : ℤ) ≤ e.peerPort
    · rw [asInt_int hle] at hint
      exact (Except.ok.inj hint).symm
    · simp only [asInt, Json.toInt, if_pos (not_le.mp hle)] at hint
      cases hint
  split at hbound
  · cases hbound
  · rw [← Except.ok.inj hbound, hsent]

omit [RecursionLimit] [UnicodeData] in
/-- The peer that the node is for a resource that it has published. -/
def Exchange.peer (e : Exchange) (nodeTtlSeconds : ℤ) (resource : Resource) : Peer where
  nodeId := e.key
  host := e.host
  port := e.peerPort
  lastSeen := iso (e.clock 0)
  expiresAt := iso (e.clock 0 + nodeTtlSeconds * ticksPerSecond)
  blocks := resource.blocks

omit [RecursionLimit] [UnicodeData] in
/-- The records are those of some publications, with the addresses and the times of the nodes. -/
def Keeps (nodeTtlSeconds : ℤ) (announced : List (Exchange × ResourceIndex)) (nodes : Nodes) :
    Prop :=
  nodes.values.map (fun record => (peerOf record, record.resources))
    = announced.map fun i => (i.1.peer nodeTtlSeconds, i.2.resources.map published)

omit [RecursionLimit] [UnicodeData] in
theorem Keeps.stores {announced : List (Exchange × ResourceIndex)} {nodes : Nodes}
    (h : Keeps nodeTtlSeconds announced nodes) :
  Stores announced nodes
  := by
  have hresources := congrArg (List.map Prod.snd) h
  rw [List.map_map, List.map_map] at hresources
  exact hresources

omit [RecursionLimit] in
theorem Exchange.peer_eq {e : Exchange} {index : ResourceIndex} {record : Record}
    (h : updateRecord nodeTtlSeconds (e.update index).toJson (some (Str.ofString e.clientHost))
      (e.clock 0) = .ok record) :
  peerOf record = e.peer nodeTtlSeconds
  := by
  have hspec := updateRecord_spec h
  funext resource
  rw [peerOf, Exchange.peer, Exchange.nodeId_eq_key h, Exchange.host_eq h, Exchange.port_eq h,
    hspec.lastSeen_eq, hspec.expiresAt_eq]

omit [RecursionLimit] [UnicodeData] in
theorem Exchange.asNonEmptyString_eq_error {e : Exchange} (h : e.key = []) :
  ∃ exc, asNonEmptyString (jsonOfString e.nodeId) "node_id" = .error exc
  := by
  rw [Exchange.key] at h
  rw [jsonOfString, asNonEmptyString, if_pos h]
  exact ⟨_, rfl⟩

omit [RecursionLimit] in
/-- The call of an exchange writes what the exchange writes, to the record of its node only. -/
theorem Exchange.writeTo_eq {e : Exchange} {op : Operation} (hcall : e.call = some op) (k : Str) :
  op.writeTo nodeTtlSeconds (e.clock 0) k
    = if e.key = k then e.write nodeTtlSeconds else none
  := by
  rw [Exchange.write, hcall]
  rw [Exchange.call] at hcall
  cases hcommand : e.command with
  | publish scanned =>
      cases scanned with
      | error error => simp only [hcommand, reduceCtorEq] at hcall
      | ok index =>
          simp only [hcommand, Option.ite_none_right_eq_some, Option.some.injEq] at hcall
          obtain ⟨-, rfl⟩ := hcall
          simp only [Operation.writeTo]
          cases hrecord : updateRecord nodeTtlSeconds (e.update index).toJson
              (some (Str.ofString e.clientHost)) (e.clock 0) with
          | error exc => simp [Except.toOption]
          | ok record => simp [Except.toOption, nodeId_eq_key hrecord]
  | list =>
      simp only [hcommand, Option.some.injEq] at hcall
      subst hcall
      simp [Operation.writeTo]
  | offline =>
      simp only [hcommand, Option.ite_none_right_eq_some, Option.some.injEq] at hcall
      obtain ⟨-, rfl⟩ := hcall
      by_cases hkey : e.key = []
      · obtain ⟨exc, herror⟩ := Exchange.asNonEmptyString_eq_error hkey
        simp [Operation.writeTo, herror, hkey]
      · rw [Operation.writeTo, asNonEmptyString_of_not_blank hkey]
        simp only [if_neg hkey]
        rfl

/-- The node has been told that its publish, or its removal, was accepted exactly when its record
was written. -/
theorem isOk_log_iff (hfits : ∀ e ∈ session, e.Fits) {e : Exchange} (he : e.Fits)
    (hcount : (session.map Exchange.weight).sum + e.weight < 2 ^ 64) {parse : String → Option Json}
    (hparse : Parses parse) (hcommand : e.command ≠ .list) :
  (e.log server parse (runSession server session)).isOk
    ↔ (e.write server.nodeTtlSeconds).isSome
  := by
  have hreports := reports_of_fits server hfits he hcount hparse
  generalize e.log server parse (runSession server session) = log at hreports ⊢
  generalize runAll server.nodeTtlSeconds (historyOf session) = nodes at hreports
  cases hreports with
  | unscanned hpublish =>
      have hcall : e.call = none := by simp only [Exchange.call, hpublish]
      simp [Exchange.write, hcall, Except.isOk, Except.toBool]
  | published hpublish hcall hupdate =>
      obtain ⟨record, hrecord, -⟩ := bind_eq_ok.mp hupdate
      obtain ⟨op, hop⟩ := Option.isSome_iff_exists.mp hcall
      simp [Exchange.write, hop, hpublish, hrecord, Except.isOk, Except.toBool, Except.toOption]
  | rejected hpublish hraises =>
      rcases hraises with hcall | ⟨exc, hupdate⟩
      · simp [Exchange.write, hcall, Except.isOk, Except.toBool]
      · cases hrecord : updateRecord server.nodeTtlSeconds _
            (some (Str.ofString e.clientHost)) (e.clock 0) with
        | ok record =>
            rw [updateNode_eq_ok nodes hrecord] at hupdate
            cases hupdate
        | error exc =>
            have hwrite : e.write server.nodeTtlSeconds = none := by
              rw [Exchange.write, hpublish]
              cases e.call with
              | none => rfl
              | some op =>
                  simp only [hrecord]
                  rfl
            simp [hwrite, Except.isOk, Except.toBool]
  | listed hlist => cases hcommand hlist
  | removed hoffline hcall hremove =>
      obtain ⟨id, hid, -⟩ := bind_eq_ok.mp hremove
      obtain ⟨op, hop⟩ := Option.isSome_iff_exists.mp hcall
      have hkey : e.key ≠ [] := by
        intro hkey
        obtain ⟨exc, herror⟩ := Exchange.asNonEmptyString_eq_error hkey
        rw [herror] at hid
        cases hid
      simp [Exchange.write, hop, hoffline, hkey, Except.isOk, Except.toBool]
  | refused hoffline hraises =>
      rcases hraises with hcall | ⟨exc, hremove⟩
      · simp [Exchange.write, hcall, Except.isOk, Except.toBool]
      · have hkey : e.key = [] := by
          by_contra hkey
          rw [markNodeOffline, asNonEmptyString_of_not_blank hkey] at hremove
          cases hremove
        cases hcall : e.call with
        | none => simp [Exchange.write, hcall, Except.isOk, Except.toBool]
        | some op => simp [Exchange.write, hcall, hoffline, hkey, Except.isOk, Except.toBool]

omit [RecursionLimit] in
/-- The last call on a node is that of the last exchange that writes its record. -/
theorem lastOperationOn_historyOf (session : List Exchange) (k : Str) :
  lastOperationOn nodeTtlSeconds (historyOf session) k
    = session.reverse.findSome? fun e => if e.key = k then e.write nodeTtlSeconds else none
  := by
  rw [lastOperationOn, historyOf, ← List.filterMap_reverse]
  induction session.reverse with
  | nil => rfl
  | cons e l ih =>
      cases hcall : e.call with
      | none =>
          have hwrite : e.write nodeTtlSeconds = none := by rw [Exchange.write, hcall]
          rw [List.filterMap_cons_none (by rw [hcall]; rfl), ih, List.findSome?_cons, hwrite]
          simp
      | some op =>
          rw [List.filterMap_cons_some (by rw [hcall]; rfl), List.findSome?_cons,
            List.findSome?_cons, ih, Exchange.writeTo_eq hcall]

omit [RecursionLimit] in
/-- The lease map has a record exactly when some exchange gave it to its node, no later one wrote
the record of this node, and the lease runs. -/
theorem lease_historyOf_iff {t : Time} {k : Str} {record : Record} :
  lease nodeTtlSeconds (historyOf session) t k = some record ↔
    ∃ before e after, session = before ++ e :: after ∧ e.key = k ∧
      e.write nodeTtlSeconds = some (some record) ∧
      (∀ e' ∈ after, e'.key = k → e'.write nodeTtlSeconds = none) ∧ t < record.expiresAtEpoch
  := by
  rw [lease, lastOperationOn_historyOf]
  simp only [Option.filter_eq_some_iff, Option.join_eq_some_iff, List.findSome?_eq_some_iff,
    Option.ite_none_right_eq_some, decide_eq_true_eq, ite_eq_right_iff]
  constructor
  · rintro ⟨⟨after, e, before, hsplit, ⟨hkey, hwrite⟩, hlast⟩, ht⟩
    have hsession : session = before.reverse ++ e :: after.reverse := by
      rw [← List.reverse_reverse session, hsplit]
      simp
    use before.reverse, e, after.reverse, hsession, hkey, hwrite
    constructor
    · intro e' he'
      apply hlast e' (List.mem_reverse.mp he')
    · exact ht
  · rintro ⟨before, e, after, rfl, hkey, hwrite, hlast, ht⟩
    refine ⟨⟨after.reverse, e, before.reverse, by simp, ⟨hkey, hwrite⟩, ?_⟩, ht⟩
    intro e' he'
    apply hlast e' (List.mem_reverse.mp he')

/-- At the time `t` a node stands by the index that it has published in the exchange `e`: it has
been told that it was accepted, its lease runs, and it has not been told so of anything since. -/
def Announced (server : Server) (parse : String → Option Json) (session : List Exchange) (t : Time)
    (e : Exchange) (index : ResourceIndex) : Prop :=
  ∃ before after, session = before ++ e :: after ∧ e.command = .publish (.ok index) ∧
    (e.log server parse (runSession server before)).isOk ∧
    t < e.clock 0 + server.nodeTtlSeconds * ticksPerSecond ∧
    ∀ between e' later, after = between ++ e' :: later → e'.key = e.key → e'.command ≠ .list →
      ¬ (e'.log server parse (runSession server (before ++ e :: between))).isOk

omit [RecursionLimit] in
/-- What is written in a publish is a record of the index. -/
theorem Exchange.write_publish_iff {e : Exchange} {index : ResourceIndex}
    (hcommand : e.command = .publish (.ok index)) {w : Option Record} :
  e.write nodeTtlSeconds = some w ↔ e.call.isSome ∧ ∃ record, w = some record ∧
    updateRecord nodeTtlSeconds (e.update index).toJson (some (Str.ofString e.clientHost))
      (e.clock 0) = .ok record
  := by
  cases hcall : e.call with
  | none => simp [Exchange.write, hcall]
  | some op =>
      cases hrecord : updateRecord nodeTtlSeconds (e.update index).toJson
          (some (Str.ofString e.clientHost)) (e.clock 0) with
      | error exc => simp [Exchange.write, hcall, hcommand, hrecord, Except.toOption]
      | ok record =>
          simp [Exchange.write, hcall, hcommand, hrecord, Except.toOption, eq_comm]

omit [RecursionLimit] in
/-- Only a publish gives a node a record. -/
theorem Exchange.exists_of_write_eq {e : Exchange} {record : Record}
    (h : e.write nodeTtlSeconds = some (some record)) :
  ∃ index, e.command = .publish (.ok index) ∧
    updateRecord nodeTtlSeconds (e.update index).toJson (some (Str.ofString e.clientHost))
      (e.clock 0) = .ok record
  := by
  cases hcommand : e.command with
  | publish scanned =>
      cases scanned with
      | error error =>
          have hcall : e.call = none := by simp only [Exchange.call, hcommand]
          simp [Exchange.write, hcall] at h
      | ok index =>
          obtain ⟨-, _, ⟨⟩, hrecord⟩ := (Exchange.write_publish_iff hcommand).mp h
          exact ⟨index, rfl, hrecord⟩
  | list => simp [Exchange.write, hcommand] at h
  | offline =>
      rw [Exchange.write, hcommand] at h
      cases hcall : e.call with
      | none => simp [hcall] at h
      | some op =>
          simp only [hcall] at h
          split at h <;> simp at h

section Told

variable (hfits : ∀ e ∈ session, e.Fits) (hcount : (session.map Exchange.weight).sum < 2 ^ 64)
  {parse : String → Option Json} (hparse : Parses parse)

include hfits hcount hparse

/-- So has the node of an exchange of a session been told. -/
theorem isOk_log_iff_of_eq {before after : List Exchange} {e : Exchange}
    (hsession : session = before ++ e :: after) (hcommand : e.command ≠ .list) :
  (e.log server parse (runSession server before)).isOk ↔ (e.write server.nodeTtlSeconds).isSome
  := by
  subst hsession
  rw [List.map_append, List.sum_append, List.map_cons, List.sum_cons] at hcount
  apply isOk_log_iff (fun e' he' => hfits e' (List.mem_append_left _ he'))
    (hfits e (List.mem_append_right _ List.mem_cons_self)) (by omega) hparse hcommand

/-- A node stands by an index exactly when its last written record is one of the index, and has not
expired. -/
theorem announced_iff {t : Time} {e : Exchange} {index : ResourceIndex} :
  Announced server parse session t e index ↔
    ∃ before after record, session = before ++ e :: after ∧ e.command = .publish (.ok index) ∧
      e.write server.nodeTtlSeconds = some (some record) ∧
      (∀ e' ∈ after, e'.key = e.key → e'.write server.nodeTtlSeconds = none) ∧
      t < record.expiresAtEpoch
  := by
  constructor
  · rintro ⟨before, after, hsession, hcommand, hok, ht, hlast⟩
    rw [isOk_log_iff_of_eq hfits hcount hparse hsession (by rw [hcommand]; nofun)] at hok
    obtain ⟨w, hw⟩ := Option.isSome_iff_exists.mp hok
    obtain ⟨-, record, rfl, hrecord⟩ := (Exchange.write_publish_iff hcommand).mp hw
    refine ⟨before, after, record, hsession, hcommand, hw, ?_, ?_⟩
    · intro e' he' hkey
      obtain ⟨between, later, rfl⟩ := List.append_of_mem he'
      by_cases hlist : e'.command = .list
      · rw [Exchange.write, hlist]
        cases e'.call <;> rfl
      · have htold := hlast between e' later rfl hkey hlist
        have hsplit : session = (before ++ e :: between) ++ e' :: later := by simp [hsession]
        rw [isOk_log_iff_of_eq hfits hcount hparse hsplit hlist] at htold
        exact Option.not_isSome_iff_eq_none.mp htold
    · rw [(updateRecord_spec hrecord).expiresAtEpoch_eq]
      exact ht
  · rintro ⟨before, after, record, hsession, hcommand, hw, hlast, ht⟩
    obtain ⟨-, _, ⟨⟩, hrecord⟩ := (Exchange.write_publish_iff hcommand).mp hw
    refine ⟨before, after, hsession, hcommand, ?_, ?_, ?_⟩
    · rw [isOk_log_iff_of_eq hfits hcount hparse hsession (by rw [hcommand]; nofun), hw]
      rfl
    · rw [(updateRecord_spec hrecord).expiresAtEpoch_eq] at ht
      exact ht
    · rintro between e' later rfl hkey hlist
      have hsplit : session = (before ++ e :: between) ++ e' :: later := by simp [hsession]
      rw [isOk_log_iff_of_eq hfits hcount hparse hsplit hlist,
        hlast e' (List.mem_append_right _ List.mem_cons_self) hkey]
      nofun

/-- A node stands by one index only. -/
theorem announced_unique {t : Time} {e e' : Exchange} {index index' : ResourceIndex}
    (h : Announced server parse session t e index)
    (h' : Announced server parse session t e' index') (hkey : e.key = e'.key) :
  (e, index) = (e', index')
  := by
  rw [announced_iff hfits hcount hparse] at h h'
  obtain ⟨before, after, record, hsession, hcommand, hwrite, hlast, -⟩ := h
  obtain ⟨before', after', record', hsession', hcommand', hwrite', hlast', -⟩ := h'
  have heq : e = e' := by
    apply List.eq_of_append_cons_eq (hsession.symm.trans hsession')
    · intro he
      rw [hlast' e he hkey] at hwrite
      cases hwrite
    · intro he'
      rw [hlast e' he' hkey.symm] at hwrite'
      cases hwrite'
  subst heq
  rw [hcommand] at hcommand'
  rw [Except.ok.inj (Command.publish.inj hcommand')]

/-- The records that run are those of the indexes that nodes stand by. -/
theorem announced_of_lease {t : Time} {k : Str} {record : Record}
    (h : lease server.nodeTtlSeconds (historyOf session) t k = some record) :
  ∃ e index, Announced server parse session t e index ∧ e.key = k ∧
    (peerOf record, record.resources)
      = (e.peer server.nodeTtlSeconds, index.resources.map published)
  := by
  obtain ⟨before, e, after, hsession, hkey, hwrite, hlast, ht⟩ := lease_historyOf_iff.mp h
  obtain ⟨index, hcommand, hrecord⟩ := Exchange.exists_of_write_eq hwrite
  have he : e ∈ session := by
    rw [hsession]
    apply List.mem_append_right _ List.mem_cons_self
  have hindex := (hfits e he).index_fits index hcommand
  have hresources := (resources_of_updateRecord (fun r hr => (hindex r hr).1) hrecord).2
  refine ⟨e, index, ?_, hkey, by rw [Exchange.peer_eq hrecord, hresources]⟩
  rw [announced_iff hfits hcount hparse]
  subst hkey
  exact ⟨before, after, record, hsession, hcommand, hwrite, hlast, ht⟩

variable (server) in
/-- The indexes that nodes stand by are what the map stores of them after a cleanup. -/
theorem exists_announced {t : Time} (hclock : ∀ e ∈ session, e.clock 0 ≤ t) :
  ∃ announced : List (Exchange × ResourceIndex), (announced.map fun i => i.1.key).Nodup ∧
    (∀ e index, (e, index) ∈ announced ↔ Announced server parse session t e index) ∧
    Keeps server.nodeTtlSeconds announced
      (cleanupExpired (runAll server.nodeTtlSeconds (historyOf session)) t).2
  := by
  have hitems := mem_items_cleanup_iff server.nodeTtlSeconds hclock
  set cleaned := (cleanupExpired (runAll server.nodeTtlSeconds (historyOf session)) t).2
  have hchoice : ∀ i : Str × Record, ∃ p : Exchange × ResourceIndex, i ∈ cleaned.items →
      Announced server parse session t p.1 p.2 ∧ p.1.key = i.1 ∧
        (peerOf i.2, i.2.resources)
          = (p.1.peer server.nodeTtlSeconds, p.2.resources.map published) := by
    intro i
    by_cases hi : i ∈ cleaned.items
    · obtain ⟨e, index, h⟩ := announced_of_lease hfits hcount hparse ((hitems i).mp hi)
      exact ⟨(e, index), fun _ => h⟩
    · exact ⟨⟨⟨"", "", 0, "", .list, fun _ => 0⟩, ⟨[]⟩⟩, fun hi' => absurd hi' hi⟩
  choose publication hpublication using hchoice
  use cleaned.items.map publication
  refine ⟨?_, ?_, ?_⟩
  · have hkeys : (cleaned.items.map publication).map (fun i => i.1.key)
        = cleaned.items.map Prod.fst := by
      rw [List.map_map]
      apply List.map_congr_left
      intro i hi
      exact (hpublication i hi).2.1
    rw [hkeys]
    exact cleaned.nodup
  · intro e index
    rw [List.mem_map]
    constructor
    · rintro ⟨i, hi, heq⟩
      have hannounced := (hpublication i hi).1
      rw [heq] at hannounced
      exact hannounced
    · intro hannounced
      obtain ⟨before, after, record, hsession, -, hwrite, hlast, ht⟩ :=
        (announced_iff hfits hcount hparse).mp hannounced
      have hi : (e.key, record) ∈ cleaned.items :=
        (hitems (e.key, record)).mpr
          (lease_historyOf_iff.mpr ⟨before, e, after, hsession, rfl, hwrite, hlast, ht⟩)
      use (e.key, record), hi
      obtain ⟨hother, hkey, -⟩ := hpublication _ hi
      exact announced_unique hfits hcount hparse hother hannounced hkey
  · rw [Keeps, Dict.values, List.map_map, List.map_map]
    apply List.map_congr_left
    intro i hi
    exact (hpublication i hi).2.2

variable (server) in
/-- Whoever lists the files after a session logs the files of the indexes that nodes stand by. No
reading of the clock in the session may be later. -/
theorem list_logs_announced {e : Exchange} (hlist : e.command = .list)
    (hclock : ∀ e' ∈ session, e'.clock 0 ≤ e.clock 0) :
  ∃ (announced : List (Exchange × ResourceIndex)) (files : List TrackerDto.FileSummary),
    (announced.map fun i => i.1.key).Nodup ∧
    (∀ e' index, (e', index) ∈ announced
      ↔ Announced server parse session (e.clock 0) e' index) ∧
    Shows announced files ∧
    e.log server parse (runSession server session) = .ok (listLog files)
  := by
  obtain ⟨announced, hkeys, hmem, hkeeps⟩ :=
    exists_announced server hfits hcount hparse hclock
  have hle := length_holdings_historyOf_le server.nodeTtlSeconds hfits
  have hreports := Exchange.reports_list server hlist (clean_historyOf _ hfits)
    (valid_runAll _ _) (listable_historyOf hfits) (hle.trans_lt hcount) hparse
  rw [← runSession_eq hfits] at hreports
  generalize hlog : e.log server parse (runSession server session) = log at hreports
  cases hreports with
  | @listed files _ hfiles =>
      refine ⟨announced, files, hkeys, hmem, ?_, rfl⟩
      apply hkeeps.stores.shows
      rw [hfiles, runSession_eq hfits, listFiles_eq_sortBy]
      apply Keyed.sortBy_perm
  | unscanned hcommand => rw [hlist] at hcommand; cases hcommand
  | published hcommand => rw [hlist] at hcommand; cases hcommand
  | rejected hcommand => rw [hlist] at hcommand; cases hcommand
  | removed hcommand => rw [hlist] at hcommand; cases hcommand
  | refused hcommand => rw [hlist] at hcommand; cases hcommand

end Told

end Session

end RecursionLimit

/-! ### A session of two nodes -/

/-- The index of a share directory with one file of one byte. -/
def oneFile [Sha256] : ResourceIndex := ⟨[resourceOf linuxReads 512 [utf8 "a"] [97]]⟩

/-- A node publishes this index. -/
def publishOneFile [Sha256] : Exchange :=
  ⟨"node-a", "127.0.0.1", 9001, "127.0.0.1", .publish (.ok oneFile), fun _ => 0⟩

/-- Another node lists the files at `t`. -/
def listAt (t : Time) : Exchange := ⟨"node-b", "127.0.0.1", 9002, "127.0.0.1", .list, fun _ => t⟩

theorem fits_publishOneFile [Sha256] :
  publishOneFile.Fits
  := by
  constructor
  · exact (by decide : 9001 < 2 ^ 16)
  · rintro index ⟨⟩ resource hresource
    rw [List.mem_singleton.mp hresource]
    use indexed_resourceOfChunks _ _ _ _
    apply resourceFits_resourceOf (by decide) (by decide)
    decide

theorem fits_listAt (t : Time) :
  (listAt t).Fits
  := by
  constructor
  · exact (by decide : 9002 < 2 ^ 16)
  · rintro index ⟨⟩

/-- A publish, a list of the files and another one after the lease. -/
theorem session_simulates_oneFile :
  let _ := UnicodeData.ascii
  let _ := RecursionLimit.default
  let _ := Sha256.short
  let parse := fun body => (Json.loads body).toOption
  let before := [publishOneFile, listAt 1]
  let e := listAt (91 * ticksPerSecond)
  runSession memoryServer before = runAll 90 (historyOf before) ∧
    e.Reports 90 (runAll 90 (historyOf before))
      (e.log memoryServer parse (runSession memoryServer before))
  := by
  intro _ _ _ parse before e
  apply session_simulates memoryServer [publishOneFile, listAt 1, e] _ _ parses_loads
    before e [] rfl
  · simp only [List.forall_mem_cons, List.not_mem_nil, false_implies, implies_true, and_true]
    exact ⟨fits_publishOneFile, fits_listAt _, fits_listAt _⟩
  · decide

/-- The publish is accepted. -/
theorem exists_write_publishOneFile :
  let _ := UnicodeData.ascii
  let _ := Sha256.short
  ∃ record, updateRecord 90 (publishOneFile.update oneFile).toJson
      (some (Str.ofString "127.0.0.1")) 0 = .ok record ∧
    publishOneFile.write 90 = some (some record)
  := by
  intro _ _
  have hindex := fits_publishOneFile.index_fits oneFile rfl
  have hpublishable : ∀ resource ∈ oneFile.resources, Publishable resource := by
    intro resource hresource
    use (hindex resource hresource).1
    · rw [List.mem_singleton.mp hresource]
      decide
    · rw [List.mem_singleton.mp hresource]
      decide
  have hid : (Str.ofString "node-a").strip ≠ [] := by decide
  have hhost : (Str.ofString "127.0.0.1").strip ≠ [] := by decide
  have hrange : 1 ≤ 9001 ∧ 9001 ≤ 65535 := by decide
  have hport : 9001 < 2 ^ 16 := by decide
  obtain ⟨record, hrecord, -⟩ :=
    updateRecord_toJson hpublishable hid hhost hrange 90 (some (Str.ofString "127.0.0.1")) 0
  have hle : (bodyOf (publishOneFile.update oneFile).toJson).length ≤ 1024 * 1024 := by
    apply (length_requestBody (fun r hr => (hindex r hr).1) (fun r hr => (hindex r hr).2) "node-a"
      "127.0.0.1" hport).2.trans
    decide
  use record, hrecord
  apply (Exchange.write_publish_iff rfl).mpr
  exact ⟨Exchange.isSome_call rfl hle, record, rfl, hrecord⟩

theorem fits_session :
  let _ := Sha256.short
  ∀ e ∈ [publishOneFile], e.Fits
  := by
  intro _ e he
  rw [List.mem_singleton.mp he]
  apply fits_publishOneFile

/-- The node stands by its index while the lease runs. -/
theorem announced_publishOneFile :
  let _ := UnicodeData.ascii
  let _ := RecursionLimit.default
  let _ := Sha256.short
  Announced memoryServer (fun body => (Json.loads body).toOption) [publishOneFile] 1 publishOneFile
    oneFile
  := by
  intro _ _ _
  rw [announced_iff fits_session (by decide) parses_loads]
  obtain ⟨record, hrecord, hwrite⟩ := exists_write_publishOneFile
  refine ⟨[], [], record, rfl, rfl, hwrite, by simp, ?_⟩
  rw [(updateRecord_spec hrecord).expiresAtEpoch_eq]
  exact (by decide : (1 : ℤ) < 0 + 90 * ticksPerSecond)

/-- The file is listed while the lease runs. -/
theorem list_logs_announced_oneFile :
  let _ := UnicodeData.ascii
  let _ := RecursionLimit.default
  let _ := Sha256.short
  let parse := fun body => (Json.loads body).toOption
  ∃ files, (∃ file ∈ files, file.fileHash = Sha256.hex [97]) ∧
    (listAt 1).log memoryServer parse (runSession memoryServer [publishOneFile])
      = .ok (listLog files)
  := by
  intro _ _ _ parse
  obtain ⟨announced, files, -, hannounced, hshows, hlog⟩ :=
    list_logs_announced memoryServer fits_session (by decide) parses_loads (e := listAt 1) rfl
      (by simp [publishOneFile, listAt])
  refine ⟨files, ?_, hlog⟩
  apply (hshows.mem_iff _).mpr
  exact ⟨_, (hannounced _ _).mpr announced_publishOneFile, _, List.mem_singleton_self _, rfl⟩

end System
