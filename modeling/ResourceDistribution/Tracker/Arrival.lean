import ResourceDistribution.Data.FirstGiven
import ResourceDistribution.Tracker.Persistence

/-!
# The order in which updates arrive

Updates of distinct nodes leave the same records, whatever their order, and so does a new process
that reads the state file, where the keys are sorted (`Leaves.perm_bare`). The file index
collects hashes, peers and blocks of all records, in which order they may be; the name and the
sizes of a file are those of the first record that gives them.
-/

open Python

namespace Tracker

/-! ### Records without their times -/

/-- A record without its times and its metadata. -/
def Record.bare (record : Record) : Record :=
  { record with
    lastSeen := []
    lastSeenEpoch := 0
    expiresAt := []
    expiresAtEpoch := 0
    metadata := [] }

/-- A peer without its times. -/
def Peer.bare (peer : Peer) : Peer := { peer with lastSeen := [], expiresAt := [] }

/-- The first value of a field that the resources of a record with a file hash give. -/
def Record.given {β : Type} (field : Resource → Option β) (fileHash : Str) (record : Record) :
    Option β :=
  (record.resourcesOf fileHash).findSome? field

/-- The name of a resource, as a field that is always given. -/
def Resource.givenName (resource : Resource) : Option Str := some resource.fileName

/-- The peers that a record is for a file hash. -/
def Record.peers (fileHash : Str) (record : Record) : List Peer :=
  (record.resourcesOf fileHash).map (peerOf record)

/-- The block indexes that a record lists for a file hash. -/
def Record.blockIndexes (fileHash : Str) (record : Record) : List ℤ :=
  (record.resourcesOf fileHash).flatMap fun resource => resource.blocks.map Block.index

theorem blockIndexes_bare (fileHash : Str) (record : Record) :
  record.bare.blockIndexes fileHash = record.blockIndexes fileHash
  := rfl

theorem peers_bare (fileHash : Str) (record : Record) :
  record.bare.peers fileHash = (record.peers fileHash).map Peer.bare
  := by
  rw [Record.peers, Record.peers, List.map_map]
  rfl

/-- Records that are the same without their times have the same ids. -/
theorem map_nodeId_eq_of_map_bare_eq {l m : List Record}
    (h : l.map Record.bare = m.map Record.bare) :
  l.map Record.nodeId = m.map Record.nodeId
  := by
  have hnodeId : ∀ l : List Record,
      l.map Record.nodeId = (l.map Record.bare).map Record.nodeId := by
    intro l
    rw [List.map_map]
    rfl
  rw [hnodeId l, h, ← hnodeId]

/-! ### The index as a function of the records -/

/-- What the entry of a file hash is, given the records in the order of the map. -/
structure EntrySpec (records : List Record) (fileHash : Str) (entry : IndexEntry) : Prop where
  fileHash_eq : entry.fileHash = fileHash
  fileName_eq : records.findSome? (Record.given Resource.givenName fileHash) = some entry.fileName
  fileSize_eq : records.findSome? (Record.given Resource.fileSize fileHash) = entry.fileSize
  blockSize_eq : records.findSome? (Record.given Resource.blockSize fileHash) = entry.blockSize
  peers_eq : entry.peers = records.flatMap (Record.peers fileHash)
  availableBlocks_eq :
    entry.availableBlocks = sortedSet (records.flatMap (Record.blockIndexes fileHash))

/-- The first value that the holdings of a file hash give is the first that a record gives. -/
theorem findSome?_holdingsOf {β : Type} (field : Resource → Option β) (nodes : Nodes)
    (fileHash : Str) :
  (holdingsOf fileHash (holdings nodes)).findSome? (fun i => field i.2)
    = nodes.values.findSome? (Record.given field fileHash)
  := by
  rw [holdingsOf_holdings]
  induction nodes.values with
  | nil => rfl
  | cons record values ih =>
      rw [List.flatMap_cons, List.findSome?_append, ih, List.findSome?_cons, List.findSome?_map,
        Record.given]
      change (List.findSome? field (record.resourcesOf fileHash)).or _ = _
      cases List.findSome? field (record.resourcesOf fileHash) <;> rfl

/-- The entry of a file hash is what the records make it. -/
theorem entrySpec_of_get? {nodes : Nodes} {fileHash : Str} {entry : IndexEntry}
    (hget : (fileIndex nodes).get? fileHash = some entry) :
  EntrySpec nodes.values fileHash entry
  := by
  have hhash : entry.fileHash = fileHash :=
    fileHash_of_mem_fileIndex (Dict.get?_eq_some_iff.mp hget)
  have hpeers : entry.peers
      = (holdingsOf fileHash (holdings nodes)).map fun i => peerOf i.1 i.2 := by
    rw [← peersOf_fileIndex, peersOf, hget]
    rfl
  rw [get?_fileIndex] at hget
  obtain ⟨first, rest, hl, hentry⟩ := entryOf?_eq_some_iff.mp hget
  constructor
  · exact hhash
  · rw [← findSome?_holdingsOf, hl, hentry]
    rfl
  · rw [← findSome?_holdingsOf, hl, hentry]
    rfl
  · rw [← findSome?_holdingsOf, hl, hentry]
    rfl
  · rw [hpeers, holdingsOf_holdings, List.map_flatMap]
    congr 1
    funext record
    rw [Record.peers, List.map_map]
    rfl
  · have hblocks : entry.availableBlocks = sortedSet ((holdingsOf fileHash (holdings nodes)).flatMap
        fun i => i.2.blocks.map Block.index) := by
      rw [hl, hentry]
      rfl
    rw [hblocks, holdingsOf_holdings, List.flatMap_assoc]
    congr 2
    funext record
    rw [Record.blockIndexes, List.flatMap_map]

/-- A file hash has an entry exactly when some record gives it a name. -/
theorem isSome_get?_fileIndex_iff {nodes : Nodes} {fileHash : Str} :
  ((fileIndex nodes).get? fileHash).isSome
    ↔ (nodes.values.findSome? (Record.given Resource.givenName fileHash)).isSome
  := by
  rw [get?_fileIndex, ← findSome?_holdingsOf]
  cases holdingsOf fileHash (holdings nodes) <;> rfl

/-! ### Maps that hold the same records -/

/-- A map that runs at `t` and has these records, apart from times and metadata. -/
structure Holds (nodes : Nodes) (records : List Record) (t : Time) : Prop where
  perm_bare : (nodes.values.map Record.bare).Perm (records.map Record.bare)
  nodeId_eq : ∀ k record, nodes.get? k = some record → record.nodeId = k
  unexpired : ∀ k record, nodes.get? k = some record → t < record.expiresAtEpoch

/-- A map that is the same up to the order of dictionaries holds the same records. -/
theorem Holds.of_same {nodes nodes' : Nodes} {records : List Record} {t : Time}
    (h : Holds nodes records t) (hsame : nodes'.Same nodes) :
  Holds nodes' records t
  := by
  constructor
  · have hbare : ∀ x : Option Record,
        x.map Record.bare = (x.map Record.sortKeys).map Record.bare := by
      intro x
      rw [Option.map_map]
      rfl
    apply List.Perm.trans _ h.perm_bare
    apply Dict.perm_map_values
    intro k
    rw [hbare, hsame k, ← hbare]
  · intro k record hk
    have hsort := hsame k
    rw [hk, Option.map_some] at hsort
    obtain ⟨record', hk', heq⟩ := Option.map_eq_some_iff.mp hsort.symm
    have hnodeId := congrArg Record.nodeId heq
    rw [Record.sortKeys, Record.sortKeys] at hnodeId
    rw [← hnodeId]
    exact h.nodeId_eq k record' hk'
  · intro k record hk
    have hsort := hsame k
    rw [hk, Option.map_some] at hsort
    obtain ⟨record', hk', heq⟩ := Option.map_eq_some_iff.mp hsort.symm
    have hexpires := congrArg Record.expiresAtEpoch heq
    have hunexpired := h.unexpired k record' hk'
    rw [Record.sortKeys, Record.sortKeys] at hexpires
    rw [← hexpires]
    exact hunexpired

/-- Nothing has expired of such a map. -/
theorem Holds.live_eq {nodes : Nodes} {records : List Record} {t t' : Time}
    (h : Holds nodes records t) (ht : t' ≤ t) :
  Lease.live Record.expiresAtEpoch t' nodes.get? = nodes.get?
  := by
  funext k
  rw [Lease.live]
  cases hk : nodes.get? k with
  | none => rfl
  | some record => simp [Option.filter, lt_of_le_of_lt ht (h.unexpired k record hk)]

theorem Holds.cleanupExpired_eq {nodes : Nodes} {records : List Record} {t : Time}
    (h : Holds nodes records t) :
  (cleanupExpired nodes t).2 = nodes
  := by
  rw [cleanupExpired_nodes]
  apply Dict.ext
  apply List.filter_eq_self.mpr
  intro i hi
  have hunexpired := h.unexpired i.1 i.2 (Dict.get?_eq_some_iff.mpr hi)
  simpa [Record.expired] using hunexpired

/-! ### Orders -/

/-- An update: its payload and the host it comes from. -/
structure Update where
  payload : Json
  remoteHost : Option Str

/-- Updates in some order, each with the reading of the clock it takes. -/
abbrev Order := List (Update × Time)

/-- The calls of an order. -/
def historyOf (order : Order) : History :=
  order.map fun i => (.updateNode i.1.payload i.1.remoteHost, i.2)

/-- `order` applies each of `updates` once, and their leases run at `t`. -/
structure IsOrder (nodeTtlSeconds : ℤ) (updates : List Update) (t : Time) (order : Order) :
    Prop where
  perm : (order.map Prod.fst).Perm updates
  unexpired : ∀ i ∈ order, t < i.2 + nodeTtlSeconds * ticksPerSecond

section UnicodeData

variable [UnicodeData]

/-- The record that an update makes at `now`, if it is accepted. -/
def Update.record? (nodeTtlSeconds : ℤ) (now : Time) (update : Update) : Option Record :=
  (updateRecord nodeTtlSeconds update.payload update.remoteHost now).toOption

/-- The records that updates make at `now`. -/
def accepted (nodeTtlSeconds : ℤ) (now : Time) (updates : List Update) : List Record :=
  updates.filterMap (Update.record? nodeTtlSeconds now)

/-- The records that an order makes. -/
def recordsOf (nodeTtlSeconds : ℤ) (order : Order) : List Record :=
  order.filterMap fun i => i.1.record? nodeTtlSeconds i.2

/-- Apart from the times, an update makes the same record at any time. -/
theorem map_bare_updateRecord (nodeTtlSeconds : ℤ) (payload : Json) (remoteHost : Option Str)
    (now now' : Time) :
  Record.bare <$> updateRecord nodeTtlSeconds payload remoteHost now
    = Record.bare <$> updateRecord nodeTtlSeconds payload remoteHost now'
  := by
  cases payload with
  | dict items => simp only [updateRecord, map_bind, map_pure, Record.bare]
  | _ => rfl

theorem map_bare_record? (nodeTtlSeconds : ℤ) (update : Update) (now now' : Time) :
  (update.record? nodeTtlSeconds now).map Record.bare
    = (update.record? nodeTtlSeconds now').map Record.bare
  := by
  have hmap : ∀ r : Except Exc Record,
      r.toOption.map Record.bare = (Record.bare <$> r).toOption := by
    intro r
    cases r <;> rfl
  rw [Update.record?, Update.record?, hmap, hmap, map_bare_updateRecord]

/-- Apart from the times, an order makes the records that its updates make at any time, in the
order in which it applies them. -/
theorem map_bare_records (nodeTtlSeconds : ℤ) (order : Order) (t : Time) :
  (recordsOf nodeTtlSeconds order).map Record.bare
    = (accepted nodeTtlSeconds t (order.map Prod.fst)).map Record.bare
  := by
  have hbare : ∀ i : Update × Time, (i.1.record? nodeTtlSeconds i.2).map Record.bare
      = (i.1.record? nodeTtlSeconds t).map Record.bare :=
    fun i => map_bare_record? nodeTtlSeconds i.1 i.2 t
  rw [recordsOf, accepted, List.map_filterMap, List.map_filterMap, List.filterMap_map]
  simp only [hbare, Function.comp_def]

theorem after_updateNode (nodeTtlSeconds : ℤ) (nodes : Nodes) (now : Time) (update : Update) :
  (Operation.updateNode update.payload update.remoteHost).after nodeTtlSeconds nodes now
    = match update.record? nodeTtlSeconds now with
      | some record => nodes.set record.nodeId record
      | none => nodes
  := by
  rw [Operation.after, Operation.run, updateNode, Update.record?]
  cases updateRecord nodeTtlSeconds update.payload update.remoteHost now <;> rfl

/-- Updates of distinct nodes leave their records, in the order in which they were applied. -/
theorem items_runAll_history (nodeTtlSeconds : ℤ) (order : Order)
    (hdistinct : ((recordsOf nodeTtlSeconds order).map Record.nodeId).Nodup) :
  (runAll nodeTtlSeconds (historyOf order)).items
    = (recordsOf nodeTtlSeconds order).map fun record => (record.nodeId, record)
  := by
  induction order using List.reverseRecOn with
  | nil => rfl
  | append_singleton order i ih =>
      have hrecords : recordsOf nodeTtlSeconds (order ++ [i])
          = recordsOf nodeTtlSeconds order ++ (i.1.record? nodeTtlSeconds i.2).toList := by
        rw [recordsOf, List.filterMap_append]
        cases hi : i.1.record? nodeTtlSeconds i.2 <;> simp [recordsOf, hi]
      have hrun : runAll nodeTtlSeconds (historyOf (order ++ [i]))
          = (Operation.updateNode i.1.payload i.1.remoteHost).after nodeTtlSeconds
              (runAll nodeTtlSeconds (historyOf order)) i.2 := by
        simp [historyOf, runAll]
      rw [hrecords, List.map_append] at hdistinct
      have ih := ih (List.nodup_append.mp hdistinct).1
      rw [hrun, after_updateNode, hrecords]
      cases hi : i.1.record? nodeTtlSeconds i.2 with
      | none => simpa using ih
      | some record =>
          have hkeys : record.nodeId ∉ (runAll nodeTtlSeconds (historyOf order)).keys := by
            rw [Dict.keys, ih, List.map_map]
            intro hmem
            apply (List.nodup_append.mp hdistinct).2.2 _ hmem record.nodeId _ rfl
            simp [hi]
          simp only [Dict.items_set_of_notMem hkeys, ih, Option.toList_some, List.map_append,
            List.map_cons, List.map_nil]

section JsonCodec

variable [JsonCodec]

/-- The calls of an order on a registry with a state path, where no save raises. -/
def callsOf (order : Order) : List Event := (historyOf order).map fun i => .call i.1 i.2 none

/-- The maps that updates can leave: the map in memory after any order, or the one that a new
process reads from the state file after any order. -/
inductive Leaves (nodeTtlSeconds : ℤ) (updates : List Update) (t : Time) : Nodes → Prop where
  | applied {order : Order} (horder : IsOrder nodeTtlSeconds updates t order) :
      Leaves nodeTtlSeconds updates t (runAll nodeTtlSeconds (historyOf order))
  | reloaded {order : Order} (horder : IsOrder nodeTtlSeconds updates t order) {w w' : World}
      (hrun : (World.start nodeTtlSeconds).run (callsOf order) = some w) {nodeTtlSeconds' : ℤ}
      {t' : Time} (ht : t' ≤ t) (hrestart : w.restart nodeTtlSeconds' t' = some w') :
      Leaves nodeTtlSeconds updates t w'.nodes

end JsonCodec

/-! ### What orders leave -/

/-- The records that an order makes are those of its updates, apart from the times. -/
theorem IsOrder.perm_bare {nodeTtlSeconds : ℤ} {updates : List Update} {t : Time} {order : Order}
    (horder : IsOrder nodeTtlSeconds updates t order) :
  ((recordsOf nodeTtlSeconds order).map Record.bare).Perm
    ((accepted nodeTtlSeconds t updates).map Record.bare)
  := by
  rw [map_bare_records nodeTtlSeconds order t]
  apply List.Perm.map
  apply horder.perm.filterMap

/-- In memory, updates of distinct nodes leave their records. -/
theorem IsOrder.items_runAll {nodeTtlSeconds : ℤ} {updates : List Update} {t : Time} {order : Order}
    (horder : IsOrder nodeTtlSeconds updates t order)
    (hdistinct : ((accepted nodeTtlSeconds t updates).map Record.nodeId).Nodup) :
  (runAll nodeTtlSeconds (historyOf order)).items
    = (recordsOf nodeTtlSeconds order).map fun record => (record.nodeId, record)
  := by
  apply items_runAll_history
  rw [map_nodeId_eq_of_map_bare_eq (map_bare_records nodeTtlSeconds order t)]
  have hperm : (accepted nodeTtlSeconds t (order.map Prod.fst)).Perm
      (accepted nodeTtlSeconds t updates) := horder.perm.filterMap _
  apply (hperm.map Record.nodeId).nodup_iff.mpr hdistinct

theorem IsOrder.values_runAll {nodeTtlSeconds : ℤ} {updates : List Update} {t : Time}
    {order : Order} (horder : IsOrder nodeTtlSeconds updates t order)
    (hdistinct : ((accepted nodeTtlSeconds t updates).map Record.nodeId).Nodup) :
  (runAll nodeTtlSeconds (historyOf order)).values = recordsOf nodeTtlSeconds order
  := by
  rw [Dict.values, horder.items_runAll hdistinct, List.map_map]
  apply List.map_id

theorem IsOrder.holds {nodeTtlSeconds : ℤ} {updates : List Update} {t : Time} {order : Order}
    (horder : IsOrder nodeTtlSeconds updates t order)
    (hdistinct : ((accepted nodeTtlSeconds t updates).map Record.nodeId).Nodup) :
  Holds (runAll nodeTtlSeconds (historyOf order)) (accepted nodeTtlSeconds t updates) t
  := by
  constructor
  · rw [horder.values_runAll hdistinct]
    exact horder.perm_bare
  · intro k record hk
    apply (valid_runAll nodeTtlSeconds (historyOf order) k record hk).nodeId_eq
  · intro k record hk
    rw [Dict.get?_eq_some_iff, horder.items_runAll hdistinct] at hk
    obtain ⟨record', hrecord, heq⟩ := List.mem_map.mp hk
    obtain ⟨-, rfl⟩ := Prod.mk.inj heq
    obtain ⟨i, hi, hrecord⟩ := List.mem_filterMap.mp hrecord
    have hupdate : updateRecord nodeTtlSeconds i.1.payload i.1.remoteHost i.2 = .ok record' := by
      rw [Update.record?] at hrecord
      cases h : updateRecord nodeTtlSeconds i.1.payload i.1.remoteHost i.2 with
      | error e => simp [h, Except.toOption] at hrecord
      | ok record => simpa [h, Except.toOption] using hrecord
    rw [(updateRecord_spec hupdate).expiresAtEpoch_eq]
    apply horder.unexpired i hi

section JsonCodec

variable [JsonCodec]

/-- Calls on a registry with a state path leave in memory what they leave without, and leave the
file in step with it. -/
theorem exists_run_calls (nodeTtlSeconds : ℤ) (history : History) :
  ∃ w, (World.start nodeTtlSeconds).run (history.map fun i => .call i.1 i.2 none) = some w ∧
    w.nodeTtlSeconds = nodeTtlSeconds ∧ w.nodes = runAll nodeTtlSeconds history ∧ w.Synced
  := by
  induction history using List.reverseRecOn with
  | nil => exact ⟨World.start nodeTtlSeconds, rfl, rfl, rfl, synced_start nodeTtlSeconds⟩
  | append_singleton history i ih =>
      obtain ⟨w, hw, httl, hnodes, hsynced⟩ := ih
      use w.call i.1 i.2
      rw [World.run, List.map_append, List.foldlM_append]
      rw [World.run] at hw
      rw [hw]
      refine ⟨?_, ?_, ?_, hsynced.call i.1 i.2⟩
      · rw [← attempt_none]
        rfl
      · rw [call_eq]
        exact httl
      · rw [call_eq, runAll, List.foldl_append]
        simp only [World.after, httl, hnodes, runAll, List.foldl_cons, List.foldl_nil]

/-- Whatever the order, and whether in memory or read from the state file, updates of distinct
nodes leave the same records. -/
theorem Leaves.holds {nodeTtlSeconds : ℤ} {updates : List Update} {t : Time} {nodes : Nodes}
    (hleaves : Leaves nodeTtlSeconds updates t nodes)
    (hdistinct : ((accepted nodeTtlSeconds t updates).map Record.nodeId).Nodup) :
  Holds nodes (accepted nodeTtlSeconds t updates) t
  := by
  cases hleaves with
  | applied horder => exact horder.holds hdistinct
  | @reloaded order horder w w' hrun ttl' t' ht hrestart =>
      have hholds := horder.holds hdistinct
      obtain ⟨w₁, hw₁, -, hnodes, hsynced⟩ := exists_run_calls nodeTtlSeconds (historyOf order)
      obtain rfl := Option.some.inj (hrun.symm.trans hw₁)
      obtain ⟨nodes₀, hstored, hsame⟩ := hsynced
      obtain ⟨w₂, hw₂, hrecovers⟩ := restart_of_stored hstored hsame ttl' t'
      obtain rfl := Option.some.inj (hrestart.symm.trans hw₂)
      apply hholds.of_same
      intro k
      rw [hrecovers k, hnodes, hholds.live_eq ht]

end JsonCodec

end UnicodeData

/-! ### What the reads show of such maps -/

/-- Two entries have the same hash and blocks and, apart from their times, the same peers. -/
structure SameHolders (e e' : IndexEntry) : Prop where
  fileHash_eq : e.fileHash = e'.fileHash
  availableBlocks_eq : e.availableBlocks = e'.availableBlocks
  peers_perm : (e.peers.map Peer.bare).Perm (e'.peers.map Peer.bare)

/-- Two entries are the same up to the order of the peers and their times. -/
structure SameEntry (e e' : IndexEntry) : Prop extends SameHolders e e' where
  fileName_eq : e.fileName = e'.fileName
  fileSize_eq : e.fileSize = e'.fileSize
  blockSize_eq : e.blockSize = e'.blockSize

/-- The peers of an entry, apart from their times, are those of the records without theirs. -/
theorem EntrySpec.map_bare_peers {records : List Record} {fileHash : Str} {entry : IndexEntry}
    (h : EntrySpec records fileHash entry) :
  entry.peers.map Peer.bare = (records.map Record.bare).flatMap (Record.peers fileHash)
  := by
  rw [h.peers_eq, List.map_flatMap, List.flatMap_map]
  congr 1
  funext record
  rw [peers_bare]

theorem EntrySpec.availableBlocks_bare {records : List Record} {fileHash : Str} {entry : IndexEntry}
    (h : EntrySpec records fileHash entry) :
  entry.availableBlocks
    = sortedSet ((records.map Record.bare).flatMap (Record.blockIndexes fileHash))
  := by
  rw [h.availableBlocks_eq, List.flatMap_map]
  simp only [blockIndexes_bare]

theorem findSome?_bare {β : Type} (field : Resource → Option β) (fileHash : Str)
    (records : List Record) :
  (records.map Record.bare).findSome? (Record.given field fileHash)
    = records.findSome? (Record.given field fileHash)
  := List.findSome?_map

/-- Two maps with the same records have entries for the same hashes, with the same holders. -/
theorem sameHolders_of_perm {nodes nodes' : Nodes}
    (hperm : (nodes.values.map Record.bare).Perm (nodes'.values.map Record.bare)) {fileHash : Str}
    {entry : IndexEntry} (hget : (fileIndex nodes).get? fileHash = some entry) :
  ∃ entry', (fileIndex nodes').get? fileHash = some entry' ∧ SameHolders entry entry'
  := by
  have hsome : ((fileIndex nodes').get? fileHash).isSome := by
    have hname := isSome_get?_fileIndex_iff.mp (by rw [hget]; rfl)
    rw [← findSome?_bare, List.findSome?_isSome_iff] at hname
    obtain ⟨record, hrecord, hname⟩ := hname
    rw [isSome_get?_fileIndex_iff, ← findSome?_bare, List.findSome?_isSome_iff]
    use record, hperm.mem_iff.mp hrecord
  obtain ⟨entry', hget'⟩ := Option.isSome_iff_exists.mp hsome
  have hspec := entrySpec_of_get? hget
  have hspec' := entrySpec_of_get? hget'
  use entry', hget'
  constructor
  · rw [hspec.fileHash_eq, hspec'.fileHash_eq]
  · rw [hspec.availableBlocks_bare, hspec'.availableBlocks_bare, sortedSet_eq_sortedSet_iff]
    intro i
    apply (hperm.flatMap_right (Record.blockIndexes fileHash)).mem_iff
  · rw [hspec.map_bare_peers, hspec'.map_bare_peers]
    apply hperm.flatMap_right

/-- What `list_files` says of a file hash, if it lists it. -/
def summaryAt (nodes : Nodes) (fileHash : Str) : Option FileSummary :=
  ((fileIndex nodes).get? fileHash).map summaryOf

/-- The name that is listed for a file hash is the first that a record gives. -/
theorem map_fileName_summaryAt (nodes : Nodes) (fileHash : Str) :
  (summaryAt nodes fileHash).map FileSummary.fileName
    = nodes.values.findSome? (Record.given Resource.givenName fileHash)
  := by
  rw [summaryAt, get?_fileIndex, ← findSome?_holdingsOf]
  cases holdingsOf fileHash (holdings nodes) <;> rfl

/-- The size that is listed for a file hash is the first that a record gives. -/
theorem bind_fileSize_summaryAt (nodes : Nodes) (fileHash : Str) :
  (summaryAt nodes fileHash).bind FileSummary.fileSize
    = nodes.values.findSome? (Record.given Resource.fileSize fileHash)
  := by
  rw [summaryAt, get?_fileIndex, ← findSome?_holdingsOf]
  cases holdingsOf fileHash (holdings nodes) <;> rfl

theorem bind_blockSize_summaryAt (nodes : Nodes) (fileHash : Str) :
  (summaryAt nodes fileHash).bind FileSummary.blockSize
    = nodes.values.findSome? (Record.given Resource.blockSize fileHash)
  := by
  rw [summaryAt, get?_fileIndex, ← findSome?_holdingsOf]
  cases holdingsOf fileHash (holdings nodes) <;> rfl

/-- The summaries of an index, in its order. -/
def summaries (nodes : Nodes) : List FileSummary := (fileIndex nodes).values.map summaryOf

theorem mem_summaries_iff {nodes : Nodes} {summary : FileSummary} :
  summary ∈ summaries nodes ↔ summaryAt nodes summary.fileHash = some summary
  := by
  rw [summaries, summaryAt, List.mem_map, Option.map_eq_some_iff]
  constructor
  · rintro ⟨_, hentry, rfl⟩
    obtain ⟨⟨h, entry⟩, hitem, rfl⟩ := List.mem_map.mp hentry
    have hhash := fileHash_of_mem_fileIndex hitem
    use entry
    rw [Dict.get?_eq_some_iff, summaryOf, hhash]
    exact ⟨hitem, rfl⟩
  · rintro ⟨entry, hget, hsummary⟩
    use entry
    constructor
    · apply List.mem_map.mpr ⟨_, Dict.get?_eq_some_iff.mp hget, rfl⟩
    · exact hsummary

/-- No two entries have the same hash, so the keys they are sorted by are distinct. -/
theorem pairwise_summaries (nodes : Nodes) :
  (summaries nodes).Pairwise fun f g =>
    nameAndHash f.fileName f.fileHash ≠ nameAndHash g.fileName g.fileHash
  := by
  rw [summaries, Dict.values, List.map_map, List.pairwise_map]
  have hnodup := (fileIndex nodes).nodup
  rw [List.Nodup, List.pairwise_map] at hnodup
  apply hnodup.imp_of_mem
  intro i j hi hj hne hkey
  apply hne
  have hhash := congrArg (fun k => (ofLex k).2) hkey
  rw [← fileHash_of_mem_fileIndex hi, ← fileHash_of_mem_fileIndex hj]
  apply Str.codes_injective hhash

/-- Maps that list the same of every file hash list the same, up to the order. -/
theorem perm_summaries {nodes nodes' : Nodes}
    (h : ∀ fileHash, summaryAt nodes fileHash = summaryAt nodes' fileHash) :
  (summaries nodes).Perm (summaries nodes')
  := Dict.perm_map_values summaryOf h

/-! ### Reads -/

/-- The records of two maps have the same times. -/
def SameTimes (nodes nodes' : Nodes) : Prop :=
  ∀ k r r', nodes.get? k = some r → nodes'.get? k = some r' →
    r.lastSeen = r'.lastSeen ∧ r.expiresAt = r'.expiresAt

/-- The reads of two maps show the same files, whatever their names and sizes. -/
structure SameFiles (nodes nodes' : Nodes) (t : Time) : Prop where
  listed : ∀ f ∈ (listFiles nodes t).1, ∃ f' ∈ (listFiles nodes' t).1,
    f.fileHash = f'.fileHash ∧ f.peerCount = f'.peerCount ∧ f.availableBlocks = f'.availableBlocks
  found : ∀ fileHash entries after, findFileLocations nodes (some fileHash) none t
      = .ok (entries, after) →
    ∃ entries' after', findFileLocations nodes' (some fileHash) none t = .ok (entries', after') ∧
      ∀ e ∈ entries, ∃ e' ∈ entries',
        SameHolders e e' ∧ (SameTimes nodes nodes' → e.peers.Perm e'.peers)

/-- Two answers of `find_file_locations` with the same entries, or the same exception. -/
inductive SameAnswer : Except Exc (List IndexEntry) → Except Exc (List IndexEntry) → Prop where
  | ok {entries entries' : List IndexEntry} (h : List.Forall₂ SameEntry entries entries') :
      SameAnswer (.ok entries) (.ok entries')
  | error (e : Exc) : SameAnswer (.error e) (.error e)

/-- The reads of two maps are the same. -/
structure SameReads (nodes nodes' : Nodes) (t : Time) : Prop where
  listFiles_eq : (listFiles nodes t).1 = (listFiles nodes' t).1
  found : ∀ fileHash fileName, SameAnswer (Prod.fst <$> findFileLocations nodes fileHash fileName t)
    (Prod.fst <$> findFileLocations nodes' fileHash fileName t)

/-- Records that have a file hash give it the same name, and the same sizes if they give them. -/
structure Agreed (records : List Record) : Prop where
  fileName : ∀ h, FirstGiven.Agree (Record.given Resource.givenName h) records
  fileSize : ∀ h, FirstGiven.Agree (Record.given Resource.fileSize h) records
  blockSize : ∀ h, FirstGiven.Agree (Record.given Resource.blockSize h) records

/-- The list of a map of which nothing has expired. -/
theorem Holds.listFiles_eq {nodes : Nodes} {records : List Record} {t : Time}
    (h : Holds nodes records t) :
  (listFiles nodes t).1
    = Keyed.sortBy (fun f => nameAndHash f.fileName f.fileHash) (summaries nodes)
  := by
  simp only [listFiles, buildFileIndex, afterCleanup, h.cleanupExpired_eq, summaries]
  rfl

theorem Holds.mem_listFiles_iff {nodes : Nodes} {records : List Record} {t : Time}
    (h : Holds nodes records t) {summary : FileSummary} :
  summary ∈ (listFiles nodes t).1 ↔ summaryAt nodes summary.fileHash = some summary
  := by
  rw [h.listFiles_eq, Keyed.mem_sortBy, mem_summaries_iff]

/-- The answers of a map of which nothing has expired. -/
theorem Holds.findFileLocations_eq {nodes : Nodes} {records : List Record} {t : Time}
    (h : Holds nodes records t) {fileHash fileName : Option Str}
    (hgiven : ¬ (criterion fileHash = none ∧ criterion fileName = none)) :
  findFileLocations nodes fileHash fileName t
    = .ok (Keyed.sortBy (fun e => nameAndHash e.fileName e.fileHash)
        ((fileIndex nodes).values.filter fun entry =>
          passes (criterion fileHash) entry.fileHash && passes (criterion fileName) entry.fileName),
        nodes)
  := by
  simp only [findFileLocations, if_neg hgiven, buildFileIndex, afterCleanup, h.cleanupExpired_eq]
  rfl

/-- Under each id, two maps that hold the same records have the same one. -/
theorem Holds.map_bare_get? {nodes nodes' : Nodes} {records : List Record} {t : Time}
    (h : Holds nodes records t) (h' : Holds nodes' records t) (k : Str) :
  (nodes.get? k).map Record.bare = (nodes'.get? k).map Record.bare
  := by
  have hone : ∀ {nodes nodes' : Nodes} {record : Record}, Holds nodes records t →
      Holds nodes' records t → nodes.get? k = some record →
      ∃ record', nodes'.get? k = some record' ∧ record'.bare = record.bare := by
    intro nodes nodes' record h h' hk
    have hmem : record.bare ∈ nodes'.values.map Record.bare := by
      apply (h.perm_bare.trans h'.perm_bare.symm).mem_iff.mp
      apply List.mem_map.mpr ⟨record, _, rfl⟩
      apply List.mem_map.mpr ⟨(k, record), Dict.get?_eq_some_iff.mp hk, rfl⟩
    obtain ⟨_, hrecord', hbare⟩ := List.mem_map.mp hmem
    obtain ⟨⟨k', record'⟩, hitem, rfl⟩ := List.mem_map.mp hrecord'
    have hk' := Dict.get?_eq_some_iff.mpr hitem
    have hnodeId : record'.bare.nodeId = record.bare.nodeId := congrArg Record.nodeId hbare
    change record'.nodeId = record.nodeId at hnodeId
    rw [h'.nodeId_eq k' record' hk', h.nodeId_eq k record hk] at hnodeId
    subst hnodeId
    exact ⟨record', hk', hbare⟩
  cases hk : nodes.get? k with
  | some record =>
      obtain ⟨record', hk', hbare⟩ := hone h h' hk
      rw [hk', Option.map_some, Option.map_some, hbare]
  | none =>
      cases hk' : nodes'.get? k with
      | none => rfl
      | some record' =>
          obtain ⟨record, hk, -⟩ := hone h' h hk'
          simp_all

/-- If the times are the same too, the peers are the same. -/
theorem Holds.perm_peers {nodes nodes' : Nodes} {records : List Record} {t : Time}
    (h : Holds nodes records t) (h' : Holds nodes' records t) (htimes : SameTimes nodes nodes')
    {fileHash : Str} {entry entry' : IndexEntry}
    (hget : (fileIndex nodes).get? fileHash = some entry)
    (hget' : (fileIndex nodes').get? fileHash = some entry') :
  entry.peers.Perm entry'.peers
  := by
  let timed : Record → Record := fun r =>
    { r.bare with lastSeen := r.lastSeen, expiresAt := r.expiresAt }
  have hpeers : ∀ records : List Record, records.flatMap (Record.peers fileHash)
      = (records.map timed).flatMap (Record.peers fileHash) := by
    intro records
    rw [List.flatMap_map]
    rfl
  rw [(entrySpec_of_get? hget).peers_eq, (entrySpec_of_get? hget').peers_eq, hpeers nodes.values,
    hpeers nodes'.values]
  apply List.Perm.flatMap_right
  apply Dict.perm_map_values
  intro k
  have hbare := h.map_bare_get? h' k
  cases hk : nodes.get? k with
  | none =>
      cases hk' : nodes'.get? k with
      | none => rfl
      | some record' => simp [hk, hk'] at hbare
  | some record =>
      cases hk' : nodes'.get? k with
      | none => simp [hk, hk'] at hbare
      | some record' =>
          rw [hk, hk', Option.map_some, Option.map_some, Option.some.injEq] at hbare
          obtain ⟨hseen, hexpires⟩ := htimes k record record' hk hk'
          simp only [Option.map_some, timed, hbare, hseen, hexpires]

/-- Maps that hold the same records, whose values of a field agree, have the same first value. -/
theorem Holds.findSome?_eq {β : Type} {field : Resource → Option β} {nodes nodes' : Nodes}
    {records : List Record} {t : Time} (h : Holds nodes records t) (h' : Holds nodes' records t)
    {fileHash : Str} (hagree : FirstGiven.Agree (Record.given field fileHash) records) :
  nodes.values.findSome? (Record.given field fileHash)
    = nodes'.values.findSome? (Record.given field fileHash)
  := by
  have hbare : FirstGiven.Agree (Record.given field fileHash) (records.map Record.bare) := by
    intro a ha b hb x y hx hy
    obtain ⟨r, hr, rfl⟩ := List.mem_map.mp ha
    obtain ⟨s, hs, rfl⟩ := List.mem_map.mp hb
    apply hagree r hr s hs x y hx hy
  rw [← findSome?_bare, ← findSome?_bare field fileHash nodes'.values]
  apply FirstGiven.forall_perm_findSome?_eq_iff.mpr hbare _ _ h.perm_bare h'.perm_bare

/-- An entry is the same as the one of another map with the same holders and the same summary. -/
theorem sameEntry_of_summaryOf_eq {e e' : IndexEntry} (h : SameHolders e e')
    (hsummary : summaryOf e = summaryOf e') :
  SameEntry e e'
  := by
  simp only [summaryOf, FileSummary.mk.injEq] at hsummary
  obtain ⟨-, hname, hsize, hblock, -, -⟩ := hsummary
  exact { h with
    fileName_eq := hname
    fileSize_eq := hsize
    blockSize_eq := hblock }

/-- Maps that hold the same records list the same files. -/
theorem Holds.sameFiles {nodes nodes' : Nodes} {records : List Record} {t : Time}
    (h : Holds nodes records t) (h' : Holds nodes' records t) :
  SameFiles nodes nodes' t
  := by
  have hperm := h.perm_bare.trans h'.perm_bare.symm
  constructor
  · intro f hf
    obtain ⟨entry, hget, hsummary⟩ := Option.map_eq_some_iff.mp (h.mem_listFiles_iff.mp hf)
    obtain ⟨entry', hget', hsame⟩ := sameHolders_of_perm hperm hget
    have hhash' : (summaryOf entry').fileHash = f.fileHash :=
      fileHash_of_mem_fileIndex (Dict.get?_eq_some_iff.mp hget')
    use summaryOf entry'
    constructor
    · rw [h'.mem_listFiles_iff, hhash', summaryAt, hget']
      rfl
    · rw [← hsummary]
      refine ⟨hsame.fileHash_eq, ?_, hsame.availableBlocks_eq⟩
      simpa [summaryOf] using hsame.peers_perm.length_eq
  · intro fileHash entries after hfind
    have hgiven : ¬ (criterion (some fileHash) = none ∧ criterion none = none) := by
      intro hnone
      rw [findFileLocations, if_pos hnone] at hfind
      cases hfind
    rw [h.findFileLocations_eq hgiven] at hfind
    obtain ⟨rfl, rfl⟩ := Prod.mk.inj (Except.ok.inj hfind)
    refine ⟨_, _, h'.findFileLocations_eq hgiven, ?_⟩
    intro e he
    rw [Keyed.mem_sortBy, List.mem_filter] at he
    obtain ⟨he, hpasses⟩ := he
    obtain ⟨⟨k, _⟩, hitem, rfl⟩ := List.mem_map.mp he
    have hget := Dict.get?_eq_some_iff.mpr hitem
    obtain ⟨entry', hget', hsame⟩ := sameHolders_of_perm hperm hget
    use entry'
    constructor
    · rw [Keyed.mem_sortBy, List.mem_filter, ← hsame.fileHash_eq]
      constructor
      · apply List.mem_map.mpr ⟨_, Dict.get?_eq_some_iff.mp hget', rfl⟩
      · simpa [criterion, passes] using hpasses
    · exact ⟨hsame, fun htimes => h.perm_peers h' htimes hget hget'⟩

/-- Maps that hold the same records and list the same of every file hash have the same reads. -/
theorem Holds.sameReads {nodes nodes' : Nodes} {records : List Record} {t : Time}
    (h : Holds nodes records t) (h' : Holds nodes' records t)
    (hsummary : ∀ fileHash, summaryAt nodes fileHash = summaryAt nodes' fileHash) :
  SameReads nodes nodes' t
  := by
  have hperm := h.perm_bare.trans h'.perm_bare.symm
  constructor
  · rw [h.listFiles_eq, h'.listFiles_eq]
    apply Keyed.sortBy_eq_of_perm (perm_summaries hsummary) (pairwise_summaries nodes)
  · intro fileHash fileName
    by_cases hgiven : criterion fileHash = none ∧ criterion fileName = none
    · rw [findFileLocations, findFileLocations, if_pos hgiven, if_pos hgiven]
      apply SameAnswer.error
    · rw [h.findFileLocations_eq hgiven, h'.findFileLocations_eq hgiven]
      apply SameAnswer.ok
      -- The filter and the key read the summary of an entry only.
      let p : FileSummary → Bool := fun f =>
        passes (criterion fileHash) f.fileHash && passes (criterion fileName) f.fileName
      have hmap : ∀ l : List IndexEntry,
          (Keyed.sortBy (fun e => nameAndHash e.fileName e.fileHash)
            (l.filter fun e => passes (criterion fileHash) e.fileHash
              && passes (criterion fileName) e.fileName)).map summaryOf
            = Keyed.sortBy (fun f => nameAndHash f.fileName f.fileHash)
                ((l.map summaryOf).filter p) := by
        intro l
        rw [List.filter_map]
        apply Keyed.map_sortBy fun f : FileSummary => nameAndHash f.fileName f.fileHash
      apply Keyed.forall₂_of_map_eq (f := summaryOf)
      · rw [hmap, hmap]
        apply Keyed.sortBy_eq_of_perm ((perm_summaries hsummary).filter p)
        apply (pairwise_summaries nodes).sublist List.filter_sublist
      · intro e he e' he' heq
        rw [Keyed.mem_sortBy, List.mem_filter] at he he'
        obtain ⟨⟨k, _⟩, hitem, rfl⟩ := List.mem_map.mp he.1
        obtain ⟨⟨k', _⟩, hitem', rfl⟩ := List.mem_map.mp he'.1
        have hk : k = k' := by
          rw [← fileHash_of_mem_fileIndex hitem, ← fileHash_of_mem_fileIndex hitem']
          exact congrArg FileSummary.fileHash heq
        subst hk
        obtain ⟨entry', hget', hsame⟩ := sameHolders_of_perm hperm (Dict.get?_eq_some_iff.mpr hitem)
        obtain rfl := Option.some.inj (hget'.symm.trans (Dict.get?_eq_some_iff.mpr hitem'))
        apply sameEntry_of_summaryOf_eq hsame heq

/-- Maps that hold the same records, which agree, list the same of every file hash. -/
theorem Holds.summaryAt_eq {nodes nodes' : Nodes} {records : List Record} {t : Time}
    (h : Holds nodes records t) (h' : Holds nodes' records t) (hagreed : Agreed records)
    (fileHash : Str) :
  summaryAt nodes fileHash = summaryAt nodes' fileHash
  := by
  have hperm := h.perm_bare.trans h'.perm_bare.symm
  have hname := h.findSome?_eq h' (hagreed.fileName fileHash)
  have hsize := h.findSome?_eq h' (hagreed.fileSize fileHash)
  have hblock := h.findSome?_eq h' (hagreed.blockSize fileHash)
  rw [← map_fileName_summaryAt, ← map_fileName_summaryAt] at hname
  rw [← bind_fileSize_summaryAt, ← bind_fileSize_summaryAt] at hsize
  rw [← bind_blockSize_summaryAt, ← bind_blockSize_summaryAt] at hblock
  cases hget : (fileIndex nodes).get? fileHash with
  | none =>
      have hnone : ((summaryAt nodes' fileHash).map FileSummary.fileName).isNone := by
        rw [← hname, summaryAt, hget]
        rfl
      simp only [Option.isNone_map, Option.isNone_iff_eq_none] at hnone
      rw [hnone, summaryAt, hget]
      rfl
  | some entry =>
      obtain ⟨entry', hget', hsame⟩ := sameHolders_of_perm hperm hget
      rw [summaryAt, summaryAt, hget, hget'] at hname hsize hblock ⊢
      simp only [Option.map_some, Option.some.injEq, Option.bind_some, summaryOf]
          at hname hsize hblock
      simp only [Option.map_some, summaryOf, hsame.fileHash_eq, hname, hsize, hblock,
        hsame.availableBlocks_eq]
      simpa using hsame.peers_perm.length_eq

/-- Maps with the same list list the same of every file hash. -/
theorem Holds.summaryAt_eq_of_listFiles_eq {nodes nodes' : Nodes} {records : List Record} {t : Time}
    (h : Holds nodes records t) (h' : Holds nodes' records t)
    (hlist : (listFiles nodes t).1 = (listFiles nodes' t).1) (fileHash : Str) :
  summaryAt nodes fileHash = summaryAt nodes' fileHash
  := by
  have hfileHash : ∀ (nodes : Nodes) (f : FileSummary), summaryAt nodes fileHash = some f →
      f.fileHash = fileHash := by
    intro nodes f hf
    obtain ⟨entry, hget, rfl⟩ := Option.map_eq_some_iff.mp hf
    apply fileHash_of_mem_fileIndex (Dict.get?_eq_some_iff.mp hget)
  apply Option.ext
  intro f
  constructor
  · intro hf
    have hhash := hfileHash nodes f hf
    rw [← hhash] at hf
    rw [← h.mem_listFiles_iff, hlist, h'.mem_listFiles_iff, hhash] at hf
    exact hf
  · intro hf
    have hhash := hfileHash nodes' f hf
    rw [← hhash] at hf
    rw [← h'.mem_listFiles_iff, ← hlist, h.mem_listFiles_iff, hhash] at hf
    exact hf

/-- The order in which updates are listed, all of them at one time so late that their leases run
at `t`. -/
def listedOrder (nodeTtlSeconds : ℤ) (t : Time) (updates : List Update) : Order :=
  updates.map fun update => (update, t + 1 - nodeTtlSeconds * ticksPerSecond)

theorem isOrder_listedOrder (nodeTtlSeconds : ℤ) (t : Time) {updates listed : List Update}
    (hperm : listed.Perm updates) :
  IsOrder nodeTtlSeconds updates t (listedOrder nodeTtlSeconds t listed)
  := by
  constructor
  · simpa [listedOrder, Function.comp_def] using hperm
  · intro i hi
    obtain ⟨update, -, rfl⟩ := List.mem_map.mp hi
    change t < t + 1 - nodeTtlSeconds * ticksPerSecond + nodeTtlSeconds * ticksPerSecond
    rw [sub_add_cancel]
    apply lt_add_one

section UnicodeData

variable [UnicodeData]

/-- The first value of a field in the map that an order leaves is the first that its updates
give. -/
theorem findSome?_values_listedOrder {β : Type} (field : Resource → Option β) (fileHash : Str)
    {nodeTtlSeconds : ℤ} {t : Time} {updates listed : List Update} (hperm : listed.Perm updates)
    (hdistinct : ((accepted nodeTtlSeconds t updates).map Record.nodeId).Nodup) :
  (runAll nodeTtlSeconds (historyOf (listedOrder nodeTtlSeconds t listed))).values.findSome?
      (Record.given field fileHash)
    = listed.findSome? fun update =>
        (update.record? nodeTtlSeconds t).bind (Record.given field fileHash)
  := by
  have horder := isOrder_listedOrder nodeTtlSeconds t hperm
  have hfst : (listedOrder nodeTtlSeconds t listed).map Prod.fst = listed := by
    simp [listedOrder, Function.comp_def]
  rw [horder.values_runAll hdistinct, ← findSome?_bare, map_bare_records nodeTtlSeconds _ t, hfst,
    findSome?_bare, accepted, FirstGiven.findSome?_filterMap]

/-- If the first value of a field is the same whatever the order, the values agree. -/
theorem agree_of_forall_order {β : Type} {field : Resource → Option β} {fileHash : Str}
    {nodeTtlSeconds : ℤ} {t : Time} {updates : List Update}
    (hdistinct : ((accepted nodeTtlSeconds t updates).map Record.nodeId).Nodup)
    (hall : ∀ order order', IsOrder nodeTtlSeconds updates t order →
      IsOrder nodeTtlSeconds updates t order' →
      (runAll nodeTtlSeconds (historyOf order)).values.findSome? (Record.given field fileHash)
        = (runAll nodeTtlSeconds (historyOf order')).values.findSome?
            (Record.given field fileHash)) :
  FirstGiven.Agree (Record.given field fileHash) (accepted nodeTtlSeconds t updates)
  := by
  rw [accepted, FirstGiven.agree_filterMap_iff, ← FirstGiven.forall_perm_findSome?_eq_iff]
  intro listed listed' hperm hperm'
  rw [← findSome?_values_listedOrder field fileHash hperm hdistinct,
    ← findSome?_values_listedOrder field fileHash hperm' hdistinct]
  apply hall _ _ (isOrder_listedOrder _ t hperm) (isOrder_listedOrder _ t hperm')

variable [JsonCodec]

/-- Whatever the order in which updates of distinct nodes arrive, and whether the map is the one in
memory or was read from the state file, the reads show the same hashes with the same blocks and
peers. All reads are the same for all orders exactly when the nodes that hold a file agree on its
name and, if they give them, on its sizes. -/
theorem reads_of_leaves (nodeTtlSeconds : ℤ) (updates : List Update) (t : Time)
    (hdistinct : ((accepted nodeTtlSeconds t updates).map Record.nodeId).Nodup) :
  (∀ nodes nodes', Leaves nodeTtlSeconds updates t nodes →
    Leaves nodeTtlSeconds updates t nodes' → SameFiles nodes nodes' t) ∧
  ((∀ nodes nodes', Leaves nodeTtlSeconds updates t nodes →
    Leaves nodeTtlSeconds updates t nodes' → SameReads nodes nodes' t) ↔
      Agreed (accepted nodeTtlSeconds t updates))
  := by
  constructor
  · intro nodes nodes' hleaves hleaves'
    apply (hleaves.holds hdistinct).sameFiles (hleaves'.holds hdistinct)
  · constructor
    · intro hall
      have hsummary : ∀ fileHash order order', IsOrder nodeTtlSeconds updates t order →
          IsOrder nodeTtlSeconds updates t order' →
          summaryAt (runAll nodeTtlSeconds (historyOf order)) fileHash
            = summaryAt (runAll nodeTtlSeconds (historyOf order')) fileHash := by
        intro fileHash order order' horder horder'
        apply (horder.holds hdistinct).summaryAt_eq_of_listFiles_eq (horder'.holds hdistinct)
        apply (hall _ _ (.applied horder) (.applied horder')).listFiles_eq
      constructor
      · intro fileHash
        apply agree_of_forall_order hdistinct
        intro order order' horder horder'
        rw [← map_fileName_summaryAt, hsummary fileHash order order' horder horder',
          map_fileName_summaryAt]
      · intro fileHash
        apply agree_of_forall_order hdistinct
        intro order order' horder horder'
        rw [← bind_fileSize_summaryAt, hsummary fileHash order order' horder horder',
          bind_fileSize_summaryAt]
      · intro fileHash
        apply agree_of_forall_order hdistinct
        intro order order' horder horder'
        rw [← bind_blockSize_summaryAt, hsummary fileHash order order' horder horder',
          bind_blockSize_summaryAt]
    · intro hagreed nodes nodes' hleaves hleaves'
      have hholds := hleaves.holds hdistinct
      have hholds' := hleaves'.holds hdistinct
      apply hholds.sameReads hholds' (hholds.summaryAt_eq hholds' hagreed)

end UnicodeData

/-- The update of a node that holds a file of one block, under a name of its own. -/
def updateOfHolder (nodeId fileName : String) : Update where
  payload := .dict [
    (Str.ofString "node_id", .str (Str.ofString nodeId)),
    (Str.ofString "host", .str (Str.ofString "127.0.0.1")),
    (Str.ofString "port", .int 9001),
    (Str.ofString "resources", .list [.dict [
      (Str.ofString "file_hash", .str (Str.ofString "h")),
      (Str.ofString "file_name", .str (Str.ofString fileName)),
      (Str.ofString "blocks", .list [.int 0])]])]
  remoteHost := none

/-- Two nodes that hold the same file under two names. -/
def twoHolders : List Update := [updateOfHolder "a" "one.txt", updateOfHolder "b" "two.txt"]

/-- The two nodes list the same file with the same peers in both orders. -/
theorem sameFiles_twoHolders :
  let _ := UnicodeData.ascii
  let _ := JsonCodec.whole
  ∀ nodes nodes', Leaves 90 twoHolders 0 nodes → Leaves 90 twoHolders 0 nodes' →
    SameFiles nodes nodes' 0
  := by
  intro _ _
  apply (reads_of_leaves 90 twoHolders 0 (by decide)).1

/-- It is not the case that the reads are the same for all orders: of two nodes that hold a file
under two names, the first one names it. -/
theorem not_sameReads_of_leaves :
  let _ := UnicodeData.ascii
  let _ := JsonCodec.whole
  ¬ ∀ (updates : List Update) (t : Time),
      ((accepted 90 t updates).map Record.nodeId).Nodup →
      ∀ nodes nodes', Leaves 90 updates t nodes → Leaves 90 updates t nodes' →
        SameReads nodes nodes' t
  := by
  intro _ _ hall
  have horder : IsOrder 90 twoHolders 0 (twoHolders.map fun update => (update, 0)) :=
    ⟨List.Perm.refl _, by decide⟩
  have horder' : IsOrder 90 twoHolders 0 (twoHolders.reverse.map fun update => (update, 0)) :=
    ⟨List.Perm.swap _ _ _, by decide⟩
  have hreads := hall twoHolders 0 (by decide) _ _ (.applied horder) (.applied horder')
  have hnames := congrArg (List.map FileSummary.fileName) hreads.listFiles_eq
  revert hnames
  decide

end Tracker
