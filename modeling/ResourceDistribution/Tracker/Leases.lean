import ResourceDistribution.Tracker.Operation

/-!
# The registry as a lease map

What the reads of the registry show at `t` after a history of calls is a lease map: of every node
the record of the last update or removal of that node, if that was an update and its lease still
runs at `t`. Neither the sweeps that the other calls of the history have made nor the order of the
stored nodes matters.
-/

open Python

namespace Tracker

/-- A call and the reading of the clock it takes. -/
abbrev History := List (Operation × Time)

section UnicodeData

variable [UnicodeData]

/-- The map of nodes after a history of calls on a registry that was empty. -/
def runAll (nodeTtlSeconds : ℤ) (history : History) : Nodes :=
  history.foldl (fun nodes i => i.1.after nodeTtlSeconds nodes i.2) Dict.empty

/-- The lease events of a history. -/
def eventsOf (nodeTtlSeconds : ℤ) (history : History) : List (Lease.Event Str Record Time) :=
  history.flatMap fun i => i.1.events nodeTtlSeconds i.2

theorem get?_runAll (nodeTtlSeconds : ℤ) (history : History) :
  (runAll nodeTtlSeconds history).get?
    = (eventsOf nodeTtlSeconds history).foldl (Lease.Event.execute Record.expiresAtEpoch)
        fun _ => none
  := by
  induction history using List.reverseRecOn with
  | nil => rfl
  | append_singleton history i ih =>
      have hlast : runAll nodeTtlSeconds (history ++ [i])
          = i.1.after nodeTtlSeconds (runAll nodeTtlSeconds history) i.2 := by
        simp [runAll]
      rw [hlast, get?_after, execute, ih, ← List.foldl_append]
      simp [eventsOf]

/-- What holds of the record of every accepted update of a history holds of the records after it. -/
theorem forall_runAll {P : Str → Record → Prop} {nodeTtlSeconds : ℤ} {history : History}
    (h : ∀ i ∈ history, ∀ payload remoteHost record, i.1 = .updateNode payload remoteHost →
      updateRecord nodeTtlSeconds payload remoteHost i.2 = .ok record → P record.nodeId record) :
  ∀ k record, (runAll nodeTtlSeconds history).get? k = some record → P k record
  := by
  induction history using List.reverseRecOn with
  | nil =>
      intro k record hk
      cases hk
  | append_singleton history i ih =>
      rw [runAll, List.foldl_append]
      apply forall_after
      · apply ih
        intro j hj
        apply h j (List.mem_append_left _ hj)
      · apply h i
        apply List.mem_append_right _ (List.mem_singleton_self i)

theorem valid_runAll (nodeTtlSeconds : ℤ) (history : History) :
  (runAll nodeTtlSeconds history).Valid
  := by
  apply forall_runAll
  intro i _ payload remoteHost record _ hrecord
  apply (updateRecord_spec hrecord).valid

/-! ### The last operation on a node -/

/-- What a call does to the node `k`: an accepted update of `k` gives it a record, an accepted
removal takes its record away. -/
def Operation.writeTo (nodeTtlSeconds : ℤ) (now : Time) (k : Str) :
    Operation → Option (Option Record)
  | .updateNode payload remoteHost =>
      match updateRecord nodeTtlSeconds payload remoteHost now with
      | .ok record => if record.nodeId = k then some (some record) else none
      | .error _ => none
  | .markNodeOffline nodeId =>
      match asNonEmptyString nodeId "node_id" with
      | .ok id => if id = k then some none else none
      | .error _ => none
  | _ => none

theorem lastWrite_events (nodeTtlSeconds : ℤ) (now : Time) (k : Str) (op : Operation) :
  Lease.lastWrite k (op.events nodeTtlSeconds now) = op.writeTo nodeTtlSeconds now k
  := by
  cases op with
  | updateNode payload remoteHost =>
      cases hr : updateRecord nodeTtlSeconds payload remoteHost now with
      | error e => simp [Operation.events, Operation.writeTo, hr, Lease.lastWrite]
      | ok record =>
          simp [Operation.events, Operation.writeTo, hr, Lease.lastWrite, Lease.Event.writeTo]
  | markNodeOffline nodeId =>
      cases hid : asNonEmptyString nodeId "node_id" with
      | error e => simp [Operation.events, Operation.writeTo, hid, Lease.lastWrite]
      | ok id =>
          simp [Operation.events, Operation.writeTo, hid, Lease.lastWrite, Lease.Event.writeTo]
  | cleanupExpired => rfl
  | listFiles => rfl
  | listNodes includeExpired => cases includeExpired <;> rfl
  | buildFileIndex includeExpired => cases includeExpired <;> rfl
  | getNode nodeId =>
      simp only [Operation.events, Operation.writeTo]
      split <;> rfl
  | findFileLocations fileHash fileName =>
      simp only [Operation.events, Operation.writeTo]
      split <;> rfl

/-- What the last operation on `k` in a history does to `k`, if there is one. -/
def lastOperationOn (nodeTtlSeconds : ℤ) (history : History) (k : Str) :
    Option (Option Record) :=
  history.reverse.findSome? fun i => i.1.writeTo nodeTtlSeconds i.2 k

theorem lastWrite_eventsOf (nodeTtlSeconds : ℤ) (history : History) (k : Str) :
  Lease.lastWrite k (eventsOf nodeTtlSeconds history)
    = lastOperationOn nodeTtlSeconds history k
  := by
  induction history using List.reverseRecOn with
  | nil => rfl
  | append_singleton history i ih =>
      have hlast : eventsOf nodeTtlSeconds (history ++ [i])
          = eventsOf nodeTtlSeconds history ++ i.1.events nodeTtlSeconds i.2 := by
        simp [eventsOf]
      rw [hlast, Lease.lastWrite_append, ih, lastWrite_events]
      rw [lastOperationOn, lastOperationOn, List.reverse_append, List.findSome?_append]
      simp

/-! ### The lease map -/

/-- The record of the last operation on `k`, if that was an update whose lease runs at `t`. -/
def lease (nodeTtlSeconds : ℤ) (history : History) (t : Time) (k : Str) : Option Record :=
  (lastOperationOn nodeTtlSeconds history k).join.filter fun record => t < record.expiresAtEpoch

/-- The stored records that run at `t` are those of the lease map. -/
theorem live_runAll {nodeTtlSeconds : ℤ} {history : History} {t : Time}
    (hclock : ∀ i ∈ history, i.2 ≤ t) :
  Lease.live Record.expiresAtEpoch t (runAll nodeTtlSeconds history).get?
    = lease nodeTtlSeconds history t
  := by
  have hswept : Lease.SweptBy t (eventsOf nodeTtlSeconds history) := by
    intro s hs
    obtain ⟨i, hi, hs⟩ := List.mem_flatMap.mp hs
    rw [sweep_mem_events hs]
    apply hclock i hi
  have hempty : Lease.AgreeFrom Record.expiresAtEpoch t (fun _ : Str => none) fun _ => none :=
    Lease.AgreeFrom.refl t _
  have hagree := Lease.agreeFrom_foldl hswept hempty
  rw [get?_runAll, hagree]
  funext k
  rw [Lease.live, Lease.foldl_specify_apply, lastWrite_eventsOf, lease]
  cases lastOperationOn nodeTtlSeconds history k <;> rfl

/-- The lease map has a record of `k` exactly when the last operation on `k` was the update that
made that record, at some `u`, and its lease from `u` runs at `t`. -/
theorem lease_eq_some_iff {nodeTtlSeconds : ℤ} {history : History} {t : Time} {k : Str}
    {record : Record} :
  lease nodeTtlSeconds history t k = some record ↔
    ∃ before payload remoteHost u later,
      history = before ++ (.updateNode payload remoteHost, u) :: later ∧
      updateRecord nodeTtlSeconds payload remoteHost u = .ok record ∧ record.nodeId = k ∧
      (∀ i ∈ later, i.1.writeTo nodeTtlSeconds i.2 k = none) ∧
      t < u + nodeTtlSeconds * ticksPerSecond
  := by
  have hjoin : lease nodeTtlSeconds history t k = some record ↔
      lastOperationOn nodeTtlSeconds history k = some (some record) ∧
        t < record.expiresAtEpoch := by
    simp [lease, Option.filter_eq_some_iff, Option.join_eq_some_iff]
  rw [hjoin, lastOperationOn, List.findSome?_eq_some_iff]
  constructor
  · rintro ⟨⟨later, ⟨op, u⟩, before, hsplit, hwrite, hnone⟩, ht⟩
    have hhistory : history = before.reverse ++ (op, u) :: later.reverse := by
      rw [← List.reverse_reverse history, hsplit]
      simp
    cases op with
    | updateNode payload remoteHost =>
        simp only [Operation.writeTo] at hwrite
        cases hr : updateRecord nodeTtlSeconds payload remoteHost u with
        | error e => simp [hr] at hwrite
        | ok record' =>
            simp only [hr, Option.ite_none_right_eq_some, Option.some.injEq] at hwrite
            obtain ⟨hk, rfl⟩ := hwrite
            rw [(updateRecord_spec hr).expiresAtEpoch_eq] at ht
            use before.reverse, payload, remoteHost, u, later.reverse, hhistory, hr, hk
            simpa [ht] using hnone
    | markNodeOffline nodeId =>
        simp only [Operation.writeTo] at hwrite
        split at hwrite <;> simp at hwrite
    | _ => simp [Operation.writeTo] at hwrite
  · rintro ⟨before, payload, remoteHost, u, later, rfl, hr, hk, hnone, ht⟩
    constructor
    · use later.reverse, (.updateNode payload remoteHost, u), before.reverse
      simpa [Operation.writeTo, hr, hk] using hnone
    · rw [(updateRecord_spec hr).expiresAtEpoch_eq]
      apply ht

end UnicodeData

/-! ### Reads -/

/-- The peers the file index lists under a file hash. -/
def peersOf (index : FileIndex) (fileHash : Str) : List Peer :=
  ((index.get? fileHash).map IndexEntry.peers).getD []

/-- The blocks the file index lists under a file hash. -/
def availableBlocksOf (index : FileIndex) (fileHash : Str) : List ℤ :=
  ((index.get? fileHash).map IndexEntry.availableBlocks).getD []

/-- The resources of a record that have a file hash. -/
def Record.resourcesOf (record : Record) (fileHash : Str) : List Resource :=
  record.resources.filter fun resource => resource.fileHash = fileHash

/-- The reads of a registry at `t` show exactly the nodes of the map `m`, each with its record in
`m`. -/
structure ShowsExactly (nodes : Nodes) (t : Time) (m : Str → Option Record) : Prop where
  getNode_eq : ∀ nodeId k, asNonEmptyString nodeId "node_id" = .ok k →
    Prod.fst <$> getNode nodes nodeId t = .ok ((m k).map publicNode)
  listNodes_eq : ∀ k, (listNodes nodes t false).1.filter (fun node => node.nodeId = k)
    = ((m k).map publicNode).toList
  peers_eq : ∀ fileHash k,
    (peersOf (buildFileIndex nodes t false).1 fileHash).filter (fun peer => peer.nodeId = k)
      = (m k).toList.flatMap fun record =>
          (record.resourcesOf fileHash).map fun resource => peerOf record resource
  mem_availableBlocks : ∀ fileHash i,
    i ∈ availableBlocksOf (buildFileIndex nodes t false).1 fileHash ↔
      ∃ k record, m k = some record ∧ ∃ resource ∈ record.resourcesOf fileHash,
        ∃ block ∈ resource.blocks, block.index = i

/-- Cleaning up leaves what runs at the time. -/
theorem get?_cleanupExpired (nodes : Nodes) (t : Time) :
  (cleanupExpired nodes t).2.get? = Lease.live Record.expiresAtEpoch t nodes.get?
  := get?_cleanupExpired_eq_execute nodes t

/-- In a valid map, the values with node id `k` are the record of `k`. -/
theorem Nodes.Valid.filter_values {nodes : Nodes} (hnodes : nodes.Valid) (k : Str) :
  nodes.values.filter (fun record => record.nodeId = k) = (nodes.get? k).toList
  := by
  rw [← Dict.filter_items, Dict.values, List.filter_map]
  congr 1
  apply List.filter_congr
  intro i hi
  have hvalid := hnodes i.1 i.2 (Dict.get?_eq_some_iff.mpr hi)
  simp [hvalid.nodeId_eq]

theorem Nodes.Valid.filter {nodes : Nodes} (hnodes : nodes.Valid) (p : Str → Record → Bool) :
  Nodes.Valid (nodes.filter p)
  := by
  intro k r hr
  rw [Dict.get?_filter, Option.filter_eq_some_iff] at hr
  apply hnodes k r hr.1

theorem Nodes.Valid.cleanupExpired {nodes : Nodes} (hnodes : nodes.Valid) (t : Time) :
  (cleanupExpired nodes t).2.Valid
  := by
  rw [cleanupExpired_nodes]
  apply hnodes.filter

/-- The peers of a file hash are its holdings. -/
theorem peersOf_fileIndex (nodes : Nodes) (fileHash : Str) :
  peersOf (fileIndex nodes) fileHash
    = (holdingsOf fileHash (holdings nodes)).map fun i => peerOf i.1 i.2
  := by
  rw [peersOf, get?_fileIndex]
  cases holdingsOf fileHash (holdings nodes) <;> rfl

theorem holdingsOf_holdings (nodes : Nodes) (fileHash : Str) :
  holdingsOf fileHash (holdings nodes)
    = nodes.values.flatMap fun record => (record.resourcesOf fileHash).map fun resource =>
        (record, resource)
  := by
  rw [holdingsOf, holdings, List.filter_flatMap]
  congr 1
  funext record
  rw [List.filter_map]
  rfl

/-- The peers of a file hash with the id of a node are the node's resources of that hash. -/
theorem filter_peersOf_fileIndex {nodes : Nodes} (hnodes : nodes.Valid) (fileHash k : Str) :
  (peersOf (fileIndex nodes) fileHash).filter (fun peer => peer.nodeId = k)
    = (nodes.get? k).toList.flatMap fun record =>
        (record.resourcesOf fileHash).map fun resource => peerOf record resource
  := by
  rw [peersOf_fileIndex, holdingsOf_holdings, List.map_flatMap, List.filter_flatMap,
    ← hnodes.filter_values]
  induction nodes.values with
  | nil => rfl
  | cons record values ih =>
      rw [List.flatMap_cons, ih, List.map_map, List.filter_map]
      by_cases hk : record.nodeId = k
      · rw [List.filter_cons_of_pos (by simpa using hk), List.flatMap_cons]
        congr 1
        rw [List.filter_eq_self.mpr]
        · rfl
        · intro resource _
          simp [peerOf, hk]
      · rw [List.filter_cons_of_neg (by simpa using hk), List.filter_eq_nil_iff.mpr]
        · rfl
        · intro resource _
          simp [peerOf, hk]

theorem mem_availableBlocksOf_fileIndex {nodes : Nodes} {fileHash : Str} {i : ℤ} :
  i ∈ availableBlocksOf (fileIndex nodes) fileHash ↔
    ∃ k record, nodes.get? k = some record ∧ ∃ resource ∈ record.resourcesOf fileHash,
      ∃ block ∈ resource.blocks, block.index = i
  := by
  have hentry : availableBlocksOf (fileIndex nodes) fileHash
      = sortedSet ((holdingsOf fileHash (holdings nodes)).flatMap fun i =>
          i.2.blocks.map Block.index) := by
    rw [availableBlocksOf, get?_fileIndex]
    cases holdingsOf fileHash (holdings nodes) <;> rfl
  have hvalues : ∀ record, record ∈ nodes.values ↔ ∃ k, nodes.get? k = some record := by
    intro record
    simp [Dict.values, Dict.get?_eq_some_iff]
  rw [hentry, mem_sortedSet, holdingsOf_holdings]
  simp only [List.mem_flatMap, List.mem_map, hvalues]
  constructor
  · rintro ⟨_, ⟨record, ⟨k, hk⟩, resource, hresource, rfl⟩, block, hblock, hi⟩
    exact ⟨k, record, hk, resource, hresource, block, hblock, hi⟩
  · rintro ⟨k, record, hk, resource, hresource, block, hblock, hi⟩
    exact ⟨_, ⟨record, ⟨k, hk⟩, resource, hresource, rfl⟩, block, hblock, hi⟩

/-- The reads of a valid registry at `t` show exactly what runs at `t`. -/
theorem Nodes.Valid.showsExactly {nodes : Nodes} (hnodes : nodes.Valid) (t : Time) :
  ShowsExactly nodes t (Lease.live Record.expiresAtEpoch t nodes.get?)
  := by
  have hlive := hnodes.cleanupExpired t
  rw [← get?_cleanupExpired]
  constructor
  · intro nodeId k hk
    simp [getNode, hk]
  · intro k
    rw [Option.toList_map, ← hlive.filter_values, listNodes, List.filter_map]
    rfl
  · intro fileHash k
    apply filter_peersOf_fileIndex hlive
  · intro fileHash i
    apply mem_availableBlocksOf_fileIndex

/-- A history without its cleanups. -/
def withoutCleanups (history : History) : History :=
  history.filter fun i => match i.1 with
    | .cleanupExpired => false
    | _ => true

section UnicodeData

variable [UnicodeData]

/-- Cleanups do not change the lease map. -/
theorem lease_withoutCleanups (nodeTtlSeconds : ℤ) (history : History) (t : Time) :
  lease nodeTtlSeconds (withoutCleanups history) t = lease nodeTtlSeconds history t
  := by
  funext k
  have hlast : lastOperationOn nodeTtlSeconds (withoutCleanups history) k
      = lastOperationOn nodeTtlSeconds history k := by
    induction history using List.reverseRecOn with
    | nil => rfl
    | append_singleton history i ih =>
        obtain ⟨op, now⟩ := i
        simp only [lastOperationOn, withoutCleanups, List.filter_append, List.reverse_append,
          List.findSome?_append] at ih ⊢
        rw [ih]
        cases op <;> rfl
  rw [lease, lease, hlast]

/-- The registry refines the lease map: after any history of calls none of which is later than
`t`, the reads at `t` show exactly the nodes whose last operation was an update with a lease that
runs at `t`, each with the record of that update, and so they do if cleanups are added to the
history or left out of it. -/
theorem reads_show_lease (nodeTtlSeconds : ℤ) (history : History) (t : Time)
    (hclock : ∀ i ∈ history, i.2 ≤ t) :
  ShowsExactly (runAll nodeTtlSeconds history) t (lease nodeTtlSeconds history t) ∧
  (∀ k record, lease nodeTtlSeconds history t k = some record ↔
    ∃ before payload remoteHost u later,
      history = before ++ (.updateNode payload remoteHost, u) :: later ∧
      updateRecord nodeTtlSeconds payload remoteHost u = .ok record ∧ record.nodeId = k ∧
      (∀ i ∈ later, i.1.writeTo nodeTtlSeconds i.2 k = none) ∧
      t < u + nodeTtlSeconds * ticksPerSecond) ∧
  ∀ history', (∀ i ∈ history', i.2 ≤ t) → withoutCleanups history' = withoutCleanups history →
    ShowsExactly (runAll nodeTtlSeconds history') t (lease nodeTtlSeconds history t)
  := by
  have hshows : ∀ history', (∀ i ∈ history', i.2 ≤ t) →
      ShowsExactly (runAll nodeTtlSeconds history') t (lease nodeTtlSeconds history' t) := by
    intro history' hclock'
    rw [← live_runAll hclock']
    apply (valid_runAll nodeTtlSeconds history').showsExactly
  use hshows history hclock, fun k record => lease_eq_some_iff
  intro history' hclock' hcleanups
  rw [← lease_withoutCleanups, ← hcleanups, lease_withoutCleanups]
  apply hshows history' hclock'

end UnicodeData

/-- The update of a node without resources. -/
def updateOfNodeA : Operation :=
  .updateNode (.dict [
    (Str.ofString "node_id", .str (Str.ofString "node-a")),
    (Str.ofString "host", .str (Str.ofString "127.0.0.1")),
    (Str.ofString "port", .int 9001)]) none

/-- One node comes online, and the registry is cleaned up a second later. -/
def oneUpdate : History := [(updateOfNodeA, 0), (.cleanupExpired, ticksPerSecond)]

/-- Two seconds after its update, the node is shown. -/
theorem reads_show_oneUpdate :
  let _ := UnicodeData.ascii
  let t := 2 * ticksPerSecond
  ShowsExactly (runAll 90 oneUpdate) t (lease 90 oneUpdate t) ∧
  (lease 90 oneUpdate t (Str.ofString "node-a")).map Record.port = some 9001
  := by
  intro _ t
  use (reads_show_lease 90 oneUpdate t (by decide)).1
  decide

end Tracker
