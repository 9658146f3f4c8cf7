import ResourceDistribution.Tracker.Names

/-!
# What the index says of a file

The index has an entry for every hash that some stored resource has, with the blocks of all these
resources and one peer for each of them, in the order in which they are stored (`index_exact`). So
a node with two resources of one hash is listed and counted twice. In all states that the registry
reaches, the peers of a file are the nodes that hold it exactly when no node has two resources of
one hash (`peersOnce_iff`).
-/

open Python

namespace Tracker

/-! ### Entries -/

/-- Every stored record has its place among the values. -/
theorem mem_values_iff {nodes : Nodes} {record : Record} :
  record ∈ nodes.values ↔ ∃ k, nodes.get? k = some record
  := by
  simp [Dict.values, Dict.get?_eq_some_iff]

/-- The keys of the index are the hashes of the stored resources. -/
theorem mem_keys_fileIndex {nodes : Nodes} {fileHash : Str} :
  fileHash ∈ (fileIndex nodes).keys
    ↔ ∃ node ∈ nodes.values, ∃ resource ∈ node.resources, resource.fileHash = fileHash
  := by
  have hholding : (fileIndex nodes).get? fileHash = none
      ↔ ∀ i ∈ holdings nodes, i.2.fileHash ≠ fileHash := by
    rw [get?_fileIndex]
    cases hl : holdingsOf fileHash (holdings nodes) with
    | nil =>
        rw [holdingsOf, List.filter_eq_nil_iff] at hl
        simpa [entryOf?] using hl
    | cons first rest =>
        have hfirst : first ∈ holdingsOf fileHash (holdings nodes) := by
          rw [hl]
          apply List.mem_cons_self
        obtain ⟨hmem, hhash⟩ := List.mem_filter.mp hfirst
        simp only [entryOf?, reduceCtorEq, false_iff, not_forall, not_not]
        exact ⟨first, hmem, of_decide_eq_true hhash⟩
  rw [← Dict.isSome_get?_iff, Option.isSome_iff_ne_none, ne_eq, hholding]
  simp only [not_forall, not_not, exists_prop, mem_holdings, Prod.exists]
  constructor
  · rintro ⟨node, resource, ⟨hnode, hresource⟩, hhash⟩
    exact ⟨node, hnode, resource, hresource, hhash⟩
  · rintro ⟨node, hnode, resource, hresource, hhash⟩
    exact ⟨node, resource, ⟨hnode, hresource⟩, hhash⟩

/-- What the entry of a hash is made of. -/
theorem entry_of_holdings {nodes : Nodes} {fileHash : Str} {entry : IndexEntry}
    (hget : (fileIndex nodes).get? fileHash = some entry) :
  entry.peers = (holdingsOf fileHash (holdings nodes)).map (fun i => peerOf i.1 i.2) ∧
    entry.availableBlocks = sortedSet ((holdingsOf fileHash (holdings nodes)).flatMap fun i =>
      i.2.blocks.map Block.index)
  := by
  rw [get?_fileIndex] at hget
  obtain ⟨first, rest, hl, rfl⟩ := entryOf?_eq_some_iff.mp hget
  rw [hl]
  exact ⟨rfl, rfl⟩

/-- Every hash is listed once. -/
theorem map_fileHash_summaries (nodes : Nodes) :
  (summaries nodes).map FileSummary.fileHash = (fileIndex nodes).keys
  := by
  rw [summaries, Dict.values, Dict.keys, List.map_map, List.map_map]
  apply List.map_congr_left
  intro i hi
  apply fileHash_of_mem_fileIndex hi

/-- The list of files at a time is that of the nodes that run. -/
theorem listFiles_eq_sortBy (nodes : Nodes) (t : Time) :
  (listFiles nodes t).1 = Keyed.sortBy (fun f => nameAndHash f.fileName f.fileHash)
    (summaries (cleanupExpired nodes t).2)
  := rfl

/-- The index has an entry for the hashes of the stored resources. Its blocks are those that some
resource with the hash lists, in order, and its peers are made by the resources with the hash and
their nodes, one by one. The files are listed in the order of their names and hashes, every hash
once. -/
theorem index_exact (nodes : Nodes) (t : Time) :
  let index := (buildFileIndex nodes t true).1
  let files := (listFiles nodes t).1
  (∀ fileHash, fileHash ∈ index.keys
      ↔ ∃ node ∈ nodes.values, ∃ resource ∈ node.resources, resource.fileHash = fileHash) ∧
    (∀ fileHash entry, index.get? fileHash = some entry →
      entry.availableBlocks.Pairwise (· < ·) ∧
        (∀ i, i ∈ entry.availableBlocks ↔ ∃ node ∈ nodes.values, ∃ resource ∈ node.resources,
          resource.fileHash = fileHash ∧ ∃ block ∈ resource.blocks, block.index = i) ∧
        List.Forall₂ (fun peer (holding : Holding) =>
            peer.nodeId = holding.1.nodeId ∧ peer.host = holding.1.host ∧
              peer.port = holding.1.port ∧ peer.blocks = holding.2.blocks)
          entry.peers (holdingsOf fileHash (holdings nodes))) ∧
    files.Pairwise (fun f g =>
      nameAndHash f.fileName f.fileHash ≤ nameAndHash g.fileName g.fileHash) ∧
    (files.map FileSummary.fileHash).Nodup
  := by
  intro index files
  refine ⟨fun fileHash => mem_keys_fileIndex, ?_, ?_, ?_⟩
  · intro fileHash entry hentry
    have hget : (fileIndex nodes).get? fileHash = some entry := hentry
    obtain ⟨hpeers, hblocks⟩ := entry_of_holdings hget
    refine ⟨(entry_of_get? hget).2.1, ?_, ?_⟩
    · intro i
      rw [hblocks, mem_sortedSet, List.mem_flatMap]
      constructor
      · rintro ⟨⟨node, resource⟩, hholding, hi⟩
        obtain ⟨hmem, hhash⟩ := List.mem_filter.mp hholding
        obtain ⟨hnode, hresource⟩ := mem_holdings.mp hmem
        exact ⟨node, hnode, resource, hresource, of_decide_eq_true hhash, List.mem_map.mp hi⟩
      · rintro ⟨node, hnode, resource, hresource, hhash, hi⟩
        use (node, resource)
        constructor
        · apply List.mem_filter.mpr
          exact ⟨mem_holdings.mpr ⟨hnode, hresource⟩, decide_eq_true hhash⟩
        · exact List.mem_map.mpr hi
    · rw [hpeers, List.forall₂_map_left_iff, List.forall₂_same]
      intro holding _
      exact ⟨rfl, rfl, rfl, rfl⟩
  · apply Keyed.pairwise_sortBy
  · have hperm := (Keyed.sortBy_perm (fun f => nameAndHash f.fileName f.fileHash)
      (summaries (cleanupExpired nodes t).2)).map FileSummary.fileHash
    rw [← listFiles_eq_sortBy] at hperm
    apply hperm.nodup_iff.mpr
    rw [map_fileHash_summaries]
    apply (fileIndex (cleanupExpired nodes t).2).nodup

/-! ### Sizes -/

theorem length_holdings (nodes : Nodes) :
  (holdings nodes).length = (nodes.values.map fun record => record.resources.length).sum
  := by
  simp [holdings, List.length_flatMap]

theorem length_holdings_set_le (nodes : Nodes) (record : Record) :
  (holdings (nodes.set record.nodeId record)).length
    ≤ (holdings nodes).length + record.resources.length
  := by
  have hsubset : (nodes.set record.nodeId record).items
      ⊆ (record.nodeId, record) :: nodes.items := by
    intro i hi
    rcases Dict.mem_items_set.mp hi with rfl | ⟨hi, -⟩
    · apply List.mem_cons_self
    · apply List.mem_cons_of_mem _ hi
  have hle := Dict.sum_values_le hsubset fun record => record.resources.length
  rw [List.map_cons, List.map_cons, List.sum_cons, Nat.add_comm] at hle
  rw [length_holdings, length_holdings]
  exact hle

theorem length_holdings_filter_le (nodes : Nodes) (p : Str → Record → Bool) :
  (holdings (nodes.filter p)).length ≤ (holdings nodes).length
  := by
  have hsubset : (nodes.filter p).items ⊆ nodes.items := List.filter_subset_self _
  have hle := Dict.sum_values_le hsubset fun record => record.resources.length
  rw [length_holdings, length_holdings]
  exact hle

/-- A call adds no more resources to the map than it makes a record of. -/
theorem length_holdings_after_le [UnicodeData] {nodes : Nodes} {op : Operation}
    {nodeTtlSeconds : ℤ} {now : Time} {n : ℕ}
    (hop : ∀ payload remoteHost record, op = .updateNode payload remoteHost →
      updateRecord nodeTtlSeconds payload remoteHost now = .ok record →
      record.resources.length ≤ n) :
  (holdings (op.after nodeTtlSeconds nodes now)).length ≤ (holdings nodes).length + n
  := by
  have hdoes := does nodeTtlSeconds nodes now op
  rw [Operation.after]
  generalize op.run nodeTtlSeconds nodes now = r, op.events nodeTtlSeconds now = events at hdoes ⊢
  cases hdoes with
  | raises => apply Nat.le_add_right
  | reads => apply Nat.le_add_right
  | stores hrecord =>
      apply (length_holdings_set_le nodes _).trans
      apply Nat.add_le_add_left (hop _ _ _ rfl hrecord)
  | removes hid => apply (length_holdings_filter_le nodes _).trans (Nat.le_add_right _ n)
  | cleansUp =>
      dsimp only
      rw [cleanupExpired_nodes]
      apply (length_holdings_filter_le nodes _).trans (Nat.le_add_right _ n)

/-- The index has no more files than resources are stored. -/
theorem length_items_fileIndex_le (nodes : Nodes) :
  (fileIndex nodes).items.length ≤ (holdings nodes).length
  := by
  have hsubset : (fileIndex nodes).keys ⊆ (holdings nodes).map fun i => i.2.fileHash := by
    intro fileHash hkey
    obtain ⟨node, hnode, resource, hresource, rfl⟩ := mem_keys_fileIndex.mp hkey
    exact List.mem_map.mpr ⟨(node, resource), mem_holdings.mpr ⟨hnode, hresource⟩, rfl⟩
  have hle := (List.Nodup.subperm (fileIndex nodes).nodup hsubset).length_le
  rw [List.length_map, List.length_map] at hle
  exact hle

/-- A file has no more peers than resources are stored. -/
theorem length_peers_le {nodes : Nodes} {entry : IndexEntry}
    (hentry : entry ∈ (fileIndex nodes).values) :
  entry.peers.length ≤ (holdings nodes).length
  := by
  obtain ⟨⟨fileHash, _⟩, hitem, rfl⟩ := List.mem_map.mp hentry
  rw [(entry_of_holdings (Dict.get?_eq_some_iff.mpr hitem)).1, List.length_map]
  apply List.length_filter_le

/-! ### Distinct holders -/

/-- Whether the node shares a file with this hash. -/
def Record.holds (fileHash : Str) (record : Record) : Bool :=
  record.resources.any fun resource => resource.fileHash = fileHash

/-- The ids of the nodes that have not expired and share a file with this hash. -/
def holders (nodes : Nodes) (t : Time) (fileHash : Str) : List Str :=
  (nodes.filter fun _ record => !record.expired t && record.holds fileHash).keys

/-- In the index no node occurs twice among the peers of a file, and the list of files counts the
nodes that hold it. -/
structure PeersOnce (nodes : Nodes) (t : Time) : Prop where
  nodup : ∀ includeExpired fileHash entry,
    (buildFileIndex nodes t includeExpired).1.get? fileHash = some entry →
      (entry.peers.map Peer.nodeId).Nodup
  peerCount_eq : ∀ summary ∈ (listFiles nodes t).1,
    summary.peerCount = (holders nodes t summary.fileHash).length

/-- No two resources of the node have the same hash. -/
def Record.Distinct (record : Record) : Prop := (record.resources.map Resource.fileHash).Nodup

/-- No node has two resources with the same hash. -/
def Nodes.Distinct (nodes : Nodes) : Prop :=
  ∀ k record, nodes.get? k = some record → record.Distinct

/-- The node shares at most one file with each hash. -/
theorem distinct_iff {record : Record} :
  record.Distinct ↔ ∀ fileHash, (record.resourcesOf fileHash).length ≤ 1
  := by
  rw [Record.Distinct, Keyed.nodup_map_iff]
  exact Iff.rfl

/-- A node without two resources of one hash is once among the holdings of a hash. -/
theorem map_fst_holdingsOf {nodes : Nodes} (h : nodes.Distinct) (fileHash : Str) :
  (holdingsOf fileHash (holdings nodes)).map Prod.fst
    = nodes.values.filter (Record.holds fileHash)
  := by
  have hdistinct : ∀ record ∈ nodes.values, record.Distinct := by
    intro record hrecord
    obtain ⟨k, hk⟩ := mem_values_iff.mp hrecord
    apply h k record hk
  rw [holdingsOf_holdings]
  generalize nodes.values = records at hdistinct
  induction records with
  | nil => rfl
  | cons record records ih =>
      obtain ⟨hrecord, hrecords⟩ := List.forall_mem_cons.mp hdistinct
      rw [List.flatMap_cons, List.map_append, List.map_map, ih hrecords, List.filter_cons]
      have hle := distinct_iff.mp hrecord fileHash
      cases hresources : record.resourcesOf fileHash with
      | nil =>
          have hnot : record.holds fileHash = false := by
            rw [Record.holds, List.any_eq_false]
            rw [Record.resourcesOf, List.filter_eq_nil_iff] at hresources
            exact hresources
          rw [hnot]
          rfl
      | cons resource rest =>
          have hholds : record.holds fileHash = true := by
            have hmem : resource ∈ record.resourcesOf fileHash := by
              rw [hresources]
              apply List.mem_cons_self
            obtain ⟨hresource, hhash⟩ := List.mem_filter.mp hmem
            exact List.any_eq_true.mpr ⟨resource, hresource, hhash⟩
          rw [hresources, List.length_cons] at hle
          obtain rfl : rest = [] := List.eq_nil_of_length_eq_zero (by omega)
          rw [hholds]
          rfl

/-- No node is twice among the peers of a file exactly when none has two resources of one hash. -/
theorem nodup_peersOf_iff {nodes : Nodes} (hvalid : nodes.Valid) :
  (∀ fileHash, ((peersOf (fileIndex nodes) fileHash).map Peer.nodeId).Nodup) ↔ nodes.Distinct
  := by
  simp only [Keyed.nodup_map_iff, filter_peersOf_fileIndex hvalid]
  constructor
  · intro h k record hk
    rw [distinct_iff]
    intro fileHash
    have hle := h fileHash k
    rw [hk] at hle
    simpa using hle
  · intro h fileHash k
    cases hk : nodes.get? k with
    | none => simp
    | some record => simpa using distinct_iff.mp (h k record hk) fileHash

theorem Nodes.Distinct.cleanupExpired {nodes : Nodes} (h : nodes.Distinct) (t : Time) :
  (Tracker.cleanupExpired nodes t).2.Distinct
  := by
  intro k record hk
  apply h k record (get?_cleanupExpired_eq_some_iff.mp hk).1

/-- The peers of a file are counted once exactly when no node has two resources of one hash. -/
theorem Nodes.Valid.peersOnce_iff_distinct {nodes : Nodes} (hvalid : nodes.Valid) (t : Time) :
  PeersOnce nodes t ↔ nodes.Distinct
  := by
  constructor
  · intro h
    apply (nodup_peersOf_iff hvalid).mp
    intro fileHash
    rw [peersOf]
    cases hget : (fileIndex nodes).get? fileHash with
    | none => apply List.nodup_nil
    | some entry => apply h.nodup true fileHash entry hget
  · intro h
    constructor
    · intro includeExpired fileHash entry hget
      have hpeers : ∀ {nodes : Nodes}, nodes.Valid → nodes.Distinct →
          (fileIndex nodes).get? fileHash = some entry → (entry.peers.map Peer.nodeId).Nodup := by
        intro nodes hvalid hdistinct hget
        have hnodup := (nodup_peersOf_iff hvalid).mpr hdistinct fileHash
        rw [peersOf, hget] at hnodup
        exact hnodup
      cases includeExpired with
      | true => exact hpeers hvalid h hget
      | false => exact hpeers (hvalid.cleanupExpired t) (h.cleanupExpired t) hget
    · intro summary hsummary
      rw [listFiles_eq_sortBy, Keyed.mem_sortBy, mem_summaries_iff, summaryAt,
        Option.map_eq_some_iff] at hsummary
      obtain ⟨entry, hget, hsummary⟩ := hsummary
      have hcount := congrArg List.length
        (map_fst_holdingsOf (h.cleanupExpired t) summary.fileHash)
      rw [List.length_map] at hcount
      have hpeers : summary.peerCount = entry.peers.length := by rw [← hsummary, summaryOf]
      rw [hpeers, (entry_of_holdings hget).1, List.length_map, hcount, cleanupExpired_nodes,
        holders, Dict.values, Dict.keys, Dict.items_filter, Dict.items_filter, List.length_map,
        List.filter_map, List.length_map, List.filter_filter]
      congr 2
      funext i
      apply Bool.and_comm

section UnicodeData

variable [UnicodeData]

/-- If the call is an update that is accepted, no two of its resources have the same hash. -/
def Operation.Distinct (op : Operation) : Prop :=
  ∀ payload remoteHost nodeTtlSeconds now record, op = .updateNode payload remoteHost →
    updateRecord nodeTtlSeconds payload remoteHost now = .ok record → record.Distinct

theorem distinct_runAll {nodeTtlSeconds : ℤ} {history : History}
    (h : ∀ i ∈ history, i.1.Distinct) :
  (runAll nodeTtlSeconds history).Distinct
  := by
  apply forall_resources_runAll (Q := fun resources => (resources.map Resource.fileHash).Nodup)
  exact h

/-- In every state that the registry reaches, at every time, the peers of a file are counted once
exactly when no node has two resources of one hash. So they are in the states of every run whose
accepted updates have no two resources of one hash. -/
theorem peersOnce_iff [JsonCodec] (nodeTtlSeconds : ℤ) :
  (∀ nodes, Reachable nodeTtlSeconds nodes → ∀ t, PeersOnce nodes t ↔ nodes.Distinct) ∧
    (∀ history, (∀ i ∈ history, i.1.Distinct) → ∀ t, PeersOnce (runAll nodeTtlSeconds history) t) ∧
    ∀ events : List Event, (∀ event ∈ events, event.operation.Distinct) →
      ∃ w, (World.start nodeTtlSeconds).run events = some w ∧ ∀ t, PeersOnce w.nodes t
  := by
  refine ⟨fun nodes hreachable t => hreachable.valid.peersOnce_iff_distinct t, ?_, ?_⟩
  · intro history hdistinct t
    apply ((valid_runAll nodeTtlSeconds history).peersOnce_iff_distinct t).mpr
    apply distinct_runAll hdistinct
  · intro events hdistinct
    obtain ⟨w, hw, hnodes⟩ := exists_run_resources
      (Q := fun resources => (resources.map Resource.fileHash).Nodup) nodeTtlSeconds hdistinct
    use w, hw
    intro t
    have hreachable : Reachable nodeTtlSeconds w.nodes := .withFile hw
    apply (hreachable.valid.peersOnce_iff_distinct t).mpr hnodes

end UnicodeData

/-- The update of a node with two files of the same contents. -/
def twoCopies : Operation :=
  .updateNode (.dict [
    (Str.ofString "node_id", .str (Str.ofString "node-a")),
    (Str.ofString "host", .str (Str.ofString "127.0.0.1")),
    (Str.ofString "port", .int 9001),
    (Str.ofString "resources", .list (["one.txt", "two.txt"].map fun fileName => .dict [
      (Str.ofString "file_hash", .str (Str.ofString "h")),
      (Str.ofString "file_name", .str (Str.ofString fileName)),
      (Str.ofString "blocks", .list [.int 0])]))]) none

/-- The two holders of a file that both have it once are counted once. -/
theorem peersOnce_twoHolders :
  let _ := UnicodeData.ascii
  PeersOnce (runAll 90 (historyOf (twoHolders.map fun update => (update, 0)))) 0
  := by
  intro _
  let _ := JsonCodec.whole
  apply ((peersOnce_iff 90).1 _ (.inMemory _) 0).mpr
  have hdistinct :
      ∀ record ∈ (runAll 90 (historyOf (twoHolders.map fun update => (update, 0)))).values,
        (record.resources.map Resource.fileHash).Nodup := by
    decide
  intro k record hk
  exact hdistinct record (List.mem_map_of_mem (Dict.get?_eq_some_iff.mp hk))

/-- It is not the case that peers are always counted once: a node with two files of the same contents
is counted as two. -/
theorem not_peersOnce :
  let _ := UnicodeData.ascii
  let _ := JsonCodec.whole
  ¬ ∀ nodes, Reachable 90 nodes → ∀ t, PeersOnce nodes t
  := by
  intro _ _ hall
  have hreachable : Reachable 90 (runAll 90 [(twoCopies, 0)]) := .inMemory [(twoCopies, 0)]
  have hdistinct := (hreachable.valid.peersOnce_iff_distinct 0).mp (hall _ hreachable 0)
  have hrecord := hdistinct (Str.ofString "node-a") _ rfl
  revert hrecord
  rw [Record.Distinct]
  decide

end Tracker
