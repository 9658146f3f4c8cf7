import Mathlib.Data.List.Dedup
import ResourceDistribution.Tracker.Registry

/-!
# The file index in closed form

`holdings nodes` lists the pairs of a record and one of its resources, in the order the loops of
`build_file_index` visit them. The entry of a file hash is `entryOf` the holdings of that hash:
the name of the first one, the first size and the first block size that is given, one peer for
each, and the indexes of all their blocks (`get?_fileIndex`). A query finds the entries that satisfy
what is usable of its criteria (`mem_of_findFileLocations_eq_ok`).
-/

open Python

namespace Tracker

/-! ### Sorted sets of integers -/

theorem sortedSet_eq_sortedSet_iff {xs ys : List ℤ} :
  sortedSet xs = sortedSet ys ↔ ∀ x, x ∈ xs ↔ x ∈ ys
  := by
  rw [sortedSet, sortedSet,
    Keyed.sortBy_eq_sortBy_iff Function.injective_id (List.nodup_dedup xs) (List.nodup_dedup ys)]
  simp only [List.mem_dedup]

@[simp]
theorem mem_sortedSet {xs : List ℤ} {x : ℤ} :
  x ∈ sortedSet xs ↔ x ∈ xs
  := by
  rw [sortedSet, Keyed.mem_sortBy, List.mem_dedup]

theorem pairwise_sortedSet (xs : List ℤ) :
  (sortedSet xs).Pairwise (· < ·)
  := Keyed.pairwise_lt_sortBy id (List.nodup_dedup xs)

/-- Taking the set of a part first changes nothing. -/
theorem sortedSet_append_sortedSet (xs ys : List ℤ) :
  sortedSet (sortedSet xs ++ ys) = sortedSet (xs ++ ys)
  := by
  apply sortedSet_eq_sortedSet_iff.mpr
  intro x
  simp

/-! ### Holdings -/

/-- A record and one of its resources. -/
abbrev Holding := Record × Resource

/-- The resources of all records, in the order of the index's loops. -/
def holdings (nodes : Nodes) : List Holding :=
  nodes.values.flatMap fun node => node.resources.map fun resource => (node, resource)

/-- The holdings of a file hash. -/
def holdingsOf (fileHash : Str) (l : List Holding) : List Holding :=
  l.filter fun i => i.2.fileHash = fileHash

/-- The entry that the holdings `first :: rest` of one file hash make. -/
def entryOf (first : Holding) (rest : List Holding) : IndexEntry where
  fileHash := first.2.fileHash
  fileName := first.2.fileName
  fileSize := (first :: rest).findSome? fun i => i.2.fileSize
  blockSize := (first :: rest).findSome? fun i => i.2.blockSize
  peers := (first :: rest).map fun i => peerOf i.1 i.2
  availableBlocks := sortedSet ((first :: rest).flatMap fun i => i.2.blocks.map Block.index)

/-- The entry that a list of holdings of one file hash makes, if there are any. -/
def entryOf? : List Holding → Option IndexEntry
  | [] => none
  | first :: rest => some (entryOf first rest)

/-- The loops of `build_file_index`, as one loop over holdings. -/
def indexHoldings (l : List Holding) : FileIndex :=
  l.foldl (fun index i => indexResource i.1 index i.2) Dict.empty

theorem fileIndex_eq_indexHoldings (nodes : Nodes) :
  fileIndex nodes = indexHoldings (holdings nodes)
  := by
  rw [fileIndex, indexHoldings, holdings, List.foldl_flatMap]
  simp only [List.foldl_map]

/-- A new entry with its first holder. -/
theorem addHolder_newEntry (node : Record) (resource : Resource) :
  addHolder (newEntry resource) node resource = entryOf (node, resource) []
  := by
  simp [addHolder, newEntry, entryOf]

/-- Adding a holder to the entry of some holdings gives the entry with one more. -/
theorem addHolder_entryOf (first : Holding) (rest : List Holding) (node : Record)
    (resource : Resource) :
  addHolder (entryOf first rest) node resource = entryOf first (rest ++ [(node, resource)])
  := by
  simp only [addHolder, entryOf, sortedSet_append_sortedSet, ← List.cons_append,
    List.map_append, List.flatMap_append, List.findSome?_append]
  simp

/-- What one round of the index's loop does to the entry of a file hash: the round of a holding
of that hash adds a holder, any other round nothing. -/
theorem get?_indexResource (index : FileIndex) (l : List Holding) (i : Holding) (h : Str)
    (hindex : index.get? h = entryOf? (holdingsOf h l)) :
  (indexResource i.1 index i.2).get? h = entryOf? (holdingsOf h (l ++ [i]))
  := by
  rw [indexResource, Dict.get?_set]
  by_cases hi : h = i.2.fileHash
  · subst hi
    have hlast : holdingsOf i.2.fileHash (l ++ [i]) = holdingsOf i.2.fileHash l ++ [i] := by
      simp [holdingsOf]
    rw [if_pos rfl, hindex, hlast]
    cases holdingsOf i.2.fileHash l with
    | nil => simp [entryOf?, addHolder_newEntry]
    | cons first rest => simp [entryOf?, addHolder_entryOf]
  · have hlast : holdingsOf h (l ++ [i]) = holdingsOf h l := by
      simp [holdingsOf, Ne.symm hi]
    rw [if_neg hi, hindex, hlast]

theorem get?_indexHoldings (l : List Holding) (h : Str) :
  (indexHoldings l).get? h = entryOf? (holdingsOf h l)
  := by
  induction l using List.reverseRecOn with
  | nil => rfl
  | append_singleton l i ih =>
      rw [indexHoldings, List.foldl_append]
      apply get?_indexResource _ l i h ih

/-- The entry of a file hash in the index is made by the holdings of that hash. -/
theorem get?_fileIndex (nodes : Nodes) (h : Str) :
  (fileIndex nodes).get? h = entryOf? (holdingsOf h (holdings nodes))
  := by
  rw [fileIndex_eq_indexHoldings, get?_indexHoldings]

theorem mem_holdings {nodes : Nodes} {i : Holding} :
  i ∈ holdings nodes ↔ i.1 ∈ nodes.values ∧ i.2 ∈ i.1.resources
  := by
  obtain ⟨node, resource⟩ := i
  simp [holdings]

/-- The entries of the index are the ones made by the holdings of some hash. -/
theorem mem_items_fileIndex {nodes : Nodes} {h : Str} {entry : IndexEntry} :
  (h, entry) ∈ (fileIndex nodes).items ↔ entryOf? (holdingsOf h (holdings nodes)) = some entry
  := by
  rw [← Dict.get?_eq_some_iff, get?_fileIndex]

/-- What the entry made by the holdings of a hash says, field by field. -/
theorem entryOf?_eq_some_iff {l : List Holding} {entry : IndexEntry} :
  entryOf? l = some entry ↔ ∃ first rest, l = first :: rest ∧ entry = entryOf first rest
  := by
  cases l with
  | nil => simp [entryOf?]
  | cons first rest =>
      simp only [entryOf?, Option.some.injEq, List.cons.injEq]
      constructor
      · rintro rfl
        use first, rest
      · rintro ⟨_, _, ⟨rfl, rfl⟩, rfl⟩
        rfl

/-- An entry is stored under its own hash. -/
theorem fileHash_of_mem_fileIndex {nodes : Nodes} {h : Str} {entry : IndexEntry}
    (hmem : (h, entry) ∈ (fileIndex nodes).items) :
  entry.fileHash = h
  := by
  obtain ⟨first, rest, hl, rfl⟩ := entryOf?_eq_some_iff.mp (mem_items_fileIndex.mp hmem)
  have hfirst : first ∈ holdingsOf h (holdings nodes) := by
    rw [hl]
    apply List.mem_cons_self
  simpa [holdingsOf, entryOf] using (List.mem_filter.mp hfirst).2

/-- An entry is the one that the index has under its hash. -/
theorem get?_of_mem_values {nodes : Nodes} {entry : IndexEntry}
    (h : entry ∈ (fileIndex nodes).values) :
  (fileIndex nodes).get? entry.fileHash = some entry
  := by
  obtain ⟨⟨fileHash, _⟩, hitem, rfl⟩ := List.mem_map.mp h
  rw [fileHash_of_mem_fileIndex hitem]
  exact Dict.get?_eq_some_iff.mpr hitem

/-- An entry is known by its hash. -/
theorem eq_of_fileHash_eq {nodes : Nodes} {entry other : IndexEntry}
    (h : entry ∈ (fileIndex nodes).values) (h' : other ∈ (fileIndex nodes).values)
    (heq : entry.fileHash = other.fileHash) :
  entry = other
  := by
  apply Option.some.inj
  rw [← get?_of_mem_values h, ← get?_of_mem_values h', heq]

/-- An entry lists some peer, and the blocks that its peers list, in order. -/
theorem entry_of_get? {nodes : Nodes} {h : Str} {entry : IndexEntry}
    (hget : (fileIndex nodes).get? h = some entry) :
  entry.peers ≠ [] ∧ entry.availableBlocks.Pairwise (· < ·) ∧
    ∀ i, i ∈ entry.availableBlocks ↔ ∃ peer ∈ entry.peers, ∃ block ∈ peer.blocks, block.index = i
  := by
  rw [get?_fileIndex] at hget
  obtain ⟨first, rest, -, rfl⟩ := entryOf?_eq_some_iff.mp hget
  refine ⟨by simp [entryOf], pairwise_sortedSet _, ?_⟩
  intro i
  simp [entryOf, peerOf]

/-! ### Expiry -/

/-- Cleaning up keeps exactly the records that have not expired. -/
theorem cleanupExpired_nodes (nodes : Nodes) (now : Time) :
  (cleanupExpired nodes now).2 = nodes.filter fun _ record => !record.expired now
  := by
  rw [← Dict.foldl_erase_filter]
  simp [cleanupExpired]

/-! ### Queries -/

/-- What is left of a criterion when it is stripped, if anything is. -/
def usable (value : Option Str) : Option Str := (value.map Str.strip).filter (· ≠ [])

theorem usable_eq_none_iff {value : Option Str} :
  usable value = none ↔ ∀ s ∈ value, s.strip = []
  := by
  cases value with
  | none => simp [usable]
  | some s => simp [usable]

/-- What is not empty is a criterion, blank or not. -/
theorem criterion_eq_none_iff {value : Option Str} :
  criterion value = none ↔ ∀ s ∈ value, s = []
  := by
  cases value with
  | none => simp [criterion]
  | some s => simp [criterion]

/-- A criterion excludes what its usable part does. -/
theorem passes_criterion_iff {value : Option Str} {s : Str} :
  passes (criterion value) s = true ↔ ∀ c ∈ usable value, s = c
  := by
  cases value with
  | none => simp [criterion, usable, passes]
  | some given =>
      by_cases hempty : given = []
      · subst hempty
        have hblank : Str.strip [] = [] := rfl
        simp [criterion, usable, passes, Option.filter_some, hblank]
      · by_cases hblank : given.strip = []
        · simp [criterion, usable, passes, Option.filter_some, hempty, hblank]
        · simp [criterion, usable, passes, Option.filter_some, hempty, hblank]

/-- If some criterion is given, the entries that pass are found. -/
theorem findFileLocations_eq_ok_iff {nodes after : Nodes} {fileHash fileName : Option Str} {t : Time}
    {entries : List IndexEntry} :
  findFileLocations nodes fileHash fileName t = .ok (entries, after) ↔
    ¬ (criterion fileHash = none ∧ criterion fileName = none) ∧
      entries = Keyed.sortBy (fun e => nameAndHash e.fileName e.fileHash)
        ((fileIndex (cleanupExpired nodes t).2).values.filter fun entry =>
          passes (criterion fileHash) entry.fileHash &&
            passes (criterion fileName) entry.fileName) ∧
      after = (cleanupExpired nodes t).2
  := by
  rw [findFileLocations]
  split
  · rename_i hnone
    simp [invalid, hnone]
  · rename_i hgiven
    rw [Except.ok.injEq, Prod.mk.injEq, eq_comm, @eq_comm _ _ after]
    exact (and_iff_right hgiven).symm

theorem exists_findFileLocations_eq_ok (nodes : Nodes) {fileHash fileName : Option Str} (t : Time)
    (hgiven : ¬ (criterion fileHash = none ∧ criterion fileName = none)) :
  ∃ entries, findFileLocations nodes fileHash fileName t
    = .ok (entries, (cleanupExpired nodes t).2)
  := ⟨_, findFileLocations_eq_ok_iff.mpr ⟨hgiven, rfl, rfl⟩⟩

/-- What is found are the entries that satisfy what is usable of the criteria. -/
theorem mem_of_findFileLocations_eq_ok {nodes after : Nodes} {fileHash fileName : Option Str}
    {t : Time} {entries : List IndexEntry}
    (h : findFileLocations nodes fileHash fileName t = .ok (entries, after)) (entry : IndexEntry) :
  entry ∈ entries ↔
    entry ∈ (fileIndex (cleanupExpired nodes t).2).values ∧
      (∀ hash ∈ usable fileHash, entry.fileHash = hash) ∧
      ∀ name ∈ usable fileName, entry.fileName = name
  := by
  obtain ⟨-, rfl, -⟩ := findFileLocations_eq_ok_iff.mp h
  rw [Keyed.mem_sortBy, List.mem_filter, Bool.and_eq_true, passes_criterion_iff,
    passes_criterion_iff]

end Tracker
