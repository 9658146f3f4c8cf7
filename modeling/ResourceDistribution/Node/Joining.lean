import ResourceDistribution.Data.Dict
import ResourceDistribution.Node.TransferWorker

/-!
# Joining blocks

`join_blocks` sorts the blocks by their indexes and compares every index with its position. That one
comparison finds duplicates and gaps: blocks are joined exactly when their indexes are the first
numbers, each once, and the order in which they arrive does not matter (`joinBlocks_exact`).
-/

namespace Node

/-- The first position at which an index is not the position. -/
def firstMismatch (indexes : List Nat) : Option Nat :=
  (indexes.zipIdx.find? fun i => i.1 ≠ i.2).map Prod.snd

/-- The comparison of `join_blocks` sees only the sorted indexes. -/
theorem joinBlocks_eq (blocks : List BlockData) :
  joinBlocks blocks =
    match firstMismatch ((Keyed.sortBy Prod.fst blocks).map Prod.fst) with
    | some expected => .error (.notContiguous expected)
    | none => .ok ((Keyed.sortBy Prod.fst blocks).flatMap Prod.snd)
  := by
  have hmismatch : firstMismatch ((Keyed.sortBy Prod.fst blocks).map Prod.fst)
      = ((Keyed.sortBy Prod.fst blocks).zipIdx.find? fun i => i.1.1 ≠ i.2).map Prod.snd := by
    rw [firstMismatch, List.zipIdx_map, List.find?_map, Option.map_map]
    rfl
  rw [joinBlocks, hmismatch]
  cases (Keyed.sortBy Prod.fst blocks).zipIdx.find? fun i => i.1.1 ≠ i.2 with
  | none => rfl
  | some found => rfl

/-- Sorted indexes are the first numbers exactly when the indexes are these, in some order. -/
theorem map_sortBy_eq_range_iff {blocks : List BlockData} :
  (Keyed.sortBy Prod.fst blocks).map Prod.fst = List.range blocks.length
    ↔ (blocks.map Prod.fst).Perm (List.range blocks.length)
  := by
  apply Keyed.map_sortBy_eq_iff
  apply List.pairwise_le_range

/-- The bytes of the block with an index. -/
def bytesAt (blocks : List BlockData) (index : Nat) : List UInt8 :=
  (blocks.lookup index).getD []

/-- The sorted blocks, one after the other, have the bytes of the indexes in their order. -/
theorem flatMap_sortBy {blocks : List BlockData}
    (h : (blocks.map Prod.fst).Perm (List.range blocks.length)) :
  (Keyed.sortBy Prod.fst blocks).flatMap Prod.snd
    = (List.range blocks.length).flatMap (bytesAt blocks)
  := by
  have hnodup : (blocks.map Prod.fst).Nodup := h.nodup_iff.mpr List.nodup_range
  rw [← map_sortBy_eq_range_iff.mpr h, List.flatMap_map]
  apply List.flatMap_congr
  rintro ⟨index, bytes⟩ hblock
  rw [Keyed.mem_sortBy] at hblock
  rw [bytesAt, (Dict.lookup_eq_some_iff hnodup).mpr hblock]
  rfl

/-- Blocks are joined exactly when their indexes are the first numbers, each once, in any order, and
then to their bytes in the order of the indexes. The outcome is the same for every order of the
blocks. -/
theorem joinBlocks_exact (blocks : List BlockData) :
  (∀ bytes, joinBlocks blocks = .ok bytes ↔
      (blocks.map Prod.fst).Perm (List.range blocks.length) ∧
        bytes = (List.range blocks.length).flatMap (bytesAt blocks)) ∧
    ∀ blocks', blocks.Perm blocks' → joinBlocks blocks = joinBlocks blocks'
  := by
  constructor
  · intro bytes
    rw [joinBlocks_eq_ok_iff, map_sortBy_eq_range_iff]
    apply and_congr_right
    intro h
    rw [flatMap_sortBy h]
  · intro blocks' hperm
    rw [joinBlocks_eq, joinBlocks_eq, Keyed.map_sortBy_congr Prod.fst hperm]
    cases hmismatch : firstMismatch ((Keyed.sortBy Prod.fst blocks').map Prod.fst) with
    | some expected => rfl
    | none =>
        have hjoined : joinBlocks blocks' = .ok ((Keyed.sortBy Prod.fst blocks').flatMap Prod.snd) := by
          rw [joinBlocks_eq, hmismatch]
        have hindexes := map_sortBy_eq_range_iff.mp (joinBlocks_eq_ok_iff.mp hjoined).1
        have hnodup : (blocks'.map Prod.fst).Nodup := hindexes.nodup_iff.mpr List.nodup_range
        rw [Keyed.sortBy_congr Prod.fst hnodup hperm.symm]

end Node
