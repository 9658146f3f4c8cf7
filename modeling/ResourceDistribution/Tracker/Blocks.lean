import ResourceDistribution.Tracker.Normalize

/-!
# The blocks that are kept

What `_normalize_blocks` makes of a list: it keeps, of the entries with one index, the block of the
first one, and sorts by index. It builds a block from every entry, also from those that it drops, so
that a list is accepted exactly when each of its entries is (`normalizeBlocks_exact`).
-/

open Python Fallible

namespace Tracker

variable [UnicodeData]

/-- The value that gives the index of an entry of `raw_blocks`. -/
def indexValue (rawBlock : Json) : Json :=
  match rawBlock with
  | .dict items => Json.get items "index"
  | v => v

/-- The index of an entry of `raw_blocks`. -/
def rawIndex (rawBlock : Json) : Except Exc ℤ :=
  match rawBlock with
  | .dict items => asInt (Json.get items "index") "block.index" (some 0)
  | v => asInt v "block index" (some 0)

/-- The index of an entry is what `_as_int` makes of this value. -/
theorem rawIndex_eq (rawBlock : Json) :
  ∃ fieldName, rawIndex rawBlock = asInt (indexValue rawBlock) fieldName (some 0)
  := by
  cases rawBlock with
  | dict items => exact ⟨"block.index", rfl⟩
  | _ => exact ⟨"block index", rfl⟩

/-- The block built from an entry has its index. -/
theorem rawIndex_of_normalizeBlock {rawBlock : Json} {block : Block}
    (h : normalizeBlock rawBlock = .ok block) :
  rawIndex rawBlock = .ok block.index
  := by
  cases rawBlock with
  | dict items =>
      obtain ⟨index, hindex, h⟩ := bind_eq_ok.mp h
      obtain ⟨size, -, h⟩ := bind_eq_ok.mp h
      cases h
      exact hindex
  | _ =>
      obtain ⟨index, hindex, h⟩ := bind_eq_ok.mp h
      cases h
      exact hindex

/-- The indexes of the blocks built from some entries are those of the entries. -/
theorem mem_map_index_iff {rawBlocks : List Json} {built : List Block}
    (h : rawBlocks.mapM normalizeBlock = .ok built) {i : ℤ} :
  i ∈ built.map Block.index ↔ ∃ rawBlock ∈ rawBlocks, rawIndex rawBlock = .ok i
  := by
  constructor
  · intro hi
    obtain ⟨block, hblock, rfl⟩ := List.mem_map.mp hi
    obtain ⟨before, after, rfl⟩ := List.append_of_mem hblock
    obtain ⟨l₁, rawBlock, l₂, rfl, -, hbuilt⟩ := exists_append_of_mapM_eq_ok h
    use rawBlock, List.mem_append_right l₁ List.mem_cons_self
    apply rawIndex_of_normalizeBlock hbuilt
  · rintro ⟨rawBlock, hmem, hi⟩
    obtain ⟨block, hblock, hbuilt⟩ := exists_of_mapM_eq_ok h rawBlock hmem
    have hindex := rawIndex_of_normalizeBlock hbuilt
    rw [hi] at hindex
    rw [Except.ok.inj hindex]
    apply List.mem_map_of_mem hblock

/-- A list is accepted with the blocks built from its entries, of every index the first. -/
theorem normalizeBlocks_list_eq_ok_iff {rawBlocks : List Json} {blocks : List Block} :
  normalizeBlocks (.list rawBlocks) = .ok blocks ↔
    ∃ built, rawBlocks.mapM normalizeBlock = .ok built ∧
      blocks = Keyed.sortBy Block.index (Keyed.firstWins Block.index [] built)
  := by
  rw [normalizeBlocks_list, map_eq_pure_bind, bind_eq_ok]
  apply exists_congr
  intro built
  apply and_congr_right
  intro _
  simp [pure, Except.pure, eq_comm]

/-- The indexes of the blocks that are kept are those of the entries. -/
theorem mem_map_index_normalizeBlocks_iff {rawBlocks : List Json} {blocks : List Block}
    (h : normalizeBlocks (.list rawBlocks) = .ok blocks) {i : ℤ} :
  i ∈ blocks.map Block.index ↔ ∃ rawBlock ∈ rawBlocks, rawIndex rawBlock = .ok i
  := by
  obtain ⟨built, hbuilt, rfl⟩ := normalizeBlocks_list_eq_ok_iff.mp h
  rw [← mem_map_index_iff hbuilt, ((Keyed.sortBy_perm Block.index _).map Block.index).mem_iff,
    Keyed.mem_map_firstWins_iff]
  simp

/-- A block that is kept is built from the first entry with its index. -/
theorem exists_first_of_mem_normalizeBlocks {rawBlocks : List Json} {blocks : List Block}
    (h : normalizeBlocks (.list rawBlocks) = .ok blocks) {block : Block} (hblock : block ∈ blocks) :
  ∃ before rawBlock after, rawBlocks = before ++ rawBlock :: after ∧
    normalizeBlock rawBlock = .ok block ∧ ∀ other ∈ before, rawIndex other ≠ .ok block.index
  := by
  obtain ⟨built, hbuilt, rfl⟩ := normalizeBlocks_list_eq_ok_iff.mp h
  rw [Keyed.mem_sortBy, Keyed.mem_firstWins_iff] at hblock
  obtain ⟨-, before, after, rfl, hbefore⟩ := hblock
  obtain ⟨l₁, rawBlock, l₂, rfl, hl₁, hblock⟩ := exists_append_of_mapM_eq_ok hbuilt
  refine ⟨l₁, rawBlock, l₂, rfl, hblock, ?_⟩
  intro other hother hindex
  have hmem := (mem_map_index_iff hl₁).mpr ⟨other, hother, hindex⟩
  obtain ⟨b, hb, heq⟩ := List.mem_map.mp hmem
  exact hbefore b hb heq

/-- A list is accepted exactly when every entry is. -/
theorem succeeds_normalizeBlocks_iff {rawBlocks : List Json} :
  Succeeds (normalizeBlocks (.list rawBlocks)) ↔
    ∀ rawBlock ∈ rawBlocks, Succeeds (normalizeBlock rawBlock)
  := by
  rw [← succeeds_mapM_iff]
  constructor
  · rintro ⟨blocks, h⟩
    obtain ⟨built, hbuilt, -⟩ := normalizeBlocks_list_eq_ok_iff.mp h
    exact ⟨built, hbuilt⟩
  · rintro ⟨built, hbuilt⟩
    exact ⟨_, normalizeBlocks_list_eq_ok_iff.mpr ⟨built, hbuilt, rfl⟩⟩

/-- The blocks kept of a list are strictly increasing in index, and their indexes are those of the
entries. For every index the block of the first entry with this index is kept. A list is accepted
exactly when every entry is. -/
theorem normalizeBlocks_exact (rawBlocks : List Json) :
  (∀ blocks, normalizeBlocks (.list rawBlocks) = .ok blocks →
      blocks.Pairwise (fun a b => a.index < b.index) ∧
        (∀ i, i ∈ blocks.map Block.index ↔ ∃ rawBlock ∈ rawBlocks, rawIndex rawBlock = .ok i) ∧
        ∀ block ∈ blocks, ∃ before rawBlock after, rawBlocks = before ++ rawBlock :: after ∧
          normalizeBlock rawBlock = .ok block ∧
          ∀ other ∈ before, rawIndex other ≠ .ok block.index) ∧
    (Succeeds (normalizeBlocks (.list rawBlocks)) ↔
      ∀ rawBlock ∈ rawBlocks, Succeeds (normalizeBlock rawBlock))
  := by
  constructor
  · intro blocks h
    use (normalizeBlocks_spec h).2
    constructor
    · intro i
      apply mem_map_index_normalizeBlocks_iff h
    · intro block hblock
      apply exists_first_of_mem_normalizeBlocks h hblock
  · apply succeeds_normalizeBlocks_iff

end Tracker
