import ResourceDistribution.Tracker.Server

/-!
# Normal forms

A value that the functions of `registry.py` have normalised is in normal form: strings are stripped,
blocks are in order, and nothing is left out that would be dropped. Normalised again it is the same,
with one exception: a resource without blocks is refused (`normalizeResource_resourceJson`).
-/

open Python Fallible

namespace Tracker

section UnicodeData

variable [UnicodeData]

/-! ### Fields -/

/-- An optional string is stored without white space at its ends. -/
theorem trimmed_of_asOptionalString {value : Json} {s : Str} (h : asOptionalString value = some s) :
  s.Trimmed
  := by
  cases value with
  | null => cases h
  | str t =>
      rw [asOptionalString, Option.ite_none_left_eq_some] at h
      rw [← Option.some.inj h.2]
      apply Str.trimmed_strip
  | _ =>
      rw [← Option.some.inj h]
      apply Json.trimmed_repr
      simp

/-- A stored optional string is accepted as it is. -/
theorem asOptionalString_ofOptional {s : Option Str} (h : ∀ t ∈ s, t ≠ [] ∧ t.Trimmed) :
  asOptionalString (ofOptional s) = s
  := by
  cases s with
  | none => rfl
  | some t =>
      obtain ⟨hne, htrimmed⟩ := h t rfl
      rw [ofOptional, asOptionalString, Str.strip_eq_self_iff.mpr htrimmed, if_neg hne]

omit [UnicodeData] in
/-- What is tested for being empty before it is stored is stored if it is not. -/
theorem filter_ne_nil {s : Option Str} (h : ∀ t ∈ s, t ≠ []) :
  s.filter (· ≠ []) = s
  := by
  cases s with
  | none => rfl
  | some t => rw [Option.filter_some, if_pos (decide_eq_true (h t rfl))]

/-- A stored optional number is accepted as it is. -/
theorem optionalInt_of_get {items : List (Str × Json)} {name : String} {n : Option ℤ}
    (hget : Json.get items name = optionalJson n) (h : ∀ m ∈ n, 0 ≤ m) (fieldName : String) :
  optionalInt items name fieldName = .ok n
  := by
  rw [optionalInt, hget]
  cases n with
  | none => rfl
  | some m =>
      rw [optionalJson, asInt_int (h m rfl)]
      rfl

/-! ### Blocks -/

/-- A block in normal form: it is valid, and its hash has no white space at its ends. -/
structure Block.Normal (b : Block) : Prop extends Block.Valid b where
  hash_trimmed : ∀ h ∈ b.hash, h.Trimmed

/-- The blocks that are built are in normal form. -/
theorem normal_of_normalizeBlock {rawBlock : Json} {b : Block} (h : normalizeBlock rawBlock = .ok b) :
  b.Normal
  := by
  use normalizeBlock_spec h
  cases rawBlock with
  | dict items =>
      obtain ⟨index, -, h⟩ := bind_eq_ok.mp h
      obtain ⟨size, -, h⟩ := bind_eq_ok.mp h
      cases h
      intro hash hhash
      apply trimmed_of_asOptionalString (Option.mem_filter_iff.mp hhash).1
  | _ =>
      obtain ⟨index, -, h⟩ := bind_eq_ok.mp h
      cases h
      simp

omit [UnicodeData] in
/-- The fields of a block as it is shown. -/
theorem blockJson_spec (b : Block) :
  ∃ items, blockJson b = .dict items ∧ Json.get items "index" = .int b.index ∧
    Json.get items "hash" = ofOptional b.hash ∧ Json.get items "size" = optionalJson b.size
  := by
  refine ⟨_, rfl, ?_⟩
  cases b.hash <;> cases b.size <;> simp [ofOptional, optionalJson]

/-- A block in normal form is normalised to itself. -/
theorem normalizeBlock_blockJson {b : Block} (h : b.Normal) :
  normalizeBlock (blockJson b) = .ok b
  := by
  obtain ⟨items, hitems, hindex, hhash, hsize⟩ := blockJson_spec b
  have hoptional : asOptionalString (ofOptional b.hash) = b.hash :=
    asOptionalString_ofOptional fun s hs => ⟨h.hash_ne_nil s hs, h.hash_trimmed s hs⟩
  simp only [hitems, normalizeBlock, hindex, asInt_int h.index_nonneg, hhash, hoptional,
    filter_ne_nil h.hash_ne_nil,
    optionalInt_of_get hsize h.size_nonneg]
  rfl

/-- A list of such blocks, in order, is normalised to itself. -/
theorem normalizeBlocks_map_blockJson {blocks : List Block} (h : ∀ b ∈ blocks, b.Normal)
    (hincreasing : blocks.Pairwise (fun a b => a.index < b.index)) :
  normalizeBlocks (.list (blocks.map blockJson)) = .ok blocks
  := by
  have hbuilt : (blocks.map blockJson).mapM normalizeBlock = .ok blocks := by
    rw [mapM_eq_ok_iff, List.forall₂_map_left_iff, List.forall₂_same]
    intro b hb
    apply normalizeBlock_blockJson (h b hb)
  have hfirst : Keyed.firstWins Block.index [] blocks = blocks := by
    apply Keyed.firstWins_eq_self
    · exact hincreasing.imp ne_of_lt
    · simp
  have hsorted : Keyed.sortBy Block.index blocks = blocks :=
    Keyed.sortBy_eq_self Block.index (hincreasing.imp le_of_lt)
  rw [normalizeBlocks_list, hbuilt]
  simp only [Functor.map, Except.map, hfirst, hsorted]

/-- Of a list with entries, blocks are kept. -/
theorem normalizeBlocks_ne_nil_iff {rawBlocks : List Json} {blocks : List Block}
    (h : normalizeBlocks (.list rawBlocks) = .ok blocks) :
  blocks ≠ [] ↔ rawBlocks ≠ []
  := by
  rw [normalizeBlocks_list, map_eq_pure_bind] at h
  obtain ⟨built, hbuilt, h⟩ := bind_eq_ok.mp h
  cases h
  have hlength := (mapM_eq_ok_iff.mp hbuilt).length_eq
  cases built with
  | nil =>
      rw [List.length_nil, List.length_eq_zero_iff] at hlength
      simp [hlength, Keyed.firstWins, Keyed.sortBy]
  | cons b built =>
      have hraw : rawBlocks ≠ [] := by
        rintro rfl
        cases hlength
      rw [Keyed.firstWins, if_neg List.not_mem_nil, ne_eq, ← List.length_eq_zero_iff,
        (Keyed.sortBy_perm Block.index _).length_eq]
      simp [hraw]

/-! ### Resources -/

/-- A resource in normal form. -/
structure Resource.Normal (r : Resource) : Prop extends Resource.Valid r where
  hashes_trimmed : ∀ b ∈ r.blocks, ∀ h ∈ b.hash, h.Trimmed
  contentType_ne_nil : ∀ s ∈ r.contentType, s ≠ []
  contentType_trimmed : ∀ s ∈ r.contentType, s.Trimmed

/-- The blocks of accepted lists are in normal form. -/
theorem normal_of_normalizeBlocks {rawBlocks : Json} {blocks : List Block}
    (h : normalizeBlocks rawBlocks = .ok blocks) :
  ∀ b ∈ blocks, b.Normal
  := by
  cases rawBlocks with
  | list items =>
      rw [normalizeBlocks_list, map_eq_pure_bind] at h
      obtain ⟨built, hbuilt, h⟩ := bind_eq_ok.mp h
      cases h
      intro b hb
      apply forall_of_mapM_eq_ok (fun _ _ => normal_of_normalizeBlock) hbuilt
      apply (Keyed.firstWins_sublist Block.index [] built).subset
      apply (Keyed.mem_sortBy Block.index).mp hb
  | _ => simp [normalizeBlocks, invalid] at h

/-- The resources that are accepted are in normal form. -/
theorem normal_of_normalizeResource {rawResource : Json} {r : Resource}
    (h : normalizeResource rawResource = .ok r) :
  r.Normal
  := by
  use normalizeResource_spec h
  all_goals obtain ⟨items, rawBlocks, rfl, hr⟩ := exists_of_normalizeResource h
  · intro b hb
    exact (normal_of_normalizeBlocks hr.blocks b hb).hash_trimmed
  · intro s hs
    rw [hr.contentType] at hs
    exact of_decide_eq_true (Option.mem_filter_iff.mp hs).2
  · intro s hs
    rw [hr.contentType] at hs
    apply trimmed_of_asOptionalString (Option.mem_filter_iff.mp hs).1

/-- The fields of a resource as it is shown. -/
structure ResourceItems (r : Resource) (items : List (Str × Json)) : Prop where
  fileHash : Json.get items "file_hash" = .str r.fileHash
  fileName : Json.get items "file_name" = .str r.fileName
  blocks : Json.get items "blocks" = .list (r.blocks.map blockJson)
  blockIndexes : Json.get items "block_indexes" = .null
  fileSize : Json.get items "file_size" = optionalJson r.fileSize
  blockSize : Json.get items "block_size" = optionalJson r.blockSize
  contentType : Json.get items "content_type" = ofOptional r.contentType

omit [UnicodeData] in
theorem resourceJson_spec (r : Resource) :
  ∃ items, resourceJson r = .dict items ∧ ResourceItems r items
  := by
  refine ⟨_, rfl, ?_⟩
  constructor <;> cases r.fileSize <;> cases r.blockSize <;> cases r.contentType <;>
    simp [ofOptional, optionalJson]

/-- A resource in normal form is normalised to itself if it has blocks. If it has none, its list of
blocks is taken to be missing. -/
theorem normalizeResource_resourceJson {r : Resource} (h : r.Normal) :
  normalizeResource (resourceJson r)
    = if r.blocks = [] then invalid "each resource must include blocks" else .ok r
  := by
  obtain ⟨items, hitems, hr⟩ := resourceJson_spec r
  have hhash := asNonEmptyString_of_trimmed h.fileHash_ne_nil h.fileHash_trimmed "file_hash"
  have hname := asNonEmptyString_of_trimmed h.fileName_ne_nil h.fileName_trimmed "file_name"
  have hgiven : (Json.str r.fileName).or (Json.get items "filename") = .str r.fileName := by
    simp [Json.or, Json.truthy, h.fileName_ne_nil]
  simp only [hitems, normalizeResource, hr.fileHash, hhash, hr.fileName, hgiven, hname, hr.blocks,
    hr.blockIndexes]
  by_cases hblocks : r.blocks = []
  · rw [if_pos hblocks, hblocks]
    rfl
  · have hlisted : (Json.list (r.blocks.map blockJson)).or .null = .list (r.blocks.map blockJson) := by
      simp [Json.or, Json.truthy, hblocks]
    have hnormal : ∀ b ∈ r.blocks, b.Normal := fun b hb =>
      ⟨h.blocks_valid b hb, h.hashes_trimmed b hb⟩
    have htype : asOptionalString (ofOptional r.contentType) = r.contentType :=
      asOptionalString_ofOptional fun s hs => ⟨h.contentType_ne_nil s hs, h.contentType_trimmed s hs⟩
    simp only [if_neg hblocks, hlisted, normalizeBlocks_map_blockJson hnormal h.blocks_increasing,
      optionalInt_of_get hr.fileSize h.fileSize_nonneg,
      optionalInt_of_get hr.blockSize h.blockSize_nonneg, hr.contentType, htype,
      filter_ne_nil h.contentType_ne_nil]
    rfl

end UnicodeData

end Tracker
