import ResourceDistribution.Data.Fallible
import ResourceDistribution.Data.Keyed
import ResourceDistribution.Python.Json

/-!
# Normalising a payload

The functions of `registry.py` that turn an untyped payload into the blocks and resources the
registry stores: `_as_non_empty_string`, `_as_optional_string`, `_as_int`, `_normalize_blocks`
and `_normalize_resource`. Each is followed by what an accepted value satisfies.
-/

open Python Fallible

namespace Tracker

/-- `TrackerValidationError(message)`, raised. -/
def invalid {α : Type} (message : String) : Except Exc α :=
  .error (.trackerValidationError message)

/-! ### Fields -/

/-- `_as_non_empty_string(value, field_name)`. -/
def asNonEmptyString (value : Json) (fieldName : String) : Except Exc Str :=
  match value with
  | .str s =>
      if s.strip = [] then invalid s!"{fieldName} must be a non-empty string"
      else .ok s.strip
  | _ => invalid s!"{fieldName} must be a non-empty string"

theorem asNonEmptyString_eq_ok_iff {value : Json} {fieldName : String} {s : Str} :
  asNonEmptyString value fieldName = .ok s ↔ ∃ t, value = .str t ∧ t.strip ≠ [] ∧ s = t.strip
  := by
  cases value with
  | str t =>
      rw [asNonEmptyString]
      split
      · rename_i h
        simp [invalid, h]
      · rename_i h
        constructor
        · intro hs
          injection hs with hs
          exact ⟨t, rfl, h, hs.symm⟩
        · rintro ⟨t', ht, -, rfl⟩
          injection ht with ht
          rw [ht]
  | _ => simp [asNonEmptyString, invalid]

/-- An accepted string is not empty and has no white space at its ends. -/
theorem asNonEmptyString_spec {value : Json} {fieldName : String} {s : Str}
    (h : asNonEmptyString value fieldName = .ok s) :
  s ≠ [] ∧ s.Trimmed
  := by
  obtain ⟨t, -, hne, rfl⟩ := asNonEmptyString_eq_ok_iff.mp h
  use hne
  apply Str.trimmed_strip

/-- A string without white space at its ends is accepted as it is. -/
theorem asNonEmptyString_of_trimmed {s : Str} (hne : s ≠ []) (hs : s.Trimmed)
    (fieldName : String) :
  asNonEmptyString (.str s) fieldName = .ok s
  := by
  apply asNonEmptyString_eq_ok_iff.mpr
  use s
  rw [Str.strip_eq_self_iff.mpr hs]
  exact ⟨rfl, hne, rfl⟩

section UnicodeData

variable [UnicodeData]

/-- `_as_optional_string(value)`. -/
def asOptionalString (value : Json) : Option Str :=
  match value with
  | .null => none
  | .str s => if s.strip = [] then none else some s.strip
  | v => some v.toStr

/-- `_as_int(value, field_name, minimum)`. -/
def asInt (value : Json) (fieldName : String) (minimum : Option ℤ) : Except Exc ℤ :=
  match value with
  | .bool _ => invalid s!"{fieldName} must be an integer"
  | v =>
      match v.toInt with
      | .error .typeError | .error .valueError => invalid s!"{fieldName} must be an integer"
      | .error e => .error e
      | .ok number =>
          match minimum with
          | some m =>
              if number < m then invalid s!"{fieldName} must be >= {m}" else .ok number
          | none => .ok number

/-- An accepted integer is at least the minimum. -/
theorem le_of_asInt_eq_ok {value : Json} {fieldName : String} {m n : ℤ}
    (h : asInt value fieldName (some m) = .ok n) :
  m ≤ n
  := by
  cases value with
  | bool b => simp [asInt, invalid] at h
  | _ =>
      simp only [asInt] at h
      split at h
      · simp [invalid] at h
      · simp [invalid] at h
      · simp at h
      · split at h
        · simp [invalid] at h
        · injection h
          omega

/-- An `int` that is not below the minimum is accepted as it is. -/
theorem asInt_int {m n : ℤ} (h : m ≤ n) (fieldName : String) :
  asInt (.int n) fieldName (some m) = .ok n
  := by
  simp only [asInt, Json.toInt]
  rw [if_neg (not_lt.mpr h)]

/-! ### Blocks -/

/-- A block of a stored resource. A bare index is stored without hash and size. -/
structure Block where
  index : ℤ
  hash : Option Str
  size : Option ℤ
  deriving DecidableEq

/-- The optional integer field `name` of a `dict`. -/
def optionalInt (items : List (Str × Json)) (name fieldName : String) :
    Except Exc (Option ℤ) :=
  if (Json.get items name).isNull then .ok none
  else some <$> asInt (Json.get items name) fieldName (some 0)

/-- The block built from one entry of `raw_blocks`. -/
def normalizeBlock (rawBlock : Json) : Except Exc Block :=
  match rawBlock with
  | .dict items => do
      let index ← asInt (Json.get items "index") "block.index" (some 0)
      let blockHash := asOptionalString (Json.get items "hash")
      let size ← optionalInt items "size" "block.size"
      return ⟨index, blockHash.filter (· ≠ []), size⟩
  | v => do
      let index ← asInt v "block index" (some 0)
      return ⟨index, none, none⟩

/-- One round of the loop over `raw_blocks`, on the indexes seen and the blocks kept. -/
def normalizeBlocksStep (acc : List ℤ × List Block) (rawBlock : Json) :
    Except Exc (List ℤ × List Block) := do
  let block ← normalizeBlock rawBlock
  if block.index ∈ acc.1 then return acc
  else return (block.index :: acc.1, acc.2 ++ [block])

/-- `_normalize_blocks(raw_blocks)`. -/
def normalizeBlocks (rawBlocks : Json) : Except Exc (List Block) :=
  match rawBlocks with
  | .null => invalid "each resource must include blocks"
  | .list items => do
      let (_, blocks) ← items.foldlM normalizeBlocksStep ([], [])
      return Keyed.sortBy Block.index blocks
  | _ => invalid "blocks must be a list"

/-- A stored block has a non-negative index, a non-empty hash if any and a non-negative size if
any. -/
structure Block.Valid (b : Block) : Prop where
  index_nonneg : 0 ≤ b.index
  hash_ne_nil : ∀ h ∈ b.hash, h ≠ []
  size_nonneg : ∀ n ∈ b.size, 0 ≤ n

/-- An accepted optional integer is non-negative. -/
theorem optionalInt_spec {items : List (Str × Json)} {name fieldName : String} {r : Option ℤ}
    (h : optionalInt items name fieldName = .ok r) :
  ∀ n ∈ r, 0 ≤ n
  := by
  rw [optionalInt] at h
  split at h
  · injection h with h
    simp [← h]
  · cases hi : asInt (Json.get items name) fieldName (some 0) with
    | error e => simp [hi, Functor.map, Except.map] at h
    | ok n =>
        simp only [hi, Functor.map, Except.map, Except.ok.injEq] at h
        intro m hm
        rw [← h, Option.mem_some_iff] at hm
        rw [← hm]
        apply le_of_asInt_eq_ok hi

/-- Every block built from an entry is valid. -/
theorem normalizeBlock_spec {rawBlock : Json} {b : Block}
    (h : normalizeBlock rawBlock = .ok b) :
  b.Valid
  := by
  have bare : ∀ v : Json, (do
      let index ← asInt v "block index" (some 0)
      return (⟨index, none, none⟩ : Block) : Except Exc Block) = .ok b → b.Valid := by
    intro v hv
    obtain ⟨index, hindex, hb⟩ := bind_eq_ok.mp hv
    injection hb with hb
    subst hb
    exact ⟨le_of_asInt_eq_ok hindex, by simp, by simp⟩
  cases rawBlock with
  | dict items =>
      obtain ⟨index, hindex, h⟩ := bind_eq_ok.mp h
      obtain ⟨size, hsize, h⟩ := bind_eq_ok.mp h
      injection h with h
      subst h
      constructor
      · apply le_of_asInt_eq_ok hindex
      · intro s hs
        simpa using (Option.mem_filter_iff.mp hs).2
      · apply optionalInt_spec hsize
  | _ => apply bare _ h

/-- The loop over `raw_blocks` builds a block from every entry and keeps, of every index, the
first block with it. -/
theorem foldlM_normalizeBlocksStep (items : List Json) (acc : List ℤ × List Block) :
  Prod.snd <$> items.foldlM normalizeBlocksStep acc
    = (fun built => acc.2 ++ Keyed.firstWins Block.index acc.1 built)
        <$> items.mapM normalizeBlock
  := by
  induction items generalizing acc with
  | nil => simp [Keyed.firstWins]
  | cons v items ih =>
      rw [List.foldlM_cons, List.mapM_cons, normalizeBlocksStep]
      cases hb : normalizeBlock v with
      | error e => rfl
      | ok b =>
          change Prod.snd <$> ((if b.index ∈ acc.1 then _ else _ : Except Exc _) >>= _)
            = _ <$> (items.mapM normalizeBlock >>= fun built => pure (b :: built))
          rw [← map_eq_pure_bind, ← comp_map]
          by_cases hseen : b.index ∈ acc.1
          · rw [if_pos hseen, pure_bind, ih]
            simp [Function.comp_def, Keyed.firstWins, hseen]
          · rw [if_neg hseen, pure_bind, ih]
            simp [Function.comp_def, Keyed.firstWins, hseen]

/-- On a list, `normalizeBlocks` builds a block from every entry, keeps of every index the first
one and sorts by index. -/
theorem normalizeBlocks_list (items : List Json) :
  normalizeBlocks (.list items)
    = (fun built => Keyed.sortBy Block.index (Keyed.firstWins Block.index [] built))
        <$> items.mapM normalizeBlock
  := by
  have h := congrArg (Keyed.sortBy Block.index <$> ·) (foldlM_normalizeBlocksStep items ([], []))
  simp only [List.nil_append, ← comp_map] at h
  rw [normalizeBlocks, ← Function.comp_def (Keyed.sortBy Block.index), ← h]
  cases items.foldlM normalizeBlocksStep ([], []) <;> rfl

/-- Accepted blocks are valid and strictly increasing in index. -/
theorem normalizeBlocks_spec {rawBlocks : Json} {blocks : List Block}
    (h : normalizeBlocks rawBlocks = .ok blocks) :
  (∀ b ∈ blocks, b.Valid) ∧ blocks.Pairwise (fun a b => a.index < b.index)
  := by
  cases rawBlocks with
  | list items =>
      rw [normalizeBlocks_list] at h
      cases hbuilt : items.mapM normalizeBlock with
      | error e => simp [hbuilt, Functor.map, Except.map] at h
      | ok built =>
          simp only [hbuilt, Functor.map, Except.map, Except.ok.injEq] at h
          subst h
          constructor
          · intro b hb
            apply forall_of_mapM_eq_ok (fun _ _ => normalizeBlock_spec) hbuilt
            apply (Keyed.firstWins_sublist Block.index [] built).subset
            apply (Keyed.mem_sortBy Block.index).mp hb
          · apply Keyed.pairwise_lt_sortBy
            apply Keyed.pairwise_firstWins
  | _ => simp [normalizeBlocks, invalid] at h

/-! ### Resources -/

/-- A stored resource. -/
structure Resource where
  fileHash : Str
  fileName : Str
  blocks : List Block
  fileSize : Option ℤ
  blockSize : Option ℤ
  contentType : Option Str
  deriving DecidableEq

/-- `_normalize_resource(raw_resource)`. -/
def normalizeResource (rawResource : Json) : Except Exc Resource :=
  match rawResource with
  | .dict items => do
      let fileHash ← asNonEmptyString (Json.get items "file_hash") "file_hash"
      let fileName ← asNonEmptyString
        ((Json.get items "file_name").or (Json.get items "filename")) "file_name"
      let blocks ← normalizeBlocks
        ((Json.get items "blocks").or (Json.get items "block_indexes"))
      let fileSize ← optionalInt items "file_size" "file_size"
      let blockSize ← optionalInt items "block_size" "block_size"
      let contentType := asOptionalString (Json.get items "content_type")
      return ⟨fileHash, fileName, blocks, fileSize, blockSize, contentType.filter (· ≠ [])⟩
  | _ => invalid "each resource must be an object"

/-- A stored resource has a hash and a name, both without white space at their ends, valid blocks
strictly increasing in index, and non-negative sizes if any. -/
structure Resource.Valid (r : Resource) : Prop where
  fileHash_ne_nil : r.fileHash ≠ []
  fileHash_trimmed : r.fileHash.Trimmed
  fileName_ne_nil : r.fileName ≠ []
  fileName_trimmed : r.fileName.Trimmed
  blocks_valid : ∀ b ∈ r.blocks, b.Valid
  blocks_increasing : r.blocks.Pairwise (fun a b => a.index < b.index)
  fileSize_nonneg : ∀ n ∈ r.fileSize, 0 ≤ n
  blockSize_nonneg : ∀ n ∈ r.blockSize, 0 ≤ n

/-- What is made of the fields of an accepted resource. -/
structure NormalizedFrom (items : List (Str × Json)) (rawBlocks : List Json) (r : Resource) :
    Prop where
  fileHash : asNonEmptyString (Json.get items "file_hash") "file_hash" = .ok r.fileHash
  fileName : asNonEmptyString ((Json.get items "file_name").or (Json.get items "filename"))
    "file_name" = .ok r.fileName
  given : (Json.get items "blocks").or (Json.get items "block_indexes") = .list rawBlocks
  blocks : normalizeBlocks (.list rawBlocks) = .ok r.blocks
  fileSize : optionalInt items "file_size" "file_size" = .ok r.fileSize
  blockSize : optionalInt items "block_size" "block_size" = .ok r.blockSize
  contentType : r.contentType
    = (asOptionalString (Json.get items "content_type")).filter (· ≠ [])

/-- An accepted resource is an object that gives a list of blocks. -/
theorem exists_of_normalizeResource {rawResource : Json} {r : Resource}
    (h : normalizeResource rawResource = .ok r) :
  ∃ items rawBlocks, rawResource = .dict items ∧ NormalizedFrom items rawBlocks r
  := by
  cases rawResource with
  | dict items =>
      obtain ⟨fileHash, hhash, h⟩ := bind_eq_ok.mp h
      obtain ⟨fileName, hname, h⟩ := bind_eq_ok.mp h
      obtain ⟨blocks, hblocks, h⟩ := bind_eq_ok.mp h
      obtain ⟨fileSize, hfile, h⟩ := bind_eq_ok.mp h
      obtain ⟨blockSize, hblock, h⟩ := bind_eq_ok.mp h
      cases h
      cases hgiven : (Json.get items "blocks").or (Json.get items "block_indexes") with
      | list rawBlocks =>
          rw [hgiven] at hblocks
          exact ⟨items, rawBlocks, rfl, hhash, hname, hgiven, hblocks, hfile, hblock, rfl⟩
      | _ => simp [hgiven, normalizeBlocks, invalid] at hblocks
  | _ => simp [normalizeResource, invalid] at h

/-- Every accepted resource is valid. -/
theorem normalizeResource_spec {rawResource : Json} {r : Resource}
    (h : normalizeResource rawResource = .ok r) :
  r.Valid
  := by
  obtain ⟨items, rawBlocks, rfl, hr⟩ := exists_of_normalizeResource h
  exact {
    fileHash_ne_nil := (asNonEmptyString_spec hr.fileHash).1
    fileHash_trimmed := (asNonEmptyString_spec hr.fileHash).2
    fileName_ne_nil := (asNonEmptyString_spec hr.fileName).1
    fileName_trimmed := (asNonEmptyString_spec hr.fileName).2
    blocks_valid := (normalizeBlocks_spec hr.blocks).1
    blocks_increasing := (normalizeBlocks_spec hr.blocks).2
    fileSize_nonneg := optionalInt_spec hr.fileSize
    blockSize_nonneg := optionalInt_spec hr.blockSize }

end UnicodeData

end Tracker
