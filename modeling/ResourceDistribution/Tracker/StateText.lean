import ResourceDistribution.Python.ReadBack
import ResourceDistribution.Tracker.Isolation
import ResourceDistribution.Tracker.NormalForm

/-!
# The text of the state file

`_save_state` writes the map of nodes as JSON with sorted keys, and `_load_state` reads it. A map whose
numbers, times and metadata are such as can be read (`Nodes.Stored`) is read as it was written, up to
the order of dictionaries (`loadState_stateText`).
-/

open Python Json

namespace Tracker

/-! ### Sorted keys -/

/-- The order in which the keys of a dictionary are written. -/
def sortFields (items : List (Str × Json)) : List (Str × Json) :=
  Keyed.sortBy (fun i => i.1.codes) items

theorem sortKeysItems_eq_map (items : List Json) :
  sortKeysItems items = items.map sortKeys
  := by
  induction items with
  | nil => rfl
  | cons v rest ih => rw [sortKeysItems, ih, List.map_cons]

theorem sortKeysFields_eq_map (items : List (Str × Json)) :
  sortKeysFields items = items.map fun i => (i.1, sortKeys i.2)
  := by
  induction items with
  | nil => rfl
  | cons i rest ih =>
      obtain ⟨k, v⟩ := i
      rw [sortKeysFields, ih, List.map_cons]

theorem sortKeys_dict (items : List (Str × Json)) :
  sortKeys (.dict items) = .dict (sortFields (sortKeysFields items))
  := by
  rw [sortKeys, sortFields]

theorem sortKeys_list (items : List Json) :
  sortKeys (.list items) = .list (items.map sortKeys)
  := by
  rw [sortKeys, sortKeysItems_eq_map]

/-- Sorting by key does not see values. -/
theorem sortFields_map {α : Type} (f : α → Str × Json) (items : List α) :
  sortFields (items.map f) = (Keyed.sortBy (fun a => (f a).1.codes) items).map f
  := by
  symm
  apply List.map_insertionSort
  intro a _ b _
  exact Iff.rfl

theorem sortFields_sortFields (items : List (Str × Json)) :
  sortFields (sortFields items) = sortFields items
  := by
  rw [sortFields, sortFields]
  apply Keyed.sortBy_eq_self
  apply Keyed.pairwise_sortBy

/-- The keys of sorted items are the same. -/
theorem map_fst_sortFields_perm (items : List (Str × Json)) :
  ((sortFields (sortKeysFields items)).map Prod.fst).Perm (items.map Prod.fst)
  := by
  have hperm : (sortFields (sortKeysFields items)).Perm (sortKeysFields items) :=
    Keyed.sortBy_perm _ _
  apply (hperm.map Prod.fst).trans
  rw [sortKeysFields_eq_map, List.map_map]
  rfl

mutual

/-- What is sorted stays as it is. -/
theorem sortKeys_sortKeys (v : Json) :
  sortKeys (sortKeys v) = sortKeys v
  := by
  cases v with
  | list items => rw [sortKeys, sortKeys, sortKeysItems_sortKeysItems items]
  | dict items =>
      rw [sortKeys_dict, sortKeys_dict]
      have hmap : sortKeysFields (sortFields (sortKeysFields items))
          = sortFields (sortKeysFields (sortKeysFields items)) := by
        rw [sortKeysFields_eq_map, sortKeysFields_eq_map (sortKeysFields items), sortFields_map]
        rfl
      rw [hmap, sortKeysFields_sortKeysFields items, sortFields_sortFields]
  | _ => simp [sortKeys]

theorem sortKeysItems_sortKeysItems (items : List Json) :
  sortKeysItems (sortKeysItems items) = sortKeysItems items
  := by
  cases items with
  | nil => rfl
  | cons v rest =>
      rw [sortKeysItems, sortKeysItems, sortKeys_sortKeys v, sortKeysItems_sortKeysItems rest]

theorem sortKeysFields_sortKeysFields (items : List (Str × Json)) :
  sortKeysFields (sortKeysFields items) = sortKeysFields items
  := by
  cases items with
  | nil => rfl
  | cons i rest =>
      obtain ⟨k, v⟩ := i
      rw [sortKeysFields, sortKeysFields, sortKeys_sortKeys v, sortKeysFields_sortKeysFields rest]

end

mutual

/-- Sorting keys makes of a value that can be read another one. -/
theorem loaded_sortKeys (v : Json) (hv : Loaded v) :
  Loaded (sortKeys v)
  := by
  cases v with
  | list items =>
      rw [sortKeys]
      apply loadedItems_sortKeysItems items hv
  | dict items =>
      rw [sortKeys_dict]
      constructor
      · have hloaded := loadedFields_sortKeysFields items hv.1
        rw [loadedFields_iff] at hloaded ⊢
        intro i hi
        apply hloaded i ((Keyed.mem_sortBy _).mp hi)
      · apply (map_fst_sortFields_perm items).nodup_iff.mpr hv.2
  | _ => simpa [sortKeys] using hv

theorem loadedItems_sortKeysItems (items : List Json) (hitems : LoadedItems items) :
  LoadedItems (sortKeysItems items)
  := by
  cases items with
  | nil => trivial
  | cons v rest =>
      exact ⟨loaded_sortKeys v hitems.1, loadedItems_sortKeysItems rest hitems.2⟩

theorem loadedFields_sortKeysFields (items : List (Str × Json)) (hitems : LoadedFields items) :
  LoadedFields (sortKeysFields items)
  := by
  cases items with
  | nil => trivial
  | cons i rest =>
      obtain ⟨k, v⟩ := i
      exact ⟨loaded_sortKeys v hitems.1, loadedFields_sortKeysFields rest hitems.2⟩

end

/-- A field is found whatever the order of the fields. -/
theorem lookup_sortFields {items : List (Str × Json)} (h : (items.map Prod.fst).Nodup) (k : Str) :
  (sortFields (sortKeysFields items)).lookup k = (items.lookup k).map sortKeys
  := by
  apply Option.ext
  intro v
  rw [Dict.lookup_eq_some_iff ((map_fst_sortFields_perm items).nodup_iff.mpr h),
    Option.map_eq_some_iff]
  simp only [Dict.lookup_eq_some_iff h]
  rw [sortFields, Keyed.mem_sortBy, sortKeysFields_eq_map, List.mem_map]
  constructor
  · rintro ⟨i, hi, heq⟩
    obtain ⟨rfl, rfl⟩ := Prod.mk.inj heq
    exact ⟨i.2, hi, rfl⟩
  · rintro ⟨w, hw, rfl⟩
    exact ⟨_, hw, rfl⟩

theorem get_sortFields {items : List (Str × Json)} (h : (items.map Prod.fst).Nodup)
    (name : String) :
  Json.get (sortFields (sortKeysFields items)) name = sortKeys (Json.get items name)
  := by
  rw [Json.get, Json.get, lookup_sortFields h]
  cases items.lookup (Str.ofString name) with
  | none => simp [sortKeys]
  | some v => rfl

theorem getD_sortFields {items : List (Str × Json)} (h : (items.map Prod.fst).Nodup)
    (name : String) :
  Json.getD (sortFields (sortKeysFields items)) name (.dict [])
    = sortKeys (Json.getD items name (.dict []))
  := by
  rw [Json.getD, Json.getD, lookup_sortFields h]
  cases items.lookup (Str.ofString name) with
  | none =>
      rw [Option.map_none, Option.getD_none, sortKeys]
      rfl
  | some v => rfl

/-! ### Times -/

/-- The reading of the clock that a float is, if it is one. -/
def timeOfFloat (x : Double) : Option Time :=
  let e := x.exponent + 22
  let m := x.mantissa * 2 ^ e.toNat
  let d := 2 ^ (-e).toNat
  if x.isNan ∨ x.isInf ∨ m % d ≠ 0 then none
  else some (if x.negative then -((m / d : ℕ) : ℤ) else (m / d : ℕ))

/-- A reading that is a float. -/
def InRange (t : Time) : Prop := t.natAbs < 2 ^ 53

/-- A number that is shifted until it has 53 bits. -/
theorem shift_bounds {n : ℕ} (hn : n ≠ 0) (hk : Nat.log2 n ≤ 52) :
  2 ^ 52 ≤ n * 2 ^ (52 - Nat.log2 n) ∧ n * 2 ^ (52 - Nat.log2 n) < 2 ^ 53 ∧
    n * 2 ^ 52 / 2 ^ Nat.log2 n = n * 2 ^ (52 - Nat.log2 n)
  := by
  have hlow : 2 ^ Nat.log2 n ≤ n := Nat.log2_self_le hn
  have hhigh : n < 2 ^ (Nat.log2 n + 1) := Nat.lt_log2_self
  generalize Nat.log2 n = k at hk hlow hhigh ⊢
  refine ⟨?_, ?_, ?_⟩
  · calc
      2 ^ 52 = 2 ^ k * 2 ^ (52 - k) := by
        rw [← pow_add]
        congr 1
        omega
      _ ≤ n * 2 ^ (52 - k) := Nat.mul_le_mul_right _ hlow
  · calc
      n * 2 ^ (52 - k) < 2 ^ (k + 1) * 2 ^ (52 - k) :=
        Nat.mul_lt_mul_of_pos_right hhigh (by positivity)
      _ = 2 ^ 53 := by
        rw [← pow_add]
        congr 1
        omega
  · rw [show 52 = k + (52 - k) by omega, pow_add, mul_left_comm, Nat.add_sub_cancel_left]
    apply Nat.mul_div_cancel_left _ (by positivity)

/-- The bits of the float of a reading: its sign, its exponent and the bits below the first. -/
theorem toNat_bits_epochFloat {t : Time} (hne : t ≠ 0) (hk : Nat.log2 t.natAbs ≤ 52) {f : ℕ}
    (hf : t.natAbs * 2 ^ (52 - Nat.log2 t.natAbs) = 2 ^ 52 + f) (hlt : f < 2 ^ 52) :
  (epochFloat t).bits.toNat
    = (if t < 0 then 2 ^ 63 else 0) + ((Nat.log2 t.natAbs + 1001) * 2 ^ 52 + f)
  := by
  have hn : t.natAbs ≠ 0 := Int.natAbs_ne_zero.mpr hne
  have hfloat : epochFloat t = ⟨BitVec.ofNat 64 ((if t < 0 then 2 ^ 63 else 0)
      + (Nat.log2 t.natAbs + 1001) * 2 ^ 52
      + (t.natAbs * 2 ^ 52 / 2 ^ Nat.log2 t.natAbs - 2 ^ 52))⟩ := by
    rw [epochFloat]
    simp only [if_neg hn]
  rw [hfloat, (shift_bounds hn hk).2.2, hf, Nat.add_sub_cancel_left, BitVec.toNat_ofNat,
    Nat.mod_eq_of_lt, add_assoc]
  split
  · omega
  · omega

/-- The parts of the float of a reading. -/
theorem epochFloat_spec {t : Time} (hrange : InRange t) (hne : t ≠ 0) :
  let k := Nat.log2 t.natAbs
  k ≤ 52 ∧ (epochFloat t).negative = decide (t < 0) ∧ (epochFloat t).exponentBits = k + 1001 ∧
    2 ^ 52 + (epochFloat t).fraction = t.natAbs * 2 ^ (52 - k)
  := by
  intro k
  have hn : t.natAbs ≠ 0 := Int.natAbs_ne_zero.mpr hne
  have hk : k ≤ 52 := by
    have hlt : k < 53 := (Nat.log2_lt hn).mpr hrange
    omega
  obtain ⟨hle, hlt, -⟩ := shift_bounds hn hk
  obtain ⟨f, hf⟩ := Nat.exists_eq_add_of_le hle
  have hf' : f < 2 ^ 52 := by omega
  have hbits := toNat_bits_epochFloat hne hk hf hf'
  refine ⟨hk, ?_, ?_, ?_⟩
  · rw [Double.negative, hbits]
    split
    · rename_i hneg
      simp only [hneg, decide_true, decide_eq_true_eq]
      omega
    · rename_i hneg
      simp only [hneg, decide_false, decide_eq_false_iff_not]
      omega
  · rw [Double.exponentBits, hbits]
    split
    · omega
    · omega
  · rw [hf, Double.fraction, hbits]
    split
    · omega
    · omega

theorem natAbs_sign (n : ℤ) :
  (if n < 0 then -(n.natAbs : ℤ) else n.natAbs) = n
  := by
  split
  · omega
  · omega

/-- The float of a reading is a number. -/
theorem loaded_epochFloat {t : Time} (hrange : InRange t) :
  Loaded (.float (epochFloat t))
  := by
  intro hnan
  by_cases hne : t = 0
  · subst hne
    cases hnan
  · obtain ⟨hk, -, hexponent, -⟩ := epochFloat_spec hrange hne
    generalize Nat.log2 t.natAbs = k at hk hexponent
    rw [Double.isNan, hexponent, decide_eq_true_eq] at hnan
    omega

/-- The float of a reading is the reading. -/
theorem timeOfFloat_epochFloat {t : Time} (hrange : InRange t) :
  timeOfFloat (epochFloat t) = some t
  := by
  by_cases hne : t = 0
  · subst hne
    decide +kernel
  · obtain ⟨hk, hnegative, hexponentBits, hfraction⟩ := epochFloat_spec hrange hne
    generalize Nat.log2 t.natAbs = k at hk hexponentBits hfraction
    have hmantissa : (epochFloat t).mantissa = t.natAbs * 2 ^ (52 - k) := by
      rw [Double.mantissa, if_neg (by omega), hfraction]
    have hexponent : (epochFloat t).exponent + 22 = (k : ℤ) - 52 := by
      rw [Double.exponent, if_neg (by omega), hexponentBits]
      push_cast
      ring
    have hnan : (epochFloat t).isNan = false := by
      rw [Double.isNan, hexponentBits, decide_eq_false_iff_not]
      omega
    have hinf : (epochFloat t).isInf = false := by
      rw [Double.isInf, hexponentBits, decide_eq_false_iff_not]
      omega
    have hzero : ((k : ℤ) - 52).toNat = 0 := by omega
    have hshift : (-((k : ℤ) - 52)).toNat = 52 - k := by omega
    simp only [timeOfFloat, hexponent, hmantissa, hnegative, hnan, hinf, hzero, hshift, pow_zero,
      mul_one, Nat.mul_mod_left, Nat.mul_div_cancel _ (Nat.two_pow_pos (52 - k)), ne_eq,
      not_true_eq_false, Bool.false_eq_true, or_self, if_false, decide_eq_true_eq, Option.some.injEq]
    apply natAbs_sign

/-! ### Reading records -/

/-- A string. -/
def asStr : Json → Option Str
  | .str s => some s
  | _ => none

/-- An integer. -/
def asInteger : Json → Option ℤ
  | .int n => some n
  | _ => none

/-- A reading of the clock. -/
def asTime : Json → Option Time
  | .float x => timeOfFloat x
  | _ => none

/-- A dictionary, as its items. -/
def asFields : Json → Option (List (Str × Json))
  | .dict items => some items
  | _ => none

/-- The items of a list, each read. -/
def asList {α : Type} (read : Json → Option α) : Json → Option (List α)
  | .list items => items.mapM read
  | _ => none

/-- What may be missing. -/
def asOptional {α : Type} (read : Json → Option α) (v : Json) : Option (Option α) :=
  if v.isNull then some none else (read v).map some

/-- A block of a resource that was read. -/
def blockOfJson (v : Json) : Option Block := do
  let items ← asFields v
  let index ← asInteger (Json.get items "index")
  let hash ← asOptional asStr (Json.get items "hash")
  let size ← asOptional asInteger (Json.get items "size")
  return { index, hash, size }

/-- A resource of a record that was read. -/
def resourceOfJson (v : Json) : Option Resource := do
  let items ← asFields v
  let fileHash ← asStr (Json.get items "file_hash")
  let fileName ← asStr (Json.get items "file_name")
  let blocks ← asList blockOfJson (Json.get items "blocks")
  let fileSize ← asOptional asInteger (Json.get items "file_size")
  let blockSize ← asOptional asInteger (Json.get items "block_size")
  let contentType ← asOptional asStr (Json.get items "content_type")
  return { fileHash, fileName, blocks, fileSize, blockSize, contentType }

/-- A record that was read. -/
def recordOfJson (v : Json) : Option Record := do
  let items ← asFields v
  let nodeId ← asStr (Json.get items "node_id")
  let host ← asStr (Json.get items "host")
  let port ← asInteger (Json.get items "port")
  let lastSeen ← asStr (Json.get items "last_seen")
  let lastSeenEpoch ← asTime (Json.get items "last_seen_epoch")
  let expiresAt ← asStr (Json.get items "expires_at")
  let expiresAtEpoch ← asTime (Json.get items "expires_at_epoch")
  let resources ← asList resourceOfJson (Json.get items "resources")
  let metadata ← asFields (Json.get items "metadata")
  return { nodeId, host, port, lastSeen, lastSeenEpoch, expiresAt, expiresAtEpoch, resources, metadata }

/-- The map of the records that were read. -/
def nodesOfFields (items : List (Str × Json)) : Option Nodes :=
  (items.mapM fun i => (recordOfJson i.2).map fun record => (i.1, record)).map fun records =>
    records.foldl (fun nodes i => nodes.set i.1 i.2) Dict.empty

/-- `_load_state()` on the text of the state file, before it cleans up. There is no map if it raises,
and if a record is not one that the registry writes. -/
def loadState [RecursionLimit] (text : String) : Option Nodes := do
  let state ← asFields (← (loads text).toOption)
  match Json.getD state "nodes" (.dict []) with
  | .dict items => nodesOfFields items
  | _ => some Dict.empty

/-- The text that `_save_state()` writes at `now`, if it does not raise. -/
def stateText [RecursionLimit] (nodeTtlSeconds : ℤ) (nodes : Nodes) (now : Time) :
    Except Exc String :=
  dumps (sortKeys (stateJson nodeTtlSeconds nodes now)) >>= encode

/-! ### Values that are written -/

/-- The numbers of a block can be read. -/
structure Block.Stored (block : Block) : Prop where
  index : Readable block.index
  size : ∀ n ∈ block.size, Readable n

/-- The numbers of a resource can be read. -/
structure Resource.Stored (resource : Resource) : Prop where
  blocks : ∀ block ∈ resource.blocks, block.Stored
  fileSize : ∀ n ∈ resource.fileSize, Readable n
  blockSize : ∀ n ∈ resource.blockSize, Readable n

/-- The numbers, the times and the metadata of a record can be read. -/
structure Record.Stored (record : Record) : Prop where
  port : Readable record.port
  lastSeenEpoch : InRange record.lastSeenEpoch
  expiresAtEpoch : InRange record.expiresAtEpoch
  resources : ∀ resource ∈ record.resources, resource.Stored
  metadata : Loaded (.dict record.metadata)

/-- Every stored record can be read. -/
def Nodes.Stored (nodes : Nodes) : Prop := ∀ k record, nodes.get? k = some record → record.Stored

theorem loaded_list {α : Type} {f : α → Json} {l : List α} (h : ∀ a ∈ l, Loaded (f a)) :
  Loaded (.list (l.map f))
  := by
  rw [Loaded, loadedItems_iff]
  exact List.forall_mem_map.mpr h

theorem loaded_blockJson {block : Block} (h : block.Stored) :
  Loaded (blockJson block)
  := by
  constructor
  · rw [loadedFields_iff]
    simp only [List.cons_append, List.forall_mem_cons, List.forall_mem_append, List.forall_mem_map,
      Option.mem_toList]
    exact ⟨h.index, fun _ _ => trivial, h.size⟩
  · cases block.hash <;> cases block.size <;> simp

theorem loaded_resourceJson {resource : Resource} (h : resource.Stored) :
  Loaded (resourceJson resource)
  := by
  have hblocks := loaded_list fun block hblock => loaded_blockJson (h.blocks block hblock)
  constructor
  · rw [loadedFields_iff]
    simp only [List.forall_mem_append, List.forall_mem_cons, List.forall_mem_map, Option.mem_toList]
    exact ⟨⟨⟨⟨trivial, trivial, hblocks, List.forall_mem_nil _⟩, h.fileSize⟩, h.blockSize⟩,
      fun _ _ => trivial⟩
  · cases resource.fileSize <;> cases resource.blockSize <;> cases resource.contentType <;> simp

theorem loaded_recordJson {record : Record} (h : record.Stored) :
  Loaded (recordJson record)
  := by
  have hresources := loaded_list fun resource hresource =>
    loaded_resourceJson (h.resources resource hresource)
  have hlastSeen := loaded_epochFloat h.lastSeenEpoch
  have hexpiresAt := loaded_epochFloat h.expiresAtEpoch
  have hport := h.port
  have hmetadata := h.metadata
  constructor
  · exact ⟨trivial, trivial, hport, trivial, hlastSeen, trivial, hexpiresAt, hresources, hmetadata,
      trivial⟩
  · simp

/-- The records of a map are written with distinct keys. -/
theorem loaded_nodes {nodes : Nodes} (h : nodes.Stored) :
  Loaded (.dict (nodes.items.map fun i => (i.1, recordJson i.2)))
  := by
  constructor
  · rw [loadedFields_iff, List.forall_mem_map]
    intro i hi
    apply loaded_recordJson (h i.1 i.2 (Dict.get?_eq_some_iff.mpr hi))
  · rw [List.map_map]
    apply nodes.nodup

theorem loaded_stateJson {nodeTtlSeconds : ℤ} (httl : Readable nodeTtlSeconds) {nodes : Nodes}
    (h : nodes.Stored) (now : Time) :
  Loaded (stateJson nodeTtlSeconds nodes now)
  := by
  constructor
  · exact ⟨trivial, httl, loaded_nodes h, trivial⟩
  · simp

/-! ### What is read back -/

theorem mapM_map_eq_some {α β γ : Type} {f : α → γ} {g : α → β} {read : γ → Option β} {l : List α}
    (h : ∀ a ∈ l, read (f a) = some (g a)) :
  (l.map f).mapM read = some (l.map g)
  := by
  induction l with
  | nil => rfl
  | cons a l ih =>
      rw [List.map_cons, List.mapM_cons, h a List.mem_cons_self,
        ih fun b hb => h b (List.mem_cons_of_mem a hb)]
      rfl

/-- A list that is written is read item by item. -/
theorem asList_sortKeys {α : Type} {f : α → Json} {read : Json → Option α} {l : List α}
    (h : ∀ a ∈ l, read (sortKeys (f a)) = some a) :
  asList read (sortKeys (.list (l.map f))) = some l
  := by
  rw [sortKeys_list, List.map_map, asList]
  apply (mapM_map_eq_some h).trans
  rw [List.map_id']

theorem asStr_sortKeys (s : Str) :
  asStr (sortKeys (.str s)) = some s
  := by
  rw [sortKeys, asStr]
  all_goals simp

theorem asInteger_sortKeys (n : ℤ) :
  asInteger (sortKeys (.int n)) = some n
  := by
  rw [sortKeys, asInteger]
  all_goals simp

theorem asTime_sortKeys {t : Time} (ht : InRange t) :
  asTime (sortKeys (.float (epochFloat t))) = some t
  := by
  rw [sortKeys, asTime, timeOfFloat_epochFloat ht]
  all_goals simp

theorem asOptional_asStr (s : Option Str) :
  asOptional asStr (sortKeys (ofOptional s)) = some s
  := by
  cases s with
  | none => simp [ofOptional, sortKeys, asOptional, isNull]
  | some s => simp [ofOptional, sortKeys, asOptional, isNull, asStr]

theorem asOptional_asInteger (n : Option ℤ) :
  asOptional asInteger (sortKeys (optionalJson n)) = some n
  := by
  cases n with
  | none => simp [optionalJson, sortKeys, asOptional, isNull]
  | some n => simp [optionalJson, sortKeys, asOptional, isNull, asInteger]

/-- A dictionary that is written is read field by field. -/
theorem exists_asFields_sortKeys {items : List (Str × Json)} (h : Loaded (.dict items)) :
  ∃ sorted, asFields (sortKeys (.dict items)) = some sorted ∧
    ∀ name, Json.get sorted name = sortKeys (Json.get items name)
  := by
  refine ⟨sortFields (sortKeysFields items), ?_, ?_⟩
  · rw [sortKeys_dict, asFields]
  · intro name
    apply get_sortFields h.2

theorem blockOfJson_sortKeys {block : Block} (h : block.Stored) :
  blockOfJson (sortKeys (blockJson block)) = some block
  := by
  obtain ⟨items, hitems, hindex, hhash, hsize⟩ := blockJson_spec block
  have hloaded := loaded_blockJson h
  rw [hitems] at hloaded ⊢
  obtain ⟨sorted, hsorted, hget⟩ := exists_asFields_sortKeys hloaded
  simp only [blockOfJson, hsorted, hget, hindex, hhash, hsize, asInteger_sortKeys, asOptional_asStr,
    asOptional_asInteger, Option.bind_eq_bind, Option.bind_some]
  rfl

theorem resourceOfJson_sortKeys {resource : Resource} (h : resource.Stored) :
  resourceOfJson (sortKeys (resourceJson resource)) = some resource
  := by
  obtain ⟨items, hitems, hr⟩ := resourceJson_spec resource
  have hloaded := loaded_resourceJson h
  have hblocks := asList_sortKeys (f := blockJson) fun block hblock =>
    blockOfJson_sortKeys (h.blocks block hblock)
  rw [hitems] at hloaded ⊢
  obtain ⟨sorted, hsorted, hget⟩ := exists_asFields_sortKeys hloaded
  simp only [resourceOfJson, hsorted, hget, hr.fileHash, hr.fileName, hr.blocks, hr.fileSize,
    hr.blockSize, hr.contentType, hblocks, asStr_sortKeys, asOptional_asStr, asOptional_asInteger,
    Option.bind_eq_bind, Option.bind_some]
  rfl

/-- A record is read as it was written, with sorted metadata. -/
theorem recordOfJson_sortKeys {record : Record} (h : record.Stored) :
  recordOfJson (sortKeys (recordJson record)) = some record.sortKeys
  := by
  have hloaded := loaded_recordJson h
  have hresources := asList_sortKeys (f := resourceJson) fun resource hresource =>
    resourceOfJson_sortKeys (h.resources resource hresource)
  have hmetadata : asFields (sortKeys (.dict record.metadata))
      = some (sortFields (sortKeysFields record.metadata)) := by rw [sortKeys_dict, asFields]
  obtain ⟨sorted, hsorted, hget⟩ := exists_asFields_sortKeys hloaded
  rw [recordJson]
  simp only [recordOfJson, hsorted, hget, get_cons, String.reduceEq, if_true, if_false,
    asStr_sortKeys, asInteger_sortKeys, asTime_sortKeys h.lastSeenEpoch,
    asTime_sortKeys h.expiresAtEpoch, hresources, hmetadata, Option.bind_eq_bind, Option.bind_some]
  rfl

/-- Setting distinct keys one after another makes a map of their items. -/
theorem items_foldl_set {l : List (Str × Record)} (h : (l.map Prod.fst).Nodup) :
  Dict.items (l.foldl (fun nodes i => nodes.set i.1 i.2) (Dict.empty : Nodes)) = l
  := by
  have hfold : ∀ d : Nodes, ((d.items ++ l).map Prod.fst).Nodup →
      (l.foldl (fun nodes i => nodes.set i.1 i.2) d).items = d.items ++ l := by
    clear h
    induction l with
    | nil => simp
    | cons i l ih =>
        intro d hd
        have hnew : i.1 ∉ d.items.map Prod.fst := by
          rw [List.map_append, List.nodup_append] at hd
          intro hmem
          apply hd.2.2 _ hmem i.1 List.mem_cons_self rfl
        have hset : (d.set i.1 i.2).items = d.items ++ [i] := if_neg hnew
        rw [List.foldl_cons, ih]
        · rw [hset, List.append_assoc, List.singleton_append]
        · rw [hset, List.append_assoc, List.singleton_append]
          exact hd
  apply hfold Dict.empty h

/-- The items of a map in the order in which they are written. -/
def Nodes.sorted (nodes : Nodes) : List (Str × Record) :=
  Keyed.sortBy (fun i => i.1.codes) nodes.items

theorem mem_sorted {nodes : Nodes} {k : Str} {record : Record} :
  (k, record) ∈ nodes.sorted ↔ nodes.get? k = some record
  := by
  rw [Nodes.sorted, Keyed.mem_sortBy, Dict.get?_eq_some_iff]

theorem nodup_sorted (nodes : Nodes) :
  (nodes.sorted.map Prod.fst).Nodup
  := by
  have hperm : (nodes.sorted.map Prod.fst).Perm (nodes.items.map Prod.fst) :=
    (Keyed.sortBy_perm _ nodes.items).map Prod.fst
  apply hperm.nodup_iff.mpr nodes.nodup

/-- The records are written in this order. -/
theorem sortKeys_nodes (nodes : Nodes) :
  sortFields (sortKeysFields (nodes.items.map fun i => (i.1, recordJson i.2)))
    = nodes.sorted.map fun i => (i.1, sortKeys (recordJson i.2))
  := by
  have hmap : sortKeysFields (nodes.items.map fun i => (i.1, recordJson i.2))
      = nodes.items.map fun i => (i.1, sortKeys (recordJson i.2)) := by
    rw [sortKeysFields_eq_map, List.map_map]
    rfl
  rw [hmap, sortFields_map]
  rfl

/-- The records are read in this order, with sorted metadata. -/
theorem nodesOfFields_sorted {nodes : Nodes} (h : nodes.Stored) :
  nodesOfFields (nodes.sorted.map fun i => (i.1, sortKeys (recordJson i.2)))
    = some ((nodes.sorted.map fun i => (i.1, i.2.sortKeys)).foldl
        (fun nodes i => nodes.set i.1 i.2) Dict.empty)
  := by
  have hread : ∀ i ∈ nodes.sorted,
      (recordOfJson (sortKeys (recordJson i.2))).map (fun record => (i.1, record))
        = some (i.1, i.2.sortKeys) := by
    intro i hi
    rw [recordOfJson_sortKeys (h i.1 i.2 (mem_sorted.mp hi)), Option.map_some]
  rw [nodesOfFields]
  erw [mapM_map_eq_some hread]
  rw [Option.map_some]

/-- A map is read as it was written, with sorted metadata. -/
theorem exists_nodesOfFields_eq {nodes : Nodes} (h : nodes.Stored) :
  ∃ nodes', nodesOfFields (sortFields (sortKeysFields
      (nodes.items.map fun i => (i.1, recordJson i.2)))) = some nodes' ∧
    ∀ k, nodes'.get? k = (nodes.get? k).map Record.sortKeys
  := by
  have hnodup : ((nodes.sorted.map fun i => (i.1, i.2.sortKeys)).map Prod.fst).Nodup := by
    rw [List.map_map]
    apply nodup_sorted
  rw [sortKeys_nodes, nodesOfFields_sorted h]
  refine ⟨_, rfl, ?_⟩
  intro k
  apply Option.ext
  intro record
  rw [Dict.get?_eq_some_iff, items_foldl_set hnodup, List.mem_map, Option.map_eq_some_iff]
  constructor
  · rintro ⟨i, hi, heq⟩
    obtain ⟨rfl, rfl⟩ := Prod.mk.inj heq
    exact ⟨i.2, mem_sorted.mp hi, rfl⟩
  · rintro ⟨r, hr, rfl⟩
    exact ⟨(k, r), mem_sorted.mpr hr, rfl⟩

theorem sortKeys_record (record : Record) :
  record.sortKeys.sortKeys = record.sortKeys
  := by
  have hmetadata := sortKeys_sortKeys (.dict record.metadata)
  rw [sortKeys_dict, sortKeys_dict, Json.dict.injEq] at hmetadata
  rw [Record.sortKeys, Record.sortKeys]
  congr 1

/-- The fields of the state. -/
def stateFields (nodeTtlSeconds : ℤ) (nodes : Nodes) (now : Time) : List (Str × Json) := [
  (Str.ofString "saved_at", .str (iso now)),
  (Str.ofString "node_ttl_seconds", .int nodeTtlSeconds),
  (Str.ofString "nodes", .dict (nodes.items.map fun i => (i.1, recordJson i.2)))]

theorem stateJson_eq (nodeTtlSeconds : ℤ) (nodes : Nodes) (now : Time) :
  stateJson nodeTtlSeconds nodes now = .dict (stateFields nodeTtlSeconds nodes now)
  := rfl

/-- What is written is the text of the sorted state. -/
theorem loads_stateText [RecursionLimit] {nodeTtlSeconds : ℤ} (httl : Readable nodeTtlSeconds)
    {nodes : Nodes} (h : nodes.Stored) {now : Time} {text : String}
    (htext : stateText nodeTtlSeconds nodes now = .ok text) :
  loads text = .ok (sortKeys (stateJson nodeTtlSeconds nodes now))
  := by
  obtain ⟨hdepth, hencodable⟩ := exists_dumps_encode_iff.mp ⟨text, htext⟩
  rw [eq_of_dumps_encode htext]
  apply loads_text (loaded_sortKeys _ (loaded_stateJson httl h now)) hencodable
  apply hdepth.trans RecursionLimit.dumpDepth_le

/-- The state that is written is read as a map with the same records, their metadata sorted. -/
theorem loadState_stateText [RecursionLimit] {nodeTtlSeconds : ℤ} (httl : Readable nodeTtlSeconds)
    {nodes : Nodes} (h : nodes.Stored) {now : Time} {text : String}
    (htext : stateText nodeTtlSeconds nodes now = .ok text) :
  ∃ nodes', loadState text = some nodes' ∧
    ∀ k, nodes'.get? k = (nodes.get? k).map Record.sortKeys
  := by
  obtain ⟨nodes', hnodes', hget⟩ := exists_nodesOfFields_eq h
  refine ⟨nodes', ?_, hget⟩
  have hnodup : ((stateFields nodeTtlSeconds nodes now).map Prod.fst).Nodup :=
    (loaded_stateJson httl h now).2
  have hstate : asFields (sortKeys (stateJson nodeTtlSeconds nodes now))
      = some (sortFields (sortKeysFields (stateFields nodeTtlSeconds nodes now))) := by
    rw [stateJson_eq, sortKeys_dict, asFields]
  have hnodes : Json.getD (stateFields nodeTtlSeconds nodes now) "nodes" (.dict [])
      = .dict (nodes.items.map fun i => (i.1, recordJson i.2)) := by
    simp [stateFields]
  simp only [loadState, loads_stateText httl h htext, Except.toOption, Option.bind_eq_bind,
    Option.bind_some, hstate, getD_sortFields hnodup, hnodes, sortKeys_dict, hnodes']

/-! ### The text is canonical -/

/-- A record is written as its copy with sorted metadata is. -/
theorem sortKeys_recordJson (record : Record) :
  sortKeys (recordJson record.sortKeys) = sortKeys (recordJson record)
  := by
  have hmetadata : sortKeys (.dict record.sortKeys.metadata) = sortKeys (.dict record.metadata) := by
    rw [← sortKeys_sortKeys (.dict record.metadata), sortKeys_dict record.metadata]
    rfl
  rw [recordJson, recordJson, sortKeys_dict, sortKeys_dict, sortKeysFields_eq_map,
    sortKeysFields_eq_map]
  simp only [List.map_cons, List.map_nil, hmetadata]
  rfl

/-- The items of a map, their metadata sorted. -/
def Nodes.canonical (nodes : Nodes) : List (Str × Record) :=
  nodes.items.map fun i => (i.1, i.2.sortKeys)

theorem mem_canonical {nodes : Nodes} {k : Str} {record : Record} :
  (k, record) ∈ nodes.canonical ↔ (nodes.get? k).map Record.sortKeys = some record
  := by
  rw [Nodes.canonical, List.mem_map, Option.map_eq_some_iff]
  constructor
  · rintro ⟨i, hi, heq⟩
    obtain ⟨rfl, rfl⟩ := Prod.mk.inj heq
    exact ⟨i.2, Dict.get?_eq_some_iff.mpr hi, rfl⟩
  · rintro ⟨r, hr, rfl⟩
    exact ⟨(k, r), Dict.get?_eq_some_iff.mp hr, rfl⟩

theorem nodup_canonical (nodes : Nodes) :
  (nodes.canonical.map Prod.fst).Nodup
  := by
  rw [Nodes.canonical, List.map_map]
  exact nodes.nodup

/-- Maps that are the same are written alike. -/
theorem Nodes.Same.sortKeys_eq {nodes nodes' : Nodes} (h : nodes.Same nodes') :
  sortFields (sortKeysFields (nodes.items.map fun i => (i.1, recordJson i.2)))
    = sortFields (sortKeysFields (nodes'.items.map fun i => (i.1, recordJson i.2)))
  := by
  have hfields : ∀ nodes : Nodes, sortKeysFields (nodes.items.map fun i => (i.1, recordJson i.2))
      = nodes.canonical.map fun i => (i.1, sortKeys (recordJson i.2)) := by
    intro nodes
    rw [sortKeysFields_eq_map, List.map_map, Nodes.canonical, List.map_map]
    apply List.map_congr_left
    intro i _
    simp only [Function.comp_apply, sortKeys_recordJson]
  have hperm : nodes.canonical.Perm nodes'.canonical := by
    apply (List.perm_ext_iff_of_nodup (nodup_canonical nodes).of_map
      (nodup_canonical nodes').of_map).mpr
    rintro ⟨k, record⟩
    rw [mem_canonical, mem_canonical, h k]
  have hcodes : (nodes.canonical.map fun i => i.1.codes).Nodup := by
    have hmap := (nodup_canonical nodes).map Str.codes_injective
    rwa [List.map_map] at hmap
  rw [hfields, hfields, sortFields_map, sortFields_map]
  congr 1
  apply Keyed.sortBy_congr _ hcodes hperm

/-- Two maps are written as the same text at a time exactly when they are the same up to the order of
dictionaries. -/
theorem stateText_eq_iff [RecursionLimit] {nodeTtlSeconds : ℤ} (httl : Readable nodeTtlSeconds)
    {nodes nodes' : Nodes} (h : nodes.Stored) (h' : nodes'.Stored) {now : Time} {text : String}
    (htext : stateText nodeTtlSeconds nodes now = .ok text) :
  stateText nodeTtlSeconds nodes' now = .ok text ↔ nodes.Same nodes'
  := by
  constructor
  · intro htext'
    obtain ⟨loaded, hloaded, hget⟩ := loadState_stateText httl h htext
    obtain ⟨loaded', hloaded', hget'⟩ := loadState_stateText httl h' htext'
    obtain rfl := Option.some.inj (hloaded.symm.trans hloaded')
    intro k
    rw [← hget, hget']
  · intro hsame
    have hstate : sortKeys (stateJson nodeTtlSeconds nodes' now)
        = sortKeys (stateJson nodeTtlSeconds nodes now) := by
      rw [stateJson_eq, stateJson_eq, sortKeys_dict, sortKeys_dict, stateFields, stateFields,
        sortKeysFields_eq_map, sortKeysFields_eq_map]
      simp only [List.map_cons, List.map_nil, sortKeys_dict, hsame.sortKeys_eq]
    rw [stateText, hstate]
    exact htext

end Tracker
