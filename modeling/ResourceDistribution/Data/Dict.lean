import Mathlib.Algebra.GroupWithZero.Nat
import Mathlib.Data.List.Nodup
import Mathlib.Data.List.Lookmap
import Mathlib.Data.List.Perm.Subperm
import Mathlib.Tactic.Common

/-!
# Dictionaries in insertion order

`Dict κ ν` is a finite map from `κ` to `ν` that remembers the order in which its keys were
inserted. Setting a key that is present keeps its place, a new key goes to the end, and a key
that is erased and set again goes to the end. The items of a dictionary carry the proof that
their keys are distinct, so `d.get? k = some v` says the same as `(k, v) ∈ d.items`.
-/

universe u v

/-- A finite map that remembers the order in which its keys were inserted. -/
structure Dict (κ : Type u) (ν : Type v) where
  items : List (κ × ν)
  nodup : (items.map Prod.fst).Nodup

namespace Dict

variable {κ : Type u} {ν : Type v}

/-- The dictionary without items. -/
def empty : Dict κ ν := ⟨[], List.nodup_nil⟩

/-- The keys, in insertion order. -/
def keys (d : Dict κ ν) : List κ := d.items.map Prod.fst

/-- The values, in insertion order of their keys. -/
def values (d : Dict κ ν) : List ν := d.items.map Prod.snd

/-- Dictionaries with the same items in the same order are equal. -/
@[ext]
theorem ext {d e : Dict κ ν} (h : d.items = e.items) :
  d = e
  := by
  cases d
  cases e
  congr

/-- The items that satisfy `p`, in the same order. -/
def filter (d : Dict κ ν) (p : κ → ν → Bool) : Dict κ ν where
  items := d.items.filter (fun i => p i.1 i.2)
  nodup := d.nodup.sublist (List.filter_sublist.map Prod.fst)

@[simp]
theorem items_filter (d : Dict κ ν) (p : κ → ν → Bool) :
  (d.filter p).items = d.items.filter (fun i => p i.1 i.2)
  := rfl

/-- A pair occurs among items with distinct keys exactly when looking its key up gives its
value. -/
theorem lookup_eq_some_iff [BEq κ] [LawfulBEq κ] {l : List (κ × ν)} (hl : (l.map Prod.fst).Nodup)
    {k : κ} {w : ν} :
  l.lookup k = some w ↔ (k, w) ∈ l
  := by
  induction l with
  | nil => simp
  | cons i l ih =>
      obtain ⟨k', w'⟩ := i
      rw [List.map_cons, List.nodup_cons] at hl
      by_cases hk : k = k'
      · subst hk
        have hnot : (k, w) ∉ l := fun h => hl.1 (List.mem_map.mpr ⟨(k, w), h, rfl⟩)
        simp [hnot, eq_comm]
      · have hb : (k == k') = false := by simpa using hk
        rw [List.lookup_cons, hb]
        simp [ih hl.2, hk]

/-- What looking a key up gives occurs among the items. -/
theorem mem_of_lookup_eq_some [BEq κ] [LawfulBEq κ] {l : List (κ × ν)} {k : κ} {w : ν}
    (h : l.lookup k = some w) :
  (k, w) ∈ l
  := by
  obtain ⟨before, after, rfl, -⟩ := List.lookup_eq_some_iff.mp h
  apply List.mem_append_right _ List.mem_cons_self

/-- The values of a dictionary sum up to no more than those of any items among which its own are. -/
theorem sum_values_le {d : Dict κ ν} {l : List (κ × ν)} (h : d.items ⊆ l) (f : ν → ℕ) :
  (d.values.map f).sum ≤ ((l.map Prod.snd).map f).sum
  := by
  obtain ⟨items, hperm, hsublist⟩ := List.Nodup.subperm (List.Nodup.of_map _ d.nodup) h
  have hsum : (d.values.map f).sum = ((items.map Prod.snd).map f).sum :=
    ((hperm.symm.map _).map _).sum_nat
  rw [hsum]
  clear hsum hperm h
  induction hsublist with
  | slnil => apply Nat.le_refl
  | cons i _ ih =>
      rw [List.map_cons, List.map_cons, List.sum_cons]
      omega
  | cons_cons i _ ih =>
      rw [List.map_cons, List.map_cons, List.map_cons, List.map_cons, List.sum_cons,
        List.sum_cons]
      omega

variable [DecidableEq κ]

/-- The value of a key, if it is present. -/
def get? (d : Dict κ ν) (k : κ) : Option ν := d.items.lookup k

theorem get?_eq_some_iff {d : Dict κ ν} {k : κ} {w : ν} :
  d.get? k = some w ↔ (k, w) ∈ d.items
  := lookup_eq_some_iff d.nodup

theorem get?_eq_none_iff {d : Dict κ ν} {k : κ} :
  d.get? k = none ↔ k ∉ d.keys
  := by
  rw [Option.eq_none_iff_forall_ne_some]
  simp [get?_eq_some_iff, keys]

theorem isSome_get?_iff {d : Dict κ ν} {k : κ} :
  (d.get? k).isSome ↔ k ∈ d.keys
  := by
  rw [← not_iff_not, ← get?_eq_none_iff]
  simp

@[simp]
theorem get?_empty (k : κ) :
  (empty : Dict κ ν).get? k = none
  := rfl

/-- The value of a key after filtering is its value before, if that satisfies `p`. -/
@[simp]
theorem get?_filter (d : Dict κ ν) (p : κ → ν → Bool) (k : κ) :
  (d.filter p).get? k = (d.get? k).filter (p k)
  := by
  apply Option.ext
  intro w
  rw [get?_eq_some_iff, Option.filter_eq_some_iff, get?_eq_some_iff]
  simp

/-- Among items with distinct keys, the values of the items under `k` are the value of `k`, if it
is present. -/
theorem filter_lookup {l : List (κ × ν)} (hl : (l.map Prod.fst).Nodup) (k : κ) :
  (l.filter fun i => i.1 = k).map Prod.snd = (l.lookup k).toList
  := by
  induction l with
  | nil => rfl
  | cons i l ih =>
      obtain ⟨k', w⟩ := i
      rw [List.map_cons, List.nodup_cons] at hl
      by_cases hk : k' = k
      · subst hk
        have hnone : l.filter (fun i => i.1 = k') = [] := by
          apply List.filter_eq_nil_iff.mpr
          rintro i hi h
          apply hl.1 (List.mem_map.mpr ⟨i, hi, of_decide_eq_true h⟩)
        simp [hnone]
      · have hb : (k == k') = false := by simpa using Ne.symm hk
        rw [List.lookup_cons, hb]
        simp [hk, ih hl.2]

/-- The values of the items under `k` are the value of `k`, if it is present. -/
theorem filter_items (d : Dict κ ν) (k : κ) :
  (d.items.filter fun i => i.1 = k).map Prod.snd = (d.get? k).toList
  := filter_lookup d.nodup k

/-- Replace the value of `k` in place, or add `k` at the end. -/
def setItems (l : List (κ × ν)) (k : κ) (w : ν) : List (κ × ν) :=
  if k ∈ l.map Prod.fst then l.map (fun i => if i.1 = k then (k, w) else i)
  else l ++ [(k, w)]

/-- Replacing a value in place keeps the keys, and a new key goes to the end. -/
theorem keys_setItems (l : List (κ × ν)) (k : κ) (w : ν) :
  (setItems l k w).map Prod.fst
    = if k ∈ l.map Prod.fst then l.map Prod.fst else l.map Prod.fst ++ [k]
  := by
  unfold setItems
  split
  · rw [List.map_map]
    apply List.map_congr_left
    intro i _
    by_cases hi : i.1 = k
    · simp [hi]
    · simp [hi]
  · simp

/-- Set the value of a key, in place if the key is present and at the end otherwise. -/
def set (d : Dict κ ν) (k : κ) (w : ν) : Dict κ ν where
  items := setItems d.items k w
  nodup := by
    rw [keys_setItems]
    split
    · apply d.nodup
    · rename_i hk
      apply List.nodup_append.mpr
      use d.nodup, List.nodup_singleton k
      rintro a ha b hb rfl
      rw [List.mem_singleton] at hb
      apply hk
      rw [← hb]
      apply ha

/-- An item of `d.set k w` is the new one or an item of `d` under another key. -/
theorem mem_items_set {d : Dict κ ν} {k : κ} {w : ν} {i : κ × ν} :
  i ∈ (d.set k w).items ↔ i = (k, w) ∨ (i ∈ d.items ∧ i.1 ≠ k)
  := by
  change i ∈ setItems d.items k w ↔ _
  unfold setItems
  split
  · rename_i hk
    obtain ⟨j, hj, hjk⟩ := List.mem_map.mp hk
    rw [List.mem_map]
    constructor
    · rintro ⟨i', hi', rfl⟩
      by_cases h : i'.1 = k
      · left
        simp [h]
      · right
        simp [h, hi']
    · rintro (rfl | ⟨hi, hne⟩)
      · use j, hj
        simp [hjk]
      · use i, hi
        simp [hne]
  · rename_i hk
    rw [List.mem_append, List.mem_singleton]
    constructor
    · rintro (hi | rfl)
      · right
        use hi
        rintro rfl
        apply hk (List.mem_map.mpr ⟨i, hi, rfl⟩)
      · left
        rfl
    · rintro (rfl | ⟨hi, -⟩)
      · right
        rfl
      · left
        apply hi

/-- After setting a key, it has the new value and every other key has its old one. -/
theorem get?_set (d : Dict κ ν) (k : κ) (w : ν) (k' : κ) :
  (d.set k w).get? k' = if k' = k then some w else d.get? k'
  := by
  apply Option.ext
  intro x
  rw [get?_eq_some_iff, mem_items_set]
  by_cases h : k' = k
  · simp [h, eq_comm]
  · simp [h, get?_eq_some_iff]

@[simp]
theorem get?_set_self (d : Dict κ ν) (k : κ) (w : ν) :
  (d.set k w).get? k = some w
  := by
  simp [get?_set]

/-- Remove a key. -/
def erase (d : Dict κ ν) (k : κ) : Dict κ ν := d.filter (fun k' _ => k' ≠ k)

/-- After erasing a key, it is absent and every other key has its old value. -/
theorem get?_erase (d : Dict κ ν) (k k' : κ) :
  (d.erase k).get? k' = if k' = k then none else d.get? k'
  := by
  rw [erase, get?_filter]
  by_cases h : k' = k
  · simp [h]
  · cases d.get? k' <;> simp [h]

/-- Erasing an absent key changes nothing. -/
theorem erase_of_not_mem {d : Dict κ ν} {k : κ} (h : k ∉ d.keys) :
  d.erase k = d
  := by
  apply ext
  apply List.filter_eq_self.mpr
  intro i hi
  simp only [ne_eq, decide_not, Bool.not_eq_true', decide_eq_false_iff_not]
  rintro rfl
  apply h (List.mem_map.mpr ⟨i, hi, rfl⟩)

/-- Erasing keys one after another leaves the items under other keys. -/
theorem foldl_erase (ks : List κ) :
  ∀ d : Dict κ ν, ks.foldl erase d = d.filter (fun k _ => decide (k ∉ ks))
  := by
  induction ks with
  | nil =>
      intro d
      apply ext
      simp
  | cons k ks ih =>
      intro d
      rw [List.foldl_cons, ih]
      apply ext
      rw [erase, items_filter, items_filter, List.filter_filter, items_filter]
      apply List.filter_congr
      intro i _
      simp [Bool.and_comm]

/-- Erasing, one after another, the keys whose value fails `p` leaves the items that
satisfy it. -/
theorem foldl_erase_filter (d : Dict κ ν) (p : κ → ν → Bool) :
  ((d.filter (fun k w => !p k w)).keys).foldl erase d = d.filter p
  := by
  rw [foldl_erase]
  apply ext
  apply List.filter_congr
  intro i hi
  have hmem : i.1 ∈ (d.filter (fun k w => !p k w)).keys ↔ p i.1 i.2 = false := by
    rw [← isSome_get?_iff, get?_filter, get?_eq_some_iff.mpr hi]
    cases h : p i.1 i.2 <;> simp [Option.filter, h]
  simp only [hmem]
  cases p i.1 i.2 <;> rfl

end Dict
