import Mathlib.Data.List.Forall2
import ResourceDistribution.Data.Dict
import ResourceDistribution.Data.Keyed

/-!
# What does not depend on the order of a list

`l.findSome? f` is the first value that `f` gives on the items of `l`. It is the same for all
orders of the items exactly when the values that are given `Agree`. Sorting by distinct keys, and
the values of a dictionary as a collection, do not depend on the order either.
-/

universe u v w

/-! ### The first value given -/

namespace FirstGiven

variable {α : Type u} {β : Type v} {γ : Type w}

/-- The values that `f` gives on the items of `l` are all the same. -/
def Agree (f : α → Option β) (l : List α) : Prop :=
  ∀ a ∈ l, ∀ b ∈ l, ∀ x y, f a = some x → f b = some y → x = y

/-- Some item gives a value exactly when there is a first one that does. -/
theorem exists_findSome?_eq_some {f : α → Option β} {l : List α} {a : α} {x : β} (ha : a ∈ l)
    (hx : f a = some x) :
  ∃ y, l.findSome? f = some y
  := by
  apply Option.isSome_iff_exists.mp
  rw [List.findSome?_isSome_iff]
  use a, ha
  rw [hx]
  rfl

/-- Lists with the same items, on which the values agree, have the same first value. -/
theorem Agree.findSome?_eq {f : α → Option β} {l m : List α} (hagree : Agree f l)
    (hmem : ∀ a, a ∈ l ↔ a ∈ m) :
  l.findSome? f = m.findSome? f
  := by
  cases hl : l.findSome? f with
  | none =>
      rw [List.findSome?_eq_none_iff] at hl
      symm
      apply List.findSome?_eq_none_iff.mpr
      intro a ha
      apply hl a ((hmem a).mpr ha)
  | some x =>
      obtain ⟨a, ha, hx⟩ := List.exists_of_findSome?_eq_some hl
      obtain ⟨y, hm⟩ := exists_findSome?_eq_some ((hmem a).mp ha) hx
      obtain ⟨b, hb, hy⟩ := List.exists_of_findSome?_eq_some hm
      rw [hm, hagree a ha b ((hmem b).mpr hb) x y hx hy]

/-- The first value is the same for all orders of a list exactly when the values agree: of two
items with different values, each is the first of some order. -/
theorem forall_perm_findSome?_eq_iff {f : α → Option β} {l : List α} :
  (∀ m m' : List α, m.Perm l → m'.Perm l → m.findSome? f = m'.findSome? f) ↔ Agree f l
  := by
  constructor
  · intro hall a ha b hb x y hx hy
    obtain ⟨before, after, rfl⟩ := List.append_of_mem ha
    obtain ⟨before', after', hsplit⟩ := List.append_of_mem hb
    have hfirst := hall (a :: (before ++ after)) (b :: (before' ++ after'))
      List.perm_middle.symm (by rw [hsplit]; apply List.perm_middle.symm)
    rw [List.findSome?_cons, List.findSome?_cons, hx, hy] at hfirst
    apply Option.some.inj hfirst
  · intro hagree m m' hm hm'
    have hm_agree : Agree f m := by
      intro a ha b hb
      apply hagree a (hm.mem_iff.mp ha) b (hm.mem_iff.mp hb)
    apply hm_agree.findSome?_eq
    intro a
    rw [hm.mem_iff, hm'.mem_iff]

/-- The first value on the items that `g` gives is the first value of the composition. -/
theorem findSome?_filterMap (f : β → Option γ) (g : α → Option β) (l : List α) :
  (l.filterMap g).findSome? f = l.findSome? fun a => (g a).bind f
  := by
  induction l with
  | nil => rfl
  | cons a l ih =>
      rw [List.findSome?_cons, List.filterMap_cons]
      cases g a with
      | none => simpa using ih
      | some b => simp [List.findSome?_cons, ih]

/-- Values agree on the items that `g` gives exactly when those of the composition do. -/
theorem agree_filterMap_iff {f : β → Option γ} {g : α → Option β} {l : List α} :
  Agree f (l.filterMap g) ↔ Agree (fun a => (g a).bind f) l
  := by
  constructor
  · intro h a ha b hb x y hx hy
    obtain ⟨c, hc, hx⟩ := Option.bind_eq_some_iff.mp hx
    obtain ⟨d, hd, hy⟩ := Option.bind_eq_some_iff.mp hy
    apply h c (List.mem_filterMap.mpr ⟨a, ha, hc⟩) d (List.mem_filterMap.mpr ⟨b, hb, hd⟩) x y hx hy
  · intro h c hc d hd x y hx hy
    obtain ⟨a, ha, hc⟩ := List.mem_filterMap.mp hc
    obtain ⟨b, hb, hd⟩ := List.mem_filterMap.mp hd
    apply h a ha b hb x y
    · simp only [hc, Option.bind_some, hx]
    · simp only [hd, Option.bind_some, hy]

end FirstGiven

/-! ### Sorting -/

namespace Keyed

variable {α : Type u}

section SortBy

variable {κ : Type v} [LinearOrder κ] {key : α → κ}

/-- Items with distinct keys are sorted in one way only. -/
theorem sortBy_eq_of_perm {l m : List α} (hperm : l.Perm m)
    (hl : l.Pairwise fun a b => key a ≠ key b) :
  sortBy key l = sortBy key m
  := by
  have hsorted : (sortBy key l).Perm (sortBy key m) :=
    (sortBy_perm key l).trans (hperm.trans (sortBy_perm key m).symm)
  have hm : m.Pairwise fun a b => key a ≠ key b := (hperm.pairwise_iff fun h => h.symm).mp hl
  apply hsorted.eq_of_pairwise _ (pairwise_lt_sortBy key hl) (pairwise_lt_sortBy key hm)
  intro a b _ _ hab hba
  cases lt_asymm hab hba

/-- Sorting commutes with a function that the key factors through. -/
theorem map_sortBy {β : Type w} (key : α → κ) (f : β → α) (l : List β) :
  (sortBy (fun b => key (f b)) l).map f = sortBy key (l.map f)
  := by
  apply List.map_insertionSort
  intro a _ b _
  rfl

end SortBy

/-- Lists that `f` maps to the same are related item by item, if items that `f` maps to the same
are. -/
theorem forall₂_of_map_eq {β : Type w} {f : α → β} {R : α → α → Prop} {l m : List α}
    (h : l.map f = m.map f) (hR : ∀ a ∈ l, ∀ b ∈ m, f a = f b → R a b) :
  List.Forall₂ R l m
  := by
  induction l generalizing m with
  | nil =>
      cases m with
      | nil => apply List.Forall₂.nil
      | cons b m => simp at h
  | cons a l ih =>
      cases m with
      | nil => simp at h
      | cons b m =>
          rw [List.map_cons, List.map_cons, List.cons.injEq] at h
          apply List.Forall₂.cons
          · apply hR a List.mem_cons_self b List.mem_cons_self h.1
          · apply ih h.2
            intro a ha b hb
            apply hR a (List.mem_cons_of_mem _ ha) b (List.mem_cons_of_mem _ hb)

end Keyed

/-! ### Dictionaries -/

namespace Dict

variable {κ : Type u} {ν : Type v} {β : Type w} [DecidableEq κ]

/-- A new key goes to the end. -/
theorem items_set_of_notMem {d : Dict κ ν} {k : κ} (h : k ∉ d.keys) (w : ν) :
  (d.set k w).items = d.items ++ [(k, w)]
  := if_neg h

/-- Dictionaries that have the same under every key, as far as `f` tells, have the same values as
far as `f` tells, up to their order. -/
theorem perm_map_values {d e : Dict κ ν} (f : ν → β)
    (h : ∀ k, (d.get? k).map f = (e.get? k).map f) :
  (d.values.map f).Perm (e.values.map f)
  := by
  let g : κ × ν → κ × β := fun i => (i.1, f i.2)
  have hmem : ∀ (d : Dict κ ν) (k : κ) (b : β),
      (k, b) ∈ d.items.map g ↔ (d.get? k).map f = some b := by
    intro d k b
    simp only [List.mem_map, Option.map_eq_some_iff, get?_eq_some_iff, g, Prod.mk.injEq]
    constructor
    · rintro ⟨⟨_, w⟩, hi, rfl, rfl⟩
      use w
    · rintro ⟨w, hi, rfl⟩
      use (k, w)
  have hnodup : ∀ d : Dict κ ν, (d.items.map g).Nodup := by
    intro d
    apply List.Nodup.of_map Prod.fst
    rw [List.map_map]
    exact d.nodup
  have hperm : (d.items.map g).Perm (e.items.map g) := by
    apply (List.perm_ext_iff_of_nodup (hnodup d) (hnodup e)).mpr
    rintro ⟨k, b⟩
    rw [hmem, hmem, h k]
  simpa [values, g, Function.comp_def] using hperm.map Prod.snd

end Dict
