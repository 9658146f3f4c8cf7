import Mathlib.Data.List.Sort
import Mathlib.Data.List.Nodup
import Mathlib.Tactic.Common

/-!
# Lists of keyed items

For a function `key` on the items of a list, `firstWins` keeps of every key the first item that
has it, and `sortBy` sorts the items by key, stably. Together they turn any list into one whose
keys are strictly increasing.
-/

universe u v

namespace Keyed

variable {α : Type u} {κ : Type v} (key : α → κ)

section FirstWins

variable [DecidableEq κ]

/-- The items of `l` whose key is not in `seen`, of every key only the first. -/
def firstWins (seen : List κ) : List α → List α
  | [] => []
  | a :: l => if key a ∈ seen then firstWins seen l else a :: firstWins (key a :: seen) l

theorem firstWins_sublist (seen : List κ) (l : List α) :
  (firstWins key seen l).Sublist l
  := by
  induction l generalizing seen with
  | nil => apply List.Sublist.refl
  | cons a l ih =>
      rw [firstWins]
      split
      · apply (ih seen).cons
      · apply (ih _).cons_cons

/-- The keys kept are not among the keys seen before. -/
theorem key_notMem_of_mem_firstWins {seen : List κ} {l : List α} {a : α}
    (h : a ∈ firstWins key seen l) :
  key a ∉ seen
  := by
  induction l generalizing seen with
  | nil => simp [firstWins] at h
  | cons b l ih =>
      rw [firstWins] at h
      split at h
      · apply ih h
      · rename_i hb
        rcases List.mem_cons.mp h with rfl | h
        · apply hb
        · intro ha
          apply ih h (List.mem_cons_of_mem _ ha)

/-- An item is kept exactly when its key was not seen before and no item in front of it has it. -/
theorem mem_firstWins_iff {seen : List κ} {l : List α} {a : α} :
  a ∈ firstWins key seen l ↔
    key a ∉ seen ∧ ∃ before after, l = before ++ a :: after ∧ ∀ b ∈ before, key b ≠ key a
  := by
  induction l generalizing seen with
  | nil => simp [firstWins]
  | cons c l ih =>
      rw [firstWins]
      split
      · rename_i hc
        rw [ih]
        apply and_congr_right
        intro ha
        have hne : key c ≠ key a := fun heq => ha (heq ▸ hc)
        constructor
        · rintro ⟨before, after, rfl, hbefore⟩
          exact ⟨c :: before, after, rfl, List.forall_mem_cons.mpr ⟨hne, hbefore⟩⟩
        · rintro ⟨before, after, hl, hbefore⟩
          cases before with
          | nil =>
              obtain ⟨rfl, -⟩ := List.cons.inj hl
              exact absurd rfl hne
          | cons d before =>
              obtain ⟨rfl, rfl⟩ := List.cons.inj hl
              exact ⟨before, after, rfl, (List.forall_mem_cons.mp hbefore).2⟩
      · rename_i hc
        rw [List.mem_cons, ih, List.mem_cons, not_or]
        constructor
        · rintro (rfl | ⟨⟨hne, ha⟩, before, after, rfl, hbefore⟩)
          · exact ⟨hc, [], l, rfl, List.forall_mem_nil _⟩
          · exact ⟨ha, c :: before, after, rfl, List.forall_mem_cons.mpr ⟨Ne.symm hne, hbefore⟩⟩
        · rintro ⟨ha, before, after, hl, hbefore⟩
          cases before with
          | nil =>
              obtain ⟨rfl, -⟩ := List.cons.inj hl
              exact .inl rfl
          | cons d before =>
              obtain ⟨rfl, rfl⟩ := List.cons.inj hl
              obtain ⟨hd, hbefore⟩ := List.forall_mem_cons.mp hbefore
              exact .inr ⟨⟨Ne.symm hd, ha⟩, before, after, rfl, hbefore⟩

/-- The keys kept are all keys that were not seen before. -/
theorem mem_map_firstWins_iff {seen : List κ} {l : List α} {k : κ} :
  k ∈ (firstWins key seen l).map key ↔ k ∉ seen ∧ k ∈ l.map key
  := by
  induction l generalizing seen with
  | nil => simp [firstWins]
  | cons c l ih =>
      rw [firstWins]
      split
      · rename_i hc
        rw [ih, List.map_cons, List.mem_cons]
        apply and_congr_right
        intro hk
        have hne : k ≠ key c := fun heq => hk (heq ▸ hc)
        rw [or_iff_right hne]
      · rename_i hc
        rw [List.map_cons, List.map_cons, List.mem_cons, List.mem_cons, ih, List.mem_cons, not_or]
        constructor
        · rintro (rfl | ⟨⟨-, hk⟩, hmem⟩)
          · exact ⟨hc, .inl rfl⟩
          · exact ⟨hk, .inr hmem⟩
        · rintro ⟨hk, hmem⟩
          by_cases heq : k = key c
          · exact .inl heq
          · exact .inr ⟨⟨heq, hk⟩, hmem.resolve_left heq⟩

/-- No two items kept have the same key. -/
theorem pairwise_firstWins (seen : List κ) (l : List α) :
  (firstWins key seen l).Pairwise (fun a b => key a ≠ key b)
  := by
  induction l generalizing seen with
  | nil => apply List.Pairwise.nil
  | cons a l ih =>
      rw [firstWins]
      split
      · apply ih
      · apply List.Pairwise.cons _ (ih _)
        intro b hb hab
        apply key_notMem_of_mem_firstWins key hb
        rw [hab]
        apply List.mem_cons_self

/-- A list whose keys are distinct and not seen before is kept as it is. -/
theorem firstWins_eq_self {seen : List κ} {l : List α}
    (hl : l.Pairwise (fun a b => key a ≠ key b)) (hseen : ∀ a ∈ l, key a ∉ seen) :
  firstWins key seen l = l
  := by
  induction l generalizing seen with
  | nil => rfl
  | cons a l ih =>
      rw [List.pairwise_cons] at hl
      rw [firstWins, if_neg (hseen a List.mem_cons_self)]
      congr 1
      apply ih hl.2
      intro b hb
      rw [List.mem_cons, not_or]
      constructor
      · apply (hl.1 b hb).symm
      · apply hseen b (List.mem_cons_of_mem _ hb)

/-- No key occurs twice exactly when at most one item has each. -/
theorem nodup_map_iff {key : α → κ} {l : List α} :
  (l.map key).Nodup ↔ ∀ k, (l.filter fun a => key a = k).length ≤ 1
  := by
  rw [List.nodup_iff_count_le_one]
  apply forall_congr'
  intro k
  rw [List.count, List.countP_map, List.countP_eq_length_filter]
  have hfilter : (l.filter ((· == k) ∘ key)) = l.filter fun a => key a = k := by
    apply List.filter_congr
    intro a _
    apply beq_eq_decide
  rw [hfilter]

end FirstWins

section SortBy

variable [LinearOrder κ]

/-- Sort by key, keeping the order of items with the same key. -/
def sortBy (l : List α) : List α := l.insertionSort (fun a b => key a ≤ key b)

theorem sortBy_perm (l : List α) :
  (sortBy key l).Perm l
  := List.perm_insertionSort _ l

@[simp]
theorem mem_sortBy {l : List α} {a : α} :
  a ∈ sortBy key l ↔ a ∈ l
  := (sortBy_perm key l).mem_iff

/-- The keys of a sorted list are in order. -/
theorem pairwise_sortBy (l : List α) :
  (sortBy key l).Pairwise (fun a b => key a ≤ key b)
  := by
  have : Std.Total (fun a b : α => key a ≤ key b) := ⟨fun a b => le_total (key a) (key b)⟩
  have : IsTrans α (fun a b : α => key a ≤ key b) := ⟨fun _ _ _ h h' => le_trans h h'⟩
  apply List.pairwise_insertionSort

/-- Sorting items with distinct keys makes the keys strictly increasing. -/
theorem pairwise_lt_sortBy {l : List α} (hl : l.Pairwise (fun a b => key a ≠ key b)) :
  (sortBy key l).Pairwise (fun a b => key a < key b)
  := by
  have hne : (sortBy key l).Pairwise (fun a b => key a ≠ key b) :=
    ((sortBy_perm key l).pairwise_iff (fun h => Ne.symm h)).mpr hl
  apply ((pairwise_sortBy key l).and hne).imp
  intro a b h
  apply lt_of_le_of_ne h.1 h.2

/-- Sorting does not change which lists have the same items, so sorted lists of distinct keys
are equal when they have the same items. -/
theorem sortBy_eq_sortBy_iff {key : α → κ} (hkey : Function.Injective key) {l m : List α}
    (hl : l.Nodup) (hm : m.Nodup) :
  sortBy key l = sortBy key m ↔ ∀ a, a ∈ l ↔ a ∈ m
  := by
  constructor
  · intro h a
    rw [← mem_sortBy key, h, mem_sortBy]
  · intro h
    have hperm : (sortBy key l).Perm (sortBy key m) :=
      (sortBy_perm key l).trans
        (((List.perm_ext_iff_of_nodup hl hm).mpr h).trans (sortBy_perm key m).symm)
    apply hperm.eq_of_pairwise _ (pairwise_sortBy key l) (pairwise_sortBy key m)
    intro a b _ _ hab hba
    apply hkey (le_antisymm hab hba)

/-- A list in order is not changed by sorting. -/
theorem sortBy_eq_self {l : List α} (hl : l.Pairwise (fun a b => key a ≤ key b)) :
  sortBy key l = l
  := hl.insertionSort_eq

/-- The keys of a sorted list are a given list in order exactly when this has the same keys. -/
theorem map_sortBy_eq_iff {l : List α} {m : List κ} (hm : m.Pairwise (· ≤ ·)) :
  (sortBy key l).map key = m ↔ (l.map key).Perm m
  := by
  have hperm : ((sortBy key l).map key).Perm (l.map key) := (sortBy_perm key l).map key
  constructor
  · intro h
    rw [← h]
    apply hperm.symm
  · intro h
    apply (hperm.trans h).eq_of_pairwise _ _ hm
    · intro a b _ _ hab hba
      apply le_antisymm hab hba
    · apply List.pairwise_map.mpr (pairwise_sortBy key l)

/-- The keys of a sorted list do not depend on the order the items had. -/
theorem map_sortBy_congr {l m : List α} (h : l.Perm m) :
  (sortBy key l).map key = (sortBy key m).map key
  := by
  rw [map_sortBy_eq_iff key (List.pairwise_map.mpr (pairwise_sortBy key m))]
  apply (h.map key).trans ((sortBy_perm key m).symm.map key)

/-- Items with distinct keys are sorted alike in whatever order they are. -/
theorem sortBy_congr {l m : List α} (hl : (l.map key).Nodup) (h : l.Perm m) :
  sortBy key l = sortBy key m
  := by
  have hlt : ∀ {l : List α}, (l.map key).Nodup →
      (sortBy key l).Pairwise (fun a b => key a < key b) := by
    intro l hl
    apply pairwise_lt_sortBy
    apply List.pairwise_map.mp hl
  have hperm : (sortBy key l).Perm (sortBy key m) :=
    (sortBy_perm key l).trans (h.trans (sortBy_perm key m).symm)
  apply hperm.eq_of_pairwise _ (hlt hl) (hlt ((h.map key).nodup_iff.mp hl))
  intro a b _ _ hab hba
  exact absurd hab hba.asymm

end SortBy

end Keyed
