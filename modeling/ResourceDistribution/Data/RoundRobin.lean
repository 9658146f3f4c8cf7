import Mathlib.Data.Int.CardIntervalMod
import Mathlib.Data.List.Rotate

/-!
# Round robin

The items of a list take turns: in round `r` it is the turn of the item in position `r` modulo the
length of the list, and the list rotated by `r` starts with it. The turns are balanced: in the first
`n` rounds every position has `n / k` turns, rounded down or up, where `k` is the length.
-/

universe u v

namespace RoundRobin

/-- A share of `n` rounds among `k`: the quotient, rounded down or up. -/
def Fair (n k share : Nat) : Prop := share = n / k ∨ share = (n + k - 1) / k

/-- What is left over when the rounds are divided adds at most one to a share. -/
theorem fair_of_remainder {n k share : Nat} {extra : Prop} [Decidable extra] (hk : 0 < k)
    (hextra : extra → 0 < n % k) (hshare : share = n / k + if extra then 1 else 0) :
  Fair n k share
  := by
  by_cases h : extra
  · right
    have hquotient : n + k - 1 = (n % k - 1) + k * (n / k + 1) := by
      have hdivision := Nat.mod_add_div n k
      have hpos := hextra h
      rw [Nat.mul_succ]
      omega
    have hsmall : (n % k - 1) / k = 0 := by
      apply Nat.div_eq_of_lt
      have hlt := Nat.mod_lt n hk
      omega
    rw [hshare, if_pos h, hquotient, Nat.add_mul_div_left _ _ hk, hsmall, Nat.zero_add]
  · left
    rw [hshare, if_neg h, Nat.add_zero]

/-- Every position has a fair share of the rounds. -/
theorem fair_count_mod {k j : Nat} (hj : j < k) (n : Nat) :
  Fair n k (n.count fun round => round % k = j)
  := by
  have hk : 0 < k := Nat.zero_lt_of_lt hj
  have hcount : (n.count fun round => round % k = j)
      = n / k + if j % k < n % k then 1 else 0 := by
    rw [← Nat.count_modEq_card n hk j]
    congr
    funext round
    rw [Nat.ModEq, Nat.mod_eq_of_lt hj]
  apply fair_of_remainder hk _ hcount
  intro hlt
  apply Nat.zero_lt_of_lt hlt

variable {α : Type u} {l : List α}

/-- In a round the list is rotated so that the item whose turn it is comes first. -/
theorem head?_rotate_mod (l : List α) (round : Nat) :
  (l.rotate (round % l.length)).head? = l[round % l.length]?
  := by
  rcases Nat.eq_zero_or_pos l.length with hempty | hpos
  · rw [List.length_eq_zero_iff] at hempty
    rw [hempty]
    rfl
  · apply List.head?_rotate
    apply Nat.mod_lt _ hpos

/-- An item that is once in the list is in one position. -/
theorem exists_position [DecidableEq α] {a : α} (ha : l.count a = 1) :
  ∃ j < l.length, ∀ i, l[i]? = some a ↔ i = j
  := by
  induction l with
  | nil => cases ha
  | cons b l ih =>
      rcases eq_or_ne b a with rfl | hb
      · use 0, Nat.zero_lt_succ _
        intro i
        cases i with
        | zero => simp
        | succ i =>
            have hnotMem : b ∉ l := by
              rw [← List.count_eq_zero]
              rw [List.count_cons_self] at ha
              apply Nat.succ.inj ha
            have hne : l[i]? ≠ some b := fun h => hnotMem (List.mem_of_getElem? h)
            simp [hne]
      · rw [List.count_cons_of_ne hb] at ha
        obtain ⟨j, hj, hposition⟩ := ih ha
        use j + 1, Nat.succ_lt_succ hj
        intro i
        cases i with
        | zero => simp [hb]
        | succ i => simp [hposition]

/-- When the item whose turn it is comes first, an item that is once in the list is first in a fair
share of the rounds. -/
theorem fair_count_first [DecidableEq α] {n : Nat} {first : Nat → Option α}
    (hfirst : ∀ round < n, first round = l[round % l.length]?) {a : α} (ha : l.count a = 1) :
  Fair n l.length (n.count fun round => first round = some a)
  := by
  obtain ⟨j, hj, hposition⟩ := exists_position ha
  have hcount : (n.count fun round => first round = some a)
      = n.count fun round => round % l.length = j := by
    rw [Nat.count_eq_card_filter_range, Nat.count_eq_card_filter_range]
    congr 1
    apply Finset.filter_congr
    intro round hround
    rw [hfirst round (Finset.mem_range.mp hround), hposition]
  rw [hcount]
  apply fair_count_mod hj

/-- When the items are in order, the list rotated for a round is so too exactly when the round begins
with the first item, or the order does not distinguish the items. -/
theorem pairwise_rotate_mod_iff {κ : Type v} [Preorder κ] {key : α → κ}
    (hl : l.Pairwise fun a b => key a ≤ key b) (round : Nat) :
  (l.rotate (round % l.length)).Pairwise (fun a b => key a ≤ key b)
    ↔ l.length ∣ round ∨ ∀ a ∈ l, ∀ b ∈ l, key a ≤ key b
  := by
  rcases Nat.eq_zero_or_pos l.length with hempty | hpos
  · rw [List.length_eq_zero_iff] at hempty
    rw [hempty]
    simp
  · set shift := round % l.length with hshift
    have hlt : shift < l.length := Nat.mod_lt _ hpos
    have hsplit : l.take shift ++ l.drop shift = l := List.take_append_drop shift l
    have hsorted := hl
    rw [← hsplit, List.pairwise_append] at hsorted
    obtain ⟨htake, hdrop, hacross⟩ := hsorted
    rw [List.rotate_eq_drop_append_take hlt.le, List.pairwise_append]
    constructor
    · rintro ⟨-, -, hback⟩
      rcases Nat.eq_zero_or_pos shift with hzero | hturned
      · exact .inl (Nat.dvd_of_mod_eq_zero hzero)
      · right
        -- every item before the cut is equivalent to every item after it
        obtain ⟨t, ht⟩ : ∃ t, t ∈ l.take shift := by
          apply List.exists_mem_of_length_pos
          rw [List.length_take]
          omega
        obtain ⟨d, hd⟩ : ∃ d, d ∈ l.drop shift := by
          apply List.exists_mem_of_length_pos
          rw [List.length_drop]
          omega
        intro a ha b hb
        rw [← hsplit, List.mem_append] at ha hb
        rcases ha with ha | ha
        · rcases hb with hb | hb
          · exact (hacross a ha d hd).trans (hback d hd b hb)
          · exact hacross a ha b hb
        · rcases hb with hb | hb
          · exact hback a ha b hb
          · exact (hback a ha t ht).trans (hacross t ht b hb)
    · intro h
      use hdrop, htake
      intro d hd t ht
      rcases h with hdvd | hall
      · rw [hshift, Nat.mod_eq_zero_of_dvd hdvd, List.take_zero] at ht
        cases ht
      · exact hall d (List.mem_of_mem_drop hd) t (List.mem_of_mem_take ht)

end RoundRobin
