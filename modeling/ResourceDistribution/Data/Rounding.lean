import Mathlib.Algebra.Order.Field.Power
import Mathlib.Data.Int.Log
import Mathlib.Data.Rat.Floor
import Mathlib.Tactic.FieldSimp
import Mathlib.Tactic.Linarith
import Mathlib.Tactic.Positivity
import Mathlib.Tactic.Ring

/-!
# Rounding to binary numbers

The numbers `m * 2 ^ e` with `m` below `2 ^ precision` and `e` at least `minExponent`. A rational is
rounded to the closest of them, to the one with an even significand if there are two. The rationals
that are rounded to a number form an interval around it (`Format.Rounds`). Rounding first finds the
exponent and then the closest integer; for a rational of the interval it comes out at the number the
interval is around (`Format.Rounds.code_eq`). The interval contains a multiple of every step that is
shorter than it (`Format.rounds_multiple`).
-/

namespace Rounding

/-- A power as a quotient of powers with natural exponents. -/
theorem zpow_eq_div {b : ℚ} (hb : b ≠ 0) (k : ℤ) :
  b ^ k = b ^ k.toNat / b ^ (-k).toNat
  := by
  rw [← zpow_natCast, ← zpow_natCast, ← zpow_sub₀ hb]
  congr 1
  omega

/-- `q` is the integer closest to `x`, or the even one of two. -/
def IsNearest (x : ℚ) (q : ℕ) : Prop :=
  if q % 2 = 0 then q - 1 / 2 ≤ x ∧ x ≤ q + 1 / 2 else q - 1 / 2 < x ∧ x < q + 1 / 2

/-- Two integers closest to the same number are equal. -/
theorem IsNearest.unique {x : ℚ} {q q' : ℕ} (h : IsNearest x q) (h' : IsNearest x q') :
  q = q'
  := by
  have hbounds : ∀ q q' : ℕ, IsNearest x q → IsNearest x q' → ¬ q < q' := by
    intro q q' h h' hlt
    have hle : (q : ℚ) + 1 ≤ q' := by exact_mod_cast hlt
    rw [IsNearest] at h h'
    split at h
    · split at h'
      · -- both are even, so more than one apart
        have hle' : (q : ℚ) + 2 ≤ q' := by
          have htwo : q + 2 ≤ q' := by omega
          exact_mod_cast htwo
        linarith [h.2, h'.1]
      · linarith [h.2, h'.1]
    · split at h'
      · linarith [h.2, h'.1]
      · linarith [h.2, h'.1]
  apply le_antisymm
  · exact not_lt.mp (hbounds q' q h' h)
  · exact not_lt.mp (hbounds q q' h h')

/-- How many bits a significand has, and what exponent is the least. -/
structure Format where
  precision : ℕ
  minExponent : ℤ

namespace Format

variable (F : Format)

/-- A positive number of the format. Its exponent is the least one that its significand admits. -/
structure Canonical (m : ℕ) (e : ℤ) : Prop where
  pos : 0 < m
  lt : m < 2 ^ (F.precision + 1)
  minExponent_le : F.minExponent ≤ e
  normal : 2 ^ F.precision ≤ m ∨ e = F.minExponent

/-- Half of the distance between a number and the one below it, in units of its last place. Below a
power of two the numbers are twice as dense. -/
def halfBelow (m : ℕ) (e : ℤ) : ℚ :=
  if m = 2 ^ F.precision ∧ F.minExponent < e then 1 / 4 else 1 / 2

/-- The rationals that are rounded to a number. -/
def Rounds (m : ℕ) (e : ℤ) (r : ℚ) : Prop :=
  if m % 2 = 0 then (m - F.halfBelow m e) * 2 ^ e ≤ r ∧ r ≤ (m + 1 / 2) * 2 ^ e
  else (m - F.halfBelow m e) * 2 ^ e < r ∧ r < (m + 1 / 2) * 2 ^ e

/-- The exponent that a positive rational is rounded with. -/
def exponent (r : ℚ) : ℤ := max (Int.log 2 r - F.precision) F.minExponent

/-- The place of a number among all of the format. A power of two has the same place with either of
its exponents. -/
def code (m : ℕ) (e : ℤ) : ℕ := (e - F.minExponent).toNat * 2 ^ F.precision + m

variable {F} {m : ℕ} {e : ℤ} {r : ℚ}

theorem halfBelow_pos :
  0 < F.halfBelow m e
  := by
  rw [halfBelow]
  split
  · norm_num
  · norm_num

theorem halfBelow_le :
  F.halfBelow m e ≤ 1 / 2
  := by
  rw [halfBelow]
  split
  · norm_num
  · norm_num

/-- Whatever is rounded to a number lies between its bounds. -/
theorem Rounds.bounds (h : F.Rounds m e r) :
  (m - F.halfBelow m e) * 2 ^ e ≤ r ∧ r ≤ (m + 1 / 2) * 2 ^ e
  := by
  rw [Rounds] at h
  split at h
  · exact h
  · exact ⟨h.1.le, h.2.le⟩

/-- Only a positive rational is rounded to a positive number. -/
theorem Rounds.pos (h : F.Rounds m e r) (hm : 0 < m) :
  0 < r
  := by
  have hone : (1 : ℚ) ≤ m := by exact_mod_cast hm
  have hhalf := F.halfBelow_le (m := m) (e := e)
  have hpow : (0 : ℚ) < 2 ^ e := by positivity
  have hlow : 0 < (m - F.halfBelow m e) * 2 ^ e := by
    apply mul_pos _ hpow
    linarith
  exact hlow.trans_le h.bounds.1

/-- The significand of a rational that is rounded to a number, with the exponent of the number. -/
theorem Rounds.isNearest (h : F.Rounds m e r) (hhalf : F.halfBelow m e = 1 / 2) :
  IsNearest (r / 2 ^ e) m
  := by
  have hpow : (0 : ℚ) < 2 ^ e := by positivity
  rw [Rounds, hhalf] at h
  rw [IsNearest, le_div_iff₀ hpow, div_le_iff₀ hpow, lt_div_iff₀ hpow, div_lt_iff₀ hpow]
  exact h

/-- The exponent of a rational between two powers of two. -/
theorem exponent_eq (hlow : (2 : ℚ) ^ (e + F.precision) ≤ r)
    (hhigh : r < (2 : ℚ) ^ (e + F.precision + 1)) (hmin : F.minExponent ≤ e) :
  F.exponent r = e
  := by
  have hpos : 0 < r := lt_of_lt_of_le (by positivity) hlow
  have hlog : Int.log 2 r = e + F.precision := by
    apply le_antisymm
    · have hlt := (Int.lt_zpow_iff_log_lt (b := 2) (by norm_num) hpos).mp (by exact_mod_cast hhigh)
      omega
    · exact (Int.zpow_le_iff_le_log (b := 2) (by norm_num) hpos).mp (by exact_mod_cast hlow)
  rw [exponent, hlog, max_eq_left]
  · ring
  · omega

/-- The exponent of a small rational is the least one. -/
theorem exponent_eq_min (hpos : 0 < r) (hhigh : r < (2 : ℚ) ^ (F.minExponent + F.precision + 1)) :
  F.exponent r = F.minExponent
  := by
  have hlt := (Int.lt_zpow_iff_log_lt (b := 2) (by norm_num) hpos).mp (by exact_mod_cast hhigh)
  rw [exponent, max_eq_right]
  omega

/-- A rational that is rounded to a number is below the next power of two. -/
theorem Rounds.lt (h : F.Rounds m e r) (hcanonical : F.Canonical m e) :
  r < (2 : ℚ) ^ (e + F.precision + 1)
  := by
  have hpow : (0 : ℚ) < 2 ^ e := by positivity
  have hsplit : (2 : ℚ) ^ (e + F.precision + 1) = 2 ^ (F.precision + 1) * 2 ^ e := by
    rw [add_assoc, zpow_add₀ (by norm_num), mul_comm]
    norm_cast
  have hlt : (m : ℚ) + 1 ≤ 2 ^ (F.precision + 1) := by exact_mod_cast hcanonical.lt
  rw [hsplit]
  apply h.bounds.2.trans_lt
  apply mul_lt_mul_of_pos_right _ hpow
  linarith

/-- Among the smallest numbers the exponent is the least one, and so is that of a rational. -/
theorem Rounds.exponent_eq_of_min (h : F.Rounds m e r) (hcanonical : F.Canonical m e)
    (hmin : e = F.minExponent) :
  F.exponent r = e ∧ F.halfBelow m e = 1 / 2
  := by
  constructor
  · rw [hmin]
    apply exponent_eq_min (h.pos hcanonical.pos)
    rw [← hmin]
    apply h.lt hcanonical
  · rw [halfBelow, if_neg]
    omega

/-- The only number that rationals with a smaller exponent are rounded to is a power of two. -/
theorem Rounds.eq_of_lt (h : F.Rounds m e r) (hcanonical : F.Canonical m e)
    (hmin : e ≠ F.minExponent) (hlt : r < 2 ^ F.precision * 2 ^ e) :
  m = 2 ^ F.precision ∧ F.halfBelow m e = 1 / 4
  := by
  have hm : m = 2 ^ F.precision := by
    by_contra hne
    have hgt : (2 : ℚ) ^ F.precision + 1 ≤ m := by
      have hnormal := hcanonical.normal.resolve_right hmin
      have hsucc : 2 ^ F.precision + 1 ≤ m := by omega
      exact_mod_cast hsucc
    have hhalf := F.halfBelow_le (m := m) (e := e)
    have hpow : (0 : ℚ) < 2 ^ e := by positivity
    have hcancel := lt_of_mul_lt_mul_right (h.bounds.1.trans_lt hlt) hpow.le
    linarith
  constructor
  · exact hm
  · have hle := hcanonical.minExponent_le
    rw [halfBelow, if_pos]
    omega

/-- A rational below a power of two that is rounded to it has the exponent of the numbers below, and
its significand is rounded up to the next power of two. -/
theorem Rounds.isNearest_of_lt (h : F.Rounds m e r) (hcanonical : F.Canonical m e)
    (hmin : e ≠ F.minExponent) (hlt : r < 2 ^ F.precision * 2 ^ e) :
  F.exponent r = e - 1 ∧ IsNearest (r / 2 ^ (e - 1)) (2 ^ (F.precision + 1))
  := by
  obtain ⟨hm, hhalf⟩ := h.eq_of_lt hcanonical hmin hlt
  have hpow : (0 : ℚ) < 2 ^ (e - 1) := by positivity
  have hone : (1 : ℚ) ≤ 2 ^ F.precision := one_le_pow₀ (by norm_num)
  have htwo : (2 : ℚ) ^ e = 2 * 2 ^ (e - 1) := by
    rw [← zpow_one_add₀ (by norm_num)]
    ring_nf
  have hlow := h.bounds.1
  rw [hhalf, hm, htwo] at hlow
  push_cast at hlow
  rw [htwo] at hlt
  have hle := hcanonical.minExponent_le
  constructor
  · apply exponent_eq _ _ (by omega)
    · rw [zpow_add₀ (by norm_num), zpow_natCast]
      nlinarith
    · rw [add_right_comm, sub_add_cancel, zpow_add₀ (by norm_num), zpow_natCast, htwo]
      linarith
  · have heven : 2 ^ (F.precision + 1) % 2 = 0 := by
      rw [pow_succ]
      omega
    rw [IsNearest, if_pos heven, le_div_iff₀ hpow, div_le_iff₀ hpow]
    push_cast
    rw [pow_succ]
    constructor
    · linarith
    · nlinarith

/-- From a power of two on, the interval is that of a number whose neighbours are equally far. -/
theorem Rounds.isNearest_of_ge (h : F.Rounds m e r) (hge : 2 ^ F.precision * 2 ^ e ≤ r) :
  IsNearest (r / 2 ^ e) m
  := by
  by_cases hhalf : F.halfBelow m e = 1 / 2
  · apply h.isNearest hhalf
  · have hm : m = 2 ^ F.precision := by
      by_contra hne
      apply hhalf
      rw [halfBelow, if_neg]
      exact fun hbelow => hne hbelow.1
    have hpow : (0 : ℚ) < 2 ^ e := by positivity
    have hcast : (m : ℚ) = 2 ^ F.precision := by exact_mod_cast hm
    rw [← hcast] at hge
    have hlow : (m - 1 / 2) * 2 ^ e < r := by nlinarith
    have hhigh := h.bounds.2
    rw [Rounds] at h
    rw [IsNearest, le_div_iff₀ hpow, div_le_iff₀ hpow, lt_div_iff₀ hpow, div_lt_iff₀ hpow]
    split
    · exact ⟨hlow.le, hhigh⟩
    · rename_i hodd
      rw [if_neg hodd] at h
      exact ⟨hlow, h.2⟩

/-- Rounding a rational that is rounded to a number comes out at the place of the number. -/
theorem Rounds.code_eq (h : F.Rounds m e r) (hcanonical : F.Canonical m e) {q : ℕ}
    (hq : IsNearest (r / 2 ^ F.exponent r) q) :
  F.code q (F.exponent r) = F.code m e
  := by
  have hprecision : (2 : ℚ) ^ (e + F.precision) = 2 ^ F.precision * 2 ^ e := by
    rw [zpow_add₀ (by norm_num), mul_comm, zpow_natCast]
  by_cases hmin : e = F.minExponent
  · obtain ⟨hexponent, hhalf⟩ := h.exponent_eq_of_min hcanonical hmin
    rw [hexponent] at hq ⊢
    rw [hq.unique (h.isNearest hhalf)]
  · rcases lt_or_ge r (2 ^ F.precision * 2 ^ e) with hlt | hge
    · obtain ⟨hexponent, hnearest⟩ := h.isNearest_of_lt hcanonical hmin hlt
      rw [hexponent] at hq ⊢
      have hle := hcanonical.minExponent_le
      have hsteps : (e - F.minExponent).toNat = (e - 1 - F.minExponent).toNat + 1 := by omega
      rw [hq.unique hnearest, code, code, (h.eq_of_lt hcanonical hmin hlt).1, hsteps, pow_succ]
      ring
    · have hexponent : F.exponent r = e := by
        apply exponent_eq _ (h.lt hcanonical) hcanonical.minExponent_le
        rw [hprecision]
        exact hge
      rw [hexponent] at hq ⊢
      rw [hq.unique (h.isNearest_of_ge hge)]

/-- A rational between a number and the upper end of its interval is rounded to the number. -/
theorem rounds_of_ge (hge : m * 2 ^ e ≤ r) (hlt : r < (m + 1 / 2) * 2 ^ e) :
  F.Rounds m e r
  := by
  have hpow : (0 : ℚ) < 2 ^ e := by positivity
  have hhalf := F.halfBelow_pos (m := m) (e := e)
  have hlow : (m - F.halfBelow m e) * 2 ^ e < r := by nlinarith
  rw [Rounds]
  split
  · exact ⟨hlow.le, hlt.le⟩
  · exact ⟨hlow, hlt⟩

/-- A rational between the lower end of the interval of a number and the number is rounded to it. -/
theorem rounds_of_le (hgt : (m - F.halfBelow m e) * 2 ^ e < r) (hle : r ≤ m * 2 ^ e) :
  F.Rounds m e r
  := by
  have hpow : (0 : ℚ) < 2 ^ e := by positivity
  have hhigh : r < (m + 1 / 2) * 2 ^ e := by nlinarith
  rw [Rounds]
  split
  · exact ⟨hgt.le, hhigh.le⟩
  · exact ⟨hgt, hhigh⟩

/-- Of the two multiples of a step that a number lies between, one is rounded to the number if the
step is shorter than the interval. -/
theorem rounds_multiple {step : ℚ} (hstep : step < (F.halfBelow m e + 1 / 2) * 2 ^ e) {d : ℕ}
    (hle : d * step ≤ m * 2 ^ e) (hlt : m * 2 ^ e < (d + 1) * step) :
  F.Rounds m e (d * step) ∨ F.Rounds m e ((d + 1) * step)
  := by
  by_cases hlow : (m - F.halfBelow m e) * 2 ^ e < d * step
  · left
    exact rounds_of_le hlow hle
  · right
    apply rounds_of_ge hlt.le
    nlinarith

end Format

end Rounding
