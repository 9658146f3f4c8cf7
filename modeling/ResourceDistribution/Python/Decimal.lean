import ResourceDistribution.Data.Rounding
import ResourceDistribution.Python.Scanner

/-!
# Floats as decimals

A float is written with the fewest digits that are read back as it. The digits are looked for within
the interval of the decimals that are rounded to the float, which seventeen digits are enough to meet
(`digitsAt_ne_none`), and a decimal of the interval is read as the float (`ofDecimal_eq`).
-/

open Rounding

namespace Python.Double

/-! ### Bits -/

/-- The double is a number. -/
def Finite (x : Double) : Prop := x.exponentBits < 2047

/-- The format of doubles. -/
def binary64 : Format := ⟨52, -1074⟩

theorem fraction_lt (x : Double) :
  x.fraction < 2 ^ 52
  := Nat.mod_lt _ (by decide)

/-- The bits of a double. -/
theorem toNat_bits (x : Double) :
  x.bits.toNat = (if x.negative then 2 ^ 63 else 0) + (x.exponentBits * 2 ^ 52 + x.fraction)
  := by
  have hlt : x.bits.toNat < 2 ^ 64 := x.bits.isLt
  by_cases hnegative : x.bits.toNat / 2 ^ 63 = 1
  · simp only [negative, exponentBits, fraction, hnegative, decide_true, if_true]
    omega
  · simp only [negative, exponentBits, fraction, hnegative, decide_false, Bool.false_eq_true,
      if_false]
    omega

/-- A finite double that is not zero is a number of the format. -/
theorem canonical {x : Double} (hfinite : x.Finite) (hne : x.mantissa ≠ 0) :
  binary64.Canonical x.mantissa x.exponent
  := by
  have hfraction := x.fraction_lt
  have hexponent : x.exponentBits < 2047 := hfinite
  rw [mantissa] at hne ⊢
  rw [exponent]
  split
  · rename_i hzero
    rw [if_pos hzero] at hne
    constructor
    · omega
    · simp only [binary64]
      omega
    · exact le_refl _
    · right
      rfl
  · constructor
    · omega
    · simp only [binary64]
      omega
    · simp only [binary64]
      omega
    · left
      simp only [binary64]
      omega

/-- The bits of a finite double, its sign apart, are its place among the numbers of the format. -/
theorem code_eq (x : Double) :
  binary64.code x.mantissa x.exponent = x.exponentBits * 2 ^ 52 + x.fraction
  := by
  rw [Format.code, mantissa, exponent]
  split
  · rename_i hzero
    rw [hzero]
    simp [binary64]
  · obtain ⟨k, hk⟩ : ∃ k, x.exponentBits = k + 1 := Nat.exists_eq_succ_of_ne_zero ‹_›
    have hsteps : ((x.exponentBits : ℤ) - 1075 - -1074).toNat = k := by omega
    simp only [binary64, hsteps]
    rw [hk, Nat.succ_mul, add_assoc]

/-! ### Reading -/

theorem isNearest_roundHalfEven (n : ℕ) {d : ℕ} (hd : 0 < d) :
  IsNearest ((n : ℚ) / d) (roundHalfEven n d)
  := by
  have hpos : (0 : ℚ) < d := by exact_mod_cast hd
  have hlt : n % d < d := Nat.mod_lt n hd
  have hdiv : (n : ℚ) = d * (n / d : ℕ) + (n % d : ℕ) := by exact_mod_cast (Nat.div_add_mod n d).symm
  have hlt' : ((n % d : ℕ) : ℚ) < d := by exact_mod_cast hlt
  have hnonneg : (0 : ℚ) ≤ (n % d : ℕ) := by positivity
  rw [roundHalfEven]
  generalize n / d = q, n % d = s at *
  split
  · rename_i hup
    have hle : (d : ℚ) ≤ 2 * s := by
      have hle : d ≤ 2 * s := by omega
      exact_mod_cast hle
    rw [IsNearest, le_div_iff₀ hpos, div_le_iff₀ hpos, lt_div_iff₀ hpos, div_lt_iff₀ hpos]
    push_cast
    split
    · constructor
      · nlinarith
      · nlinarith
    · have hlt : (d : ℚ) < 2 * s := by
        have hlt : d < 2 * s := by omega
        exact_mod_cast hlt
      constructor
      · nlinarith
      · nlinarith
  · rename_i hdown
    have hle : 2 * (s : ℚ) ≤ d := by
      have hle : 2 * s ≤ d := by omega
      exact_mod_cast hle
    rw [IsNearest, le_div_iff₀ hpos, div_le_iff₀ hpos, lt_div_iff₀ hpos, div_lt_iff₀ hpos]
    split
    · constructor
      · nlinarith
      · nlinarith
    · have hlt : 2 * (s : ℚ) < d := by
        have hlt : 2 * s < d := by omega
        exact_mod_cast hlt
      constructor
      · nlinarith
      · nlinarith

/-- The exponent with which a quotient is rounded, computed with natural numbers. -/
theorem exponent_div {n d : ℕ} (hn : n ≠ 0) (hd : d ≠ 0) :
  let k : ℤ := (Nat.log2 n : ℤ) - Nat.log2 d
  let position : ℤ := if n * 2 ^ (-k).toNat < d * 2 ^ k.toNat then k - 1 else k
  binary64.exponent ((n : ℚ) / d) = max (position - 52) (-1074)
  := by
  intro k position
  have hd' : (0 : ℚ) < d := by exact_mod_cast Nat.pos_of_ne_zero hd
  have hpos : (0 : ℚ) < n / d := by
    apply div_pos _ hd'
    exact_mod_cast Nat.pos_of_ne_zero hn
  have hlow : (2 : ℚ) ^ (Nat.log2 n) ≤ n := by exact_mod_cast Nat.log2_self_le hn
  have hhigh : (n : ℚ) < 2 ^ (Nat.log2 n + 1) := by exact_mod_cast Nat.lt_log2_self
  have hlow' : (2 : ℚ) ^ (Nat.log2 d) ≤ d := by exact_mod_cast Nat.log2_self_le hd
  have hhigh' : (d : ℚ) < 2 ^ (Nat.log2 d + 1) := by exact_mod_cast Nat.lt_log2_self
  have hbelow : (n * 2 ^ (-k).toNat < d * 2 ^ k.toNat) ↔ (n : ℚ) / d < 2 ^ k := by
    rw [zpow_eq_div (by norm_num : (2 : ℚ) ≠ 0), div_lt_div_iff₀ hd' (by positivity),
      mul_comm (2 ^ k.toNat : ℚ)]
    exact_mod_cast Iff.rfl
  have hlog : Int.log 2 ((n : ℚ) / d) = position := by
    have hsplit : (2 : ℚ) ^ k = 2 ^ (Nat.log2 n) / 2 ^ (Nat.log2 d) := by
      rw [zpow_sub₀ (by norm_num), zpow_natCast, zpow_natCast]
    apply le_antisymm
    · apply Int.lt_add_one_iff.mp
      apply (Int.lt_zpow_iff_log_lt (b := 2) (by norm_num) hpos).mp
      push_cast
      simp only [position]
      split
      · rename_i hlt
        rw [sub_add_cancel]
        apply hbelow.mp hlt
      · rw [zpow_add_one₀ (by norm_num), hsplit, div_mul_eq_mul_div,
          div_lt_div_iff₀ hd' (by positivity)]
        rw [pow_succ] at hhigh
        nlinarith [hhigh, hlow']
    · apply (Int.zpow_le_iff_le_log (b := 2) (by norm_num) hpos).mp
      push_cast
      simp only [position]
      split
      · rw [zpow_sub_one₀ (by norm_num), hsplit, ← div_eq_mul_inv, div_div,
          div_le_div_iff₀ (by positivity) hd']
        rw [pow_succ] at hhigh'
        nlinarith [hlow, hhigh']
      · rename_i hge
        apply not_lt.mp
        intro hlt
        exact hge (hbelow.mpr hlt)
  rw [Format.exponent, hlog]
  rfl

/-- The quotient that a decimal is. -/
theorem decimal_eq_div (m : ℕ) (p : ℤ) :
  (m : ℚ) * 10 ^ p = (m * 10 ^ p.toNat : ℕ) / (10 ^ (-p).toNat : ℕ)
  := by
  rw [zpow_eq_div (by norm_num : (10 : ℚ) ≠ 0), mul_div_assoc']
  push_cast
  rfl

/-- A decimal that is rounded to a double is read as the double. -/
theorem ofDecimal_eq {x : Double} (hfinite : x.Finite) (hne : x.mantissa ≠ 0) {m : ℕ} {p : ℤ}
    (h : binary64.Rounds x.mantissa x.exponent (m * 10 ^ p)) :
  ofDecimal x.negative m p = x
  := by
  have hcanonical := canonical hfinite hne
  have hpos := h.pos hcanonical.pos
  rw [decimal_eq_div] at h hpos
  set n := m * 10 ^ p.toNat with hn
  set d := 10 ^ (-p).toNat with hd
  have hd0 : 0 < d := by positivity
  have hn0 : n ≠ 0 := by
    intro hzero
    rw [hzero, Nat.cast_zero, zero_div] at hpos
    exact lt_irrefl _ hpos
  have hexponent := exponent_div hn0 hd0.ne'
  simp only at hexponent
  rw [ofDecimal]
  simp only [← hn, ← hd, ← hexponent, if_neg hn0]
  set e := binary64.exponent ((n : ℚ) / d) with he
  have hquotient : ((n * 2 ^ (-e).toNat : ℕ) : ℚ) / (d * 2 ^ e.toNat : ℕ) = n / d / 2 ^ e := by
    rw [zpow_eq_div (by norm_num : (2 : ℚ) ≠ 0)]
    have hd' : (d : ℚ) ≠ 0 := by exact_mod_cast hd0.ne'
    push_cast
    field_simp
  have hnearest := isNearest_roundHalfEven (n * 2 ^ (-e).toNat)
    (d := d * 2 ^ e.toNat) (by positivity)
  rw [hquotient] at hnearest
  have hcode := h.code_eq hcanonical hnearest
  rw [code_eq, Format.code] at hcode
  change (e - -1074).toNat * 2 ^ 52 + _ = _ at hcode
  rw [sub_neg_eq_add] at hcode
  rw [hcode]
  have hlt : x.exponentBits * 2 ^ 52 + x.fraction ≤ 2047 * 2 ^ 52 := by
    have hexp : x.exponentBits < 2047 := hfinite
    have hfraction := x.fraction_lt
    omega
  rw [min_eq_left hlt, ← toNat_bits, BitVec.ofNat_toNat, BitVec.setWidth_eq]

/-! ### Writing -/

/-- A number that is scaled is the number times the common denominator. -/
theorem scaled_cast (m : ℕ) (e p : ℤ) :
  (scaled (-e).toNat p.toNat m e p : ℚ)
    = m * 2 ^ e / 10 ^ p * (2 ^ (-e).toNat * 10 ^ p.toNat : ℕ)
  := by
  have hsum : ((-e).toNat + e).toNat = e.toNat := by omega
  have hdifference : (p.toNat - p).toNat = (-p).toNat := by omega
  rw [scaled, hsum, hdifference, zpow_eq_div (by norm_num : (2 : ℚ) ≠ 0),
    zpow_eq_div (by norm_num : (10 : ℚ) ≠ 0)]
  push_cast
  field_simp

/-- A number that is scaled is compared with a multiple of the common denominator as the number is
with a multiple of the last place. -/
theorem scaled_compare (m d : ℕ) (e p : ℤ) :
  let n := scaled (-e).toNat p.toNat m e p
  let one := 2 ^ (-e).toNat * 10 ^ p.toNat
  (n ≤ d * one ↔ (m : ℚ) * 2 ^ e ≤ d * 10 ^ p) ∧ (n < d * one ↔ (m : ℚ) * 2 ^ e < d * 10 ^ p) ∧
    (d * one ≤ n ↔ (d : ℚ) * 10 ^ p ≤ m * 2 ^ e) ∧ (d * one < n ↔ (d : ℚ) * 10 ^ p < m * 2 ^ e)
  := by
  intro n one
  have hone : (0 : ℚ) < one := by
    have hpos : 0 < one := by positivity
    exact_mod_cast hpos
  have hten : (0 : ℚ) < 10 ^ p := by positivity
  rw [← @Nat.cast_le ℚ, ← @Nat.cast_lt ℚ, ← @Nat.cast_le ℚ, ← @Nat.cast_lt ℚ, scaled_cast,
    Nat.cast_mul d]
  rw [mul_le_mul_iff_left₀ hone, mul_lt_mul_iff_left₀ hone, mul_le_mul_iff_left₀ hone,
    mul_lt_mul_iff_left₀ hone, div_le_iff₀ hten, div_lt_iff₀ hten, le_div_iff₀ hten,
    lt_div_iff₀ hten]
  exact ⟨Iff.rfl, Iff.rfl, Iff.rfl, Iff.rfl⟩

/-- The last place of a double in quarters. -/
theorem two_zpow_exponent (x : Double) :
  (2 : ℚ) ^ x.exponent = 4 * 2 ^ (x.exponent - 2)
  := by
  rw [zpow_sub₀ (by norm_num)]
  norm_num
  ring

/-- The way to the next double below, halved, in quarters of the last place. -/
theorem halfBelow_eq (x : Double) :
  binary64.halfBelow x.mantissa x.exponent
    = (if x.fraction = 0 ∧ 1 < x.exponentBits then 1 else 2 : ℕ) / 4
  := by
  have hiff : (x.mantissa = 2 ^ 52 ∧ (-1074 : ℤ) < x.exponent) ↔
      x.fraction = 0 ∧ 1 < x.exponentBits := by
    have hfraction := x.fraction_lt
    rw [mantissa, exponent]
    split
    · omega
    · omega
  rw [Format.halfBelow]
  simp only [binary64, hiff]
  split
  · norm_num
  · norm_num

/-- What `digitsAt` asks of digits. -/
def Within (x : Double) (p : ℤ) (d : ℕ) : Prop :=
  let e := x.exponent - 2
  let high := scaled (-e).toNat p.toNat (4 * x.mantissa + 2) e p
  let low := scaled (-e).toNat p.toNat
    (4 * x.mantissa - if x.fraction = 0 ∧ 1 < x.exponentBits then 1 else 2) e p
  let one := 2 ^ (-e).toNat * 10 ^ p.toNat
  if x.mantissa % 2 = 0 then low ≤ d * one ∧ d * one ≤ high else low < d * one ∧ d * one < high

instance (x : Double) (p : ℤ) (d : ℕ) : Decidable (x.Within p d) :=
  inferInstanceAs (Decidable (ite _ _ _))

/-- The digits before the place `p`, or these and one more, if they are within the interval. -/
theorem digitsAt_eq (x : Double) (p : ℤ) :
  let e := x.exponent - 2
  let v := scaled (-e).toNat p.toNat (4 * x.mantissa) e p
  let one := 2 ^ (-e).toNat * 10 ^ p.toNat
  let d := v / one
  x.digitsAt p =
    if x.Within p d ∧ (¬ x.Within p (d + 1) ∨ v - d * one < (d + 1) * one - v ∨
      (v - d * one = (d + 1) * one - v ∧ d % 2 = 0)) then some d
    else if x.Within p (d + 1) then some (d + 1)
    else none
  := by
  rfl

/-- The digits that are looked for are those of the decimals that are rounded to the double. -/
theorem within_iff {x : Double} (hne : x.mantissa ≠ 0) (p : ℤ) (d : ℕ) :
  x.Within p d ↔ binary64.Rounds x.mantissa x.exponent (d * 10 ^ p)
  := by
  set below := if x.fraction = 0 ∧ 1 < x.exponentBits then 1 else 2 with hbelow
  have hle : below ≤ 4 * x.mantissa := by
    rw [hbelow]
    split
    · omega
    · omega
  have hlow : ((4 * x.mantissa - below : ℕ) : ℚ) * 2 ^ (x.exponent - 2)
      = (x.mantissa - binary64.halfBelow x.mantissa x.exponent) * 2 ^ x.exponent := by
    rw [halfBelow_eq, two_zpow_exponent, ← hbelow, Nat.cast_sub hle]
    push_cast
    ring
  have hhigh : ((4 * x.mantissa + 2 : ℕ) : ℚ) * 2 ^ (x.exponent - 2)
      = (x.mantissa + 1 / 2) * 2 ^ x.exponent := by
    rw [two_zpow_exponent]
    push_cast
    ring
  obtain ⟨hle, hlt, -, -⟩ := scaled_compare (4 * x.mantissa - below) d (x.exponent - 2) p
  obtain ⟨-, -, hle', hlt'⟩ := scaled_compare (4 * x.mantissa + 2) d (x.exponent - 2) p
  rw [hlow] at hle hlt
  rw [hhigh] at hle' hlt'
  rw [Within, Format.Rounds, ← hbelow]
  rw [hle, hlt, hle', hlt']

/-- The digits that are found are those of a decimal that is rounded to the double. -/
theorem rounds_of_digitsAt {x : Double} (hne : x.mantissa ≠ 0) {p : ℤ} {d : ℕ}
    (h : x.digitsAt p = some d) :
  binary64.Rounds x.mantissa x.exponent (d * 10 ^ p)
  := by
  rw [digitsAt_eq] at h
  split at h
  · rename_i hrounds
    rw [← Option.some.inj h]
    apply (within_iff hne p _).mp hrounds.1
  · split at h
    · rename_i hrounds
      rw [← Option.some.inj h]
      apply (within_iff hne p _).mp hrounds
    · cases h

/-- Digits are found if their last place is shorter than the interval of the double. -/
theorem digitsAt_ne_none {x : Double} (hne : x.mantissa ≠ 0) {p : ℤ}
    (hp : (10 : ℚ) ^ p
      < (binary64.halfBelow x.mantissa x.exponent + 1 / 2) * 2 ^ x.exponent) :
  x.digitsAt p ≠ none
  := by
  set v := scaled (-(x.exponent - 2)).toNat p.toNat (4 * x.mantissa) (x.exponent - 2) p with hv
  set one := 2 ^ (-(x.exponent - 2)).toNat * 10 ^ p.toNat with hone
  have hpos : 0 < one := by positivity
  have hvalue : ((4 * x.mantissa : ℕ) : ℚ) * 2 ^ (x.exponent - 2)
      = x.mantissa * 2 ^ x.exponent := by
    rw [two_zpow_exponent]
    push_cast
    ring
  obtain ⟨-, -, hle, -⟩ := scaled_compare (4 * x.mantissa) (v / one) (x.exponent - 2) p
  obtain ⟨-, hlt, -, -⟩ := scaled_compare (4 * x.mantissa) (v / one + 1) (x.exponent - 2) p
  rw [← hv, ← hone, hvalue] at hle hlt
  -- the double lies between two multiples of the last place
  replace hle := hle.mp (Nat.div_mul_le_self v one)
  replace hlt := hlt.mp (Nat.lt_mul_of_div_lt (Nat.lt_succ_self _) hpos)
  push_cast at hlt
  rw [digitsAt_eq, ← hv, ← hone]
  split
  · simp
  · rename_i hnot
    split
    · simp
    · rename_i hnot'
      rcases Format.rounds_multiple hp hle hlt with hrounds | hrounds
      · exact absurd ⟨(within_iff hne p _).mpr hrounds, .inl hnot'⟩ hnot
      · apply absurd ((within_iff hne p _).mpr _) hnot'
        exact_mod_cast hrounds

/-- The number that a finite double is, its sign apart. -/
def magnitude (x : Double) : ℚ := x.mantissa * 2 ^ x.exponent

/-- Doubles are less than the power of two that would be the next one. -/
theorem magnitude_lt {x : Double} (hfinite : x.Finite) :
  x.magnitude < 2 ^ 1024
  := by
  have hmantissa : (x.mantissa : ℚ) < 2 ^ 53 := by
    have hfraction := x.fraction_lt
    have hlt : x.mantissa < 2 ^ 53 := by
      rw [mantissa]
      split
      · omega
      · omega
    exact_mod_cast hlt
  have hexponent : x.exponent ≤ 971 := by
    have hlt : x.exponentBits < 2047 := hfinite
    rw [exponent]
    split
    · omega
    · omega
  have hpow : (2 : ℚ) ^ x.exponent ≤ 2 ^ (971 : ℤ) := zpow_le_zpow_right₀ (by norm_num) hexponent
  have hpos : (0 : ℚ) < 2 ^ x.exponent := by positivity
  calc
    x.magnitude < 2 ^ 53 * 2 ^ x.exponent := mul_lt_mul_of_pos_right hmantissa hpos
    _ ≤ 2 ^ 53 * 2 ^ (971 : ℤ) := mul_le_mul_of_nonneg_left hpow (by norm_num)
    _ = 2 ^ 1024 := by
      rw [show (971 : ℤ) = (971 : ℕ) by rfl, zpow_natCast, ← pow_add]

/-- The smallest positive double. -/
theorem le_magnitude {x : Double} (hne : x.mantissa ≠ 0) :
  (2 : ℚ) ^ (-1074 : ℤ) ≤ x.magnitude
  := by
  have hexponent : -1074 ≤ x.exponent := by
    rw [exponent]
    split
    · omega
    · omega
  have hpow : (2 : ℚ) ^ (-1074 : ℤ) ≤ 2 ^ x.exponent :=
    zpow_le_zpow_right₀ (by norm_num) hexponent
  have hone : (1 : ℚ) ≤ x.mantissa := by exact_mod_cast Nat.pos_of_ne_zero hne
  apply hpow.trans
  apply le_mul_of_one_le_left (by positivity) hone

/-- What `pointPosition` looks for. -/
def Below (x : Double) (k : ℤ) : Prop :=
  x.mantissa * 2 ^ x.exponent.toNat * 10 ^ (-k).toNat < 2 ^ (-x.exponent).toNat * 10 ^ k.toNat

instance (x : Double) (k : ℤ) : Decidable (x.Below k) :=
  inferInstanceAs (Decidable (_ < _))

theorem below_iff (x : Double) (k : ℤ) :
  x.Below k ↔ x.magnitude < 10 ^ k
  := by
  rw [magnitude, zpow_eq_div (by norm_num : (2 : ℚ) ≠ 0), zpow_eq_div (by norm_num : (10 : ℚ) ≠ 0),
    ← mul_div_assoc, div_lt_div_iff₀ (by positivity) (by positivity),
    mul_comm ((10 : ℚ) ^ k.toNat)]
  exact_mod_cast Iff.rfl

/-- The decimal point stands before the first digit of a double times this power of ten. -/
theorem pointPosition_spec {x : Double} (hfinite : x.Finite) (hne : x.mantissa ≠ 0) :
  (10 : ℚ) ^ (x.pointPosition - 1) ≤ x.magnitude ∧ x.magnitude < 10 ^ x.pointPosition
  := by
  have hposition : x.pointPosition
      = (((List.range 640).find? fun i : ℕ => decide (x.Below ((i : ℤ) - 330))).map
          fun i : ℕ => (i : ℤ) - 330).getD 310 := by
    rw [pointPosition, List.find?_map]
    rfl
  have hhigh : x.Below ((639 : ℕ) - 330 : ℤ) := by
    apply (below_iff x _).mpr
    apply (magnitude_lt hfinite).trans_le
    have hle : 2 ^ 1024 ≤ 10 ^ 309 := by decide +kernel
    rw [show ((639 : ℕ) - 330 : ℤ) = (309 : ℕ) by norm_num, zpow_natCast]
    exact_mod_cast hle
  cases hfind : (List.range 640).find? fun i : ℕ => decide (x.Below ((i : ℤ) - 330)) with
  | none =>
      have hnone := List.find?_eq_none.mp hfind 639 (by simp)
      exact absurd (decide_eq_true hhigh) hnone
  | some i =>
      rw [hposition, hfind, Option.map_some, Option.getD_some]
      obtain ⟨hbelow, -, hleast⟩ := List.find?_range_eq_some.mp hfind
      constructor
      · cases i with
        | zero =>
            have hlow : ¬ x.Below ((0 : ℕ) - 330 : ℤ) := by
              rw [below_iff, not_lt]
              apply le_trans _ (le_magnitude hne)
              have hle : 2 ^ 1074 ≤ 10 ^ 330 := by decide +kernel
              rw [show ((0 : ℕ) - 330 : ℤ) = -(330 : ℕ) by norm_num, zpow_neg, zpow_natCast,
                show (-1074 : ℤ) = -(1074 : ℕ) by norm_num, zpow_neg, zpow_natCast,
                inv_le_inv₀ (by positivity) (by positivity)]
              exact_mod_cast hle
            exact absurd (of_decide_eq_true hbelow) hlow
        | succ i =>
            have hnot := hleast i (Nat.lt_succ_self i)
            rw [Bool.not_eq_true', decide_eq_false_iff_not, below_iff, not_lt] at hnot
            push_cast
            rw [show (i : ℤ) + 1 - 330 - 1 = i - 330 by ring]
            exact hnot
      · exact (below_iff x _).mp (of_decide_eq_true hbelow)

/-- The interval of a double is longer than the place of its seventeenth digit. -/
theorem seventeen_digits {x : Double} (hfinite : x.Finite) (hne : x.mantissa ≠ 0) :
  (10 : ℚ) ^ (x.pointPosition - 17)
    < (binary64.halfBelow x.mantissa x.exponent + 1 / 2) * 2 ^ x.exponent
  := by
  have hpow : (0 : ℚ) < 2 ^ x.exponent := by positivity
  have hlow := (pointPosition_spec hfinite hne).1
  have hsplit : (10 : ℚ) ^ (x.pointPosition - 17) = 10 ^ (x.pointPosition - 1) / 10 ^ 16 := by
    rw [show x.pointPosition - 17 = x.pointPosition - 1 - (16 : ℕ) by push_cast; ring,
      zpow_sub₀ (by norm_num), zpow_natCast]
  have hwidth : (x.mantissa : ℚ) / 10 ^ 16 < binary64.halfBelow x.mantissa x.exponent + 1 / 2 := by
    rw [Format.halfBelow]
    split
    · rename_i hbelow
      rw [hbelow.1]
      norm_num [binary64]
    · have hlt : x.mantissa < 2 ^ (52 + 1) := (canonical hfinite hne).lt
      have hlt' : (x.mantissa : ℚ) < 2 ^ (52 + 1) := by exact_mod_cast hlt
      rw [div_lt_iff₀ (by norm_num)]
      apply hlt'.trans
      norm_num
  rw [hsplit]
  calc
    (10 : ℚ) ^ (x.pointPosition - 1) / 10 ^ 16 ≤ x.magnitude / 10 ^ 16 :=
      div_le_div_of_nonneg_right hlow (by norm_num)
    _ = x.mantissa / 10 ^ 16 * 2 ^ x.exponent := by
      rw [magnitude]
      ring
    _ < _ := mul_lt_mul_of_pos_right hwidth hpow

/-- What is found is a decimal that is rounded to the double. -/
theorem exists_shortest_eq {x : Double} (hfinite : x.Finite) (hne : x.mantissa ≠ 0) :
  ∃ (d : ℕ) (p : ℤ), binary64.Rounds x.mantissa x.exponent (d * 10 ^ p) ∧
    x.shortest = ((Nat.toDigits 10 d).take 1 ++ ((Nat.toDigits 10 d).drop 1).rdropWhile (· = '0'),
      p + (Nat.toDigits 10 d).length)
  := by
  have hrange : (do let n ← List.range 18; pure (n : ℤ)) = (List.range 18).map Nat.cast := rfl
  simp only [shortest, if_neg hne, hrange, List.findSome?_map]
  cases hfound : (List.range 18).findSome?
      ((fun n : ℤ => (x.digitsAt (x.pointPosition - n)).map fun d => (d, x.pointPosition - n)) ∘
        Nat.cast) with
  | none =>
      have hnone := List.findSome?_eq_none_iff.mp hfound 17 (by simp)
      rw [Function.comp_apply, Option.map_eq_none_iff] at hnone
      exact absurd hnone (digitsAt_ne_none hne (seventeen_digits hfinite hne))
  | some i =>
      obtain ⟨n, -, hn⟩ := List.exists_of_findSome?_eq_some hfound
      obtain ⟨d, hd, rfl⟩ := Option.map_eq_some_iff.mp hn
      exact ⟨d, _, rounds_of_digitsAt hne hd, rfl⟩

/-- Of digits, only zeros at the end are dropped. -/
theorem exists_append_zeros (ds : List Char) :
  ∃ z, ds = ds.rdropWhile (· = '0') ++ List.replicate z '0'
  := by
  use (ds.rtakeWhile (· = '0')).length
  have hzeros : ds.rtakeWhile (· = '0') = List.replicate (ds.rtakeWhile (· = '0')).length '0' := by
    apply List.eq_replicate_of_mem
    intro c hc
    have hall := List.rtakeWhile_eq_self_iff.mp (List.rtakeWhile_idempotent (· = '0') ds) c hc
    simpa using hall
  rw [← hzeros, List.rdropWhile_append_rtakeWhile]

/-- Zeros at the end of digits are powers of ten. -/
theorem ofDigitChars_append_zeros (ds : List Char) (z : ℕ) :
  Nat.ofDigitChars 10 (ds ++ List.replicate z '0') 0 = Nat.ofDigitChars 10 ds 0 * 10 ^ z
  := by
  rw [Nat.ofDigitChars_append, Nat.ofDigitChars_replicate_zero, mul_comm]

/-- The digits of a double are the decimal that is rounded to it, with the point at its place. -/
theorem shortest_spec {x : Double} (hfinite : x.Finite) (hne : x.mantissa ≠ 0) :
  ∃ c ds point, x.shortest = (c :: ds, point) ∧ c ≠ '0' ∧
    (∀ d ∈ c :: ds, d.isDigit = true) ∧
    binary64.Rounds x.mantissa x.exponent
      (Nat.ofDigitChars 10 (c :: ds) 0 * 10 ^ (point - (c :: ds).length))
  := by
  obtain ⟨d, p, hrounds, hshortest⟩ := exists_shortest_eq hfinite hne
  have hd : d ≠ 0 := by
    rintro rfl
    have hpos := hrounds.pos (Nat.pos_of_ne_zero hne)
    simp at hpos
  obtain ⟨c, l, hdigits, -, hzero⟩ := Json.exists_toDigits_eq_cons d
  obtain ⟨z, hz⟩ := exists_append_zeros l
  have hdigit : ∀ e ∈ x.shortest.1, e.isDigit = true := fun _ he => isDigit_of_mem_shortest he
  rw [hshortest, hdigits, List.take_succ_cons, List.take_zero, List.drop_one, List.tail_cons,
    List.singleton_append] at hdigit
  rw [hshortest, hdigits, List.take_succ_cons, List.take_zero, List.drop_one, List.tail_cons,
    List.singleton_append]
  refine ⟨c, _, _, rfl, hzero hd, hdigit, ?_⟩
  generalize l.rdropWhile (· = '0') = ds at hz hdigit ⊢
  subst hz
  have hvalue : d = Nat.ofDigitChars 10 (c :: ds) 0 * 10 ^ z := by
    rw [← ofDigitChars_append_zeros, List.cons_append, ← hdigits, Nat.ofDigitChars_ten_toDigits]
  have hplace : p + ((c :: (ds ++ List.replicate z '0')).length : ℕ) - ((c :: ds).length : ℕ)
      = p + z := by
    simp only [List.length_cons, List.length_append, List.length_replicate]
    push_cast
    ring
  rw [hplace, zpow_add₀ (by norm_num), zpow_natCast]
  rw [hvalue] at hrounds
  convert hrounds using 1
  push_cast
  ring

/-! ### The text of a float -/

/-- Digits with an exponent. -/
def scientific (ds : List Char) (point : ℤ) : List Char :=
  let e := point - 1
  let es := Nat.toDigits 10 e.natAbs
  ds.take 1 ++ (if ds.length = 1 then [] else '.' :: ds.drop 1)
    ++ 'e' :: (if e < 0 then '-' else '+') :: List.replicate (2 - es.length) '0' ++ es

/-- Digits after a point and zeros. -/
def afterPoint (ds : List Char) (point : ℤ) : List Char :=
  '0' :: '.' :: List.replicate (-point).toNat '0' ++ ds

/-- Digits before a point, with zeros where there are none, and after it. -/
def aroundPoint (ds : List Char) (point : ℤ) : List Char :=
  let n := point.toNat
  ds.take n ++ List.replicate (n - ds.length) '0'
    ++ '.' :: (if ds.length ≤ n then ['0'] else ds.drop n)

/-- The text of a finite double, its sign apart. -/
def body (ds : List Char) (point : ℤ) : List Char :=
  if point ≤ -4 ∨ 16 < point then scientific ds point
  else if point ≤ 0 then afterPoint ds point
  else aroundPoint ds point

theorem repr_eq {x : Double} (hfinite : x.Finite) :
  x.repr = (Json.sign x.negative ++ body x.shortest.1 x.shortest.2).map .scalar
  := by
  have hne : x.exponentBits ≠ 2047 := ne_of_lt hfinite
  have hnan : x.isNan = false := by simp [isNan, hne]
  have hinf : x.isInf = false := by simp [isInf, hne]
  rw [repr, hnan, hinf]
  rfl

/-- A text is read as a float that has the given sign and is the decimal of the digits. -/
def ReadAs (negative : Bool) (ds : List Char) (point : ℤ) (text rest : List Char) : Prop :=
  ∃ (m : ℕ) (p : ℤ),
    (∀ n room, Json.scanValue (n + 1) room (Json.sign negative ++ (text ++ rest))
      = .ok (.float (ofDecimal negative m p), rest)) ∧
    (m : ℚ) * 10 ^ p = Nat.ofDigitChars 10 ds 0 * 10 ^ (point - ds.length)

theorem readAs_of (negative : Bool) {ds whole s s' text rest : List Char} {point : ℤ}
    (hwhole : Json.Whole whole) (hs : Json.NoDigit s) {fraction : Option (List Char)}
    (hfraction : Json.scanFraction s = (fraction, s')) {exponent : Option ℤ}
    (hexponent : Json.scanExponent s' = (exponent, rest))
    (hfloat : ¬ (fraction = none ∧ exponent = none)) (htext : text ++ rest = whole ++ s)
    (hvalue : (Nat.ofDigitChars 10 (whole ++ fraction.getD []) 0 : ℚ)
        * 10 ^ (exponent.getD 0 - (fraction.getD []).length)
      = Nat.ofDigitChars 10 ds 0 * 10 ^ (point - ds.length)) :
  ReadAs negative ds point text rest
  := by
  refine ⟨_, _, ?_, hvalue⟩
  intro n room
  rw [htext, Json.scanValue_sign negative hwhole]
  apply Json.scanNumber_float negative hwhole hs hfraction hexponent hfloat

theorem noDigit_cons {c : Char} (hc : c.isDigit = false) (rest : List Char) :
  Json.NoDigit (c :: rest)
  := by
  intro d hd
  rw [← Option.mem_some_iff.mp hd]
  exact hc

/-- The text of an exponent is read as the exponent. -/
theorem scanExponent_text (e : ℤ) {rest : List Char} (hrest : Json.NoDigit rest) :
  Json.scanExponent ('e' :: (if e < 0 then '-' else '+')
      :: (List.replicate (2 - (Nat.toDigits 10 e.natAbs).length) '0' ++ Nat.toDigits 10 e.natAbs
        ++ rest))
    = (some e, rest)
  := by
  set es := List.replicate (2 - (Nat.toDigits 10 e.natAbs).length) '0' ++ Nat.toDigits 10 e.natAbs
    with hes
  have hdigits : ∀ d ∈ es, d.isDigit = true := by
    intro d hd
    rcases List.mem_append.mp hd with hd | hd
    · rw [List.eq_of_mem_replicate hd]
      rfl
    · apply Json.isDigit_of_mem_toDigits hd
  have hne : es ≠ [] := List.append_ne_nil_of_right_ne_nil _ Nat.toDigits_ne_nil
  have hvalue : (if decide (e < 0) = true then -(Nat.ofDigitChars 10 es 0 : ℤ)
      else Nat.ofDigitChars 10 es 0) = e := by
    rw [hes, Nat.ofDigitChars_append, Nat.ofDigitChars_replicate_zero, mul_zero,
      Nat.ofDigitChars_ten_toDigits]
    split
    · rename_i hneg
      have hlt := of_decide_eq_true hneg
      omega
    · rename_i hneg
      rw [decide_eq_true_eq] at hneg
      omega
  have hscan := Json.scanExponent_e (decide (e < 0)) hdigits hne hrest
  rw [hvalue] at hscan
  simpa only [decide_eq_true_eq] using hscan

section Reading

variable (negative : Bool) {c : Char} {ds : List Char} {rest : List Char}

theorem readAs_scientific (hdigits : ∀ d ∈ c :: ds, d.isDigit = true) (hrest : Json.Ends rest)
    (point : ℤ) :
  ReadAs negative (c :: ds) point (scientific (c :: ds) point) rest
  := by
  obtain ⟨hnodigit, -, -⟩ := hrest.scan
  have hexponent := scanExponent_text (point - 1) hnodigit
  have hwhole : Json.Whole [c] := by
    constructor
    · intro d hd
      rw [List.mem_singleton.mp hd]
      apply hdigits c List.mem_cons_self
    · apply List.cons_ne_nil
    · by_cases hc : c = '0'
      · left
        rw [hc]
      · right
        intro h
        apply hc (Option.some.inj h)
  have he := noDigit_cons (c := 'e') rfl ((if point - 1 < 0 then '-' else '+')
      :: (List.replicate (2 - (Nat.toDigits 10 (point - 1).natAbs).length) '0'
        ++ Nat.toDigits 10 (point - 1).natAbs ++ rest))
  cases ds with
  | nil =>
      have hfraction (s : List Char) : Json.scanFraction ('e' :: s) = (none, 'e' :: s) := rfl
      apply readAs_of negative hwhole he (hfraction _) hexponent (by simp)
      · simp [scientific]
      · simp
  | cons d ds =>
      have hfraction := Json.scanFraction_point
        (fun _ h => hdigits _ (List.mem_cons_of_mem _ h)) (List.cons_ne_nil d ds) he
      apply readAs_of negative hwhole (noDigit_cons rfl _) hfraction hexponent (by simp)
      · simp [scientific]
      · simp only [Option.getD_some, List.singleton_append, List.length_cons]
        congr 2
        push_cast
        ring

theorem readAs_afterPoint (hdigits : ∀ d ∈ c :: ds, d.isDigit = true) (hrest : Json.Ends rest)
    {point : ℤ} (hpoint : point ≤ 0) :
  ReadAs negative (c :: ds) point (afterPoint (c :: ds) point) rest
  := by
  obtain ⟨hnodigit, -, hexponent⟩ := hrest.scan
  set zeros := List.replicate (-point).toNat '0' with hzeros
  have hall : ∀ d ∈ zeros ++ c :: ds, d.isDigit = true := by
    intro d hd
    rcases List.mem_append.mp hd with hd | hd
    · rw [List.eq_of_mem_replicate hd]
      rfl
    · apply hdigits d hd
  have hfraction := Json.scanFraction_point hall
    (List.append_ne_nil_of_right_ne_nil _ (List.cons_ne_nil c ds)) hnodigit
  apply readAs_of negative (Json.whole_toDigits 0) (noDigit_cons rfl _) hfraction hexponent (by simp)
  · simp only [afterPoint, hzeros, List.append_assoc, List.cons_append]
    rfl
  · have hvalue : Nat.ofDigitChars 10 (Nat.toDigits 10 0 ++ (zeros ++ c :: ds)) 0
        = Nat.ofDigitChars 10 (c :: ds) 0 := by
      rw [Nat.ofDigitChars_append, Nat.ofDigitChars_ten_toDigits, Nat.ofDigitChars_append, hzeros,
        Nat.ofDigitChars_replicate_zero, mul_zero]
    have hplace : (0 : ℤ) - (zeros ++ c :: ds).length = point - (c :: ds).length := by
      rw [List.length_append, hzeros, List.length_replicate]
      omega
    rw [Option.getD_some, Option.getD_none, hvalue, hplace]

theorem readAs_aroundPoint (hc : c ≠ '0') (hdigits : ∀ d ∈ c :: ds, d.isDigit = true)
    (hrest : Json.Ends rest) {point : ℤ} (hpoint : 0 < point) :
  ReadAs negative (c :: ds) point (aroundPoint (c :: ds) point) rest
  := by
  obtain ⟨hnodigit, -, hexponent⟩ := hrest.scan
  obtain ⟨n, hn⟩ : ∃ n : ℕ, point = n + 1 := ⟨point.toNat - 1, by omega⟩
  have htoNat : point.toNat = n + 1 := by omega
  set zeros := List.replicate (point.toNat - (c :: ds).length) '0' with hzeros
  have hwhole : Json.Whole ((c :: ds).take point.toNat ++ zeros) := by
    rw [htoNat, List.take_succ_cons]
    constructor
    · intro d hd
      rcases List.mem_append.mp hd with hd | hd
      · apply hdigits d
        rcases List.mem_cons.mp hd with rfl | hd
        · apply List.mem_cons_self
        · apply List.mem_cons_of_mem _ (List.mem_of_mem_take hd)
      · rw [List.eq_of_mem_replicate hd]
        rfl
    · apply List.append_ne_nil_of_left_ne_nil (List.cons_ne_nil _ _)
    · right
      intro h
      apply hc (Option.some.inj h)
  by_cases hle : (c :: ds).length ≤ point.toNat
  · have hfraction := Json.scanFraction_point
      (show ∀ c ∈ ['0'], c.isDigit = true by simp) (by simp) hnodigit
    apply readAs_of negative hwhole (noDigit_cons rfl _) hfraction hexponent (by simp)
    · simp only [aroundPoint, if_pos hle, ← hzeros, List.append_assoc, List.cons_append]
    · have hvalue : Nat.ofDigitChars 10 ((c :: ds).take point.toNat ++ zeros ++ ['0']) 0
          = Nat.ofDigitChars 10 (c :: ds) 0 * 10 ^ (point.toNat - (c :: ds).length + 1) := by
        rw [List.take_of_length_le hle, List.append_assoc, hzeros, ← List.replicate_succ',
          ofDigitChars_append_zeros]
      have hplace : point - (c :: ds).length
          = ((point.toNat - (c :: ds).length + 1 : ℕ) : ℤ) + (0 - 1) := by
        omega
      rw [Option.getD_some, Option.getD_none, hvalue, hplace, zpow_add₀ (by norm_num), zpow_natCast]
      push_cast
      rw [← mul_assoc]
      rfl
  · have hne : (c :: ds).drop point.toNat ≠ [] := by
      intro h
      apply hle
      apply List.drop_eq_nil_iff.mp h
    have hfraction := Json.scanFraction_point
      (fun d hd => hdigits d (List.mem_of_mem_drop hd)) hne hnodigit
    apply readAs_of negative hwhole (noDigit_cons rfl _) hfraction hexponent (by simp)
    · simp only [aroundPoint, if_neg hle, ← hzeros, List.append_assoc, List.cons_append]
    · have hnil : zeros = [] := by
        rw [hzeros, Nat.sub_eq_zero_of_le (by omega)]
        rfl
      have hplace : (0 : ℤ) - ((c :: ds).drop point.toNat).length = point - (c :: ds).length := by
        rw [List.length_drop]
        omega
      rw [Option.getD_some, Option.getD_none, hnil, List.append_nil, List.take_append_drop, hplace]

/-- The text of a finite double is read as a decimal with its digits. -/
theorem readAs_body (hc : c ≠ '0') (hdigits : ∀ d ∈ c :: ds, d.isDigit = true)
    (hrest : Json.Ends rest) (point : ℤ) :
  ReadAs negative (c :: ds) point (body (c :: ds) point) rest
  := by
  rw [body]
  split
  · apply readAs_scientific negative hdigits hrest
  · split
    · apply readAs_afterPoint negative hdigits hrest ‹_›
    · apply readAs_aroundPoint negative hc hdigits hrest (not_le.mp ‹_›)

end Reading

/-- Zero, of either sign, is read as it was written. -/
theorem ofDecimal_zero {x : Double} (hzero : x.mantissa = 0) (p : ℤ) :
  ofDecimal x.negative 0 p = x
  := by
  have hbits : x.exponentBits = 0 ∧ x.fraction = 0 := by
    rw [mantissa] at hzero
    split at hzero
    · exact ⟨‹_›, hzero⟩
    · omega
  have htoNat := x.toNat_bits
  rw [hbits.1, hbits.2, zero_mul, add_zero, add_zero] at htoNat
  rw [ofDecimal]
  simp only [zero_mul, if_true, add_zero]
  rw [← htoNat, BitVec.ofNat_toNat, BitVec.setWidth_eq]

/-- A finite double is read as it was written. -/
theorem scanValue_repr {x : Double} (hfinite : x.Finite) {rest : List Char}
    (hrest : Json.Ends rest) (n room : ℕ) :
  Json.scanValue (n + 1) room (Json.chars x.repr ++ rest) = .ok (.float x, rest)
  := by
  rw [repr_eq hfinite, Json.chars_map_scalar, List.append_assoc]
  by_cases hzero : x.mantissa = 0
  · have hshortest : x.shortest = (['0'], 1) := by rw [shortest, if_pos hzero]
    obtain ⟨hnodigit, -, hexponent⟩ := hrest.scan
    have hwhole : Json.Whole ['0'] := Json.whole_toDigits 0
    have hfraction := Json.scanFraction_point
      (show ∀ c ∈ ['0'], c.isDigit = true by simp) (by simp) hnodigit
    have hscan := Json.scanNumber_float x.negative hwhole (noDigit_cons rfl _) hfraction hexponent
      (by simp)
    rw [← Json.scanValue_sign x.negative hwhole n room] at hscan
    have hvalue := ofDecimal_zero hzero (0 - 1)
    rw [hshortest]
    exact hscan.trans (congrArg (fun y => Except.ok (Json.float y, rest)) hvalue)
  · obtain ⟨c, ds, point, hshortest, hc, hdigits, hrounds⟩ := shortest_spec hfinite hzero
    obtain ⟨m, p, hscan, hvalue⟩ := readAs_body x.negative hc hdigits hrest point
    rw [hshortest, hscan]
    rw [← hvalue] at hrounds
    rw [ofDecimal_eq hfinite hzero hrounds]

end Python.Double
