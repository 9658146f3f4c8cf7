import Mathlib.Data.Rat.Floor
import ResourceDistribution.Python.Json

/-!
# The numbers that values denote

A JSON number denotes a rational number, and so does the text of an integer. On a value that denotes a
number, `int(value)` is this number with its fraction cut off (`Json.toInt_eq_truncate`), so that it
returns the number itself exactly when that is an integer (`truncate_eq_iff`).
-/

namespace Python

/-! ### Cutting off -/

/-- The number without its fraction. -/
def truncate (q : ℚ) : ℤ := if 0 ≤ q then ⌊q⌋ else ⌈q⌉

@[simp]
theorem truncate_intCast (n : ℤ) :
  truncate n = n
  := by
  simp [truncate]

/-- Nothing is cut off an integer, and something is cut off any other number. -/
theorem truncate_eq_iff {q : ℚ} :
  (truncate q : ℚ) = q ↔ ∃ n : ℤ, q = n
  := by
  constructor
  · intro h
    exact ⟨truncate q, h.symm⟩
  · rintro ⟨n, rfl⟩
    rw [truncate_intCast]

theorem truncate_neg (q : ℚ) :
  truncate (-q) = -truncate q
  := by
  rcases lt_trichotomy q 0 with hneg | rfl | hpos
  · rw [truncate, if_pos (by linarith), truncate, if_neg (not_le.mpr hneg), Int.floor_neg]
  · simp [truncate]
  · rw [truncate, if_neg (by linarith), truncate, if_pos hpos.le, Int.ceil_neg]

/-- The quotient of natural numbers, cut off, is what their division gives. -/
theorem truncate_natCast_div (m d : ℕ) :
  truncate (m / d) = (m / d : ℕ)
  := by
  have hpos : (0 : ℚ) ≤ m / d := by positivity
  rw [truncate, if_pos hpos, Rat.floor_natCast_div_natCast, Int.natCast_div]

/-! ### Floats -/

/-- The number that a finite double is. -/
def Double.value (x : Double) : Option ℚ :=
  if x.isNan ∨ x.isInf then none
  else
    let q : ℚ :=
      if 0 ≤ x.exponent then x.mantissa * 2 ^ x.exponent.toNat
      else x.mantissa / 2 ^ (-x.exponent).toNat
    some (if x.negative then -q else q)

/-- `int(x)` cuts the fraction off. -/
theorem Double.toInt_eq_truncate {x : Double} {q : ℚ} (h : x.value = some q) :
  x.toInt = .ok (truncate q)
  := by
  rw [value, Option.ite_none_left_eq_some, not_or] at h
  obtain ⟨⟨hnan, hinf⟩, h⟩ := h
  rw [toInt, if_neg hnan, if_neg hinf]
  have habs : truncate (if 0 ≤ x.exponent then x.mantissa * 2 ^ x.exponent.toNat
      else x.mantissa / 2 ^ (-x.exponent).toNat)
      = ((if 0 ≤ x.exponent then x.mantissa * 2 ^ x.exponent.toNat
        else x.mantissa / 2 ^ (-x.exponent).toNat : ℕ) : ℤ) := by
    split
    · have hcast : (x.mantissa * 2 ^ x.exponent.toNat : ℚ)
          = ((x.mantissa * 2 ^ x.exponent.toNat : ℕ) : ℤ) := by push_cast; rfl
      rw [hcast, truncate_intCast]
    · have hcast : (2 ^ (-x.exponent).toNat : ℚ) = ((2 ^ (-x.exponent).toNat : ℕ) : ℚ) := by
        push_cast; rfl
      rw [hcast, truncate_natCast_div]
  rw [← Option.some.inj h]
  dsimp only
  rw [← habs]
  split
  · rw [truncate_neg]
  · rfl

/-! ### Values -/

section UnicodeData

variable [UnicodeData]

/-- The number that a value denotes: a number, or the text of an integer. -/
def Json.number : Json → Option ℚ
  | .int n => some n
  | .float x => x.value
  | .str s => s.toInt?.map Int.cast
  | _ => none

/-- `int(value)` cuts the fraction off the number that the value denotes. -/
theorem Json.toInt_eq_truncate {value : Json} {q : ℚ} (h : value.number = some q) :
  value.toInt = .ok (truncate q)
  := by
  cases value with
  | int n =>
      rw [← Option.some.inj h, truncate_intCast, toInt]
  | float x => apply Double.toInt_eq_truncate h
  | str s =>
      obtain ⟨n, hn, rfl⟩ := Option.map_eq_some_iff.mp h
      rw [toInt, hn, truncate_intCast]
  | null => cases h
  | bool b => cases h
  | list items => cases h
  | dict items => cases h

end UnicodeData

end Python
