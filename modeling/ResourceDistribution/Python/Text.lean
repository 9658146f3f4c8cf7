import Mathlib.Data.List.DropRight
import Mathlib.Data.List.Lex
import Mathlib.Data.Nat.Digits.Defs
import Mathlib.Tactic.Common

/-!
# Python strings

A Python `str` is a sequence of code points, surrogates included: `json.loads` accepts an escaped
lone surrogate and gives a string that has no UTF-8 encoding. A Rust `String` is a sequence of
Unicode scalar values, so `Str.ofString` embeds the node's strings in the tracker's and
`Str.toString?` is its partial inverse.

`Str.strip`, `Str.toInt?` and `Str.repr` are `str.strip()`, `int(s)` and `repr(s)` of CPython. What
the last two ask the interpreter's Unicode database beyond ASCII differs between Python versions,
and is the parameter `UnicodeData`.
-/

namespace Python

/-- A code point: a Unicode scalar value, or the surrogate `U+D800 + n`. -/
inductive CodePoint where
  | scalar (c : Char)
  | surrogate (n : Fin 0x800)
  deriving DecidableEq

/-- The number of a code point. -/
def CodePoint.toNat : CodePoint → Nat
  | .scalar c => c.toNat
  | .surrogate n => 0xD800 + n.val

/-- No scalar value has the number of a surrogate. -/
theorem CodePoint.toNat_injective :
  Function.Injective CodePoint.toNat
  := by
  have hscalar : ∀ (c : Char) (n : Fin 0x800), c.toNat ≠ 0xD800 + n.val := by
    intro c n
    have hvalid := c.valid
    have hn := n.isLt
    rw [UInt32.isValidChar, Nat.isValidChar] at hvalid
    rw [Char.toNat]
    omega
  intro a b h
  cases a with
  | scalar c =>
      cases b with
      | scalar d => rw [Char.toNat_inj.mp h]
      | surrogate n => exact absurd h (hscalar c n)
  | surrogate m =>
      cases b with
      | scalar d => exact absurd h.symm (hscalar d m)
      | surrogate n =>
          congr 1
          apply Fin.ext
          apply Nat.add_left_cancel h

/-- A Python `str`. -/
abbrev Str := List CodePoint

/-- The Unicode database of the interpreter, beyond ASCII. -/
class UnicodeData where
  /-- The value of a character of category `Nd`. -/
  decimal : CodePoint → Option (Fin 10)
  /-- `str.isprintable()` on one character. -/
  isprintable : CodePoint → Bool

/-- A database that knows no character beyond ASCII. -/
@[reducible]
def UnicodeData.ascii : UnicodeData where
  decimal _ := none
  isprintable _ := false

namespace Str

/-- A Rust string, as a Python string. -/
def ofString (s : String) : Str := s.toList.map .scalar

theorem ofString_injective :
  Function.Injective ofString
  := by
  intro s t h
  apply String.toList_injective
  apply List.map_injective_iff.mpr _ h
  intro a b hab
  injection hab

@[simp]
theorem ofString_inj {s t : String} :
  ofString s = ofString t ↔ s = t
  := ofString_injective.eq_iff

@[simp]
theorem ofString_eq_nil {s : String} :
  ofString s = [] ↔ s = ""
  := by
  rw [← ofString_inj, ofString, ofString]
  simp

/-- The scalar value of a code point. -/
def scalar? : CodePoint → Option Char
  | .scalar c => some c
  | .surrogate _ => none

/-- The string without surrogates that the string is, if it has none. This is what UTF-8 can
carry from the tracker to a node. -/
def toString? (s : Str) : Option String := (s.mapM scalar?).map String.ofList

/-- The string has no surrogates. -/
def Encodable (s : Str) : Prop := ∃ t, s = ofString t

theorem mapM_scalar?_eq_some_iff {s : Str} {l : List Char} :
  s.mapM scalar? = some l ↔ s = l.map .scalar
  := by
  induction s generalizing l with
  | nil => simp [eq_comm]
  | cons c s ih =>
      cases c with
      | surrogate n => cases l <;> simp [scalar?]
      | scalar c =>
          cases l with
          | nil => simp [scalar?, Option.bind_eq_some_iff]
          | cons d l => simp [scalar?, Option.bind_eq_some_iff, ih, and_comm]

/-- Only the image of a Rust string is decoded, and to that string. -/
theorem toString?_eq_some_iff {s : Str} {t : String} :
  s.toString? = some t ↔ s = ofString t
  := by
  rw [toString?, Option.map_eq_some_iff]
  constructor
  · rintro ⟨l, hl, rfl⟩
    rw [ofString, String.toList_ofList]
    apply mapM_scalar?_eq_some_iff.mp hl
  · intro h
    use t.toList, mapM_scalar?_eq_some_iff.mpr h
    apply String.ofList_toList

theorem encodable_iff {s : Str} :
  s.Encodable ↔ s.toString?.isSome
  := by
  simp [Encodable, Option.isSome_iff_exists, toString?_eq_some_iff]

instance (s : Str) : Decidable s.Encodable :=
  decidable_of_iff _ encodable_iff.symm

theorem encodable_ofString (s : String) :
  (ofString s).Encodable
  := ⟨s, rfl⟩

theorem encodable_map_scalar (l : List Char) :
  Encodable (l.map .scalar)
  := by
  use String.ofList l
  rw [ofString, String.toList_ofList]

/-- A string has no surrogates exactly when none of its code points is one. -/
theorem encodable_iff_forall {s : Str} :
  s.Encodable ↔ ∀ c ∈ s, (scalar? c).isSome
  := by
  constructor
  · rintro ⟨t, rfl⟩ c hc
    obtain ⟨d, -, rfl⟩ := List.mem_map.mp hc
    rfl
  · intro h
    induction s with
    | nil => exact ⟨"", rfl⟩
    | cons c s ih =>
        obtain ⟨t, ht⟩ := ih fun d hd => h d (List.mem_cons_of_mem c hd)
        cases c with
        | surrogate n => simpa [scalar?] using h (.surrogate n) List.mem_cons_self
        | scalar d =>
            rw [ht]
            apply encodable_map_scalar (d :: t.toList)

@[simp]
theorem encodable_append {s t : Str} :
  Encodable (s ++ t) ↔ s.Encodable ∧ t.Encodable
  := by
  simp only [encodable_iff_forall, List.mem_append, or_imp, forall_and]

/-! ### Order -/

/-- The code points of a string. Strings compare as these lists do, lexicographically. -/
def codes (s : Str) : List Nat := s.map CodePoint.toNat

theorem codes_injective :
  Function.Injective codes
  := List.map_injective_iff.mpr CodePoint.toNat_injective

/-! ### White space -/

/-- The characters for which `str.isspace()` holds. -/
def spaces : List Nat :=
  [0x09, 0x0A, 0x0B, 0x0C, 0x0D, 0x1C, 0x1D, 0x1E, 0x1F, 0x20, 0x85, 0xA0, 0x1680, 0x2000,
    0x2001, 0x2002, 0x2003, 0x2004, 0x2005, 0x2006, 0x2007, 0x2008, 0x2009, 0x200A, 0x2028,
    0x2029, 0x202F, 0x205F, 0x3000]

/-- `str.isspace()` on one character. -/
def isspace (c : CodePoint) : Bool := spaces.contains c.toNat

/-- Remove the characters that satisfy `p` from both ends. -/
def stripWith (p : CodePoint → Bool) (s : Str) : Str := (s.dropWhile p).rdropWhile p

/-- `str.strip()`. -/
def strip (s : Str) : Str := stripWith isspace s

/-- The string has no white space at either end. -/
def Trimmed (s : Str) : Prop :=
  (∀ c ∈ s.head?, isspace c = false) ∧ ∀ c ∈ s.getLast?, isspace c = false

instance (s : Str) : Decidable s.Trimmed :=
  inferInstanceAs (Decidable (_ ∧ _))

/-- What `strip` leaves has no white space at either end. -/
theorem trimmed_strip (s : Str) :
  s.strip.Trimmed
  := by
  have hpre : s.strip <+: s.dropWhile isspace := List.rdropWhile_prefix _ _
  constructor
  · intro c hc
    have hhead : c ∈ (s.dropWhile isspace).head? := by
      obtain ⟨r, hr⟩ := hpre
      rw [← hr]
      cases hs : s.strip with
      | nil => simp [hs] at hc
      | cons d l =>
          rw [hs] at hc
          exact hc
    have hne : s.dropWhile isspace ≠ [] := by
      intro h
      simp [h] at hhead
    have hnot := List.head_dropWhile_not isspace hne
    rw [List.head?_eq_some_head hne, Option.mem_some_iff] at hhead
    rw [← hhead]
    apply hnot
  · intro c hc
    have hne : s.strip ≠ [] := by
      intro h
      simp [h] at hc
    rw [List.getLast?_eq_some_getLast hne, Option.mem_some_iff] at hc
    rw [← hc]
    have hnot := List.rdropWhile_last_not isspace (s.dropWhile isspace) hne
    apply Bool.eq_false_of_not_eq_true hnot

/-- `strip` changes exactly the strings with white space at an end. -/
theorem strip_eq_self_iff {s : Str} :
  s.strip = s ↔ s.Trimmed
  := by
  constructor
  · intro h
    rw [← h]
    apply trimmed_strip
  · rintro ⟨hhead, hlast⟩
    have hdrop : s.dropWhile isspace = s := by
      cases s with
      | nil => rfl
      | cons c s =>
          apply List.dropWhile_cons_of_neg
          simp [hhead c rfl]
    rw [strip, stripWith, hdrop]
    apply List.rdropWhile_eq_self_iff.mpr
    intro hne
    have h := hlast _ (List.getLast?_eq_some_getLast hne)
    simp [h]

/-- `strip` adds no surrogate. -/
theorem Encodable.strip {s : Str} (h : s.Encodable) :
  s.strip.Encodable
  := by
  rw [encodable_iff_forall] at h ⊢
  intro c hc
  apply h c
  apply (List.dropWhile_suffix isspace).subset
  apply (List.rdropWhile_prefix isspace _).subset hc

/-- `strip` makes no string longer. -/
theorem length_strip_le (s : Str) :
  s.strip.length ≤ s.length
  := by
  apply (List.rdropWhile_prefix _ _).length_le.trans
  apply List.length_dropWhile_le

/-- A string of which no character is white space is not changed by `strip`. -/
theorem trimmed_of_forall {s : Str} (h : ∀ c ∈ s, isspace c = false) :
  s.Trimmed
  := by
  constructor
  · intro c hc
    apply h c (List.mem_of_mem_head? hc)
  · intro c hc
    apply h c (List.mem_of_mem_getLast? hc)

/-- A string between two characters that are no white space is not changed by `strip`. -/
theorem trimmed_between {a b : CodePoint} (ha : isspace a = false) (hb : isspace b = false)
    (s : Str) :
  Trimmed (a :: s ++ [b])
  := by
  constructor
  · intro c hc
    cases hc
    exact ha
  · intro c hc
    rw [List.getLast?_concat] at hc
    cases hc
    exact hb

/-- A digit is not white space. -/
theorem isspace_of_isDigit {c : Char} (h : c.isDigit = true) :
  isspace (.scalar c) = false
  := by
  have hspaces : ∀ n ∈ spaces, (Char.ofNat n).isDigit = false := by decide
  apply Bool.eq_false_of_not_eq_true
  intro hspace
  have hdigit := hspaces c.toNat (List.contains_iff_mem.mp hspace)
  rw [Char.ofNat_toNat] at hdigit
  cases hdigit.symm.trans h

/-! ### `int(s)` -/

section UnicodeData

variable [UnicodeData]

/-- The white space `int` skips: that of `strip`, less the separators `U+001C` to `U+001F`. -/
def intSpace (c : CodePoint) : Bool :=
  isspace c && !(0x1C ≤ c.toNat && c.toNat ≤ 0x1F)

/-- The value of a decimal digit. -/
def digit? (c : CodePoint) : Option Nat :=
  if c.toNat < 0x80 then
    if 0x30 ≤ c.toNat ∧ c.toNat ≤ 0x39 then some (c.toNat - 0x30) else none
  else (UnicodeData.decimal c).map Fin.val

/-- Digits, any two of them separated by at most one underscore. -/
def scanDigits : Str → Option (List Nat)
  | [] => none
  | [c] => (digit? c).map fun d => [d]
  | c :: c' :: rest =>
      match digit? c with
      | none => none
      | some d =>
          if c' = .scalar '_' then (scanDigits rest).map (d :: ·)
          else (scanDigits (c' :: rest)).map (d :: ·)

/-- The sign of a numeral, and what follows it. -/
def scanSign : Str → Bool × Str
  | .scalar '+' :: rest => (false, rest)
  | .scalar '-' :: rest => (true, rest)
  | rest => (false, rest)

/-- The number of digits past which `int` refuses a string. -/
def maxStrDigits : Nat := 4300

/-- `int(s)`; `none` is a `ValueError`. -/
def toInt? (s : Str) : Option ℤ :=
  let (negative, body) := scanSign (s.stripWith intSpace)
  match scanDigits body with
  | none => none
  | some ds =>
      if maxStrDigits < ds.length then none
      else
        let n : Nat := ds.foldl (fun n d => 10 * n + d) 0
        some (if negative then -(n : ℤ) else n)

/-! ### `repr(s)` -/

/-- `n` in hexadecimal, with at least `width` digits. -/
def hexDigits (width n : Nat) : List Char :=
  let ds := Nat.toDigits 16 n
  List.replicate (width - ds.length) '0' ++ ds

/-- The escape of a code point that `repr` does not print. -/
def reprEscape (n : Nat) : List Char :=
  Char.ofNat 0x5C ::
    if n ≤ 0xFF then 'x' :: hexDigits 2 n
    else if n ≤ 0xFFFF then 'u' :: hexDigits 4 n
    else 'U' :: hexDigits 8 n

/-- What `repr` writes for one code point between quotes `quote`. -/
def reprChar (quote : Nat) (c : CodePoint) : Str :=
  let n := c.toNat
  if n = quote ∨ n = 0x5C then [.scalar (Char.ofNat 0x5C), c]
  else if n = 0x09 then ofString "\\t"
  else if n = 0x0A then ofString "\\n"
  else if n = 0x0D then ofString "\\r"
  else if n < 0x20 ∨ n = 0x7F then (reprEscape n).map .scalar
  else if n < 0x7F then [c]
  else if UnicodeData.isprintable c then [c]
  else (reprEscape n).map .scalar

/-- `repr(s)`: single quotes, unless only single quotes occur in the string. -/
def repr (s : Str) : Str :=
  let has (n : Nat) := s.any fun c => c.toNat = n
  let quote := if has 0x27 && !has 0x22 then 0x22 else 0x27
  let q := CodePoint.scalar (Char.ofNat quote)
  q :: s.flatMap (reprChar quote) ++ [q]

end UnicodeData

end Str

end Python
