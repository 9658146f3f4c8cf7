import ResourceDistribution.Data.Dict
import ResourceDistribution.Python.Json

/-!
# Reading JSON

`json.loads` on a text that was decoded from UTF-8. The scanner of each kind of value returns the
value and the text after it. Besides a `JSONDecodeError`, an integer of too many digits raises the
`ValueError` of `int`, and a list or an object within too many others raises a `RecursionError`; a
handler of the former catches neither.
-/

namespace Python

/-! ### Decimals -/

namespace Double

/-- `n / d`, rounded to the closest integer, and to the even one of two. -/
def roundHalfEven (n d : ℕ) : ℕ :=
  if d < 2 * (n % d) ∨ (2 * (n % d) = d ∧ n / d % 2 = 1) then n / d + 1 else n / d

/-- The float closest to `m * 10 ^ p`, up to sign. -/
def ofDecimal (negative : Bool) (m : ℕ) (p : ℤ) : Double :=
  let num := m * 10 ^ p.toNat
  let den := 10 ^ (-p).toNat
  let k : ℤ := (Nat.log2 num : ℤ) - Nat.log2 den
  let position : ℤ := if num * 2 ^ (-k).toNat < den * 2 ^ k.toNat then k - 1 else k
  let e : ℤ := max (position - 52) (-1074)
  let q := roundHalfEven (num * 2 ^ (-e).toNat) (den * 2 ^ e.toNat)
  let bits := min ((e + 1074).toNat * 2 ^ 52 + q) (2047 * 2 ^ 52)
  ⟨BitVec.ofNat 64 ((if negative then 2 ^ 63 else 0) + if num = 0 then 0 else bits)⟩

end Double

namespace Json

/-- What `json.loads` raises. -/
inductive LoadsError where
  | decodeError
  | valueError
  | recursionError
  deriving DecidableEq

/-- What a scanner has read, and the text after it. -/
abbrev Scanned (α : Type) := Except LoadsError (α × List Char)

/-- A `JSONDecodeError`. -/
def malformed {α : Type} : Except LoadsError α := .error .decodeError

/-- White space in JSON. -/
def isJsonSpace (c : Char) : Bool := c = ' ' || c = '\t' || c = '\n' || c = '\r'

/-- The text after white space. -/
def skip (s : List Char) : List Char := s.dropWhile isJsonSpace

/-- The text after the character with a given number, if it begins with it. -/
def eat (n : ℕ) : List Char → Option (List Char)
  | [] => none
  | c :: rest => if c.toNat = n then some rest else none

/-! ### Strings -/

/-- The value of a hexadecimal digit. -/
def hexValue (c : Char) : Option ℕ :=
  if c.isDigit then some (c.toNat - 0x30)
  else if 0x41 ≤ c.toNat ∧ c.toNat ≤ 0x46 then some (c.toNat - 0x37)
  else if 0x61 ≤ c.toNat ∧ c.toNat ≤ 0x66 then some (c.toNat - 0x57)
  else none

/-- The value of four hexadecimal digits. -/
def hexFour (a b c d : Char) : Option ℕ := do
  let a ← hexValue a
  let b ← hexValue b
  let c ← hexValue c
  let d ← hexValue d
  return ((a * 16 + b) * 16 + c) * 16 + d

/-- The code point of an escape `\uXXXX`. -/
def ofCodeUnit (n : ℕ) : CodePoint :=
  if h : 0xD800 ≤ n ∧ n < 0xE000 then .surrogate ⟨n - 0xD800, by omega⟩ else .scalar (Char.ofNat n)

/-- What an escape of one letter stands for. -/
def unescape (c : Char) : Option Char :=
  ([(0x22, 0x22), (0x5C, 0x5C), (0x2F, 0x2F), (0x62, 0x08), (0x66, 0x0C), (0x6E, 0x0A), (0x72, 0x0D),
    (0x74, 0x09)].lookup c.toNat).map Char.ofNat

/-- One code point more, in front of what was scanned. -/
def push (c : CodePoint) (scanned : Scanned Str) : Scanned Str :=
  scanned.map fun i => (c :: i.1, i.2)

/-- What stands before the closing quote of a string, with its escapes replaced. -/
def scanString : List Char → Scanned Str
  | [] => malformed
  | c :: rest =>
      if c.toNat = 0x22 then .ok ([], rest)
      else if c.toNat = 0x5C then
        match rest with
        | [] => malformed
        | e :: rest =>
            if e = 'u' then
              match rest with
              | h₁ :: h₂ :: h₃ :: h₄ :: rest =>
                  match hexFour h₁ h₂ h₃ h₄ with
                  | none => malformed
                  | some n => push (ofCodeUnit n) (scanString rest)
              | _ => malformed
            else
              match unescape e with
              | none => malformed
              | some d => push (.scalar d) (scanString rest)
      else if c.toNat < 0x20 then malformed
      else push (.scalar c) (scanString rest)

theorem scanString_quote (rest : List Char) :
  scanString (Char.ofNat 0x22 :: rest) = .ok ([], rest)
  := by
  rw [scanString.eq_def]
  rfl

theorem scanString_letter {e d : Char} (hd : unescape e = some d) (he : e ≠ 'u')
    (rest : List Char) :
  scanString (Char.ofNat 0x5C :: e :: rest) = push (.scalar d) (scanString rest)
  := by
  rw [scanString.eq_def]
  simp only [if_neg he, hd]
  rfl

theorem scanString_unit {h₁ h₂ h₃ h₄ : Char} {n : ℕ} (hn : hexFour h₁ h₂ h₃ h₄ = some n)
    (rest : List Char) :
  scanString (Char.ofNat 0x5C :: 'u' :: h₁ :: h₂ :: h₃ :: h₄ :: rest)
    = push (ofCodeUnit n) (scanString rest)
  := by
  rw [scanString.eq_def]
  simp only [if_true, hn]
  rfl

/-- A character that needs no escape. -/
theorem scanString_char {c : Char} (hquote : c.toNat ≠ 0x22) (hbackslash : c.toNat ≠ 0x5C)
    (hcontrol : ¬ c.toNat < 0x20) (rest : List Char) :
  scanString (c :: rest) = push (.scalar c) (scanString rest)
  := by
  rw [scanString.eq_def]
  simp only [if_neg hquote, if_neg hbackslash, if_neg hcontrol]

/-- The pairs of surrogates in a string, each replaced by the character it stands for. -/
def joinSurrogates : Str → Str
  | [] => []
  | [c] => [c]
  | .surrogate high :: .surrogate low :: rest =>
      if high.val < 0x400 ∧ 0x400 ≤ low.val then
        .scalar (Char.ofNat (0x10000 + high.val * 0x400 + (low.val - 0x400))) :: joinSurrogates rest
      else .surrogate high :: joinSurrogates (.surrogate low :: rest)
  | c :: d :: rest => c :: joinSurrogates (d :: rest)

/-- A string after its opening quote. -/
def scanQuoted (s : List Char) : Scanned Str :=
  (scanString s).map fun i => (joinSurrogates i.1, i.2)

/-! ### Numbers -/

/-- The digits a text begins with, and what follows them. -/
def scanDigits (s : List Char) : List Char × List Char :=
  (s.takeWhile Char.isDigit, s.dropWhile Char.isDigit)

/-- A minus sign, if there is one, and what follows it. -/
def scanMinus (s : List Char) : Bool × List Char :=
  match eat 0x2D s with
  | some rest => (true, rest)
  | none => (false, s)

/-- The digits before the point: a zero, or digits that do not begin with one. -/
def scanInteger (s : List Char) : List Char × List Char :=
  match eat 0x30 s with
  | some rest => (['0'], rest)
  | none => scanDigits s

/-- The digits after the point, if there is one that digits follow. -/
def scanFraction (s : List Char) : Option (List Char) × List Char :=
  match eat 0x2E s with
  | none => (none, s)
  | some rest =>
      match scanDigits rest with
      | ([], _) => (none, s)
      | (ds, rest) => (some ds, rest)

/-- The exponent, if there is one. -/
def scanExponent (s : List Char) : Option ℤ × List Char :=
  match (eat 0x65 s).or (eat 0x45 s) with
  | none => (none, s)
  | some rest =>
      let (negative, rest) :=
        match eat 0x2B rest with
        | some rest => (false, rest)
        | none => scanMinus rest
      match scanDigits rest with
      | ([], _) => (none, s)
      | (ds, rest) =>
          let e : ℤ := Nat.ofDigitChars 10 ds 0
          (some (if negative then -e else e), rest)

/-- A number: an `int` without fraction and exponent, a `float` otherwise. -/
def scanNumber (s : List Char) : Scanned Json :=
  let (negative, s) := scanMinus s
  let (ds, s) := scanInteger s
  if ds = [] then malformed
  else
    let (fraction, s) := scanFraction s
    let (exponent, s) := scanExponent s
    if fraction = none ∧ exponent = none then
      if Str.maxStrDigits < ds.length then .error .valueError
      else
        let n : ℤ := Nat.ofDigitChars 10 ds 0
        .ok (.int (if negative then -n else n), s)
    else
      let decimals := fraction.getD []
      let m := Nat.ofDigitChars 10 (ds ++ decimals) 0
      .ok (.float (.ofDecimal negative m (exponent.getD 0 - decimals.length)), s)

/-! ### Values -/

/-- The names that stand for values. -/
def literals : List (String × Json) :=
  [("null", .null), ("true", .bool true), ("false", .bool false), ("NaN", .float ⟨0x7FF8000000000000⟩),
    ("Infinity", .float ⟨0x7FF0000000000000⟩), ("-Infinity", .float ⟨0xFFF0000000000000⟩)]

/-- One of the names. -/
def scanLiteral (s : List Char) : Option (Json × List Char) :=
  literals.findSome? fun i => (i.1.toList.isPrefixOf? s).map fun rest => (i.2, rest)

/-- What is scanned one level further in, unless no further level is left. -/
def nest {α : Type} (room : ℕ) (scan : ℕ → Scanned α) : Scanned α :=
  match room with
  | 0 => .error .recursionError
  | room + 1 => scan room

/-- A dictionary that is filled with items one after another. -/
def ofFields (items : List (Str × Json)) : Json :=
  .dict (items.foldl (fun l i => Dict.setItems l i.1 i.2) [])

mutual

/-- A value, in which `room` levels of lists and objects are allowed. No more than `n` calls are nested,
which is never reached if `n` is the length of the text. -/
def scanValue : ℕ → ℕ → List Char → Scanned Json
  | 0, _, _ => malformed
  | n + 1, room, s =>
      match eat 0x22 s with
      | some rest => (scanQuoted rest).map fun i => (.str i.1, i.2)
      | none =>
          match eat 0x5B s with
          | some rest => nest room fun room =>
              match eat 0x5D (skip rest) with
              | some rest => .ok (.list [], rest)
              | none => (scanItems n room (skip rest)).map fun i => (.list i.1, i.2)
          | none =>
              match eat 0x7B s with
              | some rest => nest room fun room =>
                  match eat 0x7D (skip rest) with
                  | some rest => .ok (ofFields [], rest)
                  | none => (scanFields n room (skip rest)).map fun i => (ofFields i.1, i.2)
              | none =>
                  match scanLiteral s with
                  | some i => .ok i
                  | none => scanNumber s

/-- The items of a list, up to its closing bracket. -/
def scanItems : ℕ → ℕ → List Char → Except LoadsError (List Json × List Char)
  | 0, _, _ => malformed
  | n + 1, room, s => do
      let (v, s) ← scanValue n room s
      match eat 0x2C (skip s) with
      | some rest =>
          let (items, s) ← scanItems n room (skip rest)
          return (v :: items, s)
      | none =>
          match eat 0x5D (skip s) with
          | some rest => return ([v], rest)
          | none => malformed

/-- The items of an object, up to its closing brace. -/
def scanFields : ℕ → ℕ → List Char → Except LoadsError (List (Str × Json) × List Char)
  | 0, _, _ => malformed
  | n + 1, room, s =>
      match eat 0x22 s with
      | none => malformed
      | some rest => do
          let (k, s) ← scanQuoted rest
          match eat 0x3A (skip s) with
          | none => malformed
          | some rest =>
              let (v, s) ← scanValue n room (skip rest)
              match eat 0x2C (skip s) with
              | some rest =>
                  let (items, s) ← scanFields n room (skip rest)
                  return ((k, v) :: items, s)
              | none =>
                  match eat 0x7D (skip s) with
                  | some rest => return ([(k, v)], rest)
                  | none => malformed

end

/-- `json.loads(text)`. -/
def loads [RecursionLimit] (text : String) : Except LoadsError Json := do
  let (v, rest) ← scanValue (text.toList.length + 1) RecursionLimit.loadDepth (skip text.toList)
  if skip rest = [] then return v else malformed

end Json

end Python
