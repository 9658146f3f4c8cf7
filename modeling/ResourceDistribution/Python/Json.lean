import ResourceDistribution.Python.Text

/-!
# JSON values in Python

`Json` is what `json.loads` produces: a JSON number without fraction and exponent is an
unbounded `int`, any other number and `Infinity`, `-Infinity` and `NaN` are a `float`, and an
object is a `dict` in the order of its text. On these values we have the operations the tracker
applies to an untyped payload: the truth value that `or` tests, `dict.get`, `int(value)` and
`str(value)`.
-/

namespace Python

/-- An exception, by its class. `TrackerValidationError` carries its message. -/
inductive Exc where
  | trackerValidationError (message : String)
  | typeError
  | valueError
  | overflowError
  | unicodeEncodeError
  | recursionError
  | osError
  deriving DecidableEq

/-! ### Floating-point numbers -/

/-- A Python `float`, by the bits of the double. -/
structure Double where
  bits : BitVec 64
  deriving DecidableEq

namespace Double

/-- The sign bit. -/
def negative (x : Double) : Bool := x.bits.toNat / 2 ^ 63 = 1

/-- The biased exponent. -/
def exponentBits (x : Double) : Nat := x.bits.toNat / 2 ^ 52 % 2 ^ 11

/-- The bits of the fraction. -/
def fraction (x : Double) : Nat := x.bits.toNat % 2 ^ 52

def isInf (x : Double) : Bool := x.exponentBits = 2047 ∧ x.fraction = 0

def isNan (x : Double) : Bool := x.exponentBits = 2047 ∧ x.fraction ≠ 0

/-- A finite double is, up to sign, `mantissa * 2 ^ exponent`. -/
def mantissa (x : Double) : Nat :=
  if x.exponentBits = 0 then x.fraction else 2 ^ 52 + x.fraction

/-- The binary exponent of a finite double. -/
def exponent (x : Double) : ℤ :=
  if x.exponentBits = 0 then -1074 else (x.exponentBits : ℤ) - 1075

/-- `int(x)`: rounding towards zero. -/
def toInt (x : Double) : Except Exc ℤ :=
  if x.isNan then .error .valueError
  else if x.isInf then .error .overflowError
  else
    let n : Nat :=
      if 0 ≤ x.exponent then x.mantissa * 2 ^ x.exponent.toNat
      else x.mantissa / 2 ^ (-x.exponent).toNat
    .ok (if x.negative then -(n : ℤ) else n)

/-- `m * 2 ^ e * 10 ^ -p` times the common denominator `2 ^ a * 10 ^ b`. -/
def scaled (a b m : Nat) (e p : ℤ) : Nat := m * 2 ^ (a + e).toNat * 10 ^ (b - p).toNat

/-- The digits `d`, with the last one at `10 ^ p`, that lie within the interval of the decimals
that are read back as `x`, and among them the ones closest to `x`, if there are any. -/
def digitsAt (x : Double) (p : ℤ) : Option Nat :=
  let e := x.exponent - 2
  let a := (-e).toNat
  let b := p.toNat
  let v := scaled a b (4 * x.mantissa) e p
  let high := scaled a b (4 * x.mantissa + 2) e p
  -- below a power of two the doubles are twice as dense
  let low := scaled a b (4 * x.mantissa - if x.fraction = 0 ∧ 1 < x.exponentBits then 1 else 2) e p
  let one := 2 ^ a * 10 ^ b
  let within (d : Nat) :=
    if x.mantissa % 2 = 0 then low ≤ d * one ∧ d * one ≤ high else low < d * one ∧ d * one < high
  let d := v / one
  let below := v - d * one
  let above := (d + 1) * one - v
  if within d ∧ (¬ within (d + 1) ∨ below < above ∨ (below = above ∧ d % 2 = 0)) then some d
  else if within (d + 1) then some (d + 1)
  else none

/-- The number of decimal digits before the point of a finite double, or minus the number of
zeros after it. -/
def pointPosition (x : Double) : ℤ :=
  let below (k : ℤ) : Bool :=
    let m := x.mantissa * 2 ^ x.exponent.toNat * 10 ^ (-k).toNat
    m < 2 ^ (-x.exponent).toNat * 10 ^ k.toNat
  (((List.range 640).map fun i : Nat => (i : ℤ) - 330).find? below).getD 310

/-- The fewest digits that are read back as `x`, without trailing zeros, and the position of the
decimal point before or after them. -/
def shortest (x : Double) : List Char × ℤ :=
  if x.mantissa = 0 then (['0'], 1)
  else
    let k := x.pointPosition
    let found := (List.range 18).findSome? fun n =>
      (x.digitsAt (k - n)).map fun d => (d, k - n)
    match found with
    | none => (['0'], 1)
    | some (d, p) =>
        let ds := Nat.toDigits 10 d
        (ds.take 1 ++ (ds.drop 1).rdropWhile (· = '0'), p + ds.length)

/-- `repr(x)`, which is also `str(x)`. -/
def repr (x : Double) : Str :=
  if x.isNan then Str.ofString "nan"
  else
    let sign := if x.negative then ['-'] else []
    if x.isInf then (sign ++ "inf".toList).map .scalar
    else
      let (ds, point) := x.shortest
      let body :=
        if point ≤ -4 ∨ 16 < point then
          let e := point - 1
          let es := Nat.toDigits 10 e.natAbs
          ds.take 1 ++ (if ds.length = 1 then [] else '.' :: ds.drop 1)
            ++ 'e' :: (if e < 0 then '-' else '+')
            :: List.replicate (2 - es.length) '0' ++ es
        else if point ≤ 0 then
          '0' :: '.' :: List.replicate (-point).toNat '0' ++ ds
        else
          let n := point.toNat
          ds.take n ++ List.replicate (n - ds.length) '0'
            ++ '.' :: (if ds.length ≤ n then ['0'] else ds.drop n)
      (sign ++ body).map .scalar

theorem isDigit_of_mem_shortest {x : Double} {c : Char} (h : c ∈ x.shortest.1) :
  c.isDigit = true
  := by
  have hzero : ∀ c ∈ ['0'], c.isDigit = true := by simp
  rw [shortest] at h
  split at h
  · exact hzero c h
  · dsimp only at h
    split at h
    · exact hzero c h
    · rename_i d p _
      have hc : c ∈ Nat.toDigits 10 d := by
        rcases List.mem_append.mp h with h | h
        · apply List.mem_of_mem_take h
        · apply List.mem_of_mem_drop ((List.rdropWhile_prefix _ _).subset h)
      apply Nat.isDigit_of_mem_toDigits (by decide) (by decide) hc

/-- What stands in the text of a finite double, or of an integer. -/
def IsNumeral (c : Char) : Prop := c.isDigit = true ∨ c ∈ ['-', '+', '.', 'e']

theorem isspace_of_isNumeral {c : Char} (h : IsNumeral c) :
  Str.isspace (.scalar c) = false
  := by
  have hsigns : ∀ c ∈ ['-', '+', '.', 'e'], Str.isspace (.scalar c) = false := by
    simp [Str.isspace, Str.spaces, CodePoint.toNat]
  rcases h with h | h
  · apply Str.isspace_of_isDigit h
  · exact hsigns c h

/-- Numerals have no white space. -/
theorem trimmed_of_isNumeral {l : List Char} (h : ∀ c ∈ l, IsNumeral c) :
  Str.Trimmed (l.map .scalar)
  := by
  apply Str.trimmed_of_forall
  intro c hc
  obtain ⟨d, hd, rfl⟩ := List.mem_map.mp hc
  apply isspace_of_isNumeral (h d hd)

theorem trimmed_repr (x : Double) :
  x.repr.Trimmed
  := by
  have hdigit : ∀ c ∈ x.shortest.1, IsNumeral c := fun c hc => .inl (isDigit_of_mem_shortest hc)
  have htake : ∀ n, ∀ c ∈ x.shortest.1.take n, IsNumeral c := fun _ c hc =>
    hdigit c (List.mem_of_mem_take hc)
  have hdrop : ∀ n, ∀ c ∈ x.shortest.1.drop n, IsNumeral c := fun _ c hc =>
    hdigit c (List.mem_of_mem_drop hc)
  have hzeros : ∀ n, ∀ c ∈ List.replicate n '0', IsNumeral c := by
    intro n c hc
    rw [List.eq_of_mem_replicate hc]
    exact .inl rfl
  have hexponent : ∀ n, ∀ c ∈ Nat.toDigits 10 n, IsNumeral c := fun n c hc =>
    .inl (Nat.isDigit_of_mem_toDigits (by decide) (by decide) hc)
  have hsigns : ∀ c ∈ ['-', '+', '.', 'e', '0'], IsNumeral c := by
    intro c hc
    simp only [List.mem_cons, List.not_mem_nil, or_false] at hc
    rcases hc with rfl | rfl | rfl | rfl | rfl <;> simp [IsNumeral]
  rw [repr]
  split
  · decide
  · dsimp only
    split
    · cases x.negative <;> decide
    · apply trimmed_of_isNumeral
      simp only [List.forall_mem_append]
      constructor
      · split
        · exact List.forall_mem_singleton.mpr (hsigns '-' (by decide))
        · apply List.forall_mem_nil
      · split
        · simp only [List.forall_mem_append, List.forall_mem_cons]
          refine ⟨⟨⟨htake 1, ?_⟩, hsigns 'e' (by decide), ?_, hzeros _⟩, hexponent _⟩
          · split
            · apply List.forall_mem_nil
            · exact List.forall_mem_cons.mpr ⟨hsigns '.' (by decide), hdrop 1⟩
          · split
            · exact hsigns '-' (by decide)
            · exact hsigns '+' (by decide)
        · split
          · simp only [List.forall_mem_append, List.forall_mem_cons]
            exact ⟨⟨hsigns '0' (by decide), hsigns '.' (by decide), hzeros _⟩, hdigit⟩
          · simp only [List.forall_mem_append, List.forall_mem_cons]
            refine ⟨⟨htake _, hzeros _⟩, hsigns '.' (by decide), ?_⟩
            split
            · exact List.forall_mem_singleton.mpr (hsigns '0' (by decide))
            · apply hdrop

end Double

/-! ### Values -/

/-- How deep a value may be nested before the recursion limit stops `json.dump`, `deepcopy` and
`json.loads`. It is enough for what the tracker builds around the metadata of a node, and what was
written can be read: the writer makes a call for every level where the scanner makes one. -/
class RecursionLimit where
  dumpDepth : ℕ
  copyDepth : ℕ
  loadDepth : ℕ
  le_dumpDepth : 7 ≤ dumpDepth
  le_copyDepth : 5 ≤ copyDepth
  dumpDepth_le : dumpDepth ≤ loadDepth

/-- A limit such as the one of a thousand frames gives. -/
@[reducible]
def RecursionLimit.default : RecursionLimit where
  dumpDepth := 900
  copyDepth := 400
  loadDepth := 950
  le_dumpDepth := by decide
  le_copyDepth := by decide
  dumpDepth_le := by decide

/-- What the tracker builds around the metadata of a node can be read. -/
theorem RecursionLimit.le_loadDepth [RecursionLimit] :
  7 ≤ RecursionLimit.loadDepth
  := RecursionLimit.le_dumpDepth.trans RecursionLimit.dumpDepth_le

/-- A value that `json.loads` produces. -/
inductive Json where
  | null
  | bool (b : Bool)
  | int (n : ℤ)
  | float (x : Double)
  | str (s : Str)
  | list (items : List Json)
  | dict (items : List (Str × Json))

namespace Json

/-- The truth value of a value, which `or` and `if` test. -/
def truthy : Json → Bool
  | .null => false
  | .bool b => b
  | .int n => n ≠ 0
  | .float x => x.mantissa ≠ 0
  | .str s => s ≠ []
  | .list items => !items.isEmpty
  | .dict items => !items.isEmpty

/-- `a or b`. -/
def or (a b : Json) : Json := if a.truthy then a else b

/-- `value is None`. -/
def isNull : Json → Bool
  | .null => true
  | _ => false

/-- `d.get(key)` on the items of a `dict`. -/
def get (items : List (Str × Json)) (key : String) : Json :=
  (items.lookup (Str.ofString key)).getD .null

/-- `d.get(key, default)` on the items of a `dict`. -/
def getD (items : List (Str × Json)) (key : String) (default : Json) : Json :=
  (items.lookup (Str.ofString key)).getD default

@[simp]
theorem get_nil (key : String) :
  get [] key = .null
  := rfl

/-- Looking a key up in front of which another item stands. -/
@[simp]
theorem get_cons (k : String) (v : Json) (items : List (Str × Json)) (key : String) :
  get ((Str.ofString k, v) :: items) key = if key = k then v else get items key
  := by
  unfold get
  by_cases h : key = k
  · simp [h]
  · have hb : (Str.ofString key == Str.ofString k) = false := by simpa using h
    rw [List.lookup_cons, hb]
    simp [h]

@[simp]
theorem getD_cons (k : String) (v : Json) (items : List (Str × Json)) (key : String)
    (default : Json) :
  getD ((Str.ofString k, v) :: items) key default
    = if key = k then v else getD items key default
  := by
  unfold getD
  by_cases h : key = k
  · simp [h]
  · have hb : (Str.ofString key == Str.ofString k) = false := by simpa using h
    rw [List.lookup_cons, hb]
    simp [h]

section UnicodeData

variable [UnicodeData]

/-- `int(value)`. -/
def toInt : Json → Except Exc ℤ
  | .int n => .ok n
  | .bool b => .ok (if b then 1 else 0)
  | .float x => x.toInt
  | .str s =>
      match s.toInt? with
      | some n => .ok n
      | none => .error .valueError
  | .null | .list _ | .dict _ => .error .typeError

/-- The decimal digits of an `int`. -/
def intStr (n : ℤ) : Str :=
  ((if n < 0 then ['-'] else []) ++ Nat.toDigits 10 n.natAbs).map .scalar

mutual

/-- `repr(value)`. -/
def repr : Json → Str
  | .null => Str.ofString "None"
  | .bool b => Str.ofString (if b then "True" else "False")
  | .int n => intStr n
  | .float x => x.repr
  | .str s => s.repr
  | .list items => Str.ofString "[" ++ reprItems items ++ Str.ofString "]"
  | .dict items => Str.ofString "\x7b" ++ reprFields items ++ Str.ofString "\x7d"

/-- The items of a list, separated by commas. -/
def reprItems : List Json → Str
  | [] => []
  | [v] => repr v
  | v :: w :: rest => repr v ++ Str.ofString ", " ++ reprItems (w :: rest)

/-- The items of a dictionary, separated by commas. -/
def reprFields : List (Str × Json) → Str
  | [] => []
  | [(k, v)] => k.repr ++ Str.ofString ": " ++ repr v
  | (k, v) :: i :: rest =>
      k.repr ++ Str.ofString ": " ++ repr v ++ Str.ofString ", " ++ reprFields (i :: rest)

end

/-- `str(value)`. -/
def toStr : Json → Str
  | .str s => s
  | v => repr v

/-- The text of a value that is no string has no white space at its ends. -/
theorem trimmed_repr {v : Json} (h : ∀ s, v ≠ .str s) :
  v.repr.Trimmed
  := by
  cases v with
  | null =>
      rw [repr]
      decide
  | bool b =>
      rw [repr]
      cases b <;> decide
  | int n =>
      apply Double.trimmed_of_isNumeral
      intro c hc
      rcases List.mem_append.mp hc with hc | hc
      · split at hc
        · rw [List.mem_singleton.mp hc]
          exact .inr (by decide)
        · cases hc
      · exact .inl (Nat.isDigit_of_mem_toDigits (by decide) (by decide) hc)
  | float x => apply Double.trimmed_repr
  | str s => exact absurd rfl (h s)
  | list items => apply Str.trimmed_between (by decide) (by decide)
  | dict items => apply Str.trimmed_between (by decide) (by decide)

end UnicodeData

end Json

end Python
