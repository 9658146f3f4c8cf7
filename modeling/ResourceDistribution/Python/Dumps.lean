import Mathlib.Tactic.Common
import ResourceDistribution.Python.Json

/-!
# Writing JSON and copying values

`json.dump` and `json.dumps` with `ensure_ascii=False` and `indent=2` leave every character of a
string but the ones that JSON has to escape, a surrogate too, so that the text has no encoding in
UTF-8 exactly when some string of the value has none. They and `deepcopy` call themselves for every
list and every dictionary within another one, and raise when that goes deeper than the recursion
limit allows.
-/

namespace Python

namespace Json

/-! ### The text of a value -/

/-- The characters with an escape of their own, by number. -/
def escapes : List (ℕ × String) :=
  [(0x5C, "\\\\"), (0x22, "\\\""), (0x08, "\\b"), (0x0C, "\\f"), (0x0A, "\\n"), (0x0D, "\\r"),
    (0x09, "\\t")]

/-- The escape of a character in a JSON string, which is the character itself if it needs none. -/
def escape (c : CodePoint) : Str :=
  match escapes.lookup c.toNat with
  | some s => Str.ofString s
  | none =>
      if c.toNat < 0x20 then
        ("\\u00".toList ++ [Nat.digitChar (c.toNat / 16), Nat.digitChar (c.toNat % 16)]).map .scalar
      else [c]

/-- A JSON string. -/
def quoted (s : Str) : Str := Str.ofString "\"" ++ s.flatMap escape ++ Str.ofString "\""

/-- The text of a float. -/
def floatText (x : Double) : Str :=
  if x.isNan then Str.ofString "NaN"
  else if x.isInf then Str.ofString (if x.negative then "-Infinity" else "Infinity")
  else x.repr

/-- A new line with the indentation of a level. -/
def newline (level : ℕ) : Str := ('\n' :: List.replicate (2 * level) ' ').map .scalar

mutual

/-- The text of a value at a level of indentation. -/
def text (level : ℕ) : Json → Str
  | .null => Str.ofString "null"
  | .bool b => Str.ofString (if b then "true" else "false")
  | .int n => intStr n
  | .float x => floatText x
  | .str s => quoted s
  | .list [] => Str.ofString "[]"
  | .list (v :: rest) =>
      Str.ofString "[" ++ newline (level + 1) ++ text (level + 1) v ++ textItems (level + 1) rest
        ++ newline level ++ Str.ofString "]"
  | .dict [] => Str.ofString "\x7b\x7d"
  | .dict ((k, v) :: rest) =>
      Str.ofString "\x7b" ++ newline (level + 1) ++ quoted k ++ Str.ofString ": "
        ++ text (level + 1) v ++ textFields (level + 1) rest ++ newline level ++ Str.ofString "\x7d"

/-- The items of a list after the first one. -/
def textItems (level : ℕ) : List Json → Str
  | [] => []
  | v :: rest => Str.ofString "," ++ newline level ++ text level v ++ textItems level rest

/-- The items of a dictionary after the first one. -/
def textFields (level : ℕ) : List (Str × Json) → Str
  | [] => []
  | (k, v) :: rest =>
      Str.ofString "," ++ newline level ++ quoted k ++ Str.ofString ": " ++ text level v
        ++ textFields level rest

end

/-! ### Nesting -/

mutual

/-- How many lists and dictionaries are nested in a value. -/
def depth : Json → ℕ
  | .list items => depthItems items + 1
  | .dict items => depthFields items + 1
  | _ => 0

/-- The depth of the deepest item. -/
def depthItems : List Json → ℕ
  | [] => 0
  | v :: rest => max (depth v) (depthItems rest)

/-- The depth of the deepest value. -/
def depthFields : List (Str × Json) → ℕ
  | [] => 0
  | (_, v) :: rest => max (depth v) (depthFields rest)

end

/-! ### Strings -/

mutual

/-- No string of a value has a surrogate, keys included. -/
def Encodable : Json → Prop
  | .str s => s.Encodable
  | .list items => EncodableItems items
  | .dict items => EncodableFields items
  | _ => True

/-- No string of the items of a list has a surrogate. -/
def EncodableItems : List Json → Prop
  | [] => True
  | v :: rest => Encodable v ∧ EncodableItems rest

/-- No string of the items of a dictionary has a surrogate. -/
def EncodableFields : List (Str × Json) → Prop
  | [] => True
  | (k, v) :: rest => k.Encodable ∧ Encodable v ∧ EncodableFields rest

end

theorem encodableItems_iff {items : List Json} :
  EncodableItems items ↔ ∀ v ∈ items, v.Encodable
  := by
  induction items with
  | nil => simp [EncodableItems]
  | cons v rest ih => simp [EncodableItems, ih]

theorem encodableFields_iff {items : List (Str × Json)} :
  EncodableFields items ↔ ∀ i ∈ items, i.1.Encodable ∧ i.2.Encodable
  := by
  induction items with
  | nil => simp [EncodableFields]
  | cons i rest ih => simp [EncodableFields, ih, and_assoc]

theorem depthItems_le_iff {items : List Json} {n : ℕ} :
  depthItems items ≤ n ↔ ∀ v ∈ items, v.depth ≤ n
  := by
  induction items with
  | nil => simp [depthItems]
  | cons v rest ih => simp [depthItems, ih]

theorem depthFields_le_iff {items : List (Str × Json)} {n : ℕ} :
  depthFields items ≤ n ↔ ∀ i ∈ items, i.2.depth ≤ n
  := by
  induction items with
  | nil => simp [depthFields]
  | cons i rest ih => simp [depthFields, ih]

/-- A list is one level deeper than its items. -/
@[simp]
theorem depth_list_le_iff {items : List Json} {n : ℕ} :
  (list items).depth ≤ n + 1 ↔ ∀ v ∈ items, v.depth ≤ n
  := by
  rw [depth, add_le_add_iff_right, depthItems_le_iff]

/-- A dictionary is one level deeper than its values. -/
@[simp]
theorem depth_dict_le_iff {items : List (Str × Json)} {n : ℕ} :
  (dict items).depth ≤ n + 1 ↔ ∀ i ∈ items, i.2.depth ≤ n
  := by
  rw [depth, add_le_add_iff_right, depthFields_le_iff]

@[simp]
theorem depth_str (s : Str) :
  (str s).depth = 0
  := rfl

@[simp]
theorem depth_int (n : ℤ) :
  (int n).depth = 0
  := rfl

@[simp]
theorem depth_bool (b : Bool) :
  (bool b).depth = 0
  := rfl

/-! ### Which texts have an encoding -/

/-- What is escaped is not a surrogate, and a surrogate is left as it is. -/
theorem encodable_escape (c : CodePoint) :
  (escape c).Encodable ↔ (Str.scalar? c).isSome
  := by
  cases c with
  | scalar d =>
      simp only [Str.scalar?, Option.isSome_some, iff_true]
      rw [escape]
      split
      · apply Str.encodable_ofString
      · split
        · apply Str.encodable_map_scalar
        · apply Str.encodable_map_scalar [d]
  | surrogate n =>
      have hlookup : escapes.lookup (CodePoint.surrogate n).toNat = none := by
        have hsmall : ∀ i ∈ escapes, i.1 < 0xD800 := by decide
        apply List.lookup_eq_none_iff.mpr
        intro i hi
        have hlt := hsmall i hi
        rw [CodePoint.toNat, bne_iff_ne]
        omega
      have hescape : escape (.surrogate n) = [.surrogate n] := by
        rw [escape, hlookup]
        apply if_neg
        rw [CodePoint.toNat]
        omega
      rw [hescape, Str.encodable_iff_forall]
      simp

theorem encodable_quoted (s : Str) :
  (quoted s).Encodable ↔ s.Encodable
  := by
  have hflatMap : Str.Encodable (s.flatMap escape) ↔ s.Encodable := by
    rw [Str.encodable_iff_forall (s := s)]
    induction s with
    | nil => simp [Str.encodable_iff_forall]
    | cons c s ih =>
        rw [List.flatMap_cons, Str.encodable_append, encodable_escape, ih, List.forall_mem_cons]
  rw [quoted, Str.encodable_append, Str.encodable_append, hflatMap]
  simp [Str.encodable_ofString]

theorem encodable_newline (level : ℕ) :
  (newline level).Encodable
  := Str.encodable_map_scalar _

theorem encodable_repr (x : Double) :
  x.repr.Encodable
  := by
  rw [Double.repr]
  split
  · apply Str.encodable_ofString
  · dsimp only
    split
    · apply Str.encodable_map_scalar
    · apply Str.encodable_map_scalar

theorem encodable_floatText (x : Double) :
  (floatText x).Encodable
  := by
  rw [floatText]
  split
  · apply Str.encodable_ofString
  · split
    · apply Str.encodable_ofString
    · apply encodable_repr

mutual

/-- The text of a value has an encoding exactly when its strings have one. -/
theorem encodable_text (level : ℕ) (v : Json) :
  (text level v).Encodable ↔ v.Encodable
  := by
  cases v with
  | null => simp [text, Encodable, Str.encodable_ofString]
  | bool b => simp [text, Encodable, Str.encodable_ofString]
  | int n => simp [text, Encodable, intStr, Str.encodable_map_scalar]
  | float x => simp [text, Encodable, encodable_floatText]
  | str s => simp [text, Encodable, encodable_quoted]
  | list items =>
      cases items with
      | nil => simp [text, Encodable, EncodableItems, Str.encodable_ofString]
      | cons v rest =>
          simp [text, Encodable, EncodableItems, Str.encodable_ofString, encodable_newline,
            encodable_text (level + 1) v, encodable_textItems (level + 1) rest]
  | dict items =>
      cases items with
      | nil => simp [text, Encodable, EncodableFields, Str.encodable_ofString]
      | cons i rest =>
          obtain ⟨k, v⟩ := i
          simp [text, Encodable, EncodableFields, Str.encodable_ofString, encodable_newline,
            encodable_quoted, encodable_text (level + 1) v, encodable_textFields (level + 1) rest]

theorem encodable_textItems (level : ℕ) (items : List Json) :
  (textItems level items).Encodable ↔ EncodableItems items
  := by
  cases items with
  | nil => simp [textItems, EncodableItems, Str.encodable_iff_forall]
  | cons v rest =>
      simp [textItems, EncodableItems, Str.encodable_ofString, encodable_newline,
        encodable_text level v, encodable_textItems level rest]

theorem encodable_textFields (level : ℕ) (items : List (Str × Json)) :
  (textFields level items).Encodable ↔ EncodableFields items
  := by
  cases items with
  | nil => simp [textFields, EncodableFields, Str.encodable_iff_forall]
  | cons i rest =>
      obtain ⟨k, v⟩ := i
      simp [textFields, EncodableFields, Str.encodable_ofString, encodable_newline,
        encodable_quoted, encodable_text level v, encodable_textFields level rest]

end

/-! ### Writing and copying -/

/-- A value nested at most `n` deep whose strings have an encoding. -/
def Writable (n : ℕ) (v : Json) : Prop := v.depth ≤ n ∧ v.Encodable

@[simp]
theorem writable_str {n : ℕ} {s : Str} :
  Writable n (.str s) ↔ s.Encodable
  := by
  simp [Writable, depth, Encodable]

@[simp]
theorem writable_null (n : ℕ) :
  Writable n .null
  := by
  simp [Writable, depth, Encodable]

@[simp]
theorem writable_bool (n : ℕ) (b : Bool) :
  Writable n (.bool b)
  := by
  simp [Writable, depth, Encodable]

@[simp]
theorem writable_int (n : ℕ) (m : ℤ) :
  Writable n (.int m)
  := by
  simp [Writable, depth, Encodable]

@[simp]
theorem writable_float (n : ℕ) (x : Double) :
  Writable n (.float x)
  := by
  simp [Writable, depth, Encodable]

/-- A list can be written exactly when its items can, one level further in. -/
@[simp]
theorem writable_list {n : ℕ} {items : List Json} :
  Writable (n + 1) (.list items) ↔ ∀ v ∈ items, Writable n v
  := by
  simp [Writable, depth, Encodable, encodableItems_iff, depthItems_le_iff, forall_and]

/-- A dictionary can be written exactly when its keys and its values can. -/
@[simp]
theorem writable_dict {n : ℕ} {items : List (Str × Json)} :
  Writable (n + 1) (.dict items) ↔ ∀ i ∈ items, i.1.Encodable ∧ Writable n i.2
  := by
  simp only [Writable, depth, Encodable, encodableFields_iff, add_le_add_iff_right,
    depthFields_le_iff, forall_and]
  tauto

/-- A value can be written where there is more room. -/
theorem Writable.mono {n m : ℕ} {v : Json} (h : Writable n v) (hle : n ≤ m) :
  Writable m v
  := ⟨h.1.trans hle, h.2⟩

section RecursionLimit

variable [RecursionLimit]

/-- `json.dumps(v, ensure_ascii=False, indent=2)`. -/
def dumps (v : Json) : Except Exc Str :=
  if v.depth ≤ RecursionLimit.dumpDepth then .ok (text 0 v) else .error .recursionError

/-- `copy.deepcopy(v)`, which is equal to `v`. -/
def deepcopy (v : Json) : Except Exc Json :=
  if v.depth ≤ RecursionLimit.copyDepth then .ok v else .error .recursionError

end RecursionLimit

/-- `s.encode("utf-8")`, as the text that the bytes stand for. -/
def encode (s : Str) : Except Exc String :=
  match s.toString? with
  | some t => .ok t
  | none => .error .unicodeEncodeError

variable [RecursionLimit]

/-- A value is written and encoded without an exception exactly when it can be written. -/
theorem exists_dumps_encode_iff {v : Json} :
  (∃ body, dumps v >>= encode = .ok body) ↔ Writable RecursionLimit.dumpDepth v
  := by
  rw [dumps, Writable]
  split
  · rename_i h
    rw [← encodable_text 0 v, Str.encodable_iff]
    cases hbody : (text 0 v).toString? with
    | none => simp [bind, Except.bind, encode, hbody]
    | some body => simp [bind, Except.bind, encode, hbody, h]
  · rename_i h
    simp [bind, Except.bind, h]

end Json

end Python
