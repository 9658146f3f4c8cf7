import ResourceDistribution.Node.OsString
import ResourceDistribution.Python.Scanner

/-!
# Writing requests

The text that `serde_json` writes for a value, without white space. What a node sends is made of
unsigned numbers, strings, lists and objects (`Sendable`), and of its text the tracker's `json.loads`
makes the same value again (`loads_compact`).
-/

open Python Python.Json

namespace Node

/-! ### Texts -/

/-- A character within a JSON string. -/
def escapeChar (c : Char) : List Char :=
  match escapes.lookup c.toNat with
  | some s => s.toList
  | none =>
      if c.toNat < 0x20 then
        "\\u00".toList ++ [Nat.digitChar (c.toNat / 16), Nat.digitChar (c.toNat % 16)]
      else [c]

/-- A JSON string. A Rust string has no surrogates. -/
def strText (s : Str) : List Char :=
  Char.ofNat 0x22 :: (s.filterMap Str.scalar?).flatMap escapeChar ++ [Char.ofNat 0x22]

mutual

/-- The text of a value. -/
def compact : Json → List Char
  | .null => "null".toList
  | .bool b => (if b then "true" else "false").toList
  | .int n => (if n < 0 then ['-'] else []) ++ Nat.toDigits 10 n.natAbs
  | .float x => if x.isNan || x.isInf then "null".toList else x.repr.filterMap Str.scalar?
  | .str s => strText s
  | .list items => Char.ofNat 0x5B :: (compactItems items).tail ++ [Char.ofNat 0x5D]
  | .dict items => Char.ofNat 0x7B :: (compactFields items).tail ++ [Char.ofNat 0x7D]

/-- The items of a list, with a comma before each. -/
def compactItems : List Json → List Char
  | [] => []
  | v :: rest => ',' :: compact v ++ compactItems rest

/-- The items of an object, with a comma before each. -/
def compactFields : List (Str × Json) → List Char
  | [] => []
  | (k, v) :: rest => ',' :: strText k ++ ':' :: compact v ++ compactFields rest

end

theorem tail_compactItems (v : Json) (items : List Json) :
  (compactItems (v :: items)).tail = compact v ++ compactItems items
  := by
  rw [compactItems]
  rfl

theorem tail_compactFields (k : Str) (v : Json) (items : List (Str × Json)) :
  (compactFields ((k, v) :: items)).tail
    = strText k ++ ':' :: (compact v ++ compactFields items)
  := by
  rw [compactFields, List.append_assoc]
  rfl

mutual

/-- A value that a node may send: its numbers are unsigned and of at most 64 bits, its strings are
Rust strings, and the keys of its objects are distinct. -/
def Sendable : Json → Prop
  | .int n => 0 ≤ n ∧ n < 2 ^ 64
  | .str s => s.Encodable
  | .list items => SendableItems items
  | .dict items => SendableFields items ∧ (items.map Prod.fst).Nodup
  | _ => False

/-- The items of a list are such values. -/
def SendableItems : List Json → Prop
  | [] => True
  | v :: rest => Sendable v ∧ SendableItems rest

/-- The items of an object are such values. -/
def SendableFields : List (Str × Json) → Prop
  | [] => True
  | (k, v) :: rest => k.Encodable ∧ Sendable v ∧ SendableFields rest

end

theorem sendableItems_iff {items : List Json} :
  SendableItems items ↔ ∀ v ∈ items, Sendable v
  := by
  induction items with
  | nil => simp [SendableItems]
  | cons v rest ih => simp [SendableItems, ih]

theorem sendableFields_iff {items : List (Str × Json)} :
  SendableFields items ↔ ∀ i ∈ items, i.1.Encodable ∧ Sendable i.2
  := by
  induction items with
  | nil => simp [SendableFields]
  | cons i rest ih => simp [SendableFields, ih, and_assoc]

/-! ### Reading strings -/

theorem strText_ofString (s : String) :
  strText (Str.ofString s)
    = Char.ofNat 0x22 :: s.toList.flatMap escapeChar ++ [Char.ofNat 0x22]
  := by
  have hscalar : (Str.ofString s).filterMap Str.scalar? = s.toList := by
    rw [Str.ofString, List.filterMap_map]
    apply List.filterMap_some
  rw [strText, hscalar]

/-- The escapes of `serde_json` are those of `json.dump`. -/
theorem flatMap_escapeChar (l : List Char) :
  l.flatMap escapeChar ++ [Char.ofNat 0x22] = quotedBody l
  := by
  have hescape : escapeChar = fun c => chars (escape (.scalar c)) := by
    funext c
    rw [chars_escape]
    rfl
  rw [quotedBody, hescape]

/-- A string is read as it was written. -/
theorem scanQuoted_strText {s : Str} (hs : s.Encodable) (rest : List Char) :
  ∃ inner, strText s = Char.ofNat 0x22 :: inner ∧ scanQuoted (inner ++ rest) = .ok (s, rest)
  := by
  obtain ⟨t, rfl⟩ := hs
  use quotedBody t.toList
  constructor
  · rw [strText_ofString, ← flatMap_escapeChar]
    rfl
  · apply scanQuoted_quotedBody

/-! ### Reading numbers -/

/-- A number is read as it was written. -/
theorem scanNumber_toDigits {n : ℕ} (hn : n < 2 ^ 64) {rest : List Char} (hrest : Ends rest) :
  scanNumber (Nat.toDigits 10 n ++ rest) = .ok (.int n, rest)
  := by
  have hreadable : Readable n := by
    have hle : (Nat.toDigits 10 n).length ≤ 20 := by
      rw [Nat.length_toDigits_le_iff (by decide) (by decide)]
      omega
    apply hle.trans
    decide
  have hchars : intChars n = Nat.toDigits 10 n := by
    rw [intChars, decide_eq_false (not_lt.mpr (Int.natCast_nonneg n)), Int.natAbs_natCast]
    rfl
  rw [← hchars]
  apply scanNumber_intChars hreadable hrest

/-! ### Reading values -/

/-- A value begins with a quote, a bracket or a digit. -/
theorem exists_compact_eq_cons {v : Json} (hv : Sendable v) :
  ∃ c l, compact v = c :: l ∧ isJsonSpace c = false ∧ c.toNat ≠ 0x5D
  := by
  cases v with
  | int n =>
      obtain ⟨d, ds, hdigits, hd, -⟩ := exists_toDigits_eq_cons n.natAbs
      use d, ds
      have hspaces : ∀ c ∈ [' ', '\t', '\n', '\r', Char.ofNat 0x5D], c.isDigit = false := by
        simp only [List.forall_mem_cons, List.not_mem_nil, false_implies, implies_true, and_true]
        decide
      have hne : ∀ c ∈ [' ', '\t', '\n', '\r', Char.ofNat 0x5D], d ≠ c := by
        rintro c hc rfl
        cases (hspaces d hc).symm.trans hd
      simp only [List.forall_mem_cons] at hne
      obtain ⟨hspace, htab, hnewline, hreturn, hbracket, -⟩ := hne
      refine ⟨?_, ?_, ?_⟩
      · rw [compact, if_neg (not_lt.mpr hv.1), hdigits]
        rfl
      · simp [isJsonSpace, hspace, htab, hnewline, hreturn]
      · intro h
        apply hbracket
        rw [← h, Char.ofNat_toNat]
  | str s => exact ⟨_, _, by rw [compact, strText]; rfl, by decide, by decide⟩
  | list items => exact ⟨_, _, by rw [compact]; rfl, by decide, by decide⟩
  | dict items => exact ⟨_, _, by rw [compact]; rfl, by decide, by decide⟩
  | null => cases hv
  | bool b => cases hv
  | float x => cases hv

theorem skip_compact {v : Json} (hv : Sendable v) (rest : List Char) :
  skip (compact v ++ rest) = compact v ++ rest
  := by
  obtain ⟨c, l, hcompact, hspace, -⟩ := exists_compact_eq_cons hv
  rw [hcompact]
  apply skip_cons hspace

/-- Items, and the bracket that closes them, end a value before them. -/
theorem ends_compactItems (items : List Json) (rest : List Char) :
  Ends (compactItems items ++ Char.ofNat 0x5D :: rest)
  := by
  cases items with
  | nil => exact ends_cons (by decide) rest
  | cons v items =>
      rw [compactItems]
      exact ends_cons (by decide) _

theorem ends_compactFields (items : List (Str × Json)) (rest : List Char) :
  Ends (compactFields items ++ Char.ofNat 0x7D :: rest)
  := by
  cases items with
  | nil => exact ends_cons (by decide) rest
  | cons i items =>
      obtain ⟨k, v⟩ := i
      rw [compactFields]
      exact ends_cons (by decide) _

/-- The items of a list begin neither with white space nor with the bracket that closes it. -/
theorem skip_tail_compactItems {items : List Json} (hitems : SendableItems items) (hne : items ≠ [])
    (rest : List Char) :
  skip ((compactItems items).tail ++ rest) = (compactItems items).tail ++ rest ∧
    eat 0x5D ((compactItems items).tail ++ rest) = none
  := by
  cases items with
  | nil => cases hne rfl
  | cons v items =>
      obtain ⟨c, l, hcompact, -, hbracket⟩ := exists_compact_eq_cons hitems.1
      rw [tail_compactItems, List.append_assoc]
      constructor
      · apply skip_compact hitems.1
      · rw [hcompact]
        apply if_neg hbracket

/-- The items of an object begin with a quote. -/
theorem skip_tail_compactFields {items : List (Str × Json)} (hne : items ≠ []) (rest : List Char) :
  skip ((compactFields items).tail ++ rest) = (compactFields items).tail ++ rest ∧
    eat 0x7D ((compactFields items).tail ++ rest) = none
  := by
  cases items with
  | nil => cases hne rfl
  | cons i items =>
      obtain ⟨k, v⟩ := i
      rw [tail_compactFields, strText]
      constructor
      · apply skip_cons
        decide
      · rfl

theorem scanValue_compact_int {k : ℤ} (hk : Sendable (.int k)) {n : ℕ}
    (hn : (compact (.int k)).length ≤ n) (room : ℕ) {rest : List Char} (hrest : Ends rest) :
  scanValue n room (compact (.int k) ++ rest) = .ok (.int k, rest)
  := by
  obtain ⟨hnonneg, hbound⟩ := hk
  obtain ⟨d, ds, hdigits, hd, -⟩ := exists_toDigits_eq_cons k.natAbs
  have hcompact : compact (.int k) = Nat.toDigits 10 k.natAbs := by
    rw [compact, if_neg (not_lt.mpr hnonneg)]
    rfl
  have hcast : ((k.natAbs : ℕ) : ℤ) = k := Int.natAbs_of_nonneg hnonneg
  have hlt : k.natAbs < 2 ^ 64 := by omega
  rw [hcompact] at hn ⊢
  rw [hdigits] at hn
  obtain ⟨n, rfl⟩ := Nat.exists_eq_add_of_le' (show 1 ≤ n from (Nat.succ_pos ds.length).trans_le hn)
  rw [← hcast, ← scanNumber_toDigits hlt hrest, hcast, hdigits]
  apply scanValue_digit hd

theorem scanValue_compact_str {s : Str} (hs : s.Encodable) {n : ℕ}
    (hn : (compact (.str s)).length ≤ n) (room : ℕ) (rest : List Char) :
  scanValue n room (compact (.str s) ++ rest) = .ok (.str s, rest)
  := by
  obtain ⟨inner, htext, hscan⟩ := scanQuoted_strText hs rest
  rw [compact, htext] at hn ⊢
  cases n with
  | zero => cases hn
  | succ n =>
      rw [List.cons_append, scanValue_quote, hscan]
      rfl

/-- A list is read as it was written, if its items are. -/
theorem scanValue_compact_list {items : List Json} (hitems : SendableItems items) {n room : ℕ}
    {rest : List Char}
    (h : items ≠ [] → scanItems n room ((compactItems items).tail ++ Char.ofNat 0x5D :: rest)
      = .ok (items, rest)) :
  scanValue (n + 1) (room + 1) (compact (.list items) ++ rest) = .ok (.list items, rest)
  := by
  rw [compact, List.append_assoc, List.cons_append, List.singleton_append, scanValue_bracket]
  cases items with
  | nil => rfl
  | cons w items =>
      have hne : w :: items ≠ [] := List.cons_ne_nil w items
      obtain ⟨hskip, hopen⟩ := skip_tail_compactItems hitems hne (Char.ofNat 0x5D :: rest)
      rw [hskip, hopen, h hne]
      rfl

/-- An object is read as it was written, if its items are. -/
theorem scanValue_compact_dict {items : List (Str × Json)} (hnodup : (items.map Prod.fst).Nodup)
    {n room : ℕ} {rest : List Char}
    (h : items ≠ [] → scanFields n room ((compactFields items).tail ++ Char.ofNat 0x7D :: rest)
      = .ok (items, rest)) :
  scanValue (n + 1) (room + 1) (compact (.dict items) ++ rest) = .ok (.dict items, rest)
  := by
  rw [compact, List.append_assoc, List.cons_append, List.singleton_append, scanValue_brace]
  cases items with
  | nil => rfl
  | cons i items =>
      have hne : i :: items ≠ [] := List.cons_ne_nil i items
      obtain ⟨hskip, hopen⟩ := skip_tail_compactFields hne (Char.ofNat 0x7D :: rest)
      rw [hskip, hopen, h hne]
      simp only [Except.map, ofFields_eq hnodup]

mutual

/-- A value is read as it was written, if it is not nested too deep. -/
theorem scanValue_compact (v : Json) (hv : Sendable v) {n room : ℕ} (hn : (compact v).length ≤ n)
    (hroom : v.depth ≤ room) {rest : List Char} (hrest : Ends rest) :
  scanValue n room (compact v ++ rest) = .ok (v, rest)
  := by
  cases v with
  | null => cases hv
  | bool b => cases hv
  | float x => cases hv
  | int k => exact scanValue_compact_int hv hn room hrest
  | str s => exact scanValue_compact_str hv hn room rest
  | list items =>
      rw [depth] at hroom
      simp only [compact, List.length_append, List.length_cons, List.length_tail,
        List.length_nil] at hn
      obtain ⟨n, rfl⟩ := Nat.exists_eq_add_of_le' (show 1 ≤ n by omega)
      obtain ⟨room, rfl⟩ := Nat.exists_eq_add_of_le' (show 1 ≤ room by omega)
      apply scanValue_compact_list hv
      intro hne
      exact scanItems_compact items hv hne (by omega) (by omega) rest
  | dict items =>
      rw [depth] at hroom
      simp only [compact, List.length_append, List.length_cons, List.length_tail,
        List.length_nil] at hn
      obtain ⟨n, rfl⟩ := Nat.exists_eq_add_of_le' (show 1 ≤ n by omega)
      obtain ⟨room, rfl⟩ := Nat.exists_eq_add_of_le' (show 1 ≤ room by omega)
      apply scanValue_compact_dict hv.2
      intro hne
      exact scanFields_compact items hv.1 hne (by omega) (by omega) rest

/-- The items of a list are read as they were written. -/
theorem scanItems_compact (items : List Json) (hitems : SendableItems items) (hne : items ≠ [])
    {n room : ℕ} (hn : (compactItems items).length ≤ n) (hroom : depthItems items ≤ room)
    (rest : List Char) :
  scanItems n room ((compactItems items).tail ++ Char.ofNat 0x5D :: rest) = .ok (items, rest)
  := by
  cases items with
  | nil => cases hne rfl
  | cons v items =>
      rw [compactItems] at hn
      rw [depthItems, max_le_iff] at hroom
      simp only [List.length_cons, List.length_append] at hn
      cases n with
      | zero => omega
      | succ n =>
          have hvalue := scanValue_compact v hitems.1 (n := n) (by omega) hroom.1
            (ends_compactItems items rest)
          rw [tail_compactItems, List.append_assoc, scanItems, hvalue]
          cases items with
          | nil => rfl
          | cons w items =>
              have hrest := scanItems_compact (w :: items) hitems.2 (List.cons_ne_nil w items)
                (n := n) (by omega) hroom.2 rest
              rw [tail_compactItems, List.append_assoc] at hrest
              have hskip := skip_compact hitems.2.1
                (compactItems items ++ Char.ofNat 0x5D :: rest)
              have hcomma : eat 0x2C (skip (compactItems (w :: items) ++ Char.ofNat 0x5D :: rest))
                  = some (compact w ++ (compactItems items ++ Char.ofNat 0x5D :: rest)) := by
                rw [compactItems, List.append_assoc, List.cons_append, skip_cons (by decide)]
                rfl
              simp only [bind, Except.bind, hcomma, hskip, hrest]
              rfl

/-- The items of an object are read as they were written. -/
theorem scanFields_compact (items : List (Str × Json)) (hitems : SendableFields items)
    (hne : items ≠ []) {n room : ℕ} (hn : (compactFields items).length ≤ n)
    (hroom : depthFields items ≤ room) (rest : List Char) :
  scanFields n room ((compactFields items).tail ++ Char.ofNat 0x7D :: rest) = .ok (items, rest)
  := by
  cases items with
  | nil => cases hne rfl
  | cons i items =>
      obtain ⟨k, v⟩ := i
      rw [compactFields] at hn
      rw [depthFields, max_le_iff] at hroom
      simp only [List.length_cons, List.length_append] at hn
      cases n with
      | zero => omega
      | succ n =>
          have hvalue := scanValue_compact v hitems.2.1 (n := n) (by omega) hroom.1
            (ends_compactFields items rest)
          obtain ⟨inner, htext, hscan⟩ := scanQuoted_strText hitems.1
            (':' :: (compact v ++ (compactFields items ++ Char.ofNat 0x7D :: rest)))
          have hkey : eat 0x22 ((compactFields ((k, v) :: items)).tail ++ Char.ofNat 0x7D :: rest)
              = some (inner ++ ':' :: (compact v ++ (compactFields items
                ++ Char.ofNat 0x7D :: rest))) := by
            rw [tail_compactFields, htext]
            simp only [List.cons_append, List.append_assoc]
            rfl
          have hcolon : eat 0x3A (skip (':' :: (compact v ++ (compactFields items
              ++ Char.ofNat 0x7D :: rest))))
              = some (compact v ++ (compactFields items ++ Char.ofNat 0x7D :: rest)) := rfl
          have hskip := skip_compact hitems.2.1 (compactFields items ++ Char.ofNat 0x7D :: rest)
          simp only [scanFields, hkey, hscan, bind, Except.bind, hcolon, hskip, hvalue]
          cases items with
          | nil => rfl
          | cons i items =>
              obtain ⟨k', w⟩ := i
              have hrest := scanFields_compact ((k', w) :: items) hitems.2.2
                (List.cons_ne_nil _ items) (n := n) (by omega) hroom.2 rest
              have hcomma : eat 0x2C (skip (compactFields ((k', w) :: items)
                  ++ Char.ofNat 0x7D :: rest))
                  = some ((compactFields ((k', w) :: items)).tail ++ Char.ofNat 0x7D :: rest) := by
                have hcons : compactFields ((k', w) :: items)
                    = ',' :: (compactFields ((k', w) :: items)).tail := by
                  rw [tail_compactFields, compactFields]
                  simp only [List.cons_append, List.append_assoc]
                rw [hcons, List.cons_append, skip_cons (by decide)]
                rfl
              have hquote := (skip_tail_compactFields (List.cons_ne_nil (k', w) items)
                (Char.ofNat 0x7D :: rest)).1
              simp only [hcomma, hquote, hrest]
              rfl

end

/-- What a node writes is read as what it wrote, if it is not nested too deep. -/
theorem loads_compact [RecursionLimit] {v : Json} (hv : Sendable v)
    (hdepth : v.depth ≤ RecursionLimit.loadDepth) :
  loads (String.ofList (compact v)) = .ok v
  := by
  have hends : Ends [] := by
    intro c hc
    cases hc
  have hscan := scanValue_compact v hv (n := (compact v).length + 1) (by omega) hdepth hends
  have hskip := skip_compact hv []
  rw [List.append_nil] at hscan hskip
  simp only [loads, String.toList_ofList, hskip, hscan, bind, Except.bind]
  rfl

end Node
