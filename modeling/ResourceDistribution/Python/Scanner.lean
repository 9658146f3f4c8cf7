import ResourceDistribution.Python.Dumps
import ResourceDistribution.Python.Loads

/-!
# What the scanner reads

How the scanner of `json.loads` reads the texts that values are written as: strings with their escapes,
numbers in front of what may follow a value (`Ends`), and the first character that tells the kind of a
value.
-/

namespace Python

namespace Json

/-! ### Strings -/

/-- The characters of a string without surrogates. -/
def chars (s : Str) : List Char := s.filterMap Str.scalar?

@[simp]
theorem chars_append (s t : Str) :
  chars (s ++ t) = chars s ++ chars t
  := List.filterMap_append

@[simp]
theorem chars_map_scalar (l : List Char) :
  chars (l.map .scalar) = l
  := by
  rw [chars, List.filterMap_map]
  apply List.filterMap_some

@[simp]
theorem chars_ofString (s : String) :
  chars (Str.ofString s) = s.toList
  := chars_map_scalar s.toList

/-- A string without surrogates is its characters. -/
theorem map_scalar_chars {s : Str} (hs : s.Encodable) :
  (chars s).map .scalar = s
  := by
  obtain ⟨t, rfl⟩ := hs
  rw [chars_ofString]
  rfl

/-- The characters of a character within a JSON string. -/
theorem chars_escape (c : Char) :
  chars (escape (.scalar c)) =
    match escapes.lookup c.toNat with
    | some s => s.toList
    | none =>
        if c.toNat < 0x20 then
          "\\u00".toList ++ [Nat.digitChar (c.toNat / 16), Nat.digitChar (c.toNat % 16)]
        else [c]
  := by
  have hescape : escape (.scalar c) =
      match escapes.lookup c.toNat with
      | some s => Str.ofString s
      | none =>
          if c.toNat < 0x20 then
            ("\\u00".toList ++ [Nat.digitChar (c.toNat / 16), Nat.digitChar (c.toNat % 16)]).map
              .scalar
          else [c].map .scalar := rfl
  rw [hescape]
  cases escapes.lookup c.toNat with
  | some s => apply chars_ofString
  | none =>
      by_cases hlt : c.toNat < 0x20
      · simp only [if_pos hlt, chars_map_scalar]
      · simp only [if_neg hlt, chars_map_scalar]

/-- A character is read as it was written. -/
theorem scanString_escape (c : Char) (rest : List Char) :
  scanString (chars (escape (.scalar c)) ++ rest) = push (.scalar c) (scanString rest)
  := by
  cases hlookup : escapes.lookup c.toNat with
  | some s =>
      have hletter : ∀ i ∈ escapes, ∃ e, i.2.toList = [Char.ofNat 0x5C, e] ∧ e ≠ 'u' ∧
          unescape e = some (Char.ofNat i.1) := by
        simp only [escapes, List.forall_mem_cons, List.not_mem_nil, false_implies, implies_true,
          and_true]
        refine ⟨⟨_, rfl, ?_⟩, ⟨_, rfl, ?_⟩, ⟨_, rfl, ?_⟩, ⟨_, rfl, ?_⟩, ⟨_, rfl, ?_⟩,
          ⟨_, rfl, ?_⟩, ⟨_, rfl, ?_⟩⟩
        all_goals decide
      obtain ⟨e, hs, he, hd⟩ := hletter (c.toNat, s) (Dict.mem_of_lookup_eq_some hlookup)
      rw [Char.ofNat_toNat] at hd
      simp only [chars_escape, hlookup, hs]
      apply scanString_letter hd he
  | none =>
      have hnot : c.toNat ≠ 0x22 ∧ c.toNat ≠ 0x5C := by
        constructor
        all_goals
          intro h
          rw [h] at hlookup
          revert hlookup
          decide
      simp only [chars_escape, hlookup]
      by_cases hlt : c.toNat < 0x20
      · have hhex : ∀ n < 0x20,
            hexFour '0' '0' (Nat.digitChar (n / 16)) (Nat.digitChar (n % 16)) = some n := by
          decide
        have hunit : ofCodeUnit c.toNat = .scalar c := by
          rw [ofCodeUnit, dif_neg (by omega), Char.ofNat_toNat]
        rw [if_pos hlt, ← hunit]
        apply scanString_unit (hhex _ hlt)
      · rw [if_neg hlt]
        apply scanString_char hnot.1 hnot.2 hlt

/-- Characters up to the closing quote are read as they were written. -/
theorem scanString_flatMap (l rest : List Char) :
  scanString (l.flatMap (fun c => chars (escape (.scalar c))) ++ Char.ofNat 0x22 :: rest)
    = .ok (l.map .scalar, rest)
  := by
  induction l with
  | nil => apply scanString_quote
  | cons c l ih =>
      rw [List.flatMap_cons, List.append_assoc, scanString_escape, ih]
      rfl

theorem joinSurrogates_map_scalar (l : List Char) :
  joinSurrogates (l.map .scalar) = l.map .scalar
  := by
  induction l with
  | nil => rfl
  | cons c l ih =>
      cases l with
      | nil => rfl
      | cons d l =>
          rw [List.map_cons, List.map_cons, joinSurrogates]
          · rw [← List.map_cons, ih]
          · intro _ _ h
            cases h

/-- The characters of a string after its opening quote, with their escapes. -/
def quotedBody (l : List Char) : List Char :=
  l.flatMap (fun c => chars (escape (.scalar c))) ++ [Char.ofNat 0x22]

/-- A string is read as it was written. -/
theorem scanQuoted_quotedBody (l rest : List Char) :
  scanQuoted (quotedBody l ++ rest) = .ok (l.map .scalar, rest)
  := by
  rw [quotedBody, scanQuoted, List.append_assoc, List.singleton_append, scanString_flatMap]
  simp only [Except.map, joinSurrogates_map_scalar]

/-! ### Numbers -/

/-- No digit stands at the beginning. -/
def NoDigit (rest : List Char) : Prop := ∀ c ∈ rest.head?, c.isDigit = false

/-- What may follow a value within a list or an object: nothing, a comma, a closing bracket or a new
line. -/
def Ends (rest : List Char) : Prop := ∀ c ∈ rest.head?, c ∈ [0x2C, 0x5D, 0x7D, 0x0A].map Char.ofNat

theorem ends_cons {c : Char} (h : c ∈ [0x2C, 0x5D, 0x7D, 0x0A].map Char.ofNat) (rest : List Char) :
  Ends (c :: rest)
  := by
  intro d hd
  rw [← Option.mem_some_iff.mp hd]
  exact h

/-- Where a value ends, no digit, fraction or exponent follows. -/
theorem Ends.scan {rest : List Char} (h : Ends rest) :
  NoDigit rest ∧ scanFraction rest = (none, rest) ∧ scanExponent rest = (none, rest)
  := by
  cases rest with
  | nil =>
      refine ⟨?_, rfl, rfl⟩
      intro c hc
      cases hc
  | cons c rest =>
      have hc : c ∈ [0x2C, 0x5D, 0x7D, 0x0A].map Char.ofNat := h c rfl
      have hclosed : ∀ d ∈ [0x2C, 0x5D, 0x7D, 0x0A].map Char.ofNat,
          d.isDigit = false ∧ d.toNat ≠ 0x2E ∧ d.toNat ≠ 0x65 ∧ d.toNat ≠ 0x45 := by
        rw [List.forall_mem_map]
        decide
      obtain ⟨hdigit, hpoint, he, hE⟩ := hclosed c hc
      refine ⟨?_, ?_, ?_⟩
      · intro d hd
        rw [← Option.mem_some_iff.mp hd]
        exact hdigit
      · simp [scanFraction, eat, hpoint]
      · simp [scanExponent, eat, he, hE]

/-- A digit does not have the number of another character. -/
theorem toNat_ne_of_isDigit {d : Char} (hd : d.isDigit = true) {n : ℕ}
    (hn : (Char.ofNat n).isDigit = false) :
  d.toNat ≠ n
  := by
  intro h
  rw [← h, Char.ofNat_toNat, hd] at hn
  cases hn

/-- Digits are read up to what follows them. -/
theorem scanDigits_append {ds : List Char} (hds : ∀ c ∈ ds, c.isDigit = true) {rest : List Char}
    (hrest : NoDigit rest) :
  scanDigits (ds ++ rest) = (ds, rest)
  := by
  rw [scanDigits, List.takeWhile_append_of_pos hds, List.dropWhile_append_of_pos hds]
  cases rest with
  | nil => simp
  | cons c rest =>
      have hc := hrest c rfl
      simp [hc]

/-- Digits before a point: a zero, or digits that do not begin with one. -/
structure Whole (ds : List Char) : Prop where
  isDigit : ∀ c ∈ ds, c.isDigit = true
  ne_nil : ds ≠ []
  zero : ds = ['0'] ∨ ds.head? ≠ some '0'

theorem Whole.exists_eq_cons {ds : List Char} (h : Whole ds) :
  ∃ d rest, ds = d :: rest ∧ d.isDigit = true
  := by
  obtain ⟨d, rest, rfl⟩ := List.exists_cons_of_ne_nil h.ne_nil
  exact ⟨d, rest, rfl, h.isDigit d List.mem_cons_self⟩

theorem scanInteger_append {ds : List Char} (hds : Whole ds) {rest : List Char}
    (hrest : NoDigit rest) :
  scanInteger (ds ++ rest) = (ds, rest)
  := by
  rcases hds.zero with rfl | hzero
  · rfl
  · obtain ⟨d, ds, rfl, -⟩ := hds.exists_eq_cons
    have hne : d.toNat ≠ 0x30 := by
      intro h
      apply hzero
      rw [List.head?_cons, ← Char.ofNat_toNat d, h]
    have heat : eat 0x30 (d :: ds ++ rest) = none := if_neg hne
    simp only [scanInteger, heat]
    apply scanDigits_append hds.isDigit hrest

/-- The sign of a number. -/
def sign (negative : Bool) : List Char := if negative then ['-'] else []

theorem scanMinus_sign (negative : Bool) {ds : List Char} (hds : Whole ds) (rest : List Char) :
  scanMinus (sign negative ++ (ds ++ rest)) = (negative, ds ++ rest)
  := by
  cases negative with
  | true => rfl
  | false =>
      obtain ⟨d, ds, rfl, hd⟩ := hds.exists_eq_cons
      have heat : eat 0x2D (d :: ds ++ rest) = none :=
        if_neg (toNat_ne_of_isDigit hd (by decide))
      simp only [sign, scanMinus, heat, Bool.false_eq_true, if_false, List.nil_append]

/-- The digits of a number: the first one is a zero for zero only. -/
theorem exists_toDigits_eq_cons (n : ℕ) :
  ∃ d ds, Nat.toDigits 10 n = d :: ds ∧ d.isDigit = true ∧ (n ≠ 0 → d ≠ '0')
  := by
  induction n using Nat.strong_induction_on with
  | h n ih =>
      rcases Nat.lt_or_ge n 10 with hlt | hge
      · use Nat.digitChar n, [], Nat.toDigits_of_lt_base hlt
        have hdigits : ∀ n < 10, (Nat.digitChar n).isDigit = true ∧
            (n ≠ 0 → Nat.digitChar n ≠ '0') := by
          decide
        apply hdigits n hlt
      · obtain ⟨d, ds, hn, hd, hne⟩ := ih (n / 10) (by omega)
        use d, ds ++ [(n % 10).digitChar]
        rw [Nat.toDigits_of_base_le (by decide) hge, hn]
        refine ⟨rfl, hd, fun _ => hne (by omega)⟩

theorem isDigit_of_mem_toDigits {n : ℕ} {c : Char} (h : c ∈ Nat.toDigits 10 n) :
  c.isDigit = true
  := Nat.isDigit_of_mem_toDigits (by decide) (by decide) h

theorem whole_toDigits (n : ℕ) :
  Whole (Nat.toDigits 10 n)
  := by
  constructor
  · intro c hc
    apply isDigit_of_mem_toDigits hc
  · apply Nat.toDigits_ne_nil
  · by_cases hn : n = 0
    · left
      rw [hn]
      rfl
    · right
      obtain ⟨d, ds, hdigits, -, hne⟩ := exists_toDigits_eq_cons n
      rw [hdigits, List.head?_cons]
      intro h
      apply hne hn (Option.some.inj h)

/-- The characters of an integer. -/
def intChars (n : ℤ) : List Char := sign (decide (n < 0)) ++ Nat.toDigits 10 n.natAbs

/-- The integer has no more digits than `int` reads. -/
def Readable (n : ℤ) : Prop := (Nat.toDigits 10 n.natAbs).length ≤ Str.maxStrDigits

theorem readable_iff {n : ℤ} :
  Readable n ↔ n.natAbs < 10 ^ Str.maxStrDigits
  := Nat.length_toDigits_le_iff (by decide) (by decide)

/-- A number below a small power of ten can be read. -/
theorem readable_of_lt {n : ℤ} {k : ℕ} (hlt : n.natAbs < 10 ^ k) (hk : k ≤ Str.maxStrDigits) :
  Readable n
  := readable_iff.mpr (hlt.trans_le (Nat.pow_le_pow_right (by decide) hk))

/-- An integer is read as it was written. -/
theorem scanNumber_intChars {n : ℤ} (hn : Readable n) {rest : List Char} (hrest : Ends rest) :
  scanNumber (intChars n ++ rest) = .ok (.int n, rest)
  := by
  have hwhole := whole_toDigits n.natAbs
  obtain ⟨hdigit, hfraction, hexponent⟩ := hrest.scan
  simp only [intChars, scanNumber, List.append_assoc, scanMinus_sign _ hwhole,
    scanInteger_append hwhole hdigit, if_neg hwhole.ne_nil, hfraction, hexponent, and_self, if_true,
    if_neg (not_lt.mpr hn), Nat.ofDigitChars_toDigits (by decide : 1 < 10) (le_refl 10)]
  have hvalue : (if decide (n < 0) = true then -((n.natAbs : ℕ) : ℤ) else n.natAbs) = n := by
    split
    · rename_i hneg
      have hlt := of_decide_eq_true hneg
      omega
    · rename_i hneg
      rw [decide_eq_true_eq] at hneg
      omega
  rw [hvalue]

/-- The digits after a point are read up to what follows them. -/
theorem scanFraction_point {ds : List Char} (hds : ∀ c ∈ ds, c.isDigit = true) (hne : ds ≠ [])
    {rest : List Char} (hrest : NoDigit rest) :
  scanFraction ('.' :: (ds ++ rest)) = (some ds, rest)
  := by
  have heat : eat 0x2E ('.' :: (ds ++ rest)) = some (ds ++ rest) := rfl
  obtain ⟨d, l, rfl⟩ := List.exists_cons_of_ne_nil hne
  simp only [scanFraction, heat, scanDigits_append hds hrest]

/-- An exponent is read up to what follows it. -/
theorem scanExponent_e (negative : Bool) {ds : List Char} (hds : ∀ c ∈ ds, c.isDigit = true)
    (hne : ds ≠ []) {rest : List Char} (hrest : NoDigit rest) :
  scanExponent ('e' :: (if negative then '-' else '+') :: (ds ++ rest))
    = (some (if negative then -(Nat.ofDigitChars 10 ds 0 : ℤ) else Nat.ofDigitChars 10 ds 0), rest)
  := by
  have hscan := scanDigits_append hds hrest
  obtain ⟨d, l, rfl⟩ := List.exists_cons_of_ne_nil hne
  cases negative with
  | true =>
      have heat : eat 0x65 ('e' :: '-' :: (d :: l ++ rest)) = some ('-' :: (d :: l ++ rest)) := rfl
      have hplus : eat 0x2B ('-' :: (d :: l ++ rest)) = none := rfl
      have hminus : scanMinus ('-' :: (d :: l ++ rest)) = (true, d :: l ++ rest) := rfl
      simp only [scanExponent, if_true, heat, Option.some_or, hplus, hminus, hscan]
  | false =>
      have heat : eat 0x65 ('e' :: '+' :: (d :: l ++ rest)) = some ('+' :: (d :: l ++ rest)) := rfl
      have hplus : eat 0x2B ('+' :: (d :: l ++ rest)) = some (d :: l ++ rest) := rfl
      simp only [scanExponent, Bool.false_eq_true, if_false, heat, Option.some_or, hplus, hscan]

/-- A number with a fraction or an exponent is read as a float. -/
theorem scanNumber_float (negative : Bool) {ds s s' rest : List Char} (hds : Whole ds)
    (hs : NoDigit s) {fraction : Option (List Char)} (hfraction : scanFraction s = (fraction, s'))
    {exponent : Option ℤ} (hexponent : scanExponent s' = (exponent, rest))
    (hfloat : ¬ (fraction = none ∧ exponent = none)) :
  scanNumber (sign negative ++ (ds ++ s))
    = .ok (.float (.ofDecimal negative (Nat.ofDigitChars 10 (ds ++ fraction.getD []) 0)
        (exponent.getD 0 - (fraction.getD []).length)), rest)
  := by
  simp only [scanNumber, scanMinus_sign negative hds, scanInteger_append hds hs, if_neg hds.ne_nil,
    hfraction, hexponent, if_neg hfloat]

/-! ### Values -/

theorem skip_cons {c : Char} (h : isJsonSpace c = false) (rest : List Char) :
  skip (c :: rest) = c :: rest
  := List.dropWhile_cons_of_neg (ne_true_of_eq_false h)

/-- A text that begins with a digit is a number. -/
theorem scanValue_digit {d : Char} (hd : d.isDigit = true) (n room : ℕ) (rest : List Char) :
  scanValue (n + 1) room (d :: rest) = scanNumber (d :: rest)
  := by
  have heat : ∀ k : ℕ, (Char.ofNat k).isDigit = false → eat k (d :: rest) = none := fun k hk =>
    if_neg (toNat_ne_of_isDigit hd hk)
  have hliteral : scanLiteral (d :: rest) = none := by
    apply List.findSome?_eq_none_iff.mpr
    have hfirst : ∀ i ∈ literals, ∃ c l, i.1.toList = c :: l ∧ c.isDigit = false := by
      simp only [literals, List.forall_mem_cons, List.not_mem_nil, false_implies, implies_true,
        and_true]
      refine ⟨⟨_, _, rfl, ?_⟩, ⟨_, _, rfl, ?_⟩, ⟨_, _, rfl, ?_⟩, ⟨_, _, rfl, ?_⟩,
        ⟨_, _, rfl, ?_⟩, ⟨_, _, rfl, ?_⟩⟩
      all_goals decide
    intro i hi
    obtain ⟨c, l, htoList, hc⟩ := hfirst i hi
    rw [htoList, List.isPrefixOf?, if_neg]
    · rfl
    · rw [beq_iff_eq]
      rintro rfl
      rw [hd] at hc
      cases hc
  simp only [scanValue, heat 0x22 (by decide), heat 0x5B (by decide), heat 0x7B (by decide),
    hliteral]

/-- A text that begins with a minus sign and a digit is a number. -/
theorem scanValue_minus {d : Char} (hd : d.isDigit = true) (n room : ℕ) (rest : List Char) :
  scanValue (n + 1) room ('-' :: d :: rest) = scanNumber ('-' :: d :: rest)
  := by
  have hliteral : scanLiteral ('-' :: d :: rest) = none := by
    have hI : ('I' == d) = false := by
      rw [beq_eq_false_iff_ne]
      rintro rfl
      cases hd
    simp [scanLiteral, literals, List.findSome?, List.isPrefixOf?, hI]
  have heat : ∀ k : ℕ, 0x2D ≠ k → eat k ('-' :: d :: rest) = none := fun k hk => if_neg hk
  simp only [scanValue, heat 0x22 (by decide), heat 0x5B (by decide), heat 0x7B (by decide),
    hliteral]

/-- A text that begins with the digits of a number is a number. -/
theorem scanValue_sign (negative : Bool) {ds : List Char} (hds : Whole ds) (n room : ℕ)
    (rest : List Char) :
  scanValue (n + 1) room (sign negative ++ (ds ++ rest)) = scanNumber (sign negative ++ (ds ++ rest))
  := by
  obtain ⟨d, l, rfl, hd⟩ := hds.exists_eq_cons
  cases negative with
  | true => apply scanValue_minus hd
  | false => apply scanValue_digit hd

/-- A text that begins with a quote is a string. -/
theorem scanValue_quote (n room : ℕ) (rest : List Char) :
  scanValue (n + 1) room (Char.ofNat 0x22 :: rest) = (scanQuoted rest).map fun i => (.str i.1, i.2)
  := by
  rw [scanValue]
  rfl

/-- A text that begins with a bracket is a list, if a level is left. -/
theorem scanValue_bracket (n room : ℕ) (rest : List Char) :
  scanValue (n + 1) (room + 1) (Char.ofNat 0x5B :: rest) =
    match eat 0x5D (skip rest) with
    | some rest => .ok (.list [], rest)
    | none => (scanItems n room (skip rest)).map fun i => (.list i.1, i.2)
  := by
  rw [scanValue]
  rfl

/-- A text that begins with a brace is an object, if a level is left. -/
theorem scanValue_brace (n room : ℕ) (rest : List Char) :
  scanValue (n + 1) (room + 1) (Char.ofNat 0x7B :: rest) =
    match eat 0x7D (skip rest) with
    | some rest => .ok (ofFields [], rest)
    | none => (scanFields n room (skip rest)).map fun i => (ofFields i.1, i.2)
  := by
  rw [scanValue]
  rfl

/-- Items with distinct keys are a dictionary as they are. -/
theorem ofFields_eq {items : List (Str × Json)} (h : (items.map Prod.fst).Nodup) :
  ofFields items = .dict items
  := by
  have hfold : ∀ l : List (Str × Json), ((l ++ items).map Prod.fst).Nodup →
      items.foldl (fun l i => Dict.setItems l i.1 i.2) l = l ++ items := by
    clear h
    induction items with
    | nil => simp
    | cons i items ih =>
        intro l hl
        have hnew : i.1 ∉ l.map Prod.fst := by
          rw [List.map_append, List.nodup_append] at hl
          intro hmem
          apply hl.2.2 _ hmem i.1 List.mem_cons_self rfl
        rw [List.foldl_cons, Dict.setItems, if_neg hnew, ih]
        · rw [List.append_assoc, List.singleton_append]
        · rw [List.append_assoc, List.singleton_append]
          exact hl
  rw [ofFields, hfold [] h, List.nil_append]

end Json

end Python
