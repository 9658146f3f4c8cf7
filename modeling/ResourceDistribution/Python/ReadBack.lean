import ResourceDistribution.Data.Fallible
import ResourceDistribution.Python.Decimal

/-!
# Reading what was written

Every value that `json.loads` returns is `Loaded`: its keys are distinct, its integers have no more
digits than are read, and there is one NaN (`loaded_of_loads`). The text that `json.dump` writes for a
value that is loaded and has no surrogates is read as the same value (`loads_text`).
-/

namespace Python

namespace Json

/-! ### Loaded values -/

/-- The NaN that is read. -/
def nan : Double := ⟨0x7FF8000000000000⟩

mutual

/-- A value as `json.loads` makes it: the keys of a dictionary are distinct, an integer has no more
digits than are read, and there is one NaN. -/
def Loaded : Json → Prop
  | .int n => Readable n
  | .float x => x.isNan = true → x = nan
  | .list items => LoadedItems items
  | .dict items => LoadedFields items ∧ (items.map Prod.fst).Nodup
  | _ => True

/-- The items of a list are such values. -/
def LoadedItems : List Json → Prop
  | [] => True
  | v :: rest => Loaded v ∧ LoadedItems rest

/-- The values of a dictionary are such values. -/
def LoadedFields : List (Str × Json) → Prop
  | [] => True
  | (_, v) :: rest => Loaded v ∧ LoadedFields rest

end

theorem loadedItems_iff {items : List Json} :
  LoadedItems items ↔ ∀ v ∈ items, Loaded v
  := by
  induction items with
  | nil => simp [LoadedItems]
  | cons v rest ih => simp [LoadedItems, ih]

theorem loadedFields_iff {items : List (Str × Json)} :
  LoadedFields items ↔ ∀ i ∈ items, Loaded i.2
  := by
  induction items with
  | nil => simp [LoadedFields]
  | cons i rest ih => simp [LoadedFields, ih]

/-! ### Reading a text -/

/-- A text that is read as a value begins neither with white space nor with a closing bracket. -/
theorem start_of_scanValue {n room : ℕ} {s : List Char} {i : Json × List Char}
    (h : scanValue n room s = .ok i) :
  skip s = s ∧ eat 0x5D s = none
  := by
  cases n with
  | zero => cases h
  | succ n =>
      cases s with
      | nil => cases h
      | cons c rest =>
          have hnot : c ∉ [' ', '\t', '\n', '\r', ']'] := by
            intro hc
            simp only [List.mem_cons, List.not_mem_nil, or_false] at hc
            rcases hc with rfl | rfl | rfl | rfl | rfl
            all_goals cases h
          simp only [List.mem_cons, List.not_mem_nil, or_false, not_or] at hnot
          obtain ⟨hspace, htab, hnewline, hreturn, hbracket⟩ := hnot
          constructor
          · apply skip_cons
            simp [isJsonSpace, hspace, htab, hnewline, hreturn]
          · apply if_neg
            intro hc
            apply hbracket
            rw [← Char.ofNat_toNat c, hc]

/-- The text of a float is read as the float. -/
theorem scanValue_floatText {x : Double} (hx : Loaded (.float x)) {rest : List Char}
    (hrest : Ends rest) (n room : ℕ) :
  scanValue (n + 1) room (chars (floatText x) ++ rest) = .ok (.float x, rest)
  := by
  rw [floatText]
  split
  · rename_i hnan
    rw [hx hnan]
    rfl
  · rename_i hnan
    split
    · rename_i hinf
      have hbits : x.exponentBits = 2047 ∧ x.fraction = 0 := by simpa [Double.isInf] using hinf
      have htoNat := x.toNat_bits
      rw [hbits.1, hbits.2] at htoNat
      have hx : x = ⟨BitVec.ofNat 64 x.bits.toNat⟩ := by
        rw [BitVec.ofNat_toNat, BitVec.setWidth_eq]
      cases hnegative : x.negative with
      | true =>
          rw [hnegative] at htoNat
          rw [hx, htoNat, chars_ofString]
          rfl
      | false =>
          rw [hnegative] at htoNat
          rw [hx, htoNat, chars_ofString]
          rfl
    · rename_i hinf
      have hfinite : x.Finite := by
        have hlt : x.exponentBits < 2 ^ 11 := Nat.mod_lt _ (by decide)
        have hne : x.exponentBits ≠ 2047 := by
          intro heq
          by_cases hfraction : x.fraction = 0
          · apply hinf
            simp [Double.isInf, heq, hfraction]
          · apply hnan
            simp [Double.isNan, heq, hfraction]
        rw [Double.Finite]
        omega
      apply Double.scanValue_repr hfinite hrest

theorem chars_quoted {s : Str} (hs : s.Encodable) :
  chars (quoted s) = Char.ofNat 0x22 :: quotedBody (chars s)
  := by
  obtain ⟨t, rfl⟩ := hs
  have hflat : ∀ l : List Char, chars ((l.map CodePoint.scalar).flatMap escape)
      = l.flatMap fun c => chars (escape (.scalar c)) := by
    intro l
    induction l with
    | nil => rfl
    | cons c l ih => rw [List.map_cons, List.flatMap_cons, chars_append, ih, List.flatMap_cons]
  rw [quoted, chars_append, chars_append, chars_ofString, chars_ofString, quotedBody,
    Str.ofString, hflat]
  rfl

/-- A string is read as it was written. -/
theorem scanQuoted_chars {s : Str} (hs : s.Encodable) (rest : List Char) :
  scanQuoted (quotedBody (chars s) ++ rest) = .ok (s, rest)
  := by
  rw [scanQuoted_quotedBody, map_scalar_chars hs]

theorem chars_newline (level : ℕ) :
  chars (newline level) = '\n' :: List.replicate (2 * level) ' '
  := chars_map_scalar _

theorem skip_newline (level : ℕ) (s : List Char) :
  skip (chars (newline level) ++ s) = skip s
  := by
  have hspaces : ∀ n, skip (List.replicate n ' ' ++ s) = skip s := by
    intro n
    induction n with
    | zero => rfl
    | succ n ih =>
        rw [List.replicate_succ, List.cons_append, ← ih]
        rfl
  rw [chars_newline, ← hspaces (2 * level)]
  rfl

theorem ends_newline (level : ℕ) (s : List Char) :
  Ends (chars (newline level) ++ s)
  := by
  rw [chars_newline]
  apply ends_cons (by decide)

/-- Items, and what closes them on a new line, end a value before them. -/
theorem ends_textItems (level level' : ℕ) (items : List Json) (rest : List Char) :
  Ends (chars (textItems level items) ++ (chars (newline level') ++ rest))
  := by
  cases items with
  | nil => apply ends_newline
  | cons v items =>
      rw [textItems, chars_append, chars_append, chars_append, chars_ofString]
      apply ends_cons (by decide)

theorem ends_textFields (level level' : ℕ) (items : List (Str × Json)) (rest : List Char) :
  Ends (chars (textFields level items) ++ (chars (newline level') ++ rest))
  := by
  cases items with
  | nil => apply ends_newline
  | cons i items =>
      obtain ⟨k, v⟩ := i
      simp only [textFields, chars_append, chars_ofString, List.append_assoc]
      apply ends_cons (by decide)

theorem chars_intStr (n : ℤ) :
  chars (intStr n) = intChars n
  := by
  rw [intStr, chars_map_scalar, intChars, sign]
  simp only [decide_eq_true_eq]

theorem length_newline_pos (level : ℕ) :
  0 < (chars (newline level)).length
  := by
  rw [chars_newline]
  apply Nat.succ_pos

/-- So does a text that is read as items. -/
theorem start_of_scanItems {n room : ℕ} {s : List Char} {i : List Json × List Char}
    (h : scanItems n room s = .ok i) :
  skip s = s ∧ eat 0x5D s = none
  := by
  cases n with
  | zero => cases h
  | succ n =>
      cases hvalue : scanValue n room s with
      | error e =>
          rw [scanItems, hvalue] at h
          cases h
      | ok j => apply start_of_scanValue hvalue

/-- A text that is read as the items of an object does not begin with a closing brace. -/
theorem start_of_scanFields {n room : ℕ} {s : List Char} {i : List (Str × Json) × List Char}
    (h : scanFields n room s = .ok i) :
  eat 0x7D s = none
  := by
  cases n with
  | zero => cases h
  | succ n =>
      cases s with
      | nil => rfl
      | cons c rest =>
          apply if_neg
          intro hc
          have hquote : eat 0x22 (c :: rest) = none := by
            apply if_neg
            rw [hc]
            decide
          rw [scanFields, hquote] at h
          cases h

theorem chars_textItems_cons (level : ℕ) (v : Json) (items : List Json) :
  chars (textItems level (v :: items))
    = ',' :: (chars (newline level) ++ (chars (text level v) ++ chars (textItems level items)))
  := by
  simp only [textItems, chars_append, chars_ofString, List.append_assoc]
  rfl

theorem chars_textFields_cons (level : ℕ) {k : Str} (hk : k.Encodable) (v : Json)
    (items : List (Str × Json)) :
  chars (textFields level ((k, v) :: items))
    = ',' :: (chars (newline level) ++ Char.ofNat 0x22 :: (quotedBody (chars k) ++ ':' :: ' '
      :: (chars (text level v) ++ chars (textFields level items))))
  := by
  simp only [textFields, chars_append, chars_ofString, chars_quoted hk, List.append_assoc]
  rfl

/-- The text of a list is that of its items, with a bracket for the first comma. -/
theorem chars_text_list (level : ℕ) {items : List Json} (hne : items ≠ []) :
  chars (text level (.list items))
    = Char.ofNat 0x5B :: ((chars (textItems (level + 1) items)).tail
      ++ (chars (newline level) ++ [Char.ofNat 0x5D]))
  := by
  obtain ⟨v, items, rfl⟩ := List.exists_cons_of_ne_nil hne
  rw [chars_textItems_cons, List.tail_cons]
  simp only [text, chars_append, chars_ofString, List.append_assoc]
  rfl

/-- The text of a dictionary is that of its items, with a brace for the first comma. -/
theorem chars_text_dict (level : ℕ) {items : List (Str × Json)} (hencodable : EncodableFields items)
    (hne : items ≠ []) :
  chars (text level (.dict items))
    = Char.ofNat 0x7B :: ((chars (textFields (level + 1) items)).tail
      ++ (chars (newline level) ++ [Char.ofNat 0x7D]))
  := by
  obtain ⟨⟨k, v⟩, items, rfl⟩ := List.exists_cons_of_ne_nil hne
  rw [chars_textFields_cons _ hencodable.1, List.tail_cons]
  simp only [text, chars_append, chars_ofString, chars_quoted hencodable.1, List.append_assoc,
    List.cons_append]
  rfl

mutual

/-- A value is read as it was written, if it is not nested too deep. -/
theorem scanValue_text (level : ℕ) (v : Json) (hv : Loaded v) (hencodable : v.Encodable)
    {n room : ℕ} (hn : (chars (text level v)).length ≤ n) (hroom : v.depth ≤ room)
    {rest : List Char} (hrest : Ends rest) :
  scanValue (n + 1) room (chars (text level v) ++ rest) = .ok (v, rest)
  := by
  cases v with
  | null => rfl
  | bool b => cases b <;> rfl
  | int k =>
      have hnumber := scanNumber_intChars hv hrest
      rw [text, chars_intStr]
      rw [intChars, List.append_assoc] at hnumber ⊢
      rw [scanValue_sign _ (whole_toDigits k.natAbs), hnumber]
  | float x => apply scanValue_floatText hv hrest
  | str s =>
      rw [text, chars_quoted hencodable, List.cons_append, scanValue_quote,
        scanQuoted_chars hencodable]
      rfl
  | list items =>
      rw [depth] at hroom
      obtain ⟨room, rfl⟩ := Nat.exists_eq_add_of_le' (show 1 ≤ room by omega)
      cases items with
      | nil => rfl
      | cons w items =>
          have hne : w :: items ≠ [] := List.cons_ne_nil w items
          rw [chars_text_list level hne] at hn ⊢
          simp only [List.length_cons, List.length_append, List.length_tail] at hn
          have hinner : depthItems (w :: items) ≤ room := by omega
          have hitems := scanItems_text (level + 1) level (w :: items) hv hencodable hne (n := n)
            (by omega) hinner rest
          rw [List.cons_append, List.append_assoc, List.append_assoc, List.singleton_append,
            scanValue_bracket, (start_of_scanItems hitems).2, hitems]
          rfl
  | dict items =>
      rw [depth] at hroom
      obtain ⟨room, rfl⟩ := Nat.exists_eq_add_of_le' (show 1 ≤ room by omega)
      cases items with
      | nil => rfl
      | cons i items =>
          have hne : i :: items ≠ [] := List.cons_ne_nil i items
          rw [chars_text_dict level hencodable hne] at hn ⊢
          simp only [List.length_cons, List.length_append, List.length_tail] at hn
          have hinner : depthFields (i :: items) ≤ room := by omega
          have hitems := scanFields_text (level + 1) level (i :: items) hv.1 hencodable hne (n := n)
            (by omega) hinner rest
          rw [List.cons_append, List.append_assoc, List.append_assoc, List.singleton_append,
            scanValue_brace, start_of_scanFields hitems, hitems]
          simp only [Except.map, ofFields_eq hv.2]

/-- The items of a list are read as they were written. -/
theorem scanItems_text (level level' : ℕ) (items : List Json) (hitems : LoadedItems items)
    (hencodable : EncodableItems items) (hne : items ≠ []) {n room : ℕ}
    (hn : (chars (textItems level items)).length ≤ n) (hroom : depthItems items ≤ room)
    (rest : List Char) :
  scanItems n room (skip ((chars (textItems level items)).tail
    ++ (chars (newline level') ++ Char.ofNat 0x5D :: rest))) = .ok (items, rest)
  := by
  cases items with
  | nil => cases hne rfl
  | cons v items =>
      have hnewline := length_newline_pos level
      rw [chars_textItems_cons] at hn ⊢
      simp only [List.length_cons, List.length_append] at hn
      obtain ⟨n, rfl⟩ : ∃ m, n = m + 2 := ⟨n - 2, by omega⟩
      rw [depthItems, max_le_iff] at hroom
      have hvalue := scanValue_text level v hitems.1 hencodable.1 (n := n) (by omega) hroom.1
        (ends_textItems level level' items (Char.ofNat 0x5D :: rest))
      rw [List.tail_cons, List.append_assoc, skip_newline, List.append_assoc,
        (start_of_scanValue hvalue).1, scanItems, hvalue]
      cases items with
      | nil =>
          have hskip : skip (chars (textItems level []) ++ (chars (newline level')
              ++ Char.ofNat 0x5D :: rest)) = Char.ofNat 0x5D :: rest := by
            rw [textItems, chars, List.filterMap_nil, List.nil_append, skip_newline,
              skip_cons (by decide)]
          simp only [bind, Except.bind, hskip]
          rfl
      | cons w items =>
          have hrest := scanItems_text level level' (w :: items) hitems.2 hencodable.2
            (List.cons_ne_nil w items) (n := n + 1) (by omega) hroom.2 rest
          have hcomma : eat 0x2C (skip (chars (textItems level (w :: items))
              ++ (chars (newline level') ++ Char.ofNat 0x5D :: rest)))
              = some ((chars (textItems level (w :: items))).tail
                ++ (chars (newline level') ++ Char.ofNat 0x5D :: rest)) := by
            rw [chars_textItems_cons, List.cons_append, skip_cons (by decide)]
            rfl
          simp only [bind, Except.bind, hcomma, hrest]
          rfl

/-- The items of an object are read as they were written. -/
theorem scanFields_text (level level' : ℕ) (items : List (Str × Json)) (hitems : LoadedFields items)
    (hencodable : EncodableFields items) (hne : items ≠ []) {n room : ℕ}
    (hn : (chars (textFields level items)).length ≤ n) (hroom : depthFields items ≤ room)
    (rest : List Char) :
  scanFields n room (skip ((chars (textFields level items)).tail
    ++ (chars (newline level') ++ Char.ofNat 0x7D :: rest))) = .ok (items, rest)
  := by
  cases items with
  | nil => cases hne rfl
  | cons i items =>
      obtain ⟨k, v⟩ := i
      have hnewline := length_newline_pos level
      rw [chars_textFields_cons level hencodable.1] at hn ⊢
      simp only [List.length_cons, List.length_append] at hn
      obtain ⟨n, rfl⟩ : ∃ m, n = m + 2 := ⟨n - 2, by omega⟩
      rw [depthFields, max_le_iff] at hroom
      have hvalue := scanValue_text level v hitems.1 hencodable.2.1 (n := n) (by omega) hroom.1
        (ends_textFields level level' items (Char.ofNat 0x7D :: rest))
      have hquote : ∀ s, eat 0x22 (Char.ofNat 0x22 :: s) = some s := fun _ => rfl
      have hcolon : ∀ s, eat 0x3A (skip (':' :: s)) = some s := fun _ => rfl
      have hspace : ∀ s, skip (' ' :: s) = skip s := fun _ => rfl
      rw [List.tail_cons, List.append_assoc, skip_newline, List.cons_append, skip_cons (by decide),
        scanFields]
      simp only [hquote, List.append_assoc, List.cons_append, scanQuoted_chars hencodable.1, bind,
        Except.bind, hcolon, hspace, (start_of_scanValue hvalue).1, hvalue]
      cases items with
      | nil =>
          have hskip : skip (chars (textFields level []) ++ (chars (newline level')
              ++ Char.ofNat 0x7D :: rest)) = Char.ofNat 0x7D :: rest := by
            rw [textFields, chars, List.filterMap_nil, List.nil_append, skip_newline,
              skip_cons (by decide)]
          simp only [hskip]
          rfl
      | cons i items =>
          obtain ⟨k', w⟩ := i
          have hrest := scanFields_text level level' ((k', w) :: items) hitems.2 hencodable.2.2
            (List.cons_ne_nil _ items) (n := n + 1) (by omega) hroom.2 rest
          have hcomma : eat 0x2C (skip (chars (textFields level ((k', w) :: items))
              ++ (chars (newline level') ++ Char.ofNat 0x7D :: rest)))
              = some ((chars (textFields level ((k', w) :: items))).tail
                ++ (chars (newline level') ++ Char.ofNat 0x7D :: rest)) := by
            rw [chars_textFields_cons level hencodable.2.2.1, List.cons_append,
              skip_cons (by decide)]
            rfl
          simp only [hcomma, hrest]
          rfl

end

/-- What is written is read as what was written, if it is not nested too deep. -/
theorem loads_text [RecursionLimit] {v : Json} (hv : Loaded v) (hencodable : v.Encodable)
    (hdepth : v.depth ≤ RecursionLimit.loadDepth) :
  loads (String.ofList (chars (text 0 v))) = .ok v
  := by
  have hends : Ends [] := by
    intro c hc
    cases hc
  have hscan := scanValue_text 0 v hv hencodable (le_refl _) hdepth hends
  rw [List.append_nil] at hscan
  simp only [loads, String.toList_ofList, (start_of_scanValue hscan).1, hscan, bind, Except.bind]
  rfl

/-- What is sent is the text of the value. -/
theorem eq_of_dumps_encode [RecursionLimit] {v : Json} {body : String}
    (h : dumps v >>= encode = .ok body) :
  body = String.ofList (chars (text 0 v))
  := by
  obtain ⟨s, hs, hencode⟩ := Fallible.bind_eq_ok.mp h
  rw [dumps] at hs
  split at hs
  · cases hs
    rw [encode] at hencode
    split at hencode
    · rename_i t ht
      cases hencode
      rw [Str.toString?_eq_some_iff.mp ht, chars_ofString, String.ofList_toList]
    · cases hencode
  · cases hs

/-! ### What is read -/

/-- A dictionary that is filled with items has distinct keys, and only items it was filled with. -/
theorem exists_ofFields_eq (items : List (Str × Json)) :
  ∃ d : Dict Str Json, ofFields items = .dict d.items ∧ ∀ i ∈ d.items, i ∈ items
  := by
  have hfold : ∀ d : Dict Str Json, ∃ d' : Dict Str Json,
      items.foldl (fun l i => Dict.setItems l i.1 i.2) d.items = d'.items ∧
        ∀ i ∈ d'.items, i ∈ d.items ∨ i ∈ items := by
    induction items with
    | nil => exact fun d => ⟨d, rfl, fun _ hi => .inl hi⟩
    | cons j items ih =>
        intro d
        obtain ⟨d', hd', hmem⟩ := ih (d.set j.1 j.2)
        refine ⟨d', hd', ?_⟩
        intro i hi
        rcases hmem i hi with hi | hi
        · rcases Dict.mem_items_set.mp hi with rfl | ⟨hi, -⟩
          · right
            apply List.mem_cons_self
          · left
            exact hi
        · right
          apply List.mem_cons_of_mem _ hi
  obtain ⟨d, hd, hmem⟩ := hfold Dict.empty
  refine ⟨d, congrArg Json.dict hd, ?_⟩
  intro i hi
  apply (hmem i hi).resolve_left
  apply List.not_mem_nil

theorem loaded_ofFields {items : List (Str × Json)} (h : LoadedFields items) :
  Loaded (ofFields items)
  := by
  obtain ⟨d, hd, hmem⟩ := exists_ofFields_eq items
  rw [hd]
  constructor
  · rw [loadedFields_iff] at h ⊢
    intro i hi
    apply h i (hmem i hi)
  · apply d.nodup

/-- A decimal is never read as NaN. -/
theorem isNan_ofDecimal (negative : Bool) (m : ℕ) (p : ℤ) :
  (Double.ofDecimal negative m p).isNan = false
  := by
  have hnan : ∀ bits ≤ 2047 * 2 ^ 52, ∀ sign ∈ [2 ^ 63, 0],
      (Double.mk (BitVec.ofNat 64 (sign + bits))).isNan = false := by
    intro bits hbits sign hsign
    have htoNat : (BitVec.ofNat 64 (sign + bits)).toNat = sign + bits := by
      rw [BitVec.toNat_ofNat, Nat.mod_eq_of_lt]
      rcases List.mem_pair.mp hsign with rfl | rfl
      · omega
      · omega
    simp only [Double.isNan, Double.exponentBits, Double.fraction, htoNat, decide_eq_false_iff_not,
      not_and, not_not]
    rcases List.mem_pair.mp hsign with rfl | rfl
    · omega
    · omega
  rw [Double.ofDecimal]
  apply hnan
  · split
    · apply Nat.zero_le
    · apply min_le_right
  · cases negative with
    | true => apply List.mem_cons_self
    | false => apply List.mem_cons_of_mem _ List.mem_cons_self

theorem ofDigitChars_lt {ds : List Char} (hds : ∀ c ∈ ds, c.isDigit = true) :
  Nat.ofDigitChars 10 ds 0 < 10 ^ ds.length
  := by
  induction ds with
  | nil => decide
  | cons c ds ih =>
      have hlt := ih fun d hd => hds d (List.mem_cons_of_mem c hd)
      have hle : c.toNat - '0'.toNat ≤ 9 := by
        have hdigit := hds c List.mem_cons_self
        simp only [Char.isDigit, Bool.and_eq_true, decide_eq_true_eq] at hdigit
        have hc : c.toNat ≤ 57 := hdigit.2
        have hzero : '0'.toNat = 48 := rfl
        omega
      rw [Nat.ofDigitChars_cons, Nat.ofDigitChars_eq_ofDigitChars_zero, mul_zero, zero_add,
        List.length_cons, pow_succ]
      calc
        10 ^ ds.length * (c.toNat - '0'.toNat) + Nat.ofDigitChars 10 ds 0
          < 10 ^ ds.length * 9 + 10 ^ ds.length :=
            add_lt_add_of_le_of_lt (Nat.mul_le_mul_left _ hle) hlt
        _ = 10 ^ ds.length * 10 := by ring

/-- Digits that are read are those of an integer that is read back. -/
theorem readable_of_digits {ds : List Char} (hds : ∀ c ∈ ds, c.isDigit = true) (hne : ds ≠ [])
    (hlength : ds.length ≤ Str.maxStrDigits) (negative : Bool) :
  Readable (if negative then -(Nat.ofDigitChars 10 ds 0 : ℤ) else Nat.ofDigitChars 10 ds 0)
  := by
  have hnatAbs : (if negative then -(Nat.ofDigitChars 10 ds 0 : ℤ)
      else Nat.ofDigitChars 10 ds 0).natAbs = Nat.ofDigitChars 10 ds 0 := by
    cases negative with
    | true => simp
    | false => simp
  rw [Readable, hnatAbs]
  apply le_trans _ hlength
  rw [Nat.length_toDigits_le_iff (by decide) (List.length_pos_iff.mpr hne)]
  apply ofDigitChars_lt hds

/-- The digits before a point are digits. -/
theorem isDigit_of_mem_scanInteger {s : List Char} {c : Char} (h : c ∈ (scanInteger s).1) :
  c.isDigit = true
  := by
  rw [scanInteger] at h
  split at h
  · rw [List.mem_singleton.mp h]
    rfl
  · apply List.mem_takeWhile_imp h

/-- A number that is read is one that is read back. -/
theorem loaded_of_scanNumber {s : List Char} {i : Json × List Char} (h : scanNumber s = .ok i) :
  Loaded i.1
  := by
  rw [scanNumber] at h
  dsimp only at h
  split at h
  · cases h
  · split at h
    · split at h
      · cases h
      · rename_i hlength
        cases h
        apply readable_of_digits (fun _ hc => isDigit_of_mem_scanInteger hc) ‹_›
          (not_lt.mp hlength)
    · cases h
      intro hnan
      rw [isNan_ofDecimal] at hnan
      cases hnan

theorem loaded_literals :
  ∀ i ∈ literals, Loaded i.2
  := by
  have hinfinity : ∀ x : Double, x.isNan = false → Loaded (.float x) := by
    intro x hx hnan
    rw [hx] at hnan
    cases hnan
  simp only [literals, List.forall_mem_cons, List.not_mem_nil, false_implies, implies_true,
    and_true]
  exact ⟨trivial, trivial, trivial, fun _ => rfl, hinfinity _ (by decide), hinfinity _ (by decide)⟩

theorem nest_eq_ok {α : Type} {room : ℕ} {scan : ℕ → Scanned α} {i : α × List Char} :
  nest room scan = .ok i ↔ ∃ room', room = room' + 1 ∧ scan room' = .ok i
  := by
  cases room with
  | zero => simp [nest]
  | succ room => simp [nest]

theorem loaded_of_scanLiteral {s : List Char} {i : Json × List Char} (h : scanLiteral s = some i) :
  Loaded i.1
  := by
  obtain ⟨l, hl, hprefix⟩ := List.exists_of_findSome?_eq_some h
  obtain ⟨rest, -, rfl⟩ := Option.map_eq_some_iff.mp hprefix
  exact loaded_literals l hl

/-- What the scanners read that make up to `n` nested calls is loaded: a value, the items of a list, the
items of an object. -/
structure ScansLoaded (n : ℕ) : Prop where
  value : ∀ room s i, scanValue n room s = .ok i → Loaded i.1
  items : ∀ room s i, scanItems n room s = .ok i → LoadedItems i.1
  fields : ∀ room s i, scanFields n room s = .ok i → LoadedFields i.1

namespace ScansLoaded

variable {n room : ℕ} {s : List Char}

/-- A value that is read is loaded: by its first character, a string, a list, an object, a name or a
number. -/
theorem value_succ (h : ScansLoaded n) {i : Json × List Char}
    (hscan : scanValue (n + 1) room s = .ok i) :
  Loaded i.1
  := by
  rw [scanValue] at hscan
  split at hscan
  · obtain ⟨j, -, rfl⟩ := Fallible.map_eq_ok.mp hscan
    trivial
  split at hscan
  · obtain ⟨room, -, hlist⟩ := nest_eq_ok.mp hscan
    split at hlist
    · cases hlist
      trivial
    · obtain ⟨j, hj, rfl⟩ := Fallible.map_eq_ok.mp hlist
      exact h.items _ _ j hj
  split at hscan
  · obtain ⟨room, -, hobject⟩ := nest_eq_ok.mp hscan
    split at hobject
    · cases hobject
      exact ⟨trivial, List.nodup_nil⟩
    · obtain ⟨j, hj, rfl⟩ := Fallible.map_eq_ok.mp hobject
      exact loaded_ofFields (h.fields _ _ j hj)
  split at hscan
  · rename_i hliteral
    cases hscan
    exact loaded_of_scanLiteral hliteral
  · exact loaded_of_scanNumber hscan

/-- The items of a list that are read are loaded. -/
theorem items_succ (h : ScansLoaded n) {i : List Json × List Char}
    (hscan : scanItems (n + 1) room s = .ok i) :
  LoadedItems i.1
  := by
  rw [scanItems] at hscan
  obtain ⟨j, hj, hscan⟩ := Fallible.bind_eq_ok.mp hscan
  have hfirst := h.value _ s j hj
  dsimp only at hscan
  split at hscan
  · obtain ⟨l, hl, hscan⟩ := Fallible.bind_eq_ok.mp hscan
    cases hscan
    exact ⟨hfirst, h.items _ _ l hl⟩
  split at hscan
  · cases hscan
    exact ⟨hfirst, trivial⟩
  · cases hscan

/-- The items of an object that are read are loaded. -/
theorem fields_succ (h : ScansLoaded n) {i : List (Str × Json) × List Char}
    (hscan : scanFields (n + 1) room s = .ok i) :
  LoadedFields i.1
  := by
  rw [scanFields] at hscan
  split at hscan
  · cases hscan
  obtain ⟨k, -, hscan⟩ := Fallible.bind_eq_ok.mp hscan
  dsimp only at hscan
  split at hscan
  · cases hscan
  obtain ⟨j, hj, hscan⟩ := Fallible.bind_eq_ok.mp hscan
  have hfirst := h.value _ _ j hj
  split at hscan
  · obtain ⟨l, hl, hscan⟩ := Fallible.bind_eq_ok.mp hscan
    cases hscan
    exact ⟨hfirst, h.fields _ _ l hl⟩
  split at hscan
  · cases hscan
    exact ⟨hfirst, trivial⟩
  · cases hscan

end ScansLoaded

/-- Whatever is read is loaded. -/
theorem scansLoaded (n : ℕ) :
  ScansLoaded n
  := by
  induction n with
  | zero =>
      constructor
      all_goals
        intro room s i h
        cases h
  | succ n ih =>
      exact ⟨fun _ _ _ => ih.value_succ, fun _ _ _ => ih.items_succ, fun _ _ _ => ih.fields_succ⟩

/-- What `json.loads` returns is loaded. -/
theorem loaded_of_loads [RecursionLimit] {s : String} {v : Json} (h : loads s = .ok v) :
  Loaded v
  := by
  obtain ⟨i, hi, h⟩ := Fallible.bind_eq_ok.mp h
  dsimp only at h
  split at h
  · cases h
    exact (scansLoaded _).value _ _ i hi
  · cases h

end Json

end Python
