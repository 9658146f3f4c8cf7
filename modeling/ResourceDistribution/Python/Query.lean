import Mathlib.Data.List.SplitBy
import ResourceDistribution.Node.OsString
import ResourceDistribution.Python.Loads
import ResourceDistribution.Python.Url

/-!
# Queries in URLs

What `urlparse` takes for the query of a request's target, and the pairs that `parse_qsl` reads in
it. A client sends a pair in some form encoding: it leaves some of the characters that mean nothing
in a query, may write a space as a plus, and writes all others byte by byte (`FormEncoding`). The
pairs are read as they were sent, whichever encoding it was, except that those with an empty value
are dropped (`parseQsl_text`).
-/

namespace Python

namespace Url

/-- `urlparse(target).query`, of a target that begins with one slash. -/
def query (target : Str) : Str :=
  ((target.takeWhile (· ≠ .scalar '#')).dropWhile (· ≠ .scalar '?')).drop 1

/-! ### Reading -/

/-- Whether a code point is in ASCII. -/
def isascii (c : CodePoint) : Bool := c.toNat < 0x80

/-- `unquote_to_bytes(s)`, of a string in ASCII. A percent sign without two digits is kept. -/
def unquoteToBytes : Str → List UInt8
  | .scalar '%' :: .scalar a :: .scalar b :: rest =>
      match Json.hexValue a, Json.hexValue b with
      | some x, some y => UInt8.ofNat (x * 16 + y) :: unquoteToBytes rest
      | _, _ => UInt8.ofNat '%'.toNat :: unquoteToBytes (.scalar a :: .scalar b :: rest)
  | c :: rest => UInt8.ofNat c.toNat :: unquoteToBytes rest
  | [] => []

/-- `unquote(s)`: the longest parts in ASCII are decoded, and the others kept. -/
def unquote (s : Str) : Str :=
  (s.splitBy fun a b => isascii a == isascii b).flatMap fun run =>
    if run.all isascii then (Node.decodeLossy (unquoteToBytes run)).map .scalar else run

/-- `s.replace("+", " ")`. -/
def plusToSpace (s : Str) : Str := s.map fun c => if c = .scalar '+' then .scalar ' ' else c

/-- `unquote(s.replace("+", " "))`. -/
def unquotePlus (s : Str) : Str := unquote (plusToSpace s)

/-- A part of a query, as a pair: none if it has no equals sign or an empty value. -/
def parsePart (nameValue : Str) : Option (Str × Str) :=
  match nameValue.dropWhile (· ≠ .scalar '=') with
  | _ :: c :: value =>
      some (unquotePlus (nameValue.takeWhile (· ≠ .scalar '=')), unquotePlus (c :: value))
  | _ => none

/-- `parse_qsl(qs)`. -/
def parseQsl (qs : Str) : List (Str × Str) := (qs.splitOn (.scalar '&')).filterMap parsePart

/-- `parse_qs(qs).get(name)`; no value is as good as no name. -/
def parseQs (qs : Str) (name : Str) : List Str :=
  ((parseQsl qs).filter (·.1 = name)).map Prod.snd

/-! ### Writing -/

/-- Whether a character means nothing in a query. -/
def isFormChar (c : Char) : Bool :=
  isUnreserved c || "!$()*,;:@/?".toList.contains c || c.toNat = 0x27

/-- A form encoding, by the characters it leaves as they are and by whether a space is a plus. -/
structure FormEncoding where
  leaves : Char → Bool
  isFormChar_of_leaves : ∀ c, leaves c = true → isFormChar c = true
  plus : Bool

/-- `quote_plus(s)`. -/
def quotePlus : FormEncoding where
  leaves := isUnreserved
  isFormChar_of_leaves c h := by
    rw [isFormChar, h]
    rfl
  plus := true

namespace FormEncoding

variable (enc : FormEncoding)

/-- The encoding of a character. -/
def encodeChar (c : Char) : Str :=
  if c = ' ' ∧ enc.plus then [.scalar '+']
  else if enc.leaves c then [.scalar c]
  else (String.utf8EncodeChar c).flatMap escapeByte

/-- The encoding of a string. -/
def encode (s : String) : Str := s.toList.flatMap enc.encodeChar

/-- A pair, as a part of a query. -/
def pair (nameValue : String × String) : Str :=
  enc.encode nameValue.1 ++ .scalar '=' :: enc.encode nameValue.2

/-- A query. -/
def text (pairs : List (String × String)) : Str :=
  List.intercalate [.scalar '&'] (pairs.map enc.pair)

end FormEncoding

/-! ### What an encoding consists of -/

/-- Whether a code point may stand in an encoding. -/
def IsForm : CodePoint → Prop
  | .scalar c => isFormChar c = true ∨ c = '%' ∨ c = '+'
  | .surrogate _ => False

theorem isForm_escapeByte {b : UInt8} {c : CodePoint} (h : c ∈ escapeByte b) :
  IsForm c
  := by
  have hdigit : ∀ n < 16, isFormChar (hexDigit n) = true := by decide
  have hb := b.toNat_lt
  obtain ⟨d, hd, rfl⟩ := List.mem_map.mp h
  simp only [List.mem_cons, List.not_mem_nil, or_false] at hd
  rcases hd with rfl | rfl | rfl
  · exact Or.inr (Or.inl rfl)
  · exact Or.inl (hdigit _ (by omega))
  · exact Or.inl (hdigit _ (by omega))

/-- What means nothing in a query is in ASCII. -/
theorem toNat_lt_of_isFormChar {c : Char} (h : isFormChar c = true) :
  c.toNat < 0x80
  := by
  have hle : ∀ d : Char, d.toNat < 0x80 → c.val ≤ d.val → c.toNat < 0x80 := by
    intro d hd h
    apply lt_of_le_of_lt (UInt32.le_iff_toNat_le.mp h) hd
  have hmem : ∀ d ∈ "-._~".toList ++ "!$()*,;:@/?".toList, d.toNat < 0x80 := by
    have hall : ("-._~".toList ++ "!$()*,;:@/?".toList).all (fun d => d.toNat < 0x80) = true := rfl
    simpa only [List.all_eq_true, decide_eq_true_eq] using hall
  delta isFormChar isUnreserved Char.isAlphanum Char.isAlpha Char.isUpper Char.isLower Char.isDigit
    at h
  simp only [Bool.or_eq_true, Bool.and_eq_true, decide_eq_true_eq, List.contains_iff_mem] at h
  rcases h with ((((h | h) | h) | h) | h) | h
  · apply hle 'Z' (by decide) h.2
  · apply hle 'z' (by decide) h.2
  · apply hle '9' (by decide) h.2
  · apply hmem c (List.mem_append_left _ h)
  · apply hmem c (List.mem_append_right _ h)
  · omega

/-- What stands in an encoding is in ASCII, and separates neither pairs nor their parts. -/
theorem IsForm.spec {c : CodePoint} (h : IsForm c) :
  isascii c = true ∧ c ≠ .scalar '&' ∧ c ≠ .scalar '=' ∧ c ≠ .scalar '#'
  := by
  cases c with
  | surrogate n => cases h
  | scalar d =>
      have hform : isFormChar '&' = false ∧ isFormChar '=' = false ∧ isFormChar '#' = false := by
        decide
      rcases h with h | rfl | rfl
      · refine ⟨decide_eq_true (toNat_lt_of_isFormChar h), ?_, ?_, ?_⟩
        · rintro ⟨⟩
          cases h.symm.trans hform.1
        · rintro ⟨⟩
          cases h.symm.trans hform.2.1
        · rintro ⟨⟩
          cases h.symm.trans hform.2.2
      · decide
      · decide

namespace FormEncoding

variable (enc : FormEncoding)

theorem isForm_encode {s : String} {c : CodePoint} (h : c ∈ enc.encode s) :
  IsForm c
  := by
  obtain ⟨d, -, hd⟩ := List.mem_flatMap.mp h
  rw [encodeChar] at hd
  split at hd
  · rw [List.mem_singleton.mp hd]
    exact Or.inr (Or.inr rfl)
  split at hd
  · rename_i hleaves
    rw [List.mem_singleton.mp hd]
    exact Or.inl (enc.isFormChar_of_leaves d hleaves)
  · obtain ⟨b, -, hb⟩ := List.mem_flatMap.mp hd
    apply isForm_escapeByte hb

end FormEncoding

/-! ### Reading what was written -/

/-- A string in ASCII is decoded as a whole. -/
theorem unquote_of_isascii {s : Str} (h : ∀ c ∈ s, isascii c = true) :
  unquote s = (Node.decodeLossy (unquoteToBytes s)).map .scalar
  := by
  by_cases hs : s = []
  · rw [hs]
    rfl
  · have hchain : s.IsChain fun a b => (isascii a == isascii b) = true := by
      apply List.Pairwise.isChain
      apply List.pairwise_of_forall_mem_list
      intro a ha b hb
      rw [h a ha, h b hb]
      rfl
    rw [unquote, List.splitBy_of_isChain hs hchain, List.flatMap_singleton,
      if_pos (List.all_eq_true.mpr h)]

theorem unquoteToBytes_cons {c : Char} (hc : c ≠ '%') (rest : Str) :
  unquoteToBytes (.scalar c :: rest) = UInt8.ofNat c.toNat :: unquoteToBytes rest
  := by
  rw [unquoteToBytes.eq_def]
  split
  · rename_i heq
    cases heq
    exact absurd rfl hc
  · rename_i heq
    cases heq
    rfl
  · rename_i heq
    cases heq

theorem unquoteToBytes_escapeByte (b : UInt8) (rest : Str) :
  unquoteToBytes (escapeByte b ++ rest) = b :: unquoteToBytes rest
  := by
  have hdigit : ∀ n < 16, Json.hexValue (hexDigit n) = some n := by decide
  have hb := b.toNat_lt
  have hvalue : UInt8.ofNat (b.toNat / 16 * 16 + b.toNat % 16) = b := by
    rw [Nat.div_add_mod', UInt8.ofNat_toNat]
  rw [escapeByte, List.map_cons, List.map_cons, List.map_cons, List.map_nil, List.cons_append,
    List.cons_append, List.cons_append, List.nil_append, unquoteToBytes,
    hdigit _ (by omega), hdigit _ (by omega)]
  simp only [hvalue]

/-- A string without a plus has no plus to replace. -/
theorem plusToSpace_of_not_mem {s : Str} (h : .scalar '+' ∉ s) :
  plusToSpace s = s
  := by
  rw [plusToSpace]
  conv_rhs => rw [← List.map_id s]
  apply List.map_congr_left
  intro c hc
  apply if_neg
  rintro rfl
  apply h hc

theorem plus_not_mem_escapeByte (b : UInt8) :
  .scalar '+' ∉ escapeByte b
  := by
  have hdigit : ∀ n < 16, hexDigit n ≠ '+' := by decide
  have hb := b.toNat_lt
  intro h
  obtain ⟨d, hd, heq⟩ := List.mem_map.mp h
  obtain rfl := CodePoint.scalar.inj heq
  simp only [List.mem_cons, List.not_mem_nil, or_false] at hd
  rcases hd with hd | hd | hd
  · cases hd
  · exact hdigit _ (by omega) hd.symm
  · exact hdigit _ (by omega) hd.symm

theorem unquoteToBytes_flatMap_escapeByte (bytes : List UInt8) (rest : Str) :
  unquoteToBytes (bytes.flatMap escapeByte ++ rest) = bytes ++ unquoteToBytes rest
  := by
  induction bytes with
  | nil => rfl
  | cons b bytes ih =>
      rw [List.flatMap_cons, List.append_assoc, unquoteToBytes_escapeByte, ih, List.cons_append]

namespace FormEncoding

variable (enc : FormEncoding)

/-- A character is read as the bytes it is in UTF-8. -/
theorem unquoteToBytes_encodeChar (c : Char) (rest : Str) :
  unquoteToBytes (plusToSpace (enc.encodeChar c) ++ rest)
    = String.utf8EncodeChar c ++ unquoteToBytes rest
  := by
  rw [encodeChar]
  split
  · rename_i hspace
    rw [hspace.1]
    apply unquoteToBytes_cons
    decide
  split
  · rename_i hleaves
    have hform := enc.isFormChar_of_leaves c hleaves
    have hplus : .scalar '+' ∉ [CodePoint.scalar c] := by
      intro hmem
      obtain rfl := CodePoint.scalar.inj (List.mem_singleton.mp hmem)
      revert hform
      decide
    have hpercent : c ≠ '%' := by
      rintro rfl
      revert hform
      decide
    have hascii := toNat_lt_of_isFormChar hform
    rw [plusToSpace_of_not_mem hplus, List.singleton_append, unquoteToBytes_cons hpercent,
      String.utf8EncodeChar, show c.val.toNat = c.toNat from rfl, if_pos (by omega)]
    rfl
  · have hplus : .scalar '+' ∉ (String.utf8EncodeChar c).flatMap escapeByte := by
      intro hmem
      obtain ⟨b, -, hb⟩ := List.mem_flatMap.mp hmem
      apply plus_not_mem_escapeByte b hb
    rw [plusToSpace_of_not_mem hplus]
    apply unquoteToBytes_flatMap_escapeByte

/-- A string is read as it was written. -/
theorem unquotePlus_encode (s : String) :
  unquotePlus (enc.encode s) = Str.ofString s
  := by
  have hascii : ∀ c ∈ plusToSpace (enc.encode s), isascii c = true := by
    intro c hc
    obtain ⟨d, hd, rfl⟩ := List.mem_map.mp hc
    split
    · rfl
    · exact (enc.isForm_encode hd).spec.1
  have hbytes : ∀ l : List Char,
      unquoteToBytes (plusToSpace (l.flatMap enc.encodeChar))
        = l.flatMap String.utf8EncodeChar := by
    intro l
    induction l with
    | nil => rfl
    | cons c l ih =>
        have happend : plusToSpace ((c :: l).flatMap enc.encodeChar)
            = plusToSpace (enc.encodeChar c) ++ plusToSpace (l.flatMap enc.encodeChar) := by
          rw [List.flatMap_cons, plusToSpace, List.map_append]
          rfl
        rw [happend, unquoteToBytes_encodeChar, ih, List.flatMap_cons]
  have hdecode : Node.decodeLossy (Node.utf8 s) = s.toList := by
    rw [← String.toList_ofList (l := Node.decodeLossy (Node.utf8 s))]
    exact congrArg String.toList (Node.toStringLossy_utf8 s)
  rw [unquotePlus, unquote_of_isascii hascii, encode, hbytes]
  exact congrArg (List.map CodePoint.scalar) hdecode

/-! ### Queries -/

/-- No code point that separates stands in a pair but the one in its middle. -/
theorem ampersand_not_mem_pair (nameValue : String × String) :
  .scalar '&' ∉ enc.pair nameValue
  := by
  intro h
  rcases List.mem_append.mp h with h | h
  · exact (enc.isForm_encode h).spec.2.1 rfl
  · rcases List.mem_cons.mp h with h | h
    · cases h
    · exact (enc.isForm_encode h).spec.2.1 rfl

theorem hash_not_mem_pair (nameValue : String × String) :
  .scalar '#' ∉ enc.pair nameValue
  := by
  intro h
  rcases List.mem_append.mp h with h | h
  · exact (enc.isForm_encode h).spec.2.2.2 rfl
  · rcases List.mem_cons.mp h with h | h
    · cases h
    · exact (enc.isForm_encode h).spec.2.2.2 rfl

/-- Only the empty string is written as nothing. -/
theorem encode_eq_nil_iff {s : String} :
  enc.encode s = [] ↔ s = ""
  := by
  constructor
  · intro h
    have hread := enc.unquotePlus_encode s
    rw [h] at hread
    apply Str.ofString_eq_nil.mp hread.symm
  · rintro rfl
    rfl

theorem parsePart_pair (name value : String) :
  parsePart (enc.pair (name, value))
    = if value = "" then none else some (Str.ofString name, Str.ofString value)
  := by
  have hname : ∀ c ∈ enc.encode name, decide (c ≠ CodePoint.scalar '=') = true := by
    intro c hc
    apply decide_eq_true (enc.isForm_encode hc).spec.2.2.1
  have hdrop : (enc.pair (name, value)).dropWhile (· ≠ .scalar '=')
      = .scalar '=' :: enc.encode value := by
    rw [pair, List.dropWhile_append_of_pos hname]
    rfl
  have htake : (enc.pair (name, value)).takeWhile (· ≠ .scalar '=') = enc.encode name := by
    rw [pair, List.takeWhile_append_of_pos hname]
    exact List.append_nil _
  rw [parsePart, hdrop, htake]
  split
  · rename_i c rest heq
    have hvalue : enc.encode value = c :: rest := (List.cons.inj heq).2
    have hne : value ≠ "" := by
      rintro rfl
      cases hvalue
    rw [if_neg hne, ← hvalue, unquotePlus_encode, unquotePlus_encode]
  · rename_i hnil
    cases hvalue : enc.encode value with
    | nil => rw [if_pos (enc.encode_eq_nil_iff.mp hvalue)]
    | cons c rest => exact absurd (congrArg _ hvalue) (hnil _ c rest)

/-- The pairs are read as they were written, less those with an empty value. -/
theorem parseQsl_text (pairs : List (String × String)) :
  parseQsl (enc.text pairs)
    = (pairs.filter (·.2 ≠ "")).map fun nameValue =>
        (Str.ofString nameValue.1, Str.ofString nameValue.2)
  := by
  have hparts : parseQsl (enc.text pairs) = pairs.filterMap (parsePart ∘ enc.pair) := by
    by_cases hpairs : pairs = []
    · rw [hpairs]
      rfl
    · have hmem : ∀ part ∈ pairs.map enc.pair, .scalar '&' ∉ part := by
        intro part hpart
        obtain ⟨nameValue, -, rfl⟩ := List.mem_map.mp hpart
        apply ampersand_not_mem_pair
      rw [parseQsl, text, List.splitOn_intercalate _ hmem (by simpa using hpairs),
        List.filterMap_map]
  rw [hparts]
  clear hparts
  induction pairs with
  | nil => rfl
  | cons nameValue pairs ih =>
      have hpart : (parsePart ∘ enc.pair) nameValue = _ :=
        enc.parsePart_pair nameValue.1 nameValue.2
      by_cases hvalue : nameValue.2 = ""
      · rw [if_pos hvalue] at hpart
        rw [List.filterMap_cons_none hpart, ih, List.filter_cons_of_neg (by simpa using hvalue)]
      · rw [if_neg hvalue] at hpart
        rw [List.filterMap_cons_some hpart, ih, List.filter_cons_of_pos (by simpa using hvalue),
          List.map_cons]

/-- The values of a name are read as they were written, less the empty ones. -/
theorem parseQs_text (pairs : List (String × String)) (name : String) :
  parseQs (enc.text pairs) (Str.ofString name)
    = (pairs.filter fun nameValue => nameValue.2 ≠ "" ∧ nameValue.1 = name).map
        fun nameValue => Str.ofString nameValue.2
  := by
  rw [parseQs, parseQsl_text, List.filter_map, List.map_map, List.filter_filter]
  congr 1
  apply List.filter_congr
  intro nameValue _
  simp only [Function.comp_apply, Str.ofString_inj, Bool.decide_and]
  apply Bool.and_comm

theorem hash_not_mem_text (pairs : List (String × String)) :
  .scalar '#' ∉ enc.text pairs
  := by
  induction pairs with
  | nil =>
      intro h
      cases h
  | cons nameValue pairs ih =>
      by_cases hpairs : pairs = []
      · rw [hpairs, text, List.map_cons, List.map_nil, List.intercalate_singleton]
        apply hash_not_mem_pair
      · have hne : pairs.map enc.pair ≠ [] := by simpa using hpairs
        rw [text, List.map_cons, List.intercalate_cons_of_ne_nil hne, List.mem_append,
          List.mem_append]
        rintro ((h | h) | h)
        · apply hash_not_mem_pair enc nameValue h
        · cases List.mem_singleton.mp h
        · apply ih h

end FormEncoding

/-! ### The query of a target -/

theorem takeWhile_of_not_mem {d : CodePoint} {s : Str} (h : d ∉ s) :
  s.takeWhile (· ≠ d) = s
  := by
  apply List.takeWhile_eq_self_iff.mpr
  intro c hc
  apply decide_eq_true
  rintro rfl
  apply h hc

/-- A query is no fragment. -/
theorem takeWhile_hash {a q : Str} (ha : .scalar '#' ∉ a) (hq : .scalar '#' ∉ q) :
  (a ++ .scalar '?' :: q).takeWhile (· ≠ .scalar '#') = a ++ .scalar '?' :: q
  := by
  apply takeWhile_of_not_mem
  intro h
  rcases List.mem_append.mp h with h | h
  · apply ha h
  · rcases List.mem_cons.mp h with h | h
    · cases h
    · apply hq h

/-- Two parts that a question mark separates. -/
theorem span_question {a : Str} (ha : .scalar '?' ∉ a) (q : Str) :
  (a ++ .scalar '?' :: q).takeWhile (· ≠ .scalar '?') = a
    ∧ (a ++ .scalar '?' :: q).dropWhile (· ≠ .scalar '?') = .scalar '?' :: q
  := by
  have hpath : ∀ c ∈ a, decide (c ≠ CodePoint.scalar '?') = true := by
    intro c hc
    apply decide_eq_true
    rintro rfl
    apply ha hc
  constructor
  · rw [List.takeWhile_append_of_pos hpath]
    exact List.append_nil _
  · rw [List.dropWhile_append_of_pos hpath]
    rfl

/-- The query of a target is what follows its path and a question mark. -/
theorem query_append {a q : Str} (ha : .scalar '#' ∉ a ∧ .scalar '?' ∉ a)
    (hq : .scalar '#' ∉ q) :
  query (a ++ .scalar '?' :: q) = q
  := by
  rw [query, takeWhile_hash ha.1 hq, (span_question ha.2 q).2]
  rfl

/-- It does not take part in the path. -/
theorem path_append_query {a q : Str} (ha : .scalar '#' ∉ a ∧ .scalar '?' ∉ a)
    (hq : .scalar '#' ∉ q) :
  path (a ++ .scalar '?' :: q) = path a
  := by
  rw [path, path, takeWhile_hash ha.1 hq, (span_question ha.2 q).1, takeWhile_of_not_mem ha.1,
    takeWhile_of_not_mem ha.2]

end Url

end Python
