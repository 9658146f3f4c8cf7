import Mathlib.Algebra.BigOperators.Group.List.Basic
import ResourceDistribution.Python.Text

/-!
# Paths in URLs

What `urlparse` takes for the path of a request's target, and the parts that a handler cuts it into.
Neither decodes anything. A string is sent as one segment of a path in some percent-encoding: it
leaves some of the characters that may stand in a segment, and writes all others byte by byte
(`SegmentEncoding`). What arrives is the segment as it was encoded, less what follows a semicolon
(`path_append`).
-/

namespace Python

namespace Url

/-! ### The path of a target -/

/-- `urlparse(target).path`, of a target that begins with one slash: what stands before a fragment
and a query, less the parameters of its last segment. -/
def path (target : Str) : Str :=
  let url := (target.takeWhile (· ≠ .scalar '#')).takeWhile (· ≠ .scalar '?')
  url.rdropWhile (· ≠ .scalar '/')
    ++ (url.rtakeWhile (· ≠ .scalar '/')).takeWhile (· ≠ .scalar ';')

/-- `[part for part in path.split("/") if part]`. -/
def parts (path : Str) : List Str := (path.splitOn (.scalar '/')).filter (· ≠ [])

theorem parts_append (a b : Str) :
  parts (a ++ .scalar '/' :: b) = parts a ++ parts b
  := by
  rw [parts, List.splitOn_append_cons_self, List.filter_append]
  rfl

/-- What has no slash is one part, unless it is empty. -/
theorem parts_of_not_mem {s : Str} (h : .scalar '/' ∉ s) :
  parts s = if s = [] then [] else [s]
  := by
  have hsplit : s.splitOn (.scalar '/') = [s] := by
    apply List.splitOnP_eq_singleton
    intro c hc
    apply beq_false_of_ne
    rintro rfl
    apply h hc
  rw [parts, hsplit]
  split
  · rename_i hnil
    rw [hnil]
    rfl
  · rename_i hne
    apply List.filter_cons_of_pos
    apply decide_eq_true hne

/-- The path of a target whose last segment has neither a fragment nor a query. -/
theorem path_append {a segment : Str} (ha : .scalar '#' ∉ a ∧ .scalar '?' ∉ a)
    (hsegment : .scalar '#' ∉ segment ∧ .scalar '?' ∉ segment) (hslash : .scalar '/' ∉ segment) :
  path (a ++ .scalar '/' :: segment)
    = a ++ .scalar '/' :: segment.takeWhile (· ≠ .scalar ';')
  := by
  have hkeep : ∀ d : Char, d ≠ '/' → .scalar d ∉ a → .scalar d ∉ segment →
      (a ++ .scalar '/' :: segment).takeWhile (· ≠ .scalar d) = a ++ .scalar '/' :: segment := by
    intro d hd hda hds
    apply List.takeWhile_eq_self_iff.mpr
    intro c hc
    apply decide_eq_true
    rintro rfl
    rcases List.mem_append.mp hc with hc | hc
    · apply hda hc
    · rcases List.mem_cons.mp hc with heq | hc
      · apply hd (CodePoint.scalar.inj heq)
      · apply hds hc
  have hall : ∀ c ∈ segment.reverse, decide (c ≠ CodePoint.scalar '/') = true := by
    intro c hc
    apply decide_eq_true
    rintro rfl
    apply hslash (List.mem_reverse.mp hc)
  rw [path, hkeep '#' (by decide) ha.1 hsegment.1, hkeep '?' (by decide) ha.2 hsegment.2]
  simp only [List.rdropWhile, List.rtakeWhile, List.reverse_append, List.reverse_cons,
    List.append_assoc, List.dropWhile_append_of_pos hall, List.takeWhile_append_of_pos hall]
  simp

/-! ### Percent-encoding -/

/-- The characters that no encoding has to escape. -/
def isUnreserved (c : Char) : Bool := c.isAlphanum || "-._~".toList.contains c

/-- Whether a character may stand in a segment of a path. -/
def isSegmentChar (c : Char) : Bool :=
  isUnreserved c || "!$&()*+,;=:@".toList.contains c || c.toNat = 0x27

/-- A percent-encoding of segments, by the characters it leaves as they are. -/
structure SegmentEncoding where
  leaves : Char → Bool
  isSegmentChar_of_leaves : ∀ c, leaves c = true → isSegmentChar c = true

/-- `quote(s, safe="")`. -/
def quote : SegmentEncoding where
  leaves := isUnreserved
  isSegmentChar_of_leaves c h := by
    rw [isSegmentChar, h]
    rfl

/-- A hexadecimal digit. -/
def hexDigit (n : Nat) : Char := (Nat.digitChar n).toUpper

/-- A byte, as an escape. -/
def escapeByte (b : UInt8) : Str :=
  ['%', hexDigit (b.toNat / 16), hexDigit (b.toNat % 16)].map .scalar

/-- Whether a code point may stand in an encoded segment. -/
def IsEncoded : CodePoint → Prop
  | .scalar c => isSegmentChar c = true ∨ c = '%'
  | .surrogate _ => False

theorem isEncoded_escapeByte {b : UInt8} {c : CodePoint} (h : c ∈ escapeByte b) :
  IsEncoded c
  := by
  have hdigit : ∀ n < 16, isSegmentChar (hexDigit n) = true := by decide
  have hb := b.toNat_lt
  obtain ⟨d, hd, rfl⟩ := List.mem_map.mp h
  rcases List.mem_cons.mp hd with rfl | hd
  · exact Or.inr rfl
  · rcases List.mem_cons.mp hd with rfl | hd
    · exact Or.inl (hdigit _ (by omega))
    · rw [List.mem_singleton.mp hd]
      exact Or.inl (hdigit _ (by omega))

/-- An encoded segment has no white space. -/
theorem isspace_of_isEncoded {c : CodePoint} (h : IsEncoded c) :
  Str.isspace c = false
  := by
  have hspaces : ∀ n ∈ Str.spaces, isSegmentChar (Char.ofNat n) = false ∧ Char.ofNat n ≠ '%' := by
    decide
  cases c with
  | surrogate n => cases h
  | scalar d =>
      apply Bool.eq_false_of_not_eq_true
      intro hspace
      have hmem : d.toNat ∈ Str.spaces := List.contains_iff_mem.mp hspace
      obtain ⟨hseg, hne⟩ := hspaces _ hmem
      rw [Char.ofNat_toNat] at hseg hne
      rcases h with h | h
      · cases h.symm.trans hseg
      · apply hne h

namespace SegmentEncoding

variable (enc : SegmentEncoding)

/-- The encoding of a character. -/
def encodeChar (c : Char) : Str :=
  if enc.leaves c then [.scalar c] else (String.utf8EncodeChar c).flatMap escapeByte

/-- The encoding of a string. A string with a surrogate has none. -/
def encode (s : Str) : Option Str := s.toString?.map fun t => t.toList.flatMap enc.encodeChar

/-- Whether a code point is left as it is. -/
def Leaves : CodePoint → Prop
  | .scalar c => enc.leaves c = true
  | .surrogate _ => False

instance : DecidablePred enc.Leaves
  | .scalar _ => inferInstanceAs (Decidable (_ = _))
  | .surrogate _ => inferInstanceAs (Decidable False)

theorem isEncoded_encodeChar {c : Char} {d : CodePoint} (h : d ∈ enc.encodeChar c) :
  IsEncoded d
  := by
  rw [encodeChar] at h
  split at h
  · rename_i hleaves
    rw [List.mem_singleton.mp h]
    exact Or.inl (enc.isSegmentChar_of_leaves c hleaves)
  · obtain ⟨b, -, hb⟩ := List.mem_flatMap.mp h
    apply isEncoded_escapeByte hb

/-- A character that is not left takes more room than before. -/
theorem length_encodeChar (c : Char) :
  1 ≤ (enc.encodeChar c).length ∧ (enc.leaves c = false → 1 < (enc.encodeChar c).length)
  := by
  rw [encodeChar]
  cases hc : enc.leaves c with
  | true => simp
  | false =>
      have hsize : 0 < (String.utf8EncodeChar c).length := by
        rw [String.length_utf8EncodeChar]
        apply Char.utf8Size_pos
      have hlength : ((String.utf8EncodeChar c).flatMap escapeByte).length
          = (String.utf8EncodeChar c).length * 3 := by
        simp [List.length_flatMap, escapeByte]
      rw [if_neg Bool.false_ne_true, hlength]
      omega

/-- What is encoded to a given segment. -/
theorem encode_eq_some_iff {s segment : Str} :
  enc.encode s = some segment ↔
    ∃ t, s = Str.ofString t ∧ segment = t.toList.flatMap enc.encodeChar
  := by
  rw [encode, Option.map_eq_some_iff]
  simp only [Str.toString?_eq_some_iff]
  constructor
  · rintro ⟨t, rfl, rfl⟩
    exact ⟨t, rfl, rfl⟩
  · rintro ⟨t, rfl, rfl⟩
    exact ⟨t, rfl, rfl⟩

theorem isEncoded_of_encode {s segment : Str} (h : enc.encode s = some segment) :
  ∀ c ∈ segment, IsEncoded c
  := by
  obtain ⟨t, -, rfl⟩ := enc.encode_eq_some_iff.mp h
  intro c hc
  obtain ⟨d, -, hd⟩ := List.mem_flatMap.mp hc
  apply enc.isEncoded_encodeChar hd

/-- A semicolon in an encoding is one of the string. -/
theorem semicolon_mem_of_encode {s segment : Str} (h : enc.encode s = some segment)
    (hmem : .scalar ';' ∈ segment) :
  .scalar ';' ∈ s
  := by
  have hdigit : ∀ n < 16, hexDigit n ≠ ';' := by decide
  obtain ⟨t, rfl, rfl⟩ := enc.encode_eq_some_iff.mp h
  obtain ⟨c, hc, hmem⟩ := List.mem_flatMap.mp hmem
  rw [encodeChar] at hmem
  split at hmem
  · rw [List.mem_singleton.mp hmem]
    apply List.mem_map_of_mem hc
  · obtain ⟨b, -, hb⟩ := List.mem_flatMap.mp hmem
    have hlt := b.toNat_lt
    simp only [escapeByte, List.map_cons, List.map_nil, List.mem_cons, CodePoint.scalar.injEq,
      List.not_mem_nil, or_false] at hb
    rcases hb with hb | hb | hb
    · cases hb
    · cases hdigit _ (by omega) hb.symm
    · cases hdigit _ (by omega) hb.symm

/-- Exactly the strings of which every character is left are their own encodings. -/
theorem encode_eq_self_iff {s : Str} :
  enc.encode s = some s ↔ ∀ c ∈ s, enc.Leaves c
  := by
  constructor
  · intro h
    obtain ⟨t, rfl, ht⟩ := enc.encode_eq_some_iff.mp h
    have hlength : ∀ l : List Char, l.length ≤ (l.flatMap enc.encodeChar).length ∧
        ((l.flatMap enc.encodeChar).length = l.length → ∀ c ∈ l, enc.leaves c = true) := by
      intro l
      induction l with
      | nil => simp
      | cons c l ih =>
          obtain ⟨hpos, hlt⟩ := enc.length_encodeChar c
          rw [List.flatMap_cons, List.length_append, List.length_cons]
          constructor
          · omega
          · intro heq
            rw [List.forall_mem_cons]
            constructor
            · apply Bool.eq_true_of_not_eq_false
              intro hc
              have := hlt hc
              omega
            · apply ih.2
              omega
    have hleft := (hlength t.toList).2 (by rw [← ht, Str.ofString, List.length_map])
    intro c hc
    obtain ⟨d, hd, rfl⟩ := List.mem_map.mp hc
    apply hleft d hd
  · intro h
    induction s with
    | nil => rfl
    | cons c s ih =>
        obtain ⟨t, ht, hs⟩ := enc.encode_eq_some_iff.mp (ih fun d hd => h d (.tail c hd))
        have hc := h c List.mem_cons_self
        cases c with
        | surrogate n => cases hc
        | scalar d =>
            have hleaves : enc.leaves d = true := hc
            apply enc.encode_eq_some_iff.mpr
            use String.ofList (d :: t.toList)
            constructor
            · rw [Str.ofString, String.toList_ofList, List.map_cons]
              congr 1
            · rw [String.toList_ofList, List.flatMap_cons, ← hs, encodeChar, if_pos hleaves]
              rfl

end SegmentEncoding

end Url

end Python
