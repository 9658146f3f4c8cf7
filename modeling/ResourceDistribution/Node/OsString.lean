import Mathlib.Tactic.Common

/-!
# Names of files

A path or a component of one is, on a Unix system, a sequence of bytes. `toStringLossy` reads it as
a Rust string, `to_string_lossy`, and `utf8` is the sequence of bytes that a Rust string is. A name
in UTF-8 is read as it was written (`toStringLossy_utf8`).
-/

namespace Node

/-- A path or a component of a path. -/
abbrev OsString := List UInt8

/-- The bytes of a Rust string. -/
def utf8 (s : String) : OsString := s.toList.flatMap String.utf8EncodeChar

/-- The separator of the components of a path. -/
def slash : UInt8 := 0x2F

/-- `Path::join`. An absolute path replaces the path it is joined to. -/
def join (path other : OsString) : OsString :=
  if other.head? = some slash then other
  else if path = [] ∨ path.getLast? = some slash then path ++ other
  else path ++ slash :: other

/-- The components of a relative path, as one path. -/
def joinAll (components : List OsString) : OsString := List.intercalate [slash] components

/-! ### Decoding -/

/-- A byte that continues a character. -/
def isContinuation (b : UInt8) : Bool := b.toNat / 0x40 = 2

/-- The number of bytes of a character that begins with `a`; no character begins with a byte for
which this is 0. -/
def width (a : UInt8) : Nat :=
  if a.toNat < 0x80 then 1
  else if a.toNat < 0xC2 then 0
  else if a.toNat < 0xE0 then 2
  else if a.toNat < 0xF0 then 3
  else if a.toNat < 0xF5 then 4
  else 0

/-- Whether `b` is the second byte of a character of more than two bytes that begins with `a`. This
excludes encodings that are too long, surrogates and numbers past `U+10FFFF`. -/
def isSecond (a b : UInt8) : Bool :=
  isContinuation b &&
    if a.toNat = 0xE0 then 0xA0 ≤ b.toNat
    else if a.toNat = 0xED then b.toNat < 0xA0
    else if a.toNat = 0xF0 then 0x90 ≤ b.toNat
    else if a.toNat = 0xF4 then b.toNat < 0x90
    else true

/-- `U+FFFD`. -/
def replacement : Char := Char.ofNat 0xFFFD

/-- The characters of a sequence of bytes, with a replacement character for every longest part of
it that begins a character and is not continued. -/
def decodeLossy : OsString → List Char
  | [] => []
  | a :: rest =>
      if width a = 1 then Char.ofNat a.toNat :: decodeLossy rest
      else if width a = 0 then replacement :: decodeLossy rest
      else
        match rest with
        | [] => [replacement]
        | b :: rest₂ =>
            if width a = 2 then
              if isContinuation b then
                Char.ofNat (a.toNat % 0x20 * 0x40 + b.toNat % 0x40) :: decodeLossy rest₂
              else replacement :: decodeLossy (b :: rest₂)
            else if isSecond a b then
              match rest₂ with
              | [] => [replacement]
              | c :: rest₃ =>
                  if isContinuation c then
                    if width a = 3 then
                      Char.ofNat (a.toNat % 0x10 * 0x1000 + b.toNat % 0x40 * 0x40
                        + c.toNat % 0x40) :: decodeLossy rest₃
                    else
                      match rest₃ with
                      | [] => [replacement]
                      | d :: rest₄ =>
                          if isContinuation d then
                            Char.ofNat (a.toNat % 0x08 * 0x40000 + b.toNat % 0x40 * 0x1000
                              + c.toNat % 0x40 * 0x40 + d.toNat % 0x40) :: decodeLossy rest₄
                          else replacement :: decodeLossy (d :: rest₄)
                  else replacement :: decodeLossy (c :: rest₃)
            else replacement :: decodeLossy (b :: rest₂)

/-- `to_string_lossy`. -/
def toStringLossy (bytes : OsString) : String := String.ofList (decodeLossy bytes)

/-! ### Decoding what was encoded -/

theorem decodeLossy_of_width_one {a : UInt8} (ha : width a = 1) (rest : OsString) :
  decodeLossy (a :: rest) = Char.ofNat a.toNat :: decodeLossy rest
  := by
  rw [decodeLossy.eq_def]
  simp [ha]

theorem decodeLossy_of_width_two {a b : UInt8} (ha : width a = 2) (hb : isContinuation b = true)
    (rest : OsString) :
  decodeLossy (a :: b :: rest)
    = Char.ofNat (a.toNat % 0x20 * 0x40 + b.toNat % 0x40) :: decodeLossy rest
  := by
  rw [decodeLossy.eq_def]
  simp [ha, hb]

theorem decodeLossy_of_width_three {a b c : UInt8} (ha : width a = 3) (hb : isSecond a b = true)
    (hc : isContinuation c = true) (rest : OsString) :
  decodeLossy (a :: b :: c :: rest)
    = Char.ofNat (a.toNat % 0x10 * 0x1000 + b.toNat % 0x40 * 0x40 + c.toNat % 0x40)
      :: decodeLossy rest
  := by
  rw [decodeLossy.eq_def]
  simp [ha, hb, hc]

theorem decodeLossy_of_width_four {a b c d : UInt8} (ha : width a = 4) (hb : isSecond a b = true)
    (hc : isContinuation c = true) (hd : isContinuation d = true) (rest : OsString) :
  decodeLossy (a :: b :: c :: d :: rest)
    = Char.ofNat (a.toNat % 0x08 * 0x40000 + b.toNat % 0x40 * 0x1000 + c.toNat % 0x40 * 0x40
        + d.toNat % 0x40) :: decodeLossy rest
  := by
  rw [decodeLossy.eq_def]
  simp [ha, hb, hc, hd]

theorem toNat_ofNat {n : Nat} (h : n < 256) :
  (UInt8.ofNat n).toNat = n
  := by
  rw [UInt8.toNat_ofNat']
  omega

/-- A byte made of six bits continues a character. -/
theorem isContinuation_ofNat (n : Nat) :
  isContinuation (UInt8.ofNat (n % 0x40 + 0x80)) = true
  := by
  rw [isContinuation, toNat_ofNat (by omega)]
  simp only [decide_eq_true_eq]
  omega

/-- The first character of the encoding of `c` is `c`. -/
theorem decodeLossy_utf8EncodeChar (c : Char) (rest : OsString) :
  decodeLossy (String.utf8EncodeChar c ++ rest) = c :: decodeLossy rest
  := by
  -- no surrogate, and at most `U+10FFFF`
  have hrange : c.toNat < 0xD800 ∨ (0xDFFF < c.toNat ∧ c.toNat < 0x110000) := c.valid
  have hself : ∀ n, n = c.toNat → Char.ofNat n = c := by
    rintro n rfl
    apply Char.ofNat_toNat
  rw [String.utf8EncodeChar, show c.val.toNat = c.toNat from rfl]
  split
  · have ha := toNat_ofNat (show c.toNat < 256 by omega)
    rw [List.singleton_append, decodeLossy_of_width_one]
    · rw [hself _ ha]
    · rw [width, ha, if_pos (by omega)]
  split
  · have ha := toNat_ofNat (show c.toNat / 64 % 0x20 + 0xC0 < 256 by omega)
    have hb := toNat_ofNat (show c.toNat % 0x40 + 0x80 < 256 by omega)
    rw [List.cons_append, List.cons_append, List.nil_append, decodeLossy_of_width_two _
      (isContinuation_ofNat _)]
    · rw [hself]
      rw [ha, hb]
      omega
    · rw [width, ha, if_neg (by omega), if_neg (by omega), if_pos (by omega)]
  split
  · have ha := toNat_ofNat (show c.toNat / 4096 % 0x10 + 0xE0 < 256 by omega)
    have hb := toNat_ofNat (show c.toNat / 64 % 0x40 + 0x80 < 256 by omega)
    have hc := toNat_ofNat (show c.toNat % 0x40 + 0x80 < 256 by omega)
    rw [List.cons_append, List.cons_append, List.cons_append, List.nil_append,
      decodeLossy_of_width_three _ _ (isContinuation_ofNat _)]
    · rw [hself]
      rw [ha, hb, hc]
      omega
    · rw [width, ha, if_neg (by omega), if_neg (by omega), if_neg (by omega), if_pos (by omega)]
    · rw [isSecond, isContinuation_ofNat, ha, hb]
      grind
  · have ha := toNat_ofNat (show c.toNat / 262144 % 0x08 + 0xF0 < 256 by omega)
    have hb := toNat_ofNat (show c.toNat / 4096 % 0x40 + 0x80 < 256 by omega)
    have hc := toNat_ofNat (show c.toNat / 64 % 0x40 + 0x80 < 256 by omega)
    have hd := toNat_ofNat (show c.toNat % 0x40 + 0x80 < 256 by omega)
    rw [List.cons_append, List.cons_append, List.cons_append, List.cons_append, List.nil_append,
      decodeLossy_of_width_four _ _ (isContinuation_ofNat _) (isContinuation_ofNat _)]
    · rw [hself]
      rw [ha, hb, hc, hd]
      omega
    · rw [width, ha, if_neg (by omega), if_neg (by omega), if_neg (by omega), if_neg (by omega),
        if_pos (by omega)]
    · rw [isSecond, isContinuation_ofNat, ha, hb]
      grind

/-- A name in UTF-8 is read as it was written. -/
theorem toStringLossy_utf8 (s : String) :
  toStringLossy (utf8 s) = s
  := by
  have hdecode : ∀ l : List Char, decodeLossy (l.flatMap String.utf8EncodeChar) = l := by
    intro l
    induction l with
    | nil => rfl
    | cons c l ih => rw [List.flatMap_cons, decodeLossy_utf8EncodeChar, ih]
  rw [toStringLossy, utf8, hdecode]
  apply String.ofList_toList

end Node
