import ResourceDistribution.Node.OsString
import ResourceDistribution.Python.Loads
import ResourceDistribution.Tracker.Server

/-!
# Request bodies

How the tracker reads the body of a `POST`: as many bytes as its `Content-Length` says, if that is a
number and not above a limit, decoded from UTF-8 and as JSON. A length in decimal digits is read as
the number it is (`toInt?_decimalText`), so it is the limit alone that a well-formed request may fail
(`readJsonBody_decimalText`).
-/

open Python Node

namespace Tracker

/-! ### Reading a body -/

/-- The number of bytes above which a body is refused. -/
def maxBodyLength : ℤ := 1024 * 1024

/-- Why `_read_json_body` answers with an error. -/
inductive BodyError where
  | lengthRequired
  | invalidLength
  | tooLarge
  | invalidJson
  | notAnObject
  deriving DecidableEq

/-- The status that an error is answered with. -/
def BodyError.status : BodyError → ℕ
  | .lengthRequired => 411
  | .tooLarge => 413
  | .invalidLength | .invalidJson | .notAnObject => 400

/-- The message that an error is answered with. That of invalid JSON ends in the text of the
exception, which is left out. -/
def BodyError.message : BodyError → String
  | .lengthRequired => "Content-Length is required"
  | .invalidLength => "invalid Content-Length"
  | .tooLarge => "request body is too large"
  | .invalidJson => "invalid JSON: "
  | .notAnObject => "JSON body must be an object"

/-- What becomes of a body: the payload it is, or an error that is answered, or an exception that is
not caught. -/
inductive BodyOutcome where
  | payload (items : List (Str × Json))
  | refused (error : BodyError)
  | raised

/-- `self.rfile.read(length)`, on what the client sends before it ends the stream: at most as many
bytes as the length, or all of them if it is `-1`, while any other negative length raises. -/
def rfileRead (stream : List UInt8) (length : ℤ) : Option (List UInt8) :=
  if 0 ≤ length then some (stream.take length.toNat)
  else if length = -1 then some stream
  else none

/-- `body.decode("utf-8")`: the string of which these are the bytes. -/
def decodeUtf8 (bytes : List UInt8) : Option String :=
  if utf8 (toStringLossy bytes) = bytes then some (toStringLossy bytes) else none

/-- What `_read_json_body` makes of the bytes that it has read. Of the exceptions of `json.loads` it
catches a `JSONDecodeError` only. -/
def parseBody [RecursionLimit] (bytes : List UInt8) : BodyOutcome :=
  match decodeUtf8 bytes with
  | none => .refused .invalidJson
  | some text =>
      match Json.loads text with
      | .error .decodeError => .refused .invalidJson
      | .error .valueError | .error .recursionError => .raised
      | .ok (.dict items) => .payload items
      | .ok _ => .refused .notAnObject

section UnicodeData

variable [UnicodeData]

/-- `_read_json_body()`, on the header `Content-Length` and what the client sends. -/
def readJsonBody [RecursionLimit] (contentLength : Option Str) (stream : List UInt8) :
    BodyOutcome :=
  match contentLength with
  | none => .refused .lengthRequired
  | some raw =>
      match raw.toInt? with
      | none => .refused .invalidLength
      | some length =>
          if maxBodyLength < length then .refused .tooLarge
          else
            match rfileRead stream length with
            | none => .raised
            | some body => parseBody body

/-- `do_POST` of `/api/v1/update`. -/
def Server.postUpdate [RecursionLimit] (server : Server) (nodes : Nodes) (clock : Clock)
    (contentLength : Option Str) (stream : List UInt8) (clientHost : Str) :
    Option Response × Nodes :=
  match readJsonBody contentLength stream with
  | .payload items => server.handle nodes clock (.update (.dict items) clientHost)
  | .refused error => (sendError error.status error.message, nodes)
  | .raised => (none, nodes)

/-! ### Lengths in decimal digits -/

/-- A number in decimal digits, as it stands in a header. -/
def decimalText (n : ℕ) : Str := (Nat.toDigits 10 n).map .scalar

theorem digit?_of_isDigit {c : Char} (h : c.isDigit = true) :
  Str.digit? (.scalar c) = some (c.toNat - 0x30)
  := by
  have hc : 0x30 ≤ c.toNat ∧ c.toNat ≤ 0x39 := by
    rw [Char.isDigit, Bool.and_eq_true, decide_eq_true_iff, decide_eq_true_iff] at h
    exact h
  rw [Str.digit?, CodePoint.toNat, if_pos (by omega), if_pos hc]

omit [UnicodeData] in
/-- A digit is not white space, no sign and no underscore. -/
theorem plain_of_isDigit {c : Char} (h : c.isDigit = true) :
  Str.intSpace (.scalar c) = false ∧ c ≠ '+' ∧ c ≠ '-' ∧ c ≠ '_'
  := by
  have hne : ∀ d : Char, d.isDigit = false → c ≠ d := by
    rintro d hd rfl
    cases hd.symm.trans h
  refine ⟨?_, hne '+' (by decide), hne '-' (by decide), hne '_' (by decide)⟩
  rw [Str.intSpace, Str.isspace_of_isDigit h, Bool.false_and]

theorem scanDigits_map_scalar {l : List Char} (hne : l ≠ []) (h : ∀ c ∈ l, c.isDigit = true) :
  Str.scanDigits (l.map .scalar) = some (l.map fun c => c.toNat - 0x30)
  := by
  induction l with
  | nil => cases hne rfl
  | cons c l ih =>
      have hc := digit?_of_isDigit (h c List.mem_cons_self)
      cases l with
      | nil => simp [Str.scanDigits, hc]
      | cons d l =>
          have hd := (plain_of_isDigit (h d (.tail c List.mem_cons_self))).2.2.2
          have hrest := ih (List.cons_ne_nil d l) fun e he => h e (.tail c he)
          rw [List.map_cons] at hrest
          simp only [List.map_cons, Str.scanDigits, hc, CodePoint.scalar.injEq, if_neg hd, hrest]
          rfl

omit [UnicodeData] in
/-- A string of digits is not stripped, and has no sign. -/
theorem scanSign_stripWith {l : List Char} (h : ∀ c ∈ l, c.isDigit = true) :
  Str.scanSign (Str.stripWith Str.intSpace (l.map .scalar)) = (false, l.map .scalar)
  := by
  have hspace : ∀ c ∈ l.map CodePoint.scalar, Str.intSpace c = false := by
    intro c hc
    obtain ⟨d, hd, rfl⟩ := List.mem_map.mp hc
    exact (plain_of_isDigit (h d hd)).1
  have hdrop : (l.map CodePoint.scalar).dropWhile Str.intSpace = l.map .scalar := by
    cases l with
    | nil => rfl
    | cons c l =>
        apply List.dropWhile_cons_of_neg
        rw [hspace _ List.mem_cons_self]
        exact Bool.false_ne_true
  have hstrip : Str.stripWith Str.intSpace (l.map .scalar) = l.map .scalar := by
    rw [Str.stripWith, hdrop, List.rdropWhile_eq_self_iff]
    intro hne
    rw [hspace _ (List.getLast_mem hne)]
    exact Bool.false_ne_true
  rw [hstrip]
  cases l with
  | nil => rfl
  | cons c l =>
      obtain ⟨-, hplus, hminus, -⟩ := plain_of_isDigit (h c List.mem_cons_self)
      rw [List.map_cons, Str.scanSign]
      · intro rest heq
        apply hplus (CodePoint.scalar.inj (List.cons.inj heq).1)
      · intro rest heq
        apply hminus (CodePoint.scalar.inj (List.cons.inj heq).1)

/-- A number of at most 4300 digits is read as what it is, and a longer one is refused. -/
theorem toInt?_decimalText (n : ℕ) :
  Str.toInt? (decimalText n)
    = if Str.maxStrDigits < (Nat.toDigits 10 n).length then none else some (n : ℤ)
  := by
  have hdigits : ∀ c ∈ Nat.toDigits 10 n, c.isDigit = true := by
    intro c hc
    apply Nat.isDigit_of_mem_toDigits (by decide) (by decide) hc
  have hvalue : ((Nat.toDigits 10 n).map fun c => c.toNat - 0x30).foldl (fun n d => 10 * n + d) 0
      = n := by
    rw [List.foldl_map]
    apply Nat.ofDigitChars_toDigits (by decide) (by decide)
  simp only [Str.toInt?, decimalText, scanSign_stripWith hdigits,
    scanDigits_map_scalar Nat.toDigits_ne_nil hdigits, List.length_map, hvalue]
  rfl

/-- A body that comes with its length is parsed if it is not too long, and refused otherwise; for a
length that fits into 64 bits, because it is too long. -/
theorem readJsonBody_decimalText [RecursionLimit] (bytes : List UInt8) :
  readJsonBody (some (decimalText bytes.length)) bytes
    = if bytes.length ≤ 1024 * 1024 then parseBody bytes
      else if Str.maxStrDigits < (Nat.toDigits 10 bytes.length).length then .refused .invalidLength
      else .refused .tooLarge
  := by
  have hread : rfileRead bytes bytes.length = some bytes := by
    rw [rfileRead, if_pos (by omega), Int.toNat_natCast, List.take_length]
  rw [readJsonBody, toInt?_decimalText]
  by_cases hle : bytes.length ≤ 1024 * 1024
  · have hdigits : ¬ Str.maxStrDigits < (Nat.toDigits 10 bytes.length).length := by
      have hlength : (Nat.toDigits 10 bytes.length).length ≤ 7 := by
        rw [Nat.length_toDigits_le_iff (by decide) (by decide)]
        omega
      rw [not_lt]
      apply hlength.trans
      decide
    have hlimit : ¬ maxBodyLength < bytes.length := by
      rw [maxBodyLength]
      omega
    simp only [if_neg hdigits, if_neg hlimit, if_pos hle, hread]
  · have hlimit : maxBodyLength < bytes.length := by
      rw [maxBodyLength]
      omega
    rw [if_neg hle]
    by_cases hdigits : Str.maxStrDigits < (Nat.toDigits 10 bytes.length).length
    · simp only [if_pos hdigits]
    · simp only [if_neg hdigits, if_pos hlimit]

end UnicodeData

/-- A length that fits into 64 bits has few digits. -/
theorem length_toDigits_le {n : ℕ} (h : n < 2 ^ 64) :
  ¬ Str.maxStrDigits < (Nat.toDigits 10 n).length
  := by
  have hlength : (Nat.toDigits 10 n).length ≤ 20 := by
    rw [Nat.length_toDigits_le_iff (by decide) (by decide)]
    omega
  rw [not_lt]
  apply hlength.trans
  decide

/-- What was encoded is decoded. -/
theorem decodeUtf8_utf8 (s : String) :
  decodeUtf8 (utf8 s) = some s
  := by
  rw [decodeUtf8, toStringLossy_utf8, if_pos rfl]

end Tracker
