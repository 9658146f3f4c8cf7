import ResourceDistribution.Tracker.Body

/-!
# How much of a body is read

A body is read by the number that its `Content-Length` is, which is compared with the limit. A
negative number passes: with `-1` all that the client sends is read, and with any other one
`rfile.read` raises. So the limit holds except for the length `-1` and a stream that is longer than
the limit (`bodyBounded_iff`). What is handed to the registry is an object decoded from the bytes
read, in any case.
-/

open Python

namespace Tracker

section UnicodeData

variable [UnicodeData]

/-! ### The bytes read -/

/-- The length by which a body is read, if the header passes the checks. -/
def bodyLength (contentLength : Option Str) : Except BodyError ℤ :=
  match contentLength with
  | none => .error .lengthRequired
  | some raw =>
      match raw.toInt? with
      | none => .error .invalidLength
      | some length => if maxBodyLength < length then .error .tooLarge else .ok length

/-- The bytes that `_read_json_body` takes from the connection: none if a check fails or the read
raises. -/
def bodyRead (contentLength : Option Str) (stream : List UInt8) : List UInt8 :=
  match bodyLength contentLength with
  | .error _ => []
  | .ok length => (rfileRead stream length).getD []

/-- A body is refused for its length, or reading it raises, or it is parsed from the bytes read. -/
theorem readJsonBody_eq [RecursionLimit] (contentLength : Option Str) (stream : List UInt8) :
  readJsonBody contentLength stream
    = match bodyLength contentLength with
      | .error error => .refused error
      | .ok length =>
          if (rfileRead stream length).isSome then parseBody (bodyRead contentLength stream)
          else .raised
  := by
  cases contentLength with
  | none => rfl
  | some raw =>
      cases hraw : raw.toInt? with
      | none => simp only [readJsonBody, bodyLength, hraw]
      | some length =>
          simp only [readJsonBody, bodyRead, bodyLength, hraw]
          by_cases hlarge : maxBodyLength < length
          · simp only [if_pos hlarge]
          · simp only [if_neg hlarge]
            cases rfileRead stream length with
            | none => rfl
            | some body => rfl

theorem bodyLength_eq_ok_iff {contentLength : Option Str} {length : ℤ} :
  bodyLength contentLength = .ok length
    ↔ (∃ raw, contentLength = some raw ∧ raw.toInt? = some length) ∧ length ≤ maxBodyLength
  := by
  cases contentLength with
  | none => simp [bodyLength]
  | some raw =>
      cases hraw : raw.toInt? with
      | none => simp [bodyLength, hraw]
      | some n =>
          simp only [bodyLength, hraw, Option.some.injEq, exists_eq_left']
          split_ifs with hn
          · simp only [false_iff, not_and, not_le]
            rintro rfl
            exact hn
          · simp only [Except.ok.injEq]
            constructor
            · rintro rfl
              exact ⟨rfl, not_lt.mp hn⟩
            · exact And.left

omit [UnicodeData] in
/-- A length that is not negative bounds what is read, with `-1` all is read, and nothing with any
other length. -/
theorem length_rfileRead_le_iff (stream : List UInt8) {length bound : ℤ} (h : length ≤ bound)
    (hbound : 0 ≤ bound) :
  ((rfileRead stream length).getD []).length ≤ bound ↔ ¬ (length = -1 ∧ bound < stream.length)
  := by
  rw [rfileRead]
  split_ifs with hpos hall
  · rw [Option.getD_some, List.length_take]
    omega
  · rw [Option.getD_some]
    omega
  · rw [Option.getD_none, List.length_nil]
    omega

/-- What is read is the beginning of what the client sends. -/
theorem bodyRead_isPrefix (contentLength : Option Str) (stream : List UInt8) :
  bodyRead contentLength stream <+: stream
  := by
  rw [bodyRead]
  split
  · apply List.nil_prefix
  · rw [rfileRead]
    split_ifs
    · apply List.take_prefix
    · exact List.prefix_rfl
    · apply List.nil_prefix

/-- A length that is read as `-1`, and a stream that is longer than the limit. -/
def ReadsAll (contentLength : Option Str) (stream : List UInt8) : Prop :=
  (∃ raw, contentLength = some raw ∧ raw.toInt? = some (-1)) ∧ 1024 * 1024 < stream.length

/-- What is read is within the limit but for the length `-1`. -/
theorem length_bodyRead_le_iff (contentLength : Option Str) (stream : List UInt8) :
  (bodyRead contentLength stream).length ≤ 1024 * 1024 ↔ ¬ ReadsAll contentLength stream
  := by
  have hmax : maxBodyLength = 1024 * 1024 := rfl
  cases hlength : bodyLength contentLength with
  | error error =>
      rw [bodyRead, hlength]
      constructor
      · rintro - ⟨⟨raw, hraw, hint⟩, -⟩
        have hok := bodyLength_eq_ok_iff.mpr ⟨⟨raw, hraw, hint⟩, by omega⟩
        cases hlength.symm.trans hok
      · intro _
        apply Nat.zero_le
  | ok length =>
      obtain ⟨⟨raw, hraw, hint⟩, hle⟩ := bodyLength_eq_ok_iff.mp hlength
      have hread : bodyRead contentLength stream = (rfileRead stream length).getD [] := by
        rw [bodyRead, hlength]
      have hminus : (∃ raw, contentLength = some raw ∧ raw.toInt? = some (-1)) ↔ length = -1 := by
        constructor
        · rintro ⟨raw', hraw', hint'⟩
          cases hraw.symm.trans hraw'
          exact Option.some.inj (hint.symm.trans hint')
        · rintro rfl
          exact ⟨raw, hraw, hint⟩
      have hbound := length_rfileRead_le_iff stream hle (by omega)
      rw [hread, ReadsAll, hminus]
      omega

omit [UnicodeData] in
/-- What is parsed to a payload is the text of one. -/
theorem exists_text_of_parseBody [RecursionLimit] {bytes : List UInt8} {items : List (Str × Json)}
    (h : parseBody bytes = .payload items) :
  ∃ text, decodeUtf8 bytes = some text ∧ Json.loads text = .ok (.dict items)
  := by
  rw [parseBody] at h
  split at h
  · cases h
  · rename_i text htext
    use text, htext
    split at h
    · cases h
    · cases h
    · cases h
    · rename_i hloads
      cases h
      exact hloads
    · cases h

/-- The text of a payload, which is what the bytes read are decoded to. -/
theorem exists_text_of_readJsonBody [RecursionLimit] {contentLength : Option Str}
    {stream : List UInt8} {items : List (Str × Json)}
    (h : readJsonBody contentLength stream = .payload items) :
  ∃ text, decodeUtf8 (bodyRead contentLength stream) = some text ∧
    Json.loads text = .ok (.dict items)
  := by
  rw [readJsonBody_eq] at h
  cases hlength : bodyLength contentLength with
  | error error =>
      rw [hlength] at h
      cases h
  | ok length =>
      simp only [hlength] at h
      split_ifs at h
      apply exists_text_of_parseBody h

/-! ### Posting -/

/-- The paths of `do_POST` that read a body. -/
inductive PostPath where
  | update
  | offline

/-- What is asked of the registry by an object that is posted. -/
def PostPath.request (path : PostPath) (items : List (Str × Json)) (clientHost : Str) : Request :=
  match path with
  | .update => .update (.dict items) clientHost
  | .offline => .offline (.dict items)

variable [RecursionLimit]

/-- `do_POST` of a path that reads a body. -/
def Server.post (server : Server) (path : PostPath) (nodes : Nodes) (clock : Clock)
    (contentLength : Option Str) (stream : List UInt8) (clientHost : Str) :
    Option Response × Nodes :=
  match readJsonBody contentLength stream with
  | .payload items => server.handle nodes clock (path.request items clientHost)
  | .refused error => (sendError error.status error.message, nodes)
  | .raised => (none, nodes)

/-- A body of which at most a mebibyte is read, from the beginning of what the client sends, and of
which nothing comes to the registry but an object that the bytes read are decoded to: otherwise an
error is answered, or no response is sent, and the map is kept. -/
structure BodyBounded (contentLength : Option Str) (stream : List UInt8) : Prop where
  length_le : (bodyRead contentLength stream).length ≤ 1024 * 1024
  isPrefix : bodyRead contentLength stream <+: stream
  handed (server : Server) (path : PostPath) (nodes : Nodes) (clock : Clock) (clientHost : Str) :
    (∃ text items, decodeUtf8 (bodyRead contentLength stream) = some text ∧
      Json.loads text = .ok (.dict items) ∧
      server.post path nodes clock contentLength stream clientHost
        = server.handle nodes clock (path.request items clientHost)) ∨
    (∃ error : BodyError, server.post path nodes clock contentLength stream clientHost
      = (sendError error.status error.message, nodes)) ∨
    server.post path nodes clock contentLength stream clientHost = (none, nodes)

/-- A body is bounded except when its length is `-1` and the client sends more than a mebibyte.
The length is compared with the limit from above only. -/
theorem bodyBounded_iff (contentLength : Option Str) (stream : List UInt8) :
  BodyBounded contentLength stream ↔ ¬ ReadsAll contentLength stream
  := by
  rw [← length_bodyRead_le_iff]
  constructor
  · exact BodyBounded.length_le
  · intro hle
    refine ⟨hle, bodyRead_isPrefix contentLength stream, ?_⟩
    intro server path nodes clock clientHost
    cases hread : readJsonBody contentLength stream with
    | payload items =>
        left
        obtain ⟨text, htext, hloads⟩ := exists_text_of_readJsonBody hread
        use text, items, htext, hloads
        rw [Server.post, hread]
    | refused error =>
        right; left
        use error
        rw [Server.post, hread]
    | raised =>
        right; right
        rw [Server.post, hread]

end UnicodeData

/-- It is not the case that every body is bounded: with the length `-1`, a mebibyte and one byte more
are read. -/
theorem not_bodyBounded :
  let _ := UnicodeData.ascii
  let _ := RecursionLimit.default
  ¬ BodyBounded (some (Str.ofString "-1")) (List.replicate (1024 * 1024 + 1) 0)
  := by
  intro _ _ hbounded
  have hminus : (Str.ofString "-1").toInt? = some (-1) := by
    decide
  have hread : bodyRead (some (Str.ofString "-1")) (List.replicate (1024 * 1024 + 1) 0)
      = List.replicate (1024 * 1024 + 1) 0 := by
    have hlength : bodyLength (some (Str.ofString "-1")) = .ok (-1) :=
      bodyLength_eq_ok_iff.mpr ⟨⟨_, rfl, hminus⟩, by decide⟩
    rw [bodyRead, hlength]
    rfl
  have hle := hbounded.length_le
  rw [hread, List.length_replicate] at hle
  omega

end Tracker
