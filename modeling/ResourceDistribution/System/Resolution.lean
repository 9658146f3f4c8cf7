import ResourceDistribution.Node.Target
import ResourceDistribution.Python.Loads
import ResourceDistribution.System.Query
import ResourceDistribution.Tracker.Criteria

/-!
# Resolving a target at the tracker

The two queries of `resolve_download_target`, answered by the tracker. A target that names a file and
is the hash of another one resolves to the latter, and of files that share a name none is resolved
to, unless the name is a hash (`resolves`).
-/

open Python Node Tracker

namespace System

/-! ### Queries and answers -/

/-- The map of the tracker when a query arrives, and the readings of the clock that it takes. -/
structure Moment where
  nodes : Nodes
  clock : Clock

/-- The live entries: those of the files that running nodes hold. -/
def Moment.live (moment : Moment) : List IndexEntry :=
  (fileIndex (cleanupExpired moment.nodes (moment.clock 0)).2).values

/-- What `parse_qs` makes of the parameter `key=value` under `name`. It drops empty values. -/
def parameter (name key value : String) : List Str :=
  if key = name ∧ value ≠ "" then [Str.ofString value] else []

/-- What the handler passes on of the parameter that is queried: its stripped value, unless that is
empty. -/
theorem first_parameter {key value : String} (hvalue : value ≠ "") :
  first (parameter key key value)
    = if (Str.ofString value).strip = [] then none else some (Str.ofString value).strip
  := by
  rw [parameter, if_pos ⟨rfl, hvalue⟩, first, List.head?_cons, Option.map_some, Option.filter_some]
  by_cases hblank : (Str.ofString value).strip = []
  · simp [hblank]
  · simp [hblank]

theorem first_parameter_of_ne {name key : String} (hkey : key ≠ name) (value : String) :
  first (parameter name key value) = none
  := by
  rw [parameter, if_neg fun h => hkey h.1]
  rfl

section RecursionLimit

variable [RecursionLimit]

/-- The answer to `GET /api/v1/query?key=value`. -/
def Moment.send [UnicodeData] (moment : Moment) (server : Server) (key value : String) :
    Option (ℕ × String) :=
  let request := .query (parameter "file_hash" key value) (parameter "file_name" key value)
  (server.handle moment.nodes moment.clock request).1.map fun response =>
    (response.status, response.body)

/-- A node decodes the answer to a query, and as what it says. -/
def Decodes (decode : String → Option QueryResponse) (moment : Moment) (key value : String) : Prop :=
  ∀ entries after,
    findFileLocations moment.nodes (first (parameter "file_hash" key value))
      (first (parameter "file_name" key value)) (moment.clock 0) = .ok (entries, after) →
    ∀ body, Json.dumps (queryJson entries) >>= Json.encode = .ok body →
      ∃ response, decode body = some response ∧ response.locations.map entryMeant = entries

/-- What is sent is the text of the payload. -/
theorem sendJson_eq_some {status : ℕ} {payload : Json} {response : Response}
    (h : sendJson status payload = some response) :
  response.status = status ∧ Json.dumps payload >>= Json.encode = .ok response.body
  := by
  obtain ⟨body, hbody, rfl⟩ := Option.map_eq_some_iff.mp h
  constructor
  · rfl
  · apply Fallible.toOption_eq_some.mp hbody

/-- An answer without an error status is the text of a result. -/
theorem answerCatching_eq_some {result : Except Exc Json} {response : Response}
    (h : answerCatching result = some response)
    (hstatus : ¬ (400 ≤ response.status ∧ response.status < 600)) :
  ∃ payload, result = .ok payload ∧ Json.dumps payload >>= Json.encode = .ok response.body
  := by
  cases result with
  | ok payload =>
      use payload, rfl
      apply (sendJson_eq_some h).2
  | error e =>
      cases e with
      | trackerValidationError message =>
          rw [(sendJson_eq_some h).1] at hstatus
          cases hstatus (by decide)
      | _ => cases h

/-- What a server's call finds is what `find_file_locations` finds. -/
theorem findFileLocations_eq_ok {server : Server} {nodes : Nodes} {fileHash fileName : Option Str}
    {now savedAt : Time} {entries : List IndexEntry}
    (h : (server.findFileLocations nodes fileHash fileName now savedAt).1 = .ok entries) :
  ∃ after, findFileLocations nodes fileHash fileName now = .ok (entries, after)
  := by
  rw [Server.findFileLocations] at h
  cases hfind : findFileLocations nodes fileHash fileName now with
  | error e =>
      rw [hfind] at h
      cases h
  | ok found =>
      obtain ⟨entries', after⟩ := found
      rw [hfind] at h
      obtain ⟨_, -, h⟩ := Fallible.bind_eq_ok.mp h
      obtain ⟨_, -, h⟩ := Fallible.bind_eq_ok.mp h
      use after
      rw [Except.ok.inj h]

/-! ### What a node finds -/

variable [UnicodeData] {server : Server} {decode : String → Option QueryResponse} {moment : Moment}

/-- An answer without an error status is the text of what `find_file_locations` finds. -/
theorem exists_of_send {key value : String} {status : ℕ} {body : String}
    (hsend : moment.send server key value = some (status, body))
    (hstatus : ¬ (400 ≤ status ∧ status < 600)) :
  ∃ entries after,
    findFileLocations moment.nodes (first (parameter "file_hash" key value))
      (first (parameter "file_name" key value)) (moment.clock 0) = .ok (entries, after) ∧
    Json.dumps (queryJson entries) >>= Json.encode = .ok body
  := by
  obtain ⟨answer, hanswer, heq⟩ := Option.map_eq_some_iff.mp hsend
  obtain ⟨rfl, rfl⟩ := Prod.mk.inj heq
  rw [Server.handle] at hanswer
  obtain ⟨payload, hpayload, hbody⟩ := answerCatching_eq_some hanswer hstatus
  obtain ⟨entries, hentries, rfl⟩ := Fallible.map_eq_ok.mp hpayload
  obtain ⟨after, hfind⟩ := findFileLocations_eq_ok hentries
  exact ⟨entries, after, hfind, hbody⟩

/-- A query that is answered without an error status succeeds. -/
theorem exists_query_eq_ok {key value : String} (hvalue : trim value ≠ "")
    (hdecodes : Decodes decode moment key value)
    (hsend : (moment.send server key value).map Prod.fst = some 200) :
  ∃ response, query (moment.send server) decode key value = .ok response
  := by
  obtain ⟨⟨status, body⟩, hanswer, rfl⟩ := Option.map_eq_some_iff.mp hsend
  obtain ⟨entries, after, hfind, hbody⟩ := exists_of_send hanswer (by decide)
  obtain ⟨response, hdecode, -⟩ := hdecodes entries after hfind body hbody
  use response
  apply query_eq_ok_iff.mpr
  exact ⟨hvalue, 200, body, hanswer, by decide, hdecode⟩

/-- A query that succeeds returns what `find_file_locations` finds. -/
theorem exists_of_query {key value : String} {response : QueryResponse}
    (hdecodes : Decodes decode moment key value)
    (h : query (moment.send server) decode key value = .ok response) :
  value ≠ "" ∧ ∃ after,
    findFileLocations moment.nodes (first (parameter "file_hash" key value))
      (first (parameter "file_name" key value)) (moment.clock 0)
        = .ok (response.locations.map entryMeant, after)
  := by
  obtain ⟨htrim, status, body, hsend, hstatus, hdecode⟩ := query_eq_ok_iff.mp h
  obtain ⟨entries, after, hfind, hbody⟩ := exists_of_send hsend hstatus
  constructor
  · rintro rfl
    cases htrim rfl
  · obtain ⟨response', hdecode', hmeant⟩ := hdecodes entries after hfind body hbody
    rw [hdecode] at hdecode'
    use after
    rw [Option.some.inj hdecode', hmeant, hfind]

/-- A query that succeeds finds the live entries that have the stripped value as their hash, or as
their name, which is not empty. -/
theorem found_of_query {key value : String} {response : QueryResponse}
    (hkey : key = "file_hash" ∨ key = "file_name") (hdecodes : Decodes decode moment key value)
    (h : query (moment.send server) decode key value = .ok response) :
  (Str.ofString value).strip ≠ [] ∧ ∀ entry, entry ∈ response.locations.map entryMeant ↔
    entry ∈ moment.live ∧
      (key = "file_hash" → entry.fileHash = (Str.ofString value).strip) ∧
      (key = "file_name" → entry.fileName = (Str.ofString value).strip)
  := by
  obtain ⟨hvalue, after, hfind⟩ := exists_of_query hdecodes h
  have hgiven := (findFileLocations_eq_ok_iff.mp hfind).1
  have hmem := mem_of_findFileLocations_eq_ok hfind
  rw [criterion_first, criterion_first] at hgiven
  rw [usable_first, usable_first] at hmem
  rcases hkey with rfl | rfl
  all_goals
    rw [first_parameter hvalue, first_parameter_of_ne (by decide)] at hgiven hmem
    have hne : (Str.ofString value).strip ≠ [] := by
      intro hblank
      apply hgiven
      rw [if_pos hblank]
      exact ⟨rfl, rfl⟩
    use hne
    intro entry
    rw [hmem, if_neg hne]
    simp [Moment.live]

/-- It finds no entry twice. -/
theorem nodup_of_query {key value : String} {response : QueryResponse}
    (hdecodes : Decodes decode moment key value)
    (h : query (moment.send server) decode key value = .ok response) :
  (response.locations.map entryMeant).Nodup
  := by
  obtain ⟨-, after, hfind⟩ := exists_of_query hdecodes h
  apply (pairwise_of_findFileLocations_eq_ok hfind).imp
  rintro entry _ hlt rfl
  exact lt_irrefl _ hlt

/-! ### Targets -/

/-- `resolve_download_target(target)` where the query by hash arrives at the moment `first` and the
query by name, if it is sent, at the moment `second`. -/
def resolve (server : Server) (decode : String → Option QueryResponse) (first second : Moment)
    (target : String) : Except TargetError FileLocation :=
  resolveDownloadTarget (query (first.send server) decode "file_hash")
    (query (second.send server) decode "file_name") target

/-- What a target may be resolved to: a live entry with its hash or, if there is none, the only live
entry with its name. -/
def Resolved (live : List IndexEntry) (target : Str) (entry : IndexEntry) : Prop :=
  entry ∈ live ∧
    (entry.fileHash = target ∨
      (∀ other ∈ live, other.fileHash ≠ target) ∧ entry.fileName = target ∧
        ∀ other ∈ live, other.fileName = target → other = entry)

/-- How a target is resolved where `live` are the live entries: only to what it may be resolved to,
and not at all if it is blank, if no entry has it, or if only names have it, and two of them. -/
structure Resolves (live : List IndexEntry) (target : String)
    (result : Except TargetError FileLocation) : Prop where
  of_ok : ∀ location, result = .ok location →
    Resolved live (Str.ofString target).strip (entryMeant location)
  blank : trim target = "" ∨ (Str.ofString target).strip = [] → ∃ e, result = .error e
  unmatched : (∀ entry ∈ live, entry.fileHash ≠ (Str.ofString target).strip ∧
    entry.fileName ≠ (Str.ofString target).strip) → ∃ e, result = .error e
  shared : (∀ entry ∈ live, entry.fileHash ≠ (Str.ofString target).strip) →
    (∃ entry ∈ live, ∃ other ∈ live, entry ≠ other ∧
      entry.fileName = (Str.ofString target).strip ∧
      other.fileName = (Str.ofString target).strip) → ∃ e, result = .error e

/-- A target that is resolved is not blank, and is resolved to what it may be. -/
theorem resolved_of_resolve_eq_ok {first second : Moment} {target : String}
    (hsame : first.live = second.live) (hfirst : Decodes decode first "file_hash" target)
    (hsecond : Decodes decode second "file_name" target) {location : FileLocation}
    (h : resolve server decode first second target = .ok location) :
  trim target ≠ "" ∧ (Str.ofString target).strip ≠ [] ∧
    Resolved first.live (Str.ofString target).strip (entryMeant location)
  := by
  obtain ⟨byHash, hbyHash, hlocation⟩ := resolveDownloadTarget_eq_ok_iff.mp h
  obtain ⟨hne, hhash⟩ := found_of_query (.inl rfl) hfirst hbyHash
  refine ⟨(query_eq_ok_iff.mp hbyHash).1, hne, ?_⟩
  rcases hlocation with hhead | ⟨hnone, byName, hbyName, hlocations⟩
  · have hmem := (hhash (entryMeant location)).mp
      (List.mem_map_of_mem (List.mem_of_mem_head? hhead))
    exact ⟨hmem.1, .inl (hmem.2.1 rfl)⟩
  · obtain ⟨-, hname⟩ := found_of_query (.inr rfl) hsecond hbyName
    rw [hlocations, List.map_singleton] at hname
    have hmem := (hname (entryMeant location)).mp (List.mem_singleton_self _)
    rw [← hsame] at hmem hname
    refine ⟨hmem.1, .inr ⟨?_, hmem.2.2 rfl, ?_⟩⟩
    · intro other hother heq
      have hfound := (hhash other).mpr ⟨hother, fun _ => heq, by simp⟩
      rw [hnone] at hfound
      cases hfound
    · intro other hother heq
      apply List.mem_singleton.mp ((hname other).mpr ⟨hother, by simp, fun _ => heq⟩)

/-- If the live entries are the same at both queries and the node decodes the answers, a target is
resolved to the entry with its hash or to the only one with its name, or not at all. -/
theorem resolves (server : Server) {first second : Moment} {target : String}
    (hsame : first.live = second.live) (hfirst : Decodes decode first "file_hash" target)
    (hsecond : Decodes decode second "file_name" target) :
  Resolves first.live target (resolve server decode first second target)
  := by
  cases hresult : resolve server decode first second target with
  | error e =>
      constructor
      case of_ok =>
        intro location h
        cases h
      all_goals
        intros
        use e
  | ok location =>
      obtain ⟨htrim, hstrip, hmem, hentry⟩ :=
        resolved_of_resolve_eq_ok hsame hfirst hsecond hresult
      constructor
      case of_ok =>
        intro location' h
        rw [← Except.ok.inj h]
        exact ⟨hmem, hentry⟩
      case blank =>
        rintro (hblank | hblank)
        · cases htrim hblank
        · cases hstrip hblank
      case unmatched =>
        intro hnone
        obtain ⟨hhash, hname⟩ := hnone _ hmem
        rcases hentry with heq | ⟨-, heq, -⟩
        · cases hhash heq
        · cases hname heq
      case shared =>
        rintro hnone ⟨entry, hin, other, hother, hne, heq, heq'⟩
        rcases hentry with heq'' | ⟨-, -, honly⟩
        · cases hnone _ hmem heq''
        · cases hne ((honly entry hin heq).trans (honly other hother heq').symm)

/-- A target that some live entry has as its hash is resolved, if the query by hash is answered. -/
theorem exists_resolve_eq_ok {first : Moment} (second : Moment) {target : String}
    (hvalue : trim target ≠ "") (hfirst : Decodes decode first "file_hash" target)
    (hsend : (first.send server "file_hash" target).map Prod.fst = some 200)
    (hhash : ∃ entry ∈ first.live, entry.fileHash = (Str.ofString target).strip) :
  ∃ location, resolve server decode first second target = .ok location
  := by
  obtain ⟨byHash, hbyHash⟩ := exists_query_eq_ok hvalue hfirst hsend
  obtain ⟨entry, hentry, heq⟩ := hhash
  have hmem := ((found_of_query (.inl rfl) hfirst hbyHash).2 entry).mpr ⟨hentry, by simp [heq]⟩
  obtain ⟨location, hlocation, -⟩ := List.mem_map.mp hmem
  have hne : byHash.locations ≠ [] := List.ne_nil_of_mem hlocation
  use byHash.locations.head hne
  apply resolveDownloadTarget_eq_ok_iff.mpr
  exact ⟨byHash, hbyHash, .inl (List.head?_eq_some_head hne)⟩

/-- A target that is the hash of a live entry is resolved to this entry, if the query by hash is
answered. -/
theorem exists_resolve_eq_ok_of_hash {first second : Moment} {target : String}
    (hvalue : trim target ≠ "") (hsame : first.live = second.live)
    (hfirst : Decodes decode first "file_hash" target)
    (hsecond : Decodes decode second "file_name" target)
    (hsend : (first.send server "file_hash" target).map Prod.fst = some 200)
    {entry : IndexEntry} (hentry : entry ∈ first.live)
    (hhash : entry.fileHash = (Str.ofString target).strip) :
  ∃ location, resolve server decode first second target = .ok location ∧
    entryMeant location = entry
  := by
  obtain ⟨location, hlocation⟩ := exists_resolve_eq_ok second hvalue hfirst hsend
    ⟨entry, hentry, hhash⟩
  use location, hlocation
  obtain ⟨-, -, hmem, hmatch⟩ := resolved_of_resolve_eq_ok hsame hfirst hsecond hlocation
  rcases hmatch with hsameHash | ⟨hnone, -⟩
  · apply eq_of_fileHash_eq hmem hentry (hsameHash.trans hhash.symm)
  · cases hnone entry hentry hhash

/-- A target that is the name of a single live entry, and the hash of none, is resolved to this
entry, if both queries are answered. -/
theorem exists_resolve_eq_ok_of_name {first second : Moment} {target : String}
    (hvalue : trim target ≠ "") (hsame : first.live = second.live)
    (hfirst : Decodes decode first "file_hash" target)
    (hsecond : Decodes decode second "file_name" target)
    (hsend : (first.send server "file_hash" target).map Prod.fst = some 200)
    (hsend' : (second.send server "file_name" target).map Prod.fst = some 200)
    (hhash : ∀ entry ∈ first.live, entry.fileHash ≠ (Str.ofString target).strip)
    {entry : IndexEntry} (hentry : entry ∈ first.live)
    (hname : entry.fileName = (Str.ofString target).strip)
    (honly : ∀ other ∈ first.live, other.fileName = (Str.ofString target).strip → other = entry) :
  ∃ location, resolve server decode first second target = .ok location ∧
    entryMeant location = entry
  := by
  obtain ⟨byHash, hbyHash⟩ := exists_query_eq_ok hvalue hfirst hsend
  obtain ⟨byName, hbyName⟩ := exists_query_eq_ok hvalue hsecond hsend'
  have hnone : byHash.locations = [] := by
    rw [← List.map_eq_nil_iff (f := entryMeant), List.eq_nil_iff_forall_not_mem]
    intro other hother
    obtain ⟨hlive, heq, -⟩ := ((found_of_query (.inl rfl) hfirst hbyHash).2 other).mp hother
    exact hhash other hlive (heq rfl)
  have hone : byName.locations.map entryMeant = [entry] := by
    rw [← List.perm_singleton, List.perm_ext_iff_of_nodup (nodup_of_query hsecond hbyName)
      (List.nodup_singleton entry)]
    intro other
    rw [(found_of_query (.inr rfl) hsecond hbyName).2 other, ← hsame, List.mem_singleton]
    constructor
    · rintro ⟨hlive, -, heq⟩
      apply honly other hlive (heq rfl)
    · rintro rfl
      exact ⟨hentry, by simp, fun _ => hname⟩
  obtain ⟨location, hlocations, hmeant⟩ := List.map_eq_singleton_iff.mp hone
  use location
  constructor
  · apply resolveDownloadTarget_eq_ok_iff.mpr
    exact ⟨byHash, hbyHash, .inr ⟨hnone, byName, hbyName, hlocations⟩⟩
  · exact hmeant

end RecursionLimit

/-! ### Three files -/

/-- The update of a node with three files: the hash of the first is the name of the others. -/
def threeFiles : Operation :=
  .updateNode (.dict [
    (Str.ofString "node_id", .str (Str.ofString "node-a")),
    (Str.ofString "host", .str (Str.ofString "127.0.0.1")),
    (Str.ofString "port", .int 9001),
    (Str.ofString "resources", .list ([("t", "a"), ("u", "t"), ("v", "t")].map fun i => .dict [
      (Str.ofString "file_hash", .str (Str.ofString i.1)),
      (Str.ofString "file_name", .str (Str.ofString i.2)),
      (Str.ofString "blocks", .list [.dict [
        (Str.ofString "index", .int 0),
        (Str.ofString "hash", .str (Str.ofString "y")),
        (Str.ofString "size", .int 1)]])]))]) none

/-- The moment after this update. -/
def afterThreeFiles : Moment :=
  let _ := UnicodeData.ascii
  ⟨runAll 90 [(threeFiles, 0)], fun _ => 0⟩

/-- A decoder that reads a body as `json.loads` does. -/
def decodeBody [RecursionLimit] (body : String) : Option QueryResponse :=
  (Json.loads body).toOption.bind QueryResponse.read

/-- What is read in the text of an answer. -/
def readBack [RecursionLimit] (entries : List IndexEntry) : Option (List IndexEntry) := do
  let chars ← (Json.text 0 (queryJson entries)).mapM Str.scalar?
  let (v, rest) ← (Json.scanValue (chars.length + 1) RecursionLimit.loadDepth
    (Json.skip chars)).toOption
  if Json.skip rest = [] then do
    let response ← QueryResponse.read v
    return response.locations.map entryMeant
  else none

/-- A body is decoded as what is read in its text. -/
theorem exists_decodeBody_eq_some [RecursionLimit] {entries : List IndexEntry} {body : String}
    (hread : readBack entries = some entries)
    (hbody : Json.dumps (queryJson entries) >>= Json.encode = .ok body) :
  ∃ response, decodeBody body = some response ∧ response.locations.map entryMeant = entries
  := by
  obtain ⟨chars, hchars, hread⟩ := Option.bind_eq_some_iff.mp hread
  obtain ⟨⟨v, rest⟩, hscan, hread⟩ := Option.bind_eq_some_iff.mp hread
  have htext : body = String.ofList chars := by
    obtain ⟨text, htext, hencode⟩ := Fallible.bind_eq_ok.mp hbody
    rw [Json.dumps] at htext
    split at htext
    · rw [← Except.ok.inj htext, Json.encode, Str.toString?, hchars] at hencode
      apply (Except.ok.inj hencode).symm
    · cases htext
  rw [Fallible.toOption_eq_some] at hscan
  rw [Option.ite_none_right_eq_some] at hread
  obtain ⟨hrest, hread⟩ := hread
  obtain ⟨response, hresponse, hmeant⟩ := Option.bind_eq_some_iff.mp hread
  use response
  constructor
  · rw [decodeBody, htext, Json.loads, String.toList_ofList, hscan]
    simp [bind, Except.bind, hrest, Except.toOption, pure, Except.pure, hresponse]
  · apply Option.some.inj hmeant

theorem decodes_threeFiles {key : String} (hkey : key ∈ ["file_hash", "file_name"]) :
  let _ := RecursionLimit.default
  Decodes decodeBody afterThreeFiles key "t"
  := by
  intro _ entries after hfind body hbody
  have hread : ∀ key ∈ ["file_hash", "file_name"],
      (findFileLocations afterThreeFiles.nodes (first (parameter "file_hash" key "t"))
        (first (parameter "file_name" key "t")) (afterThreeFiles.clock 0)).toOption.all
          fun found => readBack found.1 = some found.1 := by
    decide +kernel
  have hentries := hread key hkey
  rw [hfind] at hentries
  apply exists_decodeBody_eq_some (of_decide_eq_true hentries) hbody

/-- The target `t` is resolved to the file of this hash. -/
theorem resolves_threeFiles :
  let _ := UnicodeData.ascii
  let _ := RecursionLimit.default
  Resolves afterThreeFiles.live "t"
    (resolve memoryServer decodeBody afterThreeFiles afterThreeFiles "t")
  := by
  intro _ _
  apply resolves _ rfl
  · apply decodes_threeFiles (by decide)
  · apply decodes_threeFiles (by decide)

/-- It is not the case that a target is not resolved whenever two files have it as their name: it may
be the hash of a third one. -/
theorem not_resolve_eq_error :
  let _ := UnicodeData.ascii
  let _ := JsonCodec.whole
  let _ := RecursionLimit.default
  ¬ ∀ (server : Server) (decode : String → Option QueryResponse) (first second : Moment)
      (target : String), Reachable server.nodeTtlSeconds first.nodes →
    Reachable server.nodeTtlSeconds second.nodes → first.live = second.live →
    Decodes decode first "file_hash" target → Decodes decode second "file_name" target →
    (∃ entry ∈ first.live, ∃ other ∈ first.live, entry ≠ other ∧
      entry.fileName = (Str.ofString target).strip ∧
      other.fileName = (Str.ofString target).strip) →
    ∃ e, resolve server decode first second target = .error e
  := by
  intro _ _ _ hall
  have hreachable : Reachable 90 afterThreeFiles.nodes := .inMemory [(threeFiles, 0)]
  have hhash : Decodes decodeBody afterThreeFiles "file_hash" "t" :=
    decodes_threeFiles (by decide)
  have hname : Decodes decodeBody afterThreeFiles "file_name" "t" :=
    decodes_threeFiles (by decide)
  have hsend : (afterThreeFiles.send memoryServer "file_hash" "t").map Prod.fst = some 200 := by
    decide +kernel
  obtain ⟨e, he⟩ := hall memoryServer decodeBody afterThreeFiles afterThreeFiles "t" hreachable
    hreachable rfl hhash hname (by decide +kernel)
  obtain ⟨location, hlocation⟩ :=
    exists_resolve_eq_ok afterThreeFiles (by decide +kernel) hhash hsend (by decide +kernel)
  rw [hlocation] at he
  cases he

end System
