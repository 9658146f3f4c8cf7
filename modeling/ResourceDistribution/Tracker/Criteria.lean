import ResourceDistribution.Tracker.Availability
import ResourceDistribution.Tracker.Server

/-!
# The criteria of a query

`find_file_locations` tests whether it is given a criterion before it strips it, and afterwards a
criterion that was stripped to nothing excludes nothing. So a blank string passes the test, and with
no other criterion all files are found (`answersExactly_iff`). The handler of the query strips
first, and never meets this (`givenOrAbsent_first`).
-/

open Python

namespace Tracker

/-- The call raises a `TrackerValidationError` if no criterion is usable. Otherwise it returns the
entries of the files that running nodes hold and that satisfy all usable criteria, in the order of
their names and hashes. -/
def AnswersExactly (nodes : Nodes) (fileHash fileName : Option Str) (t : Time) : Prop :=
  (usable fileHash = none ∧ usable fileName = none →
      ∃ message, findFileLocations nodes fileHash fileName t
        = .error (.trackerValidationError message)) ∧
    (¬ (usable fileHash = none ∧ usable fileName = none) →
      ∃ entries after, findFileLocations nodes fileHash fileName t = .ok (entries, after) ∧
        entries.Pairwise (fun e f =>
          nameAndHash e.fileName e.fileHash < nameAndHash f.fileName f.fileHash) ∧
        ∀ entry, entry ∈ entries ↔
          entry ∈ (fileIndex (cleanupExpired nodes t).2).values ∧
            (∀ hash ∈ usable fileHash, entry.fileHash = hash) ∧
            ∀ name ∈ usable fileName, entry.fileName = name)

/-- Of the two strings one is not blank, or none has a character. -/
def GivenOrAbsent (fileHash fileName : Option Str) : Prop :=
  (∃ s, (fileHash = some s ∨ fileName = some s) ∧ s.strip ≠ []) ∨
    ∀ s, fileHash = some s ∨ fileName = some s → s = []

/-- What is found is sorted by name and hash. -/
theorem pairwise_of_findFileLocations_eq_ok {nodes after : Nodes} {fileHash fileName : Option Str}
    {t : Time} {entries : List IndexEntry}
    (h : findFileLocations nodes fileHash fileName t = .ok (entries, after)) :
  entries.Pairwise (fun e f =>
    nameAndHash e.fileName e.fileHash < nameAndHash f.fileName f.fileHash)
  := by
  obtain ⟨-, rfl, -⟩ := findFileLocations_eq_ok_iff.mp h
  apply Keyed.pairwise_lt_sortBy
  apply List.Pairwise.sublist List.filter_sublist
  apply List.pairwise_map.mp (pairwise_summaries (cleanupExpired nodes t).2)

/-- What strips to nothing but is given counts as a criterion, and is none. -/
theorem givenOrAbsent_iff {fileHash fileName : Option Str} :
  GivenOrAbsent fileHash fileName
    ↔ (usable fileHash = none ∧ usable fileName = none →
      criterion fileHash = none ∧ criterion fileName = none)
  := by
  simp only [usable_eq_none_iff, criterion_eq_none_iff, GivenOrAbsent, Option.mem_def]
  constructor
  · rintro (⟨s, hs, hstrip⟩ | hempty) ⟨hhash, hname⟩
    · rcases hs with hs | hs
      · exact absurd (hhash s hs) hstrip
      · exact absurd (hname s hs) hstrip
    · exact ⟨fun s hs => hempty s (.inl hs), fun s hs => hempty s (.inr hs)⟩
  · intro h
    by_cases hblank : (∀ s, fileHash = some s → s.strip = []) ∧ ∀ s, fileName = some s → s.strip = []
    · right
      rintro s (hs | hs)
      · apply (h hblank).1 s hs
      · apply (h hblank).2 s hs
    · left
      by_contra hnone
      apply hblank
      constructor
      · intro s hs
        by_contra hstrip
        exact hnone ⟨s, .inl hs, hstrip⟩
      · intro s hs
        by_contra hstrip
        exact hnone ⟨s, .inr hs, hstrip⟩

/-- The call answers exactly unless it is given a blank string and no other criterion. -/
theorem answersExactly_iff (nodes : Nodes) (fileHash fileName : Option Str) (t : Time) :
  AnswersExactly nodes fileHash fileName t ↔ GivenOrAbsent fileHash fileName
  := by
  rw [givenOrAbsent_iff]
  constructor
  · rintro ⟨hraises, -⟩ hblank
    by_contra hgiven
    obtain ⟨message, hmessage⟩ := hraises hblank
    obtain ⟨entries, hfind⟩ := exists_findFileLocations_eq_ok nodes t hgiven
    rw [hmessage] at hfind
    cases hfind
  · intro h
    constructor
    · intro hblank
      rw [findFileLocations, if_pos (h hblank)]
      exact ⟨_, rfl⟩
    · intro husable
      have hgiven : ¬ (criterion fileHash = none ∧ criterion fileName = none) := by
        rintro ⟨hhash, hname⟩
        apply husable
        rw [criterion_eq_none_iff] at hhash hname
        rw [usable_eq_none_iff, usable_eq_none_iff]
        constructor
        · intro s hs
          rw [hhash s hs]
          rfl
        · intro s hs
          rw [hname s hs]
          rfl
      obtain ⟨entries, hfind⟩ := exists_findFileLocations_eq_ok nodes t hgiven
      exact ⟨entries, _, hfind, pairwise_of_findFileLocations_eq_ok hfind,
        mem_of_findFileLocations_eq_ok hfind⟩

/-- What the handler of the query passes on is stripped, and not empty. -/
theorem strip_eq_self_of_first_eq_some {values : List Str} {s : Str} (h : first values = some s) :
  s.strip = s ∧ s ≠ []
  := by
  obtain ⟨hs, hne⟩ := Option.filter_eq_some_iff.mp h
  obtain ⟨value, -, rfl⟩ := Option.map_eq_some_iff.mp hs
  constructor
  · apply Str.strip_eq_self_iff.mpr (Str.trimmed_strip value)
  · simpa using hne

/-- What the handler passes on is usable as it is. -/
theorem usable_first (values : List Str) :
  usable (first values) = first values
  := by
  cases hfirst : first values with
  | none => rfl
  | some s =>
      obtain ⟨hstrip, hne⟩ := strip_eq_self_of_first_eq_some hfirst
      simp [usable, Option.filter_some, hstrip, hne]

theorem criterion_first (values : List Str) :
  criterion (first values) = first values
  := by
  cases hfirst : first values with
  | none => rfl
  | some s =>
      obtain ⟨hstrip, hne⟩ := strip_eq_self_of_first_eq_some hfirst
      simp [criterion, Option.filter_some, hstrip, hne]

/-- What the handler of the query passes on is not blank. -/
theorem givenOrAbsent_first (fileHashes fileNames : List Str) :
  GivenOrAbsent (first fileHashes) (first fileNames)
  := by
  rw [givenOrAbsent_iff, usable_first, usable_first, criterion_first, criterion_first]
  exact id

/-- It is not the case that the call always answers exactly: a single space is no usable criterion,
and is not refused. -/
theorem not_answersExactly :
  let _ := UnicodeData.ascii
  let _ := JsonCodec.whole
  ¬ ∀ nodes, Reachable 90 nodes → ∀ fileHash fileName t, AnswersExactly nodes fileHash fileName t
  := by
  intro _ _ hall
  have hreachable : Reachable 90 (runAll 90 [(twoCopies, 0)]) := .inMemory [(twoCopies, 0)]
  obtain ⟨hraises, -⟩ := hall _ hreachable (some (Str.ofString " ")) none 0
  obtain ⟨message, hmessage⟩ := hraises (by decide)
  rw [findFileLocations, if_neg (by decide)] at hmessage
  cases hmessage

end Tracker
