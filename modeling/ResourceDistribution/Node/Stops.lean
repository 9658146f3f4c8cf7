import ResourceDistribution.Node.Confinement
import ResourceDistribution.Node.ShareTree

/-!
# Downloads that stop

A download that has verified its bytes and accepted the name of the file changes the file system by
one call after another: it makes the directories that are missing on the way to the file, opens the
file, which truncates it, and writes it. It may stop after any number of calls, with an error or by
the death of its process, and it may return an error when all are made, since the files are
published then. What it leaves behind is what was there but for these directories and this file, and
the file is whole unless it stops while the file is written (`spared`).
-/

open Disk Tasks

namespace Node

universe u

variable {ν : Type u}

/-! ### What a download changes -/

/-- How far a download has come before it changes the file system: its target is not resolved, or
the tasks that fetch the blocks of a file are in some state. -/
inductive Course where
  | unresolved
  | resolved (job : Job) (s : DownloadState)

/-- The system that a node runs on: its platform, the place that an output path stands for, and the
number of links that are followed on a path. -/
structure Host (ν : Type u) where
  platform : Platform
  place : OutputPath → List ν
  links : Nat

section Sha256

variable [Sha256]

/-- The bytes that a download has joined and verified. -/
def Course.assembled : Course → Option (List UInt8)
  | .unresolved => none
  | .resolved job s =>
      match job.assembled s with
      | some (.ok bytes) => some bytes
      | _ => none

/-- The hash of the file that is downloaded. -/
def Course.fileHash : Course → Option String
  | .unresolved => none
  | .resolved job _ => some job.location.fileHash

/-- The verified bytes have the hash of the file. -/
theorem fileHash_of_assembled {course : Course} {bytes : List UInt8}
    (h : course.assembled = some bytes) :
  course.fileHash = some (Sha256.hex bytes)
  := by
  cases course with
  | unresolved => cases h
  | resolved job s =>
      rw [Course.assembled] at h
      split at h
      · rename_i bytes' hassembled
        obtain rfl := Option.some.inj h
        obtain ⟨r, -, hr⟩ := Option.map_eq_some_iff.mp hassembled
        obtain ⟨blocks, rfl, hassemble⟩ := Fallible.bind_eq_ok.mp hr
        rw [Course.fileHash, (assemble_eq_ok_iff.mp hassemble).2]
      · cases h

/-- What a download does to the file system. -/
def Course.effects (platform : Platform) : Course → List Effect
  | .unresolved => []
  | .resolved job s => job.effects platform s

/-- A download that does something writes what it has verified. -/
theorem assembled_of_effects {platform : Platform} {course : Course} {path path' : OutputPath}
    {bytes : List UInt8} (h : course.effects platform = [.createParent path, .write path' bytes]) :
  course.assembled = some bytes
  := by
  cases course with
  | unresolved => cases h
  | resolved job s =>
      cases hassembled : job.assembled s with
      | none =>
          rw [Course.effects, Job.effects, hassembled] at h
          cases h
      | some r =>
          cases r with
          | error e =>
              rw [Course.effects, Job.effects, hassembled] at h
              cases h
          | ok bytes' =>
              rw [Course.effects, Job.effects, hassembled] at h
              simp only at h
              split at h
              · obtain ⟨-, hwrite⟩ := List.cons.inj h
                obtain ⟨-, rfl⟩ := Effect.write.inj (List.cons.inj hwrite).1
                rw [Course.assembled, hassembled]
              · cases h

section DecidableEq

variable [DecidableEq ν] (host : Host ν) (d : Disk ν UInt8) (course : Course)

/-- Where a download writes its file, and the bytes. There is no such place if a directory on the
way is something else, or if the place is a directory. -/
def Host.output : Option (Target ν × List UInt8) :=
  match course.effects host.platform with
  | [.createParent path, .write _ bytes] =>
      (d.target host.links (host.place path)).map fun t => (t, bytes)
  | _ => none

/-- The calls by which a download changes the file system. -/
def Host.calls : List (Call ν UInt8) :=
  match host.output d course with
  | some (t, bytes) => t.calls bytes
  | none => []

/-- The file system that a download leaves when it stops after `n` calls. -/
def Host.stopped (n : Nat) : Disk ν UInt8 := d.run ((host.calls d course).take n)

variable {host d course}

theorem output_eq_some {t : Target ν} {bytes : List UInt8}
    (h : host.output d course = some (t, bytes)) :
  course.assembled = some bytes ∧ t.Fits d
  := by
  rw [Host.output] at h
  split at h
  · rename_i path path' bytes' heffects
    obtain ⟨t', ht, heq⟩ := Option.map_eq_some_iff.mp h
    obtain ⟨rfl, rfl⟩ := Prod.mk.inj heq
    exact ⟨assembled_of_effects heffects, fits_of_target ht⟩
  · cases h

theorem output_resolved_eq_some {job : Job} {s : DownloadState} {t : Target ν} {bytes : List UInt8}
    (h : host.output d (.resolved job s) = some (t, bytes)) :
  ∃ path, safeOutputPath host.platform job.location.fileName = .ok path ∧
    d.target host.links (host.place path) = some t
  := by
  rw [Host.output] at h
  split at h
  · rename_i path path' bytes' heffects
    obtain ⟨t', ht, heq⟩ := Option.map_eq_some_iff.mp h
    obtain ⟨rfl, -⟩ := Prod.mk.inj heq
    rw [Course.effects, Job.effects] at heffects
    split at heffects
    · split at heffects
      · rename_i path'' hpath
        obtain rfl := Effect.createParent.inj (List.cons.inj heffects).1
        exact ⟨path'', hpath, ht⟩
      · cases heffects
    · cases heffects
  · cases h

theorem output_of_assembled {job : Job} {s : DownloadState} {bytes : List UInt8}
    {path : OutputPath} {t : Target ν} (hassembled : job.assembled s = some (.ok bytes))
    (hpath : safeOutputPath host.platform job.location.fileName = .ok path)
    (htarget : d.target host.links (host.place path) = some t) :
  host.output d (.resolved job s) = some (t, bytes)
  := by
  have heffects : (Course.resolved job s).effects host.platform
      = [.createParent path, .write path bytes] := by
    rw [Course.effects, Job.effects, hassembled]
    simp only [hpath]
  rw [Host.output, heffects]
  simp only [htarget, Option.map_some]

theorem stopped_of_output {t : Target ν} {bytes : List UInt8}
    (h : host.output d course = some (t, bytes)) (n : Nat) :
  host.stopped d course n = (Disk.Stage.after t n).disk d t bytes
  := by
  rw [Host.stopped, Host.calls, h]
  apply run_take_calls

theorem stopped_of_output_eq_none (h : host.output d course = none) (n : Nat) :
  host.stopped d course n = d
  := by
  rw [Host.stopped, Host.calls, h]
  simp only [List.take_nil]
  rfl

end DecidableEq

/-! ### Stopping -/

/-- How a download stops: it returns an error, or it is aborted or its process dies. -/
inductive Ending where
  | failed
  | killed

/-- If there was or is a file at a place, then all there is what it was, or the verified bytes. -/
def WholeAt (course : Course) (d d' : Disk ν UInt8) (p : List ν) : Prop :=
  (∃ content, d.view p = some (.file content) ∨ d'.view p = some (.file content)) →
    d'.view p = d.view p ∨
      ∃ bytes, course.assembled = some bytes ∧ d'.view p = some (.file bytes)

/-- What is below a share directory is intact: all is what it was if the download returns an error,
and each file is whole if it is killed. -/
def Intact (course : Course) (root : List ν) (d d' : Disk ν UInt8) : Ending → Prop
  | .failed => ∀ p, root <+: p → d'.view p = d.view p
  | .killed => ∀ p, root <+: p → WholeAt course d d' p

section DecidableEq

variable [DecidableEq ν]

/-- What a download leaves when it stops after `n` calls. Nothing is changed if it comes to an end
before it has verified the bytes and accepted the name. All is what it was but for the directories
made so far and, from the call on that opens it, the file. All files are whole unless the download
stops between that call and the last one. When all calls are made, the file has the verified
bytes. -/
structure Spared (host : Host ν) (d : Disk ν UInt8) (course : Course) (n : Nat) : Prop where
  unchanged : course.effects host.platform = [] → ∀ p, (host.stopped d course n).view p = d.view p
  others : ∀ p, (host.stopped d course n).view p = d.view p ∨
    ∃ t bytes, host.output d course = some (t, bytes) ∧
      (Made t.dir (t.missing.take n) p ∧ d.view p = none ∧
          (host.stopped d course n).view p = some .directory ∨
        t.missing.length < n ∧ d.Writes t.place p)
  whole : ∀ t bytes, host.output d course = some (t, bytes) →
    n ≤ t.missing.length ∨ (host.calls d course).length ≤ n →
      ∀ p, WholeAt course d (host.stopped d course n) p
  written : ∀ t bytes, host.output d course = some (t, bytes) →
    (host.calls d course).length ≤ n → course.fileHash = some (Sha256.hex bytes) ∧
      ∀ p, d.Writes t.place p → (host.stopped d course n).view p = some (.file bytes)

variable {host : Host ν} {d : Disk ν UInt8} {course : Course}

/-- What is seen after some calls. -/
theorem view_stopped {t : Target ν} {bytes : List UInt8}
    (h : host.output d course = some (t, bytes)) (n : Nat) (p : List ν) :
  (host.stopped d course n).view p = d.view p ∨
    (Made t.dir (t.missing.take n) p ∧ d.view p = none ∧
      (host.stopped d course n).view p = some .directory) ∨
    (t.missing.length < n ∧ d.Writes t.place p ∧ (host.stopped d course n).view p
      = some (.file (bytes.take (n - t.missing.length - 1))))
  := by
  obtain ⟨-, hfits⟩ := output_eq_some h
  rw [stopped_of_output h, Disk.Stage.after]
  split
  · obtain ⟨hmade, hnot⟩ := hfits.view_making bytes n p
    by_cases hp : Made t.dir (t.missing.take n) p
    · right; left
      refine ⟨hp, ?_, hmade hp⟩
      obtain ⟨s, hne, hprefix, rfl⟩ := hp
      apply hfits.view_of_made ⟨s, hne, hprefix.trans (List.take_prefix n t.missing), rfl⟩
    · left
      apply hnot hp
  · rename_i hlt
    rw [not_le] at hlt
    obtain ⟨hwrites, hmade, hnot⟩ := hfits.view_writing bytes (n - t.missing.length - 1) p
    rw [List.take_of_length_le hlt.le]
    by_cases hp : d.Writes t.place p
    · right; right
      exact ⟨hlt, hp, hwrites hp⟩
    · by_cases hp' : Made t.dir t.missing p
      · right; left
        exact ⟨hp', hfits.view_of_made hp', hmade hp hp'⟩
      · left
        apply hnot hp hp'

theorem length_calls {t : Target ν} {bytes : List UInt8}
    (h : host.output d course = some (t, bytes)) :
  (host.calls d course).length = t.missing.length + (bytes.length + 1)
  := by
  rw [Host.calls, h]
  simp [Target.calls]

/-- When all calls are made, the file has the verified bytes. -/
theorem view_stopped_of_writes {t : Target ν} {bytes : List UInt8}
    (h : host.output d course = some (t, bytes)) {n : Nat}
    (hn : (host.calls d course).length ≤ n) {p : List ν} (hp : d.Writes t.place p) :
  (host.stopped d course n).view p = some (.file bytes)
  := by
  obtain ⟨-, hfits⟩ := output_eq_some h
  rw [length_calls h] at hn
  rw [stopped_of_output h, Disk.Stage.after, if_neg (by omega),
    (hfits.view_writing bytes (n - t.missing.length - 1) p).1 hp, List.take_of_length_le (by omega)]

/-- The file system after a download that returns no error. -/
def Host.completed (host : Host ν) (d : Disk ν UInt8) (course : Course) : Disk ν UInt8 :=
  host.stopped d course (host.calls d course).length

/-- The files after a download: those that are written have the verified bytes, and the others are
those that were there. -/
theorem view_completed_iff {t : Target ν} {bytes : List UInt8}
    (h : host.output d course = some (t, bytes)) {p : List ν} {content : List UInt8} :
  (host.completed d course).view p = some (.file content) ↔
    (d.Writes t.place p ∧ content = bytes) ∨
      (¬ d.Writes t.place p ∧ d.view p = some (.file content))
  := by
  by_cases hp : d.Writes t.place p
  · have hview := view_stopped_of_writes h le_rfl hp
    rw [Host.completed, hview]
    simp [hp, eq_comm]
  · rw [Host.completed]
    rcases view_stopped h (host.calls d course).length p with hsame | ⟨-, hnone, hdir⟩ | ⟨-, hp', -⟩
    · rw [hsame]
      simp [hp]
    · rw [hdir, hnone]
      simp [hp]
    · exact absurd hp' hp

/-- On every system that accepts the name of the file and where a file can be at the place that it
stands for, what the download leaves there is a file with these contents. -/
def Job.Stores (job : Job) (s : DownloadState) (content : List UInt8) : Prop :=
  ∀ {ν : Type} [DecidableEq ν] (host : Host ν) (d : Disk ν UInt8) (path : OutputPath) (t : Target ν),
    safeOutputPath host.platform job.location.fileName = .ok path →
    d.target host.links (host.place path) = some t →
    ∀ p, d.Writes t.place p →
      (host.completed d (.resolved job s)).view p = some (.file content)

/-- What was assembled is stored. -/
theorem stores_of_assembled {job : Job} {s : DownloadState} {content : List UInt8}
    (h : job.assembled s = some (.ok content)) :
  job.Stores s content
  := by
  intro ν _ host d path t hpath htarget p hp
  exact (view_completed_iff (output_of_assembled h hpath htarget)).mpr (Or.inl ⟨hp, rfl⟩)

/-- Wherever a download stops, it has spared what is not its own. -/
theorem spared (host : Host ν) (d : Disk ν UInt8) (course : Course) (n : Nat) :
  Spared host d course n
  := by
  constructor
  · intro heffects p
    have hnone : host.output d course = none := by rw [Host.output, heffects]
    rw [stopped_of_output_eq_none hnone]
  · intro p
    cases houtput : host.output d course with
    | none =>
        left
        rw [stopped_of_output_eq_none houtput]
    | some output =>
        obtain ⟨t, bytes⟩ := output
        rcases view_stopped houtput n p with hsame | hmade | ⟨hlt, hwrites, -⟩
        · left
          exact hsame
        · right
          exact ⟨t, bytes, rfl, Or.inl hmade⟩
        · right
          exact ⟨t, bytes, rfl, Or.inr ⟨hlt, hwrites⟩⟩
  · intro t bytes houtput hn p hfile
    rcases view_stopped houtput n p with hsame | ⟨-, hnone, hdir⟩ | ⟨hlt, hwrites, -⟩
    · left
      exact hsame
    · -- a directory is no file
      obtain ⟨content, hfile⟩ := hfile
      rw [hnone, hdir] at hfile
      simp at hfile
    · right
      obtain ⟨hassembled, -⟩ := output_eq_some houtput
      refine ⟨bytes, hassembled, ?_⟩
      apply view_stopped_of_writes houtput (hn.resolve_left (by omega)) hwrites
  · intro t bytes houtput hn
    obtain ⟨hassembled, -⟩ := output_eq_some houtput
    use fileHash_of_assembled hassembled
    intro p hp
    apply view_stopped_of_writes houtput hn hp

end DecidableEq

/-! ### A file that is written over -/

/-- A Unix system with a share directory. -/
def unixHost (root : List OsString) : Host OsString where
  platform := .unix
  place path := root ++ path.parts.map fun part => utf8 (String.ofList part)
  links := 40

/-- The download of a file of one block to a share directory that has a file of that name. -/
theorem output_oneBlock (content : List UInt8) {bytes : List UInt8} {s : DownloadState}
    (hreach : Reachable (oneBlock "a" bytes).pool (oneBlock "a" bytes).start s)
    (hfinal : Final (oneBlock "a" bytes).pool s) :
  (unixHost [utf8 "share"]).output (oneFile (utf8 "share") (utf8 "a") content)
      (.resolved (oneBlock "a" bytes) s)
    = some (⟨[utf8 "share"], [], [utf8 "share", utf8 "a"]⟩, bytes)
  := by
  have hpath : safeOutputPath .unix "a" = .ok ⟨.shareDir, [['a']]⟩ :=
    safeOutputPath_eq_ok_iff.mpr (by decide)
  apply output_of_assembled (oneBlock_assembled hreach hfinal) hpath
  rfl

end Sha256

/-- A download of other contents to a file that the node shares. When the file is written and
publishing fails, the download returns an error, and the file is not what it was; and when the
process dies after the call that opens the file, the file is empty. -/
theorem not_intact_oneBlock :
  let _ := Sha256.short
  let root := [utf8 "share"]
  let d := oneFile (utf8 "share") (utf8 "a") [98]
  ∃ s, Reachable (oneBlock "a" [97]).pool (oneBlock "a" [97]).start s ∧
    ¬ Intact (.resolved (oneBlock "a" [97]) s) root d
        ((unixHost root).stopped d (.resolved (oneBlock "a" [97]) s) 2) .failed ∧
    ¬ Intact (.resolved (oneBlock "a" [97]) s) root d
        ((unixHost root).stopped d (.resolved (oneBlock "a" [97]) s) 1) .killed
  := by
  intro _ root d
  obtain ⟨s, hreach, hfinal⟩ := exists_final (oneBlock "a" [97]).pool (oneBlock "a" [97]).start
  have houtput : (unixHost root).output d (.resolved (oneBlock "a" [97]) s)
      = some (⟨root, [], [utf8 "share", utf8 "a"]⟩, [97]) := output_oneBlock [98] hreach hfinal
  have hprefix : root <+: [utf8 "share", utf8 "a"] := ⟨[utf8 "a"], rfl⟩
  have hbefore : d.view [utf8 "share", utf8 "a"] = some (.file [98]) := rfl
  have hview : ∀ n, ((unixHost root).stopped d (.resolved (oneBlock "a" [97]) s) (n + 1)).view
      [utf8 "share", utf8 "a"] = some (.file (([97] : List UInt8).take n)) := by
    intro n
    obtain ⟨-, hfits⟩ := output_eq_some houtput
    rw [stopped_of_output houtput]
    exact (hfits.view_writing [97] n _).1 rfl
  use s, hreach
  constructor
  · intro hintact
    have hsame := hintact _ hprefix
    rw [hview, hbefore] at hsame
    cases hsame
  · intro hintact
    rcases hintact _ hprefix ⟨[98], Or.inl hbefore⟩ with hsame | ⟨bytes, hbytes, hwhole⟩
    · rw [hview, hbefore] at hsame
      cases hsame
    · obtain ⟨hassembled, -⟩ := output_eq_some houtput
      rw [hassembled] at hbytes
      rw [hview, ← Option.some.inj hbytes] at hwhole
      cases hwhole

end Node
