import ResourceDistribution.Node.Stops

/-!
# What a download writes over

A download writes its file over whatever the path of the file leads to. The hashes that a scan
reports before it are all reported after it, and that of the file too, exactly when what is written
over has this hash, or has contents that another file has, and the path leads to a place below the
share directory (`keepsShared_iff`).
-/

open Disk Tasks

namespace Node

universe u

variable {ν : Type u}

section Sha256

variable [Sha256]

/-- The hashes that were reported are still reported, and that of the downloaded file is reported
too. -/
structure KeepsShared (course : Course) (index index' : ResourceIndex) : Prop where
  kept : ∀ hash ∈ index.fileHashes, hash ∈ index'.fileHashes
  added : ∀ hash ∈ course.fileHash, hash ∈ index'.fileHashes

/-- What is written over when a file is written at a place: each shared file that is written has the
hash of the new file, or that of another shared file which is not written. -/
def NothingLost (d : Disk ν UInt8) (root place : List ν) (fileHash : Option String) : Prop :=
  ∀ p content, d.view (root ++ p) = some (.file content) → d.Writes place (root ++ p) →
    fileHash = some (Sha256.hex content) ∨
      ∃ q other, d.view (root ++ q) = some (.file other) ∧ ¬ d.Writes place (root ++ q) ∧
        Sha256.hex other = Sha256.hex content

/-- A file that is written at a place is shared: the place is below the share directory, or a shared
file has the hash already. -/
def BecomesShared (d : Disk ν UInt8) (root place : List ν) (fileHash : Option String) : Prop :=
  (∃ p, d.Writes place (root ++ p)) ∨
    ∃ p content, d.view (root ++ p) = some (.file content) ∧ fileHash = some (Sha256.hex content)

section DecidableEq

variable [DecidableEq ν] {host : Host ν} {d : Disk ν UInt8} {course : Course}

variable {t : Target ν} {bytes : List UInt8}

/-- If what was reported is still reported, then nothing is lost. -/
theorem nothingLost_of_kept (h : host.output d course = some (t, bytes)) {key : OsString → ν}
    {root : List ν} {fs fs' : FileSystem} (hbefore : Shows key d root fs)
    (hafter : Shows key (host.completed d course) root fs') {scanned : OsString} {blockSize : Nat}
    {index index' : ResourceIndex} (hscan : fs.scanShareDir scanned blockSize = .ok index)
    (hscan' : fs'.scanShareDir scanned blockSize = .ok index')
    (hkept : ∀ hash ∈ index.fileHashes, hash ∈ index'.fileHashes) :
  NothingLost d root t.place course.fileHash
  := by
  intro p content hview _
  obtain ⟨hassembled, -⟩ := output_eq_some h
  have hreported := (hbefore.mem_fileHashes_iff hscan).mpr ⟨p, content, hview, rfl⟩
  obtain ⟨q, other, hview', hsame⟩ :=
    (hafter.mem_fileHashes_iff hscan').mp (hkept _ hreported)
  rcases (view_completed_iff h).mp hview' with ⟨-, rfl⟩ | ⟨hq, hother⟩
  · left
    rw [fileHash_of_assembled hassembled, hsame]
  · right
    exact ⟨q, other, hother, hq, hsame⟩

/-- A download keeps what is shared, and adds its file, exactly when nothing is lost by what it
writes over and the file is written where a scan finds it. -/
theorem keepsShared_iff (h : host.output d course = some (t, bytes)) {key : OsString → ν}
    {root : List ν} {fs fs' : FileSystem} (hbefore : Shows key d root fs)
    (hafter : Shows key (host.completed d course) root fs') {scanned : OsString} {blockSize : Nat}
    {index index' : ResourceIndex} (hscan : fs.scanShareDir scanned blockSize = .ok index)
    (hscan' : fs'.scanShareDir scanned blockSize = .ok index') :
  KeepsShared course index index' ↔
    NothingLost d root t.place course.fileHash ∧ BecomesShared d root t.place course.fileHash
  := by
  obtain ⟨hassembled, -⟩ := output_eq_some h
  have hhash := fileHash_of_assembled hassembled
  have hnew : ∀ p, d.Writes t.place (root ++ p) → Sha256.hex bytes ∈ index'.fileHashes := by
    intro p hp
    apply (hafter.mem_fileHashes_iff hscan').mpr
    exact ⟨p, bytes, (view_completed_iff h).mpr (Or.inl ⟨hp, rfl⟩), rfl⟩
  have hold : ∀ p content, d.view (root ++ p) = some (.file content) →
      ¬ d.Writes t.place (root ++ p) → Sha256.hex content ∈ index'.fileHashes := by
    intro p content hview hp
    apply (hafter.mem_fileHashes_iff hscan').mpr
    exact ⟨p, content, (view_completed_iff h).mpr (Or.inr ⟨hp, hview⟩), rfl⟩
  constructor
  · intro hkeeps
    constructor
    · apply nothingLost_of_kept h hbefore hafter hscan hscan' hkeeps.kept
    · have hadded := hkeeps.added _ hhash
      obtain ⟨q, other, hview', hsame⟩ := (hafter.mem_fileHashes_iff hscan').mp hadded
      rcases (view_completed_iff h).mp hview' with ⟨hq, -⟩ | ⟨-, hother⟩
      · left
        exact ⟨q, hq⟩
      · right
        exact ⟨q, other, hother, by rw [hhash, hsame]⟩
  · rintro ⟨hlost, hshared⟩
    have hkept : ∀ hash ∈ index.fileHashes, hash ∈ index'.fileHashes := by
      intro hash hreported
      obtain ⟨p, content, hview, rfl⟩ := (hbefore.mem_fileHashes_iff hscan).mp hreported
      by_cases hp : d.Writes t.place (root ++ p)
      · rcases hlost p content hview hp with hsame | ⟨q, other, hother, hq, hsame⟩
        · rw [hhash] at hsame
          rw [← Option.some.inj hsame]
          apply hnew p hp
        · rw [← hsame]
          apply hold q other hother hq
      · apply hold p content hview hp
    use hkept
    intro hash hadded
    obtain rfl : Sha256.hex bytes = hash := by
      rw [hhash] at hadded
      apply Option.some.inj hadded
    rcases hshared with ⟨p, hp⟩ | ⟨p, content, hview, hsame⟩
    · apply hnew p hp
    · apply hkept
      rw [hhash] at hsame
      rw [Option.some.inj hsame]
      exact (hbefore.mem_fileHashes_iff hscan).mpr ⟨p, content, hview, rfl⟩

end DecidableEq

/-! ### A file of the same name -/

/-- What the node sees after the download of a file of one block over the only file it shares. -/
theorem shows_completed {content bytes : List UInt8} {s : DownloadState}
    (h : (unixHost [utf8 "share"]).output (oneFile (utf8 "share") (utf8 "a") content)
      (.resolved (oneBlock "a" bytes) s)
        = some (⟨[utf8 "share"], [], [utf8 "share", utf8 "a"]⟩, bytes)) :
  Shows id ((unixHost [utf8 "share"]).completed (oneFile (utf8 "share") (utf8 "a") content)
    (.resolved (oneBlock "a" bytes) s)) [utf8 "share"] (singleFile "a" bytes)
  := by
  have hfile : (oneFile (utf8 "share") (utf8 "a") content).kind [utf8 "share", utf8 "a"]
      = some (.file 0) := kind_oneFile_iff.mpr (Or.inr ⟨rfl, rfl⟩)
  obtain ⟨hkind, hdata⟩ := write_of_file hfile bytes
  have hwrite : (unixHost [utf8 "share"]).completed (oneFile (utf8 "share") (utf8 "a") content)
      (.resolved (oneBlock "a" bytes) s)
        = (oneFile (utf8 "share") (utf8 "a") content).write [utf8 "share", utf8 "a"] bytes := by
    rw [Host.completed, stopped_of_output h, length_calls h]
    simp [Disk.Stage.after, Disk.Stage.disk, mkdirs]
  rw [hwrite]
  apply shows_singleFile hkind
  rw [hdata, Function.update_self]

/-- What is written over in the only file is no loss exactly when it is the same. -/
theorem nothingLost_oneFile_iff {content bytes : List UInt8} {s : DownloadState} :
  NothingLost (oneFile (utf8 "share") (utf8 "a") content) [utf8 "share"] [utf8 "share", utf8 "a"]
      (Course.resolved (oneBlock "a" bytes) s).fileHash ↔
    Sha256.hex bytes = Sha256.hex content
  := by
  constructor
  · intro h
    have hview : (oneFile (utf8 "share") (utf8 "a") content).view ([utf8 "share"] ++ [utf8 "a"])
        = some (.file content) := view_oneFile_iff.mpr ⟨rfl, rfl⟩
    rcases h _ _ hview (writes_oneFile_iff.mpr rfl) with hsame | ⟨q, other, hother, hq, -⟩
    · apply Option.some.inj hsame
    · rw [writes_oneFile_iff] at hq
      exact absurd (view_oneFile_iff.mp hother).1 hq
  · intro hsame p content' hview _
    left
    rw [(view_oneFile_iff.mp hview).2]
    apply congrArg some hsame

end Sha256

/-- A download of the contents that are there already. -/
theorem keepsShared_oneFile :
  let _ := Sha256.short
  ∃ s index index', Reachable (oneBlock "a" [97]).pool (oneBlock "a" [97]).start s ∧
    (singleFile "a" [97]).scanShareDir (utf8 "/share") 512 = .ok index ∧
    (singleFile "a" [97]).scanShareDir (utf8 "/share") 512 = .ok index' ∧
    KeepsShared (.resolved (oneBlock "a" [97]) s) index index'
  := by
  intro _
  obtain ⟨s, hreach, hfinal⟩ := exists_final (oneBlock "a" [97]).pool (oneBlock "a" [97]).start
  have hscan : (singleFile "a" [97]).scanShareDir (utf8 "/share") 512
      = .ok ⟨[resourceOf linuxReads 512 [utf8 "a"] [97]]⟩ := rfl
  have houtput := output_oneBlock [97] hreach hfinal
  refine ⟨s, _, _, hreach, hscan, hscan, ?_⟩
  apply (keepsShared_iff houtput (shows_singleFile rfl rfl) (shows_completed houtput)
    hscan hscan).mpr
  constructor
  · apply nothingLost_oneFile_iff.mpr rfl
  · left
    exact ⟨[utf8 "a"], writes_oneFile_iff.mpr rfl⟩

/-- The download of a file with the name of one that the node shares. The contents of that one are
shared no more. -/
theorem not_keepsShared_oneFile :
  let _ := Sha256.short
  let root := [utf8 "share"]
  let d := oneFile (utf8 "share") (utf8 "a") [98]
  ∃ s index index', Reachable (oneBlock "a" [97]).pool (oneBlock "a" [97]).start s ∧
    Shows id d root (singleFile "a" [98]) ∧
    Shows id ((unixHost root).completed d (.resolved (oneBlock "a" [97]) s)) root
      (singleFile "a" [97]) ∧
    (singleFile "a" [98]).scanShareDir (utf8 "/share") 512 = .ok index ∧
    (singleFile "a" [97]).scanShareDir (utf8 "/share") 512 = .ok index' ∧
    ¬ KeepsShared (.resolved (oneBlock "a" [97]) s) index index'
  := by
  intro _ root d
  obtain ⟨s, hreach, hfinal⟩ := exists_final (oneBlock "a" [97]).pool (oneBlock "a" [97]).start
  have hscan : (singleFile "a" [98]).scanShareDir (utf8 "/share") 512
      = .ok ⟨[resourceOf linuxReads 512 [utf8 "a"] [98]]⟩ := rfl
  have hscan' : (singleFile "a" [97]).scanShareDir (utf8 "/share") 512
      = .ok ⟨[resourceOf linuxReads 512 [utf8 "a"] [97]]⟩ := rfl
  have houtput := output_oneBlock [98] hreach hfinal
  have hbefore : Shows id d root (singleFile "a" [98]) := shows_singleFile rfl rfl
  have hafter := shows_completed houtput
  refine ⟨s, _, _, hreach, hbefore, hafter, hscan, hscan', ?_⟩
  intro hkeeps
  have hlost := nothingLost_of_kept houtput hbefore hafter hscan hscan' hkeeps.kept
  exact absurd (nothingLost_oneFile_iff.mp hlost) (by decide)

end Node
