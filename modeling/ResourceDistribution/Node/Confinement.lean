import ResourceDistribution.Node.OutputPath

/-!
# What a download writes

Whatever the tracker and the peers answer, a download writes only bytes with the hash of the file,
and only to the share directory followed by the normal components of the file's name, unless, on
Windows, one of them begins with a drive (`confined_iff`). If something is wrong with the blocks, the
hash or the name, it does not touch the file system.
-/

open Tasks

namespace Node

/-- A change of the file system: the missing directories that lead to a path are created, or a file
is written. -/
inductive Effect where
  | createParent (path : OutputPath)
  | write (path : OutputPath) (bytes : List UInt8)
  deriving DecidableEq

/-- The indexes are `0, 1, 2, …`, in some order. -/
def Contiguous (indexes : List Nat) : Prop := indexes.Perm (List.range indexes.length)

/-- The bytes of some blocks, in the order of their indexes. -/
def bytesOf (blocks : List BlockData) : List UInt8 :=
  (Keyed.sortBy Prod.fst blocks).flatMap Prod.snd

section Sha256

variable [Sha256]

/-- What `download` does to the file system once `download_blocks` has returned, in order. It stops
when something fails. -/
def Job.effects (platform : Platform) (job : Job) (s : DownloadState) : List Effect :=
  match job.assembled s with
  | some (.ok bytes) =>
      match safeOutputPath platform job.location.fileName with
      | .ok path => [.createParent path, .write path bytes]
      | .error _ => []
  | _ => []

/-- What is written has the hash of the file and stands at the share directory or below it, and
nothing is written or created if the blocks, the hash or the name are wrong. -/
def Confined (platform : Platform) (job : Job) : Prop :=
  ∀ s, Reachable job.pool job.start s → ∀ done, done <+: job.effects platform s →
    (∀ path bytes, .write path bytes ∈ done →
      Sha256.hex bytes = job.location.fileHash ∧
        path = ⟨.shareDir, normals (platform.components job.location.fileName.toList)⟩ ∧
        ∀ part ∈ path.parts, platform.IsNormal part) ∧
    (¬ Contiguous job.location.availableBlocks ∨
        (∃ blocks, s.returned = some (.ok blocks) ∧
          Sha256.hex (bytesOf blocks) ≠ job.location.fileHash) ∨
        (∃ component ∈ platform.components job.location.fileName.toList,
          component.isUnsafe = true) →
      done = [])

/-- What is known of a download that has something to write. -/
theorem effects_cases (platform : Platform) {job : Job} {s : DownloadState}
    (hreach : Reachable job.pool job.start s) :
  job.effects platform s = [] ∨
    ∃ blocks path, job.effects platform s = [.createParent path, .write path (bytesOf blocks)] ∧
      s.returned = some (.ok blocks) ∧ Contiguous job.location.availableBlocks ∧
      Sha256.hex (bytesOf blocks) = job.location.fileHash ∧
      safeOutputPath platform job.location.fileName = .ok path
  := by
  rw [Job.effects]
  split
  · rename_i bytes hbytes
    split
    · rename_i path hpath
      right
      obtain ⟨r, hr, hassemble⟩ := Option.map_eq_some_iff.mp hbytes
      obtain ⟨blocks, rfl, hassemble⟩ := Fallible.bind_eq_ok.mp hassemble
      obtain ⟨hjoin, hhash⟩ := assemble_eq_ok_iff.mp hassemble
      obtain ⟨hindexes, rfl⟩ := joinBlocks_eq_ok_iff.mp hjoin
      have havailable := map_fst_of_returned hreach hr
      refine ⟨blocks, path, rfl, hr, ?_, hhash, hpath⟩
      rw [Contiguous, ← havailable, List.length_map, ← hindexes]
      exact ((Keyed.sortBy_perm Prod.fst blocks).map Prod.fst).symm
    · left
      rfl
  · left
    rfl

/-- A download is confined if its name is refused or leads nowhere but below the share directory. -/
theorem confined_of_name {platform : Platform} {job : Job}
    (h : (∃ component ∈ platform.components job.location.fileName.toList,
        component.isUnsafe = true) ∨
      ∀ part ∈ normals (platform.components job.location.fileName.toList),
        platform.splitDrive part = none) :
  Confined platform job
  := by
  intro s hreach done hdone
  rcases effects_cases platform hreach with
    hnone | ⟨blocks, path, heffects, hreturned, hcontiguous, hhash, hpath⟩
  · rw [hnone, List.prefix_nil] at hdone
    subst hdone
    simp
  · obtain ⟨hsafe, hpushed⟩ := safeOutputPath_eq_ok_iff.mp hpath
    constructor
    · intro path' bytes hwrite
      have hmem := hdone.subset hwrite
      rw [heffects] at hmem
      obtain ⟨rfl, rfl⟩ : path' = path ∧ bytes = bytesOf blocks := by simpa using hmem
      have hbelow : path'
          = ⟨.shareDir, normals (platform.components job.location.fileName.toList)⟩ := by
        rcases h with ⟨component, hmem, hunsafe⟩ | hdrive
        · rw [hsafe component hmem] at hunsafe
          simp at hunsafe
        · rw [hpushed, ← List.nil_append (normals _)]
          exact foldl_push_eq_iff.mpr hdrive
      use hhash, hbelow
      intro part hpart
      rw [hbelow] at hpart
      apply Platform.isNormal_of_mem_components (mem_normals.mp hpart)
    · rintro (hgap | ⟨blocks', hreturned', hdiffers⟩ | ⟨component, hmem, hunsafe⟩)
      · exact absurd hcontiguous hgap
      · rw [hreturned] at hreturned'
        obtain rfl := Except.ok.inj (Option.some.inj hreturned')
        exact absurd hhash hdiffers
      · rw [hsafe component hmem] at hunsafe
        simp at hunsafe

/-! ### A file of one block -/

/-- The download of a file of one block from one peer, which serves it. -/
def oneBlock (fileName : String) (bytes : List UInt8) : Job where
  location := {
    fileHash := Sha256.hex bytes
    fileName := fileName
    fileSize := none
    blockSize := none
    peers := [⟨"peer", "127.0.0.1", 9000, "", "", [⟨0, Sha256.hex bytes, bytes.length⟩]⟩]
    availableBlocks := [0] }
  selfNodeId := "self"
  replies _ _ := .body bytes

/-- It is assembled. -/
theorem oneBlock_assembled {fileName : String} {bytes : List UInt8} {s : DownloadState}
    (hreach : Reachable (oneBlock fileName bytes).pool (oneBlock fileName bytes).start s)
    (hfinal : Final (oneBlock fileName bytes).pool s) :
  (oneBlock fileName bytes).assembled s = some (.ok bytes)
  := by
  have houtcome : (oneBlock fileName bytes).outcome 0 (.trying 0 none)
      = some (.ok (0, bytes)) := by
    have hcandidates : (oneBlock fileName bytes).candidates 0
        = (oneBlock fileName bytes).location.peers := rfl
    rw [Job.outcome, hcandidates]
    simp [oneBlock, tryCandidates, fetchBlock, expectedHash, Job.blockOf]
  have hcollect : collect ((oneBlock fileName bytes).pool.outcomes (oneBlock fileName bytes).tasks)
      = some (.ok [(0, bytes)]) := by
    rw [collect_eq_some_ok_iff]
    exact congrArg ([·]) houtcome
  have hassemble : assemble (oneBlock fileName bytes).location [(0, bytes)] = .ok bytes := by
    apply assemble_eq_ok_iff.mpr ⟨_, rfl⟩
    rw [joinBlocks_eq_ok_iff]
    exact ⟨rfl, (List.append_nil bytes).symm⟩
  have hstart : (oneBlock fileName bytes).start
      = .start (oneBlock fileName bytes).tasks ⟨0, [0]⟩ := rfl
  rw [hstart] at hreach
  rw [Job.assembled, returned_eq_collect hreach hfinal, hcollect]
  exact congrArg some hassemble

/-- Where it is written, if its name is not refused, no component begins with a drive. -/
theorem splitDrive_of_confined {platform : Platform} {fileName : String} {bytes : List UInt8}
    (h : Confined platform (oneBlock fileName bytes))
    (hsafe : ∀ component ∈ platform.components fileName.toList, component.isUnsafe = false) :
  ∀ part ∈ normals (platform.components fileName.toList), platform.splitDrive part = none
  := by
  obtain ⟨s, hreach, hfinal⟩ := exists_final (oneBlock fileName bytes).pool
    (oneBlock fileName bytes).start
  obtain ⟨path, hpath⟩ : ∃ path, safeOutputPath platform fileName = .ok path :=
    ⟨_, safeOutputPath_eq_ok_iff.mpr ⟨hsafe, rfl⟩⟩
  have heffects : (oneBlock fileName bytes).effects platform s
      = [.createParent path, .write path bytes] := by
    rw [Job.effects, oneBlock_assembled hreach hfinal]
    simp only
    rw [show (oneBlock fileName bytes).location.fileName = fileName from rfl, hpath]
  have hwrite : .write path bytes ∈ (oneBlock fileName bytes).effects platform s := by
    rw [heffects]
    exact List.mem_cons_of_mem _ List.mem_cons_self
  obtain ⟨-, hbelow, -⟩ := (h s hreach _ (List.prefix_refl _)).1 path bytes hwrite
  rw [(safeOutputPath_eq_ok_iff.mp hpath).2] at hbelow
  exact foldl_push_eq_iff.mp hbelow

/-- For a name, all downloads are confined exactly when the system is a Unix system, or the name is
refused, or no normal component of it begins with a drive. -/
theorem confined_iff (platform : Platform) (fileName : String) :
  (∀ job : Job, job.location.fileName = fileName → Confined platform job) ↔
    platform = .unix ∨
      (∃ component ∈ platform.components fileName.toList, component.isUnsafe = true) ∨
      ∀ part ∈ normals (platform.components fileName.toList), platform.splitDrive part = none
  := by
  constructor
  · intro hall
    by_cases hsafe : ∀ component ∈ platform.components fileName.toList, component.isUnsafe = false
    · right; right
      exact splitDrive_of_confined (hall (oneBlock fileName []) rfl) hsafe
    · right; left
      simpa using hsafe
  · rintro hname job rfl
    apply confined_of_name
    rcases hname with rfl | hname
    · right
      intro part _
      apply splitDrive_unix
    · exact hname

end Sha256

/-- On Windows, the file `x/C:evil` is written to the drive `C`. -/
theorem not_confined_oneBlock :
  let _ := Sha256.short
  ¬ Confined .windows (oneBlock "x/C:evil" [97])
  := by
  intro _ h
  have hnone := splitDrive_of_confined h (by decide) "C:evil".toList (by decide)
  exact absurd hnone (by decide)

end Node
