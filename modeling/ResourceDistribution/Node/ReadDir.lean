import ResourceDistribution.Node.PeerServer

/-!
# The order of directory entries

`fs::read_dir` gives the entries of a directory in some order, and not always in the same one.
Whatever the order is, on every level of the share directory, a scan finds the same index or fails
either way, and the peer server gives the same replies (`scan_reordered`). Only the text of an error
tells which entry came first.
-/

namespace Node

/-- The same entries of a directory in another order, and so on within its directories. -/
inductive Reordered : List Entry → List Entry → Prop where
  | nil : Reordered [] []
  | cons (entry : Entry) {rest rest' : List Entry} (hrest : Reordered rest rest') :
      Reordered (entry :: rest) (entry :: rest')
  | inside (name : OsString) {entries entries' : List Entry} (hentries : Reordered entries entries')
      (rest : List Entry) : Reordered (.dir name entries :: rest) (.dir name entries' :: rest)
  | swap (a b : Entry) (rest : List Entry) : Reordered (a :: b :: rest) (b :: a :: rest)
  | trans {l l' l'' : List Entry} (h : Reordered l l') (h' : Reordered l' l'') : Reordered l l''

theorem Reordered.symm {l l' : List Entry} (h : Reordered l l') :
  Reordered l' l
  := by
  induction h with
  | nil => exact .nil
  | cons entry _ ih => exact .cons entry ih
  | inside name _ rest ih => exact .inside name ih rest
  | swap a b rest => exact .swap b a rest
  | trans _ _ ih ih' => exact ih'.trans ih

/-- What `collect_files_inner` collects of a first entry and of the others. -/
theorem collectEntries_cons_eq_ok {root : OsString} {dir : List OsString} {entry : Entry}
    {rest : List Entry} {files : List (List OsString)} :
  collectEntries root dir (entry :: rest) = .ok files ↔
    ∃ first others, collectEntry root dir entry = .ok first ∧
      collectEntries root dir rest = .ok others ∧ files = first ++ others
  := by
  rw [collectEntries]
  constructor
  · intro h
    obtain ⟨first, hfirst, h⟩ := Fallible.bind_eq_ok.mp h
    obtain ⟨others, hothers, h⟩ := Fallible.bind_eq_ok.mp h
    exact ⟨first, others, hfirst, hothers, (Except.ok.inj h).symm⟩
  · rintro ⟨first, others, hfirst, hothers, rfl⟩
    rw [hfirst]
    show (collectEntries root dir rest >>= _) = _
    rw [hothers]
    rfl

/-- The same files are collected in whatever order the entries are. -/
theorem Reordered.collectEntries {l l' : List Entry} (h : Reordered l l') {root : OsString}
    {dir : List OsString} {files : List (List OsString)}
    (hfiles : Node.collectEntries root dir l = .ok files) :
  ∃ files', Node.collectEntries root dir l' = .ok files' ∧ files.Perm files'
  := by
  induction h generalizing dir files with
  | nil => exact ⟨files, hfiles, .refl files⟩
  | cons entry _ ih =>
      obtain ⟨first, others, hfirst, hothers, rfl⟩ := collectEntries_cons_eq_ok.mp hfiles
      obtain ⟨others', hothers', hperm⟩ := ih hothers
      use first ++ others', collectEntries_cons_eq_ok.mpr ⟨first, others', hfirst, hothers', rfl⟩
      apply hperm.append_left
  | inside name _ rest ih =>
      obtain ⟨first, others, hfirst, hothers, rfl⟩ := collectEntries_cons_eq_ok.mp hfiles
      rw [collectEntry] at hfirst
      obtain ⟨first', hfirst', hperm⟩ := ih hfirst
      use first' ++ others
      constructor
      · apply collectEntries_cons_eq_ok.mpr
        use first', others
        rw [collectEntry]
        exact ⟨hfirst', hothers, rfl⟩
      · apply hperm.append_right
  | swap a b rest =>
      obtain ⟨first, _, hfirst, htail, rfl⟩ := collectEntries_cons_eq_ok.mp hfiles
      obtain ⟨second, others, hsecond, hothers, rfl⟩ := collectEntries_cons_eq_ok.mp htail
      use second ++ (first ++ others)
      constructor
      · apply collectEntries_cons_eq_ok.mpr
        use second, first ++ others, hsecond
        refine ⟨?_, rfl⟩
        apply collectEntries_cons_eq_ok.mpr ⟨first, others, hfirst, hothers, rfl⟩
      · apply List.perm_append_comm_assoc
  | trans _ _ ih ih' =>
      obtain ⟨files', hfiles', hperm⟩ := ih hfiles
      obtain ⟨files'', hfiles'', hperm'⟩ := ih' hfiles'
      exact ⟨files'', hfiles'', hperm.trans hperm'⟩

theorem pathKey_injective :
  Function.Injective pathKey
  := by
  apply List.map_injective_iff.mpr
  apply List.map_injective_iff.mpr
  intro a b h
  exact UInt8.toNat_inj.mp h

/-- Paths are sorted in one way only. -/
theorem sortBy_pathKey_congr {files files' : List (List OsString)} (h : files.Perm files') :
  Keyed.sortBy pathKey files = Keyed.sortBy pathKey files'
  := by
  apply List.map_injective_iff.mpr pathKey_injective
  apply Keyed.map_sortBy_congr pathKey h

/-- What succeeds with the same values is the same but for the errors. -/
theorem toOption_eq_of_forall {ε α : Type} {x y : Except ε α} (h : ∀ a, x = .ok a ↔ y = .ok a) :
  x.toOption = y.toOption
  := by
  apply Option.ext
  intro a
  rw [Fallible.toOption_eq_some, Fallible.toOption_eq_some, h a]

/-- A share directory in which `fs::read_dir` gives these entries. -/
def FileSystem.listed (fs : FileSystem) (canonical : OsString) (readable : Bool)
    (entries : List Entry) : FileSystem :=
  { fs with shareDir := .directory canonical readable entries }

section Sha256

variable [Sha256] {fs : FileSystem} {canonical : OsString} {readable : Bool}
  {entries entries' : List Entry}

omit [Sha256] in
/-- The files are in the same order in whatever order the entries are. -/
theorem Reordered.sortedFiles (h : Reordered entries entries') {root : OsString}
    {files : List (List OsString)} (hfiles : Node.sortedFiles root readable entries = .ok files) :
  Node.sortedFiles root readable entries' = .ok files
  := by
  obtain ⟨collected, hcollected, rfl⟩ := Fallible.map_eq_ok.mp hfiles
  rw [collectFiles] at hcollected
  split at hcollected
  · rename_i hreadable
    obtain ⟨collected', hcollected', hperm⟩ := h.collectEntries hcollected
    rw [Node.sortedFiles, collectFiles, if_pos hreadable, hcollected', sortBy_pathKey_congr hperm]
    rfl
  · cases hcollected

/-- The index is the same. -/
theorem Reordered.scanShareDir (h : Reordered entries entries') {root : OsString} {blockSize : Nat}
    {index : ResourceIndex}
    (hscan : (fs.listed canonical readable entries).scanShareDir root blockSize = .ok index) :
  (fs.listed canonical readable entries').scanShareDir root blockSize = .ok index
  := by
  unfold FileSystem.scanShareDir at hscan ⊢
  split at hscan
  · cases hscan
  · rename_i hb
    rw [if_neg hb]
    obtain ⟨files, hfiles, hresources⟩ := Fallible.bind_eq_ok.mp hscan
    apply Fallible.bind_eq_ok.mpr ⟨files, h.sortedFiles hfiles, hresources⟩

/-- A block that is read is the same, and so is that there is none. -/
theorem Reordered.readBlockByHash (h : Reordered entries entries') {blockSize blockIndex : Nat}
    {fileHash : String} {block? : Option LocalBlockData}
    (hread : (fs.listed canonical readable entries).readBlockByHash blockSize fileHash blockIndex
      = .ok block?) :
  (fs.listed canonical readable entries').readBlockByHash blockSize fileHash blockIndex = .ok block?
  := by
  obtain ⟨index, hscan, hblock⟩ := Fallible.bind_eq_ok.mp hread
  apply Fallible.bind_eq_ok.mpr ⟨index, h.scanShareDir hscan, hblock⟩

/-- In whatever order the entries of directories are read, on any level, a scan finds the same index
or fails, and the peer server gives the same answers, except that of two errors only the status is
the same. -/
theorem scan_reordered (h : Reordered entries entries') (fs : FileSystem) (canonical : OsString)
    (readable : Bool) (blockSize : Nat) :
  (∀ root, ((fs.listed canonical readable entries).scanShareDir root blockSize).toOption
    = ((fs.listed canonical readable entries').scanShareDir root blockSize).toOption) ∧
  ∀ fileHash blockIndex,
    let response := (PeerServerState.mk (fs.listed canonical readable entries) blockSize).getBlock
      fileHash blockIndex
    let response' := (PeerServerState.mk (fs.listed canonical readable entries') blockSize).getBlock
      fileHash blockIndex
    response = response' ∨ (response.status = 500 ∧ response'.status = 500)
  := by
  constructor
  · intro root
    apply toOption_eq_of_forall
    intro index
    constructor
    · intro hscan
      apply h.scanShareDir hscan
    · intro hscan
      apply h.symm.scanShareDir hscan
  · intro fileHash blockIndex response response'
    cases hread : (fs.listed canonical readable entries).readBlockByHash blockSize fileHash
        blockIndex with
    | ok block? =>
        left
        show PeerServerState.getBlock _ _ _ = PeerServerState.getBlock _ _ _
        rw [PeerServerState.getBlock, PeerServerState.getBlock, hread, h.readBlockByHash hread]
    | error e =>
        right
        cases hread' : (fs.listed canonical readable entries').readBlockByHash blockSize fileHash
            blockIndex with
        | ok block? =>
            rw [h.symm.readBlockByHash hread'] at hread
            cases hread
        | error e' =>
            constructor
            · show (PeerServerState.getBlock _ _ _).status = 500
              rw [PeerServerState.getBlock, hread]
              rfl
            · show (PeerServerState.getBlock _ _ _).status = 500
              rw [PeerServerState.getBlock, hread']
              rfl

end Sha256

/-- A share directory with a directory of two files and a file. -/
def nestedFiles (entries : List Entry) : FileSystem :=
  FileSystem.listed ⟨utf8 "/share", .missing, fun _ => .ok [97], fun _ => linuxReads⟩ (utf8 "/share")
    true entries

/-- It is scanned in two orders. -/
theorem scan_reordered_nestedFiles :
  let _ := Sha256.short
  ((nestedFiles
      [.dir (utf8 "d") [.file (utf8 "a"), .file (utf8 "b")], .file (utf8 "c")]).scanShareDir
      (utf8 "/share") 512).toOption
    = ((nestedFiles
        [.file (utf8 "c"), .dir (utf8 "d") [.file (utf8 "b"), .file (utf8 "a")]]).scanShareDir
        (utf8 "/share") 512).toOption
  := by
  intro _
  apply (scan_reordered ((Reordered.inside _ (.swap _ _ _) _).trans (.swap _ _ _)) _ _ true 512).1

end Node
