import ResourceDistribution.Data.Disk
import ResourceDistribution.Node.Serving

/-!
# The share directory in the file system

The functions of `local_files.rs` see a `FileSystem`: the entries of the share directory and the
contents of files. Here these are what a file system shows of itself (`Shows`). A scan finds the
files below the share directory, links not followed (`Shows.mem_files`, `Shows.exists_file`), and
reports the hash of the contents of each (`Shows.mem_fileHashes_iff`).
-/

namespace Node

universe u

variable {ν : Type u}

/-! ### What is shown -/

/-- The name of an entry. -/
def Entry.name : Entry → Option OsString
  | .file name | .dir name _ | .other name | .unreadableDir name | .unreadableMetadata name =>
      some name
  | .unreadableEntry => none

section Key

variable (key : OsString → ν) (d : Disk ν UInt8)

/-- The entries are all that a directory has. What the file system takes a name for is its key. -/
def Complete (dir : List ν) (entries : List Entry) : Prop :=
  ∀ name, d.kind (dir ++ [name]) ≠ none →
    ∃ entry ∈ entries, ∃ text, entry.name = some text ∧ key text = name

mutual

/-- An entry of a directory that can be read. -/
def ShowsEntry (dir : List ν) : Entry → Prop
  | .file name => ∃ i, d.kind (dir ++ [key name]) = some (.file i)
  | .dir name entries =>
      d.kind (dir ++ [key name]) = some .directory ∧
        Complete key d (dir ++ [key name]) entries ∧ ShowsEntries (dir ++ [key name]) entries
  | .other name =>
      (∃ absolute target, d.kind (dir ++ [key name]) = some (.link absolute target)) ∨
        d.kind (dir ++ [key name]) = some .special
  | .unreadableDir _ | .unreadableMetadata _ | .unreadableEntry => False

/-- Entries of a directory that can be read. -/
def ShowsEntries (dir : List ν) : List Entry → Prop
  | [] => True
  | entry :: rest => ShowsEntry dir entry ∧ ShowsEntries dir rest

end

/-- What the node sees of a file system whose share directory, links resolved, is at `root`: its
entries, in any order, and the contents of each file below it that can be read. -/
structure Shows (root : List ν) (fs : FileSystem) : Prop where
  root_eq : d.kind root = some .directory
  shareDir_eq : ∃ canonical entries, fs.shareDir = .directory canonical true entries ∧
    Complete key d root entries ∧ ShowsEntries key d root entries
  contents_eq : ∀ path i content, d.kind (root ++ path.map key) = some (.file i) →
    fs.contents (fs.fullPath path) = .ok content → content = d.data i

end Key

/-- Whether there is a file at a place. -/
def IsFile (d : Disk ν UInt8) (p : List ν) : Prop := ∃ i, d.kind p = some (.file i)

/-! ### The files that a scan finds -/

section Scan

variable {key : OsString → ν} {d : Disk ν UInt8} {root : List ν}

/-- What is no directory has nothing below it. -/
theorem isFile_cons_iff {p s : List ν} {name : ν} {k : Kind ν Nat}
    (hk : d.kind (p ++ [name]) = some k) (hne : k ≠ .directory) :
  IsFile d (p ++ name :: s) ↔ s = [] ∧ ∃ i, k = .file i
  := by
  rw [List.append_cons]
  constructor
  · rintro ⟨i, hi⟩
    cases s with
    | nil =>
        rw [List.append_nil, hk] at hi
        exact ⟨rfl, i, Option.some.inj hi⟩
    | cons name' s =>
        rw [Disk.kind_above hi] at hk
        cases hne (Option.some.inj hk).symm
  · rintro ⟨rfl, i, rfl⟩
    rw [List.append_nil]
    exact ⟨i, hk⟩

/-- A directory is no file. -/
theorem not_isFile_of_directory {p : List ν} (h : d.kind p = some .directory) :
  ¬ IsFile d p
  := by
  rintro ⟨i, hi⟩
  rw [h] at hi
  cases hi

/-- What leads to a file is there. -/
theorem kind_ne_none_of_isFile {p s : List ν} {name : ν} (h : IsFile d (p ++ name :: s)) :
  d.kind (p ++ [name]) ≠ none
  := by
  obtain ⟨i, hi⟩ := h
  cases s with
  | nil => simp [hi]
  | cons _ _ =>
      rw [List.append_cons] at hi
      simp [Disk.kind_above hi]

/-- The files that are in a directory or below it, under one of the names. Their paths begin with
the path of the directory. -/
structure FilesBelow (key : OsString → ν) (d : Disk ν UInt8) (root : List ν) (rel : List OsString)
    (names : ν → Prop) (files : List (List OsString)) : Prop where
  isFile : ∀ p ∈ files, IsFile d (root ++ p.map key)
  exists_file : ∀ name s, names name → IsFile d (root ++ rel.map key ++ name :: s) →
    ∃ p ∈ files, p.map key = rel.map key ++ name :: s

mutual

/-- What is collected from an entry. -/
theorem collectEntry_spec (text : OsString) {rel : List OsString} (entry : Entry)
    (h : ShowsEntry key d (root ++ rel.map key) entry) :
  ∃ files, collectEntry text rel entry = .ok files ∧
    FilesBelow key d root rel (fun name => ∃ text, entry.name = some text ∧ key text = name) files
  := by
  cases entry with
  | file name =>
      refine ⟨[rel ++ [name]], rfl, ?_, ?_⟩
      · intro p hp
        rw [List.mem_singleton.mp hp, List.map_append, ← List.append_assoc]
        exact h
      · rintro _ s ⟨text, hname, rfl⟩ hfile
        obtain rfl := Option.some.inj hname
        obtain ⟨i, hi⟩ := h
        obtain ⟨rfl, -⟩ := (isFile_cons_iff hi (by simp)).mp hfile
        exact ⟨rel ++ [name], List.mem_singleton.mpr rfl, List.map_append⟩
  | dir name entries =>
      obtain ⟨hdir, hcomplete, hentries⟩ := h
      have hplace : root ++ rel.map key ++ [key name] = root ++ (rel ++ [name]).map key := by
        rw [List.map_append, List.append_assoc]
        rfl
      rw [hplace] at hdir hcomplete hentries
      obtain ⟨files, hfiles, hbelow⟩ := collectEntries_spec text entries hentries
      refine ⟨files, hfiles, hbelow.isFile, ?_⟩
      rintro _ s ⟨text, hname, rfl⟩ hfile
      obtain rfl := Option.some.inj hname
      rw [List.append_cons, hplace] at hfile
      cases s with
      | nil =>
          rw [List.append_nil] at hfile
          cases not_isFile_of_directory hdir hfile
      | cons name' s =>
          have hname' := hcomplete name' (kind_ne_none_of_isFile hfile)
          obtain ⟨p, hp, heq⟩ := hbelow.exists_file name' s hname' hfile
          refine ⟨p, hp, ?_⟩
          rw [heq, List.map_append, List.append_cons (rel.map key)]
          rfl
  | other name =>
      refine ⟨[], rfl, by simp, ?_⟩
      rintro _ s ⟨text, hname, rfl⟩ hfile
      obtain rfl := Option.some.inj hname
      rcases h with ⟨absolute, target, hlink⟩ | hspecial
      · obtain ⟨-, i, hi⟩ := (isFile_cons_iff hlink (by simp)).mp hfile
        cases hi
      · obtain ⟨-, i, hi⟩ := (isFile_cons_iff hspecial (by simp)).mp hfile
        cases hi
  | _ => cases h

/-- What is collected from the entries of a directory. -/
theorem collectEntries_spec (text : OsString) {rel : List OsString} (entries : List Entry)
    (h : ShowsEntries key d (root ++ rel.map key) entries) :
  ∃ files, collectEntries text rel entries = .ok files ∧
    FilesBelow key d root rel
      (fun name => ∃ entry ∈ entries, ∃ text, entry.name = some text ∧ key text = name) files
  := by
  cases entries with
  | nil =>
      refine ⟨[], rfl, by simp, ?_⟩
      rintro name s ⟨entry, hentry, -⟩
      cases hentry
  | cons entry rest =>
      obtain ⟨files, hfiles, hbelow⟩ := collectEntry_spec text entry h.1
      obtain ⟨others, hothers, hbelow'⟩ := collectEntries_spec text rest h.2
      refine ⟨files ++ others, ?_, ?_, ?_⟩
      · rw [collectEntries, hfiles]
        change (collectEntries text rel rest >>= fun others => _) = _
        rw [hothers]
        rfl
      · intro p hp
        rcases List.mem_append.mp hp with hp | hp
        · apply hbelow.isFile p hp
        · apply hbelow'.isFile p hp
      · rintro name s ⟨entry', hentry', hname⟩ hfile
        rcases List.mem_cons.mp hentry' with rfl | hentry'
        · obtain ⟨p, hp, heq⟩ := hbelow.exists_file name s hname hfile
          exact ⟨p, List.mem_append_left _ hp, heq⟩
        · obtain ⟨p, hp, heq⟩ := hbelow'.exists_file name s ⟨entry', hentry', hname⟩ hfile
          exact ⟨p, List.mem_append_right _ hp, heq⟩

end

variable {fs : FileSystem}

/-- The files of a share directory. -/
theorem Shows.filesBelow (h : Shows key d root fs) :
  FilesBelow key d root [] (fun name => d.kind (root ++ [name]) ≠ none) fs.files
  := by
  obtain ⟨canonical, entries, hdir, hcomplete, hentries⟩ := h.shareDir_eq
  have hentries' : ShowsEntries key d (root ++ ([] : List OsString).map key) entries := by
    rw [List.map_nil, List.append_nil]
    exact hentries
  obtain ⟨files, hfiles, hbelow⟩ := collectEntries_spec canonical entries hentries'
  have hsorted : fs.files = Keyed.sortBy pathKey files := by
    rw [FileSystem.files, hdir]
    simp only [sortedFiles, collectFiles, if_true, hfiles]
    rfl
  rw [hsorted]
  constructor
  · intro p hp
    apply hbelow.isFile p ((Keyed.mem_sortBy _).mp hp)
  · intro name s hname hfile
    obtain ⟨p, hp, heq⟩ := hbelow.exists_file name s (hcomplete name hname) hfile
    exact ⟨p, (Keyed.mem_sortBy _).mpr hp, heq⟩

/-- What a scan finds is a file. -/
theorem Shows.isFile (h : Shows key d root fs) {path : List OsString} (hpath : path ∈ fs.files) :
  IsFile d (root ++ path.map key)
  := h.filesBelow.isFile path hpath

/-- A scan finds every file below the share directory. -/
theorem Shows.exists_file (h : Shows key d root fs) {s : List ν} (hfile : IsFile d (root ++ s)) :
  ∃ path ∈ fs.files, path.map key = s
  := by
  cases s with
  | nil =>
      rw [List.append_nil] at hfile
      cases not_isFile_of_directory h.root_eq hfile
  | cons name s =>
      apply h.filesBelow.exists_file name s (kind_ne_none_of_isFile hfile)
      rw [List.map_nil, List.append_nil]
      exact hfile

end Scan

section Sha256

variable [Sha256] {key : OsString → ν} {d : Disk ν UInt8} {root : List ν} {fs : FileSystem}

/-- The hashes of the files that a scan reports. -/
def ResourceIndex.fileHashes (index : ResourceIndex) : List String :=
  index.resources.map FileResource.fileHash

/-- A scan reports the hash of each file below the share directory, and no other. -/
theorem Shows.mem_fileHashes_iff (h : Shows key d root fs) {scanned : OsString} {blockSize : Nat}
    {index : ResourceIndex} (hscan : fs.scanShareDir scanned blockSize = .ok index)
    {hash : String} :
  hash ∈ index.fileHashes ↔
    ∃ s content, d.view (root ++ s) = some (.file content) ∧ Sha256.hex content = hash
  := by
  obtain ⟨hb, -, hread, hresources⟩ := scanShareDir_spec hscan
  have hhash : ∀ path, (fs.resourceAt blockSize path).fileHash
      = Sha256.hex (fs.contentAt path) := by
    intro path
    rw [FileSystem.resourceAt, fileHash_resourceOf hb]
  have hcontent : ∀ path ∈ fs.files, ∀ i, d.kind (root ++ path.map key) = some (.file i) →
      fs.contentAt path = d.data i := by
    intro path hpath i hi
    apply h.contents_eq path i _ hi (hread path hpath)
  rw [ResourceIndex.fileHashes, hresources, List.map_map, List.mem_map]
  constructor
  · rintro ⟨path, hpath, hresource⟩
    obtain ⟨i, hi⟩ := h.isFile hpath
    refine ⟨path.map key, d.data i, Disk.view_eq_some_file hi, ?_⟩
    rw [← hresource, Function.comp_apply, hhash, hcontent path hpath i hi]
  · rintro ⟨s, content, hview, rfl⟩
    obtain ⟨i, hi, rfl⟩ := Disk.view_eq_some_file_iff.mp hview
    obtain ⟨path, hpath, rfl⟩ := h.exists_file ⟨i, hi⟩
    refine ⟨path, hpath, ?_⟩
    rw [Function.comp_apply, hhash, hcontent path hpath i hi]

end Sha256

/-! ### A share directory with one file -/

section OneFile

open Disk

variable [DecidableEq ν]

/-- A directory with one file. -/
def oneFile (dir name : ν) (content : List UInt8) : Disk ν UInt8 where
  kind p :=
    if p = [] ∨ p = [dir] then some .directory
    else if p = [dir, name] then some (.file 0)
    else none
  data _ := content
  next := 1
  root_eq := by simp
  parent_eq := by
    intro p name' k hk
    cases p with
    | nil => simp
    | cons first rest =>
        cases rest with
        | nil =>
            have hfirst : first = dir := by
              by_contra hne
              simp [hne] at hk
            simp [hfirst]
        | cons _ _ => simp at hk
  inode_lt := by
    intro p i hi
    split at hi
    · simp at hi
    · simp at hi
      omega

theorem kind_oneFile_iff {dir name : ν} {content : List UInt8} {s : List ν} {k : Kind ν Nat} :
  (oneFile dir name content).kind ([dir] ++ s) = some k ↔
    (s = [] ∧ k = .directory) ∨ (s = [name] ∧ k = .file 0)
  := by
  cases s with
  | nil => simp [oneFile, eq_comm]
  | cons first rest =>
      simp only [oneFile, List.singleton_append, List.cons.injEq, reduceCtorEq, true_and, false_or,
        false_and]
      split <;> simp_all [eq_comm]

/-- The file that is written over is the only one. -/
theorem writes_oneFile_iff {dir name : ν} {content : List UInt8} {p : List ν} :
  (oneFile dir name content).Writes [dir, name] ([dir] ++ p) ↔ p = [name]
  := by
  have hplace : (oneFile dir name content).kind [dir, name] = some (.file 0) :=
    kind_oneFile_iff.mpr (Or.inr ⟨rfl, rfl⟩)
  rw [Writes, hplace]
  simp only [kind_oneFile_iff, reduceCtorEq, and_false, false_or, and_true]

theorem view_oneFile_iff {dir name : ν} {content content' : List UInt8}
    {p : List ν} :
  (oneFile dir name content).view ([dir] ++ p) = some (.file content') ↔
    p = [name] ∧ content' = content
  := by
  rw [view_eq_some_file_iff]
  constructor
  · rintro ⟨i, hi, rfl⟩
    rcases kind_oneFile_iff.mp hi with ⟨-, hdir⟩ | ⟨hp, -⟩
    · cases hdir
    · exact ⟨hp, rfl⟩
  · rintro ⟨rfl, rfl⟩
    exact ⟨0, kind_oneFile_iff.mpr (Or.inr ⟨rfl, rfl⟩), rfl⟩

end OneFile

/-- The file system of the share directory `/share` with one file shows it. -/
theorem shows_singleFile {d : Disk OsString UInt8} {name : String} {content content' : List UInt8}
    (hkind : d.kind = (oneFile (utf8 "share") (utf8 name) content').kind)
    (hdata : d.data 0 = content) :
  Shows id d [utf8 "share"] (singleFile name content)
  := by
  constructor
  · rw [hkind]
    apply kind_oneFile_iff.mpr (Or.inl ⟨rfl, rfl⟩)
  · refine ⟨_, _, rfl, ?_, ?_⟩
    · intro name' hname'
      obtain ⟨k, hk⟩ := Option.ne_none_iff_exists'.mp hname'
      rw [hkind, kind_oneFile_iff] at hk
      rcases hk with ⟨hnil, -⟩ | ⟨heq, -⟩
      · cases hnil
      · exact ⟨_, List.mem_singleton.mpr rfl, utf8 name, rfl, (List.cons.inj heq).1.symm⟩
    · refine ⟨⟨0, ?_⟩, trivial⟩
      rw [hkind]
      apply kind_oneFile_iff.mpr (Or.inr ⟨rfl, rfl⟩)
  · intro path i content'' hi hcontent
    rw [hkind, kind_oneFile_iff] at hi
    rcases hi with ⟨-, hdir⟩ | ⟨-, hfile⟩
    · cases hdir
    · obtain rfl := Kind.file.inj hfile
      rw [singleFile] at hcontent
      simp only at hcontent
      split at hcontent
      · rw [hdata, Except.ok.inj hcontent]
      · cases hcontent

end Node
