import ResourceDistribution.Data.Dict
import ResourceDistribution.Node.Overwrite
import ResourceDistribution.Node.UnixPath

/-!
# Names of files on the way through the network

A file is published under its path below the share directory, as a string in which backslashes are
separators. On a Unix system this name is no other file's, leads back to the file, is accepted by
the nodes that download it and is the name under which these publish it again exactly when all
names on the path are UTF-8 and have no backslash (`roundTrips_iff`).
-/

open Disk Tasks

namespace Node

/-! ### Trees of regular files -/

/-- A Unix file system. -/
abbrev UnixDisk := Disk OsString UInt8

/-- A directory below which there are only directories and regular files. -/
structure RegularTree (d : UnixDisk) (root : List OsString) : Prop where
  root_eq : d.kind root = some .directory
  regular : ∀ s k, d.kind (root ++ s) = some k → k = .directory ∨ ∃ i, k = .file i

/-- What a node sees of a Unix file system. -/
structure UnixShows (d : UnixDisk) (root : List OsString) (fs : FileSystem) : Prop
    extends Shows id d root fs where
  isName : ∀ p name k, d.kind (p ++ [name]) = some k → IsName name
  fsRoot_eq : fs.root = pathTo root

variable {d : UnixDisk} {root : List OsString} {fs : FileSystem}

/-- There is no link on a path that goes through the share directory. -/
theorem RegularTree.not_link (h : RegularTree d root) {s t : List OsString}
    (ht : t <+: root ++ s) (absolute : Bool) (target : List (Seg OsString)) :
  d.kind t ≠ some (.link absolute target)
  := by
  intro hlink
  rcases List.prefix_or_prefix_of_prefix ht (List.prefix_append root s) with habove | hbelow
  · by_cases heq : t = root
    · rw [heq, h.root_eq] at hlink
      cases hlink
    · have hroot := h.root_eq
      rw [← List.nil_append root] at hroot
      have hdir := kind_of_prefix_ne hroot habove heq
      rw [List.nil_append, hlink] at hdir
      cases hdir
  · obtain ⟨rest, rfl⟩ := hbelow
    rcases h.regular rest _ hlink with hdir | ⟨i, hi⟩
    · cases hdir
    · cases hi

/-- What is somewhere has a path of names. -/
theorem UnixShows.isName_of_mem (h : UnixShows d root fs) {p : List OsString}
    {k : Kind OsString Nat} (hp : d.kind p = some k) :
  ∀ name ∈ p, IsName name
  := by
  intro name hname
  obtain ⟨front, rest, rfl⟩ := List.append_of_mem hname
  cases rest with
  | nil => apply h.isName front name k hp
  | cons name' rest =>
      rw [List.append_cons] at hp
      apply h.isName front name _ (kind_above hp)

/-- The path of a file below the share directory is made of names. -/
theorem UnixShows.isName_of_mem_files (h : UnixShows d root fs) {path : List OsString}
    (hpath : path ∈ fs.files) :
  (∀ name ∈ root, IsName name) ∧ ∀ name ∈ path, IsName name
  := by
  obtain ⟨i, hi⟩ := h.isFile hpath
  rw [List.map_id] at hi
  rw [← List.forall_mem_append]
  apply h.isName_of_mem hi

/-! ### Plain names -/

/-- All names on a path are UTF-8 and have no backslash. -/
def Plain (path : List OsString) : Prop :=
  ∀ name ∈ path, ∃ s : String, name = utf8 s ∧ Char.ofNat 0x5C ∉ s.toList

/-- The path is a string then. -/
theorem Plain.exists_string {path : List OsString} (h : Plain path) :
  ∃ name : String, joinAll path = utf8 name ∧ Char.ofNat 0x5C ∉ name.toList
  := by
  induction path with
  | nil => exact ⟨"", rfl, by simp⟩
  | cons first rest ih =>
      rw [Plain, List.forall_mem_cons] at h
      obtain ⟨⟨s, rfl, hs⟩, hrest⟩ := h
      by_cases hnil : rest = []
      · subst hnil
        refine ⟨s, ?_, hs⟩
        rw [joinAll, List.intercalate_singleton]
      · obtain ⟨name, hname, hbackslash⟩ := ih hrest
        refine ⟨String.ofList (s.toList ++ '/' :: name.toList), ?_, ?_⟩
        · rw [joinAll_cons_of_ne_nil hnil, hname, utf8_eq_encode, utf8_eq_encode, utf8_eq_encode,
            String.toList_ofList, encode_append]
          rfl
        · rw [String.toList_ofList, List.mem_append, List.mem_cons]
          rintro (hmem | hmem | hmem)
          · apply hs hmem
          · cases hmem
          · apply hbackslash hmem

/-- No name in the index has a backslash. -/
theorem backslash_not_mem_fileNameOf (path : List OsString) :
  Char.ofNat 0x5C ∉ (fileNameOf path).toList
  := by
  rw [fileNameOf, String.toList_ofList, List.mem_map]
  rintro ⟨c, -, hc⟩
  split at hc
  · cases hc
  · rename_i hne
    apply hne hc

/-- The place that an accepted name leads to, from a share directory without links. -/
theorem UnixShows.eq_of_resolve (h : UnixShows d root fs) (hregular : RegularTree d root)
    (hroot : ∀ name ∈ root, IsName name) {fileName : String} {output : OutputPath}
    (houtput : safeOutputPath .unix fileName = .ok output) {links : Nat} {q : List OsString}
    (hq : d.resolve links [] (segments (join fs.root (utf8 fileName))) = some q) :
  q = root ++ output.parts.map encode
  := by
  have hhead : (utf8 fileName).head? ≠ some slash := by
    intro hslash
    obtain ⟨hsafe, -⟩ := safeOutputPath_unix_eq_ok_iff.mp houtput
    exact (forall_safe_iff.mp hsafe).1 (head?_encode hslash)
  have hsteps : segments (join fs.root (utf8 fileName))
      = (root ++ output.parts.map encode).map .child := by
    rw [h.fsRoot_eq, segments_join hroot hhead, segments_of_safeOutputPath houtput, List.map_append,
      List.map_map]
    rfl
  rw [hsteps] at hq
  rw [eq_of_resolve_children _ hq, List.nil_append]
  intro s hs
  rw [List.nil_append]
  apply hregular.not_link hs

/-- A name that is accepted and leads back to its file is plain. -/
theorem plain_of_denotes (h : UnixShows d root fs) (hregular : RegularTree d root)
    {path : List OsString} (hpath : path ∈ fs.files) {output : OutputPath}
    (houtput : safeOutputPath .unix (fileNameOf path) = .ok output) {links : Nat}
    (hdenotes : d.resolve links [] (segments (fs.servedPath path)) = some (root ++ path)) :
  Plain path
  := by
  obtain ⟨hroot, -⟩ := h.isName_of_mem_files hpath
  have hplace := h.eq_of_resolve hregular hroot houtput hdenotes
  rw [List.append_cancel_left_eq] at hplace
  obtain ⟨hsafe, heq⟩ := safeOutputPath_unix_eq_ok_iff.mp houtput
  have hhead := (forall_safe_iff.mp hsafe).1
  have hparts : output.parts = normals (Platform.unix.components (fileNameOf path).toList) := by
    rw [heq]
  intro name hname
  rw [hplace, hparts] at hname
  obtain ⟨part, hpart, rfl⟩ := List.mem_map.mp hname
  refine ⟨String.ofList part, ?_, ?_⟩
  · rw [utf8_eq_encode, String.toList_ofList]
  · rw [String.toList_ofList]
    intro hbackslash
    apply backslash_not_mem_fileNameOf path
    apply mem_of_mem_normals hpart hbackslash hhead

/-- The names on a plain path are those on the output path of its name. -/
theorem map_encode_parts {path : List OsString} (hnames : ∀ name ∈ path, IsName name)
    {name : String} (hname : joinAll path = utf8 name) {output : OutputPath}
    (houtput : safeOutputPath .unix name = .ok output) :
  output.parts.map encode = path
  := by
  have hsteps := segments_of_safeOutputPath houtput
  rw [← hname, segments_joinAll hnames] at hsteps
  have hchild : Function.Injective (Seg.child (ν := OsString)) := fun _ _ => Seg.child.inj
  apply List.map_injective_iff.mpr hchild
  rw [hsteps, List.map_map]
  rfl

section Sha256

variable [Sha256]

/-- The names of the files that a scan reports. -/
def ResourceIndex.fileNames (index : ResourceIndex) : List String :=
  index.resources.map FileResource.fileName

/-- They are the names of the files, in the order of these. -/
theorem fileNames_eq {scanned : OsString} {blockSize : Nat} {index : ResourceIndex}
    (hscan : fs.scanShareDir scanned blockSize = .ok index) :
  index.fileNames = fs.files.map fileNameOf
  := by
  obtain ⟨-, -, -, hresources⟩ := scanShareDir_spec hscan
  rw [ResourceIndex.fileNames, hresources, List.map_map]
  rfl

/-- The names under which files are published go round: no two files have the same; the path that
the server makes of one leads to the file; every node accepts it; and a node that has a tree of
regular files and downloads a file with this name reports it under this name. -/
structure RoundTrips (links : Nat) (d : UnixDisk) (root : List OsString) (fs : FileSystem) :
    Prop where
  distinct : ∀ path ∈ fs.files, ∀ other ∈ fs.files,
    fileNameOf path = fileNameOf other → path = other
  denotes : ∀ path ∈ fs.files,
    d.resolve links [] (segments (fs.servedPath path)) = some (root ++ path)
  accepted : ∀ path ∈ fs.files, ∃ output, safeOutputPath .unix (fileNameOf path) = .ok output
  rescanned : ∀ path ∈ fs.files, ∀ (d₂ : UnixDisk) (root₂ : List OsString) (job : Job)
    (s : DownloadState) (t : Target OsString) (bytes : List UInt8) (fs₂ : FileSystem)
    (scanned : OsString) (blockSize : Nat) (index : ResourceIndex),
    job.location.fileName = fileNameOf path → RegularTree d₂ root₂ →
      (unixHost root₂).output d₂ (.resolved job s) = some (t, bytes) →
        Shows id ((unixHost root₂).completed d₂ (.resolved job s)) root₂ fs₂ →
          fs₂.scanShareDir scanned blockSize = .ok index → fileNameOf path ∈ index.fileNames

/-- A node that downloads a file to a tree of regular files has the verified bytes at the components
of its output path. -/
theorem view_completed_place {d₂ : UnixDisk} {root₂ : List OsString} (hregular : RegularTree d₂ root₂)
    {job : Job} {s : DownloadState} {t : Target OsString} {bytes : List UInt8}
    (h : (unixHost root₂).output d₂ (.resolved job s) = some (t, bytes)) {output : OutputPath}
    (houtput : safeOutputPath .unix job.location.fileName = .ok output) :
  ((unixHost root₂).completed d₂ (.resolved job s)).view (root₂ ++ output.parts.map encode)
    = some (.file bytes)
  := by
  obtain ⟨output', houtput', htarget⟩ := output_resolved_eq_some h
  obtain rfl : output = output' := by
    change safeOutputPath .unix job.location.fileName = .ok output' at houtput'
    rw [houtput] at houtput'
    apply Except.ok.inj houtput'
  have hpath : (unixHost root₂).place output = root₂ ++ output.parts.map encode := by
    rw [unixHost]
    simp only [utf8_eq_encode, String.toList_ofList]
  rw [hpath] at htarget
  have hplace : t.place = root₂ ++ output.parts.map encode :=
    place_of_no_link (fun q hq => hregular.not_link hq) htarget
  have hwrites : d₂.Writes t.place t.place := by
    have hdir := kind_place_ne_directory htarget
    cases hk : d₂.kind t.place with
    | none =>
        rw [Writes, hk]
    | some k =>
        rw [hplace] at hk
        rcases hregular.regular _ k hk with rfl | ⟨i, rfl⟩
        · rw [hplace] at hdir
          cases hdir hk
        · rw [← hplace] at hk
          rw [Writes, hk]
  rw [← hplace]
  apply (view_completed_iff h).mpr (Or.inl ⟨hwrites, rfl⟩)

/-- It has a file there. -/
theorem isFile_completed {d₂ : UnixDisk} {root₂ : List OsString} (hregular : RegularTree d₂ root₂)
    {job : Job} {s : DownloadState} {t : Target OsString} {bytes : List UInt8}
    (h : (unixHost root₂).output d₂ (.resolved job s) = some (t, bytes)) {output : OutputPath}
    (houtput : safeOutputPath .unix job.location.fileName = .ok output) :
  IsFile ((unixHost root₂).completed d₂ (.resolved job s)) (root₂ ++ output.parts.map encode)
  := by
  obtain ⟨i, hi, -⟩ := view_eq_some_file_iff.mp (view_completed_place hregular h houtput)
  exact ⟨i, hi⟩

/-- The names go round exactly when they are plain. -/
theorem roundTrips_iff (links : Nat) (h : UnixShows d root fs) (hregular : RegularTree d root) :
  RoundTrips links d root fs ↔ ∀ path ∈ fs.files, Plain path
  := by
  constructor
  · intro hround path hpath
    obtain ⟨output, houtput⟩ := hround.accepted path hpath
    apply plain_of_denotes h hregular hpath houtput (hround.denotes path hpath)
  · intro hplain
    have hstring : ∀ path ∈ fs.files, joinAll path = utf8 (fileNameOf path) := by
      intro path hpath
      obtain ⟨name, hname, hbackslash⟩ := (hplain path hpath).exists_string
      rw [hname, fileNameOf_of_plain hname hbackslash]
    have hnames : ∀ path ∈ fs.files, ∀ name ∈ path, IsName name :=
      fun path hpath => (h.isName_of_mem_files hpath).2
    constructor
    · intro path hpath other hother heq
      apply joinAll_injective (hnames path hpath) (hnames other hother)
      rw [hstring path hpath, heq, hstring other hother]
    · intro path hpath
      obtain ⟨hroot, hpath'⟩ := h.isName_of_mem_files hpath
      obtain ⟨i, hi⟩ := h.isFile hpath
      rw [List.map_id, ← List.nil_append (root ++ path)] at hi
      rw [FileSystem.servedPath, ← hstring path hpath, h.fsRoot_eq,
        segments_join hroot (head?_joinAll hpath'), segments_joinAll hpath', ← List.map_append]
      apply resolve_children
      · intro s hs hne
        apply kind_of_prefix_ne hi hs hne
      · intro absolute target
        rw [hi]
        simp
    · intro path hpath
      apply exists_safeOutputPath (hnames path hpath) (hstring path hpath)
    · intro path hpath d₂ root₂ job s t bytes fs₂ scanned blockSize index hname hregular₂ houtput
        hshows hscan
      obtain ⟨output, hsafe⟩ := exists_safeOutputPath (hnames path hpath) (hstring path hpath)
      rw [← hname] at hsafe
      have hfile := isFile_completed hregular₂ houtput hsafe
      rw [hname] at hsafe
      rw [map_encode_parts (hnames path hpath) (hstring path hpath) hsafe] at hfile
      obtain ⟨path', hpath', heq⟩ := hshows.exists_file hfile
      rw [List.map_id] at heq
      rw [fileNames_eq hscan, List.mem_map]
      exact ⟨path, heq ▸ hpath', rfl⟩

end Sha256

/-! ### A share directory with two files -/

/-- What is in the share directory `/share` with a file and a directory of one file. -/
def nestedPlaces : List (List OsString × Kind OsString Nat) := [
  ([], .directory), ([utf8 "share"], .directory), ([utf8 "share", utf8 "a"], .file 0),
  ([utf8 "share", utf8 "d"], .directory), ([utf8 "share", utf8 "d", utf8 "b"], .file 1)]

/-- The disk with this share directory. -/
def nestedDisk : UnixDisk where
  kind p := nestedPlaces.lookup p
  data i := if i = 0 then [97] else [97, 98]
  next := 2
  root_eq := rfl
  parent_eq := by
    intro p name k hk
    have hparent : ∀ i ∈ nestedPlaces, nestedPlaces.lookup i.1.dropLast = some .directory := by
      decide
    have h := hparent _ (Dict.mem_of_lookup_eq_some hk)
    rwa [List.dropLast_concat] at h
  inode_lt := by
    intro p i hi
    have hnext : ∀ j ∈ nestedPlaces, ∀ n, j.2 = .file n → n < 2 := by
      simp [nestedPlaces]
    apply hnext _ (Dict.mem_of_lookup_eq_some hi) i rfl

theorem mem_nestedPlaces {p : List OsString} {k : Kind OsString Nat}
    (h : nestedDisk.kind p = some k) :
  (p, k) ∈ nestedPlaces
  := Dict.mem_of_lookup_eq_some h

/-- What a node sees of it. -/
def nestedShare : FileSystem where
  path := utf8 "/share"
  shareDir := .directory (utf8 "/share") true [.dir (utf8 "d") [.file (utf8 "b")], .file (utf8 "a")]
  contents path :=
    if path = join (utf8 "/share") (utf8 "a") then .ok [97]
    else if path = join (utf8 "/share") (utf8 "d/b") then .ok [97, 98]
    else .error .openFile
  reads _ := linuxReads

theorem regularTree_nested :
  RegularTree nestedDisk [utf8 "share"]
  := by
  constructor
  · rfl
  · intro s k hk
    have hregular : ∀ i ∈ nestedPlaces, i.2 = .directory ∨ ∃ n, i.2 = .file n := by
      simp [nestedPlaces]
    apply hregular _ (mem_nestedPlaces hk)

/-- What is in a directory of it. -/
theorem complete_nested {dir : List OsString} {entries : List Entry}
    (h : ∀ i ∈ nestedPlaces, ∀ name ∈ i.1.getLast?, i.1.dropLast = dir →
      ∃ entry ∈ entries, entry.name = some name) :
  Complete id nestedDisk dir entries
  := by
  intro name hname
  obtain ⟨k, hk⟩ := Option.ne_none_iff_exists'.mp hname
  obtain ⟨entry, hentry, heq⟩ := h _ (mem_nestedPlaces hk) name (by simp) List.dropLast_concat
  exact ⟨entry, hentry, name, heq, rfl⟩

theorem unixShows_nested :
  UnixShows nestedDisk [utf8 "share"] nestedShare
  := by
  constructor
  · constructor
    · rfl
    · refine ⟨_, _, rfl, ?_, ⟨rfl, ?_, ⟨1, rfl⟩, trivial⟩, ⟨0, rfl⟩, trivial⟩
      · apply complete_nested
        decide
      · apply complete_nested
        decide
    · intro path i content hi hcontent
      have hplaces : ∀ j ∈ nestedPlaces, ∀ n, j.2 = .file n →
          nestedShare.contents (nestedShare.fullPath (j.1.drop 1)) = .ok (nestedDisk.data n) := by
        simp only [nestedPlaces, List.forall_mem_cons, List.not_mem_nil, false_implies,
          implies_true, and_true, reduceCtorEq, true_and]
        constructor
        · rintro n ⟨⟩
          decide +kernel
        · rintro n ⟨⟩
          decide +kernel
      have hdata := hplaces _ (mem_nestedPlaces hi) i rfl
      rw [List.map_id] at hdata
      exact Except.ok.inj (hcontent.symm.trans hdata)
  · intro p name k hk
    have hnames : ∀ i ∈ nestedPlaces, ∀ name ∈ i.1.getLast?,
        name ∈ [utf8 "share", utf8 "a", utf8 "d", utf8 "b"] := by
      decide
    have hisName : ∀ name ∈ [utf8 "share", utf8 "a", utf8 "d", utf8 "b"], IsName name := by
      simp only [List.forall_mem_cons, List.not_mem_nil, false_implies, implies_true, and_true]
      refine ⟨?_, ?_, ?_, ?_⟩ <;> constructor <;> decide
    apply hisName _ (hnames _ (mem_nestedPlaces hk) name (by simp))
  · rfl

/-- A file `a`, and a file `b` in a directory `d`. -/
theorem roundTrips_nested :
  let _ := Sha256.short
  RoundTrips 40 nestedDisk [utf8 "share"] nestedShare ∧
    nestedShare.files = [[utf8 "a"], [utf8 "d", utf8 "b"]]
  := by
  intro _
  have hfiles : nestedShare.files = [[utf8 "a"], [utf8 "d", utf8 "b"]] := by decide +kernel
  refine ⟨(roundTrips_iff 40 unixShows_nested regularTree_nested).mpr ?_, hfiles⟩
  have hplain : ∀ s ∈ ["a", "d", "b"], Char.ofNat 0x5C ∉ s.toList := by decide
  rw [hfiles]
  simp only [List.forall_mem_cons, List.not_mem_nil, false_implies, implies_true, and_true, Plain]
  exact ⟨⟨"a", rfl, hplain "a" (by decide)⟩, ⟨"d", rfl, hplain "d" (by decide)⟩, "b", rfl,
    hplain "b" (by decide)⟩

/-! ### A share directory with one file -/

/-- The share directory `/share` with one file is a tree of regular files. -/
theorem regularTree_oneFile (name : OsString) (content : List UInt8) :
  RegularTree (oneFile (utf8 "share") name content) [utf8 "share"]
  := by
  constructor
  · apply kind_oneFile_iff.mpr (Or.inl ⟨rfl, rfl⟩)
  · intro s k hk
    rcases kind_oneFile_iff.mp hk with ⟨-, hdir⟩ | ⟨-, hfile⟩
    · left
      exact hdir
    · right
      exact ⟨0, hfile⟩

theorem unixShows_singleFile {name : String} (hname : IsName (utf8 name)) (content : List UInt8) :
  UnixShows (oneFile (utf8 "share") (utf8 name) content) [utf8 "share"] (singleFile name content)
  := by
  constructor
  · apply shows_singleFile rfl rfl
  · intro p name' k hk
    have hplace : p ++ [name'] = [] ∨ p ++ [name'] = [utf8 "share"] ∨
        p ++ [name'] = [utf8 "share", utf8 name] := by
      by_contra hnot
      rw [not_or, not_or] at hnot
      simp only [oneFile, hnot.1, hnot.2.1, hnot.2.2, or_self, if_false, reduceCtorEq] at hk
    rcases hplace with hnil | hshare | hfile
    · simp at hnil
    · obtain ⟨-, heq⟩ := List.append_inj' (hshare.trans (List.nil_append _).symm) rfl
      rw [(List.cons.inj heq).1]
      constructor <;> decide
    · obtain ⟨-, heq⟩ := List.append_inj'
        (hfile.trans (List.append_cons [] (utf8 "share") [utf8 name])) rfl
      rw [(List.cons.inj heq).1]
      exact hname
  · rfl

/-- A file with a backslash in its name. It is published as a file `b` in a directory `a`. -/
theorem not_roundTrips_singleFile :
  let _ := Sha256.short
  let d := oneFile (utf8 "share") (utf8 "a\\b") [97]
  UnixShows d [utf8 "share"] (singleFile "a\\b" [97]) ∧ RegularTree d [utf8 "share"] ∧
    ¬ RoundTrips 40 d [utf8 "share"] (singleFile "a\\b" [97])
  := by
  intro _ d
  have hname : IsName (utf8 "a\\b") := by constructor <;> decide
  have hshows := unixShows_singleFile hname [97]
  have hregular := regularTree_oneFile (utf8 "a\\b") [97]
  refine ⟨hshows, hregular, ?_⟩
  intro hround
  have hpath : [utf8 "a\\b"] ∈ (singleFile "a\\b" [97]).files := List.mem_singleton.mpr rfl
  obtain ⟨output, houtput⟩ := hround.accepted _ hpath
  have hplain := plain_of_denotes hshows hregular hpath houtput (hround.denotes _ hpath)
  obtain ⟨s, hs, hbackslash⟩ := hplain _ (List.mem_singleton.mpr rfl)
  rw [← encode_injective hs] at hbackslash
  exact absurd hbackslash (by decide)

end Node
