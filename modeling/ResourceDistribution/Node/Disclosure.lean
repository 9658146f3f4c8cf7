import ResourceDistribution.Node.PeerServer
import ResourceDistribution.Node.RoundTrip

/-!
# What the peer server gives away

The peer server opens a file under the name that the index has for it, in which backslashes are
separators. As long as every name in the index is one that `safe_output_path` accepts, whatever is
asked for, nothing is given away but parts of files below the share directory (`served_below`). On a
Unix system a download may store a file under a name that is an absolute path written with
backslashes, and the server then gives away the file at this path (`disclosed`).
-/

open Disk Fallible Tasks

namespace Node

/-- What a node reads of a Unix file system: under every path the file that the path leads to. -/
structure UnixReads (links : Nat) (d : UnixDisk) (root : List OsString) (fs : FileSystem) : Prop
    extends UnixShows d root fs where
  reads : ∀ path content, fs.contents path = .ok content →
    ∃ p, d.resolve links [] (segments path) = some p ∧ d.view p = some (.file content)

section Sha256

variable [Sha256] {links : Nat} {d : UnixDisk} {root : List OsString} {fs : FileSystem}

/-! ### Names that are accepted -/

omit [Sha256] in
/-- What the index reads of a file is the file. -/
theorem view_of_fullPath (h : Shows id d root fs) {path : List OsString} (hpath : path ∈ fs.files)
    {content : List UInt8} (hcontent : fs.contents (fs.fullPath path) = .ok content) :
  d.view (root ++ path) = some (.file content)
  := by
  obtain ⟨i, hi⟩ := h.isFile hpath
  rw [view_eq_some_file_iff]
  have hdata := h.contents_eq path i content hi hcontent
  rw [List.map_id] at hi
  exact ⟨i, hi, hdata.symm⟩

omit [Sha256] in
/-- What the server reads under an accepted name is a file below the share directory. -/
theorem view_of_servedPath (h : UnixReads links d root fs) (hregular : RegularTree d root)
    {path : List OsString} (hpath : path ∈ fs.files) {output : OutputPath}
    (houtput : safeOutputPath .unix (fileNameOf path) = .ok output) {content : List UInt8}
    (hcontent : fs.contents (fs.servedPath path) = .ok content) :
  d.view (root ++ output.parts.map encode) = some (.file content)
  := by
  obtain ⟨p, hp, hview⟩ := h.reads _ _ hcontent
  obtain ⟨hroot, -⟩ := h.isName_of_mem_files hpath
  rw [← h.eq_of_resolve hregular hroot houtput hp]
  exact hview

/-- A block is given away only under the hash of a shared file. -/
theorem exists_resource_of_readBlock {blockSize blockIndex : Nat} {fileHash : String}
    {block : LocalBlockData}
    (h : fs.readBlockByHash blockSize fileHash blockIndex = .ok (some block)) :
  ∃ path ∈ fs.files, fs.contents (fs.fullPath path) = .ok (fs.contentAt path) ∧
    Sha256.hex (fs.contentAt path) = fileHash
  := by
  unfold FileSystem.readBlockByHash at h
  split at h
  · obtain ⟨index, hscan, h⟩ := bind_eq_ok.mp h
    split at h
    · cases h
    · rename_i resource hresource
      have hhash : resource.fileHash = fileHash := by simpa using List.find?_some hresource
      obtain ⟨hb, -, hcontents, hresources⟩ := scanShareDir_spec hscan
      have hmem := List.mem_of_find?_eq_some hresource
      rw [hresources] at hmem
      obtain ⟨path, hpath, rfl⟩ := List.mem_map.mp hmem
      use path, hpath, hcontents path hpath
      rw [← hhash, FileSystem.resourceAt, fileHash_resourceOf hb]
  · obtain ⟨_, -, h⟩ := bind_eq_ok.mp h
    cases h
  · cases h
  · cases h

/-- On a Unix system whose share directory is a tree of regular files with names that are accepted,
whatever is asked for, an answer with the status of success is to the hash of a file below the share
directory, and its body is a part of a file below the share directory. -/
theorem served_below (h : UnixReads links d root fs) (hregular : RegularTree d root)
    (hnames : ∀ path ∈ fs.files, ∃ output, safeOutputPath .unix (fileNameOf path) = .ok output)
    (blockSize : Nat) (fileHash : String) (blockIndex : Nat)
    (hstatus : ((PeerServerState.mk fs blockSize).getBlock fileHash blockIndex).status = 200) :
  (∃ s content, d.view (root ++ s) = some (.file content) ∧ Sha256.hex content = fileHash) ∧
    ∃ s content, d.view (root ++ s) = some (.file content) ∧
      ((PeerServerState.mk fs blockSize).getBlock fileHash blockIndex).body <:+: content
  := by
  obtain ⟨bytes, -, hread, hanswer⟩ | ⟨-, hanswer⟩ | ⟨e, -, hanswer⟩ :=
    getBlock_cases ⟨fs, blockSize⟩ fileHash blockIndex
  · constructor
    · obtain ⟨path, hpath, hcontent, hhash⟩ := exists_resource_of_readBlock hread
      exact ⟨path, _, view_of_fullPath h.toShows hpath hcontent, hhash⟩
    · rw [hanswer]
      obtain ⟨path, hpath, content, hcontent | hcontent, hpart⟩ :=
        (spec_of_readBlockByHash hread).bytes_mem
      · exact ⟨path, content, view_of_fullPath h.toShows hpath hcontent, hpart⟩
      · obtain ⟨output, houtput⟩ := hnames path hpath
        exact ⟨_, content, view_of_servedPath h hregular hpath houtput hcontent, hpart⟩
  · rw [hanswer] at hstatus
    cases hstatus
  · rw [hanswer] at hstatus
    cases hstatus

/-! ### Absolute paths in disguise -/

/-- A path with backslashes for separators. -/
def disguised (path : String) : String :=
  String.ofList (path.toList.map fun c => if c = '/' then Char.ofNat 0x5C else c)

omit [Sha256] in
/-- A path that begins with a separator is, in disguise, the name of a file. -/
theorem isName_disguised {path : String} (hhead : path.toList.head? = some '/') :
  IsName (utf8 (disguised path))
  := by
  obtain ⟨rest, hrest⟩ := List.head?_eq_some_iff.mp hhead
  have hbytes : ∃ later, utf8 (disguised path) = 0x5C :: later := by
    rw [utf8_eq_encode, disguised, String.toList_ofList, hrest]
    exact ⟨_, rfl⟩
  obtain ⟨later, hlater⟩ := hbytes
  constructor
  · rw [hlater]
    exact List.cons_ne_nil _ _
  · rw [hlater]
    intro h
    cases (List.cons.inj h).1
  · rw [hlater]
    intro h
    cases (List.cons.inj h).1
  · rw [utf8_eq_encode]
    apply slash_not_mem_encode
    rw [disguised, String.toList_ofList, List.mem_map]
    rintro ⟨c, -, hc⟩
    split at hc
    · cases hc
    · rename_i hne
      exact hne hc

omit [Sha256] in
/-- The index takes it for the path. -/
theorem fileNameOf_disguised {path : String} (hplain : Char.ofNat 0x5C ∉ path.toList) :
  fileNameOf [utf8 (disguised path)] = path
  := by
  have hjoin : joinAll [utf8 (disguised path)] = utf8 (disguised path) := List.intercalate_singleton
  rw [fileNameOf, hjoin, toStringLossy_utf8, disguised, String.toList_ofList, List.map_map,
    List.map_congr_left (g := id)]
  · rw [List.map_id, String.ofList_toList]
  · intro c hc
    rw [Function.comp_apply]
    by_cases hslash : c = '/'
    · rw [if_pos hslash, if_pos rfl, hslash]
      rfl
    · rw [if_neg hslash, if_neg]
      · rfl
      · rintro rfl
        exact hplain hc

/-- On a Unix system with a tree of regular files, a download that writes a file whose name is an
absolute path with backslashes for separators stores it in the share directory and makes the peer
server give away the file at this path, unless another shared file has the same contents: asked for a
block of what was downloaded, it answers with the bytes that the other file has in its place. -/
theorem disclosed {job : Job} {s : DownloadState} {t : Target OsString} {bytes : List UInt8}
    (hregular : RegularTree d root) {path : String} (hhead : path.toList.head? = some '/')
    (hplain : Char.ofNat 0x5C ∉ path.toList) (hname : job.location.fileName = disguised path)
    (houtput : (unixHost root).output d (.resolved job s) = some (t, bytes))
    (hafter : Shows id ((unixHost root).completed d (.resolved job s)) root fs) {scanned : OsString}
    {blockSize : Nat} {index : ResourceIndex}
    (hscan : fs.scanShareDir scanned blockSize = .ok index) (hcollision : NoCollision fs.parts)
    (halone : ∀ other ∈ fs.files, fs.contentAt other = bytes → other = [utf8 (disguised path)])
    {secret : List UInt8} (hsecret : fs.contents (utf8 path) = .ok secret) {i : Nat}
    {chunk : List UInt8}
    (hchunk : (readChunks (fs.reads (fs.fullPath [utf8 (disguised path)])) blockSize bytes)[i]?
      = some chunk)
    (hlong : i * blockSize + chunk.length ≤ secret.length) :
  ((unixHost root).completed d (.resolved job s)).view (root ++ [utf8 (disguised path)])
      = some (.file bytes) ∧
    ((PeerServerState.mk fs blockSize).getBlock (Sha256.hex bytes) i).reply
      = .body ((secret.drop (i * blockSize)).take chunk.length)
  := by
  have hisName := isName_disguised hhead
  have hnames : ∀ name ∈ [utf8 (disguised path)], IsName name := by
    intro name hname
    rw [List.mem_singleton.mp hname]
    exact hisName
  have hjoin : joinAll [utf8 (disguised path)] = utf8 job.location.fileName := by
    rw [hname]
    exact List.intercalate_singleton
  obtain ⟨output, hsafe⟩ := exists_safeOutputPath hnames hjoin
  have hview := view_completed_place hregular houtput hsafe
  rw [map_encode_parts hnames hjoin hsafe] at hview
  obtain ⟨j, hj, -⟩ := view_eq_some_file_iff.mp hview
  obtain ⟨stored, hstored, heq⟩ := hafter.exists_file ⟨j, hj⟩
  rw [List.map_id] at heq
  subst heq
  obtain ⟨-, -, hcontents, -⟩ := scanShareDir_spec hscan
  have hcontent : fs.contentAt [utf8 (disguised path)] = bytes := by
    have hread := view_of_fullPath hafter hstored (hcontents _ hstored)
    rw [hview] at hread
    cases hread
    rfl
  obtain ⟨first, hfirst, hwith⟩ := exists_firstWith hstored
  have hfound : fs.contentAt first = bytes := by
    rw [← hcontent]
    simpa using List.find?_some hwith
  rw [halone first hfirst hfound] at hwith
  have hserved : fs.servedPath [utf8 (disguised path)] = utf8 path := by
    obtain ⟨rest, hrest⟩ := List.head?_eq_some_iff.mp hhead
    have hslash : (utf8 path).head? = some slash := by
      rw [utf8_eq_encode, hrest]
      rfl
    rw [FileSystem.servedPath, fileNameOf_disguised hplain, join, if_pos hslash]
  use hview
  rw [← hcontent] at hchunk ⊢
  rw [reply_getBlock_eq_body_iff, readBlockByHash_eq hscan hcollision hstored hwith]
  refine ⟨chunk, secret, _, hchunk, ?_, ?_, rfl⟩
  · rw [hserved]
    exact hsecret
  · apply readExact_eq_some_iff.mpr
    use rfl
    rw [List.length_take, List.length_drop]
    omega

end Sha256

/-! ### A shared file -/

/-- The file system with one file, as it is read. -/
theorem unixReads_singleFile (content : List UInt8) :
  UnixReads 40 (oneFile (utf8 "share") (utf8 "a") content) [utf8 "share"] (singleFile "a" content)
  := by
  have hname : IsName (utf8 "a") := by constructor <;> decide
  constructor
  · apply unixShows_singleFile hname content
  · intro path content' hcontent
    rw [singleFile] at hcontent
    simp only at hcontent
    split at hcontent
    · rename_i hpath
      cases hcontent
      use [utf8 "share", utf8 "a"]
      rw [hpath]
      exact ⟨rfl, rfl⟩
    · cases hcontent

/-- The block of the only file is a part of it. -/
theorem served_below_singleFile :
  let _ := Sha256.short
  ∃ s content, (oneFile (utf8 "share") (utf8 "a") [97]).view ([utf8 "share"] ++ s)
      = some (.file content) ∧
    ((PeerServerState.mk (singleFile "a" [97]) 512).getBlock (Sha256.hex [97]) 0).body <:+: content
  := by
  intro _
  apply (served_below (unixReads_singleFile [97]) (regularTree_oneFile _ _) _ 512
    (Sha256.hex [97]) 0 (by decide +kernel)).2
  intro path hpath
  rw [List.mem_singleton.mp hpath]
  exact ⟨⟨.shareDir, [['a']]⟩, safeOutputPath_eq_ok_iff.mpr (by decide +kernel)⟩

/-! ### A file outside the share directory -/

/-- A share directory with the file `\\secret`, on a system that has a file `/secret`. -/
def besideSecret (content secret : List UInt8) : FileSystem :=
  { singleFile "\\secret" content with
    contents := fun path =>
      if path = utf8 "/secret" then .ok secret
      else (singleFile "\\secret" content).contents path }

theorem contents_besideSecret {content secret : List UInt8} {path : OsString}
    (h : path ≠ utf8 "/secret") :
  (besideSecret content secret).contents path = (singleFile "\\secret" content).contents path
  := if_neg h

/-- The file system after the download of the file `\\secret`. -/
theorem shows_besideSecret {d : UnixDisk} {content secret : List UInt8}
    (hkind : d.kind = (oneFile (utf8 "share") (utf8 "\\secret") content).kind)
    (hdata : d.data 0 = content) :
  Shows id d [utf8 "share"] (besideSecret content secret)
  := by
  have hsingle : Shows id d [utf8 "share"] (singleFile "\\secret" content) :=
    shows_singleFile hkind hdata
  constructor
  · exact hsingle.root_eq
  · exact hsingle.shareDir_eq
  · intro path i content' hi hcontent
    apply hsingle.contents_eq path i content' hi
    rw [hkind, kind_oneFile_iff, List.map_id] at hi
    rcases hi with ⟨-, hdir⟩ | ⟨rfl, -⟩
    · cases hdir
    · have hother : join (utf8 "/share") (joinAll [utf8 "\\secret"]) ≠ utf8 "/secret" := by decide
      exact (contents_besideSecret hother).symm.trans hcontent

theorem noCollision_besideSecret :
  let _ := Sha256.short
  NoCollision (besideSecret [97] [98]).parts
  := by
  intro _
  have hbytes : ∀ path content, (besideSecret [97] [98]).contents path = .ok content →
      content = [97] ∨ content = [98] := by
    intro path content hcontent
    simp only [besideSecret, singleFile] at hcontent
    split at hcontent
    · right
      exact (Except.ok.inj hcontent).symm
    · split at hcontent
      · left
        exact (Except.ok.inj hcontent).symm
      · cases hcontent
  apply noCollision_short
  rintro part ⟨path, -, content, hcontent, hpart⟩
  apply hpart.sublist.trans
  rcases hcontent with hcontent | hcontent
  · rcases hbytes _ _ hcontent with rfl | rfl <;> decide
  · rcases hbytes _ _ hcontent with rfl | rfl <;> decide

/-- The file `/secret` is given away for the file `\\secret` that was downloaded. -/
theorem disclosed_secret :
  let _ := Sha256.short
  ((PeerServerState.mk (besideSecret [97] [98]) 512).getBlock (Sha256.hex [97]) 0).reply
    = .body [98]
  := by
  intro _
  have hname : disguised "/secret" = "\\secret" := by decide
  let d := oneFile (utf8 "share") (utf8 "\\secret") [97]
  have hregular : RegularTree d [utf8 "share"] := regularTree_oneFile _ _
  obtain ⟨s, hreach, hfinal⟩ := exists_final (oneBlock "\\secret" [97]).pool
    (oneBlock "\\secret" [97]).start
  have hpath : safeOutputPath .unix "\\secret" = .ok ⟨.shareDir, ["\\secret".toList]⟩ :=
    safeOutputPath_eq_ok_iff.mpr (by decide)
  have houtput : (unixHost [utf8 "share"]).output d (.resolved (oneBlock "\\secret" [97]) s)
      = some (⟨[utf8 "share"], [], [utf8 "share", utf8 "\\secret"]⟩, [97]) := by
    apply output_of_assembled (oneBlock_assembled hreach hfinal) hpath
    rfl
  have hwrite : (unixHost [utf8 "share"]).completed d (.resolved (oneBlock "\\secret" [97]) s)
      = d.write [utf8 "share", utf8 "\\secret"] [97] := by
    rw [Host.completed, stopped_of_output houtput, length_calls houtput]
    simp [Disk.Stage.after, Disk.Stage.disk, mkdirs]
  have hfile : d.kind [utf8 "share", utf8 "\\secret"] = some (.file 0) :=
    kind_oneFile_iff.mpr (Or.inr ⟨rfl, rfl⟩)
  obtain ⟨hkind, hdata⟩ := write_of_file hfile [97]
  have hafter : Shows id ((unixHost [utf8 "share"]).completed d
      (.resolved (oneBlock "\\secret" [97]) s)) [utf8 "share"] (besideSecret [97] [98]) := by
    rw [hwrite]
    apply shows_besideSecret hkind
    rw [hdata, Function.update_self]
  have hscan : (besideSecret [97] [98]).scanShareDir (utf8 "/share") 512
      = .ok ⟨[resourceOf linuxReads 512 [utf8 "\\secret"] [97]]⟩ := rfl
  have hsecret : (besideSecret [97] [98]).contents (utf8 "/secret") = .ok [98] := rfl
  have hchunk : (readChunks linuxReads 512 [97])[0]? = some [97] := rfl
  apply And.right
  apply disclosed hregular rfl (by decide) hname.symm houtput hafter hscan
    noCollision_besideSecret _ hsecret hchunk (by decide)
  intro other hother _
  exact List.mem_singleton.mp hother

end Node
