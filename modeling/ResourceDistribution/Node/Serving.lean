import Mathlib.Data.List.Find
import ResourceDistribution.Data.Fallible
import ResourceDistribution.Node.LocalFiles

/-!
# The blocks in the index and the blocks served

The index cuts a file as its `BufReader` hands it out, the server cuts it at the multiples of the
block size. The two cuts are the same exactly when the reads of the file that the system is asked for
begin at multiples of the block size (`readChunks_eq_blocks_iff`); if it always returns all that is
asked for, or all that is left, this is so when the block size is at least the capacity of the reader's
buffer, or divides it, or the file fits into the buffer (`aligned_iff_of_whole`). A block in the index
is served as it is there if, moreover, the name of the file in the index leads back to its contents
(`indexed_served_iff`).
-/

open Fallible

namespace Node

/-! ### Buffered reading -/

/-- The chunks of a file, one after another, are its contents. -/
theorem flatten_readChunks {n : Nat} (hn : 0 < n) (reads : Reads) (content : List UInt8) :
  (readChunks reads n content).flatten = content
  := Buffered.flatten_chunks hn _

/-- The chunks of a file are its blocks exactly when every read that begins before the end of the file
begins at a block. -/
theorem readChunks_eq_blocks_iff {n : Nat} (hn : 0 < n) (reads : Reads) (content : List UInt8) :
  readChunks reads n content = Cut.blocks n content ↔
    reads.Aligned (max capacity n) n 0 content.length
  := Buffered.chunks_eq_blocks_iff hn content

/-- If the system returns all that is asked for, or all that is left, the reads begin at blocks exactly
when the block size is at least the capacity of the buffer, or divides it, or the file fits into the
buffer. -/
theorem aligned_iff_of_whole {n length : Nat} {reads : Reads}
    (h : reads.Whole (max capacity n) length) :
  reads.Aligned (max capacity n) n 0 length ↔ capacity ≤ n ∨ n ∣ capacity ∨ length ≤ capacity
  := by
  rw [h.aligned_iff]
  by_cases hle : capacity ≤ n
  · rw [Nat.max_eq_right hle]
    exact iff_of_true (Or.inl (Nat.dvd_refl n)) (Or.inl hle)
  · rw [Nat.max_eq_left (Nat.le_of_not_le hle), or_iff_right hle]

/-! ### The files of the share directory -/

/-- The canonical path of the share directory. -/
def FileSystem.root (fs : FileSystem) : OsString :=
  match fs.shareDir with
  | .directory root _ _ => root
  | _ => fs.path

/-- The files of the share directory, in the order of the index. -/
def FileSystem.files (fs : FileSystem) : List (List OsString) :=
  match fs.shareDir with
  | .directory root readable entries =>
      match sortedFiles root readable entries with
      | .ok files => files
      | .error _ => []
  | _ => []

/-- Where a path below the share directory is. -/
def FileSystem.fullPath (fs : FileSystem) (path : List OsString) : OsString :=
  join fs.root (joinAll path)

/-- Where the server looks for a file: at the name it has in the index. -/
def FileSystem.servedPath (fs : FileSystem) (path : List OsString) : OsString :=
  join fs.root (utf8 (fileNameOf path))

/-- The contents of a file of the share directory, if it can be read. -/
def FileSystem.contentAt (fs : FileSystem) (path : List OsString) : List UInt8 :=
  match fs.contents (fs.fullPath path) with
  | .ok content => content
  | .error _ => []

/-- The first file of the share directory that has these contents. -/
def FileSystem.firstWith (fs : FileSystem) (content : List UInt8) : Option (List OsString) :=
  fs.files.find? fun path => fs.contentAt path = content

/-- The file that the server opens to serve a file with these contents begins with them. -/
def FileSystem.LeadsBack (fs : FileSystem) (content : List UInt8) : Prop :=
  ∃ first served, fs.firstWith content = some first ∧
    fs.contents (fs.servedPath first) = .ok served ∧ content <+: served

/-- Every read of a file of the share directory that begins before its end begins at a block. -/
def FileSystem.ReadsBlocks (fs : FileSystem) (blockSize : Nat) (path : List OsString) : Prop :=
  (fs.reads (fs.fullPath path)).Aligned (max capacity blockSize) blockSize 0
    (fs.contentAt path).length

/-- Wherever the share directory has these contents, every read of them begins at a block. -/
def FileSystem.ReadsInBlocks (fs : FileSystem) (blockSize : Nat) (content : List UInt8) : Prop :=
  ∀ path ∈ fs.files, fs.contentAt path = content → fs.ReadsBlocks blockSize path

/-- Everything that a scan reads in the share directory can be read. -/
structure FileSystem.Readable (fs : FileSystem) : Prop where
  shareDir_eq : ∃ readable entries, fs.shareDir = .directory fs.root readable entries ∧
    sortedFiles fs.root readable entries = .ok fs.files
  contents_eq : ∀ path ∈ fs.files, fs.contents (fs.fullPath path) = .ok (fs.contentAt path)

/-- The parts of the files of the share directory, and of the files their names in the index lead
to. -/
def FileSystem.parts (fs : FileSystem) : Set (List UInt8) :=
  fun part => ∃ path ∈ fs.files, ∃ content,
    (fs.contents (fs.fullPath path) = .ok content ∨
      fs.contents (fs.servedPath path) = .ok content) ∧ part <:+: content

/-- Reading exactly the bytes that a list has at a place. -/
theorem readExact_eq_some_iff {content : List UInt8} {offset size : Nat} {bytes : List UInt8} :
  readExact content offset size = some bytes ↔
    (content.drop offset).take size = bytes ∧ bytes.length = size
  := by
  rw [readExact, Option.ite_none_right_eq_some, Option.some.injEq]
  constructor
  · rintro ⟨hlength, rfl⟩
    exact ⟨rfl, hlength⟩
  · rintro ⟨rfl, hlength⟩
    exact ⟨hlength, rfl⟩

theorem exists_firstWith {fs : FileSystem} {path : List OsString} (hpath : path ∈ fs.files) :
  ∃ first ∈ fs.files, fs.firstWith (fs.contentAt path) = some first
  := by
  cases hfirst : fs.firstWith (fs.contentAt path) with
  | none =>
      have hnone := List.find?_eq_none.mp hfirst path hpath
      simp at hnone
  | some first => exact ⟨first, List.mem_of_find?_eq_some hfirst, rfl⟩

section Sha256

variable [Sha256]

/-! ### The blocks in the index -/

/-- `blocks` are the blocks of `content`: as many as there are, numbered from 0, with their hashes
and their sizes. -/
def BlocksExact (blockSize : Nat) (content : List UInt8) (blocks : List BlockResource) : Prop :=
  blocks.length = Cut.count blockSize content.length ∧
    ∀ i (h : i < blocks.length), blocks[i].index = i ∧
      blocks[i].size = min blockSize (content.length - i * blockSize) ∧
      blocks[i].hash = Sha256.hex ((content.drop (i * blockSize)).take blocks[i].size)

@[simp]
theorem length_blocksOfChunks (chunks : List (List UInt8)) :
  (blocksOfChunks chunks).length = chunks.length
  := by
  simp [blocksOfChunks]

@[simp]
theorem getElem_blocksOfChunks {chunks : List (List UInt8)} {i : Nat}
    (h : i < (blocksOfChunks chunks).length) :
  (blocksOfChunks chunks)[i]
    = ⟨i, Sha256.hex (chunks.get ⟨i, by simpa using h⟩), (chunks.get ⟨i, by simpa using h⟩).length⟩
  := by
  simp [blocksOfChunks]

/-- The block with index `i` of some contents, as the index lists it. -/
def listedBlock (blockSize : Nat) (content : List UInt8) (i : Nat) : BlockResource :=
  ⟨i, Sha256.hex (Cut.block blockSize content i), (Cut.block blockSize content i).length⟩

/-- The index lists the blocks of the contents, if the chunks are the blocks. -/
theorem mem_blocksOfChunks_blocks {blockSize : Nat} {content : List UInt8} {block : BlockResource} :
  block ∈ blocksOfChunks (Cut.blocks blockSize content) ↔
    ∃ i < Cut.count blockSize content.length, block = listedBlock blockSize content i
  := by
  have hget : ∀ i (h : i < (blocksOfChunks (Cut.blocks blockSize content)).length),
      (blocksOfChunks (Cut.blocks blockSize content))[i] = listedBlock blockSize content i := by
    intro i h
    rw [getElem_blocksOfChunks, List.get_eq_getElem, Cut.getElem_blocks, listedBlock]
  have hlength : (blocksOfChunks (Cut.blocks blockSize content)).length
      = Cut.count blockSize content.length := by
    rw [length_blocksOfChunks, Cut.length_blocks]
  rw [List.mem_iff_getElem]
  constructor
  · rintro ⟨i, hi, rfl⟩
    exact ⟨i, hlength ▸ hi, hget i hi⟩
  · rintro ⟨i, hi, rfl⟩
    exact ⟨i, hlength ▸ hi, hget i _⟩

/-- The blocks that chunks make are exact exactly when the chunks are the blocks. -/
theorem blocksExact_iff {blockSize : Nat} (hb : 0 < blockSize) {content : List UInt8}
    {chunks : List (List UInt8)} (hflatten : chunks.flatten = content) :
  BlocksExact blockSize content (blocksOfChunks chunks) ↔ chunks = Cut.blocks blockSize content
  := by
  constructor
  · rintro ⟨hlength, hblocks⟩
    apply List.eq_iff_flatten_eq.mpr
    constructor
    · rw [hflatten, Cut.flatten_blocks hb]
    · apply List.ext_getElem
      · simpa using hlength
      · intro i hi _
        have hsize := (hblocks i (by simpa using hi)).2.1
        simpa using hsize
  · rintro rfl
    constructor
    · simp
    · intro i hi
      simp only [getElem_blocksOfChunks, List.get_eq_getElem, Cut.getElem_blocks, true_and]
      use Cut.length_block blockSize content i
      rw [Cut.length_block, ← List.length_drop, ← List.take_eq_take_min]
      rfl

/-! ### Serving -/

/-- Every block of a file in the index is served with the hash and the size it has there. -/
def FileSystem.Serves (fs : FileSystem) (blockSize : Nat) (resource : FileResource) : Prop :=
  ∀ block ∈ resource.blocks, ∃ data,
    fs.readBlockByHash blockSize resource.fileHash block.index = .ok (some data) ∧
      data.blockHash = block.hash ∧ Sha256.hex data.bytes = block.hash ∧
      data.size = block.size ∧ data.bytes.length = block.size

/-- The block of an index with a given number. -/
theorem find?_blocksOfChunks (chunks : List (List UInt8)) (i : Nat) :
  (blocksOfChunks chunks).find? (fun block => block.index = i)
    = chunks[i]?.map fun chunk => ⟨i, Sha256.hex chunk, chunk.length⟩
  := by
  cases hi : chunks[i]? with
  | none =>
      rw [Option.map_none, List.find?_eq_none]
      intro block hblock
      obtain ⟨j, hj, rfl⟩ := List.mem_iff_getElem.mp hblock
      rw [List.getElem?_eq_none_iff] at hi
      rw [length_blocksOfChunks] at hj
      rw [getElem_blocksOfChunks, decide_eq_true_eq]
      exact Nat.ne_of_lt (Nat.lt_of_lt_of_le hj hi)
  | some chunk =>
      obtain ⟨hlt, rfl⟩ := List.getElem?_eq_some_iff.mp hi
      have hlt' : i < (blocksOfChunks chunks).length := by
        rw [length_blocksOfChunks]
        exact hlt
      rw [Option.map_some, List.find?_eq_some_iff_getElem]
      use by simp, i, hlt', getElem_blocksOfChunks hlt'
      intro j hj
      rw [getElem_blocksOfChunks, Bool.not_eq_true', decide_eq_false_iff_not]
      exact Nat.ne_of_lt hj

/-- The resource of a file with these contents that the system reads like this. -/
def resourceOf (reads : Reads) (blockSize : Nat) (path : List OsString) (content : List UInt8) :
    FileResource :=
  resourceOfChunks (fileNameOf path) content blockSize (readChunks reads blockSize content)

/-- The resource of a file of the share directory. -/
def FileSystem.resourceAt (fs : FileSystem) (blockSize : Nat) (path : List OsString) :
    FileResource :=
  resourceOf (fs.reads (fs.fullPath path)) blockSize path (fs.contentAt path)

/-- The hash of a resource is the hash of the contents. -/
theorem fileHash_resourceOf {blockSize : Nat} (hb : 0 < blockSize) (reads : Reads)
    (path : List OsString) (content : List UInt8) :
  (resourceOf reads blockSize path content).fileHash = Sha256.hex content
  := by
  rw [resourceOf, resourceOfChunks, flatten_readChunks hb]

theorem indexFile_eq_ok_iff {fs : FileSystem} {root : OsString} {blockSize : Nat}
    {path : List OsString} {resource : FileResource} :
  fs.indexFile root blockSize path = .ok resource ↔
    blockSize < maxAllocation ∧ ∃ content, fs.contents (join root (joinAll path)) = .ok content ∧
      resource = resourceOf (fs.reads (join root (joinAll path))) blockSize path content
  := by
  unfold FileSystem.indexFile
  simp only
  split
  · rename_i h
    simp [h]
  · rename_i h
    simp [h]
  · rename_i h
    split
    · simp [h]
    · simp [h]
  · rename_i content h
    split
    · rename_i hlarge
      simp [hlarge]
    · rename_i hlarge
      simp [h, resourceOf, eq_comm, not_le.mp hlarge]

/-- What a successful scan says: every file can be read, and the index has the resource of each, in
order. -/
theorem scanShareDir_spec {fs : FileSystem} {root : OsString} {blockSize : Nat}
    {index : ResourceIndex} (h : fs.scanShareDir root blockSize = .ok index) :
  0 < blockSize ∧ (∃ readable entries, fs.shareDir = .directory fs.root readable entries) ∧
    (∀ path ∈ fs.files, fs.contents (fs.fullPath path) = .ok (fs.contentAt path)) ∧
    index.resources = fs.files.map (fs.resourceAt blockSize)
  := by
  unfold FileSystem.scanShareDir at h
  split at h
  · simp at h
  rename_i hb
  use Nat.pos_of_ne_zero hb
  split at h
  · simp at h
  · simp at h
  · simp at h
  · rename_i canonical readable entries hdir
    have hroot : fs.root = canonical := by rw [FileSystem.root, hdir]
    obtain ⟨files, hfiles, h⟩ := bind_eq_ok.mp h
    obtain ⟨resources, hresources, h⟩ := bind_eq_ok.mp h
    simp only [pure, Except.pure, Except.ok.injEq] at h
    subst h
    have hsorted : fs.files = files := by
      rw [FileSystem.files, hdir]
      simp only [hfiles]
    have hcontent : ∀ path resource, fs.indexFile canonical blockSize path = .ok resource →
        fs.contents (fs.fullPath path) = .ok (fs.contentAt path) ∧
          resource = fs.resourceAt blockSize path := by
      intro path resource hindex
      obtain ⟨-, content, hcontents, rfl⟩ := indexFile_eq_ok_iff.mp hindex
      rw [← hroot] at hcontents ⊢
      rw [FileSystem.resourceAt, FileSystem.contentAt, FileSystem.fullPath, hcontents]
      exact ⟨rfl, rfl⟩
    rw [hsorted]
    use ⟨readable, entries, by rw [hroot, hdir]⟩
    constructor
    · intro path hpath
      obtain ⟨resource, -, hindex⟩ := exists_of_mapM_eq_ok hresources path hpath
      exact (hcontent path resource hindex).1
    · apply eq_map_of_mapM_eq_ok _ hresources
      intro path _ resource hindex
      exact (hcontent path resource hindex).2

/-- A share directory that can be read is scanned, unless the buffer for a block cannot be
allocated. -/
theorem FileSystem.Readable.exists_scan {fs : FileSystem} (h : fs.Readable) {blockSize : Nat}
    (hb : 0 < blockSize) (hmax : blockSize < maxAllocation) (root : OsString) :
  ∃ index, fs.scanShareDir root blockSize = .ok index
  := by
  obtain ⟨readable, entries, hdir, hfiles⟩ := h.shareDir_eq
  have hindex : Succeeds (fs.files.mapM (fs.indexFile fs.root blockSize)) := by
    rw [succeeds_mapM_iff]
    intro path hpath
    exact ⟨_, indexFile_eq_ok_iff.mpr ⟨hmax, _, h.contents_eq path hpath, rfl⟩⟩
  obtain ⟨resources, hresources⟩ := hindex
  use ⟨resources⟩
  rw [FileSystem.scanShareDir, if_neg (Nat.ne_of_gt hb), hdir]
  apply bind_eq_ok.mpr ⟨fs.files, hfiles, ?_⟩
  exact bind_eq_ok.mpr ⟨resources, hresources, rfl⟩

/-- The path that the scan is given matters only for its messages. -/
theorem scanShareDir_congr {fs : FileSystem} {root : OsString} {blockSize : Nat}
    {index : ResourceIndex} (h : fs.scanShareDir root blockSize = .ok index) (root' : OsString) :
  fs.scanShareDir root' blockSize = .ok index
  := by
  unfold FileSystem.scanShareDir at h ⊢
  split
  · rename_i hb
    simp [hb] at h
  · rename_i hb
    rw [if_neg hb] at h
    cases hdir : fs.shareDir with
    | directory canonical readable entries =>
        rw [hdir] at h
        exact h
    | _ => simp [hdir] at h

theorem mem_parts_of_infix {fs : FileSystem} {root : OsString} {blockSize : Nat}
    {index : ResourceIndex} (hscan : fs.scanShareDir root blockSize = .ok index)
    {path : List OsString} (hpath : path ∈ fs.files) {part : List UInt8}
    (hpart : part <:+: fs.contentAt path) :
  part ∈ fs.parts
  := ⟨path, hpath, fs.contentAt path, Or.inl ((scanShareDir_spec hscan).2.2.1 path hpath), hpart⟩

/-- The file that the server finds for the hash of a file is the first with the same contents. -/
theorem find?_resources {fs : FileSystem} {root : OsString} {blockSize : Nat}
    {index : ResourceIndex} (hscan : fs.scanShareDir root blockSize = .ok index)
    (hcollision : NoCollision fs.parts) {path : List OsString} (hpath : path ∈ fs.files) :
  index.resources.find? (fun resource => resource.fileHash = Sha256.hex (fs.contentAt path))
    = (fs.firstWith (fs.contentAt path)).map (fs.resourceAt blockSize)
  := by
  obtain ⟨hb, -, -, hresources⟩ := scanShareDir_spec hscan
  have hpred : ∀ other ∈ fs.files,
      (decide ((fs.resourceAt blockSize other).fileHash = Sha256.hex (fs.contentAt path)))
        = decide (fs.contentAt other = fs.contentAt path) := by
    intro other hother
    have hwhole : ∀ path ∈ fs.files, fs.contentAt path ∈ fs.parts := fun path hpath =>
      mem_parts_of_infix hscan hpath (List.infix_refl _)
    rw [FileSystem.resourceAt, fileHash_resourceOf hb]
    apply decide_eq_decide.mpr
    apply hcollision.eq_iff (hwhole other hother) (hwhole path hpath)
  have hfind : fs.files.find? ((fun resource => decide (resource.fileHash
        = Sha256.hex (fs.contentAt path))) ∘ fs.resourceAt blockSize)
      = fs.firstWith (fs.contentAt path) := List.find?_congr hpred
  rw [hresources, List.find?_map, hfind]

/-- What the server answers for a block of a file in the index: the bytes that it finds in the place of
a chunk of the first file with the same contents. -/
theorem readBlockByHash_eq {fs : FileSystem} {root : OsString} {blockSize : Nat}
    {index : ResourceIndex} (hscan : fs.scanShareDir root blockSize = .ok index)
    (hcollision : NoCollision fs.parts) {path first : List OsString} (hpath : path ∈ fs.files)
    (hfirst : fs.firstWith (fs.contentAt path) = some first) {i : Nat} {data : LocalBlockData} :
  fs.readBlockByHash blockSize (Sha256.hex (fs.contentAt path)) i = .ok (some data) ↔
    ∃ chunk served bytes, (readChunks (fs.reads (fs.fullPath first)) blockSize
        (fs.contentAt path))[i]? = some chunk ∧
      fs.contents (fs.servedPath first) = .ok served ∧
      readExact served (i * blockSize) chunk.length = some bytes ∧
      data = ⟨Sha256.hex (fs.contentAt path), i, Sha256.hex bytes, bytes.length, bytes⟩
  := by
  obtain ⟨-, ⟨readable, entries, hdir⟩, -⟩ := scanShareDir_spec hscan
  have hsame : fs.contentAt first = fs.contentAt path := by
    simpa using List.find?_some hfirst
  have hresource := find?_resources hscan hcollision hpath
  rw [hfirst, Option.map_some] at hresource
  have hblock : (fs.resourceAt blockSize first).blocks.find? (fun block => block.index = i)
      = (readChunks (fs.reads (fs.fullPath first)) blockSize (fs.contentAt path))[i]?.map
        fun chunk => ⟨i, Sha256.hex chunk, chunk.length⟩ := by
    rw [FileSystem.resourceAt, resourceOf, resourceOfChunks, find?_blocksOfChunks, hsame]
  have hname : (fs.resourceAt blockSize first).fileName = fileNameOf first := rfl
  unfold FileSystem.readBlockByHash
  rw [hdir]
  simp only [scanShareDir_congr hscan fs.root, bind, Except.bind, hresource, hblock, hname]
  rw [← FileSystem.servedPath]
  cases hchunk : (readChunks (fs.reads (fs.fullPath first)) blockSize (fs.contentAt path))[i]? with
  | none => simp [pure, Except.pure]
  | some chunk =>
      rw [Option.map_some]
      cases hserved : fs.contents (fs.servedPath first) with
      | error e => cases e <;> simp
      | ok served =>
          cases hread : readExact served (i * blockSize) chunk.length with
          | none => simp [hread]
          | some bytes => simp [hread, pure, Except.pure, eq_comm]

/-- A block of a file is served as the index has it exactly when the first file with the same contents
has a chunk of its length, and the file that the server opens has the bytes of the block at its
place. -/
theorem served_iff {fs : FileSystem} {root : OsString} {blockSize : Nat} {index : ResourceIndex}
    (hscan : fs.scanShareDir root blockSize = .ok index) (hcollision : NoCollision fs.parts)
    {path first : List OsString} (hpath : path ∈ fs.files)
    (hfirst : fs.firstWith (fs.contentAt path) = some first) (i : Nat) :
  (∃ data, fs.readBlockByHash blockSize (Sha256.hex (fs.contentAt path)) i = .ok (some data) ∧
      data.blockHash = (listedBlock blockSize (fs.contentAt path) i).hash ∧
      Sha256.hex data.bytes = (listedBlock blockSize (fs.contentAt path) i).hash ∧
      data.size = (listedBlock blockSize (fs.contentAt path) i).size ∧
      data.bytes.length = (listedBlock blockSize (fs.contentAt path) i).size) ↔
    (∃ chunk, (readChunks (fs.reads (fs.fullPath first)) blockSize (fs.contentAt path))[i]?
        = some chunk ∧ chunk.length = (Cut.block blockSize (fs.contentAt path) i).length) ∧
      ∃ served, fs.contents (fs.servedPath first) = .ok served ∧
        (served.drop (i * blockSize)).take (Cut.block blockSize (fs.contentAt path) i).length
          = Cut.block blockSize (fs.contentAt path) i
  := by
  have hmem : first ∈ fs.files := List.mem_of_find?_eq_some hfirst
  constructor
  · rintro ⟨data, hread, -, hhex, hsize, -⟩
    obtain ⟨chunk, served, bytes, hchunk, hserved, hexact, rfl⟩ :=
      (readBlockByHash_eq hscan hcollision hpath hfirst).mp hread
    obtain ⟨htake, hlength⟩ := readExact_eq_some_iff.mp hexact
    have hsame : chunk.length = (Cut.block blockSize (fs.contentAt path) i).length :=
      hlength.symm.trans hsize
    refine ⟨⟨chunk, hchunk, hsame⟩, served, hserved, ?_⟩
    rw [← hsame, htake]
    -- The hashes agree, and both are hashes of parts of files.
    apply hcollision _ _ hhex
    · use first, hmem, served, Or.inr hserved
      rw [← htake]
      exact (List.take_prefix _ _).isInfix.trans (List.drop_suffix _ _).isInfix
    · apply mem_parts_of_infix hscan hpath
      apply Cut.block_infix
  · rintro ⟨⟨chunk, hchunk, hlength⟩, served, hserved, htake⟩
    have hexact : readExact served (i * blockSize) chunk.length
        = some (Cut.block blockSize (fs.contentAt path) i) := by
      rw [hlength]
      exact readExact_eq_some_iff.mpr ⟨htake, rfl⟩
    have hread := (readBlockByHash_eq hscan hcollision hpath hfirst).mpr
      ⟨chunk, served, _, hchunk, hserved, hexact, rfl⟩
    exact ⟨_, hread, rfl, rfl, rfl, rfl⟩

omit [Sha256] in
/-- The file that the server opens has every block of the contents at its place exactly when there
are no blocks or it begins with the contents. -/
theorem forall_block_iff {fs : FileSystem} {blockSize : Nat} (hb : 0 < blockSize)
    {content : List UInt8} {first : List OsString} (hfirst : fs.firstWith content = some first) :
  (∀ i < Cut.count blockSize content.length, ∃ served,
      fs.contents (fs.servedPath first) = .ok served ∧
        (served.drop (i * blockSize)).take (Cut.block blockSize content i).length
          = Cut.block blockSize content i) ↔
    content = [] ∨ fs.LeadsBack content
  := by
  constructor
  · intro h
    by_cases hcontent : content = []
    · left
      exact hcontent
    · right
      obtain ⟨served, hserved, -⟩ := h 0 (Cut.count_length_pos hb hcontent)
      use first, served, hfirst, hserved
      apply Cut.prefix_of_forall_block hb
      intro i hi
      obtain ⟨served', hserved', htake⟩ := h i ((Cut.lt_count_iff hb).mpr hi)
      rw [hserved] at hserved'
      rw [Except.ok.inj hserved']
      exact htake
  · rintro (rfl | ⟨first', served, hfirst', hserved, hprefix⟩) i hi
    · rw [List.length_nil, Cut.count_zero] at hi
      exact absurd hi (Nat.not_lt_zero i)
    · rw [hfirst] at hfirst'
      obtain rfl := Option.some.inj hfirst'
      exact ⟨served, hserved, Cut.take_drop_of_prefix hprefix⟩

omit [Sha256] in
/-- The chunks of a file have the lengths of its blocks exactly when every read of it begins at a
block. -/
theorem forall_chunk_iff (fs : FileSystem) {blockSize : Nat} (hb : 0 < blockSize)
    (path : List OsString) :
  (∀ i < Cut.count blockSize (fs.contentAt path).length, ∃ chunk,
      (readChunks (fs.reads (fs.fullPath path)) blockSize (fs.contentAt path))[i]? = some chunk ∧
        chunk.length = (Cut.block blockSize (fs.contentAt path) i).length) ↔
    fs.ReadsBlocks blockSize path
  := by
  have hflatten := flatten_readChunks hb (fs.reads (fs.fullPath path)) (fs.contentAt path)
  rw [FileSystem.ReadsBlocks, ← readChunks_eq_blocks_iff hb]
  constructor
  · intro h
    conv_rhs => rw [← hflatten]
    apply Cut.eq_blocks_of_length hb
    · intro piece hpiece
      exact (Buffered.length_chunk _ piece hpiece).1
    · rw [hflatten]
      exact h
  · intro h i hi
    rw [h]
    refine ⟨_, ?_, rfl⟩
    rw [List.getElem?_eq_getElem (by rwa [Cut.length_blocks]), Cut.getElem_blocks]

/-- If a file is cut into its blocks, its blocks are served exactly when there are none, or the first
file with the same contents is read in blocks too and its name leads back to the contents. -/
theorem serves_iff {fs : FileSystem} {root : OsString} {blockSize : Nat} {index : ResourceIndex}
    (hscan : fs.scanShareDir root blockSize = .ok index) (hcollision : NoCollision fs.parts)
    {path : List OsString} (hpath : path ∈ fs.files) (hblocks : fs.ReadsBlocks blockSize path) :
  fs.Serves blockSize (fs.resourceAt blockSize path) ↔
    fs.contentAt path = [] ∨
      (∃ first, fs.firstWith (fs.contentAt path) = some first ∧ fs.ReadsBlocks blockSize first) ∧
        fs.LeadsBack (fs.contentAt path)
  := by
  obtain ⟨hb, -⟩ := scanShareDir_spec hscan
  obtain ⟨first, -, hfirst⟩ := exists_firstWith hpath
  have hsame : fs.contentAt first = fs.contentAt path := by
    simpa using List.find?_some hfirst
  have hlisted : (fs.resourceAt blockSize path).blocks
      = blocksOfChunks (Cut.blocks blockSize (fs.contentAt path)) := by
    rw [FileSystem.resourceAt, resourceOf, resourceOfChunks,
      (readChunks_eq_blocks_iff hb _ _).mpr hblocks]
  have hreads := forall_chunk_iff fs hb first
  have hplaces := forall_block_iff hb hfirst
  rw [hsame] at hreads
  have hserves : fs.Serves blockSize (fs.resourceAt blockSize path) ↔
      fs.ReadsBlocks blockSize first ∧
        (fs.contentAt path = [] ∨ fs.LeadsBack (fs.contentAt path)) := by
    rw [← hreads, ← hplaces, FileSystem.Serves, FileSystem.resourceAt, fileHash_resourceOf hb,
      ← FileSystem.resourceAt, hlisted, ← forall₂_and]
    constructor
    · intro h i hi
      apply (served_iff hscan hcollision hpath hfirst i).mp
      exact h _ (mem_blocksOfChunks_blocks.mpr ⟨i, hi, rfl⟩)
    · intro h block hblock
      obtain ⟨i, hi, rfl⟩ := mem_blocksOfChunks_blocks.mp hblock
      exact (served_iff hscan hcollision hpath hfirst i).mpr (h i hi)
  rw [hserves]
  constructor
  · rintro ⟨hread, hempty | hleads⟩
    · exact Or.inl hempty
    · exact Or.inr ⟨⟨first, hfirst, hread⟩, hleads⟩
  · rintro (hempty | ⟨⟨first', hfirst', hread⟩, hleads⟩)
    · constructor
      · rw [FileSystem.ReadsBlocks, hsame, hempty]
        exact Reads.aligned_of_le le_rfl
      · exact Or.inl hempty
    · rw [hfirst] at hfirst'
      obtain rfl := Option.some.inj hfirst'
      exact ⟨hread, Or.inr hleads⟩

/-- In a share directory that can be read, the index and the server agree on a file exactly when the
buffer for a block can be allocated, every read of the file begins at a block and, unless the file is
empty, so does every read of the first file with the same contents, whose name leads back to them. -/
theorem indexed_served_iff {fs : FileSystem} (hreadable : fs.Readable) {blockSize : Nat}
    (hb : 0 < blockSize) {path : List OsString} (hpath : path ∈ fs.files)
    (hcollision : NoCollision fs.parts) :
  (∃ resource, fs.indexFile fs.root blockSize path = .ok resource ∧
      BlocksExact blockSize (fs.contentAt path) resource.blocks ∧ fs.Serves blockSize resource) ↔
    blockSize < maxAllocation ∧ fs.ReadsBlocks blockSize path ∧
      (fs.contentAt path = [] ∨
        (∃ first, fs.firstWith (fs.contentAt path) = some first ∧ fs.ReadsBlocks blockSize first) ∧
          fs.LeadsBack (fs.contentAt path))
  := by
  have hindex : ∀ resource, fs.indexFile fs.root blockSize path = .ok resource ↔
      blockSize < maxAllocation ∧ resource = fs.resourceAt blockSize path := by
    intro resource
    rw [indexFile_eq_ok_iff]
    apply and_congr_right
    intro _
    constructor
    · rintro ⟨content, hcontent, rfl⟩
      rw [← FileSystem.fullPath, hreadable.contents_eq path hpath] at hcontent
      rw [← Except.ok.inj hcontent]
      rfl
    · rintro rfl
      exact ⟨_, hreadable.contents_eq path hpath, rfl⟩
  have hexact : BlocksExact blockSize (fs.contentAt path) (fs.resourceAt blockSize path).blocks ↔
      fs.ReadsBlocks blockSize path := by
    rw [FileSystem.resourceAt, resourceOf, resourceOfChunks,
      blocksExact_iff hb (flatten_readChunks hb _ _), readChunks_eq_blocks_iff hb,
      FileSystem.ReadsBlocks]
  constructor
  · rintro ⟨resource, hresource, hblocks, hserves⟩
    obtain ⟨hmax, rfl⟩ := (hindex resource).mp hresource
    obtain ⟨index, hscan⟩ := hreadable.exists_scan hb hmax fs.root
    have hread := hexact.mp hblocks
    exact ⟨hmax, hread, (serves_iff hscan hcollision hpath hread).mp hserves⟩
  · rintro ⟨hmax, hread, hserves⟩
    obtain ⟨index, hscan⟩ := hreadable.exists_scan hb hmax fs.root
    exact ⟨_, (hindex _).mpr ⟨hmax, rfl⟩, hexact.mpr hread,
      (serves_iff hscan hcollision hpath hread).mpr hserves⟩

end Sha256

/-- A name that is UTF-8 and has no backslash is as it is in the index. -/
theorem fileNameOf_of_plain {path : List OsString} {name : String}
    (hname : joinAll path = utf8 name) (hplain : Char.ofNat 0x5C ∉ name.toList) :
  fileNameOf path = name
  := by
  rw [fileNameOf, hname, toStringLossy_utf8, List.map_congr_left (g := id)]
  · rw [List.map_id, String.ofList_toList]
  · intro c hc
    rw [if_neg]
    · rfl
    · rintro rfl
      exact hplain hc

/-- Such a name leads back to its file. -/
theorem servedPath_of_plain {fs : FileSystem} {path : List OsString} {name : String}
    (hname : joinAll path = utf8 name) (hplain : Char.ofNat 0x5C ∉ name.toList) :
  fs.servedPath path = fs.fullPath path
  := by
  rw [FileSystem.servedPath, FileSystem.fullPath, fileNameOf_of_plain hname hplain, hname]

/-- If all names are UTF-8 and have no backslash, every file's name leads back to its contents. -/
theorem leadsBack_of_plain [Sha256] {fs : FileSystem} {root : OsString} {blockSize : Nat}
    {index : ResourceIndex} (hscan : fs.scanShareDir root blockSize = .ok index)
    (hplain : ∀ path ∈ fs.files, ∃ name : String, joinAll path = utf8 name ∧
      Char.ofNat 0x5C ∉ name.toList) {path : List OsString} (hpath : path ∈ fs.files) :
  fs.LeadsBack (fs.contentAt path)
  := by
  obtain ⟨first, hmem, hfirst⟩ := exists_firstWith hpath
  obtain ⟨name, hname, hbackslash⟩ := hplain first hmem
  have hsame : fs.contentAt first = fs.contentAt path := by
    simpa using List.find?_some hfirst
  use first, fs.contentAt first, hfirst
  constructor
  · rw [servedPath_of_plain hname hbackslash]
    apply (scanShareDir_spec hscan).2.2.1 first hmem
  · exact hsame ▸ List.prefix_refl _

/-! ### Share directories with a few files -/

/-- The reads of a system that returns no more than 2147479552 bytes at once. -/
def linuxReads : Reads := .upTo 2147479552 (by decide)

theorem whole_linuxReads {m length : Nat} (h : m ≤ 2147479552 ∨ length ≤ 2147479552) :
  linuxReads.Whole m length
  := Reads.whole_upTo _ h

/-- Such a system reads files in blocks if the block size divides the capacity of a reader's buffer. -/
theorem aligned_linuxReads {n : Nat} (h : n ∣ capacity) (length : Nat) :
  linuxReads.Aligned (max capacity n) n 0 length
  := by
  have hle : n ≤ capacity := Nat.le_of_dvd (by decide) h
  apply (aligned_iff_of_whole (whole_linuxReads (Or.inl _))).mpr (Or.inr (Or.inl h))
  rw [Nat.max_eq_left hle]
  decide

/-- The share directory `/share` with one file. -/
def singleFile (name : String) (content : List UInt8) : FileSystem where
  path := utf8 "/share"
  shareDir := .directory (utf8 "/share") true [.file (utf8 name)]
  contents path :=
    if path = join (utf8 "/share") (utf8 name) then .ok content else .error .openFile
  reads _ := linuxReads

/-- The share directory `/share` with two files. -/
def twoFiles (name name' : String) (content content' : List UInt8) : FileSystem where
  path := utf8 "/share"
  shareDir := .directory (utf8 "/share") true [.file (utf8 name), .file (utf8 name')]
  contents path :=
    if path = join (utf8 "/share") (utf8 name) then .ok content
    else if path = join (utf8 "/share") (utf8 name') then .ok content'
    else .error .openFile
  reads _ := linuxReads

/-- Of the contents of two files, each of which is a part of the second, there are no other parts. -/
theorem parts_twoFiles_subset {name name' : String} {content content' : List UInt8}
    (hpart : content <:+: content') :
  (twoFiles name name' content content').parts ⊆ fun part => part <:+: content'
  := by
  rintro part ⟨path, -, served, hserved, hinside⟩
  have hsame : served = content ∨ served = content' := by
    rcases hserved with h | h
    all_goals
      dsimp only [twoFiles] at h
      split at h
      · exact Or.inl (Except.ok.inj h).symm
      split at h
      · exact Or.inr (Except.ok.inj h).symm
      · cases h
  rcases hsame with rfl | rfl
  · exact hinside.trans hpart
  · exact hinside

/-- Beside another file, a file of two blocks is indexed and served alike. -/
theorem indexed_served_twoFiles :
  let _ := Sha256.short
  ∃ resource, (twoFiles "a" "ab" [97] [97, 98]).indexFile (utf8 "/share") 1 [utf8 "ab"]
      = .ok resource ∧ BlocksExact 1 [97, 98] resource.blocks ∧
    (twoFiles "a" "ab" [97] [97, 98]).Serves 1 resource
  := by
  intro _
  have hcollision : NoCollision (twoFiles "a" "ab" [97] [97, 98]).parts := by
    apply noCollision_short
    intro part hpart
    exact (parts_twoFiles_subset (by decide) hpart).sublist
  have hreadable : (twoFiles "a" "ab" [97] [97, 98]).Readable := by
    constructor
    · exact ⟨true, _, rfl, by decide +kernel⟩
    · decide +kernel
  have hread : (twoFiles "a" "ab" [97] [97, 98]).ReadsBlocks 1 [utf8 "ab"] :=
    aligned_linuxReads (Nat.one_dvd capacity) _
  have hmem : [utf8 "ab"] ∈ (twoFiles "a" "ab" [97] [97, 98]).files := by decide +kernel
  apply (indexed_served_iff hreadable Nat.one_pos hmem hcollision).mpr
  refine ⟨by decide, hread, Or.inr ⟨⟨_, by decide +kernel, hread⟩, ?_⟩⟩
  exact ⟨[utf8 "ab"], [97, 98], by decide +kernel, by decide +kernel, List.prefix_refl _⟩

/-- A file of 8193 bytes that is cut into blocks of 1000: the ninth block in the index has 192 bytes,
since the buffer of the reader runs out there. -/
theorem not_blocksExact_singleFile :
  let _ := Sha256.short
  let content := List.replicate 8193 0
  ∃ resource, (singleFile "a" content).indexFile (utf8 "/share") 1000 [utf8 "a"] = .ok resource ∧
    ¬ BlocksExact 1000 content resource.blocks
  := by
  intro _ content
  use resourceOf linuxReads 1000 [utf8 "a"] content, rfl
  rw [resourceOf, resourceOfChunks,
    blocksExact_iff (by decide) (flatten_readChunks (by decide) linuxReads content),
    readChunks_eq_blocks_iff (by decide),
    aligned_iff_of_whole (whole_linuxReads (Or.inl (by decide)))]
  rintro (h | h | h)
  · exact absurd h (by decide)
  · exact absurd h (by decide)
  · rw [List.length_replicate] at h
    exact absurd h (by decide)

end Node
