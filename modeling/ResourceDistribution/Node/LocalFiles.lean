import ResourceDistribution.Data.Buffered
import ResourceDistribution.Data.Keyed
import ResourceDistribution.Node.OsString
import ResourceDistribution.Node.Sha256

/-!
# The files of the share directory

`local_files.rs`: the scan of the share directory, which cuts every file into blocks, and the
function that reads one block of a file to serve it. The operating system is the structure
`FileSystem`; it does not change during a call. How much of a file one read returns is part of it.
-/

namespace Node

/-! ### The file system -/

/-- What `fs::read_dir` and `DirEntry::metadata` say of an entry of a directory. An entry that is
neither a file nor a directory may be a symbolic link. -/
inductive Entry where
  | file (name : OsString)
  | dir (name : OsString) (entries : List Entry)
  | other (name : OsString)
  | unreadableDir (name : OsString)
  | unreadableMetadata (name : OsString)
  | unreadableEntry

/-- What the path of the share directory leads to. -/
inductive ShareDir where
  | missing
  | notDirectory (canonical : OsString)
  | unresolved
  | directory (canonical : OsString) (readable : Bool) (entries : List Entry)

/-- A step of reading a file that may fail. -/
inductive FileError where
  | openFile
  | metadata
  | read
  deriving DecidableEq

/-- The parts of the operating system that the node's functions see: the path of the share directory
and what is there, and for every path the contents of the file there and how many bytes of it the
system returns to a read. -/
structure FileSystem where
  path : OsString
  shareDir : ShareDir
  contents : OsString → Except FileError (List UInt8)
  reads : OsString → Reads

/-! ### Buffered reading -/

/-- The capacity of a `BufReader`. -/
def capacity : Nat := 8192

/-- The chunks that `index_file` reads: what `reader.read(&mut buffer)` on a `BufReader` of the file
returns to a buffer of `blockSize` bytes, until it returns nothing. -/
def readChunks (reads : Reads) (blockSize : Nat) (content : List UInt8) : List (List UInt8) :=
  (Buffered.reader reads capacity blockSize).chunks (.new content)

/-- The number of bytes from which on a buffer cannot be allocated: `vec!` panics. -/
def maxAllocation : Nat := 2 ^ 63

section Sha256

variable [Sha256]

/-! ### The index -/

/-- One block of a file in the index. -/
structure BlockResource where
  index : Nat
  hash : String
  size : Nat
  deriving DecidableEq

/-- One file in the index. -/
structure FileResource where
  fileHash : String
  fileName : String
  fileSize : Nat
  blockSize : Nat
  blocks : List BlockResource
  deriving DecidableEq

/-- The index of the share directory. -/
structure ResourceIndex where
  resources : List FileResource
  deriving DecidableEq

/-- The blocks that the chunks read from a file make. -/
def blocksOfChunks (chunks : List (List UInt8)) : List BlockResource :=
  chunks.mapIdx fun i chunk => ⟨i, Sha256.hex chunk, chunk.length⟩

/-- What `index_file` returns for a file with these contents that is read in these chunks. -/
def resourceOfChunks (fileName : String) (content : List UInt8) (blockSize : Nat)
    (chunks : List (List UInt8)) : FileResource where
  fileHash := Sha256.hex chunks.flatten
  fileName := fileName
  fileSize := content.length
  blockSize := blockSize
  blocks := blocksOfChunks chunks

/-- The name a file has in the index: its path below the share directory. -/
def fileNameOf (path : List OsString) : String :=
  String.ofList ((toStringLossy (joinAll path)).toList.map fun c =>
    if c = Char.ofNat 0x5C then '/' else c)

/-- `index_file(root, path, block_size)`, where `path` is relative to `root`. The panic of `vec!` counts
as an error. -/
def FileSystem.indexFile (fs : FileSystem) (root : OsString) (blockSize : Nat)
    (path : List OsString) : Except String FileResource :=
  let full := join root (joinAll path)
  match fs.contents full with
  | .error .openFile => .error s!"failed to open file: {toStringLossy full}"
  | .error .metadata => .error s!"failed to read metadata: {toStringLossy full}"
  | .error .read =>
      if maxAllocation ≤ blockSize then .error "capacity overflow"
      else .error s!"failed to read file: {toStringLossy full}"
  | .ok content =>
      if maxAllocation ≤ blockSize then .error "capacity overflow"
      else
        .ok (resourceOfChunks (fileNameOf path) content blockSize
          (readChunks (fs.reads full) blockSize content))

mutual

/-- One round of the loop of `collect_files_inner`. -/
def collectEntry (root : OsString) (dir : List OsString) :
    Entry → Except String (List (List OsString))
  | .file name => .ok [dir ++ [name]]
  | .dir name entries => collectEntries root (dir ++ [name]) entries
  | .other _ => .ok []
  | .unreadableDir name =>
      .error s!"failed to read directory: {toStringLossy (join root (joinAll (dir ++ [name])))}"
  | .unreadableMetadata name =>
      .error s!"failed to read metadata: {toStringLossy (join root (joinAll (dir ++ [name])))}"
  | .unreadableEntry =>
      .error s!"failed to read entry under: {toStringLossy (join root (joinAll dir))}"

/-- The loop of `collect_files_inner`: the paths of the files below a directory. -/
def collectEntries (root : OsString) (dir : List OsString) :
    List Entry → Except String (List (List OsString))
  | [] => .ok []
  | entry :: rest => do
      let files ← collectEntry root dir entry
      let others ← collectEntries root dir rest
      return files ++ others

end

/-- `collect_files(root)`, with the paths relative to `root`. -/
def collectFiles (root : OsString) (readable : Bool) (entries : List Entry) :
    Except String (List (List OsString)) :=
  if readable then collectEntries root [] entries
  else .error s!"failed to read directory: {toStringLossy root}"

/-- The key by which `files.sort()` orders paths: their components, by bytes. -/
def pathKey (path : List OsString) : List (List Nat) := path.map fun name => name.map UInt8.toNat

/-- The paths of the files in the order of the index. -/
def sortedFiles (root : OsString) (readable : Bool) (entries : List Entry) :
    Except String (List (List OsString)) :=
  Keyed.sortBy pathKey <$> collectFiles root readable entries

/-- `scan_share_dir(root, block_size)`, where `root` is a path of the share directory. -/
def FileSystem.scanShareDir (fs : FileSystem) (root : OsString) (blockSize : Nat) :
    Except String ResourceIndex :=
  if blockSize = 0 then .error "block_size must be greater than 0"
  else
    match fs.shareDir with
    | .missing => .error s!"share directory does not exist: {toStringLossy root}"
    | .notDirectory _ => .error s!"share path is not a directory: {toStringLossy root}"
    | .unresolved => .error s!"failed to resolve share directory: {toStringLossy root}"
    | .directory root readable entries => do
        let files ← sortedFiles root readable entries
        let resources ← files.mapM (fs.indexFile root blockSize)
        return ⟨resources⟩

/-! ### Serving -/

/-- A block of a file, as it is served. -/
structure LocalBlockData where
  fileHash : String
  blockIndex : Nat
  blockHash : String
  size : Nat
  bytes : List UInt8
  deriving DecidableEq

/-- `file.seek(SeekFrom::Start(offset))` and `file.read_exact(&mut bytes)` with `size` bytes. -/
def readExact (content : List UInt8) (offset size : Nat) : Option (List UInt8) :=
  let bytes := (content.drop offset).take size
  if bytes.length = size then some bytes else none

/-- `read_block_by_hash(root, block_size, file_hash, block_index)`. -/
def FileSystem.readBlockByHash (fs : FileSystem) (blockSize : Nat) (fileHash : String)
    (blockIndex : Nat) : Except String (Option LocalBlockData) :=
  match fs.shareDir with
  | .directory root _ _ => do
      let index ← fs.scanShareDir root blockSize
      match index.resources.find? fun resource => resource.fileHash = fileHash with
      | none => return none
      | some resource =>
          match resource.blocks.find? fun block => block.index = blockIndex with
          | none => return none
          | some block =>
              let path := join root (utf8 resource.fileName)
              match fs.contents path with
              | .error .openFile | .error .metadata =>
                  .error s!"failed to open file: {toStringLossy path}"
              | .error .read => .error s!"failed to read block from file: {toStringLossy path}"
              | .ok content =>
                  match readExact content (blockIndex * blockSize) block.size with
                  | none => .error s!"failed to read block from file: {toStringLossy path}"
                  | some bytes =>
                      return some ⟨fileHash, blockIndex, Sha256.hex bytes, bytes.length, bytes⟩
  | .notDirectory root => fs.scanShareDir root blockSize >>= fun _ => .ok none
  | .missing | .unresolved => .error s!"failed to resolve share directory: {toStringLossy fs.path}"

end Sha256

end Node
