import ResourceDistribution.Node.LocalFiles
import ResourceDistribution.Python.Json

/-!
# What the node and the tracker send each other

The data types of `tracker_dto.rs` that a node publishes with and downloads by. `toJson` is the value
the tracker's `json.loads` makes of what `serde_json` writes.
-/

open Python

namespace Node

/-- A block of a resource. -/
structure TrackerBlock where
  index : Nat
  hash : String
  size : Nat
  deriving DecidableEq

/-- A resource of an update. -/
structure TrackerResource where
  fileHash : String
  fileName : String
  fileSize : Nat
  blockSize : Nat
  blocks : List TrackerBlock

/-- An update. -/
structure UpdateNodeRequest where
  nodeId : String
  host : String
  port : Nat
  resources : List TrackerResource
  metadata : List (String × Json)

/-- A holder of a file, in the answer to a query. -/
structure PeerLocation where
  nodeId : String
  host : String
  port : Nat
  lastSeen : String
  expiresAt : String
  blocks : List TrackerBlock
  deriving DecidableEq

/-- A file, in the answer to a query. -/
structure FileLocation where
  fileHash : String
  fileName : String
  fileSize : Option Nat
  blockSize : Option Nat
  peers : List PeerLocation
  availableBlocks : List Nat
  deriving DecidableEq

/-- The answer to a query. -/
structure QueryResponse where
  locations : List FileLocation
  deriving DecidableEq

/-! ### Requests -/

/-- `TrackerBlock::from(block)`. -/
def TrackerBlock.from (block : BlockResource) : TrackerBlock where
  index := block.index
  hash := block.hash
  size := block.size

/-- `TrackerResource::from(resource)`. -/
def TrackerResource.from (resource : FileResource) : TrackerResource where
  fileHash := resource.fileHash
  fileName := resource.fileName
  fileSize := resource.fileSize
  blockSize := resource.blockSize
  blocks := resource.blocks.map .from

/-- `default_node_metadata()`. -/
def defaultNodeMetadata : List (String × Json) :=
  [("client", .str (Str.ofString "rust-resource-node"))]

/-- `update_request_from_index(node_id, host, port, index)`. -/
def updateRequestFromIndex (nodeId host : String) (port : Nat) (index : ResourceIndex) :
    UpdateNodeRequest where
  nodeId := nodeId
  host := host
  port := port
  resources := index.resources.map .from
  metadata := defaultNodeMetadata

/-- A string as JSON. -/
def jsonOfString (s : String) : Json := .str (Str.ofString s)

/-- A number as JSON. -/
def jsonOfNat (n : Nat) : Json := .int n

/-- An object with these fields, as JSON. -/
def jsonOfFields (fields : List (String × Json)) : Json :=
  .dict (fields.map fun i => (Str.ofString i.1, i.2))

/-- A block as JSON. -/
def TrackerBlock.toJson (block : TrackerBlock) : Json :=
  jsonOfFields [
    ("index", jsonOfNat block.index),
    ("hash", jsonOfString block.hash),
    ("size", jsonOfNat block.size)]

/-- A resource as JSON. -/
def TrackerResource.toJson (resource : TrackerResource) : Json :=
  jsonOfFields [
    ("file_hash", jsonOfString resource.fileHash),
    ("file_name", jsonOfString resource.fileName),
    ("file_size", jsonOfNat resource.fileSize),
    ("block_size", jsonOfNat resource.blockSize),
    ("blocks", .list (resource.blocks.map TrackerBlock.toJson))]

/-- An update as JSON. -/
def UpdateNodeRequest.toJson (request : UpdateNodeRequest) : Json :=
  jsonOfFields [
    ("node_id", jsonOfString request.nodeId),
    ("host", jsonOfString request.host),
    ("port", jsonOfNat request.port),
    ("resources", .list (request.resources.map TrackerResource.toJson)),
    ("metadata", jsonOfFields request.metadata)]

/-! ### Answers -/

/-- A field of an object that must be there. -/
def field (items : List (Str × Json)) (name : String) : Option Json :=
  items.lookup (Str.ofString name)

@[simp]
theorem field_nil (name : String) :
  field [] name = none
  := rfl

/-- Looking a field up in front of which another stands. -/
@[simp]
theorem field_cons (k : String) (v : Json) (items : List (Str × Json)) (name : String) :
  field ((Str.ofString k, v) :: items) name = if name = k then some v else field items name
  := by
  unfold field
  by_cases h : name = k
  · simp [h]
  · have hb : (Str.ofString name == Str.ofString k) = false := by simpa using h
    rw [List.lookup_cons, hb]
    simp [h]

/-- A `String`. -/
def readString : Json → Option String
  | .str s => s.toString?
  | _ => none

/-- A number of an unsigned type with `bits` bits. -/
def readUnsigned (bits : Nat) : Json → Option Nat
  | .int n => if 0 ≤ n ∧ n < 2 ^ bits then some n.toNat else none
  | _ => none

/-- An `Option` field, which may be missing. -/
def readOption {α : Type} (read : Json → Option α) : Option Json → Option (Option α)
  | none => some none
  | some .null => some none
  | some v => (read v).map some

/-- A `Vec`. -/
def readVec {α : Type} (read : Json → Option α) : Json → Option (List α)
  | .list items => items.mapM read
  | _ => none

/-- What `serde` makes of a block. A `usize` has 64 bits. -/
def TrackerBlock.read : Json → Option TrackerBlock
  | .dict items => do
      let index ← field items "index" >>= readUnsigned 64
      let hash ← field items "hash" >>= readString
      let size ← field items "size" >>= readUnsigned 64
      return ⟨index, hash, size⟩
  | _ => none

/-- What `serde` makes of a peer. -/
def PeerLocation.read : Json → Option PeerLocation
  | .dict items => do
      let nodeId ← field items "node_id" >>= readString
      let host ← field items "host" >>= readString
      let port ← field items "port" >>= readUnsigned 16
      let lastSeen ← field items "last_seen" >>= readString
      let expiresAt ← field items "expires_at" >>= readString
      let blocks ← field items "blocks" >>= readVec TrackerBlock.read
      return ⟨nodeId, host, port, lastSeen, expiresAt, blocks⟩
  | _ => none

/-- What `serde` makes of a location. -/
def FileLocation.read : Json → Option FileLocation
  | .dict items => do
      let fileHash ← field items "file_hash" >>= readString
      let fileName ← field items "file_name" >>= readString
      let fileSize ← readOption (readUnsigned 64) (field items "file_size")
      let blockSize ← readOption (readUnsigned 64) (field items "block_size")
      let peers ← field items "peers" >>= readVec PeerLocation.read
      let availableBlocks ← field items "available_blocks" >>= readVec (readUnsigned 64)
      return ⟨fileHash, fileName, fileSize, blockSize, peers, availableBlocks⟩
  | _ => none

/-- What `serde` makes of the answer to a query. -/
def QueryResponse.read : Json → Option QueryResponse
  | .dict items => do
      let locations ← field items "locations" >>= readVec FileLocation.read
      return ⟨locations⟩
  | _ => none

end Node
