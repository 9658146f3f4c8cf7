import Mathlib.Data.Prod.Lex
import ResourceDistribution.Data.Dict
import ResourceDistribution.Tracker.Normalize

/-!
# The registry

The methods of `TrackerRegistry` on the map from node ids to records it keeps in memory. Each is a
function of that map, of the call's arguments and of the reading `now` of the clock the call takes,
and returns the call's result with the map it leaves. A call that raises before it touches the map
returns the exception alone. Saving the map to the state file is in
`ResourceDistribution.Tracker.Persistence`.
-/

open Python

namespace Tracker

/-! ### Time -/

/-- A reading of the clock, in ticks of `2 ^ -22` seconds since the epoch. This is the distance
between the floats `time.time()` returns from 2004 to 2038, so that adding a whole number of
seconds to a reading is exact. -/
abbrev Time := ℤ

/-- The number of ticks in a second. -/
def ticksPerSecond : ℤ := 4194304

/-- At least `width` decimal digits of a number. -/
def decimal (width : Nat) (n : ℤ) : List Char :=
  let ds := Nat.toDigits 10 n.toNat
  List.replicate (width - ds.length) '0' ++ ds

/-- `time.strftime("%Y-%m-%dT%H:%M:%SZ", time.gmtime(ts))`. The date is counted in eras of
400 years that begin on the first of March. -/
def isoString (ts : Time) : String :=
  let seconds := ts / ticksPerSecond
  let days := seconds / 86400 + 719468
  let second := seconds % 86400
  let era := days / 146097
  let dayOfEra := days % 146097
  let yearOfEra := (dayOfEra - dayOfEra / 1460 + dayOfEra / 36524 - dayOfEra / 146096) / 365
  let dayOfYear := dayOfEra - (365 * yearOfEra + yearOfEra / 4 - yearOfEra / 100)
  let month := (5 * dayOfYear + 2) / 153
  let day := dayOfYear - (153 * month + 2) / 5 + 1
  let year := yearOfEra + era * 400 + (if month < 10 then 0 else 1)
  let month := if month < 10 then month + 3 else month - 9
  String.ofList (decimal 1 year ++ '-' :: decimal 2 month ++ '-' :: decimal 2 day
    ++ 'T' :: decimal 2 (second / 3600) ++ ':' :: decimal 2 (second / 60 % 60)
    ++ ':' :: decimal 2 (second % 60) ++ ['Z'])

/-- `_iso(ts)`. -/
def iso (ts : Time) : Str := Str.ofString (isoString ts)

/-! ### Records -/

/-- What the registry stores for one node. -/
structure Record where
  nodeId : Str
  host : Str
  port : ℤ
  lastSeen : Str
  lastSeenEpoch : Time
  expiresAt : Str
  expiresAtEpoch : Time
  resources : List Resource
  metadata : List (Str × Json)

/-- `self._nodes`. -/
abbrev Nodes := Dict Str Record

/-- A string argument that may be `None`, as a value. -/
def ofOptional : Option Str → Json
  | none => .null
  | some s => .str s

section UnicodeData

variable [UnicodeData]

/-- `raw_resources`: the resources of an update, under either of their names. -/
def rawResources (items : List (Str × Json)) : Except Exc (List Json) :=
  match Json.getD items "resources" (Json.get items "files") with
  | .null => .ok []
  | .list resources => .ok resources
  | _ => invalid "resources must be a list"

/-- The `port` of an update. -/
def asPort (items : List (Str × Json)) : Except Exc ℤ := do
  let port ← asInt (Json.get items "port") "port" (some 1)
  if 65535 < port then invalid "port must be <= 65535" else return port

/-- The `metadata` of an update, if it is an object. -/
def metadataOf (items : List (Str × Json)) : List (Str × Json) :=
  match Json.get items "metadata" with
  | .dict metadata => metadata
  | _ => []

/-- The part of `update_node` before the lock: the record an update at `now` makes of its
payload. -/
def updateRecord (nodeTtlSeconds : ℤ) (payload : Json) (remoteHost : Option Str) (now : Time) :
    Except Exc Record :=
  match payload with
  | .dict items => do
      let nodeId ← asNonEmptyString (Json.get items "node_id") "node_id"
      let host ← asNonEmptyString
        ((((Json.get items "host").or (Json.get items "address")).or (Json.get items "ip")).or
          (ofOptional remoteHost)) "host"
      let port ← asPort items
      let raw ← rawResources items
      let resources ← raw.mapM normalizeResource
      let expires := now + nodeTtlSeconds * ticksPerSecond
      return {
        nodeId, host, port, resources
        lastSeen := iso now
        lastSeenEpoch := now
        expiresAt := iso expires
        expiresAtEpoch := expires
        metadata := metadataOf items }
  | _ => invalid "update payload must be a JSON object"

end UnicodeData

/-! ### The file index -/

/-- One holder of a file, as the index lists it. -/
structure Peer where
  nodeId : Str
  host : Str
  port : ℤ
  lastSeen : Str
  expiresAt : Str
  blocks : List Block
  deriving DecidableEq

/-- What the index says of one file. -/
structure IndexEntry where
  fileHash : Str
  fileName : Str
  fileSize : Option ℤ
  blockSize : Option ℤ
  peers : List Peer
  availableBlocks : List ℤ
  deriving DecidableEq

/-- The file index, by file hash. -/
abbrev FileIndex := Dict Str IndexEntry

/-- The peer that `node` is for `resource`. -/
def peerOf (node : Record) (resource : Resource) : Peer where
  nodeId := node.nodeId
  host := node.host
  port := node.port
  lastSeen := node.lastSeen
  expiresAt := node.expiresAt
  blocks := resource.blocks

/-- `sorted(set(xs))`. -/
def sortedSet (xs : List ℤ) : List ℤ := Keyed.sortBy id xs.dedup

/-- The entry `index.setdefault` makes for a file hash it does not find. -/
def newEntry (resource : Resource) : IndexEntry where
  fileHash := resource.fileHash
  fileName := resource.fileName
  fileSize := resource.fileSize
  blockSize := resource.blockSize
  peers := []
  availableBlocks := []

/-- Add one holder to an entry. -/
def addHolder (entry : IndexEntry) (node : Record) (resource : Resource) : IndexEntry :=
  { entry with
    peers := entry.peers ++ [peerOf node resource]
    availableBlocks := sortedSet (entry.availableBlocks ++ resource.blocks.map Block.index)
    fileSize := entry.fileSize.or resource.fileSize
    blockSize := entry.blockSize.or resource.blockSize }

/-- One round of the inner loop of `build_file_index`. -/
def indexResource (node : Record) (index : FileIndex) (resource : Resource) : FileIndex :=
  let entry := (index.get? resource.fileHash).getD (newEntry resource)
  index.set resource.fileHash (addHolder entry node resource)

/-- The loops of `build_file_index` over the nodes and their resources. -/
def fileIndex (nodes : Nodes) : FileIndex :=
  nodes.values.foldl (fun index node => node.resources.foldl (indexResource node) index) Dict.empty

/-! ### Operations -/

/-- Whether a record has expired at `now`. -/
def Record.expired (now : Time) (record : Record) : Bool := record.expiresAtEpoch ≤ now

/-- `cleanup_expired()`: the ids removed. -/
def cleanupExpired (nodes : Nodes) (now : Time) : List Str × Nodes :=
  let expired := (nodes.filter fun _ record => record.expired now).keys
  (expired, expired.foldl Dict.erase nodes)

/-- `self.cleanup_expired()`, unless `include_expired`. -/
def afterCleanup (nodes : Nodes) (now : Time) (includeExpired : Bool) : Nodes :=
  if includeExpired then nodes else (cleanupExpired nodes now).2

/-- `build_file_index(include_expired)`. -/
def buildFileIndex (nodes : Nodes) (now : Time) (includeExpired : Bool) : FileIndex × Nodes :=
  let nodes := afterCleanup nodes now includeExpired
  (fileIndex nodes, nodes)

/-- The answer to an update. -/
structure UpdateResponse where
  nodeId : Str
  registeredResources : Nat
  knownFiles : Nat
  expiresAt : Str
  serverTime : Str

/-- `mark_node_offline(node_id)`: whether the node was registered. -/
def markNodeOffline (nodes : Nodes) (nodeId : Json) : Except Exc (Bool × Nodes) := do
  let nodeId ← asNonEmptyString nodeId "node_id"
  let existed := (nodes.get? nodeId).isSome
  return (existed, nodes.erase nodeId)

/-- What `list_nodes` and `get_node` show of a record. -/
structure PublicNode where
  nodeId : Str
  host : Str
  port : ℤ
  lastSeen : Str
  expiresAt : Str
  resourceCount : Nat
  resources : List Resource
  metadata : List (Str × Json)

/-- `_public_node(record)`. -/
def publicNode (record : Record) : PublicNode where
  nodeId := record.nodeId
  host := record.host
  port := record.port
  lastSeen := record.lastSeen
  expiresAt := record.expiresAt
  resourceCount := record.resources.length
  resources := record.resources
  metadata := record.metadata

/-- `list_nodes(include_expired)`. -/
def listNodes (nodes : Nodes) (now : Time) (includeExpired : Bool) : List PublicNode × Nodes :=
  let nodes := afterCleanup nodes now includeExpired
  (nodes.values.map publicNode, nodes)

/-- `get_node(node_id)`. -/
def getNode (nodes : Nodes) (nodeId : Json) (now : Time) :
    Except Exc (Option PublicNode × Nodes) := do
  let nodeId ← asNonEmptyString nodeId "node_id"
  let nodes := (cleanupExpired nodes now).2
  return ((nodes.get? nodeId).map publicNode, nodes)

/-- The key `list_files` and `find_file_locations` sort by. -/
def nameAndHash (fileName fileHash : Str) : List Nat ×ₗ List Nat :=
  toLex (fileName.codes, fileHash.codes)

/-- What `list_files` says of one file. -/
structure FileSummary where
  fileHash : Str
  fileName : Str
  fileSize : Option ℤ
  blockSize : Option ℤ
  peerCount : Nat
  availableBlocks : List ℤ
  deriving DecidableEq

/-- The summary of an entry. -/
def summaryOf (entry : IndexEntry) : FileSummary where
  fileHash := entry.fileHash
  fileName := entry.fileName
  fileSize := entry.fileSize
  blockSize := entry.blockSize
  peerCount := entry.peers.length
  availableBlocks := entry.availableBlocks

/-- `list_files()`. -/
def listFiles (nodes : Nodes) (now : Time) : List FileSummary × Nodes :=
  let (index, nodes) := buildFileIndex nodes now false
  (Keyed.sortBy (fun f => nameAndHash f.fileName f.fileHash) (index.values.map summaryOf), nodes)

/-- A criterion of a query, stripped, if it is given and not empty. -/
def criterion (value : Option Str) : Option Str :=
  (value.filter (· ≠ [])).map Str.strip

/-- Whether a value passes a criterion. A criterion that was stripped to nothing excludes
nothing. -/
def passes (criterion : Option Str) (value : Str) : Bool :=
  match criterion with
  | none => true
  | some c => c = [] ∨ value = c

/-- `find_file_locations(file_hash, file_name)`. -/
def findFileLocations (nodes : Nodes) (fileHash fileName : Option Str) (now : Time) :
    Except Exc (List IndexEntry × Nodes) :=
  let hash := criterion fileHash
  let name := criterion fileName
  if hash = none ∧ name = none then invalid "file_hash or file_name is required"
  else
    let (index, nodes) := buildFileIndex nodes now false
    let results := index.values.filter fun entry =>
      passes hash entry.fileHash && passes name entry.fileName
    .ok (Keyed.sortBy (fun e => nameAndHash e.fileName e.fileHash) results, nodes)

variable [UnicodeData]

/-- `update_node(payload, remote_host)`. -/
def updateNode (nodeTtlSeconds : ℤ) (nodes : Nodes) (payload : Json) (remoteHost : Option Str)
    (now : Time) : Except Exc (UpdateResponse × Nodes) := do
  let record ← updateRecord nodeTtlSeconds payload remoteHost now
  let nodes := nodes.set record.nodeId record
  let response := {
    nodeId := record.nodeId
    registeredResources := record.resources.length
    knownFiles := (buildFileIndex nodes now true).1.items.length
    expiresAt := record.expiresAt
    serverTime := iso now }
  return (response, nodes)

end Tracker
