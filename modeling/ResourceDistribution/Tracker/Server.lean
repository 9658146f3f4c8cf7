import ResourceDistribution.Python.Dumps
import ResourceDistribution.Tracker.Answer
import ResourceDistribution.Tracker.Names

/-!
# The HTTP server

The handlers of `server.py` on requests whose path and query are parsed, over a registry with or
without a state path. A handler that raises sends no response. What a client can make the others
suffer is what its updates leave in the map: a string with a surrogate, or metadata nested too
deep, stands in every answer and in every save of the map.
-/

open Python

namespace Tracker

/-! ### Answers and the state as JSON values -/

/-- A resource as it is stored and shown. -/
def resourceJson (resource : Resource) : Json :=
  .dict ([
    (Str.ofString "file_hash", .str resource.fileHash),
    (Str.ofString "file_name", .str resource.fileName),
    (Str.ofString "blocks", .list (resource.blocks.map blockJson))]
    ++ resource.fileSize.toList.map (fun size => (Str.ofString "file_size", .int size))
    ++ resource.blockSize.toList.map (fun size => (Str.ofString "block_size", .int size))
    ++ resource.contentType.toList.map fun type => (Str.ofString "content_type", .str type))

/-- A node as `list_nodes` shows it. -/
def publicNodeJson (node : PublicNode) : Json :=
  .dict [
    (Str.ofString "node_id", .str node.nodeId),
    (Str.ofString "host", .str node.host),
    (Str.ofString "port", .int node.port),
    (Str.ofString "last_seen", .str node.lastSeen),
    (Str.ofString "expires_at", .str node.expiresAt),
    (Str.ofString "resource_count", .int node.resourceCount),
    (Str.ofString "resources", .list (node.resources.map resourceJson)),
    (Str.ofString "metadata", .dict node.metadata)]

/-- A file as `list_files` shows it. -/
def summaryJson (summary : FileSummary) : Json :=
  .dict [
    (Str.ofString "file_hash", .str summary.fileHash),
    (Str.ofString "file_name", .str summary.fileName),
    (Str.ofString "file_size", optionalJson summary.fileSize),
    (Str.ofString "block_size", optionalJson summary.blockSize),
    (Str.ofString "peer_count", .int summary.peerCount),
    (Str.ofString "available_blocks", .list (summary.availableBlocks.map .int))]

/-- The answer to an accepted update. -/
def updateJson (response : UpdateResponse) : Json :=
  .dict [
    (Str.ofString "status", .str (Str.ofString "ok")),
    (Str.ofString "node_id", .str response.nodeId),
    (Str.ofString "registered_resources", .int response.registeredResources),
    (Str.ofString "known_files", .int response.knownFiles),
    (Str.ofString "expires_at", .str response.expiresAt),
    (Str.ofString "server_time", .str response.serverTime)]

/-- The answer of `GET /api/v1/nodes`. -/
def nodesJson (nodes : List PublicNode) : Json :=
  .dict [(Str.ofString "nodes", .list (nodes.map publicNodeJson))]

/-- The answer of `GET /api/v1/files`. -/
def filesJson (files : List FileSummary) : Json :=
  .dict [(Str.ofString "files", .list (files.map summaryJson))]

/-- What `snapshot()` returns. -/
def snapshotJson (serverTime : Time) (nodeTtlSeconds : ℤ) (nodes : List PublicNode)
    (files : List FileSummary) : Json :=
  .dict [
    (Str.ofString "server_time", .str (iso serverTime)),
    (Str.ofString "node_ttl_seconds", .int nodeTtlSeconds),
    (Str.ofString "nodes", .list (nodes.map publicNodeJson)),
    (Str.ofString "files", .list (files.map summaryJson))]

/-- The answer of `GET /api/v1/health`. -/
def healthJson (nodeTtlSeconds : ℤ) : Json :=
  .dict [
    (Str.ofString "status", .str (Str.ofString "ok")),
    (Str.ofString "message", .str (Str.ofString "HTTP Tracker is listening")),
    (Str.ofString "node_ttl_seconds", .int nodeTtlSeconds)]

/-- The answer to a removal. -/
def removedJson (existed : Bool) : Json :=
  .dict [(Str.ofString "status", .str (Str.ofString "ok")), (Str.ofString "removed", .bool existed)]

/-- A reading of the clock as the `float` it is. -/
def epochFloat (t : Time) : Double :=
  let n := t.natAbs
  let k := Nat.log2 n
  if n = 0 then ⟨0⟩
  else ⟨BitVec.ofNat 64
    ((if t < 0 then 2 ^ 63 else 0) + (k + 1001) * 2 ^ 52 + (n * 2 ^ 52 / 2 ^ k - 2 ^ 52))⟩

/-- A record as it stands in the state file. -/
def recordJson (record : Record) : Json :=
  .dict [
    (Str.ofString "node_id", .str record.nodeId),
    (Str.ofString "host", .str record.host),
    (Str.ofString "port", .int record.port),
    (Str.ofString "last_seen", .str record.lastSeen),
    (Str.ofString "last_seen_epoch", .float (epochFloat record.lastSeenEpoch)),
    (Str.ofString "expires_at", .str record.expiresAt),
    (Str.ofString "expires_at_epoch", .float (epochFloat record.expiresAtEpoch)),
    (Str.ofString "resources", .list (record.resources.map resourceJson)),
    (Str.ofString "metadata", .dict record.metadata)]

/-- The state that is saved at `now`. -/
def stateJson (nodeTtlSeconds : ℤ) (nodes : Nodes) (now : Time) : Json :=
  .dict [
    (Str.ofString "saved_at", .str (iso now)),
    (Str.ofString "node_ttl_seconds", .int nodeTtlSeconds),
    (Str.ofString "nodes", .dict (nodes.items.map fun i => (i.1, recordJson i.2)))]

/-! ### Responses -/

/-- A response: its status and its body, which is sent as UTF-8. -/
structure Response where
  status : ℕ
  body : String
  deriving DecidableEq

section RecursionLimit

variable [RecursionLimit]

/-- `_send_json(status, payload)`, if it does not raise. -/
def sendJson (status : ℕ) (payload : Json) : Option Response :=
  (Json.dumps payload >>= Json.encode).toOption.map fun body => ⟨status, body⟩

/-- `_send_error(status, message)`. -/
def sendError (status : ℕ) (message : String) : Option Response :=
  sendJson status (.dict [
    (Str.ofString "status", .str (Str.ofString "error")),
    (Str.ofString "error", .str (Str.ofString message))])

/-- Send an answer, where no exception is caught. -/
def answer (result : Except Exc Json) : Option Response :=
  match result with
  | .ok payload => sendJson 200 payload
  | .error _ => none

/-- Send an answer, where `TrackerValidationError` is caught. -/
def answerCatching (result : Except Exc Json) : Option Response :=
  match result with
  | .error (.trackerValidationError message) => sendError 400 message
  | result => answer result

end RecursionLimit

/-! ### The registry of a server -/

/-- A server: the lifetime of its leases, and whether its registry has a state path. -/
structure Server where
  nodeTtlSeconds : ℤ
  one_le_nodeTtlSeconds : 1 ≤ nodeTtlSeconds
  statePath : Bool

/-- The default of `node_ttl_seconds` is positive. -/
theorem one_le_defaultTtl :
  (1 : ℤ) ≤ 90
  := by
  decide

/-- A server that keeps nothing on disk. -/
def memoryServer : Server := ⟨90, one_le_defaultTtl, false⟩

/-- The readings of the clock that a request takes, in their order. -/
abbrev Clock := ℕ → Time

namespace Server

variable [RecursionLimit] (server : Server)

/-- `_save_state()` on a disk that works. -/
def saveState (nodes : Nodes) (now : Time) : Except Exc Unit :=
  if server.statePath then
    (Json.dumps (sortKeys (stateJson server.nodeTtlSeconds nodes now)) >>= Json.encode).map
      fun _ => ()
  else .ok ()

/-- `cleanup_expired()`. -/
def cleanupExpired (nodes : Nodes) (now savedAt : Time) : Except Exc Unit × Nodes :=
  let (expired, nodes) := Tracker.cleanupExpired nodes now
  (if expired = [] then .ok () else server.saveState nodes savedAt, nodes)

/-- The copies that `_public_node(record)` makes. -/
def copyPublicNode (record : Record) : Except Exc Unit := do
  let _ ← Json.deepcopy (.list (record.resources.map resourceJson))
  let _ ← Json.deepcopy (.dict record.metadata)

/-- The copies that the loops of `build_file_index` make. -/
def copyBlocks (record : Record) : Except Exc Unit :=
  record.resources.forM fun resource => do
    let _ ← Json.deepcopy (.list (resource.blocks.map blockJson))

/-- `list_nodes()`. -/
def listNodes (nodes : Nodes) (now savedAt : Time) : Except Exc (List PublicNode) × Nodes :=
  let (cleaned, nodes) := server.cleanupExpired nodes now savedAt
  (do
    cleaned
    nodes.values.forM copyPublicNode
    return nodes.values.map publicNode, nodes)

/-- `build_file_index()`. -/
def buildFileIndex (nodes : Nodes) (now savedAt : Time) : Except Exc FileIndex × Nodes :=
  let (cleaned, nodes) := server.cleanupExpired nodes now savedAt
  (do
    cleaned
    nodes.values.forM copyBlocks
    return fileIndex nodes, nodes)

/-- `list_files()`. -/
def listFiles (nodes : Nodes) (now savedAt : Time) : Except Exc (List FileSummary) × Nodes :=
  let (index, cleaned) := server.buildFileIndex nodes now savedAt
  (do
    let _ ← index
    return (Tracker.listFiles nodes now).1, cleaned)

/-- `find_file_locations(file_hash, file_name)`. -/
def findFileLocations (nodes : Nodes) (fileHash fileName : Option Str) (now savedAt : Time) :
    Except Exc (List IndexEntry) × Nodes :=
  match Tracker.findFileLocations nodes fileHash fileName now with
  | .error e => (.error e, nodes)
  | .ok (entries, _) =>
      let (index, cleaned) := server.buildFileIndex nodes now savedAt
      (do
        let _ ← index
        entries.forM fun entry => do
          let _ ← Json.deepcopy (entryJson entry)
        return entries, cleaned)

/-- `mark_node_offline(node_id)`. -/
def markNodeOffline (nodes : Nodes) (nodeId : Json) (savedAt : Time) :
    Except Exc Bool × Nodes :=
  match Tracker.markNodeOffline nodes nodeId with
  | .error e => (.error e, nodes)
  | .ok (existed, nodes) =>
      (do
        if existed then server.saveState nodes savedAt
        return existed, nodes)

/-- `snapshot()`. A part that raises is the last one. -/
def snapshot (nodes : Nodes) (clock : Clock) : Except Exc Json × Nodes :=
  match server.cleanupExpired nodes (clock 0) (clock 1) with
  | (.error e, nodes) => (.error e, nodes)
  | (.ok _, nodes) =>
      match server.listNodes nodes (clock 3) (clock 4) with
      | (.error e, nodes) => (.error e, nodes)
      | (.ok listed, nodes) =>
          match server.listFiles nodes (clock 5) (clock 6) with
          | (.error e, nodes) => (.error e, nodes)
          | (.ok files, nodes) =>
              (.ok (snapshotJson (clock 2) server.nodeTtlSeconds listed files), nodes)

section UnicodeData

variable [UnicodeData]

/-- `update_node(payload, remote_host)`. -/
def updateNode (nodes : Nodes) (payload : Json) (remoteHost : Option Str) (now savedAt : Time) :
    Except Exc UpdateResponse × Nodes :=
  match Tracker.updateNode server.nodeTtlSeconds nodes payload remoteHost now with
  | .error e => (.error e, nodes)
  | .ok (response, nodes) =>
      (do
        server.saveState nodes savedAt
        nodes.values.forM copyBlocks
        return response, nodes)

end UnicodeData

end Server

/-! ### Handlers -/

/-- A request, its path and query parsed and its body, if any, decoded by `json.loads`. -/
inductive Request where
  | health
  | nodes
  | files
  | query (fileHash fileName : List Str)
  | snapshot
  | update (payload : Json) (clientHost : Str)
  | offline (payload : Json)
  | delete (nodeId : Str)

/-- `_first(values)`. -/
def first (values : List Str) : Option Str :=
  (values.head?.map Str.strip).filter (· ≠ [])

/-- `do_GET`, `do_POST` and `do_DELETE`: the response, if the handler does not raise, and the map
it leaves. -/
def Server.handle [RecursionLimit] [UnicodeData] (server : Server) (nodes : Nodes) (clock : Clock) :
    Request → Option Response × Nodes
  | .health => (sendJson 200 (healthJson server.nodeTtlSeconds), nodes)
  | .nodes =>
      let (listed, nodes) := server.listNodes nodes (clock 0) (clock 1)
      (answer (listed.map nodesJson), nodes)
  | .files =>
      let (files, nodes) := server.listFiles nodes (clock 0) (clock 1)
      (answer (files.map filesJson), nodes)
  | .query fileHash fileName =>
      let (locations, nodes) :=
        server.findFileLocations nodes (first fileHash) (first fileName) (clock 0) (clock 1)
      (answerCatching (locations.map queryJson), nodes)
  | .snapshot =>
      let (snapshot, nodes) := server.snapshot nodes clock
      (answer snapshot, nodes)
  | .update (.dict items) clientHost =>
      let (result, nodes) :=
        server.updateNode nodes (.dict items) (some clientHost) (clock 0) (clock 1)
      (answerCatching (result.map updateJson), nodes)
  | .offline (.dict items) =>
      let (existed, nodes) := server.markNodeOffline nodes (Json.get items "node_id") (clock 0)
      (answerCatching (existed.map removedJson), nodes)
  | .update _ _ | .offline _ => (sendError 400 "JSON body must be an object", nodes)
  | .delete nodeId =>
      let (existed, nodes) := server.markNodeOffline nodes (.str nodeId) (clock 0)
      (answerCatching (existed.map removedJson), nodes)

end Tracker
