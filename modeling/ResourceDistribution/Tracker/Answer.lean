import ResourceDistribution.Tracker.Registry

/-!
# The answer to a query

What `server.py` sends for `GET /api/v1/query`, as a JSON value. A string with a surrogate has no
encoding in UTF-8; here it stands in the value, and no reader can read it.
-/

open Python

namespace Tracker

/-- A block of a peer. It has a hash and a size only if the update gave it some. -/
def blockJson (block : Block) : Json :=
  .dict ((Str.ofString "index", .int block.index)
    :: block.hash.toList.map (fun hash => (Str.ofString "hash", .str hash))
    ++ block.size.toList.map fun size => (Str.ofString "size", .int size))

/-- A peer of an entry. -/
def peerJson (peer : Peer) : Json :=
  .dict [
    (Str.ofString "node_id", .str peer.nodeId),
    (Str.ofString "host", .str peer.host),
    (Str.ofString "port", .int peer.port),
    (Str.ofString "last_seen", .str peer.lastSeen),
    (Str.ofString "expires_at", .str peer.expiresAt),
    (Str.ofString "blocks", .list (peer.blocks.map blockJson))]

/-- A number that may be `None`. -/
def optionalJson : Option ℤ → Json
  | none => .null
  | some n => .int n

/-- An entry of the file index. -/
def entryJson (entry : IndexEntry) : Json :=
  .dict [
    (Str.ofString "file_hash", .str entry.fileHash),
    (Str.ofString "file_name", .str entry.fileName),
    (Str.ofString "file_size", optionalJson entry.fileSize),
    (Str.ofString "block_size", optionalJson entry.blockSize),
    (Str.ofString "peers", .list (entry.peers.map peerJson)),
    (Str.ofString "available_blocks", .list (entry.availableBlocks.map .int))]

/-- The answer to a query that `find_file_locations` answers with `locations`. -/
def queryJson (locations : List IndexEntry) : Json :=
  .dict [(Str.ofString "locations", .list (locations.map entryJson))]

end Tracker
