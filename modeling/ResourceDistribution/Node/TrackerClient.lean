import ResourceDistribution.Node.SerdeJson
import ResourceDistribution.Node.TrackerDto
import ResourceDistribution.Python.ReadBack

/-!
# The tracker client

The requests of `tracker_client.rs` that publish an index, list the files and take the node offline,
and what the worker's commands log of the answers. How a request reaches the tracker, and how a text
is parsed, is up to the client; of `serde_json` it is only used that it parses the texts of plain
values as these values (`Parses`).
-/

open Python Python.Json

namespace Node

/-! ### Texts that are parsed -/

mutual

/-- A value as the tracker's answers are made of: without floats, with unsigned numbers of at most
64 bits, with strings without surrogates, and with distinct keys. -/
def PlainValue : Json → Prop
  | .int n => 0 ≤ n ∧ n < 2 ^ 64
  | .float _ => False
  | .str s => s.Encodable
  | .list items => PlainItems items
  | .dict items => PlainFields items ∧ (items.map Prod.fst).Nodup
  | _ => True

/-- The items of a list are such values. -/
def PlainItems : List Json → Prop
  | [] => True
  | v :: rest => PlainValue v ∧ PlainItems rest

/-- The items of an object are such values. -/
def PlainFields : List (Str × Json) → Prop
  | [] => True
  | (k, v) :: rest => k.Encodable ∧ PlainValue v ∧ PlainFields rest

end

theorem plainItems_iff {items : List Json} :
  PlainItems items ↔ ∀ v ∈ items, PlainValue v
  := by
  induction items with
  | nil => simp [PlainItems]
  | cons v rest ih => simp [PlainItems, ih]

theorem plainFields_iff {items : List (Str × Json)} :
  PlainFields items ↔ ∀ i ∈ items, i.1.Encodable ∧ PlainValue i.2
  := by
  induction items with
  | nil => simp [PlainFields]
  | cons i rest ih => simp [PlainFields, ih, and_assoc]

mutual

/-- A plain value has no surrogates. -/
theorem PlainValue.encodable (v : Json) (h : PlainValue v) :
  v.Encodable
  := by
  cases v with
  | null => trivial
  | bool => trivial
  | int => trivial
  | float => trivial
  | str => exact h
  | list items => exact PlainItems.encodable items h
  | dict items => exact PlainFields.encodable items h.1

theorem PlainItems.encodable (items : List Json) (h : PlainItems items) :
  EncodableItems items
  := by
  cases items with
  | nil => trivial
  | cons v rest => exact ⟨PlainValue.encodable v h.1, PlainItems.encodable rest h.2⟩

theorem PlainFields.encodable (items : List (Str × Json)) (h : PlainFields items) :
  EncodableFields items
  := by
  cases items with
  | nil => trivial
  | cons i rest => exact ⟨h.1, PlainValue.encodable i.2 h.2.1, PlainFields.encodable rest h.2.2⟩

end

mutual

/-- A plain value can be read back. -/
theorem PlainValue.loaded (v : Json) (h : PlainValue v) :
  Loaded v
  := by
  cases v with
  | null => trivial
  | bool => trivial
  | int n =>
      have hlt : n.natAbs < 10 ^ 20 := by
        obtain ⟨hnonneg, hlt⟩ := h
        omega
      apply readable_of_lt hlt (by decide)
  | float => cases h
  | str => trivial
  | list items => exact PlainItems.loaded items h
  | dict items => exact ⟨PlainFields.loaded items h.1, h.2⟩

theorem PlainItems.loaded (items : List Json) (h : PlainItems items) :
  LoadedItems items
  := by
  cases items with
  | nil => trivial
  | cons v rest => exact ⟨PlainValue.loaded v h.1, PlainItems.loaded rest h.2⟩

theorem PlainFields.loaded (items : List (Str × Json)) (h : PlainFields items) :
  LoadedFields items
  := by
  cases items with
  | nil => trivial
  | cons i rest => exact ⟨PlainValue.loaded i.2 h.2.1, PlainFields.loaded rest h.2.2⟩

end

/-- The texts of plain values are parsed as these values, if they are nested no deeper than the
tracker's answers. -/
def Parses (parse : String → Option Json) : Prop :=
  ∀ v, PlainValue v → v.depth ≤ 7 → parse (String.ofList (chars (text 0 v))) = some v

/-- So they are by `json.loads`. -/
theorem parses_loads [RecursionLimit] :
  Parses fun body => (loads body).toOption
  := by
  intro v hv hdepth
  dsimp only
  rw [loads_text (PlainValue.loaded v hv) (PlainValue.encodable v hv)
    (hdepth.trans RecursionLimit.le_loadDepth)]
  rfl

/-! ### Answers -/

/-- What the tracker answers to an update. -/
structure UpdateNodeResponse where
  status : String
  nodeId : String
  registeredResources : Nat
  knownFiles : Nat
  expiresAt : String
  serverTime : String
  deriving DecidableEq

/-- What the tracker answers when a node goes offline. -/
structure OfflineResponse where
  status : String
  removed : Bool
  deriving DecidableEq

/-- A file, in the list of all files. -/
structure TrackerDto.FileSummary where
  fileHash : String
  fileName : String
  fileSize : Option Nat
  blockSize : Option Nat
  peerCount : Nat
  availableBlocks : List Nat
  deriving DecidableEq

/-- The list of all files. -/
structure FilesResponse where
  files : List TrackerDto.FileSummary
  deriving DecidableEq

/-- A `bool`. -/
def readBool : Json → Option Bool
  | .bool b => some b
  | _ => none

/-- What `serde` makes of the answer to an update. -/
def UpdateNodeResponse.read : Json → Option UpdateNodeResponse
  | .dict items => do
      let status ← field items "status" >>= readString
      let nodeId ← field items "node_id" >>= readString
      let registeredResources ← field items "registered_resources" >>= readUnsigned 64
      let knownFiles ← field items "known_files" >>= readUnsigned 64
      let expiresAt ← field items "expires_at" >>= readString
      let serverTime ← field items "server_time" >>= readString
      return ⟨status, nodeId, registeredResources, knownFiles, expiresAt, serverTime⟩
  | _ => none

/-- What `serde` makes of the answer when a node goes offline. -/
def OfflineResponse.read : Json → Option OfflineResponse
  | .dict items => do
      let status ← field items "status" >>= readString
      let removed ← field items "removed" >>= readBool
      return ⟨status, removed⟩
  | _ => none

/-- What `serde` makes of a file. -/
def TrackerDto.FileSummary.read : Json → Option TrackerDto.FileSummary
  | .dict items => do
      let fileHash ← field items "file_hash" >>= readString
      let fileName ← field items "file_name" >>= readString
      let fileSize ← readOption (readUnsigned 64) (field items "file_size")
      let blockSize ← readOption (readUnsigned 64) (field items "block_size")
      let peerCount ← field items "peer_count" >>= readUnsigned 64
      let availableBlocks ← field items "available_blocks" >>= readVec (readUnsigned 64)
      return ⟨fileHash, fileName, fileSize, blockSize, peerCount, availableBlocks⟩
  | _ => none

/-- What `serde` makes of the list of all files. -/
def FilesResponse.read : Json → Option FilesResponse
  | .dict items => do
      let files ← field items "files" >>= readVec TrackerDto.FileSummary.read
      return ⟨files⟩
  | _ => none

/-! ### Requests -/

/-- `OfflineRequest`, as JSON. -/
def offlineRequest (nodeId : String) : Json := jsonOfFields [("node_id", jsonOfString nodeId)]

/-- The bytes of a request that carries a value. -/
def bodyOf (payload : Json) : List UInt8 := utf8 (String.ofList (compact payload))

/-- How a client reaches the tracker, and how it parses the body of an answer. If an answer arrives,
it is a status and a body. A path is what is appended to the URL of the tracker. -/
structure TrackerClient where
  post : String → List UInt8 → Option (Nat × String)
  get : String → Option (Nat × String)
  parse : String → Option Json

/-- What `send`, `error_for_status` and `json` make of what is answered to a request. Their errors
are the contexts that are given to them; the causes, which follow in the text, are left out. -/
def TrackerClient.receive {α : Type} (client : TrackerClient) (read : Json → Option α)
    (send rejected decode : String) : Option (Nat × String) → Except String α
  | none => .error send
  | some (status, body) =>
      if 400 ≤ status ∧ status < 600 then .error rejected
      else
        match client.parse body >>= read with
        | none => .error decode
        | some response => .ok response

/-- `TrackerClient::update_node(payload)`. -/
def TrackerClient.updateNode (client : TrackerClient) (payload : UpdateNodeRequest) :
    Except String UpdateNodeResponse :=
  client.receive UpdateNodeResponse.read "failed to send update request to tracker"
    "tracker rejected update request" "failed to decode tracker update response"
    (client.post "/api/v1/update" (bodyOf payload.toJson))

/-- `TrackerClient::mark_offline(payload)`. -/
def TrackerClient.markOffline (client : TrackerClient) (nodeId : String) :
    Except String OfflineResponse :=
  client.receive OfflineResponse.read "failed to send offline request to tracker"
    "tracker rejected offline request" "failed to decode tracker offline response"
    (client.post "/api/v1/offline" (bodyOf (offlineRequest nodeId)))

/-- `TrackerClient::list_files()`. -/
def TrackerClient.listFiles (client : TrackerClient) : Except String FilesResponse :=
  client.receive FilesResponse.read "failed to request file list from tracker"
    "tracker rejected file list request" "failed to decode tracker file list response"
    (client.get "/api/v1/files")

/-! ### Commands -/

/-- `publish_local_files()`, on what `scan_share_dir` returned: what it logs. -/
def TrackerClient.publishLocalFiles (client : TrackerClient) (nodeId peerHost : String)
    (peerPort : Nat) (scanned : Except String ResourceIndex) : Except String (List String) := do
  let index ← scanned
  let response ← client.updateNode (updateRequestFromIndex nodeId peerHost peerPort index)
  return ["Published " ++ toString response.registeredResources
    ++ " local resources. Tracker knows " ++ toString response.knownFiles
    ++ " files. Expires at " ++ response.expiresAt ++ "."]

/-- The line of a file in what `list_tracker_files` logs. -/
def TrackerDto.FileSummary.line (file : TrackerDto.FileSummary) : String :=
  file.fileName ++ " | " ++ file.fileHash ++ " | " ++ toString file.peerCount ++ " | "
    ++ toString file.availableBlocks.length

/-- `list_tracker_files()`: what it logs. -/
def TrackerClient.listTrackerFiles (client : TrackerClient) : Except String (List String) := do
  let response ← client.listFiles
  if response.files = [] then return ["Tracker has no files."]
  else
    return "file_name | file_hash | peers | blocks" :: response.files.map TrackerDto.FileSummary.line

/-- `mark_offline()` of the worker: what it logs. -/
def TrackerClient.markSelfOffline (client : TrackerClient) (nodeId : String) :
    Except String (List String) := do
  let response ← client.markOffline nodeId
  return ["Tracker offline update accepted. removed=" ++ toString response.removed]

end Node
