import ResourceDistribution.System.Answers
import ResourceDistribution.Tracker.Availability
import ResourceDistribution.Tracker.Refusals
import ResourceDistribution.Tracker.Requests

/-!
# Exchanges

A command of a node at the tracker: it publishes its index, lists the files or goes offline. The
request is a text that the node writes and the tracker reads, and so is the answer, the other way.
An exchange does to a clean map what the call of the registry does that the request means
(`Exchange.after_eq`), and the node logs what this call returns (`Exchange.Reports`).
-/

open Python Json Fallible Codec Node Tracker

namespace System

/-! ### Exchanges -/

/-- What a node does at the tracker. Before it publishes it scans its share directory. -/
inductive Command where
  | publish (scanned : Except String ResourceIndex)
  | list
  | offline

/-- A command of a node: the id of the node, the address that it announces, the host that its
request comes from, and the readings of the clock that the request takes. -/
structure Exchange where
  nodeId : String
  peerHost : String
  peerPort : ℕ
  clientHost : String
  command : Command
  clock : Clock

namespace Exchange

/-- The update that a node sends. -/
def update (e : Exchange) (index : ResourceIndex) : UpdateNodeRequest :=
  updateRequestFromIndex e.nodeId e.peerHost e.peerPort index

/-- The number of resources that are published. -/
def weight (e : Exchange) : ℕ :=
  match e.command with
  | .publish (.ok index) => index.resources.length
  | _ => 0

/-- What nodes send: the numbers fit into their types, and an index is as scans make them. -/
structure Fits (e : Exchange) : Prop where
  peerPort_lt : e.peerPort < 2 ^ 16
  index_fits : ∀ index, e.command = .publish (.ok index) →
    ∀ resource ∈ index.resources, Indexed resource ∧ ResourceFits resource

/-- What is asked of the registry: what was sent, unless it is more than the tracker reads. -/
def call (e : Exchange) : Option Operation :=
  match e.command with
  | .publish (.error _) => none
  | .publish (.ok index) =>
      if (bodyOf (e.update index).toJson).length ≤ 1024 * 1024 then
        some (.updateNode (e.update index).toJson (some (Str.ofString e.clientHost)))
      else none
  | .list => some .listFiles
  | .offline =>
      if (bodyOf (offlineRequest e.nodeId)).length ≤ 1024 * 1024 then
        some (.markNodeOffline (jsonOfString e.nodeId))
      else none

end Exchange

section RecursionLimit

variable [RecursionLimit] [UnicodeData]

/-- What the tracker stores after an exchange. -/
def Exchange.after (e : Exchange) (server : Server) (nodes : Nodes) : Nodes :=
  let moment : Moment := ⟨nodes, e.clock⟩
  match e.command with
  | .publish (.error _) => nodes
  | .publish (.ok index) =>
      (moment.post server (Str.ofString e.clientHost) (Str.ofString "/api/v1/update")
        (bodyOf (e.update index).toJson)).2
  | .list => (moment.get server (Str.ofString "/api/v1/files")).2
  | .offline =>
      (moment.post server (Str.ofString e.clientHost) (Str.ofString "/api/v1/offline")
        (bodyOf (offlineRequest e.nodeId))).2

/-- What the node logs. -/
def Exchange.log (e : Exchange) (server : Server) (parse : String → Option Json) (nodes : Nodes) :
    Except String (List String) :=
  let moment : Moment := ⟨nodes, e.clock⟩
  let client := moment.client server (Str.ofString e.clientHost) parse
  match e.command with
  | .publish scanned => client.publishLocalFiles e.nodeId e.peerHost e.peerPort scanned
  | .list => client.listTrackerFiles
  | .offline => client.markSelfOffline e.nodeId

/-! ### What is reported -/

/-- The line that reports an accepted update. -/
def publishedLine (response : UpdateNodeResponse) : String :=
  "Published " ++ toString response.registeredResources
    ++ " local resources. Tracker knows " ++ toString response.knownFiles
    ++ " files. Expires at " ++ response.expiresAt ++ "."

omit [RecursionLimit] in
/-- What a node logs of an exchange with a registry that stores `nodes`: that the share directory
could not be scanned, or what the call returns, or that it was rejected, if the call raises or the
request was too long. -/
inductive Exchange.Reports (e : Exchange) (nodeTtlSeconds : ℤ) (nodes : Nodes) :
    Except String (List String) → Prop where
  | unscanned {error : String} (hcommand : e.command = .publish (.error error)) :
      e.Reports nodeTtlSeconds nodes (.error error)
  | published {index : ResourceIndex} {response : UpdateNodeResponse} {after : Nodes}
      (hcommand : e.command = .publish (.ok index)) (hcall : e.call.isSome)
      (hupdate : updateNode nodeTtlSeconds nodes (e.update index).toJson
        (some (Str.ofString e.clientHost)) (e.clock 0) = .ok (updateMeant response, after)) :
      e.Reports nodeTtlSeconds nodes (.ok [publishedLine response])
  | rejected {index : ResourceIndex} (hcommand : e.command = .publish (.ok index))
      (hraises : e.call = none ∨ ∃ exc, updateNode nodeTtlSeconds nodes (e.update index).toJson
        (some (Str.ofString e.clientHost)) (e.clock 0) = .error exc) :
      e.Reports nodeTtlSeconds nodes (.error "tracker rejected update request")
  | listed {files : List TrackerDto.FileSummary} (hcommand : e.command = .list)
      (hfiles : files.map summaryMeant = (Tracker.listFiles nodes (e.clock 0)).1) :
      e.Reports nodeTtlSeconds nodes (.ok (listLog files))
  | removed {existed : Bool} {after : Nodes} (hcommand : e.command = .offline)
      (hcall : e.call.isSome)
      (hremove : markNodeOffline nodes (jsonOfString e.nodeId) = .ok (existed, after)) :
      e.Reports nodeTtlSeconds nodes
        (.ok ["Tracker offline update accepted. removed=" ++ toString existed])
  | refused (hcommand : e.command = .offline)
      (hraises : e.call = none ∨
        ∃ exc, markNodeOffline nodes (jsonOfString e.nodeId) = .error exc) :
      e.Reports nodeTtlSeconds nodes (.error "tracker rejected offline request")

/-! ### Requests -/

omit [RecursionLimit] [UnicodeData] in
theorem postPath_update :
  postPath (Str.ofString "/api/v1/update") = some .update
  := by
  have hpath : endpoint (Str.ofString "/api/v1/update") = Str.ofString "/api/v1/update" := by
    decide
  rw [postPath, hpath]
  rfl

omit [RecursionLimit] [UnicodeData] in
theorem postPath_offline :
  postPath (Str.ofString "/api/v1/offline") = some .offline
  := by
  have hpath : endpoint (Str.ofString "/api/v1/offline") = Str.ofString "/api/v1/offline" := by
    decide
  rw [postPath, hpath]
  rfl

variable {moment : Moment} {server : Server} {clientHost path : Str} {items : List (Str × Json)}

/-- An object that a node posts is handed over to the registry if it is not too long. -/
theorem post_of_le {endpoint : PostPath} (hpath : postPath path = some endpoint) {payload : Json}
    (hitems : payload = .dict items) (hsend : Sendable payload) (hdepth : payload.depth ≤ 7)
    (hle : (bodyOf payload).length ≤ 1024 * 1024) :
  moment.post server clientHost path (bodyOf payload)
    = server.handle moment.nodes moment.clock (endpoint.request items clientHost)
  := by
  have hparse : parseBody (bodyOf payload) = .payload items := by
    simp only [parseBody, bodyOf, decodeUtf8_utf8,
      loads_compact hsend (hdepth.trans RecursionLimit.le_loadDepth)]
    rw [hitems]
  simp only [Moment.post, Server.doPost, hpath, Server.post, readJsonBody_decimalText, if_pos hle,
    hparse]

variable (moment server clientHost) in
/-- A longer one is refused. -/
theorem exists_post_eq {endpoint : PostPath} (hpath : postPath path = some endpoint)
    {body : List UInt8} (hlt : ¬ body.length ≤ 1024 * 1024) :
  ∃ error : BodyError,
    moment.post server clientHost path body = (sendError error.status error.message, moment.nodes)
  := by
  simp only [Moment.post, Server.doPost, hpath, Server.post, readJsonBody_decimalText, if_neg hlt]
  by_cases hdigits : Str.maxStrDigits < (Nat.toDigits 10 body.length).length
  · use .invalidLength
    simp only [if_pos hdigits]
  · use .tooLarge
    simp only [if_neg hdigits]

omit [UnicodeData] in
/-- An error is received as a rejection. -/
theorem receive_sendError {client : TrackerClient} {status : ℕ}
    (hstatus : 400 ≤ status ∧ status < 600) (message : String) {α : Type}
    (read : Json → Option α) (send rejected decode : String) :
  client.receive read send rejected decode (received (sendError status message)) = .error rejected
  := by
  obtain ⟨response, hresponse⟩ := Option.isSome_iff_exists.mp (isSome_sendError status message)
  have hreject : 400 ≤ response.status ∧ response.status < 600 := by
    rw [(sendJson_eq_some hresponse).1]
    exact hstatus
  rw [hresponse, received, Option.map_some, TrackerClient.receive, if_pos hreject]

omit [RecursionLimit] [UnicodeData] in
theorem status_bodyError (error : BodyError) :
  400 ≤ error.status ∧ error.status < 600
  := by
  cases error <;> decide

variable (moment server clientHost) in
/-- So the client sees it rejected. -/
theorem receive_post_of_long {endpoint : PostPath} (hpath : postPath path = some endpoint)
    {body : List UInt8} (hlong : ¬ body.length ≤ 1024 * 1024) (client : TrackerClient) {α : Type}
    (read : Json → Option α) (send rejected decode : String) :
  client.receive read send rejected decode (received (moment.post server clientHost path body).1)
    = .error rejected
  := by
  obtain ⟨error, herror⟩ := exists_post_eq moment server clientHost hpath hlong
  rw [herror]
  apply receive_sendError (status_bodyError error)

/-! ### Publishing -/

omit [RecursionLimit] [UnicodeData] in
theorem not_infinite_jsonOfNat (n : ℕ) :
  ¬ Tracker.Infinite (jsonOfNat n)
  := by
  rintro ⟨x, heq, -⟩
  cases heq

omit [RecursionLimit] in
theorem not_blockOverflows_toJson (block : TrackerBlock) :
  ¬ BlockOverflows block.toJson
  := by
  simp [BlockOverflows, TrackerBlock.toJson, jsonOfFields, not_infinite_jsonOfNat]

omit [RecursionLimit] in
theorem not_resourceOverflows_toJson (resource : TrackerResource) :
  ¬ ResourceOverflows resource.toJson
  := by
  simp only [ResourceOverflows, TrackerResource.toJson, jsonOfFields, List.map_cons, List.map_nil,
    Json.get_cons, Json.get_nil, String.reduceEq, if_true, if_false, not_infinite_jsonOfNat,
    and_false, or_false]
  rintro ⟨-, before, raw, after, hblocks, -, hoverflow⟩
  rw [Json.or] at hblocks
  split at hblocks
  · have hraw : raw ∈ resource.blocks.map TrackerBlock.toJson := by
      rw [Json.list.inj hblocks]
      apply List.mem_append_right _ List.mem_cons_self
    obtain ⟨block, -, rfl⟩ := List.mem_map.mp hraw
    apply not_blockOverflows_toJson block hoverflow
  · cases hblocks

omit [RecursionLimit] in
/-- Of what a node sends no number is infinite. -/
theorem not_updateOverflows_toJson {index : ResourceIndex} {nodeId host : String} {port : ℕ}
    (hitems : (updateRequestFromIndex nodeId host port index).toJson = .dict items)
    (remoteHost : Option Str) :
  ¬ UpdateOverflows items remoteHost
  := by
  obtain rfl := Json.dict.inj hitems
  simp only [UpdateOverflows, updateRequestFromIndex, rawResources, List.map_cons, List.map_nil,
    Json.get_cons, Json.getD_cons, String.reduceEq, if_true, if_false, not_infinite_jsonOfNat,
    false_or]
  rintro ⟨-, -, before, raw, after, hresources, -, hoverflow⟩
  have hraw : raw ∈ (index.resources.map TrackerResource.from).map TrackerResource.toJson := by
    rw [Except.ok.inj hresources]
    apply List.mem_append_right _ List.mem_cons_self
  obtain ⟨resource, -, rfl⟩ := List.mem_map.mp hraw
  apply not_resourceOverflows_toJson resource hoverflow

omit [RecursionLimit] in
/-- What a node sends is refused as invalid, if it is. -/
theorem exists_updateRecord_eq_error {index : ResourceIndex} {nodeId host : String} {port : ℕ}
    {nodeTtlSeconds : ℤ} {remoteHost : Option Str} {now : Time} {e : Exc}
    (h : updateRecord nodeTtlSeconds (updateRequestFromIndex nodeId host port index).toJson
      remoteHost now = .error e) :
  ∃ message, e = .trackerValidationError message
  := by
  obtain ⟨items, hitems⟩ : ∃ items,
      (updateRequestFromIndex nodeId host port index).toJson = .dict items := ⟨_, rfl⟩
  rw [hitems] at h
  obtain ⟨hoverflow, hraises⟩ := updateRecord_raises nodeTtlSeconds items remoteHost now
  rcases hraises e h with rfl | hmessage
  · cases not_updateOverflows_toJson hitems remoteHost (hoverflow.mp h)
  · exact hmessage

omit [RecursionLimit] [UnicodeData] in
theorem encodable_or {a b : Json} (ha : a.Encodable) (hb : b.Encodable) :
  (a.or b).Encodable
  := by
  rw [Json.or]
  split
  · exact ha
  · exact hb

omit [RecursionLimit] [UnicodeData] in
/-- What is accepted of a string without surrogates has none. -/
theorem encodable_of_asNonEmptyString {value : Json} {fieldName : String} {s : Str}
    (hvalue : value.Encodable) (h : asNonEmptyString value fieldName = .ok s) :
  s.Encodable
  := by
  obtain ⟨t, rfl, -, rfl⟩ := asNonEmptyString_eq_ok_iff.mp h
  rw [Json.Encodable] at hvalue
  apply hvalue.strip

omit [RecursionLimit] [UnicodeData] in
/-- What is stored of an index has no surrogates. -/
theorem encodable_published (resource : FileResource) :
  (published resource).Encodable
  := by
  constructor
  · apply Str.encodable_ofString
  · apply (Str.encodable_ofString _).strip
  · intro block hblock
    obtain ⟨block, -, rfl⟩ := List.mem_map.mp hblock
    intro hash hhash
    rw [← Option.some.inj hhash]
    apply Str.encodable_ofString
  · intro type htype
    cases htype

/-- The record of an update that a node sends is clean, and its numbers fit. -/
theorem clean_of_updateRecord_toJson {index : ResourceIndex}
    (hindex : ∀ resource ∈ index.resources, Indexed resource ∧ ResourceFits resource)
    {nodeId host clientHost : String} {port : ℕ} {nodeTtlSeconds : ℤ} {now : Time} {record : Record}
    (h : updateRecord nodeTtlSeconds (updateRequestFromIndex nodeId host port index).toJson
      (some (Str.ofString clientHost)) now = .ok record) :
  record.Clean ∧ Listable record
  := by
  have hresources := (resources_of_updateRecord (fun r hr => (hindex r hr).1) h).2
  obtain ⟨items, raw, hitems, hr⟩ := exists_of_updateRecord h
  obtain rfl := Json.dict.inj hitems
  have hmetadata : record.metadata
      = [(Str.ofString "client", .str (Str.ofString "rust-resource-node"))] := by
    rw [hr.stored]
    simp only [metadataOf, List.map_cons, List.map_nil, Json.get_cons, String.reduceEq, if_true,
      if_false]
    rfl
  have hnull : Json.null.Encodable := trivial
  constructor
  · constructor
    · apply encodable_of_asNonEmptyString _ hr.nodeId
      simp [jsonOfString, Json.Encodable, Str.encodable_ofString]
    · apply encodable_of_asNonEmptyString _ hr.host
      apply encodable_or (encodable_or (encodable_or _ _) _)
      · apply Str.encodable_ofString
      · simp [jsonOfString, Json.Encodable, Str.encodable_ofString]
      · simp [Json.Encodable]
      · simp [Json.Encodable]
    · intro resource hresource
      rw [hresources] at hresource
      obtain ⟨resource, -, rfl⟩ := List.mem_map.mp hresource
      apply encodable_published
    · rw [hmetadata]
      exact ⟨Str.encodable_ofString _, Str.encodable_ofString _, trivial⟩
    · rw [hmetadata]
      apply le_trans _ RecursionLimit.le_dumpDepth
      decide
    · rw [hmetadata]
      apply le_trans _ RecursionLimit.le_copyDepth
      decide
  · intro stored hstored
    rw [hresources] at hstored
    obtain ⟨resource, hresource, rfl⟩ := List.mem_map.mp hstored
    obtain ⟨-, hfits⟩ := hindex resource hresource
    refine ⟨?_, ?_, ?_⟩
    · rintro n ⟨⟩
      exact_mod_cast hfits.fileSize_lt
    · rintro n ⟨⟩
      exact_mod_cast hfits.blockSize_lt
    · intro stored hstored
      obtain ⟨block, hblock, rfl⟩ := List.mem_map.mp hstored
      change (block.index : ℤ) < 2 ^ 64
      exact_mod_cast hfits.index_lt block hblock

/-! ### What the requests do -/

omit [RecursionLimit] [UnicodeData] in
theorem offlineRequest_eq (nodeId : String) :
  offlineRequest nodeId = .dict [(Str.ofString "node_id", jsonOfString nodeId)]
  := rfl

omit [RecursionLimit] [UnicodeData] in
theorem sendable_offlineRequest (nodeId : String) :
  Sendable (offlineRequest nodeId)
  := by
  apply sendable_fields
  · intro i hi
    rw [List.mem_singleton.mp hi]
    apply sendable_string
  · apply List.nodup_singleton

omit [RecursionLimit] [UnicodeData] in
theorem depth_offlineRequest (nodeId : String) :
  (offlineRequest nodeId).depth ≤ 7
  := by
  simp [offlineRequest, jsonOfFields, jsonOfString]

omit [RecursionLimit] [UnicodeData] in
/-- What a node publishes can be sent. -/
theorem Exchange.Fits.sendable {e : Exchange} (h : e.Fits) {index : ResourceIndex}
    (hindex : e.command = .publish (.ok index)) :
  Sendable (e.update index).toJson
  := by
  apply sendable_request _ _ _ h.peerPort_lt
  intro resource hresource
  apply (h.index_fits index hindex resource hresource).2

omit [RecursionLimit] [UnicodeData] in
theorem Exchange.depth_update (e : Exchange) (index : ResourceIndex) :
  (e.update index).toJson.depth ≤ 7
  := depth_request _ _ _ _

omit [RecursionLimit] [UnicodeData] in
theorem Exchange.exists_update_eq (e : Exchange) (index : ResourceIndex) :
  ∃ items, (e.update index).toJson = .dict items
  := ⟨_, rfl⟩

/-- An exchange does to a clean map what the call that it asks for does. -/
theorem Exchange.after_eq {e : Exchange} (hfits : e.Fits) {nodes : Nodes} (hclean : nodes.Clean) :
  e.after server nodes
    = (e.call.map fun op => op.after server.nodeTtlSeconds nodes (e.clock 0)).getD nodes
  := by
  cases hcommand : e.command with
  | publish scanned =>
      cases scanned with
      | error error => simp only [Exchange.after, Exchange.call, hcommand, Option.map_none,
          Option.getD_none]
      | ok index =>
          simp only [Exchange.after, Exchange.call, hcommand]
          by_cases hle : (bodyOf (e.update index).toJson).length ≤ 1024 * 1024
          · obtain ⟨items, hitems⟩ := e.exists_update_eq index
            rw [if_pos hle, Option.map_some, Option.getD_some,
              post_of_le postPath_update hitems (hfits.sendable hcommand) (e.depth_update index) hle,
              PostPath.request, Server.handle_update_snd, hitems]
          · obtain ⟨error, herror⟩ := exists_post_eq ⟨nodes, e.clock⟩ server
              (Str.ofString e.clientHost) postPath_update hle
            rw [if_neg hle, Option.map_none, Option.getD_none, herror]
  | list =>
      simp only [Exchange.after, Exchange.call, hcommand, Moment.get, Server.doGet,
        getRequest_files, Server.handle, hclean.listFiles_eq_ok]
      rfl
  | offline =>
      simp only [Exchange.after, Exchange.call, hcommand]
      by_cases hle : (bodyOf (offlineRequest e.nodeId)).length ≤ 1024 * 1024
      · rw [if_pos hle, Option.map_some, Option.getD_some,
          post_of_le postPath_offline (offlineRequest_eq e.nodeId)
            (sendable_offlineRequest e.nodeId) (depth_offlineRequest e.nodeId) hle,
          PostPath.request, Server.handle_offline_snd, Json.get_cons, if_pos rfl]
      · obtain ⟨error, herror⟩ := exists_post_eq ⟨nodes, e.clock⟩ server (Str.ofString e.clientHost)
          postPath_offline hle
        rw [if_neg hle, Option.map_none, Option.getD_none, herror]

/-! ### What the node logs -/

/-- An update that is accepted is answered, on a clean map, with what the call returns. -/
theorem handle_update_eq {nodes : Nodes} (hclean : nodes.Clean) {clock : Clock} {record : Record}
    (hrecord : updateRecord server.nodeTtlSeconds (.dict items) (some clientHost) (clock 0)
      = .ok record) (hrecordClean : record.Clean) {result : UpdateResponse} {after : Nodes}
    (hupdate : updateNode server.nodeTtlSeconds nodes (.dict items) (some clientHost) (clock 0)
      = .ok (result, after)) :
  (server.handle nodes clock (.update (.dict items) clientHost)).1
    = sendJson 200 (updateJson result)
  := by
  have hset := hclean.set (hrecordClean.cleanFor hrecord)
  have hcopies : (nodes.set record.nodeId record).values.forM Server.copyBlocks = .ok () :=
    forM_eq_ok_iff.mpr fun record _ => copyBlocks_eq_ok record
  rw [updateNode_eq_ok nodes hrecord] at hupdate
  obtain ⟨rfl, rfl⟩ := Prod.mk.inj (Except.ok.inj hupdate)
  simp only [Server.handle, Server.updateNode, updateNode_eq_ok nodes hrecord,
    hset.saveState_eq_ok, hcopies]
  rfl

/-- A refused one is answered with an error. -/
theorem handle_update_eq_sendError {nodes : Nodes} {clock : Clock} {message : String}
    (hupdate : updateNode server.nodeTtlSeconds nodes (.dict items) (some clientHost) (clock 0)
      = .error (.trackerValidationError message)) :
  (server.handle nodes clock (.update (.dict items) clientHost)).1 = sendError 400 message
  := by
  simp only [Server.handle, Server.updateNode, hupdate]
  rfl

/-- What an accepted update returns can be read by the node, if its numbers fit. -/
theorem exists_updateMeant_eq (nodes : Nodes) {payload : Json} {now : Time} {record : Record}
    {remoteHost : Option Str} {nodeTtlSeconds : ℤ}
    (hrecord : updateRecord nodeTtlSeconds payload remoteHost now = .ok record)
    (hclean : record.Clean) (hresources : record.resources.length < 2 ^ 64)
    (hfiles : (fileIndex (nodes.set record.nodeId record)).items.length < 2 ^ 64) :
  ∃ response : UpdateNodeResponse, response.status = "ok" ∧
    response.registeredResources < 2 ^ 64 ∧ response.knownFiles < 2 ^ 64 ∧
    updateNode nodeTtlSeconds nodes payload remoteHost now
      = .ok (updateMeant response, nodes.set record.nodeId record)
  := by
  have hcleanFor := hclean.cleanFor hrecord
  obtain ⟨nodeId, hnodeId⟩ := hclean.nodeId
  obtain ⟨expiresAt, hexpiresAt⟩ := hcleanFor.expiresAt
  obtain ⟨serverTime, hserverTime⟩ := encodable_iso now
  use ⟨"ok", nodeId, record.resources.length,
    (fileIndex (nodes.set record.nodeId record)).items.length, expiresAt, serverTime⟩
  refine ⟨rfl, hresources, hfiles, ?_⟩
  rw [updateNode_eq_ok nodes hrecord, updateMeant, ← hnodeId, ← hexpiresAt, ← hserverTime]
  rfl

omit [RecursionLimit] [UnicodeData] in
/-- What a node logs of a publish depends on the answer to the update. -/
theorem publishLocalFiles_eq (client : TrackerClient) (nodeId peerHost : String) (peerPort : ℕ)
    (index : ResourceIndex) :
  client.publishLocalFiles nodeId peerHost peerPort (.ok index)
    = (client.updateNode (updateRequestFromIndex nodeId peerHost peerPort index)).map
        fun response => [publishedLine response]
  := by
  cases h : client.updateNode (updateRequestFromIndex nodeId peerHost peerPort index) with
  | error e => simp only [TrackerClient.publishLocalFiles, h, bind, Except.bind, Except.map]
  | ok response =>
      simp only [TrackerClient.publishLocalFiles, h, bind, Except.bind, Except.map]
      rfl

/-- What becomes of an update that is posted on a clean map. -/
theorem updateNode_client {e : Exchange} (hfits : e.Fits) {index : ResourceIndex}
    (hcommand : e.command = .publish (.ok index))
    (hle : (bodyOf (e.update index).toJson).length ≤ 1024 * 1024) {nodes : Nodes}
    (hclean : nodes.Clean) (hcount : (holdings nodes).length + index.resources.length < 2 ^ 64)
    {parse : String → Option Json} (hparse : Parses parse) :
  let client := (Moment.mk nodes e.clock).client server (Str.ofString e.clientHost) parse
  let result := updateNode server.nodeTtlSeconds nodes (e.update index).toJson
    (some (Str.ofString e.clientHost)) (e.clock 0)
  (∃ response after, result = .ok (updateMeant response, after) ∧
      client.updateNode (e.update index) = .ok response) ∨
    (∃ exc, result = .error exc) ∧
      client.updateNode (e.update index) = .error "tracker rejected update request"
  := by
  intro client result
  obtain ⟨items, hitems⟩ := e.exists_update_eq index
  have hpost : client.post "/api/v1/update" (bodyOf (e.update index).toJson)
      = received (server.handle nodes e.clock
        (.update (.dict items) (Str.ofString e.clientHost))).1 := by
    change received (Moment.post _ _ _ _ _).1 = _
    rw [post_of_le postPath_update hitems (hfits.sendable hcommand) (e.depth_update index) hle]
    rfl
  rw [TrackerClient.updateNode, hpost]
  cases hrecord : updateRecord server.nodeTtlSeconds (e.update index).toJson
      (some (Str.ofString e.clientHost)) (e.clock 0) with
  | ok record =>
      have hindex := hfits.index_fits index hcommand
      obtain ⟨hrecordClean, -⟩ := clean_of_updateRecord_toJson hindex hrecord
      have hresources := (resources_of_updateRecord (fun r hr => (hindex r hr).1) hrecord).2
      have hlength : record.resources.length = index.resources.length := by
        rw [hresources, List.length_map]
      have hset := length_holdings_set_le nodes record
      have hfiles := length_items_fileIndex_le (nodes.set record.nodeId record)
      obtain ⟨response, hstatus, hregistered, hknown, hupdate⟩ :=
        exists_updateMeant_eq nodes hrecord hrecordClean (by omega) (by omega)
      refine .inl ⟨response, _, hupdate, ?_⟩
      rw [hitems] at hrecord hupdate
      have hanswer := handle_update_eq hclean hrecord hrecordClean hupdate
      obtain ⟨body, hbody⟩ := hclean.exists_handle_update server hrecord hrecordClean
      rw [hbody] at hanswer ⊢
      apply receive_sendJson hparse (plain_updateJson hregistered hknown) (depth_updateJson _)
        hanswer.symm
      apply (reads_update _ _).mpr ⟨rfl, hstatus, hregistered, hknown⟩
  | error exc =>
      obtain ⟨message, rfl⟩ := exists_updateRecord_eq_error hrecord
      have hupdate : result = .error (.trackerValidationError message) := by
        simp only [result, updateNode, hrecord]
        rfl
      refine .inr ⟨⟨_, hupdate⟩, ?_⟩
      simp only [result, hitems] at hupdate
      rw [handle_update_eq_sendError hupdate]
      apply receive_sendError (by decide)

/-- A removal that is accepted is answered, on a clean map, with what the call returns. -/
theorem handle_offline_eq {nodes : Nodes} (hclean : nodes.Clean) (clock : Clock) {existed : Bool}
    {after : Nodes}
    (hremove : markNodeOffline nodes (Json.get items "node_id") = .ok (existed, after)) :
  (server.handle nodes clock (.offline (.dict items))).1 = sendJson 200 (removedJson existed)
  := by
  obtain ⟨id, -, h⟩ := bind_eq_ok.mp hremove
  obtain ⟨-, rfl⟩ := Prod.mk.inj (Except.ok.inj h)
  have hsave : (do
      if existed then server.saveState (nodes.erase id) (clock 0)
      return existed) = (.ok existed : Except Exc Bool) := by
    cases existed with
    | false => rfl
    | true =>
        rw [if_pos rfl, (hclean.erase id).saveState_eq_ok]
        rfl
  simp only [Server.handle, Server.markNodeOffline, hremove]
  rw [hsave]
  rfl

omit [RecursionLimit] [UnicodeData] in
/-- A removal is refused as invalid, if it is. -/
theorem exists_markNodeOffline_eq_error {nodes : Nodes} {nodeId : Json} {exc : Exc}
    (h : markNodeOffline nodes nodeId = .error exc) :
  ∃ message, exc = .trackerValidationError message
  := by
  obtain ⟨hne, hraises⟩ := asNonEmptyString_raises nodeId "node_id"
  cases hid : asNonEmptyString nodeId "node_id" with
  | ok id => simp [markNodeOffline, hid, bind, Except.bind, pure, Except.pure] at h
  | error e =>
      obtain rfl : e = exc := by
        simpa [markNodeOffline, hid, bind, Except.bind] using h
      rcases hraises e hid with rfl | hmessage
      · exact absurd hid hne
      · exact hmessage

/-- What becomes of a removal that is posted on a clean map. -/
theorem markOffline_client {nodeId : String} (clientHost : String) {nodes : Nodes} (clock : Clock)
    (hle : (bodyOf (offlineRequest nodeId)).length ≤ 1024 * 1024) (hclean : nodes.Clean)
    {parse : String → Option Json} (hparse : Parses parse) :
  let client := (Moment.mk nodes clock).client server (Str.ofString clientHost) parse
  let result := markNodeOffline nodes (jsonOfString nodeId)
  (∃ existed after, result = .ok (existed, after) ∧
      client.markOffline nodeId = .ok ⟨"ok", existed⟩) ∨
    (∃ exc, result = .error exc) ∧
      client.markOffline nodeId = .error "tracker rejected offline request"
  := by
  intro client result
  have hpost : client.post "/api/v1/offline" (bodyOf (offlineRequest nodeId))
      = received (server.handle nodes clock
        (.offline (.dict [(Str.ofString "node_id", jsonOfString nodeId)]))).1 := by
    change received (Moment.post _ _ _ _ _).1 = _
    rw [post_of_le postPath_offline (offlineRequest_eq nodeId) (sendable_offlineRequest nodeId)
      (depth_offlineRequest nodeId) hle]
    rfl
  have hget : Json.get [(Str.ofString "node_id", jsonOfString nodeId)] "node_id"
      = jsonOfString nodeId := by
    rw [Json.get_cons, if_pos rfl]
  rw [TrackerClient.markOffline, hpost]
  cases hresult : result with
  | ok removed =>
      obtain ⟨existed, after⟩ := removed
      refine .inl ⟨existed, after, rfl, ?_⟩
      have hanswer : (server.handle nodes clock
          (.offline (.dict [(Str.ofString "node_id", jsonOfString nodeId)]))).1
            = sendJson 200 (removedJson existed) := by
        apply handle_offline_eq hclean
        rw [hget]
        exact hresult
      obtain ⟨n, hn⟩ := exists_dumpDepth_eq
      have hwritable : Writable RecursionLimit.dumpDepth (removedJson existed) := by
        rw [hn]
        simp [removedJson, Str.encodable_ofString]
      obtain ⟨body, hbody⟩ := exists_sendJson_eq hwritable 200
      rw [hanswer, hbody]
      apply receive_sendJson hparse (plain_removedJson existed) (depth_removedJson existed) hbody
        (read_removedJson existed)
  | error exc =>
      refine .inr ⟨⟨exc, rfl⟩, ?_⟩
      obtain ⟨message, rfl⟩ := exists_markNodeOffline_eq_error hresult
      have hanswer : (server.handle nodes clock
          (.offline (.dict [(Str.ofString "node_id", jsonOfString nodeId)]))).1
            = sendError 400 message := by
        simp only [result] at hresult
        simp only [Server.handle, Server.markNodeOffline, hget, hresult]
        rfl
      rw [hanswer]
      apply receive_sendError (by decide)

omit [RecursionLimit] [UnicodeData] in
/-- What a node logs when it goes offline depends on the answer to the removal. -/
theorem markSelfOffline_eq (client : TrackerClient) (nodeId : String) :
  client.markSelfOffline nodeId
    = (client.markOffline nodeId).map fun response =>
        ["Tracker offline update accepted. removed=" ++ toString response.removed]
  := by
  cases h : client.markOffline nodeId with
  | error e => simp only [TrackerClient.markSelfOffline, h, bind, Except.bind, Except.map]
  | ok response =>
      simp only [TrackerClient.markSelfOffline, h, bind, Except.bind, Except.map]
      rfl

section Reports

variable (server) {e : Exchange} {nodes : Nodes} {parse : String → Option Json}

omit [RecursionLimit] [UnicodeData] in
theorem Exchange.isSome_call {e : Exchange} {index : ResourceIndex}
    (hcommand : e.command = .publish (.ok index))
    (hle : (bodyOf (e.update index).toJson).length ≤ 1024 * 1024) :
  e.call.isSome
  := by
  simp only [Exchange.call, hcommand, if_pos hle, Option.isSome_some]

/-- A node logs what is to be reported of a publish. -/
theorem Exchange.reports_publish (hfits : e.Fits) {scanned : Except String ResourceIndex}
    (hcommand : e.command = .publish scanned) (hclean : nodes.Clean)
    (hcount : (holdings nodes).length + e.weight < 2 ^ 64) (hparse : Parses parse) :
  e.Reports server.nodeTtlSeconds nodes (e.log server parse nodes)
  := by
  cases scanned with
  | error error =>
      have hlog : e.log server parse nodes = .error error := by
        simp only [Exchange.log, hcommand]
        rfl
      rw [hlog]
      apply Reports.unscanned hcommand
  | ok index =>
      set client := (Moment.mk nodes e.clock).client server (Str.ofString e.clientHost) parse
        with hclient
      have hlog : e.log server parse nodes
          = (client.updateNode (e.update index)).map fun response => [publishedLine response] := by
        simp only [Exchange.log, hcommand, publishLocalFiles_eq]
        rfl
      rw [Exchange.weight, hcommand] at hcount
      rw [hlog]
      by_cases hle : (bodyOf (e.update index).toJson).length ≤ 1024 * 1024
      · rcases updateNode_client hfits hcommand hle hclean hcount hparse with
          ⟨response, after, hresult, hanswer⟩ | ⟨hraises, hanswer⟩
        · rw [hanswer]
          apply Reports.published hcommand (isSome_call hcommand hle) hresult
        · rw [hanswer]
          apply Reports.rejected hcommand (.inr hraises)
      · have hcall : e.call = none := by
          simp only [Exchange.call, hcommand, if_neg hle]
        have hanswer : client.updateNode (e.update index)
            = .error "tracker rejected update request" :=
          receive_post_of_long ⟨nodes, e.clock⟩ server (Str.ofString e.clientHost) postPath_update
            hle client _ _ _ _
        rw [hanswer]
        apply Reports.rejected hcommand (.inl hcall)

/-- And of the list of files. -/
theorem Exchange.reports_list (hcommand : e.command = .list) (hclean : nodes.Clean)
    (hvalid : nodes.Valid) (hlistable : ∀ k record, nodes.get? k = some record → Listable record)
    (hcount : (holdings nodes).length < 2 ^ 64) (hparse : Parses parse) :
  e.Reports server.nodeTtlSeconds nodes (e.log server parse nodes)
  := by
  have hpeers : ∀ entry ∈ (Moment.mk nodes e.clock).live, entry.peers.length < 2 ^ 64 := by
    intro entry hentry
    have hle : (holdings (cleanupExpired nodes (e.clock 0)).2).length
        ≤ (holdings nodes).length := by
      rw [cleanupExpired_nodes]
      apply length_holdings_filter_le
    apply (length_peers_le hentry).trans_lt (hle.trans_lt hcount)
  obtain ⟨files, hfiles, hlist⟩ := exists_listTrackerFiles_eq_ok ⟨nodes, e.clock⟩ hclean
    hvalid hlistable hpeers server (Str.ofString e.clientHost) hparse
  have hlog : e.log server parse nodes = .ok (listLog files) := by
    simp only [Exchange.log, hcommand]
    exact hlist
  rw [hlog]
  apply Reports.listed hcommand hfiles

/-- And of going offline. -/
theorem Exchange.reports_offline (hcommand : e.command = .offline) (hclean : nodes.Clean)
    (hparse : Parses parse) :
  e.Reports server.nodeTtlSeconds nodes (e.log server parse nodes)
  := by
  set client := (Moment.mk nodes e.clock).client server (Str.ofString e.clientHost) parse
    with hclient
  have hlog : e.log server parse nodes
      = (client.markOffline e.nodeId).map fun response =>
          ["Tracker offline update accepted. removed=" ++ toString response.removed] := by
    simp only [Exchange.log, hcommand, markSelfOffline_eq]
    rfl
  rw [hlog]
  by_cases hle : (bodyOf (offlineRequest e.nodeId)).length ≤ 1024 * 1024
  · have hcall : e.call.isSome := by
      simp only [Exchange.call, hcommand, if_pos hle, Option.isSome_some]
    rcases markOffline_client e.clientHost e.clock hle hclean hparse
      with ⟨existed, after, hresult, hanswer⟩ | ⟨hraises, hanswer⟩
    · rw [hanswer]
      apply Reports.removed hcommand hcall hresult
    · rw [hanswer]
      apply Reports.refused hcommand (.inr hraises)
  · have hcall : e.call = none := by
      simp only [Exchange.call, hcommand, if_neg hle]
    have hanswer : client.markOffline e.nodeId = .error "tracker rejected offline request" :=
      receive_post_of_long ⟨nodes, e.clock⟩ server (Str.ofString e.clientHost) postPath_offline
        hle client _ _ _ _
    rw [hanswer]
    apply Reports.refused hcommand (.inl hcall)

end Reports

end RecursionLimit

end System
