import ResourceDistribution.Python.Url
import ResourceDistribution.Tracker.Server

/-!
# Removing a node

A node is removed by a `POST` of its id, or by a `DELETE` of a path that ends in its id. The path is
cut into its parts, and its last part is taken for the id as it is, without being decoded. So the two
agree on an id exactly when its encoding is the id itself, and no semicolon ends the path within it
(`removesAlike_iff`); on any other id, the `DELETE` removes nothing or another node.
-/

open Python

namespace Tracker

/-! ### The path of a `DELETE` -/

/-- `parts[3]`: the id that a `DELETE` with a given target names, if its path is one of a node. -/
def deletedId (target : Str) : Option Str :=
  match Url.parts (Url.path target) with
  | [api, version, nodes, nodeId] =>
      if [api, version, nodes] = ["api", "v1", "nodes"].map Str.ofString then some nodeId else none
  | _ => none

/-- The target of a `DELETE` of the node whose id is encoded as `segment`. -/
def deleteTarget (segment : Str) : Str := Str.ofString "/api/v1/nodes" ++ .scalar '/' :: segment

/-- The `POST` that removes a node. -/
def offlineOf (nodeId : Str) : Request := .offline (.dict [(Str.ofString "node_id", .str nodeId)])

/-- The id that is read off the target is the encoded one, up to its first semicolon. -/
theorem deletedId_deleteTarget {segment : Str} (h : ∀ c ∈ segment, Url.IsEncoded c) :
  let nodeId := segment.takeWhile (· ≠ .scalar ';')
  deletedId (deleteTarget segment) = if nodeId = [] then none else some nodeId
  := by
  intro nodeId
  have hnot : ∀ d : Char, Url.isSegmentChar d = false → d ≠ '%' → .scalar d ∉ segment := by
    intro d hd hne hmem
    rcases h _ hmem with hd' | hd'
    · cases hd.symm.trans hd'
    · apply hne hd'
  have hslash : .scalar '/' ∉ segment := hnot '/' (by decide) (by decide)
  have hpath : Url.path (deleteTarget segment)
      = Str.ofString "/api/v1/nodes" ++ .scalar '/' :: nodeId := by
    apply Url.path_append
    · decide
    · exact ⟨hnot '#' (by decide) (by decide), hnot '?' (by decide) (by decide)⟩
    · exact hslash
  have hnodes : Url.parts (Str.ofString "/api/v1/nodes")
      = ["api", "v1", "nodes"].map Str.ofString := by
    decide
  have hlast : .scalar '/' ∉ nodeId := by
    intro hmem
    apply hslash ((List.takeWhile_prefix _).subset hmem)
  have hparts : Url.parts (Url.path (deleteTarget segment))
      = ["api", "v1", "nodes"].map Str.ofString ++ if nodeId = [] then [] else [nodeId] := by
    rw [hpath, Url.parts_append, hnodes, Url.parts_of_not_mem hlast]
  by_cases hne : nodeId = []
  · rw [if_pos hne] at hparts ⊢
    simp only [deletedId, hparts]
    rfl
  · rw [if_neg hne] at hparts ⊢
    simp only [deletedId, hparts]
    rfl

/-- An encoded segment is not changed by `strip`. -/
theorem trimmed_of_isEncoded {s : Str} (h : ∀ c ∈ s, Url.IsEncoded c) :
  s.Trimmed
  := by
  apply Str.trimmed_of_forall
  intro c hc
  apply Url.isspace_of_isEncoded (h c hc)

section RecursionLimit

variable [RecursionLimit] [UnicodeData] (server : Server)

/-- `do_DELETE` on the target of a request. -/
def Server.doDelete (nodes : Nodes) (clock : Clock) (target : Str) : Option Response × Nodes :=
  match deletedId target with
  | some nodeId => server.handle nodes clock (.delete nodeId)
  | none => (sendError 404 "endpoint not found", nodes)

/-- The `DELETE` of a node's id, encoded as one segment, is answered as the `POST` of the id, and
both leave the map without the record of that id and with all others. -/
def Server.RemovesAlike (enc : Url.SegmentEncoding) (nodes : Nodes) (clock : Clock)
    (nodeId : Str) : Prop :=
  ∃ segment, enc.encode nodeId = some segment ∧
    server.doDelete nodes clock (deleteTarget segment)
      = server.handle nodes clock (offlineOf nodeId) ∧
    (server.handle nodes clock (offlineOf nodeId)).2 = nodes.erase nodeId

/-- Both requests hand an id over to `mark_node_offline`. -/
theorem handle_offlineOf (nodes : Nodes) (clock : Clock) (nodeId : Str) :
  server.handle nodes clock (offlineOf nodeId) = server.handle nodes clock (.delete nodeId)
  := rfl

/-- An id without white space at its ends is removed, whether or not the map can be saved. -/
theorem handle_delete_nodes (nodes : Nodes) (clock : Clock) {nodeId : Str} (hne : nodeId ≠ [])
    (htrimmed : nodeId.Trimmed) :
  (server.handle nodes clock (.delete nodeId)).2 = nodes.erase nodeId
  := by
  have hid := asNonEmptyString_of_trimmed hne htrimmed "node_id"
  simp only [Server.handle, Server.markNodeOffline, Tracker.markNodeOffline, hid, bind, Except.bind,
    pure, Except.pure]

/-- What a `DELETE` leaves of the map. -/
theorem doDelete_nodes (nodes : Nodes) (clock : Clock) {segment : Str}
    (h : ∀ c ∈ segment, Url.IsEncoded c) :
  let nodeId := segment.takeWhile (· ≠ .scalar ';')
  (server.doDelete nodes clock (deleteTarget segment)).2
    = if nodeId = [] then nodes else nodes.erase nodeId
  := by
  intro nodeId
  have hencoded : ∀ c ∈ nodeId, Url.IsEncoded c := by
    intro c hc
    apply h c ((List.takeWhile_prefix _).subset hc)
  have hdeleted := deletedId_deleteTarget h
  by_cases hne : nodeId = []
  · rw [if_pos hne]
    simp only [Server.doDelete, hdeleted.trans (if_pos hne)]
  · rw [if_neg hne]
    simp only [Server.doDelete, hdeleted.trans (if_neg hne)]
    apply handle_delete_nodes server nodes clock hne (trimmed_of_isEncoded hencoded)

/-- On valid maps, the two requests agree on a registered id exactly when it is left as it is by the
encoding and has no semicolon. -/
theorem removesAlike_iff_of_valid (enc : Url.SegmentEncoding) {nodes : Nodes}
    (hvalid : nodes.Valid) (clock : Clock) {nodeId : Str} (hregistered : nodeId ∈ nodes.keys) :
  server.RemovesAlike enc nodes clock nodeId ↔ ∀ c ∈ nodeId, enc.Leaves c ∧ c ≠ .scalar ';'
  := by
  obtain ⟨record, hrecord⟩ := Option.isSome_iff_exists.mp (Dict.isSome_get?_iff.mpr hregistered)
  have hid := hvalid nodeId record hrecord
  have hne : nodeId ≠ [] := hid.nodeId_eq ▸ hid.nodeId_ne_nil
  have htrimmed : nodeId.Trimmed := hid.nodeId_eq ▸ hid.nodeId_trimmed
  constructor
  · rintro ⟨segment, hsegment, hsame, herase⟩
    have hencoded := enc.isEncoded_of_encode hsegment
    have hnodes := doDelete_nodes server nodes clock hencoded
    rw [hsame, herase] at hnodes
    set deleted := segment.takeWhile (· ≠ .scalar ';') with hdeleted
    have heq : deleted = nodeId := by
      by_contra hother
      have hget : (nodes.erase nodeId).get? nodeId = some record := by
        rw [hnodes]
        split
        · exact hrecord
        · rw [Dict.get?_erase, if_neg (Ne.symm hother)]
          exact hrecord
      rw [Dict.get?_erase, if_pos rfl] at hget
      cases hget
    have hnot : .scalar ';' ∉ nodeId := by
      intro hmem
      rw [← heq, hdeleted] at hmem
      have := List.mem_takeWhile_imp hmem
      simp at this
    have hwhole : segment = nodeId := by
      rw [← heq, hdeleted, eq_comm, List.takeWhile_eq_self_iff]
      intro c hc
      apply decide_eq_true
      rintro rfl
      apply hnot (enc.semicolon_mem_of_encode hsegment hc)
    rw [hwhole] at hsegment
    intro c hc
    use enc.encode_eq_self_iff.mp hsegment c hc
    rintro rfl
    apply hnot hc
  · intro h
    have hsegment := enc.encode_eq_self_iff.mpr fun c hc => (h c hc).1
    have hencoded := enc.isEncoded_of_encode hsegment
    have hwhole : nodeId.takeWhile (· ≠ .scalar ';') = nodeId := by
      apply List.takeWhile_eq_self_iff.mpr
      intro c hc
      apply decide_eq_true (h c hc).2
    have hdeleted : deletedId (deleteTarget nodeId) = some nodeId := by
      rw [deletedId_deleteTarget hencoded, hwhole, if_neg hne]
    refine ⟨nodeId, hsegment, ?_, ?_⟩
    · rw [handle_offlineOf, Server.doDelete, hdeleted]
    · rw [handle_offlineOf]
      apply handle_delete_nodes server nodes clock hne htrimmed

/-- In every state that the registry reaches, removing a registered node by a `DELETE` of its encoded
id is the same as removing it by a `POST` of its id exactly when the encoding leaves every character
of the id as it is, and none of them is a semicolon. -/
theorem removesAlike_iff [JsonCodec] (enc : Url.SegmentEncoding) (nodes : Nodes)
    (hreachable : Reachable server.nodeTtlSeconds nodes) (clock : Clock) (nodeId : Str)
    (hregistered : nodeId ∈ nodes.keys) :
  server.RemovesAlike enc nodes clock nodeId ↔ ∀ c ∈ nodeId, enc.Leaves c ∧ c ≠ .scalar ';'
  := removesAlike_iff_of_valid server enc hreachable.valid clock hregistered

end RecursionLimit

/-! ### An id with a space -/

/-- The update of a node without files. -/
def registers (nodeId : String) : Operation × Time :=
  (.updateNode (.dict [
    (Str.ofString "node_id", .str (Str.ofString nodeId)),
    (Str.ofString "host", .str (Str.ofString "127.0.0.1")),
    (Str.ofString "port", .int 9001)]) none, 0)

/-- Of two nodes with plain ids, one is removed alike by both requests. -/
theorem removesAlike_plainId :
  let _ := UnicodeData.ascii
  let _ := RecursionLimit.default
  memoryServer.RemovesAlike Url.quote (runAll 90 [registers "node-a", registers "node-b"])
    (fun _ => 0) (Str.ofString "node-a")
  := by
  intro _ _
  let _ := JsonCodec.whole
  apply (removesAlike_iff memoryServer Url.quote _
    (.inMemory [registers "node-a", registers "node-b"]) _ _ (by decide)).mpr
  decide

/-- It is not the case that the two requests agree on every registered id: a space in it is
encoded. -/
theorem not_removesAlike :
  let _ := UnicodeData.ascii
  let _ := RecursionLimit.default
  let _ := JsonCodec.whole
  ¬ ∀ (nodes : Nodes), Reachable 90 nodes → ∀ (clock : Clock), ∀ nodeId ∈ nodes.keys,
      memoryServer.RemovesAlike Url.quote nodes clock nodeId
  := by
  intro _ _ _ hall
  have hkey : Str.ofString "node a" ∈ (runAll 90 [registers "node a"]).keys := by decide
  have hreachable : Reachable 90 (runAll 90 [registers "node a"]) := .inMemory _
  have halike := hall _ hreachable (fun _ => 0) _ hkey
  have hleaves := (removesAlike_iff_of_valid memoryServer Url.quote hreachable.valid _ hkey).mp halike
  have hspace := (hleaves (.scalar ' ') (by decide)).1
  revert hspace
  decide

/-- The `DELETE` of `node a` removes the node `node%20a`, and leaves `node a`. -/
example :
  let _ := UnicodeData.ascii
  let _ := RecursionLimit.default
  let nodes := runAll 90 [registers "node a", registers "node%20a"]
  (Url.quote.encode (Str.ofString "node a")).map (fun segment =>
      (memoryServer.doDelete nodes (fun _ => 0) (deleteTarget segment)).2.keys)
    = some [Str.ofString "node a"]
  := by
  decide

end Tracker
