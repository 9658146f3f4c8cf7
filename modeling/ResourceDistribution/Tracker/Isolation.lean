import Mathlib.Tactic.MkIffOfInductiveProp
import ResourceDistribution.Tracker.Server

/-!
# What one client can make the others suffer

A record is `Clean` if its strings have no surrogates and its metadata is not nested too deep. As
long as every accepted update makes a clean record, every read is answered and every update that
is accepted is answered with status 200; the first update that does not leaves a map of which the
nodes cannot be listed.
-/

open Python Json Fallible

namespace Tracker

/-! ### Which values can be written -/

/-- The strings of a block have no surrogates. -/
def Block.Encodable (block : Block) : Prop := ∀ hash ∈ block.hash, hash.Encodable

/-- The strings of a resource have no surrogates. -/
@[mk_iff]
structure Resource.Encodable (resource : Resource) : Prop where
  fileHash : resource.fileHash.Encodable
  fileName : resource.fileName.Encodable
  blocks : ∀ block ∈ resource.blocks, block.Encodable
  contentType : ∀ type ∈ resource.contentType, type.Encodable

theorem writable_blockJson {n : ℕ} {block : Block} :
  Writable (n + 1) (blockJson block) ↔ block.Encodable
  := by
  simp [blockJson, Block.Encodable, Str.encodable_ofString, or_imp, forall_and]

theorem depth_blockJson (block : Block) :
  (blockJson block).depth ≤ 1
  := by
  cases hhash : block.hash <;> cases hsize : block.size <;>
    simp [blockJson, hhash, hsize, depth, depthFields]

theorem writable_resourceJson {n : ℕ} {resource : Resource} :
  Writable (n + 3) (resourceJson resource) ↔ resource.Encodable
  := by
  rw [Resource.encodable_iff, resourceJson]
  simp [or_imp, forall_and, Str.encodable_ofString, writable_blockJson, and_assoc]

theorem writable_optionalJson (n : ℕ) (o : Option ℤ) :
  Writable n (optionalJson o)
  := by
  cases o with
  | none => apply writable_null
  | some m => apply writable_int

theorem encodable_iso (t : Time) :
  (iso t).Encodable
  := Str.encodable_ofString _

/-- What is shown of a node can be written exactly when its strings and its metadata can. -/
theorem writable_publicNodeJson {n : ℕ} {node : PublicNode} :
  Writable (n + 5) (publicNodeJson node) ↔
    node.nodeId.Encodable ∧ node.host.Encodable ∧ node.lastSeen.Encodable ∧
      node.expiresAt.Encodable ∧ (∀ resource ∈ node.resources, resource.Encodable) ∧
      Writable (n + 4) (.dict node.metadata)
  := by
  rw [publicNodeJson]
  simp only [writable_dict, List.forall_mem_cons, Str.encodable_ofString, writable_str,
    writable_int, writable_list, List.forall_mem_map, writable_resourceJson, true_and,
    List.not_mem_nil, false_implies, implies_true, and_true]

theorem writable_recordJson {n : ℕ} {record : Record} :
  Writable (n + 5) (recordJson record) ↔ Writable (n + 5) (publicNodeJson (publicNode record))
  := by
  rw [writable_publicNodeJson, recordJson]
  simp only [writable_dict, List.forall_mem_cons, Str.encodable_ofString, writable_str,
    writable_int, writable_float, writable_list, List.forall_mem_map, writable_resourceJson,
    true_and, List.not_mem_nil, false_implies, implies_true, and_true, publicNode]

theorem writable_summaryJson {n : ℕ} {summary : FileSummary} :
  Writable (n + 2) (summaryJson summary)
    ↔ summary.fileHash.Encodable ∧ summary.fileName.Encodable
  := by
  rw [summaryJson]
  simp [Str.encodable_ofString, writable_optionalJson]

/-- The strings of an entry have no surrogates. -/
@[mk_iff]
structure IndexEntry.Encodable (entry : IndexEntry) : Prop where
  fileHash : entry.fileHash.Encodable
  fileName : entry.fileName.Encodable
  peers : ∀ peer ∈ entry.peers, peer.nodeId.Encodable ∧ peer.host.Encodable ∧
    peer.lastSeen.Encodable ∧ peer.expiresAt.Encodable ∧ ∀ block ∈ peer.blocks, block.Encodable

theorem writable_entryJson {n : ℕ} {entry : IndexEntry} :
  Writable (n + 5) (entryJson entry) ↔ entry.Encodable
  := by
  rw [IndexEntry.encodable_iff, entryJson]
  simp [Str.encodable_ofString, writable_optionalJson, peerJson, writable_blockJson]

/-! ### Sorting keys -/

theorem depthFields_sortBy {κ : Type} [LinearOrder κ] (key : Str × Json → κ)
    (items : List (Str × Json)) :
  depthFields (Keyed.sortBy key items) = depthFields items
  := by
  apply eq_of_forall_ge_iff
  intro n
  simp only [depthFields_le_iff, Keyed.mem_sortBy]

theorem encodableFields_sortBy {κ : Type} [LinearOrder κ] (key : Str × Json → κ)
    (items : List (Str × Json)) :
  EncodableFields (Keyed.sortBy key items) ↔ EncodableFields items
  := by
  simp only [encodableFields_iff, Keyed.mem_sortBy]

mutual

/-- Sorting keys does not change how deep a value is nested. -/
theorem depth_sortKeys (v : Json) :
  (sortKeys v).depth = v.depth
  := by
  cases v with
  | list items => rw [sortKeys, depth, depth, depthItems_sortKeysItems items]
  | dict items => rw [sortKeys, depth, depth, depthFields_sortBy, depthFields_sortKeysFields items]
  | _ => rfl

theorem depthItems_sortKeysItems (items : List Json) :
  depthItems (sortKeysItems items) = depthItems items
  := by
  cases items with
  | nil => rfl
  | cons v rest =>
      rw [sortKeysItems, depthItems, depthItems, depth_sortKeys v, depthItems_sortKeysItems rest]

theorem depthFields_sortKeysFields (items : List (Str × Json)) :
  depthFields (sortKeysFields items) = depthFields items
  := by
  cases items with
  | nil => rfl
  | cons i rest =>
      obtain ⟨k, v⟩ := i
      rw [sortKeysFields, depthFields, depthFields, depth_sortKeys v,
        depthFields_sortKeysFields rest]

end

mutual

/-- Sorting keys does not change the strings of a value. -/
theorem encodable_sortKeys (v : Json) :
  (sortKeys v).Encodable ↔ v.Encodable
  := by
  cases v with
  | list items => rw [sortKeys, Json.Encodable, Json.Encodable, encodableItems_sortKeysItems items]
  | dict items =>
      rw [sortKeys, Json.Encodable, Json.Encodable, encodableFields_sortBy,
        encodableFields_sortKeysFields items]
  | _ => rfl

theorem encodableItems_sortKeysItems (items : List Json) :
  EncodableItems (sortKeysItems items) ↔ EncodableItems items
  := by
  cases items with
  | nil => rfl
  | cons v rest =>
      rw [sortKeysItems, EncodableItems, EncodableItems, encodable_sortKeys v,
        encodableItems_sortKeysItems rest]

theorem encodableFields_sortKeysFields (items : List (Str × Json)) :
  EncodableFields (sortKeysFields items) ↔ EncodableFields items
  := by
  cases items with
  | nil => rfl
  | cons i rest =>
      obtain ⟨k, v⟩ := i
      rw [sortKeysFields, EncodableFields, EncodableFields, encodable_sortKeys v,
        encodableFields_sortKeysFields rest]

end

theorem writable_sortKeys {n : ℕ} {v : Json} :
  Writable n (sortKeys v) ↔ Writable n v
  := by
  rw [Writable, Writable, depth_sortKeys, encodable_sortKeys]

/-! ### Clean maps -/

/-- A lease is not empty. -/
theorem Server.lease_pos (server : Server) :
  0 < server.nodeTtlSeconds * ticksPerSecond
  := by
  have hpos := server.one_le_nodeTtlSeconds
  rw [ticksPerSecond]
  omega

/-- What an accepted update does. -/
theorem updateNode_eq_ok [UnicodeData] {nodeTtlSeconds : ℤ} {payload : Json} {remoteHost : Option Str}
    {now : Time} {record : Record} (nodes : Nodes)
    (hrecord : updateRecord nodeTtlSeconds payload remoteHost now = .ok record) :
  updateNode nodeTtlSeconds nodes payload remoteHost now
    = .ok ({
        nodeId := record.nodeId
        registeredResources := record.resources.length
        knownFiles := (buildFileIndex (nodes.set record.nodeId record) now true).1.items.length
        expiresAt := record.expiresAt
        serverTime := iso now }, nodes.set record.nodeId record)
  := by
  rw [updateNode, hrecord]
  rfl

section RecursionLimit

variable [RecursionLimit]

/-- The strings of a record have no surrogates, and its metadata can be copied, and dumped within
an answer or the state. -/
structure Record.Clean (record : Record) : Prop where
  nodeId : record.nodeId.Encodable
  host : record.host.Encodable
  resources : ∀ resource ∈ record.resources, resource.Encodable
  metadata : (Json.dict record.metadata).Encodable
  dump_le : (Json.dict record.metadata).depth + 3 ≤ RecursionLimit.dumpDepth
  copy_le : (Json.dict record.metadata).depth ≤ RecursionLimit.copyDepth

/-- A clean record that is stored under its own id, with its times. -/
structure Record.CleanFor (k : Str) (record : Record) : Prop extends record.Clean where
  nodeId_eq : record.nodeId = k
  lastSeen : record.lastSeen.Encodable
  expiresAt : record.expiresAt.Encodable

/-- Every stored record is clean. -/
def Nodes.Clean (nodes : Nodes) : Prop :=
  ∀ k record, nodes.get? k = some record → record.CleanFor k

theorem Nodes.Clean.of_mem_items {nodes : Nodes} (h : nodes.Clean) {i : Str × Record}
    (hi : i ∈ nodes.items) :
  i.2.CleanFor i.1
  := h i.1 i.2 (Dict.get?_eq_some_iff.mpr hi)

theorem Nodes.Clean.of_mem_values {nodes : Nodes} (h : nodes.Clean) {record : Record}
    (hrecord : record ∈ nodes.values) :
  record.CleanFor record.nodeId
  := by
  obtain ⟨i, hi, rfl⟩ := List.mem_map.mp hrecord
  have hclean := h.of_mem_items hi
  rw [hclean.nodeId_eq]
  exact hclean

theorem Nodes.Clean.cleanupExpired {nodes : Nodes} (h : nodes.Clean) (now : Time) :
  Nodes.Clean (Tracker.cleanupExpired nodes now).2
  := by
  intro k record hk
  apply h k record (get?_cleanupExpired_eq_some_iff.mp hk).1

theorem Nodes.clean_empty :
  Nodes.Clean Dict.empty
  := by
  intro k record hk
  simp at hk

theorem Nodes.Clean.erase {nodes : Nodes} (h : nodes.Clean) (nodeId : Str) :
  Nodes.Clean (nodes.erase nodeId)
  := by
  intro k record hk
  rw [Dict.get?_erase] at hk
  split at hk
  · cases hk
  · apply h k record hk

/-- Clean maps stay so when dictionaries are ordered differently. -/
theorem Nodes.Same.clean {nodes nodes' : Nodes} (h : nodes.Same nodes') (hnodes : nodes'.Clean) :
  nodes.Clean
  := by
  intro k record hk
  have hsort := h k
  rw [hk, Option.map_some] at hsort
  obtain ⟨record', hk', heq⟩ := Option.map_eq_some_iff.mp hsort.symm
  have hclean := hnodes k record' hk'
  have hmetadata : sortKeys (.dict record'.metadata) = sortKeys (.dict record.metadata) := by
    rw [sortKeys, sortKeys]
    congr 1
    exact congrArg Record.metadata heq
  have hdepth : (Json.dict record'.metadata).depth = (Json.dict record.metadata).depth := by
    rw [← depth_sortKeys, hmetadata, depth_sortKeys]
  simp only [Record.sortKeys, Record.mk.injEq] at heq
  obtain ⟨hnodeId, hhost, -, hlast, -, hexpires, -, hresources, -⟩ := heq
  constructor
  · constructor
    · rw [← hnodeId]
      exact hclean.nodeId
    · rw [← hhost]
      exact hclean.host
    · rw [← hresources]
      exact hclean.resources
    · rw [← encodable_sortKeys, ← hmetadata, encodable_sortKeys]
      exact hclean.metadata
    · rw [← hdepth]
      exact hclean.dump_le
    · rw [← hdepth]
      exact hclean.copy_le
  · rw [← hnodeId]
    exact hclean.nodeId_eq
  · rw [← hlast]
    exact hclean.lastSeen
  · rw [← hexpires]
    exact hclean.expiresAt

/-- Storing a clean record keeps a map clean. -/
theorem Nodes.Clean.set {nodes : Nodes} (h : nodes.Clean) {record : Record}
    (hrecord : record.CleanFor record.nodeId) :
  Nodes.Clean (nodes.set record.nodeId record)
  := by
  intro k r hk
  rw [Dict.get?_set] at hk
  split at hk
  · rename_i heq
    rw [← Option.some.inj hk, heq]
    exact hrecord
  · apply h k r hk

/-- An answer is sent if it can be written. -/
theorem exists_sendJson_eq {payload : Json} (h : Writable RecursionLimit.dumpDepth payload)
    (status : ℕ) :
  ∃ body, sendJson status payload = some ⟨status, body⟩
  := by
  obtain ⟨body, hbody⟩ := exists_dumps_encode_iff.mpr h
  use body
  rw [sendJson, hbody]
  rfl

/-- An answer that is sent can be written. -/
theorem writable_of_isSome_sendJson {payload : Json} {status : ℕ}
    (h : (sendJson status payload).isSome) :
  Writable RecursionLimit.dumpDepth payload
  := by
  rw [sendJson, Option.isSome_map] at h
  apply exists_dumps_encode_iff.mp
  cases hbody : Json.dumps payload >>= Json.encode with
  | ok body => exact ⟨body, rfl⟩
  | error e => simp [hbody, Except.toOption] at h

theorem exists_dumpDepth_eq :
  ∃ n, RecursionLimit.dumpDepth = n + 7
  := Nat.exists_eq_add_of_le' RecursionLimit.le_dumpDepth

theorem deepcopy_eq_ok {v : Json} (h : v.depth ≤ 5) :
  deepcopy v = .ok v
  := if_pos (h.trans RecursionLimit.le_copyDepth)

/-- A clean record can be shown. -/
theorem Record.CleanFor.writable {k : Str} {record : Record} (h : record.CleanFor k) {n : ℕ}
    (hn : RecursionLimit.dumpDepth = n + 7) :
  Writable (n + 5) (publicNodeJson (publicNode record))
  := by
  have hdepth : (Json.dict record.metadata).depth ≤ n + 4 := by
    have hle := h.dump_le
    omega
  rw [writable_publicNodeJson]
  exact ⟨h.nodeId, h.host, h.lastSeen, h.expiresAt, h.resources, hdepth, h.metadata⟩

theorem copyPublicNode_eq_ok {k : Str} {record : Record} (h : record.CleanFor k) :
  Server.copyPublicNode record = .ok ()
  := by
  have hresources : Writable 5 (.list (record.resources.map resourceJson)) := by
    rw [writable_list, List.forall_mem_map]
    intro resource hresource
    apply writable_resourceJson.mpr (h.resources resource hresource)
  rw [Server.copyPublicNode, deepcopy_eq_ok hresources.1]
  change (deepcopy (.dict record.metadata) >>= fun _ => pure ()) = .ok ()
  rw [deepcopy, if_pos h.copy_le]
  rfl

/-- Blocks are not nested, so that they can always be copied. -/
theorem copyBlocks_eq_ok (record : Record) :
  Server.copyBlocks record = .ok ()
  := by
  apply forM_eq_ok_iff.mpr
  intro resource _
  have hblocks : (Json.list (resource.blocks.map blockJson)).depth ≤ 5 := by
    have hitems : depthItems (resource.blocks.map blockJson) ≤ 1 := by
      rw [depthItems_le_iff, List.forall_mem_map]
      intro block _
      apply depth_blockJson
    rw [depth]
    omega
  rw [deepcopy_eq_ok hblocks]
  rfl

/-- The entries of the index of a clean map can be shown. -/
theorem Nodes.Clean.encodable_entry {nodes : Nodes} (h : nodes.Clean) {entry : IndexEntry}
    (hentry : entry ∈ (fileIndex nodes).values) :
  entry.Encodable
  := by
  obtain ⟨⟨fileHash, _⟩, hitem, rfl⟩ := List.mem_map.mp hentry
  have hspec := entrySpec_of_get? (Dict.get?_eq_some_iff.mpr hitem)
  obtain ⟨record, hrecord, hgiven⟩ := List.exists_of_findSome?_eq_some hspec.fileName_eq
  obtain ⟨resource, hresource, hname⟩ := List.exists_of_findSome?_eq_some hgiven
  obtain ⟨hresource, hhash⟩ := List.mem_filter.mp hresource
  have hclean := (h.of_mem_values hrecord).resources resource hresource
  constructor
  · rw [hspec.fileHash_eq, ← of_decide_eq_true hhash]
    exact hclean.fileHash
  · rw [← Option.some.inj hname]
    exact hclean.fileName
  · intro peer hpeer
    rw [hspec.peers_eq] at hpeer
    obtain ⟨record, hrecord, hpeer⟩ := List.mem_flatMap.mp hpeer
    obtain ⟨resource, hresource, rfl⟩ := List.mem_map.mp hpeer
    have hrecord := h.of_mem_values hrecord
    exact ⟨hrecord.nodeId, hrecord.host, hrecord.lastSeen, hrecord.expiresAt,
      (hrecord.resources resource (List.mem_filter.mp hresource).1).blocks⟩

/-! ### Requests on clean maps -/

variable (server : Server)

/-- A clean map can be saved. -/
theorem Nodes.Clean.saveState_eq_ok {nodes : Nodes} (h : nodes.Clean) (now : Time) :
  server.saveState nodes now = .ok ()
  := by
  rw [Server.saveState]
  split
  · obtain ⟨n, hn⟩ := exists_dumpDepth_eq
    have hwritable : Writable RecursionLimit.dumpDepth
        (sortKeys (stateJson server.nodeTtlSeconds nodes now)) := by
      rw [writable_sortKeys, stateJson, hn]
      simp only [writable_dict, List.forall_mem_cons, Str.encodable_ofString, writable_str,
        encodable_iso, writable_int, List.forall_mem_map, writable_recordJson, true_and,
        List.not_mem_nil, false_implies, implies_true, and_true]
      intro i hi
      have hclean := h.of_mem_items hi
      refine ⟨?_, hclean.writable hn⟩
      rw [← hclean.nodeId_eq]
      exact hclean.nodeId
    obtain ⟨body, hbody⟩ := exists_dumps_encode_iff.mpr hwritable
    rw [hbody]
    rfl
  · rfl

theorem Nodes.Clean.cleanupExpired_eq_ok {nodes : Nodes} (h : nodes.Clean) (now savedAt : Time) :
  server.cleanupExpired nodes now savedAt = (.ok (), (Tracker.cleanupExpired nodes now).2)
  := by
  change (if (Tracker.cleanupExpired nodes now).1 = [] then Except.ok ()
    else server.saveState (Tracker.cleanupExpired nodes now).2 savedAt, _) = _
  rw [(h.cleanupExpired now).saveState_eq_ok, ite_self]
  rfl

/-- The nodes of a clean map are listed. -/
theorem Nodes.Clean.listNodes_eq_ok {nodes : Nodes} (h : nodes.Clean) (now savedAt : Time) :
  server.listNodes nodes now savedAt
    = (.ok ((Tracker.cleanupExpired nodes now).2.values.map publicNode),
        (Tracker.cleanupExpired nodes now).2)
  := by
  have hcopies : (Tracker.cleanupExpired nodes now).2.values.forM Server.copyPublicNode = .ok () :=
    forM_eq_ok_iff.mpr fun _ hrecord =>
      copyPublicNode_eq_ok ((h.cleanupExpired now).of_mem_values hrecord)
  rw [Server.listNodes, h.cleanupExpired_eq_ok]
  dsimp only
  rw [hcopies]
  rfl

theorem Nodes.Clean.buildFileIndex_eq_ok {nodes : Nodes} (h : nodes.Clean) (now savedAt : Time) :
  server.buildFileIndex nodes now savedAt
    = (.ok (fileIndex (Tracker.cleanupExpired nodes now).2), (Tracker.cleanupExpired nodes now).2)
  := by
  have hcopies : (Tracker.cleanupExpired nodes now).2.values.forM Server.copyBlocks = .ok () :=
    forM_eq_ok_iff.mpr fun record _ => copyBlocks_eq_ok record
  rw [Server.buildFileIndex, h.cleanupExpired_eq_ok]
  dsimp only
  rw [hcopies]
  rfl

theorem Nodes.Clean.listFiles_eq_ok {nodes : Nodes} (h : nodes.Clean) (now savedAt : Time) :
  server.listFiles nodes now savedAt
    = (.ok (Tracker.listFiles nodes now).1, (Tracker.cleanupExpired nodes now).2)
  := by
  rw [Server.listFiles, h.buildFileIndex_eq_ok]
  rfl

/-- The files of a clean map can be shown. -/
theorem Nodes.Clean.writable_summary {nodes : Nodes} (h : nodes.Clean) (now : Time) {n : ℕ} :
  ∀ summary ∈ (Tracker.listFiles nodes now).1, Writable (n + 2) (summaryJson summary)
  := by
  intro summary hsummary
  have hlist : (Tracker.listFiles nodes now).1
      = Keyed.sortBy (fun f => nameAndHash f.fileName f.fileHash)
          ((fileIndex (Tracker.cleanupExpired nodes now).2).values.map summaryOf) := rfl
  rw [hlist, Keyed.mem_sortBy] at hsummary
  obtain ⟨entry, hentry, rfl⟩ := List.mem_map.mp hsummary
  have hencodable := (h.cleanupExpired now).encodable_entry hentry
  apply writable_summaryJson.mpr ⟨hencodable.fileHash, hencodable.fileName⟩

/-- The nodes of a clean map can be shown. -/
theorem Nodes.Clean.writable_node {nodes : Nodes} (h : nodes.Clean) {n : ℕ}
    (hn : RecursionLimit.dumpDepth = n + 7) :
  ∀ node ∈ nodes.values.map publicNode, Writable (n + 5) (publicNodeJson node)
  := by
  intro node hnode
  obtain ⟨record, hrecord, rfl⟩ := List.mem_map.mp hnode
  apply (h.of_mem_values hrecord).writable hn

/-- The answer to a query on a clean map: the one of `find_file_locations`. -/
theorem Nodes.Clean.findFileLocations_eq {nodes : Nodes} (h : nodes.Clean)
    (fileHash fileName : Option Str) (now savedAt : Time) :
  (server.findFileLocations nodes fileHash fileName now savedAt).1
      = Prod.fst <$> Tracker.findFileLocations nodes fileHash fileName now ∧
    ∀ entries after, Tracker.findFileLocations nodes fileHash fileName now = .ok (entries, after) →
      ∀ entry ∈ entries, entry.Encodable
  := by
  rw [Server.findFileLocations]
  cases hfind : Tracker.findFileLocations nodes fileHash fileName now with
  | error e =>
      constructor
      · rfl
      · simp
  | ok answer =>
      obtain ⟨entries, after⟩ := answer
      have hentries : ∀ entry ∈ entries, entry.Encodable := by
        intro entry hentry
        apply (h.cleanupExpired now).encodable_entry
        apply ((mem_of_findFileLocations_eq_ok hfind entry).mp hentry).1
      have hcopies : (entries.forM fun entry => do
          let _ ← deepcopy (entryJson entry)) = Except.ok () := by
        apply forM_eq_ok_iff.mpr
        intro entry hentry
        have hwritable : Writable 5 (entryJson entry) :=
          writable_entryJson.mpr (hentries entry hentry)
        rw [deepcopy_eq_ok hwritable.1]
        rfl
      constructor
      · rw [h.buildFileIndex_eq_ok]
        dsimp only
        rw [hcopies]
        rfl
      · intro entries' after' heq
        obtain ⟨rfl, -⟩ := Prod.mk.inj (Except.ok.inj heq)
        exact hentries

/-- A removal keeps a map clean. -/
theorem Nodes.Clean.markNodeOffline {nodes : Nodes} (h : nodes.Clean) (nodeId : Json)
    (savedAt : Time) :
  Nodes.Clean (server.markNodeOffline nodes nodeId savedAt).2
  := by
  cases hid : asNonEmptyString nodeId "node_id" with
  | error e =>
      simp only [Server.markNodeOffline, Tracker.markNodeOffline, hid, bind, Except.bind]
      exact h
  | ok id =>
      simp only [Server.markNodeOffline, Tracker.markNodeOffline, hid, bind, Except.bind, pure,
        Except.pure]
      apply h.erase

/-- An answer that can be written is sent. -/
theorem isSome_answer {payload : Json} (h : Writable RecursionLimit.dumpDepth payload) :
  (answer (.ok payload)).isSome
  := by
  obtain ⟨body, hbody⟩ := exists_sendJson_eq h 200
  rw [answer, hbody]
  rfl

/-- A message can always be sent. -/
theorem isSome_sendError (status : ℕ) (message : String) :
  (sendError status message).isSome
  := by
  obtain ⟨n, hn⟩ := exists_dumpDepth_eq
  have hwritable : Writable RecursionLimit.dumpDepth (.dict [
      (Str.ofString "status", .str (Str.ofString "error")),
      (Str.ofString "error", .str (Str.ofString message))]) := by
    rw [hn]
    simp [Str.encodable_ofString]
  obtain ⟨body, hbody⟩ := exists_sendJson_eq hwritable status
  rw [sendError, hbody]
  rfl

/-- The requests that read the registry, and do nothing else. -/
def Request.IsRead : Request → Prop
  | .nodes | .files | .query _ _ | .snapshot => True
  | _ => False

variable [UnicodeData]

/-- Every read of a clean map is answered. -/
theorem Nodes.Clean.isSome_handle {nodes : Nodes} (h : nodes.Clean) (clock : Clock)
    {request : Request} (hread : request.IsRead) :
  (server.handle nodes clock request).1.isSome
  := by
  obtain ⟨n, hn⟩ := exists_dumpDepth_eq
  cases request with
  | nodes =>
      simp only [Server.handle, h.listNodes_eq_ok]
      apply isSome_answer
      rw [hn, nodesJson]
      simpa [Str.encodable_ofString] using (h.cleanupExpired (clock 0)).writable_node hn
  | files =>
      simp only [Server.handle, h.listFiles_eq_ok]
      apply isSome_answer
      rw [hn, filesJson]
      simpa [Str.encodable_ofString] using h.writable_summary (clock 0) (n := n + 3)
  | query fileHash fileName =>
      obtain ⟨hanswer, hentries⟩ := h.findFileLocations_eq server (first fileHash) (first fileName)
        (clock 0) (clock 1)
      simp only [Server.handle, hanswer]
      cases hfind : Tracker.findFileLocations nodes (first fileHash) (first fileName) (clock 0) with
      | error e =>
          have hinvalid : e = .trackerValidationError "file_hash or file_name is required" := by
            rw [Tracker.findFileLocations] at hfind
            split at hfind
            · exact (Except.error.inj hfind).symm
            · cases hfind
          rw [hinvalid]
          apply isSome_sendError
      | ok found =>
          apply isSome_answer
          rw [hn, queryJson]
          have hwritable : ∀ entry ∈ found.1, Writable (n + 5) (entryJson entry) :=
            fun entry hentry => writable_entryJson.mpr (hentries found.1 found.2 hfind entry hentry)
          simpa [Str.encodable_ofString] using hwritable
  | snapshot =>
      have hclean := h.cleanupExpired (clock 0)
      have hlisted := hclean.cleanupExpired (clock 3)
      simp only [Server.handle, Server.snapshot, h.cleanupExpired_eq_ok, hclean.listNodes_eq_ok,
        hlisted.listFiles_eq_ok]
      apply isSome_answer
      rw [hn, snapshotJson]
      simp only [writable_dict, List.forall_mem_cons, Str.encodable_ofString, writable_str,
        encodable_iso, writable_int, writable_list, List.forall_mem_map, true_and,
        List.not_mem_nil, false_implies, implies_true, and_true]
      constructor
      · simpa using hlisted.writable_node hn
      · apply hlisted.writable_summary (clock 5) (n := n + 3)
  | _ => cases hread

/-- An update makes a record with times that can be shown. -/
theorem Record.Clean.cleanFor {nodeTtlSeconds : ℤ} {payload : Json} {remoteHost : Option Str}
    {now : Time} {record : Record} (h : record.Clean)
    (hrecord : updateRecord nodeTtlSeconds payload remoteHost now = .ok record) :
  record.CleanFor record.nodeId
  := by
  have hspec := updateRecord_spec hrecord
  use h, rfl
  · rw [hspec.lastSeen_eq]
    apply encodable_iso
  · rw [hspec.expiresAt_eq]
    apply encodable_iso

/-- An update that makes a clean record is answered, on a clean map, with status 200. -/
theorem Nodes.Clean.exists_handle_update {nodes : Nodes} (h : nodes.Clean) {clock : Clock}
    {payload : Json} {clientHost : Str} {record : Record}
    (hrecord : updateRecord server.nodeTtlSeconds payload (some clientHost) (clock 0) = .ok record)
    (hclean : record.Clean) :
  ∃ body, (server.handle nodes clock (.update payload clientHost)).1 = some ⟨200, body⟩
  := by
  have hcleanFor := hclean.cleanFor hrecord
  have hset := h.set hcleanFor
  have hcopies : (nodes.set record.nodeId record).values.forM Server.copyBlocks = .ok () :=
    forM_eq_ok_iff.mpr fun record _ => copyBlocks_eq_ok record
  obtain ⟨items, raw, rfl, -⟩ := exists_of_updateRecord hrecord
  simp only [Server.handle, Server.updateNode, updateNode_eq_ok nodes hrecord,
    hset.saveState_eq_ok, hcopies]
  apply exists_sendJson_eq
  obtain ⟨n, hn⟩ := exists_dumpDepth_eq
  rw [hn, updateJson]
  simp [Str.encodable_ofString, hclean.nodeId, hcleanFor.expiresAt, encodable_iso]

/-! ### What an unclean record does -/

/-- If the nodes are listed, all that run are clean. -/
theorem clean_of_isSome_handle_nodes {nodes : Nodes} {clock : Clock}
    (h : (server.handle nodes clock .nodes).1.isSome) {k : Str} {record : Record}
    (hk : nodes.get? k = some record) (hlive : clock 0 < record.expiresAtEpoch) :
  record.Clean
  := by
  have hrecord : record ∈ (Tracker.cleanupExpired nodes (clock 0)).2.values :=
    List.mem_map.mpr ⟨(k, record), Dict.get?_eq_some_iff.mp
      (get?_cleanupExpired_eq_some_iff.mpr ⟨hk, hlive⟩), rfl⟩
  change (answer ((server.listNodes nodes (clock 0) (clock 1)).1.map nodesJson)).isSome at h
  cases hlisted : (server.listNodes nodes (clock 0) (clock 1)).1 with
  | error e => simp [hlisted, Except.map, answer] at h
  | ok listed =>
      rw [hlisted] at h
      obtain ⟨_, -, hcopied⟩ := bind_eq_ok.mp hlisted
      obtain ⟨_, hcopies, hreturn⟩ := bind_eq_ok.mp hcopied
      obtain rfl := Except.ok.inj hreturn
      obtain ⟨n, hn⟩ := exists_dumpDepth_eq
      have hwritable := writable_of_isSome_sendJson h
      rw [hn, nodesJson] at hwritable
      simp only [writable_dict, List.forall_mem_cons, writable_list, List.forall_mem_map]
        at hwritable
      have hnode := writable_publicNodeJson.mp (hwritable.1.2 record hrecord)
      obtain ⟨hnodeId, hhost, -, -, hresources, hmetadata⟩ := hnode
      obtain ⟨_, -, hcopy⟩ := bind_eq_ok.mp (forM_eq_ok_iff.mp hcopies record hrecord)
      obtain ⟨_, hcopy, -⟩ := bind_eq_ok.mp hcopy
      have hdump : (Json.dict record.metadata).depth ≤ n + 4 := hmetadata.1
      constructor
      · exact hnodeId
      · exact hhost
      · exact hresources
      · exact hmetadata.2
      · rw [hn]
        omega
      · rw [deepcopy] at hcopy
        split at hcopy
        · assumption
        · cases hcopy

/-! ### Runs -/

/-- The map after some requests, each with the readings of the clock it takes, to a server whose
registry was empty. -/
def Server.run (requests : List (Request × Clock)) : Nodes :=
  requests.foldl (fun nodes i => (server.handle nodes i.2 i.1).2) Dict.empty

/-- The request is an update that is accepted and makes `record`. -/
def Server.Makes (i : Request × Clock) (record : Record) : Prop :=
  ∃ payload clientHost, i.1 = .update payload clientHost ∧
    updateRecord server.nodeTtlSeconds payload (some clientHost) (i.2 0) = .ok record

/-- Every read is answered, and every update that makes a clean record is answered with status
200. -/
structure Server.Serves (nodes : Nodes) : Prop where
  reads : ∀ clock request, request.IsRead → (server.handle nodes clock request).1.isSome
  updates : ∀ clock payload clientHost record,
    updateRecord server.nodeTtlSeconds payload (some clientHost) (clock 0) = .ok record →
    record.Clean →
    ∃ body, (server.handle nodes clock (.update payload clientHost)).1 = some ⟨200, body⟩

theorem Nodes.Clean.serves {nodes : Nodes} (h : nodes.Clean) :
  server.Serves nodes
  := ⟨fun clock _ hread => h.isSome_handle server clock hread,
    fun _ _ _ _ hrecord hclean => h.exists_handle_update server hrecord hclean⟩

/-- An accepted update stores its record, whether it is saved or not. -/
theorem handle_update_of_makes {nodes : Nodes} {i : Request × Clock} {record : Record}
    (h : server.Makes i record) :
  (server.handle nodes i.2 i.1).2 = nodes.set record.nodeId record
  := by
  obtain ⟨payload, clientHost, hi, hrecord⟩ := h
  obtain ⟨items, raw, rfl, -⟩ := exists_of_updateRecord hrecord
  rw [hi]
  simp only [Server.handle, Server.updateNode, updateNode_eq_ok nodes hrecord]

/-- A request keeps a map clean if the record it makes, if it makes one, is clean. -/
theorem Nodes.Clean.handle {nodes : Nodes} (h : nodes.Clean) {i : Request × Clock}
    (hmakes : ∀ record, server.Makes i record → record.Clean) :
  Nodes.Clean (server.handle nodes i.2 i.1).2
  := by
  obtain ⟨request, clock⟩ := i
  cases request with
  | health => exact h
  | nodes =>
      simp only [Server.handle, h.listNodes_eq_ok]
      apply h.cleanupExpired
  | files =>
      simp only [Server.handle, h.listFiles_eq_ok]
      apply h.cleanupExpired
  | query fileHash fileName =>
      simp only [Server.handle, Server.findFileLocations]
      split
      · exact h
      · rw [h.buildFileIndex_eq_ok]
        apply h.cleanupExpired
  | snapshot =>
      have hclean := h.cleanupExpired (clock 0)
      have hlisted := hclean.cleanupExpired (clock 3)
      simp only [Server.handle, Server.snapshot, h.cleanupExpired_eq_ok, hclean.listNodes_eq_ok,
        hlisted.listFiles_eq_ok]
      apply hlisted.cleanupExpired
  | update payload clientHost =>
      cases hrecord : updateRecord server.nodeTtlSeconds payload (some clientHost) (clock 0) with
      | ok record =>
          have hmade : server.Makes (.update payload clientHost, clock) record :=
            ⟨payload, clientHost, rfl, hrecord⟩
          rw [handle_update_of_makes server hmade]
          apply h.set ((hmakes record hmade).cleanFor hrecord)
      | error e =>
          have hnodes : (server.handle nodes clock (.update payload clientHost)).2 = nodes := by
            cases payload with
            | dict items =>
                simp only [Server.handle, Server.updateNode, Tracker.updateNode, hrecord, bind,
                  Except.bind]
            | _ => rfl
          rw [hnodes]
          exact h
  | offline payload =>
      cases payload with
      | dict items => apply h.markNodeOffline
      | _ => exact h
  | delete nodeId => apply h.markNodeOffline

/-- If every accepted update of a run makes a clean record, the map is clean. -/
theorem clean_run {requests : List (Request × Clock)}
    (h : ∀ i ∈ requests, ∀ record, server.Makes i record → record.Clean) :
  Nodes.Clean (server.run requests)
  := by
  induction requests using List.reverseRecOn with
  | nil => apply Nodes.clean_empty
  | append_singleton requests i ih =>
      rw [Server.run, List.foldl_append]
      apply Nodes.Clean.handle
      · apply ih
        intro j hj
        apply h j (List.mem_append_left _ hj)
      · apply h i
        simp

/-- If the call of an event is an update that is accepted, its record is clean. -/
def Event.Clean [JsonCodec] (event : Event) : Prop :=
  ∀ payload remoteHost nodeTtlSeconds now record,
    event.operation = .updateNode payload remoteHost →
    updateRecord nodeTtlSeconds payload remoteHost now = .ok record → record.Clean

/-- A call keeps a map clean if the record it stores, if it stores one, is clean. -/
theorem Nodes.Clean.after {nodes : Nodes} (h : nodes.Clean) {op : Operation} {nodeTtlSeconds : ℤ}
    {now : Time}
    (hop : ∀ payload remoteHost record, op = .updateNode payload remoteHost →
      updateRecord nodeTtlSeconds payload remoteHost now = .ok record → record.Clean) :
  Nodes.Clean (op.after nodeTtlSeconds nodes now)
  := by
  apply forall_after h
  intro payload remoteHost record heq hrecord
  apply (hop payload remoteHost record heq hrecord).cleanFor hrecord

/-- In every state of a run of requests every read is answered, and every update that makes a clean
record with status 200, exactly when every accepted update of the run makes a clean record. In runs
in which saves fail and processes end and start, it is enough that every accepted update makes a
clean record. -/
theorem serves_run_iff [JsonCodec] :
  (∀ requests : List (Request × Clock),
    (∀ before after, requests = before ++ after → server.Serves (server.run before)) ↔
      ∀ i ∈ requests, ∀ record, server.Makes i record → record.Clean) ∧
  ∀ events : List Event, (∀ event ∈ events, event.Clean) →
    ∃ w, (World.start server.nodeTtlSeconds).run events = some w ∧ server.Serves w.nodes
  := by
  constructor
  · intro requests
    constructor
    · intro hserves i hi record hmakes
      obtain ⟨before, after, rfl⟩ := List.append_of_mem hi
      have hstate := hserves (before ++ [i]) after (by simp)
      have hrun : server.run (before ++ [i])
          = (server.run before).set record.nodeId record := by
        rw [← handle_update_of_makes server hmakes, Server.run, List.foldl_append]
        rfl
      have hreads := hstate.reads (fun _ => i.2 0) .nodes trivial
      rw [hrun] at hreads
      apply clean_of_isSome_handle_nodes server hreads (Dict.get?_set_self _ _ _)
      obtain ⟨payload, clientHost, -, hrecord⟩ := hmakes
      rw [(updateRecord_spec hrecord).expiresAtEpoch_eq]
      apply lt_add_of_pos_right (i.2 0) server.lease_pos
    · rintro hclean before after rfl
      apply Nodes.Clean.serves
      apply clean_run
      intro i hi
      apply hclean i (List.mem_append_left _ hi)
  · intro events hclean
    obtain ⟨w, hw, hnodes, -⟩ := exists_run_holds (P := Nodes.Clean) Nodes.clean_empty
      (fun _ _ hsame hnodes => hsame.clean hnodes) server.nodeTtlSeconds
      fun event hevent nodeTtlSeconds nodes now hnodes =>
        hnodes.after fun payload remoteHost record hop hrecord =>
          hclean event hevent payload remoteHost nodeTtlSeconds now record hop hrecord
    exact ⟨w, hw, hnodes.serves server⟩

end RecursionLimit

/-! ### A name with a surrogate -/

/-- A server with a state path. -/
def savingServer : Server := ⟨90, by decide, true⟩

/-- The update of a node with one file, at the start of the epoch. -/
def nameOneFile (fileName : Str) : Request × Clock :=
  (.update (.dict [
    (Str.ofString "node_id", .str (Str.ofString "node-a")),
    (Str.ofString "host", .str (Str.ofString "127.0.0.1")),
    (Str.ofString "port", .int 9001),
    (Str.ofString "resources", .list [.dict [
      (Str.ofString "file_hash", .str (Str.ofString "h")),
      (Str.ofString "file_name", .str fileName),
      (Str.ofString "blocks", .list [.int 0])]])]) (Str.ofString "127.0.0.1"), fun _ => 0)

/-- A name without surrogates does not disturb the service. -/
theorem serves_run_plainName :
  let _ := UnicodeData.ascii
  let _ := RecursionLimit.default
  savingServer.Serves (savingServer.run [nameOneFile (Str.ofString "a.txt")])
  := by
  intro _ _
  let _ := JsonCodec.whole
  apply ((serves_run_iff savingServer).1 [nameOneFile (Str.ofString "a.txt")]).mpr _
    [nameOneFile (Str.ofString "a.txt")] [] rfl
  rintro i hi record ⟨payload, clientHost, hupdate, hrecord⟩
  rw [List.mem_singleton.mp hi] at hupdate hrecord
  obtain ⟨rfl, rfl⟩ := Request.update.inj hupdate
  obtain rfl := Except.ok.inj hrecord
  constructor
  · exact ⟨"node-a", rfl⟩
  · exact ⟨"127.0.0.1", rfl⟩
  · intro resource hresource
    obtain rfl := List.mem_singleton.mp hresource
    constructor
    · exact ⟨"h", rfl⟩
    · exact ⟨"a.txt", rfl⟩
    · intro block hblock
      obtain rfl := List.mem_singleton.mp hblock
      simp [Block.Encodable]
    · simp [asOptionalString]
  · exact True.intro
  · decide
  · decide

/-- The update of another node, without files. -/
def updateOfNodeB : Request :=
  .update (.dict [
    (Str.ofString "node_id", .str (Str.ofString "node-b")),
    (Str.ofString "host", .str (Str.ofString "127.0.0.1")),
    (Str.ofString "port", .int 9001)]) (Str.ofString "127.0.0.1")

/-- It is not the case that every read and every valid update is answered after whatever updates:
after one with a surrogate in a file name, the update of another node is not answered, nor are the
nodes listed. -/
theorem not_serves_run :
  let _ := UnicodeData.ascii
  let _ := RecursionLimit.default
  (savingServer.handle (savingServer.run [nameOneFile [.surrogate 0]]) (fun _ => 0)
    updateOfNodeB).1 = none ∧
  ¬ ∀ requests : List (Request × Clock), savingServer.Serves (savingServer.run requests)
  := by
  intro _ _
  constructor
  · decide +kernel
  intro hall
  have hreads := (hall [nameOneFile [.surrogate 0]]).reads (fun _ => 0) .nodes trivial
  have hclean := clean_of_isSome_handle_nodes savingServer hreads
    (show (savingServer.run [nameOneFile [.surrogate 0]]).get? (Str.ofString "node-a") = some _
      from rfl) (by decide)
  have hname := (hclean.resources _ List.mem_cons_self).fileName
  revert hname
  decide

end Tracker
