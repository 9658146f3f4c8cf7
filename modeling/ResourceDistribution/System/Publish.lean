import ResourceDistribution.Node.Serving
import ResourceDistribution.Node.TrackerDto
import ResourceDistribution.Tracker.Leases
import ResourceDistribution.Tracker.NormalForm

/-!
# Publishing

The index a node sends and the records the tracker makes of it. The tracker strips white space from
the ends of a name and rejects a resource without blocks; otherwise it stores what the node sent
(`publish_faithful`).
-/

open Python Fallible Node Tracker

namespace System

/-- What the tracker stores for a block of the index. -/
def publishedBlock (block : BlockResource) : Block where
  index := block.index
  hash := some (Str.ofString block.hash)
  size := some block.size

/-- What the tracker stores for a file of the index. -/
def published (resource : FileResource) : Resource where
  fileHash := Str.ofString resource.fileHash
  fileName := (Str.ofString resource.fileName).strip
  blocks := resource.blocks.map publishedBlock
  fileSize := some resource.fileSize
  blockSize := some resource.blockSize
  contentType := none

/-- A resource as nodes make them: its hashes are digests, and its blocks are numbered in increasing
order. -/
structure Indexed (resource : FileResource) : Prop where
  fileHash_digest : IsDigest resource.fileHash
  blocks_digest : ∀ block ∈ resource.blocks, IsDigest block.hash
  blocks_increasing : resource.blocks.Pairwise (fun a b => a.index < b.index)

/-- A resource that the tracker stores as it is, but for the white space at the ends of its name. -/
structure Publishable (resource : FileResource) : Prop extends Indexed resource where
  fileName_not_blank : (Str.ofString resource.fileName).strip ≠ []
  blocks_ne_nil : resource.blocks ≠ []

/-- A digest has no white space. -/
theorem trimmed_of_isDigest {s : String} (h : IsDigest s) :
  (Str.ofString s).Trimmed
  := by
  have hdigits : (hexDigits.all fun c => !Str.isspace (.scalar c)) = true := by decide
  apply Str.trimmed_of_forall
  intro c hc
  obtain ⟨d, hd, rfl⟩ := List.mem_map.mp hc
  simpa using List.all_eq_true.mp hdigits d (h.2 d hd)

theorem ofString_ne_nil_of_isDigest {s : String} (h : IsDigest s) :
  Str.ofString s ≠ []
  := by
  rw [Ne, Str.ofString_eq_nil]
  rintro rfl
  simp [IsDigest] at h

/-- A string that is not blank is truthy, so no fallback is taken. -/
theorem or_of_not_blank {s : String} (h : (Str.ofString s).strip ≠ []) (fallback : Json) :
  (jsonOfString s).or fallback = jsonOfString s
  := by
  have hne : Str.ofString s ≠ [] := by
    intro hnil
    rw [hnil] at h
    exact h rfl
  simp [jsonOfString, Json.or, Json.truthy, hne]

/-- A string that is not blank is stored stripped. -/
theorem asNonEmptyString_of_not_blank {s : String} (h : (Str.ofString s).strip ≠ [])
    (fieldName : String) :
  asNonEmptyString (jsonOfString s) fieldName = .ok (Str.ofString s).strip
  := asNonEmptyString_eq_ok_iff.mpr ⟨_, rfl, h, rfl⟩

theorem or_of_blocks_ne_nil {blocks : List BlockResource} (h : blocks ≠ []) (fallback : Json) :
  (Json.list ((blocks.map TrackerBlock.from).map TrackerBlock.toJson)).or fallback
    = .list ((blocks.map TrackerBlock.from).map TrackerBlock.toJson)
  := by
  simp [Json.or, Json.truthy, h]

section UnicodeData

variable [UnicodeData]

theorem optionalInt_of_get_eq {items : List (Str × Json)} {name : String} {n : ℕ}
    (h : Json.get items name = jsonOfNat n) (fieldName : String) :
  optionalInt items name fieldName = .ok (some (n : ℤ))
  := by
  have hget : Json.get items name = optionalJson (some (n : ℤ)) := h
  apply optionalInt_of_get hget
  rintro _ ⟨⟩
  apply Int.natCast_nonneg

omit [UnicodeData] in
/-- The blocks of the index are in normal form. -/
theorem normal_publishedBlock {block : BlockResource} (h : IsDigest block.hash) :
  (publishedBlock block).Normal
  := by
  constructor
  · constructor
    · apply Int.natCast_nonneg
    · rintro _ ⟨⟩
      exact ofString_ne_nil_of_isDigest h
    · rintro _ ⟨⟩
      apply Int.natCast_nonneg
  · rintro _ ⟨⟩
    exact trimmed_of_isDigest h

/-- The blocks of the index are stored as they are. -/
theorem normalizeBlocks_toJson {blocks : List BlockResource}
    (hdigest : ∀ block ∈ blocks, IsDigest block.hash)
    (hincreasing : blocks.Pairwise (fun a b => a.index < b.index)) :
  normalizeBlocks (.list ((blocks.map TrackerBlock.from).map TrackerBlock.toJson))
    = .ok (blocks.map publishedBlock)
  := by
  have hshown : (blocks.map TrackerBlock.from).map TrackerBlock.toJson
      = (blocks.map publishedBlock).map blockJson := by
    rw [List.map_map, List.map_map]
    rfl
  rw [hshown]
  apply normalizeBlocks_map_blockJson
  · intro b hb
    obtain ⟨block, hblock, rfl⟩ := List.mem_map.mp hb
    apply normal_publishedBlock (hdigest block hblock)
  · rw [List.pairwise_map]
    apply hincreasing.imp
    intro a b hab
    exact Int.ofNat_lt.mpr hab

/-- A publishable resource is stored as it is, but for the ends of its name. -/
theorem normalizeResource_toJson {resource : FileResource} (h : Publishable resource) :
  normalizeResource (TrackerResource.from resource).toJson = .ok (published resource)
  := by
  have hhash : asNonEmptyString (jsonOfString resource.fileHash) "file_hash"
      = .ok (Str.ofString resource.fileHash) :=
    asNonEmptyString_of_trimmed (ofString_ne_nil_of_isDigest h.fileHash_digest)
      (trimmed_of_isDigest h.fileHash_digest) "file_hash"
  have hblocks := normalizeBlocks_toJson h.blocks_digest h.blocks_increasing
  simp only [TrackerResource.from, TrackerResource.toJson, jsonOfFields, List.map_cons,
    List.map_nil, normalizeResource]
  rw [optionalInt_of_get_eq (n := resource.fileSize) (by simp),
    optionalInt_of_get_eq (n := resource.blockSize) (by simp)]
  simp only [Json.get_cons, String.reduceEq, if_true, if_false, hhash,
    or_of_not_blank h.fileName_not_blank, asNonEmptyString_of_not_blank h.fileName_not_blank,
    or_of_blocks_ne_nil h.blocks_ne_nil, hblocks]
  rfl

theorem mapM_normalizeResource {resources : List FileResource}
    (h : ∀ resource ∈ resources, Publishable resource) :
  ((resources.map TrackerResource.from).map TrackerResource.toJson).mapM normalizeResource
    = .ok (resources.map published)
  := by
  rw [List.map_map, mapM_eq_ok_iff, List.forall₂_map_left_iff, List.forall₂_map_right_iff,
    List.forall₂_same]
  intro resource hresource
  apply normalizeResource_toJson (h resource hresource)

/-- A resource that the tracker accepts has a name that is not blank, and blocks. -/
theorem publishable_of_normalizeResource {resource : FileResource} (hindexed : Indexed resource)
    {r : Resource} (h : normalizeResource (TrackerResource.from resource).toJson = .ok r) :
  Publishable resource
  := by
  simp only [TrackerResource.from, TrackerResource.toJson, jsonOfFields, List.map_cons,
    List.map_nil, normalizeResource, Json.get_cons, Json.get_nil, String.reduceEq, if_true,
    if_false] at h
  obtain ⟨fileHash, -, h⟩ := bind_eq_ok.mp h
  obtain ⟨fileName, hname, h⟩ := bind_eq_ok.mp h
  obtain ⟨blocks, hblocks, -⟩ := bind_eq_ok.mp h
  refine ⟨hindexed, ?_, ?_⟩
  · obtain ⟨t, ht, hne, -⟩ := asNonEmptyString_eq_ok_iff.mp hname
    rw [jsonOfString, Json.or] at ht
    split at ht
    · obtain rfl := Json.str.inj ht
      exact hne
    · simp at ht
  · intro hnil
    rw [hnil] at hblocks
    simp [Json.or, Json.truthy, normalizeBlocks, invalid] at hblocks

/-! ### From the share directory to the registry -/

omit [UnicodeData] in
/-- Whatever the chunks, `index_file` makes an indexed resource of them. -/
theorem indexed_resourceOfChunks [Sha256] (fileName : String) (content : List UInt8)
    (blockSize : Nat) (chunks : List (List UInt8)) :
  Indexed (resourceOfChunks fileName content blockSize chunks)
  := by
  constructor
  · apply Sha256.hex_digest
  · intro block hblock
    obtain ⟨i, hi, rfl⟩ := List.mem_iff_getElem.mp hblock
    simp only [resourceOfChunks, getElem_blocksOfChunks]
    apply Sha256.hex_digest
  · apply List.pairwise_iff_getElem.mpr
    intro i j hi hj hij
    simpa only [resourceOfChunks, getElem_blocksOfChunks] using hij

omit [UnicodeData] in
/-- The files of a share directory without empty files and blank names are publishable. -/
theorem publishable_of_scan [Sha256] {fs : FileSystem} {root : OsString} {blockSize : Nat}
    {index : ResourceIndex} (hscan : fs.scanShareDir root blockSize = .ok index)
    (hempty : ∀ resource ∈ index.resources, resource.fileSize ≠ 0)
    (hnames : ∀ resource ∈ index.resources, (Str.ofString resource.fileName).strip ≠ []) :
  ∀ resource ∈ index.resources, Publishable resource
  := by
  obtain ⟨hb, -, -, hresources⟩ := scanShareDir_spec hscan
  intro resource hmem
  have hname := hnames resource hmem
  have hsize := hempty resource hmem
  rw [hresources] at hmem
  obtain ⟨path, -, rfl⟩ := List.mem_map.mp hmem
  set content := fs.contentAt path with hcontent
  set reads := fs.reads (fs.fullPath path)
  have hchunks : readChunks reads blockSize content ≠ [] := by
    intro hnil
    have hflatten := flatten_readChunks hb reads content
    rw [hnil] at hflatten
    apply hsize
    change content.length = 0
    rw [← hflatten]
    rfl
  use indexed_resourceOfChunks _ _ _ _, hname
  intro hnil
  apply hchunks
  apply List.eq_nil_of_length_eq_zero
  rw [← length_blocksOfChunks]
  exact congrArg List.length hnil

/-- What the tracker makes of the update of a node. -/
theorem updateRecord_toJson {index : ResourceIndex}
    (hindex : ∀ resource ∈ index.resources, Publishable resource) {nodeId host : String}
    (hid : (Str.ofString nodeId).strip ≠ []) (hhost : (Str.ofString host).strip ≠ []) {port : ℕ}
    (hport : 1 ≤ port ∧ port ≤ 65535) (nodeTtlSeconds : ℤ) (remoteHost : Option Str) (now : Time) :
  ∃ record, updateRecord nodeTtlSeconds (updateRequestFromIndex nodeId host port index).toJson
      remoteHost now = .ok record ∧
    record.nodeId = (Str.ofString nodeId).strip ∧ record.host = (Str.ofString host).strip ∧
    record.port = port ∧ record.resources = index.resources.map published
  := by
  have hint : asInt (jsonOfNat port) "port" (some 1) = .ok port := asInt_int (by omega) "port"
  have hle : ¬ (65535 : ℤ) < port := by omega
  have hresources := mapM_normalizeResource hindex
  constructor
  constructor
  · simp only [updateRequestFromIndex, UpdateNodeRequest.toJson, jsonOfFields, List.map_cons,
      List.map_nil, updateRecord, asPort, rawResources, Json.get_cons, Json.getD_cons,
      String.reduceEq, if_true, if_false, asNonEmptyString_of_not_blank hid, or_of_not_blank hhost,
      asNonEmptyString_of_not_blank hhost, hint, hle, hresources, bind, Except.bind, pure,
      Except.pure]
    rfl
  · exact ⟨rfl, rfl, rfl, rfl⟩

/-- An update of an index that is accepted makes a record of the index. -/
theorem resources_of_updateRecord {index : ResourceIndex}
    (hindex : ∀ resource ∈ index.resources, Indexed resource) {nodeId host : String} {port : ℕ}
    {nodeTtlSeconds : ℤ} {remoteHost : Option Str} {now : Time} {record : Record}
    (h : updateRecord nodeTtlSeconds (updateRequestFromIndex nodeId host port index).toJson
      remoteHost now = .ok record) :
  (∀ resource ∈ index.resources, Publishable resource) ∧
    record.resources = index.resources.map published
  := by
  obtain ⟨items, raw, heq, hr⟩ := exists_of_updateRecord h
  obtain rfl := Json.dict.inj heq
  have hresources := hr.resources
  have hgiven := hr.given
  simp only [List.map_cons, List.map_nil, rawResources, Json.getD_cons, String.reduceEq, if_true,
    if_false] at hgiven
  obtain rfl := Except.ok.inj hgiven
  have hpublishable : ∀ resource ∈ index.resources, Publishable resource := by
    intro resource hmem
    obtain ⟨r, -, hr⟩ := exists_of_mapM_eq_ok hresources _
      (List.mem_map_of_mem (List.mem_map_of_mem hmem))
    exact publishable_of_normalizeResource (hindex resource hmem) hr
  use hpublishable
  exact (Except.ok.inj ((mapM_normalizeResource hpublishable).symm.trans hresources)).symm

/-- An index of publishable resources is accepted and shown. -/
theorem updateNode_toJson {index : ResourceIndex}
    (hindex : ∀ resource ∈ index.resources, Publishable resource) {nodeId host : String}
    (hid : (Str.ofString nodeId).strip ≠ []) (hhost : (Str.ofString host).strip ≠ []) {port : ℕ}
    (hport : 1 ≤ port ∧ port ≤ 65535) (nodeTtlSeconds : ℤ) (nodes : Nodes)
    (remoteHost : Option Str) (now : Time) :
  ∃ response nodes',
    updateNode nodeTtlSeconds nodes (updateRequestFromIndex nodeId host port index).toJson remoteHost
      now = .ok (response, nodes') ∧
    ∀ t, t < now + nodeTtlSeconds * ticksPerSecond →
      ∃ node, Prod.fst <$> getNode nodes' (jsonOfString nodeId) t = .ok (some node) ∧
        node.nodeId = (Str.ofString nodeId).strip ∧ node.host = (Str.ofString host).strip ∧
        node.port = port ∧ node.resources = index.resources.map published
  := by
  obtain ⟨record, hrecord, hnodeId, hhost', hport', hresources⟩ :=
    updateRecord_toJson hindex hid hhost hport nodeTtlSeconds remoteHost now
  constructor
  use nodes.set record.nodeId record
  constructor
  · simp only [updateNode, hrecord, bind, Except.bind, pure, Except.pure]
    rfl
  · intro t ht
    use publicNode record
    constructor
    · have hget : (cleanupExpired (nodes.set record.nodeId record) t).2.get?
          (Str.ofString nodeId).strip = some record := by
        rw [get?_cleanupExpired, Lease.live_eq_some_iff, ← hnodeId]
        use Dict.get?_set_self nodes record.nodeId record
        rw [(updateRecord_spec hrecord).expiresAtEpoch_eq]
        exact ht
      simp only [getNode, asNonEmptyString_of_not_blank hid, bind, Except.bind, pure, Except.pure,
        Functor.map, Except.map, hget, Option.map_some]
    · exact ⟨hnodeId, hhost', hport', hresources⟩

/-- A share directory without empty files and blank names is published faithfully: the tracker
accepts the update, and until the node's lease runs out it shows the node with the resources of the
index, each with its hash, sizes and blocks, and with its name less the white space at its ends. -/
theorem publish_faithful [Sha256] {fs : FileSystem} {root : OsString} {blockSize : Nat}
    {index : ResourceIndex} (hscan : fs.scanShareDir root blockSize = .ok index)
    (hempty : ∀ resource ∈ index.resources, resource.fileSize ≠ 0)
    (hnames : ∀ resource ∈ index.resources, (Str.ofString resource.fileName).strip ≠ [])
    {nodeId host : String} (hid : (Str.ofString nodeId).strip ≠ [])
    (hhost : (Str.ofString host).strip ≠ []) {port : ℕ} (hport : 1 ≤ port ∧ port ≤ 65535)
    (nodeTtlSeconds : ℤ) (nodes : Nodes) (remoteHost : Option Str) (now : Time) :
  ∃ response nodes',
    updateNode nodeTtlSeconds nodes (updateRequestFromIndex nodeId host port index).toJson remoteHost
      now = .ok (response, nodes') ∧
    ∀ t, t < now + nodeTtlSeconds * ticksPerSecond →
      ∃ node, Prod.fst <$> getNode nodes' (jsonOfString nodeId) t = .ok (some node) ∧
        node.nodeId = (Str.ofString nodeId).strip ∧ node.host = (Str.ofString host).strip ∧
        node.port = port ∧ node.resources = index.resources.map published
  := by
  have hindex := publishable_of_scan hscan hempty hnames
  apply updateNode_toJson hindex hid hhost hport

end UnicodeData

/-! ### A share directory with two files -/

/-- The files `a` and `ab `, the second one of two blocks, where another node is registered. -/
theorem publish_faithful_twoFiles :
  let _ := UnicodeData.ascii
  let _ := Sha256.short
  let index : ResourceIndex := ⟨[resourceOf linuxReads 1 [utf8 "a"] [97],
    resourceOf linuxReads 1 [utf8 "ab "] [97, 98]]⟩
  let nodes := updateOfNodeA.after 90 Dict.empty 0
  ∃ response nodes',
    updateNode 90 nodes (updateRequestFromIndex "node-b" "127.0.0.1" 9002 index).toJson none
      5 = .ok (response, nodes') ∧
    ∀ t, t < 5 + 90 * ticksPerSecond →
      ∃ node, Prod.fst <$> getNode nodes' (jsonOfString "node-b") t = .ok (some node) ∧
        node.nodeId = (Str.ofString "node-b").strip ∧
        node.host = (Str.ofString "127.0.0.1").strip ∧
        node.port = 9002 ∧ node.resources = index.resources.map published
  := by
  intro _ _ index nodes
  have hscan : (Node.twoFiles "a" "ab " [97] [97, 98]).scanShareDir (utf8 "/share") 1
      = .ok index := rfl
  apply publish_faithful hscan
  · simp [index, resourceOf, resourceOfChunks]
  · decide
  · decide
  · decide
  · decide

/-- The file ` a` is accepted, but shown under the name `a`. -/
theorem not_publish_verbatim :
  let _ := UnicodeData.ascii
  let _ := Sha256.short
  ∃ index, (singleFile " a" [97]).scanShareDir (utf8 "/share") 512 = .ok index ∧
    ∃ response nodes',
      updateNode 90 Dict.empty (updateRequestFromIndex "node-a" "127.0.0.1" 9001 index).toJson none
        0 = .ok (response, nodes') ∧
      ∃ node, Prod.fst <$> getNode nodes' (jsonOfString "node-a") 0 = .ok (some node) ∧
        node.resources.map Resource.fileName
          ≠ index.resources.map fun resource => Str.ofString resource.fileName
  := by
  intro _ _
  let index : ResourceIndex := ⟨[resourceOf linuxReads 512 [utf8 " a"] [97]]⟩
  have hscan : (singleFile " a" [97]).scanShareDir (utf8 "/share") 512 = .ok index := rfl
  use index, hscan
  have hindex := publishable_of_scan hscan (by simp [index, resourceOf, resourceOfChunks])
    (by decide)
  have hid : (Str.ofString "node-a").strip ≠ [] := by decide
  have hhost : (Str.ofString "127.0.0.1").strip ≠ [] := by decide
  have hport : 1 ≤ 9001 ∧ 9001 ≤ 65535 := by decide
  obtain ⟨response, nodes', hupdate, hshow⟩ :=
    updateNode_toJson hindex hid hhost hport 90 Dict.empty none 0
  obtain ⟨node, hget, -, -, -, hresources⟩ := hshow 0 (by decide)
  use response, nodes', hupdate, node, hget
  rw [hresources]
  decide

end System
