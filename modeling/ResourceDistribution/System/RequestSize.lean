import Mathlib.Algebra.BigOperators.Ring.List
import Mathlib.Algebra.Order.BigOperators.Group.List
import ResourceDistribution.Node.SerdeJson
import ResourceDistribution.System.Publish
import ResourceDistribution.Tracker.Body

/-!
# The size of an update

A node writes its whole index into one request, with a digest for every block. The tracker reads a
body of at most a mebibyte, so an index is accepted exactly when its text is not longer
(`published_iff`). The length of the text is bounded from both sides by the number of blocks: some
11000 blocks are too many, however large they are.
-/

open Python Node Tracker

namespace System

/-! ### Lengths of texts -/

/-- The number of bytes of a text in UTF-8. -/
def byteLength (l : List Char) : ℕ := (l.flatMap String.utf8EncodeChar).length

theorem length_utf8_ofList (l : List Char) :
  (utf8 (String.ofList l)).length = byteLength l
  := by
  rw [utf8, String.toList_ofList, byteLength]

@[simp]
theorem byteLength_append (l m : List Char) :
  byteLength (l ++ m) = byteLength l + byteLength m
  := by
  rw [byteLength, List.flatMap_append, List.length_append, byteLength, byteLength]

@[simp]
theorem byteLength_cons (c : Char) (l : List Char) :
  byteLength (c :: l) = c.utf8Size + byteLength l
  := by
  rw [byteLength, List.flatMap_cons, List.length_append, String.length_utf8EncodeChar, byteLength]

@[simp]
theorem byteLength_nil :
  byteLength [] = 0
  := rfl

/-- A text of ASCII characters has a byte for each. -/
theorem byteLength_of_ascii {l : List Char} (h : ∀ c ∈ l, c.utf8Size = 1) :
  byteLength l = l.length
  := by
  induction l with
  | nil => rfl
  | cons c l ih =>
      rw [byteLength_cons, h c List.mem_cons_self, ih fun d hd => h d (.tail c hd),
        List.length_cons, Nat.add_comm]

/-- The number of bytes that a string takes within its quotes. -/
def escapedLength (s : String) : ℕ := byteLength (s.toList.flatMap escapeChar)

theorem byteLength_strText (s : String) :
  byteLength (strText (Str.ofString s)) = escapedLength s + 2
  := by
  rw [strText_ofString]
  simp only [byteLength_append, byteLength_cons, byteLength_nil]
  change 1 + escapedLength s + (1 + 0) = _
  omega

/-- No character takes more than six times its bytes. -/
theorem escapedLength_le (s : String) :
  escapedLength s ≤ 6 * (utf8 s).length
  := by
  have hescape : ∀ i ∈ Json.escapes, byteLength i.2.toList ≤ 6 := by decide
  have hcontrol : ∀ n < 0x20, byteLength
      ("\\u00".toList ++ [Nat.digitChar (n / 16), Nat.digitChar (n % 16)]) ≤ 6 := by
    decide
  have hchar : ∀ c : Char, byteLength (escapeChar c) ≤ 6 * c.utf8Size := by
    intro c
    have hpos := c.utf8Size_pos
    cases hlookup : Json.escapes.lookup c.toNat with
    | some s =>
        have hle : byteLength s.toList ≤ 6 :=
          hescape (c.toNat, s) (Dict.mem_of_lookup_eq_some hlookup)
        simp only [escapeChar, hlookup]
        omega
    | none =>
        simp only [escapeChar, hlookup]
        split
        · rename_i hlt
          have hle := hcontrol c.toNat hlt
          omega
        · simp only [byteLength_cons, byteLength_nil]
          omega
  rw [escapedLength, utf8]
  induction s.toList with
  | nil => rfl
  | cons c l ih =>
      rw [List.flatMap_cons, List.flatMap_cons, byteLength_append, List.length_append,
        String.length_utf8EncodeChar]
      have := hchar c
      omega

theorem escapedLength_of_isDigest {s : String} (h : IsDigest s) :
  escapedLength s = 64
  := by
  have hdigits : ∀ c ∈ hexDigits, escapeChar c = [c] ∧ c.utf8Size = 1 := by
    have hall : (hexDigits.all fun c => escapeChar c = [c] ∧ c.utf8Size = 1) = true := by decide
    intro c hc
    apply of_decide_eq_true (List.all_eq_true.mp hall c hc)
  have hescape : s.toList.flatMap escapeChar = s.toList := by
    have hall := h.2
    generalize s.toList = l at hall
    induction l with
    | nil => rfl
    | cons c l ih =>
        rw [List.flatMap_cons, (hdigits c (hall c List.mem_cons_self)).1,
          ih fun d hd => hall d (.tail c hd)]
        rfl
  rw [escapedLength, hescape, byteLength_of_ascii fun c hc => (hdigits c (h.2 c hc)).2, h.1]

/-- The number of digits of a number. -/
def digitCount (n : ℕ) : ℕ := (Nat.toDigits 10 n).length

theorem digitCount_pos (n : ℕ) :
  0 < digitCount n
  := Nat.length_toDigits_pos

theorem digitCount_le {n k : ℕ} (hk : 0 < k) (h : n < 10 ^ k) :
  digitCount n ≤ k
  := (Nat.length_toDigits_le_iff (by decide) hk).mpr h

theorem byteLength_nat (n : ℕ) :
  byteLength (compact (jsonOfNat n)) = digitCount n
  := by
  have hcompact : compact (jsonOfNat n) = Nat.toDigits 10 n := by
    rw [jsonOfNat, compact, if_neg (by omega), Int.natAbs_natCast]
    rfl
  rw [hcompact, digitCount, byteLength_of_ascii]
  intro c hc
  have hdigit := Nat.isDigit_of_mem_toDigits (by decide) (by decide) hc
  rw [Char.isDigit, Bool.and_eq_true, decide_eq_true_iff, decide_eq_true_iff] at hdigit
  rw [Char.utf8Size_eq_one_iff]
  apply UInt32.le_trans hdigit.2
  decide

theorem byteLength_string (s : String) :
  byteLength (compact (jsonOfString s)) = escapedLength s + 2
  := by
  rw [jsonOfString, compact, byteLength_strText]

@[simp]
theorem utf8Size_comma :
  ','.utf8Size = 1
  := by decide

/-- The items of a list take their own bytes and a comma or bracket each. -/
theorem byteLength_list (items : List Json) :
  (items.map fun v => byteLength (compact v) + 1).sum + 1 ≤ byteLength (compact (.list items)) ∧
    byteLength (compact (.list items)) ≤ (items.map fun v => byteLength (compact v) + 1).sum + 2
  := by
  have hitems : byteLength (compactItems items)
      = (items.map fun v => byteLength (compact v) + 1).sum := by
    induction items with
    | nil => rfl
    | cons v items ih =>
        rw [compactItems, byteLength_append, byteLength_cons, ih, List.map_cons, List.sum_cons,
          utf8Size_comma]
        omega
  have htail : byteLength (compactItems items).tail ≤ byteLength (compactItems items) ∧
      byteLength (compactItems items) ≤ byteLength (compactItems items).tail + 1 := by
    cases items with
    | nil => decide
    | cons v items =>
        rw [tail_compactItems, compactItems]
        simp only [byteLength_append, byteLength_cons, utf8Size_comma]
        omega
  have hlist : byteLength (compact (.list items)) = byteLength (compactItems items).tail + 2 := by
    rw [compact]
    simp only [byteLength_append, byteLength_cons, byteLength_nil]
    change 1 + _ + (1 + 0) = _
    omega
  omega

/-- An object with some field takes a byte, and for every field its name, its value and four more
bytes. -/
theorem byteLength_fields {fields : List (String × Json)} (hne : fields ≠ []) :
  byteLength (compact (jsonOfFields fields))
    = (fields.map fun i => escapedLength i.1 + byteLength (compact i.2) + 4).sum + 1
  := by
  have hfields : ∀ fields : List (String × Json),
      byteLength (compactFields (fields.map fun i => (Str.ofString i.1, i.2)))
        = (fields.map fun i => escapedLength i.1 + byteLength (compact i.2) + 4).sum := by
    intro fields
    induction fields with
    | nil => rfl
    | cons i fields ih =>
        simp only [List.map_cons, List.sum_cons, compactFields, byteLength_append, byteLength_cons,
          byteLength_strText, ih, utf8Size_comma]
        change 1 + _ + (1 + _) + _ = _
        omega
  have htail : byteLength (compactFields (fields.map fun i => (Str.ofString i.1, i.2))).tail + 1
      = byteLength (compactFields (fields.map fun i => (Str.ofString i.1, i.2))) := by
    cases fields with
    | nil => cases hne rfl
    | cons i fields =>
        rw [List.map_cons, tail_compactFields, compactFields]
        simp only [byteLength_append, byteLength_cons, utf8Size_comma]
        omega
  rw [jsonOfFields, compact, ← hfields, ← htail]
  simp only [byteLength_append, byteLength_cons, byteLength_nil]
  change 1 + _ + (1 + 0) = _
  omega

/-! ### Lengths of updates -/

theorem byteLength_block {block : BlockResource} (h : IsDigest block.hash) :
  byteLength (compact (TrackerBlock.from block).toJson)
    = 92 + digitCount block.index + digitCount block.size
  := by
  have hindex : escapedLength "index" = 5 := by decide
  have hhash : escapedLength "hash" = 4 := by decide
  have hsize : escapedLength "size" = 4 := by decide
  rw [TrackerBlock.toJson, byteLength_fields (List.cons_ne_nil _ _)]
  simp only [TrackerBlock.from, List.map_cons, List.map_nil, List.sum_cons, List.sum_nil,
    byteLength_nat, byteLength_string, escapedLength_of_isDigest h, hindex, hhash, hsize]
  omega

/-- The numbers of an index fit into their types, `u64` and `usize`. -/
structure ResourceFits (resource : FileResource) : Prop where
  fileSize_lt : resource.fileSize < 2 ^ 64
  blockSize_lt : resource.blockSize < 2 ^ 64
  index_lt : ∀ block ∈ resource.blocks, block.index < 2 ^ 64
  size_lt : ∀ block ∈ resource.blocks, block.size < 2 ^ 64

theorem digitCount_le_of_lt {n : ℕ} (h : n < 2 ^ 64) :
  digitCount n ≤ 20
  := by
  apply digitCount_le (by decide)
  omega

/-- The blocks of a resource take at least 95 bytes each, and at most 133. -/
theorem byteLength_blocks {resource : FileResource} (hindexed : Indexed resource)
    (hfits : ResourceFits resource) :
  let blocks := (resource.blocks.map TrackerBlock.from).map TrackerBlock.toJson
  95 * resource.blocks.length + 1 ≤ byteLength (compact (.list blocks)) ∧
    byteLength (compact (.list blocks)) ≤ 133 * resource.blocks.length + 2
  := by
  intro blocks
  obtain ⟨hlower, hupper⟩ := byteLength_list blocks
  have hsum : (blocks.map fun v => byteLength (compact v) + 1).sum
      = (resource.blocks.map fun block =>
          byteLength (compact (TrackerBlock.from block).toJson) + 1).sum := by
    simp only [blocks, List.map_map, Function.comp_def]
  have hblock : ∀ block ∈ resource.blocks,
      95 ≤ byteLength (compact (TrackerBlock.from block).toJson) + 1 ∧
        byteLength (compact (TrackerBlock.from block).toJson) + 1 ≤ 133 := by
    intro block hmem
    have hindex := digitCount_le_of_lt (hfits.index_lt block hmem)
    have hsize := digitCount_le_of_lt (hfits.size_lt block hmem)
    have hpos := digitCount_pos block.index
    have hpos' := digitCount_pos block.size
    rw [byteLength_block (hindexed.blocks_digest block hmem)]
    omega
  have hleast := List.card_nsmul_le_sum (resource.blocks.map fun block =>
    byteLength (compact (TrackerBlock.from block).toJson) + 1) 95 (by
      intro n hn
      obtain ⟨block, hmem, rfl⟩ := List.mem_map.mp hn
      exact (hblock block hmem).1)
  have hmost := List.sum_le_card_nsmul (resource.blocks.map fun block =>
    byteLength (compact (TrackerBlock.from block).toJson) + 1) 133 (by
      intro n hn
      obtain ⟨block, hmem, rfl⟩ := List.mem_map.mp hn
      exact (hblock block hmem).2)
  rw [List.length_map, nsmul_eq_mul, Nat.cast_id] at hleast hmost
  omega

/-- What a resource takes besides its blocks and its name is bounded. -/
theorem byteLength_resource {resource : FileResource} (hindexed : Indexed resource)
    (hfits : ResourceFits resource) :
  95 * resource.blocks.length ≤ byteLength (compact (TrackerResource.from resource).toJson) ∧
    byteLength (compact (TrackerResource.from resource).toJson)
      ≤ 174 + 6 * (utf8 resource.fileName).length + 133 * resource.blocks.length
  := by
  have hhash : escapedLength "file_hash" = 9 := by decide
  have hname : escapedLength "file_name" = 9 := by decide
  have hfile : escapedLength "file_size" = 9 := by decide
  have hblock : escapedLength "block_size" = 10 := by decide
  have hblocks : escapedLength "blocks" = 6 := by decide
  have hescaped := escapedLength_le resource.fileName
  have hfileSize := digitCount_le_of_lt hfits.fileSize_lt
  have hblockSize := digitCount_le_of_lt hfits.blockSize_lt
  obtain ⟨hlower, hupper⟩ := byteLength_blocks hindexed hfits
  rw [TrackerResource.toJson, byteLength_fields (List.cons_ne_nil _ _)]
  simp only [TrackerResource.from, List.map_cons, List.map_nil, List.sum_cons, List.sum_nil,
    byteLength_nat, byteLength_string, escapedLength_of_isDigest hindexed.fileHash_digest, hhash,
    hname, hfile, hblock, hblocks]
  omega

/-- The text of the request that publishes an index. -/
def requestText (nodeId host : String) (port : ℕ) (index : ResourceIndex) : List Char :=
  compact (updateRequestFromIndex nodeId host port index).toJson

/-- The bytes that the node posts. -/
def requestBody (nodeId host : String) (port : ℕ) (index : ResourceIndex) : List UInt8 :=
  utf8 (String.ofList (requestText nodeId host port index))

/-- The number of blocks of an index. -/
def blockCount (index : ResourceIndex) : ℕ :=
  (index.resources.map fun resource => resource.blocks.length).sum

/-- How many bytes a request may take at most. -/
def lengthBound (nodeId host : String) (index : ResourceIndex) : ℕ :=
  97 + 6 * (utf8 nodeId).length + 6 * (utf8 host).length
    + (index.resources.map fun resource =>
      175 + 6 * (utf8 resource.fileName).length + 133 * resource.blocks.length).sum

/-- A request takes at least 95 bytes for every block. Besides, it takes no more than some bytes for
every resource and what the names in it need. -/
theorem length_requestBody {index : ResourceIndex}
    (hindexed : ∀ resource ∈ index.resources, Indexed resource)
    (hfits : ∀ resource ∈ index.resources, ResourceFits resource) (nodeId host : String) {port : ℕ}
    (hport : port < 2 ^ 16) :
  95 * blockCount index ≤ (requestBody nodeId host port index).length ∧
    (requestBody nodeId host port index).length ≤ lengthBound nodeId host index
  := by
  have hid : escapedLength "node_id" = 7 := by decide
  have hhost : escapedLength "host" = 4 := by decide
  have hportName : escapedLength "port" = 4 := by decide
  have hresources : escapedLength "resources" = 9 := by decide
  have hmetadata : escapedLength "metadata" = 8 := by decide
  have hclient : byteLength (compact (jsonOfFields defaultNodeMetadata)) = 31 := by decide
  have hdigits : digitCount port ≤ 5 := digitCount_le (by decide) (by omega)
  have hescapedId := escapedLength_le nodeId
  have hescapedHost := escapedLength_le host
  obtain ⟨hlower, hupper⟩ :=
    byteLength_list ((index.resources.map TrackerResource.from).map TrackerResource.toJson)
  simp only [List.map_map, Function.comp_def] at hlower hupper
  have hleast : 95 * blockCount index ≤ (index.resources.map fun resource =>
      byteLength (compact (TrackerResource.from resource).toJson) + 1).sum := by
    rw [blockCount, ← List.sum_map_mul_left]
    apply List.sum_le_sum
    intro resource hmem
    have := (byteLength_resource (hindexed resource hmem) (hfits resource hmem)).1
    omega
  have hmost : (index.resources.map fun resource =>
      byteLength (compact (TrackerResource.from resource).toJson) + 1).sum
        ≤ (index.resources.map fun resource =>
          175 + 6 * (utf8 resource.fileName).length + 133 * resource.blocks.length).sum := by
    apply List.sum_le_sum
    intro resource hmem
    have := (byteLength_resource (hindexed resource hmem) (hfits resource hmem)).2
    omega
  rw [lengthBound, requestBody, length_utf8_ofList, requestText, UpdateNodeRequest.toJson,
    byteLength_fields (List.cons_ne_nil _ _)]
  simp only [updateRequestFromIndex, List.map_cons, List.map_nil, List.sum_cons, List.sum_nil,
    byteLength_nat, byteLength_string, List.map_map, Function.comp_def, hid, hhost, hportName,
    hresources, hmetadata, hclient]
  omega

/-! ### What the tracker reads -/

theorem sendable_nat {n : ℕ} (h : n < 2 ^ 64) :
  Sendable (jsonOfNat n)
  := by
  rw [jsonOfNat, Sendable]
  omega

theorem sendable_string (s : String) :
  Sendable (jsonOfString s)
  := Str.encodable_ofString s

theorem sendable_fields {fields : List (String × Json)} (h : ∀ i ∈ fields, Sendable i.2)
    (hkeys : (fields.map Prod.fst).Nodup) :
  Sendable (jsonOfFields fields)
  := by
  constructor
  · rw [sendableFields_iff]
    intro i hi
    obtain ⟨j, hj, rfl⟩ := List.mem_map.mp hi
    exact ⟨Str.encodable_ofString j.1, h j hj⟩
  · have hmap : (fields.map fun i => (Str.ofString i.1, i.2)).map Prod.fst
        = (fields.map Prod.fst).map Str.ofString := by
      rw [List.map_map, List.map_map]
      rfl
    rw [hmap]
    apply hkeys.map Str.ofString_injective

theorem sendable_list {α : Type} {l : List α} {f : α → Json} (h : ∀ a ∈ l, Sendable (f a)) :
  Sendable (.list (l.map f))
  := by
  rw [Sendable, sendableItems_iff]
  intro v hv
  obtain ⟨a, ha, rfl⟩ := List.mem_map.mp hv
  apply h a ha

/-- What a node sends of an index whose numbers fit. -/
theorem sendable_request {index : ResourceIndex}
    (hfits : ∀ resource ∈ index.resources, ResourceFits resource) (nodeId host : String) {port : ℕ}
    (hport : port < 2 ^ 16) :
  Sendable (updateRequestFromIndex nodeId host port index).toJson
  := by
  have hblock : ∀ resource ∈ index.resources, ∀ block ∈ resource.blocks,
      Sendable (TrackerBlock.from block).toJson := by
    intro resource hresource block hblock
    apply sendable_fields
    · simp only [TrackerBlock.from, List.forall_mem_cons, List.not_mem_nil, false_implies,
        implies_true, and_true]
      exact ⟨sendable_nat ((hfits resource hresource).index_lt block hblock), sendable_string _,
        sendable_nat ((hfits resource hresource).size_lt block hblock)⟩
    · simp only [List.map_cons, List.map_nil]
      decide
  have hresource : ∀ resource ∈ index.resources, Sendable (TrackerResource.from resource).toJson := by
    intro resource hresource
    apply sendable_fields
    · simp only [TrackerResource.from, List.map_map, List.forall_mem_cons, List.not_mem_nil,
        false_implies, implies_true, and_true]
      exact ⟨sendable_string _, sendable_string _, sendable_nat (hfits resource hresource).fileSize_lt,
        sendable_nat (hfits resource hresource).blockSize_lt,
        sendable_list fun block hmem => hblock resource hresource block hmem⟩
    · simp only [List.map_cons, List.map_nil]
      decide
  apply sendable_fields
  · simp only [updateRequestFromIndex, List.map_map, List.forall_mem_cons, List.not_mem_nil,
      false_implies, implies_true, and_true]
    refine ⟨sendable_string _, sendable_string _, sendable_nat (by omega), sendable_list hresource, ?_⟩
    apply sendable_fields
    · intro i hi
      rw [List.mem_singleton.mp hi]
      apply sendable_string
    · decide
  · simp only [List.map_cons, List.map_nil]
    decide

/-- A request is nested less deep than the tracker is able to parse. -/
theorem depth_request (nodeId host : String) (port : ℕ) (index : ResourceIndex) :
  (updateRequestFromIndex nodeId host port index).toJson.depth ≤ 7
  := by
  simp [UpdateNodeRequest.toJson, TrackerResource.toJson, TrackerBlock.toJson,
    updateRequestFromIndex, defaultNodeMetadata, jsonOfFields, jsonOfString, jsonOfNat]

/-- The request passes the check of its length, and the tracker hands what the node sent over to
`update_node`. -/
def Reaches [UnicodeData] [RecursionLimit] (nodeId host : String) (port : ℕ)
    (index : ResourceIndex) : Prop :=
  let body := requestBody nodeId host port index
  ∃ items, (updateRequestFromIndex nodeId host port index).toJson = .dict items ∧
    readJsonBody (some (decimalText body.length)) body = .payload items

/-- If its length is not above the limit, a request is read as what the node sent. -/
theorem parseBody_requestBody [RecursionLimit] {index : ResourceIndex}
    (hfits : ∀ resource ∈ index.resources, ResourceFits resource) (nodeId host : String) {port : ℕ}
    (hport : port < 2 ^ 16) :
  ∃ items, (updateRequestFromIndex nodeId host port index).toJson = .dict items ∧
    parseBody (requestBody nodeId host port index) = .payload items
  := by
  have hloads := loads_compact (sendable_request hfits nodeId host hport)
    ((depth_request nodeId host port index).trans RecursionLimit.le_loadDepth)
  refine ⟨_, rfl, ?_⟩
  simp only [parseBody, requestBody, decodeUtf8_utf8, requestText, hloads]
  rfl

/-! ### What the node reads from its files -/

/-- A block of the index is not empty and not larger than the block size. -/
theorem length_chunk {n : ℕ} (reads : Reads) (content : List UInt8) :
  ∀ chunk ∈ readChunks reads n content, chunk ≠ [] ∧ chunk.length ≤ n
  := Buffered.length_chunk _

section Sha256

variable [Sha256]

/-- A file has enough blocks to hold it, and no more than bytes. -/
theorem length_blocks_resourceOf {blockSize : ℕ} (hb : 0 < blockSize) (reads : Reads)
    (path : List OsString) (content : List UInt8) :
  let resource := resourceOf reads blockSize path content
  resource.fileSize ≤ resource.blocks.length * blockSize ∧
    resource.blocks.length ≤ resource.fileSize
  := by
  intro resource
  have hchunk := length_chunk (n := blockSize) reads content
  have hlength : content.length
      = ((readChunks reads blockSize content).map List.length).sum := by
    rw [← List.length_flatten, flatten_readChunks hb]
  have hblocks : resource.blocks.length
      = ((readChunks reads blockSize content).map List.length).length := by
    rw [List.length_map]
    apply length_blocksOfChunks
  have hmost := List.sum_le_card_nsmul
    ((readChunks reads blockSize content).map List.length) blockSize (by
      intro n hn
      obtain ⟨chunk, hmem, rfl⟩ := List.mem_map.mp hn
      exact (hchunk chunk hmem).2)
  have hleast := List.card_nsmul_le_sum
    ((readChunks reads blockSize content).map List.length) 1 (by
      intro n hn
      obtain ⟨chunk, hmem, rfl⟩ := List.mem_map.mp hn
      exact List.length_pos_of_ne_nil (hchunk chunk hmem).1)
  rw [nsmul_eq_mul, Nat.cast_id, ← hblocks, ← hlength] at hmost hleast
  rw [mul_one] at hleast
  exact ⟨hmost, hleast⟩

/-- The numbers of a file's resource fit if its size and the block size do. -/
theorem resourceFits_resourceOf {blockSize : ℕ} (hb : 0 < blockSize) (hblock : blockSize < 2 ^ 64)
    (reads : Reads) (path : List OsString) {content : List UInt8}
    (hfile : content.length < 2 ^ 64) :
  ResourceFits (resourceOf reads blockSize path content)
  := by
  have hcount := (length_blocks_resourceOf hb reads path content).2
  have hblocks : ∀ block ∈ (resourceOf reads blockSize path content).blocks,
      block.index < (resourceOf reads blockSize path content).blocks.length ∧
        block.size ≤ blockSize := by
    intro block hmem
    obtain ⟨i, hi, rfl⟩ := List.mem_iff_getElem.mp hmem
    have hi' := hi
    simp only [resourceOf, resourceOfChunks] at hi' ⊢
    rw [getElem_blocksOfChunks]
    use hi'
    rw [length_blocksOfChunks] at hi'
    exact (length_chunk reads content _ (List.getElem_mem hi')).2
  constructor
  · exact hfile
  · exact hblock
  · intro block hmem
    exact ((hblocks block hmem).1.trans_le hcount).trans hfile
  · intro block hmem
    exact (hblocks block hmem).2.trans_lt hblock

/-- An index of a share directory is published exactly when its request takes no more than a
mebibyte, and otherwise the tracker answers that it is too large, and keeps its map. The request
takes at least 95 bytes for every block, and the blocks hold the files, so that the files in a
request that is published are not larger than some 11000 times the block size. -/
theorem published_iff [RecursionLimit] [UnicodeData] {fs : FileSystem} {root : OsString}
    {blockSize : ℕ} {index : ResourceIndex} (hscan : fs.scanShareDir root blockSize = .ok index)
    (hblock : blockSize < 2 ^ 64) (hfile : ∀ resource ∈ index.resources, resource.fileSize < 2 ^ 64)
    (nodeId host : String) {port : ℕ} (hport : port < 2 ^ 16) :
  let body := requestBody nodeId host port index
  (Reaches nodeId host port index ↔ body.length ≤ 1024 * 1024) ∧
    (1024 * 1024 < body.length → body.length < 2 ^ 64 →
      ∀ (server : Server) nodes clock clientHost,
        server.postUpdate nodes clock (some (decimalText body.length)) body clientHost
          = (sendError 413 "request body is too large", nodes)) ∧
    95 * blockCount index ≤ body.length ∧ body.length ≤ lengthBound nodeId host index ∧
    (index.resources.map FileResource.fileSize).sum ≤ blockCount index * blockSize
  := by
  intro body
  obtain ⟨hb, -, -, hresources⟩ := scanShareDir_spec hscan
  have hof : ∀ resource ∈ index.resources, ∃ reads path content,
      resource = resourceOf reads blockSize path content := by
    intro resource hmem
    rw [hresources] at hmem
    obtain ⟨path, -, rfl⟩ := List.mem_map.mp hmem
    exact ⟨_, path, _, rfl⟩
  have hindexed : ∀ resource ∈ index.resources, Indexed resource := by
    intro resource hmem
    obtain ⟨reads, path, content, rfl⟩ := hof resource hmem
    apply indexed_resourceOfChunks
  have hfits : ∀ resource ∈ index.resources, ResourceFits resource := by
    intro resource hmem
    have hlt := hfile resource hmem
    obtain ⟨reads, path, content, rfl⟩ := hof resource hmem
    apply resourceFits_resourceOf hb hblock reads path hlt
  have hread : readJsonBody (some (decimalText body.length)) body = _ :=
    readJsonBody_decimalText body
  obtain ⟨hlower, hupper⟩ := length_requestBody hindexed hfits nodeId host hport
  refine ⟨?_, ?_, hlower, hupper, ?_⟩
  · obtain ⟨items, hitems, hparse⟩ := parseBody_requestBody hfits nodeId host hport
    constructor
    · rintro ⟨items', -, hpayload⟩
      by_contra hle
      have hrefused := hread.symm.trans hpayload
      rw [if_neg hle] at hrefused
      split at hrefused
      · cases hrefused
      · cases hrefused
    · intro hle
      refine ⟨items, hitems, ?_⟩
      exact hread.trans ((if_pos hle).trans hparse)
  · intro hlt hsize server nodes clock clientHost
    have hrefused : readJsonBody (some (decimalText body.length)) body = .refused .tooLarge := by
      rw [hread, if_neg (not_le.mpr hlt), if_neg (length_toDigits_le hsize)]
    simp only [Server.postUpdate, hrefused]
    rfl
  · rw [blockCount, ← List.sum_map_mul_right]
    apply List.sum_le_sum
    intro resource hmem
    obtain ⟨reads, path, content, rfl⟩ := hof resource hmem
    exact (length_blocks_resourceOf hb reads path content).1

end Sha256

/-! ### A large file -/

/-- A share directory with two files can be published. -/
theorem published_twoFiles :
  let _ := UnicodeData.ascii
  let _ := RecursionLimit.default
  let _ := Sha256.short
  ∃ index, (Node.twoFiles "a" "b c" [97] [97, 98]).scanShareDir (utf8 "/share") 1 = .ok index ∧
    Reaches "node-a" "127.0.0.1" 9001 index
  := by
  intro _ _ _
  let index : ResourceIndex := ⟨[resourceOf linuxReads 1 [utf8 "a"] [97],
    resourceOf linuxReads 1 [utf8 "b c"] [97, 98]]⟩
  have hscan : (Node.twoFiles "a" "b c" [97] [97, 98]).scanShareDir (utf8 "/share") 1 = .ok index :=
    rfl
  have hfile : ∀ resource ∈ index.resources, resource.fileSize < 2 ^ 64 := by
    simp [index, resourceOf, resourceOfChunks]
  have hport : 9001 < 2 ^ 16 := by decide
  obtain ⟨hreaches, -, -, hupper, -⟩ :=
    published_iff hscan (by decide) hfile "node-a" "127.0.0.1" hport
  have hbound : lengthBound "node-a" "127.0.0.1" index ≤ 1024 * 1024 := by
    decide +kernel
  exact ⟨index, hscan, hreaches.mpr (hupper.trans hbound)⟩

/-- It is not the case that every share directory can be published: a file of 12000 bytes in blocks
of one byte is too large. -/
theorem not_published :
  let _ := UnicodeData.ascii
  let _ := RecursionLimit.default
  let _ := Sha256.short
  ¬ ∀ (fs : FileSystem) root blockSize index, fs.scanShareDir root blockSize = .ok index →
      ∀ nodeId host port, port < 2 ^ 16 → Reaches nodeId host port index
  := by
  intro _ _ _ hall
  obtain ⟨content, hcontent⟩ : ∃ content : List UInt8, content.length = 12000 :=
    ⟨List.replicate 12000 0, List.length_replicate⟩
  let index : ResourceIndex := ⟨[resourceOf linuxReads 1 [utf8 "a"] content]⟩
  have hscan : (singleFile "a" content).scanShareDir (utf8 "/share") 1 = .ok index := rfl
  obtain ⟨items, -, hpayload⟩ := hall _ _ _ _ hscan "node-a" "127.0.0.1" 9001 (by decide)
  have hindexed : ∀ resource ∈ index.resources, Indexed resource := by
    intro resource hmem
    rw [List.mem_singleton.mp hmem]
    apply indexed_resourceOfChunks
  have hfits : ∀ resource ∈ index.resources, ResourceFits resource := by
    intro resource hmem
    rw [List.mem_singleton.mp hmem]
    apply resourceFits_resourceOf (by decide) (by decide)
    rw [hcontent]
    decide
  have hcount : 12000 ≤ blockCount index := by
    have hle := (length_blocks_resourceOf Nat.one_pos linuxReads [utf8 "a"] content).1
    have hsize : (resourceOf linuxReads 1 [utf8 "a"] content).fileSize = 12000 := hcontent
    have hblocks : blockCount index = (resourceOf linuxReads 1 [utf8 "a"] content).blocks.length :=
      Nat.add_zero _
    rw [hsize, mul_one] at hle
    rw [hblocks]
    exact hle
  have hport : 9001 < 2 ^ 16 := by decide
  have hlower := (length_requestBody hindexed hfits "node-a" "127.0.0.1" hport).1
  rw [readJsonBody_decimalText, if_neg (by omega)] at hpayload
  split at hpayload
  · cases hpayload
  · cases hpayload

end System
