import ResourceDistribution.Data.Codec
import ResourceDistribution.Node.TrackerDto
import ResourceDistribution.Tracker.Answer
import ResourceDistribution.Tracker.Leases

/-!
# Reading the answer to a query

What the tracker answers and what the node makes of it. The node reads an answer if every block in it
has a hash and a size, its numbers fit into the node's types and its strings have no surrogates, and
it reads what the answer says (`reads_response`). So it does after every history whose accepted
updates send nothing else (`answersReadable_runAll`); the tracker accepts others.
-/

open Python Codec Node Tracker

namespace System

/-! ### What the node reads -/

/-- What a block says, in the tracker's terms. -/
def blockMeant (block : TrackerBlock) : Block where
  index := block.index
  hash := some (Str.ofString block.hash)
  size := some block.size

/-- What a peer says, in the tracker's terms. -/
def peerMeant (peer : PeerLocation) : Peer where
  nodeId := Str.ofString peer.nodeId
  host := Str.ofString peer.host
  port := peer.port
  lastSeen := Str.ofString peer.lastSeen
  expiresAt := Str.ofString peer.expiresAt
  blocks := peer.blocks.map blockMeant

/-- What a location says, in the tracker's terms. -/
def entryMeant (location : FileLocation) : IndexEntry where
  fileHash := Str.ofString location.fileHash
  fileName := Str.ofString location.fileName
  fileSize := location.fileSize.map Nat.cast
  blockSize := location.blockSize.map Nat.cast
  peers := location.peers.map peerMeant
  availableBlocks := location.availableBlocks.map Nat.cast

/-- The numbers of a block fit into their types. -/
structure BlockFits (block : TrackerBlock) : Prop where
  index_lt : block.index < 2 ^ 64
  size_lt : block.size < 2 ^ 64

/-- The numbers of a peer fit into their types. -/
structure PeerFits (peer : PeerLocation) : Prop where
  port_lt : peer.port < 2 ^ 16
  blocks_fit : ∀ block ∈ peer.blocks, BlockFits block

/-- The numbers of a location fit into their types. -/
structure LocationFits (location : FileLocation) : Prop where
  fileSize_lt : ∀ n ∈ location.fileSize, n < 2 ^ 64
  blockSize_lt : ∀ n ∈ location.blockSize, n < 2 ^ 64
  peers_fit : ∀ peer ∈ location.peers, PeerFits peer
  availableBlocks_lt : ∀ i ∈ location.availableBlocks, i < 2 ^ 64

theorem reads_string :
  Reads readString Json.str Str.ofString fun _ => True
  := by
  intro s t
  rw [readString, Str.toString?_eq_some_iff, and_true]

theorem reads_unsigned (bits : ℕ) :
  Reads (readUnsigned bits) Json.int Nat.cast fun n => n < 2 ^ bits
  := by
  intro n m
  rw [readUnsigned, Option.ite_none_right_eq_some, Option.some.injEq]
  constructor
  · rintro ⟨⟨hnonneg, hlt⟩, rfl⟩
    have hcast := Int.toNat_of_nonneg hnonneg
    use hcast.symm
    zify
    rw [hcast]
    exact hlt
  · rintro ⟨rfl, hlt⟩
    refine ⟨⟨Int.natCast_nonneg m, ?_⟩, Int.toNat_natCast m⟩
    exact_mod_cast hlt

theorem reads_option (bits : ℕ) :
  Reads (fun v => readOption (readUnsigned bits) (some v)) optionalJson (Option.map Nat.cast)
    fun o => ∀ n ∈ o, n < 2 ^ bits
  := by
  intro o m
  cases o with
  | none => cases m <;> simp [optionalJson, readOption]
  | some n =>
      cases m with
      | none => simp [optionalJson, readOption]
      | some m =>
          have hread := reads_unsigned bits n m
          simpa [optionalJson, readOption] using hread

theorem reads_vec {α β : Type} {read : Json → Option β} {write : α → Json} {image : β → α}
    {valid : β → Prop} (h : Reads read write image valid) :
  Reads (readVec read) (fun l => .list (l.map write)) (List.map image) fun l => ∀ b ∈ l, valid b
  := h.list

theorem reads_block :
  Reads TrackerBlock.read blockJson blockMeant BlockFits
  := by
  rintro ⟨index, hash, size⟩ block
  cases hash with
  | none => cases size <;> simp [blockJson, TrackerBlock.read, blockMeant]
  | some hash =>
      cases size with
      | none => simp [blockJson, TrackerBlock.read, blockMeant]
      | some size =>
          simp only [blockJson, TrackerBlock.read, Option.toList, List.map_cons, List.map_nil,
            List.cons_append, List.nil_append, field_cons, String.reduceEq, if_true, if_false,
            Option.bind_eq_bind, Option.bind_some, Option.bind_eq_some_iff,
            reads_unsigned 64 _ _, reads_string _ _, Option.pure_def, Option.some.injEq]
          constructor
          · rintro ⟨index, ⟨rfl, hindex⟩, hash, ⟨rfl, -⟩, size, ⟨rfl, hsize⟩, rfl⟩
            exact ⟨rfl, hindex, hsize⟩
          · rintro ⟨heq, hindex, hsize⟩
            obtain ⟨rfl, heqHash, heqSize⟩ := Block.mk.inj heq
            obtain rfl := Option.some.inj heqHash
            obtain rfl := Option.some.inj heqSize
            exact ⟨_, ⟨rfl, hindex⟩, _, ⟨rfl, trivial⟩, _, ⟨rfl, hsize⟩, rfl⟩

theorem reads_peer :
  Reads PeerLocation.read peerJson peerMeant PeerFits
  := by
  rintro ⟨nodeId, host, port, lastSeen, expiresAt, blocks⟩ peer
  simp only [peerJson, PeerLocation.read, field_cons, String.reduceEq, if_true, if_false,
    Option.bind_eq_bind, Option.bind_some, Option.bind_eq_some_iff, reads_unsigned 16 _ _,
    reads_string _ _, reads_vec reads_block _ _, Option.pure_def, Option.some.injEq]
  constructor
  · rintro ⟨nodeId, ⟨rfl, -⟩, host, ⟨rfl, -⟩, port, ⟨rfl, hport⟩, lastSeen, ⟨rfl, -⟩, expiresAt,
      ⟨rfl, -⟩, blocks, ⟨rfl, hblocks⟩, rfl⟩
    exact ⟨rfl, hport, hblocks⟩
  · rintro ⟨heq, hport, hblocks⟩
    obtain ⟨rfl, rfl, rfl, rfl, rfl, rfl⟩ := Peer.mk.inj heq
    exact ⟨_, ⟨rfl, trivial⟩, _, ⟨rfl, trivial⟩, _, ⟨rfl, hport⟩, _, ⟨rfl, trivial⟩, _,
      ⟨rfl, trivial⟩, _, ⟨rfl, hblocks⟩, rfl⟩

theorem reads_location :
  Reads FileLocation.read entryJson entryMeant LocationFits
  := by
  rintro ⟨fileHash, fileName, fileSize, blockSize, peers, availableBlocks⟩ location
  simp only [entryJson, FileLocation.read, field_cons, String.reduceEq, if_true, if_false,
    Option.bind_eq_bind, Option.bind_some, Option.bind_eq_some_iff, reads_string _ _,
    reads_option 64 _ _, reads_vec reads_peer _ _, reads_vec (reads_unsigned 64) _ _,
    Option.pure_def, Option.some.injEq]
  constructor
  · rintro ⟨fileHash, ⟨rfl, -⟩, fileName, ⟨rfl, -⟩, fileSize, ⟨rfl, hfile⟩, blockSize,
      ⟨rfl, hblock⟩, peers, ⟨rfl, hpeers⟩, availableBlocks, ⟨rfl, havailable⟩, rfl⟩
    exact ⟨rfl, hfile, hblock, hpeers, havailable⟩
  · rintro ⟨heq, hfile, hblock, hpeers, havailable⟩
    obtain ⟨rfl, rfl, rfl, rfl, rfl, rfl⟩ := IndexEntry.mk.inj heq
    exact ⟨_, ⟨rfl, trivial⟩, _, ⟨rfl, trivial⟩, _, ⟨rfl, hfile⟩, _, ⟨rfl, hblock⟩, _,
      ⟨rfl, hpeers⟩, _, ⟨rfl, havailable⟩, rfl⟩

/-- The node reads an answer exactly when it reads all its entries, and reads what it says. -/
theorem reads_response :
  Reads QueryResponse.read queryJson (fun response => response.locations.map entryMeant)
    fun response => ∀ location ∈ response.locations, LocationFits location
  := by
  rintro entries ⟨locations⟩
  simp only [queryJson, QueryResponse.read, field_cons, if_true, Option.bind_eq_bind,
    Option.bind_some, Option.bind_eq_some_iff, reads_vec reads_location _ _, Option.pure_def,
    Option.some.injEq]
  constructor
  · rintro ⟨locations', ⟨rfl, hlocations⟩, heq⟩
    obtain rfl := QueryResponse.mk.inj heq
    exact ⟨rfl, hlocations⟩
  · rintro ⟨rfl, hlocations⟩
    exact ⟨_, ⟨rfl, hlocations⟩, rfl⟩

/-! ### What the tracker stores -/

/-- A stored block that a node can read: it has a hash and a size. -/
structure ReadableBlock (block : Block) : Prop where
  index_lt : block.index < 2 ^ 64
  hash_encodable : ∃ hash ∈ block.hash, hash.Encodable
  size_lt : ∃ size ∈ block.size, size < 2 ^ 64

/-- A stored resource that a node can read. -/
structure ReadableResource (resource : Resource) : Prop where
  fileHash_encodable : resource.fileHash.Encodable
  fileName_encodable : resource.fileName.Encodable
  blocks_readable : ∀ block ∈ resource.blocks, ReadableBlock block
  fileSize_lt : ∀ n ∈ resource.fileSize, n < 2 ^ 64
  blockSize_lt : ∀ n ∈ resource.blockSize, n < 2 ^ 64

/-- A record of which a node can read whatever an answer may show. -/
def ReadableRecord (record : Record) : Prop :=
  ∀ resource ∈ record.resources,
    record.nodeId.Encodable ∧ record.host.Encodable ∧ ReadableResource resource

/-- A number that is not negative and fits is readable. -/
theorem readable_number {bits : ℕ} {n : ℤ} (hnonneg : 0 ≤ n) (hlt : n < 2 ^ bits) :
  Readable (Nat.cast : ℕ → ℤ) (fun m => m < 2 ^ bits) n
  := by
  refine ⟨n.toNat, (Int.toNat_of_nonneg hnonneg).symm, ?_⟩
  zify
  rw [Int.toNat_of_nonneg hnonneg]
  exact hlt

theorem readable_block {block : Block} (hvalid : block.Valid) (h : ReadableBlock block) :
  Readable blockMeant BlockFits block
  := by
  obtain ⟨index, hash, size⟩ := block
  obtain ⟨index, rfl, hindex⟩ := readable_number hvalid.index_nonneg h.index_lt
  obtain ⟨hash', hhash, text, rfl⟩ := h.hash_encodable
  obtain ⟨size', hsize, hlt⟩ := h.size_lt
  obtain ⟨size', rfl, hfits⟩ := readable_number (hvalid.size_nonneg size' hsize) hlt
  obtain rfl := Option.mem_def.mp hhash
  obtain rfl := Option.mem_def.mp hsize
  exact ⟨⟨index, text, size'⟩, rfl, hindex, hfits⟩

/-- A record with the times of its update, in a form that a node can read. -/
structure Dated (record : Record) : Prop where
  lastSeen_encodable : record.lastSeen.Encodable
  expiresAt_encodable : record.expiresAt.Encodable

theorem readable_peer {k : Str} {record : Record} (hvalid : record.ValidFor k)
    (hdated : Dated record) (h : ReadableRecord record) {resource : Resource}
    (hresource : resource ∈ record.resources) :
  Readable peerMeant PeerFits (peerOf record resource)
  := by
  obtain ⟨⟨nodeId, hnodeId⟩, ⟨host, hhost⟩, hreadable⟩ := h resource hresource
  obtain ⟨lastSeen, hlastSeen⟩ := hdated.lastSeen_encodable
  obtain ⟨expiresAt, hexpiresAt⟩ := hdated.expiresAt_encodable
  have hport : Readable Nat.cast (fun m => m < 2 ^ 16) record.port := by
    have hpos := hvalid.port_pos
    have hle := hvalid.port_le
    apply readable_number <;> omega
  obtain ⟨port, hport, hport_lt⟩ := hport
  obtain ⟨blocks, hblocks, hfit⟩ := readable_list.mpr fun block hblock =>
    readable_block ((hvalid.resources_valid resource hresource).blocks_valid block hblock)
      (hreadable.blocks_readable block hblock)
  refine ⟨⟨nodeId, host, port, lastSeen, expiresAt, blocks⟩, ?_, hport_lt, hfit⟩
  rw [peerOf, peerMeant, ← hnodeId, ← hhost, ← hport, ← hlastSeen, ← hexpiresAt, ← hblocks]

/-- What a record of the map satisfies if a node can read it. -/
structure Shown (k : Str) (record : Record) : Prop where
  valid : record.ValidFor k
  dated : Dated record
  readable : ReadableRecord record

/-- The entry that readable holdings make is readable. -/
theorem readable_entry {first : Holding} {rest : List Holding}
    (h : ∀ i ∈ first :: rest, i.2 ∈ i.1.resources ∧ ∃ k, Shown k i.1) :
  Readable entryMeant LocationFits (entryOf first rest)
  := by
  have hresource : ∀ i ∈ first :: rest, i.2.Valid ∧ ReadableResource i.2 := by
    intro i hi
    obtain ⟨hmem, k, hshown⟩ := h i hi
    exact ⟨hshown.valid.resources_valid _ hmem, (hshown.readable _ hmem).2.2⟩
  obtain ⟨fileHash, hfileHash⟩ := (hresource first List.mem_cons_self).2.fileHash_encodable
  obtain ⟨fileName, hfileName⟩ := (hresource first List.mem_cons_self).2.fileName_encodable
  have hsize : ∀ size : Resource → Option ℤ,
      (∀ i ∈ first :: rest, ∀ n ∈ size i.2, 0 ≤ n ∧ n < 2 ^ 64) →
      Readable (Option.map Nat.cast) (fun o => ∀ m ∈ o, m < 2 ^ 64)
        ((first :: rest).findSome? fun i => size i.2) := by
    intro size hbounds
    apply readable_option.mpr
    intro n hn
    obtain ⟨i, hi, hin⟩ := List.exists_of_findSome?_eq_some hn
    obtain ⟨hnonneg, hlt⟩ := hbounds i hi n hin
    exact readable_number hnonneg hlt
  obtain ⟨fileSize, hfileSize, hfile_fits⟩ := hsize Resource.fileSize fun i hi n hn =>
    ⟨(hresource i hi).1.fileSize_nonneg n hn, (hresource i hi).2.fileSize_lt n hn⟩
  obtain ⟨blockSize, hblockSize, hblock_fits⟩ := hsize Resource.blockSize fun i hi n hn =>
    ⟨(hresource i hi).1.blockSize_nonneg n hn, (hresource i hi).2.blockSize_lt n hn⟩
  have hpeers : ∀ peer ∈ (first :: rest).map (fun i => peerOf i.1 i.2),
      Readable peerMeant PeerFits peer := by
    intro peer hpeer
    obtain ⟨i, hi, rfl⟩ := List.mem_map.mp hpeer
    obtain ⟨hmem, k, hshown⟩ := h i hi
    exact readable_peer hshown.valid hshown.dated hshown.readable hmem
  obtain ⟨peers, hpeers, hpeers_fit⟩ := readable_list.mpr hpeers
  have havailable : ∀ n ∈ sortedSet ((first :: rest).flatMap fun i => i.2.blocks.map Block.index),
      Readable (Nat.cast : ℕ → ℤ) (fun m => m < 2 ^ 64) n := by
    intro n hn
    obtain ⟨i, hi, hn⟩ := List.mem_flatMap.mp (mem_sortedSet.mp hn)
    obtain ⟨block, hblock, rfl⟩ := List.mem_map.mp hn
    exact readable_number ((hresource i hi).1.blocks_valid block hblock).index_nonneg
      ((hresource i hi).2.blocks_readable block hblock).index_lt
  obtain ⟨availableBlocks, havailable, havailable_fit⟩ := readable_list.mpr havailable
  refine ⟨⟨fileHash, fileName, fileSize, blockSize, peers, availableBlocks⟩, ?_, hfile_fits,
    hblock_fits, hpeers_fit, havailable_fit⟩
  rw [entryOf, entryMeant, ← hfileHash, ← hfileName, ← hfileSize, ← hblockSize, ← hpeers,
    ← havailable]

/-! ### Answers -/

/-- Whatever the query and its time, the node reads the answer, and as what it says. -/
def AnswersReadable (nodes : Nodes) : Prop :=
  ∀ fileHash fileName t entries nodes',
    findFileLocations nodes fileHash fileName t = .ok (entries, nodes') →
    ∃ response, QueryResponse.read (queryJson entries) = some response ∧
      response.locations.map entryMeant = entries

/-- If all records are readable, so are the answers. -/
theorem answersReadable_of_shown {nodes : Nodes}
    (h : ∀ k record, nodes.get? k = some record → Shown k record) :
  AnswersReadable nodes
  := by
  intro fileHash fileName t entries nodes' hanswer
  have hentry : ∀ entry ∈ entries, Readable entryMeant LocationFits entry := by
    intro entry hmem
    have hvalue := ((mem_of_findFileLocations_eq_ok hanswer entry).mp hmem).1
    obtain ⟨⟨fileHash, _⟩, hitem, rfl⟩ := List.mem_map.mp hvalue
    obtain ⟨first, rest, hholdings, hentry⟩ :=
      entryOf?_eq_some_iff.mp (mem_items_fileIndex.mp hitem)
    rw [hentry]
    apply readable_entry
    intro i hi
    rw [← hholdings] at hi
    obtain ⟨hvalues, hresource⟩ := mem_holdings.mp (List.mem_of_mem_filter hi)
    use hresource
    obtain ⟨⟨k, _⟩, hitem, rfl⟩ := List.mem_map.mp hvalues
    have hget := Dict.get?_eq_some_iff.mpr hitem
    rw [get?_cleanupExpired] at hget
    exact ⟨k, h k _ ((Lease.live_eq_some_iff _).mp hget).1⟩
  obtain ⟨locations, hlocations, hfit⟩ := readable_list.mpr hentry
  exact ⟨⟨locations⟩, (reads_response entries _).mpr ⟨hlocations, hfit⟩, hlocations.symm⟩

section UnicodeData

variable [UnicodeData]

/-- If the call is an update and is accepted, a node can read the record it makes. -/
def ReadableOperation (nodeTtlSeconds : ℤ) (now : Time) (op : Operation) : Prop :=
  ∀ payload remoteHost record, op = .updateNode payload remoteHost →
    updateRecord nodeTtlSeconds payload remoteHost now = .ok record → ReadableRecord record

/-- If a node can read the record of every accepted update of a history, it can read every answer
after the history. -/
theorem answersReadable_runAll (nodeTtlSeconds : ℤ) (history : History)
    (h : ∀ i ∈ history, ReadableOperation nodeTtlSeconds i.2 i.1) :
  AnswersReadable (runAll nodeTtlSeconds history)
  := by
  apply answersReadable_of_shown
  apply forall_runAll
  intro i hi payload remoteHost record hop hrecord
  have hspec := updateRecord_spec hrecord
  use hspec.valid
  · constructor
    · rw [hspec.lastSeen_eq]
      exact ⟨_, rfl⟩
    · rw [hspec.expiresAt_eq]
      exact ⟨_, rfl⟩
  · exact h i hi payload remoteHost record hop hrecord

end UnicodeData

/-! ### A file of one block -/

/-- The update of a node that holds a file of one block, which is sent as `block`. -/
def updateWithBlock (block : Json) : Operation :=
  .updateNode (.dict [
    (Str.ofString "node_id", .str (Str.ofString "node-a")),
    (Str.ofString "host", .str (Str.ofString "127.0.0.1")),
    (Str.ofString "port", .int 9001),
    (Str.ofString "resources", .list [.dict [
      (Str.ofString "file_hash", .str (Str.ofString "x")),
      (Str.ofString "file_name", .str (Str.ofString "a")),
      (Str.ofString "blocks", .list [block])]])]) none

/-- A block with a hash and a size can be read. -/
theorem answersReadable_fullBlock :
  let _ := UnicodeData.ascii
  AnswersReadable (runAll 90 [(updateWithBlock (.dict [
    (Str.ofString "index", .int 0),
    (Str.ofString "hash", .str (Str.ofString "y")),
    (Str.ofString "size", .int 1)]), 0)])
  := by
  intro _
  apply answersReadable_runAll
  rintro i hi payload remoteHost record hop hrecord
  rw [List.mem_singleton.mp hi] at hop hrecord
  obtain ⟨rfl, rfl⟩ := Operation.updateNode.inj hop
  obtain rfl := Except.ok.inj hrecord
  intro resource hresource
  obtain rfl := List.mem_singleton.mp hresource
  refine ⟨⟨"node-a", rfl⟩, ⟨"127.0.0.1", rfl⟩, ⟨"x", rfl⟩, ⟨"a", rfl⟩, ?_, ?_, ?_⟩
  · intro block hblock
    obtain rfl := List.mem_singleton.mp hblock
    exact ⟨by decide, ⟨_, rfl, "y", rfl⟩, ⟨_, rfl, by decide⟩⟩
  · intro n hn
    simp at hn
  · intro n hn
    simp at hn

/-- A block that is sent as a bare index cannot: the node wants its hash and its size. -/
theorem not_answersReadable_bareBlock :
  let _ := UnicodeData.ascii
  ¬ AnswersReadable (runAll 90 [(updateWithBlock (.int 0), 0)])
  := by
  intro _ h
  obtain ⟨response, hread, -⟩ := h (some (Str.ofString "x")) none 0 _ _ rfl
  have hsome := Option.isSome_of_eq_some hread
  exact absurd hsome (by decide +kernel)

end System
