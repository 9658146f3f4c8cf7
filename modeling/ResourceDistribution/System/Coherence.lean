import Mathlib.Data.List.Sort
import ResourceDistribution.Node.TransferWorker
import ResourceDistribution.System.Publish

/-!
# Holders of the same file

Several nodes publish a file, each cut into blocks of its own size, and the tracker lists them all
under the hash of the file. The entries agree, and the blocks of any choice of holders make up the
file, exactly when all holders cut the file alike: their block sizes are the same as far as the file
goes (`coherent_iff`).
-/

open Python Fallible Node Tracker

namespace System

/-- What a node publishes: the names and the contents of its files, which it cuts into blocks of its
own size. `remoteHost` is where the tracker hears from it. -/
structure Publication where
  nodeId : String
  host : String
  port : ℕ
  remoteHost : Option Str
  blockSize : ℕ
  blockSize_pos : 0 < blockSize
  files : List (String × List UInt8)

/-- Some publications and when the tracker receives them. -/
abbrev Publications := List (Publication × Time)

/-- What a holder of a file lists of it. -/
def listing [Sha256] (blockSize : ℕ) (content : List UInt8) : List Block :=
  (blocksOfChunks (Cut.blocks blockSize content)).map publishedBlock

namespace Publication

variable [Sha256]

/-- What `index_file` makes of a file that it reads in full blocks. -/
def resource (p : Publication) (file : String × List UInt8) : FileResource :=
  resourceOfChunks file.1 file.2 p.blockSize ((Cut.Reader.full p.blockSize).chunks file.2)

/-- The index of a node. -/
def index (p : Publication) : ResourceIndex := ⟨p.files.map p.resource⟩

/-- The update of a node. -/
def payload (p : Publication) : Json :=
  (updateRequestFromIndex p.nodeId p.host p.port p.index).toJson

/-- The tracker receives the update of a node. -/
def operation (p : Publication) : Operation := .updateNode p.payload p.remoteHost

theorem indexed_of_mem_index {p : Publication} :
  ∀ resource ∈ p.index.resources, Indexed resource
  := by
  intro resource hmem
  obtain ⟨file, -, rfl⟩ := List.mem_map.mp hmem
  apply indexed_resourceOfChunks

/-- What the tracker stores of a file. -/
theorem published_resource (p : Publication) (file : String × List UInt8) :
  (published (p.resource file)).fileHash = Str.ofString (Sha256.hex file.2) ∧
    (published (p.resource file)).blocks = listing p.blockSize file.2
  := by
  have hchunks := Cut.Reader.chunks_full p.blockSize_pos file.2
  constructor
  · rw [published, resource, resourceOfChunks, hchunks, Cut.flatten_blocks p.blockSize_pos]
  · rw [published, resource, resourceOfChunks, hchunks, listing]

/-- A file with a name that is not blank and some contents is accepted. -/
theorem publishable_resource (p : Publication) {file : String × List UInt8}
    (hname : (Str.ofString file.1).strip ≠ []) (hcontent : file.2 ≠ []) :
  Publishable (p.resource file)
  := by
  refine ⟨indexed_resourceOfChunks _ _ _ _, hname, ?_⟩
  intro hnil
  have hblocks : (blocksOfChunks (Cut.blocks p.blockSize file.2)).length = 0 := by
    rw [← Cut.Reader.chunks_full p.blockSize_pos]
    exact congrArg List.length hnil
  rw [length_blocksOfChunks, List.length_eq_zero_iff] at hblocks
  rw [← Cut.flatten_blocks p.blockSize_pos file.2, hblocks] at hcontent
  exact hcontent rfl

variable [UnicodeData]

/-- At `t`, the last update of a node was that of `p`, and its lease runs. -/
def IsCurrent (nodeTtlSeconds : ℤ) (publications : Publications) (t : Time) (p : Publication) :
    Prop :=
  ∃ before u later record, publications = before ++ (p, u) :: later ∧
    updateRecord nodeTtlSeconds p.payload p.remoteHost u = .ok record ∧
    (∀ i ∈ later, i.1.operation.writeTo nodeTtlSeconds i.2 record.nodeId = none) ∧
    t < u + nodeTtlSeconds * ticksPerSecond

/-- At `t`, the node of `p` holds a file with these contents. -/
def Holds (nodeTtlSeconds : ℤ) (publications : Publications) (t : Time) (content : List UInt8)
    (p : Publication) : Prop :=
  p.IsCurrent nodeTtlSeconds publications t ∧ ∃ name, (name, content) ∈ p.files

end Publication

section Sha256

variable [Sha256]

/-- The updates as a history of calls. -/
def operations (publications : Publications) : History :=
  publications.map fun i => (i.1.operation, i.2)

/-- The parts of some contents and of all files that are published. -/
def parts (content : List UInt8) (publications : Publications) : Set (List UInt8) :=
  fun bytes => bytes <:+: content ∨ ∃ i ∈ publications, ∃ file ∈ i.1.files, bytes <:+: file.2

/-- Peers that list a block of the same index list it alike. -/
def Coherent (entry : IndexEntry) : Prop :=
  ∀ peer ∈ entry.peers, ∀ peer' ∈ entry.peers, ∀ block ∈ peer.blocks, ∀ block' ∈ peer'.blocks,
    block.index = block'.index → block.hash = block'.hash ∧ block.size = block'.size

/-- If for every available block a part of the contents is taken that is what some peer lists for the
block, the parts are joined to the contents. -/
def Reassembles (entry : IndexEntry) (content : List UInt8) : Prop :=
  ∀ taken : ℤ → List UInt8,
    (∀ i ∈ entry.availableBlocks, taken i <:+: content ∧
      ∃ peer ∈ entry.peers, ∃ block ∈ peer.blocks, block.index = i ∧
        block.hash = some (Str.ofString (Sha256.hex (taken i))) ∧
        block.size = some ((taken i).length : ℤ)) →
    joinBlocks (entry.availableBlocks.map fun i => (i.toNat, taken i)) = .ok content

/-! ### Listings -/

theorem mem_listing {blockSize : ℕ} {content : List UInt8} {block : Block} :
  block ∈ listing blockSize content ↔
    ∃ i < Cut.count blockSize content.length, block = {
      index := (i : ℤ)
      hash := some (Str.ofString (Sha256.hex (Cut.block blockSize content i)))
      size := some ((Cut.block blockSize content i).length : ℤ) }
  := by
  rw [listing, List.mem_map]
  constructor
  · rintro ⟨listed, hlisted, rfl⟩
    obtain ⟨i, hi, rfl⟩ := mem_blocksOfChunks_blocks.mp hlisted
    exact ⟨i, hi, rfl⟩
  · rintro ⟨i, hi, rfl⟩
    exact ⟨_, mem_blocksOfChunks_blocks.mpr ⟨i, hi, rfl⟩, rfl⟩

/-- Holders that cut the contents alike list them alike. -/
theorem listing_eq_of_min_eq {b b' : ℕ} (hb : 0 < b) (hb' : 0 < b') {content : List UInt8}
    (h : min b content.length = min b' content.length) :
  listing b content = listing b' content
  := by
  rw [listing, listing, Cut.blocks_eq_of_min_eq hb hb' h]

/-- Holders whose first blocks have the same size cut the contents alike. -/
theorem min_eq_of_listing {b b' : ℕ} (hb : 0 < b) (hb' : 0 < b') {content : List UInt8}
    (hcontent : content ≠ [])
    (h : ∀ block ∈ listing b content, ∀ block' ∈ listing b' content,
      block.index = block'.index → block.hash = block'.hash ∧ block.size = block'.size) :
  min b content.length = min b' content.length
  := by
  have hfirst := mem_listing.mpr ⟨0, Cut.count_length_pos hb hcontent, rfl⟩
  have hfirst' := mem_listing.mpr ⟨0, Cut.count_length_pos hb' hcontent, rfl⟩
  have hsize := (h _ hfirst _ hfirst' rfl).2
  simp only [Cut.length_block, Nat.zero_mul, Nat.sub_zero, Option.some.injEq] at hsize
  exact_mod_cast hsize

/-! ### Entries -/

/-- Peers that all list the contents cut alike are coherent. -/
theorem coherent_of_listing {blockSize : ℕ} {content : List UInt8} {entry : IndexEntry}
    (h : ∀ peer ∈ entry.peers, peer.blocks = listing blockSize content) :
  Coherent entry
  := by
  intro peer hpeer peer' hpeer' block hblock block' hblock' hindex
  rw [h peer hpeer] at hblock
  rw [h peer' hpeer'] at hblock'
  obtain ⟨i, -, rfl⟩ := mem_listing.mp hblock
  obtain ⟨i', -, rfl⟩ := mem_listing.mp hblock'
  obtain rfl : i = i' := Int.ofNat.inj hindex
  exact ⟨rfl, rfl⟩

/-- If all peers list the contents cut alike, all of the blocks are available. -/
theorem availableBlocks_of_listing {blockSize : ℕ} {content : List UInt8} {entry : IndexEntry}
    {nodes : Nodes} {h : Str} (hget : (fileIndex nodes).get? h = some entry)
    (hpeers : ∀ peer ∈ entry.peers, peer.blocks = listing blockSize content) :
  entry.availableBlocks = (List.range (Cut.count blockSize content.length)).map Int.ofNat
  := by
  obtain ⟨hne, hincreasing, hmem⟩ := entry_of_get? hget
  apply hincreasing.eq_of_mem_iff
  · rw [List.pairwise_map]
    exact List.pairwise_lt_range.imp Int.ofNat_lt.mpr
  · intro i
    rw [hmem, List.mem_map]
    constructor
    · rintro ⟨peer, hpeer, block, hblock, rfl⟩
      rw [hpeers peer hpeer] at hblock
      obtain ⟨j, hj, rfl⟩ := mem_listing.mp hblock
      exact ⟨j, List.mem_range.mpr hj, rfl⟩
    · rintro ⟨j, hj, rfl⟩
      obtain ⟨peer, hpeer⟩ := List.exists_mem_of_ne_nil _ hne
      have hlisted := mem_listing.mpr ⟨j, List.mem_range.mp hj, rfl⟩
      rw [← hpeers peer hpeer] at hlisted
      exact ⟨peer, hpeer, _, hlisted, rfl⟩

/-- The blocks of peers that all list the contents cut alike are joined to the contents. -/
theorem reassembles_of_listing {blockSize : ℕ} {content : List UInt8} {entry : IndexEntry}
    (hb : 0 < blockSize) {nodes : Nodes} {h : Str}
    (hget : (fileIndex nodes).get? h = some entry)
    (hpeers : ∀ peer ∈ entry.peers, peer.blocks = listing blockSize content)
    (hcollision : NoCollision fun bytes => bytes <:+: content) :
  Reassembles entry content
  := by
  have havailable := availableBlocks_of_listing hget hpeers
  intro taken htaken
  have hblock : ∀ i < Cut.count blockSize content.length,
      taken (Int.ofNat i) = Cut.block blockSize content i := by
    intro i hi
    obtain ⟨hpart, peer, hpeer, block, hblock, hindex, hhash, -⟩ := htaken (Int.ofNat i) (by
      rw [havailable]
      exact List.mem_map_of_mem (List.mem_range.mpr hi))
    rw [hpeers peer hpeer] at hblock
    obtain ⟨j, -, rfl⟩ := mem_listing.mp hblock
    obtain rfl : j = i := Int.ofNat.inj hindex
    apply hcollision hpart (Cut.block_infix blockSize content j)
    exact (Str.ofString_injective (Option.some.inj hhash)).symm
  have hblocks : entry.availableBlocks.map (fun i => (i.toNat, taken i))
      = (List.range (Cut.count blockSize content.length)).map fun i =>
          (i, Cut.block blockSize content i) := by
    rw [havailable, List.map_map]
    apply List.map_congr_left
    intro i hi
    rw [Function.comp_apply, hblock i (List.mem_range.mp hi)]
    rfl
  rw [hblocks, joinBlocks_map_block List.pairwise_lt_range, List.length_range,
    List.take_of_length_le (Cut.le_count_mul hb _)]
  exact ⟨rfl, rfl⟩

section UnicodeData

variable [UnicodeData] {nodeTtlSeconds : ℤ} {publications : Publications} {t : Time}
  {content : List UInt8} {p : Publication} {entry : IndexEntry}

theorem Publication.IsCurrent.mem (h : p.IsCurrent nodeTtlSeconds publications t) :
  ∃ u, (p, u) ∈ publications
  := by
  obtain ⟨before, u, later, record, rfl, -⟩ := h
  exact ⟨u, by simp⟩

/-- What a record was made of. -/
theorem exists_isCurrent_of_lease {k : Str} {record : Record}
    (h : lease nodeTtlSeconds (operations publications) t k = some record) :
  ∃ p : Publication, p.IsCurrent nodeTtlSeconds publications t ∧
    (∀ resource ∈ p.index.resources, Publishable resource) ∧
    record.resources = p.index.resources.map published
  := by
  obtain ⟨before, payload, remoteHost, u, later, hsplit, hrecord, rfl, hlast, ht⟩ :=
    lease_eq_some_iff.mp h
  obtain ⟨before, rest, rfl, rfl, hrest⟩ := List.map_eq_append_iff.mp hsplit
  obtain ⟨⟨p, u'⟩, later, rfl, hp, rfl⟩ := List.map_eq_cons_iff.mp hrest
  obtain ⟨hop, rfl⟩ := Prod.mk.inj hp
  obtain ⟨rfl, rfl⟩ := Operation.updateNode.inj hop
  use p
  constructor
  · refine ⟨before, u', later, record, rfl, hrecord, ?_, ht⟩
    intro i hi
    exact hlast _ (List.mem_map_of_mem hi)
  · exact resources_of_updateRecord p.indexed_of_mem_index hrecord

/-- A node whose last update was that of `p` has a record of it. -/
theorem Publication.IsCurrent.exists_lease (h : p.IsCurrent nodeTtlSeconds publications t) :
  ∃ record : Record, lease nodeTtlSeconds (operations publications) t record.nodeId = some record ∧
    (∀ resource ∈ p.index.resources, Publishable resource) ∧
    record.resources = p.index.resources.map published
  := by
  obtain ⟨before, u, later, record, rfl, hrecord, hlast, ht⟩ := h
  use record
  constructor
  · apply lease_eq_some_iff.mpr
    refine ⟨operations before, p.payload, p.remoteHost, u, operations later, ?_, hrecord, rfl, ?_,
      ht⟩
    · simp [operations, Publication.operation]
    · intro i hi
      obtain ⟨j, hj, rfl⟩ := List.mem_map.mp hi
      exact hlast j hj
  · exact resources_of_updateRecord p.indexed_of_mem_index hrecord

/-- The index at `t`. -/
def indexAt (nodeTtlSeconds : ℤ) (publications : Publications) (t : Time) : FileIndex :=
  (buildFileIndex (runAll nodeTtlSeconds (operations publications)) t false).1

/-- The index shows the lease map. -/
theorem showsExactly_operations (nodeTtlSeconds : ℤ) (hclock : ∀ i ∈ publications, i.2 ≤ t) :
  ShowsExactly (runAll nodeTtlSeconds (operations publications)) t
    (lease nodeTtlSeconds (operations publications) t)
  := by
  have hclock' : ∀ i ∈ operations publications, i.2 ≤ t := by
    intro i hi
    obtain ⟨j, hj, rfl⟩ := List.mem_map.mp hi
    exact hclock j hj
  rw [← live_runAll hclock']
  apply (valid_runAll nodeTtlSeconds (operations publications)).showsExactly

/-- The peers under a hash are the resources with that hash of the records of the lease map. -/
theorem mem_peersOf_indexAt (hclock : ∀ i ∈ publications, i.2 ≤ t) {fileHash : Str} {peer : Peer} :
  peer ∈ peersOf (indexAt nodeTtlSeconds publications t) fileHash ↔
    ∃ record, lease nodeTtlSeconds (operations publications) t peer.nodeId = some record ∧
      ∃ resource ∈ record.resourcesOf fileHash, peerOf record resource = peer
  := by
  have hpeers := (showsExactly_operations nodeTtlSeconds hclock).peers_eq
    fileHash peer.nodeId
  have hfilter : peer ∈ peersOf (indexAt nodeTtlSeconds publications t) fileHash ↔
      peer ∈ (peersOf (indexAt nodeTtlSeconds publications t) fileHash).filter
        fun other => other.nodeId = peer.nodeId := by
    simp
  rw [hfilter, indexAt, hpeers]
  simp

/-- A resource of a publication that has the hash of the contents has the contents. -/
theorem mem_resourcesOf {record : Record} {resource : Resource}
    (hp : p.IsCurrent nodeTtlSeconds publications t)
    (hresources : record.resources = p.index.resources.map published)
    (hcollision : NoCollision (parts content publications)) :
  resource ∈ record.resourcesOf (Str.ofString (Sha256.hex content)) ↔
    ∃ name, (name, content) ∈ p.files ∧ resource = published (p.resource (name, content))
  := by
  rw [Record.resourcesOf, List.mem_filter, hresources, decide_eq_true_eq]
  constructor
  · rintro ⟨hmem, hhash⟩
    obtain ⟨_, hindexed, rfl⟩ := List.mem_map.mp hmem
    obtain ⟨⟨name, content'⟩, hfile, rfl⟩ := List.mem_map.mp hindexed
    rw [(p.published_resource _).1] at hhash
    obtain ⟨u, hu⟩ := hp.mem
    have hsame : content' = content := by
      apply hcollision _ _ (Str.ofString_injective hhash)
      · right
        exact ⟨_, hu, _, hfile, List.infix_refl _⟩
      · left
        apply List.infix_refl
    subst hsame
    exact ⟨name, hfile, rfl⟩
  · rintro ⟨name, hfile, rfl⟩
    use List.mem_map_of_mem (List.mem_map_of_mem hfile)
    exact (p.published_resource _).1

/-- Whoever is listed under the hash of the contents holds them, and lists them as it cuts them. -/
theorem exists_holds_of_mem (hclock : ∀ i ∈ publications, i.2 ≤ t)
    (hcollision : NoCollision (parts content publications)) {peer : Peer}
    (h : peer ∈ peersOf (indexAt nodeTtlSeconds publications t)
      (Str.ofString (Sha256.hex content))) :
  ∃ p : Publication, p.Holds nodeTtlSeconds publications t content ∧ content ≠ [] ∧
    peer.blocks = listing p.blockSize content
  := by
  obtain ⟨record, hrecord, resource, hresource, rfl⟩ := (mem_peersOf_indexAt hclock).mp h
  obtain ⟨p, hp, hpublishable, hresources⟩ := exists_isCurrent_of_lease hrecord
  obtain ⟨name, hfile, rfl⟩ := (mem_resourcesOf hp hresources hcollision).mp hresource
  refine ⟨p, ⟨hp, name, hfile⟩, ?_, (p.published_resource _).2⟩
  rintro rfl
  apply (hpublishable _ (List.mem_map_of_mem hfile)).blocks_ne_nil
  rw [Publication.resource, resourceOfChunks, Cut.Reader.chunks_full p.blockSize_pos,
    Cut.blocks_nil]
  rfl

/-- Whoever holds the contents is listed under their hash. -/
theorem exists_mem_of_holds (hclock : ∀ i ∈ publications, i.2 ≤ t)
    (hcollision : NoCollision (parts content publications))
    (h : p.Holds nodeTtlSeconds publications t content) :
  ∃ peer ∈ peersOf (indexAt nodeTtlSeconds publications t) (Str.ofString (Sha256.hex content)),
    peer.blocks = listing p.blockSize content
  := by
  obtain ⟨hp, name, hfile⟩ := h
  obtain ⟨record, hrecord, -, hresources⟩ := hp.exists_lease
  use peerOf record (published (p.resource (name, content)))
  constructor
  · rw [mem_peersOf_indexAt hclock]
    exact ⟨record, hrecord, _, (mem_resourcesOf hp hresources hcollision).mpr ⟨name, hfile, rfl⟩,
      rfl⟩
  · exact (p.published_resource _).2

/-- Holders that are listed coherently have the same block size as far as the contents go. -/
theorem min_eq_of_coherent (hclock : ∀ i ∈ publications, i.2 ≤ t)
    (hcollision : NoCollision (parts content publications))
    (h : ∀ entry, (indexAt nodeTtlSeconds publications t).get?
      (Str.ofString (Sha256.hex content)) = some entry → Coherent entry)
    {q : Publication} (hp : p.Holds nodeTtlSeconds publications t content)
    (hq : q.Holds nodeTtlSeconds publications t content) :
  min p.blockSize content.length = min q.blockSize content.length
  := by
  obtain ⟨peer, hpeer, hblocks⟩ := exists_mem_of_holds hclock hcollision hp
  obtain ⟨peer', hpeer', hblocks'⟩ := exists_mem_of_holds hclock hcollision hq
  obtain ⟨-, -, hcontent, -⟩ := exists_holds_of_mem hclock hcollision hpeer
  cases hget : (indexAt nodeTtlSeconds publications t).get? (Str.ofString (Sha256.hex content)) with
  | none => simp [peersOf, hget] at hpeer
  | some entry =>
      have hpeers : peersOf (indexAt nodeTtlSeconds publications t)
          (Str.ofString (Sha256.hex content)) = entry.peers := by simp [peersOf, hget]
      rw [hpeers] at hpeer hpeer'
      apply min_eq_of_listing p.blockSize_pos q.blockSize_pos hcontent
      have hcoherent := h entry hget peer hpeer peer' hpeer'
      rw [hblocks, hblocks'] at hcoherent
      exact hcoherent

/-- At every time, what the index says under the hash of some contents is coherent, and whatever
blocks of its peers are taken are joined to the contents, exactly when all holders of the contents
have the same block size as far as the contents go. -/
theorem coherent_iff (nodeTtlSeconds : ℤ) (publications : Publications) (t : Time)
    (hclock : ∀ i ∈ publications, i.2 ≤ t) (content : List UInt8)
    (hcollision : NoCollision (parts content publications)) :
  (∀ entry, (indexAt nodeTtlSeconds publications t).get? (Str.ofString (Sha256.hex content))
      = some entry → Coherent entry ∧ Reassembles entry content) ↔
    ∀ p q : Publication, p.Holds nodeTtlSeconds publications t content →
      q.Holds nodeTtlSeconds publications t content →
      min p.blockSize content.length = min q.blockSize content.length
  := by
  constructor
  · intro hall p q hp hq
    apply min_eq_of_coherent hclock hcollision (fun entry hget => (hall entry hget).1) hp hq
  · intro hmin entry hget
    have hpeers : peersOf (indexAt nodeTtlSeconds publications t)
        (Str.ofString (Sha256.hex content)) = entry.peers := by simp [peersOf, hget]
    obtain ⟨peer, hpeer⟩ := List.exists_mem_of_ne_nil _ (entry_of_get? hget).1
    rw [← hpeers] at hpeer
    obtain ⟨p, hp, -, -⟩ := exists_holds_of_mem hclock hcollision hpeer
    have hlist : ∀ other ∈ entry.peers, other.blocks = listing p.blockSize content := by
      intro other hother
      rw [← hpeers] at hother
      obtain ⟨q, hq, -, hblocks⟩ := exists_holds_of_mem hclock hcollision hother
      rw [hblocks]
      apply listing_eq_of_min_eq q.blockSize_pos p.blockSize_pos (hmin q p hq hp)
    constructor
    · apply coherent_of_listing hlist
    · apply reassembles_of_listing p.blockSize_pos hget hlist
      apply hcollision.mono
      intro bytes hbytes
      left
      exact hbytes

end UnicodeData

end Sha256

/-! ### Two holders of a file of two bytes -/

/-- A node that holds a file of two bytes. -/
def holder (nodeId : String) (blockSize : ℕ) (hb : 0 < blockSize) : Publication where
  nodeId := nodeId
  host := "127.0.0.1"
  port := 9001
  remoteHost := none
  blockSize := blockSize
  blockSize_pos := hb
  files := [("a", [97, 98])]

/-- Two nodes publish it, one after another. -/
def twoHolders (b b' : ℕ) (hb : 0 < b) (hb' : 0 < b') : Publications :=
  [(holder "node-a" b hb, 0), (holder "node-b" b' hb', 1)]

theorem noCollision_twoHolders (b b' : ℕ) (hb : 0 < b) (hb' : 0 < b') :
  let _ := Sha256.short
  NoCollision (parts [97, 98] (twoHolders b b' hb hb'))
  := by
  intro _
  apply noCollision_short
  rintro bytes (hpart | ⟨i, hi, file, hfile, hpart⟩)
  · exact hpart.sublist
  · have hcontent : file.2 = [97, 98] := by
      simp only [twoHolders, List.mem_cons, List.not_mem_nil, or_false] at hi
      rcases hi with rfl | rfl <;> rw [List.mem_singleton.mp hfile]
    rw [hcontent] at hpart
    exact hpart.sublist

/-- Their updates are accepted. -/
theorem exists_record_holder [Sha256] [UnicodeData] (nodeId : String)
    (hid : (Str.ofString nodeId).strip ≠ []) (b : ℕ) (hb : 0 < b) (now : Time) :
  ∃ record, updateRecord 90 (holder nodeId b hb).payload (holder nodeId b hb).remoteHost now
      = .ok record ∧
    record.nodeId = (Str.ofString nodeId).strip
  := by
  have hindex : ∀ resource ∈ (holder nodeId b hb).index.resources, Publishable resource := by
    intro resource hresource
    rw [List.mem_singleton.mp hresource]
    apply Publication.publishable_resource
    · decide
    · simp
  have hhost : (Str.ofString "127.0.0.1").strip ≠ [] := by decide
  have hport : 1 ≤ 9001 ∧ 9001 ≤ 65535 := by decide
  obtain ⟨record, hrecord, hnodeId, -⟩ :=
    updateRecord_toJson hindex hid hhost hport 90 (holder nodeId b hb).remoteHost now
  exact ⟨record, hrecord, hnodeId⟩

/-- They are listed coherently if their block sizes are the same as far as the file goes. -/
theorem coherent_twoHolders :
  let _ := Sha256.short
  let _ := UnicodeData.ascii
  ∀ entry, (indexAt 90 (twoHolders 2 3 Nat.two_pos (Nat.succ_pos 2)) 1).get?
    (Str.ofString (Sha256.hex [97, 98])) = some entry →
      Coherent entry ∧ Reassembles entry [97, 98]
  := by
  intro _ _
  apply (coherent_iff 90 (twoHolders 2 3 Nat.two_pos (Nat.succ_pos 2)) 1 (by decide) [97, 98]
    (noCollision_twoHolders _ _ _ _)).mpr
  have hsize : ∀ p : Publication, p.Holds 90 (twoHolders 2 3 Nat.two_pos (Nat.succ_pos 2)) 1 [97, 98] →
      min p.blockSize 2 = 2 := by
    rintro p ⟨hp, -⟩
    obtain ⟨u, hu⟩ := hp.mem
    simp only [twoHolders, List.mem_cons, List.not_mem_nil, or_false, Prod.mk.injEq] at hu
    rcases hu with ⟨rfl, -⟩ | ⟨rfl, -⟩ <;> rfl
  intro p q hp hq
  exact (hsize p hp).trans (hsize q hq).symm

/-- Blocks of one byte and blocks of two bytes are not. -/
theorem not_coherent_twoHolders :
  let _ := Sha256.short
  let _ := UnicodeData.ascii
  ¬ ∀ entry, (indexAt 90 (twoHolders 1 2 Nat.one_pos Nat.two_pos) 1).get?
    (Str.ofString (Sha256.hex [97, 98])) = some entry →
      Coherent entry ∧ Reassembles entry [97, 98]
  := by
  intro _ _ hall
  have hclock : ∀ i ∈ twoHolders 1 2 Nat.one_pos Nat.two_pos, i.2 ≤ 1 := by decide
  obtain ⟨first, hfirst, hfirstId⟩ :=
    exists_record_holder "node-a" (by decide) 1 Nat.one_pos 0
  obtain ⟨second, hsecond, hsecondId⟩ :=
    exists_record_holder "node-b" (by decide) 2 Nat.two_pos 1
  have hholds : (holder "node-a" 1 Nat.one_pos).Holds 90 (twoHolders 1 2 Nat.one_pos Nat.two_pos) 1
      [97, 98] := by
    refine ⟨⟨[], 0, _, first, rfl, hfirst, ?_, by decide⟩, "a", List.mem_singleton_self _⟩
    intro i hi
    rw [List.mem_singleton.mp hi]
    have hne : second.nodeId ≠ first.nodeId := by
      rw [hfirstId, hsecondId]
      decide
    simp only [Publication.operation, Operation.writeTo, hsecond]
    exact if_neg hne
  have hholds' : (holder "node-b" 2 Nat.two_pos).Holds 90 (twoHolders 1 2 Nat.one_pos Nat.two_pos) 1
      [97, 98] := by
    refine ⟨⟨[_], 1, [], second, rfl, hsecond, ?_, by decide⟩, "a", List.mem_singleton_self _⟩
    simp
  have hmin := min_eq_of_coherent hclock (noCollision_twoHolders _ _ _ _)
    (fun entry hget => (hall entry hget).1) hholds hholds'
  exact absurd hmin (by decide)

end System
