import Mathlib.Logic.Relation
import ResourceDistribution.Node.PeerServer
import ResourceDistribution.Node.Download
import ResourceDistribution.Node.Stops
import ResourceDistribution.System.Coherence
import ResourceDistribution.System.Query

/-!
# The swarm

The tracker and some nodes that share files. A member of the swarm scans its share directory and
sends the index to the tracker, where it may arrive at any later time, more than once, after newer
ones or never; in the meantime share directories change, and other clients call the tracker. What
the tracker says of the holders of some contents stays true as long as no member drops them
(`Truthful`), so whoever reads a location of them can download them, however old the location is
(`downloads_listed`).
-/

open Python Node Tracker Tasks

namespace Node

/-- The share directory has a file with these contents that can be read. -/
def FileSystem.Shares (fs : FileSystem) (content : List UInt8) : Prop :=
  ∃ path ∈ fs.files, fs.contents (fs.fullPath path) = .ok content

/-- The file has the contents that are found at its path. -/
theorem contentAt_of_contents {fs : FileSystem} {path : List OsString} {content : List UInt8}
    (h : fs.contents (fs.fullPath path) = .ok content) :
  fs.contentAt path = content
  := by
  rw [FileSystem.contentAt, h]

end Node

namespace System

/-! ### Members -/

/-- A member of the swarm, as it is configured. -/
structure Member where
  nodeId : String
  host : String
  port : ℕ
  remoteHost : Option Str
  blockSize : ℕ
  nodeId_not_blank : (Str.ofString nodeId).strip ≠ []
  host_not_blank : (Str.ofString host).strip ≠ []
  port_range : 1 ≤ port ∧ port ≤ 65535

/-- The id under which the tracker stores a member. -/
def Member.key (member : Member) : Str := (Str.ofString member.nodeId).strip

/-- Where the tracker says that a member can be asked for blocks. -/
def Member.address (member : Member) : Str × ℤ := ((Str.ofString member.host).strip, member.port)

section Sha256

variable [Sha256]

/-- The update that a member sends. -/
def Member.update (member : Member) (index : ResourceIndex) : Operation :=
  .updateNode (updateRequestFromIndex member.nodeId member.host member.port index).toJson
    member.remoteHost

/-- The blocks that a member lists of some contents that it reads in blocks. -/
def Member.listed (member : Member) (content : List UInt8) : List BlockResource :=
  blocksOfChunks (Cut.blocks member.blockSize content)

/-- What a member replies to a request for a block of the contents when its share directory is as
given. -/
def Member.reply (member : Member) (shareDir : FileSystem) (content : List UInt8) (i : ℕ) : Reply :=
  ((PeerServerState.mk shareDir member.blockSize).getBlock (Sha256.hex content) i).reply

/-- The contents are cut alike by the member's block size and by this one. -/
structure Member.Cuts (member : Member) (blockSize : ℕ) (content : List UInt8) : Prop where
  pos : 0 < member.blockSize
  alike : min member.blockSize content.length = min blockSize content.length

/-- A member that cuts the contents like this lists them like this. -/
theorem Member.Cuts.listed_eq {member : Member} {blockSize : ℕ} {content : List UInt8}
    (h : member.Cuts blockSize content) (hb : 0 < blockSize) :
  (member.listed content).map publishedBlock = listing blockSize content
  := by
  rw [Member.listed]
  apply listing_eq_of_min_eq h.pos hb h.alike

end Sha256

/-! ### States and events -/

/-- A state of the swarm: the tracker's map and its clock, the share directory of every member, and
the updates that have been sent. -/
structure Swarm (M : Type) where
  nodes : Nodes
  clock : Time
  shareDir : M → FileSystem
  sent : List (M × ResourceIndex)

/-- Something that happens in the swarm: a share directory changes, a member scans its share
directory and sends an update, an update that was sent arrives at the tracker, another call is made,
or time passes. -/
inductive Event (M : Type) where
  | change (m : M) (shareDir : FileSystem)
  | scan (m : M) (root : OsString) (index : ResourceIndex)
  | arrive (m : M) (index : ResourceIndex)
  | call (op : Operation)
  | tick (t : Time)

section Swarm

variable [Sha256] [UnicodeData] {M : Type} [DecidableEq M] (members : M → Member)
  (nodeTtlSeconds : ℤ) (strings : Set (List UInt8)) (content : List UInt8)

/-- The call is not an update in the name of a member. -/
def Foreign (now : Time) (op : Operation) : Prop :=
  ∀ payload remoteHost record, op = .updateNode payload remoteHost →
    updateRecord nodeTtlSeconds payload remoteHost now = .ok record →
    ∀ m, (members m).key ≠ record.nodeId

/-- What may happen as long as no member drops the contents, each reads them in blocks wherever it has
them, and no other client takes a member's name. What files consist of is in `strings`. -/
inductive Swarm.Step (s : Swarm M) : Event M → Swarm M → Prop where
  | change (m : M) (shareDir : FileSystem) (hstrings : shareDir.parts ⊆ strings)
      (hkeeps : (s.shareDir m).Shares content → shareDir.Shares content)
      (hreads : shareDir.ReadsInBlocks (members m).blockSize content) :
      s.Step (.change m shareDir) { s with shareDir := Function.update s.shareDir m shareDir }
  | scan (m : M) (root : OsString) (index : ResourceIndex)
      (hscan : (s.shareDir m).scanShareDir root (members m).blockSize = .ok index) :
      s.Step (.scan m root index) { s with sent := (m, index) :: s.sent }
  | arrive (m : M) (index : ResourceIndex) (hsent : (m, index) ∈ s.sent) :
      s.Step (.arrive m index)
        { s with nodes := ((members m).update index).after nodeTtlSeconds s.nodes s.clock }
  | call (op : Operation) (hforeign : Foreign members nodeTtlSeconds s.clock op) :
      s.Step (.call op) { s with nodes := op.after nodeTtlSeconds s.nodes s.clock }
  | tick (t : Time) (hlater : s.clock ≤ t) : s.Step (.tick t) { s with clock := t }

/-- One state of the swarm leads to another. -/
def Swarm.Run : Swarm M → Swarm M → Prop :=
  Relation.ReflTransGen fun s s' =>
    ∃ event, s.Step members nodeTtlSeconds strings content event s'

/-- A swarm that starts: the tracker knows no node. -/
structure Swarm.Start (s : Swarm M) : Prop where
  nodes_eq : s.nodes = Dict.empty
  sent_eq : s.sent = []
  strings : ∀ m, (s.shareDir m).parts ⊆ strings
  reads : ∀ m, (s.shareDir m).ReadsInBlocks (members m).blockSize content

/-- A state that a swarm reaches. -/
def Swarm.Reached (s : Swarm M) : Prop :=
  ∃ start, Swarm.Start members strings content start ∧
    start.Run members nodeTtlSeconds strings content s

/-! ### The invariant -/

/-- A resource that a member lists under the hash of the contents lists them as the member cuts them,
and the member shares them. -/
def ListsTruly (s : Swarm M) (m : M) (resource : FileResource) : Prop :=
  resource.fileHash = Sha256.hex content →
    (s.shareDir m).Shares content ∧ resource.blocks = (members m).listed content

/-- A record of a member has the member's address, and what it lists under the hash of the contents
is what the member lists of them; and the member shares them, which are not empty. -/
structure RecordTrue (s : Swarm M) (m : M) (record : Record) : Prop where
  address_eq : (record.host, record.port) = (members m).address
  resources_true : ∀ resource ∈ record.resourcesOf (Str.ofString (Sha256.hex content)),
    content ≠ [] ∧ (s.shareDir m).Shares content ∧
      resource.blocks = ((members m).listed content).map publishedBlock

/-- Whatever was sent or is stored of a member is true. -/
structure Truthful (s : Swarm M) : Prop where
  within : ∀ m, (s.shareDir m).parts ⊆ strings
  reads : ∀ m, (s.shareDir m).ReadsInBlocks (members m).blockSize content
  valid : s.nodes.Valid
  sent_true : ∀ m index, (m, index) ∈ s.sent → ∀ resource ∈ index.resources,
    Indexed resource ∧ ListsTruly members content s m resource
  records_true : ∀ k record, s.nodes.get? k = some record → ∀ m, k = (members m).key →
    RecordTrue members content s m record

variable {members nodeTtlSeconds strings content} {s s' : Swarm M}

omit [UnicodeData] [DecidableEq M] in
/-- A file of the share directory is one of the strings, with its parts. -/
theorem Truthful.mem_strings (h : Truthful members strings content s) {m : M}
    (hshares : (s.shareDir m).Shares content) {part : List UInt8} (hpart : part <:+: content) :
  part ∈ strings
  := by
  obtain ⟨path, hpath, hcontents⟩ := hshares
  apply h.within m
  exact ⟨path, hpath, content, Or.inl hcontents, hpart⟩

omit [UnicodeData] [DecidableEq M] in
/-- What a scan finds is listed truly. -/
theorem listsTruly_of_scan (hcollision : NoCollision strings) (hcontent : content ∈ strings)
    (h : Truthful members strings content s) {m : M} {root : OsString} {index : ResourceIndex}
    (hscan : (s.shareDir m).scanShareDir root (members m).blockSize = .ok index)
    {resource : FileResource} (hresource : resource ∈ index.resources) :
  Indexed resource ∧ ListsTruly members content s m resource
  := by
  obtain ⟨hb, -, hread, hresources⟩ := scanShareDir_spec hscan
  rw [hresources] at hresource
  obtain ⟨path, hpath, rfl⟩ := List.mem_map.mp hresource
  use indexed_resourceOfChunks _ _ _ _
  intro hhash
  rw [FileSystem.resourceAt, fileHash_resourceOf hb] at hhash
  have hmem : (s.shareDir m).contentAt path ∈ strings := by
    apply h.within m
    apply mem_parts_of_infix hscan hpath (List.infix_refl _)
  have hsame := hcollision hmem hcontent hhash
  have hblocks := h.reads m path hpath hsame
  rw [FileSystem.ReadsBlocks, ← readChunks_eq_blocks_iff hb] at hblocks
  constructor
  · rw [← hsame]
    exact ⟨path, hpath, hread path hpath⟩
  · rw [FileSystem.resourceAt, resourceOf, resourceOfChunks, hblocks, hsame, Member.listed]

omit [DecidableEq M] in
/-- The record of an update that lists truly is true. -/
theorem recordTrue_of_update {m : M} {index : ResourceIndex}
    (hindex : ∀ resource ∈ index.resources,
      Indexed resource ∧ ListsTruly members content s m resource) {now : Time} {record : Record}
    (hrecord : updateRecord nodeTtlSeconds (updateRequestFromIndex (members m).nodeId
      (members m).host (members m).port index).toJson (members m).remoteHost now = .ok record) :
  record.nodeId = (members m).key ∧ record.resources = index.resources.map published ∧
    RecordTrue members content s m record
  := by
  obtain ⟨hpublishable, hresources⟩ :=
    resources_of_updateRecord (fun resource h => (hindex resource h).1) hrecord
  obtain ⟨record', hrecord', hid, hhost, hport, -⟩ :=
    updateRecord_toJson hpublishable (members m).nodeId_not_blank (members m).host_not_blank
      (members m).port_range nodeTtlSeconds (members m).remoteHost now
  obtain rfl := Except.ok.inj (hrecord'.symm.trans hrecord)
  use hid, hresources
  constructor
  · rw [hhost, hport]
    rfl
  · intro resource hmem
    obtain ⟨hmem, hhash⟩ := List.mem_filter.mp hmem
    rw [hresources] at hmem
    obtain ⟨listed, hlisted, rfl⟩ := List.mem_map.mp hmem
    have heq : listed.fileHash = Sha256.hex content :=
      Str.ofString_injective (of_decide_eq_true hhash)
    obtain ⟨hshares, hblocks⟩ := (hindex listed hlisted).2 heq
    refine ⟨?_, hshares, by rw [published, hblocks]⟩
    rintro rfl
    apply (hpublishable listed hlisted).blocks_ne_nil
    rw [hblocks, Member.listed, Cut.blocks_nil]
    rfl

/-- What happens keeps the contents shared. -/
theorem Swarm.Step.shares {event : Event M}
    (h : s.Step members nodeTtlSeconds strings content event s') {m : M}
    (hshares : (s.shareDir m).Shares content) :
  (s'.shareDir m).Shares content
  := by
  cases h with
  | change n shareDir hstrings hkeeps hreads =>
      by_cases hmn : m = n
      · subst hmn
        dsimp only
        rw [Function.update_self]
        apply hkeeps hshares
      · dsimp only
        rw [Function.update_of_ne hmn]
        exact hshares
  | _ => exact hshares

/-- Whatever happens, what was sent and what is stored stay true. -/
theorem Truthful.step (hcollision : NoCollision strings) (hcontent : content ∈ strings)
    (hkeys : Function.Injective fun m => (members m).key)
    (h : Truthful members strings content s) {event : Event M}
    (hstep : s.Step members nodeTtlSeconds strings content event s') :
  Truthful members strings content s'
  := by
  have hshares : ∀ m, (s.shareDir m).Shares content → (s'.shareDir m).Shares content :=
    fun m => hstep.shares
  have hsent : ∀ m index, (m, index) ∈ s.sent → ∀ resource ∈ index.resources,
      Indexed resource ∧ ListsTruly members content s' m resource := by
    intro m index hmem resource hresource
    obtain ⟨hindexed, hlists⟩ := h.sent_true m index hmem resource hresource
    use hindexed
    intro hhash
    exact ⟨hshares m (hlists hhash).1, (hlists hhash).2⟩
  have hrecords : ∀ k record, s.nodes.get? k = some record → ∀ m, k = (members m).key →
      RecordTrue members content s' m record := by
    intro k record hget m hm
    have htrue := h.records_true k record hget m hm
    use htrue.address_eq
    intro resource hresource
    obtain ⟨hne, hmember, hblocks⟩ := htrue.resources_true resource hresource
    exact ⟨hne, hshares m hmember, hblocks⟩
  cases hstep with
  | change n shareDir hstrings hkeeps hreads =>
      have hdirs : ∀ m, (Function.update s.shareDir n shareDir m).parts ⊆ strings ∧
          (Function.update s.shareDir n shareDir m).ReadsInBlocks (members m).blockSize content := by
        rw [Function.forall_update_iff s.shareDir fun m fs => fs.parts ⊆ strings ∧
          fs.ReadsInBlocks (members m).blockSize content]
        exact ⟨⟨hstrings, hreads⟩, fun m _ => ⟨h.within m, h.reads m⟩⟩
      exact ⟨fun m => (hdirs m).1, fun m => (hdirs m).2, h.valid, hsent, hrecords⟩
  | scan n root index hscan =>
      refine ⟨h.within, h.reads, h.valid, ?_, hrecords⟩
      intro m index' hmem resource hresource
      rcases List.mem_cons.mp hmem with heq | hmem
      · obtain ⟨rfl, rfl⟩ := Prod.mk.inj heq
        apply listsTruly_of_scan hcollision hcontent h hscan hresource
      · exact hsent m index' hmem resource hresource
  | arrive n index hmem =>
      refine ⟨h.within, h.reads, h.valid.after _ _ _, hsent, ?_⟩
      apply forall_after hrecords
      intro payload remoteHost record heq hrecord m hm
      obtain ⟨rfl, rfl⟩ := Operation.updateNode.inj heq
      obtain ⟨hid, -, htrue⟩ := recordTrue_of_update (hsent n index hmem) hrecord
      obtain rfl : n = m := hkeys (hid.symm.trans hm)
      exact htrue
  | call op hforeign =>
      refine ⟨h.within, h.reads, h.valid.after _ _ _, hsent, ?_⟩
      apply forall_after hrecords
      intro payload remoteHost record heq hrecord m hm
      cases hforeign payload remoteHost record heq hrecord m hm.symm
  | tick t hlater => exact ⟨h.within, h.reads, h.valid, hsent, hrecords⟩

/-- What is true stays true in every run. -/
theorem Truthful.run (hcollision : NoCollision strings) (hcontent : content ∈ strings)
    (hkeys : Function.Injective fun m => (members m).key)
    (h : Truthful members strings content s)
    (hrun : s.Run members nodeTtlSeconds strings content s') :
  Truthful members strings content s'
  := by
  induction hrun with
  | refl => exact h
  | tail _ hstep ih =>
      obtain ⟨event, hstep⟩ := hstep
      apply ih.step hcollision hcontent hkeys hstep

/-- What is shared stays shared in every run. -/
theorem Swarm.Run.shares (hrun : s.Run members nodeTtlSeconds strings content s') {m : M}
    (hshares : (s.shareDir m).Shares content) :
  (s'.shareDir m).Shares content
  := by
  induction hrun with
  | refl => exact hshares
  | tail _ hstep ih =>
      obtain ⟨event, hstep⟩ := hstep
      apply hstep.shares ih

/-- The states that a swarm reaches are truthful. -/
theorem Swarm.Reached.truthful (hcollision : NoCollision strings) (hcontent : content ∈ strings)
    (hkeys : Function.Injective fun m => (members m).key)
    (h : s.Reached members nodeTtlSeconds strings content) :
  Truthful members strings content s
  := by
  obtain ⟨start, hstart, hrun⟩ := h
  apply Truthful.run hcollision hcontent hkeys _ hrun
  refine ⟨hstart.strings, hstart.reads, ?_, ?_, ?_⟩
  · rw [hstart.nodes_eq]
    exact Nodes.valid_empty
  · rw [hstart.sent_eq]
    simp
  · rw [hstart.nodes_eq]
    intro k record hget
    rw [Dict.get?_empty] at hget
    cases hget

/-! ### Locations -/

/-- The live entries of the tracker. -/
def Swarm.live (s : Swarm M) : List IndexEntry :=
  (fileIndex (cleanupExpired s.nodes s.clock).2).values

variable (members nodeTtlSeconds strings content) in
/-- A location of the contents that was read from the tracker, and has no peers but members. -/
structure Swarm.Shows (s : Swarm M) (location : FileLocation) : Prop where
  mem_live : entryMeant location ∈ s.live
  fileHash_eq : location.fileHash = Sha256.hex content
  peer_member : ∀ peer ∈ location.peers, ∃ m, (peerMeant peer).nodeId = (members m).key

variable (members nodeTtlSeconds strings content) in
/-- The reply to a request for a block is that of the member at the address of the peer, now or
later, when the member can scan its share directory and the name of the contents leads back to
them. -/
structure Swarm.Answers (s : Swarm M) (peer : Peer) (i : ℕ) (reply : Reply) (m : M)
    (s' : Swarm M) : Prop where
  run : s.Run members nodeTtlSeconds strings content s'
  address_eq : (peer.host, peer.port) = (members m).address
  scans : ∃ root index, (s'.shareDir m).scanShareDir root (members m).blockSize = .ok index
  leadsBack : (s'.shareDir m).LeadsBack content
  reply_eq : reply = (members m).reply (s'.shareDir m) content i

omit [Sha256] [UnicodeData] [DecidableEq M] in
/-- A peer of a live entry has a stored record with a resource of the entry's hash. -/
theorem exists_record_of_mem_live {entry : IndexEntry} (hentry : entry ∈ s.live) {peer : Peer}
    (hpeer : peer ∈ entry.peers) :
  ∃ k record, s.nodes.get? k = some record ∧ s.clock < record.expiresAtEpoch ∧
    ∃ resource ∈ record.resourcesOf entry.fileHash, peerOf record resource = peer
  := by
  have hpeers := peersOf_fileIndex (cleanupExpired s.nodes s.clock).2 entry.fileHash
  rw [peersOf, get?_of_mem_values hentry, Option.map_some, Option.getD_some] at hpeers
  rw [hpeers] at hpeer
  obtain ⟨⟨record, resource⟩, hholding, rfl⟩ := List.mem_map.mp hpeer
  obtain ⟨hholding, hhash⟩ := List.mem_filter.mp hholding
  obtain ⟨hrecord, hresource⟩ := mem_holdings.mp hholding
  obtain ⟨⟨k, _⟩, hitem', rfl⟩ := List.mem_map.mp hrecord
  have hget := Dict.get?_eq_some_iff.mpr hitem'
  rw [get?_cleanupExpired, Lease.live_eq_some_iff] at hget
  exact ⟨k, _, hget.1, hget.2, resource, List.mem_filter.mpr ⟨hresource, hhash⟩, rfl⟩

omit [UnicodeData] [DecidableEq M] in
/-- A member that is a peer of a location of the contents is listed with its address and its blocks,
and shares the contents. -/
theorem Swarm.Shows.member {location : FileLocation} (h : s.Shows members content location)
    (htrue : Truthful members strings content s) {peer : PeerLocation}
    (hpeer : peer ∈ location.peers) :
  content ≠ [] ∧ ∃ m, ((peerMeant peer).host, (peerMeant peer).port) = (members m).address ∧
    (s.shareDir m).Shares content ∧
    (peerMeant peer).blocks = ((members m).listed content).map publishedBlock
  := by
  obtain ⟨m, hm⟩ := h.peer_member peer hpeer
  obtain ⟨k, record, hget, -, resource, hresource, heq⟩ :=
    exists_record_of_mem_live h.mem_live (List.mem_map_of_mem hpeer)
  have hkey : k = (members m).key := by
    rw [← hm, ← heq, peerOf, (htrue.valid k record hget).nodeId_eq]
  have hrecord := htrue.records_true k record hget m hkey
  have hhash : (entryMeant location).fileHash = Str.ofString (Sha256.hex content) :=
    congrArg Str.ofString h.fileHash_eq
  rw [hhash] at hresource
  obtain ⟨hne, hshares, hblocks⟩ := hrecord.resources_true resource hresource
  rw [← heq]
  exact ⟨hne, m, hrecord.address_eq, hshares, hblocks⟩

omit [UnicodeData] [DecidableEq M] in
/-- A location has some peer. -/
theorem Swarm.Shows.peers_ne_nil {location : FileLocation} (h : s.Shows members content location) :
  location.peers ≠ []
  := by
  intro hnil
  apply (entry_of_get? (get?_of_mem_values h.mem_live)).1
  rw [entryMeant, hnil]
  rfl

omit [UnicodeData] [DecidableEq M] in
/-- A location of the contents lists them truly, and every peer lists all blocks. -/
theorem Swarm.Shows.lists {location : FileLocation} (h : s.Shows members content location)
    (htrue : Truthful members strings content s) {blockSize : ℕ} (hb : 0 < blockSize)
    (hcuts : ∀ m, (members m).Cuts blockSize content) :
  Lists blockSize content location ∧
    location.availableBlocks = List.range (Cut.count blockSize content.length) ∧
    ∀ peer ∈ location.peers, ∀ i < Cut.count blockSize content.length, peer.provides i = true
  := by
  have hlisting : ∀ peer ∈ (entryMeant location).peers, peer.blocks = listing blockSize content := by
    intro _ hmem
    obtain ⟨peer, hpeer, rfl⟩ := List.mem_map.mp hmem
    obtain ⟨-, m, -, -, hblocks⟩ := h.member htrue hpeer
    rw [hblocks, (hcuts m).listed_eq hb]
  have havailable : location.availableBlocks
      = List.range (Cut.count blockSize content.length) := by
    have hcast := availableBlocks_of_listing (get?_of_mem_values h.mem_live) hlisting
    exact List.map_injective_iff.mpr Nat.cast_injective hcast
  have hblock : ∀ peer ∈ location.peers, ∀ block, block ∈ peer.blocks ↔
      ∃ i < Cut.count blockSize content.length, block = ⟨i,
        Sha256.hex (Cut.block blockSize content i), (Cut.block blockSize content i).length⟩ := by
    intro peer hpeer block
    have hblocks : peer.blocks.map blockMeant = listing blockSize content :=
      hlisting _ (List.mem_map_of_mem hpeer)
    have hinjective : Function.Injective blockMeant := by
      rintro ⟨i, hash, size⟩ ⟨i', hash', size'⟩ heq
      simp only [blockMeant, Block.mk.injEq, Nat.cast_inj, Option.some.injEq] at heq
      rw [heq.1, Str.ofString_injective heq.2.1, heq.2.2]
    rw [← List.mem_map_of_injective hinjective, hblocks, mem_listing]
    constructor
    · rintro ⟨i, hi, heq⟩
      exact ⟨i, hi, hinjective heq⟩
    · rintro ⟨i, hi, rfl⟩
      exact ⟨i, hi, rfl⟩
  refine ⟨⟨h.fileHash_eq, ?_, ?_, ?_, ?_⟩, havailable, ?_⟩
  · intro peer hpeer block hmem
    obtain ⟨i, hi, rfl⟩ := (hblock peer hpeer block).mp hmem
    exact hi
  · intro peer hpeer block hmem
    obtain ⟨i, hi, rfl⟩ := (hblock peer hpeer block).mp hmem
    rfl
  · rw [havailable]
    apply List.pairwise_lt_range
  · intro i
    rw [havailable, List.mem_range]
    constructor
    · intro hi
      obtain ⟨peer, hpeer⟩ := List.exists_mem_of_ne_nil _ h.peers_ne_nil
      exact ⟨peer, hpeer, _, (hblock peer hpeer _).mpr ⟨i, hi, rfl⟩, rfl⟩
    · rintro ⟨peer, hpeer, block, hmem, rfl⟩
      obtain ⟨i, hi, rfl⟩ := (hblock peer hpeer block).mp hmem
      exact hi
  · intro peer hpeer i hi
    rw [PeerLocation.provides, List.any_eq_true]
    exact ⟨_, (hblock peer hpeer _).mpr ⟨i, hi, rfl⟩, decide_eq_true rfl⟩

/-! ### Downloads -/

/-- An answer of a member is the block that is asked for, if there is one, and a part of a shared
file anyway. -/
theorem Swarm.Answers.reply {peer : Peer} {i : ℕ} {reply : Reply} {m : M}
    (h : s.Answers members nodeTtlSeconds strings content peer i reply m s')
    (htrue : Truthful members strings content s') (hcollision : NoCollision strings)
    (hshares : (s.shareDir m).Shares content) {blockSize : ℕ} (hb : 0 < blockSize)
    (hcuts : (members m).Cuts blockSize content) :
  (i < Cut.count blockSize content.length → reply = .body (Cut.block blockSize content i)) ∧
    ∀ bytes, reply = .body bytes → bytes ∈ strings
  := by
  obtain ⟨root, index, hscan⟩ := h.scans
  obtain ⟨path, hpath, hcontents⟩ := h.run.shares hshares
  have hat := contentAt_of_contents hcontents
  have hcollision' : NoCollision (s'.shareDir m).parts := hcollision.mono (htrue.within m)
  have hsame : Cut.blocks (members m).blockSize content = Cut.blocks blockSize content :=
    Cut.blocks_eq_of_min_eq hcuts.pos hb hcuts.alike
  rw [h.reply_eq]
  constructor
  · intro hi
    have hcount : Cut.count (members m).blockSize content.length
        = Cut.count blockSize content.length := by
      rw [← Cut.length_blocks, ← Cut.length_blocks, hsame]
    have hblock : Cut.block (members m).blockSize content i = Cut.block blockSize content i := by
      rw [← Cut.getElem_blocks (by rwa [Cut.length_blocks, hcount]),
        ← Cut.getElem_blocks (by rwa [Cut.length_blocks])]
      simp only [hsame]
    have hreply := reply_of_shared hscan hcollision' hpath (i := i)
    rw [hat] at hreply
    rw [Member.reply, hreply h.leadsBack (htrue.reads m) (by rwa [hcount]), hblock]
  · intro bytes hbytes
    apply htrue.within m
    apply (spec_of_readBlockByHash (reply_getBlock_eq_body_iff.mp hbytes)).bytes_mem

/-- A location of the contents that names only members can be used as long as one of them answers for
every block: every schedule of the download ends with the contents. -/
theorem Swarm.assembled_of_answers (hcollision : NoCollision strings) (hcontent : content ∈ strings)
    (hkeys : Function.Injective fun m => (members m).key)
    (haddresses : Function.Injective fun m => (members m).address) {blockSize : ℕ}
    (hb : 0 < blockSize) (hcuts : ∀ m, (members m).Cuts blockSize content)
    (hreached : s.Reached members nodeTtlSeconds strings content) {location : FileLocation}
    (hlocation : s.Shows members content location) {serve : PeerLocation → ℕ → Reply}
    (hreplies : ∀ peer ∈ location.peers, ∀ i, (∃ failure, serve peer i = .failed failure) ∨
      ∃ m s', s.Answers members nodeTtlSeconds strings content (peerMeant peer) i (serve peer i) m s')
    (hanswered : ∀ i ∈ location.availableBlocks, ∃ peer ∈ location.peers,
      ¬ ∃ failure, serve peer i = .failed failure)
    (selfNodeId : String) {state : DownloadState}
    (hreach : Reachable (jobOf location selfNodeId serve).pool
      (jobOf location selfNodeId serve).start state)
    (hfinal : Final (jobOf location selfNodeId serve).pool state) :
  (jobOf location selfNodeId serve).assembled state = some (.ok content)
  := by
  have htrue := hreached.truthful hcollision hcontent hkeys
  obtain ⟨hlists, havailable, hprovides⟩ := hlocation.lists htrue hb hcuts
  have hserve : ∀ peer ∈ location.peers, ∀ i, (∃ failure, serve peer i = .failed failure) ∨
      (i < Cut.count blockSize content.length →
        serve peer i = .body (Cut.block blockSize content i)) ∧
      ∀ bytes, serve peer i = .body bytes → bytes ∈ strings := by
    intro peer hpeer i
    rcases hreplies peer hpeer i with hfailed | ⟨m, s', hanswers⟩
    · left
      exact hfailed
    · right
      obtain ⟨-, m', haddress, hshares, -⟩ := hlocation.member htrue hpeer
      obtain rfl : m' = m := haddresses (haddress.symm.trans hanswers.address_eq)
      apply hanswers.reply (htrue.run hcollision hcontent hkeys hanswers.run) hcollision hshares hb
        (hcuts m')
  obtain ⟨peer, hpeer⟩ := List.exists_mem_of_ne_nil _ hlocation.peers_ne_nil
  obtain ⟨hne, m, -, hshares, -⟩ := hlocation.member htrue hpeer
  apply hlists.assembled_of_servedInTime hb hne _ _ hreach hfinal
  · apply hcollision.mono
    rintro bytes (hpart | ⟨other, hother, i, hbytes⟩)
    · apply htrue.mem_strings hshares hpart
    · rcases hserve other hother i with ⟨failure, hfailed⟩ | ⟨-, hmem⟩
      · rw [hfailed] at hbytes
        cases hbytes
      · apply hmem bytes hbytes
  · intro i hi
    have hmem : i ∈ location.availableBlocks := by
      rw [havailable]
      exact List.mem_range.mpr hi
    obtain ⟨good, hgood, hanswers⟩ := hanswered i hmem
    have hcandidate : good ∈ getCandidatesForBlock location i selfNodeId :=
      mem_getCandidatesForBlock.mpr ⟨hgood, hprovides good hgood i hi⟩
    obtain ⟨before, later, hsplit⟩ := List.append_of_mem hcandidate
    refine ⟨before, good, later, hsplit, ?_, ?_⟩
    · exact ((hserve good hgood i).resolve_left hanswers).1 hi
    · intro other hbefore hsilent
      have hother : other ∈ location.peers := by
        apply (mem_getCandidatesForBlock.mp _).1
        · exact i
        · exact selfNodeId
        · rw [hsplit]
          exact List.mem_append_left _ hbefore
      rcases hserve other hother i with ⟨failure, hfailed⟩ | ⟨hbody, -⟩
      · rw [hfailed] at hsilent
        cases hsilent
      · rw [hbody hi] at hsilent
        cases hsilent

/-- In a swarm whose members cut the contents alike, read them in blocks and do not drop them, a
location of the contents that names only members can be used as long as one of them answers for every
block: whatever has happened since it was read, and whoever of the others answers with errors, every
schedule of the download ends with the contents and, if the name of the file is accepted and there can
be a file at its place, stores them. -/
theorem Swarm.downloads_listed (hcollision : NoCollision strings) (hcontent : content ∈ strings)
    (hkeys : Function.Injective fun m => (members m).key)
    (haddresses : Function.Injective fun m => (members m).address) {blockSize : ℕ}
    (hb : 0 < blockSize) (hcuts : ∀ m, (members m).Cuts blockSize content)
    (hreached : s.Reached members nodeTtlSeconds strings content) {location : FileLocation}
    (hlocation : s.Shows members content location) {serve : PeerLocation → ℕ → Reply}
    (hreplies : ∀ peer ∈ location.peers, ∀ i, (∃ failure, serve peer i = .failed failure) ∨
      ∃ m s', s.Answers members nodeTtlSeconds strings content (peerMeant peer) i (serve peer i) m s')
    (hanswered : ∀ i ∈ location.availableBlocks, ∃ peer ∈ location.peers,
      ¬ ∃ failure, serve peer i = .failed failure)
    (selfNodeId : String) {state : DownloadState}
    (hreach : Reachable (jobOf location selfNodeId serve).pool
      (jobOf location selfNodeId serve).start state)
    (hfinal : Final (jobOf location selfNodeId serve).pool state) :
  (jobOf location selfNodeId serve).assembled state = some (.ok content) ∧
    (jobOf location selfNodeId serve).Stores state content
  := by
  have hassembled := Swarm.assembled_of_answers hcollision hcontent hkeys haddresses hb hcuts hreached
    hlocation hreplies hanswered selfNodeId hreach hfinal
  exact ⟨hassembled, stores_of_assembled hassembled⟩

end Swarm

/-! ### A swarm of one member -/

/-- A member that shares the file `a` with one byte. -/
def sharer : Member where
  nodeId := "node-a"
  host := "127.0.0.1"
  port := 9001
  remoteHost := none
  blockSize := 512
  nodeId_not_blank := by decide
  host_not_blank := by decide
  port_range := by decide

section Sha256

variable [Sha256]

/-- What its scan finds. -/
def indexOfSharer : ResourceIndex := ⟨[resourceOf linuxReads 512 [utf8 "a"] [97]]⟩

/-- The location of this file, after the first update. -/
def locationOfSharer : FileLocation where
  fileHash := Sha256.hex [97]
  fileName := "a"
  fileSize := some 1
  blockSize := some 512
  peers := [⟨"node-a", "127.0.0.1", 9001, "1970-01-01T00:00:00Z", "1970-01-01T00:01:30Z",
    [⟨0, Sha256.hex [97], 1⟩]⟩]
  availableBlocks := [0]

/-- What the member replies. -/
def serveOfSharer (_ : PeerLocation) (i : ℕ) : Reply := sharer.reply (singleFile "a" [97]) [97] i

/-- The swarm when the first update has arrived. -/
def swarmOfSharer [UnicodeData] : Swarm Unit where
  nodes := (sharer.update indexOfSharer).after 90 Dict.empty 0
  clock := 0
  shareDir _ := singleFile "a" [97]
  sent := [((), indexOfSharer)]

omit [Sha256] in
/-- The file is all there is in the share directory. -/
theorem parts_singleFile_subset (name : String) (content : List UInt8) :
  (singleFile name content).parts ⊆ fun part => part <:+: content
  := by
  rintro part ⟨path, -, served, hserved, hpart⟩
  have hsame : served = content := by
    rcases hserved with h | h
    · dsimp only [singleFile] at h
      split at h
      · exact (Except.ok.inj h).symm
      · cases h
    · dsimp only [singleFile] at h
      split at h
      · exact (Except.ok.inj h).symm
      · cases h
  rw [← hsame]
  exact hpart

omit [Sha256] in
/-- It is read in blocks. -/
theorem readsInBlocks_singleFile (name : String) (content content' : List UInt8) :
  (singleFile name content).ReadsInBlocks sharer.blockSize content'
  := by
  intro path _ _
  exact aligned_linuxReads (by decide) _

/-- The swarm before its first update. -/
def startOfSharer : Swarm Unit := ⟨Dict.empty, 0, fun _ => singleFile "a" [97], []⟩

omit [Sha256] in
theorem start_startOfSharer :
  Swarm.Start (fun _ => sharer) (fun part => part <:+: [97]) [97] startOfSharer
  := ⟨rfl, rfl, fun _ => parts_singleFile_subset "a" [97], fun _ => readsInBlocks_singleFile _ _ _⟩

theorem reached_swarmOfSharer [UnicodeData] :
  swarmOfSharer.Reached (fun _ => sharer) 90 (fun part => part <:+: [97]) [97]
  := by
  have hscan : startOfSharer.Step (fun _ => sharer) 90 (fun part => part <:+: [97]) [97]
      (.scan () (utf8 "/share") indexOfSharer)
      { startOfSharer with sent := [((), indexOfSharer)] } :=
    .scan () (utf8 "/share") indexOfSharer rfl
  have harrive : Swarm.Step (fun _ => sharer) 90 (fun part => part <:+: [97]) [97]
      { startOfSharer with sent := [((), indexOfSharer)] } (.arrive () indexOfSharer)
      swarmOfSharer :=
    .arrive () indexOfSharer List.mem_cons_self
  use startOfSharer, start_startOfSharer
  exact (Relation.ReflTransGen.single ⟨_, hscan⟩).tail ⟨_, harrive⟩

end Sha256

/-- The parts of the file do not collide. -/
theorem noCollision_infix :
  let _ := Sha256.short
  NoCollision fun part : List UInt8 => part <:+: [97]
  := by
  apply noCollision_short
  intro part hpart
  apply List.IsInfix.sublist at hpart
  apply hpart.trans
  decide

theorem cuts_sharer :
  sharer.Cuts 512 [97]
  := ⟨by decide, rfl⟩

/-- The location shows the file. -/
theorem shows_swarmOfSharer :
  let _ := UnicodeData.ascii
  let _ := Sha256.short
  swarmOfSharer.Shows (fun _ => sharer) [97] locationOfSharer
  := by
  intro _ _
  constructor
  · have hlive : swarmOfSharer.live = [entryMeant locationOfSharer] := by decide +kernel
    rw [hlive]
    exact List.mem_cons_self
  · rfl
  · intro peer hpeer
    obtain rfl := List.mem_singleton.mp hpeer
    use ()
    decide

/-- A second node downloads the file. -/
theorem downloads_listed_oneMember :
  let _ := UnicodeData.ascii
  let _ := Sha256.short
  ∃ state, Reachable (jobOf locationOfSharer "node-b" serveOfSharer).pool
      (jobOf locationOfSharer "node-b" serveOfSharer).start state ∧
    (jobOf locationOfSharer "node-b" serveOfSharer).assembled state = some (.ok [97]) ∧
    (jobOf locationOfSharer "node-b" serveOfSharer).Stores state [97]
  := by
  intro _ _
  have hleads : (singleFile "a" [97]).LeadsBack [97] :=
    ⟨[utf8 "a"], [97], rfl, rfl, List.prefix_refl _⟩
  have hserved : ∀ i ∈ locationOfSharer.availableBlocks, serveOfSharer
      ⟨"node-a", "127.0.0.1", 9001, "", "", []⟩ i = .body [97] := by
    decide +kernel
  obtain ⟨state, hreach, hfinal⟩ := exists_final (jobOf locationOfSharer "node-b" serveOfSharer).pool
    (jobOf locationOfSharer "node-b" serveOfSharer).start
  use state, hreach
  have hinjective {β : Type} (f : Unit → β) : Function.Injective f :=
    Function.injective_of_subsingleton f
  apply Swarm.downloads_listed noCollision_infix (List.infix_refl _) (hinjective _) (hinjective _)
    (by decide) (fun _ => cuts_sharer) reached_swarmOfSharer shows_swarmOfSharer _ _ "node-b" hreach
    hfinal
  · intro peer hpeer i
    right
    obtain rfl := List.mem_singleton.mp hpeer
    use (), swarmOfSharer
    constructor
    · exact Relation.ReflTransGen.refl
    · decide
    · exact ⟨utf8 "/share", indexOfSharer, rfl⟩
    · exact hleads
    · rfl
  · rintro i hi
    use ⟨"node-a", "127.0.0.1", 9001, "1970-01-01T00:00:00Z", "1970-01-01T00:01:30Z",
      [⟨0, Sha256.hex [97], 1⟩]⟩, List.mem_cons_self
    rintro ⟨failure, hfailed⟩
    have hbody := hserved i hi
    rw [serveOfSharer] at hbody hfailed
    rw [hbody] at hfailed
    cases hfailed

end System
