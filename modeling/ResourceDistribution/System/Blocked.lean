import ResourceDistribution.Node.Verified
import ResourceDistribution.System.Replication

/-!
# Listings that block a download

The tracker takes a block for available that a single node lists, and a download that cannot have
all blocks from the first to the last available one fails. So a node that lists one block of some
contents past their end, and is not a member of the swarm that shares them, keeps everybody from
downloading them for as long as its lease runs (`Swarm.blocked`).
-/

open Python Node Tracker Tasks

namespace System

section Sha256

variable [Sha256] {M : Type} [DecidableEq M] {members : M → Member} {nodeTtlSeconds : ℤ}
  {strings : Set (List UInt8)} {content : List UInt8} {s : Swarm M}

/-- Some running node lists a block under a hash. -/
def Swarm.Listed (s : Swarm M) (fileHash : Str) (i : ℤ) : Prop :=
  ∃ k record, s.nodes.get? k = some record ∧ s.clock < record.expiresAtEpoch ∧
    ∃ resource ∈ record.resourcesOf fileHash, ∃ block ∈ resource.blocks, block.index = i

omit [Sha256] [DecidableEq M] in
/-- The available blocks of a live entry are those that some running node lists. -/
theorem mem_availableBlocks_iff {entry : IndexEntry} (hentry : entry ∈ s.live) (i : ℤ) :
  i ∈ entry.availableBlocks ↔ s.Listed entry.fileHash i
  := by
  rw [(entry_of_get? (get?_of_mem_values hentry)).2.2]
  constructor
  · rintro ⟨peer, hpeer, block, hblock, rfl⟩
    obtain ⟨k, record, hget, hruns, resource, hresource, rfl⟩ :=
      exists_record_of_mem_live hentry hpeer
    exact ⟨k, record, hget, hruns, resource, hresource, block, hblock, rfl⟩
  · rintro ⟨k, record, hget, hruns, resource, hresource, block, hblock, rfl⟩
    obtain ⟨other, hother, hhash, hpeer⟩ := exists_entry_of_get? hget hruns hresource
    rw [eq_of_fileHash_eq hother hentry hhash] at hpeer
    exact ⟨_, hpeer, block, hblock, rfl⟩

omit [DecidableEq M] in
/-- The members list no block past the end of the contents. -/
theorem lt_of_listed_member (htrue : Truthful members strings content s) {blockSize : ℕ}
    (hb : 0 < blockSize) (hcuts : ∀ m, (members m).Cuts blockSize content) {m : M}
    {record : Record} (hget : s.nodes.get? (members m).key = some record) {resource : Resource}
    (hresource : resource ∈ record.resourcesOf (Str.ofString (Sha256.hex content))) {block : Block}
    (hblock : block ∈ resource.blocks) :
  block.index < Cut.count blockSize content.length
  := by
  obtain ⟨-, -, hblocks⟩ :=
    (htrue.records_true _ record hget m rfl).resources_true resource hresource
  rw [hblocks, (hcuts m).listed_eq hb] at hblock
  obtain ⟨i, hi, rfl⟩ := mem_listing.mp hblock
  exact Int.ofNat_lt.mpr hi

variable [UnicodeData]

/-- In a swarm whose members cut the contents alike, nobody can download the contents as long as some
running node lists a block of them past their end, and no node that is not a member lists the block
that would be next: whatever the peers reply, no schedule of a download assembles any bytes. -/
theorem Swarm.blocked (hcollision : NoCollision strings) (hcontent : content ∈ strings)
    (hkeys : Function.Injective fun m => (members m).key) {blockSize : ℕ} (hb : 0 < blockSize)
    (hcuts : ∀ m, (members m).Cuts blockSize content)
    (hreached : s.Reached members nodeTtlSeconds strings content) {far : ℤ}
    (hfar : Cut.count blockSize content.length < far)
    (hlisted : s.Listed (Str.ofString (Sha256.hex content)) far)
    (hothers : ∀ k record, s.nodes.get? k = some record → s.clock < record.expiresAtEpoch →
      (∀ m, (members m).key ≠ k) →
      ∀ resource ∈ record.resourcesOf (Str.ofString (Sha256.hex content)),
        ∀ block ∈ resource.blocks, block.index ≠ Cut.count blockSize content.length)
    {location : FileLocation} (hlive : entryMeant location ∈ s.live)
    (hhash : location.fileHash = Sha256.hex content) (selfNodeId : String)
    (replies : ℕ → ℕ → Reply) {state : DownloadState}
    (hreach : Reachable (Job.mk location selfNodeId replies).pool
      (Job.mk location selfNodeId replies).start state) (bytes : List UInt8) :
  (Job.mk location selfNodeId replies).assembled state ≠ some (.ok bytes)
  := by
  have htrue := hreached.truthful hcollision hcontent hkeys
  have hentry : (entryMeant location).fileHash = Str.ofString (Sha256.hex content) :=
    congrArg Str.ofString hhash
  have havailable : ∀ i : ℤ, i ∈ (entryMeant location).availableBlocks ↔
      s.Listed (Str.ofString (Sha256.hex content)) i := by
    intro i
    rw [mem_availableBlocks_iff hlive, hentry]
  obtain ⟨j, hj, hjfar⟩ := List.mem_map.mp ((havailable far).mpr hlisted)
  have hlt : Cut.count blockSize content.length < j := by
    rw [← hjfar] at hfar
    exact_mod_cast hfar
  have hnext : Cut.count blockSize content.length ∉ location.availableBlocks := by
    intro hmem
    obtain ⟨k, record, hget, hruns, resource, hresource, block, hblock, hindex⟩ :=
      (havailable _).mp (List.mem_map_of_mem hmem)
    by_cases hmember : ∃ m, (members m).key = k
    · obtain ⟨m, rfl⟩ := hmember
      have hinside := lt_of_listed_member htrue hb hcuts hget hresource hblock
      rw [hindex] at hinside
      exact lt_irrefl _ hinside
    · rw [not_exists] at hmember
      exact hothers k record hget hruns hmember resource hresource block hblock hindex
  apply not_assembled_of_gap hlt hnext hj hreach

/-! ### One listing -/

/-- A node lists the third block of the file of the sharer, which has one block. -/
def farPayload : Json :=
  .dict [
    (Str.ofString "node_id", jsonOfString "node-c"),
    (Str.ofString "host", jsonOfString "127.0.0.1"),
    (Str.ofString "port", .int 9002),
    (Str.ofString "resources", .list [.dict [
      (Str.ofString "file_hash", jsonOfString (Sha256.hex [97])),
      (Str.ofString "file_name", jsonOfString "a"),
      (Str.ofString "blocks", .list [.dict [
        (Str.ofString "index", .int 2),
        (Str.ofString "hash", jsonOfString "none"),
        (Str.ofString "size", .int 1)]])]])]

/-- The swarm of the sharer when this update has arrived as well. -/
def blockedSwarm : Swarm Unit :=
  { swarmOfSharer with
    nodes := (Operation.updateNode farPayload none).after 90 swarmOfSharer.nodes 0 }

/-- The location of the file. -/
def blockedLocation : FileLocation :=
  { locationOfSharer with
    peers := locationOfSharer.peers ++ [⟨"node-c", "127.0.0.1", 9002, "1970-01-01T00:00:00Z",
      "1970-01-01T00:01:30Z", [⟨2, "none", 1⟩]⟩]
    availableBlocks := [0, 2] }

end Sha256

theorem reached_blockedSwarm :
  let _ := UnicodeData.ascii
  let _ := Sha256.short
  blockedSwarm.Reached (fun _ => sharer) 90 (fun part => part <:+: [97]) [97]
  := by
  intro _ _
  obtain ⟨start, hstart, hrun⟩ := reached_swarmOfSharer
  use start, hstart
  apply hrun.tail
  use .call (.updateNode farPayload none)
  apply Swarm.Step.call
  intro payload remoteHost record heq hrecord m
  cases heq
  have hid : (updateRecord 90 farPayload none 0).map Record.nodeId
      = .ok (Str.ofString "node-c") := by
    decide +kernel
  rw [show swarmOfSharer.clock = 0 from rfl] at hrecord
  rw [hrecord] at hid
  rw [Except.ok.inj hid]
  show sharer.key ≠ Str.ofString "node-c"
  decide

/-- Nobody can download the file. -/
theorem blocked_oneListing :
  let _ := UnicodeData.ascii
  let _ := Sha256.short
  ∃ state, Reachable (jobOf blockedLocation "node-b" serveOfSharer).pool
      (jobOf blockedLocation "node-b" serveOfSharer).start state ∧
    Final (jobOf blockedLocation "node-b" serveOfSharer).pool state ∧
    ∀ bytes, (jobOf blockedLocation "node-b" serveOfSharer).assembled state ≠ some (.ok bytes)
  := by
  intro _ _
  obtain ⟨state, hreach, hfinal⟩ := exists_final (jobOf blockedLocation "node-b" serveOfSharer).pool
    (jobOf blockedLocation "node-b" serveOfSharer).start
  use state, hreach, hfinal
  have hlive : blockedSwarm.live = [entryMeant blockedLocation] := by decide +kernel
  have hmem : entryMeant blockedLocation ∈ blockedSwarm.live := by
    rw [hlive]
    exact List.mem_cons_self
  have hlisted : ∀ i, blockedSwarm.Listed (Str.ofString (Sha256.hex [97])) i ↔ i = 0 ∨ i = 2 := by
    intro i
    have hentry : (entryMeant blockedLocation).fileHash = Str.ofString (Sha256.hex [97]) := rfl
    rw [← hentry, ← mem_availableBlocks_iff hmem]
    simp [entryMeant, blockedLocation]
  apply Swarm.blocked noCollision_infix (List.infix_refl _)
    (Function.injective_of_subsingleton _) (by decide) (fun _ => cuts_sharer) reached_blockedSwarm
    (show ((Cut.count 512 [97].length : ℕ) : ℤ) < 2 by decide) ((hlisted 2).mpr (Or.inr rfl)) _
    hmem rfl "node-b" _ hreach
  intro k record hget hruns _ resource hresource block hblock hindex
  rcases (hlisted _).mp ⟨k, record, hget, hruns, resource, hresource, block, hblock, hindex⟩ with
    h | h
  · cases h
  · cases h

end System
