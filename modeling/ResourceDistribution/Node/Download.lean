import Mathlib.Data.List.Sort
import ResourceDistribution.Node.TransferWorker

/-!
# Downloading a file that is listed truly

The tracker lists, for each of some peers, some blocks of a file with their true hashes. The download
returns the contents of the file, whatever the schedule of its tasks, if for every block a peer that
lists it serves it and no candidate before that peer keeps the request open without an answer
(`soundAndComplete_iff`). A peer that serves wrong bytes or an error is passed over, one that does not
answer is waited for.
-/

open Tasks

namespace Node

section Sha256

variable [Sha256]

/-- A location that lists blocks of a file truly: the hash of the file, under every peer some of its
blocks with their hashes, and the blocks that some peer lists. -/
structure Lists (blockSize : Nat) (content : List UInt8) (location : FileLocation) : Prop where
  fileHash_eq : location.fileHash = Sha256.hex content
  index_lt : ∀ peer ∈ location.peers, ∀ block ∈ peer.blocks,
    block.index < Cut.count blockSize content.length
  hash_eq : ∀ peer ∈ location.peers, ∀ block ∈ peer.blocks,
    block.hash = Sha256.hex (Cut.block blockSize content block.index)
  available_increasing : location.availableBlocks.Pairwise (· < ·)
  mem_available : ∀ i, i ∈ location.availableBlocks ↔
    ∃ peer ∈ location.peers, ∃ block ∈ peer.blocks, block.index = i

/-- The download from a location by a node, where `serve peer i` is what a peer replies to a request
for block `i`. -/
def jobOf (location : FileLocation) (selfNodeId : String) (serve : PeerLocation → Nat → Reply) :
    Job where
  location := location
  selfNodeId := selfNodeId
  replies j k :=
    let blockIndex := location.availableBlocks.getD j 0
    match (getCandidatesForBlock location blockIndex selfNodeId)[k]? with
    | none => .silent
    | some peer => serve peer blockIndex

/-- For every block of the file, a peer that lists it serves it correctly. -/
def AllServed (blockSize : Nat) (content : List UInt8) (location : FileLocation)
    (serve : PeerLocation → Nat → Reply) : Prop :=
  ∀ i < Cut.count blockSize content.length, ∃ peer ∈ location.peers,
    peer.provides i = true ∧ serve peer i = .body (Cut.block blockSize content i)

/-- Among the candidates for a block, one serves it correctly and none before it is silent. -/
def ServedInTime (blockSize : Nat) (content : List UInt8) (location : FileLocation)
    (selfNodeId : String) (serve : PeerLocation → Nat → Reply) (i : Nat) : Prop :=
  ∃ before peer later,
    getCandidatesForBlock location i selfNodeId = before ++ peer :: later ∧
      serve peer i = .body (Cut.block blockSize content i) ∧ ∀ other ∈ before, serve other i ≠ .silent

/-- What the peers serve, and the parts of the file. -/
def servedOrPart (content : List UInt8) (location : FileLocation)
    (serve : PeerLocation → Nat → Reply) : Set (List UInt8) :=
  fun bytes => bytes <:+: content ∨ ∃ peer ∈ location.peers, ∃ i, serve peer i = .body bytes

variable {blockSize : Nat} {content : List UInt8} {location : FileLocation} {selfNodeId : String}
  {serve : PeerLocation → Nat → Reply}

/-- A peer that is listed truly is expected to serve what has the hash of the block. -/
theorem Lists.expectedHash_eq (h : Lists blockSize content location) {peer : PeerLocation}
    (hpeer : peer ∈ location.peers) {i : Nat} (hprovides : peer.provides i = true) :
  expectedHash peer i = some (Sha256.hex (Cut.block blockSize content i))
  := by
  obtain ⟨block, hblock, hindex⟩ := List.any_eq_true.mp hprovides
  rw [expectedHash]
  cases hfind : peer.blocks.find? fun block => block.index = i with
  | none =>
      have hnone := List.find?_eq_none.mp hfind block hblock
      exact absurd hindex hnone
  | some found =>
      have hfound : found.index = i := by simpa using List.find?_some hfind
      rw [Option.map_some, h.hash_eq peer hpeer found (List.mem_of_find?_eq_some hfind), hfound]

/-- What a request to a truly listed peer gives: the block if it serves it, nothing if it is silent,
and an error otherwise. -/
theorem Lists.fetchBlock_cases (h : Lists blockSize content location)
    (hcollision : NoCollision (servedOrPart content location serve)) {peer : PeerLocation}
    (hpeer : peer ∈ location.peers) {i : Nat} (hprovides : peer.provides i = true) :
  (serve peer i = .body (Cut.block blockSize content i) ∧
    fetchBlock peer i (expectedHash peer i) (serve peer i)
      = some (.ok (i, Cut.block blockSize content i))) ∨
  (serve peer i = .silent ∧ fetchBlock peer i (expectedHash peer i) (serve peer i) = none) ∨
  (serve peer i ≠ .body (Cut.block blockSize content i) ∧ serve peer i ≠ .silent ∧
    ∃ e, fetchBlock peer i (expectedHash peer i) (serve peer i) = some (.error e))
  := by
  rw [h.expectedHash_eq hpeer hprovides]
  cases hserve : serve peer i with
  | silent =>
      right; left
      exact ⟨rfl, rfl⟩
  | failed failure =>
      right; right
      exact ⟨by simp, by simp, _, rfl⟩
  | body bytes =>
      by_cases hbytes : bytes = Cut.block blockSize content i
      · left
        rw [hbytes]
        exact ⟨rfl, if_pos rfl⟩
      · right; right
        have hhash : Sha256.hex bytes ≠ Sha256.hex (Cut.block blockSize content i) := by
          intro heq
          apply hbytes
          apply hcollision _ _ heq
          · right
            exact ⟨peer, hpeer, i, hserve⟩
          · left
            apply Cut.block_infix
        exact ⟨by simpa using hbytes, by simp, _, if_neg hhash⟩

omit [Sha256] in
/-- The first of some candidates serves correctly, or it is not silent and one of the others is
reached that does. -/
theorem exists_split_cons {good silent : PeerLocation → Prop} {first : PeerLocation}
    {rest : List PeerLocation} :
  (∃ before peer later, first :: rest = before ++ peer :: later ∧ good peer ∧
      ∀ other ∈ before, ¬ silent other) ↔
    good first ∨ (¬ silent first ∧ ∃ before peer later, rest = before ++ peer :: later ∧
      good peer ∧ ∀ other ∈ before, ¬ silent other)
  := by
  constructor
  · rintro ⟨before, peer, later, hsplit, hgood, hbefore⟩
    cases before with
    | nil =>
        obtain ⟨rfl, -⟩ := List.cons.inj hsplit
        left
        exact hgood
    | cons other before =>
        obtain ⟨rfl, hrest⟩ := List.cons.inj hsplit
        right
        rw [List.forall_mem_cons] at hbefore
        exact ⟨hbefore.1, before, peer, later, hrest, hgood, hbefore.2⟩
  · rintro (hgood | ⟨hfirst, before, peer, later, rfl, hgood, hbefore⟩)
    · exact ⟨[], first, rest, rfl, hgood, by simp⟩
    · exact ⟨first :: before, peer, later, rfl, hgood, List.forall_mem_cons.mpr ⟨hfirst, hbefore⟩⟩

/-- A task returns its block exactly when the block is served in time, and never another one. -/
theorem Lists.tryCandidates_eq_ok_iff (h : Lists blockSize content location)
    (hcollision : NoCollision (servedOrPart content location serve)) {i : Nat}
    {candidates : List PeerLocation}
    (hcandidates : ∀ peer ∈ candidates, peer ∈ location.peers ∧ peer.provides i = true)
    {replies : Nat → Reply} {k : Nat}
    (hreplies : ∀ m peer, candidates[m]? = some peer → replies (k + m) = serve peer i)
    (lastError : Option DownloadError) (block : BlockData) :
  tryCandidates i replies candidates k lastError = some (.ok block) ↔
    block = (i, Cut.block blockSize content i) ∧ ∃ before peer later,
      candidates = before ++ peer :: later ∧
        serve peer i = .body (Cut.block blockSize content i) ∧
        ∀ other ∈ before, serve other i ≠ .silent
  := by
  induction candidates generalizing k lastError with
  | nil => simp [tryCandidates]
  | cons peer candidates ih =>
      have hmem := hcandidates peer List.mem_cons_self
      have hreply : replies k = serve peer i := hreplies 0 peer rfl
      have hrest := ih (fun p hp => hcandidates p (List.mem_cons_of_mem _ hp)) (k := k + 1)
        (fun m p hp => by
          rw [← hreplies (m + 1) p hp, Nat.add_assoc, Nat.add_comm 1 m])
      rw [tryCandidates, hreply, exists_split_cons]
      rcases h.fetchBlock_cases hcollision hmem.1 hmem.2 with
        ⟨hserve, hfetch⟩ | ⟨hserve, hfetch⟩ | ⟨hwrong, hsilent, e, hfetch⟩
      · rw [hfetch]
        simp [hserve, eq_comm]
      · rw [hfetch]
        simp [hserve]
      · rw [hfetch]
        simp only
        rw [hrest]
        simp [hwrong, hsilent]

/-- What the task of a block returns. -/
theorem Lists.outcome_eq_ok_iff (h : Lists blockSize content location)
    (hcollision : NoCollision (servedOrPart content location serve)) {j i : Nat}
    (hj : location.availableBlocks[j]? = some i) (block : BlockData) :
  (jobOf location selfNodeId serve).outcome j (.trying 0 none) = some (.ok block) ↔
    block = (i, Cut.block blockSize content i) ∧
      ServedInTime blockSize content location selfNodeId serve i
  := by
  have hblock : (jobOf location selfNodeId serve).blockOf j = i := by
    simp [Job.blockOf, jobOf, hj]
  have hcandidates : (jobOf location selfNodeId serve).candidates j
      = getCandidatesForBlock location i selfNodeId := by
    rw [Job.candidates, hblock]
    rfl
  rw [Job.outcome, hcandidates, hblock, List.drop_zero]
  split
  · rename_i hnil
    constructor
    · intro heq
      simp at heq
    · rintro ⟨-, before, peer, later, hsplit, -⟩
      rw [hnil] at hsplit
      simp at hsplit
  · apply h.tryCandidates_eq_ok_iff hcollision
    · intro peer hpeer
      exact mem_getCandidatesForBlock.mp hpeer
    · intro m peer hm
      have hget : location.availableBlocks.getD j 0 = i := by simp [hj]
      rw [Nat.zero_add, jobOf]
      simp only [hget, hm]

/-- What the download of the blocks returns. -/
theorem Lists.collect_eq_ok_iff (h : Lists blockSize content location)
    (hcollision : NoCollision (servedOrPart content location serve)) (blocks : List BlockData) :
  collect ((jobOf location selfNodeId serve).pool.outcomes
      (jobOf location selfNodeId serve).tasks) = some (.ok blocks) ↔
    blocks = (location.availableBlocks.map fun i => (i, Cut.block blockSize content i)) ∧
      ∀ i ∈ location.availableBlocks,
        ServedInTime blockSize content location selfNodeId serve i
  := by
  have hone : ∀ {j i : Nat}, location.availableBlocks[j]? = some i → ∀ block : BlockData,
      (jobOf location selfNodeId serve).outcome j (.trying 0 none) = some (.ok block) ↔
        block = (i, Cut.block blockSize content i) ∧
          ServedInTime blockSize content location selfNodeId serve i :=
    fun hj block => h.outcome_eq_ok_iff hcollision hj block
  rw [collect_outcomes_eq_ok_iff]
  constructor
  · rintro ⟨hlength, houtcome⟩
    constructor
    · apply List.ext_getElem
      · rw [hlength, List.length_map]
        rfl
      · intro j hj hi
        rw [List.length_map] at hi
        have hget := List.getElem?_eq_getElem hi
        have hok := houtcome j _ _ hget (List.getElem?_eq_getElem hj)
        rw [List.getElem_map]
        exact ((hone hget _).mp hok).1
    · intro i hi
      obtain ⟨j, hj, rfl⟩ := List.mem_iff_getElem.mp hi
      have hget := List.getElem?_eq_getElem hj
      have hok := houtcome j _ _ hget (List.getElem?_eq_getElem (hlength ▸ hj))
      exact ((hone hget _).mp hok).2
  · rintro ⟨rfl, hserved⟩
    use List.length_map _
    intro j i block hj hblock
    have hget : location.availableBlocks[j]? = some i := hj
    rw [List.getElem?_map, hget, Option.map_some] at hblock
    obtain rfl := Option.some.inj hblock
    exact (hone hj _).mpr ⟨rfl, hserved i (List.mem_of_getElem? hj)⟩

/-- Every available block is a block of the file. -/
theorem Lists.lt_of_mem (h : Lists blockSize content location) {i : Nat}
    (hi : i ∈ location.availableBlocks) :
  i < Cut.count blockSize content.length
  := by
  obtain ⟨peer, hpeer, block, hblock, rfl⟩ := (h.mem_available i).mp hi
  apply h.index_lt peer hpeer block hblock

/-- Blocks of the file, in order, are assembled exactly when they are all of them. -/
theorem Lists.assemble_eq_ok_iff (h : Lists blockSize content location) (hb : 0 < blockSize)
    (hcollision : NoCollision (servedOrPart content location serve)) (bytes : List UInt8) :
  assemble location (location.availableBlocks.map fun i => (i, Cut.block blockSize content i))
      = .ok bytes ↔
    bytes = content ∧
      location.availableBlocks = List.range (Cut.count blockSize content.length)
  := by
  rw [Node.assemble_eq_ok_iff, joinBlocks_map_block h.available_increasing, h.fileHash_eq]
  constructor
  · rintro ⟨⟨havailable, hjoined⟩, hhash⟩
    have hcontent : bytes = content := by
      apply hcollision _ _ hhash
      · left
        rw [hjoined]
        apply (List.take_prefix _ _).isInfix
      · left
        apply List.infix_refl
    use hcontent
    rw [havailable]
    congr 1
    rw [hcontent] at hjoined
    apply Nat.le_antisymm
    · rcases Nat.eq_zero_or_pos location.availableBlocks.length with hzero | hpos
      · rw [hzero]
        apply Nat.zero_le
      · have hlast : location.availableBlocks.length - 1 ∈ location.availableBlocks := by
          rw [havailable, List.length_range, List.mem_range]
          omega
        have hlt := h.lt_of_mem hlast
        omega
    · by_contra hlt
      rw [not_le, Cut.lt_count_iff hb] at hlt
      have hshort := congrArg List.length hjoined
      rw [List.length_take] at hshort
      omega
  · rintro ⟨rfl, havailable⟩
    have hlength : location.availableBlocks.length = Cut.count blockSize bytes.length := by
      rw [havailable, List.length_range]
    rw [hlength, List.take_of_length_le (Cut.le_count_mul hb _)]
    exact ⟨⟨havailable, rfl⟩, rfl⟩

/-- A block that is served in time is listed. -/
theorem Lists.mem_of_servedInTime (h : Lists blockSize content location) {i : Nat}
    (hi : ServedInTime blockSize content location selfNodeId serve i) :
  i ∈ location.availableBlocks
  := by
  obtain ⟨before, peer, later, hsplit, -, -⟩ := hi
  have hpeer : peer ∈ getCandidatesForBlock location i selfNodeId := by simp [hsplit]
  obtain ⟨hmem, hprovides⟩ := mem_getCandidatesForBlock.mp hpeer
  obtain ⟨block, hblock, hindex⟩ := List.any_eq_true.mp hprovides
  exact (h.mem_available i).mpr ⟨peer, hmem, block, hblock, by simpa using hindex⟩

/-- What the outcomes of the tasks make of the download. -/
theorem Lists.collect_assemble_eq_ok_iff (h : Lists blockSize content location) (hb : 0 < blockSize)
    (hcollision : NoCollision (servedOrPart content location serve)) (bytes : List UInt8) :
  (collect ((jobOf location selfNodeId serve).pool.outcomes
      (jobOf location selfNodeId serve).tasks)).map (· >>= assemble location)
      = some (.ok bytes) ↔
    bytes = content ∧ ∀ i < Cut.count blockSize content.length,
      ServedInTime blockSize content location selfNodeId serve i
  := by
  rw [Option.map_eq_some_iff]
  constructor
  · rintro ⟨r, hcollect, hassemble⟩
    obtain ⟨blocks, rfl, hassemble⟩ := Fallible.bind_eq_ok.mp hassemble
    obtain ⟨rfl, hserved⟩ := (h.collect_eq_ok_iff hcollision blocks).mp hcollect
    obtain ⟨hbytes, havailable⟩ := (h.assemble_eq_ok_iff hb hcollision bytes).mp hassemble
    use hbytes
    intro i hi
    apply hserved
    rw [havailable]
    exact List.mem_range.mpr hi
  · rintro ⟨hbytes, hserved⟩
    have hmem : ∀ i, i ∈ location.availableBlocks ↔ i < Cut.count blockSize content.length :=
      fun i => ⟨h.lt_of_mem, fun hi => h.mem_of_servedInTime (hserved i hi)⟩
    have havailable : location.availableBlocks
        = List.range (Cut.count blockSize content.length) := by
      apply h.available_increasing.eq_of_mem_iff List.pairwise_lt_range
      intro i
      rw [hmem, List.mem_range]
    refine ⟨.ok _, (h.collect_eq_ok_iff hcollision _).mpr ⟨rfl, ?_⟩, ?_⟩
    · intro i hi
      apply hserved i ((hmem i).mp hi)
    · exact (h.assemble_eq_ok_iff hb hcollision bytes).mpr ⟨hbytes, havailable⟩

/-- Whatever is assembled is the contents, and then all blocks were served in time. -/
theorem Lists.of_assembled (h : Lists blockSize content location) (hb : 0 < blockSize)
    (hcollision : NoCollision (servedOrPart content location serve)) {s : DownloadState}
    (hreach : Reachable (jobOf location selfNodeId serve).pool
      (jobOf location selfNodeId serve).start s) {bytes : List UInt8}
    (hbytes : (jobOf location selfNodeId serve).assembled s = some (.ok bytes)) :
  bytes = content ∧ ∀ i < Cut.count blockSize content.length,
    ServedInTime blockSize content location selfNodeId serve i
  := by
  obtain ⟨r, hr, hassemble⟩ := Option.map_eq_some_iff.mp hbytes
  obtain ⟨blocks, rfl, hblocks⟩ := Fallible.bind_eq_ok.mp hassemble
  apply (h.collect_assemble_eq_ok_iff hb hcollision bytes).mp
  rw [collect_of_returned_ok hreach hr, Option.map_some]
  exact congrArg some hassemble

/-- If all blocks are served in time, every schedule ends with the contents. -/
theorem Lists.assembled_of_servedInTime (h : Lists blockSize content location) (hb : 0 < blockSize)
    (hcontent : content ≠ []) (hcollision : NoCollision (servedOrPart content location serve))
    (hserved : ∀ i < Cut.count blockSize content.length,
      ServedInTime blockSize content location selfNodeId serve i) {s : DownloadState}
    (hreach : Reachable (jobOf location selfNodeId serve).pool
      (jobOf location selfNodeId serve).start s)
    (hfinal : Final (jobOf location selfNodeId serve).pool s) :
  (jobOf location selfNodeId serve).assembled s = some (.ok content)
  := by
  have hne : location.availableBlocks ≠ [] :=
    List.ne_nil_of_mem (h.mem_of_servedInTime (hserved 0 (Cut.count_length_pos hb hcontent)))
  have hstart : (jobOf location selfNodeId serve).start
      = .start (jobOf location selfNodeId serve).tasks ⟨0, [0]⟩ := if_neg hne
  rw [hstart] at hreach
  rw [Job.assembled, returned_eq_collect hreach hfinal]
  exact (h.collect_assemble_eq_ok_iff hb hcollision content).mpr ⟨rfl, hserved⟩

/-- What the download is for: whatever the schedule, what it assembles is the contents, and at the
end it has assembled them if and only if for every block a peer that lists it serves it. -/
def SoundAndComplete (blockSize : Nat) (content : List UInt8) (location : FileLocation)
    (selfNodeId : String) (serve : PeerLocation → Nat → Reply) : Prop :=
  ∀ s, Reachable (jobOf location selfNodeId serve).pool
      (jobOf location selfNodeId serve).start s →
    (∀ bytes, (jobOf location selfNodeId serve).assembled s = some (.ok bytes) →
      bytes = content) ∧
    (Final (jobOf location selfNodeId serve).pool s →
      ((∃ bytes, (jobOf location selfNodeId serve).assembled s = some (.ok bytes)) ↔
        AllServed blockSize content location serve))

omit [Sha256] in
/-- A block that is served in time is served. -/
theorem ServedInTime.served {i : Nat}
    (h : ServedInTime blockSize content location selfNodeId serve i) :
  ∃ peer ∈ location.peers,
    peer.provides i = true ∧ serve peer i = .body (Cut.block blockSize content i)
  := by
  obtain ⟨before, peer, later, hsplit, hserve, -⟩ := h
  have hpeer : peer ∈ getCandidatesForBlock location i selfNodeId := by simp [hsplit]
  obtain ⟨hmem, hprovides⟩ := mem_getCandidatesForBlock.mp hpeer
  exact ⟨peer, hmem, hprovides, hserve⟩

/-- The download is what it is for exactly when no silent peer stands before the first that serves
a block, unless some block is not served at all. -/
theorem soundAndComplete_iff (hb : 0 < blockSize) (hcontent : content ≠ [])
    (h : Lists blockSize content location)
    (hcollision : NoCollision (servedOrPart content location serve)) :
  SoundAndComplete blockSize content location selfNodeId serve ↔
    (AllServed blockSize content location serve →
      ∀ i < Cut.count blockSize content.length,
        ServedInTime blockSize content location selfNodeId serve i)
  := by
  constructor
  · intro hsound hall
    obtain ⟨s, hreach, hfinal⟩ := exists_final (jobOf location selfNodeId serve).pool
      (jobOf location selfNodeId serve).start
    obtain ⟨bytes, hbytes⟩ := ((hsound s hreach).2 hfinal).mpr hall
    exact (h.of_assembled hb hcollision hreach hbytes).2
  · intro htime s hreach
    constructor
    · intro bytes hbytes
      exact (h.of_assembled hb hcollision hreach hbytes).1
    · intro hfinal
      constructor
      · rintro ⟨bytes, hbytes⟩ i hi
        exact ((h.of_assembled hb hcollision hreach hbytes).2 i hi).served
      · intro hall
        use content
        apply h.assembled_of_servedInTime hb hcontent hcollision (htime hall) hreach hfinal

/-! ### A file of one block -/

/-- Two peers that list a file of one byte. -/
def twoPeers : FileLocation where
  fileHash := Sha256.hex [97]
  fileName := "a"
  fileSize := some 1
  blockSize := some 1
  peers := ["first", "second"].map fun nodeId =>
    ⟨nodeId, "127.0.0.1", 9000, "", "", [⟨0, Sha256.hex [97], 1⟩]⟩
  availableBlocks := [0]

theorem twoPeers_lists : Lists 1 [97] twoPeers where
  fileHash_eq := rfl
  index_lt := by simp [twoPeers, Cut.count]
  hash_eq := by simp [twoPeers, Cut.block]
  available_increasing := by simp [twoPeers]
  mem_available := by simp [twoPeers, eq_comm]

/-- Every peer but those of `silent` serves the block. -/
def serveExcept (silent : List String) (peer : PeerLocation) (_ : Nat) : Reply :=
  if peer.nodeId ∈ silent then .silent else .body [97]

end Sha256

theorem twoPeers_noCollision (silent : List String) :
  let _ := Sha256.short
  NoCollision (servedOrPart [97] twoPeers (serveExcept silent))
  := by
  intro _
  apply noCollision_short
  rintro bytes (hpart | ⟨peer, -, i, hserve⟩)
  · apply hpart.sublist.trans
    decide
  · rw [serveExcept] at hserve
    split at hserve
    · simp at hserve
    · rw [← Reply.body.inj hserve]
      decide

/-- Two peers that serve the block. -/
theorem soundAndComplete_twoPeers :
  let _ := Sha256.short
  SoundAndComplete 1 [97] twoPeers "third" (serveExcept [])
  := by
  intro _
  apply (soundAndComplete_iff (by decide) (by decide) twoPeers_lists
    (twoPeers_noCollision [])).mpr
  intro _ i hi
  obtain rfl : i = 0 := Nat.lt_one_iff.mp hi
  refine ⟨[], _, _, rfl, rfl, ?_⟩
  simp

/-- The first of two peers does not answer, and its request is never given up. -/
theorem not_soundAndComplete_twoPeers :
  let _ := Sha256.short
  Lists 1 [97] twoPeers ∧ NoCollision (servedOrPart [97] twoPeers (serveExcept ["first"])) ∧
    ¬ SoundAndComplete 1 [97] twoPeers "third" (serveExcept ["first"])
  := by
  intro _
  use twoPeers_lists, twoPeers_noCollision ["first"]
  intro hsound
  have hall : AllServed 1 [97] twoPeers (serveExcept ["first"]) := by
    intro i hi
    obtain rfl : i = 0 := Nat.lt_one_iff.mp hi
    refine ⟨_, List.mem_cons_of_mem _ List.mem_cons_self, rfl, rfl⟩
  obtain ⟨s, hreach, hfinal⟩ := exists_final (jobOf twoPeers "third" (serveExcept ["first"])).pool
    (jobOf twoPeers "third" (serveExcept ["first"])).start
  obtain ⟨bytes, hbytes⟩ := ((hsound s hreach).2 hfinal).mpr hall
  obtain ⟨before, peer, later, hsplit, hserve, hbefore⟩ :=
    (twoPeers_lists.of_assembled (by decide) (twoPeers_noCollision _) hreach hbytes).2 0 (by decide)
  have hcandidates : getCandidatesForBlock twoPeers 0 "third" = twoPeers.peers := rfl
  rw [hcandidates] at hsplit
  cases before with
  | nil =>
      obtain ⟨rfl, -⟩ := List.cons.inj hsplit
      simp [serveExcept] at hserve
  | cons first before =>
      obtain ⟨rfl, -⟩ := List.cons.inj hsplit
      exact hbefore _ List.mem_cons_self rfl

end Node
