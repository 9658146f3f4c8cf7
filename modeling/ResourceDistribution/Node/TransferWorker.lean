import Mathlib.Data.List.Rotate
import ResourceDistribution.Data.Cut
import ResourceDistribution.Data.Fallible
import ResourceDistribution.Data.Keyed
import ResourceDistribution.Data.Tasks
import ResourceDistribution.Node.Sha256
import ResourceDistribution.Node.TrackerDto

/-!
# Downloading blocks

The part of `transfer_worker.rs` that fetches the blocks of a file: one task for each available
block, which asks one candidate after another, a loop that awaits the tasks, and `join_blocks`. The
tasks are a `Tasks.Pool`; what the peers answer is a parameter.
-/

namespace Node

/-! ### Candidates -/

/-- `can_provide`: whether a peer lists a block. -/
def PeerLocation.provides (peer : PeerLocation) (blockIndex : Nat) : Bool :=
  peer.blocks.any fun block => block.index = blockIndex

/-- `get_candidates_for_block(location, block_index, self_node_id)`: the peers that list the block,
the node itself last, rotated by the block's index. -/
def getCandidatesForBlock (location : FileLocation) (blockIndex : Nat) (selfNodeId : String) :
    List PeerLocation :=
  let peers := location.peers.filter fun peer => peer.provides blockIndex
  let peers := Keyed.sortBy (fun peer => decide (peer.nodeId = selfNodeId)) peers
  peers.rotate (blockIndex % peers.length)

/-- The candidates are the peers that list the block. -/
theorem mem_getCandidatesForBlock {location : FileLocation} {blockIndex : Nat}
    {selfNodeId : String} {peer : PeerLocation} :
  peer ∈ getCandidatesForBlock location blockIndex selfNodeId ↔
    peer ∈ location.peers ∧ peer.provides blockIndex = true
  := by
  rw [getCandidatesForBlock, List.mem_rotate, Keyed.mem_sortBy, List.mem_filter]

/-! ### Replies and errors -/

/-- Where a request fails: it cannot be sent, or the status of the answer is an error, or the body
of the answer cannot be read. -/
inductive FetchFailure where
  | request
  | status
  | body
  deriving DecidableEq

/-- How a peer answers a request for a block. It may not answer at all: the node's client has no
timeout. -/
inductive Reply where
  | body (bytes : List UInt8)
  | failed (failure : FetchFailure)
  | silent
  deriving DecidableEq

/-- Why a download fails. -/
inductive DownloadError where
  | noAvailableBlocks (fileName : String)
  | noCandidates (blockIndex : Nat)
  | fetchFailed (failure : FetchFailure) (blockIndex : Nat) (nodeId : String)
  | blockHashMismatch (blockIndex : Nat) (nodeId expected actual : String)
  | allPeersFailed (blockIndex : Nat) (lastError : Option DownloadError)
  | notContiguous (expected : Nat)
  | fileHashMismatch (expected actual : String)
  | unsafeFileName (fileName : String)

/-- A downloaded block. -/
abbrev BlockData := Nat × List UInt8

/-! ### Joining -/

/-- `join_blocks(blocks)`. -/
def joinBlocks (blocks : List BlockData) : Except DownloadError (List UInt8) :=
  let blocks := Keyed.sortBy Prod.fst blocks
  match blocks.zipIdx.find? fun i => i.1.1 ≠ i.2 with
  | some (_, expected) => .error (.notContiguous expected)
  | none => .ok (blocks.flatMap Prod.snd)

/-- Blocks are joined exactly when, in order, their indexes are `0, 1, 2, …`. -/
theorem joinBlocks_eq_ok_iff {blocks : List BlockData} {bytes : List UInt8} :
  joinBlocks blocks = .ok bytes ↔
    (Keyed.sortBy Prod.fst blocks).map Prod.fst = List.range blocks.length ∧
      bytes = (Keyed.sortBy Prod.fst blocks).flatMap Prod.snd
  := by
  set sorted := Keyed.sortBy Prod.fst blocks with hsorted
  have hlength : sorted.length = blocks.length := (Keyed.sortBy_perm Prod.fst blocks).length_eq
  have hnone : (sorted.zipIdx.find? fun i => i.1.1 ≠ i.2) = none ↔
      sorted.map Prod.fst = List.range blocks.length := by
    rw [List.find?_eq_none, ← hlength]
    constructor
    · intro h
      apply List.ext_getElem
      · simp
      · intro k hk _
        have hlt : k < sorted.length := by simpa using hk
        have hmem : (sorted[k], k) ∈ sorted.zipIdx := by
          rw [List.mem_zipIdx_iff_getElem?]
          apply List.getElem?_eq_getElem
        simpa using h _ hmem
    · rintro h ⟨block, k⟩ hmem
      rw [List.mem_zipIdx_iff_getElem?] at hmem
      simp only at hmem
      obtain ⟨hk, rfl⟩ := List.getElem?_eq_some_iff.mp hmem
      have hget : (sorted.map Prod.fst)[k]? = some k := by
        rw [h, List.getElem?_range hk]
      simpa [List.getElem?_eq_getElem hk] using hget
  rw [joinBlocks, ← hsorted]
  cases hfind : sorted.zipIdx.find? fun i => decide (i.1.1 ≠ i.2) with
  | none => simp [hnone.mp hfind, eq_comm]
  | some found =>
      have hne : sorted.map Prod.fst ≠ List.range blocks.length := by
        intro heq
        rw [hnone.mpr heq] at hfind
        simp at hfind
      simp [hne]

/-- Blocks of some contents, in order, are joined exactly when they are the first ones, and then to
the beginning of the contents. -/
theorem joinBlocks_map_block {available : List Nat} (hincreasing : available.Pairwise (· < ·))
    (blockSize : Nat) (content bytes : List UInt8) :
  joinBlocks (available.map fun i => (i, Cut.block blockSize content i)) = .ok bytes ↔
    available = List.range available.length ∧ bytes = content.take (available.length * blockSize)
  := by
  have hindexes : (available.map fun i => (i, Cut.block blockSize content i)).map Prod.fst
      = available := by
    rw [List.map_map]
    apply List.map_id'
  have hsorted : Keyed.sortBy Prod.fst (available.map fun i => (i, Cut.block blockSize content i))
      = available.map fun i => (i, Cut.block blockSize content i) := by
    apply Keyed.sortBy_eq_self
    rw [← List.pairwise_map, hindexes]
    exact hincreasing.imp le_of_lt
  rw [joinBlocks_eq_ok_iff, hsorted, hindexes, List.length_map]
  apply and_congr_right
  intro hrange
  have hjoined : (available.map fun i => (i, Cut.block blockSize content i)).flatMap Prod.snd
      = content.take (available.length * blockSize) := by
    rw [List.flatMap_map, ← Cut.flatten_map_block, ← hrange]
    rfl
  rw [hjoined]

/-! ### Fetching -/

/-- `expected_hash`: the hash that a peer lists for a block. -/
def expectedHash (peer : PeerLocation) (blockIndex : Nat) : Option String :=
  (peer.blocks.find? fun block => block.index = blockIndex).map TrackerBlock.hash

section Sha256

variable [Sha256]

/-- `fetch_block(http, peer, file_hash, block_index, expected_hash)`, on what the peer replies. -/
def fetchBlock (peer : PeerLocation) (blockIndex : Nat) (expected : Option String) :
    Reply → Option (Except DownloadError BlockData)
  | .silent => none
  | .failed failure => some (.error (.fetchFailed failure blockIndex peer.nodeId))
  | .body bytes =>
      match expected with
      | none => some (.ok (blockIndex, bytes))
      | some hash =>
          if Sha256.hex bytes = hash then some (.ok (blockIndex, bytes))
          else some (.error (.blockHashMismatch blockIndex peer.nodeId hash (Sha256.hex bytes)))

/-! ### Tasks -/

/-- A download: the location, the id of the node itself, and what the `k`-th candidate of the `j`-th
task replies. -/
structure Job where
  location : FileLocation
  selfNodeId : String
  replies : Nat → Nat → Reply

/-- The block of the `j`-th task. -/
def Job.blockOf (job : Job) (j : Nat) : Nat := job.location.availableBlocks.getD j 0

/-- The candidates of the `j`-th task. -/
def Job.candidates (job : Job) (j : Nat) : List PeerLocation :=
  getCandidatesForBlock job.location (job.blockOf j) job.selfNodeId

/-- Where a task is: it waits for the reply of its `k`-th candidate; it has fetched its block and
will count it; it has counted it and will report the count; it has finished. -/
inductive Task where
  | trying (k : Nat) (lastError : Option DownloadError)
  | fetched (block : BlockData)
  | counted (block : BlockData) (current : Nat)
  | finished (result : Except DownloadError BlockData)

/-- What the tasks share: the counter of downloaded blocks, and the `downloaded_blocks` of the
progress signals sent so far. -/
structure Progress where
  downloadedCount : Nat
  signals : List Nat

/-- What a task that waits for its `k`-th candidate turns into. -/
def Job.attempt (job : Job) (j k : Nat) (lastError : Option DownloadError) : Option Task :=
  if job.candidates j = [] then some (.finished (.error (.noCandidates (job.blockOf j))))
  else
    match (job.candidates j)[k]? with
    | none => some (.finished (.error (.allPeersFailed (job.blockOf j) lastError)))
    | some peer =>
        match fetchBlock peer (job.blockOf j) (expectedHash peer (job.blockOf j))
            (job.replies j k) with
        | none => none
        | some (.ok block) => some (.fetched block)
        | some (.error e) => some (.trying (k + 1) (some e))

/-- The next step of the `j`-th task. -/
def Job.step (job : Job) (j : Nat) (t : Task) (progress : Progress) : Option (Task × Progress) :=
  match t with
  | .trying k lastError => (job.attempt j k lastError).map fun t => (t, progress)
  | .fetched block =>
      some (.counted block (progress.downloadedCount + 1),
        { progress with downloadedCount := progress.downloadedCount + 1 })
  | .counted block current =>
      some (.finished (.ok block), { progress with signals := progress.signals ++ [current] })
  | .finished _ => none

/-- What a task that has finished returns. -/
def Task.result : Task → Option (Except DownloadError BlockData)
  | .finished result => some result
  | _ => none

/-- What a task will return that still has some candidates to try. -/
def tryCandidates (blockIndex : Nat) (replies : Nat → Reply) :
    List PeerLocation → Nat → Option DownloadError → Option (Except DownloadError BlockData)
  | [], _, lastError => some (.error (.allPeersFailed blockIndex lastError))
  | peer :: rest, k, _ =>
      match fetchBlock peer blockIndex (expectedHash peer blockIndex) (replies k) with
      | none => none
      | some (.ok block) => some (.ok block)
      | some (.error e) => tryCandidates blockIndex replies rest (k + 1) (some e)

/-- What a task will return. -/
def Job.outcome (job : Job) (j : Nat) : Task → Option (Except DownloadError BlockData)
  | .trying k lastError =>
      if job.candidates j = [] then some (.error (.noCandidates (job.blockOf j)))
      else tryCandidates (job.blockOf j) (job.replies j) ((job.candidates j).drop k) k lastError
  | .fetched block => some (.ok block)
  | .counted block _ => some (.ok block)
  | .finished result => some result

/-- A bound on the steps a task still makes. -/
def Job.remaining (job : Job) (j : Nat) : Task → Nat
  | .trying k _ => (job.candidates j).length - k + 4
  | .fetched _ => 2
  | .counted _ _ => 1
  | .finished _ => 0

/-- What a task will return is not changed by asking a candidate, and it returns nothing if that
candidate does not answer. -/
theorem outcome_attempt (job : Job) (j k : Nat) (lastError : Option DownloadError) :
  job.outcome j (.trying k lastError) = (job.attempt j k lastError).bind (job.outcome j)
  := by
  rw [Job.outcome, Job.attempt]
  split
  · rfl
  · rename_i hne
    cases hk : (job.candidates j)[k]? with
    | none =>
        rw [List.getElem?_eq_none_iff] at hk
        rw [List.drop_eq_nil_of_le hk]
        rfl
    | some peer =>
        obtain ⟨hlt, hpeer⟩ := List.getElem?_eq_some_iff.mp hk
        rw [List.drop_eq_getElem_cons hlt, hpeer, tryCandidates]
        simp only
        cases hfetch : fetchBlock peer (job.blockOf j) (expectedHash peer (job.blockOf j))
            (job.replies j k) with
        | none => rfl
        | some r =>
            cases r with
            | ok block => rfl
            | error e => simp [Job.outcome, hne]

/-- Asking a candidate brings a task closer to its end. -/
theorem remaining_attempt {job : Job} {j k : Nat} {lastError : Option DownloadError} {t : Task}
    (h : job.attempt j k lastError = some t) :
  job.remaining j t < job.remaining j (.trying k lastError)
  := by
  rw [Job.attempt] at h
  split at h
  · obtain rfl := Option.some.inj h
    simp only [Job.remaining]
    omega
  · cases hk : (job.candidates j)[k]? with
    | none =>
        rw [hk] at h
        obtain rfl := Option.some.inj h
        simp only [Job.remaining]
        omega
    | some peer =>
        obtain ⟨hlt, -⟩ := List.getElem?_eq_some_iff.mp hk
        simp only [hk] at h
        split at h
        · simp at h
        · obtain rfl := Option.some.inj h
          simp only [Job.remaining]
          omega
        · obtain rfl := Option.some.inj h
          simp only [Job.remaining]
          omega

/-- The tasks of a download. -/
def Job.pool (job : Job) : Tasks.Pool Task Progress DownloadError BlockData where
  step := job.step
  result := Task.result
  outcome := job.outcome
  remaining := job.remaining
  outcome_step := by
    intro j t progress t' progress' h
    cases t with
    | trying k lastError =>
        obtain ⟨t'', ht, heq⟩ := Option.map_eq_some_iff.mp h
        obtain ⟨rfl, rfl⟩ := Prod.mk.inj heq
        rw [outcome_attempt, ht]
        rfl
    | fetched block =>
        obtain ⟨rfl, rfl⟩ := Prod.mk.inj (Option.some.inj h)
        rfl
    | counted block current =>
        obtain ⟨rfl, rfl⟩ := Prod.mk.inj (Option.some.inj h)
        rfl
    | finished result => simp [Job.step] at h
  outcome_of_result := by
    intro j t r h
    cases t with
    | finished result => exact h
    | _ => simp [Task.result] at h
  outcome_of_stuck := by
    intro j t progress h hresult
    cases t with
    | trying k lastError =>
        have hnone := Option.map_eq_none_iff.mp h
        rw [outcome_attempt, hnone]
        rfl
    | finished result => simp [Task.result] at hresult
    | _ => simp [Job.step] at h
  remaining_step := by
    intro j t progress t' progress' h
    cases t with
    | trying k lastError =>
        obtain ⟨t'', ht, heq⟩ := Option.map_eq_some_iff.mp h
        obtain ⟨rfl, rfl⟩ := Prod.mk.inj heq
        apply remaining_attempt ht
    | fetched block =>
        obtain ⟨rfl, rfl⟩ := Prod.mk.inj (Option.some.inj h)
        simp [Job.remaining]
    | counted block current =>
        obtain ⟨rfl, rfl⟩ := Prod.mk.inj (Option.some.inj h)
        simp [Job.remaining]
    | finished result => simp [Job.step] at h

/-! ### The download -/

/-- A state of the download of the blocks. -/
abbrev DownloadState := Tasks.State Task Progress DownloadError BlockData

/-- The tasks that a download spawns. -/
def Job.tasks (job : Job) : List Task :=
  job.location.availableBlocks.map fun _ => .trying 0 none

/-- `download_blocks(location)`, when it has spawned its tasks. Without available blocks it has
returned an error. -/
def Job.start (job : Job) : DownloadState :=
  if job.location.availableBlocks = [] then
    ⟨[], ⟨0, []⟩, [], some (.error (.noAvailableBlocks job.location.fileName))⟩
  else .start job.tasks ⟨0, [0]⟩

/-- The part of `download` that joins the blocks and compares the hash of the file. -/
def assemble (location : FileLocation) (blocks : List BlockData) :
    Except DownloadError (List UInt8) := do
  let bytes ← joinBlocks blocks
  if Sha256.hex bytes = location.fileHash then return bytes
  else throw (.fileHashMismatch location.fileHash (Sha256.hex bytes))

theorem assemble_eq_ok_iff {location : FileLocation} {blocks : List BlockData} {bytes : List UInt8} :
  assemble location blocks = .ok bytes ↔
    joinBlocks blocks = .ok bytes ∧ Sha256.hex bytes = location.fileHash
  := by
  rw [assemble, Fallible.bind_eq_ok]
  constructor
  · rintro ⟨joined, hjoin, hbytes⟩
    split at hbytes
    · obtain rfl := Except.ok.inj hbytes
      constructor <;> assumption
    · simp [throw, throwThe, MonadExceptOf.throw] at hbytes
  · rintro ⟨hjoin, hhash⟩
    exact ⟨bytes, hjoin, if_pos hhash⟩

/-- The bytes that a download has joined and verified, or the error it has met, once
`download_blocks` has returned. -/
def Job.assembled (job : Job) (s : DownloadState) : Option (Except DownloadError (List UInt8)) :=
  s.returned.map fun r => r >>= assemble job.location

/-- Blocks that `download_blocks` has returned are what its tasks return. -/
theorem collect_of_returned_ok {job : Job} {s : DownloadState}
    (hreach : Tasks.Reachable job.pool job.start s) {blocks : List BlockData}
    (hreturned : s.returned = some (.ok blocks)) :
  Tasks.collect (job.pool.outcomes job.tasks) = some (.ok blocks)
  := by
  rw [Job.start] at hreach
  split at hreach
  · have hfinal := Tasks.final_of_tasks_eq_nil job.pool
      (s := ⟨[], ⟨0, []⟩, [], some (.error (.noAvailableBlocks job.location.fileName))⟩) rfl rfl
    rw [hfinal.eq_of_reachable _ hreach] at hreturned
    simp at hreturned
  · apply Tasks.collect_of_returned hreach hreturned

/-- A task returns no block but its own. -/
theorem fst_of_tryCandidates {i : Nat} {replies : Nat → Reply} {candidates : List PeerLocation}
    {k : Nat} {lastError : Option DownloadError} {block : BlockData}
    (h : tryCandidates i replies candidates k lastError = some (.ok block)) :
  block.1 = i
  := by
  induction candidates generalizing k lastError with
  | nil => simp [tryCandidates] at h
  | cons peer candidates ih =>
      rw [tryCandidates] at h
      split at h
      · simp at h
      · rename_i fetched hfetch
        obtain rfl := Except.ok.inj (Option.some.inj h)
        cases hreply : replies k with
        | silent => simp [hreply, fetchBlock] at hfetch
        | failed failure => simp [hreply, fetchBlock] at hfetch
        | body bytes =>
            rw [hreply, fetchBlock.eq_def] at hfetch
            simp only at hfetch
            split at hfetch
            · obtain rfl := Except.ok.inj (Option.some.inj hfetch)
              rfl
            · split at hfetch
              · obtain rfl := Except.ok.inj (Option.some.inj hfetch)
                rfl
              · simp at hfetch
      · apply ih h

/-- The tasks return some blocks exactly when each returns its own. -/
theorem collect_outcomes_eq_ok_iff {job : Job} {blocks : List BlockData} :
  Tasks.collect (job.pool.outcomes job.tasks) = some (.ok blocks) ↔
    blocks.length = job.location.availableBlocks.length ∧
      ∀ (j i : Nat) (block : BlockData), job.location.availableBlocks[j]? = some i →
        blocks[j]? = some block → job.outcome j (.trying 0 none) = some (.ok block)
  := by
  have hget : ∀ j, (job.pool.outcomes job.tasks)[j]?
      = job.location.availableBlocks[j]?.map fun _ => job.outcome j (.trying 0 none) := by
    intro j
    rw [Tasks.getElem?_outcomes, Job.tasks, List.getElem?_map, Option.map_map]
    rfl
  have hlength : (job.pool.outcomes job.tasks).length = job.location.availableBlocks.length := by
    rw [Tasks.Pool.outcomes, List.length_mapIdx, Job.tasks, List.length_map]
  rw [Tasks.collect_eq_some_ok_iff]
  constructor
  · intro houtcomes
    constructor
    · rw [← hlength, houtcomes, List.length_map]
    · intro j i block hi hblock
      have hj := hget j
      rw [houtcomes, List.getElem?_map, hblock, hi] at hj
      exact (Option.some.inj hj).symm
  · rintro ⟨hblocks, houtcome⟩
    apply List.ext_getElem?
    intro j
    rw [hget, List.getElem?_map]
    rcases Nat.lt_or_ge j blocks.length with hlt | hge
    · have hi := List.getElem?_eq_getElem (hblocks ▸ hlt)
      have hblock := List.getElem?_eq_getElem hlt
      rw [hi, hblock, Option.map_some, Option.map_some, houtcome j _ _ hi hblock]
    · rw [List.getElem?_eq_none hge, List.getElem?_eq_none (hblocks ▸ hge)]
      rfl

/-- The blocks that `download_blocks` returns are the available ones. -/
theorem map_fst_of_returned {job : Job} {s : DownloadState}
    (hreach : Tasks.Reachable job.pool job.start s) {blocks : List BlockData}
    (hreturned : s.returned = some (.ok blocks)) :
  blocks.map Prod.fst = job.location.availableBlocks
  := by
  obtain ⟨hlength, houtcome⟩ :=
    collect_outcomes_eq_ok_iff.mp (collect_of_returned_ok hreach hreturned)
  apply List.ext_getElem
  · rw [List.length_map, hlength]
  · intro j hj hi
    rw [List.length_map] at hj
    have hok := houtcome j _ _ (List.getElem?_eq_getElem hi) (List.getElem?_eq_getElem hj)
    rw [Job.outcome] at hok
    split at hok
    · simp at hok
    · rw [List.getElem_map, fst_of_tryCandidates hok, Job.blockOf, List.getD_eq_getElem?_getD,
        List.getElem?_eq_getElem hi]
      rfl

end Sha256

end Node
