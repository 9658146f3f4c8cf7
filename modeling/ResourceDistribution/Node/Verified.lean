import ResourceDistribution.Node.Download
import ResourceDistribution.Node.Joining

/-!
# What a download has verified

A download from any location, where the tracker and the peers may say anything. Of the candidates for
a block, the first counts whose reply is not refused, and no later one is asked. Whatever the
schedule of the tasks, a download assembles some bytes exactly when the available blocks are the
first ones, each once, for each of them a candidate counts whose reply has the hash that the
candidate lists, and the replies, joined in the order of the blocks, have the hash of the file
(`assembled_exact`).
-/

open Tasks

namespace Node

section Sha256

variable [Sha256]

/-! ### Candidates -/

/-- A reply is refused: the request fails, or the bytes have not the hash that the peer lists. -/
def Refused (peer : PeerLocation) (blockIndex : Nat) (reply : Reply) : Prop :=
  (∃ failure, reply = .failed failure) ∨
    ∃ bytes, reply = .body bytes ∧ expectedHash peer blockIndex ≠ some (Sha256.hex bytes)

/-- The first candidate of the `j`-th task whose reply is not refused has replied with some bytes,
and lists their hash. -/
def Job.Fetches (job : Job) (j : Nat) (bytes : List UInt8) : Prop :=
  ∃ k peer, (job.candidates j)[k]? = some peer ∧
    (job.replies j k = .body bytes ∧
      expectedHash peer (job.blockOf j) = some (Sha256.hex bytes)) ∧
    ∀ k' < k, ∀ other, (job.candidates j)[k']? = some other →
      Refused other (job.blockOf j) (job.replies j k')

omit [Sha256] in
/-- A candidate lists some hash for the block. -/
theorem exists_expectedHash {peer : PeerLocation} {i : Nat} (h : peer.provides i = true) :
  ∃ hash, expectedHash peer i = some hash
  := by
  have hfind : (peer.blocks.find? fun block => block.index = i).isSome = true := by
    rw [List.find?_isSome]
    exact List.any_eq_true.mp h
  obtain ⟨block, hblock⟩ := Option.isSome_iff_exists.mp hfind
  use block.hash
  rw [expectedHash, hblock, Option.map_some]

/-- What is made of the reply of a candidate: an error exactly when it is refused, and bytes exactly
when it has the hash that the candidate lists. -/
theorem fetchBlock_spec {peer : PeerLocation} {i : Nat} (h : peer.provides i = true)
    (reply : Reply) :
  ((∃ e, fetchBlock peer i (expectedHash peer i) reply = some (.error e)) ↔ Refused peer i reply) ∧
    ∀ block, fetchBlock peer i (expectedHash peer i) reply = some (.ok block) ↔
      block.1 = i ∧ reply = .body block.2 ∧ expectedHash peer i = some (Sha256.hex block.2)
  := by
  obtain ⟨hash, hhash⟩ := exists_expectedHash h
  cases reply with
  | silent => simp [fetchBlock, Refused]
  | failed failure => simp [fetchBlock, Refused]
  | body bytes =>
      by_cases heq : Sha256.hex bytes = hash
      · constructor
        · simp [fetchBlock, Refused, hhash, heq]
        · rintro ⟨index, other⟩
          simp only [fetchBlock, hhash, if_pos heq, Option.some.injEq, Except.ok.injEq,
            Prod.mk.injEq, Reply.body.injEq]
          constructor
          · rintro ⟨rfl, rfl⟩
            exact ⟨rfl, rfl, heq.symm⟩
          · rintro ⟨rfl, rfl, -⟩
            exact ⟨rfl, rfl⟩
      · constructor
        · simp only [fetchBlock, hhash, if_neg heq, Refused]
          constructor
          · intro _
            right
            exact ⟨bytes, rfl, fun hsome => heq (Option.some.inj hsome).symm⟩
          · intro _
            exact ⟨_, rfl⟩
        · rintro ⟨index, other⟩
          simp only [fetchBlock, hhash, if_neg heq, Reply.body.injEq]
          constructor
          · intro hok
            cases hok
          · rintro ⟨-, rfl, hsome⟩
            exact absurd (Option.some.inj hsome).symm heq

omit [Sha256] in
/-- The first of some candidates counts, or it is refused and one of the others counts. -/
theorem exists_counting_cons (counts refused : Nat → PeerLocation → Prop) (first : PeerLocation)
    (rest : List PeerLocation) (k : Nat) :
  (∃ m peer, (first :: rest)[m]? = some peer ∧ counts (k + m) peer ∧
      ∀ m' < m, ∀ other, (first :: rest)[m']? = some other → refused (k + m') other) ↔
    counts k first ∨ (refused k first ∧ ∃ m peer, rest[m]? = some peer ∧ counts (k + 1 + m) peer ∧
      ∀ m' < m, ∀ other, rest[m']? = some other → refused (k + 1 + m') other)
  := by
  constructor
  · rintro ⟨m, peer, hpeer, hcounts, hrefused⟩
    cases m with
    | zero =>
        left
        cases hpeer
        exact hcounts
    | succ m =>
        right
        refine ⟨hrefused 0 m.succ_pos first rfl, m, peer, hpeer, ?_, ?_⟩
        · rw [Nat.add_assoc, Nat.add_comm 1 m]
          exact hcounts
        · intro m' hm' other hother
          rw [Nat.add_assoc, Nat.add_comm 1 m']
          exact hrefused (m' + 1) (Nat.succ_lt_succ hm') other hother
  · rintro (hcounts | ⟨hfirst, m, peer, hpeer, hcounts, hrefused⟩)
    · exact ⟨0, first, rfl, hcounts, fun m' hm' => absurd hm' m'.not_lt_zero⟩
    · refine ⟨m + 1, peer, hpeer, ?_, ?_⟩
      · rw [Nat.add_comm m 1, ← Nat.add_assoc]
        exact hcounts
      · intro m' hm' other hother
        cases m' with
        | zero =>
            cases hother
            exact hfirst
        | succ m' =>
            rw [Nat.add_comm m' 1, ← Nat.add_assoc]
            exact hrefused m' (Nat.lt_of_succ_lt_succ hm') other hother

/-- What a task returns that still has some candidates to try. -/
theorem tryCandidates_eq_ok_iff {i : Nat} {replies : Nat → Reply} {candidates : List PeerLocation}
    (hcandidates : ∀ peer ∈ candidates, peer.provides i = true) (k : Nat)
    (lastError : Option DownloadError) (block : BlockData) :
  tryCandidates i replies candidates k lastError = some (.ok block) ↔
    block.1 = i ∧ ∃ m peer, candidates[m]? = some peer ∧
      (replies (k + m) = .body block.2 ∧ expectedHash peer i = some (Sha256.hex block.2)) ∧
      ∀ m' < m, ∀ other, candidates[m']? = some other → Refused other i (replies (k + m'))
  := by
  induction candidates generalizing k lastError with
  | nil => simp [tryCandidates]
  | cons first rest ih =>
      rw [List.forall_mem_cons] at hcandidates
      obtain ⟨herror, hok⟩ := fetchBlock_spec hcandidates.1 (replies k)
      rw [tryCandidates, exists_counting_cons
        (fun n peer => replies n = .body block.2 ∧
          expectedHash peer i = some (Sha256.hex block.2))
        (fun n other => Refused other i (replies n))]
      cases hfetch : fetchBlock first i (expectedHash first i) (replies k) with
      | none =>
          constructor
          · intro h
            cases h
          · rintro ⟨hi, hcounts | ⟨hrefused, -⟩⟩
            · cases hfetch.symm.trans ((hok block).mpr ⟨hi, hcounts⟩)
            · obtain ⟨e, he⟩ := herror.mpr hrefused
              cases hfetch.symm.trans he
      | some result =>
          cases result with
          | ok fetched =>
              constructor
              · intro h
                cases h
                obtain ⟨hi, hcounts⟩ := (hok _).mp hfetch
                exact ⟨hi, Or.inl hcounts⟩
              · rintro ⟨hi, hcounts | ⟨hrefused, -⟩⟩
                · exact hfetch.symm.trans ((hok block).mpr ⟨hi, hcounts⟩)
                · obtain ⟨e, he⟩ := herror.mpr hrefused
                  cases hfetch.symm.trans he
          | error e =>
              have hrefused : Refused first i (replies k) := herror.mp ⟨e, hfetch⟩
              rw [ih hcandidates.2]
              apply and_congr_right
              intro hi
              constructor
              · intro h
                exact Or.inr ⟨hrefused, h⟩
              · rintro (hcounts | ⟨-, h⟩)
                · cases hfetch.symm.trans ((hok block).mpr ⟨hi, hcounts⟩)
                · exact h

/-- What a task returns. -/
theorem outcome_eq_ok_iff (job : Job) (j : Nat) (block : BlockData) :
  job.outcome j (.trying 0 none) = some (.ok block) ↔
    block.1 = job.blockOf j ∧ job.Fetches j block.2
  := by
  have hcandidates : ∀ peer ∈ job.candidates j, peer.provides (job.blockOf j) = true := by
    intro peer hpeer
    exact (mem_getCandidatesForBlock.mp hpeer).2
  rw [Job.outcome]
  split
  · rename_i hnil
    constructor
    · intro h
      cases h
    · rintro ⟨-, k, peer, hpeer, -⟩
      rw [hnil] at hpeer
      cases hpeer
  · rw [List.drop_zero, tryCandidates_eq_ok_iff hcandidates, Job.Fetches]
    simp only [Nat.zero_add]

/-! ### The download -/

/-- Some bytes that a download has verified. -/
structure Verified (job : Job) (bytes : List UInt8) : Prop where
  available_ne_nil : job.location.availableBlocks ≠ []
  contiguous : job.location.availableBlocks.Perm
    (List.range job.location.availableBlocks.length)
  fetched : ∃ part : Nat → List UInt8,
    bytes = (List.range job.location.availableBlocks.length).flatMap part ∧
      ∀ j i, job.location.availableBlocks[j]? = some i → job.Fetches j (part i)
  hash_eq : Sha256.hex bytes = job.location.fileHash

omit [Sha256] in
/-- The bytes of a block, where no index occurs twice. -/
theorem bytesAt_of_getElem? {blocks : List BlockData} (hnodup : (blocks.map Prod.fst).Nodup)
    {j : Nat} {block : BlockData} (hblock : blocks[j]? = some block) :
  bytesAt blocks block.1 = block.2
  := by
  rw [bytesAt, (Dict.lookup_eq_some_iff hnodup).mpr (List.mem_of_getElem? hblock)]
  rfl

/-- The blocks that the tasks return are the available ones, as they fetch them. -/
theorem fetches_of_outcomes {job : Job} {blocks : List BlockData}
    (h : collect (job.pool.outcomes job.tasks) = some (.ok blocks)) :
  blocks.map Prod.fst = job.location.availableBlocks ∧
    ∀ (j : Nat) (block : BlockData), blocks[j]? = some block → job.Fetches j block.2
  := by
  obtain ⟨hlength, houtcome⟩ := collect_outcomes_eq_ok_iff.mp h
  have hblocks : ∀ (j : Nat) (block : BlockData), blocks[j]? = some block →
      job.location.availableBlocks[j]? = some block.1 ∧ job.Fetches j block.2 := by
    intro j block hblock
    obtain ⟨hj, -⟩ := List.getElem?_eq_some_iff.mp hblock
    have hi := List.getElem?_eq_getElem (hlength ▸ hj)
    obtain ⟨hindex, hfetches⟩ := (outcome_eq_ok_iff job j _).mp (houtcome j _ _ hi hblock)
    rw [Job.blockOf, List.getD_eq_getElem?_getD, hi, Option.getD_some] at hindex
    rw [hindex]
    exact ⟨hi, hfetches⟩
  constructor
  · apply List.ext_getElem?
    intro j
    rw [List.getElem?_map]
    cases hblock : blocks[j]? with
    | none =>
        rw [List.getElem?_eq_none_iff, hlength] at hblock
        exact (List.getElem?_eq_none hblock).symm
    | some block => exact (hblocks j block hblock).1.symm
  · intro j block hblock
    exact (hblocks j block hblock).2

/-- What is assembled of the blocks that the tasks return is verified. -/
theorem verified_of_outcomes {job : Job} {blocks : List BlockData} {bytes : List UInt8}
    (hne : job.location.availableBlocks ≠ [])
    (hblocks : collect (job.pool.outcomes job.tasks) = some (.ok blocks))
    (hassemble : assemble job.location blocks = .ok bytes) :
  Verified job bytes
  := by
  obtain ⟨hindexes, hfetches⟩ := fetches_of_outcomes hblocks
  have hlength : blocks.length = job.location.availableBlocks.length := by
    rw [← hindexes, List.length_map]
  obtain ⟨hjoin, hhash⟩ := assemble_eq_ok_iff.mp hassemble
  obtain ⟨hrange, hbytes⟩ := joinBlocks_eq_ok_iff.mp hjoin
  have hperm := map_sortBy_eq_range_iff.mp hrange
  have hnodup : (blocks.map Prod.fst).Nodup := hperm.nodup_iff.mpr List.nodup_range
  refine ⟨hne, ?_, ⟨bytesAt blocks, ?_, ?_⟩, hhash⟩
  · rw [← hindexes, List.length_map]
    exact hperm
  · rw [hbytes, flatMap_sortBy hperm, hlength]
  · intro j i hi
    rw [← hindexes, List.getElem?_map] at hi
    obtain ⟨block, hblock, rfl⟩ := Option.map_eq_some_iff.mp hi
    rw [bytesAt_of_getElem? hnodup hblock]
    exact hfetches j block hblock

/-- Verified bytes are what is assembled of the blocks that the tasks return. -/
theorem Verified.outcomes {job : Job} {bytes : List UInt8} (h : Verified job bytes) :
  (collect (job.pool.outcomes job.tasks)).map (· >>= assemble job.location) = some (.ok bytes)
  := by
  obtain ⟨part, hbytes, hfetches⟩ := h.fetched
  set blocks : List BlockData := job.location.availableBlocks.map fun i => (i, part i) with hblocks
  have hlength : blocks.length = job.location.availableBlocks.length := List.length_map ..
  have hindexes : blocks.map Prod.fst = job.location.availableBlocks := by
    rw [hblocks, List.map_map]
    exact List.map_id _
  have hperm : (blocks.map Prod.fst).Perm (List.range blocks.length) := by
    rw [hindexes, hlength]
    exact h.contiguous
  have hnodup : (blocks.map Prod.fst).Nodup := hperm.nodup_iff.mpr List.nodup_range
  have hcollect : collect (job.pool.outcomes job.tasks) = some (.ok blocks) := by
    apply collect_outcomes_eq_ok_iff.mpr
    use hlength
    intro j i block hi hblock
    rw [hblocks, List.getElem?_map, hi, Option.map_some] at hblock
    cases hblock
    apply (outcome_eq_ok_iff job j _).mpr
    constructor
    · rw [Job.blockOf, List.getD_eq_getElem?_getD, hi, Option.getD_some]
    · exact hfetches j i hi
  have hparts : ∀ i ∈ List.range blocks.length, bytesAt blocks i = part i := by
    intro i hi
    have hmem : i ∈ job.location.availableBlocks := by
      rw [← hindexes]
      exact hperm.mem_iff.mpr hi
    have hblock : (i, part i) ∈ blocks := List.mem_map_of_mem hmem
    rw [bytesAt, (Dict.lookup_eq_some_iff hnodup).mpr hblock]
    rfl
  have hassemble : assemble job.location blocks = .ok bytes := by
    apply assemble_eq_ok_iff.mpr
    refine ⟨joinBlocks_eq_ok_iff.mpr ⟨map_sortBy_eq_range_iff.mpr hperm, ?_⟩, h.hash_eq⟩
    rw [flatMap_sortBy hperm, List.flatMap_congr hparts, hlength, hbytes]
  rw [hcollect, Option.map_some]
  exact congrArg some hassemble

/-- A download without available blocks returns nothing. -/
theorem available_ne_nil_of_returned {job : Job} {s : DownloadState}
    (hreach : Reachable job.pool job.start s) {blocks : List BlockData}
    (hreturned : s.returned = some (.ok blocks)) :
  job.location.availableBlocks ≠ []
  := by
  intro hnil
  rw [Job.start, if_pos hnil] at hreach
  have hfinal := final_of_tasks_eq_nil job.pool (s := ⟨[], ⟨0, []⟩, [],
    some (.error (.noAvailableBlocks job.location.fileName))⟩) rfl rfl
  rw [hfinal.eq_of_reachable job.pool hreach] at hreturned
  cases hreturned

/-- Whatever has been assembled is verified. -/
theorem verified_of_assembled {job : Job} {s : DownloadState}
    (hreach : Reachable job.pool job.start s) {bytes : List UInt8}
    (hbytes : job.assembled s = some (.ok bytes)) :
  Verified job bytes
  := by
  obtain ⟨r, hr, hassemble⟩ := Option.map_eq_some_iff.mp hbytes
  obtain ⟨blocks, rfl, hassemble⟩ := Fallible.bind_eq_ok.mp hassemble
  apply verified_of_outcomes (available_ne_nil_of_returned hreach hr)
    (collect_of_returned_ok hreach hr) hassemble

/-- Verified bytes are assembled by every schedule. -/
theorem Verified.assembled {job : Job} {bytes : List UInt8} (h : Verified job bytes)
    {s : DownloadState} (hreach : Reachable job.pool job.start s) (hfinal : Final job.pool s) :
  job.assembled s = some (.ok bytes)
  := by
  have hstart : job.start = .start job.tasks ⟨0, [0]⟩ := if_neg h.available_ne_nil
  rw [hstart] at hreach
  rw [Job.assembled, returned_eq_collect hreach hfinal]
  exact h.outcomes

/-- Nothing is assembled where an available block comes after one that is not available. -/
theorem not_assembled_of_gap {job : Job} {i j : Nat} (hlt : i < j)
    (hi : i ∉ job.location.availableBlocks) (hj : j ∈ job.location.availableBlocks)
    {s : DownloadState} (hreach : Reachable job.pool job.start s) (bytes : List UInt8) :
  job.assembled s ≠ some (.ok bytes)
  := by
  intro hbytes
  have hcontiguous := (verified_of_assembled hreach hbytes).contiguous
  rw [hcontiguous.mem_iff, List.mem_range] at hi hj
  omega

/-- Whatever the schedule, a download assembles nothing but verified bytes, and at its end it has
assembled them if there are such bytes. -/
theorem assembled_exact {job : Job} {s : DownloadState} (hreach : Reachable job.pool job.start s)
    (bytes : List UInt8) :
  (job.assembled s = some (.ok bytes) → Verified job bytes) ∧
    (Final job.pool s → Verified job bytes → job.assembled s = some (.ok bytes))
  := by
  constructor
  · intro hbytes
    apply verified_of_assembled hreach hbytes
  · intro hfinal hverified
    apply hverified.assembled hreach hfinal

/-- The first of two peers serves wrong bytes, and the second the block. -/
def serveSecond (peer : PeerLocation) (_ : Nat) : Reply :=
  if peer.nodeId = "first" then .body [98] else .body [97]

end Sha256

/-- The wrong bytes are refused, and the block is fetched from the second peer. -/
theorem assembled_exact_twoPeers :
  let _ := Sha256.short
  let job := jobOf twoPeers "third" serveSecond
  ∃ s, Reachable job.pool job.start s ∧ Final job.pool s ∧ job.assembled s = some (.ok [97])
  := by
  intro _ job
  obtain ⟨s, hreach, hfinal⟩ := exists_final job.pool job.start
  use s, hreach, hfinal
  apply (assembled_exact hreach [97]).2 hfinal
  refine ⟨List.cons_ne_nil _ _, List.Perm.refl _, ⟨fun _ => [97], rfl, ?_⟩, rfl⟩
  intro j i hi
  obtain ⟨hj, -⟩ := List.getElem?_eq_some_iff.mp hi
  obtain rfl : j = 0 := Nat.lt_one_iff.mp hj
  refine ⟨1, _, rfl, ⟨rfl, rfl⟩, ?_⟩
  intro k hk other hother
  obtain rfl : k = 0 := Nat.lt_one_iff.mp hk
  cases hother
  right
  refine ⟨[98], rfl, ?_⟩
  decide +kernel

end Node
