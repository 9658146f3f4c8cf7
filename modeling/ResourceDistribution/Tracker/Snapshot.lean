import ResourceDistribution.Tracker.Names

/-!
# Snapshots

`snapshot()` cleans up, reads the clock, lists the nodes and lists the files, each in a section of
its own: between them, other threads use the registry and time passes. The nodes and the files that
it returns agree exactly when the running nodes share the same files and blocks when the nodes are
listed and when the files are listed.
-/

open Python

namespace Tracker

/-! ### The steps of a snapshot -/

/-- What `snapshot()` returns. -/
structure Snapshot where
  serverTime : Str
  nodeTtlSeconds : ℤ
  nodes : List PublicNode
  files : List FileSummary

/-- What `snapshot()` has done: its cleanup has read the clock, the cleanup is done, `server_time`
is read, the nodes are listed, the files are listed too. -/
inductive SnapshotPhase where
  | begun
  | sweeping (t : Time)
  | cleaned
  | stamped (serverTime : Str)
  | listed (serverTime : Str) (nodes : List PublicNode)
  | returned (snapshot : Snapshot)

/-- The registry, the clock, and a call of `snapshot()`. -/
structure SnapshotRun where
  nodes : Nodes
  now : Time
  phase : SnapshotPhase

/-- A step: time passes, another thread makes a call with an earlier reading of the clock, or
`snapshot()` goes on. -/
inductive SnapshotAction where
  | tick (now : Time)
  | call (op : Operation) (t : Time)
  | advance

section UnicodeData

variable [UnicodeData] (nodeTtlSeconds : ℤ)

/-- The state after a step, if the step is possible. -/
def SnapshotRun.step (s : SnapshotRun) : SnapshotAction → Option SnapshotRun
  | .tick now => if s.now ≤ now then some { s with now := now } else none
  | .call op t =>
      if t ≤ s.now then some { s with nodes := op.after nodeTtlSeconds s.nodes t } else none
  | .advance =>
      match s.phase with
      | .begun => some { s with phase := .sweeping s.now }
      | .sweeping t => some { s with nodes := (cleanupExpired s.nodes t).2, phase := .cleaned }
      | .cleaned => some { s with phase := .stamped (iso s.now) }
      | .stamped serverTime =>
          let (listed, nodes) := listNodes s.nodes s.now false
          some { s with nodes := nodes, phase := .listed serverTime listed }
      | .listed serverTime listed =>
          let (files, nodes) := listFiles s.nodes s.now
          some { s with
            nodes := nodes
            phase := .returned ⟨serverTime, nodeTtlSeconds, listed, files⟩ }
      | .returned _ => none

end UnicodeData

/-! ### What nodes share -/

/-- A node of a snapshot holds a block of a file. -/
def PublicNode.Holds (node : PublicNode) (fileHash : Str) (i : ℤ) : Prop :=
  ∃ resource ∈ node.resources, resource.fileHash = fileHash ∧
    ∃ block ∈ resource.blocks, block.index = i

/-- A node of a snapshot holds a file, perhaps no block of it. -/
def PublicNode.HoldsFile (node : PublicNode) (fileHash : Str) : Prop :=
  ∃ resource ∈ node.resources, resource.fileHash = fileHash

/-- The blocks of the files are those that the nodes hold, and some node holds each file. -/
structure Snapshot.Agrees (snapshot : Snapshot) : Prop where
  blocks_iff : ∀ fileHash i,
    (∃ file ∈ snapshot.files, file.fileHash = fileHash ∧ i ∈ file.availableBlocks)
      ↔ ∃ node ∈ snapshot.nodes, node.Holds fileHash i
  held : ∀ file ∈ snapshot.files, ∃ node ∈ snapshot.nodes, node.HoldsFile file.fileHash

/-- A node that runs at `t` shares a block of a file. -/
def Nodes.Shares (nodes : Nodes) (t : Time) (fileHash : Str) (i : ℤ) : Prop :=
  ∃ k record, nodes.get? k = some record ∧ t < record.expiresAtEpoch ∧
    (publicNode record).Holds fileHash i

/-- A node that runs at `t` shares a file. -/
def Nodes.SharesFile (nodes : Nodes) (t : Time) (fileHash : Str) : Prop :=
  ∃ k record, nodes.get? k = some record ∧ t < record.expiresAtEpoch ∧
    (publicNode record).HoldsFile fileHash

/-- The running nodes share the same blocks as before, and no new file. -/
structure SnapshotRun.Keeps (s s' : SnapshotRun) : Prop where
  blocks_iff : ∀ fileHash i,
    s'.nodes.Shares s'.now fileHash i ↔ s.nodes.Shares s.now fileHash i
  files_imp : ∀ fileHash, s'.nodes.SharesFile s'.now fileHash → s.nodes.SharesFile s.now fileHash

/-- The records of the running nodes are those of the map after a cleanup. -/
theorem mem_values_cleanupExpired {nodes : Nodes} {t : Time} {record : Record} :
  record ∈ (cleanupExpired nodes t).2.values
    ↔ ∃ k, nodes.get? k = some record ∧ t < record.expiresAtEpoch
  := by
  simp only [Dict.values, List.mem_map, Prod.exists, exists_eq_right, ← Dict.get?_eq_some_iff,
    get?_cleanupExpired_eq_some_iff]

/-- `list_nodes` shows the running nodes. -/
theorem exists_mem_listNodes_iff {nodes : Nodes} {t : Time} {p : PublicNode → Prop} :
  (∃ node ∈ (listNodes nodes t false).1, p node)
    ↔ ∃ k record, nodes.get? k = some record ∧ t < record.expiresAtEpoch ∧ p (publicNode record)
  := by
  change (∃ node ∈ (cleanupExpired nodes t).2.values.map publicNode, p node) ↔ _
  simp only [List.mem_map, mem_values_cleanupExpired]
  constructor
  · rintro ⟨_, ⟨record, ⟨k, hk, ht⟩, rfl⟩, hp⟩
    exact ⟨k, record, hk, ht, hp⟩
  · rintro ⟨k, record, hk, ht, hp⟩
    exact ⟨_, ⟨record, ⟨k, hk, ht⟩, rfl⟩, hp⟩

/-- `list_files` shows the entries of the index of the running nodes. -/
theorem exists_mem_listFiles_iff {nodes : Nodes} {t : Time} {fileHash : Str}
    {p : FileSummary → Prop} :
  (∃ file ∈ (listFiles nodes t).1, file.fileHash = fileHash ∧ p file)
    ↔ ∃ entry, (fileIndex (cleanupExpired nodes t).2).get? fileHash = some entry ∧
        p (summaryOf entry)
  := by
  simp only [listFiles, Keyed.mem_sortBy]
  change (∃ file ∈ (fileIndex (cleanupExpired nodes t).2).values.map summaryOf, _) ↔ _
  constructor
  · rintro ⟨_, hfile, hhash, hp⟩
    obtain ⟨_, hvalue, rfl⟩ := List.mem_map.mp hfile
    obtain ⟨⟨h, entry⟩, hitem, rfl⟩ := List.mem_map.mp hvalue
    have hh : entry.fileHash = h := fileHash_of_mem_fileIndex hitem
    obtain rfl := hh.symm.trans hhash
    exact ⟨entry, Dict.get?_eq_some_iff.mpr hitem, hp⟩
  · rintro ⟨entry, hget, hp⟩
    have hitem := Dict.get?_eq_some_iff.mp hget
    refine ⟨summaryOf entry, ?_, fileHash_of_mem_fileIndex hitem, hp⟩
    apply List.mem_map_of_mem (List.mem_map.mpr ⟨_, hitem, rfl⟩)

/-- The blocks that `list_files` shows are those that the running nodes share. -/
theorem exists_block_mem_listFiles_iff {nodes : Nodes} {t : Time} {fileHash : Str} {i : ℤ} :
  (∃ file ∈ (listFiles nodes t).1, file.fileHash = fileHash ∧ i ∈ file.availableBlocks)
    ↔ nodes.Shares t fileHash i
  := by
  have hblocks : i ∈ availableBlocksOf (fileIndex (cleanupExpired nodes t).2) fileHash
      ↔ nodes.Shares t fileHash i := by
    rw [mem_availableBlocksOf_fileIndex]
    simp only [get?_cleanupExpired_eq_some_iff, Record.resourcesOf, List.mem_filter,
      decide_eq_true_eq, and_assoc]
    rfl
  rw [exists_mem_listFiles_iff, ← hblocks, availableBlocksOf]
  cases (fileIndex (cleanupExpired nodes t).2).get? fileHash with
  | none => simp
  | some entry => simp [summaryOf]

/-- The files that `list_files` shows are those that the running nodes share. -/
theorem exists_file_mem_listFiles_iff {nodes : Nodes} {t : Time} {fileHash : Str} :
  (∃ file ∈ (listFiles nodes t).1, file.fileHash = fileHash) ↔ nodes.SharesFile t fileHash
  := by
  have hentry : ((fileIndex (cleanupExpired nodes t).2).get? fileHash).isSome
      ↔ nodes.SharesFile t fileHash := by
    rw [isSome_get?_fileIndex_iff, List.findSome?_isSome_iff]
    simp only [mem_values_cleanupExpired, Record.given, List.findSome?_isSome_iff,
      Record.resourcesOf, List.mem_filter, decide_eq_true_eq, Resource.givenName,
      Option.isSome_some, and_true]
    constructor
    · rintro ⟨record, ⟨k, hk, ht⟩, hresource⟩
      exact ⟨k, record, hk, ht, hresource⟩
    · rintro ⟨k, record, hk, ht, hresource⟩
      exact ⟨record, ⟨k, hk, ht⟩, hresource⟩
  have hlisted := @exists_mem_listFiles_iff nodes t fileHash fun _ => True
  simp only [and_true] at hlisted
  rw [hlisted, ← hentry, Option.isSome_iff_exists]

/-! ### Runs -/

/-- What a snapshot lists agrees exactly when the running nodes share the same blocks when the
files are listed as when the nodes were, and no new file. -/
theorem agrees_listed_iff (s s' : SnapshotRun) (serverTime : Str) (nodeTtlSeconds : ℤ) :
  Snapshot.Agrees ⟨serverTime, nodeTtlSeconds, (listNodes s.nodes s.now false).1,
      (listFiles s'.nodes s'.now).1⟩
    ↔ s.Keeps s'
  := by
  constructor
  · intro h
    constructor
    · intro fileHash i
      rw [← exists_block_mem_listFiles_iff, h.blocks_iff, exists_mem_listNodes_iff]
      rfl
    · intro fileHash hshares
      obtain ⟨file, hfile, rfl⟩ := exists_file_mem_listFiles_iff.mpr hshares
      apply exists_mem_listNodes_iff.mp (h.held file hfile)
  · intro h
    constructor
    · intro fileHash i
      rw [exists_block_mem_listFiles_iff, h.blocks_iff, exists_mem_listNodes_iff]
      rfl
    · intro file hfile
      apply exists_mem_listNodes_iff.mpr
      apply h.files_imp
      apply exists_file_mem_listFiles_iff.mp ⟨file, hfile, rfl⟩

theorem SnapshotRun.Keeps.refl (s : SnapshotRun) :
  s.Keeps s
  := ⟨fun _ _ => Iff.rfl, fun _ h => h⟩

theorem SnapshotRun.Keeps.trans {s s' s'' : SnapshotRun} (h : s.Keeps s') (h' : s'.Keeps s'') :
  s.Keeps s''
  := by
  constructor
  · intro fileHash i
    rw [h'.blocks_iff, h.blocks_iff]
  · intro fileHash hshares
    apply h.files_imp fileHash (h'.files_imp fileHash hshares)

theorem shares_cleanupExpired (nodes : Nodes) (t : Time) :
  (cleanupExpired nodes t).2.Shares t = nodes.Shares t
  := by
  funext fileHash i
  simp only [Nodes.Shares, get?_cleanupExpired_eq_some_iff, and_assoc, and_self_left]

theorem sharesFile_cleanupExpired (nodes : Nodes) (t : Time) :
  (cleanupExpired nodes t).2.SharesFile t = nodes.SharesFile t
  := by
  funext fileHash
  simp only [Nodes.SharesFile, get?_cleanupExpired_eq_some_iff, and_assoc, and_self_left]

/-- Listing the nodes keeps what the running nodes share. -/
theorem keeps_listNodes_iff (s s' : SnapshotRun) (phase : SnapshotPhase) :
  SnapshotRun.Keeps ⟨(listNodes s.nodes s.now false).2, s.now, phase⟩ s' ↔ s.Keeps s'
  := by
  have hblocks := shares_cleanupExpired s.nodes s.now
  have hfiles := sharesFile_cleanupExpired s.nodes s.now
  constructor
  · intro h
    constructor
    · rw [← hblocks]
      apply h.blocks_iff
    · rw [← hfiles]
      apply h.files_imp
  · intro h
    constructor
    · change ∀ fileHash i, _ ↔ (cleanupExpired s.nodes s.now).2.Shares s.now fileHash i
      rw [hblocks]
      apply h.blocks_iff
    · change ∀ fileHash, _ → (cleanupExpired s.nodes s.now).2.SharesFile s.now fileHash
      rw [hfiles]
      apply h.files_imp

/-- Some running node offers these resources. -/
def Nodes.Offers (nodes : Nodes) (t : Time) (resources : List Resource) : Prop :=
  ∃ k record, nodes.get? k = some record ∧ t < record.expiresAtEpoch ∧ record.resources = resources

/-- What is shared is what is offered. -/
theorem exists_offers_iff {nodes : Nodes} {t : Time} {p : List Resource → Prop} :
  (∃ k record, nodes.get? k = some record ∧ t < record.expiresAtEpoch ∧ p record.resources)
    ↔ ∃ resources, nodes.Offers t resources ∧ p resources
  := by
  constructor
  · rintro ⟨k, record, hk, ht, hp⟩
    exact ⟨_, ⟨k, record, hk, ht, rfl⟩, hp⟩
  · rintro ⟨_, ⟨k, record, hk, ht, rfl⟩, hp⟩
    exact ⟨k, record, hk, ht, hp⟩

/-- So it is kept when the same is offered. -/
theorem keeps_of_offers {s s' : SnapshotRun}
    (h : ∀ resources, s'.nodes.Offers s'.now resources ↔ s.nodes.Offers s.now resources) :
  s.Keeps s'
  := by
  have hshared : ∀ p : List Resource → Prop,
      (∃ k record, s'.nodes.get? k = some record ∧ s'.now < record.expiresAtEpoch ∧
        p record.resources) ↔ ∃ k record, s.nodes.get? k = some record ∧
          s.now < record.expiresAtEpoch ∧ p record.resources := by
    intro p
    rw [exists_offers_iff, exists_offers_iff]
    simp only [h]
  constructor
  · intro fileHash i
    exact hshared fun resources => ∃ resource ∈ resources, resource.fileHash = fileHash ∧
      ∃ block ∈ resource.blocks, block.index = i
  · intro fileHash
    exact (hshared fun resources => ∃ resource ∈ resources, resource.fileHash = fileHash).mp

/-- The only node of a map offers its resources while it runs. -/
theorem offers_set_empty_iff {k : Str} {record : Record} {t : Time}
    (ht : t < record.expiresAtEpoch) {resources : List Resource} :
  Nodes.Offers (Dict.empty.set k record) t resources ↔ record.resources = resources
  := by
  constructor
  · rintro ⟨k', record', hk', -, heq⟩
    rw [Dict.get?_set] at hk'
    split at hk'
    · rw [Option.some.inj hk']
      exact heq
    · cases hk'
  · intro heq
    exact ⟨k, record, Dict.get?_set_self _ _ _, ht, heq⟩

/-- While the nodes are listed and the files are not, the step keeps what the running nodes
share. -/
def SnapshotRun.Quiet (s s' : SnapshotRun) : Prop :=
  ∀ serverTime nodes, s.phase = .listed serverTime nodes → s.Keeps s'

/-- A step that leaves the map and the clock as they are is quiet. -/
theorem quiet_of_eq {s s' : SnapshotRun} (hnodes : s'.nodes = s.nodes) (hnow : s'.now = s.now) :
  s.Quiet s'
  := by
  intro _ _ _
  constructor
  · intro fileHash i
    rw [hnodes, hnow]
  · intro fileHash hshares
    rwa [hnodes, hnow] at hshares

/-- A call of `snapshot()` that has not begun. -/
def SnapshotRun.start (nodes : Nodes) (now : Time) : SnapshotRun := ⟨nodes, now, .begun⟩

/-- What is listed agrees with what the running nodes share. -/
def SnapshotRun.Inv (s : SnapshotRun) : Prop :=
  match s.phase with
  | .listed _ nodes => ∃ s₀ : SnapshotRun, nodes = (listNodes s₀.nodes s₀.now false).1 ∧ s₀.Keeps s
  | .returned snapshot => snapshot.Agrees
  | _ => True

section UnicodeData

variable [UnicodeData]

/-- The states that quiet steps lead to, from any map of nodes at any time. -/
inductive QuietReachable (nodeTtlSeconds : ℤ) : SnapshotRun → Prop where
  | start (nodes : Nodes) (now : Time) : QuietReachable nodeTtlSeconds (.start nodes now)
  | step {s s' : SnapshotRun} (h : QuietReachable nodeTtlSeconds s) {action : SnapshotAction}
      (hstep : s.step nodeTtlSeconds action = some s') (hquiet : s.Quiet s') :
      QuietReachable nodeTtlSeconds s'

variable {nodeTtlSeconds : ℤ}

/-- The steps of the others leave the call of `snapshot()` where it is. -/
theorem phase_eq_of_step {s s' : SnapshotRun} {action : SnapshotAction}
    (hstep : s.step nodeTtlSeconds action = some s') (haction : action ≠ .advance) :
  s'.phase = s.phase
  := by
  cases action with
  | tick now =>
      simp only [SnapshotRun.step, Option.ite_none_right_eq_some, Option.some.injEq] at hstep
      rw [← hstep.2]
  | call op t =>
      simp only [SnapshotRun.step, Option.ite_none_right_eq_some, Option.some.injEq] at hstep
      rw [← hstep.2]
  | advance => cases haction rfl

/-- The last section of a snapshot. -/
theorem returned_of_advance {s s' : SnapshotRun} {serverTime : Str} {nodes : List PublicNode}
    (hphase : s.phase = .listed serverTime nodes)
    (hstep : s.step nodeTtlSeconds .advance = some s') :
  s'.phase
    = .returned ⟨serverTime, nodeTtlSeconds, nodes, (listFiles s.nodes s.now).1⟩
  := by
  simp only [SnapshotRun.step, hphase, Option.some.injEq] at hstep
  rw [← hstep]

theorem step_listed (nodeTtlSeconds : ℤ) (nodes : Nodes) (now : Time) (serverTime : Str)
    (listed : List PublicNode) :
  SnapshotRun.step nodeTtlSeconds ⟨nodes, now, .listed serverTime listed⟩ .advance
    = some ⟨(listFiles nodes now).2, now,
        .returned ⟨serverTime, nodeTtlSeconds, listed, (listFiles nodes now).1⟩⟩
  := rfl

/-- A quiet step keeps the invariant. -/
theorem SnapshotRun.Inv.step {s s' : SnapshotRun} (hs : s.Inv) {action : SnapshotAction}
    (hstep : s.step nodeTtlSeconds action = some s') (hquiet : s.Quiet s') :
  s'.Inv
  := by
  by_cases haction : action = .advance
  · subst haction
    cases hphase : s.phase with
    | listed serverTime nodes =>
        rw [SnapshotRun.Inv, returned_of_advance hphase hstep]
        rw [SnapshotRun.Inv, hphase] at hs
        obtain ⟨s₀, rfl, hkeeps⟩ := hs
        apply (agrees_listed_iff s₀ s serverTime nodeTtlSeconds).mpr hkeeps
    | stamped serverTime =>
        simp only [SnapshotRun.step, hphase, Option.some.injEq] at hstep
        rw [← hstep]
        refine ⟨_, rfl, (keeps_listNodes_iff s _ _).mp (SnapshotRun.Keeps.refl _)⟩
    | returned snapshot => simp [SnapshotRun.step, hphase] at hstep
    | _ =>
        simp only [SnapshotRun.step, hphase, Option.some.injEq] at hstep
        rw [← hstep]
        trivial
  · have hsame := phase_eq_of_step hstep haction
    rw [SnapshotRun.Inv] at hs ⊢
    rw [hsame]
    cases hphase : s.phase with
    | listed serverTime nodes =>
        rw [hphase] at hs
        obtain ⟨s₀, hnodes, hkeeps⟩ := hs
        use s₀, hnodes
        apply hkeeps.trans (hquiet serverTime nodes hphase)
    | returned snapshot =>
        rw [hphase] at hs
        exact hs
    | _ => trivial

theorem QuietReachable.inv {s : SnapshotRun} (h : QuietReachable nodeTtlSeconds s) :
  s.Inv
  := by
  induction h with
  | start nodes now => trivial
  | step _ hstep hquiet ih => apply ih.step hstep hquiet

/-- In every run whose steps keep what the running nodes share while the nodes are listed and the
files are not, the snapshot agrees. Whatever happens in between, it agrees exactly when what the
running nodes share is the same at both ends. -/
theorem agrees_of_quiet (nodeTtlSeconds : ℤ) :
  (∀ s, QuietReachable nodeTtlSeconds s → ∀ snapshot, s.phase = .returned snapshot →
      snapshot.Agrees) ∧
    ∀ (s s₁ s₂ s₃ : SnapshotRun) (serverTime : Str) (snapshot : Snapshot),
      s.phase = .stamped serverTime → s.step nodeTtlSeconds .advance = some s₁ →
      s₂.phase = s₁.phase → s₂.step nodeTtlSeconds .advance = some s₃ →
      s₃.phase = .returned snapshot →
        (snapshot.Agrees ↔ s₁.Keeps s₂)
  := by
  constructor
  · intro s hs snapshot hphase
    have hinv := hs.inv
    rwa [SnapshotRun.Inv, hphase] at hinv
  · intro s s₁ s₂ s₃ serverTime snapshot hphase hstep hsame hstep' hphase'
    simp only [SnapshotRun.step, hphase, Option.some.injEq] at hstep
    subst hstep
    rw [returned_of_advance hsame hstep'] at hphase'
    obtain rfl := SnapshotPhase.returned.inj hphase'
    rw [agrees_listed_iff]
    apply (keeps_listNodes_iff s s₂ _).symm

end UnicodeData

/-! ### An update between the two lists -/

/-- The steps of a snapshot, with those of others before the files are listed. -/
def snapshotWith (others : List SnapshotAction) : List SnapshotAction :=
  [.advance, .advance, .advance, .advance] ++ others ++ [.advance]

/-- A node that renews its lease keeps what it shares, also while time passes before. -/
theorem keeps_renewed :
  let _ := UnicodeData.ascii
  let renew : Operation := .updateNode (updateOfHolder "a" "one.txt").payload none
  let nodes := renew.after 90 Dict.empty 0
  ∀ phase, SnapshotRun.Keeps ⟨nodes, 0, phase⟩ ⟨nodes, 5, phase⟩ ∧
    SnapshotRun.Keeps ⟨nodes, 5, phase⟩ ⟨renew.after 90 nodes 5, 5, phase⟩
  := by
  intro _ renew nodes phase
  obtain ⟨record, renewed, hrecord, hrenewed, hresources, hexpires, hexpires'⟩ :
      ∃ record renewed, nodes = Dict.empty.set (Str.ofString "a") record ∧
        renew.after 90 nodes 5 = Dict.empty.set (Str.ofString "a") renewed ∧
        renewed.resources = record.resources ∧ 5 < record.expiresAtEpoch ∧
        5 < renewed.expiresAtEpoch :=
    ⟨_, _, rfl, rfl, rfl, by decide, by decide⟩
  have hbefore : 0 < record.expiresAtEpoch := lt_trans (by decide) hexpires
  rw [hrenewed, hrecord]
  constructor
  · apply keeps_of_offers
    intro resources
    rw [offers_set_empty_iff hexpires, offers_set_empty_iff hbefore]
  · apply keeps_of_offers
    intro resources
    rw [offers_set_empty_iff hexpires', offers_set_empty_iff hexpires, hresources]

/-- A snapshot of a registry of one node that shares a file. Between the two lists time passes and
the node renews its lease. -/
theorem agrees_of_quiet_renewed :
  let _ := UnicodeData.ascii
  let renew : Operation := .updateNode (updateOfHolder "a" "one.txt").payload none
  ∃ (s s₁ s₂ : SnapshotRun) (snapshot : Snapshot),
    (snapshotWith [.tick 5, .call renew 5]).foldlM (SnapshotRun.step 90)
        (.start (renew.after 90 Dict.empty 0) 0) = some s ∧
      s.phase = .returned snapshot ∧ snapshot.Agrees ∧
      snapshot.files.map FileSummary.fileHash = [Str.ofString "h"] ∧
      snapshot.nodes.map PublicNode.nodeId = [Str.ofString "a"] ∧
      s₁.nodes = renew.after 90 Dict.empty 0 ∧ s₁.now = 0 ∧
      s₂.nodes = renew.after 90 s₁.nodes 5 ∧ s₂.now = 5 ∧ s₁.Keeps s₂
  := by
  intro _ renew
  let nodes := renew.after 90 Dict.empty 0
  let listed := (listNodes nodes 0 false).1
  let stamped : SnapshotRun := ⟨nodes, 0, .stamped (iso 0)⟩
  let s₁ : SnapshotRun := ⟨nodes, 0, .listed (iso 0) listed⟩
  let ticked : SnapshotRun := ⟨nodes, 5, .listed (iso 0) listed⟩
  let s₂ : SnapshotRun := ⟨renew.after 90 nodes 5, 5, .listed (iso 0) listed⟩
  let snapshot : Snapshot := ⟨iso 0, 90, listed, (listFiles s₂.nodes 5).1⟩
  let s : SnapshotRun := ⟨(listFiles s₂.nodes 5).2, 5, .returned snapshot⟩
  have hsweep : (SnapshotRun.start nodes 0).step 90 .advance = some ⟨nodes, 0, .sweeping 0⟩ := rfl
  have hclean : SnapshotRun.step 90 ⟨nodes, 0, .sweeping 0⟩ .advance = some ⟨nodes, 0, .cleaned⟩ :=
    rfl
  have hstamp : SnapshotRun.step 90 ⟨nodes, 0, .cleaned⟩ .advance = some stamped := rfl
  have hlist : stamped.step 90 .advance = some s₁ := rfl
  have htick : s₁.step 90 (.tick 5) = some ticked := rfl
  have hrenew : ticked.step 90 (.call renew 5) = some s₂ := rfl
  have hreturn : s₂.step 90 .advance = some s := step_listed 90 _ _ _ _
  have hlisted : QuietReachable 90 s₁ :=
    ((((QuietReachable.start nodes 0).step hsweep (quiet_of_eq rfl rfl)).step hclean
      (quiet_of_eq rfl rfl)).step hstamp (quiet_of_eq rfl rfl)).step hlist (quiet_of_eq rfl rfl)
  obtain ⟨hticked, hrenewed⟩ := keeps_renewed (.listed (iso 0) listed)
  have hagrees : snapshot.Agrees := by
    apply (agrees_of_quiet 90).1 s _ snapshot rfl
    exact ((hlisted.step htick fun _ _ _ => hticked).step hrenew fun _ _ _ => hrenewed).step hreturn
      (quiet_of_eq rfl rfl)
  have hfiles : snapshot.files.map FileSummary.fileHash = [Str.ofString "h"] := by
    decide +kernel
  have hnodes : snapshot.nodes.map PublicNode.nodeId = [Str.ofString "a"] := by
    decide +kernel
  have hrun : (snapshotWith [.tick 5, .call renew 5]).foldlM (SnapshotRun.step 90) (.start nodes 0)
      = some s := by
    simp only [snapshotWith, List.cons_append, List.nil_append, List.foldlM_cons, List.foldlM_nil,
      hsweep, hclean, hstamp, hlist, htick, hrenew, hreturn, Option.bind_eq_bind, Option.bind_some,
      Option.pure_def]
  refine ⟨s, s₁, s₂, snapshot, hrun, rfl, hagrees, hfiles, hnodes, rfl, rfl, rfl, rfl, ?_⟩
  exact ((agrees_of_quiet 90).2 stamped s₁ s₂ s (iso 0) snapshot rfl hlist rfl hreturn rfl).mp
    hagrees

/-- It is not the case that all snapshots agree: a node may register after the nodes are listed and
before the files are. -/
theorem not_agrees_of_step :
  let _ := UnicodeData.ascii
  ¬ ∀ (nodes : Nodes) (now : Time) (actions : List SnapshotAction) (s : SnapshotRun)
      (snapshot : Snapshot),
      actions.foldlM (SnapshotRun.step 90) (.start nodes now) = some s →
      s.phase = .returned snapshot → snapshot.Agrees
  := by
  intro _ hall
  let update := updateOfHolder "a" "one.txt"
  let after : SnapshotRun := ⟨(Operation.updateNode update.payload none).after 90 Dict.empty 0, 0,
    .listed (iso 0) []⟩
  have hagrees := hall Dict.empty 0 (snapshotWith [.call (.updateNode update.payload none) 0]) _
    ⟨iso 0, 90, (listNodes Dict.empty 0 false).1, (listFiles after.nodes after.now).1⟩ rfl rfl
  have hkeeps := (agrees_listed_iff (.start Dict.empty 0) after _ _).mp hagrees
  have hshares : after.nodes.SharesFile after.now (Str.ofString "h") := by
    refine ⟨Str.ofString "a", _, rfl, ?_, _, List.mem_cons_self, ?_⟩ <;> decide
  obtain ⟨k, record, hk, -⟩ := hkeeps.files_imp _ hshares
  simp [SnapshotRun.start] at hk

end Tracker
