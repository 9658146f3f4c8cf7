import ResourceDistribution.Data.Stamped
import ResourceDistribution.Node.TransferWorker

/-!
# Reported progress

A task that has fetched its block adds one to the counter and then sends the count, in two steps,
between which other tasks may do the same. The counts that are sent do not go back as long as no
task sends while another one still has a smaller count to send (`SendsInOrder`), which nothing
enforces.
-/

namespace Node

/-- The count that a task has still to send. -/
def Task.pending : Task → Option Nat
  | .counted _ current => some current
  | _ => none

/-- Whether a task has counted its block. -/
def Task.hasCounted : Task → Bool
  | .counted _ _ => true
  | .finished (.ok _) => true
  | _ => false

/-- No task sends its count while another one has a smaller count to send. -/
def SendsInOrder (s s' : DownloadState) : Prop :=
  ∀ (j : Nat) (block : BlockData) (current : Nat), s.tasks[j]? = some (.counted block current) →
    s'.tasks[j]? = some (.finished (.ok block)) →
      ∀ t ∈ s.tasks, ∀ other ∈ t.pending, current ≤ other

/-- The counter, the counts that have still to be sent, and the one that was sent last. -/
def stampsOf (s : DownloadState) : Stamped.Register Nat where
  clock := s.shared.downloadedCount
  waiting := s.tasks.filterMap Task.pending
  shown := s.shared.signals.getLast?

/-! ### What a task can do -/

/-- All that a step of a task can do. -/
inductive TaskDoes (progress : Progress) : Task → Task → Progress → Prop where
  | asks {k : Nat} {lastError : Option DownloadError} {t : Task} (hpending : t.pending = none)
      (hcounted : t.hasCounted = false) : TaskDoes progress (.trying k lastError) t progress
  | counts (block : BlockData) :
      TaskDoes progress (.fetched block) (.counted block (progress.downloadedCount + 1))
        { progress with downloadedCount := progress.downloadedCount + 1 }
  | sends (block : BlockData) (current : Nat) :
      TaskDoes progress (.counted block current) (.finished (.ok block))
        { progress with signals := progress.signals ++ [current] }

theorem taskDoes_of_step [Sha256] {job : Job} {j : Nat} {t t' : Task} {progress progress' : Progress}
    (h : job.step j t progress = some (t', progress')) :
  TaskDoes progress t t' progress'
  := by
  cases t with
  | trying k lastError =>
      obtain ⟨t'', ht, heq⟩ := Option.map_eq_some_iff.mp h
      obtain ⟨rfl, rfl⟩ := Prod.mk.inj heq
      rw [Job.attempt] at ht
      split at ht
      · obtain rfl := Option.some.inj ht
        apply TaskDoes.asks rfl rfl
      · split at ht
        · obtain rfl := Option.some.inj ht
          apply TaskDoes.asks rfl rfl
        · split at ht
          · cases ht
          · obtain rfl := Option.some.inj ht
            apply TaskDoes.asks rfl rfl
          · obtain rfl := Option.some.inj ht
            apply TaskDoes.asks rfl rfl
  | fetched block =>
      obtain ⟨rfl, rfl⟩ := Prod.mk.inj (Option.some.inj h)
      apply TaskDoes.counts
  | counted block current =>
      obtain ⟨rfl, rfl⟩ := Prod.mk.inj (Option.some.inj h)
      apply TaskDoes.sends
  | finished result => cases h

/-! ### The invariant -/

/-- What is kept by steps in order: the counter is the number of tasks that have counted, it is
among the counts that were sent or have still to be sent, and what was sent is in order. -/
structure Reported (s : DownloadState) : Prop where
  count_eq : s.shared.downloadedCount = s.tasks.countP Task.hasCounted
  recorded : s.tasks ≠ [] → s.shared.downloadedCount ∈ s.shared.signals ∨
    ∃ t ∈ s.tasks, t.pending = some s.shared.downloadedCount
  ordered : Stamped.Ordered (stampsOf s)
  sorted : s.shared.signals.Pairwise (· ≤ ·)

theorem reported_start (job : Job) :
  Reported job.start
  := by
  have hpending : job.tasks.filterMap Task.pending = [] := by
    rw [Job.tasks, List.filterMap_map]
    apply List.filterMap_eq_nil_iff.mpr
    intro i _
    rfl
  have hcount : job.tasks.countP Task.hasCounted = 0 := by
    rw [Job.tasks, List.countP_map]
    apply List.countP_eq_zero.mpr
    intro i _
    exact Bool.false_ne_true
  rw [Job.start]
  split
  · constructor
    · rfl
    · intro hne
      cases hne rfl
    · constructor <;> simp [stampsOf]
    · apply List.Pairwise.nil
  · constructor
    · exact hcount.symm
    · intro _
      left
      apply List.mem_singleton_self
    · constructor <;> simp [stampsOf, Tasks.State.start, hpending]
    · apply List.pairwise_singleton

theorem filterMap_pending_counted (block : BlockData) (current : Nat) (tasks : List Task) :
  (Task.counted block current :: tasks).filterMap Task.pending
    = current :: tasks.filterMap Task.pending
  := rfl

/-- The counts that wait, with those of one task first. -/
theorem waiting_stampsOf {s : DownloadState} {j : Nat} {t : Task} (ht : s.tasks[j]? = some t) :
  (stampsOf s).waiting = ((t :: s.tasks.eraseIdx j).filterMap Task.pending : List Nat)
  := by
  obtain ⟨hj, rfl⟩ := List.getElem?_eq_some_iff.mp ht
  apply Multiset.coe_eq_coe.mpr
  apply (List.getElem_cons_eraseIdx_perm hj).symm.filterMap

/-- A step of a task that has no count to send is in order. -/
theorem sendsInOrder_set {s : DownloadState} {j : Nat} {t : Task} (ht : s.tasks[j]? = some t)
    (hpending : t.pending = none) (t' : Task) (progress : Progress) :
  SendsInOrder s { s with tasks := s.tasks.set j t', shared := progress }
  := by
  intro i block current hi hi'
  by_cases hij : j = i
  · subst hij
    obtain rfl := Option.some.inj (ht.symm.trans hi)
    cases hpending
  · rw [List.getElem?_set_ne hij, hi] at hi'
    cases hi'

/-- The register after a step of a task. -/
theorem stampsOf_set {s : DownloadState} {j : Nat} {t : Task} (ht : s.tasks[j]? = some t)
    (t' : Task) (progress : Progress) :
  stampsOf { s with tasks := s.tasks.set j t', shared := progress }
    = ⟨progress.downloadedCount, ((t' :: s.tasks.eraseIdx j).filterMap Task.pending : List Nat),
        progress.signals.getLast?⟩
  := by
  obtain ⟨hj, -⟩ := List.getElem?_eq_some_iff.mp ht
  have hperm := (List.set_perm_cons_eraseIdx hj t').filterMap Task.pending
  rw [stampsOf, Multiset.coe_eq_coe.mpr hperm]

/-- A step of a task in order is a run of the register. -/
theorem reflTransGen_stampsOf {s : DownloadState} {j : Nat} {t t' : Task}
    {progress : Progress} (ht : s.tasks[j]? = some t) (hdoes : TaskDoes s.shared t t' progress)
    (horder : SendsInOrder s { s with tasks := s.tasks.set j t', shared := progress }) :
  Relation.ReflTransGen Stamped.Step (stampsOf s)
    (stampsOf { s with tasks := s.tasks.set j t', shared := progress })
  := by
  have hs : stampsOf s = ⟨s.shared.downloadedCount,
      ((t :: s.tasks.eraseIdx j).filterMap Task.pending : List Nat), s.shared.signals.getLast?⟩ := by
    rw [← waiting_stampsOf ht]
    rfl
  rw [stampsOf_set ht, hs]
  cases hdoes with
  | asks hpending hcounted =>
      rw [List.filterMap_cons_none hpending, List.filterMap_cons_none rfl]
  | counts block =>
      rw [List.filterMap_cons_none rfl, filterMap_pending_counted, ← Multiset.cons_coe]
      apply Relation.ReflTransGen.tail (.single (.tick (Nat.le_succ _))) .take
  | sends block current =>
      rw [filterMap_pending_counted, List.filterMap_cons_none rfl, ← Multiset.cons_coe,
        List.getLast?_concat]
      apply Relation.ReflTransGen.single
      apply Stamped.Step.publish
      intro other hother
      obtain ⟨t, htask, hpending⟩ := List.mem_filterMap.mp (Multiset.mem_coe.mp hother)
      obtain ⟨hj, -⟩ := List.getElem?_eq_some_iff.mp ht
      apply horder j block current ht (List.getElem?_set_self hj) t
        (List.mem_of_mem_eraseIdx htask) other hpending

/-- The tasks that have counted, with one task first. -/
theorem countP_hasCounted {tasks : List Task} {j : Nat} {t : Task} (ht : tasks[j]? = some t) :
  tasks.countP Task.hasCounted = (t :: tasks.eraseIdx j).countP Task.hasCounted
  := by
  obtain ⟨hj, rfl⟩ := List.getElem?_eq_some_iff.mp ht
  apply (List.getElem_cons_eraseIdx_perm hj).symm.countP_eq

theorem countP_hasCounted_set {tasks : List Task} {j : Nat} {t : Task} (ht : tasks[j]? = some t)
    (t' : Task) :
  (tasks.set j t').countP Task.hasCounted = (t' :: tasks.eraseIdx j).countP Task.hasCounted
  := by
  obtain ⟨hj, -⟩ := List.getElem?_eq_some_iff.mp ht
  apply (List.set_perm_cons_eraseIdx hj t').countP_eq

/-- A step of a task counts it when it counts its block. -/
theorem Reported.count_task {s : DownloadState} (h : Reported s) {j : Nat} {t t' : Task}
    {progress : Progress} (ht : s.tasks[j]? = some t) (hdoes : TaskDoes s.shared t t' progress) :
  progress.downloadedCount = (s.tasks.set j t').countP Task.hasCounted
  := by
  have hcount := h.count_eq
  rw [countP_hasCounted ht] at hcount
  rw [countP_hasCounted_set ht t']
  cases hdoes with
  | asks hpending hcounted =>
      rw [hcount, List.countP_cons_of_neg (by exact Bool.false_ne_true),
        List.countP_cons_of_neg (by simp [hcounted])]
  | counts block =>
      rw [hcount, List.countP_cons_of_neg (by exact Bool.false_ne_true),
        List.countP_cons_of_pos rfl]
  | sends block current =>
      rw [hcount, List.countP_cons_of_pos rfl, List.countP_cons_of_pos rfl]

/-- The other tasks stay. -/
theorem mem_set_of_ne {tasks : List Task} {j : Nat} {t t' other : Task} (ht : tasks[j]? = some t)
    (hother : other ∈ tasks) (hne : other ≠ t) :
  other ∈ tasks.set j t'
  := by
  obtain ⟨i, hi⟩ := List.getElem?_of_mem hother
  have hij : j ≠ i := by
    rintro rfl
    exact hne (Option.some.inj (hi.symm.trans ht))
  apply List.mem_of_getElem? (i := i)
  rw [List.getElem?_set_ne hij, hi]

/-- After a step of a task the counter is sent or will be: the task that has counted has it, and
else it is sent where it was, or by the task that had it. -/
theorem Reported.recorded_task {s : DownloadState} (h : Reported s) {j : Nat} {t t' : Task}
    {progress : Progress} (ht : s.tasks[j]? = some t) (hdoes : TaskDoes s.shared t t' progress) :
  progress.downloadedCount ∈ progress.signals ∨
    ∃ other ∈ s.tasks.set j t', other.pending = some progress.downloadedCount
  := by
  obtain ⟨hj, -⟩ := List.getElem?_eq_some_iff.mp ht
  have hne : s.tasks ≠ [] := List.ne_nil_of_mem (List.mem_of_getElem? ht)
  cases hdoes with
  | asks hpending hcounted =>
      rcases h.recorded hne with hsent | ⟨other, hother, hc⟩
      · exact Or.inl hsent
      · right
        refine ⟨other, mem_set_of_ne ht hother ?_, hc⟩
        rintro rfl
        cases hc
  | counts block =>
      right
      exact ⟨_, List.mem_set hj _, rfl⟩
  | sends block current =>
      rcases h.recorded hne with hsent | ⟨other, hother, hc⟩
      · exact Or.inl (List.mem_append_left _ hsent)
      · by_cases heq : other = .counted block current
        · left
          rw [heq] at hc
          obtain rfl := Option.some.inj hc
          apply List.mem_append_right _ (List.mem_singleton_self _)
        · exact Or.inr ⟨other, mem_set_of_ne ht hother heq, hc⟩

/-- What a task sends is not less than what was sent: no smaller count waits. -/
theorem Reported.sorted_task {s : DownloadState} (h : Reported s) {j : Nat} {t t' : Task}
    {progress : Progress} (ht : s.tasks[j]? = some t) (hdoes : TaskDoes s.shared t t' progress) :
  progress.signals.Pairwise (· ≤ ·)
  := by
  cases hdoes with
  | asks => exact h.sorted
  | counts => exact h.sorted
  | sends block current =>
      apply h.ordered.pairwise_append h.sorted rfl
      rw [waiting_stampsOf ht, filterMap_pending_counted]
      apply Multiset.mem_coe.mpr List.mem_cons_self

/-- A step of a task keeps the invariant, if it is in order. -/
theorem Reported.task {s : DownloadState} (h : Reported s) {j : Nat} {t t' : Task}
    {progress : Progress} (ht : s.tasks[j]? = some t) (hdoes : TaskDoes s.shared t t' progress)
    (horder : SendsInOrder s { s with tasks := s.tasks.set j t', shared := progress }) :
  Reported { s with tasks := s.tasks.set j t', shared := progress }
  := by
  constructor
  · exact h.count_task ht hdoes
  · intro _
    exact h.recorded_task ht hdoes
  · exact Stamped.ordered_of_reflTransGen (reflTransGen_stampsOf ht hdoes horder) h.ordered
  · exact h.sorted_task ht hdoes

/-- The steps of the main program change neither the tasks nor what they share. -/
theorem Reported.congr {s s' : DownloadState} (h : Reported s) (htasks : s'.tasks = s.tasks)
    (hshared : s'.shared = s.shared) :
  Reported s'
  := by
  constructor
  · rw [htasks, hshared]
    exact h.count_eq
  · rw [htasks, hshared]
    exact h.recorded
  · rw [stampsOf, htasks, hshared]
    exact h.ordered
  · rw [hshared]
    exact h.sorted

theorem length_tasks_start (job : Job) :
  job.start.tasks.length = job.location.availableBlocks.length
  := by
  rw [Job.start]
  split
  · rename_i hempty
    rw [hempty]
    rfl
  · apply List.length_map

/-- The counts that were sent do not go back and do not exceed the number of blocks, and when all
tasks have succeeded, the last one is that number. -/
structure RunsForward (job : Job) (s : DownloadState) : Prop where
  sorted : s.shared.signals.Pairwise (· ≤ ·)
  le_total : ∀ c ∈ s.shared.signals, c ≤ job.location.availableBlocks.length
  last_eq : s.tasks ≠ [] → (∀ t ∈ s.tasks, ∃ block, t = .finished (.ok block)) →
    s.shared.signals.getLast? = some job.location.availableBlocks.length

theorem Reported.runsForward {s : DownloadState} {job : Job} (h : Reported s)
    (hlength : s.tasks.length = job.location.availableBlocks.length) :
  RunsForward job s
  := by
  constructor
  · exact h.sorted
  · intro c hc
    have hclock := h.ordered.le_clock h.sorted rfl hc
    have hcount : s.shared.downloadedCount ≤ s.tasks.length := by
      rw [h.count_eq]
      apply List.countP_le_length
    rw [← hlength]
    apply hclock.trans hcount
  · intro hne hall
    have hcount : s.shared.downloadedCount = s.tasks.length := by
      rw [h.count_eq]
      apply List.countP_eq_length.mpr
      intro t ht
      obtain ⟨block, rfl⟩ := hall t ht
      rfl
    have hsent : s.shared.downloadedCount ∈ s.shared.signals := by
      rcases h.recorded hne with hsent | ⟨t, ht, hpending⟩
      · exact hsent
      · obtain ⟨block, rfl⟩ := hall t ht
        cases hpending
    have hlast : s.shared.signals ≠ [] := List.ne_nil_of_mem hsent
    have hget := List.getLast?_eq_getLast_of_ne_nil hlast
    have hle := Stamped.le_of_mem_getLast? h.sorted hsent hget
    have hge := h.ordered.shown_le _ hget
    rw [hget, ← hlength, ← hcount]
    apply congrArg some (le_antisymm hge hle)

section Sha256

variable [Sha256] {job : Job}

theorem Reported.step {s s' : DownloadState} (h : Reported s) (hstep : Tasks.Step job.pool s s')
    (horder : SendsInOrder s s') :
  Reported s'
  := by
  cases hstep with
  | task ht hstep => apply h.task ht (taskDoes_of_step hstep) horder
  | join => exact h.congr rfl rfl
  | fail => exact h.congr rfl rfl
  | finish => exact h.congr rfl rfl

/-- Whatever the next step is, it sends no count smaller than those that were sent. -/
theorem Reported.sorted_step {s s' : DownloadState} (h : Reported s)
    (hstep : Tasks.Step job.pool s s') :
  s'.shared.signals.Pairwise (· ≤ ·)
  := by
  cases hstep with
  | task ht hstep =>
      cases taskDoes_of_step hstep with
      | asks => exact h.sorted
      | counts => exact h.sorted
      | sends block current =>
          apply h.ordered.pairwise_append h.sorted rfl
          rw [waiting_stampsOf ht, filterMap_pending_counted]
          apply Multiset.mem_coe.mpr List.mem_cons_self
  | join => exact h.sorted
  | fail => exact h.sorted
  | finish => exact h.sorted

/-- A step leaves the number of tasks as it is. -/
theorem length_tasks_of_step {s s' : DownloadState} (hstep : Tasks.Step job.pool s s') :
  s'.tasks.length = s.tasks.length
  := by
  cases hstep with
  | task => apply List.length_set
  | join => rfl
  | fail => rfl
  | finish => rfl

/-- If a task sends its count while another one has a smaller one to send, that one can be sent
next, and the counts go back. -/
theorem exists_back_of_not_sendsInOrder {s s' : DownloadState} (hstep : Tasks.Step job.pool s s')
    (horder : ¬ SendsInOrder s s') :
  ∃ s'', Tasks.Step job.pool s' s'' ∧ ¬ s''.shared.signals.Pairwise (· ≤ ·)
  := by
  simp only [SendsInOrder, not_forall, not_le] at horder
  obtain ⟨j, block, current, hj, hj', t, ht, other, hother, hlt⟩ := horder
  obtain ⟨block', rfl⟩ : ∃ block', t = .counted block' other := by
    cases t with
    | counted block' other' =>
        obtain rfl := Option.some.inj hother
        use block'
    | _ => cases hother
  obtain ⟨i, hi⟩ := List.getElem?_of_mem ht
  have hij : j ≠ i := by
    rintro rfl
    obtain ⟨-, rfl⟩ := Task.counted.inj (Option.some.inj (hj.symm.trans hi))
    apply lt_irrefl _ hlt
  cases hstep with
  | @task j' t t' progress ht' hstep' =>
      obtain rfl : j = j' := by
        by_contra hne
        rw [List.getElem?_set_ne (Ne.symm hne), hj] at hj'
        cases hj'
      obtain rfl := Option.some.inj (hj.symm.trans ht')
      have hnext : job.step j (.counted block current) s.shared = some (t', progress) := hstep'
      cases taskDoes_of_step hnext with
      | sends =>
          have hi' : (s.tasks.set j (.finished (.ok block)))[i]?
              = some (.counted block' other) := by
            rw [List.getElem?_set_ne hij, hi]
          refine ⟨_, Tasks.Step.task (P := job.pool) hi' rfl, ?_⟩
          intro hsorted
          have hle := (List.pairwise_append.mp hsorted).2.2 current
            (List.mem_append_right _ (List.mem_singleton_self _)) other (List.mem_singleton_self _)
          exact absurd hlt (not_lt.mpr hle)
  | join =>
      rw [hj] at hj'
      cases hj'
  | fail =>
      rw [hj] at hj'
      cases hj'
  | finish =>
      rw [hj] at hj'
      cases hj'

variable (job) in
/-- The states that steps in order lead to. -/
inductive SentInOrder : DownloadState → Prop where
  | start : SentInOrder job.start
  | step {s s' : DownloadState} (h : SentInOrder s) (hstep : Tasks.Step job.pool s s')
      (horder : SendsInOrder s s') : SentInOrder s'

theorem SentInOrder.reported {s : DownloadState} (h : SentInOrder job s) :
  Reported s ∧ s.tasks.length = job.location.availableBlocks.length
  := by
  induction h with
  | start => exact ⟨reported_start job, length_tasks_start job⟩
  | step _ hstep horder ih =>
      constructor
      · apply ih.1.step hstep horder
      · rw [length_tasks_of_step hstep, ih.2]

/-- A step of a task that has no count to send. -/
theorem SentInOrder.task {s : DownloadState} (h : SentInOrder job s) {j : Nat} {t t' : Task}
    {progress : Progress} (ht : s.tasks[j]? = some t) (hpending : t.pending = none)
    (hstep : job.pool.step j t s.shared = some (t', progress)) :
  SentInOrder job { s with tasks := s.tasks.set j t', shared := progress }
  := h.step (.task ht hstep) (sendsInOrder_set ht hpending t' progress)

theorem SentInOrder.reachable {s : DownloadState} (h : SentInOrder job s) :
  Tasks.Reachable job.pool job.start s
  := by
  induction h with
  | start => apply Relation.ReflTransGen.refl
  | step _ hstep _ ih => apply ih.tail hstep

/-- As long as no task sends its count while another one has a smaller count to send, progress
never runs backwards. As soon as one does, the next step can send that smaller count. -/
theorem runsForward_of_sentInOrder (job : Job) (s : DownloadState) (hs : SentInOrder job s) :
  RunsForward job s ∧ ∀ s', Tasks.Step job.pool s s' →
    (SendsInOrder s s' ↔
      ∀ s'', Tasks.Step job.pool s' s'' → s''.shared.signals.Pairwise (· ≤ ·))
  := by
  obtain ⟨hreported, hlength⟩ := hs.reported
  use hreported.runsForward hlength
  intro s' hstep
  constructor
  · intro horder s'' hstep'
    apply (hreported.step hstep horder).sorted_step hstep'
  · intro hall
    by_contra horder
    obtain ⟨s'', hstep', hback⟩ := exists_back_of_not_sendsInOrder hstep horder
    apply hback (hall s'' hstep')

end Sha256

/-! ### Two tasks -/

section Sha256

variable [Sha256]

/-- The download of a file of two blocks from one peer, which serves them. -/
def twoBlocks : Job where
  location := {
    fileHash := Sha256.hex [97, 98]
    fileName := "a"
    fileSize := none
    blockSize := none
    peers := [⟨"peer", "127.0.0.1", 9000, "", "", [⟨0, Sha256.hex [97], 1⟩, ⟨1, Sha256.hex [98], 1⟩]⟩]
    availableBlocks := [0, 1] }
  selfNodeId := "self"
  replies
    | 0, _ => .body [97]
    | _, _ => .body [98]

/-- Where the two tasks are before any count is sent. -/
def twoTasks (first second : Task) (downloadedCount : Nat) : DownloadState :=
  ⟨[first, second], ⟨downloadedCount, [0]⟩, [], none⟩

/-- Both tasks have counted their blocks. -/
def twoCounted : DownloadState := twoTasks (.counted (0, [97]) 1) (.counted (1, [98]) 2) 2

theorem attempt_twoBlocks_zero :
  twoBlocks.attempt 0 0 none = some (.fetched (0, [97]))
  := by
  have hcandidates : twoBlocks.candidates 0 = twoBlocks.location.peers := rfl
  rw [Job.attempt, hcandidates]
  simp [twoBlocks, fetchBlock, expectedHash, Job.blockOf]

theorem attempt_twoBlocks_one :
  twoBlocks.attempt 1 0 none = some (.fetched (1, [98]))
  := by
  have hcandidates : twoBlocks.candidates 1 = twoBlocks.location.peers := List.rotate_singleton _ _
  rw [Job.attempt, hcandidates]
  simp [twoBlocks, fetchBlock, expectedHash, Job.blockOf]

theorem step_trying {job : Job} {j k : Nat} {lastError : Option DownloadError} {t : Task}
    (h : job.attempt j k lastError = some t) (progress : Progress) :
  job.pool.step j (.trying k lastError) progress = some (t, progress)
  := congrArg (Option.map fun t => (t, progress)) h

/-- Both tasks can count before one of them sends its count. -/
theorem sentInOrder_twoCounted :
  SentInOrder twoBlocks twoCounted
  := by
  have hstart : SentInOrder twoBlocks (twoTasks (.trying 0 none) (.trying 0 none) 0) := .start
  have hfetch : SentInOrder twoBlocks (twoTasks (.fetched (0, [97])) (.trying 0 none) 0) :=
    hstart.task (j := 0) rfl rfl (step_trying attempt_twoBlocks_zero _)
  have hcount : SentInOrder twoBlocks (twoTasks (.counted (0, [97]) 1) (.trying 0 none) 1) :=
    hfetch.task (j := 0) rfl rfl rfl
  have hfetch' : SentInOrder twoBlocks (twoTasks (.counted (0, [97]) 1) (.fetched (1, [98])) 1) :=
    hcount.task (j := 1) rfl rfl (step_trying attempt_twoBlocks_one _)
  exact hfetch'.task (j := 1) rfl rfl rfl

end Sha256

/-- Both tasks have counted their blocks, and either may send its count next. -/
theorem runsForward_twoCounted :
  let _ := Sha256.short
  RunsForward twoBlocks twoCounted ∧ ∀ s', Tasks.Step twoBlocks.pool twoCounted s' →
    (SendsInOrder twoCounted s' ↔
      ∀ s'', Tasks.Step twoBlocks.pool s' s'' → s''.shared.signals.Pairwise (· ≤ ·))
  := by
  intro _
  apply runsForward_of_sentInOrder twoBlocks twoCounted sentInOrder_twoCounted

/-- It is not the case that progress never runs backwards: the task that counted last may be the
first one to send its count. -/
theorem not_runsForward_twoBlocks :
  let _ := Sha256.short
  ¬ ∀ (job : Job) (s : DownloadState), Tasks.Reachable job.pool job.start s → RunsForward job s
  := by
  intro _ hall
  have hcounted := sentInOrder_twoCounted.reachable
  have hsecond := hcounted.tail (.task (P := twoBlocks.pool) (j := 1) rfl rfl)
  have hfirst := hsecond.tail (.task (P := twoBlocks.pool) (j := 0) rfl rfl)
  have hsorted := (hall twoBlocks _ hfirst).sorted
  exact absurd hsorted (by decide)

end Node
