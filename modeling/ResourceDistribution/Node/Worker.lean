import ResourceDistribution.Node.Progress

/-!
# Successive downloads

The worker handles one command after another, but when a block fails, `download_blocks` returns
while the tasks of the other blocks go on. What they still send comes after the completion of their
download, among the signals of the next one. A completed download is silent as long as, at its
completion, no task is left that fetches its block (`Still`).
-/

namespace Node

/-! ### The worker -/

/-- How far a download is: its target is being resolved, it is announced, or its blocks are being
fetched, also when `download_blocks` has returned. -/
inductive Stage where
  | resolving
  | announced (job : Job)
  | fetching (job : Job) (blocks : DownloadState)

/-- Whether `download` may return: its target is not resolved, or `download_blocks` has returned. -/
def Stage.Over : Stage → Prop
  | .resolving => True
  | .announced _ => False
  | .fetching _ blocks => blocks.returned.isSome

/-- A download that was begun, and whether its completion was signalled. -/
structure Download where
  stage : Stage
  completed : Bool

/-- What is sent for the download with a given number. -/
inductive Sent where
  | taskInfo (d : Nat)
  | progressUpdate (d downloadedBlocks totalBlocks : Nat)
  | done (d : Nat)

/-- The downloads in the order of their commands, and what was sent. -/
structure Worker where
  downloads : List Download
  sent : List Sent

/-- The progress signals of a download. -/
def reports (d : Nat) (job : Job) (signals : List Nat) : List Sent :=
  signals.map fun downloadedBlocks =>
    .progressUpdate d downloadedBlocks job.location.availableBlocks.length

/-- No command has been handled. -/
def Worker.start : Worker := ⟨[], []⟩

/-- After `before`, a progress signal of a download is in place: the download is not completed, and
of the announced downloads it is the only one that is not. -/
structure InPlace (before : List Sent) (d : Nat) : Prop where
  not_done : .done d ∉ before
  current : ∀ e, .taskInfo e ∈ before → .done e ∉ before → d = e

/-- Every progress signal is in place after what was sent before it. -/
def Silent (sent : List Sent) : Prop :=
  ∀ before after d downloadedBlocks totalBlocks,
    sent = before ++ .progressUpdate d downloadedBlocks totalBlocks :: after → InPlace before d

section Sha256

variable [Sha256]

/-- A step of the worker, or of some task, also of a download that is completed. -/
inductive Worker.Step : Worker → Worker → Prop where
  | take {w : Worker} (hidle : ∀ download ∈ w.downloads, download.completed = true) :
      Step w { w with downloads := w.downloads ++ [⟨.resolving, false⟩] }
  | resolve {w : Worker} {d : Nat} (job : Job)
      (hd : w.downloads[d]? = some ⟨.resolving, false⟩) :
      Step w {
        downloads := w.downloads.set d ⟨.announced job, false⟩
        sent := w.sent ++ [.taskInfo d] }
  | spawn {w : Worker} {d : Nat} {job : Job}
      (hd : w.downloads[d]? = some ⟨.announced job, false⟩) :
      Step w {
        downloads := w.downloads.set d ⟨.fetching job job.start, false⟩
        sent := w.sent ++ reports d job job.start.shared.signals }
  | fetch {w : Worker} {d : Nat} {job : Job} {blocks blocks' : DownloadState} {completed : Bool}
      (hd : w.downloads[d]? = some ⟨.fetching job blocks, completed⟩)
      (hstep : Tasks.Step job.pool blocks blocks') :
      Step w {
        downloads := w.downloads.set d ⟨.fetching job blocks', completed⟩
        sent := w.sent
          ++ reports d job (blocks'.shared.signals.drop blocks.shared.signals.length) }
  | complete {w : Worker} {d : Nat} {stage : Stage} (hd : w.downloads[d]? = some ⟨stage, false⟩)
      (hover : stage.Over) :
      Step w {
        downloads := w.downloads.set d ⟨stage, true⟩
        sent := w.sent ++ [.done d] }

/-- No task is left that fetches its block: those that have not finished fail or never return. -/
def Still (job : Job) (blocks : DownloadState) : Prop :=
  ∀ j t, blocks.tasks[j]? = some t → t.result = none → ∀ block, job.outcome j t ≠ some (.ok block)

/-- A download is completed only when no task of it is left that fetches its block. -/
def Worker.Quiet (w w' : Worker) : Prop :=
  ∀ (d : Nat) job blocks, w.downloads[d]? = some ⟨.fetching job blocks, false⟩ →
    w'.downloads[d]? = some ⟨.fetching job blocks, true⟩ → Still job blocks

/-- A step that completes no download before it is still. -/
def Worker.QuietStep (w w' : Worker) : Prop := w.Step w' ∧ w.Quiet w'

/-- Some quiet steps lead from one state to the other. -/
abbrev Worker.QuietRun : Worker → Worker → Prop := Relation.ReflTransGen Worker.QuietStep

/-! ### Signals only grow -/

/-- A step appends the signals that it sends. -/
theorem signals_prefix_of_step {job : Job} {s s' : DownloadState}
    (hstep : Tasks.Step job.pool s s') :
  s.shared.signals <+: s'.shared.signals
  := by
  cases hstep with
  | task ht hstep =>
      cases taskDoes_of_step hstep with
      | sends => apply List.prefix_append
      | asks => apply List.prefix_refl
      | counts => apply List.prefix_refl
  | join => apply List.prefix_refl
  | fail => apply List.prefix_refl
  | finish => apply List.prefix_refl

/-- What is still stays so and sends nothing. -/
theorem Still.step {job : Job} {s s' : DownloadState} (h : Still job s)
    (hstep : Tasks.Step job.pool s s') :
  Still job s' ∧ s'.shared.signals = s.shared.signals
  := by
  cases hstep with
  | @task j t t' progress ht hstep =>
      have hnext : job.step j t s.shared = some (t', progress) := hstep
      have houtcome := job.pool.outcome_step hstep
      have hfails : ∀ block, job.outcome j t ≠ some (.ok block) := by
        apply h j t ht
        cases t with
        | finished result => cases hnext
        | _ => rfl
      constructor
      · intro i u hi hresult
        by_cases hij : j = i
        · subst hij
          obtain ⟨hj, -⟩ := List.getElem?_eq_some_iff.mp ht
          obtain rfl := Option.some.inj ((List.getElem?_set_self hj).symm.trans hi)
          intro block
          change job.pool.outcome j t' ≠ _
          rw [houtcome]
          apply hfails
        · rw [List.getElem?_set_ne hij] at hi
          apply h i u hi hresult
      · cases taskDoes_of_step hnext with
        | asks => rfl
        | counts block => cases hfails block rfl
        | sends block => cases hfails block rfl
  | join => exact ⟨h, rfl⟩
  | fail => exact ⟨h, rfl⟩
  | finish => exact ⟨h, rfl⟩

end Sha256

/-! ### What is sent -/

theorem silent_nil :
  Silent []
  := by
  intro before after d _ _ h
  cases before <;> cases h

/-- One more signal leaves what was sent silent, if it is in place. -/
theorem Silent.append {sent : List Sent} (h : Silent sent) {x : Sent}
    (hx : ∀ d downloadedBlocks totalBlocks, x = .progressUpdate d downloadedBlocks totalBlocks →
      InPlace sent d) :
  Silent (sent ++ [x])
  := by
  intro before after d downloadedBlocks totalBlocks heq
  rcases List.eq_nil_or_concat after with rfl | ⟨after, y, rfl⟩
  · obtain ⟨rfl, hlast⟩ := List.append_inj' heq rfl
    apply hx d _ _ (List.singleton_inj.mp hlast)
  · rw [List.concat_eq_append, ← List.cons_append, ← List.append_assoc] at heq
    apply h before after d downloadedBlocks totalBlocks (List.append_inj' heq rfl).1

/-- A progress signal leaves the place of the next one as it is. -/
theorem InPlace.append {before : List Sent} {d : Nat} (h : InPlace before d)
    (e downloadedBlocks totalBlocks : Nat) :
  InPlace (before ++ [.progressUpdate e downloadedBlocks totalBlocks]) d
  := by
  constructor
  · intro hdone
    apply h.not_done
    simpa using hdone
  · intro e' hannounced hnot
    apply h.current e'
    · simpa using hannounced
    · intro hdone
      apply hnot
      apply List.mem_append_left _ hdone

theorem Silent.append_reports {sent : List Sent} (h : Silent sent) {d : Nat}
    (hplace : InPlace sent d) (job : Job) (signals : List Nat) :
  Silent (sent ++ reports d job signals) ∧ InPlace (sent ++ reports d job signals) d
  := by
  induction signals using List.reverseRecOn with
  | nil =>
      rw [reports, List.map_nil, List.append_nil]
      exact ⟨h, hplace⟩
  | append_singleton signals c ih =>
      rw [reports, List.map_append, ← List.append_assoc]
      constructor
      · apply ih.1.append
        intro d' _ _ heq
        cases heq
        exact ih.2
      · apply ih.2.append

theorem taskInfo_mem_append_reports {sent : List Sent} {d e : Nat} {job : Job}
    {signals : List Nat} :
  .taskInfo e ∈ sent ++ reports d job signals ↔ .taskInfo e ∈ sent
  := by
  simp [reports]

theorem done_mem_append_reports {sent : List Sent} {d e : Nat} {job : Job} {signals : List Nat} :
  .done e ∈ sent ++ reports d job signals ↔ .done e ∈ sent
  := by
  simp [reports]

/-- What a list holds after one item was set. -/
theorem getElem?_set_eq_some_iff {downloads : List Download} {d e : Nat}
    {download download' : Download} (hd : d < downloads.length) :
  (downloads.set d download)[e]? = some download' ↔
    e = d ∧ download' = download ∨ e ≠ d ∧ downloads[e]? = some download'
  := by
  by_cases hde : d = e
  · subst hde
    rw [List.getElem?_set_self hd]
    simp [eq_comm]
  · rw [List.getElem?_set_ne hde]
    simp [Ne.symm hde]

/-! ### The invariant -/

section Sha256

variable [Sha256]

/-- Only the last download is not completed, what was sent says which ones are, the completed ones
are still, and what was sent is silent. -/
structure Worker.Inv (w : Worker) : Prop where
  completed_of_lt : ∀ (d : Nat) download, w.downloads[d]? = some download →
    d + 1 < w.downloads.length →
    download.completed = true
  done_mem : ∀ d, .done d ∈ w.sent ↔
    ∃ download, w.downloads[d]? = some download ∧ download.completed = true
  lt_of_taskInfo_mem : ∀ d, .taskInfo d ∈ w.sent → d < w.downloads.length
  still : ∀ (d : Nat) job blocks, w.downloads[d]? = some ⟨.fetching job blocks, true⟩ →
    Still job blocks
  silent : Silent w.sent

theorem inv_start :
  Worker.start.Inv
  := by
  constructor
  · intro d download hd
    simp [Worker.start] at hd
  · intro d
    simp [Worker.start]
  · intro d hd
    cases hd
  · intro d job blocks hd
    simp [Worker.start] at hd
  · apply silent_nil

/-- The signals of a download that is not completed are in place. -/
theorem Worker.Inv.inPlace {w : Worker} (h : w.Inv) {d : Nat} {stage : Stage}
    (hd : w.downloads[d]? = some ⟨stage, false⟩) :
  InPlace w.sent d
  := by
  have hlast : ∀ e, e < w.downloads.length → .done e ∉ w.sent → w.downloads.length ≤ e + 1 := by
    intro e he hdone
    by_contra hlt
    have hget := List.getElem?_eq_getElem he
    apply hdone
    apply (h.done_mem e).mpr ⟨_, hget, h.completed_of_lt e _ hget (not_le.mp hlt)⟩
  have hdone : .done d ∉ w.sent := by
    intro hmem
    obtain ⟨download, hd', hcompleted⟩ := (h.done_mem d).mp hmem
    obtain rfl := Option.some.inj (hd.symm.trans hd')
    cases hcompleted
  obtain ⟨hlt, -⟩ := List.getElem?_eq_some_iff.mp hd
  constructor
  · exact hdone
  · intro e hannounced hnot
    have he := h.lt_of_taskInfo_mem e hannounced
    have hle := hlast d hlt hdone
    have hle' := hlast e he hnot
    omega

/-- A step that changes how far one download is keeps the invariant. -/
theorem Worker.Inv.set {w : Worker} (h : w.Inv) {d : Nat} {stage stage' : Stage}
    {completed : Bool} {sent : List Sent} (hd : w.downloads[d]? = some ⟨stage, completed⟩)
    (hdone : ∀ e, .done e ∈ sent ↔ .done e ∈ w.sent)
    (hinfo : ∀ e, .taskInfo e ∈ sent → .taskInfo e ∈ w.sent ∨ e = d)
    (hstill : completed = true → ∀ job blocks, stage' = .fetching job blocks → Still job blocks)
    (hsilent : Silent sent) :
  Worker.Inv ⟨w.downloads.set d ⟨stage', completed⟩, sent⟩
  := by
  obtain ⟨hlt, -⟩ := List.getElem?_eq_some_iff.mp hd
  constructor
  · intro e download he hlast
    rw [List.length_set] at hlast
    rcases (getElem?_set_eq_some_iff hlt).mp he with ⟨rfl, rfl⟩ | ⟨-, he⟩
    · exact h.completed_of_lt e ⟨stage, completed⟩ hd hlast
    · apply h.completed_of_lt e download he hlast
  · intro e
    rw [hdone, h.done_mem]
    simp only [getElem?_set_eq_some_iff hlt]
    constructor
    · rintro ⟨download, he, hcompleted⟩
      by_cases hde : e = d
      · subst hde
        obtain rfl := Option.some.inj (hd.symm.trans he)
        exact ⟨_, Or.inl ⟨rfl, rfl⟩, hcompleted⟩
      · exact ⟨download, Or.inr ⟨hde, he⟩, hcompleted⟩
    · rintro ⟨download, ⟨rfl, rfl⟩ | ⟨-, he⟩, hcompleted⟩
      · exact ⟨_, hd, hcompleted⟩
      · exact ⟨download, he, hcompleted⟩
  · intro e hannounced
    rw [List.length_set]
    rcases hinfo e hannounced with hmem | rfl
    · apply h.lt_of_taskInfo_mem e hmem
    · exact hlt
  · intro e job blocks he
    rcases (getElem?_set_eq_some_iff hlt).mp he with ⟨rfl, heq⟩ | ⟨-, he⟩
    · obtain ⟨hstage, hcompleted⟩ := Download.mk.inj heq
      apply hstill hcompleted.symm job blocks hstage.symm
    · apply h.still e job blocks he
  · exact hsilent

/-- Signalling the completion of a download that is still keeps the invariant. -/
theorem Worker.Inv.complete {w : Worker} (h : w.Inv) {d : Nat} {stage : Stage}
    (hd : w.downloads[d]? = some ⟨stage, false⟩)
    (hstill : ∀ job blocks, stage = .fetching job blocks → Still job blocks) :
  Worker.Inv ⟨w.downloads.set d ⟨stage, true⟩, w.sent ++ [.done d]⟩
  := by
  obtain ⟨hlt, -⟩ := List.getElem?_eq_some_iff.mp hd
  constructor
  · intro e download he hlast
    rw [List.length_set] at hlast
    rcases (getElem?_set_eq_some_iff hlt).mp he with ⟨-, rfl⟩ | ⟨-, he⟩
    · rfl
    · apply h.completed_of_lt e download he hlast
  · intro e
    rw [List.mem_append, h.done_mem, List.mem_singleton, Sent.done.injEq]
    simp only [getElem?_set_eq_some_iff hlt]
    constructor
    · rintro (⟨download, he, hcompleted⟩ | rfl)
      · by_cases hde : e = d
        · exact ⟨_, Or.inl ⟨hde, rfl⟩, rfl⟩
        · exact ⟨download, Or.inr ⟨hde, he⟩, hcompleted⟩
      · exact ⟨_, Or.inl ⟨rfl, rfl⟩, rfl⟩
    · rintro ⟨download, ⟨rfl, -⟩ | ⟨-, he⟩, hcompleted⟩
      · exact Or.inr rfl
      · exact Or.inl ⟨download, he, hcompleted⟩
  · intro e hannounced
    rw [List.length_set]
    apply h.lt_of_taskInfo_mem e
    simpa using hannounced
  · intro e job blocks he
    rcases (getElem?_set_eq_some_iff hlt).mp he with ⟨-, heq⟩ | ⟨-, he⟩
    · apply hstill job blocks (Download.mk.inj heq).1.symm
    · apply h.still e job blocks he
  · apply h.silent.append
    intro _ _ _ heq
    cases heq

/-- Taking the next command keeps the invariant. -/
theorem Worker.Inv.take {w : Worker} (h : w.Inv)
    (hidle : ∀ download ∈ w.downloads, download.completed = true) :
  Worker.Inv { w with downloads := w.downloads ++ [⟨.resolving, false⟩] }
  := by
  have hget : ∀ (e : Nat) (download : Download),
      (w.downloads ++ [⟨.resolving, false⟩])[e]? = some download →
      w.downloads[e]? = some download ∨ e = w.downloads.length ∧ download = ⟨.resolving, false⟩ := by
    intro e download he
    rcases Nat.lt_or_ge e w.downloads.length with hlt | hge
    · rw [List.getElem?_append_left hlt] at he
      exact Or.inl he
    · rw [List.getElem?_append_right hge, List.getElem?_singleton] at he
      split at he
      · rename_i hzero
        exact Or.inr ⟨by omega, (Option.some.inj he).symm⟩
      · cases he
  constructor
  · intro e download he hlast
    rcases hget e download he with he | ⟨rfl, -⟩
    · apply hidle download (List.mem_of_getElem? he)
    · simp at hlast
  · intro e
    rw [h.done_mem]
    constructor
    · rintro ⟨download, he, hcompleted⟩
      refine ⟨download, ?_, hcompleted⟩
      obtain ⟨hlt, -⟩ := List.getElem?_eq_some_iff.mp he
      rw [List.getElem?_append_left hlt, he]
    · rintro ⟨download, he, hcompleted⟩
      rcases hget e download he with he | ⟨-, rfl⟩
      · exact ⟨download, he, hcompleted⟩
      · cases hcompleted
  · intro e hannounced
    rw [List.length_append]
    apply Nat.lt_add_right _ (h.lt_of_taskInfo_mem e hannounced)
  · intro e job blocks he
    rcases hget e _ he with he | ⟨-, heq⟩
    · apply h.still e job blocks he
    · cases heq
  · exact h.silent

/-- A quiet step keeps the invariant. -/
theorem Worker.Inv.step {w w' : Worker} (h : w.Inv) (hstep : w.Step w') (hquiet : w.Quiet w') :
  w'.Inv
  := by
  cases hstep with
  | take hidle => apply h.take hidle
  | resolve job hd =>
      apply h.set hd
      · simp
      · simp
      · intro hcompleted
        cases hcompleted
      · apply h.silent.append
        intro _ _ _ heq
        cases heq
  | spawn hd =>
      apply h.set hd
      · intro e
        rw [done_mem_append_reports]
      · intro e hannounced
        left
        rwa [taskInfo_mem_append_reports] at hannounced
      · intro hcompleted
        cases hcompleted
      · apply (h.silent.append_reports (h.inPlace hd) _ _).1
  | @fetch d job blocks blocks' completed hd hstep =>
      cases completed with
      | false =>
          apply h.set hd
          · intro e
            rw [done_mem_append_reports]
          · intro e hannounced
            left
            rwa [taskInfo_mem_append_reports] at hannounced
          · intro hcompleted
            cases hcompleted
          · apply (h.silent.append_reports (h.inPlace hd) _ _).1
      | true =>
          obtain ⟨hstill, hsignals⟩ := (h.still d job blocks hd).step hstep
          rw [hsignals, List.drop_length, reports, List.map_nil, List.append_nil]
          apply h.set hd
          · intro e
            rfl
          · intro e
            exact Or.inl
          · intro _ _ _ heq
            cases heq
            exact hstill
          · exact h.silent
  | @complete d stage hd hover =>
      apply h.complete hd
      rintro job blocks rfl
      obtain ⟨hlt, -⟩ := List.getElem?_eq_some_iff.mp hd
      apply hquiet d job blocks hd (List.getElem?_set_self hlt)

theorem inv_of_quietRun {w : Worker} (h : Worker.start.QuietRun w) :
  w.Inv
  := by
  induction h with
  | refl => apply inv_start
  | tail _ hstep ih => apply ih.step hstep.1 hstep.2

/-! ### Tasks that are left -/

theorem signals_prefix_of_reachable {job : Job} {s s' : DownloadState}
    (hreach : Tasks.Reachable job.pool s s') :
  s.shared.signals <+: s'.shared.signals
  := by
  induction hreach with
  | refl => apply List.prefix_refl
  | tail _ hstep ih => apply ih.trans (signals_prefix_of_step hstep)

/-- A step in which a task finishes with its block sends a signal. -/
theorem length_signals_of_finishes {job : Job} {s s' : DownloadState}
    (hstep : Tasks.Step job.pool s s') {j : Nat} {block : BlockData}
    (hbefore : s.tasks[j]? ≠ some (.finished (.ok block)))
    (hafter : s'.tasks[j]? = some (.finished (.ok block))) :
  s'.shared.signals.length = s.shared.signals.length + 1
  := by
  cases hstep with
  | @task i t t' progress ht hstep =>
      by_cases hij : i = j
      · subst hij
        obtain ⟨hi, -⟩ := List.getElem?_eq_some_iff.mp ht
        obtain rfl := Option.some.inj ((List.getElem?_set_self hi).symm.trans hafter)
        cases taskDoes_of_step hstep with
        | asks _ hcounted => cases hcounted
        | sends => apply List.length_append
      · rw [List.getElem?_set_ne hij] at hafter
        exact absurd hafter hbefore
  | join => exact absurd hafter hbefore
  | fail => exact absurd hafter hbefore
  | finish => exact absurd hafter hbefore

/-- A task that finishes with its block sends a signal on the way. -/
theorem length_signals_lt {job : Job} {s s' : DownloadState}
    (hreach : Tasks.Reachable job.pool s s') {j : Nat} {t : Task} (ht : s.tasks[j]? = some t)
    (hresult : t.result = none) {block : BlockData}
    (hfinished : s'.tasks[j]? = some (.finished (.ok block))) :
  s.shared.signals.length < s'.shared.signals.length
  := by
  induction hreach with
  | refl =>
      obtain rfl := Option.some.inj (ht.symm.trans hfinished)
      cases hresult
  | @tail u s' hreach hstep ih =>
      by_cases hu : u.tasks[j]? = some (.finished (.ok block))
      · apply (ih hu).trans_le (signals_prefix_of_step hstep).length_le
      · have hle := (signals_prefix_of_reachable hreach).length_le
        have hlength := length_signals_of_finishes hstep hu hfinished
        omega

/-- The tasks of a download can run on, whatever else is the case, and send what they send. -/
theorem exists_quietRun_of_reachable {w : Worker} {d : Nat} {job : Job} {s s' : DownloadState}
    {completed : Bool} (hd : w.downloads[d]? = some ⟨.fetching job s, completed⟩)
    (hreach : Tasks.Reachable job.pool s s') :
  ∃ signals, s'.shared.signals = s.shared.signals ++ signals ∧ w.QuietRun {
    downloads := w.downloads.set d ⟨.fetching job s', completed⟩
    sent := w.sent ++ reports d job signals }
  := by
  obtain ⟨hlt, hget⟩ := List.getElem?_eq_some_iff.mp hd
  induction hreach with
  | refl =>
      use [], (List.append_nil _).symm
      rw [← hget, List.set_getElem_self, reports, List.map_nil, List.append_nil]
  | @tail u s' _ hstep ih =>
      obtain ⟨signals, hsignals, hrun⟩ := ih
      obtain ⟨news, hnews⟩ := signals_prefix_of_step hstep
      use signals ++ news
      constructor
      · rw [← hnews, hsignals, List.append_assoc]
      · have hd' : (w.downloads.set d ⟨.fetching job u, completed⟩)[d]?
            = some ⟨.fetching job u, completed⟩ := List.getElem?_set_self hlt
        have hfetch := Worker.Step.fetch (w := ⟨_, w.sent ++ reports d job signals⟩) hd' hstep
        rw [List.set_set, ← hnews, List.drop_left, List.append_assoc, reports, reports,
          ← List.map_append] at hfetch
        apply hrun.tail
        use hfetch
        intro e job' blocks he he'
        rcases (getElem?_set_eq_some_iff hlt).mp he' with ⟨rfl, heq⟩ | ⟨hne, he'⟩
        · obtain ⟨-, rfl⟩ := Download.mk.inj heq
          cases Option.some.inj (hd'.symm.trans he)
        · rw [List.getElem?_set_ne hne.symm, he'] at he
          cases he

/-- A step after which a download is completed has signalled it. -/
theorem done_mem_of_completed {w w' : Worker} (hstep : w.Step w') {d : Nat} {stage : Stage}
    (hd : w.downloads[d]? = some ⟨stage, false⟩) (hd' : w'.downloads[d]? = some ⟨stage, true⟩) :
  .done d ∈ w'.sent
  := by
  have hset : ∀ {e : Nat} {download : Download}, e < w.downloads.length →
      (w.downloads.set e download)[d]? = some ⟨stage, true⟩ →
      d = e ∧ download = ⟨stage, true⟩ := by
    intro e download he hget
    rcases (getElem?_set_eq_some_iff he).mp hget with ⟨rfl, rfl⟩ | ⟨-, hget⟩
    · exact ⟨rfl, rfl⟩
    · cases hd.symm.trans hget
  cases hstep with
  | take =>
      obtain ⟨hlt, -⟩ := List.getElem?_eq_some_iff.mp hd
      rw [List.getElem?_append_left hlt, hd] at hd'
      cases hd'
  | resolve job he =>
      obtain ⟨hlt, -⟩ := List.getElem?_eq_some_iff.mp he
      cases (hset hlt hd').2
  | spawn he =>
      obtain ⟨hlt, -⟩ := List.getElem?_eq_some_iff.mp he
      cases (hset hlt hd').2
  | fetch he =>
      obtain ⟨hlt, -⟩ := List.getElem?_eq_some_iff.mp he
      obtain ⟨rfl, heq⟩ := hset hlt hd'
      obtain ⟨-, rfl⟩ := Download.mk.inj heq
      cases hd.symm.trans he
  | complete he =>
      obtain ⟨hlt, -⟩ := List.getElem?_eq_some_iff.mp he
      obtain ⟨rfl, -⟩ := hset hlt hd'
      apply List.mem_append_right _ (List.mem_singleton_self _)

/-- If a download is completed while a task is left that fetches its block, that task can still send
its signal. -/
theorem exists_not_silent_of_not_quiet {w w' : Worker} (hstep : w.Step w')
    (hquiet : ¬ w.Quiet w') :
  ∃ w'', w'.QuietRun w'' ∧ ¬ Silent w''.sent
  := by
  simp only [Worker.Quiet, Still, not_forall, not_not] at hquiet
  obtain ⟨d, job, blocks, hd, hd', j, t, ht, hresult, block, houtcome⟩ := hquiet
  obtain ⟨s', t', hreach, ht', hfinished⟩ := Tasks.exists_result job.pool ht houtcome
  obtain ⟨signals, hsignals, hrun⟩ := exists_quietRun_of_reachable hd' hreach
  refine ⟨_, hrun, ?_⟩
  intro hsilent
  have hdone := done_mem_of_completed hstep hd hd'
  have hlt : blocks.shared.signals.length < s'.shared.signals.length := by
    have hfinished' : s'.tasks[j]? = some (.finished (.ok block)) := by
      cases t' with
      | finished result =>
          obtain rfl := Option.some.inj hfinished
          exact ht'
      | _ => cases hfinished
    apply length_signals_lt hreach ht hresult hfinished'
  cases signals with
  | nil =>
      rw [hsignals, List.append_nil] at hlt
      apply lt_irrefl _ hlt
  | cons c signals => exact (hsilent w'.sent _ d _ _ rfl).not_done hdone

/-- If downloads are only completed when no task of them is left that fetches its block, nothing is
sent for a completed download. As soon as one is completed earlier, something can be. -/
theorem silent_of_quietRun (w : Worker) (hw : Worker.start.QuietRun w) :
  Silent w.sent ∧ ∀ w', w.Step w' → (w.Quiet w' ↔ ∀ w'', w'.QuietRun w'' → Silent w''.sent)
  := by
  use (inv_of_quietRun hw).silent
  intro w' hstep
  constructor
  · intro hquiet w'' hrun
    apply (inv_of_quietRun ((hw.tail ⟨hstep, hquiet⟩).trans hrun)).silent
  · intro hall
    by_contra hquiet
    obtain ⟨w'', hrun, hnot⟩ := exists_not_silent_of_not_quiet hstep hquiet
    apply hnot (hall w'' hrun)

/-! ### A block that cannot be fetched -/

/-- A step that completes nothing is quiet. -/
theorem quiet_of_forall {w w' : Worker}
    (h : ∀ (d : Nat) stage, w.downloads[d]? = some ⟨stage, false⟩ →
      ∃ stage', w'.downloads[d]? = some ⟨stage', false⟩) :
  w.Quiet w'
  := by
  intro d job blocks hd hd'
  obtain ⟨stage', hstage⟩ := h d _ hd
  cases hd'.symm.trans hstage

/-- So is one from a state in which everything is completed. -/
theorem quiet_of_completed {w w' : Worker}
    (h : ∀ download ∈ w.downloads, download.completed = true) :
  w.Quiet w'
  := by
  apply quiet_of_forall
  intro d stage hd
  cases h _ (List.mem_of_getElem? hd)

/-- So is one that does not complete the last download, if the others are completed. -/
theorem quiet_of_last {downloads downloads' : List Download} {stage stage' : Stage}
    {sent sent' : List Sent} (h : ∀ download ∈ downloads, download.completed = true)
    (hlength : downloads'.length = downloads.length) :
  Worker.Quiet ⟨downloads ++ [⟨stage, false⟩], sent⟩ ⟨downloads' ++ [⟨stage', false⟩], sent'⟩
  := by
  apply quiet_of_forall
  intro d st hd
  rcases Nat.lt_or_ge d downloads.length with hlt | hge
  · rw [List.getElem?_append_left hlt] at hd
    cases h _ (List.mem_of_getElem? hd)
  · obtain ⟨hlt, -⟩ := List.getElem?_eq_some_iff.mp hd
    rw [List.length_append, List.length_singleton] at hlt
    obtain rfl : d = downloads'.length := by omega
    exact ⟨stage', List.getElem?_concat_length⟩

/-- When all downloads are completed, the next one can begin. -/
theorem quietRun_next {w : Worker} (h : ∀ download ∈ w.downloads, download.completed = true)
    (job : Job) :
  w.QuietRun {
    downloads := w.downloads ++ [⟨.fetching job job.start, false⟩]
    sent := w.sent ++ [.taskInfo w.downloads.length]
      ++ reports w.downloads.length job job.start.shared.signals }
  := by
  have hset : ∀ download download' : Download, (w.downloads ++ [download]).set w.downloads.length
      download' = w.downloads ++ [download'] := by
    intro download download'
    rw [List.set_append_right _ _ le_rfl, Nat.sub_self, List.set_cons_zero]
  have htake := Worker.Step.take h
  have hresolve := Worker.Step.resolve (w := { w with downloads := w.downloads ++ [_] }) job
    List.getElem?_concat_length
  rw [hset] at hresolve
  have hannounced : (w.downloads ++ [⟨.announced job, false⟩])[w.downloads.length]?
      = some ⟨.announced job, false⟩ := List.getElem?_concat_length
  have hspawn := Worker.Step.spawn (w := ⟨_, w.sent ++ [.taskInfo w.downloads.length]⟩) hannounced
  rw [hset] at hspawn
  exact ((Relation.ReflTransGen.single ⟨htake, quiet_of_completed h⟩).tail
    ⟨hresolve, quiet_of_last h rfl⟩).tail ⟨hspawn, quiet_of_last h rfl⟩

/-- The first download, when its tasks are spawned. -/
def Worker.begun (job : Job) (blocks : DownloadState) : Worker :=
  ⟨[⟨.fetching job blocks, false⟩], .taskInfo 0 :: reports 0 job blocks.shared.signals⟩

/-- The first download can begin. -/
theorem quietRun_begun (job : Job) :
  Worker.start.QuietRun (.begun job job.start)
  := by
  apply quietRun_next (w := .start)
  intro download hdownload
  cases hdownload

/-- So can its tasks run on. -/
theorem quietRun_begun_of_reachable {job : Job} {blocks : DownloadState}
    (hreach : Tasks.Reachable job.pool job.start blocks) :
  Worker.start.QuietRun (.begun job blocks)
  := by
  obtain ⟨signals, hsignals, hrun⟩ := exists_quietRun_of_reachable
    (w := .begun job job.start) (d := 0) rfl hreach
  rw [Worker.begun, hsignals, reports, List.map_append, ← List.cons_append]
  exact (quietRun_begun job).trans hrun

/-- The download of two blocks of which the peer fails the first one. -/
def firstFails (second : Reply) : Job := {
  twoBlocks with
  replies := fun
    | 0, _ => .failed .request
    | _, _ => second }

/-- The peer serves only the second one. -/
def secondServed : Job := firstFails (.body [98])

/-- The peer fails both. -/
def noneServed : Job := firstFails (.failed .request)

/-- Why the first task fails. -/
def firstFailure : DownloadError :=
  .allPeersFailed 0 (some (.fetchFailed .request 0 "peer"))

/-- The first task has failed, and `download_blocks` has returned. -/
def secondLeft : DownloadState :=
  ⟨[.finished (.error firstFailure), .trying 0 none], ⟨0, [0]⟩, [], some (.error firstFailure)⟩

theorem reachable_secondLeft (second : Reply) :
  Tasks.Reachable (firstFails second).pool (firstFails second).start secondLeft
  := by
  let asked : DownloadState :=
    twoTasks (.trying 1 (some (.fetchFailed .request 0 "peer"))) (.trying 0 none) 0
  let failed : DownloadState := twoTasks (.finished (.error firstFailure)) (.trying 0 none) 0
  have hask : (firstFails second).attempt 0 0 none
      = some (.trying 1 (some (.fetchFailed .request 0 "peer"))) := rfl
  have hfail : (firstFails second).attempt 0 1 (some (.fetchFailed .request 0 "peer"))
      = some (.finished (.error firstFailure)) := rfl
  have hasked : Tasks.Step (firstFails second).pool (firstFails second).start asked :=
    .task (j := 0) rfl (step_trying hask _)
  have hfailed : Tasks.Step (firstFails second).pool asked failed :=
    .task (j := 0) rfl (step_trying hfail _)
  have hreturned : Tasks.Step (firstFails second).pool failed secondLeft := .fail rfl rfl rfl
  exact ((Relation.ReflTransGen.single hasked).tail hfailed).tail hreturned

theorem candidates_firstFails (second : Reply) :
  (firstFails second).candidates 1 = twoBlocks.location.peers
  := List.rotate_singleton _ _

theorem outcome_secondLeft :
  secondServed.outcome 1 (.trying 0 none) = some (.ok (1, [98]))
  := by
  have hattempt : secondServed.attempt 1 0 none = some (.fetched (1, [98])) := by
    rw [Job.attempt, secondServed, candidates_firstFails]
    simp [firstFails, twoBlocks, fetchBlock, expectedHash, Job.blockOf]
  rw [outcome_attempt, hattempt]
  rfl

/-- Where the peer fails both blocks, the second task goes on to ask it. -/
theorem attempt_secondLeft :
  noneServed.attempt 1 0 none = some (.trying 1 (some (.fetchFailed .request 1 "peer")))
  := by
  rw [Job.attempt, noneServed, candidates_firstFails]
  rfl

/-- It does not fetch its block. -/
theorem still_secondLeft :
  Still noneServed secondLeft
  := by
  intro j t ht hresult block houtcome
  have hfail : noneServed.attempt 1 1 (some (.fetchFailed .request 1 "peer"))
      = some (.finished (.error (.allPeersFailed 1 (some (.fetchFailed .request 1 "peer"))))) := by
    rw [Job.attempt, noneServed, candidates_firstFails]
    rfl
  cases j with
  | zero =>
      obtain rfl := Option.some.inj ht
      cases hresult
  | succ j =>
      cases j with
      | zero =>
          obtain rfl := Option.some.inj ht
          rw [zero_add, outcome_attempt, attempt_secondLeft, Option.bind_some, outcome_attempt,
            hfail] at houtcome
          cases houtcome
      | succ j => cases ht

/-- So its completion is quiet. -/
theorem quiet_secondLeft {w' : Worker} :
  (Worker.begun noneServed secondLeft).Quiet w'
  := by
  intro d job blocks hd _
  cases d with
  | zero =>
      cases hd
      exact still_secondLeft
  | succ d => cases hd

end Sha256

/-- A download of which both blocks fail is completed while its second task goes on, and the next
one has begun. -/
theorem silent_of_quietRun_twoDownloads :
  let _ := Sha256.short
  let w : Worker := {
    downloads := [⟨.fetching noneServed secondLeft, true⟩,
      ⟨.fetching twoBlocks twoBlocks.start, false⟩]
    sent := [.taskInfo 0, .progressUpdate 0 0 2, .done 0, .taskInfo 1, .progressUpdate 1 0 2] }
  Silent w.sent ∧ ∃ blocks, blocks ≠ secondLeft ∧
    let w' := { w with downloads := w.downloads.set 0 ⟨.fetching noneServed blocks, true⟩ }
    w.Step w' ∧ ∀ w'', w'.QuietRun w'' → Silent w''.sent
  := by
  intro _ w
  have hcomplete : (Worker.begun noneServed secondLeft).Step {
      downloads := [⟨.fetching noneServed secondLeft, true⟩]
      sent := [.taskInfo 0, .progressUpdate 0 0 2, .done 0] } := .complete (d := 0) rfl rfl
  have hdone : ∀ download ∈ [Download.mk (.fetching noneServed secondLeft) true],
      download.completed = true := by
    intro download hdownload
    rw [List.mem_singleton.mp hdownload]
  have hrun : Worker.start.QuietRun w :=
    ((quietRun_begun_of_reachable (reachable_secondLeft (.failed .request))).tail
      ⟨hcomplete, quiet_secondLeft⟩).trans (quietRun_next hdone twoBlocks)
  have hask : Tasks.Step noneServed.pool secondLeft
      ⟨[.finished (.error firstFailure), .trying 1 (some (.fetchFailed .request 1 "peer"))],
        ⟨0, [0]⟩, [], some (.error firstFailure)⟩ :=
    .task (j := 1) rfl (step_trying attempt_secondLeft _)
  have hfetch := Worker.Step.fetch (w := w) (d := 0) rfl hask
  have hsilent := silent_of_quietRun w hrun
  refine ⟨hsilent.1, _, ?_, hfetch, (hsilent.2 _ hfetch).mp ?_⟩
  · intro heq
    cases heq
  · have hlast : ∀ download, Worker.Quiet ⟨[⟨.fetching noneServed secondLeft, true⟩] ++
        [⟨.fetching twoBlocks twoBlocks.start, false⟩], w.sent⟩ ⟨[download] ++
          [⟨.fetching twoBlocks twoBlocks.start, false⟩], w.sent⟩ :=
      fun _ => quiet_of_last hdone rfl
    exact hlast _

/-- It is not the case that completed downloads are silent: when the first block fails, the task of
the second one goes on. -/
theorem not_silent_secondServed :
  let _ := Sha256.short
  ¬ ∀ w, Relation.ReflTransGen Worker.Step .start w → Silent w.sent
  := by
  intro _ hall
  have hrun := quietRun_begun_of_reachable (reachable_secondLeft (.body [98]))
  let completed : Worker := {
    downloads := [⟨.fetching secondServed secondLeft, true⟩]
    sent := (Worker.begun secondServed secondLeft).sent ++ [.done 0] }
  have hcomplete : (Worker.begun secondServed secondLeft).Step completed := .complete (d := 0) rfl rfl
  have hquiet : ¬ (Worker.begun secondServed secondLeft).Quiet completed := by
    intro hquiet
    apply hquiet 0 secondServed secondLeft rfl rfl 1 (.trying 0 none) rfl rfl (1, [98])
    apply outcome_secondLeft
  obtain ⟨w', hrun', hnot⟩ := exists_not_silent_of_not_quiet hcomplete hquiet
  have hsteps : ∀ {w w' : Worker}, w.QuietRun w' → Relation.ReflTransGen Worker.Step w w' := by
    intro w w' hrun
    induction hrun with
    | refl => apply Relation.ReflTransGen.refl
    | tail _ hstep ih => apply ih.tail hstep.1
  apply hnot
  apply hall
  exact ((hsteps hrun).tail hcomplete).trans (hsteps hrun')

end Node
