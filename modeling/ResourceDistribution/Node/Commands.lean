import Mathlib.Data.List.Nodup
import ResourceDistribution.Data.Relay

/-!
# Commands

Whoever holds a `command_tx` sends commands to `command_loop`, which sends them on to the worker
until it meets a `Shutdown`. The flag that is then set races with the commands that still wait for
the worker: it may take some of them before it stops. The commands that it starts are the first
ones that were sent (`executed_in_order`).
-/

namespace Node

/-- The sender of a oneshot channel. It is not copied, so that every command has its own. -/
abbrev CommandDone := Nat

inductive RuntimeCommand where
  | shutdown
  | publishLocalFiles (done : CommandDone)
  | listTrackerFiles (done : CommandDone)
  | download (target : String) (done : CommandDone)
  | markOffline (done : CommandDone)
  deriving DecidableEq

namespace RuntimeCommand

/-- The channel that `handle` resolves when the command has been executed, also if it failed. -/
def done? : RuntimeCommand → Option CommandDone
  | .shutdown => none
  | .publishLocalFiles done => some done
  | .listTrackerFiles done => some done
  | .download _ done => some done
  | .markOffline done => some done

def isShutdown : RuntimeCommand → Bool
  | .shutdown => true
  | _ => false

theorem isShutdown_eq_false {command : RuntimeCommand} (h : command ≠ .shutdown) :
  command.isShutdown = false
  := by
  cases command with
  | shutdown => cases h rfl
  | publishLocalFiles => rfl
  | listTrackerFiles => rfl
  | download => rfl
  | markOffline => rfl

end RuntimeCommand

/-- How a task ended: `run` of it returned, it panicked, or it was aborted. -/
inductive TaskEnd where
  | ok
  | error (message : String)
  | panicked
  | cancelled
  deriving DecidableEq

/-- Where `transfer_worker::run` is: in its `select!`, in `handle`, or at its end. -/
inductive WorkerTask where
  | selecting
  | handling (command : RuntimeCommand)
  | ended (how : TaskEnd)
  deriving DecidableEq

/-- The commands that the worker has begun and not finished. -/
def WorkerTask.current : WorkerTask → List RuntimeCommand
  | .handling command => [command]
  | _ => []

@[simp]
theorem WorkerTask.current_selecting :
  selecting.current = []
  := rfl

@[simp]
theorem WorkerTask.current_handling (command : RuntimeCommand) :
  (handling command).current = [command]
  := rfl

/-- Whether `worker_rx` still exists. -/
def WorkerTask.Alive : WorkerTask → Prop
  | .ended _ => False
  | _ => True

instance (t : WorkerTask) : Decidable t.Alive := by
  cases t with
  | selecting => exact .isTrue trivial
  | handling => exact .isTrue trivial
  | ended => exact .isFalse id

/-- The channels of the commands, whether `command_loop` still runs, the flag that is watched, the
worker, the commands that it has started and finished, and the channels that it has resolved. -/
structure Commands where
  commands : Channel RuntimeCommand
  forwarded : Channel RuntimeCommand
  looping : Bool
  shutdown : Bool
  worker : WorkerTask
  started : List RuntimeCommand
  finished : List RuntimeCommand
  resolved : List CommandDone

namespace Commands

/-- No command has been sent. -/
def start : Commands := ⟨.empty, .empty, true, false, .selecting, [], [], []⟩

/-- `command_tx.send`: the receiver exists as long as `run` does. -/
def send (s : Commands) (command : RuntimeCommand) : Commands :=
  { s with commands := s.commands.send command }

/-- `request_shutdown`, when `command_loop` is over or is dropped by the `select!` of `run`. -/
def leave (s : Commands) : Commands := { s with looping := false, shutdown := true }

/-- The task of the worker was aborted, and ends at its next await. -/
def abort (s : Commands) : Commands := { s with worker := .ended .cancelled }

/-- No command that was sent has this channel. -/
def Fresh (s : Commands) (command : RuntimeCommand) : Prop :=
  ∀ done ∈ command.done?, done ∉ s.commands.sent.filterMap RuntimeCommand.done?

/-- A command with this channel waits or is being executed, so that the channel is not closed. -/
def Pending (s : Commands) (done : CommandDone) : Prop :=
  ∃ command, command.done? = some done ∧
    (command ∈ s.commands.waiting ∨
      s.worker.Alive ∧ (command ∈ s.forwarded.waiting ∨ command ∈ s.worker.current))

/-- `command_loop` receives a command. It sends it to the worker, or ends: the worker is gone, or the
command is `Shutdown`. -/
inductive LoopStep : Commands → Commands → Prop where
  | forward {s : Commands} {command : RuntimeCommand} {commands : Channel RuntimeCommand}
      (hlooping : s.looping = true) (hrecv : s.commands.recv? = some (command, commands))
      (hcommand : command ≠ .shutdown) (halive : s.worker.Alive) :
      LoopStep s { s with commands := commands, forwarded := s.forwarded.send command }
  | refused {s : Commands} {command : RuntimeCommand} {commands : Channel RuntimeCommand}
      (hlooping : s.looping = true) (hrecv : s.commands.recv? = some (command, commands))
      (hcommand : command ≠ .shutdown) (hended : ¬ s.worker.Alive) :
      LoopStep s { s with commands := commands }.leave
  | shutdown {s : Commands} {commands : Channel RuntimeCommand}
      (hlooping : s.looping = true) (hrecv : s.commands.recv? = some (.shutdown, commands)) :
      LoopStep s { s with commands := commands }.leave

/-- `transfer_worker::run` takes the next command, and breaks if it is `Shutdown`, or sees that the
flag is set, and breaks. `handle` ends by resolving the channel of the command, unless it panics.
Neither channel of the `select!` is closed: `worker_tx` and `shutdown_tx` are variables of
`node_runtime::run`, with which the process ends. -/
inductive WorkerStep : Commands → Commands → Prop where
  | take {s : Commands} {command : RuntimeCommand} {forwarded : Channel RuntimeCommand}
      (hselecting : s.worker = .selecting)
      (hrecv : s.forwarded.recv? = some (command, forwarded)) (hcommand : command ≠ .shutdown) :
      WorkerStep s {
        s with
        forwarded := forwarded
        worker := .handling command
        started := s.started ++ [command] }
  | shutdown {s : Commands} {forwarded : Channel RuntimeCommand}
      (hselecting : s.worker = .selecting)
      (hrecv : s.forwarded.recv? = some (.shutdown, forwarded)) :
      WorkerStep s { s with forwarded := forwarded, worker := .ended .ok }
  | changed {s : Commands} (hselecting : s.worker = .selecting) (hshutdown : s.shutdown = true) :
      WorkerStep s { s with worker := .ended .ok }
  | finish {s : Commands} {command : RuntimeCommand} (hhandling : s.worker = .handling command) :
      WorkerStep s {
        s with
        worker := .selecting
        finished := s.finished ++ [command]
        resolved := s.resolved ++ command.done?.toList }
  | panic {s : Commands} {command : RuntimeCommand} (hhandling : s.worker = .handling command) :
      WorkerStep s { s with worker := .ended .panicked }

/-- Somebody sends a command, `command_loop` or the worker goes on, another branch of the `select!`
of `run` drops `command_loop`, or `run` aborts the worker. -/
inductive Step : Commands → Commands → Prop where
  | send (s : Commands) (command : RuntimeCommand) (hfresh : s.Fresh command) :
      Step s (s.send command)
  | commandLoop {s s' : Commands} (h : LoopStep s s') : Step s s'
  | worker {s s' : Commands} (h : WorkerStep s s') : Step s s'
  | leave (s : Commands) : Step s s.leave
  | abort (s : Commands) : Step s s.abort

/-- Some schedule leads from one state to the other. -/
abbrev Run : Commands → Commands → Prop := Relation.ReflTransGen Step

/-! ### The relay -/

/-- `command_loop` as a relay between the two channels. -/
def relay (s : Commands) : Relay RuntimeCommand := ⟨s.commands, s.forwarded, s.looping⟩

/-- A step is one of the relay, or leaves it as it is. -/
theorem relay_step {s s' : Commands} (h : Step s s') :
  Relay.Step RuntimeCommand.isShutdown s.relay s'.relay ∨ s'.relay = s.relay
  := by
  cases h with
  | send => exact .inl (.send s.relay _)
  | commandLoop h =>
      left
      cases h with
      | forward hlooping hrecv hcommand =>
          exact .pass hlooping hrecv (RuntimeCommand.isShutdown_eq_false hcommand)
      | refused _ hrecv => exact .lose hrecv
      | shutdown _ hrecv => exact .lose hrecv
  | worker h =>
      cases h with
      | take _ hrecv => exact .inl (.deliver hrecv)
      | shutdown _ hrecv => exact .inl (.deliver hrecv)
      | changed => exact .inr rfl
      | finish => exact .inr rfl
      | panic => exact .inr rfl
  | leave => exact .inl (.halt s.relay)
  | abort => exact .inr rfl

/-- A step keeps what was sent. -/
theorem sent_prefix_of_step {s s' : Commands} (h : Step s s') :
  s.commands.sent <+: s'.commands.sent
  := by
  cases h with
  | send command =>
      rw [send, Channel.sent_send]
      apply List.prefix_append
  | commandLoop h =>
      cases h with
      | forward _ hrecv => rw [Channel.sent_of_recv? hrecv]
      | refused _ hrecv => rw [leave, Channel.sent_of_recv? hrecv]
      | shutdown _ hrecv => rw [leave, Channel.sent_of_recv? hrecv]
  | worker h => cases h <;> exact List.prefix_rfl
  | leave => exact List.prefix_rfl
  | abort => exact List.prefix_rfl

/-! ### What is started and finished -/

/-- The worker has started all that was delivered to it, finished it one after another, and resolved
what it has finished. -/
structure Orderly (s : Commands) : Prop where
  faithful : s.relay.Faithful RuntimeCommand.isShutdown
  started_eq : s.started = s.forwarded.received
  finished_eq : s.worker.Alive → s.started = s.finished ++ s.worker.current
  finished_prefix_started : s.finished <+: s.started
  resolved_eq : s.resolved = s.finished.filterMap RuntimeCommand.done?
  done_nodup : (s.commands.sent.filterMap RuntimeCommand.done?).Nodup

theorem orderly_start :
  start.Orderly
  := by
  constructor
  · apply Relay.faithful_start
  · rfl
  · intro
    rfl
  · apply List.prefix_refl
  · rfl
  · apply List.nodup_nil

/-- One more command that was sent has its own channel. -/
theorem nodup_send {s : Commands} {command : RuntimeCommand} (hfresh : s.Fresh command)
    (h : (s.commands.sent.filterMap RuntimeCommand.done?).Nodup) :
  ((s.send command).commands.sent.filterMap RuntimeCommand.done?).Nodup
  := by
  rw [send, Channel.sent_send, List.filterMap_append]
  apply h.append
  · cases hdone : command.done? with
    | none => simp [hdone]
    | some done => simp [hdone]
  · intro done hsent hmem
    apply hfresh done _ hsent
    simpa using hmem

/-- An iteration of `command_loop` changes nothing for the worker. -/
theorem LoopStep.worker_eq {s s' : Commands} (h : LoopStep s s') :
  s'.commands.sent = s.commands.sent ∧ s'.forwarded.received = s.forwarded.received
    ∧ s'.worker = s.worker ∧ s'.started = s.started ∧ s'.finished = s.finished
    ∧ s'.resolved = s.resolved
  := by
  cases h with
  | forward _ hrecv => exact ⟨Channel.sent_of_recv? hrecv, rfl, rfl, rfl, rfl, rfl⟩
  | refused _ hrecv => exact ⟨Channel.sent_of_recv? hrecv, rfl, rfl, rfl, rfl, rfl⟩
  | shutdown _ hrecv => exact ⟨Channel.sent_of_recv? hrecv, rfl, rfl, rfl, rfl, rfl⟩

/-- A step of the worker keeps it orderly. A `Shutdown` is never delivered to it. -/
theorem Orderly.workerStep {s s' : Commands} (h : s.Orderly) (hstep : WorkerStep s s')
    (hfaithful : s'.relay.Faithful RuntimeCommand.isShutdown) :
  s'.Orderly
  := by
  obtain ⟨-, hstarted, hcurrent, hfinished, hresolved, hnodup⟩ := h
  cases hstep with
  | @take command forwarded hselecting hrecv hcommand =>
      rw [hselecting, WorkerTask.current_selecting, List.append_nil] at hcurrent
      have heq := hcurrent trivial
      constructor
      · exact hfaithful
      · rw [Channel.received_of_recv? hrecv, hstarted]
      · intro
        change s.started ++ [command] = s.finished ++ [command]
        rw [heq]
      · apply hfinished.trans (List.prefix_append _ _)
      · exact hresolved
      · exact hnodup
  | @shutdown forwarded hselecting hrecv =>
      have hmem : RuntimeCommand.shutdown ∈ forwarded.sent := by
        apply forwarded.received_prefix_sent.subset
        rw [Channel.received_of_recv? hrecv]
        apply List.mem_append_right _ (List.mem_singleton_self _)
      cases hfaithful.not_stop _ hmem
  | changed =>
      constructor
      · exact hfaithful
      · exact hstarted
      · intro halive
        cases halive
      · exact hfinished
      · exact hresolved
      · exact hnodup
  | @finish command hhandling =>
      rw [hhandling, WorkerTask.current_handling] at hcurrent
      have heq := hcurrent trivial
      constructor
      · exact hfaithful
      · exact hstarted
      · intro
        rw [heq, WorkerTask.current_selecting, List.append_nil]
      · rw [heq]
      · rw [List.filterMap_append, ← hresolved]
        cases hdone : command.done? with
        | none => simp [hdone]
        | some done => simp [hdone]
      · exact hnodup
  | panic =>
      constructor
      · exact hfaithful
      · exact hstarted
      · intro halive
        cases halive
      · exact hfinished
      · exact hresolved
      · exact hnodup

/-- Steps keep the commands orderly. -/
theorem Orderly.step {s s' : Commands} (h : s.Orderly) (hstep : Step s s') :
  s'.Orderly
  := by
  have hfaithful : s'.relay.Faithful RuntimeCommand.isShutdown := by
    rcases relay_step hstep with hrelay | hrelay
    · apply h.faithful.step hrelay
    · rw [hrelay]
      exact h.faithful
  cases hstep with
  | send command hfresh =>
      exact { h with faithful := hfaithful, done_nodup := nodup_send hfresh h.done_nodup }
  | commandLoop hstep =>
      obtain ⟨hsent, hreceived, hworker, hstarted, hfinished, hresolved⟩ := hstep.worker_eq
      constructor
      · exact hfaithful
      · rw [hstarted, hreceived]
        exact h.started_eq
      · rw [hworker, hstarted, hfinished]
        exact h.finished_eq
      · rw [hstarted, hfinished]
        exact h.finished_prefix_started
      · rw [hresolved, hfinished]
        exact h.resolved_eq
      · rw [hsent]
        exact h.done_nodup
  | worker hstep => apply h.workerStep hstep hfaithful
  | leave => exact { h with faithful := hfaithful }
  | abort =>
      refine { h with faithful := hfaithful, finished_eq := ?_ }
      intro halive
      cases halive

/-- Whatever the schedule, the commands stay orderly. -/
theorem orderly_of_run {s : Commands} (h : Run start s) :
  s.Orderly
  := by
  induction h with
  | refl => apply orderly_start
  | tail _ hstep ih => apply ih.step hstep

/-- The commands that were started are the first ones that were sent, up to a `Shutdown`. -/
theorem Orderly.started_prefix_takeWhile {s : Commands} (h : s.Orderly) :
  s.started <+: s.commands.sent.takeWhile fun command => !command.isShutdown
  := by
  rw [h.started_eq]
  apply h.faithful.received_prefix_takeWhile

/-- No channel is resolved twice. -/
theorem Orderly.resolved_nodup {s : Commands} (h : s.Orderly) :
  s.resolved.Nodup
  := by
  rw [h.resolved_eq]
  apply List.Nodup.sublist _ h.done_nodup
  apply List.Sublist.filterMap
  have hstarted := h.started_prefix_takeWhile.trans (List.takeWhile_prefix _)
  apply (h.finished_prefix_started.trans hstarted).sublist

/-- Whatever is sent, and in any interleaving: the commands that the worker starts are a prefix of
those that were sent before the first `Shutdown`. It finishes them in this order, and every command
that it has finished has resolved its channel, once; no other channel is resolved. -/
theorem executed_in_order (s : Commands) (h : Run start s) :
  s.started <+: (s.commands.sent.takeWhile fun command => !command.isShutdown) ∧
    s.finished <+: s.started ∧
    (∀ command ∈ s.finished, ∃ done, command.done? = some done ∧ s.resolved.count done = 1) ∧
    ∀ done ∈ s.resolved, ∃ command ∈ s.finished, command.done? = some done
  := by
  have horderly := orderly_of_run h
  have hmem : ∀ done, done ∈ s.resolved ↔ ∃ command ∈ s.finished, command.done? = some done := by
    intro done
    rw [horderly.resolved_eq, List.mem_filterMap]
  refine ⟨horderly.started_prefix_takeWhile, horderly.finished_prefix_started, ?_, ?_⟩
  · intro command hfinished
    have hstarted := horderly.finished_prefix_started.subset hfinished
    have hsent := horderly.started_prefix_takeWhile.subset hstarted
    have hnot := List.mem_takeWhile_imp hsent
    obtain ⟨done, hdone⟩ : ∃ done, command.done? = some done := by
      cases command with
      | shutdown => cases hnot
      | publishLocalFiles done => exact ⟨done, rfl⟩
      | listTrackerFiles done => exact ⟨done, rfl⟩
      | download _ done => exact ⟨done, rfl⟩
      | markOffline done => exact ⟨done, rfl⟩
    use done, hdone
    apply List.count_eq_one_of_mem horderly.resolved_nodup
    exact (hmem done).mpr ⟨command, hfinished, hdone⟩
  · intro done hdone
    exact (hmem done).mp hdone

/-! ### A command and a `Shutdown` -/

/-- A command and a `Shutdown` were sent, and `command_loop` has sent the command on and ended. -/
def published : Commands := { start with
  commands := ⟨[.publishLocalFiles 0, .shutdown], []⟩
  forwarded := ⟨[], [.publishLocalFiles 0]⟩
  looping := false
  shutdown := true }

theorem run_published :
  Run start published
  := by
  let publish := RuntimeCommand.publishLocalFiles 0
  let forwarded : Commands :=
    { start with commands := ⟨[publish], [.shutdown]⟩, forwarded := ⟨[], [publish]⟩ }
  have hpublish : start.Fresh publish := by
    intro done _ hmem
    cases hmem
  have hshutdown : (start.send publish).Fresh .shutdown := by
    intro done hdone
    cases hdone
  have hforwarded : Step ((start.send publish).send .shutdown) forwarded := by
    apply Step.commandLoop
    apply LoopStep.forward rfl rfl
    · decide
    · trivial
  have hstopped : Step forwarded published :=
    .commandLoop (@LoopStep.shutdown forwarded _ rfl rfl)
  have hsent : Run start ((start.send publish).send .shutdown) := by
    apply Relation.ReflTransGen.head (.send start publish hpublish)
    exact .single (.send _ .shutdown hshutdown)
  exact (hsent.tail hforwarded).tail hstopped

/-- The worker executes the command before it stops. -/
theorem executed_in_order_publish :
  let publish := RuntimeCommand.publishLocalFiles 0
  let s : Commands := {
    commands := ⟨[publish, .shutdown], []⟩
    forwarded := ⟨[publish], []⟩
    looping := false
    shutdown := true
    worker := .ended .ok
    started := [publish]
    finished := [publish]
    resolved := [0] }
  s.started <+: (s.commands.sent.takeWhile fun command => !command.isShutdown) ∧
    s.finished <+: s.started ∧
    (∀ command ∈ s.finished, ∃ done, command.done? = some done ∧ s.resolved.count done = 1) ∧
    ∀ done ∈ s.resolved, ∃ command ∈ s.finished, command.done? = some done
  := by
  intro publish s
  apply executed_in_order
  let handling : Commands := { published with
    forwarded := s.forwarded
    worker := .handling publish
    started := [publish] }
  let handled : Commands := { s with worker := .selecting }
  have htaken : Step published handling := by
    apply Step.worker
    apply @WorkerStep.take published publish _ rfl rfl
    decide
  have hhandled : Step handling handled := .worker (@WorkerStep.finish handling publish rfl)
  have hended : Step handled s := .worker (@WorkerStep.changed handled rfl rfl)
  exact ((run_published.tail htaken).tail hhandled).tail hended

end Commands

end Node
