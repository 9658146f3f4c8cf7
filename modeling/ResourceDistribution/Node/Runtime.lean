import ResourceDistribution.Data.Broadcast
import ResourceDistribution.Node.Console

/-!
# The runtime of a node

The tasks that `node_runtime::run` starts: the peer server, the worker, the console, and the
forwarder of broadcast signals. `run` waits in a `select!` for `command_loop` or for one of the
first three, and then for the peer server and the worker, for two seconds each. It does not tell the
console to stop, and does not wait for it: the terminal is restored in all runs in which the
`select!` is left only after the console has ended, and otherwise it need not be
(`restored_of_awaited`).
-/

namespace Node

inductive BroadcastSignal where
  | shutdown
  | taskInfo (fileName : String) (fileSize : Nat) (fileHash : String)
  | progressUpdate (downloadedBlocks totalBlocks : Nat)
  | consoleLog (msg : String)
  deriving DecidableEq

/-- How many signals the broadcast channel retains. -/
def broadcastCapacity : Nat := 32

/-- What `init_tui` does to the terminal. The results of these calls are ignored. -/
inductive TerminalCall where
  | enableRawMode
  | enterAlternateScreen
  | disableRawMode
  | leaveAlternateScreen
  deriving DecidableEq

/-- Where `init_tui` is: before one of its calls, before `Terminal::new`, in the loop of `Tui::run`,
where it may await a command, or at its end. -/
inductive TuiTask where
  | enabling
  | entering
  | building
  | looping (tui : Tui)
  | awaiting (tui : Tui) (done : CommandDone)
  | disabling
  | leaving
  | returned
  | panicked
  deriving DecidableEq

/-- The calls that `init_tui` has made. -/
def TuiTask.calls : TuiTask → List TerminalCall
  | .enabling => []
  | .entering => [.enableRawMode]
  | .leaving => [.enableRawMode, .enterAlternateScreen, .disableRawMode]
  | .returned => [.enableRawMode, .enterAlternateScreen, .disableRawMode, .leaveAlternateScreen]
  | _ => [.enableRawMode, .enterAlternateScreen]

/-- The task that forwards a broadcast `Shutdown`, with its position in the channel. -/
inductive Forwarder where
  | spawned
  | receiving (next : Nat)
  | ended
  deriving DecidableEq

/-- The branch of the `select!` of `run` that fired. -/
inductive CompletedTask where
  | command
  | peerServer
  | transferWorker
  | tui
  deriving DecidableEq

/-- Where `run` is: in its `select!`, in `await_task` for one of two tasks, or at its end. -/
inductive RunTask where
  | selecting
  | awaitingPeer (completed : CompletedTask)
  | awaitingTransfer
  | returned (result : Except String Unit)

namespace RunTask

def Running : RunTask → Prop
  | .returned _ => False
  | _ => True

/-- `run` after `await_task` for the peer server, or without it. -/
def afterPeer (completed : CompletedTask) : RunTask :=
  if completed ≠ .transferWorker then .awaitingTransfer else .returned (.ok ())

/-- `run` after its `select!`. -/
def afterSelect (completed : CompletedTask) : RunTask :=
  if completed ≠ .peerServer then .awaitingPeer completed else afterPeer completed

/-- `run` when a task ends that it selects on. -/
def selected (name : String) (next : RunTask) : TaskEnd → RunTask
  | .ok => next
  | .error message => .returned (.error message)
  | .panicked => .returned (.error (name ++ " task panicked"))
  | .cancelled => .returned (.error (name ++ " task panicked"))

/-- `run` when a task ends that it awaits: what the task returned is ignored. -/
def joined (name : String) (next : RunTask) : TaskEnd → RunTask
  | .ok => next
  | .error _ => next
  | .panicked => .returned (.error (name ++ " task failed to join"))
  | .cancelled => .returned (.error (name ++ " task failed to join"))

end RunTask

/-- The state of all tasks, the broadcast channel, and the calls that were made on the terminal. -/
structure Runtime where
  commands : Commands
  signals : Broadcast BroadcastSignal
  peer : Option TaskEnd
  tui : TuiTask
  forwarder : Forwarder
  run : RunTask
  calls : List TerminalCall

namespace Runtime

/-- `run` has just spawned its tasks. -/
def start : Runtime := ⟨.start, .empty, none, .enabling, .spawned, .selecting, []⟩

/-- A step of `init_tui`. The loop of `Tui::run` ends with a `Shutdown` signal, or when `draw` fails.
A tick of its interval and an event that is no key change nothing here. -/
inductive TuiStep : Runtime → Runtime → Prop where
  | enableRawMode {s : Runtime} (htui : s.tui = .enabling) :
      TuiStep s { s with tui := .entering, calls := s.calls ++ [.enableRawMode] }
  | enterAlternateScreen {s : Runtime} (htui : s.tui = .entering) :
      TuiStep s { s with tui := .building, calls := s.calls ++ [.enterAlternateScreen] }
  | terminal {s : Runtime} (htui : s.tui = .building) :
      TuiStep s { s with tui := .looping ⟨"", s.signals.subscribe⟩ }
  | noTerminal {s : Runtime} (htui : s.tui = .building) : TuiStep s { s with tui := .disabling }
  | drawError {s : Runtime} {tui : Tui} (htui : s.tui = .looping tui) :
      TuiStep s { s with tui := .disabling }
  | shutdown {s : Runtime} {tui : Tui} {next : Nat} (htui : s.tui = .looping tui)
      (hrecv : s.signals.recv broadcastCapacity tui.rx = .ok .shutdown next) :
      TuiStep s { s with tui := .disabling }
  | signal {s : Runtime} {tui : Tui} {signal : BroadcastSignal} {next : Nat}
      (htui : s.tui = .looping tui)
      (hrecv : s.signals.recv broadcastCapacity tui.rx = .ok signal next)
      (hsignal : signal ≠ .shutdown) :
      TuiStep s { s with tui := .looping { tui with rx := next } }
  | lagged {s : Runtime} {tui : Tui} {next : Nat} (htui : s.tui = .looping tui)
      (hrecv : s.signals.recv broadcastCapacity tui.rx = .lagged next) :
      TuiStep s { s with tui := .looping { tui with rx := next } }
  | press {s : Runtime} {tui tui' : Tui} {done : CommandDone} (key : KeyCode)
      (htui : s.tui = .looping tui) (hpress : tui.press done key = (tui', none)) :
      TuiStep s { s with tui := .looping tui' }
  | send {s : Runtime} {tui tui' : Tui} {done : CommandDone} {request : ConsoleRequest}
      (key : KeyCode) (htui : s.tui = .looping tui)
      (hpress : tui.press done key = (tui', some request))
      (hfresh : s.commands.Fresh request.command) :
      TuiStep s {
        s with
        commands := s.commands.send request.command
        tui := if request.awaits then .awaiting tui' done else .looping tui' }
  | resume {s : Runtime} {tui : Tui} {done : CommandDone} (htui : s.tui = .awaiting tui done)
      (hdone : done ∈ s.commands.resolved ∨ ¬ s.commands.Pending done) :
      TuiStep s { s with tui := .looping tui }
  | panic {s : Runtime} {tui : Tui} (htui : s.tui = .looping tui) :
      TuiStep s { s with tui := .panicked }
  | disableRawMode {s : Runtime} (htui : s.tui = .disabling) :
      TuiStep s { s with tui := .leaving, calls := s.calls ++ [.disableRawMode] }
  | leaveAlternateScreen {s : Runtime} (htui : s.tui = .leaving) :
      TuiStep s { s with tui := .returned, calls := s.calls ++ [.leaveAlternateScreen] }

/-- A step of the worker or of a task that downloads a block, of the peer server, or of the
forwarder. The worker broadcasts everything but `Shutdown`. The peer server ends without an error
only if it sees the flag. -/
inductive TaskStep : Runtime → Runtime → Prop where
  | worker {s : Runtime} {commands : Commands} (h : s.commands.WorkerStep commands) :
      TaskStep s { s with commands := commands }
  | broadcast {s : Runtime} {signal : BroadcastSignal} (hsignal : signal ≠ .shutdown) :
      TaskStep s { s with signals := s.signals.send signal }
  | peer {s : Runtime} {how : TaskEnd} (hpeer : s.peer = none) (hcancelled : how ≠ .cancelled)
      (hok : how = .ok → s.commands.shutdown = true) :
      TaskStep s { s with peer := some how }
  | subscribe {s : Runtime} (hforwarder : s.forwarder = .spawned) :
      TaskStep s { s with forwarder := .receiving s.signals.subscribe }
  | forward {s : Runtime} {next next' : Nat} (hforwarder : s.forwarder = .receiving next)
      (hrecv : s.signals.recv broadcastCapacity next = .ok .shutdown next') :
      TaskStep s { s with commands := s.commands.send .shutdown, forwarder := .ended }
  | ignore {s : Runtime} {next next' : Nat} {signal : BroadcastSignal}
      (hforwarder : s.forwarder = .receiving next)
      (hrecv : s.signals.recv broadcastCapacity next = .ok signal next')
      (hsignal : signal ≠ .shutdown) :
      TaskStep s { s with forwarder := .receiving next' }
  | lagged {s : Runtime} {next next' : Nat} (hforwarder : s.forwarder = .receiving next)
      (hrecv : s.signals.recv broadcastCapacity next = .lagged next') :
      TaskStep s { s with forwarder := .ended }

/-- A step of `run`: `command_loop` goes on, a branch of the `select!` fires, or `await_task` is
over, because the task has ended or after two seconds. -/
inductive RunStep : Runtime → Runtime → Prop where
  | commandLoop {s : Runtime} {commands : Commands} (hrun : s.run = .selecting)
      (h : s.commands.LoopStep commands) (hlooping : commands.looping = true) :
      RunStep s { s with commands := commands }
  | command {s : Runtime} {commands : Commands} (hrun : s.run = .selecting)
      (h : s.commands.LoopStep commands) (hends : commands.looping = false) :
      RunStep s { s with commands := commands, run := .afterSelect .command }
  | peer {s : Runtime} {how : TaskEnd} (hrun : s.run = .selecting) (hpeer : s.peer = some how) :
      RunStep s {
        s with
        commands := s.commands.leave
        run := .selected "peer server" (.afterSelect .peerServer) how }
  | transfer {s : Runtime} {how : TaskEnd} (hrun : s.run = .selecting)
      (hworker : s.commands.worker = .ended how) :
      RunStep s {
        s with
        commands := s.commands.leave
        run := .selected "transfer worker" (.afterSelect .transferWorker) how }
  | tui {s : Runtime} (hrun : s.run = .selecting) (htui : s.tui = .returned) :
      RunStep s { s with commands := s.commands.leave, run := .afterSelect .tui }
  | tuiPanicked {s : Runtime} (hrun : s.run = .selecting) (htui : s.tui = .panicked) :
      RunStep s {
        s with
        commands := s.commands.leave
        run := .selected "TUI" (.afterSelect .tui) .panicked }
  | peerJoined {s : Runtime} {completed : CompletedTask} {how : TaskEnd}
      (hrun : s.run = .awaitingPeer completed) (hpeer : s.peer = some how) :
      RunStep s { s with run := .joined "peer server" (.afterPeer completed) how }
  -- The peer server is aborted, which nobody observes.
  | peerTimesOut {s : Runtime} {completed : CompletedTask}
      (hrun : s.run = .awaitingPeer completed) :
      RunStep s { s with run := .afterPeer completed }
  | transferJoined {s : Runtime} {how : TaskEnd} (hrun : s.run = .awaitingTransfer)
      (hworker : s.commands.worker = .ended how) :
      RunStep s { s with run := .joined "transfer worker" (.returned (.ok ())) how }
  | transferTimesOut {s : Runtime} (hrun : s.run = .awaitingTransfer) :
      RunStep s { s with commands := s.commands.abort, run := .returned (.ok ()) }

/-- A step of the process, which ends when `run` returns: the other tasks are dropped. -/
inductive Step : Runtime → Runtime → Prop where
  | tui {s s' : Runtime} (hrunning : s.run.Running) (h : TuiStep s s') : Step s s'
  | task {s s' : Runtime} (hrunning : s.run.Running) (h : TaskStep s s') : Step s s'
  | run {s s' : Runtime} (h : RunStep s s') : Step s s'

/-- Some schedule leads from one state to the other. -/
abbrev Run : Runtime → Runtime → Prop := Relation.ReflTransGen Step

/-! ### What a step leaves as it is -/

/-- `init_tui` does nothing to `run`. -/
theorem TuiStep.run_eq {s s' : Runtime} (h : TuiStep s s') :
  s'.run = s.run
  := by
  cases h <;> rfl

/-- The calls that `init_tui` makes are those that its place says. -/
theorem TuiStep.calls_eq {s s' : Runtime} (h : TuiStep s s') (hcalls : s.calls = s.tui.calls) :
  s'.calls = s'.tui.calls
  := by
  cases h with
  | enableRawMode htui => simp [hcalls, htui, TuiTask.calls]
  | enterAlternateScreen htui => simp [hcalls, htui, TuiTask.calls]
  | terminal htui => simp [hcalls, htui, TuiTask.calls]
  | noTerminal htui => simp [hcalls, htui, TuiTask.calls]
  | drawError htui => simp [hcalls, htui, TuiTask.calls]
  | shutdown htui => simp [hcalls, htui, TuiTask.calls]
  | signal htui => simp [hcalls, htui, TuiTask.calls]
  | lagged htui => simp [hcalls, htui, TuiTask.calls]
  | press key htui => simp [hcalls, htui, TuiTask.calls]
  | send key htui =>
      rw [hcalls, htui]
      dsimp only
      split
      · rfl
      · rfl
  | resume htui => simp [hcalls, htui, TuiTask.calls]
  | panic htui => simp [hcalls, htui, TuiTask.calls]
  | disableRawMode htui => simp [hcalls, htui, TuiTask.calls]
  | leaveAlternateScreen htui => simp [hcalls, htui, TuiTask.calls]

/-- Where `init_tui` has returned, it makes no step. -/
theorem not_tuiStep_of_returned {s s' : Runtime} (htui : s.tui = .returned) :
  ¬ TuiStep s s'
  := by
  intro h
  cases h <;> simp_all

/-- The other tasks do nothing to `run` and to the console. -/
theorem TaskStep.spec {s s' : Runtime} (h : TaskStep s s') :
  s'.run = s.run ∧ s'.tui = s.tui ∧ s'.calls = s.calls
  := by
  cases h <;> exact ⟨rfl, rfl, rfl⟩

/-- `run` does nothing to the console. -/
theorem RunStep.spec {s s' : Runtime} (h : RunStep s s') :
  s.run.Running ∧ s'.tui = s.tui ∧ s'.calls = s.calls
  := by
  cases h <;> simp_all [RunTask.Running]

/-- The calls on the terminal are those that the place of `init_tui` says. -/
theorem calls_of_step {s s' : Runtime} (h : Step s s') (hcalls : s.calls = s.tui.calls) :
  s'.calls = s'.tui.calls
  := by
  cases h with
  | tui _ h => apply h.calls_eq hcalls
  | task _ h =>
      obtain ⟨-, htui, heq⟩ := h.spec
      rw [heq, htui, hcalls]
  | run h =>
      obtain ⟨-, htui, heq⟩ := h.spec
      rw [heq, htui, hcalls]

theorem calls_of_run {s s' : Runtime} (h : Run s s') (hcalls : s.calls = s.tui.calls) :
  s'.calls = s'.tui.calls
  := by
  induction h with
  | refl => exact hcalls
  | tail _ hstep ih => apply calls_of_step hstep ih

/-! ### Commands and signals -/

/-- As for the commands, a step of the runtime is a step of the commands, or none. -/
theorem commands_of_step {s s' : Runtime} (h : Step s s') :
  Commands.Step s.commands s'.commands ∨ s'.commands = s.commands
  := by
  cases h with
  | tui _ h =>
      cases h with
      | send _ _ _ hfresh => exact .inl (.send _ _ hfresh)
      | _ => exact .inr rfl
  | task _ h =>
      cases h with
      | worker h => exact .inl (.worker h)
      | forward =>
          left
          apply Commands.Step.send
          intro done hdone
          cases hdone
      | _ => exact .inr rfl
  | run h =>
      cases h with
      | commandLoop _ h => exact .inl (.commandLoop h)
      | command _ h => exact .inl (.commandLoop h)
      | peer => exact .inl (.leave _)
      | transfer => exact .inl (.leave _)
      | tui => exact .inl (.leave _)
      | tuiPanicked => exact .inl (.leave _)
      | transferTimesOut => exact .inl (.abort _)
      | _ => exact .inr rfl

/-- So a run of the runtime is one of the commands. -/
theorem commands_of_run {s s' : Runtime} (h : Run s s') :
  Commands.Run s.commands s'.commands
  := by
  induction h with
  | refl => exact .refl
  | tail _ hstep ih =>
      rcases commands_of_step hstep with hcommands | heq
      · apply ih.tail hcommands
      · rw [heq]
        exact ih

/-- Nobody broadcasts a `Shutdown`. -/
theorem shutdown_notMem_of_run {s s' : Runtime} (h : Run s s')
    (hs : .shutdown ∉ s.signals.sent) :
  .shutdown ∉ s'.signals.sent
  := by
  induction h with
  | refl => exact hs
  | tail _ hstep ih =>
      cases hstep with
      | tui _ h => cases h <;> exact ih
      | task _ h =>
          cases h with
          | broadcast hsignal =>
              intro hmem
              rcases List.mem_append.mp hmem with hmem | hmem
              · exact ih hmem
              · exact hsignal (List.mem_singleton.mp hmem).symm
          | _ => exact ih
      | run h => cases h <;> exact ih

/-- Neither the console nor the forwarder is ever told to stop. -/
theorem recv_ne_shutdown {s : Runtime} (h : Run start s) (position next : Nat) :
  s.signals.recv broadcastCapacity position ≠ .ok .shutdown next
  := by
  intro hrecv
  apply shutdown_notMem_of_run h List.not_mem_nil
  apply Broadcast.mem_of_recv_eq_ok hrecv

/-! ### The terminal -/

/-- If `run` has returned after the raw mode was enabled, the terminal has been restored. -/
def Restored (s : Runtime) : Prop :=
  (∃ result, s.run = .returned result) → .enableRawMode ∈ s.calls →
    .disableRawMode ∈ s.calls ∧ .leaveAlternateScreen ∈ s.calls

/-- If the step leaves the `select!`, then `init_tui` has returned, or it has not begun and `run`
returns at once. -/
def Awaited (s s' : Runtime) : Prop :=
  s.run = .selecting → s'.run ≠ .selecting →
    s.tui = .returned ∨ s.tui = .enabling ∧ ∃ result, s'.run = .returned result

/-- An awaited step. -/
def AwaitedStep (s s' : Runtime) : Prop := Step s s' ∧ Awaited s s'

/-- Some schedule of awaited steps leads from one state to the other. -/
abbrev AwaitedRun : Runtime → Runtime → Prop := Relation.ReflTransGen AwaitedStep

theorem AwaitedRun.run {s s' : Runtime} (h : AwaitedRun s s') :
  Run s s'
  := by
  induction h with
  | refl => exact .refl
  | tail _ hstep ih => apply ih.tail hstep.1

/-- Once the `select!` is left, `init_tui` has returned, or it will never begin. -/
def Settled (s : Runtime) : Prop :=
  s.run = .selecting ∨ s.tui = .returned ∨ s.tui = .enabling ∧ ∃ result, s.run = .returned result

/-- Awaited steps keep a state settled. -/
theorem Settled.step {s s' : Runtime} (h : s.Settled) (hstep : Step s s') (hawaited : Awaited s s') :
  s'.Settled
  := by
  have hstopped : s.run.Running → ¬ ∃ result, s.run = .returned result := by
    rintro hrunning ⟨result, hresult⟩
    rw [hresult] at hrunning
    exact hrunning
  cases hstep with
  | tui hrunning hstep =>
      rcases h with hselecting | hreturned | ⟨-, hresult⟩
      · left
        rw [hstep.run_eq, hselecting]
      · exact absurd hstep (not_tuiStep_of_returned hreturned)
      · exact absurd hresult (hstopped hrunning)
  | task _ hstep =>
      obtain ⟨hrun, htui, -⟩ := hstep.spec
      rw [Settled, hrun, htui]
      exact h
  | run hstep =>
      obtain ⟨hrunning, htui, -⟩ := hstep.spec
      rw [Settled, htui]
      rcases h with hselecting | hreturned | ⟨-, hresult⟩
      · by_cases hstays : s'.run = .selecting
        · exact .inl hstays
        · exact .inr (hawaited hselecting hstays)
      · exact .inr (.inl hreturned)
      · exact absurd hresult (hstopped hrunning)

/-- The terminal is restored in a settled state. -/
theorem Settled.restored {s : Runtime} (h : s.Settled) (hcalls : s.calls = s.tui.calls) :
  s.Restored
  := by
  rintro ⟨result, hresult⟩ henabled
  rw [hcalls] at henabled ⊢
  rcases h with hselecting | hreturned | ⟨henabling, -⟩
  · rw [hresult] at hselecting
    cases hselecting
  · rw [hreturned]
    decide
  · rw [henabling] at henabled
    cases henabled

/-- However the other tasks are, `run` may return once it has left its `select!`, and leaves the
console as it is: `await_task` does not wait for ever. -/
theorem exists_returned {s : Runtime} (hleft : s.run ≠ .selecting) :
  ∃ s', Run s s' ∧ (∃ result, s'.run = .returned result) ∧ s'.tui = s.tui ∧ s'.calls = s.calls
  := by
  have htransfer : ∀ s : Runtime, s.run = .awaitingTransfer →
      ∃ s', Run s s' ∧ (∃ result, s'.run = .returned result) ∧ s'.tui = s.tui
        ∧ s'.calls = s.calls := by
    intro s hrun
    exact ⟨_, .single (.run (.transferTimesOut hrun)), ⟨_, rfl⟩, rfl, rfl⟩
  cases hrun : s.run with
  | selecting => exact absurd hrun hleft
  | returned result => exact ⟨s, .refl, ⟨result, hrun⟩, rfl, rfl⟩
  | awaitingTransfer => exact htransfer s hrun
  | awaitingPeer completed =>
      have hstep := Step.run (.peerTimesOut hrun)
      by_cases hcompleted : completed = .transferWorker
      · subst hcompleted
        exact ⟨_, .single hstep, ⟨_, rfl⟩, rfl, rfl⟩
      · obtain ⟨s', hrun', hreturned, htui, hcalls⟩ :=
          htransfer { s with run := .afterPeer completed } (if_pos hcompleted)
        exact ⟨s', .head hstep hrun', hreturned, htui, hcalls⟩

/-- If `init_tui` has begun and not returned, the terminal is not restored. -/
theorem not_restored_of_returned {s : Runtime} (hresult : ∃ result, s.run = .returned result)
    (hcalls : s.calls = s.tui.calls) (hbegun : s.tui ≠ .enabling) (hends : s.tui ≠ .returned) :
  ¬ s.Restored
  := by
  intro h
  have hneither : .enableRawMode ∈ s.tui.calls ∧ .leaveAlternateScreen ∉ s.tui.calls := by
    cases htui : s.tui with
    | enabling => exact absurd htui hbegun
    | returned => exact absurd htui hends
    | _ => simp [TuiTask.calls]
  rw [← hcalls] at hneither
  exact hneither.2 (h hresult hneither.1).2

/-- After a step that is not awaited, `run` may return with the terminal as the console left it. -/
theorem exists_not_restored {s s' : Runtime} (hcalls : s.calls = s.tui.calls) (hstep : Step s s')
    (h : ¬ Awaited s s') :
  ∃ s'', Run s' s'' ∧ ¬ s''.Restored
  := by
  simp only [Awaited, not_forall, not_or, exists_prop] at h
  obtain ⟨hselecting, hleft, hends, hbegins⟩ := h
  have htui : s'.tui = s.tui := by
    cases hstep with
    | tui _ hstep =>
        rw [hstep.run_eq, hselecting] at hleft
        exact absurd rfl hleft
    | task _ hstep => exact hstep.spec.2.1
    | run hstep => exact hstep.spec.2.1
  have hcalls' := calls_of_step hstep hcalls
  by_cases henabling : s.tui = .enabling
  · have hrunning : s'.run.Running := by
      cases hrun : s'.run with
      | returned result => exact absurd ⟨henabling, result, hrun⟩ hbegins
      | _ => trivial
    have hbegin : Step s' _ := .tui hrunning (.enableRawMode (htui.trans henabling))
    obtain ⟨s'', hrun, hresult, htui'', hcalls''⟩ :=
      exists_returned (s := { s' with tui := .entering, calls := s'.calls ++ [.enableRawMode] })
        hleft
    use s'', .head hbegin hrun
    apply not_restored_of_returned hresult
    · apply calls_of_run (.head hbegin hrun) hcalls'
    · simp [htui'']
    · simp [htui'']
  · obtain ⟨s'', hrun, hresult, htui'', hcalls''⟩ := exists_returned hleft
    use s'', hrun
    apply not_restored_of_returned hresult
    · apply calls_of_run hrun hcalls'
    · rw [htui'', htui]
      exact henabling
    · rw [htui'', htui]
      exact hends

/-- In every run whose steps are all awaited the terminal is restored before `run` returns. After any
other step of a run, `run` may return without that. -/
theorem restored_of_awaited (s : Runtime) :
  (AwaitedRun start s → s.Restored) ∧
    (Run start s → ∀ s', Step s s' → ¬ Awaited s s' → ∃ s'', Run s' s'' ∧ ¬ s''.Restored)
  := by
  constructor
  · intro h
    apply Settled.restored _ (calls_of_run h.run rfl)
    induction h with
    | refl => exact .inl rfl
    | tail _ hstep ih => apply ih.step hstep.1 hstep.2
  · intro h s' hstep hnot
    apply exists_not_restored (calls_of_run h rfl) hstep hnot

/-! ### A console -/

/-- The console has been built. -/
def console : Runtime :=
  { start with tui := .looping ⟨"", 0⟩, calls := [.enableRawMode, .enterAlternateScreen] }

/-- A step of `init_tui` while `run` is in its `select!`. -/
theorem TuiStep.awaited {s s' : Runtime} (h : TuiStep s s') (hrun : s.run = .selecting) :
  AwaitedStep s s'
  := by
  constructor
  · apply Step.tui _ h
    rw [hrun]
    trivial
  · intro _ hleft
    rw [h.run_eq] at hleft
    exact absurd hrun hleft

theorem awaitedRun_console :
  AwaitedRun start console
  := by
  let raw : Runtime := { start with tui := .entering, calls := [.enableRawMode] }
  let entered : Runtime := { console with tui := .building }
  apply Relation.ReflTransGen.head (b := raw) (TuiStep.awaited (.enableRawMode rfl) rfl)
  apply Relation.ReflTransGen.head (b := entered) (TuiStep.awaited (.enterAlternateScreen rfl) rfl)
  exact .single (TuiStep.awaited (.terminal rfl) rfl)

theorem run_console :
  Run start console
  := awaitedRun_console.run

/-- The key `Esc` has been pressed. -/
def escaped : Runtime := { console with commands := Commands.start.send .shutdown }

theorem run_escaped :
  Run start escaped
  := by
  have hpress : Tui.press ⟨"", 0⟩ 0 .esc = (⟨"", 0⟩, some ⟨.shutdown, false⟩) := rfl
  exact run_console.tail (.tui trivial (.send .esc rfl hpress nofun))

/-- If the first `draw` fails, the terminal is restored before `run` returns. -/
theorem restored_of_drawError :
  ∃ s, AwaitedRun start s ∧ (∃ result, s.run = .returned result) ∧ .enableRawMode ∈ s.calls
    ∧ s.Restored
  := by
  let failed : Runtime := { console with tui := .disabling }
  let cooked : Runtime := { console with tui := .leaving, calls := TuiTask.leaving.calls }
  let ended : Runtime := { console with tui := .returned, calls := TuiTask.returned.calls }
  let left : Runtime := { ended with commands := .leave .start, run := .awaitingPeer .tui }
  have hfailed : AwaitedRun start failed :=
    awaitedRun_console.tail ((@TuiStep.drawError console ⟨"", 0⟩ rfl).awaited rfl)
  have hcooked : AwaitedRun start cooked :=
    hfailed.tail ((@TuiStep.disableRawMode failed rfl).awaited rfl)
  have hended : AwaitedRun start ended :=
    hcooked.tail ((@TuiStep.leaveAlternateScreen cooked rfl).awaited rfl)
  have hleft : AwaitedRun start left := by
    apply hended.tail
    exact ⟨.run (.tui rfl rfl), fun _ _ => .inl rfl⟩
  have hwaiting : AwaitedRun start { left with run := .awaitingTransfer } := by
    apply hleft.tail
    exact ⟨.run (@RunStep.peerTimesOut left .tui rfl), fun hselecting => nomatch hselecting⟩
  have hreturned : AwaitedRun start { left with
      commands := left.commands.abort
      run := .returned (.ok ()) } := by
    apply hwaiting.tail
    exact ⟨.run (.transferTimesOut rfl), fun hselecting => nomatch hselecting⟩
  exact ⟨_, hreturned, ⟨_, rfl⟩, by decide, (restored_of_awaited _).1 hreturned⟩

/-- It is not the case that the terminal is always restored: the key `Esc` ends the process without
that. -/
theorem not_restored :
  ¬ ∀ s, Run start s → s.Restored
  := by
  intro hall
  let left : Runtime := { console with
    commands := Commands.leave { Commands.start with commands := ⟨[.shutdown], []⟩ }
    run := .awaitingPeer .command }
  have hrun : Run start left := run_escaped.tail (.run (.command rfl (.shutdown rfl rfl) rfl))
  have hleft : left.run ≠ .selecting := by
    intro hselecting
    cases hselecting
  obtain ⟨s, hreturns, hresult, htui, hcalls⟩ := exists_returned hleft
  apply not_restored_of_returned hresult (calls_of_run (hrun.trans hreturns) rfl)
  · rw [htui]
    decide
  · rw [htui]
    decide
  · apply hall s (hrun.trans hreturns)

end Runtime

end Node
