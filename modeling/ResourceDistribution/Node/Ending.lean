import ResourceDistribution.Data.Ranked
import ResourceDistribution.Node.Runtime

/-!
# Ending a node

A `Shutdown` that has been sent ends the process: `run` returns after a number of its own steps that
is bounded by the number of commands that were sent before, whatever the other tasks do, and be the
worker in a download that never ends (`ends_of_shutdown`). But it is the console that sends it, and
as long as the console awaits a command it takes no key. So whoever enters a command that is awaited
behind a download that never ends cannot end the node any more (`frozen_of_awaiting`).
-/

namespace Node

/-- A worker's step does not touch the channel of the commands, nor whether `command_loop` runs. -/
theorem Commands.WorkerStep.commands_eq {s s' : Commands} (h : s.WorkerStep s') :
  s'.commands = s.commands ∧ s'.looping = s.looping
  := by
  cases h with
  | take => exact ⟨rfl, rfl⟩
  | shutdown => exact ⟨rfl, rfl⟩
  | changed => exact ⟨rfl, rfl⟩
  | finish => exact ⟨rfl, rfl⟩
  | panic => exact ⟨rfl, rfl⟩

/-! ### The steps that are left -/

/-- How many steps `run` makes at most before it returns, if it has that many commands to receive
before a `Shutdown`. -/
def RunTask.stepsLeft (commands : Nat) : RunTask → Nat
  | .selecting => commands + 3
  | .awaitingPeer completed => if completed = .transferWorker then 1 else 2
  | .awaitingTransfer => 1
  | .returned _ => 0

/-- `run` has left its `select!`, and makes no more than `k` steps. -/
def RunTask.EndsIn (k : Nat) (task : RunTask) : Prop :=
  task ≠ .selecting ∧ ∀ n, task.stepsLeft n ≤ k

theorem RunTask.endsIn_returned (k : Nat) (result : Except String Unit) :
  (returned result).EndsIn k
  := ⟨nofun, fun _ => Nat.zero_le _⟩

/-- That a task ended with an error makes it no longer. -/
theorem RunTask.EndsIn.selected {k : Nat} {next : RunTask} (h : next.EndsIn k) (name : String)
    (how : TaskEnd) :
  (RunTask.selected name next how).EndsIn k
  := by
  cases how with
  | ok => exact h
  | error => apply endsIn_returned
  | panicked => apply endsIn_returned
  | cancelled => apply endsIn_returned

theorem RunTask.EndsIn.joined {k : Nat} {next : RunTask} (h : next.EndsIn k) (name : String)
    (how : TaskEnd) :
  (RunTask.joined name next how).EndsIn k
  := by
  cases how with
  | ok => exact h
  | error => exact h
  | panicked => apply endsIn_returned
  | cancelled => apply endsIn_returned

theorem RunTask.endsIn_afterPeer (completed : CompletedTask) :
  (afterPeer completed).EndsIn (if completed = .transferWorker then 0 else 1)
  := by
  cases completed <;> simp [EndsIn, afterPeer, stepsLeft]

theorem RunTask.endsIn_afterSelect (completed : CompletedTask) :
  (afterSelect completed).EndsIn 2
  := by
  cases completed <;> simp [EndsIn, afterSelect, afterPeer, stepsLeft]

namespace Runtime

/-- A step of a task that is not `run`, while the process runs. -/
inductive OtherStep : Runtime → Runtime → Prop where
  | tui {s s' : Runtime} (hrunning : s.run.Running) (h : TuiStep s s') : OtherStep s s'
  | task {s s' : Runtime} (hrunning : s.run.Running) (h : TaskStep s s') : OtherStep s s'

/-- The other tasks may send commands. They neither receive them nor end `command_loop`. -/
theorem OtherStep.spec {s s' : Runtime} (h : OtherStep s s') :
  s'.run = s.run ∧ s'.commands.looping = s.commands.looping ∧
    s.commands.commands.waiting <+: s'.commands.commands.waiting
  := by
  have hrefl := List.prefix_refl s.commands.commands.waiting
  cases h with
  | tui _ h =>
      refine ⟨h.run_eq, ?_⟩
      cases h with
      | send => exact ⟨rfl, List.prefix_append ..⟩
      | enableRawMode => exact ⟨rfl, hrefl⟩
      | enterAlternateScreen => exact ⟨rfl, hrefl⟩
      | terminal => exact ⟨rfl, hrefl⟩
      | noTerminal => exact ⟨rfl, hrefl⟩
      | drawError => exact ⟨rfl, hrefl⟩
      | shutdown => exact ⟨rfl, hrefl⟩
      | signal => exact ⟨rfl, hrefl⟩
      | lagged => exact ⟨rfl, hrefl⟩
      | press => exact ⟨rfl, hrefl⟩
      | resume => exact ⟨rfl, hrefl⟩
      | panic => exact ⟨rfl, hrefl⟩
      | disableRawMode => exact ⟨rfl, hrefl⟩
      | leaveAlternateScreen => exact ⟨rfl, hrefl⟩
  | task _ h =>
      refine ⟨h.spec.1, ?_⟩
      cases h with
      | worker h =>
          rw [h.commands_eq.1, h.commands_eq.2]
          exact ⟨rfl, hrefl⟩
      | forward => exact ⟨rfl, List.prefix_append ..⟩
      | broadcast => exact ⟨rfl, hrefl⟩
      | peer => exact ⟨rfl, hrefl⟩
      | subscribe => exact ⟨rfl, hrefl⟩
      | ignore => exact ⟨rfl, hrefl⟩
      | lagged => exact ⟨rfl, hrefl⟩

/-! ### A `Shutdown` that is sent -/

/-- If `run` is in its `select!`, then `command_loop` goes on, and a `Shutdown` waits for it. -/
def Ending (s : Runtime) : Prop :=
  s.run = .selecting → s.commands.looping = true ∧ .shutdown ∈ s.commands.commands.waiting

/-- The commands that `command_loop` receives before a `Shutdown`. -/
def ahead (s : Runtime) : List RuntimeCommand :=
  s.commands.commands.waiting.takeWhile fun command => !command.isShutdown

def stepsLeft (s : Runtime) : Nat := RunTask.stepsLeft s.ahead.length s.run

/-- The other tasks do not put the end off. -/
theorem Ending.otherStep {s s' : Runtime} (h : s.Ending) (hstep : OtherStep s s') :
  s'.Ending ∧ s'.stepsLeft ≤ s.stepsLeft
  := by
  obtain ⟨hrun, hlooping, hwaiting⟩ := hstep.spec
  constructor
  · intro hselecting
    rw [hrun] at hselecting
    rw [hlooping]
    exact ⟨(h hselecting).1, hwaiting.subset (h hselecting).2⟩
  · rw [stepsLeft, stepsLeft, hrun]
    cases hs : s.run with
    | selecting =>
        have heq : s'.ahead = s.ahead := List.takeWhile_eq_of_prefix (h hs).2 rfl hwaiting
        rw [heq]
    | awaitingPeer => apply Nat.le_refl
    | awaitingTransfer => apply Nat.le_refl
    | returned => apply Nat.le_refl

/-- A step of `run` brings its end nearer. -/
theorem Ending.runStep {s s' : Runtime} (h : s.Ending) (hstep : RunStep s s') :
  s'.Ending ∧ s'.stepsLeft < s.stepsLeft
  := by
  have hleft {k : Nat} {next : RunTask} (commands : Commands) (hnext : next.EndsIn k)
      (hk : k < s.stepsLeft) :
      Ending { s with commands := commands, run := next } ∧
        stepsLeft { s with commands := commands, run := next } < s.stepsLeft :=
    ⟨fun hselecting => absurd hselecting hnext.1, lt_of_le_of_lt (hnext.2 _) hk⟩
  have hselecting (hrun : s.run = .selecting) : 2 < s.stepsLeft := by
    rw [stepsLeft, hrun]
    exact Nat.lt_add_left _ (by decide)
  have hawaiting {completed : CompletedTask} (hrun : s.run = .awaitingPeer completed) :
      (if completed = .transferWorker then 0 else 1) < s.stepsLeft := by
    rw [stepsLeft, hrun]
    cases completed <;> simp [RunTask.stepsLeft]
  have htransfer (hrun : s.run = .awaitingTransfer) : 0 < s.stepsLeft := by
    rw [stepsLeft, hrun]
    exact Nat.zero_lt_one
  cases hstep with
  | commandLoop hrun hloop hlooping =>
      cases hloop with
      | forward _ hrecv hcommand =>
          obtain ⟨hwaiting, -⟩ := Channel.recv?_eq_some hrecv
          have hmem := (h hrun).2
          rw [hwaiting] at hmem
          constructor
          · intro _
            exact ⟨hlooping, (List.mem_cons.mp hmem).resolve_left hcommand.symm⟩
          · rw [stepsLeft, stepsLeft, hrun, ahead, ahead, hwaiting, List.takeWhile_cons,
              RuntimeCommand.isShutdown_eq_false hcommand]
            simp only [RunTask.stepsLeft, Bool.not_false, if_true, List.length_cons]
            omega
      | refused => cases hlooping
      | shutdown => cases hlooping
  | command hrun => apply hleft _ (RunTask.endsIn_afterSelect _) (hselecting hrun)
  | peer hrun => apply hleft _ ((RunTask.endsIn_afterSelect _).selected ..) (hselecting hrun)
  | transfer hrun => apply hleft _ ((RunTask.endsIn_afterSelect _).selected ..) (hselecting hrun)
  | tui hrun => apply hleft _ (RunTask.endsIn_afterSelect _) (hselecting hrun)
  | tuiPanicked hrun => apply hleft _ ((RunTask.endsIn_afterSelect _).selected ..) (hselecting hrun)
  | peerJoined hrun => apply hleft _ ((RunTask.endsIn_afterPeer _).joined ..) (hawaiting hrun)
  | peerTimesOut hrun => apply hleft _ (RunTask.endsIn_afterPeer _) (hawaiting hrun)
  | transferJoined hrun => apply hleft _ ((RunTask.endsIn_returned 0 _).joined ..) (htransfer hrun)
  | transferTimesOut hrun => apply hleft _ (RunTask.endsIn_returned 0 _) (htransfer hrun)

/-- As long as `run` has not returned, it can make a step. -/
theorem Ending.exists_runStep {s : Runtime} (h : s.Ending) (hrunning : s.run.Running) :
  ∃ s', RunStep s s'
  := by
  cases hrun : s.run with
  | selecting =>
      obtain ⟨hlooping, hwaiting⟩ := h hrun
      obtain ⟨command, rest, hcons⟩ := List.exists_cons_of_ne_nil (List.ne_nil_of_mem hwaiting)
      have hrecv : s.commands.commands.recv?
          = some (command, ⟨s.commands.commands.received ++ [command], rest⟩) := by
        rw [Channel.recv?, hcons]
      by_cases hcommand : command = .shutdown
      · rw [hcommand] at hrecv
        exact ⟨_, .command hrun (.shutdown hlooping hrecv) rfl⟩
      · by_cases halive : s.commands.worker.Alive
        · exact ⟨_, .commandLoop hrun (.forward hlooping hrecv hcommand halive) hlooping⟩
        · exact ⟨_, .command hrun (.refused hlooping hrecv hcommand halive) rfl⟩
  | awaitingPeer => exact ⟨_, .peerTimesOut hrun⟩
  | awaitingTransfer => exact ⟨_, .transferTimesOut hrun⟩
  | returned =>
      rw [hrun] at hrunning
      cases hrunning

/-- If `run` is in its `select!` after a step, it was there before, and `command_loop` has passed a
command on to the worker. -/
theorem RunStep.of_selecting {s s' : Runtime} (h : RunStep s s')
    (hselecting : s'.run = .selecting) :
  s.run = .selecting ∧ ∃ commands, s.commands.LoopStep commands ∧ commands.looping = true ∧
    s' = { s with commands := commands }
  := by
  have hselect := RunTask.endsIn_afterSelect
  have hpeer := RunTask.endsIn_afterPeer
  cases h with
  | commandLoop hrun h hlooping => exact ⟨hrun, _, h, hlooping, rfl⟩
  | command => cases (hselect .command).1 hselecting
  | peer => cases ((hselect _).selected ..).1 hselecting
  | transfer => cases ((hselect _).selected ..).1 hselecting
  | tui => cases (hselect .tui).1 hselecting
  | tuiPanicked => cases ((hselect .tui).selected "TUI" .panicked).1 hselecting
  | peerJoined => cases ((hpeer _).joined ..).1 hselecting
  | peerTimesOut => cases (hpeer _).1 hselecting
  | transferJoined => cases ((RunTask.endsIn_returned 0 _).joined ..).1 hselecting
  | transferTimesOut => cases hselecting

/-- As long as `run` is in its `select!`, `command_loop` goes on. -/
theorem looping_of_run {s : Runtime} (h : Run start s) (hselecting : s.run = .selecting) :
  s.commands.looping = true
  := by
  induction h with
  | refl => rfl
  | tail _ hstep ih =>
      have hother {s s' : Runtime} (h : OtherStep s s')
          (ih : s.run = .selecting → s.commands.looping = true) (hselecting : s'.run = .selecting) :
          s'.commands.looping = true := by
        rw [h.spec.2.1]
        apply ih (h.spec.1.symm.trans hselecting)
      cases hstep with
      | tui hrunning h => apply hother (.tui hrunning h) ih hselecting
      | task hrunning h => apply hother (.task hrunning h) ih hselecting
      | run h =>
          obtain ⟨-, commands, -, hlooping, rfl⟩ := h.of_selecting hselecting
          exact hlooping

/-- When a `Shutdown` has been sent and waits, `run` returns: it makes no more steps than commands
wait, and two, and as long as it has not returned it can make one, whatever the console, the worker,
the peer server and the forwarder do in between, or do not. -/
theorem ends_of_shutdown {s s' : Runtime} (hreach : Run start s)
    (hshutdown : .shutdown ∈ s.commands.commands.waiting) {n : Nat}
    (h : Counted RunStep OtherStep n s s') :
  n ≤ s.commands.commands.waiting.length + 2 ∧ (s'.run.Running → ∃ s'', RunStep s' s'')
  := by
  have hending : s.Ending := fun hselecting => ⟨looping_of_run hreach hselecting, hshutdown⟩
  obtain ⟨hending', hle⟩ := h.add_rank_le (fun _ _ h hstep => h.runStep hstep)
    (fun _ _ h hstep => h.otherStep hstep) hending
  use ?_, hending'.exists_runStep
  have hahead : s.ahead.length < s.commands.commands.waiting.length := by
    have hprefix : s.ahead <+: s.commands.commands.waiting := List.takeWhile_prefix _
    apply lt_of_le_of_ne hprefix.length_le
    intro heq
    rw [← hprefix.eq_of_length heq] at hshutdown
    cases List.mem_takeWhile_imp hshutdown
  have hleft : s.stepsLeft ≤ s.ahead.length + 3 := by
    rw [stepsLeft]
    cases s.run with
    | selecting => exact Nat.le_refl _
    | awaitingPeer completed => cases completed <;> simp [RunTask.stepsLeft]
    | awaitingTransfer => exact Nat.le_add_left _ _
    | returned => exact Nat.zero_le _
  omega

/-! ### A command that is awaited -/

/-- A command that was sent is resolved, or waits to be, as long as `command_loop` and the worker go
on. -/
theorem pending_of_sent {s : Commands} (h : s.Orderly) (hlooping : s.looping = true)
    (halive : s.worker.Alive) {command : RuntimeCommand} (hsent : command ∈ s.commands.sent)
    {done : CommandDone} (hdone : command.done? = some done) (hresolved : done ∉ s.resolved) :
  s.Pending done
  := by
  refine ⟨command, hdone, ?_⟩
  rcases List.mem_append.mp hsent with hreceived | hwaiting
  · right
    use halive
    have hforwarded : command ∈ s.forwarded.sent := by
      have hreceived_eq : s.commands.received = s.forwarded.sent := h.faithful.received_eq hlooping
      rw [← hreceived_eq]
      exact hreceived
    rcases List.mem_append.mp hforwarded with hstarted | hwaiting
    · right
      rw [← h.started_eq, h.finished_eq halive] at hstarted
      apply (List.mem_append.mp hstarted).resolve_left
      intro hfinished
      apply hresolved
      rw [h.resolved_eq]
      exact List.mem_filterMap.mpr ⟨command, hfinished, hdone⟩
    · exact Or.inl hwaiting
  · exact Or.inl hwaiting

/-- The console awaits a command on the channel that it creates for it. -/
theorem done_of_handleCommand {line : String} {done : CommandDone} {request : ConsoleRequest}
    (h : handleCommand line done = some request) (hawaits : request.awaits = true) :
  request.command.done? = some done
  := by
  rw [handleCommand] at h
  split at h
  all_goals simp only [Option.some.injEq, reduceCtorEq] at h
  all_goals subst h
  all_goals first | rfl | simp only [Bool.false_eq_true] at hawaits

theorem done_of_press {tui tui' : Tui} {key : KeyCode} {done : CommandDone}
    {request : ConsoleRequest} (h : tui.press done key = (tui', some request))
    (hawaits : request.awaits = true) :
  request.command.done? = some done
  := by
  cases key with
  | enter =>
      rw [Tui.press] at h
      split_ifs at h
      · cases (Prod.mk.inj h).2
      · apply done_of_handleCommand (Prod.mk.inj h).2 hawaits
  | backspace => cases h
  | char => cases h
  | esc =>
      cases h
      cases hawaits
  | other => cases h

/-- A step keeps what was sent. -/
theorem sent_subset_of_step {s s' : Runtime} (h : Step s s') :
  s.commands.commands.sent ⊆ s'.commands.commands.sent
  := by
  rcases commands_of_step h with hstep | heq
  · apply (Commands.sent_prefix_of_step hstep).subset
  · rw [heq]
    apply List.Subset.refl

/-- What the console awaits was sent. -/
theorem sent_of_awaiting {s : Runtime} (h : Run start s) {tui : Tui} {done : CommandDone}
    (htui : s.tui = .awaiting tui done) :
  ∃ command ∈ s.commands.commands.sent, command.done? = some done
  := by
  induction h generalizing tui with
  | refl => cases htui
  | tail _ hstep ih =>
      have hkept {s s' : Runtime} (hstep : Step s s') (heq : s'.tui = s.tui)
          (ih : ∀ {tui}, s.tui = .awaiting tui done →
            ∃ command ∈ s.commands.commands.sent, command.done? = some done)
          (htui : s'.tui = .awaiting tui done) :
          ∃ command ∈ s'.commands.commands.sent, command.done? = some done := by
        obtain ⟨command, hmem, hdone⟩ := ih (heq.symm.trans htui)
        exact ⟨command, sent_subset_of_step hstep hmem, hdone⟩
      cases hstep with
      | tui hrunning h =>
          cases h with
          | @send _ _ _ request key _ hpress =>
              dsimp only at htui
              split_ifs at htui with hawaits
              cases htui
              refine ⟨request.command, ?_, done_of_press hpress hawaits⟩
              dsimp only [Commands.send]
              rw [Channel.sent_send]
              apply List.mem_append_right _ (List.mem_singleton_self _)
          | _ => cases htui
      | task hrunning h => apply hkept (.task hrunning h) h.spec.2.1 ih htui
      | run h => apply hkept (.run h) h.spec.2.1 ih htui

/-- The console need not await the command any longer, or the worker or the peer server has
ended. -/
def Freed (s : Runtime) (done : CommandDone) : Prop :=
  done ∈ s.commands.resolved ∨ ¬ s.commands.worker.Alive ∨ s.peer ≠ none

/-- The console awaits the command, `run` is in its `select!`, and no other command has been
sent. -/
def Frozen (s : Runtime) (tui : Tui) (done : CommandDone) (sent : List RuntimeCommand) : Prop :=
  s.tui = .awaiting tui done ∧ s.run = .selecting ∧ s.commands.commands.sent = sent

/-- Nothing is taken back of that. -/
theorem Freed.step {s s' : Runtime} {done : CommandDone} (h : s.Freed done) (hstep : Step s s') :
  s'.Freed done
  := by
  have hworker {commands : Commands} (hstep : s.commands.WorkerStep commands)
      (h : done ∈ s.commands.resolved ∨ ¬ s.commands.worker.Alive) :
      done ∈ commands.resolved ∨ ¬ commands.worker.Alive := by
    cases hstep with
    | finish hhandling =>
        rw [hhandling] at h
        exact Or.inl (List.mem_append_left _ (h.resolve_right fun hended => hended trivial))
    | take hselecting =>
        rw [hselecting] at h
        exact Or.inl (h.resolve_right fun hended => hended trivial)
    | shutdown => exact Or.inr id
    | changed => exact Or.inr id
    | panic => exact Or.inr id
  have hloop {commands : Commands} (hstep : s.commands.LoopStep commands)
      (h : done ∈ s.commands.resolved ∨ ¬ s.commands.worker.Alive) :
      done ∈ commands.resolved ∨ ¬ commands.worker.Alive := by
    rw [hstep.worker_eq.2.2.1, hstep.worker_eq.2.2.2.2.2]
    exact h
  rw [Freed, ← or_assoc] at h ⊢
  cases hstep with
  | tui _ hstep => cases hstep <;> exact h
  | task _ hstep =>
      cases hstep with
      | worker hstep => exact h.imp_left (hworker hstep)
      | peer => exact Or.inr nofun
      | _ => exact h
  | run hstep =>
      cases hstep with
      | commandLoop _ hstep => exact h.imp_left (hloop hstep)
      | command _ hstep => exact h.imp_left (hloop hstep)
      | transferTimesOut => exact Or.inl (Or.inr id)
      | _ => exact h

/-- A step that does not free the console leaves it frozen, unless a `Shutdown` was sent before. -/
theorem Frozen.step {s s' : Runtime} {tui : Tui} {done : CommandDone} {sent : List RuntimeCommand}
    (h : s.Frozen tui done sent) (hreach : Run start s) (hshutdown : .shutdown ∉ sent)
    (hfreed : ¬ s.Freed done) (hstep : Step s s') :
  s'.Frozen tui done sent
  := by
  obtain ⟨htui, hselecting, rfl⟩ := h
  rw [Freed, not_or, not_or, not_not, not_not] at hfreed
  obtain ⟨hresolved, halive, hpeer⟩ := hfreed
  cases hstep with
  | tui _ hstep =>
      cases hstep with
      | resume htui' hdone =>
          cases htui.symm.trans htui'
          obtain ⟨command, hmem, hcommand⟩ := sent_of_awaiting hreach htui
          have hpending := pending_of_sent (Commands.orderly_of_run (commands_of_run hreach))
            (looping_of_run hreach hselecting) halive hmem hcommand hresolved
          exact absurd hdone (not_or.mpr ⟨hresolved, not_not.mpr hpending⟩)
      | enableRawMode htui' => cases htui.symm.trans htui'
      | enterAlternateScreen htui' => cases htui.symm.trans htui'
      | terminal htui' => cases htui.symm.trans htui'
      | noTerminal htui' => cases htui.symm.trans htui'
      | drawError htui' => cases htui.symm.trans htui'
      | shutdown htui' => cases htui.symm.trans htui'
      | signal htui' => cases htui.symm.trans htui'
      | lagged htui' => cases htui.symm.trans htui'
      | press _ htui' => cases htui.symm.trans htui'
      | send _ htui' => cases htui.symm.trans htui'
      | panic htui' => cases htui.symm.trans htui'
      | disableRawMode htui' => cases htui.symm.trans htui'
      | leaveAlternateScreen htui' => cases htui.symm.trans htui'
  | task _ hstep =>
      refine ⟨hstep.spec.2.1.trans htui, hstep.spec.1.trans hselecting, ?_⟩
      cases hstep with
      | worker hstep => rw [hstep.commands_eq.1]
      | forward _ hrecv => cases recv_ne_shutdown hreach _ _ hrecv
      | _ => rfl
  | run hstep =>
      refine ⟨hstep.spec.2.1.trans htui, ?_⟩
      cases hstep with
      | commandLoop _ hstep => exact ⟨hselecting, hstep.worker_eq.1⟩
      | command _ hstep hends =>
          cases hstep with
          | forward hlooping => cases hlooping.symm.trans hends
          | refused _ _ _ hended => cases hended halive
          | shutdown _ hrecv =>
              have hwaiting := (Channel.recv?_eq_some hrecv).1
              cases hshutdown (List.mem_append_right _ (by simp [hwaiting]))
      | peer _ hended => cases hpeer.symm.trans hended
      | transfer _ hended =>
          rw [hended] at halive
          cases halive
      | tui _ hreturned => cases htui.symm.trans hreturned
      | tuiPanicked _ hpanicked => cases htui.symm.trans hpanicked
      | peerJoined hrun => cases hselecting.symm.trans hrun
      | peerTimesOut hrun => cases hselecting.symm.trans hrun
      | transferJoined hrun => cases hselecting.symm.trans hrun
      | transferTimesOut hrun => cases hselecting.symm.trans hrun

/-- While the console awaits a command, it takes no key, nothing is sent, and the node does not end:
so it is, whatever happens, until the worker has executed this command or has ended, or the peer
server has ended. Behind a download that never ends it is so for ever. -/
theorem frozen_of_awaiting {s s' : Runtime} (hreach : Run start s) {tui : Tui} {done : CommandDone}
    (htui : s.tui = .awaiting tui done) (hselecting : s.run = .selecting)
    (hshutdown : .shutdown ∉ s.commands.commands.sent) (h : Run s s') :
  done ∈ s'.commands.resolved ∨ ¬ s'.commands.worker.Alive ∨ s'.peer ≠ none ∨
    s'.tui = .awaiting tui done ∧ s'.run = .selecting ∧
      s'.commands.commands.sent = s.commands.commands.sent
  := by
  have hfrozen : s'.Freed done ∨ s'.Frozen tui done s.commands.commands.sent := by
    induction h with
    | refl => exact Or.inr ⟨htui, hselecting, rfl⟩
    | @tail s₁ _ hrun hstep ih =>
        rcases ih with hfreed | hfrozen
        · exact Or.inl (hfreed.step hstep)
        · by_cases hfreed : s₁.Freed done
          · exact Or.inl (hfreed.step hstep)
          · exact Or.inr (hfrozen.step (hreach.trans hrun) hshutdown hfreed hstep)
  rw [Freed, or_assoc, or_assoc] at hfrozen
  exact hfrozen

/-! ### A download and a list -/

/-- The characters of a line are typed, and then it is entered. -/
theorem run_enter {s : Runtime} (hrunning : s.run.Running) {tui tui' : Tui} {line : String}
    {done : CommandDone} {request : ConsoleRequest}
    (henter : tui.enter line done = (tui', some request))
    (hfresh : s.commands.Fresh request.command) :
  Run { s with tui := .looping tui }
    { s with
      commands := s.commands.send request.command
      tui := if request.awaits then .awaiting tui' done else .looping tui' }
  := by
  rw [Tui.enter] at henter
  generalize line.toList = chars at henter
  induction chars generalizing tui with
  | nil =>
      have hstep := @TuiStep.send { s with tui := .looping tui } _ _ _ _ .enter rfl henter hfresh
      exact .single (.tui hrunning hstep)
  | cons c chars ih =>
      have hstep := @TuiStep.press { s with tui := .looping tui } _ _ done (.char c) rfl rfl
      exact .head (.tui hrunning hstep) (ih henter)

/-- After the key `Esc`, `run` makes at most three steps. -/
theorem ends_of_shutdown_escaped :
  ∃ s, Run start s ∧ ∀ n s', Counted RunStep OtherStep n s s' →
    n ≤ 3 ∧ (s'.run.Running → ∃ s'', RunStep s' s'')
  := by
  use escaped, run_escaped
  intro n s' h
  apply ends_of_shutdown run_escaped (List.mem_singleton_self _) h

/-- The worker is in a download, and the console awaits the list that was entered after it. -/
def listing : Runtime :=
  { console with
    tui := .awaiting ⟨"", 0⟩ 1
    commands :=
      { Commands.start with
        commands := ⟨[.download "x" 0], [.listTrackerFiles 1]⟩
        forwarded := ⟨[.download "x" 0], []⟩
        worker := .handling (.download "x" 0)
        started := [.download "x" 0] } }

theorem run_listing :
  Run start listing
  := by
  let sent : Runtime := { console with commands := Commands.start.send (.download "x" 0) }
  let passed : Runtime := { console with
    commands := { Commands.start with
      commands := ⟨[.download "x" 0], []⟩
      forwarded := ⟨[], [.download "x" 0]⟩ } }
  let taken : Runtime := { listing with
    tui := .looping ⟨"", 0⟩
    commands := { listing.commands with commands := ⟨[.download "x" 0], []⟩ } }
  have hdownload : handleCommand "download x" 0 = some ⟨.download "x" 0, false⟩ := by
    decide +kernel
  have hlist : handleCommand "list" 1 = some ⟨.listTrackerFiles 1, true⟩ := by
    decide +kernel
  have henter {line : String} (hline : line ≠ "") {done : CommandDone} {request : ConsoleRequest}
      (h : handleCommand line done = some request) :
      Tui.enter ⟨"", 0⟩ line done = (⟨"", 0⟩, some request) := by
    rw [Tui.enter_eq rfl hline, h]
  have hsent : Run console sent :=
    run_enter (s := console) trivial (henter (by decide) hdownload) nofun
  have hpassed : Step sent passed :=
    .run (.commandLoop rfl (.forward rfl rfl nofun trivial) rfl)
  have htaken : Step passed taken := .task trivial (.worker (.take rfl rfl nofun))
  have hfresh : taken.commands.Fresh (.listTrackerFiles 1) := by
    simp [Commands.Fresh, RuntimeCommand.done?, Channel.sent, taken]
  have hlisting : Run taken listing :=
    run_enter (s := taken) trivial (henter (by decide) hlist) hfresh
  exact run_console.trans (((hsent.tail hpassed).tail htaken).trans hlisting)

/-- As long as the download goes on and the peer server runs, the console is frozen. -/
theorem frozen_of_awaiting_listing :
  ∃ s, Run start s ∧ ∀ s', Run s s' →
    1 ∈ s'.commands.resolved ∨ ¬ s'.commands.worker.Alive ∨ s'.peer ≠ none ∨
      s'.tui = .awaiting ⟨"", 0⟩ 1 ∧ s'.run = .selecting ∧
        s'.commands.commands.sent = [.download "x" 0, .listTrackerFiles 1]
  := by
  use listing, run_listing
  intro s' h
  apply frozen_of_awaiting run_listing rfl rfl (by decide) h

end Runtime

end Node
