import ResourceDistribution.Node.Runtime

/-!
# Forwarding a shutdown

The task of `node_runtime::run` that waits for a broadcast `Shutdown` and sends the command of that
name, whatever is broadcast by whomever, and however the task is scheduled. Its loop ends with the
first error of `recv`, and falling behind is one: the task ends before it has forwarded a `Shutdown`
exactly when it receives after more signals were sent than the channel retains (`outlives_iff`).
The loop of `Tui::run` goes on there.
-/

namespace Node

/-- The task that forwards, the channel that it receives from, whether the senders of the channel
are gone, and the commands that the task has sent. -/
structure Forwarding where
  signals : Broadcast BroadcastSignal
  closed : Bool
  forwarder : Forwarder
  forwarded : List RuntimeCommand

namespace Forwarding

/-- What happens: a signal is broadcast, the last sender is dropped, `run` subscribes, or the loop of
the task calls `recv`. -/
inductive Event where
  | send (signal : BroadcastSignal)
  | close
  | subscribe
  | poll
  deriving DecidableEq

/-- Nothing has happened. -/
def start : Forwarding := ⟨.empty, false, .spawned, []⟩

/-- One turn of the loop, if `recv` has something to return. -/
def poll (s : Forwarding) : Forwarding :=
  match s.forwarder with
  | .receiving next =>
      match s.signals.recv broadcastCapacity next with
      | .ok .shutdown _ =>
          { s with forwarder := .ended, forwarded := s.forwarded ++ [.shutdown] }
      | .ok _ next => { s with forwarder := .receiving next }
      -- Both errors end `while let Ok(signal)`.
      | .lagged _ => { s with forwarder := .ended }
      | .pending => if s.closed then { s with forwarder := .ended } else s
  | _ => s

/-- What an event does, if it can happen. -/
def step (s : Forwarding) : Event → Forwarding
  | .send signal => if s.closed then s else { s with signals := s.signals.send signal }
  | .close => { s with closed := true }
  | .subscribe =>
      match s.forwarder, s.closed with
      | .spawned, false => { s with forwarder := .receiving s.signals.subscribe }
      | _, _ => s
  | .poll => s.poll

theorem step_send {s : Forwarding} (hclosed : s.closed = false) (signal : BroadcastSignal) :
  s.step (.send signal) = { s with signals := s.signals.send signal }
  := by
  rw [step, hclosed]
  rfl

theorem step_subscribe {s : Forwarding} (hspawned : s.forwarder = .spawned)
    (hclosed : s.closed = false) :
  s.step .subscribe = { s with forwarder := .receiving s.signals.subscribe }
  := by
  simp only [step, hspawned, hclosed]

/-- A `Shutdown` is forwarded, and is the last that is received. -/
theorem poll_shutdown {s : Forwarding} {next next' : Nat} (hreceiving : s.forwarder = .receiving next)
    (hrecv : s.signals.recv broadcastCapacity next = .ok .shutdown next') :
  s.step .poll = { s with forwarder := .ended, forwarded := s.forwarded ++ [.shutdown] }
  := by
  simp only [step, poll, hreceiving, hrecv]

/-- Any other signal is passed over. -/
theorem poll_other {s : Forwarding} {next next' : Nat} {signal : BroadcastSignal}
    (hreceiving : s.forwarder = .receiving next)
    (hrecv : s.signals.recv broadcastCapacity next = .ok signal next') (hsignal : signal ≠ .shutdown) :
  s.step .poll = { s with forwarder := .receiving next' }
  := by
  cases signal with
  | shutdown => cases hsignal rfl
  | _ => simp only [step, poll, hreceiving, hrecv]

/-- Who lags behind ends. -/
theorem poll_lagged {s : Forwarding} {next next' : Nat} (hreceiving : s.forwarder = .receiving next)
    (hrecv : s.signals.recv broadcastCapacity next = .lagged next') :
  s.step .poll = { s with forwarder := .ended }
  := by
  simp only [step, poll, hreceiving, hrecv]

/-- The state after some events. -/
def run (events : List Event) : Forwarding := events.foldl step start

theorem run_append_singleton (events : List Event) (event : Event) :
  run (events ++ [event]) = (run events).step event
  := by
  rw [run, List.foldl_append]
  rfl

/-! ### Outliving -/

/-- The task has forwarded a `Shutdown`. -/
def Forwarded (s : Forwarding) : Prop := .shutdown ∈ s.forwarded

/-- The task has still to receive the signal at a position. -/
def Awaits (s : Forwarding) (position : Nat) : Prop :=
  ∃ next ≤ position, s.forwarder = .receiving next

/-- The channel retains the signal at a position. -/
def Retains (s : Forwarding) (position : Nat) : Prop :=
  s.signals.sent.length ≤ position + broadcastCapacity

/-- A task that outlives all that happens. It ends only when it has forwarded a `Shutdown`, or the
senders are gone; it does not go past a `Shutdown` that is retained without forwarding it, nor end
before it; and it comes to every signal if it is scheduled often enough. -/
structure Outlives (events : List Event) : Prop where
  ended : ∀ before, before <+: events → (run before).forwarder = .ended →
    (run before).Forwarded ∨ (run before).closed = true
  passed : ∀ before between, before ++ between <+: events → ∀ position,
    (run before).Awaits position → (run before).signals.sent[position]? = some .shutdown →
    (run (before ++ between)).Retains position →
    (run (before ++ between)).Awaits position ∨ (run (before ++ between)).Forwarded
  reached : ∀ before between, before ++ between <+: events → ∀ next position,
    (run before).forwarder = .receiving next → position < (run before).signals.sent.length →
    position < next + between.count .poll → ¬ (run (before ++ between)).Awaits position

/-- The task is to receive, and more signals are ahead of it than the channel retains. -/
def Lags (s : Forwarding) : Prop :=
  ∃ next, s.forwarder = .receiving next ∧ next + broadcastCapacity < s.signals.sent.length

/-- The senders are gone, and no `Shutdown` is retained. -/
def Over (s : Forwarding) : Prop :=
  s.closed = true ∧ ∀ position, s.signals.sent[position]? = some .shutdown → ¬ s.Retains position

/-- Whenever the task receives, it does not lag behind, unless all is over. -/
def KeepsUp (events : List Event) : Prop :=
  ∀ before, before ++ [.poll] <+: events → (run before).Lags → (run before).Over

theorem KeepsUp.of_isPrefix {events events' : List Event} (h : KeepsUp events')
    (hbegins : events <+: events') :
  KeepsUp events
  := by
  intro before hbefore
  apply h before (hbefore.trans hbegins)

/-! ### Steps -/

/-- All that an event may do. A turn of the loop ends the task if it lags, with a `Shutdown`, or when
the senders are gone, takes another signal, or waits; and an event that cannot happen does nothing. -/
inductive Does (s : Forwarding) : Event → Forwarding → Prop where
  | send (signal : BroadcastSignal) :
      Does s (.send signal) { s with signals := s.signals.send signal }
  | close : Does s .close { s with closed := true }
  | subscribe (hspawned : s.forwarder = .spawned) :
      Does s .subscribe { s with forwarder := .receiving s.signals.subscribe }
  | lag (hlags : s.Lags) : Does s .poll { s with forwarder := .ended }
  | forward {next : Nat} (hnext : s.forwarder = .receiving next)
      (hsent : s.signals.sent[next]? = some .shutdown) :
      Does s .poll { s with forwarder := .ended, forwarded := s.forwarded ++ [.shutdown] }
  | ignore {next : Nat} {signal : BroadcastSignal} (hnext : s.forwarder = .receiving next)
      (hsent : s.signals.sent[next]? = some signal) (hsignal : signal ≠ .shutdown) :
      Does s .poll { s with forwarder := .receiving (next + 1) }
  | disconnect {next : Nat} (hnext : s.forwarder = .receiving next)
      (hend : s.signals.sent.length ≤ next) (hclosed : s.closed = true) :
      Does s .poll { s with forwarder := .ended }
  | wait {event : Event}
      (hwait : event = .poll → ∀ next, s.forwarder = .receiving next → s.signals.sent.length ≤ next) :
      Does s event s

theorem does_poll (s : Forwarding) :
  Does s .poll s.poll
  := by
  cases hforwarder : s.forwarder with
  | receiving next =>
      cases hrecv : s.signals.recv broadcastCapacity next with
      | lagged next' =>
          simp only [poll, hforwarder, hrecv]
          exact .lag ⟨next, hforwarder, (Broadcast.recv_eq_lagged_iff.mp hrecv).1⟩
      | ok signal next' =>
          obtain ⟨-, hsent, rfl⟩ := Broadcast.recv_eq_ok_iff.mp hrecv
          cases signal with
          | shutdown =>
              simp only [poll, hforwarder, hrecv]
              exact .forward hforwarder hsent
          | _ =>
              simp only [poll, hforwarder, hrecv]
              exact .ignore hforwarder hsent nofun
      | pending =>
          have hend := Broadcast.recv_eq_pending_iff.mp hrecv
          simp only [poll, hforwarder, hrecv]
          split
          · rename_i hclosed
            exact .disconnect hforwarder hend hclosed
          · apply Does.wait
            rintro - next' hnext'
            cases hforwarder.symm.trans hnext'
            exact hend
  | _ =>
      simp only [poll, hforwarder]
      apply Does.wait
      rintro - next hnext
      cases hforwarder.symm.trans hnext

/-- What a step does is one of these. -/
theorem does_step (s : Forwarding) (event : Event) :
  Does s event (s.step event)
  := by
  cases event with
  | send signal =>
      rw [step]
      split
      · exact .wait nofun
      · exact .send signal
  | close => exact .close
  | subscribe =>
      rw [step]
      split
      · rename_i hspawned _
        exact .subscribe hspawned
      · exact .wait nofun
  | poll => exact does_poll s

variable {s s' : Forwarding} {event : Event} {position : Nat}

/-- What was sent stays, so that no more is retained than was, and the senders stay away. -/
theorem Does.kept (h : Does s event s') :
  s.signals.sent <+: s'.signals.sent ∧ (s.closed = true → s'.closed = true)
  := by
  cases h with
  | send => exact ⟨List.prefix_append _ _, id⟩
  | close => exact ⟨List.prefix_rfl, fun _ => rfl⟩
  | _ => exact ⟨List.prefix_rfl, id⟩

theorem Does.getElem?_sent (h : Does s event s') {signal : BroadcastSignal}
    (hsent : s.signals.sent[position]? = some signal) :
  s'.signals.sent[position]? = some signal
  := by
  obtain ⟨rest, hrest⟩ := h.kept.1
  rw [← hrest, List.getElem?_append_left (List.getElem?_eq_some_iff.mp hsent).1]
  exact hsent

theorem Does.retains (h : Does s event s') (hretains : s'.Retains position) :
  s.Retains position
  := by
  have hlength := h.kept.1.length_le
  rw [Retains] at hretains ⊢
  omega

/-- What was forwarded stays, and the task forwards only what was sent, and then ends. -/
theorem Does.forwarded_cases (h : Does s event s') :
  s'.forwarded = s.forwarded ∨
    s'.forwarded = s.forwarded ++ [.shutdown] ∧ s'.forwarder = .ended ∧
      .shutdown ∈ s'.signals.sent
  := by
  cases h with
  | forward _ hsent => exact .inr ⟨rfl, rfl, List.mem_of_getElem? hsent⟩
  | _ => exact .inl rfl

theorem Does.forwarded (h : Does s event s') (hforwarded : s.Forwarded) :
  s'.Forwarded
  := by
  rcases h.forwarded_cases with heq | ⟨heq, -⟩
  · rw [Forwarded, heq]
    exact hforwarded
  · rw [Forwarded, heq]
    apply List.mem_append_left _ hforwarded

/-- A task that has ended does nothing. -/
theorem Does.ended (h : Does s event s') (hended : s.forwarder = .ended) :
  s'.forwarder = .ended
  := by
  cases h with
  | subscribe hspawned => cases hended.symm.trans hspawned
  | ignore hnext => cases hended.symm.trans hnext
  | send => exact hended
  | close => exact hended
  | wait => exact hended
  | _ => rfl

/-- A task that has begun does not begin again. -/
theorem Does.ne_spawned (h : Does s event s') (hbegun : s.forwarder ≠ .spawned) :
  s'.forwarder ≠ .spawned
  := by
  cases h with
  | send => exact hbegun
  | close => exact hbegun
  | wait => exact hbegun
  | _ => nofun

/-- A task ends only in a turn of its loop. -/
theorem Does.of_ended (h : Does s event s') (hended : s'.forwarder = .ended) :
  s.forwarder = .ended ∨ event = .poll ∧ (s.Lags ∨ s'.Forwarded ∨ s'.closed = true)
  := by
  cases h with
  | send => exact .inl hended
  | close => exact .inl hended
  | wait => exact .inl hended
  | subscribe => cases hended
  | ignore => cases hended
  | lag hlags => exact .inr ⟨rfl, .inl hlags⟩
  | forward =>
      right
      use rfl
      right; left
      apply List.mem_append_right _ (List.mem_singleton_self _)
  | disconnect _ _ hclosed => exact .inr ⟨rfl, .inr (.inr hclosed)⟩

/-- A task that has still to receive a `Shutdown` goes on to it, unless it lags, or forwards one. -/
theorem Does.awaits (h : Does s event s') (hawaits : s.Awaits position)
    (hshutdown : s.signals.sent[position]? = some .shutdown) :
  s'.Awaits position ∨ s'.Forwarded ∨ event = .poll ∧ s.Lags
  := by
  obtain ⟨next, hle, hnext⟩ := hawaits
  cases h with
  | send => exact .inl ⟨next, hle, hnext⟩
  | close => exact .inl ⟨next, hle, hnext⟩
  | wait => exact .inl ⟨next, hle, hnext⟩
  | subscribe hspawned => cases hnext.symm.trans hspawned
  | lag hlags => exact .inr (.inr ⟨rfl, hlags⟩)
  | forward =>
      right; left
      apply List.mem_append_right _ (List.mem_singleton_self _)
  | ignore hnext' hsent hsignal =>
      cases hnext.symm.trans hnext'
      left
      refine ⟨next + 1, ?_, rfl⟩
      apply Nat.lt_of_le_of_ne hle
      rintro rfl
      apply hsignal
      apply Option.some.inj (hsent.symm.trans hshutdown)
  | disconnect hnext' hend =>
      cases hnext.symm.trans hnext'
      have hlt := (List.getElem?_eq_some_iff.mp hshutdown).1
      omega

/-- A turn of the loop takes a signal, if there is one and the loop goes on. -/
theorem Does.receiving (h : Does s event s') (hbegun : s.forwarder ≠ .spawned)
    (hnext : s'.forwarder = .receiving position) (hlt : position < s.signals.sent.length) :
  ∃ next, s.forwarder = .receiving next ∧ next + [event].count .poll ≤ position
  := by
  cases h with
  | send => exact ⟨position, hnext, le_rfl⟩
  | close => exact ⟨position, hnext, le_rfl⟩
  | subscribe hspawned => cases hbegun hspawned
  | lag => cases hnext
  | forward => cases hnext
  | disconnect => cases hnext
  | ignore hnext' =>
      cases hnext
      exact ⟨_, hnext', le_rfl⟩
  | wait hwait =>
      use position, hnext
      rw [List.count_eq_zero_of_not_mem]
      · exact le_rfl
      · intro hmem
        have hend := hwait (List.mem_singleton.mp hmem).symm position hnext
        omega

/-! ### Runs -/

/-- In a run in which the task keeps up, it ends after a `Shutdown`, or when the senders are gone. -/
theorem forwarded_of_ended {events : List Event} (h : KeepsUp events)
    (hended : (run events).forwarder = .ended) :
  (run events).Forwarded ∨ (run events).closed = true
  := by
  induction events using List.reverseRecOn with
  | nil => cases hended
  | append_singleton events event ih =>
      rw [run_append_singleton] at hended ⊢
      have hstep := does_step (run events) event
      rcases hstep.of_ended hended with hended | ⟨rfl, hlags | hforwarded | hclosed⟩
      · rcases ih (h.of_isPrefix (List.prefix_append _ _)) hended with hforwarded | hclosed
        · left
          apply hstep.forwarded hforwarded
        · right
          apply hstep.kept.2 hclosed
      · right
        apply hstep.kept.2 (h events List.prefix_rfl hlags).1
      · left
        exact hforwarded
      · right
        exact hclosed

/-- In such a run, a `Shutdown` that is to be received stays to be received until it is forwarded, or
until it is not retained any more. -/
theorem awaits_or_forwarded {before between : List Event} (h : KeepsUp (before ++ between))
    {position : Nat} (hawaits : (run before).Awaits position)
    (hsent : (run before).signals.sent[position]? = some .shutdown) :
  (run (before ++ between)).signals.sent[position]? = some .shutdown ∧
    ((run (before ++ between)).Retains position →
      (run (before ++ between)).Awaits position ∨ (run (before ++ between)).Forwarded)
  := by
  induction between using List.reverseRecOn with
  | nil =>
      rw [List.append_nil]
      exact ⟨hsent, fun _ => .inl hawaits⟩
  | append_singleton between event ih =>
      rw [← List.append_assoc] at h ⊢
      rw [run_append_singleton]
      have hstep := does_step (run (before ++ between)) event
      obtain ⟨hsent', hkeeps⟩ := ih (h.of_isPrefix (List.prefix_append _ _))
      use hstep.getElem?_sent hsent'
      intro hretains
      have hretains' := hstep.retains hretains
      rcases hkeeps hretains' with hawaits' | hforwarded
      · rcases hstep.awaits hawaits' hsent' with hawaits' | hforwarded | ⟨rfl, hlags⟩
        · left
          exact hawaits'
        · right
          exact hforwarded
        · cases (h _ List.prefix_rfl hlags).2 position hsent' hretains'
      · right
        apply hstep.forwarded hforwarded

/-- The task takes a signal with every turn of its loop, as long as there is one. -/
theorem le_of_receiving {before between : List Event} {next position : Nat}
    (hnext : (run before).forwarder = .receiving next)
    (hlt : position < (run before).signals.sent.length) :
  position < (run (before ++ between)).signals.sent.length ∧
    (run (before ++ between)).forwarder ≠ .spawned ∧
    ∀ next' ≤ position, (run (before ++ between)).forwarder = .receiving next' →
      next + between.count .poll ≤ next'
  := by
  induction between using List.reverseRecOn with
  | nil =>
      rw [List.append_nil, hnext]
      refine ⟨hlt, nofun, ?_⟩
      rintro next' - heq
      cases heq
      exact le_rfl
  | append_singleton between event ih =>
      rw [← List.append_assoc, run_append_singleton, List.count_append]
      have hstep := does_step (run (before ++ between)) event
      obtain ⟨hlt', hbegun, hle⟩ := ih
      refine ⟨hlt'.trans_le hstep.kept.1.length_le, hstep.ne_spawned hbegun, ?_⟩
      intro next' hposition hnext'
      obtain ⟨m, hm, hcount⟩ := hstep.receiving hbegun hnext' (by omega)
      have hle' := hle m (by omega) hm
      omega

/-- A task that has forwarded a `Shutdown` has received one, and has ended. -/
theorem spec_of_forwarded {events : List Event} (h : (run events).Forwarded) :
  (run events).forwarder = .ended ∧ .shutdown ∈ (run events).signals.sent
  := by
  induction events using List.reverseRecOn with
  | nil => cases h
  | append_singleton events event ih =>
      rw [run_append_singleton] at h ⊢
      have hstep := does_step (run events) event
      rcases hstep.forwarded_cases with heq | ⟨-, hended, hmem⟩
      · rw [Forwarded, heq] at h
        obtain ⟨hended, hmem⟩ := ih h
        exact ⟨hstep.ended hended, hstep.kept.1.subset hmem⟩
      · exact ⟨hended, hmem⟩

/-- The task outlives exactly those runs in which it keeps up: as soon as it receives when it has
fallen behind, it ends too early, or misses a `Shutdown` that is retained. -/
theorem outlives_iff (events : List Event) :
  Outlives events ↔ KeepsUp events
  := by
  constructor
  · rintro h before hbefore ⟨next, hnext, hlags⟩
    have hpoll : run (before ++ [.poll]) = { run before with forwarder := .ended } := by
      have hrecv := Broadcast.recv_eq_lagged_iff.mpr ⟨hlags, rfl⟩
      rw [run_append_singleton, step, poll]
      simp only [hnext, hrecv]
    have hforwarded : ¬ (run (before ++ [.poll])).Forwarded := by
      intro hforwarded
      rw [hpoll] at hforwarded
      cases hnext.symm.trans (spec_of_forwarded hforwarded).1
    constructor
    · have hended := h.ended _ hbefore
      rw [hpoll] at hended hforwarded
      exact (hended rfl).resolve_left hforwarded
    · intro position hsent hretains
      have hawaits : (run before).Awaits position := by
        refine ⟨next, ?_, hnext⟩
        rw [Retains] at hretains
        omega
      rcases h.passed _ _ hbefore position hawaits hsent (by rw [hpoll]; exact hretains) with
        ⟨next', -, hnext'⟩ | hforwarded'
      · rw [hpoll] at hnext'
        cases hnext'
      · exact hforwarded hforwarded'
  · intro h
    constructor
    · intro before hbefore
      apply forwarded_of_ended (h.of_isPrefix hbefore)
    · intro before between hbetween position hawaits hsent
      apply (awaits_or_forwarded (h.of_isPrefix hbetween) hawaits hsent).2
    · rintro before between - next position hnext hlt hcount ⟨next', hle, hnext'⟩
      have hreceived := (le_of_receiving hnext hlt).2.2 next' hle hnext'
      omega

/-- It is not the case that the task outlives all runs: 33 signals of a download between two turns of
its loop end it, and the `Shutdown` that comes then is not forwarded. -/
theorem not_outlives :
  let progress := (List.range 33).map fun i => Event.send (.progressUpdate (i + 1) 33)
  ¬ Outlives ([.subscribe] ++ progress ++ [.poll, .send .shutdown, .poll])
  := by
  intro progress h
  rcases h.ended _ List.prefix_rfl (by rfl) with hforwarded | hclosed
  · cases hforwarded
  · cases hclosed

end Forwarding

/-! ### The task of the runtime -/

namespace Runtime

/-- The task as it stands among the others: its channel is theirs and has senders, and the commands
that it has forwarded were sent. -/
structure Follows (s : Runtime) (task : Forwarding) : Prop where
  signals_eq : task.signals = s.signals
  forwarder_eq : task.forwarder = s.forwarder
  closed_eq : task.closed = false
  forwarded_subset : task.forwarded ⊆ s.commands.commands.sent

/-- Whatever `init_tui` and `run` do is nothing to the forwarder. -/
theorem signals_of_tuiStep {s s' : Runtime} (h : TuiStep s s') :
  s'.signals = s.signals ∧ s'.forwarder = s.forwarder
  := by
  cases h <;> exact ⟨rfl, rfl⟩

theorem signals_of_runStep {s s' : Runtime} (h : RunStep s s') :
  s'.signals = s.signals ∧ s'.forwarder = s.forwarder
  := by
  cases h <;> exact ⟨rfl, rfl⟩

/-- Of the steps of the other tasks, those of the worker and of the peer server are nothing to the
forwarder, and the others are events for it. -/
theorem Follows.taskStep {s s' : Runtime} {task : Forwarding} (h : s.Follows task)
    (hstep : TaskStep s s') (hkept : task.forwarded ⊆ s'.commands.commands.sent) :
  s'.Follows task ∨ ∃ event, s'.Follows (task.step event)
  := by
  obtain ⟨hsignals, hforwarder, hclosed, hforwarded⟩ := h
  cases hstep with
  | worker => exact .inl ⟨hsignals, hforwarder, hclosed, hkept⟩
  | peer => exact .inl ⟨hsignals, hforwarder, hclosed, hkept⟩
  | @broadcast signal =>
      right
      use .send signal
      rw [Forwarding.step_send hclosed, hsignals]
      exact ⟨rfl, hforwarder, hclosed, hkept⟩
  | subscribe hspawned =>
      right
      use .subscribe
      rw [Forwarding.step_subscribe (hforwarder.trans hspawned) hclosed, hsignals]
      exact ⟨rfl, rfl, hclosed, hkept⟩
  | forward hreceiving hrecv =>
      right
      use .poll
      rw [← hsignals] at hrecv
      rw [Forwarding.poll_shutdown (hforwarder.trans hreceiving) hrecv]
      refine ⟨hsignals, rfl, hclosed, List.append_subset.mpr ⟨hkept, ?_⟩⟩
      rw [Commands.send, Channel.sent_send]
      apply List.subset_append_right
  | ignore hreceiving hrecv hsignal =>
      right
      use .poll
      rw [← hsignals] at hrecv
      rw [Forwarding.poll_other (hforwarder.trans hreceiving) hrecv hsignal]
      exact ⟨hsignals, rfl, hclosed, hkept⟩
  | lagged hreceiving hrecv =>
      right
      use .poll
      rw [← hsignals] at hrecv
      rw [Forwarding.poll_lagged (hforwarder.trans hreceiving) hrecv]
      exact ⟨hsignals, rfl, hclosed, hkept⟩

/-- A step of the runtime is an event for the task, or nothing. -/
theorem Follows.step {s s' : Runtime} {task : Forwarding} (h : s.Follows task) (hstep : Step s s') :
  s'.Follows task ∨ ∃ event, s'.Follows (task.step event)
  := by
  have hcommands : s.commands.commands.sent <+: s'.commands.commands.sent := by
    rcases commands_of_step hstep with hcommands | heq
    · apply Commands.sent_prefix_of_step hcommands
    · rw [heq]
  have hkept := List.Subset.trans h.forwarded_subset hcommands.subset
  cases hstep with
  | tui _ hstep =>
      obtain ⟨hsignals, hforwarder⟩ := signals_of_tuiStep hstep
      left
      exact ⟨h.signals_eq.trans hsignals.symm, h.forwarder_eq.trans hforwarder.symm, h.closed_eq,
        hkept⟩
  | run hstep =>
      obtain ⟨hsignals, hforwarder⟩ := signals_of_runStep hstep
      left
      exact ⟨h.signals_eq.trans hsignals.symm, h.forwarder_eq.trans hforwarder.symm, h.closed_eq,
        hkept⟩
  | task _ hstep => exact h.taskStep hstep hkept

/-- The forwarder of a node is this task: a run of all tasks is a run of it. -/
theorem exists_follows_of_run {s : Runtime} (h : Run start s) :
  ∃ events, s.Follows (Forwarding.run events)
  := by
  induction h with
  | refl =>
      use []
      exact ⟨rfl, rfl, rfl, List.Subset.refl _⟩
  | tail _ hstep ih =>
      obtain ⟨events, hfollows⟩ := ih
      rcases hfollows.step hstep with hfollows | ⟨event, hfollows⟩
      · exact ⟨events, hfollows⟩
      · use events ++ [event]
        rw [Forwarding.run_append_singleton]
        exact hfollows

/-- As nobody broadcasts a `Shutdown`, the forwarder of a node ends only because it has fallen
behind. -/
theorem not_outlives_of_ended {s : Runtime} (h : Run start s) (hended : s.forwarder = .ended) :
  ∃ events, s.Follows (Forwarding.run events) ∧ ¬ Forwarding.Outlives events
  := by
  obtain ⟨events, hfollows⟩ := exists_follows_of_run h
  use events, hfollows
  intro houtlives
  rcases houtlives.ended events List.prefix_rfl (hfollows.forwarder_eq.trans hended) with
    hforwarded | hclosed
  · have hmem := (Forwarding.spec_of_forwarded hforwarded).2
    rw [hfollows.signals_eq] at hmem
    exact shutdown_notMem_of_run h List.not_mem_nil hmem
  · cases hfollows.closed_eq.symm.trans hclosed

end Runtime

end Node
