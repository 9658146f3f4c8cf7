import Mathlib.Algebra.BigOperators.Group.List.Basic
import Mathlib.Algebra.Order.Ring.Nat
import Mathlib.Logic.Relation
import Mathlib.Tactic.Common

/-!
# Concurrent tasks

Some tasks run concurrently, in steps that may read and change a shared state, and a main program
awaits them one after another, in the order in which they were started, and returns what they
return, or the first error it meets. A `Pool` says what a task does, and what it will return
whatever the others do: its `outcome`, which is missing if it never returns. Whatever the schedule,
the main program returns what the outcomes say, and nothing if they say nothing
(`returned_eq_collect`),
and no schedule goes on for ever (`measure_lt`).
-/

universe u v w x

namespace Tasks

variable {σ : Type u} {τ : Type v} {ε : Type w} {α : Type x}

/-- A kind of tasks: `step` is the next step of a task with a given number, if it has one, and
`result` what a task that has finished returns. -/
structure Pool (σ : Type u) (τ : Type v) (ε : Type w) (α : Type x) where
  step : Nat → σ → τ → Option (σ × τ)
  result : σ → Option (Except ε α)
  outcome : Nat → σ → Option (Except ε α)
  remaining : Nat → σ → Nat
  outcome_step : ∀ {j t shared t' shared'}, step j t shared = some (t', shared') →
    outcome j t' = outcome j t
  outcome_of_result : ∀ {j t r}, result t = some r → outcome j t = some r
  outcome_of_stuck : ∀ {j t shared}, step j t shared = none → result t = none →
    outcome j t = none
  remaining_step : ∀ {j t shared t' shared'}, step j t shared = some (t', shared') →
    remaining j t' < remaining j t

/-- Where the tasks are, and what the main program has collected from them and returned. -/
structure State (σ : Type u) (τ : Type v) (ε : Type w) (α : Type x) where
  tasks : List σ
  shared : τ
  joined : List α
  returned : Option (Except ε (List α))

/-- The tasks have just been started. -/
def State.start (tasks : List σ) (shared : τ) : State σ τ ε α := ⟨tasks, shared, [], none⟩

variable (P : Pool σ τ ε α)

/-- A step of some task, or of the main program: it collects what the next task returned, or
returns the error of that task, or returns what it has collected. -/
inductive Step : State σ τ ε α → State σ τ ε α → Prop where
  | task {s : State σ τ ε α} {j : Nat} {t t' : σ} {shared' : τ} (ht : s.tasks[j]? = some t)
      (hstep : P.step j t s.shared = some (t', shared')) :
      Step s { s with tasks := s.tasks.set j t', shared := shared' }
  | join {s : State σ τ ε α} {t : σ} {a : α} (hreturned : s.returned = none)
      (ht : s.tasks[s.joined.length]? = some t) (hresult : P.result t = some (.ok a)) :
      Step s { s with joined := s.joined ++ [a] }
  | fail {s : State σ τ ε α} {t : σ} {e : ε} (hreturned : s.returned = none)
      (ht : s.tasks[s.joined.length]? = some t) (hresult : P.result t = some (.error e)) :
      Step s { s with returned := some (.error e) }
  | finish {s : State σ τ ε α} (hreturned : s.returned = none)
      (hjoined : s.joined.length = s.tasks.length) :
      Step s { s with returned := some (.ok s.joined) }

/-- A state that some schedule leads to. -/
abbrev Reachable : State σ τ ε α → State σ τ ε α → Prop := Relation.ReflTransGen (Step P)

/-- A state in which nothing can happen any more. -/
def Final (s : State σ τ ε α) : Prop := ∀ s', ¬ Step P s s'

/-- A final state is not left. -/
theorem Final.eq_of_reachable {s s' : State σ τ ε α} (h : Final P s) (hreach : Reachable P s s') :
  s' = s
  := by
  rcases hreach.cases_head with heq | ⟨next, hstep, -⟩
  · exact heq.symm
  · exact absurd hstep (h next)

/-- Without tasks, nothing happens after the main program has returned. -/
theorem final_of_tasks_eq_nil {s : State σ τ ε α} {r : Except ε (List α)} (htasks : s.tasks = [])
    (hr : s.returned = some r) :
  Final P s
  := by
  intro s' hstep
  cases hstep with
  | task ht _ => simp [htasks] at ht
  | join hreturned _ _ => simp [hreturned] at hr
  | fail hreturned _ _ => simp [hreturned] at hr
  | finish hreturned _ => simp [hreturned] at hr

/-! ### What is returned -/

/-- What the main program returns if the tasks return `outcomes`. -/
def collect : List (Option (Except ε α)) → Option (Except ε (List α))
  | [] => some (.ok [])
  | none :: _ => none
  | some (.error e) :: _ => some (.error e)
  | some (.ok a) :: rest =>
      match collect rest with
      | some (.ok as) => some (.ok (a :: as))
      | r => r

theorem collect_eq_some_ok_iff {outcomes : List (Option (Except ε α))} {as : List α} :
  collect outcomes = some (.ok as) ↔ outcomes = as.map fun a => some (.ok a)
  := by
  induction outcomes generalizing as with
  | nil => cases as <;> simp [collect]
  | cons o outcomes ih =>
      cases o with
      | none => cases as <;> simp [collect]
      | some r =>
          cases r with
          | error e => cases as <;> simp [collect]
          | ok a =>
              rw [collect]
              cases as with
              | nil =>
                  split
                  · simp
                  · rename_i hne
                    constructor
                    · intro h
                      exact absurd h (hne [])
                    · intro h
                      simp at h
              | cons a' as =>
                  rw [List.map_cons, List.cons.injEq, ← ih]
                  split
                  · rename_i h
                    simp [h]
                  · rename_i hne
                    constructor
                    · intro h
                      exact absurd h (hne _)
                    · rintro ⟨-, h⟩
                      exact absurd h (hne as)

/-- Tasks that succeeded are passed over. -/
theorem collect_append_error (as : List α) (e : ε) (rest : List (Option (Except ε α))) :
  collect (as.map (fun a => some (.ok a)) ++ some (.error e) :: rest) = some (.error e)
  := by
  induction as with
  | nil => rfl
  | cons a as ih =>
      rw [List.map_cons, List.cons_append, collect, ih]

theorem collect_append_none (as : List α) (rest : List (Option (Except ε α))) :
  collect (as.map (fun a => some (.ok a)) ++ none :: rest) = none
  := by
  induction as with
  | nil => rfl
  | cons a as ih =>
      rw [List.map_cons, List.cons_append, collect, ih]

/-- What the tasks will return. -/
def Pool.outcomes (tasks : List σ) : List (Option (Except ε α)) := tasks.mapIdx P.outcome

theorem getElem?_outcomes (tasks : List σ) (j : Nat) :
  (P.outcomes tasks)[j]? = tasks[j]?.map (P.outcome j)
  := by
  rw [Pool.outcomes, List.getElem?_mapIdx]

/-- A step of one task changes no outcome. -/
theorem outcomes_set {tasks : List σ} {j : Nat} {t t' : σ} {shared shared' : τ}
    (ht : tasks[j]? = some t) (hstep : P.step j t shared = some (t', shared')) :
  P.outcomes (tasks.set j t') = P.outcomes tasks
  := by
  apply List.ext_getElem?
  intro k
  rw [getElem?_outcomes, getElem?_outcomes, List.getElem?_set]
  by_cases hk : j = k
  · subst hk
    obtain ⟨hlt, rfl⟩ := List.getElem?_eq_some_iff.mp ht
    simp [hlt, P.outcome_step hstep]
  · rw [if_neg hk]

/-- What is kept by every step: the outcomes of the tasks, that what was collected is what the first
tasks return, and that what was returned is what the outcomes say. -/
structure Inv (outcomes : List (Option (Except ε α))) (s : State σ τ ε α) : Prop where
  outcomes_eq : P.outcomes s.tasks = outcomes
  take_eq : outcomes.take s.joined.length = s.joined.map fun a => some (.ok a)
  collect_eq : ∀ r, s.returned = some r → collect outcomes = some r

variable {P}

theorem Inv.start (tasks : List σ) (shared : τ) :
  Inv P (P.outcomes tasks) (State.start tasks shared)
  := by
  constructor
  · rfl
  · rfl
  · intro r hr
    simp [State.start] at hr

/-- The outcomes, if the next task to be collected has a given one. -/
theorem Inv.split {outcomes : List (Option (Except ε α))} {s : State σ τ ε α}
    (h : Inv P outcomes s) {t : σ} (ht : s.tasks[s.joined.length]? = some t) :
  outcomes = s.joined.map (fun a => some (.ok a))
    ++ P.outcome s.joined.length t :: outcomes.drop (s.joined.length + 1)
  := by
  have hget : outcomes[s.joined.length]? = some (P.outcome s.joined.length t) := by
    rw [← h.outcomes_eq, getElem?_outcomes, ht]
    rfl
  obtain ⟨hlt, hget⟩ := List.getElem?_eq_some_iff.mp hget
  rw [← h.take_eq, ← hget, ← List.drop_eq_getElem_cons hlt, List.take_append_drop]

/-- Every step keeps the invariant. -/
theorem Inv.step {outcomes : List (Option (Except ε α))} {s s' : State σ τ ε α}
    (h : Inv P outcomes s) (hstep : Step P s s') :
  Inv P outcomes s'
  := by
  cases hstep with
  | task ht hstep =>
      constructor
      · rw [← h.outcomes_eq]
        apply outcomes_set P ht hstep
      · exact h.take_eq
      · exact h.collect_eq
  | @join t a hreturned ht hresult =>
      constructor
      · exact h.outcomes_eq
      · have hsplit := h.split ht
        rw [P.outcome_of_result hresult] at hsplit
        rw [hsplit]
        have hlength : (s.joined ++ [a]).length
            = (s.joined.map fun a => some (Except.ok (ε := ε) a)).length + 1 := by simp
        rw [hlength, List.take_length_add_append, List.map_append]
        rfl
      · intro r hr
        rw [hreturned] at hr
        simp at hr
  | @fail t e hreturned ht hresult =>
      constructor
      · exact h.outcomes_eq
      · exact h.take_eq
      · intro r hr
        obtain rfl := Option.some.inj hr
        rw [h.split ht, P.outcome_of_result hresult, collect_append_error]
  | finish hreturned hjoined =>
      constructor
      · exact h.outcomes_eq
      · exact h.take_eq
      · intro r hr
        obtain rfl := Option.some.inj hr
        have hlength : outcomes.length = s.tasks.length := by
          rw [← h.outcomes_eq, Pool.outcomes, List.length_mapIdx]
        apply collect_eq_some_ok_iff.mpr
        rw [← h.take_eq, hjoined, List.take_of_length_le (Nat.le_of_eq hlength)]

theorem Inv.reachable {outcomes : List (Option (Except ε α))} {s s' : State σ τ ε α}
    (h : Inv P outcomes s) (hreach : Reachable P s s') :
  Inv P outcomes s'
  := by
  induction hreach with
  | refl => exact h
  | tail _ hstep ih => exact ih.step hstep

/-- In a final state, the main program has returned what the outcomes say. -/
theorem Inv.returned_eq {outcomes : List (Option (Except ε α))} {s : State σ τ ε α}
    (h : Inv P outcomes s) (hfinal : Final P s) :
  s.returned = collect outcomes
  := by
  cases hreturned : s.returned with
  | some r => exact (h.collect_eq r hreturned).symm
  | none =>
      have hle : s.joined.length ≤ s.tasks.length := by
        have htake := congrArg List.length h.take_eq
        rw [List.length_map, List.length_take, ← h.outcomes_eq, Pool.outcomes,
          List.length_mapIdx] at htake
        omega
      rcases Nat.lt_or_ge s.joined.length s.tasks.length with hlt | hge
      · have ht : s.tasks[s.joined.length]? = some s.tasks[s.joined.length] :=
          List.getElem?_eq_getElem hlt
        have hnone : P.result s.tasks[s.joined.length] = none := by
          cases hresult : P.result s.tasks[s.joined.length] with
          | none => rfl
          | some r =>
              cases r with
              | ok a => exact absurd (Step.join hreturned ht hresult) (hfinal _)
              | error e => exact absurd (Step.fail hreturned ht hresult) (hfinal _)
        have hstuck : P.step s.joined.length s.tasks[s.joined.length] s.shared = none := by
          cases hstep : P.step s.joined.length s.tasks[s.joined.length] s.shared with
          | none => rfl
          | some p => exact absurd (Step.task ht hstep) (hfinal _)
        rw [h.split ht, P.outcome_of_stuck hstuck hnone, collect_append_none]
      · exact absurd (Step.finish hreturned (by omega)) (hfinal _)

/-- Whatever the schedule, at its end the main program has returned what the outcomes say. -/
theorem returned_eq_collect {tasks : List σ} {shared : τ} {s : State σ τ ε α}
    (hreach : Reachable P (State.start tasks shared) s) (hfinal : Final P s) :
  s.returned = collect (P.outcomes tasks)
  := ((Inv.start tasks shared).reachable hreach).returned_eq hfinal

/-- Whatever has been returned in some state is what the outcomes say. -/
theorem collect_of_returned {tasks : List σ} {shared : τ} {s : State σ τ ε α}
    (hreach : Reachable P (State.start tasks shared) s) {r : Except ε (List α)}
    (hr : s.returned = some r) :
  collect (P.outcomes tasks) = some r
  := ((Inv.start tasks shared).reachable hreach).collect_eq r hr

/-! ### Every schedule ends -/

/-- A bound on the number of steps that can still happen. -/
def measure (P : Pool σ τ ε α) (s : State σ τ ε α) : Nat :=
  (s.tasks.mapIdx P.remaining).sum + (s.tasks.length - s.joined.length)
    + (if s.returned.isNone then 1 else 0)

theorem sum_set_lt {l : List Nat} {j n : Nat} (hj : j < l.length) (hn : n < l[j]) :
  (l.set j n).sum < l.sum
  := by
  induction l generalizing j with
  | nil => simp at hj
  | cons m l ih =>
      cases j with
      | zero =>
          simp only [List.getElem_cons_zero] at hn
          simp only [List.set_cons_zero, List.sum_cons]
          omega
      | succ j =>
          simp only [List.getElem_cons_succ] at hn
          have hrest := ih (by simpa using hj) hn
          simp only [List.set_cons_succ, List.sum_cons]
          omega

/-- Every step makes the measure smaller. -/
theorem measure_lt {s s' : State σ τ ε α} (h : Step P s s') :
  measure P s' < measure P s
  := by
  cases h with
  | @task j t t' shared' ht hstep =>
      obtain ⟨hlt, ht⟩ := List.getElem?_eq_some_iff.mp ht
      have hsum : ((s.tasks.set j t').mapIdx P.remaining).sum
          < (s.tasks.mapIdx P.remaining).sum := by
        rw [List.mapIdx_set]
        apply sum_set_lt (by simpa using hlt)
        rw [List.getElem_mapIdx, ht]
        apply P.remaining_step hstep
      simp only [measure, List.length_set]
      omega
  | join hreturned ht hresult =>
      obtain ⟨hlt, -⟩ := List.getElem?_eq_some_iff.mp ht
      simp only [measure, List.length_append, List.length_singleton]
      omega
  | fail hreturned ht hresult => simp [measure, hreturned]
  | finish hreturned hjoined => simp [measure, hreturned]

/-- Every schedule can be followed to its end. -/
theorem exists_final (P : Pool σ τ ε α) (s : State σ τ ε α) :
  ∃ s', Reachable P s s' ∧ Final P s'
  := by
  induction hn : measure P s using Nat.strongRecOn generalizing s with
  | ind n ih =>
      by_cases hfinal : Final P s
      · exact ⟨s, Relation.ReflTransGen.refl, hfinal⟩
      · rw [Final, not_forall] at hfinal
        obtain ⟨s₁, hstep⟩ := hfinal
        rw [not_not] at hstep
        obtain ⟨s', hreach, hfinal⟩ := ih _ (hn ▸ measure_lt hstep) s₁ rfl
        exact ⟨s', Relation.ReflTransGen.head hstep hreach, hfinal⟩

/-! ### Tasks that are left -/

/-- Whatever happens, a task will return what it would have returned. -/
theorem exists_outcome_of_reachable {P : Pool σ τ ε α} {s s' : State σ τ ε α}
    (hreach : Reachable P s s') {j : Nat} {t : σ} (ht : s.tasks[j]? = some t) :
  ∃ t', s'.tasks[j]? = some t' ∧ P.outcome j t' = P.outcome j t
  := by
  induction hreach with
  | refl => use t, ht
  | tail _ hstep ih =>
      obtain ⟨t', ht', houtcome⟩ := ih
      cases hstep with
      | @task i u u' shared' hu hstep =>
          by_cases hij : i = j
          · subst hij
            obtain ⟨hi, -⟩ := List.getElem?_eq_some_iff.mp hu
            obtain rfl := Option.some.inj (hu.symm.trans ht')
            use u', List.getElem?_set_self hi
            rw [P.outcome_step hstep, houtcome]
          · use t'
            rw [List.getElem?_set_ne hij]
            use ht'
      | join => use t', ht'
      | fail => use t', ht'
      | finish => use t', ht'

/-- A task that will return something can be run until it does. -/
theorem exists_result (P : Pool σ τ ε α) {s : State σ τ ε α} {j : Nat} {t : σ}
    (ht : s.tasks[j]? = some t) {r : Except ε α} (hr : P.outcome j t = some r) :
  ∃ s' t', Reachable P s s' ∧ s'.tasks[j]? = some t' ∧ P.result t' = some r
  := by
  obtain ⟨s', hreach, hfinal⟩ := exists_final P s
  obtain ⟨t', ht', houtcome⟩ := exists_outcome_of_reachable hreach ht
  refine ⟨s', t', hreach, ht', ?_⟩
  cases hresult : P.result t' with
  | some r' => rw [← hr, ← houtcome, P.outcome_of_result hresult]
  | none =>
      cases hstep : P.step j t' s'.shared with
      | some next => exact absurd (Step.task ht' hstep) (hfinal _)
      | none =>
          have hnone := P.outcome_of_stuck hstep hresult
          rw [houtcome, hr] at hnone
          cases hnone

end Tasks
