import Mathlib.Data.List.Induction
import Mathlib.Logic.Function.Basic
import Mathlib.Order.Lattice
import Mathlib.Tactic.Common

/-!
# Lease maps

A lease map gives some keys a value that runs until the value's expiry. A store may drop what has
run out at any moment it likes, a *sweep*, and need not drop it at once. `live expiry t m` is what
an observer at time `t` sees of the map `m`: the values that still run. Two maps *agree from `t`*
when observers see the same in both from `t` on.

A history is a list of writes and sweeps. The store that executes its sweeps agrees, from the last
sweep on, with the lease map that ignores them (`agreeFrom_foldl`), and the lease map has of each
key what was last written to it (`foldl_specify_apply`).
-/

universe u v w

namespace Lease

variable {K : Type u} {V : Type v} {T : Type w} [LinearOrder T] (expiry : V → T)

/-- What still runs at `t`. -/
def live (t : T) (m : K → Option V) : K → Option V :=
  fun k => (m k).filter fun x => t < expiry x

theorem live_eq_some_iff {t : T} {m : K → Option V} {k : K} {x : V} :
  live expiry t m k = some x ↔ m k = some x ∧ t < expiry x
  := by
  simp [live, Option.filter_eq_some_iff]

/-- What runs at `t` ran at every earlier time. -/
theorem live_live {s t : T} (h : s ≤ t) (m : K → Option V) :
  live expiry t (live expiry s m) = live expiry t m
  := by
  funext k
  apply Option.ext
  intro x
  rw [live_eq_some_iff, live_eq_some_iff, live_eq_some_iff]
  constructor
  · rintro ⟨⟨hm, -⟩, ht⟩
    exact ⟨hm, ht⟩
  · rintro ⟨hm, ht⟩
    exact ⟨⟨hm, lt_of_le_of_lt h ht⟩, ht⟩

/-- Observers see the same in `m` and in `m'`, from `t` on. -/
def AgreeFrom (t : T) (m m' : K → Option V) : Prop := live expiry t m = live expiry t m'

variable {expiry}

theorem AgreeFrom.refl (t : T) (m : K → Option V) :
  AgreeFrom expiry t m m
  := rfl

theorem AgreeFrom.mono {s t : T} {m m' : K → Option V} (h : AgreeFrom expiry s m m')
    (hst : s ≤ t) :
  AgreeFrom expiry t m m'
  := by
  rw [AgreeFrom, ← live_live expiry hst m, ← live_live expiry hst m', h]

/-- A map agrees with what it was before a sweep. -/
theorem AgreeFrom.sweep {s t : T} {m m' : K → Option V} (h : AgreeFrom expiry t m m')
    (hst : s ≤ t) :
  AgreeFrom expiry t (live expiry s m) m'
  := by
  rw [AgreeFrom, live_live expiry hst, h]

variable [DecidableEq K]

/-- Maps that agree still agree after the same write. -/
theorem AgreeFrom.update {t : T} {m m' : K → Option V} (h : AgreeFrom expiry t m m') (k : K)
    (x : Option V) :
  AgreeFrom expiry t (Function.update m k x) (Function.update m' k x)
  := by
  funext j
  by_cases hj : j = k
  · subst hj
    simp [live]
  · have hjk := congrFun h j
    simpa [live, Function.update_of_ne hj] using hjk

/-! ### Histories -/

/-- Something that happens to a store: a value is written to a key, or the key's value removed,
or what has run out at `now` is dropped. -/
inductive Event (K : Type u) (V : Type v) (T : Type w) where
  | write (k : K) (x : Option V)
  | sweep (now : T)

/-- What an event does to a store. -/
def Event.execute (expiry : V → T) (m : K → Option V) : Event K V T → K → Option V
  | .write k x => Function.update m k x
  | .sweep now => live expiry now m

/-- What an event does to the lease map. -/
def Event.specify (m : K → Option V) : Event K V T → K → Option V
  | .write k x => Function.update m k x
  | .sweep _ => m

/-- The sweeps of a history have happened by `t`. -/
def SweptBy (t : T) (events : List (Event K V T)) : Prop :=
  ∀ now, Event.sweep now ∈ events → now ≤ t

/-- From the last sweep on, the store agrees with the lease map. -/
theorem agreeFrom_foldl {t : T} {events : List (Event K V T)} (h : SweptBy t events)
    {m m' : K → Option V} (hm : AgreeFrom expiry t m m') :
  AgreeFrom expiry t (events.foldl (Event.execute expiry) m) (events.foldl Event.specify m')
  := by
  induction events generalizing m m' with
  | nil => exact hm
  | cons e events ih =>
      have hrest : SweptBy t events := fun now hnow => h now (List.mem_cons_of_mem _ hnow)
      rw [List.foldl_cons, List.foldl_cons]
      apply ih hrest
      cases e with
      | write k x => apply hm.update
      | sweep now => apply hm.sweep (h now List.mem_cons_self)

/-- What holds of the values in a store at first, and of every value written, holds of all values
in the store. -/
theorem forall_foldl_execute {P : K → V → Prop} {events : List (Event K V T)}
    (hwrite : ∀ k x, Event.write k (some x) ∈ events → P k x) {m : K → Option V}
    (hm : ∀ k x, m k = some x → P k x) :
  ∀ k x, events.foldl (Event.execute expiry) m k = some x → P k x
  := by
  induction events generalizing m with
  | nil => exact hm
  | cons e events ih =>
      rw [List.foldl_cons]
      apply ih (fun k x h => hwrite k x (List.mem_cons_of_mem _ h))
      intro k x hx
      cases e with
      | write j y =>
          by_cases hj : k = j
          · subst hj
            rw [Event.execute, Function.update_self] at hx
            subst hx
            apply hwrite k x List.mem_cons_self
          · rw [Event.execute, Function.update_of_ne hj] at hx
            apply hm k x hx
      | sweep now =>
          apply hm k x ((live_eq_some_iff expiry).mp hx).1

omit [LinearOrder T]

/-- What an event writes to the key `k`, if it does. -/
def Event.writeTo (k : K) : Event K V T → Option (Option V)
  | .write j x => if j = k then some x else none
  | .sweep _ => none

/-- What a history last writes to the key `k`, if it does. -/
def lastWrite (k : K) (events : List (Event K V T)) : Option (Option V) :=
  events.reverse.findSome? (Event.writeTo k)

theorem lastWrite_append (k : K) (events events' : List (Event K V T)) :
  lastWrite k (events ++ events') = (lastWrite k events').or (lastWrite k events)
  := by
  rw [lastWrite, List.reverse_append, List.findSome?_append]
  rfl

/-- The lease map has of each key what was last written to it. -/
theorem foldl_specify_apply (events : List (Event K V T)) (m : K → Option V) (k : K) :
  events.foldl Event.specify m k = (lastWrite k events).getD (m k)
  := by
  induction events using List.reverseRecOn with
  | nil => rfl
  | append_singleton events e ih =>
      rw [List.foldl_append, lastWrite_append]
      cases e with
      | write j x =>
          by_cases hj : j = k
          · subst hj
            simp [Event.specify, Event.writeTo, lastWrite]
          · simp [Event.specify, Event.writeTo, hj, Function.update_of_ne (Ne.symm hj), ih,
              lastWrite]
      | sweep now => simp [Event.specify, Event.writeTo, ih, lastWrite]

end Lease

/-! ### The last of its kind -/

/-- Of two places in a list neither of which is after the other, both are the same. -/
theorem List.eq_of_append_cons_eq {α : Type u} {before before' after after' : List α} {a a' : α}
    (heq : before ++ a :: after = before' ++ a' :: after') (h : a ∉ after') (h' : a' ∉ after) :
  a = a'
  := by
  rcases List.append_eq_append_iff.mp heq with ⟨between, -, hsplit⟩ | ⟨between, -, hsplit⟩
  · cases between with
    | nil => exact (List.cons.inj hsplit).1
    | cons b between =>
        rw [(List.cons.inj hsplit).2] at h'
        cases h' (List.mem_append_right _ List.mem_cons_self)
  · cases between with
    | nil => exact (List.cons.inj hsplit).1.symm
    | cons b between =>
        rw [(List.cons.inj hsplit).2] at h
        cases h (List.mem_append_right _ List.mem_cons_self)
