import Mathlib.Tactic.Common

/-!
# Broadcast channels

Every receiver of a broadcast channel gets every item that is sent after it subscribed, unless it
falls more than the capacity behind: then it is told so, once, and goes on with the oldest item that
is retained.
-/

universe u

variable {α : Type u}

/-- A broadcast channel, as all that was sent into it. A receiver is a position in it. -/
structure Broadcast (α : Type u) where
  sent : List α

namespace Broadcast

/-- What a receiver gets, and its next position. -/
inductive Recv (α : Type u) where
  | pending
  | lagged (next : Nat)
  | ok (a : α) (next : Nat)

/-- Nothing has been sent. -/
def empty : Broadcast α := ⟨[]⟩

def send (b : Broadcast α) (a : α) : Broadcast α := ⟨b.sent ++ [a]⟩

/-- The position of a new receiver. -/
def subscribe (b : Broadcast α) : Nat := b.sent.length

/-- What the receiver at a position gets, when the channel retains `capacity` items. -/
def recv (capacity : Nat) (b : Broadcast α) (next : Nat) : Recv α :=
  if next + capacity < b.sent.length then .lagged (b.sent.length - capacity)
  else match b.sent[next]? with
    | some a => .ok a (next + 1)
    | none => .pending

variable {capacity : Nat} {b : Broadcast α} {next next' : Nat} {a : α}

/-- A receiver is told that it fell behind exactly when it did, and goes on with what is retained. -/
theorem recv_eq_lagged_iff :
  b.recv capacity next = .lagged next'
    ↔ next + capacity < b.sent.length ∧ next' = b.sent.length - capacity
  := by
  rw [recv]
  split_ifs with hlag
  · rw [Recv.lagged.injEq, eq_comm]
    simp only [hlag, true_and]
  · split
    · simp only [hlag, false_and, reduceCtorEq]
    · simp only [hlag, false_and, reduceCtorEq]

/-- Otherwise it gets the item at its position. -/
theorem recv_eq_ok_iff :
  b.recv capacity next = .ok a next'
    ↔ b.sent.length ≤ next + capacity ∧ b.sent[next]? = some a ∧ next' = next + 1
  := by
  rw [recv, ← Nat.not_lt]
  split_ifs with hlag
  · simp only [hlag, not_true, false_and]
  · cases b.sent[next]? with
    | none => simp only [reduceCtorEq, false_and, and_false]
    | some item =>
        simp only [Recv.ok.injEq, hlag, not_false_iff, true_and, Option.some.injEq, eq_comm]

/-- It waits if it has got all. -/
theorem recv_eq_pending_iff :
  b.recv capacity next = .pending ↔ b.sent.length ≤ next
  := by
  rw [recv, ← List.getElem?_eq_none_iff]
  split_ifs with hlag
  · have hnext : next < b.sent.length := by omega
    simp only [List.getElem?_eq_getElem hnext, reduceCtorEq]
  · cases b.sent[next]? with
    | none => simp only
    | some item => simp only [reduceCtorEq]

/-- A receiver gets only what was sent. -/
theorem mem_of_recv_eq_ok (h : b.recv capacity next = .ok a next') :
  a ∈ b.sent
  := by
  apply List.mem_of_getElem? (recv_eq_ok_iff.mp h).2.1

end Broadcast
