import Mathlib.Data.List.Infix
import Mathlib.Data.List.TakeWhile
import Mathlib.Logic.Relation
import Mathlib.Tactic.Common

/-!
# Channels, and a relay between two of them

A channel delivers what was sent into it, in order, without loss or repetition. A relay receives
from one channel and sends into another until it meets a stop. Whoever receives from the other end
gets a prefix of what was sent before the first stop (`Relay.received_prefix_takeWhile`).
-/

universe u

variable {α : Type u}

/-- A channel, as what was received from it and what still waits in it. -/
structure Channel (α : Type u) where
  received : List α
  waiting : List α

namespace Channel

/-- Nothing has been sent. -/
def empty : Channel α := ⟨[], []⟩

/-- All that was sent. -/
def sent (c : Channel α) : List α := c.received ++ c.waiting

def send (c : Channel α) (a : α) : Channel α := { c with waiting := c.waiting ++ [a] }

/-- The item that waits longest, and the channel without it. -/
def recv? (c : Channel α) : Option (α × Channel α) :=
  match c.waiting with
  | [] => none
  | a :: rest => some (a, ⟨c.received ++ [a], rest⟩)

@[simp]
theorem sent_send (c : Channel α) (a : α) :
  (c.send a).sent = c.sent ++ [a]
  := by
  rw [sent, sent, send, List.append_assoc]

@[simp]
theorem received_send (c : Channel α) (a : α) :
  (c.send a).received = c.received
  := rfl

/-- What was received was sent, and in the same order. -/
theorem received_prefix_sent (c : Channel α) :
  c.received <+: c.sent
  := List.prefix_append _ _

theorem recv?_eq_some {c c' : Channel α} {a : α} (h : c.recv? = some (a, c')) :
  c.waiting = a :: c'.waiting ∧ c'.received = c.received ++ [a]
  := by
  unfold recv? at h
  split at h
  · cases h
  · rename_i hwaiting
    cases h
    exact ⟨hwaiting, rfl⟩

theorem received_of_recv? {c c' : Channel α} {a : α} (h : c.recv? = some (a, c')) :
  c'.received = c.received ++ [a]
  := (recv?_eq_some h).2

/-- Receiving changes nothing about what was sent. -/
theorem sent_of_recv? {c c' : Channel α} {a : α} (h : c.recv? = some (a, c')) :
  c'.sent = c.sent
  := by
  obtain ⟨hwaiting, hreceived⟩ := recv?_eq_some h
  rw [sent, sent, hreceived, hwaiting, List.append_assoc]
  rfl

end Channel

/-- A prefix without a stop is a prefix of what comes before the first stop. -/
theorem List.prefix_takeWhile_iff {p : α → Bool} {l₁ l₂ : List α} :
  l₁ <+: l₂.takeWhile p ↔ l₁ <+: l₂ ∧ ∀ a ∈ l₁, p a
  := by
  constructor
  · intro h
    constructor
    · apply h.trans (List.takeWhile_prefix p)
    · intro a ha
      apply List.mem_takeWhile_imp (h.subset ha)
  · rintro ⟨⟨rest, rfl⟩, hall⟩
    rw [List.takeWhile_append_of_pos hall]
    apply List.prefix_append

/-- What follows on a list with an item that ends it does not lengthen what comes before. -/
theorem List.takeWhile_eq_of_prefix {p : α → Bool} {l l' : List α} {a : α} (ha : a ∈ l)
    (hp : p a = false) (h : l <+: l') :
  l'.takeWhile p = l.takeWhile p
  := by
  obtain ⟨rest, rfl⟩ := h
  induction l with
  | nil => cases ha
  | cons b l ih =>
      rw [List.cons_append, List.takeWhile_cons, List.takeWhile_cons]
      cases hb : p b with
      | false => simp only [Bool.false_eq_true, if_false]
      | true =>
          have hmem : a ∈ l := by
            rcases List.mem_cons.mp ha with rfl | hmem
            · cases hb.symm.trans hp
            · exact hmem
          simp only [if_true, ih hmem]

/-- A channel that a relay receives from, a channel that it sends into, and whether it is still
going. -/
structure Relay (α : Type u) where
  source : Channel α
  target : Channel α
  going : Bool

namespace Relay

/-- Nothing has been sent yet. -/
def start : Relay α := ⟨.empty, .empty, true⟩

variable {stop : α → Bool}

/-- An item is sent, passed on, lost by a relay that ends with it, or delivered. The relay may also
end at any time. -/
inductive Step (stop : α → Bool) : Relay α → Relay α → Prop where
  | send (r : Relay α) (a : α) : Step stop r { r with source := r.source.send a }
  | pass {r : Relay α} {a : α} {source : Channel α} (hgoing : r.going = true)
      (hrecv : r.source.recv? = some (a, source)) (ha : stop a = false) :
      Step stop r { r with source := source, target := r.target.send a }
  | lose {r : Relay α} {a : α} {source : Channel α} (hrecv : r.source.recv? = some (a, source)) :
      Step stop r { r with source := source, going := false }
  | halt (r : Relay α) : Step stop r { r with going := false }
  | deliver {r : Relay α} {a : α} {target : Channel α}
      (hrecv : r.target.recv? = some (a, target)) :
      Step stop r { r with target := target }

/-- What was passed on was sent before the first stop, and as long as the relay is going it is all
that was received. -/
structure Faithful (stop : α → Bool) (r : Relay α) : Prop where
  target_prefix_source : r.target.sent <+: r.source.sent
  not_stop : ∀ a ∈ r.target.sent, stop a = false
  received_eq : r.going = true → r.source.received = r.target.sent

theorem faithful_start :
  Faithful stop (start : Relay α)
  := by
  constructor
  · apply List.prefix_refl
  · intro a ha
    cases ha
  · intro
    rfl

/-- Steps keep a relay faithful. -/
theorem Faithful.step {r r' : Relay α} (h : Faithful stop r) (hstep : Step stop r r') :
  Faithful stop r'
  := by
  obtain ⟨hsource, hstop, hreceived⟩ := h
  cases hstep with
  | send a =>
      constructor
      · rw [Channel.sent_send]
        apply hsource.trans (List.prefix_append _ _)
      · exact hstop
      · exact hreceived
  | @pass a source hgoing hrecv ha =>
      have htarget : source.received = (r.target.send a).sent := by
        rw [Channel.received_of_recv? hrecv, hreceived hgoing, Channel.sent_send]
      constructor
      · rw [← htarget]
        apply Channel.received_prefix_sent
      · intro b hb
        rw [Channel.sent_send] at hb
        rcases List.mem_append.mp hb with hb | hb
        · apply hstop b hb
        · rw [List.mem_singleton.mp hb]
          exact ha
      · intro
        exact htarget
  | lose hrecv =>
      constructor
      · rw [Channel.sent_of_recv? hrecv]
        exact hsource
      · exact hstop
      · intro hgoing
        cases hgoing
  | halt =>
      constructor
      · exact hsource
      · exact hstop
      · intro hgoing
        cases hgoing
  | deliver hrecv =>
      have hsent := Channel.sent_of_recv? hrecv
      constructor
      · rw [hsent]
        exact hsource
      · rw [hsent]
        exact hstop
      · rw [hsent]
        exact hreceived

/-- What is received from a faithful relay was sent before the first stop, in the same order and
without a gap. -/
theorem Faithful.received_prefix_takeWhile {r : Relay α} (h : Faithful stop r) :
  r.target.received <+: r.source.sent.takeWhile fun a => !stop a
  := by
  rw [List.prefix_takeWhile_iff]
  have hreceived := r.target.received_prefix_sent
  constructor
  · apply hreceived.trans h.target_prefix_source
  · intro a ha
    rw [h.not_stop a (hreceived.subset ha)]
    rfl

end Relay
