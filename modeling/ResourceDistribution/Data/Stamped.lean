import Mathlib.Data.Multiset.AddSub
import Mathlib.Logic.Relation
import Mathlib.Order.Lattice
import Mathlib.Tactic.Common

/-!
# Stamps that are taken and shown later

A clock that never goes back, stamps that are taken from it and wait, and the stamp that was shown
last. Whoever takes a stamp and shows it in two separate steps may be overtaken in between. If the
stamps are shown in the order in which they were taken (`Step`), the register stays `Ordered`: what
was shown last is not later than any stamp that waits.
-/

universe u

namespace Stamped

variable {τ : Type u}

/-- The clock, the stamps that wait, and the stamp that was shown last, unless it was cleared. -/
structure Register (τ : Type u) where
  clock : τ
  waiting : Multiset τ
  shown : Option τ

variable [LinearOrder τ]

/-- A step: time passes, a stamp is taken, the earliest of the waiting stamps is shown, or what was
shown is cleared. -/
inductive Step : Register τ → Register τ → Prop where
  | tick {c c' : τ} {w : Multiset τ} {s : Option τ} (h : c ≤ c') : Step ⟨c, w, s⟩ ⟨c', w, s⟩
  | take {c : τ} {w : Multiset τ} {s : Option τ} : Step ⟨c, w, s⟩ ⟨c, c ::ₘ w, s⟩
  | publish {c x : τ} {w : Multiset τ} {s : Option τ} (hmin : ∀ y ∈ w, x ≤ y) :
      Step ⟨c, x ::ₘ w, s⟩ ⟨c, w, some x⟩
  | clear {c : τ} {w : Multiset τ} {s : Option τ} : Step ⟨c, w, s⟩ ⟨c, w, none⟩

/-- No stamp is later than the clock, and what was shown is not later than what waits. -/
structure Ordered (r : Register τ) : Prop where
  waiting_le : ∀ x ∈ r.waiting, x ≤ r.clock
  shown_le : ∀ x ∈ r.shown, x ≤ r.clock
  shown_le_waiting : ∀ x ∈ r.shown, ∀ y ∈ r.waiting, x ≤ y

/-- Steps keep a register ordered. -/
theorem Step.ordered {r r' : Register τ} (h : Step r r') (hr : Ordered r) :
  Ordered r'
  := by
  obtain ⟨hwaiting, hshown, hle⟩ := hr
  cases h with
  | tick hc =>
      constructor
      · intro x hx
        apply (hwaiting x hx).trans hc
      · intro x hx
        apply (hshown x hx).trans hc
      · exact hle
  | take =>
      constructor
      · intro x hx
        rcases Multiset.mem_cons.mp hx with rfl | hx
        · apply le_refl
        · apply hwaiting x hx
      · exact hshown
      · intro x hx y hy
        rcases Multiset.mem_cons.mp hy with rfl | hy
        · apply hshown x hx
        · apply hle x hx y hy
  | publish hmin =>
      constructor
      · intro y hy
        apply hwaiting y (Multiset.mem_cons_of_mem hy)
      · intro y hy
        obtain rfl := Option.some.inj hy
        apply hwaiting _ (Multiset.mem_cons_self _ _)
      · intro y hy
        obtain rfl := Option.some.inj hy
        exact hmin
  | clear =>
      constructor
      · exact hwaiting
      · intro x hx
        cases hx
      · intro x hx
        cases hx

/-- Runs keep a register ordered. -/
theorem ordered_of_reflTransGen {r r' : Register τ} (h : Relation.ReflTransGen Step r r')
    (hr : Ordered r) :
  Ordered r'
  := by
  induction h with
  | refl => exact hr
  | tail _ hstep ih => apply hstep.ordered ih

/-! ### All that was shown -/

/-- The last item of a list in order is the greatest. -/
theorem le_of_mem_getLast? {l : List τ} (hl : l.Pairwise (· ≤ ·)) {x last : τ} (hx : x ∈ l)
    (hlast : last ∈ l.getLast?) :
  x ≤ last
  := by
  obtain ⟨init, rfl⟩ := List.getLast?_eq_some_iff.mp hlast
  rcases List.mem_append.mp hx with hx | hx
  · apply (List.pairwise_append.mp hl).2.2 x hx
    apply List.mem_singleton_self
  · apply le_of_eq (List.mem_singleton.mp hx)

variable {r : Register τ} {l : List τ}

/-- What was shown in order is not later than the clock. -/
theorem Ordered.le_clock (hr : Ordered r) (hl : l.Pairwise (· ≤ ·)) (hlast : r.shown = l.getLast?)
    {x : τ} (hx : x ∈ l) :
  x ≤ r.clock
  := by
  have hne : l ≠ [] := List.ne_nil_of_mem hx
  have hlast' : l.getLast hne ∈ l.getLast? := List.getLast?_eq_getLast_of_ne_nil hne
  apply (le_of_mem_getLast? hl hx hlast').trans
  apply hr.shown_le
  rwa [hlast]

/-- What waits is later than all that was shown in order. -/
theorem Ordered.pairwise_append (hr : Ordered r) (hl : l.Pairwise (· ≤ ·))
    (hlast : r.shown = l.getLast?) {x : τ} (hx : x ∈ r.waiting) :
  (l ++ [x]).Pairwise (· ≤ ·)
  := by
  apply List.pairwise_append.mpr
  refine ⟨hl, List.pairwise_singleton _ _, ?_⟩
  intro y hy z hz
  rw [List.mem_singleton.mp hz]
  have hne : l ≠ [] := List.ne_nil_of_mem hy
  have hlast' : l.getLast hne ∈ l.getLast? := List.getLast?_eq_getLast_of_ne_nil hne
  apply (le_of_mem_getLast? hl hy hlast').trans
  apply hr.shown_le_waiting _ _ x hx
  rwa [hlast]

end Stamped
