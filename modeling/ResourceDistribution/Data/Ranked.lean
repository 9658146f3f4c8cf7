import Mathlib.Tactic.Common

/-!
# Runs with marked steps

A run some of whose steps are marked, say those of one of several tasks. If every marked step lowers
a rank that no other step raises, a run has no more marked steps than its first state has rank
(`Counted.add_rank_le`): the task does not go on for ever, whatever the others do.
-/

universe u

variable {σ : Type u}

/-- A run of marked steps and of others, and how many of its steps are marked. -/
inductive Counted (marked other : σ → σ → Prop) : Nat → σ → σ → Prop where
  | refl (s : σ) : Counted marked other 0 s s
  | marked {n : Nat} {s s' s'' : σ} (h : Counted marked other n s s') (hstep : marked s' s'') :
      Counted marked other (n + 1) s s''
  | other {n : Nat} {s s' s'' : σ} (h : Counted marked other n s s') (hstep : other s' s'') :
      Counted marked other n s s''

namespace Counted

/-- Every marked step takes one off the rank, where the rank is meant only for the states that satisfy
some invariant. -/
theorem add_rank_le {marked other : σ → σ → Prop} {P : σ → Prop} {rank : σ → Nat}
    (hmarked : ∀ a b, P a → marked a b → P b ∧ rank b < rank a)
    (hother : ∀ a b, P a → other a b → P b ∧ rank b ≤ rank a) {n : Nat} {s s' : σ}
    (h : Counted marked other n s s') (hs : P s) :
  P s' ∧ n + rank s' ≤ rank s
  := by
  induction h with
  | refl =>
      rw [Nat.zero_add]
      exact ⟨hs, Nat.le_refl _⟩
  | marked _ hstep ih =>
      obtain ⟨hP, hle⟩ := ih hs
      obtain ⟨hP', hlt⟩ := hmarked _ _ hP hstep
      exact ⟨hP', by omega⟩
  | other _ hstep ih =>
      obtain ⟨hP, hle⟩ := ih hs
      obtain ⟨hP', hle'⟩ := hother _ _ hP hstep
      exact ⟨hP', by omega⟩

end Counted
