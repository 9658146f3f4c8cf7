import Mathlib.Data.List.Forall2
import Mathlib.Tactic.Common

/-!
# Computations that may fail

What it takes for a sequence of fallible steps to succeed.
-/

universe u v

namespace Fallible

variable {ε : Type v} {α β : Type u}

/-- A sequence of two fallible steps returns `b` exactly when the first returns some `a` and
the second returns `b` from it. -/
theorem bind_eq_ok {x : Except ε α} {f : α → Except ε β} {b : β} :
  x >>= f = .ok b ↔ ∃ a, x = .ok a ∧ f a = .ok b
  := by
  cases x <;> simp [bind, Except.bind]

theorem map_eq_ok {x : Except ε α} {f : α → β} {b : β} :
  x.map f = .ok b ↔ ∃ a, x = .ok a ∧ f a = b
  := by
  cases x <;> simp [Except.map]

theorem toOption_eq_some {x : Except ε α} {a : α} :
  x.toOption = some a ↔ x = .ok a
  := by
  cases x <;> simp [Except.toOption]

/-- A function succeeds on all items of a list exactly when it succeeds on each. -/
theorem mapM_eq_ok_iff {f : α → Except ε β} {l : List α} {r : List β} :
  l.mapM f = .ok r ↔ List.Forall₂ (fun a b => f a = .ok b) l r
  := by
  induction l generalizing r with
  | nil => simp [pure, Except.pure, eq_comm]
  | cons a l ih =>
      rw [List.mapM_cons, bind_eq_ok, List.forall₂_cons_left_iff]
      constructor
      · rintro ⟨b, hb, h⟩
        obtain ⟨r', hr', h⟩ := bind_eq_ok.mp h
        simp only [pure, Except.pure, Except.ok.injEq] at h
        exact ⟨b, r', hb, ih.mp hr', h.symm⟩
      · rintro ⟨b, r', hb, hr', rfl⟩
        use b, hb
        rw [ih.mpr hr']
        rfl

/-- What every successful call of `f` gives holds of every result of a successful `mapM`. -/
theorem forall_of_mapM_eq_ok {f : α → Except ε β} {P : β → Prop}
    (hf : ∀ a b, f a = .ok b → P b) {l : List α} {r : List β} (h : l.mapM f = .ok r) :
  ∀ b ∈ r, P b
  := by
  intro b hb
  have hall := mapM_eq_ok_iff.mp h
  induction hall with
  | nil => simp at hb
  | cons hab hall ih =>
      rcases List.mem_cons.mp hb with rfl | hb
      · apply hf _ _ hab
      · apply ih (mapM_eq_ok_iff.mpr hall) hb

/-- A successful `mapM` has a result for every item. -/
theorem exists_of_mapM_eq_ok {f : α → Except ε β} {l : List α} {r : List β}
    (h : l.mapM f = .ok r) :
  ∀ a ∈ l, ∃ b ∈ r, f a = .ok b
  := by
  intro a ha
  have hall := mapM_eq_ok_iff.mp h
  clear h
  induction hall with
  | nil => simp at ha
  | @cons a' b l r hab hall ih =>
      rcases List.mem_cons.mp ha with rfl | ha
      · exact ⟨b, List.mem_cons_self, hab⟩
      · obtain ⟨b', hb', hf⟩ := ih ha
        exact ⟨b', List.mem_cons_of_mem _ hb', hf⟩

/-- What a successful `mapM` has at some place it has from the item at this place. -/
theorem exists_append_of_mapM_eq_ok {f : α → Except ε β} {l : List α} {before after : List β} {b : β}
    (h : l.mapM f = .ok (before ++ b :: after)) :
  ∃ l₁ a l₂, l = l₁ ++ a :: l₂ ∧ l₁.mapM f = .ok before ∧ f a = .ok b
  := by
  induction before generalizing l with
  | nil =>
      obtain ⟨a, l, hab, -, rfl⟩ := List.forall₂_cons_right_iff.mp (mapM_eq_ok_iff.mp h)
      exact ⟨[], a, l, rfl, rfl, hab⟩
  | cons c before ih =>
      obtain ⟨a', l', hac, hall, rfl⟩ := List.forall₂_cons_right_iff.mp (mapM_eq_ok_iff.mp h)
      obtain ⟨l₁, a, l₂, rfl, hbefore, hab⟩ := ih (mapM_eq_ok_iff.mpr hall)
      refine ⟨a' :: l₁, a, l₂, rfl, ?_, hab⟩
      apply mapM_eq_ok_iff.mpr
      exact .cons hac (mapM_eq_ok_iff.mp hbefore)

/-- What a successful `mapM` returns it has from some item. -/
theorem exists_mem_of_mapM_eq_ok {f : α → Except ε β} {l : List α} {r : List β} (h : l.mapM f = .ok r)
    {b : β} (hb : b ∈ r) :
  ∃ a ∈ l, f a = .ok b
  := by
  obtain ⟨before, after, rfl⟩ := List.append_of_mem hb
  obtain ⟨l₁, a, l₂, rfl, -, hab⟩ := exists_append_of_mapM_eq_ok h
  exact ⟨a, List.mem_append_right l₁ List.mem_cons_self, hab⟩

/-- A check of all items of a list succeeds exactly when it succeeds on each. -/
theorem forM_eq_ok_iff {f : α → Except ε PUnit} {l : List α} :
  l.forM f = .ok ⟨⟩ ↔ ∀ a ∈ l, f a = .ok ⟨⟩
  := by
  induction l with
  | nil => simp [pure, Except.pure]
  | cons a l ih =>
      change (f a >>= fun _ => l.forM f) = .ok ⟨⟩ ↔ _
      rw [bind_eq_ok, List.forall_mem_cons]
      constructor
      · rintro ⟨_, ha, h⟩
        exact ⟨ha, ih.mp h⟩
      · rintro ⟨ha, h⟩
        exact ⟨_, ha, ih.mpr h⟩

/-- A relation between the items and whatever `f` returns from them relates a list to the results of a
successful `mapM`. -/
theorem forall₂_of_mapM_eq_ok {f : α → Except ε β} {R : α → β → Prop} {l : List α} {r : List β}
    (hf : ∀ a ∈ l, ∀ b, f a = .ok b → R a b) (h : l.mapM f = .ok r) :
  List.Forall₂ R l r
  := by
  have hall := mapM_eq_ok_iff.mp h
  clear h
  induction hall with
  | nil => apply List.Forall₂.nil
  | cons hab hall ih =>
      apply List.Forall₂.cons
      · apply hf _ List.mem_cons_self _ hab
      · apply ih fun a ha => hf a (List.mem_cons_of_mem _ ha)

/-- If whatever `f` returns is `g a`, a successful `mapM` returns the list mapped by `g`. -/
theorem eq_map_of_mapM_eq_ok {f : α → Except ε β} {g : α → β} {l : List α} {r : List β}
    (hf : ∀ a ∈ l, ∀ b, f a = .ok b → b = g a) (h : l.mapM f = .ok r) :
  r = l.map g
  := by
  have hall := forall₂_of_mapM_eq_ok hf h
  rw [← List.forall₂_eq_eq_eq, List.forall₂_map_right_iff]
  exact hall.flip

/-! ### Failures -/

/-- The computation returns something. -/
def Succeeds (x : Except ε α) : Prop := ∃ a, x = .ok a

/-- Whatever the computation raises satisfies `P`. -/
def Raises (P : ε → Prop) (x : Except ε α) : Prop := ∀ e, x = .error e → P e

theorem succeeds_ok (a : α) :
  Succeeds (.ok a : Except ε α)
  := ⟨a, rfl⟩

/-- A sequence of two steps fails in the first one, or in the second one after the first. -/
theorem bind_eq_error {x : Except ε α} {f : α → Except ε β} {e : ε} :
  x >>= f = .error e ↔ x = .error e ∨ ∃ a, x = .ok a ∧ f a = .error e
  := by
  cases x <;> simp [bind, Except.bind]

/-- The same, if it does not matter for the second step what the first one returns. -/
theorem bind_eq_error_iff {x : Except ε α} {f : α → Except ε β} {e : ε} {P : Prop}
    (h : ∀ a, x = .ok a → (f a = .error e ↔ P)) :
  x >>= f = .error e ↔ x = .error e ∨ Succeeds x ∧ P
  := by
  rw [bind_eq_error]
  apply or_congr_right
  constructor
  · rintro ⟨a, ha, hf⟩
    exact ⟨⟨a, ha⟩, (h a ha).mp hf⟩
  · rintro ⟨⟨a, ha⟩, hP⟩
    exact ⟨a, ha, (h a ha).mpr hP⟩

/-- A function fails on a list as it fails on the first item on which it does. -/
theorem mapM_eq_error_iff {f : α → Except ε β} {l : List α} {e : ε} :
  l.mapM f = .error e
    ↔ ∃ before a after, l = before ++ a :: after ∧ (∀ b ∈ before, Succeeds (f b)) ∧ f a = .error e
  := by
  induction l with
  | nil => simp [pure, Except.pure]
  | cons a l ih =>
      rw [List.mapM_cons, bind_eq_error]
      constructor
      · rintro (ha | ⟨b, hb, h⟩)
        · use [], a, l, rfl
          exact ⟨List.forall_mem_nil _, ha⟩
        · have hrest : l.mapM f = .error e := by
            rcases bind_eq_error.mp h with hl | ⟨r, -, hr⟩
            · exact hl
            · cases hr
          obtain ⟨before, a', after, rfl, hbefore, ha'⟩ := ih.mp hrest
          use a :: before, a', after, rfl
          exact ⟨List.forall_mem_cons.mpr ⟨⟨b, hb⟩, hbefore⟩, ha'⟩
      · rintro ⟨before, a', after, hl, hbefore, ha'⟩
        cases before with
        | nil =>
            obtain ⟨rfl, rfl⟩ := List.cons.inj hl
            exact .inl ha'
        | cons b before =>
            obtain ⟨rfl, rfl⟩ := List.cons.inj hl
            obtain ⟨⟨b', hb'⟩, hbefore⟩ := List.forall_mem_cons.mp hbefore
            right
            use b', hb'
            rw [ih.mpr ⟨before, a', after, rfl, hbefore, ha'⟩]
            rfl

/-- A function succeeds on a list if it succeeds on every item. -/
theorem succeeds_mapM_iff {f : α → Except ε β} {l : List α} :
  Succeeds (l.mapM f) ↔ ∀ a ∈ l, Succeeds (f a)
  := by
  constructor
  · rintro ⟨r, hr⟩ a ha
    obtain ⟨b, -, hb⟩ := exists_of_mapM_eq_ok hr a ha
    exact ⟨b, hb⟩
  · intro h
    cases hr : l.mapM f with
    | ok r => exact ⟨r, rfl⟩
    | error e =>
        obtain ⟨before, a, after, rfl, -, ha⟩ := mapM_eq_error_iff.mp hr
        obtain ⟨b, hb⟩ := h a (List.mem_append_right _ List.mem_cons_self)
        rw [hb] at ha
        cases ha

theorem Raises.bind {P : ε → Prop} {x : Except ε α} {f : α → Except ε β} (hx : Raises P x)
    (hf : ∀ a, Raises P (f a)) :
  Raises P (x >>= f)
  := by
  intro e he
  rcases bind_eq_error.mp he with he | ⟨a, -, he⟩
  · apply hx e he
  · apply hf a e he

theorem Raises.mapM {P : ε → Prop} {f : α → Except ε β} (hf : ∀ a, Raises P (f a)) (l : List α) :
  Raises P (l.mapM f)
  := by
  intro e he
  obtain ⟨-, a, -, -, -, ha⟩ := mapM_eq_error_iff.mp he
  apply hf a e ha

theorem raises_ok {P : ε → Prop} (a : α) :
  Raises P (.ok a : Except ε α)
  := by
  intro e he
  cases he

theorem raises_error {P : ε → Prop} {e : ε} (h : P e) :
  Raises P (.error e : Except ε α)
  := by
  intro e' he
  cases he
  exact h

end Fallible
