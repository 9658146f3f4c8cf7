import Mathlib.Tactic.Common

/-!
# Readers and writers

Values of one type are written, and what was written is read as values of another type. `Reads` says
what becomes of them: of what was written for `a` the reader makes `b` exactly when `b` is valid and
`a` is its image. Such a reader never reads anything else than what was meant, and what it can read
are the values that have a valid original, the `Readable` ones.
-/

universe u v w

namespace Codec

variable {α : Type u} {β : Type v} {ω : Type w} {read : ω → Option β} {write : α → ω}
  {image : β → α} {valid : β → Prop}

/-- The reader makes of what is written for the image of a valid value that value, and nothing else
of anything. -/
def Reads (read : ω → Option β) (write : α → ω) (image : β → α) (valid : β → Prop) : Prop :=
  ∀ a b, read (write a) = some b ↔ a = image b ∧ valid b

/-- The value is the image of a valid one. -/
def Readable (image : β → α) (valid : β → Prop) (a : α) : Prop := ∃ b, a = image b ∧ valid b

/-- A list is read item by item. -/
theorem Reads.list (h : Reads read write image valid) :
  Reads (fun l => l.mapM read) (List.map write) (List.map image) fun l => ∀ b ∈ l, valid b
  := by
  intro l m
  induction l generalizing m with
  | nil => cases m <;> simp
  | cons a l ih =>
      cases m with
      | nil => simp [Option.bind_eq_some_iff]
      | cons b m =>
          simp only [List.map_cons, List.mapM_cons, Option.bind_eq_bind, Option.bind_eq_some_iff,
            Option.pure_def, Option.some.injEq, List.cons.injEq, List.forall_mem_cons]
          constructor
          · rintro ⟨b, hb, m, hm, rfl, rfl⟩
            obtain ⟨rfl, hvalid⟩ := (h a b).mp hb
            obtain ⟨rfl, hvalids⟩ := (ih m).mp hm
            exact ⟨⟨rfl, rfl⟩, hvalid, hvalids⟩
          · rintro ⟨⟨rfl, rfl⟩, hvalid, hvalids⟩
            exact ⟨b, (h _ b).mpr ⟨rfl, hvalid⟩, m, (ih m).mpr ⟨rfl, hvalids⟩, rfl, rfl⟩

/-- A list is readable exactly when its items are. -/
theorem readable_list {l : List α} :
  Readable (List.map image) (fun l => ∀ b ∈ l, valid b) l ↔ ∀ a ∈ l, Readable image valid a
  := by
  constructor
  · rintro ⟨m, rfl, hvalid⟩ a ha
    obtain ⟨b, hb, rfl⟩ := List.mem_map.mp ha
    exact ⟨b, rfl, hvalid b hb⟩
  · intro h
    induction l with
    | nil => exact ⟨[], rfl, by simp⟩
    | cons a l ih =>
        obtain ⟨b, rfl, hvalid⟩ := h a List.mem_cons_self
        obtain ⟨m, rfl, hvalids⟩ := ih fun c hc => h c (List.mem_cons_of_mem _ hc)
        exact ⟨b :: m, rfl, List.forall_mem_cons.mpr ⟨hvalid, hvalids⟩⟩

/-- An optional value is readable exactly when it is missing or readable. -/
theorem readable_option {o : Option α} :
  Readable (Option.map image) (fun o => ∀ b ∈ o, valid b) o ↔ ∀ a ∈ o, Readable image valid a
  := by
  constructor
  · rintro ⟨o, rfl, hvalid⟩ a ha
    obtain ⟨b, hb, rfl⟩ := Option.map_eq_some_iff.mp ha
    exact ⟨b, rfl, hvalid b hb⟩
  · intro h
    cases o with
    | none => exact ⟨none, rfl, by simp⟩
    | some a =>
        obtain ⟨b, rfl, hvalid⟩ := h a rfl
        exact ⟨some b, rfl, by simpa using hvalid⟩

end Codec
