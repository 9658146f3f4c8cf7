import Mathlib.Data.List.DropRight
import Mathlib.Tactic.Common

/-!
# Words of a list

The longest parts of a list in which no item is a separator. Separators at either end do not change
them, and a list that begins with a word is this word and the words of what follows it.
-/

universe u

variable {α : Type u}

namespace List

/-- The parts between separators that are not empty. -/
def words (p : α → Bool) (l : List α) : List (List α) :=
  (l.splitOnP p).filter fun word => !word.isEmpty

variable {p : α → Bool}

@[simp]
theorem words_nil :
  words p [] = []
  := by
  rw [words, splitOnP_nil]
  rfl

/-- A separator separates words. -/
theorem words_append_cons (l : List α) {sep : α} (hsep : p sep = true) (m : List α) :
  words p (l ++ sep :: m) = words p l ++ words p m
  := by
  rw [words, splitOnP_append_cons l m hsep, filter_append]
  rfl

/-- A separator at the front belongs to no word. -/
theorem words_cons {sep : α} (hsep : p sep = true) (l : List α) :
  words p (sep :: l) = words p l
  := by
  have h := words_append_cons [] hsep l
  rw [words_nil, nil_append, nil_append] at h
  exact h

/-- A list without separators is one word. -/
theorem words_of_forall {l : List α} (hne : l ≠ []) (h : ∀ a ∈ l, p a = false) :
  words p l = [l]
  := by
  rw [words, splitOnP_eq_singleton h, filter_singleton]
  cases l with
  | nil => cases hne rfl
  | cons a l => rfl

theorem words_dropWhile (l : List α) :
  words p (l.dropWhile p) = words p l
  := by
  induction l with
  | nil => rfl
  | cons a l ih =>
      cases ha : p a with
      | true => rw [dropWhile_cons_of_pos ha, ih, words_cons ha]
      | false => rw [dropWhile_cons_of_neg (by simp [ha])]

theorem words_rdropWhile (l : List α) :
  words p (l.rdropWhile p) = words p l
  := by
  induction l using reverseRecOn with
  | nil => rfl
  | append_singleton l a ih =>
      cases ha : p a with
      | true => rw [rdropWhile_concat_pos _ _ _ ha, ih, words_append_cons l ha, words_nil, append_nil]
      | false => rw [rdropWhile_concat_neg _ _ _ (by simp [ha])]

/-- A part without separators is a word if a separator comes next, or nothing. -/
theorem words_append {word rest : List α} (hne : word ≠ []) (hword : ∀ a ∈ word, p a = false)
    (hrest : ∀ a ∈ rest.head?, p a = true) :
  words p (word ++ rest) = word :: words p rest
  := by
  cases rest with
  | nil => rw [append_nil, words_of_forall hne hword, words_nil]
  | cons sep rest =>
      have hsep := hrest sep rfl
      rw [words_append_cons word hsep, words_of_forall hne hword, words_cons hsep, singleton_append]

/-- A list that does not begin with a separator begins with a word. -/
theorem words_eq_cons {l : List α} (hne : l ≠ []) (hhead : ∀ a ∈ l.head?, p a = false) :
  words p l = l.takeWhile (fun a => !p a) :: words p (l.dropWhile fun a => !p a)
  := by
  have hne' : l.takeWhile (fun a => !p a) ≠ [] := by
    cases l with
    | nil => cases hne rfl
    | cons a l => simp [hhead a rfl]
  have hword : ∀ a ∈ l.takeWhile (fun a => !p a), p a = false := by
    intro a ha
    simpa using mem_takeWhile_imp ha
  have hrest : ∀ a ∈ (l.dropWhile fun a => !p a).head?, p a = true := by
    intro a ha
    have hnot := head?_dropWhile_not (fun a => !p a) l
    rw [ha] at hnot
    simpa using hnot
  have hsplit := words_append hne' hword hrest
  rw [takeWhile_append_dropWhile] at hsplit
  exact hsplit

end List
