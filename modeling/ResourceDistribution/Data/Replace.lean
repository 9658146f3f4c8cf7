import Mathlib.Data.List.Basic
import Mathlib.Tactic.Common

/-!
# Replacing a file by renaming

A file is replaced by writing its new contents, piece by piece, to a temporary file beside it and
renaming that file over it. Every step is atomic and the steps happen in order. However many of
them have happened, the file has its old contents or all of the new ones (`target_take`), and once
all of them have happened it has the new ones (`foldl_steps`).
-/

universe u

namespace Replace

variable {Piece : Type u}

/-- A file and the temporary file beside it, each with its contents if it exists. -/
structure Files (Piece : Type u) where
  target : Option (List Piece)
  temp : Option (List Piece)

/-- A step of replacing a file. -/
inductive Step (Piece : Type u) where
  | makeParent
  | openTemp
  | write (piece : Piece)
  | closeTemp
  | rename

/-- What a step does. Opening the temporary file empties it. -/
def Step.execute (files : Files Piece) : Step Piece → Files Piece
  | .makeParent => files
  | .openTemp => { files with temp := some [] }
  | .write piece => { files with temp := files.temp.map (· ++ [piece]) }
  | .closeTemp => files
  | .rename =>
      match files.temp with
      | none => files
      | some pieces => ⟨some pieces, none⟩

/-- The steps before the last one. -/
def preparation (pieces : List Piece) : List (Step Piece) :=
  [.makeParent, .openTemp] ++ pieces.map .write ++ [.closeTemp]

/-- The steps that replace a file's contents by `pieces`. -/
def steps (pieces : List Piece) : List (Step Piece) := preparation pieces ++ [.rename]

@[simp]
theorem length_steps (pieces : List Piece) :
  (steps pieces).length = (preparation pieces).length + 1
  := by
  simp [steps]

theorem foldl_write (files : Files Piece) (pieces written : List Piece)
    (h : files.temp = some written) :
  (pieces.map Step.write).foldl Step.execute files = { files with temp := some (written ++ pieces) }
  := by
  induction pieces generalizing files written with
  | nil => simp [← h]
  | cons piece pieces ih =>
      rw [List.map_cons, List.foldl_cons, ih _ (written ++ [piece])]
      · simp [Step.execute]
      · simp [Step.execute, h]

theorem foldl_preparation (files : Files Piece) (pieces : List Piece) :
  (preparation pieces).foldl Step.execute files = ⟨files.target, some pieces⟩
  := by
  rw [preparation, List.foldl_append, List.foldl_append]
  simp only [List.foldl_cons, List.foldl_nil, Step.execute]
  rw [foldl_write _ pieces [] rfl]
  rfl

/-- After all steps the file has the new contents. -/
theorem foldl_steps (files : Files Piece) (pieces : List Piece) :
  (steps pieces).foldl Step.execute files = ⟨some pieces, none⟩
  := by
  rw [steps, List.foldl_append, foldl_preparation]
  rfl

/-- No step but the last touches the file. -/
theorem target_foldl_of_forall_ne {l : List (Step Piece)} (h : Step.rename ∉ l)
    (files : Files Piece) :
  (l.foldl Step.execute files).target = files.target
  := by
  induction l generalizing files with
  | nil => rfl
  | cons s l ih =>
      rw [List.mem_cons, not_or] at h
      rw [List.foldl_cons, ih h.2]
      cases s with
      | rename => simp at h
      | _ => rfl

/-- Before the last step the file has its old contents. -/
theorem target_take_of_lt {pieces : List Piece} {k : Nat} (hk : k < (steps pieces).length)
    (files : Files Piece) :
  (((steps pieces).take k).foldl Step.execute files).target = files.target
  := by
  apply target_foldl_of_forall_ne
  rw [length_steps] at hk
  rw [steps, List.take_append_of_le_length (by omega)]
  intro hmem
  have hprep := List.mem_of_mem_take hmem
  simp [preparation] at hprep

/-- However many steps have happened, the file has its old contents or the new ones. -/
theorem target_take (files : Files Piece) (pieces : List Piece) (k : Nat) :
  (((steps pieces).take k).foldl Step.execute files).target = files.target ∨
    (((steps pieces).take k).foldl Step.execute files).target = some pieces
  := by
  rcases Nat.lt_or_ge k (steps pieces).length with hk | hk
  · left
    apply target_take_of_lt hk
  · right
    rw [List.take_of_length_le hk, foldl_steps]

end Replace
