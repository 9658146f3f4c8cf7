import Mathlib.Algebra.Order.Group.Nat
import Mathlib.Data.List.DropRight
import Mathlib.Tactic.Common
import ResourceDistribution.Data.Words

/-!
# White space in the node

`str::trim` and `str::split_whitespace`. They go by the Unicode property `White_Space`.
-/

namespace Node

/-- The characters for which `char::is_whitespace` holds. -/
def whitespace : List Nat :=
  [0x09, 0x0A, 0x0B, 0x0C, 0x0D, 0x20, 0x85, 0xA0, 0x1680, 0x2000, 0x2001, 0x2002, 0x2003, 0x2004,
    0x2005, 0x2006, 0x2007, 0x2008, 0x2009, 0x200A, 0x2028, 0x2029, 0x202F, 0x205F, 0x3000]

/-- `char::is_whitespace`. -/
def isWhitespace (c : Char) : Bool := whitespace.contains c.toNat

/-- `str::trim`. -/
def trim (s : String) : String :=
  String.ofList ((s.toList.dropWhile isWhitespace).rdropWhile isWhitespace)

/-- `str::split_whitespace`. -/
def splitWhitespace (s : String) : List String :=
  ((s.toList.splitOnP isWhitespace).filter fun word => !word.isEmpty).map String.ofList

/-- A string without white space is not trimmed. -/
theorem trim_of_forall {s : String} (h : ∀ c ∈ s.toList, isWhitespace c = false) :
  trim s = s
  := by
  have hdrop : s.toList.dropWhile isWhitespace = s.toList := by
    cases hs : s.toList with
    | nil => rfl
    | cons c l =>
        apply List.dropWhile_cons_of_neg
        simp [h c (hs ▸ List.mem_cons_self)]
  have hrdrop : s.toList.rdropWhile isWhitespace = s.toList := by
    rw [List.rdropWhile_eq_self_iff]
    intro hne
    simp [h _ (List.getLast_mem hne)]
  rw [trim, hdrop, hrdrop, String.ofList_toList]

theorem splitWhitespace_eq (s : String) :
  splitWhitespace s = (s.toList.words isWhitespace).map String.ofList
  := rfl

/-- Trimming does not change the words. -/
theorem splitWhitespace_trim (s : String) :
  splitWhitespace (trim s) = splitWhitespace s
  := by
  rw [splitWhitespace_eq, trim, String.toList_ofList, List.words_rdropWhile, List.words_dropWhile,
    splitWhitespace_eq]

/-- What comes before the first white space. -/
def firstWord (s : String) : String :=
  String.ofList (s.toList.takeWhile fun c => !isWhitespace c)

/-- After a word and a space comes the first word of what follows, if that does not begin with white
space. -/
theorem exists_splitWhitespace_eq {word s : String} (hword : word ≠ "")
    (hplain : ∀ c ∈ word.toList, isWhitespace c = false) (hs : s ≠ "")
    (hhead : ∀ c ∈ s.toList.head?, isWhitespace c = false) :
  ∃ rest, splitWhitespace (word ++ " " ++ s) = word :: firstWord s :: rest
  := by
  have hchars : (word ++ " " ++ s).toList = word.toList ++ ' ' :: s.toList := by
    rw [String.toList_append, String.toList_append, List.append_assoc]
    rfl
  have hne : ∀ t : String, t ≠ "" → t.toList ≠ [] := by
    intro t ht hnil
    exact ht (String.toList_eq_nil_iff.mp hnil)
  rw [splitWhitespace_eq, hchars, List.words_append_cons _ (by decide),
    List.words_of_forall (hne word hword) hplain, List.words_eq_cons (hne s hs) hhead,
    List.singleton_append, List.map_cons, List.map_cons, String.ofList_toList]
  exact ⟨_, rfl⟩

end Node
