import Mathlib.Data.List.Flatten
import Mathlib.Data.List.Range
import Mathlib.Tactic.Common

/-!
# Cutting a list into blocks

`blocks b l` cuts the list `l` into blocks of `b` items, of which the last may be shorter, and
`block b l i` is the block with index `i`. A `Reader` that hands out a list in pieces cuts it too
(`Reader.chunks`); if every piece is as long as was asked for, except at the end of the list, the
pieces are the blocks (`Reader.chunks_eq_blocks`).
-/

universe u v

namespace Cut

variable {α : Type u}

/-- The number of blocks of `b` items in `n` items. -/
def count (b n : Nat) : Nat := (n + b - 1) / b

/-- The block with index `i`. -/
def block (b : Nat) (l : List α) (i : Nat) : List α := (l.drop (i * b)).take b

/-- The blocks of a list, in order. -/
def blocks (b : Nat) (l : List α) : List (List α) :=
  (List.range (count b l.length)).map (block b l)

theorem lt_count_iff {b n i : Nat} (hb : 0 < b) :
  i < count b n ↔ i * b < n
  := by
  rw [count, Nat.lt_iff_add_one_le, Nat.le_div_iff_mul_le hb, Nat.add_one_mul]
  omega

/-- A list that is not empty has a first block. -/
theorem count_length_pos {b : Nat} (hb : 0 < b) {l : List α} (hl : l ≠ []) :
  0 < count b l.length
  := by
  rw [lt_count_iff hb, Nat.zero_mul]
  exact List.length_pos_of_ne_nil hl

@[simp]
theorem length_blocks (b : Nat) (l : List α) :
  (blocks b l).length = count b l.length
  := by
  simp [blocks]

@[simp]
theorem length_block (b : Nat) (l : List α) (i : Nat) :
  (block b l i).length = min b (l.length - i * b)
  := by
  simp [block]

/-- A block is a part of the list. -/
theorem block_infix (b : Nat) (l : List α) (i : Nat) :
  block b l i <:+: l
  := (List.take_prefix _ _).isInfix.trans (List.drop_suffix _ _).isInfix

@[simp]
theorem getElem_blocks {b : Nat} {l : List α} {i : Nat} (h : i < (blocks b l).length) :
  (blocks b l)[i] = block b l i
  := by
  simp [blocks]

theorem count_zero (b : Nat) :
  count b 0 = 0
  := by
  rcases Nat.eq_zero_or_pos b with rfl | hb
  · rfl
  · apply Nat.div_eq_of_lt
    omega

/-- A list that is not empty has one block more than it has without its first block. -/
theorem count_of_pos {b n : Nat} (hb : 0 < b) (hn : 0 < n) :
  count b n = count b (n - b) + 1
  := by
  rcases Nat.lt_or_ge b n with h | h
  · have hsplit : n + b - 1 = (n - b + b - 1) + b := by omega
    rw [count, count, hsplit, Nat.add_div_right _ hb]
  · have hzero : n - b = 0 := by omega
    rw [hzero, count_zero, count]
    apply Nat.div_eq_of_lt_le <;> omega

theorem block_zero (b : Nat) (l : List α) :
  block b l 0 = l.take b
  := by
  simp [block]

theorem block_succ (b : Nat) (l : List α) (i : Nat) :
  block b l (i + 1) = block b (l.drop b) i
  := by
  rw [block, block, List.drop_drop, Nat.add_one_mul, Nat.add_comm]

@[simp]
theorem blocks_nil (b : Nat) :
  blocks b ([] : List α) = []
  := by
  simp [blocks, count_zero]

/-- The blocks of a list are its first block and the blocks of the rest. -/
theorem blocks_of_ne_nil {b : Nat} {l : List α} (hb : 0 < b) (hl : l ≠ []) :
  blocks b l = l.take b :: blocks b (l.drop b)
  := by
  have hpos : 0 < l.length := List.length_pos_of_ne_nil hl
  rw [blocks, count_of_pos hb hpos, List.range_succ_eq_map, List.map_cons, List.map_map,
    block_zero, blocks, List.length_drop]
  congr 2
  funext i
  apply block_succ

/-- The first `k` blocks, one after another, are a prefix of the list. -/
theorem flatten_map_block (b : Nat) (l : List α) (k : Nat) :
  ((List.range k).map (block b l)).flatten = l.take (k * b)
  := by
  induction k with
  | zero => simp
  | succ k ih =>
      rw [List.range_succ, List.map_append, List.flatten_append, ih, Nat.add_one_mul,
        List.take_add]
      simp [block]

theorem le_count_mul {b : Nat} (hb : 0 < b) (n : Nat) :
  n ≤ count b n * b
  := by
  by_contra h
  have hlt : count b n * b < n := by omega
  have hself := (lt_count_iff hb).mpr hlt
  omega

/-- The blocks, one after another, are the list. -/
theorem flatten_blocks {b : Nat} (hb : 0 < b) (l : List α) :
  (blocks b l).flatten = l
  := by
  rw [blocks, flatten_map_block]
  apply List.take_of_length_le
  apply le_count_mul hb

/-- A list that fits into one block has no other. -/
theorem blocks_of_length_le {b : Nat} {l : List α} (hb : 0 < b) (hl : l ≠ []) (h : l.length ≤ b) :
  blocks b l = [l]
  := by
  rw [blocks_of_ne_nil hb hl, List.take_of_length_le h, List.drop_of_length_le h, blocks_nil]

/-- A list is cut alike into blocks of two sizes that are the same as far as the list goes. -/
theorem blocks_eq_of_min_eq {b b' : Nat} (hb : 0 < b) (hb' : 0 < b') {l : List α}
    (h : min b l.length = min b' l.length) :
  blocks b l = blocks b' l
  := by
  by_cases hl : l = []
  · rw [hl, blocks_nil, blocks_nil]
  · rcases Nat.lt_or_ge b l.length with hlt | hge
    · have hsame : b = b' := by omega
      rw [hsame]
    · rw [blocks_of_length_le hb hl hge, blocks_of_length_le hb' hl (by omega)]

/-- A list whose blocks stand at the same places in another list is a prefix of it. -/
theorem prefix_of_forall_block {b : Nat} (hb : 0 < b) {l m : List α}
    (h : ∀ i, i * b < l.length → (m.drop (i * b)).take (block b l i).length = block b l i) :
  l <+: m
  := by
  induction hn : l.length using Nat.strongRecOn generalizing l m with
  | ind n ih =>
      rcases Nat.eq_zero_or_pos l.length with hzero | hpos
      · rw [List.length_eq_zero_iff.mp hzero]
        apply List.nil_prefix
      · have hfirst := h 0 (by omega)
        rw [block_zero, Nat.zero_mul, List.drop_zero] at hfirst
        rw [← List.take_append_drop b l, ← hfirst]
        rcases Nat.lt_or_ge b l.length with hlong | hshort
        · have hrest : l.drop b <+: m.drop b := by
            apply ih (l.drop b).length _ _ rfl
            · rw [List.length_drop]
              omega
            · intro i hi
              rw [List.length_drop] at hi
              have hshift : b + i * b = (i + 1) * b := by rw [Nat.add_one_mul, Nat.add_comm]
              rw [← block_succ, List.drop_drop, hshift]
              apply h
              rw [Nat.add_one_mul]
              omega
          rw [List.length_take, Nat.min_eq_left hlong.le]
          obtain ⟨rest, hrest⟩ := hrest
          use rest
          rw [List.append_assoc, hrest, List.take_append_drop]
        · rw [List.drop_eq_nil_of_le hshort, List.append_nil]
          apply List.take_prefix

/-- Pieces that are not empty and have the lengths of the blocks of what they are pieces of are the
blocks. -/
theorem eq_blocks_of_length {b : Nat} (hb : 0 < b) {pieces : List (List α)}
    (hne : ∀ piece ∈ pieces, piece ≠ [])
    (h : ∀ i < count b pieces.flatten.length, ∃ piece, pieces[i]? = some piece ∧
      piece.length = (block b pieces.flatten i).length) :
  pieces = blocks b pieces.flatten
  := by
  induction pieces with
  | nil => rw [List.flatten_nil, blocks_nil]
  | cons piece pieces ih =>
      have hpiece := List.length_pos_of_ne_nil (hne piece List.mem_cons_self)
      have hwhole : (piece :: pieces).flatten ≠ [] := by
        apply List.ne_nil_of_length_pos
        rw [List.flatten_cons, List.length_append]
        omega
      obtain ⟨_, hfirst, hlength⟩ := h 0 (count_length_pos hb hwhole)
      obtain rfl := Option.some.inj hfirst
      have htake : (piece :: pieces).flatten.take b = piece := by
        rw [block_zero, List.length_take, List.flatten_cons, List.length_append] at hlength
        rw [List.flatten_cons, List.take_append]
        have hrest : pieces.flatten.take (b - piece.length) = [] := by
          apply List.eq_nil_of_length_eq_zero
          rw [List.length_take]
          omega
        rw [hrest, List.append_nil]
        apply List.take_of_length_le
        omega
      have hdrop : (piece :: pieces).flatten.drop b = pieces.flatten := by
        have hparts := List.take_append_drop b (piece :: pieces).flatten
        rw [htake, List.flatten_cons] at hparts
        rw [List.flatten_cons]
        exact List.append_cancel_left hparts
      rw [blocks_of_ne_nil hb hwhole, htake, hdrop, ← ih]
      · intro other hother
        exact hne other (List.mem_cons_of_mem _ hother)
      · intro i hi
        have hcount : count b (piece :: pieces).flatten.length
            = count b pieces.flatten.length + 1 := by
          rw [← length_blocks, blocks_of_ne_nil hb hwhole, hdrop, List.length_cons, length_blocks]
        obtain ⟨other, hother, hlength⟩ := h (i + 1) (by omega)
        rw [block_succ, hdrop] at hlength
        exact ⟨other, hother, hlength⟩

/-- The blocks of a list stand at the same places in every list that it is a prefix of. -/
theorem take_drop_of_prefix {b i : Nat} {l m : List α} (h : l <+: m) :
  (m.drop (i * b)).take (block b l i).length = block b l i
  := by
  obtain ⟨rest, rfl⟩ := h
  rw [length_block, block]
  rcases Nat.lt_or_ge (i * b) l.length with hlt | hge
  · rw [List.drop_append_of_le_length hlt.le, List.take_append_of_le_length]
    · rw [← List.length_drop, ← List.take_eq_take_min]
    · rw [List.length_drop]
      omega
  · have hzero : l.length - i * b = 0 := by omega
    rw [hzero, Nat.min_zero, List.take_zero, List.drop_eq_nil_of_le hge, List.take_nil]

/-! ### Readers -/

/-- A reader hands out, one piece at a time, what it has left. -/
structure Reader (α : Type u) (σ : Type v) where
  read : σ → List α × σ
  remaining : σ → List α
  hands : ∀ s, (read s).1 ++ remaining (read s).2 = remaining s

namespace Reader

variable {σ : Type v} (r : Reader α σ)

/-- The pieces handed out until nothing is handed out, if that takes less than `fuel` reads. -/
def loop : Nat → σ → Option (List (List α))
  | 0, _ => none
  | fuel + 1, s =>
      if (r.read s).1 = [] then some []
      else (loop fuel (r.read s).2).map ((r.read s).1 :: ·)

/-- A read that hands out something leaves less. -/
theorem length_remaining_lt {s : σ} (h : (r.read s).1 ≠ []) :
  (r.remaining (r.read s).2).length < (r.remaining s).length
  := by
  have hpos := List.length_pos_of_ne_nil h
  have hlength := congrArg List.length (r.hands s)
  rw [List.length_append] at hlength
  omega

/-- Reading ends within one read more than there are items. -/
theorem isSome_loop {fuel : Nat} {s : σ} (h : (r.remaining s).length < fuel) :
  (r.loop fuel s).isSome
  := by
  induction fuel generalizing s with
  | zero => omega
  | succ fuel ih =>
      rw [loop]
      split
      · rfl
      · rename_i hne
        rw [Option.isSome_map]
        apply ih
        have hlt := r.length_remaining_lt hne
        omega

/-- The pieces handed out until nothing is handed out. -/
def chunks (s : σ) : List (List α) :=
  (r.loop ((r.remaining s).length + 1) s).get (r.isSome_loop (Nat.lt_succ_self _))

/-- More fuel does not change what is read. -/
theorem loop_mono {fuel fuel' : Nat} (hfuel : fuel ≤ fuel') {s : σ} {l : List (List α)}
    (h : r.loop fuel s = some l) :
  r.loop fuel' s = some l
  := by
  induction fuel generalizing fuel' s l with
  | zero => simp [loop] at h
  | succ fuel ih =>
      obtain ⟨fuel', rfl⟩ := Nat.exists_eq_add_of_le' (show 1 ≤ fuel' by omega)
      rw [loop] at h ⊢
      split
      · rename_i hnil
        rw [if_pos hnil] at h
        exact h
      · rename_i hne
        rw [if_neg hne] at h
        obtain ⟨l', hl', hl⟩ := Option.map_eq_some_iff.mp h
        rw [ih (by omega) hl']
        exact congrArg some hl

theorem loop_eq_some_chunks {fuel : Nat} {s : σ} (h : (r.remaining s).length < fuel) :
  r.loop fuel s = some (r.chunks s)
  := by
  apply r.loop_mono (show (r.remaining s).length + 1 ≤ fuel by omega)
  rw [chunks, Option.some_get]

theorem chunks_of_nil {s : σ} (h : (r.read s).1 = []) :
  r.chunks s = []
  := by
  have hloop := r.loop_eq_some_chunks (Nat.lt_succ_self (r.remaining s).length)
  rw [loop, if_pos h] at hloop
  exact (Option.some.inj hloop).symm

/-- What is read begins with the first piece. -/
theorem chunks_of_ne_nil {s : σ} (h : (r.read s).1 ≠ []) :
  r.chunks s = (r.read s).1 :: r.chunks (r.read s).2
  := by
  have hloop := r.loop_eq_some_chunks (Nat.lt_succ_self (r.remaining s).length)
  rw [loop, if_neg h, r.loop_eq_some_chunks (r.length_remaining_lt h)] at hloop
  exact (Option.some.inj hloop).symm

/-- What is handed out depends on the first read only. -/
theorem chunks_congr {s s' : σ} (h : r.read s = r.read s') :
  r.chunks s = r.chunks s'
  := by
  by_cases hnil : (r.read s').1 = []
  · rw [r.chunks_of_nil hnil, r.chunks_of_nil (by rwa [h])]
  · rw [r.chunks_of_ne_nil hnil, r.chunks_of_ne_nil (by rwa [h]), h]

/-- An induction along the reads. -/
theorem induction_on {P : σ → Prop} (nil : ∀ s, (r.read s).1 = [] → P s)
    (cons : ∀ s, (r.read s).1 ≠ [] → P (r.read s).2 → P s) (s : σ) :
  P s
  := by
  induction hn : (r.remaining s).length using Nat.strongRecOn generalizing s with
  | ind n ih =>
      by_cases h : (r.read s).1 = []
      · apply nil s h
      · apply cons s h
        apply ih _ _ _ rfl
        rw [← hn]
        apply r.length_remaining_lt h

/-- What holds of everything that is handed out in a read holds of every piece. -/
theorem forall_mem_chunks {P : List α → Prop} (h : ∀ s, (r.read s).1 ≠ [] → P (r.read s).1)
    (s : σ) :
  ∀ piece ∈ r.chunks s, P piece
  := by
  induction s using r.induction_on with
  | nil s hnil => simp [r.chunks_of_nil hnil]
  | cons s hne ih =>
      rw [r.chunks_of_ne_nil hne, List.forall_mem_cons]
      exact ⟨h s hne, ih⟩

/-- If reading ends only when nothing is left, the pieces, one after another, are what there
was. -/
theorem flatten_chunks (hend : ∀ s, (r.read s).1 = [] → r.remaining s = []) (s : σ) :
  (r.chunks s).flatten = r.remaining s
  := by
  induction s using r.induction_on with
  | nil s h =>
      rw [r.chunks_of_nil h, hend s h]
      rfl
  | cons s h ih => rw [r.chunks_of_ne_nil h, List.flatten_cons, ih, r.hands]

/-- If every piece is as long as was asked for, or all that is left, the pieces are the blocks. -/
theorem chunks_eq_blocks {b : Nat} (hb : 0 < b) {I : σ → Prop}
    (hread : ∀ s, I s → (r.read s).1 = (r.remaining s).take b) (hkeep : ∀ s, I s → I (r.read s).2)
    {s : σ} (hs : I s) :
  r.chunks s = blocks b (r.remaining s)
  := by
  induction s using r.induction_on with
  | nil s h =>
      have htake := hread s hs
      rw [h, eq_comm, List.take_eq_nil_iff] at htake
      have hnil : r.remaining s = [] := htake.resolve_left (by omega)
      rw [r.chunks_of_nil h, hnil, blocks_nil]
  | cons s h ih =>
      have htake := hread s hs
      have hne : r.remaining s ≠ [] := by
        intro hnil
        rw [hnil, List.take_nil] at htake
        apply h htake
      have hparts : (r.remaining s).take b ++ r.remaining (r.read s).2
          = (r.remaining s).take b ++ (r.remaining s).drop b := by
        rw [List.take_append_drop, ← htake, r.hands]
      have hdrop := List.append_cancel_left hparts
      rw [r.chunks_of_ne_nil h, ih (hkeep s hs), blocks_of_ne_nil hb hne, htake, hdrop]

/-- The reader that hands out `b` items, or all that is left. -/
def full (b : Nat) : Reader α (List α) where
  read l := (l.take b, l.drop b)
  remaining l := l
  hands l := List.take_append_drop b l

theorem chunks_full {b : Nat} (hb : 0 < b) (l : List α) :
  (full b).chunks l = blocks b l
  := (full b).chunks_eq_blocks (I := fun _ => True) hb (fun _ _ => rfl) (fun _ _ => trivial) trivial

end Reader

end Cut
