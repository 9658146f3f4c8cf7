import Mathlib.Order.Iterate
import ResourceDistribution.Data.Cut

/-!
# Buffered reading

A source hands out a list, one read at a time. A read gets as many items as it asks for or fewer, but
at least one as long as there is one (`Reads`). A buffered reader asks the source for as many items as
its buffer holds whenever the buffer is empty, and passes a demand for as many or more on to the
source. If it is asked for `n` items again and again, the pieces that it hands out are the blocks of
`n` items exactly when every read of the source that begins before the end begins at a block
(`chunks_eq_blocks_iff`).
-/

universe u

/-- How many items a read hands out that begins at `offset` and asks for `n`, if as many are left. -/
structure Reads where
  size : ℕ → ℕ → ℕ
  size_pos : ∀ offset n, 0 < n → 0 < size offset n
  size_le : ∀ offset n, size offset n ≤ n

namespace Reads

/-- All that is asked for, up to a limit. -/
def upTo (limit : ℕ) (hlimit : 0 < limit) : Reads where
  size _ n := min n limit
  size_pos _ _ h := lt_min h hlimit
  size_le _ _ := min_le_left _ _

variable (reads : Reads) {m n offset length : ℕ}

/-- Where the read after the one at `offset` begins, if both ask for `m` items. -/
def next (m offset : ℕ) : ℕ := offset + reads.size offset m

/-- Of the reads for `m` items, from the one at `offset` on, those that begin before the end of
`length` items begin at a multiple of `n`. -/
def Aligned (m n offset length : ℕ) : Prop :=
  ∀ k, (reads.next m)^[k] offset < length → n ∣ (reads.next m)^[k] offset

/-- A read for `m` items of a source of `length` gets them, or all that are left. -/
def Whole (m length : ℕ) : Prop := ∀ offset < length, min m (length - offset) ≤ reads.size offset m

theorem le_iterate_next (m offset k : ℕ) :
  offset ≤ (reads.next m)^[k] offset
  := Function.id_le_iterate_of_id_le (fun _ => Nat.le_add_right _ _) k offset

variable {reads}

/-- No read begins before the end. -/
theorem aligned_of_le (h : length ≤ offset) :
  reads.Aligned m n offset length
  := fun k hk => absurd hk (not_lt.mpr (h.trans (reads.le_iterate_next m offset k)))

/-- The reads from one on that begins at a multiple are aligned if those after it are. -/
theorem aligned_iff_next (h : n ∣ offset) :
  reads.Aligned m n offset length ↔ reads.Aligned m n (reads.next m offset) length
  := by
  constructor
  · intro haligned k hk
    exact haligned (k + 1) hk
  · intro haligned k hk
    cases k with
    | zero => exact h
    | succ k => exact haligned k hk

/-- A read that begins before the end begins at a multiple. -/
theorem Aligned.dvd (h : reads.Aligned m n offset length) (hoffset : offset < length) :
  n ∣ offset
  := h 0 hoffset

/-- Among whole reads, one that begins before the end begins where the ones before it have read all
that they asked for. -/
theorem Whole.dvd_iterate_next (h : reads.Whole m length) {k : ℕ}
    (hk : (reads.next m)^[k] 0 < length) :
  m ∣ (reads.next m)^[k] 0
  := by
  induction k with
  | zero => exact Nat.dvd_zero m
  | succ k ih =>
      rw [Function.iterate_succ_apply'] at hk ⊢
      set start := (reads.next m)^[k] 0
      rw [next] at hk ⊢
      have hwhole := h start (by omega)
      have hle := reads.size_le start m
      have hsize : reads.size start m = m := by omega
      rw [hsize]
      exact Nat.dvd_add (ih (by omega)) (Nat.dvd_refl m)

/-- Whole reads are aligned exactly when as many items are asked for as some blocks have, or all that
there are. -/
theorem Whole.aligned_iff (h : reads.Whole m length) :
  reads.Aligned m n 0 length ↔ n ∣ m ∨ length ≤ m
  := by
  constructor
  · intro haligned
    by_contra hnot
    rw [not_or] at hnot
    have hwhole := h 0 (by omega)
    have hle := reads.size_le 0 m
    have hnext : (reads.next m)^[1] 0 = m := by
      rw [Function.iterate_one, next]
      omega
    have hdvd := haligned 1 (by omega)
    rw [hnext] at hdvd
    exact hnot.1 hdvd
  · rintro (hdvd | hshort) k hk
    · exact Nat.dvd_trans hdvd (h.dvd_iterate_next hk)
    · cases k with
      | zero => exact Nat.dvd_zero n
      | succ k =>
          have hwhole := h 0 (by omega)
          have hle := reads.le_iterate_next m (reads.next m 0) k
          have hnext : reads.next m 0 = reads.size 0 m := Nat.zero_add _
          rw [Function.iterate_succ_apply] at hk
          omega

/-- Reads up to a limit are whole if no more is asked for, or if there is no more. -/
theorem whole_upTo {limit : ℕ} (hlimit : 0 < limit) (h : m ≤ limit ∨ length ≤ limit) :
  (upTo limit hlimit).Whole m length
  := by
  intro offset hoffset
  show min m (length - offset) ≤ min m limit
  omega

end Reads

/-- A buffered reader: what it holds in its buffer, where the next read of the source begins, and what
is left to read there. -/
structure Buffered (α : Type u) where
  buffer : List α
  offset : ℕ
  rest : List α

namespace Buffered

variable {α : Type u} (reads : Reads) (capacity n : ℕ)

/-- A reader of a source that nothing was read from. -/
def new (source : List α) : Buffered α := ⟨[], 0, source⟩

/-- What the reader has not handed out yet. -/
def remaining (b : Buffered α) : List α := b.buffer ++ b.rest

/-- A read of the source for `m` items into an empty buffer. -/
def refill (m : ℕ) (b : Buffered α) : Buffered α :=
  let piece := b.rest.take (reads.size b.offset m)
  ⟨piece, b.offset + piece.length, b.rest.drop (reads.size b.offset m)⟩

/-- Items from the buffer, as many as are asked for, or all that are there. -/
def hand (b : Buffered α) : List α × Buffered α :=
  (b.buffer.take n, { b with buffer := b.buffer.drop n })

/-- The reader before it hands out items: if nothing is buffered, the source is read, for what is
asked for if that is as much as the buffer holds or more, and for what the buffer holds otherwise. -/
def filled (b : Buffered α) : Buffered α :=
  if b.buffer = [] then
    if capacity ≤ n then b.refill reads n else b.refill reads capacity
  else b

/-- A read for `n` items. -/
def read (b : Buffered α) : List α × Buffered α := (b.filled reads capacity n).hand n

variable {reads capacity n} {b : Buffered α}

theorem filled_of_nil (h : b.buffer = []) :
  b.filled reads capacity n = b.refill reads (max capacity n)
  := by
  rw [filled, if_pos h]
  split
  · rename_i hle
    rw [max_eq_right hle]
  · rename_i hlt
    rw [max_eq_left (by omega)]

theorem filled_of_ne_nil (h : b.buffer ≠ []) :
  b.filled reads capacity n = b
  := if_neg h

/-- Reading the source into the buffer loses nothing. -/
theorem remaining_refill (h : b.buffer = []) (m : ℕ) :
  (b.refill reads m).remaining = b.remaining
  := by
  rw [remaining, remaining, h, List.nil_append]
  apply List.take_append_drop

theorem remaining_filled (b : Buffered α) :
  (b.filled reads capacity n).remaining = b.remaining
  := by
  by_cases h : b.buffer = []
  · rw [filled_of_nil h, remaining_refill h]
  · rw [filled_of_ne_nil h]

theorem remaining_hand (b : Buffered α) :
  (b.hand n).1 ++ (b.hand n).2.remaining = b.remaining
  := by
  rw [hand, remaining, ← List.append_assoc, List.take_append_drop, remaining]

variable (reads capacity n) in
/-- A buffered reader that is asked for `n` items. -/
def reader : Cut.Reader α (Buffered α) where
  read := read reads capacity n
  remaining := remaining
  hands b := (remaining_hand _).trans (remaining_filled b)

variable (reads) in
/-- A read of the source gets something if there is something. -/
theorem buffer_refill_ne_nil {m : ℕ} (hm : 0 < m) (h : b.rest ≠ []) :
  (b.refill reads m).buffer ≠ []
  := by
  have hsize := reads.size_pos b.offset m hm
  have hpos := List.length_pos_of_ne_nil h
  apply List.ne_nil_of_length_pos
  rw [refill, List.length_take]
  omega

/-- The reader hands out nothing only at the end. -/
theorem remaining_eq_nil (hn : 0 < n) (h : (b.read reads capacity n).1 = []) :
  b.remaining = []
  := by
  have hbuffer : (b.filled reads capacity n).buffer = [] :=
    (List.take_eq_nil_iff.mp h).resolve_left (by omega)
  by_cases hempty : b.buffer = []
  · rw [filled_of_nil hempty] at hbuffer
    have hrest : b.rest = [] := by
      by_contra hrest
      exact buffer_refill_ne_nil reads (Nat.lt_of_lt_of_le hn (Nat.le_max_right _ _)) hrest hbuffer
    rw [remaining, hempty, hrest]
    rfl
  · rw [filled_of_ne_nil hempty] at hbuffer
    exact absurd hbuffer hempty

/-- The pieces, one after another, are what there was. -/
theorem flatten_chunks (hn : 0 < n) (b : Buffered α) :
  ((reader reads capacity n).chunks b).flatten = b.remaining
  := (reader reads capacity n).flatten_chunks (fun _ h => remaining_eq_nil hn h) b

/-- No piece is empty or longer than what is asked for. -/
theorem length_chunk (b : Buffered α) :
  ∀ piece ∈ (reader reads capacity n).chunks b, piece ≠ [] ∧ piece.length ≤ n
  := by
  apply (reader reads capacity n).forall_mem_chunks (P := fun piece => piece ≠ [] ∧ piece.length ≤ n)
  intro b hne
  exact ⟨hne, List.length_take_le _ _⟩

/-! ### Pieces and blocks -/

/-- A piece that is shorter than what is asked for, and than what is left, is not a block. -/
theorem cons_ne_blocks (hn : 0 < n) {piece l : List α} (hlt : piece.length < n)
    (hleft : piece.length < l.length) (pieces : List (List α)) :
  piece :: pieces ≠ Cut.blocks n l
  := by
  intro heq
  have hl : l ≠ [] := by
    apply List.ne_nil_of_length_pos
    omega
  rw [Cut.blocks_of_ne_nil hn hl, List.cons.injEq] at heq
  have hlength := congrArg List.length heq.1
  rw [List.length_take] at hlength
  omega

/-- Whether the pieces from here on are blocks depends on where the next reads of the source begin. -/
def ReadsBlocks (reads : Reads) (capacity n : ℕ) (b : Buffered α) : Prop :=
  (reader reads capacity n).chunks b = Cut.blocks n b.remaining ↔
    reads.Aligned (max capacity n) n b.offset (b.offset + b.rest.length)

/-- At the end there are no pieces. -/
theorem chunks_of_remaining_nil (hb : b.remaining = []) :
  (reader reads capacity n).chunks b = []
  := by
  apply (reader reads capacity n).chunks_of_nil
  have hparts := (reader reads capacity n).hands b
  exact (List.append_eq_nil_iff.mp (hparts.trans hb)).1

/-- At the end there are no pieces and no blocks. -/
theorem readsBlocks_of_nil (hb : b.remaining = []) :
  b.ReadsBlocks reads capacity n
  := by
  have hrest : b.rest = [] := (List.append_eq_nil_iff.mp hb).2
  rw [ReadsBlocks, chunks_of_remaining_nil hb, hb, Cut.blocks_nil, hrest]
  exact iff_of_true rfl (Reads.aligned_of_le le_rfl)

/-- Pieces from the buffer are blocks as far as it goes, so what follows decides; and if the buffer
runs out inside a block, the next read begins there. -/
theorem ReadsBlocks.of_hand (hn : 0 < n) (hbuffer : b.buffer ≠ [])
    (hplace : ∃ q, b.offset = q * n + b.buffer.length)
    (ih : n ≤ b.buffer.length → (b.hand n).2.ReadsBlocks reads capacity n) :
  b.ReadsBlocks reads capacity n
  := by
  have hread : (reader reads capacity n).read b = b.hand n := by
    show (b.filled reads capacity n).hand n = b.hand n
    rw [filled_of_ne_nil hbuffer]
  have hpos := List.length_pos_of_ne_nil hbuffer
  have hpiece : ((reader reads capacity n).read b).1 ≠ [] := by
    rw [hread]
    apply List.ne_nil_of_length_pos
    rw [hand, List.length_take]
    omega
  have hne : b.remaining ≠ [] := by
    intro h
    exact hbuffer (List.append_eq_nil_iff.mp h).1
  rw [ReadsBlocks, (reader reads capacity n).chunks_of_ne_nil hpiece, hread]
  rcases Nat.lt_or_ge b.buffer.length n with hshort | hlong
  · have htake : (b.hand n).1 = b.buffer := List.take_of_length_le hshort.le
    by_cases hrest : b.rest = []
    · have hleft : b.remaining = b.buffer := by rw [remaining, hrest, List.append_nil]
      have hdone : (b.hand n).2.remaining = [] := by
        rw [remaining, hand, hrest, List.drop_eq_nil_of_le hshort.le]
        rfl
      rw [htake, chunks_of_remaining_nil hdone, hleft,
        Cut.blocks_of_length_le hn hbuffer hshort.le, hrest]
      exact iff_of_true rfl (Reads.aligned_of_le le_rfl)
    · have hlen := List.length_pos_of_ne_nil hrest
      apply iff_of_false
      · rw [htake]
        apply cons_ne_blocks hn hshort
        rw [remaining, List.length_append]
        omega
      · intro haligned
        obtain ⟨q, hq⟩ := hplace
        have hdvd := haligned.dvd (by omega)
        rw [hq, Nat.dvd_add_right (Nat.dvd_mul_left n q)] at hdvd
        exact absurd (Nat.le_of_dvd hpos hdvd) (by omega)
  · have hhead : (b.hand n).1 = b.remaining.take n := (List.take_append_of_le_length hlong).symm
    have htail : (b.hand n).2.remaining = b.remaining.drop n :=
      (List.drop_append_of_le_length hlong).symm
    rw [Cut.blocks_of_ne_nil hn hne, hhead, List.cons.injEq, and_iff_right rfl, ← htail]
    exact ih hlong

/-- The next read of the source after a refill begins where the piece ends, or there is none. -/
theorem aligned_refill {m : ℕ} (hdvd : n ∣ b.offset) :
  reads.Aligned m n (b.refill reads m).offset
      ((b.refill reads m).offset + (b.refill reads m).rest.length) ↔
    reads.Aligned m n b.offset (b.offset + b.rest.length)
  := by
  have hpiece : (b.refill reads m).offset = b.offset + min (reads.size b.offset m) b.rest.length := by
    rw [refill, List.length_take]
  have hleft : (b.refill reads m).rest.length = b.rest.length - reads.size b.offset m := by
    rw [refill, List.length_drop]
  have hend : b.offset + min (reads.size b.offset m) b.rest.length
      + (b.rest.length - reads.size b.offset m) = b.offset + b.rest.length := by
    omega
  rw [hpiece, hleft, hend, Reads.aligned_iff_next hdvd, Reads.next]
  rcases Nat.le_total (reads.size b.offset m) b.rest.length with hle | hge
  · rw [Nat.min_eq_left hle]
  · apply iff_of_true
    · apply Reads.aligned_of_le
      omega
    · apply Reads.aligned_of_le
      omega

/-- A refill does not change which pieces follow, nor whether they are blocks. -/
theorem ReadsBlocks.of_refill (hn : 0 < n) (hbuffer : b.buffer = []) (hrest : b.rest ≠ [])
    (hdvd : n ∣ b.offset)
    (h : (b.refill reads (max capacity n)).ReadsBlocks reads capacity n) :
  b.ReadsBlocks reads capacity n
  := by
  have hfull := buffer_refill_ne_nil reads
    (Nat.lt_of_lt_of_le hn (Nat.le_max_right capacity n)) hrest
  have hread : (reader reads capacity n).read b
      = (reader reads capacity n).read (b.refill reads (max capacity n)) := by
    show (b.filled reads capacity n).hand n = (filled reads capacity n _).hand n
    rw [filled_of_nil hbuffer, filled_of_ne_nil hfull]
  rw [ReadsBlocks, aligned_refill hdvd, remaining_refill hbuffer] at h
  rw [ReadsBlocks, (reader reads capacity n).chunks_congr hread]
  exact h

variable (reads capacity) in
/-- If the reader has come to a multiple of `n`, its pieces are blocks exactly when the reads of the
source from here on are aligned. -/
theorem readsBlocks (hn : 0 < n) (b : Buffered α)
    (hplace : ∃ q, b.offset = q * n + b.buffer.length) :
  b.ReadsBlocks reads capacity n
  := by
  induction b using (reader reads capacity n).induction_on with
  | nil b h => exact readsBlocks_of_nil (remaining_eq_nil hn h)
  | cons b h ih =>
      have hnext : ∀ b' : Buffered α, b.filled reads capacity n = b' → b'.buffer ≠ [] →
          (∃ q, b'.offset = q * n + b'.buffer.length) → b'.ReadsBlocks reads capacity n := by
        rintro b' rfl hbuffer ⟨q, hq⟩
        apply ReadsBlocks.of_hand hn hbuffer ⟨q, hq⟩
        intro hlong
        apply ih
        use q + 1
        show (b.filled reads capacity n).offset = _ + (List.drop n _).length
        rw [List.length_drop, hq, Nat.add_one_mul]
        omega
      obtain ⟨q, hq⟩ := hplace
      by_cases hbuffer : b.buffer = []
      · have hrest : b.rest ≠ [] := by
          intro hrest
          apply h
          have hremaining : b.remaining = [] := by rw [remaining, hbuffer, hrest, List.append_nil]
          have hparts := (reader reads capacity n).hands b
          exact (List.append_eq_nil_iff.mp (hparts.trans hremaining)).1
        have hdvd : n ∣ b.offset := by
          rw [hq, hbuffer]
          exact Nat.dvd_mul_left n q
        apply ReadsBlocks.of_refill hn hbuffer hrest hdvd
        apply hnext _ (filled_of_nil hbuffer)
        · apply buffer_refill_ne_nil reads _ hrest
          exact Nat.lt_of_lt_of_le hn (Nat.le_max_right capacity n)
        · use q
          rw [hbuffer, List.length_nil, Nat.add_zero] at hq
          rw [refill, hq]
      · exact hnext b (filled_of_ne_nil hbuffer) hbuffer ⟨q, hq⟩

/-- The pieces that the reader hands out are the blocks exactly when every read of the source that
begins before the end begins at a block. -/
theorem chunks_eq_blocks_iff (hn : 0 < n) (source : List α) :
  (reader reads capacity n).chunks (.new source) = Cut.blocks n source ↔
    reads.Aligned (max capacity n) n 0 source.length
  := by
  have h := readsBlocks reads capacity hn (.new source) ⟨0, by simp [new]⟩
  rw [ReadsBlocks] at h
  simpa [new, remaining] using h

end Buffered
