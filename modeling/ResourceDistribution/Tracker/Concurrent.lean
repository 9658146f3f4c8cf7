import ResourceDistribution.Data.Stamped
import ResourceDistribution.Tracker.Leases

/-!
# Concurrent updates

`update_node` normalises its payload and reads the clock before it takes the lock, and stores its
record under the lock. Here these are two steps of a thread, between which the others may do what
they like. The lease of a node never goes back as long as the updates of the node are stored in the
order in which they read the clock (`InOrder`), which nothing enforces.
-/

open Python

namespace Tracker

/-- The registry and the threads that use it: the map, the clock, and the records of the updates
that have read the clock and not yet taken the lock. -/
structure Threads where
  nodes : Nodes
  now : Time
  waiting : List Record

/-- Whether a call is one of `update_node`. -/
def Operation.isUpdate : Operation → Bool
  | .updateNode _ _ => true
  | _ => false

/-- A step of some thread, or of the clock. A call other than `update_node` is one step, with a
reading of the clock that may be earlier. -/
inductive Action where
  | tick (now : Time)
  | read (payload : Json) (remoteHost : Option Str)
  | store (i : ℕ)
  | call (op : Operation) (t : Time)

/-- No update of the same node that has read the clock earlier waits when a record is stored. -/
def Threads.InOrder (s : Threads) (action : Action) : Prop :=
  ∀ i record, action = .store i → s.waiting[i]? = some record →
    ∀ other ∈ s.waiting, other.nodeId = record.nodeId →
      record.lastSeenEpoch ≤ other.lastSeenEpoch

/-- Where both maps have the node, its lease does not go back. -/
def Nodes.Forward (nodes nodes' : Nodes) : Prop :=
  ∀ k record record', nodes.get? k = some record → nodes'.get? k = some record' →
    record.lastSeenEpoch ≤ record'.lastSeenEpoch ∧
      record.expiresAtEpoch ≤ record'.expiresAtEpoch

/-- The stamps of a node: the clock, the readings that wait, and the one in the map. -/
def Threads.stamps (s : Threads) (k : Str) : Stamped.Register Time where
  clock := s.now
  waiting := (s.waiting.filter fun record => record.nodeId = k).map Record.lastSeenEpoch
  shown := (s.nodes.get? k).map Record.lastSeenEpoch

section UnicodeData

variable [UnicodeData] (nodeTtlSeconds : ℤ)

/-- The state after a step, if the step is possible. -/
def Threads.step (s : Threads) : Action → Option Threads
  | .tick now => if s.now ≤ now then some { s with now := now } else none
  | .read payload remoteHost =>
      match updateRecord nodeTtlSeconds payload remoteHost s.now with
      | .ok record => some { s with waiting := s.waiting ++ [record] }
      | .error _ => some s
  | .store i =>
      s.waiting[i]?.map fun record =>
        { s with
          nodes := s.nodes.set record.nodeId record
          waiting := s.waiting.eraseIdx i }
  | .call op t =>
      if t ≤ s.now ∧ !op.isUpdate then some { s with nodes := op.after nodeTtlSeconds s.nodes t }
      else none

/-- All that a step can do. -/
inductive Threads.Does (s : Threads) : Action → Threads → Prop where
  | ticks {now : Time} (h : s.now ≤ now) : Does s (.tick now) { s with now := now }
  | reads {payload : Json} {remoteHost : Option Str} {record : Record}
      (h : updateRecord nodeTtlSeconds payload remoteHost s.now = .ok record) :
      Does s (.read payload remoteHost) { s with waiting := s.waiting ++ [record] }
  | rejects {payload : Json} {remoteHost : Option Str} : Does s (.read payload remoteHost) s
  | stores {i : ℕ} {record : Record} (h : s.waiting[i]? = some record) :
      Does s (.store i) { s with
        nodes := s.nodes.set record.nodeId record
        waiting := s.waiting.eraseIdx i }
  | calls {op : Operation} {t : Time} (hop : op.isUpdate = false) :
      Does s (.call op t) { s with nodes := op.after nodeTtlSeconds s.nodes t }

theorem Threads.does_of_step {s s' : Threads} {action : Action}
    (h : s.step nodeTtlSeconds action = some s') :
  s.Does nodeTtlSeconds action s'
  := by
  cases action with
  | tick now =>
      simp only [Threads.step, Option.ite_none_right_eq_some, Option.some.injEq] at h
      obtain ⟨hle, rfl⟩ := h
      apply Does.ticks hle
  | read payload remoteHost =>
      rw [Threads.step] at h
      split at h
      · rename_i record hrecord
        obtain rfl := Option.some.inj h
        apply Does.reads hrecord
      · obtain rfl := Option.some.inj h
        apply Does.rejects
  | store i =>
      obtain ⟨record, hrecord, rfl⟩ := Option.map_eq_some_iff.mp h
      apply Does.stores hrecord
  | call op t =>
      simp only [Threads.step, Option.ite_none_right_eq_some, Option.some.injEq,
        Bool.not_eq_true'] at h
      obtain ⟨⟨-, hop⟩, rfl⟩ := h
      apply Does.calls hop

/-- A call that is no update writes no record. -/
theorem get?_of_get?_after {nodes : Nodes} {op : Operation} (hop : op.isUpdate = false) {t : Time}
    {k : Str} {record : Record}
    (hk : (op.after nodeTtlSeconds nodes t).get? k = some record) :
  nodes.get? k = some record
  := by
  have hdoes := does nodeTtlSeconds nodes t op
  rw [Operation.after] at hk
  generalize op.run nodeTtlSeconds nodes t = r, op.events nodeTtlSeconds t = events at hdoes hk
  cases hdoes with
  | raises => exact hk
  | stores => cases hop
  | removes =>
      rw [Dict.get?_erase] at hk
      split at hk
      · cases hk
      · exact hk
  | reads => exact hk
  | cleansUp =>
      rw [get?_cleanupExpired, Lease.live, Option.filter_eq_some_iff] at hk
      exact hk.1

end UnicodeData

/-! ### The invariant -/

section Ttl

variable (nodeTtlSeconds : ℤ)

/-- A record whose lease has the length of all leases. -/
def Record.Leased (record : Record) : Prop :=
  record.expiresAtEpoch = record.lastSeenEpoch + nodeTtlSeconds * ticksPerSecond

/-- A state before any update: the map has what an earlier run has left. -/
structure Threads.Start (s : Threads) : Prop where
  leased : ∀ k record, s.nodes.get? k = some record → record.Leased nodeTtlSeconds
  seen_le : ∀ k record, s.nodes.get? k = some record → record.lastSeenEpoch ≤ s.now
  waiting_eq : s.waiting = []

/-- All leases have the same length, and the stamps of every node are ordered. -/
structure Threads.Inv (s : Threads) : Prop where
  stored_leased : ∀ k record, s.nodes.get? k = some record → record.Leased nodeTtlSeconds
  waiting_leased : ∀ record ∈ s.waiting, record.Leased nodeTtlSeconds
  ordered : ∀ k, Stamped.Ordered (s.stamps k)

variable {nodeTtlSeconds}

theorem Threads.Start.inv {s : Threads} (hs : s.Start nodeTtlSeconds) :
  s.Inv nodeTtlSeconds
  := by
  have hstamps : ∀ k, (s.stamps k).waiting = 0 := by
    intro k
    rw [Threads.stamps, hs.waiting_eq]
    rfl
  constructor
  · apply hs.leased
  · intro record hrecord
    rw [hs.waiting_eq] at hrecord
    cases hrecord
  · intro k
    constructor
    · intro x hx
      rw [hstamps] at hx
      cases Multiset.notMem_zero x hx
    · intro x hx
      obtain ⟨record, hrecord, rfl⟩ := Option.map_eq_some_iff.mp hx
      apply hs.seen_le k record hrecord
    · intro x _ y hy
      rw [hstamps] at hy
      cases Multiset.notMem_zero y hy

/-- Of two records with leases of the same length, the one that was seen later expires later. -/
theorem forward_of_le {record record' : Record} (h : record.Leased nodeTtlSeconds)
    (h' : record'.Leased nodeTtlSeconds) (hle : record.lastSeenEpoch ≤ record'.lastSeenEpoch) :
  record.lastSeenEpoch ≤ record'.lastSeenEpoch ∧ record.expiresAtEpoch ≤ record'.expiresAtEpoch
  := by
  use hle
  rw [h, h']
  apply add_le_add_left hle

end Ttl

/-- The stamps of the node of a record that waits: its own and the others. -/
theorem waiting_stamps_eq_cons {s : Threads} {i : ℕ} {record : Record}
    (h : s.waiting[i]? = some record) :
  (s.stamps record.nodeId).waiting = record.lastSeenEpoch ::ₘ
    (((s.waiting.eraseIdx i).filter fun r => r.nodeId = record.nodeId).map Record.lastSeenEpoch :
      List Time)
  := by
  obtain ⟨hi, hrecord⟩ := List.getElem?_eq_some_iff.mp h
  have hperm : s.waiting.Perm (record :: s.waiting.eraseIdx i) := by
    rw [← hrecord]
    apply (List.getElem_cons_eraseIdx_perm hi).symm
  rw [Multiset.cons_coe]
  apply Multiset.coe_eq_coe.mpr
  have hfilter := (hperm.filter fun r => r.nodeId = record.nodeId).map Record.lastSeenEpoch
  rwa [List.filter_cons_of_pos (by simp), List.map_cons] at hfilter

/-- A record of another node that waits has no stamp. -/
theorem waiting_stamps_eq {s : Threads} {i : ℕ} {record : Record} {k : Str}
    (h : s.waiting[i]? = some record) (hk : k ≠ record.nodeId) :
  (s.stamps k).waiting
    = (((s.waiting.eraseIdx i).filter fun r => r.nodeId = k).map Record.lastSeenEpoch : List Time)
  := by
  obtain ⟨hi, hrecord⟩ := List.getElem?_eq_some_iff.mp h
  have hperm : s.waiting.Perm (record :: s.waiting.eraseIdx i) := by
    rw [← hrecord]
    apply (List.getElem_cons_eraseIdx_perm hi).symm
  apply Multiset.coe_eq_coe.mpr
  have hfilter := (hperm.filter fun r => r.nodeId = k).map Record.lastSeenEpoch
  rwa [List.filter_cons_of_neg (by simpa using hk.symm)] at hfilter

section UnicodeData

variable [UnicodeData] {nodeTtlSeconds : ℤ}

theorem leased_of_updateRecord {payload : Json} {remoteHost : Option Str} {now : Time}
    {record : Record} (h : updateRecord nodeTtlSeconds payload remoteHost now = .ok record) :
  record.Leased nodeTtlSeconds
  := by
  have hspec := updateRecord_spec h
  rw [Record.Leased, hspec.expiresAtEpoch_eq, hspec.lastSeenEpoch_eq]

/-- A record that is built takes a reading of the clock for its node. -/
theorem stamps_read {s : Threads} {payload : Json} {remoteHost : Option Str} {record : Record}
    (hrecord : updateRecord nodeTtlSeconds payload remoteHost s.now = .ok record) :
  Stamped.Step (s.stamps record.nodeId)
    (Threads.stamps { s with waiting := s.waiting ++ [record] } record.nodeId)
  := by
  have htake : Threads.stamps { s with waiting := s.waiting ++ [record] } record.nodeId
      = { s.stamps record.nodeId with
          waiting := s.now ::ₘ (s.stamps record.nodeId).waiting } := by
    simp only [Threads.stamps, Stamped.Register.mk.injEq, true_and, and_true]
    rw [List.filter_append, List.filter_cons_of_pos (by simp), List.map_append, Multiset.cons_coe]
    apply Multiset.coe_eq_coe.mpr
    simp only [List.filter_nil, List.map_cons, List.map_nil,
      (updateRecord_spec hrecord).lastSeenEpoch_eq]
    apply List.perm_append_singleton
  rw [htake]
  apply Stamped.Step.take

omit [UnicodeData] in
theorem stamps_read_of_ne {s : Threads} {record : Record} {k : Str} (hk : k ≠ record.nodeId) :
  Threads.stamps { s with waiting := s.waiting ++ [record] } k = s.stamps k
  := by
  simp [Threads.stamps, hk.symm]

omit [UnicodeData] in
/-- A record that is stored in order shows its reading of the clock. -/
theorem stamps_store {s : Threads} {i : ℕ} {record : Record}
    (hrecord : s.waiting[i]? = some record) (horder : s.InOrder (.store i)) :
  Stamped.Step (s.stamps record.nodeId) (Threads.stamps { s with
      nodes := s.nodes.set record.nodeId record
      waiting := s.waiting.eraseIdx i } record.nodeId)
  := by
  have hstamps : s.stamps record.nodeId = ⟨s.now, record.lastSeenEpoch ::ₘ
      (((s.waiting.eraseIdx i).filter fun r => r.nodeId = record.nodeId).map
        Record.lastSeenEpoch : List Time), (s.stamps record.nodeId).shown⟩ := by
    rw [← waiting_stamps_eq_cons hrecord]
    rfl
  have hstamps' : Threads.stamps { s with
        nodes := s.nodes.set record.nodeId record
        waiting := s.waiting.eraseIdx i } record.nodeId = ⟨s.now,
      (((s.waiting.eraseIdx i).filter fun r => r.nodeId = record.nodeId).map
        Record.lastSeenEpoch : List Time), some record.lastSeenEpoch⟩ := by
    rw [Threads.stamps, Dict.get?_set_self]
    rfl
  rw [hstamps, hstamps']
  apply Stamped.Step.publish
  intro y hy
  obtain ⟨other, hother, rfl⟩ := List.mem_map.mp (Multiset.mem_coe.mp hy)
  obtain ⟨hother, hid⟩ := List.mem_filter.mp hother
  apply horder i record rfl hrecord other (List.mem_of_mem_eraseIdx hother) (of_decide_eq_true hid)

omit [UnicodeData] in
theorem stamps_store_of_ne {s : Threads} {i : ℕ} {record : Record} {k : Str}
    (hrecord : s.waiting[i]? = some record) (hk : k ≠ record.nodeId) :
  Threads.stamps { s with
      nodes := s.nodes.set record.nodeId record
      waiting := s.waiting.eraseIdx i } k = s.stamps k
  := by
  rw [Threads.stamps, ← waiting_stamps_eq hrecord hk, Dict.get?_set, if_neg hk]
  rfl

/-- Another call keeps what is shown of a node, or clears it. -/
theorem stamps_call {s : Threads} {op : Operation} (hop : op.isUpdate = false) (t : Time)
    (k : Str) :
  Relation.ReflTransGen Stamped.Step (s.stamps k)
    (Threads.stamps { s with nodes := op.after nodeTtlSeconds s.nodes t } k)
  := by
  cases hk : (op.after nodeTtlSeconds s.nodes t).get? k with
  | none =>
      have hstamps : Threads.stamps { s with nodes := op.after nodeTtlSeconds s.nodes t } k
          = { s.stamps k with shown := none } := by
        rw [Threads.stamps, hk]
        rfl
      rw [hstamps]
      apply Relation.ReflTransGen.single
      apply Stamped.Step.clear
  | some record =>
      have hstamps : Threads.stamps { s with nodes := op.after nodeTtlSeconds s.nodes t } k
          = s.stamps k := by
        rw [Threads.stamps, hk, Threads.stamps, get?_of_get?_after nodeTtlSeconds hop hk]
      rw [hstamps]

/-- A step in order is for every node a run of its stamps. -/
theorem reflTransGen_stamps {s s' : Threads} {action : Action}
    (hstep : s.step nodeTtlSeconds action = some s') (horder : s.InOrder action) (k : Str) :
  Relation.ReflTransGen Stamped.Step (s.stamps k) (s'.stamps k)
  := by
  cases Threads.does_of_step nodeTtlSeconds hstep with
  | ticks hle => exact .single (.tick hle)
  | @reads payload remoteHost record hrecord =>
      by_cases hk : k = record.nodeId
      · subst hk
        exact .single (stamps_read hrecord)
      · rw [stamps_read_of_ne hk]
  | rejects => apply Relation.ReflTransGen.refl
  | @stores i record hrecord =>
      by_cases hk : k = record.nodeId
      · subst hk
        exact .single (stamps_store hrecord horder)
      · rw [stamps_store_of_ne hrecord hk]
  | calls hop => apply stamps_call hop

/-- A step in order keeps the invariant. -/
theorem Threads.Inv.step {s s' : Threads} (hs : s.Inv nodeTtlSeconds) {action : Action}
    (hstep : s.step nodeTtlSeconds action = some s') (horder : s.InOrder action) :
  s'.Inv nodeTtlSeconds
  := by
  have hordered : ∀ k, Stamped.Ordered (s'.stamps k) := fun k =>
    Stamped.ordered_of_reflTransGen (reflTransGen_stamps hstep horder k) (hs.ordered k)
  cases Threads.does_of_step nodeTtlSeconds hstep with
  | ticks => exact ⟨hs.stored_leased, hs.waiting_leased, hordered⟩
  | reads hrecord =>
      refine ⟨hs.stored_leased, ?_, hordered⟩
      intro r hr
      rcases List.mem_append.mp hr with hr | hr
      · apply hs.waiting_leased r hr
      · rw [List.mem_singleton.mp hr]
        apply leased_of_updateRecord hrecord
  | rejects => exact hs
  | stores hrecord =>
      refine ⟨?_, ?_, hordered⟩
      · intro k r hk
        rw [Dict.get?_set] at hk
        split at hk
        · rw [← Option.some.inj hk]
          apply hs.waiting_leased _ (List.mem_of_getElem? hrecord)
        · apply hs.stored_leased k r hk
      · intro r hr
        apply hs.waiting_leased r (List.mem_of_mem_eraseIdx hr)
  | calls hop =>
      refine ⟨?_, hs.waiting_leased, hordered⟩
      intro k r hk
      apply hs.stored_leased k r (get?_of_get?_after nodeTtlSeconds hop hk)

/-- As long as the stamps are ordered, no step moves a lease back. -/
theorem Threads.Inv.forward {s s' : Threads} (hs : s.Inv nodeTtlSeconds) {action : Action}
    (hstep : s.step nodeTtlSeconds action = some s') :
  s.nodes.Forward s'.nodes
  := by
  intro k r r' hk hk'
  have hsame : r' = r →
      r.lastSeenEpoch ≤ r'.lastSeenEpoch ∧ r.expiresAtEpoch ≤ r'.expiresAtEpoch := by
    rintro rfl
    exact ⟨le_rfl, le_rfl⟩
  cases Threads.does_of_step nodeTtlSeconds hstep with
  | ticks => apply hsame (Option.some.inj (hk'.symm.trans hk))
  | reads => apply hsame (Option.some.inj (hk'.symm.trans hk))
  | rejects => apply hsame (Option.some.inj (hk'.symm.trans hk))
  | @stores i record hrecord =>
      rw [Dict.get?_set] at hk'
      split at hk'
      · rename_i heq
        subst heq
        obtain rfl := Option.some.inj hk'
        have hwaiting := List.mem_of_getElem? hrecord
        apply forward_of_le (hs.stored_leased _ r hk) (hs.waiting_leased _ hwaiting)
        apply (hs.ordered record.nodeId).shown_le_waiting
        · rw [Threads.stamps, hk]
          rfl
        · apply Multiset.mem_coe.mpr
          apply List.mem_map.mpr ⟨record, _, rfl⟩
          apply List.mem_filter.mpr ⟨hwaiting, decide_eq_true rfl⟩
      · apply hsame (Option.some.inj (hk'.symm.trans hk))
  | calls hop =>
      apply hsame (Option.some.inj ((get?_of_get?_after nodeTtlSeconds hop hk').symm.trans hk))

/-- If a record is stored while one waits that was read earlier, that one can be stored next, and
moves the lease back. -/
theorem exists_back_of_not_inOrder {s s' : Threads} {action : Action}
    (hstep : s.step nodeTtlSeconds action = some s') (horder : ¬ s.InOrder action) :
  ∃ action' s'', s'.step nodeTtlSeconds action' = some s'' ∧ ¬ s'.nodes.Forward s''.nodes
  := by
  simp only [Threads.InOrder, not_forall, not_le] at horder
  obtain ⟨i, record, rfl, hrecord, other, hother, hid, hlt⟩ := horder
  obtain ⟨record', hrecord', rfl⟩ := Option.map_eq_some_iff.mp hstep
  obtain rfl := Option.some.inj (hrecord.symm.trans hrecord')
  have hne : other ≠ record := by
    rintro rfl
    exact lt_irrefl _ hlt
  have hleft : other ∈ s.waiting.eraseIdx i := by
    obtain ⟨hi, hget⟩ := List.getElem?_eq_some_iff.mp hrecord
    have hperm : (record :: s.waiting.eraseIdx i).Perm s.waiting := by
      rw [← hget]
      apply List.getElem_cons_eraseIdx_perm hi
    apply (List.mem_cons.mp (hperm.mem_iff.mpr hother)).resolve_left hne
  obtain ⟨j, hj⟩ := List.getElem?_of_mem hleft
  refine ⟨.store j, {
    nodes := (s.nodes.set record.nodeId record).set other.nodeId other
    now := s.now
    waiting := (s.waiting.eraseIdx i).eraseIdx j }, ?_, ?_⟩
  · rw [Threads.step, hj]
    rfl
  · intro hforward
    have hback := (hforward record.nodeId record other (Dict.get?_set_self _ _ _) (by
      rw [hid]
      apply Dict.get?_set_self)).1
    exact absurd hlt (not_lt.mpr hback)

variable (nodeTtlSeconds) in
/-- The states that steps in order lead to. -/
inductive InOrderReachable : Threads → Prop where
  | start {s : Threads} (h : s.Start nodeTtlSeconds) : InOrderReachable s
  | step {s s' : Threads} (h : InOrderReachable s) {action : Action}
      (hstep : s.step nodeTtlSeconds action = some s') (horder : s.InOrder action) :
      InOrderReachable s'

theorem InOrderReachable.inv {s : Threads} (h : InOrderReachable nodeTtlSeconds s) :
  s.Inv nodeTtlSeconds
  := by
  induction h with
  | start hstart => apply hstart.inv
  | step _ hstep horder ih => apply ih.step hstep horder

/-- The clock may go on, and a record may be built, in any order. -/
theorem InOrderReachable.tick {s : Threads} (h : InOrderReachable nodeTtlSeconds s) {now : Time}
    (hle : s.now ≤ now) :
  InOrderReachable nodeTtlSeconds { s with now := now }
  := by
  have hstep : s.step nodeTtlSeconds (.tick now) = some { s with now := now } := if_pos hle
  apply h.step hstep
  rintro i record ⟨⟩

theorem InOrderReachable.read {s : Threads} (h : InOrderReachable nodeTtlSeconds s)
    {payload : Json} {remoteHost : Option Str} {record : Record}
    (hrecord : updateRecord nodeTtlSeconds payload remoteHost s.now = .ok record) :
  InOrderReachable nodeTtlSeconds { s with waiting := s.waiting ++ [record] }
  := by
  have hstep : s.step nodeTtlSeconds (.read payload remoteHost)
      = some { s with waiting := s.waiting ++ [record] } := by
    simp only [Threads.step, hrecord]
  apply h.step hstep
  rintro i other ⟨⟩

/-- As long as the updates of each node are stored in the order in which they read the clock, no
step moves a lease back. As soon as one is stored while an earlier one waits, the next step can. -/
theorem forward_of_inOrder (nodeTtlSeconds : ℤ) (s : Threads)
    (hs : InOrderReachable nodeTtlSeconds s) (action : Action) (s' : Threads)
    (hstep : s.step nodeTtlSeconds action = some s') :
  s.nodes.Forward s'.nodes ∧
    (s.InOrder action ↔ ∀ action' s'', s'.step nodeTtlSeconds action' = some s'' →
      s'.nodes.Forward s''.nodes)
  := by
  use hs.inv.forward hstep
  constructor
  · intro horder action' s'' hstep'
    apply (hs.inv.step hstep horder).forward hstep'
  · intro hall
    by_contra horder
    obtain ⟨action', s'', hstep', hback⟩ := exists_back_of_not_inOrder hstep horder
    apply hback (hall action' s'' hstep')

end UnicodeData

/-! ### Two updates of one node -/

/-- An update of a node without resources. -/
def plainUpdate : Json := .dict [
  (Str.ofString "node_id", .str (Str.ofString "a")),
  (Str.ofString "host", .str (Str.ofString "127.0.0.1")),
  (Str.ofString "port", .int 9001)]

theorem exists_record_plainUpdate [UnicodeData] (nodeTtlSeconds : ℤ) (now : Time) :
  ∃ record, updateRecord nodeTtlSeconds plainUpdate none now = .ok record ∧
    record.nodeId = Str.ofString "a"
  := ⟨_, rfl, rfl⟩

/-- A registry that knows no node. -/
def Threads.empty (now : Time) : Threads := ⟨Dict.empty, now, []⟩

theorem start_empty (nodeTtlSeconds : ℤ) (now : Time) :
  (Threads.empty now).Start nodeTtlSeconds
  := by
  constructor
  · intro k record hk
    simp [Threads.empty] at hk
  · intro k record hk
    simp [Threads.empty] at hk
  · rfl

/-- One update is stored, and two later ones wait. If the earlier of them is stored next, the lease
goes from the first reading of the clock to the second, and no further step moves it back; if the
later one is, a further step does. -/
theorem forward_of_inOrder_threeUpdates :
  let _ := UnicodeData.ascii
  ∃ s earlier later : Threads, s.waiting.map Record.nodeId = [Str.ofString "a", Str.ofString "a"] ∧
    s.step 90 (.store 0) = some earlier ∧ s.step 90 (.store 1) = some later ∧
    (s.stamps (Str.ofString "a")).shown = some 0 ∧
    (earlier.stamps (Str.ofString "a")).shown = some 1 ∧
    s.nodes.Forward earlier.nodes ∧
    (∀ action s', earlier.step 90 action = some s' → earlier.nodes.Forward s'.nodes) ∧
    ¬ ∀ action s', later.step 90 action = some s' → later.nodes.Forward s'.nodes
  := by
  intro _
  obtain ⟨first, hfirst, hfirstId⟩ := exists_record_plainUpdate 90 0
  obtain ⟨second, hsecond, hsecondId⟩ := exists_record_plainUpdate 90 1
  obtain ⟨third, hthird, hthirdId⟩ := exists_record_plainUpdate 90 2
  have hfirstSeen := (updateRecord_spec hfirst).lastSeenEpoch_eq
  have hsecondSeen := (updateRecord_spec hsecond).lastSeenEpoch_eq
  have hthirdSeen := (updateRecord_spec hthird).lastSeenEpoch_eq
  let stored : Nodes := Dict.empty.set first.nodeId first
  let s : Threads := ⟨stored, 2, [second, third]⟩
  have horder : s.InOrder (.store 0) := by
    rintro i record ⟨⟩ hrecord other hother -
    obtain rfl := Option.some.inj hrecord
    rcases List.mem_cons.mp hother with rfl | hother
    · exact le_rfl
    · rw [List.mem_singleton.mp hother, hsecondSeen, hthirdSeen]
      decide
  have hnotInOrder : ¬ s.InOrder (.store 1) := by
    intro h
    have hle := h 1 third rfl rfl second List.mem_cons_self (hsecondId.trans hthirdId.symm)
    rw [hsecondSeen, hthirdSeen] at hle
    exact absurd hle (by decide)
  have hreach : InOrderReachable 90 s := by
    have hwaits : InOrderReachable 90 ⟨Dict.empty, 0, [first]⟩ :=
      (InOrderReachable.start (start_empty 90 0)).read hfirst
    have hstores : Threads.step 90 ⟨Dict.empty, 0, [first]⟩ (.store 0) = some ⟨stored, 0, []⟩ := rfl
    have hstored := hwaits.step hstores (by
      rintro i record ⟨⟩ hrecord other hother -
      obtain rfl := Option.some.inj hrecord
      rw [List.mem_singleton.mp hother])
    have hwaits := (hstored.tick (by decide : (0 : Time) ≤ 1)).read hsecond
    exact (hwaits.tick (by decide : (1 : Time) ≤ 2)).read hthird
  have hearlier := forward_of_inOrder 90 s hreach (.store 0) _ rfl
  have hlater := forward_of_inOrder 90 s hreach (.store 1) _ rfl
  refine ⟨s, _, _, ?_, rfl, rfl, ?_, ?_, hearlier.1, hearlier.2.mp horder,
    fun hall => hnotInOrder (hlater.2.mpr hall)⟩
  · simp [s, hsecondId, hthirdId]
  · simp [s, stored, Threads.stamps, hfirstId, hfirstSeen]
  · simp [Threads.stamps, hsecondId, hsecondSeen]

/-- It is not the case that leases never go back: the update that is stored last may be the one that
was read first. -/
theorem not_forward_of_step :
  let _ := UnicodeData.ascii
  ¬ ∀ (s s' s'' : Threads) (actions : List Action) (action : Action), s.Start 90 →
    actions.foldlM (Threads.step 90) s = some s' → s'.step 90 action = some s'' →
      s'.nodes.Forward s''.nodes
  := by
  intro _ hall
  obtain ⟨first, hfirst, hfirstId⟩ := exists_record_plainUpdate 90 0
  obtain ⟨second, hsecond, hsecondId⟩ := exists_record_plainUpdate 90 1
  have hfirstSeen := (updateRecord_spec hfirst).lastSeenEpoch_eq
  have hsecondSeen := (updateRecord_spec hsecond).lastSeenEpoch_eq
  have hrun : [Action.read plainUpdate none, .tick 1, .read plainUpdate none, .store 1].foldlM
      (Threads.step 90) (Threads.empty 0)
        = some ⟨(Dict.empty : Nodes).set second.nodeId second, 1, [first]⟩ := by
    simp [Threads.step, Threads.empty, hfirst, hsecond]
  have hstep : Threads.step 90 ⟨(Dict.empty : Nodes).set second.nodeId second, 1, [first]⟩
      (.store 0)
      = some ⟨((Dict.empty : Nodes).set second.nodeId second).set first.nodeId first, 1, []⟩ := rfl
  have hback := hall (Threads.empty 0) _ _ _ (.store 0) (start_empty 90 0) hrun hstep
    (Str.ofString "a") second first (by rw [hsecondId, Dict.get?_set_self])
    (by rw [hfirstId, Dict.get?_set_self])
  rw [hfirstSeen, hsecondSeen] at hback
  exact absurd hback.1 (by decide)

end Tracker
