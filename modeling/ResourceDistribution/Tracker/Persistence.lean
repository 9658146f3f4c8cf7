import ResourceDistribution.Data.Replace
import ResourceDistribution.Tracker.Leases

/-!
# The state file

A registry with a state path keeps its nodes in memory and, after every change, in the state file.
`_save_state` replaces the file by renaming, with the library `ResourceDistribution.Data.Replace`.
A call of a method is here the list of its atomic steps, the changes of the map first and then the
steps of the save, so that it can be interrupted between any two of them, and the save can raise at
any of its own.
-/

open Python

namespace Tracker

/-! ### Order of keys -/

mutual

/-- A value with the items of its dictionaries sorted by key. -/
def sortKeys : Json → Json
  | .list items => .list (sortKeysItems items)
  | .dict items => .dict (Keyed.sortBy (fun i => i.1.codes) (sortKeysFields items))
  | v => v

/-- The items of a list, each with its dictionaries sorted. -/
def sortKeysItems : List Json → List Json
  | [] => []
  | v :: rest => sortKeys v :: sortKeysItems rest

/-- The items of a dictionary in their order, each value with its dictionaries sorted. -/
def sortKeysFields : List (Str × Json) → List (Str × Json)
  | [] => []
  | (k, v) :: rest => (k, sortKeys v) :: sortKeysFields rest

end

/-- A record with its metadata sorted. -/
def Record.sortKeys (record : Record) : Record :=
  { record with
    metadata := Keyed.sortBy (fun i => i.1.codes) (sortKeysFields record.metadata) }

/-- Two maps of nodes are the same up to the order of dictionaries. -/
def Nodes.Same (nodes nodes' : Nodes) : Prop :=
  ∀ k, (nodes.get? k).map Record.sortKeys = (nodes'.get? k).map Record.sortKeys

theorem Nodes.Same.refl (nodes : Nodes) :
  nodes.Same nodes
  := fun _ => rfl

/-- A record that is valid stays so when its metadata is ordered differently. -/
theorem Record.ValidFor.of_sortKeys_eq {k : Str} {r r' : Record} (h : r.sortKeys = r'.sortKeys)
    (hr : r'.ValidFor k) :
  r.ValidFor k
  := by
  obtain ⟨h₁, h₂, h₃, h₄, h₅, h₆, h₇, h₈⟩ := hr
  simp only [Record.sortKeys, Record.mk.injEq] at h
  constructor
  · rw [h.1, h₁]
  · rw [h.1]
    exact h₂
  · rw [h.1]
    exact h₃
  · rw [h.2.1]
    exact h₄
  · rw [h.2.1]
    exact h₅
  · rw [h.2.2.1]
    exact h₆
  · rw [h.2.2.1]
    exact h₇
  · rw [h.2.2.2.2.2.2.2.1]
    exact h₈

theorem Nodes.Same.valid {nodes nodes' : Nodes} (h : nodes.Same nodes') (hnodes : nodes'.Valid) :
  nodes.Valid
  := by
  intro k r hr
  have hk := h k
  rw [hr, Option.map_some] at hk
  obtain ⟨r', hr', hsort⟩ := Option.map_eq_some_iff.mp hk.symm
  apply Record.ValidFor.of_sortKeys_eq hsort.symm (hnodes k r' hr')

/-- Maps that are the same are so after their expired records are removed. -/
theorem Nodes.Same.cleanupExpired {nodes nodes' : Nodes} (h : nodes.Same nodes') (t : Time) :
  Nodes.Same (cleanupExpired nodes t).2 (cleanupExpired nodes' t).2
  := by
  intro k
  have hmap : ∀ x : Option Record,
      (x.filter fun r => decide (t < r.expiresAtEpoch)).map Record.sortKeys
        = (x.map Record.sortKeys).filter fun r => decide (t < r.expiresAtEpoch) := by
    intro x
    cases x with
    | none => rfl
    | some r =>
        by_cases hr : t < r.expiresAtEpoch
        · simp [Option.filter, Record.sortKeys, hr]
        · simp [Option.filter, Record.sortKeys, hr]
  rw [get?_cleanupExpired, get?_cleanupExpired]
  simp only [Lease.live]
  rw [hmap, hmap, h k]

/-! ### The steps of a call -/

/-- How the state file is written and read. `dump` gives the pieces of text that
`json.dump(state, handle, ensure_ascii=False, indent=2, sort_keys=True)` writes for a state with
these nodes, and `load` the nodes that `_load_state` finds in a file, if `json.load` does not raise.
What is read back is what was written, up to the order of dictionaries. -/
class JsonCodec where
  Piece : Type
  dump : Nodes → List Piece
  load : List Piece → Option Nodes
  load_dump : ∀ nodes, ∃ nodes', load (dump nodes) = some nodes' ∧ nodes'.Same nodes

/-- A change of the map in memory. -/
inductive Change where
  | store (record : Record)
  | pop (nodeId : Str)

/-- What a change does. -/
def Change.execute (nodes : Nodes) : Change → Nodes
  | .store record => nodes.set record.nodeId record
  | .pop nodeId => nodes.erase nodeId

/-- The changes that `cleanup_expired` makes. -/
def cleanupChanges (nodes : Nodes) (now : Time) : List Change :=
  (cleanupExpired nodes now).1.map .pop

theorem foldl_cleanupChanges (nodes : Nodes) (now : Time) :
  (cleanupChanges nodes now).foldl Change.execute nodes = (cleanupExpired nodes now).2
  := by
  rw [cleanupChanges, List.foldl_map]
  rfl

section UnicodeData

variable [UnicodeData]

/-- The changes a call makes to the map, in their order. A call that raises makes none. -/
def Operation.changes (nodeTtlSeconds : ℤ) (nodes : Nodes) (now : Time) :
    Operation → List Change
  | .updateNode payload remoteHost =>
      match updateRecord nodeTtlSeconds payload remoteHost now with
      | .ok record => [.store record]
      | .error _ => []
  | .markNodeOffline nodeId =>
      match asNonEmptyString nodeId "node_id" with
      | .ok nodeId => [.pop nodeId]
      | .error _ => []
  | .cleanupExpired | .listFiles => cleanupChanges nodes now
  | .listNodes includeExpired | .buildFileIndex includeExpired =>
      if includeExpired then [] else cleanupChanges nodes now
  | .getNode nodeId =>
      match asNonEmptyString nodeId "node_id" with
      | .ok _ => cleanupChanges nodes now
      | .error _ => []
  | .findFileLocations fileHash fileName =>
      if criterion fileHash = none ∧ criterion fileName = none then []
      else cleanupChanges nodes now

/-- Whether a call saves the state. An update always does, a removal if the node was registered,
any other call if its cleanup has removed something. -/
def Operation.saves (nodeTtlSeconds : ℤ) (nodes : Nodes) (now : Time) (op : Operation) : Bool :=
  match op with
  | .updateNode _ _ => !(op.changes nodeTtlSeconds nodes now).isEmpty
  | .markNodeOffline nodeId =>
      match asNonEmptyString nodeId "node_id" with
      | .ok nodeId => (nodes.get? nodeId).isSome
      | .error _ => false
  | _ => !(op.changes nodeTtlSeconds nodes now).isEmpty

/-- The changes that a lease event is made of. -/
def changesOf (nodes : Nodes) : Lease.Event Str Record Time → List Change
  | .write _ (some record) => [.store record]
  | .write nodeId none => [.pop nodeId]
  | .sweep now => cleanupChanges nodes now

/-- A call makes the changes of its events. -/
theorem changes_eq (nodeTtlSeconds : ℤ) (nodes : Nodes) (now : Time) (op : Operation) :
  op.changes nodeTtlSeconds nodes now
    = (op.events nodeTtlSeconds now).flatMap (changesOf nodes)
  := by
  have hsweep : cleanupChanges nodes now = [Lease.Event.sweep now].flatMap (changesOf nodes) := by
    rw [List.flatMap_singleton]
    rfl
  cases op with
  | updateNode payload remoteHost =>
      cases hr : updateRecord nodeTtlSeconds payload remoteHost now with
      | error e => simp [Operation.changes, Operation.events, hr]
      | ok record => simp [Operation.changes, Operation.events, hr, changesOf]
  | markNodeOffline nodeId =>
      cases hid : asNonEmptyString nodeId "node_id" with
      | error e => simp [Operation.changes, Operation.events, hid]
      | ok id => simp [Operation.changes, Operation.events, hid, changesOf]
  | cleanupExpired => exact hsweep
  | listNodes includeExpired =>
      cases includeExpired with
      | true => rfl
      | false => exact hsweep
  | getNode nodeId =>
      cases hid : asNonEmptyString nodeId "node_id" with
      | error e => simp [Operation.changes, Operation.events, hid]
      | ok id => simp [Operation.changes, Operation.events, hid, changesOf]
  | buildFileIndex includeExpired =>
      cases includeExpired with
      | true => rfl
      | false => exact hsweep
  | listFiles => exact hsweep
  | findFileLocations fileHash fileName =>
      by_cases hc : criterion fileHash = none ∧ criterion fileName = none
      · simp [Operation.changes, Operation.events, hc]
      · simp [Operation.changes, Operation.events, hc, changesOf]

/-- The changes of a call make of the map what the call makes of it. -/
theorem foldl_changes (nodeTtlSeconds : ℤ) (nodes : Nodes) (now : Time) (op : Operation) :
  (op.changes nodeTtlSeconds nodes now).foldl Change.execute nodes
    = op.after nodeTtlSeconds nodes now
  := by
  have hdoes := does nodeTtlSeconds nodes now op
  rw [changes_eq, Operation.after]
  generalize op.run nodeTtlSeconds nodes now = r, op.events nodeTtlSeconds now = events at hdoes ⊢
  cases hdoes with
  | raises => rfl
  | stores => rfl
  | removes => rfl
  | reads => rfl
  | cleansUp =>
      rw [List.flatMap_singleton]
      apply foldl_cleanupChanges

/-- A call that does not save leaves the map as it was. -/
theorem after_eq_self_of_not_saves {nodeTtlSeconds : ℤ} {nodes : Nodes} {now : Time}
    {op : Operation} (h : op.saves nodeTtlSeconds nodes now = false) :
  op.after nodeTtlSeconds nodes now = nodes
  := by
  rw [← foldl_changes]
  cases op with
  | markNodeOffline nodeId =>
      cases hid : asNonEmptyString nodeId "node_id" with
      | error e => simp [Operation.changes, hid]
      | ok id =>
          simp only [Operation.saves, hid] at h
          simp only [Operation.changes, hid, List.foldl_cons, List.foldl_nil, Change.execute]
          apply Dict.erase_of_not_mem
          rw [← Dict.isSome_get?_iff, h]
          simp
  | _ =>
      simp only [Operation.saves, Bool.not_eq_false', List.isEmpty_iff] at h
      rw [h]
      rfl

/-- A call that raises does not save. -/
theorem not_saves_of_run_eq_error {nodeTtlSeconds : ℤ} {nodes : Nodes} {now : Time}
    {op : Operation} {e : Exc} (h : op.run nodeTtlSeconds nodes now = .error e) :
  op.saves nodeTtlSeconds nodes now = false
  := by
  have hevents : op.events nodeTtlSeconds now = [] := by
    have hdoes := does nodeTtlSeconds nodes now op
    rw [h] at hdoes
    generalize op.events nodeTtlSeconds now = events at hdoes ⊢
    cases hdoes with
    | raises => rfl
  cases op with
  | markNodeOffline nodeId =>
      cases hid : asNonEmptyString nodeId "node_id" with
      | error e => simp [Operation.saves, hid]
      | ok id => simp [Operation.events, hid] at hevents
  | _ => simp [Operation.saves, changes_eq, hevents]

end UnicodeData

section JsonCodec

variable [JsonCodec]

/-! ### Worlds -/

/-- A registry with a state path, and the file at that path with the temporary file beside it. -/
structure World where
  nodeTtlSeconds : ℤ
  nodes : Nodes
  files : Replace.Files JsonCodec.Piece

/-- A new registry where there is no state file. -/
def World.start (nodeTtlSeconds : ℤ) : World := ⟨nodeTtlSeconds, Dict.empty, ⟨none, none⟩⟩

/-- An atomic step of a call. -/
inductive Step where
  | change (c : Change)
  | save (s : Replace.Step JsonCodec.Piece)

/-- What a step does. -/
def Step.execute (w : World) : Step → World
  | .change c => { w with nodes := c.execute w.nodes }
  | .save s => { w with files := s.execute w.files }

theorem foldl_change (w : World) (l : List Change) :
  (l.map Step.change).foldl Step.execute w = { w with nodes := l.foldl Change.execute w.nodes }
  := by
  induction l generalizing w with
  | nil => rfl
  | cons c l ih =>
      rw [List.map_cons, List.foldl_cons, ih]
      rfl

theorem foldl_save (w : World) (l : List (Replace.Step JsonCodec.Piece)) :
  (l.map Step.save).foldl Step.execute w
    = { w with files := l.foldl Replace.Step.execute w.files }
  := by
  induction l generalizing w with
  | nil => rfl
  | cons c l ih =>
      rw [List.map_cons, List.foldl_cons, ih]
      rfl

/-- A step of `_save_state` that raises: its number, the exception, and what it leaves of the
temporary file. -/
structure Fault where
  step : Nat
  exc : Exc
  temp : Option (List JsonCodec.Piece)

/-- The nodes that `_load_state` reads. Reading a file that is not JSON raises. -/
def World.stored (w : World) : Option Nodes :=
  match w.files.target with
  | none => some Dict.empty
  | some pieces => JsonCodec.load pieces

/-- The registry of a new process, before it cleans up. -/
def World.reload (w : World) (nodeTtlSeconds : ℤ) : Option World :=
  w.stored.map fun nodes => ⟨nodeTtlSeconds, nodes, w.files⟩

/-- What is read from a file depends on the file alone. -/
theorem stored_congr {w w' : World} (h : w'.files.target = w.files.target) :
  w'.stored = w.stored
  := by
  rw [World.stored, World.stored, h]

/-- A file that was just dumped is read back. -/
theorem stored_of_target_eq_dump {w : World} {nodes : Nodes}
    (h : w.files.target = some (JsonCodec.dump nodes)) :
  ∃ nodes', w.stored = some nodes' ∧ nodes'.Same nodes
  := by
  rw [World.stored, h]
  apply JsonCodec.load_dump

/-- The file holds the map in memory. -/
def World.Synced (w : World) : Prop := ∃ nodes, w.stored = some nodes ∧ nodes.Same w.nodes

theorem synced_start (nodeTtlSeconds : ℤ) :
  (World.start nodeTtlSeconds).Synced
  := ⟨Dict.empty, rfl, Nodes.Same.refl _⟩

/-- The map in memory and the map in the file satisfy `P`. -/
def World.Holds (P : Nodes → Prop) (w : World) : Prop :=
  P w.nodes ∧ ∃ nodes, w.stored = some nodes ∧ P nodes

/-- The map in memory and the map in the file satisfy the invariant. -/
def World.Valid (w : World) : Prop :=
  w.nodes.Valid ∧ ∃ nodes, w.stored = some nodes ∧ nodes.Valid

/-- A file that is as before, or holds a map that satisfies `P`, has a map that does. -/
theorem World.Holds.stored {P : Nodes → Prop} (hP : ∀ nodes nodes', nodes.Same nodes' → P nodes' →
    P nodes) {w w' : World} {nodes : Nodes} (h : w.Holds P) (hnodes : P nodes)
    (htarget : w'.files.target = w.files.target ∨
      w'.files.target = some (JsonCodec.dump nodes)) :
  ∃ nodes', w'.stored = some nodes' ∧ P nodes'
  := by
  rcases htarget with htarget | htarget
  · rw [stored_congr htarget]
    exact h.2
  · obtain ⟨nodes', hstored, hsame⟩ := stored_of_target_eq_dump htarget
    exact ⟨nodes', hstored, hP nodes' nodes hsame hnodes⟩

section UnicodeData

variable [UnicodeData]

/-- The map after a call. -/
def World.after (w : World) (op : Operation) (now : Time) : Nodes :=
  op.after w.nodeTtlSeconds w.nodes now

/-- The steps of the save of a call, if it saves. -/
def World.saveSteps (w : World) (op : Operation) (now : Time) :
    List (Replace.Step JsonCodec.Piece) :=
  if op.saves w.nodeTtlSeconds w.nodes now then Replace.steps (JsonCodec.dump (w.after op now))
  else []

/-- The steps of a call. -/
def World.steps (w : World) (op : Operation) (now : Time) : List Step :=
  (op.changes w.nodeTtlSeconds w.nodes now).map .change ++ (w.saveSteps op now).map .save

/-- The world after a call that completes. -/
def World.call (w : World) (op : Operation) (now : Time) : World :=
  (w.steps op now).foldl Step.execute w

/-- A call whose save raises at the step that `fault` names, if it has that step. -/
def World.attempt (w : World) (op : Operation) (now : Time) (fault : Option Fault) :
    Except Exc Unit × World :=
  match op.run w.nodeTtlSeconds w.nodes now with
  | .error e => (.error e, w)
  | .ok nodes =>
      match fault with
      | none => (.ok (), w.call op now)
      | some fault =>
          if fault.step < (w.saveSteps op now).length then
            let files := ((w.saveSteps op now).take fault.step).foldl Replace.Step.execute w.files
            (.error fault.exc, { w with nodes := nodes, files := ⟨files.target, fault.temp⟩ })
          else (.ok (), w.call op now)

/-- The process ends after some steps of a call. -/
def World.interrupt (w : World) (op : Operation) (now : Time) (done : Nat) : World :=
  ((w.steps op now).take done).foldl Step.execute w

/-- A new process constructs a registry at `t`. -/
def World.restart (w : World) (nodeTtlSeconds : ℤ) (t : Time) : Option World :=
  (w.reload nodeTtlSeconds).map fun w => w.call .cleanupExpired t

/-- Something that happens to a world: a call, or the end of the process in the middle of a call
and a new process that reads the state file. The construction of a registry at `t` is the second
with a call of `cleanup_expired` at `t` after it. -/
inductive Event where
  | call (op : Operation) (now : Time) (fault : Option Fault)
  | crash (op : Operation) (now : Time) (done : Nat) (nodeTtlSeconds : ℤ)

/-- The world after an event. -/
def World.happen (w : World) : Event → Option World
  | .call op now fault => some (w.attempt op now fault).2
  | .crash op now done nodeTtlSeconds => (w.interrupt op now done).reload nodeTtlSeconds

/-- The world after some events. -/
def World.run (w : World) (events : List Event) : Option World := events.foldlM World.happen w

/-- No save raises. -/
def Event.Faultless : Event → Prop
  | .call _ _ fault => fault.isNone
  | .crash _ _ _ _ => True

/-! ### What is in the file -/

theorem call_eq (w : World) (op : Operation) (now : Time) :
  w.call op now
    = { w with
        nodes := w.after op now
        files := (w.saveSteps op now).foldl Replace.Step.execute w.files }
  := by
  rw [World.call, World.steps, List.foldl_append, foldl_change, foldl_save, foldl_changes]
  rfl

/-- A call that raises nothing in its save is complete. -/
theorem attempt_none (w : World) (op : Operation) (now : Time) :
  (w.attempt op now none).2 = w.call op now
  := by
  cases h : op.run w.nodeTtlSeconds w.nodes now with
  | ok nodes => simp [World.attempt, h]
  | error e =>
      have hsaves := not_saves_of_run_eq_error h
      have hafter : w.after op now = w.nodes := by simp [World.after, Operation.after, h]
      simp [World.attempt, h, call_eq, World.saveSteps, hsaves, hafter]

/-- However many steps of a call have happened, the file is as before the call, or holds the map
after it. -/
theorem target_interrupt (w : World) (op : Operation) (now : Time) (done : Nat) :
  (w.interrupt op now done).files.target = w.files.target ∨
    (op.saves w.nodeTtlSeconds w.nodes now = true ∧
      (w.interrupt op now done).files.target = some (JsonCodec.dump (w.after op now)))
  := by
  rw [World.interrupt, World.steps, List.take_append, List.foldl_append, ← List.map_take,
    ← List.map_take, foldl_change, foldl_save, World.saveSteps]
  split
  · rename_i hsaves
    rcases Replace.target_take w.files (JsonCodec.dump (w.after op now))
        (done - ((op.changes w.nodeTtlSeconds w.nodes now).map Step.change).length) with h | h
    · left
      exact h
    · right
      exact ⟨hsaves, h⟩
  · left
    rw [List.take_nil]
    rfl

/-- A call changes the map in memory before it saves, whether the save raises or not. -/
theorem nodes_attempt (w : World) (op : Operation) (now : Time) (fault : Option Fault) :
  (w.attempt op now fault).2.nodes = w.after op now
  := by
  cases hrun : op.run w.nodeTtlSeconds w.nodes now with
  | error e => simp [World.attempt, World.after, Operation.after, hrun]
  | ok nodes =>
      have hafter : w.after op now = nodes := by simp [World.after, Operation.after, hrun]
      cases fault with
      | none => simp [World.attempt, hrun, call_eq]
      | some fault =>
          simp only [World.attempt, hrun]
          split
          · rw [hafter]
          · rw [call_eq]

/-- A call that raises leaves the file as it was. -/
theorem target_attempt_of_error {w w' : World} {op : Operation} {now : Time}
    {fault : Option Fault} {e : Exc} (h : w.attempt op now fault = (.error e, w')) :
  w'.files.target = w.files.target
  := by
  cases hrun : op.run w.nodeTtlSeconds w.nodes now with
  | error e' =>
      simp only [World.attempt, hrun, Prod.mk.injEq] at h
      rw [h.2]
  | ok nodes =>
      cases fault with
      | none => simp [World.attempt, hrun] at h
      | some fault =>
          simp only [World.attempt, hrun] at h
          split at h
          · rename_i hstep
            simp only [Prod.mk.injEq] at h
            rw [← h.2]
            rw [World.saveSteps] at hstep ⊢
            split at hstep
            · rename_i hsaves
              rw [if_pos hsaves]
              apply Replace.target_take_of_lt hstep
            · simp at hstep
          · simp at h

/-- A call that returns is complete. -/
theorem attempt_of_ok {w w' : World} {op : Operation} {now : Time} {fault : Option Fault}
    (h : w.attempt op now fault = (.ok (), w')) :
  w' = w.call op now
  := by
  cases hrun : op.run w.nodeTtlSeconds w.nodes now with
  | error e' => simp [World.attempt, hrun] at h
  | ok nodes =>
      cases fault with
      | none => simpa [World.attempt, hrun, eq_comm] using h
      | some fault =>
          simp only [World.attempt, hrun] at h
          split at h
          · simp at h
          · simpa [eq_comm] using h

/-! ### What a new process finds -/

theorem target_call (w : World) (op : Operation) (now : Time) :
  (w.call op now).files.target
    = if op.saves w.nodeTtlSeconds w.nodes now then some (JsonCodec.dump (w.after op now))
      else w.files.target
  := by
  rw [call_eq, World.saveSteps]
  split
  · rw [Replace.foldl_steps]
  · rfl

/-- A call that completes leaves its map in the file. -/
theorem World.Synced.call {w : World} (h : w.Synced) (op : Operation) (now : Time) :
  (w.call op now).Synced
  := by
  have hnodes : (w.call op now).nodes = w.after op now := by rw [call_eq]
  have htarget := target_call w op now
  rw [World.Synced, hnodes]
  cases hsaves : op.saves w.nodeTtlSeconds w.nodes now with
  | true =>
      rw [hsaves, if_pos rfl] at htarget
      apply stored_of_target_eq_dump htarget
  | false =>
      rw [hsaves, if_neg (by simp)] at htarget
      rw [stored_congr htarget, World.after, after_eq_self_of_not_saves hsaves]
      exact h

/-- In the middle of a call, the file holds the map before the call or the map after it. -/
theorem World.Synced.interrupt {w : World} (h : w.Synced) (op : Operation) (now : Time)
    (done : Nat) :
  ∃ nodes, (w.interrupt op now done).stored = some nodes ∧
    (nodes.Same w.nodes ∨ nodes.Same (w.after op now))
  := by
  rcases target_interrupt w op now done with htarget | ⟨-, htarget⟩
  · obtain ⟨nodes, hnodes, hsame⟩ := h
    use nodes
    rw [stored_congr htarget]
    exact ⟨hnodes, Or.inl hsame⟩
  · obtain ⟨nodes, hnodes, hsame⟩ := stored_of_target_eq_dump htarget
    exact ⟨nodes, hnodes, Or.inr hsame⟩

/-- If every event of a run keeps a property, the run ends and the property holds there. -/
theorem exists_run {P : World → Prop} {Q : Event → Prop}
    (hstep : ∀ w event, P w → Q event → ∃ w', w.happen event = some w' ∧ P w') {w : World}
    (hw : P w) {events : List Event} (hevents : ∀ event ∈ events, Q event) :
  ∃ w', w.run events = some w' ∧ P w'
  := by
  induction events generalizing w with
  | nil => exact ⟨w, rfl, hw⟩
  | cons event events ih =>
      obtain ⟨w₁, hw₁, h₁⟩ := hstep w event hw (hevents event List.mem_cons_self)
      obtain ⟨w', hw', h'⟩ := ih h₁ fun e he => hevents e (List.mem_cons_of_mem _ he)
      use w'
      rw [World.run, List.foldlM_cons, hw₁]
      exact ⟨hw', h'⟩

/-- One event without a failing save keeps the file in step with the map. -/
theorem World.Synced.happen {w : World} (h : w.Synced) {event : Event} (hevent : event.Faultless) :
  ∃ w', w.happen event = some w' ∧ w'.Synced
  := by
  cases event with
  | call op now fault =>
      simp only [Event.Faultless, Option.isNone_iff_eq_none] at hevent
      subst hevent
      use w.call op now
      rw [World.happen, attempt_none]
      exact ⟨rfl, h.call op now⟩
  | crash op now done nodeTtlSeconds =>
      obtain ⟨nodes, hnodes, -⟩ := h.interrupt op now done
      use ⟨nodeTtlSeconds, nodes, (w.interrupt op now done).files⟩
      constructor
      · simp only [World.happen, World.reload, hnodes, Option.map_some]
      · exact ⟨nodes, hnodes, Nodes.Same.refl nodes⟩

/-- `nodes'` has exactly the records of `nodes` that run at `t`, up to the order of
dictionaries. -/
def Recovers (nodes' : Nodes) (t : Time) (nodes : Nodes) : Prop :=
  ∀ k, (nodes'.get? k).map Record.sortKeys
    = (Lease.live Record.expiresAtEpoch t nodes.get? k).map Record.sortKeys

/-- A new registry at `t` has the records that run at `t` of the map in the file. -/
theorem restart_of_stored {w : World} {nodes nodes₀ : Nodes} (h : w.stored = some nodes)
    (hsame : nodes.Same nodes₀) (nodeTtlSeconds : ℤ) (t : Time) :
  ∃ w', w.restart nodeTtlSeconds t = some w' ∧ Recovers w'.nodes t nodes₀
  := by
  use (World.mk nodeTtlSeconds nodes w.files).call .cleanupExpired t
  constructor
  · simp only [World.restart, World.reload, h, Option.map_some]
  · have hclean := hsame.cleanupExpired t
    intro k
    rw [call_eq, ← get?_cleanupExpired, ← hclean k]
    rfl

/-- In whatever run without failing saves, and in the middle of whatever call the process ends, a
new registry has the records that run of the map before the call or of the map after it, and of
the map after it if the call was complete. -/
theorem restart_recovers (nodeTtlSeconds : ℤ) (events : List Event)
    (hevents : ∀ event ∈ events, event.Faultless) :
  ∃ w, (World.start nodeTtlSeconds).run events = some w ∧
    ∀ op now done nodeTtlSeconds' t,
      ∃ w', (w.interrupt op now done).restart nodeTtlSeconds' t = some w' ∧
        (Recovers w'.nodes t w.nodes ∨ Recovers w'.nodes t (w.after op now)) ∧
        ((w.steps op now).length ≤ done → Recovers w'.nodes t (w.after op now))
  := by
  obtain ⟨w, hw, hsynced⟩ :=
    exists_run (fun _ _ h hevent => h.happen hevent) (synced_start nodeTtlSeconds) hevents
  use w, hw
  intro op now done nodeTtlSeconds' t
  by_cases hdone : (w.steps op now).length ≤ done
  · have hcall : w.interrupt op now done = w.call op now := by
      rw [World.interrupt, List.take_of_length_le hdone]
      rfl
    obtain ⟨nodes, hnodes, hsame⟩ := hsynced.call op now
    have hafter : (w.call op now).nodes = w.after op now := by rw [call_eq]
    rw [hafter] at hsame
    obtain ⟨w', hw', hrecovers⟩ := restart_of_stored hnodes hsame nodeTtlSeconds' t
    rw [hcall]
    exact ⟨w', hw', Or.inr hrecovers, fun _ => hrecovers⟩
  · obtain ⟨nodes, hnodes, hsame⟩ := hsynced.interrupt op now done
    rcases hsame with hsame | hsame
    · obtain ⟨w', hw', hrecovers⟩ := restart_of_stored hnodes hsame nodeTtlSeconds' t
      exact ⟨w', hw', Or.inl hrecovers, fun h => absurd h hdone⟩
    · obtain ⟨w', hw', hrecovers⟩ := restart_of_stored hnodes hsame nodeTtlSeconds' t
      exact ⟨w', hw', Or.inr hrecovers, fun h => absurd h hdone⟩

/-! ### The invariant, in memory and in the file -/

/-- The call of an event. -/
def Event.operation : Event → Operation
  | .call op _ _ => op
  | .crash op _ _ _ => op

/-- Every event, failing saves included, keeps a property that its call keeps and that does not
depend on the order of dictionaries. -/
theorem World.Holds.happen {P : Nodes → Prop}
    (hP : ∀ nodes nodes', nodes.Same nodes' → P nodes' → P nodes) {w : World} (h : w.Holds P)
    (event : Event)
    (hafter : ∀ nodeTtlSeconds nodes now, P nodes →
      P (event.operation.after nodeTtlSeconds nodes now)) :
  ∃ w', w.happen event = some w' ∧ w'.Holds P
  := by
  cases event with
  | call op now fault =>
      have hop : P (w.after op now) := hafter w.nodeTtlSeconds w.nodes now h.1
      use (w.attempt op now fault).2, rfl
      constructor
      · rw [nodes_attempt]
        exact hop
      · apply h.stored hP hop
        rcases hattempt : w.attempt op now fault with ⟨result, w'⟩
        cases result with
        | error e =>
            left
            apply target_attempt_of_error hattempt
        | ok _ =>
            rw [attempt_of_ok hattempt, target_call]
            split
            · right
              rfl
            · left
              rfl
  | crash op now done nodeTtlSeconds =>
      have hop : P (w.after op now) := hafter w.nodeTtlSeconds w.nodes now h.1
      obtain ⟨nodes, hstored, hnodes⟩ := h.stored hP hop
        ((target_interrupt w op now done).imp_right And.right)
      use ⟨nodeTtlSeconds, nodes, (w.interrupt op now done).files⟩
      constructor
      · simp only [World.happen, World.reload, hstored, Option.map_some]
      · exact ⟨hnodes, nodes, hstored, hnodes⟩

/-- Whatever happens, a run ends, and keeps a property that its calls keep and that does not depend
on the order of dictionaries. -/
theorem exists_run_holds {P : Nodes → Prop} (hempty : P Dict.empty)
    (hP : ∀ nodes nodes', nodes.Same nodes' → P nodes' → P nodes) (nodeTtlSeconds : ℤ)
    {events : List Event}
    (hafter : ∀ event ∈ events, ∀ nodeTtlSeconds nodes now, P nodes →
      P (event.operation.after nodeTtlSeconds nodes now)) :
  ∃ w, (World.start nodeTtlSeconds).run events = some w ∧ w.Holds P
  := exists_run (fun _ event h hevent => h.happen hP event hevent)
    ⟨hempty, Dict.empty, rfl, hempty⟩ hafter

/-- Whatever happens, the map in memory is valid. -/
theorem exists_run_valid (nodeTtlSeconds : ℤ) (events : List Event) :
  ∃ w, (World.start nodeTtlSeconds).run events = some w ∧ w.Valid
  := exists_run_holds Nodes.valid_empty (fun _ _ hsame hnodes => hsame.valid hnodes) nodeTtlSeconds
    fun event _ nodeTtlSeconds _ now hnodes => hnodes.after nodeTtlSeconds now event.operation

/-- In every state that calls, failing saves, ends of the process and new processes lead to, every
record is valid for the id it is stored under. So it is in a registry without state path. -/
theorem nodes_valid (nodeTtlSeconds : ℤ) :
  (∀ events : List Event, ∃ w, (World.start nodeTtlSeconds).run events = some w ∧
    w.nodes.Valid) ∧
  ∀ history, (runAll nodeTtlSeconds history).Valid
  := by
  constructor
  · intro events
    obtain ⟨w, hw, hvalid⟩ := exists_run_valid nodeTtlSeconds events
    exact ⟨w, hw, hvalid.1⟩
  · apply valid_runAll

/-! ### Calls that raise -/

/-- A call that raises leaves the file as it was. If the exception is raised before the save, the
map in memory is as it was too; if the save raises, the map is the one after the call. -/
theorem attempt_error (w w' : World) (op : Operation) (now : Time) (fault : Option Fault) (e : Exc)
    (h : w.attempt op now fault = (.error e, w')) :
  w'.files.target = w.files.target ∧
  ((∃ e', op.run w.nodeTtlSeconds w.nodes now = .error e') → w'.nodes = w.nodes) ∧
  (∀ nodes, op.run w.nodeTtlSeconds w.nodes now = .ok nodes → w'.nodes = nodes)
  := by
  have hnodes : w'.nodes = w.after op now := by rw [← nodes_attempt w op now fault, h]
  use target_attempt_of_error h
  constructor
  · rintro ⟨e', hrun⟩
    rw [hnodes, World.after, Operation.after, hrun]
  · intro nodes hrun
    rw [hnodes, World.after, Operation.after, hrun]

end UnicodeData

end JsonCodec

/-! ### A codec -/

/-- The codec whose only piece of text is the map itself. -/
@[reducible]
def JsonCodec.whole : JsonCodec where
  Piece := Nodes
  dump nodes := [nodes]
  load pieces := pieces.head?
  load_dump nodes := ⟨nodes, rfl, Nodes.Same.refl nodes⟩

/-- The first update of a registry, after which the process ends at any point. -/
theorem restart_recovers_oneUpdate :
  let _ := UnicodeData.ascii
  let _ := JsonCodec.whole
  ∃ w, (World.start 90).run [.call updateOfNodeA 0 none] = some w ∧
    ∀ op now done nodeTtlSeconds' t,
      ∃ w', (w.interrupt op now done).restart nodeTtlSeconds' t = some w' ∧
        (Recovers w'.nodes t w.nodes ∨ Recovers w'.nodes t (w.after op now)) ∧
        ((w.steps op now).length ≤ done → Recovers w'.nodes t (w.after op now))
  := by
  intro _ _
  apply restart_recovers 90 [.call updateOfNodeA 0 none]
  simp [Event.Faultless]

/-- The first step of the save of the first update raises. -/
theorem attempt_error_oneUpdate :
  let _ := UnicodeData.ascii
  let _ := JsonCodec.whole
  let w' := ((World.start 90).attempt updateOfNodeA 0 (some ⟨0, .osError, none⟩)).2
  w'.files.target = none ∧ (w'.nodes.get? (Str.ofString "node-a")).isSome
  := by
  intro _ _ w'
  have h : (World.start 90).attempt updateOfNodeA 0 (some ⟨0, .osError, none⟩)
      = (.error .osError, w') := by
    apply Prod.ext
    · decide
    · rfl
  obtain ⟨htarget, -, hnodes⟩ :=
    attempt_error (World.start 90) w' updateOfNodeA 0 (some ⟨0, .osError, none⟩) .osError h
  use htarget
  decide

/-- It is not the case that every call that raises, in every state reached, leaves map and file
as they were: the save of the first update raises when the node is already in the map. -/
theorem not_attempt_error_unchanged :
  let _ := UnicodeData.ascii
  let _ := JsonCodec.whole
  ¬ ∀ (events : List Event) (w w' : World) (op : Operation) (now : Time) (fault : Option Fault)
      (e : Exc), (World.start 90).run events = some w → w.attempt op now fault = (.error e, w') →
      w'.nodes = w.nodes ∧ w'.files.target = w.files.target
  := by
  intro _ _ hall
  let w' := ((World.start 90).attempt updateOfNodeA 0 (some ⟨0, .osError, none⟩)).2
  have hattempt : (World.start 90).attempt updateOfNodeA 0 (some ⟨0, .osError, none⟩)
      = (.error .osError, w') := by
    apply Prod.ext
    · decide
    · rfl
  have hnodes := (hall [] (World.start 90) w' updateOfNodeA 0 (some ⟨0, .osError, none⟩) .osError
    rfl hattempt).1
  have hsome : (w'.nodes.get? (Str.ofString "node-a")).isSome := by decide
  rw [hnodes] at hsome
  simp [World.start] at hsome

end Tracker
