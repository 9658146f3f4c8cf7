import ResourceDistribution.Data.Lease
import ResourceDistribution.Tracker.Index

/-!
# Operations and the invariant of the registry

`Operation` is a call of one of the registry's methods, and `Operation.run` what it makes of the
map of nodes. Seen as a store, the map undergoes the lease events `Operation.events`: an accepted
update writes a record, an accepted removal erases one, and every other method, unless it is asked
to include expired nodes, sweeps. All an operation can do is said once (`does`); what it
does to the map (`get?_after`) and the invariant `Nodes.Valid` of the map (`Nodes.Valid.after`)
follow, as does the refinement in `ResourceDistribution.Tracker.Leases`.
-/

open Python Fallible

namespace Tracker

/-- A call of a method of the registry. -/
inductive Operation where
  | updateNode (payload : Json) (remoteHost : Option Str)
  | markNodeOffline (nodeId : Json)
  | cleanupExpired
  | listNodes (includeExpired : Bool)
  | getNode (nodeId : Json)
  | buildFileIndex (includeExpired : Bool)
  | listFiles
  | findFileLocations (fileHash fileName : Option Str)

/-- What a map of nodes has under each id after some events. -/
def execute (events : List (Lease.Event Str Record Time)) (nodes : Nodes) :
    Str → Option Record :=
  events.foldl (Lease.Event.execute Record.expiresAtEpoch) nodes.get?

theorem get?_set_eq_execute (nodes : Nodes) (record : Record) :
  (nodes.set record.nodeId record).get? = execute [.write record.nodeId (some record)] nodes
  := by
  funext k
  rw [Dict.get?_set]
  simp [execute, Lease.Event.execute, Function.update_apply]

theorem get?_erase_eq_execute (nodes : Nodes) (nodeId : Str) :
  (nodes.erase nodeId).get? = execute [.write nodeId none] nodes
  := by
  funext k
  rw [Dict.get?_erase]
  simp [execute, Lease.Event.execute, Function.update_apply]

theorem get?_cleanupExpired_eq_execute (nodes : Nodes) (now : Time) :
  (cleanupExpired nodes now).2.get? = execute [.sweep now] nodes
  := by
  funext k
  rw [cleanupExpired_nodes, Dict.get?_filter]
  simp only [execute, List.foldl_cons, List.foldl_nil, Lease.Event.execute, Lease.live,
    Record.expired, ← decide_not, not_le]

section UnicodeData

variable [UnicodeData]

/-- The map of nodes after a call at `now` that returns, or the exception the call raises. -/
def Operation.run (nodeTtlSeconds : ℤ) (nodes : Nodes) (now : Time) :
    Operation → Except Exc Nodes
  | .updateNode payload remoteHost =>
      Prod.snd <$> Tracker.updateNode nodeTtlSeconds nodes payload remoteHost now
  | .markNodeOffline nodeId => Prod.snd <$> Tracker.markNodeOffline nodes nodeId
  | .cleanupExpired => .ok (Tracker.cleanupExpired nodes now).2
  | .listNodes includeExpired => .ok (Tracker.listNodes nodes now includeExpired).2
  | .getNode nodeId => Prod.snd <$> Tracker.getNode nodes nodeId now
  | .buildFileIndex includeExpired => .ok (Tracker.buildFileIndex nodes now includeExpired).2
  | .listFiles => .ok (Tracker.listFiles nodes now).2
  | .findFileLocations fileHash fileName =>
      Prod.snd <$> Tracker.findFileLocations nodes fileHash fileName now

/-- The lease events of a call. A call that raises has none. -/
def Operation.events (nodeTtlSeconds : ℤ) (now : Time) :
    Operation → List (Lease.Event Str Record Time)
  | .updateNode payload remoteHost =>
      match updateRecord nodeTtlSeconds payload remoteHost now with
      | .ok record => [.write record.nodeId (some record)]
      | .error _ => []
  | .markNodeOffline nodeId =>
      match asNonEmptyString nodeId "node_id" with
      | .ok nodeId => [.write nodeId none]
      | .error _ => []
  | .cleanupExpired | .listFiles => [.sweep now]
  | .listNodes includeExpired | .buildFileIndex includeExpired =>
      if includeExpired then [] else [.sweep now]
  | .getNode nodeId =>
      match asNonEmptyString nodeId "node_id" with
      | .ok _ => [.sweep now]
      | .error _ => []
  | .findFileLocations fileHash fileName =>
      if criterion fileHash = none ∧ criterion fileName = none then [] else [.sweep now]

/-- The map of nodes after a call at `now`. A call that raises leaves it as it was. -/
def Operation.after (nodeTtlSeconds : ℤ) (nodes : Nodes) (now : Time) (op : Operation) : Nodes :=
  match op.run nodeTtlSeconds nodes now with
  | .ok nodes => nodes
  | .error _ => nodes

/-- All that a call can do: the map it returns or the exception it raises, with its events. -/
inductive Does (nodeTtlSeconds : ℤ) (nodes : Nodes) (now : Time) :
    Operation → Except Exc Nodes → List (Lease.Event Str Record Time) → Prop where
  | raises (op : Operation) (e : Exc) : Does nodeTtlSeconds nodes now op (.error e) []
  | stores {payload : Json} {remoteHost : Option Str} {record : Record}
      (hrecord : updateRecord nodeTtlSeconds payload remoteHost now = .ok record) :
      Does nodeTtlSeconds nodes now (.updateNode payload remoteHost)
        (.ok (nodes.set record.nodeId record)) [.write record.nodeId (some record)]
  | removes {nodeId : Json} {id : Str} (hid : asNonEmptyString nodeId "node_id" = .ok id) :
      Does nodeTtlSeconds nodes now (.markNodeOffline nodeId) (.ok (nodes.erase id))
        [.write id none]
  | reads (op : Operation) : Does nodeTtlSeconds nodes now op (.ok nodes) []
  | cleansUp (op : Operation) :
      Does nodeTtlSeconds nodes now op (.ok (cleanupExpired nodes now).2) [.sweep now]

/-- A call does one of these things. -/
theorem does (nodeTtlSeconds : ℤ) (nodes : Nodes) (now : Time) (op : Operation) :
  Does nodeTtlSeconds nodes now op (op.run nodeTtlSeconds nodes now) (op.events nodeTtlSeconds now)
  := by
  cases op with
  | updateNode payload remoteHost =>
      cases hrecord : updateRecord nodeTtlSeconds payload remoteHost now with
      | error e =>
          simp only [Operation.run, updateNode, Operation.events, hrecord, bind, Except.bind,
            Functor.map, Except.map]
          apply Does.raises
      | ok record =>
          simp only [Operation.run, updateNode, Operation.events, hrecord, bind, Except.bind,
            Functor.map, Except.map, pure, Except.pure]
          apply Does.stores hrecord
  | markNodeOffline nodeId =>
      cases hid : asNonEmptyString nodeId "node_id" with
      | error e =>
          simp only [Operation.run, markNodeOffline, Operation.events, hid, bind, Except.bind,
            Functor.map, Except.map]
          apply Does.raises
      | ok id =>
          simp only [Operation.run, markNodeOffline, Operation.events, hid, bind, Except.bind,
            Functor.map, Except.map, pure, Except.pure]
          apply Does.removes hid
  | cleanupExpired => apply Does.cleansUp
  | listNodes includeExpired =>
      cases includeExpired with
      | true => apply Does.reads
      | false => apply Does.cleansUp
  | getNode nodeId =>
      cases hid : asNonEmptyString nodeId "node_id" with
      | error e =>
          simp only [Operation.run, getNode, Operation.events, hid, bind, Except.bind, Functor.map,
            Except.map]
          apply Does.raises
      | ok id =>
          simp only [Operation.run, getNode, Operation.events, hid, bind, Except.bind, Functor.map,
            Except.map, pure, Except.pure]
          apply Does.cleansUp
  | buildFileIndex includeExpired =>
      cases includeExpired with
      | true => apply Does.reads
      | false => apply Does.cleansUp
  | listFiles => apply Does.cleansUp
  | findFileLocations fileHash fileName =>
      by_cases hc : criterion fileHash = none ∧ criterion fileName = none
      · simp only [Operation.run, findFileLocations, Operation.events, if_pos hc, invalid,
          Functor.map, Except.map]
        apply Does.raises
      · simp only [Operation.run, findFileLocations, Operation.events, if_neg hc, Functor.map,
          Except.map]
        apply Does.cleansUp

/-- A call does to the map of nodes what its events do. -/
theorem get?_after (nodeTtlSeconds : ℤ) (nodes : Nodes) (now : Time) (op : Operation) :
  (op.after nodeTtlSeconds nodes now).get? = execute (op.events nodeTtlSeconds now) nodes
  := by
  have hdoes := does nodeTtlSeconds nodes now op
  rw [Operation.after]
  generalize op.run nodeTtlSeconds nodes now = r, op.events nodeTtlSeconds now = events at hdoes ⊢
  cases hdoes with
  | raises => rfl
  | stores => apply get?_set_eq_execute
  | removes => apply get?_erase_eq_execute
  | reads => rfl
  | cleansUp => apply get?_cleanupExpired_eq_execute

/-- The sweeps of a call happen at the time of the call. -/
theorem sweep_mem_events {nodeTtlSeconds : ℤ} {now s : Time} {op : Operation}
    (h : Lease.Event.sweep s ∈ op.events nodeTtlSeconds now) :
  s = now
  := by
  have hdoes := does nodeTtlSeconds Dict.empty now op
  generalize op.run nodeTtlSeconds Dict.empty now = r at hdoes
  generalize op.events nodeTtlSeconds now = events at hdoes h
  cases hdoes with
  | cleansUp => simpa using h
  | _ => simp at h

end UnicodeData

/-! ### The invariant -/

/-- A record stored under `k` is the record of `k`, and everything in it is normalised. -/
structure Record.ValidFor (k : Str) (r : Record) : Prop where
  nodeId_eq : r.nodeId = k
  nodeId_ne_nil : r.nodeId ≠ []
  nodeId_trimmed : r.nodeId.Trimmed
  host_ne_nil : r.host ≠ []
  host_trimmed : r.host.Trimmed
  port_pos : 1 ≤ r.port
  port_le : r.port ≤ 65535
  resources_valid : ∀ resource ∈ r.resources, resource.Valid

/-- Every record is valid for the id it is stored under. -/
def Nodes.Valid (nodes : Nodes) : Prop := ∀ k r, nodes.get? k = some r → r.ValidFor k

theorem Nodes.valid_empty :
  Nodes.Valid Dict.empty
  := by
  intro k r h
  simp at h

section UnicodeData

variable [UnicodeData]

/-- An accepted port is one of the 65535 ports. -/
theorem asPort_spec {items : List (Str × Json)} {port : ℤ} (h : asPort items = .ok port) :
  1 ≤ port ∧ port ≤ 65535
  := by
  obtain ⟨n, hn, h⟩ := bind_eq_ok.mp h
  by_cases hle : 65535 < n
  · simp [hle, invalid] at h
  · rw [if_neg hle] at h
    injection h with h
    subst h
    exact ⟨le_of_asInt_eq_ok hn, by omega⟩

/-- What is made of the fields of an accepted update at `now`. -/
structure RecordFrom (nodeTtlSeconds : ℤ) (items : List (Str × Json)) (remoteHost : Option Str)
    (now : Time) (raw : List Json) (record : Record) : Prop where
  nodeId : asNonEmptyString (Json.get items "node_id") "node_id" = .ok record.nodeId
  host : asNonEmptyString
    ((((Json.get items "host").or (Json.get items "address")).or (Json.get items "ip")).or
      (ofOptional remoteHost)) "host" = .ok record.host
  port : asPort items = .ok record.port
  given : rawResources items = .ok raw
  resources : raw.mapM normalizeResource = .ok record.resources
  stored : record = {
    record with
    lastSeen := iso now
    lastSeenEpoch := now
    expiresAt := iso (now + nodeTtlSeconds * ticksPerSecond)
    expiresAtEpoch := now + nodeTtlSeconds * ticksPerSecond
    metadata := metadataOf items }

/-- An accepted update is an object that gives a list of resources, or none. -/
theorem exists_of_updateRecord {nodeTtlSeconds : ℤ} {payload : Json} {remoteHost : Option Str}
    {now : Time} {record : Record}
    (h : updateRecord nodeTtlSeconds payload remoteHost now = .ok record) :
  ∃ items raw, payload = .dict items ∧
    RecordFrom nodeTtlSeconds items remoteHost now raw record
  := by
  cases payload with
  | dict items =>
      obtain ⟨nodeId, hid, h⟩ := bind_eq_ok.mp h
      obtain ⟨host, hhost, h⟩ := bind_eq_ok.mp h
      obtain ⟨port, hport, h⟩ := bind_eq_ok.mp h
      obtain ⟨raw, hraw, h⟩ := bind_eq_ok.mp h
      obtain ⟨resources, hresources, h⟩ := bind_eq_ok.mp h
      cases h
      exact ⟨items, raw, rfl, hid, hhost, hport, hraw, hresources, rfl⟩
  | _ => simp [updateRecord, invalid] at h

/-- What the record of an accepted update at `now` is. -/
structure RecordSpec (nodeTtlSeconds : ℤ) (now : Time) (record : Record) : Prop where
  valid : record.ValidFor record.nodeId
  lastSeenEpoch_eq : record.lastSeenEpoch = now
  lastSeen_eq : record.lastSeen = iso now
  expiresAtEpoch_eq : record.expiresAtEpoch = now + nodeTtlSeconds * ticksPerSecond
  expiresAt_eq : record.expiresAt = iso (now + nodeTtlSeconds * ticksPerSecond)

theorem updateRecord_spec {nodeTtlSeconds : ℤ} {payload : Json} {remoteHost : Option Str}
    {now : Time} {record : Record}
    (h : updateRecord nodeTtlSeconds payload remoteHost now = .ok record) :
  RecordSpec nodeTtlSeconds now record
  := by
  obtain ⟨items, raw, rfl, hr⟩ := exists_of_updateRecord h
  constructor
  · exact {
      nodeId_eq := by rfl
      nodeId_ne_nil := (asNonEmptyString_spec hr.nodeId).1
      nodeId_trimmed := (asNonEmptyString_spec hr.nodeId).2
      host_ne_nil := (asNonEmptyString_spec hr.host).1
      host_trimmed := (asNonEmptyString_spec hr.host).2
      port_pos := (asPort_spec hr.port).1
      port_le := (asPort_spec hr.port).2
      resources_valid := forall_of_mapM_eq_ok (fun _ _ => normalizeResource_spec) hr.resources }
  · rw [hr.stored]
  · rw [hr.stored]
  · rw [hr.stored]
  · rw [hr.stored]

/-- Only an accepted update writes a record, and it writes the record it makes. -/
theorem exists_updateRecord_of_write_mem_events {nodeTtlSeconds : ℤ} {now : Time} {op : Operation}
    {k : Str} {r : Record} (h : Lease.Event.write k (some r) ∈ op.events nodeTtlSeconds now) :
  ∃ payload remoteHost, op = .updateNode payload remoteHost ∧
    updateRecord nodeTtlSeconds payload remoteHost now = .ok r ∧ r.nodeId = k
  := by
  have hdoes := does nodeTtlSeconds Dict.empty now op
  generalize op.run nodeTtlSeconds Dict.empty now = r at hdoes
  generalize op.events nodeTtlSeconds now = events at hdoes h
  cases hdoes with
  | stores hrecord =>
      rw [List.mem_singleton] at h
      obtain ⟨rfl, hr⟩ := Lease.Event.write.inj h
      obtain rfl := Option.some.inj hr
      exact ⟨_, _, rfl, hrecord, rfl⟩
  | _ => simp at h

/-- What holds of the records of a map, and of the record that the call makes if it is an accepted
update, holds of the records after the call. -/
theorem forall_after {P : Str → Record → Prop} {nodes : Nodes} {op : Operation} {nodeTtlSeconds : ℤ}
    {now : Time} (hnodes : ∀ k record, nodes.get? k = some record → P k record)
    (hop : ∀ payload remoteHost record, op = .updateNode payload remoteHost →
      updateRecord nodeTtlSeconds payload remoteHost now = .ok record → P record.nodeId record) :
  ∀ k record, (op.after nodeTtlSeconds nodes now).get? k = some record → P k record
  := by
  rw [get?_after]
  apply Lease.forall_foldl_execute _ hnodes
  intro k record hwrite
  obtain ⟨payload, remoteHost, heq, hrecord, rfl⟩ := exists_updateRecord_of_write_mem_events hwrite
  apply hop payload remoteHost record heq hrecord

/-- Every call keeps the invariant. -/
theorem Nodes.Valid.after {nodes : Nodes} (hnodes : nodes.Valid) (nodeTtlSeconds : ℤ) (now : Time)
    (op : Operation) :
  (op.after nodeTtlSeconds nodes now).Valid
  := by
  apply forall_after hnodes
  intro payload remoteHost record _ hrecord
  apply (updateRecord_spec hrecord).valid

end UnicodeData

end Tracker
