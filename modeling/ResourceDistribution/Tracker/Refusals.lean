import ResourceDistribution.Tracker.Isolation

/-!
# Refused updates

What the checks of an update raise. It is a `TrackerValidationError`, which the client is told,
unless the first check that fails is `int(value)` on an infinite float: it raises an `OverflowError`,
which `_as_int` does not catch (`reports_iff`).
-/

open Python Fallible

namespace Tracker

/-! ### Infinite numbers -/

/-- `Infinity` or `-Infinity`, or a number that is too large for a float. -/
def Infinite (value : Json) : Prop := ∃ x : Double, value = .float x ∧ x.isInf = true

/-- The exceptions of the checks. -/
def Raised (e : Exc) : Prop := e = .overflowError ∨ ∃ message, e = .trackerValidationError message

theorem raises_invalid {α : Type} (message : String) :
  Raises Raised (invalid message : Except Exc α)
  := raises_error (.inr ⟨message, rfl⟩)

theorem invalid_ne_overflow {α : Type} (message : String) :
  (invalid message : Except Exc α) ≠ .error .overflowError
  := by
  intro h
  cases h

theorem asNonEmptyString_raises (value : Json) (fieldName : String) :
  asNonEmptyString value fieldName ≠ .error .overflowError ∧
    Raises Raised (asNonEmptyString value fieldName)
  := by
  cases value with
  | str s =>
      rw [asNonEmptyString]
      split
      · exact ⟨invalid_ne_overflow _, raises_invalid _⟩
      · exact ⟨by simp, raises_ok _⟩
  | _ => exact ⟨invalid_ne_overflow _, raises_invalid _⟩

theorem rawResources_raises (items : List (Str × Json)) :
  rawResources items ≠ .error .overflowError ∧ Raises Raised (rawResources items)
  := by
  rw [rawResources]
  split
  · exact ⟨by simp, raises_ok _⟩
  · exact ⟨by simp, raises_ok _⟩
  · exact ⟨invalid_ne_overflow _, raises_invalid _⟩

theorem status_of_sendJson [RecursionLimit] {status : ℕ} {payload : Json} {response : Response}
    (h : sendJson status payload = some response) :
  response.status = status
  := by
  obtain ⟨body, -, rfl⟩ := Option.map_eq_some_iff.mp h
  rfl

section UnicodeData

variable [UnicodeData]

/-! ### The first check that fails -/

/-- The first field of a block that is refused is refused for an infinite number. -/
def BlockOverflows (rawBlock : Json) : Prop :=
  match rawBlock with
  | .dict items =>
      Infinite (Json.get items "index") ∨
        Succeeds (asInt (Json.get items "index") "block.index" (some 0)) ∧
          Infinite (Json.get items "size")
  | v => Infinite v

/-- The first block that is refused is refused for an infinite number. -/
def BlocksOverflow (rawBlocks : Json) : Prop :=
  ∃ before rawBlock after, rawBlocks = .list (before ++ rawBlock :: after) ∧
    (∀ other ∈ before, Succeeds (normalizeBlock other)) ∧ BlockOverflows rawBlock

/-- `_normalize_resource` accepts what it checks before the blocks. -/
def NamesAccepted (items : List (Str × Json)) : Prop :=
  Succeeds (asNonEmptyString (Json.get items "file_hash") "file_hash") ∧
    Succeeds (asNonEmptyString
      ((Json.get items "file_name").or (Json.get items "filename")) "file_name")

/-- The first field of a resource that is refused is refused for an infinite number. -/
def ResourceOverflows (rawResource : Json) : Prop :=
  match rawResource with
  | .dict items =>
      let rawBlocks := (Json.get items "blocks").or (Json.get items "block_indexes")
      NamesAccepted items ∧
        (BlocksOverflow rawBlocks ∨
          Succeeds (normalizeBlocks rawBlocks) ∧
            (Infinite (Json.get items "file_size") ∨
              Succeeds (optionalInt items "file_size" "file_size") ∧
                Infinite (Json.get items "block_size")))
  | _ => False

/-- `update_node` accepts what it checks before the port. -/
def HostAccepted (items : List (Str × Json)) (remoteHost : Option Str) : Prop :=
  Succeeds (asNonEmptyString (Json.get items "node_id") "node_id") ∧
    Succeeds (asNonEmptyString
      ((((Json.get items "host").or (Json.get items "address")).or (Json.get items "ip")).or
        (ofOptional remoteHost)) "host")

/-- The first field of an update that is refused is refused for an infinite number: its port, or the
first of its resources that is refused. -/
def UpdateOverflows (items : List (Str × Json)) (remoteHost : Option Str) : Prop :=
  HostAccepted items remoteHost ∧
    (Infinite (Json.get items "port") ∨
      Succeeds (asPort items) ∧
        ∃ before rawResource after,
          rawResources items = .ok (before ++ rawResource :: after) ∧
            (∀ other ∈ before, Succeeds (normalizeResource other)) ∧ ResourceOverflows rawResource)

/-- All that an update consists of is accepted. -/
def UpdateAccepted (items : List (Str × Json)) (remoteHost : Option Str) : Prop :=
  HostAccepted items remoteHost ∧ Succeeds (asPort items) ∧
    ∃ raw, rawResources items = .ok raw ∧ ∀ rawResource ∈ raw, Succeeds (normalizeResource rawResource)

/-! ### What the checks raise -/

/-- `int(value)` overflows on infinite numbers only. -/
theorem toInt_eq_overflow_iff {value : Json} :
  value.toInt = .error .overflowError ↔ Infinite value
  := by
  cases value with
  | float x =>
      have hinf : Infinite (.float x) ↔ x.isInf = true := by
        constructor
        · rintro ⟨y, hy, hinf⟩
          cases hy
          exact hinf
        · intro hinf
          exact ⟨x, rfl, hinf⟩
      rw [hinf, Json.toInt, Double.toInt]
      split
      · rename_i hnan
        simp only [Double.isNan, Double.isInf, decide_eq_true_eq] at hnan ⊢
        simp [hnan.2]
      · split
        · rename_i h
          simp [h]
        · rename_i h
          simp [h]
  | str s =>
      rw [Json.toInt]
      split <;> simp [Infinite]
  | _ => simp [Json.toInt, Infinite]

/-- What else `int(value)` raises is caught. -/
theorem toInt_raises (value : Json) :
  Raises (fun e => e = .typeError ∨ e = .valueError ∨ e = .overflowError) value.toInt
  := by
  cases value with
  | float x =>
      rw [Json.toInt, Double.toInt]
      split
      · exact raises_error (.inr (.inl rfl))
      · split
        · exact raises_error (.inr (.inr rfl))
        · apply raises_ok
  | str s =>
      rw [Json.toInt]
      split
      · apply raises_ok
      · exact raises_error (.inr (.inl rfl))
  | int n => apply raises_ok
  | bool b => apply raises_ok
  | null => exact raises_error (.inl rfl)
  | list items => exact raises_error (.inl rfl)
  | dict items => exact raises_error (.inl rfl)

/-- `_as_int` raises nothing but a `TrackerValidationError`, except on infinite numbers. -/
theorem asInt_spec (value : Json) (fieldName : String) (minimum : Option ℤ) :
  (asInt value fieldName minimum = .error .overflowError ↔ Infinite value) ∧
    Raises Raised (asInt value fieldName minimum)
  := by
  cases value with
  | bool b =>
      constructor
      · simp [asInt, invalid, Infinite]
      · apply raises_invalid
  | _ =>
      rw [← toInt_eq_overflow_iff]
      simp only [asInt]
      split
      · rename_i htoInt
        rw [htoInt]
        exact ⟨by simp [invalid], raises_invalid _⟩
      · rename_i htoInt
        rw [htoInt]
        exact ⟨by simp [invalid], raises_invalid _⟩
      · rename_i e htype hvalue htoInt
        rw [htoInt]
        constructor
        · rw [Except.error.injEq]
        · rcases toInt_raises _ e htoInt with rfl | rfl | rfl
          · cases htype rfl
          · cases hvalue rfl
          · exact raises_error (.inl rfl)
      · rename_i number htoInt
        rw [htoInt]
        cases minimum with
        | none => exact ⟨by simp, raises_ok number⟩
        | some m =>
            dsimp only
            split
            · exact ⟨by simp [invalid], raises_invalid _⟩
            · exact ⟨by simp, raises_ok number⟩

theorem optionalInt_raises (items : List (Str × Json)) (name fieldName : String) :
  (optionalInt items name fieldName = .error .overflowError ↔ Infinite (Json.get items name)) ∧
    Raises Raised (optionalInt items name fieldName)
  := by
  rw [optionalInt]
  split
  · rename_i hnull
    constructor
    · cases hget : Json.get items name with
      | null => simp [Infinite]
      | _ => simp [hget, Json.isNull] at hnull
    · apply raises_ok
  · obtain ⟨hoverflow, hraises⟩ := asInt_spec (Json.get items name) fieldName (some 0)
    rw [← hoverflow, map_eq_pure_bind]
    constructor
    · rw [bind_eq_error]
      simp [pure, Except.pure]
    · apply hraises.bind
      intro n
      apply raises_ok

/-! ### Blocks and resources -/

theorem normalizeBlock_raises (rawBlock : Json) :
  (normalizeBlock rawBlock = .error .overflowError ↔ BlockOverflows rawBlock) ∧
    Raises Raised (normalizeBlock rawBlock)
  := by
  have hbare : ∀ v : Json, ((do
      let index ← asInt v "block index" (some 0)
      return (⟨index, none, none⟩ : Block) : Except Exc Block) = .error .overflowError
        ↔ Infinite v) ∧ Raises Raised (do
      let index ← asInt v "block index" (some 0)
      return (⟨index, none, none⟩ : Block) : Except Exc Block) := by
    intro v
    obtain ⟨hoverflow, hraises⟩ := asInt_spec v "block index" (some 0)
    constructor
    · rw [bind_eq_error, ← hoverflow]
      simp [pure, Except.pure]
    · apply hraises.bind
      intro n
      apply raises_ok
  cases rawBlock with
  | dict items =>
      obtain ⟨hindex, hindexRaises⟩ :=
        asInt_spec (Json.get items "index") "block.index" (some 0)
      obtain ⟨hsize, hsizeRaises⟩ := optionalInt_raises items "size" "block.size"
      constructor
      · rw [normalizeBlock, BlockOverflows, ← hindex, ← hsize]
        apply bind_eq_error_iff
        intro index _
        rw [bind_eq_error]
        simp [pure, Except.pure]
      · apply hindexRaises.bind
        intro index
        apply hsizeRaises.bind
        intro size
        apply raises_ok
  | _ => apply hbare

theorem normalizeBlocks_raises (rawBlocks : Json) :
  (normalizeBlocks rawBlocks = .error .overflowError ↔ BlocksOverflow rawBlocks) ∧
    Raises Raised (normalizeBlocks rawBlocks)
  := by
  cases rawBlocks with
  | list items =>
      rw [normalizeBlocks_list, map_eq_pure_bind]
      constructor
      · rw [bind_eq_error, mapM_eq_error_iff]
        simp only [pure, Except.pure, reduceCtorEq, and_false, exists_false, or_false,
          (normalizeBlock_raises _).1, BlocksOverflow, Json.list.injEq]
      · apply Raises.bind
        · apply Raises.mapM
          intro rawBlock
          exact (normalizeBlock_raises rawBlock).2
        · intro built
          apply raises_ok
  | _ =>
      constructor
      · simp [normalizeBlocks, invalid, BlocksOverflow]
      · apply raises_invalid

theorem normalizeResource_raises (rawResource : Json) :
  (normalizeResource rawResource = .error .overflowError ↔ ResourceOverflows rawResource) ∧
    Raises Raised (normalizeResource rawResource)
  := by
  cases rawResource with
  | dict items =>
      obtain ⟨hhash, hhashRaises⟩ :=
        asNonEmptyString_raises (Json.get items "file_hash") "file_hash"
      obtain ⟨hname, hnameRaises⟩ := asNonEmptyString_raises
        ((Json.get items "file_name").or (Json.get items "filename")) "file_name"
      obtain ⟨hblocks, hblocksRaises⟩ :=
        normalizeBlocks_raises ((Json.get items "blocks").or (Json.get items "block_indexes"))
      obtain ⟨hfile, hfileRaises⟩ := optionalInt_raises items "file_size" "file_size"
      obtain ⟨hblock, hblockRaises⟩ := optionalInt_raises items "block_size" "block_size"
      constructor
      · rw [ResourceOverflows, NamesAccepted, and_assoc, normalizeResource]
        rw [bind_eq_error_iff, or_iff_right hhash]
        intro fileHash _
        rw [bind_eq_error_iff, or_iff_right hname]
        intro fileName _
        rw [← hblocks]
        apply bind_eq_error_iff
        intro blocks _
        rw [← hfile]
        apply bind_eq_error_iff
        intro fileSize _
        rw [← hblock, bind_eq_error]
        simp [pure, Except.pure]
      · apply hhashRaises.bind
        intro fileHash
        apply hnameRaises.bind
        intro fileName
        apply hblocksRaises.bind
        intro blocks
        apply hfileRaises.bind
        intro fileSize
        apply hblockRaises.bind
        intro blockSize
        apply raises_ok
  | _ =>
      constructor
      · simp [normalizeResource, invalid, ResourceOverflows]
      · apply raises_invalid

/-! ### Updates -/

theorem asPort_raises (items : List (Str × Json)) :
  (asPort items = .error .overflowError ↔ Infinite (Json.get items "port")) ∧
    Raises Raised (asPort items)
  := by
  obtain ⟨hport, hportRaises⟩ := asInt_spec (Json.get items "port") "port" (some 1)
  constructor
  · rw [asPort, ← hport, bind_eq_error]
    apply or_iff_left
    rintro ⟨port, -, h⟩
    split at h
    · exact invalid_ne_overflow _ h
    · cases h
  · apply hportRaises.bind
    intro port
    split
    · apply raises_invalid
    · apply raises_ok

/-- What the checks of an update raise, and when it is an overflow. -/
theorem updateRecord_raises (nodeTtlSeconds : ℤ) (items : List (Str × Json))
    (remoteHost : Option Str) (now : Time) :
  (updateRecord nodeTtlSeconds (.dict items) remoteHost now = .error .overflowError
      ↔ UpdateOverflows items remoteHost) ∧
    Raises Raised (updateRecord nodeTtlSeconds (.dict items) remoteHost now)
  := by
  obtain ⟨hid, hidRaises⟩ := asNonEmptyString_raises (Json.get items "node_id") "node_id"
  obtain ⟨hhost, hhostRaises⟩ := asNonEmptyString_raises
    ((((Json.get items "host").or (Json.get items "address")).or (Json.get items "ip")).or
      (ofOptional remoteHost)) "host"
  obtain ⟨hport, hportRaises⟩ := asPort_raises items
  obtain ⟨hraw, hrawRaises⟩ := rawResources_raises items
  constructor
  · rw [UpdateOverflows, HostAccepted, and_assoc, updateRecord]
    rw [bind_eq_error_iff, or_iff_right hid]
    intro nodeId _
    rw [bind_eq_error_iff, or_iff_right hhost]
    intro host _
    rw [← hport]
    apply bind_eq_error_iff
    intro port _
    rw [bind_eq_error, or_iff_right hraw]
    constructor
    · rintro ⟨raw, hraw, h⟩
      rcases bind_eq_error.mp h with h | ⟨resources, -, h⟩
      · obtain ⟨before, rawResource, after, rfl, hbefore, hresource⟩ := mapM_eq_error_iff.mp h
        use before, rawResource, after, hraw, hbefore
        exact (normalizeResource_raises rawResource).1.mp hresource
      · cases h
    · rintro ⟨before, rawResource, after, hraw, hbefore, hresource⟩
      use before ++ rawResource :: after, hraw
      apply bind_eq_error.mpr
      left
      apply mapM_eq_error_iff.mpr
      use before, rawResource, after, rfl, hbefore
      exact (normalizeResource_raises rawResource).1.mpr hresource
  · apply hidRaises.bind
    intro nodeId
    apply hhostRaises.bind
    intro host
    apply hportRaises.bind
    intro port
    apply hrawRaises.bind
    intro raw
    apply Raises.bind
    · apply Raises.mapM
      intro rawResource
      exact (normalizeResource_raises rawResource).2
    · intro resources
      apply raises_ok

/-- An update makes a record exactly when all that it consists of is accepted. -/
theorem succeeds_updateRecord_iff {nodeTtlSeconds : ℤ} {items : List (Str × Json)}
    {remoteHost : Option Str} {now : Time} :
  Succeeds (updateRecord nodeTtlSeconds (.dict items) remoteHost now)
    ↔ UpdateAccepted items remoteHost
  := by
  constructor
  · rintro ⟨record, h⟩
    obtain ⟨nodeId, hid, h⟩ := bind_eq_ok.mp h
    obtain ⟨host, hhost, h⟩ := bind_eq_ok.mp h
    obtain ⟨port, hport, h⟩ := bind_eq_ok.mp h
    obtain ⟨raw, hraw, h⟩ := bind_eq_ok.mp h
    obtain ⟨resources, hresources, -⟩ := bind_eq_ok.mp h
    exact ⟨⟨⟨nodeId, hid⟩, ⟨host, hhost⟩⟩, ⟨port, hport⟩, raw, hraw,
      succeeds_mapM_iff.mp ⟨resources, hresources⟩⟩
  · rintro ⟨⟨⟨nodeId, hid⟩, ⟨host, hhost⟩⟩, ⟨port, hport⟩, raw, hraw, hall⟩
    obtain ⟨resources, hresources⟩ := succeeds_mapM_iff.mpr hall
    rw [updateRecord, hid]
    change Succeeds (asNonEmptyString _ "host" >>= _)
    rw [hhost]
    change Succeeds (asPort items >>= _)
    rw [hport]
    change Succeeds (rawResources items >>= _)
    rw [hraw]
    change Succeeds (raw.mapM normalizeResource >>= _)
    rw [hresources]
    apply succeeds_ok

/-! ### What the client is told -/

/-- The id of the node has no surrogate. -/
def NodeIdEncodable (items : List (Str × Json)) : Prop :=
  ∀ nodeId, Json.get items "node_id" = .str nodeId → nodeId.strip.Encodable

theorem encodable_nodeId_iff {nodeTtlSeconds : ℤ} {items : List (Str × Json)}
    {remoteHost : Option Str} {now : Time} {record : Record}
    (h : updateRecord nodeTtlSeconds (.dict items) remoteHost now = .ok record) :
  record.nodeId.Encodable ↔ NodeIdEncodable items
  := by
  obtain ⟨_, raw, ⟨⟩, hr⟩ := exists_of_updateRecord h
  obtain ⟨nodeId, hget, -, hid⟩ := asNonEmptyString_eq_ok_iff.mp hr.nodeId
  rw [hid]
  constructor
  · intro hencodable nodeId' hget'
    rw [hget] at hget'
    cases hget'
    exact hencodable
  · intro hencodable
    apply hencodable nodeId hget

variable [RecursionLimit] (server : Server)

/-- `update_node` returns and has replaced the record of the payload's node, and no other, or it
raises a `TrackerValidationError` and leaves the map as it is. -/
def Server.Reports (nodes : Nodes) (items : List (Str × Json)) (remoteHost : Option Str)
    (now savedAt : Time) : Prop :=
  let result := server.updateNode nodes (.dict items) remoteHost now savedAt
  (∃ response record, updateRecord server.nodeTtlSeconds (.dict items) remoteHost now = .ok record ∧
      asNonEmptyString (Json.get items "node_id") "node_id" = .ok record.nodeId ∧
      result = (.ok response, nodes.set record.nodeId record)) ∨
    ∃ message, result = (.error (.trackerValidationError message), nodes)

/-- `do_POST` answers the update with status 200 or 400. -/
def Server.Answers (nodes : Nodes) (items : List (Str × Json)) (clientHost : Str) (clock : Clock) :
    Prop :=
  ∃ response, (server.handle nodes clock (.update (.dict items) clientHost)).1 = some response ∧
    (response.status = 200 ∨ response.status = 400)

/-- The map can be saved after the update. -/
def Server.Saves (nodes : Nodes) (items : List (Str × Json)) (remoteHost : Option Str)
    (now savedAt : Time) : Prop :=
  ∀ record, updateRecord server.nodeTtlSeconds (.dict items) remoteHost now = .ok record →
    server.saveState (nodes.set record.nodeId record) savedAt = .ok ()

/-- A refused update leaves the map as it is. -/
theorem updateNode_of_error {nodes : Nodes} {items : List (Str × Json)} {remoteHost : Option Str}
    {now savedAt : Time} {e : Exc}
    (h : updateRecord server.nodeTtlSeconds (.dict items) remoteHost now = .error e) :
  server.updateNode nodes (.dict items) remoteHost now savedAt = (.error e, nodes)
  := by
  have hupdate : updateNode server.nodeTtlSeconds nodes (.dict items) remoteHost now = .error e := by
    rw [updateNode, h]
    rfl
  rw [Server.updateNode, hupdate]

/-- An accepted update that can be saved replaces one record. -/
theorem exists_updateNode_eq_ok {nodes : Nodes} {items : List (Str × Json)}
    {remoteHost : Option Str} {now savedAt : Time} {record : Record}
    (hrecord : updateRecord server.nodeTtlSeconds (.dict items) remoteHost now = .ok record)
    (hsaves : server.Saves nodes items remoteHost now savedAt) :
  ∃ response, server.updateNode nodes (.dict items) remoteHost now savedAt
      = (.ok response, nodes.set record.nodeId record) ∧
    (Json.Writable RecursionLimit.dumpDepth (updateJson response) ↔ record.nodeId.Encodable)
  := by
  have hcopies : (nodes.set record.nodeId record).values.forM Server.copyBlocks = .ok () :=
    forM_eq_ok_iff.mpr fun record _ => copyBlocks_eq_ok record
  obtain ⟨n, hn⟩ := exists_dumpDepth_eq
  simp only [Server.updateNode, updateNode_eq_ok nodes hrecord, hsaves record hrecord, hcopies]
  refine ⟨_, rfl, ?_⟩
  rw [hn, updateJson]
  simp [Str.encodable_ofString, (updateRecord_spec hrecord).expiresAt_eq, encodable_iso]

/-- `update_node` reports what it does unless it meets an infinite number. -/
theorem updateNode_reports_iff {nodes : Nodes} {items : List (Str × Json)}
    {remoteHost : Option Str} {now savedAt : Time}
    (hsaves : server.Saves nodes items remoteHost now savedAt) :
  server.Reports nodes items remoteHost now savedAt ↔ ¬ UpdateOverflows items remoteHost
  := by
  obtain ⟨hoverflow, hraises⟩ :=
    updateRecord_raises server.nodeTtlSeconds items remoteHost now
  rw [← hoverflow]
  constructor
  · intro h herror
    rcases h with ⟨response, record, hrecord, -⟩ | ⟨message, h⟩
    · rw [herror] at hrecord
      cases hrecord
    · rw [updateNode_of_error server herror] at h
      cases h
  · intro hnot
    cases hrecord : updateRecord server.nodeTtlSeconds (.dict items) remoteHost now with
    | ok record =>
        obtain ⟨response, hresponse, -⟩ := exists_updateNode_eq_ok server hrecord hsaves
        obtain ⟨_, raw, ⟨⟩, hr⟩ := exists_of_updateRecord hrecord
        exact .inl ⟨response, record, hrecord, hr.nodeId, hresponse⟩
    | error e =>
        rcases hraises e hrecord with rfl | ⟨message, rfl⟩
        · exact absurd hrecord hnot
        · exact .inr ⟨message, updateNode_of_error server hrecord⟩

/-- `do_POST` answers unless `update_node` meets an infinite number, or accepts an id that cannot be
sent back. -/
theorem answers_iff {nodes : Nodes} {items : List (Str × Json)} {clientHost : Str} {clock : Clock}
    (hsaves : server.Saves nodes items (some clientHost) (clock 0) (clock 1)) :
  server.Answers nodes items clientHost clock
    ↔ ¬ UpdateOverflows items (some clientHost) ∧
      (UpdateAccepted items (some clientHost) → NodeIdEncodable items)
  := by
  obtain ⟨hoverflow, hraises⟩ :=
    updateRecord_raises server.nodeTtlSeconds items (some clientHost) (clock 0)
  rw [← hoverflow, ← succeeds_updateRecord_iff, Server.Answers, Server.handle]
  cases hrecord : updateRecord server.nodeTtlSeconds (.dict items) (some clientHost) (clock 0) with
  | ok record =>
      obtain ⟨response, hresponse, hwritable⟩ := exists_updateNode_eq_ok server hrecord hsaves
      rw [hresponse, ← encodable_nodeId_iff hrecord, ← hwritable]
      constructor
      · rintro ⟨sent, hsent, -⟩
        refine ⟨by simp, fun _ => ?_⟩
        apply writable_of_isSome_sendJson
        exact Option.isSome_iff_exists.mpr ⟨sent, hsent⟩
      · rintro ⟨-, h⟩
        obtain ⟨body, hbody⟩ := exists_sendJson_eq (h (succeeds_ok record)) 200
        exact ⟨_, hbody, .inl rfl⟩
  | error e =>
      rw [updateNode_of_error server hrecord]
      rcases hraises e hrecord with rfl | ⟨message, rfl⟩
      · constructor
        · rintro ⟨sent, hsent, -⟩
          cases hsent
        · rintro ⟨h, -⟩
          exact absurd rfl h
      · constructor
        · rintro -
          refine ⟨by simp, ?_⟩
          rintro ⟨record, h⟩
          cases h
        · rintro -
          obtain ⟨sent, hsent⟩ := Option.isSome_iff_exists.mp (isSome_sendError 400 message)
          exact ⟨sent, hsent, .inr (status_of_sendJson hsent)⟩

/-- If the map can be saved, an update is reported, by `update_node` and by `do_POST`, exactly when
no infinite number is the first thing in it that is refused, and if it is accepted, the id of its
node can be sent back. -/
theorem reports_iff (nodes : Nodes) (items : List (Str × Json)) (remoteHost : Option Str)
    (clock : Clock) (hsaves : server.Saves nodes items remoteHost (clock 0) (clock 1)) :
  (server.Reports nodes items remoteHost (clock 0) (clock 1) ∧
      ∀ clientHost ∈ remoteHost, server.Answers nodes items clientHost clock) ↔
    ¬ UpdateOverflows items remoteHost ∧
      (remoteHost.isSome → UpdateAccepted items remoteHost → NodeIdEncodable items)
  := by
  rw [updateNode_reports_iff server hsaves]
  cases remoteHost with
  | none => simp
  | some clientHost =>
      simp only [Option.mem_some_iff, forall_eq', Option.isSome_some, forall_true_left,
        answers_iff server hsaves]
      tauto

end UnicodeData

/-! ### An infinite port -/

/-- The update of a node without files. -/
def updateItems (nodeId : Str) (port : Json) : List (Str × Json) := [
  (Str.ofString "node_id", .str nodeId),
  (Str.ofString "host", .str (Str.ofString "127.0.0.1")),
  (Str.ofString "port", port)]

-- An id with a surrogate is accepted, but cannot be sent back.
example :
  let _ := UnicodeData.ascii
  let _ := RecursionLimit.default
  (memoryServer.handle Dict.empty (fun _ => 0)
    (.update (.dict (updateItems [.surrogate 0] (.int 9001))) (Str.ofString "127.0.0.1"))).1 = none
  := by
  decide +kernel

/-- An update with an ordinary port. -/
theorem reports_plainPort :
  let _ := UnicodeData.ascii
  let _ := RecursionLimit.default
  let items := updateItems (Str.ofString "node-a") (.int 9001)
  let clientHost := Str.ofString "127.0.0.1"
  memoryServer.Reports Dict.empty items (some clientHost) 0 0 ∧
    memoryServer.Answers Dict.empty items clientHost fun _ => 0
  := by
  intro _ _ items clientHost
  have hsaves : memoryServer.Saves Dict.empty items (some clientHost) 0 0 := by
    intro record _
    rfl
  have haccepted : ¬ UpdateOverflows items (some clientHost) := by
    rintro ⟨-, ⟨x, hport, -⟩ | ⟨-, before, rawResource, after, hraw, -⟩⟩
    · cases hport
    · apply List.append_ne_nil_of_right_ne_nil before (List.cons_ne_nil rawResource after)
      exact (Except.ok.inj hraw).symm
  have hencodable : NodeIdEncodable items := by
    rintro nodeId ⟨⟩
    exact ⟨"node-a", rfl⟩
  obtain ⟨hreports, hanswers⟩ :=
    (reports_iff memoryServer Dict.empty items (some clientHost) (fun _ => 0) hsaves).mpr
      ⟨haccepted, fun _ _ => hencodable⟩
  exact ⟨hreports, hanswers clientHost rfl⟩

/-- It is not the case that every update is reported: `_as_int` lets the exception through that an
infinite port raises. -/
theorem not_reports :
  let _ := UnicodeData.ascii
  let _ := RecursionLimit.default
  ¬ ∀ (server : Server) nodes items remoteHost clock,
      server.Saves nodes items remoteHost (clock 0) (clock 1) →
      server.Reports nodes items remoteHost (clock 0) (clock 1) ∧
        ∀ clientHost ∈ remoteHost, server.Answers nodes items clientHost clock
  := by
  intro _ _ hall
  let items := updateItems (Str.ofString "node-a") (.float ⟨0x7FF0000000000000⟩)
  have hsaves : memoryServer.Saves Dict.empty items none 0 0 := by
    intro record _
    rfl
  have hreports := (hall memoryServer Dict.empty items none (fun _ => 0) hsaves).1
  apply (updateNode_reports_iff memoryServer hsaves).mp hreports
  constructor
  · exact ⟨⟨_, rfl⟩, ⟨_, rfl⟩⟩
  · exact .inl ⟨⟨0x7FF0000000000000⟩, rfl, by decide⟩

end Tracker
