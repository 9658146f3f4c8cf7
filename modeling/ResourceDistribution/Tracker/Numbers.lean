import ResourceDistribution.Python.Number
import ResourceDistribution.Tracker.Blocks
import ResourceDistribution.Tracker.Refusals

/-!
# The numbers of an update

`_as_int` is meant to refuse what is no integer, but `int(value)` cuts the fraction off a float. So the
numbers that are stored are those that were sent, and values that are no integers are refused, unless
a float with a fraction is accepted or, as in `reports_iff`, an infinite one raises an exception that
is not caught (`numbersExact_iff`).
-/

open Python Fallible

namespace Tracker

section UnicodeData

variable [UnicodeData]

/-! ### Integers -/

/-- The value denotes a number that is no integer. -/
def Fraction (value : Json) : Prop := ∃ q, value.number = some q ∧ ∀ n : ℤ, q ≠ n

/-- The value denotes no integer. -/
def NoInteger (value : Json) : Prop := ∀ n : ℤ, value.number ≠ some (n : ℚ)

theorem Fraction.noInteger {value : Json} (h : Fraction value) :
  NoInteger value
  := by
  obtain ⟨q, hq, hne⟩ := h
  intro n hn
  rw [hq] at hn
  exact hne n (Option.some.inj hn)

theorem Infinite.noInteger {value : Json} (h : Infinite value) :
  NoInteger value
  := by
  obtain ⟨x, rfl, hinf⟩ := h
  intro n hn
  simp [Json.number, Double.value, hinf] at hn

/-- What is accepted as an integer denotes a number, and is this number with its fraction cut off. -/
theorem exists_number_of_asInt {value : Json} {fieldName : String} {m n : ℤ}
    (h : asInt value fieldName (some m) = .ok n) :
  ∃ q, value.number = some q ∧ n = truncate q
  := by
  have hnumber : ∀ q, value.number = some q → (∀ b, value ≠ .bool b) → n = truncate q := by
    intro q hq hbool
    have hint := Json.toInt_eq_truncate hq
    cases value with
    | bool b => exact absurd rfl (hbool b)
    | _ =>
        simp only [asInt, hint] at h
        split at h
        · cases h
        · exact (Except.ok.inj h).symm
  cases value with
  | null => cases h
  | bool b => cases h
  | list items => cases h
  | dict items => cases h
  | int k => exact ⟨k, rfl, hnumber k rfl (by simp)⟩
  | str s =>
      cases hs : s.toInt? with
      | none => simp [asInt, Json.toInt, hs, invalid] at h
      | some k =>
          have hk : (Json.str s).number = some (k : ℚ) := by
            rw [Json.number, hs]
            rfl
          exact ⟨k, hk, hnumber k hk (by simp)⟩
  | float x =>
      cases hx : x.value with
      | some q => exact ⟨q, hx, hnumber q hx (by simp)⟩
      | none =>
          have hspecial : x.isNan = true ∨ x.isInf = true := by
            by_contra hnot
            simp only [Double.value, if_neg hnot] at hx
            cases hx
          rcases hspecial with hnan | hinf
          · simp [asInt, Json.toInt, Double.toInt, hnan, invalid] at h
          · have hoverflow := (asInt_spec (.float x) fieldName (some m)).1.mpr ⟨x, rfl, hinf⟩
            rw [h] at hoverflow
            cases hoverflow

/-- What is accepted as an integer is the number that was sent, unless that has a fraction. -/
theorem number_of_asInt {value : Json} {fieldName : String} {m n : ℤ}
    (h : asInt value fieldName (some m) = .ok n) (hwhole : ¬ Fraction value) :
  value.number = some (n : ℚ)
  := by
  obtain ⟨q, hq, rfl⟩ := exists_number_of_asInt h
  rw [hq, truncate_eq_iff.mpr]
  by_contra hnot
  exact hwhole ⟨q, hq, fun n hn => hnot ⟨n, hn⟩⟩

/-! ### What is sent -/

omit [UnicodeData] in
/-- The value of an optional field, if it is given. -/
def given (items : List (Str × Json)) (name : String) : List Json :=
  if (Json.get items name).isNull then [] else [Json.get items name]

/-- The values that a raw block gives for integers. -/
def blockNumbers (rawBlock : Json) : List Json :=
  indexValue rawBlock ::
    match rawBlock with
    | .dict items => given items "size"
    | _ => []

/-- The values that a raw resource gives for integers. -/
def resourceNumbers (rawResource : Json) : List Json :=
  match rawResource with
  | .dict items =>
      (match (Json.get items "blocks").or (Json.get items "block_indexes") with
        | .list rawBlocks => rawBlocks.flatMap blockNumbers
        | _ => []) ++ given items "file_size" ++ given items "block_size"
  | _ => []

/-- The values that an update gives for integers. -/
def updateNumbers (items : List (Str × Json)) : List Json :=
  Json.get items "port" ::
    match rawResources items with
    | .ok raw => raw.flatMap resourceNumbers
    | .error _ => []

/-- An optional number is stored if it was sent, and as it was sent. -/
structure OptionalAsSent (items : List (Str × Json)) (name : String) (stored : Option ℤ) : Prop where
  isSome_iff : stored.isSome ↔ (Json.get items name).isNull = false
  number_eq : ∀ n ∈ stored, (Json.get items name).number = some (n : ℚ)

/-- The numbers of a block are stored as they were sent. -/
def BlockAsSent (rawBlock : Json) (block : Block) : Prop :=
  (indexValue rawBlock).number = some (block.index : ℚ) ∧
    match rawBlock with
    | .dict items => OptionalAsSent items "size" block.size
    | _ => block.size = none

/-- The numbers of a resource are stored as they were sent. The index of every entry is that of some
block, so that no two entries with different indexes are stored as one. -/
structure ResourceAsSent (items : List (Str × Json)) (rawBlocks : List Json) (r : Resource) :
    Prop where
  fileSize : OptionalAsSent items "file_size" r.fileSize
  blockSize : OptionalAsSent items "block_size" r.blockSize
  sent : ∀ block ∈ r.blocks, ∃ rawBlock ∈ rawBlocks, BlockAsSent rawBlock block
  kept : ∀ rawBlock ∈ rawBlocks, ∃ block ∈ r.blocks,
    (indexValue rawBlock).number = some (block.index : ℚ)

/-- The numbers of an update are stored as they were sent. -/
structure UpdateAsSent (items : List (Str × Json)) (record : Record) : Prop where
  port : (Json.get items "port").number = some (record.port : ℚ)
  resources : ∃ raw, rawResources items = .ok raw ∧
    List.Forall₂ (fun rawResource resource => ∃ fields rawBlocks, rawResource = .dict fields ∧
      (Json.get fields "blocks").or (Json.get fields "block_indexes") = .list rawBlocks ∧
      ResourceAsSent fields rawBlocks resource) raw record.resources

/-- Every number that an accepted update stores is the one that was sent, and an update with a value
that is no integer where one is expected is refused with a `TrackerValidationError`. -/
structure NumbersExact (items : List (Str × Json)) (remoteHost : Option Str) : Prop where
  stored : ∀ nodeTtlSeconds nodes now response nodes',
    updateNode nodeTtlSeconds nodes (.dict items) remoteHost now = .ok (response, nodes') →
    ∃ record, nodes' = nodes.set record.nodeId record ∧ UpdateAsSent items record
  refused : (∃ value ∈ updateNumbers items, NoInteger value) → ∀ nodeTtlSeconds nodes now,
    ∃ message, updateNode nodeTtlSeconds nodes (.dict items) remoteHost now
      = .error (.trackerValidationError message)

/-! ### Fields and blocks -/

/-- The value of an accepted optional field denotes a number. -/
theorem isSome_number_of_optionalInt {items : List (Str × Json)} {name fieldName : String}
    {stored : Option ℤ} (h : optionalInt items name fieldName = .ok stored) :
  ∀ value ∈ given items name, value.number.isSome
  := by
  intro value hvalue
  rw [given] at hvalue
  split at hvalue
  · cases hvalue
  · rename_i hnull
    obtain rfl := List.mem_singleton.mp hvalue
    rw [optionalInt, if_neg hnull, map_eq_pure_bind] at h
    obtain ⟨n, hn, -⟩ := bind_eq_ok.mp h
    obtain ⟨q, hq, -⟩ := exists_number_of_asInt hn
    rw [hq]
    rfl

/-- An accepted optional field without a fraction is stored as it was sent. -/
theorem optionalAsSent_of_optionalInt {items : List (Str × Json)} {name fieldName : String}
    {stored : Option ℤ} (h : optionalInt items name fieldName = .ok stored)
    (hwhole : ∀ value ∈ given items name, ¬ Fraction value) :
  OptionalAsSent items name stored
  := by
  rw [optionalInt] at h
  split at h
  · rename_i hnull
    cases h
    constructor
    · simp [hnull]
    · simp
  · rename_i hnull
    rw [map_eq_pure_bind] at h
    obtain ⟨n, hn, h⟩ := bind_eq_ok.mp h
    cases h
    constructor
    · simpa using hnull
    · intro m hm
      obtain rfl := Option.some.inj hm
      apply number_of_asInt hn
      apply hwhole
      rw [given, if_neg hnull]
      apply List.mem_singleton_self

/-- The values of an accepted block denote numbers. -/
theorem isSome_number_of_normalizeBlock {rawBlock : Json} {block : Block}
    (h : normalizeBlock rawBlock = .ok block) :
  ∀ value ∈ blockNumbers rawBlock, value.number.isSome
  := by
  have hindex : (indexValue rawBlock).number.isSome := by
    obtain ⟨fieldName, heq⟩ := rawIndex_eq rawBlock
    obtain ⟨q, hq, -⟩ := exists_number_of_asInt (heq.symm.trans (rawIndex_of_normalizeBlock h))
    rw [hq]
    rfl
  unfold blockNumbers
  rw [List.forall_mem_cons]
  use hindex
  cases rawBlock with
  | dict items =>
      obtain ⟨index, -, h⟩ := bind_eq_ok.mp h
      obtain ⟨size, hsize, -⟩ := bind_eq_ok.mp h
      apply isSome_number_of_optionalInt hsize
  | _ => apply List.forall_mem_nil

/-- The index of an accepted entry without a fraction is the one that was sent. -/
theorem number_indexValue {rawBlock : Json} {i : ℤ} (h : rawIndex rawBlock = .ok i)
    (hwhole : ¬ Fraction (indexValue rawBlock)) :
  (indexValue rawBlock).number = some (i : ℚ)
  := by
  obtain ⟨fieldName, heq⟩ := rawIndex_eq rawBlock
  apply number_of_asInt (heq.symm.trans h) hwhole

/-- A block without fractions is built as it was sent. -/
theorem blockAsSent_of_normalizeBlock {rawBlock : Json} {block : Block}
    (h : normalizeBlock rawBlock = .ok block)
    (hwhole : ∀ value ∈ blockNumbers rawBlock, ¬ Fraction value) :
  BlockAsSent rawBlock block
  := by
  obtain ⟨hindex, hsize⟩ := List.forall_mem_cons.mp hwhole
  use number_indexValue (rawIndex_of_normalizeBlock h) hindex
  cases rawBlock with
  | dict items =>
      obtain ⟨index, -, h⟩ := bind_eq_ok.mp h
      obtain ⟨size, hoptional, h⟩ := bind_eq_ok.mp h
      cases h
      apply optionalAsSent_of_optionalInt hoptional hsize
  | _ =>
      obtain ⟨index, -, h⟩ := bind_eq_ok.mp h
      cases h
      rfl

/-! ### Resources -/

omit [UnicodeData] in
/-- The values that a resource gives for integers, when it gives a list of blocks. -/
theorem resourceNumbers_dict {items : List (Str × Json)} {rawBlocks : List Json}
    (h : (Json.get items "blocks").or (Json.get items "block_indexes") = .list rawBlocks) :
  resourceNumbers (.dict items)
    = rawBlocks.flatMap blockNumbers ++ given items "file_size" ++ given items "block_size"
  := by
  rw [resourceNumbers, h]

/-- The values of an accepted resource denote numbers. -/
theorem isSome_number_of_normalizeResource {rawResource : Json} {r : Resource}
    (h : normalizeResource rawResource = .ok r) :
  ∀ value ∈ resourceNumbers rawResource, value.number.isSome
  := by
  obtain ⟨items, rawBlocks, rfl, hr⟩ := exists_of_normalizeResource h
  rw [resourceNumbers_dict hr.given]
  simp only [List.forall_mem_append]
  refine ⟨⟨?_, isSome_number_of_optionalInt hr.fileSize⟩, isSome_number_of_optionalInt hr.blockSize⟩
  intro value hvalue
  obtain ⟨rawBlock, hrawBlock, hvalue⟩ := List.mem_flatMap.mp hvalue
  obtain ⟨block, hbuilt⟩ := succeeds_normalizeBlocks_iff.mp ⟨r.blocks, hr.blocks⟩ rawBlock hrawBlock
  apply isSome_number_of_normalizeBlock hbuilt value hvalue

/-- A resource without fractions is stored as it was sent. -/
theorem resourceAsSent_of_normalizeResource {rawResource : Json} {r : Resource}
    (h : normalizeResource rawResource = .ok r)
    (hwhole : ∀ value ∈ resourceNumbers rawResource, ¬ Fraction value) :
  ∃ items rawBlocks, rawResource = .dict items ∧
    (Json.get items "blocks").or (Json.get items "block_indexes") = .list rawBlocks ∧
    ResourceAsSent items rawBlocks r
  := by
  obtain ⟨items, rawBlocks, rfl, hr⟩ := exists_of_normalizeResource h
  refine ⟨items, rawBlocks, rfl, hr.given, ?_⟩
  rw [resourceNumbers_dict hr.given] at hwhole
  simp only [List.forall_mem_append] at hwhole
  obtain ⟨⟨hwholeBlocks, hwholeFile⟩, hwholeBlock⟩ := hwhole
  have hwholeOf : ∀ rawBlock ∈ rawBlocks, ∀ value ∈ blockNumbers rawBlock, ¬ Fraction value := by
    intro rawBlock hrawBlock value hvalue
    apply hwholeBlocks value (List.mem_flatMap.mpr ⟨rawBlock, hrawBlock, hvalue⟩)
  constructor
  case fileSize => apply optionalAsSent_of_optionalInt hr.fileSize hwholeFile
  case blockSize => apply optionalAsSent_of_optionalInt hr.blockSize hwholeBlock
  case sent =>
    intro block hmem
    obtain ⟨before, rawBlock, after, rfl, hbuilt, -⟩ :=
      exists_first_of_mem_normalizeBlocks hr.blocks hmem
    have hrawBlock : rawBlock ∈ before ++ rawBlock :: after :=
      List.mem_append_right before List.mem_cons_self
    use rawBlock, hrawBlock
    apply blockAsSent_of_normalizeBlock hbuilt (hwholeOf rawBlock hrawBlock)
  case kept =>
    intro rawBlock hrawBlock
    obtain ⟨built, hbuilt⟩ := succeeds_normalizeBlocks_iff.mp ⟨r.blocks, hr.blocks⟩ rawBlock hrawBlock
    have hindex := rawIndex_of_normalizeBlock hbuilt
    obtain ⟨block, hmem, heq⟩ := List.mem_map.mp
      ((mem_map_index_normalizeBlocks_iff hr.blocks).mpr ⟨rawBlock, hrawBlock, hindex⟩)
    use block, hmem
    rw [heq]
    apply number_indexValue hindex
    apply (List.forall_mem_cons.mp (hwholeOf rawBlock hrawBlock)).1

/-! ### Updates -/

/-- The port of a record is what `_as_int` makes of the port that was sent. -/
theorem asInt_port_of_updateRecord {nodeTtlSeconds : ℤ} {items : List (Str × Json)}
    {remoteHost : Option Str} {now : Time} {record : Record}
    (h : updateRecord nodeTtlSeconds (.dict items) remoteHost now = .ok record) :
  asInt (Json.get items "port") "port" (some 1) = .ok record.port
  := by
  obtain ⟨_, raw, ⟨⟩, hr⟩ := exists_of_updateRecord h
  obtain ⟨n, hn, hport⟩ := bind_eq_ok.mp hr.port
  split at hport
  · cases hport
  · rw [hn, ← Except.ok.inj hport]

/-- The values of an accepted update denote numbers. -/
theorem isSome_number_of_updateRecord {nodeTtlSeconds : ℤ} {items : List (Str × Json)}
    {remoteHost : Option Str} {now : Time} {record : Record}
    (h : updateRecord nodeTtlSeconds (.dict items) remoteHost now = .ok record) :
  ∀ value ∈ updateNumbers items, value.number.isSome
  := by
  obtain ⟨_, raw, ⟨⟩, hr⟩ := exists_of_updateRecord h
  obtain ⟨q, hq, -⟩ := exists_number_of_asInt (asInt_port_of_updateRecord h)
  rw [updateNumbers, hr.given, List.forall_mem_cons, hq]
  use rfl
  intro value hvalue
  obtain ⟨rawResource, hrawResource, hvalue⟩ := List.mem_flatMap.mp hvalue
  obtain ⟨r, -, hresource⟩ := exists_of_mapM_eq_ok hr.resources rawResource hrawResource
  apply isSome_number_of_normalizeResource hresource value hvalue

/-- An update without fractions is stored as it was sent. -/
theorem updateAsSent_of_updateRecord {nodeTtlSeconds : ℤ} {items : List (Str × Json)}
    {remoteHost : Option Str} {now : Time} {record : Record}
    (h : updateRecord nodeTtlSeconds (.dict items) remoteHost now = .ok record)
    (hwhole : ∀ value ∈ updateNumbers items, ¬ Fraction value) :
  UpdateAsSent items record
  := by
  obtain ⟨_, raw, ⟨⟩, hr⟩ := exists_of_updateRecord h
  rw [updateNumbers, hr.given, List.forall_mem_cons] at hwhole
  obtain ⟨hport, hwhole⟩ := hwhole
  constructor
  · apply number_of_asInt (asInt_port_of_updateRecord h) hport
  · use raw, hr.given
    apply forall₂_of_mapM_eq_ok _ hr.resources
    intro rawResource hrawResource r hresource
    apply resourceAsSent_of_normalizeResource hresource
    intro value hvalue
    apply hwhole value (List.mem_flatMap.mpr ⟨rawResource, hrawResource, hvalue⟩)

/-! ### Infinite numbers -/

omit [UnicodeData] in
theorem mem_given_of_infinite {items : List (Str × Json)} {name : String}
    (h : Infinite (Json.get items name)) :
  Json.get items name ∈ given items name
  := by
  obtain ⟨x, hx, -⟩ := h
  simp [given, hx, Json.isNull]

/-- A block that is refused for an infinite number gives one. -/
theorem exists_infinite_of_blockOverflows {rawBlock : Json} (h : BlockOverflows rawBlock) :
  ∃ value ∈ blockNumbers rawBlock, Infinite value
  := by
  cases rawBlock with
  | dict items =>
      rcases h with hindex | ⟨-, hsize⟩
      · exact ⟨_, List.mem_cons_self, hindex⟩
      · exact ⟨_, List.mem_cons_of_mem _ (mem_given_of_infinite hsize), hsize⟩
  | _ => exact ⟨_, List.mem_cons_self, h⟩

/-- A resource that is refused for an infinite number gives one. -/
theorem exists_infinite_of_resourceOverflows {rawResource : Json}
    (h : ResourceOverflows rawResource) :
  ∃ value ∈ resourceNumbers rawResource, Infinite value
  := by
  cases rawResource with
  | dict items =>
      obtain ⟨-, h⟩ := h
      rw [resourceNumbers]
      simp only [List.mem_append]
      rcases h with ⟨before, rawBlock, after, hraw, -, hoverflows⟩ | ⟨-, hfile | ⟨-, hblock⟩⟩
      · obtain ⟨value, hvalue, hinfinite⟩ := exists_infinite_of_blockOverflows hoverflows
        use value
        rw [hraw]
        refine ⟨.inl (.inl ?_), hinfinite⟩
        apply List.mem_flatMap.mpr
        exact ⟨rawBlock, List.mem_append_right before List.mem_cons_self, hvalue⟩
      · exact ⟨_, .inl (.inr (mem_given_of_infinite hfile)), hfile⟩
      · exact ⟨_, .inr (mem_given_of_infinite hblock), hblock⟩
  | _ => cases h

/-- An update that is refused for an infinite number gives one. -/
theorem exists_infinite_of_updateOverflows {items : List (Str × Json)} {remoteHost : Option Str}
    (h : UpdateOverflows items remoteHost) :
  ∃ value ∈ updateNumbers items, Infinite value
  := by
  obtain ⟨-, hport | ⟨-, before, rawResource, after, hraw, -, hoverflows⟩⟩ := h
  · exact ⟨_, List.mem_cons_self, hport⟩
  · obtain ⟨value, hvalue, hinfinite⟩ := exists_infinite_of_resourceOverflows hoverflows
    use value
    rw [updateNumbers, hraw]
    refine ⟨List.mem_cons_of_mem _ ?_, hinfinite⟩
    apply List.mem_flatMap.mpr
    exact ⟨rawResource, List.mem_append_right before List.mem_cons_self, hvalue⟩

/-- An update that is refused raises what its checks raise. -/
theorem updateNode_eq_error_iff {nodeTtlSeconds : ℤ} {nodes : Nodes} {payload : Json}
    {remoteHost : Option Str} {now : Time} {e : Exc} :
  updateNode nodeTtlSeconds nodes payload remoteHost now = .error e ↔
    updateRecord nodeTtlSeconds payload remoteHost now = .error e
  := by
  rw [updateNode, bind_eq_error]
  simp [pure, Except.pure]

/-- The numbers of an update are exact unless it raises because of an infinite number, or is accepted
with a fraction. -/
theorem numbersExact_iff (items : List (Str × Json)) (remoteHost : Option Str) :
  NumbersExact items remoteHost ↔
    ¬ UpdateOverflows items remoteHost ∧
      (UpdateAccepted items remoteHost → ∀ value ∈ updateNumbers items, ¬ Fraction value)
  := by
  constructor
  · intro h
    constructor
    · intro hoverflows
      obtain ⟨value, hvalue, hinfinite⟩ := exists_infinite_of_updateOverflows hoverflows
      obtain ⟨message, hrefused⟩ := h.refused ⟨value, hvalue, hinfinite.noInteger⟩ 90 Dict.empty 0
      have hraised := (updateRecord_raises 90 items remoteHost 0).1.mpr hoverflows
      rw [updateNode_eq_error_iff, hraised] at hrefused
      cases hrefused
    · intro haccepted value hvalue hfraction
      obtain ⟨message, hrefused⟩ := h.refused ⟨value, hvalue, hfraction.noInteger⟩ 90 Dict.empty 0
      obtain ⟨record, hrecord⟩ := succeeds_updateRecord_iff.mpr haccepted
      rw [updateNode_eq_error_iff, hrecord] at hrefused
      cases hrefused
  · rintro ⟨hoverflows, hwhole⟩
    constructor
    · intro nodeTtlSeconds nodes now response nodes' hupdate
      obtain ⟨record, hrecord, -⟩ := bind_eq_ok.mp hupdate
      rw [updateNode_eq_ok nodes hrecord] at hupdate
      obtain ⟨-, rfl⟩ := Prod.mk.inj (Except.ok.inj hupdate)
      use record, rfl
      apply updateAsSent_of_updateRecord hrecord
      apply hwhole (succeeds_updateRecord_iff.mp ⟨record, hrecord⟩)
    · rintro ⟨value, hvalue, hnone⟩ nodeTtlSeconds nodes now
      simp only [updateNode_eq_error_iff]
      cases hrecord : updateRecord nodeTtlSeconds (.dict items) remoteHost now with
      | ok record =>
          obtain ⟨q, hq⟩ :=
            Option.isSome_iff_exists.mp (isSome_number_of_updateRecord hrecord value hvalue)
          have haccepted := succeeds_updateRecord_iff.mp ⟨record, hrecord⟩
          apply absurd _ (hwhole haccepted value hvalue)
          exact ⟨q, hq, fun n hn => hnone n (hn ▸ hq)⟩
      | error e =>
          obtain ⟨hoverflow, hraises⟩ := updateRecord_raises nodeTtlSeconds items remoteHost now
          rcases hraises e hrecord with rfl | ⟨message, rfl⟩
          · exact absurd (hoverflow.mp hrecord) hoverflows
          · exact ⟨message, rfl⟩

end UnicodeData

/-! ### Half a block -/

/-- The float `0.5`. -/
def half : Double := ⟨0x3FE0000000000000⟩

theorem value_half :
  half.value = some (1 / 2)
  := by
  decide +kernel

/-- The update of a node that sends the blocks `0` and `0.5` of a file. -/
def halfBlock : List (Str × Json) :=
  updateItems (Str.ofString "node-a") (.int 9001) ++ [
    (Str.ofString "resources", .list [.dict [
      (Str.ofString "file_hash", .str (Str.ofString "h")),
      (Str.ofString "file_name", .str (Str.ofString "x")),
      (Str.ofString "blocks", .list [.int 0, .float half])]])]

-- The two blocks are stored as one.
example :
  let _ := UnicodeData.ascii
  normalizeBlocks (.list [.int 0, .float half]) = .ok [⟨0, none, none⟩]
  := rfl

/-- It is not the case that numbers are always exact: half a block is accepted. -/
theorem not_numbersExact :
  let _ := UnicodeData.ascii
  ¬ ∀ items remoteHost, NumbersExact items remoteHost
  := by
  intro _ hall
  have hfraction : Fraction (.float half) := by
    use 1 / 2, value_half
    intro n hn
    have hdouble : (1 : ℚ) = ((2 * n : ℤ) : ℚ) := by
      push_cast
      linarith
    have hodd : (1 : ℤ) = 2 * n := by exact_mod_cast hdouble
    omega
  have hvalue : .float half ∈ updateNumbers halfBlock :=
    .tail _ (.tail _ (.head _))
  obtain ⟨message, hrefused⟩ :=
    (hall halfBlock none).refused ⟨_, hvalue, hfraction.noInteger⟩ 90 Dict.empty 0
  have haccepted : UpdateAccepted halfBlock none :=
    ⟨⟨⟨_, rfl⟩, ⟨_, rfl⟩⟩, ⟨_, rfl⟩, _, rfl, List.forall_mem_singleton.mpr ⟨_, rfl⟩⟩
  obtain ⟨record, hrecord⟩ := succeeds_updateRecord_iff.mpr haccepted
  rw [updateNode_eq_error_iff, hrecord] at hrefused
  cases hrefused

end Tracker
