import ResourceDistribution.Tracker.Snapshot
import ResourceDistribution.Tracker.StateText

/-!
# Restarting from the state file

Everything in a record comes from a request body, which `json.loads` has read. So its numbers and its
metadata can be read again, and whenever a save succeeds, a process that starts from the file has the
records of the map that was saved. That holds of all maps that calls and restarts lead to
(`restart_from_text`).
-/

open Python Json Fallible

namespace Tracker

/-! ### Numbers -/

theorem mul_two_pow_lt {m a e b : ℕ} (hm : m < 2 ^ a) (he : e ≤ b) :
  m * 2 ^ e < 10 ^ (a + b)
  := by
  have hpow : 2 ^ e ≤ 2 ^ b := Nat.pow_le_pow_right (by decide) he
  calc
    m * 2 ^ e < 2 ^ a * 2 ^ b := Nat.mul_lt_mul_of_lt_of_le hm hpow (Nat.two_pow_pos b)
    _ = 2 ^ (a + b) := by rw [pow_add]
    _ ≤ 10 ^ (a + b) := Nat.pow_le_pow_left (by decide) (a + b)

/-- The integer that a float is cut off to is less than every number that is not a float. -/
theorem readable_of_double {x : Double} {n : ℤ} (h : x.toInt = .ok n) :
  Readable n
  := by
  have hmantissa : x.mantissa < 2 ^ 53 := by
    have hfraction := x.fraction_lt
    rw [Double.mantissa]
    split
    · omega
    · omega
  rw [Double.toInt] at h
  split at h
  · cases h
  · rename_i hnan
    split at h
    · cases h
    · rename_i hinf
      have hexponent : x.exponent.toNat ≤ 971 := by
        have hlt : x.exponentBits < 2 ^ 11 := Nat.mod_lt _ (by decide)
        have hne : x.exponentBits ≠ 2047 := by
          intro heq
          simp only [Double.isNan, Double.isInf, heq, decide_eq_true_eq, true_and] at hnan hinf
          exact hnan hinf
        rw [Double.exponent]
        split
        · omega
        · omega
      have hle : n.natAbs ≤ x.mantissa * 2 ^ x.exponent.toNat := by
        rw [← Except.ok.inj h]
        have hnat : (if 0 ≤ x.exponent then x.mantissa * 2 ^ x.exponent.toNat
            else x.mantissa / 2 ^ (-x.exponent).toNat) ≤ x.mantissa * 2 ^ x.exponent.toNat := by
          split
          · apply le_refl
          · apply (Nat.div_le_self _ _).trans
            apply Nat.le_mul_of_pos_right _ (by positivity)
        split
        · rw [Int.natAbs_neg, Int.natAbs_natCast]
          exact hnat
        · rw [Int.natAbs_natCast]
          exact hnat
      apply readable_of_lt (hle.trans_lt (mul_two_pow_lt hmantissa hexponent)) (by decide)

section UnicodeData

variable [UnicodeData]

/-- The value of a digit. -/
theorem digit_lt {c : CodePoint} {d : ℕ} (h : Str.digit? c = some d) :
  d < 10
  := by
  rw [Str.digit?] at h
  split at h
  · split at h
    · cases h
      omega
    · cases h
  · obtain ⟨i, -, rfl⟩ := Option.map_eq_some_iff.mp h
    apply i.isLt

theorem lt_of_mem_scanDigits {s : Str} {ds : List ℕ} (h : Str.scanDigits s = some ds) :
  ∀ d ∈ ds, d < 10
  := by
  fun_induction Str.scanDigits s generalizing ds with
  | case1 => cases h
  | case2 c =>
      obtain ⟨d, hd, rfl⟩ := Option.map_eq_some_iff.mp h
      intro e he
      rw [List.mem_singleton.mp he]
      apply digit_lt hd
  | case3 c c' rest hc => cases h
  | case4 c rest d hd ih =>
      obtain ⟨l, hl, rfl⟩ := Option.map_eq_some_iff.mp h
      intro e he
      rcases List.mem_cons.mp he with rfl | he
      · apply digit_lt hd
      · apply ih hl e he
  | case5 c c' rest d hd hne ih =>
      obtain ⟨l, hl, rfl⟩ := Option.map_eq_some_iff.mp h
      intro e he
      rcases List.mem_cons.mp he with rfl | he
      · apply digit_lt hd
      · apply ih hl e he

omit [UnicodeData] in
theorem foldl_digits_lt {ds : List ℕ} (h : ∀ d ∈ ds, d < 10) (n : ℕ) :
  ds.foldl (fun n d => 10 * n + d) n < (n + 1) * 10 ^ ds.length
  := by
  induction ds generalizing n with
  | nil => simp
  | cons d ds ih =>
      have hd := h d List.mem_cons_self
      rw [List.foldl_cons, List.length_cons, pow_succ]
      apply (ih (fun e he => h e (List.mem_cons_of_mem d he)) _).trans_le
      calc
        (10 * n + d + 1) * 10 ^ ds.length ≤ (10 * n + 10) * 10 ^ ds.length :=
          Nat.mul_le_mul_right _ (by omega)
        _ = (n + 1) * (10 ^ ds.length * 10) := by ring

/-- The integer of a text has no more digits than the text. -/
theorem readable_of_str {s : Str} {n : ℤ} (h : s.toInt? = some n) :
  Readable n
  := by
  rw [Str.toInt?] at h
  dsimp only at h
  split at h
  · cases h
  · rename_i ds hds
    split at h
    · cases h
    · rename_i hlength
      have hlt := foldl_digits_lt (lt_of_mem_scanDigits hds) 0
      rw [zero_add, one_mul] at hlt
      apply readable_of_lt (k := ds.length) _ (not_lt.mp hlength)
      rw [← Option.some.inj h]
      split
      · rw [Int.natAbs_neg, Int.natAbs_natCast]
        exact hlt
      · rw [Int.natAbs_natCast]
        exact hlt

/-- What is accepted as an integer is what `int` makes of the value. -/
theorem toInt_of_asInt {value : Json} {fieldName : String} {m n : ℤ}
    (h : asInt value fieldName (some m) = .ok n) :
  value.toInt = .ok n
  := by
  cases value with
  | bool b => cases h
  | _ =>
      simp only [asInt] at h
      split at h
      · cases h
      · cases h
      · cases h
      · rename_i hnumber
        split at h
        · cases h
        · rw [hnumber, h]

/-- What is accepted as an integer can be read. -/
theorem readable_of_asInt {value : Json} (hvalue : Loaded value) {fieldName : String} {m n : ℤ}
    (h : asInt value fieldName (some m) = .ok n) :
  Readable n
  := by
  have htoInt := toInt_of_asInt h
  cases value with
  | int k =>
      rw [← Except.ok.inj htoInt]
      exact hvalue
  | float x => apply readable_of_double htoInt
  | str s =>
      rw [Json.toInt] at htoInt
      split at htoInt
      · rename_i k hk
        rw [← Except.ok.inj htoInt]
        apply readable_of_str hk
      · cases htoInt
  | bool b => cases h
  | _ => cases htoInt

/-! ### Updates -/

omit [UnicodeData] in
/-- The fields of an object that was read were read. -/
theorem loaded_get {items : List (Str × Json)} (h : Loaded (.dict items)) (name : String) :
  Loaded (Json.get items name)
  := by
  rw [Json.get]
  cases hlookup : items.lookup (Str.ofString name) with
  | none => trivial
  | some v =>
      apply loadedFields_iff.mp h.1 (Str.ofString name, v)
      apply (Dict.lookup_eq_some_iff h.2).mp hlookup

omit [UnicodeData] in
theorem loaded_or {v w : Json} (hv : Loaded v) (hw : Loaded w) :
  Loaded (v.or w)
  := by
  rw [Json.or]
  split
  · exact hv
  · exact hw

theorem readable_of_optionalInt {items : List (Str × Json)} (hitems : Loaded (.dict items))
    {name fieldName : String} {stored : Option ℤ} (h : optionalInt items name fieldName = .ok stored) :
  ∀ n ∈ stored, Readable n
  := by
  rw [optionalInt] at h
  split at h
  · cases h
    simp
  · obtain ⟨n, hn, rfl⟩ := map_eq_ok.mp h
    intro m hm
    rw [← Option.mem_some_iff.mp hm]
    apply readable_of_asInt (loaded_get hitems name) hn

theorem stored_of_normalizeBlock {rawBlock : Json} (hraw : Loaded rawBlock) {block : Block}
    (h : normalizeBlock rawBlock = .ok block) :
  block.Stored
  := by
  cases rawBlock with
  | dict items =>
      obtain ⟨index, hindex, h⟩ := bind_eq_ok.mp h
      obtain ⟨size, hsize, h⟩ := bind_eq_ok.mp h
      cases h
      exact ⟨readable_of_asInt (loaded_get hraw _) hindex, readable_of_optionalInt hraw hsize⟩
  | _ =>
      obtain ⟨index, hindex, h⟩ := bind_eq_ok.mp h
      cases h
      exact ⟨readable_of_asInt hraw hindex, by simp⟩

theorem stored_of_normalizeResource {rawResource : Json} (hraw : Loaded rawResource)
    {resource : Resource} (h : normalizeResource rawResource = .ok resource) :
  resource.Stored
  := by
  obtain ⟨items, rawBlocks, rfl, hr⟩ := exists_of_normalizeResource h
  constructor
  · have hblocks := loaded_or (loaded_get hraw "blocks") (loaded_get hraw "block_indexes")
    rw [hr.given, Loaded, loadedItems_iff] at hblocks
    have hnormalized := hr.blocks
    rw [normalizeBlocks_list, map_eq_pure_bind] at hnormalized
    obtain ⟨built, hbuilt, heq⟩ := bind_eq_ok.mp hnormalized
    intro block hblock
    rw [← Except.ok.inj heq] at hblock
    have hmem := (Keyed.firstWins_sublist Block.index [] built).subset
      ((Keyed.mem_sortBy Block.index).mp hblock)
    obtain ⟨rawBlock, hrawBlock, hfrom⟩ := exists_mem_of_mapM_eq_ok hbuilt hmem
    apply stored_of_normalizeBlock (hblocks rawBlock hrawBlock) hfrom
  · apply readable_of_optionalInt hraw hr.fileSize
  · apply readable_of_optionalInt hraw hr.blockSize

/-- The record of an update that was read can be read, if its times are floats. -/
theorem stored_of_updateRecord {nodeTtlSeconds : ℤ} {payload : Json} (hpayload : Loaded payload)
    {remoteHost : Option Str} {now : Time} {record : Record}
    (h : updateRecord nodeTtlSeconds payload remoteHost now = .ok record) (hnow : InRange now)
    (hexpires : InRange (now + nodeTtlSeconds * ticksPerSecond)) :
  record.Stored
  := by
  obtain ⟨items, raw, rfl, hr⟩ := exists_of_updateRecord h
  have hspec := updateRecord_spec h
  constructor
  · apply readable_of_lt (k := 5)
    · have hpos := hspec.valid.port_pos
      have hle := hspec.valid.port_le
      omega
    · decide
  · rw [hspec.lastSeenEpoch_eq]
    exact hnow
  · rw [hspec.expiresAtEpoch_eq]
    exact hexpires
  · intro resource hresource
    obtain ⟨rawResource, hraw, hfrom⟩ := exists_mem_of_mapM_eq_ok hr.resources hresource
    have hgiven : ∀ v, Loaded v → v = .list raw → Loaded rawResource := by
      rintro v hv rfl
      apply loadedItems_iff.mp hv rawResource hraw
    have hraw' := hr.given
    rw [rawResources] at hraw'
    apply stored_of_normalizeResource _ hfrom
    split at hraw'
    · cases hraw'
      cases hraw
    · rename_i resources hresources
      cases hraw'
      apply hgiven _ _ hresources
      rw [Json.getD]
      cases hlookup : items.lookup (Str.ofString "resources") with
      | none => apply loaded_get hpayload
      | some v =>
          apply loadedFields_iff.mp hpayload.1 (Str.ofString "resources", v)
          apply (Dict.lookup_eq_some_iff hpayload.2).mp hlookup
    · cases hraw'
  · rw [hr.stored]
    have hmetadata := loaded_get hpayload "metadata"
    rw [metadataOf]
    split
    · rename_i metadata heq
      rw [heq] at hmetadata
      exact hmetadata
    · exact ⟨trivial, List.nodup_nil⟩

/-! ### Runs -/

instance (t : Time) : Decidable (InRange t) :=
  inferInstanceAs (Decidable (_ < _))

variable [RecursionLimit]

/-- The body of an update was read from a text. -/
def Operation.Parsed (op : Operation) : Prop :=
  ∀ payload remoteHost, op = .updateNode payload remoteHost → ∃ body, loads body = .ok payload

/-- A call keeps a map that can be read, if its times are floats. -/
theorem Nodes.Stored.after {nodes : Nodes} (h : nodes.Stored) {op : Operation} (hop : op.Parsed)
    {nodeTtlSeconds : ℤ} {now : Time} (hnow : InRange now)
    (hexpires : InRange (now + nodeTtlSeconds * ticksPerSecond)) :
  Nodes.Stored (op.after nodeTtlSeconds nodes now)
  := by
  apply forall_after h
  intro payload remoteHost record heq hrecord
  obtain ⟨body, hbody⟩ := hop payload remoteHost heq
  apply stored_of_updateRecord (loaded_of_loads hbody) hrecord hnow hexpires

omit [UnicodeData] in
/-- A clean map is saved as a text. -/
theorem Nodes.Clean.exists_stateText_eq {nodes : Nodes} (h : nodes.Clean) (server : Server)
    (hpath : server.statePath = true) (now : Time) :
  ∃ text, stateText server.nodeTtlSeconds nodes now = .ok text
  := by
  have hsave := h.saveState_eq_ok server now
  rw [Server.saveState, if_pos hpath] at hsave
  obtain ⟨text, htext, -⟩ := map_eq_ok.mp hsave
  exact ⟨text, htext⟩

/-- The maps that a registry has in memory over calls and restarts. A new process reads the text of
some save, the last one or, if saves have failed since, an earlier one. -/
inductive Lives : Nodes → Prop where
  | start : Lives Dict.empty
  | call {nodes : Nodes} (h : Lives nodes) {op : Operation} (hop : op.Parsed) {nodeTtlSeconds : ℤ}
      {now : Time} (hnow : InRange now)
      (hexpires : InRange (now + nodeTtlSeconds * ticksPerSecond)) :
      Lives (op.after nodeTtlSeconds nodes now)
  | restart {nodes nodes' : Nodes} (h : Lives nodes) {nodeTtlSeconds : ℤ}
      (httl : Readable nodeTtlSeconds) {savedAt : Time} {text : String}
      (hsaved : stateText nodeTtlSeconds nodes savedAt = .ok text)
      (hloaded : loadState text = some nodes') : Lives nodes'

omit [UnicodeData] [RecursionLimit] in
/-- Sorting the metadata of a record keeps what can be read. -/
theorem Record.Stored.sortKeys {record : Record} (h : record.Stored) :
  record.sortKeys.Stored
  := by
  have hmetadata := loaded_sortKeys _ h.metadata
  rw [sortKeys_dict] at hmetadata
  exact ⟨h.port, h.lastSeenEpoch, h.expiresAtEpoch, h.resources, hmetadata⟩

/-- Every such map can be read. -/
theorem Lives.stored {nodes : Nodes} (h : Lives nodes) :
  nodes.Stored
  := by
  induction h with
  | start =>
      intro k record hk
      simp at hk
  | call _ hop hnow hexpires ih => apply ih.after hop hnow hexpires
  | restart _ httl hsaved hloaded ih =>
      obtain ⟨nodes', hnodes', hget⟩ := loadState_stateText httl ih hsaved
      obtain rfl := Option.some.inj (hloaded.symm.trans hnodes')
      intro k record hk
      rw [hget, Option.map_eq_some_iff] at hk
      obtain ⟨r, hr, rfl⟩ := hk
      apply (ih k r hr).sortKeys

/-- Whatever calls and restarts there have been, a process that starts from the text of a save has
exactly the records of the map that was saved, up to the order of dictionaries, and of these it keeps
exactly the ones that run. The running nodes share the same blocks. -/
theorem restart_from_text {nodes : Nodes} (h : Lives nodes) {nodeTtlSeconds : ℤ}
    (httl : Readable nodeTtlSeconds) {savedAt : Time} {text : String}
    (hsaved : stateText nodeTtlSeconds nodes savedAt = .ok text) (t : Time) :
  ∃ nodes', loadState text = some nodes' ∧ nodes'.Same nodes ∧
    Recovers (cleanupExpired nodes' t).2 t nodes ∧ nodes'.Shares t = nodes.Shares t
  := by
  obtain ⟨nodes', hloaded, hget⟩ := loadState_stateText httl h.stored hsaved
  have hsame : nodes'.Same nodes := by
    intro k
    rw [hget, Option.map_map]
    congr 1
    funext record
    apply sortKeys_record
  refine ⟨nodes', hloaded, hsame, ?_, ?_⟩
  · intro k
    rw [hsame.cleanupExpired t k, get?_cleanupExpired]
  · funext fileHash i
    simp only [Nodes.Shares, hget, Option.map_eq_some_iff]
    apply propext
    constructor
    · rintro ⟨k, _, ⟨record, hk, rfl⟩, ht, hholds⟩
      exact ⟨k, record, hk, ht, hholds⟩
    · rintro ⟨k, record, hk, ht, hholds⟩
      exact ⟨k, _, ⟨record, hk, rfl⟩, ht, hholds⟩

/-- Whatever calls and restarts there have been in two registries, what they save at a time is the
same text exactly when their maps are the same up to the order of dictionaries. In what order the
updates came and how often the registries were restarted cannot be seen in it. -/
theorem saved_alike_iff {nodes nodes' : Nodes} (h : Lives nodes) (h' : Lives nodes')
    {nodeTtlSeconds : ℤ} (httl : Readable nodeTtlSeconds) {savedAt : Time} {text : String}
    (hsaved : stateText nodeTtlSeconds nodes savedAt = .ok text) :
  stateText nodeTtlSeconds nodes' savedAt = .ok text ↔ nodes.Same nodes'
  := stateText_eq_iff httl h.stored h'.stored hsaved

end UnicodeData

/-! ### Registries of two nodes -/

/-- The update of another node without resources. -/
def updateOfSecondNode : Operation :=
  .updateNode (.dict [
    (Str.ofString "node_id", .str (Str.ofString "node-b")),
    (Str.ofString "host", .str (Str.ofString "127.0.0.1")),
    (Str.ofString "port", .int 9002)]) none

/-- Updates of this kind are parsed. -/
theorem exists_loads_eq (nodeId host : String) {port : ℤ} (hport : Readable port) :
  let _ := RecursionLimit.default
  ∃ body, loads body = .ok (.dict [
    (Str.ofString "node_id", .str (Str.ofString nodeId)),
    (Str.ofString "host", .str (Str.ofString host)),
    (Str.ofString "port", .int port)])
  := by
  intro _
  refine ⟨_, loads_text ?_ ?_ ?_⟩
  · refine ⟨⟨trivial, trivial, hport, trivial⟩, ?_⟩
    simp
  · simp [Json.Encodable, EncodableFields, Str.encodable_ofString]
  · exact (by simp : _ ≤ 7).trans RecursionLimit.le_loadDepth

theorem parsed_updateOfNodeA :
  let _ := RecursionLimit.default
  updateOfNodeA.Parsed
  := by
  rintro _ payload remoteHost ⟨⟩
  exact exists_loads_eq _ _ (readable_of_lt (k := 4) (by decide) (by decide))

theorem parsed_updateOfSecondNode :
  let _ := RecursionLimit.default
  updateOfSecondNode.Parsed
  := by
  rintro _ payload remoteHost ⟨⟩
  exact exists_loads_eq _ _ (readable_of_lt (k := 4) (by decide) (by decide))

/-- The record of such an update is clean. -/
theorem clean_of_plain {record : Record} (hid : record.nodeId.Encodable)
    (hhost : record.host.Encodable) (hresources : record.resources = [])
    (hmetadata : record.metadata = []) :
  let _ := RecursionLimit.default
  record.Clean
  := by
  intro _
  refine ⟨hid, hhost, ?_, ?_, ?_, ?_⟩
  · rw [hresources]
    simp
  · rw [hmetadata]
    trivial
  · rw [hmetadata]
    decide
  · rw [hmetadata]
    decide

theorem clean_updateOfNodeA :
  let _ := UnicodeData.ascii
  let _ := RecursionLimit.default
  ∀ payload remoteHost record, updateOfNodeA = .updateNode payload remoteHost →
    updateRecord 90 payload remoteHost 0 = .ok record → record.Clean
  := by
  rintro _ _ payload remoteHost record ⟨⟩ hrecord
  obtain rfl := Except.ok.inj hrecord
  exact clean_of_plain ⟨"node-a", rfl⟩ ⟨"127.0.0.1", rfl⟩ rfl rfl

theorem clean_updateOfSecondNode :
  let _ := UnicodeData.ascii
  let _ := RecursionLimit.default
  ∀ payload remoteHost record, updateOfSecondNode = .updateNode payload remoteHost →
    updateRecord 90 payload remoteHost 0 = .ok record → record.Clean
  := by
  rintro _ _ payload remoteHost record ⟨⟩ hrecord
  obtain rfl := Except.ok.inj hrecord
  exact clean_of_plain ⟨"node-b", rfl⟩ ⟨"127.0.0.1", rfl⟩ rfl rfl

/-- The update of a node with two files. -/
def updateOfNodeC : Operation :=
  .updateNode (.dict [
    (Str.ofString "node_id", .str (Str.ofString "node-c")),
    (Str.ofString "host", .str (Str.ofString "127.0.0.1")),
    (Str.ofString "port", .int 9003),
    (Str.ofString "resources", .list [
      .dict [
        (Str.ofString "file_hash", .str (Str.ofString "x")),
        (Str.ofString "file_name", .str (Str.ofString "one.txt")),
        (Str.ofString "blocks", .list [.int 0, .dict [
          (Str.ofString "index", .int 1),
          (Str.ofString "hash", .str (Str.ofString "h1"))]])],
      .dict [
        (Str.ofString "file_hash", .str (Str.ofString "y")),
        (Str.ofString "file_name", .str (Str.ofString "two.txt")),
        (Str.ofString "blocks", .list [.int 0])]]),
    (Str.ofString "metadata", .dict [
      (Str.ofString "version", .int 2),
      (Str.ofString "client", .str (Str.ofString "rust"))])]) none

theorem parsed_updateOfNodeC :
  let _ := RecursionLimit.default
  updateOfNodeC.Parsed
  := by
  rintro _ payload remoteHost ⟨⟩
  have hreadable : ∀ n ∈ [0, 1, 2, 9003], Readable n := by
    intro n hn
    apply readable_of_lt (k := 4) _ (by decide)
    revert n
    decide
  refine ⟨_, loads_text ?_ ?_ ?_⟩
  · simp only [Loaded, LoadedFields, LoadedItems, and_true, true_and, hreadable 0 (by decide),
      hreadable 1 (by decide), hreadable 2 (by decide), hreadable 9003 (by decide)]
    decide
  · simp [Json.Encodable, EncodableFields, EncodableItems, Str.encodable_ofString]
  · exact (by simp : _ ≤ 7).trans RecursionLimit.le_loadDepth

/-- The record that it makes is clean. -/
theorem clean_updateOfNodeC (now : Time) :
  let _ := UnicodeData.ascii
  let _ := RecursionLimit.default
  ∀ payload remoteHost record, updateOfNodeC = .updateNode payload remoteHost →
    updateRecord 90 payload remoteHost now = .ok record → record.Clean
  := by
  rintro _ _ payload remoteHost record ⟨⟩ hrecord
  have hresources : record.resources = [
      Resource.mk (Str.ofString "x") (Str.ofString "one.txt")
        [⟨0, none, none⟩, ⟨1, some (Str.ofString "h1"), none⟩] none none none,
      .mk (Str.ofString "y") (Str.ofString "two.txt") [⟨0, none, none⟩] none none none] := by
    obtain rfl := Except.ok.inj hrecord
    rfl
  have hmetadata : record.metadata = [
      (Str.ofString "version", .int 2), (Str.ofString "client", .str (Str.ofString "rust"))] := by
    obtain rfl := Except.ok.inj hrecord
    rfl
  refine ⟨⟨"node-c", ?_⟩, ⟨"127.0.0.1", ?_⟩, ?_, ?_, ?_, ?_⟩
  · obtain rfl := Except.ok.inj hrecord
    rfl
  · obtain rfl := Except.ok.inj hrecord
    rfl
  · rw [hresources]
    simp [Resource.encodable_iff, Block.Encodable, Str.encodable_ofString]
  · rw [hmetadata]
    simp [Json.Encodable, EncodableFields, Str.encodable_ofString]
  · rw [hmetadata]
    decide
  · rw [hmetadata]
    decide

/-- A map of two nodes is saved, and a new process starts when the lease of one of them has
ended. It has both records, and keeps the node that shares files. -/
theorem restart_from_text_twoNodes :
  let _ := UnicodeData.ascii
  let _ := RecursionLimit.default
  let nodes := updateOfNodeC.after 90 (updateOfNodeA.after 90 Dict.empty 0) (50 * ticksPerSecond)
  let t := 100 * ticksPerSecond
  ∃ text nodes', stateText 90 nodes (60 * ticksPerSecond) = .ok text ∧
    loadState text = some nodes' ∧ nodes'.Same nodes ∧
    (cleanupExpired nodes' t).2.get? (Str.ofString "node-a") = none ∧
    ((cleanupExpired nodes' t).2.get? (Str.ofString "node-c")).isSome ∧
    nodes'.Shares t (Str.ofString "x") 1
  := by
  intro _ _ nodes t
  have httl : Readable 90 := readable_of_lt (k := 2) (by decide) (by decide)
  have hlives : Lives nodes :=
    (Lives.start.call parsed_updateOfNodeA (by decide) (by decide)).call parsed_updateOfNodeC
      (by decide) (by decide)
  have hclean : Nodes.Clean nodes :=
    (Nodes.clean_empty.after clean_updateOfNodeA).after (clean_updateOfNodeC _)
  obtain ⟨text, htext⟩ := hclean.exists_stateText_eq savingServer rfl (60 * ticksPerSecond)
  obtain ⟨nodes', hloaded, hsame, hrecovers, hshares⟩ := restart_from_text hlives httl htext t
  refine ⟨text, nodes', htext, hloaded, hsame, ?_, ?_, ?_⟩
  · have hnone : Lease.live Record.expiresAtEpoch t nodes.get? (Str.ofString "node-a") = none := by
      decide +kernel
    have ha := hrecovers (Str.ofString "node-a")
    rw [hnone] at ha
    exact Option.map_eq_none_iff.mp ha
  · have hsome :
        (Lease.live Record.expiresAtEpoch t nodes.get? (Str.ofString "node-c")).isSome := by
      decide +kernel
    rw [← Option.isSome_map (f := Record.sortKeys), hrecovers, Option.isSome_map, hsome]
  · rw [hshares]
    refine ⟨Str.ofString "node-c", _, rfl, by decide, ?_⟩
    refine ⟨_, List.mem_cons_self, by decide, ?_⟩
    decide
/-- Two nodes come online, in either order. The maps are not equal, but the texts are. -/
theorem saved_alike_twoNodes :
  let _ := UnicodeData.ascii
  let _ := RecursionLimit.default
  let nodes := updateOfSecondNode.after 90 (updateOfNodeA.after 90 Dict.empty 0) 0
  let nodes' := updateOfNodeA.after 90 (updateOfSecondNode.after 90 Dict.empty 0) 0
  nodes.keys ≠ nodes'.keys ∧
    ∃ text, stateText 90 nodes 0 = .ok text ∧ stateText 90 nodes' 0 = .ok text
  := by
  intro _ _ nodes nodes'
  have httl : Readable 90 := readable_of_lt (k := 2) (by decide) (by decide)
  have hnow : InRange 0 ∧ InRange (0 + 90 * ticksPerSecond) := by decide
  have hlives : Lives nodes :=
    (Lives.start.call parsed_updateOfNodeA hnow.1 hnow.2).call parsed_updateOfSecondNode hnow.1
      hnow.2
  have hlives' : Lives nodes' :=
    (Lives.start.call parsed_updateOfSecondNode hnow.1 hnow.2).call parsed_updateOfNodeA hnow.1
      hnow.2
  have hclean : Nodes.Clean nodes :=
    (Nodes.clean_empty.after clean_updateOfNodeA).after clean_updateOfSecondNode
  have hsame : nodes.Same nodes' := by
    have hitems : nodes'.items = nodes.items.reverse := rfl
    intro k
    congr 1
    apply Option.ext
    intro record
    rw [Dict.get?_eq_some_iff, Dict.get?_eq_some_iff, hitems, List.mem_reverse]
  obtain ⟨text, htext⟩ := hclean.exists_stateText_eq savingServer rfl 0
  constructor
  · decide
  · exact ⟨text, htext, (saved_alike_iff hlives hlives' httl htext).mpr hsame⟩

end Tracker
