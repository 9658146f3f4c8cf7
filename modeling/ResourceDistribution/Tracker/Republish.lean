import ResourceDistribution.Tracker.NormalForm
import ResourceDistribution.Tracker.Refusals

/-!
# Publishing again what is shown

A client may send back the resources that `list_nodes` or `get_node` show of a node. They are stored as
they are, unless one of them has no blocks. The registry accepts such a resource when its empty list
stands under `block_indexes`, and shows it under `blocks`, where `_normalize_resource` takes an empty
list for a missing one (`idempotent_iff`).
-/

open Python Fallible

namespace Tracker

/-- The resource gives a list of blocks, or of indexes, that is not empty. -/
def GivesBlocks (rawResource : Json) : Prop :=
  match rawResource with
  | .dict items =>
      (Json.get items "blocks").truthy = true ∨ (Json.get items "block_indexes").truthy = true
  | _ => False

section UnicodeData

variable [UnicodeData]

/-- If the call is an update that is accepted, all its resources give blocks. -/
def Operation.GivesBlocks (op : Operation) : Prop :=
  ∀ items remoteHost raw, op = .updateNode (.dict items) remoteHost →
    UpdateAccepted items remoteHost → rawResources items = .ok raw →
    ∀ rawResource ∈ raw, Tracker.GivesBlocks rawResource

/-- A resource that is accepted has blocks exactly when it gives some. -/
theorem blocks_ne_nil_iff {rawResource : Json} {r : Resource}
    (h : normalizeResource rawResource = .ok r) :
  r.blocks ≠ [] ↔ GivesBlocks rawResource
  := by
  obtain ⟨items, rawBlocks, rfl, hr⟩ := exists_of_normalizeResource h
  have htruthy : ∀ a b : Json, (a.or b).truthy = true ↔ a.truthy = true ∨ b.truthy = true := by
    intro a b
    rw [Json.or]
    split
    · rename_i ha
      simp [ha]
    · rename_i ha
      simp [ha]
  rw [GivesBlocks, ← htruthy, hr.given, normalizeBlocks_ne_nil_iff hr.blocks, Json.truthy]
  simp

/-! ### The registry -/

/-- An update with the resources of the record, the rest of which is acceptable, stores them as they
are. -/
def Record.Republishable (record : Record) : Prop :=
  ∀ nodeTtlSeconds nodes items remoteHost now,
    rawResources items = .ok (record.resources.map resourceJson) → HostAccepted items remoteHost →
    Succeeds (asPort items) →
    ∃ response record',
      updateNode nodeTtlSeconds nodes (.dict items) remoteHost now
        = .ok (response, nodes.set record'.nodeId record') ∧
      record'.resources = record.resources

/-- Accepted updates give resources in normal form. -/
theorem gives_normal (op : Operation) :
  op.Gives fun resources => ∀ r ∈ resources, r.Normal
  := by
  intro payload remoteHost nodeTtlSeconds now record _ hrecord
  obtain ⟨items, raw, rfl, hr⟩ := exists_of_updateRecord hrecord
  apply forall_of_mapM_eq_ok (fun _ _ => normal_of_normalizeResource) hr.resources

/-- Updates of resources that give blocks give resources with blocks, in normal form. -/
theorem Operation.GivesBlocks.gives {op : Operation} (h : op.GivesBlocks) :
  op.Gives fun resources => ∀ r ∈ resources, r.Normal ∧ r.blocks ≠ []
  := by
  intro payload remoteHost nodeTtlSeconds now record heq hrecord r hmem
  use gives_normal op payload remoteHost nodeTtlSeconds now record heq hrecord r hmem
  obtain ⟨items, raw, rfl, hr⟩ := exists_of_updateRecord hrecord
  obtain ⟨before, after, hsplit⟩ := List.append_of_mem hmem
  have hresources := hr.resources
  rw [hsplit] at hresources
  obtain ⟨l₁, rawResource, l₂, rfl, -, hnormalized⟩ := exists_append_of_mapM_eq_ok hresources
  apply (blocks_ne_nil_iff hnormalized).mpr
  apply h items remoteHost _ heq (succeeds_updateRecord_iff.mp ⟨record, hrecord⟩) hr.given
  apply List.mem_append_right l₁ List.mem_cons_self

/-- Resources in normal form are accepted again exactly when all have blocks. -/
theorem succeeds_resourceJson_iff {r : Resource} (h : r.Normal) :
  Succeeds (normalizeResource (resourceJson r)) ↔ r.blocks ≠ []
  := by
  rw [normalizeResource_resourceJson h]
  split
  · rename_i hblocks
    simp [Succeeds, invalid, hblocks]
  · rename_i hblocks
    simp [Succeeds, hblocks]

/-- A record whose resources are in normal form can be published again exactly when they have
blocks. -/
theorem republishable_iff {record : Record} (h : ∀ r ∈ record.resources, r.Normal) :
  record.Republishable ↔ ∀ r ∈ record.resources, r.blocks ≠ []
  := by
  constructor
  · intro hagain r hr
    let items := updateItems (Str.ofString "node-a") (.int 9001)
      ++ [(Str.ofString "resources", .list (record.resources.map resourceJson))]
    have hraw : rawResources items = .ok (record.resources.map resourceJson) := by
      simp [items, updateItems, rawResources]
    obtain ⟨response, record', hupdate, -⟩ := hagain 90 Dict.empty items none 0 hraw
      ⟨⟨_, rfl⟩, ⟨_, rfl⟩⟩ ⟨_, rfl⟩
    obtain ⟨record'', hrecord, -⟩ := bind_eq_ok.mp hupdate
    obtain ⟨-, -, raw, hraw', hall⟩ := succeeds_updateRecord_iff.mp ⟨record'', hrecord⟩
    rw [hraw] at hraw'
    obtain rfl := Except.ok.inj hraw'
    exact (succeeds_resourceJson_iff (h r hr)).mp (hall _ (List.mem_map_of_mem hr))
  · intro hblocks nodeTtlSeconds nodes items remoteHost now hraw hhost hport
    have hall : ∀ rawResource ∈ record.resources.map resourceJson,
        Succeeds (normalizeResource rawResource) := by
      intro rawResource hmem
      obtain ⟨r, hr, rfl⟩ := List.mem_map.mp hmem
      exact (succeeds_resourceJson_iff (h r hr)).mpr (hblocks r hr)
    obtain ⟨record', hrecord⟩ := succeeds_updateRecord_iff.mpr ⟨hhost, hport, _, hraw, hall⟩
    refine ⟨_, record', updateNode_eq_ok nodes hrecord, ?_⟩
    obtain ⟨_, raw, ⟨⟩, hr⟩ := exists_of_updateRecord hrecord
    have hresources := hr.resources
    obtain rfl := Except.ok.inj (hraw.symm.trans hr.given)
    have hsame : (record.resources.map resourceJson).mapM normalizeResource
        = .ok record.resources := by
      rw [mapM_eq_ok_iff, List.forall₂_map_left_iff, List.forall₂_same]
      intro r hr
      rw [normalizeResource_resourceJson (h r hr), if_neg (hblocks r hr)]
    rw [hsame] at hresources
    exact (Except.ok.inj hresources).symm

/-- Normalising is idempotent on the resources that give blocks, and on no other that is accepted. In
all states that the registry reaches, what is shown of a node can be published again exactly when its
resources have blocks, and so it can in the states of every run whose updates give blocks for every
resource. -/
theorem idempotent_iff [JsonCodec] (nodeTtlSeconds : ℤ) :
  (∀ rawResource resource, normalizeResource rawResource = .ok resource →
      (normalizeResource (resourceJson resource) = .ok resource ↔ GivesBlocks rawResource)) ∧
    (∀ nodes, Reachable nodeTtlSeconds nodes → ∀ k record, nodes.get? k = some record →
      (record.Republishable ↔ ∀ resource ∈ record.resources, resource.blocks ≠ [])) ∧
    (∀ history, (∀ i ∈ history, i.1.GivesBlocks) →
      ∀ k record, (runAll nodeTtlSeconds history).get? k = some record → record.Republishable) ∧
    ∀ events : List Event, (∀ event ∈ events, event.operation.GivesBlocks) →
      ∃ w, (World.start nodeTtlSeconds).run events = some w ∧
        ∀ k record, w.nodes.get? k = some record → record.Republishable
  := by
  have hrepublishable : ∀ record : Record,
      (∀ r ∈ record.resources, r.Normal ∧ r.blocks ≠ []) → record.Republishable := by
    intro record h
    apply (republishable_iff fun r hr => (h r hr).1).mpr
    intro r hr
    exact (h r hr).2
  refine ⟨?_, ?_, ?_, ?_⟩
  · intro rawResource resource h
    rw [← blocks_ne_nil_iff h, normalizeResource_resourceJson (normal_of_normalizeResource h)]
    split
    · rename_i hblocks
      simp [invalid, hblocks]
    · rename_i hblocks
      simp [hblocks]
  · intro nodes hreachable k record hk
    apply republishable_iff
    apply hreachable.resources gives_normal k record hk
  · intro history hgives k record hk
    apply hrepublishable
    apply forall_resources_runAll (fun i hi => (hgives i hi).gives) k record hk
  · intro events hgives
    obtain ⟨w, hw, hnodes⟩ :=
      exists_run_resources nodeTtlSeconds fun event hevent => (hgives event hevent).gives
    use w, hw
    intro k record hk
    apply hrepublishable record (hnodes k record hk)

end UnicodeData

/-! ### A resource without blocks -/

/-- A resource that gives the indexes of its blocks. -/
def indexesOnly (blockIndexes : List Json) : Json :=
  .dict [
    (Str.ofString "file_hash", .str (Str.ofString "h")),
    (Str.ofString "file_name", .str (Str.ofString "empty.txt")),
    (Str.ofString "block_indexes", .list blockIndexes)]

/-- The resource `h` with some blocks, as it is stored. -/
def emptyText (blocks : List Block) : Resource :=
  ⟨Str.ofString "h", Str.ofString "empty.txt", blocks, none, none, none⟩

/-- The update of a node with two files, of which the indexes of the blocks are given. -/
def updateOfIndexes : Operation :=
  .updateNode (.dict [
    (Str.ofString "node_id", .str (Str.ofString "node-a")),
    (Str.ofString "host", .str (Str.ofString "127.0.0.1")),
    (Str.ofString "port", .int 9001),
    (Str.ofString "resources", .list [indexesOnly [.int 0], indexesOnly [.int 2, .int 1]])]) none

/-- Resources that give indexes are accepted, shown and accepted again. -/
theorem idempotent_indexes :
  let _ := UnicodeData.ascii
  let resource := emptyText [⟨1, none, none⟩, ⟨2, none, none⟩]
  normalizeResource (resourceJson resource) = .ok resource ∧
    ∀ k record, (runAll 90 [(updateOfIndexes, 0)]).get? k = some record → record.Republishable
  := by
  intro _ resource
  let _ := JsonCodec.whole
  obtain ⟨hresource, -, hrun, -⟩ := idempotent_iff 90
  constructor
  · exact (hresource (indexesOnly [.int 2, .int 1]) resource rfl).mpr (.inr rfl)
  · apply hrun
    intro i hi items remoteHost raw hop _ hraw
    rw [List.mem_singleton.mp hi] at hop
    cases hop
    obtain rfl := Except.ok.inj hraw
    intro rawResource hmem
    simp only [List.mem_cons, List.not_mem_nil, or_false] at hmem
    rcases hmem with rfl | rfl
    · exact .inr rfl
    · exact .inr rfl

/-- It is not the case that normalising is idempotent: a resource whose list of indexes is empty is
accepted, but not as it is shown. -/
theorem not_idempotent :
  let _ := UnicodeData.ascii
  ¬ ∀ rawResource resource, normalizeResource rawResource = .ok resource →
    normalizeResource (resourceJson resource) = .ok resource
  := by
  intro _ hall
  have hrefused : normalizeResource (resourceJson (emptyText []))
      = invalid "each resource must include blocks" := rfl
  have hagain := hall (indexesOnly []) (emptyText []) rfl
  rw [hrefused] at hagain
  cases hagain

end Tracker
