import ResourceDistribution.Tracker.Arrival

/-!
# Finding files by name

`find_file_locations` looks for a name among the entries of the file index. An entry has the name
that its first holder gives the file, so a file that some node publishes under another name is not
found under that one. In all states that the registry reaches (`Reachable`), every published name
is found exactly when no file has two.
-/

open Python

namespace Tracker

/-! ### Reachable maps -/

section UnicodeData

variable [UnicodeData] [JsonCodec]

/-- The maps of nodes that a registry reaches: without a state path, by any history of calls, and
with a state path, by any calls, failing saves, ends of the process and new processes. -/
inductive Reachable (nodeTtlSeconds : ℤ) : Nodes → Prop where
  | inMemory (history : History) : Reachable nodeTtlSeconds (runAll nodeTtlSeconds history)
  | withFile {events : List Event} {w : World}
      (hrun : (World.start nodeTtlSeconds).run events = some w) : Reachable nodeTtlSeconds w.nodes

theorem Reachable.valid {nodeTtlSeconds : ℤ} {nodes : Nodes}
    (h : Reachable nodeTtlSeconds nodes) :
  nodes.Valid
  := by
  cases h with
  | inMemory history => apply valid_runAll
  | @withFile events w hrun =>
      obtain ⟨w', hw', hvalid⟩ := exists_run_valid nodeTtlSeconds events
      obtain rfl := Option.some.inj (hrun.symm.trans hw')
      exact hvalid.1

/-! ### What is stored of resources -/

omit [UnicodeData] [JsonCodec] in
/-- The resources of a record do not depend on the order of dictionaries. -/
theorem Nodes.Same.exists_resources_eq {nodes nodes' : Nodes} (h : nodes.Same nodes') {k : Str}
    {record : Record} (hk : nodes.get? k = some record) :
  ∃ record', nodes'.get? k = some record' ∧ record'.resources = record.resources
  := by
  have hsame := h k
  rw [hk, Option.map_some] at hsame
  obtain ⟨record', hk', hsort⟩ := Option.map_eq_some_iff.mp hsame.symm
  use record', hk'
  have hresources := congrArg Record.resources hsort
  exact hresources

omit [JsonCodec] in
/-- If the call is an update that is accepted, its resources satisfy `Q`. -/
def Operation.Gives (Q : List Resource → Prop) (op : Operation) : Prop :=
  ∀ payload remoteHost nodeTtlSeconds now record, op = .updateNode payload remoteHost →
    updateRecord nodeTtlSeconds payload remoteHost now = .ok record → Q record.resources

variable {Q : List Resource → Prop}

omit [JsonCodec] in
/-- What holds of the resources of every accepted update holds of those that are stored. -/
theorem forall_resources_runAll {nodeTtlSeconds : ℤ} {history : History}
    (h : ∀ i ∈ history, i.1.Gives Q) :
  ∀ k record, (runAll nodeTtlSeconds history).get? k = some record → Q record.resources
  := by
  apply forall_runAll
  intro i hi payload remoteHost record heq hrecord
  apply h i hi payload remoteHost nodeTtlSeconds i.2 record heq hrecord

/-- So it does with a state file, whatever happens. -/
theorem exists_run_resources (nodeTtlSeconds : ℤ) {events : List Event}
    (h : ∀ event ∈ events, event.operation.Gives Q) :
  ∃ w, (World.start nodeTtlSeconds).run events = some w ∧
    ∀ k record, w.nodes.get? k = some record → Q record.resources
  := by
  have hempty : ∀ k record, (Dict.empty : Nodes).get? k = some record → Q record.resources := by
    intro k record hk
    cases hk
  obtain ⟨w, hw, hnodes, -⟩ := exists_run_holds
    (P := fun nodes => ∀ k record, nodes.get? k = some record → Q record.resources) hempty
    (by
      intro nodes nodes' hsame hnodes k record hk
      obtain ⟨record', hk', heq⟩ := hsame.exists_resources_eq hk
      rw [← heq]
      apply hnodes k record' hk')
    nodeTtlSeconds
    (by
      intro event hevent nodeTtlSeconds nodes now hnodes
      apply forall_after hnodes
      intro payload remoteHost record heq hrecord
      apply h event hevent payload remoteHost nodeTtlSeconds now record heq hrecord)
  exact ⟨w, hw, hnodes⟩

/-- What holds of the resources of all updates that may be accepted holds of those that are stored. -/
theorem Reachable.resources (hQ : ∀ op : Operation, op.Gives Q) {nodeTtlSeconds : ℤ} {nodes : Nodes}
    (h : Reachable nodeTtlSeconds nodes) :
  ∀ k record, nodes.get? k = some record → Q record.resources
  := by
  cases h with
  | inMemory history => apply forall_resources_runAll fun i _ => hQ i.1
  | @withFile events w hrun =>
      obtain ⟨w', hw', hnodes⟩ := exists_run_resources (Q := Q) nodeTtlSeconds
        fun event (_ : event ∈ events) => hQ event.operation
      obtain rfl := Option.some.inj (hrun.symm.trans hw')
      exact hnodes

end UnicodeData

/-! ### Names -/

/-- The resource is found by its name, with the node among its peers. -/
def FoundByName (nodes : Nodes) (t : Time) (nodeId : Str) (resource : Resource) : Prop :=
  ∃ entries after, findFileLocations nodes none (some resource.fileName) t = .ok (entries, after) ∧
    ∃ entry ∈ entries, entry.fileHash = resource.fileHash ∧
      ∃ peer ∈ entry.peers, peer.nodeId = nodeId

/-- Every resource of every node that runs at `t` is found by its name. -/
def AllFoundByName (nodes : Nodes) (t : Time) : Prop :=
  ∀ k record, nodes.get? k = some record → t < record.expiresAtEpoch →
    ∀ resource ∈ record.resources, FoundByName nodes t k resource

/-- The nodes that run at `t` give a file one name only. -/
def OneName (nodes : Nodes) (t : Time) : Prop :=
  ∀ k record, nodes.get? k = some record → t < record.expiresAtEpoch →
    ∀ k' record', nodes.get? k' = some record' → t < record'.expiresAtEpoch →
      ∀ resource ∈ record.resources, ∀ resource' ∈ record'.resources,
        resource.fileHash = resource'.fileHash → resource.fileName = resource'.fileName

/-- What is left by a cleanup are the records that run. -/
theorem get?_cleanupExpired_eq_some_iff {nodes : Nodes} {t : Time} {k : Str} {record : Record} :
  (cleanupExpired nodes t).2.get? k = some record
    ↔ nodes.get? k = some record ∧ t < record.expiresAtEpoch
  := by
  rw [get?_cleanupExpired, Lease.live, Option.filter_eq_some_iff, decide_eq_true_iff]

/-- An entry has the name of some resource with its hash. -/
theorem exists_resource_of_get? {nodes : Nodes} {fileHash : Str} {entry : IndexEntry}
    (hget : (fileIndex nodes).get? fileHash = some entry) :
  ∃ k record, nodes.get? k = some record ∧ ∃ resource ∈ record.resources,
    resource.fileHash = fileHash ∧ resource.fileName = entry.fileName
  := by
  obtain ⟨record, hrecord, hgiven⟩ :=
    List.exists_of_findSome?_eq_some (entrySpec_of_get? hget).fileName_eq
  obtain ⟨resource, hresource, hname⟩ := List.exists_of_findSome?_eq_some hgiven
  obtain ⟨⟨k, _⟩, hitem, rfl⟩ := List.mem_map.mp hrecord
  obtain ⟨hmem, hhash⟩ := List.mem_filter.mp hresource
  exact ⟨k, _, Dict.get?_eq_some_iff.mpr hitem, resource, hmem, of_decide_eq_true hhash,
    Option.some.inj hname⟩

/-- The entry of a resource: it lists the node, and its name is the one of some resource with that
hash. -/
theorem exists_entry_of_mem_resources {nodes : Nodes} {k : Str} {record : Record}
    {resource : Resource} (hvalid : nodes.Valid) (hk : nodes.get? k = some record)
    (hresource : resource ∈ record.resources) :
  ∃ entry, (fileIndex nodes).get? resource.fileHash = some entry ∧
    (∃ peer ∈ entry.peers, peer.nodeId = k) ∧
    ∃ k' record', nodes.get? k' = some record' ∧ ∃ resource' ∈ record'.resources,
      resource'.fileHash = resource.fileHash ∧ resource'.fileName = entry.fileName
  := by
  have hvalues : record ∈ nodes.values :=
    List.mem_map.mpr ⟨(k, record), Dict.get?_eq_some_iff.mp hk, rfl⟩
  have hholds : resource ∈ record.resourcesOf resource.fileHash := by
    rw [Record.resourcesOf, List.mem_filter]
    use hresource
    apply decide_eq_true rfl
  have hsome : ((fileIndex nodes).get? resource.fileHash).isSome := by
    rw [isSome_get?_fileIndex_iff, List.findSome?_isSome_iff]
    use record, hvalues
    rw [Record.given, List.findSome?_isSome_iff]
    use resource, hholds
    rfl
  obtain ⟨entry, hget⟩ := Option.isSome_iff_exists.mp hsome
  have hspec := entrySpec_of_get? hget
  use entry, hget
  constructor
  · use peerOf record resource
    constructor
    · rw [hspec.peers_eq]
      apply List.mem_flatMap.mpr ⟨record, hvalues, List.mem_map.mpr ⟨resource, hholds, rfl⟩⟩
    · apply (hvalid k record hk).nodeId_eq
  · apply exists_resource_of_get? hget

/-- A query by a name that needs no stripping finds the entries that have the name. -/
theorem findFileLocations_name (nodes : Nodes) (t : Time) {name : Str} (hne : name ≠ [])
    (htrimmed : name.Trimmed) :
  ∃ entries, findFileLocations nodes none (some name) t
      = .ok (entries, (cleanupExpired nodes t).2) ∧
    ∀ entry, entry ∈ entries ↔
      entry ∈ (fileIndex (cleanupExpired nodes t).2).values ∧ entry.fileName = name
  := by
  have hstrip : name.strip = name := Str.strip_eq_self_iff.mpr htrimmed
  have hgiven : ¬ (criterion none = none ∧ criterion (some name) = none) := by
    rw [criterion_eq_none_iff, criterion_eq_none_iff]
    intro h
    apply hne (h.2 name rfl)
  obtain ⟨entries, hfind⟩ := exists_findFileLocations_eq_ok nodes t hgiven
  use entries, hfind
  intro entry
  rw [mem_of_findFileLocations_eq_ok hfind]
  simp [usable, Option.filter_some, hstrip, hne]

section UnicodeData

variable [UnicodeData] [JsonCodec]

/-- In every state that the registry reaches and at every time, every resource of every node that
runs is found by its name exactly when no file has two names. -/
theorem allFoundByName_iff (nodeTtlSeconds : ℤ) (nodes : Nodes)
    (hreachable : Reachable nodeTtlSeconds nodes) (t : Time) :
  AllFoundByName nodes t ↔ OneName nodes t
  := by
  have hvalid := hreachable.valid
  have hlive := hvalid.cleanupExpired t
  constructor
  · intro hall k record hk ht k' record' hk' ht' resource hresource resource' hresource' hhash
    have hname : ∀ {k record resource}, nodes.get? k = some record → t < record.expiresAtEpoch →
        resource ∈ record.resources →
        ∃ entry, (fileIndex (cleanupExpired nodes t).2).get? resource.fileHash = some entry ∧
          entry.fileName = resource.fileName := by
      intro k record resource hk ht hresource
      obtain ⟨entries, after, hfind, entry, hentry, hhash, -⟩ :=
        hall k record hk ht resource hresource
      have hresources := (hvalid k record hk).resources_valid resource hresource
      obtain ⟨entries', hfind', hmem⟩ := findFileLocations_name nodes t
        hresources.fileName_ne_nil hresources.fileName_trimmed
      obtain ⟨rfl, -⟩ := Prod.mk.inj (Except.ok.inj (hfind.symm.trans hfind'))
      obtain ⟨hvalue, hname⟩ := (hmem entry).mp hentry
      obtain ⟨⟨h, _⟩, hitem, rfl⟩ := List.mem_map.mp hvalue
      rw [← hhash, fileHash_of_mem_fileIndex hitem]
      exact ⟨_, Dict.get?_eq_some_iff.mpr hitem, hname⟩
    obtain ⟨entry, hget, hentry⟩ := hname hk ht hresource
    obtain ⟨entry', hget', hentry'⟩ := hname hk' ht' hresource'
    rw [hhash] at hget
    obtain rfl := Option.some.inj (hget.symm.trans hget')
    rw [← hentry, hentry']
  · intro hone k record hk ht resource hresource
    have hresources := (hvalid k record hk).resources_valid resource hresource
    obtain ⟨entries, hfind, hmem⟩ := findFileLocations_name nodes t
      hresources.fileName_ne_nil hresources.fileName_trimmed
    obtain ⟨entry, hget, hpeer, k', record', hk', resource', hresource', hhash', hname'⟩ :=
      exists_entry_of_mem_resources hlive (get?_cleanupExpired_eq_some_iff.mpr ⟨hk, ht⟩) hresource
    obtain ⟨hk', ht'⟩ := get?_cleanupExpired_eq_some_iff.mp hk'
    refine ⟨entries, _, hfind, entry, ?_, ?_, hpeer⟩
    · rw [hmem, ← hname']
      constructor
      · apply List.mem_map.mpr ⟨_, Dict.get?_eq_some_iff.mp hget, rfl⟩
      · apply hone k' record' hk' ht' k record hk ht resource' hresource' resource hresource hhash'
    · apply fileHash_of_mem_fileIndex (Dict.get?_eq_some_iff.mp hget)

end UnicodeData

/-- Of two nodes that hold the same file under one name, each is found by it. -/
theorem allFoundByName_sameName :
  let _ := UnicodeData.ascii
  let updates := [updateOfHolder "a" "one.txt", updateOfHolder "b" "one.txt"]
  AllFoundByName (runAll 90 (historyOf (updates.map fun update => (update, 0)))) 0
  := by
  intro _ updates
  let _ := JsonCodec.whole
  apply (allFoundByName_iff 90 _ (.inMemory _) 0).mpr
  have hname : ∀ record ∈ (runAll 90 (historyOf (updates.map fun update => (update, 0)))).values,
      ∀ resource ∈ record.resources, resource.fileName = Str.ofString "one.txt" := by
    decide
  intro k record hk _ k' record' hk' _ resource hresource resource' hresource' _
  rw [hname record (List.mem_map_of_mem (Dict.get?_eq_some_iff.mp hk)) resource hresource]
  rw [hname record' (List.mem_map_of_mem (Dict.get?_eq_some_iff.mp hk')) resource' hresource']

/-- It is not the case that every published name is found: of two names of a file, only one is. -/
theorem not_allFoundByName :
  let _ := UnicodeData.ascii
  let _ := JsonCodec.whole
  ¬ ∀ nodes, Reachable 90 nodes → ∀ t, AllFoundByName nodes t
  := by
  intro _ _ hall
  let nodes := runAll 90 (historyOf (twoHolders.map fun update => (update, 0)))
  obtain ⟨entries, after, hfind, entry, hentry, -⟩ :=
    hall nodes (.inMemory _) 0 (Str.ofString "b") _ rfl (by decide) _ List.mem_cons_self
  have hnone : ((findFileLocations nodes none (some (Str.ofString "two.txt")) 0).toOption.map
      fun answer => answer.1) = some [] := by
    decide
  have hentries : some entries = some [] := by
    rw [← hnone]
    exact (congrArg (fun answer => answer.toOption.map fun answer => answer.1) hfind).symm
  rw [Option.some.inj hentries] at hentry
  simp at hentry

end Tracker
