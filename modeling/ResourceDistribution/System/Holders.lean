import ResourceDistribution.System.Lookup
import ResourceDistribution.System.Session

/-!
# Whom a lookup names

After a session of nodes that publish, list and go offline, whoever looks up a target is told of the
nodes that stand by an index with the file, with their addresses and blocks, and of no others; and
the hash of every file that some node stands by is found (`finds_runSession`).
-/

open Python Json Fallible Codec Node Tracker

namespace System

/-! ### Publications -/

/-- The peers that some publications make for a file hash, one for each resource. -/
def peersFor (nodeTtlSeconds : ℤ) (announced : List (Exchange × ResourceIndex))
    (fileHash : String) : List Peer :=
  announced.flatMap fun i =>
    (i.2.resources.filter fun resource => resource.fileHash = fileHash).map fun resource =>
      i.1.peer nodeTtlSeconds (published resource)

/-- What is looked up where some publications are announced: what is found is one of their files,
under the name that one of them gives it, stripped, and by its hash or by this name, with the peers
that they make for it; and every hash of theirs is found. -/
structure Finds (nodeTtlSeconds : ℤ) (announced : List (Exchange × ResourceIndex))
    (found : String → Except TargetError FileLocation) : Prop where
  target_eq : ∀ target location, found target = .ok location →
    Str.ofString location.fileHash = (Str.ofString target).strip ∨
      Str.ofString location.fileName = (Str.ofString target).strip
  exists_announced : ∀ target location, found target = .ok location →
    ∃ i ∈ announced, ∃ resource ∈ i.2.resources, resource.fileHash = location.fileHash ∧
      Str.ofString location.fileName = (Str.ofString resource.fileName).strip
  peers_eq : ∀ target location, found target = .ok location →
    location.peers.map peerMeant = peersFor nodeTtlSeconds announced location.fileHash
  hash_found : ∀ i ∈ announced, ∀ resource ∈ i.2.resources, ∃ location,
    found resource.fileHash = .ok location ∧ location.fileHash = resource.fileHash

/-- The peers that a map lists for a hash are those that its publications make. -/
theorem Keeps.flatMap_peers {nodeTtlSeconds : ℤ} {announced : List (Exchange × ResourceIndex)}
    {nodes : Nodes} (h : Keeps nodeTtlSeconds announced nodes) (fileHash : String) :
  nodes.values.flatMap (Record.peers (Str.ofString fileHash))
    = peersFor nodeTtlSeconds announced fileHash
  := by
  have hleft : nodes.values.flatMap (Record.peers (Str.ofString fileHash))
      = (nodes.values.map fun record => (peerOf record, record.resources)).flatMap fun p =>
          (p.2.filter fun resource => resource.fileHash = Str.ofString fileHash).map p.1 := by
    rw [List.flatMap_map]
    rfl
  rw [hleft, h, List.flatMap_map, peersFor]
  apply List.flatMap_congr
  intro i _
  rw [List.filter_map, List.map_map]
  congr 1
  apply List.filter_congr
  intro resource _
  simp only [Function.comp_apply, fileHash_published_iff]

/-- A digest is not blank. -/
theorem asked_of_isDigest {s : String} (h : IsDigest s) :
  Asked s ∧ (Str.ofString s).strip = Str.ofString s
  := by
  have hdigits : (hexDigits.all fun c => !isWhitespace c) = true := by decide
  have htrim : trim s = s := by
    apply trim_of_forall
    intro c hc
    simpa using List.all_eq_true.mp hdigits c (h.2 c hc)
  have hstrip : (Str.ofString s).strip = Str.ofString s :=
    Str.strip_eq_self_iff.mpr (trimmed_of_isDigest h)
  have hne := ofString_ne_nil_of_isDigest h
  refine ⟨⟨?_, ?_⟩, hstrip⟩
  · rw [htrim]
    rintro rfl
    exact hne rfl
  · rwa [hstrip]

/-! ### What is found -/

/-- What is found is live, at one of the two queries, and is what was asked for. -/
theorem LooksUp.of_ok {first second : List IndexEntry} {target : String} {location : FileLocation}
    (h : LooksUp first second target (.ok location)) :
  (entryMeant location ∈ first ∧ Str.ofString location.fileHash = (Str.ofString target).strip) ∨
    (entryMeant location ∈ second ∧ Str.ofString location.fileName = (Str.ofString target).strip)
  := by
  cases h with
  | byHash _ _ hhash =>
      left
      have hmem : entryMeant location ∈ withHash first (Str.ofString target).strip := by
        rw [hhash]
        apply List.mem_singleton_self
      obtain ⟨hmem, heq⟩ := List.mem_filter.mp hmem
      exact ⟨hmem, of_decide_eq_true heq⟩
  | byName _ _ _ hname =>
      right
      have hmem : entryMeant location ∈ withName second (Str.ofString target).strip := by
        rw [hname]
        apply List.mem_singleton_self
      obtain ⟨hmem, heq⟩ := List.mem_filter.mp hmem
      exact ⟨hmem, of_decide_eq_true heq⟩

/-- What has a hash that is live is found by it. -/
theorem LooksUp.exists_of_mem {first second : List IndexEntry} {target : String}
    {result : Except TargetError FileLocation} (h : LooksUp first second target result)
    (hasked : Asked target) {entry : IndexEntry} (hentry : entry ∈ first)
    (heq : entry.fileHash = (Str.ofString target).strip) :
  ∃ location, result = .ok location ∧
    Str.ofString location.fileHash = (Str.ofString target).strip
  := by
  have hmem : entry ∈ withHash first (Str.ofString target).strip :=
    List.mem_filter.mpr ⟨hentry, decide_eq_true heq⟩
  cases h with
  | empty htrim => cases hasked.1 htrim
  | blank _ hblank => cases hasked.2 hblank
  | byHash location _ hhash =>
      use location, rfl
      rw [hhash] at hmem
      rw [← heq, List.mem_singleton.mp hmem]
      rfl
  | byName _ _ hhash => rw [hhash] at hmem; cases hmem
  | unmatched _ hhash => rw [hhash] at hmem; cases hmem
  | ambiguous _ hhash => rw [hhash] at hmem; cases hmem

section RecursionLimit

variable [RecursionLimit] [UnicodeData] {server : Server} {session : List Exchange}

omit [RecursionLimit] [UnicodeData] in
/-- A node can read whatever an answer shows of what another has published. -/
theorem readableResource_published {resource : FileResource} (hfits : ResourceFits resource) :
  ReadableResource (published resource)
  := by
  have hencodable := encodable_published resource
  constructor
  · exact hencodable.fileHash
  · exact hencodable.fileName
  · intro stored hstored
    obtain ⟨block, hblock, rfl⟩ := List.mem_map.mp hstored
    constructor
    · change (block.index : ℤ) < 2 ^ 64
      exact_mod_cast hfits.index_lt block hblock
    · exact ⟨_, rfl, Str.encodable_ofString _⟩
    · use block.size, rfl
      exact_mod_cast hfits.size_lt block hblock
  · rintro n ⟨⟩
    exact_mod_cast hfits.fileSize_lt
  · rintro n ⟨⟩
    exact_mod_cast hfits.blockSize_lt

variable (server) in
/-- What a session leaves can be served. -/
theorem served_runSession (hfits : ∀ e ∈ session, e.Fits) (clock : Clock) :
  (Moment.mk (runSession server session) clock).Served
  := by
  rw [runSession_eq hfits]
  apply served_runAll
  intro i hi payload remoteHost record hop hrecord
  obtain ⟨e, he, hcall, -⟩ := mem_historyOf hi
  rw [hop] at hcall
  obtain ⟨index, hcommand, rfl, rfl⟩ := Exchange.exists_of_call_eq hcall
  have hindex := (hfits e he).index_fits index hcommand
  have hclean := (clean_of_updateRecord_toJson hindex hrecord).1
  use hclean
  intro stored hstored
  rw [(resources_of_updateRecord (fun r hr => (hindex r hr).1) hrecord).2] at hstored
  obtain ⟨resource, hresource, rfl⟩ := List.mem_map.mp hstored
  have hresourceFits := (hindex resource hresource).2
  exact ⟨hclean.nodeId, hclean.host, readableResource_published hresourceFits⟩

omit [RecursionLimit] [UnicodeData] in
/-- A hash that some live record has is that of a live entry. -/
theorem exists_live_of_mem (moment : Moment) {record : Record} {resource : Resource}
    (hrecord : record ∈ (cleanupExpired moment.nodes (moment.clock 0)).2.values)
    (hresource : resource ∈ record.resources) :
  ∃ entry ∈ moment.live, entry.fileHash = resource.fileHash
  := by
  have hholding : (record, resource) ∈ holdingsOf resource.fileHash
      (holdings (cleanupExpired moment.nodes (moment.clock 0)).2) :=
    List.mem_filter.mpr ⟨mem_holdings.mpr ⟨hrecord, hresource⟩, decide_eq_true rfl⟩
  obtain ⟨first, rest, hholdings⟩ := List.exists_cons_of_ne_nil (List.ne_nil_of_mem hholding)
  have hitem := mem_items_fileIndex.mpr (entryOf?_eq_some_iff.mpr ⟨first, rest, hholdings, rfl⟩)
  exact ⟨_, List.mem_map.mpr ⟨_, hitem, rfl⟩, fileHash_of_mem_fileIndex hitem⟩

/-- After a session a target is looked up among the indexes that nodes stand by. No reading of the
clock in the session may be later. -/
theorem finds_runSession (server : Server) (hfits : ∀ e ∈ session, e.Fits)
    (hcount : (session.map Exchange.weight).sum < 2 ^ 64) {parse : String → Option Json}
    (hparse : Parses parse) (enc : Url.FormEncoding) (clock : Clock)
    (hclock : ∀ e ∈ session, e.clock 0 ≤ clock 0) :
  let moment := Moment.mk (runSession server session) clock
  ∃ announced : List (Exchange × ResourceIndex), (announced.map fun i => i.1.key).Nodup ∧
    (∀ e index, (e, index) ∈ announced ↔ Announced server parse session (clock 0) e index) ∧
    Finds server.nodeTtlSeconds announced (lookUp server enc parse moment moment)
  := by
  intro moment
  obtain ⟨announced, hkeys, hmem, hkeeps⟩ := exists_announced server hfits hcount hparse hclock
  use announced, hkeys, hmem
  rw [← runSession_eq hfits] at hkeeps
  have hserved := served_runSession server hfits clock
  have hlooks := looksUp_lookUp server enc hparse hserved hserved
  have hlive : ∀ target location, lookUp server enc parse moment moment target = .ok location →
      entryMeant location ∈ moment.live ∧
        location.peers.map peerMeant
          = peersFor server.nodeTtlSeconds announced location.fileHash := by
    intro target location hfound
    have hlooks := hlooks target
    rw [hfound] at hlooks
    have hmem : entryMeant location ∈ moment.live := by
      rcases hlooks.of_ok with h | h
      · exact h.1
      · exact h.1
    use hmem
    rw [← hkeeps.flatMap_peers]
    exact (entrySpec_of_get? (get?_of_mem_values hmem)).peers_eq
  constructor
  · intro target location hfound
    have hlooks := hlooks target
    rw [hfound] at hlooks
    rcases hlooks.of_ok with h | h
    · exact .inl h.2
    · exact .inr h.2
  · intro target location hfound
    obtain ⟨hmem, -⟩ := hlive target location hfound
    apply hkeeps.stores.exists_named (entrySpec_of_get? (get?_of_mem_values hmem))
  · intro target location hfound
    exact (hlive target location hfound).2
  · intro i hi resource hresource
    obtain ⟨before, after, hsession, hcommand, -⟩ := (hmem i.1 i.2).mp hi
    have he : i.1 ∈ session := by
      rw [hsession]
      apply List.mem_append_right _ List.mem_cons_self
    obtain ⟨hasked, hstrip⟩ :=
      asked_of_isDigest ((hfits _ he).index_fits _ hcommand resource hresource).1.fileHash_digest
    obtain ⟨record, hrecord, stored, hstored, hhash⟩ :=
      (hkeeps.stores.exists_iff fun stored =>
        stored.fileHash = Str.ofString resource.fileHash).mpr ⟨i, hi, resource, hresource, rfl⟩
    obtain ⟨entry, hentry, heq⟩ := exists_live_of_mem moment hrecord hstored
    obtain ⟨location, hfound, hlocation⟩ := (hlooks resource.fileHash).exists_of_mem hasked hentry
      ((heq.trans hhash).trans hstrip.symm)
    use location, hfound
    apply Str.ofString_injective (hlocation.trans hstrip)

end RecursionLimit

/-! ### The file of a node -/

/-- The hash of a file that a node has published leads to this node. -/
theorem finds_runSession_oneFile :
  let _ := UnicodeData.ascii
  let _ := RecursionLimit.default
  let _ := Sha256.short
  let moment := Moment.mk (runSession memoryServer [publishOneFile]) fun _ => 1
  ∃ location, lookUp memoryServer Url.quotePlus (fun body => (Json.loads body).toOption) moment
      moment (Sha256.hex [97]) = .ok location ∧
    publishOneFile.peer 90 (published (resourceOf linuxReads 512 [utf8 "a"] [97]))
      ∈ location.peers.map peerMeant
  := by
  intro _ _ _ moment
  obtain ⟨announced, -, hannounced, hfinds⟩ :=
    finds_runSession memoryServer fits_session (by decide) parses_loads Url.quotePlus (fun _ => 1)
      (by simp [publishOneFile])
  have hmem := (hannounced _ _).mpr announced_publishOneFile
  obtain ⟨location, hfound, hhash⟩ := hfinds.hash_found _ hmem _ (List.mem_singleton_self _)
  use location, hfound
  rw [hfinds.peers_eq _ _ hfound, hhash]
  apply List.mem_flatMap.mpr
  use (publishOneFile, oneFile), hmem
  apply List.mem_map.mpr
  exact ⟨_, List.mem_filter.mpr ⟨List.mem_singleton_self _, decide_eq_true rfl⟩, rfl⟩

end System
