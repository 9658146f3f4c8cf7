import ResourceDistribution.Node.Overwrite
import ResourceDistribution.System.Swarm

/-!
# A new holder

A member that has downloaded some contents scans its share directory and sends the index to the
tracker. When the update arrives, and until the member's lease runs out or something else is written
in its name, the tracker lists it as a holder of the contents, and they can be downloaded from it
even if nobody else answers any more (`replicated`).
-/

open Disk Python Node Tracker Tasks

namespace Node

universe u

variable {ν : Type u} [DecidableEq ν] [Sha256]

end Node

namespace System

section UnicodeData

variable [UnicodeData]

variable [Sha256] {M : Type} [DecidableEq M] (members : M → Member) (nodeTtlSeconds : ℤ)
  (strings : Set (List UInt8)) (content : List UInt8)

/-- Nothing is written in the name of a member: no update of it arrives, and no call removes it. -/
def Event.Spares (now : Time) (m : M) : Event M → Prop
  | .arrive n _ => n ≠ m
  | .call op => op.writeTo nodeTtlSeconds now (members m).key = none
  | _ => True

/-- One state of the swarm leads to another, and nothing is written in the name of a member. -/
def Swarm.Quiet (m : M) : Swarm M → Swarm M → Prop :=
  Relation.ReflTransGen fun s s' => ∃ event,
    s.Step members nodeTtlSeconds strings content event s' ∧
      event.Spares members nodeTtlSeconds s.clock m

variable {members nodeTtlSeconds strings content} {s s' : Swarm M} {m : M}

theorem Swarm.Quiet.run (h : s.Quiet members nodeTtlSeconds strings content m s') :
  s.Run members nodeTtlSeconds strings content s'
  := by
  induction h with
  | refl => exact Relation.ReflTransGen.refl
  | tail _ hstep ih =>
      obtain ⟨event, hstep, -⟩ := hstep
      exact Relation.ReflTransGen.tail ih ⟨event, hstep⟩

/-- The state after a member has changed its share directory, scanned it and sent the index. -/
def Swarm.scanned (s : Swarm M) (m : M) (shareDir : FileSystem) (index : ResourceIndex) :
    Swarm M :=
  { s with shareDir := Function.update s.shareDir m shareDir, sent := (m, index) :: s.sent }

omit [Sha256] [UnicodeData] [DecidableEq M] in
/-- A record that runs and has a resource of some hash makes its node a peer of the entry. -/
theorem exists_entry_of_get? {k : Str} {record : Record} (hget : s.nodes.get? k = some record)
    (hruns : s.clock < record.expiresAtEpoch) {fileHash : Str} {resource : Resource}
    (hresource : resource ∈ record.resourcesOf fileHash) :
  ∃ entry ∈ s.live, entry.fileHash = fileHash ∧ peerOf record resource ∈ entry.peers
  := by
  have hkept : (cleanupExpired s.nodes s.clock).2.get? k = some record := by
    rw [get?_cleanupExpired, Lease.live_eq_some_iff]
    exact ⟨hget, hruns⟩
  obtain ⟨hmem, hhash⟩ := List.mem_filter.mp hresource
  set nodes := (cleanupExpired s.nodes s.clock).2 with hnodes
  have hholding : (record, resource) ∈ holdingsOf fileHash (holdings nodes) := by
    apply List.mem_filter.mpr
    exact ⟨mem_holdings.mpr ⟨List.mem_map_of_mem (Dict.get?_eq_some_iff.mp hkept), hmem⟩, hhash⟩
  have hpeer : peerOf record resource ∈ peersOf (fileIndex nodes) fileHash := by
    rw [peersOf_fileIndex]
    exact List.mem_map_of_mem hholding
  rw [peersOf] at hpeer
  cases hentry : (fileIndex nodes).get? fileHash with
  | none =>
      rw [hentry] at hpeer
      cases hpeer
  | some entry =>
      rw [hentry] at hpeer
      have hitem := Dict.get?_eq_some_iff.mp hentry
      exact ⟨entry, List.mem_map_of_mem hitem, fileHash_of_mem_fileIndex hitem, hpeer⟩

end UnicodeData

end System
