import ResourceDistribution.Data.RoundRobin
import ResourceDistribution.Node.TransferWorker

/-!
# How the load is shared

The candidates for a block are asked in order. When the peers of a file hold all of it, the orders for
the blocks are the rotations of one order, and the peers take turns in being asked first.
-/

namespace Node

/-! ### The candidates for a block -/

/-- The candidates for a block are the peers that list it, each as often as the location has it. -/
theorem getCandidatesForBlock_perm (location : FileLocation) (blockIndex : Nat)
    (selfNodeId : String) :
  (getCandidatesForBlock location blockIndex selfNodeId).Perm
    (location.peers.filter fun peer => peer.provides blockIndex)
  := by
  rw [getCandidatesForBlock]
  apply (List.rotate_perm _ _).trans
  apply Keyed.sortBy_perm

/-- The loop over the positions takes the `i`-th candidate from position `(i + shift) % total`. -/
theorem getElem?_getCandidatesForBlock (location : FileLocation) (blockIndex : Nat)
    (selfNodeId : String) :
  let peers := Keyed.sortBy (fun peer : PeerLocation => decide (peer.nodeId = selfNodeId))
    (location.peers.filter fun peer => peer.provides blockIndex)
  let shift := blockIndex % peers.length
  ∀ i < peers.length,
    (getCandidatesForBlock location blockIndex selfNodeId)[i]? = peers[(i + shift) % peers.length]?
  := by
  intro peers shift i hi
  apply List.getElem?_rotate hi

/-! ### The holders of all blocks -/

/-- The peers that list every block before the `n`-th. -/
def FileLocation.fullHolders (location : FileLocation) (n : Nat) : List PeerLocation :=
  location.peers.filter fun peer => (List.range n).all peer.provides

/-- The other peers list none of these blocks. -/
def FileLocation.AllOrNone (location : FileLocation) (n : Nat) : Prop :=
  ∀ peer ∈ location.peers, peer ∉ location.fullHolders n → ∀ i < n, peer.provides i = false

variable {location : FileLocation} {n : Nat}

/-- Where all peers list all blocks, they are the full holders. -/
theorem FileLocation.fullHolders_eq_peers
    (h : ∀ peer ∈ location.peers, ∀ i < n, peer.provides i = true) :
  location.fullHolders n = location.peers
  := by
  rw [fullHolders, List.filter_eq_self]
  intro peer hpeer
  rw [List.all_eq_true]
  intro i hi
  apply h peer hpeer i (List.mem_range.mp hi)

/-- Where all peers list all blocks, no other peer is left. -/
theorem FileLocation.allOrNone_of_provides
    (h : ∀ peer ∈ location.peers, ∀ i < n, peer.provides i = true) :
  location.AllOrNone n
  := by
  intro peer hpeer hfull
  rw [fullHolders_eq_peers h] at hfull
  cases hfull hpeer

/-- The full holders are those who list any of the blocks. -/
theorem FileLocation.AllOrNone.filter_provides (h : location.AllOrNone n) {i : Nat} (hi : i < n) :
  (location.peers.filter fun peer => peer.provides i) = location.fullHolders n
  := by
  apply List.filter_congr
  intro peer hpeer
  by_cases hfull : peer ∈ location.fullHolders n
  · have hall := (List.mem_filter.mp hfull).2
    rw [hall]
    rw [List.all_eq_true] at hall
    apply hall i (List.mem_range.mpr hi)
  · rw [h peer hpeer hfull i hi, eq_comm, ← Bool.not_eq_true]
    intro hall
    apply hfull (List.mem_filter.mpr ⟨hpeer, hall⟩)

/-! ### Balance -/

/-- The candidates for the first `n` blocks are the rotations of `order`, so that the peers are asked
first in turn. -/
structure FileLocation.Balanced (location : FileLocation) (n : Nat) (selfNodeId : String)
    (order : List PeerLocation) : Prop where
  perm : order.Perm (location.fullHolders n)
  rotated : ∀ i < n,
    getCandidatesForBlock location i selfNodeId = order.rotate (i % order.length)
  first : ∀ i < n,
    (getCandidatesForBlock location i selfNodeId).head? = order[i % order.length]?
  fair_position : ∀ j < order.length,
    RoundRobin.Fair n order.length (n.count fun i => i % order.length = j)
  fair_peer : ∀ peer, order.count peer = 1 →
    RoundRobin.Fair n order.length
      (n.count fun i => (getCandidatesForBlock location i selfNodeId).head? = some peer)

/-- Of every location the candidates for a block are the peers that list it. When of the first `n`
blocks a peer lists all or none, the holders are asked in the rotations of one order, each first for
its share of the blocks. -/
theorem candidates_balanced (location : FileLocation) (n : Nat) (selfNodeId : String) :
  (∀ blockIndex, (getCandidatesForBlock location blockIndex selfNodeId).Perm
      (location.peers.filter fun peer => peer.provides blockIndex)) ∧
    (location.AllOrNone n → ∃ order, location.Balanced n selfNodeId order)
  := by
  constructor
  · intro blockIndex
    apply getCandidatesForBlock_perm
  · intro h
    set order := Keyed.sortBy (fun peer : PeerLocation => decide (peer.nodeId = selfNodeId))
      (location.fullHolders n) with horder
    have hrotated : ∀ i < n,
        getCandidatesForBlock location i selfNodeId = order.rotate (i % order.length) := by
      intro i hi
      rw [getCandidatesForBlock, h.filter_provides hi]
    have hfirst : ∀ i < n,
        (getCandidatesForBlock location i selfNodeId).head? = order[i % order.length]? := by
      intro i hi
      rw [hrotated i hi]
      apply RoundRobin.head?_rotate_mod
    use order
    constructor
    case perm => apply Keyed.sortBy_perm
    case rotated => exact hrotated
    case first => exact hfirst
    case fair_position =>
      intro j hj
      apply RoundRobin.fair_count_mod hj
    case fair_peer =>
      intro peer hpeer
      apply RoundRobin.fair_count_first hfirst hpeer

/-- A file of seven blocks that three nodes hold, the asking node among them. -/
def threeHolders : FileLocation where
  fileHash := "f"
  fileName := "x"
  fileSize := some 7
  blockSize := some 1
  peers := ["self", "first", "second"].map fun nodeId =>
    ⟨nodeId, "127.0.0.1", 9000, "", "", (List.range 7).map fun i => ⟨i, "h", 1⟩⟩
  availableBlocks := List.range 7

theorem threeHolders_provides :
  ∀ peer ∈ threeHolders.peers, ∀ i < 7, peer.provides i = true
  := by
  decide

/-- Three holders of seven blocks are asked first for two or three blocks each. -/
theorem candidates_balanced_threeHolders :
  ∃ order, order.Perm threeHolders.peers ∧ threeHolders.Balanced 7 "self" order
  := by
  have hall := threeHolders_provides
  obtain ⟨order, hbalanced⟩ :=
    (candidates_balanced threeHolders 7 "self").2 (FileLocation.allOrNone_of_provides hall)
  use order
  constructor
  · rw [← FileLocation.fullHolders_eq_peers hall]
    apply hbalanced.perm
  · exact hbalanced

/-! ### The node itself -/

/-- The node itself comes after all others. -/
def SelfLast (selfNodeId : String) (peers : List PeerLocation) : Prop :=
  peers.Pairwise fun earlier later => earlier.nodeId = selfNodeId → later.nodeId = selfNodeId

instance (selfNodeId : String) (peers : List PeerLocation) :
    Decidable (SelfLast selfNodeId peers) :=
  inferInstanceAs (Decidable (peers.Pairwise _))

/-- The candidates for a block have the node itself last exactly when they are not rotated, or when
the node is the only holder, or none. -/
theorem selfLast_iff (location : FileLocation) (blockIndex : Nat) (selfNodeId : String) :
  let holders := location.peers.filter fun peer => peer.provides blockIndex
  SelfLast selfNodeId (getCandidatesForBlock location blockIndex selfNodeId) ↔
    (∀ peer ∈ holders, peer.nodeId ≠ selfNodeId) ∨ (∀ peer ∈ holders, peer.nodeId = selfNodeId) ∨
      holders.length ∣ blockIndex
  := by
  intro holders
  set key := fun peer : PeerLocation => decide (peer.nodeId = selfNodeId) with hkey
  have hle : ∀ a b : PeerLocation, key a ≤ key b ↔
      (a.nodeId = selfNodeId → b.nodeId = selfNodeId) := by
    intro a b
    rw [hkey, Bool.le_iff_imp, decide_eq_true_iff, decide_eq_true_iff]
  have hlast : SelfLast selfNodeId (getCandidatesForBlock location blockIndex selfNodeId) ↔
      holders.length ∣ blockIndex ∨ ∀ a ∈ holders, ∀ b ∈ holders, key a ≤ key b := by
    have hrotate :=
      RoundRobin.pairwise_rotate_mod_iff (Keyed.pairwise_sortBy key holders) blockIndex
    simp only [(Keyed.sortBy_perm key holders).length_eq, Keyed.mem_sortBy, hle] at hrotate
    simp only [hle]
    rw [← hrotate, SelfLast, getCandidatesForBlock, (Keyed.sortBy_perm key holders).length_eq]
  have halike : (∀ a ∈ holders, ∀ b ∈ holders, key a ≤ key b) ↔
      (∀ peer ∈ holders, peer.nodeId ≠ selfNodeId) ∨
        ∀ peer ∈ holders, peer.nodeId = selfNodeId := by
    simp only [hle]
    constructor
    · intro h
      by_cases hself : ∃ peer ∈ holders, peer.nodeId = selfNodeId
      · obtain ⟨self, hmem, heq⟩ := hself
        right
        intro peer hpeer
        apply h self hmem peer hpeer heq
      · left
        intro peer hpeer heq
        apply hself ⟨peer, hpeer, heq⟩
    · rintro (hnone | hall) a ha b hb heq
      · exact absurd heq (hnone a ha)
      · exact hall b hb
  rw [hlast, halike]
  tauto

/-- It is not the case that the node itself is always last: for the second block of a file with three
holders it is asked before another one. -/
theorem not_selfLast :
  ¬ ∀ location blockIndex selfNodeId,
    SelfLast selfNodeId (getCandidatesForBlock location blockIndex selfNodeId)
  := by
  intro hall
  have hlast := hall threeHolders 1 "self"
  revert hlast
  decide

end Node
