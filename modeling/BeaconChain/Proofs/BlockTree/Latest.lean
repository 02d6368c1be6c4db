import BeaconChain.Proofs.BlockTree.Appended

/-!
# The latest earlier node

The nodes of a root run through consecutive slots, and a removal takes away the first of them, all
or some.  The two ends of what is left are enough to find the node that a search among all nodes
would find: the one at the greatest slot that is not after a given one.
-/

namespace BeaconChain

namespace BlockTree

variable {tree : BlockTree} {ref : NodeRef}

/-- The slots up to that of a reference at which its root has nodes. -/
def slotsUpTo (tree : BlockTree) (ref : NodeRef) : Set Nat :=
  {slot ∈ tree.slotsOf ref.root | slot ≤ ref.slot}

theorem mem_slotsUpTo_iff {slot : Nat} :
    slot ∈ tree.slotsUpTo ref ↔ ∃ (position : Nat) (node : Node),
      tree.nodes[position]? = some node ∧ node.ref = ⟨ref.root, slot⟩ ∧ slot ≤ ref.slot := by
  constructor
  · rintro ⟨⟨node, member, named⟩, notLater⟩
    obtain ⟨position, here⟩ := List.mem_iff_getElem?.1 member
    exact ⟨position, node, here, named, notLater⟩
  · rintro ⟨position, node, here, named, notLater⟩
    exact ⟨⟨node, List.mem_of_getElem? here, named⟩, notLater⟩

theorem isLatest_iff {position : Nat} {node : Node} :
    IsLatest tree.nodes ref position node ↔ tree.nodes[position]? = some node ∧
      node.ref.root = ref.root ∧ IsGreatest (tree.slotsUpTo ref) node.ref.slot := by
  constructor
  · rintro ⟨here, ofRoot, notLater, greatest⟩
    have itself : node.ref = ⟨ref.root, node.ref.slot⟩ := NodeRef.eq_mk ofRoot rfl
    refine ⟨here, ofRoot, mem_slotsUpTo_iff.2 ⟨position, node, here, itself, notLater⟩, ?_⟩
    intro slot member
    obtain ⟨other, found, there, named, earlier⟩ := mem_slotsUpTo_iff.1 member
    have bound := greatest other found there (by rw [named]) (by rwa [named])
    rwa [named] at bound
  · rintro ⟨here, ofRoot, member, bound⟩
    refine ⟨here, ofRoot, member.2, fun other found there foundRoot earlier => ?_⟩
    exact bound (mem_slotsUpTo_iff.2 ⟨other, found, there, NodeRef.eq_mk foundRoot rfl, earlier⟩)

theorem slotsUpTo_eq_empty_iff : tree.slotsUpTo ref = ∅ ↔ AllLater tree.nodes ref := by
  rw [Set.eq_empty_iff_forall_notMem]
  constructor
  · intro nothing other found there foundRoot
    refine Nat.not_le.1 fun earlier => nothing found.ref.slot ?_
    exact mem_slotsUpTo_iff.2 ⟨other, found, there, NodeRef.eq_mk foundRoot rfl, earlier⟩
  · intro later slot member
    obtain ⟨other, found, there, named, earlier⟩ := mem_slotsUpTo_iff.1 member
    have behind := later other found there (by rw [named])
    rw [named] at behind
    exact absurd earlier (Nat.not_le.2 behind)

/-- In every tree that can be reached, whichever nodes it has lost, a reference is resolved to the
node of its root at the greatest slot that is not after its own.  It is not resolved just if the
root has no nodes but later ones. -/
theorem resolve?_finds_latest (reached : Reachable tree) (ref : NodeRef) :
    (∀ found position, tree.resolve? ref = some (found, position) ↔
      (∃ node, tree.nodes[position]? = some node ∧ node.ref = found) ∧ found.root = ref.root ∧
        IsGreatest (tree.slotsUpTo ref) found.slot) ∧
    (tree.resolve? ref = none ↔ ∀ slot ∈ tree.slotsOf ref.root, ref.slot < slot) := by
  have wellFormed := reached.sound.toWellFormed
  constructor
  · intro found position
    rw [wellFormed.resolve?_eq_some_iff]
    constructor
    · rintro ⟨node, latest, rfl⟩
      obtain ⟨here, ofRoot, greatest⟩ := isLatest_iff.1 latest
      exact ⟨⟨node, here, rfl⟩, ofRoot, greatest⟩
    · rintro ⟨⟨node, here, rfl⟩, ofRoot, greatest⟩
      exact ⟨node, isLatest_iff.2 ⟨here, ofRoot, greatest⟩, rfl⟩
  · rw [wellFormed.resolve?_eq_none_iff, ← slotsUpTo_eq_empty_iff, Set.eq_empty_iff_forall_notMem]
    constructor
    · exact fun nothing slot known => Nat.not_le.1 fun earlier => nothing slot ⟨known, earlier⟩
    · exact fun later slot member => Nat.not_le.2 (later slot member.1) member.2

theorem resolve?_finds_latest_beheadedTree :
    Reachable beheadedTree ∧
      beheadedTree.resolve? ⟨⟨2⟩, 9⟩ = some (⟨⟨2⟩, 3⟩, 1) ∧
      IsGreatest (beheadedTree.slotsUpTo ⟨⟨2⟩, 9⟩) 3 ∧
      beheadedTree.resolve? ⟨⟨2⟩, 1⟩ = none ∧ (∀ slot ∈ beheadedTree.slotsOf ⟨2⟩, 1 < slot) ∧
      beheadedTree.resolve? ⟨⟨1⟩, 5⟩ = none ∧ ∀ slot ∈ beheadedTree.slotsOf ⟨1⟩, 5 < slot := by
  have reached : Reachable beheadedTree :=
    .prune (.insertSlots (.insertBlock (.ofAnchor ⟨⟨1⟩, 0⟩ .zero {}) ⟨1⟩ ⟨2⟩ 1 {}) ⟨2⟩ 3 {})
      ⟨⟨2⟩, 2⟩ _ 0
  have behind : beheadedTree.resolve? ⟨⟨2⟩, 9⟩ = some (⟨⟨2⟩, 3⟩, 1) := by decide
  have before : beheadedTree.resolve? ⟨⟨2⟩, 1⟩ = none := by decide
  have unknown : beheadedTree.resolve? ⟨⟨1⟩, 5⟩ = none := by decide
  exact ⟨reached, behind, (((resolve?_finds_latest reached ⟨⟨2⟩, 9⟩).1 _ _).1 behind).2.2,
    before, (resolve?_finds_latest reached ⟨⟨2⟩, 1⟩).2.1 before,
    unknown, (resolve?_finds_latest reached ⟨⟨1⟩, 5⟩).2.1 unknown⟩

end BlockTree

end BeaconChain
