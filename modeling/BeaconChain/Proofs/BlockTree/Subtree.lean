import BeaconChain.Proofs.BlockTree.Represented

/-!
# The subtree of a root

Whether a root belongs to the subtree of another one is told from positions, from a slot, from a
link that may be out of date and from a walk that stops early.  For every tree that can be reached
this comes to the same as looking for a node of the one root among the ancestors, by vote parents,
of the earliest node that is left of the other.  As long as nothing has been taken out, those
ancestors are met by going from block to block over the roots of their parents.
-/

open Relation

namespace BeaconChain.BlockTree

/-- The tree has a node of the root. -/
def HasRoot (tree : BlockTree) (root : Root) : Prop :=
  ∃ node ∈ tree.nodes, node.ref.root = root

instance (tree : BlockTree) (root : Root) : Decidable (tree.HasRoot root) :=
  inferInstanceAs (Decidable (∃ node ∈ tree.nodes, node.ref.root = root))

/-- The node at a position is the one with the least slot among the nodes of its root. -/
structure IsEarliest (nodes : List Node) (root : Root) (position : Nat) (node : Node) : Prop where
  here : nodes[position]? = some node
  ofRoot : node.ref.root = root
  least : ∀ (place : Nat) (other : Node), nodes[place]? = some other → other.ref.root = root →
    node.ref.slot ≤ other.ref.slot

/-- Some node of `anchor` is an ancestor, by vote parents, of the earliest node of `root`. -/
def Overtops (tree : BlockTree) (anchor root : Root) : Prop :=
  ∃ (first : Nat) (earliest : Node) (above : Nat) (upper : Node),
    IsEarliest tree.nodes root first earliest ∧ tree.nodes[above]? = some upper ∧
      upper.ref.root = anchor ∧ tree.VoteDescends first above

section Known

variable {tree : BlockTree} {root anchor : Root} {position : Nat} {node : Node}

theorem WellFormed.exists_isFirst_of_hasRoot
    (wellFormed : WellFormed tree) (known : tree.HasRoot root) :
    ∃ first, IsFirst tree.nodes root first := by
  obtain ⟨node, member, rfl⟩ := known
  obtain ⟨position, here⟩ := List.mem_iff_getElem?.1 member
  exact exists_isFirst wellFormed here

theorem WellFormed.earliestSlot?_eq_none_iff (wellFormed : WellFormed tree) :
    tree.earliestSlot? root = none ↔ ¬ tree.HasRoot root := by
  constructor
  · intro missing known
    obtain ⟨first, isFirst⟩ := wellFormed.exists_isFirst_of_hasRoot known
    obtain ⟨node, here, _⟩ := isFirst.here
    rw [wellFormed.earliestSlot?_of_isFirst isFirst here] at missing
    cases missing
  · intro absent
    by_contra found
    obtain ⟨slot, earliest⟩ := Option.ne_none_iff_exists'.1 found
    obtain ⟨position, node, here, named, _⟩ := wellFormed.earliestSlot?_eq_some_iff.1 earliest
    apply absent
    exact ⟨node, List.mem_of_getElem? here, congrArg NodeRef.root named⟩

/-- The earliest node of a root is the one that stands before the others. -/
theorem WellFormed.isEarliest_iff
    (wellFormed : WellFormed tree) (here : tree.nodes[position]? = some node)
    (ofRoot : node.ref.root = root) :
    IsEarliest tree.nodes root position node ↔ IsFirst tree.nodes root position := by
  constructor
  · intro earliest
    refine ⟨⟨node, here, ofRoot⟩, fun place other there otherRoot => ?_⟩
    apply (wellFormed.slot_le_iff there here (ofRoot.trans otherRoot.symm)).1
    exact earliest.least place other there otherRoot
  · intro isFirst
    refine ⟨here, ofRoot, fun place other there otherRoot => ?_⟩
    apply (wellFormed.slot_le_iff there here (ofRoot.trans otherRoot.symm)).2
    exact isFirst.first place other there otherRoot

/-- The subtree of a root holds the other roots that it overtops. -/
theorem Sound.relation_eq_inside_iff_overtops (sound : Sound tree) (different : anchor ≠ root) :
    tree.relation anchor root = .inside ↔ tree.Overtops anchor root := by
  rw [sound.relation_eq_inside_iff different]
  constructor
  · rintro ⟨above, first, isAnchor, isFirst, descends⟩
    obtain ⟨upper, upperHere, ofAnchor⟩ := isAnchor.here
    obtain ⟨node, here, ofRoot⟩ := isFirst.here
    have earliest := (sound.isEarliest_iff here ofRoot).2 isFirst
    exact ⟨first, node, above, upper, earliest, upperHere, ofAnchor, descends⟩
  · rintro ⟨first, node, above, upper, earliest, upperHere, ofAnchor, descends⟩
    have isFirst := (sound.isEarliest_iff earliest.here earliest.ofRoot).1 earliest
    obtain ⟨anchorFirst, isAnchor⟩ := exists_isFirst sound.toWellFormed upperHere
    rw [ofAnchor] at isAnchor
    -- every node of the anchor's root descends from the first of them
    have rest := isAnchor.voteDescends sound.toWellFormed upperHere ofAnchor
    exact ⟨anchorFirst, first, isAnchor, isFirst, descends.trans rest⟩

end Known

/-- The block of `root`, which is not the anchor of the tree, has the parent root `next`. -/
def BlockParent (tree : BlockTree) (origin : Option NodeRef) (root next : Root) : Prop :=
  ∃ node ∈ tree.nodes, node.hasBlock = true ∧ origin ≠ some node.ref ∧ node.ref.root = root ∧
    node.parentRoot = next

instance (tree : BlockTree) (origin : Option NodeRef) (root next : Root) :
    Decidable (BlockParent tree origin root next) :=
  inferInstanceAs (Decidable (∃ node ∈ tree.nodes, node.hasBlock = true ∧ origin ≠ some node.ref ∧
    node.ref.root = root ∧ node.parentRoot = next))

section Intact

variable {origin : Option NodeRef} {tree : BlockTree} {root anchor next : Root}
  {position above : Nat} {node : Node}

/-- In a tree that has lost nothing only the anchor is without a vote parent. -/
theorem History.voteParent_eq_none_iff
    (past : History origin [] tree) (here : tree.nodes[position]? = some node) :
    node.voteParent = none ↔ origin = some node.ref := by
  have wellFormed := past.reachable.sound.toWellFormed
  have anchored : ∀ {place : Nat} {other : Node}, tree.nodes[place]? = some other →
      other.voteParent = none → IsAnchor origin [] place other := by
    intro place other there severed
    rcases past.traced .vote place other there severed with isAnchor | ⟨_, member, _⟩
    · exact isAnchor
    · cases member
  constructor
  · intro severed
    exact (anchored here severed).named
  · intro isOrigin
    -- the first node has no parent to stand after, so that it is the anchor
    have inside := (List.getElem?_eq_some_iff.1 here).1
    have zeroHere := List.getElem?_eq_getElem (Nat.lt_of_le_of_lt (Nat.zero_le _) inside)
    have noParent : tree.nodes[0].voteParent = none := by
      by_contra found
      obtain ⟨up, step⟩ := Option.ne_none_iff_exists'.1 found
      have := wellFormed.voteParentsFirst _ _ (parentAt_iff.2 ⟨_, zeroHere, step⟩)
      omega
    have named := Option.some.inj ((anchored zeroHere noParent).named.symm.trans isOrigin)
    obtain rfl := wellFormed.position_unique zeroHere here named
    obtain rfl := Option.some.inj (zeroHere.symm.trans here)
    exact noParent

/-- A vote parent has the root of its child, or the one that stands before it from block to
block. -/
theorem History.blockParent_of_voteParent
    (past : History origin [] tree) {upper : Node} (here : tree.nodes[position]? = some node)
    (step : node.voteParent = some above) (upperHere : tree.nodes[above]? = some upper) :
    upper.ref.root = node.ref.root ∨
      BlockParent tree origin node.ref.root upper.ref.root := by
  have wellFormed := past.reachable.sound.toWellFormed
  obtain ⟨found, there, parent, _⟩ := wellFormed.ref_of_voteParent here step
  obtain rfl := Option.some.inj (there.symm.trans upperHere)
  cases filled : node.hasBlock with
  | false =>
    left
    rw [parent, Node.hasBlock_eq_false_iff.1 filled]
  | true =>
    right
    refine ⟨node, List.mem_of_getElem? here, filled, ?_, rfl, parent.symm⟩
    intro isOrigin
    rw [(past.voteParent_eq_none_iff here).2 isOrigin] at step
    cases step

theorem History.blockParents_of_voteDescends
    (past : History origin [] tree) {below : Nat} {lower upper : Node}
    (descends : tree.VoteDescends below above) (here : tree.nodes[below]? = some lower)
    (upperHere : tree.nodes[above]? = some upper) :
    ReflTransGen (BlockParent tree origin) lower.ref.root upper.ref.root := by
  induction descends generalizing upper with
  | refl =>
    obtain rfl := Option.some.inj (here.symm.trans upperHere)
    exact ReflTransGen.refl
  | @tail middle above _ step ih =>
    obtain ⟨between, middleHere, up⟩ := parentAt_iff.1 step
    have before := ih middleHere
    rcases past.blockParent_of_voteParent middleHere up upperHere with same | next
    · rwa [same]
    · exact before.tail next

/-- The first node of a root is its block, and from there the vote parent leads on to the root of
the parent. -/
theorem History.exists_voteParent_of_blockParent
    (past : History origin [] tree) (step : BlockParent tree origin root next) :
    ∃ (first above : Nat) (upper : Node), IsFirst tree.nodes root first ∧
      ParentAt tree.nodes Node.voteParent first above ∧ tree.nodes[above]? = some upper ∧
      upper.ref.root = next := by
  have wellFormed := past.reachable.sound.toWellFormed
  obtain ⟨node, member, filled, notOrigin, rfl, rfl⟩ := step
  obtain ⟨first, here⟩ := List.mem_iff_getElem?.1 member
  have hasParent : node.voteParent ≠ none := by
    intro severed
    exact notOrigin ((past.voteParent_eq_none_iff here).1 severed)
  obtain ⟨above, up⟩ := Option.ne_none_iff_exists'.1 hasParent
  obtain ⟨upper, upperHere, parent, _⟩ := wellFormed.ref_of_voteParent here up
  refine ⟨first, above, upper, ⟨⟨node, here, rfl⟩, ?_⟩, parentAt_iff.2 ⟨node, here, up⟩,
    upperHere, parent⟩
  cases wellFormed.links first node here with
  | severed _ noVote => exact absurd noVote hasParent
  | slot _ _ _ _ _ _ empty => simp [Node.hasBlock_eq_false_iff.2 empty] at filled
  | block _ _ _ _ _ _ _ _ _ _ isFirst => exact isFirst

theorem History.exists_voteDescends_of_blockParents
    (past : History origin [] tree) (known : tree.HasRoot anchor)
    (reaches : ReflTransGen (BlockParent tree origin) root anchor) :
    ∃ (first above : Nat) (upper : Node), IsFirst tree.nodes root first ∧
      tree.VoteDescends first above ∧ tree.nodes[above]? = some upper ∧
      upper.ref.root = anchor := by
  have wellFormed := past.reachable.sound.toWellFormed
  induction reaches using ReflTransGen.head_induction_on with
  | refl =>
    obtain ⟨first, isFirst⟩ := wellFormed.exists_isFirst_of_hasRoot known
    obtain ⟨node, here, ofRoot⟩ := isFirst.here
    exact ⟨first, first, node, isFirst, ReflTransGen.refl, here, ofRoot⟩
  | head step _ ih =>
    obtain ⟨first, middle, between, isFirst, up, middleHere, middleRoot⟩ :=
      past.exists_voteParent_of_blockParent step
    obtain ⟨start, above, upper, isStart, descends, upperHere, ofAnchor⟩ := ih
    have down := isStart.voteDescends wellFormed middleHere middleRoot
    exact ⟨first, above, upper, isFirst, ReflTransGen.head up (down.trans descends), upperHere,
      ofAnchor⟩

theorem History.overtops_iff
    (past : History origin [] tree) (known : tree.HasRoot anchor) :
    tree.Overtops anchor root ↔ ReflTransGen (BlockParent tree origin) root anchor := by
  have wellFormed := past.reachable.sound.toWellFormed
  constructor
  · rintro ⟨first, node, above, upper, earliest, upperHere, rfl, descends⟩
    rw [← earliest.ofRoot]
    exact past.blockParents_of_voteDescends descends earliest.here upperHere
  · intro reaches
    obtain ⟨first, above, upper, isFirst, descends, upperHere, ofAnchor⟩ :=
      past.exists_voteDescends_of_blockParents known reaches
    obtain ⟨node, here, ofRoot⟩ := isFirst.here
    have earliest := (wellFormed.isEarliest_iff here ofRoot).2 isFirst
    exact ⟨first, node, above, upper, earliest, upperHere, ofAnchor, descends⟩

end Intact

/-- A root is in its own subtree.  Of two different roots nothing is known if the tree has no node
of one of them; otherwise the one is in the subtree of the other exactly if it is overtopped by
it.  In a tree that has lost nothing this means that the parent roots of blocks lead from the one
to the other. -/
theorem relation_exact
    {origin : Option NodeRef} {gone : List NodeRef} {tree : BlockTree}
    (past : History origin gone tree) (anchor root : Root) :
    (anchor = root → tree.relation anchor root = .inside) ∧
    (anchor ≠ root → ¬ (tree.HasRoot anchor ∧ tree.HasRoot root) →
      tree.relation anchor root = .unknown) ∧
    (anchor ≠ root → tree.HasRoot anchor → tree.HasRoot root →
      (tree.Overtops anchor root → tree.relation anchor root = .inside) ∧
      (¬ tree.Overtops anchor root → tree.relation anchor root = .outside) ∧
      (gone = [] → (tree.Overtops anchor root ↔
        ReflTransGen (BlockParent tree origin) root anchor))) := by
  have sound := past.reachable.sound
  refine ⟨?_, ?_, ?_⟩
  · rintro rfl
    exact relation_self tree anchor
  · intro different notBoth
    rw [relation_eq_unknown_iff different, sound.earliestSlot?_eq_none_iff,
      sound.earliestSlot?_eq_none_iff]
    exact not_and_or.1 notBoth
  · intro different anchorKnown known
    have inside := sound.relation_eq_inside_iff_overtops different
    have notUnknown : tree.relation anchor root ≠ .unknown := by
      rw [Ne, relation_eq_unknown_iff different, sound.earliestSlot?_eq_none_iff,
        sound.earliestSlot?_eq_none_iff]
      exact not_or.2 ⟨not_not.2 anchorKnown, not_not.2 known⟩
    refine ⟨inside.2, ?_, ?_⟩
    · intro apart
      cases related : tree.relation anchor root with
      | unknown => exact absurd related notUnknown
      | inside => exact absurd (inside.1 related) apart
      | outside => rfl
    · rintro rfl
      exact past.overtops_iff anchorKnown

/-- The third block is reached from the anchor over the second one.  Once the anchor's first node
has been taken out, its other node is no ancestor of the third block. -/
theorem relation_exact_blocksTree :
    (blocksTree.Overtops ⟨1⟩ ⟨3⟩ ∧ blocksTree.relation ⟨1⟩ ⟨3⟩ = .inside) ∧
    ((blocksTree.prune ⟨⟨2⟩, 1⟩ takesOne 0).2.1.HasRoot ⟨1⟩ ∧
      ¬ (blocksTree.prune ⟨⟨2⟩, 1⟩ takesOne 0).2.1.Overtops ⟨1⟩ ⟨3⟩ ∧
      (blocksTree.prune ⟨⟨2⟩, 1⟩ takesOne 0).2.1.relation ⟨1⟩ ⟨3⟩ = .outside) := by
  have past : History (some ⟨⟨1⟩, 0⟩) [] blocksTree :=
    .insertBlock (.insertBlock (.ofAnchor ⟨⟨1⟩, 0⟩ .zero {}) ⟨1⟩ ⟨2⟩ 1 {}) ⟨2⟩ ⟨3⟩ 3 {}
  have lastStep : BlockParent blocksTree (some ⟨⟨1⟩, 0⟩) ⟨2⟩ ⟨1⟩ := by decide
  have path : ReflTransGen (BlockParent blocksTree (some ⟨⟨1⟩, 0⟩)) ⟨3⟩ ⟨1⟩ :=
    ReflTransGen.head (by decide) (ReflTransGen.single lastStep)
  obtain ⟨_, _, whole⟩ := relation_exact past ⟨1⟩ ⟨3⟩
  obtain ⟨inside, _, intact⟩ := whole (by decide) (by decide) (by decide)
  have above := (intact rfl).2 path
  obtain ⟨_, _, left⟩ := relation_exact (past.prune ⟨⟨2⟩, 1⟩ takesOne 0) ⟨1⟩ ⟨3⟩
  obtain ⟨insideLeft, _, _⟩ := left (by decide) (by decide) (by decide)
  have outside : (blocksTree.prune ⟨⟨2⟩, 1⟩ takesOne 0).2.1.relation ⟨1⟩ ⟨3⟩ = .outside := by
    decide
  refine ⟨⟨above, inside above⟩, by decide, ?_, outside⟩
  intro stillAbove
  rw [insideLeft stillAbove] at outside
  cases outside

end BeaconChain.BlockTree
