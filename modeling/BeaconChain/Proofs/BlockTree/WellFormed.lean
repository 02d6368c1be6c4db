import BeaconChain.Proofs.BlockTree.Ancestry

/-!
# Well-formed trees

A tree is well formed if its index is exact and every node is linked to its
parents in one of three ways.  An empty slot has the slot before it for both
parents.  A block has the empty slot that it fills for its state parent, and that
slot's vote parent for its own.  A node without parents is the first of its root,
either because it is the anchor or because its parents have been taken out.

It follows that the nodes of one root stand in the order of their slots, without a
gap, and that vote parents lead only to ancestors by state parents.
-/

open Relation

namespace BeaconChain

theorem NodeRef.eq_mk
    {ref : NodeRef} {root : Root} {slot : Nat}
    (ofRoot : ref.root = root) (atSlot : ref.slot = slot) : ref = ⟨root, slot⟩ := by
  subst ofRoot atSlot
  rfl

namespace BlockTree

/-- The nodes of a root lie between the two positions of a span, which are
positions of such nodes themselves. -/
structure IsSpan (nodes : List Node) (root : Root) (span : Span) : Prop where
  first : ∃ node : Node, nodes[span.first]? = some node ∧ node.ref.root = root
  last : ∃ node : Node, nodes[span.last]? = some node ∧ node.ref.root = root
  within : ∀ (position : Nat) (node : Node), nodes[position]? = some node → node.ref.root = root →
    span.first ≤ position ∧ position ≤ span.last

/-- The positions and the spans of a tree are those of its nodes. -/
structure Indexed (tree : BlockTree) : Prop where
  positions : ∀ ref position, tree.position? ref = some position ↔
    ∃ node : Node, tree.nodes[position]? = some node ∧ node.ref = ref
  spanOf : ∀ root span, tree.spans.find? root = some span → IsSpan tree.nodes root span
  spanned : ∀ (position : Nat) (node : Node), tree.nodes[position]? = some node →
    ∃ span, tree.spans.find? node.ref.root = some span

/-- Whether no node before `position` has the root. -/
def FirstOfRoot (nodes : List Node) (root : Root) (position : Nat) : Prop :=
  ∀ (other : Nat) (found : Node), nodes[other]? = some found → found.ref.root = root →
    position ≤ other

namespace Indexed

variable {tree : BlockTree}

/-- No two nodes have the same name. -/
theorem position_unique
    (indexed : Indexed tree) {position other : Nat} {node found : Node}
    (here : tree.nodes[position]? = some node) (there : tree.nodes[other]? = some found)
    (same : node.ref = found.ref) : position = other := by
  have first := (indexed.positions found.ref position).2 ⟨node, here, same⟩
  have second := (indexed.positions found.ref other).2 ⟨found, there, rfl⟩
  exact Option.some.inj (first.symm.trans second)

theorem position?_ref
    (indexed : Indexed tree) {position : Nat} {node : Node}
    (here : tree.nodes[position]? = some node) : tree.position? node.ref = some position :=
  (indexed.positions _ _).2 ⟨node, here, rfl⟩

theorem position?_eq_none_iff (indexed : Indexed tree) {ref : NodeRef} :
    tree.position? ref = none ↔ ∀ node ∈ tree.nodes, node.ref ≠ ref := by
  constructor
  · intro missing node member same
    obtain ⟨position, here⟩ := List.mem_iff_getElem?.1 member
    simp [← same, indexed.position?_ref here] at missing
  · intro absent
    cases found : tree.position? ref with
    | none => rfl
    | some position =>
      obtain ⟨node, here, same⟩ := (indexed.positions _ _).1 found
      exact absurd same (absent node (List.mem_of_getElem? here))

theorem locate?_eq_some_iff
    (indexed : Indexed tree) {ref : NodeRef} {position : Nat} {node : Node} :
    tree.locate? ref = some (position, node) ↔
      tree.nodes[position]? = some node ∧ node.ref = ref := by
  simp only [locate?, Option.bind_eq_bind, Option.bind_eq_some_iff, Option.pure_def,
    Option.some.injEq, Prod.mk.injEq]
  constructor
  · rintro ⟨place, found, node', here, rfl, rfl⟩
    obtain ⟨node'', there, same⟩ := (indexed.positions _ _).1 found
    exact ⟨here, Option.some.inj (there.symm.trans here) ▸ same⟩
  · rintro ⟨here, same⟩
    exact ⟨position, (indexed.positions _ _).2 ⟨node, here, same⟩, node, here, rfl, rfl⟩

theorem spans_eq_none_iff (indexed : Indexed tree) {root : Root} :
    tree.spans.find? root = none ↔ ∀ node ∈ tree.nodes, node.ref.root ≠ root := by
  constructor
  · intro missing node member same
    obtain ⟨position, here⟩ := List.mem_iff_getElem?.1 member
    obtain ⟨span, found⟩ := indexed.spanned position node here
    simp [← same, found] at missing
  · intro absent
    cases found : tree.spans.find? root with
    | none => rfl
    | some span =>
      obtain ⟨node, here, same⟩ := (indexed.spanOf root span found).first
      exact absurd same (absent node (List.mem_of_getElem? here))

theorem containsRoot_eq_false_iff (indexed : Indexed tree) {root : Root} :
    tree.containsRoot root = false ↔ ∀ node ∈ tree.nodes, node.ref.root ≠ root := by
  rw [← indexed.spans_eq_none_iff]
  simp [containsRoot, Table.contains]

theorem first_eq
    (indexed : Indexed tree) {root : Root} {span : Span} {position : Nat} {node : Node}
    (found : tree.spans.find? root = some span) (here : tree.nodes[position]? = some node)
    (ofRoot : node.ref.root = root) (first : FirstOfRoot tree.nodes root position) :
    span.first = position := by
  have isSpan := indexed.spanOf root span found
  obtain ⟨other, there, sameRoot⟩ := isSpan.first
  have low := (isSpan.within position node here ofRoot).1
  have high := first _ _ there sameRoot
  omega

theorem firstOfRoot_first
    (indexed : Indexed tree) {root : Root} {span : Span}
    (found : tree.spans.find? root = some span) : FirstOfRoot tree.nodes root span.first :=
  fun other node there sameRoot =>
    ((indexed.spanOf root span found).within other node there sameRoot).1

theorem earliestSlot?_eq_some_iff (indexed : Indexed tree) {root : Root} {slot : Nat} :
    tree.earliestSlot? root = some slot ↔
      ∃ (position : Nat) (node : Node), tree.nodes[position]? = some node ∧
        node.ref = ⟨root, slot⟩ ∧ FirstOfRoot tree.nodes root position := by
  simp only [earliestSlot?, Option.bind_eq_bind, Option.bind_eq_some_iff, Option.pure_def,
    Option.some.injEq]
  constructor
  · rintro ⟨span, found, node, here, rfl⟩
    obtain ⟨node', there, sameRoot⟩ := (indexed.spanOf root span found).first
    obtain rfl := Option.some.inj (there.symm.trans here)
    exact ⟨span.first, node', here, by rw [← sameRoot], indexed.firstOfRoot_first found⟩
  · rintro ⟨position, node, here, named, first⟩
    obtain ⟨span, found⟩ := indexed.spanned position node here
    have ofRoot : node.ref.root = root := by rw [named]
    rw [ofRoot] at found
    have same := indexed.first_eq found here ofRoot first
    exact ⟨span, found, node, same ▸ here, by rw [named]⟩

end Indexed

/-- How a node is linked to its parents. -/
inductive Link (nodes : List Node) (position : Nat) (node : Node) : Prop
  | severed
    (noState : node.stateParent = none) (noVote : node.voteParent = none)
    (first : FirstOfRoot nodes node.ref.root position)
  | slot (above : Nat) (before : Node)
    (earlier : above < position) (found : nodes[above]? = some before)
    (sameRoot : before.ref.root = node.ref.root) (nextSlot : node.ref.slot = before.ref.slot + 1)
    (empty : node.parentRoot = node.ref.root)
    (state : node.stateParent = some above) (vote : node.voteParent = some above)
  | block (above : Nat) (before : Node)
    (earlier : above < position) (found : nodes[above]? = some before)
    (parent : before.ref.root = node.parentRoot) (sameSlot : before.ref.slot = node.ref.slot)
    (filled : node.parentRoot ≠ node.ref.root) (empty : before.parentRoot = before.ref.root)
    (state : node.stateParent = some above) (vote : node.voteParent = before.voteParent)
    (first : FirstOfRoot nodes node.ref.root position)

/-- The index of a tree is exact, and all nodes are linked to their parents. -/
structure WellFormed (tree : BlockTree) : Prop extends Indexed tree where
  links : ∀ (position : Nat) (node : Node), tree.nodes[position]? = some node →
    Link tree.nodes position node

namespace WellFormed

variable {tree : BlockTree}

/-- The state parent of an empty slot is its vote parent. -/
theorem voteParent_eq_of_empty
    (wellFormed : WellFormed tree) {position : Nat} {node : Node}
    (here : tree.nodes[position]? = some node) (empty : node.parentRoot = node.ref.root) :
    node.voteParent = node.stateParent := by
  cases wellFormed.links position node here with
  | severed noState noVote _ => rw [noState, noVote]
  | slot above before _ _ _ _ _ state vote => rw [state, vote]
  | block above before _ _ _ _ filled => exact absurd empty filled

theorem stateParentsFirst (wellFormed : WellFormed tree) :
    ParentsFirst tree.nodes Node.stateParent := by
  intro child above step
  obtain ⟨node, here, parent⟩ := parentAt_iff.1 step
  cases wellFormed.links child node here with
  | severed noState => simp [noState] at parent
  | slot other before earlier _ _ _ _ state =>
    exact Option.some.inj (state.symm.trans parent) ▸ earlier
  | block other before earlier _ _ _ _ _ state =>
    exact Option.some.inj (state.symm.trans parent) ▸ earlier

/-- A vote parent is a state parent, or the state parent of one. -/
theorem stateDescends_of_voteParent
    (wellFormed : WellFormed tree) {child above : Nat}
    (step : ParentAt tree.nodes Node.voteParent child above) :
    ∃ next, ParentAt tree.nodes Node.stateParent child next ∧ tree.StateDescends next above := by
  obtain ⟨node, here, parent⟩ := parentAt_iff.1 step
  cases wellFormed.links child node here with
  | severed _ noVote => simp [noVote] at parent
  | slot other before _ _ _ _ _ state vote =>
    obtain rfl := Option.some.inj (vote.symm.trans parent)
    exact ⟨other, parentAt_iff.2 ⟨node, here, state⟩, ReflTransGen.refl⟩
  | block other before _ found _ _ _ empty state vote =>
    have up : before.stateParent = some above := by
      rw [← wellFormed.voteParent_eq_of_empty found empty, ← vote, parent]
    exact ⟨other, parentAt_iff.2 ⟨node, here, state⟩,
      ReflTransGen.single (parentAt_iff.2 ⟨before, found, up⟩)⟩

theorem stateDescends_of_voteDescends
    (wellFormed : WellFormed tree) {below above : Nat}
    (descends : tree.VoteDescends below above) : tree.StateDescends below above := by
  induction descends with
  | refl => exact ReflTransGen.refl
  | tail _ step ih =>
    obtain ⟨next, state, rest⟩ := wellFormed.stateDescends_of_voteParent step
    exact ih.trans (ReflTransGen.head state rest)

theorem voteParentsFirst (wellFormed : WellFormed tree) :
    ParentsFirst tree.nodes Node.voteParent := by
  intro child above step
  obtain ⟨next, state, rest⟩ := wellFormed.stateDescends_of_voteParent step
  have earlier := wellFormed.stateParentsFirst _ _ state
  have notLater := Descends.le wellFormed.stateParentsFirst rest
  omega

theorem slot_link_of_not_first
    (wellFormed : WellFormed tree) {position other : Nat} {node found : Node}
    (here : tree.nodes[position]? = some node) (there : tree.nodes[other]? = some found)
    (sameRoot : found.ref.root = node.ref.root) (earlier : other < position) :
    ∃ (above : Nat) (before : Node), above < position ∧ tree.nodes[above]? = some before ∧
      before.ref.root = node.ref.root ∧ node.ref.slot = before.ref.slot + 1 ∧
      node.parentRoot = node.ref.root ∧ node.stateParent = some above ∧
      node.voteParent = some above := by
  cases wellFormed.links position node here with
  | severed _ _ first => exact absurd (first other found there sameRoot) (by omega)
  | slot above before lower at' root slot empty state vote =>
    exact ⟨above, before, lower, at', root, slot, empty, state, vote⟩
  | block _ _ _ _ _ _ _ _ _ _ first =>
    exact absurd (first other found there sameRoot) (by omega)

/-- Between the first node of a root and a later one there is a node at every
slot, and the later node descends from it. -/
theorem exists_at_slot
    (wellFormed : WellFormed tree) {root : Root} {first : Nat} {anchor : Node}
    (firstHere : tree.nodes[first]? = some anchor) (anchorRoot : anchor.ref.root = root)
    (isFirst : FirstOfRoot tree.nodes root first) :
    ∀ (position : Nat) (node : Node), tree.nodes[position]? = some node →
      node.ref.root = root →
        anchor.ref.slot ≤ node.ref.slot ∧
        ∀ slot, anchor.ref.slot ≤ slot → slot ≤ node.ref.slot →
          ∃ (other : Nat) (found : Node), tree.nodes[other]? = some found ∧
            found.ref = ⟨root, slot⟩ ∧ tree.VoteDescends position other := by
  intro position
  induction position using Nat.strongRecOn with
  | ind position ih =>
    intro node here ofRoot
    rcases Nat.lt_or_ge first position with later | notLater
    · obtain ⟨above, before, lower, found, sameRoot, nextSlot, _, _, vote⟩ :=
        wellFormed.slot_link_of_not_first here firstHere (anchorRoot.trans ofRoot.symm) later
      obtain ⟨bound, below⟩ := ih above lower before found (sameRoot.trans ofRoot)
      refine ⟨by omega, fun slot low high => ?_⟩
      rcases Nat.lt_or_ge slot node.ref.slot with earlier | same
      · obtain ⟨other, node', there, named, descends⟩ := below slot low (by omega)
        exact ⟨other, node', there, named,
          ReflTransGen.head (parentAt_iff.2 ⟨node, here, vote⟩) descends⟩
      · exact ⟨position, node, here, NodeRef.eq_mk ofRoot (Nat.le_antisymm same high),
          ReflTransGen.refl⟩
    · obtain rfl : position = first :=
        Nat.le_antisymm notLater (isFirst position node here ofRoot)
      obtain rfl := Option.some.inj (firstHere.symm.trans here)
      refine ⟨Nat.le_refl _, fun slot low high => ?_⟩
      exact ⟨position, anchor, here, NodeRef.eq_mk ofRoot (Nat.le_antisymm low high),
        ReflTransGen.refl⟩

theorem exists_first
    (wellFormed : WellFormed tree) {position : Nat} {node : Node}
    (here : tree.nodes[position]? = some node) :
    ∃ (span : Span) (anchor : Node), tree.spans.find? node.ref.root = some span ∧
      tree.nodes[span.first]? = some anchor ∧ anchor.ref.root = node.ref.root ∧
      FirstOfRoot tree.nodes node.ref.root span.first := by
  obtain ⟨span, found⟩ := wellFormed.spanned position node here
  obtain ⟨anchor, firstHere, sameRoot⟩ := (wellFormed.spanOf _ _ found).first
  exact ⟨span, anchor, found, firstHere, sameRoot, wellFormed.firstOfRoot_first found⟩

theorem voteDescends_of_slot_le
    (wellFormed : WellFormed tree) {position other : Nat} {node found : Node}
    (here : tree.nodes[position]? = some node) (there : tree.nodes[other]? = some found)
    (sameRoot : found.ref.root = node.ref.root) (notLater : found.ref.slot ≤ node.ref.slot) :
    tree.VoteDescends position other := by
  obtain ⟨span, anchor, _, firstHere, anchorRoot, isFirst⟩ := wellFormed.exists_first here
  have low := (wellFormed.exists_at_slot firstHere anchorRoot isFirst other found there sameRoot).1
  obtain ⟨place, node', at', named, descends⟩ :=
    (wellFormed.exists_at_slot firstHere anchorRoot isFirst position node here rfl).2
      found.ref.slot low notLater
  have : node'.ref = found.ref := by rw [named, ← sameRoot]
  exact wellFormed.position_unique at' there this ▸ descends

theorem slot_le_iff
    (wellFormed : WellFormed tree) {position other : Nat} {node found : Node}
    (here : tree.nodes[position]? = some node) (there : tree.nodes[other]? = some found)
    (sameRoot : found.ref.root = node.ref.root) :
    found.ref.slot ≤ node.ref.slot ↔ other ≤ position := by
  constructor
  · intro notLater
    exact Descends.le wellFormed.voteParentsFirst
      (wellFormed.voteDescends_of_slot_le here there sameRoot notLater)
  · intro notLater
    rcases Nat.lt_or_ge node.ref.slot found.ref.slot with later | earlier
    · have up := wellFormed.voteDescends_of_slot_le there here sameRoot.symm (by omega)
      have := Descends.le wellFormed.voteParentsFirst up
      obtain rfl : other = position := by omega
      obtain rfl := Option.some.inj (here.symm.trans there)
      exact Nat.le_refl _
    · exact earlier

end WellFormed

end BlockTree

end BeaconChain
