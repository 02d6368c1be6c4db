import BeaconChain.Proofs.BlockTree.Ghost
import BeaconChain.Proofs.BlockTree.Relation
import BeaconChain.Proofs.BlockTree.Resolve

/-!
# Trees with the same nodes in another order

Positions depend on the order in which nodes arrived.  The name of a parent does not: it can be
told from the node itself.  Two trees whose nodes are the same but for their positions therefore
answer alike whatever is asked by name.
-/

open Relation

namespace BeaconChain.BlockTree

section Parents

variable {tree : BlockTree} {child above position : Nat} {node upper : Node}

/-- The vote parent stands one slot before the node, under the root of its parent. -/
theorem WellFormed.ref_of_voteParent
    (wellFormed : WellFormed tree) (here : tree.nodes[child]? = some node)
    (step : node.voteParent = some above) :
    ∃ upper, tree.nodes[above]? = some upper ∧ upper.ref.root = node.parentRoot ∧
      node.ref.slot = upper.ref.slot + 1 := by
  cases wellFormed.links _ _ here with
  | severed _ noVote => simp [noVote] at step
  | slot next before _ found sameRoot nextSlot empty _ vote =>
    obtain rfl := Option.some.inj (vote.symm.trans step)
    exact ⟨before, found, sameRoot.trans empty.symm, nextSlot⟩
  | block next before _ found parent sameSlot _ empty _ vote =>
    rw [vote] at step
    cases wellFormed.links _ _ found with
    | severed _ noVote => simp [noVote] at step
    | slot last oldest _ oldestFound sameRoot nextSlot _ _ voteOfBefore =>
      obtain rfl := Option.some.inj (voteOfBefore.symm.trans step)
      exact ⟨oldest, oldestFound, sameRoot.trans parent, sameSlot.symm.trans nextSlot⟩
    | block _ _ _ _ _ _ filled => exact absurd empty filled

/-- The state parent of a block stands in the slot of the block, that of an empty slot one slot
before it. -/
theorem WellFormed.ref_of_stateParent
    (wellFormed : WellFormed tree) (here : tree.nodes[child]? = some node)
    (step : node.stateParent = some above) :
    above < child ∧ ∃ upper, tree.nodes[above]? = some upper ∧ upper.ref.root = node.parentRoot ∧
      node.ref.slot = upper.ref.slot + if node.hasBlock then 0 else 1 := by
  cases wellFormed.links _ _ here with
  | severed noState => simp [noState] at step
  | slot next before earlier found sameRoot nextSlot empty state =>
    obtain rfl := Option.some.inj (state.symm.trans step)
    refine ⟨earlier, before, found, sameRoot.trans empty.symm, ?_⟩
    simpa [Node.hasBlock, empty] using nextSlot
  | block next before earlier found parent sameSlot filled _ state =>
    obtain rfl := Option.some.inj (state.symm.trans step)
    refine ⟨earlier, before, found, parent, ?_⟩
    simpa [Node.hasBlock, filled] using sameSlot.symm

theorem WellFormed.slot_lt_of_voteParent
    (wellFormed : WellFormed tree) (here : tree.nodes[child]? = some node)
    (aboveHere : tree.nodes[above]? = some upper)
    (step : ParentAt tree.nodes Node.voteParent child above) : upper.ref.slot < node.ref.slot := by
  obtain ⟨found, there, up⟩ := parentAt_iff.1 step
  obtain rfl := Option.some.inj (there.symm.trans here)
  obtain ⟨other, otherHere, _, nextSlot⟩ := wellFormed.ref_of_voteParent here up
  obtain rfl := Option.some.inj (otherHere.symm.trans aboveHere)
  omega

theorem WellFormed.slot_lt_of_voteDescends
    (wellFormed : WellFormed tree) (here : tree.nodes[child]? = some node)
    (aboveHere : tree.nodes[above]? = some upper) (descends : tree.VoteDescends child above)
    (different : child ≠ above) : upper.ref.slot < node.ref.slot := by
  induction descends using ReflTransGen.head_induction_on generalizing node with
  | refl => exact absurd rfl different
  | @head child next step _ ih =>
    obtain ⟨found, there, up⟩ := parentAt_iff.1 step
    obtain ⟨between, nextHere, _⟩ := wellFormed.ref_of_voteParent there up
    have before := wellFormed.slot_lt_of_voteParent here nextHere step
    by_cases isAbove : next = above
    · subst isAbove
      obtain rfl := Option.some.inj (nextHere.symm.trans aboveHere)
      exact before
    · exact Nat.lt_trans (ih nextHere isAbove) before

end Parents

section Subtrees

variable {tree : BlockTree} {anchor root : Root}

/-- Ancestors that stand at or after a position are met before any other. -/
theorem mem_takeWhile_ancestry
    {nodes : List Node} {parent : Node → Option Nat} (ordered : ParentsFirst nodes parent)
    {ancestor : Nat} {found : Node} (foundAt : nodes[ancestor]? = some found) :
    ∀ {steps position : Nat}, position < steps → Descends nodes parent position ancestor →
      (ancestor, found) ∈ (ancestry nodes parent steps position).takeWhile
        fun visited => ancestor ≤ visited.1
  | steps + 1, position, enough, descends => by
    have notLater := descends.le ordered
    rcases ReflTransGen.cases_head descends with rfl | ⟨next, step, rest⟩
    · simp [ancestry, foundAt]
    · obtain ⟨node, here, above⟩ := parentAt_iff.1 step
      have earlier := ordered _ _ step
      have later : (ancestor, found) ∈ (ancestry nodes parent steps next).takeWhile
          fun visited => ancestor ≤ visited.1 :=
        mem_takeWhile_ancestry ordered foundAt (by omega) rest
      simp [ancestry, here, above, notLater, later]

theorem Indexed.earliestSlot?_of_isFirst
    (indexed : Indexed tree) {position : Nat} {node : Node}
    (isFirst : IsFirst tree.nodes root position)
    (here : tree.nodes[position]? = some node) : tree.earliestSlot? root = some node.ref.slot := by
  obtain ⟨found, there, ofRoot⟩ := isFirst.here
  obtain rfl := Option.some.inj (there.symm.trans here)
  exact indexed.earliestSlot?_eq_some_iff.2
    ⟨position, found, here, NodeRef.eq_mk ofRoot rfl, isFirst.first⟩

/-- A root that is not the anchor is inside its subtree if and only if its first node descends
from the first one of the anchor. -/
theorem Sound.relation_eq_inside_iff
    (sound : Sound tree) (different : anchor ≠ root) :
    tree.relation anchor root = .inside ↔
      ∃ anchorFirst first, IsFirst tree.nodes anchor anchorFirst ∧ IsFirst tree.nodes root first ∧
        tree.VoteDescends first anchorFirst := by
  refine ⟨voteDescends_of_relation_inside sound different, ?_⟩
  rintro ⟨anchorFirst, first, isAnchor, isFirst, descends⟩
  obtain ⟨upper, upperHere, ofAnchor⟩ := isAnchor.here
  obtain ⟨lower, lowerHere, ofRoot⟩ := isFirst.here
  obtain ⟨anchorSpan, anchorFound⟩ := sound.spanned _ _ upperHere
  obtain ⟨span, found⟩ := sound.spanned _ _ lowerHere
  rw [ofAnchor] at anchorFound
  rw [ofRoot] at found
  obtain rfl := (sound.isFirst anchorFound).unique isAnchor
  obtain rfl := (sound.isFirst found).unique isFirst
  have notBefore := descends.le sound.voteParentsFirst
  have apart : span.first ≠ anchorSpan.first := by
    intro same
    rw [same] at lowerHere
    obtain rfl := Option.some.inj (upperHere.symm.trans lowerHere)
    exact different (ofAnchor.symm.trans ofRoot)
  have later := sound.slot_lt_of_voteDescends lowerHere upperHere descends apart
  have reached : ((tree.voteLineage span.first).takeWhile
      fun ancestor => anchorSpan.first ≤ ancestor.1).any
        (fun ancestor => ancestor.2.ref.root = anchor) = true := by
    apply List.any_eq_true.2
    refine ⟨(anchorSpan.first, upper), ?_, by simpa using ofAnchor⟩
    exact mem_takeWhile_ancestry sound.voteParentsFirst upperHere
      (List.getElem?_eq_some_iff.1 lowerHere).1 descends
  unfold relation
  rw [if_neg different]
  simp only [anchorFound, found, sound.earliestSlot?_of_isFirst isAnchor upperHere,
    sound.earliestSlot?_of_isFirst isFirst lowerHere]
  rw [if_neg (by omega), reached]
  simp

/-- A root that is not the anchor is related to it unless the tree does not know one of them. -/
theorem relation_eq_unknown_iff (different : anchor ≠ root) :
    tree.relation anchor root = .unknown ↔
      tree.earliestSlot? anchor = none ∨ tree.earliestSlot? root = none := by
  unfold relation
  rw [if_neg different]
  split
  next anchorSpan span anchorFound found =>
    split
    next anchorSlot slot anchorKnown known =>
      simp only [anchorKnown, known, reduceCtorEq, or_self, iff_false]
      split
      · simp
      · split
        · simp
        · split <;> simp
    next unmatched =>
      simp only [true_iff]
      by_contra! known
      obtain ⟨anchorSlot, anchorKnown⟩ := Option.ne_none_iff_exists'.1 known.1
      obtain ⟨slot, rootKnown⟩ := Option.ne_none_iff_exists'.1 known.2
      exact unmatched anchorSlot slot anchorKnown rootKnown
  next unmatched =>
    simp only [true_iff]
    by_contra! known
    obtain ⟨anchorSlot, anchorKnown⟩ := Option.ne_none_iff_exists'.1 known.1
    obtain ⟨slot, rootKnown⟩ := Option.ne_none_iff_exists'.1 known.2
    obtain ⟨anchorSpan, anchorFound, _⟩ := Option.bind_eq_some_iff.1 anchorKnown
    obtain ⟨span, found, _⟩ := Option.bind_eq_some_iff.1 rootKnown
    exact unmatched anchorSpan span anchorFound found

/-- Two roots are related as two others if they are inside together and unknown together. -/
theorem relation_eq_of_iff
    {first second : Relation} (inside : first = .inside ↔ second = .inside)
    (unknown : first = .unknown ↔ second = .unknown) : first = second := by
  cases first with
  | unknown => exact (unknown.1 rfl).symm
  | inside => exact (inside.1 rfl).symm
  | outside =>
    cases second with
    | unknown => exact unknown.2 rfl
    | inside => exact inside.2 rfl
    | outside => rfl

end Subtrees

/-- Nodes that say the same of a block or a slot, wherever they and their parents stand. -/
structure Alike (node other : Node) : Prop where
  ref : node.ref = other.ref
  parentRoot : node.parentRoot = other.parentRoot
  stamp : node.stamp = other.stamp
  weight : node.weight = other.weight
  stateParent : node.stateParent.isSome = other.stateParent.isSome
  voteParent : node.voteParent.isSome = other.voteParent.isSome

theorem Alike.hasBlock_eq {node other : Node} (alike : Alike node other) :
    node.hasBlock = other.hasBlock := by
  simp [Node.hasBlock, alike.ref, alike.parentRoot]

/-- The nodes of either tree are those of the other one, in any order. -/
structure Reordered (tree other : BlockTree) : Prop where
  wellFormed : WellFormed tree
  otherWellFormed : WellFormed other
  exists_alike : ∀ node ∈ tree.nodes, ∃ found ∈ other.nodes, Alike node found
  exists_alike_of_other : ∀ found ∈ other.nodes, ∃ node ∈ tree.nodes, Alike found node

namespace Reordered

variable {tree other : BlockTree} {position place : Nat} {node found : Node} {root : Root}
  {ref : NodeRef}

theorem symm (reordered : Reordered tree other) : Reordered other tree :=
  ⟨reordered.otherWellFormed, reordered.wellFormed, reordered.exists_alike_of_other,
    reordered.exists_alike⟩

theorem exists_position
    (reordered : Reordered tree other) (here : tree.nodes[position]? = some node) :
    ∃ (place : Nat) (found : Node), other.nodes[place]? = some found ∧ Alike node found := by
  obtain ⟨found, member, alike⟩ := reordered.exists_alike node (List.mem_of_getElem? here)
  obtain ⟨place, there⟩ := List.mem_iff_getElem?.1 member
  exact ⟨place, found, there, alike⟩

/-- Nodes of the same name are alike. -/
theorem alike_of_ref_eq
    (reordered : Reordered tree other) (here : tree.nodes[position]? = some node)
    (there : other.nodes[place]? = some found) (same : node.ref = found.ref) :
    Alike node found := by
  obtain ⟨where', twin, twinThere, alike⟩ := reordered.exists_position here
  have samePlace : where' = place :=
    reordered.otherWellFormed.position_unique twinThere there (alike.ref.symm.trans same)
  subst samePlace
  rwa [Option.some.inj (there.symm.trans twinThere)]

theorem sight?_eq_some
    (reordered : Reordered tree other) {seen : Sight} (sighted : tree.sight? ref = some seen) :
    other.sight? ref = some seen := by
  have wellFormed := reordered.wellFormed
  have otherWellFormed := reordered.otherWellFormed
  obtain ⟨position, node, here, rfl⟩ := exists_of_sight? wellFormed.toIndexed sighted
  obtain ⟨place, found, there, alike⟩ := reordered.exists_position here
  rw [sight?_of_getElem? wellFormed.toIndexed here] at sighted
  obtain rfl := Option.some.inj sighted
  rw [alike.ref, sight?_of_getElem? otherWellFormed.toIndexed there]
  have parents : (found.voteParent.bind fun parent => other.nodes[parent]?).map Node.ref =
      (node.voteParent.bind fun parent => tree.nodes[parent]?).map Node.ref := by
    cases up : node.voteParent with
    | none =>
      have noParent : found.voteParent = none := by simpa [up] using alike.voteParent.symm
      simp [noParent]
    | some above =>
      have hasParent : found.voteParent.isSome = true := by simpa [up] using alike.voteParent.symm
      obtain ⟨otherAbove, otherUp⟩ := Option.isSome_iff_exists.1 hasParent
      obtain ⟨upper, upperHere, ofRoot, nextSlot⟩ := wellFormed.ref_of_voteParent here up
      obtain ⟨twin, twinHere, twinRoot, twinSlot⟩ := otherWellFormed.ref_of_voteParent there otherUp
      have sameSlot := congrArg NodeRef.slot alike.ref
      have named : twin.ref = upper.ref :=
        NodeRef.eq_mk (twinRoot.trans (alike.parentRoot.symm.trans ofRoot.symm)) (by
          show twin.ref.slot = upper.ref.slot
          omega)
      simp [otherUp, twinHere, upperHere, named]
  simp only [sightOf, parents, alike.weight, alike.hasBlock_eq, alike.stamp]

theorem sight?_eq (reordered : Reordered tree other) : other.sight? = tree.sight? := by
  funext ref
  ext seen
  exact ⟨reordered.symm.sight?_eq_some, reordered.sight?_eq_some⟩

theorem isLatest
    (reordered : Reordered tree other) (latest : IsLatest tree.nodes ref position node) :
    ∃ (place : Nat) (found : Node), IsLatest other.nodes ref place found ∧
      found.ref = node.ref := by
  obtain ⟨place, found, there, alike⟩ := reordered.exists_position latest.here
  have same := alike.ref
  refine ⟨place, found, ⟨there, same ▸ latest.ofRoot, same ▸ latest.notLater, ?_⟩, same.symm⟩
  intro rival rivalNode rivalHere rivalRoot rivalNotLater
  obtain ⟨origin, twin, twinHere, twinAlike⟩ := reordered.symm.exists_position rivalHere
  rw [twinAlike.ref] at rivalRoot rivalNotLater ⊢
  rw [← same]
  exact latest.greatest origin twin twinHere rivalRoot rivalNotLater

theorem resolve?_eq (reordered : Reordered tree other) (ref : NodeRef) :
    (other.resolve? ref).map Prod.fst = (tree.resolve? ref).map Prod.fst := by
  rcases reordered.wellFormed.resolve?_cases ref with
    ⟨position, node, latest, resolved⟩ | ⟨later, none⟩
  · obtain ⟨place, found, otherLatest, same⟩ := reordered.isLatest latest
    rw [resolved, reordered.otherWellFormed.resolve?_of_isLatest otherLatest]
    simp [same]
  · have otherLater : AllLater other.nodes ref := by
      intro place found there ofRoot
      obtain ⟨position, node, here, alike⟩ := reordered.symm.exists_position there
      rw [alike.ref] at ofRoot ⊢
      exact later position node here ofRoot
    rw [none, reordered.otherWellFormed.resolve?_of_allLater otherLater]

theorem earliestSlot?_eq_some
    (reordered : Reordered tree other) {slot : Nat} (known : tree.earliestSlot? root = some slot) :
    other.earliestSlot? root = some slot := by
  obtain ⟨position, node, here, named, first⟩ :=
    reordered.wellFormed.earliestSlot?_eq_some_iff.1 known
  obtain ⟨place, found, there, alike⟩ := reordered.exists_position here
  apply reordered.otherWellFormed.earliestSlot?_eq_some_iff.2
  refine ⟨place, found, there, alike.ref.symm.trans named, ?_⟩
  intro rival rivalNode rivalHere rivalRoot
  obtain ⟨origin, twin, twinHere, twinAlike⟩ := reordered.symm.exists_position rivalHere
  have ofRoot : node.ref.root = root := congrArg NodeRef.root named
  have twinRoot : twin.ref.root = root := twinAlike.ref ▸ rivalRoot
  have notLater : node.ref.slot ≤ twin.ref.slot :=
    (reordered.wellFormed.slot_le_iff twinHere here (ofRoot.trans twinRoot.symm)).2
      (first origin twin twinHere twinRoot)
  apply (reordered.otherWellFormed.slot_le_iff rivalHere there ?_).1
  · rwa [← alike.ref, twinAlike.ref]
  · rw [← alike.ref, rivalRoot, ofRoot]

theorem earliestSlot?_eq (reordered : Reordered tree other) (root : Root) :
    other.earliestSlot? root = tree.earliestSlot? root := by
  ext slot
  exact ⟨reordered.symm.earliestSlot?_eq_some, reordered.earliestSlot?_eq_some⟩

/-- Lineages of nodes of the same name run through nodes of the same names. -/
theorem map_ref_ancestry
    (reordered : Reordered tree other) {steps position others place : Nat} {node found : Node}
    (enough : position < steps) (otherEnough : place < others)
    (here : tree.nodes[position]? = some node) (there : other.nodes[place]? = some found)
    (same : node.ref = found.ref) :
    (ancestry tree.nodes Node.stateParent steps position).map (fun ancestor => ancestor.2.ref) =
      (ancestry other.nodes Node.stateParent others place).map fun ancestor => ancestor.2.ref := by
  induction steps generalizing position others place node found with
  | zero => omega
  | succ steps ih =>
    cases others with
    | zero => omega
    | succ others =>
      have alike := reordered.alike_of_ref_eq here there same
      cases up : node.stateParent with
      | none =>
        have noParent : found.stateParent = none := by simpa [up] using alike.stateParent.symm
        simp [ancestry, here, there, up, noParent, same]
      | some above =>
        have hasParent : found.stateParent.isSome = true := by
          simpa [up] using alike.stateParent.symm
        obtain ⟨otherAbove, otherUp⟩ := Option.isSome_iff_exists.1 hasParent
        obtain ⟨earlier, upper, upperHere, ofRoot, slots⟩ :=
          reordered.wellFormed.ref_of_stateParent here up
        obtain ⟨otherEarlier, twin, twinHere, twinRoot, twinSlots⟩ :=
          reordered.otherWellFormed.ref_of_stateParent there otherUp
        have sameSlot : upper.ref.slot = twin.ref.slot := by
          rw [← alike.hasBlock_eq, ← alike.ref] at twinSlots
          omega
        have sameAbove : upper.ref = twin.ref :=
          NodeRef.eq_mk (ofRoot.trans (alike.parentRoot.trans twinRoot.symm)) sameSlot
        have rest : (ancestry tree.nodes Node.stateParent steps above).map
              (fun ancestor => ancestor.2.ref) =
            (ancestry other.nodes Node.stateParent others otherAbove).map
              fun ancestor => ancestor.2.ref :=
          ih (by omega) (by omega) upperHere twinHere sameAbove
        simp [ancestry, here, there, up, otherUp, same, rest]

theorem map_ref_stateLineage
    (reordered : Reordered tree other) (here : tree.nodes[position]? = some node)
    (there : other.nodes[place]? = some found) (same : node.ref = found.ref) :
    (tree.stateLineage position).map (fun ancestor => ancestor.2.ref) =
      (other.stateLineage place).map fun ancestor => ancestor.2.ref :=
  reordered.map_ref_ancestry (List.getElem?_eq_some_iff.1 here).1
    (List.getElem?_eq_some_iff.1 there).1 here there same

theorem relation_eq_inside
    (reordered : Reordered tree other) (sound : Sound tree)
    (otherSound : Sound other) {anchor : Root}
    (different : anchor ≠ root) (inside : tree.relation anchor root = .inside) :
    other.relation anchor root = .inside := by
  obtain ⟨anchorFirst, first, isAnchor, isFirst, descends⟩ :=
    (sound.relation_eq_inside_iff different).1 inside
  obtain ⟨upper, upperHere, ofAnchor⟩ := isAnchor.here
  obtain ⟨lower, lowerHere, ofRoot⟩ := isFirst.here
  have below : ReflTransGen (Ghost.IsChild other.sight?) lower.ref upper.ref := by
    rw [reordered.sight?_eq]
    exact (descends_iff sound.toWellFormed upperHere).2
      ⟨first, lower, lowerHere, rfl, descends⟩
  have anchorKnown :=
    reordered.earliestSlot?_eq_some (sound.earliestSlot?_of_isFirst isAnchor upperHere)
  have known := reordered.earliestSlot?_eq_some (sound.earliestSlot?_of_isFirst isFirst lowerHere)
  obtain ⟨anchorPlace, twinAbove, aboveThere, aboveNamed, anchorIsFirst⟩ :=
    otherSound.earliestSlot?_eq_some_iff.1 anchorKnown
  obtain ⟨place, twin, there, named, twinIsFirst⟩ := otherSound.earliestSlot?_eq_some_iff.1 known
  have sameAbove : upper.ref = twinAbove.ref := (NodeRef.eq_mk ofAnchor rfl).trans aboveNamed.symm
  have same : lower.ref = twin.ref := (NodeRef.eq_mk ofRoot rfl).trans named.symm
  rw [sameAbove] at below
  obtain ⟨place', twin', there', named', otherDescends⟩ :=
    (descends_iff otherSound.toWellFormed aboveThere).1 below
  obtain rfl := otherSound.position_unique there' there (named'.trans same)
  exact (otherSound.relation_eq_inside_iff different).2 ⟨anchorPlace, place',
    ⟨⟨twinAbove, aboveThere, congrArg NodeRef.root aboveNamed⟩, anchorIsFirst⟩,
    ⟨⟨twin, there, congrArg NodeRef.root named⟩, twinIsFirst⟩, otherDescends⟩

theorem relation_eq
    (reordered : Reordered tree other) (sound : Sound tree) (otherSound : Sound other)
    (anchor root : Root) : other.relation anchor root = tree.relation anchor root := by
  by_cases different : anchor = root
  · rw [different, relation_self, relation_self]
  · refine relation_eq_of_iff ?_ ?_
    · exact ⟨reordered.symm.relation_eq_inside otherSound sound different,
        reordered.relation_eq_inside sound otherSound different⟩
    · rw [relation_eq_unknown_iff different, relation_eq_unknown_iff different,
        reordered.earliestSlot?_eq, reordered.earliestSlot?_eq]

end Reordered

end BeaconChain.BlockTree
