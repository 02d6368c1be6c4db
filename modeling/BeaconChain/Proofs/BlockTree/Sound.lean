import BeaconChain.Proofs.BlockTree.Drop
import BeaconChain.Proofs.BlockTree.Links

/-!
# Sound trees

A sound tree is well formed, its links lead downwards even where they are out of
date, and unless they are out of date they lead to the best children.  Every
operation keeps a tree sound, whether it succeeds or not, and so every tree that can
be reached is sound.
-/

namespace BeaconChain.BlockTree

/-- Every link leads to a child of its node, and on to a head that descends from the
child. -/
def LinksDown (nodes : List Node) : Prop :=
  ∀ (position : Nat) (node : Node) (best : Best), nodes[position]? = some node →
    node.best = some best →
    ParentAt nodes Node.voteParent best.child position ∧
      Descends nodes Node.voteParent best.head best.child

/-- A tree that the operations can be applied to. -/
structure Sound (tree : BlockTree) : Prop extends WellFormed tree where
  down : LinksDown tree.nodes
  linked : tree.outdated = false → AllLinkedFrom tree.stamp tree.nodes 0

theorem WellFormed.arranged {tree : BlockTree} (wellFormed : WellFormed tree) :
    Arranged tree.nodes where
  ordered := wellFormed.voteParentsFirst
  distinct _ _ _ _ here there named := wellFormed.position_unique here there named

theorem AllLinkedFrom.linksDown
    {current : Stamp} {nodes : List Node} (linked : AllLinkedFrom current nodes 0)
    (arranged : Arranged nodes) : LinksDown nodes := by
  intro position node best here linkOf
  have link := linked position node here
  rw [linkOf] at link
  obtain _ | ⟨_, isChild, childHere, _, _⟩ := link
  obtain ⟨_, _, descends, _⟩ := linked.head arranged childHere (Nat.zero_le _)
  exact ⟨isChild, descends⟩

theorem allLinkedFrom_relink {tree : BlockTree} (wellFormed : WellFormed tree) :
    AllLinkedFrom tree.stamp tree.relink.nodes 0 := by
  have same : SameNodes (tree.nodes.map fun node => { node with best := none }) tree.nodes := by
    simp [SameNodes, Node.bare]
  refine allLinkedFrom_linkNodes (wellFormed.arranged.congr same) ?_
  intro position node here
  rw [List.getElem?_map, Option.map_eq_some_iff] at here
  obtain ⟨before, _, rfl⟩ := here
  refine .noBest fun child offered isChild => ?_
  have inside := isChild.lt_length
  rw [same.length_eq] at inside
  exact absurd inside (Nat.not_lt.2 offered)

theorem sound_relink {tree : BlockTree} (wellFormed : WellFormed tree) : Sound tree.relink :=
  have relinked := (sameShape_relink tree).symm.wellFormed wellFormed
  have linked := allLinkedFrom_relink wellFormed
  { toWellFormed := relinked
    down := linked.linksDown relinked.arranged
    linked := fun _ => linked }

theorem outdated_refresh (tree : BlockTree) : tree.refresh.outdated = false := by
  unfold refresh
  split
  next => rfl
  next upToDate => simpa using upToDate

@[simp]
theorem stamp_refresh (tree : BlockTree) : tree.refresh.stamp = tree.stamp := by
  unfold refresh
  split <;> rfl

theorem LinksDown.push
    {tree : BlockTree} {node : Node} (down : LinksDown tree.nodes) (unlinked : node.best = none) :
    LinksDown (tree.push node).nodes := by
  intro position found best there linkOf
  rcases getElem?_concat_eq_some_iff.1 there with old | ⟨_, rfl⟩
  · obtain ⟨isChild, descends⟩ := down position found best old linkOf
    exact ⟨(parentAt_append isChild.lt_length).2 isChild, descends.append⟩
  · simp [unlinked] at linkOf

theorem Appendable.best_eq_none
    {admits : Root → Root → Nat → Prop} {tree : BlockTree} {node : Node}
    (appendable : Appendable admits tree node) : node.best = none := by
  cases appendable <;> rfl

theorem LinksDown.grow
    {admits : Root → Root → Nat → Prop} {tree grown : BlockTree} (down : LinksDown tree.nodes)
    (growth : Grows admits tree grown) : LinksDown grown.nodes := by
  induction growth with
  | refl => exact down
  | push _ appendable ih => exact ih.push appendable.best_eq_none
  | outdate _ ih => exact ih

/-- An insertion that adds nodes puts the links out of date. -/
theorem insertSlots_outdated (tree : BlockTree) (root : Root) (slot : Nat) (stamp : Stamp) :
    (tree.insertSlots root slot stamp).2 = tree ∨
      (tree.insertSlots root slot stamp).2.outdated = true := by
  unfold insertSlots
  split
  · exact .inl rfl
  · split
    · split
      · exact .inl rfl
      · exact .inr rfl
    · exact .inl rfl

theorem insertBlock_outdated
    (tree : BlockTree) (parentRoot root : Root) (slot : Nat) (stamp : Stamp) :
    (tree.insertBlock parentRoot root slot stamp).2 = tree ∨
      (tree.insertBlock parentRoot root slot stamp).2.outdated = true := by
  have slots := tree.insertSlots_outdated parentRoot slot stamp
  unfold insertBlock
  split
  · exact .inl rfl
  · split
    · exact .inl rfl
    · split
      · split
        next inserted =>
          rw [inserted] at slots
          exact slots
        next inserted =>
          rw [inserted] at slots
          split
          · exact slots
          · exact .inr rfl
      · exact .inl rfl

theorem LinksDown.dropOldest
    {tree : BlockTree} (wellFormed : WellFormed tree) (down : LinksDown tree.nodes) (count : Nat) :
    LinksDown (tree.dropOldest count).nodes := by
  intro position node best there linkOf
  obtain ⟨before, here, rfl⟩ := getElem?_dropOldest_eq_some_iff.1 there
  obtain ⟨⟨child, head⟩, oldLink, shifted⟩ := Option.bind_eq_some_iff.1 linkOf
  obtain ⟨isChild, descends⟩ := down _ before _ here oldLink
  simp only [Option.bind_eq_bind, Option.bind_eq_some_iff, shift_eq_some_iff, Option.pure_def,
    Option.some.injEq] at shifted
  obtain ⟨newChild, rfl, newHead, rfl, rfl⟩ := shifted
  exact ⟨(parentAt_dropOldest shifts_voteParent).2 isChild,
    wellFormed.voteDescends_dropOldest.2 descends⟩

theorem prune_tree
    {store : Type} (tree : BlockTree) (anchor : NodeRef) (receive : NodeReceiver store)
    (state : store) :
    ∃ count, (tree.prune anchor receive state).2.1 = tree.refresh.dropOldest count := by
  unfold prune
  dsimp only
  split
  · exact ⟨0, by simp⟩
  · exact ⟨_, rfl⟩

namespace Sound

variable {tree : BlockTree}

theorem of_grow
    {admits : Root → Root → Nat → Prop} {grown : BlockTree} (sound : Sound tree)
    (growth : Grows admits tree grown) (outdated : grown = tree ∨ grown.outdated = true) :
    Sound grown where
  toWellFormed := sound.toWellFormed.grow growth
  down := sound.down.grow growth
  linked upToDate := by
    rcases outdated with rfl | outdated
    · exact sound.linked upToDate
    · simp [outdated] at upToDate

theorem insertSlots (sound : Sound tree) (root : Root) (slot : Nat) (stamp : Stamp) :
    Sound (tree.insertSlots root slot stamp).2 :=
  sound.of_grow (insertSlots_grows (fun _ _ _ => True) sound.toWellFormed root slot stamp)
    (tree.insertSlots_outdated root slot stamp)

theorem insertBlock
    (sound : Sound tree) (parentRoot root : Root) (slot : Nat) (stamp : Stamp) :
    Sound (tree.insertBlock parentRoot root slot stamp).2 :=
  sound.of_grow
    (insertBlock_grows (fun _ _ _ => True) sound.toWellFormed stamp trivial)
    (tree.insertBlock_outdated parentRoot root slot stamp)

theorem refresh (sound : Sound tree) : Sound tree.refresh := by
  unfold BlockTree.refresh
  split
  · exact sound_relink sound.toWellFormed
  · exact sound

theorem applyScores (sound : Sound tree) (deltas : List Int) (stamp : Stamp) :
    Sound (tree.applyScores deltas stamp).2 := by
  unfold BlockTree.applyScores
  split
  · exact sound
  · split
    next => exact sound
    next nodes added =>
      have same : SameShape { tree with nodes := nodes, stamp := stamp } tree :=
        ⟨sameNodes_addDeltas added, rfl, rfl⟩
      exact sound_relink (same.symm.wellFormed sound.toWellFormed)

theorem findHead (sound : Sound tree) (anchor : NodeRef) : Sound (tree.findHead anchor).2 := by
  rw [findHead_tree]
  exact sound.refresh

theorem dropOldest (sound : Sound tree) (count : Nat) : Sound (tree.dropOldest count) := by
  rcases Nat.eq_zero_or_pos count with rfl | some
  · rw [dropOldest_zero]
    exact sound
  · exact {
      toWellFormed := sound.toWellFormed.dropOldest count
      down := sound.down.dropOldest sound.toWellFormed count
      linked := fun upToDate => by
        simp [outdated_dropOldest tree (Nat.ne_of_gt some)] at upToDate }

theorem prune
    {store : Type} (sound : Sound tree) (anchor : NodeRef) (receive : NodeReceiver store)
    (state : store) : Sound (tree.prune anchor receive state).2.1 := by
  obtain ⟨count, pruned⟩ := prune_tree tree anchor receive state
  rw [pruned]
  exact sound.refresh.dropOldest count

end Sound

theorem sound_empty : Sound .empty where
  toIndexed := indexed_of_no_nodes _ _
  links position node here := by simp [empty] at here
  down position node best here := by simp [empty] at here
  linked _ position node here := by simp [empty] at here

theorem sound_ofAnchor (anchor : NodeRef) (parentRoot : Root) (stamp : Stamp) :
    Sound (.ofAnchor anchor parentRoot stamp) := by
  have only : ∀ {position : Nat} {node : Node},
      (ofAnchor anchor parentRoot stamp).nodes[position]? = some node →
        position = 0 ∧ node.stateParent = none ∧ node.voteParent = none ∧ node.best = none := by
    intro position node here
    rcases getElem?_concat_eq_some_iff.1 here with old | ⟨rfl, rfl⟩
    · simp at old
    · exact ⟨rfl, rfl, rfl, rfl⟩
  exact {
    toIndexed := (indexed_of_no_nodes stamp false).push rfl
    links := fun position node here => by
      obtain ⟨rfl, noState, noVote, _⟩ := only here
      exact .severed noState noVote fun _ _ _ _ => Nat.zero_le _
    down := fun position node best here linkOf => by
      obtain ⟨_, _, _, noLink⟩ := only here
      simp [noLink] at linkOf
    linked := fun _ position node here => by
      obtain ⟨_, _, _, noLink⟩ := only here
      rw [noLink]
      refine .noBest fun child _ isChild => ?_
      obtain ⟨childNode, childHere, up⟩ := parentAt_iff.1 isChild
      obtain ⟨_, _, noVote, _⟩ := only childHere
      simp [noVote] at up }

/-- The trees that the operations lead to, from the tree without nodes or from that
of an anchor.  Operations may fail, and a receiver may refuse any node. -/
inductive Reachable : BlockTree → Prop
  | empty : Reachable .empty
  | ofAnchor (anchor : NodeRef) (parentRoot : Root) (stamp : Stamp) :
    Reachable (.ofAnchor anchor parentRoot stamp)
  | insertSlots {tree : BlockTree} (reached : Reachable tree) (root : Root) (slot : Nat)
    (stamp : Stamp) : Reachable (tree.insertSlots root slot stamp).2
  | insertBlock {tree : BlockTree} (reached : Reachable tree) (parentRoot root : Root) (slot : Nat)
    (stamp : Stamp) : Reachable (tree.insertBlock parentRoot root slot stamp).2
  | applyScores {tree : BlockTree} (reached : Reachable tree) (deltas : List Int) (stamp : Stamp) :
    Reachable (tree.applyScores deltas stamp).2
  | findHead {tree : BlockTree} (reached : Reachable tree) (anchor : NodeRef) :
    Reachable (tree.findHead anchor).2
  | prune {tree : BlockTree} {store : Type} (reached : Reachable tree) (anchor : NodeRef)
    (receive : NodeReceiver store) (state : store) :
    Reachable (tree.prune anchor receive state).2.1

theorem Reachable.sound {tree : BlockTree} (reached : Reachable tree) : Sound tree := by
  induction reached with
  | empty => exact sound_empty
  | ofAnchor anchor parentRoot stamp => exact sound_ofAnchor anchor parentRoot stamp
  | insertSlots _ root slot stamp ih => exact ih.insertSlots root slot stamp
  | insertBlock _ parentRoot root slot stamp ih => exact ih.insertBlock parentRoot root slot stamp
  | applyScores _ deltas stamp ih => exact ih.applyScores deltas stamp
  | findHead _ anchor ih => exact ih.findHead anchor
  | prune _ anchor receive state ih => exact ih.prune anchor receive state

end BeaconChain.BlockTree
