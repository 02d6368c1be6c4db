import BeaconChain.Proofs.BlockTree.Reordered

/-!
# Trees of one shape

Trees of one shape take the same slots and blocks, and relate their roots alike.  If their weights
and current stamps are the same as well, they are equal once their links have been found anew.
Whichever way the links of a tree were found, there is one link only that leads to the best child of
a node.  Links that are not out of date are therefore the ones that would be found anew, and nothing
but the shape, the weights and the stamp of a tree can be seen through them.
-/

namespace BeaconChain

theorem Score.lt_irrefl (score : Score) : ¬ score < score := by
  rw [Score.lt_iff]
  omega

namespace BlockTree

namespace SameShape

variable {tree other : BlockTree}

theorem withOutdated (same : SameShape tree other) (first second : Bool) :
    SameShape { tree with outdated := first } { other with outdated := second } :=
  ⟨same.nodes, same.positions, same.spans⟩

theorem push (same : SameShape tree other) (node : Node) :
    SameShape (tree.push node) (other.push node) where
  nodes := by
    have bare : tree.nodes.map Node.bare = other.nodes.map Node.bare := same.nodes
    simp [SameNodes, bare]
  positions := by simp only [BlockTree.push, same.positions, same.size_eq]
  spans := by simp only [BlockTree.push, same.spans, same.size_eq]

theorem appendSlots (root : Root) (stamp : Stamp) :
    ∀ (count : Nat) {tree other : BlockTree} (previous slot : Nat), SameShape tree other →
      SameShape (appendSlots root stamp count tree previous slot)
        (appendSlots root stamp count other previous slot)
  | 0, _, _, _, _, same => same
  | count + 1, tree, other, previous, slot, same => by
    rw [BlockTree.appendSlots, BlockTree.appendSlots, same.size_eq]
    exact appendSlots root stamp count _ _ (same.push _)

theorem insertSlots (same : SameShape tree other) (root : Root) (slot : Nat) (stamp : Stamp) :
    (tree.insertSlots root slot stamp).1 = (other.insertSlots root slot stamp).1 ∧
      SameShape (tree.insertSlots root slot stamp).2 (other.insertSlots root slot stamp).2 := by
  have sameContains : tree.contains ⟨root, slot⟩ = other.contains ⟨root, slot⟩ := by
    simp only [contains, same.positions]
  simp only [BlockTree.insertSlots, sameContains, same.spans, same.latestSlot?_eq]
  split
  · exact ⟨rfl, same⟩
  · split
    next span latest _ _ =>
      split
      · exact ⟨rfl, same⟩
      · exact ⟨rfl, (appendSlots root stamp _ _ _ same).withOutdated true true⟩
    next => exact ⟨rfl, same⟩

theorem locate?_eq_some
    (same : SameShape tree other) {ref : NodeRef} {position : Nat} {node : Node}
    (located : tree.locate? ref = some (position, node)) :
    ∃ twin, other.locate? ref = some (position, twin) ∧ twin.bare = node.bare := by
  simp only [locate?, Option.bind_eq_bind, Option.bind_eq_some_iff, Option.pure_def,
    Option.some.injEq, Prod.mk.injEq] at located
  obtain ⟨place, known, found, here, rfl, rfl⟩ := located
  obtain ⟨twin, there, alike⟩ := same.nodes.getElem?_eq_some here
  rw [same.position?_eq] at known
  exact ⟨twin, by simp [locate?, known, there], alike⟩

theorem insertBlock
    (same : SameShape tree other) (parentRoot root : Root) (slot : Nat) (stamp : Stamp) :
    (tree.insertBlock parentRoot root slot stamp).1 =
        (other.insertBlock parentRoot root slot stamp).1 ∧
      SameShape (tree.insertBlock parentRoot root slot stamp).2
        (other.insertBlock parentRoot root slot stamp).2 := by
  have sameContains : tree.containsRoot root = other.containsRoot root := by
    simp only [containsRoot, same.spans]
  obtain ⟨sameAnswer, filled⟩ := same.insertSlots parentRoot slot stamp
  simp only [BlockTree.insertBlock, sameContains, same.earliestSlot?_eq]
  split
  · exact ⟨rfl, same⟩
  · split
    · exact ⟨rfl, same⟩
    · split
      · generalize tree.insertSlots parentRoot slot stamp = result at *
        generalize other.insertSlots parentRoot slot stamp = otherResult at *
        obtain ⟨answer, grown⟩ := result
        obtain ⟨_, otherGrown⟩ := otherResult
        obtain rfl : answer = _ := sameAnswer
        cases answer with
        | false => exact ⟨rfl, filled⟩
        | true =>
          cases located : grown.locate? ⟨parentRoot, slot⟩ with
          | none =>
            cases otherLocated : otherGrown.locate? ⟨parentRoot, slot⟩ with
            | none => simpa only [located, otherLocated, true_and] using filled
            | some found =>
              obtain ⟨_, there, _⟩ := filled.symm.locate?_eq_some otherLocated
              rw [located] at there
              cases there
          | some found =>
            obtain ⟨position, preState⟩ := found
            obtain ⟨twin, there, alike⟩ := filled.locate?_eq_some located
            have sameParent := ((Node.bare_eq_iff _ _).1 alike).2.2.1
            simp only [located, there, sameParent, true_and]
            exact (filled.push _).withOutdated true true
      · exact ⟨rfl, same⟩

theorem relation_eq_inside
    (same : SameShape tree other) (sound : Sound tree) (otherSound : Sound other)
    {anchor root : Root} (different : anchor ≠ root)
    (inside : tree.relation anchor root = .inside) :
    other.relation anchor root = .inside := by
  obtain ⟨anchorFirst, first, isAnchor, isFirst, descends⟩ :=
    (sound.relation_eq_inside_iff different).1 inside
  rw [same.voteDescends_eq] at descends
  exact (otherSound.relation_eq_inside_iff different).2
    ⟨anchorFirst, first, same.isFirst isAnchor, same.isFirst isFirst, descends⟩

theorem relation_eq
    (same : SameShape tree other) (sound : Sound tree) (otherSound : Sound other)
    (anchor root : Root) : tree.relation anchor root = other.relation anchor root := by
  by_cases different : anchor = root
  · rw [different, relation_self, relation_self]
  · refine relation_eq_of_iff ?_ ?_
    · exact ⟨same.relation_eq_inside sound otherSound different,
        same.symm.relation_eq_inside otherSound sound different⟩
    · rw [relation_eq_unknown_iff different, relation_eq_unknown_iff different,
        same.earliestSlot?_eq, same.earliestSlot?_eq]

end SameShape

theorem map_unlinked_eq
    {nodes others : List Node} (same : SameNodes nodes others)
    (weights : nodes.map Node.weight = others.map Node.weight) :
    (nodes.map fun node => { node with best := none }) =
      others.map fun node => { node with best := none } := by
  have rebuilt : ∀ list : List Node, (list.map fun node => { node with best := none }) =
      ((list.map Node.bare).zip (list.map Node.weight)).map
        fun pair => { pair.1 with weight := pair.2 } := by
    intro list
    rw [List.zip_map', List.map_map]
    exact List.map_congr_left fun node _ => rfl
  rw [rebuilt nodes, rebuilt others, weights, show nodes.map Node.bare = _ from same]

/-- Nothing but the shape, the weights and the stamp of a tree decides what links it gets. -/
theorem relink_congr
    {tree other : BlockTree} (same : SameShape tree other)
    (weights : tree.nodes.map Node.weight = other.nodes.map Node.weight)
    (stamp : tree.stamp = other.stamp) : tree.relink = other.relink := by
  simp only [relink, same.size_eq, same.positions, same.spans, stamp,
    map_unlinked_eq same.nodes weights]

theorem relink_relink (tree : BlockTree) : tree.relink.relink = tree.relink :=
  relink_congr (sameShape_relink tree) (weights_relink tree) rfl

/-- Links that are not out of date are those that would be found anew. -/
def Fresh (tree : BlockTree) : Prop :=
  tree.outdated = false → tree.relink = tree

theorem Fresh.refresh_eq {tree : BlockTree} (fresh : Fresh tree) : tree.refresh = tree.relink := by
  unfold BlockTree.refresh
  split
  next => rfl
  next upToDate => exact (fresh (by simpa using upToDate)).symm

section Unique

variable {current : Stamp} {nodes others : List Node}

theorem outranks_asymm
    {child rival : Nat} (upper : outranks nodes child rival = true) :
    outranks nodes rival child ≠ true := by
  intro lower
  have self := outranks_trans upper lower
  unfold outranks at self
  cases score : scoreAt? nodes child with
  | none => simp [score] at self
  | some score' =>
    simp only [score, decide_eq_true_eq] at self
    exact Score.lt_irrefl _ self

/-- Of two lists that agree behind a node, the node has the same link in both. -/
theorem LinkedFrom.unique
    {parent : Nat} {link otherLink : Option Best} (linked : LinkedFrom current nodes 0 parent link)
    (otherLinked : LinkedFrom current others 0 parent otherLink)
    (allLinked : AllLinkedFrom current nodes 0) (arranged : Arranged nodes)
    (same : SameNodes others nodes)
    (alike : ∀ position, parent + 1 ≤ position → others[position]? = nodes[position]?) :
    otherLink = link := by
  have parents := same.parentAt_eq
  cases linked with
  | noBest noneLeads =>
    cases otherLinked with
    | noBest => rfl
    | toBest _ isChild _ leads =>
      rw [parents] at isChild
      rw [leads_eq same] at leads
      exact absurd leads (noneLeads _ (Nat.zero_le _) isChild)
  | @toBest child node _ isChild here leads outranksAll =>
    cases otherLinked with
    | noBest noneLeads =>
      rw [← parents] at isChild
      rw [← leads_eq same] at leads
      exact absurd leads (noneLeads _ (Nat.zero_le _) isChild)
    | @toBest rival rivalNode _ isRival rivalHere rivalLeads rivalOutranksAll =>
      have isOtherChild := isChild
      have otherLeads := leads
      rw [← parents] at isOtherChild
      rw [← leads_eq same] at otherLeads
      rw [parents] at isRival
      rw [leads_eq same] at rivalLeads
      have childBehind := arranged.ordered _ _ isChild
      have rivalBehind := arranged.ordered _ _ isRival
      by_cases isSame : rival = child
      · subst isSame
        rw [alike rival childBehind] at rivalHere
        rw [Option.some.inj (rivalHere.symm.trans here)]
      · have upper := outranksAll rival (Nat.zero_le _) isRival rivalLeads isSame
        have lower :=
          rivalOutranksAll child (Nat.zero_le _) isOtherChild otherLeads (Ne.symm isSame)
        simp only [outranks] at lower
        rw [allLinked.scoreAt?_eq arranged alike (Nat.zero_le _) childBehind,
          allLinked.scoreAt?_eq arranged alike (Nat.zero_le _) rivalBehind] at lower
        exact absurd lower (outranks_asymm upper)

theorem AllLinkedFrom.unique
    (linked : AllLinkedFrom current nodes 0) (otherLinked : AllLinkedFrom current others 0)
    (arranged : Arranged nodes) (same : SameNodes others nodes)
    (weights : others.map Node.weight = nodes.map Node.weight) : others = nodes := by
  apply List.ext_getElem?
  intro position
  -- links lead downwards, so that the last nodes are compared first
  induction later : nodes.length - position using Nat.strongRecOn generalizing position with
  | ind rest ih =>
    cases here : nodes[position]? with
    | none => exact same.symm.getElem?_eq_none here
    | some node =>
      have inside := (List.getElem?_eq_some_iff.1 here).1
      obtain ⟨other, there, bare⟩ := same.symm.getElem?_eq_some here
      have weight : other.weight = node.weight := by
        have atPosition := congrArg (fun list => list[position]?) weights
        simpa [here, there] using atPosition
      have best : other.best = node.best := by
        apply (linked position node here).unique (otherLinked position other there) linked arranged
          same
        intro place behind
        exact ih (nodes.length - place) (by omega) place rfl
      obtain ⟨refs, states, votes, roots, stamps⟩ := (Node.bare_eq_iff _ _).1 bare
      rw [there, Option.some.injEq, Node.mk.injEq]
      exact ⟨refs, states, votes, roots, stamps, weight, best⟩

/-- Links that are up to date are those that would be found anew. -/
theorem Sound.fresh {tree : BlockTree} (sound : Sound tree) : Fresh tree := by
  intro upToDate
  have nodes : tree.relink.nodes = tree.nodes :=
    (sound.linked upToDate).unique (allLinkedFrom_relink sound.toWellFormed) sound.arranged
      (sameShape_relink tree).nodes (weights_relink tree)
  calc tree.relink
      = { tree with nodes := tree.relink.nodes, outdated := false } := rfl
    _ = { tree with outdated := false } := by rw [nodes]
    _ = tree := by rw [← upToDate]

end Unique

end BlockTree

end BeaconChain
