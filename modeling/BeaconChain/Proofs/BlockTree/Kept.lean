import BeaconChain.Proofs.BlockTree.Fresh
import BeaconChain.Proofs.BlockTree.Handing
import BeaconChain.Proofs.BlockTree.Represented

/-!
# Nodes that are kept

The children of a node stand behind it, so that a cut before the node takes none of them, and its
link leads where it led before.  What has been cut off therefore cannot be seen from what is left,
other than by a parent that is gone.
-/

open Relation

namespace BeaconChain

/-- A node without what refers to positions. -/
def Node.unplaced (node : Node) : Node :=
  { node with stateParent := none, voteParent := none, best := none }

theorem Node.unplaced_eq_iff (node other : Node) :
    node.unplaced = other.unplaced ↔
      node.ref = other.ref ∧ node.parentRoot = other.parentRoot ∧ node.stamp = other.stamp ∧
        node.weight = other.weight := by
  obtain ⟨⟩ := node
  obtain ⟨⟩ := other
  simp [Node.unplaced]

namespace BlockTree

section Cut

variable {tree : BlockTree} {count position : Nat} {node : Node}

/-- The child and the head of a node that is kept are kept with it. -/
theorem Sound.best_shiftNode
    (sound : Sound tree) (here : tree.nodes[position + count]? = some node) :
    (shiftNode count node).best =
      node.best.map fun best => ⟨best.child - count, best.head - count⟩ := by
  cases linkOf : node.best with
  | none => simp [shiftNode, linkOf]
  | some best =>
    obtain ⟨⟨childBehind, _⟩, ⟨headBehind, _⟩, _⟩ := sound.link_spec here linkOf
    have childKept : count ≤ best.child := by omega
    have headKept : count ≤ best.head := by omega
    simp [shiftNode, linkOf, shift, childKept, headKept]

theorem Sound.headPosition_shiftNode
    (sound : Sound tree) (here : tree.nodes[position + count]? = some node) :
    (shiftNode count node).headPosition position + count =
      node.headPosition (position + count) := by
  have shifted := sound.best_shiftNode here
  cases linkOf : node.best with
  | none => simp [Node.headPosition, shifted, linkOf]
  | some best =>
    obtain ⟨_, ⟨headBehind, _⟩, _⟩ := sound.link_spec here linkOf
    simp only [Node.headPosition, shifted, linkOf, Option.map_some]
    omega

theorem Sound.headAt?_dropOldest (sound : Sound tree) (count position : Nat) :
    headAt? (tree.dropOldest count).nodes position =
      (headAt? tree.nodes (position + count)).map (shiftNode count) := by
  cases here : tree.nodes[position + count]? with
  | none => simp [headAt?, getElem?_nodes_dropOldest, here]
  | some node =>
    simp [headAt?, getElem?_nodes_dropOldest, here, sound.headPosition_shiftNode here]

theorem Sound.scoreAt?_dropOldest (sound : Sound tree) (count position : Nat) :
    scoreAt? (tree.dropOldest count).nodes position = scoreAt? tree.nodes (position + count) := by
  simp only [scoreAt?, sound.headAt?_dropOldest, getElem?_nodes_dropOldest]
  cases tree.nodes[position + count]? with
  | none => rfl
  | some node => cases headAt? tree.nodes (position + count) <;> rfl

theorem Sound.outranks_dropOldest (sound : Sound tree) (count child rival : Nat) :
    outranks (tree.dropOldest count).nodes child rival =
      outranks tree.nodes (child + count) (rival + count) := by
  simp only [outranks, sound.scoreAt?_dropOldest]

theorem WellFormed.leads_dropOldest (wellFormed : WellFormed tree) {current : Stamp} :
    Leads current (tree.dropOldest count).nodes position ↔
      Leads current tree.nodes (position + count) := by
  constructor
  · rintro ⟨below, node, descends, there, viable⟩
    obtain ⟨before, here, rfl⟩ := getElem?_dropOldest_eq_some_iff.1 there
    exact ⟨below + count, before, wellFormed.voteDescends_dropOldest.1 descends, here, viable⟩
  · rintro ⟨below, node, descends, here, viable⟩
    have notBefore := Descends.le wellFormed.voteParentsFirst descends
    obtain ⟨kept, rfl⟩ : ∃ kept, below = kept + count := ⟨below - count, by omega⟩
    exact ⟨kept, shiftNode count node, wellFormed.voteDescends_dropOldest.2 descends,
      getElem?_dropOldest here, viable⟩

theorem Sound.linkedFrom_dropOldest
    (sound : Sound tree) {current : Stamp} {best : Option Best}
    (linked : LinkedFrom current tree.nodes 0 (position + count) best) :
    LinkedFrom current (tree.dropOldest count).nodes 0 position
      (best.map fun best => ⟨best.child - count, best.head - count⟩) := by
  cases linked with
  | noBest noneLeads =>
    refine .noBest fun child _ isChild leads => ?_
    rw [sound.leads_dropOldest] at leads
    exact noneLeads _ (Nat.zero_le _) ((parentAt_dropOldest shifts_voteParent).1 isChild) leads
  | @toBest child node _ isChild here leads outranksAll =>
    have behind := sound.voteParentsFirst _ _ isChild
    obtain ⟨kept, rfl⟩ : ∃ kept, child = kept + count := ⟨child - count, by omega⟩
    have headPosition := sound.headPosition_shiftNode here
    have shifted : (⟨kept + count - count, node.headPosition (kept + count) - count⟩ : Best) =
        ⟨kept, (shiftNode count node).headPosition kept⟩ := by
      rw [← headPosition, Nat.add_sub_cancel, Nat.add_sub_cancel]
    rw [Option.map_some, shifted]
    refine .toBest (Nat.zero_le _) ((parentAt_dropOldest shifts_voteParent).2 isChild)
      (getElem?_dropOldest here) (sound.leads_dropOldest.2 leads) ?_
    intro rival _ isRival rivalLeads different
    rw [sound.leads_dropOldest] at rivalLeads
    rw [sound.outranks_dropOldest]
    exact outranksAll _ (Nat.zero_le _) ((parentAt_dropOldest shifts_voteParent).1 isRival)
      rivalLeads (by omega)

theorem Sound.allLinkedFrom_dropOldest
    (sound : Sound tree) (upToDate : tree.outdated = false) (count : Nat) :
    AllLinkedFrom tree.stamp (tree.dropOldest count).nodes 0 := by
  intro position shifted there
  obtain ⟨node, here, rfl⟩ := getElem?_dropOldest_eq_some_iff.1 there
  rw [sound.best_shiftNode here]
  exact sound.linkedFrom_dropOldest (sound.linked upToDate _ node here)

/-- The links that are left of those that were up to date need not be found anew. -/
theorem Sound.refresh_dropOldest
    (sound : Sound tree) (upToDate : tree.outdated = false) (count : Nat) :
    (tree.dropOldest count).refresh = { tree.dropOldest count with outdated := false } := by
  have dropped := sound.dropOldest count
  have linked := allLinkedFrom_relink dropped.toWellFormed
  rw [stamp_dropOldest] at linked
  have nodes : (tree.dropOldest count).relink.nodes = (tree.dropOldest count).nodes :=
    (sound.allLinkedFrom_dropOldest upToDate count).unique linked dropped.arranged
      (sameShape_relink _).nodes (weights_relink _)
  calc (tree.dropOldest count).refresh
      = (tree.dropOldest count).relink := dropped.fresh.refresh_eq
    _ = { tree.dropOldest count with
          nodes := (tree.dropOldest count).relink.nodes, outdated := false } := rfl
    _ = { tree.dropOldest count with outdated := false } := by rw [nodes]

end Cut

/-- The name of the parent of a node, if the node has one.  A position where no node stands has
no name. -/
def Line.parentName (line : Line) (tree : BlockTree) (node : Node) : Option (Option NodeRef) :=
  (line.parent node).map fun place => (tree.nodes[place]?).map Node.ref

section Names

variable {tree : BlockTree} {count position : Nat} {node : Node}

theorem refresh_refresh (tree : BlockTree) : tree.refresh.refresh = tree.refresh := by
  rw [refresh, outdated_refresh]
  rfl

theorem findHead_refresh (tree : BlockTree) (anchor : NodeRef) :
    tree.refresh.findHead anchor = tree.findHead anchor := by
  simp only [findHead, refresh_refresh]

theorem exists_getElem?_refresh (here : tree.nodes[position]? = some node) :
    ∃ found, tree.refresh.nodes[position]? = some found ∧ found.bare = node.bare ∧
      found.unplaced = node.unplaced := by
  obtain ⟨found, there, bare⟩ := (sameShape_refresh tree).symm.nodes.getElem?_eq_some here
  have weight : found.weight = node.weight := by
    have atPosition := congrArg (fun list => list[position]?) (weights_refresh tree)
    simpa [here, there] using atPosition
  obtain ⟨refs, _, _, roots, stamps⟩ := (Node.bare_eq_iff _ _).1 bare
  exact ⟨found, there, bare, (Node.unplaced_eq_iff _ _).2 ⟨refs, roots, stamps, weight⟩⟩

theorem map_unplaced_refresh (tree : BlockTree) :
    tree.refresh.nodes.map Node.unplaced = tree.nodes.map Node.unplaced := by
  apply List.ext_getElem?
  intro position
  rw [List.getElem?_map, List.getElem?_map]
  cases here : tree.nodes[position]? with
  | none => rw [(sameShape_refresh tree).symm.nodes.getElem?_eq_none here]
  | some node =>
    obtain ⟨found, there, _, unplaced⟩ := exists_getElem?_refresh here
    rw [there, Option.map_some, Option.map_some, unplaced]

theorem map_unplaced_dropOldest (tree : BlockTree) (count : Nat) :
    (tree.dropOldest count).nodes.map Node.unplaced =
      (tree.nodes.drop count).map Node.unplaced := by
  rw [nodes_dropOldest, List.map_map]
  rfl

theorem parentName_eq_of_bare
    {other : BlockTree} {found : Node} (same : SameNodes tree.nodes other.nodes)
    (bare : node.bare = found.bare) (line : Line) :
    line.parentName tree node = line.parentName other found := by
  obtain ⟨_, states, votes, _, _⟩ := (Node.bare_eq_iff _ _).1 bare
  have parents : line.parent node = line.parent found := by
    cases line with
    | state => exact states
    | vote => exact votes
  simp only [Line.parentName, parents, ← List.getElem?_map, same.map_ref_eq]

theorem WellFormed.contains_dropOldest
    (wellFormed : WellFormed tree) (here : tree.nodes[position]? = some node) :
    (tree.dropOldest count).contains node.ref = true ↔ count ≤ position := by
  rw [contains_iff]
  constructor
  · rintro ⟨shifted, found⟩
    have known := wellFormed.position?_dropOldest.1 found
    rw [wellFormed.position?_ref here, Option.some.injEq] at known
    omega
  · intro kept
    refine ⟨position - count, wellFormed.position?_dropOldest.2 ?_⟩
    rw [Nat.sub_add_cancel kept]
    exact wellFormed.position?_ref here

/-- A parent is kept exactly if it has not been taken out. -/
theorem WellFormed.parentName_dropOldest
    (wellFormed : WellFormed tree) (here : tree.nodes[position + count]? = some node)
    (line : Line) :
    line.parentName (tree.dropOldest count) (shiftNode count node) =
      (line.parentName tree node).filter fun name => name.any (tree.dropOldest count).contains := by
  simp only [Line.parentName, line.shifts count node]
  cases step : line.parent node with
  | none => rfl
  | some above =>
    obtain ⟨_, upper, upperHere, _⟩ := wellFormed.parent_found here step
    have contained : (tree.dropOldest count).contains upper.ref ↔ count ≤ above :=
      wellFormed.contains_dropOldest upperHere
    by_cases kept : count ≤ above
    · have shifted : (tree.dropOldest count).nodes[above - count]? = some (shiftNode count upper) :=
        getElem?_dropOldest (by rwa [Nat.sub_add_cancel kept])
      have name : (shiftNode count upper).ref = upper.ref := rfl
      simp [Option.filter, shift, kept, shifted, upperHere, contained.2 kept, name]
    · have absent : (tree.dropOldest count).contains upper.ref = false := by
        rw [Bool.eq_false_iff]
        exact fun present => kept (contained.1 present)
      simp [Option.filter, shift, kept, upperHere, absent]

/-- The head below a node that is kept is the one that was there before. -/
theorem Sound.findHead_dropOldest
    (sound : Sound tree) (upToDate : tree.outdated = false) {anchor : NodeRef}
    (kept : (tree.dropOldest count).contains anchor = true) :
    ((tree.dropOldest count).findHead anchor).1 = (tree.findHead anchor).1 := by
  obtain ⟨position, found⟩ := contains_iff.1 kept
  have before := sound.position?_dropOldest.1 found
  have unchanged : tree.refresh = tree := by
    rw [BlockTree.refresh, upToDate]
    rfl
  have place : ({ tree.dropOldest count with outdated := false } : BlockTree).position? anchor =
      some position := found
  simp only [BlockTree.findHead, sound.refresh_dropOldest upToDate, unchanged, before, place]
  simp only [stamp_dropOldest, Option.bind_some, sound.headAt?_dropOldest]
  cases headAt? tree.nodes (position + count) with
  | none => rfl
  | some head =>
    simp only [Option.map_some]
    have sameStamp : (shiftNode count head).stamp = head.stamp := rfl
    have sameRef : (shiftNode count head).ref = head.ref := rfl
    rw [sameStamp, sameRef]
    split <;> rfl

theorem WellFormed.resolve?_dropOldest
    (wellFormed : WellFormed tree) {ref found : NodeRef}
    (resolved : (tree.resolve? ref).map Prod.fst = some found)
    (kept : (tree.dropOldest count).contains found = true) :
    ((tree.dropOldest count).resolve? ref).map Prod.fst = some found := by
  obtain ⟨⟨_, position⟩, known, rfl⟩ := Option.map_eq_some_iff.1 resolved
  obtain ⟨node, latest, rfl⟩ := wellFormed.resolve?_eq_some_iff.1 known
  have notBefore := (wellFormed.contains_dropOldest latest.here).1 kept
  obtain ⟨shifted, rfl⟩ : ∃ shifted, position = shifted + count :=
    ⟨position - count, (Nat.sub_add_cancel notBefore).symm⟩
  rw [(wellFormed.dropOldest count).resolve?_of_isLatest latest.dropOldest]
  rfl

end Names

/-- The second tree is the first one without its `count` oldest nodes, as far as can be told
without positions: the others have their names, their blocks, stamps and weights, they have those
of their parents that are left, the heads below them are the same, and so is the node to which a
reference is resolved, if it is left. -/
structure Undisturbed (count : Nat) (before after : BlockTree) : Prop where
  nodes : after.nodes.map Node.unplaced = (before.nodes.drop count).map Node.unplaced
  parents : ∀ (line : Line) (position : Nat) (node found : Node),
    before.nodes[position + count]? = some node → after.nodes[position]? = some found →
    line.parentName after found =
      (line.parentName before node).filter fun name => name.any after.contains
  heads : ∀ ref, after.contains ref = true → (after.findHead ref).1 = (before.findHead ref).1
  resolved : ∀ ref found, (before.resolve? ref).map Prod.fst = some found →
    after.contains found = true → (after.resolve? ref).map Prod.fst = some found

theorem Sound.undisturbed_dropOldest {tree : BlockTree} (sound : Sound tree) (count : Nat) :
    Undisturbed count tree (tree.refresh.dropOldest count) := by
  have fresh := sound.refresh
  have same := sameShape_refresh tree
  refine ⟨?_, ?_, ?_, ?_⟩
  · rw [map_unplaced_dropOldest, List.map_drop, map_unplaced_refresh, List.map_drop]
  · intro line position node found here there
    obtain ⟨twin, twinHere, rfl⟩ := getElem?_dropOldest_eq_some_iff.1 there
    obtain ⟨twin', twinHere', bare, _⟩ := exists_getElem?_refresh here
    obtain rfl := Option.some.inj (twinHere.symm.trans twinHere')
    rw [fresh.parentName_dropOldest twinHere, parentName_eq_of_bare same.nodes bare]
  · intro ref kept
    rw [fresh.findHead_dropOldest (outdated_refresh tree) kept, findHead_refresh]
  · intro ref found resolved kept
    rw [← same.resolve?_eq] at resolved
    exact fresh.resolve?_dropOldest resolved kept

/-- A pruning takes out nodes before the anchor only. -/
theorem Sound.prune_tree_le
    {store : Type} {tree : BlockTree} (sound : Sound tree) (anchor : NodeRef)
    (receive : NodeReceiver store) (state : store) :
    ∃ count, (tree.prune anchor receive state).2.1 = tree.refresh.dropOldest count ∧
      count ≤ (tree.position? anchor).getD 0 := by
  have fresh := sound.refresh
  rw [← (sameShape_refresh tree).position?_eq]
  cases known : tree.refresh.position? anchor with
  | none =>
    have missing : tree.refresh.locate? anchor = none := by simp [locate?, known]
    exact ⟨0, by simp [BlockTree.prune, missing], Nat.le_refl _⟩
  | some position =>
    obtain ⟨node, here, rfl⟩ := (fresh.positions _ _).1 known
    generalize offered : offerAll receive
      (tree.refresh.markedBefore position (node.headPosition position)) state = result
    obtain ⟨outcome, accepted, after⟩ := result
    obtain ⟨_, notMore, _⟩ := offerAll_invariant (fun _ _ => True)
      (fun _ _ _ _ _ _ _ _ _ => ⟨fun _ => trivial, fun _ => trivial⟩) trivial offered
    rw [length_markedBefore here] at notMore
    rw [prune_of_locate? (fresh.locate?_eq_some_iff.2 ⟨here, rfl⟩) offered]
    exact ⟨accepted, rfl, notMore⟩

/-- Whatever the anchor is, and wherever a receiver refuses a node: a pruning takes out some of
the nodes before the anchor, and the others are left undisturbed. -/
theorem prune_undisturbed
    {store : Type} {tree : BlockTree} (reached : Reachable tree) (anchor : NodeRef)
    (receive : NodeReceiver store) (state : store) :
    ∃ count, count ≤ (tree.position? anchor).getD 0 ∧
      Undisturbed count tree (tree.prune anchor receive state).2.1 := by
  obtain ⟨count, pruned, notMore⟩ := reached.sound.prune_tree_le anchor receive state
  refine ⟨count, notMore, ?_⟩
  rw [pruned]
  exact reached.sound.undisturbed_dropOldest count

/-- The anchor is taken out, the second block is kept, and the head below it stays the third. -/
theorem prune_undisturbed_blocksTree :
    Reachable blocksTree ∧
    (∃ count, count ≤ 2 ∧
      Undisturbed count blocksTree (blocksTree.prune ⟨⟨2⟩, 1⟩ takesOne 0).2.1) ∧
    (blocksTree.prune ⟨⟨2⟩, 1⟩ takesOne 0).2.1.size + 1 = blocksTree.size ∧
    ((blocksTree.prune ⟨⟨2⟩, 1⟩ takesOne 0).2.1.findHead ⟨⟨2⟩, 1⟩).1 = .ok ⟨⟨3⟩, 3⟩ :=
  have reached : Reachable blocksTree :=
    .insertBlock (.insertBlock (.ofAnchor ⟨⟨1⟩, 0⟩ .zero {}) ⟨1⟩ ⟨2⟩ 1 {}) ⟨2⟩ ⟨3⟩ 3 {}
  ⟨reached, prune_undisturbed reached ⟨⟨2⟩, 1⟩ takesOne 0, by decide, by decide⟩

end BlockTree

end BeaconChain
