import BeaconChain.BlockTree.Prune
import BeaconChain.Proofs.BlockTree.Resolve

/-!
# The shape of a tree

Counting votes and looking for heads change weights, links and the current stamp of
a tree, and nothing else.  What is left of a tree without these is its shape.  Being
well formed, descent and look-ups depend on the shape alone.
-/

namespace BeaconChain

/-- A node without its weight and its link to a head. -/
def Node.bare (node : Node) : Node :=
  { node with weight := 0, best := none }

theorem Node.bare_eq_iff (node other : Node) :
    node.bare = other.bare ↔
      node.ref = other.ref ∧ node.stateParent = other.stateParent ∧
        node.voteParent = other.voteParent ∧ node.parentRoot = other.parentRoot ∧
        node.stamp = other.stamp := by
  obtain ⟨⟩ := node
  obtain ⟨⟩ := other
  simp [Node.bare]

namespace BlockTree

/-- Two lists of nodes that differ in weights and links only. -/
def SameNodes (nodes others : List Node) : Prop :=
  nodes.map Node.bare = others.map Node.bare

/-- Two trees that differ in weights, links and current stamps only. -/
structure SameShape (tree other : BlockTree) : Prop where
  nodes : SameNodes tree.nodes other.nodes
  positions : tree.positions = other.positions
  spans : tree.spans = other.spans

namespace SameNodes

variable {nodes others : List Node}

theorem refl (nodes : List Node) : SameNodes nodes nodes := rfl

theorem symm (same : SameNodes nodes others) : SameNodes others nodes := Eq.symm same

theorem trans {further : List Node} (same : SameNodes nodes others)
    (rest : SameNodes others further) : SameNodes nodes further := Eq.trans same rest

theorem length_eq (same : SameNodes nodes others) : nodes.length = others.length := by
  simpa using congrArg List.length same

/-- The node at the same position in the other list. -/
theorem getElem?_eq_some
    (same : SameNodes nodes others) {position : Nat} {node : Node}
    (here : nodes[position]? = some node) :
    ∃ other, others[position]? = some other ∧ other.bare = node.bare := by
  have mapped : (others.map Node.bare)[position]? = some node.bare := by
    rw [← show nodes.map Node.bare = others.map Node.bare from same]
    simp [here]
  simpa using mapped

theorem exists_ref_eq
    (same : SameNodes nodes others) {position : Nat} {node : Node}
    (here : nodes[position]? = some node) :
    ∃ other, others[position]? = some other ∧ other.ref = node.ref := by
  obtain ⟨other, there, alike⟩ := same.getElem?_eq_some here
  exact ⟨other, there, ((Node.bare_eq_iff _ _).1 alike).1⟩

/-- What is read off the bare nodes is the same at every position. -/
theorem bind_eq
    (same : SameNodes nodes others) {α : Type} (field : Node → Option α)
    (unweighted : ∀ node : Node, field node.bare = field node) (position : Nat) :
    (nodes[position]?).bind field = (others[position]?).bind field := by
  have read : ∀ list : List Node,
      (list[position]?).bind field = ((list.map Node.bare)[position]?).bind field := by
    intro list
    cases here : list[position]? <;> simp [here, unweighted]
  rw [read nodes, read others, show nodes.map Node.bare = others.map Node.bare from same]

theorem map_ref_eq (same : SameNodes nodes others) :
    nodes.map Node.ref = others.map Node.ref := by
  have unweighted : Node.ref ∘ Node.bare = Node.ref := rfl
  have mapped :=
    congrArg (List.map Node.ref) (show nodes.map Node.bare = others.map Node.bare from same)
  simpa only [List.map_map, unweighted] using mapped

theorem firstOfRoot
    (same : SameNodes nodes others) {root : Root} {position : Nat}
    (first : FirstOfRoot nodes root position) : FirstOfRoot others root position := by
  intro place other there ofRoot
  obtain ⟨node, here, sameRef⟩ := same.symm.exists_ref_eq there
  exact first place node here (by rw [sameRef, ofRoot])

theorem link
    (same : SameNodes nodes others) {position : Nat} {node other : Node}
    (alike : other.bare = node.bare) (link : Link nodes position node) :
    Link others position other := by
  obtain ⟨refs, states, votes, roots, _⟩ := (Node.bare_eq_iff _ _).1 alike
  cases link with
  | severed noState noVote first =>
    exact .severed (by rw [states, noState]) (by rw [votes, noVote])
      (by rw [refs]; exact same.firstOfRoot first)
  | slot above before earlier found sameRoot nextSlot empty state vote =>
    obtain ⟨before', found', alikeBefore⟩ := same.getElem?_eq_some found
    obtain ⟨refsBefore, _, _, _, _⟩ := (Node.bare_eq_iff _ _).1 alikeBefore
    exact .slot above before' earlier found' (by rw [refs, refsBefore, sameRoot])
      (by rw [refs, refsBefore, nextSlot]) (by rw [refs, roots, empty])
      (by rw [states, state]) (by rw [votes, vote])
  | block above before earlier found parent sameSlot filled empty state vote first =>
    obtain ⟨before', found', alikeBefore⟩ := same.getElem?_eq_some found
    obtain ⟨refsBefore, _, votesBefore, rootsBefore, _⟩ := (Node.bare_eq_iff _ _).1 alikeBefore
    exact .block above before' earlier found' (by rw [roots, refsBefore, parent])
      (by rw [refs, refsBefore, sameSlot]) (by rw [refs, roots]; exact filled)
      (by rw [refsBefore, rootsBefore, empty]) (by rw [states, state])
      (by rw [votes, votesBefore, vote]) (by rw [refs]; exact same.firstOfRoot first)

theorem getElem?_eq_none
    (same : SameNodes nodes others) {position : Nat} (absent : nodes[position]? = none) :
    others[position]? = none := by
  rw [List.getElem?_eq_none_iff] at absent ⊢
  rwa [← same.length_eq]

theorem map_ref_ancestry (same : SameNodes nodes others) :
    ∀ steps position : Nat,
      (ancestry nodes Node.stateParent steps position).map (fun ancestor => ancestor.2.ref) =
        (ancestry others Node.stateParent steps position).map fun ancestor => ancestor.2.ref
  | 0, _ => rfl
  | steps + 1, position => by
    cases here : nodes[position]? with
    | none => simp [ancestry, here, same.getElem?_eq_none here]
    | some node =>
      obtain ⟨other, there, alike⟩ := same.getElem?_eq_some here
      obtain ⟨refs, states, _, _, _⟩ := (Node.bare_eq_iff _ _).1 alike
      cases up : node.stateParent with
      | none => simp [ancestry, here, there, refs, states, up]
      | some next =>
        simp [ancestry, here, there, refs, states, up, same.map_ref_ancestry steps next]

/-- What is known of the references along a lineage is the same. -/
theorem filterMap_stateLineage
    {tree other : BlockTree} (same : SameNodes tree.nodes other.nodes) {α : Type}
    (known : NodeRef → Option α) (position : Nat) :
    (tree.stateLineage position).filterMap (fun ancestor => known ancestor.2.ref) =
      (other.stateLineage position).filterMap fun ancestor => known ancestor.2.ref := by
  have refs := same.map_ref_ancestry tree.size position
  have size : tree.size = other.size := same.length_eq
  simp only [stateLineage, ← size]
  simpa only [List.filterMap_map, Function.comp_def] using congrArg (List.filterMap known) refs

end SameNodes

namespace SameShape

variable {tree other : BlockTree}

theorem refl (tree : BlockTree) : SameShape tree tree := ⟨rfl, rfl, rfl⟩

theorem symm (same : SameShape tree other) : SameShape other tree :=
  ⟨same.nodes.symm, same.positions.symm, same.spans.symm⟩

theorem trans {further : BlockTree} (same : SameShape tree other)
    (rest : SameShape other further) : SameShape tree further :=
  ⟨same.nodes.trans rest.nodes, same.positions.trans rest.positions, same.spans.trans rest.spans⟩

theorem size_eq (same : SameShape tree other) : tree.size = other.size := same.nodes.length_eq

theorem position?_eq (same : SameShape tree other) (ref : NodeRef) :
    tree.position? ref = other.position? ref := by
  simp [position?, same.positions]

theorem earliestSlot?_eq (same : SameShape tree other) (root : Root) :
    tree.earliestSlot? root = other.earliestSlot? root := by
  simp only [earliestSlot?, same.spans]
  cases other.spans.find? root with
  | none => rfl
  | some span =>
    exact same.nodes.bind_eq (fun node => some node.ref.slot) (fun _ => rfl) span.first

theorem latestSlot?_eq (same : SameShape tree other) (root : Root) :
    tree.latestSlot? root = other.latestSlot? root := by
  simp only [latestSlot?, same.spans]
  cases other.spans.find? root with
  | none => rfl
  | some span =>
    exact same.nodes.bind_eq (fun node => some node.ref.slot) (fun _ => rfl) span.last

theorem resolve?_eq (same : SameShape tree other) (ref : NodeRef) :
    tree.resolve? ref = other.resolve? ref := by
  simp [resolve?, same.position?_eq, same.earliestSlot?_eq, same.latestSlot?_eq]

theorem stateDescends_eq (same : SameShape tree other) :
    tree.StateDescends = other.StateDescends :=
  descends_congr (same.nodes.bind_eq Node.stateParent fun _ => rfl)

theorem voteDescends_eq (same : SameShape tree other) :
    tree.VoteDescends = other.VoteDescends :=
  descends_congr (same.nodes.bind_eq Node.voteParent fun _ => rfl)

theorem isSpan
    (same : SameShape tree other) {root : Root} {span : Span}
    (isSpan : IsSpan tree.nodes root span) :
    IsSpan other.nodes root span := by
  obtain ⟨⟨first, firstHere, firstRoot⟩, ⟨last, lastHere, lastRoot⟩, within⟩ := isSpan
  obtain ⟨first', firstThere, sameFirst⟩ := same.nodes.exists_ref_eq firstHere
  obtain ⟨last', lastThere, sameLast⟩ := same.nodes.exists_ref_eq lastHere
  refine ⟨⟨first', firstThere, by rw [sameFirst, firstRoot]⟩,
    ⟨last', lastThere, by rw [sameLast, lastRoot]⟩, ?_⟩
  intro position node there ofRoot
  obtain ⟨node', here, sameRef⟩ := same.nodes.symm.exists_ref_eq there
  exact within position node' here (by rw [sameRef, ofRoot])

theorem indexed (same : SameShape tree other) (indexed : Indexed tree) : Indexed other where
  positions ref position := by
    rw [← same.position?_eq, indexed.positions]
    constructor
    · rintro ⟨node, here, named⟩
      obtain ⟨node', there, sameRef⟩ := same.nodes.exists_ref_eq here
      exact ⟨node', there, by rw [sameRef, named]⟩
    · rintro ⟨node, there, named⟩
      obtain ⟨node', here, sameRef⟩ := same.nodes.symm.exists_ref_eq there
      exact ⟨node', here, by rw [sameRef, named]⟩
  spanOf root span found := by
    rw [← same.spans] at found
    exact same.isSpan (indexed.spanOf root span found)
  spanned position node there := by
    obtain ⟨node', here, sameRef⟩ := same.nodes.symm.exists_ref_eq there
    rw [← same.spans, ← sameRef]
    exact indexed.spanned position node' here

theorem wellFormed (same : SameShape tree other) (wellFormed : WellFormed tree) :
    WellFormed other where
  toIndexed := same.indexed wellFormed.toIndexed
  links position node there := by
    obtain ⟨node', here, alike⟩ := same.nodes.symm.getElem?_eq_some there
    exact same.nodes.link alike.symm (wellFormed.links position node' here)

end SameShape

theorem sameNodes_modify
    (nodes : List Node) (position : Nat) {change : Node → Node}
    (unchanged : ∀ node : Node, (change node).bare = node.bare) :
    SameNodes (nodes.modify position change) nodes := by
  unfold SameNodes
  apply List.ext_getElem?
  intro place
  rw [List.getElem?_map, List.getElem?_map, List.getElem?_modify]
  cases nodes[place]? with
  | none => rfl
  | some node => by_cases same : position = place <;> simp [same, unchanged]

theorem sameNodes_offerChild (current : Stamp) (nodes : List Node) (parent child : Nat) :
    SameNodes (offerChild current nodes parent child) nodes := by
  unfold offerChild
  split
  · split
    · exact sameNodes_modify nodes parent fun _ => rfl
    · rfl
  · rfl

theorem sameNodes_linkNodes (current : Stamp) :
    ∀ (count : Nat) (nodes : List Node), SameNodes (linkNodes current count nodes) nodes
  | 0, nodes => rfl
  | count + 1, nodes => by
    rw [linkNodes]
    refine (sameNodes_linkNodes current count _).trans ?_
    split
    · exact sameNodes_offerChild current nodes _ count
    · rfl

theorem sameShape_relink (tree : BlockTree) : SameShape tree.relink tree where
  nodes := by
    refine (sameNodes_linkNodes tree.stamp tree.size _).trans ?_
    simp [SameNodes, Node.bare]
  positions := rfl
  spans := rfl

theorem sameShape_refresh (tree : BlockTree) : SameShape tree.refresh tree := by
  unfold refresh
  split
  · exact sameShape_relink tree
  · exact .refl tree

theorem weights_offerChild (current : Stamp) (nodes : List Node) (parent child : Nat) :
    (offerChild current nodes parent child).map Node.weight = nodes.map Node.weight := by
  unfold offerChild
  split
  · split
    · apply List.ext_getElem?
      intro place
      rw [List.getElem?_map, List.getElem?_map, List.getElem?_modify]
      cases nodes[place]? with
      | none => rfl
      | some node => by_cases same : parent = place <;> simp [same]
    · rfl
  · rfl

theorem weights_linkNodes (current : Stamp) :
    ∀ (count : Nat) (nodes : List Node),
      (linkNodes current count nodes).map Node.weight = nodes.map Node.weight
  | 0, nodes => rfl
  | count + 1, nodes => by
    rw [linkNodes, weights_linkNodes current count]
    split
    · exact weights_offerChild current nodes _ count
    · rfl

theorem weights_relink (tree : BlockTree) :
    tree.relink.nodes.map Node.weight = tree.nodes.map Node.weight := by
  unfold relink
  rw [weights_linkNodes, List.map_map]
  rfl

theorem weights_refresh (tree : BlockTree) :
    tree.refresh.nodes.map Node.weight = tree.nodes.map Node.weight := by
  unfold refresh
  split
  · exact weights_relink tree
  · rfl

theorem findHead_tree (tree : BlockTree) (anchor : NodeRef) :
    (tree.findHead anchor).2 = tree.refresh := by
  unfold findHead
  dsimp only
  split
  · rfl
  · split <;> rfl

theorem sameNodes_set
    {nodes : List Node} {position : Nat} {node changed : Node}
    (here : nodes[position]? = some node) (unchanged : changed.bare = node.bare) :
    SameNodes (nodes.set position changed) nodes := by
  unfold SameNodes
  apply List.ext_getElem?
  intro place
  rw [List.getElem?_map, List.getElem?_map, List.getElem?_set]
  by_cases same : position = place
  · subst same
    have inside := (List.getElem?_eq_some_iff.1 here).1
    rw [if_pos rfl, if_pos inside, here]
    simp [unchanged]
  · simp [same]

theorem sameNodes_addDeltas :
    ∀ {count : Nat} {nodes added : List Node} {deltas : List Int},
      addDeltas count nodes deltas = .ok added → SameNodes added nodes
  | 0, nodes, added, deltas, done => by
    cases done
    rfl
  | count + 1, nodes, added, deltas, done => by
    rw [addDeltas] at done
    split at done
    next => exact sameNodes_addDeltas done
    next node here =>
      have kept : SameNodes
          (nodes.set count { node with weight := node.weight + deltas.getD count 0 }) nodes :=
        sameNodes_set here rfl
      dsimp only at done
      split at done
      next => exact sameNodes_addDeltas done
      next =>
        split at done
        next => cases done
        next =>
          split at done
          next => exact (sameNodes_addDeltas done).trans kept
          next parent above =>
            split at done
            next => cases done
            next => exact (sameNodes_addDeltas done).trans kept

theorem sameShape_applyScores (tree : BlockTree) (deltas : List Int) (stamp : Stamp) :
    SameShape (tree.applyScores deltas stamp).2 tree := by
  unfold applyScores
  split
  · exact .refl tree
  · split
    next => exact .refl tree
    next nodes added =>
      exact (sameShape_relink _).trans ⟨sameNodes_addDeltas added, rfl, rfl⟩

end BlockTree

end BeaconChain
