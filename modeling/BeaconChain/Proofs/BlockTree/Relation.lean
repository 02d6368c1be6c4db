import BeaconChain.BlockTree.Relation
import BeaconChain.Proofs.BlockTree.Sound

/-!
# Descent between roots

A root that stands inside the subtree of another one descends from it: the first node
of the one leads by vote parents to the first node of the other.  The shortcut over
the link of the anchor is sound even where links are out of date, because they still
lead downwards.
-/

namespace BeaconChain.BlockTree

/-- The node at `position` is the first one of its root. -/
structure IsFirst (nodes : List Node) (root : Root) (position : Nat) : Prop where
  here : ∃ node, nodes[position]? = some node ∧ node.ref.root = root
  first : FirstOfRoot nodes root position

theorem SameShape.isFirst
    {tree other : BlockTree} (same : SameShape tree other) {root : Root} {position : Nat}
    (isFirst : IsFirst tree.nodes root position) : IsFirst other.nodes root position where
  here := by
    obtain ⟨node, here, ofRoot⟩ := isFirst.here
    obtain ⟨found, there, sameRef⟩ := same.nodes.exists_ref_eq here
    exact ⟨found, there, by rw [sameRef, ofRoot]⟩
  first := same.nodes.firstOfRoot isFirst.first

theorem Indexed.isFirst
    {tree : BlockTree} (indexed : Indexed tree) {root : Root} {span : Span}
    (found : tree.spans.find? root = some span) : IsFirst tree.nodes root span.first where
  here := (indexed.spanOf root span found).first
  first := indexed.firstOfRoot_first found

namespace IsFirst

variable {nodes : List Node} {root : Root} {position : Nat}

theorem unique
    {other : Nat} (isFirst : IsFirst nodes root position) (isOther : IsFirst nodes root other) :
    position = other := by
  obtain ⟨node, here, ofRoot⟩ := isFirst.here
  obtain ⟨found, there, sameRoot⟩ := isOther.here
  have low := isFirst.first other found there sameRoot
  have high := isOther.first position node here ofRoot
  omega

/-- Every node of a root descends from the first one. -/
theorem voteDescends
    {tree : BlockTree} (wellFormed : WellFormed tree) (isFirst : IsFirst tree.nodes root position)
    {other : Nat} {found : Node} (there : tree.nodes[other]? = some found)
    (sameRoot : found.ref.root = root) : tree.VoteDescends other position := by
  obtain ⟨node, here, ofRoot⟩ := isFirst.here
  have notLater := isFirst.first other found there sameRoot
  have alike := ofRoot.trans sameRoot.symm
  exact wellFormed.voteDescends_of_slot_le there here alike
    ((wellFormed.slot_le_iff there here alike).2 notLater)

end IsFirst

theorem exists_isFirst
    {tree : BlockTree} (wellFormed : WellFormed tree) {position : Nat} {node : Node}
    (here : tree.nodes[position]? = some node) :
    ∃ first, IsFirst tree.nodes node.ref.root first := by
  obtain ⟨span, found⟩ := wellFormed.spanned position node here
  exact ⟨span.first, wellFormed.isFirst found⟩

theorem Sound.head_voteDescends
    {tree : BlockTree} (sound : Sound tree) {anchor root : Root} {anchorSpan span : Span}
    (anchorFound : tree.spans.find? anchor = some anchorSpan)
    (found : tree.spans.find? root = some span) (notBefore : anchorSpan.first ≤ span.first)
    {node head : Node} {best : Best} (here : tree.nodes[anchorSpan.last]? = some node)
    (linkOf : node.best = some best) (headHere : tree.nodes[best.head]? = some head)
    (ofRoot : head.ref.root = root) : tree.VoteDescends span.first anchorSpan.first := by
  have ordered := sound.voteParentsFirst
  obtain ⟨isChild, descends⟩ := sound.down _ _ _ here linkOf
  have headToLast : tree.VoteDescends best.head anchorSpan.last := descends.tail isChild
  have headToFirst := (sound.isFirst found).voteDescends sound.toWellFormed headHere ofRoot
  obtain ⟨last, lastHere, lastRoot⟩ := (sound.spanOf _ _ anchorFound).last
  have lastToAnchor := (sound.isFirst anchorFound).voteDescends sound.toWellFormed lastHere lastRoot
  rcases Nat.le_total anchorSpan.last span.first with behind | before
  · exact (Descends.between ordered headToFirst headToLast behind).trans lastToAnchor
  · have lastToFirst := Descends.between ordered headToLast headToFirst before
    exact Descends.between ordered lastToFirst lastToAnchor notBefore

/-- The first node of a root inside the subtree of another descends from the first node
of that. -/
theorem voteDescends_of_relation_inside
    {tree : BlockTree} (sound : Sound tree) {anchor root : Root} (different : anchor ≠ root)
    (inside : tree.relation anchor root = .inside) :
    ∃ anchorFirst first, IsFirst tree.nodes anchor anchorFirst ∧ IsFirst tree.nodes root first ∧
      tree.VoteDescends first anchorFirst := by
  unfold relation at inside
  rw [if_neg different] at inside
  split at inside
  next anchorSpan span anchorFound found =>
    have isAnchor := sound.isFirst anchorFound
    have isFirst := sound.isFirst found
    refine ⟨anchorSpan.first, span.first, isAnchor, isFirst, ?_⟩
    split at inside
    next anchorSlot slot _ _ =>
      split at inside
      next => cases inside
      next notOutside =>
        have notBefore : anchorSpan.first ≤ span.first := by omega
        split at inside
        next shortcut =>
          obtain ⟨head, linked, ofRoot⟩ := (Option.any_eq_true _ _).1 shortcut
          obtain ⟨best, bestOf, headHere⟩ := Option.bind_eq_some_iff.1 linked
          obtain ⟨node, here, linkOf⟩ := Option.bind_eq_some_iff.1 bestOf
          exact sound.head_voteDescends anchorFound found notBefore here linkOf headHere
            (of_decide_eq_true ofRoot)
        next =>
          split at inside
          next reached =>
            obtain ⟨⟨position, node⟩, member, ofAnchor⟩ := List.any_eq_true.1 reached
            obtain ⟨first, firstHere, _⟩ := isFirst.here
            have descends :=
              (mem_ancestry sound.voteParentsFirst (List.getElem?_eq_some_iff.1 firstHere).1).1
                ((List.takeWhile_sublist _).subset member)
            exact descends.1.trans (isAnchor.voteDescends sound.toWellFormed descends.2
              (of_decide_eq_true ofAnchor))
          next => cases inside
    next => cases inside
  next => cases inside

/-- All nodes of a root descend from the node at a position. -/
def Under (tree : BlockTree) (root : Root) (above : Nat) : Prop :=
  ∀ (place : Nat) (node : Node), tree.nodes[place]? = some node → node.ref.root = root →
    tree.StateDescends place above

theorem Under.congr
    {tree other : BlockTree} {root : Root} {above : Nat} (under : tree.Under root above)
    (same : SameShape other tree) : other.Under root above := by
  intro place node there ofRoot
  obtain ⟨before, here, sameRef⟩ := same.nodes.exists_ref_eq there
  rw [same.stateDescends_eq]
  exact under place before here (by rw [sameRef, ofRoot])

/-- Every node of a root inside the subtree of another one descends from the first node of
that. -/
theorem Sound.under_of_relation_inside
    {tree : BlockTree} (sound : Sound tree) {root newRoot : Root} {first : Nat}
    (inside : tree.relation root newRoot = .inside) (isFirst : IsFirst tree.nodes root first) :
    tree.Under newRoot first := by
  intro place node here ofRoot
  apply sound.stateDescends_of_voteDescends
  by_cases same : root = newRoot
  · exact isFirst.voteDescends sound.toWellFormed here (ofRoot.trans same.symm)
  · obtain ⟨rootFirst, newFirst, isRootFirst, isNewFirst, descends⟩ :=
      voteDescends_of_relation_inside sound same inside
    rw [isFirst.unique isRootFirst]
    exact (isNewFirst.voteDescends sound.toWellFormed here ofRoot).trans descends

end BeaconChain.BlockTree
