import BeaconChain.Proofs.BlockTree.Reordered
import BeaconChain.Proofs.BlockTree.Trimmed

/-!
# What the positions of a tree mean

A tree is a list of nodes that refer to one another by position.  A tree that can be reached
represents what the positions stand for: its index holds the nodes and nothing else, the nodes of
one root run through consecutive slots, and a parent, a best child or a head is found where it is
looked for.  A parent is missing from the record of a node for one reason only, apart from the
anchor of the tree: it has been taken out.
-/

open Relation

namespace BeaconChain

theorem Node.hasBlock_eq_false_iff {node : Node} :
    node.hasBlock = false ↔ node.parentRoot = node.ref.root := by
  simp [Node.hasBlock]

namespace BlockTree

/-- The names that a tree knew before an operation and does not know after it. -/
def lost (before after : BlockTree) : List NodeRef :=
  (before.nodes.map Node.ref).filter fun ref => !after.contains ref

/-- The trees that the operations lead to, with the name of the anchor, if there is one, and the
names of the nodes taken out so far.  Operations may fail, and a receiver may refuse any node. -/
inductive History : Option NodeRef → List NodeRef → BlockTree → Prop
  | empty : History none [] .empty
  | ofAnchor (anchor : NodeRef) (parentRoot : Root) (stamp : Stamp) :
    History (some anchor) [] (.ofAnchor anchor parentRoot stamp)
  | insertSlots {origin : Option NodeRef} {gone : List NodeRef} {tree : BlockTree}
    (past : History origin gone tree) (root : Root) (slot : Nat) (stamp : Stamp) :
    History origin gone (tree.insertSlots root slot stamp).2
  | insertBlock {origin : Option NodeRef} {gone : List NodeRef} {tree : BlockTree}
    (past : History origin gone tree) (parentRoot root : Root) (slot : Nat) (stamp : Stamp) :
    History origin gone (tree.insertBlock parentRoot root slot stamp).2
  | applyScores {origin : Option NodeRef} {gone : List NodeRef} {tree : BlockTree}
    (past : History origin gone tree) (deltas : List Int) (stamp : Stamp) :
    History origin gone (tree.applyScores deltas stamp).2
  | findHead {origin : Option NodeRef} {gone : List NodeRef} {tree : BlockTree}
    (past : History origin gone tree) (anchor : NodeRef) :
    History origin gone (tree.findHead anchor).2
  | prune {origin : Option NodeRef} {gone : List NodeRef} {tree : BlockTree} {store : Type}
    (past : History origin gone tree) (anchor : NodeRef) (receive : NodeReceiver store)
    (state : store) :
    History origin (gone ++ tree.lost (tree.prune anchor receive state).2.1)
      (tree.prune anchor receive state).2.1

theorem History.reachable
    {origin : Option NodeRef} {gone : List NodeRef} {tree : BlockTree}
    (past : History origin gone tree) : Reachable tree := by
  induction past with
  | empty => exact .empty
  | ofAnchor anchor parentRoot stamp => exact .ofAnchor anchor parentRoot stamp
  | insertSlots _ root slot stamp ih => exact ih.insertSlots root slot stamp
  | insertBlock _ parentRoot root slot stamp ih => exact ih.insertBlock parentRoot root slot stamp
  | applyScores _ deltas stamp ih => exact ih.applyScores deltas stamp
  | findHead _ anchor ih => exact ih.findHead anchor
  | prune _ anchor receive state ih => exact ih.prune anchor receive state

/-- The two lines by which a node is linked to its ancestors. -/
inductive Line where
  | state
  | vote

namespace Line

def parent : Line → Node → Option Nat
  | state => Node.stateParent
  | vote => Node.voteParent

/-- The name that a parent has.  The vote parent stands one slot before its child, and so does the
state parent of an empty slot; a block is derived from the empty slot that it fills. -/
def Named : Line → Node → NodeRef → Prop
  | state, node, ref =>
    ref.root = node.parentRoot ∧ node.ref.slot = ref.slot + if node.hasBlock then 0 else 1
  | vote, node, ref => ref.root = node.parentRoot ∧ node.ref.slot = ref.slot + 1

theorem shifts (line : Line) : Shifts line.parent := by
  cases line with
  | state => exact shifts_stateParent
  | vote => exact shifts_voteParent

/-- Names do not change with positions. -/
theorem Named.shift
    {line : Line} {node : Node} {ref : NodeRef} (named : line.Named node ref) (count : Nat) :
    line.Named (shiftNode count node) ref := by
  cases line with
  | state => exact named
  | vote => exact named

end Line

/-- The node is the anchor of a tree that has lost nothing. -/
structure IsAnchor (origin : Option NodeRef) (gone : List NodeRef) (position : Nat) (node : Node) :
    Prop where
  intact : gone = []
  isFirst : position = 0
  named : origin = some node.ref

/-- A node without a parent is the anchor, or the parent has been taken out. -/
def Traced (line : Line) (origin : Option NodeRef) (gone : List NodeRef) (nodes : List Node) :
    Prop :=
  ∀ (position : Nat) (node : Node), nodes[position]? = some node → line.parent node = none →
    IsAnchor origin gone position node ∨ ∃ ref ∈ gone, line.Named node ref

/-- What the positions kept in a tree stand for. -/
structure Represented (origin : Option NodeRef) (gone : List NodeRef) (tree : BlockTree) :
    Prop where
  positions : ∀ ref position, tree.positions.find? ref = some position ↔
    ∃ node : Node, tree.nodes[position]? = some node ∧ node.ref = ref
  spans : ∀ root span, tree.spans.find? root = some span ↔ IsSpan tree.nodes root span
  /-- A node and the next one of the same root stand in consecutive slots. -/
  consecutive : ∀ (position other : Nat) (node next : Node), tree.nodes[position]? = some node →
    tree.nodes[other]? = some next → next.ref.root = node.ref.root → position < other →
    (∀ (place : Nat) (between : Node), position < place → place < other →
      tree.nodes[place]? = some between → between.ref.root ≠ node.ref.root) →
    next.ref.slot = node.ref.slot + 1
  parents : ∀ (line : Line) (position above : Nat) (node : Node),
    tree.nodes[position]? = some node → line.parent node = some above →
    above < position ∧ ∃ upper, tree.nodes[above]? = some upper ∧ line.Named node upper.ref
  /-- An empty slot keeps both parents or none, and they are the same. -/
  emptySlots : ∀ (position : Nat) (node : Node), tree.nodes[position]? = some node →
    node.hasBlock = false → node.voteParent = node.stateParent
  severed : ∀ line : Line, Traced line origin gone tree.nodes
  links : ∀ (position : Nat) (node : Node) (best : Best), tree.nodes[position]? = some node →
    node.best = some best → (position < best.child ∧ best.child < tree.size) ∧
      (position < best.head ∧ best.head < tree.size) ∧ tree.VoteDescends best.head position

section Shown

variable {tree : BlockTree} {position : Nat} {node : Node}

theorem Indexed.spans_iff (indexed : Indexed tree) {root : Root} {span : Span} :
    tree.spans.find? root = some span ↔ IsSpan tree.nodes root span := by
  constructor
  · exact indexed.spanOf root span
  · intro isSpan
    obtain ⟨first, firstHere, ofRoot⟩ := isSpan.first
    obtain ⟨known, found⟩ := indexed.spanned _ _ firstHere
    rw [ofRoot] at found
    rw [found, (indexed.spanOf root known found).unique isSpan]

theorem WellFormed.slot_succ_of_next
    (wellFormed : WellFormed tree) {other : Nat} {next : Node}
    (here : tree.nodes[position]? = some node) (there : tree.nodes[other]? = some next)
    (sameRoot : next.ref.root = node.ref.root) (before : position < other)
    (noneBetween : ∀ (place : Nat) (between : Node), position < place → place < other →
      tree.nodes[place]? = some between → between.ref.root ≠ node.ref.root) :
    next.ref.slot = node.ref.slot + 1 := by
  obtain ⟨above, previous, lower, found, previousRoot, nextSlot, _⟩ :=
    wellFormed.slot_link_of_not_first there here sameRoot.symm before
  have sameRoot' := previousRoot.trans sameRoot
  have notAfter : above ≤ position := by
    by_contra after
    exact noneBetween above previous (by omega) lower found sameRoot'
  have previousNotLater := (wellFormed.slot_le_iff here found sameRoot').2 notAfter
  have notLater := (wellFormed.slot_le_iff there here sameRoot.symm).2 (Nat.le_of_lt before)
  have apart : node.ref.slot ≠ next.ref.slot := by
    intro same
    have samePlace := wellFormed.position_unique here there (NodeRef.eq_mk sameRoot.symm same)
    omega
  omega

theorem Sound.link_spec
    (sound : Sound tree) {best : Best} (here : tree.nodes[position]? = some node)
    (linkOf : node.best = some best) :
    (position < best.child ∧ best.child < tree.size) ∧
      (position < best.head ∧ best.head < tree.size) ∧ tree.VoteDescends best.head position := by
  obtain ⟨isChild, descends⟩ := sound.down position node best here linkOf
  have childBelow := sound.voteParentsFirst _ _ isChild
  have headNotAbove := Descends.le sound.voteParentsFirst descends
  have headInside := (sound.headPosition_descends here).1
  simp only [Node.headPosition, linkOf] at headInside
  exact ⟨⟨childBelow, isChild.lt_length⟩, ⟨by omega, headInside⟩, descends.tail isChild⟩

theorem WellFormed.parent_found
    (wellFormed : WellFormed tree) {line : Line} {above : Nat}
    (here : tree.nodes[position]? = some node) (step : line.parent node = some above) :
    above < position ∧ ∃ upper, tree.nodes[above]? = some upper ∧ line.Named node upper.ref := by
  cases line with
  | state => exact wellFormed.ref_of_stateParent here step
  | vote =>
    exact ⟨wellFormed.voteParentsFirst _ _ (parentAt_iff.2 ⟨node, here, step⟩),
      wellFormed.ref_of_voteParent here step⟩

/-- A node that arrives has both parents.  The empty slot that a block fills is not the first node
of its root, so that it has not lost its own. -/
theorem Appendable.exists_parent
    {admits : Root → Root → Nat → Prop} (wellFormed : WellFormed tree)
    (appendable : Appendable admits tree node) (line : Line) :
    ∃ above, line.parent node = some above := by
  cases appendable with
  | @slot position latest stamp here last => cases line <;> exact ⟨position, rfl⟩
  | @block position earlier preState older root stamp here there sameRoot before =>
    have notFirst : earlier < position := by
      by_contra notBefore
      have := (wellFormed.slot_le_iff there here sameRoot.symm).2 (by omega)
      omega
    obtain ⟨above, _, _, _, _, _, _, _, vote⟩ :=
      wellFormed.slot_link_of_not_first here there sameRoot notFirst
    cases line with
    | state => exact ⟨position, rfl⟩
    | vote => exact ⟨above, vote⟩

end Shown

/-- The nodes before the cut have been lost. -/
theorem mem_lost_dropOldest
    {tree : BlockTree} (wellFormed : WellFormed tree) {count position : Nat} {node : Node}
    (here : tree.nodes[position]? = some node) (taken : position < count) :
    node.ref ∈ tree.lost (tree.dropOldest count) := by
  have absent : (tree.dropOldest count).contains node.ref ≠ true := by
    intro present
    obtain ⟨place, found⟩ := contains_iff.1 present
    have known := wellFormed.position?_dropOldest.1 found
    have same := Option.some.inj ((wellFormed.position?_ref here).symm.trans known)
    omega
  refine List.mem_filter.2 ⟨List.mem_map_of_mem (List.mem_of_getElem? here), ?_⟩
  simpa using absent

theorem lost_self {tree : BlockTree} (indexed : Indexed tree) : tree.lost tree = [] := by
  apply List.filter_eq_nil_iff.2
  intro ref member
  obtain ⟨node, inside, rfl⟩ := List.mem_map.1 member
  obtain ⟨position, here⟩ := List.mem_iff_getElem?.1 inside
  simpa using contains_iff.2 ⟨position, indexed.position?_ref here⟩

theorem lost_congr
    {tree other : BlockTree} (same : SameShape tree other) (after : BlockTree) :
    tree.lost after = other.lost after := by
  simp only [lost, same.nodes.map_ref_eq]

namespace Traced

variable {line : Line} {origin : Option NodeRef} {gone : List NodeRef}

theorem congr
    {nodes others : List Node} (traced : Traced line origin gone nodes)
    (same : SameNodes others nodes) : Traced line origin gone others := by
  intro position other there severed
  obtain ⟨node, here, bare⟩ := same.getElem?_eq_some there
  obtain ⟨refs, states, votes, roots, _⟩ := (Node.bare_eq_iff _ _).1 bare
  have sameParent : line.parent node = line.parent other := by
    cases line with
    | state => exact states
    | vote => exact votes
  rcases traced position node here (sameParent.trans severed) with isAnchor | ⟨ref, member, named⟩
  · exact .inl ⟨isAnchor.intact, isAnchor.isFirst, refs ▸ isAnchor.named⟩
  · have sameNames : line.Named node ref ↔ line.Named other ref := by
      cases line <;> simp [Line.Named, Node.hasBlock, refs, roots]
    exact .inr ⟨ref, member, sameNames.1 named⟩

theorem grow
    {admits : Root → Root → Nat → Prop} {tree grown : BlockTree} (wellFormed : WellFormed tree)
    (traced : Traced line origin gone tree.nodes) (growth : Grows admits tree grown) :
    Traced line origin gone grown.nodes := by
  induction growth with
  | refl => exact traced
  | outdate _ ih => exact ih
  | @push grown node growth appendable ih =>
    intro position found there severed
    rcases getElem?_concat_eq_some_iff.1 there with old | ⟨_, rfl⟩
    · exact ih position found old severed
    · obtain ⟨above, step⟩ := appendable.exists_parent (wellFormed.grow growth) line
      rw [step] at severed
      cases severed

/-- What the nodes that are left have lost with a cut is what has been cut off. -/
theorem dropOldest
    {tree : BlockTree} (wellFormed : WellFormed tree) (traced : Traced line origin gone tree.nodes)
    (count : Nat) :
    Traced line origin (gone ++ tree.lost (tree.dropOldest count))
      (tree.dropOldest count).nodes := by
  intro position shifted there severed
  obtain ⟨node, here, rfl⟩ := getElem?_dropOldest_eq_some_iff.1 there
  rw [line.shifts count node, bind_shift_eq_none_iff] at severed
  cases step : line.parent node with
  | some above =>
    obtain ⟨_, upper, upperHere, named⟩ := wellFormed.parent_found here step
    have cut := mem_lost_dropOldest wellFormed upperHere (severed above step)
    exact .inr ⟨upper.ref, List.mem_append_right _ cut, named.shift count⟩
  | none =>
    rcases traced _ node here step with isAnchor | ⟨ref, member, named⟩
    · -- the anchor is still there only if nothing was cut off
      obtain rfl : count = 0 := by have := isAnchor.isFirst; omega
      have nothing : tree.lost (tree.dropOldest 0) = [] := by
        rw [dropOldest_zero, lost_self wellFormed.toIndexed]
      refine .inl ⟨?_, isAnchor.isFirst, isAnchor.named⟩
      rw [nothing, isAnchor.intact]
      rfl
    · exact .inr ⟨ref, List.mem_append_left _ member, named.shift count⟩

end Traced

theorem History.traced
    {origin : Option NodeRef} {gone : List NodeRef} {tree : BlockTree}
    (past : History origin gone tree) (line : Line) : Traced line origin gone tree.nodes := by
  induction past with
  | empty =>
    intro position node here
    simp [BlockTree.empty] at here
  | ofAnchor anchor parentRoot stamp =>
    intro position node here _
    rcases getElem?_concat_eq_some_iff.1 here with old | ⟨rfl, rfl⟩
    · simp at old
    · exact .inl ⟨rfl, rfl, rfl⟩
  | insertSlots past root slot stamp ih =>
    have wellFormed := past.reachable.sound.toWellFormed
    exact ih.grow wellFormed (insertSlots_grows (fun _ _ _ => True) wellFormed root slot stamp)
  | insertBlock past parentRoot root slot stamp ih =>
    have wellFormed := past.reachable.sound.toWellFormed
    exact ih.grow wellFormed
      (insertBlock_grows (fun _ _ _ => True) wellFormed stamp trivial)
  | applyScores _ deltas stamp ih => exact ih.congr (sameShape_applyScores _ deltas stamp).nodes
  | @findHead _ _ tree _ anchor ih =>
    rw [findHead_tree]
    exact ih.congr (sameShape_refresh tree).nodes
  | @prune origin gone tree store past anchor receive state ih =>
    obtain ⟨count, pruned⟩ := prune_tree tree anchor receive state
    have same := sameShape_refresh tree
    rw [pruned, lost_congr same.symm]
    exact (ih.congr same.nodes).dropOldest past.reachable.sound.refresh.toWellFormed count

/-! ## Every tree that can be reached -/

/-- Whatever has been done to a tree, and wherever a receiver stopped it: the index holds the
nodes and nothing else, spans and slots are without gaps, parents stand before their children
under the right names, links lead down to descendants, and a parent that is missing was taken
out. -/
theorem history_represented
    {origin : Option NodeRef} {gone : List NodeRef} {tree : BlockTree}
    (past : History origin gone tree) : Represented origin gone tree :=
  have sound := past.reachable.sound
  { positions := sound.positions
    spans := fun _ _ => sound.spans_iff
    consecutive := fun _ _ _ _ here there => sound.slot_succ_of_next here there
    parents := fun _ _ _ _ here step => sound.parent_found here step
    emptySlots := fun _ _ here empty =>
      sound.voteParent_eq_of_empty here (Node.hasBlock_eq_false_iff.1 empty)
    severed := past.traced
    links := fun _ _ _ here linkOf => sound.link_spec here linkOf }

/-- A receiver that takes one node and refuses the others. -/
def takesOne : NodeReceiver Nat := fun _ _ count =>
  if count = 0 then (.ok (), 1) else (.error (.unknownAnchor .zero), count)

/-- A tree of two blocks after an anchor, before anything is taken out. -/
def blocksTree : BlockTree :=
  (((ofAnchor ⟨⟨1⟩, 0⟩ .zero {}).insertBlock ⟨1⟩ ⟨2⟩ 1 {}).2.insertBlock ⟨2⟩ ⟨3⟩ 3 {}).2

/-- The block of the first slot has lost the anchor, for which it was counted, and keeps the empty
slot from which it was derived. -/
theorem history_represented_cutTree :
    History (some ⟨⟨1⟩, 0⟩) [⟨⟨1⟩, 0⟩] (blocksTree.prune ⟨⟨2⟩, 1⟩ takesOne 0).2.1 ∧
      Represented (some ⟨⟨1⟩, 0⟩) [⟨⟨1⟩, 0⟩] (blocksTree.prune ⟨⟨2⟩, 1⟩ takesOne 0).2.1 ∧
      ((blocksTree.prune ⟨⟨2⟩, 1⟩ takesOne 0).2.1.nodes[1]?).map
        (fun node => (node.ref, node.stateParent, node.voteParent)) =
          some (⟨⟨2⟩, 1⟩, some 0, none) :=
  have past : History (some ⟨⟨1⟩, 0⟩) [⟨⟨1⟩, 0⟩] (blocksTree.prune ⟨⟨2⟩, 1⟩ takesOne 0).2.1 :=
    .prune (.insertBlock (.insertBlock (.ofAnchor ⟨⟨1⟩, 0⟩ .zero {}) ⟨1⟩ ⟨2⟩ 1 {}) ⟨2⟩ ⟨3⟩ 3 {})
      ⟨⟨2⟩, 1⟩ takesOne 0
  ⟨past, history_represented past, by decide⟩

end BlockTree

end BeaconChain
