import BeaconChain.Proofs.BlockTree.Relation

/-!
# What is offered to a receiver

The nodes before an anchor are offered in the order of their insertion.  A node is
marked exactly if it is an ancestor of the anchor by state parents: the head below
the anchor, from which the marks are computed, has the same ancestors before the
anchor as the anchor itself.
-/

open Relation

namespace BeaconChain.BlockTree

section Marks

variable {tree : BlockTree} {position place : Nat} {node : Node}

theorem Sound.headPosition_descends
    (sound : Sound tree) (here : tree.nodes[position]? = some node) :
    node.headPosition position < tree.size ∧
      tree.StateDescends (node.headPosition position) position := by
  cases linkOf : node.best with
  | none =>
    simp only [Node.headPosition, linkOf]
    exact ⟨(List.getElem?_eq_some_iff.1 here).1, ReflTransGen.refl⟩
  | some best =>
    simp only [Node.headPosition, linkOf]
    obtain ⟨isChild, descends⟩ := sound.down position node best here linkOf
    have inRange : best.head < tree.size := by
      rcases ReflTransGen.cases_head descends with same | ⟨next, step, _⟩
      · exact same ▸ isChild.lt_length
      · exact step.lt_length
    exact ⟨inRange, sound.stateDescends_of_voteDescends (descends.tail isChild)⟩

theorem WellFormed.marked_iff
    (wellFormed : WellFormed tree) (inside : position < tree.size) :
    ((tree.stateLineage position).map (·.1)).contains place = true ↔
      tree.StateDescends position place := by
  rw [List.contains_iff_mem, List.mem_map]
  constructor
  · rintro ⟨⟨_, found⟩, member, rfl⟩
    exact ((mem_ancestry wellFormed.stateParentsFirst inside).1 member).1
  · intro descends
    have placed : place < tree.nodes.length :=
      Nat.lt_of_le_of_lt (Descends.le wellFormed.stateParentsFirst descends) inside
    exact ⟨(place, tree.nodes[place]), (mem_ancestry wellFormed.stateParentsFirst inside).2
      ⟨descends, List.getElem?_eq_getElem placed⟩, rfl⟩

/-- The marked nodes before an anchor are its ancestors by state parents. -/
theorem Sound.mark_iff
    (sound : Sound tree) (here : tree.nodes[position]? = some node) (before : place < position) :
    ((tree.stateLineage (node.headPosition position)).map (·.1)).contains place = true ↔
      tree.StateDescends position place := by
  obtain ⟨inRange, headDescends⟩ := sound.headPosition_descends here
  rw [sound.toWellFormed.marked_iff inRange]
  exact ⟨fun descends => Descends.between sound.stateParentsFirst headDescends descends
    (Nat.le_of_lt before), headDescends.trans⟩

theorem length_markedBefore
    {head : Nat} (here : tree.nodes[position]? = some node) :
    (tree.markedBefore position head).length = position := by
  have inside := (List.getElem?_eq_some_iff.1 here).1
  simp only [markedBefore, List.length_mapIdx, List.length_take]
  omega

theorem getElem?_markedBefore
    {head : Nat} {found : Node} {mark : Bool}
    (marked : (tree.markedBefore position head)[place]? = some (found, mark)) :
    place < position ∧ tree.nodes[place]? = some found ∧
      mark = ((tree.stateLineage head).map (·.1)).contains place := by
  simp only [markedBefore, List.getElem?_mapIdx, Option.map_eq_some_iff, Prod.mk.injEq] at marked
  obtain ⟨_, taken, rfl, rfl⟩ := marked
  rw [List.getElem?_take] at taken
  split at taken
  next before => exact ⟨before, taken, rfl⟩
  next => cases taken

theorem Sound.marked_spec
    (sound : Sound tree) (here : tree.nodes[position]? = some node) {found : Node} {mark : Bool}
    (marked : (tree.markedBefore position (node.headPosition position))[place]? =
      some (found, mark)) :
    tree.nodes[place]? = some found ∧ (mark = true ↔ tree.StateDescends position place) := by
  obtain ⟨before, there, rfl⟩ := getElem?_markedBefore marked
  exact ⟨there, sound.mark_iff here before⟩

/-- The head below a node marks the same nodes as the node itself. -/
theorem Sound.markedBefore_eq
    (sound : Sound tree) (here : tree.nodes[position]? = some node) :
    tree.markedBefore position (node.headPosition position) =
      tree.markedBefore position position := by
  have inside := (List.getElem?_eq_some_iff.1 here).1
  refine List.ext_getElem? fun place => ?_
  simp only [markedBefore, List.getElem?_mapIdx, List.getElem?_take]
  by_cases before : place < position
  · have marks := (sound.mark_iff here before).trans (sound.toWellFormed.marked_iff inside).symm
    rw [Bool.eq_iff_iff.2 marks]
  · simp [before]

/-- What may be told of the nodes before a position. -/
theorem WellFormed.getElem?_map_markedBefore
    {α : Type} (wellFormed : WellFormed tree) (inside : position < tree.size) (tell : Node → α)
    {shown : α} {mark : Bool} :
    ((tree.markedBefore position position).map
        fun marked => (tell marked.1, marked.2))[place]? = some (shown, mark) ↔
      place < position ∧ (∃ node, tree.nodes[place]? = some node ∧ tell node = shown) ∧
        (mark = true ↔ tree.StateDescends position place) := by
  rw [← wellFormed.marked_iff inside, ← Bool.eq_iff_iff]
  simp only [markedBefore, List.getElem?_map, List.getElem?_mapIdx, List.getElem?_take]
  by_cases before : place < position
  · simp only [Option.map_map, Option.map_eq_some_iff, Function.comp_apply,
      Prod.mk.injEq, before, true_and]
    constructor
    · rintro ⟨found, there, told, marks⟩
      exact ⟨⟨found, there, told⟩, marks.symm⟩
    · rintro ⟨⟨found, there, told⟩, marks⟩
      exact ⟨found, there, told, marks.symm⟩
  · simp [before]

end Marks

/-- What every offer keeps holds after the last one, for as many nodes as were
accepted. -/
theorem offerAll_invariant
    {store : Type} {receive : NodeReceiver store} :
    ∀ {marked : List (Node × Bool)} (Invariant : Nat → store → Prop)
      {state stateAfter : store} {outcome : Except Error Unit} {accepted : Nat},
      (∀ (place : Nat) (node : Node) (mark : Bool) (before after : store)
        (answer : Except Error Unit), marked[place]? = some (node, mark) →
        Invariant place before → receive node mark before = (answer, after) →
        (answer = .ok () → Invariant (place + 1) after) ∧
          (answer ≠ .ok () → Invariant place after)) →
      Invariant 0 state → offerAll receive marked state = (outcome, accepted, stateAfter) →
      Invariant accepted stateAfter ∧ accepted ≤ marked.length ∧
        (outcome = .ok () → accepted = marked.length)
  | [], _, _, _, _, _, _, start, offered => by
    cases offered
    exact ⟨start, Nat.le_refl _, fun _ => rfl⟩
  | (node, mark) :: rest, Invariant, state, stateAfter, outcome, accepted, keeps, start,
    offered => by
    rw [offerAll] at offered
    split at offered
    next error refused received =>
      cases offered
      exact ⟨(keeps 0 node mark _ _ _ rfl start received).2 (by simp), Nat.zero_le _,
        fun done => by cases done⟩
    next next received =>
      have first := (keeps 0 node mark _ _ _ rfl start received).1 rfl
      generalize others : offerAll receive rest next = result at offered
      obtain ⟨answer, count, last⟩ := result
      cases offered
      obtain ⟨kept, bound, complete⟩ :=
        offerAll_invariant (fun count => Invariant (count + 1)) (fun place => keeps (place + 1))
          first others
      exact ⟨kept, Nat.succ_le_succ bound, fun done => congrArg Nat.succ (complete done)⟩

/-- An offer that does not come to its end stops at a node that is refused, in a state in
which what every answer keeps still holds. -/
theorem exists_refused_of_offerAll
    {store : Type} {receive : NodeReceiver store} {error : Error} {Invariant : store → Prop}
    (keeps : ∀ (node : Node) (mark : Bool) (before after : store) (answer : Except Error Unit),
      Invariant before → receive node mark before = (answer, after) → Invariant after) :
    ∀ {marked : List (Node × Bool)} {state stateAfter : store} {accepted : Nat}, Invariant state →
      offerAll receive marked state = (.error error, accepted, stateAfter) →
      ∃ node mark before, marked[accepted]? = some (node, mark) ∧ Invariant before ∧
        receive node mark before = (.error error, stateAfter)
  | [], _, _, _, _, offered => by cases offered
  | (node, mark) :: rest, state, stateAfter, accepted, start, offered => by
    rw [offerAll] at offered
    split at offered
    next refused =>
      cases offered
      exact ⟨node, mark, state, rfl, start, refused⟩
    next next received =>
      generalize others : offerAll receive rest next = result at offered
      obtain ⟨answer, count, last⟩ := result
      cases offered
      obtain ⟨last, lastMark, before, there, holds, refused⟩ :=
        exists_refused_of_offerAll keeps (keeps node mark _ _ _ start received) others
      exact ⟨last, lastMark, before, there, holds, refused⟩

theorem prune_of_locate?
    {store : Type} {tree : BlockTree} {anchor : NodeRef} {receive : NodeReceiver store}
    {state stateAfter : store} {position accepted : Nat} {node : Node}
    {outcome : Except Error Unit}
    (located : tree.refresh.locate? anchor = some (position, node))
    (offered : offerAll receive
      (tree.refresh.markedBefore position (node.headPosition position)) state =
        (outcome, accepted, stateAfter)) :
    tree.prune anchor receive state = (outcome, tree.refresh.dropOldest accepted, stateAfter) := by
  simp [prune, located, offered]

/-- What every answer of the receiver keeps is kept by a pruning. -/
theorem prune_invariant
    {store : Type} {tree treeAfter : BlockTree} {anchor : NodeRef} {receive : NodeReceiver store}
    {state stateAfter : store} {outcome : Except Error Unit} (Invariant : store → Prop)
    (keeps : ∀ (node : Node) (mark : Bool) (before after : store) (answer : Except Error Unit),
      Invariant before → receive node mark before = (answer, after) → Invariant after)
    (start : Invariant state)
    (pruned : tree.prune anchor receive state = (outcome, treeAfter, stateAfter)) :
    Invariant stateAfter := by
  cases located : tree.refresh.locate? anchor with
  | none =>
    simp only [prune, located] at pruned
    cases pruned
    exact start
  | some found =>
    obtain ⟨position, node⟩ := found
    generalize offers : offerAll receive
      (tree.refresh.markedBefore position (node.headPosition position)) state = result
    obtain ⟨answer, accepted, last⟩ := result
    rw [prune_of_locate? located offers] at pruned
    cases pruned
    exact (offerAll_invariant (fun _ => Invariant)
      (fun _ node mark before after answer _ kept answers =>
        ⟨fun _ => keeps node mark before after answer kept answers,
          fun _ => keeps node mark before after answer kept answers⟩) start offers).1

/-- If only marked nodes are refused, a pruning stops at an ancestor of the anchor. -/
theorem Sound.prune_spec
    {store : Type} {tree treeAfter : BlockTree} {ref : NodeRef} {receive : NodeReceiver store}
    {state stateAfter : store} {position : Nat} {outcome : Except Error Unit}
    (sound : Sound tree) (lenient : ∀ node state, (receive node false state).1 = .ok ())
    (present : tree.position? ref = some position)
    (pruned : tree.prune ref receive state = (outcome, treeAfter, stateAfter)) :
    ∃ accepted, accepted ≤ position ∧ treeAfter = tree.refresh.dropOldest accepted ∧
      tree.refresh.StateDescends position accepted := by
  have fresh := sound.refresh
  rw [← (sameShape_refresh tree).position?_eq] at present
  obtain ⟨node, here, rfl⟩ := (fresh.positions _ _).1 present
  generalize offers : offerAll receive
    (tree.refresh.markedBefore position (node.headPosition position)) state = result
  obtain ⟨answer, accepted, after⟩ := result
  rw [prune_of_locate? (fresh.locate?_eq_some_iff.2 ⟨here, rfl⟩) offers] at pruned
  cases pruned
  cases outcome with
  | ok =>
    obtain ⟨_, _, complete⟩ := offerAll_invariant (fun _ _ => True)
      (fun _ _ _ _ _ _ _ _ _ => ⟨fun _ => trivial, fun _ => trivial⟩) trivial offers
    have all := complete rfl
    rw [length_markedBefore here] at all
    subst all
    exact ⟨accepted, Nat.le_refl _, rfl, ReflTransGen.refl⟩
  | error error =>
    obtain ⟨refused, mark, before, marked, -, answered⟩ :=
      exists_refused_of_offerAll (fun _ _ _ _ _ _ _ => trivial) trivial offers
    have isMarked : mark = true := by
      cases mark with
      | true => rfl
      | false =>
        have accepts := lenient refused before
        rw [answered] at accepts
        cases accepts
    have descends := (fresh.marked_spec here marked).2.1 isMarked
    exact ⟨accepted, Descends.le fresh.stateParentsFirst descends, rfl, descends⟩

/-- A node that is left descends from the first one of its root that is left. -/
theorem WellFormed.stateDescends_first
    {tree : BlockTree} {count kept first : Nat} {node : Node} (wellFormed : WellFormed tree)
    (here : tree.nodes[kept + count]? = some node)
    (isFirst : IsFirst (tree.dropOldest count).nodes node.ref.root first) :
    (tree.dropOldest count).StateDescends kept first :=
  (wellFormed.dropOldest count).stateDescends_of_voteDescends
    (isFirst.voteDescends (wellFormed.dropOldest count) (getElem?_dropOldest here) rfl)

/-- The nodes that are left of a pruning: the first one of the anchor's root descends from
the oldest, and what descended from the anchor descends from the first one. -/
theorem Sound.first_dropOldest
    {tree : BlockTree} {position below accepted first : Nat} {node : Node} (sound : Sound tree)
    (here : tree.nodes[position]? = some node) (notLater : accepted ≤ position)
    (descends : tree.StateDescends position accepted)
    (isFirst : IsFirst (tree.dropOldest accepted).nodes node.ref.root first)
    (under : tree.StateDescends below position) :
    (tree.dropOldest accepted).StateDescends first 0 ∧
      (tree.dropOldest accepted).StateDescends (below - accepted) first := by
  have dropped := sound.dropOldest accepted
  have notBefore := Descends.le sound.stateParentsFirst under
  obtain ⟨kept, rfl⟩ : ∃ kept, position = kept + accepted := ⟨position - accepted, by omega⟩
  obtain ⟨lower, rfl⟩ : ∃ lower, below = lower + accepted := ⟨below - accepted, by omega⟩
  have toFirst := sound.stateDescends_first here isFirst
  have toOldest : (tree.dropOldest accepted).StateDescends kept 0 :=
    sound.stateDescends_dropOldest.2 (by rw [Nat.zero_add]; exact descends)
  refine ⟨Descends.between dropped.stateParentsFirst toFirst toOldest (Nat.zero_le _), ?_⟩
  rw [Nat.add_sub_cancel]
  exact (sound.stateDescends_dropOldest.2 under).trans toFirst

end BeaconChain.BlockTree
