import BeaconChain.Proofs.BlockTree.Kept

/-!
# Prunings that are taken up again

The nodes before an anchor are offered to a receiver as they were inserted, and a node is marked
exactly if the anchor was derived from it.  A receiver that refuses a node is left with those
before it, which are gone from the tree.  The next attempt goes on with the node that was refused,
and in the end the same nodes have been accepted with the same marks, and the same tree is left,
as if all of them had been accepted at once.
-/

open Relation

namespace BeaconChain

namespace Offer

/-- What is told of a node apart from positions, which change with every node taken out. -/
def told (offer : Offer) : Node × Bool :=
  (offer.node.unplaced, offer.canonical)

def isAccepted (offer : Offer) : Bool :=
  offer.answer.isOk

/-- What was told of the nodes that were accepted. -/
def taken (offers : List Offer) : List (Node × Bool) :=
  (offers.filter isAccepted).map told

theorem taken_of_accepted
    {offers : List Offer} (accepted : ∀ offer ∈ offers, offer.answer = .ok ()) :
    taken offers = offers.map told := by
  rw [taken, List.filter_eq_self.2]
  intro offer member
  rw [isAccepted, accepted offer member]
  rfl

theorem taken_append_refused
    {offers : List Offer} {last : Offer} {error : Error} (refused : last.answer = .error error) :
    taken (offers ++ [last]) = taken offers := by
  have notAccepted : last.isAccepted = false := by
    rw [isAccepted, refused]
    rfl
  simp [taken, notAccepted]

theorem answer_of_mem_accepted
    {marked : List (Node × Bool)} {offer : Offer} (member : offer ∈ marked.map accepted) :
    offer.answer = .ok () := by
  obtain ⟨_, _, rfl⟩ := List.mem_map.1 member
  rfl

end Offer

namespace BlockTree

/-- What is told of the nodes before a position: each of them once, in the order of their
insertion, and marked if the node at the position is derived from it. -/
def Presents (tree : BlockTree) (position : Nat) (told : List (Node × Bool)) : Prop :=
  ∀ (place : Nat) (node : Node) (mark : Bool), told[place]? = some (node, mark) ↔
    place < position ∧
      (∃ original, tree.nodes[place]? = some original ∧ original.unplaced = node) ∧
      (mark = true ↔ tree.StateDescends position place)

/-- What is offered, apart from positions. -/
def markedBare (marked : List (Node × Bool)) : List (Node × Bool) :=
  marked.map fun pair => (pair.1.unplaced, pair.2)

theorem map_told_accepted (marked : List (Node × Bool)) :
    (marked.map Offer.accepted).map Offer.told = markedBare marked := by
  rw [List.map_map]
  rfl

section Told

variable {tree : BlockTree} {position count : Nat} {told other : List (Node × Bool)} {node : Node}

theorem Presents.unique
    (presents : tree.Presents position told) (again : tree.Presents position other) :
    told = other := by
  refine List.ext_getElem? fun place => Option.ext fun ⟨node, mark⟩ => ?_
  exact (presents place node mark).trans (again place node mark).symm

theorem presents_refresh_iff :
    tree.refresh.Presents position told ↔ tree.Presents position told := by
  have descends := (sameShape_refresh tree).stateDescends_eq
  have originals : ∀ (place : Nat) (node : Node),
      (∃ original, tree.refresh.nodes[place]? = some original ∧ original.unplaced = node) ↔
        ∃ original, tree.nodes[place]? = some original ∧ original.unplaced = node := by
    intro place node
    have same := congrArg (fun list => list[place]?) (map_unplaced_refresh tree)
    simp only [List.getElem?_map] at same
    rw [← Option.map_eq_some_iff, ← Option.map_eq_some_iff, same]
  simp only [Presents, descends, originals]

/-- The marks that are computed from the head below a node are those of the node itself. -/
theorem Sound.presents_markedBefore
    (sound : Sound tree) (here : tree.nodes[position]? = some node) :
    tree.Presents position
      (markedBare (tree.markedBefore position (node.headPosition position))) := by
  intro place shown mark
  rw [sound.markedBefore_eq here]
  exact sound.toWellFormed.getElem?_map_markedBefore (List.getElem?_eq_some_iff.1 here).1
    Node.unplaced

/-- Behind a cut there is that much less to be told. -/
theorem WellFormed.presents_dropOldest
    (wellFormed : WellFormed tree) (presents : tree.Presents (position + count) told) :
    (tree.dropOldest count).Presents position (told.drop count) := by
  intro place node mark
  rw [List.getElem?_drop, Nat.add_comm count place, presents, wellFormed.stateDescends_dropOldest]
  refine and_congr (by omega) (and_congr_left fun _ => ?_)
  constructor
  · rintro ⟨original, here, rfl⟩
    exact ⟨shiftNode count original, getElem?_dropOldest here, rfl⟩
  · rintro ⟨shifted, there, rfl⟩
    obtain ⟨original, here, rfl⟩ := getElem?_dropOldest_eq_some_iff.1 there
    exact ⟨original, here, rfl⟩

end Told

/-- What became of an attempt: everything was offered and accepted, and the tree has lost all the
nodes of which there was something to be told; or one of them was refused, those before it were
offered and accepted, and the tree has lost just these. -/
inductive Reported (tree : BlockTree) (told : List (Node × Bool)) :
    Except Error Unit → BlockTree → List Offer → Prop
  | whole {offers : List Offer} (offered : offers.map Offer.told = told)
    (accepted : ∀ offer ∈ offers, offer.answer = .ok ()) :
    Reported tree told (.ok ()) (tree.refresh.dropOldest told.length) offers
  | stopped {offers : List Offer} {last : Offer} {error : Error}
    (offered : (offers ++ [last]).map Offer.told <+: told)
    (accepted : ∀ offer ∈ offers, offer.answer = .ok ()) (refused : last.answer = .error error) :
    Reported tree told (.error error) (tree.refresh.dropOldest offers.length) (offers ++ [last])

section Attempt

variable {store : Type} {tree treeAfter : BlockTree} {anchor : NodeRef} {position : Nat}
  {told : List (Node × Bool)} {receive : NodeReceiver store} {state after : store}
  {outcome : Except Error Unit} {offers : List Offer}

theorem Sound.exists_presents
    (sound : Sound tree) (present : tree.position? anchor = some position) :
    ∃ told, tree.Presents position told ∧ told.length = position := by
  have fresh := sound.refresh
  rw [← (sameShape_refresh tree).position?_eq] at present
  obtain ⟨node, here, _⟩ := (fresh.positions _ _).1 present
  refine ⟨_, presents_refresh_iff.1 (fresh.presents_markedBefore here), ?_⟩
  rw [markedBare, List.length_map, length_markedBefore here]

theorem Sound.reported
    (sound : Sound tree) (present : tree.position? anchor = some position)
    (presents : tree.Presents position told)
    (pruned : tree.prune anchor (recording receive) (state, []) =
      (outcome, treeAfter, after, offers)) :
    Reported tree told outcome treeAfter offers := by
  have fresh := sound.refresh
  rw [← (sameShape_refresh tree).position?_eq] at present
  obtain ⟨node, here, rfl⟩ := (fresh.positions _ _).1 present
  have length : (tree.refresh.markedBefore position (node.headPosition position)).length =
      position := length_markedBefore here
  obtain rfl := presents.unique (presents_refresh_iff.1 (fresh.presents_markedBefore here))
  generalize offered : offerAll (recording receive)
    (tree.refresh.markedBefore position (node.headPosition position)) (state, []) = result
  obtain ⟨answer, accepted, last, log⟩ := result
  rw [prune_of_locate? (fresh.locate?_eq_some_iff.2 ⟨here, rfl⟩) offered] at pruned
  cases pruned
  generalize tree.refresh.markedBefore position (node.headPosition position) = marked at *
  rcases offerAll_recording offered with
    ⟨rfl, all, recorded⟩ | ⟨error, refused, rfl, there, recorded⟩
  · rw [List.nil_append] at recorded
    subst recorded all
    have lengths : (markedBare marked).length = marked.length := List.length_map _
    rw [← lengths]
    exact .whole (map_told_accepted marked) fun _ => Offer.answer_of_mem_accepted
  · rw [List.nil_append] at recorded
    subst recorded
    have inside := (List.getElem?_eq_some_iff.1 there).1
    have lengths : ((marked.take accepted).map Offer.accepted).length = accepted := by
      rw [List.length_map, List.length_take]
      omega
    have first : ((marked.take accepted).map Offer.accepted ++
        [Offer.refused error refused]).map Offer.told =
          markedBare (marked.take (accepted + 1)) := by
      have last : Offer.told (Offer.refused error refused) =
          (refused.1.unplaced, refused.2) := rfl
      rw [List.map_append, map_told_accepted, List.take_add_one, there]
      simp [markedBare, last]
    have offeredFirst : ((marked.take accepted).map Offer.accepted ++
        [Offer.refused error refused]).map Offer.told <+: markedBare marked := by
      rw [first]
      exact (List.take_prefix _ _).map _
    have stopped : Reported tree (markedBare marked) (.error error) _ _ :=
      .stopped offeredFirst (fun _ => Offer.answer_of_mem_accepted)
        (Offer.answer_refused error refused)
    rwa [lengths] at stopped

end Attempt

/-- Attempts to take out the nodes before an anchor, each of which ended with a node that was
refused.  The receivers may differ.  What was told of the nodes that were accepted is collected. -/
inductive Attempts (anchor : NodeRef) (tree : BlockTree) : List (Node × Bool) → BlockTree → Prop
  | none : Attempts anchor tree [] tree
  | refused {store : Type} {collected : List (Node × Bool)} {middle treeAfter : BlockTree}
    {receive : NodeReceiver store} {state after : store} {error : Error} {offers : List Offer}
    (earlier : Attempts anchor tree collected middle)
    (pruned : middle.prune anchor (recording receive) (state, []) =
      (.error error, treeAfter, after, offers)) :
    Attempts anchor tree (collected ++ Offer.taken offers) treeAfter

/-- The first `count` of the nodes to be told of have been accepted and taken out, and unless
there are none at all not every one of them. -/
structure Halfway (tree : BlockTree) (told : List (Node × Bool)) (count : Nat)
    (collected : List (Node × Bool)) (middle : BlockTree) : Prop where
  sound : Sound middle
  short : count < told.length ∨ count = 0
  collected : collected = told.take count
  tree : middle.refresh = (tree.refresh.dropOldest count).refresh

section Resumed

variable {tree middle treeAfter : BlockTree} {anchor : NodeRef} {position count : Nat}
  {told collected : List (Node × Bool)} {outcome : Except Error Unit} {offers : List Offer}

/-- Bringing the links up to date between two cuts does not show after the second one. -/
theorem Sound.dropOldest_refresh_dropOldest
    (sound : Sound tree) {second : Nat} (some : second ≠ 0) (first : Nat) :
    (tree.refresh.dropOldest first).refresh.dropOldest second =
      tree.refresh.dropOldest (first + second) := by
  have unseen : ∀ cut : BlockTree,
      ({ cut with outdated := false } : BlockTree).dropOldest second = cut.dropOldest second :=
    fun _ => by simp only [BlockTree.dropOldest, if_neg some]
  rw [← dropOldest_dropOldest, sound.refresh.refresh_dropOldest (outdated_refresh tree) first]
  exact unseen _

theorem Halfway.presents
    (halfway : Halfway tree told count collected middle) (sound : Sound tree)
    (presents : tree.Presents position told) (length : told.length = position) :
    middle.Presents (position - count) (told.drop count) := by
  have short := halfway.short
  have whole : position - count + count = position := by omega
  rw [← whole] at presents
  have rest := sound.refresh.presents_dropOldest (presents_refresh_iff.2 presents)
  rw [← presents_refresh_iff, ← halfway.tree] at rest
  exact presents_refresh_iff.1 rest

theorem Halfway.position?_eq
    (halfway : Halfway tree told count collected middle) (sound : Sound tree)
    (present : tree.position? anchor = some position) (length : told.length = position) :
    middle.position? anchor = some (position - count) := by
  have short := halfway.short
  rw [← (sameShape_refresh middle).position?_eq, halfway.tree,
    (sameShape_refresh _).position?_eq, sound.refresh.position?_dropOldest,
    (sameShape_refresh tree).position?_eq, present, Option.some.injEq]
  omega

/-- A refused attempt leaves the rest of the way to the next one. -/
theorem Halfway.refused
    (halfway : Halfway tree told count collected middle) (sound : Sound tree) {error : Error}
    (after : Sound treeAfter)
    (reported : Reported middle (told.drop count) (.error error) treeAfter offers) :
    ∃ next, Halfway tree told next (collected ++ Offer.taken offers) treeAfter := by
  cases reported with
  | @stopped offers last _ offered accepted refused =>
    have lengths := offered.length_le
    rw [List.length_map, List.length_append, List.length_drop, List.length_singleton] at lengths
    have taken : Offer.taken (offers ++ [last]) = (told.drop count).take offers.length := by
      have first : offers.map Offer.told <+: told.drop count := by
        rw [List.map_append] at offered
        exact (List.prefix_append _ _).trans offered
      rw [Offer.taken_append_refused refused, Offer.taken_of_accepted accepted,
        List.prefix_iff_eq_take.1 first, List.length_map]
    refine ⟨count + offers.length, after, .inl (by omega), ?_, ?_⟩
    · rw [halfway.collected, taken, List.take_add]
    · rw [halfway.tree]
      by_cases none : offers.length = 0
      · rw [none, dropOldest_zero, refresh_refresh, Nat.add_zero]
      · rw [sound.dropOldest_refresh_dropOldest none]

/-- An attempt that is not refused takes the rest. -/
theorem Halfway.completed
    (halfway : Halfway tree told count collected middle) (sound : Sound tree)
    (reported : Reported middle (told.drop count) (.ok ()) treeAfter offers) :
    collected ++ Offer.taken offers = told ∧ treeAfter = tree.refresh.dropOldest told.length := by
  cases reported with
  | whole offered accepted =>
    constructor
    · rw [Offer.taken_of_accepted accepted, offered, halfway.collected, List.take_append_drop]
    · rw [halfway.tree, List.length_drop]
      rcases halfway.short with short | rfl
      · rw [sound.dropOldest_refresh_dropOldest (by omega),
          Nat.add_sub_cancel' (Nat.le_of_lt short)]
      · rw [dropOldest_zero, refresh_refresh, Nat.sub_zero]

theorem Attempts.exists_halfway
    (attempts : Attempts anchor tree collected middle) (sound : Sound tree)
    (present : tree.position? anchor = some position) (presents : tree.Presents position told)
    (length : told.length = position) : ∃ count, Halfway tree told count collected middle := by
  induction attempts with
  | none =>
    refine ⟨0, sound, .inr rfl, rfl, ?_⟩
    rw [dropOldest_zero, refresh_refresh]
  | @refused store collected middle treeAfter receive state after error offers _ pruned ih =>
    obtain ⟨count, halfway⟩ := ih
    have next := halfway.sound.prune anchor (recording receive) (state, [])
    rw [pruned] at next
    exact halfway.refused sound next (halfway.sound.reported
      (halfway.position?_eq sound present length) (halfway.presents sound presents length) pruned)

/-- Whatever the weights, the stamps and the links are: the nodes before the anchor are offered
in their order, marked if the anchor is derived from them, and those before the one that is
refused are taken out.  After any number of attempts that were refused, one that is not completes
what a single one would have done. -/
theorem prune_resumed
    (reached : Reachable tree) (present : tree.position? anchor = some position) :
    ∃ told, tree.Presents position told ∧ told.length = position ∧
      (∀ (store : Type) (receive : NodeReceiver store) (state : store),
        ∃ outcome treeAfter after offers,
          tree.prune anchor receive state = (outcome, treeAfter, after) ∧
          tree.prune anchor (recording receive) (state, []) = (outcome, treeAfter, after, offers) ∧
          Reported tree told outcome treeAfter offers) ∧
      ∀ (collected : List (Node × Bool)) (middle : BlockTree),
        Attempts anchor tree collected middle →
        ∀ (store : Type) (receive : NodeReceiver store) (state after : store) (last : BlockTree)
          (offers : List Offer),
          middle.prune anchor (recording receive) (state, []) = (.ok (), last, after, offers) →
          collected ++ Offer.taken offers = told ∧
          ∀ (otherStore : Type) (other : NodeReceiver otherStore) (start stop : otherStore)
            (whole : BlockTree) (all : List Offer),
            tree.prune anchor (recording other) (start, []) = (.ok (), whole, stop, all) →
            Offer.taken all = collected ++ Offer.taken offers ∧ whole = last := by
  have sound := reached.sound
  obtain ⟨told, presents, length⟩ := sound.exists_presents present
  have resumed : ∀ {collected : List (Node × Bool)} {middle : BlockTree},
      Attempts anchor tree collected middle →
      ∀ {store : Type} {receive : NodeReceiver store} {state after : store} {last : BlockTree}
        {offers : List Offer},
        middle.prune anchor (recording receive) (state, []) = (.ok (), last, after, offers) →
        collected ++ Offer.taken offers = told ∧ last = tree.refresh.dropOldest told.length := by
    intro collected middle attempts store receive state after last offers pruned
    obtain ⟨count, halfway⟩ := attempts.exists_halfway sound present presents length
    exact halfway.completed sound (halfway.sound.reported
      (halfway.position?_eq sound present length) (halfway.presents sound presents length) pruned)
  refine ⟨told, presents, length, ?_, ?_⟩
  · intro store receive state
    generalize pruned : tree.prune anchor (recording receive) (state, []) = result
    obtain ⟨outcome, treeAfter, after, offers⟩ := result
    exact ⟨outcome, treeAfter, after, offers, prune_of_recording pruned, rfl,
      sound.reported present presents pruned⟩
  · intro collected middle attempts store receive state after last offers pruned
    obtain ⟨complete, lastTree⟩ := resumed attempts pruned
    refine ⟨complete, ?_⟩
    intro otherStore other start stop whole all single
    obtain ⟨singleComplete, wholeTree⟩ := resumed .none single
    rw [List.nil_append] at singleComplete
    exact ⟨singleComplete.trans complete.symm, wholeTree.trans lastTree.symm⟩

/-- The anchor's first node is taken by a receiver that refuses the second one, and the others by
one that refuses none. -/
theorem prune_resumed_blocksTree :
    Reachable blocksTree ∧ blocksTree.position? ⟨⟨3⟩, 3⟩ = some 5 ∧
    (blocksTree.prune ⟨⟨3⟩, 3⟩ (recording takesOne) (0, [])).2.1.size = 5 ∧
    (blocksTree.prune ⟨⟨3⟩, 3⟩ (recording acceptAll) ((), [])).2.1 =
      ((blocksTree.prune ⟨⟨3⟩, 3⟩ (recording takesOne) (0, [])).2.1.prune ⟨⟨3⟩, 3⟩
        (recording acceptAll) ((), [])).2.1 := by
  have reached : Reachable blocksTree :=
    .insertBlock (.insertBlock (.ofAnchor ⟨⟨1⟩, 0⟩ .zero {}) ⟨1⟩ ⟨2⟩ 1 {}) ⟨2⟩ ⟨3⟩ 3 {}
  have present : blocksTree.position? ⟨⟨3⟩, 3⟩ = some 5 := by decide
  have stopped : (blocksTree.prune ⟨⟨3⟩, 3⟩ (recording takesOne) (0, [])).1 =
      .error (.unknownAnchor .zero) := by decide
  have passed : ((blocksTree.prune ⟨⟨3⟩, 3⟩ (recording takesOne) (0, [])).2.1.prune ⟨⟨3⟩, 3⟩
      (recording acceptAll) ((), [])).1 = .ok () := by decide
  have single : (blocksTree.prune ⟨⟨3⟩, 3⟩ (recording acceptAll) ((), [])).1 = .ok () := by decide
  obtain ⟨_, _, _, _, resumed⟩ := prune_resumed reached present
  obtain ⟨_, same⟩ := resumed _ _ (.refused .none (Prod.ext stopped rfl)) _ _ _ _ _ _
    (Prod.ext passed rfl)
  exact ⟨reached, present, by decide, (same _ _ _ _ _ _ (Prod.ext single rfl)).2⟩

end Resumed

end BlockTree

end BeaconChain
