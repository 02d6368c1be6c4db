import BeaconChain.Proofs.BlockTree.Sound

/-!
# Adding weights

A delta is added to its node and to all ancestors of the node by vote parents.  So
the weight of a node grows by the sum of the deltas of those nodes that descend from
it, which is what the pass over the deltas is shown to compute.
-/

open Relation

namespace BeaconChain.BlockTree

/-- Whether the node at `below` is the one at `above`, or descends from it by vote
parents. -/
def inSubtree (tree : BlockTree) (above below : Nat) : Bool :=
  (tree.voteLineage below).any fun ancestor => ancestor.1 = above

theorem inSubtree_iff
    {tree : BlockTree} (wellFormed : WellFormed tree) {above below : Nat}
    (inside : below < tree.size) :
    tree.inSubtree above below = true ↔ tree.VoteDescends below above := by
  simp only [inSubtree, List.any_eq_true, decide_eq_true_eq]
  constructor
  · rintro ⟨⟨_, node⟩, member, rfl⟩
    exact ((mem_ancestry wellFormed.voteParentsFirst inside).1 member).1
  · intro descends
    have notLater := Descends.le wellFormed.voteParentsFirst descends
    have here := List.getElem?_eq_getElem (Nat.lt_of_le_of_lt notLater inside)
    exact ⟨_, (mem_ancestry wellFormed.voteParentsFirst inside).2 ⟨descends, here⟩, rfl⟩

/-- The sum of the deltas at those of the first `count` positions that are inside. -/
def gathered (inside : Nat → Bool) (deltas : List Int) : (count : Nat) → Int
  | 0 => 0
  | count + 1 => gathered inside deltas count + if inside count then deltas.getD count 0 else 0

theorem gathered_set
    (inside : Nat → Bool) {deltas : List Int} {position : Nat} (amount : Int)
    (inRange : position < deltas.length) :
    ∀ count, gathered inside (deltas.set position (deltas.getD position 0 + amount)) count =
      gathered inside deltas count + if position < count ∧ inside position = true then amount else 0
  | 0 => by simp [gathered]
  | count + 1 => by
    have step := gathered_set inside amount inRange count
    rw [gathered, gathered, step]
    rcases Nat.lt_trichotomy position count with before | rfl | after
    · have different : position ≠ count := Nat.ne_of_lt before
      simp only [List.getD_eq_getElem?_getD, List.getElem?_set_ne different, before,
        Nat.lt_succ_of_lt before, true_and]
      omega
    · by_cases isInside : inside position = true
      · simp [isInside, List.getD_eq_getElem?_getD, inRange]
        omega
      · simp [isInside]
    · have different : position ≠ count := Nat.ne_of_gt after
      have notBefore : ¬ position < count := Nat.not_lt.2 (Nat.le_of_lt after)
      have notReached : ¬ position < count + 1 := by omega
      simp [List.getD_eq_getElem?_getD, different, notBefore, notReached]

theorem gathered_replicate (inside : Nat → Bool) (size : Nat) :
    ∀ count, gathered inside (List.replicate size 0) count = 0
  | 0 => rfl
  | count + 1 => by
    have none : (List.replicate size (0 : Int)).getD count 0 = 0 := by
      simp only [List.getD_eq_getElem?_getD, List.getElem?_replicate]
      split <;> rfl
    rw [gathered, gathered_replicate inside size count, none]
    simp

/-- The weight of the node at a position. -/
def weightAt (nodes : List Node) (position : Nat) : Int :=
  (nodes[position]?).elim 0 Node.weight

theorem weightAt_of_getElem?
    {nodes : List Node} {position : Nat} {node : Node} (here : nodes[position]? = some node) :
    weightAt nodes position = node.weight := by
  simp [weightAt, here]

theorem weightAt_congr
    {nodes others : List Node} (weights : nodes.map Node.weight = others.map Node.weight)
    (position : Nat) : weightAt nodes position = weightAt others position := by
  have read : ∀ list : List Node,
      weightAt list position = ((list.map Node.weight)[position]?).getD 0 := by
    intro list
    cases here : list[position]? <;> simp [weightAt, here]
  rw [read nodes, read others, weights]

theorem weightAt_set
    {nodes : List Node} {position : Nat} {node : Node} {amount : Int}
    (here : nodes[position]? = some node) (place : Nat) :
    weightAt (nodes.set position { node with weight := node.weight + amount }) place =
      weightAt nodes place + if position = place then amount else 0 := by
  rcases Decidable.em (position = place) with rfl | different
  · obtain ⟨inside, rfl⟩ := List.getElem?_eq_some_iff.1 here
    simp [weightAt, inside]
  · simp [weightAt, different]

section Pass

variable {base : List Node} {inside : Nat → Bool} {above : Nat}

/-- A subtree consists of one node and of the nodes whose parent is in it, so that an
amount reaches it either at that node or by a parent. -/
theorem inside_eq
    (ordered : ParentsFirst base Node.voteParent)
    (exact' : ∀ below, below < base.length →
      (inside below = true ↔ Descends base Node.voteParent below above))
    {position : Nat} {node : Node} (here : base[position]? = some node) (amount : Int) :
    (if inside position then amount else 0) =
      (if position = above then amount else 0) +
        node.voteParent.elim 0 fun parent => if inside parent then amount else 0 := by
  have inRange := (List.getElem?_eq_some_iff.1 here).1
  have self := exact' position inRange
  cases up : node.voteParent with
  | none =>
    have only : inside position = true ↔ position = above := by
      rw [self]
      constructor
      · intro descends
        rcases ReflTransGen.cases_head descends with same | ⟨next, step, _⟩
        · exact same
        · simp [ParentAt, here, up] at step
      · rintro rfl
        exact ReflTransGen.refl
    simp [only]
  | some parent =>
    have step : ParentAt base Node.voteParent position parent := parentAt_iff.2 ⟨node, here, up⟩
    have before := ordered _ _ step
    have viaParent := exact' parent (Nat.lt_trans before inRange)
    rcases Decidable.em (position = above) with rfl | different
    · have isInside : inside position = true := self.2 ReflTransGen.refl
      have outside : inside parent ≠ true := by
        intro descends
        have := Descends.le ordered (viaParent.1 descends)
        omega
      simp [isInside, outside]
    · have same : inside position = true ↔ inside parent = true := by
        rw [self, viaParent]
        constructor
        · intro descends
          obtain ⟨next, step', rest⟩ := descends.parent_of_ne different
          exact step'.unique step ▸ rest
        · exact ReflTransGen.head step
      simp [same, different]

/-- Every node gains the deltas of the nodes in its subtree. -/
theorem weightAt_addDeltas
    (ordered : ParentsFirst base Node.voteParent)
    (exact' : ∀ below, below < base.length →
      (inside below = true ↔ Descends base Node.voteParent below above)) :
    ∀ {count : Nat} {nodes added : List Node} {deltas : List Int}, SameNodes nodes base →
      deltas.length = base.length → count ≤ base.length →
      addDeltas count nodes deltas = .ok added →
      weightAt added above = weightAt nodes above + gathered inside deltas count
  | 0, nodes, added, deltas, _, _, _, done => by
    cases done
    simp [gathered]
  | count + 1, nodes, added, deltas, same, sameLength, enough, done => by
    rw [addDeltas] at done
    split at done
    next missing =>
      have := List.getElem?_eq_none_iff.1 missing
      rw [same.length_eq] at this
      omega
    next node here =>
      obtain ⟨original, originalHere, bare⟩ := same.getElem?_eq_some here
      have reach := inside_eq ordered exact' originalHere (deltas.getD count 0)
      rw [((Node.bare_eq_iff _ _).1 bare).2.2.1] at reach
      dsimp only at done
      split at done
      next noDelta =>
        rw [weightAt_addDeltas ordered exact' same sameLength (by omega) done, gathered, noDelta]
        simp
      next =>
        split at done
        next => cases done
        next =>
          have kept : SameNodes
              (nodes.set count { node with weight := node.weight + deltas.getD count 0 }) base :=
            SameNodes.trans (sameNodes_set here rfl) same
          split at done
          next up =>
            rw [up] at reach
            rw [weightAt_addDeltas ordered exact' kept sameLength (by omega) done,
              weightAt_set here, gathered, reach]
            simp only [Option.elim_none]
            omega
          next parent up =>
            rw [up] at reach
            split at done
            next => cases done
            next =>
              have before : parent < count :=
                ordered _ _ (parentAt_iff.2 ⟨original, originalHere, by
                  rw [((Node.bare_eq_iff _ _).1 bare).2.2.1, up]⟩)
              rw [weightAt_addDeltas ordered exact' kept
                (by simpa using sameLength) (by omega) done,
                weightAt_set here, gathered_set _ _ (by omega), gathered, reach]
              simp only [Option.elim_some, before, true_and]
              omega

end Pass

theorem weightAt_applyScores
    {tree : BlockTree} (wellFormed : WellFormed tree) {deltas : List Int} {stamp : Stamp}
    (done : (tree.applyScores deltas stamp).1 = .ok ()) (above : Nat) :
    weightAt (tree.applyScores deltas stamp).2.nodes above =
      weightAt tree.nodes above + gathered (tree.inSubtree above) deltas tree.size := by
  unfold applyScores at done ⊢
  split at done
  next => cases done
  next sameLength =>
    rw [if_neg sameLength]
    split at done
    next => cases done
    next nodes added =>
      rw [weightAt_congr (weights_relink _)]
      exact weightAt_addDeltas wellFormed.voteParentsFirst
        (fun below inRange => inSubtree_iff wellFormed inRange) (.refl tree.nodes)
        (Decidable.not_not.1 sameLength) (Nat.le_refl _) added

end BeaconChain.BlockTree
