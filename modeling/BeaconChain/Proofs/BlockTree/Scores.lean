import BeaconChain.Proofs.BlockTree.Weights
import Mathlib.Algebra.BigOperators.Group.Finset.Basic
import Mathlib.Algebra.Ring.Nat

/-!
# Deltas that can be added

Deltas are added in one pass from the last node to the first, which checks every sum that it comes
by.  Whatever positions one looks at, the deltas at them come to no more than the absolute values of
all deltas together.  So the pass does not leave the range of weights as long as these, with the
greatest weight before it, are in the range, and each node gains what its subtree has.
-/

open Relation

namespace BeaconChain

open BlockTree

/-- The weight that is out of range. -/
def weightLimit : Nat := 0x8000000000000000

theorem fitsWeight_of_between
    {weight : Int} {lower upper : Nat} (lowerFits : lower < weightLimit)
    (upperFits : upper < weightLimit) (notBelow : -(lower : Int) ≤ weight)
    (notAbove : weight ≤ upper) : fitsWeight weight = true := by
  simp only [weightLimit, fitsWeight, Bool.and_eq_true, decide_eq_true_eq] at *
  omega

namespace BlockTree

theorem gathered_congr
    {inside other : Nat → Bool} {deltas : List Int} :
    ∀ {count : Nat}, (∀ position < count, inside position = other position) →
      gathered inside deltas count = gathered other deltas count
  | 0, _ => rfl
  | count + 1, same => by
    rw [gathered, gathered, gathered_congr fun position before => same position (by omega),
      same count (Nat.lt_succ_self count)]

theorem gathered_none
    {inside : Nat → Bool} {deltas : List Int} :
    ∀ {count : Nat}, (∀ position < count, inside position = false) →
      gathered inside deltas count = 0
  | 0, _ => rfl
  | count + 1, outside => by
    rw [gathered, gathered_none fun position before => outside position (by omega),
      outside count (Nat.lt_succ_self count)]
    rfl

theorem gathered_single
    {deltas : List Int} {position : Nat} :
    ∀ {count : Nat}, position < count →
      gathered (fun place => place = position) deltas count = deltas.getD position 0
  | count + 1, before => by
    rw [gathered]
    rcases Nat.lt_succ_iff_lt_or_eq.1 before with earlier | rfl
    · rw [gathered_single earlier]
      simp [Nat.ne_of_gt earlier]
    · rw [gathered_none fun place earlier => by simp [Nat.ne_of_lt earlier]]
      simp

/-- Whatever positions one looks at, their deltas lie between two bounds together. -/
def Bounded (lower upper : Nat) (deltas : List Int) (count : Nat) : Prop :=
  ∀ inside, -(lower : Int) ≤ gathered inside deltas count ∧ gathered inside deltas count ≤ upper

namespace Bounded

variable {lower upper : Nat} {deltas : List Int} {count : Nat}

theorem replicate (size count : Nat) : Bounded 0 0 (List.replicate size 0) count :=
  fun inside => by simp [gathered_replicate]

theorem mono
    (bounded : Bounded lower upper deltas count) {lowerToo upperToo : Nat}
    (notAbove : lower ≤ lowerToo) (notAboveToo : upper ≤ upperToo) :
    Bounded lowerToo upperToo deltas count :=
  fun inside => by
    have := bounded inside
    omega

theorem gain
    (bounded : Bounded lower upper deltas count) {position : Nat}
    (inRange : position < deltas.length)
    (amount : Nat) :
    Bounded lower (upper + amount)
      (deltas.set position (deltas.getD position 0 + amount)) count := by
  intro inside
  have := bounded inside
  rw [gathered_set inside amount inRange]
  split <;> omega

theorem lose
    (bounded : Bounded lower upper deltas count) {position : Nat}
    (inRange : position < deltas.length)
    (amount : Nat) :
    Bounded (lower + amount) upper
      (deltas.set position (deltas.getD position 0 + -amount)) count := by
  intro inside
  have := bounded inside
  rw [gathered_set inside (-(amount : Int)) inRange]
  split <;> omega

theorem getD
    (bounded : Bounded lower upper deltas count) {position : Nat} (before : position < count) :
    -(lower : Int) ≤ deltas.getD position 0 ∧ deltas.getD position 0 ≤ upper := by
  have := bounded fun place => place = position
  rwa [gathered_single before] at this

/-- The last position can be left out. -/
theorem init
    (bounded : Bounded lower upper deltas (count + 1)) : Bounded lower upper deltas count := by
  intro inside
  have := bounded fun position => decide (position < count) && inside position
  have same : gathered (fun position => decide (position < count) && inside position) deltas count =
      gathered inside deltas count := gathered_congr fun position before => by simp [before]
  rw [gathered, same] at this
  simpa using this

/-- The last delta can be passed on. -/
theorem pass
    (bounded : Bounded lower upper deltas (count + 1)) {parent : Nat} (before : parent < count)
    (inRange : parent < deltas.length) :
    Bounded lower upper (deltas.set parent (deltas.getD parent 0 + deltas.getD count 0)) count := by
  intro inside
  have := bounded fun position => if position = count then inside parent else inside position
  have same : gathered (fun position => if position = count then inside parent else inside position)
      deltas count = gathered inside deltas count := gathered_congr fun position before => by
    rw [if_neg (Nat.ne_of_lt before)]
  rw [gathered, same] at this
  rw [gathered_set inside _ inRange]
  simpa [before] using this

end Bounded

section Pass

variable {base : List Node} {within : Nat → Nat → Bool} {lower upper : Nat}

theorem within_last
    (ordered : ParentsFirst base Node.voteParent)
    (exact' : ∀ above below, below < base.length →
      (within above below = true ↔ Descends base Node.voteParent below above))
    {count : Nat} (inRange : count < base.length) (deltas : List Int) :
    gathered (within count) deltas (count + 1) = deltas.getD count 0 := by
  have outside : ∀ position < count, within count position = false := by
    intro position before
    rw [Bool.eq_false_iff, Ne, exact' _ _ (Nat.lt_trans before inRange)]
    intro descends
    have := Descends.le ordered descends
    omega
  rw [gathered, gathered_none outside, (exact' count count inRange).2 ReflTransGen.refl]
  simp

/-- What reaches a subtree from the last node reaches it through the parent of that node. -/
theorem gathered_through_parent
    (ordered : ParentsFirst base Node.voteParent)
    (exact' : ∀ above below, below < base.length →
      (within above below = true ↔ Descends base Node.voteParent below above))
    {above count : Nat} {node : Node} (here : base[count]? = some node) (before : above < count)
    (deltas : List Int) :
    gathered (within above) deltas (count + 1) = gathered (within above) deltas count +
      node.voteParent.elim 0 fun parent =>
        if within above parent then deltas.getD count 0 else 0 := by
  rw [gathered, inside_eq ordered (exact' above) here, if_neg (Nat.ne_of_gt before), Int.zero_add]

/-- A pass stays in the range of weights if every sum of deltas does, and every weight with
what its subtree has gathered. -/
theorem exists_addDeltas
    (lowerFits : lower < weightLimit) (upperFits : upper < weightLimit)
    (ordered : ParentsFirst base Node.voteParent)
    (exact' : ∀ above below, below < base.length →
      (within above below = true ↔ Descends base Node.voteParent below above)) :
    ∀ {count : Nat} {nodes : List Node} {deltas : List Int}, SameNodes nodes base →
      deltas.length = base.length → count ≤ base.length → Bounded lower upper deltas count →
      (∀ above < count,
        fitsWeight (weightAt nodes above + gathered (within above) deltas count) = true) →
      ∃ added, addDeltas count nodes deltas = .ok added
  | 0, nodes, _, _, _, _, _, _ => ⟨nodes, rfl⟩
  | count + 1, nodes, deltas, same, sized, inRange, bounded, fits => by
    have inside : count < nodes.length := same.length_eq ▸ inRange
    obtain ⟨node, here⟩ : ∃ node, nodes[count]? = some node := ⟨_, List.getElem?_eq_getElem inside⟩
    obtain ⟨other, there, alike⟩ := same.getElem?_eq_some here
    have sameParent : other.voteParent = node.voteParent := ((Node.bare_eq_iff _ _).1 alike).2.2.1
    have through : ∀ above < count, gathered (within above) deltas (count + 1) =
        gathered (within above) deltas count + node.voteParent.elim 0 fun parent =>
          if within above parent then deltas.getD count 0 else 0 := by
      intro above before
      rw [gathered_through_parent ordered exact' there before, sameParent]
    unfold addDeltas
    simp only [here]
    split
    next nothing =>
      refine exists_addDeltas lowerFits upperFits ordered exact' same sized
        (Nat.le_of_succ_le inRange) bounded.init fun above before => ?_
      have := fits above (Nat.lt_succ_of_lt before)
      rwa [gathered, nothing, ite_self, Int.add_zero] at this
    next =>
      have weightFits := fits count (Nat.lt_succ_self count)
      rw [within_last ordered exact' inRange, weightAt_of_getElem? here] at weightFits
      rw [weightFits, Bool.not_true, if_neg Bool.false_ne_true]
      have unchanged : SameNodes (nodes.set count { node with
          weight := node.weight + deltas.getD count 0 }) nodes := sameNodes_set here rfl
      have sameSet := unchanged.trans same
      have sameWeight : ∀ above < count, weightAt (nodes.set count { node with
          weight := node.weight + deltas.getD count 0 }) above = weightAt nodes above := by
        intro above before
        rw [weightAt_set here, if_neg (Nat.ne_of_gt before), Int.add_zero]
      split
      next up =>
        refine exists_addDeltas lowerFits upperFits ordered exact' sameSet sized
          (Nat.le_of_succ_le inRange) bounded.init fun above before => ?_
        have := fits above (Nat.lt_succ_of_lt before)
        rw [through above before, up] at this
        rw [sameWeight above before]
        simpa using this
      next parent up =>
        have step : ParentAt base Node.voteParent count parent :=
          parentAt_iff.2 ⟨other, there, sameParent.trans up⟩
        have before := ordered _ _ step
        have parentInside : parent < deltas.length := by omega
        have passed := bounded.pass before parentInside
        have sum := passed.getD before
        rw [List.getD_eq_getElem?_getD, List.getElem?_set_self parentInside,
          Option.getD_some] at sum
        simp only [fitsWeight_of_between lowerFits upperFits sum.1 sum.2, Bool.not_true,
          Bool.false_eq_true, if_false]
        refine exists_addDeltas lowerFits upperFits ordered exact' sameSet
          (by rw [List.length_set, sized]) (Nat.le_of_succ_le inRange) passed
          fun above earlier => ?_
        have := fits above (Nat.lt_succ_of_lt earlier)
        rw [through above earlier, up] at this
        rw [sameWeight above earlier, gathered_set _ _ parentInside]
        simpa [before] using this

end Pass

/-- The absolute values of all deltas together. -/
def magnitude (deltas : List Int) : Nat :=
  (deltas.map Int.natAbs).sum

/-- The greatest absolute value of a weight. -/
def heaviest (tree : BlockTree) : Nat :=
  (tree.nodes.map fun node => node.weight.natAbs).max?.getD 0

theorem natAbs_gathered_le (inside : Nat → Bool) (deltas : List Int) :
    ∀ count, (gathered inside deltas count).natAbs ≤ magnitude (deltas.take count)
  | 0 => Nat.zero_le _
  | count + 1 => by
    have before := natAbs_gathered_le inside deltas count
    have more : magnitude (deltas.take (count + 1)) =
        magnitude (deltas.take count) + (deltas.getD count 0).natAbs := by
      rw [magnitude, List.take_add_one, List.map_append, List.sum_append,
        List.getD_eq_getElem?_getD]
      cases deltas[count]? <;> simp [magnitude]
    rw [gathered, more]
    split <;> omega

theorem bounded_magnitude (deltas : List Int) (count : Nat) :
    Bounded (magnitude deltas) (magnitude deltas) deltas count := by
  intro inside
  have first := natAbs_gathered_le inside deltas count
  have whole : magnitude (deltas.take count) + magnitude (deltas.drop count) =
      magnitude deltas := by
    rw [magnitude, magnitude, magnitude, ← List.sum_append, ← List.map_append,
      List.take_append_drop]
  omega

theorem natAbs_le_heaviest
    {tree : BlockTree} {node : Node} (member : node ∈ tree.nodes) :
    node.weight.natAbs ≤ tree.heaviest :=
  List.le_max?_getD_of_mem (List.mem_map_of_mem member)

/-! ## What deltas do -/

/-- A pass fails only because a sum leaves the range of weights. -/
theorem exists_overflow_of_addDeltas {error : Error} :
    ∀ {count : Nat} {nodes : List Node} {deltas : List Int},
      addDeltas count nodes deltas = .error error → ∃ node, error = .deltaOverflow node
  | 0, _, _, failed => by cases failed
  | count + 1, nodes, deltas, failed => by
    rw [addDeltas] at failed
    split at failed
    next => exact exists_overflow_of_addDeltas failed
    next node _ =>
      dsimp only at failed
      split at failed
      next => exact exists_overflow_of_addDeltas failed
      next =>
        split at failed
        next =>
          cases failed
          exact ⟨node.ref, rfl⟩
        next =>
          split at failed
          next => exact exists_overflow_of_addDeltas failed
          next =>
            split at failed
            next =>
              cases failed
              exact ⟨_, rfl⟩
            next => exact exists_overflow_of_addDeltas failed

theorem gathered_eq_sum (inside : Nat → Bool) (deltas : List Int) :
    ∀ count, gathered inside deltas count =
      ∑ position ∈ Finset.range count with inside position = true, deltas.getD position 0
  | 0 => rfl
  | count + 1 => by
    rw [gathered, gathered_eq_sum inside deltas count, Finset.sum_filter, Finset.sum_filter,
      Finset.sum_range_succ]

/-- The positions of a node and of those that descend from it. -/
def subtree (tree : BlockTree) (above : Nat) : Finset Nat :=
  {below ∈ Finset.range tree.size | tree.inSubtree above below = true}

theorem mem_subtree_iff
    {tree : BlockTree} (wellFormed : WellFormed tree) {above : Nat} (inside : above < tree.size)
    (below : Nat) : below ∈ tree.subtree above ↔ tree.VoteDescends below above := by
  rw [subtree, Finset.mem_filter, Finset.mem_range]
  constructor
  · rintro ⟨belowInside, descends⟩
    exact (inSubtree_iff wellFormed belowInside).1 descends
  · intro descends
    have belowInside : below < tree.size := by
      rcases ReflTransGen.cases_head descends with rfl | ⟨parent, step, _⟩
      · exact inside
      · obtain ⟨node, here, _⟩ := parentAt_iff.1 step
        exact (List.getElem?_eq_some_iff.1 here).1
    exact ⟨belowInside, (inSubtree_iff wellFormed belowInside).2 descends⟩

/-- What deltas do to a tree, whether or not all of them can be added. -/
structure ScoreChange (tree : BlockTree) (deltas : List Int) (stamp : Stamp)
    (outcome : Except Error Unit) (next : BlockTree) : Prop where
  /-- Each node gains the deltas of all that descend from it, itself among them. -/
  gains : outcome = .ok () → ∀ position node, tree.nodes[position]? = some node →
    ∃ (subtree : Finset Nat) (after : Node),
      (∀ below, below ∈ subtree ↔ tree.VoteDescends below position) ∧
        next.nodes[position]? = some after ∧ after.ref = node.ref ∧
        after.weight = node.weight + ∑ below ∈ subtree, deltas.getD below 0
  renewed : outcome = .ok () → next.stamp = stamp ∧ SameShape next tree
  mismatch : (∃ given nodes, outcome = .error (.lengthMismatch given nodes)) ↔
    deltas.length ≠ tree.size
  unchanged : ∀ error, outcome = .error error → next = tree
  /-- No sum leaves the range of weights if it has room for all of them. -/
  granted : deltas.length = tree.size → magnitude deltas + tree.heaviest < weightLimit →
    outcome = .ok ()

theorem exists_applyScores
    {tree : BlockTree} (wellFormed : WellFormed tree) {deltas : List Int}
    (sized : deltas.length = tree.size)
    (room : magnitude deltas + tree.heaviest < weightLimit) (stamp : Stamp) :
    (tree.applyScores deltas stamp).1 = .ok () := by
  have light : magnitude deltas < weightLimit := by omega
  have bounded := bounded_magnitude deltas tree.size
  have fits : ∀ above < tree.size,
      fitsWeight (weightAt tree.nodes above + gathered (tree.inSubtree above) deltas tree.size) =
        true := by
    intro above inside
    have here := List.getElem?_eq_getElem (show above < tree.nodes.length from inside)
    have weight := natAbs_le_heaviest (List.mem_of_getElem? here)
    have sum := bounded (tree.inSubtree above)
    rw [weightAt_of_getElem? here]
    exact fitsWeight_of_between room room (by omega) (by omega)
  obtain ⟨nodes, added⟩ := exists_addDeltas light light wellFormed.voteParentsFirst
    (fun _ _ inside => inSubtree_iff wellFormed inside) (.refl tree.nodes) sized
    (Nat.le_refl tree.size) bounded fits
  unfold applyScores
  rw [if_neg (Decidable.not_not.2 sized)]
  simp only [added]

theorem error_of_applyScores
    {tree next : BlockTree} {deltas : List Int} {stamp : Stamp} {error : Error}
    (failed : tree.applyScores deltas stamp = (.error error, next)) :
    next = tree ∧ (deltas.length ≠ tree.size ∧ error = .lengthMismatch deltas.length tree.size ∨
      deltas.length = tree.size ∧ ∃ node, error = .deltaOverflow node) := by
  unfold applyScores at failed
  split at failed
  next different =>
    cases failed
    exact ⟨rfl, .inl ⟨different, rfl⟩⟩
  next same =>
    split at failed
    next overflows =>
      cases failed
      exact ⟨rfl, .inr ⟨Decidable.not_not.1 same, exists_overflow_of_addDeltas overflows⟩⟩
    next => cases failed

theorem stamp_applyScores
    {tree counted : BlockTree} {deltas : List Int} {stamp : Stamp}
    (applied : tree.applyScores deltas stamp = (.ok (), counted)) : counted.stamp = stamp := by
  unfold applyScores at applied
  split at applied
  · cases applied
  · split at applied
    · cases applied
    · cases applied
      rfl

/-- In every tree that can be reached, deltas are added as a whole or not at all. -/
theorem applyScores_adds_sums
    {tree : BlockTree} (reached : Reachable tree) (deltas : List Int) (stamp : Stamp) :
    ScoreChange tree deltas stamp (tree.applyScores deltas stamp).1
      (tree.applyScores deltas stamp).2 where
  gains done position node here := by
    have wellFormed := reached.sound.toWellFormed
    have inside := (List.getElem?_eq_some_iff.1 here).1
    have shape := sameShape_applyScores tree deltas stamp
    obtain ⟨after, afterHere, bare⟩ := shape.symm.nodes.getElem?_eq_some here
    have gain := weightAt_applyScores wellFormed done position
    rw [weightAt_of_getElem? here, weightAt_of_getElem? afterHere, gathered_eq_sum] at gain
    exact ⟨tree.subtree position, after, mem_subtree_iff wellFormed inside, afterHere,
      ((Node.bare_eq_iff _ _).1 bare).1, gain⟩
  renewed done := ⟨stamp_applyScores (Prod.ext done rfl), sameShape_applyScores tree deltas stamp⟩
  mismatch := by
    constructor
    · rintro ⟨given, nodes, failed⟩
      rcases (error_of_applyScores (Prod.ext failed rfl)).2 with
        ⟨different, _⟩ | ⟨_, node, isOverflow⟩
      · exact different
      · cases isOverflow
    · intro different
      exact ⟨deltas.length, tree.size, by rw [applyScores, if_pos different]⟩
  unchanged error failed := (error_of_applyScores (Prod.ext failed rfl)).1
  granted sized room := exists_applyScores reached.sound.toWellFormed sized room stamp

/-- A block with a block after it, and one beside it, which have all lost their anchor. -/
def severedTree : BlockTree :=
  ((((((ofAnchor ⟨⟨1⟩, 0⟩ .zero {}).insertBlock ⟨1⟩ ⟨2⟩ 1 {}).2.insertBlock
    ⟨1⟩ ⟨3⟩ 2 {}).2.insertBlock
    ⟨2⟩ ⟨4⟩ 3 {}).2).prune ⟨⟨2⟩, 1⟩ (fun _ _ count => (.ok (), count + 1)) 0).2.1

theorem applyScores_adds_sums_severedTree :
    (severedTree.applyScores [1, -2, 0, 4, 0, 8] ⟨1, 0⟩).1 = .ok () ∧
      (severedTree.applyScores [1, -2, 0, 4, 0, 8] ⟨1, 0⟩).2.nodes.map Node.weight =
        [13, -2, 0, 12, 0, 8] ∧
      severedTree.applyScores [0, 0, 0, 0x7FFFFFFFFFFFFFFF, 0, 1] ⟨1, 0⟩ =
        (.error (.deltaOverflow ⟨⟨2⟩, 2⟩), severedTree) := by
  have reached : Reachable severedTree :=
    .prune (.insertBlock (.insertBlock (.insertBlock (.ofAnchor ⟨⟨1⟩, 0⟩ .zero {}) ⟨1⟩ ⟨2⟩ 1 {})
      ⟨1⟩ ⟨3⟩ 2 {}) ⟨2⟩ ⟨4⟩ 3 {}) ⟨⟨2⟩, 1⟩ _ 0
  have change := applyScores_adds_sums reached [1, -2, 0, 4, 0, 8] ⟨1, 0⟩
  have refused := applyScores_adds_sums reached [0, 0, 0, 0x7FFFFFFFFFFFFFFF, 0, 1] ⟨1, 0⟩
  have overflows : (severedTree.applyScores [0, 0, 0, 0x7FFFFFFFFFFFFFFF, 0, 1] ⟨1, 0⟩).1 =
      .error (.deltaOverflow ⟨⟨2⟩, 2⟩) := by decide
  exact ⟨change.granted (by decide) (by decide), by decide,
    Prod.ext overflows (refused.unchanged _ overflows)⟩

end BlockTree

end BeaconChain
