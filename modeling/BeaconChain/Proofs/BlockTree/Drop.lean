import BeaconChain.BlockTree.Prune
import BeaconChain.Proofs.BlockTree.Insert
import Mathlib.Data.List.Nodup

/-!
# Trees without their oldest nodes

When the oldest nodes are taken out, the others keep their order and their names,
and a parent is kept exactly if it is not among those taken out.  Descent between
the nodes that are left is what it was, and the tree stays well formed.
-/

open Relation

namespace BeaconChain.BlockTree

theorem shift_eq_some_iff {count position shifted : Nat} :
    shift count position = some shifted ↔ position = shifted + count := by
  unfold shift
  split
  · simp only [Option.some.injEq]
    omega
  · simp only [reduceCtorEq, false_iff]
    omega

theorem shift_eq_none_iff {count position : Nat} :
    shift count position = none ↔ position < count := by
  unfold shift
  split
  · simp only [reduceCtorEq, false_iff]
    omega
  · simp only [true_iff]
    omega

theorem bind_shift_eq_some_iff {count shifted : Nat} {parent : Option Nat} :
    parent.bind (shift count) = some shifted ↔ parent = some (shifted + count) := by
  cases parent with
  | none => simp
  | some position => simp [shift_eq_some_iff]

theorem bind_shift_eq_none_iff {count : Nat} {parent : Option Nat} :
    parent.bind (shift count) = none ↔ ∀ position, parent = some position → position < count := by
  cases parent with
  | none => simp
  | some position => simp [shift_eq_none_iff]

@[simp]
theorem shiftNode_zero (node : Node) : shiftNode 0 node = node := by
  have keep : shift 0 = some := by
    funext position
    simp [shift]
  obtain ⟨ref, stateParent, voteParent, parentRoot, stamp, weight, best⟩ := node
  cases best <;> simp [shiftNode, keep]

theorem bind_shift_shift (first second : Nat) (parent : Option Nat) :
    (parent.bind (shift first)).bind (shift second) = parent.bind (shift (first + second)) := by
  refine Option.ext fun shifted => ?_
  rw [bind_shift_eq_some_iff, bind_shift_eq_some_iff, bind_shift_eq_some_iff,
    Nat.add_comm first second, Nat.add_assoc]

theorem shiftNode_shiftNode (first second : Nat) (node : Node) :
    shiftNode second (shiftNode first node) = shiftNode (first + second) node := by
  have shifted : ∀ position, (shift first position).bind (shift second) =
      shift (first + second) position :=
        fun position => bind_shift_shift first second (some position)
  have best : (shiftNode second (shiftNode first node)).best =
      (shiftNode (first + second) node).best := by
    cases linkOf : node.best with
    | none => simp [shiftNode, linkOf]
    | some best =>
      simp only [shiftNode, linkOf, ← shifted]
      cases child : shift first best.child with
      | none => simp [child]
      | some => cases head : shift first best.head <;> simp [child, head]
  simp only [shiftNode, bind_shift_shift, Node.mk.injEq, true_and] at best ⊢
  exact best

theorem nodes_foldl_push (added : List Node) :
    ∀ tree : BlockTree, (added.foldl push tree).nodes = tree.nodes ++ added := by
  induction added with
  | nil => simp
  | cons node rest ih => simp [ih]

theorem stamp_foldl_push (added : List Node) :
    ∀ tree : BlockTree, (added.foldl push tree).stamp = tree.stamp := by
  induction added with
  | nil => simp
  | cons node rest ih => simp [ih]

theorem outdated_foldl_push (added : List Node) :
    ∀ tree : BlockTree, (added.foldl push tree).outdated = tree.outdated := by
  induction added with
  | nil => simp
  | cons node rest ih => simp [ih]

theorem nodes_dropOldest (tree : BlockTree) (count : Nat) :
    (tree.dropOldest count).nodes = (tree.nodes.drop count).map (shiftNode count) := by
  unfold dropOldest
  split
  next none =>
    subst none
    have keep : shiftNode 0 = id := funext shiftNode_zero
    simp [keep]
  next => simp [nodes_foldl_push]

@[simp]
theorem stamp_dropOldest (tree : BlockTree) (count : Nat) :
    (tree.dropOldest count).stamp = tree.stamp := by
  unfold dropOldest
  split <;> simp [stamp_foldl_push]

theorem outdated_dropOldest (tree : BlockTree) {count : Nat} (some : count ≠ 0) :
    (tree.dropOldest count).outdated = true := by
  simp [dropOldest, some, outdated_foldl_push]

@[simp]
theorem dropOldest_zero (tree : BlockTree) : tree.dropOldest 0 = tree := by
  simp [dropOldest]

/-- Nodes may be taken out at once or one part after the other. -/
theorem dropOldest_dropOldest (tree : BlockTree) (first second : Nat) :
    (tree.dropOldest first).dropOldest second = tree.dropOldest (first + second) := by
  by_cases noFirst : first = 0
  · rw [noFirst, dropOldest_zero, Nat.zero_add]
  · by_cases noSecond : second = 0
    · rw [noSecond, dropOldest_zero, Nat.add_zero]
    · have nodes : ((tree.dropOldest first).nodes.drop second).map (shiftNode second) =
          (tree.nodes.drop (first + second)).map (shiftNode (first + second)) := by
        rw [nodes_dropOldest, ← List.map_drop, List.drop_drop, List.map_map]
        exact List.map_congr_left fun node _ => shiftNode_shiftNode first second node
      have some : first + second ≠ 0 := by omega
      rw [dropOldest, if_neg noSecond, nodes, stamp_dropOldest, dropOldest, if_neg some]

theorem getElem?_nodes_dropOldest (tree : BlockTree) (count position : Nat) :
    (tree.dropOldest count).nodes[position]? =
      (tree.nodes[position + count]?).map (shiftNode count) := by
  rw [nodes_dropOldest, List.getElem?_map, List.getElem?_drop, Nat.add_comm]

theorem getElem?_dropOldest_eq_some_iff
    {tree : BlockTree} {count position : Nat} {node : Node} :
    (tree.dropOldest count).nodes[position]? = some node ↔
      ∃ before, tree.nodes[position + count]? = some before ∧ shiftNode count before = node := by
  rw [getElem?_nodes_dropOldest]
  exact Option.map_eq_some_iff

theorem getElem?_dropOldest
    {tree : BlockTree} {count position : Nat} {node : Node}
    (here : tree.nodes[position + count]? = some node) :
    (tree.dropOldest count).nodes[position]? = some (shiftNode count node) :=
  getElem?_dropOldest_eq_some_iff.2 ⟨node, here, rfl⟩

/-- Both kinds of parents are shifted with their nodes. -/
def Shifts (parent : Node → Option Nat) : Prop :=
  ∀ (count : Nat) (node : Node), parent (shiftNode count node) = (parent node).bind (shift count)

theorem shifts_stateParent : Shifts Node.stateParent := fun _ _ => rfl

theorem shifts_voteParent : Shifts Node.voteParent := fun _ _ => rfl

section Descent

variable {tree : BlockTree} {parent : Node → Option Nat} {count : Nat}

theorem parentAt_dropOldest (shifts : Shifts parent) {child above : Nat} :
    ParentAt (tree.dropOldest count).nodes parent child above ↔
      ParentAt tree.nodes parent (child + count) (above + count) := by
  simp only [parentAt_iff, getElem?_dropOldest_eq_some_iff]
  constructor
  · rintro ⟨_, ⟨node, here, rfl⟩, up⟩
    rw [shifts count node, bind_shift_eq_some_iff] at up
    exact ⟨node, here, up⟩
  · rintro ⟨node, here, up⟩
    refine ⟨_, ⟨node, here, rfl⟩, ?_⟩
    rw [shifts count node, bind_shift_eq_some_iff]
    exact up

theorem descends_dropOldest
    (shifts : Shifts parent) (ordered : ParentsFirst tree.nodes parent) {below above : Nat} :
    Descends (tree.dropOldest count).nodes parent below above ↔
      Descends tree.nodes parent (below + count) (above + count) := by
  constructor
  · intro descends
    have longer : ParentAt (tree.dropOldest count).nodes parent ≤
        Function.onFun (ParentAt tree.nodes parent) (· + count) :=
      fun _ _ step => (parentAt_dropOldest shifts).1 step
    exact ReflTransGen.lift (· + count) longer _ _ descends
  · intro descends
    -- no node on the way stands before the end, so that none of them was taken out
    generalize start : below + count = low at descends
    induction descends using ReflTransGen.head_induction_on generalizing below with
    | refl =>
      obtain rfl : below = above := Nat.add_right_cancel start
      exact ReflTransGen.refl
    | @head low next step rest ih =>
      have notBefore := Descends.le ordered rest
      subst start
      obtain ⟨middle, rfl⟩ : ∃ middle, next = middle + count := ⟨next - count, by omega⟩
      exact ReflTransGen.head ((parentAt_dropOldest shifts).2 step) (ih rfl)

end Descent

theorem Indexed.nodup {tree : BlockTree} (indexed : Indexed tree) :
    (tree.nodes.map Node.ref).Nodup := by
  rw [List.nodup_iff_getElem?_ne_getElem?]
  intro first second before inside same
  rw [List.getElem?_map, List.getElem?_map] at same
  rw [List.length_map] at inside
  rw [List.getElem?_eq_getElem inside,
    List.getElem?_eq_getElem (Nat.lt_trans before inside)] at same
  have := indexed.position_unique
    (List.getElem?_eq_getElem (Nat.lt_trans before inside)) (List.getElem?_eq_getElem inside)
    (by simpa using same)
  omega

theorem indexed_foldl_push :
    ∀ {added : List Node} {tree : BlockTree}, Indexed tree →
      ((tree.nodes ++ added).map Node.ref).Nodup → Indexed (added.foldl push tree)
  | [], _, indexed, _ => indexed
  | node :: rest, tree, indexed, distinct => by
    have fresh : tree.position? node.ref = none := by
      rw [indexed.position?_eq_none_iff]
      intro other member same
      rw [List.map_append, List.nodup_append] at distinct
      exact distinct.2.2 other.ref (List.mem_map_of_mem member) node.ref
        (List.mem_map_of_mem List.mem_cons_self) same
    rw [List.foldl_cons]
    exact indexed_foldl_push (indexed.push fresh) (by simpa using distinct)

theorem indexed_of_no_nodes (stamp : Stamp) (outdated : Bool) :
    Indexed { stamp := stamp, outdated := outdated } where
  positions ref position := by simp [position?, Table.find?]
  spanOf root span found := by simp [Table.find?] at found
  spanned position node here := by simp at here

theorem Indexed.dropOldest {tree : BlockTree} (indexed : Indexed tree) (count : Nat) :
    Indexed (tree.dropOldest count) := by
  unfold BlockTree.dropOldest
  split
  · exact indexed
  · apply indexed_foldl_push (indexed_of_no_nodes _ _)
    have named : Node.ref ∘ shiftNode count = Node.ref := rfl
    simp only [List.nil_append, List.map_map, named, List.map_drop]
    exact indexed.nodup.sublist (List.drop_sublist count _)

theorem FirstOfRoot.dropOldest
    {tree : BlockTree} {root : Root} {count position : Nat}
    (first : FirstOfRoot tree.nodes root (position + count)) :
    FirstOfRoot (tree.dropOldest count).nodes root position := by
  intro other found there ofRoot
  obtain ⟨node, here, rfl⟩ := getElem?_dropOldest_eq_some_iff.1 there
  have := first _ node here ofRoot
  omega

namespace WellFormed

variable {tree : BlockTree}

/-- The first slot of a root that is left has lost the slot before it. -/
theorem firstOfRoot_dropOldest
    (wellFormed : WellFormed tree) {count position above : Nat} {node before : Node}
    (here : tree.nodes[position + count]? = some node) (found : tree.nodes[above]? = some before)
    (sameRoot : before.ref.root = node.ref.root) (nextSlot : node.ref.slot = before.ref.slot + 1)
    (gone : above < count) :
    FirstOfRoot (tree.dropOldest count).nodes node.ref.root position := by
  intro other shifted there ofRoot
  obtain ⟨node', here', rfl⟩ := getElem?_dropOldest_eq_some_iff.1 there
  rcases Nat.lt_or_ge other position with earlier | notEarlier
  · have sameRoot' : node'.ref.root = node.ref.root := ofRoot
    have afterBefore := wellFormed.slot_le_iff found here' (sameRoot'.trans sameRoot.symm)
    have beforeNode := wellFormed.slot_le_iff here' here sameRoot'.symm
    omega
  · exact notEarlier

theorem link_dropOldest
    (wellFormed : WellFormed tree) {count position : Nat} {node : Node}
    (here : tree.nodes[position + count]? = some node) :
    Link (tree.dropOldest count).nodes position (shiftNode count node) := by
  cases wellFormed.links _ node here with
  | severed noState noVote first =>
    exact .severed (by simp [shiftNode, noState]) (by simp [shiftNode, noVote]) first.dropOldest
  | slot above before earlier found sameRoot nextSlot empty state vote =>
    rcases Nat.lt_or_ge above count with gone | kept
    · have first := wellFormed.firstOfRoot_dropOldest here found sameRoot nextSlot gone
      refine .severed ?_ ?_ first
      · exact bind_shift_eq_none_iff.2 fun other same => by
          rw [state, Option.some.injEq] at same
          omega
      · exact bind_shift_eq_none_iff.2 fun other same => by
          rw [vote, Option.some.injEq] at same
          omega
    · obtain ⟨shifted, rfl⟩ : ∃ shifted, above = shifted + count := ⟨above - count, by omega⟩
      exact .slot shifted (shiftNode count before) (by omega) (getElem?_dropOldest found) sameRoot
        nextSlot empty (bind_shift_eq_some_iff.2 state) (bind_shift_eq_some_iff.2 vote)
  | block above before earlier found parent sameSlot filled empty state vote first =>
    rcases Nat.lt_or_ge above count with gone | kept
    · refine .severed ?_ ?_ first.dropOldest
      · exact bind_shift_eq_none_iff.2 fun other same => by
          rw [state, Option.some.injEq] at same
          omega
      · exact bind_shift_eq_none_iff.2 fun other same => by
          have step : ParentAt tree.nodes Node.voteParent above other :=
            parentAt_iff.2 ⟨before, found, vote.symm.trans same⟩
          have := wellFormed.voteParentsFirst _ _ step
          omega
    · obtain ⟨shifted, rfl⟩ : ∃ shifted, above = shifted + count := ⟨above - count, by omega⟩
      exact .block shifted (shiftNode count before) (by omega) (getElem?_dropOldest found) parent
        sameSlot filled empty (bind_shift_eq_some_iff.2 state) (by simp [shiftNode, vote])
        first.dropOldest

theorem dropOldest (wellFormed : WellFormed tree) (count : Nat) :
    WellFormed (tree.dropOldest count) where
  toIndexed := wellFormed.toIndexed.dropOldest count
  links position node there := by
    obtain ⟨before, here, rfl⟩ := getElem?_dropOldest_eq_some_iff.1 there
    exact wellFormed.link_dropOldest here

theorem stateDescends_dropOldest
    (wellFormed : WellFormed tree) {count below above : Nat} :
    (tree.dropOldest count).StateDescends below above ↔
      tree.StateDescends (below + count) (above + count) :=
  descends_dropOldest shifts_stateParent wellFormed.stateParentsFirst

theorem voteDescends_dropOldest
    (wellFormed : WellFormed tree) {count below above : Nat} :
    (tree.dropOldest count).VoteDescends below above ↔
      tree.VoteDescends (below + count) (above + count) :=
  descends_dropOldest shifts_voteParent wellFormed.voteParentsFirst

theorem position?_dropOldest
    (wellFormed : WellFormed tree) {count position : Nat} {ref : NodeRef} :
    (tree.dropOldest count).position? ref = some position ↔
      tree.position? ref = some (position + count) := by
  rw [(wellFormed.dropOldest count).positions, wellFormed.positions]
  constructor
  · rintro ⟨node, there, named⟩
    obtain ⟨before, here, rfl⟩ := getElem?_dropOldest_eq_some_iff.1 there
    exact ⟨before, here, named⟩
  · rintro ⟨node, here, named⟩
    exact ⟨_, getElem?_dropOldest here, named⟩

end WellFormed

end BeaconChain.BlockTree
