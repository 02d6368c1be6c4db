import BeaconChain.BlockTree.Basic
import Mathlib.Logic.Relation

/-!
# Ancestry

A node descends from another if parents lead from the one to the other.  Where
every parent stands before its child, a lineage lists exactly the ancestors of a
node, and the ancestors of one node are ancestors of one another.
-/

open Relation

namespace BeaconChain.BlockTree

section Lineages

variable {nodes extra : List Node} {parent : Node → Option Nat}

/-- The node at `child` has its parent at `above`. -/
def ParentAt (nodes : List Node) (parent : Node → Option Nat) (child above : Nat) : Prop :=
  (nodes[child]?).bind parent = some above

/-- Parents lead from `below` to `above`, which may be the same position. -/
abbrev Descends (nodes : List Node) (parent : Node → Option Nat) : Nat → Nat → Prop :=
  ReflTransGen (ParentAt nodes parent)

/-- Every parent stands before its child. -/
def ParentsFirst (nodes : List Node) (parent : Node → Option Nat) : Prop :=
  ∀ child above, ParentAt nodes parent child above → above < child

theorem parentAt_iff {child above : Nat} :
    ParentAt nodes parent child above ↔
      ∃ node, nodes[child]? = some node ∧ parent node = some above :=
  Option.bind_eq_some_iff

theorem ParentAt.unique {child above other : Nat}
    (first : ParentAt nodes parent child above) (second : ParentAt nodes parent child other) :
    above = other :=
  Option.some.inj (first.symm.trans second)

theorem Descends.le
    (ordered : ParentsFirst nodes parent) {below above : Nat}
    (descends : Descends nodes parent below above) : above ≤ below := by
  induction descends with
  | refl => exact Nat.le_refl _
  | tail _ step ih => exact Nat.le_trans (Nat.le_of_lt (ordered _ _ step)) ih

/-- Of two ancestors of a node the later one descends from the earlier one. -/
theorem Descends.between
    (ordered : ParentsFirst nodes parent) {below above other : Nat}
    (descends : Descends nodes parent below above)
    (descendsOther : Descends nodes parent below other) (notLater : other ≤ above) :
    Descends nodes parent above other := by
  have unique : Relator.RightUnique (ParentAt nodes parent) :=
    fun _ _ _ => ParentAt.unique
  rcases ReflTransGen.total_of_right_unique unique descends descendsOther with down | up
  · exact down
  · have : above = other := Nat.le_antisymm (Descends.le ordered up) notLater
    exact this ▸ ReflTransGen.refl

theorem Descends.total
    (ordered : ParentsFirst nodes parent) {below above other : Nat}
    (descends : Descends nodes parent below above)
    (descendsOther : Descends nodes parent below other) :
    Descends nodes parent above other ∨ Descends nodes parent other above :=
  (Nat.le_total other above).imp (Descends.between ordered descends descendsOther)
    (Descends.between ordered descendsOther descends)

theorem Descends.parent_of_ne {below above : Nat}
    (descends : Descends nodes parent below above) (different : below ≠ above) :
    ∃ next, ParentAt nodes parent below next ∧ Descends nodes parent next above := by
  rcases ReflTransGen.cases_head descends with same | stepped
  · exact absurd same different
  · exact stepped

theorem ParentAt.lt_length {child above : Nat}
    (step : ParentAt nodes parent child above) : child < nodes.length := by
  obtain ⟨node, found, _⟩ := parentAt_iff.1 step
  exact (List.getElem?_eq_some_iff.1 found).1

/-- A lineage lists the ancestors of its first node. -/
theorem mem_ancestry
    (ordered : ParentsFirst nodes parent) {ancestor : Nat} {found : Node} :
    ∀ {steps position : Nat}, position < steps →
      ((ancestor, found) ∈ ancestry nodes parent steps position ↔
        Descends nodes parent position ancestor ∧ nodes[ancestor]? = some found)
  | steps + 1, position, enough => by
    cases here : nodes[position]? with
    | none =>
      simp only [ancestry, here, List.not_mem_nil, false_iff, not_and]
      intro descends
      rcases ReflTransGen.cases_head descends with rfl | ⟨next, step, _⟩
      · simp [here]
      · simp [ParentAt, here] at step
    | some node =>
      cases above : parent node with
      | none =>
        simp only [ancestry, here, above, List.mem_singleton, Prod.mk.injEq]
        constructor
        · rintro ⟨rfl, rfl⟩
          exact ⟨ReflTransGen.refl, here⟩
        · rintro ⟨descends, foundAt⟩
          rcases ReflTransGen.cases_head descends with rfl | ⟨next, step, _⟩
          · exact ⟨rfl, Option.some.inj (foundAt.symm.trans here)⟩
          · simp [ParentAt, here, above] at step
      | some next =>
        have step : ParentAt nodes parent position next := parentAt_iff.2 ⟨node, here, above⟩
        have earlier := ordered _ _ step
        have rest : (ancestor, found) ∈ ancestry nodes parent steps next ↔
            Descends nodes parent next ancestor ∧ nodes[ancestor]? = some found :=
          mem_ancestry ordered (by omega)
        simp only [ancestry, here, above, List.mem_cons, Prod.mk.injEq, rest]
        constructor
        · rintro (⟨rfl, rfl⟩ | ⟨descends, foundAt⟩)
          · exact ⟨ReflTransGen.refl, here⟩
          · exact ⟨ReflTransGen.head step descends, foundAt⟩
        · rintro ⟨descends, foundAt⟩
          rcases ReflTransGen.cases_head descends with rfl | ⟨other, otherStep, descends⟩
          · exact .inl ⟨rfl, Option.some.inj (foundAt.symm.trans here)⟩
          · exact .inr ⟨step.unique otherStep ▸ descends, foundAt⟩

theorem parentAt_append {child above : Nat} (inside : child < nodes.length) :
    ParentAt (nodes ++ extra) parent child above ↔ ParentAt nodes parent child above := by
  simp [ParentAt, List.getElem?_append_left inside]

theorem Descends.append {below above : Nat} (descends : Descends nodes parent below above) :
    Descends (nodes ++ extra) parent below above := by
  have longer : ParentAt nodes parent ≤ ParentAt (nodes ++ extra) parent :=
    fun _ _ step => (parentAt_append step.lt_length).2 step
  exact ReflTransGen.mono longer _ _ descends

theorem descends_append
    (ordered : ParentsFirst (nodes ++ extra) parent) {below above : Nat}
    (inside : below < nodes.length) :
    Descends (nodes ++ extra) parent below above ↔ Descends nodes parent below above := by
  refine ⟨fun descends => ?_, Descends.append⟩
  induction descends using ReflTransGen.head_induction_on with
  | refl => exact ReflTransGen.refl
  | head step _ ih =>
    have earlier := ordered _ _ step
    exact ReflTransGen.head ((parentAt_append inside).1 step) (ih (by omega))

theorem descends_congr {others : List Node}
    (same : ∀ child : Nat, (nodes[child]?).bind parent = (others[child]?).bind parent) :
    Descends nodes parent = Descends others parent := by
  have : ParentAt nodes parent = ParentAt others parent := by
    funext child above
    simp [ParentAt, same child]
  rw [Descends, this]

end Lineages

/-- The node at `below` is the one at `above`, or descends from it by state
parents. -/
abbrev StateDescends (tree : BlockTree) : Nat → Nat → Prop :=
  Descends tree.nodes Node.stateParent

/-- The node at `below` is the one at `above`, or descends from it by vote
parents. -/
abbrev VoteDescends (tree : BlockTree) : Nat → Nat → Prop :=
  Descends tree.nodes Node.voteParent

end BeaconChain.BlockTree
