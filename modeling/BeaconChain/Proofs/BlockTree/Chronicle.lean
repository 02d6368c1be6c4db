import BeaconChain.Proofs.BlockTree.Sound

/-!
# The chronicle of a tree

The annals of a tree list the names of all nodes that were ever inserted, of which the
tree holds a final part.  If a block root always comes with the same parent and slot, no
name appears in them twice: what has been taken out of the tree never comes back.
-/

namespace BeaconChain

/-- Where the blocks come from: the parent and the slot of every block root. -/
structure Pedigree where
  parent : Root → Root
  slot : Root → Nat

/-- A block with this parent, root and slot agrees with the pedigree. -/
def Pedigree.Admits (pedigree : Pedigree) (parentRoot root : Root) (slot : Nat) : Prop :=
  parentRoot = pedigree.parent root ∧ slot = pedigree.slot root

namespace BlockTree

/-- How a name came into the log: as the anchor, as the slot behind an earlier name,
or as a block whose slot has an earlier name under the root of its parent. -/
inductive Origin (pedigree : Pedigree) (anchor : NodeRef) (log : List NodeRef) (index : Nat)
    (ref : NodeRef) : Prop
  | anchor (isFirst : index = 0) (same : ref = anchor)
  | slot (earlier previous : Nat) (before : earlier < index)
    (found : log[earlier]? = some ⟨ref.root, previous⟩) (next : ref.slot = previous + 1)
  | block (earlier : Nat) (before : earlier < index)
    (found : log[earlier]? = some ⟨pedigree.parent ref.root, ref.slot⟩)
    (known : ref.slot = pedigree.slot ref.root) (afterAnchor : anchor.slot < ref.slot)

/-- The log lists the names of all nodes that were inserted after the anchor, each of
them once, and the tree holds the nodes of a final part of it. -/
structure Annals (pedigree : Pedigree) (anchor : NodeRef) (log : List NodeRef)
    (tree : BlockTree) : Prop where
  anchorSlot : anchor.slot = pedigree.slot anchor.root
  distinct : ∀ (index other : Nat) (ref : NodeRef), log[index]? = some ref →
    log[other]? = some ref → index = other
  origin : ∀ (index : Nat) (ref : NodeRef), log[index]? = some ref →
    Origin pedigree anchor log index ref
  retained : ∃ cut, tree.nodes.map Node.ref = log.drop cut

/-- Annals in which no name is that of a vote for nothing. -/
structure Chronicle (pedigree : Pedigree) (anchor : NodeRef) (log : List NodeRef)
    (tree : BlockTree) : Prop extends Annals pedigree anchor log tree where
  anchorNonzero : anchor ≠ .zero

/-- The root of a name is known from the log, but all nodes of it that the tree still
holds are later.  Such a name has no node and will not get one. -/
structure Gone (log : List NodeRef) (tree : BlockTree) (ref : NodeRef) : Prop where
  known : ∃ (index : Nat) (slot : Nat), log[index]? = some ⟨ref.root, slot⟩
  later : AllLater tree.nodes ref

namespace Annals

variable {pedigree : Pedigree} {anchor : NodeRef} {log : List NodeRef} {tree : BlockTree}

theorem anchor_slot_le (annals : Annals pedigree anchor log tree) :
    ∀ {index : Nat} {ref : NodeRef}, log[index]? = some ref → anchor.slot ≤ ref.slot := by
  intro index
  induction index using Nat.strongRecOn with
  | ind index ih =>
    intro ref found
    cases annals.origin index ref found with
    | anchor _ same => exact same ▸ Nat.le_refl _
    | slot earlier previous before there next =>
      have : anchor.slot ≤ previous := ih earlier before there
      omega
    | block _ _ _ _ afterAnchor => exact Nat.le_of_lt afterAnchor

/-- With a name the log holds the name of its block, which is not later. -/
theorem exists_block (annals : Annals pedigree anchor log tree) :
    ∀ {index : Nat} {ref : NodeRef}, log[index]? = some ref →
      pedigree.slot ref.root ≤ ref.slot ∧
        ∃ first : Nat, log[first]? = some ⟨ref.root, pedigree.slot ref.root⟩ := by
  intro index
  induction index using Nat.strongRecOn with
  | ind index ih =>
    intro ref found
    cases annals.origin index ref found with
    | anchor _ same =>
      subst same
      rw [← annals.anchorSlot]
      exact ⟨Nat.le_refl _, index, found⟩
    | slot earlier previous before there next =>
      obtain ⟨notLater, block⟩ := ih earlier before there
      simp only at notLater block
      exact ⟨by omega, block⟩
    | block earlier before there known afterAnchor =>
      rw [← known]
      exact ⟨Nat.le_refl _, index, found⟩

/-- The names of one root stand in the log in the order of their slots. -/
theorem index_le (annals : Annals pedigree anchor log tree) {root : Root} :
    ∀ {first second low high : Nat}, log[first]? = some ⟨root, low⟩ →
      log[second]? = some ⟨root, high⟩ → low ≤ high → first ≤ second := by
  intro first second low
  induction second using Nat.strongRecOn with
  | ind second ih =>
    intro high firstFound secondFound notLater
    rcases Nat.eq_or_lt_of_le notLater with same | earlier
    · exact Nat.le_of_eq (annals.distinct first second _ firstFound (same ▸ secondFound))
    · cases annals.origin second _ secondFound with
      | anchor _ same =>
        have := annals.anchor_slot_le firstFound
        rw [← same] at this
        exact absurd earlier (Nat.not_lt.2 this)
      | slot before previous isBefore there next =>
        simp only at next
        exact Nat.le_trans (ih before isBefore firstFound there (by omega)) (Nat.le_of_lt isBefore)
      | block _ _ _ known _ =>
        have := (annals.exists_block firstFound).1
        simp only at known this
        omega

theorem exists_index
    (annals : Annals pedigree anchor log tree) {position : Nat} {node : Node}
    (here : tree.nodes[position]? = some node) : ∃ index : Nat, log[index]? = some node.ref := by
  obtain ⟨cut, retained⟩ := annals.retained
  have read := congrArg (fun list => list[position]?) retained
  simp only [List.getElem?_map, here, Option.map_some, List.getElem?_drop] at read
  exact ⟨cut + position, read.symm⟩

theorem exists_node
    (annals : Annals pedigree anchor log tree) {position first second : Nat} {node : Node}
    {ref : NodeRef} (here : tree.nodes[position]? = some node)
    (firstFound : log[first]? = some node.ref) (secondFound : log[second]? = some ref)
    (behind : first ≤ second) :
    ∃ (other : Nat) (found : Node), tree.nodes[other]? = some found ∧ found.ref = ref := by
  obtain ⟨cut, retained⟩ := annals.retained
  have read := congrArg (fun list => list[position]?) retained
  simp only [List.getElem?_map, here, Option.map_some, List.getElem?_drop] at read
  have same := annals.distinct _ _ _ firstFound read.symm
  have there := congrArg (fun list => list[second - cut]?) retained
  simp only [List.getElem?_map, List.getElem?_drop] at there
  rw [show cut + (second - cut) = second by omega, secondFound] at there
  obtain ⟨found, foundHere, named⟩ := Option.map_eq_some_iff.1 there
  exact ⟨_, found, foundHere, named⟩

theorem ref_new
    (annals : Annals pedigree anchor log tree) {node : Node}
    (appendable : Appendable pedigree.Admits tree node) (index : Nat) :
    log[index]? ≠ some node.ref := by
  intro found
  cases appendable with
  | @slot position latest stamp here last =>
    obtain ⟨first, firstFound⟩ := annals.exists_index here
    have behind := annals.index_le firstFound found (Nat.le_succ _)
    obtain ⟨other, old, there, named⟩ := annals.exists_node here firstFound found behind
    have := last other old there (by rw [named]; rfl)
    rw [named] at this
    exact absurd this (Nat.not_succ_le_self _)
  | @block position earlier preState older root stamp here there sameRoot before fresh admitted =>
    obtain ⟨isParent, atSlot⟩ := admitted
    obtain ⟨olderIndex, olderFound⟩ := annals.exists_index there
    have afterAnchor := annals.anchor_slot_le olderFound
    cases annals.origin index _ found with
    | anchor _ same =>
      have atAnchor := congrArg NodeRef.slot same
      simp only [blockNode] at atAnchor
      omega
    | slot _ previous _ there next =>
      have := (annals.exists_block there).1
      simp only [blockNode] at this next
      omega
    | block parentIndex isBefore parentFound known _ =>
      -- the slot of the block under its parent comes after an older node that is retained
      have parentNamed : log[parentIndex]? = some preState.ref := by
        rw [parentFound]
        exact congrArg some (NodeRef.eq_mk isParent rfl).symm
      have olderNamed : log[olderIndex]? = some ⟨preState.ref.root, older.ref.slot⟩ := by
        rw [olderFound, ← sameRoot]
      have behind := annals.index_le olderNamed parentNamed (Nat.le_of_lt before)
      obtain ⟨other, old, oldHere, named⟩ :=
        annals.exists_node there olderFound found (by omega)
      exact fresh old (List.mem_of_getElem? oldHere) (by rw [named]; rfl)

theorem push
    (annals : Annals pedigree anchor log tree) {node : Node}
    (appendable : Appendable pedigree.Admits tree node) :
    Annals pedigree anchor (log ++ [node.ref]) (tree.push node) where
  anchorSlot := annals.anchorSlot
  distinct index other ref found otherFound := by
    have new := annals.ref_new appendable
    rcases getElem?_concat_eq_some_iff.1 found with old | ⟨rfl, rfl⟩ <;>
      rcases getElem?_concat_eq_some_iff.1 otherFound with otherOld | ⟨rfl, otherNew⟩
    · exact annals.distinct index other ref old otherOld
    · exact absurd (otherNew ▸ old) (new index)
    · exact absurd otherOld (new other)
    · rfl
  origin index ref found := by
    rcases getElem?_concat_eq_some_iff.1 found with old | ⟨rfl, rfl⟩
    · cases annals.origin index ref old with
      | anchor isFirst same => exact .anchor isFirst same
      | slot earlier previous before there next =>
        exact .slot earlier previous before (getElem?_concat_eq_some_iff.2 (.inl there)) next
      | block earlier before there known afterAnchor =>
        exact .block earlier before (getElem?_concat_eq_some_iff.2 (.inl there)) known afterAnchor
    · have inside : ∀ {place : Nat} {ref : NodeRef}, log[place]? = some ref → place < log.length :=
        fun there => (List.getElem?_eq_some_iff.1 there).1
      cases appendable with
      | @slot position latest stamp here last =>
        obtain ⟨place, there⟩ := annals.exists_index here
        exact .slot place latest.ref.slot (inside there)
          (getElem?_concat_eq_some_iff.2 (.inl there)) rfl
      | @block position earlier preState older root stamp here there sameRoot
        before fresh admitted =>
        obtain ⟨isParent, atSlot⟩ := admitted
        obtain ⟨place, placeFound⟩ := annals.exists_index here
        obtain ⟨olderPlace, olderFound⟩ := annals.exists_index there
        have afterAnchor := annals.anchor_slot_le olderFound
        have parentNamed : log[place]? = some ⟨pedigree.parent root, preState.ref.slot⟩ := by
          rw [placeFound, ← isParent]
        exact .block place (inside placeFound)
          (getElem?_concat_eq_some_iff.2 (.inl parentNamed)) atSlot
          (Nat.lt_of_le_of_lt afterAnchor before)
  retained := by
    obtain ⟨cut, retained⟩ := annals.retained
    rcases Nat.lt_or_ge log.length cut with beyond | within
    · have noNodes : tree.nodes = [] := by
        rw [List.drop_eq_nil_of_le (Nat.le_of_lt beyond)] at retained
        simpa using retained
      refine ⟨log.length, ?_⟩
      simp [noNodes]
    · exact ⟨cut, by simp [retained, List.drop_append_of_le_length within]⟩

theorem congr
    (annals : Annals pedigree anchor log tree) {other : BlockTree}
    (same : SameNodes other.nodes tree.nodes) : Annals pedigree anchor log other where
  anchorSlot := annals.anchorSlot
  distinct := annals.distinct
  origin := annals.origin
  retained := by
    rw [same.map_ref_eq]
    exact annals.retained

theorem dropOldest
    (annals : Annals pedigree anchor log tree) (count : Nat) :
    Annals pedigree anchor log (tree.dropOldest count) where
  anchorSlot := annals.anchorSlot
  distinct := annals.distinct
  origin := annals.origin
  retained := by
    obtain ⟨cut, retained⟩ := annals.retained
    have named : Node.ref ∘ shiftNode count = Node.ref := rfl
    refine ⟨cut + count, ?_⟩
    rw [nodes_dropOldest, List.map_map, named, List.map_drop, retained, List.drop_drop]

end Annals

theorem annals_ofAnchor
    {pedigree : Pedigree} {anchor : NodeRef} {parentRoot : Root} {stamp : Stamp}
    (anchorSlot : anchor.slot = pedigree.slot anchor.root) :
    Annals pedigree anchor [anchor] (.ofAnchor anchor parentRoot stamp) where
  anchorSlot := anchorSlot
  distinct index other ref found otherFound := by
    have := (List.getElem?_eq_some_iff.1 found).1
    have := (List.getElem?_eq_some_iff.1 otherFound).1
    simp only [List.length_singleton] at *
    omega
  origin index ref found := by
    obtain ⟨inside, named⟩ := List.getElem?_eq_some_iff.1 found
    simp only [List.length_singleton, Nat.lt_one_iff] at inside
    subst inside
    exact .anchor rfl named.symm
  retained := ⟨0, rfl⟩

namespace Chronicle

variable {pedigree : Pedigree} {anchor : NodeRef} {log : List NodeRef} {tree : BlockTree}

theorem ref_ne_zero
    (chronicle : Chronicle pedigree anchor log tree) :
    ∀ node ∈ tree.nodes, node.ref ≠ .zero := by
  intro node member isZero
  obtain ⟨position, here⟩ := List.mem_iff_getElem?.1 member
  obtain ⟨index, found⟩ := chronicle.exists_index here
  rw [isZero] at found
  cases chronicle.origin index _ found with
  | anchor _ same => exact chronicle.anchorNonzero same.symm
  | slot _ _ _ _ next => exact absurd next (Nat.succ_ne_zero _).symm
  | block _ _ _ _ afterAnchor => exact absurd afterAnchor (Nat.not_lt_zero _)

theorem push
    (chronicle : Chronicle pedigree anchor log tree) {node : Node}
    (appendable : Appendable pedigree.Admits tree node) :
    Chronicle pedigree anchor (log ++ [node.ref]) (tree.push node) :=
  { chronicle with toAnnals := chronicle.toAnnals.push appendable }

theorem congr
    (chronicle : Chronicle pedigree anchor log tree) {other : BlockTree}
    (same : SameNodes other.nodes tree.nodes) : Chronicle pedigree anchor log other :=
  { chronicle with toAnnals := chronicle.toAnnals.congr same }

theorem dropOldest
    (chronicle : Chronicle pedigree anchor log tree) (count : Nat) :
    Chronicle pedigree anchor log (tree.dropOldest count) :=
  { chronicle with toAnnals := chronicle.toAnnals.dropOldest count }

end Chronicle

theorem chronicle_ofAnchor
    {pedigree : Pedigree} {anchor : NodeRef} {parentRoot : Root} {stamp : Stamp}
    (anchorSlot : anchor.slot = pedigree.slot anchor.root) (nonzero : anchor ≠ .zero) :
    Chronicle pedigree anchor [anchor] (.ofAnchor anchor parentRoot stamp) :=
  { annals_ofAnchor anchorSlot with anchorNonzero := nonzero }

namespace Gone

variable {pedigree : Pedigree} {anchor : NodeRef} {log : List NodeRef} {tree : BlockTree}
  {ref : NodeRef}

/-- A name that is gone does not come back, and stays gone. -/
theorem push
    (gone : Gone log tree ref) (annals : Annals pedigree anchor log tree) {node : Node}
    (appendable : Appendable pedigree.Admits tree node) :
    Gone (log ++ [node.ref]) (tree.push node) ref where
  known := by
    obtain ⟨index, slot, found⟩ := gone.known
    exact ⟨index, slot, getElem?_concat_eq_some_iff.2 (.inl found)⟩
  later position other there ofRoot := by
    rcases getElem?_concat_eq_some_iff.1 there with old | ⟨_, rfl⟩
    · exact gone.later position other old ofRoot
    · have new := annals.ref_new appendable
      cases appendable with
      | @slot place latest stamp here last =>
        exact Nat.lt_succ_of_lt (gone.later place latest here ofRoot)
      | @block place earlier preState older root stamp here there sameRoot before fresh admitted =>
        obtain ⟨index, slot, found⟩ := gone.known
        obtain ⟨first, block⟩ := (annals.exists_block found).2
        have named : (blockNode root place preState stamp).ref =
            ⟨ref.root, pedigree.slot ref.root⟩ :=
          NodeRef.eq_mk ofRoot (admitted.2.trans (congrArg pedigree.slot ofRoot))
        exact absurd (named ▸ block) (new first)

theorem dropOldest (gone : Gone log tree ref) (count : Nat) :
    Gone log (tree.dropOldest count) ref where
  known := gone.known
  later position other there ofRoot := by
    obtain ⟨before, here, rfl⟩ := getElem?_dropOldest_eq_some_iff.1 there
    exact gone.later _ before here ofRoot

theorem congr
    (gone : Gone log tree ref) {other : BlockTree} (same : SameNodes other.nodes tree.nodes) :
    Gone log other ref where
  known := gone.known
  later position node there ofRoot := by
    obtain ⟨node', here, bare⟩ := same.getElem?_eq_some there
    have named := ((Node.bare_eq_iff _ _).1 bare).1
    rw [← named] at ofRoot ⊢
    exact gone.later position node' here ofRoot

theorem position?_eq_none (gone : Gone log tree ref) (indexed : Indexed tree) :
    tree.position? ref = none := by
  rw [indexed.position?_eq_none_iff]
  intro node member same
  obtain ⟨position, here⟩ := List.mem_iff_getElem?.1 member
  have := gone.later position node here (by rw [same])
  rw [same] at this
  exact Nat.lt_irrefl _ this

end Gone

/-- A node that is taken out takes its name with it for good. -/
theorem gone_of_dropOldest
    {pedigree : Pedigree} {anchor : NodeRef} {log : List NodeRef} {tree : BlockTree}
    (annals : Annals pedigree anchor log tree) (wellFormed : WellFormed tree)
    {position count : Nat} {node : Node} (here : tree.nodes[position]? = some node)
    (taken : position < count) : Gone log (tree.dropOldest count) node.ref where
  known := by
    obtain ⟨index, found⟩ := annals.exists_index here
    exact ⟨index, node.ref.slot, found⟩
  later place other there ofRoot := by
    obtain ⟨before, beforeHere, rfl⟩ := getElem?_dropOldest_eq_some_iff.1 there
    have order := wellFormed.slot_le_iff here beforeHere ofRoot
    have : ¬ before.ref.slot ≤ node.ref.slot := fun notLater => by
      have := order.1 notLater
      omega
    exact Nat.lt_of_not_le this

end BlockTree

end BeaconChain
