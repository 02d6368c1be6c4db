import BeaconChain.Proofs.BlockTree.Resolve
import BeaconChain.Proofs.BlockTree.Sound
import Mathlib.Order.Bounds.Basic

/-!
# What an insertion appends

Whether slots or a block can be inserted is read off the two ends of a span.  As the nodes of a root
run through consecutive slots, also in a tree that has lost its first nodes, the ends tell of all of
them: an insertion is refused only before the earliest slot of a root or behind no slot at all, and
appends just those nodes that are missing.
-/

namespace BeaconChain

namespace BlockTree

variable {tree : BlockTree} {root parentRoot : Root} {slot : Nat} {stamp : Stamp}

/-- The slots at which a root has nodes. -/
def slotsOf (tree : BlockTree) (root : Root) : Set Nat :=
  {slot | ∃ node ∈ tree.nodes, node.ref = ⟨root, slot⟩}

theorem contains_iff_mem_slotsOf (wellFormed : WellFormed tree) :
    tree.contains ⟨root, slot⟩ = true ↔ slot ∈ tree.slotsOf root := by
  constructor
  · intro contained
    obtain ⟨position, found⟩ := Option.isSome_iff_exists.1 contained
    obtain ⟨node, here, named⟩ := (wellFormed.positions _ _).1 found
    exact ⟨node, List.mem_of_getElem? here, named⟩
  · rintro ⟨node, member, named⟩
    obtain ⟨position, here⟩ := List.mem_iff_getElem?.1 member
    have found := named ▸ wellFormed.position?_ref here
    exact Option.isSome_iff_exists.2 ⟨position, found⟩

theorem slotsOf_eq_empty_iff (wellFormed : WellFormed tree) :
    tree.slotsOf root = ∅ ↔ tree.containsRoot root = false := by
  rw [wellFormed.containsRoot_eq_false_iff, Set.eq_empty_iff_forall_notMem]
  constructor
  · intro none node member same
    exact none node.ref.slot ⟨node, member, NodeRef.eq_mk same rfl⟩
  · rintro absent slot ⟨node, member, named⟩
    exact absent node member (by rw [named])

theorem earliestSlot?_of_unknown (unknown : tree.containsRoot root = false) :
    tree.earliestSlot? root = none := by
  have unspanned : tree.spans.find? root = none := by
    simpa [containsRoot, Table.contains] using unknown
  simp [earliestSlot?, unspanned]

/-- The two ends of the span of a root, and the slots in which they stand. -/
structure Ends (tree : BlockTree) (root : Root) (span : Span) (earliest latest : Nat) : Prop where
  spanned : tree.spans.find? root = some span
  earliestSlot : tree.earliestSlot? root = some earliest
  latestSlot : tree.latestSlot? root = some latest
  last : tree.position? ⟨root, latest⟩ = some span.last
  slots : tree.slotsOf root = Set.Icc earliest latest
  ordered : earliest ≤ latest

/-- The ends of a span tell of all nodes of the root. -/
theorem exists_ends (wellFormed : WellFormed tree) (known : tree.containsRoot root = true) :
    ∃ span earliest latest, Ends tree root span earliest latest := by
  obtain ⟨span, spanned⟩ := Option.isSome_iff_exists.1 known
  obtain ⟨first, firstHere, rfl⟩ := (wellFormed.spanOf _ _ spanned).first
  obtain ⟨last, lastHere, sameRoot⟩ := (wellFormed.spanOf _ _ spanned).last
  have isFirst := wellFormed.firstOfRoot_first spanned
  have between := wellFormed.exists_at_slot firstHere rfl isFirst
  refine ⟨span, first.ref.slot, last.ref.slot, spanned, ?_, ?_, ?_, ?_, ?_⟩
  · exact wellFormed.earliestSlot?_eq_some_iff.2 ⟨span.first, first, firstHere, rfl, isFirst⟩
  · exact WellFormed.latestSlot?_eq spanned lastHere
  · rw [← sameRoot]
    exact wellFormed.position?_ref lastHere
  · ext slot
    constructor
    · rintro ⟨node, member, named⟩
      obtain ⟨position, here⟩ := List.mem_iff_getElem?.1 member
      have ofRoot : node.ref.root = first.ref.root := by rw [named]
      have notBehind := ((wellFormed.spanOf _ _ spanned).within position node here ofRoot).2
      have notLater :=
        (wellFormed.slot_le_iff lastHere here (ofRoot.trans sameRoot.symm)).2 notBehind
      have notBefore := (between position node here ofRoot).1
      rw [named] at notBefore notLater
      exact ⟨notBefore, notLater⟩
    · rintro ⟨notBefore, notLater⟩
      obtain ⟨other, found, there, named, _⟩ :=
        (between span.last last lastHere sameRoot).2 slot notBefore notLater
      exact ⟨found, List.mem_of_getElem? there, named⟩
  · exact (between span.last last lastHere sameRoot).1

namespace Ends

variable {span : Span} {earliest latest : Nat}

theorem isLeast (ends : Ends tree root span earliest latest) :
    IsLeast (tree.slotsOf root) earliest := by
  rw [ends.slots]
  exact isLeast_Icc ends.ordered

theorem isGreatest (ends : Ends tree root span earliest latest) :
    IsGreatest (tree.slotsOf root) latest := by
  rw [ends.slots]
  exact isGreatest_Icc ends.ordered

theorem ne_empty (ends : Ends tree root span earliest latest) : tree.slotsOf root ≠ ∅ :=
  Set.nonempty_iff_ne_empty.1 ⟨earliest, ends.isLeast.1⟩

/-- What is asked of the earliest slot of a known root is asked of that end. -/
theorem refusal_iff (ends : Ends tree root span earliest latest) (refuses : Nat → Prop) :
    (tree.slotsOf root = ∅ ∨ ∃ first, IsLeast (tree.slotsOf root) first ∧ refuses first) ↔
      refuses earliest := by
  constructor
  · rintro (unknown | ⟨first, isLeast, refused⟩)
    · exact absurd unknown ends.ne_empty
    · rwa [isLeast.unique ends.isLeast] at refused
  · exact fun refused => .inr ⟨earliest, ends.isLeast, refused⟩

end Ends

/-- The nodes of `root` for the `count` slots after `latest`.  The first of them stands after the
node at `last`, and each of the others after the one before it, from position `size` on. -/
def missingSlots (root : Root) (stamp : Stamp) (last size latest count : Nat) : List Node :=
  (List.range count).map fun index =>
    slotNode root (latest + index + 1) (if index = 0 then last else size + index - 1) stamp

theorem missingSlots_succ (root : Root) (stamp : Stamp) (last size latest count : Nat) :
    missingSlots root stamp last size latest (count + 1) =
      slotNode root (latest + 1) last stamp ::
        missingSlots root stamp size (size + 1) (latest + 1) count := by
  simp only [missingSlots, List.range_succ_eq_map, List.map_cons, List.map_map, if_true]
  refine congrArg (_ :: ·) (List.map_congr_left fun index _ => ?_)
  have sameSlot : latest + (index + 1) + 1 = latest + 1 + index + 1 := by omega
  have samePosition : size + (index + 1) - 1 =
      if index = 0 then size else size + 1 + index - 1 := by
    split <;> omega
  rw [Function.comp_apply, sameSlot, if_neg (Nat.succ_ne_zero index), samePosition]

theorem nodes_appendSlots (root : Root) (stamp : Stamp) :
    ∀ (count : Nat) (tree : BlockTree) (last latest : Nat),
      (appendSlots root stamp count tree last latest).nodes =
        tree.nodes ++ missingSlots root stamp last tree.size latest count
  | 0, tree, _, _ => (List.append_nil tree.nodes).symm
  | count + 1, tree, last, latest => by
    have after := nodes_appendSlots root stamp count
      (tree.push (slotNode root (latest + 1) last stamp)) tree.size (latest + 1)
    have longer : (tree.push (slotNode root (latest + 1) last stamp)).size = tree.size + 1 := by
      simp [size]
    rw [longer, nodes_push, List.append_assoc] at after
    rw [missingSlots_succ]
    exact after

theorem slot_le_of_mem_missing
    {last size latest count : Nat} {node : Node}
    (member : node ∈ missingSlots root stamp last size latest count) :
    node.ref.slot ≤ latest + count := by
  obtain ⟨index, inside, rfl⟩ := List.mem_map.1 member
  rw [List.mem_range] at inside
  simp only [slotNode]
  omega

theorem exists_missing
    {last size latest count : Nat} (after : latest < slot) (notLater : slot ≤ latest + count) :
    ∃ node ∈ missingSlots root stamp last size latest count, node.ref = ⟨root, slot⟩ := by
  refine ⟨_, List.mem_map_of_mem (List.mem_range.2 (show slot - latest - 1 < count by omega)), ?_⟩
  exact NodeRef.eq_mk rfl (by simp only [slotNode]; omega)

theorem insertSlots_of_unknown
    (wellFormed : WellFormed tree) (unknown : tree.slotsOf root = ∅) :
    tree.insertSlots root slot stamp = (false, tree) := by
  have absent : ¬ tree.contains ⟨root, slot⟩ = true := by
    rw [contains_iff_mem_slotsOf wellFormed, unknown]
    exact Set.notMem_empty slot
  have unspanned : tree.spans.find? root = none := by
    rw [slotsOf_eq_empty_iff wellFormed] at unknown
    simpa [containsRoot, Table.contains] using unknown
  simp only [insertSlots, if_neg absent, unspanned]

theorem insertSlots_of_before
    (wellFormed : WellFormed tree) {span : Span} {earliest latest : Nat}
    (ends : Ends tree root span earliest latest) (before : slot < earliest) :
    tree.insertSlots root slot stamp = (false, tree) := by
  have ordered := ends.ordered
  have absent : ¬ tree.contains ⟨root, slot⟩ = true := by
    rw [contains_iff_mem_slotsOf wellFormed, ends.slots]
    exact fun between => Nat.not_le.2 before between.1
  have early : slot < latest := by omega
  simp only [insertSlots, if_neg absent, ends.spanned, ends.latestSlot, if_pos early]

/-- No slot from the earliest one on is refused, and those that are there are not missing. -/
theorem insertSlots_of_not_before
    (wellFormed : WellFormed tree) {span : Span} {earliest latest : Nat}
    (ends : Ends tree root span earliest latest) (notBefore : earliest ≤ slot) :
    ∃ next, tree.insertSlots root slot stamp = (true, next) ∧ next.nodes =
      tree.nodes ++ missingSlots root stamp span.last tree.size latest (slot - latest) := by
  have contained : tree.contains ⟨root, slot⟩ = true ↔ slot ≤ latest := by
    rw [contains_iff_mem_slotsOf wellFormed, ends.slots]
    exact ⟨fun between => between.2, fun notLater => ⟨notBefore, notLater⟩⟩
  by_cases notLater : slot ≤ latest
  · refine ⟨tree, if_pos (contained.2 notLater), ?_⟩
    rw [Nat.sub_eq_zero_of_le notLater]
    exact (List.append_nil tree.nodes).symm
  · have late : ¬ slot < latest := by omega
    refine ⟨{ appendSlots root stamp (slot - latest) tree span.last latest with outdated := true },
      ?_, nodes_appendSlots root stamp (slot - latest) tree span.last latest⟩
    simp only [insertSlots, if_neg (notLater ∘ contained.1), ends.spanned, ends.latestSlot,
      if_neg late]

/-- With the missing slots the slot that was asked for is there. -/
theorem Ends.exists_node
    {span : Span} {earliest latest last size : Nat} (ends : Ends tree root span earliest latest)
    (notBefore : earliest ≤ slot) :
    ∃ node ∈ tree.nodes ++ missingSlots root stamp last size latest (slot - latest),
      node.ref = ⟨root, slot⟩ := by
  by_cases notLater : slot ≤ latest
  · have there : slot ∈ tree.slotsOf root := by
      rw [ends.slots]
      exact ⟨notBefore, notLater⟩
    obtain ⟨node, member, named⟩ := there
    exact ⟨node, List.mem_append_left _ member, named⟩
  · obtain ⟨node, member, named⟩ := exists_missing (Nat.not_le.1 notLater)
      (show slot ≤ latest + (slot - latest) by omega)
    exact ⟨node, List.mem_append_right _ member, named⟩

theorem insertBlock_of_orphan
    (new : tree.containsRoot root = false) (unknown : tree.containsRoot parentRoot = false) :
    tree.insertBlock parentRoot root slot stamp = (false, tree) := by
  simp [insertBlock, new, earliestSlot?_of_unknown unknown]

theorem insertBlock_of_early
    {earliest : Nat} (new : tree.containsRoot root = false)
    (known : tree.earliestSlot? parentRoot = some earliest) (notAfter : slot ≤ earliest) :
    tree.insertBlock parentRoot root slot stamp = (false, tree) := by
  simp [insertBlock, new, known, Nat.not_lt.2 notAfter]

/-- A new block is appended behind the slots of its parent that were missing, the last of which it
fills, if there were any. -/
theorem insertBlock_of_after
    (wellFormed : WellFormed tree) (new : tree.containsRoot root = false) {span : Span}
    {earliest latest : Nat} (ends : Ends tree parentRoot span earliest latest)
    (after : earliest < slot) :
    ∃ next position preState, tree.insertBlock parentRoot root slot stamp = (true, next) ∧
      next.nodes = tree.nodes ++
        missingSlots parentRoot stamp span.last tree.size latest (slot - latest) ++
          [blockNode root position preState stamp] ∧
      next.nodes[position]? = some preState ∧ preState.ref = ⟨parentRoot, slot⟩ := by
  have growth := insertSlots_grows (fun _ _ _ => True) wellFormed parentRoot slot stamp
  obtain ⟨grown, inserted, longer⟩ :=
    insertSlots_of_not_before wellFormed ends (Nat.le_of_lt after)
  rw [inserted] at growth
  have filled : ∃ preState ∈ grown.nodes, preState.ref = ⟨parentRoot, slot⟩ :=
    longer ▸ ends.exists_node (Nat.le_of_lt after)
  obtain ⟨preState, member, named⟩ := filled
  obtain ⟨position, here⟩ := List.mem_iff_getElem?.1 member
  have located := (wellFormed.grow growth).locate?_eq_some_iff.2 ⟨here, named⟩
  refine ⟨{ grown.push (blockNode root position preState stamp) with outdated := true }, position,
    preState, ?_, ?_, ?_, named⟩
  · simp [insertBlock, new, ends.earliestSlot, after, inserted, located, blockNode, named]
  · rw [← longer]
    exact nodes_push grown _
  · exact getElem?_concat_eq_some_iff.2 (.inl here)

/-- All nodes of a tree stay as they are and where they are. -/
structure Kept (tree next : BlockTree) : Prop where
  nodes : tree.nodes <+: next.nodes
  positions : ∀ ref position, tree.position? ref = some position →
    next.position? ref = some position

theorem Kept.refl (tree : BlockTree) : Kept tree tree :=
  ⟨List.prefix_rfl, fun _ _ found => found⟩

theorem Grows.kept
    {admits : Root → Root → Nat → Prop} {grown : BlockTree} (wellFormed : WellFormed tree)
    (growth : Grows admits tree grown) : Kept tree grown where
  nodes := growth.nodes_prefix
  positions ref position found := by
    obtain ⟨node, here, rfl⟩ := (wellFormed.positions ref position).1 found
    obtain ⟨appended, longer⟩ := growth.nodes_prefix
    refine (wellFormed.grow growth).position?_ref ?_
    rw [← longer, List.getElem?_append_left (List.getElem?_eq_some_iff.1 here).1]
    exact here

/-! ## Exact outcomes -/

/-- The outcome of an insertion of empty slots. -/
structure SlotsInserted (tree : BlockTree) (root : Root) (slot : Nat) (stamp : Stamp)
    (done : Bool) (next : BlockTree) : Prop where
  refused_iff : done = false ↔
    tree.slotsOf root = ∅ ∨ ∃ earliest, IsLeast (tree.slotsOf root) earliest ∧ slot < earliest
  unchanged : done = false → next = tree
  /-- The nodes that were missing after the latest slot are appended, one for each slot. -/
  appended : done = true → ∃ latest last, IsGreatest (tree.slotsOf root) latest ∧
    tree.position? ⟨root, latest⟩ = some last ∧
      next.nodes = tree.nodes ++ missingSlots root stamp last tree.size latest (slot - latest)
  kept : Kept tree next

/-- The outcome of an insertion of a block. -/
structure BlockInserted (tree : BlockTree) (parentRoot root : Root) (slot : Nat) (stamp : Stamp)
    (done : Bool) (next : BlockTree) : Prop where
  present : tree.slotsOf root ≠ ∅ → done = true ∧ next = tree
  refused_iff : done = false ↔ tree.slotsOf root = ∅ ∧ (tree.slotsOf parentRoot = ∅ ∨
    ∃ earliest, IsLeast (tree.slotsOf parentRoot) earliest ∧ slot ≤ earliest)
  unchanged : done = false → next = tree
  /-- The slots of the parent that were missing are appended, and then the block. -/
  appended : done = true → tree.slotsOf root = ∅ → ∃ latest last position preState block,
    IsGreatest (tree.slotsOf parentRoot) latest ∧
      tree.position? ⟨parentRoot, latest⟩ = some last ∧
      next.nodes = tree.nodes ++
        missingSlots parentRoot stamp last tree.size latest (slot - latest) ++ [block] ∧
      next.nodes[position]? = some preState ∧ preState.ref = ⟨parentRoot, slot⟩ ∧
      block = blockNode root position preState stamp ∧ block.ref = ⟨root, slot⟩ ∧
      block.hasBlock = true
  kept : Kept tree next

theorem slotsInserted_of_refused
    (refused : tree.slotsOf root = ∅ ∨
      ∃ earliest, IsLeast (tree.slotsOf root) earliest ∧ slot < earliest) :
    SlotsInserted tree root slot stamp false tree where
  refused_iff := ⟨fun _ => refused, fun _ => rfl⟩
  unchanged _ := rfl
  appended := nofun
  kept := .refl tree

theorem slotsInserted_of_wellFormed
    (wellFormed : WellFormed tree) (root : Root) (slot : Nat) (stamp : Stamp) :
    SlotsInserted tree root slot stamp (tree.insertSlots root slot stamp).1
      (tree.insertSlots root slot stamp).2 := by
  cases known : tree.containsRoot root with
  | false =>
    have unknown := (slotsOf_eq_empty_iff wellFormed).2 known
    rw [insertSlots_of_unknown wellFormed unknown]
    exact slotsInserted_of_refused (.inl unknown)
  | true =>
    obtain ⟨span, earliest, latest, ends⟩ := exists_ends wellFormed known
    have refusal := ends.refusal_iff (slot < ·)
    rcases Nat.lt_or_ge slot earliest with before | notBefore
    · rw [insertSlots_of_before wellFormed ends before]
      exact slotsInserted_of_refused (refusal.2 before)
    · have growth := insertSlots_grows (fun _ _ _ => True) wellFormed root slot stamp
      obtain ⟨next, inserted, longer⟩ := insertSlots_of_not_before wellFormed ends notBefore
      rw [inserted] at growth ⊢
      exact {
        refused_iff := ⟨nofun, fun refused => absurd (refusal.1 refused) (Nat.not_lt.2 notBefore)⟩
        unchanged := nofun
        appended := fun _ => ⟨latest, span.last, ends.isGreatest, ends.last, longer⟩
        kept := growth.kept wellFormed }

theorem blockInserted_of_refused
    (fresh : tree.slotsOf root = ∅)
    (refused : tree.slotsOf parentRoot = ∅ ∨
      ∃ earliest, IsLeast (tree.slotsOf parentRoot) earliest ∧ slot ≤ earliest) :
    BlockInserted tree parentRoot root slot stamp false tree where
  present known := absurd fresh known
  refused_iff := ⟨fun _ => ⟨fresh, refused⟩, fun _ => rfl⟩
  unchanged _ := rfl
  appended := nofun
  kept := .refl tree

theorem blockInserted_of_wellFormed
    (wellFormed : WellFormed tree) (parentRoot root : Root) (slot : Nat) (stamp : Stamp) :
    BlockInserted tree parentRoot root slot stamp (tree.insertBlock parentRoot root slot stamp).1
      (tree.insertBlock parentRoot root slot stamp).2 := by
  cases new : tree.containsRoot root with
  | true =>
    have known : tree.slotsOf root ≠ ∅ := by
      rw [Ne, slotsOf_eq_empty_iff wellFormed, new]
      exact Bool.noConfusion
    rw [show tree.insertBlock parentRoot root slot stamp = (true, tree) from if_pos new]
    exact {
      present := fun _ => ⟨rfl, rfl⟩
      refused_iff := ⟨nofun, fun refused => absurd refused.1 known⟩
      unchanged := nofun
      appended := fun _ fresh => absurd fresh known
      kept := .refl tree }
  | false =>
    have fresh := (slotsOf_eq_empty_iff wellFormed).2 new
    cases known : tree.containsRoot parentRoot with
    | false =>
      rw [insertBlock_of_orphan new known]
      exact blockInserted_of_refused fresh (.inl ((slotsOf_eq_empty_iff wellFormed).2 known))
    | true =>
      obtain ⟨span, earliest, latest, ends⟩ := exists_ends wellFormed known
      have refusal := ends.refusal_iff (slot ≤ ·)
      rcases Nat.lt_or_ge earliest slot with after | notAfter
      · have growth : Grows (fun _ _ _ => True) tree
            (tree.insertBlock parentRoot root slot stamp).2 :=
          insertBlock_grows _ wellFormed stamp trivial
        obtain ⟨next, position, preState, inserted, longer, here, named⟩ :=
          insertBlock_of_after wellFormed new ends after
        have different : parentRoot ≠ root := by
          rintro rfl
          exact ends.ne_empty fresh
        rw [inserted] at growth ⊢
        exact {
          present := fun known => absurd fresh known
          refused_iff := ⟨nofun, fun refused =>
            absurd (refusal.1 refused.2) (Nat.not_le.2 after)⟩
          unchanged := nofun
          appended := fun _ _ => ⟨latest, span.last, position, preState,
            blockNode root position preState stamp, ends.isGreatest, ends.last, longer, here, named,
            rfl, by rw [blockNode, named], by simp [Node.hasBlock, blockNode, named, different]⟩
          kept := growth.kept wellFormed }
      · rw [insertBlock_of_early new ends.earliestSlot notAfter]
        exact blockInserted_of_refused fresh (refusal.2 notAfter)

/-- In every tree that can be reached, also one that has lost nodes, an insertion is refused only
for want of an earlier node, and otherwise appends the nodes that are missing and no others. -/
theorem insertions_exact (reached : Reachable tree) :
    (∀ root slot stamp, SlotsInserted tree root slot stamp (tree.insertSlots root slot stamp).1
      (tree.insertSlots root slot stamp).2) ∧
    ∀ parentRoot root slot stamp, BlockInserted tree parentRoot root slot stamp
      (tree.insertBlock parentRoot root slot stamp).1
      (tree.insertBlock parentRoot root slot stamp).2 := by
  have wellFormed := reached.sound.toWellFormed
  exact ⟨slotsInserted_of_wellFormed wellFormed, blockInserted_of_wellFormed wellFormed⟩

/-- A block with two empty slots after it, which has been taken out with its parent. -/
def beheadedTree : BlockTree :=
  ((((ofAnchor ⟨⟨1⟩, 0⟩ .zero {}).insertBlock ⟨1⟩ ⟨2⟩ 1 {}).2.insertSlots ⟨2⟩ 3 {}).2.prune ⟨⟨2⟩, 2⟩
    (fun _ _ count => (.ok (), count + 1)) 0).2.1

theorem insertions_exact_beheadedTree :
    beheadedTree.nodes.map Node.ref = [⟨⟨2⟩, 2⟩, ⟨⟨2⟩, 3⟩] ∧
      beheadedTree.insertSlots ⟨2⟩ 1 {} = (false, beheadedTree) ∧
      beheadedTree.insertBlock ⟨2⟩ ⟨3⟩ 2 {} = (false, beheadedTree) ∧
      (beheadedTree.insertBlock ⟨2⟩ ⟨3⟩ 5 {}).2.nodes.map
          (fun node => (node.ref, node.stateParent)) =
        [(⟨⟨2⟩, 2⟩, none), (⟨⟨2⟩, 3⟩, some 0), (⟨⟨2⟩, 4⟩, some 1), (⟨⟨2⟩, 5⟩, some 2),
          (⟨⟨3⟩, 5⟩, some 3)] := by
  have reached : Reachable beheadedTree :=
    .prune (.insertSlots (.insertBlock (.ofAnchor ⟨⟨1⟩, 0⟩ .zero {}) ⟨1⟩ ⟨2⟩ 1 {}) ⟨2⟩ 3 {})
      ⟨⟨2⟩, 2⟩ _ 0
  obtain ⟨slots, blocks⟩ := insertions_exact reached
  have slotsRefused : (beheadedTree.insertSlots ⟨2⟩ 1 {}).1 = false := by decide
  have blockRefused : (beheadedTree.insertBlock ⟨2⟩ ⟨3⟩ 2 {}).1 = false := by decide
  exact ⟨by decide, Prod.ext slotsRefused ((slots ⟨2⟩ 1 {}).unchanged slotsRefused),
    Prod.ext blockRefused ((blocks ⟨2⟩ ⟨3⟩ 2 {}).unchanged blockRefused), by decide⟩

end BlockTree

end BeaconChain
