import BeaconChain.Proofs.RecentChain.Outcome
import BeaconChain.Proofs.RecentChain.Rooted
import BeaconChain.Proofs.RecentChain.Whole

/-!
# The head of an unforked chain

Where every block is a child of the one before, and nobody votes, the head is the last block:
it is the only leaf that outranks its siblings.  The search starts at the node of the checkpoint
with which the chain started, which is the first one at or after the anchor.  If the first block
comes before the start of that epoch, the search starts at the empty slot beside the block, and
ends there.
-/

open Relation

namespace BeaconChain

open BlockTree

variable {State Block Context : Type} {rules : Rules State Block Context}
  {anchor entry : Entry State Context}

theorem Stamp.admits_self (stamp : Stamp) : stamp.admits stamp = true := by
  simp [Stamp.admits]

/-- Each block is a child of the one before it, and the first one a child of `root`. -/
def Line (rules : Rules State Block Context) : Root → List Block → Prop
  | _, [] => True
  | root, block :: rest => rules.blockParent block = root ∧ Line rules (rules.blockRoot block) rest

namespace Line

variable {root : Root} {first block : Block} {rest blocks : List Block}

/-- A block is the last one or has a child. -/
theorem last_or_exists_child
    (line : Line rules root blocks) (member : block ∈ blocks) :
    blocks.getLast? = some block ∨
      ∃ next ∈ blocks, rules.blockParent next = rules.blockRoot block := by
  induction blocks generalizing root with
  | nil => exact absurd member List.not_mem_nil
  | cons first rest ih =>
    obtain ⟨_, line⟩ := line
    rcases List.mem_cons.1 member with rfl | later
    · cases rest with
      | nil => exact .inl rfl
      | cons next rest => exact .inr ⟨next, by simp, line.1⟩
    · rcases ih line later with isLast | ⟨next, nextMember, onBlock⟩
      · left
        rw [List.getLast?_cons, isLast]
        rfl
      · exact .inr ⟨next, List.mem_cons_of_mem _ nextMember, onBlock⟩

/-- A block other than the first one has its parent in the line. -/
theorem exists_parent
    (line : Line rules root (first :: rest)) (member : block ∈ rest) :
    ∃ before ∈ first :: rest, rules.blockParent block = rules.blockRoot before := by
  induction rest generalizing root first with
  | nil => exact absurd member List.not_mem_nil
  | cons next rest ih =>
    obtain ⟨_, onFirst, line⟩ := line
    rcases List.mem_cons.1 member with rfl | later
    · exact ⟨first, List.mem_cons_self, onFirst⟩
    · have fromNext : Line rules (rules.blockRoot first) (next :: rest) := ⟨onFirst, line⟩
      obtain ⟨before, beforeMember, onBefore⟩ := ih fromNext later
      exact ⟨before, List.mem_cons_of_mem _ beforeMember, onBefore⟩

end Line

theorem Pool.eq_of_ref_eq
    {pool : Pool State Context} {other : Entry State Context}
    (found : pool.find? entry.ref = some entry) (foundOther : pool.find? other.ref = some other)
    (same : entry.ref = other.ref) : entry = other := by
  rw [same] at found
  exact Option.some.inj (found.symm.trans foundOther)

namespace RecentChain

variable {preset : Preset} {start chain : RecentChain preset rules} {blocks : List Block}
  {block : Block}

namespace Whole

section Children

variable {child parent below above : NodeRef} {position : Nat} {node : Node}

/-- A node is a child of the one before it under the root to which its entry links. -/
theorem isChild_iff
    (whole : Whole start anchor blocks chain) :
    Ghost.IsChild chain.choice.tree.sight? child parent ↔
      ∃ entry, chain.pool.find? child = some entry ∧ child ≠ anchor.ref ∧
        entry.linkRoot = parent.root ∧ child.slot = parent.slot + 1 := by
  have wellFormed := whole.stocked.sound.toWellFormed
  constructor
  · intro isChild
    obtain ⟨seen, sighted, up⟩ := Option.bind_eq_some_iff.1 isChild
    obtain ⟨position, node, here, rfl⟩ := exists_of_sight? wellFormed.toIndexed sighted
    rw [sight?_of_getElem? wellFormed.toIndexed here] at sighted
    obtain rfl := Option.some.inj sighted
    obtain ⟨upper, linked, rfl⟩ := Option.map_eq_some_iff.1 up
    obtain ⟨above, vote, upperHere⟩ := Option.bind_eq_some_iff.1 linked
    obtain ⟨found, foundHere, ofRoot, nextSlot⟩ := wellFormed.ref_of_voteParent here vote
    obtain rfl := Option.some.inj (upperHere.symm.trans foundHere)
    have notAnchor : node.ref ≠ anchor.ref := by
      intro isAnchor
      obtain rfl := whole.position_eq_zero here isAnchor
      have earlier := wellFormed.voteParentsFirst _ _ (parentAt_iff.2 ⟨node, here, vote⟩)
      omega
    obtain ⟨entry, known⟩ := whole.held node (List.mem_of_getElem? here)
    have matched := whole.matches_of_ne here notAnchor known
    exact ⟨entry, known, notAnchor, matched.parentRoot.symm.trans ofRoot.symm, nextSlot⟩
  · rintro ⟨entry, known, notAnchor, ofRoot, nextSlot⟩
    obtain ⟨position, node, here, rfl⟩ := whole.stocked.present _ _ known
    obtain ⟨⟨above, vote⟩, _⟩ := whole.exists_parents here notAnchor
    obtain ⟨upper, upperHere, upperRoot, upperSlot⟩ := wellFormed.ref_of_voteParent here vote
    have matched := whole.matches_of_ne here notAnchor known
    have named : upper.ref = parent :=
      NodeRef.eq_mk (upperRoot.trans (matched.parentRoot.trans ofRoot)) (by omega)
    simp [Ghost.IsChild, sight?_of_getElem? wellFormed.toIndexed here, sightOf, vote, upperHere,
      named]

theorem eq_or_slot_lt_of_descends
    (whole : Whole start anchor blocks chain)
    (descends : ReflTransGen (Ghost.IsChild chain.choice.tree.sight?) below above) :
    below = above ∨ above.slot < below.slot := by
  induction descends with
  | refl => exact .inl rfl
  | tail _ step ih =>
    obtain ⟨_, _, _, _, nextSlot⟩ := whole.isChild_iff.1 step
    right
    rcases ih with rfl | later
    · omega
    · omega

/-- On the way to a block every node of the parent has the next slot for a child. -/
theorem exists_next_child
    (whole : Whole start anchor blocks chain) {entry : Entry State Context}
    (found : chain.pool.find? entry.ref = some entry) (isApplied : block ∈ blocks)
    (onParent : rules.blockParent block = entry.blockRoot)
    (before : entry.slot < rules.blockSlot block) :
    Ghost.IsChild chain.choice.tree.sight? ⟨entry.blockRoot, entry.slot + 1⟩ entry.ref := by
  have wellFormed := whole.stocked.sound.toWellFormed
  obtain ⟨position, node, here, named⟩ := whole.stocked.present _ _ found
  have ofRoot : node.ref.root = entry.blockRoot := congrArg NodeRef.root named
  have atSlot : node.ref.slot = entry.slot := congrArg NodeRef.slot named
  have onNode : rules.blockParent block = node.ref.root := onParent.trans ofRoot.symm
  obtain ⟨place, next, there, isNext⟩ := whole.exists_between here isApplied onNode
    (Nat.le_succ node.ref.slot) (by omega)
  have nextRoot : next.ref.root = node.ref.root := by rw [isNext]
  have nextSlot : next.ref.slot = node.ref.slot + 1 := by rw [isNext]
  have notFirst : position < place := by
    have notBehind := (wellFormed.slot_le_iff here there nextRoot).not
    omega
  obtain ⟨above, upper, _, upperHere, upperRoot, upperSlot, _, _, vote⟩ :=
    wellFormed.slot_link_of_not_first there here nextRoot.symm notFirst
  have sameSlot : upper.ref.slot = node.ref.slot := by omega
  have isNode : upper.ref = node.ref := NodeRef.eq_mk (upperRoot.trans nextRoot) sameSlot
  rw [← ofRoot, ← atSlot, ← isNext, ← named]
  simp [Ghost.IsChild, sight?_of_getElem? wellFormed.toIndexed there, sightOf, vote, upperHere,
    isNode]

end Children

section Leaves

/-- The slot that a block fills has an entry of its own, without a block. -/
theorem exists_empty_beside
    (whole : Whole start anchor blocks chain) (isApplied : block ∈ blocks) :
    ∃ beside, chain.pool.find? beside.ref = some beside ∧ beside.parentRoot = none ∧
      beside.ref = ⟨rules.blockParent block, rules.blockSlot block⟩ := by
  obtain ⟨entry, found⟩ := whole.blockHeld block isApplied
  obtain ⟨_, beside, derived, empty, named⟩ := whole.distinct.exists_made_block
    (whole.derived _ _ found) isApplied (whole.stocked.named _ _ found)
  exact ⟨beside, whole.held_of_derived derived, empty, named⟩

theorem exists_entry_of_block
    (whole : Whole start anchor blocks chain) (isApplied : block ∈ blocks) :
    ∃ entry, chain.pool.find? entry.ref = some entry ∧
      entry.ref = ⟨rules.blockRoot block, rules.blockSlot block⟩ ∧
      entry.parentRoot = some (rules.blockParent block) := by
  obtain ⟨entry, found⟩ := whole.blockHeld block isApplied
  have named := whole.stocked.named _ _ found
  obtain ⟨parent, _⟩ := whole.distinct.exists_made_block (whole.derived _ _ found) isApplied named
  exact ⟨entry, named ▸ found, named, parent⟩

/-- A block stands after the block on which it is built. -/
theorem slot_lt_of_parent
    (whole : Whole start anchor blocks chain) (found : chain.pool.find? entry.ref = some entry)
    (hasBlock : entry.parentRoot ≠ none) (isApplied : block ∈ blocks)
    (onParent : rules.blockParent block = entry.blockRoot) :
    entry.slot < rules.blockSlot block := by
  obtain ⟨beside, besideFound, empty, named⟩ := whole.exists_empty_beside isApplied
  have derivedBeside := whole.derived _ _ besideFound
  have besideRoot : beside.blockRoot = entry.blockRoot :=
    (congrArg NodeRef.root named).trans onParent
  have besideSlot : beside.slot = rules.blockSlot block := congrArg NodeRef.slot named
  have notAfter : entry.slot ≤ beside.slot := by
    rcases ReflTransGen.cases_tail (whole.derived _ _ found) with isAnchor | ⟨_, _, made⟩
    · rw [isAnchor] at besideRoot ⊢
      exact whole.distinct.slot_le_of_anchorRoot derivedBeside besideRoot
    · cases made with
      | slot _ _ _ noBlock => exact absurd noBlock hasBlock
      | block parent parentApplied _ _ parentNamed =>
        have parentSlot : entry.slot = rules.blockSlot parent := congrArg NodeRef.slot parentNamed
        have parentRoot : entry.blockRoot = rules.blockRoot parent :=
          congrArg NodeRef.root parentNamed
        rw [parentSlot]
        exact whole.distinct.slot_le_of_blockRoot derivedBeside parentApplied
          (besideRoot.trans parentRoot)
  have apart : entry.slot ≠ beside.slot := by
    intro sameSlot
    have same : entry = beside :=
      Pool.eq_of_ref_eq found besideFound (NodeRef.eq_mk besideRoot.symm sameSlot)
    rw [same] at hasBlock
    exact hasBlock empty
  omega

/-- A leaf is the last block, or the empty slot beside a block. -/
theorem leaf_cases
    (whole : Whole start anchor blocks chain) (line : Line rules anchor.blockRoot blocks)
    (anchorBlock : anchor.parentRoot ≠ none) (found : chain.pool.find? entry.ref = some entry)
    (leaf : ∀ child, ¬ Ghost.IsChild chain.choice.tree.sight? child entry.ref) :
    blocks = [] ∧ entry = anchor ∨
    (∃ last, blocks.getLast? = some last ∧
      entry.ref = ⟨rules.blockRoot last, rules.blockSlot last⟩) ∨
    ∃ block ∈ blocks, entry.ref = ⟨rules.blockParent block, rules.blockSlot block⟩ ∧
      entry.parentRoot = none := by
  have childless : ∀ block ∈ blocks, rules.blockParent block = entry.blockRoot →
      rules.blockSlot block ≤ entry.slot := by
    intro block isApplied onParent
    by_contra! before
    exact leaf _ (whole.exists_next_child found isApplied onParent before)
  rcases ReflTransGen.cases_tail (whole.derived _ _ found) with isAnchor | ⟨_, _, made⟩
  · left
    refine ⟨?_, isAnchor⟩
    cases blocks with
    | nil => rfl
    | cons first rest =>
      have onAnchor : rules.blockParent first = entry.blockRoot := isAnchor ▸ line.1
      have after :=
        whole.slot_lt_of_parent found (isAnchor ▸ anchorBlock) List.mem_cons_self onAnchor
      have notAfter := childless first List.mem_cons_self onAnchor
      omega
  · right
    cases made with
    | slot onTheWay _ _ empty =>
      obtain ⟨block, isApplied, onParent, notBehind⟩ := onTheWay
      have notAfter := childless block isApplied onParent
      exact .inr ⟨block, isApplied,
        NodeRef.eq_mk onParent.symm (Nat.le_antisymm notBehind notAfter), empty⟩
    | block block isApplied _ _ named parent =>
      have ofBlock : entry.blockRoot = rules.blockRoot block := congrArg NodeRef.root named
      rcases line.last_or_exists_child isApplied with isLast | ⟨next, nextApplied, onBlock⟩
      · exact .inl ⟨block, isLast, named⟩
      · have onParent : rules.blockParent next = entry.blockRoot := onBlock.trans ofBlock.symm
        have after := whole.slot_lt_of_parent found (by simp [parent]) nextApplied onParent
        have notAfter := childless next nextApplied onParent
        omega

end Leaves

section Heads

variable {ref below head : NodeRef}

theorem score?_eq
    (whole : Whole start anchor blocks chain) {child : NodeRef} {childEntry : Entry State Context}
    (childFound : chain.pool.find? child = some childEntry)
    (found : chain.pool.find? ref = some entry) (notAnchor : ref ≠ anchor.ref) :
    Ghost.score? chain.choice.tree.sight? child ref =
      some ⟨0, entry.hasBlock, ref.slot, ref.root⟩ := by
  have indexed := whole.stocked.sound.toIndexed
  obtain ⟨_, childNode, childHere, rfl⟩ := whole.stocked.present _ _ childFound
  obtain ⟨_, node, here, rfl⟩ := whole.stocked.present _ _ found
  have matched := whole.matches_of_ne here notAnchor found
  simp [Ghost.score?, sight?_of_getElem? indexed childHere, sight?_of_getElem? indexed here,
    sightOf, matched.hasBlock, whole.weightless childNode (List.mem_of_getElem? childHere)]

theorem leads
    (whole : Whole start anchor blocks chain)
    (unvaried : ∀ node ∈ chain.choice.tree.nodes, node.stamp = chain.choice.tree.stamp)
    (found : chain.pool.find? ref = some entry) :
    Ghost.Leads chain.choice.tree.sight? chain.choice.tree.stamp ref := by
  obtain ⟨_, node, here, rfl⟩ := whole.stocked.present _ _ found
  refine ⟨node.ref, .refl, _, sight?_of_getElem? whole.stocked.sound.toIndexed here, ?_⟩
  rw [sightOf, unvaried node (List.mem_of_getElem? here)]
  exact Stamp.admits_self _

theorem exists_of_descends
    (whole : Whole start anchor blocks chain) {above : NodeRef}
    (found : chain.pool.find? above = some entry) (notAnchor : above ≠ anchor.ref)
    (descends : ReflTransGen (Ghost.IsChild chain.choice.tree.sight?) below above) :
    ∃ lower, chain.pool.find? below = some lower ∧ below ≠ anchor.ref := by
  rcases ReflTransGen.cases_head descends with rfl | ⟨_, step, _⟩
  · exact ⟨entry, found, notAnchor⟩
  · obtain ⟨lower, lowerFound, lowerNotAnchor, _⟩ := whole.isChild_iff.1 step
    exact ⟨lower, lowerFound, lowerNotAnchor⟩

/-- An empty slot beside a block is the head only where the search starts. -/
theorem head_ne_beside
    (whole : Whole start anchor blocks chain)
    (unvaried : ∀ node ∈ chain.choice.tree.nodes, node.stamp = chain.choice.tree.stamp)
    (isHead : Ghost.Head chain.choice.tree.sight? chain.choice.tree.stamp below entry.ref)
    (different : entry.ref ≠ below) (found : chain.pool.find? entry.ref = some entry)
    (isApplied : block ∈ blocks) (empty : entry.parentRoot = none) :
    entry.ref ≠ ⟨rules.blockParent block, rules.blockSlot block⟩ := by
  intro named
  have ofParent : entry.blockRoot = rules.blockParent block := congrArg NodeRef.root named
  have atSlot : entry.slot = rules.blockSlot block := congrArg NodeRef.slot named
  obtain ⟨parent, isChild, outranksAll⟩ := isHead.outranks_of_ne different
  obtain ⟨_, held, notAnchor, linked, nextSlot⟩ := whole.isChild_iff.1 isChild
  obtain rfl := Option.some.inj (found.symm.trans held)
  obtain ⟨rival, rivalFound, rivalNamed, rivalParent⟩ := whole.exists_entry_of_block isApplied
  have rivalNotAnchor := whole.distinct.blockRef_ne_anchor isApplied rivalNamed
  have rivalSlot : rival.slot = rules.blockSlot block := congrArg NodeRef.slot rivalNamed
  have notHead : rival.ref ≠ entry.ref := by
    intro same
    have isEntry := Pool.eq_of_ref_eq rivalFound found same
    rw [isEntry, empty] at rivalParent
    cases rivalParent
  have isRival : Ghost.IsChild chain.choice.tree.sight? rival.ref parent := by
    apply whole.isChild_iff.2
    refine ⟨rival, rivalFound, rivalNotAnchor, ?_, rivalSlot.trans (atSlot.symm.trans nextSlot)⟩
    rw [← linked, Entry.linkRoot, Entry.linkRoot, rivalParent, empty]
    exact ofParent.symm
  obtain ⟨top, isTop, score, topScore, known, topKnown, less⟩ :=
    outranksAll rival.ref isRival (whole.leads unvaried rivalFound) notHead
  rw [whole.score?_eq found found notAnchor] at known
  obtain rfl := Option.some.inj known
  -- either the head above the block is the block itself, or it stands in a later slot
  rcases whole.eq_or_slot_lt_of_descends isTop.descends with isItself | later
  · rw [isItself, whole.score?_eq rivalFound rivalFound rivalNotAnchor] at topKnown
    obtain rfl := Option.some.inj topKnown
    have rivalHasBlock : rival.hasBlock = true := by rw [Entry.hasBlock, rivalParent]; rfl
    have headEmpty : entry.hasBlock = false := by rw [Entry.hasBlock, empty]; rfl
    rw [Score.lt_iff, rivalHasBlock, headEmpty] at less
    simp at less
  · obtain ⟨topEntry, topFound, topNotAnchor⟩ :=
      whole.exists_of_descends rivalFound rivalNotAnchor isTop.descends
    rw [whole.score?_eq rivalFound topFound topNotAnchor] at topKnown
    obtain rfl := Option.some.inj topKnown
    have headEmpty : entry.hasBlock = false := by rw [Entry.hasBlock, empty]; rfl
    have sameSlot : rival.ref.slot = entry.ref.slot := rivalSlot.trans atSlot.symm
    rw [Score.lt_iff, headEmpty] at less
    simp only [Bool.toNat_false] at less
    omega

/-- The search ends where it starts, or at the last block. -/
theorem head_cases
    (whole : Whole start anchor blocks chain) (line : Line rules anchor.blockRoot blocks)
    (anchorBlock : anchor.parentRoot ≠ none)
    (unvaried : ∀ node ∈ chain.choice.tree.nodes, node.stamp = chain.choice.tree.stamp)
    (isHead : Ghost.Head chain.choice.tree.sight? chain.choice.tree.stamp below head)
    (found : chain.pool.find? head = some entry) :
    head = below ∨ blocks = [] ∧ head = anchor.ref ∨
      ∃ last, blocks.getLast? = some last ∧
        head = ⟨rules.blockRoot last, rules.blockSlot last⟩ := by
  obtain rfl := whole.stocked.named _ _ found
  have leaf : ∀ child, ¬ Ghost.IsChild chain.choice.tree.sight? child entry.ref := by
    intro child isChild
    obtain ⟨_, childFound, _⟩ := whole.isChild_iff.1 isChild
    exact isHead.noneLeads child isChild (whole.leads unvaried childFound)
  by_cases different : entry.ref = below
  · exact .inl different
  · right
    rcases whole.leaf_cases line anchorBlock found leaf with
      ⟨nothing, rfl⟩ | isLast | ⟨block, isApplied, named, empty⟩
    · exact .inl ⟨nothing, rfl⟩
    · exact .inr isLast
    · exact absurd named
        (whole.head_ne_beside unvaried isHead different found isApplied empty)

end Heads

/-! ## Where the search starts -/

section Search

variable {first : Block} {rest : List Block}

/-- Only the first block of a line is a child of the anchor. -/
theorem eq_first_of_onAnchor
    (whole : Whole start anchor (first :: rest) chain)
    (line : Line rules anchor.blockRoot (first :: rest)) (isApplied : block ∈ first :: rest)
    (onAnchor : rules.blockParent block = anchor.blockRoot) : block = first := by
  rcases List.mem_cons.1 isApplied with isFirst | later
  · exact isFirst
  · obtain ⟨before, beforeApplied, onBefore⟩ := line.exists_parent later
    exact absurd (onBefore.symm.trans onAnchor) (whole.distinct.notAnchor before beforeApplied)

/-- The slots of the anchor go on up to the first block. -/
theorem slot_le_of_anchorRoot
    (whole : Whole start anchor (first :: rest) chain)
    (line : Line rules anchor.blockRoot (first :: rest)) (anchorBlock : anchor.parentRoot ≠ none)
    (found : chain.pool.find? entry.ref = some entry)
    (ofAnchor : entry.blockRoot = anchor.blockRoot) : entry.slot ≤ rules.blockSlot first := by
  rcases ReflTransGen.cases_tail (whole.derived _ _ found) with isAnchor | ⟨_, _, made⟩
  · rw [isAnchor]
    exact Nat.le_of_lt
      (whole.slot_lt_of_parent whole.anchorHeld anchorBlock List.mem_cons_self line.1)
  · cases made with
    | slot onTheWay =>
      obtain ⟨block, isApplied, onParent, notBehind⟩ := onTheWay
      rwa [whole.eq_first_of_onAnchor line isApplied (onParent.trans ofAnchor)] at notBehind
    | block block isApplied _ _ named =>
      have ofBlock : entry.blockRoot = rules.blockRoot block := congrArg NodeRef.root named
      exact absurd (ofBlock.symm.trans ofAnchor) (whole.distinct.notAnchor block isApplied)

/-- The empty slot beside the first block is a leaf. -/
theorem not_isChild_of_beside_first
    (whole : Whole start anchor (first :: rest) chain)
    (line : Line rules anchor.blockRoot (first :: rest)) (anchorBlock : anchor.parentRoot ≠ none)
    (child : NodeRef) : ¬ Ghost.IsChild chain.choice.tree.sight? child
      ⟨anchor.blockRoot, rules.blockSlot first⟩ := by
  intro isChild
  obtain ⟨entry, found, notAnchor, linked, nextSlot⟩ := whole.isChild_iff.1 isChild
  obtain rfl := whole.stocked.named _ _ found
  have after : entry.slot = rules.blockSlot first + 1 := nextSlot
  rcases ReflTransGen.cases_tail (whole.derived _ _ found) with isAnchor | ⟨_, _, made⟩
  · exact notAnchor (congrArg Entry.ref isAnchor)
  · cases made with
    | slot _ _ _ empty =>
      rw [Entry.linkRoot, empty] at linked
      have notAfter := whole.slot_le_of_anchorRoot line anchorBlock found linked
      omega
    | block block isApplied _ _ named parent =>
      rw [Entry.linkRoot, parent] at linked
      have isFirst := whole.eq_first_of_onAnchor line isApplied linked
      have atSlot : entry.slot = rules.blockSlot block := congrArg NodeRef.slot named
      rw [isFirst] at atSlot
      omega

end Search

end Whole

/-- How a chain starts: with one checkpoint, at the first epoch that does not start before the
anchor. -/
structure StartsAt (anchor : Entry State Context) (start : RecentChain preset rules) : Prop where
  justified : start.choice.justified = ⟨anchorEpoch preset anchor.slot, anchor.blockRoot⟩
  stamp : start.choice.tree.stamp =
    ⟨anchorEpoch preset anchor.slot, anchorEpoch preset anchor.slot⟩
  nodeStamp : ∀ node, start.choice.tree.nodes[0]? = some node →
    node.stamp = start.choice.tree.stamp
  hasBlock : anchor.parentRoot ≠ none
  notAfter : anchor.slot ≤ greatestSlot

theorem startsAt_of_ofAnchor?
    {limits : Limits} {root parentRoot : Root} {anchorState : State}
    (started : ofAnchor? limits root parentRoot anchorState = .ok start)
    (isAnchor : start.earliest? = some anchor)
    (inRange : rules.stateSlot anchorState ≤ greatestSlot) :
    StartsAt anchor start := by
  obtain ⟨atSlot, hasBlock, rfl⟩ := eq_of_ofAnchor? started isAnchor
  refine ⟨rfl, rfl, fun node here => ?_, by simp [hasBlock], atSlot ▸ inRange⟩
  rw [← Option.some.inj here]
  rfl

/-- The states after the anchor carry the epochs with which the chain starts. -/
def KeepsEpochs (anchor : Entry State Context) (chain : RecentChain preset rules) : Prop :=
  ∀ ref entry, chain.pool.find? ref = some entry → entry ≠ anchor →
    (rules.justified entry.state).epoch = anchorEpoch preset anchor.slot ∧
      (rules.finalized entry.state).epoch = anchorEpoch preset anchor.slot

namespace Whole

theorem stamp_eq
    (whole : Whole start anchor blocks chain) (starts : StartsAt anchor start)
    (keepsEpochs : KeepsEpochs anchor chain) :
    ∀ node ∈ chain.choice.tree.nodes, node.stamp = chain.choice.tree.stamp := by
  intro node member
  obtain ⟨position, here⟩ := List.mem_iff_getElem?.1 member
  by_cases isAnchor : node.ref = anchor.ref
  · obtain rfl := whole.position_eq_zero here isAnchor
    rw [whole.stamp]
    exact starts.nodeStamp node (whole.first.symm.trans here)
  · obtain ⟨entry, found⟩ := whole.held node member
    have notAnchor : entry ≠ anchor := by
      intro same
      rw [same] at found
      exact isAnchor (whole.stocked.named _ _ found).symm
    obtain ⟨justified, finalized⟩ := keepsEpochs _ _ found notAnchor
    rw [(whole.matches_of_ne here isAnchor found).stamp, whole.stamp, starts.stamp, justified,
      finalized]

/-- The search starts at the latest node of the anchor that is not after the start of the first
epoch, and finds a head. -/
theorem exists_head
    (whole : Whole start anchor blocks chain) (starts : StartsAt anchor start)
    (unchanged : start.choice.ballots.changed = false) (unpinned : start.choice.pin = none)
    (unvaried : ∀ node ∈ chain.choice.tree.nodes, node.stamp = chain.choice.tree.stamp) :
    ∃ (position : Nat) (node : Node) (entry : Entry State Context),
      IsLatest chain.choice.tree.nodes
        ⟨anchor.blockRoot, preset.startSlot (anchorEpoch preset anchor.slot)⟩ position node ∧
      Ghost.Head chain.choice.tree.sight? chain.choice.tree.stamp node.ref entry.ref ∧
      chain.pool.find? entry.ref = some entry ∧ chain.head.1 = .ok entry := by
  have sound := whole.stocked.sound
  obtain ⟨anchorNode, anchorHere, anchorNamed⟩ := whole.anchorFirst
  have anchorRoot : anchorNode.ref.root = anchor.blockRoot := congrArg NodeRef.root anchorNamed
  have anchorSlot : anchorNode.ref.slot = anchor.slot := congrArg NodeRef.slot anchorNamed
  have notAfter := slot_le_startSlot_anchorEpoch preset starts.notAfter
  obtain ⟨position, node, latest⟩ : ∃ (position : Nat) (node : Node), IsLatest
      chain.choice.tree.nodes (ForkChoice.boundary preset start.choice.justified)
        position node := by
    apply sound.exists_isLatest anchorHere
    · rw [anchorRoot, ForkChoice.boundary, starts.justified]
    · rw [anchorSlot, ForkChoice.boundary, starts.justified]
      exact notAfter
  have resolved := ForkChoice.checkpointNode_of_isLatest sound.toWellFormed latest
  obtain ⟨nodeEntry, nodeFound⟩ := whole.held node (List.mem_of_getElem? latest.here)
  have present : chain.choice.tree.contains node.ref = true :=
    contains_iff.2 ⟨position, sound.position?_ref latest.here⟩
  obtain ⟨head, found, isHead⟩ :=
    findHead_of_leads sound present (whole.leads unvaried nodeFound)
  obtain ⟨entry, entryFound⟩ : ∃ entry, chain.pool.find? head = some entry := by
    rcases ReflTransGen.cases_head isHead.descends with rfl | ⟨_, step, _⟩
    · exact ⟨nodeEntry, nodeFound⟩
    · obtain ⟨entry, known, _⟩ := whole.isChild_iff.1 step
      exact ⟨entry, known⟩
  obtain rfl := whole.stocked.named _ _ entryFound
  rw [ForkChoice.boundary, starts.justified] at latest
  refine ⟨position, node, entry, latest, isHead, entryFound, ?_⟩
  rw [head_eq_bind, whole.head_eq unchanged unpinned, resolved]
  simp only [Except.bind, found, entryFound]

section Ends

variable {first last : Block} {rest : List Block} {below : NodeRef} {lowest : Entry State Context}

/-- A search that starts before the slot of the first block ends at the last one. -/
theorem byBlock?_of_head
    (whole : Whole start anchor (first :: rest) chain)
    (line : Line rules anchor.blockRoot (first :: rest)) (anchorBlock : anchor.parentRoot ≠ none)
    (unvaried : ∀ node ∈ chain.choice.tree.nodes, node.stamp = chain.choice.tree.stamp)
    (isHead : Ghost.Head chain.choice.tree.sight? chain.choice.tree.stamp lowest.ref entry.ref)
    (found : chain.pool.find? entry.ref = some entry)
    (lowestFound : chain.pool.find? lowest.ref = some lowest)
    (ofAnchor : lowest.blockRoot = anchor.blockRoot) (before : lowest.slot < rules.blockSlot first)
    (isLast : (first :: rest).getLast? = some last) :
    chain.byBlock? (rules.blockRoot last) = some entry := by
  have goesOn := whole.exists_next_child lowestFound List.mem_cons_self
    (line.1.trans ofAnchor.symm) before
  rcases whole.head_cases line anchorBlock unvaried isHead found with
    isLowest | ⟨nothing, _⟩ | ⟨other, isOther, named⟩
  · obtain ⟨_, childFound, _⟩ := whole.isChild_iff.1 goesOn
    rw [← isLowest] at goesOn
    exact absurd (whole.leads unvaried childFound) (isHead.noneLeads _ goesOn)
  · cases nothing
  · obtain rfl := Option.some.inj (isLast.symm.trans isOther)
    obtain ⟨block, blockFound, blockNamed, parent⟩ :=
      whole.exists_entry_of_block (List.mem_of_getLast? isLast)
    obtain rfl : entry = block := Pool.eq_of_ref_eq found blockFound (named.trans blockNamed.symm)
    have ofBlock : entry.blockRoot = rules.blockRoot last := congrArg NodeRef.root named
    rw [← ofBlock]
    apply byBlock?_of_find? whole.stocked found
    rw [Entry.hasBlock, parent]
    rfl

/-- A search that starts at the slot of the first block or later ends beside that block. -/
theorem byBlockSlot?_of_head
    (whole : Whole start anchor (first :: rest) chain)
    (line : Line rules anchor.blockRoot (first :: rest)) (anchorBlock : anchor.parentRoot ≠ none)
    (isHead : Ghost.Head chain.choice.tree.sight? chain.choice.tree.stamp lowest.ref entry.ref)
    (found : chain.pool.find? entry.ref = some entry)
    (lowestFound : chain.pool.find? lowest.ref = some lowest)
    (ofAnchor : lowest.blockRoot = anchor.blockRoot)
    (notBefore : rules.blockSlot first ≤ lowest.slot) :
    chain.byBlockSlot? anchor.blockRoot (rules.blockSlot first) = some entry ∧
      entry.hasBlock = false := by
  have notAfter := whole.slot_le_of_anchorRoot line anchorBlock lowestFound ofAnchor
  have isBeside : lowest.ref = ⟨anchor.blockRoot, rules.blockSlot first⟩ :=
    NodeRef.eq_mk ofAnchor (Nat.le_antisymm notAfter notBefore)
  have same : entry.ref = ⟨anchor.blockRoot, rules.blockSlot first⟩ := by
    rw [isBeside] at isHead
    rcases ReflTransGen.cases_tail isHead.descends with isHere | ⟨child, _, isChild⟩
    · exact isHere.symm
    · exact absurd isChild (whole.not_isChild_of_beside_first line anchorBlock child)
  obtain ⟨beside, besideFound, empty, named⟩ := whole.exists_empty_beside List.mem_cons_self
  rw [line.1] at named
  obtain rfl : entry = beside := Pool.eq_of_ref_eq found besideFound (same.trans named.symm)
  refine ⟨?_, by rw [Entry.hasBlock, empty]; rfl⟩
  rwa [byBlockSlot?, ← same]

end Ends

end Whole

/-- An epoch starts at its first slot. -/
theorem startSlot_anchorEpoch_le
    (preset : Preset) {slot : Nat} (isStart : preset.isEpochStart slot = true) :
    preset.startSlot (anchorEpoch preset slot) ≤ slot := by
  rw [anchorEpoch, if_pos isStart]
  exact Nat.le_trans (Nat.min_le_left _ _) (Nat.div_mul_le_self slot preset.slotsPerEpoch)

/-- The head of an unforked chain.  Without blocks it is the anchor.  If the anchor is the start
of an epoch, or the first block comes after the start of the epoch with which the chain starts,
it is the last block.  Otherwise it is the empty slot of the anchor beside the first block. -/
theorem head_of_line
    {limits : Limits} {root parentRoot : Root} {anchorState : State}
    (started : ofAnchor? limits root parentRoot anchorState = .ok start)
    (isAnchor : start.earliest? = some anchor)
    (inRange : rules.stateSlot anchorState ≤ greatestSlot)
    (received : Receives start blocks chain) (line : Line rules anchor.blockRoot blocks)
    (keepsEpochs : KeepsEpochs anchor chain) :
    (blocks = [] → chain.head.1 = .ok anchor) ∧
    ∀ first last, blocks.head? = some first → blocks.getLast? = some last →
      (preset.isEpochStart anchor.slot = true ∨
          preset.startSlot (anchorEpoch preset anchor.slot) < rules.blockSlot first →
        ∃ entry, chain.byBlock? (rules.blockRoot last) = some entry ∧ chain.head.1 = .ok entry) ∧
      (rules.blockSlot first ≤ preset.startSlot (anchorEpoch preset anchor.slot) →
        ∃ entry, chain.byBlockSlot? anchor.blockRoot (rules.blockSlot first) = some entry ∧
          entry.hasBlock = false ∧ chain.head.1 = .ok entry) := by
  have whole := received.whole (whole_start started isAnchor)
  have starts := startsAt_of_ofAnchor? started isAnchor inRange
  obtain ⟨unchanged, unpinned⟩ := unvoted_of_ofAnchor? started
  have unvaried := whole.stamp_eq starts keepsEpochs
  obtain ⟨position, node, entry, latest, isHead, found, answered⟩ :=
    whole.exists_head starts unchanged unpinned unvaried
  have ends := whole.head_cases line starts.hasBlock unvaried isHead found
  constructor
  · rintro rfl
    rw [answered]
    rcases ReflTransGen.cases_tail (whole.derived _ _ found) with rfl | ⟨_, _, made⟩
    · rfl
    · cases made with
      | slot onTheWay =>
        obtain ⟨_, member, _⟩ := onTheWay
        exact absurd member List.not_mem_nil
      | block _ member => exact absurd member List.not_mem_nil
  · intro first last isFirst isLast
    obtain ⟨rest, rfl⟩ : ∃ rest, blocks = first :: rest := List.head?_eq_some_iff.1 isFirst
    obtain ⟨lowest, lowestFound⟩ := whole.held node (List.mem_of_getElem? latest.here)
    have named : lowest.ref = node.ref := whole.stocked.named _ _ lowestFound
    have ofAnchor : lowest.blockRoot = anchor.blockRoot :=
      (congrArg NodeRef.root named).trans latest.ofRoot
    have atSlot : lowest.slot = node.ref.slot := congrArg NodeRef.slot named
    have notLater : lowest.slot ≤ preset.startSlot (anchorEpoch preset anchor.slot) :=
      atSlot ▸ latest.notLater
    rw [← named] at isHead lowestFound
    constructor
    · intro isLate
      have after :=
        whole.slot_lt_of_parent whole.anchorHeld starts.hasBlock List.mem_cons_self line.1
      have before : lowest.slot < rules.blockSlot first := by
        rcases isLate with isStart | later
        · have notBefore := startSlot_anchorEpoch_le preset isStart
          omega
        · exact Nat.lt_of_le_of_lt notLater later
      exact ⟨entry, whole.byBlock?_of_head line starts.hasBlock unvaried isHead found lowestFound
        ofAnchor before isLast, answered⟩
    · intro isEarly
      obtain ⟨place, filled, there, isFilled⟩ := whole.exists_filled List.mem_cons_self
      have filledSlot : filled.ref.slot = rules.blockSlot first := congrArg NodeRef.slot isFilled
      have notBefore : filled.ref.slot ≤ node.ref.slot :=
        latest.greatest place filled there ((congrArg NodeRef.root isFilled).trans line.1)
          (filledSlot ▸ isEarly)
      obtain ⟨beside, empty⟩ := whole.byBlockSlot?_of_head line starts.hasBlock isHead found
        lowestFound ofAnchor (by omega)
      exact ⟨entry, beside, empty, answered⟩

/-- An anchor in the middle of the first epoch. -/
def midEpochAnchor : ScriptedState :=
  { slot := 3, latest := ⟨10⟩, justified := ⟨1, ⟨10⟩⟩, finalized := ⟨1, ⟨10⟩⟩, balances := [32] }

def midEpochEntry : Entry ScriptedState Nat :=
  { slot := 3, blockRoot := ⟨10⟩, parentRoot := some ⟨9⟩, stateRoot := midEpochAnchor.root
    context := 1, state := midEpochAnchor }

def midEpochStart : RecentChain .minimal (Scripted.rules []) where
  limits := .minimal
  choice := .ofAnchor ⟨⟨10⟩, 3⟩ ⟨9⟩ ⟨1, ⟨10⟩⟩ ⟨1, ⟨10⟩⟩ [32]
  pool := ({ anchorSlot := 3 } : Pool ScriptedState Nat).insert midEpochEntry

def midEpochChain (blocks : List ScriptedBlock) : RecentChain .minimal (Scripted.rules []) :=
  blocks.foldl (fun chain block => (chain.addBlock block (fun _ => false) takeAtMost 0).2.1)
    midEpochStart

/-- The first block comes after the start of the next epoch. -/
def lateLine : List ScriptedBlock :=
  [{ slot := 9, root := ⟨11⟩, parentRoot := ⟨10⟩ },
   { slot := 11, root := ⟨12⟩, parentRoot := ⟨11⟩ }]

/-- The block comes before the start of the next epoch. -/
def earlyBlock : ScriptedBlock := { slot := 5, root := ⟨11⟩, parentRoot := ⟨10⟩ }

theorem keepsEpochs_of_values
    {chain : RecentChain preset rules} (same : ∀ entry ∈ chain.pool.byNode.values,
      (rules.justified entry.state).epoch = anchorEpoch preset anchor.slot ∧
        (rules.finalized entry.state).epoch = anchorEpoch preset anchor.slot) :
    KeepsEpochs anchor chain := by
  intro ref entry found _
  exact same entry (mem_values_of_find? found)

theorem head_of_line_lateLine :
    ∃ entry, (midEpochChain lateLine).byBlock? ⟨12⟩ = some entry ∧
      (midEpochChain lateLine).head.1 = .ok entry := by
  have started : ofAnchor? .minimal ⟨10⟩ ⟨9⟩ midEpochAnchor = .ok midEpochStart := rfl
  have isAnchor : midEpochStart.earliest? = some midEpochEntry := rfl
  have received : Receives midEpochStart lateLine (midEpochChain lateLine) :=
    Receives.concat (Receives.concat .start (by decide +kernel) (by decide +kernel))
      (by decide +kernel) (by decide +kernel)
  obtain ⟨_, onBlocks⟩ := head_of_line started isAnchor (by decide) received ⟨rfl, rfl, trivial⟩
    (keepsEpochs_of_values (by decide +kernel))
  obtain ⟨isLast, _⟩ := onBlocks lateLine[0] lateLine[1] rfl rfl
  exact isLast (.inr (by decide))

/-- The head is not the block, although nothing competes with it. -/
theorem head_beside_earlyBlock :
    ofAnchor? .minimal ⟨10⟩ ⟨9⟩ midEpochAnchor = .ok midEpochStart ∧
    Receives midEpochStart [earlyBlock] (midEpochChain [earlyBlock]) ∧
    Line (Scripted.rules []) midEpochEntry.blockRoot [earlyBlock] ∧
    (∀ entry ∈ (midEpochChain [earlyBlock]).pool.byNode.values,
      entry.state.justified.epoch = midEpochStart.choice.justified.epoch ∧
        entry.state.finalized.epoch = midEpochStart.choice.finalized.epoch) ∧
    ((midEpochChain [earlyBlock]).byBlock? ⟨11⟩).map Entry.ref = some ⟨⟨11⟩, 5⟩ ∧
    (midEpochChain [earlyBlock]).head.1.toOption.map Entry.ref = some ⟨⟨10⟩, 5⟩ :=
  ⟨rfl, Receives.concat .start (by decide +kernel) (by decide +kernel), ⟨rfl, trivial⟩,
    by decide +kernel, by decide +kernel, by decide +kernel⟩

end RecentChain

end BeaconChain
