import BeaconChain.Proofs.RecentChain.Whole

/-!
# The order of arrival

Two chains that start at the same anchor and receive the same blocks, in whatever order, hold
the same entries.  Their trees have the same nodes in different places, so that every question
asked by name has the same answer.
-/

namespace BeaconChain

open BlockTree

variable {preset : Preset} {State Block Context : Type} {rules : Rules State Block Context}
  {anchor entry : Entry State Context}

namespace ForkChoice

variable {choice other : ForkChoice preset}

theorem checkpointNode_of_reordered
    (reordered : Reordered choice.tree other.tree) (checkpoint : Checkpoint) :
    other.checkpointNode checkpoint = choice.checkpointNode checkpoint := by
  have same := reordered.resolve?_eq ⟨checkpoint.root, preset.startSlot checkpoint.epoch⟩
  unfold checkpointNode
  dsimp only
  cases found : choice.tree.resolve? ⟨checkpoint.root, preset.startSlot checkpoint.epoch⟩ <;>
    cases otherFound : other.tree.resolve? ⟨checkpoint.root, preset.startSlot checkpoint.epoch⟩ <;>
    simp_all

end ForkChoice

namespace RecentChain

variable {start chain other : RecentChain preset rules} {blocks others : List Block}

namespace Whole

theorem find?_eq
    (whole : Whole start anchor blocks chain) (otherWhole : Whole start anchor others other)
    (same : ∀ block, block ∈ blocks ↔ block ∈ others) (ref : NodeRef) :
    other.pool.find? ref = chain.pool.find? ref := by
  ext entry
  rw [whole.find?_eq_some_iff, otherWhole.find?_eq_some_iff]
  constructor
  · rintro ⟨derived, named⟩
    exact ⟨derived.mono fun block => (same block).2, named⟩
  · rintro ⟨derived, named⟩
    exact ⟨derived.mono fun block => (same block).1, named⟩

theorem exists_alike
    (whole : Whole start anchor blocks chain) (otherWhole : Whole start anchor others other)
    (sameEntries : ∀ ref, other.pool.find? ref = chain.pool.find? ref) :
    ∀ node ∈ chain.choice.tree.nodes, ∃ found ∈ other.choice.tree.nodes, Alike node found := by
  intro node member
  obtain ⟨position, here⟩ := List.mem_iff_getElem?.1 member
  by_cases isAnchor : node.ref = anchor.ref
  · obtain rfl := whole.position_eq_zero here isAnchor
    have there := otherWhole.first.trans (whole.first.symm.trans here)
    exact ⟨node, List.mem_of_getElem? there, rfl, rfl, rfl, rfl, rfl, rfl⟩
  · obtain ⟨entry, known⟩ := whole.held node member
    have otherKnown := (sameEntries node.ref).trans known
    obtain ⟨place, found, there, named⟩ := otherWhole.stocked.present _ _ otherKnown
    have foundMember := List.mem_of_getElem? there
    rw [← named] at isAnchor otherKnown
    have matched := whole.matches_of_ne here (named ▸ isAnchor) known
    have otherMatched := otherWhole.matches_of_ne there isAnchor otherKnown
    obtain ⟨⟨vote, hasVote⟩, state, hasState⟩ := whole.exists_parents here (named ▸ isAnchor)
    obtain ⟨⟨otherVote, otherHasVote⟩, otherState, otherHasState⟩ :=
      otherWhole.exists_parents there isAnchor
    refine ⟨found, foundMember, ?_⟩
    exact {
      ref := named.symm
      parentRoot := matched.parentRoot.trans otherMatched.parentRoot.symm
      stamp := matched.stamp.trans otherMatched.stamp.symm
      weight := (whole.weightless node member).trans
        (otherWhole.weightless found foundMember).symm
      stateParent := by rw [hasState, otherHasState]; rfl
      voteParent := by rw [hasVote, otherHasVote]; rfl }

theorem reordered
    (whole : Whole start anchor blocks chain) (otherWhole : Whole start anchor others other)
    (sameEntries : ∀ ref, other.pool.find? ref = chain.pool.find? ref) :
    Reordered chain.choice.tree other.choice.tree where
  wellFormed := whole.stocked.sound.toWellFormed
  otherWellFormed := otherWhole.stocked.sound.toWellFormed
  exists_alike := whole.exists_alike otherWhole sameEntries
  exists_alike_of_other := otherWhole.exists_alike whole fun ref => (sameEntries ref).symm

end Whole

/-- What the chain answers when it is asked for the canonical chain below a head. -/
def lineageOf (chain : RecentChain preset rules) (head : NodeRef) :
    Except Error (List (Entry State Context)) :=
  match chain.choice.tree.position? head with
  | none => .error (.fault .headNotInTree)
  | some position =>
    .ok ((chain.choice.tree.stateLineage position).filterMap
      fun ancestor => chain.pool.find? ancestor.2.ref)

theorem canonicalChain_eq_bind (chain : RecentChain preset rules) :
    chain.canonicalChain.1 = chain.choice.head.1.bind chain.lineageOf := by
  have same : SameShape chain.choice.head.2.tree chain.choice.tree :=
    (ForkChoice.head_recounted chain.choice).shape
  unfold canonicalChain headNode
  cases counted : chain.choice.head with
  | mk outcome choice =>
    rw [counted] at same
    cases outcome with
    | error error => rfl
    | ok node =>
      dsimp only [Except.bind, lineageOf] at same ⊢
      rw [same.position?_eq]
      cases chain.choice.tree.position? node with
      | none => rfl
      | some position => exact congrArg Except.ok (same.nodes.filterMap_stateLineage _ position)

section Answers

variable {ref : NodeRef} (reordered : Reordered chain.choice.tree other.choice.tree)
  (sameEntries : ∀ ref, other.pool.find? ref = chain.pool.find? ref)

include reordered sameEntries

theorem byBlock?_of_reordered (root : Root) : other.byBlock? root = chain.byBlock? root := by
  simp only [byBlock?, reordered.earliestSlot?_eq, sameEntries]

theorem closest?_of_reordered (root : Root) (slot : Nat) :
    other.closest? root slot = chain.closest? root slot := by
  have byName : ∀ chain : RecentChain preset rules, chain.closest? root slot =
      ((chain.choice.tree.resolve? ⟨root, slot⟩).map Prod.fst).bind chain.pool.find? := by
    intro chain
    unfold closest?
    cases chain.choice.tree.resolve? ⟨root, slot⟩ with
    | none => rfl
    | some found => rfl
  rw [byName, byName, reordered.resolve?_eq, funext sameEntries]

theorem lineageOf_of_reordered (head : NodeRef) : other.lineageOf head = chain.lineageOf head := by
  have known : other.choice.tree.sight? head = chain.choice.tree.sight? head :=
    congrFun reordered.sight?_eq head
  have wellFormed := reordered.wellFormed
  have otherWellFormed := reordered.otherWellFormed
  unfold lineageOf
  cases present : chain.choice.tree.position? head with
  | none =>
    have absent : other.choice.tree.position? head = none := by
      apply otherWellFormed.position?_eq_none_iff.2
      intro found member named
      obtain ⟨node, nodeMember, alike⟩ := reordered.exists_alike_of_other found member
      exact wellFormed.position?_eq_none_iff.1 present node nodeMember (alike.ref.symm.trans named)
    rw [absent]
  | some position =>
    obtain ⟨node, here, named⟩ := (wellFormed.positions head position).1 present
    obtain ⟨place, found, there, alike⟩ := reordered.exists_position here
    have otherPresent : other.choice.tree.position? head = some place :=
      (otherWellFormed.positions head place).2 ⟨found, there, alike.ref.symm.trans named⟩
    have sameNames := reordered.map_ref_stateLineage here there alike.ref
    have byName : ∀ lineage : List (Nat × Node),
        lineage.filterMap (fun ancestor => chain.pool.find? ancestor.2.ref) =
          (lineage.map fun ancestor => ancestor.2.ref).filterMap chain.pool.find? :=
      fun lineage => (List.filterMap_map ..).symm
    simp only [otherPresent, sameEntries]
    rw [byName, byName, sameNames]

end Answers

/-- The order in which blocks arrive does not matter.  Two chains that start at one anchor and
receive the same blocks, none of which brings later checkpoints, hold the same entries, and give
the same answers about the head, the canonical chain, blocks, closest entries and subtrees. -/
theorem answers_of_arrival_order
    {limits : Limits} {root parentRoot : Root} {anchorState : State}
    (started : ofAnchor? limits root parentRoot anchorState = .ok start)
    (received : Receives start blocks chain) (receivedToo : Receives start others other)
    (sameBlocks : blocks.Perm others) :
    (∀ ref, other.pool.find? ref = chain.pool.find? ref) ∧
    other.head.1 = chain.head.1 ∧
    other.canonicalChain.1 = chain.canonicalChain.1 ∧
    (∀ root, other.byBlock? root = chain.byBlock? root) ∧
    (∀ root slot, other.closest? root slot = chain.closest? root slot) ∧
    ∀ anchorRoot root, other.relation anchorRoot root = chain.relation anchorRoot root := by
  obtain ⟨anchor, isAnchor, _⟩ := ofAnchor?_goesOn (fun _ => True) started trivial
  obtain ⟨unchanged, unpinned⟩ := unvoted_of_ofAnchor? started
  have begins := whole_start started isAnchor
  have whole := received.whole begins
  have otherWhole := receivedToo.whole begins
  have sameEntries := whole.find?_eq otherWhole fun block => sameBlocks.mem_iff
  have reordered := whole.reordered otherWhole sameEntries
  have sound := whole.stocked.sound
  have otherSound := otherWhole.stocked.sound
  have sameHead : other.choice.head.1 = chain.choice.head.1 := by
    have sameFound : ∀ below, (other.choice.tree.findHead below).1 =
        (chain.choice.tree.findHead below).1 := fun below =>
      findHead_congr sound otherSound reordered.sight?_eq (otherWhole.stamp.trans whole.stamp.symm)
    rw [whole.head_eq unchanged unpinned, otherWhole.head_eq unchanged unpinned,
      ForkChoice.checkpointNode_of_reordered reordered]
    simp only [sameFound]
  refine ⟨sameEntries, ?_, ?_, byBlock?_of_reordered reordered sameEntries,
    closest?_of_reordered reordered sameEntries, reordered.relation_eq sound otherSound⟩
  · rw [head_eq_bind, head_eq_bind, sameHead]
    simp only [sameEntries]
  · rw [canonicalChain_eq_bind, canonicalChain_eq_bind, sameHead,
      funext (lineageOf_of_reordered reordered sameEntries)]

/-- The chain that receives blocks in the given order. -/
def receivedChain (order : List ScriptedBlock) : RecentChain .minimal (Scripted.rules []) :=
  order.foldl (fun chain block => (chain.addBlock block (fun _ => false) takeAtMost 0).2.1)
    trialStart.recent

/-- A branch of two blocks, and a block beside it that arrives last or first: it is now one of
the youngest nodes and now one of the oldest. -/
theorem answers_of_arrival_order_sweptBlocks :
    (receivedChain [sweptBlocks[0], sweptBlocks[1], sweptBlocks[2]]).choice.tree.position?
        ⟨⟨12⟩, 1⟩ = some 12 ∧
    (receivedChain [sweptBlocks[2], sweptBlocks[0], sweptBlocks[1]]).choice.tree.position?
        ⟨⟨12⟩, 1⟩ = some 2 ∧
    (receivedChain [sweptBlocks[2], sweptBlocks[0], sweptBlocks[1]]).head.1 =
      (receivedChain [sweptBlocks[0], sweptBlocks[1], sweptBlocks[2]]).head.1 := by
  have received : Receives trialStart.recent [sweptBlocks[0], sweptBlocks[1], sweptBlocks[2]]
      (receivedChain [sweptBlocks[0], sweptBlocks[1], sweptBlocks[2]]) :=
    Receives.concat (Receives.concat (Receives.concat .start (by decide +kernel)
      (by decide +kernel)) (by decide +kernel) (by decide +kernel)) (by decide +kernel)
      (by decide +kernel)
  have receivedToo : Receives trialStart.recent [sweptBlocks[2], sweptBlocks[0], sweptBlocks[1]]
      (receivedChain [sweptBlocks[2], sweptBlocks[0], sweptBlocks[1]]) :=
    Receives.concat (Receives.concat (Receives.concat .start (by decide +kernel)
      (by decide +kernel)) (by decide +kernel) (by decide +kernel)) (by decide +kernel)
      (by decide +kernel)
  have started : ofAnchor? .minimal ⟨10⟩ ⟨9⟩ trialAnchor = .ok trialStart.recent := rfl
  have rotated : ([sweptBlocks[0], sweptBlocks[1]] ++ [sweptBlocks[2]]).Perm
      ([sweptBlocks[2]] ++ [sweptBlocks[0], sweptBlocks[1]]) := List.perm_append_comm
  obtain ⟨_, sameHead, _⟩ := answers_of_arrival_order started received receivedToo rotated
  exact ⟨by decide +kernel, by decide +kernel, sameHead⟩

end RecentChain

end BeaconChain
