import BeaconChain.Proofs.BlockTree.Addressable
import BeaconChain.Proofs.ForkChoice.Alike
import BeaconChain.Proofs.RecentChain.Votes

/-!
# Passages of the tree

Whatever is called on a chain, its tree is one that operations of the tree lead to, and the slots
of all nodes that are inserted are at or before those of the blocks.  The ballots grow only by the
validators that vote.
-/

namespace BeaconChain

open BlockTree

namespace ForkChoice

variable {preset : Preset} {choice next : ForkChoice preset} {limit bound : Nat}

/-- Operations whose slots are below a limit lead from one tree to the other, and there are no
votes of validators beyond a bound but those that there have been. -/
structure Passes (limit bound : Nat) (choice next : ForkChoice preset) : Prop where
  tree : choice.tree.Passes limit next.tree
  votes : next.ballots.votes.length ≤ max choice.ballots.votes.length bound

namespace Passes

theorem refl (choice : ForkChoice preset) : Passes limit bound choice choice :=
  ⟨.refl, Nat.le_max_left _ _⟩

theorem trans {last : ForkChoice preset} (passes : Passes limit bound choice next)
    (rest : Passes limit bound next last) : Passes limit bound choice last where
  tree := passes.tree.trans rest.tree
  votes := by
    have first := passes.votes
    have second := rest.votes
    omega

/-- An operation of the tree leaves the votes as they are. -/
theorem of_tree {tree : BlockTree} (passes : choice.tree.Passes limit tree) :
    Passes limit bound choice { choice with tree := tree } :=
  ⟨passes, Nat.le_max_left _ _⟩

end Passes

theorem passes_insertSlots
    (choice : ForkChoice preset) (root : Root) {slot : Nat} (justified finalized : Checkpoint)
    (inRange : slot < limit) :
    Passes limit bound choice (choice.insertSlots root slot justified finalized).2 :=
  .of_tree (BlockTree.Passes.refl.insertSlots root _ inRange)

theorem passes_insertBlock
    (choice : ForkChoice preset) (parentRoot root : Root) {slot : Nat}
    (justified finalized : Checkpoint) (inRange : slot < limit) :
    Passes limit bound choice (choice.insertBlock parentRoot root slot justified finalized).2 :=
  .of_tree (BlockTree.Passes.refl.insertBlock parentRoot root _ inRange)

theorem passes_settle (choice : ForkChoice preset) (balances : List Nat) (stamp : Stamp) :
    Passes limit bound choice (choice.settle balances stamp).2 where
  tree := by
    unfold settle
    split
    next => exact .refl
    next tally _ =>
      have scored : choice.tree.Passes limit (choice.tree.applyScores tally.deltas stamp).2 :=
        BlockTree.Passes.refl.applyScores tally.deltas stamp
      split
      next => exact .refl
      next applied =>
        rw [applied] at scored
        exact scored
  votes := by
    have heard := congrArg List.length (choice.heard_settle balances stamp)
    rw [List.length_map, List.length_map] at heard
    rw [heard]
    exact Nat.le_max_left _ _

theorem passes_countVotes (choice : ForkChoice preset) :
    Passes limit bound choice choice.countVotes.2 := by
  unfold countVotes
  split
  · exact choice.passes_settle _ _
  · exact .refl choice

theorem passes_head (choice : ForkChoice preset) : Passes limit bound choice choice.head.2 := by
  have counted : Passes limit bound choice choice.countVotes.2 := choice.passes_countVotes
  unfold head
  split
  next failed =>
    rw [failed] at counted
    exact counted
  next counts =>
    rw [counts] at counted
    split
    · exact counted
    · exact counted.trans (.of_tree (BlockTree.Passes.refl.findHead _))

theorem passes_recordVote
    (choice : ForkChoice preset) {validator : Nat} (root : Root) (slot : Nat)
    (bounded : validator < bound) :
    Passes limit bound choice (choice.recordVote validator root slot).2 := by
  have longer : (choice.ballots.record validator root slot).votes.length ≤
      max choice.ballots.votes.length bound := by
    unfold Ballots.record
    dsimp only
    split
    · simp only [List.length_set, List.length_append, List.length_replicate]
      omega
    · simp only [List.length_append, List.length_replicate]
      omega
  unfold recordVote
  split
  next => exact .refl choice
  next =>
    split
    · exact ⟨.refl, longer⟩
    · exact .refl choice

theorem passes_finalizeAt
    {store : Type} (choice : ForkChoice preset) (finalized : Checkpoint) (anchor : NodeRef)
    (receive : NodeReceiver store) (state : store) :
    Passes limit bound choice (choice.finalizeAt finalized anchor receive state).2.1 := by
  have pruned : choice.tree.Passes limit (choice.tree.prune anchor receive state).2.1 :=
    BlockTree.Passes.refl.prune anchor receive state
  unfold finalizeAt
  split
  next refused =>
    rw [refused] at pruned
    exact ⟨pruned, Nat.le_max_left _ _⟩
  next accepted =>
    rw [accepted] at pruned
    exact ⟨pruned, Nat.le_max_left _ _⟩

theorem passes_adopt
    {store : Type} (choice : ForkChoice preset) (trigger : NodeRef)
    (justified finalized : Checkpoint) (balancesAt : Checkpoint → Except Error (List Nat))
    (receive : NodeReceiver store) (state : store) :
    Passes limit bound choice
      (choice.adopt trigger justified finalized balancesAt receive state).2.1 := by
  unfold adopt
  split
  next => exact .refl choice
  next => exact .refl choice
  next advance _ =>
    split
    next => exact .refl choice
    next balances _ =>
      have settled : Passes limit bound choice (choice.settle balances
        ⟨advance.justified.epoch, advance.finalized.epoch⟩).2 := choice.passes_settle _ _
      split
      next failed =>
        rw [failed] at settled
        exact settled
      next counted counts =>
        rw [counts] at settled
        dsimp only
        split
        next => exact ⟨settled.tree, settled.votes⟩
        next anchor _ =>
          have justified : Passes limit bound choice
              { counted with justified := advance.justified } :=
            ⟨settled.tree, settled.votes⟩
          exact justified.trans (passes_finalizeAt _ advance.finalized anchor receive state)

theorem passes_setPin (choice : ForkChoice preset) (pin : NodeRef) :
    Passes limit bound choice (choice.setPin pin).2 := by
  unfold setPin
  split
  · exact ⟨.refl, Nat.le_max_left _ _⟩
  · exact .refl choice

theorem stable_passes (limit bound : Nat) (start : ForkChoice preset) :
    Stable (· < limit) (fun _ _ slot => slot < limit) (· < bound) (Passes limit bound start) where
  insertSlots choice root _ justified finalized passes inRange :=
    passes.trans (choice.passes_insertSlots root justified finalized inRange)
  insertBlock choice parentRoot root _ justified finalized passes inRange :=
    passes.trans (choice.passes_insertBlock parentRoot root justified finalized inRange)
  recordVote choice _ root slot passes bounded :=
    passes.trans (choice.passes_recordVote root slot bounded)
  setPin choice pin passes := passes.trans (choice.passes_setPin pin)
  clearPin _ passes := passes.trans ⟨.refl, Nat.le_max_left _ _⟩
  head choice passes := passes.trans choice.passes_head
  adopt choice trigger justified finalized balancesAt receive state passes :=
    passes.trans (choice.passes_adopt trigger justified finalized balancesAt receive state)

end ForkChoice

namespace RecentChain

variable {preset : Preset} {State Block Context : Type} {rules : Rules State Block Context}
  {chain : RecentChain preset rules} {inRange : Nat → Prop}

/-- No entry of a draft is later than its block. -/
theorem slot_le_of_draft
    {block : Block} {interrupted : List Nat → Bool} {draft : Draft State Context}
    (stocked : Stocked rules inRange chain.choice.tree chain.pool)
    (drafted : chain.draft block interrupted = .ok draft) :
    (∀ entry ∈ draft.replayed, entry.slot ≤ rules.blockSlot block) ∧
      draft.block.slot = rules.blockSlot block := by
  obtain ⟨previous, last, isDraft⟩ := exists_drafted stocked drafted
  obtain ⟨position, latest, _, isLatest, known, _⟩ := preState_spec stocked isDraft.preState
  have sameSlot : previous.slot = latest.ref.slot :=
    congrArg NodeRef.slot (stocked.ref_eq isLatest.here known)
  have lastSlot := isDraft.last_slot (sameSlot ▸ isLatest.notLater)
  exact ⟨fun entry member => lastSlot ▸ isDraft.replayed.slot_le entry member,
    congrArg NodeRef.slot isDraft.ref⟩

end RecentChain

end BeaconChain
