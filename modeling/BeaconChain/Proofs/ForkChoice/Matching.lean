import BeaconChain.Proofs.BlockTree.Fresh
import BeaconChain.Proofs.ForkChoice.Voiced

/-!
# Fork choices that match

Two fork choices match if they have the same nodes, the same latest votes, balances and
checkpoints, whenever the votes were counted.  Whatever looks at weights or links counts all votes
first, so that every call answers the same on both, and leaves two that match again.
-/

namespace BeaconChain

open BlockTree

namespace ForkChoice

variable {preset : Preset} {choice other counted otherCounted next : ForkChoice preset}
  {pedigree : Pedigree}

/-- A fork choice in the middle of a run in which no receiver has refused a node. -/
structure Standing (pedigree : Pedigree) (choice : ForkChoice preset) : Prop where
  reached : Reached pedigree choice
  light : choice.balances.sum < weightLimit
  settled : choice.pending = none

namespace Standing

theorem sound (standing : Standing pedigree choice) : Sound choice.tree :=
  standing.reached.reachable.sound

theorem stamp_eq (standing : Standing pedigree choice) :
    choice.tree.stamp = ⟨choice.justified.epoch, choice.finalized.epoch⟩ := by
  have inStep := standing.reached.reachable.inStep
  have sameJustified := inStep.justified
  have sameFinalized := inStep.settled standing.settled
  cases stamp : choice.tree.stamp
  rw [stamp] at sameJustified sameFinalized
  rw [← sameJustified, ← sameFinalized]

end Standing

/-- Two fork choices with the same nodes, votes, balances and checkpoints, whose votes may have been
counted at different times. -/
structure Matches (choice other : ForkChoice preset) : Prop where
  shape : SameShape choice.tree other.tree
  heard : choice.ballots.votes.map Vote.heard = other.ballots.votes.map Vote.heard
  balances : choice.balances = other.balances
  justified : choice.justified = other.justified
  finalized : choice.finalized = other.finalized
  pending : choice.pending = other.pending
  pin : choice.pin = other.pin

namespace Matches

theorem refl (choice : ForkChoice preset) : Matches choice choice :=
  ⟨.refl _, rfl, rfl, rfl, rfl, rfl, rfl⟩

theorem symm (alike : Matches choice other) : Matches other choice :=
  ⟨alike.shape.symm, alike.heard.symm, alike.balances.symm, alike.justified.symm,
    alike.finalized.symm, alike.pending.symm, alike.pin.symm⟩

theorem trans (alike : Matches choice other) (rest : Matches other next) : Matches choice next :=
  ⟨alike.shape.trans rest.shape, alike.heard.trans rest.heard,
    alike.balances.trans rest.balances, alike.justified.trans rest.justified,
    alike.finalized.trans rest.finalized, alike.pending.trans rest.pending,
    alike.pin.trans rest.pin⟩

theorem of_recounted
    (recounted : Recounted choice next)
    (heard : next.ballots.votes.map Vote.heard = choice.ballots.votes.map Vote.heard)
    (balances : next.balances = choice.balances) : Matches next choice :=
  ⟨recounted.shape, heard, balances, recounted.justified, recounted.finalized, recounted.pending,
    recounted.pin⟩

theorem agrees
    (alike : Matches choice other) (standing : Standing pedigree choice)
    (otherStanding : Standing pedigree other) : Agrees choice other where
  tree := .of_sameShape standing.sound.toWellFormed alike.shape.symm
  stamp := by rw [standing.stamp_eq, otherStanding.stamp_eq, alike.justified, alike.finalized]
  heard := alike.heard
  balances := alike.balances
  justified := alike.justified
  finalized := alike.finalized
  pending := alike.pending
  pin := alike.pin

end Matches

/-- Counting votes changes nothing that has to match. -/
theorem countVotes_matches (choice : ForkChoice preset) : Matches choice.countVotes.2 choice := by
  refine .of_recounted choice.countVotes_recounted choice.heard_countVotes ?_
  rcases counts : choice.countVotes with ⟨outcome, counted⟩
  cases outcome with
  | ok => exact balances_countVotes counts
  | error error =>
    unfold countVotes at counts
    split at counts
    · rw [eq_of_settle_error counts]
    · cases counts

theorem head_matches (choice : ForkChoice preset) : Matches choice.head.2 choice := by
  obtain ⟨tree, sought⟩ := choice.exists_tree_head
  refine .of_recounted choice.head_recounted ?_ ?_
  · rw [sought]
    exact choice.heard_countVotes
  · rw [sought]
    exact (countVotes_matches choice).balances

/-- Where all votes are counted, the weights are those of the same votes, and so are the links
that are found from them. -/
theorem relink_eq_of_current
    {anchor otherAnchor : NodeRef} {log otherLog : List NodeRef}
    (accounts : Accounts pedigree anchor log choice)
    (otherAccounts : Accounts pedigree otherAnchor otherLog other)
    (current : Current choice.tree choice.ballots.votes)
    (otherCurrent : Current other.tree other.ballots.votes) (alike : Matches choice other)
    (stamp : choice.tree.stamp = other.tree.stamp) : choice.tree.relink = other.tree.relink := by
  have trimmed : Trimmed 0 choice.tree other.tree :=
    .of_sameShape accounts.wellFormed alike.shape.symm
  refine relink_congr alike.shape (List.ext_getElem? fun position => ?_) stamp
  rw [List.getElem?_map, List.getElem?_map]
  cases here : choice.tree.nodes[position]? with
  | none => rw [alike.shape.nodes.getElem?_eq_none here]
  | some node =>
    obtain ⟨found, there, _⟩ := alike.shape.nodes.getElem?_eq_some here
    have weight := (countsLatest_of_current accounts current).2 position node here
    have otherWeight := (countsLatest_of_current otherAccounts otherCurrent).2 position found there
    have sameSupport := support_of_heard trimmed alike.heard choice.balances position
    rw [latestSupport] at weight otherWeight
    rw [← alike.balances, sameSupport, ← weight] at otherWeight
    rw [there, Option.map_some, Option.map_some, otherWeight]

theorem relink_of_settle
    {balances : List Nat} {stamp : Stamp}
    (counts : choice.settle balances stamp = (.ok (), counted)) :
    counted.tree.relink = counted.tree := by
  unfold settle at counts
  split at counts
  next => cases counts
  next tally _ =>
    split at counts
    next => cases counts
    next tree applied =>
      cases counts
      unfold applyScores at applied
      split at applied
      next => cases applied
      next =>
        split at applied
        next => cases applied
        next =>
          cases applied
          exact relink_relink _

/-- Counting votes under the same balances makes equal trees of those that match. -/
theorem tree_eq_of_settle
    {anchor otherAnchor : NodeRef} {log otherLog : List NodeRef} {balances : List Nat}
    {stamp : Stamp} (accounts : Accounts pedigree anchor log choice)
    (otherAccounts : Accounts pedigree otherAnchor otherLog other) (alike : Matches choice other)
    (counts : choice.settle balances stamp = (.ok (), counted))
    (otherCounts : other.settle balances stamp = (.ok (), otherCounted)) :
    Matches counted otherCounted ∧ counted.tree = otherCounted.tree := by
  have recounted := choice.settle_recounted balances stamp
  have otherRecounted := other.settle_recounted balances stamp
  have heard := choice.heard_settle balances stamp
  have otherHeard := other.heard_settle balances stamp
  obtain ⟨countedAccounts, current⟩ := settle_accounts accounts balances stamp
  obtain ⟨otherCountedAccounts, otherCurrent⟩ := settle_accounts otherAccounts balances stamp
  rw [counts] at recounted heard countedAccounts current
  rw [otherCounts] at otherRecounted otherHeard otherCountedAccounts otherCurrent
  have countedAlike : Matches counted otherCounted := {
    shape := recounted.shape.trans (alike.shape.trans otherRecounted.shape.symm)
    heard := heard.trans (alike.heard.trans otherHeard.symm)
    balances := (balances_settle counts).trans (balances_settle otherCounts).symm
    justified := recounted.justified.trans (alike.justified.trans otherRecounted.justified.symm)
    finalized := recounted.finalized.trans (alike.finalized.trans otherRecounted.finalized.symm)
    pending := recounted.pending.trans (alike.pending.trans otherRecounted.pending.symm)
    pin := recounted.pin.trans (alike.pin.trans otherRecounted.pin.symm) }
  refine ⟨countedAlike, ?_⟩
  rw [← relink_of_settle counts, ← relink_of_settle otherCounts]
  exact relink_eq_of_current countedAccounts otherCountedAccounts (current rfl) (otherCurrent rfl)
    countedAlike ((stamp_settle counts).trans (stamp_settle otherCounts).symm)

theorem tree_head {found : NodeRef} (sound : Sound choice.tree) (done : choice.head.1 = .ok found) :
    choice.head.2.tree = choice.countVotes.2.tree.relink := by
  have counted := (choice.countVotes_recounted.sound sound).fresh
  unfold head at done ⊢
  split
  next failed =>
    rw [failed] at done
    cases done
  next counts =>
    rw [counts] at done counted
    split
    next noAnchor =>
      simp only [noAnchor] at done
      cases done
    next anchor _ =>
      change (BlockTree.findHead _ anchor).2 = _
      rw [findHead_tree, counted.refresh_eq, counts]

/-- Where a head is found, the trees of fork choices that match are equal afterwards. -/
theorem tree_eq_of_head
    {found : NodeRef} (alike : Matches choice other) (standing : Standing pedigree choice)
    (otherStanding : Standing pedigree other) (done : choice.head.1 = .ok found)
    (otherDone : other.head.1 = .ok found) : choice.head.2.tree = other.head.2.tree := by
  obtain ⟨anchor, log, accounts⟩ := standing.reached.accounts
  obtain ⟨otherAnchor, otherLog, otherAccounts⟩ := otherStanding.reached.accounts
  obtain ⟨counted, counts⟩ := exists_countVotes accounts standing.light
  obtain ⟨otherCounted, otherCounts⟩ := exists_countVotes otherAccounts otherStanding.light
  obtain ⟨countedAccounts, current⟩ := countVotes_accounts accounts
  obtain ⟨otherCountedAccounts, otherCurrent⟩ := countVotes_accounts otherAccounts
  have countedAlike : Matches choice.countVotes.2 other.countVotes.2 :=
    (countVotes_matches choice).trans (alike.trans (countVotes_matches other).symm)
  have sameStamp : choice.countVotes.2.tree.stamp = other.countVotes.2.tree.stamp := by
    have stamp := stamp_of_countVotes standing.stamp_eq counts
    have otherStamp := stamp_of_countVotes otherStanding.stamp_eq otherCounts
    rw [counts, otherCounts, stamp, otherStamp, alike.justified, alike.finalized]
  rw [tree_head standing.sound done, tree_head otherStanding.sound otherDone]
  exact relink_eq_of_current countedAccounts otherCountedAccounts (current (by rw [counts]))
    (otherCurrent (by rw [otherCounts])) countedAlike sameStamp

namespace Matches

theorem insertSlots
    (alike : Matches choice other) (root : Root) (slot : Nat) (justified finalized : Checkpoint) :
    (choice.insertSlots root slot justified finalized).1 =
        (other.insertSlots root slot justified finalized).1 ∧
      Matches (choice.insertSlots root slot justified finalized).2
        (other.insertSlots root slot justified finalized).2 := by
  obtain ⟨answer, shape⟩ :=
    alike.shape.insertSlots root slot ⟨justified.epoch, finalized.epoch⟩
  exact ⟨answer, { alike with shape := shape }⟩

theorem insertBlock
    (alike : Matches choice other) (parentRoot root : Root) (slot : Nat)
    (justified finalized : Checkpoint) :
    (choice.insertBlock parentRoot root slot justified finalized).1 =
        (other.insertBlock parentRoot root slot justified finalized).1 ∧
      Matches (choice.insertBlock parentRoot root slot justified finalized).2
        (other.insertBlock parentRoot root slot justified finalized).2 := by
  obtain ⟨answer, shape⟩ :=
    alike.shape.insertBlock parentRoot root slot ⟨justified.epoch, finalized.epoch⟩
  exact ⟨answer, { alike with shape := shape }⟩

theorem recordVote
    (alike : Matches choice other) (voiced : Voiced choice.ballots.votes)
    (otherVoiced : Voiced other.ballots.votes) (validator : Nat) (root : Root) (slot : Nat) :
    (choice.recordVote validator root slot).1 = (other.recordVote validator root slot).1 ∧
      Matches (choice.recordVote validator root slot).2
        (other.recordVote validator root slot).2 := by
  unfold ForkChoice.recordVote
  rw [alike.shape.earliestSlot?_eq]
  split
  · exact ⟨rfl, alike⟩
  · split
    · have heard := Ballots.heard_record alike.heard voiced otherVoiced validator root slot
      exact ⟨rfl, { alike with heard := heard }⟩
    · exact ⟨rfl, alike⟩

theorem setPin (alike : Matches choice other) (pin : NodeRef) :
    (choice.setPin pin).1 = (other.setPin pin).1 ∧
      Matches (choice.setPin pin).2 (other.setPin pin).2 := by
  unfold ForkChoice.setPin
  rw [alike.shape.contains_eq]
  split
  · exact ⟨rfl, { alike with pin := rfl }⟩
  · exact ⟨rfl, alike⟩

theorem clearPin (alike : Matches choice other) : Matches choice.clearPin other.clearPin :=
  { alike with pin := rfl }

theorem head
    (alike : Matches choice other) (standing : Standing pedigree choice)
    (otherStanding : Standing pedigree other) :
    choice.head.1 = other.head.1 ∧ Matches choice.head.2 other.head.2 := by
  obtain ⟨anchor, log, accounts⟩ := standing.reached.accounts
  obtain ⟨otherAnchor, otherLog, otherAccounts⟩ := otherStanding.reached.accounts
  exact ⟨(alike.agrees standing otherStanding).head_eq accounts otherAccounts standing.sound
      otherStanding.sound standing.light standing.stamp_eq,
    (head_matches choice).trans (alike.trans (head_matches other).symm)⟩

/-- What there is to be done does not depend on what has been counted. -/
theorem advance?_eq
    (alike : Matches choice other) (sound : Sound choice.tree) (otherSound : Sound other.tree)
    (trigger : NodeRef) (justified finalized : Checkpoint) :
    choice.advance? trigger justified finalized = other.advance? trigger justified finalized := by
  have relation := alike.shape.relation_eq sound otherSound
  have sameRoot : choice.finalizedRoot = other.finalizedRoot := by
    simp only [finalizedRoot, alike.finalized, alike.pending]
  have sameNode : choice.checkpointNode = other.checkpointNode := by
    funext checkpoint
    simp only [checkpointNode, alike.shape.resolve?_eq]
  simp only [advance?, checkPin, checkSuccessor, relation, sameRoot, sameNode, alike.justified,
    alike.finalized, alike.pin]

theorem finalizeAt
    {store : Type} (alike : Matches choice other) (sameTree : choice.tree = other.tree)
    (finalized : Checkpoint) (anchor : NodeRef) (receive : NodeReceiver store) (state : store) :
    (choice.finalizeAt finalized anchor receive state).1 =
        (other.finalizeAt finalized anchor receive state).1 ∧
      (choice.finalizeAt finalized anchor receive state).2.2 =
        (other.finalizeAt finalized anchor receive state).2.2 ∧
      Matches (choice.finalizeAt finalized anchor receive state).2.1
        (other.finalizeAt finalized anchor receive state).2.1 := by
  unfold ForkChoice.finalizeAt
  rw [sameTree]
  split
  · exact ⟨rfl, rfl, { alike with shape := .refl _, pending := rfl }⟩
  · exact ⟨rfl, rfl, { alike with shape := .refl _, finalized := rfl, pending := rfl, pin := rfl }⟩

/-- An adoption counts all votes before a receiver sees a node, so that the receiver sees the same
nodes with the same weights and links. -/
theorem adopt
    {store : Type} (alike : Matches choice other) (standing : Standing pedigree choice)
    (otherStanding : Standing pedigree other) (trigger : NodeRef)
    (justified finalized : Checkpoint) {balancesAt : Checkpoint → Except Error (List Nat)}
    (light : ∀ checkpoint balances, balancesAt checkpoint = .ok balances →
      balances.sum < weightLimit) (receive : NodeReceiver store) (state : store) :
    (choice.adopt trigger justified finalized balancesAt receive state).1 =
        (other.adopt trigger justified finalized balancesAt receive state).1 ∧
      (choice.adopt trigger justified finalized balancesAt receive state).2.2 =
        (other.adopt trigger justified finalized balancesAt receive state).2.2 ∧
      Matches (choice.adopt trigger justified finalized balancesAt receive state).2.1
        (other.adopt trigger justified finalized balancesAt receive state).2.1 := by
  obtain ⟨anchor, log, accounts⟩ := standing.reached.accounts
  obtain ⟨otherAnchor, otherLog, otherAccounts⟩ := otherStanding.reached.accounts
  have sameAdvance :=
    alike.advance?_eq standing.sound otherStanding.sound trigger justified finalized
  unfold ForkChoice.adopt
  rw [sameAdvance]
  cases other.advance? trigger justified finalized with
  | error error => exact ⟨rfl, rfl, alike⟩
  | ok plan =>
    cases plan with
    | none => exact ⟨rfl, rfl, alike⟩
    | some advance =>
      dsimp only
      cases known : balancesAt advance.justified with
      | error error => exact ⟨rfl, rfl, alike⟩
      | ok balances =>
        have newLight := light _ _ known
        obtain ⟨counted, counts⟩ := exists_settle accounts standing.light newLight
          ⟨advance.justified.epoch, advance.finalized.epoch⟩
        obtain ⟨otherCounted, otherCounts⟩ := exists_settle otherAccounts otherStanding.light
          newLight ⟨advance.justified.epoch, advance.finalized.epoch⟩
        obtain ⟨countedAlike, sameTree⟩ :=
          tree_eq_of_settle accounts otherAccounts alike counts otherCounts
        have justifiedAlike : Matches { counted with justified := advance.justified }
            { otherCounted with justified := advance.justified } :=
          { countedAlike with justified := rfl }
        dsimp only
        rw [counts, otherCounts]
        dsimp only
        cases advance.pruneAt with
        | none => exact ⟨rfl, rfl, justifiedAlike⟩
        | some anchor =>
          exact justifiedAlike.finalizeAt sameTree advance.finalized anchor receive state

end Matches

end ForkChoice

end BeaconChain
