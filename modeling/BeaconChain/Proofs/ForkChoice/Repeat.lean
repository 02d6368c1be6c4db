import BeaconChain.Proofs.Ballots
import BeaconChain.Proofs.BlockTree.Ghost
import BeaconChain.Proofs.ForkChoice.Stamp

/-!
# Asking for the head again

Once the votes have been counted, all of them are applied to the nodes for which they
count.  Counting them again moves no weight, so that the head stays the same until
something else changes.
-/

namespace BeaconChain

open BlockTree

section Settled

variable {preset : Preset} {tree other : BlockTree}

/-- A vote that is blank, or is applied to the node for which it counts. -/
def Vote.Settled (tree : BlockTree) (vote : Vote) : Prop :=
  vote = .blank ∨ vote.applied = nextNode tree vote

theorem Vote.Settled.congr
    {vote : Vote} (settled : vote.Settled tree) (same : SameShape other tree) :
    vote.Settled other := by
  unfold Vote.Settled nextNode
  rw [same.resolve?_eq]
  exact settled

theorem Tally.Counted.settled
    {vote counted : Vote} (counts : Tally.Counted tree vote counted) : counted.Settled tree := by
  by_cases blank : vote = .blank
  · exact .inl (counts.blank blank)
  · right
    rw [counts.applied blank, nextNode, nextNode, counts.latest]

theorem Ballots.settled_of_tally
    (wellFormed : WellFormed tree) {oldBalances newBalances : List Nat} {ballots : Ballots preset}
    {tally : Tally} (done : ballots.tally tree oldBalances newBalances = .ok tally) :
    ∀ vote ∈ (ballots.commit tally.moves).votes, vote.Settled tree := by
  have counted := Ballots.counted_of_tally wellFormed done
  generalize (ballots.commit tally.moves).votes = settled at counted
  generalize ballots.votes = votes at counted
  induction counted with
  | nil => simp
  | cons counts _ ih => exact List.forall_mem_cons.2 ⟨counts.settled, ih⟩

/-- Under the same balances settled votes add nothing. -/
theorem Tally.countFrom_of_settled {balances : List Nat} :
    ∀ {validator : Nat} {votes : List Vote} {tally : Tally},
      (∀ vote ∈ votes, vote.Settled tree) →
      ∃ counted, countFrom tree balances balances validator votes tally = .ok counted ∧
        counted.deltas = tally.deltas
  | _, [], tally, _ => ⟨tally, rfl, rfl⟩
  | validator, vote :: rest, tally, settled => by
    have others := fun vote member => settled vote (List.mem_cons_of_mem _ member)
    by_cases recorded : vote = .blank
    · have first : count tree balances balances tally validator vote = .ok tally := by
        simp [count, recorded]
      rw [countFrom, first]
      exact countFrom_of_settled others
    · have applied := (settled vote List.mem_cons_self).resolve_left recorded
      rw [countFrom, count_of_kept recorded ⟨applied, rfl⟩]
      obtain ⟨counted, counts, same⟩ := countFrom_of_settled others
      exact ⟨counted, counts, same⟩

end Settled

theorem BlockTree.addDeltas_replicate (size : Nat) :
    ∀ (count : Nat) (nodes : List Node), addDeltas count nodes (List.replicate size 0) = .ok nodes
  | 0, _ => rfl
  | count + 1, nodes => by
    have zero : (List.replicate size (0 : Int)).getD count 0 = 0 := by
      simp [List.getD, List.getElem?_replicate]
      split <;> rfl
    rw [addDeltas]
    dsimp only
    rw [zero]
    split
    next => exact addDeltas_replicate size count nodes
    next => exact addDeltas_replicate size count nodes

namespace ForkChoice

variable {preset : Preset} {choice counted next : ForkChoice preset}

/-- The second fork choice differs from the first in what is of no account for its head. -/
structure SameHead (choice next : ForkChoice preset) : Prop where
  sound : Sound next.tree
  shape : SameShape next.tree choice.tree
  weights : next.tree.nodes.map Node.weight = choice.tree.nodes.map Node.weight
  stamp : next.tree.stamp = choice.tree.stamp
  justified : next.justified = choice.justified
  pin : next.pin = choice.pin

theorem SameHead.headAnchor_eq (same : choice.SameHead next) :
    next.headAnchor = choice.headAnchor := by
  simp only [headAnchor, same.pin, same.justified, checkpointNode, same.shape.resolve?_eq]

theorem SameHead.findHead_eq
    (same : choice.SameHead next) (sound : Sound choice.tree) (anchor : NodeRef) :
    (next.tree.findHead anchor).1 = (choice.tree.findHead anchor).1 :=
  findHead_congr sound same.sound (same.shape.sight?_eq same.weights) same.stamp

theorem SameHead.trans
    (first : choice.SameHead counted) (second : counted.SameHead next) : choice.SameHead next where
  sound := second.sound
  shape := second.shape.trans first.shape
  weights := second.weights.trans first.weights
  stamp := second.stamp.trans first.stamp
  justified := second.justified.trans first.justified
  pin := second.pin.trans first.pin

/-- Votes that are settled can be counted again under the current stamp, to no effect. -/
theorem exists_settle_of_settled
    (sound : Sound choice.tree)
    (settled : ∀ vote ∈ choice.ballots.votes, vote.Settled choice.tree) :
    ∃ next, choice.settle choice.balances choice.tree.stamp = (.ok (), next) ∧
      choice.SameHead next := by
  obtain ⟨tally, tallied, deltas⟩ :
      ∃ tally, choice.ballots.tally choice.tree choice.balances choice.balances = .ok tally ∧
        tally.deltas = List.replicate choice.tree.size 0 :=
    Tally.countFrom_of_settled settled
  have applied : choice.tree.applyScores tally.deltas choice.tree.stamp =
      (.ok (), choice.tree.relink) := by
    simp only [applyScores, deltas, List.length_replicate, ne_eq, not_true_eq_false, if_false,
      addDeltas_replicate]
  refine ⟨{ choice with
    tree := choice.tree.relink, ballots := choice.ballots.commit tally.moves }, ?_, ?_⟩
  · simp only [settle, tallied, applied]
  · exact ⟨sound_relink sound.toWellFormed, sameShape_relink _, weights_relink _, rfl, rfl, rfl⟩

/-- Once votes were counted there is nothing more to be counted, or the votes are settled under
the current stamp. -/
theorem settled_of_countVotes
    (wellFormed : WellFormed choice.tree) (counts : choice.countVotes = (.ok (), counted)) :
    counted.ballots.changed = false ∨
      counted.tree.stamp = ⟨counted.justified.epoch, counted.finalized.epoch⟩ ∧
      ∀ vote ∈ counted.ballots.votes, vote.Settled counted.tree := by
  have recounted := choice.countVotes_recounted
  rw [counts] at recounted
  by_cases changed : choice.ballots.changed = true
  · right
    have stamp := stamp_countVotes changed counts
    rw [← recounted.justified, ← recounted.finalized] at stamp
    refine ⟨stamp, fun vote member => ?_⟩
    rw [countVotes, if_pos changed] at counts
    unfold settle at counts
    split at counts
    next => cases counts
    next tally tallied =>
      split at counts
      next => cases counts
      next =>
        cases counts
        exact (Ballots.settled_of_tally wellFormed tallied vote member).congr recounted.shape
  · left
    rw [countVotes, if_neg changed] at counts
    cases counts
    simpa using changed

/-- Where there is nothing to be counted, or all votes are settled, a count is of no account. -/
theorem exists_countVotes_of_settled
    (sound : Sound choice.tree)
    (settled : choice.ballots.changed = false ∨
      choice.tree.stamp = ⟨choice.justified.epoch, choice.finalized.epoch⟩ ∧
      ∀ vote ∈ choice.ballots.votes, vote.Settled choice.tree) :
    ∃ next, choice.countVotes = (.ok (), next) ∧ choice.SameHead next := by
  unfold countVotes
  split
  next changed =>
    obtain ⟨stamp, votes⟩ := settled.resolve_left (by simp [changed])
    rw [← stamp]
    exact exists_settle_of_settled sound votes
  next => exact ⟨choice, rfl, sound, .refl _, rfl, rfl, rfl, rfl⟩

/-- A head that has been found is found again. -/
theorem head_again
    (sound : Sound choice.tree) {ref : NodeRef} (found : choice.head = (.ok ref, next)) :
    next.head.1 = .ok ref := by
  have recounted := choice.countVotes_recounted
  unfold head at found
  split at found
  next => cases found
  next counted counts =>
    rw [counts] at recounted
    have countedSound := recounted.sound sound
    have settled := settled_of_countVotes sound.toWellFormed counts
    split at found
    next => cases found
    next anchor anchored =>
      have isHead := congrArg Prod.fst found
      have isNext := congrArg Prod.snd found
      simp only [findHead_tree] at isHead isNext
      subst isNext
      have same : counted.SameHead { counted with tree := counted.tree.refresh } :=
        ⟨countedSound.refresh, sameShape_refresh _, weights_refresh _, stamp_refresh _, rfl, rfl⟩
      obtain ⟨again, countsAgain, sameAgain⟩ := exists_countVotes_of_settled same.sound
        (settled.imp id fun ⟨stamp, votes⟩ =>
          ⟨same.stamp.trans stamp, fun vote member => (votes vote member).congr same.shape⟩)
      have whole := same.trans sameAgain
      rw [head, countsAgain]
      dsimp only
      rw [whole.headAnchor_eq, anchored]
      exact (whole.findHead_eq countedSound anchor).trans isHead

end ForkChoice

end BeaconChain
