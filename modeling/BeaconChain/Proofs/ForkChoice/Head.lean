import BeaconChain.Proofs.BlockTree.Scores
import BeaconChain.Proofs.ForkChoice.Adopt

/-!
# Where heads are found

A head descends from the node below which it is looked for.  If that node is in the tree,
the search fails only for want of a viable node, or because a sum of weights has left its
range.
-/

namespace BeaconChain

open BlockTree

/-- An error met while votes were counted. -/
inductive Error.IsMiscount : Error → Prop
  | lengthMismatch (deltas nodes : Nat) : IsMiscount (.lengthMismatch deltas nodes)
  | deltaOverflow (node : NodeRef) : IsMiscount (.deltaOverflow node)

theorem Error.IsMiscount.ne_unknownAnchor
    {error : Error} (miscount : error.IsMiscount) (anchor : NodeRef) :
    error ≠ .unknownAnchor anchor := by
  cases miscount <;> nofun

/-- A cause for which checkpoints or a search are turned down before anything is counted. -/
inductive Error.IsObjection : Error → Prop
  | unknownAnchor (anchor : NodeRef) : IsObjection (.unknownAnchor anchor)
  | regressingCheckpoint (old new : Checkpoint) : IsObjection (.regressingCheckpoint old new)
  | outsideFinalized (checkpoint finalized : Checkpoint) :
    IsObjection (.checkpointNotInFinalizedSubtree checkpoint finalized)
  | outsidePinned (pin node : NodeRef) : IsObjection (.notInPinnedSubtree pin node)

theorem Error.IsObjection.ne_deltaOverflow
    {error : Error} (objection : error.IsObjection) (node : NodeRef) :
    error ≠ .deltaOverflow node := by
  cases objection <;> nofun

namespace Tally

theorem isMiscount_of_add
    {tally : Tally} {position : Nat} {node : NodeRef} {amount : Int} {error : Error}
    (failed : tally.add position node amount = .error error) : error.IsMiscount := by
  unfold add at failed
  dsimp only at failed
  split at failed
  · cases failed
  · cases failed
    exact .deltaOverflow node

theorem isMiscount_of_addTo
    {tally : Tally} {target : Option (NodeRef × Nat)} {amount : Int} {finish : Tally → Tally}
    {error : Error}
    (failed : (match target with
      | some (node, position) => do
        let tally ← tally.add position node amount
        return finish tally
      | none => do
        let tally ← Except.ok tally
        return finish tally) = .error error) : error.IsMiscount := by
  split at failed
  next =>
    rcases exists_of_bind_eq_error failed with added | ⟨_, _, done⟩
    · exact isMiscount_of_add added
    · cases done
  next => cases failed

theorem isMiscount_of_count
    {tree : BlockTree} {oldBalances newBalances : List Nat} {tally : Tally} {validator : Nat}
    {vote : Vote} {error : Error}
    (failed : count tree oldBalances newBalances tally validator vote = .error error) :
    error.IsMiscount := by
  unfold count at failed
  dsimp only at failed
  split at failed
  next => cases failed
  next =>
    split at failed
    next => cases failed
    next =>
      split at failed
      next =>
        rcases exists_of_bind_eq_error failed with removed | ⟨less, _, failed⟩
        · exact isMiscount_of_add removed
        · exact isMiscount_of_addTo failed
      next => exact isMiscount_of_addTo failed

theorem isMiscount_of_countFrom
    {tree : BlockTree} {oldBalances newBalances : List Nat} {error : Error} :
    ∀ {votes : List Vote} {validator : Nat} {tally : Tally},
      countFrom tree oldBalances newBalances validator votes tally = .error error →
      error.IsMiscount
  | [], _, _, failed => by cases failed
  | vote :: rest, validator, tally, failed => by
    rw [countFrom] at failed
    split at failed
    next counts =>
      cases failed
      exact isMiscount_of_count counts
    next => exact isMiscount_of_countFrom failed

end Tally

namespace ForkChoice

variable {preset : Preset} {choice next : ForkChoice preset} {error : Error}

theorem isMiscount_of_settle
    {balances : List Nat} {stamp : Stamp}
    (failed : choice.settle balances stamp = (.error error, next)) : error.IsMiscount := by
  unfold settle at failed
  split at failed
  next counts =>
    cases failed
    exact Tally.isMiscount_of_countFrom counts
  next tally _ =>
    split at failed
    next applied =>
      cases failed
      rcases (error_of_applyScores applied).2 with ⟨_, rfl⟩ | ⟨_, node, rfl⟩
      · exact .lengthMismatch _ _
      · exact .deltaOverflow node
    next => cases failed

theorem isMiscount_of_countVotes
    (failed : choice.countVotes = (.error error, next)) : error.IsMiscount := by
  unfold countVotes at failed
  split at failed
  · exact isMiscount_of_settle failed
  · cases failed

theorem isObjection_of_checkpointNode
    {checkpoint : Checkpoint} (failed : choice.checkpointNode checkpoint = .error error) :
    error.IsObjection := by
  unfold checkpointNode at failed
  dsimp only at failed
  split at failed
  · cases failed
  · cases failed
    exact .unknownAnchor _

theorem isObjection_of_checkPin
    {trigger : NodeRef} (failed : choice.checkPin trigger = .error error) : error.IsObjection := by
  unfold checkPin at failed
  split at failed
  · cases failed
  · split at failed
    · cases failed
    · cases failed
      exact .outsidePinned _ trigger

theorem isObjection_of_checkSuccessor
    {old new : Checkpoint} (failed : choice.checkSuccessor old new = .error error) :
    error.IsObjection := by
  unfold checkSuccessor at failed
  split at failed
  · cases failed
    exact .regressingCheckpoint old new
  · split at failed
    · cases failed
    · split at failed
      · cases failed
      · cases failed
        exact .outsideFinalized new choice.finalized

/-- What is decided before the votes are counted fails only with an objection. -/
theorem isObjection_of_advance?
    {trigger : NodeRef} {justified finalized : Checkpoint}
    (failed : choice.advance? trigger justified finalized = .error error) :
    error.IsObjection := by
  unfold advance? at failed
  split at failed
  · cases failed
  · rcases exists_of_bind_eq_error failed with unpinned | ⟨_, _, failed⟩
    · exact isObjection_of_checkPin unpinned
    rcases exists_of_bind_eq_error failed with notSuccessor | ⟨_, _, failed⟩
    · exact isObjection_of_checkSuccessor notSuccessor
    rcases exists_of_bind_eq_error failed with notSuccessor | ⟨_, _, failed⟩
    · exact isObjection_of_checkSuccessor notSuccessor
    dsimp only at failed
    split at failed
    · cases failed
    · rcases exists_of_bind_eq_error failed with unresolved | ⟨_, _, done⟩
      · exact isObjection_of_checkpointNode unresolved
      · cases done

/-- Below a node of a sound tree the search finds a node that descends from it, or none that
is viable. -/
theorem findHead_cases
    {tree : BlockTree} (sound : Sound tree) {anchor : NodeRef} {position : Nat}
    (present : tree.position? anchor = some position) :
    (∃ head below, (tree.findHead anchor).1 = .ok head ∧ tree.position? head = some below ∧
      tree.VoteDescends below position) ∨
    ∃ head justified finalized,
      (tree.findHead anchor).1 = .error (.noViableHead anchor head justified finalized) := by
  have same := sameShape_refresh tree
  have fresh := sound.refresh
  rw [← same.position?_eq] at present
  obtain ⟨node, here, rfl⟩ := (fresh.positions _ _).1 present
  obtain ⟨head, headHere, descends, _⟩ :=
    (fresh.linked (outdated_refresh tree)).head fresh.toWellFormed.arranged here (Nat.zero_le _)
  have headAt :
      (tree.refresh.position? node.ref).bind (headAt? tree.refresh.nodes) = some head := by
    simp [present, headAt?, here, headHere]
  by_cases viable : tree.refresh.stamp.admits head.stamp = true
  · refine .inl ⟨head.ref, node.headPosition position, ?_, ?_, ?_⟩
    · simp only [findHead, headAt, if_pos viable]
    · rw [← same.position?_eq]
      exact fresh.position?_ref headHere
    · rw [← same.voteDescends_eq]
      exact descends
  · refine .inr ⟨head.ref, tree.refresh.stamp.justified, tree.refresh.stamp.finalized, ?_⟩
    simp only [findHead, headAt, if_neg viable]

theorem Recounted.headAnchor_eq (recounted : Recounted choice next) :
    next.headAnchor = choice.headAnchor := by
  unfold headAnchor
  rw [recounted.pin, recounted.justified, recounted.checkpointNode_eq]

/-- Heads descend from the node below which they are looked for, if the tree contains it. -/
theorem head_cases_of_anchor
    (sound : Sound choice.tree) {anchor : NodeRef} {position : Nat}
    (isAnchor : choice.headAnchor = .ok anchor)
    (present : choice.tree.position? anchor = some position) :
    (∃ head below, choice.head.1 = .ok head ∧ choice.tree.position? head = some below ∧
      choice.tree.VoteDescends below position) ∨
    ∃ error, choice.head.1 = .error error ∧
      (error.IsMiscount ∨ ∃ head justified finalized,
        error = .noViableHead anchor head justified finalized) := by
  have recounted := choice.countVotes_recounted
  unfold head
  split
  next failed => exact .inr ⟨_, rfl, .inl (isMiscount_of_countVotes failed)⟩
  next counted counts =>
    rw [counts] at recounted
    rw [recounted.headAnchor_eq, isAnchor]
    rw [← recounted.shape.position?_eq] at present
    rcases findHead_cases (recounted.sound sound) present with
      ⟨head, below, found, headPresent, descends⟩ | ⟨head, justified, finalized, failed⟩
    · rw [recounted.shape.position?_eq] at headPresent
      rw [recounted.shape.voteDescends_eq] at descends
      exact .inl ⟨head, below, found, headPresent, descends⟩
    · exact .inr ⟨_, failed, .inr ⟨head, justified, finalized, rfl⟩⟩

/-- Without a pin heads descend from the node of the justified checkpoint. -/
theorem head_cases
    (sound : Sound choice.tree) (unpinned : choice.pin = none) {anchor : NodeRef} {position : Nat}
    (resolved : choice.checkpointNode choice.justified = .ok anchor)
    (present : choice.tree.position? anchor = some position) :
    (∃ head below, choice.head.1 = .ok head ∧ choice.tree.position? head = some below ∧
      choice.tree.VoteDescends below position) ∨
    ∃ error, choice.head.1 = .error error ∧
      (error.IsMiscount ∨ ∃ head justified finalized,
        error = .noViableHead anchor head justified finalized) := by
  refine head_cases_of_anchor sound ?_ present
  rw [headAnchor, unpinned]
  exact resolved

/-- No head is found below a node that the tree does not contain. -/
theorem head_of_missing_anchor
    {anchor : NodeRef} (isAnchor : choice.headAnchor = .ok anchor)
    (missing : choice.tree.position? anchor = none) :
    ∃ error, choice.head.1 = .error error ∧
      (error.IsMiscount ∨ error = .unknownAnchor anchor) := by
  have recounted := choice.countVotes_recounted
  unfold head
  split
  next failed => exact ⟨_, rfl, .inl (isMiscount_of_countVotes failed)⟩
  next counted counts =>
    rw [counts] at recounted
    rw [recounted.headAnchor_eq, isAnchor]
    have absent : counted.tree.refresh.position? anchor = none := by
      rw [(sameShape_refresh counted.tree).position?_eq, recounted.shape.position?_eq, missing]
    refine ⟨.unknownAnchor anchor, ?_, .inr rfl⟩
    simp only [findHead, absent, Option.bind_none]

end ForkChoice

end BeaconChain
