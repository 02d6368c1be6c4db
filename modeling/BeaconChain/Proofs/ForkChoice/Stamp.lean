import BeaconChain.Proofs.BlockTree.Scores
import BeaconChain.Proofs.ForkChoice.Adopt

/-!
# The current stamp and the stored checkpoints

The stamp under which nodes are viable is set whenever votes are counted.  Its justified
epoch is always that of the justified checkpoint.  Its finalized epoch is set before the
nodes of a new finalized checkpoint are handed on, and the checkpoint is stored behind
that: where a receiver refuses a node, the stamp runs ahead of the stored checkpoint until
votes are counted again.
-/

namespace BeaconChain

open BlockTree

namespace BlockTree

theorem stamp_appendSlots (root : Root) (stamp : Stamp) :
    ∀ (count : Nat) (tree : BlockTree) (previous slot : Nat),
      (appendSlots root stamp count tree previous slot).stamp = tree.stamp
  | 0, _, _, _ => rfl
  | count + 1, tree, previous, slot => by
    rw [appendSlots, stamp_appendSlots root stamp count]
    exact stamp_push tree _

theorem stamp_insertSlots (tree : BlockTree) (root : Root) (slot : Nat) (stamp : Stamp) :
    (tree.insertSlots root slot stamp).2.stamp = tree.stamp := by
  unfold insertSlots
  split
  · rfl
  · split
    · split
      · rfl
      · exact stamp_appendSlots root stamp _ _ _ _
    · rfl

theorem stamp_insertBlock
    (tree : BlockTree) (parentRoot root : Root) (slot : Nat) (stamp : Stamp) :
    (tree.insertBlock parentRoot root slot stamp).2.stamp = tree.stamp := by
  have slots := stamp_insertSlots tree parentRoot slot stamp
  unfold insertBlock
  split
  · rfl
  · split
    · rfl
    · split
      · generalize tree.insertSlots parentRoot slot stamp = result at slots ⊢
        obtain ⟨inserted, grown⟩ := result
        cases inserted with
        | false => exact slots
        | true =>
          dsimp only
          split
          · exact slots
          · exact slots
      · rfl

theorem stamp_prune
    {store : Type} (tree : BlockTree) (anchor : NodeRef) (receive : NodeReceiver store)
    (state : store) : (tree.prune anchor receive state).2.1.stamp = tree.stamp := by
  obtain ⟨count, pruned⟩ := prune_tree tree anchor receive state
  rw [pruned, stamp_dropOldest, stamp_refresh]

end BlockTree

namespace ForkChoice

variable {preset : Preset} {choice next : ForkChoice preset}

/-- The stamp has the epochs of the stored checkpoints, but for a finalized checkpoint that
is pending: that one is newer than the stored one, and the stamp may have its epoch. -/
structure InStep (choice : ForkChoice preset) : Prop where
  justified : choice.tree.stamp.justified = choice.justified.epoch
  settled : choice.pending = none → choice.tree.stamp.finalized = choice.finalized.epoch
  pending : ∀ checkpoint, choice.pending = some checkpoint →
    choice.finalized.epoch < checkpoint.epoch ∧
      (choice.tree.stamp.finalized = choice.finalized.epoch ∨
        choice.tree.stamp.finalized = checkpoint.epoch)

/-- A stamp that has both epochs is in step, if what is pending is newer. -/
theorem InStep.of_stamp_eq
    (stamp : choice.tree.stamp = ⟨choice.justified.epoch, choice.finalized.epoch⟩)
    (newer : ∀ checkpoint, choice.pending = some checkpoint →
      choice.finalized.epoch < checkpoint.epoch) : choice.InStep where
  justified := by rw [stamp]
  settled _ := by rw [stamp]
  pending checkpoint waits := ⟨newer checkpoint waits, .inl (by rw [stamp])⟩

/-- Whatever leaves the stamp, the checkpoints and what is pending as they are leaves the
epochs in step. -/
theorem InStep.congr
    (inStep : choice.InStep) (stamp : next.tree.stamp = choice.tree.stamp)
    (justified : next.justified = choice.justified)
    (finalized : next.finalized = choice.finalized) (pending : next.pending = choice.pending) :
    next.InStep where
  justified := by
    rw [stamp, justified]
    exact inStep.justified
  settled := by
    rw [stamp, finalized, pending]
    exact inStep.settled
  pending := by
    rw [stamp, finalized, pending]
    exact inStep.pending

theorem InStep.newer (inStep : choice.InStep) :
    ∀ checkpoint, choice.pending = some checkpoint → choice.finalized.epoch < checkpoint.epoch :=
  fun checkpoint waits => (inStep.pending checkpoint waits).1

theorem stamp_settle
    {balances : List Nat} {stamp : Stamp}
    (settled : choice.settle balances stamp = (.ok (), next)) : next.tree.stamp = stamp := by
  unfold settle at settled
  split at settled
  · cases settled
  · split at settled
    · cases settled
    next applied =>
      cases settled
      exact stamp_applyScores applied

/-- Votes that are counted for the head bring the stamp back to the stored checkpoints. -/
theorem stamp_countVotes
    (changed : choice.ballots.changed = true) (counted : choice.countVotes = (.ok (), next)) :
    next.tree.stamp = ⟨choice.justified.epoch, choice.finalized.epoch⟩ := by
  rw [countVotes, if_pos changed] at counted
  exact stamp_settle counted

theorem InStep.countVotes (inStep : choice.InStep) : choice.countVotes.2.InStep := by
  have recounted := choice.countVotes_recounted
  generalize counts : choice.countVotes = result at recounted ⊢
  obtain ⟨outcome, counted⟩ := result
  by_cases changed : choice.ballots.changed = true
  · cases outcome with
    | ok =>
      have stamp := stamp_countVotes changed counts
      rw [← recounted.justified, ← recounted.finalized] at stamp
      refine .of_stamp_eq stamp ?_
      rw [recounted.pending, recounted.finalized]
      exact inStep.newer
    | error error =>
      rw [ForkChoice.countVotes, if_pos changed] at counts
      cases eq_of_settle_error counts
      exact inStep
  · rw [ForkChoice.countVotes, if_neg changed] at counts
    cases counts
    exact inStep

theorem head_stamp
    (choice : ForkChoice preset) : choice.head.2.tree.stamp = choice.countVotes.2.tree.stamp := by
  unfold head
  split
  next failed => rw [failed]
  next counts =>
    rw [counts]
    split
    · rfl
    · simp only [findHead_tree, stamp_refresh]

theorem InStep.head (inStep : choice.InStep) : choice.head.2.InStep := by
  have whole := choice.head_recounted
  have counted := choice.countVotes_recounted
  exact inStep.countVotes.congr choice.head_stamp
    (whole.justified.trans counted.justified.symm) (whole.finalized.trans counted.finalized.symm)
    (whole.pending.trans counted.pending.symm)

/-- What a decision says of the finalized checkpoint: it is the stored one unless a node is
named that becomes the oldest, and then a newer one. -/
theorem finalized_of_advance?
    {trigger : NodeRef} {justified finalized : Checkpoint} {advance : Advance}
    (decided : choice.advance? trigger justified finalized = .ok (some advance)) :
    (advance.pruneAt = none → advance.finalized = choice.finalized) ∧
      ∀ anchor, advance.pruneAt = some anchor →
        choice.finalized.epoch < advance.finalized.epoch := by
  unfold advance? at decided
  split at decided
  next => cases decided
  next =>
    obtain ⟨_, _, decided⟩ := exists_of_bind_eq_ok decided
    obtain ⟨_, _, decided⟩ := exists_of_bind_eq_ok decided
    obtain ⟨_, _, decided⟩ := exists_of_bind_eq_ok decided
    dsimp only at decided
    split at decided
    next stays =>
      cases decided
      exact ⟨fun _ => stays, nofun⟩
    next advances =>
      obtain ⟨anchor, _, decided⟩ := exists_of_bind_eq_ok decided
      cases decided
      refine ⟨nofun, fun _ _ => ?_⟩
      simp only [newer] at advances ⊢
      split at advances
      next later => exact (if_pos later).symm ▸ later
      next => exact absurd rfl advances

/-- A receiver that refuses a node leaves the new checkpoint pending and its epoch in the
stamp. -/
theorem finalizeAt_inStep
    {store : Type} {finalized : Checkpoint} {anchor : NodeRef} {receive : NodeReceiver store}
    {state : store} (stamp : choice.tree.stamp = ⟨choice.justified.epoch, finalized.epoch⟩)
    (later : choice.finalized.epoch < finalized.epoch) :
    (choice.finalizeAt finalized anchor receive state).2.1.InStep := by
  have pruned := stamp_prune choice.tree anchor receive state
  rw [stamp] at pruned
  unfold finalizeAt
  split
  next refused =>
    rw [refused] at pruned
    refine ⟨congrArg Stamp.justified pruned, nofun, fun checkpoint waits => ?_⟩
    cases waits
    exact ⟨later, .inr (congrArg Stamp.finalized pruned)⟩
  next accepted =>
    rw [accepted] at pruned
    exact .of_stamp_eq pruned nofun

theorem InStep.adopt
    {store : Type} (inStep : choice.InStep) (trigger : NodeRef)
    (justified finalized : Checkpoint) (balancesAt : Checkpoint → Except Error (List Nat))
    (receive : NodeReceiver store) (state : store) :
    (choice.adopt trigger justified finalized balancesAt receive state).2.1.InStep := by
  unfold ForkChoice.adopt
  split
  next => exact inStep
  next => exact inStep
  next advance decided =>
    obtain ⟨stays, advances⟩ := finalized_of_advance? decided
    split
    next => exact inStep
    next balances _ =>
      have recounted := choice.settle_recounted balances
        ⟨advance.justified.epoch, advance.finalized.epoch⟩
      split
      next failed =>
        cases eq_of_settle_error failed
        exact inStep
      next counted counts =>
        have stamp := stamp_settle counts
        rw [counts] at recounted
        dsimp only
        split
        next noPrune =>
          refine .of_stamp_eq ?_ ?_
          · rw [stamp, stays noPrune, recounted.finalized]
          · rw [recounted.pending, recounted.finalized]
            exact inStep.newer
        next anchor prunes =>
          refine finalizeAt_inStep stamp ?_
          rw [recounted.finalized]
          exact advances anchor prunes

/-- The fork choices that calls lead to from a single anchor, in any order.  Calls may fail,
and so may the balances and the receiver of an adoption. -/
inductive Reachable : ForkChoice preset → Prop
  | ofAnchor (anchor : NodeRef) (parentRoot : Root) (justified finalized : Checkpoint)
    (balances : List Nat) : Reachable (.ofAnchor anchor parentRoot justified finalized balances)
  | insertSlots {choice : ForkChoice preset} (reachable : Reachable choice) (root : Root)
    (slot : Nat) (justified finalized : Checkpoint) :
    Reachable (choice.insertSlots root slot justified finalized).2
  | insertBlock {choice : ForkChoice preset} (reachable : Reachable choice)
    (parentRoot root : Root) (slot : Nat) (justified finalized : Checkpoint) :
    Reachable (choice.insertBlock parentRoot root slot justified finalized).2
  | recordVote {choice : ForkChoice preset} (reachable : Reachable choice) (validator : Nat)
    (root : Root) (slot : Nat) : Reachable (choice.recordVote validator root slot).2
  | setPin {choice : ForkChoice preset} (reachable : Reachable choice) (pin : NodeRef) :
    Reachable (choice.setPin pin).2
  | clearPin {choice : ForkChoice preset} (reachable : Reachable choice) :
    Reachable choice.clearPin
  | head {choice : ForkChoice preset} (reachable : Reachable choice) : Reachable choice.head.2
  | adopt {choice : ForkChoice preset} {store : Type} (reachable : Reachable choice)
    (trigger : NodeRef) (justified finalized : Checkpoint)
    (balancesAt : Checkpoint → Except Error (List Nat)) (receive : NodeReceiver store)
    (state : store) :
    Reachable (choice.adopt trigger justified finalized balancesAt receive state).2.1

theorem Reachable.inStep (reachable : Reachable choice) : choice.InStep := by
  induction reachable with
  | ofAnchor => exact .of_stamp_eq rfl nofun
  | @insertSlots choice _ root slot justified finalized ih =>
    exact ih.congr (stamp_insertSlots choice.tree root slot _) rfl rfl rfl
  | @insertBlock choice _ parentRoot root slot justified finalized ih =>
    exact ih.congr (stamp_insertBlock choice.tree parentRoot root slot _) rfl rfl rfl
  | @recordVote choice _ validator root slot ih =>
    unfold ForkChoice.recordVote
    split
    · exact ih
    · split
      · exact ih.congr rfl rfl rfl rfl
      · exact ih
  | setPin _ pin ih =>
    unfold ForkChoice.setPin
    split
    · exact ih.congr rfl rfl rfl rfl
    · exact ih
  | clearPin _ ih => exact ih.congr rfl rfl rfl rfl
  | head _ ih => exact ih.head
  | adopt _ trigger justified finalized balancesAt receive state ih =>
    exact ih.adopt trigger justified finalized balancesAt receive state

/-- The justified epochs always agree, and the finalized ones unless the receiver of a newer
finalized checkpoint has refused a node.  While that checkpoint is pending, the stamp has
its epoch or that of the stored one, and a head for which votes are counted brings it back
to the stored one. -/
theorem stamp_agrees_unless_pending (reachable : Reachable choice) :
    choice.tree.stamp.justified = choice.justified.epoch ∧
    (choice.pending = none → choice.tree.stamp.finalized = choice.finalized.epoch) ∧
    (∀ checkpoint, choice.pending = some checkpoint →
      choice.finalized.epoch < checkpoint.epoch ∧
        (choice.tree.stamp.finalized = choice.finalized.epoch ∨
          choice.tree.stamp.finalized = checkpoint.epoch)) ∧
    ∀ ref, choice.ballots.changed = true → choice.head.1 = .ok ref →
      choice.head.2.tree.stamp = ⟨choice.justified.epoch, choice.finalized.epoch⟩ := by
  have inStep := reachable.inStep
  refine ⟨inStep.justified, inStep.settled, inStep.pending, fun ref changed found => ?_⟩
  rw [choice.head_stamp]
  cases counts : choice.countVotes with
  | mk outcome counted =>
    cases outcome with
    | ok => exact stamp_countVotes changed counts
    | error error =>
      rw [ForkChoice.head, counts] at found
      cases found

/-- A block that finalizes itself, and one above it that does not, where no node could be
handed on. -/
def refusedChoice : ForkChoice .minimal :=
  let anchored : ForkChoice .minimal := .ofAnchor ⟨⟨10⟩, 0⟩ ⟨9⟩ ⟨0, ⟨10⟩⟩ ⟨0, ⟨10⟩⟩ [32]
  let below := (anchored.insertBlock ⟨10⟩ ⟨11⟩ 8 ⟨1, ⟨11⟩⟩ ⟨1, ⟨11⟩⟩).2
  let above := (below.insertBlock ⟨11⟩ ⟨12⟩ 9 ⟨1, ⟨11⟩⟩ ⟨0, ⟨10⟩⟩).2
  (above.adopt ⟨⟨11⟩, 8⟩ ⟨1, ⟨11⟩⟩ ⟨1, ⟨11⟩⟩ (fun _ => .ok [32])
    (fun _ _ _ => (.error (.external "no room left"), ())) ()).2.1

theorem refusedChoice_reachable : Reachable refusedChoice :=
  .adopt (.insertBlock (.insertBlock (.ofAnchor ⟨⟨10⟩, 0⟩ ⟨9⟩ ⟨0, ⟨10⟩⟩ ⟨0, ⟨10⟩⟩ [32])
    ⟨10⟩ ⟨11⟩ 8 ⟨1, ⟨11⟩⟩ ⟨1, ⟨11⟩⟩) ⟨11⟩ ⟨12⟩ 9 ⟨1, ⟨11⟩⟩ ⟨0, ⟨10⟩⟩)
    ⟨⟨11⟩, 8⟩ ⟨1, ⟨11⟩⟩ ⟨1, ⟨11⟩⟩ (fun _ => .ok [32])
    (fun _ _ _ => (.error (.external "no room left"), ())) ()

theorem stamp_agrees_unless_pending_refusedChoice :
    Reachable refusedChoice ∧ refusedChoice.pending = some ⟨1, ⟨11⟩⟩ ∧
      (refusedChoice.tree.stamp.finalized = refusedChoice.finalized.epoch ∨
        refusedChoice.tree.stamp.finalized = 1) :=
  have waits : refusedChoice.pending = some ⟨1, ⟨11⟩⟩ := by decide
  ⟨refusedChoice_reachable, waits,
    ((stamp_agrees_unless_pending refusedChoice_reachable).2.2.1 ⟨1, ⟨11⟩⟩ waits).2⟩

/-- The stamp may run ahead of the stored finalized checkpoint, and then a vote that weighs
nothing changes the head. -/
theorem stamp_ahead_of_finalized :
    ∃ choice : ForkChoice .minimal, Reachable choice ∧
      choice.tree.stamp.finalized ≠ choice.finalized.epoch ∧
      choice.head.1 = .ok ⟨⟨11⟩, 8⟩ ∧
      balanceOf choice.balances 1 = 0 ∧
      (choice.recordVote 1 ⟨11⟩ 8).2.head.1 = .ok ⟨⟨12⟩, 9⟩ :=
  ⟨refusedChoice, refusedChoice_reachable, by decide, by decide, by decide, by decide⟩

end ForkChoice

end BeaconChain
