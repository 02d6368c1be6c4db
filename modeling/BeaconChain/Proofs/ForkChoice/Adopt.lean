import BeaconChain.ForkChoice.Adopt
import BeaconChain.Proofs.BlockTree.Sound

/-!
# What an adoption does

An adoption either changes nothing, or counts the votes anew and makes the justified
checkpoint current, which it then leaves at that unless finality advances as well.
Counting votes changes nothing that descent depends on.
-/

namespace BeaconChain.ForkChoice

open BlockTree

variable {preset : Preset} {choice next counted : ForkChoice preset}

/-- The second fork choice differs from the first in votes, balances, weights and links
only. -/
structure Recounted (choice next : ForkChoice preset) : Prop where
  shape : SameShape next.tree choice.tree
  sound : Sound choice.tree → Sound next.tree
  justified : next.justified = choice.justified
  finalized : next.finalized = choice.finalized
  pending : next.pending = choice.pending
  pin : next.pin = choice.pin

namespace Recounted

theorem refl (choice : ForkChoice preset) : Recounted choice choice :=
  ⟨.refl _, id, rfl, rfl, rfl, rfl⟩

theorem trans
    (first : Recounted choice counted) (second : Recounted counted next) :
    Recounted choice next where
  shape := second.shape.trans first.shape
  sound := second.sound ∘ first.sound
  justified := second.justified.trans first.justified
  finalized := second.finalized.trans first.finalized
  pending := second.pending.trans first.pending
  pin := second.pin.trans first.pin

theorem finalizedRoot_eq (recounted : Recounted choice next) :
    next.finalizedRoot = choice.finalizedRoot := by
  simp only [finalizedRoot, recounted.finalized, recounted.pending]

theorem checkpointNode_eq (recounted : Recounted choice next) (checkpoint : Checkpoint) :
    next.checkpointNode checkpoint = choice.checkpointNode checkpoint := by
  simp only [checkpointNode, recounted.shape.resolve?_eq]

end Recounted

theorem settle_recounted (choice : ForkChoice preset) (balances : List Nat) (stamp : Stamp) :
    Recounted choice (choice.settle balances stamp).2 := by
  unfold settle
  split
  next => exact .refl choice
  next tally _ =>
    have shape := sameShape_applyScores choice.tree tally.deltas stamp
    have sound : Sound choice.tree → Sound (choice.tree.applyScores tally.deltas stamp).2 :=
      fun sound => sound.applyScores tally.deltas stamp
    split
    next => exact .refl choice
    next tree applied =>
      rw [applied] at shape sound
      exact ⟨shape, sound, rfl, rfl, rfl, rfl⟩

theorem eq_of_settle_error
    {balances : List Nat} {stamp : Stamp} {error : Error}
    (failed : choice.settle balances stamp = (.error error, next)) : next = choice := by
  unfold settle at failed
  split at failed
  next =>
    cases failed
    rfl
  next =>
    split at failed
    next =>
      cases failed
      rfl
    next => cases failed

theorem countVotes_recounted (choice : ForkChoice preset) :
    Recounted choice choice.countVotes.2 := by
  unfold countVotes
  split
  · exact settle_recounted choice _ _
  · exact .refl choice

theorem head_recounted (choice : ForkChoice preset) : Recounted choice choice.head.2 := by
  have recounted := countVotes_recounted choice
  unfold head
  split
  next failed =>
    rw [failed] at recounted
    exact recounted
  next counted counts =>
    rw [counts] at recounted
    split
    · exact recounted
    · rename_i anchor _
      apply recounted.trans
      have shape : SameShape (counted.tree.findHead anchor).2 counted.tree := by
        rw [findHead_tree]
        exact sameShape_refresh counted.tree
      exact ⟨shape, fun sound => sound.findHead anchor, rfl, rfl, rfl, rfl⟩

theorem recordVote_recounted
    (choice : ForkChoice preset) (validator : Nat) (root : Root) (slot : Nat) :
    Recounted choice (choice.recordVote validator root slot).2 := by
  unfold recordVote
  split
  · exact .refl choice
  · split
    · exact ⟨.refl _, id, rfl, rfl, rfl, rfl⟩
    · exact .refl choice

/-- The reference that a checkpoint makes: its root at the start of its epoch. -/
def boundary (preset : Preset) (checkpoint : Checkpoint) : NodeRef :=
  ⟨checkpoint.root, preset.startSlot checkpoint.epoch⟩

theorem exists_of_checkpointNode
    (wellFormed : WellFormed choice.tree) {checkpoint : Checkpoint} {ref : NodeRef}
    (resolved : choice.checkpointNode checkpoint = .ok ref) :
    ∃ (position : Nat) (node : Node), node.ref = ref ∧
      IsLatest choice.tree.nodes (boundary preset checkpoint) position node := by
  unfold checkpointNode at resolved
  dsimp only at resolved
  split at resolved
  next found position known =>
    cases resolved
    obtain ⟨node, latest, named⟩ := wellFormed.resolve?_eq_some_iff.1 known
    exact ⟨position, node, named, latest⟩
  next => cases resolved

theorem checkpointNode_of_isLatest
    (wellFormed : WellFormed choice.tree) {checkpoint : Checkpoint} {position : Nat} {node : Node}
    (latest : IsLatest choice.tree.nodes (boundary preset checkpoint) position node) :
    choice.checkpointNode checkpoint = .ok node.ref := by
  have resolved := wellFormed.resolve?_of_isLatest latest
  unfold boundary at resolved
  simp [checkpointNode, resolved]

theorem checkSuccessor_spec
    {old new : Checkpoint} (checked : choice.checkSuccessor old new = .ok ()) :
    old.epoch ≤ new.epoch ∧
      (old.epoch < new.epoch → choice.tree.relation choice.finalizedRoot new.root = .inside) := by
  unfold checkSuccessor at checked
  split at checked
  next => cases checked
  next notOlder =>
    refine ⟨Nat.le_of_not_lt notOlder, fun newer => ?_⟩
    split at checked
    next same => exact absurd newer (by omega)
    next =>
      split at checked
      next inside => exact inside
      next => cases checked

/-- What is known once it has been decided what there is to be done. -/
theorem advance?_spec
    {trigger : NodeRef} {justified finalized : Checkpoint} {advance : Advance}
    (decided : choice.advance? trigger justified finalized = .ok (some advance)) :
    choice.checkSuccessor choice.justified justified = .ok () ∧
      advance.justified = newer choice.justified justified ∧
      (advance.pruneAt = none ∨ ∃ anchor, advance.pruneAt = some anchor ∧
        advance.finalized = finalized ∧ choice.finalized.epoch < finalized.epoch ∧
        choice.tree.relation choice.finalizedRoot finalized.root = .inside ∧
        choice.checkpointNode finalized = .ok anchor) := by
  unfold advance? at decided
  split at decided
  next => cases decided
  next =>
    obtain ⟨_, _, decided⟩ := exists_of_bind_eq_ok decided
    obtain ⟨_, successor, decided⟩ := exists_of_bind_eq_ok decided
    obtain ⟨_, finalSuccessor, decided⟩ := exists_of_bind_eq_ok decided
    dsimp only at decided
    split at decided
    next =>
      cases decided
      exact ⟨successor, rfl, .inl rfl⟩
    next advances =>
      obtain ⟨anchor, resolved, decided⟩ := exists_of_bind_eq_ok decided
      cases decided
      have later : choice.finalized.epoch < finalized.epoch := by
        unfold newer at advances
        split at advances
        next later => exact later
        next => exact absurd rfl advances
      rw [newer, if_pos later] at resolved
      refine ⟨successor, rfl, .inr ⟨anchor, rfl, ?_, later, ?_, resolved⟩⟩
      · exact if_pos later
      · exact (checkSuccessor_spec finalSuccessor).2 later

/-- Whether or not the receiver refuses a node, newer checkpoints must descend from the
root of the checkpoint that was to be finalized. -/
theorem finalizeAt_spec
    {store : Type} {finalized : Checkpoint} {anchor : NodeRef} {receive : NodeReceiver store}
    {state after : store} {outcome : Except Error Unit}
    (done : choice.finalizeAt finalized anchor receive state = (outcome, next, after)) :
    choice.tree.prune anchor receive state = (outcome, next.tree, after) ∧
      next.finalizedRoot = finalized.root ∧ next.justified = choice.justified ∧
      (choice.pin = none → next.pin = none) := by
  unfold finalizeAt at done
  split at done
  next pruned =>
    cases done
    exact ⟨pruned, rfl, rfl, id⟩
  next pruned =>
    cases done
    exact ⟨pruned, rfl, rfl, fun _ => rfl⟩

/-- What an adoption leads to. -/
inductive Adoption {store : Type} (choice : ForkChoice preset) (justified finalized : Checkpoint)
    (balancesAt : Checkpoint → Except Error (List Nat)) (receive : NodeReceiver store)
    (state : store) : Except Error Unit → ForkChoice preset → store → Prop
  | unchanged (outcome : Except Error Unit) :
    Adoption choice justified finalized balancesAt receive state outcome choice state
  | justify {counted : ForkChoice preset} {balances : List Nat}
    (recounted : Recounted choice counted)
    (successor : choice.checkSuccessor choice.justified justified = .ok ())
    (known : balancesAt (newer choice.justified justified) = .ok balances) :
    Adoption choice justified finalized balancesAt receive state (.ok ())
      { counted with justified := newer choice.justified justified } state
  | finalize {counted next : ForkChoice preset} {balances : List Nat} {anchor : NodeRef}
    {outcome : Except Error Unit} {after : store} (recounted : Recounted choice counted)
    (successor : choice.checkSuccessor choice.justified justified = .ok ())
    (known : balancesAt (newer choice.justified justified) = .ok balances)
    (later : choice.finalized.epoch < finalized.epoch)
    (inside : choice.tree.relation choice.finalizedRoot finalized.root = .inside)
    (resolved : choice.checkpointNode finalized = .ok anchor)
    (done : { counted with justified := newer choice.justified justified }.finalizeAt finalized
      anchor receive state = (outcome, next, after)) :
    Adoption choice justified finalized balancesAt receive state outcome next after

theorem adopt_adoption
    {store : Type} {trigger : NodeRef} {justified finalized : Checkpoint}
    {balancesAt : Checkpoint → Except Error (List Nat)} {receive : NodeReceiver store}
    {state after : store} {outcome : Except Error Unit}
    (adopted : choice.adopt trigger justified finalized balancesAt receive state =
      (outcome, next, after)) :
    Adoption choice justified finalized balancesAt receive state outcome next after := by
  unfold adopt at adopted
  split at adopted
  next => cases adopted; exact .unchanged _
  next => cases adopted; exact .unchanged _
  next advance decided =>
    obtain ⟨successor, newJustified, finality⟩ := advance?_spec decided
    rw [newJustified] at adopted
    split at adopted
    next => cases adopted; exact .unchanged _
    next balances known =>
      have recounted := settle_recounted choice balances
        ⟨(newer choice.justified justified).epoch, advance.finalized.epoch⟩
      split at adopted
      next failed =>
        cases adopted
        cases eq_of_settle_error failed
        exact .unchanged _
      next counted counts =>
        rw [counts] at recounted
        dsimp only at adopted
        rcases finality with noPrune | ⟨anchor, prunes, same, later, inside, resolved⟩
        · rw [noPrune] at adopted
          cases adopted
          exact .justify recounted successor known
        · rw [prunes, same] at adopted
          exact .finalize recounted successor known later inside resolved adopted

end BeaconChain.ForkChoice
