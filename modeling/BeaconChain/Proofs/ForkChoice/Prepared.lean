import BeaconChain.Proofs.ForkChoice.Alike

/-!
# Adoptions that finalize a checkpoint

An adoption that finalizes a checkpoint first checks and counts, and only then takes nodes out
of the tree.  The first part does not depend on the receiver, so that it comes to its end with
every receiver if it does with one, and again when a refused adoption is taken up once more.
-/

namespace BeaconChain.ForkChoice

open BlockTree

variable {preset : Preset} {choice counted next : ForkChoice preset} {trigger anchor : NodeRef}
  {justified finalized : Checkpoint} {balancesAt : Checkpoint → Except Error (List Nat)}
  {balances : List Nat}

/-- All that is left to be done to adopt the checkpoints is to take nodes out of the tree of
`counted`, which is the fork choice with its votes counted and its justified checkpoint current. -/
structure Prepared (choice : ForkChoice preset) (trigger : NodeRef)
    (justified finalized : Checkpoint) (balancesAt : Checkpoint → Except Error (List Nat))
    (anchor : NodeRef) (balances : List Nat) (counted : ForkChoice preset) : Prop where
  adopt_eq : ∀ {store : Type} (receive : NodeReceiver store) (state : store),
    choice.adopt trigger justified finalized balancesAt receive state =
      counted.finalizeAt finalized anchor receive state
  shape : SameShape counted.tree choice.tree
  sound : Sound choice.tree → Sound counted.tree
  stamp : counted.tree.stamp = ⟨counted.justified.epoch, finalized.epoch⟩
  heard : counted.ballots.votes.map Vote.heard = choice.ballots.votes.map Vote.heard
  balances : counted.balances = balances
  justified : counted.justified = newer choice.justified justified
  finalized : counted.finalized = choice.finalized
  pin : counted.pin = choice.pin

/-- What there is to be done if finality advances. -/
theorem advance?_of_later (later : choice.finalized.epoch < finalized.epoch) :
    choice.advance? trigger justified finalized = (do
      choice.checkPin trigger
      choice.checkSuccessor choice.justified justified
      choice.checkSuccessor choice.finalized finalized
      let anchor ← choice.checkpointNode finalized
      return some ⟨newer choice.justified justified, finalized, some anchor⟩) := by
  have notNothing : ¬ (justified.epoch ≤ choice.justified.epoch ∧
      finalized.epoch ≤ choice.finalized.epoch) := fun both => Nat.not_le.2 later both.2
  have newFinalized : newer choice.finalized finalized = finalized := if_pos later
  have different : finalized ≠ choice.finalized := by
    rintro rfl
    exact Nat.lt_irrefl _ later
  simp only [advance?, if_neg notNothing, newFinalized, if_neg different]
  rfl

theorem prepared_of_settle
    (decided : choice.advance? trigger justified finalized =
      .ok (some ⟨newer choice.justified justified, finalized, some anchor⟩))
    (known : balancesAt (newer choice.justified justified) = .ok balances)
    (counts : choice.settle balances ⟨(newer choice.justified justified).epoch, finalized.epoch⟩ =
      (.ok (), counted)) :
    Prepared choice trigger justified finalized balancesAt anchor balances
      { counted with justified := newer choice.justified justified } := by
  have recounted := settle_recounted choice balances
    ⟨(newer choice.justified justified).epoch, finalized.epoch⟩
  have heard := heard_settle choice balances
    ⟨(newer choice.justified justified).epoch, finalized.epoch⟩
  have weighed := balances_settle counts
  have stamp := stamp_settle counts
  rw [counts] at recounted heard
  exact {
    adopt_eq := fun receive state => by simp only [adopt, decided, known, counts]
    shape := recounted.shape
    sound := recounted.sound
    stamp := stamp
    heard := heard
    balances := weighed
    justified := rfl
    finalized := recounted.finalized
    pin := recounted.pin }

/-- An adoption that advances finality has been prepared if it comes to its end. -/
theorem exists_prepared_of_adopt
    {store : Type} {receive : NodeReceiver store} {state after : store}
    (later : choice.finalized.epoch < finalized.epoch)
    (adopted : choice.adopt trigger justified finalized balancesAt receive state =
      (.ok (), next, after)) :
    ∃ anchor balances counted, choice.checkpointNode finalized = .ok anchor ∧
      balancesAt (newer choice.justified justified) = .ok balances ∧
      (newer choice.justified justified).epoch = justified.epoch ∧
      Prepared choice trigger justified finalized balancesAt anchor balances counted := by
  unfold adopt at adopted
  split at adopted
  next => cases adopted
  next nothing =>
    rw [advance?_of_later later] at nothing
    obtain ⟨_, _, nothing⟩ := exists_of_bind_eq_ok nothing
    obtain ⟨_, _, nothing⟩ := exists_of_bind_eq_ok nothing
    obtain ⟨_, _, nothing⟩ := exists_of_bind_eq_ok nothing
    obtain ⟨_, _, nothing⟩ := exists_of_bind_eq_ok nothing
    cases nothing
  next advance decided =>
    have steps := decided
    rw [advance?_of_later later] at steps
    obtain ⟨_, _, steps⟩ := exists_of_bind_eq_ok steps
    obtain ⟨_, successor, steps⟩ := exists_of_bind_eq_ok steps
    obtain ⟨_, _, steps⟩ := exists_of_bind_eq_ok steps
    obtain ⟨anchor, resolved, steps⟩ := exists_of_bind_eq_ok steps
    cases steps
    have notOlder := (checkSuccessor_spec successor).1
    have sameEpoch : (newer choice.justified justified).epoch = justified.epoch := by
      unfold newer
      split <;> omega
    split at adopted
    next => cases adopted
    next balances known =>
      split at adopted
      next => cases adopted
      next counted counts =>
        exact ⟨anchor, balances, _, resolved, known, sameEpoch,
          prepared_of_settle decided known counts⟩

/-- A refused adoption of the same checkpoints can be taken up again: the justified one is
current, and the finalized one descends from the one that is pending, which is itself. -/
theorem exists_prepared_of_pending
    (unpinned : choice.pin = none) (sameEpoch : choice.justified.epoch = justified.epoch)
    (later : choice.finalized.epoch < finalized.epoch) (pending : choice.pending = some finalized)
    (resolved : choice.checkpointNode finalized = .ok anchor)
    (known : balancesAt choice.justified = .ok balances)
    (counts : choice.settle balances ⟨choice.justified.epoch, finalized.epoch⟩ =
      (.ok (), counted)) :
    ∃ counted, Prepared choice trigger justified finalized balancesAt anchor balances counted := by
  have stays : newer choice.justified justified = choice.justified :=
    if_neg (by omega)
  have justifies : choice.checkSuccessor choice.justified justified = .ok () := by
    rw [checkSuccessor, if_neg (by omega), if_pos sameEpoch.symm]
  have finalizes : choice.checkSuccessor choice.finalized finalized = .ok () := by
    have root : choice.finalizedRoot = finalized.root := by rw [finalizedRoot, pending]; rfl
    rw [checkSuccessor, if_neg (by omega), if_neg (by omega), root, relation_self, if_pos rfl]
  have unrestricted : choice.checkPin trigger = .ok () := by rw [checkPin, unpinned]
  have decided : choice.advance? trigger justified finalized =
      .ok (some ⟨newer choice.justified justified, finalized, some anchor⟩) := by
    rw [advance?_of_later later, unrestricted, justifies, finalizes, resolved]
    rfl
  rw [← stays] at known counts
  exact ⟨_, prepared_of_settle decided known counts⟩

/-- There is nothing to be done for checkpoints that are not newer. -/
theorem adopt_of_not_later
    {store : Type} (receive : NodeReceiver store) (state : store)
    (justifiedNotLater : justified.epoch ≤ choice.justified.epoch)
    (finalizedNotLater : finalized.epoch ≤ choice.finalized.epoch) :
    choice.adopt trigger justified finalized balancesAt receive state =
      (.ok (), choice, state) := by
  simp only [adopt, advance?, if_pos (And.intro justifiedNotLater finalizedNotLater)]

end BeaconChain.ForkChoice
