import BeaconChain.Proofs.BlockTree.Ghost
import BeaconChain.Proofs.ForkChoice.Head
import BeaconChain.Proofs.ForkChoice.Stamp

/-!
# Pinned nodes

A pin is set on a node of the tree.  No node leaves the tree but by an adoption, which takes
the pin away when it succeeds.  Where the receiver refuses a node, the nodes before it are
gone and the pin stays as it is, although it may be on one of them.
-/

namespace BeaconChain

open BlockTree

namespace BlockTree

variable {tree other : BlockTree} {ref : NodeRef}

theorem Grows.contains
    {admits : Root → Root → Nat → Prop} (growth : Grows admits tree other)
    (wellFormed : WellFormed tree) (present : tree.contains ref = true) :
    other.contains ref = true := by
  obtain ⟨position, found⟩ := contains_iff.1 present
  obtain ⟨node, here, rfl⟩ := (wellFormed.positions _ _).1 found
  have kept : other.nodes[position]? = some node := by
    obtain ⟨added, extended⟩ := growth.nodes_prefix
    rw [← extended, List.getElem?_append_left (List.getElem?_eq_some_iff.1 here).1, here]
  exact contains_iff.2 ⟨position, (wellFormed.grow growth).position?_ref kept⟩

theorem SameShape.contains_eq (same : SameShape tree other) :
    tree.contains ref = other.contains ref := by
  rw [contains, contains, same.positions]

end BlockTree

namespace ForkChoice

variable {preset : Preset} {choice next : ForkChoice preset}

theorem Reachable.sound (reachable : Reachable choice) : Sound choice.tree := by
  induction reachable with
  | ofAnchor anchor parentRoot => exact sound_ofAnchor anchor parentRoot _
  | insertSlots _ root slot _ _ ih => exact ih.insertSlots root slot _
  | insertBlock _ parentRoot root slot _ _ ih => exact ih.insertBlock parentRoot root slot _
  | recordVote _ validator root slot ih =>
    exact (recordVote_recounted _ validator root slot).sound ih
  | setPin _ pin ih =>
    unfold ForkChoice.setPin
    split
    · exact ih
    · exact ih
  | clearPin _ ih => exact ih
  | head _ ih => exact (head_recounted _).sound ih
  | @adopt choice store _ trigger justified finalized balancesAt receive state ih =>
    generalize adopts : choice.adopt trigger justified finalized balancesAt receive state = result
    obtain ⟨outcome, next, after⟩ := result
    cases adopt_adoption adopts with
    | unchanged => exact ih
    | justify recounted => exact recounted.sound ih
    | @finalize counted _ _ anchor _ _ recounted _ _ _ _ _ done =>
      have kept := (recounted.sound ih).prune anchor receive state
      rw [show counted.tree.prune anchor receive state = _ from (finalizeAt_spec done).1] at kept
      exact kept

/-- Unless a finalized checkpoint is pending, a pin is on a node of the tree. -/
def PinHeld (choice : ForkChoice preset) : Prop :=
  choice.pending = none → ∀ pin, choice.pin = some pin → choice.tree.contains pin = true

theorem PinHeld.congr
    (held : choice.PinHeld) (same : SameShape next.tree choice.tree)
    (pending : next.pending = choice.pending) (pin : next.pin = choice.pin) : next.PinHeld := by
  intro settled ref pinned
  rw [same.contains_eq]
  exact held (pending.symm.trans settled) ref (pin.symm.trans pinned)

theorem PinHeld.recount (held : choice.PinHeld) (recounted : Recounted choice next) :
    next.PinHeld :=
  held.congr recounted.shape recounted.pending recounted.pin

/-- Growth of the tree loses no pin. -/
theorem PinHeld.grow
    (held : choice.PinHeld) (wellFormed : WellFormed choice.tree) {grown : BlockTree}
    {admits : Root → Root → Nat → Prop} (growth : Grows admits choice.tree grown) :
    ({ choice with tree := grown } : ForkChoice preset).PinHeld :=
  fun settled pin pinned => growth.contains wellFormed (held settled pin pinned)

/-- A pruning that succeeds leaves no pin, and one that fails leaves a checkpoint pending. -/
theorem pinHeld_of_finalizeAt
    {store : Type} {finalized : Checkpoint} {anchor : NodeRef} {receive : NodeReceiver store}
    {state after : store} {outcome : Except Error Unit}
    (done : choice.finalizeAt finalized anchor receive state = (outcome, next, after)) :
    next.PinHeld := by
  unfold finalizeAt at done
  split at done
  · cases done
    intro settled
    cases settled
  · cases done
    intro _ pin pinned
    cases pinned

theorem PinHeld.adopt
    {store : Type} (held : choice.PinHeld) (trigger : NodeRef) (justified finalized : Checkpoint)
    (balancesAt : Checkpoint → Except Error (List Nat)) (receive : NodeReceiver store)
    (state : store) :
    (choice.adopt trigger justified finalized balancesAt receive state).2.1.PinHeld := by
  generalize adopts : choice.adopt trigger justified finalized balancesAt receive state = result
  obtain ⟨outcome, next, after⟩ := result
  cases adopt_adoption adopts with
  | unchanged => exact held
  | justify recounted => exact held.congr recounted.shape recounted.pending recounted.pin
  | finalize _ _ _ _ _ _ done => exact pinHeld_of_finalizeAt done

theorem Reachable.pinHeld (reachable : Reachable choice) : choice.PinHeld := by
  induction reachable with
  | ofAnchor => exact fun _ _ pinned => nomatch pinned
  | insertSlots reachable root slot _ _ ih =>
    exact ih.grow reachable.sound.toWellFormed
      (insertSlots_grows (fun _ _ _ => True) reachable.sound.toWellFormed root slot _)
  | insertBlock reachable _ _ _ _ _ ih =>
    exact ih.grow reachable.sound.toWellFormed
      (insertBlock_grows (fun _ _ _ => True) reachable.sound.toWellFormed _ trivial)
  | recordVote _ validator root slot ih =>
    exact ih.recount (recordVote_recounted _ validator root slot)
  | setPin _ pin ih =>
    unfold ForkChoice.setPin
    split
    next present =>
      intro _ _ pinned
      cases pinned
      exact present
    next => exact ih
  | clearPin => exact fun _ _ pinned => nomatch pinned
  | head _ ih => exact ih.recount (head_recounted _)
  | adopt _ trigger justified finalized balancesAt receive state ih =>
    exact ih.adopt trigger justified finalized balancesAt receive state

/-- A pin is on a node of the tree unless a receiver has refused a node of a newer finalized
checkpoint, which is pending since then.  The search for a head below a pin misses its anchor
only if the tree has lost the pin, and always misses it then, if it comes that far. -/
theorem pin_held_unless_pending
    (reachable : Reachable choice) {pin : NodeRef} (pinned : choice.pin = some pin) :
    (choice.pending = none → choice.tree.contains pin = true) ∧
    (choice.tree.contains pin = true → ∀ anchor, choice.head.1 ≠ .error (.unknownAnchor anchor)) ∧
    (choice.tree.contains pin = false → choice.pending ≠ none ∧
      ∃ error, choice.head.1 = .error error ∧
        (error.IsMiscount ∨ error = .unknownAnchor pin)) := by
  have isAnchor : choice.headAnchor = .ok pin := by rw [headAnchor, pinned]
  refine ⟨fun settled => reachable.pinHeld settled pin pinned,
    fun present anchor => ?_, fun lost => ?_⟩
  · obtain ⟨position, found⟩ := contains_iff.1 present
    rcases head_cases_of_anchor reachable.sound isAnchor found with
      ⟨head, _, isHead, _⟩ | ⟨error, failed, kind⟩
    · rw [isHead]
      intro same
      cases same
    · rw [failed]
      intro same
      cases same
      rcases kind with miscount | ⟨_, _, _, same⟩
      · exact miscount.ne_unknownAnchor anchor rfl
      · cases same
  · have missing : choice.tree.position? pin = none := by
      cases found : choice.tree.position? pin with
      | none => rfl
      | some position => exact absurd (contains_iff.2 ⟨position, found⟩) (by simp [lost])
    refine ⟨fun settled => ?_, head_of_missing_anchor isAnchor missing⟩
    rw [reachable.pinHeld settled pin pinned] at lost
    cases lost

/-- A pin on the anchor, and a block at the start of the next epoch above it. -/
def pinnedChoice : ForkChoice .minimal :=
  (((ofAnchor ⟨⟨10⟩, 0⟩ ⟨9⟩ ⟨0, ⟨10⟩⟩ ⟨0, ⟨10⟩⟩ [32]).insertBlock
    ⟨10⟩ ⟨11⟩ 8 ⟨1, ⟨11⟩⟩ ⟨1, ⟨11⟩⟩).2.setPin ⟨⟨10⟩, 0⟩).2

theorem pinnedChoice_reachable : Reachable pinnedChoice :=
  .setPin (.insertBlock (.ofAnchor ⟨⟨10⟩, 0⟩ ⟨9⟩ ⟨0, ⟨10⟩⟩ ⟨0, ⟨10⟩⟩ [32]) ⟨10⟩ ⟨11⟩ 8
    ⟨1, ⟨11⟩⟩ ⟨1, ⟨11⟩⟩) ⟨⟨10⟩, 0⟩

/-- The same after the block was to be finalized, with room for the anchor alone. -/
def lostPinChoice : ForkChoice .minimal :=
  (pinnedChoice.adopt ⟨⟨11⟩, 8⟩ ⟨1, ⟨11⟩⟩ ⟨1, ⟨11⟩⟩ (fun _ => .ok [32])
    (fun _ _ room =>
      if room = 0 then (.error (.external "no room left"), room) else (.ok (), room - 1))
    1).2.1

theorem lostPinChoice_reachable : Reachable lostPinChoice :=
  .adopt pinnedChoice_reachable ⟨⟨11⟩, 8⟩ ⟨1, ⟨11⟩⟩ ⟨1, ⟨11⟩⟩ (fun _ => .ok [32])
    (fun _ _ room =>
      if room = 0 then (.error (.external "no room left"), room) else (.ok (), room - 1)) 1

theorem pin_held_unless_pending_pinnedChoice :
    Reachable pinnedChoice ∧ pinnedChoice.pin = some ⟨⟨10⟩, 0⟩ ∧
      pinnedChoice.tree.contains ⟨⟨10⟩, 0⟩ = true ∧
      Reachable lostPinChoice ∧ lostPinChoice.pin = some ⟨⟨10⟩, 0⟩ ∧
      ∃ error, lostPinChoice.head.1 = .error error ∧
        (error.IsMiscount ∨ error = .unknownAnchor ⟨⟨10⟩, 0⟩) := by
  have pinned : pinnedChoice.pin = some ⟨⟨10⟩, 0⟩ := by decide
  have pinnedStill : lostPinChoice.pin = some ⟨⟨10⟩, 0⟩ := by decide
  have lost : lostPinChoice.tree.contains ⟨⟨10⟩, 0⟩ = false := by decide
  exact ⟨pinnedChoice_reachable, pinned,
    (pin_held_unless_pending pinnedChoice_reachable pinned).1 (by decide),
    lostPinChoice_reachable, pinnedStill,
    ((pin_held_unless_pending lostPinChoice_reachable pinnedStill).2.2 lost).2⟩

/-- A pruning that a receiver cuts short may take out the node that is pinned, and then no
head is found. -/
theorem pin_lost_by_refused_prune :
    ∃ choice : ForkChoice .minimal, Reachable choice ∧ choice.pin = some ⟨⟨10⟩, 0⟩ ∧
      choice.tree.contains ⟨⟨10⟩, 0⟩ = false ∧
      choice.head.1 = .error (.unknownAnchor ⟨⟨10⟩, 0⟩) :=
  ⟨lostPinChoice, lostPinChoice_reachable, by decide, by decide, by decide⟩

end ForkChoice

end BeaconChain
