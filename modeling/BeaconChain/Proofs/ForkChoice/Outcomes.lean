import BeaconChain.Proofs.BlockTree.Handing
import BeaconChain.Proofs.ForkChoice.Pin
import BeaconChain.Proofs.ForkChoice.Prepared

/-!
# The outcomes of an adoption

An adoption has four outcomes.  There is nothing to do; or it fails before the first node is
offered, and nothing changes; or the receiver refuses a node, and the justified checkpoint is
adopted without the finalized one; or both checkpoints are adopted.

What there is to be offered does not depend on the receiver, so that an adoption that is cut
short can be compared with the one that a receiver without objections would have completed.
-/

namespace BeaconChain

open BlockTree

namespace ForkChoice

variable {preset : Preset} {choice next : ForkChoice preset} {trigger : NodeRef}
  {justified finalized : Checkpoint} {balancesAt : Checkpoint → Except Error (List Nat)}

/-- One of the epochs is newer than the stored one. -/
def IsNews (choice : ForkChoice preset) (justified finalized : Checkpoint) : Prop :=
  choice.justified.epoch < justified.epoch ∨ choice.finalized.epoch < finalized.epoch

theorem not_isNews_iff :
    ¬ choice.IsNews justified finalized ↔
      justified.epoch ≤ choice.justified.epoch ∧ finalized.epoch ≤ choice.finalized.epoch := by
  simp only [IsNews, not_or, Nat.not_lt]

/-- What is decided on newer checkpoints: a node is named that becomes the oldest if finality
advances, and none otherwise. -/
theorem advance?_of_isNews
    (isNews : choice.IsNews justified finalized) {plan : Option Advance}
    (decided : choice.advance? trigger justified finalized = .ok plan) :
    (finalized.epoch ≤ choice.finalized.epoch ∧
      plan = some ⟨newer choice.justified justified, choice.finalized, none⟩) ∨
    (choice.finalized.epoch < finalized.epoch ∧
      ∃ anchor, choice.checkpointNode finalized = .ok anchor ∧
        plan = some ⟨newer choice.justified justified, finalized, some anchor⟩) := by
  rcases Nat.lt_or_ge choice.finalized.epoch finalized.epoch with later | notLater
  · rw [advance?_of_later later] at decided
    obtain ⟨_, _, decided⟩ := exists_of_bind_eq_ok decided
    obtain ⟨_, _, decided⟩ := exists_of_bind_eq_ok decided
    obtain ⟨_, _, decided⟩ := exists_of_bind_eq_ok decided
    obtain ⟨anchor, resolved, decided⟩ := exists_of_bind_eq_ok decided
    cases decided
    exact .inr ⟨later, anchor, resolved, rfl⟩
  · have stays : newer choice.finalized finalized = choice.finalized :=
      if_neg (Nat.not_lt.2 notLater)
    rw [advance?, if_neg fun nothing => not_isNews_iff.2 nothing isNews] at decided
    obtain ⟨_, _, decided⟩ := exists_of_bind_eq_ok decided
    obtain ⟨_, _, decided⟩ := exists_of_bind_eq_ok decided
    obtain ⟨_, _, decided⟩ := exists_of_bind_eq_ok decided
    dsimp only at decided
    rw [stays, if_pos rfl] at decided
    cases decided
    exact .inl ⟨notLater, rfl⟩

/-- What an adoption of newer checkpoints comes to, whatever the receiver. -/
inductive Prospect (choice : ForkChoice preset) (trigger : NodeRef)
    (justified finalized : Checkpoint) (balancesAt : Checkpoint → Except Error (List Nat)) : Prop
  | fails (error : Error)
    (adopt_eq : ∀ {store : Type} (receive : NodeReceiver store) (state : store),
      choice.adopt trigger justified finalized balancesAt receive state =
        (.error error, choice, state))
  | justifies (notLater : finalized.epoch ≤ choice.finalized.epoch) (counted : ForkChoice preset)
    (recounted : Recounted choice counted)
    (adopt_eq : ∀ {store : Type} (receive : NodeReceiver store) (state : store),
      choice.adopt trigger justified finalized balancesAt receive state =
        (.ok (), { counted with justified := newer choice.justified justified }, state))
  | finalizes (later : choice.finalized.epoch < finalized.epoch) (anchor : NodeRef)
    (balances : List Nat) (counted : ForkChoice preset)
    (resolved : choice.checkpointNode finalized = .ok anchor)
    (prepared : Prepared choice trigger justified finalized balancesAt anchor balances counted)

theorem prospect_of_isNews (isNews : choice.IsNews justified finalized) :
    Prospect choice trigger justified finalized balancesAt := by
  cases decided : choice.advance? trigger justified finalized with
  | error error => exact .fails error fun receive state => by simp only [adopt, decided]
  | ok plan =>
    cases known : balancesAt (newer choice.justified justified) with
    | error error =>
      rcases advance?_of_isNews isNews decided with ⟨_, rfl⟩ | ⟨_, _, _, rfl⟩
      · exact .fails error fun receive state => by simp only [adopt, decided, known]
      · exact .fails error fun receive state => by simp only [adopt, decided, known]
    | ok balances =>
      rcases advance?_of_isNews isNews decided with ⟨notLater, rfl⟩ | ⟨later, anchor, resolved, rfl⟩
      · have recounted := choice.settle_recounted balances
          ⟨(newer choice.justified justified).epoch, choice.finalized.epoch⟩
        generalize counts : choice.settle balances _ = result at recounted
        obtain ⟨outcome, counted⟩ := result
        cases outcome with
        | error error =>
          cases eq_of_settle_error counts
          exact .fails error fun receive state => by simp only [adopt, decided, known, counts]
        | ok =>
          exact .justifies notLater counted recounted fun receive state => by
            simp only [adopt, decided, known, counts]
      · generalize counts : choice.settle balances
          ⟨(newer choice.justified justified).epoch, finalized.epoch⟩ = result
        obtain ⟨outcome, counted⟩ := result
        cases outcome with
        | error error =>
          cases eq_of_settle_error counts
          exact .fails error fun receive state => by simp only [adopt, decided, known, counts]
        | ok =>
          exact .finalizes later anchor balances _ resolved
            (prepared_of_settle decided known counts)

/-! ## The four outcomes -/

section Outcomes

variable {store : Type} (choice : ForkChoice preset) (trigger : NodeRef)
  (justified finalized : Checkpoint) (balancesAt : Checkpoint → Except Error (List Nat))
  (state : store) (outcome : Except Error Unit) (next : ForkChoice preset) (after : store)
  (offers : List Offer)

/-- There is nothing to do, and this shows without a question to the balances or the
receiver. -/
structure Idle : Prop where
  done : outcome = .ok ()
  unchanged : next = choice
  stateUnchanged : after = state
  noOffers : offers = []
  unasked : ∀ {other : Type} (balancesAt : Checkpoint → Except Error (List Nat))
    (receive : NodeReceiver other) (state : other),
    choice.adopt trigger justified finalized balancesAt receive state = (.ok (), choice, state)

/-- The adoption fails before the first offer, as it does with every receiver. -/
structure Rejected : Prop where
  unchanged : next = choice
  stateUnchanged : after = state
  noOffers : offers = []
  unasked : ∀ {other : Type} (receive : NodeReceiver other) (state : other),
    choice.adopt trigger justified finalized balancesAt receive state = (outcome, choice, state)

/-- The receiver takes the first `accepted` of the nodes in `handed` and refuses the next one.
A receiver without objections would have taken all of them, and `full` is what that adoption
leads to. -/
structure CutShort (handed : List (Node × Bool)) (accepted : Nat) (last : Node × Bool)
    (error : Error) (full : ForkChoice preset) : Prop where
  whole : choice.adopt trigger justified finalized balancesAt (recording acceptAll) ((), []) =
    (.ok (), full, (), handed.map Offer.accepted)
  failed : outcome = .error error
  refused : handed[accepted]? = some last
  offered : offers = (handed.take accepted).map Offer.accepted ++ [Offer.refused error last]
  justified : next.justified = full.justified
  balances : next.balances = full.balances
  ballots : next.ballots = full.ballots
  finalized : next.finalized = choice.finalized
  pin : next.pin = choice.pin
  gone : choice.tree.names =
    ((handed.take accepted).map fun marked => marked.1.ref) ++ next.tree.names
  weights : next.tree.weighed =
    ((handed.drop accepted).map fun marked => (marked.1.ref, marked.1.weight)) ++ full.tree.weighed

/-- Both checkpoints are adopted, each one that is newer. -/
structure Completed : Prop where
  newJustified : next.justified = newer choice.justified justified
  newFinalized : next.finalized = newer choice.finalized finalized
  allAccepted : ∀ offer ∈ offers, offer.answer = .ok ()
  gone : choice.tree.names = (offers.map fun offer => offer.node.ref) ++ next.tree.names
  advanced : choice.finalized.epoch < finalized.epoch → next.pin = none ∧
    ∃ oldest, next.tree.nodes.head? = some oldest ∧
      choice.checkpointNode finalized = .ok oldest.ref ∧
      next.checkpointNode finalized = .ok oldest.ref
  stayed : finalized.epoch ≤ choice.finalized.epoch → next.pin = choice.pin ∧ offers = []

end Outcomes

section Finalizing

variable {store : Type} {receive : NodeReceiver store} {state after : store}
  {outcome : Except Error Unit} {offers : List Offer} {anchor : NodeRef} {balances : List Nat}
  {counted : ForkChoice preset}

/-- The record of a pruning, for the fork choice with its votes counted. -/
theorem exists_handing_of_prepared
    (wellFormed : WellFormed choice.tree) (resolved : choice.checkpointNode finalized = .ok anchor)
    (prepared : Prepared choice trigger justified finalized balancesAt anchor balances counted)
    (done : counted.finalizeAt finalized anchor (recording receive) (state, []) =
      (outcome, next, after, offers)) :
    ∃ position node handed, node.ref = anchor ∧
      IsLatest counted.tree.refresh.nodes (boundary preset finalized) position node ∧
      Handing counted.tree next.tree anchor position outcome handed offers := by
  obtain ⟨position, node, rfl, latest⟩ := exists_of_checkpointNode wellFormed resolved
  have present := wellFormed.position?_ref latest.here
  rw [← prepared.shape.position?_eq] at present
  obtain ⟨handed, handing⟩ :=
    exists_handing (prepared.shape.symm.wellFormed wellFormed) present (finalizeAt_spec done).1
  have same := (sameShape_refresh counted.tree).trans prepared.shape
  obtain ⟨found, named, isLatest⟩ := same.exists_isLatest wellFormed latest
  exact ⟨position, found, handed, named, isLatest, handing⟩

/-- The removal of nodes before that of a checkpoint fails only where one is refused. -/
theorem exists_refused_of_finalizeAt
    {checkpoint : Checkpoint} {error : Error}
    (wellFormed : WellFormed choice.tree) (resolved : choice.checkpointNode checkpoint = .ok anchor)
    (failed : { choice with justified := justified }.finalizeAt finalized anchor
      (recording receive) (state, []) = (.error error, next, after, offers)) :
    ∃ offer ∈ offers, offer.answer = .error error := by
  obtain ⟨position, node, rfl, latest⟩ := exists_of_checkpointNode wellFormed resolved
  have present := wellFormed.position?_ref latest.here
  obtain ⟨handed, handing⟩ := exists_handing wellFormed present (finalizeAt_spec failed).1
  rcases handing.answered with ⟨isOk, _⟩ | ⟨_, cause, last, isError, _, _, _, recorded⟩
  · cases isOk
  · cases isError
    exact ⟨.refused error last, by simp [recorded], rfl⟩

/-- A receiver that refuses a node leaves the rest of the way to a later adoption. -/
theorem cutShort_of_prepared
    (wellFormed : WellFormed choice.tree) (resolved : choice.checkpointNode finalized = .ok anchor)
    (prepared : Prepared choice trigger justified finalized balancesAt anchor balances counted)
    (adopted : choice.adopt trigger justified finalized balancesAt (recording receive) (state, []) =
      (outcome, next, after, offers)) (failed : outcome ≠ .ok ()) :
    ∃ handed accepted last error full,
      CutShort choice trigger justified finalized balancesAt outcome next offers handed accepted
        last error full := by
  rw [prepared.adopt_eq] at adopted
  obtain ⟨position, node, handed, rfl, latest, handing⟩ :=
    exists_handing_of_prepared wellFormed resolved prepared adopted
  rcases handing.answered with
    ⟨done, _⟩ | ⟨accepted, error, last, isError, before, there, left, recorded⟩
  · exact absurd done failed
  · have notMore := Nat.le_of_lt before
    have whole := prepared.adopt_eq (recording acceptAll) ((), [])
    rw [finalizeAt, handing.whole] at whole
    subst isError
    unfold finalizeAt at adopted
    split at adopted
    next pruned =>
      cases adopted
      dsimp only at left
      refine ⟨handed, accepted, last, error, _, ⟨whole, rfl, there, recorded, rfl, rfl, rfl,
        prepared.finalized, prepared.pin, ?_, ?_⟩⟩
      · rw [← prepared.shape.names_eq, handing.names_eq notMore, left]
      · rw [left, handing.weighed_eq notMore]
    next => cases adopted

theorem completed_of_prepared
    (wellFormed : WellFormed choice.tree) (later : choice.finalized.epoch < finalized.epoch)
    (resolved : choice.checkpointNode finalized = .ok anchor)
    (prepared : Prepared choice trigger justified finalized balancesAt anchor balances counted)
    (adopted : choice.adopt trigger justified finalized balancesAt (recording receive) (state, []) =
      (.ok (), next, after, offers)) :
    Completed choice justified finalized next offers := by
  rw [prepared.adopt_eq] at adopted
  obtain ⟨position, node, handed, rfl, latest, handing⟩ :=
    exists_handing_of_prepared wellFormed resolved prepared adopted
  rcases handing.answered with ⟨_, left, recorded⟩ | ⟨_, _, _, isError, _⟩
  · have names := handing.names_eq (Nat.le_refl position)
    have all : handed.take position = handed := by
      have count := congrArg List.length handing.weights
      rw [List.length_map, List.length_take] at count
      exact List.take_of_length_le (by omega)
    rw [all, prepared.shape.names_eq, ← left] at names
    have same := (sameShape_refresh counted.tree).trans prepared.shape
    have wellFormedLeft := (same.symm.wellFormed wellFormed).dropOldest position
    rw [← Nat.zero_add position] at latest
    have oldest := latest.dropOldest
    rw [← left] at wellFormedLeft oldest
    unfold finalizeAt at adopted
    split at adopted
    next => cases adopted
    next =>
      cases adopted
      exact {
        newJustified := prepared.justified
        newFinalized := (if_pos later).symm
        allAccepted := fun offer member => by
          rw [recorded] at member
          obtain ⟨marked, _, rfl⟩ := List.mem_map.1 member
          rfl
        gone := by
          rw [names, recorded, List.map_map]
          rfl
        advanced := fun _ => ⟨rfl, shiftNode position node,
          (List.head?_eq_getElem?).trans oldest.here, resolved,
          checkpointNode_of_isLatest wellFormedLeft oldest⟩
        stayed := fun notLater => absurd later (Nat.not_lt.2 notLater) }
  · cases isError

end Finalizing

/-- The outcomes of an adoption: whatever is not newer changes nothing; a failure that is not
that of the receiver changes nothing either; a node that is refused leaves everything but the
finalized checkpoint adopted; and anything else is a success. -/
theorem adopt_outcomes
    {store : Type} {receive : NodeReceiver store} {state after : store}
    {outcome : Except Error Unit} {offers : List Offer} (reachable : Reachable choice)
    (adopted : choice.adopt trigger justified finalized balancesAt (recording receive) (state, []) =
      (outcome, next, after, offers)) :
    (¬ choice.IsNews justified finalized →
      Idle choice trigger justified finalized state outcome next after offers) ∧
    (outcome ≠ .ok () → (∀ offer ∈ offers, offer.answer = .ok ()) →
      Rejected choice trigger justified finalized balancesAt state outcome next after offers) ∧
    ((∃ offer ∈ offers, offer.answer ≠ .ok ()) → ∃ handed accepted last error full,
      CutShort choice trigger justified finalized balancesAt outcome next offers handed accepted
        last error full) ∧
    (choice.IsNews justified finalized → outcome = .ok () →
      Completed choice justified finalized next offers) := by
  have wellFormed := reachable.sound.toWellFormed
  by_cases isNews : choice.IsNews justified finalized
  · refine ⟨absurd isNews, ?_⟩
    have prospect : Prospect choice trigger justified finalized balancesAt :=
      prospect_of_isNews isNews
    cases prospect with
    | fails error adopt_eq =>
      rw [adopt_eq] at adopted
      cases adopted
      refine ⟨fun _ _ => ⟨rfl, rfl, rfl, adopt_eq⟩, ?_, fun _ done => by cases done⟩
      rintro ⟨offer, member, _⟩
      cases member
    | justifies notLater counted recounted adopt_eq =>
      rw [adopt_eq] at adopted
      cases adopted
      refine ⟨fun failed => absurd rfl failed, ?_, fun _ _ => ?_⟩
      · rintro ⟨offer, member, _⟩
        cases member
      · exact {
          newJustified := rfl
          newFinalized := recounted.finalized.trans (if_neg (Nat.not_lt.2 notLater)).symm
          allAccepted := fun offer member => nomatch member
          gone := recounted.shape.names_eq.symm
          advanced := fun later => absurd later (Nat.not_lt.2 notLater)
          stayed := fun _ => ⟨recounted.pin, rfl⟩ }
    | finalizes later anchor balances counted resolved prepared =>
      refine ⟨fun failed allAccepted => ?_, fun ⟨offer, member, refused⟩ => ?_, fun _ done => ?_⟩
      · obtain ⟨handed, accepted, last, error, full, cut⟩ :=
          cutShort_of_prepared wellFormed resolved prepared adopted failed
        have isLast : Offer.refused error last ∈ offers := by simp [cut.offered]
        cases allAccepted _ isLast
      · refine cutShort_of_prepared wellFormed resolved prepared adopted ?_
        rintro rfl
        have completed := completed_of_prepared wellFormed later resolved prepared adopted
        exact refused (completed.allAccepted offer member)
      · subst done
        exact completed_of_prepared wellFormed later resolved prepared adopted
  · have notLater := not_isNews_iff.1 isNews
    have ignored : ∀ {other : Type} (balancesAt : Checkpoint → Except Error (List Nat))
        (receive : NodeReceiver other) (state : other),
        choice.adopt trigger justified finalized balancesAt receive state =
          (.ok (), choice, state) :=
      fun _ receive state => adopt_of_not_later receive state notLater.1 notLater.2
    rw [ignored] at adopted
    cases adopted
    refine ⟨fun _ => ⟨rfl, rfl, rfl, rfl, ignored⟩, fun failed => absurd rfl failed, ?_,
      fun news => absurd news isNews⟩
    rintro ⟨offer, member, _⟩
    cases member

/-- The adoption that a receiver with room for one node cuts short, and its record. -/
def cutShortAdoption :
    Except Error Unit × ForkChoice .minimal × Nat × List Offer :=
  pinnedChoice.adopt ⟨⟨11⟩, 8⟩ ⟨1, ⟨11⟩⟩ ⟨1, ⟨11⟩⟩ (fun _ => .ok [32])
    (recording fun _ _ room =>
      if room = 0 then (.error (.external "no room left"), room) else (.ok (), room - 1)) (1, [])

theorem adopt_outcomes_pinnedChoice :
    Reachable pinnedChoice ∧
      (cutShortAdoption.2.2.2.map Offer.answer = [.ok (), .error (.external "no room left")]) ∧
      ∃ handed accepted last error full,
        CutShort pinnedChoice ⟨⟨11⟩, 8⟩ ⟨1, ⟨11⟩⟩ ⟨1, ⟨11⟩⟩ (fun _ => .ok [32]) cutShortAdoption.1
          cutShortAdoption.2.1 cutShortAdoption.2.2.2 handed accepted last error full := by
  have answers : cutShortAdoption.2.2.2.map Offer.answer =
      [.ok (), .error (.external "no room left")] := by
    decide
  have refused : (.error (.external "no room left") : Except Error Unit) ∈
      cutShortAdoption.2.2.2.map Offer.answer := by
    simp [answers]
  obtain ⟨offer, member, isRefusal⟩ := List.mem_map.1 refused
  have outcomes := adopt_outcomes pinnedChoice_reachable
    (show cutShortAdoption = (cutShortAdoption.1, cutShortAdoption.2.1, cutShortAdoption.2.2.1,
      cutShortAdoption.2.2.2) from rfl)
  exact ⟨pinnedChoice_reachable, answers,
    outcomes.2.2.1 ⟨offer, member, by rw [isRefusal]; nofun⟩⟩

end ForkChoice

end BeaconChain
