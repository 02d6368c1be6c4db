import BeaconChain.Proofs.Archive.Rows

/-!
# The archive as a receiver

The archive takes every entry that goes on where it ends, unless its state store fails.  Its
record then holds the entries of the log, step by step.  What it records depends on nothing but
the entries that it took.
-/

namespace BeaconChain

variable {State Block Context contents : Type} {rules : Rules State Block Context}

namespace Archive

variable {store : StateStore contents State} {anchor : Entry State Context}

/-- An entry that is refused because the state store has failed. -/
def StoreFails (store : StateStore contents State) (handover : Handover State Context) : Prop :=
  ∃ message before, handover.outcome = .error (.external message) ∧
    (store.store handover.entry.stateRoot handover.entry.state before).1 = .error message

/-- If its log is in order, the record of the archive holds the entries of the log, and only
its state store has refused entries. -/
def Continuous (rules : Rules State Block Context) (anchor : Entry State Context)
    (watched : Archive store × List (Handover State Context)) : Prop :=
  Orderly rules (· < slotLimit) anchor watched.2 →
    watched.1.record.Holds (taken watched.2) ∧
      ∀ handover ∈ watched.2, handover.outcome = .ok () ∨ StoreFails store handover

theorem continuous_start (contents : contents) :
    Continuous rules anchor
      (({ contents := contents } : Archive store), ([] : List (Handover State Context))) :=
  fun _ => ⟨Record.holds_nil, fun _ member => absurd member List.not_mem_nil⟩

/-- An entry in its turn is archived unless the state store fails. -/
theorem accept_of_continues
    {archive : Archive store} {entries : List (Entry State Context)} {entry : Entry State Context}
    (holds : archive.record.Holds entries) (continues : Continues rules anchor entries entry)
    (inRange : entry.slot < slotLimit) :
    (∃ next, archive.accept entry = (.ok (), next) ∧ next.record.Holds (entries ++ [entry])) ∨
    ∃ message next, archive.accept entry = (.error (.external message), next) ∧
      next.record = archive.record ∧
      (store.store entry.stateRoot entry.state archive.contents).1 = .error message := by
  have fits := Record.fits_of_continues holds continues
  rw [accept_of_fits inRange fits]
  generalize stored : store.store entry.stateRoot entry.state archive.contents = result
  obtain ⟨answer, contents⟩ := result
  cases answer with
  | ok => exact .inl ⟨_, rfl, holds.extend fits⟩
  | error message => exact .inr ⟨message, _, rfl, rfl, rfl⟩

theorem continuous_watching
    (entry : Entry State Context) (canonical : Bool)
    (watched : Archive store × List (Handover State Context))
    (continuous : Continuous rules anchor watched) :
    Continuous rules anchor (watching receive entry canonical watched).2 := by
  obtain ⟨archive, log⟩ := watched
  intro orderly
  obtain ⟨before, inTurn⟩ : _ ∧ _ := Orderly.of_concat orderly
  obtain ⟨holds, stopped⟩ := continuous before
  have earlier : ∀ {outcome : Except Error Unit},
      (outcome = .ok () ∨ StoreFails store (⟨entry, canonical, outcome⟩ : Handover State Context)) →
      ∀ handover ∈ log ++ [⟨entry, canonical, outcome⟩],
        handover.outcome = .ok () ∨ StoreFails store handover := by
    intro outcome last handover member
    rcases List.mem_append.1 member with old | new
    · exact stopped handover old
    · rw [List.mem_singleton.1 new]
      exact last
  cases canonical with
  | false =>
    refine ⟨?_, earlier (.inl rfl)⟩
    simp only [watching, receive_orphan, taken_concat, Bool.false_and]
    exact holds
  | true =>
    obtain ⟨continues, inRange⟩ := inTurn rfl
    rcases accept_of_continues holds continues inRange with
      ⟨next, accepted, holdsNext⟩ | ⟨message, next, refused, sameRecord, failed⟩
    · simp only [watching, receive, if_true, accepted, taken_concat]
      exact ⟨holdsNext, earlier (.inl rfl)⟩
    · simp only [watching, receive, if_true, refused, taken_concat, sameRecord]
      exact ⟨holds, earlier (.inr ⟨message, archive.contents, rfl, failed⟩)⟩

end Archive

/-- The record with an entry appended, or as it is if the entry does not go on where it ends. -/
def Record.appendEntry (record : Record) (entry : Entry State Context) : Record :=
  let checked := do
    let step ← entry.step
    let skips ← record.checkNext step entry.linkRoot
    return (step, skips)
  match checked with
  | .error _ => record
  | .ok (step, skips) => record.append step skips entry.row

def Record.ofEntries (entries : List (Entry State Context)) : Record :=
  entries.foldl Record.appendEntry {}

theorem Record.ofEntries_concat
    (entries : List (Entry State Context)) (entry : Entry State Context) :
    ofEntries (entries ++ [entry]) = (ofEntries entries).appendEntry entry := by
  simp [ofEntries]

namespace Archive

variable {store : StateStore contents State}

/-- The record has been made of the entries that the archive took. -/
def Transcribes (watched : Archive store × List (Handover State Context)) : Prop :=
  watched.1.record = .ofEntries (taken watched.2)

theorem record_of_accept
    {archive next : Archive store} {entry : Entry State Context} {outcome : Except Error Unit}
    (accepted : archive.accept entry = (outcome, next)) :
    next.record = if outcome.isOk then archive.record.appendEntry entry else archive.record := by
  unfold accept at accepted
  unfold Record.appendEntry
  dsimp only at accepted ⊢
  generalize (do
    let step ← entry.step
    let skips ← archive.record.checkNext step entry.linkRoot
    return (step, skips) : Except Error (Step × Bool)) = checked at accepted ⊢
  cases checked with
  | error error =>
    cases accepted
    rfl
  | ok found =>
    dsimp only at accepted
    split at accepted
    next =>
      cases accepted
      rfl
    next =>
      cases accepted
      rfl

theorem transcribes_watching
    (entry : Entry State Context) (canonical : Bool)
    (watched : Archive store × List (Handover State Context)) (transcribes : Transcribes watched) :
    Transcribes (watching receive entry canonical watched).2 := by
  obtain ⟨archive, log⟩ := watched
  have same : archive.record = .ofEntries (taken log) := transcribes
  cases canonical with
  | false =>
    simp only [Transcribes, watching, receive_orphan, taken_concat, Bool.false_and]
    exact same
  | true =>
    generalize offered : archive.accept entry = result
    obtain ⟨outcome, next⟩ := result
    have recorded := record_of_accept offered
    simp only [Transcribes, watching, receive, if_true, offered, taken_concat, Bool.true_and]
    cases outcome with
    | ok => exact recorded.trans (same ▸ (Record.ofEntries_concat _ _).symm)
    | error => exact recorded.trans same

end Archive

end BeaconChain
