import BeaconChain.Proofs.Archive.Continuity
import BeaconChain.Proofs.RecentChain.Registry

/-!
# States in the store

A lawful store returns what was stored under a root, also after it has failed under another
one.  Where roots are registered, the archive then has the states of all entries that it took.
-/

namespace BeaconChain

variable {State Block Context contents : Type} {rules : Rules State Block Context}

namespace StateStore

/-- A store returns what was stored under a root, whatever happens under other roots. -/
structure Lawful (store : StateStore contents State) : Prop where
  stored : ∀ {root : Root} {state : State} {before after : contents},
    store.store root state before = (.ok (), after) → store.get root after = .ok (some state)
  others : ∀ {root other : Root} {kept : State} {before : contents} (state : State), root ≠ other →
    store.get other before = .ok (some kept) →
    store.get other (store.store root state before).2 = .ok (some kept)

theorem lawful_memory : (memory : StateStore (Table Root State) State).Lawful where
  stored done := by
    cases done
    exact get_memory_insert_self _ _ _
  others state different found := by
    simpa [memory, Table.find?_insert_of_ne _ state different] using found

/-- The packed store is lawful if what was packed can be unpacked. -/
theorem lawful_packed
    {codec : Codec State}
    (unpacks : ∀ state bytes, codec.pack state = .ok bytes → codec.unpack bytes = .ok state) :
    (packed codec).Lawful where
  stored {root state before after} done := by
    simp only [packed] at done
    split at done
    next => cases done
    next bytes isPacked =>
      cases done
      simp only [packed, Table.find?_insert_self, unpacks state bytes isPacked]
      rfl
  others state different found := by
    cases isPacked : codec.pack state with
    | error message => simpa only [packed, isPacked] using found
    | ok bytes =>
      simpa only [packed, isPacked, Table.find?_insert_of_ne _ bytes different] using found

end StateStore

namespace Archive

variable {store : StateStore contents State} {registry : Registry} {anchor : Entry State Context}

/-- The store has the states of the entries under their roots. -/
def Stores (archive : Archive store) (entries : List (Entry State Context)) : Prop :=
  ∀ entry ∈ entries, store.get entry.stateRoot archive.contents = .ok (some entry.state)

theorem Stores.state_eq
    {archive : Archive store} {entries : List (Entry State Context)} {entry : Entry State Context}
    (stores : archive.Stores entries) (member : entry ∈ entries) :
    archive.state entry.stateRoot = .ok entry.state := by
  simp only [state, stores entry member]
  rfl

/-- If its log is in order and registered, the archive has the states of the entries that it
took. -/
def Complete (registry : Registry) (rules : Rules State Block Context)
    (anchor : Entry State Context) (watched : Archive store × List (Handover State Context)) :
    Prop :=
  Orderly rules (· < slotLimit) anchor watched.2 →
    (∀ handover ∈ watched.2, handover.canonical = true → registry.Lists handover.entry) →
    watched.1.Stores (taken watched.2)

theorem complete_start (contents : contents) :
    Complete registry rules anchor
      (({ contents := contents } : Archive store), ([] : List (Handover State Context))) :=
  fun _ _ _ member => absurd member List.not_mem_nil

/-- No state is stored twice under one root. -/
theorem stateRoot_ne_of_line
    {entries : List (Entry State Context)} {entry other : Entry State Context}
    (recorded : registry.Line rules anchor (entries ++ [entry])) (member : other ∈ entries) :
    entry.stateRoot ≠ other.stateRoot := by
  intro same
  have increasing := increasing_of_isChain recorded.gapless.isChain
  have earlier := (List.pairwise_append.1 increasing).2.2 other member entry List.mem_cons_self
  rw [recorded.eq_of_stateRoot_eq (List.mem_append_right _ List.mem_cons_self)
    (List.mem_append_left _ member) same] at earlier
  exact Nat.lt_irrefl _ earlier

theorem accept_stores
    {archive next : Archive store} {entries : List (Entry State Context)}
    {entry : Entry State Context}
    {outcome : Except Error Unit} (lawful : store.Lawful) (stores : archive.Stores entries)
    (recorded : registry.Line rules anchor (entries ++ [entry]))
    (accepted : archive.accept entry = (outcome, next)) :
    next.Stores entries ∧ (outcome = .ok () → next.Stores (entries ++ [entry])) := by
  unfold accept at accepted
  dsimp only at accepted
  split at accepted
  next =>
    cases accepted
    exact ⟨stores, nofun⟩
  next =>
    have kept : ∀ other ∈ entries, store.get other.stateRoot
        (store.store entry.stateRoot entry.state archive.contents).2 = .ok (some other.state) :=
      fun other member => lawful.others _ (stateRoot_ne_of_line recorded member)
        (stores other member)
    split at accepted
    next failed =>
      cases accepted
      rw [failed] at kept
      exact ⟨kept, nofun⟩
    next done =>
      cases accepted
      rw [done] at kept
      refine ⟨kept, fun _ other member => ?_⟩
      rcases List.mem_append.1 member with old | new
      · exact kept other old
      · rw [List.mem_singleton.1 new]
        exact lawful.stored done

theorem complete_watching
    (lawful : store.Lawful) (begins : anchor.hasBlock = true) (entry : Entry State Context)
    (canonical : Bool) (watched : Archive store × List (Handover State Context))
    (complete : Complete registry rules anchor watched) :
    Complete registry rules anchor (watching receive entry canonical watched).2 := by
  obtain ⟨archive, log⟩ := watched
  intro orderly registered
  obtain ⟨before, inTurn⟩ : _ ∧ _ := Orderly.of_concat orderly
  have stores := complete before fun handover member =>
    registered handover (List.mem_append_left _ member)
  cases canonical with
  | false =>
    simp only [watching, receive_orphan, taken_concat, Bool.false_and]
    exact stores
  | true =>
    have recorded : registry.Line rules anchor (taken log ++ [entry]) := {
      gapless := before.gapless.concat (inTurn rfl).1
      begins := begins
      listed := fun other member => by
        rcases List.mem_append.1 member with old | new
        · obtain ⟨handover, inLog, accepted, rfl⟩ := mem_taken_iff.1 old
          exact registered handover (List.mem_append_left _ inLog)
            (Bool.and_eq_true_iff.1 accepted).1
        · rw [List.mem_singleton.1 new]
          exact registered _ (List.mem_append_right _ List.mem_cons_self) rfl }
    generalize offered : archive.accept entry = result
    obtain ⟨outcome, next⟩ := result
    obtain ⟨kept, added⟩ := accept_stores lawful stores recorded offered
    simp only [watching, receive, if_true, offered, taken_concat, Bool.true_and]
    cases outcome with
    | ok => exact added rfl
    | error => exact kept

end Archive

end BeaconChain
