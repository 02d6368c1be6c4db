import BeaconChain.Proofs.Chain.Run
import BeaconChain.Rules.Scripted

/-!
# Migration to the archive

What leaves the recent chain as canonical is gapless, whatever its receivers refuse.  The
archive therefore refuses an entry only because its state store has failed.
-/

namespace BeaconChain

variable {preset : Preset} {State Block Context contents : Type}
  {rules : Rules State Block Context}

namespace Chain

variable {store : StateStore contents State} {anchor : Entry State Context}

/-- A block of a slot before the last two steps. -/
def Call.InRange (rules : Rules State Block Context) : Call Block contents → Prop
  | .addBlock block _ => rules.blockSlot block < slotLimit
  | _ => True

/-- The entries of the recent chain go on where the archive ends. -/
structure Joined (anchor : Entry State Context) (chain : Chain preset rules store)
    (log : List (Handover State Context)) : Prop where
  goesOn : RecentChain.GoesOn (· < slotLimit) anchor chain.recent log
  continuous : Archive.Continuous rules anchor (chain.archive, log)

theorem Joined.refused
    {chain : Chain preset rules store} {log : List (Handover State Context)}
    (joined : Joined anchor chain log) :
    ∀ handover ∈ log, handover.outcome = .ok () ∨ Archive.StoreFails store handover := by
  obtain ⟨_, lineage⟩ := joined.goesOn
  exact (joined.continuous lineage.orderly).2

theorem Joined.addBlock
    {chain : Chain preset rules store} {log : List (Handover State Context)}
    (joined : Joined anchor chain log) {block : Block} (interrupted : List Nat → Bool)
    (inRange : rules.blockSlot block < slotLimit) :
    Joined anchor (chain.addBlock block interrupted).2
      (chain.noted log (.addBlock block interrupted)) where
  goesOn := joined.goesOn.addBlock_noted block interrupted Archive.receive chain.archive
    fun _ notLater => Nat.lt_of_le_of_lt notLater inRange
  continuous := by
    have kept := RecentChain.addBlock_keeps chain.recent block interrupted
      (watching Archive.receive) (chain.archive, log) Archive.continuous_watching joined.continuous
    have same := RecentChain.addBlock_watching_state chain.recent block interrupted
      Archive.receive chain.archive log
    simp only [Chain.addBlock, noted, RecentChain.noted]
    rw [← same]
    exact kept

theorem Run.joined
    {start chain : Chain preset rules store} {log : List (Handover State Context)}
    (run : Run (fun _ call => call.InRange rules) start chain log)
    (begins : Joined anchor start []) :
    Joined anchor chain log :=
  run.keeps (Joined anchor) begins
    (fun _ _ _ joined recounts => ⟨joined.goesOn.recounts recounts, joined.continuous⟩)
    (fun _ _ pin _ joined => ⟨joined.goesOn.setPin pin, joined.continuous⟩)
    (fun _ _ joined => ⟨joined.goesOn.clearPin, joined.continuous⟩)
    (fun _ _ _ _ joined => ⟨joined.goesOn, joined.continuous⟩)
    (fun _ _ _ interrupted inRange joined => joined.addBlock interrupted inRange)

theorem ofAnchor?_joined
    {limits : Limits} {root parentRoot : Root} {state : State} {before : contents}
    {start : Chain preset rules store}
    (started : ofAnchor? limits root parentRoot state before = .ok start)
    (inRange : rules.stateSlot state < slotLimit) :
    ∃ anchor, start.recent.earliest? = some anchor ∧ Joined anchor start [] := by
  obtain ⟨recent, recentStarted, made⟩ := exists_of_bind_eq_ok started
  cases made
  obtain ⟨anchor, isAnchor, goesOn⟩ :=
    RecentChain.ofAnchor?_goesOn (· < slotLimit) recentStarted inRange
  exact ⟨anchor, isAnchor, goesOn, Archive.continuous_start before⟩

end Chain

/-- In every run of a recent chain, whatever its receivers refuse, the canonical entries that
they accepted begin with the anchor, and a single transition leads from each one to the
next.  In every run of a whole chain whose slots are in range, the archive has refused an
entry only because its state store had failed. -/
theorem migration_gapless :
    (∀ (limits : Limits) (root parentRoot : Root) (state : State)
      (permits : RecentChain preset rules → RecentChain.Call State Block Context → Prop)
      (start chain : RecentChain preset rules) (log : List (Handover State Context)),
      RecentChain.ofAnchor? limits root parentRoot state = .ok start →
      RecentChain.Run permits start chain log →
      ∃ anchor, start.earliest? = some anchor ∧ Gapless rules anchor (taken log)) ∧
    ∀ (contents : Type) (store : StateStore contents State) (limits : Limits)
      (root parentRoot : Root) (state : State) (before : contents)
      (start chain : Chain preset rules store) (log : List (Handover State Context)),
      Chain.ofAnchor? limits root parentRoot state before = .ok start →
      rules.stateSlot state < slotLimit →
      Chain.Run (fun _ call => call.InRange rules) start chain log →
      (∃ anchor, start.recent.earliest? = some anchor ∧ Gapless rules anchor (taken log)) ∧
      ∀ handover ∈ log, handover.outcome = .ok () ∨ Archive.StoreFails store handover := by
  constructor
  · intro limits root parentRoot state permits start chain log started run
    obtain ⟨anchor, isAnchor, begins⟩ :=
      RecentChain.ofAnchor?_goesOn (fun _ => True) started trivial
    exact ⟨anchor, isAnchor, (run.goesOn begins fun _ _ _ => trivial).gapless⟩
  · intro contents store limits root parentRoot state before start chain log started inRange run
    obtain ⟨anchor, isAnchor, begins⟩ := Chain.ofAnchor?_joined started inRange
    have joined := run.joined begins
    exact ⟨⟨anchor, isAnchor, joined.goesOn.gapless⟩, joined.refused⟩

/-- A receiver with room for a number of entries. -/
def takeAtMost : EntryReceiver State Context Nat := fun _ _ room =>
  match room with
  | 0 => (.error (.external "no room left"), 0)
  | room + 1 => (.ok (), room)

def trialAnchor : ScriptedState := { slot := 0, latest := ⟨10⟩, balances := [32] }

def trialStart : Chain .minimal (Scripted.rules []) StateStore.memory where
  recent := {
    limits := .minimal
    choice := .ofAnchor ⟨⟨10⟩, 0⟩ ⟨9⟩ ⟨0, ⟨10⟩⟩ ⟨0, ⟨10⟩⟩ [32]
    pool := ({ anchorSlot := 0 } : Pool ScriptedState Nat).insert {
      slot := 0, blockRoot := ⟨10⟩, parentRoot := some ⟨9⟩, stateRoot := trialAnchor.root
      context := 1, state := trialAnchor } }
  archive := { contents := {} }

/-- A block above the anchor, one that finalizes it after an empty slot, and one above that,
which finalizes it once more. -/
def trialBlocks : List ScriptedBlock :=
  [{ slot := 1, root := ⟨11⟩, parentRoot := ⟨10⟩ },
   { slot := 3, root := ⟨12⟩, parentRoot := ⟨11⟩, justified := some ⟨1, ⟨11⟩⟩,
     finalized := some ⟨1, ⟨11⟩⟩ },
   { slot := 4, root := ⟨13⟩, parentRoot := ⟨12⟩ }]

/-- The calls that add the blocks to a recent chain, with room for two entries at first. -/
def trialCalls : List (RecentChain.Call ScriptedState ScriptedBlock Nat) :=
  (trialBlocks.zip [0, 2, 9]).map fun (block, room) =>
    .addBlock block (fun _ => false) takeAtMost room

theorem migration_gapless_trial :
    (∃ (chain : RecentChain .minimal (Scripted.rules [])) (log : List (Handover ScriptedState Nat)),
      RecentChain.Run (fun _ call => call ∈ trialCalls) trialStart.recent chain log ∧
      log.map (fun handover => (handover.entry.ref, handover.outcome.isOk)) =
        [(⟨⟨10⟩, 0⟩, true), (⟨⟨10⟩, 1⟩, true), (⟨⟨11⟩, 1⟩, false), (⟨⟨11⟩, 1⟩, true),
          (⟨⟨11⟩, 2⟩, true)] ∧
      ∃ anchor, trialStart.recent.earliest? = some anchor ∧
        Gapless (Scripted.rules []) anchor (taken log)) ∧
    ∃ (chain : Chain .minimal (Scripted.rules []) StateStore.memory)
      (log : List (Handover ScriptedState Nat)),
      Chain.Run (fun _ call => call.InRange (Scripted.rules [])) trialStart chain log ∧
      (taken log).map Entry.ref = [⟨⟨10⟩, 0⟩, ⟨⟨10⟩, 1⟩, ⟨⟨11⟩, 1⟩, ⟨⟨11⟩, 2⟩] ∧
      ∀ handover ∈ log, handover.outcome = .ok () ∨
        Archive.StoreFails StateStore.memory handover := by
  have recentRun : RecentChain.Run (fun _ call => call ∈ trialCalls) trialStart.recent _ _ :=
    .call (.call (.call .start trialCalls[0] (List.getElem_mem _)) trialCalls[1]
      (List.getElem_mem _)) trialCalls[2] (List.getElem_mem _)
  have wholeRun : Chain.Run (fun _ call => call.InRange (Scripted.rules [])) trialStart _ _ :=
    .call (.call (.call .start (.addBlock trialBlocks[0] fun _ => false)
      (show 1 < slotLimit by decide)) (.addBlock trialBlocks[1] fun _ => false)
      (show 3 < slotLimit by decide)) (.addBlock trialBlocks[2] fun _ => false)
      (show 4 < slotLimit by decide)
  constructor
  · refine ⟨_, _, recentRun, by decide, ?_⟩
    exact migration_gapless.1 .minimal ⟨10⟩ ⟨9⟩ trialAnchor _ _ _ _ rfl recentRun
  · refine ⟨_, _, wholeRun, by decide, ?_⟩
    exact (migration_gapless.2 _ _ .minimal ⟨10⟩ ⟨9⟩ trialAnchor {} _ _ _ rfl (by decide)
      wholeRun).2

end BeaconChain
