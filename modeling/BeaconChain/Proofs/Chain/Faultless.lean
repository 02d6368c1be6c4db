import BeaconChain.Proofs.Archive.Bounds
import BeaconChain.Proofs.Ballots
import BeaconChain.Proofs.Chain.Snapshot
import BeaconChain.Proofs.RecentChain.Faultless
import BeaconChain.Proofs.RecentChain.Passages

/-!
# No call meets a fault

As long as all slots are in range, no call on the whole chain and no step of a walk meets a fault,
whatever the transitions and the state store answer.  Nor do the operations in between: what they
take for granted is there.
-/

namespace BeaconChain

variable {preset : Preset} {State Block Context contents : Type}
  {rules : Rules State Block Context} {store : StateStore contents State}

theorem Entry.faultless_step {entry : Entry State Context} (inRange : entry.slot < slotLimit) :
    Faultless entry.step :=
  .of_eq_ok (Entry.step_of_lt inRange)

section Steps

variable {record : Record} {recent : List (Entry State Context)}

theorem Chain.faultless_archivedAt? (bounded : record.Bounded) (step : Step) :
    Faultless (archivedAt? record step : Except Error (Option (ChainEntry State Context))) := by
  unfold archivedAt?
  split
  · exact .ok _
  · exact (bounded.faultless_trailingGap? step).bind fun _ _ => .ok _

/-- Any step may be asked for, even one that stands before or behind all entries. -/
theorem Chain.faultless_canonicalAt?
    (bounded : record.Bounded) (inRange : ∀ entry ∈ recent, entry.slot < slotLimit) (step : Step) :
    Faultless (canonicalAt? recent record step) := by
  have counts : Faultless (countLeading (Entry.reaches step) recent) :=
    .countLeading fun entry member =>
      .of_eq_ok (Entry.reaches_eq (inRange entry member) step.number)
  cases counted : countLeading (Entry.reaches step) recent with
  | error error =>
    have failed : canonicalAt? recent record step = .error error := by
      change (countLeading (Entry.reaches step) recent >>= _) = _
      rw [counted]
      rfl
    rw [failed]
    exact .error (counts error counted)
  | ok count =>
    rw [canonicalAt?_eq counted]
    cases last : (recent.take count).getLast? with
    | none => exact faultless_archivedAt? bounded step
    | some entry =>
      have member := List.mem_of_mem_take (List.mem_of_getLast? last)
      apply (Entry.faultless_step (inRange entry member)).bind
      intro entryStep _
      split
      · exact .ok _
      · split
        · exact .ok _
        · exact faultless_archivedAt? bounded step

end Steps

/-- The entries and the end of a walk are in range. -/
structure Walk.InRange (walk : Walk State Context) : Prop where
  entries : ∀ entry ∈ walk.entries, entry.slot < slotLimit
  stop : walk.stop.number < 2 * slotLimit

namespace Walk.InRange

variable {walk : Walk State Context} {record : Record}

theorem faultless_visit (inRange : walk.InRange) (bounded : record.Bounded) :
    Faultless (walk.visit record) := by
  unfold visit
  by_cases ended : walk.stop < walk.next
  · rw [if_pos ended]
    exact .ok none
  · rw [if_neg ended]
    have notBehind : walk.next.number ≤ walk.stop.number := Nat.le_of_not_lt ended
    have stop := inRange.stop
    have limits : Step.limit = 2 * slotLimit + 2 := rfl
    apply (Faultless.of_eq_ok (Step.advance_of_lt (by omega))).bind
    intro next _
    exact (Chain.faultless_canonicalAt? bounded inRange.entries walk.next).bind fun _ _ => .ok _

/-- What is missing at a step is told without a fault, and the walk stays in range. -/
theorem of_visit
    {item : Walk.Item State Context} {next : Walk State Context} (inRange : walk.InRange)
    (visited : walk.visit record = .ok (some (item, next))) : Faultless item ∧ next.InRange := by
  unfold visit at visited
  split at visited
  next => cases visited
  next =>
    obtain ⟨step, _, visited⟩ := exists_of_bind_eq_ok visited
    obtain ⟨found, _, visited⟩ := exists_of_bind_eq_ok visited
    cases visited
    refine ⟨?_, inRange.entries, inRange.stop⟩
    cases found with
    | none => exact .error rfl
    | some entry => exact .ok entry

end Walk.InRange

namespace Chain

variable {chain start : Chain preset rules store} {log : List (Handover State Context)}
  {anchor : Entry State Context} {bound : Nat}

/-- A call whose slots are in range and whose voters are below a bound. -/
def Call.InBounds (bound : Nat) (chain : Chain preset rules store) : Call Block contents → Prop
  | .addBlock block _ => rules.blockSlot block < slotLimit
  | .addAttestation attestation => ∀ voters, chain.recent.votersOf attestation = .ok voters →
    ∀ voter ∈ voters, voter < bound
  | .bySlot slot => slot < slotLimit
  | .byStep step => step.slot < slotLimit
  | _ => True

theorem Call.InBounds.inRange {call : Call Block contents} (inBounds : call.InBounds bound chain) :
    call.InRange rules := by
  cases call with
  | addBlock block interrupted => exact inBounds
  | _ => trivial

theorem Run.inRange
    (run : Run (fun chain call => call.InBounds bound chain) start chain log) :
    Run (fun _ call => call.InRange rules) start chain log := by
  induction run with
  | start => exact .start
  | call _ call inBounds ih => exact ih.call call inBounds.inRange

/-- A call is answered without a fault. -/
def Answers (chain : Chain preset rules store) : Call Block contents → Prop
  | .addBlock block interrupted => Faultless (chain.addBlock block interrupted).1
  | .addAttestation attestation => Faultless (chain.addAttestation attestation).1
  | .setPin pin => Faultless (chain.setPin pin).1
  | .head => Faultless chain.head.1
  | .bySlot slot => Faultless (chain.bySlot? slot).1
  | .byStep step => Faultless (chain.byStep? step).1
  | .walk => Faultless chain.walk.1
  | .clearPin | .restock _ => True

namespace Joined

theorem recounts
    {recent : RecentChain preset rules} (joined : Joined anchor chain log)
    (recounts : chain.recent.Recounts recent) : Joined anchor { chain with recent := recent } log :=
  ⟨joined.goesOn.recounts recounts, joined.continuous⟩

theorem bounded (joined : Joined anchor chain log) : chain.archive.record.Bounded := by
  obtain ⟨_, lineage⟩ := joined.goesOn
  have orderly := lineage.orderly
  exact (joined.continuous orderly).1.bounded orderly.gapless.isChain orderly.slot_inRange

theorem slot_lt_of_canonical
    {entries : List (Entry State Context)} (joined : Joined anchor chain log)
    (canonical : chain.recent.canonicalChain.1 = .ok entries) :
    ∀ entry ∈ entries.reverse, entry.slot < slotLimit := by
  intro entry member
  obtain ⟨ref, held⟩ :=
    RecentChain.find?_of_mem_canonicalChain canonical entry (List.mem_reverse.1 member)
  exact joined.goesOn.stocked.allowed ref entry held

theorem faultless_addBlock
    {block : Block} (joined : Joined anchor chain log) (interrupted : List Nat → Bool)
    (inRange : rules.blockSlot block < slotLimit) :
    Faultless (chain.addBlock block interrupted).1 := by
  have outcome := (RecentChain.addBlock_alike (watching_alike Archive.receive) chain.recent block
    interrupted (show (chain.archive, log).1 = chain.archive from rfl)).outcome
  have answers := (joined.addBlock interrupted inRange).refused
  change Faultless (chain.recent.addBlock block interrupted Archive.receive chain.archive).1
  rw [← outcome]
  refine joined.goesOn.faultless_addBlock (fun _ _ => rfl) inRange rfl fun handover member => ?_
  -- the archive refuses an entry only with the error of its store
  rcases answers handover member with accepted | ⟨message, _, failed, _⟩
  · exact .of_eq_ok accepted
  · rw [failed]
    exact .error rfl

theorem faultless_bySlot?
    {slot : Nat} (joined : Joined anchor chain log) (inRange : slot < slotLimit) :
    Faultless (chain.bySlot? slot).1 := by
  have found : Faultless (chain.recent.bySlot? slot).1 :=
    (RecentChain.faultless_canonicalChain joined.goesOn.stocked.sound).map _
  apply found.bind
  intro entry _
  cases entry with
  | some entry => exact .ok _
  | none => exact (chain.archive.record.faultless_bySlot? inRange).bind fun _ _ => .ok _

theorem faultless_byStep? (joined : Joined anchor chain log) (step : Step) :
    Faultless (chain.byStep? step).1 := by
  apply (RecentChain.faultless_canonicalChain joined.goesOn.stocked.sound).bind
  intro entries canonical
  exact faultless_canonicalAt? joined.bounded (joined.slot_lt_of_canonical canonical) step

/-- The head that a walk ends at has a step. -/
theorem step_of_head
    {head : Entry State Context} {recent : RecentChain preset rules}
    (joined : Joined anchor chain log) (found : chain.recent.head = (.ok head, recent)) :
    head.slot < slotLimit ∧ head.step = .ok ⟨head.number⟩ := by
  obtain ⟨ref, held⟩ := RecentChain.find?_of_head found
  have inRange := joined.goesOn.stocked.allowed ref head held
  exact ⟨inRange, Entry.step_of_lt inRange⟩

/-- A walk is begun without a fault, and it is in range. -/
theorem walk_spec (joined : Joined anchor chain log) :
    Faultless chain.walk.1 ∧ ∀ walk, chain.walk.1 = .ok walk → walk.InRange := by
  have headFaultless := chain.recent.faultless_head
  have headRecounts := chain.recent.head_recounts
  unfold Chain.walk
  split
  next error _ failed =>
    rw [failed] at headFaultless
    exact ⟨.error (headFaultless error rfl), nofun⟩
  next head recent found =>
    obtain ⟨inRange, stepOf⟩ := joined.step_of_head found
    rw [found] at headRecounts
    have counted := joined.recounts headRecounts
    have canonicalFaultless : Faultless recent.canonicalChain.1 :=
      RecentChain.faultless_canonicalChain counted.goesOn.stocked.sound
    rw [stepOf]
    constructor
    · apply canonicalFaultless.bind
      intro entries canonical
      apply joined.bounded.faultless_start?.bind
      intro start _
      have inRange := counted.slot_lt_of_canonical canonical
      cases start with
      | some start => exact .ok _
      | none =>
        cases oldestFirst : entries.reverse with
        | nil => exact .ok _
        | cons oldest rest =>
          have member : oldest ∈ entries.reverse := oldestFirst ▸ List.mem_cons_self
          exact (Entry.faultless_step (inRange oldest member)).bind fun _ _ => .ok _
    · intro walk begun
      obtain ⟨entries, canonical, begun⟩ := exists_of_bind_eq_ok begun
      obtain ⟨archived, _, begun⟩ := exists_of_bind_eq_ok begun
      have made : walk.entries = entries.reverse ∧ walk.stop = ⟨head.number⟩ := by
        split at begun
        · cases begun
          exact ⟨rfl, rfl⟩
        · obtain ⟨start, _, made⟩ := exists_of_bind_eq_ok begun
          cases made
          exact ⟨rfl, rfl⟩
        · cases begun
          exact ⟨rfl, rfl⟩
      obtain ⟨isEntries, isStop⟩ := made
      have bounds := head.number_bounds
      refine ⟨isEntries ▸ counted.slot_lt_of_canonical canonical, ?_⟩
      rw [isStop]
      show head.number < 2 * slotLimit
      omega

theorem answers {call : Call Block contents} (joined : Joined anchor chain log)
    (inBounds : call.InBounds bound chain) : chain.Answers call := by
  cases call with
  | addBlock block interrupted => exact joined.faultless_addBlock interrupted inBounds
  | addAttestation attestation => exact chain.recent.faultless_addAttestation attestation
  | setPin pin => exact chain.recent.faultless_setPin pin
  | clearPin => trivial
  | head => exact chain.recent.faultless_head
  | bySlot slot => exact joined.faultless_bySlot? inBounds
  | byStep step => exact joined.faultless_byStep? step
  | walk => exact joined.walk_spec.1
  | restock contents => trivial

theorem faultless_genesis? (joined : Joined anchor chain log) : Faultless chain.genesis? := by
  apply joined.bounded.faultless_start?.bind
  intro start _
  cases start with
  | none => exact .ok _
  | some step => exact .ok _

theorem faultless_closest?
    {slot : Nat} (joined : Joined anchor chain log) (inRange : slot < slotLimit) (root : Root) :
    Faultless (chain.closest? root slot) := by
  unfold Chain.closest?
  split
  · exact .ok _
  · exact (joined.bounded.faultless_closest? inRange root).map _

end Joined

theorem faultless_byBlockSlot?
    {slot : Nat} (chain : Chain preset rules store) (root : Root) (inRange : slot < slotLimit) :
    Faultless (chain.byBlockSlot? root slot) := by
  unfold Chain.byBlockSlot?
  split
  · exact .ok _
  · exact (chain.archive.record.faultless_byBlockSlot? root inRange).map _

end Chain

theorem Archive.faultless_state (archive : Archive store) (root : Root) :
    Faultless (archive.state root) := by
  apply (Faultless.ofOutside _).bind
  intro state _
  cases state with
  | none => exact .error rfl
  | some state => exact .ok state

namespace Chain

variable {chain start : Chain preset rules store} {log : List (Handover State Context)}
  {anchor : Entry State Context} {bound : Nat}

theorem faultless_stateOf (chain : Chain preset rules store) :
    ∀ item : ChainEntry State Context, Faultless (chain.stateOf item)
  | .recent _ => .ok _
  | .gap _ _ => .ok _
  | .archived entry => chain.archive.faultless_state entry.stateRoot

theorem faultless_contextOf (chain : Chain preset rules store) :
    ∀ item : ChainEntry State Context, Faultless (chain.contextOf item)
  | .recent _ => .ok _
  | .gap _ _ => .ok _
  | .archived entry =>
    (chain.archive.faultless_state entry.stateRoot).bind fun _ _ => .ofOutside _

/-! ## Runs -/

/-- However visits and calls alternate, a walk meets no fault. -/
theorem faultless_visitAmid
    {steps : List (Option (Call Block contents))} {walk : Walk State Context}
    (begins : Joined anchor start [])
    (run : Run (fun _ call => call.InRange rules) start chain log)
    (allowed : ∀ call, some call ∈ steps → call.InRange rules) (inRange : walk.InRange) :
    Faultless (visitAmid steps chain walk) ∧
      ∀ items last, visitAmid steps chain walk = .ok (items, last) →
        ∀ item ∈ items, Faultless item := by
  induction steps generalizing chain log walk with
  | nil =>
    refine ⟨.ok _, fun items last done item member => ?_⟩
    cases done
    cases member
  | cons step rest ih =>
    have restAllowed : ∀ call, some call ∈ rest → call.InRange rules :=
      fun call member => allowed call (List.mem_cons_of_mem step member)
    cases step with
    | some call => exact ih (run.call call (allowed call List.mem_cons_self)) restAllowed inRange
    | none =>
      have visitFaultless := inRange.faultless_visit (run.joined begins).bounded
      rw [visitAmid]
      cases visited : walk.visit chain.archive.record with
      | error error =>
        refine ⟨.error (visitFaultless error visited), fun items last done => ?_⟩
        cases done
      | ok met =>
        cases met with
        | none => exact ih run restAllowed inRange
        | some met =>
          obtain ⟨item, next⟩ := met
          obtain ⟨itemFaultless, nextInRange⟩ := inRange.of_visit visited
          obtain ⟨restFaultless, others⟩ := ih run restAllowed nextInRange
          refine ⟨restFaultless.bind fun _ _ => .ok _, fun items last done => ?_⟩
          obtain ⟨_, met, done⟩ := exists_of_bind_eq_ok done
          cases met
          obtain ⟨⟨found, after⟩, doneToo, made⟩ := exists_of_bind_eq_ok done
          cases made
          intro other member
          rcases List.mem_cons.1 member with rfl | later
          · exact itemFaultless
          · exact others _ _ doneToo other later

theorem Joined.passes_perform
    {call : Call Block contents} (joined : Joined anchor chain log)
    (inBounds : call.InBounds bound chain) :
    chain.recent.choice.Passes slotLimit bound (chain.perform call).recent.choice := by
  have stable := ForkChoice.stable_passes slotLimit bound chain.recent.choice
  have passes : chain.recent.choice.Passes slotLimit bound chain.recent.choice := .refl _
  cases call with
  | addBlock block interrupted =>
    refine stable.addBlock passes Archive.receive chain.archive fun draft drafted => ?_
    obtain ⟨replayed, ofBlock⟩ := RecentChain.slot_le_of_draft joined.goesOn.stocked drafted
    exact ⟨fun entry member => Nat.lt_of_le_of_lt (replayed entry member) inBounds,
      Nat.lt_of_le_of_lt (Nat.le_of_eq ofBlock) inBounds⟩
  | addAttestation attestation => exact stable.addAttestation passes inBounds
  | setPin pin => exact stable.setPin _ pin passes
  | clearPin => exact stable.clearPin _ passes
  | head => exact stable.headEntry passes
  | bySlot slot => exact stable.canonicalChain passes
  | byStep step => exact stable.canonicalChain passes
  | restock contents => exact passes
  | walk =>
    have withHead := stable.headEntry passes
    rcases chain.walk_asks with same | same
    · rw [perform, same]
      exact withHead
    · rw [perform, same]
      exact stable.canonicalChain withHead

theorem Run.passes
    (run : Run (fun chain call => call.InBounds bound chain) start chain log)
    (begins : Joined anchor start []) :
    start.recent.choice.Passes slotLimit bound chain.recent.choice := by
  induction run with
  | start => exact .refl start.recent.choice
  | call run call inBounds ih =>
    exact ih.trans ((run.inRange.joined begins).passes_perform inBounds)

/-- Whatever is called next is answered without a fault, and so is everything that may be asked. -/
structure Steady (bound : Nat) (chain : Chain preset rules store) : Prop where
  calls : ∀ call : Call Block contents, call.InBounds bound chain → chain.Answers call
  justified : Faultless chain.justified
  finalized : Faultless chain.finalized
  genesis : Faultless chain.genesis?
  byBlockSlot : ∀ root slot, slot < slotLimit → Faultless (chain.byBlockSlot? root slot)
  closest : ∀ root slot, slot < slotLimit → Faultless (chain.closest? root slot)
  states : ∀ item, Faultless (chain.stateOf item)
  contexts : ∀ item, Faultless (chain.contextOf item)
  /-- Whatever is called between the visits of a walk. -/
  walks : ∀ walk, chain.walk.1 = .ok walk → ∀ steps : List (Option (Call Block contents)),
    (∀ call, some call ∈ steps → call.InRange rules) →
      Faultless (visitAmid steps chain.walk.2 walk) ∧
      ∀ items last, visitAmid steps chain.walk.2 walk = .ok (items, last) →
        ∀ item ∈ items, Faultless item

/-- What the operations of a chain take for granted. -/
structure Contained (bound : Nat) (chain : Chain preset rules store) : Prop where
  /-- The trees on the way of a call are those that operations in range lead to. -/
  passes : ∀ call : Call Block contents, call.InBounds bound chain →
    chain.recent.choice.tree.Passes slotLimit (chain.perform call).recent.choice.tree
  trees : ∀ tree, chain.recent.choice.tree.Passes slotLimit tree →
    tree.Addressable ∧ tree.Within slotLimit
  /-- Votes are counted for the positions of the tree and for no others. -/
  tallies : ∀ tree, chain.recent.choice.tree.Passes slotLimit tree →
    ∀ (ballots : Ballots preset) oldBalances newBalances tally,
      ballots.tally tree oldBalances newBalances = .ok tally → tally.deltas.length = tree.size
  votes : chain.recent.choice.ballots.votes.length ≤ bound
  heads : ∀ node next, chain.recent.headNode = (.ok node, next) →
    ∃ position, next.choice.tree.position? node = some position
  /-- The state from which a block goes on is not later. -/
  preStates : ∀ root slot entry, chain.recent.closest? root slot = some entry → entry.slot ≤ slot
  /-- Every slot of a draft is inserted, and so is its block, and the pool does not grow when
  checkpoints are adopted. -/
  commits : ∀ block interrupted draft, rules.blockSlot block < slotLimit →
    chain.recent.choice.containsBlock (rules.blockRoot block) = false →
    chain.recent.draft block interrupted = .ok draft →
      draft.block.parentRoot = some draft.parentRoot ∧
      ∃ grown, chain.recent.commit draft = (.ok (), grown) ∧
        (grown.settle draft.block Archive.receive chain.archive).2.1.size ≤ grown.size
  steps : ∀ ref entry, chain.recent.pool.find? ref = some entry → entry.step = .ok ⟨entry.number⟩
  record : chain.archive.record.Addressable

theorem Joined.steady
    (joined : Joined anchor chain log) (begins : Joined anchor start [])
    (run : Run (fun _ call => call.InRange rules) start chain log) : chain.Steady bound where
  calls _ := joined.answers
  justified := chain.recent.faultless_checkpointEntry _
  finalized := chain.recent.faultless_checkpointEntry _
  genesis := joined.faultless_genesis?
  byBlockSlot root _ := chain.faultless_byBlockSlot? root
  closest root _ inRange := joined.faultless_closest? inRange root
  states := chain.faultless_stateOf
  contexts := chain.faultless_contextOf
  walks walk begun _ allowed :=
    faultless_visitAmid begins (run.call .walk trivial) allowed (joined.walk_spec.2 walk begun)

theorem Joined.contained
    (joined : Joined anchor chain log) (within : chain.recent.choice.tree.Within slotLimit)
    (votes : chain.recent.choice.ballots.votes.length ≤ bound) : chain.Contained bound where
  passes _ inBounds := (joined.passes_perform inBounds).tree
  trees tree passes :=
    ⟨(passes.sound joined.goesOn.stocked.sound).addressable, passes.within within⟩
  tallies tree passes ballots oldBalances newBalances tally done :=
    (Tally.countFrom_spec
      (passes.sound joined.goesOn.stocked.sound).toWellFormed (by simp) done).sized
  votes := votes
  heads node next found := ForkChoice.position?_of_head joined.goesOn.stocked.sound
    (RecentChain.head_of_headNode found).1
  preStates root slot entry := RecentChain.slot_le_of_closest? joined.goesOn.stocked
  commits block interrupted draft inRange isNew drafted := by
    obtain ⟨_, _, isDraft⟩ := RecentChain.exists_drafted joined.goesOn.stocked drafted
    obtain ⟨grown, committed, _⟩ := RecentChain.commit_grown joined.goesOn.stocked isNew drafted
      fun _ notLater => Nat.lt_of_le_of_lt notLater inRange
    refine ⟨isDraft.parent.trans (congrArg some isDraft.parentRoot.symm), grown, committed, ?_⟩
    exact RecentChain.size_settle_le rfl
  steps ref entry held := Entry.step_of_lt (joined.goesOn.stocked.allowed ref entry held)
  record := joined.bounded.addressable

end Chain

theorem Preset.startSlot_epochOf_le (preset : Preset) (slot : Nat) :
    preset.startSlot (preset.epochOf slot) ≤ slot :=
  Nat.le_trans (Nat.min_le_left _ _) (Nat.div_mul_le_self slot preset.slotsPerEpoch)

theorem RecentChain.anchorEpoch_le (preset : Preset) (slot : Nat) :
    anchorEpoch preset slot ≤ slot + 1 := by
  have epoch : preset.epochOf slot ≤ slot := Nat.div_le_self slot preset.slotsPerEpoch
  unfold anchorEpoch
  split <;> omega

theorem RecentChain.faultless_ofAnchor?
    (limits : Limits) (root parentRoot : Root) (state : State) :
    Faultless (ofAnchor? limits root parentRoot state : Except Error (RecentChain preset rules)) :=
  (Faultless.ofOutside _).bind fun _ _ => .ok _

theorem Chain.ofAnchor?_choice
    {limits : Limits} {root parentRoot : Root} {state : State} {before : contents}
    {start : Chain preset rules store}
    (started : ofAnchor? limits root parentRoot state before = .ok start) :
    start.recent.choice.tree.names = [⟨root, rules.stateSlot state⟩] ∧
      start.recent.choice.ballots.votes = [] := by
  obtain ⟨recent, recentStarted, made⟩ := exists_of_bind_eq_ok started
  cases made
  obtain ⟨context, _, made⟩ := exists_of_bind_eq_ok recentStarted
  cases made
  exact ⟨rfl, rfl⟩

/-- Where the slots of the anchor, of the blocks and of the look-ups are in range, and the voters
below a bound, a chain is started without a fault, and no sequence of calls leads to one, whatever
the transitions and the state store answer.  In every state of the chain what is committed can be
inserted, heads are in the tree, and whatever is looked up by its position is there. -/
theorem faultless_in_range
    {limits : Limits} {root parentRoot : Root} {state : State} {before : contents}
    (inRange : rules.stateSlot state < slotLimit) :
    Faultless (Chain.ofAnchor? limits root parentRoot state before :
      Except Error (Chain preset rules store)) ∧
    preset.startSlot (preset.epochOf (rules.stateSlot state)) ≤ rules.stateSlot state ∧
    RecentChain.anchorEpoch preset (rules.stateSlot state) ≤ greatestSlot ∧
    ∀ (bound : Nat) (start chain : Chain preset rules store) (log : List (Handover State Context)),
      Chain.ofAnchor? limits root parentRoot state before = .ok start →
      Chain.Run (fun chain call => call.InBounds bound chain) start chain log →
      chain.Steady bound ∧ chain.Contained bound := by
  refine ⟨?_, preset.startSlot_epochOf_le _, ?_, ?_⟩
  · exact (RecentChain.faultless_ofAnchor? limits root parentRoot state).bind fun _ _ => .ok _
  · have notLater := RecentChain.anchorEpoch_le preset (rules.stateSlot state)
    have limits : slotLimit < greatestSlot := by decide
    omega
  · intro bound start chain log started run
    obtain ⟨anchor, _, begins⟩ := Chain.ofAnchor?_joined started inRange
    obtain ⟨names, votes⟩ := Chain.ofAnchor?_choice started
    have joined := run.inRange.joined begins
    have passes := run.passes begins
    refine ⟨joined.steady begins run.inRange, joined.contained (passes.tree.within ?_) ?_⟩
    · intro ref member
      rw [names, List.mem_singleton] at member
      rw [member]
      exact inRange
    · have few := passes.votes
      rw [votes] at few
      simpa using few

/-- A vote of the only validator for the first of the blocks that are walked over. -/
def walkedAttestation : Attestation where
  bits := [true]
  data := { slot := 9, index := 0, blockRoot := ⟨11⟩, source := .zero, target := .zero }

/-- Calls between which the anchor and the slots above it become final. -/
theorem faultless_in_range_walkedBlocks :
    ∃ (chain : Chain .minimal (Scripted.rules []) StateStore.memory)
      (log : List (Handover ScriptedState Nat)),
      Chain.Run (fun chain call => call.InBounds 1 chain) trialStart chain log ∧
      (taken log).map Entry.ref =
        (List.range 7).map (⟨⟨10⟩, ·⟩) ++ [⟨⟨11⟩, 6⟩, ⟨⟨11⟩, 7⟩] ∧
      chain.recent.choice.ballots.votes.length = 1 ∧ chain.Steady 1 ∧ chain.Contained 1 := by
  have onlyVoter : ∀ voters, (trialStart.perform (.addBlock walkedBlocks[0] fun _ =>
      false)).recent.votersOf walkedAttestation = .ok voters → ∀ voter ∈ voters, voter < 1 := by
    intro voters known
    have only : voters = [0] := Except.ok.inj (known.symm.trans (by decide))
    simp [only]
  have run : Chain.Run (fun chain call => call.InBounds 1 chain) trialStart _ _ :=
    .call (.call (.call (.call (.call .start (.addBlock walkedBlocks[0] fun _ => false)
          (show 6 < slotLimit by decide)) (.addAttestation walkedAttestation) onlyVoter)
        (.setPin ⟨⟨11⟩, 6⟩) trivial) (.addBlock walkedBlocks[1] fun _ => false)
      (show 9 < slotLimit by decide)) .walk trivial
  have started : Chain.ofAnchor? .minimal ⟨10⟩ ⟨9⟩ trialAnchor {} = .ok trialStart := rfl
  have inRange : (Scripted.rules []).stateSlot trialAnchor < slotLimit := by decide
  obtain ⟨steady, contained⟩ := (faultless_in_range inRange).2.2.2 1 _ _ _ started run
  exact ⟨_, _, run, by decide, by decide, steady, contained⟩

end BeaconChain
