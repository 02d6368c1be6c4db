import BeaconChain.Proofs.Chain.Walk
import BeaconChain.Proofs.RecentChain.NextInLine

/-!
# Walks amid other calls

A walk keeps the recent entries of the moment at which it was begun, and looks the others up as it
reaches them.  Entries may move to the archive in the meantime.  The first of them is the oldest
one that the walk has kept, so that in front of it the archive stays as it was, but for the gap
behind its end, which may have become a row; and what the walk tells of a gap and of the row is the
same.
-/

namespace BeaconChain

variable {preset : Preset} {State Block Context contents : Type}
  {rules : Rules State Block Context}

section Later

variable {record later : Record} {archived recent line : List (Entry State Context)}
  {first head oldest : Entry State Context} {number : Nat}

/-- A record in which the entries go on with the oldest recent one leads to the same entries in
front of it. -/
theorem Spans.canonicalAt?_of_longer
    (spans : Spans rules record archived recent first head) (isOldest : recent.head? = some oldest)
    (holds : later.Holds line) (isChain : line.IsChain (Follows rules))
    (longer : ∃ rest, line = archived ++ oldest :: rest) (notBefore : first.number ≤ number)
    (notBehind : number ≤ head.number) :
    ∃ item entry, Chain.canonicalAt? recent later ⟨number⟩ = .ok (some item) ∧
      latestAt? (archived ++ recent) number = some entry ∧ item.Shows number entry := by
  by_cases reached : oldest.number ≤ number
  · exact spans.canonicalAt?_of_reached isOldest reached notBehind later
  · obtain ⟨rest, rfl⟩ := longer
    have early := Nat.lt_of_not_le reached
    have kept := spans.later_of_head? isOldest early
    -- what the record has gained stands behind the step
    have behind : ∀ entry ∈ oldest :: rest, number < entry.number := fun entry member =>
      Nat.lt_of_lt_of_le early
        (number_le_of_head? (List.isChain_append.1 isChain).2.1 rfl entry member)
    obtain ⟨before, entry, after, inEffect⟩ :=
      spans.exists_inEffect_archived isOldest notBefore early
    have isFirst := spans.head?_archived isOldest (Nat.lt_of_le_of_lt notBefore early)
    have start := holds.start first (by rw [List.head?_append, isFirst, Option.some_or])
    obtain ⟨last, isLast⟩ : ∃ last, (archived ++ oldest :: rest).getLast? = some last :=
      ⟨_, List.getLast?_eq_some_getLast (by simp)⟩
    have stop := holds.stop_eq isLast
    have notLast := number_le_of_getLast? isChain isLast oldest (by simp)
    have recorded : later.entry? ⟨number⟩ = _ := holds.entry?_of_mem (by omega) (by omega)
    rw [latestAt?_append, latestAt?_eq_none behind, Option.none_or, inEffect.latestAt?_eq]
      at recorded
    rw [Chain.canonicalAt?_of_later kept spans.inRange, latestAt?_append,
      latestAt?_eq_none kept, Option.none_or, inEffect.latestAt?_eq]
    exact ⟨_, entry, Chain.archivedAt?_of_entry? recorded, rfl, rfl, rfl, rfl⟩

end Later

/-- What a walk tells of an item: its step, and its roots. -/
def Walk.tells (item : Walk.Item State Context) : Except Error (Step × Root × Root) := do
  let entry ← item
  let step ← entry.step
  return (step, entry.blockRoot, entry.stateRoot)

theorem ChainEntry.Shows.tells_eq
    {item : ChainEntry State Context} {number : Nat} {entry : Entry State Context}
    (shows : item.Shows number entry) :
    Walk.tells (.ok item) = .ok (⟨number⟩, entry.blockRoot, entry.stateRoot) := by
  simp only [Walk.tells, shows.step, shows.blockRoot, shows.stateRoot, bind, Except.bind]
  rfl

namespace Chain

variable {store : StateStore contents State} {chain start : Chain preset rules store}
  {log : List (Handover State Context)} {anchor oldest : Entry State Context}
  {archived : List (Entry State Context)}

/-- Makes calls on a chain, and visits the next step of a walk wherever there is no call.  The
walk looks finalized entries up in the chain as it is then. -/
def visitAmid : List (Option (Call Block contents)) → Chain preset rules store →
    Walk State Context → Except Error (List (Walk.Item State Context) × Walk State Context)
  | [], _, walk => .ok ([], walk)
  | some call :: rest, chain, walk => visitAmid rest (chain.perform call) walk
  | none :: rest, chain, walk => do
    match ← walk.visit chain.archive.record with
    | none => visitAmid rest chain walk
    | some (item, walk) => do
      let (items, walk) ← visitAmid rest chain walk
      return (item :: items, walk)

/-- Whatever is called, the oldest entry of the moment at which a walk was begun stays the next in
line until it is archived. -/
theorem nextInLine_perform
    {position : Nat} {call : Call Block contents}
    (seamless : RecentChain.Seamless (· < slotLimit) anchor chain.recent log position)
    (inLine : chain.recent.NextInLine archived oldest log) (allowed : call.InRange rules) :
    (chain.perform call).recent.NextInLine archived oldest (chain.noted log call) := by
  cases call with
  | addBlock block interrupted =>
    exact inLine.addBlock_noted seamless (fun _ _ => rfl) block interrupted chain.archive
      fun _ notLater => Nat.lt_of_le_of_lt notLater allowed
  | addAttestation attestation =>
    exact inLine.unmoved (chain.recent.addAttestation_recounts attestation).unmoved
  | setPin pin => exact inLine.unmoved (chain.recent.setPin_unmoved pin)
  | clearPin => exact inLine.unmoved ⟨.refl _, rfl, rfl, rfl⟩
  | head => exact inLine.unmoved chain.recent.head_recounts.unmoved
  | bySlot slot => exact inLine.unmoved chain.recent.canonicalChain_recounts.unmoved
  | byStep step => exact inLine.unmoved chain.recent.canonicalChain_recounts.unmoved
  | walk =>
    obtain ⟨recent, recounts, same⟩ := chain.walk_recounts
    rw [perform, same]
    exact inLine.unmoved recounts.unmoved
  | restock contents => exact inLine

section Amid

variable {limits : Limits} {root parentRoot : Root} {state : State} {before : contents}
  {record : Record} {recent : List (Entry State Context)} {first head : Entry State Context}
  {drained : List (ChainEntry State Context)} {number : Nat}

/-- At every step of a walk what stands there in the end shows the entry that stood there when the
walk was begun. -/
theorem canonicalAt?_of_nextInLine
    (started : ofAnchor? limits root parentRoot state before = .ok start)
    (inRange : rules.stateSlot state < slotLimit)
    (spans : Spans rules record archived recent first head) (isOldest : recent.head? = some oldest)
    (run : Run (fun _ call => call.InRange rules) start chain log)
    (inLine : chain.recent.NextInLine archived oldest log) (notBefore : first.number ≤ number)
    (notBehind : number ≤ head.number) :
    ∃ item entry, canonicalAt? recent chain.archive.record ⟨number⟩ = .ok (some item) ∧
      latestAt? (archived ++ recent) number = some entry ∧ item.Shows number entry := by
  obtain ⟨holds, isChain⟩ := holds_taken started inRange run
  cases inLine with
  | waits nothing _ =>
    rw [nothing] at holds
    exact { spans with holds := holds }.canonicalAt?_of_mem notBefore notBehind
  | passed rest passed =>
    exact spans.canonicalAt?_of_longer isOldest holds isChain ⟨rest, passed⟩ notBefore notBehind

/-- A walk tells of every step what it would have told in the beginning. -/
theorem visitAmid_eq
    {steps : List (Option (Call Block contents))}
    (started : ofAnchor? limits root parentRoot state before = .ok start)
    (inRange : rules.stateSlot state < slotLimit)
    (spans : Spans rules record archived recent first head) (isOldest : recent.head? = some oldest)
    (itemized : Itemized record archived recent first head drained)
    (run : Run (fun _ call => call.InRange rules) start chain log)
    (inLine : chain.recent.NextInLine archived oldest log)
    (allowed : ∀ call, some call ∈ steps → call.InRange rules) {index : Nat}
    (notBehind : index ≤ drained.length) :
    ∃ met last, visitAmid steps chain
        ⟨recent, ⟨first.number + index⟩, ⟨first.number⟩, ⟨head.number⟩⟩ = .ok (met, last) ∧
      met.map Walk.tells = ((drained.drop index).take (steps.countP Option.isNone)).map
        fun item => Walk.tells (.ok item) := by
  -- the walk keeps its entries while the chain changes with the calls in front
  induction steps generalizing chain log index with
  | nil => exact ⟨[], _, rfl, rfl⟩
  | cons step rest ih =>
    have restAllowed : ∀ call, some call ∈ rest → call.InRange rules :=
      fun call member => allowed call (List.mem_cons_of_mem step member)
    cases step with
    | some call =>
      have callAllowed := allowed call List.mem_cons_self
      obtain ⟨_, _, seamless⟩ := exists_seamless started inRange run
      exact ih (run.call call callAllowed) (nextInLine_perform seamless inLine callAllowed)
        restAllowed notBehind
    | none =>
      let walk : Walk State Context :=
        ⟨recent, ⟨first.number + index⟩, ⟨first.number⟩, ⟨head.number⟩⟩
      have length := itemized.length_eq
      rw [List.countP_cons_of_pos rfl]
      by_cases atEnd : index = drained.length
      · have visited : walk.visit chain.archive.record = .ok none :=
          Walk.visit_of_ended (show head.number < first.number + index by omega)
        obtain ⟨met, last, done, told⟩ := ih run inLine restAllowed notBehind
        refine ⟨met, last, ?_, ?_⟩
        · rw [visitAmid, visited]
          exact done
        · rw [told, atEnd, List.drop_length, List.take_nil, List.take_nil]
      · have inside : index < drained.length := by omega
        obtain ⟨entry, latest, shows⟩ := itemized.shown index _ (List.getElem?_eq_getElem inside)
        obtain ⟨item, found, here, latestToo, showsToo⟩ :=
          canonicalAt?_of_nextInLine started inRange spans isOldest run inLine
            (Nat.le_add_right first.number index) (by omega)
        obtain rfl := Option.some.inj (latest.symm.trans latestToo)
        have bounds := head.number_bounds
        have headRange := spans.inRange head (List.mem_of_getLast? spans.isHead)
        have limits : Step.limit = 2 * slotLimit + 2 := rfl
        have visited : walk.visit chain.archive.record =
            .ok (some (.ok item, { walk with next := ⟨first.number + (index + 1)⟩ })) :=
          Walk.visit_of_found (show head.number + 1 < Step.limit by omega)
            (show first.number + index ≤ head.number by omega) here
        obtain ⟨met, last, done, told⟩ := ih run inLine restAllowed (Nat.succ_le_of_lt inside)
        refine ⟨.ok item :: met, last, ?_, ?_⟩
        · rw [visitAmid, visited]
          simp only [bind, Except.bind]
          rw [done]
          rfl
        · rw [List.map_cons, told, List.drop_eq_getElem_cons inside, List.take_succ_cons,
            List.map_cons, shows.tells_eq, showsToo.tells_eq]

end Amid

end Chain

/-- In every run of a whole chain whose slots are in range, if the canonical chain reaches the
oldest recent entry: whatever blocks, votes, pins and look-ups come between the visits of a walk,
and whether they move entries to the archive or fail on the way, it tells of the same steps and
roots as a walk that is gone through at once. -/
theorem walk_is_snapshot
    {store : StateStore contents State} {limits : Limits} {root parentRoot : Root} {state : State}
    {before : contents} {start chain : Chain preset rules store}
    {log : List (Handover State Context)}
    {entries : List (Entry State Context)} {oldest : Entry State Context}
    (started : Chain.ofAnchor? limits root parentRoot state before = .ok start)
    (inRange : rules.stateSlot state < slotLimit)
    (run : Chain.Run (fun _ call => call.InRange rules) start chain log)
    (canonical : chain.recent.canonicalChain.1 = .ok entries)
    (isOldest : entries.getLast? = some oldest) (earliest : chain.recent.earliest? = some oldest)
    {steps : List (Option (Chain.Call Block contents))}
    (allowed : ∀ call, some call ∈ steps → call.InRange rules) :
    ∃ walk drained met last, chain.walk.1 = .ok walk ∧
      walk.Yields chain.walk.2.archive.record drained ∧
      Chain.visitAmid steps chain.walk.2 walk = .ok (met, last) ∧
      met.map Walk.tells = (drained.take (steps.countP Option.isNone)).map
        fun item => Walk.tells (.ok item) := by
  obtain ⟨sound, first, head, isHead, spans⟩ :=
    Chain.exists_spans started inRange run canonical isOldest earliest
  obtain ⟨drained, itemized⟩ := spans.exists_itemized
  have isEldest : entries.reverse.head? = some oldest := by rw [List.head?_reverse, isOldest]
  have headRange := spans.inRange head (List.mem_of_getLast? spans.isHead)
  obtain ⟨recent, recounts, begun⟩ := chain.walk_recounts
  have walking := run.call .walk trivial
  have inLine : chain.recent.NextInLine (taken log) oldest log := .waits rfl earliest
  obtain ⟨_, _, seamless⟩ := Chain.exists_seamless started inRange run
  obtain ⟨met, last, done, told⟩ := Chain.visitAmid_eq started inRange spans isEldest itemized
    walking (Chain.nextInLine_perform seamless inLine trivial) allowed (Nat.zero_le drained.length)
  refine ⟨_, drained, met, last, Chain.walk_eq spans sound canonical isHead, ?_, done, told⟩
  rw [begun]
  exact itemized.yields headRange

/-- A block above those that are walked over, which finalizes the second of them. -/
def finalizingCall : Chain.Call ScriptedBlock (Table Root ScriptedState) :=
  .addBlock
    { slot := 17, root := ⟨13⟩, parentRoot := ⟨12⟩, justified := some ⟨2, ⟨12⟩⟩
      finalized := some ⟨2, ⟨12⟩⟩ } fun _ => false

/-- When the walk goes on, the gap behind the archive has become a row. -/
theorem walk_is_snapshot_walkedBlocks :
    let chain := (Chain.afterBlocks walkedBlocks).1
    let steps := List.replicate 12 none ++ some finalizingCall :: List.replicate 12 none
    chain.archive.record.stop? = .ok (some ⟨15⟩) ∧
      (chain.walk.2.perform finalizingCall).archive.record.stop? = .ok (some ⟨31⟩) ∧
      ∃ walk drained met last, chain.walk.1 = .ok walk ∧
        walk.Yields chain.walk.2.archive.record drained ∧ drained.length = 19 ∧
        Chain.visitAmid steps chain.walk.2 walk = .ok (met, last) ∧
        met.map Walk.tells = drained.map fun item => Walk.tells (.ok item) := by
  have run := Chain.run_afterBlocks walkedBlocks (by decide)
  have started : Chain.ofAnchor? .minimal ⟨10⟩ ⟨9⟩ trialAnchor {} = .ok trialStart := rfl
  have reaches : (Chain.afterBlocks walkedBlocks).1.recent.canonicalChain.1.map List.getLast? =
      .ok (Chain.afterBlocks walkedBlocks).1.recent.earliest? := by decide
  have known : (Chain.afterBlocks walkedBlocks).1.recent.earliest?.isSome := by decide
  have ends : (Chain.afterBlocks walkedBlocks).1.walk.1.map (fun walk => (walk.start, walk.stop)) =
      .ok (⟨1⟩, ⟨19⟩) := by decide
  have allowed : ∀ call, some call ∈ List.replicate 12 none ++ some finalizingCall ::
      List.replicate 12 none → call.InRange (Scripted.rules []) := by
    simp [finalizingCall, Chain.Call.InRange, Scripted.rules, slotLimit]
  obtain ⟨oldest, earliest⟩ := Option.isSome_iff_exists.1 known
  cases canonical : (Chain.afterBlocks walkedBlocks).1.recent.canonicalChain.1 with
  | error error =>
    rw [canonical] at reaches
    cases reaches
  | ok entries =>
    rw [canonical, earliest] at reaches
    obtain ⟨walk, drained, met, last, walked, yields, done, told⟩ :=
      walk_is_snapshot started (by decide) run canonical (Except.ok.inj reaches) earliest allowed
    rw [walked] at ends
    obtain ⟨isStart, isStop⟩ := Prod.mk.inj (Except.ok.inj ends)
    have length := yields.length_eq
    rw [isStart, isStop] at length
    have all : drained.length = 19 := Nat.add_left_cancel length
    rw [List.take_of_length_le (by rw [all]; decide)] at told
    exact ⟨by decide +kernel, by decide +kernel, walk, drained, met, last, walked, yields, all,
      done, told⟩

end BeaconChain
