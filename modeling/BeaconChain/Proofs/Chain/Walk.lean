import BeaconChain.Proofs.Chain.Migration
import BeaconChain.Proofs.Chain.Steps
import BeaconChain.Proofs.RecentChain.WholeLine

/-!
# Walks over the whole chain

A walk over a canonical chain that reaches the oldest recent entry meets one item at every
step, from the start of the archive to the head.  The look-ups by step and by slot lead to the
same items.
-/

namespace BeaconChain

variable {preset : Preset} {State Block Context contents : Type}
  {rules : Rules State Block Context}

/-- The items of a walk: one for every step from the first to the last, none of them an error. -/
structure Walk.Yields (walk : Walk State Context) (record : Record)
    (items : List (ChainEntry State Context)) : Prop where
  length_eq : walk.start.number + items.length = walk.stop.number + 1
  visits : ∀ count, ∃ after,
    walk.visitMany record count = .ok ((items.take count).map Except.ok, after)
  steps : ∀ (index : Nat) (item : ChainEntry State Context),
    items[index]? = some item → item.step = .ok ⟨walk.start.number + index⟩

/-- How an item takes up the one at the step before it, where `line` are the canonical entries: a
slot passes, a slot stays without a block, or a block is applied to what stood before. -/
inductive ChainEntry.TakesUp (line : List (Entry State Context)) (step : Step)
    (item previous : ChainEntry State Context) : Prop
  | slot (even : step.hasBlock = false) (sameBlock : item.blockRoot = previous.blockRoot)
  | empty (odd : step.hasBlock = true)
    (noBlock : ∀ entry ∈ line, entry.slot = step.slot → entry.hasBlock = false)
    (sameBlock : item.blockRoot = previous.blockRoot)
    (sameState : item.stateRoot = previous.stateRoot)
  | block (odd : step.hasBlock = true) (entry : Entry State Context) (canonical : entry ∈ line)
    (sameSlot : entry.slot = step.slot) (blockRoot : item.blockRoot = entry.blockRoot)
    (stateRoot : item.stateRoot = entry.stateRoot)
    (parent : entry.parentRoot = some previous.blockRoot)

theorem exists_list {α : Type} {holds : Nat → α → Prop} {size : Nat}
    (each : ∀ index, index < size → ∃ item, holds index item) :
    ∃ items : List α, items.length = size ∧
      ∀ index item, items[index]? = some item → holds index item := by
  choose pick picked using each
  refine ⟨List.ofFn fun index : Fin size => pick index index.isLt, List.length_ofFn, ?_⟩
  intro index item found
  obtain ⟨inside, rfl⟩ := List.getElem?_eq_some_iff.1 found
  rw [List.getElem_ofFn]
  exact picked _ _

theorem ChainEntry.Shows.takesUp
    {line : List (Entry State Context)} {number : Nat} {shown next : Entry State Context}
    {item previous : ChainEntry State Context} (before : previous.Shows number shown)
    (here : item.Shows (number + 1) next) (isNext : latestAt? line (number + 1) = some next)
    (advances : Advances rules line number shown next) :
    item.TakesUp line ⟨number + 1⟩ previous := by
  have canonical := (mem_of_latestAt? isNext).1
  cases advances with
  | follows follows there =>
    cases follows with
    | slot sameRoot _ empty =>
      rw [Entry.number_of_empty (Entry.hasBlock_of_parentRoot_eq_none empty)] at there
      refine .slot ?_ (by rw [here.blockRoot, before.blockRoot, sameRoot])
      rw [← there, Step.hasBlock_even]
    | block _ _ _ _ parent =>
      rw [Entry.number_of_hasBlock (Entry.hasBlock_of_parentRoot_eq_some parent)] at there
      refine .block ?_ next canonical ?_ here.blockRoot here.stateRoot
        (by rw [before.blockRoot, parent])
      · rw [← there, Step.hasBlock_odd]
      · rw [← there, Step.slot_odd]
  | gap same there noBlock =>
    subst same there
    refine .empty (Step.hasBlock_odd _) ?_ (by rw [here.blockRoot, before.blockRoot])
      (by rw [here.stateRoot, before.stateRoot])
    rw [Step.slot_odd]
    exact noBlock

section Visits

variable {record : Record} {items : List (ChainEntry State Context)}

theorem Walk.visit_of_ended
    {walk : Walk State Context} (ended : walk.stop.number < walk.next.number) :
    walk.visit record = .ok none :=
  if_pos ended

theorem Walk.visit_of_found
    {walk : Walk State Context} {item : ChainEntry State Context}
    (inRange : walk.stop.number + 1 < Step.limit) (notEnded : walk.next.number ≤ walk.stop.number)
    (found : Chain.canonicalAt? walk.entries record walk.next = .ok (some item)) :
    walk.visit record = .ok (some (.ok item, { walk with next := ⟨walk.next.number + 1⟩ })) := by
  have goesOn : ¬ walk.stop < walk.next := Nat.not_lt.2 notEnded
  have next : walk.next.advance 1 = .ok ⟨walk.next.number + 1⟩ := Step.advance_of_lt (by omega)
  simp only [visit, goesOn, if_false, next, found, bind, Except.bind]
  rfl

theorem Walk.visitMany_eq
    (walk : Walk State Context) (inRange : walk.stop.number + 1 < Step.limit)
    (length : walk.start.number + items.length = walk.stop.number + 1)
    (each : ∀ index item, items[index]? = some item →
      Chain.canonicalAt? walk.entries record ⟨walk.start.number + index⟩ = .ok (some item)) :
    ∀ count index : Nat, index ≤ items.length → ∃ after,
      visitMany record count { walk with next := ⟨walk.start.number + index⟩ } =
        .ok (((items.drop index).take count).map Except.ok, after)
  | 0, _, _ => ⟨_, rfl⟩
  | count + 1, index, notBehind => by
    by_cases atEnd : index = items.length
    · have visited : visit { walk with next := ⟨walk.start.number + index⟩ } record = .ok none :=
        visit_of_ended (show walk.stop.number < walk.start.number + index by omega)
      refine ⟨{ walk with next := ⟨walk.start.number + index⟩ }, ?_⟩
      rw [visitMany, visited, atEnd, List.drop_length]
      rfl
    · have inside : index < items.length := by omega
      have visited : visit { walk with next := ⟨walk.start.number + index⟩ } record = .ok (some
          (.ok items[index], { walk with next := ⟨walk.start.number + (index + 1)⟩ })) :=
        visit_of_found inRange (show walk.start.number + index ≤ walk.stop.number by omega)
          (each index _ (List.getElem?_eq_getElem inside))
      obtain ⟨after, rest⟩ := visitMany_eq walk inRange length each count (index + 1) inside
      refine ⟨after, ?_⟩
      rw [visitMany, visited]
      simp only [bind, Except.bind, rest, List.drop_eq_getElem_cons inside, List.take_succ_cons,
        List.map_cons]
      rfl

end Visits

/-- One item for every step from that of the first entry to that of the head: the one that is found
there, with the roots of the entry in effect. -/
structure Itemized (record : Record) (archived recent : List (Entry State Context))
    (first head : Entry State Context) (items : List (ChainEntry State Context)) : Prop where
  length_eq : first.number + items.length = head.number + 1
  found : ∀ (index : Nat) (item : ChainEntry State Context), items[index]? = some item →
    Chain.canonicalAt? recent record ⟨first.number + index⟩ = .ok (some item)
  shown : ∀ (index : Nat) (item : ChainEntry State Context), items[index]? = some item →
    ∃ entry, latestAt? (archived ++ recent) (first.number + index) = some entry ∧
      item.Shows (first.number + index) entry

namespace Itemized

variable {record : Record} {archived recent : List (Entry State Context)}
  {first head : Entry State Context} {items : List (ChainEntry State Context)} {number : Nat}

/-- What the item at a step shows. -/
theorem exists_item
    (itemized : Itemized record archived recent first head items)
    (notBefore : first.number ≤ number)
    (notBehind : number ≤ head.number) :
    ∃ item entry, items[number - first.number]? = some item ∧
      latestAt? (archived ++ recent) number = some entry ∧ item.Shows number entry := by
  have length := itemized.length_eq
  have inside : number - first.number < items.length := by omega
  have here := List.getElem?_eq_getElem inside
  obtain ⟨entry, latest, shows⟩ := itemized.shown _ _ here
  rw [Nat.add_sub_cancel' notBefore] at latest shows
  exact ⟨_, entry, here, latest, shows⟩

/-- At every step its item is found, and nothing at any other. -/
theorem canonicalAt?_eq
    (itemized : Itemized record archived recent first head items)
    (spans : Spans rules record archived recent first head) (number : Nat) :
    Chain.canonicalAt? recent record ⟨number⟩ =
      .ok (if first.number ≤ number then items[number - first.number]? else none) := by
  by_cases notBefore : first.number ≤ number
  · rw [if_pos notBefore]
    by_cases notBehind : number ≤ head.number
    · obtain ⟨item, _, here, _, _⟩ := itemized.exists_item notBefore notBehind
      have found := itemized.found _ item here
      rw [Nat.add_sub_cancel' notBefore] at found
      rw [here]
      exact found
    · have length := itemized.length_eq
      rw [List.getElem?_eq_none (by omega)]
      exact spans.canonicalAt?_of_notMem (.inr (by omega))
  · rw [if_neg notBefore]
    exact spans.canonicalAt?_of_notMem (.inl (by omega))

theorem takesUp
    (itemized : Itemized record archived recent first head items)
    (spans : Spans rules record archived recent first head) {index : Nat}
    {previous item : ChainEntry State Context} (before : items[index]? = some previous)
    (here : items[index + 1]? = some item) :
    item.TakesUp (archived ++ recent) ⟨first.number + (index + 1)⟩ previous := by
  have length := itemized.length_eq
  have inside := (List.getElem?_eq_some_iff.1 here).1
  obtain ⟨shown, latest, shows⟩ := itemized.shown index previous before
  obtain ⟨next, nextLatest, nextShows⟩ := itemized.shown (index + 1) item here
  obtain ⟨_, _, latestToo, nextLatestToo, advances⟩ :=
    exists_advances spans.isChain spans.isFirst spans.isLast (Nat.le_add_right first.number index)
      (by omega)
  obtain rfl := Option.some.inj (latest.symm.trans latestToo)
  obtain rfl := Option.some.inj (nextLatest.symm.trans nextLatestToo)
  exact shows.takesUp nextShows nextLatest advances

theorem yields
    (itemized : Itemized record archived recent first head items)
    (inRange : head.slot < slotLimit) :
    (⟨recent, ⟨first.number⟩, ⟨first.number⟩, ⟨head.number⟩⟩ : Walk State Context).Yields record
      items where
  length_eq := itemized.length_eq
  visits count := by
    have bounds := head.number_bounds
    have limits : Step.limit = 2 * slotLimit + 2 := rfl
    have stepInRange : head.number + 1 < Step.limit := by
      rw [limits]
      omega
    let walk : Walk State Context := ⟨recent, ⟨first.number⟩, ⟨first.number⟩, ⟨head.number⟩⟩
    exact walk.visitMany_eq stepInRange itemized.length_eq itemized.found count 0 (Nat.zero_le _)
  steps index item here := by
    obtain ⟨_, _, shows⟩ := itemized.shown index item here
    exact shows.step

end Itemized

namespace Spans

variable {record : Record} {archived recent : List (Entry State Context)}
  {first head : Entry State Context}

theorem exists_itemized (spans : Spans rules record archived recent first head) :
    ∃ items, Itemized record archived recent first head items := by
  have ordered := number_le_of_head? spans.isChain spans.isFirst head
    (List.mem_of_getLast? spans.isLast)
  obtain ⟨items, length, each⟩ := exists_list fun index
      (inside : index < head.number + 1 - first.number) =>
    spans.canonicalAt?_of_mem (Nat.le_add_right first.number index) (by omega)
  refine ⟨items, by omega, fun index item here => ?_, fun index item here => ?_⟩
  · exact (each index item here).choose_spec.1
  · obtain ⟨entry, _, latest, shows⟩ := each index item here
    exact ⟨entry, latest, shows⟩

/-- The first entry is archived, or nothing is and it is the oldest of the recent ones. -/
theorem start?_cases (spans : Spans rules record archived recent first head) :
    record.start? = .ok (some ⟨first.number⟩) ∨
      record.start? = .ok none ∧ recent.head? = some first := by
  have isFirst := spans.isFirst
  have start := spans.holds.start?_eq spans.inRange_last
  rw [List.head?_append] at isFirst
  cases isEldest : archived.head? with
  | none =>
    rw [isEldest] at isFirst start
    exact .inr ⟨start, isFirst⟩
  | some eldest =>
    rw [isEldest] at isFirst start
    cases isFirst
    exact .inl start

end Spans

namespace Chain

variable {store : StateStore contents State} {chain : Chain preset rules store}
  {archived entries : List (Entry State Context)} {first head : Entry State Context}

theorem byStep?_eq
    (canonical : chain.recent.canonicalChain.1 = .ok entries) (step : Step) :
    (chain.byStep? step).1 = canonicalAt? entries.reverse chain.archive.record step := by
  simp only [byStep?, canonical]
  rfl

/-- The walk begins with the first archived entry, or with the oldest recent one if nothing is
archived. -/
theorem walk_eq
    (spans : Spans rules chain.archive.record archived entries.reverse first head)
    (sound : chain.recent.choice.tree.Sound)
    (canonical : chain.recent.canonicalChain.1 = .ok entries)
    (isHead : chain.recent.head.1 = .ok head) :
    chain.walk.1 = .ok
      { entries := entries.reverse, next := ⟨first.number⟩, start := ⟨first.number⟩
        stop := ⟨head.number⟩ } := by
  have headStep := head.step_of_lt (spans.inRange head (List.mem_of_getLast? spans.isHead))
  have again := RecentChain.canonicalChain_headNode sound canonical
  rw [← RecentChain.head_eq] at again
  have found : chain.recent.head = (.ok head, chain.recent.head.2) := Prod.ext isHead rfl
  unfold walk
  rw [found]
  rcases spans.start?_cases with start | ⟨start, isFirst⟩
  · simp only [headStep, again, start, bind, Except.bind]
    rfl
  · have firstStep := first.step_of_lt (spans.inRange first (List.mem_of_head? isFirst))
    obtain ⟨rest, split⟩ := List.head?_eq_some_iff.1 isFirst
    simp only [headStep, again, start, split, firstStep, bind, Except.bind]
    rfl

/-- The recent chain alone leads to the same roots. -/
theorem recent_byStep?_eq
    (spans : Spans rules chain.archive.record archived entries.reverse first head)
    (canonical : chain.recent.canonicalChain.1 = .ok entries) {oldest : Entry State Context}
    (isOldest : entries.reverse.head? = some oldest) {number : Nat}
    (notBefore : oldest.number ≤ number) (notBehind : number ≤ head.number) :
    ∃ entry, (chain.recent.byStep? ⟨number⟩).1 = .ok (some entry) ∧
      latestAt? (archived ++ entries.reverse) number = some entry := by
  obtain ⟨before, entry, after, inEffect⟩ := exists_inEffect isOldest notBefore
  have found := find?_atStep inEffect spans.recentIsChain spans.isHead notBehind
  rw [List.reverse_reverse] at found
  refine ⟨entry, ?_, ?_⟩
  · simp only [RecentChain.byStep?, canonical, Except.map, found]
  · rw [latestAt?_append, inEffect.latestAt?_eq, Option.some_or]

/-- No entry of a sequence before the entry of a block has the root of the block. -/
def IsNewRoot (line : List (Entry State Context)) (slot : Nat) : Prop :=
  ∀ entry ∈ line, entry.slot = slot → entry.hasBlock = true →
    ∀ earlier ∈ line, earlier.number < entry.number → earlier.blockRoot ≠ entry.blockRoot

instance (line : List (Entry State Context)) (slot : Nat) : Decidable (IsNewRoot line slot) :=
  inferInstanceAs (Decidable (∀ entry ∈ line, entry.slot = slot → entry.hasBlock = true →
    ∀ earlier ∈ line, earlier.number < entry.number → earlier.blockRoot ≠ entry.blockRoot))

/-- A slot leads to the roots at its block step, unless the root of an archived block has been
there before. -/
theorem bySlot?_eq
    (spans : Spans rules chain.archive.record archived entries.reverse first head)
    (canonical : chain.recent.canonicalChain.1 = .ok entries) {slot : Nat}
    (notBefore : first.number ≤ 2 * slot + 1) (notBehind : 2 * slot + 1 ≤ head.number)
    (isNew : IsNewRoot archived slot) :
    ∃ item entry, (chain.bySlot? slot).1 = .ok (some item) ∧
      latestAt? (archived ++ entries.reverse) (2 * slot + 1) = some entry ∧
      item.blockRoot = entry.blockRoot ∧ item.stateRoot = entry.stateRoot := by
  obtain ⟨oldest, isOldest⟩ := spans.exists_oldest
  by_cases reached : oldest.number ≤ 2 * slot + 1
  · obtain ⟨before, entry, after, inEffect⟩ := exists_inEffect isOldest reached
    obtain rfl : slot = entry.slot := by
      have bounds := entry.number_bounds
      rcases inEffect.number_cases spans.recentIsChain spans.isHead notBehind with
        same | ⟨gap, _⟩ <;> omega
    have found := find?_atSlot inEffect
    rw [List.reverse_reverse] at found
    refine ⟨.recent entry, entry, ?_, ?_, rfl, rfl⟩
    · simp only [bySlot?, RecentChain.bySlot?, canonical, Except.map, found]
      rfl
    · rw [latestAt?_append, inEffect.latestAt?_eq, Option.some_or]
  · have later := spans.later_of_head? isOldest (Nat.lt_of_not_le reached)
    have notRecent : entries.find? (fun entry => entry.slot = slot) = none := by
      refine List.find?_eq_none.2 fun entry member => ?_
      have behind := later entry (List.mem_reverse.2 member)
      have bounds := entry.number_bounds
      rw [decide_eq_true_eq]
      omega
    obtain ⟨before, entry, after, inEffect⟩ := spans.exists_inEffect_archived isOldest notBefore
      (Nat.lt_of_not_le reached)
    obtain rfl : slot = entry.slot := by
      have bounds := entry.number_bounds
      rcases (inEffect.append later).number_cases spans.isChain spans.isLast notBehind with
        same | ⟨gap, _⟩ <;> omega
    have inRange : entry.slot < slotLimit := by
      have headRange := spans.inRange head (List.mem_of_getLast? spans.isHead)
      have bounds := head.number_bounds
      omega
    have archivedIsChain := (List.isChain_append.1 spans.isChain).1
    have member : entry ∈ archived := by simp [inEffect.split]
    have found :=
      spans.holds.bySlot?_eq archivedIsChain inRange inEffect fun hasBlock earlier front =>
      isNew entry member rfl hasBlock earlier (by simp [inEffect.split, front])
        (inEffect.earlier archivedIsChain earlier front)
    refine ⟨.archived (entry.archivedAt entry.number), entry, ?_, ?_, rfl, rfl⟩
    · simp only [bySlot?, RecentChain.bySlot?, canonical, Except.map, notRecent, found, bind,
        Except.bind]
      rfl
    · rw [latestAt?_append, latestAt?_eq_none later, Option.none_or, inEffect.latestAt?_eq]

/-! ## Runs -/

theorem Run.seamless
    {start : Chain preset rules store} {log : List (Handover State Context)}
    {anchor : Entry State Context}
    {position : Nat} (run : Run (fun _ call => call.InRange rules) start chain log)
    (begins : RecentChain.Seamless (· < slotLimit) anchor start.recent [] position) :
    ∃ position, RecentChain.Seamless (· < slotLimit) anchor chain.recent log position :=
  run.keeps (fun chain log => ∃ position,
      RecentChain.Seamless (· < slotLimit) anchor chain.recent log position)
    ⟨position, begins⟩
    (fun _ _ _ ⟨position, seamless⟩ recounts => ⟨position, seamless.recounts recounts⟩)
    (fun _ _ pin _ ⟨position, seamless⟩ => ⟨position, seamless.setPin pin⟩)
    (fun _ _ ⟨position, seamless⟩ => ⟨position, seamless.clearPin⟩)
    (fun _ _ _ _ seamless => seamless)
    (fun chain _ block interrupted inRange ⟨_, seamless⟩ =>
      seamless.addBlock_noted (fun _ _ => rfl) block interrupted chain.archive
        fun _ notLater => Nat.lt_of_le_of_lt notLater inRange)

section Started

variable {limits : Limits} {root parentRoot : Root} {state : State} {before : contents}
  {start : Chain preset rules store} {log : List (Handover State Context)}
  {oldest : Entry State Context}

theorem exists_seamless
    (started : ofAnchor? limits root parentRoot state before = .ok start)
    (inRange : rules.stateSlot state < slotLimit)
    (run : Run (fun _ call => call.InRange rules) start chain log) :
    ∃ anchor position, RecentChain.Seamless (· < slotLimit) anchor chain.recent log position := by
  obtain ⟨recent, recentStarted, made⟩ := exists_of_bind_eq_ok started
  cases made
  obtain ⟨anchor, _, begins⟩ := RecentChain.ofAnchor?_seamless (· < slotLimit) recentStarted inRange
  exact ⟨anchor, run.seamless begins⟩

/-- The record holds what the archive has accepted. -/
theorem holds_taken
    (started : ofAnchor? limits root parentRoot state before = .ok start)
    (inRange : rules.stateSlot state < slotLimit)
    (run : Run (fun _ call => call.InRange rules) start chain log) :
    chain.archive.record.Holds (taken log) ∧ (taken log).IsChain (Follows rules) := by
  obtain ⟨_, _, begins⟩ := ofAnchor?_joined started inRange
  have joined := run.joined begins
  obtain ⟨_, lineage⟩ := joined.goesOn
  exact ⟨(joined.continuous lineage.orderly).1, lineage.orderly.gapless.isChain⟩

/-- A canonical chain that reaches the oldest recent entry forms one sequence with what is
archived. -/
theorem exists_spans
    (started : ofAnchor? limits root parentRoot state before = .ok start)
    (inRange : rules.stateSlot state < slotLimit)
    (run : Run (fun _ call => call.InRange rules) start chain log)
    (canonical : chain.recent.canonicalChain.1 = .ok entries)
    (isOldest : entries.getLast? = some oldest) (earliest : chain.recent.earliest? = some oldest) :
    chain.recent.choice.tree.Sound ∧ ∃ first head, chain.recent.head.1 = .ok head ∧
      Spans rules chain.archive.record (taken log) entries.reverse first head := by
  obtain ⟨anchor, position, seamless⟩ := exists_seamless started inRange run
  obtain ⟨holds, _⟩ := holds_taken started inRange run
  obtain ⟨⟨head, headFirst, isHead⟩, gapless, allowed⟩ :=
    seamless.canonicalChain_spec canonical isOldest earliest
  have isLast : entries.reverse.getLast? = some head := by rw [List.getLast?_reverse, headFirst]
  have notAlone : taken log ++ entries.reverse ≠ [] := by
    rintro nothing
    rw [(List.append_eq_nil_iff.1 nothing).2] at isLast
    cases isLast
  refine ⟨seamless.sound, _, head, isHead, holds, gapless.isChain,
    List.head?_eq_some_head notAlone, isLast, fun entry member => ?_⟩
  exact allowed entry (List.mem_reverse.1 member)

end Started

end Chain

/-- In every run of a whole chain whose slots are in range, if the canonical chain reaches the
oldest recent entry: a walk yields one item for every step, from the start of the archive, or
else from the oldest recent entry, to the head, and no error.  Every item takes up the one
before it.  The look-ups by step lead to the same items and to nothing else, and so does that
by slot, unless an archived block has the root of an earlier one. -/
theorem walk_visits_every_step
    {store : StateStore contents State} {limits : Limits} {root parentRoot : Root} {state : State}
    {before : contents} {start chain : Chain preset rules store}
    {log : List (Handover State Context)}
    {entries : List (Entry State Context)} {oldest : Entry State Context}
    (started : Chain.ofAnchor? limits root parentRoot state before = .ok start)
    (inRange : rules.stateSlot state < slotLimit)
    (run : Chain.Run (fun _ call => call.InRange rules) start chain log)
    (canonical : chain.recent.canonicalChain.1 = .ok entries)
    (isOldest : entries.getLast? = some oldest) (earliest : chain.recent.earliest? = some oldest) :
    ∃ walk items, chain.walk.1 = .ok walk ∧ walk.Yields chain.archive.record items ∧
      (chain.archive.record.start? = .ok (some walk.start) ∨
        chain.archive.record.start? = .ok none ∧ oldest.step = .ok walk.start) ∧
      (∃ head, chain.recent.head.1 = .ok head ∧ head.step = .ok walk.stop) ∧
      (∀ (index : Nat) (previous item : ChainEntry State Context),
        items[index]? = some previous → items[index + 1]? = some item →
        item.TakesUp (taken log ++ entries.reverse) ⟨walk.start.number + (index + 1)⟩ previous) ∧
      (∀ step, (chain.byStep? step).1 =
        .ok (if walk.start ≤ step then items[step.number - walk.start.number]? else none)) ∧
      (∀ step, oldest.number ≤ step.number → step ≤ walk.stop →
        ∃ (entry : Entry State Context) (item : ChainEntry State Context),
          (chain.recent.byStep? step).1 = .ok (some entry) ∧
          items[step.number - walk.start.number]? = some item ∧
          entry.blockRoot = item.blockRoot ∧ entry.stateRoot = item.stateRoot) ∧
      ∀ slot, walk.start.number ≤ 2 * slot + 1 → 2 * slot + 1 ≤ walk.stop.number →
        Chain.IsNewRoot (taken log) slot →
        ∃ found item : ChainEntry State Context, (chain.bySlot? slot).1 = .ok (some found) ∧
          items[2 * slot + 1 - walk.start.number]? = some item ∧
          found.blockRoot = item.blockRoot ∧ found.stateRoot = item.stateRoot := by
  obtain ⟨sound, first, head, isHead, spans⟩ :=
    Chain.exists_spans started inRange run canonical isOldest earliest
  obtain ⟨items, itemized⟩ := spans.exists_itemized
  have isEldest : entries.reverse.head? = some oldest := by rw [List.head?_reverse, isOldest]
  have headRange := spans.inRange head (List.mem_of_getLast? spans.isHead)
  refine ⟨_, items, Chain.walk_eq spans sound canonical isHead, itemized.yields headRange, ?_,
    ⟨head, isHead, head.step_of_lt headRange⟩, fun _ _ _ before here =>
      itemized.takesUp spans before here, ?_, ?_, ?_⟩
  · rcases spans.start?_cases with start | ⟨start, isFirst⟩
    · exact .inl start
    · obtain rfl := Option.some.inj (isEldest.symm.trans isFirst)
      exact .inr ⟨start, oldest.step_of_lt (spans.inRange oldest (List.mem_of_head? isFirst))⟩
  · intro step
    rw [Chain.byStep?_eq canonical]
    exact itemized.canonicalAt?_eq spans step.number
  · intro step notBefore notBehind
    obtain ⟨entry, found, latest⟩ :=
      Chain.recent_byStep?_eq spans canonical isEldest notBefore notBehind
    have notEarly := number_le_of_head? spans.isChain spans.isFirst oldest
      (List.mem_append_right _ (List.mem_of_head? isEldest))
    obtain ⟨item, _, here, latestToo, shows⟩ :=
      itemized.exists_item (Nat.le_trans notEarly notBefore) notBehind
    obtain rfl := Option.some.inj (latest.symm.trans latestToo)
    exact ⟨entry, item, found, here, shows.blockRoot.symm, shows.stateRoot.symm⟩
  · intro slot notBefore notBehind isNew
    obtain ⟨found, entry, bySlot, latest, sameBlock, sameState⟩ :=
      Chain.bySlot?_eq spans canonical notBefore notBehind isNew
    obtain ⟨item, _, here, latestToo, shows⟩ := itemized.exists_item notBefore notBehind
    obtain rfl := Option.some.inj (latest.symm.trans latestToo)
    exact ⟨found, item, bySlot, here, by rw [sameBlock, shows.blockRoot],
      by rw [sameState, shows.stateRoot]⟩

/-- The chain after blocks have been added one after the other, and the log. -/
def Chain.afterBlocks (blocks : List ScriptedBlock) :
    Chain .minimal (Scripted.rules []) StateStore.memory × List (Handover ScriptedState Nat) :=
  blocks.foldl (fun (chain, log) block =>
    (chain.perform (.addBlock block fun _ => false),
      chain.noted log (.addBlock block fun _ => false)))
    (trialStart, [])

theorem Chain.run_afterBlocks
    (blocks : List ScriptedBlock) (inRange : ∀ block ∈ blocks, block.slot < slotLimit) :
    Chain.Run (fun _ call => call.InRange (Scripted.rules [])) trialStart (afterBlocks blocks).1
      (afterBlocks blocks).2 := by
  induction blocks using List.reverseRecOn with
  | nil => exact .start
  | append_singleton earlier block ih =>
    have run := ih fun other member => inRange other (List.mem_append_left _ member)
    have allowed := inRange block (List.mem_append_right _ List.mem_cons_self)
    unfold afterBlocks at run ⊢
    rw [List.foldl_append]
    exact run.call (.addBlock block fun _ => false) allowed

/-- A block after empty slots, and one above it whose checkpoint leads to an empty slot. -/
def walkedBlocks : List ScriptedBlock :=
  [{ slot := 6, root := ⟨11⟩, parentRoot := ⟨10⟩ },
   { slot := 9, root := ⟨12⟩, parentRoot := ⟨11⟩, justified := some ⟨1, ⟨11⟩⟩,
     finalized := some ⟨1, ⟨11⟩⟩ }]

theorem walk_visits_every_step_walkedBlocks :
    ∃ (walk : Walk ScriptedState Nat) (items : List (ChainEntry ScriptedState Nat)),
      (taken (Chain.afterBlocks walkedBlocks).2).map Entry.ref =
        (List.range 7).map (⟨⟨10⟩, ·⟩) ++ [⟨⟨11⟩, 6⟩, ⟨⟨11⟩, 7⟩] ∧
      (Chain.afterBlocks walkedBlocks).1.walk.1 = .ok walk ∧
      walk.Yields (Chain.afterBlocks walkedBlocks).1.archive.record items ∧ items.length = 19 ∧
      (Chain.afterBlocks walkedBlocks).1.archive.record.start? = .ok (some walk.start) ∧
      ∃ found item : ChainEntry ScriptedState Nat,
        ((Chain.afterBlocks walkedBlocks).1.bySlot? 6).1 = .ok (some found) ∧
        items[12]? = some item ∧ found.blockRoot = item.blockRoot ∧
        found.stateRoot = item.stateRoot := by
  have run := Chain.run_afterBlocks walkedBlocks (by decide)
  have started : Chain.ofAnchor? .minimal ⟨10⟩ ⟨9⟩ trialAnchor {} = .ok trialStart := rfl
  have reaches : (Chain.afterBlocks walkedBlocks).1.recent.canonicalChain.1.map List.getLast? =
      .ok (Chain.afterBlocks walkedBlocks).1.recent.earliest? := by decide
  have known : (Chain.afterBlocks walkedBlocks).1.recent.earliest?.isSome := by decide
  have ends : (Chain.afterBlocks walkedBlocks).1.walk.1.map (fun walk => (walk.start, walk.stop)) =
      .ok (⟨1⟩, ⟨19⟩) := by decide
  have isNew : Chain.IsNewRoot (taken (Chain.afterBlocks walkedBlocks).2) 6 := by decide
  obtain ⟨oldest, earliest⟩ := Option.isSome_iff_exists.1 known
  cases canonical : (Chain.afterBlocks walkedBlocks).1.recent.canonicalChain.1 with
  | error error =>
    rw [canonical] at reaches
    cases reaches
  | ok entries =>
    rw [canonical, earliest] at reaches
    obtain ⟨walk, items, walked, yields, start, _, _, _, _, bySlot⟩ :=
      walk_visits_every_step started (by decide) run canonical (Except.ok.inj reaches) earliest
    rw [walked] at ends
    obtain ⟨isStart, isStop⟩ := Prod.mk.inj (Except.ok.inj ends)
    have length := yields.length_eq
    rw [isStart, isStop] at length
    have archived : (Chain.afterBlocks walkedBlocks).1.archive.record.start? = .ok (some ⟨1⟩) := by
      decide
    have found := bySlot 6 (by rw [isStart]; decide) (by rw [isStop]; decide) isNew
    rw [isStart] at found
    exact ⟨walk, items, by decide, walked, yields, Nat.add_left_cancel length,
      by rw [archived, isStart], found⟩

/-- A block root that is used once more after its first block has been archived, until the second
one is archived too. -/
def repeatedBlocks : List ScriptedBlock :=
  [{ slot := 1, root := ⟨11⟩, parentRoot := ⟨10⟩ },
   { slot := 8, root := ⟨12⟩, parentRoot := ⟨11⟩ },
   { slot := 9, root := ⟨13⟩, parentRoot := ⟨12⟩, justified := some ⟨1, ⟨12⟩⟩,
     finalized := some ⟨1, ⟨12⟩⟩ },
   { slot := 10, root := ⟨11⟩, parentRoot := ⟨13⟩ },
   { slot := 16, root := ⟨14⟩, parentRoot := ⟨11⟩ },
   { slot := 17, root := ⟨15⟩, parentRoot := ⟨14⟩, justified := some ⟨2, ⟨14⟩⟩,
     finalized := some ⟨2, ⟨14⟩⟩ }]

/-- The slot of the second block leads to the empty slot before it, although the walk meets the
block at its step. -/
theorem bySlot_misses_repeatedRoot :
    Chain.ofAnchor? .minimal ⟨10⟩ ⟨9⟩ trialAnchor {} = .ok trialStart ∧
    Chain.Run (fun _ call => call.InRange (Scripted.rules [])) trialStart
      (Chain.afterBlocks repeatedBlocks).1 (Chain.afterBlocks repeatedBlocks).2 ∧
    (Chain.afterBlocks repeatedBlocks).1.recent.canonicalChain.1.map List.getLast? =
      .ok (Chain.afterBlocks repeatedBlocks).1.recent.earliest? ∧
    (Chain.afterBlocks repeatedBlocks).1.recent.earliest?.isSome ∧
    (Chain.afterBlocks repeatedBlocks).1.walk.1.map (fun walk => (walk.start, walk.stop)) =
      .ok (⟨1⟩, ⟨35⟩) ∧
    ((Chain.afterBlocks repeatedBlocks).1.byStep? ⟨21⟩).1.map (·.map ChainEntry.blockRoot) =
      .ok (some ⟨11⟩) ∧
    ((Chain.afterBlocks repeatedBlocks).1.bySlot? 10).1.map (·.map ChainEntry.blockRoot) =
      .ok (some ⟨13⟩) :=
  ⟨rfl, Chain.run_afterBlocks repeatedBlocks (by decide), by decide +kernel, by decide +kernel,
    by decide +kernel, by decide +kernel, by decide +kernel⟩

end BeaconChain
