import BeaconChain.Chain.Walk
import BeaconChain.Proofs.Archive.LookUps

/-!
# Steps of the whole chain

The archived entries and the recent ones form one sequence.  At every step of it the entry in
effect is found, in the archive, among the recent entries or in the gap between them, and
nothing is found before or behind.
-/

namespace BeaconChain

variable {State Block Context : Type} {rules : Rules State Block Context} {record : Record}
  {entry first last head oldest : Entry State Context}
  {archived recent before after : List (Entry State Context)} {number : Nat}

/-- An item stands at a step, with the roots of an entry. -/
structure ChainEntry.Shows (item : ChainEntry State Context) (number : Nat)
    (entry : Entry State Context) : Prop where
  step : item.step = .ok ⟨number⟩
  blockRoot : item.blockRoot = entry.blockRoot
  stateRoot : item.stateRoot = entry.stateRoot

theorem Entry.step_of_lt (inRange : entry.slot < slotLimit) : entry.step = .ok ⟨entry.number⟩ :=
  Step.ofSlot_of_lt inRange entry.hasBlock

/-- Whether an entry stands at a step or before it. -/
def Entry.reaches (step : Step) (entry : Entry State Context) : Except Error Bool := do
  let entryStep ← entry.step
  return (entryStep ≤ step : Bool)

theorem Entry.reaches_eq (inRange : entry.slot < slotLimit) (number : Nat) :
    entry.reaches ⟨number⟩ = .ok (decide (entry.number ≤ number)) := by
  simp only [reaches, entry.step_of_lt inRange]
  rfl

theorem countLeading_of_inEffect
    (inEffect : InEffect recent number before entry after)
    (isChain : recent.IsChain (Follows rules))
    (inRange : ∀ entry ∈ recent, entry.slot < slotLimit) :
    countLeading (Entry.reaches ⟨number⟩) recent = .ok (before.length + 1) := by
  have earlier := inEffect.earlier isChain
  have split : recent = (before ++ [entry]) ++ after := by simp [inEffect.split]
  rw [split, countLeading_append, List.length_append]
  · rfl
  · intro other member
    rw [Entry.reaches_eq (inRange other (split ▸ List.mem_append_left after member))]
    have notLater := inEffect.notLater
    have reached : other.number ≤ number := by
      rcases List.mem_append.1 member with front | isEntry
      · have := earlier other front
        omega
      · rw [List.mem_singleton.1 isEntry]
        exact notLater
    rw [decide_eq_true reached]
    rfl
  · intro other member
    rw [Entry.reaches_eq (inRange other (split ▸ List.mem_append_right _ member))]
    have behind := inEffect.behind other member
    rw [decide_eq_false (Nat.not_le.2 behind)]
    rfl

theorem countLeading_of_later
    (later : ∀ entry ∈ recent, number < entry.number)
    (inRange : ∀ entry ∈ recent, entry.slot < slotLimit) :
    countLeading (Entry.reaches ⟨number⟩) recent = .ok 0 := by
  rw [← List.nil_append recent, countLeading_append]
  · rfl
  · intro other member
    cases member
  · intro other member
    rw [Entry.reaches_eq (inRange other member),
      decide_eq_false (Nat.not_le.2 (later other member))]
    rfl

namespace Chain

/-- What is finalized at a step, or stands right behind. -/
def archivedAt? (record : Record) (step : Step) :
    Except Error (Option (ChainEntry State Context)) := do
  match record.entry? step with
  | some entry => return some (.archived entry)
  | none => do
    let gap ← record.trailingGap? step
    return gap.map .archived

theorem canonicalAt?_eq
    {step : Step} {count : Nat} (counted : countLeading (Entry.reaches step) recent = .ok count) :
    canonicalAt? recent record step = (
      match (recent.take count).getLast? with
      | none => archivedAt? record step
      | some entry => do
        let entryStep ← entry.step
        if entryStep = step then
          return some (.recent entry)
        else if step.hasBlock ∧ entry.slot = step.slot ∧ count < recent.length then
          return some (.gap step entry)
        else
          archivedAt? record step) := by
  change (countLeading (Entry.reaches step) recent >>= _) = _
  rw [counted]
  rfl

theorem canonicalAt?_of_later
    (later : ∀ entry ∈ recent, number < entry.number)
    (inRange : ∀ entry ∈ recent, entry.slot < slotLimit) :
    canonicalAt? recent record ⟨number⟩ = archivedAt? record ⟨number⟩ := by
  rw [canonicalAt?_eq (countLeading_of_later later inRange)]
  rfl

theorem canonicalAt?_of_inEffect
    (inEffect : InEffect recent number before entry after)
    (isChain : recent.IsChain (Follows rules))
    (inRange : ∀ entry ∈ recent, entry.slot < slotLimit) :
    canonicalAt? recent record ⟨number⟩ =
      if entry.number = number then .ok (some (.recent entry))
      else if (⟨number⟩ : Step).hasBlock ∧ entry.slot = (⟨number⟩ : Step).slot ∧ after ≠ [] then
        .ok (some (.gap ⟨number⟩ entry))
      else archivedAt? record ⟨number⟩ := by
  have split : recent = (before ++ [entry]) ++ after := by simp [inEffect.split]
  have taken : (recent.take (before.length + 1)).getLast? = some entry := by
    rw [split, List.take_left' (by simp)]
    simp
  have stepOf := entry.step_of_lt (inRange entry (by simp [inEffect.split]))
  have more : before.length + 1 < recent.length ↔ after ≠ [] := by
    rw [split]
    simp [List.length_pos_iff]
  rw [canonicalAt?_eq (countLeading_of_inEffect inEffect isChain inRange), taken]
  simp only [stepOf, bind, Except.bind, Step.mk.injEq, more]
  rfl

theorem archivedAt?_of_entry?
    {found : ArchivedEntry} {step : Step} (recorded : record.entry? step = some found) :
    archivedAt? record step = .ok (some (.archived found : ChainEntry State Context)) := by
  simp only [archivedAt?, recorded]
  rfl

theorem archivedAt?_of_trailingGap?
    {found : Option ArchivedEntry} {step : Step} (absent : record.entry? step = none)
    (gap : record.trailingGap? step = .ok found) :
    archivedAt? record step =
      .ok (found.map fun entry => (.archived entry : ChainEntry State Context)) := by
  simp only [archivedAt?, absent, gap, bind, Except.bind]
  rfl

end Chain

theorem InEffect.find?_reverse
    {passes : Entry State Context → Bool} (inEffect : InEffect recent number before entry after)
    (here : passes entry = true) (elsewhere : ∀ later ∈ after, passes later = false) :
    recent.reverse.find? passes = some entry := by
  refine List.find?_eq_some_iff_append.2
    ⟨here, after.reverse, before.reverse, ?_, fun later member => ?_⟩
  · simp [inEffect.split]
  · rw [elsewhere later (List.mem_reverse.1 member)]
    rfl

/-- The youngest entry that a step may lead to is the one in effect. -/
theorem find?_atStep
    (inEffect : InEffect recent number before entry after)
    (isChain : recent.IsChain (Follows rules))
    (isHead : recent.getLast? = some head) (notBehind : number ≤ head.number) :
    recent.reverse.find? (fun entry => entry.slot = (⟨number⟩ : Step).slot &&
      ((⟨number⟩ : Step).hasBlock || !entry.hasBlock)) = some entry := by
  have cases := inEffect.number_cases isChain isHead notBehind
  refine inEffect.find?_reverse ?_ fun later member => ?_
  · rcases cases with rfl | ⟨rfl, empty, _⟩
    · cases hasBlock : entry.hasBlock with
      | true => simp [Entry.number_of_hasBlock hasBlock]
      | false => simp [Entry.number_of_empty hasBlock]
    · simp
  · have behind := inEffect.behind later member
    have slotOf : (⟨number⟩ : Step).slot = number / 2 := rfl
    have oddOf : (⟨number⟩ : Step).hasBlock = decide (number % 2 = 1) := rfl
    cases hasBlock : later.hasBlock with
    | true =>
      have here := Entry.number_of_hasBlock hasBlock
      rw [slotOf, oddOf, Bool.not_true, Bool.or_false, ← Bool.decide_and]
      exact decide_eq_false (by omega)
    | false =>
      have here := Entry.number_of_empty hasBlock
      rw [slotOf, decide_eq_false (by omega), Bool.false_and]

/-- The youngest entry of a slot is the one in effect at its block step. -/
theorem find?_atSlot
    (inEffect : InEffect recent (2 * entry.slot + 1) before entry after) :
    recent.reverse.find? (fun other => other.slot = entry.slot) = some entry := by
  refine inEffect.find?_reverse (decide_eq_true rfl) fun later member => decide_eq_false ?_
  have behind := inEffect.behind later member
  have bounds := later.number_bounds
  omega

/-- The record holds the archived entries, and the recent ones, up to the head, go on where
they end. -/
structure Spans (rules : Rules State Block Context) (record : Record)
    (archived recent : List (Entry State Context)) (first head : Entry State Context) : Prop where
  holds : record.Holds archived
  isChain : (archived ++ recent).IsChain (Follows rules)
  isFirst : (archived ++ recent).head? = some first
  isHead : recent.getLast? = some head
  inRange : ∀ entry ∈ recent, entry.slot < slotLimit

namespace Spans

theorem isLast (spans : Spans rules record archived recent first head) :
    (archived ++ recent).getLast? = some head := by
  rw [List.getLast?_append, spans.isHead, Option.some_or]

theorem recentIsChain (spans : Spans rules record archived recent first head) :
    recent.IsChain (Follows rules) :=
  (List.isChain_append.1 spans.isChain).2.1

theorem exists_oldest (spans : Spans rules record archived recent first head) :
    ∃ oldest, recent.head? = some oldest := by
  cases recent with
  | nil => cases spans.isHead
  | cons oldest rest => exact ⟨oldest, rfl⟩

theorem follows
    (spans : Spans rules record archived recent first head) (isLast : archived.getLast? = some last)
    (isOldest : recent.head? = some oldest) : Follows rules last oldest :=
  (List.isChain_append.1 spans.isChain).2.2 last isLast oldest isOldest

theorem inRange_last (spans : Spans rules record archived recent first head) :
    ∀ last, archived.getLast? = some last → last.slot < slotLimit := by
  intro last isLast
  obtain ⟨oldest, isOldest⟩ := spans.exists_oldest
  exact Nat.lt_of_le_of_lt (spans.follows isLast isOldest).slot_le.1
    (spans.inRange oldest (List.mem_of_head? isOldest))

/-- What stands before the recent entries is archived. -/
theorem head?_archived
    (spans : Spans rules record archived recent first head) (isOldest : recent.head? = some oldest)
    (early : first.number < oldest.number) : archived.head? = some first := by
  have isFirst := spans.isFirst
  cases archived with
  | nil =>
    obtain rfl := Option.some.inj (isFirst.symm.trans isOldest)
    omega
  | cons eldest rest => exact isFirst

theorem exists_inEffect_archived
    (spans : Spans rules record archived recent first head) (isOldest : recent.head? = some oldest)
    (notBefore : first.number ≤ number) (early : number < oldest.number) :
    ∃ before entry after, InEffect archived number before entry after :=
  exists_inEffect (spans.head?_archived isOldest (by omega)) notBefore

/-- Before the recent entries stand the archived ones, and the gap behind them. -/
theorem archivedAt?_of_mem
    (spans : Spans rules record archived recent first head) (isOldest : recent.head? = some oldest)
    (notBefore : first.number ≤ number) (early : number < oldest.number) :
    ∃ item entry, Chain.archivedAt? record ⟨number⟩ = .ok (some item) ∧
      latestAt? archived number = some entry ∧ item.Shows number entry := by
  have isFirst := spans.head?_archived isOldest (by omega)
  obtain ⟨before, entry, after, inEffect⟩ := exists_inEffect isFirst notBefore
  cases isLast : archived.getLast? with
  | none =>
    rw [List.getLast?_eq_none_iff.1 isLast] at isFirst
    cases isFirst
  | some last =>
    have stopEq := spans.holds.stop_eq isLast
    have start := spans.holds.start first isFirst
    by_cases inside : number ≤ last.number
    · have recorded : record.entry? ⟨number⟩ = _ :=
        spans.holds.entry?_of_mem (by omega) (by omega)
      rw [inEffect.latestAt?_eq] at recorded
      exact ⟨_, entry, Chain.archivedAt?_of_entry? recorded, inEffect.latestAt?_eq, rfl, rfl, rfl⟩
    · -- only the block step of an empty slot is passed over
      have next := (spans.follows isLast isOldest).number_cases
      obtain rfl : number = last.number + 1 := by omega
      have empty : last.hasBlock = false := by
        rcases next with one | ⟨_, empty, _⟩
        · omega
        · exact empty
      have absent : record.entry? ⟨last.number + 1⟩ = none :=
        Record.entry?_of_notMem (.inr (Nat.le_of_eq stopEq))
      have gap := spans.holds.trailingGap?_of_behind isLast (spans.inRange_last last isLast) empty
      exact ⟨_, last, Chain.archivedAt?_of_trailingGap? absent gap,
        latestAt?_of_last isLast (Nat.le_succ _), rfl, rfl, rfl⟩

theorem archivedAt?_of_notMem
    (spans : Spans rules record archived recent first head)
    (outside : number < first.number ∨ head.number < number) :
    (Chain.archivedAt? record ⟨number⟩ : Except Error (Option (ChainEntry State Context))) =
      .ok none := by
  obtain ⟨oldest, isOldest⟩ := spans.exists_oldest
  have notLater := number_le_of_head? spans.recentIsChain isOldest head
    (List.mem_of_getLast? spans.isHead)
  have apart : (number < record.start.number ∨ record.start.number + record.size ≤ number) ∧
      ∀ last, archived.getLast? = some last → number ≠ last.number + 1 := by
    cases isLast : archived.getLast? with
    | none =>
      have noRows := List.getLast?_eq_none_iff.1 isLast ▸ spans.holds
      have sizeEq : record.size = 0 := by simp [Record.size, noRows.rows_eq_nil]
      exact ⟨by omega, fun _ same => by cases same⟩
    | some last =>
      have stopEq := spans.holds.stop_eq isLast
      have later := number_lt_of_comes (spans.follows isLast isOldest)
      obtain ⟨eldest, isEldest⟩ : ∃ eldest, archived.head? = some eldest := by
        cases archived with
        | nil => cases isLast
        | cons eldest rest => exact ⟨eldest, rfl⟩
      obtain rfl : eldest = first := by
        have isFirst := spans.isFirst
        rw [List.head?_append, isEldest, Option.some_or] at isFirst
        exact Option.some.inj isFirst
      have start := spans.holds.start eldest isEldest
      have bound := number_le_of_head? (List.isChain_append.1 spans.isChain).1 isEldest last
        (List.mem_of_getLast? isLast)
      refine ⟨by omega, fun other same => ?_⟩
      obtain rfl := Option.some.inj same
      omega
  have absent := Record.entry?_of_notMem apart.1
  exact Chain.archivedAt?_of_trailingGap? absent
    (spans.holds.trailingGap?_eq_none spans.inRange_last apart.2)

/-- From the oldest recent entry on the entry in effect is found without the record. -/
theorem canonicalAt?_of_reached
    (spans : Spans rules record archived recent first head) (isOldest : recent.head? = some oldest)
    (reached : oldest.number ≤ number) (notBehind : number ≤ head.number) (other : Record) :
    ∃ item entry, Chain.canonicalAt? recent other ⟨number⟩ = .ok (some item) ∧
      latestAt? (archived ++ recent) number = some entry ∧ item.Shows number entry := by
  obtain ⟨before, entry, after, inEffect⟩ := exists_inEffect isOldest reached
  have stepOf := entry.step_of_lt (spans.inRange entry (by simp [inEffect.split]))
  rw [Chain.canonicalAt?_of_inEffect inEffect spans.recentIsChain spans.inRange, latestAt?_append,
    inEffect.latestAt?_eq]
  rcases inEffect.number_cases spans.recentIsChain spans.isHead notBehind with
    same | ⟨gap, empty, more⟩
  · exact ⟨.recent entry, entry, if_pos same, rfl, same ▸ stepOf, rfl, rfl⟩
  · have elsewhere : entry.number ≠ number := by
      rw [Entry.number_of_empty empty]
      omega
    subst gap
    refine ⟨.gap _ entry, entry, ?_, rfl, rfl, rfl, rfl⟩
    rw [if_neg elsewhere, Step.hasBlock_odd, Step.slot_odd, if_pos ⟨rfl, rfl, more⟩]

theorem later_of_head?
    (spans : Spans rules record archived recent first head) (isOldest : recent.head? = some oldest)
    (early : number < oldest.number) : ∀ entry ∈ recent, number < entry.number :=
  fun entry member =>
    Nat.lt_of_lt_of_le early (number_le_of_head? spans.recentIsChain isOldest entry member)

/-- Within the sequence the entry in effect is found. -/
theorem canonicalAt?_of_mem
    (spans : Spans rules record archived recent first head) (notBefore : first.number ≤ number)
    (notBehind : number ≤ head.number) :
    ∃ item entry, Chain.canonicalAt? recent record ⟨number⟩ = .ok (some item) ∧
      latestAt? (archived ++ recent) number = some entry ∧ item.Shows number entry := by
  obtain ⟨oldest, isOldest⟩ := spans.exists_oldest
  by_cases reached : oldest.number ≤ number
  · exact spans.canonicalAt?_of_reached isOldest reached notBehind record
  · have early := Nat.lt_of_not_le reached
    have later := spans.later_of_head? isOldest early
    rw [Chain.canonicalAt?_of_later later spans.inRange, latestAt?_append, latestAt?_eq_none later,
      Option.none_or]
    exact spans.archivedAt?_of_mem isOldest notBefore early

theorem canonicalAt?_of_notMem
    (spans : Spans rules record archived recent first head)
    (outside : number < first.number ∨ head.number < number) :
    Chain.canonicalAt? recent record ⟨number⟩ = .ok none := by
  have nothing := spans.archivedAt?_of_notMem outside
  rcases outside with early | late
  · have later : ∀ entry ∈ recent, number < entry.number := fun entry member =>
      Nat.lt_of_lt_of_le early
        (number_le_of_head? spans.isChain spans.isFirst entry (List.mem_append_right _ member))
    rw [Chain.canonicalAt?_of_later later spans.inRange, nothing]
  · obtain ⟨before, split⟩ := List.getLast?_eq_some_iff.1 spans.isHead
    have inEffect : InEffect recent number before head [] :=
      ⟨split, Nat.le_of_lt late, fun _ member => absurd member List.not_mem_nil⟩
    rw [Chain.canonicalAt?_of_inEffect inEffect spans.recentIsChain spans.inRange,
      if_neg (Nat.ne_of_lt late), if_neg (fun both => both.2.2 rfl), nothing]

end Spans

end BeaconChain
