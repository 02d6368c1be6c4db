import BeaconChain.Proofs.Archive.Rows

/-!
# Look-ups in the record

What a record of a sequence of entries finds at a step: the entry in effect, up to the last
one.  The block step right behind an empty slot at its end is not in the record, but can be
answered.
-/

namespace BeaconChain

variable {State Context : Type}
  {comes : Entry State Context → Entry State Context → Prop} [Successive comes]

/-- The finalized entry that repeats the roots of an entry at a step. -/
def Entry.archivedAt (entry : Entry State Context) (number : Nat) : ArchivedEntry :=
  ⟨⟨number⟩, entry.blockRoot, entry.stateRoot⟩

namespace Record

variable {record : Record} {first last entry : Entry State Context}
  {entries : List (Entry State Context)} {number : Nat}

theorem index?_of_mem
    (notBefore : record.start.number ≤ number)
    (notBehind : number < record.start.number + record.size) :
    record.index? ⟨number⟩ = some (number - record.start.number) := by
  have started : record.start ≤ ⟨number⟩ := notBefore
  simp only [index?, started, true_and]
  exact if_pos (by omega)

theorem index?_of_notMem
    (outside : number < record.start.number ∨ record.start.number + record.size ≤ number) :
    record.index? ⟨number⟩ = none := by
  unfold index?
  refine if_neg fun ⟨started, inside⟩ => ?_
  have notBefore : record.start.number ≤ number := started
  simp only at inside
  omega

theorem entry?_of_notMem
    (outside : number < record.start.number ∨ record.start.number + record.size ≤ number) :
    record.entry? ⟨number⟩ = none := by
  simp [row?, entry?, index?_of_notMem outside]

namespace Holds

theorem row?_of_mem
    (holds : record.Holds entries) (notBefore : record.start.number ≤ number)
    (notBehind : number < record.start.number + record.size) :
    record.row? ⟨number⟩ = (latestAt? entries number).map Entry.row := by
  have row := holds.rows (number - record.start.number) (by omega)
  rw [Nat.add_sub_cancel' notBefore] at row
  simpa only [row?, index?_of_mem notBefore notBehind, Option.bind_eq_bind, Option.bind_some]
    using row

theorem entry?_of_mem
    (holds : record.Holds entries) (notBefore : record.start.number ≤ number)
    (notBehind : number < record.start.number + record.size) :
    record.entry? ⟨number⟩ =
      (latestAt? entries number).map fun entry => entry.archivedAt number := by
  unfold entry?
  rw [holds.row?_of_mem notBefore notBehind]
  cases latestAt? entries number <;> rfl

theorem stop?_eq_none (holds : record.Holds ([] : List (Entry State Context))) :
    record.stop? = .ok none := by
  simp [stop?, holds.rows_eq_nil]

theorem stop?_eq_some
    (holds : record.Holds entries) (isLast : entries.getLast? = some last)
    (inRange : last.slot < slotLimit) : record.stop? = .ok (some ⟨last.number + 1⟩) := by
  have someRows : record.rows.isEmpty = false := by
    simpa [size, List.length_pos_iff] using holds.size_pos isLast
  have stopEq := holds.stop_eq isLast
  have limits : Step.limit = 2 * slotLimit + 2 := rfl
  have bounds := last.number_bounds
  rw [stop?, someRows, if_neg Bool.false_ne_true, stop, Step.advance_of_lt (by omega), stopEq]
  rfl

/-- The record starts with the first entry. -/
theorem start?_eq
    (holds : record.Holds entries) (inRange : ∀ last, entries.getLast? = some last →
      last.slot < slotLimit) :
    record.start? = .ok (entries.head?.map fun first => ⟨first.number⟩) := by
  cases isFirst : entries.head? with
  | none =>
    rw [List.head?_eq_none_iff] at isFirst
    subst isFirst
    simp only [start?, holds.stop?_eq_none, bind, Except.bind]
    rfl
  | some first =>
    obtain ⟨last, isLast⟩ : ∃ last, entries.getLast? = some last := by
      obtain ⟨rest, rfl⟩ := List.head?_eq_some_iff.1 isFirst
      exact ⟨_, List.getLast?_cons⟩
    have start : record.start = ⟨first.number⟩ := congrArg Step.mk (holds.start first isFirst)
    simp only [start?, holds.stop?_eq_some isLast (inRange last isLast), start, bind, Except.bind]
    rfl

/-- Right behind an empty slot its roots are repeated. -/
theorem trailingGap?_of_behind
    (holds : record.Holds entries) (isLast : entries.getLast? = some last)
    (inRange : last.slot < slotLimit) (empty : last.hasBlock = false) :
    record.trailingGap? ⟨last.number + 1⟩ = .ok (some (last.archivedAt (last.number + 1))) := by
  have here := Entry.number_of_empty empty
  have stopEq := holds.stop_eq isLast
  have someRows := holds.size_pos isLast
  have odd : (⟨last.number + 1⟩ : Step).hasBlock = true := by
    rw [here, Step.hasBlock_odd]
  have slotOf : (⟨last.number + 1⟩ : Step).slot = last.slot := by
    rw [here, Step.slot_odd]
  have slotStep : Step.ofSlot last.slot false = .ok ⟨last.number⟩ := by
    rw [Step.ofSlot_of_lt inRange false, here]
    rfl
  have lastEntry : record.entry? ⟨last.number⟩ = _ :=
    holds.entry?_of_mem (by omega) (by omega)
  rw [latestAt?_of_last isLast (Nat.le_refl _)] at lastEntry
  simp only [trailingGap?, odd, holds.stop?_eq_some isLast inRange, slotOf, slotStep, bind,
    Except.bind, lastEntry]
  rfl

/-- Anywhere else the end of the record says nothing. -/
theorem trailingGap?_eq_none
    (holds : record.Holds entries)
    (inRange : ∀ last, entries.getLast? = some last → last.slot < slotLimit)
    (elsewhere : ∀ last, entries.getLast? = some last → number ≠ last.number + 1) :
    record.trailingGap? ⟨number⟩ = .ok none := by
  have notStop : ∃ stop, record.stop? = .ok stop ∧ stop ≠ some ⟨number⟩ := by
    cases isLast : entries.getLast? with
    | none =>
      rw [List.getLast?_eq_none_iff] at isLast
      subst isLast
      exact ⟨none, holds.stop?_eq_none, nofun⟩
    | some last =>
      refine ⟨_, holds.stop?_eq_some isLast (inRange last isLast), fun same => ?_⟩
      exact elsewhere last isLast (congrArg Step.number (Option.some.inj same)).symm
  obtain ⟨stop, stopOf, different⟩ := notStop
  unfold trailingGap?
  split
  next => rfl
  next =>
    simp only [stopOf, bind, Except.bind, different, if_false]
    rfl

theorem isBlockStep_eq
    (holds : record.Holds entries) (notBefore : record.start.number ≤ number)
    (notBehind : number < record.start.number + record.size)
    (latest : latestAt? entries number = some entry) :
    record.isBlockStep ⟨number⟩ =
      (decide (record.blockSteps.find? entry.blockRoot = some ⟨number⟩) &&
        (⟨number⟩ : Step).hasBlock) := by
  have row := holds.row?_of_mem notBefore notBehind
  rw [latest] at row
  simp only [isBlockStep, row]
  rfl

theorem isBlockStep_of_notMem
    (outside : number < record.start.number ∨ record.start.number + record.size ≤ number) :
    record.isBlockStep ⟨number⟩ = false := by
  simp [isBlockStep, row?, index?_of_notMem outside]

/-- The first entry of a block root is found. -/
theorem blockSteps_of_first
    {before after : List (Entry State Context)} (holds : record.Holds entries)
    (split : entries = before ++ entry :: after)
    (isFirst : ∀ earlier ∈ before, earlier.blockRoot ≠ entry.blockRoot) :
    record.blockSteps.find? entry.blockRoot = some ⟨entry.number⟩ := by
  have found : entries.find? (fun other => other.row.blockRoot = entry.blockRoot) = some entry := by
    rw [List.find?_eq_some_iff_append]
    refine ⟨decide_eq_true rfl, before, after, split, fun earlier member => ?_⟩
    rw [Bool.not_eq_true', decide_eq_false_iff_not]
    exact isFirst earlier member
  rw [holds.blockSteps entry.blockRoot, found]
  rfl

/-- Behind an entry no step is the first one of its block root. -/
theorem isBlockStep_of_behind
    {before after : List (Entry State Context)} (holds : record.Holds entries)
    (isChain : entries.IsChain comes) (inEffect : InEffect entries number before entry after)
    (behind : entry.number < number) : record.isBlockStep ⟨number⟩ = false := by
  by_cases inside : record.start.number ≤ number ∧ number < record.start.number + record.size
  · rw [holds.isBlockStep_eq inside.1 inside.2 inEffect.latestAt?_eq, holds.blockSteps]
    obtain ⟨first, found⟩ : ∃ first, (before ++ [entry]).find?
        (fun other => other.row.blockRoot = entry.blockRoot) = some first :=
      Option.isSome_iff_exists.1 (List.find?_isSome.2 ⟨entry, by simp, decide_eq_true rfl⟩)
    have isFirst : entries.find? (fun other => other.row.blockRoot = entry.blockRoot) =
        some first := by
      rw [show entries = (before ++ [entry]) ++ after by simp [inEffect.split], List.find?_append,
        found, Option.some_or]
    have early : first.number ≤ entry.number := by
      rcases List.mem_append.1 (List.mem_of_find?_eq_some found) with front | isEntry
      · exact Nat.le_of_lt (inEffect.earlier isChain first front)
      · rw [List.mem_singleton.1 isEntry]
    have elsewhere : first.number ≠ number := by omega
    simp [isFirst, elsewhere]
  · exact isBlockStep_of_notMem (by omega)

/-- Every entry has a row. -/
theorem number_mem
    (holds : record.Holds entries) (isChain : entries.IsChain comes)
    (member : entry ∈ entries) :
    record.start.number ≤ entry.number ∧ entry.number < record.start.number + record.size := by
  cases entries with
  | nil => cases member
  | cons eldest rest =>
    have start := holds.start eldest rfl
    have notBefore := number_le_of_head? isChain rfl entry member
    have notBehind := number_le_of_getLast? isChain List.getLast?_cons entry member
    have stopEq := holds.stop_eq List.getLast?_cons
    omega

/-- A slot leads to its block, unless an earlier entry has the same block root, and to the empty
slot if there is no block. -/
theorem bySlot?_eq
    {before after : List (Entry State Context)} (holds : record.Holds entries)
    (isChain : entries.IsChain comes) (inRange : entry.slot < slotLimit)
    (inEffect : InEffect entries (2 * entry.slot + 1) before entry after)
    (isFirst : entry.hasBlock = true → ∀ earlier ∈ before, earlier.blockRoot ≠ entry.blockRoot) :
    record.bySlot? entry.slot = .ok (some (entry.archivedAt entry.number)) := by
  have blockStep := Step.ofSlot_of_lt inRange true
  have slotStep := Step.ofSlot_of_lt inRange false
  have member : entry ∈ entries := by simp [inEffect.split]
  have inside := holds.number_mem isChain member
  have here := latestAt?_of_mem isChain member
  have recorded := holds.entry?_of_mem inside.1 inside.2
  rw [here] at recorded
  cases hasBlock : entry.hasBlock with
  | true =>
    have number := Entry.number_of_hasBlock hasBlock
    have isBlock : record.isBlockStep ⟨2 * entry.slot + 1⟩ = true := by
      rw [← number, holds.isBlockStep_eq inside.1 inside.2 here,
        holds.blockSteps_of_first inEffect.split (isFirst hasBlock), number, Step.hasBlock_odd]
      simp
    rw [number] at recorded
    simp only [bySlot?, blockStep, bind, Except.bind, Bool.toNat_true, isBlock, if_true, recorded,
      number]
    rfl
  | false =>
    have number := Entry.number_of_empty hasBlock
    have noBlock := holds.isBlockStep_of_behind isChain inEffect (by omega)
    rw [number] at recorded
    simp only [bySlot?, blockStep, slotStep, bind, Except.bind, Bool.toNat_true, Bool.toNat_false,
      noBlock, Nat.add_zero, recorded, number]
    rfl

end Holds

end Record

end BeaconChain
