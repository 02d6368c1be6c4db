import BeaconChain.Archive.Basic
import BeaconChain.Proofs.RecentChain.Timeline

/-!
# Entries that fit

The record takes an entry if it goes on where the record ends, and no other one: it stands at the
step behind the last row, or leaves out only the block step of an empty slot, and links to the last
block.  So an archive refuses whatever does not fit, and takes the rest unless its store fails.
-/

namespace BeaconChain

variable {State Context contents : Type}

/-- The first slot whose block step has no step behind it. -/
def slotLimit : Nat := 0x7fffffffffffffff

theorem Step.ofSlot_of_lt {slot : Nat} (inRange : slot < slotLimit) (hasBlock : Bool) :
    Step.ofSlot slot hasBlock = .ok ⟨2 * slot + hasBlock.toNat⟩ := by
  rw [Step.ofSlot_eq_ok_iff]
  have small := Bool.toNat_le hasBlock
  simp only [slotLimit] at inRange
  exact ⟨by simp only [Step.limit]; omega, rfl⟩

theorem Step.advance_of_lt {step : Step} {count : Nat} (inRange : step.number + count < limit) :
    step.advance count = .ok ⟨step.number + count⟩ := by
  simp [advance, ofNumber, inRange]

@[simp]
theorem Step.slot_even (slot : Nat) : (⟨2 * slot⟩ : Step).slot = slot :=
  Nat.mul_div_right slot Nat.two_pos

@[simp]
theorem Step.slot_odd (slot : Nat) : (⟨2 * slot + 1⟩ : Step).slot = slot := by
  show (2 * slot + 1) / 2 = slot
  omega

@[simp]
theorem Step.hasBlock_even (slot : Nat) : (⟨2 * slot⟩ : Step).hasBlock = false := by
  simp [hasBlock]

@[simp]
theorem Step.hasBlock_odd (slot : Nat) : (⟨2 * slot + 1⟩ : Step).hasBlock = true := by
  rw [hasBlock, Nat.mul_add_mod_self_left]
  rfl

/-- The roots of an entry. -/
def Entry.row (entry : Entry State Context) : Row :=
  ⟨entry.blockRoot, entry.stateRoot⟩

namespace Record

/-- The number of the step behind the last row. -/
def behind (record : Record) : Nat := record.start.number + record.size

/-- The entry goes on where the record ends: it stands at the step behind the last row, or leaves
out a block step there, and links to the last block.  Any entry may be the first one. -/
inductive Fits (record : Record) (entry : Entry State Context) : Prop
  | first (noRows : record.rows = [])
  | next (last : Row) (lastRow : record.rows.getLast? = some last)
    (place : entry.number = record.behind ∨
      record.behind % 2 = 1 ∧ entry.number = record.behind + 1)
    (linked : entry.linkRoot = last.blockRoot)

/-- The rows that come with an entry: a block step that it leaves out repeats the last row. -/
def added (record : Record) (entry : Entry State Context) : List Row :=
  (if entry.number = record.behind then [] else record.rows.getLast?.toList) ++ [entry.row]

variable {record : Record} {entry : Entry State Context} {last : Row}

theorem rows_ne_nil (lastRow : record.rows.getLast? = some last) : record.rows ≠ [] := by
  intro noRows
  simp [noRows] at lastRow

/-- A row is shown at a step from the start on that the record has. -/
theorem row?_eq_some_iff {step : Step} {row : Row} :
    record.row? step = some row ↔
      record.start.number ≤ step.number ∧
        record.rows[step.number - record.start.number]? = some row := by
  have started : record.start ≤ step ↔ record.start.number ≤ step.number := Iff.rfl
  simp only [row?, index?, started, Option.bind_eq_bind, Option.bind_eq_some_iff]
  constructor
  · rintro ⟨index, found, here⟩
    split at found
    next inside =>
      obtain rfl := Option.some.inj found
      exact ⟨inside.1, here⟩
    next => cases found
  · rintro ⟨notBefore, here⟩
    exact ⟨_, if_pos ⟨notBefore, (List.getElem?_eq_some_iff.1 here).1⟩, here⟩

theorem checkNext_eq_ok
    {row : Row} {stop step : Step} {skips : Bool} {linkRoot : Root}
    (lastRow : record.rows.getLast? = some row) (stopOf : record.stop = .ok stop)
    (gap : skipsGap stop step = .ok skips) (notBefore : stop.number ≤ step.number)
    (reaches : step = stop ∨ skips = true) (links : linkRoot = row.blockRoot) :
    record.checkNext step linkRoot = .ok skips := by
  have inOrder : ¬ step < stop := Nat.not_lt.2 notBefore
  have contiguous : ¬ (step ≠ stop ∧ (!skips) = true) := by
    rcases reaches with same | skipped
    · exact fun both => both.1 same
    · simp [skipped]
  simp only [checkNext, lastRow, stopOf, gap, bind, Except.bind, inOrder, contiguous, links,
    ne_eq, not_true_eq_false, if_false]
  rfl

theorem skipsGap_of_block {stop step : Step} (isBlock : stop.hasBlock = false) :
    skipsGap stop step = .ok false := by
  simp [skipsGap, isBlock]
  rfl

theorem skipsGap_of_empty
    (stop step : Step) (empty : stop.hasBlock = true) (inRange : stop.number + 1 < Step.limit) :
    skipsGap stop step = .ok (decide (step = ⟨stop.number + 1⟩)) := by
  simp only [skipsGap, empty, Step.advance_of_lt inRange, if_true]
  rfl

theorem stop_eq_behind (inRange : record.behind ≤ 2 * slotLimit) :
    record.stop = .ok ⟨record.behind⟩ := by
  have limits : Step.limit = 2 * slotLimit + 2 := rfl
  exact Step.advance_of_lt (by simp only [behind] at inRange; omega)

theorem skipsGap_behind (inRange : record.behind ≤ 2 * slotLimit) (number : Nat) :
    skipsGap ⟨record.behind⟩ ⟨number⟩ =
      .ok (decide (record.behind % 2 = 1 ∧ number = record.behind + 1)) := by
  have limits : Step.limit = 2 * slotLimit + 2 := rfl
  by_cases isBlock : record.behind % 2 = 1
  · rw [skipsGap_of_empty ⟨record.behind⟩ _ (by simp [Step.hasBlock, isBlock])
      (by simp only; omega)]
    simp [isBlock]
  · rw [skipsGap_of_block (by simp [Step.hasBlock, isBlock])]
    simp [isBlock]

/-- The record takes a fitting entry, and sees whether it leaves out a step. -/
theorem checkNext_of_fits
    (small : entry.slot < slotLimit) (fits : record.Fits entry) :
    record.checkNext ⟨entry.number⟩ entry.linkRoot =
      .ok (decide (record.rows ≠ [] ∧ entry.number ≠ record.behind)) := by
  cases fits with
  | first noRows => simp [checkNext, noRows]
  | next last lastRow place linked =>
    have bounds := entry.number_bounds
    have inRange : record.behind ≤ 2 * slotLimit := by omega
    have someRows := rows_ne_nil lastRow
    have gap := skipsGap_behind inRange entry.number
    have sameAnswer : (record.behind % 2 = 1 ∧ entry.number = record.behind + 1) ↔
        record.rows ≠ [] ∧ entry.number ≠ record.behind := by
      constructor
      · intro skipped
        exact ⟨someRows, by omega⟩
      · intro notThere
        exact place.resolve_left notThere.2
    rw [decide_eq_decide.2 sameAnswer] at gap
    refine checkNext_eq_ok lastRow (stop_eq_behind inRange) gap ?_ ?_ linked
    · show record.behind ≤ entry.number
      omega
    · rcases place with there | skipped
      · exact .inl (congrArg Step.mk there)
      · exact .inr (decide_eq_true (sameAnswer.1 skipped))

/-- The record takes nothing but fitting entries. -/
theorem fits_of_checkNext
    (inRange : record.behind ≤ 2 * slotLimit) {skips : Bool}
    (checked : record.checkNext ⟨entry.number⟩ entry.linkRoot = .ok skips) : record.Fits entry := by
  cases lastRow : record.rows.getLast? with
  | none => exact .first (List.getLast?_eq_none_iff.1 lastRow)
  | some last =>
    simp only [checkNext, lastRow, stop_eq_behind inRange, skipsGap_behind inRange, bind,
      Except.bind, throw, throwThe, MonadExceptOf.throw] at checked
    split at checked
    next => cases checked
    next =>
      split at checked
      next => cases checked
      next contiguous =>
        split at checked
        next => cases checked
        next linked =>
          refine .next last lastRow ?_ (by simpa using linked)
          by_contra elsewhere
          rw [not_or] at elsewhere
          refine contiguous ⟨fun same => elsewhere.1 (congrArg Step.number same), ?_⟩
          rw [decide_eq_false elsewhere.2]
          rfl

@[simp]
theorem size_push (record : Record) (row : Row) : (record.push row).size = record.size + 1 := by
  simp [size]

theorem append_eq
    {last : Row} (lastRow : record.rows.getLast? = some last) (step : Step)
    (skips : Bool) (row : Row) :
    record.append step skips row = (if skips then record.push last else record).push row := by
  have someRows : record.rows.isEmpty = false := by
    cases rows : record.rows with
    | nil => simp [rows] at lastRow
    | cons first rest => rfl
  cases skips <;> simp [append, someRows, lastRow]

/-- The record with a fitting entry. -/
def extend (record : Record) (entry : Entry State Context) : Record :=
  record.append ⟨entry.number⟩ (decide (record.rows ≠ [] ∧ entry.number ≠ record.behind)) entry.row

theorem extend_of_no_rows (noRows : record.rows = []) :
    record.extend entry = ({ record with start := ⟨entry.number⟩ } : Record).push entry.row := by
  simp [extend, append, noRows]

theorem extend_of_next
    (lastRow : record.rows.getLast? = some last) :
    record.extend entry =
      (if entry.number = record.behind then record else record.push last).push entry.row := by
  rw [extend, append_eq lastRow]
  by_cases there : entry.number = record.behind
  · simp [there]
  · simp [there, rows_ne_nil lastRow]

theorem rows_extend (fits : record.Fits entry) :
    (record.extend entry).rows = record.rows ++ record.added entry := by
  cases fits with
  | first noRows => simp [extend_of_no_rows noRows, added, noRows]
  | next last lastRow =>
    rw [extend_of_next lastRow, added]
    by_cases there : entry.number = record.behind
    · simp [there]
    · simp [there, lastRow]

theorem behind_push (record : Record) (row : Row) :
    (record.push row).behind = record.behind + 1 := by
  simp [behind, Nat.add_assoc]

end Record

namespace Archive

variable {store : StateStore contents State} {archive : Archive store}
  {entry : Entry State Context}

theorem accept_of_fits
    (small : entry.slot < slotLimit) (fits : archive.record.Fits entry) :
    archive.accept entry =
      match store.store entry.stateRoot entry.state archive.contents with
      | (.error message, contents) =>
        (.error (.external message), { archive with contents := contents })
      | (.ok (), contents) =>
        (.ok (), { record := archive.record.extend entry, contents := contents }) := by
  have stepOf : entry.step = .ok ⟨entry.number⟩ := Step.ofSlot_of_lt small entry.hasBlock
  simp only [accept, stepOf, Record.checkNext_of_fits small fits, bind, Except.bind, pure,
    Except.pure]
  rfl

theorem accept_of_not_fits
    (inRange : archive.record.behind ≤ 2 * slotLimit) (small : entry.slot < slotLimit)
    (unfit : ¬ archive.record.Fits entry) :
    ∃ error, archive.accept entry = (.error error, archive) := by
  have stepOf : entry.step = .ok ⟨entry.number⟩ := Step.ofSlot_of_lt small entry.hasBlock
  cases checked : archive.record.checkNext ⟨entry.number⟩ entry.linkRoot with
  | error error => exact ⟨error, by simp [accept, stepOf, checked, bind, Except.bind]⟩
  | ok skips => exact absurd (Record.fits_of_checkNext inRange checked) unfit

end Archive

end BeaconChain
