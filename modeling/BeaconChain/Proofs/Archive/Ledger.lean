import BeaconChain.Proofs.Archive.Continuity

/-!
# The record as a ledger

The archive takes any entries in any order, and its record stays in order all the same.  An entry
is appended exactly if it stands where the record ends, links to the last block and can be stored;
nothing else changes the record.  So every row repeats the block of the row before it, unless it is
the row of a block whose parent that was, the tables lead to the first row of every root, and what
has been recorded at a step stays as it is.
-/

namespace BeaconChain

variable {State Context contents : Type}

namespace Record

/-- How a row comes after the one before it, at the step of a number. -/
inductive Succession (accepted : List (Entry State Context)) (number : Nat) (before row : Row) :
    Prop
  | slot (entry : Entry State Context) (member : entry ∈ accepted) (isSlot : number % 2 = 0)
    (here : entry.number = number) (recorded : entry.row = row) (empty : entry.parentRoot = none)
    (sameBlock : row.blockRoot = before.blockRoot)
  | filled (isBlock : number % 2 = 1) (same : row = before)
  | block (entry : Entry State Context) (member : entry ∈ accepted) (isBlock : number % 2 = 1)
    (here : entry.number = number) (recorded : entry.row = row)
    (linked : entry.parentRoot = some before.blockRoot)

/-- A table leads from every root of a column to the step of the first row that has it. -/
def LeadsToFirst (record : Record) (key : Row → Root) (table : Table Root Step) : Prop :=
  ∀ root, table.find? root =
    ((record.rows.map key).findIdx? fun other => other = root).map
      fun index => ⟨record.start.number + index⟩

/-- A record that was made of accepted entries. -/
structure Ledger (record : Record) (accepted : List (Entry State Context)) : Prop where
  columns : (record.rows.map Row.blockRoot).length = (record.rows.map Row.stateRoot).length
  blockSteps : record.LeadsToFirst Row.blockRoot record.blockSteps
  stateSteps : record.LeadsToFirst Row.stateRoot record.stateSteps
  succession : ∀ (index : Nat) (before row : Row), record.rows[index]? = some before →
    record.rows[index + 1]? = some row →
    Succession accepted (record.start.number + index + 1) before row
  inRange : record.behind ≤ 2 * slotLimit

/-- What a record shows at a step is shown by a later one. -/
def Keeps (record later : Record) : Prop :=
  ∀ step row, record.row? step = some row → later.row? step = some row

variable {record : Record} {entry : Entry State Context} {accepted : List (Entry State Context)}
  {row last : Row}

namespace Keeps

theorem refl (record : Record) : record.Keeps record := fun _ _ found => found

theorem trans {later last : Record} (keeps : record.Keeps later) (rest : later.Keeps last) :
    record.Keeps last :=
  fun step row found => rest step row (keeps step row found)

theorem push (record : Record) (row : Row) : record.Keeps (record.push row) := by
  intro step shown found
  obtain ⟨notBefore, here⟩ := row?_eq_some_iff.1 found
  refine row?_eq_some_iff.2 ⟨notBefore, ?_⟩
  rw [rows_push, start_push, List.getElem?_append_left (List.getElem?_eq_some_iff.1 here).1]
  exact here

theorem of_no_rows (noRows : record.rows = []) (later : Record) : record.Keeps later := by
  intro step row found
  have here := (row?_eq_some_iff.1 found).2
  simp [noRows] at here

end Keeps

theorem LeadsToFirst.push
    {key : Row → Root} {table : Table Root Step} (leads : record.LeadsToFirst key table)
    (row : Row) :
    (record.push row).LeadsToFirst key (table.insertIfNew (key row) ⟨record.behind⟩) := by
  intro root
  rw [Table.find?_insertIfNew, leads root, rows_push, List.map_append, List.findIdx?_append,
    Option.map_or, start_push]
  by_cases same : key row = root
  · simp [same, behind, size, Nat.add_comm]
  · simp [same]

theorem Succession.mono
    {accepted more : List (Entry State Context)} {number : Nat} {before row : Row}
    (succession : Succession accepted number before row) (subset : accepted ⊆ more) :
    Succession more number before row := by
  cases succession with
  | slot entry member isSlot here recorded empty sameBlock =>
    exact .slot entry (subset member) isSlot here recorded empty sameBlock
  | filled isBlock same => exact .filled isBlock same
  | block entry member isBlock here recorded linked =>
    exact .block entry (subset member) isBlock here recorded linked

/-- An entry that links to the last block comes after the last row as it should. -/
theorem Succession.of_linked
    (member : entry ∈ accepted) (linked : entry.linkRoot = last.blockRoot) :
    Succession accepted entry.number last entry.row := by
  cases parent : entry.parentRoot with
  | none =>
    have noBlock : entry.hasBlock = false := by simp [Entry.hasBlock, parent]
    have number := Entry.number_of_empty noBlock
    rw [Entry.linkRoot, parent, Option.getD_none] at linked
    exact .slot entry member (by omega) rfl rfl parent linked
  | some root =>
    have hasBlock : entry.hasBlock = true := by simp [Entry.hasBlock, parent]
    have number := Entry.number_of_hasBlock hasBlock
    rw [Entry.linkRoot, parent, Option.getD_some] at linked
    exact .block entry member (by omega) rfl rfl (by rw [parent, linked])

namespace Ledger

theorem mono
    {more : List (Entry State Context)} (ledger : record.Ledger accepted)
    (subset : accepted ⊆ more) : record.Ledger more where
  columns := ledger.columns
  blockSteps := ledger.blockSteps
  stateSteps := ledger.stateSteps
  succession index before row here there :=
    (ledger.succession index before row here there).mono subset
  inRange := ledger.inRange

/-- A ledger goes on with any row that may come after the last one. -/
theorem push
    (ledger : record.Ledger accepted) (room : record.behind < 2 * slotLimit)
    (succeeds : ∀ last, record.rows.getLast? = some last →
      Succession accepted record.behind last row) : (record.push row).Ledger accepted where
  columns := by simp
  blockSteps := ledger.blockSteps.push row
  stateSteps := ledger.stateSteps.push row
  succession index before next here there := by
    rw [rows_push] at here there
    have inside := (List.getElem?_eq_some_iff.1 there).1
    rw [List.length_append, List.length_singleton] at inside
    rw [List.getElem?_append_left (by omega)] at here
    by_cases earlier : index + 1 < record.rows.length
    · rw [List.getElem?_append_left earlier] at there
      exact ledger.succession index before next here there
    · have atEnd : index + 1 = record.rows.length := by omega
      rw [atEnd, List.getElem?_concat_length, Option.some.injEq] at there
      subst there
      have isLast : record.rows.getLast? = some before := by
        rw [List.getLast?_eq_getElem?, ← atEnd]
        exact here
      have number : record.start.number + index + 1 = record.behind := by
        simp only [behind, size]
        omega
      rw [start_push, number]
      exact succeeds before isLast
  inRange := by
    rw [behind_push]
    exact room

/-- The first row sets the start. -/
theorem restart
    (ledger : record.Ledger accepted) (noRows : record.rows = []) (start : Step)
    (inRange : start.number ≤ 2 * slotLimit) :
    ({ record with start := start } : Record).Ledger accepted where
  columns := ledger.columns
  blockSteps root := by simpa [noRows] using ledger.blockSteps root
  stateSteps root := by simpa [noRows] using ledger.stateSteps root
  succession index before row here := by simp [noRows] at here
  inRange := by simpa [behind, size, noRows] using inRange

end Ledger

/-- The row of a fitting entry is found at its step. -/
theorem row?_extend (fits : record.Fits entry) :
    (record.extend entry).row? ⟨entry.number⟩ = some entry.row := by
  have atEnd : ∀ {grown : Record}, grown.behind = entry.number →
      (grown.push entry.row).row? ⟨entry.number⟩ = some entry.row := by
    intro grown reached
    have notBefore : grown.start.number ≤ entry.number := reached ▸ Nat.le_add_right _ _
    have index : entry.number - grown.start.number = grown.rows.length := by
      rw [← reached, behind, Nat.add_sub_cancel_left, size]
    refine row?_eq_some_iff.2 ⟨notBefore, ?_⟩
    rw [rows_push, start_push, index, List.getElem?_concat_length]
  cases fits with
  | first noRows =>
    rw [extend_of_no_rows noRows]
    exact atEnd (by simp [behind, size, noRows])
  | next last lastRow place linked =>
    rw [extend_of_next lastRow]
    by_cases there : entry.number = record.behind
    · rw [if_pos there]
      exact atEnd there.symm
    · rw [if_neg there]
      exact atEnd (by rw [behind_push, (place.resolve_left there).2])

/-- A ledger stays one with a fitting entry, and keeps what it shows. -/
theorem Ledger.extend
    (ledger : record.Ledger accepted) (fits : record.Fits entry) (member : entry ∈ accepted)
    (inRange : entry.slot < slotLimit) :
    (record.extend entry).Ledger accepted ∧ record.Keeps (record.extend entry) := by
  have bounds := entry.number_bounds
  cases fits with
  | first noRows =>
    rw [extend_of_no_rows noRows]
    have started := ledger.restart noRows ⟨entry.number⟩ (by simp only; omega)
    refine ⟨started.push ?_ ?_, .of_no_rows noRows _⟩
    · simp only [behind, size, noRows, List.length_nil]
      omega
    · intro last lastRow
      exact absurd noRows (rows_ne_nil lastRow)
  | next last lastRow place linked =>
    have comes : Succession accepted entry.number last entry.row := .of_linked member linked
    rw [extend_of_next lastRow]
    by_cases there : entry.number = record.behind
    · rw [if_pos there]
      refine ⟨ledger.push (by omega) fun found isLast => ?_, .push record entry.row⟩
      obtain rfl := Option.some.inj (lastRow.symm.trans isLast)
      exact there ▸ comes
    · rw [if_neg there]
      obtain ⟨isBlock, behindGap⟩ := place.resolve_left there
      have filled : (record.push last).Ledger accepted :=
        ledger.push (by omega) fun found isLast =>
          .filled isBlock (Option.some.inj (lastRow.symm.trans isLast))
      refine ⟨filled.push (by rw [behind_push]; omega) fun found isLast => ?_,
        (Keeps.push record last).trans (.push _ entry.row)⟩
      have sameRow : last = found := by simpa using isLast
      rw [behind_push, ← behindGap, ← sameRow]
      exact comes

end Record

namespace Archive

variable {store : StateStore contents State} {archive : Archive store}
  {entry : Entry State Context} {accepted : List (Entry State Context)}

/-- What the archive does with an entry, which is either marked as canonical or not. -/
structure Answers (archive : Archive store) (entry : Entry State Context) : Prop where
  accepted_iff : (receive entry true archive).1 = .ok () ↔ archive.record.Fits entry ∧
    (store.store entry.stateRoot entry.state archive.contents).1 = .ok ()
  appended : (receive entry true archive).1 = .ok () →
    (receive entry true archive).2.record.rows =
        archive.record.rows ++ archive.record.added entry ∧
      (receive entry true archive).2.record.row? ⟨entry.number⟩ = some entry.row
  refused : (receive entry true archive).1 ≠ .ok () →
    (receive entry true archive).2.record = archive.record
  /-- The store is not asked to take an entry that does not fit. -/
  unstored : ¬ archive.record.Fits entry → (receive entry true archive).2 = archive
  orphaned : receive entry false archive = (.ok (), archive)

theorem answers
    (inRange : archive.record.behind ≤ 2 * slotLimit) (small : entry.slot < slotLimit) :
    archive.Answers entry := by
  by_cases fits : archive.record.Fits entry
  · have accepts := accept_of_fits small fits
    rcases stored : store.store entry.stateRoot entry.state archive.contents with ⟨answer, contents⟩
    cases answer with
    | error message =>
      simp only [stored] at accepts
      exact {
        accepted_iff := by simp [receive, accepts, stored]
        appended := by simp [receive, accepts]
        refused := by simp [receive, accepts]
        unstored := fun unfit => absurd fits unfit
        orphaned := receive_orphan entry archive }
    | ok =>
      simp only [stored] at accepts
      exact {
        accepted_iff := by simp [receive, accepts, stored, fits]
        appended := fun _ => by
          simp only [receive, if_true, accepts]
          exact ⟨Record.rows_extend fits, Record.row?_extend fits⟩
        refused := by simp [receive, accepts]
        unstored := fun unfit => absurd fits unfit
        orphaned := receive_orphan entry archive }
  · obtain ⟨error, refuses⟩ := accept_of_not_fits inRange small fits
    exact {
      accepted_iff := by simp [receive, refuses, fits]
      appended := by simp [receive, refuses]
      refused := by simp [receive, refuses]
      unstored := by simp [receive, refuses]
      orphaned := receive_orphan entry archive }

/-- Offers entries one after the other, each with the mark whether it is canonical, to an archive
of which a log is kept. -/
def deliver (watched : Archive store × List (Handover State Context))
    (deliveries : List (Entry State Context × Bool)) :
    Archive store × List (Handover State Context) :=
  deliveries.foldl (fun watched delivery => (watching receive delivery.1 delivery.2 watched).2)
    watched

/-- A delivery either changes nothing in the record, or appends an entry that fits and is
accepted. -/
theorem watching_cases
    (inRange : archive.record.behind ≤ 2 * slotLimit) (small : entry.slot < slotLimit)
    (canonical : Bool) (log : List (Handover State Context)) :
    let watched := (watching receive entry canonical (archive, log)).2
    watched.1.record = archive.record ∧ taken watched.2 = taken log ∨
      archive.record.Fits entry ∧ watched.1.record = archive.record.extend entry ∧
        taken watched.2 = taken log ++ [entry] := by
  cases canonical with
  | false => exact .inl (by simp [watching, taken_concat])
  | true =>
    simp only [watching, receive, if_true, taken_concat, Bool.true_and]
    by_cases fits : archive.record.Fits entry
    · rw [accept_of_fits small fits]
      rcases store.store entry.stateRoot entry.state archive.contents with ⟨_ | _, contents⟩
      · exact .inl ⟨rfl, rfl⟩
      · exact .inr ⟨fits, rfl, rfl⟩
    · obtain ⟨error, refuses⟩ := accept_of_not_fits inRange small fits
      rw [refuses]
      exact .inl ⟨rfl, rfl⟩

/-- What fitting entries keep of a record and the entries that it has accepted is kept by all
deliveries. -/
theorem deliver_keeps
    (invariant : Record → List (Entry State Context) → Prop)
    (inRange : ∀ record accepted, invariant record accepted → record.behind ≤ 2 * slotLimit)
    (extending : ∀ record accepted entry, invariant record accepted → record.Fits entry →
      entry.slot < slotLimit → invariant (record.extend entry) (accepted ++ [entry])) :
    ∀ {deliveries : List (Entry State Context × Bool)} {archive : Archive store}
      {log : List (Handover State Context)},
      (∀ delivery ∈ deliveries, delivery.1.slot < slotLimit) →
      invariant archive.record (taken log) →
      invariant (deliver (archive, log) deliveries).1.record
        (taken (deliver (archive, log) deliveries).2)
  | [], _, _, _, kept => kept
  | (entry, canonical) :: rest, archive, log, small, kept => by
    obtain ⟨smallFirst, smallRest⟩ := List.forall_mem_cons.1 small
    have next : invariant (watching receive entry canonical (archive, log)).2.1.record
        (taken (watching receive entry canonical (archive, log)).2.2) := by
      rcases watching_cases (inRange _ _ kept) smallFirst canonical log with
        ⟨sameRecord, sameEntries⟩ | ⟨fits, extended, appended⟩
      · rw [sameRecord, sameEntries]
        exact kept
      · rw [extended, appended]
        exact extending _ _ entry kept fits smallFirst
    have last := deliver_keeps invariant inRange extending smallRest next
    exact last

/-- A ledger stays one with all deliveries, and keeps what it shows. -/
theorem ledger_deliver
    {deliveries : List (Entry State Context × Bool)} {log : List (Handover State Context)}
    (small : ∀ delivery ∈ deliveries, delivery.1.slot < slotLimit)
    (ledger : archive.record.Ledger (taken log)) :
    (deliver (archive, log) deliveries).1.record.Ledger
        (taken (deliver (archive, log) deliveries).2) ∧
      archive.record.Keeps (deliver (archive, log) deliveries).1.record := by
  refine deliver_keeps (fun record accepted => record.Ledger accepted ∧ archive.record.Keeps record)
    (fun _ _ kept => kept.1.inRange) ?_ small ⟨ledger, .refl _⟩
  intro record accepted entry kept fits smallEntry
  have longer := kept.1.mono (List.subset_append_left accepted [entry])
  obtain ⟨next, keeps⟩ := longer.extend fits (List.mem_append_right _ List.mem_cons_self) smallEntry
  exact ⟨next, kept.2.trans keeps⟩

theorem ledger_start (initial : contents) :
    ({ contents := initial } : Archive store).record.Ledger
      (taken ([] : List (Handover State Context))) where
  columns := rfl
  blockSteps _ := rfl
  stateSteps _ := rfl
  succession index before row here := by simp at here
  inRange := Nat.zero_le _

/-- Whatever entries have been delivered, and whenever the store has failed: the record is a ledger
of the entries that were accepted, the next entry is answered by what the record shows and nothing
else, and what is recorded at a step stays as it is with all later deliveries. -/
theorem record_append_only
    (store : StateStore contents State) (initial : contents)
    (deliveries more : List (Entry State Context × Bool))
    (small : ∀ delivery ∈ deliveries ++ more, delivery.1.slot < slotLimit) :
    let reached := deliver (({ contents := initial } : Archive store), []) deliveries
    reached.1.record.Ledger (taken reached.2) ∧
      (∀ entry : Entry State Context, entry.slot < slotLimit → reached.1.Answers entry) ∧
      reached.1.record.Keeps (deliver reached more).1.record := by
  intro reached
  obtain ⟨smallBefore, smallMore⟩ := List.forall_mem_append.1 small
  have started : ({ contents := initial } : Archive store).record.Ledger
      (taken ([] : List (Handover State Context))) := ledger_start initial
  have ledger := (ledger_deliver smallBefore started).1
  exact ⟨ledger, fun entry inRange => answers ledger.inRange inRange,
    (ledger_deliver smallMore ledger).2⟩

def storeOfNumbers : StateStore (Table Root Nat) Nat := .memory

/-- An entry whose state is a number. -/
def plainEntry (slot block : Nat) (parent : Option Nat) (state : Nat) : Entry Nat Unit where
  slot := slot
  blockRoot := ⟨block⟩
  parentRoot := parent.map fun parent => ⟨parent⟩
  stateRoot := ⟨state⟩
  context := ()
  state := state

/-- A block, the two slots after it, of which the second leaves out a step, and an entry out of
order, offered to a store in memory. -/
def firstDeliveries : List (Entry Nat Unit × Bool) :=
  [(plainEntry 0 1 (some 9) 11, true), (plainEntry 1 1 none 12, true),
    (plainEntry 1 7 (some 1) 17, false), (plainEntry 2 1 none 13, true),
    (plainEntry 1 1 none 12, true)]

/-- A block in the last slot, and another one in its place. -/
def laterDeliveries : List (Entry Nat Unit × Bool) :=
  [(plainEntry 2 2 (some 1) 14, true), (plainEntry 2 3 (some 1) 15, true)]

theorem record_append_only_memory :
    (∀ delivery ∈ firstDeliveries ++ laterDeliveries, delivery.1.slot < slotLimit) ∧
      let reached := deliver (({ contents := {} } : Archive storeOfNumbers), []) firstDeliveries
      reached.1.record.Ledger (taken reached.2) ∧
      (∀ entry : Entry Nat Unit, entry.slot < slotLimit → reached.1.Answers entry) ∧
      reached.1.record.Keeps (deliver reached laterDeliveries).1.record ∧
      (deliver reached laterDeliveries).1.record.row? ⟨3⟩ = some ⟨⟨1⟩, ⟨12⟩⟩ :=
  have small : ∀ delivery ∈ firstDeliveries ++ laterDeliveries, delivery.1.slot < slotLimit := by
    decide
  have result := record_append_only storeOfNumbers {} firstDeliveries laterDeliveries small
  ⟨small, result.1, result.2.1, result.2.2, by decide⟩

end Archive

end BeaconChain
