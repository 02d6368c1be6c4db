import BeaconChain.Proofs.Archive.Fits

/-!
# The rows of the record

A record that takes only what fits has the rows of the entries in effect, step by step, and its
tables lead to the first row of every root.  An entry that follows the last one that was archived
always fits.
-/

namespace BeaconChain

variable {State Block Context : Type} {rules : Rules State Block Context}

namespace Record

variable {record : Record} {last entry anchor : Entry State Context}
  {entries : List (Entry State Context)}

/-- The last row of a record is that of an entry. -/
structure EndsWith (record : Record) (last : Entry State Context) : Prop where
  row : ∃ row, record.rows.getLast? = some row ∧ row.blockRoot = last.blockRoot
  stop : record.start.number + record.size = 2 * last.slot + last.hasBlock.toNat + 1

/-- A record has rows if any entries were archived, and then ends with the last of them. -/
def Covers (record : Record) (entries : List (Entry State Context)) : Prop :=
  match entries.getLast? with
  | none => record.rows = []
  | some last => record.EndsWith last

theorem covers_concat : record.Covers (entries ++ [entry]) ↔ record.EndsWith entry := by
  simp [Covers]

theorem endsWith_push (behind : record.behind = entry.number) :
    (record.push entry.row).EndsWith entry where
  row := ⟨entry.row, by simp, rfl⟩
  stop := by
    rw [start_push, size_push, ← Nat.add_assoc]
    exact congrArg (· + 1) behind

/-- A table leads from every key to the step of the first entry that has it. -/
def FirstSteps (key : Row → Root) (entries : List (Entry State Context)) (table : Table Root Step) :
    Prop :=
  ∀ root, table.find? root =
    (entries.find? fun entry => key entry.row = root).map fun entry => ⟨entry.number⟩

namespace FirstSteps

variable {key : Row → Root} {table : Table Root Step}

theorem fill
    (firstSteps : FirstSteps key entries table) (member : entry ∈ entries) (step : Step) :
    FirstSteps key entries (table.insertIfNew (key entry.row) step) := by
  intro root
  rw [Table.find?_insertIfNew, firstSteps root]
  split
  next same =>
    have found : (entries.find? fun entry => key entry.row = root).isSome :=
      List.find?_isSome.2 ⟨entry, member, decide_eq_true same⟩
    obtain ⟨first, isFirst⟩ := Option.isSome_iff_exists.1 found
    simp [isFirst]
  next => rw [Option.or_none]

theorem concat
    (firstSteps : FirstSteps key entries table) (entry : Entry State Context) :
    FirstSteps key (entries ++ [entry]) (table.insertIfNew (key entry.row) ⟨entry.number⟩) := by
  intro root
  rw [Table.find?_insertIfNew, firstSteps root, List.find?_append, Option.map_or]
  by_cases same : key entry.row = root <;> simp [same]

end FirstSteps

/-- From the first entry on the rows of a record are those of the entries in effect. -/
structure Repeats (record : Record) (entries : List (Entry State Context)) : Prop where
  start : ∀ first, entries.head? = some first → record.start.number = first.number
  rows : ∀ index, index < record.size → record.rows[index]? =
    (latestAt? entries (record.start.number + index)).map Entry.row
  blockSteps : FirstSteps Row.blockRoot entries record.blockSteps
  stateSteps : FirstSteps Row.stateRoot entries record.stateSteps

namespace Repeats

/-- A row that repeats the one before it. -/
theorem fill
    (repeats : record.Repeats entries)
    (latest : latestAt? entries (record.start.number + record.size) = some entry) :
    (record.push entry.row).Repeats entries where
  start := repeats.start
  rows index bound := by
    rw [rows_push, start_push]
    by_cases old : index < record.size
    · rw [List.getElem?_append_left old]
      exact repeats.rows index old
    · obtain rfl : index = record.size := by
        rw [size_push] at bound
        omega
      rw [latest]
      simp [size]
  blockSteps := repeats.blockSteps.fill (mem_of_latestAt? latest).1 _
  stateSteps := repeats.stateSteps.fill (mem_of_latestAt? latest).1 _

/-- The row of an entry that stands right behind the others. -/
theorem concat
    (repeats : record.Repeats entries) (nothing : entries = [] → record.rows = [])
    (behind : record.start.number + record.size = entry.number) :
    (record.push entry.row).Repeats (entries ++ [entry]) where
  start first isFirst := by
    cases entries with
    | nil =>
      cases isFirst
      rw [start_push, ← behind, size, nothing rfl, List.length_nil, Nat.add_zero]
    | cons eldest rest => exact repeats.start first isFirst
  rows index bound := by
    rw [rows_push, start_push]
    by_cases old : index < record.size
    · rw [List.getElem?_append_left old, latestAt?_concat_of_lt (by omega)]
      exact repeats.rows index old
    · obtain rfl : index = record.size := by
        rw [size_push] at bound
        omega
      rw [latestAt?_concat_of_le (Nat.le_of_eq behind.symm)]
      simp [size]
  blockSteps := by
    have steps := repeats.blockSteps.concat entry
    rw [← behind] at steps
    exact steps
  stateSteps := by
    have steps := repeats.stateSteps.concat entry
    rw [← behind] at steps
    exact steps

end Repeats

/-- A record of a sequence of entries. -/
structure Holds (record : Record) (entries : List (Entry State Context)) : Prop
    extends record.Repeats entries where
  covers : record.Covers entries

namespace Holds

theorem rows_eq_nil (holds : record.Holds ([] : List (Entry State Context))) : record.rows = [] :=
  holds.covers

theorem endsWith
    (holds : record.Holds entries) (isLast : entries.getLast? = some last) :
    record.EndsWith last := by
  have covers := holds.covers
  rwa [Covers, isLast] at covers

theorem stop_eq
    (holds : record.Holds entries) (isLast : entries.getLast? = some last) :
    record.start.number + record.size = last.number + 1 :=
  (holds.endsWith isLast).stop

theorem size_pos
    (holds : record.Holds entries) (isLast : entries.getLast? = some last) : 0 < record.size := by
  obtain ⟨row, lastRow, _⟩ := (holds.endsWith isLast).row
  rw [size, List.length_pos_iff]
  rintro noRows
  simp [noRows] at lastRow

theorem getLast?_rows
    (holds : record.Holds entries) (isLast : entries.getLast? = some last) :
    record.rows.getLast? = some last.row := by
  have someRows := holds.size_pos isLast
  have stopEq := holds.stop_eq isLast
  rw [List.getLast?_eq_getElem?]
  have atEnd := holds.rows (record.size - 1) (by omega)
  rw [latestAt?_of_last isLast (by omega)] at atEnd
  exact atEnd

/-- A record of entries goes on with every entry that fits. -/
theorem extend
    (holds : record.Holds entries) (fits : record.Fits entry) :
    (record.extend entry).Holds (entries ++ [entry]) := by
  cases fits with
  | first noRows =>
    have nothing : entries = [] := by
      by_contra some
      have isLast := List.getLast?_eq_getLast_of_ne_nil some
      have rows := holds.size_pos isLast
      simp [size, noRows] at rows
    subst nothing
    have moved : ({ record with start := ⟨entry.number⟩ } : Record).Repeats
        ([] : List (Entry State Context)) :=
      { start := fun _ isFirst => by cases isFirst
        rows := fun index bound => by simp [size, noRows] at bound
        blockSteps := holds.blockSteps
        stateSteps := holds.stateSteps }
    have here : ({ record with start := ⟨entry.number⟩ } : Record).behind = entry.number := by
      simp [behind, size, noRows]
    rw [extend_of_no_rows noRows]
    exact {
      toRepeats := moved.concat (fun _ => noRows) here
      covers := covers_concat.2 (endsWith_push here) }
  | next last lastRow place =>
    have notAlone : entries ≠ [] := by
      rintro rfl
      exact rows_ne_nil lastRow holds.rows_eq_nil
    have isLast := List.getLast?_eq_getLast_of_ne_nil notAlone
    have sameRow := (holds.getLast?_rows isLast).symm.trans lastRow
    rw [extend_of_next lastRow]
    by_cases there : entry.number = record.behind
    · rw [if_pos there]
      exact {
        toRepeats := holds.toRepeats.concat (fun nothing => absurd nothing notAlone) there.symm
        covers := covers_concat.2 (endsWith_push there.symm) }
    · have latest : latestAt? entries record.behind = some (entries.getLast notAlone) :=
        latestAt?_of_last isLast (by rw [behind, holds.stop_eq isLast]; omega)
      have filled := holds.toRepeats.fill latest
      have here := (place.resolve_left there).2
      rw [if_neg there, ← Option.some.inj sameRow]
      rw [← behind_push] at here
      exact {
        toRepeats := filled.concat (fun nothing => absurd nothing notAlone) here.symm
        covers := covers_concat.2 (endsWith_push here.symm) }

/-- An entry that follows the last one fits. -/
theorem fits_of_follows
    (holds : record.Holds entries) (isLast : entries.getLast? = some last)
    (follows : BeaconChain.Follows rules last entry) : record.Fits entry := by
  have stop : record.behind = last.number + 1 := holds.stop_eq isLast
  refine .next last.row (holds.getLast?_rows isLast) ?_ follows.linkRoot_eq
  rcases follows.number_cases with one | ⟨two, empty, _⟩
  · exact .inl (one.trans stop.symm)
  · have even := Entry.number_of_empty empty
    exact .inr (by omega)

end Holds

theorem holds_nil : ({} : Record).Holds ([] : List (Entry State Context)) where
  start _ isFirst := by cases isFirst
  rows _ bound := absurd bound (Nat.not_lt_zero _)
  blockSteps _ := rfl
  stateSteps _ := rfl
  covers := rfl

/-- An entry that goes on where the archived entries end fits. -/
theorem fits_of_continues
    (holds : record.Holds entries) (continues : Continues rules anchor entries entry) :
    record.Fits entry := by
  unfold Continues at continues
  split at continues
  next nothing =>
    obtain rfl := List.getLast?_eq_none_iff.1 nothing
    exact .first holds.rows_eq_nil
  next last isLast => exact holds.fits_of_follows isLast continues

end Record

end BeaconChain
