import BeaconChain.Proofs.Archive.LookUps
import BeaconChain.Proofs.Faultless

/-!
# Look-ups that stay in range

A record of entries whose slots are in range ends at a step that has one more behind it, and its
table of blocks leads to rows that it has.  So no look-up in it leaves the range of steps, and none
asks for a row that is not there.
-/

namespace BeaconChain

section Halving

variable {α : Type} {passes : α → Bool} {elements : List α} {element : α}

/-- Halving that begins at an element that passes ends at one. -/
theorem getElem?_narrow :
    ∀ {steps base size : Nat} {element : α}, elements[base]? = some element →
      passes element = true →
      ∃ last, elements[Id.run (narrow (fun element => pure (passes element)) elements steps base
        size)]? = some last ∧ passes last = true
  | 0, _, _, element, here, accepted => ⟨element, here, accepted⟩
  | steps + 1, base, size, element, here, accepted => by
    rw [narrow]
    by_cases small : size ≤ 1
    · rw [if_pos small]
      exact ⟨element, here, accepted⟩
    · rw [if_neg small]
      cases there : elements[base + size / 2]? with
      | none => exact ⟨element, here, accepted⟩
      | some middle =>
        cases inFront : passes middle with
        | true =>
          simp only [pure_bind, inFront, if_true]
          exact getElem?_narrow there inFront
        | false =>
          simp only [pure_bind, inFront, Bool.false_eq_true, if_false]
          exact getElem?_narrow here accepted

/-- If the first element passes, it is counted, and no more are counted than there are. -/
theorem countLeading_bounds
    (passes : α → Bool) (first : elements[0]? = some element) (accepted : passes element = true) :
    1 ≤ Id.run (countLeading (fun element => pure (passes element)) elements) ∧
      Id.run (countLeading (fun element => pure (passes element)) elements) ≤ elements.length := by
  obtain ⟨last, here, lastPasses⟩ : ∃ last,
      elements[Id.run (narrow (fun element => pure (passes element)) elements elements.length 0
        elements.length)]? = some last ∧ passes last = true := getElem?_narrow first accepted
  have inside := (List.getElem?_eq_some_iff.1 here).1
  have counted : Id.run (countLeading (fun element => pure (passes element)) elements) =
      Id.run (narrow (fun element => pure (passes element)) elements elements.length 0
        elements.length) + 1 := by
    unfold countLeading
    simp only [Id.run_bind, here, lastPasses, Id.run_pure, if_true]
  omega

end Halving

theorem faultless_ofSlot {slot : Nat} (inRange : slot < slotLimit) (hasBlock : Bool) :
    Faultless (Step.ofSlot slot hasBlock) :=
  .of_eq_ok (Step.ofSlot_of_lt inRange hasBlock)

namespace Record

variable {record : Record} {root : Root} {first : Step} {length slot : Nat}

/-- The record ends where steps can still be counted, and every root of its table of blocks has the
row to which the table leads. -/
structure Bounded (record : Record) : Prop where
  behind : record.rows ≠ [] → record.start.number + record.size ≤ 2 * slotLimit
  rooted : ∀ root first, record.blockSteps.find? root = some first →
    ∃ row, record.row? first = some row ∧ row.blockRoot = root

theorem Holds.bounded
    {State Block Context : Type} {rules : Rules State Block Context}
    {entries : List (Entry State Context)} (holds : record.Holds entries)
    (isChain : entries.IsChain (Follows rules))
    (inRange : ∀ entry ∈ entries, entry.slot < slotLimit) :
    record.Bounded where
  behind someRows := by
    cases isLast : entries.getLast? with
    | none =>
      rw [List.getLast?_eq_none_iff] at isLast
      subst isLast
      exact absurd holds.rows_eq_nil someRows
    | some last =>
      have lastRange := inRange last (List.mem_of_getLast? isLast)
      have bounds := last.number_bounds
      rw [holds.stop_eq isLast]
      omega
  rooted root first known := by
    rw [holds.blockSteps root, Option.map_eq_some_iff] at known
    obtain ⟨entry, found, rfl⟩ := known
    have member := List.mem_of_find?_eq_some found
    have ofRoot := List.find?_some found
    obtain ⟨notBefore, notBehind⟩ := holds.number_mem isChain member
    refine ⟨entry.row, ?_, of_decide_eq_true ofRoot⟩
    rw [holds.row?_of_mem notBefore notBehind, latestAt?_of_mem isChain member]
    rfl

theorem index?_eq_some {step : Step} {index : Nat} (found : record.index? step = some index) :
    record.start.number ≤ step.number ∧ index = step.number - record.start.number ∧
      index < record.size := by
  unfold index? at found
  split at found
  next inside =>
    cases found
    exact ⟨inside.1, rfl, inside.2⟩
  next => cases found

namespace Bounded

theorem stop?_cases (bounded : record.Bounded) :
    record.stop? = .ok none ∨
      record.rows ≠ [] ∧ record.stop? = .ok (some ⟨record.start.number + record.size⟩) := by
  by_cases noRows : record.rows = []
  · exact .inl (by simp [stop?, noRows])
  · have behind := bounded.behind noRows
    have limits : Step.limit = 2 * slotLimit + 2 := rfl
    refine .inr ⟨noRows, ?_⟩
    rw [stop?, if_neg (by simpa using noRows), stop, Step.advance_of_lt (by omega)]
    rfl

theorem faultless_stop? (bounded : record.Bounded) : Faultless record.stop? := by
  rcases bounded.stop?_cases with none | ⟨_, some⟩
  · exact .of_eq_ok none
  · exact .of_eq_ok some

theorem faultless_start? (bounded : record.Bounded) : Faultless record.start? :=
  bounded.faultless_stop?.bind fun _ _ => .ok _

/-- The end of a record may be asked about any step. -/
theorem faultless_trailingGap? (bounded : record.Bounded) (step : Step) :
    Faultless (record.trailingGap? step) := by
  unfold trailingGap?
  split
  next => exact .ok none
  next isOdd =>
    apply bounded.faultless_stop?.bind
    intro stop stopOf
    split
    next there =>
      have inRange : step.slot < slotLimit := by
        rcases bounded.stop?_cases with none | ⟨someRows, some⟩
        · rw [none, there] at stopOf
          cases stopOf
        · rw [some, there] at stopOf
          cases stopOf
          -- a block step is odd, and so it stands before the even bound
          have behind := bounded.behind someRows
          simp only [Step.hasBlock, Bool.not_eq_true', decide_eq_false_iff_not,
            Decidable.not_not] at isOdd
          unfold Step.slot
          simp only
          omega
      exact (faultless_ofSlot inRange false).bind fun _ _ => .ok _
    next => exact .ok none

/-- A run of rows starts with the row to which the table leads, and stays within the record. -/
theorem run?_bounds
    (bounded : record.Bounded) (counted : record.run? root = some (first, length)) :
    1 ≤ length ∧ record.start.number ≤ first.number ∧
      first.number + length ≤ record.start.number + record.size := by
  obtain ⟨found, known, counted⟩ := Option.bind_eq_some_iff.1 counted
  obtain ⟨index, indexed, made⟩ := Option.bind_eq_some_iff.1 counted
  cases made
  obtain ⟨row, rowHere, ofRoot⟩ := bounded.rooted root first known
  obtain ⟨notBefore, same, inside⟩ := index?_eq_some indexed
  rw [row?, indexed] at rowHere
  have here : (record.rows.drop index)[0]? = some row := by
    rw [List.getElem?_drop, Nat.add_zero]
    exact rowHere
  have bounds := countLeading_bounds (fun row : Row => decide (row.blockRoot = root)) here
    (decide_eq_true ofRoot)
  rw [List.length_drop] at bounds
  have size : record.size = record.rows.length := rfl
  refine ⟨bounds.1, notBefore, ?_⟩
  have within := bounds.2
  omega

theorem faultless_closest? (bounded : record.Bounded) (inRange : slot < slotLimit) (root : Root) :
    Faultless (record.closest? root slot) := by
  unfold closest?
  cases counted : record.run? root with
  | none => exact .ok none
  | some run =>
    obtain ⟨first, length⟩ := run
    obtain ⟨someSteps, notBefore, within⟩ := bounded.run?_bounds counted
    have behind : record.start.number + record.size ≤ 2 * slotLimit := by
      apply bounded.behind
      intro noRows
      have size : record.size = 0 := by simp [Record.size, noRows]
      omega
    have limits : Step.limit = 2 * slotLimit + 2 := rfl
    have last : Faultless (first.advance (length - 1)) :=
      .of_eq_ok (Step.advance_of_lt (by omega))
    apply last.bind
    intro last _
    apply (faultless_ofSlot inRange true).bind
    intro blockStep _
    dsimp only
    split
    · split
      · exact .ok none
      · exact .ok _
    · split
      · exact .ok none
      · exact .ok _

end Bounded

theorem faultless_bySlot? (record : Record) (inRange : slot < slotLimit) :
    Faultless (record.bySlot? slot) := by
  apply (faultless_ofSlot inRange true).bind
  intro blockStep _
  split
  · exact .ok _
  · exact (faultless_ofSlot inRange false).bind fun _ _ => .ok _

theorem faultless_byBlockSlot? (record : Record) (root : Root) (inRange : slot < slotLimit) :
    Faultless (record.byBlockSlot? root slot) := by
  apply (faultless_ofSlot inRange true).bind
  intro blockStep _
  apply (faultless_ofSlot inRange false).bind
  intro slotStep _
  dsimp only
  split
  · exact .ok _
  · split
    · exact .ok _
    · exact .ok none

/-- Every row that is asked for by its place is there, and every step that is counted is in
range. -/
structure Addressable (record : Record) : Prop where
  behind : record.rows ≠ [] → record.start.number + record.size ≤ 2 * slotLimit
  stops : ∀ stop, record.stop? = .ok (some stop) → ∃ last, record.rows.getLast? = some last
  /-- The row that is repeated where a block step is left out. -/
  gaps : ∀ step linkRoot, record.checkNext step linkRoot = .ok true →
    ∃ last, record.rows.getLast? = some last
  indices : ∀ step index, record.index? step = some index → index < record.size
  /-- A run of rows is never empty, and its last step is in the record. -/
  runs : ∀ root first length, record.run? root = some (first, length) → 1 ≤ length ∧
    record.index? ⟨first.number + (length - 1)⟩ ≠ none

theorem Bounded.addressable (bounded : record.Bounded) : record.Addressable where
  behind := bounded.behind
  stops stop stopOf := by
    rcases bounded.stop?_cases with none | ⟨someRows, _⟩
    · rw [none] at stopOf
      cases stopOf
    · exact ⟨_, List.getLast?_eq_some_getLast someRows⟩
  gaps step linkRoot skips := by
    unfold checkNext at skips
    split at skips
    next => cases skips
    next last lastRow => exact ⟨last, lastRow⟩
  indices step index found := (index?_eq_some found).2.2
  runs root first length counted := by
    obtain ⟨someSteps, notBefore, within⟩ := bounded.run?_bounds counted
    refine ⟨someSteps, ?_⟩
    rw [index?_of_mem (by omega) (by omega)]
    exact Option.some_ne_none _

end Record

end BeaconChain
