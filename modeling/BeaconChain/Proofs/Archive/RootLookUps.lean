import BeaconChain.Proofs.Archive.LookUps
import Mathlib.Order.Bounds.Basic

/-!
# Look-ups in the record by root

If no block has the root of an earlier entry, the first step of a block root is that of its block,
or the first one of all, and the rows of the root stand side by side behind it.  So each look-up
finds what a scan of the archived entries would find.
-/

namespace BeaconChain

variable {State Context : Type} {previous next entry other first : Entry State Context}
  {entries : List (Entry State Context)}

/-- Where no element passes behind one that does not, the passing ones stand in front. -/
theorem exists_split_of_pairwise
    {α : Type} {passes : α → Bool} :
    ∀ {elements : List α}, elements.Pairwise (fun first second => passes second → passes first) →
      ∃ passing failing, elements = passing ++ failing ∧
        (∀ element ∈ passing, passes element = true) ∧ ∀ element ∈ failing, passes element = false
  | [], _ => ⟨[], [], rfl, nofun, nofun⟩
  | first :: rest, ordered => by
    cases here : passes first with
    | false =>
      refine ⟨[], first :: rest, rfl, nofun, fun element member => ?_⟩
      rcases List.mem_cons.1 member with rfl | behind
      · exact here
      · have notBefore := List.rel_of_pairwise_cons ordered behind
        rw [here] at notBefore
        simpa using notBefore
    | true =>
      obtain ⟨passing, failing, rfl, front, back⟩ :=
        exists_split_of_pairwise (List.pairwise_cons.1 ordered).2
      exact ⟨first :: passing, failing, rfl, List.forall_mem_cons.2 ⟨here, front⟩, back⟩

/-- Then the count tells which elements pass. -/
theorem lt_countLeading_iff
    {α : Type} {passes : α → Bool} {elements : List α}
    (ordered : elements.Pairwise fun first second => passes second → passes first) {place : Nat} :
    place < Id.run (countLeading (fun element => pure (passes element)) elements) ↔
      ∃ element, elements[place]? = some element ∧ passes element = true := by
  obtain ⟨passing, failing, rfl, front, back⟩ := exists_split_of_pairwise ordered
  rw [countLeading_append (fun element member => congrArg pure (front element member))
    fun element member => congrArg pure (back element member)]
  constructor
  · intro inFront
    refine ⟨passing[place], ?_, front _ (List.getElem_mem inFront)⟩
    rw [List.getElem?_append_left inFront, List.getElem?_eq_getElem inFront]
  · rintro ⟨element, found, accepted⟩
    by_contra behind
    rw [List.getElem?_append_right (Nat.le_of_not_lt behind)] at found
    rw [back element (List.mem_of_getElem? found)] at accepted
    cases accepted

/-- An element that is the only one to pass is found. -/
theorem find?_eq_of_unique
    {α : Type} {passes : α → Bool} {elements : List α} {element : α} (member : element ∈ elements)
    (here : passes element = true)
    (unique : ∀ other ∈ elements, passes other = true → other = element) :
    elements.find? passes = some element := by
  obtain ⟨found, isFound⟩ :=
    Option.isSome_iff_exists.1 (List.find?_isSome.2 ⟨element, member, here⟩)
  rw [isFound, unique found (List.mem_of_find?_eq_some isFound) (List.find?_some isFound)]

/-- The first entry that passes is not later than the others. -/
theorem number_le_of_find?
    {comes : Entry State Context → Entry State Context → Prop} [Successive comes]
    (isChain : entries.IsChain comes) {test : Entry State Context → Bool}
    (found : entries.find? test = some first) (member : entry ∈ entries)
    (passes : test entry = true) : first.number ≤ entry.number := by
  obtain ⟨_, before, after, split, fails⟩ := List.find?_eq_some_iff_append.1 found
  have increasing := increasing_of_isChain isChain
  rw [split] at member increasing
  rcases List.mem_append.1 member with front | back
  · have failed := fails entry front
    rw [passes] at failed
    cases failed
  · rcases List.mem_cons.1 back with rfl | behind
    · exact Nat.le_refl _
    · exact Nat.le_of_lt (List.rel_of_pairwise_cons (List.pairwise_append.1 increasing).2.1 behind)

/-- Only blocks stand at odd steps. -/
theorem Entry.hasBlock_iff_odd (entry : Entry State Context) :
    entry.hasBlock = true ↔ entry.number % 2 = 1 := by
  unfold Entry.number
  cases entry.hasBlock with
  | false => simp
  | true => simp [Nat.mul_add_mod_self_left]

/-- An entry that comes after another one links to its block, and passes over no step but the block
step of an empty slot. -/
structure Succeeds (previous next : Entry State Context) : Prop where
  linked : next.linkRoot = previous.blockRoot
  place : next.number = previous.number + 1 ∨
    next.number = previous.number + 2 ∧ previous.hasBlock = false ∧ next.hasBlock = false

instance : Successive (Succeeds : Entry State Context → Entry State Context → Prop) where
  number_cases succeeds := succeeds.place

theorem Succeeds.blockRoot_eq
    (succeeds : Succeeds previous next) (empty : next.hasBlock = false) :
    next.blockRoot = previous.blockRoot := by
  have noParent : next.parentRoot = none := by simpa [Entry.hasBlock] using empty
  rw [← succeeds.linked, Entry.linkRoot, noParent, Option.getD_none]

/-- Entries that come one after the other, where no block has the root of an earlier one. -/
structure Distinguished (entries : List (Entry State Context)) : Prop where
  isChain : entries.IsChain Succeeds
  fresh : entries.Pairwise fun earlier later =>
    later.hasBlock = true → earlier.blockRoot ≠ later.blockRoot

namespace Distinguished

theorem of_concat (distinguished : Distinguished (entries ++ [entry])) :
    Distinguished entries ∧ (∀ last, entries.getLast? = some last → Succeeds last entry) ∧
      ∀ earlier ∈ entries, earlier.number < entry.number ∧
        (entry.hasBlock = true → earlier.blockRoot ≠ entry.blockRoot) := by
  have increasing := List.pairwise_append.1 (increasing_of_isChain distinguished.isChain)
  have fresh := List.pairwise_append.1 distinguished.fresh
  have chained := List.isChain_append.1 distinguished.isChain
  refine ⟨⟨chained.1, fresh.1⟩, fun last isLast => chained.2.2 last isLast entry rfl, ?_⟩
  intro earlier member
  exact ⟨increasing.2.2 earlier member entry List.mem_cons_self,
    fresh.2.2 earlier member entry List.mem_cons_self⟩

/-- Between two entries with a block root all entries have it. -/
theorem blockRoot_eq_of_between (distinguished : Distinguished entries) :
    ∀ first ∈ entries, ∀ lower ∈ entries, ∀ upper ∈ entries, first.number ≤ lower.number →
      lower.number ≤ upper.number → upper.blockRoot = first.blockRoot →
      lower.blockRoot = first.blockRoot := by
  induction entries using List.reverseRecOn with
  | nil => nofun
  | append_singleton front last ih =>
    obtain ⟨before, succeeds, isEarlier⟩ := distinguished.of_concat
    have inFront : ∀ entry ∈ front ++ [last], entry.number < last.number → entry ∈ front := by
      intro entry member earlier
      rcases List.mem_append.1 member with old | new
      · exact old
      · rw [List.mem_singleton.1 new] at earlier
        exact absurd earlier (Nat.lt_irrefl _)
    intro first isFirst lower isLower upper isUpper notBefore notLater ofRoot
    rcases List.mem_append.1 isUpper with old | new
    · have early := (isEarlier upper old).1
      exact ih before first (inFront first isFirst (by omega)) lower
        (inFront lower isLower (by omega)) upper old notBefore notLater ofRoot
    obtain rfl := List.mem_singleton.1 new
    rcases List.mem_append.1 isLower with lowerOld | lowerNew
    · have early := (isEarlier lower lowerOld).1
      have firstOld := inFront first isFirst (by omega)
      obtain ⟨previous, isLast⟩ := Option.isSome_iff_exists.1
        (List.getLast?_isSome.2 (List.ne_nil_of_mem lowerOld))
      -- a block would not have the root of an earlier entry
      have empty : upper.hasBlock = false := by
        by_contra hasBlock
        exact (isEarlier first firstOld).2 (by simpa using hasBlock) ofRoot.symm
      have sameRoot := (succeeds previous isLast).blockRoot_eq empty
      exact ih before first firstOld lower lowerOld previous (List.mem_of_getLast? isLast)
        notBefore (number_le_of_getLast? before.isChain isLast lower lowerOld)
        (sameRoot.symm.trans ofRoot)
    · rw [List.mem_singleton.1 lowerNew]
      exact ofRoot

/-- The first entry with the root of a block is that of the block. -/
theorem find?_of_hasBlock
    (distinguished : Distinguished entries) (member : entry ∈ entries)
    (hasBlock : entry.hasBlock = true) :
    entries.find? (fun other => other.row.blockRoot = entry.blockRoot) = some entry := by
  obtain ⟨before, after, split⟩ := List.append_of_mem member
  rw [List.find?_eq_some_iff_append]
  refine ⟨decide_eq_true rfl, before, after, split, fun earlier front => ?_⟩
  have fresh := distinguished.fresh
  rw [split, List.pairwise_append] at fresh
  rw [Bool.not_eq_true', decide_eq_false_iff_not]
  exact fresh.2.2 earlier front entry List.mem_cons_self hasBlock

/-- Nothing with the root of a block stands before the block. -/
theorem number_le_of_blockRoot_eq
    (distinguished : Distinguished entries) (member : entry ∈ entries)
    (hasBlock : entry.hasBlock = true) (memberToo : other ∈ entries)
    (same : other.blockRoot = entry.blockRoot) : entry.number ≤ other.number :=
  number_le_of_find? distinguished.isChain (distinguished.find?_of_hasBlock member hasBlock)
    memberToo (decide_eq_true same)

theorem number_le_of_ref_eq
    (distinguished : Distinguished entries) (member : entry ∈ entries) (memberToo : other ∈ entries)
    (same : other.ref = entry.ref) : entry.number ≤ other.number := by
  cases hasBlock : entry.hasBlock with
  | true =>
    exact distinguished.number_le_of_blockRoot_eq member hasBlock memberToo
      (congrArg NodeRef.root same)
  | false =>
    have sameSlot : other.slot = entry.slot := congrArg NodeRef.slot same
    rw [Entry.number_of_empty hasBlock, ← sameSlot]
    exact other.number_bounds.1

/-- A block root has one entry in a slot. -/
theorem eq_of_ref_eq
    (distinguished : Distinguished entries) (member : entry ∈ entries) (memberToo : other ∈ entries)
    (same : other.ref = entry.ref) : other = entry :=
  eq_of_number_eq distinguished.isChain memberToo member
    (Nat.le_antisymm (distinguished.number_le_of_ref_eq memberToo member same.symm)
      (distinguished.number_le_of_ref_eq member memberToo same))

/-- A root has one block. -/
theorem find?_block
    (distinguished : Distinguished entries) (member : entry ∈ entries)
    (hasBlock : entry.hasBlock = true) :
    entries.find? (fun other => other.hasBlock && other.blockRoot = entry.blockRoot) =
      some entry := by
  refine find?_eq_of_unique member (by simp [hasBlock]) fun other memberToo passes => ?_
  rw [Bool.and_eq_true, decide_eq_true_eq] at passes
  refine eq_of_number_eq distinguished.isChain memberToo member (Nat.le_antisymm ?_ ?_)
  · exact distinguished.number_le_of_blockRoot_eq memberToo passes.1 member passes.2.symm
  · exact distinguished.number_le_of_blockRoot_eq member hasBlock memberToo passes.2

theorem find?_ref (distinguished : Distinguished entries) (member : entry ∈ entries) :
    entries.find? (fun other => other.ref = entry.ref) = some entry :=
  find?_eq_of_unique member (decide_eq_true rfl) fun _ memberToo same =>
    distinguished.eq_of_ref_eq member memberToo (of_decide_eq_true same)

end Distinguished

/-- The finalized entry that an entry leaves at its own step. -/
def Entry.archived (entry : Entry State Context) : ArchivedEntry :=
  entry.archivedAt entry.number

namespace Record

variable {record : Record} {number : Nat} {root : Root} {slot : Nat}
  {comes : Entry State Context → Entry State Context → Prop} [Successive comes]

/-- The recorded steps of a block root up to a slot. -/
def stepsOf (record : Record) (root : Root) (slot : Nat) : Set Nat :=
  {number | number ≤ 2 * slot + 1 ∧
    ∃ entry, record.entry? ⟨number⟩ = some entry ∧ entry.blockRoot = root}

theorem entry?_eq_map (step : Step) :
    record.entry? step =
      (record.row? step).map fun row => ⟨step, row.blockRoot, row.stateRoot⟩ := by
  unfold entry?
  cases record.row? step <;> rfl

/-- A finalized entry has the step at which it is found. -/
theorem eq_at_step
    {step : Step} {found : ArchivedEntry} (here : record.entry? step = some found) :
    found = { found with step := step } := by
  rw [entry?_eq_map, Option.map_eq_some_iff] at here
  obtain ⟨row, _, rfl⟩ := here
  rfl

theorem mem_stepsOf_iff :
    number ∈ record.stepsOf root slot ↔
      number ≤ 2 * slot + 1 ∧ ∃ row, record.row? ⟨number⟩ = some row ∧ row.blockRoot = root := by
  simp [stepsOf, entry?_eq_map]

theorem lt_of_row? {row : Row} (found : record.row? ⟨number⟩ = some row) :
    number < record.start.number + record.size := by
  obtain ⟨notBefore, here⟩ := row?_eq_some_iff.1 found
  have inside := (List.getElem?_eq_some_iff.1 here).1
  simp only at notBefore inside
  rw [size]
  omega

theorem getElem?_drop_rows (notBefore : record.start.number ≤ number) (place : Nat) :
    (record.rows.drop (number - record.start.number))[place]? = record.row? ⟨number + place⟩ := by
  ext row
  have index : number + place - record.start.number = number - record.start.number + place := by
    omega
  rw [row?_eq_some_iff, List.getElem?_drop, index]
  exact ⟨fun found => ⟨Nat.le_add_right_of_le notBefore, found⟩, And.right⟩

namespace Holds

theorem row?_of_mem_entries
    (holds : record.Holds entries) (isChain : entries.IsChain comes) (member : entry ∈ entries) :
    record.row? ⟨entry.number⟩ = some entry.row := by
  have inside := holds.number_mem isChain member
  rw [holds.row?_of_mem inside.1 inside.2, latestAt?_of_mem isChain member]
  rfl

theorem entry?_of_mem_entries
    (holds : record.Holds entries) (isChain : entries.IsChain comes) (member : entry ∈ entries) :
    record.entry? ⟨entry.number⟩ = some (entry.archivedAt entry.number) := by
  rw [entry?_eq_map, holds.row?_of_mem_entries isChain member]
  rfl

/-- At every step of the record there is an entry in effect. -/
theorem exists_inEffect_of_row?
    (holds : record.Holds entries) {row : Row} (found : record.row? ⟨number⟩ = some row) :
    ∃ before entry after, InEffect entries number before entry after ∧ entry.row = row := by
  obtain ⟨notBefore, here⟩ := row?_eq_some_iff.1 found
  cases entries with
  | nil => simp [holds.rows_eq_nil] at here
  | cons first rest =>
    have isFirst : (first :: rest).head? = some first := rfl
    obtain ⟨before, entry, after, inEffect⟩ :=
      exists_inEffect isFirst (holds.start first isFirst ▸ notBefore)
    have row := holds.row?_of_mem notBefore (lt_of_row? found)
    rw [inEffect.latestAt?_eq, found] at row
    exact ⟨before, entry, after, inEffect, (Option.some.inj row).symm⟩

/-- A row is that of an entry at its step, or repeats the row before it at the block step of a slot
without a block. -/
theorem row?_cases
    (holds : record.Holds entries) (isChain : entries.IsChain comes) {row : Row}
    (found : record.row? ⟨number⟩ = some row) :
    (∃ entry ∈ entries, entry.number = number ∧ entry.row = row) ∨
      number % 2 = 1 ∧ (∀ entry ∈ entries, entry.number ≠ number) ∧
        record.row? ⟨number - 1⟩ = some row := by
  obtain ⟨before, entry, after, inEffect, rfl⟩ := holds.exists_inEffect_of_row? found
  have member : entry ∈ entries := by simp [inEffect.split]
  obtain ⟨last, isLast⟩ := Option.isSome_iff_exists.1
    (List.getLast?_isSome.2 (List.ne_nil_of_mem member))
  have notBehind : number ≤ last.number := by
    have stopEq := holds.stop_eq isLast
    have within := lt_of_row? found
    omega
  rcases inEffect.number_cases isChain isLast notBehind with here | ⟨gap, empty, _⟩
  · exact .inl ⟨entry, member, here, rfl⟩
  · have even := Entry.number_of_empty empty
    have previous : number - 1 = entry.number := by omega
    refine .inr ⟨by omega, fun other isOther here => ?_, ?_⟩
    · have notLater := number_le_of_latestAt? isChain inEffect.latestAt?_eq isOther (by omega)
      omega
    · rw [previous]
      exact holds.row?_of_mem_entries isChain member

theorem blockSteps_eq
    (holds : record.Holds entries) (distinguished : Distinguished entries)
    (member : entry ∈ entries) (hasBlock : entry.hasBlock = true) :
    record.blockSteps.find? entry.blockRoot = some ⟨entry.number⟩ := by
  rw [holds.blockSteps, distinguished.find?_of_hasBlock member hasBlock]
  rfl

/-- The block steps of the record are those of its blocks. -/
theorem isBlockStep_iff
    (holds : record.Holds entries) (distinguished : Distinguished entries) :
    record.isBlockStep ⟨number⟩ = true ↔
      ∃ entry ∈ entries, entry.number = number ∧ entry.hasBlock = true := by
  have isChain := distinguished.isChain
  constructor
  · intro isBlock
    unfold isBlockStep at isBlock
    split at isBlock
    next => cases isBlock
    next row found =>
      rw [Bool.and_eq_true, decide_eq_true_eq, holds.blockSteps, Option.map_eq_some_iff] at isBlock
      obtain ⟨⟨first, isFirst, here⟩, isOdd⟩ := isBlock
      have here := congrArg Step.number here
      simp only at here
      refine ⟨first, List.mem_of_find?_eq_some isFirst, here, ?_⟩
      rw [first.hasBlock_iff_odd, here]
      simpa [Step.hasBlock] using isOdd
  · rintro ⟨entry, member, rfl, hasBlock⟩
    have inside := holds.number_mem isChain member
    rw [holds.isBlockStep_eq inside.1 inside.2 (latestAt?_of_mem isChain member),
      holds.blockSteps_eq distinguished member hasBlock, Entry.number_of_hasBlock hasBlock,
      Step.hasBlock_odd]
    simp

/-! ## Scans -/

theorem byBlock?_eq_find?
    (holds : record.Holds entries) (distinguished : Distinguished entries) (root : Root) :
    record.byBlock? root =
      (entries.find? fun entry => entry.hasBlock && entry.blockRoot = root).map Entry.archived := by
  have isChain := distinguished.isChain
  have leads := holds.blockSteps root
  cases found : entries.find? fun entry => entry.hasBlock && entry.blockRoot = root with
  | some block =>
    have member := List.mem_of_find?_eq_some found
    have passes := List.find?_some found
    rw [Bool.and_eq_true, decide_eq_true_eq] at passes
    obtain ⟨hasBlock, rfl⟩ := passes
    have isBlock := (holds.isBlockStep_iff distinguished).2 ⟨block, member, rfl, hasBlock⟩
    simp only [byBlock?, holds.blockSteps_eq distinguished member hasBlock, Option.bind_eq_bind,
      Option.bind_some, isBlock, if_true, holds.entry?_of_mem_entries isChain member]
    rfl
  | none =>
    cases first : record.blockSteps.find? root with
    | none => simp [byBlock?, first]
    | some step =>
      have noBlock : record.isBlockStep step = false := by
        by_contra isBlock
        rw [first, eq_comm, Option.map_eq_some_iff] at leads
        obtain ⟨eldest, isFirst, rfl⟩ := leads
        obtain ⟨block, member, here, hasBlock⟩ :=
          (holds.isBlockStep_iff distinguished).1 (by simpa using isBlock)
        obtain rfl := eq_of_number_eq isChain member (List.mem_of_find?_eq_some isFirst) here
        have ofRoot := List.find?_some isFirst
        have fails := List.find?_eq_none.1 found block member
        rw [hasBlock, Bool.true_and] at fails
        exact fails ofRoot
      simp [byBlock?, first, noBlock]

theorem byStateRoot?_eq_find?
    (holds : record.Holds entries) (isChain : entries.IsChain comes) (root : Root) :
    record.byStateRoot? root =
      (entries.find? fun entry => entry.stateRoot = root).map Entry.archived := by
  have leads : record.stateSteps.find? root =
      (entries.find? fun entry => entry.stateRoot = root).map fun entry => ⟨entry.number⟩ :=
    holds.stateSteps root
  cases found : entries.find? fun entry => entry.stateRoot = root with
  | none => simp [byStateRoot?, leads, found]
  | some first =>
    rw [byStateRoot?, leads, found]
    exact holds.entry?_of_mem_entries isChain (List.mem_of_find?_eq_some found)

/-- What is asked about the block step of a slot. -/
theorem hasRoot_blockStep_iff
    (holds : record.Holds entries) (distinguished : Distinguished entries) (root : Root)
    (slot : Nat) :
    (((record.row? ⟨2 * slot + 1⟩).any fun row => row.blockRoot = root) &&
        record.isBlockStep ⟨2 * slot + 1⟩) = true ↔
      ∃ entry ∈ entries, entry.ref = ⟨root, slot⟩ ∧ entry.hasBlock = true := by
  rw [Bool.and_eq_true, holds.isBlockStep_iff distinguished]
  constructor
  · rintro ⟨ofRoot, entry, member, here, hasBlock⟩
    have number := Entry.number_of_hasBlock hasBlock
    rw [← here, holds.row?_of_mem_entries distinguished.isChain member, Option.any_some,
      decide_eq_true_eq] at ofRoot
    have sameSlot : entry.slot = slot := by omega
    exact ⟨entry, member, by rw [← ofRoot, ← sameSlot]; rfl, hasBlock⟩
  · rintro ⟨entry, member, same, hasBlock⟩
    cases same
    have row := holds.row?_of_mem_entries distinguished.isChain member
    rw [Entry.number_of_hasBlock hasBlock] at row
    exact ⟨by simp [row, Entry.row], entry, member, Entry.number_of_hasBlock hasBlock, hasBlock⟩

/-- What is asked about the step of a slot before its block. -/
theorem hasRoot_slotStep_iff
    (holds : record.Holds entries) (distinguished : Distinguished entries) (root : Root)
    (slot : Nat) :
    ((record.row? ⟨2 * slot⟩).any fun row => row.blockRoot = root) = true ↔
      ∃ entry ∈ entries, entry.ref = ⟨root, slot⟩ ∧ entry.hasBlock = false := by
  rw [Option.any_eq_true]
  constructor
  · rintro ⟨row, found, ofRoot⟩
    rcases holds.row?_cases distinguished.isChain found with ⟨entry, member, here, rfl⟩ | filled
    · have even : entry.hasBlock = false := by
        by_contra hasBlock
        have odd := Entry.number_of_hasBlock (by simpa using hasBlock)
        omega
      have number := Entry.number_of_empty even
      have sameSlot : entry.slot = slot := by omega
      refine ⟨entry, member, ?_, even⟩
      rw [← of_decide_eq_true ofRoot, ← sameSlot]
      rfl
    · have isOdd := filled.1
      omega
  · rintro ⟨entry, member, same, empty⟩
    cases same
    have row := holds.row?_of_mem_entries distinguished.isChain member
    rw [Entry.number_of_empty empty] at row
    exact ⟨entry.row, row, decide_eq_true rfl⟩

theorem byBlockSlot?_eq_find?
    (holds : record.Holds entries) (distinguished : Distinguished entries) (root : Root)
    (inRange : slot < slotLimit) :
    record.byBlockSlot? root slot =
      .ok ((entries.find? fun entry => entry.ref = ⟨root, slot⟩).map Entry.archived) := by
  have blockStep := Step.ofSlot_of_lt inRange true
  have slotStep := Step.ofSlot_of_lt inRange false
  simp only [Bool.toNat_true, Bool.toNat_false, Nat.add_zero] at blockStep slotStep
  have found : ∀ entry ∈ entries, entry.ref = ⟨root, slot⟩ →
      (entries.find? fun other => other.ref = ⟨root, slot⟩).map Entry.archived =
        record.entry? ⟨entry.number⟩ := by
    intro entry member same
    rw [holds.entry?_of_mem_entries distinguished.isChain member, ← same,
      distinguished.find?_ref member]
    rfl
  have atBlock := holds.hasRoot_blockStep_iff distinguished root slot
  have atSlot := holds.hasRoot_slotStep_iff distinguished root slot
  simp only [byBlockSlot?, blockStep, slotStep, bind, Except.bind]
  split
  next isBlock =>
    obtain ⟨entry, member, same, hasBlock⟩ := atBlock.1 isBlock
    rw [found entry member same, Entry.number_of_hasBlock hasBlock]
    cases same
    rfl
  next noBlock =>
    split
    next isSlot =>
      obtain ⟨entry, member, same, empty⟩ := atSlot.1 isSlot
      rw [found entry member same, Entry.number_of_empty empty]
      cases same
      rfl
    next noSlot =>
      have nothing : entries.find? (fun entry => entry.ref = ⟨root, slot⟩) = none := by
        rw [List.find?_eq_none]
        intro entry member same
        have sameRef := of_decide_eq_true same
        cases hasBlock : entry.hasBlock with
        | true => exact noBlock (atBlock.2 ⟨entry, member, sameRef, hasBlock⟩)
        | false => exact noSlot (atSlot.2 ⟨entry, member, sameRef, hasBlock⟩)
      rw [nothing]
      rfl

theorem bySlot?_eq_find?
    (holds : record.Holds entries) (distinguished : Distinguished entries)
    (inRange : slot < slotLimit) :
    record.bySlot? slot =
      .ok (((entries.find? fun entry => entry.hasBlock && entry.slot = slot).map
        Entry.archived).or (record.entry? ⟨2 * slot⟩)) := by
  have blockStep := Step.ofSlot_of_lt inRange true
  have slotStep := Step.ofSlot_of_lt inRange false
  simp only [Bool.toNat_true, Bool.toNat_false, Nat.add_zero] at blockStep slotStep
  cases found : entries.find? fun entry => entry.hasBlock && entry.slot = slot with
  | some block =>
    have member := List.mem_of_find?_eq_some found
    have passes := List.find?_some found
    rw [Bool.and_eq_true, decide_eq_true_eq] at passes
    obtain ⟨hasBlock, rfl⟩ := passes
    have number := Entry.number_of_hasBlock hasBlock
    have isBlock := (holds.isBlockStep_iff distinguished).2 ⟨block, member, number, hasBlock⟩
    have recorded := holds.entry?_of_mem_entries distinguished.isChain member
    rw [number] at recorded
    simp only [bySlot?, blockStep, bind, Except.bind, isBlock, if_true, recorded, Option.map_some,
      Option.some_or, Entry.archived, number]
    rfl
  | none =>
    have noBlock : record.isBlockStep ⟨2 * slot + 1⟩ = false := by
      by_contra isBlock
      obtain ⟨block, member, here, hasBlock⟩ :=
        (holds.isBlockStep_iff distinguished).1 (by simpa using isBlock)
      have number := Entry.number_of_hasBlock hasBlock
      have fails := List.find?_eq_none.1 found block member
      rw [hasBlock, Bool.true_and, decide_eq_true_eq] at fails
      exact fails (by omega)
    simp only [bySlot?, blockStep, slotStep, bind, Except.bind, noBlock, Option.map_none,
      Option.none_or]
    rfl

/-- From the first entry of a root on the rows with the root stand side by side, and none before. -/
theorem blockRoot_of_row?
    (holds : record.Holds entries) (distinguished : Distinguished entries)
    (isFirst : entries.find? (fun entry => entry.row.blockRoot = root) = some first)
    {low high : Nat} {lower upper : Row} (notBefore : first.number ≤ low) (notLater : low ≤ high)
    (lowFound : record.row? ⟨low⟩ = some lower) (highFound : record.row? ⟨high⟩ = some upper)
    (ofRoot : upper.blockRoot = root) : lower.blockRoot = root := by
  have isChain := distinguished.isChain
  have firstMember := List.mem_of_find?_eq_some isFirst
  have passes := List.find?_some isFirst
  have firstRoot : first.blockRoot = root := of_decide_eq_true passes
  obtain ⟨_, lowerEntry, _, lowEffect, rfl⟩ := holds.exists_inEffect_of_row? lowFound
  obtain ⟨_, upperEntry, _, highEffect, rfl⟩ := holds.exists_inEffect_of_row? highFound
  have lowerMember := mem_of_latestAt? lowEffect.latestAt?_eq
  have behindFirst :=
    number_le_of_latestAt? isChain lowEffect.latestAt?_eq firstMember notBefore
  have beforeUpper := number_le_of_latestAt? isChain highEffect.latestAt?_eq lowerMember.1
    (Nat.le_trans lowerMember.2 notLater)
  rw [← firstRoot]
  exact distinguished.blockRoot_eq_of_between first firstMember lowerEntry lowerMember.1 upperEntry
    (mem_of_latestAt? highEffect.latestAt?_eq).1 behindFirst beforeUpper
      (ofRoot.trans firstRoot.symm)

theorem number_le_of_row?
    (holds : record.Holds entries) (isChain : entries.IsChain comes)
    (isFirst : entries.find? (fun entry => entry.row.blockRoot = root) = some first) {row : Row}
    (found : record.row? ⟨number⟩ = some row) (ofRoot : row.blockRoot = root) :
    first.number ≤ number := by
  obtain ⟨_, entry, _, inEffect, rfl⟩ := holds.exists_inEffect_of_row? found
  have member := mem_of_latestAt? inEffect.latestAt?_eq
  exact Nat.le_trans (number_le_of_find? isChain isFirst member.1 (decide_eq_true ofRoot)) member.2

/-- The steps of a root are counted from its first one on. -/
theorem run?_spec
    (holds : record.Holds entries) (distinguished : Distinguished entries)
    (isFirst : entries.find? (fun entry => entry.row.blockRoot = root) = some first) :
    ∃ length, record.run? root = some (⟨first.number⟩, length) ∧
      ∀ number, first.number ≤ number → (number < first.number + length ↔
        ∃ row, record.row? ⟨number⟩ = some row ∧ row.blockRoot = root) := by
  have inside := holds.number_mem distinguished.isChain (List.mem_of_find?_eq_some isFirst)
  have leads := holds.blockSteps root
  rw [isFirst] at leads
  have index := record.index?_of_mem inside.1 inside.2
  have ordered : (record.rows.drop (first.number - record.start.number)).Pairwise
      fun former latter => (latter.blockRoot = root : Bool) → (former.blockRoot = root : Bool) := by
    rw [List.pairwise_iff_getElem]
    intro low high lowInside highInside before ofRoot
    have lowFound := List.getElem?_eq_getElem lowInside
    have highFound := List.getElem?_eq_getElem highInside
    rw [getElem?_drop_rows inside.1] at lowFound highFound
    exact decide_eq_true (holds.blockRoot_of_row? distinguished isFirst (by omega) (by omega)
      lowFound highFound (of_decide_eq_true ofRoot))
  refine ⟨Id.run (countLeading (fun row => pure (row.blockRoot = root : Bool))
    (record.rows.drop (first.number - record.start.number))), ?_, fun number notBefore => ?_⟩
  · simp only [run?, leads, Option.map_some, index, Option.bind_eq_bind, Option.bind_some]
    rfl
  obtain ⟨place, rfl⟩ := Nat.exists_eq_add_of_le notBefore
  simp only [Nat.add_lt_add_iff_left, lt_countLeading_iff ordered, getElem?_drop_rows inside.1,
    decide_eq_true_eq]

/-- The last step of a root. -/
theorem exists_last_of_run?
    (holds : record.Holds entries) (distinguished : Distinguished entries)
    (isFirst : entries.find? (fun entry => entry.row.blockRoot = root) = some first)
    (inRange : ∀ entry ∈ entries, entry.slot < slotLimit) :
    ∃ length last, record.run? root = some (⟨first.number⟩, length) ∧
      (⟨first.number⟩ : Step).advance (length - 1) = .ok ⟨last⟩ ∧
      ∀ number, (first.number ≤ number ∧ number ≤ last) ↔
        ∃ row, record.row? ⟨number⟩ = some row ∧ row.blockRoot = root := by
  have isChain := distinguished.isChain
  have member := List.mem_of_find?_eq_some isFirst
  have passes := List.find?_some isFirst
  have firstRoot : first.blockRoot = root := of_decide_eq_true passes
  obtain ⟨length, run, counted⟩ := holds.run?_spec distinguished isFirst
  have someSteps := (counted first.number (Nat.le_refl _)).2
    ⟨first.row, holds.row?_of_mem_entries isChain member, firstRoot⟩
  -- the steps that are counted stay within the record
  obtain ⟨row, lastRow, _⟩ := (counted (first.number + (length - 1)) (by omega)).1 (by omega)
  obtain ⟨final, isFinal⟩ := Option.isSome_iff_exists.1
    (List.getLast?_isSome.2 (List.ne_nil_of_mem member))
  have stopEq := holds.stop_eq isFinal
  have finalSlot := inRange final (List.mem_of_getLast? isFinal)
  have finalBounds := final.number_bounds
  have limits : Step.limit = 2 * slotLimit + 2 := rfl
  have within := lt_of_row? lastRow
  refine ⟨length, first.number + (length - 1), run,
    Step.advance_of_lt (by simp only; omega), fun number => ⟨fun between => ?_, fun found => ?_⟩⟩
  · exact (counted number between.1).1 (by omega)
  · obtain ⟨row, there, ofRoot⟩ := found
    have notBefore := holds.number_le_of_row? isChain isFirst there ofRoot
    have inRun := (counted number notBefore).2 ⟨row, there, ofRoot⟩
    omega

/-- The step that is chosen: that of the block of the slot, or the last one of the root. -/
theorem closest?_of_run?
    {length earliest last : Nat} (run : record.run? root = some (⟨earliest⟩, length))
    (lastStep : (⟨earliest⟩ : Step).advance (length - 1) = .ok ⟨last⟩) (small : slot < slotLimit) :
    record.closest? root slot =
      if min (2 * slot + 1) last < earliest then .ok none
      else .ok (record.entry? ⟨min (2 * slot + 1) last⟩) := by
  have blockStep := Step.ofSlot_of_lt small true
  rw [Bool.toNat_true] at blockStep
  have order : (⟨2 * slot + 1⟩ : Step) ≤ ⟨last⟩ ↔ 2 * slot + 1 ≤ last := Iff.rfl
  have chosen : (if (⟨2 * slot + 1⟩ : Step) ≤ ⟨last⟩ then ⟨2 * slot + 1⟩ else ⟨last⟩) =
      (⟨min (2 * slot + 1) last⟩ : Step) := by
    by_cases within : 2 * slot + 1 ≤ last
    · rw [if_pos (order.2 within), Nat.min_eq_left within]
    · rw [if_neg (order.not.2 within), Nat.min_eq_right (by omega)]
  simp only [closest?, run, lastStep, blockStep, bind, Except.bind, chosen]
  rfl

/-- The step that is found is the greatest one of its root up to the slot. -/
theorem closest?_isGreatest
    (holds : record.Holds entries) (distinguished : Distinguished entries)
    (inRange : ∀ entry ∈ entries, entry.slot < slotLimit) (root : Root) (small : slot < slotLimit) :
    (∃ number, IsGreatest (record.stepsOf root slot) number ∧
        record.closest? root slot = .ok (record.entry? ⟨number⟩)) ∨
      record.stepsOf root slot = ∅ ∧ record.closest? root slot = .ok none := by
  cases isFirst : entries.find? (fun entry => entry.row.blockRoot = root) with
  | none =>
    have leads := holds.blockSteps root
    rw [isFirst] at leads
    refine .inr
      ⟨Set.eq_empty_of_forall_notMem fun number isStep => ?_, by simp [closest?, run?, leads]⟩
    obtain ⟨_, row, found, ofRoot⟩ := mem_stepsOf_iff.1 isStep
    obtain ⟨_, entry, _, inEffect, rfl⟩ := holds.exists_inEffect_of_row? found
    exact List.find?_eq_none.1 isFirst entry (mem_of_latestAt? inEffect.latestAt?_eq).1
      (decide_eq_true ofRoot)
  | some first =>
    obtain ⟨length, last, run, lastStep, steps⟩ :=
      holds.exists_last_of_run? distinguished isFirst inRange
    have isStep : ∀ number, number ∈ record.stepsOf root slot ↔
        number ≤ 2 * slot + 1 ∧ first.number ≤ number ∧ number ≤ last := fun number => by
      rw [mem_stepsOf_iff, steps]
    have closest := closest?_of_run? run lastStep small
    by_cases early : min (2 * slot + 1) last < first.number
    · refine .inr
        ⟨Set.eq_empty_of_forall_notMem fun number member => ?_, by rw [closest, if_pos early]⟩
      have bounds := (isStep number).1 member
      omega
    · refine .inl ⟨min (2 * slot + 1) last, ⟨(isStep _).2 (by omega), fun number member => ?_⟩,
        by rw [closest, if_neg early]⟩
      have bounds := (isStep number).1 member
      omega

/-- The steps of a record reach from its first entry to its last one. -/
theorem isSome_entry?_iff
    (holds : record.Holds entries) :
    (record.entry? ⟨number⟩).isSome = true ↔ ∃ first last, entries.head? = some first ∧
      entries.getLast? = some last ∧ first.number ≤ number ∧ number ≤ last.number := by
  rw [entry?_eq_map, Option.isSome_map, Option.isSome_iff_exists]
  constructor
  · rintro ⟨row, found⟩
    obtain ⟨_, entry, _, inEffect, _⟩ := holds.exists_inEffect_of_row? found
    have someEntries : entries ≠ [] := List.ne_nil_of_mem (mem_of_latestAt? inEffect.latestAt?_eq).1
    have isFirst := List.head?_eq_some_head someEntries
    have isLast := List.getLast?_eq_some_getLast someEntries
    have start := holds.start _ isFirst
    have stopEq := holds.stop_eq isLast
    have notBefore := (row?_eq_some_iff.1 found).1
    have within := lt_of_row? found
    exact ⟨_, _, isFirst, isLast, start ▸ notBefore, by omega⟩
  · rintro ⟨first, last, isFirst, isLast, notBefore, notBehind⟩
    have start := holds.start first isFirst
    have stopEq := holds.stop_eq isLast
    obtain ⟨_, entry, _, inEffect⟩ := exists_inEffect isFirst notBefore
    have row := holds.row?_of_mem (start ▸ notBefore) (by omega)
    rw [inEffect.latestAt?_eq] at row
    exact ⟨_, row⟩

end Holds

/-- Look-ups in a record answer as scans of the entries that it has accepted. -/
structure Scans (record : Record) (entries : List (Entry State Context)) : Prop where
  byBlock : ∀ root, record.byBlock? root =
    (entries.find? fun entry => entry.hasBlock && entry.blockRoot = root).map Entry.archived
  byBlockSlot : ∀ root slot, slot < slotLimit → record.byBlockSlot? root slot =
    .ok ((entries.find? fun entry => entry.ref = ⟨root, slot⟩).map Entry.archived)
  byStateRoot : ∀ root, record.byStateRoot? root =
    (entries.find? fun entry => entry.stateRoot = root).map Entry.archived
  bySlot : ∀ slot, slot < slotLimit → record.bySlot? slot =
    .ok (((entries.find? fun entry => entry.hasBlock && entry.slot = slot).map
      Entry.archived).or (record.entry? ⟨2 * slot⟩))
  closest : ∀ root slot, slot < slotLimit →
    (∃ number, IsGreatest (record.stepsOf root slot) number ∧
        record.closest? root slot = .ok (record.entry? ⟨number⟩)) ∨
      record.stepsOf root slot = ∅ ∧ record.closest? root slot = .ok none
  /-- The steps that are recorded. -/
  recorded : ∀ number, (record.entry? ⟨number⟩).isSome = true ↔
    ∃ first last, entries.head? = some first ∧ entries.getLast? = some last ∧
      first.number ≤ number ∧ number ≤ last.number
  accepted : ∀ entry ∈ entries, record.entry? ⟨entry.number⟩ = some entry.archived
  /-- A recorded step without an entry repeats the roots of the step before it. -/
  filled : ∀ number found, record.entry? ⟨number⟩ = some found →
    (∀ entry ∈ entries, entry.number ≠ number) →
      number % 2 = 1 ∧ record.entry? ⟨number - 1⟩ = some { found with step := ⟨number - 1⟩ }

/-- A step that is filled repeats the entry before it. -/
theorem Scans.eq_archivedAt
    (scans : record.Scans entries) (member : entry ∈ entries) {found : ArchivedEntry}
    (there : record.entry? ⟨entry.number + 1⟩ = some found)
    (unaccepted : ∀ other ∈ entries, other.number ≠ entry.number + 1) :
    found = entry.archivedAt (entry.number + 1) := by
  have before := (scans.filled _ found there unaccepted).2
  rw [Nat.add_sub_cancel, scans.accepted entry member, Option.some.injEq] at before
  rw [eq_at_step there]
  exact congrArg (fun previous : ArchivedEntry => { previous with step := ⟨entry.number + 1⟩ })
    before.symm

theorem Holds.scans
    (holds : record.Holds entries) (distinguished : Distinguished entries)
    (inRange : ∀ entry ∈ entries, entry.slot < slotLimit) : record.Scans entries where
  byBlock := holds.byBlock?_eq_find? distinguished
  byBlockSlot root _ := holds.byBlockSlot?_eq_find? distinguished root
  byStateRoot := holds.byStateRoot?_eq_find? distinguished.isChain
  bySlot _ := holds.bySlot?_eq_find? distinguished
  closest root _ := holds.closest?_isGreatest distinguished inRange root
  recorded _ := holds.isSome_entry?_iff
  accepted _ := holds.entry?_of_mem_entries distinguished.isChain
  filled number found here unaccepted := by
    rw [entry?_eq_map, Option.map_eq_some_iff] at here
    obtain ⟨row, there, rfl⟩ := here
    rcases holds.row?_cases distinguished.isChain there with accepted | ⟨isOdd, _, before⟩
    · obtain ⟨entry, member, sameStep, _⟩ := accepted
      exact absurd sameStep (unaccepted entry member)
    · exact ⟨isOdd, by rw [entry?_eq_map, before]; rfl⟩

end Record

end BeaconChain
