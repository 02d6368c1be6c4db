import BeaconChain.Bisect
import BeaconChain.Entry
import BeaconChain.Table

/-!
# The record of the finalized chain

The record keeps the roots of the finalized chain, one row for every step from the
first finalized one on.  The block step of a slot without a block repeats the row
before it.  Two tables lead from a root to the first step at which it appears.
-/

namespace BeaconChain

structure Row where
  blockRoot : Root
  stateRoot : Root
  deriving DecidableEq, Repr

/-- A finalized state: its step and its roots.  The state itself is in a state
store. -/
structure ArchivedEntry where
  step : Step
  blockRoot : Root
  stateRoot : Root
  deriving DecidableEq, Repr

/-- The rows of the finalized chain, the first of them at step `start`. -/
structure Record where
  start : Step := ⟨0⟩
  rows : List Row := []
  blockSteps : Table Root Step := {}
  stateSteps : Table Root Step := {}
  deriving DecidableEq, Repr

namespace Record

def size (record : Record) : Nat := record.rows.length

/-- The step behind the last row. -/
def stop (record : Record) : Except Error Step :=
  record.start.advance record.size

def stop? (record : Record) : Except Error (Option Step) :=
  if record.rows.isEmpty then .ok none else record.stop.map some

def start? (record : Record) : Except Error (Option Step) := do
  let stop ← record.stop?
  return stop.map fun _ => record.start

def index? (record : Record) (step : Step) : Option Nat :=
  if record.start ≤ step ∧ step.number - record.start.number < record.size then
    some (step.number - record.start.number)
  else
    none

def row? (record : Record) (step : Step) : Option Row := do
  let index ← record.index? step
  record.rows[index]?

def entry? (record : Record) (step : Step) : Option ArchivedEntry := do
  let row ← record.row? step
  return ⟨step, row.blockRoot, row.stateRoot⟩

/-- Whether a block was applied at a step: the step is odd, and the block root
appears there first. -/
def isBlockStep (record : Record) (step : Step) : Bool :=
  match record.row? step with
  | none => false
  | some row => record.blockSteps.find? row.blockRoot = some step && step.hasBlock

def byStateRoot? (record : Record) (root : Root) : Option ArchivedEntry := do
  let step ← record.stateSteps.find? root
  record.entry? step

/-- The entry of a block itself, not of the slots after it. -/
def byBlock? (record : Record) (root : Root) : Option ArchivedEntry := do
  let step ← record.blockSteps.find? root
  if record.isBlockStep step then record.entry? step else none

def byBlockSlot? (record : Record) (root : Root) (slot : Nat) :
    Except Error (Option ArchivedEntry) := do
  let blockStep ← Step.ofSlot slot true
  let slotStep ← Step.ofSlot slot false
  let hasRoot := fun step => (record.row? step).any fun row => row.blockRoot = root
  if hasRoot blockStep && record.isBlockStep blockStep then
    return record.entry? blockStep
  else if hasRoot slotStep then
    return record.entry? slotStep
  else
    return none

/-- The first step of a root and the number of rows that follow it with the same
root, the first one included. -/
def run? (record : Record) (root : Root) : Option (Step × Nat) := do
  let first ← record.blockSteps.find? root
  let index ← record.index? first
  let length := Id.run (countLeading (fun row => pure (row.blockRoot = root : Bool))
    (record.rows.drop index))
  return (first, length)

def closest? (record : Record) (root : Root) (slot : Nat) :
    Except Error (Option ArchivedEntry) :=
  match record.run? root with
  | none => .ok none
  | some (first, length) => do
    let last ← first.advance (length - 1)
    let blockStep ← Step.ofSlot slot true
    let step := if blockStep ≤ last then blockStep else last
    if step < first then
      return none
    else
      return record.entry? step

/-- The entry of a slot: that of its block, if there is one. -/
def bySlot? (record : Record) (slot : Nat) : Except Error (Option ArchivedEntry) := do
  let blockStep ← Step.ofSlot slot true
  if record.isBlockStep blockStep then
    return record.entry? blockStep
  else do
    let slotStep ← Step.ofSlot slot false
    return record.entry? slotStep

/-- The block step right behind a record that ends with an empty slot.  Its entry
repeats the roots of the slot, which is right only if the slot stays without a
block. -/
def trailingGap? (record : Record) (step : Step) : Except Error (Option ArchivedEntry) :=
  if !step.hasBlock then
    .ok none
  else do
    let stop ← record.stop?
    if stop = some step then do
      let slotStep ← Step.ofSlot step.slot false
      return (record.entry? slotStep).map fun entry => { entry with step := step }
    else
      return none

def push (record : Record) (row : Row) : Record :=
  let step : Step := ⟨record.start.number + record.size⟩
  { record with
    rows := record.rows ++ [row]
    blockSteps := record.blockSteps.insertIfNew row.blockRoot step
    stateSteps := record.stateSteps.insertIfNew row.stateRoot step }

/-- Whether the step is behind a record that ends with an empty slot, with only the
block step of that slot in between. -/
def skipsGap (stop step : Step) : Except Error Bool :=
  if stop.hasBlock then do
    let next ← stop.advance 1
    return step = next
  else
    return false

/-- Checks that an entry at `step` continues the record: it must stand at the end,
or leave out only the block step of an empty slot, and link to the last block.
Says whether that block step is left out. -/
def checkNext (record : Record) (step : Step) (linkRoot : Root) : Except Error Bool :=
  match record.rows.getLast? with
  | none => .ok false
  | some last => do
    let stop ← record.stop
    if step < stop then
      throw (.stepOutOfOrder stop step)
    let skips ← skipsGap stop step
    if step ≠ stop ∧ !skips then
      throw (.nonContiguousStep stop step)
    if linkRoot ≠ last.blockRoot then
      throw (.finalizedParentMismatch last.blockRoot linkRoot step)
    return skips

/-- Appends the row of a checked entry, and fills the block step that it leaves
out with the row before it. -/
def append (record : Record) (step : Step) (skips : Bool) (row : Row) : Record :=
  let record := if record.rows.isEmpty then { record with start := step } else record
  let record := match record.rows.getLast?, skips with
    | some last, true => record.push last
    | _, _ => record
  record.push row

@[simp]
theorem rows_push (record : Record) (row : Row) :
    (record.push row).rows = record.rows ++ [row] :=
  rfl

@[simp]
theorem start_push (record : Record) (row : Row) :
    (record.push row).start = record.start :=
  rfl

end Record

end BeaconChain
