/-!
# Slots, epochs and steps

Time is counted in slots, and slots are grouped into epochs of a length that the
preset of a chain fixes.  Slots and epochs are natural numbers below `2 ^ 64`, so
the first slot of an epoch is cut off at the greatest such number.

A chain passes through two states in every slot: the state after the slot was
processed, and the state after the block of the slot was applied, if there is
one.  The first has an even step and the second the odd step behind it.
-/

namespace BeaconChain

/-- The greatest number of a slot. -/
def greatestSlot : Nat := 0xffffffffffffffff

/-- The constants of a chain: an epoch has at least one slot. -/
structure Preset where
  slotsPerEpoch : Nat
  slotsPerEpoch_pos : 0 < slotsPerEpoch := by decide
  deriving DecidableEq, Repr

namespace Preset

/-- The constants for small test chains: eight slots to an epoch. -/
def minimal : Preset where
  slotsPerEpoch := 8

/-- The constants of the main chain: thirty-two slots to an epoch. -/
def mainnet : Preset where
  slotsPerEpoch := 32

def epochOf (preset : Preset) (slot : Nat) : Nat :=
  slot / preset.slotsPerEpoch

/-- The first slot of an epoch, or the greatest slot if that is out of range. -/
def startSlot (preset : Preset) (epoch : Nat) : Nat :=
  min (epoch * preset.slotsPerEpoch) greatestSlot

/-- The number of slots between the start of the epoch and the slot. -/
def sinceStart (preset : Preset) (slot : Nat) : Nat :=
  slot - preset.startSlot (preset.epochOf slot)

def isEpochStart (preset : Preset) (slot : Nat) : Bool :=
  preset.sinceStart slot = 0

/-- Within range the slots since the start of the epoch are the remainder by its
length. -/
theorem sinceStart_eq_mod
    (preset : Preset) {slot : Nat} (inRange : slot ≤ greatestSlot) :
    preset.sinceStart slot = slot % preset.slotsPerEpoch := by
  have small : slot / preset.slotsPerEpoch * preset.slotsPerEpoch ≤ greatestSlot :=
    Nat.le_trans (Nat.div_mul_le_self slot preset.slotsPerEpoch) inRange
  have parts := Nat.div_add_mod' slot preset.slotsPerEpoch
  simp only [sinceStart, startSlot, epochOf, Nat.min_eq_left small]
  omega

end Preset

/-- The position of a state in the sequence of states a chain passes through. -/
structure Step where
  number : Nat
  deriving DecidableEq, Ord, Repr, Inhabited

namespace Step

def slot (step : Step) : Nat := step.number / 2

def hasBlock (step : Step) : Bool := step.number % 2 = 1

instance : LE Step where
  le left right := left.number ≤ right.number

instance : LT Step where
  lt left right := left.number < right.number

instance (left right : Step) : Decidable (left ≤ right) :=
  inferInstanceAs (Decidable (left.number ≤ right.number))

instance (left right : Step) : Decidable (left < right) :=
  inferInstanceAs (Decidable (left.number < right.number))

def text (step : Step) : String := toString step.number

instance : ToString Step := ⟨text⟩

end Step

end BeaconChain
