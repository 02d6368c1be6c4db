import BeaconChain.Error

/-!
# Arithmetic of steps

Step numbers stay below `2 ^ 64`.  Arithmetic that leaves this range is a fault.
-/

namespace BeaconChain

namespace Step

/-- The first number that is no longer a step. -/
def limit : Nat := 0x10000000000000000

/-- The step with a number, which must be in range. -/
def ofNumber (number : Nat) : Except Error Step :=
  if number < limit then .ok ⟨number⟩ else .error (.fault .outOfRange)

/-- The step of a slot, of its block or of the slot itself. -/
def ofSlot (slot : Nat) (hasBlock : Bool) : Except Error Step :=
  ofNumber (2 * slot + hasBlock.toNat)

def advance (step : Step) (count : Nat) : Except Error Step :=
  ofNumber (step.number + count)

/-- The number of steps from an earlier step to this one. -/
def since (step earlier : Step) : Except Error Nat :=
  if earlier.number ≤ step.number then .ok (step.number - earlier.number)
  else .error (.fault .outOfRange)

theorem ofSlot_eq_ok_iff (slot : Nat) (hasBlock : Bool) (step : Step) :
    ofSlot slot hasBlock = .ok step ↔
      2 * slot + hasBlock.toNat < limit ∧ step.number = 2 * slot + hasBlock.toNat := by
  obtain ⟨number⟩ := step
  unfold ofSlot ofNumber
  by_cases inRange : 2 * slot + hasBlock.toNat < limit
  · simp [inRange, eq_comm]
  · simp [inRange]

theorem slot_of_ofSlot {slot : Nat} {hasBlock : Bool} {step : Step}
    (made : ofSlot slot hasBlock = .ok step) : step.slot = slot := by
  have number := ((ofSlot_eq_ok_iff slot hasBlock step).1 made).2
  have small : hasBlock.toNat ≤ 1 := Bool.toNat_le hasBlock
  unfold Step.slot
  omega

theorem hasBlock_of_ofSlot {slot : Nat} {hasBlock : Bool} {step : Step}
    (made : ofSlot slot hasBlock = .ok step) : step.hasBlock = hasBlock := by
  have number := ((ofSlot_eq_ok_iff slot hasBlock step).1 made).2
  unfold Step.hasBlock
  cases hasBlock <;> simp_all

end Step

end BeaconChain
