import BeaconChain.Rules.Basic

/-!
# Scripted rules

Rules under which nothing has to be worked out: a block says which checkpoints and
balances its state has, and whether it is valid.  The committees do not depend on
the slot.  A chain can be tried out with these rules without any cryptography.
-/

namespace BeaconChain

/-- A state that holds what a chain asks for and nothing else. -/
structure ScriptedState where
  slot : Nat
  latest : Root
  justified : Checkpoint := .zero
  finalized : Checkpoint := .zero
  balances : List Nat
  /-- The root of the state, if it is not to be derived from the other fields. -/
  fixedRoot : Option Root := none
  deriving DecidableEq, Repr

/-- A block with the checkpoints and balances that its state takes over, where it
has any. -/
structure ScriptedBlock where
  slot : Nat
  root : Root
  parentRoot : Root
  justified : Option Checkpoint := none
  finalized : Option Checkpoint := none
  balances : Option (List Nat) := none
  /-- The root of the state after the block, if it is not to be derived. -/
  stateRoot : Option Root := none
  invalid : Bool := false
  /-- Whether the block is refused when blocks are verified. -/
  forged : Bool := false
  deriving DecidableEq, Repr

/-- Combines eight bytes of a root, from the byte `place` on, with those of a
number, the least significant first. -/
def Root.mixIn (root : Root) (place number : Nat) : Root :=
  ⟨(List.range 8).foldl (fun bits index =>
    bits ^^^ BitVec.ofNat 256 ((number >>> (8 * index) % 256) <<< (8 * (31 - (place + index)))))
    root.bits⟩

/-- The root of a state: the fixed one, or else the root of the latest block mixed
with the slot and the epochs of the checkpoints. -/
def ScriptedState.root (state : ScriptedState) : Root :=
  state.fixedRoot.getD <|
    let root := state.latest.mixIn 0 state.slot
    let root := root.mixIn 8 state.justified.epoch
    let root := root.mixIn 16 state.finalized.epoch
    ⟨root.bits ^^^ 0x5a⟩

namespace Scripted

/-- The context of a state is the number of its validators, of which there must be
one. -/
def contextOf (state : ScriptedState) : Except String Nat :=
  if state.balances.isEmpty then .error "state has no validators"
  else .ok state.balances.length

/-- The first committee has all validators for members, the second one those with
even numbers. -/
def committee? (validators _slot index : Nat) : Option (List Nat) :=
  match index with
  | 0 => some (List.range validators)
  | 1 => some ((List.range validators).filter fun validator => validator % 2 = 0)
  | _ => none

def passSlot (failing : List Nat) (state : ScriptedState) (validators slot : Nat) :
    Except String (ScriptedState × Nat) :=
  if failing.contains slot then
    .error s!"slot {slot} cannot be processed"
  else
    .ok ({ state with slot := slot, fixedRoot := none }, validators)

def applyBlock (state : ScriptedState) (validators : Nat) (block : ScriptedBlock)
    (verify : Bool) : Except String (ScriptedState × Nat) := do
  if block.invalid then
    throw "block is invalid"
  if verify && block.forged then
    throw "block fails verification"
  let applied : ScriptedState := { state with
    latest := block.root
    justified := block.justified.getD state.justified
    finalized := block.finalized.getD state.finalized
    balances := block.balances.getD state.balances
    fixedRoot := block.stateRoot }
  let validators ← if block.balances.isSome then contextOf applied else pure validators
  return (applied, validators)

def voters (attestation : Attestation) (committee : List Nat) : Except String (List Nat) :=
  if attestation.bits.length = committee.length then
    .ok (((committee.zip attestation.bits).filter (·.2)).map (·.1))
  else
    .error "aggregation bits do not match committee"

/-- The rules, where the slots in `failing` cannot be passed. -/
def rules (failing : List Nat) : Rules ScriptedState ScriptedBlock Nat where
  stateRoot := ScriptedState.root
  stateSlot := ScriptedState.slot
  justified := ScriptedState.justified
  finalized := ScriptedState.finalized
  balances := ScriptedState.balances
  blockRoot := ScriptedBlock.root
  blockSlot := ScriptedBlock.slot
  blockParent := ScriptedBlock.parentRoot
  contextOf := contextOf
  committee? := committee?
  passSlot := passSlot failing
  applyBlock := applyBlock
  voters := voters

end Scripted

end BeaconChain
