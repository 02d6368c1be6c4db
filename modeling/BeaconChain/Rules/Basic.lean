import BeaconChain.Error

/-!
# Rules

A chain does not know what a state is.  It asks a set of rules for the roots and
checkpoints of states and blocks, for the state after a slot or a block, and for
the committees that attest.  Rules that fail say so with a message.
-/

namespace BeaconChain

/-- The rules by which states follow one another.  A context is what the rules
derive from a state and keep for the rest of its epoch. -/
structure Rules (State Block Context : Type) where
  stateRoot : State → Root
  stateSlot : State → Nat
  justified : State → Checkpoint
  finalized : State → Checkpoint
  /-- The balances of the validators, zero for those that do not take part. -/
  balances : State → List Nat
  blockRoot : Block → Root
  blockSlot : Block → Nat
  blockParent : Block → Root
  contextOf : State → Except String Context
  /-- The members of a committee, by slot and index. -/
  committee? : Context → Nat → Nat → Option (List Nat)
  passSlot : State → Context → Nat → Except String (State × Context)
  /-- The state once a block has been applied, verified on demand. -/
  applyBlock : State → Context → Block → Bool → Except String (State × Context)
  voters : Attestation → List Nat → Except String (List Nat)

end BeaconChain
