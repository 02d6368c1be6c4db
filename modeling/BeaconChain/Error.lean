import BeaconChain.Reference

/-!
# Errors

The causes for which an operation is refused, and the wording of each.  A fault
is of another kind: a number left the 64-bit range, or a state of the library
contradicts itself.  Faults are passed on as they are, by every operation.
-/

namespace BeaconChain

/-- What no caller can mend. -/
inductive Fault where
  /-- A step or a slot left the range of 64-bit numbers. -/
  | outOfRange
  /-- A slot or a block could not be inserted into the tree above a node that
  the tree contains. -/
  | notInserted
  /-- The head that the tree found is not in the tree. -/
  | headNotInTree
  deriving DecidableEq, Repr

/-- Why an operation did not succeed. -/
inductive Error where
  | unknownAnchor (anchor : NodeRef)
  | noViableHead (anchor head : NodeRef) (justifiedEpoch finalizedEpoch : Nat)
  | lengthMismatch (deltas nodes : Nat)
  | deltaOverflow (node : NodeRef)
  | regressingCheckpoint (old new : Checkpoint)
  | checkpointNotInFinalizedSubtree (checkpoint finalized : Checkpoint)
  | notInPinnedSubtree (pin node : NodeRef)
  | pinUnreachable (pin : NodeRef)
  | parentUnknown (parentRoot : Root)
  | blockNotNewerThanParent (blockSlot parentSlot : Nat)
  | tooManyEmptySlots (first last : Nat) (maximum : Nat)
  | interrupted
  | checkpointsNotAdopted (blockRoot : Root) (cause : Error)
  | nonContiguousStep (expected actual : Step)
  | stepOutOfOrder (stop actual : Step)
  | finalizedParentMismatch (expected actual : Root) (step : Step)
  | stateNotFound (stateRoot : Root)
  | blockUnknown (blockRoot : Root)
  | committeeUnknown (slot : Nat) (index : Nat)
  | stepNotFound (step : Step)
  /-- A failure outside the library, of which only the message is known. -/
  | external (message : String)
  | fault (cause : Fault)
  deriving DecidableEq, Repr

namespace Error

/-- The wording of an error. -/
def message : Error → String
  | .unknownAnchor anchor => s!"anchor is not in fork choice: {anchor}"
  | .noViableHead anchor head justifiedEpoch finalizedEpoch =>
    s!"no viable head (anchor: {anchor}, head: {head}, justified_epoch: {justifiedEpoch}, " ++
      s!"finalized_epoch: {finalizedEpoch})"
  | .lengthMismatch deltas nodes =>
    s!"number of deltas does not match number of nodes (deltas: {deltas}, nodes: {nodes})"
  | .deltaOverflow node => s!"weight overflowed while applying score changes at {node}"
  | .regressingCheckpoint old new => s!"checkpoint regressed (old: {old}, new: {new})"
  | .checkpointNotInFinalizedSubtree checkpoint finalized =>
    "checkpoint is not a descendant of the finalized checkpoint " ++
      s!"(checkpoint: {checkpoint}, finalized: {finalized})"
  | .notInPinnedSubtree pin node =>
    s!"node is not in the pinned subtree (pin: {pin}, node: {node})"
  | .pinUnreachable pin => s!"pin target is not in fork choice: {pin}"
  | .parentUnknown parentRoot =>
    s!"parent block is not in the unfinalized chain: {parentRoot}"
  | .blockNotNewerThanParent blockSlot parentSlot =>
    s!"block is not newer than its parent (block_slot: {blockSlot}, parent_slot: {parentSlot})"
  | .tooManyEmptySlots first last maximum =>
    "block requires too many empty slots to be processed " ++
      s!"(from: {first}, to: {last}, maximum: {maximum})"
  | .interrupted => "operation was interrupted"
  | .checkpointsNotAdopted blockRoot _ =>
    s!"block was added but its checkpoints were not adopted: {blockRoot}"
  | .nonContiguousStep expected actual =>
    "finalized entry does not continue the chain " ++
      s!"(expected: {expected}, actual: {actual})"
  | .stepOutOfOrder stop actual =>
    "finalized entry is older than the end of the chain " ++
      s!"(end: {stop}, actual: {actual})"
  | .finalizedParentMismatch expected actual step =>
    "finalized entry does not link to the last finalized block " ++
      s!"(expected: {expected}, actual: {actual}, step: {step})"
  | .stateNotFound stateRoot => s!"state not found: {stateRoot}"
  | .blockUnknown blockRoot => s!"block is unknown: {blockRoot}"
  | .committeeUnknown slot index => s!"committee is unknown (slot: {slot}, index: {index})"
  | .stepNotFound step => s!"no canonical entry at step {step}"
  | .external message => message
  | .fault .outOfRange => "number out of range"
  | .fault .notInserted => "node could not be inserted"
  | .fault .headNotInTree => "head is not in the tree"

instance : ToString Error := ⟨message⟩

/-- Passes on what an operation outside the library returned. -/
def ofOutside {α : Type} (outcome : Except String α) : Except Error α :=
  outcome.mapError external

theorem eq_ok_of_ofOutside {α : Type} {outcome : Except String α} {value : α}
    (passed : ofOutside outcome = .ok value) : outcome = .ok value := by
  cases outcome with
  | error message => cases passed
  | ok found =>
    cases passed
    rfl

/-- Whether the error is a fault. -/
def isFault : Error → Bool
  | .fault _ => true
  | _ => false

/-- The error that a wrapped one stems from. -/
def innermost : Error → Error
  | .checkpointsNotAdopted _ cause => cause.innermost
  | error => error

end Error

/-- A sequence of two steps succeeds if both do. -/
theorem exists_of_bind_eq_ok
    {α β : Type} {first : Except Error α} {second : α → Except Error β} {result : β}
    (done : first >>= second = .ok result) :
    ∃ between, first = .ok between ∧ second between = .ok result := by
  cases first with
  | error error => cases done
  | ok between => exact ⟨between, rfl, done⟩

/-- A sequence of two steps fails where one of them does. -/
theorem exists_of_bind_eq_error
    {α β : Type} {first : Except Error α} {second : α → Except Error β} {error : Error}
    (failed : first >>= second = .error error) :
    first = .error error ∨ ∃ between, first = .ok between ∧ second between = .error error := by
  cases first with
  | error cause =>
    cases failed
    exact .inl rfl
  | ok between => exact .inr ⟨between, rfl, failed⟩

end BeaconChain
