import BeaconChain.ForkChoice.Basic

/-!
# Adopting checkpoints

A block may justify and finalize later checkpoints than those under which heads
are chosen.  Adopting them is done in two steps.  The first only checks, and says
what there is to be done; the second counts the votes under the balances of the
justified state and takes the nodes before the finalized one out of the tree.

Only the second step can be cut short, by the receiver of these nodes.  Then the
justified checkpoint is adopted and the finalized one is not, and a later adoption
of the same checkpoints goes on where this one stopped.
-/

namespace BeaconChain

/-- What an adoption does: the checkpoints to which it leads and, if finality
advances, the node that becomes the oldest. -/
structure Advance where
  justified : Checkpoint
  finalized : Checkpoint
  pruneAt : Option NodeRef
  deriving DecidableEq, Repr

namespace ForkChoice

variable {preset : Preset}

/-- The root from which newer checkpoints must descend: that of the finalized
checkpoint, or of the one that is still pending. -/
def finalizedRoot (choice : ForkChoice preset) : Root :=
  (choice.pending.getD choice.finalized).root

/-- Refuses a checkpoint that is older than the one it replaces, and a newer one
that does not descend from the finalized root. -/
def checkSuccessor (choice : ForkChoice preset) (old new : Checkpoint) : Except Error Unit :=
  if new.epoch < old.epoch then
    .error (.regressingCheckpoint old new)
  else if new.epoch = old.epoch then
    .ok ()
  else if choice.tree.relation choice.finalizedRoot new.root = .inside then
    .ok ()
  else
    .error (.checkpointNotInFinalizedSubtree new choice.finalized)

/-- Refuses a trigger outside the subtree of the pin. -/
def checkPin (choice : ForkChoice preset) (trigger : NodeRef) : Except Error Unit :=
  match choice.pin with
  | none => .ok ()
  | some pin =>
    if choice.tree.relation pin.root trigger.root = .inside then .ok ()
    else .error (.notInPinnedSubtree pin trigger)

/-- The newer of two checkpoints; the old one if their epochs agree. -/
def newer (old new : Checkpoint) : Checkpoint :=
  if old.epoch < new.epoch then new else old

/-- What there is to be done to adopt the checkpoints of the state of `trigger`:
nothing, unless one of them is newer than the one it replaces. -/
def advance? (choice : ForkChoice preset) (trigger : NodeRef)
    (justified finalized : Checkpoint) : Except Error (Option Advance) :=
  if justified.epoch ≤ choice.justified.epoch ∧ finalized.epoch ≤ choice.finalized.epoch then
    .ok none
  else do
    choice.checkPin trigger
    choice.checkSuccessor choice.justified justified
    choice.checkSuccessor choice.finalized finalized
    let newFinalized := newer choice.finalized finalized
    let pruneAt ←
      if newFinalized = choice.finalized then
        pure none
      else do
        let node ← choice.checkpointNode newFinalized
        pure (some node)
    return some ⟨newer choice.justified justified, newFinalized, pruneAt⟩

/-- Takes the nodes before the finalized one out of the tree.  The checkpoint is
adopted, and the pin cleared, unless the receiver refuses a node. -/
def finalizeAt {store : Type} (choice : ForkChoice preset) (finalized : Checkpoint)
    (anchor : NodeRef) (receive : NodeReceiver store) (state : store) :
    Except Error Unit × ForkChoice preset × store :=
  match choice.tree.prune anchor receive state with
  | (.error error, tree, state) =>
    (.error error, { choice with tree := tree, pending := some finalized }, state)
  | (.ok (), tree, state) =>
    (.ok (), { choice with
      tree := tree, finalized := finalized, pending := none, pin := none }, state)

/-- Adopts the checkpoints of the state of `trigger`.  `balancesAt` gives the
balances of the state at a checkpoint, and `receive` takes the nodes that leave
the tree. -/
def adopt {store : Type} (choice : ForkChoice preset) (trigger : NodeRef)
    (justified finalized : Checkpoint) (balancesAt : Checkpoint → Except Error (List Nat))
    (receive : NodeReceiver store) (state : store) :
    Except Error Unit × ForkChoice preset × store :=
  match choice.advance? trigger justified finalized with
  | .error error => (.error error, choice, state)
  | .ok none => (.ok (), choice, state)
  | .ok (some advance) =>
    match balancesAt advance.justified with
    | .error error => (.error error, choice, state)
    | .ok balances =>
      match choice.settle balances ⟨advance.justified.epoch, advance.finalized.epoch⟩ with
      | (.error error, choice) => (.error error, choice, state)
      | (.ok (), choice) =>
        let choice := { choice with justified := advance.justified }
        match advance.pruneAt with
        | none => (.ok (), choice, state)
        | some anchor => choice.finalizeAt advance.finalized anchor receive state

end ForkChoice

end BeaconChain
