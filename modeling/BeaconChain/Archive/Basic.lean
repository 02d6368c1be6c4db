import BeaconChain.Archive.Record
import BeaconChain.Archive.StateStore
import BeaconChain.Rules.Basic

/-!
# The archive

The archive is the finalized part of the chain: a record of roots, and a state
store that holds the states.  A state is stored before its roots are recorded.
-/

namespace BeaconChain

/-- The finalized part of a chain. -/
structure Archive {contents State : Type} (store : StateStore contents State) where
  record : Record := {}
  contents : contents

namespace Archive

variable {contents State Context : Type} {store : StateStore contents State}

def accept (archive : Archive store) (entry : Entry State Context) :
    Except Error Unit × Archive store :=
  let checked := do
    let step ← entry.step
    let skips ← archive.record.checkNext step entry.linkRoot
    return (step, skips)
  match checked with
  | .error error => (.error error, archive)
  | .ok (step, skips) =>
    match store.store entry.stateRoot entry.state archive.contents with
    | (.error message, contents) =>
      (.error (.external message), { archive with contents := contents })
    | (.ok (), contents) =>
      (.ok (),
        { record := archive.record.append step skips ⟨entry.blockRoot, entry.stateRoot⟩
          contents := contents })

/-- Takes the entries that leave the unfinalized part of the chain: appends the
canonical ones and lets the others go. -/
def receive : EntryReceiver State Context (Archive store) := fun entry canonical archive =>
  if canonical then archive.accept entry else (.ok (), archive)

def state (archive : Archive store) (root : Root) : Except Error State := do
  match ← Error.ofOutside (store.get root archive.contents) with
  | some state => return state
  | none => throw (.stateNotFound root)

/-- The context of the state with a root, derived anew. -/
def context {Block : Type} (rules : Rules State Block Context) (archive : Archive store)
    (root : Root) : Except Error Context := do
  let state ← archive.state root
  Error.ofOutside (rules.contextOf state)

@[simp]
theorem receive_orphan (entry : Entry State Context) (archive : Archive store) :
    receive entry false archive = (.ok (), archive) :=
  rfl

end Archive

end BeaconChain
