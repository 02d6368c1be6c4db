import BeaconChain.Time.Step

/-!
# Entries

An entry is a state that the chain has reached, with the block that was the latest
at that point.
-/

namespace BeaconChain

/-- A state in the unfinalized part of the chain. -/
structure Entry (State Context : Type) where
  slot : Nat
  /-- The root of the latest block applied to the state. -/
  blockRoot : Root
  /-- The parent of that block, or none if no block was applied in the slot. -/
  parentRoot : Option Root
  stateRoot : Root
  context : Context
  state : State
  deriving DecidableEq, Repr

namespace Entry

variable {State Context : Type}

def hasBlock (entry : Entry State Context) : Bool := entry.parentRoot.isSome

def ref (entry : Entry State Context) : NodeRef := ⟨entry.blockRoot, entry.slot⟩

/-- The step of an entry. -/
def step (entry : Entry State Context) : Except Error Step :=
  Step.ofSlot entry.slot entry.hasBlock

/-- The root to which an entry links: the parent of its block, or the block of the
entry itself if no block was applied. -/
def linkRoot (entry : Entry State Context) : Root :=
  entry.parentRoot.getD entry.blockRoot

end Entry

/-- What is done with an entry that leaves the unfinalized part of the chain, with
the mark whether it is canonical.  The receiver has a state of its own and may
change it even when it refuses the entry. -/
abbrev EntryReceiver (State Context store : Type) :=
  Entry State Context → Bool → store → Except Error Unit × store

end BeaconChain
