import BeaconChain.Archive.Basic
import BeaconChain.RecentChain.Add

/-!
# The whole chain

The whole chain joins its unfinalized part, which is kept in memory, and its
finalized part, whose states are in a state store.  Entries move from the first to
the second when finality advances, so that every canonical entry is in one of them.
Look-ups try the unfinalized part first.
-/

namespace BeaconChain

/-- The unfinalized and the finalized part of a chain. -/
structure Chain (preset : Preset) {State Block Context contents : Type}
    (rules : Rules State Block Context) (store : StateStore contents State) where
  recent : RecentChain preset rules
  archive : Archive store

inductive ChainEntry (State Context : Type) where
  | recent (entry : Entry State Context)
  /-- The block step of an unfinalized slot without a block, which has the roots and
  the state of the empty slot. -/
  | gap (step : Step) (entry : Entry State Context)
  | archived (entry : ArchivedEntry)
  deriving DecidableEq, Repr

namespace ChainEntry

variable {State Context : Type}

def step : ChainEntry State Context → Except Error Step
  | .recent entry => entry.step
  | .gap step _ => .ok step
  | .archived entry => .ok entry.step

def blockRoot : ChainEntry State Context → Root
  | .recent entry => entry.blockRoot
  | .gap _ entry => entry.blockRoot
  | .archived entry => entry.blockRoot

def stateRoot : ChainEntry State Context → Root
  | .recent entry => entry.stateRoot
  | .gap _ entry => entry.stateRoot
  | .archived entry => entry.stateRoot

def isFinalized : ChainEntry State Context → Bool
  | .archived _ => true
  | _ => false

end ChainEntry

namespace Chain

variable {preset : Preset} {State Block Context contents : Type}
  {rules : Rules State Block Context} {store : StateStore contents State}

def ofAnchor? (limits : Limits) (root parentRoot : Root) (state : State)
    (contents : contents) : Except Error (Chain preset rules store) := do
  let recent ← RecentChain.ofAnchor? limits root parentRoot state
  return { recent := recent, archive := { contents := contents } }

/-- Adds a block.  Entries that become final move to the archive. -/
def addBlock (chain : Chain preset rules store) (block : Block) (interrupted : List Nat → Bool) :
    Except Error (Entry State Context) × Chain preset rules store :=
  let (outcome, recent, archive) :=
    chain.recent.addBlock block interrupted Archive.receive chain.archive
  (outcome, { recent := recent, archive := archive })

def addAttestation (chain : Chain preset rules store) (attestation : Attestation) :
    Except Error Nat × Chain preset rules store :=
  let (outcome, recent) := chain.recent.addAttestation attestation
  (outcome, { chain with recent := recent })

def setPin (chain : Chain preset rules store) (pin : NodeRef) :
    Except Error Unit × Chain preset rules store :=
  let (outcome, recent) := chain.recent.setPin pin
  (outcome, { chain with recent := recent })

def clearPin (chain : Chain preset rules store) : Chain preset rules store :=
  { chain with recent := chain.recent.clearPin }

def relation (chain : Chain preset rules store) (anchor root : Root) : Relation :=
  chain.recent.relation anchor root

def head (chain : Chain preset rules store) :
    Except Error (Entry State Context) × Chain preset rules store :=
  let (outcome, recent) := chain.recent.head
  (outcome, { chain with recent := recent })

def justified (chain : Chain preset rules store) : Except Error (Entry State Context) :=
  chain.recent.justified

def finalized (chain : Chain preset rules store) : Except Error (Entry State Context) :=
  chain.recent.finalized

/-- The state of an entry, read from the state store if it is final. -/
def stateOf (chain : Chain preset rules store) : ChainEntry State Context → Except Error State
  | .recent entry => .ok entry.state
  | .gap _ entry => .ok entry.state
  | .archived entry => chain.archive.state entry.stateRoot

/-- The context of an entry, derived from its state anew if it is final. -/
def contextOf (chain : Chain preset rules store) :
    ChainEntry State Context → Except Error Context
  | .recent entry => .ok entry.context
  | .gap _ entry => .ok entry.context
  | .archived entry => chain.archive.context rules entry.stateRoot

/-- An unfinalized entry, or else the finalized one. -/
def recentOr (recent : Option (Entry State Context)) (archived : Option ArchivedEntry) :
    Option (ChainEntry State Context) :=
  match recent with
  | some entry => some (.recent entry)
  | none => archived.map .archived

def byBlock? (chain : Chain preset rules store) (root : Root) :
    Option (ChainEntry State Context) :=
  recentOr (chain.recent.byBlock? root) (chain.archive.record.byBlock? root)

def byStateRoot? (chain : Chain preset rules store) (root : Root) :
    Option (ChainEntry State Context) :=
  recentOr (chain.recent.byStateRoot? root) (chain.archive.record.byStateRoot? root)

def byBlockSlot? (chain : Chain preset rules store) (root : Root) (slot : Nat) :
    Except Error (Option (ChainEntry State Context)) :=
  match chain.recent.byBlockSlot? root slot with
  | some entry => .ok (some (.recent entry))
  | none => (chain.archive.record.byBlockSlot? root slot).map (·.map .archived)

/-- The latest entry of a root at or before a slot. -/
def closest? (chain : Chain preset rules store) (root : Root) (slot : Nat) :
    Except Error (Option (ChainEntry State Context)) :=
  match chain.recent.closest? root slot with
  | some entry => .ok (some (.recent entry))
  | none => (chain.archive.record.closest? root slot).map (·.map .archived)

/-- The earliest entry that the chain knows. -/
def genesis? (chain : Chain preset rules store) :
    Except Error (Option (ChainEntry State Context)) := do
  match ← chain.archive.record.start? with
  | some step => return (chain.archive.record.entry? step).map .archived
  | none => return chain.recent.earliest?.map .recent

/-- The canonical entry of a slot: that of its block, if there is one. -/
def bySlot? (chain : Chain preset rules store) (slot : Nat) :
    Except Error (Option (ChainEntry State Context)) × Chain preset rules store :=
  let (found, recent) := chain.recent.bySlot? slot
  let outcome := do
    match ← found with
    | some entry => return some (.recent entry)
    | none => do
      let archived ← chain.archive.record.bySlot? slot
      return archived.map .archived
  (outcome, { chain with recent := recent })

/-- The entry of the canonical chain at a step, where `entries` are its unfinalized
entries, the oldest first.  The block step of a slot without a block is known only
once the chain has moved past it. -/
def canonicalAt? (entries : List (Entry State Context)) (record : Record) (step : Step) :
    Except Error (Option (ChainEntry State Context)) := do
  let count ← countLeading
    (fun entry => do
      let entryStep ← entry.step
      return (entryStep ≤ step : Bool)) entries
  let archived := do
    match record.entry? step with
    | some entry => return some (.archived entry)
    | none => do
      let gap ← record.trailingGap? step
      return gap.map .archived
  match (entries.take count).getLast? with
  | none => archived
  | some entry => do
    let entryStep ← entry.step
    if entryStep = step then
      return some (.recent entry)
    else if step.hasBlock ∧ entry.slot = step.slot ∧ count < entries.length then
      return some (.gap step entry)
    else
      archived

/-- The canonical entry at a step. -/
def byStep? (chain : Chain preset rules store) (step : Step) :
    Except Error (Option (ChainEntry State Context)) × Chain preset rules store :=
  let (entries, recent) := chain.recent.canonicalChain
  let outcome := do
    let entries ← entries
    canonicalAt? entries.reverse chain.archive.record step
  (outcome, { chain with recent := recent })

end Chain

end BeaconChain
