import BeaconChain.ForkChoice.Adopt
import BeaconChain.RecentChain.Pool
import BeaconChain.Rules.Basic

/-!
# The recent chain

The recent chain is the unfinalized part of the chain: every state since the last
finalized checkpoint, as an entry of a pool, and the fork choice that decides
between them.  This file holds its look-ups and its votes; blocks are added in
`BeaconChain.RecentChain.Add`.
-/

namespace BeaconChain

structure Limits where
  /-- The number of slots by which a block may be ahead of the state it is applied
  to. -/
  maxEmptySlots : Nat := 32
  verifyBlocks : Bool := true
  deriving DecidableEq, Repr

def Limits.minimal : Limits where
  maxEmptySlots := 8

/-- The unfinalized part of a chain. -/
structure RecentChain (preset : Preset) {State Block Context : Type}
    (rules : Rules State Block Context) where
  limits : Limits
  choice : ForkChoice preset
  pool : Pool State Context

namespace RecentChain

variable {preset : Preset} {State Block Context : Type} {rules : Rules State Block Context}

/-- The epoch of the checkpoint at which a chain starts: the first epoch that does
not start before the anchor. -/
def anchorEpoch (preset : Preset) (slot : Nat) : Nat :=
  if preset.isEpochStart slot then preset.epochOf slot else preset.epochOf slot + 1

/-- The chain that starts at `state`, the state after the block `root`.  The
rules must accept the state. -/
def ofAnchor? (limits : Limits) (root parentRoot : Root) (state : State) :
    Except Error (RecentChain preset rules) := do
  let context ← Error.ofOutside (rules.contextOf state)
  let slot := rules.stateSlot state
  let entry : Entry State Context :=
    { slot := slot, blockRoot := root, parentRoot := some parentRoot,
      stateRoot := rules.stateRoot state, context := context, state := state }
  let checkpoint : Checkpoint := ⟨anchorEpoch preset slot, root⟩
  let pool : Pool State Context := { anchorSlot := slot }
  return {
    limits := limits
    choice := .ofAnchor entry.ref parentRoot checkpoint checkpoint (rules.balances state)
    pool := pool.insert entry }

def size (chain : RecentChain preset rules) : Nat := chain.pool.size

/-- The entry of a block itself, not of the slots after it. -/
def byBlock? (chain : RecentChain preset rules) (root : Root) : Option (Entry State Context) := do
  let slot ← chain.choice.tree.earliestSlot? root
  let entry ← chain.pool.find? ⟨root, slot⟩
  if entry.hasBlock then some entry else none

def byBlockSlot? (chain : RecentChain preset rules) (root : Root) (slot : Nat) :
    Option (Entry State Context) :=
  chain.pool.find? ⟨root, slot⟩

def closest? (chain : RecentChain preset rules) (root : Root) (slot : Nat) :
    Option (Entry State Context) := do
  let (node, _) ← chain.choice.tree.resolve? ⟨root, slot⟩
  chain.pool.find? node

def byStateRoot? (chain : RecentChain preset rules) (root : Root) :
    Option (Entry State Context) := do
  let node ← chain.pool.byStateRoot.find? root
  chain.pool.find? node

/-- The oldest entry that is not final yet. -/
def earliest? (chain : RecentChain preset rules) : Option (Entry State Context) := do
  let node ← chain.choice.tree.nodes[0]?
  chain.pool.find? node.ref

def checkpointEntry (chain : RecentChain preset rules) (checkpoint : Checkpoint) :
    Except Error (Entry State Context) := do
  let node ← chain.choice.checkpointNode checkpoint
  match chain.pool.find? node with
  | some entry => return entry
  | none => throw (.blockUnknown checkpoint.root)

def justified (chain : RecentChain preset rules) : Except Error (Entry State Context) :=
  chain.checkpointEntry chain.choice.justified

def finalized (chain : RecentChain preset rules) : Except Error (Entry State Context) :=
  chain.checkpointEntry chain.choice.finalized

/-- The head of fork choice, whose votes are counted. -/
def headNode (chain : RecentChain preset rules) :
    Except Error NodeRef × RecentChain preset rules :=
  let (head, choice) := chain.choice.head
  (head, { chain with choice := choice })

def head (chain : RecentChain preset rules) :
    Except Error (Entry State Context) × RecentChain preset rules :=
  match chain.headNode with
  | (.error error, chain) => (.error error, chain)
  | (.ok node, chain) =>
    match chain.pool.find? node with
    | some entry => (.ok entry, chain)
    | none => (.error (.blockUnknown node.root), chain)

/-- The entries from the head back to the oldest one. -/
def canonicalChain (chain : RecentChain preset rules) :
    Except Error (List (Entry State Context)) × RecentChain preset rules :=
  match chain.headNode with
  | (.error error, chain) => (.error error, chain)
  | (.ok node, chain) =>
    match chain.choice.tree.position? node with
    | none => (.error (.fault .headNotInTree), chain)
    | some position =>
      (.ok ((chain.choice.tree.stateLineage position).filterMap
        fun ancestor => chain.pool.find? ancestor.2.ref), chain)

/-- The canonical entry of a slot: that of its block, if there is one. -/
def bySlot? (chain : RecentChain preset rules) (slot : Nat) :
    Except Error (Option (Entry State Context)) × RecentChain preset rules :=
  let (entries, chain) := chain.canonicalChain
  (entries.map fun entries => entries.find? fun entry => entry.slot = slot, chain)

/-- The canonical entry at a step.  The block step of a slot without a block leads
to the entry of the empty slot. -/
def byStep? (chain : RecentChain preset rules) (step : Step) :
    Except Error (Option (Entry State Context)) × RecentChain preset rules :=
  let (entries, chain) := chain.canonicalChain
  (entries.map fun entries => entries.find? fun entry =>
    entry.slot = step.slot && (step.hasBlock || !entry.hasBlock), chain)

def relation (chain : RecentChain preset rules) (anchor root : Root) : Relation :=
  chain.choice.tree.relation anchor root

def setPin (chain : RecentChain preset rules) (pin : NodeRef) :
    Except Error Unit × RecentChain preset rules :=
  let (outcome, choice) := chain.choice.setPin pin
  (outcome, { chain with choice := choice })

def clearPin (chain : RecentChain preset rules) : RecentChain preset rules :=
  { chain with choice := chain.choice.clearPin }

/-- Records the votes of several validators for one head.  Returns the number of
votes that were accepted. -/
def recordVotes (root : Root) (slot : Nat) :
    List Nat → ForkChoice preset → Nat × ForkChoice preset
  | [], choice => (0, choice)
  | validator :: rest, choice =>
    let (accepted, choice) := choice.recordVote validator root slot
    let (count, choice) := recordVotes root slot rest choice
    (accepted.toNat + count, choice)

def votersOf (chain : RecentChain preset rules) (attestation : Attestation) :
    Except Error (List Nat) := do
  let data := attestation.data
  match chain.closest? data.blockRoot data.slot with
  | none => throw (.blockUnknown data.blockRoot)
  | some entry =>
    match rules.committee? entry.context data.slot data.index with
    | none => throw (.committeeUnknown data.slot data.index)
    | some committee => Error.ofOutside (rules.voters attestation committee)

/-- Records the head votes in an attestation.  Returns the number of votes that
were accepted. -/
def addAttestation (chain : RecentChain preset rules) (attestation : Attestation) :
    Except Error Nat × RecentChain preset rules :=
  match chain.votersOf attestation with
  | .error error => (.error error, chain)
  | .ok voters =>
    let (count, choice) :=
      recordVotes attestation.data.blockRoot attestation.data.slot voters chain.choice
    (.ok count, { chain with choice := choice })

end RecentChain

end BeaconChain
