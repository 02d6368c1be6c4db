import BeaconChain.RecentChain.Basic

/-!
# Adding blocks

A block is added in three steps.  First its states are prepared: the empty slots
between the parent and the block are replayed and the block is applied.  Nothing
changes if this fails.  Then the new entries are committed.  Last the checkpoints
of the block's state are adopted, which may hand entries to a receiver; if that
fails the block stays in the chain.

While slots are replayed the caller may ask for a stop.  It is consulted before
every slot and before the block, and is told which slots have been replayed.
-/

namespace BeaconChain

/-- An error met while the checkpoints of a block that has been added were
adopted.  A fault is passed on as it is. -/
def Error.notAdopted (blockRoot : Root) (cause : Error) : Error :=
  if cause.isFault then cause else .checkpointsNotAdopted blockRoot cause

/-- The entries that a block adds: one for every empty slot that was replayed, and
its own. -/
structure Draft (State Context : Type) where
  replayed : List (Entry State Context)
  block : Entry State Context
  parentRoot : Root

namespace RecentChain

variable {preset : Preset} {State Block Context store : Type} {rules : Rules State Block Context}

/-- The entry from which a block continues: the latest of its parent at or before
the slot of the block. -/
def preState (chain : RecentChain preset rules) (block : Block) :
    Except Error (Entry State Context) :=
  let slot := rules.blockSlot block
  let parentRoot := rules.blockParent block
  match chain.choice.tree.earliestSlot? parentRoot with
  | none => .error (.parentUnknown parentRoot)
  | some parentSlot =>
    if slot ≤ parentSlot then
      .error (.blockNotNewerThanParent slot parentSlot)
    else
      match chain.closest? parentRoot slot with
      | none => .error (.parentUnknown parentRoot)
      | some entry =>
        if slot < entry.slot ∨ entry.slot = greatestSlot then
          .error (.fault .outOfRange)
        else if chain.limits.maxEmptySlots < slot - entry.slot then
          .error (.tooManyEmptySlots entry.slot slot chain.limits.maxEmptySlots)
        else
          .ok entry

def replaySlot (rules : Rules State Block Context) (root : Root) (slot : Nat)
    (previous : Entry State Context) : Except Error (Entry State Context) := do
  let (state, context) ←
    Error.ofOutside (rules.passSlot previous.state previous.context slot)
  return {
    slot := slot, blockRoot := root, parentRoot := none,
    stateRoot := rules.stateRoot state, context := context, state := state }

/-- Replays `count` empty slots after the entry `previous`; `replayed` holds the
entries replayed before. -/
def replaySlots (rules : Rules State Block Context) (interrupted : List Nat → Bool)
    (root : Root) : (count : Nat) → (previous : Entry State Context) →
    (replayed : List (Entry State Context)) → Except Error (List (Entry State Context))
  | 0, _, replayed => .ok replayed
  | count + 1, previous, replayed =>
    if interrupted (replayed.map (·.slot)) then
      .error .interrupted
    else
      match replaySlot rules root (previous.slot + 1) previous with
      | .error error => .error error
      | .ok entry =>
        replaySlots rules interrupted root count entry (replayed ++ [entry])

def draft (chain : RecentChain preset rules) (block : Block) (interrupted : List Nat → Bool) :
    Except Error (Draft State Context) := do
  let slot := rules.blockSlot block
  let parentRoot := rules.blockParent block
  let preState ← chain.preState block
  let replayed ← replaySlots rules interrupted parentRoot (slot - preState.slot) preState []
  if interrupted (replayed.map (·.slot)) then
    throw .interrupted
  let previous := replayed.getLastD preState
  let (state, context) ← Error.ofOutside
    (rules.applyBlock previous.state previous.context block chain.limits.verifyBlocks)
  let entry : Entry State Context :=
    { slot := slot, blockRoot := rules.blockRoot block, parentRoot := some parentRoot,
      stateRoot := rules.stateRoot state, context := context, state := state }
  return ⟨replayed, entry, parentRoot⟩

def commitSlots (parentRoot : Root) :
    List (Entry State Context) → RecentChain preset rules →
      Except Error Unit × RecentChain preset rules
  | [], chain => (.ok (), chain)
  | entry :: rest, chain =>
    match chain.choice.insertSlots parentRoot entry.slot
        (rules.justified entry.state) (rules.finalized entry.state) with
    | (false, choice) => (.error (.fault .notInserted), { chain with choice := choice })
    | (true, choice) =>
      commitSlots parentRoot rest
        { chain with choice := choice, pool := chain.pool.insert entry }

def commit (chain : RecentChain preset rules) (draft : Draft State Context) :
    Except Error Unit × RecentChain preset rules :=
  match commitSlots draft.parentRoot draft.replayed chain with
  | (.error error, chain) => (.error error, chain)
  | (.ok (), chain) =>
    let entry := draft.block
    match chain.choice.insertBlock draft.parentRoot entry.blockRoot entry.slot
        (rules.justified entry.state) (rules.finalized entry.state) with
    | (false, choice) => (.error (.fault .notInserted), { chain with choice := choice })
    | (true, choice) =>
      (.ok (), { chain with choice := choice, pool := chain.pool.insert entry })

def balancesAt (chain : RecentChain preset rules) (checkpoint : Checkpoint) :
    Except Error (List Nat) :=
  match chain.checkpointEntry checkpoint with
  | .ok entry => .ok (rules.balances entry.state)
  | .error _ => .error (.blockUnknown checkpoint.root)

/-- Adopts the checkpoints of an entry's state.  Entries whose nodes leave the tree
go to the receiver. -/
def adopt (chain : RecentChain preset rules) (entry : Entry State Context)
    (receive : EntryReceiver State Context store) (state : store) :
    Except Error Unit × RecentChain preset rules × store :=
  let (outcome, choice, pool, state) :=
    chain.choice.adopt entry.ref (rules.justified entry.state) (rules.finalized entry.state)
      chain.balancesAt (Pool.release receive) (chain.pool, state)
  (outcome, { chain with choice := choice, pool := pool }, state)

def sweep (chain : RecentChain preset rules) (receive : EntryReceiver State Context store)
    (state : store) : Except Error Unit × RecentChain preset rules × store :=
  let (outcome, pool, state) := chain.pool.sweep receive state
  (outcome, { chain with pool := pool }, state)

/-- Adopts the checkpoints of an entry's state, and discards what has become stale
if the chain became final up to a later slot. -/
def settle (chain : RecentChain preset rules) (entry : Entry State Context)
    (receive : EntryReceiver State Context store) (state : store) :
    Except Error Unit × RecentChain preset rules × store :=
  match chain.adopt entry receive state with
  | (.error error, chain, state) => (.error (.notAdopted entry.blockRoot error), chain, state)
  | (.ok (), adopted, state) =>
    if adopted.pool.anchorSlot = chain.pool.anchorSlot then
      (.ok (), adopted, state)
    else
      adopted.sweep receive state

/-- Adds a block and returns its entry.  A block that is already in the chain is
left as it is. -/
def addBlock (chain : RecentChain preset rules) (block : Block)
    (interrupted : List Nat → Bool) (receive : EntryReceiver State Context store)
    (state : store) : Except Error (Entry State Context) × RecentChain preset rules × store :=
  let root := rules.blockRoot block
  if chain.choice.containsBlock root then
    match chain.byBlock? root with
    | some entry => (.ok entry, chain, state)
    | none => (.error (.blockUnknown root), chain, state)
  else
    match chain.draft block interrupted with
    | .error error => (.error error, chain, state)
    | .ok draft =>
      match chain.commit draft with
      | (.error error, chain) => (.error error, chain, state)
      | (.ok (), chain) =>
        match chain.settle draft.block receive state with
        | (.error error, chain, state) => (.error error, chain, state)
        | (.ok (), chain, state) => (.ok draft.block, chain, state)

end RecentChain

end BeaconChain
