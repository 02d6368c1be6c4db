import BeaconChain.Ballots
import BeaconChain.BlockTree.Insert
import BeaconChain.BlockTree.Relation
import BeaconChain.BlockTree.Prune

/-!
# Fork choice

Fork choice decides between the branches of a block tree by the votes of the
validators, each weighted by its balance.  Its head is the head of the tree below
the node of the justified checkpoint, or below a pinned node.

Votes are counted only when the head is asked for or a checkpoint is adopted.
-/

namespace BeaconChain

/-- A block tree, the votes on it and the checkpoints under which it is read. -/
structure ForkChoice (preset : Preset) where
  tree : BlockTree
  ballots : Ballots preset := {}
  balances : List Nat
  justified : Checkpoint
  finalized : Checkpoint
  /-- A finalized checkpoint that could not be adopted because a receiver refused
  a node.  Some nodes before it may be gone. -/
  pending : Option Checkpoint := none
  /-- The node below which heads are looked for, in place of the justified one. -/
  pin : Option NodeRef := none
  deriving DecidableEq, Repr

namespace ForkChoice

variable {preset : Preset}

/-- The fork choice over a single node. -/
def ofAnchor (anchor : NodeRef) (parentRoot : Root) (justified finalized : Checkpoint)
    (balances : List Nat) : ForkChoice preset where
  tree := .ofAnchor anchor parentRoot ⟨justified.epoch, finalized.epoch⟩
  balances := balances
  justified := justified
  finalized := finalized

def containsBlock (choice : ForkChoice preset) (root : Root) : Bool :=
  choice.tree.containsRoot root

/-- The node to which a checkpoint refers: its root at the start of its epoch, or
the latest earlier node of the root. -/
def checkpointNode (choice : ForkChoice preset) (checkpoint : Checkpoint) :
    Except Error NodeRef :=
  let anchor : NodeRef := ⟨checkpoint.root, preset.startSlot checkpoint.epoch⟩
  match choice.tree.resolve? anchor with
  | some (node, _) => .ok node
  | none => .error (.unknownAnchor anchor)

/-- Restricts heads to the subtree of a node, which must be in the tree. -/
def setPin (choice : ForkChoice preset) (pin : NodeRef) :
    Except Error Unit × ForkChoice preset :=
  if choice.tree.contains pin then (.ok (), { choice with pin := some pin })
  else (.error (.pinUnreachable pin), choice)

def clearPin (choice : ForkChoice preset) : ForkChoice preset :=
  { choice with pin := none }

/-- Inserts empty slots, stamped with the checkpoints of the state at `slot`. -/
def insertSlots (choice : ForkChoice preset) (root : Root) (slot : Nat)
    (justified finalized : Checkpoint) : Bool × ForkChoice preset :=
  let (inserted, tree) := choice.tree.insertSlots root slot ⟨justified.epoch, finalized.epoch⟩
  (inserted, { choice with tree := tree })

/-- Inserts a block, stamped with the checkpoints of its state. -/
def insertBlock (choice : ForkChoice preset) (parentRoot root : Root) (slot : Nat)
    (justified finalized : Checkpoint) : Bool × ForkChoice preset :=
  let (inserted, tree) :=
    choice.tree.insertBlock parentRoot root slot ⟨justified.epoch, finalized.epoch⟩
  (inserted, { choice with tree := tree })

/-- Records a vote for the head `root` at `slot`.  Refuses a root that the tree
does not know or that is later than the slot. -/
def recordVote (choice : ForkChoice preset) (validator : Nat) (root : Root) (slot : Nat) :
    Bool × ForkChoice preset :=
  match choice.tree.earliestSlot? root with
  | none => (false, choice)
  | some earliest =>
    if earliest ≤ slot then
      (true, { choice with ballots := choice.ballots.record validator root slot })
    else
      (false, choice)

/-- Counts the votes under new balances and makes `stamp` the current one.
Nothing changes on failure. -/
def settle (choice : ForkChoice preset) (balances : List Nat) (stamp : Stamp) :
    Except Error Unit × ForkChoice preset :=
  match choice.ballots.tally choice.tree choice.balances balances with
  | .error error => (.error error, choice)
  | .ok tally =>
    match choice.tree.applyScores tally.deltas stamp with
    | (.error error, _) => (.error error, choice)
    | (.ok (), tree) =>
      (.ok (), { choice with
        tree := tree, ballots := choice.ballots.commit tally.moves, balances := balances })

/-- Counts the votes if there are any to be counted. -/
def countVotes (choice : ForkChoice preset) : Except Error Unit × ForkChoice preset :=
  if choice.ballots.changed then
    choice.settle choice.balances ⟨choice.justified.epoch, choice.finalized.epoch⟩
  else
    (.ok (), choice)

/-- The node below which heads are looked for. -/
def headAnchor (choice : ForkChoice preset) : Except Error NodeRef :=
  match choice.pin with
  | some pin => .ok pin
  | none => choice.checkpointNode choice.justified

/-- The head under all votes so far. -/
def head (choice : ForkChoice preset) : Except Error NodeRef × ForkChoice preset :=
  match choice.countVotes with
  | (.error error, choice) => (.error error, choice)
  | (.ok (), choice) =>
    match choice.headAnchor with
    | .error error => (.error error, choice)
    | .ok anchor =>
      let (head, tree) := choice.tree.findHead anchor
      (head, { choice with tree := tree })

end ForkChoice

end BeaconChain
