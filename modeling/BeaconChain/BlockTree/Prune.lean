import BeaconChain.BlockTree.Score

/-!
# Taking out the oldest nodes

The nodes that were inserted before an anchor are offered to a receiver, the
oldest first, each with a mark that says whether it is an ancestor of the head
below the anchor.  The receiver may refuse a node; the nodes before it leave the
tree all the same.
-/

namespace BeaconChain

/-- What is done with a node that leaves the tree.  The receiver has a state of
its own and may change it even when it refuses the node. -/
abbrev NodeReceiver (store : Type) := Node → Bool → store → Except Error Unit × store

namespace BlockTree

/-- The position after the first `count` nodes are gone, unless it is that of one
of them. -/
def shift (count position : Nat) : Option Nat :=
  if count ≤ position then some (position - count) else none

def shiftNode (count : Nat) (node : Node) : Node :=
  { node with
    stateParent := node.stateParent.bind (shift count)
    voteParent := node.voteParent.bind (shift count)
    best := node.best.bind fun best => do
      return ⟨← shift count best.child, ← shift count best.head⟩ }

/-- Takes out the first `count` nodes and indexes the others anew. -/
def dropOldest (tree : BlockTree) (count : Nat) : BlockTree :=
  if count = 0 then
    tree
  else
    ((tree.nodes.drop count).map (shiftNode count)).foldl push
      { stamp := tree.stamp, outdated := true }

/-- Offers nodes to a receiver until it refuses one.  Returns the outcome, the
number of nodes accepted and the receiver's state. -/
def offerAll {store : Type} (receive : NodeReceiver store) :
    List (Node × Bool) → store → Except Error Unit × Nat × store
  | [], state => (.ok (), 0, state)
  | (node, canonical) :: rest, state =>
    match receive node canonical state with
    | (.error error, state) => (.error error, 0, state)
    | (.ok (), state) =>
      let (outcome, accepted, state) := offerAll receive rest state
      (outcome, accepted + 1, state)

/-- The nodes before a position, each with the mark whether it is an ancestor by
state parents of the node at `head`. -/
def markedBefore (tree : BlockTree) (position head : Nat) : List (Node × Bool) :=
  let canonical := (tree.stateLineage head).map (·.1)
  (tree.nodes.take position).mapIdx fun place node => (node, canonical.contains place)

/-- Takes out every node inserted before `anchor`, oldest first, until the
receiver refuses one. -/
def prune {store : Type} (tree : BlockTree) (anchor : NodeRef) (receive : NodeReceiver store)
    (state : store) : Except Error Unit × BlockTree × store :=
  let tree := tree.refresh
  match tree.locate? anchor with
  | none => (.error (.unknownAnchor anchor), tree, state)
  | some (position, node) =>
    let (outcome, accepted, state) :=
      offerAll receive (tree.markedBefore position (node.headPosition position)) state
    (outcome, tree.dropOldest accepted, state)

end BlockTree

end BeaconChain
