import BeaconChain.Reference
import BeaconChain.Table

/-!
# The block tree

A block tree holds one node for every block and one for every slot after a block
that has no block of its own.  Nodes are kept in the order of their insertion and
are known by their position in it, so that parents stand before their children.
The oldest nodes may be taken out again, which shifts all positions.

Every node has two parents.  Its *state parent* is the node from whose state its
own state was derived; its *vote parent* is the node to which its weight is
passed on.  They are the same for an empty slot.  A block, whose state parent is
the empty slot that it fills, takes over the vote parent of that slot: a block
and the empty slot in its place compete as siblings.

The nodes of one root occupy consecutive slots, so that the first and the last of
them are enough to find any other.
-/

namespace BeaconChain

/-- The epochs of a justified and a finalized checkpoint. -/
structure Stamp where
  justified : Nat := 0
  finalized : Nat := 0
  deriving DecidableEq, Repr, Inhabited

/-- A node stamped `own` is viable under the stamp `current` if both epochs agree;
epoch zero of the current stamp asks for nothing. -/
def Stamp.admits (current own : Stamp) : Bool :=
  (current.justified = 0 || own.justified = current.justified) &&
    (current.finalized = 0 || own.finalized = current.finalized)

/-- The link of a node to its best child, and to the head behind that child. -/
structure Best where
  child : Nat
  head : Nat
  deriving DecidableEq, Repr

/-- A node of the block tree.  Parents and links are positions. -/
structure Node where
  ref : NodeRef
  stateParent : Option Nat
  voteParent : Option Nat
  parentRoot : Root
  stamp : Stamp
  weight : Int := 0
  best : Option Best := none
  deriving DecidableEq, Repr

/-- A node stands for a block unless its parent has its own root. -/
def Node.hasBlock (node : Node) : Bool :=
  node.parentRoot ≠ node.ref.root

/-- The positions of the first and the last node of a root. -/
structure Span where
  first : Nat
  last : Nat
  deriving DecidableEq, Repr

/-- The nodes in the order of their insertion, an index of their positions, and
the stamp under which nodes are viable.  The links are out of date while
`outdated` is set. -/
structure BlockTree where
  stamp : Stamp := {}
  nodes : List Node := []
  positions : Table NodeRef Nat := {}
  spans : Table Root Span := {}
  outdated : Bool := false
  deriving DecidableEq, Repr

namespace BlockTree

def empty : BlockTree := {}

instance : Inhabited BlockTree := ⟨empty⟩

def size (tree : BlockTree) : Nat := tree.nodes.length

def position? (tree : BlockTree) (ref : NodeRef) : Option Nat :=
  tree.positions.find? ref

def contains (tree : BlockTree) (ref : NodeRef) : Bool :=
  tree.positions.contains ref

def containsRoot (tree : BlockTree) (root : Root) : Bool :=
  tree.spans.contains root

def locate? (tree : BlockTree) (ref : NodeRef) : Option (Nat × Node) := do
  let position ← tree.position? ref
  let node ← tree.nodes[position]?
  return (position, node)

/-- The slot of the first node of a root: that of its block, unless the block has
been taken out. -/
def earliestSlot? (tree : BlockTree) (root : Root) : Option Nat := do
  let span ← tree.spans.find? root
  let node ← tree.nodes[span.first]?
  return node.ref.slot

def latestSlot? (tree : BlockTree) (root : Root) : Option Nat := do
  let span ← tree.spans.find? root
  let node ← tree.nodes[span.last]?
  return node.ref.slot

/-- The node of the root at the latest slot not after the given one, and its
position. -/
def resolve? (tree : BlockTree) (ref : NodeRef) : Option (NodeRef × Nat) :=
  match tree.position? ref with
  | some position => some (ref, position)
  | none => do
    let earliest ← tree.earliestSlot? ref.root
    let latest ← tree.latestSlot? ref.root
    if ref.slot < earliest then
      none
    else
      let resolved : NodeRef := ⟨ref.root, min ref.slot latest⟩
      let position ← tree.position? resolved
      return (resolved, position)

/-- A node and its ancestors with their positions, the youngest first, where
`parent` leads from a node to the next.  `steps` bounds their number. -/
def ancestry (nodes : List Node) (parent : Node → Option Nat) :
    (steps position : Nat) → List (Nat × Node)
  | 0, _ => []
  | steps + 1, position =>
    match nodes[position]? with
    | none => []
    | some node =>
      (position, node) ::
        match parent node with
        | none => []
        | some next => ancestry nodes parent steps next

def stateLineage (tree : BlockTree) (position : Nat) : List (Nat × Node) :=
  ancestry tree.nodes Node.stateParent tree.size position

def voteLineage (tree : BlockTree) (position : Nat) : List (Nat × Node) :=
  ancestry tree.nodes Node.voteParent tree.size position

def push (tree : BlockTree) (node : Node) : BlockTree :=
  let position := tree.size
  let span := match tree.spans.find? node.ref.root with
    | some span => { span with last := position }
    | none => { first := position, last := position }
  { tree with
    nodes := tree.nodes ++ [node]
    positions := tree.positions.insert node.ref position
    spans := tree.spans.insert node.ref.root span }

/-- The tree of a single node, whose epochs are also the current ones. -/
def ofAnchor (anchor : NodeRef) (parentRoot : Root) (stamp : Stamp) : BlockTree :=
  push { stamp := stamp }
    { ref := anchor, stateParent := none, voteParent := none, parentRoot := parentRoot,
      stamp := stamp }

@[simp]
theorem nodes_push (tree : BlockTree) (node : Node) :
    (tree.push node).nodes = tree.nodes ++ [node] :=
  rfl

@[simp]
theorem stamp_push (tree : BlockTree) (node : Node) :
    (tree.push node).stamp = tree.stamp :=
  rfl

@[simp]
theorem outdated_push (tree : BlockTree) (node : Node) :
    (tree.push node).outdated = tree.outdated :=
  rfl

@[simp]
theorem size_push (tree : BlockTree) (node : Node) :
    (tree.push node).size = tree.size + 1 := by
  simp [size]

@[simp]
theorem position?_push_self (tree : BlockTree) (node : Node) :
    (tree.push node).position? node.ref = some tree.size := by
  simp [position?, push]

theorem position?_push_of_ne
    (tree : BlockTree) {node : Node} {ref : NodeRef} (different : node.ref ≠ ref) :
    (tree.push node).position? ref = tree.position? ref := by
  simp only [position?, push]
  exact Table.find?_insert_of_ne _ _ different

end BlockTree

end BeaconChain
