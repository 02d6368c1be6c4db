import BeaconChain.BlockTree.Basic
import BeaconChain.Error

/-!
# Weights and heads

The head below a node is found by descending to the best child again and again.
Of the children that lead to a viable head the best is the one with the greatest
weight; children of equal weight are compared by the heads to which they lead: a
block goes before an empty slot, then a later slot before an earlier one, then a
greater root before a smaller one.

Parents stand before their children.  One pass from the last node to the first
therefore finds the links of all nodes, and another one adds a change of weight
to a node and to all its ancestors.
-/

namespace BeaconChain

/-- The rank of a child: its weight, and the head to which it leads. -/
structure Score where
  weight : Int
  hasBlock : Bool
  slot : Nat
  root : Root
  deriving DecidableEq, Repr

/-- Scores are compared by their fields from left to right. -/
instance : LT Score where
  lt left right :=
    left.weight < right.weight ∨ left.weight = right.weight ∧
      (left.hasBlock < right.hasBlock ∨ left.hasBlock = right.hasBlock ∧
        (left.slot < right.slot ∨ left.slot = right.slot ∧ left.root < right.root))

instance (left right : Score) : Decidable (left < right) :=
  inferInstanceAs (Decidable
    (left.weight < right.weight ∨ left.weight = right.weight ∧
      (left.hasBlock < right.hasBlock ∨ left.hasBlock = right.hasBlock ∧
        (left.slot < right.slot ∨ left.slot = right.slot ∧ left.root < right.root))))

def fitsWeight (weight : Int) : Bool :=
  -0x8000000000000000 ≤ weight && weight < 0x8000000000000000

/-- The position of the head to which the node at `position` leads: the node
itself, if it has no best child. -/
def Node.headPosition (node : Node) (position : Nat) : Nat :=
  match node.best with
  | some best => best.head
  | none => position

namespace BlockTree

def headAt? (nodes : List Node) (position : Nat) : Option Node := do
  let node ← nodes[position]?
  nodes[node.headPosition position]?

def scoreAt? (nodes : List Node) (position : Nat) : Option Score := do
  let node ← nodes[position]?
  let head ← headAt? nodes position
  return ⟨node.weight, head.hasBlock, head.ref.slot, head.ref.root⟩

/-- Whether the node at a position, or the head to which it leads, is viable. -/
def leadsToViable (current : Stamp) (nodes : List Node) (position : Nat) : Bool :=
  (headAt? nodes position).any (fun head => current.admits head.stamp) ||
    (nodes[position]?).any (fun node => current.admits node.stamp)

def outranks (nodes : List Node) (child rival : Nat) : Bool :=
  match scoreAt? nodes rival, scoreAt? nodes child with
  | some rivalScore, some score => rivalScore < score
  | _, _ => false

/-- Whether `child` outranks the best child of `parent` so far, if there is
one. -/
def outranksBest (nodes : List Node) (parent child : Nat) : Bool :=
  match (nodes[parent]?).bind Node.best with
  | some best => outranks nodes child best.child
  | none => true

/-- Links `parent` to `child` if the child leads to a viable head and outranks the
best child so far. -/
def offerChild (current : Stamp) (nodes : List Node) (parent child : Nat) : List Node :=
  if leadsToViable current nodes child && outranksBest nodes parent child then
    match nodes[child]? with
    | some node =>
      nodes.modify parent fun above =>
        { above with best := some ⟨child, node.headPosition child⟩ }
    | none => nodes
  else
    nodes

/-- Offers the first `count` nodes to their vote parents, the last of them
first. -/
def linkNodes (current : Stamp) : (count : Nat) → List Node → List Node
  | 0, nodes => nodes
  | count + 1, nodes =>
    linkNodes current count <|
      match (nodes[count]?).bind Node.voteParent with
      | some parent => offerChild current nodes parent count
      | none => nodes

def relink (tree : BlockTree) : BlockTree :=
  { tree with
    nodes := linkNodes tree.stamp tree.size
      (tree.nodes.map fun node => { node with best := none })
    outdated := false }

def refresh (tree : BlockTree) : BlockTree :=
  if tree.outdated then tree.relink else tree

/-- Adds the deltas of the first `count` nodes to their weights, the last of them
first, and passes each one on to the vote parent.  Fails at the node whose weight,
or at the parent whose delta, leaves the range of weights. -/
def addDeltas : (count : Nat) → (nodes : List Node) → (deltas : List Int) →
    Except Error (List Node)
  | 0, nodes, _ => .ok nodes
  | count + 1, nodes, deltas =>
    let delta := deltas.getD count 0
    match nodes[count]? with
    | none => addDeltas count nodes deltas
    | some node =>
      if delta = 0 then
        addDeltas count nodes deltas
      else if !fitsWeight (node.weight + delta) then
        .error (.deltaOverflow node.ref)
      else
        let nodes := nodes.set count { node with weight := node.weight + delta }
        match node.voteParent with
        | none => addDeltas count nodes deltas
        | some parent =>
          let passed := deltas.getD parent 0 + delta
          if !fitsWeight passed then
            .error (.deltaOverflow ((nodes[parent]?).elim node.ref Node.ref))
          else
            addDeltas count nodes (deltas.set parent passed)

/-- Adds one delta per node to the weights of the node and of its ancestors by
vote parents, and makes `stamp` the current one.  Nothing changes on failure. -/
def applyScores (tree : BlockTree) (deltas : List Int) (stamp : Stamp) :
    Except Error Unit × BlockTree :=
  if deltas.length ≠ tree.size then
    (.error (.lengthMismatch deltas.length tree.size), tree)
  else
    match addDeltas tree.size tree.nodes deltas with
    | .error error => (.error error, tree)
    | .ok nodes => (.ok (), { tree with nodes := nodes, stamp := stamp }.relink)

/-- The head below `anchor`, which must be viable.  Brings the links up to
date. -/
def findHead (tree : BlockTree) (anchor : NodeRef) : Except Error NodeRef × BlockTree :=
  let tree := tree.refresh
  match (tree.position? anchor).bind (headAt? tree.nodes) with
  | none => (.error (.unknownAnchor anchor), tree)
  | some head =>
    if tree.stamp.admits head.stamp then
      (.ok head.ref, tree)
    else
      (.error (.noViableHead anchor head.ref tree.stamp.justified tree.stamp.finalized), tree)

end BlockTree

end BeaconChain
