import BeaconChain.BlockTree.Basic

/-!
# Inserting slots and blocks

Empty slots are appended behind the last node of their root, and a block behind
the empty slot that it fills, whose node is appended first if it is missing.
-/

namespace BeaconChain.BlockTree

/-- Appends the nodes of `root` for the `count` slots after `slot`; `previous` is
the position of the node at `slot`. -/
def appendSlots (root : Root) (stamp : Stamp) :
    (count : Nat) → BlockTree → (previous slot : Nat) → BlockTree
  | 0, tree, _, _ => tree
  | count + 1, tree, previous, slot =>
    let node : Node :=
      { ref := ⟨root, slot + 1⟩, stateParent := some previous, voteParent := some previous,
        parentRoot := root, stamp := stamp }
    appendSlots root stamp count (tree.push node) tree.size (slot + 1)

/-- Continues the nodes of `root` with empty slots up to and including `slot`.
Refuses a root without nodes, and a slot before all of them. -/
def insertSlots (tree : BlockTree) (root : Root) (slot : Nat) (stamp : Stamp) :
    Bool × BlockTree :=
  if tree.contains ⟨root, slot⟩ then
    (true, tree)
  else
    match tree.spans.find? root, tree.latestSlot? root with
    | some span, some latest =>
      if slot < latest then
        (false, tree)
      else
        (true, { appendSlots root stamp (slot - latest) tree span.last latest with
          outdated := true })
    | _, _ => (false, tree)

/-- Inserts the node of a block, and the empty slots of its parent that are
missing before it.  A block that is already there is left as it is.  Refuses a
block whose parent has no node before the slot of the block. -/
def insertBlock (tree : BlockTree) (parentRoot root : Root) (slot : Nat) (stamp : Stamp) :
    Bool × BlockTree :=
  if tree.containsRoot root then
    (true, tree)
  else
    match tree.earliestSlot? parentRoot with
    | none => (false, tree)
    | some parentSlot =>
      if parentSlot < slot then
        match tree.insertSlots parentRoot slot stamp with
        | (false, tree) => (false, tree)
        | (true, tree) =>
          match tree.locate? ⟨parentRoot, slot⟩ with
          | none => (false, tree)
          | some (position, preState) =>
            let node : Node :=
              { ref := ⟨root, slot⟩, stateParent := some position,
                voteParent := preState.voteParent, parentRoot := parentRoot, stamp := stamp }
            (true, { tree.push node with outdated := true })
      else
        (false, tree)

end BeaconChain.BlockTree
