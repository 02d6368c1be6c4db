import BeaconChain.BlockTree.Basic

/-!
# Descent between roots

Whether one block descends from another, as far as the nodes of the tree show.
-/

namespace BeaconChain

/-- How a root stands to the subtree of another. -/
inductive Relation where
  | unknown
  | outside
  | inside
  deriving DecidableEq, Repr

namespace BlockTree

/-- How `root` stands to the subtree of `anchor`.  A root is in its own subtree,
also if the tree does not know it.  If `root` is that of the head to which the
last node of `anchor` is linked, no further search is needed; otherwise the
ancestors of the first node of `root` are searched, down to the first node of
`anchor`. -/
def relation (tree : BlockTree) (anchor root : Root) : Relation :=
  if anchor = root then
    .inside
  else
    match tree.spans.find? anchor, tree.spans.find? root with
    | some anchorSpan, some span =>
      match tree.earliestSlot? anchor, tree.earliestSlot? root with
      | some anchorSlot, some slot =>
        if span.first < anchorSpan.first ∨ slot ≤ anchorSlot then
          .outside
        else if (((tree.nodes[anchorSpan.last]?).bind Node.best).bind
            fun best => tree.nodes[best.head]?).any (fun head => head.ref.root = root) then
          .inside
        else if ((tree.voteLineage span.first).takeWhile
            fun ancestor => anchorSpan.first ≤ ancestor.1).any
              (fun ancestor => ancestor.2.ref.root = anchor) then
          .inside
        else
          .outside
      | _, _ => .unknown
    | _, _ => .unknown

@[simp]
theorem relation_self (tree : BlockTree) (root : Root) :
    tree.relation root root = .inside := by
  simp [relation]

end BlockTree

end BeaconChain
