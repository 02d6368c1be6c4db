import BeaconChain.Root
import BeaconChain.Time.Basic

/-!
# References

A node of the block tree is named by a root and a slot, a checkpoint by an epoch
and a root.  Both are ordered by their fields from left to right.
-/

namespace BeaconChain

/-- The name of a node: a block root and a slot at or after the block.  The
block itself is named by its own slot, and each later slot without a block by
that slot. -/
structure NodeRef where
  root : Root
  slot : Nat
  deriving DecidableEq, Ord, Repr, Inhabited

namespace NodeRef

/-- The reference that stands for no vote at all: the zero root at slot zero. -/
def zero : NodeRef := ⟨.zero, 0⟩

/-- The written form, `ROOT@SLOT`. -/
def text (node : NodeRef) : String :=
  node.root.text ++ "@" ++ toString node.slot

instance : ToString NodeRef := ⟨text⟩

end NodeRef

/-- The block that was the latest at the start of an epoch. -/
structure Checkpoint where
  epoch : Nat
  root : Root
  deriving DecidableEq, Ord, Repr, Inhabited

namespace Checkpoint

def zero : Checkpoint := ⟨0, .zero⟩

/-- The written form, `EPOCH:ROOT`. -/
def text (checkpoint : Checkpoint) : String :=
  toString checkpoint.epoch ++ ":" ++ checkpoint.root.text

instance : ToString Checkpoint := ⟨text⟩

end Checkpoint

/-- What an attestation says: the head that its voters see at a slot, and the
checkpoints between which they vote. -/
structure AttestationData where
  slot : Nat
  index : Nat
  blockRoot : Root
  source : Checkpoint
  target : Checkpoint
  deriving DecidableEq, Repr, Inhabited

/-- An attestation whose signature has already been checked: one bit for each
member of the committee, and what the members with a set bit say. -/
structure Attestation where
  bits : List Bool
  data : AttestationData
  deriving DecidableEq, Repr, Inhabited

end BeaconChain
