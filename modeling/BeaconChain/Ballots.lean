import BeaconChain.BlockTree.Score

/-!
# Ballots

The ballots keep two references for every validator: the head for which it voted
last, and the node to which its weight was last applied.  Votes are turned into
weights lazily: a tally computes what has to be added at every node, and once the
tree has taken the sums the moves of the tally are committed.

A vote for a slot that has no node yet counts for the latest earlier node of its
root until the node appears.  A vote for a root that the tree does not know counts
for nothing.
-/

namespace BeaconChain

/-- The votes of one validator. -/
structure Vote where
  /-- The node to which the validator's weight was last applied. -/
  applied : NodeRef := .zero
  /-- The head for which the validator voted last. -/
  latest : NodeRef := .zero
  appliedEpoch : Nat := 0
  latestEpoch : Nat := 0
  deriving DecidableEq, Repr, Inhabited

def Vote.blank : Vote := {}

/-- The votes of all validators, in the order of their numbers.  There are weights
to be moved while `changed` is set. -/
structure Ballots (preset : Preset) where
  votes : List Vote := []
  changed : Bool := false
  deriving DecidableEq, Repr

/-- The nodes to which votes move with a tally.  Some votes count for an earlier
node than their own while `pending` is set. -/
structure Moves where
  targets : List (Nat × NodeRef) := []
  pending : Bool := false
  deriving DecidableEq, Repr

/-- What has to be added at every node, and the moves that come with it. -/
structure Tally where
  deltas : List Int
  moves : Moves := {}
  deriving DecidableEq, Repr

def balanceOf (balances : List Nat) (validator : Nat) : Nat :=
  balances.getD validator 0

namespace Tally

def add (tally : Tally) (position : Nat) (node : NodeRef) (amount : Int) :
    Except Error Tally :=
  let sum := tally.deltas.getD position 0 + amount
  if fitsWeight sum then .ok { tally with deltas := tally.deltas.set position sum }
  else .error (.deltaOverflow node)

/-- Moves the weight of one validator from the node to which it was applied to the
one that its latest vote names, unless nothing changes. -/
def count (tree : BlockTree) (oldBalances newBalances : List Nat) (tally : Tally)
    (validator : Nat) (vote : Vote) : Except Error Tally :=
  if vote = .blank then
    .ok tally
  else do
    let oldBalance := balanceOf oldBalances validator
    let newBalance := balanceOf newBalances validator
    let target := tree.resolve? vote.latest
    let next := target.elim vote.latest (·.1)
    let pending := tally.moves.pending || next ≠ vote.latest
    let tally : Tally := { tally with moves := { tally.moves with pending := pending } }
    if vote.applied = next ∧ oldBalance = newBalance then
      return tally
    else
      let tally ← match tree.position? vote.applied with
        | some position => tally.add position vote.applied (-oldBalance)
        | none => .ok tally
      let tally ← match target with
        | some (node, position) => tally.add position node newBalance
        | none => .ok tally
      return { tally with
        moves := { tally.moves with targets := tally.moves.targets ++ [(validator, next)] } }

def countFrom (tree : BlockTree) (oldBalances newBalances : List Nat) :
    (validator : Nat) → List Vote → Tally → Except Error Tally
  | _, [], tally => .ok tally
  | validator, vote :: rest, tally =>
    match count tree oldBalances newBalances tally validator vote with
    | .error error => .error error
    | .ok tally => countFrom tree oldBalances newBalances (validator + 1) rest tally

end Tally

namespace Ballots

variable {preset : Preset}

def vote? (ballots : Ballots preset) (validator : Nat) : Option Vote :=
  ballots.votes[validator]?

/-- Accepts a vote for `root` at `slot` if its epoch is later than that of the
validator's latest vote, or if the validator never voted. -/
def record (ballots : Ballots preset) (validator : Nat) (root : Root) (slot : Nat) :
    Ballots preset :=
  let missing := validator + 1 - ballots.votes.length
  let votes := ballots.votes ++ List.replicate missing .blank
  let vote := votes.getD validator .blank
  let epoch := preset.epochOf slot
  if vote.latestEpoch < epoch ∨ vote = .blank then
    { votes := votes.set validator { vote with latest := ⟨root, slot⟩, latestEpoch := epoch }
      changed := true }
  else
    { ballots with votes := votes }

/-- What every node gains when the votes are counted under new balances. -/
def tally (ballots : Ballots preset) (tree : BlockTree) (oldBalances newBalances : List Nat) :
    Except Error Tally :=
  Tally.countFrom tree oldBalances newBalances 0 ballots.votes
    { deltas := List.replicate tree.size 0 }

def settleVote (node : NodeRef) (vote : Vote) : Vote :=
  { vote with applied := node, appliedEpoch := vote.latestEpoch }

/-- Settles the votes whose weights have been moved. -/
def commit (ballots : Ballots preset) (moves : Moves) : Ballots preset where
  votes := moves.targets.foldl
    (fun votes target => votes.modify target.1 (settleVote target.2)) ballots.votes
  changed := moves.pending

end Ballots

end BeaconChain
