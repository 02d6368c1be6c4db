import BeaconChain.Proofs.BlockTree.Trimmed
import BeaconChain.Proofs.ForkChoice.Bounds
import BeaconChain.Proofs.ForkChoice.Head
import BeaconChain.Proofs.ForkChoice.Repeat
import BeaconChain.Proofs.ForkChoice.Stamp

/-!
# Fork choices that agree

The head depends on the nodes, on the latest votes, on the balances and on the checkpoints, but
not on the nodes to which votes have been applied so far.  Two fork choices that agree in the
former may have counted their votes at different times; they find the same head.
-/

namespace BeaconChain

open BlockTree

/-- What a validator has said last. -/
def Vote.heard (vote : Vote) : NodeRef × Nat :=
  (vote.latest, vote.latestEpoch)

theorem Ballots.heard_commit {preset : Preset} (ballots : Ballots preset) (moves : Moves) :
    (ballots.commit moves).votes.map Vote.heard = ballots.votes.map Vote.heard := by
  have settled : ∀ (targets : List (Nat × NodeRef)) (votes : List Vote),
      (targets.foldl (fun votes target => votes.modify target.1 (settleVote target.2)) votes).map
        Vote.heard = votes.map Vote.heard := by
    intro targets
    induction targets with
    | nil => exact fun _ => rfl
    | cons target rest ih =>
      intro votes
      rw [List.foldl_cons, ih]
      refine List.ext_getElem? fun validator => ?_
      simp only [List.getElem?_map, List.getElem?_modify]
      split <;> cases votes[validator]? <;> rfl
  exact settled moves.targets ballots.votes

section Trees

variable {tree other : BlockTree}

theorem spares_zero (tree : BlockTree) (root : Root) : tree.Spares 0 root :=
  fun position _ _ _ => Nat.zero_le position

theorem BlockTree.Trimmed.sameNodes (alike : Trimmed 0 tree other) :
    SameNodes tree.nodes other.nodes := by
  have same := alike.nodes
  rwa [dropOldest_zero] at same

theorem BlockTree.Trimmed.resolve?_eq_zero (alike : Trimmed 0 tree other) (ref : NodeRef) :
    tree.resolve? ref = other.resolve? ref := by
  rw [alike.resolve?_eq (spares_zero tree ref.root) ref.slot]
  exact Option.map_id'

theorem latestPlace_eq_heard (tree : BlockTree) (votes : List Vote) :
    votes.map (latestPlace tree) =
      (votes.map Vote.heard).map fun heard => (tree.resolve? heard.1).map (·.2) := by
  rw [List.map_map]
  rfl

theorem share_of_sameNodes
    (alike : Trimmed 0 tree other) {above position : Nat} (inside : position < tree.size)
    (balance : Nat) :
    share other above (some position) balance = share tree above (some position) balance := by
  have sameParents : tree.VoteDescends = other.VoteDescends :=
    descends_congr (alike.sameNodes.bind_eq Node.voteParent fun _ => rfl)
  have insideOther : position < other.size := by
    have := alike.size_eq
    omega
  have within : other.inSubtree above position = tree.inSubtree above position := by
    rw [Bool.eq_iff_iff, inSubtree_iff alike.rest insideOther,
      inSubtree_iff alike.whole inside, sameParents]
  rw [share_some, share_some, within]

theorem support_of_heard
    (alike : Trimmed 0 tree other) {votes others : List Vote}
    (heard : votes.map Vote.heard = others.map Vote.heard) (balances : List Nat) (position : Nat) :
    support other balances position 0 (others.map (latestPlace other)) =
      support tree balances position 0 (votes.map (latestPlace tree)) := by
  have places : others.map (latestPlace other) = votes.map (latestPlace tree) := by
    rw [latestPlace_eq_heard, latestPlace_eq_heard, ← heard]
    exact List.map_congr_left fun said _ => by rw [alike.resolve?_eq_zero]
  rw [places]
  refine support_congr fun place member balance => ?_
  obtain ⟨vote, _, rfl⟩ := List.mem_map.1 member
  cases known : latestPlace tree vote with
  | none => rw [share_none, share_none]
  | some position =>
    obtain ⟨⟨ref, _⟩, resolved, rfl⟩ := Option.map_eq_some_iff.1 known
    obtain ⟨node, latest, _⟩ := alike.whole.resolve?_eq_some_iff.1 resolved
    exact share_of_sameNodes alike (List.getElem?_eq_some_iff.1 latest.here).1 balance

theorem sight?_of_weights
    (alike : Trimmed 0 tree other)
    (weights : ∀ (position : Nat) (node found : Node), tree.nodes[position]? = some node →
      other.nodes[position]? = some found → found.weight = node.weight) :
    other.sight? = tree.sight? := by
  funext ref
  unfold sight?
  cases known : tree.locate? ref with
  | none =>
    have absent : other.locate? ref = none := by
      cases found : other.locate? ref with
      | none => rfl
      | some located =>
        obtain ⟨position, node⟩ := located
        obtain ⟨here, rfl⟩ := alike.rest.locate?_eq_some_iff.1 found
        obtain ⟨before, there, same⟩ := alike.sameNodes.symm.getElem?_eq_some here
        have named : before.ref = node.ref := ((Node.bare_eq_iff _ _).1 same).1
        rw [alike.whole.locate?_eq_some_iff.2 ⟨there, named⟩] at known
        cases known
    rw [absent]
    rfl
  | some located =>
    obtain ⟨position, node⟩ := located
    obtain ⟨here, rfl⟩ := alike.whole.locate?_eq_some_iff.1 known
    obtain ⟨found, there, same⟩ := alike.sameNodes.getElem?_eq_some here
    have named : found.ref = node.ref := ((Node.bare_eq_iff _ _).1 same).1
    rw [alike.rest.locate?_eq_some_iff.2 ⟨there, named⟩]
    simp only [Option.map_some,
      alike.sameNodes.sightOf_eq same (weights position node found here there)]

end Trees

namespace ForkChoice

variable {preset : Preset} {choice other counted : ForkChoice preset}

theorem heard_settle (choice : ForkChoice preset) (balances : List Nat) (stamp : Stamp) :
    (choice.settle balances stamp).2.ballots.votes.map Vote.heard =
      choice.ballots.votes.map Vote.heard := by
  unfold settle
  split
  next => rfl
  next tally _ =>
    split
    next => rfl
    next => exact choice.ballots.heard_commit tally.moves

theorem balances_settle
    {balances : List Nat} {stamp : Stamp}
    (done : choice.settle balances stamp = (.ok (), counted)) :
    counted.balances = balances := by
  unfold settle at done
  split at done
  next => cases done
  next =>
    split at done
    next => cases done
    next => cases done; rfl

theorem heard_countVotes (choice : ForkChoice preset) :
    choice.countVotes.2.ballots.votes.map Vote.heard = choice.ballots.votes.map Vote.heard := by
  unfold countVotes
  split
  · exact choice.heard_settle _ _
  · rfl

theorem balances_countVotes (done : choice.countVotes = (.ok (), counted)) :
    counted.balances = choice.balances := by
  unfold countVotes at done
  split at done
  · exact balances_settle done
  · cases done; rfl

/-- Two fork choices over the same nodes, with the same votes, balances and checkpoints. -/
structure Agrees (choice other : ForkChoice preset) : Prop where
  tree : Trimmed 0 choice.tree other.tree
  stamp : choice.tree.stamp = other.tree.stamp
  heard : choice.ballots.votes.map Vote.heard = other.ballots.votes.map Vote.heard
  balances : choice.balances = other.balances
  justified : choice.justified = other.justified
  finalized : choice.finalized = other.finalized
  pending : choice.pending = other.pending
  pin : choice.pin = other.pin

theorem stamp_of_countVotes
    (stamp : choice.tree.stamp = ⟨choice.justified.epoch, choice.finalized.epoch⟩)
    (done : choice.countVotes = (.ok (), counted)) :
    counted.tree.stamp = ⟨choice.justified.epoch, choice.finalized.epoch⟩ := by
  cases changed : choice.ballots.changed with
  | true => exact stamp_countVotes changed done
  | false =>
    simp only [countVotes, changed, Bool.false_eq_true, if_false] at done
    cases done
    exact stamp

/-- Fork choices that agree find the same head, whenever their votes were counted before. -/
theorem Agrees.head_eq
    (agrees : choice.Agrees other) {pedigree : Pedigree} {anchor otherAnchor : NodeRef}
    {log otherLog : List NodeRef} (accounts : Accounts pedigree anchor log choice)
    (otherAccounts : Accounts pedigree otherAnchor otherLog other)
    (sound : Sound choice.tree) (otherSound : Sound other.tree)
    (light : choice.balances.sum < weightLimit)
    (inStep : choice.tree.stamp = ⟨choice.justified.epoch, choice.finalized.epoch⟩) :
    choice.head.1 = other.head.1 := by
  obtain ⟨counted, counts⟩ := exists_countVotes accounts light
  obtain ⟨otherCounted, otherCounts⟩ := exists_countVotes otherAccounts (agrees.balances ▸ light)
  have recounted := countVotes_recounted choice
  have otherRecounted := countVotes_recounted other
  have heard := heard_countVotes choice
  have otherHeard := heard_countVotes other
  obtain ⟨current, isCurrent⟩ := countVotes_accounts accounts
  obtain ⟨otherCurrent, otherIsCurrent⟩ := countVotes_accounts otherAccounts
  rw [counts] at recounted heard current isCurrent
  rw [otherCounts] at otherRecounted otherHeard otherCurrent otherIsCurrent
  dsimp only at *
  have alike := agrees.tree.congr recounted.shape otherRecounted.shape
  have sameBalances : otherCounted.balances = counted.balances := by
    rw [balances_countVotes otherCounts, balances_countVotes counts, agrees.balances]
  have sameHeard : counted.ballots.votes.map Vote.heard =
      otherCounted.ballots.votes.map Vote.heard := by rw [heard, otherHeard, agrees.heard]
  have sameStamp : otherCounted.tree.stamp = counted.tree.stamp := by
    have otherInStep : other.tree.stamp = ⟨other.justified.epoch, other.finalized.epoch⟩ := by
      rw [← agrees.stamp, inStep, agrees.justified, agrees.finalized]
    rw [stamp_of_countVotes inStep counts, stamp_of_countVotes otherInStep otherCounts,
      agrees.justified, agrees.finalized]
  have sameSight : otherCounted.tree.sight? = counted.tree.sight? := by
    refine sight?_of_weights alike fun position node found here there => ?_
    rw [(countsLatest_of_current current (isCurrent rfl)).2 position node here,
      (countsLatest_of_current otherCurrent (otherIsCurrent rfl)).2 position found there,
      latestSupport, latestSupport, sameBalances]
    exact support_of_heard alike sameHeard _ _
  have sameAnchor : otherCounted.headAnchor = counted.headAnchor := by
    rw [recounted.headAnchor_eq, otherRecounted.headAnchor_eq]
    simp only [headAnchor, checkpointNode, agrees.pin, agrees.justified,
      agrees.tree.resolve?_eq_zero]
  simp only [head, counts, otherCounts, sameAnchor]
  split
  · rfl
  · exact (findHead_congr (recounted.sound sound) (otherRecounted.sound otherSound) sameSight
      sameStamp).symm

end ForkChoice

end BeaconChain
