import BeaconChain.Proofs.ForkChoice.Votes

/-!
# Weights in every fork choice

Every call keeps the account of all weights.  A count of the votes that succeeds also
makes the votes current, and neither a search for the head nor the removal of nodes
that follows it changes that.
-/

namespace BeaconChain

open BlockTree

theorem exists_of_mem_counted
    {tree : BlockTree} {votes settled : List Vote}
    (counted : List.Forall₂ (Tally.Counted tree) votes settled) :
    ∀ vote ∈ settled, ∃ before ∈ votes, Tally.Counted tree before vote := by
  induction counted with
  | nil => simp
  | @cons before after rest others counts _ ih =>
    intro vote member
    rcases List.mem_cons.1 member with rfl | member
    · exact ⟨before, List.mem_cons_self, counts⟩
    · obtain ⟨found, foundMember, foundCounts⟩ := ih vote member
      exact ⟨found, List.mem_cons_of_mem _ foundMember, foundCounts⟩

theorem map_latestPlace_counted
    {tree : BlockTree} {votes settled : List Vote}
    (counted : List.Forall₂ (Tally.Counted tree) votes settled) :
    settled.map (latestPlace tree) = votes.map (latestPlace tree) := by
  induction counted with
  | nil => rfl
  | cons counts _ ih =>
    rw [List.map_cons, List.map_cons, ih, latestPlace, counts.latest]
    rfl

theorem Accounted.placed_nextNode
    {preset : Preset} {pedigree : Pedigree} {anchor : NodeRef} {log : List NodeRef}
    {tree : BlockTree} {ballots : Ballots preset} {balances : List Nat}
    (accounted : Accounted pedigree anchor log tree ballots balances) {vote : Vote}
    (member : vote ∈ ballots.votes) (recorded : vote ≠ .blank) :
    Placed log tree (nextNode tree vote) := by
  rcases accounted.wellFormed.resolve?_cases vote.latest with
    ⟨position, node, latest, resolved⟩ | ⟨later, resolved⟩
  · refine .inr (.inl ⟨position, ?_⟩)
    simpa [nextNode, resolved] using accounted.wellFormed.position?_ref latest.here
  · have known := (accounted.heard vote member).resolve_left recorded
    refine .inr (.inr ?_)
    simp only [nextNode, resolved, Option.elim_none]
    exact ⟨known, later⟩

/-- Counting the votes moves every weight to where its vote counts. -/
theorem Accounted.settle
    {preset : Preset} {pedigree : Pedigree} {anchor : NodeRef} {log : List NodeRef}
    {tree : BlockTree} {ballots : Ballots preset} {balances newBalances : List Nat}
    (accounted : Accounted pedigree anchor log tree ballots balances) {tally : Tally}
    (tallied : ballots.tally tree balances newBalances = .ok tally) (stamp : Stamp)
    (applied : (tree.applyScores tally.deltas stamp).1 = .ok ()) :
    Accounted pedigree anchor log (tree.applyScores tally.deltas stamp).2
        (ballots.commit tally.moves) newBalances ∧
      Current (tree.applyScores tally.deltas stamp).2 (ballots.commit tally.moves).votes := by
  have same := sameShape_applyScores tree tally.deltas stamp
  have noZero := accounted.chronicle.ref_ne_zero
  obtain ⟨gains, counted, plain⟩ := Ballots.tally_spec accounted.wellFormed noZero tallied
  have places := map_appliedPlace_counted accounted.wellFormed noZero counted
  have before := exists_of_mem_counted counted
  refine ⟨?_, Current.congr ?_ same⟩
  · exact {
      wellFormed := same.symm.wellFormed accounted.wellFormed
      chronicle := accounted.chronicle.congr same.nodes
      heard := fun vote member => by
        obtain ⟨old, oldMember, counts⟩ := before vote member
        rw [counts.latest]
        exact (accounted.heard old oldMember).imp_left counts.blank
      placed := fun vote member => by
        obtain ⟨old, oldMember, counts⟩ := before vote member
        refine Placed.congr ?_ same
        by_cases recorded : old = .blank
        · exact .inl (by rw [counts.blank recorded]; rfl)
        · rw [counts.applied recorded]
          exact accounted.placed_nextNode oldMember recorded
      unmoved := fun unchanged vote member => by
        obtain ⟨old, oldMember, counts⟩ := before vote member
        by_cases recorded : old = .blank
        · exact .inl (counts.blank recorded)
        · have next := (plain unchanged old oldMember).resolve_left recorded
          exact .inr (by rw [counts.applied recorded, next, counts.latest])
      weights := fun position inside => by
        rw [same.size_eq] at inside
        have shares : ∀ place ∈ (ballots.commit tally.moves).votes.map (appliedPlace tree),
            ∀ balance, share (tree.applyScores tally.deltas stamp).2 position place balance =
              share tree position place balance := by
          intro place member balance
          rcases appliedPlace_mem accounted.wellFormed member with rfl | ⟨_, rfl, placeInside⟩
          · rfl
          · exact share_congr accounted.wellFormed same placeInside balance
        have unshaped : appliedPlace (tree.applyScores tally.deltas stamp).2 =
            appliedPlace tree := by
          funext vote
          exact same.position?_eq vote.applied
        rw [weightAt_applyScores accounted.wellFormed applied, gains,
          accounted.weights position inside, unshaped, support_congr shares, places]
        omega }
  · rw [Current, places, map_latestPlace_counted counted]

namespace ForkChoice

variable {preset : Preset}

/-- The account of all weights of a fork choice. -/
abbrev Accounts (pedigree : Pedigree) (anchor : NodeRef) (log : List NodeRef)
    (choice : ForkChoice preset) : Prop :=
  Accounted pedigree anchor log choice.tree choice.ballots choice.balances

section Calls

variable {pedigree : Pedigree} {anchor : NodeRef} {log : List NodeRef} {choice : ForkChoice preset}

/-- A count that fails changes nothing, and one that succeeds makes the votes current. -/
theorem settle_accounts
    (accounts : Accounts pedigree anchor log choice) (balances : List Nat) (stamp : Stamp) :
    Accounts pedigree anchor log (choice.settle balances stamp).2 ∧
      ((choice.settle balances stamp).1 = .ok () →
        Current (choice.settle balances stamp).2.tree
          (choice.settle balances stamp).2.ballots.votes) := by
  unfold settle
  split
  next => exact ⟨accounts, fun done => by cases done⟩
  next tally tallied =>
    split
    next => exact ⟨accounts, fun done => by cases done⟩
    next tree applied =>
      have settled := accounts.settle tallied stamp (by rw [applied])
      rw [applied] at settled
      exact ⟨settled.1, fun _ => settled.2⟩

theorem countVotes_accounts (accounts : Accounts pedigree anchor log choice) :
    Accounts pedigree anchor log choice.countVotes.2 ∧
      (choice.countVotes.1 = .ok () →
        Current choice.countVotes.2.tree choice.countVotes.2.ballots.votes) := by
  unfold countVotes
  split
  next => exact settle_accounts accounts _ _
  next unchanged => exact ⟨accounts, fun _ => accounts.current (by simpa using unchanged)⟩

theorem head_accounts (accounts : Accounts pedigree anchor log choice) :
    Accounts pedigree anchor log choice.head.2 ∧
      ∀ head, choice.head.1 = .ok head →
        Current choice.head.2.tree choice.head.2.ballots.votes := by
  obtain ⟨counted, current⟩ := countVotes_accounts accounts
  unfold head
  split
  next failed =>
    rw [failed] at counted
    exact ⟨counted, fun _ done => by cases done⟩
  next next counts =>
    rw [counts] at counted current
    split
    · exact ⟨counted, fun _ done => by cases done⟩
    · rename_i headAnchor _
      have same : SameShape (next.tree.findHead headAnchor).2 next.tree := by
        rw [findHead_tree]
        exact sameShape_refresh next.tree
      have weights : (next.tree.findHead headAnchor).2.nodes.map Node.weight =
          next.tree.nodes.map Node.weight := by
        rw [findHead_tree]
        exact weights_refresh next.tree
      exact ⟨counted.congr same weights, fun _ _ => (current rfl).congr same⟩

/-- The removal of nodes, however far it comes, keeps the account and leaves current
votes current. -/
theorem finalizeAt_accounts
    {store : Type} (accounts : Accounts pedigree anchor log choice) (finalized : Checkpoint)
    (oldest : NodeRef) (receive : NodeReceiver store) (state : store) :
    Accounts pedigree anchor log (choice.finalizeAt finalized oldest receive state).2.1 ∧
      (Current choice.tree choice.ballots.votes →
        Current (choice.finalizeAt finalized oldest receive state).2.1.tree
          (choice.finalizeAt finalized oldest receive state).2.1.ballots.votes) := by
  obtain ⟨count, pruned⟩ := prune_tree choice.tree oldest receive state
  have same := sameShape_refresh choice.tree
  have refreshed := accounts.congr same (weights_refresh choice.tree)
  have dropped := refreshed.dropOldest count
  have stays := fun current : Current choice.tree choice.ballots.votes =>
    (current.congr same).dropOldest refreshed.wellFormed count
  unfold finalizeAt
  split
  next refused =>
    rw [refused] at pruned
    subst pruned
    exact ⟨dropped, stays⟩
  next accepted =>
    rw [accepted] at pruned
    subst pruned
    exact ⟨dropped, stays⟩

/-- An adoption keeps the account, and one that succeeds and leads to later epochs makes
the votes current. -/
theorem adopt_accounts
    {store : Type} (accounts : Accounts pedigree anchor log choice) (trigger : NodeRef)
    (justified finalized : Checkpoint) (balancesAt : Checkpoint → Except Error (List Nat))
    (receive : NodeReceiver store) (state : store) {outcome : Except Error Unit}
    {next : ForkChoice preset} {stateAfter : store}
    (adopted : choice.adopt trigger justified finalized balancesAt receive state =
      (outcome, next, stateAfter)) :
    Accounts pedigree anchor log next ∧
      (outcome = .ok () →
        choice.justified.epoch < next.justified.epoch ∨
          choice.finalized.epoch < next.finalized.epoch →
        Current next.tree next.ballots.votes) := by
  have unchanged : Accounts pedigree anchor log choice ∧ (outcome = .ok () →
      choice.justified.epoch < choice.justified.epoch ∨
        choice.finalized.epoch < choice.finalized.epoch →
      Current choice.tree choice.ballots.votes) :=
    ⟨accounts, fun _ later => by omega⟩
  unfold adopt at adopted
  split at adopted
  next => cases adopted; exact unchanged
  next => cases adopted; exact unchanged
  next advance _ =>
    split at adopted
    next => cases adopted; exact unchanged
    next balances _ =>
      have counted := settle_accounts accounts balances
        ⟨advance.justified.epoch, advance.finalized.epoch⟩
      split at adopted
      next failed =>
        cases adopted
        rw [failed] at counted
        exact ⟨counted.1, fun done => by cases done⟩
      next settled counts =>
        rw [counts] at counted
        obtain ⟨accounts, current⟩ := counted
        split at adopted
        next =>
          cases adopted
          exact ⟨accounts, fun _ _ => current rfl⟩
        next oldest _ =>
          have justifiedAccounts : Accounts pedigree anchor log
              { settled with justified := advance.justified } := accounts
          have pruned :=
            finalizeAt_accounts justifiedAccounts advance.finalized oldest receive state
          rw [adopted] at pruned
          exact ⟨pruned.1, fun _ _ => pruned.2 (current rfl)⟩

end Calls

/-- The fork choices that calls lead to from a single anchor.  Calls may fail, and so
may the balances and the receiver of an adoption.  Every block agrees with the
pedigree, and the anchor is not the name that stands for no vote. -/
inductive Reached (pedigree : Pedigree) : ForkChoice preset → Prop
  | ofAnchor (anchor : NodeRef) (parentRoot : Root) (justified finalized : Checkpoint)
    (balances : List Nat) (admitted : pedigree.Admits parentRoot anchor.root anchor.slot)
    (nonzero : anchor ≠ .zero) :
    Reached pedigree (.ofAnchor anchor parentRoot justified finalized balances)
  | insertSlots {choice : ForkChoice preset} (reached : Reached pedigree choice) (root : Root)
    (slot : Nat) (justified finalized : Checkpoint) :
    Reached pedigree (choice.insertSlots root slot justified finalized).2
  | insertBlock {choice : ForkChoice preset} (reached : Reached pedigree choice)
    (parentRoot root : Root) (slot : Nat) (justified finalized : Checkpoint)
    (admitted : pedigree.Admits parentRoot root slot) :
    Reached pedigree (choice.insertBlock parentRoot root slot justified finalized).2
  | recordVote {choice : ForkChoice preset} (reached : Reached pedigree choice) (validator : Nat)
    (root : Root) (slot : Nat) : Reached pedigree (choice.recordVote validator root slot).2
  | setPin {choice : ForkChoice preset} (reached : Reached pedigree choice) (pin : NodeRef) :
    Reached pedigree (choice.setPin pin).2
  | clearPin {choice : ForkChoice preset} (reached : Reached pedigree choice) :
    Reached pedigree choice.clearPin
  | head {choice : ForkChoice preset} (reached : Reached pedigree choice) :
    Reached pedigree choice.head.2
  | adopt {choice : ForkChoice preset} {store : Type} (reached : Reached pedigree choice)
    (trigger : NodeRef) (justified finalized : Checkpoint)
    (balancesAt : Checkpoint → Except Error (List Nat)) (receive : NodeReceiver store)
    (state : store) :
    Reached pedigree (choice.adopt trigger justified finalized balancesAt receive state).2.1

theorem ofAnchor_accounts
    {pedigree : Pedigree} {anchor : NodeRef} {parentRoot : Root} {justified finalized : Checkpoint}
    {balances : List Nat} (admitted : pedigree.Admits parentRoot anchor.root anchor.slot)
    (nonzero : anchor ≠ .zero) :
    Accounts pedigree anchor [anchor]
      (.ofAnchor anchor parentRoot justified finalized balances : ForkChoice preset) where
  wellFormed := (sound_ofAnchor anchor parentRoot _).toWellFormed
  chronicle := chronicle_ofAnchor admitted.2 nonzero
  heard _ member := absurd member List.not_mem_nil
  placed _ member := absurd member List.not_mem_nil
  unmoved _ _ member := absurd member List.not_mem_nil
  weights position inside := by
    have only : position = 0 := by
      simpa [ForkChoice.ofAnchor, BlockTree.ofAnchor, size] using inside
    subst only
    rfl

theorem Reached.accounts
    {pedigree : Pedigree} {choice : ForkChoice preset} (reached : Reached pedigree choice) :
    ∃ anchor log, Accounts pedigree anchor log choice := by
  induction reached with
  | ofAnchor anchor parentRoot justified finalized balances admitted nonzero =>
    exact ⟨anchor, [anchor], ofAnchor_accounts admitted nonzero⟩
  | insertSlots _ root slot justified finalized ih =>
    obtain ⟨anchor, log, accounts⟩ := ih
    exact ⟨anchor, accounts.grow
      (insertSlots_grows pedigree.Admits accounts.wellFormed root slot _)⟩
  | insertBlock _ parentRoot root slot justified finalized admitted ih =>
    obtain ⟨anchor, log, accounts⟩ := ih
    exact ⟨anchor, accounts.grow
      (insertBlock_grows pedigree.Admits accounts.wellFormed _ admitted)⟩
  | recordVote _ validator root slot ih =>
    obtain ⟨anchor, log, accounts⟩ := ih
    refine ⟨anchor, log, ?_⟩
    unfold ForkChoice.recordVote
    split
    next => exact accounts
    next earliest known =>
      obtain ⟨_, node, here, named, _⟩ := accounts.wellFormed.earliestSlot?_eq_some_iff.1 known
      obtain ⟨index, found⟩ := accounts.chronicle.exists_index here
      split
      · exact accounts.record ⟨index, earliest, named ▸ found⟩
      · exact accounts
  | setPin _ pin ih =>
    obtain ⟨anchor, log, accounts⟩ := ih
    refine ⟨anchor, log, ?_⟩
    unfold ForkChoice.setPin
    split <;> exact accounts
  | clearPin _ ih => exact ih
  | head _ ih =>
    obtain ⟨anchor, log, accounts⟩ := ih
    exact ⟨anchor, log, (head_accounts accounts).1⟩
  | adopt _ trigger justified finalized balancesAt receive state ih =>
    obtain ⟨anchor, log, accounts⟩ := ih
    exact ⟨anchor, log,
      (adopt_accounts accounts trigger justified finalized balancesAt receive state rfl).1⟩

/-! ## The weight of every node -/

/-- The sum of the balances of those validators whose applied node is the one at a
position or descends from it. -/
def appliedSupport (choice : ForkChoice preset) (position : Nat) : Int :=
  support choice.tree choice.balances position 0
    (choice.ballots.votes.map (appliedPlace choice.tree))

/-- The sum of the balances of those validators whose latest vote counts for the node at
a position or for one that descends from it. -/
def latestSupport (choice : ForkChoice preset) (position : Nat) : Int :=
  support choice.tree choice.balances position 0
    (choice.ballots.votes.map (latestPlace choice.tree))

/-- All votes that count for a node are applied to it, and the weights are those of the
latest votes. -/
def CountsLatest (choice : ForkChoice preset) : Prop :=
  (∀ vote ∈ choice.ballots.votes, ∀ node position,
    choice.tree.resolve? vote.latest = some (node, position) → vote.applied = node) ∧
  ∀ position node, choice.tree.nodes[position]? = some node →
    node.weight = choice.latestSupport position

theorem weight_eq_appliedSupport
    {pedigree : Pedigree} {choice : ForkChoice preset} {anchor : NodeRef} {log : List NodeRef}
    (accounts : Accounts pedigree anchor log choice) {position : Nat} {node : Node}
    (here : choice.tree.nodes[position]? = some node) :
    node.weight = choice.appliedSupport position := by
  rw [← weightAt_of_getElem? here]
  exact accounts.weights position (List.getElem?_eq_some_iff.1 here).1

theorem countsLatest_of_current
    {pedigree : Pedigree} {choice : ForkChoice preset} {anchor : NodeRef} {log : List NodeRef}
    (accounts : Accounts pedigree anchor log choice)
    (current : Current choice.tree choice.ballots.votes) : choice.CountsLatest := by
  constructor
  · intro vote member node position resolved
    have place : appliedPlace choice.tree vote = some position := by
      rw [List.map_inj_left.1 current vote member, latestPlace, resolved]
      rfl
    obtain ⟨found, here, named⟩ := (accounts.wellFormed.positions _ _).1 place
    obtain ⟨latest, isLatest, rfl⟩ := accounts.wellFormed.resolve?_eq_some_iff.1 resolved
    rw [← named, Option.some.inj (here.symm.trans isLatest.here)]
  · intro position node here
    rw [weight_eq_appliedSupport accounts here, appliedSupport, latestSupport]
    rw [show choice.ballots.votes.map (appliedPlace choice.tree) = _ from current]

/-- In every fork choice that can be reached the weight of a node is the sum of the
balances of those validators whose applied node is that node or descends from it.
After a search for the head that succeeds, and after an adoption that succeeds and
leads to a later epoch, the weights are those of the latest votes. -/
theorem weights_are_votes
    {pedigree : Pedigree} {choice : ForkChoice preset} (reached : Reached pedigree choice) :
    (∀ position node, choice.tree.nodes[position]? = some node →
      node.weight = choice.appliedSupport position) ∧
    (∀ head, choice.head.1 = .ok head → choice.head.2.CountsLatest) ∧
    ∀ (store : Type) (trigger : NodeRef) (justified finalized : Checkpoint)
      (balancesAt : Checkpoint → Except Error (List Nat)) (receive : NodeReceiver store)
      (state stateAfter : store) (next : ForkChoice preset),
      choice.adopt trigger justified finalized balancesAt receive state =
        (.ok (), next, stateAfter) →
      choice.justified.epoch < next.justified.epoch ∨
        choice.finalized.epoch < next.finalized.epoch →
      next.CountsLatest := by
  obtain ⟨anchor, log, accounts⟩ := reached.accounts
  refine ⟨fun position node here => weight_eq_appliedSupport accounts here, ?_, ?_⟩
  · intro head found
    obtain ⟨headAccounts, current⟩ := head_accounts accounts
    exact countsLatest_of_current headAccounts (current head found)
  · intro store trigger justified finalized balancesAt receive state stateAfter next adopted later
    obtain ⟨nextAccounts, current⟩ :=
      adopt_accounts accounts trigger justified finalized balancesAt receive state adopted
    exact countsLatest_of_current nextAccounts (current rfl later)

/-- An anchor with one block above it and a vote for the block. -/
def votedChoice : ForkChoice .minimal :=
  (((ofAnchor ⟨⟨7⟩, 0⟩ ⟨8⟩ ⟨0, ⟨7⟩⟩ ⟨0, ⟨7⟩⟩ [32]).insertBlock
    ⟨7⟩ ⟨1⟩ 1 ⟨0, ⟨7⟩⟩ ⟨0, ⟨7⟩⟩).2.recordVote 0 ⟨1⟩ 1).2

theorem weights_are_votes_votedChoice :
    votedChoice.head.2.CountsLatest ∧
      votedChoice.head.2.tree.nodes.map Node.weight = [32, 0, 32] :=
  let pedigree : Pedigree :=
    ⟨fun root => if root = ⟨1⟩ then ⟨7⟩ else ⟨8⟩, fun root => if root = ⟨1⟩ then 1 else 0⟩
  have reached : Reached pedigree votedChoice :=
    .recordVote (.insertBlock
      (.ofAnchor ⟨⟨7⟩, 0⟩ ⟨8⟩ ⟨0, ⟨7⟩⟩ ⟨0, ⟨7⟩⟩ [32] ⟨by decide, by decide⟩ (by decide))
      ⟨7⟩ ⟨1⟩ 1 ⟨0, ⟨7⟩⟩ ⟨0, ⟨7⟩⟩ ⟨by decide, by decide⟩) 0 ⟨1⟩ 1
  ⟨(weights_are_votes reached).2.1 ⟨⟨1⟩, 1⟩ (by decide), by decide⟩

end ForkChoice

end BeaconChain
