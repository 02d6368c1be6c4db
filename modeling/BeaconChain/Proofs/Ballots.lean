import BeaconChain.Ballots
import BeaconChain.Proofs.BlockTree.Weights
import Mathlib.Data.List.Forall2

/-!
# Counting ballots

A tally moves the weight of every validator from the node to which it was applied to
the node of its latest vote.  Summed over a subtree, its deltas are the support that
the subtree has under the latest votes and new balances, less the support that it
had under the applied votes and old balances.  Committing the moves of a tally makes
every vote count where it was moved to.
-/

namespace BeaconChain

open BlockTree

/-- The position of the node to which a vote was applied. -/
def appliedPlace (tree : BlockTree) (vote : Vote) : Option Nat :=
  tree.position? vote.applied

/-- The position of the node for which the latest vote counts. -/
def latestPlace (tree : BlockTree) (vote : Vote) : Option Nat :=
  (tree.resolve? vote.latest).map (·.2)

/-- The node for which the latest vote counts; if there is none, what it names. -/
def nextNode (tree : BlockTree) (vote : Vote) : NodeRef :=
  (tree.resolve? vote.latest).elim vote.latest (·.1)

/-- The balance that a vote at a place adds to the weight of the node at `above`. -/
def share (tree : BlockTree) (above : Nat) (place : Option Nat) (balance : Nat) : Int :=
  if place.any (tree.inSubtree above) then balance else 0

/-- The sum of the balances of those validators, from `validator` on, whose places are
in the subtree of the node at `above`. -/
def support (tree : BlockTree) (balances : List Nat) (above : Nat) :
    (validator : Nat) → (places : List (Option Nat)) → Int
  | _, [] => 0
  | validator, place :: rest =>
    share tree above place (balanceOf balances validator) +
      support tree balances above (validator + 1) rest

@[simp]
theorem share_none (tree : BlockTree) (above balance : Nat) : share tree above none balance = 0 :=
  rfl

theorem share_some
    (tree : BlockTree) (above position balance : Nat) :
    share tree above (some position) balance =
      if tree.inSubtree above position then (balance : Int) else 0 :=
  rfl

/-- The support of a node does not change if no share does. -/
theorem support_map
    {tree other : BlockTree} {balances : List Nat} {above otherAbove : Nat}
    {change : Option Nat → Option Nat} :
    ∀ {validator : Nat} {places : List (Option Nat)},
      (∀ place ∈ places, ∀ balance,
        share other otherAbove (change place) balance = share tree above place balance) →
      support other balances otherAbove validator (places.map change) =
        support tree balances above validator places
  | _, [], _ => rfl
  | validator, place :: rest, same => by
    rw [List.map_cons, support, support, same place List.mem_cons_self]
    rw [support_map fun place member => same place (List.mem_cons_of_mem _ member)]

theorem support_congr
    {tree other : BlockTree} {balances : List Nat} {above otherAbove validator : Nat}
    {places : List (Option Nat)}
    (same : ∀ place ∈ places, ∀ balance,
      share other otherAbove place balance = share tree above place balance) :
    support other balances otherAbove validator places =
      support tree balances above validator places := by
  have mapped : support other balances otherAbove validator (places.map id) =
      support tree balances above validator places := support_map same
  rwa [List.map_id] at mapped

theorem support_append_none
    {tree : BlockTree} {balances : List Nat} {above : Nat} (count : Nat) :
    ∀ {validator : Nat} {places : List (Option Nat)},
      support tree balances above validator (places ++ List.replicate count none) =
        support tree balances above validator places
  | validator, [] => by
    induction count generalizing validator with
    | zero => rfl
    | succ count ih =>
      simp only [List.nil_append, support] at ih
      simp [List.replicate_succ, support, ih]
  | validator, place :: rest => by
    rw [List.cons_append, support, support, support_append_none count]

section Tree

variable {tree : BlockTree}

theorem position?_nextNode (wellFormed : WellFormed tree) (vote : Vote) :
    tree.position? (nextNode tree vote) = latestPlace tree vote := by
  rcases wellFormed.resolve?_cases vote.latest with
    ⟨position, node, latest, resolved⟩ | ⟨later, none⟩
  · simp [nextNode, latestPlace, resolved, wellFormed.position?_ref latest.here]
  · simp only [nextNode, latestPlace, none, Option.elim_none, Option.map_none]
    rw [wellFormed.position?_eq_none_iff]
    intro node member same
    obtain ⟨position, here⟩ := List.mem_iff_getElem?.1 member
    have := later position node here (by rw [same])
    rw [same] at this
    exact Nat.lt_irrefl _ this

theorem latestPlace_blank
    (wellFormed : WellFormed tree) (noZero : ∀ node ∈ tree.nodes, node.ref ≠ .zero) :
    latestPlace tree .blank = none := by
  have later : AllLater tree.nodes .zero := by
    intro position node here ofRoot
    rcases Nat.eq_zero_or_pos node.ref.slot with atZero | positive
    · exact absurd (NodeRef.eq_mk ofRoot atZero) (noZero node (List.mem_of_getElem? here))
    · exact positive
  have none : tree.resolve? Vote.blank.latest = none := wellFormed.resolve?_of_allLater later
  simp [latestPlace, none]

theorem appliedPlace_blank
    (wellFormed : WellFormed tree) (noZero : ∀ node ∈ tree.nodes, node.ref ≠ .zero) :
    appliedPlace tree .blank = none :=
  wellFormed.position?_eq_none_iff.2 noZero

end Tree

namespace Tally

variable {tree : BlockTree} {oldBalances newBalances : List Nat}

/-- Adds an amount at a node of the tree, if there is one. -/
def addAt (tally : Tally) (target : Option (NodeRef × Nat)) (amount : Int) : Except Error Tally :=
  match target with
  | some (node, position) => tally.add position node amount
  | none => .ok tally

/-- What an addition at a node of the tree does to a tally. -/
theorem addAt_spec
    {tally added : Tally} {target : Option (NodeRef × Nat)} {amount : Int}
    (done : tally.addAt target amount = .ok added) (sized : tally.deltas.length = tree.size)
    (inTree : ∀ node position, target = some (node, position) → position < tree.size) :
    added.moves = tally.moves ∧ added.deltas.length = tree.size ∧
      ∀ above, gathered (tree.inSubtree above) added.deltas tree.size =
        gathered (tree.inSubtree above) tally.deltas tree.size +
          if (target.map (·.2)).any (tree.inSubtree above) then amount else 0 := by
  unfold addAt at done
  split at done
  next node position =>
    unfold add at done
    dsimp only at done
    split at done
    next =>
      cases done
      have inRange := inTree node position rfl
      refine ⟨rfl, by simpa using sized, fun above => ?_⟩
      rw [gathered_set _ amount (by omega)]
      simp [inRange]
    next => cases done
  next =>
    cases done
    exact ⟨rfl, sized, fun above => by simp⟩

theorem count_of_kept
    {validator : Nat} {vote : Vote} {tally : Tally} (recorded : vote ≠ .blank)
    (kept : vote.applied = nextNode tree vote ∧
      balanceOf oldBalances validator = balanceOf newBalances validator) :
    count tree oldBalances newBalances tally validator vote =
      .ok ⟨tally.deltas, tally.moves.targets,
        tally.moves.pending || nextNode tree vote ≠ vote.latest⟩ := by
  unfold nextNode at kept ⊢
  unfold count
  rw [if_neg recorded]
  dsimp only
  rw [if_pos kept]
  rfl

/-- The count of a recorded vote whose weight has to be moved, as two additions. -/
theorem count_of_moved
    {validator : Nat} {vote : Vote} {tally : Tally} (recorded : vote ≠ .blank)
    (moved : ¬ (vote.applied = nextNode tree vote ∧
      balanceOf oldBalances validator = balanceOf newBalances validator)) :
    count tree oldBalances newBalances tally validator vote = (do
      let taken ← addAt
        ⟨tally.deltas, tally.moves.targets,
          tally.moves.pending || nextNode tree vote ≠ vote.latest⟩
        ((tree.position? vote.applied).map fun position => (vote.applied, position))
        (-balanceOf oldBalances validator)
      let given ← taken.addAt (tree.resolve? vote.latest) (balanceOf newBalances validator)
      return ⟨given.deltas, given.moves.targets ++ [(validator, nextNode tree vote)],
        given.moves.pending⟩) := by
  unfold nextNode at moved ⊢
  unfold count
  rw [if_neg recorded]
  dsimp only
  rw [if_neg moved]
  cases tree.position? vote.applied <;> cases tree.resolve? vote.latest <;> rfl

/-- How the count of one vote changes a tally.  A blank vote adds nothing as long as no node has
the name for which it stands. -/
structure Counts (tree : BlockTree) (oldBalances newBalances : List Nat) (validator : Nat)
    (vote : Vote) (tally counted : Tally) : Prop where
  sameLength : counted.deltas.length = tally.deltas.length
  gains : (∀ node ∈ tree.nodes, node.ref ≠ .zero) → ∀ above,
    gathered (tree.inSubtree above) counted.deltas tree.size =
    gathered (tree.inSubtree above) tally.deltas tree.size +
      share tree above (latestPlace tree vote) (balanceOf newBalances validator) -
      share tree above (appliedPlace tree vote) (balanceOf oldBalances validator)
  pending : counted.moves.pending = false →
    tally.moves.pending = false ∧ (vote = .blank ∨ nextNode tree vote = vote.latest)
  moves : counted.moves.targets = tally.moves.targets ∧
      (vote = .blank ∨ vote.applied = nextNode tree vote) ∨
    counted.moves.targets = tally.moves.targets ++ [(validator, nextNode tree vote)] ∧
      vote ≠ .blank

theorem count_spec
    (wellFormed : WellFormed tree) {validator : Nat} {vote : Vote} {tally counted : Tally}
    (sized : tally.deltas.length = tree.size)
    (done : count tree oldBalances newBalances tally validator vote = .ok counted) :
    Counts tree oldBalances newBalances validator vote tally counted := by
  by_cases recorded : vote = .blank
  · subst recorded
    cases done
    exact {
      sameLength := rfl
      gains := fun noZero => by
        simp [latestPlace_blank wellFormed noZero, appliedPlace_blank wellFormed noZero]
      pending := fun none => ⟨none, .inl rfl⟩
      moves := .inl ⟨rfl, .inl rfl⟩ }
  · have places := position?_nextNode wellFormed vote
    have pendingOf : ∀ pending : Bool,
        (pending || decide (nextNode tree vote ≠ vote.latest)) = false →
          pending = false ∧ (vote = .blank ∨ nextNode tree vote = vote.latest) := by
      intro pending none
      rw [Bool.or_eq_false_iff, decide_eq_false_iff_not, Decidable.not_not] at none
      exact ⟨none.1, .inr none.2⟩
    by_cases kept : vote.applied = nextNode tree vote ∧
        balanceOf oldBalances validator = balanceOf newBalances validator
    · rw [count_of_kept recorded kept] at done
      cases done
      exact {
        sameLength := rfl
        gains := fun _ above => by
          have same : appliedPlace tree vote = latestPlace tree vote := by
            rw [← places, appliedPlace, kept.1]
          rw [same, kept.2, Int.add_sub_cancel]
        pending := pendingOf _
        moves := .inl ⟨rfl, .inr kept.1⟩ }
    · rw [count_of_moved recorded kept] at done
      obtain ⟨taken, takenDone, done⟩ := exists_of_bind_eq_ok done
      obtain ⟨given, givenDone, done⟩ := exists_of_bind_eq_ok done
      cases done
      have positioned : ∀ {ref position}, tree.position? ref = some position →
          position < tree.size := by
        intro ref position found
        obtain ⟨_, here, _⟩ := (wellFormed.positions _ _).1 found
        exact (List.getElem?_eq_some_iff.1 here).1
      obtain ⟨takenMoves, takenSized, takenGains⟩ := addAt_spec takenDone sized
        fun node position target => by
          obtain ⟨_, found, same⟩ := Option.map_eq_some_iff.1 target
          exact (Prod.mk.inj same).2 ▸ positioned found
      obtain ⟨givenMoves, givenSized, givenGains⟩ := addAt_spec givenDone takenSized
        fun node position target => by
          have place := places
          simp only [latestPlace, target, Option.map_some] at place
          exact positioned place
      exact {
        sameLength := givenSized.trans sized.symm
        gains := fun _ above => by
          have oldPlace : ((tree.position? vote.applied).map fun position =>
              (vote.applied, position)).map (·.2) = appliedPlace tree vote := by
            simp [appliedPlace, Function.comp_def]
          have newPlace : (tree.resolve? vote.latest).map (·.2) = latestPlace tree vote := rfl
          rw [givenGains, takenGains, oldPlace, newPlace]
          cases old : (appliedPlace tree vote).any (tree.inSubtree above) <;>
            simp only [share, old, if_true, Bool.false_eq_true, if_false] <;> omega
        pending := fun none => pendingOf _ (by rw [givenMoves, takenMoves] at none; exact none)
        moves := .inr ⟨by rw [givenMoves, takenMoves], recorded⟩ }

/-- Moves one validator's vote to the node to which its weight has been moved. -/
def settleAt (votes : List Vote) (target : Nat × NodeRef) : List Vote :=
  votes.modify target.1 (Ballots.settleVote target.2)

/-- A vote once it has been counted: unless it is blank it was applied to the node for
which it counts. -/
structure Counted (tree : BlockTree) (vote counted : Vote) : Prop where
  latest : counted.latest = vote.latest
  blank : vote = .blank → counted = .blank
  applied : vote ≠ .blank → counted.applied = nextNode tree vote

/-- How the count of the votes from a validator on changes a tally. -/
structure CountsAll (tree : BlockTree) (oldBalances newBalances : List Nat) (validator : Nat)
    (votes : List Vote) (tally counted : Tally) : Prop where
  sized : counted.deltas.length = tree.size
  gains : (∀ node ∈ tree.nodes, node.ref ≠ .zero) → ∀ above,
    gathered (tree.inSubtree above) counted.deltas tree.size =
    gathered (tree.inSubtree above) tally.deltas tree.size +
      support tree newBalances above validator (votes.map (latestPlace tree)) -
      support tree oldBalances above validator (votes.map (appliedPlace tree))
  pending : counted.moves.pending = false →
    tally.moves.pending = false ∧
      ∀ vote ∈ votes, vote = .blank ∨ nextNode tree vote = vote.latest
  moves : ∃ moved settled, counted.moves.targets = tally.moves.targets ++ moved ∧
    List.Forall₂ (Counted tree) votes settled ∧
      ∀ front : List Vote, front.length = validator →
        moved.foldl settleAt (front ++ votes) = front ++ settled

theorem settleAt_append
    {front rest : List Vote} {vote : Vote} {validator : Nat} (node : NodeRef)
    (behind : front.length = validator) :
    settleAt (front ++ vote :: rest) (validator, node) =
      (front ++ [Ballots.settleVote node vote]) ++ rest := by
  subst behind
  unfold settleAt
  induction front with
  | nil => rfl
  | cons first front ih => simpa using ih

theorem Counts.moves_cons
    {validator : Nat} {vote : Vote} {rest : List Vote} {tally between counted : Tally}
    (first : Counts tree oldBalances newBalances validator vote tally between)
    (others : CountsAll tree oldBalances newBalances (validator + 1) rest between counted) :
    ∃ moved settled, counted.moves.targets = tally.moves.targets ++ moved ∧
      List.Forall₂ (Counted tree) (vote :: rest) settled ∧
        ∀ front : List Vote, front.length = validator →
          moved.foldl settleAt (front ++ vote :: rest) = front ++ settled := by
  obtain ⟨moved, settled, targets, counts, committed⟩ := others.moves
  rcases first.moves with ⟨kept, already⟩ | ⟨extended, recorded⟩
  · have unchanged : Counted tree vote vote :=
      { latest := rfl
        blank := id
        applied := fun recorded => already.resolve_left recorded }
    refine ⟨moved, vote :: settled, by rw [targets, kept], .cons unchanged counts, ?_⟩
    intro front behind
    have := committed (front ++ [vote]) (by simp [behind])
    simpa using this
  · have settles : Counted tree vote (Ballots.settleVote (nextNode tree vote) vote) :=
      { latest := rfl
        blank := fun blank => absurd blank recorded
        applied := fun _ => rfl }
    refine ⟨(validator, nextNode tree vote) :: moved, _, ?_, .cons settles counts, ?_⟩
    · rw [targets, extended, List.append_assoc, List.singleton_append]
    · intro front behind
      rw [List.foldl_cons, settleAt_append _ behind, committed _ (by simp [behind])]
      simp

theorem countFrom_spec
    (wellFormed : WellFormed tree) :
    ∀ {validator : Nat} {votes : List Vote} {tally counted : Tally},
      tally.deltas.length = tree.size →
      countFrom tree oldBalances newBalances validator votes tally = .ok counted →
      CountsAll tree oldBalances newBalances validator votes tally counted
  | validator, [], tally, counted, sized, done => by
    cases done
    exact {
      sized := sized
      gains := fun _ above => by simp [support]
      pending := fun none => ⟨none, fun _ member => absurd member List.not_mem_nil⟩
      moves := ⟨[], [], by simp, .nil, fun front _ => rfl⟩ }
  | validator, vote :: rest, tally, counted, sized, done => by
    rw [countFrom] at done
    split at done
    next => cases done
    next between counts =>
      have first := count_spec wellFormed sized counts
      have others := countFrom_spec wellFormed (first.sameLength.trans sized) done
      exact {
        sized := others.sized
        gains := fun noZero above => by
          rw [others.gains noZero, first.gains noZero, List.map_cons,
            List.map_cons, support, support]
          omega
        pending := fun none => by
          obtain ⟨before, restPlain⟩ := others.pending none
          obtain ⟨start, plain⟩ := first.pending before
          refine ⟨start, fun found member => ?_⟩
          rcases List.mem_cons.1 member with rfl | member
          · exact plain
          · exact restPlain found member
        moves := first.moves_cons others }

end Tally

namespace Ballots

variable {preset : Preset} {tree : BlockTree} {oldBalances newBalances : List Nat}

/-- The votes that are counted in a tally are settled when it is committed. -/
theorem counted_of_tally
    (wellFormed : WellFormed tree) {ballots : Ballots preset} {tally : Tally}
    (done : ballots.tally tree oldBalances newBalances = .ok tally) :
    List.Forall₂ (Tally.Counted tree) ballots.votes (ballots.commit tally.moves).votes := by
  obtain ⟨moved, settled, targets, counted, committed⟩ :=
    (Tally.countFrom_spec wellFormed (by simp) done).moves
  have all : (ballots.commit tally.moves).votes = settled := by
    have := committed [] rfl
    simp only [List.nil_append] at this
    rw [← this]
    simp only [commit, targets, List.nil_append]
    rfl
  rw [all]
  exact counted

/-- What a tally and its commitment do to the support of every node and to the
votes. -/
theorem tally_spec
    (wellFormed : WellFormed tree) (noZero : ∀ node ∈ tree.nodes, node.ref ≠ .zero)
    {ballots : Ballots preset} {tally : Tally}
    (done : ballots.tally tree oldBalances newBalances = .ok tally) :
    (∀ above, gathered (tree.inSubtree above) tally.deltas tree.size =
      support tree newBalances above 0 (ballots.votes.map (latestPlace tree)) -
        support tree oldBalances above 0 (ballots.votes.map (appliedPlace tree))) ∧
    List.Forall₂ (Tally.Counted tree) ballots.votes (ballots.commit tally.moves).votes ∧
    ((ballots.commit tally.moves).changed = false →
      ∀ vote ∈ ballots.votes, vote = .blank ∨ nextNode tree vote = vote.latest) := by
  have counts := Tally.countFrom_spec wellFormed (by simp) done
  refine ⟨fun above => ?_, counted_of_tally wellFormed done, fun none => (counts.pending none).2⟩
  have gains := counts.gains noZero above
  rw [gathered_replicate] at gains
  omega

end Ballots

theorem map_appliedPlace_counted
    {tree : BlockTree} (wellFormed : WellFormed tree)
    (noZero : ∀ node ∈ tree.nodes, node.ref ≠ .zero) {votes counted : List Vote}
    (counts : List.Forall₂ (Tally.Counted tree) votes counted) :
    counted.map (appliedPlace tree) = votes.map (latestPlace tree) := by
  induction counts with
  | nil => rfl
  | @cons vote counted rest others counts _ ih =>
    have place : appliedPlace tree counted = latestPlace tree vote := by
      by_cases recorded : vote = .blank
      · rw [counts.blank recorded, recorded, appliedPlace_blank wellFormed noZero,
          latestPlace_blank wellFormed noZero]
      · rw [appliedPlace, counts.applied recorded, position?_nextNode wellFormed]
    rw [List.map_cons, List.map_cons, place, ih]

/-! ## Support in a changed tree -/

section Changes

variable {tree : BlockTree}

theorem support_eq_zero
    {balances : List Nat} {above : Nat} :
    ∀ {validator : Nat} {places : List (Option Nat)},
      (∀ place ∈ places, ∀ balance, share tree above place balance = 0) →
      support tree balances above validator places = 0
  | _, [], _ => rfl
  | validator, place :: rest, noShare => by
    rw [support, noShare place List.mem_cons_self,
      support_eq_zero fun place member => noShare place (List.mem_cons_of_mem _ member)]
    rfl

theorem share_eq_zero
    (wellFormed : WellFormed tree) {above position : Nat} (inside : position < tree.size)
    (before : position < above) (balance : Nat) : share tree above (some position) balance = 0 := by
  rw [share_some, if_neg]
  intro isInside
  have := Descends.le wellFormed.voteParentsFirst ((inSubtree_iff wellFormed inside).1 isInside)
  omega

theorem share_push
    (wellFormed : WellFormed tree) {node : Node} (grown : WellFormed (tree.push node))
    {above position : Nat} (inside : position < tree.size) (balance : Nat) :
    share (tree.push node) above (some position) balance =
      share tree above (some position) balance := by
  have same : (tree.push node).inSubtree above position = tree.inSubtree above position := by
    rw [Bool.eq_iff_iff, inSubtree_iff grown (by rw [size_push]; omega),
      inSubtree_iff wellFormed inside]
    exact descends_append grown.voteParentsFirst inside
  rw [share_some, share_some, same]

theorem share_congr
    {other : BlockTree} (wellFormed : WellFormed tree) (same : SameShape other tree)
    {above position : Nat} (inside : position < tree.size) (balance : Nat) :
    share other above (some position) balance = share tree above (some position) balance := by
  have alike : other.inSubtree above position = tree.inSubtree above position := by
    rw [Bool.eq_iff_iff, inSubtree_iff (same.symm.wellFormed wellFormed) (by rwa [same.size_eq]),
      inSubtree_iff wellFormed inside, same.voteDescends_eq]
  rw [share_some, share_some, alike]

theorem share_dropOldest
    (wellFormed : WellFormed tree) {count above position : Nat} (inside : position < tree.size)
    (balance : Nat) :
    share (tree.dropOldest count) above (shift count position) balance =
      share tree (above + count) (some position) balance := by
  rcases Nat.lt_or_ge position count with taken | kept
  · rw [shift_eq_none_iff.2 taken, share_none, share_eq_zero wellFormed inside (by omega)]
  · obtain ⟨place, rfl⟩ : ∃ place, position = place + count := ⟨position - count, by omega⟩
    have insideLeft : place < (tree.dropOldest count).size := by
      unfold size at *
      rw [nodes_dropOldest, List.length_map, List.length_drop]
      omega
    have same : (tree.dropOldest count).inSubtree above place =
        tree.inSubtree (above + count) (place + count) := by
      rw [Bool.eq_iff_iff, inSubtree_iff (wellFormed.dropOldest count) insideLeft,
        inSubtree_iff wellFormed inside, wellFormed.voteDescends_dropOldest]
    rw [shift_eq_some_iff.2 rfl, share_some, share_some, same]

theorem appliedPlace_lt (wellFormed : WellFormed tree) {vote : Vote} {position : Nat}
    (place : appliedPlace tree vote = some position) : position < tree.size := by
  obtain ⟨_, here, _⟩ := (wellFormed.positions _ _).1 place
  exact (List.getElem?_eq_some_iff.1 here).1

theorem appliedPlace_dropOldest (wellFormed : WellFormed tree) (count : Nat) (vote : Vote) :
    appliedPlace (tree.dropOldest count) vote = (appliedPlace tree vote).bind (shift count) := by
  apply Option.ext
  intro position
  rw [appliedPlace, wellFormed.position?_dropOldest, bind_shift_eq_some_iff]
  rfl

theorem latestPlace_dropOldest (wellFormed : WellFormed tree) (count : Nat) (vote : Vote) :
    latestPlace (tree.dropOldest count) vote = (latestPlace tree vote).bind (shift count) := by
  have left := wellFormed.dropOldest count
  apply Option.ext
  intro position
  rw [bind_shift_eq_some_iff]
  simp only [latestPlace, Option.map_eq_some_iff, Prod.exists, exists_eq_right,
    left.resolve?_eq_some_iff, wellFormed.resolve?_eq_some_iff]
  constructor
  · rintro ⟨ref, _, ⟨there, ofRoot, notLater, greatest⟩, rfl⟩
    obtain ⟨node, here, rfl⟩ := getElem?_dropOldest_eq_some_iff.1 there
    refine ⟨_, node, ⟨here, ofRoot, notLater, ?_⟩, rfl⟩
    intro other found foundHere foundRoot foundSlot
    rcases Nat.lt_or_ge other count with taken | kept
    · exact (wellFormed.slot_le_iff here foundHere (foundRoot.trans ofRoot.symm)).2 (by omega)
    · obtain ⟨place, rfl⟩ : ∃ place, other = place + count := ⟨other - count, by omega⟩
      exact greatest place (shiftNode count found) (getElem?_dropOldest foundHere) foundRoot
        foundSlot
  · rintro ⟨ref, node, ⟨here, ofRoot, notLater, greatest⟩, rfl⟩
    refine ⟨_, _, ⟨getElem?_dropOldest here, ofRoot, notLater, ?_⟩, rfl⟩
    intro other found foundThere foundRoot foundSlot
    obtain ⟨before, foundHere, rfl⟩ := getElem?_dropOldest_eq_some_iff.1 foundThere
    exact greatest _ before foundHere foundRoot foundSlot

end Changes

end BeaconChain
