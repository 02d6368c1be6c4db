import BeaconChain.Proofs.BlockTree.Scores
import BeaconChain.Proofs.ForkChoice.Weights

/-!
# Votes that can be counted

A count moves the balances of validators from node to node.  Whatever positions one looks at,
what they have gained never exceeds the sum of the new balances, and what they have lost never
the sum of the old ones.  So a count does not leave the range of weights as long as both sums
are in it.
-/

open Relation

namespace BeaconChain

open BlockTree

theorem balanceOf_add_sum_drop (balances : List Nat) (validator : Nat) :
    balanceOf balances validator + (balances.drop (validator + 1)).sum =
      (balances.drop validator).sum := by
  rcases Nat.lt_or_ge validator balances.length with inside | outside
  · rw [List.drop_eq_getElem_cons inside, List.sum_cons]
    simp [balanceOf, inside]
  · rw [List.drop_of_length_le outside, List.drop_of_length_le (Nat.le_succ_of_le outside)]
    simp [balanceOf, outside]

namespace Tally

variable {tree : BlockTree} (oldBalances newBalances : List Nat) {lower upper : Nat}

theorem exists_addAt
    (tally : Tally) (target : Option (NodeRef × Nat)) (amount : Int)
    (lowerFits : lower < weightLimit) (upperFits : upper < weightLimit)
    (sized : tally.deltas.length = tree.size)
    (inTree : ∀ node position, target = some (node, position) → position < tree.size)
    (before : Bounded lower upper tally.deltas tree.size)
    (after : ∀ position < tree.size, Bounded lower upper
      (tally.deltas.set position (tally.deltas.getD position 0 + amount)) tree.size) :
    ∃ added, tally.addAt target amount = .ok added ∧ added.deltas.length = tree.size ∧
      Bounded lower upper added.deltas tree.size := by
  cases target with
  | none => exact ⟨tally, rfl, sized, before⟩
  | some found =>
    obtain ⟨node, position⟩ := found
    have inside := inTree node position rfl
    have sum := (after position inside).getD inside
    rw [List.getD_eq_getElem?_getD, List.getElem?_set_self (sized ▸ inside),
      Option.getD_some] at sum
    refine ⟨{ tally with deltas := _ }, ?_, ?_, after position inside⟩
    · simp only [addAt, add]
      rw [if_pos (fitsWeight_of_between lowerFits upperFits sum.1 sum.2)]
    · simp [sized]

/-- One vote moves no more than its own balances. -/
theorem exists_count
    (wellFormed : WellFormed tree) (validator : Nat) (vote : Vote) {tally : Tally}
    (lowerFits : lower + balanceOf oldBalances validator < weightLimit)
    (upperFits : upper + balanceOf newBalances validator < weightLimit)
    (sized : tally.deltas.length = tree.size)
    (bounded : Bounded lower upper tally.deltas tree.size) :
    ∃ counted, count tree oldBalances newBalances tally validator vote = .ok counted ∧
      counted.deltas.length = tree.size ∧
      Bounded (lower + balanceOf oldBalances validator) (upper + balanceOf newBalances validator)
        counted.deltas tree.size := by
  have wider := bounded.mono (Nat.le_add_right lower (balanceOf oldBalances validator))
    (Nat.le_add_right upper (balanceOf newBalances validator))
  by_cases blank : vote = .blank
  · exact ⟨tally, if_pos blank, sized, wider⟩
  · by_cases kept : vote.applied = nextNode tree vote ∧
        balanceOf oldBalances validator = balanceOf newBalances validator
    · exact ⟨_, count_of_kept blank kept, sized, wider⟩
    · have loses := bounded.mono (Nat.le_add_right lower (balanceOf oldBalances validator))
        (Nat.le_refl upper)
      obtain ⟨taken, takes, takenSized, takenBounded⟩ := exists_addAt
        ⟨tally.deltas, tally.moves.targets,
          tally.moves.pending || nextNode tree vote ≠ vote.latest⟩
        ((tree.position? vote.applied).map fun position => (vote.applied, position))
        (-balanceOf oldBalances validator) lowerFits (by omega) sized
        (fun node position found => by
          obtain ⟨_, present, same⟩ := Option.map_eq_some_iff.1 found
          obtain ⟨rfl, rfl⟩ := Prod.mk.inj same
          exact appliedPlace_lt wellFormed present) loses
        (fun position inside => bounded.lose (sized ▸ inside) _)
      obtain ⟨given, gives, givenSized, givenBounded⟩ := exists_addAt taken
        (tree.resolve? vote.latest) (balanceOf newBalances validator) lowerFits upperFits takenSized
        (fun node position found => by
          obtain ⟨_, latest, _⟩ := wellFormed.resolve?_eq_some_iff.1 found
          exact (List.getElem?_eq_some_iff.1 latest.here).1)
        (takenBounded.mono (Nat.le_refl _)
          (Nat.le_add_right upper (balanceOf newBalances validator)))
        (fun position inside => takenBounded.gain (takenSized ▸ inside) _)
      refine ⟨⟨given.deltas, given.moves.targets ++ [(validator, nextNode tree vote)],
        given.moves.pending⟩, ?_, givenSized, givenBounded⟩
      rw [count_of_moved blank kept, takes]
      simp only [bind, Except.bind, gives]
      rfl

theorem exists_countFrom
    (wellFormed : WellFormed tree) :
    ∀ (validator : Nat) (votes : List Vote) {tally : Tally} {lower upper : Nat},
      lower + (oldBalances.drop validator).sum < weightLimit →
      upper + (newBalances.drop validator).sum < weightLimit →
      tally.deltas.length = tree.size → Bounded lower upper tally.deltas tree.size →
      ∃ counted, countFrom tree oldBalances newBalances validator votes tally = .ok counted ∧
        counted.deltas.length = tree.size ∧
        Bounded (lower + (oldBalances.drop validator).sum)
          (upper + (newBalances.drop validator).sum) counted.deltas tree.size
  | _, [], tally, _, _, _, _, sized, bounded =>
    ⟨tally, rfl, sized, bounded.mono (Nat.le_add_right _ _) (Nat.le_add_right _ _)⟩
  | validator, vote :: rest, tally, lower, upper, lowerFits, upperFits, sized, bounded => by
    have oldSum := balanceOf_add_sum_drop oldBalances validator
    have newSum := balanceOf_add_sum_drop newBalances validator
    obtain ⟨counted, counts, countedSized, countedBounded⟩ :=
      exists_count oldBalances newBalances wellFormed validator vote (by omega) (by omega)
        sized bounded
    obtain ⟨last, done, lastSized, lastBounded⟩ :=
      exists_countFrom wellFormed (validator + 1) rest (by omega) (by omega)
        countedSized countedBounded
    refine ⟨last, ?_, lastSized, ?_⟩
    · simp only [countFrom, counts, done]
    · rwa [Nat.add_assoc, Nat.add_assoc, oldSum, newSum] at lastBounded

end Tally

theorem support_bounds
    (tree : BlockTree) (balances : List Nat) (above : Nat) :
    ∀ (validator : Nat) (places : List (Option Nat)),
      0 ≤ support tree balances above validator places ∧
        support tree balances above validator places ≤ (balances.drop validator).sum
  | _, [] => ⟨Int.le_refl 0, Int.natCast_nonneg _⟩
  | validator, place :: rest => by
    have sum := balanceOf_add_sum_drop balances validator
    have others := support_bounds tree balances above (validator + 1) rest
    rw [support, share]
    split <;> omega

namespace ForkChoice

variable {preset : Preset} {pedigree : Pedigree} {anchor : NodeRef} {log : List NodeRef}
  {choice : ForkChoice preset}

/-- Votes can always be counted if the old and the new balances are in the range of weights. -/
theorem exists_settle
    (accounts : Accounts pedigree anchor log choice) {balances : List Nat}
    (oldLight : choice.balances.sum < weightLimit) (newLight : balances.sum < weightLimit)
    (stamp : Stamp) : ∃ next, choice.settle balances stamp = (.ok (), next) := by
  have wellFormed := accounts.wellFormed
  have nothing : (({ deltas := List.replicate choice.tree.size 0 } : Tally)).deltas.length =
      choice.tree.size := List.length_replicate
  obtain ⟨tally, tallied, sized, bounded⟩ :=
    Tally.exists_countFrom choice.balances balances wellFormed 0 choice.ballots.votes
      (by simpa using oldLight) (by simpa using newLight) nothing (.replicate _ _)
  simp only [List.drop_zero, Nat.zero_add] at bounded
  have counted : choice.ballots.tally choice.tree choice.balances balances = .ok tally := tallied
  obtain ⟨gains, _⟩ := Ballots.tally_spec wellFormed accounts.chronicle.ref_ne_zero counted
  obtain ⟨nodes, added⟩ := exists_addDeltas oldLight newLight wellFormed.voteParentsFirst
    (fun _ _ inside => inSubtree_iff wellFormed inside)
    (.refl choice.tree.nodes) sized (Nat.le_refl choice.tree.size) bounded (by
      intro above inside
      rw [accounts.weights above inside, gains above]
      have latest := support_bounds choice.tree balances above 0
        (choice.ballots.votes.map (latestPlace choice.tree))
      rw [List.drop_zero] at latest
      exact fitsWeight_of_between oldLight newLight (by omega) (by omega))
  have applied : ¬ tally.deltas.length ≠ choice.tree.size := by simpa using sized
  simp only [settle, counted, applyScores, if_neg applied, added]
  exact ⟨_, rfl⟩

theorem exists_countVotes
    (accounts : Accounts pedigree anchor log choice) (light : choice.balances.sum < weightLimit) :
    ∃ next, choice.countVotes = (.ok (), next) := by
  unfold countVotes
  split
  · exact exists_settle accounts light light _
  · exact ⟨choice, rfl⟩

end ForkChoice

end BeaconChain
