import BeaconChain.Proofs.ForkChoice.Pin
import BeaconChain.Proofs.ForkChoice.Alike

/-!
# Votes that were cast

A fork choice takes the name of no node for a validator that has not voted.  No node that can be
voted for has this name, so that whether a validator has voted shows in what it said last, and not
only in what was counted.
-/

namespace BeaconChain

open BlockTree

/-- No vote was cast for the name that stands for no vote. -/
def Voiced (votes : List Vote) : Prop :=
  ∀ vote ∈ votes, vote = .blank ∨ vote.latest ≠ .zero

namespace Voiced

variable {votes others : List Vote}

/-- Whether a vote was cast shows in what was said. -/
theorem eq_blank_iff {vote : Vote} (voiced : vote = .blank ∨ vote.latest ≠ .zero) :
    vote = .blank ↔ vote.latest = .zero := by
  constructor
  · rintro rfl
    rfl
  · exact fun silent => voiced.resolve_right fun spoken => spoken silent

/-- Votes that say the same are replaced by the same later ones. -/
theorem replaced_iff
    {vote other : Vote} (heard : vote.heard = other.heard)
    (voiced : vote = .blank ∨ vote.latest ≠ .zero)
    (otherVoiced : other = .blank ∨ other.latest ≠ .zero) (epoch : Nat) :
    vote.latestEpoch < epoch ∨ vote = .blank ↔ other.latestEpoch < epoch ∨ other = .blank := by
  have sameLatest : vote.latest = other.latest := congrArg Prod.fst heard
  have sameEpoch : vote.latestEpoch = other.latestEpoch := congrArg Prod.snd heard
  rw [eq_blank_iff voiced, eq_blank_iff otherVoiced, sameLatest, sameEpoch]

theorem heard_getD
    (heard : votes.map Vote.heard = others.map Vote.heard) (validator : Nat) :
    (votes.getD validator .blank).heard = (others.getD validator .blank).heard := by
  have here := congrArg (fun said => said.getD validator Vote.blank.heard) heard
  simpa only [List.getD_eq_getElem?_getD, List.getElem?_map, Option.getD_map] using here

theorem getD (voiced : Voiced votes) (validator : Nat) :
    votes.getD validator .blank = .blank ∨ (votes.getD validator .blank).latest ≠ .zero := by
  rw [List.getD_eq_getElem?_getD]
  cases here : votes[validator]? with
  | none => exact .inl rfl
  | some vote => exact voiced vote (List.mem_of_getElem? here)

theorem extend (voiced : Voiced votes) (count : Nat) :
    Voiced (votes ++ List.replicate count .blank) := by
  intro vote member
  rcases List.mem_append.1 member with old | new
  · exact voiced vote old
  · exact .inl (List.eq_of_mem_replicate new)

theorem set
    (voiced : Voiced votes) (validator : Nat) {cast : Vote} (spoken : cast.latest ≠ .zero) :
    Voiced (votes.set validator cast) := by
  intro vote member
  rcases List.mem_or_eq_of_mem_set member with old | rfl
  · exact voiced vote old
  · exact .inr spoken

theorem counted
    {tree : BlockTree} (voiced : Voiced votes)
    (counts : List.Forall₂ (Tally.Counted tree) votes others) : Voiced others := by
  intro vote member
  obtain ⟨before, beforeMember, counted⟩ := exists_of_mem_counted counts vote member
  rw [counted.latest]
  exact (voiced before beforeMember).imp_left counted.blank

end Voiced

namespace Ballots

variable {preset : Preset} {ballots other : Ballots preset}

theorem voiced_record
    (voiced : Voiced ballots.votes) (validator : Nat) {root : Root} {slot : Nat}
    (spoken : (⟨root, slot⟩ : NodeRef) ≠ .zero) :
    Voiced (ballots.record validator root slot).votes := by
  have extended := voiced.extend (validator + 1 - ballots.votes.length)
  unfold record
  dsimp only
  split
  · exact extended.set validator spoken
  · exact extended

/-- Whether a vote is accepted depends on nothing but what was said before. -/
theorem heard_record
    (heard : ballots.votes.map Vote.heard = other.votes.map Vote.heard)
    (voiced : Voiced ballots.votes) (otherVoiced : Voiced other.votes) (validator : Nat)
    (root : Root) (slot : Nat) :
    (ballots.record validator root slot).votes.map Vote.heard =
      (other.record validator root slot).votes.map Vote.heard := by
  have sameLength : ballots.votes.length = other.votes.length := by
    simpa using congrArg List.length heard
  have extended := voiced.extend (validator + 1 - other.votes.length)
  have otherExtended := otherVoiced.extend (validator + 1 - other.votes.length)
  have extendedHeard : (ballots.votes ++ List.replicate (validator + 1 - other.votes.length)
      Vote.blank).map Vote.heard =
        (other.votes ++ List.replicate (validator + 1 - other.votes.length) Vote.blank).map
          Vote.heard := by
    rw [List.map_append, List.map_append, heard]
  unfold record
  dsimp only
  rw [sameLength]
  generalize ballots.votes ++ List.replicate (validator + 1 - other.votes.length) Vote.blank =
    votes at *
  generalize other.votes ++ List.replicate (validator + 1 - other.votes.length) Vote.blank =
    others at *
  have sameTest := Voiced.replaced_iff (Voiced.heard_getD extendedHeard validator)
    (extended.getD validator) (otherExtended.getD validator) (preset.epochOf slot)
  by_cases accepted : (votes.getD validator .blank).latestEpoch < preset.epochOf slot ∨
      votes.getD validator .blank = .blank
  · rw [if_pos accepted, if_pos (sameTest.1 accepted), List.map_set, List.map_set, extendedHeard]
    rfl
  · rw [if_neg accepted, if_neg (accepted ∘ sameTest.2)]
    exact extendedHeard

end Ballots

namespace ForkChoice

variable {preset : Preset} {choice : ForkChoice preset} {pedigree : Pedigree}

/-- An adoption changes nothing, or counts the votes and goes on as it was decided. -/
theorem adopt_steps
    (choice : ForkChoice preset) (trigger : NodeRef) (justified finalized : Checkpoint)
    (balancesAt : Checkpoint → Except Error (List Nat)) :
    (∃ outcome, ∀ {store : Type} (receive : NodeReceiver store) (state : store),
      choice.adopt trigger justified finalized balancesAt receive state =
        (outcome, choice, state)) ∨
    ∃ advance balances counted,
      choice.advance? trigger justified finalized = .ok (some advance) ∧
      balancesAt advance.justified = .ok balances ∧
      choice.settle balances ⟨advance.justified.epoch, advance.finalized.epoch⟩ =
        (.ok (), counted) ∧
      ∀ {store : Type} (receive : NodeReceiver store) (state : store),
        choice.adopt trigger justified finalized balancesAt receive state =
          match advance.pruneAt with
          | none => (.ok (), { counted with justified := advance.justified }, state)
          | some anchor =>
            { counted with justified := advance.justified }.finalizeAt advance.finalized anchor
              receive state := by
  cases decided : choice.advance? trigger justified finalized with
  | error error => exact .inl ⟨.error error, fun receive state => by simp only [adopt, decided]⟩
  | ok plan =>
    cases plan with
    | none => exact .inl ⟨.ok (), fun receive state => by simp only [adopt, decided]⟩
    | some advance =>
      cases known : balancesAt advance.justified with
      | error error =>
        exact .inl ⟨.error error, fun receive state => by simp only [adopt, decided, known]⟩
      | ok balances =>
        rcases counts : choice.settle balances
          ⟨advance.justified.epoch, advance.finalized.epoch⟩ with ⟨outcome, counted⟩
        cases outcome with
        | error error =>
          cases eq_of_settle_error counts
          exact .inl ⟨.error error, fun receive state => by
            simp only [adopt, decided, known, counts]⟩
        | ok =>
          refine .inr ⟨advance, balances, counted, rfl, known, counts, fun receive state => ?_⟩
          cases planned : advance.pruneAt with
          | none => simp only [adopt, decided, known, counts, planned]
          | some anchor => simp only [adopt, decided, known, counts, planned]

theorem voiced_settle
    (wellFormed : WellFormed choice.tree) (voiced : Voiced choice.ballots.votes)
    (balances : List Nat) (stamp : Stamp) :
    Voiced (choice.settle balances stamp).2.ballots.votes := by
  unfold settle
  split
  next => exact voiced
  next tally tallied =>
    split
    next => exact voiced
    next => exact voiced.counted (Ballots.counted_of_tally wellFormed tallied)

theorem voiced_countVotes
    (wellFormed : WellFormed choice.tree) (voiced : Voiced choice.ballots.votes) :
    Voiced choice.countVotes.2.ballots.votes := by
  unfold countVotes
  split
  · exact voiced_settle wellFormed voiced _ _
  · exact voiced

/-- Beyond the votes that it counts, a search for the head changes the tree alone. -/
theorem exists_tree_head (choice : ForkChoice preset) :
    ∃ tree, choice.head.2 = { choice.countVotes.2 with tree := tree } := by
  unfold head
  split
  next failed => exact ⟨_, by rw [failed]⟩
  next counts =>
    rw [counts]
    split
    · exact ⟨_, rfl⟩
    · exact ⟨_, rfl⟩

/-- The removal of nodes touches neither votes nor balances. -/
theorem finalizeAt_keeps
    {store : Type} (choice : ForkChoice preset) (finalized : Checkpoint) (anchor : NodeRef)
    (receive : NodeReceiver store) (state : store) :
    (choice.finalizeAt finalized anchor receive state).2.1.ballots = choice.ballots ∧
      (choice.finalizeAt finalized anchor receive state).2.1.balances = choice.balances := by
  unfold finalizeAt
  split
  · exact ⟨rfl, rfl⟩
  · exact ⟨rfl, rfl⟩

theorem Reached.reachable (reached : Reached pedigree choice) : Reachable choice := by
  induction reached with
  | ofAnchor anchor parentRoot justified finalized balances =>
    exact .ofAnchor anchor parentRoot justified finalized balances
  | insertSlots _ root slot justified finalized ih =>
    exact ih.insertSlots root slot justified finalized
  | insertBlock _ parentRoot root slot justified finalized _ ih =>
    exact ih.insertBlock parentRoot root slot justified finalized
  | recordVote _ validator root slot ih => exact ih.recordVote validator root slot
  | setPin _ pin ih => exact ih.setPin pin
  | clearPin _ ih => exact ih.clearPin
  | head _ ih => exact ih.head
  | adopt _ trigger justified finalized balancesAt receive state ih =>
    exact ih.adopt trigger justified finalized balancesAt receive state

theorem Reached.voiced (reached : Reached pedigree choice) : Voiced choice.ballots.votes := by
  induction reached with
  | ofAnchor => exact fun vote member => absurd member List.not_mem_nil
  | insertSlots _ _ _ _ _ ih => exact ih
  | insertBlock _ _ _ _ _ _ _ ih => exact ih
  | @recordVote choice before validator root slot ih =>
    unfold ForkChoice.recordVote
    split
    next => exact ih
    next earliest known =>
      split
      next notLater =>
        refine Ballots.voiced_record ih validator ?_
        -- the block of the root is not later than the vote, and is not the zero name itself
        rintro isZero
        obtain ⟨rfl, rfl⟩ := NodeRef.mk.inj isZero
        obtain rfl := Nat.le_zero.1 notLater
        obtain ⟨anchor, log, accounts⟩ := before.accounts
        obtain ⟨_, node, here, named, _⟩ := accounts.wellFormed.earliestSlot?_eq_some_iff.1 known
        exact accounts.chronicle.ref_ne_zero node (List.mem_of_getElem? here) named
      next => exact ih
  | setPin _ _ ih =>
    unfold ForkChoice.setPin
    split
    · exact ih
    · exact ih
  | clearPin _ ih => exact ih
  | @head choice before ih =>
    obtain ⟨tree, sought⟩ := choice.exists_tree_head
    rw [sought]
    exact voiced_countVotes before.reachable.sound.toWellFormed ih
  | @adopt choice store before trigger justified finalized balancesAt receive state ih =>
    rcases choice.adopt_steps trigger justified finalized balancesAt with
      ⟨outcome, adopts⟩ | ⟨advance, balances, counted, _, _, counts, adopts⟩
    · rw [adopts]
      exact ih
    · have settled := voiced_settle before.reachable.sound.toWellFormed ih balances
        ⟨advance.justified.epoch, advance.finalized.epoch⟩
      rw [counts] at settled
      rw [adopts]
      split
      · exact settled
      · rw [(finalizeAt_keeps _ _ _ receive state).1]
        exact settled

end ForkChoice

end BeaconChain
