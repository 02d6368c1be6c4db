import BeaconChain.Proofs.ForkChoice.Runs
import Mathlib.Data.List.MinMax

/-!
# Latest messages

The latest message of a validator is the first of its votes in the latest epoch.  The votes are not
kept but for one, which a new vote replaces if its epoch is later, or if there was none before.
That there was none is told by a vote that is blank in all its fields.  Counting changes some of
these fields, and votes of other validators fill up the table with blank ones.  Neither makes a vote
look as if it had not been cast, nor as if it had.
-/

namespace BeaconChain

open BlockTree

variable {preset : Preset}

/-- The earliest of those messages that have the latest epoch. -/
def latestMessage? (preset : Preset) (messages : List NodeRef) : Option NodeRef :=
  messages.argmax fun message => preset.epochOf message.slot

/-- All messages before the message are of earlier epochs, and none after it is of a later one. -/
def IsLatestMessage (preset : Preset) (messages : List NodeRef) (message : NodeRef) : Prop :=
  ∃ before after, messages = before ++ message :: after ∧
    (∀ other ∈ before, preset.epochOf other.slot < preset.epochOf message.slot) ∧
    ∀ other ∈ after, preset.epochOf other.slot ≤ preset.epochOf message.slot

theorem latestMessage?_concat (messages : List NodeRef) (message : NodeRef) :
    latestMessage? preset (messages ++ [message]) =
      match latestMessage? preset messages with
      | none => some message
      | some latest =>
        if preset.epochOf latest.slot < preset.epochOf message.slot then some message
        else some latest := by
  simp only [latestMessage?, List.argmax_concat]
  cases List.argmax (fun message : NodeRef => preset.epochOf message.slot) messages <;> rfl

theorem latestMessage?_eq_none_iff {messages : List NodeRef} :
    latestMessage? preset messages = none ↔ messages = [] :=
  List.argmax_eq_none

theorem mem_of_latestMessage? {messages : List NodeRef} {message : NodeRef}
    (latest : latestMessage? preset messages = some message) : message ∈ messages :=
  List.argmax_mem latest

theorem epochOf_le_of_latestMessage? {messages : List NodeRef} {message other : NodeRef}
    (latest : latestMessage? preset messages = some message) (member : other ∈ messages) :
    preset.epochOf other.slot ≤ preset.epochOf message.slot :=
  List.le_of_mem_argmax (f := fun message : NodeRef => preset.epochOf message.slot) member latest

theorem isLatestMessage_of_latestMessage? {messages : List NodeRef} {message : NodeRef}
    (latest : latestMessage? preset messages = some message) :
    IsLatestMessage preset messages message := by
  induction messages using List.reverseRecOn generalizing message with
  | nil => cases latest
  | append_singleton messages last ih =>
    rw [latestMessage?_concat] at latest
    cases before : latestMessage? preset messages with
    | none =>
      rw [before] at latest
      obtain rfl := latestMessage?_eq_none_iff.1 before
      obtain rfl := Option.some.inj latest
      exact ⟨[], [], rfl, nofun, nofun⟩
    | some incumbent =>
      rw [before] at latest
      dsimp only at latest
      split at latest
      next later =>
        obtain rfl := Option.some.inj latest
        refine ⟨messages, [], rfl, fun other member => ?_, nofun⟩
        exact Nat.lt_of_le_of_lt (epochOf_le_of_latestMessage? before member) later
      next notLater =>
        obtain rfl := Option.some.inj latest
        obtain ⟨earlier, after, rfl, less, notMore⟩ := ih before
        refine ⟨earlier, after ++ [last], by simp, less, fun other member => ?_⟩
        rcases List.mem_append.1 member with old | new
        · exact notMore other old
        · rw [List.mem_singleton.1 new]
          exact Nat.not_lt.1 notLater

namespace Vote

/-- The later vote says the same, and is blank if the earlier one is. -/
structure Rests (vote next : Vote) : Prop where
  heard : next.heard = vote.heard
  blank : vote = .blank → next = .blank

/-- A vote tells of a message if it was cast for it, and of none if it was not cast. -/
def Tells (preset : Preset) (vote : Vote) : Option NodeRef → Prop
  | none => vote = .blank
  | some message => vote.heard = (message, preset.epochOf message.slot)

/-- The vote of a validator that has sent one more message. -/
def hear (preset : Preset) (vote : Vote) (message : NodeRef) : Vote :=
  if vote.latestEpoch < preset.epochOf message.slot ∨ vote = .blank then
    { vote with latest := message, latestEpoch := preset.epochOf message.slot }
  else vote

variable {vote next : Vote}

theorem Rests.refl (vote : Vote) : Rests vote vote :=
  ⟨rfl, id⟩

theorem Tells.rest
    {latest : Option NodeRef} (tells : vote.Tells preset latest) (rests : Rests vote next) :
    next.Tells preset latest := by
  cases latest with
  | none => exact rests.blank tells
  | some message => exact rests.heard.trans tells

/-- A vote that was cast does not look like one that was not, even if it was cast in the first
epoch. -/
theorem Tells.ne_blank
    {message : NodeRef} (tells : vote.Tells preset (some message)) (spoken : message ≠ .zero) :
    vote ≠ .blank := by
  rintro rfl
  exact spoken (congrArg Prod.fst tells).symm

theorem Tells.hear
    {messages : List NodeRef} (tells : vote.Tells preset (latestMessage? preset messages))
    (spoken : .zero ∉ messages) (message : NodeRef) :
    (vote.hear preset message).Tells preset (latestMessage? preset (messages ++ [message])) := by
  rw [latestMessage?_concat]
  cases latest : latestMessage? preset messages with
  | none =>
    rw [latest] at tells
    rw [Vote.hear, if_pos (.inr tells)]
    rfl
  | some incumbent =>
    rw [latest] at tells
    have voted : vote ≠ .blank :=
      tells.ne_blank fun silent => spoken (silent ▸ mem_of_latestMessage? latest)
    have epoch : vote.latestEpoch = preset.epochOf incumbent.slot := congrArg Prod.snd tells
    dsimp only
    by_cases later : preset.epochOf incumbent.slot < preset.epochOf message.slot
    · rw [if_pos later, Vote.hear, if_pos (.inl (epoch ▸ later))]
      rfl
    · rw [if_neg later, Vote.hear, if_neg (not_or.2 ⟨epoch ▸ later, voted⟩)]
      exact tells

end Vote

namespace Ballots

variable (ballots : Ballots preset)

/-- The vote of a validator, which is blank if the table does not reach so far. -/
def voteOf (validator : Nat) : Vote :=
  ballots.votes.getD validator .blank

/-- The vote of a validator, if it has cast one. -/
def recorded? (validator : Nat) : Option Vote :=
  (ballots.vote? validator).filter (· ≠ .blank)

theorem recorded?_eq (validator : Nat) :
    ballots.recorded? validator =
      if ballots.voteOf validator = .blank then none else some (ballots.voteOf validator) := by
  unfold recorded? vote? voteOf
  rw [List.getD_eq_getElem?_getD]
  cases ballots.votes[validator]? with
  | none => rfl
  | some vote => by_cases blank : vote = .blank <;> simp [blank]

theorem getD_extend (votes : List Vote) (count validator : Nat) :
    (votes ++ List.replicate count Vote.blank).getD validator .blank =
      votes.getD validator .blank := by
  simp only [List.getD_eq_getElem?_getD, List.getElem?_append, List.getElem?_replicate]
  split
  next => rfl
  next beyond =>
    rw [List.getElem?_eq_none (Nat.not_lt.1 beyond)]
    split <;> rfl

/-- The vote of one validator is recorded by itself. -/
theorem voteOf_record (validator : Nat) (root : Root) (slot : Nat) :
    (ballots.record validator root slot).voteOf validator =
      (ballots.voteOf validator).hear preset ⟨root, slot⟩ := by
  unfold record Vote.hear voteOf
  dsimp only
  rw [getD_extend]
  split
  next =>
    -- the table is extended just so far that the vote has a place in it
    rw [List.getD_eq_getElem?_getD, List.getElem?_set_self]
    · rfl
    · rw [List.length_append, List.length_replicate]
      omega
  next => rw [getD_extend]

theorem voteOf_record_of_ne
    {validator other : Nat} (different : validator ≠ other) (root : Root) (slot : Nat) :
    (ballots.record validator root slot).voteOf other = ballots.voteOf other := by
  unfold record voteOf
  dsimp only
  split
  next =>
    rw [List.getD_eq_getElem?_getD, List.getElem?_set_ne different, ← List.getD_eq_getElem?_getD,
      getD_extend]
  next => rw [getD_extend]

/-- A vote that tells of a message is recorded, and one that tells of none is not. -/
theorem heard_recorded?
    {validator : Nat} {latest : Option NodeRef}
    (tells : (ballots.voteOf validator).Tells preset latest) (spoken : .zero ∉ latest) :
    (ballots.recorded? validator).map Vote.heard =
      latest.map fun message => (message, preset.epochOf message.slot) := by
  rw [recorded?_eq]
  cases latest with
  | none =>
    rw [if_pos (show ballots.voteOf validator = .blank from tells)]
    rfl
  | some message =>
    rw [if_neg (tells.ne_blank fun silent => spoken (silent ▸ rfl))]
    exact congrArg some tells

theorem blank_of_counted
    {tree : BlockTree} {votes counted : List Vote}
    (counts : List.Forall₂ (Tally.Counted tree) votes counted) (validator : Nat)
    (blank : votes.getD validator .blank = .blank) : counted.getD validator .blank = .blank := by
  induction counts generalizing validator with
  | nil => exact blank
  | cons first _ ih =>
    cases validator with
    | zero => exact first.blank blank
    | succ validator => exact ih validator blank

end Ballots

namespace ForkChoice

variable {choice : ForkChoice preset}

theorem rests_settle
    (wellFormed : WellFormed choice.tree) (balances : List Nat) (stamp : Stamp) (validator : Nat) :
    (choice.ballots.voteOf validator).Rests
      ((choice.settle balances stamp).2.ballots.voteOf validator) where
  heard := Voiced.heard_getD (choice.heard_settle balances stamp) validator
  blank blank := by
    unfold settle
    split
    next => exact blank
    next tallied =>
      split
      next => exact blank
      next => exact Ballots.blank_of_counted (Ballots.counted_of_tally wellFormed tallied) _ blank

theorem rests_countVotes (wellFormed : WellFormed choice.tree) (validator : Nat) :
    (choice.ballots.voteOf validator).Rests (choice.countVotes.2.ballots.voteOf validator) := by
  unfold countVotes
  split
  · exact rests_settle wellFormed _ _ validator
  · exact .refl _

theorem rests_adopt
    {store : Type} (wellFormed : WellFormed choice.tree) (trigger : NodeRef)
    (justified finalized : Checkpoint) (balancesAt : Checkpoint → Except Error (List Nat))
    (receive : NodeReceiver store) (state : store) (validator : Nat) :
    (choice.ballots.voteOf validator).Rests
      ((choice.adopt trigger justified finalized balancesAt receive state).2.1.ballots.voteOf
        validator) := by
  rcases choice.adopt_steps trigger justified finalized balancesAt with
    ⟨outcome, adopts⟩ | ⟨advance, balances, counted, _, _, counts, adopts⟩
  · rw [adopts]
    exact .refl _
  · have settled := rests_settle wellFormed balances
      ⟨advance.justified.epoch, advance.finalized.epoch⟩ validator
    rw [counts] at settled
    rw [adopts]
    split
    · exact settled
    · rw [(finalizeAt_keeps _ _ _ receive state).1]
      exact settled

/-- A vote of a validator for a node. -/
structure Cast where
  validator : Nat
  message : NodeRef
  deriving DecidableEq, Repr

/-- The vote that a call casts, if it is not refused. -/
def Call.cast? {store : Type} : Call store → Answer → Option Cast
  | .recordVote validator root slot, .recorded true => some ⟨validator, root, slot⟩
  | _, _ => none

/-- What a call does to the votes: it records the one that it casts, and leaves what was said as it
is if it casts none. -/
theorem votes_perform
    {store : Type} (wellFormed : WellFormed choice.tree) (call : Call store) (state : store) :
    (call.cast? (choice.perform state call).1 = none ∧ ∀ validator,
      (choice.ballots.voteOf validator).Rests
        ((choice.perform state call).2.1.ballots.voteOf validator)) ∨
    ∃ validator root slot,
      call.cast? (choice.perform state call).1 = some ⟨validator, root, slot⟩ ∧
      (choice.perform state call).2.1.ballots = choice.ballots.record validator root slot := by
  cases call with
  | insertSlots => exact .inl ⟨rfl, fun _ => .refl _⟩
  | insertBlock => exact .inl ⟨rfl, fun _ => .refl _⟩
  | recordVote validator root slot =>
    simp only [perform, ForkChoice.recordVote]
    split
    next => exact .inl ⟨rfl, fun _ => .refl _⟩
    next =>
      split
      next => exact .inr ⟨validator, root, slot, rfl, rfl⟩
      next => exact .inl ⟨rfl, fun _ => .refl _⟩
  | setPin pin =>
    refine .inl ⟨rfl, fun validator => ?_⟩
    simp only [perform, ForkChoice.setPin]
    split <;> exact .refl _
  | clearPin => exact .inl ⟨rfl, fun _ => .refl _⟩
  | head =>
    refine .inl ⟨rfl, fun validator => ?_⟩
    obtain ⟨tree, sought⟩ := choice.exists_tree_head
    simp only [perform, sought]
    exact rests_countVotes wellFormed validator
  | adopt trigger justified finalized balancesAt receive =>
    exact .inl ⟨rfl, rests_adopt wellFormed trigger justified finalized balancesAt
      (recording receive) (state, [])⟩

/-! ## Hearings -/

/-- A fork choice, and the votes that it was sent and did not refuse, in their order. -/
structure Hearing (preset : Preset) where
  choice : ForkChoice preset
  casts : List Cast := []

namespace Hearing

variable {hearing : Hearing preset}

def perform {store : Type} (hearing : Hearing preset) (call : Call store) (state : store) :
    Hearing preset where
  choice := (hearing.choice.perform state call).2.1
  casts := hearing.casts ++ (call.cast? (hearing.choice.perform state call).1).toList

/-- A fork choice that began with one node, and has performed any calls since then. -/
inductive Held : Hearing preset → Prop
  | ofAnchor (anchor : NodeRef) (parentRoot : Root) (justified finalized : Checkpoint)
    (balances : List Nat) :
    Held { choice := .ofAnchor anchor parentRoot justified finalized balances }
  | perform {hearing : Hearing preset} {store : Type} (held : Held hearing) (call : Call store)
    (state : store) : Held (hearing.perform call state)

/-- The messages of one validator. -/
def messagesOf (hearing : Hearing preset) (validator : Nat) : List NodeRef :=
  (hearing.casts.filter (·.validator = validator)).map Cast.message

theorem Held.reachable (held : hearing.Held) : Reachable hearing.choice := by
  induction held with
  | ofAnchor anchor parentRoot justified finalized balances =>
    exact .ofAnchor anchor parentRoot justified finalized balances
  | perform _ call state ih => exact ih.perform call state

/-- One call keeps a vote in line with the messages of its validator. -/
theorem tells_perform
    {store : Type} {validator : Nat} (wellFormed : WellFormed hearing.choice.tree)
    (tells : (hearing.choice.ballots.voteOf validator).Tells preset
      (latestMessage? preset (hearing.messagesOf validator)))
    (spoken : .zero ∉ hearing.messagesOf validator) (call : Call store) (state : store) :
    ((hearing.perform call state).choice.ballots.voteOf validator).Tells preset
      (latestMessage? preset ((hearing.perform call state).messagesOf validator)) := by
  rcases votes_perform wellFormed call state with
    ⟨silent, rests⟩ | ⟨voter, root, slot, cast, recorded⟩
  · have same : (hearing.perform call state).messagesOf validator =
        hearing.messagesOf validator := by
      simp [messagesOf, perform, silent]
    rw [same]
    exact tells.rest (rests validator)
  · change Vote.Tells preset ((hearing.choice.perform state call).2.1.ballots.voteOf validator) _
    rw [recorded]
    by_cases own : voter = validator
    · subst own
      have longer : (hearing.perform call state).messagesOf voter =
          hearing.messagesOf voter ++ [⟨root, slot⟩] := by
        simp [messagesOf, perform, cast]
      rw [longer, Ballots.voteOf_record]
      exact tells.hear spoken ⟨root, slot⟩
    · have same : (hearing.perform call state).messagesOf validator =
          hearing.messagesOf validator := by
        simp [messagesOf, perform, cast, own]
      rw [same, Ballots.voteOf_record_of_ne _ own]
      exact tells

theorem mem_messagesOf_perform
    {store : Type} {validator : Nat} {message : NodeRef}
    (member : message ∈ hearing.messagesOf validator) (call : Call store) (state : store) :
    message ∈ (hearing.perform call state).messagesOf validator := by
  unfold messagesOf perform
  rw [List.filter_append, List.map_append]
  exact List.mem_append_left _ member

/-- Along every run a vote tells of the latest message of its validator. -/
theorem Held.tells
    (held : hearing.Held) {validator : Nat} (spoken : .zero ∉ hearing.messagesOf validator) :
    (hearing.choice.ballots.voteOf validator).Tells preset
      (latestMessage? preset (hearing.messagesOf validator)) := by
  induction held with
  | ofAnchor => rfl
  | perform held call state ih =>
    have before := fun member => spoken (mem_messagesOf_perform member call state)
    exact tells_perform held.reachable.sound.toWellFormed (ih before) before call state

end Hearing

theorem Hearing.Held.heard_recorded?
    {hearing : Hearing preset} (held : hearing.Held) {validator : Nat}
    (spoken : .zero ∉ hearing.messagesOf validator) :
    (hearing.choice.ballots.recorded? validator).map Vote.heard =
      (latestMessage? preset (hearing.messagesOf validator)).map fun message =>
        (message, preset.epochOf message.slot) :=
  Ballots.heard_recorded? _ (held.tells spoken) fun silent => spoken (mem_of_latestMessage? silent)

/-- What is recorded of a validator, if anything, is the first of its votes in the latest epoch,
whatever was done meanwhile and whatever other validators have voted for. -/
theorem latest_message
    {hearing : Hearing preset} (held : hearing.Held) (validator : Nat)
    (spoken : .zero ∉ hearing.messagesOf validator) :
    (hearing.choice.ballots.recorded? validator = none ↔ hearing.messagesOf validator = []) ∧
    (∀ vote, hearing.choice.ballots.recorded? validator = some vote →
      IsLatestMessage preset (hearing.messagesOf validator) vote.latest ∧
        vote.latestEpoch = preset.epochOf vote.latest.slot) ∧
    ∀ other : Hearing preset, other.Held →
      other.messagesOf validator = hearing.messagesOf validator →
        (other.choice.ballots.recorded? validator).map Vote.heard =
          (hearing.choice.ballots.recorded? validator).map Vote.heard := by
  have said := held.heard_recorded? spoken
  refine ⟨?_, fun vote known => ?_, fun other otherHeld same => ?_⟩
  · rw [← latestMessage?_eq_none_iff, ← Option.map_eq_none_iff, said, Option.map_eq_none_iff]
  · rw [known, Option.map_some] at said
    obtain ⟨message, latest, tells⟩ := Option.map_eq_some_iff.1 said.symm
    obtain ⟨named, dated⟩ := Prod.mk.inj tells
    rw [← named, ← dated]
    exact ⟨isLatestMessage_of_latestMessage? latest, rfl⟩
  · rw [otherHeld.heard_recorded? (same ▸ spoken), same, said]

/-- The calls are performed over an anchor with a block after it. -/
def hearingOf (calls : List (Call Unit)) : Hearing .minimal :=
  calls.foldl (fun hearing call => hearing.perform call ())
    (Hearing.perform { choice := .ofAnchor ⟨⟨10⟩, 0⟩ ⟨9⟩ ⟨0, ⟨10⟩⟩ ⟨0, ⟨10⟩⟩ [32, 32] }
      (.insertBlock ⟨10⟩ ⟨11⟩ 1 ⟨1, ⟨11⟩⟩ ⟨1, ⟨11⟩⟩) ())

theorem hearingOf_held (calls : List (Call Unit)) : (hearingOf calls).Held :=
  List.foldlRecOn calls _ (.perform (.ofAnchor _ _ _ _ _) _ ()) fun _ held call _ =>
    held.perform call ()

/-- A validator votes twice in one epoch, among the votes of another one; the votes are counted, and
the anchor is taken out. -/
def busyHearing : Hearing .minimal :=
  hearingOf [.recordVote 1 ⟨11⟩ 1, .head, .recordVote 0 ⟨11⟩ 9, .recordVote 1 ⟨11⟩ 8,
    .recordVote 1 ⟨10⟩ 9,
    .adopt ⟨⟨11⟩, 8⟩ ⟨1, ⟨11⟩⟩ ⟨1, ⟨11⟩⟩ (fun _ => .ok [32, 32]) fun _ _ _ => (.ok (), ()),
    .recordVote 1 ⟨12⟩ 20, .recordVote 1 ⟨11⟩ 3]

/-- The votes of that validator alone, which are never counted. -/
def quietHearing : Hearing .minimal :=
  hearingOf [.recordVote 1 ⟨11⟩ 1, .recordVote 1 ⟨11⟩ 8, .recordVote 1 ⟨10⟩ 9, .recordVote 1 ⟨11⟩ 3]

theorem latest_message_busyHearing :
    busyHearing.messagesOf 1 = [⟨⟨11⟩, 1⟩, ⟨⟨11⟩, 8⟩, ⟨⟨10⟩, 9⟩, ⟨⟨11⟩, 3⟩] ∧
      busyHearing.choice.ballots.recorded? 1 = some ⟨⟨⟨11⟩, 1⟩, ⟨⟨11⟩, 8⟩, 0, 1⟩ ∧
      IsLatestMessage .minimal (busyHearing.messagesOf 1) ⟨⟨11⟩, 8⟩ ∧
      (quietHearing.choice.ballots.recorded? 1).map Vote.heard =
        (busyHearing.choice.ballots.recorded? 1).map Vote.heard ∧
      quietHearing.choice.ballots.recorded? 0 = none := by
  have recorded : busyHearing.choice.ballots.recorded? 1 = some ⟨⟨⟨11⟩, 1⟩, ⟨⟨11⟩, 8⟩, 0, 1⟩ := by
    decide
  obtain ⟨_, latest, alike⟩ := latest_message (hearingOf_held _ : busyHearing.Held) 1 (by decide)
  obtain ⟨silent, _⟩ := latest_message (hearingOf_held _ : quietHearing.Held) 0 (by decide)
  exact ⟨by decide, recorded, (latest _ recorded).1,
    alike quietHearing (hearingOf_held _) (by decide), silent.2 (by decide)⟩

end ForkChoice

end BeaconChain
