import BeaconChain.Proofs.RecentChain.Settle

/-!
# Runs of the recent chain

A run is a sequence of calls in any order, with any receivers.  Besides the chain it has a
log of everything that was handed to a receiver.  Whatever the receivers refuse, what they
accepted as canonical is gapless.
-/

namespace BeaconChain

open BlockTree

namespace RecentChain

variable {preset : Preset} {State Block Context : Type} {rules : Rules State Block Context}
  {inRange : Nat → Prop} {anchor : Entry State Context} {chain : RecentChain preset rules}
  {log : List (Handover State Context)}

/-- The calls that may change a chain.  Every block comes with a receiver of its own. -/
inductive Call (State Block Context : Type) : Type 1 where
  | addBlock {store : Type} (block : Block) (interrupted : List Nat → Bool)
    (receive : EntryReceiver State Context store) (state : store)
  | addAttestation (attestation : Attestation)
  | setPin (pin : NodeRef)
  | clearPin
  | head
  | canonicalChain
  | bySlot (slot : Nat)
  | byStep (step : Step)

/-- The chain after a call. -/
def perform (chain : RecentChain preset rules) :
    Call State Block Context → RecentChain preset rules
  | .addBlock block interrupted receive state =>
    (chain.addBlock block interrupted receive state).2.1
  | .addAttestation attestation => (chain.addAttestation attestation).2
  | .setPin pin => (chain.setPin pin).2
  | .clearPin => chain.clearPin
  | .head => chain.head.2
  | .canonicalChain => chain.canonicalChain.2
  | .bySlot slot => (chain.bySlot? slot).2
  | .byStep step => (chain.byStep? step).2

/-- The log after a call. -/
def noted (chain : RecentChain preset rules) (log : List (Handover State Context)) :
    Call State Block Context → List (Handover State Context)
  | .addBlock block interrupted receive state =>
    (chain.addBlock block interrupted (watching receive) (state, log)).2.2.2
  | _ => log

/-- What comes of a block does not depend on whether its receiver is watched. -/
theorem addBlock_watched
    {store : Type} {next : RecentChain preset rules} {block : Block}
    {interrupted : List Nat → Bool} {receive : EntryReceiver State Context store}
    {state after : store} {outcome : Except Error (Entry State Context)}
    (log : List (Handover State Context))
    (added : chain.addBlock block interrupted receive state = (outcome, next, after)) :
    chain.addBlock block interrupted (watching receive) (state, log) =
      (outcome, next, after, chain.noted log (.addBlock block interrupted receive state)) := by
  obtain ⟨sameOutcome, sameChain, sameState⟩ :=
    addBlock_alike (watching_alike receive) chain block interrupted
      (show (state, log).1 = state from rfl)
  rw [added] at sameOutcome sameChain sameState
  exact Prod.ext sameOutcome (Prod.ext sameChain (Prod.ext sameState rfl))

/-- The chains and logs that permitted calls lead to. -/
inductive Run (permits : RecentChain preset rules → Call State Block Context → Prop)
    (start : RecentChain preset rules) :
    RecentChain preset rules → List (Handover State Context) → Prop
  | start : Run permits start start []
  | call {chain : RecentChain preset rules} {log : List (Handover State Context)}
    (run : Run permits start chain log) (call : Call State Block Context)
    (permitted : permits chain call) : Run permits start (chain.perform call) (chain.noted log call)

/-- The second chain differs from the first in votes, balances, weights and links only. -/
def Recounts (chain next : RecentChain preset rules) : Prop :=
  ∃ choice, chain.choice.Recounted choice ∧ next = { chain with choice := choice }

theorem Recounts.trans
    {counted next : RecentChain preset rules} (first : chain.Recounts counted)
    (second : counted.Recounts next) : chain.Recounts next := by
  obtain ⟨_, recounted, rfl⟩ := first
  obtain ⟨choice, again, rfl⟩ := second
  exact ⟨choice, recounted.trans again, rfl⟩

theorem headNode_recounts (chain : RecentChain preset rules) : chain.Recounts chain.headNode.2 :=
  ⟨_, chain.choice.head_recounted, rfl⟩

theorem head_eq (chain : RecentChain preset rules) : chain.head.2 = chain.headNode.2 := by
  unfold head
  split
  next found =>
    rw [found]
  next found =>
    rw [found]
    split <;> rfl

theorem canonicalChain_eq (chain : RecentChain preset rules) :
    chain.canonicalChain.2 = chain.headNode.2 := by
  unfold canonicalChain
  split
  next found =>
    rw [found]
  next found =>
    rw [found]
    split <;> rfl

theorem head_recounts (chain : RecentChain preset rules) : chain.Recounts chain.head.2 := by
  rw [head_eq]
  exact chain.headNode_recounts

theorem canonicalChain_recounts (chain : RecentChain preset rules) :
    chain.Recounts chain.canonicalChain.2 := by
  rw [canonicalChain_eq]
  exact chain.headNode_recounts

theorem recordVotes_recounted (root : Root) (slot : Nat) :
    ∀ (validators : List Nat) (choice : ForkChoice preset),
      choice.Recounted (recordVotes root slot validators choice).2
  | [], choice => .refl choice
  | validator :: rest, choice =>
    (choice.recordVote_recounted validator root slot).trans (recordVotes_recounted root slot rest _)

theorem addAttestation_recounts (chain : RecentChain preset rules) (attestation : Attestation) :
    chain.Recounts (chain.addAttestation attestation).2 := by
  unfold addAttestation
  split
  next => exact ⟨chain.choice, .refl _, rfl⟩
  next voters _ =>
    exact ⟨_, recordVotes_recounted attestation.data.blockRoot attestation.data.slot voters
      chain.choice, rfl⟩

/-- The second chain has the entries, the nodes and the finalized checkpoints of the first. -/
structure Unmoved (chain next : RecentChain preset rules) : Prop where
  shape : SameShape next.choice.tree chain.choice.tree
  finalized : next.choice.finalized = chain.choice.finalized
  pending : next.choice.pending = chain.choice.pending
  pool : next.pool = chain.pool

theorem Recounts.unmoved {next : RecentChain preset rules} (recounts : chain.Recounts next) :
    chain.Unmoved next := by
  obtain ⟨choice, recounted, rfl⟩ := recounts
  exact ⟨recounted.shape, recounted.finalized, recounted.pending, rfl⟩

theorem setPin_unmoved (chain : RecentChain preset rules) (pin : NodeRef) :
    chain.Unmoved (chain.setPin pin).2 := by
  unfold RecentChain.setPin ForkChoice.setPin
  by_cases present : chain.choice.tree.contains pin = true
  · rw [if_pos present]
    exact ⟨.refl _, rfl, rfl, rfl⟩
  · rw [if_neg present]
    exact ⟨.refl _, rfl, rfl, rfl⟩

/-- Nothing is moved by a call that adds no block. -/
theorem perform_unmoved
    (chain : RecentChain preset rules) {call : Call State Block Context}
    (noBlock : ∀ {store : Type} (block : Block) (interrupted : List Nat → Bool)
      (receive : EntryReceiver State Context store) (state : store),
      call ≠ .addBlock block interrupted receive state) : chain.Unmoved (chain.perform call) := by
  cases call with
  | addBlock block interrupted receive state =>
    exact absurd rfl (noBlock block interrupted receive state)
  | addAttestation attestation => exact (chain.addAttestation_recounts attestation).unmoved
  | setPin pin => exact chain.setPin_unmoved pin
  | clearPin => exact ⟨.refl _, rfl, rfl, rfl⟩
  | head => exact chain.head_recounts.unmoved
  | canonicalChain => exact chain.canonicalChain_recounts.unmoved
  | bySlot slot => exact chain.canonicalChain_recounts.unmoved
  | byStep step => exact chain.canonicalChain_recounts.unmoved

namespace GoesOn

theorem recounts
    {next : RecentChain preset rules} (goesOn : GoesOn inRange anchor chain log)
    (recounts : chain.Recounts next) : GoesOn inRange anchor next log := by
  obtain ⟨choice, recounted, rfl⟩ := recounts
  exact goesOn.recounted recounted

theorem setPin (goesOn : GoesOn inRange anchor chain log) (pin : NodeRef) :
    GoesOn inRange anchor (chain.setPin pin).2 log := by
  unfold RecentChain.setPin ForkChoice.setPin
  by_cases present : chain.choice.tree.contains pin = true
  · rw [if_pos present]
    exact goesOn
  · rw [if_neg present]
    exact goesOn

theorem clearPin (goesOn : GoesOn inRange anchor chain log) :
    GoesOn inRange anchor chain.clearPin log :=
  goesOn

theorem addBlock_noted
    {store : Type} (goesOn : GoesOn inRange anchor chain log) (block : Block)
    (interrupted : List Nat → Bool) (receive : EntryReceiver State Context store) (state : store)
    (allowed : ∀ slot ≤ rules.blockSlot block, inRange slot) :
    GoesOn inRange anchor (chain.addBlock block interrupted receive state).2.1
      (chain.noted log (.addBlock block interrupted receive state)) := by
  rw [← addBlock_watching chain block interrupted receive state log]
  exact goesOn.addBlock allowed rfl

theorem perform
    (goesOn : GoesOn inRange anchor chain log) (call : Call State Block Context)
    (allowed : ∀ {store : Type} {block : Block} {interrupted : List Nat → Bool}
      {receive : EntryReceiver State Context store} {state : store},
      call = .addBlock block interrupted receive state →
        ∀ slot ≤ rules.blockSlot block, inRange slot) :
    GoesOn inRange anchor (chain.perform call) (chain.noted log call) := by
  cases call with
  | addBlock block interrupted receive state =>
    exact goesOn.addBlock_noted block interrupted receive state (allowed rfl)
  | addAttestation attestation => exact goesOn.recounts (chain.addAttestation_recounts attestation)
  | setPin pin => exact goesOn.setPin pin
  | clearPin => exact goesOn.clearPin
  | head => exact goesOn.recounts chain.head_recounts
  | canonicalChain => exact goesOn.recounts chain.canonicalChain_recounts
  | bySlot slot => exact goesOn.recounts chain.canonicalChain_recounts
  | byStep step => exact goesOn.recounts chain.canonicalChain_recounts

end GoesOn

theorem Run.goesOn
    {permits : RecentChain preset rules → Call State Block Context → Prop}
    {start : RecentChain preset rules} (run : Run permits start chain log)
    (begins : GoesOn inRange anchor start [])
    (allowed : ∀ {chain : RecentChain preset rules} {store : Type} {block : Block}
      {interrupted : List Nat → Bool} {receive : EntryReceiver State Context store} {state : store},
      permits chain (.addBlock block interrupted receive state) →
        ∀ slot ≤ rules.blockSlot block, inRange slot) : GoesOn inRange anchor chain log := by
  induction run with
  | start => exact begins
  | call _ call permitted ih =>
    apply ih.perform call
    intro store block interrupted receive state same
    subst same
    exact allowed permitted

end RecentChain

end BeaconChain
