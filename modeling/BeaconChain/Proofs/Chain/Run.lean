import BeaconChain.Chain.Walk
import BeaconChain.Proofs.Archive.Continuity
import BeaconChain.Proofs.RecentChain.Run

/-!
# Runs of the whole chain

A run of the whole chain is a sequence of calls in any order.  The contents of the state
store may change at any time by another hand.  The log lists what the archive was offered.
-/

namespace BeaconChain.Chain

variable {preset : Preset} {State Block Context contents : Type}
  {rules : Rules State Block Context} {store : StateStore contents State}

/-- The calls that may change a chain, and the changes to its state store that are not
made by calls. -/
inductive Call (Block contents : Type) where
  | addBlock (block : Block) (interrupted : List Nat → Bool)
  | addAttestation (attestation : Attestation)
  | setPin (pin : NodeRef)
  | clearPin
  | head
  | bySlot (slot : Nat)
  | byStep (step : Step)
  | walk
  | restock (contents : contents)

/-- The chain after a call. -/
def perform (chain : Chain preset rules store) : Call Block contents → Chain preset rules store
  | .addBlock block interrupted => (chain.addBlock block interrupted).2
  | .addAttestation attestation => (chain.addAttestation attestation).2
  | .setPin pin => (chain.setPin pin).2
  | .clearPin => chain.clearPin
  | .head => chain.head.2
  | .bySlot slot => (chain.bySlot? slot).2
  | .byStep step => (chain.byStep? step).2
  | .walk => chain.walk.2
  | .restock contents => { chain with archive := { chain.archive with contents := contents } }

/-- The log after a call: what the archive was offered, and its answers. -/
def noted (chain : Chain preset rules store) (log : List (Handover State Context)) :
    Call Block contents → List (Handover State Context)
  | .addBlock block interrupted =>
    chain.recent.noted log (.addBlock block interrupted Archive.receive chain.archive)
  | _ => log

/-- The chains and logs that permitted calls lead to. -/
inductive Run (permits : Chain preset rules store → Call Block contents → Prop)
    (start : Chain preset rules store) :
    Chain preset rules store → List (Handover State Context) → Prop
  | start : Run permits start start []
  | call {chain : Chain preset rules store} {log : List (Handover State Context)}
    (run : Run permits start chain log) (call : Call Block contents)
    (permitted : permits chain call) : Run permits start (chain.perform call) (chain.noted log call)

/-- A walk asks for the head, and then for the canonical chain. -/
theorem walk_asks (chain : Chain preset rules store) :
    chain.walk.2 = { chain with recent := chain.recent.head.2 } ∨
      chain.walk.2 = { chain with recent := chain.recent.head.2.canonicalChain.2 } := by
  unfold walk
  split
  next found => exact .inl (by rw [found])
  next found =>
    split
    · exact .inl (by rw [found])
    · exact .inr (by rw [found])

theorem walk_recounts (chain : Chain preset rules store) :
    ∃ recent, chain.recent.Recounts recent ∧ chain.walk.2 = { chain with recent := recent } := by
  have headRecounts := chain.recent.head_recounts
  rcases chain.walk_asks with same | same
  · exact ⟨_, headRecounts, same⟩
  · exact ⟨_, headRecounts.trans (RecentChain.canonicalChain_recounts _), same⟩

/-- What holds of a chain and its log at the start, and is kept by counting votes, by pins,
by changes to the state store and by blocks, holds throughout a run. -/
theorem Run.keeps
    {permits : Chain preset rules store → Call Block contents → Prop}
    {start chain : Chain preset rules store} {log : List (Handover State Context)}
    (run : Run permits start chain log)
    (Invariant : Chain preset rules store → List (Handover State Context) → Prop)
    (begins : Invariant start [])
    (recounts : ∀ chain log recent, Invariant chain log → chain.recent.Recounts recent →
      Invariant { chain with recent := recent } log)
    (pins : ∀ chain log pin, permits chain (.setPin pin) → Invariant chain log →
      Invariant (chain.setPin pin).2 log)
    (unpins : ∀ chain log, Invariant chain log → Invariant chain.clearPin log)
    (restocks : ∀ chain log contents, permits chain (.restock contents) → Invariant chain log →
      Invariant { chain with archive := { chain.archive with contents := contents } } log)
    (adds : ∀ chain log block interrupted, permits chain (.addBlock block interrupted) →
      Invariant chain log → Invariant (chain.addBlock block interrupted).2
        (chain.noted log (.addBlock block interrupted))) : Invariant chain log := by
  induction run with
  | start => exact begins
  | @call chain log _ call permitted ih =>
    cases call with
    | addBlock block interrupted => exact adds chain log block interrupted permitted ih
    | addAttestation attestation =>
      exact recounts chain log _ ih (chain.recent.addAttestation_recounts attestation)
    | setPin pin => exact pins chain log pin permitted ih
    | clearPin => exact unpins chain log ih
    | head => exact recounts chain log _ ih chain.recent.head_recounts
    | bySlot slot => exact recounts chain log _ ih chain.recent.canonicalChain_recounts
    | byStep step => exact recounts chain log _ ih chain.recent.canonicalChain_recounts
    | walk =>
      obtain ⟨recent, recounted, same⟩ := chain.walk_recounts
      rw [perform, same]
      exact recounts chain log recent ih recounted
    | restock contents => exact restocks chain log contents permitted ih

/-- A run of the whole chain is a run of its recent part, which adds blocks with the archive as
the receiver. -/
theorem Run.recent
    {permits : Chain preset rules store → Call Block contents → Prop}
    {allows : RecentChain.Call State Block Context → Prop}
    {start chain : Chain preset rules store} {log : List (Handover State Context)}
    (run : Run permits start chain log)
    (blocks : ∀ chain block interrupted, permits chain (.addBlock block interrupted) →
      allows (.addBlock block interrupted Archive.receive chain.archive))
    (others : ∀ call, (∀ {store : Type} (block : Block) (interrupted : List Nat → Bool)
      (receive : EntryReceiver State Context store) (state : store),
      call ≠ .addBlock block interrupted receive state) → allows call) :
    RecentChain.Run (fun _ => allows) start.recent chain.recent log := by
  induction run with
  | start => exact .start
  | @call chain log _ call permitted ih =>
    cases call with
    | addBlock block interrupted =>
      exact ih.call (.addBlock block interrupted Archive.receive chain.archive)
        (blocks chain block interrupted permitted)
    | addAttestation attestation => exact ih.call (.addAttestation attestation) (others _ nofun)
    | setPin pin => exact ih.call (.setPin pin) (others _ nofun)
    | clearPin => exact ih.call .clearPin (others _ nofun)
    | head => exact ih.call .head (others _ nofun)
    | bySlot slot => exact ih.call (.bySlot slot) (others _ nofun)
    | byStep step => exact ih.call (.byStep step) (others _ nofun)
    | restock contents => exact ih
    | walk =>
      have withHead := ih.call .head (others _ nofun)
      rcases chain.walk_asks with same | same
      · rw [perform, same]
        exact withHead
      · rw [perform, same]
        exact withHead.call .canonicalChain (others _ nofun)

end BeaconChain.Chain
