import BeaconChain.Proofs.ForkChoice.Matching
import BeaconChain.Proofs.ForkChoice.Outcomes

/-!
# Runs of a fork choice

A run makes one call after another, and every call may fail.  Whatever a call does, the fork choice
that it leads to can be reached, and its balances are in the range of weights if those before the
call and those that the call was given are.
-/

namespace BeaconChain

open BlockTree

namespace ForkChoice

variable {preset : Preset} {choice : ForkChoice preset} {pedigree : Pedigree}

/-- A call of a fork choice.  The receiver of an adoption has a state of its own. -/
inductive Call (store : Type) where
  | insertSlots (root : Root) (slot : Nat) (justified finalized : Checkpoint)
  | insertBlock (parentRoot root : Root) (slot : Nat) (justified finalized : Checkpoint)
  | recordVote (validator : Nat) (root : Root) (slot : Nat)
  | setPin (pin : NodeRef)
  | clearPin
  | head
  | adopt (trigger : NodeRef) (justified finalized : Checkpoint)
    (balancesAt : Checkpoint → Except Error (List Nat)) (receive : NodeReceiver store)

/-- What a caller can see of a call; of an adoption also what the receiver was offered. -/
inductive Answer where
  | inserted (done : Bool)
  | recorded (done : Bool)
  | pinned (outcome : Except Error Unit)
  | unpinned
  | found (outcome : Except Error NodeRef)
  | adopted (outcome : Except Error Unit) (offers : List Offer)

/-- No receiver has refused a node. -/
def Answer.Unrefused : Answer → Prop
  | adopted _ offers => ∀ offer ∈ offers, offer.answer = .ok ()
  | _ => True

instance : DecidablePred Answer.Unrefused
  | .adopted _ offers => inferInstanceAs (Decidable (∀ offer ∈ offers, offer.answer = .ok ()))
  | .inserted _ | .recorded _ | .pinned _ | .unpinned | .found _ => .isTrue trivial

/-- A block agrees with the pedigree, and balances are in the range of weights. -/
def Call.Lawful {store : Type} (pedigree : Pedigree) : Call store → Prop
  | insertBlock parentRoot root slot _ _ => pedigree.Admits parentRoot root slot
  | adopt _ _ _ balancesAt _ => ∀ checkpoint balances, balancesAt checkpoint = .ok balances →
    balances.sum < weightLimit
  | _ => True

/-- A block agrees with the pedigree, and the balances that an adoption comes to be given, if it
asks for any and is not refused them, are in the range of weights. -/
def Call.Covered {store : Type} (pedigree : Pedigree) (choice : ForkChoice preset) :
    Call store → Prop
  | insertBlock parentRoot root slot _ _ => pedigree.Admits parentRoot root slot
  | adopt trigger justified finalized balancesAt _ => ∀ advance balances,
    choice.advance? trigger justified finalized = .ok (some advance) →
    balancesAt advance.justified = .ok balances → balances.sum < weightLimit
  | _ => True

theorem Call.Lawful.covered
    {store : Type} {call : Call store} (lawful : call.Lawful pedigree) :
    call.Covered pedigree choice := by
  cases call with
  | insertBlock => exact lawful
  | adopt => exact fun advance balances _ known => lawful advance.justified balances known
  | _ => trivial

section Runs

variable {store : Type}

def perform (choice : ForkChoice preset) (state : store) :
    Call store → Answer × ForkChoice preset × store
  | .insertSlots root slot justified finalized =>
    let (done, next) := choice.insertSlots root slot justified finalized
    (.inserted done, next, state)
  | .insertBlock parentRoot root slot justified finalized =>
    let (done, next) := choice.insertBlock parentRoot root slot justified finalized
    (.inserted done, next, state)
  | .recordVote validator root slot =>
    let (done, next) := choice.recordVote validator root slot
    (.recorded done, next, state)
  | .setPin pin =>
    let (outcome, next) := choice.setPin pin
    (.pinned outcome, next, state)
  | .clearPin => (.unpinned, choice.clearPin, state)
  | .head =>
    let (outcome, next) := choice.head
    (.found outcome, next, state)
  | .adopt trigger justified finalized balancesAt receive =>
    let (outcome, next, after, offers) :=
      choice.adopt trigger justified finalized balancesAt (recording receive) (state, [])
    (.adopted outcome offers, next, after)

/-- The answers of a run, and what it leads to.  A step that is no call of the run asks for the
head, and its answer is not looked at. -/
def run (choice : ForkChoice preset) (state : store) :
    List (Option (Call store)) → List Answer × ForkChoice preset × store
  | [] => ([], choice, state)
  | none :: rest => run choice.head.2 state rest
  | some call :: rest =>
    let (answer, next, after) := choice.perform state call
    let (answers, last) := run next after rest
    (answer :: answers, last)

theorem balances_of_adopt
    {trigger : NodeRef} {justified finalized : Checkpoint}
    {balancesAt : Checkpoint → Except Error (List Nat)} (light : choice.balances.sum < weightLimit)
    (newLight : ∀ advance balances,
      choice.advance? trigger justified finalized = .ok (some advance) →
      balancesAt advance.justified = .ok balances → balances.sum < weightLimit)
    (receive : NodeReceiver store) (state : store) :
    (choice.adopt trigger justified finalized balancesAt receive state).2.1.balances.sum <
      weightLimit := by
  rcases choice.adopt_steps trigger justified finalized balancesAt with
    ⟨outcome, adopts⟩ | ⟨advance, balances, counted, decided, known, counts, adopts⟩
  · rw [adopts]
    exact light
  · have sameBalances := balances_settle counts
    rw [adopts]
    split
    · rw [show _ = balances from sameBalances]
      exact newLight advance balances decided known
    · rw [(finalizeAt_keeps _ _ _ receive state).2, show _ = balances from sameBalances]
      exact newLight advance balances decided known

theorem balances_recordVote (choice : ForkChoice preset) (validator : Nat) (root : Root)
    (slot : Nat) : (choice.recordVote validator root slot).2.balances = choice.balances := by
  unfold ForkChoice.recordVote
  split
  · rfl
  · split <;> rfl

theorem setPin_keeps (choice : ForkChoice preset) (pin : NodeRef) :
    (choice.setPin pin).2.balances = choice.balances ∧
      (choice.setPin pin).2.pending = choice.pending := by
  unfold ForkChoice.setPin
  split
  · exact ⟨rfl, rfl⟩
  · exact ⟨rfl, rfl⟩

theorem Reachable.perform
    (reachable : Reachable choice) (call : Call store) (state : store) :
    Reachable (choice.perform state call).2.1 := by
  cases call with
  | insertSlots root slot justified finalized =>
    exact reachable.insertSlots root slot justified finalized
  | insertBlock parentRoot root slot justified finalized =>
    exact reachable.insertBlock parentRoot root slot justified finalized
  | recordVote validator root slot => exact reachable.recordVote validator root slot
  | setPin pin => exact reachable.setPin pin
  | clearPin => exact reachable.clearPin
  | head => exact reachable.head
  | adopt trigger justified finalized balancesAt receive =>
    exact reachable.adopt trigger justified finalized balancesAt (recording receive) (state, [])

/-- Every call leads to a fork choice that can be reached, with the same pedigree. -/
theorem Reached.perform
    {call : Call store} {state : store} (reached : Reached pedigree choice)
    (covered : call.Covered pedigree choice) :
    Reached pedigree (choice.perform state call).2.1 := by
  cases call with
  | insertSlots root slot justified finalized =>
    exact reached.insertSlots root slot justified finalized
  | insertBlock parentRoot root slot justified finalized =>
    exact reached.insertBlock parentRoot root slot justified finalized covered
  | recordVote validator root slot => exact reached.recordVote validator root slot
  | setPin pin => exact reached.setPin pin
  | clearPin => exact reached.clearPin
  | head => exact reached.head
  | adopt trigger justified finalized balancesAt receive =>
    exact reached.adopt trigger justified finalized balancesAt (recording receive) (state, [])

/-- No call leads to balances beyond the range of weights that it was not given. -/
theorem light_perform
    {call : Call store} {state : store} (light : choice.balances.sum < weightLimit)
    (covered : call.Covered pedigree choice) :
    (choice.perform state call).2.1.balances.sum < weightLimit := by
  cases call with
  | insertSlots => exact light
  | insertBlock => exact light
  | recordVote validator root slot =>
    change (choice.recordVote validator root slot).2.balances.sum < weightLimit
    rwa [balances_recordVote]
  | setPin pin =>
    change (choice.setPin pin).2.balances.sum < weightLimit
    rwa [(choice.setPin_keeps pin).1]
  | clearPin => exact light
  | head =>
    change choice.head.2.balances.sum < weightLimit
    rwa [(head_matches choice).balances]
  | adopt trigger justified finalized balancesAt receive =>
    exact balances_of_adopt light covered (recording receive) (state, [])

end Runs

end ForkChoice

end BeaconChain
