import BeaconChain.Proofs.ForkChoice.Weights
import BeaconChain.Proofs.RecentChain.Custody

/-!
# The fork choice of a chain

Whatever is called on a chain, its fork choice changes by calls of the fork choice only.  What all
of them keep is therefore kept by the chain, such as that its weights are accounted for.
-/

namespace BeaconChain

variable {preset : Preset} {State Block Context store : Type} {rules : Rules State Block Context}

/-- What holds of a fork choice after every call if it has held before, where the slots, the blocks
and the voters are permitted ones. -/
structure ForkChoice.Stable (slots : Nat → Prop) (blocks : Root → Root → Nat → Prop)
    (voters : Nat → Prop) (Holds : ForkChoice preset → Prop) : Prop where
  insertSlots : ∀ choice root slot justified finalized, Holds choice → slots slot →
    Holds (choice.insertSlots root slot justified finalized).2
  insertBlock : ∀ choice parentRoot root slot justified finalized, Holds choice →
    blocks parentRoot root slot →
    Holds (choice.insertBlock parentRoot root slot justified finalized).2
  recordVote : ∀ choice validator root slot, Holds choice → voters validator →
    Holds (choice.recordVote validator root slot).2
  setPin : ∀ choice pin, Holds choice → Holds (choice.setPin pin).2
  clearPin : ∀ choice, Holds choice → Holds choice.clearPin
  head : ∀ choice, Holds choice → Holds choice.head.2
  adopt : ∀ {store : Type} choice trigger justified finalized balancesAt
    (receive : NodeReceiver store) (state : store), Holds choice →
    Holds (choice.adopt trigger justified finalized balancesAt receive state).2.1

namespace ForkChoice.Stable

open RecentChain

variable {slots voters : Nat → Prop} {blocks : Root → Root → Nat → Prop}
  {Holds : ForkChoice preset → Prop} {chain : RecentChain preset rules}

theorem commitSlots (stable : Stable slots blocks voters Holds) (parentRoot : Root) :
    ∀ (entries : List (Entry State Context)) {chain : RecentChain preset rules},
      Holds chain.choice → (∀ entry ∈ entries, slots entry.slot) →
      Holds (RecentChain.commitSlots parentRoot entries chain).2.choice
  | [], _, holds, _ => holds
  | entry :: rest, chain, holds, permitted => by
    have inserted := stable.insertSlots chain.choice parentRoot entry.slot
      (rules.justified entry.state) (rules.finalized entry.state) holds
      (permitted entry List.mem_cons_self)
    unfold RecentChain.commitSlots
    split
    next refused =>
      rw [refused] at inserted
      exact inserted
    next accepted =>
      rw [accepted] at inserted
      exact stable.commitSlots parentRoot rest inserted
        fun other member => permitted other (List.mem_cons_of_mem entry member)

theorem commit
    (stable : Stable slots blocks voters Holds) (holds : Holds chain.choice)
    {draft : Draft State Context} (replayed : ∀ entry ∈ draft.replayed, slots entry.slot)
    (block : blocks draft.parentRoot draft.block.blockRoot draft.block.slot) :
    Holds (chain.commit draft).2.choice := by
  have filled := stable.commitSlots draft.parentRoot draft.replayed holds replayed
  unfold RecentChain.commit
  split
  next failed =>
    rw [failed] at filled
    exact filled
  next between committed =>
    rw [committed] at filled
    have inserted := stable.insertBlock between.choice draft.parentRoot draft.block.blockRoot
      draft.block.slot (rules.justified draft.block.state)
        (rules.finalized draft.block.state) filled
      block
    dsimp only
    split
    next refused =>
      rw [refused] at inserted
      exact inserted
    next accepted =>
      rw [accepted] at inserted
      exact inserted

theorem settle
    (stable : Stable slots blocks voters Holds) (holds : Holds chain.choice)
    (entry : Entry State Context) (receive : EntryReceiver State Context store) (state : store) :
    Holds (chain.settle entry receive state).2.1.choice := by
  have adopted : Holds (chain.adopt entry receive state).2.1.choice :=
    stable.adopt chain.choice _ _ _ _ _ _ holds
  unfold RecentChain.settle
  split
  next refused =>
    rw [refused] at adopted
    exact adopted
  next done =>
    rw [done] at adopted
    split
    · exact adopted
    · exact adopted

theorem addBlock
    {block : Block} {interrupted : List Nat → Bool} (stable : Stable slots blocks voters Holds)
    (holds : Holds chain.choice) (receive : EntryReceiver State Context store) (state : store)
    (drafts : ∀ draft, chain.draft block interrupted = .ok draft →
      (∀ entry ∈ draft.replayed, slots entry.slot) ∧
        blocks draft.parentRoot draft.block.blockRoot draft.block.slot) :
    Holds (chain.addBlock block interrupted receive state).2.1.choice := by
  unfold RecentChain.addBlock
  dsimp only
  split
  · split <;> exact holds
  · split
    next => exact holds
    next draft drafted =>
      obtain ⟨replayed, ofBlock⟩ := drafts draft drafted
      have committed := stable.commit holds replayed ofBlock
      split
      next failed =>
        rw [failed] at committed
        exact committed
      next grown done =>
        rw [done] at committed
        have settled := stable.settle committed draft.block receive state
        split
        next refused =>
          rw [refused] at settled
          exact settled
        next accepted =>
          rw [accepted] at settled
          exact settled

theorem recordVotes (stable : Stable slots blocks voters Holds) (root : Root) (slot : Nat) :
    ∀ (validators : List Nat) {choice : ForkChoice preset}, Holds choice →
      (∀ validator ∈ validators, voters validator) →
      Holds (RecentChain.recordVotes root slot validators choice).2
  | [], _, holds, _ => holds
  | validator :: rest, choice, holds, permitted => by
    have recorded := stable.recordVote choice validator root slot holds
      (permitted validator List.mem_cons_self)
    exact stable.recordVotes root slot rest recorded
      fun other member => permitted other (List.mem_cons_of_mem validator member)

theorem addAttestation
    {attestation : Attestation} (stable : Stable slots blocks voters Holds)
    (holds : Holds chain.choice)
    (permitted : ∀ validators, chain.votersOf attestation = .ok validators →
      ∀ validator ∈ validators, voters validator) :
    Holds (chain.addAttestation attestation).2.choice := by
  unfold RecentChain.addAttestation
  split
  next => exact holds
  next validators known =>
    exact stable.recordVotes _ _ validators holds (permitted validators known)

theorem canonicalChain
    (stable : Stable slots blocks voters Holds) (holds : Holds chain.choice) :
    Holds chain.canonicalChain.2.choice := by
  rw [canonicalChain_eq]
  exact stable.head chain.choice holds

theorem headEntry
    (stable : Stable slots blocks voters Holds) (holds : Holds chain.choice) :
    Holds chain.head.2.choice := by
  rw [head_eq]
  exact stable.head chain.choice holds

end ForkChoice.Stable

namespace RecentChain

open ForkChoice

variable {pedigree : Pedigree} {chain : RecentChain preset rules}

theorem stable_reached (pedigree : Pedigree) :
    Stable (fun _ => True) pedigree.Admits (fun _ => True)
      (Reached pedigree : ForkChoice preset → Prop) where
  insertSlots _ root slot justified finalized reached _ :=
    reached.insertSlots root slot justified finalized
  insertBlock _ parentRoot root slot justified finalized reached admitted :=
    reached.insertBlock parentRoot root slot justified finalized admitted
  recordVote _ validator root slot reached _ := reached.recordVote validator root slot
  setPin _ pin reached := reached.setPin pin
  clearPin _ reached := reached.clearPin
  head _ reached := reached.head
  adopt _ trigger justified finalized balancesAt receive state reached :=
    reached.adopt trigger justified finalized balancesAt receive state

theorem reached_commit
    (reached : Reached pedigree chain.choice) {draft : Draft State Context}
    (admitted : pedigree.Admits draft.parentRoot draft.block.blockRoot draft.block.slot) :
    Reached pedigree (chain.commit draft).2.choice :=
  (stable_reached pedigree).commit reached (fun _ _ => trivial) admitted

theorem reached_adopt
    (reached : Reached pedigree chain.choice) (entry : Entry State Context)
    (receive : EntryReceiver State Context store) (state : store) :
    Reached pedigree (chain.adopt entry receive state).2.1.choice :=
  reached.adopt _ _ _ _ _ _

/-- A draft names the block from which it was made. -/
theorem admits_of_draft
    {block : Block} {interrupted : List Nat → Bool} {draft : Draft State Context}
    (drafted : chain.draft block interrupted = .ok draft)
    (admitted : pedigree.Admits (rules.blockParent block) (rules.blockRoot block)
      (rules.blockSlot block)) :
    pedigree.Admits draft.parentRoot draft.block.blockRoot draft.block.slot := by
  unfold RecentChain.draft at drafted
  obtain ⟨_, _, drafted⟩ := exists_of_bind_eq_ok drafted
  obtain ⟨_, _, drafted⟩ := exists_of_bind_eq_ok drafted
  dsimp only at drafted
  split at drafted
  · cases drafted
  · obtain ⟨_, _, drafted⟩ := exists_of_bind_eq_ok drafted
    cases drafted
    exact admitted

theorem reached_perform
    (reached : Reached pedigree chain.choice) (call : Call State Block Context)
    (agrees : call.Agrees rules pedigree) : Reached pedigree (chain.perform call).choice := by
  have stable : Stable (fun _ => True) pedigree.Admits (fun _ => True)
    (Reached pedigree : ForkChoice preset → Prop) := stable_reached pedigree
  cases call with
  | addBlock block interrupted receive state =>
    exact stable.addBlock reached receive state
      fun _ drafted => ⟨fun _ _ => trivial, admits_of_draft drafted agrees⟩
  | addAttestation attestation => exact stable.addAttestation reached fun _ _ _ _ => trivial
  | setPin pin => exact reached.setPin pin
  | clearPin => exact reached.clearPin
  | head => exact stable.headEntry reached
  | canonicalChain => exact stable.canonicalChain reached
  | bySlot slot => exact stable.canonicalChain reached
  | byStep step => exact stable.canonicalChain reached

theorem ofAnchor?_reached
    {limits : Limits} {root parentRoot : Root} {state : State}
    (started : ofAnchor? limits root parentRoot state = .ok chain)
    (admitted : pedigree.Admits parentRoot root (rules.stateSlot state))
    (nonzero : (⟨root, rules.stateSlot state⟩ : NodeRef) ≠ .zero) :
    Reached pedigree chain.choice := by
  unfold ofAnchor? at started
  obtain ⟨_, _, started⟩ := exists_of_bind_eq_ok started
  cases started
  exact .ofAnchor _ _ _ _ _ admitted nonzero

end RecentChain

end BeaconChain
