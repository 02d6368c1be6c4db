import BeaconChain.Proofs.BlockTree.Addressable
import BeaconChain.Proofs.RecentChain.Outcome
import BeaconChain.Proofs.RecentChain.Pruned

/-!
# Calls without faults

No call on a recent chain whose slots are in range meets a fault.  The state from which a block
goes on is not later than the block, the nodes of a draft can be inserted, the head that was found
is in the tree, and what is stale has steps.  Only a receiver could bring a fault in.
-/

namespace BeaconChain

open BlockTree

theorem Error.innermost_notAdopted (root : Root) (cause : Error) :
    (Error.notAdopted root cause).innermost = cause.innermost := by
  unfold notAdopted
  split <;> rfl

theorem Pool.size_remove_le
    {State Context : Type} (pool : Pool State Context) (dropped : NodeRef) :
    (pool.remove dropped).size ≤ pool.size := by
  unfold remove
  split
  · exact Nat.le_refl _
  · exact List.length_filter_le _ _

theorem BlockTree.faultless_findHead (tree : BlockTree) (anchor : NodeRef) :
    Faultless (tree.findHead anchor).1 := by
  unfold findHead
  dsimp only
  split
  next => exact .error rfl
  next =>
    split
    · exact .ok _
    · exact .error rfl

namespace ForkChoice

variable {preset : Preset} {choice next : ForkChoice preset} {node : NodeRef}

theorem faultless_headAnchor (choice : ForkChoice preset) : Faultless choice.headAnchor := by
  unfold headAnchor
  split
  · exact .ok _
  · exact choice.faultless_checkpointNode choice.justified

theorem faultless_head (choice : ForkChoice preset) : Faultless choice.head.1 := by
  unfold head
  split
  next failed => exact .error (isMiscount_of_countVotes failed).noFault
  next counted _ =>
    split
    next error failed => exact .error (counted.faultless_headAnchor error failed)
    next anchor _ => exact counted.tree.faultless_findHead anchor

/-- The head that is found is in the tree. -/
theorem position?_of_head
    (sound : Sound choice.tree) (found : choice.head = (.ok node, next)) :
    ∃ position, next.tree.position? node = some position := by
  have recounted := choice.countVotes_recounted
  unfold head at found
  split at found
  next => cases found
  next counted counts =>
    rw [counts] at recounted
    split at found
    next => cases found
    next anchor _ =>
      have isHead : (counted.tree.findHead anchor).1 = .ok node := congrArg Prod.fst found
      have isNext : { counted with tree := (counted.tree.findHead anchor).2 } = next :=
        congrArg Prod.snd found
      rw [← isNext]
      exact (recounted.sound sound).position?_of_findHead isHead

end ForkChoice

namespace RecentChain

variable {preset : Preset} {State Block Context store : Type} {rules : Rules State Block Context}
  {inRange : Nat → Prop} {chain next : RecentChain preset rules}
  {anchor entry : Entry State Context}
  {log logAfter : List (Handover State Context)} {receive : EntryReceiver State Context store}
  {state after : store} {block : Block} {interrupted : List Nat → Bool} {node : NodeRef}

theorem head_of_headNode (found : chain.headNode = (.ok node, next)) :
    chain.choice.head = (.ok node, next.choice) ∧ next.pool = chain.pool := by
  have isNext : { chain with choice := chain.choice.head.2 } = next := congrArg Prod.snd found
  rw [← isNext]
  exact ⟨Prod.ext (congrArg Prod.fst found :) rfl, rfl⟩

theorem faultless_headNode (chain : RecentChain preset rules) : Faultless chain.headNode.1 :=
  chain.choice.faultless_head

theorem faultless_head (chain : RecentChain preset rules) : Faultless chain.head.1 := by
  have noFault := chain.faultless_headNode
  unfold head
  split
  next error _ failed =>
    rw [failed] at noFault
    exact .error (noFault error rfl)
  next =>
    split
    · exact .ok _
    · exact .error rfl

theorem faultless_canonicalChain (sound : Sound chain.choice.tree) :
    Faultless chain.canonicalChain.1 := by
  have noFault := chain.faultless_headNode
  unfold canonicalChain
  split
  next error _ failed =>
    rw [failed] at noFault
    exact .error (noFault error rfl)
  next node counted found =>
    obtain ⟨position, known⟩ := ForkChoice.position?_of_head sound (head_of_headNode found).1
    rw [known]
    exact .ok _

/-- The entries of the canonical chain are in the pool. -/
theorem find?_of_mem_canonicalChain
    {entries : List (Entry State Context)} (canonical : chain.canonicalChain.1 = .ok entries) :
    ∀ entry ∈ entries, ∃ ref, chain.pool.find? ref = some entry := by
  unfold canonicalChain at canonical
  split at canonical
  next => cases canonical
  next node counted found =>
    have samePool := (head_of_headNode found).2
    split at canonical
    next => cases canonical
    next position _ =>
      cases canonical
      intro entry member
      obtain ⟨ancestor, _, held⟩ := List.mem_filterMap.1 member
      exact ⟨ancestor.2.ref, samePool ▸ held⟩

/-- The head is in the pool. -/
theorem find?_of_head (found : chain.head = (.ok entry, next)) :
    ∃ ref, chain.pool.find? ref = some entry := by
  unfold head at found
  split at found
  next => cases found
  next node counted isHead =>
    have samePool := (head_of_headNode isHead).2
    split at found
    next held =>
      cases found
      exact ⟨node, samePool ▸ held⟩
    next => cases found

theorem faultless_checkpointEntry (chain : RecentChain preset rules) (checkpoint : Checkpoint) :
    Faultless (chain.checkpointEntry checkpoint) := by
  apply (chain.choice.faultless_checkpointNode checkpoint).bind
  intro node _
  split
  · exact .ok _
  · exact .error rfl

theorem faultless_votersOf (chain : RecentChain preset rules) (attestation : Attestation) :
    Faultless (chain.votersOf attestation) := by
  unfold votersOf
  dsimp only
  split
  next => exact .error rfl
  next =>
    split
    · exact .error rfl
    · exact .ofOutside _

theorem faultless_addAttestation (chain : RecentChain preset rules) (attestation : Attestation) :
    Faultless (chain.addAttestation attestation).1 := by
  unfold addAttestation
  split
  next error failed => exact .error (chain.faultless_votersOf attestation error failed)
  next => exact .ok _

theorem faultless_setPin (chain : RecentChain preset rules) (pin : NodeRef) :
    Faultless (chain.setPin pin).1 := by
  unfold RecentChain.setPin ForkChoice.setPin
  by_cases present : chain.choice.tree.contains pin = true
  · rw [if_pos present]
    exact .ok ()
  · rw [if_neg present]
    exact .error rfl

/-- A look-up never leads to a later slot. -/
theorem slot_le_of_closest?
    (stocked : Stocked rules inRange chain.choice.tree chain.pool) {root : Root} {slot : Nat}
    (near : chain.closest? root slot = some entry) : entry.slot ≤ slot := by
  obtain ⟨⟨ref, position⟩, resolved, held⟩ := Option.bind_eq_some_iff.1 near
  obtain ⟨node, latest, rfl⟩ := stocked.sound.resolve?_eq_some_iff.1 resolved
  have sameSlot : entry.slot = node.ref.slot :=
    congrArg NodeRef.slot (stocked.named node.ref entry held)
  rw [sameSlot]
  exact latest.notLater

theorem faultless_preState
    (stocked : Stocked rules inRange chain.choice.tree chain.pool)
    (notLast : rules.blockSlot block < greatestSlot) : Faultless (chain.preState block) := by
  unfold preState
  dsimp only
  split
  next => exact .error rfl
  next =>
    split
    next => exact .error rfl
    next =>
      split
      next => exact .error rfl
      next near =>
        have notLater := slot_le_of_closest? stocked near
        split
        next outside => omega
        next =>
          split
          · exact .error rfl
          · exact .ok _

theorem faultless_draft
    (stocked : Stocked rules inRange chain.choice.tree chain.pool)
    (notLast : rules.blockSlot block < greatestSlot) (interrupted : List Nat → Bool) :
    Faultless (chain.draft block interrupted) := by
  intro error failed
  rcases draft_error failed with unfounded | rfl | ⟨message, rfl⟩
  · exact faultless_preState stocked notLast error unfounded
  · rfl
  · rfl

/-- The slot up to which the chain is final is that of an entry, or earlier. -/
theorem GoesOn.anchorSlot_lt (goesOn : GoesOn (· < slotLimit) anchor chain log) :
    chain.pool.anchorSlot < slotLimit := by
  obtain ⟨first, lineage⟩ := goesOn
  have related : chain.choice.tree.Related first first := .inl .refl
  obtain ⟨oldest, known⟩ := lineage.kept first related lineage.first_lt
  obtain ⟨node, _, held⟩ := entryAt?_eq_some_iff.1 known
  exact Nat.lt_of_le_of_lt (lineage.anchorSlot_le related known)
    (lineage.allowed node.ref oldest held)

/-- What is stale can always be swept. -/
theorem GoesOn.sweep_eq_ok
    (goesOn : GoesOn (· < slotLimit) anchor chain log) (lenient : Lenient receive) (state : store) :
    (chain.sweep (watching receive) (state, log)).1 = .ok () := by
  generalize swept : chain.sweep (watching receive) (state, log) = result
  obtain ⟨outcome, next, after, logAfter⟩ := result
  exact (Pool.sweep_spec goesOn.stocked.named (Nat.le_of_lt goesOn.anchorSlot_lt) lenient
    (sweep_pool swept).1).1

/-- Checkpoints are adopted without a fault, if the receiver answers without one. -/
theorem GoesOn.faultless_settle
    {outcome : Except Error Unit} (goesOn : GoesOn (· < slotLimit) anchor chain log)
    (lenient : Lenient receive)
    (settled : chain.settle entry (watching receive) (state, log) =
      (outcome, next, after, logAfter))
    (answers : ∀ handover ∈ logAfter, Faultless handover.outcome) : Faultless outcome := by
  cases outcome with
  | ok => exact .ok ()
  | error error =>
    rcases settle_error settled with ⟨cause, adopts, rfl⟩ | ⟨adopted, between, adopts, _, failed⟩
    · apply Faultless.error
      rw [Error.innermost_notAdopted]
      rcases refused_of_adopt adopts with noFault | ⟨refused, canonical, ⟨before, log⟩, refuses⟩
      · exact noFault
      · obtain ⟨_, logged⟩ := eq_of_watching refuses
        have member : (⟨refused, canonical, .error cause⟩ : Handover State Context) ∈ logAfter := by
          rw [show logAfter = log ++ [_] from logged]
          exact List.mem_append_right log List.mem_cons_self
        exact answers _ member cause rfl
    · obtain ⟨between, logBetween⟩ := between
      rw [(goesOn.adopt adopts).sweep_eq_ok lenient between] at failed
      cases failed

/-- A settlement takes entries out of the pool and puts none in. -/
theorem size_settle_le
    {outcome : Except Error Unit}
    (settled : chain.settle entry receive state = (outcome, next, after)) :
    next.size ≤ chain.size := by
  obtain ⟨_, adopted, between, adopts, rest⟩ := settle_cases settled
  have fewer : adopted.size ≤ chain.size := by
    refine adopt_invariant (fun pooled => pooled.1.size ≤ chain.size)
      (fun node mark before last answer small released => ?_) (Nat.le_refl _) adopts
    rcases release_pool released with same | ⟨dropped, slot, _, same⟩
    · exact same ▸ small
    · rw [same]
      exact Nat.le_trans (before.1.size_remove_le dropped) small
  rcases rest with ⟨rfl, _⟩ | ⟨_, swept⟩
  · exact fewer
  · exact Pool.sweep_invariant (fun now _ => now.size ≤ chain.size)
      (fun dropped _ now _ _ _ small _ =>
        ⟨small, fun _ => Nat.le_trans (now.size_remove_le dropped.ref) small⟩)
      fewer (sweep_pool swept).1

/-- A block is added without a fault, if the receiver answers without one. -/
theorem GoesOn.faultless_addBlock
    {outcome : Except Error (Entry State Context)}
    (goesOn : GoesOn (· < slotLimit) anchor chain log) (lenient : Lenient receive)
    (inRange : rules.blockSlot block < slotLimit)
    (added : chain.addBlock block interrupted (watching receive) (state, log) =
      (outcome, next, after, logAfter))
    (answers : ∀ handover ∈ logAfter, Faultless handover.outcome) : Faultless outcome := by
  have limits : slotLimit ≤ greatestSlot := by decide
  cases isNew : chain.choice.containsBlock (rules.blockRoot block) with
  | true =>
    simp only [RecentChain.addBlock, isNew, if_true] at added
    split at added
    · cases added
      exact .ok _
    · cases added
      exact .error rfl
  | false =>
    cases drafted : chain.draft block interrupted with
    | error error =>
      simp only [RecentChain.addBlock, isNew, drafted, Bool.false_eq_true, if_false] at added
      cases added
      have noFault := faultless_draft goesOn.stocked (Nat.lt_of_lt_of_le inRange limits) interrupted
      exact .error (noFault error drafted)
    | ok draft =>
      obtain ⟨grown, answer, _, growth, settled, rfl⟩ :=
        settle_of_addBlock goesOn.stocked
          (fun _ notLater => Nat.lt_of_le_of_lt notLater inRange) isNew drafted added
      exact ((goesOn.grown growth).faultless_settle lenient settled answers).map _

end RecentChain

end BeaconChain
