import BeaconChain.Proofs.RecentChain.Canonical

/-!
# Where entries are missing

A receiver that refuses only what is canonical lets every sweep come to its end, so that the
entries of a branch are missing from the bottom up: above an entry there are no holes.  It
also stops a pruning only at an ancestor of the finalized node, so that the lineage of the
finalized root begins at the oldest node.  A canonical chain that leads back to the oldest
entry therefore has all of its entries, whatever was pinned and whatever blocks say of their
checkpoints.
-/

open Relation

namespace BeaconChain

open BlockTree

variable {State Block Context store : Type} {rules : Rules State Block Context}
  {inRange : Nat → Prop} {anchor : Entry State Context} {tree other : BlockTree}
  {pool left : Pool State Context} {log : List (Handover State Context)} {position count : Nat}

/-- The children of a node that has an entry have entries. -/
def Unbroken (tree : BlockTree) (pool : Pool State Context) : Prop :=
  ∀ child above previous, ParentAt tree.nodes Node.stateParent child above →
    entryAt? tree pool above = some previous → ∃ entry, entryAt? tree pool child = some entry

namespace Unbroken

theorem exists_entryAt?
    (unbroken : Unbroken tree pool) {below above : Nat} {previous : Entry State Context}
    (descends : tree.StateDescends below above) (known : entryAt? tree pool above = some previous) :
    ∃ entry, entryAt? tree pool below = some entry := by
  induction descends using ReflTransGen.head_induction_on with
  | refl => exact ⟨previous, known⟩
  | head step _ ih =>
    obtain ⟨next, nextKnown⟩ := ih
    exact unbroken _ _ next step nextKnown

theorem congr (unbroken : Unbroken tree pool) (same : SameShape other tree) :
    Unbroken other pool := by
  unfold Unbroken
  rw [same.stateParentAt_eq, entryAt?_congr same]
  exact unbroken

theorem push
    {node : Node} {entry : Entry State Context} (unbroken : Unbroken tree pool)
    (stocked : Stocked rules inRange tree pool) (joins : Joins rules inRange tree pool node entry) :
    Unbroken { tree.push node with outdated := true } (pool.insert entry) := by
  have indexed := stocked.sound.toIndexed
  have fresh := joins.fresh indexed
  have ordered := (joins.sound stocked.sound).stateParentsFirst
  intro child above previous step known
  have earlier := ordered _ _ step
  have bound := step.lt_length
  simp only [nodes_push, List.length_append, List.length_singleton] at bound
  by_cases old : child < tree.nodes.length
  · have aboveKnown := ((entryAt?_push fresh indexed joins.named).1 known).resolve_right
      fun atEnd => by simp only [size] at atEnd; omega
    obtain ⟨entry, found⟩ := unbroken child above previous ((parentAt_append old).1 step) aboveKnown
    exact ⟨entry, (entryAt?_push fresh indexed joins.named).2 (.inl found)⟩
  · exact ⟨entry, (entryAt?_push fresh indexed joins.named).2
      (.inr ⟨by simp only [size]; omega, rfl⟩)⟩

end Unbroken

/-- The first nodes are taken out together with their entries. -/
theorem Offered.unbroken
    (offered : Offered rules inRange anchor tree pool position count left log)
    (indexed : Indexed tree) (unbroken : Unbroken tree pool) :
    Unbroken (tree.dropOldest count) left := by
  intro child above previous step known
  rw [parentAt_dropOldest shifts_stateParent] at step
  rw [entryAt?_dropOldest, offered.entryAt?_iff indexed] at known
  obtain ⟨entry, found⟩ := unbroken _ _ previous step known.1
  exact ⟨entry, by rw [entryAt?_dropOldest, offered.entryAt?_iff indexed]; exact ⟨found, by omega⟩⟩

theorem mem_values_of_find?
    {ref : NodeRef} {entry : Entry State Context} (found : pool.find? ref = some entry) :
    entry ∈ pool.byNode.values := by
  obtain ⟨binding, known, rfl⟩ := Option.map_eq_some_iff.1 found
  exact List.mem_map_of_mem (List.mem_of_find?_eq_some known)

theorem Pool.mem_stale
    {entries : List (Entry State Context)} (stale : pool.stale = .ok entries)
    {ref : NodeRef} {entry : Entry State Context} (found : pool.find? ref = some entry)
    (older : entry.slot < pool.anchorSlot) : entry ∈ entries :=
  (perm_stale stale).mem_iff.2
    (List.mem_filter.2 ⟨mem_values_of_find? found, decide_eq_true older⟩)

/-- What is discarded without a refusal is gone, and nothing else. -/
theorem Pool.find?_discard
    {receive : EntryReceiver State Context store} :
    ∀ {entries : List (Entry State Context)} {pool left : Pool State Context} {state after : store},
      discard receive entries pool state = (.ok (), left, after) →
      ∀ {ref : NodeRef} {entry : Entry State Context}, left.find? ref = some entry ↔
        pool.find? ref = some entry ∧ ∀ dropped ∈ entries, dropped.ref ≠ ref
  | [], _, _, _, _, done, ref, entry => by
    cases done
    simp
  | dropped :: rest, pool, _, _, _, done, ref, entry => by
    rw [discard] at done
    split at done
    next => cases done
    next =>
      rw [find?_discard done, Pool.find?_remove_eq_some_iff, List.forall_mem_cons]
      constructor
      · rintro ⟨⟨first, found⟩, others⟩
        exact ⟨found, first, others⟩
      · rintro ⟨found, first, others⟩
        exact ⟨⟨first, found⟩, others⟩

theorem Lenient.discard
    {receive : EntryReceiver State Context store} (lenient : Lenient receive) :
    ∀ (entries : List (Entry State Context)) (pool : Pool State Context) (state : store),
      (Pool.discard receive entries pool state).1 = .ok ()
  | [], _, _ => rfl
  | entry :: rest, pool, state => by
    have accepts := lenient entry state
    rw [Pool.discard]
    split
    next refused =>
      rw [refused] at accepts
      cases accepts
    next => exact lenient.discard rest _ _

theorem Unbroken.sweep
    {receive : EntryReceiver State Context store} (unbroken : Unbroken tree pool)
    (stocked : Stocked rules inRange tree pool) (lenient : Lenient receive) (state : store) :
    Unbroken tree (pool.sweep receive state).2.1 := by
  unfold Pool.sweep
  split
  next => exact unbroken
  next entries stale =>
    have accepts := lenient.discard entries pool state
    generalize done : Pool.discard receive entries pool state = result at accepts ⊢
    obtain ⟨outcome, left, after⟩ := result
    obtain rfl : outcome = .ok () := accepts
    intro child above previous step known
    obtain ⟨aboveNode, aboveHere, aboveHeld⟩ := entryAt?_eq_some_iff.1 known
    obtain ⟨aboveFound, notDropped⟩ := (Pool.find?_discard done).1 aboveHeld
    have oldKnown : entryAt? tree pool above = some previous :=
      entryAt?_eq_some_iff.2 ⟨aboveNode, aboveHere, aboveFound⟩
    obtain ⟨entry, found⟩ := unbroken child above previous step oldKnown
    obtain ⟨node, here, held⟩ := entryAt?_eq_some_iff.1 found
    refine ⟨entry, entryAt?_eq_some_iff.2 ⟨node, here, (Pool.find?_discard done).2
      ⟨held, fun dropped member same => ?_⟩⟩⟩
    -- a stale child has a stale parent
    have recent : pool.anchorSlot ≤ previous.slot := by
      refine Nat.le_of_not_lt fun older => ?_
      exact notDropped previous (Pool.mem_stale stale aboveFound older)
        (stocked.named _ _ aboveFound)
    have later := stocked.slot_le (ReflTransGen.single step) found oldKnown
    have older := Pool.slot_lt_of_mem_stale stale dropped member
    have sameSlot := congrArg NodeRef.slot (same.trans (stocked.ref_eq here found).symm)
    simp only [Entry.ref] at sameSlot
    omega

namespace RecentChain

variable {preset : Preset} {chain next : RecentChain preset rules} {first : Nat}
  {receive : EntryReceiver State Context store} {state after : store}
  {logAfter : List (Handover State Context)}

/-- The lineage of the finalized root begins at the oldest node, and no entry is missing above
another one. -/
structure Seamless (inRange : Nat → Prop) (anchor : Entry State Context)
    (chain : RecentChain preset rules) (log : List (Handover State Context)) (first : Nat) : Prop
    extends Lineage rules inRange anchor chain.choice.finalizedRoot chain.choice.tree chain.pool log
      first where
  oldest : chain.choice.tree.StateDescends first 0
  unbroken : Unbroken chain.choice.tree chain.pool

namespace Seamless

theorem recounted
    {choice : ForkChoice preset} (seamless : Seamless inRange anchor chain log first)
    (recounted : chain.choice.Recounted choice) :
    Seamless inRange anchor ({ chain with choice := choice } : RecentChain preset rules) log
      first where
  toLineage := by
    simp only [recounted.finalizedRoot_eq]
    exact seamless.toLineage.congr recounted.shape (recounted.sound seamless.sound)
  oldest := by
    simp only [recounted.shape.stateDescends_eq]
    exact seamless.oldest
  unbroken := seamless.unbroken.congr recounted.shape

theorem recounts
    (seamless : Seamless inRange anchor chain log first) (recounts : chain.Recounts next) :
    Seamless inRange anchor next log first := by
  obtain ⟨choice, recounted, rfl⟩ := recounts
  exact seamless.recounted recounted

theorem setPin (seamless : Seamless inRange anchor chain log first) (pin : NodeRef) :
    Seamless inRange anchor (chain.setPin pin).2 log first := by
  unfold RecentChain.setPin ForkChoice.setPin
  by_cases present : chain.choice.tree.contains pin = true
  · rw [if_pos present]
    exact { seamless with }
  · rw [if_neg present]
    exact { seamless with }

theorem clearPin (seamless : Seamless inRange anchor chain log first) :
    Seamless inRange anchor chain.clearPin log first :=
  { seamless with }

theorem join
    {node : Node} {entry : Entry State Context} (seamless : Seamless inRange anchor chain log first)
    (joins : Joins rules inRange chain.choice.tree chain.pool node entry) :
    Seamless inRange anchor (chain.join node entry) log first where
  toLineage := seamless.toLineage.push joins
  oldest := Descends.append seamless.oldest
  unbroken := seamless.unbroken.push seamless.toStocked joins

theorem grown
    {grown : RecentChain preset rules} {added : List (Entry State Context)}
    (seamless : Seamless inRange anchor chain log first)
    (growth : Grown inRange chain added grown) : Seamless inRange anchor grown log first := by
  induction growth with
  | refl => exact seamless
  | join _ joins ih => exact ih.join joins

/-- A receiver that refuses only what is canonical stops at an ancestor of the node that is to
become the oldest. -/
theorem finalizeAt
    {counted choice : ForkChoice preset} {justified finalized : Checkpoint} {ref : NodeRef}
    {pool : Pool State Context} {outcome : Except Error Unit}
    (seamless : Seamless inRange anchor chain log first) (lenient : Lenient receive)
    (recounted : chain.choice.Recounted counted)
    (inside : chain.choice.tree.relation chain.choice.finalizedRoot finalized.root = .inside)
    (resolved : chain.choice.checkpointNode finalized = .ok ref)
    (done : ({ counted with justified := justified } : ForkChoice preset).finalizeAt finalized
      ref (Pool.release (watching receive)) (chain.pool, state, log) =
        (outcome, choice, pool, after, logAfter)) :
    ∃ newFirst, Seamless inRange anchor
      ({ chain with choice := choice, pool := pool } : RecentChain preset rules)
        logAfter newFirst := by
  obtain ⟨newFirst, lineage⟩ := seamless.toLineage.finalizeAt recounted inside resolved done
  obtain ⟨pruned, newRoot, _⟩ := ForkChoice.finalizeAt_spec done
  obtain ⟨position, node, rfl, latest⟩ :=
    ForkChoice.exists_of_checkpointNode seamless.sound.toWellFormed resolved
  -- the tree from which the nodes are taken out
  have counted := seamless.toLineage.congr recounted.shape (recounted.sound seamless.sound)
  have ofRoot : node.ref.root = finalized.root := latest.ofRoot
  have under := seamless.sound.under_of_relation_inside inside seamless.isFirst
  rw [← ofRoot] at under
  have present := seamless.sound.position?_ref latest.here
  rw [← recounted.shape.position?_eq] at present
  obtain ⟨accepted, notLater, newTree, offered⟩ :=
    counted.prune_offered (under.congr recounted.shape) present pruned
  obtain ⟨stop, stopNotLater, sameTree, stops⟩ :=
    counted.sound.prune_spec lenient.watching.release present pruned
  have same := (sameShape_refresh _).trans recounted.shape
  obtain ⟨found, there, sameRef⟩ := same.symm.nodes.exists_ref_eq latest.here
  obtain rfl : accepted = stop := by
    have inside := (List.getElem?_eq_some_iff.1 there).1
    have sizes := congrArg (fun tree => tree.nodes.length) (newTree.symm.trans sameTree)
    simp only [nodes_dropOldest, List.length_map, List.length_drop] at sizes
    omega
  have isFirst := lineage.isFirst
  rw [newTree, newRoot, ← ofRoot, ← sameRef] at isFirst
  refine ⟨newFirst, { lineage with oldest := ?_, unbroken := ?_ }⟩
  · rw [newTree]
    exact (counted.sound.refresh.first_dropOldest there notLater stops isFirst ReflTransGen.refl).1
  · rw [newTree]
    exact offered.unbroken counted.sound.refresh.toIndexed (seamless.unbroken.congr same)

theorem adopt
    {entry : Entry State Context} {outcome : Except Error Unit}
    (seamless : Seamless inRange anchor chain log first) (lenient : Lenient receive)
    (adopted : chain.adopt entry (watching receive) (state, log) =
      (outcome, next, after, logAfter)) :
    ∃ newFirst, Seamless inRange anchor next logAfter newFirst := by
  have adoption := adopt_adoption adopted
  obtain ⟨limits, choice, pool⟩ := next
  cases adoption with
  | unchanged => exact ⟨first, { seamless with }⟩
  | justify recounted _ _ => exact ⟨first, { seamless.recounted recounted with }⟩
  | finalize recounted _ _ _ inside resolved done =>
    obtain ⟨newFirst, newSeamless⟩ := seamless.finalizeAt lenient recounted inside resolved done
    exact ⟨newFirst, { newSeamless with }⟩

theorem sweep
    {outcome : Except Error Unit} (seamless : Seamless inRange anchor chain log first)
    (lenient : Lenient receive)
    (swept : chain.sweep (watching receive) (state, log) = (outcome, next, after, logAfter)) :
    Seamless inRange anchor next logAfter first := by
  have unbroken := seamless.unbroken.sweep seamless.toStocked lenient.watching (state, log)
  unfold RecentChain.sweep at swept
  generalize done : chain.pool.sweep (watching receive) (state, log) = result at swept unbroken
  obtain ⟨answer, pool, between, logBetween⟩ := result
  cases swept
  exact { seamless with toLineage := seamless.toLineage.sweep done, unbroken := unbroken }

theorem addBlock_noted
    (seamless : Seamless inRange anchor chain log first) (lenient : Lenient receive)
    (block : Block) (interrupted : List Nat → Bool) (state : store)
    (allowed : ∀ slot ≤ rules.blockSlot block, inRange slot) :
    ∃ newFirst, Seamless inRange anchor (chain.addBlock block interrupted receive state).2.1
      (chain.noted log (.addBlock block interrupted receive state)) newFirst := by
  rw [← addBlock_watching chain block interrupted receive state log]
  generalize added : chain.addBlock block interrupted (watching receive) (state, log) = result
  obtain ⟨outcome, next, after, logAfter⟩ := result
  simp only [noted, added]
  rcases addBlock_cases seamless.toStocked allowed added with
    ⟨rfl, same⟩ | ⟨draft, grown, answer, _, _, _, growth, settled⟩
  · cases same
    exact ⟨first, seamless⟩
  · obtain ⟨_, adopted, ⟨between, logBetween⟩, adopts, rest⟩ := settle_cases settled
    obtain ⟨newFirst, adoptedSeamless⟩ := (seamless.grown growth).adopt lenient adopts
    rcases rest with ⟨rfl, same⟩ | ⟨_, swept⟩
    · cases same
      exact ⟨newFirst, adoptedSeamless⟩
    · exact ⟨newFirst, adoptedSeamless.sweep lenient swept⟩

end Seamless

theorem ofAnchor?_seamless
    (inRange : Nat → Prop) {limits : Limits} {root parentRoot : Root} {start : State}
    (started : ofAnchor? limits root parentRoot start = .ok chain)
    (allowed : inRange (rules.stateSlot start)) :
    ∃ anchor, chain.earliest? = some anchor ∧ Seamless inRange anchor chain [] 0 := by
  obtain ⟨context, _, made⟩ := exists_of_bind_eq_ok started
  cases made
  let anchor : Entry State Context :=
    { slot := rules.stateSlot start, blockRoot := root, parentRoot := some parentRoot,
      stateRoot := rules.stateRoot start, context := context, state := start }
  let epoch := anchorEpoch preset (rules.stateSlot start)
  refine ⟨anchor, Pool.find?_insert_self _ anchor,
    { lineage_ofAnchor anchor parentRoot ⟨epoch, epoch⟩ allowed with
      oldest := ReflTransGen.refl
      unbroken := fun child above previous step _ => ?_ }⟩
  obtain ⟨node, here, up⟩ := parentAt_iff.1 step
  rcases getElem?_concat_eq_some_iff.1 here with old | ⟨_, rfl⟩
  · simp at old
  · cases up

end RecentChain

end BeaconChain
