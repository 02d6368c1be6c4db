import BeaconChain.Proofs.ForkChoice.Adopt
import BeaconChain.Proofs.RecentChain.Commit
import BeaconChain.Proofs.RecentChain.Finality
import BeaconChain.Proofs.RecentChain.Receivers

/-!
# Adding a block

A block that is added makes the chain grow, then its checkpoints are adopted, and then
what has become stale may be swept.  Each of these leaves a chain whose entries go on
where the log of the receiver ends.
-/

namespace BeaconChain

open BlockTree

/-- When a checkpoint inside the finalized root's subtree is finalized, the lineage becomes
that of its root. -/
theorem Lineage.finalizeAt
    {preset : Preset} {State Block Context store : Type} {rules : Rules State Block Context}
    {inRange : Nat → Prop} {anchor : Entry State Context}
    {log logAfter : List (Handover State Context)}
    {receive : EntryReceiver State Context store} {state after : store}
    {choice counted chosen : ForkChoice preset} {justified finalized : Checkpoint} {ref : NodeRef}
    {pool left : Pool State Context} {outcome : Except Error Unit} {first : Nat}
    (lineage : Lineage rules inRange anchor choice.finalizedRoot choice.tree pool log first)
    (recounted : choice.Recounted counted)
    (inside : choice.tree.relation choice.finalizedRoot finalized.root = .inside)
    (resolved : choice.checkpointNode finalized = .ok ref)
    (done : ({ counted with justified := justified } : ForkChoice preset).finalizeAt finalized ref
      (Pool.release (watching receive)) (pool, state, log) =
        (outcome, chosen, left, after, logAfter)) :
    ∃ newFirst, Lineage rules inRange anchor chosen.finalizedRoot chosen.tree left logAfter
      newFirst := by
  obtain ⟨pruned, newRoot, _, _⟩ := ForkChoice.finalizeAt_spec done
  obtain ⟨position, node, rfl, latest⟩ :=
    ForkChoice.exists_of_checkpointNode lineage.sound.toWellFormed resolved
  have under := lineage.sound.under_of_relation_inside inside lineage.isFirst
  have ofRoot : node.ref.root = finalized.root := latest.ofRoot
  rw [← ofRoot] at under
  have present := lineage.sound.position?_ref latest.here
  rw [← recounted.shape.position?_eq] at present
  have counted := lineage.congr recounted.shape (recounted.sound lineage.sound)
  obtain ⟨newFirst, pruned⟩ := counted.prune (under.congr recounted.shape) present pruned
  rw [ofRoot, ← newRoot] at pruned
  exact ⟨newFirst, pruned⟩

namespace RecentChain

variable {preset : Preset} {State Block Context store : Type} {rules : Rules State Block Context}
  {inRange : Nat → Prop} {anchor : Entry State Context} {chain next : RecentChain preset rules}
  {log logAfter : List (Handover State Context)} {receive : EntryReceiver State Context store}
  {state after : store}

theorem adopt_adoption
    {entry : Entry State Context} {outcome : Except Error Unit}
    (adopted : chain.adopt entry receive state = (outcome, next, after)) :
    chain.choice.Adoption (rules.justified entry.state) (rules.finalized entry.state)
      chain.balancesAt (Pool.release receive) (chain.pool, state) outcome next.choice
      (next.pool, after) := by
  unfold adopt at adopted
  dsimp only at adopted
  cases adopted
  exact ForkChoice.adopt_adoption rfl

/-- What every release of an entry keeps is kept by an adoption. -/
theorem adopt_invariant
    {entry : Entry State Context} {outcome : Except Error Unit}
    (Invariant : Pool State Context × store → Prop)
    (keeps : ∀ (node : Node) (mark : Bool) (before after : Pool State Context × store)
      (answer : Except Error Unit), Invariant before →
      Pool.release receive node mark before = (answer, after) → Invariant after)
    (start : Invariant (chain.pool, state))
    (adopted : chain.adopt entry receive state = (outcome, next, after)) :
    Invariant (next.pool, after) := by
  have adoption := adopt_adoption adopted
  obtain ⟨limits, choice, pool⟩ := next
  cases adoption with
  | unchanged => exact start
  | justify => exact start
  | finalize _ _ _ _ _ _ done =>
    exact prune_invariant Invariant keeps start (ForkChoice.finalizeAt_spec done).1

theorem settle_cases
    {entry : Entry State Context} {outcome : Except Error Unit}
    (settled : chain.settle entry receive state = (outcome, next, after)) :
    ∃ (answer : Except Error Unit) (adopted : RecentChain preset rules) (between : store),
      chain.adopt entry receive state = (answer, adopted, between) ∧
      (next = adopted ∧ after = between ∨
        ∃ swept, adopted.sweep receive between = (swept, next, after)) := by
  unfold settle at settled
  split at settled
  next adopts =>
    cases settled
    exact ⟨_, _, _, adopts, .inl ⟨rfl, rfl⟩⟩
  next adopts =>
    split at settled
    next =>
      cases settled
      exact ⟨_, _, _, adopts, .inl ⟨rfl, rfl⟩⟩
    next => exact ⟨_, _, _, adopts, .inr ⟨outcome, settled⟩⟩

/-- A new block whose draft is ready is committed and settled. -/
theorem settle_of_addBlock
    {block : Block} {interrupted : List Nat → Bool} {outcome : Except Error (Entry State Context)}
    {draft : Draft State Context} (stocked : Stocked rules inRange chain.choice.tree chain.pool)
    (allowed : ∀ slot ≤ rules.blockSlot block, inRange slot)
    (isNew : chain.choice.containsBlock (rules.blockRoot block) = false)
    (drafted : chain.draft block interrupted = .ok draft)
    (added : chain.addBlock block interrupted receive state = (outcome, next, after)) :
    ∃ (grown : RecentChain preset rules) (answer : Except Error Unit),
      chain.commit draft = (.ok (), grown) ∧
      Grown inRange chain (draft.replayed ++ [draft.block]) grown ∧
      grown.settle draft.block receive state = (answer, next, after) ∧
      outcome = answer.map fun _ => draft.block := by
  obtain ⟨grown, committed, growth⟩ := commit_grown stocked isNew drafted allowed
  simp only [addBlock, isNew, drafted, committed] at added
  refine ⟨grown, ?_⟩
  rw [if_neg Bool.false_ne_true] at added
  split at added
  next settled =>
    cases added
    exact ⟨_, committed, growth, settled, rfl⟩
  next settled =>
    cases added
    exact ⟨_, committed, growth, settled, rfl⟩

/-- A block that is known or cannot be prepared changes nothing. -/
theorem unchanged_of_addBlock
    {block : Block} {interrupted : List Nat → Bool} {outcome : Except Error (Entry State Context)}
    (notDrafted : chain.choice.containsBlock (rules.blockRoot block) = true ∨
      ∃ error, chain.draft block interrupted = .error error)
    (added : chain.addBlock block interrupted receive state = (outcome, next, after)) :
    next = chain ∧ after = state := by
  unfold addBlock at added
  dsimp only at added
  split at added
  next =>
    split at added
    · cases added
      exact ⟨rfl, rfl⟩
    · cases added
      exact ⟨rfl, rfl⟩
  next isNew =>
    obtain ⟨error, undrafted⟩ := notDrafted.resolve_left isNew
    rw [undrafted] at added
    cases added
    exact ⟨rfl, rfl⟩

/-- Either nothing has changed, or the block was new and has been committed. -/
theorem addBlock_cases
    {block : Block} {interrupted : List Nat → Bool} {outcome : Except Error (Entry State Context)}
    (stocked : Stocked rules inRange chain.choice.tree chain.pool)
    (allowed : ∀ slot ≤ rules.blockSlot block, inRange slot)
    (added : chain.addBlock block interrupted receive state = (outcome, next, after)) :
    next = chain ∧ after = state ∨
      ∃ (draft : Draft State Context) (grown : RecentChain preset rules)
        (answer : Except Error Unit),
        chain.choice.containsBlock (rules.blockRoot block) = false ∧
        chain.draft block interrupted = .ok draft ∧ chain.commit draft = (.ok (), grown) ∧
        Grown inRange chain (draft.replayed ++ [draft.block]) grown ∧
        grown.settle draft.block receive state = (answer, next, after) := by
  cases isNew : chain.choice.containsBlock (rules.blockRoot block) with
  | true => exact .inl (unchanged_of_addBlock (.inl isNew) added)
  | false =>
    cases drafted : chain.draft block interrupted with
    | error error => exact .inl (unchanged_of_addBlock (.inr ⟨error, drafted⟩) added)
    | ok draft =>
      obtain ⟨grown, answer, committed, growth, settled, _⟩ :=
        settle_of_addBlock stocked allowed isNew drafted added
      exact .inr ⟨draft, grown, answer, rfl, rfl, committed, growth, settled⟩

/-- The entries of a chain that can become canonical go on where the log ends. -/
def GoesOn (inRange : Nat → Prop) (anchor : Entry State Context) (chain : RecentChain preset rules)
    (log : List (Handover State Context)) : Prop :=
  ∃ first, Lineage rules inRange anchor chain.choice.finalizedRoot chain.choice.tree chain.pool log
    first

namespace GoesOn

theorem stocked (goesOn : GoesOn inRange anchor chain log) :
    Stocked rules inRange chain.choice.tree chain.pool := by
  obtain ⟨_, lineage⟩ := goesOn
  exact lineage.toStocked

/-- Votes and pins play no part. -/
theorem recounted
    {choice : ForkChoice preset} (goesOn : GoesOn inRange anchor chain log)
    (recounted : chain.choice.Recounted choice) :
    GoesOn inRange anchor ({ chain with choice := choice } : RecentChain preset rules) log := by
  obtain ⟨first, lineage⟩ := goesOn
  refine ⟨first, ?_⟩
  simp only [recounted.finalizedRoot_eq]
  exact lineage.congr recounted.shape (recounted.sound lineage.sound)

theorem grown
    {grown : RecentChain preset rules} {added : List (Entry State Context)}
    (goesOn : GoesOn inRange anchor chain log) (growth : Grown inRange chain added grown) :
    GoesOn inRange anchor grown log := by
  obtain ⟨first, lineage⟩ := goesOn
  refine ⟨first, ?_⟩
  rw [growth.finalizedRoot_eq]
  exact growth.lineage lineage

theorem adopt
    {entry : Entry State Context} {outcome : Except Error Unit}
    (goesOn : GoesOn inRange anchor chain log)
    (adopted : chain.adopt entry (watching receive) (state, log) =
      (outcome, next, after, logAfter)) :
    GoesOn inRange anchor next logAfter := by
  have adoption := adopt_adoption adopted
  obtain ⟨first, lineage⟩ := goesOn
  obtain ⟨limits, choice, pool⟩ := next
  cases adoption with
  | unchanged => exact ⟨first, lineage⟩
  | justify recounted _ _ =>
    have counted := lineage.congr recounted.shape (recounted.sound lineage.sound)
    rw [← recounted.finalizedRoot_eq] at counted
    exact ⟨first, counted⟩
  | finalize recounted _ _ _ inside resolved done =>
    exact lineage.finalizeAt recounted inside resolved done

theorem stocked_adopt
    {entry : Entry State Context} {outcome : Except Error Unit}
    (goesOn : GoesOn inRange anchor chain log)
    (adopted : chain.adopt entry receive state = (outcome, next, after)) :
    Stocked rules inRange next.choice.tree next.pool := by
  obtain ⟨_, sameChain, _⟩ := adopt_alike (watching_alike receive) chain entry
    (show (state, log).1 = state from rfl)
  rw [adopted] at sameChain
  obtain rfl : _ = next := sameChain
  exact (goesOn.adopt rfl).stocked

theorem sweep
    {outcome : Except Error Unit} (goesOn : GoesOn inRange anchor chain log)
    (swept : chain.sweep (watching receive) (state, log) = (outcome, next, after, logAfter)) :
    GoesOn inRange anchor next logAfter := by
  obtain ⟨first, lineage⟩ := goesOn
  unfold RecentChain.sweep at swept
  generalize done : chain.pool.sweep (watching receive) (state, log) = result at swept
  obtain ⟨answer, pool, between, logBetween⟩ := result
  cases swept
  exact ⟨first, lineage.sweep done⟩

theorem addBlock
    {block : Block} {interrupted : List Nat → Bool} {outcome : Except Error (Entry State Context)}
    (goesOn : GoesOn inRange anchor chain log)
    (allowed : ∀ slot ≤ rules.blockSlot block, inRange slot)
    (added : chain.addBlock block interrupted (watching receive) (state, log) =
      (outcome, next, after, logAfter)) : GoesOn inRange anchor next logAfter := by
  rcases addBlock_cases goesOn.stocked allowed added with
    ⟨rfl, same⟩ | ⟨draft, grown, answer, _, _, _, growth, settled⟩
  · cases same
    exact goesOn
  · obtain ⟨_, adopted, ⟨between, logBetween⟩, adopts, rest⟩ := settle_cases settled
    have adoptedGoesOn := (goesOn.grown growth).adopt adopts
    rcases rest with ⟨rfl, same⟩ | ⟨_, swept⟩
    · cases same
      exact adoptedGoesOn
    · exact adoptedGoesOn.sweep swept

theorem gapless (goesOn : GoesOn inRange anchor chain log) : Gapless rules anchor (taken log) := by
  obtain ⟨_, lineage⟩ := goesOn
  exact lineage.orderly.gapless

end GoesOn

theorem lineage_ofAnchor
    (entry : Entry State Context) (parentRoot : Root) (stamp : Stamp)
    (allowed : inRange entry.slot) :
    Lineage rules inRange entry entry.blockRoot (.ofAnchor entry.ref parentRoot stamp)
      (({ anchorSlot := entry.slot } : Pool State Context).insert entry) [] 0 := by
  let tree : BlockTree := .ofAnchor entry.ref parentRoot stamp
  let pool : Pool State Context := ({ anchorSlot := entry.slot } : Pool State Context).insert entry
  have only : ∀ {position : Nat} {node : Node}, tree.nodes[position]? = some node →
      position = 0 ∧ node.ref = entry.ref ∧ node.stateParent = none := by
    intro position node here
    rcases getElem?_concat_eq_some_iff.1 here with old | ⟨rfl, rfl⟩
    · simp at old
    · exact ⟨rfl, rfl, rfl⟩
  have held : pool.find? entry.ref = some entry := Pool.find?_insert_self _ _
  have onlyEntry : ∀ {ref : NodeRef} {found : Entry State Context},
      pool.find? ref = some found → ref = entry.ref ∧ found = entry := by
    intro ref found known
    rcases Pool.find?_insert_cases known with ⟨rfl, rfl⟩ | old
    · exact ⟨rfl, rfl⟩
    · cases old
  have onlyAt : ∀ {position : Nat} {found : Entry State Context},
      entryAt? tree pool position = some found → position = 0 ∧ found = entry := by
    intro position found known
    obtain ⟨node, here, heldToo⟩ := entryAt?_eq_some_iff.1 known
    exact ⟨(only here).1, (onlyEntry heldToo).2⟩
  exact {
    sound := sound_ofAnchor _ _ _
    named := fun ref found known => by
      obtain ⟨rfl, rfl⟩ := onlyEntry known
      rfl
    present := fun ref found known => by
      obtain ⟨rfl, rfl⟩ := onlyEntry known
      exact ⟨0, _, rfl, rfl⟩
    allowed := fun ref found known => by
      obtain ⟨rfl, rfl⟩ := onlyEntry known
      exact allowed
    linked := fun child above next previous step _ _ => by
      obtain ⟨node, here, up⟩ := parentAt_iff.1 step
      rw [(only here).2.2] at up
      cases up
    filled := fun position found known _ => by
      obtain ⟨rfl, rfl⟩ := onlyAt known
      exact fun _ _ _ _ => Nat.zero_le _
    isFirst := ⟨⟨_, rfl, rfl⟩, fun _ _ _ _ => Nat.zero_le _⟩
    kept := fun position _ inside => by
      obtain rfl : position = 0 := Nat.lt_one_iff.1 inside
      exact ⟨entry, entryAt?_eq_some_iff.2 ⟨_, rfl, held⟩⟩
    notBefore := fun position found _ known => by
      obtain ⟨rfl, rfl⟩ := onlyAt known
      exact Nat.le_refl _
    continues := fun position found _ _ known => (onlyAt known).2
    orderly := .nil }

/-- A chain starts with a single entry, the anchor. -/
theorem ofAnchor?_goesOn
    (inRange : Nat → Prop) {limits : Limits} {root parentRoot : Root} {start : State}
    (started : ofAnchor? limits root parentRoot start = .ok chain)
    (allowed : inRange (rules.stateSlot start)) :
    ∃ anchor, chain.earliest? = some anchor ∧ GoesOn inRange anchor chain [] := by
  obtain ⟨context, _, made⟩ := exists_of_bind_eq_ok started
  cases made
  let anchor : Entry State Context :=
    { slot := rules.stateSlot start, blockRoot := root, parentRoot := some parentRoot,
      stateRoot := rules.stateRoot start, context := context, state := start }
  let epoch := anchorEpoch preset (rules.stateSlot start)
  exact ⟨anchor, Pool.find?_insert_self _ anchor, 0,
    lineage_ofAnchor anchor parentRoot ⟨epoch, epoch⟩ allowed⟩

end RecentChain

end BeaconChain
