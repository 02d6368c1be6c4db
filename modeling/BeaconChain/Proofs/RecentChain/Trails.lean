import BeaconChain.Proofs.ForkChoice.Alike
import BeaconChain.Proofs.RecentChain.Stale
import BeaconChain.Proofs.RecentChain.Thinned

/-!
# Chains that are behind in their finality

A chain whose receiver has failed keeps nodes and entries that it would not have if the
receiver had not.  Apart from these it trails the chain that never failed: the same blocks can
be added to both, they make the same entries, and what separates the chains stays what it was.
-/

namespace BeaconChain

open BlockTree

variable {preset : Preset} {State Block Context store : Type} {rules : Rules State Block Context}
  {inRange : Nat → Prop}

namespace RecentChain

variable {chain grown behind ahead : RecentChain preset rules} {block : Block}
  {interrupted : List Nat → Bool} {draft : Draft State Context} {added : List (Entry State Context)}

theorem root_of_draft
    (stocked : Stocked rules inRange chain.choice.tree chain.pool)
    (drafted : chain.draft block interrupted = .ok draft) :
    ∀ entry ∈ draft.replayed ++ [draft.block],
      entry.ref.root = rules.blockParent block ∨ entry.ref.root = rules.blockRoot block := by
  obtain ⟨previous, last, isDraft⟩ := exists_drafted stocked drafted
  obtain ⟨position, node, _, latest, known, _⟩ := preState_spec stocked isDraft.preState
  have previousRoot : previous.blockRoot = rules.blockParent block :=
    (congrArg NodeRef.root (stocked.ref_eq latest.here known)).trans latest.ofRoot
  intro entry member
  rcases List.mem_append.1 member with replayed | isBlock
  · exact .inl ((isDraft.replayed.blockRoot_eq entry replayed).trans previousRoot)
  · rw [List.mem_singleton.1 isBlock, isDraft.ref]
    exact .inr rfl

theorem Grown.pool_eq (growth : Grown inRange chain added grown) :
    grown.pool = added.foldl Pool.insert chain.pool := by
  induction growth with
  | refl => rfl
  | join _ _ ih => rw [List.foldl_append, ← ih]; rfl

theorem Grown.limits_eq
    (growth : Grown inRange chain added grown) : grown.limits = chain.limits := by
  induction growth with
  | refl => rfl
  | join _ _ ih => exact ih

theorem Grown.keyed
    (growth : Grown inRange chain added grown)
    (stocked : Stocked rules inRange chain.choice.tree chain.pool) (keyed : chain.pool.Keyed) :
    grown.pool.Keyed := by
  induction growth with
  | refl => exact keyed
  | @join _ grown node entry growth joins ih =>
    have grownStocked := growth.stocked stocked
    refine ih.insert ?_
    cases found : grown.pool.find? entry.ref with
    | none => rfl
    | some other =>
      obtain ⟨position, held, here, named⟩ := grownStocked.present _ _ found
      have fresh := joins.fresh grownStocked.sound.toIndexed
      rw [← joins.named, ← named, grownStocked.sound.position?_ref here] at fresh
      cases fresh

/-- New entries change nothing but the tree of the fork choice. -/
theorem Grown.checkpoints_eq (growth : Grown inRange chain added grown) :
    grown.choice.justified = chain.choice.justified ∧
      grown.choice.finalized = chain.choice.finalized ∧
      grown.choice.pending = chain.choice.pending ∧
        grown.choice.balances = chain.choice.balances := by
  rw [growth.choice_eq]
  exact ⟨rfl, rfl, rfl, rfl⟩

theorem Grown.stamp_eq (growth : Grown inRange chain added grown) :
    grown.choice.tree.stamp = chain.choice.tree.stamp := by
  induction growth with
  | refl => rfl
  | join _ _ ih => exact ih

/-- The nodes that are there already keep their places and their entries. -/
theorem Grown.position?_of_position?
    (growth : Grown inRange chain added grown)
    (stocked : Stocked rules inRange chain.choice.tree chain.pool) {ref : NodeRef} {position : Nat}
    (placed : chain.choice.tree.position? ref = some position) :
    grown.choice.tree.position? ref = some position := by
  obtain ⟨node, here, named⟩ := (stocked.sound.positions _ _).1 placed
  obtain ⟨later, together⟩ := growth.nodes_prefix
  refine ((growth.stocked stocked).sound.positions _ _).2 ⟨node, ?_, named⟩
  rw [← together, List.getElem?_append_left (List.getElem?_eq_some_iff.1 here).1]
  exact here

theorem Grown.find?_eq
    (growth : Grown inRange chain added grown)
    (stocked : Stocked rules inRange chain.choice.tree chain.pool) {ref : NodeRef} {position : Nat}
    (placed : chain.choice.tree.position? ref = some position) :
    grown.pool.find? ref = chain.pool.find? ref := by
  induction growth with
  | refl => rfl
  | @join _ _ _ _ growth joins ih =>
    refine (Pool.find?_insert_of_ne _ fun same => ?_).trans ih
    have fresh := joins.fresh (growth.stocked stocked).sound.toIndexed
    rw [← joins.named, same, growth.position?_of_position? stocked placed] at fresh
    cases fresh

end RecentChain

namespace Pool

variable {pool thinned : Pool State Context} {gone : NodeRef → Prop}

theorem Thinned.insertAll :
    ∀ {added : List (Entry State Context)} {pool thinned : Pool State Context},
      Thinned gone pool thinned → (∀ entry ∈ added, ¬ gone entry.ref) →
      Thinned gone (added.foldl Pool.insert pool) (added.foldl Pool.insert thinned)
  | [], _, _, thinned, _ => thinned
  | entry :: _, _, _, thinned, kept =>
    (thinned.insert (kept entry List.mem_cons_self)).insertAll fun other member =>
      kept other (List.mem_cons_of_mem entry member)

theorem find?_insertAll_of_ne {ref : NodeRef} :
    ∀ {added : List (Entry State Context)} {pool : Pool State Context},
      (∀ entry ∈ added, entry.ref ≠ ref) → (added.foldl insert pool).find? ref = pool.find? ref
  | [], _, _ => rfl
  | entry :: rest, pool, different => by
    rw [List.foldl_cons, find?_insertAll_of_ne fun other member =>
        different other (List.mem_cons_of_mem entry member),
      find?_insert_of_ne pool (different entry List.mem_cons_self)]

end Pool

namespace RecentChain

variable {chain grown behind ahead : RecentChain preset rules} {block : Block}
  {interrupted : List Nat → Bool} {draft : Draft State Context} {added : List (Entry State Context)}
  {gone : NodeRef → Prop} {count : Nat}

/-- The first chain has what the second has, and besides this at most the `count` oldest nodes
of its own and the entries of nodes that are `gone` from the second.  Of these each belongs to
such a node or is stale. -/
structure Trails (gone : NodeRef → Prop) (count : Nat) (behind ahead : RecentChain preset rules) :
    Prop where
  limits : behind.limits = ahead.limits
  tree : Trimmed count behind.choice.tree ahead.choice.tree
  heard : behind.choice.ballots.votes.map Vote.heard = ahead.choice.ballots.votes.map Vote.heard
  pool : Pool.Thinned gone behind.pool ahead.pool
  keyed : behind.pool.Keyed
  behindUnpinned : behind.choice.pin = none
  aheadUnpinned : ahead.choice.pin = none
  excess : ∀ ref entry, gone ref → behind.pool.find? ref = some entry →
    (∃ position < count, behind.choice.tree.position? ref = some position) ∨
      entry.slot < ahead.pool.anchorSlot
  swept : ahead.pool.NoneStale ∨ ahead.pool.anchorSlot ≤ behind.pool.anchorSlot

/-- Roots that no node that is gone has, and of which no node is left to be dropped. -/
structure Clear (gone : NodeRef → Prop) (count : Nat) (tree : BlockTree) (root : Root) : Prop where
  spares : tree.Spares count root
  kept : ∀ ref, gone ref → ref.root ≠ root

theorem preState_of_trails
    (trails : Trails gone count behind ahead)
    (spares : behind.choice.tree.Spares count (rules.blockParent block))
    {previous : Entry State Context} (found : ahead.preState block = .ok previous) :
    behind.preState block = .ok previous := by
  have closest : ∀ entry,
      ahead.closest? (rules.blockParent block) (rules.blockSlot block) = some entry →
      behind.closest? (rules.blockParent block) (rules.blockSlot block) = some entry := by
    intro entry known
    obtain ⟨⟨node, position⟩, resolved, held⟩ := Option.bind_eq_some_iff.1 known
    have whole := trails.tree.resolve?_eq spares (rules.blockSlot block)
    rw [resolved, Option.map_some] at whole
    simp only [closest?, whole, bind, Option.bind_some]
    exact ((trails.pool.found node entry).1 held).1
  unfold preState at found ⊢
  dsimp only at found ⊢
  rw [trails.tree.earliestSlot?_eq spares] at found
  split at found
  next => cases found
  next =>
    split at found
    next => cases found
    next notOlder =>
      rw [if_neg notOlder]
      split at found
      next => cases found
      next entry known =>
        rw [closest entry known, trails.limits]
        exact found

theorem draft_of_trails
    (trails : Trails gone count behind ahead)
    (spares : behind.choice.tree.Spares count (rules.blockParent block))
    (drafted : ahead.draft block interrupted = .ok draft) :
    behind.draft block interrupted = .ok draft := by
  have drafts := drafted
  unfold RecentChain.draft at drafts
  obtain ⟨previous, found, _⟩ := exists_of_bind_eq_ok drafts
  have same : behind.preState block = ahead.preState block :=
    (preState_of_trails trails spares found).trans found.symm
  rw [← drafted]
  simp only [RecentChain.draft, same, trails.limits]

theorem trimmed_commitSlots
    {parentRoot root : Root} (different : parentRoot ≠ root) :
    ∀ (entries : List (Entry State Context)) {behind ahead : RecentChain preset rules},
      Trimmed count behind.choice.tree ahead.choice.tree →
      behind.choice.tree.Spares count parentRoot →
      behind.choice.tree.containsRoot root = false →
      (commitSlots parentRoot entries behind).1 = (commitSlots parentRoot entries ahead).1 ∧
      Trimmed count (commitSlots parentRoot entries behind).2.choice.tree
        (commitSlots parentRoot entries ahead).2.choice.tree ∧
      (commitSlots parentRoot entries behind).2.choice.tree.Spares count parentRoot ∧
      (commitSlots parentRoot entries behind).2.choice.tree.containsRoot root = false
  | [], _, _, trimmed, spares, isNew => ⟨rfl, trimmed, spares, isNew⟩
  | entry :: rest, behind, ahead, trimmed, spares, isNew => by
    have inserted := trimmed.insertSlots spares entry.slot
      ⟨(rules.justified entry.state).epoch, (rules.finalized entry.state).epoch⟩
    obtain ⟨appended, together, ofRoot, grows⟩ := insertSlots_spec (fun _ _ _ => True) trimmed.whole
      parentRoot entry.slot
      ⟨(rules.justified entry.state).epoch, (rules.finalized entry.state).epoch⟩
    have sparesStill := spares.grow trimmed.inside ⟨appended, together.symm⟩
    have stillNew := (trimmed.whole.grow grows).containsRoot_eq_false_iff.2 fun node member => by
      rw [together] at member
      rcases List.mem_append.1 member with old | new
      · exact trimmed.whole.containsRoot_eq_false_iff.1 isNew node old
      · exact ofRoot node new ▸ different
    simp only [commitSlots, ForkChoice.insertSlots]
    generalize behind.choice.tree.insertSlots parentRoot entry.slot _ = result at *
    generalize ahead.choice.tree.insertSlots parentRoot entry.slot _ = aheadResult at *
    obtain ⟨answer, tree⟩ := result
    obtain ⟨_, aheadTree⟩ := aheadResult
    obtain ⟨rfl, trimmed⟩ := inserted
    cases answer with
    | false => exact ⟨rfl, trimmed, sparesStill, stillNew⟩
    | true => exact trimmed_commitSlots different rest trimmed sparesStill stillNew

theorem trimmed_commit
    (trimmed : Trimmed count behind.choice.tree ahead.choice.tree)
    (different : draft.parentRoot ≠ draft.block.blockRoot)
    (spares : behind.choice.tree.Spares count draft.parentRoot)
    (isNew : behind.choice.tree.containsRoot draft.block.blockRoot = false) :
    Trimmed count (behind.commit draft).2.choice.tree (ahead.commit draft).2.choice.tree := by
  have filled := trimmed_commitSlots different draft.replayed trimmed spares isNew
  unfold commit
  generalize commitSlots draft.parentRoot draft.replayed behind = result at *
  generalize commitSlots draft.parentRoot draft.replayed ahead = aheadResult at *
  obtain ⟨answer, grown⟩ := result
  obtain ⟨_, grownAhead⟩ := aheadResult
  obtain ⟨rfl, filled, sparesStill, stillNew⟩ := filled
  cases answer with
  | error => exact filled
  | ok =>
    have inserted := filled.insertBlock sparesStill stillNew draft.block.slot
      ⟨(rules.justified draft.block.state).epoch, (rules.finalized draft.block.state).epoch⟩
    simp only [ForkChoice.insertBlock]
    generalize
      grown.choice.tree.insertBlock draft.parentRoot draft.block.blockRoot _ _ = result at *
    generalize grownAhead.choice.tree.insertBlock draft.parentRoot draft.block.blockRoot _ _ =
      aheadResult at *
    obtain ⟨answer, tree⟩ := result
    obtain ⟨_, aheadTree⟩ := aheadResult
    obtain ⟨rfl, trimmed⟩ := inserted
    cases answer <;> exact trimmed

/-- Chains that have grown by the same entries, none of which is gone from the one behind, still
differ by what they differed before. -/
theorem Trails.grow
    {entries : List (Entry State Context)} {grown grownAhead : RecentChain preset rules}
    (trails : Trails gone count behind ahead)
    (stocked : Stocked rules inRange behind.choice.tree behind.pool)
    (growth : Grown inRange behind entries grown)
    (aheadGrowth : Grown inRange ahead entries grownAhead)
    (keptAll : ∀ entry ∈ entries, ¬ gone entry.ref)
    (tree : Trimmed count grown.choice.tree grownAhead.choice.tree) :
    Trails gone count grown grownAhead := by
  have behindChoice := growth.choice_eq
  have aheadChoice := aheadGrowth.choice_eq
  exact {
    limits := by
      rw [growth.limits_eq, aheadGrowth.limits_eq]
      exact trails.limits
    tree := tree
    heard := by
      rw [behindChoice, aheadChoice]
      exact trails.heard
    pool := by
      rw [growth.pool_eq, aheadGrowth.pool_eq]
      exact trails.pool.insertAll keptAll
    keyed := growth.keyed stocked trails.keyed
    behindUnpinned := by
      rw [behindChoice]
      exact trails.behindUnpinned
    aheadUnpinned := by
      rw [aheadChoice]
      exact trails.aheadUnpinned
    excess := fun ref entry isGone found => by
      rw [growth.pool_eq, Pool.find?_insertAll_of_ne fun other member same =>
        keptAll other member (same ▸ isGone)] at found
      rw [aheadGrowth.anchorSlot_eq]
      refine (trails.excess ref entry isGone found).imp ?_ id
      exact fun ⟨position, before, present⟩ =>
        ⟨position, before, growth.position?_of_position? stocked present⟩
    swept := by
      rw [growth.anchorSlot_eq, aheadGrowth.anchorSlot_eq]
      refine trails.swept.imp (fun noneStale ref entry found => ?_) id
      rw [aheadGrowth.anchorSlot_eq]
      exact aheadGrowth.slot_le noneStale ref entry found }

/-- A block that the second chain takes can be added to both. -/
theorem Trails.commit
    (trails : Trails gone count behind ahead)
    (stocked : Stocked rules inRange behind.choice.tree behind.pool)
    (aheadStocked : Stocked rules inRange ahead.choice.tree ahead.pool)
    (parent : Clear gone count behind.choice.tree (rules.blockParent block))
    (kept : ∀ ref, gone ref → ref.root ≠ rules.blockRoot block)
    (isNew : behind.choice.containsBlock (rules.blockRoot block) = false)
    (allowed : ∀ slot ≤ rules.blockSlot block, inRange slot)
    (drafted : ahead.draft block interrupted = .ok draft) :
    ∃ grown grownAhead, behind.draft block interrupted = .ok draft ∧
      behind.commit draft = (.ok (), grown) ∧
      Grown inRange behind (draft.replayed ++ [draft.block]) grown ∧
      ahead.commit draft = (.ok (), grownAhead) ∧
      Grown inRange ahead (draft.replayed ++ [draft.block]) grownAhead ∧
      Trails gone count grown grownAhead := by
  have behindDrafted := draft_of_trails trails parent.spares drafted
  obtain ⟨grown, committed, growth⟩ := commit_grown stocked isNew behindDrafted allowed
  have aheadNew : ahead.choice.containsBlock (rules.blockRoot block) = false :=
    trails.tree.containsRoot_eq_false isNew
  obtain ⟨grownAhead, aheadCommitted, aheadGrowth⟩ :=
    commit_grown aheadStocked aheadNew drafted allowed
  refine ⟨grown, grownAhead, behindDrafted, committed, growth, aheadCommitted, aheadGrowth, ?_⟩
  have roots := root_of_draft stocked behindDrafted
  have keptAll : ∀ entry ∈ draft.replayed ++ [draft.block], ¬ gone entry.ref := by
    intro entry member isGone
    rcases roots entry member with parentRoot | blockRoot
    · exact parent.kept _ isGone parentRoot
    · exact kept _ isGone blockRoot
  obtain ⟨previous, last, isDraft⟩ := exists_drafted stocked behindDrafted
  obtain ⟨_, node, _, latest, _⟩ := preState_spec stocked isDraft.preState
  have blockRoot : draft.block.blockRoot = rules.blockRoot block :=
    congrArg NodeRef.root isDraft.ref
  have different : draft.parentRoot ≠ draft.block.blockRoot := by
    have ofParent : node.ref.root = rules.blockParent block := latest.ofRoot
    rw [isDraft.parentRoot, blockRoot, ← ofParent]
    exact stocked.sound.containsRoot_eq_false_iff.1 isNew node (List.mem_of_getElem? latest.here)
  have tree := trimmed_commit trails.tree different
    (isDraft.parentRoot ▸ parent.spares) (blockRoot ▸ isNew)
  rw [committed, aheadCommitted] at tree
  exact trails.grow stocked growth aheadGrowth keptAll tree

end RecentChain

end BeaconChain
