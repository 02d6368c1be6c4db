import BeaconChain.Proofs.RecentChain.Resume

/-!
# Chains that catch up

Blocks that are added one after another, each to the one before, and that all justify and
finalize the same checkpoints, take up a migration that was refused, over and over until it comes
to its end.  To the chain that has migrated already they bring nothing but themselves.
-/

namespace BeaconChain

open BlockTree ForkChoice

variable {preset : Preset} {State Block Context store : Type} {rules : Rules State Block Context}
  {inRange : Nat → Prop}

theorem ForkChoice.checkpointNode_of_boundary
    {choice : ForkChoice preset} {checkpoint : Checkpoint} {position : Nat}
    (placed : choice.tree.position? (boundary preset checkpoint) = some position) :
    choice.checkpointNode checkpoint = .ok (boundary preset checkpoint) := by
  simp only [boundary] at placed ⊢
  simp [checkpointNode, resolve?, placed]

namespace RecentChain

variable {chain next grown behind ahead : RecentChain preset rules} {entry : Entry State Context}
  {receive : EntryReceiver State Context store} {state after : store} {outcome : Except Error Unit}
  {log logAhead logAfter : List (Handover State Context)} {added : List (Entry State Context)}
  {gone : NodeRef → Prop} {count : Nat} {pedigree : Pedigree} {start : Entry State Context}
  {floor : Nat} {block : Block} {interrupted : List Nat → Bool} {draft : Draft State Context}
  {answer : Except Error (Entry State Context)} {root : Root}

theorem balancesAt_of_boundary
    {checkpoint : Checkpoint} {position : Nat}
    (placed : chain.choice.tree.position? (boundary preset checkpoint) = some position)
    (found : chain.pool.find? (boundary preset checkpoint) = some entry) :
    chain.balancesAt checkpoint = .ok (rules.balances entry.state) := by
  simp only [balancesAt, checkpointEntry, checkpointNode_of_boundary placed, bind,
    Except.bind, found]
  rfl

/-- A migration that waits can be taken up again by any block with the same checkpoints. -/
theorem Waits.exists_prepared
    (waits : Waits gone count behind ahead log logAhead)
    (regular : Regular pedigree start floor behind log)
    (light : ahead.choice.balances.sum < weightLimit)
    (sameEpoch : ahead.choice.justified.epoch = (rules.justified entry.state).epoch)
    (finalizes : rules.finalized entry.state = ahead.choice.finalized) :
    ∃ counted, behind.choice.Prepared entry.ref (rules.justified entry.state)
        (rules.finalized entry.state) behind.balancesAt (boundary preset ahead.choice.finalized)
        ahead.choice.balances counted ∧
      counted.justified = ahead.choice.justified := by
  obtain ⟨anchor, names, accounts⟩ := regular.reached.accounts
  obtain ⟨position, judged, _⟩ := waits.judged
  obtain ⟨judge, found, weighed⟩ := waits.weighed
  have known : behind.balancesAt behind.choice.justified = .ok ahead.choice.balances := by
    rw [waits.justified, balancesAt_of_boundary judged found, weighed]
  obtain ⟨_, counts⟩ := exists_settle accounts (waits.balances ▸ light) light
    ⟨behind.choice.justified.epoch, (rules.finalized entry.state).epoch⟩
  have justifiedEpoch : behind.choice.justified.epoch = (rules.justified entry.state).epoch :=
    waits.justified ▸ sameEpoch
  have older : behind.choice.finalized.epoch < (rules.finalized entry.state).epoch :=
    finalizes ▸ waits.older
  have resolved : behind.choice.checkpointNode (rules.finalized entry.state) =
      .ok (boundary preset ahead.choice.finalized) := by
    rw [finalizes]
    exact checkpointNode_of_boundary waits.place
  obtain ⟨counted, prepared⟩ := exists_prepared_of_pending waits.behindUnpinned justifiedEpoch older
    (finalizes ▸ waits.pending) resolved known counts
  refine ⟨counted, prepared, ?_⟩
  have notNewer : ¬ behind.choice.justified.epoch < (rules.justified entry.state).epoch := by omega
  rw [prepared.justified, newer, if_neg notNewer, waits.justified]

/-- There is nothing to be settled for checkpoints that are not newer. -/
theorem settle_of_not_later
    (receive : EntryReceiver State Context store) (state : store)
    (justifiedNotLater : (rules.justified entry.state).epoch ≤ chain.choice.justified.epoch)
    (finalizedNotLater : (rules.finalized entry.state).epoch ≤ chain.choice.finalized.epoch) :
    chain.settle entry receive state = (.ok (), chain, state) := by
  simp [settle, adopt, adopt_of_not_later _ _ justifiedNotLater finalizedNotLater]

theorem addBlock_of_commit
    (receive : EntryReceiver State Context store) (state : store)
    (isNew : chain.choice.containsBlock (rules.blockRoot block) = false)
    (drafted : chain.draft block interrupted = .ok draft)
    (committed : chain.commit draft = (.ok (), grown))
    (settled : grown.settle draft.block receive state = (outcome, next, after)) :
    chain.addBlock block interrupted receive state =
      (outcome.map fun _ => draft.block, next, after) := by
  simp only [addBlock, isNew, drafted, committed, settled]
  cases outcome <;> rfl

theorem Regular.settle
    (regular : Regular pedigree start floor chain log)
    (settled : chain.settle entry (watching receive) (state, log) =
      (outcome, next, after, logAfter)) :
    Regular pedigree start floor next logAfter := by
  obtain ⟨_, adopted, ⟨between, logBetween⟩, adopts, rest⟩ := settle_cases settled
  have regularAdopted := regular.adopt adopts
  rcases rest with ⟨rfl, same⟩ | ⟨_, swept⟩
  · cases same
    exact regularAdopted
  · exact regularAdopted.sweep swept

theorem Regular.commit
    (regular : Regular pedigree start floor chain log)
    (admitted : pedigree.Admits (rules.blockParent block) (rules.blockRoot block)
      (rules.blockSlot block))
    (drafted : chain.draft block interrupted = .ok draft)
    (committed : chain.commit draft = (.ok (), grown))
    (growth : Grown (· < slotLimit) chain added grown) :
    Regular pedigree start floor grown log where
  goesOn := regular.goesOn.grown growth
  mark := growth.watermark regular.mark
  keyed := growth.keyed regular.stocked regular.keyed
  reached := by
    have reached := reached_commit regular.reached (admits_of_draft drafted admitted)
    rwa [committed] at reached

theorem Regular.addBlock
    (regular : Regular pedigree start floor chain log)
    (allowed : rules.blockSlot block < slotLimit)
    (admitted : pedigree.Admits (rules.blockParent block) (rules.blockRoot block)
      (rules.blockSlot block))
    (added : chain.addBlock block interrupted (watching receive) (state, log) =
      (answer, next, after, logAfter)) : Regular pedigree start floor next logAfter := by
  rcases addBlock_cases regular.stocked
      (fun slot notLater => Nat.lt_of_le_of_lt notLater allowed) added
    with ⟨rfl, same⟩ | ⟨draft, grown, _, _, drafted, committed, growth, settled⟩
  · cases same
    exact regular
  · exact (regular.commit admitted drafted committed growth).settle settled

theorem Unmoved.keyed (unmoved : chain.Unmoved next) (keyed : chain.pool.Keyed) : next.pool.Keyed :=
  unmoved.pool ▸ keyed

/-- A block of a slot before the last two steps. -/
def Call.InRange (rules : Rules State Block Context) : Call State Block Context → Prop
  | .addBlock block _ _ _ => rules.blockSlot block < slotLimit
  | _ => True

theorem Regular.unmoved
    (regular : Regular pedigree start floor chain log)
    (goesOn : GoesOn (· < slotLimit) start next log) (unmoved : chain.Unmoved next)
    (reached : Reached pedigree next.choice) : Regular pedigree start floor next log :=
  ⟨goesOn, Unmoved.watermark unmoved regular.mark, Unmoved.keyed unmoved regular.keyed, reached⟩

theorem Regular.perform
    (regular : Regular pedigree start floor chain log) (call : Call State Block Context)
    (allowed : call.InRange rules) (agrees : call.Agrees rules pedigree) :
    Regular pedigree start floor (chain.perform call) (chain.noted log call) := by
  have reached := reached_perform regular.reached call agrees
  have goesOn : GoesOn (· < slotLimit) start (chain.perform call) (chain.noted log call) := by
    refine regular.goesOn.perform call ?_
    rintro _ block _ _ _ rfl slot notLater
    exact Nat.lt_of_le_of_lt notLater allowed
  cases call with
  | addBlock block interrupted receive state =>
    rw [RecentChain.perform, ← addBlock_watching chain block interrupted receive state log]
    exact regular.addBlock allowed agrees rfl
  | _ =>
    refine regular.unmoved goesOn (chain.perform_unmoved ?_) reached
    intro _ _ _ _ _ same
    cases same

theorem Run.regular
    {first : RecentChain preset rules}
    (run : Run (fun _ call => call.InRange rules ∧ call.Agrees rules pedigree) first chain log)
    (begins : Regular pedigree start floor first []) : Regular pedigree start floor chain log := by
  induction run with
  | start => exact begins
  | call _ call permitted ih => exact ih.perform call permitted.1 permitted.2

theorem ofAnchor?_regular
    {limits : Limits} {root parentRoot : Root} {anchorState : State}
    (started : ofAnchor? limits root parentRoot anchorState = .ok chain)
    (inRange : rules.stateSlot anchorState < slotLimit)
    (admitted : pedigree.Admits parentRoot root (rules.stateSlot anchorState))
    (nonzero : (⟨root, rules.stateSlot anchorState⟩ : NodeRef) ≠ .zero) :
    ∃ anchor, Regular pedigree anchor (rules.stateSlot anchorState) chain [] := by
  obtain ⟨anchor, _, goesOn⟩ := ofAnchor?_goesOn (· < slotLimit) started inRange
  refine ⟨anchor, goesOn, ofAnchor?_watermark started, ?_,
    ofAnchor?_reached started admitted nonzero⟩
  obtain ⟨_, _, made⟩ := exists_of_bind_eq_ok started
  cases made
  have nothing : ({ anchorSlot := rules.stateSlot anchorState } : Pool State Context).Keyed := nofun
  exact nothing.insert rfl

theorem Grown.ref_cases (growth : Grown inRange chain added grown) :
    ∀ node ∈ grown.choice.tree.nodes,
      node ∈ chain.choice.tree.nodes ∨ ∃ entry ∈ added, entry.ref = node.ref := by
  induction growth with
  | refl => exact fun node member => .inl member
  | @join _ _ last entry _ joins ih =>
    intro node member
    rcases List.mem_append.1 member with old | new
    · refine (ih node old).imp id ?_
      rintro ⟨other, isAdded, named⟩
      exact ⟨other, List.mem_append_left _ isAdded, named⟩
    · rw [List.mem_singleton.1 new]
      exact .inr ⟨entry, List.mem_append_right _ List.mem_cons_self, joins.named⟩

/-- A block brings no other root than its own. -/
theorem containsRoot_of_commit
    (stocked : Stocked rules inRange chain.choice.tree chain.pool)
    (drafted : chain.draft block interrupted = .ok draft)
    (growth : Grown inRange chain (draft.replayed ++ [draft.block]) grown)
    (different : root ≠ rules.blockRoot block)
    (absent : chain.choice.tree.containsRoot root = false) :
    grown.choice.tree.containsRoot root = false := by
  have others := stocked.sound.containsRoot_eq_false_iff.1 absent
  refine (growth.stocked stocked).sound.containsRoot_eq_false_iff.2 fun node member => ?_
  rcases growth.ref_cases node member with old | ⟨entry, isAdded, named⟩
  · exact others node old
  · obtain ⟨previous, last, isDraft⟩ := exists_drafted stocked drafted
    obtain ⟨_, parent, _, latest, _⟩ := preState_spec stocked isDraft.preState
    rw [← named]
    rcases root_of_draft stocked drafted entry isAdded with ofParent | ofBlock
    · rw [ofParent, ← show parent.ref.root = rules.blockParent block from latest.ofRoot]
      exact others parent (List.mem_of_getElem? latest.here)
    · rw [ofBlock]
      exact different.symm

theorem containsRoot_of_prune
    {receive : NodeReceiver store} {tree treeAfter : BlockTree} {ref : NodeRef} (sound : Sound tree)
    (pruned : tree.prune ref receive state = (outcome, treeAfter, after))
    (absent : tree.containsRoot root = false) : treeAfter.containsRoot root = false := by
  have others :=
    (Trimmed.of_sameShape sound.toWellFormed (sameShape_refresh tree)).containsRoot_eq_false
      absent
  rw [sound.refresh.containsRoot_eq_false_iff] at others
  obtain ⟨dropped, made⟩ := prune_tree tree ref receive state
  rw [pruned] at made
  obtain rfl : treeAfter = _ := made
  refine (sound.refresh.dropOldest dropped).containsRoot_eq_false_iff.2 fun node member => ?_
  obtain ⟨position, here⟩ := List.mem_iff_getElem?.1 member
  obtain ⟨before, there, rfl⟩ := getElem?_dropOldest_eq_some_iff.1 here
  exact others before (List.mem_of_getElem? there)

theorem containsRoot_of_settle
    (sound : Sound chain.choice.tree)
    (settled : chain.settle entry receive state = (outcome, next, after))
    (absent : chain.choice.tree.containsRoot root = false) :
    next.choice.tree.containsRoot root = false := by
  obtain ⟨_, adopted, between, adopts, rest⟩ := settle_cases settled
  have sameChoice : next.choice = adopted.choice := by
    rcases rest with ⟨rfl, _⟩ | ⟨_, swept⟩
    · rfl
    · rw [(sweep_pool swept).2]
  rw [sameChoice]
  have adoption := adopt_adoption adopts
  obtain ⟨limits, choice, pool⟩ := adopted
  have recounted : ∀ {counted : ForkChoice preset}, chain.choice.Recounted counted →
      counted.tree.containsRoot root = false := fun recounts =>
    (Trimmed.of_sameShape sound.toWellFormed recounts.shape).containsRoot_eq_false absent
  cases adoption with
  | unchanged => exact absent
  | justify counts =>
    have still := recounted counts
    exact still
  | finalize counts _ _ _ _ _ done =>
    exact containsRoot_of_prune (counts.sound sound) (finalizeAt_spec done).1 (recounted counts)

theorem containsRoot_of_addBlock
    (stocked : Stocked rules inRange chain.choice.tree chain.pool)
    (allowed : ∀ slot ≤ rules.blockSlot block, inRange slot)
    (added : chain.addBlock block interrupted receive state = (answer, next, after))
    (different : root ≠ rules.blockRoot block)
    (absent : chain.choice.tree.containsRoot root = false) :
    next.choice.tree.containsRoot root = false := by
  rcases addBlock_cases stocked allowed added with
    ⟨rfl, _⟩ | ⟨draft, grown, _, _, drafted, _, growth, settled⟩
  · exact absent
  · exact containsRoot_of_settle (growth.stocked stocked).sound settled
      (containsRoot_of_commit stocked drafted growth different absent)

/-- The tree begins with the finalized node, from which the justified one descends. -/
structure Founded (chain : RecentChain preset rules) : Prop where
  settled : chain.choice.pending = none
  oldest : chain.choice.tree.position? (boundary preset chain.choice.finalized) = some 0
  judged : ∃ position,
    chain.choice.tree.position? (boundary preset chain.choice.justified) = some position ∧
    chain.choice.tree.StateDescends position 0

theorem Founded.grow
    (founded : Founded chain) (stocked : Stocked rules inRange chain.choice.tree chain.pool)
    (growth : Grown inRange chain added grown) : Founded grown := by
  obtain ⟨justified, finalized, pending, _⟩ := growth.checkpoints_eq
  obtain ⟨later, together⟩ := growth.nodes_prefix
  obtain ⟨position, judged, descends⟩ := founded.judged
  refine ⟨pending.trans founded.settled, ?_, position, ?_, ?_⟩
  · rw [finalized]
    exact growth.position?_of_position? stocked founded.oldest
  · rw [justified]
    exact growth.position?_of_position? stocked judged
  · rw [StateDescends, ← together]
    exact descends.append

/-- What descends from the finalized node is kept. -/
theorem Founded.exists_entryAt?
    (founded : Founded chain) (regular : Regular pedigree start floor chain log) {position : Nat}
    (descends : chain.choice.tree.StateDescends position 0)
    (inside : position < chain.choice.tree.size) :
    ∃ entry, entryAt? chain.choice.tree chain.pool position = some entry := by
  obtain ⟨first, lineage⟩ := regular.goesOn
  obtain ⟨node, here, named⟩ := (lineage.sound.positions _ _).1 founded.oldest
  have ofRoot : node.ref.root = chain.choice.finalizedRoot := by
    rw [named, finalizedRoot, founded.settled]
    rfl
  obtain rfl : first = 0 := Nat.le_zero.1 (lineage.isFirst.first 0 node here ofRoot)
  exact lineage.kept position (.inr descends) inside

/-! ## Blocks on both chains -/

/-- The first chain waits for its migration to be taken up again, or has come as far as the second.
What is dropped then is not of the root `tip`. -/
inductive Near (gone : NodeRef → Prop) (tip : Root) (behind ahead : RecentChain preset rules)
    (log logAhead : List (Handover State Context)) : Prop where
  | waits (count : Nat) (waits : Waits gone count behind ahead log logAhead)
      (clear : Clear gone count behind.choice.tree tip)
  | level (level : Level gone behind ahead log logAhead)
    (clear : Clear gone 0 behind.choice.tree tip)

/-- A call on the first chain has been refused, or has brought it level with the second. -/
inductive Answered {α : Type} (answer : Except Error α) (value : α) (gone : NodeRef → Prop)
    (behind ahead : RecentChain preset rules)
    (log logAfter logAhead : List (Handover State Context)) :
    Prop where
  | refused (error : Error) (failed : answer = .error error) (refuses : Refuses log logAfter)
  | caughtUp (isOk : answer = .ok value) (level : Level gone behind ahead logAfter logAhead)

theorem Answered.map
    {α : Type} (answered : Answered outcome () gone behind ahead log logAfter logAhead)
    (value : α) :
    Answered (outcome.map fun _ => value) value gone behind ahead log logAfter logAhead := by
  cases answered with
  | refused error failed refuses => exact .refused error (failed ▸ rfl) refuses
  | caughtUp isOk level => exact .caughtUp (isOk ▸ rfl) level

/-- A chain that lags behind is nearer after it has settled a block, however far it has come. -/
theorem Lags.answered
    {counted : ForkChoice preset}
    (lags : Lags gone count behind ahead log logAhead)
    (regular : Regular pedigree start floor behind log)
    (aheadRegular : Regular pedigree start floor ahead logAhead) (floorInRange : floor < slotLimit)
    (lenient : Lenient receive) (clear : Clear gone count behind.choice.tree root)
    (prepared : behind.choice.Prepared entry.ref (rules.justified entry.state)
      (rules.finalized entry.state) behind.balancesAt (boundary preset ahead.choice.finalized)
      ahead.choice.balances counted)
    (finalizes : rules.finalized entry.state = ahead.choice.finalized)
    (justifies : counted.justified = ahead.choice.justified)
    (settled : behind.settle entry (watching receive) (state, log) =
      (outcome, next, after, logAfter)) :
    Near gone root next ahead logAfter logAhead ∧
      Answered outcome () gone next ahead log logAfter logAhead := by
  rcases lags.settle regular aheadRegular floorInRange lenient prepared finalizes justifies
      settled with
    ⟨error, left, failed, refuses, waits, spares⟩ | ⟨isOk, level⟩
  · exact ⟨.waits left waits ⟨spares _ clear.spares, clear.kept⟩, .refused error failed refuses⟩
  · exact ⟨.level level ⟨spares_zero _ _, clear.kept⟩, .caughtUp isOk level⟩

/-- The same blocks have been added to both chains, the last of them at `tip`. -/
structure Tracks (gone : NodeRef → Prop) (pedigree : Pedigree) (start : Entry State Context)
    (floor : Nat) (justified finalized : Checkpoint) (tip : Root)
    (behind ahead : RecentChain preset rules) (log logAhead : List (Handover State Context)) :
    Prop where
  regular : Regular pedigree start floor behind log
  aheadRegular : Regular pedigree start floor ahead logAhead
  sameEpoch : ahead.choice.justified.epoch = justified.epoch
  finalizes : ahead.choice.finalized = finalized
  light : ahead.choice.balances.sum < weightLimit
  founded : Founded ahead
  near : Near gone tip behind ahead log logAhead

/-- A block that can be added to a chain, with the checkpoints of its state. -/
structure Accepted (pedigree : Pedigree) (justified finalized : Checkpoint)
    (chain : RecentChain preset rules) (block : Block) (interrupted : List Nat → Bool)
    (draft : Draft State Context) : Prop where
  allowed : rules.blockSlot block < slotLimit
  admitted : pedigree.Admits (rules.blockParent block) (rules.blockRoot block)
    (rules.blockSlot block)
  drafted : chain.draft block interrupted = .ok draft
  justified : rules.justified draft.block.state = justified
  finalized : rules.finalized draft.block.state = finalized

/-- A block that can be added to the second chain is committed to both. -/
theorem Trails.commits
    {justified finalized : Checkpoint} (trails : Trails gone count behind ahead)
    (regular : Regular pedigree start floor behind log)
    (aheadRegular : Regular pedigree start floor ahead logAhead)
    (parent : Clear gone count behind.choice.tree (rules.blockParent block))
    (isNew : behind.choice.containsBlock (rules.blockRoot block) = false)
    (kept : ∀ ref, gone ref → ref.root ≠ rules.blockRoot block)
    (accepted : Accepted pedigree justified finalized ahead block interrupted draft) :
    ∃ grown grownAhead, behind.draft block interrupted = .ok draft ∧
      (behind.commit draft = (.ok (), grown) ∧
        Grown (· < slotLimit) behind (draft.replayed ++ [draft.block]) grown ∧
        Regular pedigree start floor grown log) ∧
      (ahead.commit draft = (.ok (), grownAhead) ∧
        Grown (· < slotLimit) ahead (draft.replayed ++ [draft.block]) grownAhead ∧
        Regular pedigree start floor grownAhead logAhead) ∧
      Trails gone count grown grownAhead ∧
        Clear gone count grown.choice.tree (rules.blockRoot block) := by
  obtain ⟨grown, grownAhead, drafted, committed, growth, aheadCommitted,
      aheadGrowth, grownTrails⟩ :=
    trails.commit regular.stocked aheadRegular.stocked parent kept isNew
      (fun slot notLater => Nat.lt_of_le_of_lt notLater accepted.allowed) accepted.drafted
  have spares : behind.choice.tree.Spares count (rules.blockRoot block) :=
    spares_of_not_contains regular.stocked.sound.toIndexed isNew
  exact ⟨grown, grownAhead, drafted,
    ⟨committed, growth, regular.commit accepted.admitted drafted committed growth⟩,
    ⟨aheadCommitted, aheadGrowth,
      aheadRegular.commit accepted.admitted accepted.drafted aheadCommitted aheadGrowth⟩,
    grownTrails, spares.grow trails.tree.inside growth.nodes_prefix, kept⟩

theorem Tracks.advance
    {justified finalized : Checkpoint} {tip : Root} {nextAhead : RecentChain preset rules}
    (tracks : Tracks gone pedigree start floor justified finalized tip behind ahead log logAhead)
    (regular : Regular pedigree start floor next logAfter)
    (aheadRegular : Regular pedigree start floor nextAhead logAhead)
    (growth : Grown (· < slotLimit) ahead added nextAhead)
    (near : Near gone root next nextAhead logAfter logAhead) :
    Tracks gone pedigree start floor justified finalized root next nextAhead logAfter logAhead := by
  obtain ⟨sameJustified, sameFinalized, _, sameBalances⟩ := growth.checkpoints_eq
  exact {
    regular := regular
    aheadRegular := aheadRegular
    sameEpoch := by rw [sameJustified, tracks.sameEpoch]
    finalizes := by rw [sameFinalized, tracks.finalizes]
    light := sameBalances ▸ tracks.light
    founded := tracks.founded.grow tracks.aheadRegular.stocked growth
    near := near }

/-- The second chain has nothing to settle, and calls no receiver. -/
theorem Tracks.ahead_addBlock
    {justified finalized : Checkpoint} {tip : Root} {grownAhead : RecentChain preset rules}
    (tracks : Tracks gone pedigree start floor justified finalized tip behind ahead log logAhead)
    (isNew : behind.choice.containsBlock (rules.blockRoot block) = false)
    (accepted : Accepted pedigree justified finalized ahead block interrupted draft)
    (committed : ahead.commit draft = (.ok (), grownAhead))
    (growth : Grown (· < slotLimit) ahead added grownAhead)
    (receive : EntryReceiver State Context store) (state : store) :
    ahead.addBlock block interrupted receive state = (.ok draft.block, grownAhead, state) := by
  have aheadNew : ahead.choice.containsBlock (rules.blockRoot block) = false := by
    cases tracks.near with
    | waits _ waits _ => exact waits.tree.containsRoot_eq_false isNew
    | level level _ => exact level.tree.containsRoot_eq_false isNew
  obtain ⟨sameJustified, sameFinalized, _, _⟩ := growth.checkpoints_eq
  refine addBlock_of_commit receive state aheadNew accepted.drafted committed
    (settle_of_not_later receive state ?_ ?_)
  · rw [sameJustified, tracks.sameEpoch, accepted.justified]
  · rw [sameFinalized, tracks.finalizes, accepted.finalized]

/-- A chain that has come as far as the second has nothing to settle either. -/
theorem Tracks.settle_of_level
    {justified finalized : Checkpoint} {tip : Root}
    (tracks : Tracks gone pedigree start floor justified finalized tip behind ahead log logAhead)
    (level : Level gone behind ahead log logAhead)
    (accepted : Accepted pedigree justified finalized ahead block interrupted draft)
    (growth : Grown (· < slotLimit) behind added grown)
    (receive : EntryReceiver State Context store) (state : store) :
    grown.settle draft.block receive state = (.ok (), grown, state) := by
  obtain ⟨sameJustified, sameFinalized, _, _⟩ := growth.checkpoints_eq
  refine settle_of_not_later receive state ?_ ?_
  · rw [sameJustified, level.agrees.justified, tracks.sameEpoch, accepted.justified]
  · rw [sameFinalized, level.agrees.finalized, tracks.finalizes, accepted.finalized]

theorem Tracks.addBlock
    {justified finalized : Checkpoint}
    (tracks : Tracks gone pedigree start floor justified finalized (rules.blockParent block) behind
      ahead log logAhead)
    (floorInRange : floor < slotLimit) (lenient : Lenient receive)
    (isNew : behind.choice.containsBlock (rules.blockRoot block) = false)
    (kept : ∀ ref, gone ref → ref.root ≠ rules.blockRoot block)
    (accepted : Accepted pedigree justified finalized ahead block interrupted draft)
    (added : behind.addBlock block interrupted (watching receive) (state, log) =
      (answer, next, after, logAfter)) :
    ∃ nextAhead,
      (∀ {store : Type} (receive : EntryReceiver State Context store) (state : store),
        ahead.addBlock block interrupted receive state = (.ok draft.block, nextAhead, state)) ∧
      Tracks gone pedigree start floor justified finalized (rules.blockRoot block) next nextAhead
        logAfter logAhead ∧
      Answered answer draft.block gone next nextAhead log logAfter logAhead := by
  have regularNext := tracks.regular.addBlock accepted.allowed accepted.admitted added
  cases tracks.near with
  | waits count waits parent =>
    obtain ⟨grown, grownAhead, drafted, ⟨committed, growth, regular⟩,
      ⟨aheadCommitted, aheadGrowth, aheadRegular⟩, trails, clear⟩ :=
      waits.commits tracks.regular tracks.aheadRegular parent isNew kept accepted
    obtain ⟨sameJustified, sameFinalized, _, sameBalances⟩ := aheadGrowth.checkpoints_eq
    have waitsGrown := waits.grow tracks.regular.stocked growth aheadGrowth trails
    have sameEpoch : grownAhead.choice.justified.epoch =
        (rules.justified draft.block.state).epoch := by
      rw [sameJustified, tracks.sameEpoch, accepted.justified]
    have finalizes : rules.finalized draft.block.state = grownAhead.choice.finalized := by
      rw [sameFinalized, tracks.finalizes, accepted.finalized]
    obtain ⟨counted, prepared, justifies⟩ :=
      waitsGrown.exists_prepared regular (sameBalances ▸ tracks.light) sameEpoch finalizes
    generalize settled : grown.settle draft.block (watching receive) (state, log) = result
    obtain ⟨outcome, last, lastState, lastLog⟩ := result
    rw [addBlock_of_commit _ _ isNew drafted committed settled] at added
    cases added
    obtain ⟨near, answered⟩ := waitsGrown.toLags.answered regular aheadRegular floorInRange lenient
      clear prepared finalizes justifies settled
    exact ⟨grownAhead, tracks.ahead_addBlock isNew accepted aheadCommitted aheadGrowth,
      tracks.advance regularNext aheadRegular aheadGrowth near, answered.map _⟩
  | level level parent =>
    obtain ⟨grown, grownAhead, drafted, ⟨committed, growth, regular⟩,
      ⟨aheadCommitted, aheadGrowth, aheadRegular⟩, trails, clear⟩ :=
      level.commits tracks.regular tracks.aheadRegular parent isNew kept accepted
    have levelGrown := level.grow growth aheadGrowth trails
    rw [addBlock_of_commit _ _ isNew drafted committed
      (tracks.settle_of_level level accepted growth _ _)] at added
    cases added
    exact ⟨grownAhead, tracks.ahead_addBlock isNew accepted aheadCommitted aheadGrowth,
      tracks.advance regularNext aheadRegular aheadGrowth (.level levelGrown clear),
      .caughtUp rfl levelGrown⟩

end RecentChain

end BeaconChain
