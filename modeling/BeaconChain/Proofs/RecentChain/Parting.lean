import BeaconChain.Proofs.RecentChain.Pursuit

/-!
# Chains that part

One and the same migration is made with two receivers.  With the first it comes to its end.  The
chain as it was before then lags behind what it has become, and so it does with the second
receiver, as far as that has not failed.
-/

namespace BeaconChain

open BlockTree ForkChoice

variable {preset : Preset} {State Block Context store : Type} {rules : Rules State Block Context}
  {inRange : Nat → Prop}

theorem Pool.Remains.release
    {receive : EntryReceiver State Context store} {pool : Pool State Context} {node : Node}
    {canonical : Bool} {before after : Pool State Context × store} {outcome : Except Error Unit}
    (remains : Remains pool before.1)
    (released : Pool.release receive node canonical before = (outcome, after)) :
    Remains pool after.1 := by
  rcases RecentChain.release_pool released with same | ⟨dropped, slot, _, same⟩
  · exact same ▸ remains
  · have removed := remains.remove dropped
    rw [same]
    exact ⟨removed.toThinned.congr, removed.keyed⟩

namespace RecentChain

variable {chain next grown behind ahead : RecentChain preset rules} {entry : Entry State Context}
  {receive : EntryReceiver State Context store} {state after : store} {outcome : Except Error Unit}
  {log logAhead logAfter : List (Handover State Context)} {added : List (Entry State Context)}
  {gone : NodeRef → Prop} {count : Nat} {pedigree : Pedigree} {start : Entry State Context}
  {floor : Nat} {block : Block} {interrupted : List Nat → Bool} {draft : Draft State Context}
  {answer : Except Error (Entry State Context)} {root : Root} {counted : ForkChoice preset}
  {balances : List Nat} {anchor : NodeRef}

theorem remains_of_settle
    (keyed : chain.pool.Keyed)
    (settled : chain.settle entry receive state = (outcome, next, after)) :
    Pool.Remains chain.pool next.pool := by
  obtain ⟨_, adopted, between, adopts, rest⟩ := settle_cases settled
  have remains : Pool.Remains chain.pool adopted.pool :=
    adopt_invariant (fun pooled => Pool.Remains chain.pool pooled.1)
      (fun _ _ _ _ _ remains released => remains.release released) (.refl keyed) adopts
  rcases rest with ⟨rfl, _⟩ | ⟨_, swept⟩
  · exact remains
  · exact Pool.sweep_invariant (fun pool _ => Pool.Remains chain.pool pool)
      (fun _ _ _ _ _ _ remains _ => ⟨remains, fun _ => remains.remove _⟩) remains
        (sweep_pool swept).1

/-- A settlement that comes to its end has dropped the nodes before the boundary, and has swept
what is stale if it has raised the slot. -/
theorem settle_spec
    (regular : Regular pedigree start floor chain log) (floorInRange : floor < slotLimit)
    (lenient : Lenient receive)
    (prepared : chain.choice.Prepared entry.ref (rules.justified entry.state)
      (rules.finalized entry.state) chain.balancesAt anchor balances counted)
    (place : chain.choice.tree.position? anchor = some count)
    (settled : chain.settle entry (watching receive) (state, log) =
      (.ok (), next, after, logAfter)) :
    ∃ left logBetween,
      Pruned chain.choice.tree count chain.pool log count next.choice.tree left logBetween ∧
      next.choice = { counted with
        tree := next.choice.tree, finalized := rules.finalized entry.state,
        pending := none, pin := none } ∧
      next.choice.tree.stamp = counted.tree.stamp ∧ taken logAfter = taken logBetween ∧
      next.limits = chain.limits ∧
      (∀ ref found, left.find? ref = some found → next.pool.find? ref = some found ∨
        found.slot < next.pool.anchorSlot) := by
  generalize adopts : chain.adopt entry (watching receive) (state, log) = result
  obtain ⟨verdict, adopted, between, logBetween⟩ := result
  have adoptedRegular := regular.adopt adopts
  obtain ⟨tree, left, pruned, made⟩ := adopt_of_prepared prepared adopts
  have sound := regular.stocked.sound
  obtain ⟨accepted, spec, complete⟩ := prune_spec (prepared.sound sound) prepared.shape
    regular.stocked.named place pruned
  have stamp := stamp_prune counted.tree anchor (Pool.release (watching receive))
    (chain.pool, state, log)
  rw [pruned] at stamp
  unfold RecentChain.settle at settled
  rw [adopts] at settled
  rcases made with ⟨error, rfl, _⟩ | ⟨rfl, rfl⟩
  · cases settled
  · obtain rfl := complete rfl
    dsimp only at settled
    split at settled
    next =>
      cases settled
      exact ⟨left, logAfter, spec, rfl, stamp, rfl, rfl, fun _ _ => .inl⟩
    next =>
      obtain ⟨_, lineage⟩ := adoptedRegular.goesOn
      have inRange := adoptedRegular.mark.anchorSlot_lt lineage.orderly floorInRange
      obtain ⟨pooled, same⟩ := sweep_pool settled
      obtain ⟨_, handed, found⟩ := Pool.sweep_spec adoptedRegular.stocked.named
        (Nat.le_of_lt inRange) lenient pooled
      have sameChoice : next.choice = _ := congrArg RecentChain.choice same
      refine ⟨left, logBetween, ?_, ?_, ?_, handed, ?_, fun ref other held => ?_⟩
      · rw [sameChoice]
        exact spec
      · rw [sameChoice]
      · rw [sameChoice]
        exact stamp
      · rw [same]
      · rw [found, Pool.anchorSlot_sweep pooled]
        refine (Nat.lt_or_ge other.slot _).symm.imp (fun notOlder => ⟨held, notOlder⟩) id

/-- An entry is lost with the node that is dropped, or because it is stale. -/
theorem excess_of_pruned
    {treeAfter : BlockTree} {left : Pool State Context} {ref : NodeRef}
    (stocked : Stocked rules inRange chain.choice.tree chain.pool)
    (spec : Pruned chain.choice.tree count chain.pool log count treeAfter left logAfter)
    (isGone : Pool.Lost chain.pool next.pool ref) (known : chain.pool.find? ref = some entry)
    (held : left.find? ref = some entry → next.pool.find? ref = some entry ∨
      entry.slot < next.pool.anchorSlot) :
    (∃ place < count, chain.choice.tree.position? ref = some place) ∨
      entry.slot < next.pool.anchorSlot := by
  obtain ⟨place, node, here, named⟩ := stocked.present ref entry known
  have placed := (stocked.sound.positions _ _).2 ⟨node, here, named⟩
  by_cases before : place < count
  · exact .inl ⟨place, before, placed⟩
  · have stays : left.find? ref = some entry := by
      refine (spec.found ref entry).2 ⟨known, fun position isPlace => ?_⟩
      rw [placed] at isPlace
      cases isPlace
      exact Nat.le_of_not_lt before
    refine .inr ((held stays).resolve_left fun present => ?_)
    rw [isGone.2] at present
    cases present

/-- The chain before a migration lags behind the chain after it. -/
theorem lags_of_settle
    (regular : Regular pedigree start floor chain log) (floorInRange : floor < slotLimit)
    (lenient : Lenient receive) (unpinned : chain.choice.pin = none)
    (later : chain.choice.finalized.epoch < (rules.finalized entry.state).epoch)
    (prepared : chain.choice.Prepared entry.ref (rules.justified entry.state)
      (rules.finalized entry.state) chain.balancesAt (boundary preset (rules.finalized entry.state))
      balances counted)
    (place : chain.choice.tree.position? (boundary preset (rules.finalized entry.state)) =
      some count) {position : Nat}
    (judged : chain.choice.tree.position? (boundary preset counted.justified) = some position)
    (notBefore : count ≤ position) {judge : Entry State Context}
    (found : chain.pool.find? (boundary preset counted.justified) = some judge)
    (weighed : rules.balances judge.state = balances)
    (settled : chain.settle entry (watching receive) (state, log) =
      (.ok (), next, after, logAfter)) :
    Lags (Pool.Lost chain.pool next.pool) count chain next log logAfter ∧
      next.choice.justified = counted.justified ∧
      next.choice.finalized = rules.finalized entry.state ∧ next.choice.balances = balances := by
  obtain ⟨left, logBetween, spec, choice, sameStamp, handed, limits, held⟩ :=
    settle_spec regular floorInRange lenient prepared place settled
  have remains := remains_of_settle regular.keyed settled
  have justified : next.choice.justified = counted.justified := by rw [choice]
  have finalized : next.choice.finalized = rules.finalized entry.state := by rw [choice]
  have weights : next.choice.balances = balances := by
    rw [choice]
    exact prepared.balances
  refine ⟨?_, justified, finalized, weights⟩
  exact {
    limits := limits.symm
    tree := spec.trimmed
    heard := by
      rw [choice]
      exact prepared.heard.symm
    pool := remains.toThinned
    keyed := regular.keyed
    behindUnpinned := unpinned
    aheadUnpinned := by rw [choice]
    excess := fun ref other isGone known =>
      excess_of_pruned regular.stocked spec isGone known fun kept => held ref other kept
    swept := by
      by_cases raised : next.pool.anchorSlot = chain.pool.anchorSlot
      · exact .inr (Nat.le_of_eq raised)
      · exact .inl (noneStale_of_settle regular.stocked settled raised)
    place := by rw [finalized, place]
    due := by rw [handed, spec.handed, take_markedNames]
    older := by
      rw [finalized]
      exact later
    judged := by
      rw [justified]
      exact ⟨position, judged, notBefore⟩
    weighed := by
      rw [justified, weights]
      exact ⟨judge, found, weighed⟩
    settled := by rw [choice]
    stamp := by rw [sameStamp, prepared.stamp, justified, finalized] }

/-- The checkpoints refer to nodes at the very start of their epochs, the finalized one to a node
above the other and above a block. -/
structure Anchored (preset : Preset) (tree : BlockTree) (finalized justified : Checkpoint)
    (block : NodeRef) : Prop where
  judged : ∃ above below, tree.position? (boundary preset finalized) = some above ∧
    tree.position? (boundary preset justified) = some below ∧ tree.VoteDescends below above
  leads : ∃ above below, tree.position? (boundary preset finalized) = some above ∧
    tree.position? block = some below ∧ tree.StateDescends below above

theorem exists_of_balancesAt_boundary
    {checkpoint : Checkpoint} {position : Nat}
    (placed : chain.choice.tree.position? (boundary preset checkpoint) = some position)
    (known : chain.balancesAt checkpoint = .ok balances) :
    ∃ judge, chain.pool.find? (boundary preset checkpoint) = some judge ∧
      rules.balances judge.state = balances := by
  cases found : chain.pool.find? (boundary preset checkpoint) with
  | some judge =>
    rw [balancesAt_of_boundary placed found] at known
    cases known
    exact ⟨judge, rfl, rfl⟩
  | none =>
    simp only [balancesAt, checkpointEntry, checkpointNode_of_boundary placed, bind, Except.bind,
      found] at known
    cases known

/-- The only node of a new block is its own. -/
theorem position_of_new_root
    (stocked : Stocked rules inRange chain.choice.tree chain.pool)
    (isNew : chain.choice.containsBlock (rules.blockRoot block) = false)
    (drafted : chain.draft block interrupted = .ok draft)
    (growth : Grown inRange chain (draft.replayed ++ [draft.block]) grown) {position : Nat}
    {node : Node} (here : grown.choice.tree.nodes[position]? = some node)
    (ofRoot : node.ref.root = rules.blockRoot block) : node.ref = draft.block.ref := by
  have others := stocked.sound.containsRoot_eq_false_iff.1 isNew
  rcases growth.ref_cases node (List.mem_of_getElem? here) with old | ⟨entry, isAdded, named⟩
  · exact absurd ofRoot (others node old)
  · rcases List.mem_append.1 isAdded with replayed | isBlock
    · obtain ⟨previous, last, isDraft⟩ := exists_drafted stocked drafted
      obtain ⟨_, parent, _, latest, known, _⟩ := preState_spec stocked isDraft.preState
      have previousRoot : previous.blockRoot = parent.ref.root :=
        congrArg NodeRef.root (stocked.ref_eq latest.here known)
      have entryRoot : entry.blockRoot = previous.blockRoot :=
        isDraft.replayed.blockRoot_eq entry replayed
      refine absurd ?_ (others parent (List.mem_of_getElem? latest.here))
      rw [← previousRoot, ← entryRoot, ← ofRoot, ← named]
      rfl
    · rw [← named, List.mem_singleton.1 isBlock]

theorem founded_of_lags
    (lags : Lags gone count grown ahead log logAhead)
    (sound : Sound grown.choice.tree) {position : Nat}
    (judged : grown.choice.tree.position? (boundary preset ahead.choice.justified) = some position)
    (votes : grown.choice.tree.VoteDescends position count) : Founded ahead := by
  have descends := sound.stateDescends_of_voteDescends votes
  have still : position - count + count = position :=
    Nat.sub_add_cancel (descends.le sound.stateParentsFirst)
  refine ⟨lags.settled, ?_, position - count, ?_, ?_⟩
  · rw [lags.tree.position?_iff, Nat.zero_add]
    exact lags.place
  · rw [lags.tree.position?_iff, still]
    exact judged
  · rw [lags.tree.stateDescends_iff, still, Nat.zero_add]
    exact descends

/-- A new block above which the finalized checkpoint is stays in the chain that has migrated. -/
theorem clear_of_lags
    (lags : Lags (Pool.Lost grown.pool ahead.pool) count grown ahead log logAhead)
    (founded : Founded ahead) (aheadRegular : Regular pedigree start floor ahead logAhead)
    (stocked : Stocked rules inRange chain.choice.tree chain.pool)
    (isNew : chain.choice.containsBlock (rules.blockRoot block) = false)
    (drafted : chain.draft block interrupted = .ok draft)
    (growth : Grown inRange chain (draft.replayed ++ [draft.block]) grown) {last : Nat}
    (place : grown.choice.tree.position? draft.block.ref = some last)
    (leads : grown.choice.tree.StateDescends last count) :
    Clear (Pool.Lost grown.pool ahead.pool) count grown.choice.tree (rules.blockRoot block) := by
  have grownStocked := growth.stocked stocked
  have notBefore := leads.le grownStocked.sound.stateParentsFirst
  have still : last - count + count = last := Nat.sub_add_cancel notBefore
  refine ⟨fun position node here ofRoot => ?_, fun ref lost ofRoot => ?_⟩
  · have named := position_of_new_root stocked isNew drafted growth here ofRoot
    have placed := grownStocked.sound.position?_ref here
    rw [named, place] at placed
    cases placed
    exact notBefore
  · obtain ⟨⟨other, found⟩, missing⟩ := lost
    obtain ⟨position, node, here, named⟩ := grownStocked.present ref other found
    have isBlock := position_of_new_root stocked isNew drafted growth here (named ▸ ofRoot)
    obtain ⟨blockNode, blockHere, blockNamed⟩ := (grownStocked.sound.positions _ _).1 place
    rw [← still] at blockHere
    obtain ⟨kept, keptHere, alike⟩ := lags.tree.exists_rest blockHere
    have keptNamed : kept.ref = ref :=
      ((Node.bare_eq_iff _ _).1 alike).1.trans (blockNamed.trans (isBlock.symm.trans named))
    have descends : ahead.choice.tree.StateDescends (last - count) 0 := by
      rw [lags.tree.stateDescends_iff, still, Nat.zero_add]
      exact leads
    obtain ⟨entry, known⟩ := founded.exists_entryAt? aheadRegular descends
      (List.getElem?_eq_some_iff.1 keptHere).1
    obtain ⟨holder, holderHere, held⟩ := entryAt?_eq_some_iff.1 known
    rw [keptHere] at holderHere
    cases holderHere
    rw [keptNamed, missing] at held
    cases held

/-- A settlement that advances finality and comes to its end has been prepared. -/
theorem exists_prepared_of_settle
    (later : chain.choice.finalized.epoch < (rules.finalized entry.state).epoch)
    (settled : chain.settle entry receive state = (.ok (), next, after)) :
    ∃ anchor balances counted,
      chain.choice.checkpointNode (rules.finalized entry.state) = .ok anchor ∧
      chain.balancesAt (newer chain.choice.justified (rules.justified entry.state)) = .ok balances ∧
      (newer chain.choice.justified (rules.justified entry.state)).epoch =
        (rules.justified entry.state).epoch ∧
      chain.choice.Prepared entry.ref (rules.justified entry.state) (rules.finalized entry.state)
        chain.balancesAt anchor balances counted := by
  generalize adopts : chain.choice.adopt entry.ref (rules.justified entry.state)
    (rules.finalized entry.state) chain.balancesAt (Pool.release receive)
    (chain.pool, state) = result
  obtain ⟨verdict, choice, pool, between⟩ := result
  cases verdict with
  | ok => exact exists_prepared_of_adopt later adopts
  | error error =>
    simp only [RecentChain.settle, adopt, adopts] at settled
    cases settled

/-- A chain with a new block, and what it is after the migration that the block brings.  The
settlement of the block is prepared on the first one. -/
structure Parted (pedigree : Pedigree) (start : Entry State Context) (floor count : Nat)
    (justified finalized : Checkpoint) (tip : Root) (entry : Entry State Context)
    (counted : ForkChoice preset) (grown ahead : RecentChain preset rules)
    (log logAhead : List (Handover State Context)) : Prop where
  regular : Regular pedigree start floor grown log
  aheadRegular : Regular pedigree start floor ahead logAhead
  lags : Lags (Pool.Lost grown.pool ahead.pool) count grown ahead log logAhead
  founded : Founded ahead
  clear : Clear (Pool.Lost grown.pool ahead.pool) count grown.choice.tree tip
  prepared : grown.choice.Prepared entry.ref (rules.justified entry.state)
    (rules.finalized entry.state) grown.balancesAt (boundary preset ahead.choice.finalized)
    ahead.choice.balances counted
  sameEpoch : ahead.choice.justified.epoch = justified.epoch
  justifies : counted.justified = ahead.choice.justified
  finalizes : ahead.choice.finalized = finalized
  demands : rules.finalized entry.state = finalized

theorem exists_parted
    {justified finalized : Checkpoint}
    (regular : Regular pedigree start floor chain log) (floorInRange : floor < slotLimit)
    (lenient : Lenient receive) (unpinned : chain.choice.pin = none)
    (isNew : chain.choice.containsBlock (rules.blockRoot block) = false)
    (accepted : Accepted pedigree justified finalized chain block interrupted draft)
    (later : chain.choice.finalized.epoch < finalized.epoch)
    (committed : chain.commit draft = (.ok (), grown))
    (growth : Grown (· < slotLimit) chain (draft.replayed ++ [draft.block]) grown)
    (anchored : Anchored preset grown.choice.tree finalized (newer chain.choice.justified justified)
      draft.block.ref)
    (settled : grown.settle draft.block (watching receive) (state, log) =
      (.ok (), ahead, after, logAhead)) :
    ∃ count counted, Parted pedigree start floor count justified finalized (rules.blockRoot block)
      draft.block counted grown ahead log logAhead := by
  have regularGrown := regular.commit accepted.admitted accepted.drafted committed growth
  have sound := regularGrown.stocked.sound
  obtain ⟨sameJustified, sameFinalized, _, _⟩ := growth.checkpoints_eq
  have laterGrown : grown.choice.finalized.epoch < (rules.finalized draft.block.state).epoch := by
    rw [sameFinalized, accepted.finalized]
    exact later
  obtain ⟨anchor, balances, counted, resolved, known, sameEpoch, prepared⟩ :=
    exists_prepared_of_settle laterGrown settled
  rw [sameJustified, accepted.justified] at known sameEpoch
  have justifies : counted.justified = newer chain.choice.justified justified := by
    rw [prepared.justified, sameJustified, accepted.justified]
  obtain ⟨count, position, place, judged, votes⟩ := anchored.judged
  obtain ⟨judge, found, weighed⟩ := exists_of_balancesAt_boundary judged known
  rw [← accepted.finalized] at place
  rw [checkpointNode_of_boundary place] at resolved
  cases resolved
  rw [← justifies] at judged found
  obtain ⟨lags, aheadJustified, aheadFinalized, aheadBalances⟩ :=
    lags_of_settle regularGrown floorInRange lenient (growth.choice_eq ▸ unpinned) laterGrown
      prepared place judged (votes.le sound.voteParentsFirst) found weighed settled
  have aheadRegular := regularGrown.settle settled
  have founded := founded_of_lags lags sound (aheadJustified ▸ judged) votes
  obtain ⟨_, last, placeToo, isLast, leads⟩ := anchored.leads
  rw [← accepted.finalized, place] at placeToo
  cases placeToo
  exact ⟨count, counted, {
    regular := regularGrown
    aheadRegular := aheadRegular
    lags := lags
    founded := founded
    clear := clear_of_lags lags founded aheadRegular regular.stocked isNew accepted.drafted
      growth isLast leads
    prepared := by
      rw [aheadFinalized, aheadBalances]
      exact prepared
    sameEpoch := by rw [aheadJustified, justifies, sameEpoch]
    justifies := aheadJustified.symm
    finalizes := aheadFinalized.trans accepted.finalized
    demands := accepted.finalized }⟩

/-- The same migration with another receiver. -/
theorem Parted.tracks
    {justified finalized : Checkpoint} {tip : Root}
    (parted : Parted pedigree start floor count justified finalized tip entry counted grown
      ahead log logAhead)
    (floorInRange : floor < slotLimit) (lenient : Lenient receive)
    (light : ahead.choice.balances.sum < weightLimit)
    (settled : grown.settle entry (watching receive) (state, log) =
      (outcome, next, after, logAfter)) :
    Tracks (Pool.Lost grown.pool ahead.pool) pedigree start floor justified finalized tip next ahead
        logAfter logAhead ∧
      Answered outcome () (Pool.Lost grown.pool ahead.pool) next ahead log logAfter logAhead := by
  obtain ⟨near, answered⟩ := parted.lags.answered parted.regular parted.aheadRegular floorInRange
    lenient parted.clear parted.prepared
      (parted.demands.trans parted.finalizes.symm) parted.justifies
    settled
  exact ⟨{
    regular := parted.regular.settle settled
    aheadRegular := parted.aheadRegular
    sameEpoch := parted.sameEpoch
    finalizes := parted.finalizes
    light := light
    founded := parted.founded
    near := near }, answered⟩

/-- A new root is none of those that the chain has lost. -/
theorem root_ne_of_lost
    {pool left : Pool State Context} {ref : NodeRef}
    (stocked : Stocked rules inRange chain.choice.tree pool) (lost : Pool.Lost pool left ref)
    (absent : chain.choice.containsBlock root = false) : ref.root ≠ root := by
  obtain ⟨⟨other, found⟩, _⟩ := lost
  obtain ⟨_, node, here, rfl⟩ := stocked.present ref other found
  exact stocked.sound.containsRoot_eq_false_iff.1 absent node (List.mem_of_getElem? here)

/-- A migration that comes to its end with one receiver is tracked by the same migration with
another one. -/
theorem tracks_of_migration
    {other : Type} {receiveAhead : EntryReceiver State Context other}
    {stateAhead afterAhead : other}
    {justified finalized : Checkpoint}
    (regular : Regular pedigree start floor chain log) (floorInRange : floor < slotLimit)
    (lenient : Lenient receive) (lenientAhead : Lenient receiveAhead)
    (unpinned : chain.choice.pin = none)
    (isNew : chain.choice.containsBlock (rules.blockRoot block) = false)
    (accepted : Accepted pedigree justified finalized chain block interrupted draft)
    (later : chain.choice.finalized.epoch < finalized.epoch)
    (anchored : ∀ grown, chain.commit draft = (.ok (), grown) →
      Anchored preset grown.choice.tree finalized (newer chain.choice.justified justified)
        draft.block.ref)
    (addedAhead : chain.addBlock block interrupted (watching receiveAhead) (stateAhead, log) =
      (.ok entry, ahead, afterAhead, logAhead))
    (light : ahead.choice.balances.sum < weightLimit)
    (added : chain.addBlock block interrupted (watching receive) (state, log) =
      (answer, next, after, logAfter)) :
    entry = draft.block ∧ ∃ gone,
      (∀ root, root ≠ rules.blockRoot block → chain.choice.containsBlock root = false →
        ∀ ref, gone ref → ref.root ≠ root) ∧
      Tracks gone pedigree start floor justified finalized (rules.blockRoot block) next ahead
        logAfter logAhead ∧
      Answered answer draft.block gone next ahead log logAfter logAhead := by
  obtain ⟨grown, committed, growth⟩ := commit_grown regular.stocked isNew accepted.drafted
    fun slot notLater => Nat.lt_of_le_of_lt notLater accepted.allowed
  generalize settledAhead :
    grown.settle draft.block (watching receiveAhead) (stateAhead, log) = result
  obtain ⟨outcomeAhead, _, _, _⟩ := result
  rw [addBlock_of_commit _ _ isNew accepted.drafted committed settledAhead] at addedAhead
  cases outcomeAhead with
  | error => cases addedAhead
  | ok =>
    cases addedAhead
    obtain ⟨count, counted, parted⟩ :=
      exists_parted regular floorInRange lenientAhead unpinned isNew accepted later committed
        growth (anchored grown committed) settledAhead
    generalize settled : grown.settle draft.block (watching receive) (state, log) = result
    obtain ⟨outcome, _, _, _⟩ := result
    rw [addBlock_of_commit _ _ isNew accepted.drafted committed settled] at added
    cases added
    obtain ⟨tracks, answered⟩ := parted.tracks floorInRange lenient light settled
    refine ⟨rfl, _, fun root different absent ref lost => ?_, tracks, answered.map _⟩
    exact root_ne_of_lost parted.regular.stocked lost
      (containsRoot_of_commit regular.stocked accepted.drafted growth different absent)

end RecentChain

end BeaconChain
