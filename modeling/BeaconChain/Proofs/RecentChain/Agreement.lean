import BeaconChain.Proofs.RecentChain.Derivation
import BeaconChain.Proofs.RecentChain.Resume

/-!
# Entries and nodes agree

The tree and the pool are written in separate calls and shrink separately, but they do not drift
apart.  An entry has a node with its stamp and its parent, and a node without an entry is older
than what was handed on.  Nothing replaces an entry, so that each one remains the state that
transitions make of the anchor.  The oldest node always keeps its entry: a receiver refuses
entries only, and what a complete pruning leaves as the oldest node can still become canonical.
-/

open Relation

namespace BeaconChain

open BlockTree

variable {State Block Context store : Type} {rules : Rules State Block Context}
  {inRange : Nat → Prop} {verified : Bool} {applied : Block → Prop}
  {anchor entry : Entry State Context} {tree other treeAfter : BlockTree}
  {pool left : Pool State Context} {log logAfter : List (Handover State Context)}
  {receive : EntryReceiver State Context store} {state after : store}
  {outcome : Except Error Unit}

theorem Matches.congr {node found : Node} (matched : Matches rules node entry)
    (ref : found.ref = node.ref) (parentRoot : found.parentRoot = node.parentRoot)
    (stamp : found.stamp = node.stamp) : Matches rules found entry where
  stamp := stamp.trans matched.stamp
  parentRoot := parentRoot.trans matched.parentRoot
  hasBlock := by
    rw [← matched.hasBlock, Node.hasBlock, Node.hasBlock, ref, parentRoot]

/-- What a tree and a pool have to say of each other, and where the entries come from. -/
structure Agreement (rules : Rules State Block Context) (verified : Bool) (applied : Block → Prop)
    (anchor : Entry State Context) (tree : BlockTree) (pool : Pool State Context) : Prop where
  missing : ∀ node ∈ tree.nodes, pool.find? node.ref = none → node.ref.slot < pool.anchorSlot
  matched : ∀ node ∈ tree.nodes, ∀ entry, pool.find? node.ref = some entry → entry ≠ anchor →
    Matches rules node entry
  derived : ∀ ref entry, pool.find? ref = some entry → Derived rules verified applied anchor entry
  keyed : pool.Keyed
  oldest : ∃ entry, entryAt? tree pool 0 = some entry

namespace Agreement

theorem congr
    (agreement : Agreement rules verified applied anchor tree pool) (same : SameShape other tree) :
    Agreement rules verified applied anchor other pool where
  missing node member absent := by
    obtain ⟨position, here⟩ := List.mem_iff_getElem?.1 member
    obtain ⟨before, there, sameRef⟩ := same.nodes.exists_ref_eq here
    rw [← sameRef] at absent ⊢
    exact agreement.missing before (List.mem_of_getElem? there) absent
  matched node member entry found notAnchor := by
    obtain ⟨position, here⟩ := List.mem_iff_getElem?.1 member
    obtain ⟨before, there, bare⟩ := same.nodes.getElem?_eq_some here
    obtain ⟨sameRef, _, _, sameParent, sameStamp⟩ := (Node.bare_eq_iff _ _).1 bare
    rw [← sameRef] at found
    exact (agreement.matched before (List.mem_of_getElem? there) entry found notAnchor).congr
      sameRef.symm sameParent.symm sameStamp.symm
  derived := agreement.derived
  keyed := agreement.keyed
  oldest := by
    rw [entryAt?_congr same]
    exact agreement.oldest

theorem push
    {node : Node} (agreement : Agreement rules verified applied anchor tree pool)
    (stocked : Stocked rules inRange tree pool) (joins : Joins rules inRange tree pool node entry)
    (derived : Derived rules verified applied anchor entry) :
    Agreement rules verified applied anchor { tree.push node with outdated := true }
      (pool.insert entry) := by
  have fresh := joins.fresh stocked.sound.toIndexed
  have absent := stocked.sound.toIndexed.position?_eq_none_iff.1 fresh
  have unknown : pool.find? entry.ref = none := by
    cases found : pool.find? entry.ref with
    | none => rfl
    | some held =>
      obtain ⟨position, other, here, named⟩ := stocked.present _ _ found
      exact absurd (named.trans joins.named) (absent other (List.mem_of_getElem? here))
  have older : ∀ other ∈ tree.nodes, (pool.insert entry).find? other.ref = pool.find? other.ref :=
    fun other member => Pool.find?_insert_of_ne pool fun same =>
      absent other member (same.symm.trans joins.named)
  have self : (pool.insert entry).find? node.ref = some entry := by
    rw [← joins.named]
    exact Pool.find?_insert_self pool entry
  exact {
    missing := fun other member notFound => by
      rcases List.mem_append.1 member with old | new
      · rw [older other old] at notFound
        exact agreement.missing other old notFound
      · rw [List.mem_singleton.1 new, self] at notFound
        cases notFound
    matched := fun other member found known notAnchor => by
      rcases List.mem_append.1 member with old | new
      · rw [older other old] at known
        exact agreement.matched other old found known notAnchor
      · rw [List.mem_singleton.1 new, self] at known
        rw [List.mem_singleton.1 new, ← Option.some.inj known]
        exact joins.matched
    derived := fun ref found known => by
      rcases Pool.find?_insert_cases known with ⟨_, rfl⟩ | old
      · exact derived
      · exact agreement.derived ref found old
    keyed := agreement.keyed.insert unknown
    oldest := by
      obtain ⟨first, known⟩ := agreement.oldest
      exact ⟨first, (entryAt?_push fresh stocked.sound.toIndexed joins.named).2 (.inl known)⟩ }

theorem grown
    {preset : Preset} {chain grown : RecentChain preset rules} {added : List (Entry State Context)}
    (agreement : Agreement rules verified applied anchor chain.choice.tree chain.pool)
    (stocked : Stocked rules inRange chain.choice.tree chain.pool)
    (growth : chain.Grown inRange added grown)
    (derived : ∀ entry ∈ added, Derived rules verified applied anchor entry) :
    Agreement rules verified applied anchor grown.choice.tree grown.pool := by
  induction growth with
  | refl => exact agreement
  | @join _ _ _ entry growth joins ih =>
    have before := ih fun other member => derived other (List.mem_append_left _ member)
    exact before.push (growth.stocked stocked) joins
      (derived entry (List.mem_append_right _ List.mem_cons_self))

end Agreement

/-- Only an entry can be refused, and it stays where it is. -/
theorem Pool.exists_of_release_error
    {node : Node} {canonical : Bool} {before last : Pool State Context × store} {error : Error}
    (released : release receive node canonical before = (.error error, last)) :
    ∃ entry, last.1.find? node.ref = some entry := by
  obtain ⟨pool, state⟩ := before
  unfold release at released
  dsimp only at released
  split at released
  next => cases released
  next entry found =>
    split at released
    next =>
      cases released
      exact ⟨entry, found⟩
    next => cases released

/-- A pruning that a receiver cuts short leaves the node whose entry was refused as the oldest. -/
theorem exists_oldest_of_refused_prune
    {ref : NodeRef} {count : Nat} {error : Error} (sound : Sound tree)
    (present : tree.position? ref = some count)
    (pruned : tree.prune ref (Pool.release receive) (pool, state) =
      (.error error, treeAfter, left, after)) :
    ∃ entry, entryAt? treeAfter left 0 = some entry := by
  have fresh := sound.refresh
  rw [← (sameShape_refresh tree).position?_eq] at present
  obtain ⟨node, here, rfl⟩ := (fresh.positions _ _).1 present
  generalize offers : offerAll (Pool.release receive)
    (tree.refresh.markedBefore count (node.headPosition count)) (pool, state) = result
  obtain ⟨answer, accepted, pooled⟩ := result
  rw [prune_of_locate? (fresh.locate?_eq_some_iff.2 ⟨here, rfl⟩) offers] at pruned
  cases pruned
  obtain ⟨refused, mark, before, marked, -, answered⟩ :=
    exists_refused_of_offerAll (fun _ _ _ _ _ _ _ => trivial) trivial offers
  obtain ⟨entry, held⟩ := Pool.exists_of_release_error answered
  obtain ⟨_, there, _⟩ := getElem?_markedBefore marked
  refine ⟨entry, ?_⟩
  rw [entryAt?_dropOldest, Nat.zero_add]
  exact entryAt?_eq_some_iff.2 ⟨refused, there, held⟩

/-- A pruning that comes to its end leaves the anchor as the oldest node. -/
theorem oldest_of_complete_prune
    {taker : NodeReceiver store} {ref : NodeRef} {count : Nat} (sound : Sound tree)
    (present : tree.position? ref = some count)
    (pruned : tree.prune ref taker state = (.ok (), treeAfter, after)) :
    ∃ node, treeAfter.nodes[0]? = some node ∧ node.ref = ref := by
  have fresh := sound.refresh
  rw [← (sameShape_refresh tree).position?_eq] at present
  obtain ⟨node, here, rfl⟩ := (fresh.positions _ _).1 present
  generalize offers : offerAll taker
    (tree.refresh.markedBefore count (node.headPosition count)) state = result
  obtain ⟨answer, accepted, last⟩ := result
  rw [prune_of_locate? (fresh.locate?_eq_some_iff.2 ⟨here, rfl⟩) offers] at pruned
  cases pruned
  have complete := (offerAll_invariant (fun _ _ => True)
    (fun _ _ _ _ _ _ _ _ _ => ⟨fun _ => trivial, fun _ => trivial⟩) trivial offers).2.2 rfl
  rw [length_markedBefore here] at complete
  subst complete
  rw [← Nat.zero_add accepted] at here
  exact ⟨_, getElem?_dropOldest here, rfl⟩

section Pruning

variable {counted : BlockTree} {ref : NodeRef} {count accepted : Nat}

/-- The nodes that are left keep their entries. -/
theorem Pruned.find?_eq
    (pruned : Pruned tree count pool log accepted treeAfter left logAfter) {position : Nat}
    {node : Node} (here : tree.nodes[position + accepted]? = some node) :
    left.find? node.ref = pool.find? node.ref := by
  have placed := pruned.trimmed.whole.position?_ref here
  refine Option.ext fun entry => ?_
  rw [pruned.found]
  refine and_iff_left fun place found => ?_
  obtain rfl := Option.some.inj (placed.symm.trans found)
  exact Nat.le_add_left _ _

theorem Agreement.prune
    (agreement : Agreement rules verified applied anchor tree pool) (sound : Sound counted)
    (same : SameShape counted tree)
    (named : ∀ ref entry, pool.find? ref = some entry → entry.ref = ref)
    (present : tree.position? ref = some count) (kept : entryAt? tree pool count = some entry)
    (pruned : counted.prune ref (Pool.release (watching receive)) (pool, state, log) =
      (outcome, treeAfter, left, after, logAfter)) :
    Agreement rules verified applied anchor treeAfter left := by
  obtain ⟨accepted, spec, complete⟩ := prune_spec sound same named present pruned
  have origin : ∀ node ∈ treeAfter.nodes, ∃ before ∈ tree.nodes, before.ref = node.ref ∧
      before.parentRoot = node.parentRoot ∧ before.stamp = node.stamp ∧
      left.find? node.ref = pool.find? node.ref := by
    intro node member
    obtain ⟨position, here⟩ := List.mem_iff_getElem?.1 member
    obtain ⟨before, there, bare⟩ := spec.trimmed.exists_whole here
    obtain ⟨sameRef, _, _, sameParent, sameStamp⟩ := (Node.bare_eq_iff _ _).1 bare
    have found := spec.find?_eq there
    rw [show before.ref = node.ref from sameRef] at found
    exact ⟨before, List.mem_of_getElem? there, sameRef, sameParent, sameStamp, found⟩
  exact {
    missing := fun node member absent => by
      obtain ⟨before, memberBefore, sameRef, _, _, found⟩ := origin node member
      rw [found, ← sameRef] at absent
      rw [← sameRef]
      exact Nat.lt_of_lt_of_le (agreement.missing before memberBefore absent)
        (Pool.anchorSlot_le_of_prune pruned)
    matched := fun node member entry known notAnchor => by
      obtain ⟨before, memberBefore, sameRef, sameParent, sameStamp, found⟩ := origin node member
      rw [found, ← sameRef] at known
      exact (agreement.matched before memberBefore entry known notAnchor).congr sameRef.symm
        sameParent.symm sameStamp.symm
    derived := fun ref entry known => agreement.derived ref entry ((spec.found ref entry).1 known).1
    keyed := prune_invariant (fun pooled => pooled.1.Keyed)
      (fun _ _ _ _ _ keyed released => keyed.release released) agreement.keyed pruned
    oldest := by
      cases outcome with
      | error error =>
        rw [← same.position?_eq] at present
        exact exists_oldest_of_refused_prune sound present pruned
      | ok =>
        obtain rfl := complete rfl
        obtain ⟨node, here, held⟩ := entryAt?_eq_some_iff.1 kept
        rw [← Nat.zero_add accepted] at here
        obtain ⟨oldest, there, bare⟩ := spec.trimmed.exists_rest here
        have sameRef : oldest.ref = node.ref := ((Node.bare_eq_iff _ _).1 bare).1
        refine ⟨entry, entryAt?_eq_some_iff.2 ⟨oldest, there, ?_⟩⟩
        rw [sameRef, spec.find?_eq here]
        exact held }

end Pruning

theorem Agreement.sweep
    (agreement : Agreement rules verified applied anchor tree pool)
    (stocked : Stocked rules inRange tree pool)
    (recent : ∀ entry, entryAt? tree pool 0 = some entry → pool.anchorSlot ≤ entry.slot)
    (swept : pool.sweep receive state = (outcome, left, after)) :
    Agreement rules verified applied anchor tree left where
  missing node member absent := by
    rw [Pool.anchorSlot_sweep swept]
    cases found : pool.find? node.ref with
    | none => exact agreement.missing node member found
    | some entry =>
      have named := stocked.named _ _ found
      refine Nat.lt_of_not_le fun notStale => ?_
      rw [← named] at notStale
      rw [Pool.find?_sweep_of_recent found named notStale swept] at absent
      cases absent
  matched node member entry found :=
    agreement.matched node member entry (Pool.find?_of_sweep swept _ _ found)
  derived ref entry found := agreement.derived ref entry (Pool.find?_of_sweep swept _ _ found)
  keyed := Pool.sweep_invariant (fun now _ => now.Keyed)
    (fun dropped _ _ _ _ _ keyed _ => ⟨keyed, fun _ => keyed.remove dropped.ref⟩)
      agreement.keyed swept
  oldest := by
    obtain ⟨entry, known⟩ := agreement.oldest
    obtain ⟨node, here, held⟩ := entryAt?_eq_some_iff.1 known
    have still :=
      Pool.find?_sweep_of_recent held (stocked.named _ _ held) (recent entry known) swept
    exact ⟨entry, entryAt?_eq_some_iff.2 ⟨node, here, still⟩⟩

namespace RecentChain

variable {preset : Preset} {chain next start : RecentChain preset rules}

/-- A chain whose tree and pool agree, with the blocks verified or not. -/
structure Agrees (verified : Bool) (applied : Block → Prop) (anchor : Entry State Context)
    (chain : RecentChain preset rules) : Prop
    extends Agreement rules verified applied anchor chain.choice.tree chain.pool where
  limits : chain.limits.verifyBlocks = verified

/-- The oldest node of the tree has the finalized root. -/
def RootIsOldest (chain : RecentChain preset rules) : Prop :=
  ∃ node, chain.choice.tree.nodes[0]? = some node ∧ node.ref.root = chain.choice.finalizedRoot

/-- An adoption that comes to its end without a failure leaves the pool as it was, or the
finalized root as the oldest. -/
theorem rootIsOldest_of_adopt
    {entry : Entry State Context} (sound : Sound chain.choice.tree)
    (adopted : chain.adopt entry receive state = (.ok (), next, after)) :
    next.pool = chain.pool ∨ RootIsOldest next := by
  have adoption := adopt_adoption adopted
  obtain ⟨limits, choice, pool⟩ := next
  cases adoption with
  | unchanged => exact .inl rfl
  | justify => exact .inl rfl
  | finalize recounted _ _ _ _ resolved done =>
    obtain ⟨pruned, newRoot, _, _⟩ := ForkChoice.finalizeAt_spec done
    obtain ⟨position, node, rfl, latest⟩ :=
      ForkChoice.exists_of_checkpointNode sound.toWellFormed resolved
    have present := sound.position?_ref latest.here
    rw [← recounted.shape.position?_eq] at present
    obtain ⟨oldest, here, named⟩ := oldest_of_complete_prune (recounted.sound sound) present pruned
    refine .inr ⟨oldest, here, ?_⟩
    rw [named, newRoot]
    exact latest.ofRoot

namespace Agrees

theorem adopt
    {entry : Entry State Context} (agrees : Agrees verified applied anchor chain)
    (goesOn : GoesOn inRange anchor chain log)
    (adopted : chain.adopt entry (watching receive) (state, log) =
      (outcome, next, after, logAfter)) :
    Agrees verified applied anchor next := by
  have limits : next.limits = chain.limits :=
    (congrArg (fun result => result.2.1.limits) adopted).symm
  have adoption := adopt_adoption adopted
  obtain ⟨first, lineage⟩ := goesOn
  have stillLimits := (congrArg Limits.verifyBlocks limits).trans agrees.limits
  obtain ⟨nextLimits, choice, pool⟩ := next
  cases adoption with
  | unchanged => exact ⟨agrees.toAgreement, stillLimits⟩
  | justify recounted => exact ⟨agrees.toAgreement.congr recounted.shape, stillLimits⟩
  | @finalize counted _ _ _ _ _ recounted _ _ _ inside resolved done =>
    refine ⟨?_, stillLimits⟩
    obtain ⟨position, node, rfl, latest⟩ :=
      ForkChoice.exists_of_checkpointNode lineage.sound.toWellFormed resolved
    have under := lineage.sound.under_of_relation_inside inside lineage.isFirst
    have descends := under position node latest.here latest.ofRoot
    obtain ⟨entry, kept⟩ := lineage.kept position (.inr descends)
      (List.getElem?_eq_some_iff.1 latest.here).1
    exact agrees.toAgreement.prune (recounted.sound lineage.sound) recounted.shape lineage.named
      (lineage.sound.position?_ref latest.here) kept (ForkChoice.finalizeAt_spec done).1

theorem sweep
    (agrees : Agrees verified applied anchor chain) (goesOn : GoesOn inRange anchor chain log)
    (rootIsOldest : RootIsOldest chain)
    (swept : chain.sweep receive state = (outcome, next, after)) :
    Agrees verified applied anchor next := by
  obtain ⟨first, lineage⟩ := goesOn
  obtain ⟨oldest, here, ofRoot⟩ := rootIsOldest
  have isFirst : IsFirst chain.choice.tree.nodes chain.choice.finalizedRoot 0 :=
    ⟨⟨oldest, here, ofRoot⟩, fun _ _ _ _ => Nat.zero_le _⟩
  have atFirst := isFirst.unique lineage.isFirst
  have recent : ∀ entry, entryAt? chain.choice.tree chain.pool 0 = some entry →
      chain.pool.anchorSlot ≤ entry.slot := fun entry known =>
    lineage.anchorSlot_le (.inl (atFirst ▸ ReflTransGen.refl)) known
  unfold RecentChain.sweep at swept
  generalize done : chain.pool.sweep receive state = result at swept
  obtain ⟨answer, pool, between⟩ := result
  cases swept
  exact ⟨agrees.toAgreement.sweep lineage.toStocked recent done, agrees.limits⟩

/-- A sweep follows only on an adoption that raised the anchor slot. -/
theorem settle
    {entry : Entry State Context} (agrees : Agrees verified applied anchor chain)
    (goesOn : GoesOn inRange anchor chain log)
    (settled : chain.settle entry (watching receive) (state, log) =
      (outcome, next, after, logAfter)) : Agrees verified applied anchor next := by
  unfold RecentChain.settle at settled
  split at settled
  next adopts =>
    cases settled
    exact agrees.adopt goesOn adopts
  next adopted between adopts =>
    have stillAgrees := agrees.adopt goesOn adopts
    split at settled
    next =>
      cases settled
      exact stillAgrees
    next raised =>
      rcases rootIsOldest_of_adopt goesOn.stocked.sound adopts with same | rootIsOldest
      · rw [same] at raised
        exact absurd rfl raised
      · exact stillAgrees.sweep (goesOn.adopt adopts) rootIsOldest settled

theorem addBlock
    {block : Block} {interrupted : List Nat → Bool} {answer : Except Error (Entry State Context)}
    (agrees : Agrees verified applied anchor chain)
    (goesOn : GoesOn (fun _ => True) anchor chain log)
    (isApplied : applied block)
    (added : chain.addBlock block interrupted (watching receive) (state, log) =
      (answer, next, after, logAfter)) : Agrees verified applied anchor next := by
  rcases addBlock_cases goesOn.stocked (fun _ _ => trivial) added with
    ⟨rfl, _⟩ | ⟨draft, grown, _, _, drafted, _, growth, settled⟩
  · exact agrees
  · have derived := derived_of_draft goesOn.stocked
      (fun ref entry found => agrees.limits ▸ agrees.derived ref entry found) isApplied drafted
    rw [agrees.limits] at derived
    have grownAgrees : Agrees verified applied anchor grown :=
      ⟨agrees.toAgreement.grown goesOn.stocked growth derived,
        (congrArg Limits.verifyBlocks growth.limits_eq).trans agrees.limits⟩
    exact grownAgrees.settle (goesOn.grown growth) settled

theorem unmoved
    (agrees : Agrees verified applied anchor chain) (unmoved : chain.Unmoved next)
    (limits : next.limits = chain.limits) : Agrees verified applied anchor next where
  toAgreement := by
    rw [unmoved.pool]
    exact agrees.toAgreement.congr unmoved.shape
  limits := (congrArg Limits.verifyBlocks limits).trans agrees.limits

theorem recounts
    (agrees : Agrees verified applied anchor chain) (recounts : chain.Recounts next) :
    Agrees verified applied anchor next := by
  refine agrees.unmoved recounts.unmoved ?_
  obtain ⟨choice, _, rfl⟩ := recounts
  rfl

/-- A call other than one that adds a block moves nothing. -/
theorem perform
    (agrees : Agrees verified applied anchor chain)
    (goesOn : GoesOn (fun _ => True) anchor chain log)
    (call : Call State Block Context)
    (allApplied : ∀ {store : Type} {block : Block} {interrupted : List Nat → Bool}
      {receive : EntryReceiver State Context store} {state : store},
      call = .addBlock block interrupted receive state → applied block) :
    Agrees verified applied anchor (chain.perform call) := by
  cases call with
  | addBlock block interrupted receive state =>
    rw [RecentChain.perform, ← addBlock_watching chain block interrupted receive state log]
    exact agrees.addBlock goesOn (allApplied rfl) rfl
  | addAttestation attestation => exact agrees.recounts (chain.addAttestation_recounts attestation)
  | setPin pin => exact agrees.unmoved (chain.setPin_unmoved pin) rfl
  | clearPin => exact agrees.unmoved ⟨.refl _, rfl, rfl, rfl⟩ rfl
  | head => exact agrees.recounts chain.head_recounts
  | canonicalChain => exact agrees.recounts chain.canonicalChain_recounts
  | bySlot slot => exact agrees.recounts chain.canonicalChain_recounts
  | byStep step => exact agrees.recounts chain.canonicalChain_recounts

end Agrees

/-! ## Whole runs -/

/-- A call that adds the block is permitted at some point. -/
def Applies (permits : RecentChain preset rules → Call State Block Context → Prop)
    (block : Block) : Prop :=
  ∃ (chain : RecentChain preset rules) (store : Type) (interrupted : List Nat → Bool)
    (receive : EntryReceiver State Context store) (state : store),
    permits chain (.addBlock block interrupted receive state)

theorem Run.agrees
    {permits : RecentChain preset rules → Call State Block Context → Prop}
    (run : Run permits start chain log) (begins : GoesOn (fun _ => True) anchor start [])
    (starts : Agrees verified (Applies permits) anchor start) :
    Agrees verified (Applies permits) anchor chain := by
  induction run with
  | start => exact starts
  | @call chain log run call permitted ih =>
    refine ih.perform (run.goesOn begins fun _ _ _ => trivial) call ?_
    rintro store block interrupted receive state rfl
    exact ⟨chain, store, interrupted, receive, state, permitted⟩

/-- The only node and the only entry of a new chain are those of its anchor. -/
theorem agreement_ofAnchor (entry : Entry State Context) (parentRoot : Root) (stamp : Stamp) :
    Agreement rules verified applied entry (.ofAnchor entry.ref parentRoot stamp)
      (({ anchorSlot := entry.slot } : Pool State Context).insert entry) := by
  let pool : Pool State Context := ({ anchorSlot := entry.slot } : Pool State Context).insert entry
  have only : ∀ node ∈ (BlockTree.ofAnchor entry.ref parentRoot stamp).nodes,
      node.ref = entry.ref := by
    intro node member
    rw [List.mem_singleton.1 member]
  have held : pool.find? entry.ref = some entry := Pool.find?_insert_self _ _
  have onlyEntry : ∀ {ref : NodeRef} {found : Entry State Context},
      pool.find? ref = some found → found = entry := by
    intro ref found known
    rcases Pool.find?_insert_cases known with ⟨_, rfl⟩ | old
    · rfl
    · cases old
  exact {
    missing := fun node member absent => by
      rw [only node member] at absent
      exact absurd (held.symm.trans absent) (by simp)
    matched := fun node _ found known notAnchor => absurd (onlyEntry known) notAnchor
    derived := fun ref found known => by
      rw [onlyEntry known]
      exact ReflTransGen.refl
    keyed := fun root ref indexed => by
      rw [Pool.index_insert] at indexed
      split at indexed
      next sameRoot => exact ⟨entry, indexed ▸ held, sameRoot⟩
      next => cases indexed
    oldest := ⟨entry, entryAt?_eq_some_iff.2 ⟨_, rfl, held⟩⟩ }

/-- How a chain starts: with the entry of the anchor, and one checkpoint for it. -/
theorem eq_of_ofAnchor?
    {limits : Limits} {root parentRoot : Root} {anchorState : State}
    (started : ofAnchor? limits root parentRoot anchorState = .ok start)
    (isAnchor : start.earliest? = some anchor) :
    anchor.slot = rules.stateSlot anchorState ∧ anchor.parentRoot = some parentRoot ∧
      start = {
        limits := limits
        choice := .ofAnchor anchor.ref parentRoot ⟨anchorEpoch preset anchor.slot, anchor.blockRoot⟩
          ⟨anchorEpoch preset anchor.slot, anchor.blockRoot⟩ (rules.balances anchorState)
        pool := ({ anchorSlot := anchor.slot } : Pool State Context).insert anchor } := by
  obtain ⟨context, _, made⟩ := exists_of_bind_eq_ok started
  cases made
  let entry : Entry State Context :=
    { slot := rules.stateSlot anchorState, blockRoot := root, parentRoot := some parentRoot,
      stateRoot := rules.stateRoot anchorState, context := context, state := anchorState }
  have isEntry : entry = anchor :=
    Option.some.inj ((Pool.find?_insert_self _ entry).symm.trans isAnchor)
  rw [← isEntry]
  exact ⟨rfl, rfl, rfl⟩

theorem ofAnchor?_agrees
    {limits : Limits} {root parentRoot : Root} {anchorState : State}
    (started : ofAnchor? limits root parentRoot anchorState = .ok start)
    (isAnchor : start.earliest? = some anchor) :
    Agrees limits.verifyBlocks applied anchor start ∧ GoesOn (fun _ => True) anchor start [] := by
  obtain ⟨found, isFound, goesOn⟩ := ofAnchor?_goesOn (fun _ => True) started trivial
  obtain rfl := Option.some.inj (isFound.symm.trans isAnchor)
  refine ⟨?_, goesOn⟩
  obtain ⟨_, _, rfl⟩ := eq_of_ofAnchor? started isAnchor
  exact ⟨agreement_ofAnchor found parentRoot _, rfl⟩

/-- Entries and nodes agree in every chain, whatever its receivers refuse: each entry has a node
of its name, which matches it unless it is that of the anchor; a node without an entry is older
than the anchor slot; each entry is made of the anchor by single transitions, and follows the
entry of its state parent where that is still there; the index of state roots leads to entries
that are there; and the oldest node has an entry. -/
theorem entries_agree_with_nodes
    {limits : Limits} {root parentRoot : Root} {anchorState : State}
    {permits : RecentChain preset rules → Call State Block Context → Prop}
    (started : ofAnchor? limits root parentRoot anchorState = .ok start)
    (isAnchor : start.earliest? = some anchor) (run : Run permits start chain log) :
    (∀ ref entry, chain.pool.find? ref = some entry → entry.ref = ref ∧
      ∃ node ∈ chain.choice.tree.nodes, node.ref = ref ∧
        (entry ≠ anchor → Matches rules node entry)) ∧
    (∀ node ∈ chain.choice.tree.nodes, chain.pool.find? node.ref = none →
      node.ref.slot < chain.pool.anchorSlot) ∧
    (∀ ref entry, chain.pool.find? ref = some entry →
      Derived rules limits.verifyBlocks (Applies permits) anchor entry) ∧
    (∀ child above entry previous, ParentAt chain.choice.tree.nodes Node.stateParent child above →
      entryAt? chain.choice.tree chain.pool child = some entry →
      entryAt? chain.choice.tree chain.pool above = some previous → Follows rules previous entry) ∧
    (∀ stateRoot ref, chain.pool.byStateRoot.find? stateRoot = some ref →
      ∃ entry, chain.pool.find? ref = some entry ∧ entry.stateRoot = stateRoot) ∧
    ∃ entry, chain.earliest? = some entry := by
  obtain ⟨starts, begins⟩ :
      Agrees limits.verifyBlocks (Applies permits) anchor start ∧
        GoesOn (fun _ => True) anchor start [] := ofAnchor?_agrees started isAnchor
  have agrees := run.agrees begins starts
  have stocked := (run.goesOn begins fun _ _ _ => trivial).stocked
  refine ⟨fun ref entry found => ⟨stocked.named ref entry found, ?_⟩, agrees.missing,
    agrees.derived, stocked.linked, agrees.keyed, agrees.oldest⟩
  obtain ⟨position, node, here, rfl⟩ := stocked.present ref entry found
  have member := List.mem_of_getElem? here
  exact ⟨node, member, rfl, agrees.matched node member entry found⟩

/-- The chain that hands a fork over to a receiver with room for all of it. -/
def sweptChain : RecentChain .minimal (Scripted.rules []) :=
  ((sweptBlocks.take 4).zip [0, 0, 0, 20]).foldl
    (fun chain offered => chain.perform (.addBlock offered.1 (fun _ => false) takeAtMost offered.2))
    trialStart.recent

/-- The fork keeps its node, without an entry. -/
theorem entries_agree_with_nodes_swept :
    ∃ log : List (Handover ScriptedState Nat),
      Run (fun _ _ => True) trialStart.recent sweptChain log ∧
      (∃ node ∈ sweptChain.choice.tree.nodes, node.ref = ⟨⟨12⟩, 1⟩ ∧
        sweptChain.pool.find? node.ref = none ∧ node.ref.slot < sweptChain.pool.anchorSlot) ∧
      ∃ entry, sweptChain.earliest? = some entry := by
  have run : Run (fun _ _ => True) trialStart.recent sweptChain _ :=
    .call (.call (.call (.call .start
      (.addBlock sweptBlocks[0] (fun _ => false) takeAtMost 0) trivial)
      (.addBlock sweptBlocks[1] (fun _ => false) takeAtMost 0) trivial)
      (.addBlock sweptBlocks[2] (fun _ => false) takeAtMost 0) trivial)
      (.addBlock sweptBlocks[3] (fun _ => false) takeAtMost 20) trivial
  have started : ofAnchor? .minimal ⟨10⟩ ⟨9⟩ trialAnchor = .ok trialStart.recent := rfl
  have isAnchor : trialStart.recent.earliest? = some trialEntry := rfl
  obtain ⟨_, older, _, _, _, oldest⟩ := entries_agree_with_nodes started isAnchor run
  have orphan : ∃ node ∈ sweptChain.choice.tree.nodes, node.ref = ⟨⟨12⟩, 1⟩ ∧
      sweptChain.pool.find? node.ref = none := by
    decide +kernel
  obtain ⟨node, member, named, absent⟩ := orphan
  exact ⟨_, run, ⟨node, member, named, absent, older node member absent⟩, oldest⟩

end RecentChain

end BeaconChain
