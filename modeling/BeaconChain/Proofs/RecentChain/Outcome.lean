import BeaconChain.Proofs.Chain.Migration
import BeaconChain.Proofs.Faultless
import BeaconChain.Proofs.ForkChoice.Head
import BeaconChain.Proofs.RecentChain.Stale

/-!
# How adding a block ends

A block that cannot be prepared changes nothing.  A block that was committed stays in the
chain, and so do the slots replayed for it, as far as they have not been handed on.  If
its checkpoints are then not adopted, the finalized checkpoint is still the old one.  If they
are adopted and the sweep after that fails, the finalized checkpoint is that of the block, and
only what was to be swept can be missing.
-/

open Relation

namespace BeaconChain

open BlockTree

theorem Error.IsMiscount.noFault {error : Error} (miscount : error.IsMiscount) :
    error.innermost.isFault = false := by
  cases miscount <;> rfl

theorem Error.IsObjection.noFault {error : Error} (objection : error.IsObjection) :
    error.innermost.isFault = false := by
  cases objection <;> rfl

namespace ForkChoice

variable {preset : Preset} {choice next : ForkChoice preset} {error : Error}

theorem faultless_checkpointNode (choice : ForkChoice preset) (checkpoint : Checkpoint) :
    Faultless (choice.checkpointNode checkpoint) :=
  fun _ failed => (isObjection_of_checkpointNode failed).noFault

theorem faultless_advance?
    (choice : ForkChoice preset) (trigger : NodeRef) (justified finalized : Checkpoint) :
    Faultless (choice.advance? trigger justified finalized) :=
  fun _ failed => (isObjection_of_advance? failed).noFault

/-- A pruning fails because a node is refused, or because its anchor is unknown. -/
theorem error_of_finalizeAt
    {store : Type} {finalized : Checkpoint} {anchor : NodeRef} {receive : NodeReceiver store}
    {state after : store}
    (failed : choice.finalizeAt finalized anchor receive state = (.error error, next, after)) :
    error.innermost.isFault = false ∨ ∃ node canonical before,
      receive node canonical before = (.error error, after) := by
  obtain ⟨pruned, _⟩ := finalizeAt_spec failed
  have answered : (choice.tree.prune anchor receive state).1 = .error error ∧
      (choice.tree.prune anchor receive state).2.2 = after := by
    rw [pruned]
    exact ⟨rfl, rfl⟩
  unfold prune at answered
  dsimp only at answered
  split at answered
  next =>
    cases answered.1
    exact .inl rfl
  next position node _ =>
    generalize offers : offerAll receive
      (choice.tree.refresh.markedBefore position (node.headPosition position)) state = result
      at answered
    obtain ⟨answer, accepted, last⟩ := result
    obtain ⟨rfl, rfl⟩ : answer = .error error ∧ last = after := answered
    obtain ⟨refused, mark, before, _, -, refuses⟩ :=
      exists_refused_of_offerAll (fun _ _ _ _ _ _ _ => trivial) trivial offers
    exact .inr ⟨refused, mark, before, refuses⟩

/-- The error of an adoption is no fault, but for those of the balances and of the receiver, whose
refusal comes last. -/
theorem error_of_adopt
    {store : Type} {trigger : NodeRef} {justified finalized : Checkpoint}
    {balancesAt : Checkpoint → Except Error (List Nat)} {receive : NodeReceiver store}
    {state after : store}
    (failed : choice.adopt trigger justified finalized balancesAt receive state =
      (.error error, next, after)) :
    error.innermost.isFault = false ∨ (∃ checkpoint, balancesAt checkpoint = .error error) ∨
      ∃ node canonical before, receive node canonical before = (.error error, after) := by
  unfold adopt at failed
  split at failed
  next undecided =>
    cases failed
    exact .inl (choice.faultless_advance? trigger justified finalized error undecided)
  next => cases failed
  next advance _ =>
    split at failed
    next unknown =>
      cases failed
      exact .inr (.inl ⟨_, unknown⟩)
    next =>
      split at failed
      next uncounted =>
        cases failed
        exact .inl (isMiscount_of_settle uncounted).noFault
      next =>
        dsimp only at failed
        split at failed
        next => cases failed
        next => exact (error_of_finalizeAt failed).imp_right .inr

theorem finalized_of_finalizeAt
    {store : Type} {finalized : Checkpoint} {anchor : NodeRef} {receive : NodeReceiver store}
    {state after : store}
    (done : choice.finalizeAt finalized anchor receive state = (.ok (), next, after)) :
    next.finalized = finalized := by
  unfold finalizeAt at done
  split at done
  · cases done
  · cases done
    rfl

end ForkChoice

section Release

variable {State Block Context store : Type} {rules : Rules State Block Context}
  {inRange : Nat → Prop} {tree : BlockTree} {pool left : Pool State Context} {position : Nat}
  {log : List (Handover State Context)} {receive : EntryReceiver State Context store}

theorem error_of_release
    {node : Node} {canonical : Bool} {pooled : Pool State Context × store} {error : Error}
    {after : store}
    (failed : Pool.release receive node canonical pooled = (.error error, left, after)) :
    ∃ entry before, receive entry canonical before = (.error error, after) := by
  unfold Pool.release at failed
  dsimp only at failed
  split at failed
  next => cases failed
  next entry _ =>
    split at failed
    next refused =>
      cases failed
      exact ⟨entry, pooled.2, refused⟩
    next => cases failed

/-- While the nodes before a position are offered, an entry leaves the pool only when it is
accepted, and the entries behind the position stay. -/
structure Released (tree : BlockTree) (pool : Pool State Context) (position : Nat)
    (left : Pool State Context) (log : List (Handover State Context)) : Prop where
  held : ∀ ref entry, left.find? ref = some entry → pool.find? ref = some entry
  accounted : ∀ ref entry, pool.find? ref = some entry → left.find? ref = some entry ∨
    ∃ canonical, (⟨entry, canonical, .ok ()⟩ : Handover State Context) ∈ log
  behind : ∀ (place : Nat) (node : Node), position ≤ place → tree.nodes[place]? = some node →
    left.find? node.ref = pool.find? node.ref

theorem released_start : Released tree pool position pool log where
  held _ _ := id
  accounted _ _ := .inl
  behind _ _ _ _ := rfl

namespace Released

theorem log_append
    (released : Released tree pool position left log) (handover : Handover State Context) :
    Released tree pool position left (log ++ [handover]) :=
  { released with
    accounted := fun ref entry known => (released.accounted ref entry known).imp_right
      fun ⟨canonical, member⟩ => ⟨canonical, List.mem_append_left _ member⟩ }

theorem accept
    (released : Released tree pool position left log) (stocked : Stocked rules inRange tree pool)
    {place : Nat} {node : Node} {entry : Entry State Context} {canonical : Bool} {slot : Nat}
    (before : place < position) (here : tree.nodes[place]? = some node)
    (known : left.find? node.ref = some entry) :
    Released tree pool position { left.remove entry.ref with anchorSlot := slot }
      (log ++ [⟨entry, canonical, .ok ()⟩]) := by
  have named : entry.ref = node.ref := stocked.named _ _ (released.held _ _ known)
  rw [named]
  refine ⟨fun ref found held => ?_, fun ref found held => ?_, fun other found reached there => ?_⟩
  · exact released.held ref found (Pool.find?_remove_eq_some_iff.1 held).2
  · by_cases same : node.ref = ref
    · subst same
      obtain rfl := Option.some.inj ((released.held _ _ known).symm.trans held)
      exact .inr ⟨canonical, List.mem_append_right _ (List.mem_singleton_self _)⟩
    · exact (released.accounted ref found held).imp
        (fun kept => Pool.find?_remove_eq_some_iff.2 ⟨same, kept⟩)
        fun ⟨mark, member⟩ => ⟨mark, List.mem_append_left _ member⟩
  · rw [← released.behind other found reached there]
    refine Pool.find?_remove_of_ne left fun same => ?_
    have := stocked.sound.position_unique here there same
    omega

theorem release
    (released : Released tree pool position left log) (stocked : Stocked rules inRange tree pool)
    {place : Nat} {node : Node} (before : place < position) (here : tree.nodes[place]? = some node)
    (canonical : Bool) (receive : EntryReceiver State Context store) (state : store) :
    Released tree pool position
      (Pool.release (watching receive) node canonical (left, state, log)).2.1
      (Pool.release (watching receive) node canonical (left, state, log)).2.2.2 := by
  unfold Pool.release
  dsimp only
  split
  next => exact released
  next entry known =>
    split
    next refused =>
      obtain ⟨_, logged⟩ := eq_of_watching refused
      rw [logged]
      exact released.log_append _
    next accepted =>
      obtain ⟨_, logged⟩ := eq_of_watching accepted
      rw [logged]
      exact released.accept stocked before here known

end Released

/-- However far a pruning comes, it takes out entries only by handing them on, and none from
the node on that it was to make the oldest. -/
theorem Stocked.prune_released
    {node : Node} {state after : store} {last : Pool State Context}
    {treeAfter : BlockTree} {logAfter : List (Handover State Context)} {outcome : Except Error Unit}
    (stocked : Stocked rules inRange tree pool) (here : tree.nodes[position]? = some node)
    (pruned : tree.prune node.ref (Pool.release (watching receive)) (pool, state, log) =
      (outcome, treeAfter, last, after, logAfter)) :
    Released tree pool position last logAfter := by
  have same := sameShape_refresh tree
  have fresh := stocked.congr same stocked.sound.refresh
  obtain ⟨found, there, sameRef⟩ := same.symm.nodes.exists_ref_eq here
  rw [← sameRef] at pruned
  generalize offers : offerAll (Pool.release (watching receive))
    (tree.refresh.markedBefore position (found.headPosition position)) (pool, state, log) = result
  obtain ⟨answer, accepted, left, between, logBetween⟩ := result
  rw [prune_of_locate? (fresh.sound.locate?_eq_some_iff.2 ⟨there, rfl⟩) offers] at pruned
  cases pruned
  obtain ⟨released, _⟩ := offerAll_invariant
    (fun _ state => Released tree.refresh pool position state.1 state.2.2)
    (fun place offered mark before after answer marked released answers => by
      obtain ⟨inFront, offeredHere, _⟩ := getElem?_markedBefore marked
      have kept := released.release fresh inFront offeredHere mark receive before.2.1
      rw [show Pool.release (watching receive) offered mark (before.1, before.2.1, before.2.2) = _
        from answers] at kept
      exact ⟨fun _ => kept, fun _ => kept⟩)
    released_start offers
  refine { released with behind := fun place behindNode reached behindHere => ?_ }
  obtain ⟨copy, copyHere, copyRef⟩ := same.symm.nodes.exists_ref_eq behindHere
  rw [← copyRef]
  exact released.behind place copy reached copyHere

end Release

namespace RecentChain

variable {preset : Preset} {State Block Context store : Type} {rules : Rules State Block Context}
  {inRange : Nat → Prop} {chain next grown : RecentChain preset rules}
  {receive : EntryReceiver State Context store} {state after : store}

theorem byBlock?_of_find?
    (stocked : Stocked rules inRange chain.choice.tree chain.pool) {entry : Entry State Context}
    (found : chain.pool.find? entry.ref = some entry) (hasBlock : entry.hasBlock = true) :
    chain.byBlock? entry.blockRoot = some entry := by
  obtain ⟨position, node, here, named⟩ := stocked.present _ _ found
  have known : entryAt? chain.choice.tree chain.pool position = some entry :=
    entryAt?_eq_some_iff.2 ⟨node, here, by rw [named, found]⟩
  have isFirst := stocked.filled position entry known hasBlock
  have earliest : chain.choice.tree.earliestSlot? entry.blockRoot = some entry.slot :=
    stocked.sound.earliestSlot?_eq_some_iff.2 ⟨position, node, here, named, isFirst⟩
  have held : chain.pool.find? ⟨entry.blockRoot, entry.slot⟩ = some entry := found
  simp [byBlock?, earliest, held, hasBlock]

theorem containsBlock_of_find?
    (stocked : Stocked rules inRange chain.choice.tree chain.pool) {ref : NodeRef}
    {entry : Entry State Context} (found : chain.pool.find? ref = some entry) :
    chain.choice.containsBlock ref.root = true := by
  obtain ⟨position, node, here, rfl⟩ := stocked.present _ _ found
  refine Bool.of_not_eq_false fun absent => ?_
  exact stocked.sound.containsRoot_eq_false_iff.1 absent node (List.mem_of_getElem? here) rfl

/-- An adoption takes out entries only by handing them on, and not the last one. -/
theorem adopt_keeps
    {log logAfter : List (Handover State Context)} {entry : Entry State Context}
    {outcome : Except Error Unit} (stocked : Stocked rules inRange chain.choice.tree chain.pool)
    (adopted : chain.adopt entry (watching receive) (state, log) =
      (outcome, next, after, logAfter)) :
    (∀ ref found, chain.pool.find? ref = some found → next.pool.find? ref = some found ∨
      ∃ canonical, (⟨found, canonical, .ok ()⟩ : Handover State Context) ∈ logAfter) ∧
    ∀ node, chain.choice.tree.nodes.getLast? = some node →
      next.pool.find? node.ref = chain.pool.find? node.ref := by
  have adoption := adopt_adoption adopted
  obtain ⟨limits, choice, pool⟩ := next
  cases adoption with
  | unchanged => exact ⟨fun _ _ => .inl, fun _ _ => rfl⟩
  | justify => exact ⟨fun _ _ => .inl, fun _ _ => rfl⟩
  | finalize recounted _ _ _ _ resolved done =>
    obtain ⟨pruned, _⟩ := ForkChoice.finalizeAt_spec done
    obtain ⟨position, node, rfl, latest⟩ :=
      ForkChoice.exists_of_checkpointNode stocked.sound.toWellFormed resolved
    have counted := stocked.congr recounted.shape (recounted.sound stocked.sound)
    obtain ⟨found, there, sameRef⟩ := recounted.shape.symm.nodes.exists_ref_eq latest.here
    rw [← sameRef] at pruned
    have released := counted.prune_released there pruned
    refine ⟨released.accounted, fun last isLast => ?_⟩
    rw [List.getLast?_eq_getElem?] at isLast
    obtain ⟨copy, copyHere, copyRef⟩ := recounted.shape.symm.nodes.exists_ref_eq isLast
    have inside := (List.getElem?_eq_some_iff.1 latest.here).1
    rw [← copyRef]
    exact released.behind _ copy (Nat.le_sub_one_of_lt inside) copyHere

/-- Where the slot up to which the chain is final was raised, the finalized checkpoint of the
entry has been adopted. -/
theorem finalized_of_adopt
    {entry : Entry State Context}
    (adopted : chain.adopt entry receive state = (.ok (), next, after))
    (raised : next.pool.anchorSlot ≠ chain.pool.anchorSlot) :
    next.choice.finalized = rules.finalized entry.state ∧
      chain.choice.finalized.epoch < next.choice.finalized.epoch := by
  have adoption := adopt_adoption adopted
  obtain ⟨limits, choice, pool⟩ := next
  cases adoption with
  | unchanged => exact absurd rfl raised
  | justify => exact absurd rfl raised
  | finalize _ _ _ later _ _ done =>
    have newer := ForkChoice.finalized_of_finalizeAt done
    exact ⟨newer, newer ▸ later⟩

section Committed

variable {block : Block} {interrupted : List Nat → Bool} {draft : Draft State Context}
  {log logAfter : List (Handover State Context)} {outcome : Except Error Unit}

/-- A block that was committed stays while its checkpoints are adopted, and so do the slots
that were replayed for it, but for those that the receiver takes. -/
theorem kept_of_adopt
    (stocked : Stocked rules (fun _ => True) chain.choice.tree chain.pool)
    (isNew : chain.choice.containsBlock (rules.blockRoot block) = false)
    (drafted : chain.draft block interrupted = .ok draft)
    (committed : chain.commit draft = (.ok (), grown))
    (adopted : grown.adopt draft.block (watching receive) (state, log) =
      (outcome, next, after, logAfter)) :
    next.pool.find? draft.block.ref = some draft.block ∧
      ∀ entry ∈ draft.replayed, next.pool.find? entry.ref = some entry ∨
        ∃ canonical, (⟨entry, canonical, .ok ()⟩ : Handover State Context) ∈ logAfter := by
  obtain ⟨replayed, node, commits, growth, joins, held⟩ :=
    commit_joins stocked isNew drafted fun _ _ => trivial
  obtain rfl : grown = replayed.join node draft.block :=
    (congrArg Prod.snd (committed.symm.trans commits) :)
  obtain ⟨accounted, lastStays⟩ := adopt_keeps ((growth.join joins).stocked stocked) adopted
  constructor
  · have stays := lastStays node (by simp [join])
    rw [← joins.named, join, Pool.find?_insert_self] at stays
    exact stays
  · intro entry member
    exact accounted entry.ref entry
      ((Grown.refl.join joins).find?_of_find? (growth.stocked stocked) (held entry member))

theorem blockRoot_of_draft
    (stocked : Stocked rules inRange chain.choice.tree chain.pool)
    (drafted : chain.draft block interrupted = .ok draft) :
    draft.block.blockRoot = rules.blockRoot block := by
  obtain ⟨_, _, isDraft⟩ := exists_drafted stocked drafted
  exact congrArg NodeRef.root isDraft.ref

theorem byBlock?_of_draft
    (stocked : Stocked rules inRange chain.choice.tree chain.pool)
    (stockedNext : Stocked rules inRange next.choice.tree next.pool)
    (drafted : chain.draft block interrupted = .ok draft)
    (found : next.pool.find? draft.block.ref = some draft.block) :
    next.byBlock? (rules.blockRoot block) = some draft.block := by
  obtain ⟨_, _, isDraft⟩ := exists_drafted stocked drafted
  rw [← blockRoot_of_draft stocked drafted]
  exact byBlock?_of_find? stockedNext found (by simp [Entry.hasBlock, isDraft.parent])

end Committed

theorem faultless_balancesAt (chain : RecentChain preset rules) (checkpoint : Checkpoint) :
    Faultless (chain.balancesAt checkpoint) := by
  unfold balancesAt
  split
  · exact .ok _
  · exact .error rfl

/-- An adoption that fails meets no fault, unless its receiver has just answered with one. -/
theorem refused_of_adopt
    {entry : Entry State Context} {cause : Error}
    (failed : chain.adopt entry receive state = (.error cause, next, after)) :
    cause.innermost.isFault = false ∨ ∃ entry canonical before,
      receive entry canonical before = (.error cause, after) := by
  unfold adopt at failed
  dsimp only at failed
  generalize adopts : chain.choice.adopt entry.ref (rules.justified entry.state)
    (rules.finalized entry.state) chain.balancesAt (Pool.release receive)
    (chain.pool, state) = result
    at failed
  obtain ⟨outcome, choice, pool, last⟩ := result
  cases failed
  rcases ForkChoice.error_of_adopt adopts with
    noFault | ⟨checkpoint, unknown⟩ | ⟨node, canonical, pooled, refused⟩
  · exact .inl noFault
  · exact .inl (chain.faultless_balancesAt checkpoint cause unknown)
  · obtain ⟨found, before, refuses⟩ := error_of_release refused
    exact .inr ⟨found, canonical, before, refuses⟩

/-- Only the receiver can be at fault if an adoption fails. -/
theorem error_of_adopt
    {entry : Entry State Context} {cause : Error}
    (failed : chain.adopt entry receive state = (.error cause, next, after)) :
    cause.isFault = false ∨ ∃ entry canonical before,
      (receive entry canonical before).1 = .error cause := by
  rcases refused_of_adopt failed with noFault | ⟨found, canonical, before, refuses⟩
  · exact .inl (Error.isFault_of_innermost noFault)
  · exact .inr ⟨found, canonical, before, congrArg Prod.fst refuses⟩

/-! ## All outcomes -/

/-- Slots are replayed until the caller asks for a stop or the rules fail. -/
theorem replaySlots_error
    {interrupted : List Nat → Bool} {root : Root} {error : Error} :
    ∀ {count : Nat} {previous : Entry State Context} {before : List (Entry State Context)},
      replaySlots rules interrupted root count previous before = .error error →
      error = .interrupted ∨ ∃ message, error = .external message
  | 0, _, _, failed => by cases failed
  | count + 1, previous, before, failed => by
    rw [replaySlots] at failed
    split at failed
    next =>
      cases failed
      exact .inl rfl
    next =>
      split at failed
      next passed =>
        cases failed
        rcases exists_of_bind_eq_error passed with outside | ⟨_, _, made⟩
        · exact .inr (Error.exists_of_ofOutside outside)
        · cases made
      next => exact replaySlots_error failed

/-- Behind the state from which it goes on, a draft fails for no cause of the chain itself. -/
theorem draft_error
    {block : Block} {interrupted : List Nat → Bool} {error : Error}
    (failed : chain.draft block interrupted = .error error) :
    chain.preState block = .error error ∨ error = .interrupted ∨
      ∃ message, error = .external message := by
  rcases exists_of_bind_eq_error failed with unfounded | ⟨previous, _, failed⟩
  · exact .inl unfounded
  rcases exists_of_bind_eq_error failed with stopped | ⟨replayed, _, failed⟩
  · exact .inr (replaySlots_error stopped)
  dsimp only at failed
  split at failed
  next =>
    cases failed
    exact .inr (.inl rfl)
  next =>
    rcases exists_of_bind_eq_error failed with outside | ⟨_, _, made⟩
    · exact .inr (.inr (Error.exists_of_ofOutside outside))
    · cases made

/-- The checkpoints of the block were adopted, and finality advanced to a later slot, but what
had become stale by that could not be swept. -/
def SweepFails (chain : RecentChain preset rules) (block : Block) (interrupted : List Nat → Bool)
    (receive : EntryReceiver State Context store) (state : store) (error : Error) : Prop :=
  ∃ draft grown adopted between, chain.draft block interrupted = .ok draft ∧
    chain.commit draft = (.ok (), grown) ∧
    grown.adopt draft.block receive state = (.ok (), adopted, between) ∧
    adopted.pool.anchorSlot ≠ grown.pool.anchorSlot ∧
    (adopted.sweep receive between).1 = .error error

theorem settle_error
    {entry : Entry State Context} {error : Error}
    (failed : chain.settle entry receive state = (.error error, next, after)) :
    (∃ cause, chain.adopt entry receive state = (.error cause, next, after) ∧
      error = .notAdopted entry.blockRoot cause) ∨
    ∃ adopted between, chain.adopt entry receive state = (.ok (), adopted, between) ∧
      adopted.pool.anchorSlot ≠ chain.pool.anchorSlot ∧
      (adopted.sweep receive between).1 = .error error := by
  unfold settle at failed
  split at failed
  next adopts =>
    cases failed
    exact .inl ⟨_, adopts, rfl⟩
  next adopted between adopts =>
    split at failed
    next => cases failed
    next advanced => exact .inr ⟨adopted, between, adopts, advanced, congrArg Prod.fst failed⟩

/-- The block was added and its finalized checkpoint adopted.  The block is in the chain, and
so are the slots that were replayed for it, but for what is older than the finalized part of
the chain by now, and for those slots that the receiver has taken. -/
structure Unswept (chain next : RecentChain preset rules) (block : Block)
    (draft : Draft State Context) (handed : List (Handover State Context)) : Prop where
  contained : next.choice.containsBlock (rules.blockRoot block) = true
  found : next.pool.anchorSlot ≤ draft.block.slot →
    next.byBlock? (rules.blockRoot block) = some draft.block
  replayed : ∀ entry ∈ draft.replayed, next.pool.anchorSlot ≤ entry.slot →
    next.byBlockSlot? entry.blockRoot entry.slot = some entry ∨
      ∃ canonical, (⟨entry, canonical, .ok ()⟩ : Handover State Context) ∈ handed
  finalized : next.choice.finalized = rules.finalized draft.block.state
  later : chain.choice.finalized.epoch < next.choice.finalized.epoch

/-- A sweep that fails comes too late for the block and for finality. -/
theorem unswept_of_sweepFails
    {limits : Limits} {root parentRoot : Root} {anchorState : State}
    {permits : RecentChain preset rules → Call State Block Context → Prop}
    {start : RecentChain preset rules} {log : List (Handover State Context)} {block : Block}
    {interrupted : List Nat → Bool} {outcome : Except Error (Entry State Context)} {error : Error}
    (started : ofAnchor? limits root parentRoot anchorState = .ok start)
    (run : Run permits start chain log)
    (isNew : chain.choice.containsBlock (rules.blockRoot block) = false)
    (fails : SweepFails chain block interrupted (watching receive) (state, []) error)
    (added : chain.addBlock block interrupted receive state = (outcome, next, after)) :
    outcome = .error error ∧ ∃ draft, chain.draft block interrupted = .ok draft ∧
      Unswept chain next block draft
        (chain.noted [] (.addBlock block interrupted receive state)) := by
  obtain ⟨anchor, _, begins⟩ := ofAnchor?_goesOn (fun _ => True) started trivial
  have goesOn := run.goesOn begins fun _ _ _ => trivial
  have goesOnNext := goesOn.addBlock_noted block interrupted receive state fun _ _ => trivial
  rw [added] at goesOnNext
  obtain ⟨draft, grown, adopted, ⟨between, handed⟩, drafted, committed, adopts, raised, failed⟩ :=
    fails
  obtain ⟨_, answer, commits, growth, settled, made⟩ :=
    settle_of_addBlock goesOn.stocked (fun _ _ => trivial) isNew drafted
      (addBlock_watched [] added)
  obtain rfl : grown = _ := (congrArg Prod.snd (committed.symm.trans commits) :)
  simp only [settle, adopts, if_neg raised] at settled
  rw [settled] at failed
  obtain rfl : answer = .error error := failed
  obtain ⟨swept, same⟩ := sweep_pool settled
  obtain ⟨found, replayed⟩ := kept_of_adopt goesOn.stocked isNew drafted committed adopts
  obtain ⟨newer, later⟩ := finalized_of_adopt adopts raised
  have sameChoice : next.choice = adopted.choice := by rw [same]
  have sameSlot := Pool.anchorSlot_sweep swept
  have root := blockRoot_of_draft goesOn.stocked drafted
  refine ⟨made, draft, drafted, ?_, ?_, ?_, ?_, ?_⟩
  · have contained := containsBlock_of_find? ((goesOn.grown growth).stocked_adopt adopts) found
    rw [sameChoice, ← root]
    exact contained
  · intro recent
    rw [sameSlot] at recent
    exact byBlock?_of_draft goesOn.stocked goesOnNext.stocked drafted
      (Pool.find?_sweep_of_recent found rfl recent swept)
  · intro entry member recent
    rw [sameSlot] at recent
    rcases replayed entry member with held | ⟨canonical, taken⟩
    · exact .inl (Pool.find?_sweep_of_recent held rfl recent swept)
    · exact .inr ⟨canonical, Pool.mem_of_sweep taken swept⟩
  · rw [sameChoice, newer]
  · rw [sameChoice]
    rwa [growth.choice_eq] at later

/-- Two branches above the anchor, and a block on the first one that finalizes the anchor at a
slot behind the start of the second. -/
def forkedBlocks : List ScriptedBlock :=
  [{ slot := 3, root := ⟨11⟩, parentRoot := ⟨10⟩ },
   { slot := 1, root := ⟨12⟩, parentRoot := ⟨10⟩ },
   { slot := 4, root := ⟨13⟩, parentRoot := ⟨11⟩, finalized := some ⟨1, ⟨10⟩⟩ }]

/-- The chain with both branches. -/
def forkedChain : RecentChain .minimal (Scripted.rules []) :=
  (forkedBlocks.take 2).foldl
    (fun chain block => (chain.addBlock block (fun _ => false) takeAtMost 0).2.1) trialStart.recent

/-- What comes of the last block if the receiver has room for the three finalized entries, but
not for that of the other branch. -/
def forkedResult :
    Except Error (Entry ScriptedState Nat) × RecentChain .minimal (Scripted.rules []) × Nat :=
  forkedChain.addBlock forkedBlocks[2] (fun _ => false) takeAtMost 3

theorem forkedChain_run :
    ∃ log : List (Handover ScriptedState Nat),
      Run (fun _ _ => True) trialStart.recent forkedChain log :=
  ⟨_, .call (.call .start (.addBlock forkedBlocks[0] (fun _ => false) takeAtMost 0) trivial)
    (.addBlock forkedBlocks[1] (fun _ => false) takeAtMost 0) trivial⟩

theorem unswept_of_sweepFails_forkedBlocks :
    SweepFails forkedChain forkedBlocks[2] (fun _ => false) (watching takeAtMost) (3, [])
      (.external "no room left") ∧
    ∃ draft, forkedChain.draft forkedBlocks[2] (fun _ => false) = .ok draft ∧
      Unswept forkedChain forkedResult.2.1 forkedBlocks[2] draft
        (forkedChain.noted [] (.addBlock forkedBlocks[2] (fun _ => false) takeAtMost 3)) := by
  have started : ofAnchor? .minimal ⟨10⟩ ⟨9⟩ trialAnchor = .ok trialStart.recent := rfl
  obtain ⟨_, run⟩ := forkedChain_run
  have fails : SweepFails forkedChain forkedBlocks[2] (fun _ => false) (watching takeAtMost)
      (3, []) (.external "no room left") :=
    ⟨_, _, _, _, rfl, rfl, rfl, by decide, by decide⟩
  exact ⟨fails, (unswept_of_sweepFails started run (by decide) fails rfl).2⟩

end RecentChain

end BeaconChain
