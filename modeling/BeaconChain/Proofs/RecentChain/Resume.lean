import BeaconChain.Proofs.ForkChoice.Prepared
import BeaconChain.Proofs.RecentChain.Pruned
import BeaconChain.Proofs.RecentChain.Trails
import BeaconChain.Proofs.RecentChain.Votes

/-!
# Migrations that are taken up again

A migration whose receiver fails leaves the finalized checkpoint pending.  The chain then lags
behind the chain whose receiver did not fail, by the nodes that are still to be dropped, and
catches up with it as soon as a migration to the same checkpoint comes to its end.
-/

namespace BeaconChain

open BlockTree ForkChoice

variable {preset : Preset} {State Block Context store : Type} {rules : Rules State Block Context}
  {inRange : Nat → Prop}

theorem Pool.anchorSlot_le_of_prune
    {receive : EntryReceiver State Context store} {tree treeAfter : BlockTree} {ref : NodeRef}
    {pool left : Pool State Context} {state after : store} {outcome : Except Error Unit}
    (pruned : tree.prune ref (release receive) (pool, state) = (outcome, treeAfter, left, after)) :
    pool.anchorSlot ≤ left.anchorSlot :=
  prune_invariant (fun pooled => pool.anchorSlot ≤ pooled.1.anchorSlot)
    (fun _ _ before last _ notLower released => by
      rcases RecentChain.release_pool released with same | ⟨_, slot, raised, same⟩
      · exact same ▸ notLower
      · rw [same]
        exact Nat.le_trans notLower raised) (Nat.le_refl _) pruned

theorem Pool.Keyed.release
    {receive : EntryReceiver State Context store} {node : Node} {canonical : Bool}
    {before after : Pool State Context × store} {outcome : Except Error Unit}
    (keyed : before.1.Keyed)
    (released : Pool.release receive node canonical before = (outcome, after)) : after.1.Keyed := by
  rcases RecentChain.release_pool released with same | ⟨dropped, slot, _, same⟩
  · exact same ▸ keyed
  · rw [same]
    exact keyed.remove dropped

namespace RecentChain

variable {chain next behind ahead : RecentChain preset rules} {entry : Entry State Context}
  {receive : EntryReceiver State Context store} {state after : store} {outcome : Except Error Unit}
  {log logAhead logAfter : List (Handover State Context)} {counted choice : ForkChoice preset}
  {anchor : NodeRef} {balances : List Nat} {gone : NodeRef → Prop} {count : Nat}

/-- Nodes that the second chain does not have any more may leave the first one. -/
theorem Trails.prune
    {ref : NodeRef} {treeAfter : BlockTree} {left : Pool State Context}
    (trails : Trails gone count behind ahead)
    (stocked : Stocked rules inRange behind.choice.tree behind.pool)
    (aheadStocked : Stocked rules inRange ahead.choice.tree ahead.pool) (sound : Sound counted.tree)
    (same : SameShape counted.tree behind.choice.tree)
    (present : behind.choice.tree.position? ref = some count)
    (pruned : counted.tree.prune ref (Pool.release (watching receive)) (behind.pool, state, log) =
      (outcome, treeAfter, left, after, logAfter))
    (choice : ForkChoice preset) (tree : choice.tree = treeAfter)
    (heard : choice.ballots.votes.map Vote.heard = behind.choice.ballots.votes.map Vote.heard)
    (unpinned : choice.pin = none) :
    ∃ accepted, Pruned behind.choice.tree count behind.pool log accepted treeAfter left logAfter ∧
      (outcome = .ok () → accepted = count) ∧
      Trails gone (count - accepted) { behind with choice := choice, pool := left } ahead := by
  obtain ⟨accepted, spec, complete⟩ := prune_spec sound same stocked.named present pruned
  have thinned : Pool.Thinned gone left ahead.pool ∧ left.Keyed := by
    refine prune_keeps (fun pool => Pool.Thinned gone pool ahead.pool ∧ pool.Keyed) sound same
      stocked.named present (fun pool dropped position anchorSlot before placed held => ?_)
      ⟨trails.pool, trails.keyed⟩ pruned
    have absent : ahead.pool.find? dropped = none := by
      cases found : ahead.pool.find? dropped with
      | none => rfl
      | some entry =>
        obtain ⟨place, node, here, named⟩ := aheadStocked.present dropped entry found
        have kept := trails.tree.position?_iff.1
          ((aheadStocked.sound.positions _ _).2 ⟨node, here, named⟩)
        rw [placed] at kept
        cases kept
        omega
    exact ⟨(held.1.remove held.2 absent).congr, held.2.remove dropped⟩
  refine ⟨accepted, spec, complete, ?_⟩
  exact {
    limits := trails.limits
    tree := tree ▸ trails.tree.remainder spec.trimmed spec.notMore
    heard := heard.trans trails.heard
    pool := thinned.1
    keyed := thinned.2
    behindUnpinned := unpinned
    aheadUnpinned := trails.aheadUnpinned
    excess := fun ref entry isGone found => by
      obtain ⟨held, behindAll⟩ := (spec.found ref entry).1 found
      refine (trails.excess ref entry isGone held).imp ?_ id
      rintro ⟨position, before, placed⟩
      have notBefore := behindAll position placed
      refine ⟨position - accepted, by omega, ?_⟩
      have moved := spec.trimmed.position?_iff.2
        (show _ = some (position - accepted + accepted) by
          rw [Nat.sub_add_cancel notBefore]; exact placed)
      exact tree ▸ moved
    swept := trails.swept.imp id fun notLater =>
      Nat.le_trans notLater (Pool.anchorSlot_le_of_prune pruned) }

/-- What is stale may leave the first chain if the second one has none of it. -/
theorem Trails.sweep
    (trails : Trails gone 0 chain ahead)
    (aheadStocked : Stocked rules inRange ahead.choice.tree ahead.pool)
    (noneStale : ahead.pool.NoneStale) (notLater : chain.pool.anchorSlot ≤ ahead.pool.anchorSlot)
    (swept : chain.sweep receive state = (outcome, next, after)) : Trails gone 0 next ahead := by
  obtain ⟨pooled, same⟩ := sweep_pool swept
  have thinned : Pool.Thinned gone next.pool ahead.pool ∧ next.pool.Keyed := by
    refine Pool.sweep_invariant (fun pool _ => Pool.Thinned gone pool ahead.pool ∧ pool.Keyed)
      (fun dropped older now _ _ _ held _ => ⟨held, fun _ => ?_⟩) ⟨trails.pool, trails.keyed⟩ pooled
    have absent : ahead.pool.find? dropped.ref = none := by
      cases found : ahead.pool.find? dropped.ref with
      | none => rfl
      | some entry =>
        have sameSlot : entry.slot = dropped.slot :=
          congrArg NodeRef.slot (aheadStocked.named _ entry found)
        have := noneStale _ entry found
        omega
    exact ⟨held.1.remove held.2 absent, held.2.remove dropped.ref⟩
  rw [same]
  exact { trails with
    pool := thinned.1
    keyed := thinned.2
    excess := fun ref entry isGone found =>
      trails.excess ref entry isGone (Pool.find?_of_sweep pooled ref entry found)
    swept := .inl noneStale }

/-- An adoption that has been prepared takes nodes out of the tree, and makes the finalized
checkpoint current or leaves it pending. -/
theorem adopt_of_prepared
    (prepared : chain.choice.Prepared entry.ref (rules.justified entry.state)
      (rules.finalized entry.state) chain.balancesAt anchor balances counted)
    (adopted : chain.adopt entry receive state = (outcome, next, after)) :
    ∃ tree pool, counted.tree.prune anchor (Pool.release receive) (chain.pool, state) =
        (outcome, tree, pool, after) ∧
      ((∃ error, outcome = .error error ∧
          next = { chain with
            choice := { counted with tree := tree, pending := some (rules.finalized entry.state) }
            pool := pool }) ∨
        outcome = .ok () ∧
          next = { chain with
            choice := { counted with
              tree := tree, finalized := rules.finalized entry.state, pending := none, pin := none }
            pool := pool }) := by
  simp only [adopt, prepared.adopt_eq, finalizeAt] at adopted
  generalize pruned : counted.tree.prune anchor (Pool.release receive) (chain.pool, state) = result
    at adopted
  obtain ⟨answer, tree, pool, last⟩ := result
  cases answer with
  | error error =>
    cases adopted
    exact ⟨tree, pool, rfl, .inl ⟨error, rfl, rfl⟩⟩
  | ok =>
    cases adopted
    exact ⟨tree, pool, rfl, .inr ⟨rfl, rfl⟩⟩

/-- A log goes on with offers, the last of which was refused. -/
def Refuses (log logAfter : List (Handover State Context)) : Prop :=
  ∃ offered refused error, logAfter = log ++ offered ++ [refused] ∧ refused.outcome = .error error

theorem release_offers
    {node : Node} {canonical : Bool}
    {before last : Pool State Context × store × List (Handover State Context)}
    (released : Pool.release (watching receive) node canonical before = (outcome, last)) :
    outcome = .ok () ∧ last = before ∨
      ∃ entry, last.2.2 = before.2.2 ++ [⟨entry, canonical, outcome⟩] := by
  obtain ⟨pool, state, log⟩ := before
  unfold Pool.release at released
  dsimp only at released
  split at released
  next =>
    cases released
    exact .inl ⟨rfl, rfl⟩
  next entry _ =>
    split at released
    next refused =>
      cases released
      exact .inr ⟨entry, (eq_of_watching refused).2⟩
    next accepted =>
      cases released
      exact .inr ⟨entry, (eq_of_watching accepted).2⟩

/-- A pruning that fails has been refused its last offer. -/
theorem refuses_of_prune
    {tree treeAfter : BlockTree} {ref : NodeRef} {pool left : Pool State Context} {error : Error}
    (sound : Sound tree) (present : tree.position? ref = some count)
    (pruned : tree.prune ref (Pool.release (watching receive)) (pool, state, log) =
      (.error error, treeAfter, left, after, logAfter)) : Refuses log logAfter := by
  have fresh := sound.refresh
  rw [← (sameShape_refresh tree).position?_eq] at present
  obtain ⟨node, here, rfl⟩ := (fresh.positions _ _).1 present
  generalize offers : offerAll (Pool.release (watching receive))
    (tree.refresh.markedBefore count (node.headPosition count)) (pool, state, log) = result
  obtain ⟨answer, accepted, pooled⟩ := result
  rw [prune_of_locate? (fresh.locate?_eq_some_iff.2 ⟨here, rfl⟩) offers] at pruned
  cases pruned
  have goesOn : ∀ (node : Node) (mark : Bool)
      (before last : Pool State Context × store × List (Handover State Context))
      (answer : Except Error Unit), log <+: before.2.2 →
      Pool.release (watching receive) node mark before = (answer, last) → log <+: last.2.2 := by
    intro node mark before last answer longer released
    rcases release_offers released with ⟨_, rfl⟩ | ⟨entry, offered⟩
    · exact longer
    · exact offered ▸ longer.trans (List.prefix_append _ _)
  obtain ⟨node, mark, before, _, ⟨offered, longer⟩, refused⟩ :=
    exists_refused_of_offerAll goesOn List.prefix_rfl offers
  rcases release_offers refused with ⟨isOk, _⟩ | ⟨entry, last⟩
  · cases isOk
  · exact ⟨offered, _, error, longer.symm ▸ last, rfl⟩

/-- What holds of a chain and its log throughout a run. -/
structure Regular (pedigree : Pedigree) (start : Entry State Context) (floor : Nat)
    (chain : RecentChain preset rules) (log : List (Handover State Context)) : Prop where
  goesOn : GoesOn (· < slotLimit) start chain log
  mark : Watermark floor chain.pool log
  keyed : chain.pool.Keyed
  reached : Reached pedigree chain.choice

/-- The second chain has finalized a checkpoint, for which the first one has to drop `count`
nodes yet.  It has handed on what the first one has, and what is due of these nodes. -/
structure Lags (gone : NodeRef → Prop) (count : Nat) (behind ahead : RecentChain preset rules)
    (log logAhead : List (Handover State Context)) : Prop
    extends Trails gone count behind ahead where
  place : behind.choice.tree.position? (boundary preset ahead.choice.finalized) = some count
  due : taken logAhead = taken log ++ behind.pool.due (behind.choice.tree.markedNames count)
  older : behind.choice.finalized.epoch < ahead.choice.finalized.epoch
  judged : ∃ position,
    behind.choice.tree.position? (boundary preset ahead.choice.justified) = some position ∧
    count ≤ position
  weighed : ∃ entry, behind.pool.find? (boundary preset ahead.choice.justified) = some entry ∧
    rules.balances entry.state = ahead.choice.balances
  settled : ahead.choice.pending = none
  stamp : ahead.choice.tree.stamp = ⟨ahead.choice.justified.epoch, ahead.choice.finalized.epoch⟩

/-- The migration of the first chain has been refused and waits to be taken up again. -/
structure Waits (gone : NodeRef → Prop) (count : Nat) (behind ahead : RecentChain preset rules)
    (log logAhead : List (Handover State Context)) : Prop
    extends Lags gone count behind ahead log logAhead where
  justified : behind.choice.justified = ahead.choice.justified
  pending : behind.choice.pending = some ahead.choice.finalized
  balances : behind.choice.balances = ahead.choice.balances

/-- The chains have handed on the same entries, and differ only by entries of the first one that
are stale. -/
structure Level (gone : NodeRef → Prop) (behind ahead : RecentChain preset rules)
    (log logAhead : List (Handover State Context)) : Prop extends Trails gone 0 behind ahead where
  agrees : behind.choice.Agrees ahead.choice
  handed : taken log = taken logAhead
  stamp : ahead.choice.tree.stamp = ⟨ahead.choice.justified.epoch, ahead.choice.finalized.epoch⟩

section Settle

variable {pedigree : Pedigree} {start : Entry State Context} {floor : Nat}

theorem Regular.stocked (regular : Regular pedigree start floor chain log) :
    Stocked rules (· < slotLimit) chain.choice.tree chain.pool :=
  regular.goesOn.stocked

theorem Regular.adopt
    (regular : Regular pedigree start floor chain log)
    (adopted : chain.adopt entry (watching receive) (state, log) =
      (outcome, next, after, logAfter)) :
    Regular pedigree start floor next logAfter where
  goesOn := regular.goesOn.adopt adopted
  mark := watermark_of_adopt regular.mark adopted
  keyed := adopt_invariant (fun pooled => pooled.1.Keyed)
    (fun _ _ _ _ _ keyed released => keyed.release released) regular.keyed adopted
  reached := by
    have reached := reached_adopt regular.reached entry (watching receive) (state, log)
    rwa [adopted] at reached

theorem Regular.sweep
    (regular : Regular pedigree start floor chain log)
    (swept : chain.sweep (watching receive) (state, log) = (outcome, next, after, logAfter)) :
    Regular pedigree start floor next logAfter where
  goesOn := regular.goesOn.sweep swept
  mark := regular.mark.sweep (sweep_pool swept).1
  keyed := Pool.sweep_invariant (fun pool _ => pool.Keyed)
    (fun _ _ _ _ _ _ keyed _ => ⟨keyed, fun _ => keyed.remove _⟩) regular.keyed (sweep_pool swept).1
  reached := by
    obtain ⟨_, same⟩ := sweep_pool swept
    rw [same]
    exact regular.reached

/-- A migration that is refused has brought the chain nearer. -/
theorem Lags.refused
    {accepted : Nat} {treeAfter : BlockTree} {left : Pool State Context}
    (lags : Lags gone count behind ahead log logAhead)
    (spec : Pruned behind.choice.tree count behind.pool log accepted treeAfter left logAfter)
    (trails : Trails gone (count - accepted) { behind with choice := choice, pool := left } ahead)
    (tree : choice.tree = treeAfter) (justified : choice.justified = ahead.choice.justified)
    (finalized : choice.finalized = behind.choice.finalized)
    (pending : choice.pending = some ahead.choice.finalized)
    (balances : choice.balances = ahead.choice.balances) :
    Waits gone (count - accepted) { behind with choice := choice, pool := left } ahead logAfter
      logAhead := by
  subst tree
  have notMore := spec.notMore
  have moved : ∀ {ref : NodeRef} {position : Nat},
      behind.choice.tree.position? ref = some position →
      count ≤ position → choice.tree.position? ref = some (position - accepted) := by
    intro ref position placed notBefore
    rw [spec.trimmed.position?_iff, placed, Nat.sub_add_cancel (Nat.le_trans notMore notBefore)]
  obtain ⟨position, judged, notBefore⟩ := lags.judged
  obtain ⟨entry, found, weighed⟩ := lags.weighed
  have inside : count < behind.choice.tree.size := by
    obtain ⟨node, here, _⟩ := (spec.trimmed.whole.positions _ _).1 lags.place
    exact (List.getElem?_eq_some_iff.1 here).1
  exact { trails with
    place := moved lags.place (Nat.le_refl count)
    due := lags.due.trans (spec.taken_append_due inside).symm
    older := finalized ▸ lags.older
    judged := ⟨_, moved judged notBefore, Nat.sub_le_sub_right notBefore accepted⟩
    weighed := by
      refine ⟨entry, (spec.found _ _).2 ⟨found, fun other placed => ?_⟩, weighed⟩
      rw [judged] at placed
      cases placed
      exact Nat.le_trans notMore notBefore
    settled := lags.settled
    stamp := lags.stamp
    justified := justified
    pending := pending
    balances := balances }

/-- A migration that comes to its end has brought the chain level. -/
theorem Lags.finished
    {treeAfter : BlockTree} {left : Pool State Context}
    (lags : Lags gone count behind ahead log logAhead)
    (spec : Pruned behind.choice.tree count behind.pool log count treeAfter left logAfter)
    (trails : Trails gone (count - count) { behind with choice := choice, pool := left } ahead)
    (stamp : choice.tree.stamp = ahead.choice.tree.stamp)
    (balances : choice.balances = ahead.choice.balances)
    (justified : choice.justified = ahead.choice.justified)
    (finalized : choice.finalized = ahead.choice.finalized) (pending : choice.pending = none) :
    Level gone { behind with choice := choice, pool := left } ahead logAfter logAhead := by
  rw [Nat.sub_self] at trails
  exact { trails with
    agrees := {
      tree := trails.tree
      stamp := stamp
      heard := trails.heard
      balances := balances
      justified := justified
      finalized := finalized
      pending := pending.trans lags.settled.symm
      pin := trails.behindUnpinned.trans trails.aheadUnpinned.symm }
    handed := by rw [spec.handed, take_markedNames, lags.due]
    stamp := lags.stamp }

theorem Level.sweep
    (level : Level gone chain ahead log logAhead)
    (regular : Regular pedigree start floor chain log)
    (aheadRegular : Regular pedigree start floor ahead logAhead) (floorInRange : floor < slotLimit)
    (lenient : Lenient receive) (noneStale : ahead.pool.NoneStale)
    (swept : chain.sweep (watching receive) (state, log) = (outcome, next, after, logAfter)) :
    outcome = .ok () ∧ Level gone next ahead logAfter logAhead := by
  have sameSlot := regular.mark.anchorSlot_eq aheadRegular.mark level.handed
  obtain ⟨_, lineage⟩ := regular.goesOn
  have inRange := regular.mark.anchorSlot_lt lineage.orderly floorInRange
  have trails := level.toTrails.sweep aheadRegular.stocked noneStale (Nat.le_of_eq sameSlot) swept
  obtain ⟨pooled, same⟩ := sweep_pool swept
  have sameChoice : next.choice = chain.choice := by rw [same]
  obtain ⟨isOk, handed, _⟩ :=
    Pool.sweep_spec regular.stocked.named (Nat.le_of_lt inRange) lenient pooled
  exact ⟨isOk, { trails with
    agrees := sameChoice ▸ level.agrees
    handed := handed.trans level.handed
    stamp := level.stamp }⟩

theorem Lags.settle
    (lags : Lags gone count behind ahead log logAhead)
    (regular : Regular pedigree start floor behind log)
    (aheadRegular : Regular pedigree start floor ahead logAhead) (floorInRange : floor < slotLimit)
    (lenient : Lenient receive)
    (prepared : behind.choice.Prepared entry.ref (rules.justified entry.state)
      (rules.finalized entry.state) behind.balancesAt (boundary preset ahead.choice.finalized)
      ahead.choice.balances counted)
    (finalizes : rules.finalized entry.state = ahead.choice.finalized)
    (justifies : counted.justified = ahead.choice.justified)
    (settled : behind.settle entry (watching receive) (state, log) =
      (outcome, next, after, logAfter)) :
    (∃ error left, outcome = .error error ∧ Refuses log logAfter ∧
        Waits gone left next ahead logAfter logAhead ∧
        ∀ root, behind.choice.tree.Spares count root → next.choice.tree.Spares left root) ∨
      outcome = .ok () ∧ Level gone next ahead logAfter logAhead := by
  have stocked := regular.stocked
  have aheadStocked := aheadRegular.stocked
  generalize adopts : behind.adopt entry (watching receive) (state, log) = result
  obtain ⟨answer, adopted, between, logBetween⟩ := result
  have adoptedRegular := regular.adopt adopts
  obtain ⟨treeAfter, left, pruned, made⟩ := adopt_of_prepared prepared adopts
  have pruning := fun choice =>
    lags.toTrails.prune stocked aheadStocked (prepared.sound stocked.sound) prepared.shape
      lags.place pruned choice
  unfold RecentChain.settle at settled
  rw [adopts] at settled
  rcases made with ⟨error, rfl, rfl⟩ | ⟨rfl, rfl⟩
  · cases settled
    obtain ⟨accepted, spec, _, trails⟩ := pruning
      { counted with tree := treeAfter, pending := some (rules.finalized entry.state) } rfl
      prepared.heard (prepared.pin.trans lags.behindUnpinned)
    have present := lags.place
    rw [← prepared.shape.position?_eq] at present
    have refuses := refuses_of_prune (prepared.sound stocked.sound) present pruned
    exact .inl ⟨_, _, rfl, refuses, lags.refused spec trails rfl justifies prepared.finalized
      (congrArg some finalizes) prepared.balances, fun root spares => spares.remainder spec.trimmed⟩
  · refine .inr ?_
    obtain ⟨accepted, spec, complete, trails⟩ := pruning
      { counted with
        tree := treeAfter, finalized := rules.finalized entry.state,
        pending := none, pin := none } rfl
      prepared.heard rfl
    obtain rfl := complete rfl
    have stampAfter : treeAfter.stamp = ahead.choice.tree.stamp := by
      have same := stamp_prune counted.tree (boundary preset ahead.choice.finalized)
        (Pool.release (watching receive)) (behind.pool, state, log)
      rw [pruned] at same
      rw [same, prepared.stamp, justifies, finalizes, lags.stamp]
    have level := lags.finished spec trails stampAfter prepared.balances justifies finalizes rfl
    have sameSlot := adoptedRegular.mark.anchorSlot_eq aheadRegular.mark level.handed
    dsimp only at settled
    split at settled
    next =>
      cases settled
      exact ⟨rfl, level⟩
    next raised =>
      have notLower := Pool.anchorSlot_le_of_prune pruned
      have noneStale : ahead.pool.NoneStale := by
        refine lags.swept.resolve_right fun notLater => raised ?_
        dsimp only at sameSlot ⊢
        omega
      exact level.sweep adoptedRegular aheadRegular floorInRange lenient noneStale settled

end Settle

/-! ## Growing -/

section Growth

variable {grown grownAhead : RecentChain preset rules}
  {added addedAhead : List (Entry State Context)}

theorem Lags.grow
    (lags : Lags gone count behind ahead log logAhead)
    (stocked : Stocked rules inRange behind.choice.tree behind.pool)
    (growth : Grown inRange behind added grown)
    (aheadGrowth : Grown inRange ahead addedAhead grownAhead)
    (trails : Trails gone count grown grownAhead) :
    Lags gone count grown grownAhead log logAhead := by
  obtain ⟨_, older, _, _⟩ := growth.checkpoints_eq
  obtain ⟨justified, finalized, pending, balances⟩ := aheadGrowth.checkpoints_eq
  have inside : count < behind.choice.tree.size := by
    obtain ⟨node, here, _⟩ := (stocked.sound.positions _ _).1 lags.place
    exact (List.getElem?_eq_some_iff.1 here).1
  have names := stocked.sound.toWellFormed.markedNames_of_prefix
    (growth.stocked stocked).sound.toWellFormed growth.nodes_prefix inside
  have sameDue : grown.pool.due (behind.choice.tree.markedNames count) =
      behind.pool.due (behind.choice.tree.markedNames count) := by
    refine Pool.due_congr fun ⟨ref, mark⟩ member => ?_
    obtain ⟨place, there⟩ := List.mem_iff_getElem?.1 member
    obtain ⟨_, ⟨node, here, rfl⟩, _⟩ :=
      (stocked.sound.toWellFormed.getElem?_markedNames inside).1 there
    exact growth.find?_eq stocked (stocked.sound.position?_ref here)
  obtain ⟨position, judged, notBefore⟩ := lags.judged
  obtain ⟨entry, found, weighed⟩ := lags.weighed
  exact { trails with
    place := finalized ▸ growth.position?_of_position? stocked lags.place
    due := by rw [names, sameDue, lags.due]
    older := by
      rw [finalized, older]
      exact lags.older
    judged := ⟨position, justified ▸ growth.position?_of_position? stocked judged, notBefore⟩
    weighed := by
      refine ⟨entry, ?_, weighed.trans balances.symm⟩
      rw [justified, growth.find?_eq stocked judged, found]
    settled := pending.trans lags.settled
    stamp := by rw [aheadGrowth.stamp_eq, lags.stamp, justified, finalized] }

theorem Waits.grow
    (waits : Waits gone count behind ahead log logAhead)
    (stocked : Stocked rules inRange behind.choice.tree behind.pool)
    (growth : Grown inRange behind added grown)
    (aheadGrowth : Grown inRange ahead addedAhead grownAhead)
    (trails : Trails gone count grown grownAhead) :
    Waits gone count grown grownAhead log logAhead := by
  obtain ⟨justified, _, pending, balances⟩ := growth.checkpoints_eq
  obtain ⟨aheadJustified, aheadFinalized, _, aheadBalances⟩ := aheadGrowth.checkpoints_eq
  exact { waits.toLags.grow stocked growth aheadGrowth trails with
    justified := by rw [justified, aheadJustified, waits.justified]
    pending := by rw [pending, aheadFinalized, waits.pending]
    balances := by rw [balances, aheadBalances, waits.balances] }

theorem Level.grow
    (level : Level gone behind ahead log logAhead)
    (growth : Grown inRange behind added grown)
    (aheadGrowth : Grown inRange ahead addedAhead grownAhead)
    (trails : Trails gone 0 grown grownAhead) : Level gone grown grownAhead log logAhead := by
  obtain ⟨justified, finalized, pending, balances⟩ := growth.checkpoints_eq
  obtain ⟨aheadJustified, aheadFinalized, aheadPending, aheadBalances⟩ := aheadGrowth.checkpoints_eq
  have agrees := level.agrees
  exact { trails with
    agrees := {
      tree := trails.tree
      stamp := by rw [growth.stamp_eq, aheadGrowth.stamp_eq, agrees.stamp]
      heard := trails.heard
      balances := by rw [balances, aheadBalances, agrees.balances]
      justified := by rw [justified, aheadJustified, agrees.justified]
      finalized := by rw [finalized, aheadFinalized, agrees.finalized]
      pending := by rw [pending, aheadPending, agrees.pending]
      pin := trails.behindUnpinned.trans trails.aheadUnpinned.symm }
    handed := level.handed
    stamp := by rw [aheadGrowth.stamp_eq, aheadJustified, aheadFinalized, level.stamp] }

end Growth

end RecentChain

end BeaconChain
