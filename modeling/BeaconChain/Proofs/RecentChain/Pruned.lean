import BeaconChain.Proofs.BlockTree.Trimmed
import BeaconChain.Proofs.RecentChain.Stale
import BeaconChain.Proofs.RecentChain.Thinned

/-!
# What a pruning leaves to be done

A pruning that is cut short has dropped the nodes that were accepted, and has handed on those
entries of theirs that were due.  What is due afterwards is exactly what it has not handed on.
A sweep hands nothing on that is due.
-/

namespace BeaconChain

open BlockTree

variable {State Block Context store : Type} {rules : Rules State Block Context}
  {inRange : Nat → Prop} {tree counted treeAfter : BlockTree} {pool left : Pool State Context}
  {receive : EntryReceiver State Context store} {state after : store}
  {log logAfter : List (Handover State Context)} {outcome : Except Error Unit} {ref : NodeRef}
  {count accepted : Nat}

/-- A pruning below position `count` that has dropped `accepted` nodes. -/
structure Pruned (tree : BlockTree) (count : Nat) (pool : Pool State Context)
    (log : List (Handover State Context)) (accepted : Nat) (treeAfter : BlockTree)
    (left : Pool State Context) (logAfter : List (Handover State Context)) : Prop where
  notMore : accepted ≤ count
  trimmed : Trimmed accepted tree treeAfter
  found : ∀ ref entry, left.find? ref = some entry ↔ pool.find? ref = some entry ∧
    ∀ position, tree.position? ref = some position → accepted ≤ position
  handed : taken logAfter = taken log ++ pool.due ((tree.markedNames count).take accepted)

theorem map_ref_markedBefore (tree : BlockTree) (position head : Nat) :
    ((tree.markedBefore position head).map fun marked => marked.1.ref) =
      (tree.nodes.take position).map Node.ref := by
  refine List.ext_getElem? fun place => ?_
  simp only [markedBefore, List.getElem?_map, List.getElem?_mapIdx, Option.map_map]
  rfl

theorem prune_spec
    (sound : Sound counted) (same : SameShape counted tree)
    (named : ∀ ref entry, pool.find? ref = some entry → entry.ref = ref)
    (present : tree.position? ref = some count)
    (pruned : counted.prune ref (Pool.release (watching receive)) (pool, state, log) =
      (outcome, treeAfter, left, after, logAfter)) :
    ∃ accepted, Pruned tree count pool log accepted treeAfter left logAfter ∧
      (outcome = .ok () → accepted = count) := by
  have fresh := sound.refresh
  have alike : SameShape counted.refresh tree := (sameShape_refresh counted).trans same
  have whole : Trimmed 0 tree counted.refresh :=
    .of_sameShape (alike.wellFormed fresh.toWellFormed) alike
  rw [← alike.position?_eq] at present
  obtain ⟨node, here, rfl⟩ := (fresh.positions _ _).1 present
  have inside : count + 0 < tree.size := alike.size_eq ▸ (List.getElem?_eq_some_iff.1 here).1
  generalize offers : offerAll (Pool.release (watching receive))
    (counted.refresh.markedBefore count (node.headPosition count)) (pool, state, log) = result
  obtain ⟨answer, accepted, pooled⟩ := result
  rw [prune_of_locate? (fresh.locate?_eq_some_iff.2 ⟨here, rfl⟩) offers] at pruned
  cases pruned
  obtain ⟨_, notMore, complete⟩ :=
    offerAll_invariant (fun _ _ => True)
      (fun _ _ _ _ _ _ _ _ _ => ⟨fun _ => trivial, fun _ => trivial⟩) trivial offers
  rw [length_markedBefore here] at notMore complete
  have nodup : ((counted.refresh.markedBefore count (node.headPosition count)).map
      fun marked => marked.1.ref).Nodup := by
    rw [map_ref_markedBefore]
    exact fresh.toIndexed.nodup.sublist ((List.take_sublist _ _).map _)
  obtain ⟨takes, found⟩ := Pool.offerAll_spec named nodup offers
  rw [fresh.markedNames_eq here, whole.markedNames_eq inside] at takes
  have trimmed : Trimmed accepted tree (counted.refresh.dropOldest accepted) := {
    whole := whole.whole
    rest := fresh.toWellFormed.dropOldest accepted
    inside := by omega
    nodes := alike.nodes.symm.dropOldest accepted }
  refine ⟨accepted, ⟨notMore, trimmed, fun ref entry => ?_, takes⟩, complete⟩
  rw [found]
  refine and_congr_right fun _ =>
    ⟨fun others position placed => ?_, fun others place offered before there => ?_⟩
  · refine Nat.le_of_not_lt fun before => ?_
    rw [← alike.position?_eq] at placed
    obtain ⟨held, heldHere, named⟩ := (fresh.positions _ _).1 placed
    obtain ⟨⟨other, mark⟩, there⟩ : ∃ offered,
        (counted.refresh.markedBefore count (node.headPosition count))[position]? = some offered :=
      ⟨_, List.getElem?_eq_getElem (by rw [length_markedBefore here]; omega)⟩
    obtain ⟨_, otherHere, _⟩ := getElem?_markedBefore there
    obtain rfl := Option.some.inj (heldHere.symm.trans otherHere)
    exact others position _ before there named
  · rintro rfl
    obtain ⟨_, offeredHere, _⟩ := getElem?_markedBefore there
    have placed := fresh.position?_ref offeredHere
    rw [alike.position?_eq] at placed
    exact absurd before (Nat.not_lt.2 (others place placed))

/-- What is kept by every entry that leaves the pool with one of the nodes before a position is
kept by the pruning of these nodes. -/
theorem prune_keeps
    (Keeps : Pool State Context → Prop) (sound : Sound counted) (same : SameShape counted tree)
    (named : ∀ ref entry, pool.find? ref = some entry → entry.ref = ref)
    (present : tree.position? ref = some count)
    (keeps : ∀ (pool : Pool State Context) (dropped : NodeRef) (position anchorSlot : Nat),
      position < count → tree.position? dropped = some position → Keeps pool →
      Keeps { pool.remove dropped with anchorSlot := anchorSlot })
    (start : Keeps pool)
    (pruned : counted.prune ref (Pool.release (watching receive)) (pool, state, log) =
      (outcome, treeAfter, left, after, logAfter)) : Keeps left := by
  have fresh := sound.refresh
  have alike : SameShape counted.refresh tree := (sameShape_refresh counted).trans same
  rw [← alike.position?_eq] at present
  obtain ⟨node, here, rfl⟩ := (fresh.positions _ _).1 present
  generalize offers : offerAll (Pool.release (watching receive))
    (counted.refresh.markedBefore count (node.headPosition count)) (pool, state, log) = result
  obtain ⟨answer, accepted, pooled⟩ := result
  rw [prune_of_locate? (fresh.locate?_eq_some_iff.2 ⟨here, rfl⟩) offers] at pruned
  cases pruned
  refine (offerAll_invariant (fun _ pooled =>
    (∀ ref entry, pooled.1.find? ref = some entry → entry.ref = ref) ∧ Keeps pooled.1)
    (fun place found mark before last answer marked held released => ?_) ⟨named, start⟩ offers).1.2
  obtain ⟨earlier, there, _⟩ := getElem?_markedBefore marked
  have placed : tree.position? found.ref = some place := by
    rw [← alike.position?_eq]
    exact fresh.position?_ref there
  obtain ⟨before, between, logBetween⟩ := before
  obtain ⟨last, lastState, lastLog⟩ := last
  rcases Pool.release_cases held.1 released with
    ⟨_, _, rfl, _⟩ | ⟨_, _, _, _, rfl, _⟩ | ⟨entry, anchorSlot, known, rfl, rfl, _⟩
  · exact ⟨fun _ => held, fun _ => held⟩
  · exact ⟨fun _ => held, fun _ => held⟩
  · have stillNamed : ∀ ref other,
        (Pool.find? { before.remove found.ref with anchorSlot := anchorSlot } ref) = some other →
        other.ref = ref :=
      fun ref other found' => held.1 ref other (Pool.find?_remove_eq_some_iff.1 found').2
    exact ⟨fun _ => ⟨stillNamed, keeps before found.ref place anchorSlot earlier placed held.2⟩,
      fun refused => absurd rfl refused⟩

/-- What has been handed on and what is due make up what was due before. -/
theorem Pruned.taken_append_due
    (pruned : Pruned tree count pool log accepted treeAfter left logAfter)
    (inside : count < tree.size) :
    taken logAfter ++ left.due (treeAfter.markedNames (count - accepted)) =
      taken log ++ pool.due (tree.markedNames count) := by
  have still : count - accepted + accepted = count := Nat.sub_add_cancel pruned.notMore
  have names := pruned.trimmed.markedNames_eq (still.symm ▸ inside)
  rw [still] at names
  have dueAfter : left.due ((tree.markedNames count).drop accepted) =
      pool.due ((tree.markedNames count).drop accepted) := by
    refine Pool.due_congr fun ⟨ref, mark⟩ member => Option.ext fun entry => ?_
    rw [pruned.found]
    refine and_iff_left fun position placed => ?_
    obtain ⟨place, there⟩ := List.mem_iff_getElem?.1 member
    rw [List.getElem?_drop] at there
    obtain ⟨_, ⟨node, here, nodeName⟩, _⟩ :=
      (pruned.trimmed.whole.getElem?_markedNames inside).1 there
    have known := pruned.trimmed.whole.position?_ref here
    rw [nodeName, placed] at known
    cases known
    exact Nat.le_add_right accepted place
  rw [names, dueAfter, pruned.handed, List.append_assoc, ← Pool.due_append, List.take_append_drop]

theorem taken_of_orphan
    {entry : Entry State Context} {before last : store × List (Handover State Context)}
    (offered : watching receive entry false before = (outcome, last)) :
    taken last.2 = taken before.2 := by
  obtain ⟨_, logged⟩ := eq_of_watching offered
  rw [logged, taken_concat]
  rfl

namespace Pool

theorem exists_withSteps :
    ∀ {entries : List (Entry State Context)}, (∀ entry ∈ entries, entry.slot < slotLimit) →
      ∃ stepped, withSteps entries = .ok stepped
  | [], _ => ⟨[], rfl⟩
  | entry :: rest, inRange => by
    obtain ⟨stepped, timed⟩ :=
      exists_withSteps fun other member => inRange other (List.mem_cons_of_mem entry member)
    have stepOf : entry.step = .ok ⟨2 * entry.slot + entry.hasBlock.toNat⟩ :=
      Step.ofSlot_of_lt (inRange entry List.mem_cons_self) entry.hasBlock
    unfold withSteps at timed ⊢
    exact ⟨_, by rw [List.mapM_cons, stepOf, timed]; rfl⟩

theorem exists_stale (inRange : pool.anchorSlot ≤ slotLimit) :
    ∃ entries, pool.stale = .ok entries := by
  unfold stale
  dsimp only
  split
  · exact ⟨_, rfl⟩
  · have early : ∀ entry ∈ pool.byNode.values.filter fun entry => entry.slot < pool.anchorSlot,
        entry.slot < slotLimit :=
      fun entry member =>
        Nat.lt_of_lt_of_le (of_decide_eq_true (List.mem_filter.1 member).2) inRange
    obtain ⟨stepped, timed⟩ := exists_withSteps early
    exact ⟨_, by rw [timed]; rfl⟩

/-- A sweep takes out what is stale, and takes nothing canonical. -/
theorem sweep_spec
    (named : ∀ ref entry, pool.find? ref = some entry → entry.ref = ref)
    (inRange : pool.anchorSlot ≤ slotLimit) (lenient : Lenient receive)
    (swept : pool.sweep (watching receive) (state, log) = (outcome, left, after, logAfter)) :
    outcome = .ok () ∧ taken logAfter = taken log ∧
      ∀ ref entry, left.find? ref = some entry ↔
        pool.find? ref = some entry ∧ pool.anchorSlot ≤ entry.slot := by
  have nothing : taken logAfter = taken log :=
    sweep_invariant (fun _ watched => taken watched.2 = taken log)
      (fun entry _ _ _ _ _ same offered => by
        have unchanged := (taken_of_orphan offered).trans same
        exact ⟨unchanged, fun _ => unchanged⟩) rfl swept
  obtain ⟨entries, stale⟩ := exists_stale inRange
  simp only [sweep, stale] at swept
  have accepts : outcome = .ok () := by
    have := lenient.watching.discard entries pool (state, log)
    rwa [swept] at this
  subst accepts
  refine ⟨rfl, nothing, fun ref entry => ?_⟩
  rw [find?_discard swept]
  refine and_congr_right fun found => ⟨fun notDropped => ?_, fun notOlder dropped member same => ?_⟩
  · refine Nat.le_of_not_lt fun older => ?_
    exact notDropped entry (mem_stale stale found older) (named ref entry found)
  · have older := slot_lt_of_mem_stale stale dropped member
    have sameSlot : entry.slot = dropped.slot :=
      congrArg NodeRef.slot ((named ref entry found).trans same.symm)
    omega

end Pool

end BeaconChain
