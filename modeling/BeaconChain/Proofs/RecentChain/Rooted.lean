import BeaconChain.Proofs.RecentChain.Run

/-!
# Where the justified checkpoint stands

Finality and justification advance one by one, and a pruning may stop anywhere.  While
blocks are consistent and no head is pinned, the node of the justified checkpoint descends
from the first node of the finalized root, and that from the oldest node of the tree.
-/

open Relation

namespace BeaconChain

open BlockTree

namespace BlockTree

/-- A node of the root of a reference, not later than it, descends from the node at a
position. -/
def RefersBelow (tree : BlockTree) (ref : NodeRef) (above : Nat) : Prop :=
  ∃ (place : Nat) (node : Node), tree.nodes[place]? = some node ∧ node.ref.root = ref.root ∧
    node.ref.slot ≤ ref.slot ∧ tree.StateDescends place above

section References

variable {tree other : BlockTree} {ref : NodeRef} {above : Nat}

theorem RefersBelow.congr
    (refers : tree.RefersBelow ref above) (same : SameShape other tree) :
    other.RefersBelow ref above := by
  obtain ⟨place, node, here, ofRoot, notLater, descends⟩ := refers
  obtain ⟨found, there, sameRef⟩ := same.symm.nodes.exists_ref_eq here
  refine ⟨place, found, there, by rw [sameRef, ofRoot], by rw [sameRef]; exact notLater, ?_⟩
  rw [same.stateDescends_eq]
  exact descends

theorem RefersBelow.of_prefix
    (refers : tree.RefersBelow ref above) (grows : tree.nodes <+: other.nodes) :
    other.RefersBelow ref above := by
  obtain ⟨added, longer⟩ := grows
  obtain ⟨place, node, here, ofRoot, notLater, descends⟩ := refers
  refine ⟨place, node, ?_, ofRoot, notLater, ?_⟩
  · rw [← longer, List.getElem?_append_left (List.getElem?_eq_some_iff.1 here).1]
    exact here
  · rw [StateDescends, ← longer]
    exact descends.append

theorem RefersBelow.exists_isLatest
    (refers : tree.RefersBelow ref above) (wellFormed : WellFormed tree) :
    ∃ (latest : Nat) (found : Node), IsLatest tree.nodes ref latest found ∧
      tree.StateDescends latest above := by
  obtain ⟨place, node, here, ofRoot, notLater, descends⟩ := refers
  obtain ⟨latest, found, isLatest⟩ := wellFormed.exists_isLatest here ofRoot notLater
  have behind := isLatest.greatest place node here ofRoot notLater
  have sameRoot := isLatest.ofRoot.trans ofRoot.symm
  have toNode := wellFormed.voteDescends_of_slot_le isLatest.here here sameRoot.symm behind
  exact ⟨latest, found, isLatest, (wellFormed.stateDescends_of_voteDescends toNode).trans descends⟩

/-- What refers to a node below the anchor of a pruning refers to one below the first node
of the anchor's root afterwards, and that node descends from the oldest one. -/
theorem Sound.refersBelow_dropOldest
    {position accepted first : Nat} {node : Node} (sound : Sound tree)
    (here : tree.nodes[position]? = some node) (notLater : accepted ≤ position)
    (descends : tree.StateDescends position accepted)
    (isFirst : IsFirst (tree.dropOldest accepted).nodes node.ref.root first)
    (refers : tree.RefersBelow ref position) :
    (tree.dropOldest accepted).StateDescends first 0 ∧
      (tree.dropOldest accepted).RefersBelow ref first := by
  obtain ⟨below, found, there, ofRoot, early, under⟩ := refers
  have notBefore := Descends.le sound.stateParentsFirst under
  obtain ⟨toOldest, toFirst⟩ := sound.first_dropOldest here notLater descends isFirst under
  refine ⟨toOldest, below - accepted, shiftNode accepted found, ?_, ofRoot, early, toFirst⟩
  apply getElem?_dropOldest
  rw [Nat.sub_add_cancel (Nat.le_trans notLater notBefore)]
  exact there

end References

end BlockTree

namespace ForkChoice

variable {preset : Preset} {choice : ForkChoice preset} {old justified finalized : Checkpoint}

/-- If the finalized checkpoint is newer than that of the fork choice, then the node of the
justified one is its node or descends from it, as far as both are there, and a justified
checkpoint of the current epoch is the current one. -/
structure Consistent (choice : ForkChoice preset) (justified finalized : Checkpoint) : Prop where
  descends : choice.finalized.epoch < finalized.epoch → ∀ lower upper,
    choice.checkpointNode justified = .ok lower → choice.checkpointNode finalized = .ok upper →
    ∃ below above, choice.tree.position? lower = some below ∧
      choice.tree.position? upper = some above ∧ choice.tree.VoteDescends below above
  sameRoot : choice.finalized.epoch < finalized.epoch →
    justified.epoch = choice.justified.epoch → justified.root = choice.justified.root

/-- Nothing is asked of a block that does not advance finality. -/
theorem Consistent.of_le (notLater : finalized.epoch ≤ choice.finalized.epoch) :
    choice.Consistent justified finalized where
  descends later := absurd later (Nat.not_lt.2 notLater)
  sameRoot later := absurd later (Nat.not_lt.2 notLater)

theorem newer_eq_of_sameRoot
    (notOlder : old.epoch ≤ justified.epoch)
    (sameRoot : justified.epoch = old.epoch → justified.root = old.root) :
    newer old justified = justified := by
  unfold newer
  split
  · rfl
  · rename_i notLater
    have sameEpoch : justified.epoch = old.epoch := by omega
    have same := sameRoot sameEpoch
    obtain ⟨epoch, root⟩ := old
    obtain ⟨newEpoch, newRoot⟩ := justified
    simp only at sameEpoch same
    rw [sameEpoch, same]

end ForkChoice

namespace RecentChain

variable {preset : Preset} {State Block Context store : Type} {rules : Rules State Block Context}
  {anchor : Entry State Context} {chain next : RecentChain preset rules}
  {log logAfter : List (Handover State Context)} {first : Nat}
  {receive : EntryReceiver State Context store} {state after : store}

theorem exists_of_balancesAt
    {checkpoint : Checkpoint} {balances : List Nat}
    (known : chain.balancesAt checkpoint = .ok balances) :
    ∃ ref, chain.choice.checkpointNode checkpoint = .ok ref := by
  unfold balancesAt at known
  split at known
  next entry found =>
    obtain ⟨ref, resolved, _⟩ := exists_of_bind_eq_ok found
    exact ⟨ref, resolved⟩
  next => cases known

/-- The lineage of the finalized root starts at the oldest node, and the justified
checkpoint refers to a node below that root. -/
structure Rooted (anchor : Entry State Context) (chain : RecentChain preset rules)
    (log : List (Handover State Context)) (first : Nat) : Prop
    extends Lineage rules (fun _ => True) anchor chain.choice.finalizedRoot chain.choice.tree
      chain.pool log first where
  oldest : chain.choice.tree.StateDescends first 0
  justified :
    chain.choice.tree.RefersBelow (ForkChoice.boundary preset chain.choice.justified) first
  unpinned : chain.choice.pin = none

/-- The checkpoints of the block's state are consistent with the fork choice as it is once
the block has been inserted. -/
def ConsistentBlock (chain : RecentChain preset rules) (block : Block)
    (interrupted : List Nat → Bool) : Prop :=
  ∀ (draft : Draft State Context) (grown : RecentChain preset rules),
    chain.choice.containsBlock (rules.blockRoot block) = false →
    chain.draft block interrupted = .ok draft → chain.commit draft = (.ok (), grown) →
    grown.choice.Consistent (rules.justified draft.block.state) (rules.finalized draft.block.state)

namespace Rooted

theorem recounted
    {choice : ForkChoice preset} (rooted : Rooted anchor chain log first)
    (recounted : chain.choice.Recounted choice) :
    Rooted anchor ({ chain with choice := choice } : RecentChain preset rules) log first where
  toLineage := by
    simp only [recounted.finalizedRoot_eq]
    exact rooted.toLineage.congr recounted.shape (recounted.sound rooted.sound)
  oldest := by
    simp only [recounted.shape.stateDescends_eq]
    exact rooted.oldest
  justified := by
    simp only [recounted.justified]
    exact rooted.justified.congr recounted.shape
  unpinned := recounted.pin.trans rooted.unpinned

theorem recounts
    (rooted : Rooted anchor chain log first) (recounts : chain.Recounts next) :
    Rooted anchor next log first := by
  obtain ⟨choice, recounted, rfl⟩ := recounts
  exact rooted.recounted recounted

theorem clearPin (rooted : Rooted anchor chain log first) :
    Rooted anchor chain.clearPin log first :=
  { rooted with unpinned := rfl }

theorem grown
    {grown : RecentChain preset rules} (rooted : Rooted anchor chain log first)
    {entries : List (Entry State Context)} (growth : Grown (fun _ => True) chain entries grown) :
    Rooted anchor grown log first := by
  obtain ⟨added, longer⟩ := growth.nodes_prefix
  have lineage := growth.lineage rooted.toLineage
  have choice := growth.choice_eq
  refine { toLineage := ?_, oldest := ?_, justified := ?_, unpinned := ?_ }
  · rw [growth.finalizedRoot_eq]
    exact lineage
  · rw [StateDescends, ← longer]
    exact rooted.oldest.append
  · rw [show grown.choice.justified = chain.choice.justified by rw [choice]]
    exact rooted.justified.of_prefix growth.nodes_prefix
  · rw [show grown.choice.pin = chain.choice.pin by rw [choice]]
    exact rooted.unpinned

/-- A checkpoint that may succeed the justified one refers to a node below the finalized
root as well, if its balances are known. -/
theorem refersBelow_newer
    (rooted : Rooted anchor chain log first) {checkpoint : Checkpoint} {balances : List Nat}
    (successor : chain.choice.checkSuccessor chain.choice.justified checkpoint = .ok ())
    (known : chain.balancesAt (ForkChoice.newer chain.choice.justified checkpoint) = .ok balances) :
    chain.choice.tree.RefersBelow
      (ForkChoice.boundary preset (ForkChoice.newer chain.choice.justified checkpoint)) first := by
  by_cases later : chain.choice.justified.epoch < checkpoint.epoch
  · rw [ForkChoice.newer, if_pos later] at known ⊢
    have inside := (ForkChoice.checkSuccessor_spec successor).2 later
    obtain ⟨ref, resolved⟩ := exists_of_balancesAt known
    obtain ⟨position, node, _, latest⟩ :=
      ForkChoice.exists_of_checkpointNode rooted.sound.toWellFormed resolved
    have under := rooted.sound.under_of_relation_inside inside rooted.isFirst
    exact ⟨position, node, latest.here, latest.ofRoot, latest.notLater,
      under position node latest.here latest.ofRoot⟩
  · rw [ForkChoice.newer, if_neg later]
    exact rooted.justified

/-- The justified checkpoint of a consistent block refers to a node below that of the
finalized one, if finality advances. -/
theorem refersBelow_of_consistent
    (rooted : Rooted anchor chain log first) {justified finalized : Checkpoint}
    {balances : List Nat} {position : Nat} {node : Node}
    (consistent : chain.choice.Consistent justified finalized)
    (successor : chain.choice.checkSuccessor chain.choice.justified justified = .ok ())
    (known : chain.balancesAt (ForkChoice.newer chain.choice.justified justified) = .ok balances)
    (later : chain.choice.finalized.epoch < finalized.epoch)
    (resolved : chain.choice.checkpointNode finalized = .ok node.ref)
    (latest : IsLatest chain.choice.tree.nodes
      (ForkChoice.boundary preset finalized) position node) :
    ForkChoice.newer chain.choice.justified justified = justified ∧
      chain.choice.tree.RefersBelow (ForkChoice.boundary preset justified) position := by
  have isNewer := ForkChoice.newer_eq_of_sameRoot (ForkChoice.checkSuccessor_spec successor).1
    (consistent.sameRoot later)
  rw [isNewer] at known
  refine ⟨isNewer, ?_⟩
  obtain ⟨lower, resolvedLower⟩ := exists_of_balancesAt known
  obtain ⟨below, above, lowerPresent, present, descends⟩ :=
    consistent.descends later lower _ resolvedLower resolved
  obtain ⟨lowerPosition, lowerNode, rfl, lowerLatest⟩ :=
    ForkChoice.exists_of_checkpointNode rooted.sound.toWellFormed resolvedLower
  obtain rfl := Option.some.inj (present.symm.trans (rooted.sound.position?_ref latest.here))
  obtain rfl :=
    Option.some.inj (lowerPresent.symm.trans (rooted.sound.position?_ref lowerLatest.here))
  exact ⟨below, lowerNode, lowerLatest.here, lowerLatest.ofRoot, lowerLatest.notLater,
    rooted.sound.stateDescends_of_voteDescends descends⟩

/-- However far the pruning comes, a justified checkpoint that refers to a node below that of
the finalized one keeps its node. -/
theorem finalizeAt
    {counted choice : ForkChoice preset} {justified finalized : Checkpoint} {position : Nat}
    {node : Node} {pool : Pool State Context} {outcome : Except Error Unit}
    (rooted : Rooted anchor chain log first) (lenient : Lenient receive)
    (recounted : chain.choice.Recounted counted)
    (inside : chain.choice.tree.relation chain.choice.finalizedRoot finalized.root = .inside)
    (latest : IsLatest chain.choice.tree.nodes (ForkChoice.boundary preset finalized) position node)
    (refers : chain.choice.tree.RefersBelow (ForkChoice.boundary preset justified) position)
    (done : ({ counted with justified := justified } : ForkChoice preset).finalizeAt finalized
      node.ref (Pool.release (watching receive)) (chain.pool, state, log) =
        (outcome, choice, pool, after, logAfter)) :
    ∃ newFirst,
      Rooted anchor ({ chain with choice := choice, pool := pool } : RecentChain preset rules)
        logAfter newFirst := by
  have resolved := ForkChoice.checkpointNode_of_isLatest rooted.sound.toWellFormed latest
  obtain ⟨newFirst, lineage⟩ := rooted.toLineage.finalizeAt recounted inside resolved done
  obtain ⟨pruned, newRoot, newJustified, stillUnpinned⟩ := ForkChoice.finalizeAt_spec done
  -- the tree from which the nodes are taken out
  have sound := recounted.sound rooted.sound
  have same := (sameShape_refresh _).trans recounted.shape
  have present := rooted.sound.position?_ref latest.here
  rw [← recounted.shape.position?_eq] at present
  obtain ⟨accepted, notLater, newTree, stops⟩ :=
    sound.prune_spec lenient.watching.release present pruned
  obtain ⟨found, there, sameRef⟩ := same.symm.nodes.exists_ref_eq latest.here
  have ofRoot : found.ref.root = finalized.root := by
    rw [sameRef]
    exact latest.ofRoot
  have isFirst := lineage.isFirst
  rw [newTree, newRoot, ← ofRoot] at isFirst
  obtain ⟨oldest, stillRefers⟩ := sound.refresh.refersBelow_dropOldest there notLater stops isFirst
    (refers.congr same)
  refine ⟨newFirst, { lineage with
    oldest := ?_, justified := ?_,
    unpinned := stillUnpinned (recounted.pin.trans rooted.unpinned) }⟩
  · rw [newTree]
    exact oldest
  · rw [newTree, newJustified]
    exact stillRefers

/-- The adoption of consistent checkpoints, with a receiver that refuses only what is
canonical. -/
theorem adopt
    {entry : Entry State Context} {outcome : Except Error Unit}
    (rooted : Rooted anchor chain log first) (lenient : Lenient receive)
    (consistent : chain.choice.Consistent (rules.justified entry.state)
      (rules.finalized entry.state))
    (adopted : chain.adopt entry (watching receive) (state, log) =
      (outcome, next, after, logAfter)) :
    ∃ newFirst, Rooted anchor next logAfter newFirst := by
  have adoption := adopt_adoption adopted
  obtain ⟨limits, choice, pool⟩ := next
  cases adoption with
  | unchanged => exact ⟨first, { rooted with }⟩
  | justify recounted successor known =>
    have counted := rooted.recounted recounted
    have refers := rooted.refersBelow_newer successor known
    exact ⟨first, { counted with justified := refers.congr recounted.shape }⟩
  | finalize recounted successor known later inside resolved done =>
    obtain ⟨position, node, rfl, latest⟩ :=
      ForkChoice.exists_of_checkpointNode rooted.sound.toWellFormed resolved
    obtain ⟨isNewer, refers⟩ :=
      rooted.refersBelow_of_consistent consistent successor known later resolved latest
    rw [isNewer] at done
    obtain ⟨newFirst, newRooted⟩ :=
      rooted.finalizeAt lenient recounted inside latest refers done
    exact ⟨newFirst, { newRooted with }⟩

theorem sweep
    {outcome : Except Error Unit} (rooted : Rooted anchor chain log first)
    (swept : chain.sweep (watching receive) (state, log) = (outcome, next, after, logAfter)) :
    Rooted anchor next logAfter first := by
  unfold RecentChain.sweep at swept
  generalize done : chain.pool.sweep (watching receive) (state, log) = result at swept
  obtain ⟨answer, pool, between, logBetween⟩ := result
  cases swept
  exact { rooted with toLineage := rooted.toLineage.sweep done }

theorem addBlock
    {block : Block} {interrupted : List Nat → Bool} {outcome : Except Error (Entry State Context)}
    (rooted : Rooted anchor chain log first) (lenient : Lenient receive)
    (consistent : chain.ConsistentBlock block interrupted)
    (added : chain.addBlock block interrupted (watching receive) (state, log) =
      (outcome, next, after, logAfter)) : ∃ newFirst, Rooted anchor next logAfter newFirst := by
  rcases addBlock_cases rooted.toStocked (fun _ _ => trivial) added with
    ⟨rfl, same⟩ | ⟨draft, grown, answer, isNew, drafted, committed, growth, settled⟩
  · cases same
    exact ⟨first, rooted⟩
  · obtain ⟨_, adopted, ⟨between, logBetween⟩, adopts, rest⟩ := settle_cases settled
    obtain ⟨newFirst, adoptedRooted⟩ :=
      (rooted.grown growth).adopt lenient (consistent draft grown isNew drafted committed) adopts
    rcases rest with ⟨rfl, same⟩ | ⟨_, swept⟩
    · cases same
      exact ⟨newFirst, adoptedRooted⟩
    · exact ⟨newFirst, adoptedRooted.sweep swept⟩

theorem addBlock_noted
    (rooted : Rooted anchor chain log first) (lenient : Lenient receive) {block : Block}
    {interrupted : List Nat → Bool} (consistent : chain.ConsistentBlock block interrupted)
    (state : store) :
    ∃ newFirst, Rooted anchor (chain.addBlock block interrupted receive state).2.1
      (chain.noted log (.addBlock block interrupted receive state)) newFirst := by
  rw [← addBlock_watching chain block interrupted receive state log]
  exact rooted.addBlock lenient consistent rfl

end Rooted

theorem slot_le_startSlot_anchorEpoch
    (preset : Preset) {slot : Nat} (inRange : slot ≤ greatestSlot) :
    slot ≤ preset.startSlot (anchorEpoch preset slot) := by
  unfold anchorEpoch
  split
  next isStart =>
    exact Nat.le_of_sub_eq_zero (of_decide_eq_true isStart)
  next =>
    have before := Nat.lt_div_mul_add preset.slotsPerEpoch_pos (a := slot)
    simp only [Preset.startSlot, Preset.epochOf, Nat.succ_mul]
    exact Nat.le_min.2 ⟨Nat.le_of_lt before, inRange⟩

theorem ofAnchor?_rooted
    {limits : Limits} {root parentRoot : Root} {start : State}
    (started : ofAnchor? limits root parentRoot start = .ok chain)
    (inRange : rules.stateSlot start ≤ greatestSlot) :
    ∃ anchor, chain.earliest? = some anchor ∧ Rooted anchor chain [] 0 := by
  obtain ⟨context, _, made⟩ := exists_of_bind_eq_ok started
  cases made
  let anchor : Entry State Context :=
    { slot := rules.stateSlot start, blockRoot := root, parentRoot := some parentRoot,
      stateRoot := rules.stateRoot start, context := context, state := start }
  let epoch := anchorEpoch preset (rules.stateSlot start)
  exact ⟨anchor, Pool.find?_insert_self _ anchor,
    { lineage_ofAnchor anchor parentRoot ⟨epoch, epoch⟩ trivial with
      oldest := ReflTransGen.refl
      justified :=
        ⟨0, _, rfl, rfl, slot_le_startSlot_anchorEpoch preset inRange, ReflTransGen.refl⟩
      unpinned := rfl }⟩

end RecentChain

end BeaconChain
