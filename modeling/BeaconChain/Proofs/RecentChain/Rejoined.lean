import BeaconChain.Proofs.ForkChoice.Head
import BeaconChain.Proofs.RecentChain.Pursuit

/-!
# Chains that have rejoined

A chain that has come level with another one has the same head, the same canonical chain and the
same checkpoints, because every node below the finalized one has kept its entry in both.  What the
first chain may have besides is stale.
-/

namespace BeaconChain.RecentChain

open BlockTree ForkChoice

variable {preset : Preset} {State Block Context : Type} {rules : Rules State Block Context}
  {chain other : RecentChain preset rules} {log logAhead : List (Handover State Context)}
  {gone : NodeRef → Prop} {pedigree : Pedigree} {start : Entry State Context} {floor position : Nat}
  {ref : NodeRef}

/-- The look-ups of the chains give the same answers. -/
structure SameLookUps (chain other : RecentChain preset rules) : Prop where
  byBlock : ∀ root, chain.byBlock? root = other.byBlock? root
  byBlockSlot : ∀ root slot, chain.byBlockSlot? root slot = other.byBlockSlot? root slot
  closest : ∀ root slot, chain.closest? root slot = other.closest? root slot
  byStateRoot : ∀ root, chain.byStateRoot? root = other.byStateRoot? root

/-- Two chains with the same fork choice, but for weights that are not up to date, and with the
same canonical entries.  The first one has the entries of the second, and besides them only stale
ones. -/
structure Rejoined (chain other : RecentChain preset rules) : Prop where
  choice : chain.choice.Agrees other.choice
  anchorSlot : chain.pool.anchorSlot = other.pool.anchorSlot
  head : chain.head.1 = other.head.1
  canonicalChain : chain.canonicalChain.1 = other.canonicalChain.1
  justified : chain.justified = other.justified
  finalized : chain.finalized = other.finalized
  found : ∀ ref entry, other.pool.find? ref = some entry → chain.pool.find? ref = some entry
  stale : ∀ ref entry, chain.pool.find? ref = some entry →
    other.pool.find? ref = some entry ∨ entry.slot < chain.pool.anchorSlot
  lookUps : chain.pool.NoneStale → chain.SameLookUps other

theorem lookUps_of_pool
    (agrees : chain.choice.Agrees other.choice)
    (found : ∀ ref, chain.pool.find? ref = other.pool.find? ref)
    (indexed : ∀ root, chain.pool.byStateRoot.find? root = other.pool.byStateRoot.find? root) :
    chain.SameLookUps other where
  byBlock root := by
    simp only [byBlock?, ← agrees.tree.earliestSlot?_eq (spares_zero _ root), found]
  byBlockSlot root slot := found ⟨root, slot⟩
  closest root slot := by simp only [closest?, agrees.tree.resolve?_eq_zero, found]
  byStateRoot root := by simp only [byStateRoot?, indexed, found]

namespace Level

theorem find?_eq
    (level : Level gone chain other log logAhead) (founded : Founded other)
    (aheadRegular : Regular pedigree start floor other logAhead)
    (placed : other.choice.tree.position? ref = some position)
    (descends : other.choice.tree.StateDescends position 0) :
    chain.pool.find? ref = other.pool.find? ref := by
  obtain ⟨node, here, rfl⟩ := (aheadRegular.stocked.sound.positions _ _).1 placed
  obtain ⟨entry, known⟩ :=
    founded.exists_entryAt? aheadRegular descends (List.getElem?_eq_some_iff.1 here).1
  obtain ⟨found, there, held⟩ := entryAt?_eq_some_iff.1 known
  obtain rfl := Option.some.inj (here.symm.trans there)
  rw [held]
  exact ((level.pool.found _ entry).1 held).1

/-- Both chains find the same node below the finalized one for their head, or neither does. -/
theorem head_cases
    (level : Level gone chain other log logAhead) (founded : Founded other)
    (regular : Regular pedigree start floor chain log)
    (aheadRegular : Regular pedigree start floor other logAhead)
    (light : other.choice.balances.sum < weightLimit) :
    (∃ ref position, chain.choice.head.1 = .ok ref ∧ other.choice.head.1 = .ok ref ∧
      other.choice.tree.position? ref = some position ∧
      other.choice.tree.StateDescends position 0) ∨
    ∃ error, chain.choice.head.1 = .error error ∧ other.choice.head.1 = .error error := by
  have agrees := level.agrees
  have sound := aheadRegular.stocked.sound
  obtain ⟨_, _, accounts⟩ := regular.reached.accounts
  obtain ⟨_, _, aheadAccounts⟩ := aheadRegular.reached.accounts
  have inStep : chain.choice.tree.stamp =
      ⟨chain.choice.justified.epoch, chain.choice.finalized.epoch⟩ := by
    rw [agrees.stamp, agrees.justified, agrees.finalized, level.stamp]
  have same : chain.choice.head.1 = other.choice.head.1 :=
    agrees.head_eq accounts aheadAccounts regular.stocked.sound sound (agrees.balances ▸ light)
      inStep
  obtain ⟨judge, judged, below⟩ := founded.judged
  rcases ForkChoice.head_cases sound level.aheadUnpinned
      (checkpointNode_of_boundary judged) judged with
    ⟨ref, position, found, placed, descends⟩ | ⟨error, failed, _⟩
  · exact .inl ⟨ref, position, same.trans found, found, placed,
      (sound.stateDescends_of_voteDescends descends).trans below⟩
  · exact .inr ⟨error, same.trans failed, failed⟩

theorem canonicalChain_eq
    (level : Level gone chain other log logAhead) (founded : Founded other)
    (aheadRegular : Regular pedigree start floor other logAhead)
    (headFound : chain.choice.head.1 = .ok ref) (aheadFound : other.choice.head.1 = .ok ref)
    (placed : other.choice.tree.position? ref = some position)
    (descends : other.choice.tree.StateDescends position 0) :
    chain.canonicalChain.1 = other.canonicalChain.1 := by
  have sound := aheadRegular.stocked.sound
  have alike := level.agrees.tree.sameNodes
  have counted := chain.choice.head_recounted.shape
  have aheadCounted := other.choice.head_recounted.shape
  have present : chain.choice.head.2.tree.position? ref = some position := by
    rw [counted.position?_eq]
    exact level.agrees.tree.position?_iff.1 placed
  have aheadPresent : other.choice.head.2.tree.position? ref = some position := by
    rw [aheadCounted.position?_eq, placed]
  have lineage : (chain.choice.head.2.tree.stateLineage position).filterMap
        (fun ancestor => chain.pool.find? ancestor.2.ref) =
      (other.choice.head.2.tree.stateLineage position).filterMap
        fun ancestor => other.pool.find? ancestor.2.ref := by
    rw [(counted.nodes.trans alike).filterMap_stateLineage chain.pool.find? position,
      aheadCounted.nodes.filterMap_stateLineage other.pool.find? position]
    refine List.filterMap_congr fun ⟨place, node⟩ member => ?_
    obtain ⟨_, inTree, _⟩ := (sound.positions _ _).1 placed
    have inside : position < other.choice.tree.size := (List.getElem?_eq_some_iff.1 inTree).1
    obtain ⟨above, here⟩ := (mem_ancestry sound.stateParentsFirst inside).1 member
    exact level.find?_eq founded aheadRegular (sound.position?_ref here)
      (Descends.between sound.stateParentsFirst above descends (Nat.zero_le _))
  simp only [canonicalChain, headNode, headFound, aheadFound, present, aheadPresent, lineage]

theorem checkpointEntry_eq
    (level : Level gone chain other log logAhead) (founded : Founded other)
    (aheadRegular : Regular pedigree start floor other logAhead) {checkpoint : Checkpoint}
    (placed : other.choice.tree.position? (boundary preset checkpoint) = some position)
    (descends : other.choice.tree.StateDescends position 0) :
    chain.checkpointEntry checkpoint = other.checkpointEntry checkpoint := by
  have here : chain.choice.tree.position? (boundary preset checkpoint) = some position :=
    level.agrees.tree.position?_iff.1 placed
  simp only [checkpointEntry, checkpointNode_of_boundary here, checkpointNode_of_boundary placed,
    bind, Except.bind, level.find?_eq founded aheadRegular placed descends]

/-- An entry that has gone from the other chain is stale, as no node is left to be dropped. -/
theorem stale
    (level : Level gone chain other log logAhead) {entry : Entry State Context}
    (found : chain.pool.find? ref = some entry) :
    other.pool.find? ref = some entry ∧ ¬ gone ref ∨ entry.slot < other.pool.anchorSlot := by
  by_cases isGone : gone ref
  · rcases level.excess ref entry isGone found with ⟨_, nowhere, _⟩ | older
    · exact absurd nowhere (Nat.not_lt_zero _)
    · exact .inr older
  · exact .inl ⟨(level.pool.found ref entry).2 ⟨found, isGone⟩, isGone⟩

theorem rejoined
    (level : Level gone chain other log logAhead) (founded : Founded other)
    (regular : Regular pedigree start floor chain log)
    (aheadRegular : Regular pedigree start floor other logAhead)
    (light : other.choice.balances.sum < weightLimit) : Rejoined chain other := by
  have agrees := level.agrees
  have sameSlot := regular.mark.anchorSlot_eq aheadRegular.mark level.handed
  have heads := level.head_cases founded regular aheadRegular light
  obtain ⟨_, judged, below⟩ := founded.judged
  refine {
    choice := agrees
    anchorSlot := sameSlot
    head := ?_
    canonicalChain := ?_
    justified := ?_
    finalized := ?_
    found := fun ref entry found => ((level.pool.found ref entry).1 found).1
    stale := fun ref entry found => (level.stale found).imp And.left fun older => sameSlot ▸ older
    lookUps := fun noneStale => ?_ }
  · rcases heads with
      ⟨ref, position, found, aheadFound, placed, descends⟩ | ⟨error, failed, aheadFailed⟩
    · have same := level.find?_eq founded aheadRegular placed descends
      simp only [head, headNode, found, aheadFound, same]
      cases other.pool.find? ref <;> rfl
    · simp only [head, headNode, failed, aheadFailed]
  · rcases heads with
      ⟨ref, position, found, aheadFound, placed, descends⟩ | ⟨error, failed, aheadFailed⟩
    · exact level.canonicalChain_eq founded aheadRegular found aheadFound placed descends
    · simp only [canonicalChain, headNode, failed, aheadFailed]
  · rw [justified, agrees.justified]
    exact level.checkpointEntry_eq founded aheadRegular judged below
  · rw [finalized, agrees.finalized]
    exact level.checkpointEntry_eq founded aheadRegular founded.oldest .refl
  · have stays : ∀ ref entry, chain.pool.find? ref = some entry →
        other.pool.find? ref = some entry ∧ ¬ gone ref := fun ref entry found =>
      (level.stale found).resolve_right
        (Nat.not_lt_of_le (sameSlot ▸ noneStale ref entry found))
    refine lookUps_of_pool agrees (fun ref => Option.ext fun entry => ?_)
      fun root => Option.ext fun ref => ?_
    · exact ⟨fun found => (stays ref entry found).1,
        fun found => ((level.pool.found ref entry).1 found).1⟩
    · rw [level.pool.indexed]
      refine ⟨fun found => ⟨found, ?_⟩, And.left⟩
      obtain ⟨entry, known, _⟩ := level.keyed root ref found
      exact (stays ref entry known).2

end Level

end BeaconChain.RecentChain
