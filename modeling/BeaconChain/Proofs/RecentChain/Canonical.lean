import BeaconChain.Proofs.ForkChoice.Head
import BeaconChain.Proofs.RecentChain.Rooted

/-!
# The canonical chain

The entries of the nodes from a head back to the oldest node follow one another.  The node
of the justified checkpoint, and with it every head, stands below the first node of the
finalized root, where no entry is missing.  So the canonical chain goes on where the log
ends.
-/

open Relation

namespace BeaconChain

open BlockTree

section Entries

variable {State Block Context : Type} {rules : Rules State Block Context} {inRange : Nat → Prop}
  {tree : BlockTree} {pool : Pool State Context} {oldest : Nat}

/-- The entries from the node at a position back to an oldest one, the youngest first. -/
structure LeadsBack (rules : Rules State Block Context) (tree : BlockTree)
    (pool : Pool State Context) (position oldest : Nat) (entries : List (Entry State Context)) :
    Prop where
  head?_eq : entries.head? = entryAt? tree pool position
  getLast?_eq : entries.getLast? = entryAt? tree pool oldest
  isChain : entries.IsChain fun next previous => Follows rules previous next

/-- Where no entry is missing, the entries of a lineage follow one another. -/
theorem Stocked.leadsBack
    (stocked : Stocked rules inRange tree pool)
    (parentless : ∀ above, ¬ ParentAt tree.nodes Node.stateParent oldest above) :
    ∀ {steps position : Nat}, position < steps → tree.StateDescends position oldest →
      (∀ above, tree.StateDescends position above →
        ∃ entry, entryAt? tree pool above = some entry) →
      LeadsBack rules tree pool position oldest
        ((ancestry tree.nodes Node.stateParent steps position).filterMap
          fun ancestor => pool.find? ancestor.2.ref)
  | steps + 1, position, enough, descends, kept => by
    obtain ⟨entry, known⟩ := kept position ReflTransGen.refl
    obtain ⟨node, here, held⟩ := entryAt?_eq_some_iff.1 known
    rcases ReflTransGen.cases_head descends with rfl | ⟨next, step, rest⟩
    · have noParent : node.stateParent = none := Option.eq_none_iff_forall_ne_some.2 fun above up =>
        parentless above (parentAt_iff.2 ⟨node, here, up⟩)
      have single : (ancestry tree.nodes Node.stateParent (steps + 1) position).filterMap
          (fun ancestor => pool.find? ancestor.2.ref) = [entry] := by
        simp [ancestry, here, noParent, held]
      rw [single]
      exact ⟨known.symm, known.symm, List.isChain_singleton entry⟩
    · obtain ⟨found, there, up⟩ := parentAt_iff.1 step
      obtain rfl := Option.some.inj (here.symm.trans there)
      have earlier := stocked.sound.stateParentsFirst _ _ step
      have back := stocked.leadsBack parentless (by omega : next < steps) rest fun above descends =>
        kept above (ReflTransGen.head step descends)
      have longer : (ancestry tree.nodes Node.stateParent (steps + 1) position).filterMap
          (fun ancestor => pool.find? ancestor.2.ref) =
            entry :: (ancestry tree.nodes Node.stateParent steps next).filterMap
              fun ancestor => pool.find? ancestor.2.ref := by
        simp [ancestry, here, up, held]
      rw [longer]
      refine ⟨known.symm, ?_, List.isChain_cons.2 ⟨fun previous isNext => ?_, back.isChain⟩⟩
      · obtain ⟨last, lastKnown⟩ := kept oldest descends
        rw [List.getLast?_cons, back.getLast?_eq, lastKnown, Option.getD_some]
      · exact stocked.linked position next entry previous step known
          (back.head?_eq.symm.trans isNext)

end Entries

namespace RecentChain

variable {preset : Preset} {State Block Context : Type} {rules : Rules State Block Context}
  {anchor : Entry State Context} {chain : RecentChain preset rules}
  {log : List (Handover State Context)} {first : Nat}

namespace Rooted

theorem parentless
    (rooted : Rooted anchor chain log first) :
    ∀ above, ¬ ParentAt chain.choice.tree.nodes Node.stateParent 0 above :=
  fun above step => Nat.not_lt_zero above (rooted.sound.stateParentsFirst _ _ step)

theorem exists_entryAt?
    (rooted : Rooted anchor chain log first) {position : Nat}
    (inside : position < chain.choice.tree.size)
    (below : chain.choice.tree.StateDescends position first) :
    ∀ above, chain.choice.tree.StateDescends position above →
      ∃ entry, entryAt? chain.choice.tree chain.pool above = some entry := by
  intro above descends
  have notLater := Descends.le rooted.sound.stateParentsFirst descends
  exact rooted.kept above (Descends.total rooted.sound.stateParentsFirst below descends)
    (Nat.lt_of_le_of_lt notLater inside)

theorem exists_justifiedNode
    (rooted : Rooted anchor chain log first) :
    ∃ (position : Nat) (node : Node),
      chain.choice.checkpointNode chain.choice.justified = .ok node.ref ∧
      chain.choice.tree.nodes[position]? = some node ∧
      chain.choice.tree.StateDescends position first := by
  obtain ⟨position, node, latest, below⟩ :=
    rooted.justified.exists_isLatest rooted.sound.toWellFormed
  exact ⟨position, node, ForkChoice.checkpointNode_of_isLatest rooted.sound.toWellFormed latest,
    latest.here, below⟩

theorem exists_justified (rooted : Rooted anchor chain log first) :
    ∃ entry, chain.justified = .ok entry := by
  obtain ⟨position, node, resolved, here, below⟩ := rooted.exists_justifiedNode
  have inside := (List.getElem?_eq_some_iff.1 here).1
  obtain ⟨entry, known⟩ := rooted.exists_entryAt? inside below position ReflTransGen.refl
  obtain ⟨found, there, held⟩ := entryAt?_eq_some_iff.1 known
  obtain rfl := Option.some.inj (here.symm.trans there)
  refine ⟨entry, ?_⟩
  simp only [RecentChain.justified, checkpointEntry, resolved, bind, Except.bind, held]
  rfl

theorem leadsBack
    (rooted : Rooted anchor chain log first) {position : Nat}
    (inside : position < chain.choice.tree.size)
    (below : chain.choice.tree.StateDescends position first) :
    LeadsBack rules chain.choice.tree chain.pool position 0
      ((chain.choice.tree.stateLineage position).filterMap
        fun ancestor => chain.pool.find? ancestor.2.ref) :=
  rooted.toStocked.leadsBack rooted.parentless inside (below.trans rooted.oldest)
    (rooted.exists_entryAt? inside below)

/-- What leads back to the oldest entry goes on where the log ends. -/
theorem gapless_append
    (rooted : Rooted anchor chain log first) {position : Nat} {entries : List (Entry State Context)}
    (back : LeadsBack rules chain.choice.tree chain.pool position 0 entries) :
    Gapless rules anchor (taken log ++ entries.reverse) := by
  refine rooted.orderly.gapless.append (List.isChain_reverse.2 back.isChain)
    fun oldest isOldest => ?_
  rw [List.head?_reverse, back.getLast?_eq] at isOldest
  exact rooted.continues 0 oldest rooted.oldest rooted.parentless isOldest

/-- Every head stands below the finalized root, so that the canonical chain leads back to
the oldest entry and goes on where the log ends.  There is no head only if there is no
viable one, or the votes could not be counted. -/
theorem head_cases (rooted : Rooted anchor chain log first) :
    (∃ entry entries oldest, chain.head.1 = .ok entry ∧ chain.canonicalChain.1 = .ok entries ∧
      entries.head? = some entry ∧ entries.getLast? = some oldest ∧ chain.earliest? = some oldest ∧
      Gapless rules anchor (taken log ++ entries.reverse)) ∨
    ∃ error, chain.head.1 = .error error ∧
      (error.IsMiscount ∨ ∃ lowest head justified finalized,
        error = .noViableHead lowest head justified finalized) := by
  obtain ⟨lowest, node, resolved, here, below⟩ := rooted.exists_justifiedNode
  have present := rooted.sound.position?_ref here
  have counted := rooted.recounted chain.choice.head_recounted
  have same := chain.choice.head_recounted.shape
  rcases ForkChoice.head_cases rooted.sound rooted.unpinned resolved present with
    ⟨ref, position, found, headPresent, descends⟩ | ⟨error, failed, kind⟩
  · left
    have below : chain.choice.tree.StateDescends position first :=
      (rooted.sound.stateDescends_of_voteDescends descends).trans below
    rw [← same.position?_eq] at headPresent
    obtain ⟨head, headHere, rfl⟩ := (counted.sound.positions _ _).1 headPresent
    have inside := (List.getElem?_eq_some_iff.1 headHere).1
    rw [← same.stateDescends_eq] at below
    have back := counted.leadsBack inside below
    obtain ⟨entry, known⟩ := counted.exists_entryAt? inside below position ReflTransGen.refl
    obtain ⟨oldest, oldestKnown⟩ :=
      counted.exists_entryAt? inside below 0 (below.trans counted.oldest)
    obtain ⟨_, there, held⟩ := entryAt?_eq_some_iff.1 known
    obtain rfl := Option.some.inj (headHere.symm.trans there)
    refine ⟨entry, _, oldest, ?_, ?_, back.head?_eq.trans known, back.getLast?_eq.trans oldestKnown,
      ?_, counted.gapless_append back⟩
    · have heldHead : chain.pool.find? head.ref = some entry := held
      simp only [RecentChain.head, headNode, found, heldHead]
    · simp only [canonicalChain, headNode, found, headPresent]
    · rw [← oldestKnown]
      exact congrFun (entryAt?_congr same.symm) 0
  · right
    refine ⟨error, ?_, ?_⟩
    · simp only [head, headNode, failed]
    · rcases kind with miscount | ⟨head, justified, finalized, rfl⟩
      · exact .inl miscount
      · exact .inr ⟨_, head, justified, finalized, rfl⟩

end Rooted

end RecentChain

end BeaconChain
