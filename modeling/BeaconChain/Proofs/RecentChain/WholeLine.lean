import BeaconChain.Proofs.Archive.Rows
import BeaconChain.Proofs.ForkChoice.Repeat
import BeaconChain.Proofs.RecentChain.Seamless

/-!
# Canonical chains that reach the oldest entry

A head may stand anywhere in the tree if it was pinned.  If its canonical chain reaches the
oldest entry, then no entry is missing in between, and the chain goes on where the log ends.
-/

open Relation

namespace BeaconChain

open BlockTree

namespace RecentChain

variable {preset : Preset} {State Block Context : Type} {rules : Rules State Block Context}
  {inRange : Nat → Prop} {anchor oldest : Entry State Context} {chain : RecentChain preset rules}
  {log : List (Handover State Context)} {entries : List (Entry State Context)} {first : Nat}

theorem exists_of_canonicalChain
    (isCanonical : chain.canonicalChain.1 = .ok entries) :
    ∃ ref position choice, chain.choice.head = (.ok ref, choice) ∧
      choice.tree.position? ref = some position ∧
      entries = (choice.tree.stateLineage position).filterMap
        fun ancestor => chain.pool.find? ancestor.2.ref := by
  unfold canonicalChain headNode at isCanonical
  generalize found : chain.choice.head = result at isCanonical
  obtain ⟨outcome, choice⟩ := result
  cases outcome with
  | error error => cases isCanonical
  | ok ref =>
    dsimp only at isCanonical
    split at isCanonical
    next => cases isCanonical
    next position present =>
      cases isCanonical
      exact ⟨ref, position, choice, rfl, present, rfl⟩

namespace Seamless

theorem parentless (seamless : Seamless inRange anchor chain log first) :
    ∀ above, ¬ ParentAt chain.choice.tree.nodes Node.stateParent 0 above :=
  fun above step => Nat.not_lt_zero above (seamless.sound.stateParentsFirst _ _ step)

/-- An entry of a lineage that is the oldest one shows that the lineage reaches its node. -/
theorem stateDescends_zero
    (seamless : Seamless inRange anchor chain log first) {position : Nat}
    (inside : position < chain.choice.tree.size)
    (member : oldest ∈ (chain.choice.tree.stateLineage position).filterMap
      fun ancestor => chain.pool.find? ancestor.2.ref)
    (earliest : chain.earliest? = some oldest) :
    chain.choice.tree.StateDescends position 0 := by
  obtain ⟨⟨ancestor, found⟩, inLineage, held⟩ := List.mem_filterMap.1 member
  obtain ⟨descends, there⟩ := (mem_ancestry seamless.sound.stateParentsFirst inside).1 inLineage
  obtain ⟨node, here, oldestHeld⟩ := entryAt?_eq_some_iff.1 earliest
  have sameRef : node.ref = found.ref :=
    (seamless.named _ _ oldestHeld).symm.trans (seamless.named _ _ held)
  obtain rfl := seamless.sound.toIndexed.position_unique here there sameRef
  exact descends

theorem leadsBack_of_reaches
    (seamless : Seamless inRange anchor chain log first) {position : Nat}
    (inside : position < chain.choice.tree.size)
    (reaches : chain.choice.tree.StateDescends position 0)
    (earliest : chain.earliest? = some oldest) :
    LeadsBack rules chain.choice.tree chain.pool position 0
      ((chain.choice.tree.stateLineage position).filterMap
        fun ancestor => chain.pool.find? ancestor.2.ref) :=
  seamless.toStocked.leadsBack seamless.parentless inside reaches fun _ descends =>
    seamless.unbroken.exists_entryAt?
      (Descends.between seamless.sound.stateParentsFirst descends reaches (Nat.zero_le _)) earliest

/-- A canonical chain that reaches the oldest entry begins with the head, and goes on where the
log ends. -/
theorem canonicalChain_spec
    (seamless : Seamless inRange anchor chain log first)
    (isCanonical : chain.canonicalChain.1 = .ok entries)
    (isOldest : entries.getLast? = some oldest) (earliest : chain.earliest? = some oldest) :
    (∃ head, entries.head? = some head ∧ chain.head.1 = .ok head) ∧
      Gapless rules anchor (taken log ++ entries.reverse) ∧
      ∀ entry ∈ entries, inRange entry.slot := by
  obtain ⟨ref, position, choice, found, present, rfl⟩ := exists_of_canonicalChain isCanonical
  have recounted := chain.choice.head_recounted
  rw [found] at recounted
  have counted := seamless.recounted recounted
  have earliestToo : entryAt? choice.tree chain.pool 0 = some oldest := by
    rw [entryAt?_congr recounted.shape]
    exact earliest
  obtain ⟨head, headHere, rfl⟩ := (counted.sound.positions _ _).1 present
  have inside : position < choice.tree.size := (List.getElem?_eq_some_iff.1 headHere).1
  have reaches := counted.stateDescends_zero inside (List.mem_of_getLast? isOldest) earliestToo
  have back := counted.leadsBack_of_reaches inside reaches earliestToo
  refine ⟨?_, ?_, fun entry member => ?_⟩
  · obtain ⟨entry, known⟩ := counted.unbroken.exists_entryAt? reaches earliestToo
    obtain ⟨_, there, held⟩ := entryAt?_eq_some_iff.1 known
    obtain rfl := Option.some.inj (headHere.symm.trans there)
    refine ⟨entry, back.head?_eq.trans known, ?_⟩
    have heldHead : chain.pool.find? head.ref = some entry := held
    simp only [RecentChain.head, headNode, found, heldHead]
  · refine counted.orderly.gapless.append (List.isChain_reverse.2 back.isChain)
      fun first isFirst => ?_
    rw [List.head?_reverse, back.getLast?_eq] at isFirst
    exact counted.continues 0 first counted.oldest counted.parentless isFirst
  · obtain ⟨ancestor, _, held⟩ := List.mem_filterMap.1 member
    exact seamless.allowed _ _ held

end Seamless

/-- Once the head has been found the canonical chain stays the same. -/
theorem canonicalChain_headNode
    (sound : Sound chain.choice.tree) (isCanonical : chain.canonicalChain.1 = .ok entries) :
    chain.headNode.2.canonicalChain.1 = .ok entries := by
  obtain ⟨ref, position, choice, found, present, rfl⟩ := exists_of_canonicalChain isCanonical
  have again := ForkChoice.head_again sound found
  have shape := choice.head_recounted.shape
  have presentAgain : choice.head.2.tree.position? ref = some position := by
    rw [shape.position?_eq, present]
  have headAgain : choice.head = (.ok ref, choice.head.2) := Prod.ext again rfl
  simp only [headNode, canonicalChain, found]
  rw [headAgain]
  simp only [presentAgain]
  exact congrArg Except.ok (shape.nodes.filterMap_stateLineage chain.pool.find? position)

end RecentChain

end BeaconChain
