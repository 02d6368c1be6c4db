import BeaconChain.Proofs.RecentChain.Lineage

/-!
# Handing on what has become final

A pruning offers the nodes before the one that is to become the oldest.  The canonical
ones among them are the ancestors of that node, from the oldest on, so that each entry
that is accepted goes on where the log ends.  Wherever the receiver stops, the ancestors
that are left go on in the same way.
-/

open Relation

namespace BeaconChain

open BlockTree

variable {State Block Context : Type} {rules : Rules State Block Context} {inRange : Nat → Prop}
  {anchor entry : Entry State Context} {root newRoot : Root} {tree : BlockTree}
  {pool left : Pool State Context} {log logBefore : List (Handover State Context)}
  {first position count : Nat}

/-- What is known when the first `count` nodes before `position` have been accepted: the
entries of all others are left, and the canonical ones go on where the log ends. -/
structure Offered (rules : Rules State Block Context) (inRange : Nat → Prop)
    (anchor : Entry State Context) (tree : BlockTree) (pool : Pool State Context)
    (position count : Nat)
    (left : Pool State Context) (log : List (Handover State Context)) : Prop where
  found : ∀ ref entry, left.find? ref = some entry ↔ pool.find? ref = some entry ∧
    ∃ (place : Nat) (node : Node), count ≤ place ∧ tree.nodes[place]? = some node ∧ node.ref = ref
  notBefore : ∀ place entry, count ≤ place → tree.StateDescends position place →
    entryAt? tree pool place = some entry → left.anchorSlot ≤ entry.slot
  continues : ∀ place entry, count ≤ place → tree.StateDescends position place →
    (∀ above, ParentAt tree.nodes Node.stateParent place above → above < count) →
    entryAt? tree pool place = some entry → Continues rules anchor (taken log) entry
  orderly : Orderly rules inRange anchor log

theorem Lineage.offered
    (lineage : Lineage rules inRange anchor root tree pool log first)
    (below : tree.StateDescends position first) :
    Offered rules inRange anchor tree pool position 0 pool log where
  found ref entry := by
    refine ⟨fun known => ⟨known, ?_⟩, And.left⟩
    obtain ⟨place, node, here, named⟩ := lineage.present ref entry known
    exact ⟨place, node, Nat.zero_le _, here, named⟩
  notBefore place entry _ descends known := by
    have related : tree.Related first place :=
      Descends.total lineage.sound.stateParentsFirst below descends
    exact lineage.anchorSlot_le related known
  continues place entry _ descends parentless known := by
    have parentless := fun above step => Nat.not_lt_zero above (parentless above step)
    apply lineage.continues place entry _ parentless known
    rcases Descends.total lineage.sound.stateParentsFirst below descends with ancestor | descendant
    · exact ancestor
    · rcases ReflTransGen.cases_head descendant with rfl | ⟨above, step, _⟩
      · exact ReflTransGen.refl
      · exact absurd step (parentless above)
  orderly := lineage.orderly

namespace Offered

theorem entryAt?_iff
    (offered : Offered rules inRange anchor tree pool position count left log)
    (indexed : Indexed tree) {place : Nat} :
    entryAt? tree left place = some entry ↔
      entryAt? tree pool place = some entry ∧ count ≤ place := by
  rw [entryAt?_eq_some_iff, entryAt?_eq_some_iff]
  constructor
  · rintro ⟨node, here, known⟩
    obtain ⟨before, other, found, reached, there, same⟩ := (offered.found _ _).1 known
    obtain rfl := indexed.position_unique there here same
    exact ⟨⟨node, here, before⟩, reached⟩
  · rintro ⟨⟨node, here, known⟩, reached⟩
    exact ⟨node, here, (offered.found _ _).2 ⟨known, place, node, reached, here, rfl⟩⟩

/-- The next node that is canonical is the oldest one that is left. -/
theorem inTurn
    (offered : Offered rules inRange anchor tree pool position count left log)
    (stocked : Stocked rules inRange tree pool) (canonical : tree.StateDescends position count)
    (known : entryAt? tree pool count = some entry) :
    Continues rules anchor (taken log) entry ∧ inRange entry.slot := by
  obtain ⟨node, _, held⟩ := entryAt?_eq_some_iff.1 known
  refine ⟨offered.continues count entry (Nat.le_refl _) canonical ?_ known,
    stocked.allowed _ _ held⟩
  exact fun above step => stocked.sound.stateParentsFirst _ _ step

theorem parent_cases
    {place : Nat}
    (frontier : ∀ above, ParentAt tree.nodes Node.stateParent place above → above < count + 1) :
    ParentAt tree.nodes Node.stateParent place count ∨
      ∀ above, ParentAt tree.nodes Node.stateParent place above → above < count := by
  by_cases isParent : ParentAt tree.nodes Node.stateParent place count
  · exact .inl isParent
  · refine .inr fun above step => ?_
    have bound := frontier above step
    have different : above ≠ count := fun same => isParent (same ▸ step)
    omega

/-- The next node is let go without an entry. -/
theorem skip
    (offered : Offered rules inRange anchor tree pool position count left log)
    {node : Node} (here : tree.nodes[count]? = some node)
    (missing : left.find? node.ref = none) (orphan : ¬ tree.StateDescends position count) :
    Offered rules inRange anchor tree pool position (count + 1) left log where
  found ref entry := by
    rw [offered.found]
    constructor
    · rintro ⟨known, place, other, reached, there, rfl⟩
      refine ⟨known, place, other, Nat.lt_of_le_of_ne reached ?_, there, rfl⟩
      rintro rfl
      obtain rfl := Option.some.inj (here.symm.trans there)
      have held := (offered.found _ _).2 ⟨known, count, node, reached, here, rfl⟩
      rw [missing] at held
      cases held
    · rintro ⟨known, place, other, reached, there, named⟩
      exact ⟨known, place, other, Nat.le_of_succ_le reached, there, named⟩
  notBefore place entry reached := offered.notBefore place entry (Nat.le_of_succ_le reached)
  continues place entry reached descends frontier known := by
    rcases parent_cases frontier with isParent | frontier
    · exact absurd (descends.tail isParent) orphan
    · exact offered.continues place entry (Nat.le_of_succ_le reached) descends frontier known
  orderly := offered.orderly

theorem refuse
    (offered : Offered rules inRange anchor tree pool position count left log)
    (stocked : Stocked rules inRange tree pool) {canonical : Bool}
    (marked : canonical = true → tree.StateDescends position count)
    (known : entryAt? tree pool count = some entry) (error : Error) :
    Offered rules inRange anchor tree pool position count left
      (log ++ [⟨entry, canonical, .error error⟩]) :=
  { offered with
    continues := by
      have unchanged : taken (log ++ [⟨entry, canonical, .error error⟩]) = taken log := by
        rw [taken_concat, Except.isOk, Except.toBool, Bool.and_false]
        rfl
      rw [unchanged]
      exact offered.continues
    orderly := offered.orderly.offer fun isCanonical =>
      offered.inTurn stocked (marked isCanonical) known }

theorem find?_remove_iff
    (offered : Offered rules inRange anchor tree pool position count left log)
    (indexed : Indexed tree) {node : Node} (here : tree.nodes[count]? = some node)
    {ref : NodeRef} :
    (left.remove node.ref).find? ref = some entry ↔ pool.find? ref = some entry ∧
      ∃ (place : Nat) (other : Node), count + 1 ≤ place ∧ tree.nodes[place]? = some other ∧
        other.ref = ref := by
  rw [Pool.find?_remove_eq_some_iff, offered.found]
  constructor
  · rintro ⟨different, held, place, other, reached, there, rfl⟩
    refine ⟨held, place, other, Nat.lt_of_le_of_ne reached ?_, there, rfl⟩
    rintro rfl
    exact different (by rw [Option.some.inj (here.symm.trans there)])
  · rintro ⟨held, place, other, reached, there, rfl⟩
    refine ⟨fun same => ?_, held, place, other, Nat.le_of_succ_le reached, there, rfl⟩
    have := indexed.position_unique here there same
    omega

theorem accept
    (offered : Offered rules inRange anchor tree pool position count left log)
    (stocked : Stocked rules inRange tree pool) {canonical : Bool}
    (marked : canonical = true ↔ tree.StateDescends position count)
    (known : entryAt? tree pool count = some entry) :
    Offered rules inRange anchor tree pool position (count + 1)
      { left.remove entry.ref with
        anchorSlot := if canonical then max left.anchorSlot entry.slot else left.anchorSlot }
      (log ++ [⟨entry, canonical, .ok ()⟩]) := by
  obtain ⟨node, here, held⟩ := entryAt?_eq_some_iff.1 known
  have named : entry.ref = node.ref := stocked.named _ _ held
  have ordered := stocked.sound.stateParentsFirst
  refine ⟨fun ref found => ?_, ?_, ?_, offered.orderly.offer fun isCanonical =>
    offered.inTurn stocked (marked.1 isCanonical) known⟩
  · rw [named]
    exact offered.find?_remove_iff stocked.sound.toIndexed here
  · intro place found reached descends foundHere
    have bound := offered.notBefore place found (Nat.le_of_succ_le reached) descends foundHere
    simp only
    split
    next isCanonical =>
      have between := Descends.between ordered descends (marked.1 isCanonical)
        (Nat.le_of_succ_le reached)
      exact Nat.max_le.2 ⟨bound, stocked.slot_le between foundHere known⟩
    next => exact bound
  · intro place found reached descends frontier foundHere
    rw [taken_concat]
    split
    next accepted =>
      have isCanonical := (Bool.and_eq_true_iff.1 accepted).1
      have between := Descends.between ordered descends (marked.1 isCanonical)
        (Nat.le_of_succ_le reached)
      obtain ⟨next, step, rest⟩ := Descends.parent_of_ne between (by omega)
      have low := Descends.le ordered rest
      have high := frontier next step
      obtain rfl : next = count := by omega
      exact continues_concat (stocked.linked place next found entry step foundHere known)
    next refused =>
      rcases parent_cases frontier with isParent | frontier
      · have isCanonical := marked.2 (descends.tail isParent)
        exact absurd (by simp [isCanonical, Except.isOk, Except.toBool]) refused
      · exact offered.continues place found (Nat.le_of_succ_le reached) descends frontier foundHere

/-- An offer to the pool either goes on to the next node or stops at this one. -/
theorem release
    {store : Type} {receive : EntryReceiver State Context store} {state after : store}
    {logAfter : List (Handover State Context)} {last : Pool State Context}
    {outcome : Except Error Unit} {node : Node} {canonical : Bool}
    (lineage : Lineage rules inRange anchor root tree pool logBefore first)
    (below : tree.StateDescends position first)
    (offered : Offered rules inRange anchor tree pool position count left log)
    (here : tree.nodes[count]? = some node)
    (marked : canonical = true ↔ tree.StateDescends position count)
    (released : Pool.release (watching receive) node canonical (left, state, log) =
      (outcome, last, after, logAfter)) :
    (outcome = .ok () → Offered rules inRange anchor tree pool position (count + 1) last logAfter) ∧
      (outcome ≠ .ok () → Offered rules inRange anchor tree pool position count last logAfter) := by
  unfold Pool.release at released
  dsimp only at released
  split at released
  next missing =>
    cases released
    refine ⟨fun _ => offered.skip here missing fun descends => ?_,
      fun refused => absurd rfl refused⟩
    have related : tree.Related first count :=
      Descends.total lineage.sound.stateParentsFirst below descends
    have inside := (List.getElem?_eq_some_iff.1 here).1
    obtain ⟨entry, known⟩ := lineage.kept count related inside
    obtain ⟨other, there, held⟩ := entryAt?_eq_some_iff.1 known
    obtain rfl := Option.some.inj (here.symm.trans there)
    have stillHeld := (offered.found _ _).2 ⟨held, count, node, Nat.le_refl _, here, rfl⟩
    rw [missing] at stillHeld
    cases stillHeld
  next entry held =>
    have known : entryAt? tree pool count = some entry :=
      entryAt?_eq_some_iff.2 ⟨node, here, ((offered.found _ _).1 held).1⟩
    split at released
    next error _ refused =>
      cases released
      have logged : logAfter = _ := (eq_of_watching refused).2
      subst logged
      exact ⟨nofun, fun _ => offered.refuse lineage.toStocked marked.1 known error⟩
    next accepted =>
      cases released
      have logged : logAfter = _ := (eq_of_watching accepted).2
      subst logged
      rw [Pool.anchorSlot_remove]
      exact ⟨fun _ => offered.accept lineage.toStocked marked known,
        fun refused => absurd rfl refused⟩

/-- What is left after a pruning is the lineage of the root that is to become final. -/
theorem lineage
    {node : Node} (lineage : Lineage rules inRange anchor root tree pool logBefore first)
    (here : tree.nodes[position]? = some node)
    (under : tree.Under node.ref.root first)
    (offered : Offered rules inRange anchor tree pool position count left log)
    (reached : count ≤ position) :
    ∃ newFirst, Lineage rules inRange anchor node.ref.root (tree.dropOldest count)
      left log newFirst := by
  have wellFormed := lineage.sound.toWellFormed
  have dropped := wellFormed.dropOldest count
  have ordered := lineage.sound.stateParentsFirst
  obtain ⟨kept, rfl⟩ : ∃ kept, position = kept + count := ⟨position - count, by omega⟩
  have keptHere := getElem?_dropOldest here
  obtain ⟨newFirst, isFirst⟩ := exists_isFirst dropped keptHere
  have isFirst : IsFirst (tree.dropOldest count).nodes node.ref.root newFirst := isFirst
  have toFirst : tree.StateDescends (kept + count) (newFirst + count) :=
    wellFormed.stateDescends_dropOldest.1 (wellFormed.stateDescends_first here isFirst)
  have newBelow : tree.StateDescends (newFirst + count) first := by
    obtain ⟨found, there, ofRoot⟩ := isFirst.here
    obtain ⟨before, beforeHere, rfl⟩ := getElem?_dropOldest_eq_some_iff.1 there
    exact under _ before beforeHere ofRoot
  have entries : ∀ {place : Nat} {entry : Entry State Context},
      entryAt? (tree.dropOldest count) left place = some entry ↔
        entryAt? tree pool (place + count) = some entry := by
    intro place entry
    rw [entryAt?_dropOldest, offered.entryAt?_iff wellFormed.toIndexed]
    exact and_iff_left (Nat.le_add_left _ _)
  refine ⟨newFirst, {
    sound := lineage.sound.dropOldest count
    named := fun ref entry known => lineage.named ref entry ((offered.found _ _).1 known).1
    present := fun ref entry known => ?_
    allowed := fun ref entry known => lineage.allowed ref entry ((offered.found _ _).1 known).1
    linked := fun child above entry previous step known aboveKnown =>
      lineage.linked _ _ entry previous ((parentAt_dropOldest shifts_stateParent).1 step)
        (entries.1 known) (entries.1 aboveKnown)
    filled := fun place entry known hasBlock =>
      (lineage.filled _ entry (entries.1 known) hasBlock).dropOldest
    isFirst := isFirst
    kept := fun place related inside => ?_
    notBefore := fun place entry descends known => ?_
    continues := fun place entry descends parentless known => ?_
    orderly := offered.orderly }⟩
  · obtain ⟨_, place, found, reached, there, named⟩ := (offered.found _ _).1 known
    obtain ⟨shifted, rfl⟩ : ∃ shifted, place = shifted + count := ⟨place - count, by omega⟩
    exact ⟨shifted, shiftNode count found, getElem?_dropOldest there, named⟩
  · have oldRelated : tree.Related first (place + count) := by
      rcases related with ancestor | descendant
      · exact Descends.total ordered newBelow (wellFormed.stateDescends_dropOldest.1 ancestor)
      · exact .inr ((wellFormed.stateDescends_dropOldest.1 descendant).trans newBelow)
    have oldInside : place + count < tree.size := by
      simp only [size, nodes_dropOldest, List.length_map, List.length_drop] at inside ⊢
      omega
    obtain ⟨entry, known⟩ := lineage.kept _ oldRelated oldInside
    exact ⟨entry, entries.2 known⟩
  · have descends := toFirst.trans (wellFormed.stateDescends_dropOldest.1 descends)
    exact offered.notBefore _ entry (Nat.le_add_left _ _) descends (entries.1 known)
  · have descends := toFirst.trans (wellFormed.stateDescends_dropOldest.1 descends)
    refine offered.continues _ entry (Nat.le_add_left _ _) descends (fun above step => ?_)
      (entries.1 known)
    rcases Nat.lt_or_ge above count with gone | left
    · exact gone
    · obtain ⟨shifted, rfl⟩ : ∃ shifted, above = shifted + count := ⟨above - count, by omega⟩
      exact absurd ((parentAt_dropOldest shifts_stateParent).2 step) (parentless shifted)

end Offered

section Pruning

variable {store : Type} {receive : EntryReceiver State Context store} {state after : store}
  {logAfter : List (Handover State Context)} {last : Pool State Context} {treeAfter : BlockTree}
  {outcome : Except Error Unit} {ref : NodeRef}

/-- However far a pruning comes, the nodes and the entries that it takes out are the first
ones. -/
theorem Lineage.prune_offered
    (lineage : Lineage rules inRange anchor root tree pool log first)
    (under : tree.Under ref.root first) (present : tree.position? ref = some position)
    (pruned : tree.prune ref (Pool.release (watching receive)) (pool, state, log) =
      (outcome, treeAfter, last, after, logAfter)) :
    ∃ accepted, accepted ≤ position ∧ treeAfter = tree.refresh.dropOldest accepted ∧
      Offered rules inRange anchor tree.refresh pool position accepted last logAfter := by
  have same := sameShape_refresh tree
  have fresh := lineage.congr same lineage.sound.refresh
  rw [← same.position?_eq] at present
  obtain ⟨node, here, rfl⟩ := (fresh.sound.positions _ _).1 present
  generalize offers : offerAll (Pool.release (watching receive))
    (tree.refresh.markedBefore position (node.headPosition position)) (pool, state, log) = result
  obtain ⟨answer, accepted, left, between, logBetween⟩ := result
  rw [prune_of_locate? (fresh.sound.locate?_eq_some_iff.2 ⟨here, rfl⟩) offers] at pruned
  cases pruned
  have below := under.congr same position node here rfl
  obtain ⟨offered, reached, _⟩ := offerAll_invariant
    (fun count state =>
      Offered rules inRange anchor tree.refresh pool position count state.1 state.2.2)
    (fun place found mark before after answer marked offered released =>
      have ⟨there, canonical⟩ := fresh.sound.marked_spec here marked
      offered.release fresh below there canonical released)
    (fresh.offered below) offers
  rw [length_markedBefore here] at reached
  exact ⟨accepted, reached, rfl, offered⟩

theorem Lineage.prune
    (lineage : Lineage rules inRange anchor root tree pool log first)
    (under : tree.Under ref.root first) (present : tree.position? ref = some position)
    (pruned : tree.prune ref (Pool.release (watching receive)) (pool, state, log) =
      (outcome, treeAfter, last, after, logAfter)) :
    ∃ newFirst, Lineage rules inRange anchor ref.root treeAfter last logAfter newFirst := by
  obtain ⟨accepted, reached, rfl, offered⟩ := lineage.prune_offered under present pruned
  have same := sameShape_refresh tree
  have fresh := lineage.congr same lineage.sound.refresh
  rw [← same.position?_eq] at present
  obtain ⟨node, here, rfl⟩ := (fresh.sound.positions _ _).1 present
  exact offered.lineage fresh here (under.congr same) reached

end Pruning

end BeaconChain
