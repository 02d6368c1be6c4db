import BeaconChain.Proofs.RecentChain.Commit

/-!
# How entries are made

Every entry is made of the anchor by single transitions: a slot passes on the way to a block, or
a block is applied in the slot that has passed.  The blocks in question are among those that
were applied to the chain.  Where no two of them have the same root, the name of an entry
determines all of it.
-/

open Relation

namespace BeaconChain

variable {State Block Context : Type} {rules : Rules State Block Context} {verified : Bool}
  {applied : Block → Prop} {anchor entry other previous next : Entry State Context}

/-- An entry is made of another one by a single transition.  A slot passes only on the way to a
block. -/
inductive Made (rules : Rules State Block Context) (verified : Bool) (applied : Block → Prop)
    (previous next : Entry State Context) : Prop
  | slot (onTheWay : ∃ block, applied block ∧ rules.blockParent block = next.blockRoot ∧
      next.slot ≤ rules.blockSlot block)
    (sameRoot : next.blockRoot = previous.blockRoot) (nextSlot : next.slot = previous.slot + 1)
    (empty : next.parentRoot = none)
    (passed : rules.passSlot previous.state previous.context next.slot =
      .ok (next.state, next.context))
    (hashed : next.stateRoot = rules.stateRoot next.state)
  | block (block : Block) (isApplied : applied block) (empty : previous.parentRoot = none)
    (below : previous.ref = ⟨rules.blockParent block, rules.blockSlot block⟩)
    (named : next.ref = ⟨rules.blockRoot block, rules.blockSlot block⟩)
    (parent : next.parentRoot = some (rules.blockParent block))
    (applies : rules.applyBlock previous.state previous.context block verified =
      .ok (next.state, next.context))
    (hashed : next.stateRoot = rules.stateRoot next.state)

/-- An entry is made of the anchor by any number of transitions. -/
def Derived (rules : Rules State Block Context) (verified : Bool) (applied : Block → Prop) :
    Entry State Context → Entry State Context → Prop :=
  ReflTransGen (Made rules verified applied)

namespace Made

theorem mono
    {others : Block → Prop} (made : Made rules verified applied previous next)
    (more : ∀ block, applied block → others block) : Made rules verified others previous next := by
  cases made with
  | slot onTheWay sameRoot nextSlot empty passed hashed =>
    obtain ⟨block, isApplied, onParent, notBehind⟩ := onTheWay
    exact .slot ⟨block, more block isApplied, onParent, notBehind⟩ sameRoot nextSlot empty passed
      hashed
  | block block isApplied empty below named parent applies hashed =>
    exact .block block (more block isApplied) empty below named parent applies hashed

end Made

namespace Derived

theorem mono
    {others : Block → Prop} (derived : Derived rules verified applied anchor entry)
    (more : ∀ block, applied block → others block) :
    Derived rules verified others anchor entry := by
  induction derived with
  | refl => exact .refl
  | tail _ made ih => exact ih.tail (made.mono more)

/-- The root of an entry is that of the anchor or of a block, which is not later. -/
theorem origin (derived : Derived rules verified applied anchor entry) :
    (entry.blockRoot = anchor.blockRoot ∧ anchor.slot ≤ entry.slot) ∨
    ∃ block, applied block ∧ rules.blockRoot block = entry.blockRoot ∧
      rules.blockSlot block ≤ entry.slot := by
  induction derived with
  | refl => exact .inl ⟨rfl, Nat.le_refl _⟩
  | @tail previous next _ made ih =>
    cases made with
    | slot _ sameRoot nextSlot =>
      rw [sameRoot, nextSlot]
      rcases ih with ⟨ofAnchor, notBefore⟩ | ⟨block, isApplied, ofBlock, notBefore⟩
      · exact .inl ⟨ofAnchor, Nat.le_succ_of_le notBefore⟩
      · exact .inr ⟨block, isApplied, ofBlock, Nat.le_succ_of_le notBefore⟩
    | block block isApplied _ _ named =>
      exact .inr ⟨block, isApplied, (congrArg NodeRef.root named).symm,
        Nat.le_of_eq (congrArg NodeRef.slot named).symm⟩

end Derived

theorem Entry.eq_of_fields
    (ref : entry.ref = other.ref) (parentRoot : entry.parentRoot = other.parentRoot)
    (stateRoot : entry.stateRoot = other.stateRoot) (state : entry.state = other.state)
    (context : entry.context = other.context) : entry = other := by
  obtain ⟨blockRoot, slot⟩ := NodeRef.mk.inj ref
  cases entry
  cases other
  simp only [Entry.mk.injEq]
  exact ⟨slot, blockRoot, parentRoot, stateRoot, context, state⟩

/-- Neither two of the blocks nor a block and the anchor have the same root. -/
structure Distinct (rules : Rules State Block Context) (applied : Block → Prop)
    (anchor : Entry State Context) : Prop where
  eq_of_root : ∀ block other, applied block → applied other →
    rules.blockRoot block = rules.blockRoot other → block = other
  notAnchor : ∀ block, applied block → rules.blockRoot block ≠ anchor.blockRoot

namespace Distinct

variable {block : Block}

theorem slot_le_of_anchorRoot
    (distinct : Distinct rules applied anchor)
    (derived : Derived rules verified applied anchor entry)
    (ofAnchor : entry.blockRoot = anchor.blockRoot) : anchor.slot ≤ entry.slot := by
  rcases derived.origin with ⟨_, notBefore⟩ | ⟨block, isApplied, ofBlock, _⟩
  · exact notBefore
  · exact absurd (ofBlock.trans ofAnchor) (distinct.notAnchor block isApplied)

theorem slot_le_of_blockRoot
    (distinct : Distinct rules applied anchor)
    (derived : Derived rules verified applied anchor entry)
    (isApplied : applied block) (ofBlock : entry.blockRoot = rules.blockRoot block) :
    rules.blockSlot block ≤ entry.slot := by
  rcases derived.origin with ⟨ofAnchor, _⟩ | ⟨other, otherApplied, ofOther, notBefore⟩
  · exact absurd (ofBlock.symm.trans ofAnchor) (distinct.notAnchor block isApplied)
  · rwa [distinct.eq_of_root block other isApplied otherApplied (ofBlock.symm.trans ofOther.symm)]

/-- Whatever is made of an entry has another name than the anchor. -/
theorem ref_ne_anchor
    (distinct : Distinct rules applied anchor)
    (derived : Derived rules verified applied anchor previous)
    (made : Made rules verified applied previous next) : next.ref ≠ anchor.ref := by
  intro same
  have sameRoot : next.blockRoot = anchor.blockRoot := congrArg NodeRef.root same
  have sameSlot : next.slot = anchor.slot := congrArg NodeRef.slot same
  cases made with
  | slot _ ofPrevious nextSlot =>
    have notBefore := distinct.slot_le_of_anchorRoot derived (ofPrevious.symm.trans sameRoot)
    omega
  | block block isApplied _ _ named =>
    have ofBlock : next.blockRoot = rules.blockRoot block := congrArg NodeRef.root named
    exact distinct.notAnchor block isApplied (ofBlock.symm.trans sameRoot)

/-- A slot and a block do not lead to the same name: no entry of a block's root is older than
the block. -/
theorem slot_ne_block
    (distinct : Distinct rules applied anchor)
    (derived : Derived rules verified applied anchor previous) (isApplied : applied block)
    (sameRoot : next.blockRoot = previous.blockRoot) (nextSlot : next.slot = previous.slot + 1) :
    next.ref ≠ ⟨rules.blockRoot block, rules.blockSlot block⟩ := by
  intro named
  have ofBlock : next.blockRoot = rules.blockRoot block := congrArg NodeRef.root named
  have atSlot : next.slot = rules.blockSlot block := congrArg NodeRef.slot named
  have notBefore := distinct.slot_le_of_blockRoot derived isApplied (sameRoot.symm.trans ofBlock)
  omega

/-- The name of an entry determines the entry. -/
theorem eq_of_ref_eq
    (distinct : Distinct rules applied anchor)
    (derived : Derived rules verified applied anchor entry)
    (derivedOther : Derived rules verified applied anchor other) (same : entry.ref = other.ref) :
    entry = other := by
  induction derived generalizing other with
  | refl =>
    rcases ReflTransGen.cases_tail derivedOther with isAnchor | ⟨previous, derivedPrevious, made⟩
    · exact isAnchor.symm
    · exact absurd same.symm (distinct.ref_ne_anchor derivedPrevious made)
  | @tail previous entry derivedPrevious made ih =>
    rcases ReflTransGen.cases_tail derivedOther with rfl | ⟨before, derivedBefore, madeOther⟩
    · exact absurd same (distinct.ref_ne_anchor derivedPrevious made)
    · have sameRoot : entry.blockRoot = other.blockRoot := congrArg NodeRef.root same
      have sameSlot : entry.slot = other.slot := congrArg NodeRef.slot same
      cases made with
      | slot _ ofPrevious nextSlot empty passed hashed =>
        cases madeOther with
        | slot _ ofBefore nextToo emptyToo passedToo hashedToo =>
          have isBefore : previous = before := by
            refine ih derivedBefore (NodeRef.eq_mk ?_ ?_)
            · exact ofPrevious.symm.trans (sameRoot.trans ofBefore)
            · simp only [Entry.ref]
              omega
          subst isBefore
          rw [sameSlot] at passed
          obtain ⟨sameState, sameContext⟩ :=
            Prod.mk.inj (Except.ok.inj (passed.symm.trans passedToo))
          rw [sameState] at hashed
          exact Entry.eq_of_fields same (empty.trans emptyToo.symm) (hashed.trans hashedToo.symm)
            sameState sameContext
        | block block isApplied _ _ named =>
          exact absurd (same.trans named)
            (distinct.slot_ne_block derivedPrevious isApplied ofPrevious nextSlot)
      | block block isApplied _ below named parent applies hashed =>
        cases madeOther with
        | slot _ ofBefore nextToo =>
          exact absurd (same.symm.trans named)
            (distinct.slot_ne_block derivedBefore isApplied ofBefore nextToo)
        | block rival rivalApplied _ belowToo namedToo parentToo appliesToo hashedToo =>
          have isRival : block = rival := by
            apply distinct.eq_of_root block rival isApplied rivalApplied
            exact congrArg NodeRef.root (named.symm.trans (same.trans namedToo))
          subst isRival
          have isBefore : previous = before := ih derivedBefore (below.trans belowToo.symm)
          subst isBefore
          obtain ⟨sameState, sameContext⟩ :=
            Prod.mk.inj (Except.ok.inj (applies.symm.trans appliesToo))
          rw [sameState] at hashed
          exact Entry.eq_of_fields same (parent.trans parentToo.symm) (hashed.trans hashedToo.symm)
            sameState sameContext

theorem blockRef_ne_anchor
    (distinct : Distinct rules applied anchor) (isApplied : applied block) {ref : NodeRef}
    (named : ref = ⟨rules.blockRoot block, rules.blockSlot block⟩) : ref ≠ anchor.ref := by
  intro isAnchor
  exact distinct.notAnchor block isApplied (congrArg NodeRef.root (named.symm.trans isAnchor))

/-- An entry of a block's name is that of the block: it was made in the empty slot after the
parent. -/
theorem exists_made_block
    (distinct : Distinct rules applied anchor)
    (derived : Derived rules verified applied anchor entry)
    (isApplied : applied block)
    (named : entry.ref = ⟨rules.blockRoot block, rules.blockSlot block⟩) :
    entry.parentRoot = some (rules.blockParent block) ∧
      ∃ previous, Derived rules verified applied anchor previous ∧ previous.parentRoot = none ∧
        previous.ref = ⟨rules.blockParent block, rules.blockSlot block⟩ := by
  rcases ReflTransGen.cases_tail derived with isAnchor | ⟨previous, derivedPrevious, made⟩
  · rw [isAnchor] at named
    exact absurd (congrArg NodeRef.root named).symm (distinct.notAnchor block isApplied)
  · cases made with
    | slot _ sameRoot nextSlot =>
      exact absurd named (distinct.slot_ne_block derivedPrevious isApplied sameRoot nextSlot)
    | block other otherApplied empty below ofOther parent =>
      have isOther : block = other := distinct.eq_of_root block other isApplied otherApplied
        (congrArg NodeRef.root (named.symm.trans ofOther))
      subst isOther
      exact ⟨parent, previous, derivedPrevious, empty, below⟩

end Distinct

namespace RecentChain

variable {preset : Preset} {inRange : Nat → Prop} {chain : RecentChain preset rules} {block : Block}
  {interrupted : List Nat → Bool}

theorem derived_of_replaySlot
    {root : Root} (isApplied : applied block) (onParent : rules.blockParent block = root)
    (derived : Derived rules verified applied anchor previous) (ofRoot : previous.blockRoot = root)
    (notBehind : previous.slot + 1 ≤ rules.blockSlot block)
    (replayed : replaySlot rules root (previous.slot + 1) previous = .ok next) :
    Derived rules verified applied anchor next ∧ next.blockRoot = root ∧
      next.slot = previous.slot + 1 := by
  obtain ⟨⟨state, context⟩, outside, made⟩ := exists_of_bind_eq_ok replayed
  cases made
  refine ⟨derived.tail (.slot ⟨block, isApplied, onParent, notBehind⟩ ofRoot.symm rfl rfl
    (Error.eq_ok_of_ofOutside outside) rfl), rfl, rfl⟩

theorem derived_of_replaySlots
    {root : Root} (isApplied : applied block) (onParent : rules.blockParent block = root) :
    ∀ {count : Nat} {previous : Entry State Context} {before result : List (Entry State Context)},
      Derived rules verified applied anchor previous → previous.blockRoot = root →
      previous.slot + count ≤ rules.blockSlot block →
      (∀ entry ∈ before, Derived rules verified applied anchor entry) →
      replaySlots rules interrupted root count previous before = .ok result →
      ∀ entry ∈ result, Derived rules verified applied anchor entry
  | 0, previous, before, result, _, _, _, derivedBefore, done => by
    cases done
    exact derivedBefore
  | count + 1, previous, before, result, derived, ofRoot, notBehind, derivedBefore, done => by
    rw [replaySlots] at done
    split at done
    next => cases done
    next =>
      split at done
      next => cases done
      next next passed =>
        obtain ⟨derivedNext, nextRoot, nextSlot⟩ :=
          derived_of_replaySlot isApplied onParent derived ofRoot (by omega) passed
        refine derived_of_replaySlots isApplied onParent derivedNext nextRoot (by omega) ?_ done
        intro entry member
        rcases List.mem_append.1 member with old | new
        · exact derivedBefore entry old
        · rw [List.mem_singleton.1 new]
          exact derivedNext

/-- The entries of a draft are made of entries of the pool. -/
theorem derived_of_draft
    (stocked : Stocked rules inRange chain.choice.tree chain.pool)
    (derived : ∀ ref entry, chain.pool.find? ref = some entry →
      Derived rules chain.limits.verifyBlocks applied anchor entry)
    (isApplied : applied block) {draft : Draft State Context}
    (drafted : chain.draft block interrupted = .ok draft) :
    ∀ entry ∈ draft.replayed ++ [draft.block],
      Derived rules chain.limits.verifyBlocks applied anchor entry := by
  obtain ⟨previous, last, isDraft⟩ := exists_drafted stocked drafted
  obtain ⟨position, node, _, latest, known, _⟩ := preState_spec stocked isDraft.preState
  have named := stocked.ref_eq latest.here known
  have ofRoot : previous.blockRoot = rules.blockParent block :=
    (congrArg NodeRef.root named).trans latest.ofRoot
  have notLater : previous.slot ≤ rules.blockSlot block := by
    rw [show previous.slot = node.ref.slot from congrArg NodeRef.slot named]
    exact latest.notLater
  have derivedPrevious : Derived rules chain.limits.verifyBlocks applied anchor previous := by
    obtain ⟨_, _, held⟩ := entryAt?_eq_some_iff.1 known
    exact derived _ _ held
  obtain ⟨found, isPrevious, drafted⟩ := exists_of_bind_eq_ok drafted
  obtain rfl := Except.ok.inj (isPrevious.symm.trans isDraft.preState)
  obtain ⟨entries, passed, drafted⟩ := exists_of_bind_eq_ok drafted
  have derivedEntries := derived_of_replaySlots isApplied rfl derivedPrevious ofRoot (by omega)
    (fun _ member => absurd member List.not_mem_nil) passed
  dsimp only at drafted
  split at drafted
  next => cases drafted
  next =>
    obtain ⟨⟨state, context⟩, outside, made⟩ := exists_of_bind_eq_ok drafted
    cases made
    have isLast := isDraft.replayed.getLastD_eq
    dsimp only at isLast outside ⊢
    rw [isLast] at outside
    have derivedLast : Derived rules chain.limits.verifyBlocks applied anchor last := by
      rcases isDraft.replayed.last_mem_or with member | rfl
      · exact derivedEntries last member
      · exact derivedPrevious
    have below : last.ref = ⟨rules.blockParent block, rules.blockSlot block⟩ :=
      NodeRef.eq_mk (isDraft.replayed.last_blockRoot.trans ofRoot) (isDraft.last_slot notLater)
    intro entry member
    rcases List.mem_append.1 member with replayed | isBlock
    · exact derivedEntries entry replayed
    · rw [List.mem_singleton.1 isBlock]
      exact derivedLast.tail (.block block isApplied (isDraft.last_empty stocked) below rfl rfl
        (Error.eq_ok_of_ofOutside outside) rfl)

end RecentChain

end BeaconChain
