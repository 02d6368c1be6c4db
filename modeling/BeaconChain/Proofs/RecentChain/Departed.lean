import BeaconChain.Proofs.RecentChain.Registry
import BeaconChain.Proofs.RecentChain.Run

/-!
# What has been handed on

Where roots are registered, the entries that were handed on as canonical have left the tree
for good.  No look-up by their roots finds anything in the recent chain.
-/

namespace BeaconChain

open BlockTree

variable {State Block Context store : Type} {rules : Rules State Block Context}
  {inRange : Nat → Prop} {registry : Registry} {pool last : Pool State Context}
  {log logAfter : List (Handover State Context)} {entry : Entry State Context}
  {receive : EntryReceiver State Context store} {state after : store}
  {outcome : Except Error Unit}

/-- The entries in a pool, and the canonical ones in a log, are registered. -/
structure Enrolled (registry : Registry) (pool : Pool State Context)
    (log : List (Handover State Context)) : Prop where
  named : ∀ ref entry, pool.find? ref = some entry → entry.ref = ref
  held : ∀ ref entry, pool.find? ref = some entry → registry.Lists entry
  indexed : ∀ root ref, pool.byStateRoot.find? root = some ref → registry.node root = ref
  logged : ∀ handover ∈ log, handover.canonical = true → registry.Lists handover.entry

namespace Enrolled

theorem taken_lists (enrolled : Enrolled registry pool log) :
    ∀ entry ∈ taken log, registry.Lists entry := by
  intro entry member
  obtain ⟨handover, inLog, accepted, rfl⟩ := mem_taken_iff.1 member
  exact enrolled.logged handover inLog (Bool.and_eq_true_iff.1 accepted).1

theorem insert (enrolled : Enrolled registry pool log) (lists : registry.Lists entry) :
    Enrolled registry (pool.insert entry) log where
  named ref found known := by
    rcases Pool.find?_insert_cases known with ⟨named, rfl⟩ | old
    · exact named
    · exact enrolled.named ref found old
  held ref found known := by
    rcases Pool.find?_insert_cases known with ⟨_, rfl⟩ | old
    · exact lists
    · exact enrolled.held ref found old
  indexed root ref known := by
    rcases Table.find?_insert_cases known with ⟨rfl, rfl⟩ | old
    · exact lists.node
    · exact enrolled.indexed root ref old
  logged := enrolled.logged

theorem remove (enrolled : Enrolled registry pool log) (dropped : NodeRef) :
    Enrolled registry (pool.remove dropped) log where
  named ref found known := enrolled.named ref found (Pool.find?_remove_eq_some_iff.1 known).2
  held ref found known := enrolled.held ref found (Pool.find?_remove_eq_some_iff.1 known).2
  indexed root ref known := by
    unfold Pool.remove at known
    split at known
    next => exact enrolled.indexed root ref known
    next =>
      simp only at known
      split at known
      next => exact enrolled.indexed root ref (Table.find?_of_find?_erase known)
      next => exact enrolled.indexed root ref known
  logged := enrolled.logged

theorem offer
    (enrolled : Enrolled registry pool log) {handover : Handover State Context}
    (lists : handover.canonical = true → registry.Lists handover.entry) :
    Enrolled registry pool (log ++ [handover]) :=
  { enrolled with
    logged := fun other member => by
      rcases List.mem_append.1 member with old | new
      · exact enrolled.logged other old
      · rw [List.mem_singleton.1 new]
        exact lists }

theorem offerOrphan
    (enrolled : Enrolled registry pool log) (entry : Entry State Context)
    (outcome : Except Error Unit) : Enrolled registry pool (log ++ [⟨entry, false, outcome⟩]) :=
  enrolled.offer fun canonical => by cases canonical

/-- A pool hands on no entry but that of the node. -/
theorem release
    {node : Node} {canonical : Bool} (enrolled : Enrolled registry pool log)
    (released : Pool.release (watching receive) node canonical (pool, state, log) =
      (outcome, last, after, logAfter)) :
    Enrolled registry last logAfter ∧ ∀ entry ∈ taken logAfter,
      entry ∈ taken log ∨ outcome = .ok () ∧ entry.ref = node.ref := by
  unfold Pool.release at released
  dsimp only at released
  split at released
  next =>
    cases released
    exact ⟨enrolled, fun _ member => .inl member⟩
  next entry held =>
    have lists := enrolled.held _ _ held
    split at released
    next refused =>
      cases released
      obtain rfl : logAfter = _ := (eq_of_watching refused).2
      refine ⟨enrolled.offer fun _ => lists, fun other member => .inl ?_⟩
      simpa [taken_concat, Except.isOk, Except.toBool] using member
    next accepted =>
      cases released
      obtain rfl : logAfter = _ := (eq_of_watching accepted).2
      have offered := (enrolled.remove entry.ref).offer
        (show (⟨entry, canonical, .ok ()⟩ : Handover State Context).canonical = true → _ from
          fun _ => lists)
      refine ⟨⟨offered.named, offered.held, offered.indexed, offered.logged⟩,
        fun other member => ?_⟩
      rw [taken_concat] at member
      split at member
      next =>
        rcases List.mem_append.1 member with old | new
        · exact .inl old
        · rw [List.mem_singleton.1 new]
          exact .inr ⟨rfl, enrolled.named _ _ held⟩
      next => exact .inl member

theorem discard :
    ∀ {entries : List (Entry State Context)} {pool last : Pool State Context}
      {state after : store} {log logAfter : List (Handover State Context)}
      {outcome : Except Error Unit}, Enrolled registry pool log →
      Pool.discard (watching receive) entries pool (state, log) = (outcome, last, after, logAfter) →
      Enrolled registry last logAfter ∧ taken logAfter = taken log
  | [], _, _, _, _, _, _, _, enrolled, done => by
    cases done
    exact ⟨enrolled, rfl⟩
  | entry :: rest, pool, _, _, _, log, _, _, enrolled, done => by
    have passed : ∀ answer, taken (log ++ [⟨entry, false, answer⟩]) = taken log := fun answer => by
      rw [taken_concat]
      rfl
    rw [Pool.discard] at done
    split at done
    next refused =>
      cases done
      obtain ⟨_, rfl⟩ := eq_of_watching refused
      exact ⟨enrolled.offerOrphan entry _, passed _⟩
    next accepted =>
      obtain ⟨_, logged⟩ := eq_of_watching accepted
      have dropped := (enrolled.offerOrphan entry (.ok ())).remove entry.ref
      rw [← logged] at dropped
      obtain ⟨kept, same⟩ := discard dropped done
      exact ⟨kept, same.trans (logged ▸ passed _)⟩

end Enrolled

/-! ## What has left the tree -/

/-- An entry of a block agrees with a pedigree, if it has the parent and the slot of its root. -/
def Pedigree.Fits (pedigree : Pedigree) (entry : Entry State Context) : Prop :=
  ∀ parentRoot, entry.parentRoot = some parentRoot →
    pedigree.Admits parentRoot entry.blockRoot entry.slot

/-- A node that joins a tree with an entry agrees with the pedigree if the entry does. -/
theorem Joins.admitted
    {pedigree : Pedigree} {tree : BlockTree} {node : Node}
    (joins : Joins rules inRange tree pool node entry) (stocked : Stocked rules inRange tree pool)
    (fits : pedigree.Fits entry) : Appendable pedigree.Admits tree node := by
  obtain ⟨appendable, named, _, follows, _, _⟩ := joins
  cases appendable with
  | slot stamp here last => exact .slot stamp here last
  | @block position earlier preState older root stamp here there sameRoot before fresh _ =>
    obtain ⟨previous, known, follows⟩ := follows position rfl
    have ofParent := congrArg NodeRef.root (stocked.ref_eq here known)
    have ofBlock : entry.blockRoot = root := congrArg NodeRef.root named
    have sameSlot : entry.slot = preState.ref.slot := congrArg NodeRef.slot named
    refine .block root stamp here there sameRoot before fresh ?_
    cases follows with
    | slot sameBlock =>
      refine absurd ?_ (fresh preState (List.mem_of_getElem? here))
      rw [← ofBlock, sameBlock]
      exact ofParent.symm
    | block _ _ _ _ parent =>
      have admitted := fits previous.blockRoot parent
      rwa [ofBlock, sameSlot, show previous.blockRoot = preState.ref.root from ofParent] at admitted

/-- The entries are registered, and those that were handed on have left the tree for good. -/
structure Departed (registry : Registry) (anchor : NodeRef) (names : List NodeRef)
    (tree : BlockTree) (pool : Pool State Context) (log : List (Handover State Context)) : Prop
    extends Enrolled registry pool log where
  annals : Annals registry.pedigree anchor names tree
  gone : ∀ entry ∈ taken log, Gone names tree entry.ref

namespace Departed

variable {anchor : NodeRef} {names : List NodeRef} {tree treeAfter other : BlockTree}

theorem congr
    (departed : Departed registry anchor names tree pool log) (same : SameShape other tree) :
    Departed registry anchor names other pool log :=
  { departed with
    annals := departed.annals.congr same.nodes
    gone := fun entry member => (departed.gone entry member).congr same.nodes }

theorem push
    {node : Node} (departed : Departed registry anchor names tree pool log)
    (stocked : Stocked rules inRange tree pool) (joins : Joins rules inRange tree pool node entry)
    (lists : registry.Lists entry) :
    Departed registry anchor (names ++ [node.ref]) { tree.push node with outdated := true }
      (pool.insert entry) log where
  toEnrolled := departed.toEnrolled.insert lists
  annals := (departed.annals.push (joins.admitted stocked lists.admits)).congr (.refl _)
  gone other member := ((departed.gone other member).push departed.annals
    (joins.admitted stocked lists.admits)).congr (.refl _)

end Departed

/-- What is known when the first `count` nodes have been accepted: an entry that has been handed on
since then belongs to one of them. -/
structure Passed (registry : Registry) (tree : BlockTree) (log : List (Handover State Context))
    (count : Nat) (pool : Pool State Context) (logNow : List (Handover State Context)) : Prop
    extends Enrolled registry pool logNow where
  passed : ∀ entry ∈ taken logNow, entry ∈ taken log ∨
    ∃ (place : Nat) (node : Node), place < count ∧ tree.nodes[place]? = some node ∧
      node.ref = entry.ref

section Pruning

variable {anchor : NodeRef} {names : List NodeRef} {tree treeAfter : BlockTree} {count : Nat}

theorem Passed.release
    {logNow : List (Handover State Context)} {node : Node} {canonical : Bool}
    (passed : Passed registry tree log count pool logNow) (here : tree.nodes[count]? = some node)
    (released : Pool.release (watching receive) node canonical (pool, state, logNow) =
      (outcome, last, after, logAfter)) :
    (outcome = .ok () → Passed registry tree log (count + 1) last logAfter) ∧
      (outcome ≠ .ok () → Passed registry tree log count last logAfter) := by
  obtain ⟨kept, added⟩ := passed.toEnrolled.release released
  constructor
  · refine fun _ => { kept with passed := fun entry member => ?_ }
    rcases added entry member with old | ⟨_, named⟩
    · refine (passed.passed entry old).imp_right ?_
      rintro ⟨earlier, found, before, there, named⟩
      exact ⟨earlier, found, Nat.lt_succ_of_lt before, there, named⟩
    · exact .inr ⟨count, node, Nat.lt_succ_self count, here, named.symm⟩
  · exact fun refused => { kept with
      passed := fun entry member => passed.passed entry
        ((added entry member).resolve_right fun accepted => refused accepted.1) }

/-- Nodes are taken out of the tree together with the entries that have been handed on. -/
theorem Departed.dropOldest
    {logNow : List (Handover State Context)} {left : Pool State Context}
    (departed : Departed registry anchor names tree pool log) (wellFormed : WellFormed tree)
    (passed : Passed registry tree log count left logNow) :
    Departed registry anchor names (tree.dropOldest count) left logNow where
  toEnrolled := passed.toEnrolled
  annals := departed.annals.dropOldest count
  gone entry member := by
    rcases passed.passed entry member with old | ⟨place, node, before, here, named⟩
    · exact (departed.gone entry old).dropOldest count
    · rw [← named]
      exact gone_of_dropOldest departed.annals wellFormed here before

theorem Departed.prune
    {ref : NodeRef} (departed : Departed registry anchor names tree pool log) (sound : Sound tree)
    (pruned : tree.prune ref (Pool.release (watching receive)) (pool, state, log) =
      (outcome, treeAfter, last, after, logAfter)) :
    Departed registry anchor names treeAfter last logAfter := by
  have fresh := departed.congr (sameShape_refresh tree)
  cases located : tree.refresh.locate? ref with
  | none =>
    simp only [BlockTree.prune, located] at pruned
    cases pruned
    exact fresh
  | some found =>
    obtain ⟨position, node⟩ := found
    generalize offers : offerAll (Pool.release (watching receive))
      (tree.refresh.markedBefore position (node.headPosition position)) (pool, state, log) = result
    obtain ⟨answer, accepted, left, between, logBetween⟩ := result
    rw [prune_of_locate? located offers] at pruned
    cases pruned
    obtain ⟨passed, _⟩ := offerAll_invariant
      (fun count state => Passed registry tree.refresh log count state.1 state.2.2)
      (fun _ _ _ _ _ _ marked passed released =>
        passed.release (getElem?_markedBefore marked).2.1 released)
      { departed.toEnrolled with passed := fun _ member => .inl member } offers
    exact fresh.dropOldest sound.refresh.toWellFormed passed

end Pruning

namespace RecentChain

variable {preset : Preset} {chain next : RecentChain preset rules} {anchor : NodeRef}

/-- What a chain has handed on it has left behind. -/
def LeftBehind (registry : Registry) (anchor : NodeRef) (chain : RecentChain preset rules)
    (log : List (Handover State Context)) : Prop :=
  ∃ names, Departed registry anchor names chain.choice.tree chain.pool log

/-- A block, and the entries that it adds, are registered. -/
structure Registers (registry : Registry) (chain : RecentChain preset rules) (block : Block)
    (interrupted : List Nat → Bool) : Prop where
  admits : registry.pedigree.Admits (rules.blockParent block) (rules.blockRoot block)
    (rules.blockSlot block)
  node : ∀ draft : Draft State Context, chain.choice.containsBlock (rules.blockRoot block) = false →
    chain.draft block interrupted = .ok draft →
    ∀ entry ∈ draft.replayed ++ [draft.block], registry.node entry.stateRoot = entry.ref

theorem find?_commitSlots
    {parentRoot : Root} {ref : NodeRef} {entry : Entry State Context} :
    ∀ {entries : List (Entry State Context)} {chain : RecentChain preset rules},
      (commitSlots parentRoot entries chain).2.pool.find? ref = some entry →
      chain.pool.find? ref = some entry ∨ entry ∈ entries
  | [], _, found => .inl found
  | first :: rest, chain, found => by
    rw [commitSlots] at found
    split at found
    next => exact .inl found
    next =>
      rcases find?_commitSlots found with held | member
      · rcases Pool.find?_insert_cases held with ⟨_, rfl⟩ | old
        · exact .inr List.mem_cons_self
        · exact .inl old
      · exact .inr (List.mem_cons_of_mem _ member)

/-- What is committed was in the chain before, or belongs to the draft. -/
theorem find?_commit
    {draft : Draft State Context} {ref : NodeRef} {entry : Entry State Context}
    (found : (chain.commit draft).2.pool.find? ref = some entry) :
    chain.pool.find? ref = some entry ∨ entry ∈ draft.replayed ++ [draft.block] := by
  have replayed : ∀ {slots : RecentChain preset rules} {answer : Except Error Unit},
      commitSlots draft.parentRoot draft.replayed chain = (answer, slots) →
      slots.pool.find? ref = some entry →
      chain.pool.find? ref = some entry ∨ entry ∈ draft.replayed ++ [draft.block] := by
    intro slots answer committed held
    rw [← show (commitSlots draft.parentRoot draft.replayed chain).2 = slots by
      rw [committed]] at held
    exact (find?_commitSlots held).imp_right (List.mem_append_left _)
  unfold commit at found
  split at found
  next committed => exact replayed committed found
  next slots committed =>
    dsimp only at found
    split at found
    next => exact replayed committed found
    next =>
      rcases Pool.find?_insert_cases found with ⟨_, rfl⟩ | old
      · exact .inr (List.mem_append_right _ List.mem_cons_self)
      · exact replayed committed old

/-- The entries of a draft agree with a pedigree if the block does. -/
theorem fits_of_draft
    {pedigree : Pedigree} {block : Block} {interrupted : List Nat → Bool}
    {draft : Draft State Context} (stocked : Stocked rules inRange chain.choice.tree chain.pool)
    (drafted : chain.draft block interrupted = .ok draft)
    (admitted : pedigree.Admits (rules.blockParent block) (rules.blockRoot block)
      (rules.blockSlot block)) :
    ∀ entry ∈ draft.replayed ++ [draft.block], pedigree.Fits entry := by
  obtain ⟨previous, last, isDraft⟩ := exists_drafted stocked drafted
  intro entry member parentRoot parent
  rcases List.mem_append.1 member with slot | isBlock
  · rw [isDraft.replayed.parentRoot_eq entry slot] at parent
    cases parent
  · obtain rfl := List.mem_singleton.1 isBlock
    obtain rfl := Option.some.inj (parent.symm.trans isDraft.parent)
    rw [show draft.block.blockRoot = _ from congrArg NodeRef.root isDraft.ref,
      show draft.block.slot = _ from congrArg NodeRef.slot isDraft.ref]
    exact admitted

theorem Registers.lists
    {block : Block} {interrupted : List Nat → Bool} {draft : Draft State Context}
    (registers : Registers registry chain block interrupted)
    (stocked : Stocked rules inRange chain.choice.tree chain.pool)
    (isNew : chain.choice.containsBlock (rules.blockRoot block) = false)
    (drafted : chain.draft block interrupted = .ok draft) :
    ∀ entry ∈ draft.replayed ++ [draft.block], registry.Lists entry := fun entry member =>
  ⟨fits_of_draft stocked drafted registers.admits entry member,
    registers.node draft isNew drafted entry member⟩

namespace LeftBehind

variable {registry : Registry} {anchor : NodeRef}

theorem recounts
    (leftBehind : LeftBehind registry anchor chain log) (recounts : chain.Recounts next) :
    LeftBehind registry anchor next log := by
  obtain ⟨names, departed⟩ := leftBehind
  obtain ⟨choice, recounted, rfl⟩ := recounts
  exact ⟨names, departed.congr recounted.shape⟩

theorem setPin (leftBehind : LeftBehind registry anchor chain log) (pin : NodeRef) :
    LeftBehind registry anchor (chain.setPin pin).2 log := by
  unfold RecentChain.setPin ForkChoice.setPin
  by_cases present : chain.choice.tree.contains pin = true
  · rw [if_pos present]
    exact leftBehind
  · rw [if_neg present]
    exact leftBehind

theorem grown
    {grown : RecentChain preset rules} {added : List (Entry State Context)}
    (leftBehind : LeftBehind registry anchor chain log)
    (stocked : Stocked rules inRange chain.choice.tree chain.pool)
    (growth : Grown inRange chain added grown)
    (lists : ∀ ref entry, grown.pool.find? ref = some entry → registry.Lists entry) :
    LeftBehind registry anchor grown log := by
  induction growth with
  | refl => exact leftBehind
  | join growth joins ih =>
    have grownStocked := growth.stocked stocked
    have earlier := ih fun ref entry found =>
      lists ref entry ((Grown.refl.join joins).find?_of_find? grownStocked found)
    obtain ⟨names, departed⟩ := earlier
    exact ⟨_, departed.push grownStocked joins (lists _ _ (Pool.find?_insert_self _ _))⟩

theorem adopt
    {entry : Entry State Context} (leftBehind : LeftBehind registry anchor chain log)
    (sound : Sound chain.choice.tree)
    (adopted : chain.adopt entry (watching receive) (state, log) =
      (outcome, next, after, logAfter)) :
    LeftBehind registry anchor next logAfter := by
  have adoption := adopt_adoption adopted
  obtain ⟨names, departed⟩ := leftBehind
  obtain ⟨limits, choice, pool⟩ := next
  cases adoption with
  | unchanged => exact ⟨names, departed⟩
  | justify recounted _ _ => exact ⟨names, departed.congr recounted.shape⟩
  | finalize recounted _ _ _ _ _ done =>
    obtain ⟨pruned, _⟩ := ForkChoice.finalizeAt_spec done
    exact ⟨names, (departed.congr recounted.shape).prune (recounted.sound sound) pruned⟩

theorem sweep
    (leftBehind : LeftBehind registry anchor chain log)
    (swept : chain.sweep (watching receive) (state, log) = (outcome, next, after, logAfter)) :
    LeftBehind registry anchor next logAfter := by
  obtain ⟨names, departed⟩ := leftBehind
  unfold RecentChain.sweep Pool.sweep at swept
  split at swept
  next failed =>
    split at failed
    next =>
      cases failed
      cases swept
      exact ⟨names, departed⟩
    next =>
      cases swept
      obtain ⟨enrolled, same⟩ := departed.toEnrolled.discard failed
      exact ⟨names, { enrolled with annals := departed.annals, gone := same ▸ departed.gone }⟩

theorem addBlock_noted
    (leftBehind : LeftBehind registry anchor chain log)
    (stocked : Stocked rules inRange chain.choice.tree chain.pool) (block : Block)
    (interrupted : List Nat → Bool) (receive : EntryReceiver State Context store) (state : store)
    (allowed : ∀ slot ≤ rules.blockSlot block, inRange slot)
    (registers : Registers registry chain block interrupted) :
    LeftBehind registry anchor (chain.addBlock block interrupted receive state).2.1
      (chain.noted log (.addBlock block interrupted receive state)) := by
  rw [← addBlock_watching chain block interrupted receive state log]
  generalize added : chain.addBlock block interrupted (watching receive) (state, log) = result
  obtain ⟨outcome, next, after, logAfter⟩ := result
  simp only [noted, added]
  rcases addBlock_cases stocked allowed added with
    ⟨rfl, same⟩ | ⟨draft, grown, answer, isNew, drafted, committed, growth, settled⟩
  · cases same
    exact leftBehind
  · obtain ⟨_, adopted, ⟨between, logBetween⟩, adopts, rest⟩ := settle_cases settled
    have ⟨_, departed⟩ := leftBehind
    have grownLeft := leftBehind.grown stocked growth fun ref entry found => by
      rw [← show (chain.commit draft).2 = grown by rw [committed]] at found
      rcases find?_commit found with old | new
      · exact departed.held ref entry old
      · exact registers.lists stocked isNew drafted entry new
    have adoptedLeft := grownLeft.adopt (growth.stocked stocked).sound adopts
    rcases rest with ⟨rfl, same⟩ | ⟨_, swept⟩
    · cases same
      exact adoptedLeft
    · exact adoptedLeft.sweep swept

variable {entry : Entry State Context}

theorem find?_eq_none
    (leftBehind : LeftBehind registry anchor chain log)
    (stocked : Stocked rules inRange chain.choice.tree chain.pool) (member : entry ∈ taken log) :
    chain.pool.find? entry.ref = none := by
  obtain ⟨_, departed⟩ := leftBehind
  cases found : chain.pool.find? entry.ref with
  | none => rfl
  | some other =>
    obtain ⟨position, node, here, named⟩ := stocked.present _ _ found
    have absent := (departed.gone entry member).position?_eq_none stocked.sound.toIndexed
    rw [← named, stocked.sound.position?_ref here] at absent
    cases absent

theorem byBlockSlot?_eq_none
    (leftBehind : LeftBehind registry anchor chain log)
    (stocked : Stocked rules inRange chain.choice.tree chain.pool) (member : entry ∈ taken log) :
    chain.byBlockSlot? entry.blockRoot entry.slot = none :=
  leftBehind.find?_eq_none stocked member

theorem closest?_eq_none
    (leftBehind : LeftBehind registry anchor chain log)
    (stocked : Stocked rules inRange chain.choice.tree chain.pool) (member : entry ∈ taken log) :
    chain.closest? entry.blockRoot entry.slot = none := by
  obtain ⟨_, departed⟩ := leftBehind
  have unresolved := stocked.sound.resolve?_of_allLater (departed.gone entry member).later
  simp only [closest?, show (⟨entry.blockRoot, entry.slot⟩ : NodeRef) = entry.ref from rfl,
    unresolved]
  rfl

theorem byStateRoot?_eq_none
    (leftBehind : LeftBehind registry anchor chain log)
    (stocked : Stocked rules inRange chain.choice.tree chain.pool) (member : entry ∈ taken log) :
    chain.byStateRoot? entry.stateRoot = none := by
  have ⟨_, departed⟩ := leftBehind
  unfold byStateRoot?
  cases known : chain.pool.byStateRoot.find? entry.stateRoot with
  | none => rfl
  | some ref =>
    have named := departed.indexed _ _ known
    rw [(departed.taken_lists entry member).node] at named
    subst named
    exact leftBehind.find?_eq_none stocked member

/-- The root of a block that was handed on may still have later slots in the chain, but not the
block itself. -/
theorem byBlock?_eq_none
    (leftBehind : LeftBehind registry anchor chain log)
    (stocked : Stocked rules inRange chain.choice.tree chain.pool) (member : entry ∈ taken log)
    (hasBlock : entry.hasBlock = true) : chain.byBlock? entry.blockRoot = none := by
  have ⟨_, departed⟩ := leftBehind
  have atBlock := (departed.taken_lists entry member).slot_eq hasBlock
  unfold byBlock?
  cases known : chain.choice.tree.earliestSlot? entry.blockRoot with
  | none => rfl
  | some slot =>
    cases found : chain.pool.find? ⟨entry.blockRoot, slot⟩ with
    | none => simp [found]
    | some other =>
      have empty : other.hasBlock = false := by
        by_contra filled
        have named := departed.named _ _ found
        have atSlot := (departed.held _ _ found).slot_eq (by simpa using filled)
        rw [show other.blockRoot = entry.blockRoot from congrArg NodeRef.root named, ← atBlock,
          show other.slot = slot from congrArg NodeRef.slot named] at atSlot
        rw [atSlot, show (⟨entry.blockRoot, entry.slot⟩ : NodeRef) = entry.ref from rfl,
          leftBehind.find?_eq_none stocked member] at found
        cases found
      simp [found, empty]

end LeftBehind

theorem ofAnchor?_leftBehind
    {limits : Limits} {root parentRoot : Root} {start : State}
    (started : ofAnchor? limits root parentRoot start = .ok chain)
    (admitted : registry.pedigree.Admits parentRoot root (rules.stateSlot start))
    (node : registry.node (rules.stateRoot start) = ⟨root, rules.stateSlot start⟩) :
    ∃ anchor, chain.earliest? = some anchor ∧ anchor.hasBlock = true ∧
      LeftBehind registry anchor.ref chain [] := by
  obtain ⟨context, _, made⟩ := exists_of_bind_eq_ok started
  cases made
  let anchor : Entry State Context :=
    { slot := rules.stateSlot start, blockRoot := root, parentRoot := some parentRoot,
      stateRoot := rules.stateRoot start, context := context, state := start }
  have lists : registry.Lists anchor := by
    refine ⟨fun parent isParent => ?_, node⟩
    obtain rfl := Option.some.inj isParent
    exact admitted
  have nothing :
      Enrolled registry ({ anchorSlot := rules.stateSlot start } : Pool State Context) [] :=
    { named := nofun, held := nofun, indexed := nofun, logged := fun _ member => by cases member }
  exact ⟨anchor, Pool.find?_insert_self _ anchor, rfl, [anchor.ref], {
    toEnrolled := nothing.insert lists
    annals := annals_ofAnchor admitted.2
    gone := fun _ member => absurd member List.not_mem_nil }⟩

end RecentChain

end BeaconChain
