import BeaconChain.Proofs.RecentChain.Lineage

/-!
# Drafts and how they are committed

The entries of a draft follow one another, from the entry of the node at which the
block's parent ends.  Committing them appends one node for each, so that the tree and the
pool grow together.
-/

namespace BeaconChain

open BlockTree

section Drafts

variable {State Block Context : Type} {rules : Rules State Block Context}

/-- Entries of empty slots that follow one another, from an entry up to a last one. -/
inductive Replayed (rules : Rules State Block Context) :
    Entry State Context → List (Entry State Context) → Entry State Context → Prop
  | refl (entry : Entry State Context) : Replayed rules entry [] entry
  | step {previous next last : Entry State Context} {rest : List (Entry State Context)}
    (follows : Follows rules previous next) (empty : next.parentRoot = none)
    (replayed : Replayed rules next rest last) : Replayed rules previous (next :: rest) last

theorem Follows.of_empty
    {previous next : Entry State Context} (follows : Follows rules previous next)
    (empty : next.parentRoot = none) :
    next.blockRoot = previous.blockRoot ∧ next.slot = previous.slot + 1 := by
  cases follows with
  | slot sameRoot nextSlot => exact ⟨sameRoot, nextSlot⟩
  | block _ _ _ _ parent =>
    rw [empty] at parent
    cases parent

namespace Replayed

variable {previous last : Entry State Context} {entries : List (Entry State Context)}

theorem getLastD_eq (replayed : Replayed rules previous entries last) :
    entries.getLastD previous = last := by
  induction replayed with
  | refl => rfl
  | step _ _ _ ih => rw [List.getLastD_cons, ih]

theorem slot_eq (replayed : Replayed rules previous entries last) :
    last.slot = previous.slot + entries.length := by
  induction replayed with
  | refl => rfl
  | step follows empty _ ih =>
    rw [ih, (follows.of_empty empty).2, List.length_cons]
    omega

theorem parentRoot_eq (replayed : Replayed rules previous entries last) :
    ∀ entry ∈ entries, entry.parentRoot = none := by
  induction replayed with
  | refl => simp
  | step _ empty _ ih => exact List.forall_mem_cons.2 ⟨empty, ih⟩

theorem slot_le (replayed : Replayed rules previous entries last) :
    ∀ entry ∈ entries, entry.slot ≤ last.slot := by
  induction replayed with
  | refl => simp
  | step _ _ replayed ih =>
    intro entry member
    rcases List.mem_cons.1 member with rfl | member
    · rw [replayed.slot_eq]
      exact Nat.le_add_right _ _
    · exact ih entry member

theorem empty_or (replayed : Replayed rules previous entries last) :
    last.parentRoot = none ∨ entries = [] ∧ last = previous := by
  induction replayed with
  | refl => exact .inr ⟨rfl, rfl⟩
  | step _ empty _ ih =>
    rcases ih with last | ⟨_, rfl⟩
    · exact .inl last
    · exact .inl empty

theorem blockRoot_eq (replayed : Replayed rules previous entries last) :
    ∀ entry ∈ entries, entry.blockRoot = previous.blockRoot := by
  induction replayed with
  | refl => simp
  | step follows empty _ ih =>
    have root := (follows.of_empty empty).1
    exact List.forall_mem_cons.2 ⟨root, fun entry member => (ih entry member).trans root⟩

theorem last_mem_or (replayed : Replayed rules previous entries last) :
    last ∈ entries ∨ last = previous := by
  induction replayed with
  | refl => exact .inr rfl
  | step _ _ _ ih =>
    left
    rcases ih with member | rfl
    · exact List.mem_cons_of_mem _ member
    · exact List.mem_cons_self

theorem last_blockRoot (replayed : Replayed rules previous entries last) :
    last.blockRoot = previous.blockRoot := by
  rcases replayed.last_mem_or with member | rfl
  · exact replayed.blockRoot_eq last member
  · rfl

end Replayed

theorem follows_of_replaySlot
    {root : Root} {previous next : Entry State Context} (ofRoot : previous.blockRoot = root)
    (replayed : RecentChain.replaySlot rules root (previous.slot + 1) previous = .ok next) :
    Follows rules previous next ∧ next.parentRoot = none ∧ next.blockRoot = root := by
  obtain ⟨⟨state, context⟩, outside, made⟩ := exists_of_bind_eq_ok replayed
  cases made
  exact ⟨.slot ofRoot.symm rfl rfl (Error.eq_ok_of_ofOutside outside), rfl, rfl⟩

theorem replayed_of_replaySlots
    {interrupted : List Nat → Bool} {root : Root} :
    ∀ {count : Nat} {previous : Entry State Context} {before result : List (Entry State Context)},
      previous.blockRoot = root →
      RecentChain.replaySlots rules interrupted root count previous before = .ok result →
      ∃ added last, result = before ++ added ∧ added.length = count ∧
        Replayed rules previous added last
  | 0, previous, before, result, _, done => by
    cases done
    exact ⟨[], previous, (List.append_nil _).symm, rfl, .refl previous⟩
  | count + 1, previous, before, result, ofRoot, done => by
    rw [RecentChain.replaySlots] at done
    split at done
    next => cases done
    next =>
      split at done
      next => cases done
      next next passed =>
        obtain ⟨follows, empty, nextRoot⟩ := follows_of_replaySlot ofRoot passed
        obtain ⟨added, last, rfl, rfl, replayed⟩ := replayed_of_replaySlots nextRoot done
        exact ⟨next :: added, last, by simp, rfl, .step follows empty replayed⟩

namespace RecentChain

variable {preset : Preset} {chain : RecentChain preset rules} {block : Block}

/-- The entry from which a block continues is that of the latest node of its parent. -/
theorem preState_spec
    {inRange : Nat → Prop} (stocked : Stocked rules inRange chain.choice.tree chain.pool)
    {entry : Entry State Context} (found : chain.preState block = .ok entry) :
    ∃ (position : Nat) (node : Node) (earliest : Nat),
      IsLatest chain.choice.tree.nodes
        ⟨rules.blockParent block, rules.blockSlot block⟩ position node ∧
      entryAt? chain.choice.tree chain.pool position = some entry ∧
      chain.choice.tree.earliestSlot? (rules.blockParent block) = some earliest ∧
      earliest < rules.blockSlot block := by
  unfold preState at found
  dsimp only at found
  split at found
  next => cases found
  next earliest known =>
    split at found
    next => cases found
    next newer =>
      split at found
      next => cases found
      next closest near =>
        split at found
        next => cases found
        next =>
          split at found
          next => cases found
          next =>
            cases found
            obtain ⟨⟨ref, position⟩, resolved, held⟩ := Option.bind_eq_some_iff.1 near
            obtain ⟨node, latest, rfl⟩ := stocked.sound.resolve?_eq_some_iff.1 resolved
            exact ⟨position, node, earliest, latest,
              entryAt?_eq_some_iff.2 ⟨node, latest.here, held⟩, known, Nat.lt_of_not_le newer⟩

/-- The entries of a draft, as they follow from the entry before them. -/
structure Drafted (chain : RecentChain preset rules) (block : Block)
    (draft : Draft State Context) (previous last : Entry State Context) : Prop where
  preState : chain.preState block = .ok previous
  parentRoot : draft.parentRoot = rules.blockParent block
  replayed : Replayed rules previous draft.replayed last
  count : draft.replayed.length = rules.blockSlot block - previous.slot
  ref : draft.block.ref = ⟨rules.blockRoot block, rules.blockSlot block⟩
  parent : draft.block.parentRoot = some (rules.blockParent block)
  applied : rules.applyBlock last.state last.context block chain.limits.verifyBlocks =
    .ok (draft.block.state, draft.block.context)

theorem exists_drafted
    {inRange : Nat → Prop} (stocked : Stocked rules inRange chain.choice.tree chain.pool)
    {interrupted : List Nat → Bool} {draft : Draft State Context}
    (drafted : chain.draft block interrupted = .ok draft) :
    ∃ previous last, Drafted chain block draft previous last := by
  obtain ⟨previous, found, drafted⟩ := exists_of_bind_eq_ok drafted
  obtain ⟨entries, passed, drafted⟩ := exists_of_bind_eq_ok drafted
  obtain ⟨position, node, _, latest, known, _⟩ := preState_spec stocked found
  have named := congrArg NodeRef.root (stocked.ref_eq latest.here known)
  obtain ⟨added, last, whole, count, replayed⟩ :=
    replayed_of_replaySlots (named.trans latest.ofRoot) passed
  rw [List.nil_append] at whole
  subst whole
  dsimp only at drafted
  split at drafted
  next => cases drafted
  next =>
    obtain ⟨⟨state, context⟩, outside, made⟩ := exists_of_bind_eq_ok drafted
    cases made
    rw [replayed.getLastD_eq] at outside
    exact ⟨previous, last, found, rfl, replayed, count, rfl, rfl, Error.eq_ok_of_ofOutside outside⟩

end RecentChain

end Drafts

/-! ## Committing a draft -/

namespace RecentChain

variable {preset : Preset} {State Block Context : Type} {rules : Rules State Block Context}
  {inRange : Nat → Prop}

/-- The chain after a node and its entry have joined it. -/
def join (chain : RecentChain preset rules) (node : Node) (entry : Entry State Context) :
    RecentChain preset rules :=
  { chain with
    choice := { chain.choice with tree := { chain.choice.tree.push node with outdated := true } }
    pool := chain.pool.insert entry }

/-- A chain grows by nodes that join it with their entries, which are listed in order. -/
inductive Grown (inRange : Nat → Prop) (chain : RecentChain preset rules) :
    List (Entry State Context) → RecentChain preset rules → Prop
  | refl : Grown inRange chain [] chain
  | join {added : List (Entry State Context)} {grown : RecentChain preset rules} {node : Node}
    {entry : Entry State Context} (growth : Grown inRange chain added grown)
    (joins : Joins rules inRange grown.choice.tree grown.pool node entry) :
    Grown inRange chain (added ++ [entry]) (grown.join node entry)

namespace Grown

variable {chain grown : RecentChain preset rules} {added : List (Entry State Context)}

theorem trans {further : RecentChain preset rules} {later : List (Entry State Context)}
    (growth : Grown inRange chain added grown) (rest : Grown inRange grown later further) :
    Grown inRange chain (added ++ later) further := by
  induction rest with
  | refl => rwa [List.append_nil]
  | join _ joins ih =>
    rw [← List.append_assoc]
    exact ih.join joins

theorem stocked
    (growth : Grown inRange chain added grown)
    (stocked : Stocked rules inRange chain.choice.tree chain.pool) :
    Stocked rules inRange grown.choice.tree grown.pool := by
  induction growth with
  | refl => exact stocked
  | join _ joins ih => exact ih.push joins

theorem nodes_prefix (growth : Grown inRange chain added grown) :
    chain.choice.tree.nodes <+: grown.choice.tree.nodes := by
  induction growth with
  | refl => exact List.prefix_rfl
  | join _ _ ih => exact ih.trans (List.prefix_append _ _)

theorem choice_eq (growth : Grown inRange chain added grown) :
    grown.choice = { chain.choice with tree := grown.choice.tree } := by
  induction growth with
  | refl => rfl
  | join _ _ ih =>
    simp only [RecentChain.join]
    rw [ih]

theorem finalizedRoot_eq (growth : Grown inRange chain added grown) :
    grown.choice.finalizedRoot = chain.choice.finalizedRoot := by
  rw [growth.choice_eq]
  rfl

/-- No entry is replaced. -/
theorem find?_of_find?
    (growth : Grown inRange chain added grown)
    (stocked : Stocked rules inRange chain.choice.tree chain.pool) {ref : NodeRef}
    {entry : Entry State Context} (found : chain.pool.find? ref = some entry) :
    grown.pool.find? ref = some entry := by
  induction growth with
  | refl => exact found
  | @join _ grown node added growth joins ih =>
    have grownStocked := growth.stocked stocked
    refine (Pool.find?_insert_of_ne grown.pool fun same => ?_).trans ih
    obtain ⟨_, other, here, named⟩ := grownStocked.present _ _ ih
    have absent := grownStocked.sound.toIndexed.position?_eq_none_iff.1
      (joins.fresh grownStocked.sound.toIndexed)
    exact absent other (List.mem_of_getElem? here) (named.trans (same.symm.trans joins.named))

theorem lineage
    {anchor : Entry State Context} {root : Root} {log : List (Handover State Context)} {first : Nat}
    (growth : Grown inRange chain added grown)
    (lineage : Lineage rules inRange anchor root chain.choice.tree chain.pool log first) :
    Lineage rules inRange anchor root grown.choice.tree grown.pool log first := by
  induction growth with
  | refl => exact lineage
  | join _ joins ih => exact ih.push joins

end Grown

theorem joins_slot
    {tree : BlockTree} {pool : Pool State Context} (stocked : Stocked rules inRange tree pool)
    {position : Nat} {latest : Node} {previous next : Entry State Context}
    (here : tree.nodes[position]? = some latest)
    (isLast : ∀ (other : Nat) (found : Node), tree.nodes[other]? = some found →
      found.ref.root = latest.ref.root → found.ref.slot ≤ latest.ref.slot)
    (known : entryAt? tree pool position = some previous) (follows : Follows rules previous next)
    (empty : next.parentRoot = none) (allowed : inRange next.slot) :
    Joins rules inRange tree pool
      (slotNode latest.ref.root (latest.ref.slot + 1) position
        ⟨(rules.justified next.state).epoch, (rules.finalized next.state).epoch⟩) next where
  appendable := .slot _ here isLast
  named := by
    obtain ⟨sameRoot, nextSlot⟩ := follows.of_empty empty
    have named := stocked.ref_eq here known
    exact NodeRef.eq_mk (sameRoot.trans (congrArg NodeRef.root named))
      (nextSlot.trans (congrArg (·.slot + 1) named))
  matched := {
    stamp := rfl
    parentRoot := by
      have sameRoot := (follows.of_empty empty).1
      have named := congrArg NodeRef.root (stocked.ref_eq here known)
      rw [Entry.linkRoot, empty]
      exact (sameRoot.trans named).symm
    hasBlock := by simp [slotNode, Node.hasBlock, Entry.hasBlock, empty] }
  follows above up := by
    cases up
    exact ⟨previous, known, follows⟩
  first hasBlock := by simp [Entry.hasBlock, empty] at hasBlock
  allowed := allowed

/-- Replayed slots join the chain one by one behind the last node of their root. -/
theorem commitSlots_grown
    {previous last : Entry State Context} {entries : List (Entry State Context)}
    (replayed : Replayed rules previous entries last) :
    ∀ {chain : RecentChain preset rules} {position : Nat} {latest : Node},
      Stocked rules inRange chain.choice.tree chain.pool →
      chain.choice.tree.nodes[position]? = some latest →
      entryAt? chain.choice.tree chain.pool position = some previous →
      (entries ≠ [] → ∀ (other : Nat) (found : Node), chain.choice.tree.nodes[other]? = some found →
        found.ref.root = latest.ref.root → found.ref.slot ≤ latest.ref.slot) →
      (∀ entry ∈ entries, inRange entry.slot) →
      ∃ (grown : RecentChain preset rules) (place : Nat) (final : Node),
        commitSlots latest.ref.root entries chain = (.ok (), grown) ∧
        Grown inRange chain entries grown ∧ grown.choice.tree.nodes[place]? = some final ∧
          final.ref.root = latest.ref.root ∧
        entryAt? grown.choice.tree grown.pool place = some last ∧
        (∀ node ∈ grown.choice.tree.nodes,
          node ∈ chain.choice.tree.nodes ∨ node.ref.root = latest.ref.root) ∧
        ∀ entry ∈ entries, grown.pool.find? entry.ref = some entry := by
  induction replayed with
  | refl entry =>
    intro chain position latest _ here known _ _
    exact ⟨chain, position, latest, rfl, .refl, here, rfl, known, fun node member => .inl member,
      fun _ member => absurd member List.not_mem_nil⟩
  | @step previous next last rest follows empty _ ih =>
    intro chain position latest stocked here known isLast allowed
    have isLast := isLast (List.cons_ne_nil _ _)
    have joins :=
      joins_slot stocked here isLast known follows empty (allowed next List.mem_cons_self)
    have inserted := insertSlots_next stocked.sound.toWellFormed here isLast
      ⟨(rules.justified next.state).epoch, (rules.finalized next.state).epoch⟩
    generalize added : slotNode latest.ref.root (latest.ref.slot + 1) position _ = node
      at joins inserted
    have addedRef : node.ref = ⟨latest.ref.root, latest.ref.slot + 1⟩ := by
      rw [← added]
      rfl
    have nextSlot : next.slot = latest.ref.slot + 1 :=
      congrArg NodeRef.slot (joins.named.trans addedRef)
    have isLastAfter : ∀ (other : Nat) (found : Node),
        (chain.join node next).choice.tree.nodes[other]? = some found →
        found.ref.root = node.ref.root → found.ref.slot ≤ node.ref.slot := by
      intro other found there sameRoot
      rcases getElem?_concat_eq_some_iff.1 there with old | ⟨_, rfl⟩
      · rw [addedRef] at sameRoot ⊢
        exact Nat.le_succ_of_le (isLast other found old sameRoot)
      · exact Nat.le_refl _
    obtain ⟨grown, place, final, committed, growth, finalHere, finalRoot,
        lastKnown, origin, held⟩ :=
      ih (stocked.push joins) (getElem?_concat_eq_some_iff.2 (.inr ⟨rfl, rfl⟩))
        ((entryAt?_push (joins.fresh stocked.sound.toIndexed) stocked.sound.toIndexed
          joins.named).2 (.inr ⟨rfl, rfl⟩))
        (fun _ => isLastAfter) (fun entry member => allowed entry (List.mem_cons_of_mem _ member))
    rw [addedRef] at committed finalRoot origin
    refine ⟨grown, place, final, ?_, (Grown.refl.join joins).trans growth, finalHere, finalRoot,
      lastKnown, fun found member => ?_, fun entry member => ?_⟩
    · rw [commitSlots, ForkChoice.insertSlots, nextSlot, inserted]
      exact committed
    · rcases origin found member with before | sameRoot
      · rcases List.mem_append.1 before with old | new
        · exact .inl old
        · rw [List.mem_singleton.1 new, addedRef]
          exact .inr rfl
      · exact .inr sameRoot
    · rcases List.mem_cons.1 member with rfl | later
      · exact growth.find?_of_find? (stocked.push joins) (Pool.find?_insert_self _ _)
      · exact held entry later

theorem joins_block
    {tree : BlockTree} {pool : Pool State Context} (stocked : Stocked rules inRange tree pool)
    {position earlier : Nat} {preState older : Node} {last entry : Entry State Context}
    (here : tree.nodes[position]? = some preState) (there : tree.nodes[earlier]? = some older)
    (sameRoot : older.ref.root = preState.ref.root) (before : older.ref.slot < preState.ref.slot)
    (fresh : ∀ node ∈ tree.nodes, node.ref.root ≠ entry.blockRoot)
    (known : entryAt? tree pool position = some last) (follows : Follows rules last entry)
    (sameSlot : entry.slot = last.slot) (allowed : inRange entry.slot) :
    Joins rules inRange tree pool
      (blockNode entry.blockRoot position preState
        ⟨(rules.justified entry.state).epoch, (rules.finalized entry.state).epoch⟩) entry where
  appendable := .block entry.blockRoot _ here there sameRoot before fresh trivial
  named := by
    have named := stocked.ref_eq here known
    exact NodeRef.eq_mk rfl (sameSlot.trans (congrArg NodeRef.slot named))
  matched := by
    have named := congrArg NodeRef.root (stocked.ref_eq here known)
    have different := fresh preState (List.mem_of_getElem? here)
    cases follows with
    | slot _ nextSlot => omega
    | block _ _ _ _ parent =>
      exact {
        stamp := rfl
        parentRoot := by
          rw [Entry.linkRoot, parent]
          exact named.symm
        hasBlock := by simp [blockNode, Node.hasBlock, Entry.hasBlock, parent, different] }
  follows above up := by
    cases up
    exact ⟨last, known, follows⟩
  first _ := by
    intro other found place ofRoot
    rcases getElem?_concat_eq_some_iff.1 place with old | ⟨rfl, _⟩
    · exact absurd ofRoot (fresh found (List.mem_of_getElem? old))
    · exact Nat.le_refl _
  allowed := allowed

theorem Drafted.last_empty
    {chain : RecentChain preset rules} {block : Block} {draft : Draft State Context}
    {previous last : Entry State Context} (isDraft : Drafted chain block draft previous last)
    (stocked : Stocked rules inRange chain.choice.tree chain.pool) : last.parentRoot = none := by
  rcases isDraft.replayed.empty_or with empty | ⟨noSlots, rfl⟩
  · exact empty
  obtain ⟨position, latest, earliest, isLatest, known, earliestKnown, newer⟩ :=
    preState_spec stocked isDraft.preState
  obtain ⟨first, older, firstHere, olderNamed, _⟩ :=
    stocked.sound.earliestSlot?_eq_some_iff.1 earliestKnown
  have named := stocked.ref_eq isLatest.here known
  have sameSlot : last.slot = latest.ref.slot := congrArg NodeRef.slot named
  have sameRoot : older.ref.root = latest.ref.root := by rw [olderNamed, isLatest.ofRoot]
  have count := isDraft.count
  rw [noSlots, List.length_nil] at count
  cases parent : last.parentRoot with
  | none => rfl
  | some root =>
    have isFirst := stocked.filled position last known (by simp [Entry.hasBlock, parent])
    have notLater :=
      isFirst first older firstHere (sameRoot.trans (congrArg NodeRef.root named).symm)
    have slots := (stocked.sound.slot_le_iff firstHere isLatest.here sameRoot.symm).2 notLater
    rw [olderNamed] at slots
    have bound := isLatest.notLater
    simp only at slots bound
    omega

theorem Drafted.last_slot
    {chain : RecentChain preset rules} {block : Block} {draft : Draft State Context}
    {previous last : Entry State Context} (isDraft : Drafted chain block draft previous last)
    (notLater : previous.slot ≤ rules.blockSlot block) : last.slot = rules.blockSlot block := by
  have slots := isDraft.replayed.slot_eq
  rw [isDraft.count] at slots
  omega

/-- Slots are replayed only behind the last node of the parent. -/
theorem Drafted.isLast
    {chain : RecentChain preset rules} {block : Block} {draft : Draft State Context}
    {previous last : Entry State Context} (isDraft : Drafted chain block draft previous last)
    (stocked : Stocked rules inRange chain.choice.tree chain.pool) {position : Nat} {latest : Node}
    (isLatest : IsLatest chain.choice.tree.nodes ⟨rules.blockParent block, rules.blockSlot block⟩
      position latest) (sameSlot : previous.slot = latest.ref.slot) :
    draft.replayed ≠ [] → ∀ (other : Nat) (found : Node),
      chain.choice.tree.nodes[other]? = some found → found.ref.root = latest.ref.root →
      found.ref.slot ≤ latest.ref.slot := by
  intro someSlots
  apply stocked.sound.isLast_of_isLatest isLatest
  have := List.length_pos_iff.2 someSlots
  have := isDraft.count
  simp only
  omega

theorem Grown.earliestSlot?_eq
    {chain grown : RecentChain preset rules} {added : List (Entry State Context)}
    (growth : Grown inRange chain added grown)
    (stocked : Stocked rules inRange chain.choice.tree chain.pool) {root : Root} {slot : Nat}
    (known : chain.choice.tree.earliestSlot? root = some slot) :
    grown.choice.tree.earliestSlot? root = some slot := by
  obtain ⟨first, older, here, named, isFirst⟩ := stocked.sound.earliestSlot?_eq_some_iff.1 known
  obtain ⟨extra, whole⟩ := growth.nodes_prefix
  have inside := (List.getElem?_eq_some_iff.1 here).1
  rw [(growth.stocked stocked).sound.earliestSlot?_eq_some_iff, ← whole]
  refine ⟨first, older, (List.getElem?_append_left inside).trans here, named, ?_⟩
  intro other found there ofRoot
  by_cases old : other < chain.choice.tree.nodes.length
  · rw [List.getElem?_append_left old] at there
    exact isFirst other found there ofRoot
  · omega

/-- A block that fills the slot of a node is inserted as a single node, which joins the chain
together with its entry. -/
theorem insertBlock_joins
    {chain : RecentChain preset rules}
    (stocked : Stocked rules inRange chain.choice.tree chain.pool)
    {position earliest : Nat} {filled : Node} {last entry : Entry State Context}
    (here : chain.choice.tree.nodes[position]? = some filled)
    (earliestKnown : chain.choice.tree.earliestSlot? filled.ref.root = some earliest)
    (newer : earliest < entry.slot)
    (fresh : ∀ node ∈ chain.choice.tree.nodes, node.ref.root ≠ entry.blockRoot)
    (known : entryAt? chain.choice.tree chain.pool position = some last)
    (follows : Follows rules last entry) (sameSlot : entry.slot = last.slot)
    (allowed : inRange entry.slot) :
    ∃ node, chain.choice.insertBlock filled.ref.root entry.blockRoot entry.slot
        (rules.justified entry.state) (rules.finalized entry.state) =
          (true, (chain.join node entry).choice) ∧
      Joins rules inRange chain.choice.tree chain.pool node entry := by
  have filledSlot : entry.slot = filled.ref.slot :=
    sameSlot.trans (congrArg NodeRef.slot (stocked.ref_eq here known))
  obtain ⟨first, older, firstHere, olderNamed, _⟩ :=
    stocked.sound.earliestSlot?_eq_some_iff.1 earliestKnown
  have joins := joins_block stocked here firstHere (by rw [olderNamed])
    (by rw [olderNamed, ← filledSlot]; exact newer) fresh known follows sameSlot allowed
  have inserted := insertBlock_filling stocked.sound.toWellFormed here
    (stocked.sound.containsRoot_eq_false_iff.2 fresh) earliestKnown (by omega)
    ⟨(rules.justified entry.state).epoch, (rules.finalized entry.state).epoch⟩
  refine ⟨_, ?_, joins⟩
  rw [← filledSlot] at inserted
  simp only [ForkChoice.insertBlock, inserted]
  rfl

/-- A draft of a new block can always be committed: its slots join the chain, and then the
block does. -/
theorem commit_joins
    {chain : RecentChain preset rules} {block : Block} {interrupted : List Nat → Bool}
    {draft : Draft State Context} (stocked : Stocked rules inRange chain.choice.tree chain.pool)
    (isNew : chain.choice.containsBlock (rules.blockRoot block) = false)
    (drafted : chain.draft block interrupted = .ok draft)
    (allowed : ∀ slot ≤ rules.blockSlot block, inRange slot) :
    ∃ replayed node, chain.commit draft = (.ok (), replayed.join node draft.block) ∧
      Grown inRange chain draft.replayed replayed ∧
      Joins rules inRange replayed.choice.tree replayed.pool node draft.block ∧
      ∀ entry ∈ draft.replayed, replayed.pool.find? entry.ref = some entry := by
  obtain ⟨previous, last, isDraft⟩ := exists_drafted stocked drafted
  obtain ⟨position, latest, earliest, isLatest, known, earliestKnown, newer⟩ :=
    preState_spec stocked isDraft.preState
  have named := stocked.ref_eq isLatest.here known
  have sameSlot : previous.slot = latest.ref.slot := congrArg NodeRef.slot named
  have lastSlot := isDraft.last_slot (sameSlot ▸ isLatest.notLater)
  have blockSlot : draft.block.slot = rules.blockSlot block := congrArg NodeRef.slot isDraft.ref
  have blockRoot : draft.block.blockRoot = rules.blockRoot block :=
    congrArg NodeRef.root isDraft.ref
  -- the slots before the block
  obtain ⟨grown, place, final, committed, growth, finalHere, finalRoot, lastKnown, origin, held⟩ :=
    commitSlots_grown isDraft.replayed stocked isLatest.here known
      (isDraft.isLast stocked isLatest sameSlot) fun entry member =>
        allowed _ (lastSlot ▸ isDraft.replayed.slot_le entry member)
  have grownStocked := growth.stocked stocked
  have ofParent : final.ref.root = rules.blockParent block := finalRoot.trans isLatest.ofRoot
  -- the block itself
  have stillEarliest := growth.earliestSlot?_eq stocked earliestKnown
  rw [← ofParent] at stillEarliest
  have absent := stocked.sound.containsRoot_eq_false_iff.1 isNew
  have fresh : ∀ node ∈ grown.choice.tree.nodes, node.ref.root ≠ draft.block.blockRoot := by
    intro node member
    rw [blockRoot]
    rcases origin node member with old | sameRoot
    · exact absent node old
    · rw [sameRoot]
      exact absent latest (List.mem_of_getElem? isLatest.here)
  have follows : Follows rules last draft.block := by
    refine .block block chain.limits.verifyBlocks (isDraft.last_empty stocked) blockRoot ?_
      (blockSlot.trans lastSlot.symm) isDraft.applied
    rw [isDraft.parent, ← ofParent, ← grownStocked.ref_eq finalHere lastKnown]
    rfl
  obtain ⟨node, inserted, joins⟩ := insertBlock_joins grownStocked finalHere stillEarliest
    (blockSlot.symm ▸ newer) fresh lastKnown follows (blockSlot.trans lastSlot.symm)
    (allowed _ (Nat.le_of_eq blockSlot))
  rw [isLatest.ofRoot] at committed
  rw [ofParent] at inserted
  refine ⟨grown, node, ?_, growth, joins, held⟩
  simp only [commit, isDraft.parentRoot, committed, inserted]
  rfl

/-- The chain grows by the entries of the draft. -/
theorem commit_grown
    {chain : RecentChain preset rules} {block : Block} {interrupted : List Nat → Bool}
    {draft : Draft State Context} (stocked : Stocked rules inRange chain.choice.tree chain.pool)
    (isNew : chain.choice.containsBlock (rules.blockRoot block) = false)
    (drafted : chain.draft block interrupted = .ok draft)
    (allowed : ∀ slot ≤ rules.blockSlot block, inRange slot) :
    ∃ grown, chain.commit draft = (.ok (), grown) ∧
      Grown inRange chain (draft.replayed ++ [draft.block]) grown := by
  obtain ⟨_, _, committed, growth, joins, _⟩ := commit_joins stocked isNew drafted allowed
  exact ⟨_, committed, growth.join joins⟩

end RecentChain

end BeaconChain
