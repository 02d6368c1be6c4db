import BeaconChain.Proofs.BlockTree.Reordered
import BeaconChain.Proofs.RecentChain.Agreement

/-!
# Chains that have kept everything

A chain whose blocks bring no later checkpoints hands nothing on: every node keeps its entry, no
votes are counted, and the fork choice is the one with which the chain started, over a larger
tree.  What such a chain holds is told by its blocks: the entries are exactly those that can be
made of the anchor on the way to one of the blocks.
-/

open Relation

namespace BeaconChain

open BlockTree

variable {State Block Context : Type} {rules : Rules State Block Context} {inRange : Nat → Prop}
  {verified : Bool} {applied : Block → Prop} {anchor entry : Entry State Context}

/-- Every node has its entry, every node but the first its vote parent, and none a weight. -/
structure Unpruned (tree : BlockTree) (pool : Pool State Context) : Prop where
  held : ∀ node ∈ tree.nodes, ∃ entry, pool.find? node.ref = some entry
  tied : ∀ position node, tree.nodes[position]? = some node → position ≠ 0 →
    ∃ above, node.voteParent = some above
  weightless : ∀ node ∈ tree.nodes, node.weight = 0

namespace Unpruned

variable {tree : BlockTree} {pool : Pool State Context} {node : Node}

theorem voteParent_of_appendable
    {admits : Root → Root → Nat → Prop} (wellFormed : WellFormed tree)
    (tied : ∀ position node, tree.nodes[position]? = some node → position ≠ 0 →
      ∃ above, node.voteParent = some above)
    (appendable : Appendable admits tree node) : ∃ above, node.voteParent = some above := by
  cases appendable with
  | slot stamp here last => exact ⟨_, rfl⟩
  | @block position earlier preState older root stamp here there sameRoot before =>
    -- the slot that the block fills is not the first of its root, as an older one is known
    have notFirst : position ≠ 0 := by
      intro isFirst
      have notLater := (wellFormed.slot_le_iff there here sameRoot.symm).2 (isFirst ▸ Nat.zero_le _)
      omega
    exact tied position preState here notFirst

theorem push
    (unpruned : Unpruned tree pool) (stocked : Stocked rules inRange tree pool)
    (joins : Joins rules inRange tree pool node entry) :
    Unpruned { tree.push node with outdated := true } (pool.insert entry) where
  held other member := by
    rcases List.mem_append.1 member with old | new
    · obtain ⟨found, known⟩ := unpruned.held other old
      have absent := stocked.sound.toIndexed.position?_eq_none_iff.1
        (joins.fresh stocked.sound.toIndexed)
      refine ⟨found, ?_⟩
      rw [Pool.find?_insert_of_ne pool fun same => absent other old (same.symm.trans joins.named)]
      exact known
    · rw [List.mem_singleton.1 new, ← joins.named]
      exact ⟨entry, Pool.find?_insert_self pool entry⟩
  tied position other here notFirst := by
    rcases getElem?_concat_eq_some_iff.1 here with old | ⟨_, rfl⟩
    · exact unpruned.tied position other old notFirst
    · exact voteParent_of_appendable stocked.sound.toWellFormed unpruned.tied joins.appendable
  weightless other member := by
    rcases List.mem_append.1 member with old | new
    · exact unpruned.weightless other old
    · rw [List.mem_singleton.1 new]
      cases joins.appendable with
      | slot => rfl
      | block => rfl

theorem grown
    {preset : Preset} {chain grown : RecentChain preset rules} {added : List (Entry State Context)}
    (unpruned : Unpruned chain.choice.tree chain.pool)
    (stocked : Stocked rules inRange chain.choice.tree chain.pool)
    (growth : chain.Grown inRange added grown) : Unpruned grown.choice.tree grown.pool := by
  induction growth with
  | refl => exact unpruned
  | join growth joins ih => exact ih.push (growth.stocked stocked) joins

end Unpruned

theorem unpruned_ofAnchor (entry : Entry State Context) (parentRoot : Root) (stamp : Stamp) :
    Unpruned (.ofAnchor entry.ref parentRoot stamp)
      (({ anchorSlot := entry.slot } : Pool State Context).insert entry) where
  held node member := by
    rw [List.mem_singleton.1 member]
    exact ⟨entry, Pool.find?_insert_self _ entry⟩
  tied position node here notFirst := by
    have inside := (List.getElem?_eq_some_iff.1 here).1
    exact absurd (Nat.lt_one_iff.1 inside) notFirst
  weightless node member := by
    rw [List.mem_singleton.1 member]

namespace ForkChoice

/-- Without votes and pins, the head is that of the tree below the justified node. -/
theorem head_of_unvoted
    {preset : Preset} {choice : ForkChoice preset} (unchanged : choice.ballots.changed = false)
    (unpinned : choice.pin = none) :
    choice.head.1 = (choice.checkpointNode choice.justified).bind fun below =>
      (choice.tree.findHead below).1 := by
  have uncounted : choice.countVotes = (.ok (), choice) := by
    rw [countVotes, if_neg (by simp [unchanged])]
  unfold head
  simp only [uncounted, headAnchor, unpinned]
  cases choice.checkpointNode choice.justified with
  | error error => rfl
  | ok below => rfl

end ForkChoice

namespace RecentChain

variable {preset : Preset} {start chain next : RecentChain preset rules} {blocks : List Block}
  {block : Block}

/-- The entries that a chain has grown by are in its pool. -/
theorem Grown.find?_of_mem
    {grown : RecentChain preset rules} {added : List (Entry State Context)}
    (growth : Grown inRange chain added grown)
    (stocked : Stocked rules inRange chain.choice.tree chain.pool) :
    ∀ entry ∈ added, grown.pool.find? entry.ref = some entry := by
  induction growth with
  | refl => exact fun _ member => absurd member List.not_mem_nil
  | @join added grown node last growth joins ih =>
    intro entry member
    rcases List.mem_append.1 member with old | new
    · exact (Grown.join .refl joins).find?_of_find? (growth.stocked stocked) (ih entry old)
    · rw [List.mem_singleton.1 new]
      exact Pool.find?_insert_self grown.pool last

theorem Grown.getElem?_eq_some
    {grown : RecentChain preset rules} {added : List (Entry State Context)}
    (growth : Grown inRange chain added grown) {position : Nat} {node : Node}
    (here : chain.choice.tree.nodes[position]? = some node) :
    grown.choice.tree.nodes[position]? = some node := by
  obtain ⟨extra, together⟩ := growth.nodes_prefix
  rw [← together, List.getElem?_append_left (List.getElem?_eq_some_iff.1 here).1]
  exact here

/-- A new block that is accepted, and brings no later checkpoints, lets the chain grow and does
nothing else. -/
theorem grown_of_addBlock
    {store : Type} {interrupted : List Nat → Bool} {receive : EntryReceiver State Context store}
    {state after : store} (stocked : Stocked rules inRange chain.choice.tree chain.pool)
    (allowed : ∀ slot ≤ rules.blockSlot block, inRange slot)
    (isNew : chain.choice.containsBlock (rules.blockRoot block) = false)
    (added : chain.addBlock block interrupted receive state = (.ok entry, next, after))
    (justified : (rules.justified entry.state).epoch ≤ chain.choice.justified.epoch)
    (finalized : (rules.finalized entry.state).epoch ≤ chain.choice.finalized.epoch) :
    ∃ draft, chain.draft block interrupted = .ok draft ∧ draft.block = entry ∧
      Grown inRange chain (draft.replayed ++ [entry]) next := by
  cases drafted : chain.draft block interrupted with
  | error error => simp [addBlock, isNew, drafted] at added
  | ok draft =>
    obtain ⟨grown, answer, _, growth, settled, outcome⟩ :=
      settle_of_addBlock stocked allowed isNew drafted added
    have isEntry : draft.block = entry := by
      cases answer with
      | error error => cases outcome
      | ok => exact (Except.ok.inj outcome).symm
    subst isEntry
    obtain ⟨sameJustified, sameFinalized, _⟩ := growth.checkpoints_eq
    have unchanged : grown.choice.adopt draft.block.ref (rules.justified draft.block.state)
        (rules.finalized draft.block.state) grown.balancesAt (Pool.release receive)
        (grown.pool, state) = (.ok (), grown.choice, grown.pool, state) := by
      apply ForkChoice.adopt_of_not_later
      · rwa [sameJustified]
      · rwa [sameFinalized]
    simp only [settle, adopt, unchanged, if_pos, Prod.mk.injEq] at settled
    obtain ⟨_, isNext, _⟩ := settled
    exact ⟨draft, rfl, rfl, isNext ▸ growth⟩

/-- What becomes of a chain that receives blocks one after the other, none of which brings later
checkpoints than those of `start`.  The list has the blocks that were added, in their order; a
block that the chain knows already is received without being added. -/
inductive Receives (start : RecentChain preset rules) :
    List Block → RecentChain preset rules → Prop
  | start : Receives start [] start
  | added {store : Type} {blocks : List Block} {chain next : RecentChain preset rules}
    {block : Block} {interrupted : List Nat → Bool} {receive : EntryReceiver State Context store}
    {state after : store} {entry : Entry State Context} (received : Receives start blocks chain)
    (isNew : chain.choice.containsBlock (rules.blockRoot block) = false)
    (added : chain.addBlock block interrupted receive state = (.ok entry, next, after))
    (justified : (rules.justified entry.state).epoch ≤ start.choice.justified.epoch)
    (finalized : (rules.finalized entry.state).epoch ≤ start.choice.finalized.epoch) :
    Receives start (blocks ++ [block]) next
  | known {store : Type} {blocks : List Block} {chain next : RecentChain preset rules}
    {block : Block} {interrupted : List Nat → Bool} {receive : EntryReceiver State Context store}
    {state after : store} {outcome : Except Error (Entry State Context)}
    (received : Receives start blocks chain)
    (isKnown : chain.choice.containsBlock (rules.blockRoot block) = true)
    (added : chain.addBlock block interrupted receive state = (outcome, next, after)) :
    Receives start blocks next

/-- One more block, where the answer can be computed. -/
theorem Receives.concat
    {store : Type} (received : Receives start blocks chain) {interrupted : List Nat → Bool}
    {receive : EntryReceiver State Context store} {state : store}
    (isNew : chain.choice.containsBlock (rules.blockRoot block) = false)
    (quiet : (chain.addBlock block interrupted receive state).1.toOption.any (fun entry =>
      decide ((rules.justified entry.state).epoch ≤ start.choice.justified.epoch ∧
        (rules.finalized entry.state).epoch ≤ start.choice.finalized.epoch)) = true) :
    Receives start (blocks ++ [block]) (chain.addBlock block interrupted receive state).2.1 := by
  cases called : chain.addBlock block interrupted receive state with
  | mk outcome rest =>
    rw [called] at quiet
    cases outcome with
    | error error => cases quiet
    | ok entry =>
      obtain ⟨justified, finalized⟩ := of_decide_eq_true quiet
      exact .added received isNew called justified finalized

/-- What is kept while a chain receives blocks. -/
structure Whole (start : RecentChain preset rules) (anchor : Entry State Context)
    (blocks : List Block) (chain : RecentChain preset rules) : Prop
    extends Agreement rules start.limits.verifyBlocks (· ∈ blocks) anchor chain.choice.tree
        chain.pool,
      Unpruned chain.choice.tree chain.pool where
  stocked : Stocked rules (fun _ => True) chain.choice.tree chain.pool
  choice : chain.choice = { start.choice with tree := chain.choice.tree }
  limits : chain.limits = start.limits
  stamp : chain.choice.tree.stamp = start.choice.tree.stamp
  first : chain.choice.tree.nodes[0]? = start.choice.tree.nodes[0]?
  anchorFirst : ∃ node, chain.choice.tree.nodes[0]? = some node ∧ node.ref = anchor.ref
  anchorHeld : chain.pool.find? anchor.ref = some anchor
  blockHeld : ∀ block ∈ blocks, ∃ entry,
    chain.pool.find? ⟨rules.blockRoot block, rules.blockSlot block⟩ = some entry
  distinct : Distinct rules (· ∈ blocks) anchor

namespace Whole

variable {interrupted : List Nat → Bool} {draft : Draft State Context}

theorem root_ne_of_new
    (whole : Whole start anchor blocks chain)
    (isNew : chain.choice.containsBlock (rules.blockRoot block) = false) {ref : NodeRef}
    (found : chain.pool.find? ref = some entry) : ref.root ≠ rules.blockRoot block := by
  obtain ⟨position, node, here, rfl⟩ := whole.stocked.present ref entry found
  exact whole.stocked.sound.containsRoot_eq_false_iff.1 isNew node (List.mem_of_getElem? here)

theorem distinct_of_new
    (whole : Whole start anchor blocks chain)
    (isNew : chain.choice.containsBlock (rules.blockRoot block) = false) :
    Distinct rules (· ∈ blocks ++ [block]) anchor where
  eq_of_root first second firstApplied secondApplied sameRoot := by
    have apart : ∀ other ∈ blocks, rules.blockRoot other ≠ rules.blockRoot block := by
      intro other member
      obtain ⟨entry, found⟩ := whole.blockHeld other member
      exact whole.root_ne_of_new isNew found
    rcases List.mem_append.1 firstApplied with firstOld | firstNew <;>
      rcases List.mem_append.1 secondApplied with secondOld | secondNew
    · exact whole.distinct.eq_of_root first second firstOld secondOld sameRoot
    · rw [List.mem_singleton.1 secondNew] at sameRoot
      exact absurd sameRoot (apart first firstOld)
    · rw [List.mem_singleton.1 firstNew] at sameRoot
      exact absurd sameRoot.symm (apart second secondOld)
    · rw [List.mem_singleton.1 firstNew, List.mem_singleton.1 secondNew]
  notAnchor other isApplied := by
    rcases List.mem_append.1 isApplied with old | new
    · exact whole.distinct.notAnchor other old
    · rw [List.mem_singleton.1 new]
      exact (whole.root_ne_of_new isNew whole.anchorHeld).symm

/-- What is kept when a block is added. -/
theorem grown
    (whole : Whole start anchor blocks chain)
    (isNew : chain.choice.containsBlock (rules.blockRoot block) = false)
    (drafted : chain.draft block interrupted = .ok draft)
    (growth : Grown (fun _ => True) chain (draft.replayed ++ [draft.block]) next) :
    Whole start anchor (blocks ++ [block]) next := by
  have stocked := whole.stocked
  obtain ⟨previous, last, isDraft⟩ := exists_drafted stocked drafted
  obtain ⟨anchorNode, anchorHere, anchorNamed⟩ := whole.anchorFirst
  have more : ∀ other, other ∈ blocks → other ∈ blocks ++ [block] :=
    fun other member => List.mem_append_left _ member
  have before : Agreement rules start.limits.verifyBlocks (· ∈ blocks ++ [block]) anchor
      chain.choice.tree chain.pool :=
    { whole.toAgreement with
      derived := fun ref entry found => (whole.derived ref entry found).mono more }
  have isLast : block ∈ blocks ++ [block] := List.mem_append_right _ List.mem_cons_self
  have derived := derived_of_draft stocked
    (fun ref entry found => whole.limits ▸ before.derived ref entry found) isLast drafted
  rw [whole.limits] at derived
  exact {
    toAgreement := before.grown stocked growth derived
    toUnpruned := whole.toUnpruned.grown stocked growth
    stocked := growth.stocked stocked
    choice := by
      rw [growth.choice_eq, whole.choice]
    limits := growth.limits_eq.trans whole.limits
    stamp := growth.stamp_eq.trans whole.stamp
    first := (growth.getElem?_eq_some anchorHere).trans (anchorHere.symm.trans whole.first)
    anchorFirst := ⟨anchorNode, growth.getElem?_eq_some anchorHere, anchorNamed⟩
    anchorHeld := growth.find?_of_find? stocked whole.anchorHeld
    blockHeld := by
      intro other member
      rcases List.mem_append.1 member with old | new
      · obtain ⟨entry, found⟩ := whole.blockHeld other old
        exact ⟨entry, growth.find?_of_find? stocked found⟩
      · rw [List.mem_singleton.1 new, ← isDraft.ref]
        exact ⟨draft.block, growth.find?_of_mem stocked draft.block (by simp)⟩
    distinct := whole.distinct_of_new isNew }

variable {position : Nat} {node : Node}

theorem position_eq_zero
    (whole : Whole start anchor blocks chain)
    (here : chain.choice.tree.nodes[position]? = some node)
    (isAnchor : node.ref = anchor.ref) : position = 0 := by
  obtain ⟨first, firstHere, named⟩ := whole.anchorFirst
  exact whole.stocked.sound.position_unique here firstHere (isAnchor.trans named.symm)

theorem position_ne_zero
    (whole : Whole start anchor blocks chain)
    (here : chain.choice.tree.nodes[position]? = some node)
    (notAnchor : node.ref ≠ anchor.ref) : position ≠ 0 := by
  rintro rfl
  obtain ⟨first, firstHere, named⟩ := whole.anchorFirst
  rw [← Option.some.inj (firstHere.symm.trans here)] at notAnchor
  exact notAnchor named

/-- A node other than that of the anchor matches its entry. -/
theorem matches_of_ne
    (whole : Whole start anchor blocks chain)
    (here : chain.choice.tree.nodes[position]? = some node)
    (notAnchor : node.ref ≠ anchor.ref) (found : chain.pool.find? node.ref = some entry) :
    Matches rules node entry := by
  apply whole.matched node (List.mem_of_getElem? here) entry found
  intro isAnchor
  rw [isAnchor] at found
  exact notAnchor (whole.stocked.named _ _ found).symm

/-- A node other than that of the anchor has both parents. -/
theorem exists_parents
    (whole : Whole start anchor blocks chain)
    (here : chain.choice.tree.nodes[position]? = some node)
    (notAnchor : node.ref ≠ anchor.ref) :
    (∃ above, node.voteParent = some above) ∧ ∃ above, node.stateParent = some above := by
  obtain ⟨above, up⟩ := whole.tied position node here (whole.position_ne_zero here notAnchor)
  refine ⟨⟨above, up⟩, ?_⟩
  cases whole.stocked.sound.links position node here with
  | severed _ noVote => simp [noVote] at up
  | slot other _ _ _ _ _ _ state => exact ⟨other, state⟩
  | block other _ _ _ _ _ _ _ state => exact ⟨other, state⟩

/-- The name of a block's parent at the slot of the block is that of a node. -/
theorem exists_filled
    (whole : Whole start anchor blocks chain) (isApplied : block ∈ blocks) :
    ∃ (position : Nat) (node : Node), chain.choice.tree.nodes[position]? = some node ∧
      node.ref = ⟨rules.blockParent block, rules.blockSlot block⟩ := by
  obtain ⟨entry, found⟩ := whole.blockHeld block isApplied
  obtain ⟨position, node, here, named⟩ := whole.stocked.present _ _ found
  have notAnchor := whole.distinct.blockRef_ne_anchor isApplied named
  obtain ⟨parent, _⟩ := whole.distinct.exists_made_block (whole.derived _ _ found) isApplied
    (whole.stocked.named _ _ found)
  rw [← named] at found
  have matched := whole.matches_of_ne here notAnchor found
  have hasBlock : node.hasBlock = true := by
    rw [matched.hasBlock, Entry.hasBlock, parent]
    rfl
  have ofParent : node.parentRoot = rules.blockParent block := by
    rw [matched.parentRoot, Entry.linkRoot, parent]
    rfl
  obtain ⟨_, above, up⟩ := whole.exists_parents here notAnchor
  obtain ⟨_, upper, upperHere, ofRoot, slots⟩ :=
    whole.stocked.sound.toWellFormed.ref_of_stateParent here up
  have atSlot : node.ref.slot = rules.blockSlot block := congrArg NodeRef.slot named
  rw [hasBlock] at slots
  exact ⟨above, upper, upperHere,
    NodeRef.eq_mk (ofRoot.trans ofParent) (slots.symm.trans atSlot)⟩

/-- From a node to a block on its root there is a node at every slot. -/
theorem exists_between
    (whole : Whole start anchor blocks chain)
    (here : chain.choice.tree.nodes[position]? = some node)
    (isApplied : block ∈ blocks) (onParent : rules.blockParent block = node.ref.root) {slot : Nat}
    (notBefore : node.ref.slot ≤ slot) (notBehind : slot ≤ rules.blockSlot block) :
    ∃ (other : Nat) (found : Node), chain.choice.tree.nodes[other]? = some found ∧
      found.ref = ⟨node.ref.root, slot⟩ := by
  have wellFormed := whole.stocked.sound.toWellFormed
  obtain ⟨place, filled, filledHere, named⟩ := whole.exists_filled isApplied
  obtain ⟨span, oldest, _, oldestHere, ofRoot, isFirst⟩ := wellFormed.exists_first here
  have filledRoot : filled.ref.root = node.ref.root :=
    (congrArg NodeRef.root named).trans onParent
  have filledSlot : filled.ref.slot = rules.blockSlot block := congrArg NodeRef.slot named
  obtain ⟨notBeforeOldest, _⟩ :=
    wellFormed.exists_at_slot oldestHere ofRoot isFirst position node here rfl
  obtain ⟨_, between⟩ :=
    wellFormed.exists_at_slot oldestHere ofRoot isFirst place filled filledHere filledRoot
  obtain ⟨other, found, there, isFound, _⟩ := between slot (by omega) (by omega)
  exact ⟨other, found, there, isFound⟩

/-- Whatever can be made of the anchor on the way to the blocks has been made. -/
theorem held_of_derived
    (whole : Whole start anchor blocks chain)
    (derived : Derived rules start.limits.verifyBlocks (· ∈ blocks) anchor entry) :
    chain.pool.find? entry.ref = some entry := by
  induction derived with
  | refl => exact whole.anchorHeld
  | @tail previous next derivedPrevious made ih =>
    have derivedNext := derivedPrevious.tail made
    have determined : ∀ {found}, chain.pool.find? next.ref = some found →
        chain.pool.find? next.ref = some next := by
      intro found known
      have same : found = next := whole.distinct.eq_of_ref_eq (whole.derived _ _ known) derivedNext
        (whole.stocked.named _ _ known)
      rwa [same] at known
    cases made with
    | slot onTheWay sameRoot nextSlot =>
      obtain ⟨block, isApplied, onParent, notBehind⟩ := onTheWay
      obtain ⟨position, node, here, named⟩ := whole.stocked.present _ _ ih
      have ofRoot : node.ref.root = next.blockRoot :=
        (congrArg NodeRef.root named).trans sameRoot.symm
      have atSlot : node.ref.slot = previous.slot := congrArg NodeRef.slot named
      obtain ⟨other, found, there, isNext⟩ := whole.exists_between here isApplied
        (onParent.trans ofRoot.symm) (by omega) notBehind
      obtain ⟨entry, known⟩ := whole.held found (List.mem_of_getElem? there)
      rw [isNext, ofRoot] at known
      exact determined known
    | block block isApplied _ _ named =>
      obtain ⟨entry, known⟩ := whole.blockHeld block isApplied
      rw [← named] at known
      exact determined known

/-- The pool holds what can be made of the anchor on the way to the blocks, and nothing else. -/
theorem find?_eq_some_iff (whole : Whole start anchor blocks chain) {ref : NodeRef} :
    chain.pool.find? ref = some entry ↔
      Derived rules start.limits.verifyBlocks (· ∈ blocks) anchor entry ∧ entry.ref = ref := by
  constructor
  · intro found
    exact ⟨whole.derived ref entry found, whole.stocked.named ref entry found⟩
  · rintro ⟨derived, rfl⟩
    exact whole.held_of_derived derived

end Whole

theorem whole_start
    {limits : Limits} {root parentRoot : Root} {anchorState : State}
    (started : ofAnchor? limits root parentRoot anchorState = .ok start)
    (isAnchor : start.earliest? = some anchor) : Whole start anchor [] start := by
  obtain ⟨agrees, goesOn⟩ :
      Agrees limits.verifyBlocks (· ∈ ([] : List Block)) anchor start ∧
        GoesOn (fun _ => True) anchor start [] := ofAnchor?_agrees started isAnchor
  obtain ⟨_, _, rfl⟩ := eq_of_ofAnchor? started isAnchor
  exact {
    toAgreement := agrees.toAgreement
    toUnpruned := unpruned_ofAnchor anchor parentRoot _
    stocked := goesOn.stocked
    choice := rfl
    limits := rfl
    stamp := rfl
    first := rfl
    anchorFirst := ⟨_, rfl, rfl⟩
    anchorHeld := Pool.find?_insert_self _ anchor
    blockHeld := fun _ member => absurd member List.not_mem_nil
    distinct := ⟨fun _ _ member => absurd member List.not_mem_nil,
      fun _ member => absurd member List.not_mem_nil⟩ }

theorem Receives.whole
    (received : Receives start blocks chain) (begins : Whole start anchor [] start) :
    Whole start anchor blocks chain := by
  induction received with
  | start => exact begins
  | @added _ blocks chain next block _ _ _ _ entry _ isNew added justified finalized ih =>
    obtain ⟨draft, drafted, rfl, growth⟩ := grown_of_addBlock ih.stocked (fun _ _ => trivial) isNew
      added (by rwa [ih.choice]) (by rwa [ih.choice])
    exact ih.grown isNew drafted growth
  | known _ isKnown added ih =>
    obtain ⟨rfl, _⟩ := unchanged_of_addBlock (.inl isKnown) added
    exact ih

/-! ## The head -/

/-- A head node with its entry. -/
theorem head_eq_bind (chain : RecentChain preset rules) :
    chain.head.1 = chain.choice.head.1.bind fun node =>
      match chain.pool.find? node with
      | some entry => .ok entry
      | none => .error (.blockUnknown node.root) := by
  unfold head headNode
  cases chain.choice.head with
  | mk outcome choice =>
    cases outcome with
    | error error => rfl
    | ok node =>
      dsimp only [Except.bind]
      cases chain.pool.find? node with
      | none => rfl
      | some entry => rfl

/-- A chain starts without votes and without a pin. -/
theorem unvoted_of_ofAnchor?
    {limits : Limits} {root parentRoot : Root} {anchorState : State}
    (started : ofAnchor? limits root parentRoot anchorState = .ok start) :
    start.choice.ballots.changed = false ∧ start.choice.pin = none := by
  obtain ⟨context, _, made⟩ := exists_of_bind_eq_ok started
  cases made
  exact ⟨rfl, rfl⟩

/-- The head of a chain that has kept everything is that of its tree below the node of the
checkpoint with which it started. -/
theorem Whole.head_eq
    (whole : Whole start anchor blocks chain) (unchanged : start.choice.ballots.changed = false)
    (unpinned : start.choice.pin = none) :
    chain.choice.head.1 = (chain.choice.checkpointNode start.choice.justified).bind fun below =>
      (chain.choice.tree.findHead below).1 := by
  have sameJustified : chain.choice.justified = start.choice.justified := by
    rw [whole.choice]
  rw [ForkChoice.head_of_unvoted, sameJustified]
  · rw [whole.choice]
    exact unchanged
  · rw [whole.choice]
    exact unpinned

end RecentChain

end BeaconChain
