import BeaconChain.BlockTree.Insert
import BeaconChain.Proofs.BlockTree.WellFormed

/-!
# Growth of a tree

Whatever is inserted into a tree arrives node by node: either the empty slot after
the last node of a root, or the block that fills such a slot, under a root that is
new.  What holds of a tree and is kept by each of these steps is therefore kept by
every insertion; in particular the tree stays well formed.
-/

namespace BeaconChain.BlockTree

theorem getElem?_concat_eq_some_iff
    {α : Type} {items : List α} {added item : α} {position : Nat} :
    (items ++ [added])[position]? = some item ↔
      items[position]? = some item ∨ position = items.length ∧ item = added := by
  rcases Nat.lt_trichotomy position items.length with inside | rfl | outside
  · simp [List.getElem?_append_left inside, Nat.ne_of_lt inside]
  · simp [eq_comm]
  · simp [List.getElem?_eq_none (Nat.le_of_lt outside), Nat.ne_of_gt outside,
      List.getElem?_eq_none (l := items ++ [added]) (i := position) (by simp; omega)]

theorem spans_push_self (tree : BlockTree) (node : Node) :
    (tree.push node).spans.find? node.ref.root =
      some (match tree.spans.find? node.ref.root with
        | some span => { span with last := tree.size }
        | none => { first := tree.size, last := tree.size }) :=
  Table.find?_insert_self _ _ _

theorem spans_push_of_ne
    (tree : BlockTree) {node : Node} {root : Root} (different : node.ref.root ≠ root) :
    (tree.push node).spans.find? root = tree.spans.find? root := by
  simp only [push]
  exact Table.find?_insert_of_ne _ _ different

namespace Indexed

variable {tree : BlockTree} {node : Node}

theorem isSpan_push_self (indexed : Indexed tree) {span : Span}
    (found : (tree.push node).spans.find? node.ref.root = some span) :
    IsSpan (tree.nodes ++ [node]) node.ref.root span := by
  rw [spans_push_self] at found
  have self : (tree.nodes ++ [node])[tree.size]? = some node :=
    getElem?_concat_eq_some_iff.2 (.inr ⟨rfl, rfl⟩)
  have small : ∀ {position : Nat} {other : Node},
      tree.nodes[position]? = some other → position < tree.size :=
    fun there => (List.getElem?_eq_some_iff.1 there).1
  cases old : tree.spans.find? node.ref.root with
  | none =>
    have absent := indexed.spans_eq_none_iff.1 old
    simp only [old, Option.some.injEq] at found
    subst found
    refine ⟨⟨node, self, rfl⟩, ⟨node, self, rfl⟩, fun position other there ofRoot => ?_⟩
    rcases getElem?_concat_eq_some_iff.1 there with inside | ⟨rfl, _⟩
    · exact absurd ofRoot (absent other (List.mem_of_getElem? inside))
    · exact ⟨Nat.le_refl _, Nat.le_refl _⟩
  | some span =>
    obtain ⟨⟨first, firstHere, firstRoot⟩, _, within⟩ := indexed.spanOf _ _ old
    simp only [old, Option.some.injEq] at found
    subst found
    refine ⟨⟨first, getElem?_concat_eq_some_iff.2 (.inl firstHere), firstRoot⟩,
      ⟨node, self, rfl⟩, fun position other there ofRoot => ?_⟩
    rcases getElem?_concat_eq_some_iff.1 there with inside | ⟨rfl, _⟩
    · exact ⟨(within position other inside ofRoot).1, Nat.le_of_lt (small inside)⟩
    · exact ⟨Nat.le_of_lt (small firstHere), Nat.le_refl _⟩

theorem isSpan_push_of_ne
    (indexed : Indexed tree) {root : Root} {span : Span} (different : node.ref.root ≠ root)
    (found : (tree.push node).spans.find? root = some span) :
    IsSpan (tree.nodes ++ [node]) root span := by
  rw [spans_push_of_ne tree different] at found
  obtain ⟨⟨first, firstHere, firstRoot⟩, ⟨last, lastHere, lastRoot⟩, within⟩ :=
    indexed.spanOf _ _ found
  refine ⟨⟨first, getElem?_concat_eq_some_iff.2 (.inl firstHere), firstRoot⟩,
    ⟨last, getElem?_concat_eq_some_iff.2 (.inl lastHere), lastRoot⟩, ?_⟩
  intro position other there ofRoot
  rcases getElem?_concat_eq_some_iff.1 there with inside | ⟨_, rfl⟩
  · exact within position other inside ofRoot
  · exact absurd ofRoot different

theorem push (indexed : Indexed tree) (fresh : tree.position? node.ref = none) :
    Indexed (tree.push node) where
  positions ref position := by
    have absent := indexed.position?_eq_none_iff.1 fresh
    rw [nodes_push]
    by_cases same : node.ref = ref
    · subst same
      rw [position?_push_self]
      constructor
      · rintro ⟨rfl⟩
        exact ⟨node, getElem?_concat_eq_some_iff.2 (.inr ⟨rfl, rfl⟩), rfl⟩
      · rintro ⟨other, there, named⟩
        rcases getElem?_concat_eq_some_iff.1 there with inside | ⟨rfl, _⟩
        · exact absurd named (absent other (List.mem_of_getElem? inside))
        · rfl
    · rw [position?_push_of_ne tree same, indexed.positions]
      constructor
      · rintro ⟨other, there, named⟩
        exact ⟨other, getElem?_concat_eq_some_iff.2 (.inl there), named⟩
      · rintro ⟨other, there, named⟩
        rcases getElem?_concat_eq_some_iff.1 there with inside | ⟨_, rfl⟩
        · exact ⟨other, inside, named⟩
        · exact absurd named same
  spanOf root span found := by
    by_cases same : node.ref.root = root
    · subst same
      exact indexed.isSpan_push_self found
    · exact indexed.isSpan_push_of_ne same found
  spanned position other there := by
    by_cases same : node.ref.root = other.ref.root
    · rw [← same, spans_push_self]
      exact ⟨_, rfl⟩
    · rcases getElem?_concat_eq_some_iff.1 there with inside | ⟨_, rfl⟩
      · rw [spans_push_of_ne tree same]
        exact indexed.spanned position other inside
      · exact absurd rfl same

end Indexed

theorem FirstOfRoot.append
    {nodes : List Node} {root : Root} {position : Nat} (first : FirstOfRoot nodes root position)
    (inside : position < nodes.length) (added : Node) :
    FirstOfRoot (nodes ++ [added]) root position := by
  intro other found there ofRoot
  rcases getElem?_concat_eq_some_iff.1 there with old | ⟨rfl, _⟩
  · exact first other found old ofRoot
  · exact Nat.le_of_lt inside

theorem Link.append
    {nodes : List Node} {position : Nat} {node : Node} (link : Link nodes position node)
    (inside : position < nodes.length) (added : Node) :
    Link (nodes ++ [added]) position node := by
  cases link with
  | severed noState noVote first => exact .severed noState noVote (first.append inside added)
  | slot above before earlier found sameRoot nextSlot empty state vote =>
    exact .slot above before earlier (getElem?_concat_eq_some_iff.2 (.inl found)) sameRoot nextSlot
      empty state vote
  | block above before earlier found parent sameSlot filled empty state vote first =>
    exact .block above before earlier (getElem?_concat_eq_some_iff.2 (.inl found)) parent sameSlot
      filled empty state vote (first.append inside added)

theorem WellFormed.push
    {tree : BlockTree} {node : Node} (wellFormed : WellFormed tree)
    (fresh : tree.position? node.ref = none) (link : Link (tree.nodes ++ [node]) tree.size node) :
    WellFormed (tree.push node) where
  toIndexed := wellFormed.toIndexed.push fresh
  links position other there := by
    rcases getElem?_concat_eq_some_iff.1 there with inside | ⟨rfl, rfl⟩
    · exact (wellFormed.links position other inside).append
        (List.getElem?_eq_some_iff.1 inside).1 node
    · exact link

theorem WellFormed.withOutdated
    {tree : BlockTree} (wellFormed : WellFormed tree) (outdated : Bool) :
    WellFormed { tree with outdated := outdated } where
  positions := wellFormed.positions
  spanOf := wellFormed.spanOf
  spanned := wellFormed.spanned
  links := wellFormed.links

/-- The node of an empty slot behind the node at `previous`. -/
def slotNode (root : Root) (slot previous : Nat) (stamp : Stamp) : Node :=
  { ref := ⟨root, slot⟩, stateParent := some previous, voteParent := some previous,
    parentRoot := root, stamp := stamp }

/-- The node of a block that fills the empty slot at `position`. -/
def blockNode (root : Root) (position : Nat) (preState : Node) (stamp : Stamp) : Node :=
  { ref := ⟨root, preState.ref.slot⟩, stateParent := some position,
    voteParent := preState.voteParent, parentRoot := preState.ref.root, stamp := stamp }

/-- A node that may be appended: the empty slot after the last node of a root, or a
block of a new root that fills a slot after the first node of its parent.  Blocks are
those that `admits` allows, by parent, root and slot. -/
inductive Appendable (admits : Root → Root → Nat → Prop) (tree : BlockTree) : Node → Prop
  | slot {position : Nat} {latest : Node} (stamp : Stamp)
    (here : tree.nodes[position]? = some latest)
    (last : ∀ (other : Nat) (found : Node), tree.nodes[other]? = some found →
      found.ref.root = latest.ref.root → found.ref.slot ≤ latest.ref.slot) :
    Appendable admits tree (slotNode latest.ref.root (latest.ref.slot + 1) position stamp)
  | block {position earlier : Nat} {preState older : Node} (root : Root) (stamp : Stamp)
    (here : tree.nodes[position]? = some preState)
    (there : tree.nodes[earlier]? = some older) (sameRoot : older.ref.root = preState.ref.root)
    (before : older.ref.slot < preState.ref.slot)
    (fresh : ∀ node ∈ tree.nodes, node.ref.root ≠ root)
    (admitted : admits preState.ref.root root preState.ref.slot) :
    Appendable admits tree (blockNode root position preState stamp)

/-- A tree grows by nodes that may be appended, which may leave its links out of
date. -/
inductive Grows (admits : Root → Root → Nat → Prop) (tree : BlockTree) : BlockTree → Prop
  | refl : Grows admits tree tree
  | push {grown : BlockTree} {node : Node} (growth : Grows admits tree grown)
    (appendable : Appendable admits grown node) : Grows admits tree (grown.push node)
  | outdate {grown : BlockTree} (growth : Grows admits tree grown) :
    Grows admits tree { grown with outdated := true }

section Growth

variable {admits : Root → Root → Nat → Prop} {tree grown : BlockTree} {node : Node}

theorem Appendable.fresh (indexed : Indexed tree) (appendable : Appendable admits tree node) :
    tree.position? node.ref = none := by
  rw [indexed.position?_eq_none_iff]
  intro other member same
  cases appendable with
  | slot stamp here last =>
    obtain ⟨place, there⟩ := List.mem_iff_getElem?.1 member
    have := last place other there (by rw [same]; rfl)
    rw [same] at this
    exact absurd this (Nat.not_succ_le_self _)
  | block root stamp here there sameRoot before fresh =>
    exact fresh other member (by rw [same]; rfl)

theorem Appendable.link
    (wellFormed : WellFormed tree) (appendable : Appendable admits tree node) :
    Link (tree.nodes ++ [node]) tree.size node := by
  cases appendable with
  | @slot position latest stamp here last =>
    exact .slot position latest (List.getElem?_eq_some_iff.1 here).1
      (getElem?_concat_eq_some_iff.2 (.inl here)) rfl rfl rfl rfl rfl
  | @block position earlier preState older root stamp here there sameRoot before fresh =>
    have notFirst : earlier < position := by
      have le := (wellFormed.slot_le_iff here there sameRoot).1 (Nat.le_of_lt before)
      rcases Nat.lt_or_eq_of_le le with lt | rfl
      · exact lt
      · obtain rfl := Option.some.inj (here.symm.trans there)
        exact absurd before (Nat.lt_irrefl _)
    obtain ⟨_, _, _, _, _, _, empty, _, _⟩ :=
      wellFormed.slot_link_of_not_first here there sameRoot notFirst
    refine .block position preState (List.getElem?_eq_some_iff.1 here).1
      (getElem?_concat_eq_some_iff.2 (.inl here)) rfl rfl
      (fresh preState (List.mem_of_getElem? here)) empty rfl rfl ?_
    intro other found there ofRoot
    rcases getElem?_concat_eq_some_iff.1 there with old | ⟨rfl, _⟩
    · exact absurd ofRoot (fresh found (List.mem_of_getElem? old))
    · exact Nat.le_refl _

theorem WellFormed.append
    (wellFormed : WellFormed tree) (appendable : Appendable admits tree node) :
    WellFormed (tree.push node) :=
  wellFormed.push (appendable.fresh wellFormed.toIndexed) (appendable.link wellFormed)

theorem WellFormed.grow (wellFormed : WellFormed tree) (growth : Grows admits tree grown) :
    WellFormed grown := by
  induction growth with
  | refl => exact wellFormed
  | push _ appendable ih => exact ih.append appendable
  | outdate _ ih => exact ih.withOutdated true

theorem Grows.trans {further : BlockTree}
    (growth : Grows admits tree grown) (rest : Grows admits grown further) :
    Grows admits tree further := by
  induction rest with
  | refl => exact growth
  | push _ appendable ih => exact ih.push appendable
  | outdate _ ih => exact ih.outdate

/-- A tree that has grown begins with the nodes that it had. -/
theorem Grows.nodes_prefix (growth : Grows admits tree grown) : tree.nodes <+: grown.nodes := by
  induction growth with
  | refl => exact List.prefix_rfl
  | push _ _ ih => exact ih.trans (List.prefix_append _ _)
  | outdate _ ih => exact ih

/-! ## Insertions -/

/-- Appending slots behind the last node of a root makes the tree grow by nodes of
this root, and the last one is that of the last slot. -/
theorem appendSlots_spec
    (admits : Root → Root → Nat → Prop) {root : Root} (stamp : Stamp) :
    ∀ (count : Nat) {tree : BlockTree} {previous : Nat} {latest : Node}, WellFormed tree →
      tree.nodes[previous]? = some latest → latest.ref.root = root →
      (∀ (other : Nat) (found : Node), tree.nodes[other]? = some found →
        found.ref.root = root → found.ref.slot ≤ latest.ref.slot) →
      ∃ appended : List Node,
        (appendSlots root stamp count tree previous latest.ref.slot).nodes =
          tree.nodes ++ appended ∧
        (∀ node ∈ appended, node.ref.root = root) ∧
        Grows admits tree (appendSlots root stamp count tree previous latest.ref.slot)
  | 0, _, _, _, _, _, _, _ => ⟨[], by simp [appendSlots], by simp, .refl⟩
  | count + 1, tree, previous, latest, wellFormed, here, ofRoot, last => by
    subst ofRoot
    let node := slotNode latest.ref.root (latest.ref.slot + 1) previous stamp
    have appendable : Appendable admits tree node := .slot stamp here last
    have lastAfter : ∀ (other : Nat) (found : Node), (tree.push node).nodes[other]? = some found →
        found.ref.root = latest.ref.root → found.ref.slot ≤ node.ref.slot := by
      intro other found there sameRoot
      rcases getElem?_concat_eq_some_iff.1 there with old | ⟨_, rfl⟩
      · exact Nat.le_succ_of_le (last other found old sameRoot)
      · exact Nat.le_refl _
    obtain ⟨appended, shape, ofRoot, growth⟩ :=
      appendSlots_spec admits stamp count (wellFormed.append appendable)
        (getElem?_concat_eq_some_iff.2 (.inr ⟨rfl, rfl⟩)) rfl lastAfter
    refine ⟨node :: appended, ?_, ?_, (Grows.refl.push appendable).trans growth⟩
    · exact shape.trans (by simp)
    · intro other member
      rcases List.mem_cons.1 member with rfl | member
      · rfl
      · exact ofRoot other member

theorem insertSlots_spec
    (admits : Root → Root → Nat → Prop) (wellFormed : WellFormed tree) (root : Root) (slot : Nat)
    (stamp : Stamp) :
    ∃ appended : List Node,
      (tree.insertSlots root slot stamp).2.nodes = tree.nodes ++ appended ∧
      (∀ node ∈ appended, node.ref.root = root) ∧
      Grows admits tree (tree.insertSlots root slot stamp).2 := by
  have unchanged : ∃ appended : List Node, tree.nodes = tree.nodes ++ appended ∧
      (∀ node ∈ appended, node.ref.root = root) ∧ Grows admits tree tree :=
    ⟨[], by simp, by simp, .refl⟩
  unfold insertSlots
  split
  · exact unchanged
  · split
    next span latestSlot spanned latest =>
      split
      · exact unchanged
      · obtain ⟨last, lastHere, lastRoot⟩ := (wellFormed.spanOf _ _ spanned).last
        have isLast : last.ref.slot = latestSlot := by
          simpa [latestSlot?, spanned, lastHere] using latest
        subst isLast
        obtain ⟨appended, shape, ofRoot, growth⟩ :=
          appendSlots_spec admits stamp (slot - last.ref.slot)
            wellFormed lastHere lastRoot fun other found there sameRoot =>
              (wellFormed.slot_le_iff lastHere there (sameRoot.trans lastRoot.symm)).2
                ((wellFormed.spanOf _ _ spanned).within other found there sameRoot).2
        exact ⟨appended, shape, ofRoot, growth.outdate⟩
    next => exact unchanged

theorem insertSlots_grows
    (admits : Root → Root → Nat → Prop) (wellFormed : WellFormed tree) (root : Root)
    (slot : Nat) (stamp : Stamp) :
    Grows admits tree (tree.insertSlots root slot stamp).2 := by
  obtain ⟨_, _, _, growth⟩ := insertSlots_spec admits wellFormed root slot stamp
  exact growth

theorem insertBlock_grows
    (admits : Root → Root → Nat → Prop) (wellFormed : WellFormed tree) {parentRoot root : Root}
    {slot : Nat} (stamp : Stamp)
    (admitted : admits parentRoot root slot) :
    Grows admits tree (tree.insertBlock parentRoot root slot stamp).2 := by
  unfold insertBlock
  split
  next => exact .refl
  next missing =>
    have absent : ∀ node ∈ tree.nodes, node.ref.root ≠ root := wellFormed.spans_eq_none_iff.1
      (by simpa [containsRoot, Table.contains] using missing)
    split
    next => exact .refl
    next parentSlot earliest =>
      split
      next before =>
        obtain ⟨appended, shape, ofParent, growth⟩ :=
          insertSlots_spec admits wellFormed parentRoot slot stamp
        have grownWell := wellFormed.grow growth
        split
        next _ grown inserted =>
          simpa only [inserted] using growth
        next _ grown inserted =>
          simp only [inserted] at shape growth grownWell
          split
          next => exact growth
          next position preState located =>
            obtain ⟨here, named⟩ := grownWell.locate?_eq_some_iff.1 located
            obtain ⟨first, older, firstHere, olderNamed, _⟩ :=
              wellFormed.earliestSlot?_eq_some_iff.1 earliest
            have fresh : ∀ node ∈ grown.nodes, node.ref.root ≠ root := by
              intro node member
              rw [shape] at member
              rcases List.mem_append.1 member with old | new
              · exact absent node old
              · rw [ofParent node new]
                intro same
                exact absent older (List.mem_of_getElem? firstHere) (by rw [olderNamed, same])
            have stillThere : grown.nodes[first]? = some older := by
              rw [shape, List.getElem?_append_left (List.getElem?_eq_some_iff.1 firstHere).1]
              exact firstHere
            have appendable : Appendable admits grown (blockNode root position preState stamp) :=
              .block root stamp here stillThere (by rw [olderNamed, named])
                (by rw [olderNamed, named]; exact before) fresh (by rw [named]; exact admitted)
            have grownFurther := (growth.push appendable).outdate
            simpa only [blockNode, named] using grownFurther
      next => exact .refl

end Growth

section OneNode

variable {tree : BlockTree} {position : Nat}

/-- The empty slot after the last node of a root is inserted as a single node. -/
theorem insertSlots_next
    (wellFormed : WellFormed tree) {latest : Node} (here : tree.nodes[position]? = some latest)
    (last : ∀ (other : Nat) (found : Node), tree.nodes[other]? = some found →
      found.ref.root = latest.ref.root → found.ref.slot ≤ latest.ref.slot) (stamp : Stamp) :
    tree.insertSlots latest.ref.root (latest.ref.slot + 1) stamp =
      (true, { tree.push (slotNode latest.ref.root (latest.ref.slot + 1) position stamp) with
        outdated := true }) := by
  have absent : tree.contains ⟨latest.ref.root, latest.ref.slot + 1⟩ = false := by
    cases found : tree.position? ⟨latest.ref.root, latest.ref.slot + 1⟩ with
    | none => simpa [contains, Table.contains, position?] using found
    | some other =>
      obtain ⟨node, there, named⟩ := (wellFormed.positions _ _).1 found
      have := last other node there (by rw [named])
      rw [named] at this
      exact absurd this (Nat.not_succ_le_self _)
  obtain ⟨span, spanned⟩ := wellFormed.spanned position latest here
  obtain ⟨final, finalHere, finalRoot⟩ := (wellFormed.spanOf _ _ spanned).last
  have isLast : span.last = position := by
    have within := ((wellFormed.spanOf _ _ spanned).within position latest here rfl).2
    have notLater := last _ final finalHere finalRoot
    have := (wellFormed.slot_le_iff here finalHere finalRoot).1 notLater
    omega
  rw [isLast] at finalHere
  obtain rfl := Option.some.inj (here.symm.trans finalHere)
  have latestSlot : tree.latestSlot? latest.ref.root = some latest.ref.slot := by
    simp [latestSlot?, spanned, isLast, here]
  simp [insertSlots, absent, spanned, latestSlot, isLast, appendSlots, slotNode]

/-- A block is inserted as a single node if the slot that it fills is there. -/
theorem insertBlock_filling
    (wellFormed : WellFormed tree) {preState : Node} {root : Root} {earliest : Nat}
    (here : tree.nodes[position]? = some preState) (fresh : tree.containsRoot root = false)
    (known : tree.earliestSlot? preState.ref.root = some earliest)
    (before : earliest < preState.ref.slot) (stamp : Stamp) :
    tree.insertBlock preState.ref.root root preState.ref.slot stamp =
      (true, { tree.push (blockNode root position preState stamp) with outdated := true }) := by
  have located := wellFormed.locate?_eq_some_iff.2 ⟨here, rfl⟩
  have present : tree.contains preState.ref = true := by
    have found := wellFormed.position?_ref here
    simpa [contains, Table.contains, position?] using Option.isSome_iff_exists.2 ⟨_, found⟩
  simp [insertBlock, fresh, known, before, insertSlots, present, located, blockNode]

end OneNode

end BeaconChain.BlockTree
