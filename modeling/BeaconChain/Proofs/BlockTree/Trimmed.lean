import BeaconChain.Proofs.BlockTree.Prune
import BeaconChain.Proofs.BlockTree.Resolve

/-!
# Trees without their oldest nodes

Two trees that differ by the oldest nodes of one of them take the same slots and blocks, as
long as these continue roots of which no node is missing, and then differ by the same nodes
as before.  When the first tree drops some of the nodes that the second one does not have, it
has that much less to drop.
-/

open Relation

namespace BeaconChain.BlockTree

/-- The second tree has the nodes of the first one without the `count` oldest, apart from
weights and links. -/
structure Trimmed (count : Nat) (tree trimmed : BlockTree) : Prop where
  whole : WellFormed tree
  rest : WellFormed trimmed
  inside : count ≤ tree.size
  nodes : SameNodes (tree.dropOldest count).nodes trimmed.nodes

/-- No node of the root is among the `count` oldest. -/
def Spares (tree : BlockTree) (count : Nat) (root : Root) : Prop :=
  ∀ (position : Nat) (node : Node), tree.nodes[position]? = some node → node.ref.root = root →
    count ≤ position

section Spares

variable {tree grown : BlockTree} {count : Nat} {root : Root}

theorem spares_of_not_contains
    (indexed : Indexed tree) (absent : tree.containsRoot root = false) : tree.Spares count root :=
  fun _ node here ofRoot => absurd ofRoot
    (indexed.containsRoot_eq_false_iff.1 absent node (List.mem_of_getElem? here))

theorem Spares.grow
    (spares : tree.Spares count root) (inside : count ≤ tree.size)
    (grows : tree.nodes <+: grown.nodes) : grown.Spares count root := by
  intro position node here ofRoot
  obtain ⟨added, together⟩ := grows
  rcases Nat.lt_or_ge position tree.size with old | new
  · rw [← together, List.getElem?_append_left old] at here
    exact spares position node here ofRoot
  · exact Nat.le_trans inside new

end Spares

theorem IsSpan.unique
    {nodes : List Node} {root : Root} {span other : Span} (isSpan : IsSpan nodes root span)
    (isOther : IsSpan nodes root other) : span = other := by
  obtain ⟨first, firstHere, firstRoot⟩ := isSpan.first
  obtain ⟨last, lastHere, lastRoot⟩ := isSpan.last
  obtain ⟨otherFirst, otherFirstHere, otherFirstRoot⟩ := isOther.first
  obtain ⟨otherLast, otherLastHere, otherLastRoot⟩ := isOther.last
  have lower := isOther.within _ _ firstHere firstRoot
  have upper := isOther.within _ _ lastHere lastRoot
  have otherLower := isSpan.within _ _ otherFirstHere otherFirstRoot
  have otherUpper := isSpan.within _ _ otherLastHere otherLastRoot
  obtain ⟨_, _⟩ := span
  obtain ⟨_, _⟩ := other
  simp only [Span.mk.injEq] at *
  omega

theorem SameNodes.dropOldest
    {tree other : BlockTree} (same : SameNodes tree.nodes other.nodes) (count : Nat) :
    SameNodes (tree.dropOldest count).nodes (other.dropOldest count).nodes := by
  have shifted : ∀ node : Node, (shiftNode count node).bare = (shiftNode count node.bare).bare :=
    fun _ => rfl
  have lists : ∀ nodes : List Node, ((nodes.drop count).map (shiftNode count)).map Node.bare =
      ((nodes.map Node.bare).drop count).map fun node => (shiftNode count node).bare := by
    intro nodes
    rw [← List.map_drop, List.map_map, List.map_map]
    exact List.map_congr_left fun node _ => shifted node
  rw [SameNodes, nodes_dropOldest, nodes_dropOldest, lists, lists, same]

namespace Trimmed

variable {tree trimmed : BlockTree} {count : Nat}

theorem of_sameShape
    (wellFormed : WellFormed tree) (same : SameShape trimmed tree) : Trimmed 0 tree trimmed where
  whole := wellFormed
  rest := same.symm.wellFormed wellFormed
  inside := Nat.zero_le _
  nodes := by
    rw [dropOldest_zero]
    exact same.nodes.symm

theorem congr
    (cut : Trimmed count tree trimmed) {other rest : BlockTree} (sameTree : SameShape other tree)
    (sameRest : SameShape rest trimmed) : Trimmed count other rest where
  whole := sameTree.symm.wellFormed cut.whole
  rest := sameRest.symm.wellFormed cut.rest
  inside := sameTree.size_eq.symm ▸ cut.inside
  nodes := (sameTree.nodes.dropOldest count).trans (cut.nodes.trans sameRest.nodes.symm)

theorem withOutdated (cut : Trimmed count tree trimmed) (first second : Bool) :
    Trimmed count { tree with outdated := first } { trimmed with outdated := second } :=
  cut.congr ⟨rfl, rfl, rfl⟩ ⟨rfl, rfl, rfl⟩

/-- What has been dropped already need not be dropped again. -/
theorem remainder
    (cut : Trimmed count tree trimmed) {part : BlockTree} {accepted : Nat}
    (first : Trimmed accepted tree part) (notMore : accepted ≤ count) :
    Trimmed (count - accepted) part trimmed where
  whole := first.rest
  rest := cut.rest
  inside := by
    have := cut.inside
    have lengths := first.nodes.length_eq
    simp only [size, nodes_dropOldest, List.length_map, List.length_drop] at this lengths ⊢
    omega
  nodes := by
    have rest : SameNodes (part.dropOldest (count - accepted)).nodes
        ((tree.dropOldest accepted).dropOldest (count - accepted)).nodes :=
      first.nodes.symm.dropOldest _
    rw [dropOldest_dropOldest, Nat.add_sub_cancel' notMore] at rest
    exact rest.trans cut.nodes

theorem size_eq (cut : Trimmed count tree trimmed) : tree.size = trimmed.size + count := by
  have lengths := cut.nodes.length_eq
  have := cut.inside
  simp only [nodes_dropOldest, List.length_map, List.length_drop, size] at lengths this ⊢
  omega

theorem exists_whole
    (cut : Trimmed count tree trimmed) {position : Nat} {node : Node}
    (here : trimmed.nodes[position]? = some node) :
    ∃ before, tree.nodes[position + count]? = some before ∧
      (shiftNode count before).bare = node.bare := by
  obtain ⟨other, there, alike⟩ := cut.nodes.symm.getElem?_eq_some here
  obtain ⟨before, found, rfl⟩ := getElem?_dropOldest_eq_some_iff.1 there
  exact ⟨before, found, alike⟩

theorem exists_rest
    (cut : Trimmed count tree trimmed) {position : Nat} {before : Node}
    (there : tree.nodes[position + count]? = some before) :
    ∃ node, trimmed.nodes[position]? = some node ∧ node.bare = (shiftNode count before).bare :=
  cut.nodes.getElem?_eq_some (getElem?_dropOldest there)

theorem position?_iff
    (cut : Trimmed count tree trimmed) {ref : NodeRef} {position : Nat} :
    trimmed.position? ref = some position ↔ tree.position? ref = some (position + count) := by
  rw [cut.rest.positions, cut.whole.positions]
  constructor
  · rintro ⟨node, here, rfl⟩
    obtain ⟨before, there, alike⟩ := cut.exists_whole here
    exact ⟨before, there, ((Node.bare_eq_iff _ _).1 alike).1⟩
  · rintro ⟨before, there, rfl⟩
    obtain ⟨node, here, alike⟩ := cut.exists_rest there
    exact ⟨node, here, ((Node.bare_eq_iff _ _).1 alike).1⟩

theorem stateDescends_iff
    (cut : Trimmed count tree trimmed) {below above : Nat} :
    trimmed.StateDescends below above ↔ tree.StateDescends (below + count) (above + count) := by
  rw [← cut.whole.stateDescends_dropOldest]
  have sameParents : (tree.dropOldest count).StateDescends = trimmed.StateDescends :=
    descends_congr (cut.nodes.bind_eq Node.stateParent fun _ => rfl)
  rw [sameParents]

theorem containsRoot_eq_false
    (cut : Trimmed count tree trimmed) {root : Root} (absent : tree.containsRoot root = false) :
    trimmed.containsRoot root = false := by
  rw [cut.rest.containsRoot_eq_false_iff]
  intro node member
  obtain ⟨position, here⟩ := List.mem_iff_getElem?.1 member
  obtain ⟨before, there, alike⟩ := cut.exists_whole here
  rw [← ((Node.bare_eq_iff _ _).1 alike).1]
  exact cut.whole.containsRoot_eq_false_iff.1 absent before (List.mem_of_getElem? there)

section Spared

variable {root : Root}

theorem position?_eq
    (cut : Trimmed count tree trimmed) (spares : tree.Spares count root) (slot : Nat) :
    tree.position? ⟨root, slot⟩ = (trimmed.position? ⟨root, slot⟩).map (· + count) := by
  refine Option.ext fun position => ?_
  rw [Option.map_eq_some_iff]
  constructor
  · intro present
    obtain ⟨node, here, named⟩ := (cut.whole.positions _ _).1 present
    have notBefore := spares position node here (by rw [named])
    exact ⟨position - count, cut.position?_iff.2 (by rwa [Nat.sub_add_cancel notBefore]),
      Nat.sub_add_cancel notBefore⟩
  · rintro ⟨shifted, present, rfl⟩
    exact cut.position?_iff.1 present

theorem contains_eq
    (cut : Trimmed count tree trimmed) (spares : tree.Spares count root) (slot : Nat) :
    trimmed.contains ⟨root, slot⟩ = tree.contains ⟨root, slot⟩ := by
  have positions := cut.position?_eq spares slot
  unfold position? at positions
  simp [contains, Table.contains, positions]

/-- The span of a spared root is the same, shifted with the nodes. -/
theorem spans_eq
    (cut : Trimmed count tree trimmed) (spares : tree.Spares count root) :
    tree.spans.find? root =
      (trimmed.spans.find? root).map fun span => ⟨span.first + count, span.last + count⟩ := by
  cases found : trimmed.spans.find? root with
  | none =>
    rw [Option.map_none, cut.whole.spans_eq_none_iff]
    intro node member ofRoot
    obtain ⟨position, here⟩ := List.mem_iff_getElem?.1 member
    have notBefore := spares position node here ofRoot
    rw [← Nat.sub_add_cancel notBefore] at here
    obtain ⟨short, there, alike⟩ := cut.exists_rest here
    have named : short.ref = node.ref := ((Node.bare_eq_iff _ _).1 alike).1
    exact cut.rest.spans_eq_none_iff.1 found short (List.mem_of_getElem? there)
      (named ▸ ofRoot)
  | some span =>
    have isSpan := cut.rest.spanOf root span found
    have ends : ∀ {position : Nat}, (∃ node : Node, trimmed.nodes[position]? = some node ∧
        node.ref.root = root) →
        ∃ node : Node, tree.nodes[position + count]? = some node ∧ node.ref.root = root := by
      rintro position ⟨node, here, ofRoot⟩
      obtain ⟨before, there, alike⟩ := cut.exists_whole here
      have named : before.ref = node.ref := ((Node.bare_eq_iff _ _).1 alike).1
      exact ⟨before, there, named ▸ ofRoot⟩
    have shifted : IsSpan tree.nodes root ⟨span.first + count, span.last + count⟩ := {
      first := ends isSpan.first
      last := ends isSpan.last
      within := fun position node here ofRoot => by
        have notBefore := spares position node here ofRoot
        rw [← Nat.sub_add_cancel notBefore] at here
        obtain ⟨short, there, alike⟩ := cut.exists_rest here
        have named : short.ref = node.ref := ((Node.bare_eq_iff _ _).1 alike).1
        have := isSpan.within _ short there (named ▸ ofRoot)
        simp only
        omega }
    obtain ⟨node, here, rfl⟩ := shifted.first
    obtain ⟨other, known⟩ := cut.whole.spanned _ node here
    rw [known, Option.map_some, (cut.whole.spanOf _ other known).unique shifted]

theorem earliestSlot?_eq
    (cut : Trimmed count tree trimmed) (spares : tree.Spares count root) :
    trimmed.earliestSlot? root = tree.earliestSlot? root := by
  simp only [earliestSlot?, cut.spans_eq spares]
  cases found : trimmed.spans.find? root with
  | none => rfl
  | some span =>
    obtain ⟨node, here, _⟩ := (cut.rest.spanOf root span found).first
    obtain ⟨before, there, alike⟩ := cut.exists_whole here
    have named : before.ref = node.ref := ((Node.bare_eq_iff _ _).1 alike).1
    simp [here, there, named]

theorem latestSlot?_eq
    (cut : Trimmed count tree trimmed) (spares : tree.Spares count root) :
    trimmed.latestSlot? root = tree.latestSlot? root := by
  simp only [latestSlot?, cut.spans_eq spares]
  cases found : trimmed.spans.find? root with
  | none => rfl
  | some span =>
    obtain ⟨node, here, _⟩ := (cut.rest.spanOf root span found).last
    obtain ⟨before, there, alike⟩ := cut.exists_whole here
    have named : before.ref = node.ref := ((Node.bare_eq_iff _ _).1 alike).1
    simp [here, there, named]

theorem resolve?_eq
    (cut : Trimmed count tree trimmed) (spares : tree.Spares count root) (slot : Nat) :
    tree.resolve? ⟨root, slot⟩ =
      (trimmed.resolve? ⟨root, slot⟩).map fun found => (found.1, found.2 + count) := by
  simp only [resolve?, cut.position?_eq spares, ← cut.earliestSlot?_eq spares,
    ← cut.latestSlot?_eq spares]
  cases trimmed.position? ⟨root, slot⟩ with
  | some position => rfl
  | none =>
    cases trimmed.earliestSlot? root with
    | none => rfl
    | some earliest =>
      cases trimmed.latestSlot? root with
      | none => rfl
      | some latest =>
        by_cases tooEarly : slot < earliest
        · simp [tooEarly]
        · simp only [Option.map_none, bind, Option.bind_some, if_neg tooEarly]
          cases trimmed.position? ⟨root, min slot latest⟩ <;> rfl

end Spared

/-! ## Insertions -/

theorem push
    (cut : Trimmed count tree trimmed) {node short : Node} (whole : WellFormed (tree.push node))
    (rest : WellFormed (trimmed.push short)) (alike : (shiftNode count node).bare = short.bare) :
    Trimmed count (tree.push node) (trimmed.push short) where
  whole := whole
  rest := rest
  inside := by
    rw [size_push]
    exact Nat.le_succ_of_le cut.inside
  nodes := by
    have same := cut.nodes
    simp only [nodes_dropOldest] at same
    simp only [SameNodes, nodes_dropOldest, nodes_push, List.drop_append_of_le_length cut.inside,
      List.map_append, List.map_cons, List.map_nil, alike]
    rw [show _ = _ from same]

theorem appendSlots
    {root : Root} (stamp : Stamp) :
    ∀ (slots : Nat) {tree trimmed : BlockTree} {position : Nat} {latest : Node},
      Trimmed count tree trimmed → trimmed.nodes[position]? = some latest → latest.ref.root = root →
      (∀ (other : Nat) (found : Node), trimmed.nodes[other]? = some found →
        found.ref.root = root → found.ref.slot ≤ latest.ref.slot) →
      tree.Spares count root →
      Trimmed count (appendSlots root stamp slots tree (position + count) latest.ref.slot)
        (appendSlots root stamp slots trimmed position latest.ref.slot)
  | 0, _, _, _, _, cut, _, _, _, _ => cut
  | slots + 1, tree, trimmed, position, latest, cut, here, ofRoot, isLast, spares => by
    obtain ⟨before, there, alike⟩ := cut.exists_whole here
    have named : before.ref = latest.ref := ((Node.bare_eq_iff _ _).1 alike).1
    have isLastWhole : ∀ (other : Nat) (found : Node), tree.nodes[other]? = some found →
        found.ref.root = before.ref.root → found.ref.slot ≤ before.ref.slot := by
      intro other found otherHere sameRoot
      rw [named, ofRoot] at sameRoot
      have notBefore := spares other found otherHere sameRoot
      rw [← Nat.sub_add_cancel notBefore] at otherHere
      obtain ⟨short, shortHere, shortAlike⟩ := cut.exists_rest otherHere
      have shortNamed : short.ref = found.ref := ((Node.bare_eq_iff _ _).1 shortAlike).1
      have := isLast _ short shortHere (shortNamed ▸ sameRoot)
      rwa [shortNamed, ← named] at this
    subst ofRoot
    have wholeSlot : Appendable (fun _ _ _ => True) tree _ := .slot stamp there isLastWhole
    have restSlot : Appendable (fun _ _ _ => True) trimmed _ := .slot stamp here isLast
    have whole := cut.whole.append wholeSlot
    have rest := cut.rest.append restSlot
    have next : (shiftNode count (slotNode before.ref.root (before.ref.slot + 1) (position + count)
        stamp)).bare = (slotNode latest.ref.root (latest.ref.slot + 1) position stamp).bare := by
      simp [shiftNode, slotNode, Node.bare, named, shift]
    have pushed := cut.push whole rest next
    rw [named] at pushed
    have inside :
        (trimmed.push (slotNode latest.ref.root (latest.ref.slot + 1) position stamp)).nodes[
          trimmed.size]? =
          some (slotNode latest.ref.root (latest.ref.slot + 1) position stamp) := by
      simp [size]
    have again :=
      appendSlots stamp slots pushed inside rfl (fun other found otherHere sameRoot => by
      rcases getElem?_concat_eq_some_iff.1 otherHere with old | ⟨_, rfl⟩
      · exact Nat.le_succ_of_le (isLast other found old sameRoot)
      · exact Nat.le_refl _) (spares.grow cut.inside ⟨[_], rfl⟩)
    simp only [BlockTree.appendSlots]
    rw [← slotNode, ← slotNode, cut.size_eq]
    exact again

theorem insertSlots
    (cut : Trimmed count tree trimmed) {root : Root} (spares : tree.Spares count root) (slot : Nat)
    (stamp : Stamp) :
    (tree.insertSlots root slot stamp).1 = (trimmed.insertSlots root slot stamp).1 ∧
      Trimmed count (tree.insertSlots root slot stamp).2
        (trimmed.insertSlots root slot stamp).2 := by
  simp only [BlockTree.insertSlots, ← cut.contains_eq spares slot, cut.spans_eq spares,
    ← cut.latestSlot?_eq spares]
  split
  next => exact ⟨rfl, cut⟩
  next =>
    cases found : trimmed.spans.find? root with
    | none => exact ⟨rfl, cut⟩
    | some span =>
      obtain ⟨latest, here, ofRoot⟩ := (cut.rest.spanOf root span found).last
      simp only [WellFormed.latestSlot?_eq found here, Option.map_some]
      split
      next => exact ⟨rfl, cut⟩
      next =>
        have isLast : ∀ (other : Nat) (node : Node), trimmed.nodes[other]? = some node →
            node.ref.root = root → node.ref.slot ≤ latest.ref.slot :=
          fun other node otherHere sameRoot =>
            (cut.rest.slot_le_iff here otherHere (sameRoot.trans ofRoot.symm)).2
              ((cut.rest.spanOf root span found).within other node otherHere sameRoot).2
        exact ⟨rfl, (appendSlots stamp _ cut here ofRoot isLast spares).withOutdated true true⟩

theorem insertBlock
    (cut : Trimmed count tree trimmed) {parentRoot root : Root}
    (spares : tree.Spares count parentRoot) (isNew : tree.containsRoot root = false) (slot : Nat)
    (stamp : Stamp) :
    (tree.insertBlock parentRoot root slot stamp).1 =
        (trimmed.insertBlock parentRoot root slot stamp).1 ∧
      Trimmed count (tree.insertBlock parentRoot root slot stamp).2
        (trimmed.insertBlock parentRoot root slot stamp).2 := by
  have grows : Grows (fun _ _ _ => True) tree (tree.insertBlock parentRoot root slot stamp).2 :=
    insertBlock_grows _ cut.whole stamp trivial
  have restGrows : Grows (fun _ _ _ => True) trimmed
      (trimmed.insertBlock parentRoot root slot stamp).2 :=
    insertBlock_grows _ cut.rest stamp trivial
  have whole := cut.whole.grow grows
  have rest := cut.rest.grow restGrows
  obtain ⟨appended, together, _, _⟩ :=
    insertSlots_spec (fun _ _ _ => True) cut.whole parentRoot slot stamp
  have sparesStill := spares.grow cut.inside ⟨appended, together.symm⟩
  obtain ⟨sameAnswer, filled⟩ := cut.insertSlots spares slot stamp
  simp only [BlockTree.insertBlock, isNew, cut.containsRoot_eq_false isNew, Bool.false_eq_true,
    if_false, cut.earliestSlot?_eq spares] at whole rest ⊢
  cases known : tree.earliestSlot? parentRoot with
  | none => exact ⟨rfl, cut⟩
  | some earliest =>
    simp only [known] at whole rest ⊢
    split
    next before =>
      rw [if_pos before] at whole rest
      generalize tree.insertSlots parentRoot slot stamp = wholeResult at *
      generalize trimmed.insertSlots parentRoot slot stamp = restResult at *
      obtain ⟨answer, grown⟩ := wholeResult
      obtain ⟨_, shorter⟩ := restResult
      obtain rfl : answer = _ := sameAnswer
      cases answer with
      | false => exact ⟨rfl, filled⟩
      | true =>
        have positions := filled.position?_eq sparesStill slot
        cases present : shorter.position? ⟨parentRoot, slot⟩ with
        | none =>
          rw [present] at positions
          simp only [locate?, present, positions, Option.map_none, bind, Option.bind_none, true_and]
          exact filled
        | some position =>
          obtain ⟨preState, here, _⟩ := (filled.rest.positions _ _).1 present
          obtain ⟨before, there, alike⟩ := filled.exists_whole here
          rw [present] at positions
          have located : grown.locate? ⟨parentRoot, slot⟩ = some (position + count, before) := by
            simp [locate?, positions, there]
          have restLocated : shorter.locate? ⟨parentRoot, slot⟩ = some (position, preState) := by
            simp [locate?, present, here]
          simp only [located, restLocated] at whole rest ⊢
          have voteParent := ((Node.bare_eq_iff _ _).1 alike).2.2.1
          have pushed := filled.push (whole.withOutdated grown.outdated)
            (rest.withOutdated shorter.outdated) (by
              simp only [shiftNode] at voteParent
              simp [shiftNode, Node.bare, shift, voteParent])
          exact ⟨trivial, pushed.withOutdated true true⟩
    next => exact ⟨rfl, cut⟩

end Trimmed

theorem Spares.remainder
    {tree trimmed : BlockTree} {count accepted : Nat} {root : Root}
    (spares : tree.Spares count root)
    (cut : Trimmed accepted tree trimmed) : trimmed.Spares (count - accepted) root := by
  intro position node here ofRoot
  obtain ⟨before, there, alike⟩ := cut.exists_whole here
  have named : before.ref = node.ref := ((Node.bare_eq_iff _ _).1 alike).1
  have := spares _ before there (named ▸ ofRoot)
  omega

/-- The nodes before a position, by name, each with the mark whether it is an ancestor of the
node there. -/
def markedNames (tree : BlockTree) (position : Nat) : List (NodeRef × Bool) :=
  (tree.markedBefore position position).map fun marked => (marked.1.ref, marked.2)

section Names

variable {tree : BlockTree} {position place : Nat} {node : Node}

theorem take_markedNames (tree : BlockTree) (position : Nat) :
    (tree.markedNames position).take position = tree.markedNames position := by
  apply List.take_of_length_le
  simp only [markedNames, markedBefore, List.length_map, List.length_mapIdx, List.length_take]
  exact Nat.min_le_left _ _

theorem WellFormed.getElem?_markedNames
    (wellFormed : WellFormed tree) (inside : position < tree.size) {ref : NodeRef} {mark : Bool} :
    (tree.markedNames position)[place]? = some (ref, mark) ↔
      place < position ∧ (∃ node, tree.nodes[place]? = some node ∧ node.ref = ref) ∧
        (mark = true ↔ tree.StateDescends position place) :=
  wellFormed.getElem?_map_markedBefore inside Node.ref

theorem Sound.markedNames_eq
    (sound : Sound tree) (here : tree.nodes[position]? = some node) :
    (tree.markedBefore position (node.headPosition position)).map
      (fun marked => (marked.1.ref, marked.2)) = tree.markedNames position := by
  rw [sound.markedBefore_eq here]
  rfl

/-- What is left when some of the nodes before a position have been dropped has the marks of
the others. -/
theorem Trimmed.markedNames_eq
    {trimmed : BlockTree} {accepted : Nat} (cut : Trimmed accepted tree trimmed)
    (inside : position + accepted < tree.size) :
    trimmed.markedNames position = (tree.markedNames (position + accepted)).drop accepted := by
  have shorter : position < trimmed.size := by
    have := cut.size_eq
    omega
  refine List.ext_getElem? fun place => Option.ext fun ⟨ref, mark⟩ => ?_
  rw [cut.rest.getElem?_markedNames shorter, List.getElem?_drop,
    cut.whole.getElem?_markedNames inside, cut.stateDescends_iff, Nat.add_comm accepted place]
  refine and_congr (by omega) (and_congr_left fun _ => ⟨?_, ?_⟩)
  · rintro ⟨node, here, named⟩
    obtain ⟨before, there, alike⟩ := cut.exists_whole here
    exact ⟨before, there, ((Node.bare_eq_iff _ _).1 alike).1.trans named⟩
  · rintro ⟨before, there, named⟩
    obtain ⟨node, here, alike⟩ := cut.exists_rest there
    exact ⟨node, here, ((Node.bare_eq_iff _ _).1 alike).1.trans named⟩

theorem WellFormed.markedNames_of_prefix
    {grown : BlockTree} (wellFormed : WellFormed tree) (grownWellFormed : WellFormed grown)
    (grows : tree.nodes <+: grown.nodes) (inside : position < tree.size) :
    grown.markedNames position = tree.markedNames position := by
  obtain ⟨added, together⟩ := grows
  have insideGrown : position < grown.size := by
    simp only [size, ← together, List.length_append] at inside ⊢
    omega
  refine List.ext_getElem? fun place => Option.ext fun named => ?_
  obtain ⟨ref, mark⟩ := named
  rw [grownWellFormed.getElem?_markedNames insideGrown, wellFormed.getElem?_markedNames inside]
  refine and_congr_right fun before => ?_
  have descends : grown.StateDescends position place ↔ tree.StateDescends position place := by
    have ordered := grownWellFormed.stateParentsFirst
    rw [← together] at ordered
    simp only [StateDescends, ← together]
    exact descends_append ordered inside
  rw [descends, ← together, List.getElem?_append_left (Nat.lt_trans before inside)]

end Names

end BeaconChain.BlockTree
