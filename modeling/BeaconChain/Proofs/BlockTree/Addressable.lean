import BeaconChain.Proofs.BlockTree.Appended
import BeaconChain.Proofs.BlockTree.Kept

/-!
# Positions that lead to nodes

The nodes of a tree are looked up by the positions that its index, its parents and its links keep.
In a tree that can be reached none of them leads outside the list of the nodes: not while links are
found anew, and not while nodes arrive or are taken out.  The empty slot that a block fills is there
once the slots before it have been inserted, and a head that was found has a position.
-/

open Relation

namespace BeaconChain.BlockTree

/-- Every link in a list of nodes leads to nodes of the list. -/
def LinksInside (nodes : List Node) : Prop :=
  ∀ node ∈ nodes, ∀ best, node.best = some best →
    best.child < nodes.length ∧ best.head < nodes.length

/-- What becomes of the nodes while their links are found anew, the nodes from `count` on having
been offered to their vote parents. -/
inductive Linking (current : Stamp) (nodes : List Node) : (count : Nat) → List Node → Prop
  | begin : Linking current nodes nodes.length (nodes.map fun node => { node with best := none })
  | skip {count : Nat} {stage : List Node} (linking : Linking current nodes (count + 1) stage)
    (noParent : (stage[count]?).bind Node.voteParent = none) : Linking current nodes count stage
  | offer {count parent : Nat} {stage : List Node}
    (linking : Linking current nodes (count + 1) stage)
    (isParent : (stage[count]?).bind Node.voteParent = some parent) :
    Linking current nodes count (offerChild current stage parent count)

section Links

variable {current : Stamp} {nodes stage : List Node} {parent child count : Nat}

theorem length_offerChild : (offerChild current nodes parent child).length = nodes.length :=
  (sameNodes_offerChild current nodes parent child).length_eq

theorem LinksInside.headPosition_lt
    (inside : LinksInside nodes) {position : Nat} {node : Node}
    (here : nodes[position]? = some node) :
    node.headPosition position < nodes.length := by
  unfold Node.headPosition
  split
  next best linkOf => exact (inside node (List.mem_of_getElem? here) best linkOf).2
  next => exact (List.getElem?_eq_some_iff.1 here).1

theorem LinksInside.offerChild (inside : LinksInside nodes) :
    LinksInside (offerChild current nodes parent child) := by
  intro node member best linkOf
  rw [length_offerChild]
  unfold BlockTree.offerChild at member
  split at member
  next =>
    split at member
    next offered childHere =>
      obtain ⟨place, there⟩ := List.mem_iff_getElem?.1 member
      rw [List.getElem?_modify] at there
      obtain ⟨before, beforeHere, rfl⟩ := Option.map_eq_some_iff.1 there
      by_cases isParent : parent = place
      · -- the link that is set leads to the child, and on to where the child leads
        rw [if_pos isParent] at linkOf
        cases linkOf
        exact ⟨(List.getElem?_eq_some_iff.1 childHere).1, inside.headPosition_lt childHere⟩
      · rw [if_neg isParent] at linkOf
        exact inside before (List.mem_of_getElem? beforeHere) best linkOf
    next => exact inside node member best linkOf
  next => exact inside node member best linkOf

namespace Linking

theorem length_eq (linking : Linking current nodes count stage) : stage.length = nodes.length := by
  induction linking with
  | begin => exact List.length_map _
  | skip _ _ ih => exact ih
  | offer _ _ ih => rw [length_offerChild, ih]

theorem count_le (linking : Linking current nodes count stage) : count ≤ nodes.length := by
  induction linking with
  | begin => exact Nat.le_refl _
  | skip _ _ ih => exact Nat.le_of_succ_le ih
  | offer _ _ ih => exact Nat.le_of_succ_le ih

theorem linksInside (linking : Linking current nodes count stage) : LinksInside stage := by
  induction linking with
  | begin =>
    intro node member best linkOf
    obtain ⟨_, _, rfl⟩ := List.mem_map.1 member
    cases linkOf
  | skip _ _ ih => exact ih
  | offer _ _ ih => exact ih.offerChild

/-- The pass goes on from any stage to the last one. -/
theorem linkNodes :
    ∀ {count : Nat} {stage : List Node}, Linking current nodes count stage →
      Linking current nodes 0 (linkNodes current count stage)
  | 0, _, linking => linking
  | count + 1, stage, linking => by
    rw [BlockTree.linkNodes]
    cases isParent : (stage[count]?).bind Node.voteParent with
    | none => exact (linking.skip isParent).linkNodes
    | some parent => exact (linking.offer isParent).linkNodes

end Linking

/-- The links that are found are those of the last stage. -/
theorem linking_relink (tree : BlockTree) : Linking tree.stamp tree.nodes 0 tree.relink.nodes :=
  Linking.begin.linkNodes

end Links

section Insertions

variable {tree : BlockTree} {root : Root} {stamp : Stamp}

theorem slot_le_of_mem_appendSlots
    {count last latest : Nat} {node : Node}
    (member : node ∈ (appendSlots root stamp count tree last latest).nodes) :
    node ∈ tree.nodes ∨ node.ref.slot ≤ latest + count := by
  rw [nodes_appendSlots] at member
  exact (List.mem_append.1 member).imp id slot_le_of_mem_missing

/-- No node arrives for a slot behind the one that was asked for. -/
theorem slot_le_of_mem_insertSlots
    {slot : Nat} {node : Node} (member : node ∈ (tree.insertSlots root slot stamp).2.nodes) :
    node ∈ tree.nodes ∨ node.ref.slot ≤ slot := by
  unfold insertSlots at member
  split at member
  next => exact .inl member
  next =>
    split at member
    next span latest _ _ =>
      split at member
      next => exact .inl member
      next notBefore =>
        have behind := slot_le_of_mem_appendSlots member
        rwa [Nat.add_sub_cancel' (Nat.le_of_not_lt notBefore)] at behind
    next => exact .inl member

theorem slot_le_of_mem_insertBlock
    {parentRoot : Root} {slot : Nat} {node : Node}
    (member : node ∈ (tree.insertBlock parentRoot root slot stamp).2.nodes) :
    node ∈ tree.nodes ∨ node.ref.slot ≤ slot := by
  have filled : ∀ {node : Node}, node ∈ (tree.insertSlots parentRoot slot stamp).2.nodes →
      node ∈ tree.nodes ∨ node.ref.slot ≤ slot := slot_le_of_mem_insertSlots
  unfold insertBlock at member
  split at member
  next => exact .inl member
  next =>
    split at member
    next => exact .inl member
    next =>
      split at member
      next =>
        split at member
        next inserted =>
          rw [inserted] at filled
          exact filled member
        next inserted =>
          rw [inserted] at filled
          split at member
          next => exact filled member
          next =>
            rcases List.mem_append.1 member with old | new
            · exact filled old
            · rw [List.mem_singleton.1 new]
              exact .inr (Nat.le_refl slot)
      next => exact .inl member

/-- A slot behind the first one of a root has a node once it has been inserted. -/
theorem WellFormed.insertSlots_locates
    (wellFormed : WellFormed tree) {earliest slot : Nat}
    (known : tree.earliestSlot? root = some earliest) (notEarly : earliest ≤ slot) (stamp : Stamp) :
    (tree.insertSlots root slot stamp).1 = true ∧
      ∃ position node, (tree.insertSlots root slot stamp).2.locate? ⟨root, slot⟩ =
        some (position, node) := by
  have isKnown : tree.containsRoot root = true := by
    by_contra unknown
    rw [earliestSlot?_of_unknown (by simpa using unknown)] at known
    cases known
  obtain ⟨span, first, latest, ends⟩ := exists_ends wellFormed isKnown
  obtain rfl : first = earliest := Option.some.inj (ends.earliestSlot.symm.trans known)
  obtain ⟨next, inserted, longer⟩ := insertSlots_of_not_before wellFormed ends notEarly
  have growth := insertSlots_grows (fun _ _ _ => True) wellFormed root slot stamp
  rw [inserted] at growth ⊢
  obtain ⟨node, member, named⟩ : ∃ node ∈ next.nodes, node.ref = ⟨root, slot⟩ :=
    longer ▸ ends.exists_node notEarly
  obtain ⟨position, here⟩ := List.mem_iff_getElem?.1 member
  exact ⟨rfl, position, node, (wellFormed.grow growth).locate?_eq_some_iff.2 ⟨here, named⟩⟩

/-- A block above a node of an earlier slot is inserted. -/
theorem WellFormed.insertBlock_accepts
    (wellFormed : WellFormed tree) {parentRoot : Root} {earliest slot : Nat}
    (known : tree.earliestSlot? parentRoot = some earliest) (before : earliest < slot)
    (root : Root) (stamp : Stamp) : (tree.insertBlock parentRoot root slot stamp).1 = true := by
  obtain ⟨accepted, position, preState, located⟩ :=
    wellFormed.insertSlots_locates known (Nat.le_of_lt before) stamp
  unfold insertBlock
  by_cases present : tree.containsRoot root = true
  · rw [if_pos present]
  · rw [if_neg present, known]
    dsimp only
    rw [if_pos before]
    split
    next refused =>
      rw [refused] at accepted
      cases accepted
    next inserted =>
      rw [inserted] at located
      rw [located]

end Insertions

/-- Every position that is looked up in a tree is that of a node. -/
structure Addressable (tree : BlockTree) : Prop where
  spans : ∀ root span, tree.spans.find? root = some span →
    span.first < tree.size ∧ span.last < tree.size
  positions : ∀ ref position, tree.position? ref = some position → position < tree.size
  /-- A reference is never resolved to a later slot. -/
  resolved : ∀ ref found position, tree.resolve? ref = some (found, position) →
    found.root = ref.root ∧ found.slot ≤ ref.slot ∧ position < tree.size
  parents : ∀ (line : Line) (position above : Nat) (node : Node),
    tree.nodes[position]? = some node → line.parent node = some above → above < position
  links : LinksInside tree.nodes
  /-- So it is whenever links are found anew, under any stamp. -/
  linking : ∀ current count stage, Linking current tree.nodes count stage →
    count ≤ tree.size ∧ stage.length = tree.size ∧ LinksInside stage
  relinked : Linking tree.stamp tree.nodes 0 tree.relink.nodes
  /-- Above a node of an earlier slot a block is inserted, and finds the empty slot that it
  fills. -/
  insertions : ∀ parentRoot earliest slot stamp, tree.earliestSlot? parentRoot = some earliest →
    earliest < slot → (tree.insertSlots parentRoot slot stamp).1 = true ∧
      (∃ position preState, (tree.insertSlots parentRoot slot stamp).2.locate? ⟨parentRoot, slot⟩ =
        some (position, preState)) ∧
      ∀ root, (tree.insertBlock parentRoot root slot stamp).1 = true
  heads : ∀ anchor head, (tree.findHead anchor).1 = .ok head →
    ∃ position, (tree.findHead anchor).2.position? head = some position
  /-- No more nodes are taken out than there are. -/
  prunings : ∀ {store : Type} (anchor : NodeRef) (receive : NodeReceiver store) (state : store),
    ∃ count ≤ tree.size, (tree.prune anchor receive state).2.1 = tree.refresh.dropOldest count

section Sound

variable {tree : BlockTree}

theorem Indexed.position_lt
    (indexed : Indexed tree) {ref : NodeRef} {position : Nat}
    (known : tree.position? ref = some position) : position < tree.size := by
  obtain ⟨_, here, _⟩ := (indexed.positions ref position).1 known
  exact (List.getElem?_eq_some_iff.1 here).1

theorem Sound.linksInside (sound : Sound tree) : LinksInside tree.nodes := by
  intro node member best linkOf
  obtain ⟨position, here⟩ := List.mem_iff_getElem?.1 member
  obtain ⟨⟨_, child⟩, ⟨_, head⟩, _⟩ := sound.link_spec here linkOf
  exact ⟨child, head⟩

/-- A head that is found is a node. -/
theorem Sound.position?_of_findHead
    (sound : Sound tree) {anchor head : NodeRef} (found : (tree.findHead anchor).1 = .ok head) :
    ∃ position, (tree.findHead anchor).2.position? head = some position := by
  rw [findHead_tree]
  unfold BlockTree.findHead at found
  dsimp only at found
  split at found
  next => cases found
  next node headOf =>
    split at found
    next =>
      cases found
      obtain ⟨position, _, leads⟩ := Option.bind_eq_some_iff.1 headOf
      obtain ⟨_, _, headHere⟩ := Option.bind_eq_some_iff.1 leads
      exact ⟨_, sound.refresh.position?_ref headHere⟩
    next => cases found

theorem Sound.addressable (sound : Sound tree) : Addressable tree where
  spans root span found := by
    have isSpan := sound.spanOf root span found
    obtain ⟨_, firstHere, _⟩ := isSpan.first
    obtain ⟨_, lastHere, _⟩ := isSpan.last
    exact ⟨(List.getElem?_eq_some_iff.1 firstHere).1, (List.getElem?_eq_some_iff.1 lastHere).1⟩
  positions _ _ := sound.position_lt
  resolved ref found position known := by
    obtain ⟨node, latest, rfl⟩ := sound.resolve?_eq_some_iff.1 known
    exact ⟨latest.ofRoot, latest.notLater, (List.getElem?_eq_some_iff.1 latest.here).1⟩
  parents line position above node here step := (sound.parent_found here step).1
  links := sound.linksInside
  linking _ _ _ linking := ⟨linking.count_le, linking.length_eq, linking.linksInside⟩
  relinked := linking_relink tree
  insertions parentRoot earliest slot stamp known before := by
    obtain ⟨accepted, located⟩ :=
      sound.insertSlots_locates known (Nat.le_of_lt before) stamp
    exact ⟨accepted, located, fun root => sound.insertBlock_accepts known before root stamp⟩
  heads _ _ := sound.position?_of_findHead
  prunings anchor receive state := by
    obtain ⟨count, pruned, notMore⟩ := sound.prune_tree_le anchor receive state
    refine ⟨count, ?_, pruned⟩
    cases known : tree.position? anchor with
    | none =>
      rw [known] at notMore
      exact Nat.le_trans notMore (Nat.zero_le _)
    | some position =>
      rw [known] at notMore
      exact Nat.le_trans notMore (Nat.le_of_lt (sound.position_lt known))

end Sound

/-- The trees that operations lead to, where all slots that are inserted are below a limit. -/
inductive Passes (limit : Nat) (tree : BlockTree) : BlockTree → Prop
  | refl : Passes limit tree tree
  | insertSlots {next : BlockTree} (passes : Passes limit tree next) (root : Root) {slot : Nat}
    (stamp : Stamp) (inRange : slot < limit) :
    Passes limit tree (next.insertSlots root slot stamp).2
  | insertBlock {next : BlockTree} (passes : Passes limit tree next) (parentRoot root : Root)
    {slot : Nat} (stamp : Stamp) (inRange : slot < limit) :
    Passes limit tree (next.insertBlock parentRoot root slot stamp).2
  | applyScores {next : BlockTree} (passes : Passes limit tree next) (deltas : List Int)
    (stamp : Stamp) : Passes limit tree (next.applyScores deltas stamp).2
  | findHead {next : BlockTree} (passes : Passes limit tree next) (anchor : NodeRef) :
    Passes limit tree (next.findHead anchor).2
  | prune {next : BlockTree} {store : Type} (passes : Passes limit tree next) (anchor : NodeRef)
    (receive : NodeReceiver store) (state : store) :
    Passes limit tree (next.prune anchor receive state).2.1

/-- The slots of all nodes are below a limit. -/
def Within (limit : Nat) (tree : BlockTree) : Prop :=
  ∀ ref ∈ tree.names, ref.slot < limit

namespace Passes

variable {limit : Nat} {tree next last : BlockTree}

theorem trans (passes : Passes limit tree next) (rest : Passes limit next last) :
    Passes limit tree last := by
  induction rest with
  | refl => exact passes
  | insertSlots _ root stamp inRange ih => exact ih.insertSlots root stamp inRange
  | insertBlock _ parentRoot root stamp inRange ih =>
    exact ih.insertBlock parentRoot root stamp inRange
  | applyScores _ deltas stamp ih => exact ih.applyScores deltas stamp
  | findHead _ anchor ih => exact ih.findHead anchor
  | prune _ anchor receive state ih => exact ih.prune anchor receive state

theorem sound (passes : Passes limit tree next) (sound : Sound tree) : Sound next := by
  induction passes with
  | refl => exact sound
  | insertSlots _ root stamp _ ih => exact ih.insertSlots root _ stamp
  | insertBlock _ parentRoot root stamp _ ih => exact ih.insertBlock parentRoot root _ stamp
  | applyScores _ deltas stamp ih => exact ih.applyScores deltas stamp
  | findHead _ anchor ih => exact ih.findHead anchor
  | prune _ anchor receive state ih => exact ih.prune anchor receive state

theorem within (passes : Passes limit tree next) (within : Within limit tree) :
    Within limit next := by
  induction passes with
  | refl => exact within
  | insertSlots _ root stamp inRange ih =>
    intro ref member
    obtain ⟨node, inside, rfl⟩ := List.mem_map.1 member
    rcases slot_le_of_mem_insertSlots inside with old | notLater
    · exact ih _ (List.mem_map_of_mem old)
    · exact Nat.lt_of_le_of_lt notLater inRange
  | insertBlock _ parentRoot root stamp inRange ih =>
    intro ref member
    obtain ⟨node, inside, rfl⟩ := List.mem_map.1 member
    rcases slot_le_of_mem_insertBlock inside with old | notLater
    · exact ih _ (List.mem_map_of_mem old)
    · exact Nat.lt_of_le_of_lt notLater inRange
  | @applyScores next _ deltas stamp ih =>
    unfold Within
    rw [(sameShape_applyScores next deltas stamp).names_eq]
    exact ih
  | findHead _ anchor ih =>
    unfold Within
    rw [findHead_tree, names_refresh]
    exact ih
  | @prune next store _ anchor receive state ih =>
    obtain ⟨count, pruned⟩ := prune_tree next anchor receive state
    intro ref member
    rw [pruned, names_dropOldest, names_refresh] at member
    exact ih ref (List.mem_of_mem_drop member)

end Passes

end BeaconChain.BlockTree
