import BeaconChain.Proofs.BlockTree.Shape

/-!
# Links

One pass from the last node to the first links every node to its best child.  When
the pass offers a node to its vote parent, all children of the node have been
offered before, so that its own link is already final, and so are the links of all
nodes behind it.  What the pass keeps is that the link of a node leads to the best
of those children that have been offered.
-/

open Relation

namespace BeaconChain

namespace Score

variable {left middle right : Score}

theorem toNat_inj : ∀ {first second : Bool}, first.toNat = second.toNat ↔ first = second := by
  decide

theorem lt_iff :
    left < right ↔
      left.weight < right.weight ∨ left.weight = right.weight ∧
        (left.hasBlock.toNat < right.hasBlock.toNat ∨
          left.hasBlock.toNat = right.hasBlock.toNat ∧
            (left.slot < right.slot ∨
              left.slot = right.slot ∧ left.root.bits.toNat < right.root.bits.toNat)) := by
  have less : ∀ first second : Bool, first < second ↔ first.toNat < second.toNat := by decide
  rw [← less, toNat_inj]
  exact Iff.rfl

theorem lt_trans (first : left < middle) (second : middle < right) : left < right := by
  rw [lt_iff] at *
  omega

theorem lt_or_eq_or_gt (left right : Score) : left < right ∨ left = right ∨ right < left := by
  rw [lt_iff, lt_iff]
  by_cases same : left.weight = right.weight ∧ left.hasBlock.toNat = right.hasBlock.toNat ∧
      left.slot = right.slot ∧ left.root.bits.toNat = right.root.bits.toNat
  · obtain ⟨weight, block, slot, root⟩ := same
    refine .inr (.inl ?_)
    obtain ⟨leftWeight, leftBlock, leftSlot, ⟨leftBits⟩⟩ := left
    obtain ⟨rightWeight, rightBlock, rightSlot, ⟨rightBits⟩⟩ := right
    rw [Score.mk.injEq, Root.mk.injEq]
    exact ⟨weight, toNat_inj.1 block, slot, BitVec.eq_of_toNat_eq root⟩
  · omega

end Score

namespace BlockTree

section Siblings

variable {nodes : List Node} {parent : Node → Option Nat}

/-- A node that is not a child of another descends from at most one of its children. -/
theorem Descends.sibling_eq
    (ordered : ParentsFirst nodes parent) {below child rival above : Nat}
    (fromChild : Descends nodes parent below child) (fromRival : Descends nodes parent below rival)
    (isChild : ParentAt nodes parent child above) (isRival : ParentAt nodes parent rival above) :
    child = rival := by
  have separate : ∀ {older younger : Nat}, Descends nodes parent younger older →
      ParentAt nodes parent younger above → ParentAt nodes parent older above →
      younger = older := by
    intro older younger descends isYounger isOlder
    rcases Decidable.em (younger = older) with same | different
    · exact same
    · obtain ⟨next, step, rest⟩ := descends.parent_of_ne different
      obtain rfl := step.unique isYounger
      have := Descends.le ordered rest
      have := ordered _ _ isOlder
      omega
  rcases Nat.le_total rival child with rivalFirst | childFirst
  · exact separate (Descends.between ordered fromChild fromRival rivalFirst) isChild isRival
  · exact (separate (Descends.between ordered fromRival fromChild childFirst) isRival isChild).symm

end Siblings

/-- Parents stand before their children, and no two nodes have the same name. -/
structure Arranged (nodes : List Node) : Prop where
  ordered : ParentsFirst nodes Node.voteParent
  distinct : ∀ (position other : Nat) (node found : Node), nodes[position]? = some node →
    nodes[other]? = some found → node.ref = found.ref → position = other

/-- The node at a position, or one that descends from it by vote parents, is
viable. -/
def Leads (current : Stamp) (nodes : List Node) (position : Nat) : Prop :=
  ∃ (below : Nat) (node : Node), Descends nodes Node.voteParent below position ∧
    nodes[below]? = some node ∧ current.admits node.stamp = true

/-- The link of the node at `parent` leads to the best of those children from the
position `start` on that lead to a viable head. -/
inductive LinkedFrom (current : Stamp) (nodes : List Node) (start parent : Nat) :
    Option Best → Prop
  | noBest
    (noneLeads : ∀ child, start ≤ child → ParentAt nodes Node.voteParent child parent →
      ¬ Leads current nodes child) :
    LinkedFrom current nodes start parent none
  | toBest {child : Nat} {node : Node}
    (offered : start ≤ child) (isChild : ParentAt nodes Node.voteParent child parent)
    (here : nodes[child]? = some node) (leads : Leads current nodes child)
    (outranksAll : ∀ rival, start ≤ rival → ParentAt nodes Node.voteParent rival parent →
      Leads current nodes rival → rival ≠ child → outranks nodes child rival = true) :
    LinkedFrom current nodes start parent (some ⟨child, node.headPosition child⟩)

/-- All nodes are linked to the best of their children from `start` on. -/
def AllLinkedFrom (current : Stamp) (nodes : List Node) (start : Nat) : Prop :=
  ∀ (position : Nat) (node : Node), nodes[position]? = some node →
    LinkedFrom current nodes start position node.best

theorem Leads.of_parentAt
    {current : Stamp} {nodes : List Node} {child parent : Nat} (leads : Leads current nodes child)
    (step : ParentAt nodes Node.voteParent child parent) : Leads current nodes parent := by
  obtain ⟨below, node, descends, here, viable⟩ := leads
  exact ⟨below, node, descends.tail step, here, viable⟩

/-- A node leads to a viable one if it is viable itself or has a child that leads to
one. -/
theorem Leads.self_or_child
    {current : Stamp} {nodes : List Node} {position : Nat} (leads : Leads current nodes position) :
    (∃ node, nodes[position]? = some node ∧ current.admits node.stamp = true) ∨
      ∃ child, ParentAt nodes Node.voteParent child position ∧ Leads current nodes child := by
  obtain ⟨below, node, descends, here, viable⟩ := leads
  rcases ReflTransGen.cases_tail descends with rfl | ⟨child, rest, step⟩
  · exact .inl ⟨node, here, viable⟩
  · exact .inr ⟨child, step, below, node, rest, here, viable⟩

section Final

variable {current : Stamp} {nodes : List Node} {start : Nat}

/-- Behind the nodes that are still to be offered every head is final: it descends
from its node, and is viable if the node leads to a viable one. -/
theorem AllLinkedFrom.head
    (linked : AllLinkedFrom current nodes start) (arranged : Arranged nodes) :
    ∀ {position : Nat} {node : Node}, nodes[position]? = some node → start ≤ position + 1 →
      ∃ head, nodes[node.headPosition position]? = some head ∧
        Descends nodes Node.voteParent (node.headPosition position) position ∧
        (Leads current nodes position → current.admits head.stamp = true) := by
  intro position
  -- children stand behind their parents, so the induction starts at the last node
  induction later : nodes.length - position using Nat.strongRecOn generalizing position with
  | ind rest ih =>
    intro node here reached
    have inside := (List.getElem?_eq_some_iff.1 here).1
    have link := linked position node here
    revert link
    cases linkOf : node.best with
    | none =>
      intro link
      simp only [Node.headPosition, linkOf]
      refine ⟨node, here, ReflTransGen.refl, fun leads => ?_⟩
      cases link with
      | noBest noneLeads =>
        rcases leads.self_or_child with ⟨found, there, viable⟩ | ⟨child, step, leads⟩
        · exact Option.some.inj (there.symm.trans here) ▸ viable
        · have := arranged.ordered _ _ step
          exact absurd leads (noneLeads child (by omega) step)
    | some link =>
      rintro (_ | @⟨child, childNode, offered, isChild, childHere, leads, _⟩)
      simp only [Node.headPosition, linkOf]
      have later' := arranged.ordered _ _ isChild
      have childInside := isChild.lt_length
      obtain ⟨head, headHere, descends, viable⟩ :=
        ih (nodes.length - child) (by omega) rfl childHere (by omega)
      exact ⟨head, headHere, descends.tail isChild, fun _ => viable leads⟩

theorem AllLinkedFrom.leadsToViable_iff
    (linked : AllLinkedFrom current nodes start) (arranged : Arranged nodes)
    {position : Nat} {node : Node} (here : nodes[position]? = some node)
    (reached : start ≤ position + 1) :
    leadsToViable current nodes position = true ↔ Leads current nodes position := by
  obtain ⟨head, headHere, descends, viable⟩ := linked.head arranged here reached
  have headAt : headAt? nodes position = some head := by simp [headAt?, here, headHere]
  simp only [leadsToViable, headAt, here, Option.any_some, Bool.or_eq_true]
  constructor
  · rintro (headViable | selfViable)
    · exact ⟨_, head, descends, headHere, headViable⟩
    · exact ⟨position, node, ReflTransGen.refl, here, selfViable⟩
  · intro leads
    exact .inl (viable leads)

/-- The score of a node, spelled out. -/
def scoreOf (node head : Node) : Score :=
  ⟨node.weight, head.hasBlock, head.ref.slot, head.ref.root⟩

theorem AllLinkedFrom.score
    (linked : AllLinkedFrom current nodes start) (arranged : Arranged nodes)
    {position : Nat} {node : Node} (here : nodes[position]? = some node)
    (reached : start ≤ position + 1) :
    ∃ head, nodes[node.headPosition position]? = some head ∧
      Descends nodes Node.voteParent (node.headPosition position) position ∧
      scoreAt? nodes position = some (scoreOf node head) := by
  obtain ⟨head, headHere, descends, _⟩ := linked.head arranged here reached
  exact ⟨head, headHere, descends, by simp [scoreAt?, headAt?, here, headHere, scoreOf]⟩

/-- No two children of one node have the same score, because their heads differ. -/
theorem AllLinkedFrom.outranks_total
    (linked : AllLinkedFrom current nodes start) (arranged : Arranged nodes)
    {child rival parent : Nat} (isChild : ParentAt nodes Node.voteParent child parent)
    (isRival : ParentAt nodes Node.voteParent rival parent)
    (childReached : start ≤ child + 1) (rivalReached : start ≤ rival + 1)
    (different : child ≠ rival) :
    outranks nodes child rival = true ∨ outranks nodes rival child = true := by
  obtain ⟨childNode, childHere, _⟩ := parentAt_iff.1 isChild
  obtain ⟨rivalNode, rivalHere, _⟩ := parentAt_iff.1 isRival
  obtain ⟨childHead, childHeadHere, fromChild, childScore⟩ :=
    linked.score arranged childHere childReached
  obtain ⟨rivalHead, rivalHeadHere, fromRival, rivalScore⟩ :=
    linked.score arranged rivalHere rivalReached
  simp only [outranks, childScore, rivalScore, decide_eq_true_eq]
  rcases Score.lt_or_eq_or_gt (scoreOf rivalNode rivalHead) (scoreOf childNode childHead) with
    less | same | greater
  · exact .inl less
  · -- heads of one score have one name, and no node descends from both children
    simp only [scoreOf, Score.mk.injEq] at same
    have sameHead := arranged.distinct _ _ _ _ childHeadHere rivalHeadHere
      (NodeRef.eq_mk same.2.2.2.symm same.2.2.1.symm)
    rw [← sameHead] at fromRival
    exact absurd
      (Descends.sibling_eq arranged.ordered fromChild fromRival isChild isRival) different
  · exact .inr greater

theorem outranks_trans
    {first second third : Nat} (upper : outranks nodes first second = true)
    (lower : outranks nodes second third = true) : outranks nodes first third = true := by
  unfold outranks at *
  cases firstScore : scoreAt? nodes first with
  | none => cases secondScore : scoreAt? nodes second <;> simp [firstScore, secondScore] at upper
  | some score =>
    cases secondScore : scoreAt? nodes second with
    | none => simp [firstScore, secondScore] at upper
    | some middle =>
      cases thirdScore : scoreAt? nodes third with
      | none => simp [secondScore, thirdScore] at lower
      | some least =>
        simp only [firstScore, secondScore, thirdScore, decide_eq_true_eq] at upper lower ⊢
        exact Score.lt_trans lower upper

theorem AllLinkedFrom.scoreAt?_eq
    (linked : AllLinkedFrom current nodes start) (arranged : Arranged nodes)
    {others : List Node} {bound position : Nat}
    (same : ∀ position, bound ≤ position → others[position]? = nodes[position]?)
    (reached : start ≤ position + 1) (behind : bound ≤ position) :
    scoreAt? others position = scoreAt? nodes position := by
  cases here : nodes[position]? with
  | none => simp [scoreAt?, same position behind, here]
  | some node =>
    obtain ⟨head, headHere, descends, _⟩ := linked.score arranged here reached
    have notBefore := Descends.le arranged.ordered descends
    simp [scoreAt?, headAt?, same position behind, here, same _ (Nat.le_trans behind notBefore)]

/-! ## One step of the pass -/

/-- A link takes account of one more child that it outranks, or that leads to no
viable head. -/
theorem LinkedFrom.lower
    {parent : Nat} {link : Option Best} (linked : LinkedFrom current nodes (start + 1) parent link)
    (noLink : link = none → ParentAt nodes Node.voteParent start parent →
      ¬ Leads current nodes start)
    (outranked : ∀ best, link = some best → ParentAt nodes Node.voteParent start parent →
      Leads current nodes start → outranks nodes best.child start = true) :
    LinkedFrom current nodes start parent link := by
  cases linked with
  | noBest noneLeads =>
    refine .noBest fun child offered isChild => ?_
    rcases Nat.lt_or_eq_of_le offered with later | rfl
    · exact noneLeads child later isChild
    · exact noLink rfl isChild
  | toBest offered isChild here leads outranksAll =>
    refine .toBest (Nat.le_of_succ_le offered) isChild here leads ?_
    intro rival rivalOffered isRival rivalLeads different
    rcases Nat.lt_or_eq_of_le rivalOffered with later | rfl
    · exact outranksAll rival later isRival rivalLeads different
    · exact outranked _ rfl isRival rivalLeads

variable {others : List Node}

theorem leads_eq (same : SameNodes others nodes) : Leads current others = Leads current nodes := by
  have through : ∀ {first second : List Node}, SameNodes first second →
      ∀ position, Leads current first position → Leads current second position := by
    rintro first second alike position ⟨below, node, descends, here, viable⟩
    obtain ⟨node', there, bare⟩ := alike.getElem?_eq_some here
    have parents : Descends first Node.voteParent = Descends second Node.voteParent :=
      descends_congr (alike.bind_eq Node.voteParent fun _ => rfl)
    refine ⟨below, node', parents ▸ descends, there, ?_⟩
    rw [((Node.bare_eq_iff _ _).1 bare).2.2.2.2]
    exact viable
  funext position
  exact propext ⟨through same position, through same.symm position⟩

theorem SameNodes.parentAt_eq (same : SameNodes others nodes) :
    ParentAt others Node.voteParent = ParentAt nodes Node.voteParent := by
  funext child above
  simp only [ParentAt, same.bind_eq Node.voteParent fun _ => rfl]

/-- Whether a node is linked to the best of some children does not depend on the
links of the nodes before these children. -/
theorem LinkedFrom.congr
    {parent : Nat} {link : Option Best} (linked : LinkedFrom current nodes start parent link)
    (allLinked : AllLinkedFrom current nodes start) (arranged : Arranged nodes)
    (same : SameNodes others nodes)
    (alike : ∀ position, start ≤ position → others[position]? = nodes[position]?) :
    LinkedFrom current others start parent link := by
  cases linked with
  | noBest noneLeads =>
    refine .noBest fun child offered isChild => ?_
    rw [leads_eq same]
    rw [same.parentAt_eq] at isChild
    exact noneLeads child offered isChild
  | toBest offered isChild here leads outranksAll =>
    refine .toBest offered (same.parentAt_eq ▸ isChild) ((alike _ offered).trans here)
      (leads_eq same ▸ leads) ?_
    intro rival rivalOffered isRival rivalLeads different
    rw [same.parentAt_eq] at isRival
    rw [leads_eq same] at rivalLeads
    have outranked := outranksAll rival rivalOffered isRival rivalLeads different
    simp only [outranks] at outranked ⊢
    rw [allLinked.scoreAt?_eq arranged alike (Nat.le_succ_of_le rivalOffered) rivalOffered,
      allLinked.scoreAt?_eq arranged alike (Nat.le_succ_of_le offered) offered]
    exact outranked

theorem Arranged.congr (arranged : Arranged nodes) (same : SameNodes others nodes) :
    Arranged others where
  ordered child above step := by
    rw [same.parentAt_eq] at step
    exact arranged.ordered child above step
  distinct position other node found here there named := by
    obtain ⟨node', here', bare⟩ := same.getElem?_eq_some here
    obtain ⟨found', there', bareFound⟩ := same.getElem?_eq_some there
    have sameName : node'.ref = found'.ref := by
      rw [((Node.bare_eq_iff _ _).1 bare).1, ((Node.bare_eq_iff _ _).1 bareFound).1, named]
    exact arranged.distinct position other node' found' here' there' sameName

theorem AllLinkedFrom.refuse
    (linked : AllLinkedFrom current nodes (start + 1)) (arranged : Arranged nodes)
    {parent : Nat} (isChild : ParentAt nodes Node.voteParent start parent)
    (refused : (leadsToViable current nodes start && outranksBest nodes parent start) = false) :
    AllLinkedFrom current nodes start := by
  obtain ⟨node, here, _⟩ := parentAt_iff.1 isChild
  have viable := linked.leadsToViable_iff arranged here (Nat.le_refl _)
  intro position above aboveHere
  have link := linked position above aboveHere
  refine link.lower ?_ ?_
  · intro noLink isChild' leads
    obtain rfl := isChild.unique isChild'
    simp [viable.2 leads, outranksBest, aboveHere, noLink] at refused
  · intro best linkOf isChild' leads
    obtain rfl := isChild.unique isChild'
    rw [linkOf] at link
    obtain _ | @⟨rival, _, offered, isRival, _, _, _⟩ := link
    have notBetter : outranks nodes start rival ≠ true := by
      simpa [viable.2 leads, outranksBest, aboveHere, linkOf] using refused
    have := linked.outranks_total arranged isRival isChild (Nat.le_succ_of_le offered)
      (Nat.le_refl _) (by omega)
    exact this.resolve_right notBetter

theorem AllLinkedFrom.take
    (linked : AllLinkedFrom current nodes (start + 1)) (arranged : Arranged nodes)
    {parent : Nat} {node : Node} (isChild : ParentAt nodes Node.voteParent start parent)
    (here : nodes[start]? = some node) (leads : Leads current nodes start)
    (better : outranksBest nodes parent start = true) :
    AllLinkedFrom current
      (nodes.modify parent fun above =>
        { above with best := some ⟨start, node.headPosition start⟩ })
      start := by
  have before := arranged.ordered _ _ isChild
  have same : SameNodes (nodes.modify parent fun above =>
      { above with best := some ⟨start, node.headPosition start⟩ }) nodes :=
    sameNodes_modify nodes parent fun _ => rfl
  have alike : ∀ position, start ≤ position → (nodes.modify parent fun above =>
      { above with best := some ⟨start, node.headPosition start⟩ })[position]? =
        nodes[position]? := by
    intro position behind
    have different : parent ≠ position := by omega
    simp [different]
  intro position changed changedHere
  rw [List.getElem?_modify] at changedHere
  by_cases isParent : parent = position
  · subst isParent
    simp only [if_true, Option.map_eq_map, Option.map_eq_some_iff] at changedHere
    obtain ⟨above, aboveHere, rfl⟩ := changedHere
    refine .toBest (Nat.le_refl _) (same.parentAt_eq ▸ isChild)
      ((alike _ (Nat.le_refl _)).trans here) (leads_eq same ▸ leads) ?_
    intro rival offered isRival rivalLeads different
    rw [same.parentAt_eq] at isRival
    rw [leads_eq same] at rivalLeads
    have outranked : outranks nodes start rival = true := by
      have link := linked parent above aboveHere
      cases linkOf : above.best with
      | none =>
        rw [linkOf] at link
        cases link with
        | noBest noneLeads => exact absurd rivalLeads (noneLeads rival (by omega) isRival)
      | some best =>
        rw [linkOf] at link
        simp only [outranksBest, aboveHere, linkOf, Option.bind_some] at better
        obtain _ | @⟨child, _, _, _, _, _, outranksAll⟩ := link
        by_cases isBest : rival = child
        · exact isBest ▸ better
        · exact outranks_trans better (outranksAll rival (by omega) isRival rivalLeads isBest)
    simp only [outranks] at outranked ⊢
    rw [linked.scoreAt?_eq arranged alike (by omega) offered,
      linked.scoreAt?_eq arranged alike (Nat.le_refl _) (Nat.le_refl _)]
    exact outranked
  · have kept : nodes[position]? = some changed := by simpa [isParent] using changedHere
    have link := (linked position changed kept).congr linked arranged same
      fun position behind => alike position (Nat.le_of_succ_le behind)
    refine link.lower ?_ ?_
    · intro _ isChild'
      rw [same.parentAt_eq] at isChild'
      exact absurd (isChild.unique isChild') isParent
    · intro _ _ isChild'
      rw [same.parentAt_eq] at isChild'
      exact absurd (isChild.unique isChild') isParent

/-- The pass leaves every node linked to the best of all its children. -/
theorem allLinkedFrom_linkNodes :
    ∀ {count : Nat} {nodes : List Node}, Arranged nodes → AllLinkedFrom current nodes count →
      AllLinkedFrom current (linkNodes current count nodes) 0
  | 0, _, _, linked => linked
  | count + 1, nodes, arranged, linked => by
    rw [linkNodes]
    cases step : (nodes[count]?).bind Node.voteParent with
    | none =>
      refine allLinkedFrom_linkNodes arranged fun position node here => ?_
      refine (linked position node here).lower ?_ ?_
      · intro _ isChild
        simp [ParentAt, step] at isChild
      · intro _ _ isChild
        simp [ParentAt, step] at isChild
    | some parent =>
      have isChild : ParentAt nodes Node.voteParent count parent := step
      obtain ⟨node, here, _⟩ := parentAt_iff.1 isChild
      simp only [offerChild, here]
      have same := sameNodes_offerChild current nodes parent count
      simp only [offerChild, here] at same
      refine allLinkedFrom_linkNodes (arranged.congr same) ?_
      · split
        next taken =>
          rw [Bool.and_eq_true] at taken
          have leads := (linked.leadsToViable_iff arranged here (Nat.le_refl _)).1 taken.1
          exact linked.take arranged isChild here leads taken.2
        next refused => exact linked.refuse arranged isChild (by simpa using refused)

end Final

end BlockTree

end BeaconChain
