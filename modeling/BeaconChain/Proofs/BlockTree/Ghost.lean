import BeaconChain.Proofs.BlockTree.Sound

/-!
# Heads by recursion

The head below a node can be defined by recursion from the node downwards: of those
children that have a viable node among their descendants take the greatest, and go
on with its head.  This definition sees nodes by name only; positions, links and the
order of insertion play no part in it.  The tree finds exactly this head.
-/

open Relation

namespace BeaconChain

/-- What is seen of a node by its name. -/
structure Sight where
  parent : Option NodeRef
  weight : Int
  hasBlock : Bool
  stamp : Stamp
  deriving DecidableEq, Repr

namespace Ghost

variable (sight : NodeRef → Option Sight) (current : Stamp)

/-- The node `child` has `parent` for its vote parent. -/
def IsChild (child parent : NodeRef) : Prop :=
  (sight child).bind Sight.parent = some parent

/-- The node is stamped with the current epochs, where these ask for anything. -/
def Viable (node : NodeRef) : Prop :=
  ∃ seen, sight node = some seen ∧ current.admits seen.stamp = true

/-- The node is viable, or one of its descendants is. -/
def Leads (node : NodeRef) : Prop :=
  ∃ below, ReflTransGen (IsChild sight) below node ∧ Viable sight current below

/-- The rank of a child that leads to a head. -/
def score? (child head : NodeRef) : Option Score := do
  let seen ← sight child
  let top ← sight head
  return ⟨seen.weight, top.hasBlock, head.slot, head.root⟩

/-- A child with the head below it comes before another one with its own. -/
def Outranks (child head rival rivalHead : NodeRef) : Prop :=
  ∃ score rivalScore, score? sight child head = some score ∧
    score? sight rival rivalHead = some rivalScore ∧ rivalScore < score

/-- The head below a node: the node itself if none of its children leads to a viable
node, and otherwise the head below the greatest of those that do. -/
inductive Head : NodeRef → NodeRef → Prop
  | here {node : NodeRef}
    (noneLeads : ∀ child, IsChild sight child node → ¬ Leads sight current child) :
    Head node node
  | through {node child : NodeRef} (headOf : NodeRef → NodeRef)
    (isChild : IsChild sight child node) (leads : Leads sight current child)
    (heads : ∀ other, IsChild sight other node → Leads sight current other →
      Head other (headOf other))
    (greatest : ∀ rival, IsChild sight rival node → Leads sight current rival → rival ≠ child →
      Outranks sight child (headOf child) rival (headOf rival)) :
    Head node (headOf child)

variable {sight} {current}

theorem Outranks.asymm
    {child head rival rivalHead : NodeRef} (upper : Outranks sight child head rival rivalHead)
    (lower : Outranks sight rival rivalHead child head) : False := by
  obtain ⟨score, rivalScore, known, rivalKnown, less⟩ := upper
  obtain ⟨rivalScore', score', rivalKnown', known', greater⟩ := lower
  obtain rfl := Option.some.inj (known.symm.trans known')
  obtain rfl := Option.some.inj (rivalKnown.symm.trans rivalKnown')
  have := Score.lt_trans less greater
  rw [Score.lt_iff] at this
  omega

/-- There is at most one head below a node. -/
theorem Head.unique {node head other : NodeRef}
    (isHead : Head sight current node head) (isOther : Head sight current node other) :
    other = head := by
  induction isHead generalizing other with
  | here noneLeads =>
    cases isOther with
    | here => rfl
    | through _ isChild leads => exact absurd leads (noneLeads _ isChild)
  | @through node child headOf isChild leads heads greatest ih =>
    cases isOther with
    | here noneLeads => exact absurd leads (noneLeads _ isChild)
    | @through _ child' headOf' isChild' leads' heads' greatest' =>
      have agree : ∀ between, IsChild sight between node → Leads sight current between →
          headOf' between = headOf between :=
        fun between isBetween leadsBetween =>
          ih between isBetween leadsBetween (heads' between isBetween leadsBetween)
      by_cases same : child' = child
      · subst same
        exact agree child' isChild' leads'
      · have upper := greatest child' isChild' leads' same
        have lower := greatest' child isChild leads (Ne.symm same)
        rw [agree child isChild leads, agree child' isChild' leads'] at lower
        exact (upper.asymm lower).elim

/-- The head descends from the node. -/
theorem Head.descends {node head : NodeRef} (isHead : Head sight current node head) :
    ReflTransGen (IsChild sight) head node := by
  induction isHead with
  | here => exact .refl
  | @through node child headOf isChild leads _ _ ih => exact (ih child isChild leads).tail isChild

/-- No child of the head leads anywhere. -/
theorem Head.noneLeads {node head : NodeRef} (isHead : Head sight current node head) :
    ∀ child, IsChild sight child head → ¬ Leads sight current child := by
  induction isHead with
  | here noneLeads => exact noneLeads
  | @through node child headOf isChild leads _ _ ih => exact ih child isChild leads

/-- A head below a node outranks its siblings. -/
theorem Head.outranks_of_ne
    {node head : NodeRef} (isHead : Head sight current node head) (different : head ≠ node) :
    ∃ parent, IsChild sight head parent ∧
      ∀ rival, IsChild sight rival parent → Leads sight current rival → rival ≠ head →
        ∃ rivalHead, Head sight current rival rivalHead ∧
          Outranks sight head head rival rivalHead := by
  induction isHead with
  | here => exact absurd rfl different
  | @through node child headOf isChild leads heads greatest ih =>
    by_cases isLast : headOf child = child
    · rw [isLast]
      refine ⟨node, isChild, fun rival isRival rivalLeads notChild => ?_⟩
      have outranked := greatest rival isRival rivalLeads notChild
      rw [isLast] at outranked
      exact ⟨headOf rival, heads rival isRival rivalLeads, outranked⟩
    · exact ih child isChild leads isLast

end Ghost

namespace BlockTree

/-- What the nodes of a tree show of one of them. -/
def sightOf (nodes : List Node) (node : Node) : Sight where
  parent := (node.voteParent.bind fun parent => nodes[parent]?).map Node.ref
  weight := node.weight
  hasBlock := node.hasBlock
  stamp := node.stamp

/-- What a tree shows of a name. -/
def sight? (tree : BlockTree) (ref : NodeRef) : Option Sight :=
  (tree.locate? ref).map fun located => sightOf tree.nodes located.2

theorem contains_iff {tree : BlockTree} {ref : NodeRef} :
    tree.contains ref = true ↔ ∃ position, tree.position? ref = some position :=
  Option.isSome_iff_exists

/-- The sight of a node does not depend on the links. -/
theorem SameNodes.sightOf_eq
    {nodes others : List Node} (same : SameNodes nodes others) {node other : Node}
    (bare : other.bare = node.bare) (weight : other.weight = node.weight) :
    sightOf nodes node = sightOf others other := by
  obtain ⟨refs, _, votes, roots, stamps⟩ := (Node.bare_eq_iff _ _).1 bare
  have parents : (node.voteParent.bind fun parent => nodes[parent]?).map Node.ref =
      (node.voteParent.bind fun parent => others[parent]?).map Node.ref := by
    cases node.voteParent with
    | none => rfl
    | some parent =>
      simp only [Option.bind_some]
      rw [← List.getElem?_map, ← List.getElem?_map, same.map_ref_eq]
  simp only [sightOf, Node.hasBlock, refs, votes, roots, stamps, weight, parents]

theorem SameShape.sight?_eq
    {tree other : BlockTree} (same : SameShape tree other)
    (weights : tree.nodes.map Node.weight = other.nodes.map Node.weight) :
    tree.sight? = other.sight? := by
  funext ref
  simp only [sight?, locate?, same.position?_eq]
  cases found : other.position? ref with
  | none => rfl
  | some position =>
    cases here : tree.nodes[position]? with
    | none =>
      have outside := List.getElem?_eq_none_iff.1 here
      rw [same.nodes.length_eq] at outside
      simp [here, List.getElem?_eq_none outside]
    | some node =>
      obtain ⟨node', there, bare⟩ := same.nodes.getElem?_eq_some here
      have weight : node'.weight = node.weight := by
        have at' := congrArg (fun list => list[position]?) weights
        simpa [here, there, eq_comm] using at'
      simp [here, there, same.nodes.sightOf_eq bare weight]

theorem sight?_refresh (tree : BlockTree) : tree.refresh.sight? = tree.sight? :=
  (sameShape_refresh tree).sight?_eq (weights_refresh tree)

section Names

variable {tree : BlockTree} {position : Nat} {node : Node}

theorem sight?_of_getElem? (indexed : Indexed tree) (here : tree.nodes[position]? = some node) :
    tree.sight? node.ref = some (sightOf tree.nodes node) := by
  simp [sight?, indexed.locate?_eq_some_iff.2 ⟨here, rfl⟩]

theorem exists_of_sight? (indexed : Indexed tree) {ref : NodeRef} {seen : Sight}
    (sighted : tree.sight? ref = some seen) :
    ∃ (position : Nat) (node : Node), tree.nodes[position]? = some node ∧ node.ref = ref := by
  obtain ⟨⟨position, node⟩, located, _⟩ := Option.map_eq_some_iff.1 sighted
  exact ⟨position, node, indexed.locate?_eq_some_iff.1 located⟩

theorem isChild_iff
    (wellFormed : WellFormed tree) (here : tree.nodes[position]? = some node) {child : NodeRef} :
    Ghost.IsChild tree.sight? child node.ref ↔
      ∃ (place : Nat) (childNode : Node), tree.nodes[place]? = some childNode ∧
        childNode.ref = child ∧ ParentAt tree.nodes Node.voteParent place position := by
  constructor
  · intro isChild
    obtain ⟨seen, sighted, parent⟩ := Option.bind_eq_some_iff.1 isChild
    obtain ⟨place, childNode, childHere, rfl⟩ := exists_of_sight? wellFormed.toIndexed sighted
    rw [sight?_of_getElem? wellFormed.toIndexed childHere] at sighted
    obtain rfl := Option.some.inj sighted
    obtain ⟨above, aboveAt, named⟩ := Option.map_eq_some_iff.1 parent
    obtain ⟨abovePlace, up, aboveHere⟩ := Option.bind_eq_some_iff.1 aboveAt
    obtain rfl := wellFormed.position_unique aboveHere here named
    exact ⟨place, childNode, childHere, rfl, parentAt_iff.2 ⟨childNode, childHere, up⟩⟩
  · rintro ⟨place, childNode, childHere, rfl, step⟩
    obtain ⟨_, there, up⟩ := parentAt_iff.1 step
    obtain rfl := Option.some.inj (there.symm.trans childHere)
    simp [Ghost.IsChild, sight?_of_getElem? wellFormed.toIndexed childHere, sightOf, up, here]

theorem descends_iff
    (wellFormed : WellFormed tree) (here : tree.nodes[position]? = some node) {below : NodeRef} :
    ReflTransGen (Ghost.IsChild tree.sight?) below node.ref ↔
      ∃ (place : Nat) (found : Node), tree.nodes[place]? = some found ∧ found.ref = below ∧
        tree.VoteDescends place position := by
  constructor
  · intro descends
    generalize top : node.ref = above at descends
    induction descends generalizing position node with
    | refl => exact ⟨position, node, here, top, ReflTransGen.refl⟩
    | tail _ step ih =>
      subst top
      obtain ⟨middle, found, middleHere, named, up⟩ := (isChild_iff wellFormed here).1 step
      obtain ⟨place, bottom, bottomHere, bottomNamed, descends⟩ := ih middleHere named
      exact ⟨place, bottom, bottomHere, bottomNamed, descends.tail up⟩
  · rintro ⟨place, found, there, rfl, descends⟩
    induction descends using ReflTransGen.head_induction_on generalizing found with
    | refl =>
      obtain rfl := Option.some.inj (there.symm.trans here)
      exact ReflTransGen.refl
    | @head low next step rest ih =>
      have inside : next < tree.nodes.length :=
        Nat.lt_trans (wellFormed.voteParentsFirst _ _ step) step.lt_length
      have nextHere := List.getElem?_eq_getElem inside
      exact ReflTransGen.head ((isChild_iff wellFormed nextHere).2 ⟨low, found, there, rfl, step⟩)
        (ih _ nextHere)

theorem ghost_leads_iff
    (wellFormed : WellFormed tree) (here : tree.nodes[position]? = some node) {current : Stamp} :
    Ghost.Leads tree.sight? current node.ref ↔ Leads current tree.nodes position := by
  constructor
  · rintro ⟨below, descends, seen, sighted, viable⟩
    obtain ⟨place, found, there, rfl, down⟩ := (descends_iff wellFormed here).1 descends
    rw [sight?_of_getElem? wellFormed.toIndexed there] at sighted
    obtain rfl := Option.some.inj sighted
    exact ⟨place, found, down, there, viable⟩
  · rintro ⟨place, found, down, there, viable⟩
    exact ⟨found.ref, (descends_iff wellFormed here).2 ⟨place, found, there, rfl, down⟩, _,
      sight?_of_getElem? wellFormed.toIndexed there, viable⟩

/-- The name of the head to which a name is linked. -/
def linkedHead (tree : BlockTree) (ref : NodeRef) : NodeRef :=
  ((tree.position? ref).bind (headAt? tree.nodes)).elim ref Node.ref

theorem linkedHead_eq
    (indexed : Indexed tree) (here : tree.nodes[position]? = some node) {head : Node}
    (headHere : tree.nodes[node.headPosition position]? = some head) :
    tree.linkedHead node.ref = head.ref := by
  simp [linkedHead, indexed.position?_ref here, headAt?, here, headHere]

/-- A position outranks another one if its name does, with the heads to which they are
linked. -/
theorem ghost_outranks
    (wellFormed : WellFormed tree) (linked : AllLinkedFrom tree.stamp tree.nodes 0)
    {rival : Nat} {rivalNode : Node} (here : tree.nodes[position]? = some node)
    (rivalHere : tree.nodes[rival]? = some rivalNode)
    (outranked : outranks tree.nodes position rival = true) :
    Ghost.Outranks tree.sight? node.ref (tree.linkedHead node.ref) rivalNode.ref
      (tree.linkedHead rivalNode.ref) := by
  have scored : ∀ {place : Nat} {found : Node}, tree.nodes[place]? = some found →
      ∃ score, scoreAt? tree.nodes place = some score ∧
        Ghost.score? tree.sight? found.ref (tree.linkedHead found.ref) = some score := by
    intro place found there
    obtain ⟨head, headHere, _, score⟩ := linked.score wellFormed.arranged there (Nat.zero_le _)
    refine ⟨_, score, ?_⟩
    rw [linkedHead_eq wellFormed.toIndexed there headHere]
    simp [Ghost.score?, sight?_of_getElem? wellFormed.toIndexed there,
      sight?_of_getElem? wellFormed.toIndexed headHere, sightOf, scoreOf]
  obtain ⟨score, scoreAt, known⟩ := scored here
  obtain ⟨rivalScore, rivalScoreAt, rivalKnown⟩ := scored rivalHere
  simp only [outranks, scoreAt, rivalScoreAt, decide_eq_true_eq] at outranked
  exact ⟨score, rivalScore, known, rivalKnown, outranked⟩

/-- Where the links are up to date they lead to the head by recursion. -/
theorem ghost_head
    (wellFormed : WellFormed tree) (linked : AllLinkedFrom tree.stamp tree.nodes 0) :
    ∀ {position : Nat} {node : Node}, tree.nodes[position]? = some node →
      Ghost.Head tree.sight? tree.stamp node.ref (tree.linkedHead node.ref) := by
  intro position
  induction later : tree.nodes.length - position using Nat.strongRecOn generalizing position with
  | ind rest ih =>
    intro node here
    obtain ⟨head, headHere, _, _⟩ := linked.head wellFormed.arranged here (Nat.zero_le _)
    have link := linked position node here
    revert link headHere
    cases linkOf : node.best with
    | none =>
      intro headHere link
      simp only [Node.headPosition, linkOf] at headHere
      have self : tree.linkedHead node.ref = node.ref := by
        rw [linkedHead_eq wellFormed.toIndexed here
          (by simpa [Node.headPosition, linkOf] using here)]
      rw [self]
      refine .here fun child isChild leads => ?_
      obtain ⟨place, childNode, childHere, rfl, step⟩ := (isChild_iff wellFormed here).1 isChild
      cases link with
      | noBest noneLeads =>
        exact noneLeads place (Nat.zero_le _) step ((ghost_leads_iff wellFormed childHere).1 leads)
    | some link =>
      intro headHere
      rintro (_ | @⟨child, childNode, _, isChild, childHere, leads, outranksAll⟩)
      simp only [Node.headPosition, linkOf] at headHere
      have sameHead : tree.linkedHead node.ref = tree.linkedHead childNode.ref := by
        rw [linkedHead_eq wellFormed.toIndexed childHere headHere,
          linkedHead_eq wellFormed.toIndexed here
            (by simpa [Node.headPosition, linkOf] using headHere)]
      rw [sameHead]
      refine .through tree.linkedHead
        ((isChild_iff wellFormed here).2 ⟨child, childNode, childHere, rfl, isChild⟩)
        ((ghost_leads_iff wellFormed childHere).2 leads) ?_ ?_
      · intro other isOther _
        obtain ⟨place, otherNode, otherHere, rfl, step⟩ := (isChild_iff wellFormed here).1 isOther
        have behind := wellFormed.voteParentsFirst _ _ step
        have inside := step.lt_length
        exact ih (tree.nodes.length - place) (by omega) rfl otherHere
      · intro rival isRival rivalLeads different
        obtain ⟨place, rivalNode, rivalHere, rfl, step⟩ := (isChild_iff wellFormed here).1 isRival
        refine ghost_outranks wellFormed linked childHere rivalHere ?_
        refine outranksAll place (Nat.zero_le _) step
          ((ghost_leads_iff wellFormed rivalHere).1 rivalLeads) ?_
        rintro rfl
        exact different (by rw [Option.some.inj (childHere.symm.trans rivalHere)])

end Names

/-! ## The search for the head -/

section Search

variable {tree : BlockTree} {anchor : NodeRef}

theorem findHead_of_not_contains (absent : tree.contains anchor = false) :
    (tree.findHead anchor).1 = .error (.unknownAnchor anchor) := by
  have missing : tree.refresh.position? anchor = none := by
    rw [(sameShape_refresh tree).position?_eq]
    cases found : tree.position? anchor with
    | none => rfl
    | some position => simp [contains_iff.2 ⟨position, found⟩] at absent
  simp [findHead, missing]

theorem findHead_of_leads
    (sound : Sound tree) (present : tree.contains anchor = true)
    (leads : Ghost.Leads tree.sight? tree.stamp anchor) :
    ∃ head, (tree.findHead anchor).1 = .ok head ∧
      Ghost.Head tree.sight? tree.stamp anchor head := by
  have fresh := sound.refresh
  have linked := fresh.linked (outdated_refresh tree)
  obtain ⟨position, found⟩ := contains_iff.1 present
  rw [← (sameShape_refresh tree).position?_eq] at found
  obtain ⟨node, here, rfl⟩ := (fresh.positions _ _).1 found
  obtain ⟨head, headHere, _, viable⟩ := linked.head fresh.arranged here (Nat.zero_le _)
  rw [← sight?_refresh, ← stamp_refresh] at leads
  have admitted := viable ((ghost_leads_iff fresh.toWellFormed here).1 leads)
  refine ⟨head.ref, ?_, ?_⟩
  · simp only [findHead, found, Option.bind_some, headAt?, here, headHere, Option.bind_eq_bind]
    rw [if_pos admitted]
  · have isHead := ghost_head fresh.toWellFormed linked here
    rw [linkedHead_eq fresh.toIndexed here headHere, sight?_refresh, stamp_refresh] at isHead
    exact isHead

theorem findHead_of_not_leads
    (sound : Sound tree) (present : tree.contains anchor = true)
    (leadsNowhere : ¬ Ghost.Leads tree.sight? tree.stamp anchor) :
    (tree.findHead anchor).1 =
      .error (.noViableHead anchor anchor tree.stamp.justified tree.stamp.finalized) := by
  have fresh := sound.refresh
  have linked := fresh.linked (outdated_refresh tree)
  obtain ⟨position, found⟩ := contains_iff.1 present
  rw [← (sameShape_refresh tree).position?_eq] at found
  obtain ⟨node, here, rfl⟩ := (fresh.positions _ _).1 found
  rw [← sight?_refresh, ← stamp_refresh, ghost_leads_iff fresh.toWellFormed here] at leadsNowhere
  have unlinked : node.best = none := by
    cases linkOf : node.best with
    | none => rfl
    | some best =>
      have link := linked position node here
      rw [linkOf] at link
      obtain _ | ⟨_, isChild, _, leads, _⟩ := link
      exact absurd (leads.of_parentAt isChild) leadsNowhere
  have notAdmitted : tree.refresh.stamp.admits node.stamp ≠ true :=
    fun admitted => leadsNowhere ⟨position, node, ReflTransGen.refl, here, admitted⟩
  simp only [findHead, found, Option.bind_some, headAt?, here, Option.bind_eq_bind,
    Node.headPosition, unlinked]
  rw [if_neg notAdmitted]
  simp

/-- Below every node that the tree contains there is exactly one head. -/
theorem exists_ghost_head (sound : Sound tree) (present : tree.contains anchor = true) :
    ∃ head, ∀ other, Ghost.Head tree.sight? tree.stamp anchor other ↔ other = head := by
  have fresh := sound.refresh
  obtain ⟨position, found⟩ := contains_iff.1 present
  rw [← (sameShape_refresh tree).position?_eq] at found
  obtain ⟨node, here, rfl⟩ := (fresh.positions _ _).1 found
  have isHead := ghost_head fresh.toWellFormed (fresh.linked (outdated_refresh tree)) here
  rw [sight?_refresh, stamp_refresh] at isHead
  exact ⟨_, fun other => ⟨fun isOther => isHead.unique isOther, fun same => same ▸ isHead⟩⟩

theorem contains_eq_isSome_sight? (indexed : Indexed tree) :
    tree.contains anchor = (tree.sight? anchor).isSome := by
  rw [Bool.eq_iff_iff, contains_iff, Option.isSome_iff_exists]
  constructor
  · rintro ⟨position, found⟩
    obtain ⟨node, here, rfl⟩ := (indexed.positions _ _).1 found
    exact ⟨_, sight?_of_getElem? indexed here⟩
  · rintro ⟨seen, sighted⟩
    obtain ⟨position, node, here, rfl⟩ := exists_of_sight? indexed sighted
    exact ⟨position, indexed.position?_ref here⟩

/-- The search depends only on what the tree shows. -/
theorem findHead_congr
    {other : BlockTree} (sound : Sound tree) (otherSound : Sound other)
    (sameSight : other.sight? = tree.sight?) (sameStamp : other.stamp = tree.stamp) :
    (other.findHead anchor).1 = (tree.findHead anchor).1 := by
  have sameContains : other.contains anchor = tree.contains anchor := by
    rw [contains_eq_isSome_sight? otherSound.toIndexed, sameSight,
      contains_eq_isSome_sight? sound.toIndexed]
  cases present : tree.contains anchor with
  | false =>
    rw [findHead_of_not_contains present,
      findHead_of_not_contains (sameContains.trans present)]
  | true =>
    have otherPresent := sameContains.trans present
    by_cases leads : Ghost.Leads tree.sight? tree.stamp anchor
    · obtain ⟨head, found, isHead⟩ := findHead_of_leads sound present leads
      rw [← sameSight, ← sameStamp] at leads
      obtain ⟨otherHead, otherFound, isOther⟩ := findHead_of_leads otherSound otherPresent leads
      rw [sameSight, sameStamp] at isOther
      rw [found, otherFound, isHead.unique isOther]
    · rw [findHead_of_not_leads sound present leads]
      rw [← sameSight, ← sameStamp] at leads
      rw [findHead_of_not_leads otherSound otherPresent leads, sameStamp]

/-- The search for the head is the recursion on the tree as it is seen by names.  It
refuses an anchor that the tree does not contain, and one below which no node is
viable, and otherwise finds the one head below the anchor.  Two trees that show the
same under the same stamp therefore have the same heads, in whatever order their
nodes were inserted and whatever links they hold. -/
theorem findHead_iff_ghost (reached : Reachable tree) (anchor : NodeRef) :
    ((tree.findHead anchor).1 = .error (.unknownAnchor anchor) ↔ tree.contains anchor = false) ∧
    ((tree.findHead anchor).1 =
        .error (.noViableHead anchor anchor tree.stamp.justified tree.stamp.finalized) ↔
      tree.contains anchor = true ∧ ¬ Ghost.Leads tree.sight? tree.stamp anchor) ∧
    (∀ head, (tree.findHead anchor).1 = .ok head ↔
      tree.contains anchor = true ∧ Ghost.Leads tree.sight? tree.stamp anchor ∧
        Ghost.Head tree.sight? tree.stamp anchor head) ∧
    (tree.contains anchor = true →
      ∃ head, ∀ other, Ghost.Head tree.sight? tree.stamp anchor other ↔ other = head) ∧
    ∀ other, Reachable other → other.sight? = tree.sight? → other.stamp = tree.stamp →
      (other.findHead anchor).1 = (tree.findHead anchor).1 := by
  have sound := reached.sound
  have unique := fun head (isHead : Ghost.Head tree.sight? tree.stamp anchor head) other =>
    Iff.intro isHead.unique fun same : other = head => same ▸ isHead
  refine ⟨?_, ?_, ?_, exists_ghost_head sound, fun other otherReached =>
    findHead_congr sound otherReached.sound⟩
  · cases present : tree.contains anchor with
    | false => simp [findHead_of_not_contains present]
    | true =>
      by_cases leads : Ghost.Leads tree.sight? tree.stamp anchor
      · obtain ⟨head, found, _⟩ := findHead_of_leads sound present leads
        simp [found]
      · simp [findHead_of_not_leads sound present leads]
  · cases present : tree.contains anchor with
    | false => simp [findHead_of_not_contains present]
    | true =>
      by_cases leads : Ghost.Leads tree.sight? tree.stamp anchor
      · obtain ⟨head, found, _⟩ := findHead_of_leads sound present leads
        simp [found, leads]
      · simp [findHead_of_not_leads sound present leads, leads]
  · intro head
    cases present : tree.contains anchor with
    | false => simp [findHead_of_not_contains present]
    | true =>
      by_cases leads : Ghost.Leads tree.sight? tree.stamp anchor
      · obtain ⟨found, outcome, isHead⟩ := findHead_of_leads sound present leads
        simp [outcome, leads, unique found isHead head, eq_comm]
      · simp [findHead_of_not_leads sound present leads, leads]

/-- An anchor with two blocks in the slot behind it. -/
def forkedTree : BlockTree :=
  (((ofAnchor ⟨.zero, 0⟩ ⟨3⟩ {}).insertBlock .zero ⟨1⟩ 1 {}).2.insertBlock .zero ⟨2⟩ 1 {}).2

theorem findHead_iff_ghost_forkedTree :
    Reachable forkedTree ∧ Ghost.Head forkedTree.sight? forkedTree.stamp ⟨.zero, 0⟩ ⟨⟨2⟩, 1⟩ :=
  have reached : Reachable forkedTree :=
    .insertBlock (.insertBlock (.ofAnchor ⟨.zero, 0⟩ ⟨3⟩ {}) .zero ⟨1⟩ 1 {}) .zero ⟨2⟩ 1 {}
  ⟨reached, (((findHead_iff_ghost reached ⟨.zero, 0⟩).2.2.1 ⟨⟨2⟩, 1⟩).1 (by decide)).2.2⟩

end Search

end BlockTree

end BeaconChain
