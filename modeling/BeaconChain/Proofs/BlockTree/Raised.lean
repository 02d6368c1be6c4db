import BeaconChain.Proofs.BlockTree.Kept
import BeaconChain.Proofs.BlockTree.Scores

/-!
# Heads that gain weight

A vote for the head adds weight to the head and to all its ancestors, and to no other node.  On the
way down to the head every child that was chosen gains, and none of its siblings does, nor anything
below them.  The same children are chosen again, although the links of all nodes are found anew.
-/

open Relation

namespace BeaconChain

namespace Ghost

/-- The same nodes with other weights. -/
def raise (sight : NodeRef → Option Sight) (gain : NodeRef → Int) (node : NodeRef) : Option Sight :=
  (sight node).map fun seen => { seen with weight := seen.weight + gain node }

/-- No node descends from two children of one node. -/
def Branching (sight : NodeRef → Option Sight) : Prop :=
  ∀ {below child rival parent : NodeRef}, IsChild sight child parent → IsChild sight rival parent →
    ReflTransGen (IsChild sight) below child → ReflTransGen (IsChild sight) below rival →
      rival = child

/-- No node loses weight, and only a node and its ancestors gain any. -/
structure Favours (sight : NodeRef → Option Sight) (gain : NodeRef → Int) (favourite : NodeRef) :
    Prop where
  nonneg : ∀ node, 0 ≤ gain node
  onLine : ∀ node, gain node ≠ 0 → ReflTransGen (IsChild sight) favourite node

section Raise

variable {sight : NodeRef → Option Sight} {gain : NodeRef → Int} {current : Stamp}
  {node child rival head rivalHead favourite : NodeRef}

theorem isChild_raise : IsChild (raise sight gain) = IsChild sight := by
  funext child parent
  simp only [IsChild, raise, Option.bind_map]
  rfl

theorem leads_raise : Leads (raise sight gain) current = Leads sight current := by
  have viable : ∀ below, Viable (raise sight gain) current below ↔ Viable sight current below := by
    intro below
    simp only [Viable, raise, Option.map_eq_some_iff]
    constructor
    · rintro ⟨_, ⟨seen, sighted, rfl⟩, admitted⟩
      exact ⟨seen, sighted, admitted⟩
    · rintro ⟨seen, sighted, admitted⟩
      exact ⟨_, ⟨seen, sighted, rfl⟩, admitted⟩
  funext node
  simp only [Leads, isChild_raise, viable]

theorem score?_raise {score : Score} (known : score? sight child head = some score) :
    score? (raise sight gain) child head =
      some { score with weight := score.weight + gain child } := by
  obtain ⟨seen, sighted, rest⟩ := Option.bind_eq_some_iff.1 known
  obtain ⟨top, topSighted, made⟩ := Option.bind_eq_some_iff.1 rest
  obtain rfl := Option.some.inj made
  simp [score?, raise, sighted, topSighted]

/-- A child that gains goes on to outrank a rival that does not. -/
theorem Outranks.raise
    (outranks : Outranks sight child head rival rivalHead) (gains : 0 ≤ gain child)
    (still : gain rival = 0) : Outranks (raise sight gain) child head rival rivalHead := by
  obtain ⟨score, rivalScore, known, rivalKnown, less⟩ := outranks
  refine ⟨_, _, score?_raise known, score?_raise rivalKnown, ?_⟩
  rw [Score.lt_iff] at less ⊢
  dsimp only
  omega

/-- A node below which only the head and its ancestors gain keeps its head. -/
theorem Head.raise
    (branching : Branching sight) (favours : Favours sight gain favourite)
    (isHead : Head sight current node head)
    (below : ReflTransGen (IsChild sight) favourite node → head = favourite) :
    Head (raise sight gain) current node head := by
  induction isHead with
  | here noneLeads =>
    refine .here fun child isChild leads => ?_
    rw [isChild_raise] at isChild
    rw [leads_raise] at leads
    exact noneLeads child isChild leads
  | @through node child headOf isChild leads heads greatest ih =>
    -- the favourite is below no other child than the one that is chosen
    have beside : ∀ rival, IsChild sight rival node →
        ReflTransGen (IsChild sight) favourite rival → rival = child := by
      intro rival isRival descends
      have chosen := below (descends.tail isRival)
      exact branching isChild isRival (chosen ▸ (heads child isChild leads).descends) descends
    have isChildStill : IsChild (Ghost.raise sight gain) child node := by rwa [isChild_raise]
    have leadsStill : Leads (Ghost.raise sight gain) current child := by rwa [leads_raise]
    refine .through headOf isChildStill leadsStill ?_ ?_
    · intro other isOther otherLeads
      rw [isChild_raise] at isOther
      rw [leads_raise] at otherLeads
      refine ih other isOther otherLeads fun descends => ?_
      rw [beside other isOther descends]
      exact below (descends.tail isOther)
    · intro rival isRival rivalLeads different
      rw [isChild_raise] at isRival
      rw [leads_raise] at rivalLeads
      have still : gain rival = 0 := by
        by_contra gains
        exact different (beside rival isRival (favours.onLine rival gains))
      exact (greatest rival isRival rivalLeads different).raise (favours.nonneg child) still

end Raise

end Ghost

namespace BlockTree

variable {tree : BlockTree} {deltas : List Int}

theorem gathered_nonneg
    (inside : Nat → Bool) (nonneg : ∀ place, 0 ≤ deltas.getD place 0) :
    ∀ count, 0 ≤ gathered inside deltas count
  | 0 => Int.le_refl 0
  | count + 1 => by
    have before := gathered_nonneg inside nonneg count
    have last := nonneg count
    rw [gathered]
    split <;> omega

theorem exists_of_gathered_ne_zero {inside : Nat → Bool} :
    ∀ {count : Nat}, gathered inside deltas count ≠ 0 →
      ∃ place < count, inside place = true ∧ deltas.getD place 0 ≠ 0
  | 0, moved => absurd rfl moved
  | count + 1, moved => by
    by_cases last : inside count = true ∧ deltas.getD count 0 ≠ 0
    · exact ⟨count, Nat.lt_succ_self count, last⟩
    · have nothing : (if inside count = true then deltas.getD count 0 else 0) = 0 := by
        split
        next isInside => exact Decidable.not_not.1 fun moves => last ⟨isInside, moves⟩
        next => rfl
      rw [gathered, nothing, Int.add_zero] at moved
      obtain ⟨place, before, found⟩ := exists_of_gathered_ne_zero moved
      exact ⟨place, Nat.lt_succ_of_lt before, found⟩

/-- What the node of a name gains by deltas. -/
def gainOf (tree : BlockTree) (deltas : List Int) (ref : NodeRef) : Int :=
  (tree.position? ref).elim 0 fun position =>
    gathered (tree.inSubtree position) deltas tree.size

theorem gainOf_ref
    (wellFormed : WellFormed tree) {position : Nat} {node : Node}
    (here : tree.nodes[position]? = some node) :
    tree.gainOf deltas node.ref = gathered (tree.inSubtree position) deltas tree.size := by
  simp [gainOf, wellFormed.position?_ref here]

/-- Deltas change nothing of what is seen of a node but its weight. -/
theorem sight?_applyScores
    (wellFormed : WellFormed tree) (stamp : Stamp)
    (done : (tree.applyScores deltas stamp).1 = .ok ()) :
    (tree.applyScores deltas stamp).2.sight? = Ghost.raise tree.sight? (tree.gainOf deltas) := by
  have same := sameShape_applyScores tree deltas stamp
  funext ref
  cases found : tree.position? ref with
  | none =>
    have missing := (same.position?_eq ref).trans found
    simp [sight?, locate?, Ghost.raise, missing, found]
  | some position =>
    obtain ⟨node, here, rfl⟩ := (wellFormed.positions _ _).1 found
    obtain ⟨after, afterHere, bare⟩ := same.symm.nodes.getElem?_eq_some here
    have gain := weightAt_applyScores wellFormed done position
    rw [weightAt_of_getElem? here, weightAt_of_getElem? afterHere] at gain
    have sameRef : after.ref = node.ref := ((Node.bare_eq_iff _ _).1 bare).1
    have alike : sightOf tree.nodes { node with weight := after.weight } =
        sightOf (tree.applyScores deltas stamp).2.nodes after :=
      same.symm.nodes.sightOf_eq bare rfl
    have seen : (tree.applyScores deltas stamp).2.sight? node.ref =
        some (sightOf tree.nodes { node with weight := after.weight }) := by
      rw [alike, ← sameRef]
      exact sight?_of_getElem? (same.symm.wellFormed wellFormed).toIndexed afterHere
    rw [seen, Ghost.raise, sight?_of_getElem? wellFormed.toIndexed here, gainOf_ref wellFormed here,
      gain]
    rfl

theorem exists_of_isChild
    {child parent : NodeRef} (isChild : Ghost.IsChild tree.sight? child parent) :
    ∃ (position : Nat) (node : Node), tree.nodes[position]? = some node ∧ node.ref = parent := by
  obtain ⟨seen, sighted, named⟩ := Option.bind_eq_some_iff.1 isChild
  obtain ⟨_, _, rfl⟩ := Option.map_eq_some_iff.1 sighted
  obtain ⟨node, above, named⟩ := Option.map_eq_some_iff.1 named
  obtain ⟨position, _, here⟩ := Option.bind_eq_some_iff.1 above
  exact ⟨position, node, here, named⟩

theorem branching_sight? (wellFormed : WellFormed tree) : Ghost.Branching tree.sight? := by
  intro below child rival parent isChild isRival fromChild fromRival
  obtain ⟨position, node, here, rfl⟩ := exists_of_isChild isChild
  obtain ⟨place, childNode, childHere, rfl, step⟩ := (isChild_iff wellFormed here).1 isChild
  obtain ⟨rivalPlace, rivalNode, rivalHere, rfl, rivalStep⟩ :=
    (isChild_iff wellFormed here).1 isRival
  obtain ⟨low, _, lowHere, named, descends⟩ := (descends_iff wellFormed childHere).1 fromChild
  obtain ⟨lowToo, _, lowHereToo, namedToo, rivalDescends⟩ :=
    (descends_iff wellFormed rivalHere).1 fromRival
  obtain rfl := wellFormed.position_unique lowHere lowHereToo (named.trans namedToo.symm)
  obtain rfl :=
    Descends.sibling_eq wellFormed.voteParentsFirst descends rivalDescends step rivalStep
  rw [Option.some.inj (childHere.symm.trans rivalHere)]

/-- Deltas that are nowhere negative, and that stand at a node and its ancestors alone, favour the
node. -/
theorem favours_of_line
    (wellFormed : WellFormed tree) {position : Nat} {node : Node}
    (here : tree.nodes[position]? = some node) (nonneg : ∀ place, 0 ≤ deltas.getD place 0)
    (onLine : ∀ place, deltas.getD place 0 ≠ 0 → tree.VoteDescends position place) :
    Ghost.Favours tree.sight? (tree.gainOf deltas) node.ref where
  nonneg ref := by
    unfold gainOf
    cases tree.position? ref with
    | none => exact Int.le_refl 0
    | some above => exact gathered_nonneg _ nonneg _
  onLine ref gains := by
    unfold gainOf at gains
    cases found : tree.position? ref with
    | none => simp [found] at gains
    | some above =>
      obtain ⟨upper, upperHere, rfl⟩ := (wellFormed.positions _ _).1 found
      rw [found, Option.elim_some] at gains
      obtain ⟨place, inside, isInside, moved⟩ := exists_of_gathered_ne_zero gains
      have descends := (inSubtree_iff wellFormed inside).1 isInside
      exact (descends_iff wellFormed upperHere).2
        ⟨position, node, here, rfl, (onLine place moved).trans descends⟩

section Search

variable {anchor head : NodeRef}

theorem findHead_eq_ok_iff (sound : Sound tree) :
    (tree.findHead anchor).1 = .ok head ↔ tree.contains anchor = true ∧
      Ghost.Leads tree.sight? tree.stamp anchor ∧
        Ghost.Head tree.sight? tree.stamp anchor head := by
  cases present : tree.contains anchor with
  | false => simp [findHead_of_not_contains present]
  | true =>
    by_cases leads : Ghost.Leads tree.sight? tree.stamp anchor
    · obtain ⟨found, outcome, isHead⟩ := findHead_of_leads sound present leads
      rw [outcome, Except.ok.injEq]
      constructor
      · rintro rfl
        exact ⟨rfl, leads, isHead⟩
      · rintro ⟨_, _, isHeadToo⟩
        exact isHeadToo.unique isHead
    · simp [findHead_of_not_leads sound present leads, leads]

theorem exists_position_of_findHead
    (sound : Sound tree) (found : (tree.findHead anchor).1 = .ok head) :
    ∃ position, tree.position? head = some position := by
  obtain ⟨present, _, isHead⟩ := (findHead_eq_ok_iff sound).1 found
  obtain ⟨place, known⟩ := contains_iff.1 present
  obtain ⟨node, here, rfl⟩ := (sound.positions _ _).1 known
  obtain ⟨position, below, there, rfl, _⟩ :=
    (descends_iff sound.toWellFormed here).1 isHead.descends
  exact ⟨position, sound.position?_ref there⟩

/-- Weight that is given to the head and its ancestors alone does not lead to another head. -/
theorem findHead_of_line
    (sound : Sound tree) (found : (tree.findHead anchor).1 = .ok head) {position : Nat}
    (headAt : tree.position? head = some position) (nonneg : ∀ place, 0 ≤ deltas.getD place 0)
    (onLine : ∀ place, deltas.getD place 0 ≠ 0 → tree.VoteDescends position place)
    {voted : BlockTree} (applied : tree.applyScores deltas tree.stamp = (.ok (), voted)) :
    (voted.findHead anchor).1 = .ok head := by
  have wellFormed := sound.toWellFormed
  obtain ⟨node, here, rfl⟩ := (wellFormed.positions _ _).1 headAt
  obtain ⟨present, leads, isHead⟩ := (findHead_eq_ok_iff sound).1 found
  have votedSound := sound.applyScores deltas tree.stamp
  have sameShape := sameShape_applyScores tree deltas tree.stamp
  have seen := sight?_applyScores wellFormed tree.stamp (congrArg Prod.fst applied)
  rw [applied] at votedSound sameShape seen
  refine (findHead_eq_ok_iff votedSound).2 ⟨?_, ?_, ?_⟩
  · rwa [contains, sameShape.positions]
  · rwa [seen, stamp_applyScores applied, Ghost.leads_raise]
  · rw [seen, stamp_applyScores applied]
    exact isHead.raise (branching_sight? wellFormed) (favours_of_line wellFormed here nonneg onLine)
      fun _ => rfl

/-- Deltas that are zero but for that of one node, which is not negative. -/
structure VotesFor (tree : BlockTree) (ref : NodeRef) (deltas : List Int) : Prop where
  elsewhere : ∀ place, tree.position? ref ≠ some place → deltas.getD place 0 = 0
  notAgainst : ∀ place, tree.position? ref = some place → 0 ≤ deltas.getD place 0

theorem VotesFor.nonneg (votes : VotesFor tree head deltas) (place : Nat) :
    0 ≤ deltas.getD place 0 := by
  by_cases there : tree.position? head = some place
  · exact votes.notAgainst place there
  · rw [votes.elsewhere place there]

theorem VotesFor.onLine
    (votes : VotesFor tree head deltas) {position : Nat}
    (headAt : tree.position? head = some position) (place : Nat) (moved : deltas.getD place 0 ≠ 0) :
    tree.VoteDescends position place := by
  have there : tree.position? head = some place :=
    Decidable.not_not.1 fun different => moved (votes.elsewhere place different)
  obtain rfl := Option.some.inj (headAt.symm.trans there)
  exact ReflTransGen.refl

/-- The head below a node stays the head when it is voted for under the same stamp, whether the
votes are applied before the links are brought up to date by the search or after that. -/
theorem vote_keeps_head
    (reached : Reachable tree) (found : (tree.findHead anchor).1 = .ok head)
    (votes : VotesFor tree head deltas) :
    ∀ asked ∈ [tree, (tree.findHead anchor).2], ∀ voted,
      asked.applyScores deltas asked.stamp = (.ok (), voted) →
        (voted.findHead anchor).1 = .ok head := by
  have sound := reached.sound
  obtain ⟨position, headAt⟩ := exists_position_of_findHead sound found
  intro asked member voted applied
  have same : SameShape asked tree ∧ Sound asked ∧ (asked.findHead anchor).1 = .ok head := by
    rcases List.mem_pair.1 member with rfl | rfl
    · exact ⟨.refl _, sound, found⟩
    · rw [findHead_tree, findHead_refresh]
      exact ⟨sameShape_refresh tree, sound.refresh, found⟩
  obtain ⟨shape, askedSound, askedFound⟩ := same
  refine findHead_of_line askedSound askedFound ((shape.position?_eq head).trans headAt)
    votes.nonneg (fun place moved => ?_) applied
  rw [shape.voteDescends_eq]
  exact votes.onLine headAt place moved

/-- A block and the empty slot beside it with the same weight, after their anchor has been taken
out.  The block is the head, as it goes before the slot. -/
def tiedTree : BlockTree :=
  (severedTree.applyScores [0, 0, 3, 0, 5, 5] {}).2

theorem vote_keeps_head_tiedTree :
    (tiedTree.findHead ⟨⟨2⟩, 1⟩).1 = .ok ⟨⟨4⟩, 3⟩ ∧
      VotesFor tiedTree ⟨⟨4⟩, 3⟩ [0, 0, 0, 0, 0, 7] ∧
      (tiedTree.applyScores [0, 0, 0, 0, 0, 7] tiedTree.stamp).1 = .ok () ∧
      ((tiedTree.applyScores [0, 0, 0, 0, 0, 7] tiedTree.stamp).2.findHead ⟨⟨2⟩, 1⟩).1 =
        .ok ⟨⟨4⟩, 3⟩ := by
  have reached : Reachable tiedTree :=
    .applyScores (.prune (.insertBlock (.insertBlock (.insertBlock
      (.ofAnchor ⟨⟨1⟩, 0⟩ .zero {}) ⟨1⟩ ⟨2⟩ 1 {}) ⟨1⟩ ⟨3⟩ 2 {}) ⟨2⟩ ⟨4⟩ 3 {}) ⟨⟨2⟩, 1⟩ _ 0) _ _
  have found : (tiedTree.findHead ⟨⟨2⟩, 1⟩).1 = .ok ⟨⟨4⟩, 3⟩ := by decide
  have headAt : tiedTree.position? ⟨⟨4⟩, 3⟩ = some 5 := by decide
  have votes : VotesFor tiedTree ⟨⟨4⟩, 3⟩ [0, 0, 0, 0, 0, 7] :=
    { elsewhere := fun place different => by
        rw [headAt] at different
        match place with
        | 0 | 1 | 2 | 3 | 4 | _ + 6 => rfl
        | 5 => exact absurd rfl different
      notAgainst := fun place there => by
        obtain rfl := Option.some.inj (headAt.symm.trans there)
        decide }
  have applied : (tiedTree.applyScores [0, 0, 0, 0, 0, 7] tiedTree.stamp).1 = .ok () := by decide
  exact ⟨found, votes, applied,
    vote_keeps_head reached found votes tiedTree List.mem_cons_self _ (Prod.ext applied rfl)⟩

end Search

end BlockTree

end BeaconChain
