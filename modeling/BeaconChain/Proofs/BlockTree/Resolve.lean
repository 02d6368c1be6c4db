import BeaconChain.Proofs.BlockTree.WellFormed

/-!
# Resolving a reference

Only the two ends of a span are looked at to resolve a reference.  In a well-formed
tree this finds the node of the root at the latest slot not after the given one, and
nothing if all nodes of the root are later.
-/

namespace BeaconChain.BlockTree

/-- The node at `position` has the root of `ref`, and the latest slot not after that
of `ref`. -/
structure IsLatest (nodes : List Node) (ref : NodeRef) (position : Nat) (node : Node) : Prop where
  here : nodes[position]? = some node
  ofRoot : node.ref.root = ref.root
  notLater : node.ref.slot ≤ ref.slot
  greatest : ∀ (other : Nat) (found : Node), nodes[other]? = some found →
    found.ref.root = ref.root → found.ref.slot ≤ ref.slot → found.ref.slot ≤ node.ref.slot

/-- All nodes with the root of `ref` are later than it. -/
def AllLater (nodes : List Node) (ref : NodeRef) : Prop :=
  ∀ (other : Nat) (found : Node), nodes[other]? = some found →
    found.ref.root = ref.root → ref.slot < found.ref.slot

namespace WellFormed

variable {tree : BlockTree} {ref : NodeRef}

theorem latestSlot?_eq
    {root : Root} {span : Span} {node : Node}
    (found : tree.spans.find? root = some span) (here : tree.nodes[span.last]? = some node) :
    tree.latestSlot? root = some node.ref.slot := by
  simp [latestSlot?, found, here]

/-- A root without a gap has a latest node unless all its nodes are later. -/
theorem exists_isLatest
    (wellFormed : WellFormed tree) {position : Nat} {node : Node}
    (here : tree.nodes[position]? = some node) (ofRoot : node.ref.root = ref.root)
    (notLater : node.ref.slot ≤ ref.slot) :
    ∃ (latest : Nat) (found : Node), IsLatest tree.nodes ref latest found := by
  obtain ⟨span, anchor, spanned, firstHere, anchorRoot, isFirst⟩ := wellFormed.exists_first here
  obtain ⟨last, lastHere, lastRoot⟩ := (wellFormed.spanOf _ _ spanned).last
  rcases Nat.lt_or_ge ref.slot last.ref.slot with before | reached
  · -- the span goes on behind the slot, so that the slot has a node of its own
    have low := (wellFormed.exists_at_slot firstHere anchorRoot isFirst position node here rfl).1
    obtain ⟨other, found, there, named, _⟩ :=
      (wellFormed.exists_at_slot firstHere anchorRoot isFirst span.last last lastHere lastRoot).2
        ref.slot (by omega) (by omega)
    refine ⟨other, found, there, by rw [named, ofRoot], by simp [named], ?_⟩
    intro _ _ _ _ bound
    rw [named]
    exact bound
  · refine ⟨span.last, last, lastHere, lastRoot.trans ofRoot, reached, ?_⟩
    intro other found there foundRoot _
    have inside := (wellFormed.spanOf _ _ spanned).within other found there
      (foundRoot.trans ofRoot.symm)
    exact (wellFormed.slot_le_iff lastHere there (foundRoot.trans (lastRoot.trans ofRoot).symm)).2
      inside.2

theorem resolve?_of_isLatest
    (wellFormed : WellFormed tree) {position : Nat} {node : Node}
    (latest : IsLatest tree.nodes ref position node) :
    tree.resolve? ref = some (node.ref, position) := by
  obtain ⟨here, ofRoot, notLater, greatest⟩ := latest
  unfold resolve?
  cases exact' : tree.position? ref with
  | some place =>
    obtain ⟨found, there, named⟩ := (wellFormed.positions _ _).1 exact'
    have bound := greatest place found there (by rw [named]) (by simp [named])
    have same : node.ref = ref :=
      NodeRef.eq_mk ofRoot (Nat.le_antisymm notLater (by rwa [named] at bound))
    have := wellFormed.position_unique here there (same.trans named.symm)
    simp [same, this]
  | none =>
    obtain ⟨span, anchor, spanned, firstHere, anchorRoot, isFirst⟩ := wellFormed.exists_first here
    obtain ⟨last, lastHere, lastRoot⟩ := (wellFormed.spanOf _ _ spanned).last
    have absent := wellFormed.position?_eq_none_iff.1 exact'
    have low := (wellFormed.exists_at_slot firstHere anchorRoot isFirst position node here rfl).1
    have short : last.ref.slot < ref.slot := by
      rcases Nat.lt_or_ge last.ref.slot ref.slot with before | reached
      · exact before
      · obtain ⟨_, found, there, named, _⟩ :=
          (wellFormed.exists_at_slot firstHere anchorRoot isFirst span.last last lastHere
            lastRoot).2 ref.slot (by omega) reached
        exact absurd (named.trans (by rw [ofRoot])) (absent found (List.mem_of_getElem? there))
    have lastSlot : last.ref.slot = node.ref.slot := by
      have high := greatest span.last last lastHere (lastRoot.trans ofRoot) (by omega)
      have inside := (wellFormed.spanOf _ _ spanned).within position node here rfl
      have := (wellFormed.slot_le_iff lastHere here lastRoot.symm).2 inside.2
      omega
    rw [ofRoot] at spanned
    have earliest : tree.earliestSlot? ref.root = some anchor.ref.slot := by
      simp [earliestSlot?, spanned, firstHere]
    have resolved : (⟨ref.root, min ref.slot last.ref.slot⟩ : NodeRef) = node.ref := by
      rw [Nat.min_eq_right (by omega), lastSlot, ← ofRoot]
    simp only [earliest, latestSlot?_eq spanned lastHere, Option.bind_eq_bind,
      Option.bind_some, resolved, wellFormed.position?_ref here]
    rw [if_neg (by omega)]
    rfl

theorem resolve?_of_allLater
    (wellFormed : WellFormed tree) (later : AllLater tree.nodes ref) :
    tree.resolve? ref = none := by
  unfold resolve?
  cases exact' : tree.position? ref with
  | some place =>
    obtain ⟨found, there, named⟩ := (wellFormed.positions _ _).1 exact'
    have := later place found there (by rw [named])
    rw [named] at this
    omega
  | none =>
    cases earliest : tree.earliestSlot? ref.root with
    | none => rfl
    | some slot =>
      obtain ⟨position, node, here, named, _⟩ := wellFormed.earliestSlot?_eq_some_iff.1 earliest
      have early := later position node here (by rw [named])
      rw [named] at early
      cases latest : tree.latestSlot? ref.root with
      | none => rfl
      | some last => simp [early]

theorem isLast_of_isLatest
    (wellFormed : WellFormed tree) {position : Nat} {node : Node}
    (latest : IsLatest tree.nodes ref position node) (earlier : node.ref.slot < ref.slot) :
    ∀ (other : Nat) (found : Node), tree.nodes[other]? = some found →
      found.ref.root = node.ref.root → found.ref.slot ≤ node.ref.slot := by
  intro other found there sameRoot
  rcases Nat.lt_or_ge ref.slot found.ref.slot with behind | notBehind
  · obtain ⟨_, anchor, _, firstHere, anchorRoot, isFirst⟩ := wellFormed.exists_first latest.here
    have slots := wellFormed.exists_at_slot firstHere anchorRoot isFirst
    have low := (slots position node latest.here rfl).1
    obtain ⟨place, between, here, named, _⟩ :=
      (slots other found there sameRoot).2 ref.slot (by omega) (Nat.le_of_lt behind)
    have bound :=
      latest.greatest place between here (by rw [named, latest.ofRoot]) (by simp [named])
    rw [named] at bound
    exact absurd earlier (Nat.not_lt.2 bound)
  · exact latest.greatest other found there (sameRoot.trans latest.ofRoot) notBehind

theorem resolve?_cases (wellFormed : WellFormed tree) (ref : NodeRef) :
    (∃ (position : Nat) (node : Node), IsLatest tree.nodes ref position node ∧
      tree.resolve? ref = some (node.ref, position)) ∨
    (AllLater tree.nodes ref ∧ tree.resolve? ref = none) := by
  by_cases later : AllLater tree.nodes ref
  · exact .inr ⟨later, wellFormed.resolve?_of_allLater later⟩
  · simp only [AllLater, Classical.not_forall, Nat.not_lt] at later
    obtain ⟨position, node, here, ofRoot, notLater⟩ := later
    obtain ⟨latest, found, isLatest⟩ := wellFormed.exists_isLatest here ofRoot notLater
    exact .inl ⟨latest, found, isLatest, wellFormed.resolve?_of_isLatest isLatest⟩

/-- The node to which a reference is resolved is the latest one. -/
theorem resolve?_eq_some_iff (wellFormed : WellFormed tree) {found : NodeRef} {position : Nat} :
    tree.resolve? ref = some (found, position) ↔
      ∃ node, IsLatest tree.nodes ref position node ∧ node.ref = found := by
  constructor
  · intro resolved
    rcases wellFormed.resolve?_cases ref with ⟨place, node, latest, known⟩ | ⟨_, known⟩
    · rw [known] at resolved
      obtain ⟨rfl, rfl⟩ := Prod.mk.inj (Option.some.inj resolved)
      exact ⟨node, latest, rfl⟩
    · rw [known] at resolved
      cases resolved
  · rintro ⟨node, latest, rfl⟩
    exact wellFormed.resolve?_of_isLatest latest

theorem resolve?_eq_none_iff (wellFormed : WellFormed tree) :
    tree.resolve? ref = none ↔ AllLater tree.nodes ref := by
  constructor
  · intro missing
    rcases wellFormed.resolve?_cases ref with ⟨_, _, _, known⟩ | ⟨later, _⟩
    · rw [missing] at known
      cases known
    · exact later
  · exact wellFormed.resolve?_of_allLater

end WellFormed

end BeaconChain.BlockTree
