import BeaconChain.Proofs.BlockTree.Prune

/-!
# Handing nodes on

What a receiver was offered is read off a record of its answers.  What there is to be offered
does not depend on the receiver, so that a pruning that is cut short can be compared with the
one that a receiver without objections would have completed.
-/

namespace BeaconChain

/-- A node that was offered to a receiver, with its mark and the answer. -/
structure Offer where
  node : Node
  canonical : Bool
  answer : Except Error Unit

namespace Offer

def accepted (marked : Node × Bool) : Offer :=
  ⟨marked.1, marked.2, .ok ()⟩

def refused (error : Error) (marked : Node × Bool) : Offer :=
  ⟨marked.1, marked.2, .error error⟩

@[simp]
theorem answer_accepted (marked : Node × Bool) : (accepted marked).answer = .ok () :=
  rfl

@[simp]
theorem answer_refused (error : Error) (marked : Node × Bool) :
    (refused error marked).answer = .error error :=
  rfl

end Offer

/-- Answers like `receive` and records what was offered, in the order of the offers. -/
def recording {store : Type} (receive : NodeReceiver store) : NodeReceiver (store × List Offer) :=
  fun node canonical before =>
    let (answer, after) := receive node canonical before.1
    (answer, after, before.2 ++ [⟨node, canonical, answer⟩])

/-- Accepts every node. -/
def acceptAll : NodeReceiver Unit :=
  fun _ _ state => (.ok (), state)

namespace BlockTree

variable {store : Type} {receive : NodeReceiver store} {tree treeAfter : BlockTree}
  {anchor : NodeRef} {position : Nat} {outcome : Except Error Unit}

/-- Either all nodes are accepted, or one is refused behind those that are accepted. -/
theorem offerAll_recording :
    ∀ {marked : List (Node × Bool)} {state after : store} {before offers : List Offer}
      {outcome : Except Error Unit} {accepted : Nat},
      offerAll (recording receive) marked (state, before) = (outcome, accepted, after, offers) →
      (outcome = .ok () ∧ accepted = marked.length ∧
        offers = before ++ marked.map Offer.accepted) ∨
      ∃ error last, outcome = .error error ∧ marked[accepted]? = some last ∧
        offers = before ++ (marked.take accepted).map Offer.accepted ++ [Offer.refused error last]
  | [], state, after, before, offers, outcome, accepted, offered => by
    cases offered
    exact .inl ⟨rfl, rfl, by simp⟩
  | (node, mark) :: rest, state, after, before, offers, outcome, accepted, offered => by
    rw [offerAll] at offered
    unfold recording at offered
    generalize received : receive node mark state = answer at offered
    obtain ⟨answer, next⟩ := answer
    cases answer with
    | error error =>
      cases offered
      exact .inr ⟨error, (node, mark), rfl, rfl, by simp [Offer.refused]⟩
    | ok =>
      dsimp only at offered
      generalize others : offerAll _ rest _ = result at offered
      obtain ⟨answer, count, last, log⟩ := result
      cases offered
      rcases offerAll_recording others with
        ⟨done, all, recorded⟩ | ⟨error, last, failed, there, recorded⟩
      · exact .inl ⟨done, by simp [all], by simp [recorded, Offer.accepted]⟩
      · exact .inr ⟨error, last, failed, there, by simp [recorded, Offer.accepted]⟩

/-- Recording changes no answer. -/
theorem offerAll_of_recording :
    ∀ {marked : List (Node × Bool)} {state after : store} {before offers : List Offer}
      {outcome : Except Error Unit} {accepted : Nat},
      offerAll (recording receive) marked (state, before) = (outcome, accepted, after, offers) →
      offerAll receive marked state = (outcome, accepted, after)
  | [], state, after, before, offers, outcome, accepted, offered => by
    cases offered
    rfl
  | (node, mark) :: rest, state, after, before, offers, outcome, accepted, offered => by
    rw [offerAll] at offered ⊢
    unfold recording at offered
    generalize receive node mark state = answer at offered ⊢
    obtain ⟨answer, next⟩ := answer
    cases answer with
    | error error =>
      cases offered
      rfl
    | ok =>
      dsimp only at offered ⊢
      generalize others : offerAll _ rest _ = result at offered
      obtain ⟨answer, count, last, log⟩ := result
      cases offered
      rw [offerAll_of_recording others]

theorem offerAll_acceptAll :
    ∀ (marked : List (Node × Bool)) (before : List Offer),
      offerAll (recording acceptAll) marked ((), before) =
        (.ok (), marked.length, (), before ++ marked.map Offer.accepted)
  | [], before => by simp [offerAll]
  | (node, mark) :: rest, before => by
    have others := offerAll_acceptAll rest (before ++ [Offer.accepted (node, mark)])
    simp only [Offer.accepted] at others
    simp only [offerAll, recording, acceptAll] at others ⊢
    simp [others, Offer.accepted]

def names (tree : BlockTree) : List NodeRef :=
  tree.nodes.map Node.ref

/-- The names of the nodes with their weights, in the order of their insertion. -/
def weighed (tree : BlockTree) : List (NodeRef × Int) :=
  tree.nodes.map fun node => (node.ref, node.weight)

theorem weighed_refresh (tree : BlockTree) : tree.refresh.weighed = tree.weighed := by
  have names := (sameShape_refresh tree).nodes.map_ref_eq
  have weights := weights_refresh tree
  have zipped : ∀ tree : BlockTree,
      tree.weighed = (tree.nodes.map Node.ref).zip (tree.nodes.map Node.weight) :=
    fun tree => by rw [weighed, List.zip_map']
  rw [zipped, zipped, names, weights]

theorem weighed_dropOldest (tree : BlockTree) (count : Nat) :
    (tree.dropOldest count).weighed = tree.weighed.drop count := by
  simp only [weighed, nodes_dropOldest, List.map_map, List.map_drop]
  rfl

theorem map_fst_weighed (tree : BlockTree) : tree.weighed.map Prod.fst = tree.names := by
  simp [weighed, names, Function.comp_def]

theorem weighed_markedBefore (tree : BlockTree) (position head : Nat) :
    ((tree.markedBefore position head).map fun marked => (marked.1.ref, marked.1.weight)) =
      tree.weighed.take position := by
  refine List.ext_getElem? fun place => ?_
  simp only [markedBefore, weighed, ← List.map_take, List.getElem?_map, List.getElem?_mapIdx,
    Option.map_map]
  rfl

theorem SameShape.names_eq {tree other : BlockTree} (same : SameShape tree other) :
    tree.names = other.names :=
  same.nodes.map_ref_eq

theorem names_refresh (tree : BlockTree) : tree.refresh.names = tree.names :=
  (sameShape_refresh tree).names_eq

theorem names_dropOldest (tree : BlockTree) (count : Nat) :
    (tree.dropOldest count).names = tree.names.drop count := by
  rw [← map_fst_weighed, ← map_fst_weighed, weighed_dropOldest, List.map_drop]

theorem SameShape.exists_isLatest
    {tree other : BlockTree} (same : SameShape tree other) (wellFormed : WellFormed other)
    {ref : NodeRef} {position : Nat} {node : Node}
    (latest : IsLatest other.nodes ref position node) :
    ∃ found, found.ref = node.ref ∧ IsLatest tree.nodes ref position found := by
  have resolved := wellFormed.resolve?_of_isLatest latest
  rw [← same.resolve?_eq] at resolved
  obtain ⟨found, isLatest, named⟩ :=
    (same.symm.wellFormed wellFormed).resolve?_eq_some_iff.1 resolved
  exact ⟨found, named, isLatest⟩

/-- The latest node of a reference stays the latest one while it is in the tree. -/
theorem IsLatest.dropOldest
    {tree : BlockTree} {ref : NodeRef} {count position : Nat} {node : Node}
    (latest : IsLatest tree.nodes ref (position + count) node) :
    IsLatest (tree.dropOldest count).nodes ref position (shiftNode count node) where
  here := getElem?_dropOldest latest.here
  ofRoot := latest.ofRoot
  notLater := latest.notLater
  greatest other found there ofRoot notLater := by
    obtain ⟨before, thereBefore, rfl⟩ := getElem?_dropOldest_eq_some_iff.1 there
    exact latest.greatest _ before thereBefore ofRoot notLater

/-- What is known of a pruning with a record of the answers: `handed` are the nodes before the
anchor, all of which a receiver without objections would take. -/
structure Handing (tree treeAfter : BlockTree) (anchor : NodeRef) (position : Nat)
    (outcome : Except Error Unit) (handed : List (Node × Bool)) (offers : List Offer) : Prop where
  whole : tree.prune anchor (recording acceptAll) ((), []) =
    (.ok (), tree.refresh.dropOldest position, (), handed.map Offer.accepted)
  weights : (handed.map fun marked => (marked.1.ref, marked.1.weight)) = tree.weighed.take position
  answered :
    (outcome = .ok () ∧ treeAfter = tree.refresh.dropOldest position ∧
      offers = handed.map Offer.accepted) ∨
    ∃ accepted error last, outcome = .error error ∧ accepted < position ∧
      handed[accepted]? = some last ∧ treeAfter = tree.refresh.dropOldest accepted ∧
      offers = (handed.take accepted).map Offer.accepted ++ [Offer.refused error last]

/-- What is handed on and what is left make up the tree, wherever the receiver stops. -/
theorem Handing.names_eq
    {handed : List (Node × Bool)} {offers : List Offer} {accepted : Nat}
    (handing : Handing tree treeAfter anchor position outcome handed offers)
    (notMore : accepted ≤ position) :
    tree.names = ((handed.take accepted).map fun marked => marked.1.ref) ++
      (tree.refresh.dropOldest accepted).names := by
  have names : (handed.map fun marked => marked.1.ref) = tree.names.take position := by
    rw [← map_fst_weighed, ← List.map_take, ← handing.weights, List.map_map]
    rfl
  rw [List.map_take, names, List.take_take, Nat.min_eq_left notMore, names_dropOldest,
    names_refresh, List.take_append_drop]

/-- The nodes that are not handed on have the weights with which they would be. -/
theorem Handing.weighed_eq
    {handed : List (Node × Bool)} {offers : List Offer} {accepted : Nat}
    (handing : Handing tree treeAfter anchor position outcome handed offers)
    (notMore : accepted ≤ position) :
    (tree.refresh.dropOldest accepted).weighed =
      ((handed.drop accepted).map fun marked => (marked.1.ref, marked.1.weight)) ++
        (tree.refresh.dropOldest position).weighed := by
  have whole := List.take_append_drop (position - accepted) (tree.weighed.drop accepted)
  rw [List.drop_drop, Nat.add_sub_of_le notMore, ← List.drop_take] at whole
  rw [List.map_drop, handing.weights, weighed_dropOldest, weighed_dropOldest, weighed_refresh,
    whole]

theorem exists_handing
    (wellFormed : WellFormed tree) (present : tree.position? anchor = some position)
    {state after : store} {offers : List Offer}
    (pruned : tree.prune anchor (recording receive) (state, []) =
      (outcome, treeAfter, after, offers)) :
    ∃ handed, Handing tree treeAfter anchor position outcome handed offers := by
  have same := sameShape_refresh tree
  have fresh := same.symm.wellFormed wellFormed
  rw [← same.position?_eq] at present
  obtain ⟨node, here, rfl⟩ := (fresh.positions _ _).1 present
  have located := fresh.locate?_eq_some_iff.2 ⟨here, rfl⟩
  have count :
      (tree.refresh.markedBefore position (node.headPosition position)).length = position :=
    length_markedBefore here
  have weights := tree.refresh.weighed_markedBefore position (node.headPosition position)
  have others := offerAll_acceptAll
    (tree.refresh.markedBefore position (node.headPosition position)) []
  rw [weighed_refresh] at weights
  rw [count, List.nil_append] at others
  refine ⟨tree.refresh.markedBefore position (node.headPosition position),
    prune_of_locate? located others, weights, ?_⟩
  generalize offered : offerAll (recording receive)
    (tree.refresh.markedBefore position (node.headPosition position)) (state, []) = result
  obtain ⟨answer, accepted, last, log⟩ := result
  rw [prune_of_locate? located offered] at pruned
  cases pruned
  rcases offerAll_recording offered with
    ⟨done, all, recorded⟩ | ⟨error, refused, failed, there, recorded⟩
  · refine .inl ⟨done, ?_, by simpa using recorded⟩
    rw [all, count]
  · have inside := (List.getElem?_eq_some_iff.1 there).1
    rw [count] at inside
    exact .inr ⟨accepted, error, refused, failed, inside, there, rfl, by simpa using recorded⟩

theorem prune_of_recording
    {state after : store} {before offers : List Offer}
    (pruned : tree.prune anchor (recording receive) (state, before) =
      (outcome, treeAfter, after, offers)) :
    tree.prune anchor receive state = (outcome, treeAfter, after) := by
  unfold prune at pruned ⊢
  dsimp only at pruned ⊢
  split at pruned
  next =>
    cases pruned
    rfl
  next position node _ =>
    generalize offered : offerAll (recording receive) _ _ = result at pruned
    obtain ⟨answer, accepted, last, log⟩ := result
    cases pruned
    rw [offerAll_of_recording offered]

end BlockTree

end BeaconChain
