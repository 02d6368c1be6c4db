import BeaconChain.ForkChoice.Adopt
import BeaconChain.Proofs.Ballots
import BeaconChain.Proofs.BlockTree.Chronicle

/-!
# Weights and votes

The weight of a node is the sum of the balances of those validators whose weight was
applied to the node or to one that descends from it.  This holds after every call,
also after one that failed half-way, because a name that has left the tree never
comes back: no weight is ever taken from a node that did not receive it.

Once the votes have been counted, the weights are those of the latest votes.
-/

namespace BeaconChain

open BlockTree

/-- A name that stands for no vote, or has a node, or will not get one any more. -/
def Placed (log : List NodeRef) (tree : BlockTree) (ref : NodeRef) : Prop :=
  ref = .zero ∨ (∃ position, tree.position? ref = some position) ∨ Gone log tree ref

namespace Placed

variable {pedigree : Pedigree} {anchor : NodeRef} {log : List NodeRef} {tree : BlockTree}
  {ref : NodeRef}

theorem ne_ref
    (placed : Placed log tree ref) (wellFormed : WellFormed tree)
    (chronicle : Chronicle pedigree anchor log tree) {node : Node}
    (appendable : Appendable pedigree.Admits tree node) : node.ref ≠ ref := by
  rintro rfl
  have grown := wellFormed.append appendable
  have here := position?_push_self tree node
  rcases placed with isZero | ⟨position, found⟩ | gone
  · have member : node ∈ (tree.push node).nodes := by simp
    exact (chronicle.push appendable).ref_ne_zero node member isZero
  · rw [appendable.fresh wellFormed.toIndexed] at found
    cases found
  · rw [(gone.push chronicle.toAnnals appendable).position?_eq_none grown.toIndexed] at here
    cases here

theorem push
    (placed : Placed log tree ref) (wellFormed : WellFormed tree)
    (chronicle : Chronicle pedigree anchor log tree) {node : Node}
    (appendable : Appendable pedigree.Admits tree node) :
    Placed (log ++ [node.ref]) (tree.push node) ref := by
  have different := placed.ne_ref wellFormed chronicle appendable
  rcases placed with isZero | ⟨position, found⟩ | gone
  · exact .inl isZero
  · exact .inr (.inl ⟨position, (position?_push_of_ne tree different).trans found⟩)
  · exact .inr (.inr (gone.push chronicle.toAnnals appendable))

theorem dropOldest
    (placed : Placed log tree ref) (wellFormed : WellFormed tree)
    (chronicle : Chronicle pedigree anchor log tree) (count : Nat) :
    Placed log (tree.dropOldest count) ref := by
  rcases placed with isZero | ⟨position, found⟩ | gone
  · exact .inl isZero
  · rcases Nat.lt_or_ge position count with taken | kept
    · obtain ⟨node, here, rfl⟩ := (wellFormed.positions _ _).1 found
      exact .inr (.inr (gone_of_dropOldest chronicle.toAnnals wellFormed here taken))
    · refine .inr (.inl ⟨position - count, wellFormed.position?_dropOldest.2 ?_⟩)
      rw [found, Nat.sub_add_cancel kept]
  · exact .inr (.inr (gone.dropOldest count))

theorem congr
    (placed : Placed log tree ref) {other : BlockTree} (same : SameShape other tree) :
    Placed log other ref := by
  rcases placed with isZero | ⟨position, found⟩ | gone
  · exact .inl isZero
  · exact .inr (.inl ⟨position, (same.position?_eq ref).trans found⟩)
  · exact .inr (.inr (gone.congr same.nodes))

theorem resolve?_eq
    (placed : Placed log tree ref) (wellFormed : WellFormed tree)
    (chronicle : Chronicle pedigree anchor log tree) :
    (tree.resolve? ref).map (·.2) = tree.position? ref := by
  rcases placed with rfl | ⟨position, found⟩ | gone
  · rw [wellFormed.position?_eq_none_iff.2 chronicle.ref_ne_zero]
    exact latestPlace_blank wellFormed chronicle.ref_ne_zero
  · simp [resolve?, found]
  · rw [gone.position?_eq_none wellFormed.toIndexed, wellFormed.resolve?_of_allLater gone.later]
    rfl

end Placed

/-- The weights of a tree are those of the applied votes.  A vote that was cast names a
root of the log, and while nothing is to be moved every vote is applied to what it
names. -/
structure Accounted {preset : Preset} (pedigree : Pedigree) (anchor : NodeRef)
    (log : List NodeRef) (tree : BlockTree) (ballots : Ballots preset) (balances : List Nat) :
    Prop where
  wellFormed : WellFormed tree
  chronicle : Chronicle pedigree anchor log tree
  heard : ∀ vote ∈ ballots.votes, vote = .blank ∨
    ∃ (index slot : Nat), log[index]? = some ⟨vote.latest.root, slot⟩
  placed : ∀ vote ∈ ballots.votes, Placed log tree vote.applied
  unmoved : ballots.changed = false →
    ∀ vote ∈ ballots.votes, vote = .blank ∨ vote.applied = vote.latest
  weights : ∀ position, position < tree.size →
    weightAt tree.nodes position =
      support tree balances position 0 (ballots.votes.map (appliedPlace tree))

namespace Accounted

variable {preset : Preset} {pedigree : Pedigree} {anchor : NodeRef} {log : List NodeRef}
  {tree : BlockTree} {ballots : Ballots preset} {balances : List Nat}

theorem appliedPlace_mem
    {votes : List Vote} {place : Option Nat} (wellFormed : WellFormed tree)
    (member : place ∈ votes.map (appliedPlace tree)) :
    place = none ∨ ∃ position, place = some position ∧ position < tree.size := by
  obtain ⟨vote, _, rfl⟩ := List.mem_map.1 member
  cases place : appliedPlace tree vote with
  | none => exact .inl rfl
  | some position => exact .inr ⟨position, rfl, appliedPlace_lt wellFormed place⟩

theorem push
    (accounted : Accounted pedigree anchor log tree ballots balances) {node : Node}
    (appendable : Appendable pedigree.Admits tree node) :
    Accounted pedigree anchor (log ++ [node.ref]) (tree.push node) ballots balances := by
  obtain ⟨wellFormed, chronicle, heard, placed, unmoved, weights⟩ := accounted
  have grown := wellFormed.append appendable
  have places : ballots.votes.map (appliedPlace (tree.push node)) =
      ballots.votes.map (appliedPlace tree) := by
    apply List.map_congr_left
    intro vote member
    exact position?_push_of_ne tree
      ((placed vote member).ne_ref wellFormed chronicle appendable)
  refine ⟨grown, chronicle.push appendable, ?_, ?_, unmoved, ?_⟩
  · intro vote member
    rcases heard vote member with blank | ⟨index, slot, found⟩
    · exact .inl blank
    · exact .inr ⟨index, slot, getElem?_concat_eq_some_iff.2 (.inl found)⟩
  · intro vote member
    exact (placed vote member).push wellFormed chronicle appendable
  · intro position inside
    rw [places]
    rcases Nat.lt_or_ge position tree.size with old | new
    · have shares : ∀ place ∈ ballots.votes.map (appliedPlace tree), ∀ balance,
          share (tree.push node) position place balance = share tree position place balance := by
        intro place member balance
        rcases appliedPlace_mem wellFormed member with rfl | ⟨_, rfl, placeInside⟩
        · rfl
        · exact share_push wellFormed grown placeInside balance
      rw [support_congr shares, ← weights position old, weightAt, weightAt, nodes_push,
        List.getElem?_append_left old]
    · obtain rfl : position = tree.size := by
        rw [size_push] at inside
        omega
      have here : (tree.push node).nodes[tree.size]? = some node :=
        getElem?_concat_eq_some_iff.2 (.inr ⟨rfl, rfl⟩)
      have unweighted : node.weight = 0 := by cases appendable <;> rfl
      rw [weightAt_of_getElem? here, unweighted, support_eq_zero]
      intro place member balance
      rcases appliedPlace_mem wellFormed member with rfl | ⟨_, rfl, placeInside⟩
      · rfl
      · exact share_eq_zero grown (by rw [size_push]; omega) placeInside balance

theorem congr
    (accounted : Accounted pedigree anchor log tree ballots balances) {other : BlockTree}
    (same : SameShape other tree)
    (sameWeights : other.nodes.map Node.weight = tree.nodes.map Node.weight) :
    Accounted pedigree anchor log other ballots balances where
  wellFormed := same.symm.wellFormed accounted.wellFormed
  chronicle := accounted.chronicle.congr same.nodes
  heard := accounted.heard
  placed vote member := (accounted.placed vote member).congr same
  unmoved := accounted.unmoved
  weights position inside := by
    have places : ballots.votes.map (appliedPlace other) = ballots.votes.map (appliedPlace tree) :=
      List.map_congr_left fun vote _ => same.position?_eq vote.applied
    have shares : ∀ place ∈ ballots.votes.map (appliedPlace tree), ∀ balance,
        share other position place balance = share tree position place balance := by
      intro place member balance
      rcases appliedPlace_mem accounted.wellFormed member with rfl | ⟨_, rfl, placeInside⟩
      · rfl
      · exact share_congr accounted.wellFormed same placeInside balance
    rw [weightAt_congr sameWeights, places, support_congr shares]
    exact accounted.weights position (same.size_eq ▸ inside)

theorem grow
    (accounted : Accounted pedigree anchor log tree ballots balances) {grown : BlockTree}
    (growth : Grows pedigree.Admits tree grown) :
    ∃ longer, Accounted pedigree anchor longer grown ballots balances := by
  induction growth with
  | refl => exact ⟨log, accounted⟩
  | push _ appendable ih =>
    obtain ⟨longer, accounted⟩ := ih
    exact ⟨_, accounted.push appendable⟩
  | outdate _ ih =>
    obtain ⟨longer, accounted⟩ := ih
    exact ⟨longer, accounted.congr ⟨rfl, rfl, rfl⟩ rfl⟩

theorem dropOldest
    (accounted : Accounted pedigree anchor log tree ballots balances) (count : Nat) :
    Accounted pedigree anchor log (tree.dropOldest count) ballots balances where
  wellFormed := accounted.wellFormed.dropOldest count
  chronicle := accounted.chronicle.dropOldest count
  heard := accounted.heard
  placed vote member :=
    (accounted.placed vote member).dropOldest accounted.wellFormed accounted.chronicle count
  unmoved := accounted.unmoved
  weights position inside := by
    have places : ballots.votes.map (appliedPlace (tree.dropOldest count)) =
        (ballots.votes.map (appliedPlace tree)).map (·.bind (shift count)) := by
      rw [List.map_map]
      exact List.map_congr_left fun vote _ =>
        appliedPlace_dropOldest accounted.wellFormed count vote
    have shares : ∀ place ∈ ballots.votes.map (appliedPlace tree), ∀ balance,
        share (tree.dropOldest count) position (place.bind (shift count)) balance =
          share tree (position + count) place balance := by
      intro place member balance
      rcases appliedPlace_mem accounted.wellFormed member with rfl | ⟨_, rfl, placeInside⟩
      · rfl
      · exact share_dropOldest accounted.wellFormed placeInside balance
    have here := List.getElem?_eq_getElem inside
    obtain ⟨before, beforeHere, same⟩ := getElem?_dropOldest_eq_some_iff.1 here
    have weight := accounted.weights (position + count) (List.getElem?_eq_some_iff.1 beforeHere).1
    rw [places, support_map shares, ← weight, weightAt_of_getElem? here,
      weightAt_of_getElem? beforeHere, ← same]
    rfl

theorem extend
    (accounted : Accounted pedigree anchor log tree ballots balances) (count : Nat) :
    Accounted pedigree anchor log tree
      ({ ballots with votes := ballots.votes ++ List.replicate count .blank } : Ballots preset)
      balances where
  wellFormed := accounted.wellFormed
  chronicle := accounted.chronicle
  heard vote member := by
    rcases List.mem_append.1 member with old | new
    · exact accounted.heard vote old
    · exact .inl (List.eq_of_mem_replicate new)
  placed vote member := by
    rcases List.mem_append.1 member with old | new
    · exact accounted.placed vote old
    · exact .inl (by rw [List.eq_of_mem_replicate new]; rfl)
  unmoved unchanged vote member := by
    rcases List.mem_append.1 member with old | new
    · exact accounted.unmoved unchanged vote old
    · exact .inl (List.eq_of_mem_replicate new)
  weights position inside := by
    rw [List.map_append, List.map_replicate,
      appliedPlace_blank accounted.wellFormed accounted.chronicle.ref_ne_zero, support_append_none]
    exact accounted.weights position inside

theorem map_set_getD
    {α β : Type} {field : α → β} {items : List α} {place : Nat} {item : α} (fallback : α)
    (same : field item = field (items.getD place fallback)) :
    (items.set place item).map field = items.map field := by
  apply List.ext_getElem?
  intro index
  rw [List.getElem?_map, List.getElem?_map, List.getElem?_set]
  rcases Decidable.em (place = index) with rfl | different
  · cases here : items[place]? with
    | none =>
      have outside := List.getElem?_eq_none_iff.1 here
      simp [Nat.not_lt.2 outside]
    | some old =>
      obtain ⟨inside, rfl⟩ := List.getElem?_eq_some_iff.1 here
      simp [inside, same, List.getD_eq_getElem?_getD]
  · simp [different]

theorem record
    (accounted : Accounted pedigree anchor log tree ballots balances) {validator slot : Nat}
    {root : Root} (known : ∃ (index slot : Nat), log[index]? = some ⟨root, slot⟩) :
    Accounted pedigree anchor log tree (ballots.record validator root slot) balances := by
  have extended := accounted.extend (validator + 1 - ballots.votes.length)
  unfold Ballots.record
  dsimp only
  generalize ballots.votes ++ List.replicate (validator + 1 - ballots.votes.length) Vote.blank =
    votes at extended ⊢
  split
  · have applied : Placed log tree (votes.getD validator .blank).applied := by
      rw [List.getD_eq_getElem?_getD]
      cases here : votes[validator]? with
      | none => exact .inl rfl
      | some vote => exact extended.placed vote (List.mem_of_getElem? here)
    exact {
      wellFormed := extended.wellFormed
      chronicle := extended.chronicle
      heard := fun vote member => by
        rcases List.mem_or_eq_of_mem_set member with old | rfl
        · exact extended.heard vote old
        · exact .inr known
      placed := fun vote member => by
        rcases List.mem_or_eq_of_mem_set member with old | rfl
        · exact extended.placed vote old
        · exact applied
      unmoved := fun unchanged => by cases unchanged
      weights := fun position inside => by
        rw [map_set_getD .blank (by rfl)]
        exact extended.weights position inside }
  · exact extended

end Accounted

/-- Every vote is applied to the node for which the latest vote counts. -/
def Current (tree : BlockTree) (votes : List Vote) : Prop :=
  votes.map (appliedPlace tree) = votes.map (latestPlace tree)

theorem Current.dropOldest
    {tree : BlockTree} {votes : List Vote} (current : Current tree votes)
    (wellFormed : WellFormed tree) (count : Nat) : Current (tree.dropOldest count) votes := by
  have applied : votes.map (appliedPlace (tree.dropOldest count)) =
      (votes.map (appliedPlace tree)).map (·.bind (shift count)) := by
    rw [List.map_map]
    exact List.map_congr_left fun vote _ => appliedPlace_dropOldest wellFormed count vote
  have latest : votes.map (latestPlace (tree.dropOldest count)) =
      (votes.map (latestPlace tree)).map (·.bind (shift count)) := by
    rw [List.map_map]
    exact List.map_congr_left fun vote _ => latestPlace_dropOldest wellFormed count vote
  rw [Current, applied, latest, show votes.map (appliedPlace tree) = _ from current]

theorem Current.congr
    {tree other : BlockTree} {votes : List Vote} (current : Current tree votes)
    (same : SameShape other tree) : Current other votes := by
  have applied : appliedPlace other = appliedPlace tree := by
    funext vote
    exact same.position?_eq vote.applied
  have latest : latestPlace other = latestPlace tree := by
    funext vote
    rw [latestPlace, same.resolve?_eq]
    rfl
  rw [Current, applied, latest]
  exact current

theorem Accounted.current
    {preset : Preset} {pedigree : Pedigree} {anchor : NodeRef} {log : List NodeRef}
    {tree : BlockTree} {ballots : Ballots preset} {balances : List Nat}
    (accounted : Accounted pedigree anchor log tree ballots balances)
    (unchanged : ballots.changed = false) : Current tree ballots.votes := by
  apply List.map_congr_left
  intro vote member
  rcases accounted.unmoved unchanged vote member with rfl | same
  · rw [appliedPlace_blank accounted.wellFormed accounted.chronicle.ref_ne_zero,
      latestPlace_blank accounted.wellFormed accounted.chronicle.ref_ne_zero]
  · rw [appliedPlace, latestPlace, ← same]
    exact ((accounted.placed vote member).resolve?_eq accounted.wellFormed
      accounted.chronicle).symm

end BeaconChain
