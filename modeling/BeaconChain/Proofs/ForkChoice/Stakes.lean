import BeaconChain.Proofs.ForkChoice.Runs

/-!
# Balances in the range of weights

A count only moves balances from node to node, in an order that the validators and the nodes
decide.  If all balances together are in the range of weights, before the count and after it, then
so is every sum on the way, and every weight.  This goes on along a run for as long as it is given
no other balances, whatever of it fails.
-/

namespace BeaconChain

open BlockTree

namespace BlockTree

theorem findHead_ne_deltaOverflow (tree : BlockTree) (anchor node : NodeRef) :
    (tree.findHead anchor).1 ≠ .error (.deltaOverflow node) := by
  unfold findHead
  dsimp only
  split
  · nofun
  · split
    · nofun
    · nofun

end BlockTree

namespace ForkChoice

variable {preset : Preset} {choice next : ForkChoice preset} {pedigree : Pedigree}

/-- The fork choices of the runs whose balances are always in the range of weights.  The calls may
fail, and so may balances and receivers, each of which has a state of its own. -/
inductive Funded (pedigree : Pedigree) : ForkChoice preset → Prop
  | ofAnchor (anchor : NodeRef) (parentRoot : Root) (justified finalized : Checkpoint)
    (balances : List Nat) (admitted : pedigree.Admits parentRoot anchor.root anchor.slot)
    (nonzero : anchor ≠ .zero) (light : balances.sum < weightLimit) :
    Funded pedigree (.ofAnchor anchor parentRoot justified finalized balances)
  | perform {choice : ForkChoice preset} {store : Type} (funded : Funded pedigree choice)
    (call : Call store) (state : store) (covered : call.Covered pedigree choice) :
    Funded pedigree (choice.perform state call).2.1

namespace Funded

theorem reached (funded : Funded pedigree choice) : Reached pedigree choice := by
  induction funded with
  | ofAnchor anchor parentRoot justified finalized balances admitted nonzero =>
    exact .ofAnchor anchor parentRoot justified finalized balances admitted nonzero
  | perform _ call state covered ih => exact ih.perform covered

theorem light (funded : Funded pedigree choice) : choice.balances.sum < weightLimit := by
  induction funded with
  | ofAnchor _ _ _ _ _ _ _ light => exact light
  | perform _ call state covered ih => exact light_perform ih covered

theorem head (funded : Funded pedigree choice) : Funded pedigree choice.head.2 :=
  funded.perform Call.head () trivial

/-- A whole run is funded if each of its calls is lawful, whatever it is called on. -/
theorem run
    {store : Type} {steps : List (Option (Call store))} {state : store}
    (funded : Funded pedigree choice)
    (lawful : ∀ call, some call ∈ steps → call.Lawful pedigree) :
    Funded pedigree (choice.run state steps).2.1 := by
  induction steps generalizing choice state with
  | nil => exact funded
  | cons step rest ih =>
    have restLawful : ∀ call, some call ∈ rest → call.Lawful pedigree :=
      fun call member => lawful call (List.mem_cons_of_mem step member)
    cases step with
    | none => exact ih funded.head restLawful
    | some call =>
      have isLawful := lawful call List.mem_cons_self
      exact ih (funded.perform call state isLawful.covered) restLawful

end Funded

theorem head_ne_deltaOverflow
    (reached : Reached pedigree choice) (light : choice.balances.sum < weightLimit)
    (node : NodeRef) : choice.head.1 ≠ .error (.deltaOverflow node) := by
  obtain ⟨anchor, log, accounts⟩ := reached.accounts
  obtain ⟨counted, counts⟩ := exists_countVotes accounts light
  unfold ForkChoice.head
  rw [counts]
  dsimp only
  split
  next error unanchored =>
    intro same
    cases same
    have objection : (Error.deltaOverflow node).IsObjection := by
      unfold headAnchor at unanchored
      split at unanchored
      · cases unanchored
      · exact isObjection_of_checkpointNode unanchored
    exact objection.ne_deltaOverflow node rfl
  next => exact counted.tree.findHead_ne_deltaOverflow _ node

section Adoption

variable {store : Type} {receive : NodeReceiver store} {state after : store} {offers : List Offer}
  {error : Error}

/-- With balances in the range of weights, an adoption fails with an objection, or because the
balances are not given, or because a node is refused. -/
theorem error_of_light_adopt
    (reached : Reached pedigree choice) (light : choice.balances.sum < weightLimit)
    {trigger : NodeRef} {justified finalized : Checkpoint}
    {balancesAt : Checkpoint → Except Error (List Nat)}
    (covered : (Call.adopt trigger justified finalized balancesAt receive).Covered pedigree choice)
    (failed : choice.adopt trigger justified finalized balancesAt (recording receive) (state, []) =
      (.error error, next, after, offers)) :
    error.IsObjection ∨ balancesAt (newer choice.justified justified) = .error error ∨
      ∃ offer ∈ offers, offer.answer = .error error := by
  obtain ⟨root, log, accounts⟩ := reached.accounts
  unfold ForkChoice.adopt at failed
  split at failed
  next objects =>
    cases failed
    exact .inl (isObjection_of_advance? objects)
  next => cases failed
  next advance decided =>
    obtain ⟨_, isNewer, pruning⟩ := advance?_spec decided
    split at failed
    next unknown =>
      cases failed
      exact .inr (.inl (isNewer ▸ unknown))
    next balances known =>
      obtain ⟨counted, counts⟩ := exists_settle accounts light
        (covered advance balances decided known) ⟨advance.justified.epoch, advance.finalized.epoch⟩
      have recounted := settle_recounted choice balances
        ⟨advance.justified.epoch, advance.finalized.epoch⟩
      rw [counts] at failed recounted
      dsimp only at failed
      split at failed
      next => cases failed
      next anchor prunes =>
        rcases pruning with noPrune | ⟨oldest, prunesAt, _, _, _, resolved⟩
        · cases noPrune.symm.trans prunes
        · cases prunesAt.symm.trans prunes
          rw [← recounted.checkpointNode_eq] at resolved
          have wellFormed := recounted.shape.symm.wellFormed accounts.wellFormed
          exact .inr (.inr (exists_refused_of_finalizeAt wellFormed resolved failed))

end Adoption

/-- If the first balances and all that a run is given are in the range of weights, no weight is
ever negative, and neither a search for the head nor an adoption finds that a weight left the
range.  An adoption that gives this as its cause was given it by the balances or the receiver. -/
theorem light_never_overflows (funded : Funded pedigree choice) :
    (∀ node ∈ choice.tree.nodes, 0 ≤ node.weight ∧ node.weight ≤ choice.balances.sum) ∧
      (∀ node, choice.head.1 ≠ .error (.deltaOverflow node)) ∧
      ∀ {store : Type} (trigger : NodeRef) (justified finalized : Checkpoint)
        (balancesAt : Checkpoint → Except Error (List Nat)) (receive : NodeReceiver store)
        (state after : store) (node : NodeRef) (next : ForkChoice preset) (offers : List Offer),
        (Call.adopt trigger justified finalized balancesAt receive).Covered pedigree choice →
        choice.adopt trigger justified finalized balancesAt (recording receive) (state, []) =
          (.error (.deltaOverflow node), next, after, offers) →
        balancesAt (newer choice.justified justified) = .error (.deltaOverflow node) ∨
          ∃ offer ∈ offers, offer.answer = .error (.deltaOverflow node) := by
  have reached := funded.reached
  refine ⟨fun node member => ?_, head_ne_deltaOverflow reached funded.light, ?_⟩
  · obtain ⟨anchor, log, accounts⟩ := reached.accounts
    obtain ⟨position, here⟩ := List.mem_iff_getElem?.1 member
    rw [weight_eq_appliedSupport accounts here]
    have bounds := support_bounds choice.tree choice.balances position 0
      (choice.ballots.votes.map (appliedPlace choice.tree))
    rwa [List.drop_zero] at bounds
  · intro store trigger justified finalized balancesAt receive state after node next offers covered
      failed
    rcases error_of_light_adopt reached funded.light covered failed with objection | others
    · exact absurd rfl (objection.ne_deltaOverflow node)
    · exact others

/-- Two votes with all the balances that the range of weights has room for, most of which the first
validator has at first, and the second one after an adoption. -/
def weightySteps : List (Option (Call Nat)) :=
  [some (.insertBlock ⟨10⟩ ⟨11⟩ 8 ⟨0, ⟨10⟩⟩ ⟨0, ⟨10⟩⟩), some (.recordVote 0 ⟨11⟩ 8),
    some (.recordVote 1 ⟨11⟩ 8), none, some (.insertBlock ⟨11⟩ ⟨12⟩ 9 ⟨1, ⟨11⟩⟩ ⟨0, ⟨10⟩⟩),
    some (.recordVote 1 ⟨12⟩ 16), some (.adopt ⟨⟨12⟩, 9⟩ ⟨1, ⟨11⟩⟩ ⟨0, ⟨10⟩⟩
      (fun _ => .ok [1, 0x7FFFFFFFFFFFFFFE]) fun _ _ count => (.ok (), count + 1))]

def weightyChoice : ForkChoice .minimal :=
  ((ofAnchor ⟨⟨10⟩, 7⟩ ⟨9⟩ ⟨0, ⟨10⟩⟩ ⟨0, ⟨10⟩⟩ [0x7FFFFFFFFFFFFFFE, 1]).run 0 weightySteps).2.1

theorem light_never_overflows_weightyChoice :
    (∀ node ∈ weightyChoice.tree.nodes, 0 ≤ node.weight) ∧
      weightyChoice.tree.nodes.map Node.weight =
        [0x7FFFFFFFFFFFFFFF, 0, 0x7FFFFFFFFFFFFFFF, 0, 0x7FFFFFFFFFFFFFFE] ∧
      weightyChoice.head.1 = .ok ⟨⟨12⟩, 9⟩ := by
  let pedigree : Pedigree :=
    { parent := fun root => ⟨root.bits - 1⟩, slot := fun root => root.bits.toNat - 3 }
  have lawful : ∀ call, some call ∈ weightySteps → call.Lawful pedigree := by
    simp [weightySteps, Call.Lawful, Pedigree.Admits, pedigree, or_imp, forall_and, weightLimit]
  have start :
      Funded pedigree (.ofAnchor ⟨⟨10⟩, 7⟩ ⟨9⟩ ⟨0, ⟨10⟩⟩ ⟨0, ⟨10⟩⟩ [0x7FFFFFFFFFFFFFFE, 1] :
      ForkChoice .minimal) :=
    .ofAnchor _ _ _ _ _ ⟨by decide, by decide⟩ (by decide) (by decide)
  obtain ⟨weights, _, _⟩ := light_never_overflows (start.run lawful : Funded pedigree weightyChoice)
  exact ⟨fun node member => (weights node member).1, by decide +kernel, by decide +kernel⟩

end ForkChoice

end BeaconChain
