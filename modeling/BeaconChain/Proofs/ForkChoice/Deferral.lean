import BeaconChain.Proofs.ForkChoice.Runs

/-!
# Votes that are counted later

Votes are counted when a head is asked for.  Asking for more heads than a run needs counts them
earlier, moves weights and finds links anew, and yet no later call of the run can tell, as the fork
choices with and without these heads match all along.
-/

namespace BeaconChain

open BlockTree

namespace ForkChoice

variable {preset : Preset} {choice other next : ForkChoice preset} {pedigree : Pedigree}

section Runs

variable {store : Type}

/-- An adoption leaves nothing pending if no node was refused. -/
theorem pending_of_adopt
    {trigger : NodeRef} {justified finalized : Checkpoint}
    {balancesAt : Checkpoint → Except Error (List Nat)} {receive : NodeReceiver store}
    {state after : store} {offers : List Offer} {outcome : Except Error Unit}
    (sound : Sound choice.tree) (settled : choice.pending = none)
    (adopted : choice.adopt trigger justified finalized balancesAt (recording receive) (state, []) =
      (outcome, next, after, offers))
    (accepted : ∀ offer ∈ offers, offer.answer = .ok ()) : next.pending = none := by
  cases adopt_adoption adopted with
  | unchanged => exact settled
  | justify recounted => exact recounted.pending.trans settled
  | @finalize counted _ _ anchor _ _ recounted _ _ _ _ resolved done =>
    rw [← recounted.checkpointNode_eq] at resolved
    have wellFormed := recounted.shape.symm.wellFormed sound.toWellFormed
    cases outcome with
    | error error =>
      obtain ⟨offer, member, refuses⟩ := exists_refused_of_finalizeAt wellFormed resolved done
      cases (accepted offer member).symm.trans refuses
    | ok =>
      unfold ForkChoice.finalizeAt at done
      split at done
      · cases done
      · cases done
        rfl

theorem Standing.head (standing : Standing pedigree choice) : Standing pedigree choice.head.2 where
  reached := standing.reached.head
  light := by
    rw [(head_matches choice).balances]
    exact standing.light
  settled := (head_matches choice).pending.trans standing.settled

theorem Standing.perform
    {call : Call store} {state : store} (standing : Standing pedigree choice)
    (lawful : call.Lawful pedigree) (unrefused : (choice.perform state call).1.Unrefused) :
    Standing pedigree (choice.perform state call).2.1 where
  reached := standing.reached.perform lawful.covered
  light := light_perform standing.light lawful.covered
  settled := by
    cases call with
    | insertSlots => exact standing.settled
    | insertBlock => exact standing.settled
    | recordVote validator root slot =>
      exact (choice.recordVote_recounted validator root slot).pending.trans standing.settled
    | setPin pin => exact (choice.setPin_keeps pin).2.trans standing.settled
    | clearPin => exact standing.settled
    | head => exact (head_matches choice).pending.trans standing.settled
    | adopt => exact pending_of_adopt standing.sound standing.settled rfl unrefused

/-- No call can tell apart two fork choices that match. -/
theorem Matches.perform
    {call : Call store} {state : store} (alike : Matches choice other)
    (standing : Standing pedigree choice) (otherStanding : Standing pedigree other)
    (lawful : call.Lawful pedigree) :
    (choice.perform state call).1 = (other.perform state call).1 ∧
      (choice.perform state call).2.2 = (other.perform state call).2.2 ∧
      Matches (choice.perform state call).2.1 (other.perform state call).2.1 := by
  cases call with
  | insertSlots root slot justified finalized =>
    obtain ⟨answer, after⟩ := alike.insertSlots root slot justified finalized
    exact ⟨congrArg Answer.inserted answer, rfl, after⟩
  | insertBlock parentRoot root slot justified finalized =>
    obtain ⟨answer, after⟩ := alike.insertBlock parentRoot root slot justified finalized
    exact ⟨congrArg Answer.inserted answer, rfl, after⟩
  | recordVote validator root slot =>
    obtain ⟨answer, after⟩ := alike.recordVote standing.reached.voiced
      otherStanding.reached.voiced validator root slot
    exact ⟨congrArg Answer.recorded answer, rfl, after⟩
  | setPin pin =>
    obtain ⟨answer, after⟩ := alike.setPin pin
    exact ⟨congrArg Answer.pinned answer, rfl, after⟩
  | clearPin => exact ⟨rfl, rfl, alike.clearPin⟩
  | head =>
    obtain ⟨answer, after⟩ := alike.head standing otherStanding
    exact ⟨congrArg Answer.found answer, rfl, after⟩
  | adopt trigger justified finalized balancesAt receive =>
    obtain ⟨outcome, stored, after⟩ := alike.adopt standing otherStanding trigger justified
      finalized lawful (recording receive) (state, [])
    exact ⟨congrArg₂ Answer.adopted outcome (congrArg Prod.snd stored), congrArg Prod.fst stored,
      after⟩

/-- Extra heads change no answer of a run, and what it leads to matches. -/
theorem Matches.run
    {steps : List (Option (Call store))} {state : store} (alike : Matches choice other)
    (standing : Standing pedigree choice) (otherStanding : Standing pedigree other)
    (lawful : ∀ call, some call ∈ steps → call.Lawful pedigree)
    (unrefused : ∀ answer ∈ (other.run state (steps.filter Option.isSome)).1, answer.Unrefused) :
    (choice.run state steps).1 = (other.run state (steps.filter Option.isSome)).1 ∧
      (choice.run state steps).2.2 = (other.run state (steps.filter Option.isSome)).2.2 ∧
      Matches (choice.run state steps).2.1 (other.run state (steps.filter Option.isSome)).2.1 ∧
      Standing pedigree (choice.run state steps).2.1 ∧
      Standing pedigree (other.run state (steps.filter Option.isSome)).2.1 := by
  induction steps generalizing choice other state with
  | nil => exact ⟨rfl, rfl, alike, standing, otherStanding⟩
  | cons step rest ih =>
    have restLawful : ∀ call, some call ∈ rest → call.Lawful pedigree :=
      fun call member => lawful call (List.mem_cons_of_mem step member)
    cases step with
    | none =>
      exact ih ((head_matches choice).trans alike) standing.head otherStanding restLawful unrefused
    | some call =>
      have isLawful := lawful call List.mem_cons_self
      obtain ⟨answer, stored, after⟩ := alike.perform standing otherStanding isLawful
      have accepted : (other.perform state call).1.Unrefused :=
        unrefused _ List.mem_cons_self
      have nextStanding := standing.perform isLawful (answer ▸ accepted)
      have otherNextStanding := otherStanding.perform isLawful accepted
      obtain ⟨answers, last⟩ := ih after nextStanding otherNextStanding restLawful
        fun answer member => unrefused answer (List.mem_cons_of_mem _ member)
      simp only [ForkChoice.run, List.filter_cons_of_pos, Option.isSome_some]
      rw [stored, answer]
      exact ⟨congrArg _ answers, last⟩

/-- Heads that are asked for in between change nothing: neither an answer of a later call, nor what
a receiver of pruned nodes is offered and makes of it, nor the next head, nor, once it is found, the
nodes with their weights and links. -/
theorem extra_heads_unobservable
    (anchor : NodeRef) (parentRoot : Root) (justified finalized : Checkpoint) (balances : List Nat)
    (admitted : pedigree.Admits parentRoot anchor.root anchor.slot) (nonzero : anchor ≠ .zero)
    (light : balances.sum < weightLimit) {steps : List (Option (Call store))}
    (lawful : ∀ call, some call ∈ steps → call.Lawful pedigree)
    (state : store) {after paddedAfter : store} {answers paddedAnswers : List Answer}
    {last paddedLast : ForkChoice preset}
    (plain : (ofAnchor anchor parentRoot justified finalized balances).run state
      (steps.filter Option.isSome) = (answers, last, after))
    (unrefused : ∀ answer ∈ answers, answer.Unrefused)
    (padded : (ofAnchor anchor parentRoot justified finalized balances).run state steps =
      (paddedAnswers, paddedLast, paddedAfter)) :
    paddedAnswers = answers ∧ paddedAfter = after ∧ paddedLast.head.1 = last.head.1 ∧
      ∀ head, last.head.1 = .ok head → paddedLast.head.2.tree = last.head.2.tree := by
  have start : Standing pedigree (.ofAnchor anchor parentRoot justified finalized balances :
      ForkChoice preset) :=
    ⟨.ofAnchor anchor parentRoot justified finalized balances admitted nonzero, light, rfl⟩
  have runs := (Matches.refl _).run start start lawful (by rw [plain]; exact unrefused)
  rw [plain, padded] at runs
  obtain ⟨sameAnswers, stored, alike, paddedStanding, standing⟩ := runs
  have sameHead := (alike.head paddedStanding standing).1
  exact ⟨sameAnswers, stored, sameHead, fun head found =>
    tree_eq_of_head alike paddedStanding standing (sameHead.trans found) found⟩

end Runs

/-- Two blocks with votes, the first of which is finalized by a receiver that counts nodes, and
heads that are asked for in between. -/
def interruptedSteps : List (Option (Call Nat)) :=
  [some (.insertBlock ⟨10⟩ ⟨11⟩ 8 ⟨0, ⟨10⟩⟩ ⟨0, ⟨10⟩⟩), some (.recordVote 0 ⟨11⟩ 8), none,
    some (.insertBlock ⟨11⟩ ⟨12⟩ 9 ⟨1, ⟨11⟩⟩ ⟨1, ⟨11⟩⟩), some (.recordVote 1 ⟨12⟩ 9), none, none,
    some (.adopt ⟨⟨12⟩, 9⟩ ⟨1, ⟨11⟩⟩ ⟨1, ⟨11⟩⟩ (fun _ => .ok [32, 32])
      fun _ _ count => (.ok (), count + 1)), none]

/-- Names the parents and slots of these blocks. -/
def interruptedPedigree : Pedigree where
  parent root := ⟨root.bits - 1⟩
  slot root := if root = ⟨10⟩ then 0 else root.bits.toNat - 3

def interruptedRun (steps : List (Option (Call Nat))) :
    List Answer × ForkChoice .minimal × Nat :=
  (ofAnchor ⟨⟨10⟩, 0⟩ ⟨9⟩ ⟨0, ⟨10⟩⟩ ⟨0, ⟨10⟩⟩ [32, 32]).run 0 steps

def plainRun : List Answer × ForkChoice .minimal × Nat :=
  interruptedRun (interruptedSteps.filter Option.isSome)

theorem extra_heads_unobservable_interruptedSteps :
    plainRun.2.2 = 9 ∧ plainRun.2.1.head.1 = .ok ⟨⟨12⟩, 9⟩ ∧
      (interruptedRun interruptedSteps).1 = plainRun.1 ∧
      (interruptedRun interruptedSteps).2.1.head.2.tree = plainRun.2.1.head.2.tree := by
  have lawful : ∀ call, some call ∈ interruptedSteps → call.Lawful interruptedPedigree := by
    simp [interruptedSteps, Call.Lawful, Pedigree.Admits, interruptedPedigree, or_imp, forall_and,
      weightLimit]
  have found : plainRun.2.1.head.1 = .ok ⟨⟨12⟩, 9⟩ := by decide +kernel
  have parts (run : List Answer × ForkChoice .minimal × Nat) : run = (run.1, run.2.1, run.2.2) :=
    rfl
  obtain ⟨answers, _, _, trees⟩ := extra_heads_unobservable ⟨⟨10⟩, 0⟩ ⟨9⟩ ⟨0, ⟨10⟩⟩ ⟨0, ⟨10⟩⟩
    [32, 32] ⟨by decide, by decide⟩ (by decide) (by decide) lawful 0 (parts plainRun)
    (by decide +kernel) (parts (interruptedRun interruptedSteps))
  exact ⟨by decide +kernel, found, answers, trees ⟨⟨12⟩, 9⟩ found⟩

end ForkChoice

end BeaconChain
