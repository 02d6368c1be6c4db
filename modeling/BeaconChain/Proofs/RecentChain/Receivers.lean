import BeaconChain.Proofs.RecentChain.Handover

/-!
# Receivers that answer alike

A chain learns nothing of the state of a receiver but the answers.  With two receivers
that answer alike it does the same, and their states stay alike.  So a receiver can be
watched without harm, and what every answer keeps is kept by the chain.
-/

namespace BeaconChain

section Results

variable {item answer kept first second : Type} {alike : first → second → Prop}

/-- Two receivers give the same answers while their states are alike, and the states
stay alike. -/
def AnswerAlike (alike : first → second → Prop)
    (one : item → Bool → first → Except Error Unit × first)
    (other : item → Bool → second → Except Error Unit × second) : Prop :=
  ∀ (offered : item) (canonical : Bool) (left : first) (right : second), alike left right →
    (one offered canonical left).1 = (other offered canonical right).1 ∧
      alike (one offered canonical left).2 (other offered canonical right).2

/-- Two results agree but for the states of receivers, which are alike. -/
structure SameResult (alike : first → second → Prop) (one : answer × kept × first)
    (other : answer × kept × second) : Prop where
  outcome : one.1 = other.1
  rest : one.2.1 = other.2.1
  states : alike one.2.2 other.2.2

/-- Pairs of one value and states that are alike. -/
def AlikeBeside (alike : first → second → Prop) (left : kept × first)
    (right : kept × second) : Prop :=
  left.1 = right.1 ∧ alike left.2 right.2

theorem AnswerAlike.cases
    {one : item → Bool → first → Except Error Unit × first}
    {other : item → Bool → second → Except Error Unit × second}
    (answers : AnswerAlike alike one other) (offered : item) (canonical : Bool) {left : first}
    {right : second} (related : alike left right) :
    (∃ left' right', one offered canonical left = (.ok (), left') ∧
      other offered canonical right = (.ok (), right') ∧ alike left' right') ∨
    (∃ error left' right', one offered canonical left = (.error error, left') ∧
      other offered canonical right = (.error error, right') ∧ alike left' right') := by
  obtain ⟨same, stay⟩ := answers offered canonical left right related
  cases outcome : (one offered canonical left).1 with
  | ok =>
    exact .inl ⟨_, _, Prod.ext outcome rfl, Prod.ext (same.symm.trans outcome) rfl, stay⟩
  | error error =>
    exact .inr ⟨error, _, _, Prod.ext outcome rfl, Prod.ext (same.symm.trans outcome) rfl, stay⟩

end Results

variable {preset : Preset} {State Block Context first second : Type}
  {rules : Rules State Block Context} {alike : first → second → Prop}

section Nodes

variable {one : NodeReceiver first} {other : NodeReceiver second} {left : first} {right : second}

theorem BlockTree.offerAll_alike (answers : AnswerAlike alike one other) :
    ∀ {left : first} {right : second} (marked : List (Node × Bool)), alike left right →
      SameResult alike (offerAll one marked left) (offerAll other marked right)
  | _, _, [], related => ⟨rfl, rfl, related⟩
  | _, _, (node, canonical) :: rest, related => by
    rcases answers.cases node canonical related with
      ⟨left', right', accepted, acceptedToo, stay⟩ |
        ⟨error, left', right', refused, refusedToo, stay⟩
    · obtain ⟨outcome, count, states⟩ := offerAll_alike answers rest stay
      simp only [offerAll, accepted, acceptedToo]
      exact ⟨outcome, congrArg (· + 1) count, states⟩
    · simp only [offerAll, refused, refusedToo]
      exact ⟨rfl, rfl, stay⟩

theorem BlockTree.prune_alike
    (answers : AnswerAlike alike one other) (tree : BlockTree) (anchor : NodeRef)
    (related : alike left right) :
    SameResult alike (tree.prune anchor one left) (tree.prune anchor other right) := by
  simp only [prune]
  split
  next => exact ⟨rfl, rfl, related⟩
  next position node _ =>
    obtain ⟨outcome, count, states⟩ := offerAll_alike answers
      (tree.refresh.markedBefore position (node.headPosition position)) related
    exact ⟨outcome, congrArg tree.refresh.dropOldest count, states⟩

theorem ForkChoice.finalizeAt_alike
    (answers : AnswerAlike alike one other) (choice : ForkChoice preset) (finalized : Checkpoint)
    (anchor : NodeRef) (related : alike left right) :
    SameResult alike (choice.finalizeAt finalized anchor one left)
      (choice.finalizeAt finalized anchor other right) := by
  obtain ⟨outcome, tree, states⟩ := BlockTree.prune_alike answers choice.tree anchor related
  unfold ForkChoice.finalizeAt
  generalize choice.tree.prune anchor one left = pruned at outcome tree states ⊢
  generalize choice.tree.prune anchor other right = prunedToo at outcome tree states ⊢
  obtain ⟨answer, grown, left'⟩ := pruned
  obtain ⟨answerToo, grownToo, right'⟩ := prunedToo
  subst outcome tree
  cases answer with
  | ok => exact ⟨rfl, rfl, states⟩
  | error error => exact ⟨rfl, rfl, states⟩

theorem ForkChoice.adopt_alike
    (answers : AnswerAlike alike one other) (choice : ForkChoice preset) (trigger : NodeRef)
    (justified finalized : Checkpoint) (balancesAt : Checkpoint → Except Error (List Nat))
    (related : alike left right) :
    SameResult alike (choice.adopt trigger justified finalized balancesAt one left)
      (choice.adopt trigger justified finalized balancesAt other right) := by
  unfold ForkChoice.adopt
  split
  next => exact ⟨rfl, rfl, related⟩
  next => exact ⟨rfl, rfl, related⟩
  next advance _ =>
    split
    next => exact ⟨rfl, rfl, related⟩
    next balances _ =>
      split
      next => exact ⟨rfl, rfl, related⟩
      next counted _ =>
        dsimp only
        split
        next => exact ⟨rfl, rfl, related⟩
        next anchor _ => exact finalizeAt_alike answers _ advance.finalized anchor related

end Nodes

section Entries

variable {one : EntryReceiver State Context first} {other : EntryReceiver State Context second}
  {left : first} {right : second}

theorem Pool.release_alike (answers : AnswerAlike alike one other) :
    AnswerAlike (AlikeBeside alike) (release one) (release other) := by
  rintro node canonical ⟨pool, left⟩ ⟨_, right⟩ ⟨rfl, related⟩
  simp only [release]
  split
  next => exact ⟨rfl, rfl, related⟩
  next entry _ =>
    rcases answers.cases entry canonical related with
      ⟨left', right', accepted, acceptedToo, stay⟩ |
        ⟨error, left', right', refused, refusedToo, stay⟩
    · rw [accepted, acceptedToo]
      exact ⟨rfl, rfl, stay⟩
    · rw [refused, refusedToo]
      exact ⟨rfl, rfl, stay⟩

theorem Pool.discard_alike (answers : AnswerAlike alike one other) :
    ∀ {left : first} {right : second} (entries : List (Entry State Context))
      (pool : Pool State Context), alike left right →
      SameResult alike (discard one entries pool left) (discard other entries pool right)
  | _, _, [], _, related => ⟨rfl, rfl, related⟩
  | _, _, entry :: rest, pool, related => by
    rcases answers.cases entry false related with
      ⟨left', right', accepted, acceptedToo, stay⟩ |
        ⟨error, left', right', refused, refusedToo, stay⟩
    · simp only [discard, accepted, acceptedToo]
      exact discard_alike answers rest (pool.remove entry.ref) stay
    · simp only [discard, refused, refusedToo]
      exact ⟨rfl, rfl, stay⟩

theorem Pool.sweep_alike
    (answers : AnswerAlike alike one other) (pool : Pool State Context)
    (related : alike left right) :
    SameResult alike (pool.sweep one left) (pool.sweep other right) := by
  unfold sweep
  split
  next => exact ⟨rfl, rfl, related⟩
  next entries _ => exact discard_alike answers entries pool related

namespace RecentChain

theorem sweep_alike
    (answers : AnswerAlike alike one other) (chain : RecentChain preset rules)
    (related : alike left right) :
    SameResult alike (chain.sweep one left) (chain.sweep other right) := by
  obtain ⟨outcome, pool, states⟩ := Pool.sweep_alike answers chain.pool related
  refine ⟨outcome, ?_, states⟩
  unfold sweep
  dsimp only
  rw [pool]

theorem adopt_alike
    (answers : AnswerAlike alike one other) (chain : RecentChain preset rules)
    (entry : Entry State Context) (related : alike left right) :
    SameResult alike (chain.adopt entry one left) (chain.adopt entry other right) := by
  obtain ⟨outcome, choice, pool, states⟩ := ForkChoice.adopt_alike (Pool.release_alike answers)
    chain.choice entry.ref (rules.justified entry.state) (rules.finalized entry.state)
    chain.balancesAt
    (show AlikeBeside alike (chain.pool, left) (chain.pool, right) from ⟨rfl, related⟩)
  refine ⟨outcome, ?_, states⟩
  unfold adopt
  dsimp only
  rw [choice, pool]

theorem settle_alike
    (answers : AnswerAlike alike one other) (chain : RecentChain preset rules)
    (entry : Entry State Context) (related : alike left right) :
    SameResult alike (chain.settle entry one left) (chain.settle entry other right) := by
  obtain ⟨outcome, adopted, states⟩ := adopt_alike answers chain entry related
  unfold settle
  generalize chain.adopt entry one left = result at outcome adopted states ⊢
  generalize chain.adopt entry other right = resultToo at outcome adopted states ⊢
  obtain ⟨answer, grown, left'⟩ := result
  obtain ⟨answerToo, grownToo, right'⟩ := resultToo
  subst outcome adopted
  cases answer with
  | error error => exact ⟨rfl, rfl, states⟩
  | ok =>
    dsimp only
    split
    · exact ⟨rfl, rfl, states⟩
    · exact sweep_alike answers grown states

theorem addBlock_alike
    (answers : AnswerAlike alike one other) (chain : RecentChain preset rules) (block : Block)
    (interrupted : List Nat → Bool) (related : alike left right) :
    SameResult alike (chain.addBlock block interrupted one left)
      (chain.addBlock block interrupted other right) := by
  unfold addBlock
  dsimp only
  split
  next =>
    split
    · exact ⟨rfl, rfl, related⟩
    · exact ⟨rfl, rfl, related⟩
  next =>
    split
    next => exact ⟨rfl, rfl, related⟩
    next draft _ =>
      split
      next => exact ⟨rfl, rfl, related⟩
      next grown _ =>
        obtain ⟨outcome, settled, states⟩ := settle_alike answers grown draft.block related
        generalize grown.settle draft.block one left = result at outcome settled states ⊢
        generalize grown.settle draft.block other right = resultToo at outcome settled states ⊢
        obtain ⟨answer, final, left'⟩ := result
        obtain ⟨answerToo, finalToo, right'⟩ := resultToo
        subst outcome settled
        cases answer with
        | ok => exact ⟨rfl, rfl, states⟩
        | error error => exact ⟨rfl, rfl, states⟩

end RecentChain

end Entries

theorem watching_alike (receive : EntryReceiver State Context first) :
    AnswerAlike (fun watched state => watched.1 = state) (watching receive) receive := by
  rintro entry canonical ⟨state, log⟩ _ rfl
  exact ⟨rfl, rfl⟩

namespace RecentChain

variable (chain : RecentChain preset rules) (block : Block) (interrupted : List Nat → Bool)
  (receive : EntryReceiver State Context first) (state : first)

/-- A chain does not notice that a receiver is watched. -/
theorem addBlock_watching (log : List (Handover State Context)) :
    (chain.addBlock block interrupted (watching receive) (state, log)).2.1 =
      (chain.addBlock block interrupted receive state).2.1 :=
  (addBlock_alike (watching_alike receive) chain block interrupted rfl).rest

theorem addBlock_watching_state (log : List (Handover State Context)) :
    (chain.addBlock block interrupted (watching receive) (state, log)).2.2.1 =
      (chain.addBlock block interrupted receive state).2.2 :=
  (addBlock_alike (watching_alike receive) chain block interrupted rfl).states

/-- What is noted comes behind what has been noted before. -/
theorem addBlock_watching_log (log : List (Handover State Context)) :
    (chain.addBlock block interrupted (watching receive) (state, log)).2.2.2 =
      log ++ (chain.addBlock block interrupted (watching receive) (state, [])).2.2.2 := by
  have answers : AnswerAlike (fun left right => left.1 = right.1 ∧ left.2 = log ++ right.2)
      (watching receive) (watching receive) := by
    rintro entry canonical ⟨state, left⟩ ⟨_, right⟩ ⟨rfl, longer⟩
    obtain rfl : left = log ++ right := longer
    exact ⟨rfl, rfl, List.append_assoc _ _ _⟩
  have related : (state, log).1 = (state, ([] : List (Handover State Context))).1 ∧
      (state, log).2 = log ++ (state, ([] : List (Handover State Context))).2 :=
    ⟨rfl, (List.append_nil log).symm⟩
  exact (addBlock_alike answers chain block interrupted related).states.2

/-- What every answer of a receiver keeps is kept while a block is added. -/
theorem addBlock_keeps {Invariant : first → Prop}
    (keeps : ∀ entry canonical state, Invariant state → Invariant (receive entry canonical state).2)
    (start : Invariant state) : Invariant (chain.addBlock block interrupted receive state).2.2 :=
  have answers : AnswerAlike (fun left right => left = right ∧ Invariant left) receive receive :=
    fun entry canonical left _ ⟨same, holds⟩ => same ▸ ⟨rfl, rfl, keeps entry canonical left holds⟩
  (addBlock_alike answers chain block interrupted ⟨rfl, start⟩).states.2

end RecentChain

end BeaconChain
