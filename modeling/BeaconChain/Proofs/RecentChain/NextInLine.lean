import BeaconChain.Proofs.RecentChain.Pruned

/-!
# The next in line

The earliest entry of a chain is the one that is handed on next.  Whatever blocks are added, it
stays the earliest one until it is taken, and nothing else is taken before it.
-/

namespace BeaconChain

open BlockTree

variable {preset : Preset} {State Block Context store : Type} {rules : Rules State Block Context}
  {anchor oldest : Entry State Context} {before : List (Entry State Context)}
  {receive : EntryReceiver State Context store} {state after : store}
  {log logAfter : List (Handover State Context)}

/-- A pruning hands the entry of the oldest node on before any other, or has handed nothing on. -/
theorem Pruned.oldest_first
    {tree treeAfter : BlockTree} {count accepted : Nat} {pool left : Pool State Context}
    (pruned : Pruned tree count pool log accepted treeAfter left logAfter)
    (inside : count < tree.size) (canonical : tree.StateDescends count 0)
    (isOldest : entryAt? tree pool 0 = some oldest) :
    taken logAfter = taken log ∧ entryAt? treeAfter left 0 = some oldest ∨
      ∃ rest, taken logAfter = taken log ++ oldest :: rest := by
  obtain ⟨node, here, held⟩ := entryAt?_eq_some_iff.1 isOldest
  have handed := pruned.handed
  cases accepted with
  | zero =>
    obtain ⟨kept, there, alike⟩ := pruned.trimmed.exists_rest here
    have sameName : kept.ref = node.ref := ((Node.bare_eq_iff _ _).1 alike).1
    have stillHeld := (pruned.found node.ref oldest).2 ⟨held, fun _ _ => Nat.zero_le _⟩
    refine .inl ⟨?_, entryAt?_eq_some_iff.2 ⟨kept, there, by rw [sameName, stillHeld]⟩⟩
    rw [handed, List.take_zero, Pool.due, List.filterMap_nil, List.append_nil]
  | succ accepted =>
    -- the oldest node was offered before all others, with the mark of an ancestor
    have first : (tree.markedNames count)[0]? = some (node.ref, true) :=
      (pruned.trimmed.whole.getElem?_markedNames inside).2
        ⟨Nat.lt_of_lt_of_le (Nat.succ_pos accepted) pruned.notMore, ⟨node, here, rfl⟩,
          iff_of_true rfl canonical⟩
    cases names : tree.markedNames count with
    | nil =>
      rw [names] at first
      cases first
    | cons name others =>
      rw [names] at first handed
      cases first
      refine .inr ⟨pool.due (others.take accepted), ?_⟩
      rw [handed, List.take_succ_cons, Pool.due, List.filterMap_cons, if_pos rfl, held]
      rfl

theorem taken_prefix (longer : log <+: logAfter) : taken log <+: taken logAfter :=
  (longer.filter _).map _

namespace RecentChain

variable {chain next : RecentChain preset rules} {first : Nat}

/-- After `before` nothing has been taken and the entry is the earliest one, or it was taken
first. -/
inductive NextInLine (before : List (Entry State Context)) (entry : Entry State Context)
    (chain : RecentChain preset rules) (log : List (Handover State Context)) : Prop
  | waits (nothing : taken log = before) (earliest : chain.earliest? = some entry)
  | passed (rest : List (Entry State Context)) (first : taken log = before ++ entry :: rest)

theorem Unmoved.earliest?_eq (unmoved : chain.Unmoved next) : next.earliest? = chain.earliest? := by
  change entryAt? next.choice.tree next.pool 0 = entryAt? chain.choice.tree chain.pool 0
  rw [entryAt?_congr unmoved.shape, unmoved.pool]

theorem Grown.earliest?_eq
    {inRange : Nat → Prop} {grown : RecentChain preset rules} {added : List (Entry State Context)}
    (growth : Grown inRange chain added grown)
    (stocked : Stocked rules inRange chain.choice.tree chain.pool)
    (earliest : chain.earliest? = some oldest) : grown.earliest? = some oldest := by
  obtain ⟨node, here, held⟩ := entryAt?_eq_some_iff.1 earliest
  obtain ⟨new, together⟩ := growth.nodes_prefix
  have inside := (List.getElem?_eq_some_iff.1 here).1
  refine entryAt?_eq_some_iff.2 ⟨node, ?_, growth.find?_of_find? stocked held⟩
  rw [← together, List.getElem?_append_left inside, here]

namespace NextInLine

theorem unmoved
    (inLine : chain.NextInLine before oldest log) (unmoved : chain.Unmoved next) :
    next.NextInLine before oldest log := by
  cases inLine with
  | waits nothing earliest => exact .waits nothing (unmoved.earliest?_eq.trans earliest)
  | passed rest first => exact .passed rest first

/-- What has been taken stays taken. -/
theorem longer
    (first : ∃ rest, taken log = before ++ oldest :: rest) (longer : log <+: logAfter) :
    chain.NextInLine before oldest logAfter := by
  obtain ⟨rest, first⟩ := first
  obtain ⟨more, together⟩ := taken_prefix longer
  exact .passed (rest ++ more) (by rw [← together, first, List.append_assoc, List.cons_append])

theorem finalizeAt
    {inRange : Nat → Prop} {counted choice : ForkChoice preset} {justified finalized : Checkpoint}
    {ref : NodeRef} {pool : Pool State Context} {outcome : Except Error Unit}
    (seamless : Seamless inRange anchor chain log first)
    (isOldest : chain.earliest? = some oldest) (recounted : chain.choice.Recounted counted)
    (inside : chain.choice.tree.relation chain.choice.finalizedRoot finalized.root = .inside)
    (resolved : chain.choice.checkpointNode finalized = .ok ref)
    (done : ({ counted with justified := justified } : ForkChoice preset).finalizeAt finalized
      ref (Pool.release (watching receive)) (chain.pool, state, log) =
        (outcome, choice, pool, after, logAfter)) :
    ({ chain with choice := choice, pool := pool } : RecentChain preset rules).NextInLine
      (taken log) oldest logAfter := by
  obtain ⟨pruned, _⟩ := ForkChoice.finalizeAt_spec done
  obtain ⟨position, node, rfl, latest⟩ :=
    ForkChoice.exists_of_checkpointNode seamless.sound.toWellFormed resolved
  have under := seamless.sound.under_of_relation_inside inside seamless.isFirst
  have canonical : chain.choice.tree.StateDescends position 0 :=
    (under position node latest.here latest.ofRoot).trans seamless.oldest
  have present := seamless.sound.position?_ref latest.here
  obtain ⟨accepted, pruned, _⟩ := prune_spec (recounted.sound seamless.sound) recounted.shape
    seamless.named present pruned
  have isInside : position < chain.choice.tree.size := (List.getElem?_eq_some_iff.1 latest.here).1
  rcases pruned.oldest_first isInside canonical isOldest with ⟨nothing, stays⟩ | ⟨rest, first⟩
  · exact .waits nothing stays
  · exact .passed rest first

theorem adopt
    {inRange : Nat → Prop} {entry : Entry State Context} {outcome : Except Error Unit}
    (seamless : Seamless inRange anchor chain log first)
    (isOldest : chain.earliest? = some oldest)
    (adopted : chain.adopt entry (watching receive) (state, log) =
      (outcome, next, after, logAfter)) :
    next.NextInLine (taken log) oldest logAfter := by
  have adoption := adopt_adoption adopted
  obtain ⟨limits, choice, pool⟩ := next
  cases adoption with
  | unchanged => exact .waits rfl isOldest
  | justify recounted _ _ =>
    have unmoved : chain.Unmoved { chain with choice := _ } := Recounts.unmoved ⟨_, recounted, rfl⟩
    exact .waits rfl (unmoved.earliest?_eq.trans isOldest)
  | finalize recounted _ _ _ inside resolved done =>
    have inLine := finalizeAt seamless isOldest recounted inside resolved done
    cases inLine with
    | waits nothing earliest => exact .waits nothing earliest
    | passed rest first => exact .passed rest first

theorem sweep
    {outcome : Except Error Unit} (inLine : chain.NextInLine before oldest log)
    (seamless : Seamless (· < slotLimit) anchor chain log first) (lenient : Lenient receive)
    (swept : chain.sweep (watching receive) (state, log) = (outcome, next, after, logAfter)) :
    next.NextInLine before oldest logAfter := by
  obtain ⟨entry, known⟩ := seamless.kept 0 (.inl seamless.oldest)
    (Nat.zero_lt_of_lt seamless.first_lt)
  obtain ⟨node, here, held⟩ := entryAt?_eq_some_iff.1 known
  have notBefore := seamless.notBefore 0 entry seamless.oldest known
  have inRange : entry.slot < slotLimit := seamless.allowed _ _ held
  unfold RecentChain.sweep at swept
  generalize done : chain.pool.sweep (watching receive) (state, log) = result at swept
  obtain ⟨answer, pool, between, logBetween⟩ := result
  obtain ⟨_, nothing, found⟩ := Pool.sweep_spec seamless.named
    (Nat.le_of_lt (Nat.lt_of_le_of_lt notBefore inRange)) lenient done
  cases swept
  cases inLine with
  | passed rest first => exact .passed rest (nothing.trans first)
  | waits same earliest =>
    obtain rfl : entry = oldest := Option.some.inj (known.symm.trans earliest)
    exact .waits (nothing.trans same)
      (entryAt?_eq_some_iff.2 ⟨node, here, (found _ _).2 ⟨held, notBefore⟩⟩)

theorem addBlock_noted
    (inLine : chain.NextInLine before oldest log)
    (seamless : Seamless (· < slotLimit) anchor chain log first) (lenient : Lenient receive)
    (block : Block) (interrupted : List Nat → Bool) (state : store)
    (allowed : ∀ slot ≤ rules.blockSlot block, slot < slotLimit) :
    (chain.addBlock block interrupted receive state).2.1.NextInLine before oldest
      (chain.noted log (.addBlock block interrupted receive state)) := by
  rw [← addBlock_watching chain block interrupted receive state log]
  have growing : log <+: (chain.addBlock block interrupted (watching receive) (state, log)).2.2.2 :=
    ⟨_, (addBlock_watching_log chain block interrupted receive state log).symm⟩
  generalize added : chain.addBlock block interrupted (watching receive) (state, log) = result at *
  obtain ⟨outcome, next, after, logAfter⟩ := result
  simp only [noted, added]
  cases inLine with
  | passed rest first => exact longer ⟨rest, first⟩ growing
  | waits nothing earliest =>
    -- only the adoption can take the entry: growth and the sweep leave it where it is
    subst nothing
    rcases addBlock_cases seamless.toStocked allowed added with
      ⟨rfl, same⟩ | ⟨draft, grown, answer, _, _, _, growth, settled⟩
    · cases same
      exact .waits rfl earliest
    · obtain ⟨_, adopted, ⟨between, logBetween⟩, adopts, rest⟩ := settle_cases settled
      have grownSeamless := seamless.grown growth
      have stays := growth.earliest?_eq seamless.toStocked earliest
      have inLine := adopt grownSeamless stays adopts
      rcases rest with ⟨rfl, same⟩ | ⟨_, swept⟩
      · cases same
        exact inLine
      · obtain ⟨_, adoptedSeamless⟩ := grownSeamless.adopt lenient adopts
        exact inLine.sweep adoptedSeamless lenient swept

end NextInLine

end RecentChain

end BeaconChain
