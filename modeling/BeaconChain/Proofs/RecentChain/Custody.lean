import BeaconChain.Proofs.Chain.Migration
import BeaconChain.Proofs.RecentChain.Departed

/-!
# Every entry leaves once

Entries leave the chain in two ways: with their nodes when the tree is pruned, and without
them when what is stale is swept.  Either can stop half-way and be taken up again later.
Where a block root has one parent and one slot, no entry is lost on the way and none is
accepted twice: what was ever inserted is divided between the pool and what receivers have
accepted.
-/

namespace BeaconChain

open BlockTree

namespace Table

variable {key value : Type} [DecidableEq key]

theorem values_insert_of_find?_eq_none
    {table : Table key value} {added : key} (item : value) (absent : table.find? added = none) :
    (table.insert added item).values = table.values ++ [item] := by
  obtain ⟨bindings⟩ := table
  simp only [values, insert]
  simp only [find?, Option.map_eq_none_iff] at absent
  induction bindings with
  | nil => rfl
  | cons binding rest ih =>
    rw [List.find?_cons] at absent
    split at absent
    next => cases absent
    next different =>
      have different : binding.1 ≠ added := of_decide_eq_false different
      simp [setBinding, different, ih absent]

/-- Erasing a key takes out its value and no other, where no key is bound twice. -/
theorem perm_values_erase
    {table : Table key value} {dropped : key} {item : value}
    (distinct : (table.bindings.map Prod.fst).Nodup) (found : table.find? dropped = some item) :
    table.values.Perm (item :: (table.erase dropped).values) := by
  obtain ⟨bindings⟩ := table
  simp only [values, erase]
  induction bindings with
  | nil => cases found
  | cons binding rest ih =>
    obtain ⟨notAgain, restDistinct⟩ := List.nodup_cons.1 distinct
    by_cases same : binding.1 = dropped
    · have others : rest.filter (fun other => decide (other.1 ≠ dropped)) = rest := by
        refine List.filter_eq_self.2 fun other member => decide_eq_true fun sameToo => ?_
        exact notAgain (List.mem_map.2 ⟨other, member, sameToo.trans same.symm⟩)
      obtain rfl : binding.2 = item := by simpa [find?, same] using found
      rw [List.filter_cons_of_neg (by simp [same]), others]
      exact .refl _
    · have foundInRest : (⟨rest⟩ : Table key value).find? dropped = some item := by
        simpa [find?, same] using found
      simpa [same] using ((ih restDistinct foundInRest).cons binding.2).trans (List.Perm.swap _ _ _)

end Table

variable {State Block Context store : Type} {rules : Rules State Block Context}
  {inRange : Nat → Prop} {pool left : Pool State Context}
  {log logAfter : List (Handover State Context)} {entry : Entry State Context}
  {entries : List (Entry State Context)} {receive : EntryReceiver State Context store}
  {state after : store} {outcome : Except Error Unit}

/-- The entries that were accepted, canonical or not. -/
def accepted (log : List (Handover State Context)) : List (Entry State Context) :=
  (log.filter fun handover => handover.outcome.isOk).map Handover.entry

/-- The offers of one node that were accepted. -/
def acceptances (log : List (Handover State Context)) (ref : NodeRef) :
    List (Handover State Context) :=
  log.filter fun handover => handover.outcome.isOk && decide (handover.entry.ref = ref)

theorem accepted_concat_ok
    (log : List (Handover State Context)) (entry : Entry State Context) (canonical : Bool) :
    accepted (log ++ [⟨entry, canonical, .ok ()⟩]) = accepted log ++ [entry] := by
  simp [accepted, Except.isOk, Except.toBool]

theorem accepted_concat_error
    (log : List (Handover State Context)) (entry : Entry State Context) (canonical : Bool)
    (error : Error) : accepted (log ++ [⟨entry, canonical, .error error⟩]) = accepted log := by
  simp [accepted, Except.isOk, Except.toBool]

theorem mem_accepted_iff :
    entry ∈ accepted log ↔ ∃ canonical, ⟨entry, canonical, .ok ()⟩ ∈ log := by
  simp only [accepted, List.mem_map, List.mem_filter]
  constructor
  · rintro ⟨⟨_, canonical, answer⟩, ⟨inLog, isOk⟩, rfl⟩
    cases answer with
    | ok => exact ⟨canonical, inLog⟩
    | error => cases isOk
  · rintro ⟨canonical, inLog⟩
    exact ⟨_, ⟨inLog, rfl⟩, rfl⟩

theorem acceptances_eq_nil
    {ref : NodeRef} (never : ref ∉ (accepted log).map Entry.ref) : acceptances log ref = [] := by
  refine List.filter_eq_nil_iff.2 fun handover inLog => ?_
  intro both
  obtain ⟨isOk, named⟩ := Bool.and_eq_true_iff.1 both
  refine never (List.mem_map.2 ⟨handover.entry, ?_, of_decide_eq_true named⟩)
  exact List.mem_map.2 ⟨handover, List.mem_filter.2 ⟨inLog, isOk⟩, rfl⟩

/-- If no reference was accepted twice, an entry that was accepted was accepted once. -/
theorem exists_acceptances_eq_singleton
    (distinct : ((accepted log).map Entry.ref).Nodup) (member : entry ∈ accepted log) :
    ∃ canonical, acceptances log entry.ref = [⟨entry, canonical, .ok ()⟩] := by
  induction log with
  | nil => cases member
  | cons handover rest ih =>
    obtain ⟨offered, canonical, answer⟩ := handover
    cases answer with
    | error error => exact ih distinct member
    | ok =>
      have whole : accepted (⟨offered, canonical, .ok ()⟩ :: rest) = offered :: accepted rest := rfl
      rw [whole, List.map_cons, List.nodup_cons] at distinct
      rw [whole] at member
      obtain ⟨notAgain, restDistinct⟩ := distinct
      by_cases same : offered.ref = entry.ref
      · have others := acceptances_eq_nil notAgain
        rcases List.mem_cons.1 member with rfl | inRest
        · refine ⟨canonical, ?_⟩
          rw [acceptances, List.filter_cons_of_pos (by simp [Except.isOk, Except.toBool])]
          exact congrArg _ others
        · exact absurd (same ▸ List.mem_map_of_mem inRest) notAgain
      · have inRest : entry ∈ accepted rest :=
          (List.mem_cons.1 member).resolve_left fun isFirst => same (by rw [isFirst])
        obtain ⟨mark, found⟩ := ih restDistinct inRest
        refine ⟨mark, ?_⟩
        rw [acceptances, List.filter_cons_of_neg (by simp [same])]
        exact found

/-- The entries that were ever inserted, each with a reference of its own, are divided between
the pool and what has been accepted. -/
structure Custody (pool : Pool State Context) (log : List (Handover State Context))
    (entries : List (Entry State Context)) : Prop where
  keyed : ∀ binding ∈ pool.byNode.bindings, binding.2.ref = binding.1
  distinct : (entries.map Entry.ref).Nodup
  divided : (accepted log ++ pool.byNode.values).Perm entries

namespace Custody

theorem nodup (custody : Custody pool log entries) :
    ((accepted log).map Entry.ref ++ pool.byNode.values.map Entry.ref).Nodup := by
  rw [← List.map_append]
  exact ((custody.divided.map Entry.ref).nodup_iff).2 custody.distinct

theorem keys_eq (custody : Custody pool log entries) :
    pool.byNode.bindings.map Prod.fst = pool.byNode.values.map Entry.ref := by
  rw [Table.values, List.map_map]
  exact List.map_congr_left fun binding member => (custody.keyed binding member).symm

theorem keys_nodup (custody : Custody pool log entries) :
    (pool.byNode.bindings.map Prod.fst).Nodup := by
  rw [custody.keys_eq]
  exact custody.nodup.of_append_right

theorem find?_of_mem (custody : Custody pool log entries) (member : entry ∈ pool.byNode.values) :
    pool.find? entry.ref = some entry := by
  obtain ⟨binding, bound, rfl⟩ := List.mem_map.1 member
  have key := custody.keyed binding bound
  have unique : ∀ other ∈ pool.byNode.bindings, other.1 = binding.1 → other = binding :=
    fun other otherBound same => List.inj_on_of_nodup_map custody.keys_nodup otherBound bound same
  cases found : pool.byNode.bindings.find? fun other => other.1 = binding.2.ref with
  | none =>
    have := List.find?_eq_none.1 found binding bound
    simp [key] at this
  | some other =>
    have same : other.1 = binding.2.ref := by simpa using List.find?_some found
    obtain rfl := unique other (List.mem_of_find?_eq_some found) (same.trans key)
    simp [Pool.find?, Table.find?, found]

theorem mem_values {ref : NodeRef} (custody : Custody pool log entries)
    (found : pool.find? ref = some entry) : entry ∈ pool.byNode.values ∧ entry.ref = ref := by
  obtain ⟨binding, first, rfl⟩ := Option.map_eq_some_iff.1 found
  have bound := List.mem_of_find?_eq_some first
  have key : binding.1 = ref := by simpa using List.find?_some first
  exact ⟨List.mem_map.2 ⟨binding, bound, rfl⟩, (custody.keyed binding bound).trans key⟩

theorem mem_entries {ref : NodeRef} (custody : Custody pool log entries)
    (found : pool.find? ref = some entry) : entry ∈ entries :=
  custody.divided.mem_iff.1 (List.mem_append_right _ (custody.mem_values found).1)

/-- A new reference comes with a new entry. -/
theorem insert
    (custody : Custody pool log entries) (fresh : entry.ref ∉ entries.map Entry.ref) :
    Custody (pool.insert entry) log (entries ++ [entry]) := by
  have absent : pool.byNode.find? entry.ref = none := by
    cases found : pool.byNode.find? entry.ref with
    | none => rfl
    | some other =>
      have member := custody.mem_entries found
      exact absurd (List.mem_map.2 ⟨other, member, (custody.mem_values found).2⟩) fresh
  refine ⟨fun binding member => ?_, ?_, ?_⟩
  · have bound : ∀ {bindings : List (NodeRef × Entry State Context)},
        binding ∈ Table.setBinding entry.ref entry bindings →
          binding = (entry.ref, entry) ∨ binding ∈ bindings := by
      intro bindings
      induction bindings with
      | nil => exact fun member => .inl (List.mem_singleton.1 member)
      | cons first rest ih =>
        intro member
        unfold Table.setBinding at member
        split at member
        · exact (List.mem_cons.1 member).imp_right (List.mem_cons_of_mem _)
        · rcases List.mem_cons.1 member with rfl | inRest
          · exact .inr List.mem_cons_self
          · exact (ih inRest).imp_right (List.mem_cons_of_mem _)
    rcases bound member with rfl | old
    · rfl
    · exact custody.keyed binding old
  · rw [List.map_append, List.map_singleton]
    exact custody.distinct.append (List.nodup_singleton _) (by simpa using fresh)
  · rw [show (pool.insert entry).byNode = pool.byNode.insert entry.ref entry from rfl,
      Table.values_insert_of_find?_eq_none entry absent, ← List.append_assoc]
    exact custody.divided.append_right [entry]

/-- An entry that is accepted leaves the pool. -/
theorem accept
    {ref : NodeRef} (custody : Custody pool log entries) (found : pool.find? ref = some entry)
    (canonical : Bool) (slot : Nat) :
    Custody { pool.remove entry.ref with anchorSlot := slot }
      (log ++ [⟨entry, canonical, .ok ()⟩]) entries := by
  obtain ⟨_, rfl⟩ := custody.mem_values found
  have removed : (pool.remove entry.ref).byNode = pool.byNode.erase entry.ref := by
    simp only [Pool.remove, found]
  have perm := Table.perm_values_erase custody.keys_nodup found
  refine ⟨fun binding member => ?_, custody.distinct, ?_⟩
  · simp only [removed] at member
    exact custody.keyed binding (List.mem_of_mem_filter member)
  · simp only [removed]
    rw [accepted_concat_ok, List.append_assoc]
    exact (perm.symm.append_left _).trans custody.divided

/-- An entry that is refused stays where it is. -/
theorem refuse
    (custody : Custody pool log entries) (entry : Entry State Context) (canonical : Bool)
    (error : Error) : Custody pool (log ++ [⟨entry, canonical, .error error⟩]) entries :=
  { custody with
    divided := by
      rw [accepted_concat_error]
      exact custody.divided }

theorem release
    {node : Node} {canonical : Bool} (custody : Custody pool log entries)
    (released : Pool.release (watching receive) node canonical (pool, state, log) =
      (outcome, left, after, logAfter)) : Custody left logAfter entries := by
  unfold Pool.release at released
  dsimp only at released
  split at released
  next =>
    cases released
    exact custody
  next entry found =>
    split at released
    next error _ refused =>
      cases released
      obtain rfl : logAfter = _ := (eq_of_watching refused).2
      exact custody.refuse entry canonical error
    next acceptedToo =>
      cases released
      obtain rfl : logAfter = _ := (eq_of_watching acceptedToo).2
      exact custody.accept found canonical _

/-- Entries that are discarded leave the pool as far as they are accepted. -/
theorem discard :
    ∀ {dropped : List (Entry State Context)} {pool left : Pool State Context}
      {state after : store} {log logAfter : List (Handover State Context)}
      {outcome : Except Error Unit}, Custody pool log entries →
      (∀ entry ∈ dropped, entry ∈ pool.byNode.values) → (dropped.map Entry.ref).Nodup →
      Pool.discard (watching receive) dropped pool (state, log) = (outcome, left, after, logAfter) →
      Custody left logAfter entries
  | [], _, _, _, _, _, _, _, custody, _, _, done => by
    cases done
    exact custody
  | entry :: rest, pool, _, _, _, log, _, _, custody, inPool, distinct, done => by
    obtain ⟨notAgain, restDistinct⟩ := List.nodup_cons.1 distinct
    have found := custody.find?_of_mem (inPool entry List.mem_cons_self)
    rw [Pool.discard] at done
    split at done
    next error _ refused =>
      cases done
      obtain ⟨_, rfl⟩ := eq_of_watching refused
      exact custody.refuse entry false error
    next acceptedToo =>
      obtain ⟨_, logged⟩ := eq_of_watching acceptedToo
      have dropped : Custody (pool.remove entry.ref) (log ++ [⟨entry, false, .ok ()⟩]) entries :=
        custody.accept found false (pool.remove entry.ref).anchorSlot
      rw [← logged] at dropped
      refine dropped.discard (fun other member => ?_) restDistinct done
      have different : entry.ref ≠ other.ref := fun same =>
        notAgain (same ▸ List.mem_map_of_mem member)
      have stillFound := (Pool.find?_remove_of_ne pool different).trans
        (custody.find?_of_mem (inPool other (List.mem_cons_of_mem _ member)))
      exact (dropped.mem_values stillFound).1

end Custody

theorem Custody.sweep
    (custody : Custody pool log entries)
    (swept : pool.sweep (watching receive) (state, log) = (outcome, left, after, logAfter)) :
    Custody left logAfter entries := by
  unfold Pool.sweep at swept
  split at swept
  next =>
    cases swept
    exact custody
  next dropped stale =>
    have perm := Pool.perm_stale stale
    refine custody.discard (fun entry member => ?_) ?_ swept
    · exact List.mem_of_mem_filter (perm.mem_iff.1 member)
    · rw [(perm.map Entry.ref).nodup_iff]
      exact custody.nodup.of_append_right.sublist (List.filter_sublist.map Entry.ref)

theorem Custody.prune
    {tree treeAfter : BlockTree} {ref : NodeRef} (custody : Custody pool log entries)
    (pruned : tree.prune ref (Pool.release (watching receive)) (pool, state, log) =
      (outcome, treeAfter, left, after, logAfter)) : Custody left logAfter entries :=
  prune_invariant (fun pooled => Custody pooled.1 pooled.2.2 entries)
    (fun _ _ _ _ _ custody released => custody.release released) custody pruned

namespace RecentChain

variable {preset : Preset} {chain next start : RecentChain preset rules} {pedigree : Pedigree}
  {anchor : NodeRef}

/-- A chain with everything that was inserted into it, in order. -/
structure HasCustody (pedigree : Pedigree) (anchor : NodeRef) (chain : RecentChain preset rules)
    (log : List (Handover State Context)) (entries : List (Entry State Context)) : Prop
    extends Custody chain.pool log entries where
  annals : Annals pedigree anchor (entries.map Entry.ref) chain.choice.tree

namespace HasCustody

theorem unmoved
    (custody : HasCustody pedigree anchor chain log entries) (unmoved : chain.Unmoved next) :
    HasCustody pedigree anchor next log entries where
  toCustody := unmoved.pool ▸ custody.toCustody
  annals := custody.annals.congr unmoved.shape.nodes

theorem grown
    {grown : RecentChain preset rules} {added : List (Entry State Context)}
    (custody : HasCustody pedigree anchor chain log entries)
    (stocked : Stocked rules inRange chain.choice.tree chain.pool)
    (growth : Grown inRange chain added grown) (fits : ∀ entry ∈ added, pedigree.Fits entry) :
    HasCustody pedigree anchor grown log (entries ++ added) := by
  induction growth with
  | refl => rwa [List.append_nil]
  | @join added grown node entry growth joins ih =>
    have before := ih fun entry member => fits entry (List.mem_append_left _ member)
    have appendable := joins.admitted (growth.stocked stocked)
      (fits entry (List.mem_append_right _ List.mem_cons_self))
    have fresh : entry.ref ∉ (entries ++ added).map Entry.ref := by
      intro member
      obtain ⟨index, found⟩ := List.mem_iff_getElem?.1 member
      rw [joins.named] at found
      exact before.annals.ref_new appendable index found
    rw [← List.append_assoc]
    refine { toCustody := before.insert fresh, annals := ?_ }
    rw [List.map_append, List.map_singleton, joins.named]
    exact (before.annals.push appendable).congr (.refl _)

theorem adopt
    {entry : Entry State Context} (custody : HasCustody pedigree anchor chain log entries)
    (adopted : chain.adopt entry (watching receive) (state, log) =
      (outcome, next, after, logAfter)) :
    HasCustody pedigree anchor next logAfter entries := by
  have adoption := adopt_adoption adopted
  obtain ⟨limits, choice, pool⟩ := next
  cases adoption with
  | unchanged => exact { toCustody := custody.toCustody, annals := custody.annals }
  | justify recounted =>
    exact { toCustody := custody.toCustody, annals := custody.annals.congr recounted.shape.nodes }
  | @finalize counted _ _ ref _ _ recounted _ _ _ _ _ done =>
    obtain ⟨pruned, _⟩ := ForkChoice.finalizeAt_spec done
    refine { toCustody := custody.toCustody.prune pruned, annals := ?_ }
    obtain ⟨count, dropped⟩ := prune_tree counted.tree ref (Pool.release (watching receive))
      (chain.pool, state, log)
    rw [show choice.tree = counted.tree.refresh.dropOldest count from
      (congrArg (fun result => result.2.1) pruned).symm.trans dropped]
    exact ((custody.annals.congr recounted.shape.nodes).congr
      (sameShape_refresh counted.tree).nodes).dropOldest count

theorem sweep
    (custody : HasCustody pedigree anchor chain log entries)
    (swept : chain.sweep (watching receive) (state, log) = (outcome, next, after, logAfter)) :
    HasCustody pedigree anchor next logAfter entries := by
  unfold RecentChain.sweep at swept
  generalize done : chain.pool.sweep (watching receive) (state, log) = result at swept
  obtain ⟨answer, pool, between, logBetween⟩ := result
  cases swept
  exact { toCustody := custody.toCustody.sweep done, annals := custody.annals }

end HasCustody

/-! ## Runs -/

/-- The entries that a call inserts. -/
def inserted (chain : RecentChain preset rules) :
    Call State Block Context → List (Entry State Context)
  | .addBlock block interrupted _ _ =>
    if chain.choice.containsBlock (rules.blockRoot block) then []
    else match chain.draft block interrupted with
      | .error _ => []
      | .ok draft => draft.replayed ++ [draft.block]
  | _ => []

theorem HasCustody.addBlock_noted
    (custody : HasCustody pedigree anchor chain log entries)
    (stocked : Stocked rules (fun _ => True) chain.choice.tree chain.pool) (block : Block)
    (interrupted : List Nat → Bool) (receive : EntryReceiver State Context store) (state : store)
    (admitted : pedigree.Admits (rules.blockParent block) (rules.blockRoot block)
      (rules.blockSlot block)) :
    HasCustody pedigree anchor (chain.addBlock block interrupted receive state).2.1
      (chain.noted log (.addBlock block interrupted receive state))
      (entries ++ chain.inserted (.addBlock block interrupted receive state)) := by
  rw [← addBlock_watching chain block interrupted receive state log]
  generalize added : chain.addBlock block interrupted (watching receive) (state, log) = result
  obtain ⟨outcome, next, after, logAfter⟩ := result
  simp only [noted, inserted, added]
  cases isNew : chain.choice.containsBlock (rules.blockRoot block) with
  | true =>
    obtain ⟨rfl, same⟩ := unchanged_of_addBlock (.inl isNew) added
    cases same
    rwa [if_pos rfl, List.append_nil]
  | false =>
    rw [if_neg Bool.false_ne_true]
    cases drafted : chain.draft block interrupted with
    | error error =>
      obtain ⟨rfl, same⟩ := unchanged_of_addBlock (.inr ⟨error, drafted⟩) added
      cases same
      rwa [List.append_nil]
    | ok draft =>
      obtain ⟨grown, answer, _, growth, settled, _⟩ :=
        settle_of_addBlock stocked (fun _ _ => trivial) isNew drafted added
      have grownCustody := custody.grown stocked growth (fits_of_draft stocked drafted admitted)
      obtain ⟨_, adopted, ⟨between, logBetween⟩, adopts, rest⟩ := settle_cases settled
      have adoptedCustody := grownCustody.adopt adopts
      rcases rest with ⟨rfl, same⟩ | ⟨_, swept⟩
      · cases same
        exact adoptedCustody
      · exact adoptedCustody.sweep swept

/-- A call whose block agrees with a pedigree. -/
def Call.Agrees (rules : Rules State Block Context) (pedigree : Pedigree) :
    Call State Block Context → Prop
  | .addBlock block _ _ _ =>
    pedigree.Admits (rules.blockParent block) (rules.blockRoot block) (rules.blockSlot block)
  | _ => True

/-- A run together with all entries that it has inserted, the anchor first. -/
inductive Inserts (permits : RecentChain preset rules → Call State Block Context → Prop)
    (start : RecentChain preset rules) (anchor : Entry State Context) :
    RecentChain preset rules → List (Handover State Context) → List (Entry State Context) → Prop
  | start : Inserts permits start anchor start [] [anchor]
  | call {chain : RecentChain preset rules} {log : List (Handover State Context)}
    {entries : List (Entry State Context)} (run : Inserts permits start anchor chain log entries)
    (call : Call State Block Context) (permitted : permits chain call) :
    Inserts permits start anchor (chain.perform call) (chain.noted log call)
      (entries ++ chain.inserted call)

theorem Inserts.run
    {permits : RecentChain preset rules → Call State Block Context → Prop}
    {anchor : Entry State Context} (inserts : Inserts permits start anchor chain log entries) :
    Run permits start chain log := by
  induction inserts with
  | start => exact .start
  | call _ call permitted ih => exact ih.call call permitted

/-- Every run inserts some entries. -/
theorem Run.exists_inserts
    {permits : RecentChain preset rules → Call State Block Context → Prop}
    (run : Run permits start chain log) (anchor : Entry State Context) :
    ∃ entries, Inserts permits start anchor chain log entries := by
  induction run with
  | start => exact ⟨_, .start⟩
  | call _ call permitted ih =>
    obtain ⟨entries, inserts⟩ := ih
    exact ⟨_, inserts.call call permitted⟩

theorem HasCustody.perform
    (custody : HasCustody pedigree anchor chain log entries)
    (stocked : Stocked rules (fun _ => True) chain.choice.tree chain.pool)
    (call : Call State Block Context) (agrees : call.Agrees rules pedigree) :
    HasCustody pedigree anchor (chain.perform call) (chain.noted log call)
      (entries ++ chain.inserted call) := by
  cases call with
  | addBlock block interrupted receive state =>
    exact custody.addBlock_noted stocked block interrupted receive state agrees
  | _ =>
    rw [show chain.inserted _ = [] from rfl, List.append_nil]
    exact custody.unmoved (chain.perform_unmoved nofun)

theorem ofAnchor?_hasCustody
    {limits : Limits} {root parentRoot : Root} {anchorState : State}
    (started : ofAnchor? limits root parentRoot anchorState = .ok start)
    (admitted : pedigree.Admits parentRoot root (rules.stateSlot anchorState)) :
    ∃ anchor, start.earliest? = some anchor ∧ HasCustody pedigree anchor.ref start [] [anchor] := by
  obtain ⟨context, _, made⟩ := exists_of_bind_eq_ok started
  cases made
  let anchor : Entry State Context :=
    { slot := rules.stateSlot anchorState, blockRoot := root, parentRoot := some parentRoot,
      stateRoot := rules.stateRoot anchorState, context := context, state := anchorState }
  have nothing :
      Custody ({ anchorSlot := rules.stateSlot anchorState } : Pool State Context) [] [] :=
    ⟨fun _ member => absurd member List.not_mem_nil, List.nodup_nil, .nil⟩
  exact ⟨anchor, Pool.find?_insert_self _ anchor, {
    toCustody := nothing.insert List.not_mem_nil
    annals := annals_ofAnchor admitted.2 }⟩

theorem Inserts.hasCustody
    {anchorEntry : Entry State Context}
    (inserts : Inserts (fun _ call => call.Agrees rules pedigree)
      start anchorEntry chain log entries)
    {oldest : Entry State Context} (begins : GoesOn (fun _ => True) oldest start [])
    (custody : HasCustody pedigree anchor start [] [anchorEntry]) :
    HasCustody pedigree anchor chain log entries := by
  induction inserts with
  | start => exact custody
  | call inserts call agrees ih =>
    have stocked := (inserts.run.goesOn begins fun _ _ _ => trivial).stocked
    exact ih.perform stocked call agrees

/-- Where a block root has one parent and one slot, every entry that was ever inserted is still
in the pool and was never accepted, or is gone from it and was accepted exactly once.  No two
of them share a node, and nothing else is in the pool or was accepted. -/
theorem entries_leave_once
    {limits : Limits} {root parentRoot : Root} {anchorState : State} {anchor : Entry State Context}
    (started : ofAnchor? limits root parentRoot anchorState = .ok start)
    (admitted : pedigree.Admits parentRoot root (rules.stateSlot anchorState))
    (isAnchor : start.earliest? = some anchor)
    (inserts : Inserts (fun _ call => call.Agrees rules pedigree) start anchor chain log entries) :
    (∀ entry ∈ entries,
      chain.pool.find? entry.ref = some entry ∧ acceptances log entry.ref = [] ∨
      chain.pool.find? entry.ref = none ∧
        ∃ canonical, acceptances log entry.ref = [⟨entry, canonical, .ok ()⟩]) ∧
    (∀ ref entry, chain.pool.find? ref = some entry → entry ∈ entries ∧ entry.ref = ref) ∧
    (∀ handover ∈ log, handover.outcome = .ok () → handover.entry ∈ entries) ∧
    (entries.map Entry.ref).Nodup := by
  obtain ⟨_, _, begins⟩ := ofAnchor?_goesOn (fun _ => True) started trivial
  obtain ⟨first, isFirst, start⟩ := ofAnchor?_hasCustody started admitted
  obtain rfl := Option.some.inj (isAnchor.symm.trans isFirst)
  have custody := inserts.hasCustody begins start
  have nodup := custody.nodup
  refine ⟨fun entry member => ?_, fun ref entry found => ?_, fun handover inLog isOk => ?_,
    custody.distinct⟩
  · rcases List.mem_append.1 (custody.divided.mem_iff.2 member) with left | stays
    · refine .inr ⟨?_, exists_acceptances_eq_singleton nodup.of_append_left left⟩
      cases found : chain.pool.find? entry.ref with
      | none => rfl
      | some other =>
        obtain ⟨held, same⟩ := custody.mem_values found
        exact absurd (same ▸ List.mem_map_of_mem held)
          (List.disjoint_of_nodup_append nodup (List.mem_map_of_mem left))
    · refine .inl ⟨custody.find?_of_mem stays, acceptances_eq_nil fun left => ?_⟩
      exact List.disjoint_of_nodup_append nodup left (List.mem_map_of_mem stays)
  · exact ⟨custody.mem_entries found, (custody.mem_values found).2⟩
  · obtain ⟨entry, canonical, answer⟩ := handover
    obtain rfl : answer = .ok () := isOk
    exact custody.divided.mem_iff.1 (List.mem_append_left _ (mem_accepted_iff.2 ⟨canonical, inLog⟩))

/-- A branch that comes in after the block below it, then a block that finalizes the first
branch, and one that finalizes it further. -/
def sweptBlocks : List ScriptedBlock :=
  [{ slot := 3, root := ⟨11⟩, parentRoot := ⟨10⟩ },
   { slot := 9, root := ⟨13⟩, parentRoot := ⟨11⟩ },
   { slot := 1, root := ⟨12⟩, parentRoot := ⟨10⟩ },
   { slot := 10, root := ⟨14⟩, parentRoot := ⟨13⟩, justified := some ⟨1, ⟨11⟩⟩,
     finalized := some ⟨1, ⟨11⟩⟩ },
   { slot := 17, root := ⟨15⟩, parentRoot := ⟨14⟩, finalized := some ⟨2, ⟨14⟩⟩ }]

/-- There is room for the entries that are final, and none for that of the other branch until
its node is pruned. -/
def sweptCalls : List (Call ScriptedState ScriptedBlock Nat) :=
  (sweptBlocks.zip [0, 0, 0, 9, 20]).map fun (block, room) =>
    .addBlock block (fun _ => false) takeAtMost room

/-- The parents and slots of these blocks. -/
def sweptPedigree : Pedigree where
  parent root := match root.bits.toNat with
    | 10 => ⟨9⟩
    | 13 => ⟨11⟩
    | 14 => ⟨13⟩
    | 15 => ⟨14⟩
    | _ => ⟨10⟩
  slot root := match root.bits.toNat with
    | 11 => 3
    | 12 => 1
    | 13 => 9
    | 14 => 10
    | 15 => 17
    | _ => 0

def trialEntry : Entry ScriptedState Nat :=
  { slot := 0, blockRoot := ⟨10⟩, parentRoot := some ⟨9⟩, stateRoot := trialAnchor.root
    context := 1, state := trialAnchor }

theorem entries_leave_once_swept :
    ∃ (chain : RecentChain .minimal (Scripted.rules [])) (log : List (Handover ScriptedState Nat))
      (entries : List (Entry ScriptedState Nat)),
      Inserts (fun _ call => call.Agrees (Scripted.rules []) sweptPedigree) trialStart.recent
        trialEntry chain log entries ∧
      (entries.length, chain.size, (accepted log).length) = (23, 3, 20) ∧
      (log.filter fun handover => handover.entry.ref = ⟨⟨12⟩, 1⟩).map
          (fun handover => (handover.canonical, handover.outcome.isOk)) =
        [(false, false), (false, true)] ∧
      ∀ entry ∈ entries,
        chain.pool.find? entry.ref = some entry ∧ acceptances log entry.ref = [] ∨
        chain.pool.find? entry.ref = none ∧
          ∃ canonical, acceptances log entry.ref = [⟨entry, canonical, .ok ()⟩] := by
  have inserts : Inserts (fun _ call => call.Agrees (Scripted.rules []) sweptPedigree)
      trialStart.recent trialEntry _ _ _ :=
    .call (.call (.call (.call (.call .start sweptCalls[0] ⟨rfl, rfl⟩) sweptCalls[1] ⟨rfl, rfl⟩)
      sweptCalls[2] ⟨rfl, rfl⟩) sweptCalls[3] ⟨rfl, rfl⟩) sweptCalls[4] ⟨rfl, rfl⟩
  have started : ofAnchor? .minimal ⟨10⟩ ⟨9⟩ trialAnchor = .ok trialStart.recent := rfl
  exact ⟨_, _, _, inserts, by decide +kernel, by decide +kernel,
    (entries_leave_once started ⟨rfl, rfl⟩ rfl inserts).1⟩

end RecentChain

end BeaconChain
