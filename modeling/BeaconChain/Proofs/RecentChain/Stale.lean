import BeaconChain.Proofs.Chain.Migration
import BeaconChain.Proofs.RecentChain.Seamless
import BeaconChain.Proofs.RecentChain.Timeline

/-!
# What is left behind

Entries older than the latest canonical entry that was accepted are stale: nothing that is
still to come can make them canonical.  The sweep takes them out, but it is made only by a
call that itself hands on a later canonical entry than any before it, and only if the call
gets that far.  A call that hands on such an entry and then fails leaves what is stale behind,
and so does every later call, until another one comes that hands on a later entry still.
-/

namespace BeaconChain

open BlockTree

variable {State Block Context store : Type} {rules : Rules State Block Context}
  {inRange : Nat → Prop} {pool left : Pool State Context}
  {log logAfter : List (Handover State Context)}
  {entry : Entry State Context} {receive : EntryReceiver State Context store} {state after : store}
  {outcome : Except Error Unit} {floor : Nat}

/-- No entry is older than the slot up to which the chain is final. -/
def Pool.NoneStale (pool : Pool State Context) : Prop :=
  ∀ ref entry, pool.find? ref = some entry → pool.anchorSlot ≤ entry.slot

/-- The chain is final up to the latest canonical entry that was accepted, or up to where it
began, and no entry is older than that. -/
structure Watermark (floor : Nat) (pool : Pool State Context)
    (log : List (Handover State Context)) :
    Prop where
  above : ∀ ref entry, pool.find? ref = some entry → floor ≤ entry.slot
  bounded : ∀ final ∈ taken log, final.slot ≤ pool.anchorSlot
  attained : taken log = [] ∧ pool.anchorSlot = floor ∨
    ∃ final ∈ taken log, final.slot = pool.anchorSlot

namespace Watermark

theorem noneStale_of_nothing_taken (mark : Watermark floor pool log) (nothing : taken log = []) :
    pool.NoneStale := by
  rcases mark.attained with ⟨_, atFloor⟩ | ⟨final, member, _⟩
  · intro ref entry found
    rw [atFloor]
    exact mark.above ref entry found
  · rw [nothing] at member
    cases member

/-- The slot up to which a chain is final is determined by the entries that were accepted. -/
theorem anchorSlot_eq
    (mark : Watermark floor pool log) (other : Watermark floor left logAfter)
    (same : taken log = taken logAfter) : pool.anchorSlot = left.anchorSlot := by
  have notLater : ∀ {pool left : Pool State Context} {log logAfter : List (Handover State Context)},
      Watermark floor pool log → Watermark floor left logAfter → taken log = taken logAfter →
      pool.anchorSlot ≤ left.anchorSlot := by
    intro pool left log logAfter mark other same
    rcases mark.attained with ⟨nothing, atFloor⟩ | ⟨final, member, atFinal⟩
    · rcases other.attained with ⟨_, otherAtFloor⟩ | ⟨final, member, _⟩
      · rw [atFloor, otherAtFloor]
      · rw [← same, nothing] at member
        cases member
    · rw [← atFinal]
      exact other.bounded final (same ▸ member)
  exact Nat.le_antisymm (notLater mark other same) (notLater other mark same.symm)

theorem anchorSlot_lt
    {anchor : Entry State Context} {limit : Nat} (mark : Watermark floor pool log)
    (orderly : Orderly rules (· < limit) anchor log) (floorInRange : floor < limit) :
    pool.anchorSlot < limit := by
  rcases mark.attained with ⟨_, atFloor⟩ | ⟨final, member, atFinal⟩
  · exact atFloor ▸ floorInRange
  · exact atFinal ▸ orderly.slot_inRange final member

theorem insert (mark : Watermark floor pool log) (later : floor ≤ entry.slot) :
    Watermark floor (pool.insert entry) log where
  above ref found known := by
    rcases Pool.find?_insert_cases known with ⟨_, rfl⟩ | old
    · exact later
    · exact mark.above ref found old
  bounded := mark.bounded
  attained := mark.attained

theorem remove (mark : Watermark floor pool log) (dropped : NodeRef) :
    Watermark floor (pool.remove dropped) log where
  above ref found known := mark.above ref found (Pool.find?_remove_eq_some_iff.1 known).2
  bounded := by
    rw [Pool.anchorSlot_remove]
    exact mark.bounded
  attained := by
    rw [Pool.anchorSlot_remove]
    exact mark.attained

/-- An offer that takes nothing canonical. -/
theorem offer
    (mark : Watermark floor pool log) {handover : Handover State Context}
    (notTaken : (handover.canonical && handover.outcome.isOk) = false) :
    Watermark floor pool (log ++ [handover]) := by
  have same : taken (log ++ [handover]) = taken log := by rw [taken_concat, notTaken]; rfl
  refine ⟨mark.above, ?_, ?_⟩
  · rw [same]
    exact mark.bounded
  · rw [same]
    exact mark.attained

/-- A canonical entry that is accepted raises the slot if it is later. -/
theorem take
    {ref : NodeRef} (mark : Watermark floor pool log) (found : pool.find? ref = some entry) :
    Watermark floor { pool.remove entry.ref with anchorSlot := max pool.anchorSlot entry.slot }
      (log ++ [⟨entry, true, .ok ()⟩]) := by
  have more : taken (log ++ [⟨entry, true, .ok ()⟩]) = taken log ++ [entry] := by
    rw [taken_concat]
    rfl
  refine ⟨(mark.remove entry.ref).above, fun final member => ?_, .inr ?_⟩
  · rw [more] at member
    rcases List.mem_append.1 member with old | new
    · exact Nat.le_trans (mark.bounded final old) (Nat.le_max_left _ _)
    · rw [List.mem_singleton.1 new]
      exact Nat.le_max_right _ _
  · rw [more]
    have isLast : entry ∈ taken log ++ [entry] := List.mem_append_right _ List.mem_cons_self
    rcases Nat.le_total pool.anchorSlot entry.slot with later | earlier
    · exact ⟨entry, isLast, (Nat.max_eq_right later).symm⟩
    · rcases mark.attained with ⟨_, atFloor⟩ | ⟨final, member, same⟩
      · have := mark.above ref entry found
        exact ⟨entry, isLast, by simp only; omega⟩
      · exact ⟨final, List.mem_append_left _ member, same.trans (Nat.max_eq_left earlier).symm⟩

theorem release
    {node : Node} {canonical : Bool} (mark : Watermark floor pool log)
    (released : Pool.release (watching receive) node canonical (pool, state, log) =
      (outcome, left, after, logAfter)) : Watermark floor left logAfter := by
  unfold Pool.release at released
  dsimp only at released
  split at released
  next =>
    cases released
    exact mark
  next entry found =>
    split at released
    next refused =>
      cases released
      obtain rfl : logAfter = _ := (eq_of_watching refused).2
      exact mark.offer (by simp [Except.isOk, Except.toBool])
    next accepted =>
      cases released
      obtain rfl : logAfter = _ := (eq_of_watching accepted).2
      rw [Pool.anchorSlot_remove]
      cases canonical with
      | true => exact mark.take found
      | false =>
        have orphan : Watermark floor (pool.remove entry.ref) (log ++ [⟨entry, false, .ok ()⟩]) :=
          (mark.remove entry.ref).offer rfl
        rwa [← Pool.anchorSlot_remove pool entry.ref]

end Watermark

/-- What every answer keeps is kept while entries are discarded. -/
theorem Pool.discard_invariant
    (Invariant : Pool State Context → store → Prop) :
    ∀ {entries : List (Entry State Context)} {pool left : Pool State Context} {state after : store}
      {outcome : Except Error Unit},
      (∀ entry ∈ entries, ∀ (pool : Pool State Context) (before after : store)
        (answer : Except Error Unit), Invariant pool before →
        receive entry false before = (answer, after) →
        Invariant pool after ∧ (answer = .ok () → Invariant (pool.remove entry.ref) after)) →
      Invariant pool state → discard receive entries pool state = (outcome, left, after) →
      Invariant left after
  | [], _, _, _, _, _, _, start, done => by
    cases done
    exact start
  | entry :: rest, pool, _, state, _, _, keeps, start, done => by
    have first := keeps entry List.mem_cons_self pool state
    rw [discard] at done
    split at done
    next refused =>
      cases done
      exact (first _ _ start refused).1
    next accepted =>
      exact discard_invariant Invariant
        (fun other member => keeps other (List.mem_cons_of_mem _ member))
        ((first _ _ start accepted).2 rfl) done

/-- What every answer about an entry that is stale keeps is kept by a sweep. -/
theorem Pool.sweep_invariant
    (Invariant : Pool State Context → store → Prop)
    (keeps : ∀ entry : Entry State Context, entry.slot < pool.anchorSlot →
      ∀ (now : Pool State Context) (before after : store) (answer : Except Error Unit),
      Invariant now before → receive entry false before = (answer, after) →
      Invariant now after ∧ (answer = .ok () → Invariant (now.remove entry.ref) after))
    (start : Invariant pool state) (swept : pool.sweep receive state = (outcome, left, after)) :
    Invariant left after := by
  unfold sweep at swept
  split at swept
  next =>
    cases swept
    exact start
  next stale =>
    exact discard_invariant Invariant
      (fun entry member => keeps entry (slot_lt_of_mem_stale stale entry member)) start swept

theorem Pool.anchorSlot_sweep (swept : pool.sweep receive state = (outcome, left, after)) :
    left.anchorSlot = pool.anchorSlot :=
  sweep_invariant (fun now _ => now.anchorSlot = pool.anchorSlot)
    (fun _ _ _ _ _ _ same _ => ⟨same, fun _ => (anchorSlot_remove _ _).trans same⟩) rfl swept

theorem Pool.find?_of_sweep (swept : pool.sweep receive state = (outcome, left, after)) :
    ∀ ref found, left.find? ref = some found → pool.find? ref = some found :=
  sweep_invariant
    (fun now _ => ∀ ref found, now.find? ref = some found → pool.find? ref = some found)
    (fun _ _ _ _ _ _ held _ => ⟨held, fun _ ref found known =>
      held ref found (find?_remove_eq_some_iff.1 known).2⟩) (fun _ _ => id) swept

/-- A sweep leaves the entries that are not stale. -/
theorem Pool.find?_sweep_of_recent
    {ref : NodeRef} (found : pool.find? ref = some entry) (named : entry.ref = ref)
    (recent : pool.anchorSlot ≤ entry.slot)
    (swept : pool.sweep receive state = (outcome, left, after)) : left.find? ref = some entry := by
  refine sweep_invariant (fun now _ => now.find? ref = some entry)
    (fun dropped stale now _ _ _ held _ => ⟨held, fun _ => ?_⟩) found swept
  rw [find?_remove_of_ne now fun same => ?_]
  · exact held
  · have sameSlot : dropped.slot = entry.slot := congrArg NodeRef.slot (same.trans named.symm)
    omega

theorem Pool.mem_of_sweep
    {handover : Handover State Context} (noted : handover ∈ log)
    (swept : pool.sweep (watching receive) (state, log) = (outcome, left, after, logAfter)) :
    handover ∈ logAfter := by
  refine sweep_invariant (fun _ watched => handover ∈ watched.2)
    (fun _ _ _ _ _ _ noted offered => ?_) noted swept
  obtain ⟨_, logged⟩ := eq_of_watching offered
  rw [logged]
  exact ⟨List.mem_append_left _ noted, fun _ => List.mem_append_left _ noted⟩

/-- A sweep that comes to its end leaves nothing behind that is stale. -/
theorem Pool.noneStale_of_sweep
    (named : ∀ ref entry, pool.find? ref = some entry → entry.ref = ref)
    (swept : pool.sweep receive state = (.ok (), left, after)) : left.NoneStale := by
  have slot := anchorSlot_sweep swept
  unfold sweep at swept
  split at swept
  next => cases swept
  next entries stale =>
    intro ref entry found
    obtain ⟨held, notDropped⟩ := (find?_discard swept).1 found
    rw [slot]
    refine Nat.le_of_not_lt fun older => ?_
    exact notDropped entry (mem_stale stale held older) (named ref entry held)

theorem Watermark.sweep
    (mark : Watermark floor pool log)
    (swept : pool.sweep (watching receive) (state, log) = (outcome, left, after, logAfter)) :
    Watermark floor left logAfter := by
  refine Pool.sweep_invariant (fun pool watched => Watermark floor pool watched.2)
    (fun dropped _ now before after answer mark offered => ?_) mark swept
  obtain ⟨_, logged⟩ := eq_of_watching offered
  rw [logged]
  exact ⟨mark.offer rfl, fun _ => (mark.remove dropped.ref).offer rfl⟩

namespace RecentChain

variable {preset : Preset} {chain next grown start : RecentChain preset rules}
  {added : List (Entry State Context)}

/-- New entries are not older than all that are there. -/
theorem Grown.slot_le
    (growth : Grown inRange chain added grown)
    (above : ∀ ref entry, chain.pool.find? ref = some entry → floor ≤ entry.slot) :
    ∀ ref entry, grown.pool.find? ref = some entry → floor ≤ entry.slot := by
  induction growth with
  | refl => exact above
  | @join _ _ node _ _ joins ih =>
    intro ref found known
    rcases Pool.find?_insert_cases known with ⟨_, rfl⟩ | old
    · obtain ⟨parent, up⟩ : ∃ parent, node.stateParent = some parent := by
        cases joins.appendable with
        | slot => exact ⟨_, rfl⟩
        | block => exact ⟨_, rfl⟩
      obtain ⟨previous, held, follows⟩ := joins.follows parent up
      obtain ⟨_, _, held⟩ := entryAt?_eq_some_iff.1 held
      exact Nat.le_trans (ih _ previous held) follows.slot_le.1
    · exact ih ref found old

theorem Grown.anchorSlot_eq (growth : Grown inRange chain added grown) :
    grown.pool.anchorSlot = chain.pool.anchorSlot := by
  induction growth with
  | refl => rfl
  | join _ _ ih => exact ih

theorem Grown.watermark
    (growth : Grown inRange chain added grown) (mark : Watermark floor chain.pool log) :
    Watermark floor grown.pool log where
  above := growth.slot_le mark.above
  bounded := by
    rw [growth.anchorSlot_eq]
    exact mark.bounded
  attained := by
    rw [growth.anchorSlot_eq]
    exact mark.attained

/-- A release takes at most one entry out of the pool, and may raise its slot. -/
theorem release_pool
    {node : Node} {canonical : Bool} {before last : Pool State Context × store}
    (released : Pool.release receive node canonical before = (outcome, last)) :
    last.1 = before.1 ∨ ∃ ref slot, before.1.anchorSlot ≤ slot ∧
      last.1 = { before.1.remove ref with anchorSlot := slot } := by
  obtain ⟨pool, state⟩ := before
  unfold Pool.release at released
  dsimp only at released
  split at released
  next =>
    cases released
    exact .inl rfl
  next entry _ =>
    split at released
    next =>
      cases released
      exact .inl rfl
    next =>
      cases released
      refine .inr ⟨entry.ref, _, ?_, rfl⟩
      rw [Pool.anchorSlot_remove]
      dsimp only
      split
      · exact Nat.le_max_left _ _
      · exact Nat.le_refl _

/-- An adoption takes entries out and puts none in. -/
theorem find?_of_adopt
    (adopted : chain.adopt entry receive state = (outcome, next, after)) :
    ∀ ref found, next.pool.find? ref = some found → chain.pool.find? ref = some found := by
  refine adopt_invariant
    (fun pooled => ∀ ref found, pooled.1.find? ref = some found →
      chain.pool.find? ref = some found)
    (fun node mark before last answer held released => ?_) (fun _ _ => id) adopted
  rcases release_pool released with same | ⟨dropped, slot, _, same⟩
  · exact same ▸ held
  · rw [same]
    exact fun ref found known => held ref found (Pool.find?_remove_eq_some_iff.1 known).2

/-- A sweep of a chain is one of its pool. -/
theorem sweep_pool
    (swept : chain.sweep receive state = (outcome, next, after)) :
    chain.pool.sweep receive state = (outcome, next.pool, after) ∧
      next = { chain with pool := next.pool } := by
  unfold RecentChain.sweep at swept
  generalize chain.pool.sweep receive state = result at swept
  obtain ⟨_, _, _⟩ := result
  cases swept
  exact ⟨rfl, rfl⟩

theorem find?_of_settle
    (settled : chain.settle entry receive state = (outcome, next, after)) :
    ∀ ref found, next.pool.find? ref = some found → chain.pool.find? ref = some found := by
  obtain ⟨_, adopted, between, adopts, rest⟩ := settle_cases settled
  have held := find?_of_adopt adopts
  rcases rest with ⟨rfl, _⟩ | ⟨_, swept⟩
  · exact held
  · exact fun ref found known =>
      held ref found (Pool.find?_of_sweep (sweep_pool swept).1 ref found known)

/-- If the slot up to which the chain is final has changed, what is stale has been swept. -/
theorem noneStale_of_settle
    (stocked : Stocked rules inRange chain.choice.tree chain.pool)
    (settled : chain.settle entry receive state = (.ok (), next, after))
    (raised : next.pool.anchorSlot ≠ chain.pool.anchorSlot) : next.pool.NoneStale := by
  unfold settle at settled
  split at settled
  next => cases settled
  next adopted between adopts =>
    have held := find?_of_adopt adopts
    split at settled
    next unraised =>
      cases settled
      exact absurd unraised raised
    next =>
      exact Pool.noneStale_of_sweep
        (fun ref found known => stocked.named ref found (held ref found known))
          (sweep_pool settled).1

variable {block : Block} {interrupted : List Nat → Bool}
  {answer : Except Error (Entry State Context)}

/-- A block that comes to its end leaves nothing stale, if the slot up to which the chain is
final was raised on the way. -/
theorem noneStale_of_raised
    (stocked : Stocked rules (fun _ => True) chain.choice.tree chain.pool)
    (added : chain.addBlock block interrupted receive state = (.ok entry, next, after))
    (raised : next.pool.anchorSlot ≠ chain.pool.anchorSlot) : next.pool.NoneStale := by
  cases isNew : chain.choice.containsBlock (rules.blockRoot block) with
  | true =>
    obtain ⟨rfl, _⟩ := unchanged_of_addBlock (.inl isNew) added
    exact absurd rfl raised
  | false =>
    cases drafted : chain.draft block interrupted with
    | error error =>
      obtain ⟨rfl, _⟩ := unchanged_of_addBlock (.inr ⟨error, drafted⟩) added
      exact absurd rfl raised
    | ok draft =>
      obtain ⟨grown, answer, _, growth, settled, made⟩ :=
        settle_of_addBlock stocked (fun _ _ => trivial) isNew drafted added
      cases answer with
      | error error => cases made
      | ok =>
        rw [← growth.anchorSlot_eq] at raised
        exact noneStale_of_settle (growth.stocked stocked) settled raised

/-- Whether or not a call comes to its end, nothing becomes stale unless it raises the slot. -/
theorem noneStale_of_unraised
    (stocked : Stocked rules (fun _ => True) chain.choice.tree chain.pool)
    (added : chain.addBlock block interrupted receive state = (answer, next, after))
    (unraised : next.pool.anchorSlot = chain.pool.anchorSlot) (noneStale : chain.pool.NoneStale) :
    next.pool.NoneStale := by
  rcases addBlock_cases stocked (fun _ _ => trivial) added with
    ⟨rfl, _⟩ | ⟨draft, grown, _, _, _, _, growth, settled⟩
  · exact noneStale
  · intro ref found known
    rw [unraised]
    exact growth.slot_le noneStale ref found (find?_of_settle settled ref found known)

theorem watermark_of_adopt
    (mark : Watermark floor chain.pool log)
    (adopted : chain.adopt entry (watching receive) (state, log) =
      (outcome, next, after, logAfter)) :
    Watermark floor next.pool logAfter :=
  adopt_invariant (fun pooled => Watermark floor pooled.1 pooled.2.2)
    (fun _ _ _ _ _ mark released => mark.release released) mark adopted

theorem watermark_of_settle
    (mark : Watermark floor chain.pool log)
    (settled : chain.settle entry (watching receive) (state, log) =
      (outcome, next, after, logAfter)) :
    Watermark floor next.pool logAfter := by
  obtain ⟨_, adopted, ⟨between, logBetween⟩, adopts, rest⟩ := settle_cases settled
  have adoptedMark := watermark_of_adopt mark adopts
  rcases rest with ⟨rfl, same⟩ | ⟨_, swept⟩
  · cases same
    exact adoptedMark
  · exact adoptedMark.sweep (sweep_pool swept).1

theorem watermark_of_addBlock
    (stocked : Stocked rules (fun _ => True) chain.choice.tree chain.pool)
    (mark : Watermark floor chain.pool log)
    (added : chain.addBlock block interrupted (watching receive) (state, log) =
      (answer, next, after, logAfter)) : Watermark floor next.pool logAfter := by
  rcases addBlock_cases stocked (fun _ _ => trivial) added with
    ⟨rfl, same⟩ | ⟨draft, grown, _, _, _, _, growth, settled⟩
  · cases same
    exact mark
  · exact watermark_of_settle (growth.watermark mark) settled

/-! ## Runs -/

/-- No entry is older than a canonical one that was accepted. -/
def NothingStale (chain : RecentChain preset rules) (log : List (Handover State Context)) : Prop :=
  ∀ ref entry, chain.pool.find? ref = some entry → ∀ final ∈ taken log, final.slot ≤ entry.slot

theorem nothingStale_iff (mark : Watermark floor chain.pool log) :
    chain.NothingStale log ↔ chain.pool.NoneStale := by
  constructor
  · intro nothingStale
    rcases mark.attained with ⟨nothing, _⟩ | ⟨final, member, same⟩
    · exact mark.noneStale_of_nothing_taken nothing
    · intro ref entry found
      exact same ▸ nothingStale ref entry found final member
  · intro noneStale ref entry found final member
    exact Nat.le_trans (mark.bounded final member) (noneStale ref entry found)

/-- A later canonical entry was accepted than any before. -/
def Advances (log logAfter : List (Handover State Context)) : Prop :=
  ∃ final ∈ taken logAfter, ∀ earlier ∈ taken log, earlier.slot < final.slot

/-- A call that comes to its end, or fails before it has raised the slot up to which the chain
is final. -/
def Call.Completes (chain : RecentChain preset rules) : Call State Block Context → Prop
  | .addBlock block interrupted receive state =>
    (chain.addBlock block interrupted receive state).1.isOk = true ∨
      (chain.addBlock block interrupted receive state).2.1.pool.anchorSlot = chain.pool.anchorSlot
  | _ => True

theorem Unmoved.watermark
    (unmoved : chain.Unmoved next) (mark : Watermark floor chain.pool log) :
    Watermark floor next.pool log :=
  unmoved.pool ▸ mark

theorem Unmoved.noneStale
    (unmoved : chain.Unmoved next) (noneStale : chain.pool.NoneStale) : next.pool.NoneStale :=
  unmoved.pool ▸ noneStale

theorem Run.watermark
    {permits : RecentChain preset rules → Call State Block Context → Prop}
    {anchor : Entry State Context} (run : Run permits start chain log)
    (begins : GoesOn (fun _ => True) anchor start []) (mark : Watermark floor start.pool []) :
    Watermark floor chain.pool log := by
  induction run with
  | start => exact mark
  | @call chain log run call _ ih =>
    have stocked := (run.goesOn begins fun _ _ _ => trivial).stocked
    cases call with
    | addBlock block interrupted receive state =>
      rw [perform, ← addBlock_watching chain block interrupted receive state log]
      exact watermark_of_addBlock stocked ih rfl
    | _ => exact Unmoved.watermark (chain.perform_unmoved nofun) ih

theorem Run.noneStale
    {anchor : Entry State Context}
    (run : Run (fun chain call => call.Completes chain) start chain log)
    (begins : GoesOn (fun _ => True) anchor start []) (noneStale : start.pool.NoneStale) :
    chain.pool.NoneStale := by
  induction run with
  | start => exact noneStale
  | @call chain log run call completes ih =>
    have stocked := (run.goesOn begins fun _ _ _ => trivial).stocked
    cases call with
    | addBlock block interrupted receive state =>
      by_cases raised : (chain.addBlock block interrupted receive state).2.1.pool.anchorSlot =
          chain.pool.anchorSlot
      · exact noneStale_of_unraised stocked rfl raised ih
      · have isOk := completes.resolve_right raised
        cases answer : (chain.addBlock block interrupted receive state).1 with
        | error error =>
          rw [answer] at isOk
          cases isOk
        | ok entry => exact noneStale_of_raised stocked (Prod.ext answer rfl) raised
    | _ => exact Unmoved.noneStale (chain.perform_unmoved nofun) ih

theorem ofAnchor?_watermark
    {limits : Limits} {root parentRoot : Root} {anchorState : State}
    (started : ofAnchor? limits root parentRoot anchorState = .ok start) :
    Watermark (rules.stateSlot anchorState) start.pool [] := by
  obtain ⟨context, _, made⟩ := exists_of_bind_eq_ok started
  cases made
  have nothing : Watermark (rules.stateSlot anchorState)
      ({ anchorSlot := rules.stateSlot anchorState } : Pool State Context) [] :=
    ⟨nofun, fun _ member => absurd member List.not_mem_nil, .inl ⟨rfl, rfl⟩⟩
  exact nothing.insert (Nat.le_refl _)

/-- Nothing is ever stale between calls, as long as no call fails after it has raised the slot
up to which the chain is final.  In any other run, a block that comes to its end leaves nothing
stale if a later canonical entry was accepted on the way than any before it, or if nothing was
stale before. -/
theorem stale_only_after_interruption
    {limits : Limits} {root parentRoot : Root} {anchorState : State}
    (started : ofAnchor? limits root parentRoot anchorState = .ok start) :
    (∀ chain log, Run (fun chain call => call.Completes chain) start chain log →
      chain.NothingStale log) ∧
    ∀ (permits : RecentChain preset rules → Call State Block Context → Prop)
      (chain : RecentChain preset rules) (log : List (Handover State Context)) (store : Type)
      (block : Block) (interrupted : List Nat → Bool) (receive : EntryReceiver State Context store)
      (state : store) (entry : Entry State Context), Run permits start chain log →
      (chain.addBlock block interrupted receive state).1 = .ok entry →
      Advances log (chain.noted log (.addBlock block interrupted receive state)) ∨
        chain.NothingStale log →
      (chain.addBlock block interrupted receive state).2.1.NothingStale
        (chain.noted log (.addBlock block interrupted receive state)) := by
  obtain ⟨anchor, _, begins⟩ := ofAnchor?_goesOn (fun _ => True) started trivial
  have startMark := ofAnchor?_watermark started
  refine ⟨fun chain log run => ?_, ?_⟩
  · rw [nothingStale_iff (run.watermark begins startMark)]
    exact run.noneStale begins (startMark.noneStale_of_nothing_taken rfl)
  · intro permits chain log store block interrupted receive state entry run isOk tidy
    have stocked := (run.goesOn begins fun _ _ _ => trivial).stocked
    have mark := run.watermark begins startMark
    have markAfter : Watermark (rules.stateSlot anchorState)
        (chain.addBlock block interrupted receive state).2.1.pool
        (chain.noted log (.addBlock block interrupted receive state)) := by
      rw [← addBlock_watching chain block interrupted receive state log]
      exact watermark_of_addBlock stocked mark rfl
    rw [nothingStale_iff markAfter]
    rw [nothingStale_iff mark] at tidy
    by_cases raised : (chain.addBlock block interrupted receive state).2.1.pool.anchorSlot =
        chain.pool.anchorSlot
    · refine noneStale_of_unraised stocked rfl raised ?_
      rcases tidy with ⟨final, member, later⟩ | noneStale
      · rcases mark.attained with ⟨nothing, _⟩ | ⟨earlier, inLog, same⟩
        · exact mark.noneStale_of_nothing_taken nothing
        · -- a later entry would have raised the slot
          have reached := markAfter.bounded final member
          have := later earlier inLog
          omega
      · exact noneStale
    · exact noneStale_of_raised stocked (Prod.ext isOk rfl) raised

/-- Three branches, of which the last one comes in late, and a block that justifies and finalizes
the first block at the slot of its second child. -/
def branchedBlocks : List ScriptedBlock :=
  [{ slot := 1, root := ⟨11⟩, parentRoot := ⟨10⟩ },
   { slot := 2, root := ⟨12⟩, parentRoot := ⟨11⟩ },
   { slot := 3, root := ⟨13⟩, parentRoot := ⟨11⟩ },
   { slot := 1, root := ⟨14⟩, parentRoot := ⟨10⟩ },
   { slot := 4, root := ⟨15⟩, parentRoot := ⟨13⟩, justified := some ⟨1, ⟨11⟩⟩,
     finalized := some ⟨1, ⟨11⟩⟩ }]

/-- A block above all of them, which finalizes the first block once more. -/
def retryBlock : ScriptedBlock := { slot := 5, root := ⟨16⟩, parentRoot := ⟨15⟩ }

/-- A block is added where there is room for so many entries. -/
def branchedCall (block : ScriptedBlock) (room : Nat) : Call ScriptedState ScriptedBlock Nat :=
  .addBlock block (fun _ => false) takeAtMost room

/-- A migration that was refused at its first entry is made up for by the next block. -/
theorem stale_only_after_interruption_retried :
    ∃ (chain : RecentChain .minimal (Scripted.rules [])) (log : List (Handover ScriptedState Nat)),
      Run (fun chain call => call.Completes chain) trialStart.recent chain log ∧
      (taken log).map Entry.ref = [⟨⟨10⟩, 0⟩, ⟨⟨10⟩, 1⟩, ⟨⟨11⟩, 1⟩, ⟨⟨11⟩, 2⟩] ∧
      chain.pool.byNode.values.map Entry.slot = [3, 3, 4, 4, 5, 5] ∧ chain.NothingStale log := by
  have run : Run (fun chain call => call.Completes chain) trialStart.recent _ _ :=
    .call (.call (.call (.call (.call (.call .start
      (branchedCall branchedBlocks[0] 0) (.inl (by decide)))
      (branchedCall branchedBlocks[1] 0) (.inl (by decide)))
      (branchedCall branchedBlocks[2] 0) (.inl (by decide)))
      (branchedCall branchedBlocks[3] 0) (.inl (by decide)))
      (branchedCall branchedBlocks[4] 0) (.inr (by decide)))
      (branchedCall retryBlock 9) (.inl (by decide))
  have started : ofAnchor? .minimal ⟨10⟩ ⟨9⟩ trialAnchor = .ok trialStart.recent := rfl
  exact ⟨_, _, run, by decide, by decide, (stale_only_after_interruption started).1 _ _ run⟩

/-- A migration that was refused at an entry which is not canonical has raised the slot already.
The next block advances finality, but leaves behind what is stale. -/
theorem stale_after_interruption :
    ∃ (chain : RecentChain .minimal (Scripted.rules [])) (log : List (Handover ScriptedState Nat)),
      Run (fun _ _ => True) trialStart.recent chain log ∧
      (chain.addBlock retryBlock (fun _ => false) takeAtMost 9).1.isOk = true ∧
      chain.choice.finalized = ⟨0, ⟨10⟩⟩ ∧
      (chain.perform (branchedCall retryBlock 9)).choice.finalized = ⟨1, ⟨11⟩⟩ ∧
      ¬ (chain.perform (branchedCall retryBlock 9)).NothingStale
        (chain.noted log (branchedCall retryBlock 9)) := by
  have run : Run (fun _ _ => True) trialStart.recent _ _ :=
    .call (.call (.call (.call (.call .start (branchedCall branchedBlocks[0] 0) trivial)
      (branchedCall branchedBlocks[1] 0) trivial) (branchedCall branchedBlocks[2] 0) trivial)
      (branchedCall branchedBlocks[3] 0) trivial) (branchedCall branchedBlocks[4] 4) trivial
  obtain ⟨chain, log, run, isOk, before, after, stays, reached⟩ :
      ∃ (chain : RecentChain .minimal (Scripted.rules []))
        (log : List (Handover ScriptedState Nat)),
        Run (fun _ _ => True) trialStart.recent chain log ∧
        (chain.addBlock retryBlock (fun _ => false) takeAtMost 9).1.isOk = true ∧
        chain.choice.finalized = ⟨0, ⟨10⟩⟩ ∧
        (chain.perform (branchedCall retryBlock 9)).choice.finalized = ⟨1, ⟨11⟩⟩ ∧
        ((chain.perform (branchedCall retryBlock 9)).pool.find? ⟨⟨14⟩, 1⟩).map Entry.slot = some 1 ∧
        2 ∈ (taken (chain.noted log (branchedCall retryBlock 9))).map Entry.slot :=
    ⟨_, _, run, by decide, by decide, by decide, by decide, by decide⟩
  refine ⟨chain, log, run, isOk, before, after, fun nothingStale => ?_⟩
  obtain ⟨entry, found, atSlot⟩ := Option.map_eq_some_iff.1 stays
  obtain ⟨final, member, finalSlot⟩ := List.mem_map.1 reached
  have := nothingStale _ entry found final member
  omega

end RecentChain

end BeaconChain
