import BeaconChain.Proofs.Chain.Migration
import BeaconChain.Proofs.RecentChain.Canonical

/-!
# Heads and the archive

While no pin is set and every block is consistent with the chain, heads never leave what
has become final: the canonical chain of every head goes on where the archive ends.  A
state store that fails does no harm.
-/

namespace BeaconChain

variable {preset : Preset} {State Block Context contents : Type}
  {rules : Rules State Block Context}

theorem Error.IsMiscount.ne_blockUnknown
    {error : Error} (miscount : error.IsMiscount) (root : Root) : error ≠ .blockUnknown root := by
  cases miscount <;> nofun

namespace Chain

variable {store : StateStore contents State} {anchor : Entry State Context}

/-- A call that sets no pin, and whose block is consistent with the chain. -/
def Call.Consistent (chain : Chain preset rules store) : Call Block contents → Prop
  | .addBlock block interrupted => chain.recent.ConsistentBlock block interrupted
  | .setPin _ => False
  | _ => True

theorem Run.rooted
    {start chain : Chain preset rules store} {log : List (Handover State Context)} {first : Nat}
    (run : Run (fun chain call => call.Consistent chain) start chain log)
    (begins : RecentChain.Rooted anchor start.recent [] first) :
    ∃ first, RecentChain.Rooted anchor chain.recent log first :=
  run.keeps (fun chain log => ∃ first, RecentChain.Rooted anchor chain.recent log first)
    ⟨first, begins⟩
    (fun _ _ _ ⟨first, rooted⟩ recounts => ⟨first, rooted.recounts recounts⟩)
    (fun _ _ _ noPin _ => noPin.elim)
    (fun _ _ ⟨first, rooted⟩ => ⟨first, rooted.clearPin⟩)
    (fun _ _ _ _ rooted => rooted)
    (fun chain _ _ _ consistent ⟨_, rooted⟩ =>
      rooted.addBlock_noted (fun _ _ => rfl) consistent chain.archive)

end Chain

/-- In every run without pins whose blocks are consistent, the justified checkpoint has an
entry, and a head is never missed for want of its anchor or of its entry.  Wherever there is
a head, its canonical chain leads back to the oldest entry, and goes on where the entries
end that the archive accepted. -/
theorem head_keeps_finalized
    {store : StateStore contents State} {limits : Limits} {root parentRoot : Root} {state : State}
    {before : contents} {start chain : Chain preset rules store}
    {log : List (Handover State Context)}
    (started : Chain.ofAnchor? limits root parentRoot state before = .ok start)
    (inRange : rules.stateSlot state ≤ greatestSlot)
    (run : Chain.Run (fun chain call => call.Consistent chain) start chain log) :
    (∃ entry, chain.justified = .ok entry) ∧
    (∀ error, chain.head.1 = .error error →
      (∀ anchor, error ≠ .unknownAnchor anchor) ∧ ∀ root, error ≠ .blockUnknown root) ∧
    ∃ anchor, start.recent.earliest? = some anchor ∧
      ∀ entry, chain.head.1 = .ok entry →
        ∃ entries oldest, chain.recent.canonicalChain.1 = .ok entries ∧
          entries.head? = some entry ∧ entries.getLast? = some oldest ∧
          chain.recent.earliest? = some oldest ∧
          Gapless rules anchor (taken log ++ entries.reverse) := by
  obtain ⟨recent, recentStarted, made⟩ := exists_of_bind_eq_ok started
  cases made
  obtain ⟨anchor, isAnchor, begins⟩ := RecentChain.ofAnchor?_rooted recentStarted inRange
  obtain ⟨first, rooted⟩ := run.rooted begins
  refine ⟨rooted.exists_justified, ?_, anchor, isAnchor, ?_⟩
  · intro error failed
    rcases rooted.head_cases with ⟨entry, _, _, found, _⟩ | ⟨cause, failedToo, kind⟩
    · exact absurd (failed.symm.trans found) nofun
    · obtain rfl := Except.error.inj (failed.symm.trans failedToo)
      rcases kind with miscount | ⟨_, _, _, _, rfl⟩
      · exact ⟨miscount.ne_unknownAnchor, miscount.ne_blockUnknown⟩
      · exact ⟨nofun, nofun⟩
  · intro entry found
    rcases rooted.head_cases with ⟨head, entries, oldest, foundToo, rest⟩ | ⟨_, failed, _⟩
    · obtain rfl := Except.ok.inj (found.symm.trans foundToo)
      exact ⟨entries, oldest, rest⟩
    · exact absurd (found.symm.trans failed) nofun

/-- A block at the start of an epoch, and one above it that justifies and finalizes it. -/
def finalizingBlocks : List ScriptedBlock :=
  [{ slot := 8, root := ⟨11⟩, parentRoot := ⟨10⟩ },
   { slot := 9, root := ⟨12⟩, parentRoot := ⟨11⟩, justified := some ⟨1, ⟨11⟩⟩,
     finalized := some ⟨1, ⟨11⟩⟩ }]

def beforeFinality : Chain .minimal (Scripted.rules []) StateStore.memory :=
  trialStart.perform (.addBlock finalizingBlocks[0] fun _ => false)

def afterFinality : Chain .minimal (Scripted.rules []) StateStore.memory :=
  beforeFinality.perform (.addBlock finalizingBlocks[1] fun _ => false)

theorem head_keeps_finalized_afterFinality :
    ∃ (log : List (Handover ScriptedState Nat)) (entries : List (Entry ScriptedState Nat))
      (anchor : Entry ScriptedState Nat),
      Chain.Run (fun chain call => call.Consistent chain) trialStart afterFinality log ∧
      (taken log).map Entry.ref = (List.range 9).map (⟨⟨10⟩, ·⟩) ∧
      afterFinality.head.1.map Entry.ref = .ok ⟨⟨12⟩, 9⟩ ∧
      afterFinality.recent.canonicalChain.1 = .ok entries ∧
      Gapless (Scripted.rules []) anchor (taken log ++ entries.reverse) := by
  have first : trialStart.recent.ConsistentBlock finalizingBlocks[0] fun _ => false := by
    intro draft grown _ drafted committed
    cases drafted
    cases committed
    exact .of_le (by decide)
  have second : beforeFinality.recent.ConsistentBlock finalizingBlocks[1] fun _ => false := by
    intro draft grown _ drafted committed
    cases drafted
    cases committed
    -- both checkpoints refer to the node of the first block
    refine ⟨fun _ lower upper isLower isUpper => ?_, fun _ same => absurd same (by decide)⟩
    cases isLower
    cases isUpper
    exact ⟨9, 9, by decide, by decide, .refl⟩
  have run : Chain.Run (fun chain call => call.Consistent chain) trialStart afterFinality _ :=
    .call (.call .start (.addBlock finalizingBlocks[0] fun _ => false) first)
      (.addBlock finalizingBlocks[1] fun _ => false) second
  have started : Chain.ofAnchor? .minimal ⟨10⟩ ⟨9⟩ trialAnchor {} = .ok trialStart := rfl
  have headRef : afterFinality.head.1.map Entry.ref = .ok ⟨⟨12⟩, 9⟩ := by decide
  cases found : afterFinality.head.1 with
  | error error =>
    rw [found] at headRef
    cases headRef
  | ok entry =>
    obtain ⟨_, _, anchor, _, goesOn⟩ := head_keeps_finalized started (by decide) run
    obtain ⟨entries, _, isCanonical, _, _, _, gapless⟩ := goesOn entry found
    exact ⟨_, entries, anchor, run, by decide, found ▸ headRef, isCanonical, gapless⟩

end BeaconChain
