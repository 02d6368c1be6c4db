import BeaconChain.RecentChain.Add
import Mathlib.Data.List.Chain

/-!
# What is handed to a receiver

A log of a receiver lists what it was offered, and how it answered.  The canonical
entries that it took are gapless if they begin with the anchor and a single transition
leads from each of them to the next.
-/

namespace BeaconChain

variable {State Block Context store : Type}

/-- A single transition leads from one entry to the next: a slot passes, or a block
fills the slot that has passed. -/
inductive Follows (rules : Rules State Block Context) (previous next : Entry State Context) : Prop
  | slot (sameRoot : next.blockRoot = previous.blockRoot) (nextSlot : next.slot = previous.slot + 1)
    (empty : next.parentRoot = none)
    (passed : rules.passSlot previous.state previous.context next.slot =
      .ok (next.state, next.context))
  | block (block : Block) (verified : Bool) (empty : previous.parentRoot = none)
    (named : next.blockRoot = rules.blockRoot block)
    (parent : next.parentRoot = some previous.blockRoot) (sameSlot : next.slot = previous.slot)
    (applied : rules.applyBlock previous.state previous.context block verified =
      .ok (next.state, next.context))

/-- An entry that was offered to a receiver, whether it was canonical, and the answer. -/
structure Handover (State Context : Type) where
  entry : Entry State Context
  canonical : Bool
  outcome : Except Error Unit

/-- The receiver that answers like another one and keeps a log. -/
def watching (receive : EntryReceiver State Context store) :
    EntryReceiver State Context (store × List (Handover State Context)) :=
  fun entry canonical (state, log) =>
    let (outcome, state) := receive entry canonical state
    (outcome, state, log ++ [⟨entry, canonical, outcome⟩])

/-- A receiver that refuses nothing but canonical entries. -/
def Lenient (receive : EntryReceiver State Context store) : Prop :=
  ∀ entry state, (receive entry false state).1 = .ok ()

theorem Lenient.release {receive : EntryReceiver State Context store} (lenient : Lenient receive)
    (node : Node) (pooled : Pool State Context × store) :
    (Pool.release receive node false pooled).1 = .ok () := by
  obtain ⟨pool, state⟩ := pooled
  unfold Pool.release
  dsimp only
  split
  next => rfl
  next entry _ =>
    have accepts := lenient entry state
    split
    next refused =>
      rw [refused] at accepts
      exact accepts
    next => rfl

theorem Lenient.watching {receive : EntryReceiver State Context store} (lenient : Lenient receive) :
    Lenient (watching receive) :=
  fun entry watched => lenient entry watched.1

theorem eq_of_watching
    {receive : EntryReceiver State Context store} {entry : Entry State Context} {canonical : Bool}
    {state : store} {log : List (Handover State Context)} {outcome : Except Error Unit}
    {after : store × List (Handover State Context)}
    (offered : watching receive entry canonical (state, log) = (outcome, after)) :
    receive entry canonical state = (outcome, after.1) ∧
      after.2 = log ++ [⟨entry, canonical, outcome⟩] := by
  cases offered
  exact ⟨rfl, rfl⟩

/-- The canonical entries that were accepted. -/
def taken (log : List (Handover State Context)) : List (Entry State Context) :=
  (log.filter fun handover => handover.canonical && handover.outcome.isOk).map Handover.entry

theorem taken_concat (log : List (Handover State Context)) (handover : Handover State Context) :
    taken (log ++ [handover]) =
      if handover.canonical && handover.outcome.isOk then taken log ++ [handover.entry]
      else taken log := by
  unfold taken
  split
  next accepted => simp [accepted]
  next refused => simp [refused]

theorem mem_taken_iff {log : List (Handover State Context)} {entry : Entry State Context} :
    entry ∈ taken log ↔ ∃ handover ∈ log,
      (handover.canonical && handover.outcome.isOk) = true ∧ handover.entry = entry := by
  simp only [taken, List.mem_map, List.mem_filter, and_assoc]

/-- The entries begin with the anchor, and each one follows the one before it. -/
structure Gapless (rules : Rules State Block Context) (anchor : Entry State Context)
    (entries : List (Entry State Context)) : Prop where
  begins : ∀ first, entries.head? = some first → first = anchor
  isChain : entries.IsChain (Follows rules)

/-- An entry goes on where a sequence of entries ends: it follows the last of them, or is
the anchor. -/
def Continues (rules : Rules State Block Context) (anchor : Entry State Context)
    (entries : List (Entry State Context)) (next : Entry State Context) : Prop :=
  match entries.getLast? with
  | none => next = anchor
  | some last => Follows rules last next

section Sequence

variable {rules : Rules State Block Context} {anchor next : Entry State Context}
  {entries others : List (Entry State Context)}

theorem gapless_nil : Gapless rules anchor [] where
  begins _ found := by cases found
  isChain := .nil

/-- Two sequences can be joined if the second one goes on where the first one ends. -/
theorem Gapless.append
    (gapless : Gapless rules anchor entries) (isChain : others.IsChain (Follows rules))
    (continues : ∀ first, others.head? = some first → Continues rules anchor entries first) :
    Gapless rules anchor (entries ++ others) where
  begins first found := by
    rw [List.head?_append] at found
    cases head : entries.head? with
    | none =>
      rw [head] at found
      have ended := continues first found
      rw [List.head?_eq_none_iff.1 head] at ended
      exact ended
    | some oldest =>
      rw [head] at found
      exact gapless.begins first (head.trans found)
  isChain := by
    refine List.isChain_append.2 ⟨gapless.isChain, isChain, fun last isLast first isFirst => ?_⟩
    have ended := continues first isFirst
    rw [Continues, show entries.getLast? = some last from isLast] at ended
    exact ended

theorem Gapless.concat
    (gapless : Gapless rules anchor entries) (continues : Continues rules anchor entries next) :
    Gapless rules anchor (entries ++ [next]) := by
  apply gapless.append (List.isChain_singleton next)
  intro first found
  cases found
  exact continues

theorem Gapless.of_concat (gapless : Gapless rules anchor (entries ++ [next])) :
    Gapless rules anchor entries ∧ Continues rules anchor entries next := by
  refine ⟨⟨fun first found => gapless.begins first ?_, gapless.isChain.left_of_append⟩, ?_⟩
  · rw [List.head?_append, found, Option.some_or]
  · unfold Continues
    split
    next nothing =>
      rw [List.getLast?_eq_none_iff.1 nothing] at gapless
      exact gapless.begins next rfl
    next last isLast =>
      exact (List.isChain_append.1 gapless.isChain).2.2 last isLast next rfl

theorem continues_concat {last : Entry State Context} (follows : Follows rules last next) :
    Continues rules anchor (entries ++ [last]) next := by
  simpa [Continues] using follows

end Sequence

/-- Every canonical entry in a log, also one that was refused, was offered when it was
its turn.  Its slot is one of those in range. -/
inductive Orderly (rules : Rules State Block Context) (inRange : Nat → Prop)
    (anchor : Entry State Context) : List (Handover State Context) → Prop
  | nil : Orderly rules inRange anchor []
  | offer {log : List (Handover State Context)} {handover : Handover State Context}
    (orderly : Orderly rules inRange anchor log)
    (inTurn : handover.canonical = true →
      Continues rules anchor (taken log) handover.entry ∧ inRange handover.entry.slot) :
    Orderly rules inRange anchor (log ++ [handover])

section Order

variable {rules : Rules State Block Context} {inRange : Nat → Prop} {anchor : Entry State Context}
  {log : List (Handover State Context)} {handover : Handover State Context}

theorem Orderly.of_concat (orderly : Orderly rules inRange anchor (log ++ [handover])) :
    Orderly rules inRange anchor log ∧ (handover.canonical = true →
      Continues rules anchor (taken log) handover.entry ∧ inRange handover.entry.slot) := by
  generalize whole : log ++ [handover] = longer at orderly
  cases orderly with
  | nil => simp at whole
  | offer orderly inTurn =>
    obtain ⟨rfl, last⟩ := List.append_inj' whole rfl
    cases last
    exact ⟨orderly, inTurn⟩

theorem Orderly.slot_inRange (orderly : Orderly rules inRange anchor log) :
    ∀ entry ∈ taken log, inRange entry.slot := by
  induction orderly with
  | nil => exact fun _ member => absurd member List.not_mem_nil
  | offer _ inTurn ih =>
    rw [taken_concat]
    split
    next accepted =>
      have canonical := (Bool.and_eq_true_iff.1 accepted).1
      exact List.forall_mem_append.2 ⟨ih, List.forall_mem_singleton.2 (inTurn canonical).2⟩
    next => exact ih

theorem Orderly.gapless (orderly : Orderly rules inRange anchor log) :
    Gapless rules anchor (taken log) := by
  induction orderly with
  | nil => exact gapless_nil
  | offer _ inTurn ih =>
    rw [taken_concat]
    split
    next accepted =>
      have canonical := (Bool.and_eq_true_iff.1 accepted).1
      exact ih.concat (inTurn canonical).1
    next => exact ih

end Order

end BeaconChain
