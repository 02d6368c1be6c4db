import BeaconChain.Chain.Basic

/-!
# Walks

A walk visits the canonical chain step by step, from its earliest entry to the
head.  The unfinalized entries are those of the moment at which the walk starts;
finalized ones are looked up as the walk reaches them.
-/

namespace BeaconChain

/-- A walk over the steps from `start` to `stop`, both included.  `entries` are the
canonical unfinalized entries, the oldest first, and `next` is the step that is
visited next. -/
structure Walk (State Context : Type) where
  entries : List (Entry State Context)
  next : Step
  start : Step
  stop : Step

/-- What a walk meets at a step: an entry, or the error that there is none. -/
abbrev Walk.Item (State Context : Type) := Except Error (ChainEntry State Context)

namespace Walk

variable {State Context : Type}

/-- Visits the next step, unless the walk is over. -/
def visit (walk : Walk State Context) (record : Record) :
    Except Error (Option (Item State Context × Walk State Context)) :=
  if walk.stop < walk.next then
    .ok none
  else do
    let step := walk.next
    let next ← step.advance 1
    let item := match ← Chain.canonicalAt? walk.entries record step with
      | some entry => .ok entry
      | none => .error (.stepNotFound step)
    return some (item, { walk with next := next })

/-- Visits up to `count` steps. -/
def visitMany (record : Record) : (count : Nat) → Walk State Context →
    Except Error (List (Item State Context) × Walk State Context)
  | 0, walk => .ok ([], walk)
  | count + 1, walk => do
    match ← walk.visit record with
    | none => return ([], walk)
    | some (item, walk) => do
      let (items, walk) ← visitMany record count walk
      return (item :: items, walk)

/-- The number of steps that are still to be visited. -/
def remaining (walk : Walk State Context) : Nat :=
  walk.stop.number + 1 - walk.next.number

end Walk

namespace Chain

variable {preset : Preset} {State Block Context contents : Type}
  {rules : Rules State Block Context} {store : StateStore contents State}

/-- Starts a walk over the canonical chain as it is now. -/
def walk (chain : Chain preset rules store) :
    Except Error (Walk State Context) × Chain preset rules store :=
  match chain.recent.head with
  | (.error error, recent) => (.error error, { chain with recent := recent })
  | (.ok head, recent) =>
    match head.step with
    | .error error => (.error error, { chain with recent := recent })
    | .ok stop =>
      let (entries, recent) := recent.canonicalChain
      let outcome := do
        let oldestFirst := (← entries).reverse
        let start ← match ← chain.archive.record.start?, oldestFirst with
          | some start, _ => pure start
          | none, oldest :: _ => oldest.step
          | none, [] => pure stop
        return { entries := oldestFirst, next := start, start := start, stop := stop }
      (outcome, { chain with recent := recent })

end Chain

end BeaconChain
