import BeaconChain.BlockTree.Prune
import BeaconChain.Entry

/-!
# The pool of entries

The unfinalized entries by node, an index of their state roots, and the slot up to
which the chain is final.  An entry leaves the pool when its node leaves the tree,
or when it is older than the finalized part of the chain.
-/

namespace BeaconChain

/-- The entries of the unfinalized chain.  Entries before `anchorSlot` have been
handed on. -/
structure Pool (State Context : Type) where
  byNode : Table NodeRef (Entry State Context) := {}
  byStateRoot : Table Root NodeRef := {}
  anchorSlot : Nat
  deriving DecidableEq, Repr

namespace Pool

variable {State Context store : Type}

def size (pool : Pool State Context) : Nat := pool.byNode.size

def find? (pool : Pool State Context) (ref : NodeRef) : Option (Entry State Context) :=
  pool.byNode.find? ref

def insert (pool : Pool State Context) (entry : Entry State Context) : Pool State Context :=
  { pool with
    byNode := pool.byNode.insert entry.ref entry
    byStateRoot := pool.byStateRoot.insert entry.stateRoot entry.ref }

/-- Drops the entry of a node, and the index of its state root if that leads to
the node. -/
def remove (pool : Pool State Context) (ref : NodeRef) : Pool State Context :=
  match pool.find? ref with
  | none => pool
  | some entry =>
    { pool with
      byNode := pool.byNode.erase ref
      byStateRoot :=
        if pool.byStateRoot.find? entry.stateRoot = some ref then
          pool.byStateRoot.erase entry.stateRoot
        else
          pool.byStateRoot }

/-- Hands the entry of a node that leaves the tree to a receiver, unless the entry
has been handed on before. -/
def release (receive : EntryReceiver State Context store) :
    NodeReceiver (Pool State Context × store) := fun node canonical (pool, state) =>
  match pool.find? node.ref with
  | none => (.ok (), pool, state)
  | some entry =>
    match receive entry canonical state with
    | (.error error, state) => (.error error, pool, state)
    | (.ok (), state) =>
      let pool := pool.remove entry.ref
      let anchorSlot := if canonical then max pool.anchorSlot entry.slot else pool.anchorSlot
      (.ok (), { pool with anchorSlot := anchorSlot }, state)

def withSteps (entries : List (Entry State Context)) :
    Except Error (List (Step × Entry State Context)) :=
  entries.mapM fun entry => do
    let step ← entry.step
    return (step, entry)

def insertByStep (added : Step × Entry State Context) :
    List (Step × Entry State Context) → List (Step × Entry State Context)
  | [] => [added]
  | first :: rest =>
    if added.1 ≤ first.1 then added :: first :: rest
    else first :: insertByStep added rest

/-- Sorts entries by their steps.  Entries of one step keep their order. -/
def sortBySteps (stepped : List (Step × Entry State Context)) :
    List (Step × Entry State Context) :=
  stepped.foldr insertByStep []

/-- The entries older than the anchor slot, by their steps.  Steps are computed
only where there is something to compare. -/
def stale (pool : Pool State Context) : Except Error (List (Entry State Context)) :=
  let older := pool.byNode.values.filter fun entry => entry.slot < pool.anchorSlot
  if older.length < 2 then
    .ok older
  else do
    let stepped ← withSteps older
    return (sortBySteps stepped).map (·.2)

theorem perm_insertByStep
    (added : Step × Entry State Context) (stepped : List (Step × Entry State Context)) :
    (insertByStep added stepped).Perm (added :: stepped) := by
  induction stepped with
  | nil => exact List.Perm.refl _
  | cons first rest ih =>
    unfold insertByStep
    split
    · exact List.Perm.refl _
    · exact (ih.cons first).trans (List.Perm.swap added first rest)

theorem perm_sortBySteps (stepped : List (Step × Entry State Context)) :
    (sortBySteps stepped).Perm stepped := by
  induction stepped with
  | nil => exact List.Perm.refl _
  | cons first rest ih =>
    exact (perm_insertByStep first (sortBySteps rest)).trans (ih.cons first)

/-- Hands entries to a receiver, as not canonical, until it refuses one. -/
def discard (receive : EntryReceiver State Context store) :
    List (Entry State Context) → Pool State Context → store →
      Except Error Unit × Pool State Context × store
  | [], pool, state => (.ok (), pool, state)
  | entry :: rest, pool, state =>
    match receive entry false state with
    | (.error error, state) => (.error error, pool, state)
    | (.ok (), state) => discard receive rest (pool.remove entry.ref) state

/-- Discards the entries older than the anchor slot.  They cannot become
canonical; some of them were inserted after the anchor, so that their nodes are
still in the tree.  They are discarded by their steps.  No order is fixed among those
of one step: they come as the table has them, and nothing depends on that. -/
def sweep (pool : Pool State Context) (receive : EntryReceiver State Context store)
    (state : store) : Except Error Unit × Pool State Context × store :=
  match pool.stale with
  | .error error => (.error error, pool, state)
  | .ok entries => discard receive entries pool state

@[simp]
theorem find?_insert_self (pool : Pool State Context) (entry : Entry State Context) :
    (pool.insert entry).find? entry.ref = some entry := by
  simp [find?, insert]

theorem find?_insert_of_ne
    (pool : Pool State Context) {entry : Entry State Context} {ref : NodeRef}
    (different : entry.ref ≠ ref) :
    (pool.insert entry).find? ref = pool.find? ref := by
  simp only [find?, insert]
  exact Table.find?_insert_of_ne _ _ different

theorem find?_insert_cases
    {pool : Pool State Context} {entry found : Entry State Context} {ref : NodeRef}
    (known : (pool.insert entry).find? ref = some found) :
    entry.ref = ref ∧ entry = found ∨ pool.find? ref = some found :=
  Table.find?_insert_cases known

@[simp]
theorem find?_remove_self (pool : Pool State Context) (ref : NodeRef) :
    (pool.remove ref).find? ref = none := by
  unfold remove
  cases found : pool.find? ref with
  | none => simpa using found
  | some entry => simp [find?]

theorem find?_remove_of_ne
    (pool : Pool State Context) {dropped ref : NodeRef} (different : dropped ≠ ref) :
    (pool.remove dropped).find? ref = pool.find? ref := by
  unfold remove
  cases pool.find? dropped with
  | none => rfl
  | some entry =>
    simp only [find?]
    exact Table.find?_erase_of_ne _ different

theorem find?_remove_eq_some_iff
    {pool : Pool State Context} {dropped ref : NodeRef} {entry : Entry State Context} :
    (pool.remove dropped).find? ref = some entry ↔
      dropped ≠ ref ∧ pool.find? ref = some entry := by
  by_cases same : dropped = ref
  · subst same
    simp
  · simp [find?_remove_of_ne pool same, same]

@[simp]
theorem anchorSlot_remove (pool : Pool State Context) (ref : NodeRef) :
    (pool.remove ref).anchorSlot = pool.anchorSlot := by
  unfold remove
  split <;> rfl

end Pool

end BeaconChain
