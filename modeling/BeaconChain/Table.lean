/-!
# Tables

A table binds values to keys and keeps its bindings in the order in which the
keys first arrived.  Two tables built by the same insertions are equal.
-/

namespace BeaconChain

/-- A finite map, kept as a list of bindings with the key that arrived first in
front. -/
structure Table (key value : Type) where
  bindings : List (key × value) := []
  deriving DecidableEq, Repr

namespace Table

variable {key value : Type} [DecidableEq key]

def empty : Table key value := {}

instance : Inhabited (Table key value) := ⟨empty⟩

def size (table : Table key value) : Nat := table.bindings.length

def values (table : Table key value) : List value := table.bindings.map (·.2)

def find? (table : Table key value) (wanted : key) : Option value :=
  (table.bindings.find? fun binding => binding.1 = wanted).map (·.2)

def contains (table : Table key value) (wanted : key) : Bool :=
  (table.find? wanted).isSome

/-- Sets the binding of a key in a list, at the end if the key is new. -/
def setBinding (added : key) (item : value) : List (key × value) → List (key × value)
  | [] => [(added, item)]
  | binding :: rest =>
    if binding.1 = added then (added, item) :: rest
    else binding :: setBinding added item rest

/-- Binds a value to a key, in place of the value bound before. -/
def insert (table : Table key value) (added : key) (item : value) : Table key value :=
  ⟨setBinding added item table.bindings⟩

/-- Binds a value to a key unless the key is bound already. -/
def insertIfNew (table : Table key value) (added : key) (item : value) : Table key value :=
  if table.contains added then table else table.insert added item

def erase (table : Table key value) (dropped : key) : Table key value :=
  ⟨table.bindings.filter fun binding => binding.1 ≠ dropped⟩

@[simp]
theorem find?_empty (wanted : key) : (empty : Table key value).find? wanted = none := rfl

@[simp]
theorem find?_insert_self (table : Table key value) (added : key) (item : value) :
    (table.insert added item).find? added = some item := by
  obtain ⟨bindings⟩ := table
  simp only [find?, insert]
  induction bindings with
  | nil => simp [setBinding]
  | cons binding rest ih =>
    by_cases same : binding.1 = added <;> simp_all [setBinding]

theorem find?_insert_of_ne
    (table : Table key value) {added wanted : key} (item : value) (different : added ≠ wanted) :
    (table.insert added item).find? wanted = table.find? wanted := by
  obtain ⟨bindings⟩ := table
  simp only [find?, insert]
  induction bindings with
  | nil => simp [setBinding, different]
  | cons binding rest ih =>
    by_cases same : binding.1 = added
    · simp [setBinding, same, different]
    · by_cases found : binding.1 = wanted <;> simp_all [setBinding]

theorem find?_insert_cases
    {table : Table key value} {added wanted : key} {item found : value}
    (known : (table.insert added item).find? wanted = some found) :
    added = wanted ∧ item = found ∨ table.find? wanted = some found := by
  by_cases same : added = wanted
  · subst same
    rw [find?_insert_self] at known
    exact .inl ⟨rfl, Option.some.inj known⟩
  · exact .inr ((find?_insert_of_ne table item same).symm.trans known)

theorem find?_insertIfNew (table : Table key value) (added wanted : key) (item : value) :
    (table.insertIfNew added item).find? wanted =
      (table.find? wanted).or (if added = wanted then some item else none) := by
  unfold insertIfNew contains
  by_cases same : added = wanted
  · subst same
    cases found : table.find? added <;> simp [found]
  · rw [if_neg same, Option.or_none]
    split
    · rfl
    · exact find?_insert_of_ne table item same

@[simp]
theorem find?_erase_self (table : Table key value) (dropped : key) :
    (table.erase dropped).find? dropped = none := by
  simp [find?, erase]

theorem find?_erase_of_ne
    (table : Table key value) {dropped wanted : key} (different : dropped ≠ wanted) :
    (table.erase dropped).find? wanted = table.find? wanted := by
  obtain ⟨bindings⟩ := table
  simp only [find?, erase]
  induction bindings with
  | nil => rfl
  | cons binding rest ih =>
    by_cases same : binding.1 = dropped
    · simp_all
    · by_cases found : binding.1 = wanted <;> simp_all

theorem find?_of_find?_erase
    {table : Table key value} {dropped wanted : key} {found : value}
    (known : (table.erase dropped).find? wanted = some found) :
    table.find? wanted = some found := by
  by_cases same : dropped = wanted
  · rw [same, find?_erase_self] at known
    cases known
  · exact (find?_erase_of_ne table same).symm.trans known

end Table

end BeaconChain
