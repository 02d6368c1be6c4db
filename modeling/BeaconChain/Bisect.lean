/-!
# Bisection

The length of the leading part of a list whose elements pass a test, found by
halving.  Only logarithmically many elements are tested; on a list whose passing
elements all stand in front the answer does not depend on which.
-/

namespace BeaconChain

/-- Narrows `size` elements from position `base` on down to one: the test of the
middle element decides which half is kept.  Returns the position that is left;
`steps` bounds the number of halvings. -/
def narrow {m : Type → Type} [Monad m] {α : Type} (test : α → m Bool) (elements : List α) :
    (steps base size : Nat) → m Nat
  | 0, base, _ => pure base
  | steps + 1, base, size =>
    if size ≤ 1 then
      pure base
    else
      match elements[base + size / 2]? with
      | none => pure base
      | some middle => do
        let passes ← test middle
        narrow test elements steps (if passes then base + size / 2 else base) (size - size / 2)

/-- The number of leading elements that pass the test, if none behind them does. -/
def countLeading {m : Type → Type} [Monad m] {α : Type} (test : α → m Bool)
    (elements : List α) : m Nat := do
  let last ← narrow test elements elements.length 0 elements.length
  match elements[last]? with
  | none => pure 0
  | some element => do
    let passes ← test element
    pure (if passes then last + 1 else last)

section Partitioned

variable {m : Type → Type} [Monad m] {α : Type} {test : α → m Bool} {passing failing : List α}

theorem test_getElem_of_lt
    (passes : ∀ element ∈ passing, test element = pure true)
    {place : Nat} {element : α} (found : (passing ++ failing)[place]? = some element)
    (inFront : place < passing.length) : test element = pure true := by
  rw [List.getElem?_append_left inFront] at found
  exact passes element (List.mem_of_getElem? found)

theorem test_getElem_of_le
    (fails : ∀ element ∈ failing, test element = pure false)
    {place : Nat} {element : α} (found : (passing ++ failing)[place]? = some element)
    (behind : passing.length ≤ place) : test element = pure false := by
  rw [List.getElem?_append_right behind] at found
  exact fails element (List.mem_of_getElem? found)

variable [LawfulMonad m]

/-- Halving ends at the last passing element, or at the first element if none
passes. -/
theorem narrow_append
    (passes : ∀ element ∈ passing, test element = pure true)
    (fails : ∀ element ∈ failing, test element = pure false) :
    ∀ (steps base size : Nat), base + size ≤ (passing ++ failing).length → size ≤ steps + 1 →
      base = 0 ∨ base < passing.length → passing.length ≤ base + size →
      ∃ last, narrow test (passing ++ failing) steps base size = pure last ∧
        (last = 0 ∨ last < passing.length) ∧ passing.length ≤ last + 1
  | 0, base, size, _, enough, low, high => ⟨base, rfl, low, by omega⟩
  | steps + 1, base, size, within, enough, low, high => by
    unfold narrow
    by_cases small : size ≤ 1
    · exact ⟨base, by simp [small], low, by omega⟩
    · have inside : base + size / 2 < (passing ++ failing).length := by omega
      have found := List.getElem?_eq_getElem inside
      by_cases inFront : base + size / 2 < passing.length
      · have result := test_getElem_of_lt passes found inFront
        simp only [small, found, result, pure_bind, if_true, if_false]
        exact narrow_append passes fails steps _ _ (by omega) (by omega) (.inr inFront) (by omega)
      · have result := test_getElem_of_le fails found (by omega)
        simp only [small, found, result, pure_bind, if_false, Bool.false_eq_true]
        exact narrow_append passes fails steps _ _ (by omega) (by omega) low (by omega)

/-- Where the passing elements stand in front, their number is found. -/
theorem countLeading_append
    (passes : ∀ element ∈ passing, test element = pure true)
    (fails : ∀ element ∈ failing, test element = pure false) :
    countLeading test (passing ++ failing) = pure passing.length := by
  obtain ⟨last, narrowed, low, high⟩ :=
    narrow_append passes fails (passing ++ failing).length 0 (passing ++ failing).length
      (by omega) (by omega) (.inl rfl) (by simp)
  unfold countLeading
  rw [narrowed, pure_bind]
  cases found : (passing ++ failing)[last]? with
  | none =>
    have outside := List.getElem?_eq_none_iff.1 found
    have : passing.length = 0 := by
      rw [List.length_append] at outside
      omega
    simp [this]
  | some element =>
    by_cases inFront : last < passing.length
    · have result := test_getElem_of_lt passes found inFront
      have : passing.length = last + 1 := by omega
      simp [result, this]
    · have result := test_getElem_of_le fails found (by omega)
      have : passing.length = last := by omega
      simp [result, this]

example : Id.run (countLeading (fun number => pure (number < 5 : Bool)) [1, 3, 4, 7, 9]) = 3 := by
  decide

end Partitioned

end BeaconChain
