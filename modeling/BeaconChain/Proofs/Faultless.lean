import BeaconChain.Bisect
import BeaconChain.Error

/-!
# Operations without faults

An operation may be refused for many causes, but a fault is none of them: it would mean that a
number has left its range, or that the library contradicts itself.
-/

namespace BeaconChain

theorem Error.isFault_of_innermost {error : Error} (noFault : error.innermost.isFault = false) :
    error.isFault = false := by
  cases error with
  | fault cause => exact noFault
  | _ => rfl

theorem Error.exists_of_ofOutside
    {α : Type} {outcome : Except String α} {error : Error}
    (failed : Error.ofOutside outcome = .error error) : ∃ message, error = .external message := by
  cases outcome with
  | error message =>
    cases failed
    exact ⟨message, rfl⟩
  | ok value => cases failed

/-- The operation has not met a fault. -/
def Faultless {α : Type} (outcome : Except Error α) : Prop :=
  ∀ error, outcome = .error error → error.innermost.isFault = false

namespace Faultless

variable {α β : Type} {outcome : Except Error α} {next : α → Except Error β}

theorem ok (value : α) : Faultless (.ok value : Except Error α) := nofun

theorem error {cause : Error} (noFault : cause.innermost.isFault = false) :
    Faultless (.error cause : Except Error α) := by
  intro other same
  cases same
  exact noFault

theorem of_eq_ok {value : α} (done : outcome = .ok value) : Faultless outcome :=
  done ▸ ok value

theorem bind
    (first : Faultless outcome) (second : ∀ value, outcome = .ok value → Faultless (next value)) :
    Faultless (outcome >>= next) := by
  cases outcome with
  | error cause => exact error (first cause rfl)
  | ok value => exact second value rfl

theorem map (first : Faultless outcome) (change : α → β) : Faultless (outcome.map change) := by
  cases outcome with
  | error cause => exact error (first cause rfl)
  | ok value => exact ok (change value)

theorem ofOutside (outcome : Except String α) : Faultless (Error.ofOutside outcome) := by
  intro error failed
  obtain ⟨message, rfl⟩ := Error.exists_of_ofOutside failed
  rfl

variable {test : α → Except Error Bool} {elements : List α}

theorem narrow (tests : ∀ element ∈ elements, Faultless (test element)) :
    ∀ steps base size, Faultless (BeaconChain.narrow test elements steps base size)
  | 0, base, _ => ok base
  | steps + 1, base, size => by
    rw [BeaconChain.narrow]
    by_cases small : size ≤ 1
    · rw [if_pos small]
      exact ok base
    · rw [if_neg small]
      cases here : elements[base + size / 2]? with
      | none => exact ok base
      | some middle =>
        apply (tests middle (List.mem_of_getElem? here)).bind
        intro passes _
        exact narrow tests steps _ _

/-- A bisection fails only where a test does. -/
theorem countLeading (tests : ∀ element ∈ elements, Faultless (test element)) :
    Faultless (BeaconChain.countLeading test elements) := by
  apply (narrow tests elements.length 0 elements.length).bind
  intro last _
  cases here : elements[last]? with
  | none => exact ok 0
  | some element =>
    apply (tests element (List.mem_of_getElem? here)).bind
    intro passes _
    exact ok _

end Faultless

end BeaconChain
