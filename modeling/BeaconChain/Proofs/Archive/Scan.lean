import BeaconChain.Proofs.Archive.Ledger
import BeaconChain.Proofs.Archive.RootLookUps

/-!
# The archive as a list of entries

An archive starts with any entry, whether it is a block or not, and grows only by entries that come
after the last one that was accepted.  As long as no accepted block has the root of an earlier
entry, whoever looks something up in it may as well go through the list of the accepted entries.
-/

namespace BeaconChain

variable {State Context contents : Type}

namespace Record

variable {record : Record} {last entry : Entry State Context}
  {accepted : List (Entry State Context)}

/-- An entry that fits comes after the last one. -/
theorem Holds.succeeds_of_fits
    (holds : record.Holds accepted) (isLast : accepted.getLast? = some last)
    (fits : record.Fits entry) : Succeeds last entry := by
  have lastRow := holds.getLast?_rows isLast
  have behind : record.behind = last.number + 1 := holds.stop_eq isLast
  cases fits with
  | first noRows => exact absurd noRows (rows_ne_nil lastRow)
  | next row isRow place linked =>
    rw [lastRow, Option.some.injEq] at isRow
    refine ⟨by rw [linked, ← isRow]; rfl, ?_⟩
    rcases place with there | ⟨odd, there⟩
    · exact .inl (there.trans behind)
    · -- the step that is left out is odd, so there are even ones around it
      have empty : ∀ {other : Entry State Context}, other.number % 2 = 0 →
          other.hasBlock = false := by
        intro other even
        by_contra hasBlock
        have odd := other.hasBlock_iff_odd.1 (by simpa using hasBlock)
        omega
      exact .inr ⟨by omega, empty (by omega), empty (by omega)⟩

/-- A record that has grown from nothing by accepted entries. -/
structure Grown (record : Record) (accepted : List (Entry State Context)) : Prop where
  holds : record.Holds accepted
  isChain : accepted.IsChain Succeeds
  inRange : ∀ entry ∈ accepted, entry.slot < slotLimit
  behind : record.behind ≤ 2 * slotLimit

theorem grown_nil : ({} : Record).Grown ([] : List (Entry State Context)) where
  holds := holds_nil
  isChain := .nil
  inRange := nofun
  behind := Nat.zero_le _

theorem Grown.extend
    (grown : record.Grown accepted) (fits : record.Fits entry) (small : entry.slot < slotLimit) :
    (record.extend entry).Grown (accepted ++ [entry]) := by
  have holds := grown.holds.extend fits
  have stop : (record.extend entry).behind = entry.number + 1 :=
    holds.stop_eq List.getLast?_concat
  have bounds := entry.number_bounds
  exact {
    holds := holds
    isChain := by
      refine grown.isChain.append (.singleton entry) fun last isLast next isNext => ?_
      obtain rfl : entry = next := by simpa using isNext
      exact grown.holds.succeeds_of_fits isLast fits
    inRange := by
      intro other member
      rcases List.mem_append.1 member with old | new
      · exact grown.inRange other old
      · rw [List.mem_singleton.1 new]
        exact small
    behind := by omega }

end Record

namespace Archive

/-- Whatever entries have been delivered, and whenever the store has failed: if no accepted block
has the root of an earlier entry, every look-up finds what a scan of the accepted entries finds. -/
theorem look_ups_scan_accepted
    (store : StateStore contents State) (initial : contents)
    (deliveries : List (Entry State Context × Bool))
    (small : ∀ delivery ∈ deliveries, delivery.1.slot < slotLimit) :
    let reached := deliver (({ contents := initial } : Archive store), []) deliveries
    ((taken reached.2).Pairwise fun earlier later =>
        later.hasBlock = true → earlier.blockRoot ≠ later.blockRoot) →
      reached.1.record.Scans (taken reached.2) := by
  intro reached fresh
  have grown : reached.1.record.Grown (taken reached.2) :=
    deliver_keeps Record.Grown (fun _ _ grown => grown.behind)
      (fun _ _ _ grown fits smallEntry => grown.extend fits smallEntry) small Record.grown_nil
  exact grown.holds.scans ⟨grown.isChain, fresh⟩ grown.inRange

/-- An archive that starts on an empty slot: the block step of the slot is left out, the next slot
has a block, and the two slots after it have none.  A block out of order and an orphan are offered
in between. -/
def gappyDeliveries : List (Entry Nat Unit × Bool) :=
  [(plainEntry 4 1 none 14, true), (plainEntry 5 1 none 15, true),
    (plainEntry 9 7 (some 1) 99, true), (plainEntry 5 2 (some 1) 16, true),
    (plainEntry 5 8 (some 1) 98, false), (plainEntry 6 2 none 17, true),
    (plainEntry 7 2 none 18, true)]

theorem look_ups_scan_accepted_gappy :
    (∀ delivery ∈ gappyDeliveries, delivery.1.slot < slotLimit) ∧
      let reached := deliver (({ contents := {} } : Archive storeOfNumbers), []) gappyDeliveries
      ((taken reached.2).Pairwise fun earlier later =>
        later.hasBlock = true → earlier.blockRoot ≠ later.blockRoot) ∧
      reached.1.record.Scans (taken reached.2) ∧
      (taken reached.2).map Entry.number = [8, 10, 11, 12, 14] ∧
      reached.1.record.closest? ⟨1⟩ 4 = .ok (some ⟨⟨9⟩, ⟨1⟩, ⟨14⟩⟩) ∧
      reached.1.record.byBlock? ⟨1⟩ = none := by
  have small : ∀ delivery ∈ gappyDeliveries, delivery.1.slot < slotLimit := by decide
  have fresh : (taken (deliver (({ contents := {} } : Archive storeOfNumbers), [])
      gappyDeliveries).2).Pairwise fun earlier later =>
        later.hasBlock = true → earlier.blockRoot ≠ later.blockRoot := by decide
  exact ⟨small, fresh, look_ups_scan_accepted storeOfNumbers {} gappyDeliveries small fresh,
    by decide, by decide, by decide⟩

end Archive

end BeaconChain
