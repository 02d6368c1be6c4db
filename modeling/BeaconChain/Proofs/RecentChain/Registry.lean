import BeaconChain.Proofs.BlockTree.Chronicle
import BeaconChain.Proofs.RecentChain.Timeline

/-!
# Names and roots

A block root has one parent and one slot, and a state root belongs to one node.  In a sequence
of entries that begins with a block the reference of an entry then tells whether it is one, and
neither a reference nor a state root occurs twice.
-/

namespace BeaconChain

variable {State Block Context : Type} {rules : Rules State Block Context}
  {anchor entry other : Entry State Context} {line : List (Entry State Context)}

/-- Where entries come from: the parent and the slot of every block root, and the node of every
state root. -/
structure Registry where
  pedigree : Pedigree
  node : Root → NodeRef

/-- The number of the step of a block. -/
def Registry.blockNumber (registry : Registry) (root : Root) : Nat :=
  2 * registry.pedigree.slot root + 1

/-- An entry has the roots under which it is registered. -/
structure Registry.Lists (registry : Registry) (entry : Entry State Context) : Prop where
  admits : ∀ parentRoot, entry.parentRoot = some parentRoot →
    registry.pedigree.Admits parentRoot entry.blockRoot entry.slot
  node : registry.node entry.stateRoot = entry.ref

theorem Registry.Lists.slot_eq
    {registry : Registry} (listed : registry.Lists entry) (hasBlock : entry.hasBlock = true) :
    entry.slot = registry.pedigree.slot entry.blockRoot := by
  obtain ⟨parentRoot, parent⟩ := Option.isSome_iff_exists.1 hasBlock
  exact (listed.admits parentRoot parent).2

/-- A sequence that begins with a block, and whose entries are registered. -/
structure Registry.Line (registry : Registry) (rules : Rules State Block Context)
    (anchor : Entry State Context) (line : List (Entry State Context)) : Prop where
  gapless : Gapless rules anchor line
  begins : anchor.hasBlock = true
  listed : ∀ entry ∈ line, registry.Lists entry

namespace Registry.Line

variable {registry : Registry}

theorem of_concat (recorded : registry.Line rules anchor (line ++ [entry])) :
    registry.Line rules anchor line ∧ registry.Lists entry ∧
      Continues rules anchor line entry := by
  obtain ⟨gapless, continues⟩ := recorded.gapless.of_concat
  exact ⟨⟨gapless, recorded.begins, fun other member =>
      recorded.listed other (List.mem_append_left _ member)⟩,
    recorded.listed entry (List.mem_append_right _ List.mem_cons_self), continues⟩

/-- How the last entry came in: as a block, or in the slot behind an earlier entry. -/
theorem concat_cases (recorded : registry.Line rules anchor (line ++ [entry])) :
    entry.hasBlock = true ∨ entry.hasBlock = false ∧ ∃ last, line.getLast? = some last ∧
      entry.blockRoot = last.blockRoot ∧ entry.slot = last.slot + 1 := by
  obtain ⟨_, _, continues⟩ := recorded.of_concat
  unfold Continues at continues
  split at continues
  next =>
    subst continues
    exact .inl recorded.begins
  next last isLast =>
    cases continues with
    | slot sameRoot nextSlot empty =>
      exact .inr ⟨Entry.hasBlock_of_parentRoot_eq_none empty, last, isLast, sameRoot, nextSlot⟩
    | block _ _ _ _ parent => exact .inl (Entry.hasBlock_of_parentRoot_eq_some parent)

/-- The reference of an entry tells whether it is that of a block. -/
theorem slot_spec (recorded : registry.Line rules anchor line) :
    ∀ entry ∈ line, registry.pedigree.slot entry.blockRoot ≤ entry.slot ∧
      (entry.hasBlock = true ↔ entry.slot = registry.pedigree.slot entry.blockRoot) := by
  induction line using List.reverseRecOn with
  | nil => simp
  | append_singleton line last ih =>
    obtain ⟨before, listed, _⟩ := recorded.of_concat
    intro entry member
    rcases List.mem_append.1 member with old | new
    · exact ih before entry old
    obtain rfl := List.mem_singleton.1 new
    rcases recorded.concat_cases with hasBlock | ⟨empty, previous, isLast, sameRoot, nextSlot⟩
    · have slotOf := listed.slot_eq hasBlock
      exact ⟨Nat.le_of_eq slotOf.symm, fun _ => slotOf, fun _ => hasBlock⟩
    · have notLater := (ih before previous (List.mem_of_getLast? isLast)).1
      rw [sameRoot, empty]
      exact ⟨by omega, nofun, fun same => by omega⟩

/-- The entries of a root stand behind its block. -/
theorem number_spec
    (recorded : registry.Line rules anchor line) (member : entry ∈ line) :
    registry.blockNumber entry.blockRoot ≤ entry.number ∧
      (entry.hasBlock = true ↔ entry.number = registry.blockNumber entry.blockRoot) := by
  obtain ⟨notLater, isBlock⟩ := recorded.slot_spec entry member
  unfold Registry.blockNumber
  cases hasBlock : entry.hasBlock with
  | true =>
    have slotOf := isBlock.1 hasBlock
    rw [Entry.number_of_hasBlock hasBlock]
    exact ⟨by omega, fun _ => by omega, fun _ => rfl⟩
  | false =>
    have later : entry.slot ≠ registry.pedigree.slot entry.blockRoot := fun same => by
      rw [isBlock.2 same] at hasBlock
      cases hasBlock
    rw [Entry.number_of_empty hasBlock]
    exact ⟨by omega, nofun, fun same => by omega⟩

/-- No reference occurs twice. -/
theorem eq_of_ref_eq
    (recorded : registry.Line rules anchor line) (member : entry ∈ line) (memberToo : other ∈ line)
    (same : entry.ref = other.ref) : entry = other := by
  have sameRoot : entry.blockRoot = other.blockRoot := congrArg NodeRef.root same
  have sameSlot : entry.slot = other.slot := congrArg NodeRef.slot same
  refine eq_of_number_eq recorded.gapless.isChain member memberToo ?_
  have isBlock := (recorded.slot_spec entry member).2
  have isBlockToo := (recorded.slot_spec other memberToo).2
  rw [sameRoot, sameSlot, ← isBlockToo] at isBlock
  rw [Entry.number, Entry.number, sameSlot, Bool.eq_iff_iff.2 isBlock]

theorem eq_of_stateRoot_eq
    (recorded : registry.Line rules anchor line) (member : entry ∈ line) (memberToo : other ∈ line)
    (same : entry.stateRoot = other.stateRoot) : entry = other := by
  refine recorded.eq_of_ref_eq member memberToo ?_
  rw [← (recorded.listed entry member).node, same, (recorded.listed other memberToo).node]

end Registry.Line

end BeaconChain
