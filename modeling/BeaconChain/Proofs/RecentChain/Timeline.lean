import BeaconChain.Proofs.RecentChain.Handover

/-!
# Entries on the time line

Entries that follow one another stand at increasing steps.  Only the block step of an empty
slot is passed over, where another empty slot follows.  At every step there is an entry in
effect: the last one that is not later.
-/

namespace BeaconChain

variable {State Block Context : Type} {rules : Rules State Block Context}
  {previous next entry first last : Entry State Context}
  {entries others line : List (Entry State Context)}

/-- The number of the step of an entry. -/
def Entry.number (entry : Entry State Context) : Nat :=
  2 * entry.slot + entry.hasBlock.toNat

theorem Entry.number_of_hasBlock (hasBlock : entry.hasBlock = true) :
    entry.number = 2 * entry.slot + 1 := by
  simp [number, hasBlock]

theorem Entry.number_of_empty (empty : entry.hasBlock = false) : entry.number = 2 * entry.slot := by
  simp [number, empty]

theorem Entry.hasBlock_of_parentRoot_eq_some {root : Root} (parent : entry.parentRoot = some root) :
    entry.hasBlock = true := by
  simp [hasBlock, parent]

theorem Entry.hasBlock_of_parentRoot_eq_none (empty : entry.parentRoot = none) :
    entry.hasBlock = false := by
  simp [hasBlock, empty]

theorem Entry.number_bounds (entry : Entry State Context) :
    2 * entry.slot ≤ entry.number ∧ entry.number ≤ 2 * entry.slot + 1 := by
  have small := Bool.toNat_le entry.hasBlock
  unfold number
  omega

/-- The block step of an empty slot is passed over if another empty slot follows. -/
theorem Follows.number_eq (follows : Follows rules previous next) :
    next.number = previous.number + if !previous.hasBlock && !next.hasBlock then 2 else 1 := by
  cases follows with
  | slot _ nextSlot empty =>
    have noBlock := Entry.hasBlock_of_parentRoot_eq_none empty
    rw [Entry.number_of_empty noBlock, noBlock, nextSlot]
    cases hasBlock : previous.hasBlock with
    | true =>
      rw [Entry.number_of_hasBlock hasBlock]
      simp only [Bool.not_true, Bool.false_and, Bool.false_eq_true, if_false]
      omega
    | false =>
      rw [Entry.number_of_empty hasBlock]
      simp only [Bool.not_false, Bool.and_self, if_true]
      omega
  | block _ _ empty _ parent sameSlot =>
    have hasBlock := Entry.hasBlock_of_parentRoot_eq_some parent
    rw [Entry.number_of_hasBlock hasBlock, hasBlock, sameSlot,
      Entry.number_of_empty (Entry.hasBlock_of_parentRoot_eq_none empty)]
    simp

theorem Follows.number_cases (follows : Follows rules previous next) :
    next.number = previous.number + 1 ∨
      next.number = previous.number + 2 ∧ previous.hasBlock = false ∧ next.hasBlock = false := by
  have number := follows.number_eq
  split at number
  next both => exact .inr ⟨number, by simpa using both⟩
  next => exact .inl number

/-- An entry links to the block of the one before it. -/
theorem Follows.linkRoot_eq (follows : Follows rules previous next) :
    next.linkRoot = previous.blockRoot := by
  cases follows with
  | slot sameRoot _ empty => rw [Entry.linkRoot, empty, Option.getD_none, sameRoot]
  | block _ _ _ _ parent => rw [Entry.linkRoot, parent, Option.getD_some]

theorem Follows.slot_le (follows : Follows rules previous next) :
    previous.slot ≤ next.slot ∧ next.slot ≤ previous.slot + 1 := by
  cases follows with
  | slot _ nextSlot => omega
  | block _ _ _ _ _ sameSlot => omega

/-- Entries that come one after the other pass over no step but the block step of an empty slot,
where another empty slot follows. -/
class Successive (comes : Entry State Context → Entry State Context → Prop) : Prop where
  number_cases {previous next : Entry State Context} : comes previous next →
    next.number = previous.number + 1 ∨
      next.number = previous.number + 2 ∧ previous.hasBlock = false ∧ next.hasBlock = false

instance : Successive (Follows rules) where
  number_cases follows := follows.number_cases

variable {comes : Entry State Context → Entry State Context → Prop} [Successive comes]

theorem number_lt_of_comes (follows : comes previous next) : previous.number < next.number := by
  rcases Successive.number_cases follows with one | ⟨two, _⟩
  · omega
  · omega

/-- The entries of a sequence stand at increasing steps. -/
theorem increasing_of_isChain (isChain : line.IsChain comes) :
    line.Pairwise fun earlier later => earlier.number < later.number := by
  have chained : line.IsChain fun earlier later => earlier.number < later.number :=
    isChain.imp fun _ _ follows => number_lt_of_comes follows
  exact @List.IsChain.pairwise _ _ _ ⟨Nat.lt_trans⟩ chained

theorem number_le_of_head?
    (isChain : line.IsChain comes) (isFirst : line.head? = some first) :
    ∀ entry ∈ line, first.number ≤ entry.number := by
  obtain ⟨rest, rfl⟩ := List.head?_eq_some_iff.1 isFirst
  intro entry member
  rcases List.mem_cons.1 member with rfl | behind
  · exact Nat.le_refl _
  · exact Nat.le_of_lt (List.rel_of_pairwise_cons (increasing_of_isChain isChain) behind)

theorem number_le_of_getLast?
    (isChain : line.IsChain comes) (isLast : line.getLast? = some last) :
    ∀ entry ∈ line, entry.number ≤ last.number := by
  obtain ⟨before, rfl⟩ := List.getLast?_eq_some_iff.1 isLast
  intro entry member
  rcases List.mem_append.1 member with front | isLast
  · exact Nat.le_of_lt ((List.pairwise_append.1 (increasing_of_isChain isChain)).2.2
      entry front last List.mem_cons_self)
  · rw [List.mem_singleton.1 isLast]

/-- The last of the entries that are not behind a step. -/
def latestAt? (entries : List (Entry State Context)) (number : Nat) :
    Option (Entry State Context) :=
  (entries.filter fun entry => entry.number ≤ number).getLast?

variable {number : Nat}

theorem latestAt?_append :
    latestAt? (entries ++ others) number =
      (latestAt? others number).or (latestAt? entries number) := by
  simp [latestAt?, List.getLast?_append]

theorem latestAt?_concat_of_le (notLater : entry.number ≤ number) :
    latestAt? (entries ++ [entry]) number = some entry := by
  simp [latestAt?, notLater]

theorem latestAt?_concat_of_lt (later : number < entry.number) :
    latestAt? (entries ++ [entry]) number = latestAt? entries number := by
  simp [latestAt?, Nat.not_le.2 later]

theorem latestAt?_of_last
    (isLast : entries.getLast? = some last) (notLater : last.number ≤ number) :
    latestAt? entries number = some last := by
  obtain ⟨before, rfl⟩ := List.getLast?_eq_some_iff.1 isLast
  exact latestAt?_concat_of_le notLater

theorem latestAt?_eq_none (later : ∀ entry ∈ entries, number < entry.number) :
    latestAt? entries number = none := by
  have none : entries.filter (fun entry => entry.number ≤ number) = [] :=
    List.filter_eq_nil_iff.2 fun entry member => by simpa using later entry member
  rw [latestAt?, none]
  rfl

theorem mem_of_latestAt? (found : latestAt? entries number = some entry) :
    entry ∈ entries ∧ entry.number ≤ number := by
  have member := List.mem_of_getLast? found
  simpa using member

/-- The entry in effect is not earlier than any other that is not behind the step. -/
theorem number_le_of_latestAt?
    (isChain : line.IsChain comes) (found : latestAt? line number = some entry)
    (member : next ∈ line) (notLater : next.number ≤ number) : next.number ≤ entry.number := by
  have increasing := (increasing_of_isChain isChain).filter fun entry => entry.number ≤ number
  obtain ⟨before, whole⟩ := List.getLast?_eq_some_iff.1 found
  have inFront : next ∈ before ++ [entry] :=
    whole ▸ List.mem_filter.2 ⟨member, by simpa using notLater⟩
  rw [whole] at increasing
  rcases List.mem_append.1 inFront with earlier | isEntry
  · exact Nat.le_of_lt
      ((List.pairwise_append.1 increasing).2.2 next earlier entry List.mem_cons_self)
  · rw [List.mem_singleton.1 isEntry]

/-- An entry stands at a step or before it, and those after the entry stand behind the step. -/
structure InEffect (line : List (Entry State Context)) (number : Nat)
    (before : List (Entry State Context)) (entry : Entry State Context)
    (after : List (Entry State Context)) : Prop where
  split : line = before ++ entry :: after
  notLater : entry.number ≤ number
  behind : ∀ later ∈ after, number < later.number

namespace InEffect

variable {before after : List (Entry State Context)}

theorem latestAt?_eq (inEffect : InEffect line number before entry after) :
    latestAt? line number = some entry := by
  have whole : line = (before ++ [entry]) ++ after := by simp [inEffect.split]
  rw [whole, latestAt?_append, latestAt?_eq_none inEffect.behind,
    latestAt?_concat_of_le inEffect.notLater, Option.none_or]

/-- Entries behind the step change nothing. -/
theorem append
    (inEffect : InEffect line number before entry after)
    (later : ∀ other ∈ others, number < other.number) :
    InEffect (line ++ others) number before entry (after ++ others) where
  split := by simp [inEffect.split]
  notLater := inEffect.notLater
  behind other member := (List.mem_append.1 member).elim (inEffect.behind other) (later other)

/-- The step of the entry in effect, unless the slot of the entry has no block. -/
theorem number_cases
    (inEffect : InEffect line number before entry after) (isChain : line.IsChain comes)
    (isLast : line.getLast? = some last) (notBehind : number ≤ last.number) :
    entry.number = number ∨
      number = 2 * entry.slot + 1 ∧ entry.hasBlock = false ∧ after ≠ [] := by
  have notLater := inEffect.notLater
  rw [inEffect.split] at isChain isLast
  cases after with
  | nil =>
    obtain rfl : entry = last := by simpa using isLast
    exact .inl (by omega)
  | cons next rest =>
    have follows := (List.isChain_append_cons_cons.1 isChain).2.1
    have later := inEffect.behind next List.mem_cons_self
    rcases Successive.number_cases follows with one | ⟨two, empty, _⟩
    · exact .inl (by omega)
    · have even := Entry.number_of_empty empty
      by_cases same : entry.number = number
      · exact .inl same
      · exact .inr ⟨by omega, empty, nofun⟩

theorem earlier
    (inEffect : InEffect line number before entry after) (isChain : line.IsChain comes) :
    ∀ other ∈ before, other.number < entry.number := by
  have increasing := increasing_of_isChain isChain
  rw [inEffect.split, List.pairwise_append] at increasing
  exact fun other member => increasing.2.2 other member entry List.mem_cons_self

end InEffect

/-- From the first entry on there is an entry in effect at every step. -/
theorem exists_inEffect (isFirst : line.head? = some first) (notBefore : first.number ≤ number) :
    ∃ before entry after, InEffect line number before entry after := by
  induction line using List.reverseRecOn with
  | nil => cases isFirst
  | append_singleton front last ih =>
    by_cases passed : last.number ≤ number
    · exact ⟨front, last, [], rfl, passed, by simp⟩
    · have notAlone : front ≠ [] := by
        rintro rfl
        cases isFirst
        exact passed notBefore
      rw [List.head?_append_of_ne_nil _ notAlone] at isFirst
      obtain ⟨before, entry, after, inEffect⟩ := ih isFirst
      refine ⟨before, entry, after ++ [last], by simp [inEffect.split], inEffect.notLater, ?_⟩
      intro later member
      rcases List.mem_append.1 member with old | new
      · exact inEffect.behind later old
      · rw [List.mem_singleton.1 new]
        omega

/-- Every entry is in effect at its own step. -/
theorem exists_inEffect_of_mem (isChain : line.IsChain comes) (member : entry ∈ line) :
    ∃ before after, InEffect line entry.number before entry after := by
  obtain ⟨before, after, rfl⟩ := List.append_of_mem member
  have increasing := (List.pairwise_append.1 (increasing_of_isChain isChain)).2.1
  exact ⟨before, after, rfl, Nat.le_refl _, fun later => List.rel_of_pairwise_cons increasing⟩

theorem latestAt?_of_mem (isChain : line.IsChain comes) (member : entry ∈ line) :
    latestAt? line entry.number = some entry := by
  obtain ⟨_, _, inEffect⟩ := exists_inEffect_of_mem isChain member
  exact inEffect.latestAt?_eq

/-- No two entries stand at one step. -/
theorem eq_of_number_eq
    (isChain : line.IsChain comes) (member : entry ∈ line) (memberToo : next ∈ line)
    (same : entry.number = next.number) : entry = next := by
  have here := latestAt?_of_mem isChain member
  rw [same, latestAt?_of_mem isChain memberToo] at here
  exact (Option.some.inj here).symm

/-- What is in effect at a step and at the next one: an entry and the one that follows it, or
the same entry, if its slot has no block. -/
inductive Advances (rules : Rules State Block Context) (line : List (Entry State Context))
    (number : Nat) (previous next : Entry State Context) : Prop
  | follows (follows : Follows rules previous next) (here : next.number = number + 1)
  | gap (same : next = previous) (here : number = 2 * previous.slot)
    (noBlock : ∀ entry ∈ line, entry.slot = previous.slot → entry.hasBlock = false)

theorem exists_advances
    (isChain : line.IsChain (Follows rules)) (isFirst : line.head? = some first)
    (isLast : line.getLast? = some last) (notBefore : first.number ≤ number)
    (notBehind : number + 1 ≤ last.number) :
    ∃ previous next, latestAt? line number = some previous ∧
      latestAt? line (number + 1) = some next ∧ Advances rules line number previous next := by
  obtain ⟨before, previous, after, inEffect⟩ := exists_inEffect isFirst notBefore
  have split := inEffect.split
  cases after with
  | nil =>
    obtain rfl : previous = last := by simpa [split] using isLast
    have notLater := inEffect.notLater
    omega
  | cons next rest =>
    have chained := isChain
    have increasing := increasing_of_isChain isChain
    rw [split] at chained increasing
    have follows := (List.isChain_append_cons_cons.1 chained).2.1
    have later := inEffect.behind next List.mem_cons_self
    have behindNext : ∀ other ∈ rest, next.number < other.number :=
      (List.pairwise_cons.1 (List.pairwise_cons.1 (List.pairwise_append.1 increasing).2.1).2).1
    by_cases reached : next.number ≤ number + 1
    · have here : next.number = number + 1 := by omega
      have nextInEffect : InEffect line (number + 1) (before ++ [previous]) next rest :=
        ⟨by simp [split], reached, fun other member => here ▸ behindNext other member⟩
      exact ⟨previous, next, inEffect.latestAt?_eq, nextInEffect.latestAt?_eq,
        .follows follows here⟩
    · have stays : InEffect line (number + 1) before previous (next :: rest) := by
        refine ⟨split, Nat.le_succ_of_le inEffect.notLater, fun other member => ?_⟩
        rcases List.mem_cons.1 member with rfl | member
        · omega
        · have := behindNext other member
          omega
      have here := (stays.number_cases isChain isLast notBehind).resolve_left fun same => by
        have := inEffect.notLater
        omega
      refine ⟨previous, previous, inEffect.latestAt?_eq, stays.latestAt?_eq,
        .gap rfl (by omega) fun entry member sameSlot => ?_⟩
      -- the entries around stand in other slots
      have bounds := entry.number_bounds
      have even := Entry.number_of_empty here.2.1
      rw [split] at member
      rcases List.mem_append.1 member with front | back
      · have := inEffect.earlier isChain entry front
        omega
      · rcases List.mem_cons.1 back with rfl | behind
        · exact here.2.1
        · have := stays.behind entry behind
          omega

end BeaconChain
