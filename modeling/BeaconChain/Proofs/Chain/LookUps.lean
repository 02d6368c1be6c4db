import BeaconChain.Proofs.Archive.RootLookUps
import BeaconChain.Proofs.Archive.Stored
import BeaconChain.Proofs.Chain.Walk
import BeaconChain.Proofs.RecentChain.Departed

/-!
# Look-ups of archived entries

Where roots are registered and the state store is lawful, every entry that the archive has
accepted is found by its roots, with its state, in every later state of the chain.
-/

namespace BeaconChain

variable {preset : Preset} {State Block Context contents : Type}
  {rules : Rules State Block Context} {store : StateStore contents State}

section Registered

variable {registry : Registry} {anchor entry : Entry State Context}
  {entries : List (Entry State Context)} {record : Record}

theorem Follows.succeeds
    {previous next : Entry State Context} (follows : Follows rules previous next) :
    Succeeds previous next :=
  ⟨follows.linkRoot_eq, follows.number_cases⟩

/-- Registered entries are told apart by their roots. -/
theorem Registry.Line.distinguished (recorded : registry.Line rules anchor entries) :
    Distinguished entries where
  isChain := recorded.gapless.isChain.imp fun _ _ => Follows.succeeds
  fresh := by
    refine (increasing_of_isChain recorded.gapless.isChain).imp_of_mem ?_
    intro earlier later member memberToo before hasBlock same
    have behind := (recorded.number_spec member).1
    have atBlock := (recorded.number_spec memberToo).2.1 hasBlock
    rw [same, ← atBlock] at behind
    omega

namespace Record.Scans

theorem byBlock?_eq
    (scans : record.Scans entries) (recorded : registry.Line rules anchor entries)
    (member : entry ∈ entries) (hasBlock : entry.hasBlock = true) :
    record.byBlock? entry.blockRoot = some entry.archived := by
  rw [scans.byBlock, recorded.distinguished.find?_block member hasBlock, Option.map_some]

theorem byStateRoot?_eq
    (scans : record.Scans entries) (recorded : registry.Line rules anchor entries)
    (member : entry ∈ entries) : record.byStateRoot? entry.stateRoot = some entry.archived := by
  have found : entries.find? (fun other => other.stateRoot = entry.stateRoot) = some entry :=
    find?_eq_of_unique member (decide_eq_true rfl) fun other memberToo same =>
      recorded.eq_of_stateRoot_eq memberToo member (of_decide_eq_true same)
  rw [scans.byStateRoot, found, Option.map_some]

theorem byBlockSlot?_eq
    (scans : record.Scans entries) (recorded : registry.Line rules anchor entries)
    (member : entry ∈ entries) (inRange : entry.slot < slotLimit) :
    record.byBlockSlot? entry.blockRoot entry.slot = .ok (some entry.archived) := by
  have found := recorded.distinguished.find?_ref member
  rw [scans.byBlockSlot _ _ inRange]
  exact congrArg (fun found => Except.ok (Option.map Entry.archived found)) found

/-- The entry of a root at or before a slot that has one is that of the slot. -/
theorem closest?_eq
    (scans : record.Scans entries) (recorded : registry.Line rules anchor entries)
    (member : entry ∈ entries) (inRange : entry.slot < slotLimit) :
    ∃ number, number / 2 = entry.slot ∧
      record.closest? entry.blockRoot entry.slot = .ok (some (entry.archivedAt number)) := by
  have bounds := entry.number_bounds
  have here := scans.accepted entry member
  have isStep : entry.number ∈ record.stepsOf entry.blockRoot entry.slot :=
    ⟨bounds.2, _, here, rfl⟩
  rcases scans.closest entry.blockRoot entry.slot inRange with
    ⟨number, greatest, answer⟩ | ⟨none, _⟩
  · obtain ⟨⟨notLater, found, there, ofRoot⟩, above⟩ := greatest
    have notBefore := above isStep
    refine ⟨number, by omega, ?_⟩
    by_cases same : number = entry.number
    · rw [answer, same, here]
      rfl
    · -- the block step of the slot, which has no block of the root
      obtain rfl : number = entry.number + 1 := by omega
      refine answer.trans (congrArg Except.ok (there.trans (congrArg some ?_)))
      refine scans.eq_archivedAt member there fun other memberToo sameStep => ?_
      have boundsToo := other.number_bounds
      have accepted := scans.accepted other memberToo
      rw [sameStep, there, Option.some.injEq] at accepted
      have sameRoot : other.blockRoot = entry.blockRoot := by rw [← ofRoot, accepted]; rfl
      have sameEntry := recorded.distinguished.eq_of_ref_eq member memberToo
        (NodeRef.eq_mk sameRoot (show other.slot = entry.slot by omega))
      rw [sameEntry] at sameStep
      omega
  · rw [none] at isStep
    exact absurd isStep (Set.notMem_empty _)

end Record.Scans

end Registered

namespace Chain

variable {chain start : Chain preset rules store} {log : List (Handover State Context)}
  {anchor entry : Entry State Context} {registry : Registry}

/-- An item is an entry in the eyes of its readers: it has the slot and the roots of the entry, and
leads to its state. -/
structure Presents (chain : Chain preset rules store) (item : ChainEntry State Context)
    (entry : Entry State Context) : Prop where
  slot : item.step.map Step.slot = .ok entry.slot
  blockRoot : item.blockRoot = entry.blockRoot
  stateRoot : item.stateRoot = entry.stateRoot
  state : chain.stateOf item = .ok entry.state

/-- Every look-up by the roots of an entry leads to it. -/
structure Finds (chain : Chain preset rules store) (entry : Entry State Context) : Prop where
  byBlockSlot : ∃ item, chain.byBlockSlot? entry.blockRoot entry.slot = .ok (some item) ∧
    chain.Presents item entry
  byStateRoot : ∃ item, chain.byStateRoot? entry.stateRoot = some item ∧ chain.Presents item entry
  closest : ∃ item, chain.closest? entry.blockRoot entry.slot = .ok (some item) ∧
    chain.Presents item entry
  byBlock : entry.hasBlock = true →
    ∃ item, chain.byBlock? entry.blockRoot = some item ∧ chain.Presents item entry

/-- A block whose slot is in range, and which is registered with the entries that it adds, or
contents with all the states that the store has. -/
def Call.Registered (registry : Registry) (chain : Chain preset rules store) :
    Call Block contents → Prop
  | .addBlock block interrupted =>
    rules.blockSlot block < slotLimit ∧
      RecentChain.Registers registry chain.recent block interrupted
  | .restock contents => ∀ root state,
    store.get root chain.archive.contents = .ok (some state) →
      store.get root contents = .ok (some state)
  | _ => True

/-- The archive has what the recent chain has left behind. -/
structure Migrated (registry : Registry) (anchor : Entry State Context)
    (chain : Chain preset rules store) (log : List (Handover State Context)) : Prop
    extends Joined anchor chain log where
  leftBehind : RecentChain.LeftBehind registry anchor.ref chain.recent log
  complete : Archive.Complete registry rules anchor (chain.archive, log)

namespace Migrated

theorem addBlock
    (migrated : Migrated registry anchor chain log) (lawful : store.Lawful)
    (begins : anchor.hasBlock = true) {block : Block} {interrupted : List Nat → Bool}
    (registered : (Call.addBlock block interrupted).Registered registry chain) :
    Migrated registry anchor (chain.addBlock block interrupted).2
      (chain.noted log (.addBlock block interrupted)) where
  toJoined := migrated.toJoined.addBlock interrupted registered.1
  leftBehind := migrated.leftBehind.addBlock_noted migrated.goesOn.stocked block interrupted
    Archive.receive chain.archive (fun _ notLater => Nat.lt_of_le_of_lt notLater registered.1)
    registered.2
  complete := by
    have kept := RecentChain.addBlock_keeps chain.recent block interrupted
      (watching Archive.receive) (chain.archive, log) (Archive.complete_watching lawful begins)
      migrated.complete
    have same := RecentChain.addBlock_watching_state chain.recent block interrupted
      Archive.receive chain.archive log
    simp only [Chain.addBlock, noted, RecentChain.noted]
    rw [← same]
    exact kept

theorem restock
    (migrated : Migrated registry anchor chain log) {contents : contents}
    (registered : (Call.restock contents).Registered registry chain) :
    Migrated registry anchor (chain.perform (.restock contents)) log where
  goesOn := migrated.goesOn
  continuous := migrated.continuous
  leftBehind := migrated.leftBehind
  complete orderly logged entry member :=
    registered _ _ (migrated.complete orderly logged entry member)

/-- The recent chain finds nothing by the roots of an archived entry, and the archive finds the
entry. -/
theorem finds
    (migrated : Migrated registry anchor chain log) (begins : anchor.hasBlock = true)
    (member : entry ∈ taken log) : chain.Finds entry := by
  obtain ⟨_, departed⟩ := migrated.leftBehind
  obtain ⟨_, lineage⟩ := migrated.goesOn
  have recorded : registry.Line rules anchor (taken log) :=
    ⟨lineage.orderly.gapless, begins, departed.taken_lists⟩
  have inRange := lineage.orderly.slot_inRange
  have scans := (migrated.continuous lineage.orderly).1.scans recorded.distinguished inRange
  have stores : chain.archive.Stores (taken log) :=
    migrated.complete lineage.orderly departed.logged
  have presents : ∀ number, number / 2 = entry.slot →
      chain.Presents (.archived (entry.archivedAt number)) entry := fun number slot =>
    ⟨congrArg Except.ok slot, rfl, rfl, stores.state_eq member⟩
  have atEntry : entry.number / 2 = entry.slot := by
    have bounds := entry.number_bounds
    omega
  have found := presents entry.number atEntry
  refine ⟨⟨_, ?_, found⟩, ⟨_, ?_, found⟩, ?_, fun hasBlock => ⟨_, ?_, found⟩⟩
  · simp only [byBlockSlot?, migrated.leftBehind.byBlockSlot?_eq_none lineage.toStocked member,
      scans.byBlockSlot?_eq recorded member (inRange entry member)]
    rfl
  · simp only [byStateRoot?, migrated.leftBehind.byStateRoot?_eq_none lineage.toStocked member,
      scans.byStateRoot?_eq recorded member]
    rfl
  · obtain ⟨number, slot, archived⟩ := scans.closest?_eq recorded member (inRange entry member)
    refine ⟨_, ?_, presents number slot⟩
    simp only [closest?, migrated.leftBehind.closest?_eq_none lineage.toStocked member, archived]
    rfl
  · simp only [byBlock?, migrated.leftBehind.byBlock?_eq_none lineage.toStocked member hasBlock,
      scans.byBlock?_eq recorded member hasBlock]
    rfl

end Migrated

theorem Run.migrated
    (run : Run (fun chain call => call.Registered registry chain) start chain log)
    (lawful : store.Lawful) (begins : anchor.hasBlock = true)
    (started : Migrated registry anchor start []) : Migrated registry anchor chain log :=
  run.keeps (Migrated registry anchor) started
    (fun _ _ _ migrated recounts =>
      { migrated with
        goesOn := migrated.goesOn.recounts recounts
        leftBehind := migrated.leftBehind.recounts recounts })
    (fun _ _ pin _ migrated =>
      { migrated with
        goesOn := migrated.goesOn.setPin pin
        leftBehind := migrated.leftBehind.setPin pin })
    (fun _ _ migrated => { migrated with })
    (fun _ _ _ registered migrated => migrated.restock registered)
    (fun _ _ _ _ registered migrated => migrated.addBlock lawful begins registered)

/-- What was offered to the archive stays in the log. -/
theorem noted_prefix (chain : Chain preset rules store) (log : List (Handover State Context))
    (call : Call Block contents) : log <+: chain.noted log call := by
  have longer : ∀ (entry : Entry State Context) (canonical : Bool)
      (watched : Archive store × List (Handover State Context)), log <+: watched.2 →
      log <+: (watching Archive.receive entry canonical watched).2.2 :=
    fun _ _ _ earlier => earlier.trans (List.prefix_append _ _)
  cases call with
  | addBlock block interrupted =>
    exact RecentChain.addBlock_keeps chain.recent block interrupted (watching Archive.receive)
      (chain.archive, log) longer (List.prefix_refl log)
  | _ => exact List.prefix_refl log

theorem ofAnchor?_migrated
    {limits : Limits} {root parentRoot : Root} {state : State} {before : contents}
    (started : ofAnchor? limits root parentRoot state before = .ok start)
    (inRange : rules.stateSlot state < slotLimit)
    (admitted : registry.pedigree.Admits parentRoot root (rules.stateSlot state))
    (node : registry.node (rules.stateRoot state) = ⟨root, rules.stateSlot state⟩) :
    ∃ anchor, anchor.hasBlock = true ∧ Migrated registry anchor start [] := by
  obtain ⟨anchor, isAnchor, joined⟩ := ofAnchor?_joined started inRange
  obtain ⟨recent, recentStarted, made⟩ := exists_of_bind_eq_ok started
  cases made
  obtain ⟨oldest, isOldest, begins, leftBehind⟩ :=
    RecentChain.ofAnchor?_leftBehind recentStarted admitted node
  obtain rfl := Option.some.inj (isOldest.symm.trans isAnchor)
  exact ⟨oldest, begins, { joined with leftBehind, complete := Archive.complete_start before }⟩

end Chain

/-- In every run of a whole chain with a lawful state store, whose slots are in range and whose
roots are registered, the log of what the archive was offered only grows, and the archive loses
nothing: every entry that it has accepted is found by its block root and slot, by its state root,
as the closest one to its slot and, if it is a block, by its block root, and its state is found
with it. -/
theorem archived_entries_found
    {registry : Registry} {limits : Limits} {root parentRoot : Root} {state : State}
    {before : contents} {start chain : Chain preset rules store}
    {log : List (Handover State Context)} (lawful : store.Lawful)
    (started : Chain.ofAnchor? limits root parentRoot state before = .ok start)
    (inRange : rules.stateSlot state < slotLimit)
    (admitted : registry.pedigree.Admits parentRoot root (rules.stateSlot state))
    (node : registry.node (rules.stateRoot state) = ⟨root, rules.stateSlot state⟩)
    (run : Chain.Run (fun chain call => call.Registered registry chain) start chain log) :
    (∀ call : Chain.Call Block contents, log <+: chain.noted log call) ∧
      ∀ entry ∈ taken log, chain.Finds entry := by
  obtain ⟨anchor, begins, migrated⟩ := Chain.ofAnchor?_migrated started inRange admitted node
  exact ⟨chain.noted_prefix log, fun entry member =>
    (run.migrated lawful begins migrated).finds begins member⟩

/-- The registry of some scripted blocks with roots and slots of one byte, above the anchor. -/
def scriptedRegistry (blocks : List ScriptedBlock) : Registry where
  pedigree := {
    parent := fun root => ((blocks.find? (·.root = root)).map (·.parentRoot)).getD ⟨9⟩
    slot := fun root => ((blocks.find? (·.root = root)).map (·.slot)).getD 0 }
  node root := ⟨⟨(root.bits ^^^ 0x5a) &&& 0xff⟩, (root.bits >>> 248).toNat⟩

theorem RecentChain.Registers.of_all
    {registry : Registry} {chain : RecentChain preset rules} {block : Block}
    {interrupted : List Nat → Bool}
    (admits : registry.pedigree.Admits (rules.blockParent block) (rules.blockRoot block)
      (rules.blockSlot block))
    (all : (chain.draft block interrupted).map (fun draft =>
      (draft.replayed ++ [draft.block]).all fun entry =>
        registry.node entry.stateRoot = entry.ref) = .ok true) :
    RecentChain.Registers registry chain block interrupted := by
  refine ⟨admits, fun draft _ drafted entry member => ?_⟩
  rw [drafted] at all
  exact of_decide_eq_true (List.all_eq_true.1 (Except.ok.inj all) entry member)

theorem archived_entries_found_walkedBlocks :
    ∃ (chain : Chain .minimal (Scripted.rules []) StateStore.memory)
      (log : List (Handover ScriptedState Nat)),
      (taken log).map Entry.ref =
        (List.range 7).map (⟨⟨10⟩, ·⟩) ++ [⟨⟨11⟩, 6⟩, ⟨⟨11⟩, 7⟩] ∧
      ∀ entry ∈ taken log, chain.Finds entry := by
  have run : Chain.Run (fun chain call => call.Registered (scriptedRegistry walkedBlocks) chain)
      trialStart _ _ :=
    .call (.call .start (.addBlock walkedBlocks[0] fun _ => false)
        ⟨by decide, .of_all ⟨rfl, rfl⟩ (by decide +kernel)⟩)
      (.addBlock walkedBlocks[1] fun _ => false)
        ⟨by decide, .of_all ⟨rfl, rfl⟩ (by decide +kernel)⟩
  have started : Chain.ofAnchor? .minimal ⟨10⟩ ⟨9⟩ trialAnchor {} = .ok trialStart := rfl
  have found := (archived_entries_found StateStore.lawful_memory started (by decide) ⟨rfl, rfl⟩
    (by decide) run).2
  exact ⟨_, _, by decide, found⟩

end BeaconChain
