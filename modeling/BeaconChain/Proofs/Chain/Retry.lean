import BeaconChain.Proofs.Chain.Migration
import BeaconChain.Proofs.RecentChain.Parting
import BeaconChain.Proofs.RecentChain.Rejoined

/-!
# Migrations that are retried

A migration that the state store refuses is taken up again by the next block.  Once it comes to
its end, the chain has archived what it would have archived without any failure, and chooses the
same head.  Its entries are the same as well, but for stale ones that were not swept.
-/

namespace BeaconChain

open BlockTree ForkChoice

variable {preset : Preset} {State Block Context contents : Type}
  {rules : Rules State Block Context} {store : StateStore contents State}

namespace Archive

/-- The archive has what its log says, and refuses only what the store does not take. -/
structure Faithful (rules : Rules State Block Context) (anchor : Entry State Context)
    (watched : Archive store × List (Handover State Context)) : Prop where
  continuous : Continuous rules anchor watched
  transcribes : Transcribes watched

theorem faithful_start (anchor : Entry State Context) (contents : contents) :
    Faithful rules anchor
      (({ contents := contents } : Archive store), ([] : List (Handover State Context))) :=
  ⟨continuous_start contents, rfl⟩

theorem faithful_watching
    {anchor : Entry State Context} (entry : Entry State Context) (canonical : Bool)
    (watched : Archive store × List (Handover State Context))
    (faithful : Faithful rules anchor watched) :
    Faithful rules anchor (watching receive entry canonical watched).2 :=
  ⟨continuous_watching entry canonical watched faithful.continuous,
    transcribes_watching entry canonical watched faithful.transcribes⟩

theorem Faithful.restock
    {anchor : Entry State Context} {archive : Archive store} {log : List (Handover State Context)}
    (faithful : Faithful rules anchor (archive, log)) (supplied : contents) :
    Faithful rules anchor (({ archive with contents := supplied } : Archive store), log) :=
  ⟨faithful.continuous, faithful.transcribes⟩

theorem lenient_receive : Lenient (receive : EntryReceiver State Context (Archive store)) :=
  fun _ _ => rfl

end Archive

namespace Chain

variable {chain other start : Chain preset rules store}
  {log logAhead : List (Handover State Context)} {anchor : Entry State Context}
  {pedigree : Pedigree} {floor : Nat} {gone : NodeRef → Prop}
  {justified finalized : Checkpoint} {tip : Root} {block : Block} {draft : Draft State Context}

theorem Run.faithful
    {permits : Chain preset rules store → Call Block contents → Prop}
    (run : Run permits start chain log)
    (begins : Archive.Faithful rules anchor (start.archive, [])) :
    Archive.Faithful rules anchor (chain.archive, log) :=
  run.keeps (fun chain log => Archive.Faithful rules anchor (chain.archive, log)) begins
    (fun _ _ _ faithful _ => faithful) (fun _ _ _ _ faithful => faithful)
    (fun _ _ faithful => faithful) (fun _ _ contents _ faithful => faithful.restock contents)
    (fun chain log block interrupted _ faithful => by
      have kept := RecentChain.addBlock_keeps chain.recent block interrupted
        (watching Archive.receive) (chain.archive, log) Archive.faithful_watching faithful
      have same := RecentChain.addBlock_watching_state chain.recent block interrupted
        Archive.receive chain.archive log
      simp only [Chain.addBlock, noted, RecentChain.noted]
      rw [← same]
      exact kept)

/-- A call whose block agrees with a pedigree. -/
def Call.Agrees (rules : Rules State Block Context) (pedigree : Pedigree) :
    Call Block contents → Prop
  | .addBlock block _ =>
    pedigree.Admits (rules.blockParent block) (rules.blockRoot block) (rules.blockSlot block)
  | _ => True

theorem Run.exists_regular
    {limits : Limits} {root parentRoot : Root} {state : State} {before : contents}
    (run : Run (fun _ call => call.InRange rules ∧ call.Agrees rules pedigree) start chain log)
    (started : ofAnchor? limits root parentRoot state before = .ok start)
    (inRange : rules.stateSlot state < slotLimit)
    (admitted : pedigree.Admits parentRoot root (rules.stateSlot state))
    (nonzero : (⟨root, rules.stateSlot state⟩ : NodeRef) ≠ .zero) :
    ∃ anchor, RecentChain.Regular pedigree anchor (rules.stateSlot state) chain.recent log ∧
      Archive.Faithful rules anchor (chain.archive, log) := by
  obtain ⟨recent, recentStarted, made⟩ := exists_of_bind_eq_ok started
  cases made
  obtain ⟨anchor, begins⟩ := RecentChain.ofAnchor?_regular recentStarted inRange admitted nonzero
  have recentRun : RecentChain.Run
      (fun _ call => call.InRange rules ∧ call.Agrees rules pedigree) recent chain.recent log := by
    refine run.recent (fun _ _ _ permitted => permitted) fun call noBlock => ?_
    cases call with
    | addBlock block interrupted receive state => exact absurd rfl (noBlock _ _ _ _)
    | _ => exact ⟨trivial, trivial⟩
  exact ⟨anchor, recentRun.regular begins, run.faithful (Archive.faithful_start anchor before)⟩

/-- An attempt to add a block, with what the state store holds by then. -/
def attempt (chain : Chain preset rules store) (contents : contents) (block : Block) :
    Except Error (Entry State Context) × Chain preset rules store :=
  (chain.perform (.restock contents)).addBlock block fun _ => false

/-- The chain after attempts to add blocks, one after another. -/
def attempts (chain : Chain preset rules store) (supply : Block → contents) (blocks : List Block) :
    Chain preset rules store :=
  blocks.foldl (fun chain block => (chain.attempt (supply block) block).2) chain

/-- What the archive is offered in an attempt, and its answers. -/
def offers (chain : Chain preset rules store) (contents : contents) (block : Block) :
    List (Handover State Context) :=
  (chain.perform (.restock contents)).noted [] (.addBlock block fun _ => false)

/-- The state store refuses nothing in an attempt. -/
def Serves (chain : Chain preset rules store) (contents : contents) (block : Block) : Prop :=
  ∀ handover ∈ chain.offers contents block, ¬ Archive.StoreFails store handover

/-- An attempt is what the recent chain does with an archive that is watched. -/
theorem exists_attempt
    (chain : Chain preset rules store) (supplied : contents) (block : Block)
    (faithful : Archive.Faithful rules anchor (chain.archive, log)) :
    ∃ answer next archive, chain.attempt supplied block = (answer, ⟨next, archive⟩) ∧
      chain.recent.addBlock block (fun _ => false) (watching Archive.receive)
          ((chain.perform (.restock supplied)).archive, log) =
        (answer, next, archive, log ++ chain.offers supplied block) ∧
      Archive.Faithful rules anchor (archive, log ++ chain.offers supplied block) := by
  let archive := (chain.perform (.restock supplied)).archive
  generalize attempted :
    chain.recent.addBlock block (fun _ => false) Archive.receive archive = result
  obtain ⟨answer, next, after⟩ := result
  have watched := RecentChain.addBlock_watched log attempted
  have noted : chain.recent.noted log (.addBlock block (fun _ => false) Archive.receive archive) =
      log ++ chain.offers supplied block :=
    RecentChain.addBlock_watching_log chain.recent block (fun _ => false) Archive.receive
      archive log
  rw [noted] at watched
  have kept := RecentChain.addBlock_keeps chain.recent block (fun _ => false)
    (watching Archive.receive) (archive, log) Archive.faithful_watching (faithful.restock supplied)
  rw [watched] at kept
  have same : chain.attempt supplied block = (answer, ⟨next, after⟩) :=
    congrArg (fun result => (result.1, (⟨result.2.1, result.2.2⟩ : Chain preset rules store)))
      attempted
  exact ⟨answer, next, after, same, watched, kept⟩

/-- A log that goes on with a refusal goes on because the state store does. -/
theorem not_serves_of_refuses
    {supplied : contents} {next : RecentChain preset rules} {archive : Archive store}
    (goesOn : RecentChain.GoesOn (· < slotLimit) anchor next (log ++ chain.offers supplied block))
    (faithful : Archive.Faithful rules anchor (archive, log ++ chain.offers supplied block))
    (refuses : RecentChain.Refuses log (log ++ chain.offers supplied block)) :
    ¬ chain.Serves supplied block := by
  intro serves
  obtain ⟨offered, refused, error, longer, failed⟩ := refuses
  rw [List.append_assoc] at longer
  have isLast : refused ∈ chain.offers supplied block := by
    rw [List.append_cancel_left longer]
    exact List.mem_append_right _ List.mem_cons_self
  have joined : Joined anchor ⟨next, archive⟩ (log ++ chain.offers supplied block) :=
    ⟨goesOn, faithful.continuous⟩
  rcases joined.refused refused (List.mem_append_right _ isLast) with accepted | stopped
  · rw [failed] at accepted
    cases accepted
  · exact serves refused isLast stopped

/-! ## Chains that rejoin -/

/-- Blocks that a chain accepts one after another, each on the one before, with the same
checkpoints. -/
structure Succession (pedigree : Pedigree) (justified finalized : Checkpoint)
    (chain : Chain preset rules store) (supply : Block → contents)
    (blocks : List Block) : Prop where
  linked : blocks.IsChain fun lower upper => rules.blockParent upper = rules.blockRoot lower
  distinct : (blocks.map rules.blockRoot).Nodup
  accepted : ∀ earlier block later, blocks = earlier ++ block :: later →
    ∃ draft, RecentChain.Accepted pedigree justified finalized
      (chain.attempts supply earlier).recent block (fun _ => false) draft

theorem Succession.tail
    {supply : Block → contents} {blocks : List Block}
    (succession : Succession pedigree justified finalized chain supply (block :: blocks)) :
    Succession pedigree justified finalized
      (chain.attempt (supply block) block).2 supply blocks where
  linked := succession.linked.tail
  distinct := (List.nodup_cons.1 succession.distinct).2
  accepted earlier next later split :=
    succession.accepted (block :: earlier) next later (congrArg (block :: ·) split)

/-- Two chains that have archived the same entries, and whose recent parts have rejoined. -/
structure Rejoined (chain other : Chain preset rules store) : Prop where
  record : chain.archive.record = other.archive.record
  recent : RecentChain.Rejoined chain.recent other.recent

/-- The first chain tracks the second one, and the archives have what their logs say. -/
structure Pursues (gone : NodeRef → Prop) (pedigree : Pedigree) (anchor : Entry State Context)
    (floor : Nat) (justified finalized : Checkpoint) (tip : Root)
    (chain other : Chain preset rules store)
    (log logAhead : List (Handover State Context)) : Prop where
  tracks : RecentChain.Tracks gone pedigree anchor floor justified finalized tip chain.recent
    other.recent log logAhead
  faithful : Archive.Faithful rules anchor (chain.archive, log)
  aheadFaithful : Archive.Faithful rules anchor (other.archive, logAhead)

theorem Pursues.rejoined
    (pursues : Pursues gone pedigree anchor floor justified finalized tip chain other log logAhead)
    (level : RecentChain.Level gone chain.recent other.recent log logAhead) :
    Rejoined chain other := by
  refine ⟨?_, level.rejoined pursues.tracks.founded pursues.tracks.regular
    pursues.tracks.aheadRegular pursues.tracks.light⟩
  have transcribed : chain.archive.record = _ := pursues.faithful.transcribes
  rw [transcribed, level.handed]
  exact pursues.aheadFaithful.transcribes.symm

/-- A store that serves brings the chain level. -/
theorem Pursues.served
    {supplied : contents} {before : Chain preset rules store}
    {answer : Except Error (Entry State Context)}
    {entry : Entry State Context}
    (pursues : Pursues gone pedigree anchor floor justified finalized tip chain other
      (log ++ before.offers supplied block) logAhead)
    (answered : RecentChain.Answered answer entry gone chain.recent other.recent log
      (log ++ before.offers supplied block) logAhead)
    (serves : before.Serves supplied block) : answer = .ok entry ∧ Rejoined chain other := by
  cases answered with
  | refused _ _ refuses =>
    exact absurd serves
      (not_serves_of_refuses pursues.tracks.regular.goesOn pursues.faithful refuses)
  | caughtUp isOk level => exact ⟨isOk, pursues.rejoined level⟩

/-- What an attempt on a chain that tracks another one, and on that one, lead to. -/
theorem Pursues.attempt
    (pursues : Pursues gone pedigree anchor floor justified finalized (rules.blockParent block)
      chain other log logAhead)
    (floorInRange : floor < slotLimit)
    (isNew : chain.recent.choice.containsBlock (rules.blockRoot block) = false)
    (kept : ∀ ref, gone ref → ref.root ≠ rules.blockRoot block)
    (accepted : RecentChain.Accepted pedigree justified finalized other.recent block
      (fun _ => false) draft) (supplied steady : contents) :
    (other.attempt steady block).1 = .ok draft.block ∧
      Pursues gone pedigree anchor floor justified finalized (rules.blockRoot block)
        (chain.attempt supplied block).2 (other.attempt steady block).2
        (log ++ chain.offers supplied block) logAhead ∧
      (chain.Serves supplied block → (chain.attempt supplied block).1 = .ok draft.block ∧
        Rejoined (chain.attempt supplied block).2 (other.attempt steady block).2) := by
  obtain ⟨answer, next, archive, attempted, added, faithful⟩ :=
    chain.exists_attempt supplied block pursues.faithful
  obtain ⟨nextAhead, onward, tracks, answered⟩ :=
    pursues.tracks.addBlock floorInRange Archive.lenient_receive isNew kept accepted added
  have ahead : other.attempt steady block =
      (.ok draft.block, ⟨nextAhead, (other.perform (.restock steady)).archive⟩) := by
    have same := onward Archive.receive (other.perform (.restock steady)).archive
    unfold Chain.attempt Chain.addBlock
    dsimp only [perform] at same ⊢
    rw [same]
  have next' : Pursues gone pedigree anchor floor justified finalized (rules.blockRoot block)
      ⟨next, archive⟩ ⟨nextAhead, (other.perform (.restock steady)).archive⟩
      (log ++ chain.offers supplied block) logAhead :=
    ⟨tracks, faithful, pursues.aheadFaithful.restock steady⟩
  rw [ahead, attempted]
  exact ⟨rfl, next', next'.served answered⟩

theorem absent_of_attempt
    {root : Root} (regular : RecentChain.Regular pedigree anchor floor chain.recent log)
    (supplied : contents) (allowed : rules.blockSlot block < slotLimit)
    (different : root ≠ rules.blockRoot block)
    (absent : chain.recent.choice.containsBlock root = false) :
    (chain.attempt supplied block).2.recent.choice.containsBlock root = false := by
  generalize added : chain.recent.addBlock block (fun _ => false) Archive.receive
    (chain.perform (.restock supplied)).archive = result
  obtain ⟨answer, next, archive⟩ := result
  have attempted : chain.attempt supplied block = (answer, ⟨next, archive⟩) := by
    unfold attempt Chain.addBlock
    dsimp only [perform] at added ⊢
    rw [added]
  rw [attempted]
  exact RecentChain.containsRoot_of_addBlock regular.stocked
    (fun _ notLater => Nat.lt_of_le_of_lt notLater allowed) added different absent

/-- The first attempts of a migration, one of which is not refused. -/
theorem exists_pursues
    {supplied steady : contents}
    (regular : RecentChain.Regular pedigree anchor floor chain.recent log)
    (floorInRange : floor < slotLimit)
    (faithful : Archive.Faithful rules anchor (chain.archive, log))
    (unpinned : chain.recent.choice.pin = none)
    (isNew : chain.recent.choice.containsBlock (rules.blockRoot block) = false)
    (accepted : RecentChain.Accepted pedigree justified finalized chain.recent block
      (fun _ => false) draft)
    (later : chain.recent.choice.finalized.epoch < finalized.epoch)
    (anchored : ∀ grown, chain.recent.commit draft = (.ok (), grown) →
      RecentChain.Anchored preset grown.choice.tree finalized
        (newer chain.recent.choice.justified justified) draft.block.ref)
    (migrated : (chain.attempt steady block).1.isOk = true)
    (light : (chain.attempt steady block).2.recent.choice.balances.sum < weightLimit) :
    (chain.attempt steady block).1 = .ok draft.block ∧
      ∃ gone,
        (∀ root, root ≠ rules.blockRoot block → chain.recent.choice.containsBlock root = false →
          ∀ ref, gone ref → ref.root ≠ root) ∧
        Pursues gone pedigree anchor floor justified finalized (rules.blockRoot block)
          (chain.attempt supplied block).2 (chain.attempt steady block).2
          (log ++ chain.offers supplied block) (log ++ chain.offers steady block) ∧
        (chain.Serves supplied block → (chain.attempt supplied block).1 = .ok draft.block ∧
          Rejoined (chain.attempt supplied block).2 (chain.attempt steady block).2) := by
  obtain ⟨answer, next, archive, attempted, added, isFaithful⟩ :=
    chain.exists_attempt supplied block faithful
  obtain ⟨answerAhead, ahead, archiveAhead, attemptedAhead, addedAhead, aheadFaithful⟩ :=
    chain.exists_attempt steady block faithful
  rw [attemptedAhead] at migrated light ⊢
  rw [attempted]
  cases answerAhead with
  | error => cases migrated
  | ok entry =>
    obtain ⟨rfl, gone, kept, tracks, answered⟩ :=
      RecentChain.tracks_of_migration regular floorInRange Archive.lenient_receive
        Archive.lenient_receive unpinned isNew accepted later anchored addedAhead light added
    have pursues : Pursues gone pedigree anchor floor justified finalized (rules.blockRoot block)
        ⟨next, archive⟩ ⟨ahead, archiveAhead⟩ (log ++ chain.offers supplied block)
        (log ++ chain.offers steady block) := ⟨tracks, isFaithful, aheadFaithful⟩
    exact ⟨rfl, gone, kept, pursues, pursues.served answered⟩

/-- An attempt with a store that serves makes up for all that failed before. -/
theorem Pursues.rejoins
    {supply steady : Block → contents} {earlier later : List Block} {previous last : Block}
    (pursues : Pursues gone pedigree anchor floor justified finalized (rules.blockRoot previous)
      chain other log logAhead)
    (floorInRange : floor < slotLimit)
    (linked : (previous :: (earlier ++ last :: later)).IsChain fun lower upper =>
      rules.blockParent upper = rules.blockRoot lower)
    (succession : Succession pedigree justified finalized other steady (earlier ++ last :: later))
    (isNew : ∀ block ∈ earlier ++ last :: later,
      chain.recent.choice.containsBlock (rules.blockRoot block) = false)
    (kept : ∀ block ∈ earlier ++ last :: later, ∀ ref, gone ref → ref.root ≠ rules.blockRoot block)
    (serves : (chain.attempts supply earlier).Serves (supply last) last) :
    ∃ entry, ((chain.attempts supply earlier).attempt (supply last) last).1 = .ok entry ∧
      ((other.attempts steady earlier).attempt (steady last) last).1 = .ok entry ∧
      Rejoined ((chain.attempts supply earlier).attempt (supply last) last).2
        ((other.attempts steady earlier).attempt (steady last) last).2 := by
  induction earlier generalizing chain other log previous with
  | nil =>
    obtain ⟨draft, accepted⟩ := succession.accepted [] last later rfl
    rw [← (List.isChain_cons_cons.1 linked).1] at pursues
    obtain ⟨ahead, _, served⟩ := pursues.attempt floorInRange (isNew last List.mem_cons_self)
      (kept last List.mem_cons_self) accepted (supply last) (steady last)
    obtain ⟨isOk, rejoined⟩ := served serves
    exact ⟨draft.block, isOk, ahead, rejoined⟩
  | cons block earlier ih =>
    obtain ⟨draft, accepted⟩ := succession.accepted [] block (earlier ++ last :: later) rfl
    have parent := (List.isChain_cons_cons.1 linked).1
    rw [← parent] at pursues
    obtain ⟨_, next, _⟩ := pursues.attempt floorInRange (isNew block List.mem_cons_self)
      (kept block List.mem_cons_self) accepted (supply block) (steady block)
    refine ih next linked.tail succession.tail (fun upper member => ?_)
      (fun upper member => kept upper (List.mem_cons_of_mem _ member)) serves
    have different : rules.blockRoot upper ≠ rules.blockRoot block := fun same =>
      (List.nodup_cons.1 succession.distinct).1 (same ▸ List.mem_map_of_mem member)
    exact absent_of_attempt pursues.tracks.regular (supply block) accepted.allowed different
      (isNew upper (List.mem_cons_of_mem _ member))

end Chain

/-- A migration that is due with the first of several new blocks, and to which the state store has
no objection if it holds what it should. -/
structure Chain.Migration (pedigree : Pedigree) (justified finalized : Checkpoint)
    (chain : Chain preset rules store) (steady : Block → contents) (first : Block)
    (rest : List Block) : Prop where
  succession : chain.Succession pedigree justified finalized steady (first :: rest)
  isNew : ∀ block ∈ first :: rest,
    chain.recent.choice.containsBlock (rules.blockRoot block) = false
  unpinned : chain.recent.choice.pin = none
  later : chain.recent.choice.finalized.epoch < finalized.epoch
  anchored : ∀ draft grown, chain.recent.draft first (fun _ => false) = .ok draft →
    chain.recent.commit draft = (.ok (), grown) →
    RecentChain.Anchored preset grown.choice.tree finalized
      (newer chain.recent.choice.justified justified) draft.block.ref
  migrates : (chain.attempt (steady first) first).1.isOk = true
  light : (chain.attempt (steady first) first).2.recent.choice.balances.sum < weightLimit

/-- While blocks that demand the same migration are added one after another, it does not matter how
often the state store fails.  As soon as it serves, the chain has archived the same entries and has
the same head and the same canonical chain as if it had never failed.  It has the same other entries
as well, unless stale ones were left where the migration was interrupted. -/
theorem retry_rejoins
    {limits : Limits} {root parentRoot : Root} {state : State} {before : contents}
    {start chain : Chain preset rules store} {log : List (Handover State Context)}
    {pedigree : Pedigree} {justified finalized : Checkpoint} {supply steady : Block → contents}
    {first : Block} {rest : List Block}
    (started : Chain.ofAnchor? limits root parentRoot state before = .ok start)
    (inRange : rules.stateSlot state < slotLimit)
    (admitted : pedigree.Admits parentRoot root (rules.stateSlot state))
    (nonzero : (⟨root, rules.stateSlot state⟩ : NodeRef) ≠ .zero)
    (run : Chain.Run (fun _ call => call.InRange rules ∧ call.Agrees rules pedigree) start chain
      log)
    (migration : chain.Migration pedigree justified finalized steady first rest) :
    ∀ earlier last later, first :: rest = earlier ++ last :: later →
      (chain.attempts supply earlier).Serves (supply last) last →
      ∃ entry, ((chain.attempts supply earlier).attempt (supply last) last).1 = .ok entry ∧
        ((chain.attempts steady earlier).attempt (steady last) last).1 = .ok entry ∧
        Chain.Rejoined ((chain.attempts supply earlier).attempt (supply last) last).2
          ((chain.attempts steady earlier).attempt (steady last) last).2 := by
  intro earlier last later split serves
  have succession := migration.succession
  obtain ⟨anchor, regular, faithful⟩ := run.exists_regular started inRange admitted nonzero
  obtain ⟨draft, accepted⟩ := succession.accepted [] first rest rfl
  obtain ⟨ahead, gone, kept, pursues, served⟩ := Chain.exists_pursues regular inRange faithful
    migration.unpinned (migration.isNew first List.mem_cons_self) accepted migration.later
    (fun grown => migration.anchored draft grown accepted.drafted)
      migration.migrates migration.light
  cases earlier with
  | nil =>
    obtain ⟨rfl, rfl⟩ := List.cons.inj split
    obtain ⟨isOk, rejoined⟩ := served serves
    exact ⟨draft.block, isOk, ahead, rejoined⟩
  | cons block earlier =>
    obtain ⟨rfl, rfl⟩ := List.cons.inj split
    have different : ∀ next ∈ earlier ++ last :: later,
        rules.blockRoot next ≠ rules.blockRoot first := fun next member same =>
      (List.nodup_cons.1 succession.distinct).1 (same ▸ List.mem_map_of_mem member)
    have isNew := fun next member => migration.isNew next (List.mem_cons_of_mem first member)
    exact pursues.rejoins inRange succession.linked succession.tail
      (fun next member => Chain.absent_of_attempt regular (supply first) accepted.allowed
        (different next member) (isNew next member))
      (fun next member => kept _ (different next member) (isNew next member)) serves

/-- The store that keeps states in memory, with room for a number of them or for any number. -/
def limitedMemory {State : Type} : StateStore (Table Root State × Option Nat) State where
  store root state contents := match contents with
    | (states, some 0) => (.error "no room left", states, some 0)
    | (states, some (room + 1)) => (.ok (), states.insert root state, some room)
    | (states, none) => (.ok (), states.insert root state, none)
  get root contents := .ok (contents.1.find? root)
  remove root contents := (.ok (), contents.1.erase root, contents.2)

/-- A block at the end of an epoch with one above it, and an earlier one beside it, then two blocks
that finalize the first one at the start of the next epoch. -/
def endingBlocks : List ScriptedBlock :=
  [{ slot := 7, root := ⟨11⟩, parentRoot := ⟨10⟩ },
   { slot := 8, root := ⟨13⟩, parentRoot := ⟨11⟩ },
   { slot := 1, root := ⟨14⟩, parentRoot := ⟨10⟩ },
   { slot := 9, root := ⟨12⟩, parentRoot := ⟨11⟩, justified := some ⟨1, ⟨11⟩⟩,
     finalized := some ⟨1, ⟨11⟩⟩ },
   { slot := 10, root := ⟨15⟩, parentRoot := ⟨12⟩ }]

def endingPedigree : Pedigree where
  parent root := match root.bits.toNat with
    | 10 => ⟨9⟩
    | 12 => ⟨11⟩
    | 13 => ⟨11⟩
    | 15 => ⟨12⟩
    | _ => ⟨10⟩
  slot root := match root.bits.toNat with
    | 11 => 7
    | 12 => 9
    | 13 => 8
    | 14 => 1
    | 15 => 10
    | _ => 0

def endingStart : Chain .minimal (Scripted.rules []) limitedMemory where
  recent := trialStart.recent
  archive := { contents := ({}, none) }

/-- The chain before the blocks that finalize anything. -/
def endingChain : Chain .minimal (Scripted.rules []) limitedMemory :=
  ((endingStart.perform (.addBlock endingBlocks[0] fun _ => false)).perform
    (.addBlock endingBlocks[1] fun _ => false)).perform (.addBlock endingBlocks[2] fun _ => false)

/-- Room for the slots before the block that is finalized, and for any number of states later. -/
def scarce (block : ScriptedBlock) : Table Root ScriptedState × Option Nat :=
  ({}, if block.root = ⟨12⟩ then some 8 else none)

def plenty (_ : ScriptedBlock) : Table Root ScriptedState × Option Nat :=
  ({}, none)

theorem endingChain_run :
    ∃ log, Chain.Run (fun _ call => call.InRange (Scripted.rules []) ∧
      call.Agrees (Scripted.rules []) endingPedigree) endingStart endingChain log :=
  ⟨_, .call (.call (.call .start (.addBlock endingBlocks[0] fun _ => false)
        ⟨show 7 < slotLimit by decide, rfl, rfl⟩) (.addBlock endingBlocks[1] fun _ => false)
      ⟨show 8 < slotLimit by decide, rfl, rfl⟩) (.addBlock endingBlocks[2] fun _ => false)
    ⟨show 1 < slotLimit by decide, rfl, rfl⟩⟩

theorem endingChain_succession :
    endingChain.Succession endingPedigree ⟨1, ⟨11⟩⟩ ⟨1, ⟨11⟩⟩ plenty
      [endingBlocks[3], endingBlocks[4]] where
  linked := by decide
  distinct := by decide
  accepted earlier block later split := by
    cases earlier with
    | nil =>
      obtain ⟨rfl, rfl⟩ := List.cons.inj split
      exact ⟨_, show 9 < slotLimit by decide, ⟨rfl, rfl⟩, rfl, rfl, rfl⟩
    | cons first earlier =>
      obtain ⟨rfl, rest⟩ := List.cons.inj split
      cases earlier with
      | nil =>
        obtain ⟨rfl, rfl⟩ := List.cons.inj rest
        exact ⟨_, show 10 < slotLimit by decide, ⟨rfl, rfl⟩, rfl, rfl, rfl⟩
      | cons second earlier =>
        have tooMany := congrArg List.length rest
        simp at tooMany

theorem endingChain_migration :
    endingChain.Migration endingPedigree ⟨1, ⟨11⟩⟩ ⟨1, ⟨11⟩⟩ plenty endingBlocks[3]
      [endingBlocks[4]] where
  succession := endingChain_succession
  isNew := by decide
  unpinned := rfl
  later := by decide
  anchored draft grown drafted committed := by
    cases drafted
    cases committed
    -- the block descends over an empty slot from the node of both checkpoints
    exact ⟨⟨9, 9, by decide, by decide, .refl⟩,
      ⟨9, 13, by decide, by decide, .tail (.tail .refl rfl) rfl⟩⟩
  migrates := by decide
  light := by decide

/-- The retry offers what was refused, and it is taken. -/
theorem endingChain_serves :
    (endingChain.attempts scarce [endingBlocks[3]]).Serves (scarce endingBlocks[4])
      endingBlocks[4] := by
  intro handover member
  have accepted : ∀ handover ∈ (endingChain.attempts scarce [endingBlocks[3]]).offers
      (scarce endingBlocks[4]) endingBlocks[4], handover.outcome.isOk = true := by decide
  rintro ⟨message, before, failed, _⟩
  have isOk := accepted handover member
  rw [failed] at isOk
  cases isOk

theorem retry_rejoins_endingChain :
    (endingChain.attempt (scarce endingBlocks[3]) endingBlocks[3]).1 =
      .error (.checkpointsNotAdopted ⟨12⟩ (.external "no room left")) ∧
    ((endingChain.attempts scarce [endingBlocks[3]]).offers (scarce endingBlocks[4])
      endingBlocks[4]).map (fun handover => handover.entry.ref) = [⟨⟨11⟩, 7⟩] ∧
    ∃ entry, ((endingChain.attempts scarce [endingBlocks[3]]).attempt (scarce endingBlocks[4])
        endingBlocks[4]).1 = .ok entry ∧
      ((endingChain.attempts plenty [endingBlocks[3]]).attempt (plenty endingBlocks[4])
        endingBlocks[4]).1 = .ok entry ∧
      Chain.Rejoined
        ((endingChain.attempts scarce [endingBlocks[3]]).attempt (scarce endingBlocks[4])
          endingBlocks[4]).2
        ((endingChain.attempts plenty [endingBlocks[3]]).attempt (plenty endingBlocks[4])
          endingBlocks[4]).2 := by
  obtain ⟨log, run⟩ := endingChain_run
  have started : Chain.ofAnchor? .minimal ⟨10⟩ ⟨9⟩ trialAnchor ({}, none) = .ok endingStart := rfl
  refine ⟨by decide, by decide, ?_⟩
  exact retry_rejoins started (by decide) ⟨rfl, rfl⟩ (by decide) run endingChain_migration
    [endingBlocks[3]] endingBlocks[4] [] rfl endingChain_serves

/-- A branch below the last slot that was archived is swept if the store has never failed, but
stays after the retry. -/
theorem retry_leaves_stale :
    ∃ (chain : Chain .minimal (Scripted.rules []) limitedMemory)
      (log : List (Handover ScriptedState Nat)),
      Chain.Run (fun _ call => call.InRange (Scripted.rules []) ∧
        call.Agrees (Scripted.rules []) endingPedigree) endingStart chain log ∧
      chain.Migration endingPedigree ⟨1, ⟨11⟩⟩ ⟨1, ⟨11⟩⟩ plenty endingBlocks[3] [endingBlocks[4]] ∧
      (chain.attempts scarce [endingBlocks[3]]).Serves (scarce endingBlocks[4]) endingBlocks[4] ∧
      ((chain.attempts scarce [endingBlocks[3]]).attempt (scarce endingBlocks[4])
        endingBlocks[4]).1.isOk = true ∧
      ((chain.attempts scarce [endingBlocks[3]]).attempt (scarce endingBlocks[4])
        endingBlocks[4]).2.recent.byBlock? ⟨14⟩ ≠ none ∧
      ((chain.attempts plenty [endingBlocks[3]]).attempt (plenty endingBlocks[4])
        endingBlocks[4]).2.recent.byBlock? ⟨14⟩ = none := by
  obtain ⟨log, run⟩ := endingChain_run
  exact ⟨endingChain, log, run, endingChain_migration, endingChain_serves, by decide, by decide,
    by decide⟩

end BeaconChain
