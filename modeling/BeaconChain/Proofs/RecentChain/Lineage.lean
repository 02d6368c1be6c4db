import BeaconChain.Proofs.BlockTree.Prune
import BeaconChain.Proofs.BlockTree.Relation
import BeaconChain.Proofs.RecentChain.Handover

/-!
# Entries and nodes

Every entry of the pool belongs to a node of the tree, and the entries of a node and of
its state parent follow each other.  The converse fails: the sweep leaves nodes without
entries behind.  It never reaches the nodes that are related to the first node of the
finalized root.  They are the ones that can still become canonical, and the oldest of
them is where the entries that were handed on go on.
-/

open Relation

namespace BeaconChain

open BlockTree

variable {State Block Context : Type}

theorem BlockTree.WellFormed.slot_le_of_stateDescends
    {tree : BlockTree} (wellFormed : WellFormed tree) {below above : Nat} {lower upper : Node}
    (descends : tree.StateDescends below above) (lowerHere : tree.nodes[below]? = some lower)
    (upperHere : tree.nodes[above]? = some upper) : upper.ref.slot ≤ lower.ref.slot := by
  induction descends using ReflTransGen.head_induction_on generalizing lower with
  | refl => exact Nat.le_of_eq (by rw [Option.some.inj (lowerHere.symm.trans upperHere)])
  | @head below next step _ ih =>
    obtain ⟨node, here, up⟩ := parentAt_iff.1 step
    obtain rfl := Option.some.inj (here.symm.trans lowerHere)
    cases wellFormed.links below node here with
    | severed noState => simp [noState] at up
    | slot _ before _ found _ nextSlot _ state =>
      obtain rfl := Option.some.inj (state.symm.trans up)
      have := ih found
      omega
    | block _ before _ found _ sameSlot _ _ state =>
      obtain rfl := Option.some.inj (state.symm.trans up)
      have := ih found
      omega

theorem BlockTree.SameShape.stateParentAt_eq
    {tree other : BlockTree} (same : SameShape tree other) :
    ParentAt tree.nodes Node.stateParent = ParentAt other.nodes Node.stateParent := by
  funext child above
  simp only [ParentAt, same.nodes.bind_eq Node.stateParent fun _ => rfl]

/-- One of two nodes descends from the other by state parents. -/
def BlockTree.Related (tree : BlockTree) (position other : Nat) : Prop :=
  tree.StateDescends position other ∨ tree.StateDescends other position

/-- The entry of the node at a position. -/
def entryAt? (tree : BlockTree) (pool : Pool State Context) (position : Nat) :
    Option (Entry State Context) :=
  (tree.nodes[position]?).bind fun node => pool.find? node.ref

section Entries

variable {tree other : BlockTree} {pool smaller : Pool State Context} {position : Nat}
  {entry : Entry State Context}

theorem entryAt?_eq_some_iff :
    entryAt? tree pool position = some entry ↔
      ∃ node, tree.nodes[position]? = some node ∧ pool.find? node.ref = some entry :=
  Option.bind_eq_some_iff

theorem entryAt?_congr (same : SameShape tree other) :
    entryAt? tree pool = entryAt? other pool :=
  funext (same.nodes.bind_eq (fun node => pool.find? node.ref) fun _ => rfl)

theorem entryAt?_dropOldest {count : Nat} :
    entryAt? (tree.dropOldest count) pool position = entryAt? tree pool (position + count) := by
  apply Option.ext
  intro entry
  rw [entryAt?_eq_some_iff, entryAt?_eq_some_iff]
  constructor
  · rintro ⟨_, there, found⟩
    obtain ⟨node, here, rfl⟩ := getElem?_dropOldest_eq_some_iff.1 there
    exact ⟨node, here, found⟩
  · rintro ⟨node, here, found⟩
    exact ⟨_, getElem?_dropOldest here, found⟩

/-- The entries of a pool, as far as they belong to a tree, its parents and the rules. -/
structure Stocked (rules : Rules State Block Context) (inRange : Nat → Prop) (tree : BlockTree)
    (pool : Pool State Context) : Prop where
  sound : Sound tree
  named : ∀ ref entry, pool.find? ref = some entry → entry.ref = ref
  present : ∀ ref entry, pool.find? ref = some entry →
    ∃ (position : Nat) (node : Node), tree.nodes[position]? = some node ∧ node.ref = ref
  allowed : ∀ ref entry, pool.find? ref = some entry → inRange entry.slot
  linked : ∀ child above entry previous, ParentAt tree.nodes Node.stateParent child above →
    entryAt? tree pool child = some entry → entryAt? tree pool above = some previous →
    Follows rules previous entry
  /-- The entry of a block is that of the first node of its root. -/
  filled : ∀ position entry, entryAt? tree pool position = some entry → entry.hasBlock = true →
    FirstOfRoot tree.nodes entry.blockRoot position

namespace Stocked

variable {rules : Rules State Block Context} {inRange : Nat → Prop}

theorem ref_eq
    (stocked : Stocked rules inRange tree pool) {node : Node}
    (here : tree.nodes[position]? = some node)
    (found : entryAt? tree pool position = some entry) : entry.ref = node.ref := by
  obtain ⟨_, there, known⟩ := entryAt?_eq_some_iff.1 found
  obtain rfl := Option.some.inj (here.symm.trans there)
  exact stocked.named _ _ known

theorem slot_le
    (stocked : Stocked rules inRange tree pool) {below above : Nat}
    {lower upper : Entry State Context} (descends : tree.StateDescends below above)
    (lowerFound : entryAt? tree pool below = some lower)
    (upperFound : entryAt? tree pool above = some upper) : upper.slot ≤ lower.slot := by
  obtain ⟨lowerNode, lowerHere, _⟩ := entryAt?_eq_some_iff.1 lowerFound
  obtain ⟨upperNode, upperHere, _⟩ := entryAt?_eq_some_iff.1 upperFound
  have slots := stocked.sound.slot_le_of_stateDescends descends lowerHere upperHere
  rw [← stocked.ref_eq lowerHere lowerFound, ← stocked.ref_eq upperHere upperFound] at slots
  exact slots

theorem congr
    (stocked : Stocked rules inRange tree pool) (same : SameShape other tree)
    (sound : Sound other) : Stocked rules inRange other pool where
  sound := sound
  named := stocked.named
  present ref entry found := by
    obtain ⟨position, node, here, named⟩ := stocked.present ref entry found
    obtain ⟨node', there, sameRef⟩ := same.symm.nodes.exists_ref_eq here
    exact ⟨position, node', there, by rw [sameRef, named]⟩
  allowed := stocked.allowed
  linked := by
    rw [same.stateParentAt_eq, entryAt?_congr same]
    exact stocked.linked
  filled position entry found hasBlock := by
    rw [entryAt?_congr same] at found
    exact same.symm.nodes.firstOfRoot (stocked.filled position entry found hasBlock)

end Stocked

end Entries

/-- The part of the tree that can still become canonical, where `first` is the position of
the first node of the finalized root.  All its entries are there, the ancestors of the
node are not older than what was handed on, and the oldest of them goes on where the log
ends. -/
structure Lineage (rules : Rules State Block Context) (inRange : Nat → Prop)
    (anchor : Entry State Context) (root : Root) (tree : BlockTree) (pool : Pool State Context)
    (log : List (Handover State Context)) (first : Nat) : Prop
    extends Stocked rules inRange tree pool where
  isFirst : IsFirst tree.nodes root first
  kept : ∀ position, tree.Related first position → position < tree.size →
    ∃ entry, entryAt? tree pool position = some entry
  notBefore : ∀ position entry, tree.StateDescends first position →
    entryAt? tree pool position = some entry → pool.anchorSlot ≤ entry.slot
  continues : ∀ position entry, tree.StateDescends first position →
    (∀ above, ¬ ParentAt tree.nodes Node.stateParent position above) →
    entryAt? tree pool position = some entry → Continues rules anchor (taken log) entry
  orderly : Orderly rules inRange anchor log

namespace Lineage

variable {rules : Rules State Block Context} {inRange : Nat → Prop}
  {anchor entry : Entry State Context} {root : Root} {tree other : BlockTree}
  {pool : Pool State Context} {log : List (Handover State Context)} {first : Nat}

theorem congr
    (lineage : Lineage rules inRange anchor root tree pool log first) (same : SameShape other tree)
    (sound : Sound other) : Lineage rules inRange anchor root other pool log first where
  toStocked := lineage.toStocked.congr same sound
  isFirst := same.symm.isFirst lineage.isFirst
  kept := by
    rw [entryAt?_congr same, same.size_eq]
    simp only [Related, same.stateDescends_eq]
    exact lineage.kept
  notBefore := by
    rw [entryAt?_congr same, same.stateDescends_eq]
    exact lineage.notBefore
  continues := by
    rw [entryAt?_congr same, same.stateDescends_eq, same.stateParentAt_eq]
    exact lineage.continues
  orderly := lineage.orderly

theorem first_lt (lineage : Lineage rules inRange anchor root tree pool log first) :
    first < tree.size := by
  obtain ⟨node, here, _⟩ := lineage.isFirst.here
  exact (List.getElem?_eq_some_iff.1 here).1

end Lineage

/-! ## Growth -/

section Growth

variable {rules : Rules State Block Context} {inRange : Nat → Prop}
  {admits : Root → Root → Nat → Prop} {tree : BlockTree} {pool : Pool State Context} {node : Node}
  {entry previous : Entry State Context} {above position : Nat}

theorem entryAt?_push
    (fresh : tree.position? node.ref = none) (indexed : Indexed tree) (named : entry.ref = node.ref)
    {found : Entry State Context} :
    entryAt? { tree.push node with outdated := true } (pool.insert entry) position = some found ↔
      entryAt? tree pool position = some found ∨ position = tree.size ∧ found = entry := by
  have absent := indexed.position?_eq_none_iff.1 fresh
  have self : (pool.insert entry).find? node.ref = some entry := by
    rw [← named]
    exact Pool.find?_insert_self pool entry
  have others : ∀ (place : Nat) (other : Node), tree.nodes[place]? = some other →
      (pool.insert entry).find? other.ref = pool.find? other.ref := fun place other there =>
    Pool.find?_insert_of_ne pool fun same =>
      absent other (List.mem_of_getElem? there) (same.symm.trans named)
  rw [entryAt?_eq_some_iff, entryAt?_eq_some_iff]
  constructor
  · rintro ⟨other, there, found⟩
    rcases getElem?_concat_eq_some_iff.1 there with old | ⟨atEnd, rfl⟩
    · exact .inl ⟨other, old, (others position other old).symm.trans found⟩
    · exact .inr ⟨atEnd, Option.some.inj (found.symm.trans self)⟩
  · rintro (⟨other, there, found⟩ | ⟨rfl, rfl⟩)
    · exact ⟨other, getElem?_concat_eq_some_iff.2 (.inl there),
        (others position other there).trans found⟩
    · exact ⟨node, getElem?_concat_eq_some_iff.2 (.inr ⟨rfl, rfl⟩), self⟩

theorem lt_size_of_entryAt? {found : Entry State Context}
    (known : entryAt? tree pool position = some found) : position < tree.size := by
  obtain ⟨_, here, _⟩ := entryAt?_eq_some_iff.1 known
  exact (List.getElem?_eq_some_iff.1 here).1

/-- A node has the stamp of its entry's state, the block of its entry if there is one, and the
same parent. -/
structure Matches (rules : Rules State Block Context) (node : Node) (entry : Entry State Context) :
    Prop where
  stamp : node.stamp = ⟨(rules.justified entry.state).epoch, (rules.finalized entry.state).epoch⟩
  parentRoot : node.parentRoot = entry.linkRoot
  hasBlock : node.hasBlock = entry.hasBlock

/-- A node that is appended below another one, together with an entry that matches it and
follows the entry of that one. -/
structure Joins (rules : Rules State Block Context) (inRange : Nat → Prop) (tree : BlockTree)
    (pool : Pool State Context) (node : Node) (entry : Entry State Context) : Prop where
  appendable : Appendable (fun _ _ _ => True) tree node
  named : entry.ref = node.ref
  matched : Matches rules node entry
  follows : ∀ above, node.stateParent = some above →
    ∃ previous, entryAt? tree pool above = some previous ∧ Follows rules previous entry
  first : entry.hasBlock = true → FirstOfRoot (tree.nodes ++ [node]) node.ref.root tree.size
  allowed : inRange entry.slot

namespace Joins

theorem fresh (joins : Joins rules inRange tree pool node entry) (indexed : Indexed tree) :
    tree.position? node.ref = none :=
  joins.appendable.fresh indexed

theorem sound (joins : Joins rules inRange tree pool node entry) (sound : Sound tree) :
    Sound { tree.push node with outdated := true } :=
  sound.of_grow (Grows.refl.push joins.appendable).outdate (.inr rfl)

end Joins

theorem Stocked.push
    (stocked : Stocked rules inRange tree pool) (joins : Joins rules inRange tree pool node entry) :
    Stocked rules inRange { tree.push node with outdated := true } (pool.insert entry) := by
  have fresh := joins.fresh stocked.sound.toIndexed
  have entryAt : ∀ {position : Nat} {found : Entry State Context},
      entryAt? { tree.push node with outdated := true } (pool.insert entry) position = some found ↔
        entryAt? tree pool position = some found ∨ position = tree.size ∧ found = entry :=
    entryAt?_push fresh stocked.sound.toIndexed joins.named
  have poolCases : ∀ {ref : NodeRef} {found : Entry State Context},
      (pool.insert entry).find? ref = some found →
        pool.find? ref = some found ∨ ref = node.ref ∧ found = entry := by
    intro ref found known
    rcases Pool.find?_insert_cases known with ⟨rfl, rfl⟩ | old
    · exact .inr ⟨joins.named, rfl⟩
    · exact .inl old
  exact {
    sound := joins.sound stocked.sound
    named := fun ref found known => by
      rcases poolCases known with old | ⟨rfl, rfl⟩
      · exact stocked.named ref found old
      · exact joins.named
    present := fun ref found known => by
      rcases poolCases known with old | ⟨rfl, rfl⟩
      · obtain ⟨position, other, here, named⟩ := stocked.present ref found old
        exact ⟨position, other, getElem?_concat_eq_some_iff.2 (.inl here), named⟩
      · exact ⟨tree.size, node, getElem?_concat_eq_some_iff.2 (.inr ⟨rfl, rfl⟩), rfl⟩
    allowed := fun ref found known => by
      rcases poolCases known with old | ⟨rfl, rfl⟩
      · exact stocked.allowed ref found old
      · exact joins.allowed
    linked := fun child above next previous step childFound aboveFound => by
      have earlier := (joins.sound stocked.sound).stateParentsFirst _ _ step
      have inside : above < tree.size := by
        have := lt_size_of_entryAt? childFound
        simp only [size, nodes_push, List.length_append, List.length_singleton] at this ⊢
        omega
      have oldAbove := (entryAt.1 aboveFound).resolve_right fun atEnd => by omega
      rcases entryAt.1 childFound with old | ⟨rfl, rfl⟩
      · have oldStep := (parentAt_append (lt_size_of_entryAt? old)).1 step
        exact stocked.linked child above next previous oldStep old oldAbove
      · obtain ⟨other, here, up⟩ := parentAt_iff.1 step
        obtain ⟨_, rfl⟩ := (getElem?_concat_eq_some_iff.1 here).resolve_left fun old =>
          Nat.lt_irrefl _ (List.getElem?_eq_some_iff.1 old).1
        obtain ⟨before, known, follows⟩ := joins.follows above up
        rw [Option.some.inj (oldAbove.symm.trans known)]
        exact follows
    filled := fun position found known hasBlock => by
      rcases entryAt.1 known with old | ⟨rfl, rfl⟩
      · exact (stocked.filled position found old hasBlock).append (lt_size_of_entryAt? old) node
      · have first := joins.first hasBlock
        rw [← joins.named] at first
        exact first }

/-- A node that joins the tree leaves what can become canonical as it was, and may become
canonical itself. -/
theorem Lineage.push
    {anchor : Entry State Context} {root : Root} {log : List (Handover State Context)} {first : Nat}
    (lineage : Lineage rules inRange anchor root tree pool log first)
    (joins : Joins rules inRange tree pool node entry) :
    Lineage rules inRange anchor root { tree.push node with outdated := true } (pool.insert entry)
      log first := by
  have stocked := lineage.toStocked.push joins
  have ordered : ParentsFirst (tree.nodes ++ [node]) Node.stateParent :=
    stocked.sound.stateParentsFirst
  have fresh := joins.fresh lineage.sound.toIndexed
  have entryAt : ∀ {position : Nat} {found : Entry State Context},
      entryAt? { tree.push node with outdated := true } (pool.insert entry) position = some found ↔
        entryAt? tree pool position = some found ∨ position = tree.size ∧ found = entry :=
    entryAt?_push fresh lineage.sound.toIndexed joins.named
  have inside := lineage.first_lt
  have ancestor : ∀ {position : Nat},
      Descends (tree.nodes ++ [node]) Node.stateParent first position →
      position < tree.size ∧ tree.StateDescends first position := fun descends =>
    ⟨Nat.lt_of_le_of_lt (Descends.le ordered descends) inside,
      (descends_append ordered inside).1 descends⟩
  have oldEntry : ∀ {position : Nat} {found : Entry State Context}, position < tree.size →
      entryAt? { tree.push node with outdated := true } (pool.insert entry) position = some found →
      entryAt? tree pool position = some found := fun inside known =>
    (entryAt.1 known).resolve_right fun atEnd => Nat.ne_of_lt inside atEnd.1
  exact {
    toStocked := stocked
    isFirst :=
      { here := by
          obtain ⟨found, here, ofRoot⟩ := lineage.isFirst.here
          exact ⟨found, getElem?_concat_eq_some_iff.2 (.inl here), ofRoot⟩
        first := lineage.isFirst.first.append inside node }
    kept := fun position related bound => by
      by_cases old : position < tree.size
      · have oldRelated : tree.Related first position := related.imp
          (descends_append ordered inside).1 (descends_append ordered old).1
        obtain ⟨found, known⟩ := lineage.kept position oldRelated old
        exact ⟨found, entryAt.2 (.inl known)⟩
      · simp only [size, nodes_push, List.length_append, List.length_singleton] at bound old
        exact ⟨entry, entryAt.2 (.inr ⟨by simp only [size]; omega, rfl⟩)⟩
    notBefore := fun position found descends known => by
      obtain ⟨bound, oldDescends⟩ := ancestor descends
      exact lineage.notBefore position found oldDescends (oldEntry bound known)
    continues := fun position found descends parentless known => by
      obtain ⟨bound, oldDescends⟩ := ancestor descends
      refine lineage.continues position found oldDescends (fun above step => ?_)
        (oldEntry bound known)
      exact parentless above ((parentAt_append bound).2 step)
    orderly := lineage.orderly }

end Growth

theorem map_snd_withSteps :
    ∀ {entries : List (Entry State Context)} {stepped : List (Step × Entry State Context)},
      Pool.withSteps entries = .ok stepped → stepped.map Prod.snd = entries
  | [], stepped, done => by
    cases done
    rfl
  | entry :: rest, stepped, done => by
    rw [Pool.withSteps, List.mapM_cons] at done
    obtain ⟨first, timed, done⟩ := exists_of_bind_eq_ok done
    obtain ⟨others, restTimed, done⟩ := exists_of_bind_eq_ok done
    obtain ⟨step, _, made⟩ := exists_of_bind_eq_ok timed
    cases made
    cases done
    exact congrArg _ (map_snd_withSteps restTimed)

/-- What is stale is the older part of the pool, in the order of the steps. -/
theorem Pool.perm_stale
    {pool : Pool State Context} {entries : List (Entry State Context)}
    (stale : pool.stale = .ok entries) :
    entries.Perm (pool.byNode.values.filter fun entry => entry.slot < pool.anchorSlot) := by
  unfold Pool.stale at stale
  dsimp only at stale
  split at stale
  next =>
    cases stale
    exact .refl _
  next =>
    obtain ⟨stepped, timed, done⟩ := exists_of_bind_eq_ok stale
    cases done
    rw [← map_snd_withSteps timed]
    exact (Pool.perm_sortBySteps stepped).map _

theorem Pool.slot_lt_of_mem_stale
    {pool : Pool State Context} {entries : List (Entry State Context)}
    (stale : pool.stale = .ok entries) : ∀ entry ∈ entries, entry.slot < pool.anchorSlot :=
  fun _ member => of_decide_eq_true (List.mem_filter.1 ((perm_stale stale).mem_iff.1 member)).2

section Sweep

variable {rules : Rules State Block Context} {inRange : Nat → Prop} {tree : BlockTree}
  {pool : Pool State Context} {entry : Entry State Context} {position : Nat}

theorem entryAt?_remove {dropped : NodeRef} {found : Entry State Context}
    (known : entryAt? tree (pool.remove dropped) position = some found) :
    entryAt? tree pool position = some found := by
  obtain ⟨node, here, held⟩ := entryAt?_eq_some_iff.1 known
  exact entryAt?_eq_some_iff.2 ⟨node, here, (Pool.find?_remove_eq_some_iff.1 held).2⟩

theorem Stocked.remove (stocked : Stocked rules inRange tree pool) (dropped : NodeRef) :
    Stocked rules inRange tree (pool.remove dropped) where
  sound := stocked.sound
  named ref entry known := stocked.named ref entry (Pool.find?_remove_eq_some_iff.1 known).2
  present ref entry known := stocked.present ref entry (Pool.find?_remove_eq_some_iff.1 known).2
  allowed ref entry known := stocked.allowed ref entry (Pool.find?_remove_eq_some_iff.1 known).2
  linked child above entry previous step found aboveFound :=
    stocked.linked child above entry previous step (entryAt?_remove found)
      (entryAt?_remove aboveFound)
  filled position entry found hasBlock :=
    stocked.filled position entry (entryAt?_remove found) hasBlock

variable {anchor : Entry State Context} {root : Root} {log : List (Handover State Context)}
  {first : Nat}

/-- The nodes related to the first one of the finalized root are not older than what was
handed on. -/
theorem Lineage.anchorSlot_le
    (lineage : Lineage rules inRange anchor root tree pool log first)
    (related : tree.Related first position) (found : entryAt? tree pool position = some entry) :
    pool.anchorSlot ≤ entry.slot := by
  rcases related with ancestor | descendant
  · exact lineage.notBefore position entry ancestor found
  · obtain ⟨oldest, known⟩ := lineage.kept first (.inl ReflTransGen.refl) lineage.first_lt
    have bound := lineage.notBefore first oldest ReflTransGen.refl known
    exact Nat.le_trans bound (lineage.slot_le descendant found known)

theorem Lineage.remove
    (lineage : Lineage rules inRange anchor root tree pool log first)
    (stale : entry.slot < pool.anchorSlot) :
    Lineage rules inRange anchor root tree (pool.remove entry.ref) log first where
  toStocked := lineage.toStocked.remove entry.ref
  isFirst := lineage.isFirst
  kept position related inside := by
    obtain ⟨found, known⟩ := lineage.kept position related inside
    have recent := lineage.anchorSlot_le related known
    obtain ⟨node, here, held⟩ := entryAt?_eq_some_iff.1 known
    refine ⟨found, entryAt?_eq_some_iff.2 ⟨node, here, Pool.find?_remove_eq_some_iff.2 ⟨?_, held⟩⟩⟩
    intro same
    have sameSlot := congrArg NodeRef.slot (same.trans (lineage.ref_eq here known).symm)
    simp only [Entry.ref] at sameSlot
    omega
  notBefore position found descends known := by
    rw [Pool.anchorSlot_remove]
    exact lineage.notBefore position found descends (entryAt?_remove known)
  continues position found descends parentless known :=
    lineage.continues position found descends parentless (entryAt?_remove known)
  orderly := lineage.orderly

/-- What is not canonical leaves no trace in the sequence of entries. -/
theorem Lineage.offerOrphan
    (lineage : Lineage rules inRange anchor root tree pool log first)
    (entry : Entry State Context) (outcome : Except Error Unit) :
    Lineage rules inRange anchor root tree pool (log ++ [⟨entry, false, outcome⟩]) first :=
  { lineage with
    continues := by
      rw [taken_concat]
      exact lineage.continues
    orderly := lineage.orderly.offer fun canonical => by cases canonical }

theorem Lineage.discard
    {store : Type} (receive : EntryReceiver State Context store) :
    ∀ {entries : List (Entry State Context)} {pool last : Pool State Context}
      {state after : store} {log logAfter : List (Handover State Context)}
      {outcome : Except Error Unit},
      Lineage rules inRange anchor root tree pool log first →
      (∀ entry ∈ entries, entry.slot < pool.anchorSlot) →
      Pool.discard (watching receive) entries pool (state, log) =
        (outcome, last, after, logAfter) →
      Lineage rules inRange anchor root tree last logAfter first
  | [], _, _, _, _, _, _, _, lineage, _, done => by
    cases done
    exact lineage
  | entry :: rest, pool, _, _, _, _, _, _, lineage, stale, done => by
    rw [Pool.discard] at done
    split at done
    next refused =>
      cases done
      obtain ⟨_, rfl⟩ := eq_of_watching refused
      exact lineage.offerOrphan entry _
    next accepted =>
      obtain ⟨_, logged⟩ := eq_of_watching accepted
      have dropped := (lineage.offerOrphan entry (.ok ())).remove (stale entry List.mem_cons_self)
      rw [← logged] at dropped
      refine Lineage.discard receive dropped (fun other member => ?_) done
      rw [Pool.anchorSlot_remove]
      exact stale other (List.mem_cons_of_mem _ member)

theorem Lineage.sweep
    {store : Type} {receive : EntryReceiver State Context store} {last : Pool State Context}
    {state after : store} {logAfter : List (Handover State Context)} {outcome : Except Error Unit}
    (lineage : Lineage rules inRange anchor root tree pool log first)
    (done : pool.sweep (watching receive) (state, log) = (outcome, last, after, logAfter)) :
    Lineage rules inRange anchor root tree last logAfter first := by
  unfold Pool.sweep at done
  split at done
  next =>
    cases done
    exact lineage
  next entries stale =>
    exact Lineage.discard receive lineage (Pool.slot_lt_of_mem_stale stale) done

end Sweep

end BeaconChain
