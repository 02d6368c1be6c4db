import BeaconChain.Proofs.BlockTree.Prune
import BeaconChain.Proofs.RecentChain.Handover
import BeaconChain.RecentChain.Add

/-!
# Pools without some of their entries

What leaves a pool leaves both of its tables: the entry itself, and the index of its state root
unless that leads elsewhere by now.  So it makes no difference whether entries leave before or
after others are inserted.
-/

namespace BeaconChain

open BlockTree

variable {State Context store : Type}

namespace Pool

/-- The index leads to entries of the pool, under their own state roots. -/
def Keyed (pool : Pool State Context) : Prop :=
  ∀ root ref, pool.byStateRoot.find? root = some ref →
    ∃ entry, pool.find? ref = some entry ∧ entry.stateRoot = root

/-- The second pool is the first without the entries of some nodes. -/
structure Thinned (gone : NodeRef → Prop) (pool thinned : Pool State Context) : Prop where
  found : ∀ ref entry, thinned.find? ref = some entry ↔ pool.find? ref = some entry ∧ ¬ gone ref
  indexed : ∀ root ref, thinned.byStateRoot.find? root = some ref ↔
    pool.byStateRoot.find? root = some ref ∧ ¬ gone ref

section Tables

variable {pool left thinned : Pool State Context} {entry : Entry State Context}
  {gone : NodeRef → Prop} {dropped ref : NodeRef} {root : Root}

theorem index_insert :
    (pool.insert entry).byStateRoot.find? root = some ref ↔
      if entry.stateRoot = root then entry.ref = ref
      else pool.byStateRoot.find? root = some ref := by
  simp only [insert]
  split
  next same =>
    subst same
    simp
  next different => rw [Table.find?_insert_of_ne _ _ different]

/-- An entry that leaves takes only its own index with it. -/
theorem index_remove (keyed : pool.Keyed) :
    (pool.remove dropped).byStateRoot.find? root = some ref ↔
      pool.byStateRoot.find? root = some ref ∧ ref ≠ dropped := by
  unfold remove
  split
  next missing =>
    refine ⟨fun known => ⟨known, ?_⟩, And.left⟩
    rintro rfl
    obtain ⟨entry, present, _⟩ := keyed root ref known
    rw [missing] at present
    cases present
  next entry present =>
    dsimp only
    split
    next leads =>
      constructor
      · intro known
        have different : entry.stateRoot ≠ root := by
          rintro rfl
          rw [Table.find?_erase_self] at known
          cases known
        rw [Table.find?_erase_of_ne _ different] at known
        refine ⟨known, ?_⟩
        rintro rfl
        obtain ⟨other, found, sameRoot⟩ := keyed root ref known
        rw [present] at found
        cases found
        exact different sameRoot
      · rintro ⟨known, different⟩
        have otherRoot : entry.stateRoot ≠ root := by
          rintro rfl
          rw [leads] at known
          exact different (Option.some.inj known).symm
        rwa [Table.find?_erase_of_ne _ otherRoot]
    next elsewhere =>
      refine ⟨fun known => ⟨known, ?_⟩, And.left⟩
      rintro rfl
      obtain ⟨other, found, sameRoot⟩ := keyed root ref known
      rw [present] at found
      cases found
      exact elsewhere (sameRoot ▸ known)

theorem Keyed.insert (keyed : pool.Keyed) (fresh : pool.find? entry.ref = none) :
    (pool.insert entry).Keyed := by
  intro root ref known
  rw [index_insert] at known
  split at known
  next same =>
    subst known
    exact ⟨entry, find?_insert_self pool entry, same⟩
  next =>
    obtain ⟨other, found, sameRoot⟩ := keyed root ref known
    have different : entry.ref ≠ ref := by
      rintro rfl
      rw [fresh] at found
      cases found
    exact ⟨other, (find?_insert_of_ne pool different).trans found, sameRoot⟩

theorem Keyed.remove (keyed : pool.Keyed) (dropped : NodeRef) : (pool.remove dropped).Keyed := by
  intro root ref known
  obtain ⟨known, different⟩ := (index_remove keyed).1 known
  obtain ⟨entry, found, sameRoot⟩ := keyed root ref known
  exact ⟨entry, find?_remove_eq_some_iff.2 ⟨different.symm, found⟩, sameRoot⟩

theorem Thinned.insert (thinned' : Thinned gone pool thinned) (kept : ¬ gone entry.ref) :
    Thinned gone (pool.insert entry) (thinned.insert entry) where
  found ref found := by
    by_cases same : entry.ref = ref
    · subst same
      simp [kept]
    · rw [find?_insert_of_ne pool same, find?_insert_of_ne thinned same, thinned'.found]
  indexed root ref := by
    rw [index_insert, index_insert]
    split
    next =>
      constructor
      · rintro rfl
        exact ⟨rfl, kept⟩
      · exact And.left
    next => exact thinned'.indexed root ref

/-- An entry that the second pool does not have may leave the first one. -/
theorem Thinned.remove
    (thinned' : Thinned gone pool thinned) (keyed : pool.Keyed)
    (absent : thinned.find? dropped = none) :
    Thinned gone (pool.remove dropped) thinned where
  found ref entry := by
    rw [thinned'.found, find?_remove_eq_some_iff]
    constructor
    · rintro ⟨found, kept⟩
      refine ⟨⟨?_, found⟩, kept⟩
      rintro rfl
      rw [(thinned'.found _ _).2 ⟨found, kept⟩] at absent
      cases absent
    · rintro ⟨⟨_, found⟩, kept⟩
      exact ⟨found, kept⟩
  indexed root ref := by
    rw [thinned'.indexed, index_remove keyed]
    constructor
    · rintro ⟨known, kept⟩
      refine ⟨⟨known, ?_⟩, kept⟩
      rintro rfl
      obtain ⟨entry, found, _⟩ := keyed root ref known
      rw [(thinned'.found _ _).2 ⟨found, kept⟩] at absent
      cases absent
    · rintro ⟨⟨known, _⟩, kept⟩
      exact ⟨known, kept⟩

theorem Thinned.congr (thinned' : Thinned gone pool thinned) {anchorSlot other : Nat} :
    Thinned gone { pool with anchorSlot := anchorSlot } { thinned with anchorSlot := other } :=
  ⟨thinned'.found, thinned'.indexed⟩

/-- The nodes whose entries are in the first pool but not in the second. -/
def Lost (pool left : Pool State Context) (ref : NodeRef) : Prop :=
  (∃ entry, pool.find? ref = some entry) ∧ left.find? ref = none

/-- The second pool is what is left of the first after some entries have left it. -/
structure Remains (pool left : Pool State Context) : Prop
    extends Thinned (Lost pool left) pool left where
  keyed : left.Keyed

theorem Remains.refl (keyed : pool.Keyed) : Remains pool pool where
  found ref entry := by
    refine ⟨fun found => ⟨found, fun lost => ?_⟩, And.left⟩
    rw [lost.2] at found
    cases found
  indexed root ref := by
    refine ⟨fun known => ⟨known, fun lost => ?_⟩, And.left⟩
    obtain ⟨entry, found, _⟩ := keyed root ref known
    rw [lost.2] at found
    cases found
  keyed := keyed

theorem Remains.remove (remains : Remains pool left) (dropped : NodeRef) :
    Remains pool (left.remove dropped) where
  found ref entry := by
    constructor
    · intro found
      refine ⟨((remains.found ref entry).1 (find?_remove_eq_some_iff.1 found).2).1, fun lost => ?_⟩
      rw [lost.2] at found
      cases found
    · rintro ⟨found, kept⟩
      cases known : (left.remove dropped).find? ref with
      | none => exact absurd ⟨⟨entry, found⟩, known⟩ kept
      | some other =>
        have same := ((remains.found ref other).1 (find?_remove_eq_some_iff.1 known).2).1
        rw [← found, same]
  indexed root ref := by
    rw [index_remove remains.keyed, remains.indexed]
    constructor
    · rintro ⟨⟨known, kept⟩, different⟩
      refine ⟨known, fun lost => ?_⟩
      obtain ⟨⟨entry, found⟩, missing⟩ := lost
      refine kept ⟨⟨entry, found⟩, ?_⟩
      rwa [find?_remove_of_ne left different.symm] at missing
    · rintro ⟨known, kept⟩
      have present : ∃ entry, (left.remove dropped).find? ref = some entry := by
        cases found : (left.remove dropped).find? ref with
        | some entry => exact ⟨entry, rfl⟩
        | none =>
          by_cases wasLost : Lost pool left ref
          · exact absurd ⟨wasLost.1, found⟩ kept
          · obtain ⟨entry, found', _⟩ := remains.keyed root ref
              ((remains.indexed root ref).2 ⟨known, wasLost⟩)
            exact absurd ⟨⟨entry, ((remains.found ref entry).1 found').1⟩, found⟩ kept
      obtain ⟨entry, found⟩ := present
      obtain ⟨different, before⟩ := find?_remove_eq_some_iff.1 found
      refine ⟨⟨known, fun lost => ?_⟩, different.symm⟩
      rw [lost.2] at before
      cases before
  keyed := remains.keyed.remove dropped

end Tables

/-- The entries among some marked nodes that are still to be handed on as canonical. -/
def due (pool : Pool State Context) (names : List (NodeRef × Bool)) : List (Entry State Context) :=
  names.filterMap fun name => if name.2 then pool.find? name.1 else none

theorem due_congr
    {pool other : Pool State Context} {names : List (NodeRef × Bool)}
    (same : ∀ name ∈ names, other.find? name.1 = pool.find? name.1) :
    other.due names = pool.due names :=
  List.filterMap_congr fun name member => by rw [same name member]

theorem due_append (pool : Pool State Context) (names others : List (NodeRef × Bool)) :
    pool.due (names ++ others) = pool.due names ++ pool.due others :=
  List.filterMap_append

section Offers

variable {receive : EntryReceiver State Context store} {pool left : Pool State Context}
  {state after : store} {log logAfter : List (Handover State Context)} {outcome : Except Error Unit}
  {node : Node} {canonical : Bool}

/-- What an offer does to the pool and to the log. -/
theorem release_cases
    (named : ∀ ref entry, pool.find? ref = some entry → entry.ref = ref)
    (released : release (watching receive) node canonical (pool, state, log) =
      (outcome, left, after, logAfter)) :
    (pool.find? node.ref = none ∧ outcome = .ok () ∧ left = pool ∧ logAfter = log) ∨
    (∃ entry error, pool.find? node.ref = some entry ∧ outcome = .error error ∧ left = pool ∧
      logAfter = log ++ [⟨entry, canonical, .error error⟩]) ∨
    ∃ entry anchorSlot, pool.find? node.ref = some entry ∧ outcome = .ok () ∧
      left = { pool.remove node.ref with anchorSlot := anchorSlot } ∧
      logAfter = log ++ [⟨entry, canonical, .ok ()⟩] := by
  unfold release at released
  dsimp only at released
  split at released
  next missing =>
    cases released
    exact .inl ⟨missing, rfl, rfl, rfl⟩
  next entry found =>
    split at released
    next refused =>
      cases released
      exact .inr (.inl ⟨entry, _, found, rfl, rfl, (eq_of_watching refused).2⟩)
    next accepted =>
      cases released
      rw [named _ _ found]
      exact .inr (.inr ⟨entry, _, found, rfl, rfl, (eq_of_watching accepted).2⟩)

/-- A node that is accepted leaves the pool, and is handed on if it was due. -/
theorem release_spec
    (named : ∀ ref entry, pool.find? ref = some entry → entry.ref = ref)
    (released : release (watching receive) node canonical (pool, state, log) =
      (outcome, left, after, logAfter)) :
    (outcome = .ok () ∧ taken logAfter = taken log ++ pool.due [(node.ref, canonical)] ∧
      ∀ ref entry, left.find? ref = some entry ↔ pool.find? ref = some entry ∧ node.ref ≠ ref) ∨
    (∃ error, outcome = .error error) ∧ taken logAfter = taken log ∧ left = pool := by
  rcases release_cases named released with
    ⟨missing, rfl, rfl, rfl⟩ | ⟨entry, error, found, rfl, rfl, rfl⟩ |
    ⟨entry, anchorSlot, found, rfl, rfl, rfl⟩
  · refine .inl ⟨rfl, ?_, fun ref entry => ⟨fun known => ⟨known, ?_⟩, And.left⟩⟩
    · cases canonical <;> simp [due, missing]
    · rintro rfl
      rw [missing] at known
      cases known
  · refine .inr ⟨⟨error, rfl⟩, ?_, rfl⟩
    rw [taken_concat]
    simp [Except.isOk, Except.toBool]
  · refine .inl ⟨rfl, ?_, fun ref other => ?_⟩
    · rw [taken_concat]
      cases canonical <;> simp [due, found, Except.isOk, Except.toBool]
    · rw [← and_comm]
      exact find?_remove_eq_some_iff

/-- The nodes that have been accepted have left the pool, and those of them that were due have
been handed on. -/
theorem offerAll_spec :
    ∀ {marked : List (Node × Bool)} {pool left : Pool State Context} {state after : store}
      {log logAfter : List (Handover State Context)} {outcome : Except Error Unit} {accepted : Nat},
      (∀ ref entry, pool.find? ref = some entry → entry.ref = ref) →
      (marked.map fun offered => offered.1.ref).Nodup →
      offerAll (release (watching receive)) marked (pool, state, log) =
        (outcome, accepted, left, after, logAfter) →
      taken logAfter = taken log ++
        pool.due ((marked.map fun offered => (offered.1.ref, offered.2)).take accepted) ∧
      ∀ ref entry, left.find? ref = some entry ↔ pool.find? ref = some entry ∧
        ∀ place offered, place < accepted → marked[place]? = some offered → offered.1.ref ≠ ref
  | [], pool, _, _, _, _, _, _, _, _, _, done => by
    cases done
    exact ⟨by simp [due], fun ref entry => by simp⟩
  | (node, canonical) :: rest, pool, left, state, after, log, logAfter, outcome, accepted, named,
      nodup, done => by
    rw [List.map_cons, List.nodup_cons] at nodup
    obtain ⟨notAgain, restNodup⟩ := nodup
    rw [offerAll] at done
    generalize released :
      release (watching receive) node canonical (pool, state, log) = result at done
    obtain ⟨answer, next, between, logBetween⟩ := result
    rcases release_spec named released with ⟨rfl, takes, found⟩ | ⟨⟨error, rfl⟩, same, rfl⟩
    · dsimp only at done
      generalize others : offerAll (release (watching receive)) rest (next, between, logBetween) =
        result at done
      obtain ⟨lastAnswer, count, last, lastState, lastLog⟩ := result
      cases done
      have nextNamed : ∀ ref entry, next.find? ref = some entry → entry.ref = ref :=
        fun ref entry known => named ref entry ((found ref entry).1 known).1
      obtain ⟨takesRest, foundRest⟩ := offerAll_spec nextNamed restNodup others
      have sameDue : next.due ((rest.map fun offered => (offered.1.ref, offered.2)).take count) =
          pool.due ((rest.map fun offered => (offered.1.ref, offered.2)).take count) := by
        refine due_congr fun name member => Option.ext fun entry => ?_
        obtain ⟨offered, isRest, rfl⟩ := List.mem_map.1 (List.mem_of_mem_take member)
        rw [found]
        refine and_iff_left fun same => notAgain ?_
        exact List.mem_map.2 ⟨offered, isRest, same.symm⟩
      constructor
      · rw [takesRest, takes, sameDue, List.append_assoc, ← due_append]
        rfl
      · intro ref entry
        rw [foundRest, found, and_assoc]
        refine and_congr_right fun _ => ⟨?_, ?_⟩
        · rintro ⟨different, others⟩ place offered before there
          cases place with
          | zero =>
            cases there
            exact different
          | succ place => exact others place offered (Nat.lt_of_succ_lt_succ before) there
        · intro all
          exact ⟨all 0 _ (Nat.succ_pos count) rfl,
            fun place offered before there =>
              all (place + 1) offered (Nat.succ_lt_succ before) there⟩
    · cases done
      exact ⟨by simp [same, due], fun ref entry => by simp⟩

end Offers

end Pool

end BeaconChain
