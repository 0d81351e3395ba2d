import Esker.Store.Locality

/-!
Contract: the regions of one store across crashes (`PeerCore::drive`, `PeerCore::apply` and
`PeerCore::compact` in `esker-store/src/peer.rs`, `stage_ready`, `stage_applied` and
`stage_compact` in `esker-store/src/raft_log.rs`).

Owns: one database that any number of regions write to, of which a crash loses a suffix of
the unsynced batches; what a region is after a prefix of its log; and that a reopened store
holds exactly that.

Does not own: that a region's log is agreed on, and how a region is received or retired.
-/

namespace Esker.Store

open Esker.Consensus (Bytes)
open Esker.KeyRange SortedMap
open Relation (ReflTransGen)

variable {K : Type} [LinearOrder K] [OrderBot K]

/-! ## Logs -/

def NamesChild (payload : Payload K) (id : Nat) : Prop :=
  ∃ splitKey newPeerIds, payload = .command (.split splitKey id newPeerIds)

/-- The committed logs of all regions, with the regions there are at the start. An id is
given to one region only. -/
structure History (K : Type) [LinearOrder K] [OrderBot K] where
  log : Nat → Nat → Payload K
  first : Nat → Option (Region K × Data K)
  once : ∀ {parent index other otherIndex id}, NamesChild (log parent index) id →
    NamesChild (log other otherIndex) id → parent = other ∧ index = otherIndex
  fresh : ∀ {parent index id}, NamesChild (log parent index) id → first id = none

/-- A region's record and data after the entries of its log up to an index, each applied
once and in order. A region made by a split starts from what its parent held there. -/
inductive Replays (history : History K) : Nat → Nat → Region K → Data K → Prop
  | first {id : Nat} {region : Region K} {data : Data K}
      (given : history.first id = some (region, data)) : Replays history id 0 region data
  | next {id index : Nat} {region : Region K} {data : Data K}
      {answer : Except (ProtoError K) (Applied K)} {after : PeerState K}
      (earlier : Replays history id index region data)
      (applied : (PeerState.mk region SortedMap.empty data index).apply (index + 1)
        (history.log id (index + 1)) = .ok (answer, after)) :
      Replays history id (index + 1) after.region after.data
  | child {parent index newRegionId : Nat} {region left right : Region K} {data : Data K}
      {splitKey : K} {newPeerIds : List Nat} (earlier : Replays history parent index region data)
      (named : history.log parent (index + 1) = .command (.split splitKey newRegionId newPeerIds))
      (staged : stageSplit region splitKey newRegionId newPeerIds = .ok (some (left, right))) :
      Replays history newRegionId 0 right data

variable {history : History K} {region : Region K}

theorem Replays.unique {id index : Nat} {other : Region K}
    {data otherData : Data K} (one : Replays history id index region data)
    (two : Replays history id index other otherData) : region = other ∧ data = otherData := by
  induction one generalizing other otherData with
  | first given =>
    cases two with
    | first otherGiven =>
      rw [given] at otherGiven
      cases otherGiven
      exact ⟨rfl, rfl⟩
    | child earlier named staged =>
      rw [history.fresh ⟨_, _, named⟩] at given
      cases given
  | next earlier applied ih =>
    cases two with
    | next otherEarlier otherApplied =>
      obtain ⟨rfl, rfl⟩ := ih otherEarlier
      rw [applied] at otherApplied
      cases otherApplied
      exact ⟨rfl, rfl⟩
  | child earlier named staged ih =>
    cases two with
    | first otherGiven =>
      rw [history.fresh ⟨_, _, named⟩] at otherGiven
      cases otherGiven
    | child otherEarlier otherNamed otherStaged =>
      obtain ⟨rfl, sameIndex⟩ := history.once ⟨_, _, named⟩ ⟨_, _, otherNamed⟩
      obtain rfl := Nat.succ.inj sameIndex
      obtain ⟨rfl, rfl⟩ := ih otherEarlier
      rw [named] at otherNamed
      cases otherNamed
      rw [staged] at otherStaged
      cases otherStaged
      exact ⟨rfl, rfl⟩

/-! ## The store -/

/-- The part of a region's raft state record that places its log. A region without one is
at the start of its log. -/
structure LogPosition where
  applied : Nat
  commit : Nat
  truncated : Nat
deriving DecidableEq, Repr

/-- The database: region records, data and the positions of the logs. -/
structure StoreDisk (K : Type) [LinearOrder K] where
  records : Records K
  data : Data K
  positions : Nat → LogPosition

/-- A database and the older ones a crash can bring back, newest first. -/
structure DrivenStore (K : Type) [LinearOrder K] where
  disk : StoreDisk K
  unsynced : List (StoreDisk K)

namespace StoreDisk

def setPosition (disk : StoreDisk K) (id : Nat) (position : LogPosition) : StoreDisk K :=
  { disk with positions := fun other => if other = id then position else disk.positions other }

/-- The batch that applies the next entry of a region's log: what the entry stages and the
apply index. -/
def applyNext (log : Nat → Nat → Payload K) (id : Nat) (disk : StoreDisk K) :
    Option (StoreDisk K) :=
  match disk.records.lookup id with
  | none => none
  | some region =>
    let position := disk.positions id
    match (PeerState.mk region disk.records disk.data position.applied).apply
        (position.applied + 1) (log id (position.applied + 1)) with
    | .error _ => none
    | .ok (_, next) =>
      some ({ disk with records := next.records, data := next.data }.setPosition id
        { position with applied := next.appliedIndex })

end StoreDisk

/-- The steps of a store. An entry is applied only if it is committed and keeps to its
region. -/
inductive DriveStep (history : History K) : DrivenStore K → DrivenStore K → Prop
  | apply (store : DrivenStore K) (id : Nat) (region : Region K) (next : StoreDisk K)
      (held : (id, region) ∈ store.disk.records)
      (committed : (store.disk.positions id).applied < (store.disk.positions id).commit)
      (keeps : Local region (history.log id ((store.disk.positions id).applied + 1)))
      (applied : store.disk.applyNext history.log id = some next) :
      DriveStep history store ⟨next, store.disk :: store.unsynced⟩
  -- Persisting a `Ready`, synced: the commit index may move.
  | persist (store : DrivenStore K) (id commit : Nat)
      (grows : (store.disk.positions id).commit ≤ commit) :
      DriveStep history store
        ⟨store.disk.setPosition id { store.disk.positions id with commit }, []⟩
  -- Compacting a log, synced: never past what has applied.
  | compact (store : DrivenStore K) (id target : Nat)
      (within : target ≤ (store.disk.positions id).applied) :
      DriveStep history store
        ⟨store.disk.setPosition id { store.disk.positions id with truncated := target }, []⟩
  | restart (store : DrivenStore K) (disk : StoreDisk K)
      (found : disk ∈ store.disk :: store.unsynced) : DriveStep history store ⟨disk, []⟩

/-! ## What an entry does to the records -/

section Records

variable {state next : PeerState K} {index : Nat} {payload : Payload K}
  {answer : Except (ProtoError K) (Applied K)}

theorem PeerState.apply_mem (held : (state.region.id, state.region) ∈ state.records)
    (applied : state.apply index payload = .ok (answer, next)) {id : Nat} {current : Region K}
    (mem : (id, current) ∈ next.records) :
    (id = state.region.id ∧ current = next.region) ∨
      (id ≠ state.region.id ∧ (id, current) ∈ state.records) ∨
      ∃ splitKey newPeerIds, payload = .command (.split splitKey id newPeerIds) ∧
        stageSplit state.region splitKey id newPeerIds = .ok (some (next.region, current)) ∧
        next.data = state.data := by
  -- Where no record moves, the only record under the region's id is its own.
  have unmoved : (id, current) ∈ state.records → next.region = state.region →
      (id = state.region.id ∧ current = next.region) ∨
        (id ≠ state.region.id ∧ (id, current) ∈ state.records) := by
    intro recorded sameRegion
    by_cases isOwn : id = state.region.id
    · rw [isOwn] at recorded
      exact Or.inl ⟨isOwn, (value_unique recorded held).trans sameRegion.symm⟩
    · exact Or.inr ⟨isOwn, recorded⟩
  cases PeerState.apply_step applied with
  | unchanged | written => exact (unmoved mem rfl).imp_right Or.inl
  | moved staged =>
    obtain ⟨storeId, computed, _⟩ := stageConfChange_some staged
    have sameId := congrArg Region.id (applyConfChange_ok computed).2
    rcases mem_insert.mp mem with ⟨isId, isMoved⟩ | ⟨differs, old⟩
    · exact Or.inl ⟨isId.trans sameId, isMoved⟩
    · exact Or.inr (Or.inl ⟨fun same => differs (same.trans sameId.symm), old⟩)
  | divided staged =>
    obtain ⟨_, split⟩ := stageSplit_some staged
    rcases (mem_divided split id current).mp mem with
      ⟨rfl, rfl⟩ | ⟨isOwn, rfl⟩ | ⟨_, differs, old⟩
    · exact Or.inr (Or.inr ⟨_, _, rfl, staged, rfl⟩)
    · exact Or.inl ⟨isOwn, rfl⟩
    · exact Or.inr (Or.inl ⟨differs, old⟩)

section

variable (applied : state.apply index payload = .ok (answer, next))
include applied

theorem PeerState.apply_keeps {id : Nat} {current : Region K} (mem : (id, current) ∈ state.records) :
    ∃ later, (id, later) ∈ next.records := by
  have inserted : ∀ {records : Records K} (home : Nat) (region : Region K),
      (∃ later, (id, later) ∈ records) → ∃ later, (id, later) ∈ records.insert home region := by
    rintro records home region ⟨later, held⟩
    by_cases same : id = home
    · exact ⟨region, mem_insert.mpr (Or.inl ⟨same, rfl⟩)⟩
    · exact ⟨later, mem_insert.mpr (Or.inr ⟨same, held⟩)⟩
  cases PeerState.apply_step applied with
  | unchanged | written => exact ⟨current, mem⟩
  | moved => exact inserted _ _ ⟨current, mem⟩
  | divided => exact inserted _ _ (inserted _ _ ⟨current, mem⟩)

theorem PeerState.apply_id : next.region.id = state.region.id := by
  cases PeerState.apply_step applied with
  | unchanged => rfl
  | written => rfl
  | moved staged =>
    obtain ⟨storeId, computed, _⟩ := stageConfChange_some staged
    have sameId := congrArg Region.id (applyConfChange_ok computed).2
    exact sameId
  | divided staged =>
    obtain ⟨_, split⟩ := stageSplit_some staged
    obtain ⟨_, _, _, _, parentIs⟩ := splitRegion_ok split
    have sameId := congrArg Region.id parentIs
    exact sameId

theorem PeerState.apply_appliedIndex : next.appliedIndex = index := by
  cases PeerState.apply_step applied <;> rfl

end

end Records

/-! ## The invariant -/

/-- Every region recorded here is what its log says, the regions share no key, and none was
recorded before the entry that makes it. -/
structure Replayed (history : History K) (disk : StoreDisk K) : Prop where
  content : ∀ id region, (id, region) ∈ disk.records → ∃ data,
    Replays history id (disk.positions id).applied region data ∧
      AgreesOn region disk.data data ∧ data.cells.Sorted
  filed : ∀ id region, (id, region) ∈ disk.records → region.id = id
  apart : ∀ id region other another, (id, region) ∈ disk.records →
    (other, another) ∈ disk.records → ∀ key, region.contains key = true →
      another.contains key = true → id = other
  sorted : disk.data.cells.Sorted
  created : ∀ id region, (id, region) ∈ disk.records → history.first id ≠ none ∨
    ∃ parent index, NamesChild (history.log parent index) id ∧
      index ≤ (disk.positions parent).applied
  unstarted : ∀ id, disk.records.lookup id = none → (disk.positions id).applied = 0
  placed : ∀ id, (disk.positions id).truncated ≤ (disk.positions id).applied ∧
    (disk.positions id).applied ≤ (disk.positions id).commit

namespace Replayed

variable {history : History K} {disk after : StoreDisk K} {id : Nat}

omit [OrderBot K] in
theorem position_self (disk : StoreDisk K) (id : Nat) (position : LogPosition) :
    (disk.setPosition id position).positions id = position := if_pos rfl

omit [OrderBot K] in
theorem position_of_ne (disk : StoreDisk K) {id other : Nat} (position : LogPosition)
    (differs : other ≠ id) :
    (disk.setPosition id position).positions other = disk.positions other := if_neg differs

theorem applyNext_some {log : Nat → Nat → Payload K}
    (held : (id, region) ∈ disk.records) (applied : disk.applyNext log id = some after) :
    ∃ answer next, (PeerState.mk region disk.records disk.data (disk.positions id).applied).apply
        ((disk.positions id).applied + 1) (log id ((disk.positions id).applied + 1)) =
          .ok (answer, next) ∧
      after = { disk with records := next.records, data := next.data }.setPosition id
        { disk.positions id with applied := (disk.positions id).applied + 1 } := by
  rw [StoreDisk.applyNext, lookup_eq_some_iff.mpr held] at applied
  dsimp only at applied
  split at applied
  · cases applied
  rename_i answer next computed
  rw [PeerState.apply_appliedIndex computed] at applied
  exact ⟨answer, next, computed, (Option.some.inj applied).symm⟩

theorem reposition (replayed : Replayed history disk) (position : LogPosition)
    (same : position.applied = (disk.positions id).applied)
    (placed : position.truncated ≤ position.applied ∧ position.applied ≤ position.commit) :
    Replayed history (disk.setPosition id position) := by
  have applied : ∀ other, ((disk.setPosition id position).positions other).applied =
      (disk.positions other).applied := by
    intro other
    by_cases isThis : other = id
    · rw [isThis, position_self, same]
    · rw [position_of_ne disk position isThis]
  refine ⟨?_, replayed.filed, replayed.apart, replayed.sorted, ?_, ?_, ?_⟩
  · intro other region mem
    rw [applied]
    exact replayed.content other region mem
  · intro other region mem
    rcases replayed.created other region mem with given | ⟨parent, index, named, reached⟩
    · exact Or.inl given
    refine Or.inr ⟨parent, index, named, ?_⟩
    rw [applied]
    exact reached
  · intro other missing
    rw [applied]
    exact replayed.unstarted other missing
  · intro other
    by_cases isThis : other = id
    · rw [isThis, position_self]
      exact placed
    · rw [position_of_ne disk position isThis]
      exact replayed.placed other

theorem child_unrecorded (replayed : Replayed history disk) {child : Nat}
    (named : NamesChild (history.log id ((disk.positions id).applied + 1)) child) :
    disk.records.lookup child = none := by
  rw [lookup_eq_none_iff]
  intro region mem
  rcases replayed.created child region mem with given | ⟨parent, index, others, reached⟩
  · exact given (history.fresh named)
  · obtain ⟨rfl, rfl⟩ := history.once named others
    omega

/-- What made a region has been applied when one more entry is. -/
theorem created_applied (replayed : Replayed history disk) {position : LogPosition}
    (reached : (disk.positions id).applied ≤ position.applied) {records : Records K}
    {data : Data K} {other : Nat} {current : Region K} (mem : (other, current) ∈ disk.records) :
    history.first other ≠ none ∨ ∃ parent index, NamesChild (history.log parent index) other ∧
      index ≤ ((StoreDisk.setPosition { disk with records, data } id position).positions
        parent).applied := by
  rcases replayed.created other current mem with given | ⟨parent, index, named, earlier⟩
  · exact Or.inl given
  refine Or.inr ⟨parent, index, named, earlier.trans ?_⟩
  by_cases isThis : parent = id
  · rw [isThis, position_self]
    exact reached
  · rw [position_of_ne _ _ isThis]

theorem child_of_staged {region parent current : Region K} {child : Nat} {splitKey : K}
    {newPeerIds : List Nat} (isId : region.id = id)
    (staged : stageSplit region splitKey child newPeerIds = .ok (some (parent, current))) :
    child ≠ id ∧ current.id = child ∧
      (∀ key, current.contains key = true → region.contains key = true) ∧
      ∀ key, parent.contains key = true → current.contains key = true → False := by
  obtain ⟨divides, split⟩ := stageSplit_some staged
  obtain ⟨differs, childId, _, _, _⟩ := splitRegion_ok split
  refine ⟨fun same => differs (same.trans isId.symm), childId, ?_, ?_⟩
  · exact fun key inside => (contains_divided divides split key).mpr (Or.inr inside)
  · exact fun key left right => not_contains_both divides split left right

/-- The regions share no key after the entry either: each lies in one that was there, under its own
id or under the id of the region that applied. -/
theorem apart_applied (replayed : Replayed history disk) (held : (id, region) ∈ disk.records)
    {index : Nat} {answer : Except (ProtoError K) (Applied K)} {next : PeerState K}
    (computed : (PeerState.mk region disk.records disk.data (disk.positions id).applied).apply
      index (history.log id index) = .ok (answer, next)) :
    ∀ one current two another, (one, current) ∈ next.records → (two, another) ∈ next.records →
      ∀ key, current.contains key = true → another.contains key = true → one = two := by
  have isId := replayed.filed id region held
  have heldHere : (region.id, region) ∈ disk.records := isId.symm ▸ held
  have within : ∀ other current, (other, current) ∈ next.records →
      ∃ home outer, (home, outer) ∈ disk.records ∧
        (∀ key, current.contains key = true → outer.contains key = true) ∧
        (home = other ∧ (home = id → current = next.region) ∨ home = id ∧
          (∀ key, next.region.contains key = true → current.contains key = true → False) ∧
          NamesChild (history.log id index) other) := by
    intro other current mem
    rcases PeerState.apply_mem heldHere computed mem with ⟨isOwn, rfl⟩ | ⟨differs, old⟩ |
      ⟨splitKey, newPeerIds, named, staged, _⟩
    · exact ⟨id, region, held, (PeerState.apply_frame computed).2,
        Or.inl ⟨(isOwn.trans isId).symm, fun _ => rfl⟩⟩
    · exact ⟨other, current, old, fun _ inside => inside,
        Or.inl ⟨rfl, fun same => absurd (same.trans isId.symm) differs⟩⟩
    · obtain ⟨_, _, inside, disjoint⟩ := child_of_staged isId staged
      exact ⟨id, region, held, inside, Or.inr ⟨rfl, disjoint, _, _, named⟩⟩
  intro one current two another oneMember twoMember key inOne inTwo
  obtain ⟨home, outer, old, inside, isOne⟩ := within one current oneMember
  obtain ⟨homeTwo, outerTwo, oldTwo, insideTwo, isTwo⟩ := within two another twoMember
  obtain rfl := replayed.apart home outer homeTwo outerTwo old oldTwo key (inside key inOne)
    (insideTwo key inTwo)
  rcases isOne with ⟨rfl, oneOwn⟩ | ⟨rfl, oneApart, _, _, oneNamed⟩ <;>
    rcases isTwo with ⟨rfl, twoOwn⟩ | ⟨isHome, twoApart, _, _, twoNamed⟩
  · rfl
  · exact (twoApart key (oneOwn isHome ▸ inOne) inTwo).elim
  · exact (oneApart key (twoOwn rfl ▸ inTwo) inOne).elim
  · rw [oneNamed] at twoNamed
    cases twoNamed
    rfl

/-- Applying the next entry of one region keeps every region what its log says. -/
theorem apply (replayed : Replayed history disk) (held : (id, region) ∈ disk.records)
    (committed : (disk.positions id).applied < (disk.positions id).commit)
    (keeps : Local region (history.log id ((disk.positions id).applied + 1)))
    (applied : disk.applyNext history.log id = some after) : Replayed history after := by
  obtain ⟨answer, next, computed, isAfter⟩ := applyNext_some held applied
  subst isAfter
  obtain ⟨data, replays, agrees, dataSorted⟩ := replayed.content id region held
  have isId := replayed.filed id region held
  have heldHere : (region.id, region) ∈ disk.records := isId.symm ▸ held
  obtain ⟨twin, twinApplied, sameRegion, twinAgrees, nextSorted, twinSorted⟩ :=
    @PeerState.apply_congr _ _ _ _
      (PeerState.mk region disk.records disk.data (disk.positions id).applied)
      (PeerState.mk region SortedMap.empty data (disk.positions id).applied) _ _ _ rfl agrees
      replayed.sorted dataSorted keeps computed
  obtain ⟨frame, narrower⟩ := PeerState.apply_frame computed
  have changes := frame.mpr (keeps.clamped disk.data)
  have members := fun other current mem =>
    @PeerState.apply_mem _ _ _ _ _ _ _ _ heldHere computed other current mem
  -- What another region holds is not the entry's to change.
  have others : ∀ other current, other ≠ id → (other, current) ∈ disk.records →
      AgreesOn current next.data disk.data := by
    intro other current differs mem key inside
    by_contra changed
    exact differs (replayed.apart other current id region mem held key inside (changes key changed))
  constructor
  case content =>
    intro other current mem
    rcases members other current mem with ⟨isOwn, rfl⟩ | ⟨differs, old⟩ |
      ⟨splitKey, newPeerIds, named, staged, sameData⟩
    · rw [isOwn.trans isId, position_self, ← sameRegion]
      refine ⟨twin.data, Replays.next replays twinApplied, ?_, twinSorted⟩
      intro key inside
      rw [sameRegion] at inside
      exact twinAgrees key (narrower key inside)
    · have notOwn : other ≠ id := fun same => differs (same.trans isId.symm)
      rw [position_of_ne _ _ notOwn]
      obtain ⟨kept, keptReplays, keptAgrees, keptSorted⟩ := replayed.content other current old
      exact ⟨kept, keptReplays, (others other current notOwn old).trans keptAgrees, keptSorted⟩
    · obtain ⟨differs, _, within, _⟩ := child_of_staged isId staged
      have start := replayed.unstarted other (replayed.child_unrecorded ⟨_, _, named⟩)
      rw [position_of_ne _ _ differs]
      show ∃ data, Replays history other (disk.positions other).applied current data ∧ _
      rw [start]
      refine ⟨data, Replays.child replays named staged, ?_, dataSorted⟩
      intro key inside
      rw [← agrees key (within key inside)]
      exact congrArg (fun held => held.at key) sameData
  case filed =>
    intro other current mem
    rcases members other current mem with ⟨isOwn, rfl⟩ | ⟨_, old⟩ |
      ⟨splitKey, newPeerIds, named, staged, _⟩
    · rw [isOwn]
      exact PeerState.apply_id computed
    · exact replayed.filed other current old
    · exact (child_of_staged isId staged).2.1
  case apart => exact replayed.apart_applied held computed
  case sorted => exact nextSorted
  case created =>
    intro other current mem
    rcases members other current mem with ⟨isOwn, _⟩ | ⟨_, old⟩ |
      ⟨splitKey, newPeerIds, named, staged, _⟩
    · rw [isOwn.trans isId]
      exact replayed.created_applied (Nat.le_succ _) held
    · exact replayed.created_applied (Nat.le_succ _) old
    · refine Or.inr ⟨id, _, ⟨_, _, named⟩, ?_⟩
      rw [position_self]
  case unstarted =>
    intro other missing
    rw [lookup_eq_none_iff] at missing
    have absent : ∀ current, (other, current) ∉ disk.records := by
      intro current mem
      obtain ⟨later, stays⟩ := PeerState.apply_keeps computed mem
      exact missing later stays
    have differs : other ≠ id := by
      rintro rfl
      exact absent region held
    rw [position_of_ne _ _ differs]
    exact replayed.unstarted other (lookup_eq_none_iff.mpr absent)
  case placed =>
    intro other
    by_cases isThis : other = id
    · rw [isThis, position_self]
      exact ⟨(replayed.placed id).1.trans (Nat.le_succ _), committed⟩
    · rw [position_of_ne _ _ isThis]
      exact replayed.placed other

end Replayed

/-! ## Runs -/

def DrivenStore.Replayed (history : History K) (store : DrivenStore K) : Prop :=
  ∀ disk ∈ store.disk :: store.unsynced, Store.Replayed history disk

theorem DriveStep.preserves {store next : DrivenStore K}
    (step : DriveStep history store next) (replayed : store.Replayed history) :
    next.Replayed history := by
  have current := replayed store.disk List.mem_cons_self
  cases step with
  | apply id region after held committed keeps applied =>
    intro disk mem
    rcases List.mem_cons.mp mem with rfl | older
    · exact current.apply held committed keeps applied
    · exact replayed disk older
  | persist id commit grows =>
    intro disk mem
    rw [List.mem_singleton.mp mem]
    exact current.reposition _ rfl ⟨(current.placed id).1, (current.placed id).2.trans grows⟩
  | compact id target within =>
    intro disk mem
    rw [List.mem_singleton.mp mem]
    exact current.reposition _ rfl ⟨within, (current.placed id).2⟩
  | restart disk found =>
    intro image mem
    rw [List.mem_singleton.mp mem]
    exact replayed disk found

/-- A store at the start of its regions' logs: some of the first regions, which share no
key. -/
structure DrivenStore.Starts (history : History K) (store : DrivenStore K) : Prop where
  synced : store.unsynced = []
  given : ∀ id region, (id, region) ∈ store.disk.records → ∃ data,
    history.first id = some (region, data) ∧ AgreesOn region store.disk.data data ∧
      data.cells.Sorted
  filed : ∀ id region, (id, region) ∈ store.disk.records → region.id = id
  apart : ∀ id region other another, (id, region) ∈ store.disk.records →
    (other, another) ∈ store.disk.records → ∀ key, region.contains key = true →
      another.contains key = true → id = other
  sorted : store.disk.data.cells.Sorted
  unstarted : ∀ id, store.disk.positions id = ⟨0, 0, 0⟩

theorem DrivenStore.Starts.replayed {store : DrivenStore K}
    (starts : store.Starts history) : store.Replayed history := by
  intro disk mem
  rw [starts.synced, List.mem_singleton] at mem
  subst mem
  constructor
  case content =>
    intro id region held
    obtain ⟨data, given, agrees, sorted⟩ := starts.given id region held
    rw [starts.unstarted id]
    exact ⟨data, Replays.first given, agrees, sorted⟩
  case filed => exact starts.filed
  case apart => exact starts.apart
  case sorted => exact starts.sorted
  case created =>
    intro id region held
    obtain ⟨data, given, _⟩ := starts.given id region held
    left
    rw [given]
    exact Option.some_ne_none _
  case unstarted =>
    intro id _
    rw [starts.unstarted id]
  case placed =>
    intro id
    rw [starts.unstarted id]
    exact ⟨Nat.le_refl 0, Nat.le_refl 0⟩

theorem DriveStep.run_replayed {start store : DrivenStore K} (starts : start.Starts history)
    (run : ReflTransGen (DriveStep history) start store) : store.Replayed history := by
  induction run with
  | refl => exact starts.replayed
  | tail _ step ih => exact step.preserves ih

/-- In every run whose entries keep to their regions, whatever a reopen finds is each
region's record and data after exactly the entries up to its apply index, and that index
lies between the truncation point and the commit index. Two stores that have applied one
prefix of a region's log therefore hold the same record and the same data of it. -/
theorem entries_applied_once {history : History K} {start store : DrivenStore K}
    (starts : start.Starts history) (run : ReflTransGen (DriveStep history) start store) :
    (∀ disk ∈ store.disk :: store.unsynced,
      (∀ id region, (id, region) ∈ disk.records → ∃ data,
        Replays history id (disk.positions id).applied region data ∧
          AgreesOn region disk.data data) ∧
      ∀ id, (disk.positions id).truncated ≤ (disk.positions id).applied ∧
        (disk.positions id).applied ≤ (disk.positions id).commit) ∧
    ∀ twinStart twin : DrivenStore K, twinStart.Starts history →
      ReflTransGen (DriveStep history) twinStart twin →
      ∀ disk ∈ store.disk :: store.unsynced, ∀ twinDisk ∈ twin.disk :: twin.unsynced,
        ∀ id region twinRegion, (id, region) ∈ disk.records →
          (id, twinRegion) ∈ twinDisk.records →
          (disk.positions id).applied = (twinDisk.positions id).applied →
          region = twinRegion ∧ AgreesOn region disk.data twinDisk.data := by
  have replayed := DriveStep.run_replayed starts run
  constructor
  · intro disk member
    refine ⟨?_, (replayed disk member).placed⟩
    intro id region held
    obtain ⟨data, replays, agrees, _⟩ := (replayed disk member).content id region held
    exact ⟨data, replays, agrees⟩
  · intro twinStart twin twinStarts twinRun disk member twinDisk twinMember id region twinRegion
      held twinHeld samePrefix
    have twinReplayed := DriveStep.run_replayed twinStarts twinRun
    obtain ⟨data, replays, agrees, _⟩ := (replayed disk member).content id region held
    obtain ⟨twinData, twinReplays, twinAgrees, _⟩ :=
      (twinReplayed twinDisk twinMember).content id twinRegion twinHeld
    rw [samePrefix] at replays
    obtain ⟨rfl, rfl⟩ := replays.unique twinReplays
    exact ⟨rfl, agrees.trans twinAgrees.symm⟩

/-! ## Entries that leave their region -/

/-- The database of `loadedPeer` at the start of every log. -/
def loadedDisk : StoreDisk Bytes :=
  ⟨loadedPeer.records, loadedPeer.data, fun _ => ⟨0, 0, 0⟩⟩

/-- Region 1 splits at `[5]` and goes on with another entry. -/
def splitLog (second : Payload Bytes) : Nat → Nat → Payload Bytes :=
  fun id index =>
    if id = 1 ∧ index = 1 then .command (.split [5] 2 [9])
    else if id = 1 ∧ index = 2 then second else .noop

theorem splitLog_names {parent index id : Nat}
    (named : NamesChild (splitLog .noop parent index) id) : parent = 1 ∧ index = 1 ∧ id = 2 := by
  obtain ⟨splitKey, newPeerIds, isSplit⟩ := named
  rw [splitLog] at isSplit
  split_ifs at isSplit with first
  cases isSplit
  exact ⟨first.1, first.2, rfl⟩

/-- The history of a group that starts with region 1 and splits it once. -/
def splitHistory : History Bytes where
  log := splitLog .noop
  first id := if id = 1 then some (Region.bootstrap 1 1 1, loadedPeer.data) else none
  once := by
    intro parent index other otherIndex id named others
    obtain ⟨rfl, rfl, _⟩ := splitLog_names named
    obtain ⟨rfl, rfl, _⟩ := splitLog_names others
    exact ⟨rfl, rfl⟩
  fresh := by
    intro parent index id named
    obtain ⟨_, _, rfl⟩ := splitLog_names named
    rfl

/-- The split's new region, found at a reopen after the batch that made it, is what its log
says, and its apply index is inside its log. -/
theorem split_child_replayed :
    ∃ disk child, (loadedDisk.setPosition 1 ⟨0, 1, 0⟩).applyNext (splitLog .noop) 1 =
        some disk ∧
      (2, child) ∈ disk.records ∧
      ∃ data, Replays splitHistory 2 (disk.positions 2).applied child data ∧
        AgreesOn child disk.data data := by
  have starts : (DrivenStore.mk loadedDisk []).Starts splitHistory := by
    have only : ∀ id region, (id, region) ∈ loadedDisk.records →
        id = 1 ∧ region = Region.bootstrap 1 1 1 := fun id region member =>
      mem_oneRecord.mp member
    constructor
    case synced => rfl
    case given =>
      intro id region member
      obtain ⟨rfl, rfl⟩ := only id region member
      exact ⟨loadedPeer.data, rfl, fun _ _ => rfl, List.Pairwise.nil⟩
    case filed =>
      intro id region member
      obtain ⟨rfl, rfl⟩ := only id region member
      rfl
    case apart =>
      intro id region other another member otherMember _ _ _
      rw [(only id region member).1, (only other another otherMember).1]
    case sorted => exact List.Pairwise.nil
    case unstarted => exact fun _ => rfl
  obtain ⟨disk, applied⟩ : ∃ disk, (loadedDisk.setPosition 1 ⟨0, 1, 0⟩).applyNext
      (splitLog .noop) 1 = some disk := ⟨_, rfl⟩
  have held : (1, Region.bootstrap 1 1 1) ∈ (loadedDisk.setPosition 1 ⟨0, 1, 0⟩).records :=
    mem_oneRecord.mpr ⟨rfl, rfl⟩
  have run : ReflTransGen (DriveStep splitHistory) (DrivenStore.mk loadedDisk [])
      ⟨disk, [loadedDisk.setPosition 1 ⟨0, 1, 0⟩]⟩ :=
    (ReflTransGen.single (DriveStep.persist _ 1 1 (Nat.zero_le 1))).tail
      (DriveStep.apply _ 1 _ disk held Nat.zero_lt_one trivial applied)
  have recorded : disk.records.lookup 2 =
      some ⟨2, [5], [], [⟨1, 9, .voter⟩], ⟨1, 2⟩⟩ := by
    cases applied
    decide +kernel
  have member := lookup_eq_some_iff.mp recorded
  exact ⟨disk, _, applied, member,
    ((entries_applied_once starts run).1 disk List.mem_cons_self).1 2 _ member⟩

/-- A database that holds region 1 up to `[5]`, with a newer write of the key `[7]` or
without it. -/
def boundedDisk (written : Bool) : StoreDisk Bytes where
  records := oneRecord ⟨1, [], [5], [⟨1, 1, .voter⟩], Epoch.initial⟩
  data := ⟨SortedMap.empty,
    if written then [([7], ⟨none, [⟨20, ⟨.put, 15, some [1]⟩⟩], []⟩)] else []⟩
  positions := fun _ => ⟨0, 0, 0⟩

/-- Two entries whose range ends past their region. A range delete of region 1 takes the key
`[7]` of region 2, whose record and apply index do not move. And a prewrite of region 1 that
checks a range locks its key `[3]` on a store without the write of `[7]` only. -/
theorem entry_past_region_diverges :
    ((loadedDisk.applyNext (splitLog (.command (.deleteRange [1] [9]))) 1).map fun disk =>
        ((disk.records.lookup 2).map Region.epoch, (disk.positions 2).applied,
          disk.data.raw.lookup [7])) = some (some ⟨1, 2⟩, 0, some [1]) ∧
      (((loadedDisk.applyNext (splitLog (.command (.deleteRange [1] [9]))) 1).bind
        (StoreDisk.applyNext (splitLog (.command (.deleteRange [1] [9]))) 1)).map fun disk =>
          ((disk.records.lookup 2).map Region.epoch, (disk.positions 2).applied,
            disk.data.raw.lookup [7])) = some (some ⟨1, 2⟩, 0, none) ∧
      (((boundedDisk true).applyNext (fun _ _ => .command (.txn (.prewrite 10 [3] 1
        [.put [3] [2] none, .checkRange [1] [9]]))) 1).map fun disk =>
          (disk.data.cells.get [3]).lock.isSome) = some false ∧
      (((boundedDisk false).applyNext (fun _ _ => .command (.txn (.prewrite 10 [3] 1
        [.put [3] [2] none, .checkRange [1] [9]]))) 1).map fun disk =>
          (disk.data.cells.get [3]).lock.isSome) = some true := by
  decide +kernel

end Esker.Store
