import Esker.Store.Tiling

/-!
Contract: the regions a store hosts (`esker-store/src/regions.rs`).

Owns: the map by id with its index by start key, its four updates and two queries, the
invariant the updates keep, and what the queries answer on a map that keeps it.

Does not own: the peer and the transport a hosted region carries, which no update or
query of the map reads.
-/

namespace Esker.Store

open Esker.Consensus (Bytes)
open Esker.KeyRange SortedMap

variable {K : Type} [LinearOrder K] [OrderBot K]

inductive RegionConflict (K : Type) where
  | alreadyHosted (id : Nat)
  | overlapping (region other : Region K)
  | splitNotHosted (parent : Nat)
  | splitChildHosted (parent child : Nat)
  | splitMovedStart (parent : Nat)
  | changedNotHosted (id : Nat)
  | rangeMoved (id : Nat)
deriving DecidableEq, Repr

/-- `regions.rs`'s `Inner`: the hosted regions, and the id that starts at each key. -/
structure RegionMap (K : Type) [LinearOrder K] where
  byId : SortedMap Nat (Region K)
  byStart : SortedMap K Nat

namespace RegionMap

def empty : RegionMap K := ⟨SortedMap.empty, SortedMap.empty⟩

variable (map : RegionMap K)

/-- The region covering `key`: the last one starting at or before it, if it reaches. -/
def find (key : K) : Option (Region K) :=
  match map.byStart.lastAtMost key with
  | none => none
  | some (_, id) =>
    match map.byId.lookup id with
    | none => none
    | some region => if region.contains key then some region else none

/-- Every region sharing a key with `[start, stop)`, in key order, walking from the last
region that starts at or before `start`. -/
def overlapping (start stop : K) : List (Region K) :=
  let first := match map.byStart.lastAtMost start with
    | none => ⊥
    | some (at_, _) => at_
  ((((map.byStart.fromKey first).filterMap fun entry => map.byId.lookup entry.2).takeWhile
    fun region => decide (stop = ⊥) || decide (region.startKey < stop)).filter
      fun region => region.overlaps start stop)

def insert (map : RegionMap K) (region : Region K) : Except (RegionConflict K) (RegionMap K) :=
  match map.byId.lookup region.id with
  | some _ => .error (.alreadyHosted region.id)
  | none =>
    match map.overlapping region.startKey region.endKey with
    | other :: _ => .error (.overlapping region other)
    | [] => .ok ⟨map.byId.insert region.id region, map.byStart.insert region.startKey region.id⟩

def applySplit (parent child : Region K) : Except (RegionConflict K) (RegionMap K) :=
  match map.byId.lookup parent.id with
  | none => .error (.splitNotHosted parent.id)
  | some existing =>
    match map.byId.lookup child.id with
    | some _ => .error (.splitChildHosted parent.id child.id)
    | none =>
      if existing.startKey ≠ parent.startKey then .error (.splitMovedStart parent.id)
      else .ok ⟨(map.byId.insert parent.id parent).insert child.id child,
        map.byStart.insert child.startKey child.id⟩

def replace (region : Region K) : Except (RegionConflict K) (RegionMap K) :=
  match map.byId.lookup region.id with
  | none => .error (.changedNotHosted region.id)
  | some existing =>
    if existing.startKey ≠ region.startKey ∨ existing.endKey ≠ region.endKey then
      .error (.rangeMoved region.id)
    else .ok { map with byId := map.byId.insert region.id region }

def remove (regionId : Nat) : Option (Region K) × RegionMap K :=
  match map.byId.lookup regionId with
  | none => (none, map)
  | some region => (some region, ⟨map.byId.erase regionId, map.byStart.erase region.startKey⟩)

/-! ## The invariant -/

/-- Regions are filed under their ids and hold a key, no key has two regions, and the
index has exactly the starts of the regions. -/
structure Valid (map : RegionMap K) : Prop where
  filed : ∀ id region, (id, region) ∈ map.byId → region.id = id
  proper : ∀ id region, (id, region) ∈ map.byId → region.ProperRange
  disjoint : ∀ id region other another, (id, region) ∈ map.byId → (other, another) ∈ map.byId →
    ∀ key, region.contains key = true → another.contains key = true → id = other
  indexed : ∀ start id, (start, id) ∈ map.byStart ↔
    ∃ region, (id, region) ∈ map.byId ∧ region.startKey = start

theorem valid_empty : (empty : RegionMap K).Valid := by
  constructor
  case filed =>
    intro id region mem
    exact absurd mem (not_mem_empty _)
  case proper =>
    intro id region mem
    exact absurd mem (not_mem_empty _)
  case disjoint =>
    intro id region other another mem
    exact absurd mem (not_mem_empty _)
  case indexed =>
    intro start id
    constructor
    · intro mem
      exact absurd mem (not_mem_empty _)
    · rintro ⟨region, mem, _⟩
      exact absurd mem (not_mem_empty _)

def Hosts (region : Region K) : Prop := (region.id, region) ∈ map.byId

variable {region : Region K} {map : RegionMap K}

namespace Valid

variable {map : RegionMap K}

theorem hosts (valid : map.Valid) {id : Nat} (mem : (id, region) ∈ map.byId) :
    map.Hosts region := by
  rw [Hosts, valid.filed id region mem]
  exact mem

variable {other : Region K} {key start : K} {after : RegionMap K}

section

variable (valid : map.Valid)
include valid

theorem eq_of_contains (hosted : map.Hosts region) (otherHosted : map.Hosts other)
    (inside : region.contains key = true) (otherInside : other.contains key = true) :
    region = other := by
  have sameId := valid.disjoint _ _ _ _ hosted otherHosted key inside otherInside
  rw [Hosts, ← sameId] at otherHosted
  exact value_unique hosted otherHosted

theorem start_mem (hosted : map.Hosts region) : (region.startKey, region.id) ∈ map.byStart :=
  (valid.indexed _ _).mpr ⟨region, hosted, rfl⟩

theorem of_start_mem {id : Nat} (mem : (start, id) ∈ map.byStart) :
    ∃ region, map.byId.lookup id = some region ∧ map.Hosts region ∧ region.id = id ∧
      region.startKey = start := by
  obtain ⟨region, held, starts⟩ := (valid.indexed _ _).mp mem
  exact ⟨region, lookup_eq_some_iff.mpr held, valid.hosts held, valid.filed _ _ held, starts⟩

theorem ends_before (hosted : map.Hosts region) (otherHosted : map.Hosts other)
    (below : region.startKey < other.startKey) :
    region.endKey ≠ ⊥ ∧ region.endKey ≤ other.startKey := by
  refine ends_before_of_not_meets (valid.proper _ _ hosted) (valid.proper _ _ otherHosted) below ?_
  rintro ⟨key, inside, otherInside⟩
  have same := valid.eq_of_contains hosted otherHosted (Region.contains_iff.mpr inside)
    (Region.contains_iff.mpr otherInside)
  rw [same] at below
  exact lt_irrefl _ below

/-! ## Queries -/

theorem find_eq_some_iff :
    map.find key = some region ↔ map.Hosts region ∧ region.contains key = true := by
  rw [find]
  cases last : map.byStart.lastAtMost key with
  | none =>
    constructor
    · intro answered
      cases answered
    rintro ⟨hosted, inside⟩
    have above := lastAtMost_eq_none last _ (valid.start_mem hosted)
    exact absurd (Region.contains_iff.mp inside).1 (not_le.mpr above)
  | some entry =>
    obtain ⟨start, id⟩ := entry
    obtain ⟨mem, atMost, greatest⟩ := lastAtMost_eq_some last
    obtain ⟨candidate, found, hosted, _, starts⟩ := valid.of_start_mem mem
    dsimp only
    rw [found]
    dsimp only
    constructor
    · intro answered
      split_ifs at answered with inside
      cases answered
      exact ⟨hosted, inside⟩
    · rintro ⟨regionHosted, inside⟩
      -- A region that contains the key starts at or before it, so at or before the
      -- candidate; starting strictly before it would end it before the key.
      have within := (Region.contains_iff.mp inside).1
      have notAfter := greatest _ (valid.start_mem regionHosted) within
      rcases notAfter.lt_or_eq with before | same
      · dsimp only at before
        rw [← starts] at before
        obtain ⟨bounded, ends⟩ := valid.ends_before regionHosted hosted before
        have reaches := (Region.contains_iff.mp inside).2.resolve_left bounded
        rw [starts] at ends
        exact absurd (reaches.trans_le (ends.trans atMost)) (lt_irrefl key)
      · dsimp only at same
        have sameStart := valid.start_mem regionHosted
        rw [same] at sameStart
        have sameId : region.id = id := value_unique sameStart mem
        have candidateHeld := lookup_eq_some_iff.mp found
        rw [Hosts, sameId] at regionHosted
        have candidateIs := value_unique candidateHeld regionHosted
        rw [candidateIs, if_pos inside]

theorem walk_mem {first : K} :
    region ∈ (map.byStart.fromKey first).filterMap (fun entry => map.byId.lookup entry.2) ↔
      map.Hosts region ∧ first ≤ region.startKey := by
  rw [List.mem_filterMap]
  constructor
  · rintro ⟨⟨start, id⟩, walked, found⟩
    obtain ⟨mem, atLeast⟩ := mem_fromKey.mp walked
    obtain ⟨candidate, candidateFound, hosted, _, starts⟩ := valid.of_start_mem mem
    rw [candidateFound] at found
    cases found
    rw [starts]
    exact ⟨hosted, atLeast⟩
  · rintro ⟨hosted, atLeast⟩
    exact ⟨(region.startKey, region.id), mem_fromKey.mpr ⟨valid.start_mem hosted, atLeast⟩,
      lookup_eq_some_iff.mpr hosted⟩

theorem walk_sorted (first : K) : ((map.byStart.fromKey first).filterMap
      (fun entry => map.byId.lookup entry.2)).Pairwise
        fun left right => left.startKey < right.startKey := by
  rw [List.pairwise_filterMap]
  refine List.Pairwise.imp_of_mem ?_ (map.byStart.fromKey_sorted first)
  rintro ⟨leftStart, leftId⟩ ⟨rightStart, rightId⟩ leftWalked rightWalked below
    leftRegion leftFound rightRegion rightFound
  obtain ⟨_, found, _, _, leftStarts⟩ :=
    valid.of_start_mem (mem_fromKey.mp leftWalked).1
  obtain ⟨_, otherFound, _, _, rightStarts⟩ :=
    valid.of_start_mem (mem_fromKey.mp rightWalked).1
  rw [found] at leftFound
  rw [otherFound] at rightFound
  cases leftFound
  cases rightFound
  rw [leftStarts, rightStarts]
  exact below

theorem mem_overlapping_iff {stop : K} (proper : Proper start stop) :
    region ∈ map.overlapping start stop ↔
      map.Hosts region ∧ Meets region.startKey region.endKey start stop := by
  rw [overlapping, List.mem_filter, mem_takeWhile_of_pairwise (valid.walk_sorted _), valid.walk_mem]
  · constructor
    · rintro ⟨⟨⟨hosted, _⟩, _⟩, shares⟩
      exact ⟨hosted, (Region.overlaps_iff (valid.proper _ _ hosted) proper).mp shares⟩
    rintro ⟨hosted, meets⟩
    have properRegion := valid.proper _ _ hosted
    refine ⟨⟨⟨hosted, ?_⟩, ?_⟩, (Region.overlaps_iff properRegion proper).mpr meets⟩
    · -- A region that starts before the walk's first one ends before `start`.
      cases last : map.byStart.lastAtMost start with
      | none => exact bot_le
      | some entry =>
        obtain ⟨first, id⟩ := entry
        dsimp only
        obtain ⟨mem, atMost, _⟩ := lastAtMost_eq_some last
        obtain ⟨candidate, _, candidateHosted, _, starts⟩ := valid.of_start_mem mem
        by_contra before
        rw [not_le, ← starts] at before
        have ends := valid.ends_before hosted candidateHosted before
        rw [starts] at ends
        exact ((meets_iff properRegion proper).mp meets).1 ⟨ends.1, ends.2.trans atMost⟩
    · have notAfter := ((meets_iff properRegion proper).mp meets).2
      rw [Bool.or_eq_true, decide_eq_true_eq, decide_eq_true_eq]
      by_cases unbounded : stop = ⊥
      · exact Or.inl unbounded
      · exact Or.inr (not_le.mp fun ends => notAfter ⟨unbounded, ends⟩)
  · intro left _ right _ below kept
    rw [Bool.or_eq_true, decide_eq_true_eq, decide_eq_true_eq] at kept ⊢
    exact kept.imp id fun rightBelow => below.trans rightBelow

end

/-! ## Updates -/

theorem added (valid : map.Valid) (proper : region.ProperRange)
    (absent : map.byId.lookup region.id = none)
    (apart : ∀ id other, (id, other) ∈ map.byId → ∀ key, region.contains key = true →
      other.contains key = false) :
    Valid ⟨map.byId.insert region.id region, map.byStart.insert region.startKey region.id⟩ := by
  constructor
  case filed => exact forall_insert rfl valid.filed
  case proper => exact forall_insert proper valid.proper
  case disjoint =>
    intro id held other another mem otherMember key inside otherInside
    rcases mem_insert.mp mem with ⟨rfl, rfl⟩ | ⟨_, old⟩ <;>
    rcases mem_insert.mp otherMember with ⟨rfl, rfl⟩ | ⟨_, otherOld⟩
    · rfl
    · simp [apart _ _ otherOld key inside] at otherInside
    · simp [apart _ _ old key otherInside] at inside
    · exact valid.disjoint _ _ _ _ old otherOld key inside otherInside
  case indexed =>
    intro start id
    rw [mem_insert]
    constructor
    · rintro (⟨rfl, rfl⟩ | ⟨_, old⟩)
      · exact ⟨region, mem_insert.mpr (Or.inl ⟨rfl, rfl⟩), rfl⟩
      obtain ⟨held, mem, starts⟩ := (valid.indexed _ _).mp old
      refine ⟨held, mem_insert.mpr (Or.inr ⟨?_, mem⟩), starts⟩
      rintro rfl
      exact lookup_eq_none_iff.mp absent held mem
    · rintro ⟨held, mem, rfl⟩
      rcases mem_insert.mp mem with ⟨rfl, rfl⟩ | ⟨_, old⟩
      · exact Or.inl ⟨rfl, rfl⟩
      refine Or.inr ⟨fun sameStart => ?_, (valid.indexed _ _).mpr ⟨held, old, rfl⟩⟩
      have inside := Region.contains_iff.mpr (inRange_start (valid.proper _ _ old))
      rw [apart _ _ old _ (sameStart ▸ Region.contains_iff.mpr (inRange_start proper))] at inside
      cases inside

theorem shrunk (valid : map.Valid) {existing : Region K} (held : (region.id, existing) ∈ map.byId)
    (starts : existing.startKey = region.startKey) (proper : region.ProperRange)
    (inside : ∀ key, region.contains key = true → existing.contains key = true) :
    Valid { map with byId := map.byId.insert region.id region } := by
  have earlier : ∀ id current, (id, current) ∈ map.byId.insert region.id region →
      current.id = id ∧ current.ProperRange ∧ ∃ before, (id, before) ∈ map.byId ∧
        before.startKey = current.startKey ∧
          ∀ key, current.contains key = true → before.contains key = true := by
    intro id current mem
    rcases mem_insert.mp mem with ⟨rfl, rfl⟩ | ⟨_, old⟩
    · exact ⟨rfl, proper, existing, held, starts, inside⟩
    · exact ⟨valid.filed _ _ old, valid.proper _ _ old, current, old, rfl, fun _ same => same⟩
  constructor
  case filed => exact fun id current mem => (earlier id current mem).1
  case proper => exact fun id current mem => (earlier id current mem).2.1
  case disjoint =>
    intro id current other another mem otherMember key isInside otherInside
    obtain ⟨_, _, before, old, _, within⟩ := earlier id current mem
    obtain ⟨_, _, otherBefore, otherOld, _, otherWithin⟩ := earlier other another otherMember
    exact valid.disjoint _ _ _ _ old otherOld key (within key isInside)
      (otherWithin key otherInside)
  case indexed =>
    intro start id
    rw [valid.indexed]
    constructor
    · rintro ⟨current, mem, isStart⟩
      by_cases same : id = region.id
      · refine ⟨region, mem_insert.mpr (Or.inl ⟨same, rfl⟩), ?_⟩
        rw [same] at mem
        rw [← starts, value_unique held mem]
        exact isStart
      · exact ⟨current, mem_insert.mpr (Or.inr ⟨same, mem⟩), isStart⟩
    · rintro ⟨current, mem, isStart⟩
      obtain ⟨_, _, before, old, sameStart, _⟩ := earlier id current mem
      exact ⟨before, old, sameStart.trans isStart⟩

theorem insert (valid : map.Valid) {region : Region K} {after : RegionMap K}
    (proper : region.ProperRange) (inserted : map.insert region = .ok after) : after.Valid := by
  rw [RegionMap.insert] at inserted
  split at inserted
  · cases inserted
  rename_i absent
  split at inserted
  · cases inserted
  rename_i none
  cases inserted
  refine valid.added proper absent fun id other mem key inside => ?_
  by_contra shared
  have met := (valid.mem_overlapping_iff proper).mpr ⟨valid.hosts mem, key,
    Region.contains_iff.mp ((Bool.not_eq_false _).mp shared), Region.contains_iff.mp inside⟩
  rw [none] at met
  cases met

/-- The two regions lie in the range `existing` had, and share no key. -/
structure Halves (existing parent child : Region K) : Prop where
  parentProper : parent.ProperRange
  childProper : child.ProperRange
  parentInside : ∀ key, parent.contains key = true → existing.contains key = true
  childInside : ∀ key, child.contains key = true → existing.contains key = true
  apart : ∀ key, parent.contains key = true → child.contains key = true → False

theorem applySplit (valid : map.Valid) {parent child : Region K}
    (halves : ∀ existing, (parent.id, existing) ∈ map.byId → Halves existing parent child)
    (applied : map.applySplit parent child = .ok after) : after.Valid := by
  rw [RegionMap.applySplit] at applied
  split at applied
  · cases applied
  rename_i existing found
  split at applied
  · cases applied
  rename_i absent
  split_ifs at applied with moved
  cases applied
  have held := lookup_eq_some_iff.mp found
  have parts := halves existing held
  have differs : child.id ≠ parent.id := by
    intro same
    rw [same, found] at absent
    cases absent
  have shrunk := valid.shrunk held (not_not.mp moved) parts.parentProper parts.parentInside
  refine shrunk.added parts.childProper
    ((lookup_insert_of_ne _ _ differs).trans absent) fun id other mem key inside => ?_
  by_contra shared
  rw [Bool.not_eq_false] at shared
  rcases mem_insert.mp mem with ⟨rfl, rfl⟩ | ⟨stays, old⟩
  · exact parts.apart key shared inside
  · exact stays (valid.disjoint _ _ _ _ old held key shared (parts.childInside key inside))

theorem replace (valid : map.Valid) (replaced : map.replace region = .ok after) : after.Valid := by
  rw [RegionMap.replace] at replaced
  split at replaced
  · cases replaced
  rename_i existing found
  split_ifs at replaced with moved
  cases replaced
  rw [not_or, not_not, not_not] at moved
  have held := lookup_eq_some_iff.mp found
  refine valid.shrunk held moved.1 ?_ fun key inside => ?_
  · rw [Region.ProperRange, ← moved.1, ← moved.2]
    exact valid.proper _ _ held
  · rw [Region.contains, moved.1, moved.2]
    exact inside

theorem remove (valid : map.Valid) (regionId : Nat) : (map.remove regionId).2.Valid := by
  rw [RegionMap.remove]
  cases found : map.byId.lookup regionId with
  | none => exact valid
  | some region =>
    have held := lookup_eq_some_iff.mp found
    dsimp only
    constructor
    case filed =>
      intro id current mem
      exact valid.filed _ _ (mem_erase.mp mem).2
    case proper =>
      intro id current mem
      exact valid.proper _ _ (mem_erase.mp mem).2
    case disjoint =>
      intro id current other another mem otherMember
      exact valid.disjoint _ _ _ _ (mem_erase.mp mem).2 (mem_erase.mp otherMember).2
    case indexed =>
      intro start id
      rw [mem_erase, valid.indexed]
      constructor
      · rintro ⟨otherStart, current, mem, starts⟩
        refine ⟨current, mem_erase.mpr ⟨?_, mem⟩, starts⟩
        rintro rfl
        rw [value_unique held mem] at otherStart
        exact otherStart starts.symm
      · rintro ⟨current, mem, starts⟩
        obtain ⟨differs, old⟩ := mem_erase.mp mem
        refine ⟨?_, current, old, starts⟩
        -- Two regions that start at one key would share it.
        intro sameStart
        apply differs
        refine valid.disjoint _ _ _ _ old held current.startKey
          (Region.contains_iff.mpr (inRange_start (valid.proper _ _ old))) ?_
        rw [starts, sameStart]
        exact Region.contains_iff.mpr (inRange_start (valid.proper _ _ held))

end Valid

/-! ## Runs -/

/-- One call of an update. A refused call leaves the map as it was. -/
inductive Call (K : Type) where
  | insert (region : Region K)
  | applySplit (parent child : Region K)
  | replace (region : Region K)
  | remove (regionId : Nat)
deriving DecidableEq, Repr

def call (map : RegionMap K) : Call K → RegionMap K
  | .insert region => (map.insert region).toOption.getD map
  | .applySplit parent child => (map.applySplit parent child).toOption.getD map
  | .replace region => (map.replace region).toOption.getD map
  | .remove regionId => (map.remove regionId).2

/-- What a caller passes: a region to insert holds a key, and a split's two regions are
halves of the region it divides. -/
def Call.WellFormed (map : RegionMap K) : Call K → Prop
  | .insert region => region.ProperRange
  | .applySplit parent child =>
    ∀ existing, (parent.id, existing) ∈ map.byId → Valid.Halves existing parent child
  | .replace _ | .remove _ => True

/-- Where a region of the map after a call comes from: its keys were in a region of the map
before, or the call inserted it. -/
theorem origin_of_call {next : Call K} (wellFormed : next.WellFormed map) {id : Nat}
    (mem : (id, region) ∈ (map.call next).byId) : (∃ other before, (other, before) ∈ map.byId ∧
      ∀ key, region.contains key = true → before.contains key = true) ∨
      next = .insert region := by
  have kept : (id, region) ∈ map.byId → (∃ other before, (other, before) ∈ map.byId ∧
      ∀ key, region.contains key = true → before.contains key = true) ∨
      next = .insert region :=
    fun old => Or.inl ⟨id, region, old, fun _ inside => inside⟩
  cases next with
  | insert inserted =>
    rw [call, insert.eq_def] at mem
    split at mem
    · exact kept mem
    split at mem
    · exact kept mem
    rcases mem_insert.mp mem with ⟨_, rfl⟩ | ⟨_, old⟩
    · exact Or.inr rfl
    · exact kept old
  | applySplit parent child =>
    rw [call, applySplit.eq_def] at mem
    split at mem
    · exact kept mem
    rename_i existing found
    have held := lookup_eq_some_iff.mp found
    have halves := wellFormed existing held
    split at mem
    · exact kept mem
    split_ifs at mem with moved
    · exact kept mem
    rcases mem_insert.mp mem with ⟨_, rfl⟩ | ⟨_, mem⟩
    · exact Or.inl ⟨_, existing, held, halves.childInside⟩
    rcases mem_insert.mp mem with ⟨_, rfl⟩ | ⟨_, old⟩
    · exact Or.inl ⟨_, existing, held, halves.parentInside⟩
    · exact kept old
  | replace replaced =>
    rw [call, replace.eq_def] at mem
    split at mem
    · exact kept mem
    rename_i existing found
    split_ifs at mem with moved
    · exact kept mem
    rw [not_or, not_not, not_not] at moved
    rcases mem_insert.mp mem with ⟨_, rfl⟩ | ⟨_, old⟩
    · refine Or.inl ⟨_, existing, lookup_eq_some_iff.mp found, ?_⟩
      intro key inside
      rw [Region.contains, moved.1, moved.2]
      exact inside
    · exact kept old
  | remove regionId =>
    rw [call, remove.eq_def] at mem
    split at mem
    · exact kept mem
    · exact kept (mem_erase.mp mem).2

def Call.target : Call K → Option Nat
  | .applySplit parent _ => some parent.id
  | .remove regionId => some regionId
  | .insert _ | .replace _ => none

theorem call_keeps {next : Call K} {id : Nat} (mem : (id, region) ∈ map.byId)
    (untargeted : next.target ≠ some id) : ∃ after, (id, after) ∈ (map.call next).byId ∧
      ∀ key, after.contains key = region.contains key := by
  have kept : (id, region) ∈ (map.call next).byId → ∃ after, (id, after) ∈ (map.call next).byId ∧
        ∀ key, after.contains key = region.contains key :=
    fun stays => ⟨region, stays, fun _ => rfl⟩
  cases next with
  | insert inserted =>
    apply kept
    rw [call, insert.eq_def]
    split
    · exact mem
    rename_i missing
    split
    · exact mem
    refine mem_insert.mpr (Or.inr ⟨?_, mem⟩)
    rintro rfl
    exact lookup_eq_none_iff.mp missing region mem
  | applySplit parent child =>
    apply kept
    rw [call, applySplit.eq_def]
    split
    · exact mem
    split
    · exact mem
    rename_i missing
    split_ifs
    · exact mem
    refine mem_insert.mpr (Or.inr ⟨?_, mem_insert.mpr (Or.inr ⟨?_, mem⟩)⟩)
    · rintro rfl
      exact lookup_eq_none_iff.mp missing region mem
    · rintro rfl
      exact untargeted rfl
  | replace replaced =>
    rw [call, replace.eq_def]
    split
    · exact ⟨region, mem, fun _ => rfl⟩
    rename_i existing found
    split_ifs with moved
    · exact ⟨region, mem, fun _ => rfl⟩
    rw [not_or, not_not, not_not] at moved
    by_cases same : id = replaced.id
    · subst same
      refine ⟨replaced, mem_insert.mpr (Or.inl ⟨rfl, rfl⟩), ?_⟩
      intro key
      rw [value_unique mem (lookup_eq_some_iff.mp found),
        Region.contains, Region.contains, moved.1, moved.2]
    · exact ⟨region, mem_insert.mpr (Or.inr ⟨same, mem⟩), fun _ => rfl⟩
  | remove regionId =>
    apply kept
    rw [call, remove.eq_def]
    split
    · exact mem
    refine mem_erase.mpr ⟨?_, mem⟩
    rintro rfl
    exact untargeted rfl

def calls (map : RegionMap K) : List (Call K) → RegionMap K
  | [] => map
  | next :: rest => (map.call next).calls rest

/-- Every call of the sequence is well formed where it is made. -/
def AllWellFormed (map : RegionMap K) : List (Call K) → Prop
  | [] => True
  | next :: rest => next.WellFormed map ∧ (map.call next).AllWellFormed rest

theorem Valid.getD (valid : map.Valid) {result : Except (RegionConflict K) (RegionMap K)}
    (accepted : ∀ after, result = .ok after → after.Valid) : (result.toOption.getD map).Valid := by
  cases result with
  | error refusal => exact valid
  | ok after => exact accepted after rfl

theorem Valid.call (valid : map.Valid) {next : Call K} (wellFormed : next.WellFormed map) :
    (map.call next).Valid := by
  cases next with
  | insert region => exact valid.getD fun _ inserted => valid.insert wellFormed inserted
  | applySplit parent child =>
    exact valid.getD fun _ applied => valid.applySplit wellFormed applied
  | replace region => exact valid.getD fun _ replaced => valid.replace replaced
  | remove regionId => exact valid.remove regionId

theorem Valid.calls (valid : map.Valid) {sequence : List (Call K)}
    (wellFormed : map.AllWellFormed sequence) : (map.calls sequence).Valid := by
  induction sequence generalizing map with
  | nil => exact valid
  | cons next rest ih =>
    exact ih (valid.call wellFormed.1) wellFormed.2

end RegionMap

/-! ## Regions tile the key space -/

/-- From one region with the whole key space, under splits whose ids are new where they
take effect and any membership changes, the records stay a partition and every region's
epoch only advances. Under well-formed calls the hosted regions stay disjoint, `find`
answers with the one a key is in, and `overlapping` with the ones a range meets. -/
theorem regions_tile_keySpace (whole : Region K) (fromStart : whole.startKey = ⊥)
    (toEnd : whole.endKey = ⊥) :
    (∀ records, Relation.ReflTransGen RecordStep (oneRecord whole) records →
      (∀ key, ∃! entry : Nat × Region K, entry ∈ records ∧ entry.2.contains key = true) ∧
      (∀ id region, (id, region) ∈ records → region.id = id ∧ region.ProperRange) ∧
      ∀ later, Relation.ReflTransGen RecordStep records later →
        ∀ id before, (id, before) ∈ records →
          ∃ after, (id, after) ∈ later ∧ Advances before after) ∧
    (∀ sequence : List (RegionMap.Call K), RegionMap.empty.AllWellFormed sequence →
      (∀ region other key, (RegionMap.empty.calls sequence).Hosts region →
        (RegionMap.empty.calls sequence).Hosts other → region.contains key = true →
        other.contains key = true → region = other) ∧
      (∀ key region, (RegionMap.empty.calls sequence).find key = some region ↔
        (RegionMap.empty.calls sequence).Hosts region ∧ region.contains key = true) ∧
      ∀ start stop, Proper start stop →
        ∀ region, region ∈ (RegionMap.empty.calls sequence).overlapping start stop ↔
          (RegionMap.empty.calls sequence).Hosts region ∧
            Meets region.startKey region.endKey start stop) := by
  constructor
  · intro records run
    obtain ⟨tiles, _⟩ := RecordStep.run_preserves run (tiles_oneRecord fromStart toEnd)
    refine ⟨?_, ?_, ?_⟩
    · intro key
      obtain ⟨id, region, member, inside⟩ := tiles.covers key
      refine ⟨(id, region), ⟨member, inside⟩, ?_⟩
      rintro ⟨other, another⟩ ⟨otherMember, otherInside⟩
      have sameId := tiles.disjoint _ _ _ _ otherMember member key otherInside inside
      rw [sameId] at otherMember ⊢
      rw [value_unique otherMember member]
    · intro id region member
      exact ⟨tiles.filed _ _ member, tiles.proper _ _ member⟩
    · intro later laterRun
      exact (RecordStep.run_preserves laterRun tiles).2
  · intro sequence wellFormed
    have valid := RegionMap.valid_empty.calls wellFormed
    refine ⟨?_, ?_, ?_⟩
    · intro region other key hosted otherHosted inside otherInside
      exact valid.eq_of_contains hosted otherHosted inside otherInside
    · intro key region
      exact valid.find_eq_some_iff
    · intro start stop proper region
      exact valid.mem_overlapping_iff proper

/-- The first region of a cluster is such a start. -/
theorem regions_tile_from_bootstrap : (Region.bootstrap 1 1 1 : Region Bytes).startKey = ⊥ ∧
      ∀ records, Relation.ReflTransGen RecordStep (oneRecord (Region.bootstrap 1 1 1)) records →
        ∀ key : Bytes, ∃! entry : Nat × Region Bytes,
          entry ∈ records ∧ entry.2.contains key = true :=
  ⟨rfl, fun records run =>
    ((regions_tile_keySpace (Region.bootstrap 1 1 1 : Region Bytes) rfl rfl).1 records run).1⟩

/-- A record for the counterexamples: one voter, first epoch. -/
def plainRegion (id : Nat) (startKey endKey : Bytes) : Region Bytes :=
  ⟨id, startKey, endKey, [⟨1, id, .voter⟩], Epoch.initial⟩

/-- Outside those conditions. A split of region 2 under region 1's id leaves the key `[0]`
without a record. A split whose child lies in another hosted region is accepted, and the
key `[7]` has two regions. A hosted region whose range is inverted hides the region that
has the key `[16]`. An inverted request is answered with a region although it holds no
key. -/
theorem regions_not_tiled :
    (∀ entry ∈ (applyRecordEntry (applyRecordEntry (oneRecord (plainRegion 1 [] []))
        1 (.split [5] 2 [7])) 2 (.split [9] 1 [8])).entries, entry.2.contains [0] = false) ∧
    ((RegionMap.empty.calls [.insert (plainRegion 1 [] [5]), .insert (plainRegion 2 [5] [9]),
        .applySplit (plainRegion 1 [] [3]) (plainRegion 3 [6] [8])]).byId.entries.filter
          fun entry => entry.2.contains [7]).map Prod.fst = [2, 3] ∧
    ((RegionMap.empty.calls [.insert (plainRegion 1 [13] [3]),
        .insert (plainRegion 2 [4] [26])]).byId.lookup 2 = some (plainRegion 2 [4] [26]) ∧
      (plainRegion 2 [4] [26]).contains [16] = true ∧
      (RegionMap.empty.calls [.insert (plainRegion 1 [13] [3]),
        .insert (plainRegion 2 [4] [26])]).find [16] = none) ∧
    ((RegionMap.empty.calls [.insert (plainRegion 1 [1] [26])]).overlapping [13] [3] =
        [plainRegion 1 [1] [26]] ∧
      ∀ key : Bytes, ¬ InRange [13] [3] key) := by
  refine ⟨by decide +kernel, by decide +kernel, by decide +kernel, by decide +kernel, ?_⟩
  rintro key inside
  have proper := inside.proper
  revert proper
  decide +kernel

end Esker.Store
