import Esker.SortedMap
import Esker.Store.Region

/-!
Contract: the region records under the entries their logs apply.

Owns: the records by region id, what one applied split or membership change does to
them, that they stay a partition of the key space, and how a region's epoch moves.

Does not own: the order in which the logs of different regions apply; every order is a
run here.
-/

namespace Esker.Store

open Esker.Consensus (Bytes ConfChange)
open Esker.KeyRange SortedMap

variable {K : Type} [LinearOrder K] [OrderBot K]

abbrev Records (K : Type) := SortedMap Nat (Region K)

inductive RecordEntry (K : Type) where
  | split (splitKey : K) (newRegionId : Nat) (newPeerIds : List Nat)
  | confChange (change : ConfChange)
deriving DecidableEq, Repr

/-- The records after a peer of `regionId` applies the entry. A refused entry, a replayed
one and one of a region without a record change nothing. -/
def applyRecordEntry (records : Records K) (regionId : Nat) (entry : RecordEntry K) :
    Records K :=
  match records.lookup regionId with
  | none => records
  | some region =>
    match entry with
    | .split splitKey newRegionId newPeerIds =>
      match stageSplit region splitKey newRegionId newPeerIds with
      | .ok (some (parent, child)) =>
        (records.insert parent.id parent).insert child.id child
      | _ => records
    | .confChange change =>
      match stageConfChange region change with
      | .ok (some moved) => records.insert moved.id moved
      | _ => records

/-- The three things an applied entry can do to the records. -/
inductive RecordMove (records : Records K) (regionId : Nat) : RecordEntry K → Records K → Prop
  | kept (entry : RecordEntry K) : RecordMove records regionId entry records
  | divided {region parent child : Region K} {splitKey : K} {newRegionId : Nat}
      {newPeerIds : List Nat} (held : (regionId, region) ∈ records)
      (divides : Divides region.startKey region.endKey splitKey)
      (split : splitRegion region splitKey newRegionId newPeerIds = .ok (parent, child)) :
      RecordMove records regionId (.split splitKey newRegionId newPeerIds)
        ((records.insert parent.id parent).insert child.id child)
  | moved {region after : Region K} {change : ConfChange} {storeId : Nat}
      (held : (regionId, region) ∈ records)
      (applied : applyConfChange region change storeId = .ok after) :
      RecordMove records regionId (.confChange change) (records.insert after.id after)

theorem applyRecordEntry_move (records : Records K) (regionId : Nat) (entry : RecordEntry K) :
    RecordMove records regionId entry (applyRecordEntry records regionId entry) := by
  rw [applyRecordEntry]
  cases found : records.lookup regionId with
  | none => exact RecordMove.kept entry
  | some region =>
    have held := lookup_eq_some_iff.mp found
    cases entry with
    | split splitKey newRegionId newPeerIds =>
      dsimp only
      split
      · rename_i parent child staged
        obtain ⟨divides, split⟩ := stageSplit_some staged
        exact RecordMove.divided held divides split
      · exact RecordMove.kept _
    | confChange change =>
      dsimp only
      split
      · rename_i moved staged
        obtain ⟨storeId, applied, _⟩ := stageConfChange_some staged
        exact RecordMove.moved held applied
      · exact RecordMove.kept _

/-! ## The partition -/

/-- The records are a partition of the key space: every record is filed under its own id
and holds a key, every key has a record, and no key has two. -/
structure Tiles (records : Records K) : Prop where
  filed : ∀ id region, (id, region) ∈ records → region.id = id
  proper : ∀ id region, (id, region) ∈ records → region.ProperRange
  covers : ∀ key, ∃ id region, (id, region) ∈ records ∧ region.contains key = true
  disjoint : ∀ id region other another, (id, region) ∈ records → (other, another) ∈ records →
    ∀ key, region.contains key = true → another.contains key = true → id = other

def oneRecord (region : Region K) : Records K := SortedMap.empty.insert region.id region

variable {region : Region K} {records after : Records K}

omit [LinearOrder K] [OrderBot K] in
theorem mem_oneRecord {held : Region K} {id : Nat} :
    (id, held) ∈ oneRecord region ↔ id = region.id ∧ held = region := by
  rw [oneRecord, mem_insert]
  constructor
  · rintro (same | ⟨_, absurdMember⟩)
    · exact same
    · exact absurd absurdMember (not_mem_empty _)
  · intro same
    exact Or.inl same

theorem tiles_oneRecord (fromStart : region.startKey = ⊥) (toEnd : region.endKey = ⊥) :
    Tiles (oneRecord region) := by
  have whole : ∀ key, region.contains key = true := by
    intro key
    rw [Region.contains_iff, fromStart, toEnd]
    exact inRange_whole key
  constructor
  case filed =>
    intro id held mem
    obtain ⟨rfl, rfl⟩ := mem_oneRecord.mp mem
    rfl
  case proper =>
    intro id held mem
    obtain ⟨rfl, rfl⟩ := mem_oneRecord.mp mem
    exact Or.inl toEnd
  case covers =>
    intro key
    exact ⟨region.id, region, mem_oneRecord.mpr ⟨rfl, rfl⟩, whole key⟩
  case disjoint =>
    intro id held other another mem otherMember key _ _
    rw [(mem_oneRecord.mp mem).1, (mem_oneRecord.mp otherMember).1]

theorem Tiles.replace_one (tiles : Tiles records) {after : Region K}
    (held : (region.id, region) ∈ records) (sameId : after.id = region.id)
    (sameStart : after.startKey = region.startKey) (sameEnd : after.endKey = region.endKey) :
    Tiles (records.insert after.id after) := by
  have sameKeys : ∀ key, after.contains key = region.contains key := by
    intro key
    rw [Region.contains, Region.contains, sameStart, sameEnd]
  have earlier : ∀ id current, (id, current) ∈ records.insert after.id after →
      ∃ before, (id, before) ∈ records ∧ current.id = id ∧ current.ProperRange ∧
        ∀ key, current.contains key = before.contains key := by
    intro id current mem
    rcases mem_insert.mp mem with ⟨rfl, rfl⟩ | ⟨_, old⟩
    · rw [sameId]
      refine ⟨region, held, rfl, ?_, sameKeys⟩
      rw [Region.ProperRange, sameStart, sameEnd]
      exact tiles.proper _ _ held
    · exact ⟨current, old, tiles.filed _ _ old, tiles.proper _ _ old, fun _ => rfl⟩
  constructor
  case filed =>
    intro id current mem
    obtain ⟨_, _, filed, _, _⟩ := earlier id current mem
    exact filed
  case proper =>
    intro id current mem
    obtain ⟨_, _, _, proper, _⟩ := earlier id current mem
    exact proper
  case covers =>
    intro key
    obtain ⟨id, current, mem, inside⟩ := tiles.covers key
    by_cases same : id = after.id
    · refine ⟨after.id, after, mem_insert.mpr (Or.inl ⟨rfl, rfl⟩), ?_⟩
      rw [same, sameId] at mem
      rw [sameKeys, value_unique held mem]
      exact inside
    · exact ⟨id, current, mem_insert.mpr (Or.inr ⟨same, mem⟩), inside⟩
  case disjoint =>
    intro id current other another mem otherMember key inside otherInside
    obtain ⟨before, old, _, _, same⟩ := earlier id current mem
    obtain ⟨otherBefore, otherOld, _, _, otherSame⟩ := earlier other another otherMember
    rw [same] at inside
    rw [otherSame] at otherInside
    exact tiles.disjoint _ _ _ _ old otherOld key inside otherInside

section Division

variable {records : Records K} {region parent child : Region K} {splitKey : K}
  {newRegionId : Nat} {newPeerIds : List Nat}

omit [LinearOrder K] [OrderBot K] in
theorem mem_divided (split : splitRegion region splitKey newRegionId newPeerIds =
      .ok (parent, child)) (id : Nat) (current : Region K) :
    (id, current) ∈ (records.insert parent.id parent).insert child.id child ↔
      (id = newRegionId ∧ current = child) ∨ (id = region.id ∧ current = parent) ∨
        (id ≠ newRegionId ∧ id ≠ region.id ∧ (id, current) ∈ records) := by
  obtain ⟨differs, childId, _, _, parentIs⟩ := splitRegion_ok split
  have parentId : parent.id = region.id := by rw [parentIs]
  rw [mem_insert, mem_insert, childId, parentId]
  constructor
  · rintro (same | ⟨other, same | ⟨another, mem⟩⟩)
    · exact Or.inl same
    · exact Or.inr (Or.inl same)
    · exact Or.inr (Or.inr ⟨other, another, mem⟩)
  · rintro (same | same | ⟨other, another, mem⟩)
    · exact Or.inl same
    · refine Or.inr ⟨?_, Or.inl same⟩
      rw [same.1]
      exact differs.symm
    · exact Or.inr ⟨other, Or.inr ⟨another, mem⟩⟩

section

variable (divides : Divides region.startKey region.endKey splitKey)
  (split : splitRegion region splitKey newRegionId newPeerIds = .ok (parent, child))
include divides split

theorem contains_divided (key : K) :
    region.contains key = true ↔ parent.contains key = true ∨ child.contains key = true := by
  obtain ⟨_, _, childStart, childEnd, parentIs⟩ := splitRegion_ok split
  rw [Region.contains_iff, Region.contains_iff, Region.contains_iff, childStart, childEnd, parentIs]
  exact divides.inRange_iff key

theorem not_contains_both {key : K} (left : parent.contains key = true)
    (right : child.contains key = true) : False := by
  obtain ⟨_, _, childStart, childEnd, parentIs⟩ := splitRegion_ok split
  rw [Region.contains_iff, parentIs] at left
  rw [Region.contains_iff, childStart, childEnd] at right
  exact divides.disjoint left right

end

theorem Tiles.divide (tiles : Tiles records) (held : (region.id, region) ∈ records)
    (divides : Divides region.startKey region.endKey splitKey)
    (split : splitRegion region splitKey newRegionId newPeerIds = .ok (parent, child))
    (fresh : records.lookup newRegionId = none) :
    Tiles ((records.insert parent.id parent).insert child.id child) := by
  obtain ⟨_, childId, childStart, childEnd, parentIs⟩ := splitRegion_ok split
  have halves := contains_divided divides split
  constructor
  case filed =>
    intro id current mem
    rcases (mem_divided split id current).mp mem with
      ⟨rfl, rfl⟩ | ⟨rfl, rfl⟩ | ⟨_, _, old⟩
    · exact childId
    · rw [parentIs]
    · exact tiles.filed _ _ old
  case proper =>
    intro id current mem
    rcases (mem_divided split id current).mp mem with
      ⟨_, rfl⟩ | ⟨_, rfl⟩ | ⟨_, _, old⟩
    · rw [Region.ProperRange, childStart, childEnd]
      exact divides.right_proper
    · rw [parentIs]
      exact divides.left_proper
    · exact tiles.proper _ _ old
  case covers =>
    intro key
    obtain ⟨id, current, old, inside⟩ := tiles.covers key
    by_cases same : id = region.id
    · rw [same] at old
      rw [← value_unique held old] at inside
      rcases (halves key).mp inside with left | right
      · exact ⟨region.id, parent, (mem_divided split _ _).mpr (Or.inr (Or.inl ⟨rfl, rfl⟩)),
          left⟩
      · exact ⟨newRegionId, child, (mem_divided split _ _).mpr (Or.inl ⟨rfl, rfl⟩), right⟩
    · have notNew : id ≠ newRegionId := by
        rintro rfl
        exact lookup_eq_none_iff.mp fresh current old
      exact ⟨id, current, (mem_divided split _ _).mpr (Or.inr (Or.inr ⟨notNew, same, old⟩)), inside⟩
  case disjoint =>
    intro id current other another mem otherMember key inside otherInside
    rcases (mem_divided split id current).mp mem with
      ⟨rfl, rfl⟩ | ⟨rfl, rfl⟩ | ⟨_, differs, kept⟩ <;>
    rcases (mem_divided split other another).mp otherMember with
      ⟨rfl, rfl⟩ | ⟨rfl, rfl⟩ | ⟨_, otherDiffers, otherKept⟩
    · rfl
    · exact (not_contains_both divides split otherInside inside).elim
    · exact absurd (tiles.disjoint _ _ _ _ held otherKept key
        ((halves key).mpr (Or.inr inside)) otherInside) otherDiffers.symm
    · exact (not_contains_both divides split inside otherInside).elim
    · rfl
    · exact absurd (tiles.disjoint _ _ _ _ held otherKept key
        ((halves key).mpr (Or.inl inside)) otherInside) otherDiffers.symm
    · exact absurd (tiles.disjoint _ _ _ _ kept held key inside
        ((halves key).mpr (Or.inr otherInside))) differs
    · exact absurd (tiles.disjoint _ _ _ _ kept held key inside
        ((halves key).mpr (Or.inl otherInside))) differs
    · exact tiles.disjoint _ _ _ _ kept otherKept key inside otherInside

end Division

/-! ## Runs -/

/-- One applied entry. A split that takes effect carries an id no region has: ids are
unique in the cluster. A replayed split carries its own child's id and takes no effect. -/
inductive RecordStep : Records K → Records K → Prop
  | split {records : Records K} (regionId : Nat) (splitKey : K) (newRegionId : Nat)
      (newPeerIds : List Nat)
      (fresh : ∀ region halves, records.lookup regionId = some region →
        stageSplit region splitKey newRegionId newPeerIds = .ok (some halves) →
          records.lookup newRegionId = none) :
      RecordStep records
        (applyRecordEntry records regionId (.split splitKey newRegionId newPeerIds))
  | confChange {records : Records K} (regionId : Nat) (change : ConfChange) :
      RecordStep records (applyRecordEntry records regionId (.confChange change))

/-- A region's record and a later one of the same region: neither part of the epoch went
down, and `version` went up if the range moved. -/
structure Advances (before after : Region K) : Prop where
  confVer : before.epoch.confVer ≤ after.epoch.confVer
  version : before.epoch.version ≤ after.epoch.version
  range : (before.startKey, before.endKey) ≠ (after.startKey, after.endKey) →
    before.epoch.version < after.epoch.version

omit [LinearOrder K] [OrderBot K] in
theorem Advances.refl (region : Region K) : Advances region region :=
  ⟨le_rfl, le_rfl, fun differs => absurd rfl differs⟩

omit [LinearOrder K] [OrderBot K] in
theorem Advances.trans {first second third : Region K} (early : Advances first second)
    (late : Advances second third) : Advances first third := by
  refine ⟨early.confVer.trans late.confVer, early.version.trans late.version, ?_⟩
  intro differs
  by_cases same : (first.startKey, first.endKey) = (second.startKey, second.endKey)
  · rw [same] at differs
    exact early.version.trans_lt (late.range differs)
  · exact (early.range same).trans_le late.version

/-- One entry keeps the partition and every region's record, which only advances. -/
theorem RecordMove.preserves {regionId : Nat} {entry : RecordEntry K}
    (move : RecordMove records regionId entry after) (tiles : Tiles records)
    (fresh : ∀ splitKey newRegionId newPeerIds,
      entry = .split splitKey newRegionId newPeerIds → after ≠ records →
      records.lookup newRegionId = none) : Tiles after ∧ ∀ id before, (id, before) ∈ records →
      ∃ current, (id, current) ∈ after ∧ Advances before current := by
  cases move with
  | kept =>
    refine ⟨tiles, ?_⟩
    intro id before mem
    exact ⟨before, mem, Advances.refl before⟩
  | @divided region parent child splitKey newRegionId newPeerIds held divides split =>
    have filed : region.id = regionId := tiles.filed _ _ held
    rw [← filed] at held
    obtain ⟨_, _, _, _, parentIs⟩ := splitRegion_ok split
    -- The parent's own record moved, so the step took effect and the id is new.
    have takesEffect : (records.insert parent.id parent).insert child.id child ≠ records := by
      intro unchanged
      have nowParent : (region.id, parent) ∈
          (records.insert parent.id parent).insert child.id child :=
        (mem_divided split region.id parent).mpr (Or.inr (Or.inl ⟨rfl, rfl⟩))
      rw [unchanged] at nowParent
      have same := value_unique held nowParent
      have version := congrArg (fun current : Region K => current.epoch.version) same
      rw [parentIs] at version
      exact absurd version (Nat.ne_of_lt (Nat.lt_succ_self _))
    have unused := fresh splitKey newRegionId newPeerIds rfl takesEffect
    refine ⟨tiles.divide held divides split unused, ?_⟩
    intro id before mem
    by_cases same : id = region.id
    · rw [same] at mem
      rw [same, ← value_unique held mem]
      refine ⟨parent, (mem_divided split _ _).mpr (Or.inr (Or.inl ⟨rfl, rfl⟩)), ?_⟩
      rw [parentIs]
      exact ⟨le_rfl, Nat.le_succ _, fun _ => Nat.lt_succ_self _⟩
    · have notNew : id ≠ newRegionId := by
        rintro rfl
        exact lookup_eq_none_iff.mp unused before mem
      exact ⟨before, (mem_divided split _ _).mpr (Or.inr (Or.inr ⟨notNew, same, mem⟩)),
        Advances.refl before⟩
  | @moved region moved change storeId held applied =>
    have filed : region.id = regionId := tiles.filed _ _ held
    rw [← filed] at held
    obtain ⟨_, movedIs⟩ := applyConfChange_ok applied
    have sameId : moved.id = region.id := by rw [movedIs]
    refine ⟨tiles.replace_one held sameId (by rw [movedIs]) (by rw [movedIs]), ?_⟩
    intro id before mem
    by_cases same : id = moved.id
    · refine ⟨moved, mem_insert.mpr (Or.inl ⟨same, rfl⟩), ?_⟩
      rw [same, sameId] at mem
      rw [← value_unique held mem, movedIs]
      exact ⟨Nat.le_succ _, le_rfl, fun differs => absurd rfl differs⟩
    · exact ⟨before, mem_insert.mpr (Or.inr ⟨same, mem⟩), Advances.refl before⟩

theorem RecordStep.preserves (step : RecordStep records after) (tiles : Tiles records) :
    Tiles after ∧ ∀ id before, (id, before) ∈ records →
      ∃ current, (id, current) ∈ after ∧ Advances before current := by
  cases step with
  | split regionId splitKey newRegionId newPeerIds fresh =>
    refine (applyRecordEntry_move records regionId _).preserves tiles ?_
    rintro _ _ _ ⟨rfl, rfl, rfl⟩ takesEffect
    -- Only a staged split changes the records, and the freshness is assumed there.
    cases found : records.lookup regionId with
    | none =>
      rw [applyRecordEntry, found] at takesEffect
      exact absurd rfl takesEffect
    | some region =>
      rw [applyRecordEntry, found] at takesEffect
      cases staged : stageSplit region splitKey newRegionId newPeerIds with
      | error error =>
        simp only [staged] at takesEffect
        exact absurd rfl takesEffect
      | ok halves =>
        cases halves with
        | none =>
          simp only [staged] at takesEffect
          exact absurd rfl takesEffect
        | some halves => exact fresh region halves found staged
  | confChange regionId change =>
    refine (applyRecordEntry_move records regionId _).preserves tiles ?_
    intro _ _ _ isSplit
    cases isSplit

theorem RecordStep.run_preserves (run : Relation.ReflTransGen RecordStep records after)
    (tiles : Tiles records) : Tiles after ∧ ∀ id before, (id, before) ∈ records →
      ∃ current, (id, current) ∈ after ∧ Advances before current := by
  induction run with
  | refl =>
    refine ⟨tiles, ?_⟩
    intro id before mem
    exact ⟨before, mem, Advances.refl before⟩
  | tail _ step ih =>
    obtain ⟨middleTiles, advanced⟩ := ih
    obtain ⟨afterTiles, stepAdvanced⟩ := step.preserves middleTiles
    refine ⟨afterTiles, ?_⟩
    intro id before mem
    obtain ⟨middle, middleMember, early⟩ := advanced id before mem
    obtain ⟨current, currentMember, late⟩ := stepAdvanced id middle middleMember
    exact ⟨current, currentMember, early.trans late⟩

end Esker.Store
