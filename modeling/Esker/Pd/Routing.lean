import Esker.Runs
import Esker.SortedMap
import Esker.Store.Region

/-!
Contract: the routing table of the placement driver (`esker-pd/src/routing.rs`, the `RegionBeat` of
`esker-pd/src/machine.rs`, the range keys of `esker-pd/src/keys.rs`).

Owns: the region records and the range index, what a heartbeat does to them, `lookup` and
`scan_ranges`, when the index stays that of the records, and what it then answers.

Does not own: the two bytes in front of every range key.
-/

namespace Esker.Pd

open Esker.Consensus (Bytes)
open Esker.KeyRange Esker.Runs
open Esker.Store (Epoch Region)
open List SortedMap

structure RegionRecord where
  region : Region Bytes
  leaderPeerId : Nat
  term : Nat
  approximateSize : Nat
  appliedIndex : Nat
  lastHeartbeatMs : Nat
deriving DecidableEq

/-- `RegionRecord::new`: a region that no heartbeat has told of. -/
def RegionRecord.new (region : Region Bytes) (nowMs : Nat) : RegionRecord :=
  ⟨region, 0, 0, 0, 0, nowMs⟩

def RegionRecord.endKey (record : RegionRecord) : Bytes := record.region.endKey

/-- `Epoch::is_stale_against`. -/
def isStaleAgainst (epoch other : Epoch) : Bool :=
  decide (epoch.confVer < other.confVer) || decide (epoch.version < other.version)

def accepts (stored : RegionRecord) (epoch : Epoch) (term : Nat) : Bool :=
  if isStaleAgainst epoch stored.region.epoch then false
  else if epoch = stored.region.epoch then decide (stored.term ≤ term)
  else true

/-- `range_key`: a bounded end sorts before the end of the key space. -/
def rangeKey (endKey : Bytes) : Bytes := if endKey = [] then [2] else 1 :: endKey

def rangeSeekKey (key : Bytes) : Bytes := 1 :: (key ++ [0])

structure Table where
  records : SortedMap Nat RegionRecord
  index : SortedMap Bytes Nat

namespace Table

def empty : Table := ⟨SortedMap.empty, SortedMap.empty⟩

variable (table : Table) (record : RegionRecord)

/-- The index without the entry of the record that is replaced, where its end has moved. -/
def unindexed : Option RegionRecord → SortedMap Bytes Nat
  | some previous =>
    if previous.endKey ≠ record.endKey then table.index.erase (rangeKey previous.endKey)
    else table.index
  | none => table.index

def stageRegion (previous : Option RegionRecord) : Table :=
  ⟨table.records.insert record.region.id record,
    (table.unindexed record previous).insert (rangeKey record.endKey) record.region.id⟩

def takes : Bool :=
  (table.records.lookup record.region.id).all fun held =>
    accepts held record.region.epoch record.term

/-- One `RegionBeat` of a batch. The guard and the record that is replaced are read from the table
before the batch, and what is written is added to the batch. -/
def beat (read : Table) : Table :=
  if read.takes record then table.stageRegion record (read.records.lookup record.region.id)
  else table

/-- The heartbeats of one batch. -/
def beatAll (records : List RegionRecord) : Table :=
  records.foldl (fun after record => after.beat record table) table

def follow (entry : Bytes × Nat) : Option RegionRecord :=
  table.records.lookup entry.2

def lookup (key : Bytes) : Option RegionRecord :=
  match (table.index.fromKey (rangeSeekKey key)).head? with
  | none => none
  | some entry => (table.follow entry).filter fun record => record.region.contains key

def scanRanges (startKey : Bytes) (limit : Nat) : List RegionRecord :=
  ((table.index.fromKey (rangeSeekKey startKey)).filterMap table.follow).take limit

/-! ## What is promised -/

structure Consistent (table : Table) : Prop where
  named : ∀ id record, table.records.lookup id = some record →
    table.index.lookup (rangeKey record.endKey) = some id
  backed : ∀ key id, table.index.lookup key = some id →
    ∃ record, table.records.lookup id = some record ∧ key = rangeKey record.endKey

structure Tiles (table : Table) : Prop where
  proper : ∀ id record, table.records.lookup id = some record → record.region.ProperRange
  covered : ∀ key, ∃ id record, table.records.lookup id = some record ∧
    record.region.contains key = true
  apart : ∀ key id record other twin, table.records.lookup id = some record →
    table.records.lookup other = some twin → record.region.contains key = true →
    twin.region.contains key = true → other = id

/-- What the table answers: for every key the record that contains it, and from every key on the
records in key order, each starting where the one before ends, up to the end of the key space. -/
structure Answers (table : Table) : Prop where
  lookup : ∀ key, ∃ id record, table.lookup key = some record ∧
    table.records.lookup id = some record ∧ record.region.contains key = true
  first : ∀ key limit, 0 < limit → ∃ record, (table.scanRanges key limit).head? = some record ∧
    record.region.contains key = true
  chained : ∀ key limit, (table.scanRanges key limit).IsChain
    fun left right => left.endKey = right.region.startKey
  whole : ∀ key limit, (table.scanRanges key limit).length < limit →
    ∃ record, (table.scanRanges key limit).getLast? = some record ∧ record.endKey = []

def Sound : Prop := table.Consistent ∧ (table.Tiles → table.Answers)

/-- No other record has the end of this one. -/
def Free : Prop :=
  ∀ id other, table.records.lookup id = some other → id ≠ record.region.id →
    other.endKey ≠ record.endKey

/-- No two heartbeats that a batch takes are of one region. -/
def Once (records : List RegionRecord) : Prop :=
  ((records.filter table.takes).map (·.region.id)).Nodup

/-- Each heartbeat that a batch takes names an end that no other record has when it is staged. -/
def Clear (records : List RegionRecord) : Prop :=
  Meets (fun after record => after.stageRegion record (table.records.lookup record.region.id))
    Free table (records.filter table.takes)

/-! ## The order of the range keys -/

theorem rangeKey_inj {left right : Bytes} (same : rangeKey left = rangeKey right) :
    left = right := by
  unfold rangeKey at same
  split_ifs at same with leftEmpty rightEmpty rightEmpty
  · rw [leftEmpty, rightEmpty]
  · exact absurd (List.cons.inj same).1 (by decide)
  · exact absurd (List.cons.inj same).1 (by decide)
  · exact (List.cons.inj same).2

theorem append_zero_le_iff {key bound : Bytes} : key ++ [0] ≤ bound ↔ key < bound := by
  rw [← not_lt]
  induction key generalizing bound with
  | nil =>
    cases bound with
    | nil => decide
    | cons byte rest => simp [cons_lt_cons_iff]
  | cons first rest ih =>
    cases bound with
    | nil => simp
    | cons byte others =>
      rw [cons_append, cons_lt_cons_iff, cons_lt_cons_iff]
      rcases lt_trichotomy byte first with below | rfl | above
      · simp [below, below.not_gt, below.ne']
      · simp [@ih others]
      · simp [above, above.not_gt, above.ne']

theorem seek_le_iff {key endKey : Bytes} :
    rangeSeekKey key ≤ rangeKey endKey ↔ endKey = [] ∨ key < endKey := by
  unfold rangeSeekKey rangeKey
  split_ifs with isEmpty
  · rw [← not_lt]
    simp [isEmpty, cons_lt_cons_iff]
  · rw [← append_zero_le_iff, ← not_lt, ← not_lt]
    simp [isEmpty]

theorem rangeKey_lt_iff {left right : Bytes} :
    rangeKey left < rangeKey right ↔ left ≠ [] ∧ (right = [] ∨ left < right) := by
  unfold rangeKey
  split_ifs with leftEmpty rightEmpty rightEmpty <;>
    simp [leftEmpty, rightEmpty, cons_lt_cons_iff]

/-! ## One heartbeat -/

variable {table : Table}

section

variable (consistent : table.Consistent)
include consistent

/-- A taken heartbeat of a consistent table leaves only entries that their regions' records
back. -/
theorem Consistent.backed_staged (record : RegionRecord) (key : Bytes) (id : Nat)
    (found : (table.stageRegion record (table.records.lookup record.region.id)).index.lookup key =
      some id) :
    ∃ held, (table.stageRegion record (table.records.lookup record.region.id)).records.lookup id =
      some held ∧ key = rangeKey held.endKey := by
  unfold stageRegion at found ⊢
  dsimp only at found ⊢
  by_cases isNew : key = rangeKey record.endKey
  · rw [isNew, lookup_insert_self] at found
    rw [← Option.some.inj found, lookup_insert_self]
    exact ⟨record, rfl, isNew⟩
  rw [lookup_insert_of_ne _ _ isNew] at found
  -- An older entry of the region itself was taken out, or is at the end that stays.
  have older : table.index.lookup key = some id ∧
      ∀ previous, table.records.lookup record.region.id = some previous →
        key ≠ rangeKey previous.endKey := by
    unfold unindexed at found
    cases isPrevious : table.records.lookup record.region.id with
    | none =>
      rw [isPrevious] at found
      exact ⟨found, fun _ none => by cases none⟩
    | some previous =>
      rw [isPrevious] at found
      dsimp only at found
      split_ifs at found with moved
      · rw [SortedMap.lookup_eq_some_iff, SortedMap.mem_erase] at found
        refine ⟨SortedMap.lookup_eq_some_iff.mpr found.2, fun _ isSame => ?_⟩
        rw [← Option.some.inj isSame]
        exact found.1
      · refine ⟨found, fun _ isSame => ?_⟩
        rw [← Option.some.inj isSame, not_not.mp moved]
        exact isNew
  obtain ⟨held, isHeld, atEnd⟩ := consistent.backed key id older.1
  have other : id ≠ record.region.id := by
    rintro rfl
    exact older.2 held isHeld atEnd
  exact ⟨held, by rw [lookup_insert_of_ne _ _ other]; exact isHeld, atEnd⟩

/-- From a consistent table, staging a record with a free end leads to one. -/
theorem Consistent.staged (record : RegionRecord) (free : table.Free record) :
    (table.stageRegion record (table.records.lookup record.region.id)).Consistent := by
  refine ⟨fun id held isHeld => ?_, consistent.backed_staged record⟩
  unfold stageRegion at isHeld ⊢
  dsimp only at isHeld ⊢
  by_cases own : id = record.region.id
  · rw [own, lookup_insert_self] at isHeld
    rw [← Option.some.inj isHeld, lookup_insert_self, own]
  rw [lookup_insert_of_ne _ _ own] at isHeld
  have apart : rangeKey held.endKey ≠ rangeKey record.endKey := fun same =>
    free id held isHeld own (rangeKey_inj same)
  have entry := consistent.named id held isHeld
  rw [lookup_insert_of_ne _ _ apart]
  unfold unindexed
  cases isPrevious : table.records.lookup record.region.id with
  | none => exact entry
  | some previous =>
    dsimp only
    split_ifs
    · -- The entry that is taken out is the region's own.
      rw [SortedMap.lookup_eq_some_iff, SortedMap.mem_erase]
      refine ⟨fun same => ?_, SortedMap.lookup_eq_some_iff.mp entry⟩
      have ownEntry := consistent.named _ _ isPrevious
      rw [← same, entry] at ownEntry
      exact own (Option.some.inj ownEntry)
    · exact entry

/-! ## What a consistent table answers -/

theorem Consistent.follow_from {key : Bytes} {entry : Bytes × Nat}
    (mem : entry ∈ table.index.fromKey (rangeSeekKey key)) :
    ∃ record, table.follow entry = some record ∧ entry.1 = rangeKey record.endKey ∧
      (record.endKey = [] ∨ key < record.endKey) := by
  obtain ⟨held, atLeast⟩ := mem_fromKey.mp mem
  obtain ⟨record, isRecord, atEnd⟩ :=
    consistent.backed entry.1 entry.2 (lookup_eq_some_iff.mpr held)
  refine ⟨record, isRecord, atEnd, ?_⟩
  rwa [atEnd, seek_le_iff] at atLeast

theorem Consistent.head_contains (tiles : table.Tiles) (key : Bytes) :
    ∃ entry rest record, table.index.fromKey (rangeSeekKey key) = entry :: rest ∧
      table.follow entry = some record ∧ entry.1 = rangeKey record.endKey ∧
      record.region.contains key = true := by
  obtain ⟨id, wanted, isWanted, contains⟩ := tiles.covered key
  have inside := Region.contains_iff.mp contains
  have mem : (rangeKey wanted.endKey, id) ∈ table.index.fromKey (rangeSeekKey key) := by
    rw [mem_fromKey]
    exact ⟨lookup_eq_some_iff.mp (consistent.named id wanted isWanted), seek_le_iff.mpr inside.2⟩
  cases listed : table.index.fromKey (rangeSeekKey key) with
  | nil =>
    rw [listed] at mem
    cases mem
  | cons entry rest =>
    obtain ⟨record, isRecord, atEnd, beyond⟩ :=
      consistent.follow_from (listed ▸ mem_cons_self : entry ∈ _)
    refine ⟨entry, rest, record, rfl, isRecord, atEnd, ?_⟩
    by_contra outside
    -- A record that ends after the key and does not contain it starts after it, and ends no
    -- later than the wanted one: the two would share its start.
    have starts : key < record.region.startKey := by
      by_contra atMost
      exact outside (Region.contains_iff.mpr ⟨not_lt.mp atMost, beyond⟩)
    have ends : rangeKey record.endKey ≤ rangeKey wanted.endKey := by
      have sorted := table.index.fromKey_sorted (rangeSeekKey key)
      rw [listed] at mem sorted
      rw [← atEnd]
      rcases mem_cons.mp mem with same | later
      · rw [← same]
      · exact (rel_of_pairwise_cons sorted later).le
    have proper := tiles.proper _ _ isRecord
    have shared : wanted.region.contains record.region.startKey = true := by
      rw [Region.contains_iff]
      refine ⟨inside.1.trans starts.le, ?_⟩
      by_contra beforeStart
      rw [not_or, not_lt] at beforeStart
      refine absurd ends (not_le.mpr (rangeKey_lt_iff.mpr ⟨beforeStart.1, ?_⟩))
      rcases proper with open_ | above
      · exact .inl open_
      · exact .inr (lt_of_le_of_lt beforeStart.2 above)
    have own : record.region.contains record.region.startKey = true :=
      Region.contains_iff.mpr (inRange_start proper)
    have same := tiles.apart _ _ _ _ _ isWanted isRecord shared own
    rw [follow, same, isWanted] at isRecord
    rw [← Option.some.inj isRecord] at outside
    exact outside contains

/-- Behind an entry stand the entries that a seek for its end finds. -/
theorem Consistent.fromKey_tail {key endKey : Bytes} {entry : Bytes × Nat}
    {rest : List (Bytes × Nat)} (listed : table.index.fromKey (rangeSeekKey key) = entry :: rest)
    (atEnd : entry.1 = rangeKey endKey) (bounded : endKey ≠ []) :
    table.index.fromKey (rangeSeekKey endKey) = rest := by
  have sorted := table.index.fromKey_sorted (rangeSeekKey key)
  rw [listed] at sorted
  have beyond : key < endKey := by
    have atLeast := (mem_fromKey.mp (listed ▸ mem_cons_self : entry ∈ _)).2
    rw [atEnd, seek_le_iff] at atLeast
    exact atLeast.resolve_left bounded
  apply eq_of_sorted_of_mem_iff (fun _ _ => lt_asymm) (table.index.fromKey_sorted _)
    (pairwise_cons.mp sorted).2
  intro other
  constructor
  · intro mem
    obtain ⟨record, _, otherEnd, after⟩ := consistent.follow_from mem
    have later : entry.1 < other.1 := by
      rw [atEnd, otherEnd, rangeKey_lt_iff]
      exact ⟨bounded, after⟩
    have inList : other ∈ table.index.fromKey (rangeSeekKey key) := by
      rw [mem_fromKey, otherEnd, seek_le_iff]
      exact ⟨(mem_fromKey.mp mem).1, after.imp_right beyond.trans⟩
    rw [listed] at inList
    rcases mem_cons.mp inList with same | inRest
    · rw [same] at later
      exact absurd later (lt_irrefl _)
    · exact inRest
  · intro inRest
    have mem : other ∈ table.index.fromKey (rangeSeekKey key) := by
      rw [listed]
      exact mem_cons_of_mem _ inRest
    obtain ⟨record, _, otherEnd, _⟩ := consistent.follow_from mem
    have later : entry.1 < other.1 := rel_of_pairwise_cons sorted inRest
    rw [mem_fromKey, otherEnd, seek_le_iff]
    rw [atEnd, otherEnd, rangeKey_lt_iff] at later
    exact ⟨(mem_fromKey.mp mem).1, later.2⟩

end

theorem Tiles.adjacent (tiles : table.Tiles) {id other : Nat} {record next : RegionRecord}
    (isRecord : table.records.lookup id = some record)
    (isNext : table.records.lookup other = some next) (bounded : record.endKey ≠ [])
    (contains : next.region.contains record.endKey = true) :
    record.endKey = next.region.startKey := by
  obtain ⟨starts, ends⟩ := Region.contains_iff.mp contains
  have proper : record.region.startKey < record.endKey :=
    (tiles.proper _ _ isRecord).resolve_left bounded
  by_contra differs
  have before : next.region.startKey < record.endKey := lt_of_le_of_ne starts (Ne.symm differs)
  have inside : max record.region.startKey next.region.startKey < record.endKey :=
    max_lt proper before
  have same := tiles.apart (max record.region.startKey next.region.startKey) _ _ _ _ isRecord isNext
    (Region.contains_iff.mpr ⟨le_max_left _ _, .inr inside⟩)
    (Region.contains_iff.mpr ⟨le_max_right _ _, ends.imp_right inside.trans⟩)
  rw [same, isRecord] at isNext
  rw [← Option.some.inj isNext] at ends
  rcases ends with isOpen | below
  · exact bounded isOpen
  · exact lt_irrefl _ below

/-- The records behind a seek, from the one that contains the key to the end of the key space. -/
theorem Consistent.scanned (consistent : table.Consistent) (tiles : table.Tiles)
    (entries : List (Bytes × Nat)) :
    ∀ key, table.index.fromKey (rangeSeekKey key) = entries →
      ∃ id first later, entries.filterMap table.follow = first :: later ∧
        table.records.lookup id = some first ∧ first.region.contains key = true ∧
        (first :: later).IsChain (fun left right => left.endKey = right.region.startKey) ∧
        ((first :: later).getLast (cons_ne_nil _ _)).endKey = [] := by
  induction entries with
  | nil =>
    intro key listed
    obtain ⟨entry, rest, _, found, _⟩ := consistent.head_contains tiles key
    rw [listed] at found
    cases found
  | cons entry rest ih =>
    intro key listed
    obtain ⟨_, _, record, found, isRecord, atEnd, contains⟩ := consistent.head_contains tiles key
    rw [listed] at found
    cases found
    refine ⟨_, record, rest.filterMap table.follow, filterMap_cons_some isRecord, isRecord,
      contains, ?_⟩
    by_cases isOpen : record.endKey = []
    · have none : rest = [] := by
        cases rest with
        | nil => rfl
        | cons other _ =>
          have sorted := table.index.fromKey_sorted (rangeSeekKey key)
          rw [listed] at sorted
          have later := rel_of_pairwise_cons sorted mem_cons_self
          obtain ⟨twin, _, otherEnd, _⟩ := consistent.follow_from
            (listed ▸ mem_cons_of_mem _ mem_cons_self : other ∈ _)
          rw [atEnd, otherEnd, rangeKey_lt_iff] at later
          exact absurd isOpen later.1
      rw [none]
      exact ⟨isChain_singleton _, isOpen⟩
    · obtain ⟨_, next, later, isNext, inTable, nextContains, chained, last⟩ :=
        ih record.endKey (consistent.fromKey_tail listed atEnd isOpen)
      rw [isNext]
      exact ⟨isChain_cons_cons.mpr
        ⟨tiles.adjacent isRecord inTable isOpen nextContains, chained⟩, last⟩

theorem Consistent.answers (consistent : table.Consistent) (tiles : table.Tiles) :
    table.Answers := by
  refine ⟨fun key => ?_, fun key limit positive => ?_, fun key limit => ?_,
    fun key limit short => ?_⟩
  · obtain ⟨entry, rest, record, listed, isRecord, _, contains⟩ :=
      consistent.head_contains tiles key
    refine ⟨entry.2, record, ?_, isRecord, contains⟩
    rw [lookup, listed, head?_cons]
    dsimp only
    rw [isRecord]
    exact Option.filter_some_pos contains
  all_goals
    obtain ⟨_, record, later, listed, _, contains, chained, last⟩ :=
      consistent.scanned tiles _ key rfl
  · refine ⟨record, ?_, contains⟩
    rw [scanRanges, listed, head?_take, if_neg positive.ne']
    rfl
  · rw [scanRanges, listed]
    exact chained.take limit
  refine ⟨_, ?_, last⟩
  rw [scanRanges, listed, length_take] at short
  rw [scanRanges, listed, take_of_length_le (by omega), getLast?_eq_some_getLast]

/-! ## A batch of heartbeats -/

section Batch

variable {read : Table} {records : List RegionRecord} {owner other : Nat} {held twin : RegionRecord}

/-- What a batch stages, with the records that are replaced read before it. -/
abbrev stagedAll (read : Table) : Table → List RegionRecord → Table :=
  foldl fun after record => after.stageRegion record (read.records.lookup record.region.id)

theorem beatAll_eq_stagedAll (table : Table) (records : List RegionRecord) :
    table.beatAll records = stagedAll table table (records.filter table.takes) := by
  rw [stagedAll, foldl_filter]
  rfl

/-- An entry that is not the region's does not become the region's by the heartbeats of others. -/
theorem lookup_staged_ne {record : RegionRecord} {previous : Option RegionRecord} {key : Bytes}
    (others : record.region.id ≠ owner) (missing : table.index.lookup key ≠ some owner) :
    (table.stageRegion record previous).index.lookup key ≠ some owner := by
  unfold stageRegion
  dsimp only
  by_cases isNew : key = rangeKey record.endKey
  · rw [isNew, lookup_insert_self]
    exact fun same => others (Option.some.inj same)
  rw [lookup_insert_of_ne _ _ isNew]
  intro found
  apply missing
  unfold unindexed at found
  cases previous with
  | none => exact found
  | some previous =>
    dsimp only at found
    split_ifs at found
    · rw [SortedMap.lookup_eq_some_iff, SortedMap.mem_erase] at found
      exact SortedMap.lookup_eq_some_iff.mpr found.2
    · exact found

/-- A record whose entry is lost stays without it, where its region is not heard of again. -/
theorem not_consistent_of_missing (isHeld : table.records.lookup owner = some held)
    (missing : table.index.lookup (rangeKey held.endKey) ≠ some owner)
    (others : ∀ record ∈ records, record.region.id ≠ owner) :
    ¬(stagedAll read table records).Consistent := by
  induction records generalizing table with
  | nil => exact fun consistent => missing (consistent.named owner held isHeld)
  | cons record rest ih =>
    rw [forall_mem_cons] at others
    have stays : (table.stageRegion record
        (read.records.lookup record.region.id)).records.lookup owner = some held :=
      (lookup_insert_of_ne _ _ others.1.symm).trans isHeld
    exact ih stays (lookup_staged_ne others.1 missing) others.2

/-- Two records with one end cannot both have its entry, and where the second region gives the end
up, the entry of the first goes with it. -/
theorem not_consistent_of_shared (isHeld : table.records.lookup owner = some held)
    (isTwin : table.records.lookup other = some twin) (differs : other ≠ owner)
    (shared : twin.endKey = held.endKey)
    (same : ∀ record ∈ records,
      read.records.lookup record.region.id = table.records.lookup record.region.id)
    (once : (records.map (·.region.id)).Nodup)
    (others : ∀ record ∈ records, record.region.id ≠ owner) :
    ¬(stagedAll read table records).Consistent := by
  induction records generalizing table with
  | nil =>
    intro consistent
    have ofTwin := consistent.named other twin isTwin
    rw [shared, consistent.named owner held isHeld] at ofTwin
    exact differs (Option.some.inj ofTwin).symm
  | cons record rest ih =>
    rw [forall_mem_cons] at others same
    rw [map_cons, nodup_cons] at once
    have keeps {id : Nat} (apart : id ≠ record.region.id) : (table.stageRegion record
        (read.records.lookup record.region.id)).records.lookup id = table.records.lookup id :=
      lookup_insert_of_ne _ _ apart
    have isHeld' := (keeps others.1.symm).trans isHeld
    change ¬(stagedAll read (table.stageRegion record
      (read.records.lookup record.region.id)) rest).Consistent
    by_cases isOther : record.region.id = other
    · refine not_consistent_of_missing isHeld' ?_ others.2
      rw [same.1, isOther, isTwin]
      unfold stageRegion unindexed
      dsimp only
      by_cases stays : twin.endKey = record.endKey
      · rw [← shared, stays, lookup_insert_self, isOther]
        exact fun equal => differs (Option.some.inj equal)
      · rw [if_pos stays, ← shared,
          lookup_insert_of_ne _ _ fun equal => stays (rangeKey_inj equal)]
        intro found
        rw [SortedMap.lookup_eq_some_iff, SortedMap.mem_erase] at found
        exact found.1 rfl
    · refine ih isHeld' ((keeps (Ne.symm isOther)).trans isTwin) (fun later member => ?_) once.2
        others.2
      have apart : later.region.id ≠ record.region.id := fun equal =>
        once.1 (equal ▸ mem_map_of_mem member)
      rw [same.2 later member, keeps apart]

/-- From a consistent table, a batch that hears of no region twice leads to a consistent one exactly
when each end it names is free. -/
theorem Consistent.staged_iff (consistent : table.Consistent)
    (same : ∀ record ∈ records,
      read.records.lookup record.region.id = table.records.lookup record.region.id)
    (once : (records.map (·.region.id)).Nodup) :
    (stagedAll read table records).Consistent ↔ Meets (fun after record =>
      after.stageRegion record (read.records.lookup record.region.id)) Free table records := by
  induction records generalizing table with
  | nil => exact ⟨fun _ => trivial, fun _ => consistent⟩
  | cons record rest ih =>
    rw [forall_mem_cons] at same
    rw [map_cons, nodup_cons] at once
    have others : ∀ later ∈ rest, later.region.id ≠ record.region.id := fun later member equal =>
      once.1 (equal ▸ mem_map_of_mem member)
    have later : ∀ later ∈ rest, read.records.lookup later.region.id = (table.stageRegion record
        (read.records.lookup record.region.id)).records.lookup later.region.id := by
      intro later member
      rw [same.2 later member, stageRegion, lookup_insert_of_ne _ _ (others later member)]
    by_cases free : table.Free record
    · have next : (table.stageRegion record
          (read.records.lookup record.region.id)).Consistent :=
        same.1 ▸ consistent.staged record free
      exact (ih next later once.2).trans (and_iff_right free).symm
    · have refused : ¬ Meets (fun after record =>
          after.stageRegion record (read.records.lookup record.region.id)) Free table
          (record :: rest) := fun meets => free meets.1
      rw [iff_false_right refused]
      simp only [Free, not_forall, not_not] at free
      obtain ⟨id, twin, isTwin, differs, shared⟩ := free
      have isRecord : (table.stageRegion record
          (read.records.lookup record.region.id)).records.lookup record.region.id = some record :=
        lookup_insert_self _ _ _
      have stays : (table.stageRegion record
          (read.records.lookup record.region.id)).records.lookup id = some twin :=
        (lookup_insert_of_ne _ _ differs).trans isTwin
      change ¬(stagedAll read (table.stageRegion record
        (read.records.lookup record.region.id)) rest).Consistent
      exact not_consistent_of_shared isRecord stays differs shared later once.2 others

theorem sound_beatAll (sound : table.Sound) (once : table.Once records) :
    (table.beatAll records).Sound ↔ table.Clear records := by
  have isSound : ∀ table : Table, table.Sound ↔ table.Consistent := fun table =>
    ⟨fun sound => sound.1, fun consistent => ⟨consistent, consistent.answers⟩⟩
  rw [isSound, beatAll_eq_stagedAll]
  exact Consistent.staged_iff sound.1 (fun _ _ => rfl) once

theorem sound_empty : empty.Sound := by
  have consistent : empty.Consistent :=
    ⟨fun _ _ found => (by cases found), fun _ _ found => by cases found⟩
  exact ⟨consistent, consistent.answers⟩

end Batch

end Table

end Esker.Pd
