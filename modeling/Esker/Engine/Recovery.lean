import Esker.Engine.LogRetention
import Mathlib

/-!
Contract: what a crash and the reopen after it keep (`open_with` and `replay_logs` of
`db/open.rs`, `recover`, `new_file_number` and `log_and_apply` of `version/set.rs`,
`roll_log_and_switch` and `flush_one` of `db/flush.rs`).

Owns: log segments with their synced part, the file numbers the manifest knows of, the
replay with its refusal of a torn record, and which acknowledged writes come back.

One thread acts at a time; a crash may still come between a flush's manifest edit and the
rest of the flush. A write is its family's id and its place in the order of all writes. An
open either happens as a whole or not at all.

Does not own: concurrent writers, and what is read of a family whose id was used before.
-/

namespace Esker.Engine.Recovery

open LogRetention (Family)
open List Function

/-- A write: its family's id, and its place in the order of all writes. -/
abbrev Record := Nat × Nat

structure Segment where
  number : Nat
  records : List Record
  synced : Nat
  torn : Bool
deriving DecidableEq, Repr

structure Table where
  number : Nat
  cf : Nat
  writes : List Nat
deriving DecidableEq, Repr

/-- What a crash leaves of a segment: at least its synced part. -/
def Segment.crash (segment : Segment) (kept : Nat) (torn : Bool) : Segment :=
  let records := segment.records.take (max segment.synced kept)
  { segment with
    records
    synced := records.length
    torn := segment.torn || torn && decide (records.length < segment.records.length) }

structure Db where
  nextFile : Nat
  manifestNext : Nat
  logNumber : Nat
  ids : List Nat
  tables : List Table
  older : List Segment
  wal : Segment
  families : Nat → Family
  /-- The family whose oldest memtable the manifest names and which is not retired yet. -/
  flushed : Option Nat
  issued : Nat
  /-- The acknowledged writes of families that exist, and whether with a sync. -/
  acked : List (Record × Bool)

namespace Db

/-- A database just created: `1` is its manifest, `2` is its log. -/
def created (ids : List Nat) : Db :=
  ⟨3, 3, 2, ids, [], [], ⟨2, [], 0, false⟩, fun _ => .empty 2, none, 0, []⟩

variable (db : Db) (record : Record)

def readable : Bool :=
  decide (record.1 ∈ db.ids) &&
    (decide (record.2 ∈ (db.families record.1).active) ||
      ((db.families record.1).immutable.any fun table => decide (record.2 ∈ table.1)) ||
      db.tables.any fun table => decide (table.cf = record.1 ∧ record.2 ∈ table.writes))

def logAndApply (rolling : Bool) : Db :=
  let nextFile := if rolling then db.nextFile + 1 else db.nextFile
  { db with nextFile, manifestNext := nextFile }

def nextId : Nat := (db.ids.map (· + 1)).max?.getD 0

def createCf (rolling : Bool) : Db :=
  { db with
    ids := db.ids ++ [db.nextId]
    families := update db.families db.nextId (.empty db.wal.number)
    : Db }.logAndApply rolling

def dropCf (id : Nat) (rolling : Bool) : Db :=
  { db with
    ids := db.ids.filter (· ≠ id)
    tables := db.tables.filter fun table => table.cf ≠ id
    acked := db.acked.filter fun entry => entry.1.1 ≠ id
    : Db }.logAndApply rolling

/-- Appends a write to the log, inserts it and acknowledges it. -/
def write (id : Nat) (sync : Bool) : Db :=
  let records := db.wal.records ++ [(id, db.issued)]
  { db with
    wal := { db.wal with
      records
      synced := if sync then records.length else db.wal.synced }
    families := update db.families id
      { db.families id with active := (db.families id).active ++ [db.issued] }
    issued := db.issued + 1
    acked := db.acked ++ [((id, db.issued), sync)] }

def syncWal : Db :=
  { db with wal := { db.wal with synced := db.wal.records.length } }

/-- Starts a segment and moves the memtables of `full` onto it. -/
def roll (full : List Nat) : Db :=
  { db with
    nextFile := db.nextFile + 1
    older := db.older ++ [db.wal]
    wal := ⟨db.nextFile, [], 0, false⟩
    families := fun id =>
      if id ∈ full then (db.families id).switch db.nextFile else db.families id }

def edit (id : Nat) (table : List Nat) (rolling : Bool) : Db :=
  { db with
    nextFile := db.nextFile + 1
    tables := db.tables ++ [⟨db.nextFile, id, table⟩]
    flushed := some id
    : Db }.logAndApply rolling

def oldest : Nat := Family.oldestOf db.ids db.families db.wal.number

/-- Moves the log number up, when it moves, and sweeps the segments below it. -/
def advanceLogNumber (rolling : Bool) : Db :=
  if db.oldest ≤ db.logNumber then db
  else
    { db with
      logNumber := db.oldest
      older := db.older.filter fun segment => db.oldest ≤ segment.number
      : Db }.logAndApply rolling

def retire (id : Nat) : Db :=
  { db with
    flushed := none
    families := update db.families id
      { db.families id with immutable := (db.families id).immutable.tail } }

def recoveredNext : Nat :=
  max db.manifestNext ((db.tables.map fun table => table.number + 1).max?.getD 0)

/-- The segments recovery replays, as a crash left them, by number. -/
def replayed (kept : Nat → Nat) (torn : Nat → Bool) : List Segment :=
  (((db.older ++ [db.wal]).map fun segment =>
    segment.crash (kept segment.number) (torn segment.number)).filter fun segment =>
      db.logNumber ≤ segment.number).insertionSort fun left right => left.number ≤ right.number

/-- The database `open` builds from `segments`. Creating its log truncates a segment that
already has the number. -/
def openedOver (segments : List Segment) : Db :=
  let number := db.recoveredNext
  let log := (segments.head?.map Segment.number).getD number
  let records := segments.flatMap Segment.records
  { db with
    nextFile := number + 2
    manifestNext := number + 2
    logNumber := log
    older := segments.filter fun segment => segment.number ≠ number
    wal := ⟨number, [], 0, false⟩
    families := fun id => ⟨(records.filter fun record => record.1 = id).map Prod.snd, log, []⟩
    flushed := none }

/-- Forgets the acknowledged writes that did not come back. -/
def survivors : Db :=
  { db with acked := db.acked.filter fun entry => db.readable entry.1 }

def reopen (kept : Nat → Nat) (torn : Nat → Bool) : Option Db :=
  let segments := db.replayed kept torn
  if segments.dropLast.any Segment.torn then none
  else some (db.openedOver segments).survivors

/-- A crash that tears no record, while the manifest knows of the current segment. -/
def Clean (torn : Nat → Bool) : Prop :=
  db.wal.number < db.manifestNext ∧ ∀ number, torn number = false

/-- One step. Whether the log may roll over an unsynced segment, and whether a crash must be
clean, is a parameter. -/
inductive Step (careless : Prop) : Db → Db → Prop
  | createCf {db : Db} (rolling : Bool) (idle : db.flushed = none) :
      Step careless db (db.createCf rolling)
  | dropCf {db : Db} (id : Nat) (rolling : Bool) (idle : db.flushed = none) :
      Step careless db (db.dropCf id rolling)
  | write {db : Db} {id : Nat} (sync : Bool) (idle : db.flushed = none) (known : id ∈ db.ids) :
      Step careless db (db.write id sync)
  | syncWal {db : Db} (idle : db.flushed = none) : Step careless db db.syncWal
  | roll {db : Db} (full : List Nat) (idle : db.flushed = none)
      (covered : careless ∨ db.wal.synced = db.wal.records.length) :
      Step careless db (db.roll full)
  | edit {db : Db} {id log : Nat} {table : List Nat} {rest : List (List Nat × Nat)}
      (rolling : Bool) (idle : db.flushed = none)
      (first : (db.families id).immutable = (table, log) :: rest) :
      Step careless db (db.edit id table rolling)
  | finish {db : Db} {id : Nat} (rolling : Bool) (named : db.flushed = some id) :
      Step careless db ((db.retire id).advanceLogNumber rolling)
  | crash {db after : Db} {kept : Nat → Nat} {torn : Nat → Bool}
      (clean : careless ∨ db.Clean torn) (opened : db.reopen kept torn = some after) :
      Step careless db after

abbrev Run (careless : Prop) : Db → Db → Prop := Relation.ReflTransGen (Step careless)

/-! ## A torn record that outlives its open -/

/-- One write without a sync, torn by a crash that the open tolerates: after a second crash
the database does not open again. -/
theorem torn_record_refused_later :
    ∃ db : Db, Run True (created [0]) db ∧ db.reopen (fun _ => 0) (fun _ => true) = none := by
  have written := (Relation.ReflTransGen.refl : Run True (created [0]) (created [0])).tail
    (@Step.write True _ 0 false rfl (by decide))
  obtain ⟨reopened, opened⟩ : ∃ db, ((created [0]).write 0 false).reopen (fun _ => 0)
      (fun _ => true) = some db := ⟨_, rfl⟩
  refine ⟨reopened, written.tail (.crash (.inl trivial) opened), ?_⟩
  cases opened
  decide

/-! ## Runs that sync before they roll and crash cleanly -/

def Tabled : Prop :=
  ∃ table ∈ db.tables, table.cf = record.1 ∧ record.2 ∈ table.writes

/-- A segment recovery replays has the write, and a memtable that depends on it. -/
def Logged : Prop :=
  ∃ segment ∈ db.older ++ [db.wal], db.logNumber ≤ segment.number ∧ record ∈ segment.records ∧
    (db.families record.1).Holds record.2 segment.number

/-- Every write of a table or of a memtable waiting for its flush is older than `bound`. -/
def Before (bound : Nat) : Prop :=
  (∀ table ∈ db.tables, ∀ write ∈ table.writes, write < bound) ∧
    ∀ id, ∀ table ∈ (db.families id).immutable, ∀ write ∈ table.1, write < bound

structure Invariant (db : Db) : Prop where
  numbers : (db.older ++ [db.wal]).Pairwise fun left right => left.number < right.number
  walNumber : db.wal.number < db.nextFile
  tableNumbers : ∀ table ∈ db.tables, table.number < db.manifestNext
  manifestNext : db.manifestNext ≤ db.nextFile
  logNumber : db.logNumber ≤ db.wal.number
  covered : ∀ segment ∈ db.older, segment.synced = segment.records.length
  whole : ∀ segment ∈ db.older ++ [db.wal], segment.torn = false
  order : ((db.older ++ [db.wal]).flatMap Segment.records).Pairwise fun left right =>
    left.2 < right.2
  issued : ∀ segment ∈ db.older ++ [db.wal], ∀ record ∈ segment.records, record.2 < db.issued
  active : ∀ id, ∀ write ∈ (db.families id).active, write < db.issued
  past : db.Before db.issued
  early : ∀ record ∈ db.wal.records, db.Before record.2
  ordered : ∀ id, (db.families id).Ordered db.wal.number
  named : ∀ id, db.flushed = some id → ∃ table rest,
    (db.families id).immutable = table :: rest ∧ ∀ write ∈ table.1, db.Tabled (id, write)
  ackedOrder : db.acked.Pairwise fun left right => left.1.2 < right.1.2
  ackedIssued : ∀ entry ∈ db.acked, entry.1.2 < db.issued
  acked : ∀ entry ∈ db.acked, entry.1.1 ∈ db.ids ∧ (db.Tabled entry.1 ∨ db.Logged entry.1)
  synced : ∀ entry ∈ db.acked, entry.2 = true → entry.1 ∈ db.wal.records →
    entry.1 ∈ db.wal.records.take db.wal.synced

variable {record : Record} {entry : Record × Bool} {segment : Segment} {kept : Nat → Nat}
  {torn : Nat → Bool} {segments : List Segment}

theorem readable_iff {db : Db} :
    db.readable record ↔ record.1 ∈ db.ids ∧ (record.2 ∈ (db.families record.1).active ∨
      (∃ table ∈ (db.families record.1).immutable, record.2 ∈ table.1) ∨ db.Tabled record) := by
  simp [readable, Tabled, or_assoc]

theorem Invariant.created (ids : List Nat) : Invariant (Db.created ids) := by
  constructor
  case ordered => exact fun id => ⟨.nil, by simp [Db.created, Family.empty], le_rfl⟩
  all_goals simp [Db.created, Family.empty, Before]

variable {db : Db}

theorem Invariant.logAndApply (inv : Invariant db) (rolling : Bool) :
    Invariant (db.logAndApply rolling) := by
  have grown : db.nextFile ≤ (db.logAndApply rolling).nextFile := by
    unfold Db.logAndApply
    dsimp only
    split <;> omega
  exact
    { inv with
      walNumber := inv.walNumber.trans_le grown
      tableNumbers := fun table mem =>
        ((inv.tableNumbers table mem).trans_le inv.manifestNext).trans_le grown
      manifestNext := le_rfl }

theorem Invariant.acked_readable (inv : Invariant db) (mem : entry ∈ db.acked) :
    db.readable entry.1 := by
  obtain ⟨live, tabled | ⟨segment, _, _, _, holds⟩⟩ := inv.acked entry mem
  · exact readable_iff.mpr ⟨live, .inr (.inr tabled)⟩
  rcases holds with ⟨active, _⟩ | ⟨table, waiting, inside, _⟩
  · exact readable_iff.mpr ⟨live, .inl active⟩
  · exact readable_iff.mpr ⟨live, .inr (.inl ⟨table, waiting, inside⟩)⟩

theorem Logged.families {families : Nat → Family} {record : Record} (logged : db.Logged record)
    (keeps : ∀ segment, (db.families record.1).Holds record.2 segment →
      (families record.1).Holds record.2 segment) :
    Logged { db with families } record := by
  obtain ⟨segment, mem, kept, inside, holds⟩ := logged
  exact ⟨segment, mem, kept, inside, keeps _ holds⟩

theorem Before.families {families : Nat → Family} {bound : Nat} (before : db.Before bound)
    (fewer : ∀ id, (families id).immutable ⊆ (db.families id).immutable) :
    Before { db with families } bound :=
  ⟨before.1, fun id table mem => before.2 id table (fewer id mem)⟩

theorem lt_nextId {id : Nat} (mem : id ∈ db.ids) : id < db.nextId := by
  unfold nextId
  have among : id + 1 ∈ db.ids.map (· + 1) := mem_map_of_mem mem
  cases greatest : (db.ids.map (· + 1)).max? with
  | none => rw [max?_eq_none_iff.mp greatest] at among; cases among
  | some last => exact (max?_eq_some_iff.mp greatest).2 _ among

theorem Invariant.createCf (inv : Invariant db) (rolling : Bool)
    (idle : db.flushed = none) : Invariant (db.createCf rolling) := by
  refine Invariant.logAndApply ?_ rolling
  have fewer : ∀ id, (update db.families db.nextId (.empty db.wal.number) id).immutable ⊆
      (db.families id).immutable := by
    rw [forall_update_iff db.families fun id family =>
      family.immutable ⊆ (db.families id).immutable]
    exact ⟨nil_subset _, fun id _ => List.Subset.refl _⟩
  exact
    { inv with
      active := by
        rw [forall_update_iff db.families fun _ family =>
          ∀ write ∈ family.active, write < db.issued]
        exact ⟨by simp [Family.empty], fun id _ => inv.active id⟩
      past := inv.past.families fewer
      early := fun record mem => (inv.early record mem).families fewer
      ordered := by
        rw [forall_update_iff db.families fun _ family => family.Ordered db.wal.number]
        exact ⟨⟨.nil, by simp [Family.empty], le_rfl⟩, fun id _ => inv.ordered id⟩
      named := fun id flushing => by simp [idle] at flushing
      acked := fun entry mem => by
        obtain ⟨live, located⟩ := inv.acked entry mem
        refine ⟨mem_append_left _ live, located.imp_right fun logged => ?_⟩
        refine logged.families fun segment holds => ?_
        rwa [update_of_ne (lt_nextId live).ne] }

theorem Invariant.dropCf (inv : Invariant db) (id : Nat) (rolling : Bool)
    (idle : db.flushed = none) : Invariant (db.dropCf id rolling) := by
  refine Invariant.logAndApply ?_ rolling
  exact
    { inv with
      tableNumbers := fun table mem =>
        inv.tableNumbers table (mem_of_mem_filter mem)
      past := ⟨fun table mem => inv.past.1 table (mem_of_mem_filter mem), inv.past.2⟩
      early := fun record inside => ⟨fun table mem =>
        (inv.early record inside).1 table (mem_of_mem_filter mem),
        (inv.early record inside).2⟩
      named := fun id flushing => by simp [idle] at flushing
      ackedOrder := inv.ackedOrder.filter _
      ackedIssued := fun entry mem =>
        inv.ackedIssued entry (mem_of_mem_filter mem)
      acked := fun entry mem => by
        obtain ⟨old, other⟩ := mem_filter.mp mem
        have other : entry.1.1 ≠ id := of_decide_eq_true other
        obtain ⟨live, located⟩ := inv.acked entry old
        refine ⟨mem_filter.mpr ⟨live, decide_eq_true other⟩, located.imp_left ?_⟩
        rintro ⟨table, named, own, inside⟩
        exact ⟨table, mem_filter.mpr ⟨named, by simpa [own] using other⟩, own, inside⟩
      synced := fun entry mem => inv.synced entry (mem_of_mem_filter mem) }

theorem mem_segments {older : List Segment} {wal : Segment} :
    segment ∈ older ++ [wal] ↔ segment ∈ older ∨ segment = wal := by
  simp

theorem forall_concat {α : Type} {older : List α} {last : α} {holds : α → Prop} :
    (∀ item ∈ older ++ [last], holds item) ↔ (∀ item ∈ older, holds item) ∧ holds last := by
  rw [forall_mem_append, forall_mem_singleton]

theorem pairwise_concat {α : Type} {older : List α} {last : α} {related : α → α → Prop}
    (sorted : older.Pairwise related) (below : ∀ item ∈ older, related item last) :
    (older ++ [last]).Pairwise related :=
  pairwise_append.mpr ⟨sorted, pairwise_singleton _ _, fun item mem =>
    forall_mem_singleton.mpr (below item mem)⟩

theorem Invariant.le_wal (inv : Invariant db) :
    ∀ segment ∈ db.older ++ [db.wal], segment.number ≤ db.wal.number :=
  forall_concat.mpr ⟨fun segment old =>
    ((pairwise_append.mp inv.numbers).2.2 segment old db.wal (.head _)).le, le_rfl⟩

theorem Logged.wal {wal : Segment} (logged : db.Logged record) (number : wal.number = db.wal.number)
    (grown : ∀ other ∈ db.wal.records, other ∈ wal.records) : Logged { db with wal } record := by
  obtain ⟨segment, mem, kept, inside, holds⟩ := logged
  rcases mem_segments.mp mem with old | rfl
  · exact ⟨segment, mem_segments.mpr (.inl old), kept, inside, holds⟩
  · exact ⟨wal, mem_segments.mpr (.inr rfl), number ▸ kept, grown record inside, number ▸ holds⟩

section

variable (inv : Invariant db)
include inv

theorem Invariant.syncWal : Invariant db.syncWal := by
  have whole := forall_concat.mp inv.whole
  have issued := forall_concat.mp inv.issued
  refine
    { inv with
      numbers := ?_, order := ?_
      whole := forall_concat.mpr whole
      issued := forall_concat.mpr issued
      acked := fun entry mem => ?_
      synced := fun entry mem sync inside => ?_ }
  · simpa [Db.syncWal, pairwise_append] using inv.numbers
  · simpa [Db.syncWal, flatMap_append] using inv.order
  · obtain ⟨live, located⟩ := inv.acked entry mem
    exact ⟨live, located.imp_right fun logged => logged.wal rfl fun _ inside => inside⟩
  rw [show db.syncWal.wal.records.take db.syncWal.wal.synced = db.wal.records from
    take_length]
  exact inside

theorem Invariant.write {id : Nat} (sync : Bool)
    (idle : db.flushed = none) (known : id ∈ db.ids) : Invariant (db.write id sync) := by
  -- Only the active memtable of `id` changes, and it grows.
  have families : ∀ other, ((db.write id sync).families other).activeLog =
        (db.families other).activeLog ∧
      ((db.write id sync).families other).immutable = (db.families other).immutable ∧
      (∀ write ∈ (db.families other).active, write ∈ ((db.write id sync).families other).active) ∧
      ∀ write ∈ ((db.write id sync).families other).active,
        write ∈ (db.families other).active ∨ write = db.issued := by
    intro other
    unfold Db.write
    by_cases same : other = id
    · subst same
      simp +contextual
    · simp +contextual [update_of_ne same]
  have before : ∀ bound, db.Before bound → (db.write id sync).Before bound := by
    intro bound before
    exact ⟨before.1, fun other => (families other).2.1 ▸ before.2 other⟩
  have later : ∀ bound, db.Before bound → db.Before (bound + 1) := fun bound before =>
    ⟨fun table mem write inside => (before.1 table mem write inside).trans bound.lt_succ_self,
      fun id table mem write inside =>
        (before.2 id table mem write inside).trans bound.lt_succ_self⟩
  have whole := forall_concat.mp inv.whole
  have ⟨olderIssued, walIssued⟩ := forall_concat.mp inv.issued
  refine
    { inv with
      numbers := ?_, order := ?_
      whole := forall_concat.mpr whole
      issued := forall_concat.mpr ⟨fun segment mem record inside =>
        (olderIssued segment mem record inside).trans (Nat.lt_succ_self _),
        forall_concat.mpr ⟨fun record old => (walIssued record old).trans (Nat.lt_succ_self _),
          Nat.lt_succ_self _⟩⟩
      active := fun other write mem => ?_
      past := before _ (later _ inv.past)
      early := forall_concat.mpr
        ⟨fun record old => before _ (inv.early record old), before _ inv.past⟩
      ordered := fun other => ?_
      named := fun other flushing => by simp [Db.write, idle] at flushing
      ackedOrder := pairwise_concat inv.ackedOrder inv.ackedIssued
      ackedIssued := forall_concat.mpr ⟨fun entry old =>
        (inv.ackedIssued entry old).trans (Nat.lt_succ_self _), Nat.lt_succ_self _⟩
      acked := forall_concat.mpr ⟨fun entry old => ?_, ?_⟩
      synced := fun entry mem synced inside => ?_ }
  · simpa [Db.write, pairwise_append] using inv.numbers
  · have records : (((db.write id sync).older ++ [(db.write id sync).wal]).flatMap
        Segment.records) = (db.older ++ [db.wal]).flatMap Segment.records ++ [(id, db.issued)] := by
      simp [Db.write, flatMap_append]
    rw [records]
    refine pairwise_concat inv.order fun record mem => ?_
    obtain ⟨segment, among, inside⟩ := mem_flatMap.mp mem
    exact inv.issued segment among record inside
  · rcases (families other).2.2.2 write mem with old | rfl
    · exact (inv.active other write old).trans (Nat.lt_succ_self _)
    · exact Nat.lt_succ_self _
  · obtain ⟨log, immutable, _⟩ := families other
    obtain ⟨sorted, below, active⟩ := inv.ordered other
    exact ⟨immutable ▸ sorted, by rw [log, immutable]; exact below, log ▸ active⟩
  · obtain ⟨live, located⟩ := inv.acked entry old
    refine ⟨live, located.imp_right fun logged => ?_⟩
    have appended : Logged { db with wal := (db.write id sync).wal } entry.1 :=
      logged.wal rfl fun _ inside => mem_append_left _ inside
    refine @Logged.families _ (db.write id sync).families _ appended fun segment holds => ?_
    obtain ⟨log, immutable, grows, _⟩ := families entry.1.1
    rcases holds with ⟨active, kept⟩ | waiting
    · exact .inl ⟨grows _ active, log ▸ kept⟩
    · exact .inr (immutable ▸ waiting)
  · refine ⟨known, .inr ⟨(db.write id sync).wal, mem_segments.mpr (.inr rfl),
      inv.logNumber, mem_append_right _ (.head _), .inl ⟨?_, ?_⟩⟩⟩
    · simp [Db.write]
    · exact (families id).1 ▸ (inv.ordered id).active
  · -- A sync covers the whole segment; without one the covered part stays.
    cases sync with
    | true =>
      rw [show (db.write id true).wal.records.take (db.write id true).wal.synced =
        (db.write id true).wal.records from take_length]
      exact inside
    | false =>
      have old : entry ∈ db.acked := by
        rcases mem_append.mp mem with old | new
        · exact old
        · cases mem_singleton.mp new
          cases synced
      have there : entry.1 ∈ db.wal.records := by
        rcases mem_append.mp inside with there | new
        · exact there
        have below := inv.ackedIssued entry old
        rw [mem_singleton.mp new] at below
        exact absurd below (lt_irrefl _)
      have covered := inv.synced entry old synced there
      show entry.1 ∈ (db.wal.records ++ [(id, db.issued)]).take db.wal.synced
      rw [take_append]
      exact mem_append_left _ covered

theorem Invariant.roll (full : List Nat) (idle : db.flushed = none)
    (covered : db.wal.synced = db.wal.records.length) : Invariant (db.roll full) := by
  have before : ∀ bound, db.Before bound →
      (∀ id, ∀ write ∈ (db.families id).active, write < bound) → (db.roll full).Before bound := by
    intro bound before active
    refine ⟨before.1, fun id table mem write inside => ?_⟩
    unfold Db.roll at mem
    dsimp only at mem
    split at mem
    · rcases mem_append.mp mem with old | new
      · exact before.2 id table old write inside
      · cases mem_singleton.mp new
        exact active id write inside
    · exact before.2 id table mem write inside
  refine
    { inv with
      numbers := pairwise_concat inv.numbers fun segment mem =>
        (inv.le_wal segment mem).trans_lt inv.walNumber
      walNumber := Nat.lt_succ_self _
      manifestNext := inv.manifestNext.trans (Nat.le_succ _)
      logNumber := inv.logNumber.trans inv.walNumber.le
      covered := forall_concat.mpr ⟨inv.covered, covered⟩
      whole := forall_concat.mpr ⟨inv.whole, rfl⟩
      order := ?_
      issued := forall_concat.mpr ⟨inv.issued, nofun⟩
      active := fun id write mem => ?_
      past := before _ inv.past inv.active
      early := fun record mem => nomatch mem
      ordered := fun id => ?_
      named := fun id flushing => by simp [Db.roll, idle] at flushing
      acked := fun entry mem => ?_
      synced := fun entry _ _ inside => nomatch inside }
  · simpa [Db.roll, flatMap_append] using inv.order
  · unfold Db.roll at mem
    dsimp only at mem
    split at mem
    · cases mem
    · exact inv.active id write mem
  · unfold Db.roll
    dsimp only
    split
    · exact (inv.ordered id).switch inv.walNumber.le
    · exact (inv.ordered id).mono inv.walNumber.le
  · obtain ⟨live, located⟩ := inv.acked entry mem
    refine ⟨live, located.imp_right fun ⟨segment, among, kept, inside, holds⟩ => ?_⟩
    refine ⟨segment, mem_segments.mpr (.inl among), kept, inside, ?_⟩
    unfold Db.roll
    dsimp only
    split
    · exact holds.switch db.nextFile
    · exact holds

theorem Invariant.edit {id log : Nat} {table : List Nat}
    {rest : List (List Nat × Nat)} (rolling : Bool)
    (first : (db.families id).immutable = (table, log) :: rest) :
    Invariant (db.edit id table rolling) := by
  have waiting : (table, log) ∈ (db.families id).immutable := first ▸ .head _
  have before : ∀ bound, db.Before bound → ∀ other ∈ db.tables ++ [⟨db.nextFile, id, table⟩],
      ∀ write ∈ other.writes, write < bound := fun bound before =>
    forall_concat.mpr ⟨before.1, before.2 id (table, log) waiting⟩
  -- The edit that names the table also makes its number known.
  refine @Invariant.logAndApply { db with
    nextFile := db.nextFile + 1
    manifestNext := db.nextFile + 1
    tables := db.tables ++ [⟨db.nextFile, id, table⟩]
    flushed := some id } ?_ rolling
  exact
    { inv with
      walNumber := inv.walNumber.trans (Nat.lt_succ_self _)
      tableNumbers := forall_concat.mpr ⟨fun other old =>
        ((inv.tableNumbers other old).trans_le inv.manifestNext).trans (Nat.lt_succ_self _),
        Nat.lt_succ_self _⟩
      manifestNext := le_rfl
      past := ⟨before _ inv.past, inv.past.2⟩
      early := fun record mem =>
        ⟨before _ (inv.early record mem), (inv.early record mem).2⟩
      named := fun other flushing => by
        cases flushing
        exact ⟨(table, log), rest, first, fun write inside =>
          ⟨⟨db.nextFile, id, table⟩, mem_append_right _ (.head _), rfl, inside⟩⟩
      acked := fun entry mem => by
        obtain ⟨live, located⟩ := inv.acked entry mem
        refine ⟨live, located.imp_left ?_⟩
        rintro ⟨other, named, own, inside⟩
        exact ⟨other, mem_append_left _ named, own, inside⟩ }

theorem Invariant.retire {id : Nat} (named : db.flushed = some id) : Invariant (db.retire id) := by
  obtain ⟨table, rest, waiting, tabled⟩ := inv.named id named
  have fewer : ∀ other, ((db.retire id).families other).immutable ⊆
      (db.families other).immutable := by
    unfold Db.retire
    rw [forall_update_iff db.families fun id family =>
      family.immutable ⊆ (db.families id).immutable]
    exact ⟨tail_subset _, fun other _ => List.Subset.refl _⟩
  exact
    { inv with
      active := by
        unfold Db.retire
        rw [forall_update_iff db.families fun _ family =>
          ∀ write ∈ family.active, write < db.issued]
        exact ⟨inv.active id, fun other _ => inv.active other⟩
      past := inv.past.families fewer
      early := fun record mem => (inv.early record mem).families fewer
      ordered := by
        unfold Db.retire
        rw [forall_update_iff db.families fun _ family => family.Ordered db.wal.number]
        obtain ⟨sorted, below, active⟩ := inv.ordered id
        exact ⟨⟨sorted.tail, fun other mem => below other (mem_of_mem_tail mem), active⟩,
          fun other _ => inv.ordered other⟩
      named := fun other flushing => nomatch flushing
      acked := fun entry mem => by
        obtain ⟨live, located | logged⟩ := inv.acked entry mem
        · exact ⟨live, .inl located⟩
        by_cases own : entry.1.1 = id ∧ entry.1.2 ∈ table.1
        · exact ⟨live, .inl (own.1 ▸ tabled entry.1.2 own.2)⟩
        refine ⟨live, .inr (logged.families fun segment holds => ?_)⟩
        unfold Db.retire
        dsimp only
        by_cases same : entry.1.1 = id
        · rw [same, update_self]
          rw [same] at holds
          refine holds.imp_right ?_
          rintro ⟨other, mem, inside, log⟩
          rw [waiting] at mem ⊢
          rcases mem_cons.mp mem with rfl | later
          · exact absurd ⟨same, inside⟩ own
          · exact ⟨other, later, inside, log⟩
        · rwa [update_of_ne same] }

theorem Invariant.advanceLogNumber (rolling : Bool) : Invariant (db.advanceLogNumber rolling) := by
  unfold Db.advanceLogNumber
  split
  · exact inv
  refine Invariant.logAndApply ?_ rolling
  have sublist : List.Sublist
      ((db.older.filter fun segment => db.oldest ≤ segment.number) ++ [db.wal])
      (db.older ++ [db.wal]) := filter_sublist.append_right _
  exact
    { inv with
      numbers := inv.numbers.sublist sublist
      logNumber := Family.oldestOf_le_wal inv.ordered
      covered := fun segment mem =>
        inv.covered segment (mem_of_mem_filter mem)
      whole := fun segment mem => inv.whole segment (sublist.subset mem)
      order := inv.order.sublist (sublist.flatMap _)
      issued := fun segment mem => inv.issued segment (sublist.subset mem)
      acked := fun entry mem => by
        obtain ⟨live, located⟩ := inv.acked entry mem
        refine ⟨live, located.imp_right fun ⟨segment, among, kept, inside, holds⟩ => ?_⟩
        have needed : db.oldest ≤ segment.number :=
          Family.oldestOf_le (inv.ordered _) live holds
        refine ⟨segment, ?_, needed, inside, holds⟩
        rcases mem_segments.mp among with old | rfl
        · exact mem_segments.mpr (.inl (mem_filter.mpr ⟨old, decide_eq_true needed⟩))
        · exact mem_segments.mpr (.inr rfl) }

end

/-! ### A clean crash -/

/-- The segments recovery replays after a crash that tears no record. -/
def intact (db : Db) (kept : Nat → Nat) : List Segment :=
  ((db.older ++ [db.wal]).map fun segment => segment.crash (kept segment.number) false).filter
    fun segment => db.logNumber ≤ segment.number

theorem mem_intact : segment ∈ db.intact kept ↔ ∃ before ∈ db.older ++ [db.wal],
      db.logNumber ≤ before.number ∧ segment = before.crash (kept before.number) false := by
  simp only [intact, mem_filter, mem_map, decide_eq_true_eq]
  constructor
  · rintro ⟨⟨before, mem, rfl⟩, needed⟩
    exact ⟨before, mem, needed, rfl⟩
  · rintro ⟨before, mem, needed, rfl⟩
    exact ⟨⟨before, mem, rfl⟩, needed⟩

section

variable (inv : Invariant db)
include inv

theorem Invariant.intact_numbers (kept : Nat → Nat) :
    (db.intact kept).Pairwise fun left right => left.number < right.number := by
  refine List.Pairwise.filter _ (pairwise_map.mpr ?_)
  exact inv.numbers

theorem Invariant.replayed_eq (clean : db.Clean torn) : db.replayed kept torn = db.intact kept := by
  have untorn : torn = fun _ => false := funext clean.2
  unfold replayed
  rw [untorn]
  exact ((inv.intact_numbers kept).imp fun below => below.le).insertionSort_eq

theorem Invariant.intact_whole (mem : segment ∈ db.intact kept) : segment.torn = false := by
  obtain ⟨before, among, _, rfl⟩ := mem_intact.mp mem
  simp [Segment.crash, inv.whole before among]

omit inv in
theorem intact_sublist (kept : Nat → Nat) : List.Sublist ((db.intact kept).flatMap Segment.records)
      ((db.older ++ [db.wal]).flatMap Segment.records) := by
  refine (filter_sublist.flatMap _).trans ?_
  rw [flatMap_map]
  induction db.older ++ [db.wal] with
  | nil => exact .slnil
  | cons segment rest ih =>
    exact (take_sublist _ _).append ih

theorem Invariant.fresh (known : db.wal.number < db.manifestNext)
    {number : Nat} (handed : db.recoveredNext ≤ number) :
    (∀ segment ∈ db.older ++ [db.wal], segment.number ≠ number) ∧
      ∀ table ∈ db.tables, table.number ≠ number := by
  have above : db.manifestNext ≤ number := (le_max_left _ _).trans handed
  exact ⟨fun segment mem => ((inv.le_wal segment mem).trans_lt (known.trans_le above)).ne,
    fun table mem => ((inv.tableNumbers table mem).trans_le above).ne⟩

omit inv in
theorem readable_openedOver : (db.openedOver segments).readable record ↔ record.1 ∈ db.ids ∧
      (record ∈ segments.flatMap Segment.records ∨ db.Tabled record) := by
  rw [readable_iff]
  have active : record.2 ∈ ((db.openedOver segments).families record.1).active ↔
      record ∈ segments.flatMap Segment.records := by
    simp only [openedOver, mem_map, mem_filter, decide_eq_true_eq]
    constructor
    · rintro ⟨other, ⟨mem, own⟩, same⟩
      rwa [← Prod.ext own same]
    · exact fun mem => ⟨record, ⟨mem, rfl⟩, rfl⟩
  have immutable : ¬ ∃ table ∈ ((db.openedOver segments).families record.1).immutable,
      record.2 ∈ table.1 := by
    rintro ⟨table, mem, _⟩
    cases mem
  rw [active]
  simp only [immutable, false_or]
  rfl

omit inv in
theorem head_le {default : Nat}
    (sorted : segments.Pairwise fun left right => left.number < right.number)
    (mem : segment ∈ segments) :
    (segments.head?.map Segment.number).getD default ≤ segment.number := by
  cases segments with
  | nil => cases mem
  | cons first rest =>
    rcases mem_cons.mp mem with rfl | later
    · exact le_rfl
    · exact ((pairwise_cons.mp sorted).1 segment later).le

theorem Invariant.reopen (known : db.wal.number < db.manifestNext) :
    Invariant (db.openedOver (db.intact kept)).survivors := by
  have sorted := inv.intact_numbers kept
  have numbers : ∀ segment ∈ db.intact kept, segment.number < db.recoveredNext := by
    intro segment mem
    obtain ⟨before, among, _, rfl⟩ := mem_intact.mp mem
    exact (inv.le_wal before among).trans_lt (known.trans_le (le_max_left _ _))
  have older : (db.openedOver (db.intact kept)).survivors.older = db.intact kept :=
    filter_eq_self.mpr fun segment mem => decide_eq_true (numbers segment mem).ne
  have log : ((db.intact kept).head?.map Segment.number).getD db.recoveredNext ≤
      db.recoveredNext := by
    cases first : db.intact kept with
    | nil => exact le_rfl
    | cons segment rest => exact (numbers segment (first ▸ .head _)).le
  have ordered := inv.order.sublist (intact_sublist kept)
  have past : ∀ record ∈ (db.intact kept).flatMap Segment.records, record.2 < db.issued := by
    intro record mem
    obtain ⟨segment, among, inside⟩ := mem_flatMap.mp ((intact_sublist kept).subset mem)
    exact inv.issued segment among record inside
  refine
    { numbers := ?_, walNumber := ?_, tableNumbers := fun table mem => ?_
      manifestNext := le_rfl, logNumber := log
      covered := fun segment mem => ?_, order := ?_
      whole := forall_concat.mpr ⟨fun segment mem => inv.intact_whole (mem_of_mem_filter mem), rfl⟩
      issued := forall_concat.mpr ⟨fun segment mem record inside => past record
        (mem_flatMap.mpr ⟨segment, mem_of_mem_filter mem, inside⟩), nofun⟩
      active := fun id write mem => ?_
      past := ⟨inv.past.1, fun id table mem => nomatch mem⟩
      early := fun record mem => nomatch mem
      ordered := fun id => ⟨.nil, fun table mem => (nomatch mem), log⟩
      named := fun id flushing => nomatch flushing
      ackedOrder := inv.ackedOrder.filter _
      ackedIssued := fun entry mem =>
        inv.ackedIssued entry (mem_of_mem_filter mem)
      acked := fun entry mem => ?_
      synced := fun entry _ _ inside => nomatch inside }
  · rw [older]
    exact pairwise_concat sorted numbers
  · show db.recoveredNext < db.recoveredNext + 2
    omega
  · have below := (inv.tableNumbers table mem).trans_le
      (le_max_left db.manifestNext ((db.tables.map fun table => table.number + 1).max?.getD 0))
    show table.number < db.recoveredNext + 2
    unfold recoveredNext
    omega
  · obtain ⟨before, _, _, rfl⟩ := mem_intact.mp (mem_of_mem_filter mem)
    rfl
  · rw [older]
    simpa [flatMap_append, survivors, openedOver] using ordered
  · obtain ⟨record, found, rfl⟩ := mem_map.mp mem
    exact past record (mem_of_mem_filter found)
  · obtain ⟨old, back⟩ := mem_filter.mp mem
    obtain ⟨live, replayed | tabled⟩ := readable_openedOver.mp back
    · refine ⟨live, .inr ?_⟩
      obtain ⟨segment, among, inside⟩ := mem_flatMap.mp replayed
      refine ⟨segment, mem_segments.mpr (.inl ?_), head_le sorted among, inside,
        .inl ⟨?_, head_le sorted among⟩⟩
      · exact mem_filter.mpr ⟨among, decide_eq_true (numbers segment among).ne⟩
      · exact mem_map.mpr ⟨entry.1, mem_filter.mpr ⟨replayed, decide_eq_true rfl⟩, rfl⟩
    · exact ⟨live, .inl tabled⟩

theorem Invariant.reopen_eq (clean : db.Clean torn) :
    db.reopen kept torn = some (db.openedOver (db.intact kept)).survivors := by
  have whole : (db.intact kept).dropLast.any Segment.torn = false := by
    refine any_eq_false.mpr fun segment mem => ?_
    rw [inv.intact_whole ((dropLast_sublist _).subset mem)]
    exact Bool.false_ne_true
  unfold Db.reopen
  rw [inv.replayed_eq clean]
  dsimp only
  rw [whole]
  rfl

end

/-- A step that rolls over no unsynced segment and crashes cleanly keeps the invariant. -/
theorem Invariant.step {next : Db} (inv : Invariant db) (step : Step False db next) :
    Invariant next := by
  cases step with
  | createCf rolling idle => exact inv.createCf rolling idle
  | dropCf id rolling idle => exact inv.dropCf id rolling idle
  | write sync idle known => exact inv.write sync idle known
  | syncWal idle => exact inv.syncWal
  | roll full idle covered => exact inv.roll full idle (covered.resolve_left id)
  | edit rolling idle first => exact inv.edit rolling first
  | finish rolling named => exact (inv.retire named).advanceLogNumber rolling
  | crash clean opened =>
    have clean := clean.resolve_left id
    rw [inv.reopen_eq clean] at opened
    cases opened
    exact inv.reopen clean.1

theorem Invariant.run {ids : List Nat} (run : Run False (Db.created ids) db) : Invariant db := by
  induction run with
  | refl => exact Invariant.created ids
  | tail _ step ih => exact ih.step step

theorem filter_initial {α : Type} {kept : α → Bool} {list : List α}
    (closed : list.Pairwise fun earlier later => kept later → kept earlier) :
    list.filter kept <+: list := by
  induction list with
  | nil => exact prefix_rfl
  | cons first rest ih =>
    obtain ⟨head, tail⟩ := pairwise_cons.mp closed
    cases keeps : kept first with
    | true =>
      rw [filter_cons_of_pos keeps]
      exact (prefix_cons_inj first).mpr (ih tail)
    | false =>
      have none : rest.filter kept = [] := filter_eq_nil_iff.mpr fun later mem back =>
        absurd (head later mem back) (by simp [keeps])
      rw [filter_cons_of_neg (by simp [keeps]), none]
      exact nil_prefix

theorem mem_intact_records (mem : segment ∈ db.older ++ [db.wal])
    (needed : db.logNumber ≤ segment.number)
    (inside : record ∈ segment.records.take (max segment.synced (kept segment.number))) :
    record ∈ (db.intact kept).flatMap Segment.records :=
  mem_flatMap.mpr ⟨_, mem_intact.mpr ⟨segment, mem, needed, rfl⟩, inside⟩

/-- An acknowledged write comes back, unless it is beyond what is left of the last segment. -/
theorem Invariant.comes_back (inv : Invariant db) (kept : Nat → Nat) (mem : entry ∈ db.acked) :
    (db.openedOver (db.intact kept)).readable entry.1 ∨
      entry.1 ∈ db.wal.records.drop (max db.wal.synced (kept db.wal.number)) := by
  obtain ⟨live, tabled | ⟨segment, among, needed, inside, _⟩⟩ := inv.acked entry mem
  · exact .inl (readable_openedOver.mpr ⟨live, .inr tabled⟩)
  rcases mem_segments.mp among with old | rfl
  · have whole : segment.records.take (max segment.synced (kept segment.number)) =
        segment.records :=
      take_of_length_le ((inv.covered segment old).ge.trans (le_max_left _ _))
    exact .inl (readable_openedOver.mpr
      ⟨live, .inl (mem_intact_records among needed (by rw [whole]; exact inside))⟩)
  · rw [← take_append_drop (max db.wal.synced (kept db.wal.number)) db.wal.records] at inside
    rcases mem_append.mp inside with left | lost
    · exact .inl (readable_openedOver.mpr ⟨live, .inl (mem_intact_records among needed left)⟩)
    · exact .inr lost

theorem Invariant.back_lt_lost (inv : Invariant db) {back lost : Record}
    (readable : (db.openedOver (db.intact kept)).readable back)
    (gone : lost ∈ db.wal.records.drop (max db.wal.synced (kept db.wal.number))) :
    back.2 < lost.2 := by
  have here : lost ∈ db.wal.records := mem_of_mem_drop gone
  obtain ⟨_, replayed | ⟨table, named, _, inside⟩⟩ := readable_openedOver.mp readable
  · obtain ⟨segment, among, inside⟩ := mem_flatMap.mp replayed
    obtain ⟨before, mem, _, rfl⟩ := mem_intact.mp among
    have order := inv.order
    rw [flatMap_append, flatMap_singleton] at order
    obtain ⟨_, within, across⟩ := pairwise_append.mp order
    rcases mem_segments.mp mem with old | rfl
    · exact across back (mem_flatMap.mpr ⟨before, old, mem_of_mem_take inside⟩) lost here
    · rw [← take_append_drop (max db.wal.synced (kept db.wal.number)) db.wal.records] at within
      exact (pairwise_append.mp within).2.2 back inside lost gone
  · exact (inv.early lost here).1 table named back.2 inside

/-- In a run that syncs a segment before it rolls the log, and whose crashes tear no record and
come after a manifest edit that knows the current segment: every acknowledged write is
readable; and after a further such crash the database opens, with every write acknowledged
with a sync, handing out no number of a file recovery depends on, and what has come back of
the acknowledged writes is an initial part of them. -/
theorem recovery_keeps_synced {ids : List Nat} (run : Run False (Db.created ids) db) :
    (∀ entry ∈ db.acked, db.readable entry.1) ∧
      ∀ (kept : Nat → Nat) (torn : Nat → Bool), db.Clean torn →
        ∃ after, db.reopen kept torn = some after ∧
          (∀ entry ∈ db.acked, entry.2 = true → after.readable entry.1) ∧
          (∀ number, db.recoveredNext ≤ number →
            (∀ segment ∈ db.older ++ [db.wal], segment.number ≠ number) ∧
              ∀ table ∈ db.tables, table.number ≠ number) ∧
          after.acked <+: db.acked := by
  have invariant := Invariant.run run
  refine ⟨fun entry member => invariant.acked_readable member, fun kept torn clean => ?_⟩
  refine ⟨_, invariant.reopen_eq clean, fun entry member sync => ?_,
    fun number handed => invariant.fresh clean.1 handed, ?_⟩
  · rcases invariant.comes_back kept member with back | lost
    · exact back
    -- A sync covers the write, so what is left of the last segment has it.
    have covered := invariant.synced entry member sync (mem_of_mem_drop lost)
    have left : entry.1 ∈ db.wal.records.take (max db.wal.synced (kept db.wal.number)) :=
      (take_sublist_take_left (le_max_left _ _)).subset covered
    exact readable_openedOver.mpr ⟨(invariant.acked entry member).1,
      .inl (mem_intact_records (mem_segments.mpr (.inr rfl)) invariant.logNumber left)⟩
  · refine filter_initial ?_
    refine invariant.ackedOrder.imp_of_mem fun {earlier later} one _ order back => ?_
    rcases invariant.comes_back kept one with found | lost
    · exact found
    · exact absurd (invariant.back_lt_lost back lost) (by omega)

/-- A synced write and one without a sync, which the crash loses. -/
theorem recovery_keeps_synced_pair : ∃ db after : Db, Run False (created [0]) db ∧
      db.acked = [((0, 0), true), ((0, 1), false)] ∧
      db.reopen (fun _ => 0) (fun _ => false) = some after ∧ after.readable (0, 0) := by
  have written := ((Relation.ReflTransGen.refl : Run False (created [0]) (created [0])).tail
    (@Step.write False _ 0 true rfl (by decide))).tail
    (@Step.write False _ 0 false rfl (by decide))
  obtain ⟨after, opened, synced, _⟩ := (recovery_keeps_synced written).2 (fun _ => 0)
    (fun _ => false) ⟨by decide, fun _ => rfl⟩
  exact ⟨_, after, written, rfl, opened, synced ((0, 0), true) (.head _) rfl⟩

end Db

end Esker.Engine.Recovery
