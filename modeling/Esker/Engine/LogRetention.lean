import Mathlib

/-!
Contract: which log segments outlive which memtables
(`esker-engine/src/db/write.rs` and `esker-engine/src/db/flush.rs`).

Owns: the segment roll, the group leader's log append and its insertions, the publication,
the flush of a memtable in its steps, the advance of the log number and the sweep, as
actions of concurrent threads; and where an acknowledged write is to be found after each.

A write is a number, logged with a sync. The set of families is fixed. What a table holds is
what its memtable held: compactions, which rewrite tables, are not among the actions.

Does not own: how recovery reads the segments back.
-/

namespace Esker.Engine.LogRetention

open List Function

structure Family where
  active : List Nat
  activeLog : Nat
  /-- Tables waiting for the flush thread, oldest first, with their segments. -/
  immutable : List (List Nat × Nat)
deriving DecidableEq, Repr

variable {write segment : Nat}

namespace Family

def empty (log : Nat) : Family := ⟨[], log, []⟩

variable (family : Family)

def oldestLog : Option Nat :=
  match family.immutable with
  | (_, log) :: _ => some log
  | [] => if family.active = [] then none else some family.activeLog

/-- The active table retires and a fresh one starts on segment `number`. -/
def switch (number : Nat) : Family :=
  ⟨[], number, family.immutable ++ [(family.active, family.activeLog)]⟩

/-- A memtable holds the write and depends on a segment no newer than `segment`. -/
def Holds (write segment : Nat) : Prop :=
  (write ∈ family.active ∧ family.activeLog ≤ segment) ∨
    ∃ table ∈ family.immutable, write ∈ table.1 ∧ table.2 ≤ segment

/-- Older memtables depend on older segments, and none on one newer than `wal`. -/
structure Ordered (family : Family) (wal : Nat) : Prop where
  sorted : family.immutable.Pairwise fun older newer => older.2 ≤ newer.2
  below : ∀ table ∈ family.immutable, table.2 ≤ family.activeLog
  active : family.activeLog ≤ wal

variable {family : Family} {wal : Nat}

section

variable (ordered : family.Ordered wal)
include ordered

theorem Ordered.mono {newer : Nat} (later : wal ≤ newer) : family.Ordered newer :=
  ⟨ordered.sorted, ordered.below, ordered.active.trans later⟩

theorem Ordered.switch {number : Nat} (newer : wal ≤ number) :
    (family.switch number).Ordered number := by
  refine ⟨pairwise_append.mpr ⟨ordered.sorted, pairwise_singleton _ _, ?_⟩, ?_, le_rfl⟩
  · intro table mem last only
    cases mem_singleton.mp only
    exact ordered.below table mem
  intro table mem
  have active := ordered.active.trans newer
  rcases mem_append.mp mem with old | new
  · exact (ordered.below table old).trans active
  · cases mem_singleton.mp new
    exact active

omit ordered in
theorem Holds.switch (holds : family.Holds write segment) (number : Nat) :
    (family.switch number).Holds write segment := by
  rcases holds with ⟨mem, log⟩ | ⟨table, mem, inside, log⟩
  · exact .inr ⟨_, mem_append_right _ (.head _), mem, log⟩
  · exact .inr ⟨table, mem_append_left _ mem, inside, log⟩

/-- A family depends on no segment newer than the one a write of its memtables is in. -/
theorem Ordered.oldestLog_le (holds : family.Holds write segment) :
    ∃ log, family.oldestLog = some log ∧ log ≤ segment := by
  obtain ⟨sorted, below, _⟩ := ordered
  unfold Holds at holds
  unfold oldestLog
  cases waiting : family.immutable with
  | nil =>
    rw [waiting] at holds
    obtain ⟨mem, kept⟩ := holds.resolve_right (by simp)
    have filled : family.active ≠ [] := ne_nil_of_mem mem
    exact ⟨_, by simp [filled], kept⟩
  | cons first rest =>
    rw [waiting] at sorted below holds
    refine ⟨first.2, rfl, ?_⟩
    rcases holds with ⟨_, kept⟩ | ⟨table, mem, _, kept⟩
    · exact (below first (.head _)).trans kept
    rcases mem_cons.mp mem with rfl | later
    · exact kept
    · exact ((pairwise_cons.mp sorted).1 table later).trans kept

theorem Ordered.oldestLog_le_wal {log : Nat} (found : family.oldestLog = some log) : log ≤ wal := by
  unfold oldestLog at found
  split at found
  · rename_i table first rest waiting
    cases found
    exact (ordered.below (table, log) (waiting ▸ .head _)).trans ordered.active
  split at found
  · cases found
  · cases found
    exact ordered.active

end

/-- The oldest segment the memtables of any of `ids` depend on, or `wal`. -/
def oldestOf (ids : List Nat) (families : Nat → Family) (wal : Nat) : Nat :=
  ((ids.filterMap fun id => (families id).oldestLog).min?).getD wal

variable {ids : List Nat} {families : Nat → Family}

theorem oldestOf_le_wal (ordered : ∀ id, (families id).Ordered wal) :
    oldestOf ids families wal ≤ wal := by
  unfold oldestOf
  cases minimum : (ids.filterMap fun id => (families id).oldestLog).min? with
  | none => exact le_rfl
  | some log =>
    have mem := (min?_eq_some_iff.mp minimum).1
    obtain ⟨id, _, found⟩ := mem_filterMap.mp mem
    exact (ordered id).oldestLog_le_wal found

theorem oldestOf_le {id : Nat} (ordered : (families id).Ordered wal) (present : id ∈ ids)
    (holds : (families id).Holds write segment) : oldestOf ids families wal ≤ segment := by
  obtain ⟨log, found, kept⟩ := ordered.oldestLog_le holds
  unfold oldestOf
  have mem : log ∈ ids.filterMap fun id => (families id).oldestLog :=
    mem_filterMap.mpr ⟨id, present, found⟩
  cases minimum : (ids.filterMap fun id => (families id).oldestLog).min? with
  | none => rw [min?_eq_none_iff.mp minimum] at mem; cases mem
  | some least => exact ((min?_eq_some_iff.mp minimum).2 log mem).trans kept

end Family

structure Db where
  nextFile : Nat
  wal : Nat
  records : List (Nat × Nat)
  logNumber : Nat
  tables : List Nat
  ids : List Nat
  families : Nat → Family
  /-- The group being committed: what is still to be inserted where, and its writes. -/
  leader : Option (List (Nat × Nat) × List Nat)
  /-- The family whose oldest table the manifest names and which is not retired yet. -/
  flushed : Option Nat
  acked : List Nat

namespace Db

/-- A database just created, with segment `1` open. -/
def created (ids : List Nat) : Db :=
  ⟨2, 1, [], 1, [], ids, fun _ => .empty 1, none, none, []⟩

variable (db : Db)

/-- The oldest segment any memtable depends on, or the current one. -/
def oldest : Nat := Family.oldestOf db.ids db.families db.wal

/-- A group is logged and some of its entries are still to be inserted. -/
def Inserting : Prop := ∃ entry rest writes, db.leader = some (entry :: rest, writes)

def adjust (id : Nat) (change : Family → Family) : Db :=
  { db with families := update db.families id (change (db.families id)) }

/-- One action. Whether a log roll may come between a group's log append and its insertions
is a parameter. -/
inductive Step (racing : Prop) : Db → Db → Prop
  | roll {db : Db} (full : List Nat) (between : db.Inserting → racing) :
      Step racing db { db with
        nextFile := db.nextFile + 1
        wal := db.nextFile
        families := fun id =>
          if id ∈ full then (db.families id).switch db.nextFile else db.families id }
  | log {db : Db} {group : List (Nat × Nat)} (idle : db.leader = none)
      (known : ∀ entry ∈ group, entry.1 ∈ db.ids) :
      Step racing db { db with
        records := db.records ++ group.map fun entry => (db.wal, entry.2)
        leader := some (group, group.map Prod.snd) }
  | insert {db : Db} {id write : Nat} {rest : List (Nat × Nat)} {writes : List Nat}
      (leading : db.leader = some ((id, write) :: rest, writes)) :
      Step racing db ({ db with leader := some (rest, writes) }.adjust id fun family =>
        { family with active := family.active ++ [write] })
  | publish {db : Db} {writes : List Nat} (leading : db.leader = some ([], writes)) :
      Step racing db { db with leader := none, acked := db.acked ++ writes }
  /-- The flush thread has built a table and the manifest names it. -/
  | edit {db : Db} {id log : Nat} {table : List Nat} {rest : List (List Nat × Nat)}
      (free : db.flushed = none) (first : (db.families id).immutable = (table, log) :: rest) :
      Step racing db { db with tables := db.tables ++ table, flushed := some id }
  | retire {db : Db} {id : Nat} (named : db.flushed = some id) :
      Step racing db ({ db with flushed := none }.adjust id fun family =>
        { family with immutable := family.immutable.tail })
  | advanceLogNumber (db : Db) :
      Step racing db (if db.oldest ≤ db.logNumber then db
        else { db with logNumber := db.oldest })
  | sweep (db : Db) :
      Step racing db { db with records := db.records.filter fun record =>
        db.logNumber ≤ record.1 }

abbrev Run (racing : Prop) : Db → Db → Prop := Relation.ReflTransGen (Step racing)

def Durable (write : Nat) : Prop :=
  write ∈ db.tables ∨ ∃ record ∈ db.records, record.2 = write ∧ db.logNumber ≤ record.1

instance (db : Db) (write : Nat) : Decidable (db.Durable write) :=
  inferInstanceAs (Decidable (_ ∨ _))

/-! ## A roll between the log append and the insertion -/

/-- A write logged to segment `1` and inserted after the roll to segment `2`. -/
theorem synced_write_lost_by_roll :
    ∃ db : Db, Run True (created [0]) db ∧ 12 ∈ db.acked ∧ ¬ db.Durable 12 := by
  -- Write 11 fills the memtable; write 12 is logged, then another writer rolls the log.
  have filled := (((Relation.ReflTransGen.refl : Run True (created [0]) (created [0])).tail
    (@Step.log True _ [(0, 11)] rfl (by decide))).tail (.insert rfl)).tail (.publish rfl)
  have logged := filled.tail (@Step.log True _ [(0, 12)] rfl (by decide))
  have rolled := logged.tail (.roll [0] fun _ => trivial)
  have acked := (rolled.tail (.insert rfl)).tail (.publish rfl)
  -- The flush retires the old memtable, and segment 1 with it.
  have retired := (acked.tail (@Step.edit True _ 0 1 [11] [] rfl rfl)).tail (.retire rfl)
  have advanced := retired.tail (.advanceLogNumber _)
  exact ⟨_, advanced, by decide, by decide⟩

/-! ## Runs in which no roll comes between -/

/-- A memtable holds the write, and depends on a segment no newer than the write's. -/
def Pinned (write segment : Nat) : Prop :=
  ∃ id ∈ db.ids,
    (write ∈ (db.families id).active ∧ (db.families id).activeLog ≤ segment) ∨
    ∃ table ∈ (db.families id).immutable, write ∈ table.1 ∧ table.2 ≤ segment

/-- The write is logged in the current segment and not inserted yet. -/
def Awaiting (write : Nat) : Prop :=
  ∃ rest writes, db.leader = some (rest, writes) ∧ write ∈ rest.map Prod.snd

/-- Where a write is between its log append and its table. -/
def Located (write : Nat) : Prop :=
  write ∈ db.tables ∨ ∃ segment, (segment, write) ∈ db.records ∧ db.logNumber ≤ segment ∧
    (db.Pinned write segment ∨ db.Awaiting write ∧ segment = db.wal)

structure Invariant (db : Db) : Prop where
  current : db.wal < db.nextFile ∧ db.logNumber ≤ db.wal
  activeLog : ∀ id, (db.families id).activeLog ≤ db.wal
  immutableLogs : ∀ id, ((db.families id).immutable.Pairwise fun older newer => older.2 ≤ newer.2) ∧
    ∀ table ∈ (db.families id).immutable, table.2 ≤ (db.families id).activeLog
  named : ∀ id, db.flushed = some id → ∃ table rest,
    (db.families id).immutable = table :: rest ∧ ∀ write ∈ table.1, write ∈ db.tables
  known : ∀ rest writes, db.leader = some (rest, writes) → ∀ entry ∈ rest, entry.1 ∈ db.ids
  acked : ∀ write ∈ db.acked, db.Located write
  group : ∀ rest writes, db.leader = some (rest, writes) → ∀ write ∈ writes, db.Located write

theorem Located.durable {db : Db} (located : db.Located write) : db.Durable write :=
  located.imp_right fun ⟨segment, found, kept, _⟩ => ⟨(segment, write), found, rfl, kept⟩

theorem Invariant.created (ids : List Nat) : Invariant (Db.created ids) := by
  constructor <;> simp [Db.created, Family.empty]

variable {db next : Db}

section

variable (inv : Invariant db)
include inv

theorem Invariant.ordered (id : Nat) : (db.families id).Ordered db.wal :=
  ⟨(inv.immutableLogs id).1, (inv.immutableLogs id).2, inv.activeLog id⟩

theorem Invariant.oldest_le_wal : db.oldest ≤ db.wal :=
  Family.oldestOf_le_wal inv.ordered

theorem Invariant.oldest_le (why : db.Pinned write segment ∨ db.Awaiting write ∧ segment = db.wal) :
    db.oldest ≤ segment := by
  rcases why with ⟨id, present, holds⟩ | ⟨_, rfl⟩
  · exact Family.oldestOf_le (inv.ordered id) present holds
  · exact inv.oldest_le_wal

theorem Invariant.roll (full : List Nat) (inserted : ¬ db.Inserting) : Invariant { db with
      nextFile := db.nextFile + 1
      wal := db.nextFile
      families := fun id =>
        if id ∈ full then (db.families id).switch db.nextFile else db.families id } := by
  have current := inv.current
  have switched : ∀ id, (if id ∈ full then (db.families id).switch db.nextFile
      else db.families id).Ordered db.nextFile := by
    intro id
    split
    · exact (inv.ordered id).switch current.1.le
    · exact (inv.ordered id).mono current.1.le
  have located : ∀ write, db.Located write → ({ db with
      nextFile := db.nextFile + 1
      wal := db.nextFile
      families := fun id =>
        if id ∈ full then (db.families id).switch db.nextFile else db.families id } :
      Db).Located write := by
    rintro write
      (tabled | ⟨segment, found, kept, ⟨id, present, holds⟩ | ⟨⟨rest, writes, leading, mem⟩, _⟩⟩)
    · exact .inl tabled
    · refine .inr ⟨segment, found, kept, .inl ⟨id, present, ?_⟩⟩
      dsimp only
      split
      · exact Family.Holds.switch holds db.nextFile
      · exact holds
    · -- What awaits its insertion is what the roll would have to wait for.
      cases rest with
      | nil => cases mem
      | cons entry rest => exact absurd ⟨entry, rest, writes, leading⟩ inserted
  refine
    { current := ⟨Nat.lt_succ_self _, current.2.trans current.1.le⟩
      activeLog := fun id => ?_
      immutableLogs := fun id => ?_
      named := fun id flushing => ?_
      known := inv.known
      acked := fun write mem => located write (inv.acked write mem)
      group := fun _ _ leading write mem => located write (inv.group _ _ leading write mem) }
  · exact (switched id).active
  · exact ⟨(switched id).sorted, (switched id).below⟩
  · obtain ⟨table, rest, waiting, tabled⟩ := inv.named id flushing
    dsimp only
    split
    · exact ⟨table, rest ++ [((db.families id).active, (db.families id).activeLog)],
        by simp [Family.switch, waiting], tabled⟩
    · exact ⟨table, rest, waiting, tabled⟩

omit inv in
theorem Invariant.log (inv : Invariant db) {group : List (Nat × Nat)}
    (idle : db.leader = none) (known : ∀ entry ∈ group, entry.1 ∈ db.ids) :
    Invariant { db with
      records := db.records ++ group.map fun entry => (db.wal, entry.2)
      leader := some (group, group.map Prod.snd) } := by
  refine
    { inv with
      known := fun rest writes leading => by cases leading; exact known
      acked := fun write mem => ?_
      group := fun rest writes leading write mem => ?_ }
  · rcases inv.acked write mem with
      tabled | ⟨segment, found, kept, pinned | ⟨⟨rest, writes, leading, _⟩, _⟩⟩
    · exact .inl tabled
    · exact .inr ⟨segment, mem_append_left _ found, kept, .inl pinned⟩
    · simp [idle] at leading
  · cases leading
    obtain ⟨entry, present, rfl⟩ := mem_map.mp mem
    refine .inr ⟨db.wal, mem_append_right _ (mem_map.mpr ⟨entry, present, rfl⟩),
      inv.current.2, .inr ⟨⟨group, _, rfl, mem⟩, rfl⟩⟩

theorem Invariant.ordered_adjust (id : Nat) (change : Family → Family)
    (own : (change (db.families id)).Ordered db.wal) (other : Nat) :
    ((db.adjust id change).families other).Ordered db.wal :=
  (Function.forall_update_iff db.families fun _ family => family.Ordered db.wal).mpr
    ⟨own, fun other _ => inv.ordered other⟩ other

end

theorem Pinned.adjust (pinned : db.Pinned write segment) (id : Nat) (change : Family → Family)
    (keeps : (db.families id).Holds write segment →
      (change (db.families id)).Holds write segment ∨ write ∈ db.tables) :
    (db.adjust id change).Pinned write segment ∨ write ∈ db.tables := by
  obtain ⟨home, present, holds⟩ := pinned
  rcases eq_or_ne home id with rfl | differs
  · refine (keeps holds).imp_left fun holds => ⟨home, present, ?_⟩
    simpa only [Db.adjust, update_self, Family.Holds] using holds
  · refine .inl ⟨home, present, ?_⟩
    simpa only [Db.adjust, update_of_ne differs] using holds

section

variable (inv : Invariant db)
include inv

theorem Invariant.insert {id write : Nat} {rest : List (Nat × Nat)}
    {writes : List Nat} (leading : db.leader = some ((id, write) :: rest, writes)) :
    Invariant ({ db with leader := some (rest, writes) }.adjust id fun family =>
      { family with active := family.active ++ [write] }) := by
  have ordered := inv.ordered_adjust id (fun family =>
    { family with active := family.active ++ [write] }) { inv.ordered id with }
  have located : ∀ other, db.Located other →
      ({ db with leader := some (rest, writes) }.adjust id fun family =>
        { family with active := family.active ++ [write] }).Located other := by
    rintro other (tabled | ⟨segment, found, kept, pinned | ⟨waiting, here⟩⟩)
    · exact .inl tabled
    · rcases pinned.adjust id (fun family => { family with active := family.active ++ [write] })
        fun holds => .inl (holds.imp_left (.imp_left (mem_append_left _))) with pinned | tabled
      · exact .inr ⟨segment, found, kept, .inl pinned⟩
      · exact .inl tabled
    · obtain ⟨_, _, same, mem⟩ := waiting
      cases leading.symm.trans same
      refine .inr ⟨segment, found, kept, ?_⟩
      rcases mem_cons.mp mem with rfl | later
      · -- The write leaves the group for the active table of its family.
        refine .inl ⟨id, inv.known _ _ leading _ (.head _), .inl ⟨?_, ?_⟩⟩
        · simp [adjust]
        · rw [here]
          exact (ordered id).active
      · exact .inr ⟨⟨rest, writes, rfl, later⟩, here⟩
  refine
    { current := inv.current
      activeLog := fun other => (ordered other).active
      immutableLogs := fun other => ⟨(ordered other).sorted, (ordered other).below⟩
      named := fun other flushing => ?_
      known := fun later all same entry mem => ?_
      acked := fun other mem => located other (inv.acked other mem)
      group := fun later all same other mem => ?_ }
  · obtain ⟨table, waiting, shape, tabled⟩ := inv.named other flushing
    refine ⟨table, waiting, ?_, tabled⟩
    rcases eq_or_ne other id with rfl | differs
    · simpa [adjust] using shape
    · simpa [adjust, differs] using shape
  · cases same
    exact inv.known _ _ leading entry (.tail _ mem)
  · cases same
    exact located other (inv.group _ _ leading other mem)

theorem Invariant.publish {writes : List Nat} (leading : db.leader = some ([], writes)) :
    Invariant { db with leader := none, acked := db.acked ++ writes } := by
  have located : ∀ write, db.Located write →
      ({ db with leader := none, acked := db.acked ++ writes } : Db).Located write := by
    rintro write (tabled | ⟨segment, found, kept, pinned | ⟨⟨rest, all, same, mem⟩, _⟩⟩)
    · exact .inl tabled
    · exact .inr ⟨segment, found, kept, .inl pinned⟩
    · cases leading.symm.trans same
      cases mem
  exact
    { inv with
      known := fun rest writes leading => by cases leading
      acked := fun write mem => located write ((mem_append.mp mem).elim
        (inv.acked write) (inv.group _ _ leading write))
      group := fun rest writes leading => by cases leading }

theorem Invariant.edit {id log : Nat} {table : List Nat}
    {rest : List (List Nat × Nat)} (first : (db.families id).immutable = (table, log) :: rest) :
    Invariant { db with tables := db.tables ++ table, flushed := some id } := by
  have located : ∀ write, db.Located write →
      ({ db with tables := db.tables ++ table, flushed := some id } : Db).Located write :=
    fun write located => located.imp_left (mem_append_left _)
  refine
    { inv with
      named := fun other flushing => ?_
      acked := fun write mem => located write (inv.acked write mem)
      group := fun _ _ leading write mem => located write (inv.group _ _ leading write mem) }
  cases flushing
  exact ⟨(table, log), rest, first, fun write mem => mem_append_right _ mem⟩

theorem Invariant.retire {id : Nat} (flushing : db.flushed = some id) :
    Invariant ({ db with flushed := none }.adjust id fun family =>
      { family with immutable := family.immutable.tail }) := by
  obtain ⟨table, rest, shape, tabled⟩ := inv.named id flushing
  have own := inv.ordered id
  have ordered := inv.ordered_adjust id (fun family =>
    { family with immutable := family.immutable.tail })
    ⟨own.sorted.tail, fun table mem => own.below table (mem_of_mem_tail mem), own.active⟩
  have located : ∀ write, db.Located write → ({ db with flushed := none }.adjust id fun family =>
        { family with immutable := family.immutable.tail }).Located write := by
    rintro write (kept | ⟨segment, found, kept, pinned | waiting⟩)
    · exact .inl kept
    · have stays : (db.families id).Holds write segment →
          Family.Holds { db.families id with immutable := (db.families id).immutable.tail } write
            segment ∨ write ∈ db.tables := by
        rintro (active | ⟨source, mem, inside, below⟩)
        · exact .inl (.inl active)
        rw [shape] at mem ⊢
        rcases mem_cons.mp mem with rfl | later
        · exact .inr (tabled write inside)
        · exact .inl (.inr ⟨source, later, inside, below⟩)
      rcases pinned.adjust id (fun family => { family with immutable := family.immutable.tail })
        stays with pinned | tabled
      · exact .inr ⟨segment, found, kept, .inl pinned⟩
      · exact .inl tabled
    · exact .inr ⟨segment, found, kept, .inr waiting⟩
  exact
    { current := inv.current
      activeLog := fun other => (ordered other).active
      immutableLogs := fun other => ⟨(ordered other).sorted, (ordered other).below⟩
      named := fun other flushing => by cases flushing
      known := inv.known
      acked := fun write mem => located write (inv.acked write mem)
      group := fun _ _ leading write mem => located write (inv.group _ _ leading write mem) }

theorem Invariant.advanceLogNumber :
    Invariant (if db.oldest ≤ db.logNumber then db else { db with logNumber := db.oldest }) := by
  split
  · exact inv
  have located : ∀ write, db.Located write →
      ({ db with logNumber := db.oldest } : Db).Located write := by
    rintro write (tabled | ⟨segment, found, _, why⟩)
    · exact .inl tabled
    · exact .inr ⟨segment, found, inv.oldest_le why, why⟩
  exact
    { inv with
      current := ⟨inv.current.1, inv.oldest_le_wal⟩
      acked := fun write mem => located write (inv.acked write mem)
      group := fun _ _ leading write mem => located write (inv.group _ _ leading write mem) }

theorem Invariant.sweep : Invariant { db with records := db.records.filter fun record =>
      db.logNumber ≤ record.1 } := by
  have located : ∀ write, db.Located write → ({ db with records := db.records.filter fun record =>
        db.logNumber ≤ record.1 } : Db).Located write := by
    rintro write (tabled | ⟨segment, found, kept, why⟩)
    · exact .inl tabled
    · exact .inr ⟨segment, mem_filter.mpr ⟨found, by simpa using kept⟩, kept, why⟩
  exact
    { inv with
      acked := fun write mem => located write (inv.acked write mem)
      group := fun _ _ leading write mem => located write (inv.group _ _ leading write mem) }

theorem Invariant.step (step : Step False db next) : Invariant next := by
  cases step with
  | roll full between => exact inv.roll full between
  | log idle known => exact inv.log idle known
  | insert leading => exact inv.insert leading
  | publish leading => exact inv.publish leading
  | edit free first => exact inv.edit first
  | retire named => exact inv.retire named
  | advanceLogNumber => exact inv.advanceLogNumber
  | sweep => exact inv.sweep

end

theorem Invariant.run {ids : List Nat} (run : Run False (Db.created ids) db) : Invariant db := by
  induction run with
  | refl => exact Invariant.created ids
  | tail _ step ih => exact ih.step step

/-- In every interleaving in which no log roll comes between a group's log append and its
insertions, an acknowledged write is in a table the manifest names or in a segment recovery
will read. -/
theorem synced_write_durable {ids : List Nat} (run : Run False (Db.created ids) db) {write : Nat}
    (acked : write ∈ db.acked) : db.Durable write :=
  ((Invariant.run run).acked write acked).durable

/-- The roll comes between the insertion of a write and its publication. -/
theorem synced_write_durable_rolled :
    ∃ db : Db, Run False (created [0]) db ∧ db.logNumber = 2 ∧ db.Durable 11 := by
  have inserted := ((Relation.ReflTransGen.refl : Run False (created [0]) (created [0])).tail
    (@Step.log False _ [(0, 11)] rfl (by decide))).tail (.insert rfl)
  have rolled := (inserted.tail (.roll [0] fun ⟨_, _, _, waits⟩ => by cases waits)).tail
    (.publish rfl)
  have retired := (rolled.tail (@Step.edit False _ 0 1 [11] [] rfl rfl)).tail (.retire rfl)
  have advanced := retired.tail (.advanceLogNumber _)
  exact ⟨_, advanced, by decide, synced_write_durable advanced (by decide)⟩

end Db

end Esker.Engine.LogRetention
