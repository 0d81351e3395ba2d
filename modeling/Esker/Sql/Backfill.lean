import Esker.Sql.Histories

/-!
Contract: an index built beside live traffic (`esker-sql/src/exec/job.rs`, `step_job` and
`adding_step` of `esker-sql/src/exec/verbs.rs`, with the writers of `exec/dml.rs` and
`exec/index.rs`).

Owns: the four states of the change, the batches that walk the table, writers that know the
state or the one before it, and when the entries are exactly those of the rows.

Does not own: other indexes of the table, and the removal of an index.
-/

namespace Esker.Sql.Backfill

open Esker.Versions
open Esker.Sql.Histories (StoreKey Stored Writes Holds Vacant place Rewritten Filed
  place_rewritten place_stamped)
open List
open Relation (ReflTransGen)
open Schema (primaryKeyOf)

def batchRows : Nat := 256

def rank : SchemaState → Nat
  | .absent => 0
  | .deleteOnly => 1
  | .writeOnly => 2
  | .published => 3

structure Job (C : Type) where
  /-- The key of the last row a batch has read; the next batch starts behind it. -/
  cursor : WithBot (Key C)
  done : Bool
  changed : Nat

/-- A transaction, with the state of the index that its node knows. -/
structure Writer (V C : Type) where
  known : SchemaState
  statement : Nat
  writes : Writes V C

def Writer.view {V C : Type} (writer : Writer V C) (db : Histories.Database V C) :
    StoreKey C → Option (Stored V) :=
  writer.writes.read db writer.statement

structure Build (T V C : Type) where
  db : Histories.Database V C
  active : T → Option (Writer V C)
  state : SchemaState
  job : Option (Job C)
  begun : Bool
  since : Nat
  /-- A row was removed that was not the stored one or whose entry was another row's, a writer
  below write-only committed after the snapshot of a batch, or a failed change was unwound. -/
  disturbed : Prop

variable {V C T : Type}

section Writers

variable (schema : Schema V C) (table : TableDef V) (index : IndexDef V)

/-- The entry a writer looks at in its state: none where the index is not kept. -/
def entryFor (kept : Bool) (row : Row V) : Except SqlError (Option (Entry V C)) :=
  if kept then entry schema table index row else .ok none

def Own (view : StoreKey C → Option (Stored V)) (found : Option (Entry V C)) (row : Row V) : Prop :=
  ∀ entry, found = some entry → view (.entry entry.key) = none ∨
    view (.entry entry.key) = some (.primaryKey (primaryKeyOf table row))

/-- The entries of one batch, with the check against what is already there. -/
def indexRows [DecidableEq C] [DecidableEq V] (db : Histories.Database V C) (ts : Nat) :
    Writes V C → List (Row V) → Except SqlError (Writes V C)
  | writes, [] => .ok writes
  | writes, row :: rest =>
    match entry schema table index row with
    | .error error => .error error
    | .ok none => indexRows db ts writes rest
    | .ok (some found) =>
      let value := Stored.primaryKey (primaryKeyOf table row)
      let existing := writes.read db ts (.entry found.key)
      if index.unique = true ∧ existing ≠ none ∧ existing ≠ some value then
        .error (.couldNotCreateUniqueIndex index.id)
      else
        indexRows db ts (writes.put ts (.entry found.key) (some value)) rest

/-- What a scan behind the cursor returns: the rows of the snapshot in key order up to the last
one it read. The store may return fewer rows than it was asked for. -/
structure Scanned [LinearOrder C] (db : Histories.Database V C) (ts : Nat) (cursor : WithBot (Key C))
    (read : List (Key C × Row V)) (last : Key C) : Prop where
  bounded : read.length ≤ batchRows
  ordered : read.Pairwise fun left right => left.1 < right.1
  held : ∀ pair ∈ read, Holds (db.valueAt ts) pair.1 pair.2 ∧
    cursor < (pair.1 : WithBot (Key C)) ∧ pair.1 ≤ last
  complete : ∀ key row, Holds (db.valueAt ts) key row → cursor < (key : WithBot (Key C)) →
    key ≤ last → (key, row) ∈ read
  behind : cursor < (last : WithBot (Key C))

end Writers

namespace Build

variable [DecidableEq T]

def opening (db : Histories.Database V C) : Build T V C :=
  { db, active := fun _ => none, state := .absent, job := some ⟨⊥, false, db.clock⟩
    begun := false, since := db.clock, disturbed := False }

def set (build : Build T V C) (id : T) (writer : Option (Writer V C)) : Build T V C :=
  { build with active := Function.update build.active id writer }

/-- One step of a writer or of a driver. Drivers are not told apart: each step reads the job and
the state anew. -/
inductive Step [LinearOrder C] [DecidableEq V] (schema : Schema V C) (table : TableDef V)
    (index : IndexDef V) : Build T V C → Build T V C → Prop
  | begin {build : Build T V C} {id : T} {known : SchemaState} (idle : build.active id = none)
      (behind : rank known ≤ rank build.state) (near : rank build.state ≤ rank known + 1) :
      Step schema table index build
        (build.set id (some ⟨known, build.db.clock, Buffer.empty⟩))
  | refresh {build : Build T V C} {id : T} {writer : Writer V C}
      (running : build.active id = some writer) :
      Step schema table index build
        (build.set id (some { writer with statement := build.db.clock }))
  | remove {build : Build T V C} {id : T} {writer : Writer V C} {row : Row V}
      {found : Option (Entry V C)} (running : build.active id = some writer)
      (has : entryFor schema table index writer.known.maintained row = .ok found) :
      Step schema table index build
        { build.set id (some { writer with
            writes := place schema table writer.writes writer.statement found row none none }) with
          disturbed := build.disturbed ∨
            ¬ (Holds (writer.view build.db) (schema.rowKey table row) row ∧
              Own table (writer.view build.db) found row) }
  | write {build : Build T V C} {id : T} {writer : Writer V C} {row : Row V}
      {found : Option (Entry V C)} (running : build.active id = some writer)
      (has : entryFor schema table index writer.known.written row = .ok found)
      (absent : writer.view build.db (.row (schema.rowKey table row)) = none)
      (unclaimed : ∀ entry, found = some entry → entry.byValue = true →
        writer.view build.db (.entry entry.key) = none) :
      Step schema table index build
        (build.set id (some { writer with
          writes := place schema table writer.writes writer.statement found row
            (some (.primaryKey (primaryKeyOf table row))) (some (.row row)) }))
  | commit {build : Build T V C} {id : T} {writer : Writer V C}
      (running : build.active id = some writer) (near : rank build.state ≤ rank writer.known + 1)
      (unrefused : ¬ writer.writes.Conflicted build.db) :
      Step schema table index build
        { build.set id none with
          db := build.db.commit writer.writes
          since := if writer.known.written then build.since else build.db.clock + 1
          disturbed := build.disturbed ∨ writer.known.written = false ∧ build.begun = true }
  | rollback {build : Build T V C} {id : T} : Step schema table index build (build.set id none)
  /-- `advance`, to the two states before the backfill. -/
  | advance {build : Build T V C} {next : SchemaState} {job : Job C} (held : build.job = some job)
      (isNext : rank next = rank build.state + 1) (before : next ≠ .published) :
      Step schema table index build { build with state := next }
  | batch {build : Build T V C} {job : Job C} {ts : Nat} {read : List (Key C × Row V)}
      {last : Key C} {writes : Writes V C} (held : build.job = some job)
      (unfinished : job.done = false) (fresh : job.changed ≤ ts) (past : ts ≤ build.db.clock)
      (scanned : Scanned build.db ts job.cursor read last)
      (indexed : indexRows schema table index build.db ts Buffer.empty (read.map Prod.snd) =
        .ok writes)
      (unrefused : ¬ writes.Conflicted build.db) :
      Step schema table index build
        { build with
          db := build.db.commit writes
          job := some ⟨last, false, build.db.clock + 1⟩
          begun := true
          disturbed := build.disturbed ∨ build.state ≠ .writeOnly ∨ ts < build.since }
  | finish {build : Build T V C} {job : Job C} {ts : Nat} (held : build.job = some job)
      (unfinished : job.done = false) (fresh : job.changed ≤ ts) (past : ts ≤ build.db.clock)
      (empty : ∀ (key : Key C) (row : Row V), job.cursor < (key : WithBot (Key C)) →
        ¬ Holds (build.db.valueAt ts) key row) :
      Step schema table index build
        { build with
          db := build.db.commit Buffer.empty
          job := some ⟨job.cursor, true, build.db.clock + 1⟩
          begun := true
          disturbed := build.disturbed ∨ build.state ≠ .writeOnly ∨ ts < build.since }
  /-- `advance` to public, after a batch has found the backfill at its end. -/
  | publish {build : Build T V C} {job : Job C} (held : build.job = some job)
      (isDone : job.done = true) (ready : build.state = .writeOnly) :
      Step schema table index build { build with state := .published }
  | forget {build : Build T V C} (isPublic : build.state = .published) :
      Step schema table index build { build with job := none }
  /-- A failed change goes back one state, and at last its record is dropped. -/
  | unwind {build : Build T V C} {lower : SchemaState} {job : Option (Job C)}
      (isLower : rank lower ≤ rank build.state) :
      Step schema table index build { build with state := lower, job, disturbed := True }

end Build

/-! ## One batch -/

section Batch

variable [LinearOrder C] [DecidableEq V] {schema : Schema V C} {table : TableDef V}
  {index : IndexDef V} {db : Histories.Database V C} {ts : Nat}

structure Entries (schema : Schema V C) (table : TableDef V) (index : IndexDef V)
    (db : Histories.Database V C) (ts : Nat) (rows : List (Row V)) (writes : Writes V C) : Prop where
  noRows : ∀ key, writes (.row key) = none
  source : ∀ key value stamp, writes (.entry key) = some (value, stamp) → stamp = ts ∧
    ∃ row ∈ rows, ∃ found, entry schema table index row = .ok (some found) ∧ found.key = key ∧
      value = some (.primaryKey (primaryKeyOf table row)) ∧
      (index.unique = true → db.valueAt ts (.entry key) = none ∨
        db.valueAt ts (.entry key) = some (.primaryKey (primaryKeyOf table row)))
  all : ∀ row ∈ rows, ∀ found, entry schema table index row = .ok (some found) →
    ∃ stamp, writes (.entry found.key) =
      some (some (.primaryKey (primaryKeyOf table row)), stamp)

omit [LinearOrder C] [DecidableEq V] in
theorem entries_nil : Entries schema table index db ts [] Buffer.empty := by
  exact ⟨fun _ => rfl, nofun, nofun⟩

omit [LinearOrder C] in
theorem existing_of_passed {writes : Writes V C} {key : EntryKey C} {value : Stored V}
    (passed : ¬ (index.unique = true ∧ writes.read db ts (.entry key) ≠ none ∧
      writes.read db ts (.entry key) ≠ some value)) (unique : index.unique = true) :
    writes.read db ts (.entry key) = none ∨ writes.read db ts (.entry key) = some value := by
  by_contra neither
  rw [not_or] at neither
  exact passed ⟨unique, neither.1, neither.2⟩

variable {seen : List (Row V)}

theorem entries_put {writes : Writes V C} (entries : Entries schema table index db ts seen writes)
    {row : Row V} {found : Entry V C} (has : entry schema table index row = .ok (some found))
    (distinct : ∀ earlier ∈ seen, schema.rowKey table earlier ≠ schema.rowKey table row)
    (passed : ¬ (index.unique = true ∧ writes.read db ts (.entry found.key) ≠ none ∧
      writes.read db ts (.entry found.key) ≠ some (.primaryKey (primaryKeyOf table row)))) :
    Entries schema table index db ts (seen ++ [row]) (writes.put ts (.entry found.key)
        (some (.primaryKey (primaryKeyOf table row)))) := by
  obtain ⟨stamp, written, fresh, stays⟩ := Buffer.put_self writes ts (.entry found.key)
    (some (Stored.primaryKey (primaryKeyOf table row)))
  refine ⟨fun key => ?_, fun key value at_ held => ?_, fun other mem held isEntry => ?_⟩
  · rw [Buffer.put_of_ne (by intro same; cases same)]
    exact entries.noRows key
  · by_cases same : key = found.key
    · subst same
      rw [written] at held
      cases held
      refine ⟨?_, row, by simp, found, has, rfl, rfl, fun unique => ?_⟩
      · cases before : writes (.entry found.key) with
        | none => exact fresh before
        | some pair =>
          rw [stays pair before]
          exact (entries.source _ _ _ before).1
      · have existing := existing_of_passed passed unique
        cases before : writes (.entry found.key) with
        | none =>
          rw [Buffer.read_of_none before] at existing
          exact existing
        | some pair =>
          rw [Buffer.read_of_some before] at existing
          obtain ⟨_, earlier, _, _, _, _, isValue, was⟩ := entries.source _ _ _ before
          rw [isValue] at existing
          rcases existing with none | same
          · cases none
          · rw [← same]
            exact was unique
    · rw [Buffer.put_of_ne fun isSame => same (StoreKey.entry.inj isSame)] at held
      obtain ⟨isTs, earlier, mem, rest⟩ := entries.source key value at_ held
      exact ⟨isTs, earlier, mem_append_left _ mem, rest⟩
  · rcases mem_append.mp mem with earlier | isRow
    · obtain ⟨at_, kept⟩ := entries.all other earlier held isEntry
      by_cases same : held.key = found.key
      · -- Two rows of one batch with one entry key: the check lets only equal values pass, and
        -- without a check the key tells the rows apart.
        cases unique : index.unique with
        | false =>
          have suffixed : found.byValue = false := by
            rw [(entry_eq_some has).2, IndexDef.byValue, unique]
            rfl
          exact absurd (rowKey_eq_of_suffix has isEntry same suffixed) (distinct other earlier)
        | true =>
          have existing := existing_of_passed passed unique
          rw [← same, Buffer.read_of_some kept] at existing
          rcases existing with none | equal
          · cases none
          · rw [same, written, ← equal]
            exact ⟨stamp, rfl⟩
      · rw [Buffer.put_of_ne fun isSame => same (StoreKey.entry.inj isSame)]
        exact ⟨at_, kept⟩
    · rw [mem_singleton.mp isRow] at isEntry ⊢
      rw [has] at isEntry
      cases isEntry
      exact ⟨stamp, written⟩

theorem indexRows_entries {rows : List (Row V)} {writes after : Writes V C}
    (distinct : (seen ++ rows).Pairwise fun left right =>
      schema.rowKey table left ≠ schema.rowKey table right)
    (entries : Entries schema table index db ts seen writes)
    (indexed : indexRows schema table index db ts writes rows = .ok after) :
    Entries schema table index db ts (seen ++ rows) after := by
  induction rows generalizing seen writes with
  | nil =>
    cases indexed
    rw [append_nil]
    exact entries
  | cons row rest ih =>
    have shifted : seen ++ row :: rest = (seen ++ [row]) ++ rest := by simp
    rw [shifted] at distinct ⊢
    have apart : ∀ earlier ∈ seen, schema.rowKey table earlier ≠ schema.rowKey table row := by
      intro earlier mem
      exact (pairwise_append.mp (pairwise_append.mp distinct).1).2.2 earlier mem row mem_cons_self
    unfold indexRows at indexed
    split at indexed
    · cases indexed
    · rename_i has
      refine ih distinct ⟨entries.noRows, ?_, ?_⟩ indexed
      · intro key value stamp held
        obtain ⟨isTs, earlier, mem, facts⟩ := entries.source key value stamp held
        exact ⟨isTs, earlier, mem_append_left _ mem, facts⟩
      intro other mem found isEntry
      rcases mem_append.mp mem with earlier | isRow
      · exact entries.all other earlier found isEntry
      · rw [mem_singleton.mp isRow, has] at isEntry
        cases isEntry
    · rename_i found has
      dsimp only at indexed
      split at indexed
      · cases indexed
      · rename_i passed
        exact ih distinct (entries_put entries has apart passed) indexed

end Batch

/-! ## Writers -/

variable {known : SchemaState} {stamp : Nat}

section Writing

variable (schema : Schema V C) (table : TableDef V) (index : IndexDef V)

def Leads (view : StoreKey C → Option (Stored V)) (key : EntryKey C) (value : Stored V)
    (row : Row V) : Prop :=
  Holds view (schema.rowKey table row) row ∧
    (∃ found, entry schema table index row = .ok (some found) ∧ found.key = key) ∧
      value = .primaryKey (primaryKeyOf table row)

structure Sound (view : StoreKey C → Option (Stored V)) : Prop where
  filed : ∀ key row, Holds view key row → key = schema.rowKey table row
  leads : ∀ key value, view (.entry key) = some value →
    ∃ row, Leads schema table index view key value row

/-- The writes of a transaction that would not be refused. -/
structure Kept (db : Histories.Database V C) (known : SchemaState) (writes : Writes V C) : Prop where
  held : known.written = true → ∀ key row stamp found,
    writes (.row key) = some (some (.row row), stamp) →
      entry schema table index row = .ok (some found) →
        ∃ stamp, writes (.entry found.key) =
          some (some (.primaryKey (primaryKeyOf table row)), stamp)
  source : ∀ key value stamp, writes (.entry key) = some (some value, stamp) →
    ∃ row stamp found, writes (.row (schema.rowKey table row)) = some (some (.row row), stamp) ∧
      entry schema table index row = .ok (some found) ∧ found.key = key ∧
        value = .primaryKey (primaryKeyOf table row)
  covers : known.maintained = true → ∀ key pair row found, writes (.row key) = some pair →
    Holds db.latest key row → entry schema table index row = .ok (some found) →
      ∃ pair, writes (.entry found.key) = some pair
  /-- An entry it changes is nobody's, or that of a row it changes too. -/
  vacant : ∀ key pair, writes (.entry key) = some pair → db.latest (.entry key) = none ∨
    ∃ primaryKey, db.latest (.entry key) = some (.primaryKey primaryKey) ∧
      ∃ pair, writes (.row (schema.encode primaryKey)) = some pair

structure Running (db : Histories.Database V C) (state : SchemaState) (writer : Writer V C) : Prop where
  past : writer.statement ≤ db.clock
  behind : rank writer.known ≤ rank state
  stamped : writer.writes.Stamped writer.statement
  filed : Filed schema table writer.writes
  noEntries : writer.known.maintained = false → ∀ key, writer.writes (.entry key) = none
  noPuts : writer.known.written = false → ∀ key value stamp,
    writer.writes (.entry key) = some (value, stamp) → value = none
  kept : writer.writes.Conflicted db ∨ Kept schema table index db writer.known writer.writes

variable {schema table index} {db : Histories.Database V C} {state : SchemaState} {writer : Writer V C}
  {row : Row V} {found : Option (Entry V C)}

variable {kept : Bool}

theorem entryFor_true {found : Entry V C}
    (has : entryFor schema table index kept row = .ok (some found)) :
    kept = true ∧ entry schema table index row = .ok (some found) := by
  unfold entryFor at has
  split at has
  · rename_i isKept
    exact ⟨isKept, has⟩
  · cases has

theorem entryFor_eq (isKept : kept = true) :
    entryFor schema table index kept row = entry schema table index row := by
  unfold entryFor
  rw [isKept]
  rfl

section Rows

variable {entryValue rowValue : Option (Stored V)} {ts : Nat} {before after : Writes V C} {known : SchemaState}

/-- An entry that the writes newly touch held, in the newest state, what the transaction saw. -/
theorem latest_of_touched {key : StoreKey C} {value : Option (Stored V)}
    (unrefused : ¬ after.Conflicted db) (past : ts ≤ db.clock)
    (written : after key = some (value, stamp) ∧ (before key = none → stamp = ts))
    (untouched : before key = none) : db.latest key = before.read db ts key := by
  rw [Buffer.read_of_none untouched]
  exact Buffer.latest_of_unrefused unrefused written.1 (written.2 untouched).le past

theorem Kept.covers_rewritten (kept : Kept schema table index db known before)
    (changed : Rewritten (schema.rowKey table row) found before after ts entryValue rowValue)
    (own : known.maintained = true → before (.row (schema.rowKey table row)) = none →
      ∀ other entry, Holds db.latest (schema.rowKey table row) other →
        Sql.entry schema table index other = .ok (some entry) →
          ∃ pair, after (.entry entry.key) = some pair) :
    known.maintained = true → ∀ key pair other entry, after (.row key) = some pair →
      Holds db.latest key other → Sql.entry schema table index other = .ok (some entry) →
        ∃ pair, after (.entry entry.key) = some pair := by
  intro isMaintained key pair other entry written holds isEntry
  cases held : before (.row key) with
  | some pair =>
    obtain ⟨was, has⟩ := kept.covers isMaintained key pair other entry held holds isEntry
    obtain ⟨value, stays⟩ := changed.grown _ was.1 was.2 has
    exact ⟨_, stays⟩
  | none =>
    have isKey : key = schema.rowKey table row := by
      by_contra different
      rw [changed.rowOther key different, held] at written
      cases written
    subst isKey
    exact own isMaintained held other entry holds isEntry

theorem Kept.vacant_rewritten (kept : Kept schema table index db known before)
    (changed : Rewritten (schema.rowKey table row) found before after ts entryValue rowValue)
    (own : ∀ entry, found = some entry → before (.entry entry.key) = none →
      Vacant schema db after entry.key) :
    ∀ key pair, after (.entry key) = some pair → Vacant schema db after key := by
  intro key pair written
  cases held : before (.entry key) with
  | some was => exact Vacant.grown (kept.vacant key was held) changed.grown
  | none =>
    rcases changed.entry_cases key with ⟨entry, isFound, rfl⟩ | same
    · exact own entry isFound held
    · rw [same, held] at written
      cases written

theorem Kept.removed (kept : Kept schema table index db known before)
    (filed : Filed schema table before) (past : ts ≤ db.clock)
    (noEntries : known.maintained = false → ∀ key, before (.entry key) = none)
    (has : entryFor schema table index known.maintained row = .ok found)
    (changed : Rewritten (schema.rowKey table row) found before after ts none none)
    (unrefused : ¬ after.Conflicted db)
    (current : Holds (before.read db ts) (schema.rowKey table row) row)
    (own : Own table (before.read db ts) found row) :
    Kept schema table index db known after := by
  have gone {key : Key C} {value : Stored V} {stamp : Nat}
      (written : after (.row key) = some (some value, stamp)) :
      key ≠ schema.rowKey table row := by
    rintro rfl
    obtain ⟨_, removed, _⟩ := changed.rowSelf
    rw [removed] at written
    cases written
  refine ⟨fun isWritten key other stamp entry written isEntry => ?_,
    fun key value stamp written => ?_, kept.covers_rewritten changed ?_,
    kept.vacant_rewritten changed ?_⟩
  · have different := gone written
    rw [changed.rowOther key different] at written
    obtain ⟨at_, leads⟩ := kept.held isWritten key other stamp entry written isEntry
    refine ⟨at_, ?_⟩
    rw [changed.entryOther entry.key ?_, leads]
    rintro removed rfl same
    have owned := own removed rfl
    rw [← same, Buffer.read_of_some leads] at owned
    rcases owned with none | equal
    · cases none
    apply different
    rw [filed key other stamp written]
    unfold Schema.rowKey
    rw [Stored.primaryKey.inj (Option.some.inj equal)]
  · have other : ∀ removed, found = some removed → key ≠ removed.key := by
      rintro removed rfl rfl
      obtain ⟨_, deleted, _⟩ := changed.entrySelf removed rfl
      rw [deleted] at written
      cases written
    rw [changed.entryOther key other] at written
    obtain ⟨from_, at_, entry, isRow, isEntry, isKey, isValue⟩ := kept.source key value stamp written
    refine ⟨from_, at_, entry, ?_, isEntry, isKey, isValue⟩
    rw [changed.rowOther _ ?_, isRow]
    intro same
    -- The row written under this key is the removed one, and its entry was removed with it.
    rw [same] at isRow
    unfold Holds at current
    rw [Buffer.read_of_some isRow] at current
    cases current
    cases isMaintained : known.maintained with
    | false =>
      rw [noEntries isMaintained key] at written
      cases written
    | true =>
      rw [entryFor_eq isMaintained, isEntry] at has
      cases has
      exact other entry rfl isKey.symm
  · intro isMaintained held other entry holds isEntry
    obtain ⟨stamp, removed⟩ := changed.rowSelf
    have newest := latest_of_touched unrefused past removed held
    unfold Holds at current holds
    rw [newest, current] at holds
    cases holds
    rw [entryFor_eq isMaintained, isEntry] at has
    cases has
    obtain ⟨at_, deleted, _⟩ := changed.entrySelf entry rfl
    exact ⟨_, deleted⟩
  · intro removed isFound held
    obtain ⟨stamp, deleted⟩ := changed.entrySelf removed isFound
    have newest := latest_of_touched unrefused past deleted held
    rcases own removed isFound with nothing | leads
    · exact .inl (newest.trans nothing)
    · obtain ⟨_, rowGone, _⟩ := changed.rowSelf
      exact .inr ⟨_, newest.trans leads, _, rowGone⟩

theorem Kept.wrote (kept : Kept schema table index db known before)
    (filed : Filed schema table before) (past : ts ≤ db.clock)
    (sound : Sound schema table index (db.valueAt ts))
    (has : entryFor schema table index known.written row = .ok found)
    (changed : Rewritten (schema.rowKey table row) found before after ts
      (some (.primaryKey (primaryKeyOf table row))) (some (.row row)))
    (unrefused : ¬ after.Conflicted db)
    (absent : before.read db ts (.row (schema.rowKey table row)) = none)
    (unclaimed : ∀ entry, found = some entry → entry.byValue = true →
      before.read db ts (.entry entry.key) = none) :
    Kept schema table index db known after := by
  refine ⟨fun isWritten key other stamp entry written isEntry => ?_,
    fun key value stamp written => ?_, kept.covers_rewritten changed ?_,
    kept.vacant_rewritten changed ?_⟩
  · by_cases same : key = schema.rowKey table row
    · subst same
      obtain ⟨_, isRow, _⟩ := changed.rowSelf
      rw [isRow] at written
      cases written
      rw [entryFor_eq isWritten, isEntry] at has
      cases has
      obtain ⟨at_, leads, _⟩ := changed.entrySelf entry rfl
      exact ⟨at_, leads⟩
    · rw [changed.rowOther key same] at written
      obtain ⟨at_, leads⟩ := kept.held isWritten key other stamp entry written isEntry
      refine ⟨at_, ?_⟩
      rw [changed.entryOther entry.key ?_, leads]
      rintro added rfl sameEntry
      cases byValue : added.byValue with
      | true =>
        have free := unclaimed added rfl byValue
        rw [← sameEntry, Buffer.read_of_some leads] at free
        cases free
      | false =>
        apply same
        rw [filed key other stamp written]
        exact rowKey_eq_of_suffix (entryFor_true has).2 isEntry sameEntry byValue
  · rcases changed.entry_cases key with ⟨added, rfl, rfl⟩ | same
    · obtain ⟨_, leads, _⟩ := changed.entrySelf added rfl
      rw [leads] at written
      cases written
      obtain ⟨at_, isRow, _⟩ := changed.rowSelf
      exact ⟨row, at_, added, isRow, (entryFor_true has).2, rfl, rfl⟩
    · rw [same] at written
      obtain ⟨from_, at_, entry, isRow, facts⟩ := kept.source key value stamp written
      refine ⟨from_, at_, entry, ?_, facts⟩
      rw [changed.rowOther _ ?_, isRow]
      intro same
      rw [← same, Buffer.read_of_some isRow] at absent
      cases absent
  · intro _ held other entry holds _
    obtain ⟨stamp, isRow⟩ := changed.rowSelf
    unfold Holds at holds
    rw [latest_of_touched unrefused past isRow held, absent] at holds
    cases holds
  · rintro added rfl held
    obtain ⟨stamp, leads⟩ := changed.entrySelf added rfl
    have newest := latest_of_touched unrefused past leads held
    cases byValue : added.byValue with
    | true => exact .inl (newest.trans (unclaimed added rfl byValue))
    | false =>
      rw [Buffer.read_of_none held] at newest
      cases seen : db.valueAt ts (.entry added.key) with
      | none => exact .inl (newest.trans seen)
      | some value =>
        -- The entry of a row that the transaction has removed before.
        obtain ⟨old, holds, ⟨oldEntry, isOld, sameKey⟩, rfl⟩ := sound.leads _ _ seen
        have isKey := rowKey_eq_of_suffix (entryFor_true has).2 isOld sameKey byValue
        cases removed : before (.row (schema.rowKey table row)) with
        | none =>
          rw [Buffer.read_of_none removed, ← isKey] at absent
          unfold Holds at holds
          rw [absent] at holds
          cases holds
        | some pair =>
          obtain ⟨value, stays⟩ := changed.grown _ pair.1 pair.2 removed
          refine .inr ⟨_, newest.trans seen, (value, pair.2), ?_⟩
          rw [← stays, ← isKey]
          rfl

end Rows

theorem Running.later (running : Running schema table index db state writer) {next : SchemaState}
    (later : rank state ≤ rank next) : Running schema table index db next writer :=
  { running with behind := running.behind.trans later }

theorem Running.commit (running : Running schema table index db state writer)
    (other : Writes V C) : Running schema table index (db.commit other) state writer := by
  refine { running with past := running.past.trans (Nat.le_succ _), kept := ?_ }
  refine Buffer.Conflicted.or_moves running.kept Buffer.Conflicted.commit fun unrefused kept =>
    { kept with
      covers := fun isMaintained key pair row found written holds isEntry => ?_
      vacant := fun key pair written => ?_ }
  · unfold Holds at holds
    rw [Store.latest_commit, Buffer.disjoint_of_commit running.stamped running.past unrefused
      written] at holds
    exact kept.covers isMaintained key pair row found written holds isEntry
  · rw [Store.latest_commit,
      Buffer.disjoint_of_commit running.stamped running.past unrefused written]
    exact kept.vacant key pair written

end Writing

/-! ## Runs -/

section Runs

variable (schema : Schema V C) (table : TableDef V) (index : IndexDef V)

/-- One entry for each row that the index admits, and no other. -/
structure Exact (view : StoreKey C → Option (Stored V)) : Prop extends
    Sound schema table index view where
  complete : ∀ key row found, Holds view key row → entry schema table index row = .ok (some found) →
    view (.entry found.key) = some (.primaryKey (primaryKeyOf table row))

def Waits [LT (Key C)] (job : Option (Job C)) (key : Key C) : Prop :=
  ∃ held, job = some held ∧ held.done = false ∧ held.cursor < (key : WithBot (Key C))

abbrev Awaited [LT (Key C)] (db : Histories.Database V C) (job : Option (Job C)) (since : Nat) :
    Prop :=
  ∀ key row found, Holds db.latest key row → entry schema table index row = .ok (some found) →
    db.latest (.entry found.key) = some (.primaryKey (primaryKeyOf table row)) ∨
      Waits job key ∧ ¬ db.writtenSince (.row key) since

structure Good [LinearOrder C] (build : Build T V C) : Prop where
  sound : ∀ ts, Sound schema table index (build.db.valueAt ts)
  bare : build.state.written = false → ∀ ts key, build.db.valueAt ts (.entry key) = none
  /-- A row without its entry is still to come, and no writer has touched it. -/
  complete : ∀ key row found, Holds build.db.latest key row →
    entry schema table index row = .ok (some found) →
      build.db.latest (.entry found.key) = some (.primaryKey (primaryKeyOf table row)) ∨
        Waits build.job key ∧ ¬ build.db.writtenSince (.row key) build.since
  traced : ∀ ts, build.since ≤ ts → ∀ key row found, Holds (build.db.valueAt ts) key row →
    entry schema table index row = .ok (some found) →
      Holds build.db.latest key row ∨ build.db.writtenSince (.entry found.key) ts
  early : build.begun = false → ∃ job, build.job = some job ∧ job.cursor = ⊥ ∧ job.done = false
  finished : build.state = .published → ∀ job, build.job = some job → job.done = true
  running : ∀ id writer, build.active id = some writer →
    Running schema table index build.db build.state writer

variable {schema table index} {db : Histories.Database V C}

theorem Sound.commit (sound : Sound schema table index db.latest) {writes : Writes V C}
    (filed : Filed schema table writes)
    (source : ∀ key value stamp, writes (.entry key) = some (some value, stamp) →
      ∃ row, Leads schema table index (db.commit writes).latest key value row)
    (covers : ∀ key pair row found, writes (.row key) = some pair → Holds db.latest key row →
      entry schema table index row = .ok (some found) → db.latest (.entry found.key) = none ∨
        ∃ pair, writes (.entry found.key) = some pair) :
    Sound schema table index (db.commit writes).latest := by
  rw [Buffer.read_commit] at source ⊢
  refine ⟨fun key row holds => ?_, fun key value reads => ?_⟩
  · rcases Buffer.read_eq_some holds with ⟨stamp, written⟩ | ⟨_, held⟩
    · exact filed key row stamp written
    · exact sound.filed key row held
  rcases Buffer.read_eq_some reads with ⟨stamp, written⟩ | ⟨written, held⟩
  · exact source key value stamp written
  obtain ⟨row, holds, ⟨found, isEntry, isKey⟩, isValue⟩ := sound.leads key value held
  refine ⟨row, ?_, ⟨found, isEntry, isKey⟩, isValue⟩
  unfold Holds Buffer.read
  cases changed : writes (.row (schema.rowKey table row)) with
  | none => exact holds
  | some pair =>
    rcases covers _ pair row found changed holds isEntry with none | ⟨touched, has⟩
    · rw [isKey] at none
      cases none.symm.trans held
    · rw [isKey, written] at has
      cases has

variable [LinearOrder C]

theorem Good.opening (filed : ∀ ts key row, Holds (db.valueAt ts) key row →
      key = schema.rowKey table row) (bare : ∀ ts key, db.valueAt ts (.entry key) = none) :
    Good schema table index (Build.opening db : Build T V C) where
  sound ts := by
    refine ⟨filed ts, fun key value held => ?_⟩
    have nothing := (bare ts key).symm.trans held
    cases nothing
  bare _ := bare
  complete key _ _ _ _ :=
    .inr ⟨⟨_, rfl, rfl, WithBot.bot_lt_coe key⟩, Store.not_writtenSince_clock _ _⟩
  traced ts later key row found holds _ := by
    have isLatest : db.valueAt ts = db.latest := Store.valueAt_of_clock_le later
    left
    show Holds db.latest key row
    rw [← isLatest]
    exact holds
  early _ := ⟨_, rfl, rfl, rfl⟩
  finished isPublic := by cases isPublic
  running _ _ held := by cases held

variable {build : Build T V C} {writer : Writer V C}

section

variable (good : Good schema table index build)
include good

theorem Good.traced_commit (writes : Writes V C)
    (covers : ∀ key pair row found, writes (.row key) = some pair → Holds build.db.latest key row →
      entry schema table index row = .ok (some found) →
        ∃ pair, writes (.entry found.key) = some pair) :
    ∀ ts, build.since ≤ ts → ∀ key row found, Holds ((build.db.commit writes).valueAt ts) key row →
      entry schema table index row = .ok (some found) →
        Holds (build.db.commit writes).latest key row ∨
          (build.db.commit writes).writtenSince (.entry found.key) ts := by
  intro ts later key row found holds isEntry
  by_cases past : ts ≤ build.db.clock
  · unfold Holds at holds
    rw [Store.valueAt_commit past] at holds
    rcases good.traced ts later key row found holds isEntry with stays | written
    · cases changed : writes (.row key) with
      | none =>
        left
        unfold Holds
        rw [Store.latest_commit, changed]
        exact stays
      | some pair =>
        obtain ⟨touched, has⟩ := covers key pair row found changed stays isEntry
        exact .inr (Store.writtenSince_commit_self has past)
    · exact .inr (Store.writtenSince_commit written)
  · rw [Store.valueAt_of_clock_le (by rw [Store.commit_clock]; omega)] at holds
    exact .inl holds

/-- What a writer below write-only leaves waits for the backfill, which has not begun. -/
theorem waits_of_early (early : build.begun = false) (key : Key C) : Waits build.job key := by
  obtain ⟨job, isJob, atStart, isOpen⟩ := good.early early
  exact ⟨job, isJob, isOpen, atStart ▸ WithBot.bot_lt_coe key⟩

omit good in
theorem written_of_maintained_false (lagging : known.maintained = false) : known = .absent := by
  cases known with
  | absent => rfl
  | deleteOnly | writeOnly | published => cases lagging

theorem maintained_or_bare (near : rank build.state ≤ rank writer.known + 1) :
    writer.known.maintained = true ∨ ∀ ts key, build.db.valueAt ts (.entry key) = none := by
  cases isMaintained : writer.known.maintained with
  | true => exact .inl rfl
  | false =>
    right
    rw [written_of_maintained_false isMaintained] at near
    apply good.bare
    cases isState : build.state with
    | absent => rfl
    | deleteOnly => rfl
    | writeOnly | published =>
      rw [isState] at near
      exact absurd near (by decide)

end

variable {state : SchemaState} {next : Option (Writer V C)} {after : Build T V C}

theorem not_written_of_behind (behind : rank known ≤ rank state) (unwritten : state.written = false) :
    known.written = false := by
  cases state with
  | absent | deleteOnly => cases known <;> first | rfl | exact absurd behind (by decide)
  | writeOnly | published => cases unwritten

section Commit

variable (good : Good schema table index build)
  (running : Running schema table index build.db build.state writer)
  (near : rank build.state ≤ rank writer.known + 1)
  (unrefused : ¬ writer.writes.Conflicted build.db)

include good running near unrefused

theorem commit_sound : Sound schema table index (build.db.commit writer.writes).latest := by
  have kept := running.kept.resolve_left unrefused
  apply (good.sound build.db.clock).commit running.filed
  · intro key value stamp written
    obtain ⟨row, at_, found, isRow, isEntry, isKey, isValue⟩ := kept.source key value stamp written
    refine ⟨row, ?_, ⟨found, isEntry, isKey⟩, isValue⟩
    unfold Holds
    rw [Store.latest_commit, isRow]
  · intro key pair row found changed holds isEntry
    rcases maintained_or_bare good near with isMaintained | bare
    · exact .inr (kept.covers isMaintained key pair row found changed holds isEntry)
    · exact .inl (bare _ _)

omit near in
theorem commit_complete (isWritten : writer.known.written = true) :
    Awaited schema table index (build.db.commit writer.writes) build.job build.since := by
  intro key row found holds isEntry
  have kept := running.kept.resolve_left unrefused
  rw [Buffer.read_commit] at holds
  rcases Buffer.read_eq_some holds with ⟨stamp, changed⟩ | ⟨changed, holds⟩
  · obtain ⟨_, leads⟩ := kept.held isWritten key row stamp found changed isEntry
    left
    rw [Store.latest_commit, leads]
  rcases good.complete key row found holds isEntry with leads | ⟨waits, quiet⟩
  · left
    rw [Store.latest_commit]
    cases touched : writer.writes (.entry found.key) with
    | none => exact leads
    | some pair =>
      rcases kept.vacant _ pair touched with none | ⟨_, was, own, has⟩
      · rw [leads] at none
        cases none
      rw [leads] at was
      cases was
      have isKey : key = schema.encode (primaryKeyOf table row) :=
        (good.sound build.db.clock).filed key row holds
      rw [← isKey, changed] at has
      cases has
  · exact .inr ⟨waits, fun written => quiet (Store.writtenSince_of_commit changed written)⟩

omit near unrefused in
theorem commit_bare (unwritten : build.state.written = false) (ts : Nat) (key : EntryKey C) :
    (build.db.commit writer.writes).valueAt ts (.entry key) = none := by
  refine Buffer.forall_commit
    (fun view : StoreKey C → Option (Stored V) => view (.entry key) = none) (fun ts => good.bare unwritten ts key) ?_ ts
  rw [Store.latest_commit]
  cases touched : writer.writes (.entry key) with
  | none => exact good.bare unwritten _ key
  | some pair =>
    have lagging := not_written_of_behind running.behind unwritten
    exact running.noPuts lagging key pair.1 pair.2 touched

end Commit

section Batches

variable [DecidableEq V] {job : Job C} {ts : Nat} {read : List (Key C × Row V)} {last : Key C}
  {writes : Writes V C}

theorem batch_entries (good : Good schema table index build)
    (scanned : Scanned build.db ts job.cursor read last)
    (indexed : indexRows schema table index build.db ts Buffer.empty (read.map Prod.snd) =
      .ok writes) :
    Entries schema table index build.db ts (read.map Prod.snd) writes := by
  have distinct : ([] ++ read.map Prod.snd).Pairwise fun left right =>
      schema.rowKey table left ≠ schema.rowKey table right := by
    rw [nil_append, pairwise_map]
    apply scanned.ordered.imp_of_mem
    intro left right isLeft isRight before same
    rw [← (good.sound ts).filed _ _ (scanned.held left isLeft).1,
      ← (good.sound ts).filed _ _ (scanned.held right isRight).1] at same
    exact before.ne same
  exact indexRows_entries distinct entries_nil indexed

omit [LinearOrder C] [DecidableEq V] in
theorem quiet_holds {since : Nat} {key : Key C} {row : Row V}
    (quiet : ¬ db.writtenSince (.row key) since) (later : since ≤ ts) (past : ts ≤ db.clock)
    (holds : Holds db.latest key row) : Holds (db.valueAt ts) key row := by
  unfold Holds at holds ⊢
  rw [← holds, Store.valueAt_eq_of_quiet quiet later]
  exact (Store.valueAt_eq_of_quiet quiet (later.trans past)).symm

omit [DecidableEq V]

variable (good : Good schema table index build)
  (scanned : Scanned build.db ts job.cursor read last)
  (entries : Entries schema table index build.db ts (read.map Prod.snd) writes)
  (later : build.since ≤ ts) (unrefused : ¬ writes.Conflicted build.db)

include good scanned entries later unrefused

theorem batch_row {row : Row V} {found : Entry V C} (mem : row ∈ read.map Prod.snd)
    (isEntry : entry schema table index row = .ok (some found)) :
    Holds build.db.latest (schema.rowKey table row) row := by
  obtain ⟨⟨key, _⟩, isRead, rfl⟩ := mem_map.mp mem
  have holds := (scanned.held _ isRead).1
  rw [(good.sound ts).filed _ _ holds] at holds
  rcases good.traced ts later _ _ found holds isEntry with stays | written
  · exact stays
  obtain ⟨stamp, has⟩ := entries.all _ mem found isEntry
  have isTs := (entries.source _ _ _ has).1
  exact absurd ⟨_, _, stamp, has, isTs ▸ written⟩ unrefused

theorem batch_sound : Sound schema table index (build.db.commit writes).latest := by
  apply (good.sound build.db.clock).commit
  · intro key row stamp written
    rw [entries.noRows key] at written
    cases written
  · intro key value stamp written
    obtain ⟨_, row, mem, found, isEntry, isKey, isValue, _⟩ :=
      entries.source key (some value) stamp written
    refine ⟨row, ?_, ⟨found, isEntry, isKey⟩, Option.some.inj isValue⟩
    unfold Holds
    rw [Store.latest_commit, entries.noRows]
    exact batch_row good scanned entries later unrefused mem isEntry
  · intro key pair row found written
    rw [entries.noRows key] at written
    cases written

theorem batch_complete (isJob : build.job = some job) (past : ts ≤ build.db.clock) (changed : Nat) :
    Awaited schema table index (build.db.commit writes) (some ⟨last, false, changed⟩)
      build.since := by
  intro key row found holds isEntry
  unfold Holds at holds
  simp only [Store.latest_commit, entries.noRows] at holds
  have isKey := (good.sound build.db.clock).filed key row holds
  rcases good.complete key row found holds isEntry with leads | ⟨⟨_, isHeld, _, behind⟩, quiet⟩
  · left
    rw [Store.latest_commit]
    cases touched : writes (.entry found.key) with
    | none => exact leads
    | some pair =>
      obtain ⟨isTs, other, mem, entry, isOther, sameKey, isValue, checked⟩ :=
        entries.source _ _ _ touched
      dsimp only
      rw [isValue]
      cases unique : index.unique with
      | true =>
        have newest := Buffer.latest_of_unrefused unrefused touched isTs.le past
        rw [leads] at newest
        rcases checked unique with none | same
        · rw [← newest] at none
          cases none
        · rw [← same, ← newest]
      | false =>
        have suffixed : found.byValue = false := by
          rw [(entry_eq_some isEntry).2, IndexDef.byValue, unique]
          rfl
        have sameRow := rowKey_eq_of_suffix isEntry isOther sameKey suffixed
        have stays := batch_row good scanned entries later unrefused mem isOther
        unfold Holds at stays
        rw [sameRow, ← isKey, holds] at stays
        cases stays
        rfl
  · rw [isJob] at isHeld
    cases isHeld
    by_cases reached : key ≤ last
    · left
      have isRead := scanned.complete key row (quiet_holds quiet later past holds) behind reached
      obtain ⟨_, has⟩ := entries.all row (mem_map_of_mem isRead) found isEntry
      rw [Store.latest_commit, has]
    · right
      refine ⟨⟨_, rfl, rfl, WithBot.coe_lt_coe.mpr (not_le.mp reached)⟩, fun written => ?_⟩
      exact quiet (Store.writtenSince_of_commit (entries.noRows key) written)

end Batches

/-! ## The steps -/

omit [LinearOrder C] in
theorem empty_latest (db : Histories.Database V C) : (db.commit Buffer.empty).latest = db.latest := by
  funext key
  rw [Store.latest_commit]
  rfl

variable {disturbed : Prop}

theorem Good.set [DecidableEq T] (good : Good schema table index build) {id : T}
    (nextRunning : ∀ writer, next = some writer →
      Running schema table index build.db build.state writer) :
    Good schema table index { build.set id next with disturbed } :=
  { good with running := forall_update good.running nextRunning }

section Writers

variable {row : Row V} {found : Option (Entry V C)}
  (running : Running schema table index build.db build.state writer)

include running

theorem Running.removed (has : entryFor schema table index writer.known.maintained row = .ok found)
    (current : Holds (writer.view build.db) (schema.rowKey table row) row)
    (own : Own table (writer.view build.db) found row) :
    Running schema table index build.db build.state
      { writer with
        writes := place schema table writer.writes writer.statement found row none none } := by
  have changed : Rewritten (schema.rowKey table row) found writer.writes _ writer.statement none none :=
    place_rewritten writer.writes writer.statement found row none none
  refine ⟨running.past, running.behind, place_stamped running.stamped _ _ _ _, ?_, ?_, ?_, ?_⟩
  · apply running.filed.rewritten changed
    intro other same
    cases same
  · intro lagging key
    have unkept : found = none := by
      unfold entryFor at has
      rw [lagging] at has
      cases has
      rfl
    refine (changed.entryOther key ?_).trans (running.noEntries lagging key)
    rw [unkept]
    intro entry isFound
    cases isFound
  · intro lagging key value stamp written
    dsimp only at written
    rcases changed.entry_cases key with ⟨removed, rfl, rfl⟩ | same
    · obtain ⟨_, deleted, _⟩ := changed.entrySelf removed rfl
      rw [deleted] at written
      cases written
      rfl
    · rw [same] at written
      exact running.noPuts lagging key value stamp written
  · refine Buffer.Conflicted.or_moves running.kept (·.extends changed.grown) fun unrefused kept => ?_
    exact kept.removed running.filed running.past running.noEntries has changed unrefused current own

theorem Running.wrote (sound : ∀ ts, Sound schema table index (build.db.valueAt ts))
    (has : entryFor schema table index writer.known.written row = .ok found)
    (absent : writer.view build.db (.row (schema.rowKey table row)) = none)
    (unclaimed : ∀ entry, found = some entry → entry.byValue = true →
      writer.view build.db (.entry entry.key) = none) :
    Running schema table index build.db build.state
      { writer with
        writes := place schema table writer.writes writer.statement found row
          (some (.primaryKey (primaryKeyOf table row))) (some (.row row)) } := by
  have changed : Rewritten (schema.rowKey table row) found writer.writes _ writer.statement
      (some (.primaryKey (primaryKeyOf table row))) (some (.row row)) :=
    place_rewritten writer.writes writer.statement found row _ _
  have untouched (lagging : writer.known.written = false) (key : EntryKey C) :
      place schema table writer.writes writer.statement found row
        (some (.primaryKey (primaryKeyOf table row))) (some (.row row)) (.entry key) =
        writer.writes (.entry key) := by
    apply changed.entryOther key
    unfold entryFor at has
    rw [lagging] at has
    cases has
    intro entry isFound
    cases isFound
  refine ⟨running.past, running.behind, place_stamped running.stamped _ _ _ _, ?_, ?_, ?_, ?_⟩
  · apply running.filed.rewritten changed
    intro other same
    cases same
    rfl
  · intro lagging key
    have unwritten : writer.known.written = false := by
      rw [written_of_maintained_false lagging]
      rfl
    exact (untouched unwritten key).trans (running.noEntries lagging key)
  · intro lagging key value stamp written
    exact running.noPuts lagging key value stamp ((untouched lagging key).symm.trans written)
  · refine Buffer.Conflicted.or_moves running.kept (·.extends changed.grown) fun unrefused kept => ?_
    exact kept.wrote running.filed running.past (sound _) has changed unrefused absent unclaimed

end Writers

theorem Good.commit [DecidableEq T] (good : Good schema table index build) {id : T}
    (isRunning : build.active id = some writer) (near : rank build.state ≤ rank writer.known + 1)
    (unrefused : ¬ writer.writes.Conflicted build.db)
    (calm : ¬ (writer.known.written = false ∧ build.begun = true)) :
    Good schema table index
      { build.set id none with
        db := build.db.commit writer.writes
        since := if writer.known.written then build.since else build.db.clock + 1
        disturbed } := by
  have running := good.running id writer isRunning
  have kept := running.kept.resolve_left unrefused
  refine ⟨Buffer.forall_commit _ good.sound (commit_sound good running near unrefused),
    fun unwritten => commit_bare good running unwritten, ?_, ?_, good.early, good.finished, ?_⟩
  · intro key row found holds isEntry
    cases isWritten : writer.known.written with
    | true =>
      exact commit_complete good running unrefused isWritten key row found holds isEntry
    | false =>
      have early : build.begun = false := by
        cases isBegun : build.begun with
        | false => rfl
        | true => exact absurd ⟨isWritten, isBegun⟩ calm
      refine .inr ⟨waits_of_early good early key, ?_⟩
      exact Store.not_writtenSince_clock (build.db.commit writer.writes) _
  · cases isWritten : writer.known.written with
    | true =>
      have isMaintained := SchemaState.maintained_of_written isWritten
      exact good.traced_commit _ (kept.covers isMaintained)
    | false =>
      intro ts later key row found holds isEntry
      left
      rw [Store.valueAt_of_clock_le (by simpa using later)] at holds
      exact holds
  · exact forall_update (fun other held isHeld => (good.running other held isHeld).commit _) nofun

theorem Good.backfilled (good : Good schema table index build) {ts : Nat} {job : Option (Job C)}
    {writes : Writes V C} (noRows : ∀ key, writes (.row key) = none)
    (sound : build.since ≤ ts → Sound schema table index (build.db.commit writes).latest)
    (complete : build.since ≤ ts →
      Awaited schema table index (build.db.commit writes) job build.since)
    :
    (disturbed ∨ build.state ≠ .writeOnly ∨ ts < build.since) ∨ Good schema table index
      { build with db := build.db.commit writes, job, begun := true, disturbed := disturbed ∨
          build.state ≠ .writeOnly ∨ ts < build.since } := by
  by_cases calm : build.state = .writeOnly ∧ build.since ≤ ts
  · obtain ⟨isWriteOnly, later⟩ := calm
    refine .inr ⟨Buffer.forall_commit _ good.sound (sound later), ?_, complete later, ?_, nofun, ?_,
      fun id writer isWriter => (good.running id writer isWriter).commit _⟩
    · intro unwritten
      rw [isWriteOnly] at unwritten
      cases unwritten
    · apply good.traced_commit writes
      intro key pair row found written
      rw [noRows key] at written
      cases written
    · intro isPublic
      rw [isWriteOnly] at isPublic
      cases isPublic
  · left
    right
    rw [not_and_or] at calm
    exact calm.imp (fun other => other) not_le.mp

variable [DecidableEq T] [DecidableEq V]

/-- One step keeps the entries in step with the rows, or is one that disturbs them. -/
theorem step_good (step : Build.Step schema table index build after)
    (good : Good schema table index build) : after.disturbed ∨ Good schema table index after := by
  cases step with
  | begin idle behind near =>
    refine .inr (good.set fun writer isWriter => ?_)
    cases isWriter
    exact ⟨le_rfl, behind, nofun, nofun, fun _ _ => rfl, nofun, .inr ⟨nofun, nofun, nofun, nofun⟩⟩
  | refresh isRunning =>
    rename_i id writer
    have running := good.running id writer isRunning
    refine .inr (good.set fun next isNext => ?_)
    cases isNext
    exact { running with
      past := le_rfl
      stamped := fun key value stamp held =>
        (running.stamped key value stamp held).trans running.past }
  | remove isRunning has =>
    rename_i id writer row found
    have running := good.running id writer isRunning
    by_cases fine : Holds (writer.view build.db) (schema.rowKey table row) row ∧
        Own table (writer.view build.db) found row
    · refine .inr (good.set fun next isNext => ?_)
      cases isNext
      exact running.removed has fine.1 fine.2
    · exact .inl (.inr fine)
  | write isRunning has absent unclaimed =>
    rename_i id writer row found
    have running := good.running id writer isRunning
    refine .inr (good.set fun next isNext => ?_)
    cases isNext
    exact running.wrote good.sound has absent unclaimed
  | commit isRunning near unrefused =>
    rename_i id writer
    by_cases late : writer.known.written = false ∧ build.begun = true
    · exact .inl (.inr late)
    · exact .inr (good.commit isRunning near unrefused late)
  | rollback =>
    exact .inr (good.set nofun)
  | advance held isNext before =>
    rename_i next job
    have later : rank build.state ≤ rank next := isNext ▸ Nat.le_succ _
    exact .inr { good with
      bare := fun unwritten => good.bare (not_written_of_behind later unwritten)
      finished := fun isPublic => absurd isPublic before
      running := fun id writer isWriter => (good.running id writer isWriter).later later }
  | batch held isOpen fresh past scanned indexed unrefused =>
    rename_i job ts read last writes
    have entries := batch_entries good scanned indexed
    apply good.backfilled entries.noRows
    · intro later
      exact batch_sound good scanned entries later unrefused
    · intro later
      exact batch_complete good scanned entries later unrefused held past _
  | finish held isOpen fresh past empty =>
    rename_i job ts
    apply good.backfilled fun _ => rfl
    · intro _
      rw [empty_latest]
      exact good.sound build.db.clock
    intro later key row found holds isEntry
    rw [empty_latest] at holds ⊢
    rcases good.complete key row found holds isEntry with leads | ⟨⟨_, isHeld, _, behind⟩, quiet⟩
    · exact .inl leads
    rw [held] at isHeld
    cases isHeld
    exact absurd (quiet_holds quiet later past holds) (empty key row behind)
  | publish held isDone ready =>
    rename_i job
    refine .inr ⟨good.sound, ?_, good.complete, good.traced, good.early, ?_, ?_⟩
    · intro unwritten
      cases unwritten
    · intro _ other isOther
      cases held.symm.trans isOther
      exact isDone
    · intro id writer isWriter
      exact (good.running id writer isWriter).later (ready ▸ Nat.le_succ 2)
  | forget isPublic =>
    refine .inr ⟨good.sound, good.bare, ?_, good.traced, ?_, ?_, good.running⟩
    · intro key row found holds isEntry
      rcases good.complete key row found holds isEntry with leads | ⟨⟨job, isJob, isOpen, _⟩, _⟩
      · exact .inl leads
      · rw [good.finished isPublic job isJob] at isOpen
        cases isOpen
    · intro early
      obtain ⟨job, isJob, _, isOpen⟩ := good.early early
      rw [good.finished isPublic job isJob] at isOpen
      cases isOpen
    · intro _ job isJob
      cases isJob
  | unwind isLower => exact .inl trivial

theorem step_disturbed (step : Build.Step schema table index build after)
    (disturbed : build.disturbed) : after.disturbed := by
  cases step with
  | remove | commit | batch | finish => exact .inl disturbed
  | unwind => exact trivial
  | begin | refresh | write | rollback | advance | publish | forget => exact disturbed

theorem run_good (steps : ReflTransGen (Build.Step schema table index) build after)
    (good : Good schema table index build) : after.disturbed ∨ Good schema table index after := by
  induction steps with
  | refl => exact .inr good
  | tail _ step ih =>
    rcases ih with disturbed | good
    · exact .inl (step_disturbed step disturbed)
    · exact step_good step good

/-- Once the index is public it has one entry for each row it admits and no other, and a unique
index that is not deferrable holds no two rows to one key. -/
theorem published_index_exact
    (filed : ∀ ts key row, Holds (db.valueAt ts) key row → key = schema.rowKey table row)
    (bare : ∀ ts key, db.valueAt ts (.entry key) = none) {after : Build T V C}
    (steps : ReflTransGen (Build.Step schema table index) (Build.opening db) after)
    (isPublic : after.state = .published) (calm : ¬ after.disturbed) :
    Exact schema table index after.db.latest ∧
      (index.deferrable = false → ∀ key key' row row', Holds after.db.latest key row →
        Holds after.db.latest key' row' → key ≠ key' →
          ¬ Histories.Clash schema table (.unique index) row row') := by
  have good := (run_good steps (Good.opening filed bare)).resolve_left calm
  have complete : ∀ key row found, Holds after.db.latest key row →
      entry schema table index row = .ok (some found) →
        after.db.latest (.entry found.key) =
          some (.primaryKey (primaryKeyOf table row)) := by
    intro key row found holds isEntry
    rcases good.complete key row found holds isEntry with leads | ⟨⟨job, isJob, isOpen, _⟩, _⟩
    · exact leads
    · rw [good.finished isPublic job isJob] at isOpen
      cases isOpen
  have sound := good.sound after.db.clock
  refine ⟨⟨sound, complete⟩, fun immediate key key' row row' holds holds' different => ?_⟩
  have allowed : Histories.Allowed schema table (.unique index) after.db.latest := by
    refine ⟨sound.filed, fun key row claimed holds claims => ?_,
      fun key row suffix holds isSuffixed => ?_, fun scanned => ?_⟩
    · obtain ⟨found, isEntry, _, rfl⟩ := Histories.claim_eq_some claims
      exact complete key row found holds isEntry
    · obtain ⟨found, isEntry, rfl, _⟩ := Histories.suffixed_eq_some isSuffixed
      rw [complete key row found holds isEntry]
      exact Option.some_ne_none _
    · exact absurd scanned (by rw [Histories.Constraint.scanned, immediate]; decide)
  exact allowed.not_clash holds holds' different

end Runs

/-! ## Two rows with one code -/

section Duplicate

open Esker.Sql.Histories (codeSchema codeTable codeIndex codeEntry codeEntry_has)

def firstRow : Row Nat := [some 1, some 5]

def secondRow : Row Nat := [some 2, some 5]

def keyOf (id : Nat) : Key Nat := [(id : WithTop Nat)]

/-- The first row, or both rows, before the change begins. -/
def seeded (both : Bool) : Histories.Database Nat Nat where
  clock := 1
  history key :=
    if key = .row (keyOf 1) then [(1, some (.row firstRow))]
    else if both = true ∧ key = .row (keyOf 2) then [(1, some (.row secondRow))]
    else []
  bounded := by
    intro key version member
    split_ifs at member
    · rw [mem_singleton.mp member]
    · rw [mem_singleton.mp member]
    · cases member

variable {both : Bool} {key : Key Nat}

theorem seeded_holds {ts : Nat} {row : Row Nat} (holds : Holds ((seeded both).valueAt ts) key row) :
    key = keyOf 1 ∧ row = firstRow ∨ both = true ∧ key = keyOf 2 ∧ row = secondRow := by
  simp only [Holds, Store.valueAt, seeded, StoreKey.row.injEq] at holds
  have single {row' : Row Nat} (found : (List.find? (fun version => decide (version.1 ≤ ts))
      [(1, some (Stored.row row'))]).bind Prod.snd = some (.row row)) : row = row' := by
    by_cases past : 1 ≤ ts
    · simpa [past, eq_comm] using found
    · simp [past] at found
  split_ifs at holds with isFirst isSecond
  · exact .inl ⟨isFirst, single holds⟩
  · exact .inr ⟨isSecond.1, isSecond.2, single holds⟩
  · simp at holds

theorem seeded_bare (both : Bool) (ts : Nat) (key : EntryKey Nat) :
    (seeded both).valueAt ts (.entry key) = none := by
  simp [Store.valueAt, seeded]

theorem seeded_filed (both : Bool) (ts : Nat) (key : Key Nat) (row : Row Nat)
    (holds : Holds ((seeded both).valueAt ts) key row) :
    key = (codeSchema false).rowKey (codeTable false) row := by
  rcases seeded_holds holds with ⟨rfl, rfl⟩ | ⟨_, rfl, rfl⟩
  · rfl
  · rfl

def sharedKey : EntryKey Nat := (codeEntry false 1 5).key

def firstBatch : Writes Nat Nat :=
  Buffer.put Buffer.empty 1 (.entry sharedKey) (some (.primaryKey [some 1]))

theorem firstBatch_indexed (both : Bool) :
    indexRows (codeSchema false) (codeTable false) (codeIndex false) (seeded both) 1 Buffer.empty
      [firstRow] = .ok firstBatch := by
  have nothing : Buffer.read Buffer.empty (seeded both) 1 (.entry sharedKey) = none :=
    seeded_bare both 1 sharedKey
  have isEntry : entry (codeSchema false) (codeTable false) (codeIndex false) firstRow =
      .ok (some (codeEntry false 1 5)) := codeEntry_has false 1 5
  unfold indexRows
  rw [isEntry]
  dsimp only
  rw [if_neg fun refused => refused.2.1 nothing]
  rfl

theorem firstBatch_writes {key : StoreKey Nat} {pair : Option (Stored Nat) × Nat}
    (written : firstBatch key = some pair) : key = .entry sharedKey := by
  by_contra different
  have untouched := (Buffer.put_of_ne different).symm.trans written
  cases untouched

theorem keyOf_lt {id other : Nat} (less : id < other) : keyOf id < keyOf other := by
  exact List.Lex.rel (WithTop.coe_lt_coe.mpr less)

abbrev CodeStep : Build Bool Nat Nat → Build Bool Nat Nat → Prop :=
  Build.Step (codeSchema false) (codeTable false) (codeIndex false)

def prepared (both : Bool) : Build Bool Nat Nat :=
  { (Build.opening (seeded both) : Build Bool Nat Nat) with state := .writeOnly }

def batched (both : Bool) : Build Bool Nat Nat :=
  { prepared both with
    db := (seeded both).commit firstBatch
    job := some ⟨keyOf 1, false, 2⟩
    begun := true
    disturbed := False ∨ SchemaState.writeOnly ≠ .writeOnly ∨ 1 < 1 }

theorem batched_steps (both : Bool) :
    ReflTransGen CodeStep (Build.opening (seeded both)) (batched both) := by
  have first : CodeStep (Build.opening (seeded both))
      { Build.opening (seeded both) with state := .deleteOnly } :=
    .advance rfl rfl (by decide)
  have second : CodeStep { Build.opening (seeded both) with state := .deleteOnly }
      (prepared both) :=
    .advance rfl rfl (by decide)
  have scanned : Scanned (seeded both) 1 ⊥ [(keyOf 1, firstRow)] (keyOf 1) := by
    refine ⟨by decide, pairwise_singleton _ _, ?_, ?_, WithBot.bot_lt_coe _⟩
    · intro pair mem
      rw [mem_singleton.mp mem]
      exact ⟨rfl, WithBot.bot_lt_coe _, le_rfl⟩
    intro key row holds _ reached
    rcases seeded_holds holds with ⟨rfl, rfl⟩ | ⟨_, rfl, rfl⟩
    · exact mem_singleton_self _
    · exact absurd reached (not_le.mpr (keyOf_lt (by decide)))
  have third : CodeStep (prepared both) (batched both) := by
    refine .batch rfl rfl le_rfl le_rfl scanned (firstBatch_indexed both) ?_
    rintro ⟨key, value, stamp, written, version, mem, later⟩
    have noVersion : (seeded both).history (.entry sharedKey) = [] := by simp [seeded]
    rw [firstBatch_writes written] at mem
    exact absurd (noVersion ▸ mem) not_mem_nil
  exact .tail (.tail (.tail .refl first) second) third

/-- The batches have ended in a database that is otherwise as given. -/
def ended (build : Build Bool Nat Nat) : Build Bool Nat Nat :=
  { build with
    db := build.db.commit Buffer.empty
    job := some ⟨keyOf 1, true, build.db.clock + 1⟩
    begun := true
    disturbed := build.disturbed ∨ build.state ≠ .writeOnly ∨ build.db.clock < build.since
    state := .published }

theorem ended_steps {build : Build Bool Nat Nat} {changed : Nat}
    (isJob : build.job = some ⟨keyOf 1, false, changed⟩) (past : changed ≤ build.db.clock)
    (ready : build.state = .writeOnly) (empty : ∀ (key : Key Nat) (row : Row Nat), keyOf 1 < key →
      ¬ Holds build.db.latest key row) :
    ReflTransGen CodeStep build (ended build) := by
  refine .tail (.tail .refl (.finish isJob rfl past le_rfl ?_)) (.publish rfl rfl ready)
  intro key row behind
  exact empty key row (WithBot.coe_lt_coe.mp behind)

theorem batched_holds {row : Row Nat} (holds : Holds (batched both).db.latest key row) :
    key = keyOf 1 ∧ row = firstRow ∨ both = true ∧ key = keyOf 2 ∧ row = secondRow := by
  unfold Holds batched at holds
  rw [Store.latest_commit] at holds
  cases written : firstBatch (.row key) with
  | none =>
    rw [written] at holds
    exact seeded_holds holds
  | some pair => cases firstBatch_writes written

/-- A transaction at write-only that has written nothing yet. -/
def fresh : Writer Nat Nat := ⟨.writeOnly, 2, Buffer.empty⟩

theorem stamp_of_rewritten {key : Key Nat} {found : Option (Entry Nat Nat)}
    {writes : Writes Nat Nat} {ts : Nat} {entered stored : Option (Stored Nat)}
    (changed : Rewritten key found Buffer.empty writes ts entered stored) {at_ : StoreKey Nat}
    {value : Option (Stored Nat)} {stamp : Nat} (written : writes at_ = some (value, stamp)) :
    stamp = ts := by
  cases at_ with
  | row other =>
    by_cases same : other = key
    · obtain ⟨_, has, isNow⟩ := changed.rowSelf
      rw [same, has] at written
      cases written
      exact isNow rfl
    · rw [changed.rowOther other same] at written
      cases written
  | entry other =>
    by_cases same : ∃ entry, found = some entry ∧ entry.key = other
    · obtain ⟨entry, isFound, rfl⟩ := same
      obtain ⟨_, has, isNow⟩ := changed.entrySelf entry isFound
      rw [has] at written
      cases written
      exact isNow rfl
    · rw [changed.entryOther other fun entry isFound isKey =>
        same ⟨entry, isFound, isKey.symm⟩] at written
      cases written

/-- What was read at the newest snapshot is not refused. -/
theorem not_conflicted {db : Histories.Database Nat Nat} {writes : Writes Nat Nat}
    (stamps : ∀ {key : StoreKey Nat} {value : Option (Stored Nat)} {stamp : Nat},
      writes key = some (value, stamp) → stamp = db.clock) : ¬ writes.Conflicted db := by
  rintro ⟨key, value, stamp, written, version, mem, later⟩
  rw [stamps written] at later
  exact absurd (db.bounded key version mem) (not_le.mpr later)

/-! A writer inserts a row behind the cursor, where no batch comes again. -/

def earlierRow : Row Nat := [some 0, some 6]

def inserting : Writer Nat Nat :=
  { fresh with
    writes := place (codeSchema false) (codeTable false) Buffer.empty 2
      (some (codeEntry false 0 6)) earlierRow (some (.primaryKey [some 0]))
      (some (.row earlierRow)) }

theorem inserting_rewritten :
    Rewritten ((codeSchema false).rowKey (codeTable false) earlierRow)
      (some (codeEntry false 0 6)) Buffer.empty inserting.writes 2 (some (.primaryKey [some 0]))
      (some (.row earlierRow)) :=
  place_rewritten Buffer.empty 2 (some (codeEntry false 0 6)) earlierRow _ _

/-- The transaction has inserted the row, and not committed yet. -/
def wrote : Build Bool Nat Nat := ((batched false).set true (some fresh)).set true (some inserting)

def inserted : Build Bool Nat Nat :=
  { wrote.set true none with
    db := (batched false).db.commit inserting.writes
    disturbed := (batched false).disturbed ∨
      SchemaState.writeOnly.written = false ∧ true = true }

theorem inserted_steps : ReflTransGen CodeStep (batched false) inserted := by
  have begun : CodeStep (batched false) ((batched false).set true (some fresh)) :=
    .begin rfl le_rfl (Nat.le_succ _)
  have running : ((batched false).set true (some fresh)).active true = some fresh := rfl
  have isEntry : entryFor (codeSchema false) (codeTable false) (codeIndex false)
      SchemaState.writeOnly.written earlierRow = .ok (some (codeEntry false 0 6)) :=
    codeEntry_has false 0 6
  have writes : CodeStep ((batched false).set true (some fresh)) wrote :=
    .write running isEntry rfl (by rintro _ ⟨⟩ _; rfl)
  have stillRunning : wrote.active true = some inserting := rfl
  exact .tail (.tail (.tail .refl begun) writes) (.commit stillRunning (Nat.le_succ _)
    (not_conflicted fun written => stamp_of_rewritten inserting_rewritten written))

theorem inserted_holds {row : Row Nat} (holds : Holds inserted.db.latest key row) :
    key = keyOf 0 ∨ key = keyOf 1 := by
  have changed := inserting_rewritten
  unfold Holds inserted at holds
  rw [Store.latest_commit] at holds
  by_cases same : key = (codeSchema false).rowKey (codeTable false) earlierRow
  · exact .inl same
  rw [changed.rowOther key same] at holds
  rcases batched_holds holds with ⟨isFirst, _⟩ | ⟨both, _⟩
  · exact .inr isFirst
  · cases both

/-- The index of a table with one row is built, a writer inserts another row after the batch has
passed its key, and the index becomes public with the entries of both. -/
theorem row_inserted_meanwhile :
    (ended inserted).state = .published ∧ Holds (ended inserted).db.latest (keyOf 0) earlierRow ∧
      Exact (codeSchema false) (codeTable false) (codeIndex false) (ended inserted).db.latest := by
  have empty : ∀ (key : Key Nat) (row : Row Nat), keyOf 1 < key →
      ¬ Holds inserted.db.latest key row := by
    intro key row behind holds
    rcases inserted_holds holds with rfl | rfl
    · exact absurd behind (not_lt.mpr (keyOf_lt (by decide)).le)
    · exact absurd behind (lt_irrefl _)
  have steps := ((batched_steps false).trans inserted_steps).trans
    (ended_steps rfl (Nat.le_succ 2) rfl empty)
  have calm : ¬ (ended inserted).disturbed := by
    simp [ended, inserted, wrote, batched, prepared, Build.opening, Build.set, seeded, Store.commit,
      SchemaState.written]
  exact ⟨rfl, rfl,
    (published_index_exact (seeded_filed false) (seeded_bare false) steps rfl calm).1⟩

/-! A writer deletes a row that no batch has reached. -/

def deleting : Writer Nat Nat :=
  { fresh with
    writes := place (codeSchema false) (codeTable false) Buffer.empty 2
      (some (codeEntry false 2 5)) secondRow none none }

theorem deleting_rewritten : Rewritten ((codeSchema false).rowKey (codeTable false) secondRow)
    (some (codeEntry false 2 5)) Buffer.empty deleting.writes 2 none none :=
  place_rewritten Buffer.empty 2 (some (codeEntry false 2 5)) secondRow none none

/-- The transaction has deleted the row, and not committed yet. -/
def shadowed : Build Bool Nat Nat :=
  { ((batched true).set true (some fresh)).set true (some deleting) with
    disturbed := (batched true).disturbed ∨
      ¬ (Holds (fresh.view (batched true).db)
          ((codeSchema false).rowKey (codeTable false) secondRow) secondRow ∧
        Own (codeTable false) (fresh.view (batched true).db) (some (codeEntry false 2 5))
          secondRow) }

def removed : Build Bool Nat Nat :=
  { shadowed.set true none with
    db := (batched true).db.commit deleting.writes
    disturbed := shadowed.disturbed ∨ SchemaState.writeOnly.written = false ∧ true = true }

theorem removed_steps : ReflTransGen CodeStep (batched true) removed := by
  have begun : CodeStep (batched true) ((batched true).set true (some fresh)) :=
    .begin rfl le_rfl (Nat.le_succ _)
  have running : ((batched true).set true (some fresh)).active true = some fresh := rfl
  have isEntry : entryFor (codeSchema false) (codeTable false) (codeIndex false)
      SchemaState.writeOnly.maintained secondRow = .ok (some (codeEntry false 2 5)) :=
    codeEntry_has false 2 5
  have deletes : CodeStep ((batched true).set true (some fresh)) shadowed :=
    .remove running isEntry
  have stillRunning : shadowed.active true = some deleting := rfl
  exact .tail (.tail (.tail .refl begun) deletes) (.commit stillRunning (Nat.le_succ _)
    (not_conflicted fun written => stamp_of_rewritten deleting_rewritten written))

theorem removed_holds {row : Row Nat} (holds : Holds removed.db.latest key row) :
    key = keyOf 1 ∧ row = firstRow := by
  have changed := deleting_rewritten
  unfold Holds removed at holds
  rw [Store.latest_commit] at holds
  by_cases same : key = (codeSchema false).rowKey (codeTable false) secondRow
  · obtain ⟨_, gone, _⟩ := changed.rowSelf
    rw [same, gone] at holds
    cases holds
  rw [changed.rowOther key same] at holds
  rcases batched_holds holds with first | ⟨_, isSecond, _⟩
  · exact first
  · exact absurd isSecond same

/-- Two rows share a code. The first is indexed, the second is deleted before the backfill
comes to it and takes the entry with it, and the index becomes public without the first row. -/
theorem shared_entry_removed :
    (∀ ts key row, Holds ((seeded true).valueAt ts) key row →
        key = (codeSchema false).rowKey (codeTable false) row) ∧
      (∀ ts key, (seeded true).valueAt ts (.entry key) = none) ∧
      ∃ build : Build Bool Nat Nat,
        ReflTransGen
            (Build.Step (codeSchema false) (codeTable false) (codeIndex false))
            (Build.opening (seeded true)) build ∧
          build.state = .published ∧ Holds build.db.latest (keyOf 1) firstRow ∧
          entry (codeSchema false) (codeTable false) (codeIndex false) firstRow =
            .ok (some (codeEntry false 1 5)) ∧
          build.db.latest (.entry (codeEntry false 1 5).key) = none := by
  have empty : ∀ (key : Key Nat) (row : Row Nat), keyOf 1 < key →
      ¬ Holds removed.db.latest key row := by
    intro key row behind holds
    obtain ⟨rfl, _⟩ := removed_holds holds
    exact absurd behind (lt_irrefl _)
  have steps := ((batched_steps true).trans removed_steps).trans
    (ended_steps rfl (Nat.le_succ 2) rfl empty)
  refine ⟨seeded_filed true, seeded_bare true, _, steps, rfl, ?_, codeEntry_has false 1 5, ?_⟩
  · rfl
  · rfl

end Duplicate

end Esker.Sql.Backfill
