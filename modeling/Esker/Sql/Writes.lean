import Esker.Sql.Catalog

/-!
Contract: what INSERT, UPDATE and DELETE do to rows and index entries (`write_row`,
`remove_row`, `rewrite_row`, `update` and `delete` in `esker-sql/src/exec/dml.rs`,
`esker-sql/src/exec/foreign_key.rs`).

Owns: the writes of one transaction on the rows and entries it sees, the foreign-key actions,
and when the entries of every index stay those of its rows.

Does not own: other transactions, triggers, partitions and inheritance, `ON CONFLICT`, and the
deferral of checks: every check is made at once.
-/

namespace Esker.Sql

open SortedMap Function

variable {V C : Type} [LinearOrder C] [DecidableEq V]

/-- Rows by table and key, and entries by table and index. -/
structure Database (V C : Type) [LinearOrder C] where
  rows : Nat → SortedMap (Key C) (Row V)
  entries : Nat → Nat → SortedMap (EntryKey C) (List (Option V))
  /-- History: some row was removed that was no longer the row stored under its key. -/
  stale : Bool

namespace Database

variable (db : Database V C)

def setRows (table : Nat) (rows : SortedMap (Key C) (Row V)) : Database V C :=
  { db with rows := update db.rows table rows }

def setEntries (table index : Nat)
    (entries : SortedMap (EntryKey C) (List (Option V))) : Database V C :=
  { db with
    entries := update db.entries table (update (db.entries table) index entries) }

omit [DecidableEq V] in
@[simp] theorem setEntries_same (table index : Nat)
    (entries : SortedMap (EntryKey C) (List (Option V))) :
    (db.setEntries table index entries).entries table index = entries := by
  rw [setEntries]
  dsimp only
  rw [update_self, update_self]

omit [DecidableEq V] in
theorem setEntries_self (table index : Nat) :
    db.setEntries table index (db.entries table index) = db := by
  simp [setEntries]

omit [DecidableEq V] in
theorem setEntries_other {table index other another : Nat}
    (entries : SortedMap (EntryKey C) (List (Option V)))
    (differs : ¬ (other = table ∧ another = index)) :
    (db.setEntries table index entries).entries other another = db.entries other another := by
  rw [setEntries]
  dsimp only
  by_cases sameTable : other = table
  · subst sameTable
    rw [update_self, update_of_ne fun same => differs ⟨rfl, same⟩]
  · rw [update_of_ne sameTable]

end Database

variable (schema : Schema V C)

/-! ## Removing a row -/

/-- `remove_entries`, for the indexes from one on. -/
def removeEntries (table : TableDef V) (row : Row V) :
    List (IndexDef V) → Database V C → Except SqlError (Database V C)
  | [], db => .ok db
  | index :: rest, db =>
    if !index.state.maintained then removeEntries table row rest db
    else
      match entry schema table index row with
      | .error error => .error error
      | .ok none => removeEntries table row rest db
      | .ok (some found) =>
        removeEntries table row rest
          (db.setEntries table.id index.id ((db.entries table.id index.id).erase found.key))

def removeRow (table : TableDef V) (row : Row V) (db : Database V C) :
    Except SqlError (Database V C) :=
  match removeEntries schema table row table.indexes
      { db with
        stale := db.stale ||
          decide ((db.rows table.id).lookup (schema.rowKey table row) ≠ some row) } with
  | .error error => .error error
  | .ok after =>
    .ok (after.setRows table.id ((after.rows table.id).erase (schema.rowKey table row)))

/-! ## Writing a row -/

def keyOf (ordinals : List Nat) (row : Row V) : Option (List (Option V)) :=
  let values := pick ordinals row
  if values.all Option.isSome then some values else none

/-- `parent_row`: by the primary key, or through the entry of a unique index. -/
def parentRow (parent : TableDef V) (key : ForeignKeyDef) (values : List (Option V))
    (db : Database V C) : Except SqlError (Option (Row V)) :=
  if parent.primaryKey = key.parentColumns then
    .ok ((db.rows parent.id).lookup (schema.encode values))
  else
    match parent.indexes.find? fun index => index.unique && decide (index.state = .published) &&
        decide (index.keyColumns = some key.parentColumns) with
    | none => .error (.internal "a foreign key references columns with no unique index behind them")
    | some index =>
      match (db.entries parent.id index.id).lookup (schema.entryKey values [] true) with
      | none => .ok none
      | some primaryKey => .ok ((db.rows parent.id).lookup (schema.encode primaryKey))

/-- `check_references`: the row each foreign key points at has to exist. -/
def checkReferences (row : Row V) (db : Database V C) : List ForeignKeyDef → Except SqlError Unit
  | [] => .ok ()
  | key :: rest =>
    match keyOf key.columns row with
    | none => checkReferences row db rest
    | some values =>
      match schema.tables.find? fun table => decide (table.id = key.parent) with
      | none => .error (.internal "a foreign key names no table")
      | some parent =>
        match parentRow schema parent key values db with
        | .error error => .error error
        | .ok none => .error (.foreignKeyViolation parent.id)
        | .ok (some _) => checkReferences row db rest

/-- `Check::verify` for one value of a deferrable index: one entry at most. -/
def verifyUnique (table : TableDef V) (index : IndexDef V) (values : List (Option V))
    (db : Database V C) : Except SqlError Unit :=
  if 1 < ((db.entries table.id index.id).entries.filter
      fun held => decide ((ofLex held.1).1 = schema.encode values)).length then
    .error (.uniqueViolation (some index.id))
  else .ok ()

/-- The entries `write_row` makes, for the indexes from one on. A deferrable constraint is
checked at once; the transaction that defers it checks the same values at its end. -/
def writeEntries (table : TableDef V) (row : Row V) :
    List (IndexDef V) → Database V C → Except SqlError (Database V C)
  | [], db => .ok db
  | index :: rest, db =>
    if !index.state.written then writeEntries table row rest db
    else
      match entry schema table index row with
      | .error error => .error error
      | .ok none => writeEntries table row rest db
      | .ok (some found) =>
        let put := db.setEntries table.id index.id
          ((db.entries table.id index.id).insert found.key (Schema.primaryKeyOf table row))
        if index.unique && index.deferrable && index.distinguishes found.values then
          match verifyUnique schema table index found.values put with
          | .error error => .error error
          | .ok () => writeEntries table row rest put
        else if found.byValue &&
            ((db.entries table.id index.id).lookup found.key).isSome then
          .error (.uniqueViolation (some index.id))
        else writeEntries table row rest put

def writeRow (table : TableDef V) (row : Row V) (db : Database V C) :
    Except SqlError (Database V C) :=
  if ((db.rows table.id).lookup (schema.rowKey table row)).isSome then
    .error (.uniqueViolation none)
  else
    match checkReferences schema row db table.foreignKeys with
    | .error error => .error error
    | .ok () =>
      match writeEntries schema table row table.indexes db with
      | .error error => .error error
      | .ok after =>
        .ok (after.setRows table.id
          ((after.rows table.id).insert (schema.rowKey table row) row))

def rewriteRow (table : TableDef V) (old new : Row V) (db : Database V C) :
    Except SqlError (Database V C) :=
  if !table.allows new then .error .checkViolation
  else
    match removeRow schema table old db with
    | .error error => .error error
    | .ok removed => writeRow schema table new removed

/-! ## Foreign-key actions -/

def childrenOf (table : TableDef V) : List (TableDef V × ForeignKeyDef) :=
  schema.tables.flatMap fun child =>
    (child.foreignKeys.filter fun key => decide (key.parent = table.id)).map fun key => (child, key)

variable (db : Database V C)

/-- `referencing_rows`: a scan of the child, in key order. -/
def referencingRows (child : TableDef V) (key : ForeignKeyDef)
    (values : List (Option V)) : List (Row V) :=
  ((db.rows child.id).entries.map Prod.snd).filter fun row =>
    match keyOf key.columns row with
    | none => false
    | some referencing => decide (schema.encode referencing = schema.encode values)

/-- `written_by`: what SET NULL and SET DEFAULT put into the referencing columns. -/
def writtenBy (child : TableDef V) (key : ForeignKeyDef) :
    ReferentialAction → Option (List (Option V))
  | .setNull => some (key.columns.map fun _ => none)
  | .setDefault => some (pick key.columns child.defaults)
  | _ => none

def assign (ordinals : List Nat) (values : List (Option V)) (row : Row V) : Row V :=
  (ordinals.zip values).foldl (fun row each => row.set each.1 each.2) row

def maxCascadeDepth : Nat := 32

/-- `cascade_delete`, with the levels that are left. -/
def cascadeDelete : Nat → TableDef V → Row V → Database V C → Except SqlError (Database V C)
  | 0, _, _, _ => .error (.internal "a foreign-key CASCADE is too deep")
  | left + 1, table, row, db =>
    (childrenOf schema table).foldlM
      (fun db each =>
        let (child, key) := each
        match keyOf key.parentColumns row with
        | none => .ok db
        | some values =>
          let referencing := referencingRows schema db child key values
          if referencing.isEmpty then .ok db
          else if key.onDelete.refuses then .error (.foreignKeyStillReferenced child.id)
          else
            match writtenBy child key key.onDelete with
            | some written =>
              referencing.foldlM
                (fun db old => rewriteRow schema child old (assign key.columns written old) db)
                db
            | none =>
              referencing.foldlM
                (fun db childRow =>
                  match cascadeDelete left child childRow db with
                  | .error error => .error error
                  | .ok cascaded => removeRow schema child childRow cascaded)
                db)
      db

/-- `moved`: the key a constraint watched before an update that moved it. -/
def moved (key : ForeignKeyDef) (old new : Row V) : Option (List (Option V)) :=
  match keyOf key.parentColumns old with
  | none => none
  | some before => if keyOf key.parentColumns new = some before then none else some before

def refuseIfReferenced (old new : Row V) (db : Database V C) :
    List (TableDef V × ForeignKeyDef) → Except SqlError Unit
  | [] => .ok ()
  | (child, key) :: rest =>
    if !key.onUpdate.refuses then refuseIfReferenced old new db rest
    else
      match moved key old new with
      | none => refuseIfReferenced old new db rest
      | some before =>
        if (referencingRows schema db child key before).isEmpty then
          refuseIfReferenced old new db rest
        else .error (.foreignKeyStillReferenced child.id)

def cascadeUpdate (table : TableDef V) (old new : Row V) (db : Database V C) :
    Except SqlError (Database V C) :=
  (childrenOf schema table).foldlM
    (fun db each =>
      let (child, key) := each
      if key.onUpdate.refuses then .ok db
      else
        match moved key old new with
        | none => .ok db
        | some before =>
          let after := (writtenBy child key key.onUpdate).getD
            ((keyOf key.parentColumns new).getD [])
          (referencingRows schema db child key before).foldlM
            (fun db oldChild =>
              rewriteRow schema child oldChild (assign key.columns after oldChild) db)
            db)
    db

/-! ## Statements -/

inductive Statement (V : Type) where
  | insert (table : TableDef V) (rows : List (Row V))
  | update (table : TableDef V) (filter : Row V → Bool) (set : Row V → Except SqlError (Row V))
  | delete (table : TableDef V) (filter : Row V → Bool)

/-- The rows a statement will change, before it changes the first. -/
def collect (table : TableDef V) (filter : Row V → Bool) : List (Row V) :=
  ((db.rows table.id).entries.map Prod.snd).filter filter

def insertRow (table : TableDef V) (db : Database V C) (row : Row V) :
    Except SqlError (Database V C) :=
  if !table.allows row then .error .checkViolation else writeRow schema table row db

def updateRow (table : TableDef V) (set : Row V → Except SqlError (Row V)) (db : Database V C)
    (old : Row V) : Except SqlError (Database V C) :=
  match set old with
  | .error error => .error error
  | .ok new =>
    if !table.allows new then .error .checkViolation
    else
      match refuseIfReferenced schema old new db (childrenOf schema table) with
      | .error error => .error error
      | .ok () =>
        match removeRow schema table old db with
        | .error error => .error error
        | .ok removed =>
          match writeRow schema table new removed with
          | .error error => .error error
          | .ok written => cascadeUpdate schema table old new written

def deleteRow (table : TableDef V) (db : Database V C) (row : Row V) :
    Except SqlError (Database V C) :=
  match cascadeDelete schema (maxCascadeDepth + 1) table row db with
  | .error error => .error error
  | .ok cascaded => removeRow schema table row cascaded

def execute : Statement V → Except SqlError (Database V C)
  | .insert table rows => rows.foldlM (insertRow schema table) db
  | .update table filter set => (collect db table filter).foldlM (updateRow schema table set) db
  | .delete table filter => (collect db table filter).foldlM (deleteRow schema table) db

def executeAll (statements : List (Statement V)) : Except SqlError (Database V C) :=
  statements.foldlM (execute schema) db

/-! ## The entries of an index are those of its rows -/

/-- Every maintained index holds one entry for each row it admits, and no other. -/
structure Indexed (db : Database V C) : Prop where
  filed : ∀ table ∈ schema.tables, ∀ key row, (key, row) ∈ db.rows table.id →
    key = schema.rowKey table row
  complete : ∀ table ∈ schema.tables, ∀ index ∈ table.indexes, index.state.maintained = true →
    ∀ key row found, (key, row) ∈ db.rows table.id →
      entry schema table index row = .ok (some found) →
      (found.key, Schema.primaryKeyOf table row) ∈ db.entries table.id index.id
  sound : ∀ table ∈ schema.tables, ∀ index ∈ table.indexes, index.state.maintained = true →
    ∀ at_ primaryKey, (at_, primaryKey) ∈ db.entries table.id index.id →
      ∃ key row found, (key, row) ∈ db.rows table.id ∧
        entry schema table index row = .ok (some found) ∧ found.key = at_ ∧
        Schema.primaryKeyOf table row = primaryKey

variable {schema} {db after : Database V C} {row old new : Row V} {indexes : List (IndexDef V)}

omit [DecidableEq V] in
theorem Indexed.owner_unique (indexed : Indexed schema db) {table : TableDef V}
    (isTable : table ∈ schema.tables) {index : IndexDef V} (isIndex : index ∈ table.indexes)
    (maintained : index.state.maintained = true) {key other : Key C} {another : Row V}
    {found held : Entry V C} (stored : (key, row) ∈ db.rows table.id)
    (alsoStored : (other, another) ∈ db.rows table.id)
    (has : entry schema table index row = .ok (some found))
    (alsoHas : entry schema table index another = .ok (some held)) (same : held.key = found.key) :
    other = key ∧ another = row := by
  have first := indexed.complete table isTable index isIndex maintained key row found stored has
  have second := indexed.complete table isTable index isIndex maintained other another held
    alsoStored alsoHas
  rw [same] at second
  have samePrimary := value_unique second first
  have sameKey : other = key := by
    rw [indexed.filed table isTable other another alsoStored,
      indexed.filed table isTable key row stored, Schema.rowKey, Schema.rowKey, samePrimary]
  subst sameKey
  exact ⟨rfl, value_unique alsoStored stored⟩

/-! ## What one write does -/

variable (schema) in
/-- The entries of an index lose the row's entry, if the row has one. -/
def Loses (table : TableDef V) (index : IndexDef V) (row : Row V)
    (before after : SortedMap (EntryKey C) (List (Option V))) : Prop :=
  (entry schema table index row = .ok none ∧ after = before) ∨
    ∃ found, entry schema table index row = .ok (some found) ∧ after = before.erase found.key

variable (schema) in
/-- The entries of an index gain the row's entry, in a place that was free if the values
alone are the key. -/
def Gains (table : TableDef V) (index : IndexDef V) (row : Row V)
    (before after : SortedMap (EntryKey C) (List (Option V))) : Prop :=
  (entry schema table index row = .ok none ∧ after = before) ∨
    ∃ found, entry schema table index row = .ok (some found) ∧
      after = before.insert found.key (Schema.primaryKeyOf table row) ∧
      (found.byValue = true → before.lookup found.key = none)

/-- A walk over indexes of a table: it changes the entries of these alone, each in one step. -/
structure Walked (table : Nat) (effect : IndexDef V → SortedMap (EntryKey C) (List (Option V)) →
    SortedMap (EntryKey C) (List (Option V)) → Prop) (indexes : List (IndexDef V))
    (db after : Database V C) : Prop where
  rows : after.rows = db.rows
  stale : after.stale = db.stale
  others : ∀ other another, (other = table → ∀ index ∈ indexes, another ≠ index.id) →
    after.entries other another = db.entries other another
  each : ∀ index ∈ indexes, effect index (db.entries table index.id) (after.entries table index.id)

section Walked

variable {table : Nat} {index : IndexDef V} {effect : IndexDef V →
  SortedMap (EntryKey C) (List (Option V)) → SortedMap (EntryKey C) (List (Option V)) → Prop}
  {entries : SortedMap (EntryKey C) (List (Option V))}

omit [DecidableEq V]

theorem Walked.nil : Walked table effect [] db db :=
  ⟨rfl, rfl, fun _ _ _ => rfl, fun _ mem => absurd mem List.not_mem_nil⟩

theorem Walked.cons (walked : Walked table effect indexes (db.setEntries table index.id entries) after)
    (apart : ∀ later ∈ indexes, index.id ≠ later.id)
    (step : effect index (db.entries table index.id) entries) :
    Walked table effect (index :: indexes) db after where
  rows := walked.rows
  stale := walked.stale
  others other another away := by
    rw [walked.others _ _ fun isTable later mem => away isTable later (.tail _ mem),
      Database.setEntries_other]
    rintro ⟨isTable, isIndex⟩
    exact away isTable index (.head _) isIndex
  each later mem := by
    rcases List.mem_cons.mp mem with rfl | mem
    · rw [walked.others _ _ fun _ => apart, Database.setEntries_same]
      exact step
    · have spec := walked.each later mem
      rwa [Database.setEntries_other _ _ fun same => apart later mem same.2.symm] at spec

theorem Walked.skip (walked : Walked table effect indexes db after)
    (apart : ∀ later ∈ indexes, index.id ≠ later.id)
    (step : effect index (db.entries table index.id) (db.entries table index.id)) :
    Walked table effect (index :: indexes) db after :=
  Walked.cons (by rwa [Database.setEntries_self]) apart step

end Walked

section

variable (ids : indexes.Pairwise fun left right => left.id ≠ right.id)
include ids

omit [DecidableEq V] in
theorem removeEntries_walked {table : TableDef V}
    (removed : removeEntries schema table row indexes db = .ok after) :
    Walked table.id (fun index before after => index.state.maintained = true →
      Loses schema table index row before after) indexes db after := by
  induction indexes generalizing db with
  | nil =>
    cases removed
    exact .nil
  | cons index rest ih =>
    obtain ⟨apart, ids⟩ := List.pairwise_cons.mp ids
    rw [removeEntries] at removed
    split at removed
    · rename_i skipped
      exact (ih ids removed).skip apart fun maintained => by simp [maintained] at skipped
    split at removed
    · cases removed
    · rename_i has
      exact (ih ids removed).skip apart fun _ => .inl ⟨has, rfl⟩
    · rename_i found has
      exact (ih ids removed).cons apart fun _ => .inr ⟨found, has, rfl⟩

omit [DecidableEq V] in
theorem writeEntries_walked {table : TableDef V}
    (written : writeEntries schema table row indexes db = .ok after) :
    Walked table.id (fun index before after => index.state.written = true →
      Gains schema table index row before after) indexes db after := by
  induction indexes generalizing db with
  | nil =>
    cases written
    exact .nil
  | cons index rest ih =>
    obtain ⟨apart, ids⟩ := List.pairwise_cons.mp ids
    rw [writeEntries] at written
    split at written
    · rename_i skipped
      exact (ih ids written).skip apart fun isWritten => by simp [isWritten] at skipped
    split at written
    · cases written
    · rename_i has
      exact (ih ids written).skip apart fun _ => .inl ⟨has, rfl⟩
    rename_i found has
    dsimp only at written
    split at written <;> rename_i checked
    · split at written
      · cases written
      refine (ih ids written).cons apart fun _ => .inr ⟨found, has, rfl, fun byValue => ?_⟩
      rw [Bool.and_eq_true, Bool.and_eq_true] at checked
      rw [(entry_eq_some has).2, IndexDef.byValue, checked.1.2] at byValue
      rw [Bool.not_true, Bool.and_false, Bool.false_and] at byValue
      cases byValue
    · split at written
      · cases written
      rename_i free
      refine (ih ids written).cons apart fun _ => .inr ⟨found, has, rfl, fun byValue => ?_⟩
      rw [byValue, Bool.true_and, Bool.not_eq_true, Option.isSome_eq_false_iff,
        Option.isNone_iff_eq_none] at free
      exact free

end

/-! ## One row -/

omit [LinearOrder C] [DecidableEq V] in
theorem Schema.table_unique {table other : TableDef V} (isTable : table ∈ schema.tables)
    (isOther : other ∈ schema.tables) (same : other.id = table.id) : other = table := by
  by_contra differs
  have symmetric : Std.Symm fun left right : TableDef V => left.id ≠ right.id :=
    ⟨fun _ _ apart => apart.symm⟩
  exact schema.tableIds.forall isOther isTable differs same

omit [DecidableEq V] in
theorem Indexed.remove (indexed : Indexed schema db) {table : TableDef V}
    (isTable : table ∈ schema.tables) {key : Key C} (stored : (key, row) ∈ db.rows table.id)
    (rows : after.rows = update db.rows table.id ((db.rows table.id).erase key))
    (others : ∀ other another, other ≠ table.id →
      after.entries other another = db.entries other another)
    (loses : ∀ index ∈ table.indexes, index.state.maintained = true →
      Loses schema table index row (db.entries table.id index.id)
        (after.entries table.id index.id)) : Indexed schema after := by
  have here : ∀ {at_ : Key C} {held : Row V}, (at_, held) ∈ after.rows table.id ↔
      at_ ≠ key ∧ (at_, held) ∈ db.rows table.id := by
    intro at_ held
    rw [rows, update_self, mem_erase]
  have elsewhere : ∀ {other : Nat}, other ≠ table.id → after.rows other = db.rows other := by
    intro other differs
    rw [rows, update_of_ne differs]
  constructor
  case filed =>
    intro other isOther at_ held mem
    by_cases same : other.id = table.id
    · rw [same] at mem
      apply indexed.filed other isOther at_ held
      rw [same]
      exact (here.mp mem).2
    · rw [elsewhere same] at mem
      exact indexed.filed other isOther at_ held mem
  case complete =>
    intro other isOther index isIndex maintained at_ held has mem owns
    by_cases same : other.id = table.id
    · obtain rfl := schema.table_unique isTable isOther same
      obtain ⟨differs, mem⟩ := here.mp mem
      have entered := indexed.complete other isOther index isIndex maintained at_ held has mem owns
      rcases loses index isIndex maintained with ⟨_, unchanged⟩ | ⟨found, isFound, erased⟩
      · rw [unchanged]
        exact entered
      rw [erased, mem_erase]
      refine ⟨fun sameEntry => ?_, entered⟩
      exact differs (indexed.owner_unique isOther isIndex maintained stored mem isFound owns
        sameEntry).1
    · rw [elsewhere same] at mem
      rw [others _ _ same]
      exact indexed.complete other isOther index isIndex maintained at_ held has mem owns
  case sound =>
    intro other isOther index isIndex maintained at_ primaryKey mem
    by_cases same : other.id = table.id
    · obtain rfl := schema.table_unique isTable isOther same
      -- An entry that is left belongs to a row that is left.
      have survives : (at_, primaryKey) ∈ db.entries other.id index.id ∧
          ∀ found, entry schema other index row = .ok (some found) → found.key ≠ at_ := by
        rcases loses index isIndex maintained with ⟨isNone, unchanged⟩ | ⟨found, isFound, erased⟩
        · rw [unchanged] at mem
          refine ⟨mem, fun found isFound => ?_⟩
          rw [isNone] at isFound
          cases isFound
        · rw [erased, mem_erase] at mem
          refine ⟨mem.2, fun another isAnother => ?_⟩
          rw [isFound] at isAnother
          cases isAnother
          exact mem.1.symm
      obtain ⟨holder, held, found, holds, owns, isKey, isPrimary⟩ :=
        indexed.sound other isOther index isIndex maintained at_ primaryKey survives.1
      refine ⟨holder, held, found, here.mpr ⟨fun isRemoved => ?_, holds⟩, owns, isKey, isPrimary⟩
      subst isRemoved
      rw [value_unique holds stored] at owns
      exact survives.2 found owns isKey
    · rw [others _ _ same] at mem
      rw [elsewhere same]
      exact indexed.sound other isOther index isIndex maintained at_ primaryKey mem

omit [DecidableEq V] in
theorem Indexed.write {db after : Database V C} (indexed : Indexed schema db)
    {table : TableDef V} (isTable : table ∈ schema.tables) {row : Row V}
    (absent : (db.rows table.id).lookup (schema.rowKey table row) = none)
    (rows : after.rows = update db.rows table.id
      ((db.rows table.id).insert (schema.rowKey table row) row))
    (others : ∀ other another, other ≠ table.id →
      after.entries other another = db.entries other another)
    (gains : ∀ index ∈ table.indexes, index.state.maintained = true →
      Gains schema table index row (db.entries table.id index.id)
        (after.entries table.id index.id)) :
    Indexed schema after := by
  have here : ∀ {at_ : Key C} {held : Row V}, (at_, held) ∈ after.rows table.id ↔
      (at_ = schema.rowKey table row ∧ held = row) ∨
        (at_ ≠ schema.rowKey table row ∧ (at_, held) ∈ db.rows table.id) := by
    intro at_ held
    rw [rows, update_self, mem_insert]
  have elsewhere : ∀ {other : Nat}, other ≠ table.id → after.rows other = db.rows other := by
    intro other differs
    rw [rows, update_of_ne differs]
  have fresh : ∀ {at_ : Key C} {held : Row V}, (at_, held) ∈ db.rows table.id →
      at_ ≠ schema.rowKey table row := by
    intro at_ held mem isKey
    rw [isKey] at mem
    exact lookup_eq_none_iff.mp absent held mem
  constructor
  case filed =>
    intro other isOther at_ held mem
    by_cases same : other.id = table.id
    · obtain rfl := schema.table_unique isTable isOther same
      rcases here.mp mem with ⟨isKey, isRow⟩ | ⟨_, mem⟩
      · rw [isRow]
        exact isKey
      · exact indexed.filed other isOther at_ held mem
    · rw [elsewhere same] at mem
      exact indexed.filed other isOther at_ held mem
  case complete =>
    intro other isOther index isIndex maintained at_ held has mem owns
    by_cases same : other.id = table.id
    · obtain rfl := schema.table_unique isTable isOther same
      rcases here.mp mem with ⟨_, isRow⟩ | ⟨differs, mem⟩
      · subst isRow
        rcases gains index isIndex maintained with ⟨isNone, _⟩ | ⟨found, isFound, inserted, _⟩
        · rw [isNone] at owns
          cases owns
        rw [isFound] at owns
        cases owns
        rw [inserted, mem_insert]
        exact .inl ⟨rfl, rfl⟩
      · have entered := indexed.complete other isOther index isIndex maintained at_ held has mem
          owns
        rcases gains index isIndex maintained with
          ⟨_, unchanged⟩ | ⟨found, isFound, inserted, free⟩
        · rw [unchanged]
          exact entered
        rw [inserted, mem_insert]
        refine .inr ⟨fun sameEntry => ?_, entered⟩
        -- A place taken by value was free; any other place names the row's own key.
        cases byValue : found.byValue with
        | true =>
          rw [sameEntry] at entered
          exact lookup_eq_none_iff.mp (free byValue) _ entered
        | false =>
          have sameRow := rowKey_eq_of_suffix isFound owns sameEntry byValue
          rw [indexed.filed other isOther at_ held mem] at differs
          exact differs sameRow
    · rw [elsewhere same] at mem
      rw [others _ _ same]
      exact indexed.complete other isOther index isIndex maintained at_ held has mem owns
  case sound =>
    intro other isOther index isIndex maintained at_ primaryKey mem
    by_cases same : other.id = table.id
    · obtain rfl := schema.table_unique isTable isOther same
      have earlier : (at_, primaryKey) ∈ db.entries other.id index.id →
          ∃ key held found, (key, held) ∈ after.rows other.id ∧
            entry schema other index held = .ok (some found) ∧ found.key = at_ ∧
            Schema.primaryKeyOf other held = primaryKey := by
        intro entered
        obtain ⟨key, held, found, holds, rest⟩ :=
          indexed.sound other isOther index isIndex maintained at_ primaryKey entered
        exact ⟨key, held, found, here.mpr (.inr ⟨fresh holds, holds⟩), rest⟩
      rcases gains index isIndex maintained with ⟨_, unchanged⟩ | ⟨found, isFound, inserted, _⟩
      · rw [unchanged] at mem
        exact earlier mem
      rw [inserted, mem_insert] at mem
      rcases mem with ⟨isKey, isPrimary⟩ | ⟨_, mem⟩
      · exact ⟨_, row, found, here.mpr (.inl ⟨rfl, rfl⟩), isFound, isKey.symm, isPrimary.symm⟩
      · exact earlier mem
    · rw [others _ _ same] at mem
      rw [elsewhere same]
      exact indexed.sound other isOther index isIndex maintained at_ primaryKey mem

/-! ## Statements keep the entries -/

variable (schema) in
/-- What every write keeps, as long as no write removes a row that is no longer stored. -/
def Sound (db : Database V C) : Prop := db.stale = true ∨ Indexed schema db

def Schema.Ready (schema : Schema V C) : Prop :=
  ∀ table ∈ schema.tables, ∀ index ∈ table.indexes, index.state.maintained = true →
    index.state.written = true

theorem removeRow_sound {table : TableDef V} (isTable : table ∈ schema.tables)
    (sound : Sound schema db) (removed : removeRow schema table row db = .ok after) :
    Sound schema after := by
  rw [removeRow] at removed
  split at removed
  · cases removed
  rename_i middle entries
  cases removed
  obtain ⟨rows, stale, others, loses⟩ := removeEntries_walked table.indexIds entries
  by_cases stored : (db.rows table.id).lookup (schema.rowKey table row) = some row
  · rcases sound with already | indexed
    · apply Or.inl
      dsimp only [Database.setRows]
      rw [stale, already, Bool.true_or]
    apply Or.inr
    apply indexed.remove isTable (lookup_eq_some_iff.mp stored)
    · dsimp only [Database.setRows]
      rw [rows]
    · intro other another differs
      exact others other another fun same => absurd same differs
    · intro index isIndex maintained
      exact loses index isIndex maintained
  · apply Or.inl
    dsimp only [Database.setRows]
    rw [stale, decide_eq_true stored, Bool.or_true]

section

variable (ready : schema.Ready)
include ready

omit [DecidableEq V] in
theorem writeRow_sound {table : TableDef V} (isTable : table ∈ schema.tables)
    (sound : Sound schema db) (wrote : writeRow schema table row db = .ok after) :
    Sound schema after := by
  rw [writeRow] at wrote
  split at wrote
  · cases wrote
  rename_i absent
  split at wrote
  · cases wrote
  split at wrote
  · cases wrote
  rename_i middle entries
  cases wrote
  obtain ⟨rows, stale, others, gains⟩ := writeEntries_walked table.indexIds entries
  rcases sound with already | indexed
  · exact Or.inl (stale.trans already)
  apply Or.inr
  rw [Bool.not_eq_true, Option.isSome_eq_false_iff, Option.isNone_iff_eq_none] at absent
  apply indexed.write isTable absent
  · dsimp only [Database.setRows]
    rw [rows]
  · intro other another differs
    exact others other another fun same => absurd same differs
  · intro index isIndex maintained
    exact gains index isIndex (ready table isTable index isIndex maintained)

theorem rewriteRow_sound {table : TableDef V}
    (isTable : table ∈ schema.tables) (sound : Sound schema db)
    (rewrote : rewriteRow schema table old new db = .ok after) : Sound schema after := by
  rw [rewriteRow] at rewrote
  split at rewrote
  · cases rewrote
  split at rewrote
  · cases rewrote
  · rename_i middle removed
    exact writeRow_sound ready isTable (removeRow_sound isTable sound removed) rewrote

omit ready in
omit [LinearOrder C] [DecidableEq V] in
theorem foldlM_keeps {α β ε : Type} {step : β → α → Except ε β} {keeps : β → Prop}
    {elements : List α} {start final : β}
    (steps : ∀ element ∈ elements, ∀ before after, keeps before →
      step before element = .ok after → keeps after)
    (holds : keeps start) (folded : elements.foldlM step start = .ok final) : keeps final := by
  induction elements generalizing start with
  | nil =>
    cases folded
    exact holds
  | cons element rest ih =>
    rw [List.foldlM_cons] at folded
    cases stepped : step start element with
    | error error =>
      rw [stepped] at folded
      cases folded
    | ok middle =>
      rw [stepped] at folded
      apply ih _ _ folded
      · exact fun each mem => steps each (List.mem_cons_of_mem _ mem)
      · exact steps element List.mem_cons_self start middle holds stepped

omit ready in
omit [LinearOrder C] [DecidableEq V] in
theorem childrenOf_mem {table : TableDef V} {child : TableDef V} {key : ForeignKeyDef}
    (mem : (child, key) ∈ childrenOf schema table) : child ∈ schema.tables := by
  rw [childrenOf, List.mem_flatMap] at mem
  obtain ⟨owner, isTable, mem⟩ := mem
  obtain ⟨_, _, same⟩ := List.mem_map.mp mem
  cases same
  exact isTable

theorem cascadeDelete_sound {levels : Nat} {table : TableDef V}
    (sound : Sound schema db) (cascaded : cascadeDelete schema levels table row db = .ok after) :
    Sound schema after := by
  induction levels generalizing table row db after with
  | zero => cases cascaded
  | succ left ih =>
    rw [cascadeDelete] at cascaded
    apply foldlM_keeps _ sound cascaded
    rintro ⟨child, key⟩ isChild before later holds stepped
    have isTable := childrenOf_mem isChild
    dsimp only at stepped
    split at stepped
    · cases stepped
      exact holds
    split at stepped
    · cases stepped
      exact holds
    split at stepped
    · cases stepped
    split at stepped
    · apply foldlM_keeps _ holds stepped
      intro old _ start next startHolds rewrote
      exact rewriteRow_sound ready isTable startHolds rewrote
    apply foldlM_keeps _ holds stepped
    intro childRow _ start next startHolds deleted
    split at deleted
    · cases deleted
    · rename_i deeper
      exact removeRow_sound isTable (ih startHolds deeper) deleted

theorem cascadeUpdate_sound {table : TableDef V} (sound : Sound schema db)
    (cascaded : cascadeUpdate schema table old new db = .ok after) : Sound schema after := by
  rw [cascadeUpdate] at cascaded
  apply foldlM_keeps _ sound cascaded
  rintro ⟨child, key⟩ isChild before later holds stepped
  dsimp only at stepped
  split at stepped
  · cases stepped
    exact holds
  split at stepped
  · cases stepped
    exact holds
  apply foldlM_keeps _ holds stepped
  intro oldChild _ start next startHolds rewrote
  exact rewriteRow_sound ready (childrenOf_mem isChild) startHolds rewrote

def Statement.table : Statement V → TableDef V
  | .insert table _ => table
  | .update table _ _ => table
  | .delete table _ => table

theorem execute_sound {statement : Statement V}
    (isTable : statement.table ∈ schema.tables) (sound : Sound schema db)
    (executed : execute schema db statement = .ok after) : Sound schema after := by
  cases statement with
  | insert table rows =>
    apply foldlM_keeps _ sound executed
    intro row _ before later holds inserted
    rw [insertRow] at inserted
    split at inserted
    · cases inserted
    · exact writeRow_sound ready isTable holds inserted
  | update table filter set =>
    apply foldlM_keeps _ sound executed
    intro old _ before later holds updated
    rw [updateRow] at updated
    split at updated
    · cases updated
    split at updated
    · cases updated
    split at updated
    · cases updated
    split at updated
    · cases updated
    rename_i removed
    split at updated
    · cases updated
    rename_i wrote
    have rewritten := writeRow_sound ready isTable (removeRow_sound isTable holds removed) wrote
    exact cascadeUpdate_sound ready rewritten updated
  | delete table filter =>
    apply foldlM_keeps _ sound executed
    intro row _ before later holds deleted
    rw [deleteRow] at deleted
    split at deleted
    · cases deleted
    · rename_i cascaded
      exact removeRow_sound isTable (cascadeDelete_sound ready holds cascaded) deleted

end

/-- A transaction that succeeds, and removes no row after it has changed, leaves every index
with the entries of its rows. -/
theorem writes_keep_indexes (ready : schema.Ready) {statements : List (Statement V)}
    (named : ∀ statement ∈ statements, statement.table ∈ schema.tables)
    {db after : Database V C} (indexed : Indexed schema db)
    (executed : executeAll schema db statements = .ok after) (current : after.stale = false) :
    Indexed schema after := by
  have sound : Sound schema after := by
    have start : Sound schema db := .inr indexed
    rw [executeAll] at executed
    apply foldlM_keeps _ start executed
    intro statement member before later holds stepped
    exact execute_sound ready (named statement member) holds stepped
  rcases sound with stale | indexed
  · rw [current] at stale
    cases stale
  · exact indexed

/-! ## A table that points at itself -/

/-- Rows `(id, parent)` with an index on the parent, which a deletion sets to NULL. -/
def treeTable : TableDef Nat where
  id := 1
  primaryKey := [0]
  defaults := [none, none]
  indexes :=
    [{ id := 7
       unique := false
       deferrable := false
       nullsNotDistinct := false
       state := .published
       keyColumns := some [1]
       admits := fun _ => .ok true
       keyValues := fun row => .ok (pick [1] row) }]
  foreignKeys := [⟨[1], 1, [0], .setNull, .noAction⟩]
  allows _ := true
  indexIds := List.pairwise_singleton _ _

def treeSchema : Schema Nat Nat where
  code value := value
  tables := [treeTable]
  tableIds := List.pairwise_singleton _ _

def emptyDatabase : Database Nat Nat := ⟨fun _ => SortedMap.empty, fun _ _ => SortedMap.empty, false⟩

def treeInsert : Statement Nat := .insert treeTable [[some 1, none], [some 2, some 1]]

theorem treeSchema_ready : treeSchema.Ready := by
  intro table isTable index isIndex _
  rw [List.mem_singleton.mp isTable] at isIndex
  rw [List.mem_singleton.mp isIndex]
  rfl

theorem emptyDatabase_indexed : Indexed treeSchema emptyDatabase where
  filed _ _ _ _ mem := absurd mem (not_mem_empty _)
  complete _ _ _ _ _ _ _ _ mem := absurd mem (not_mem_empty _)
  sound _ _ _ _ _ _ _ mem := absurd mem (not_mem_empty _)

/-- What the statements leave of an empty database: rows, entries of the parent index, and
whether a row was stale. -/
def leaves (statements : List (Statement Nat)) : Option (List (Key Nat × Row Nat) ×
      List ((Key Nat × WithBot (Key Nat)) × List (Option Nat)) × Bool) :=
  match executeAll treeSchema emptyDatabase statements with
  | .error _ => none
  | .ok db =>
    some ((db.rows 1).entries, (db.entries 1 7).entries.map fun held => (ofLex held.1, held.2),
      db.stale)

def treeKey (id : Nat) : Key Nat := [(id : WithTop Nat)]

/-- The entry of the row with the id under the NULL parent. -/
def rootEntry (id : Nat) : (Key Nat × WithBot (Key Nat)) × List (Option Nat) :=
  (([⊤], (treeKey id : WithBot (Key Nat))), [some id])

/-- Deleting root and child at once: the child is rewritten under NULL before the statement
reaches it, and then removed as it was. Its new entry stays, with no row. -/
theorem cascaded_entry_left_behind : Indexed treeSchema emptyDatabase ∧
      leaves [treeInsert, .delete treeTable fun _ => true] =
        some ([], [rootEntry 2], true) :=
  ⟨emptyDatabase_indexed, by rfl⟩

end Esker.Sql
