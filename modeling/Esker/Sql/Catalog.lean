import Esker.SortedMap

/-!
Contract: tables, their indexes and their foreign keys, and one row's place in one index
(`esker-sql/src/exec/index.rs`, `esker-sql/src/catalog`).

Owns: what a table declares, the key of a row, the entry a row has in an index, and which
states of an index are maintained, written and read.
-/

namespace Esker.Sql

/-- A row of a table: one value for each column, `none` for NULL. -/
abbrev Row (V : Type) := List (Option V)

/-- What is stored for values in a key. Values that compare equal have one code, and NULL
sorts last. -/
abbrev Key (C : Type) := List (WithTop C)

/-- An entry's key: the code of its values and, where the values alone do not identify the
entry, the code of the row's primary key. -/
abbrev EntryKey (C : Type) := Key C ×ₗ WithBot (Key C)

inductive SchemaState where
  | absent
  | deleteOnly
  | writeOnly
  | published
deriving DecidableEq, Repr

namespace SchemaState

/-- Whether a writer removes the entries of rows it removes. -/
def maintained : SchemaState → Bool
  | .absent => false
  | _ => true

def written : SchemaState → Bool
  | .writeOnly | .published => true
  | _ => false

theorem maintained_of_written {state : SchemaState} (written : state.written = true) :
    state.maintained = true := by
  cases state with
  | absent => cases written
  | deleteOnly => rfl
  | writeOnly => rfl
  | published => rfl

end SchemaState

inductive SqlError where
  | uniqueViolation (index : Option Nat)
  | couldNotCreateUniqueIndex (index : Nat)
  | foreignKeyViolation (parent : Nat)
  | foreignKeyStillReferenced (child : Nat)
  | checkViolation
  | internal (text : String)
deriving DecidableEq, Repr

/-- An index. The predicate and the key parts are stored expressions, which can fail. -/
structure IndexDef (V : Type) where
  id : Nat
  unique : Bool
  deferrable : Bool
  nullsNotDistinct : Bool
  state : SchemaState
  /-- The columns of the key, for an index with no predicate whose key parts are columns. -/
  keyColumns : Option (List Nat)
  admits : Row V → Except SqlError Bool
  keyValues : Row V → Except SqlError (List (Option V))

inductive ReferentialAction where
  | noAction
  | restrict
  | cascade
  | setNull
  | setDefault
deriving DecidableEq, Repr

def ReferentialAction.refuses : ReferentialAction → Bool
  | .noAction | .restrict => true
  | _ => false

structure ForeignKeyDef where
  columns : List Nat
  parent : Nat
  parentColumns : List Nat
  onDelete : ReferentialAction
  onUpdate : ReferentialAction
deriving DecidableEq, Repr

structure TableDef (V : Type) where
  id : Nat
  primaryKey : List Nat
  /-- The value of each column's `DEFAULT`. -/
  defaults : List (Option V)
  indexes : List (IndexDef V)
  foreignKeys : List ForeignKeyDef
  /-- The `NOT NULL` and `CHECK` constraints. -/
  allows : Row V → Bool
  indexIds : indexes.Pairwise fun left right => left.id ≠ right.id

structure Schema (V C : Type) where
  code : V → C
  tables : List (TableDef V)
  tableIds : tables.Pairwise fun left right => left.id ≠ right.id

variable {V C : Type}

def pick (ordinals : List Nat) (row : Row V) : List (Option V) :=
  ordinals.map fun ordinal => (row[ordinal]?).join

namespace Schema

variable (schema : Schema V C)

def encode (values : List (Option V)) : Key C :=
  values.map fun value =>
    match value with
    | some value => ((schema.code value : C) : WithTop C)
    | none => ⊤

def primaryKeyOf (table : TableDef V) (row : Row V) : List (Option V) := pick table.primaryKey row

def rowKey (table : TableDef V) (row : Row V) : Key C :=
  schema.encode (primaryKeyOf table row)

end Schema

structure Entry (V C : Type) where
  key : EntryKey C
  values : List (Option V)
  byValue : Bool

/-- Two equal values are one duplicate, unless a NULL keeps them apart. -/
def IndexDef.distinguishes (index : IndexDef V) (values : List (Option V)) : Bool :=
  index.nullsNotDistinct || values.all Option.isSome

def IndexDef.byValue (index : IndexDef V) (values : List (Option V)) : Bool :=
  index.unique && !index.deferrable && index.distinguishes values

/-- `index_key`: with the primary key behind the values, or without it. -/
def Schema.entryKey (schema : Schema V C) (values primaryKey : List (Option V)) (byValue : Bool) :
    EntryKey C :=
  toLex (schema.encode values,
    if byValue then ⊥ else ((schema.encode primaryKey : Key C) : WithBot (Key C)))

/-- The entry the row has in the index, or none when the index excludes it. -/
def entry (schema : Schema V C) (table : TableDef V) (index : IndexDef V) (row : Row V) :
    Except SqlError (Option (Entry V C)) :=
  match index.admits row with
  | .error error => .error error
  | .ok false => .ok none
  | .ok true =>
    match index.keyValues row with
    | .error error => .error error
    | .ok values =>
      .ok (some
        { key := schema.entryKey values (Schema.primaryKeyOf table row) (index.byValue values)
          values
          byValue := index.byValue values })

variable {schema : Schema V C} {table : TableDef V} {index : IndexDef V} {row : Row V}
  {found : Entry V C}

theorem entry_eq_some (has : entry schema table index row = .ok (some found)) :
    found.key = schema.entryKey found.values (Schema.primaryKeyOf table row) found.byValue ∧
      found.byValue = index.byValue found.values := by
  rw [entry] at has
  split at has
  · cases has
  · cases has
  split at has
  · cases has
  · cases has
    exact ⟨rfl, rfl⟩

theorem rowKey_eq_of_suffix {other : IndexDef V} {another : Row V} {held : Entry V C}
    (has : entry schema table index row = .ok (some found))
    (alsoHas : entry schema table other another = .ok (some held)) (same : held.key = found.key)
    (suffixed : found.byValue = false) : schema.rowKey table another = schema.rowKey table row := by
  have parts := congrArg (fun key => (ofLex key).2) same
  rw [(entry_eq_some has).1, (entry_eq_some alsoHas).1, suffixed] at parts
  dsimp only [Schema.entryKey] at parts
  cases byValue : held.byValue with
  | true =>
    rw [byValue] at parts
    exact absurd parts WithBot.bot_ne_coe
  | false =>
    rw [byValue] at parts
    exact WithBot.coe_injective parts

end Esker.Sql
