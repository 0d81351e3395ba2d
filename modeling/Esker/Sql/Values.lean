import Mathlib

/-!
Contract: the values of the row engine and of the columns, and their comparisons
(`esker-sql/src/value/mod.rs`, `datum_to_value` of `esker-sql/src/exec/fragment.rs`,
`esker-columnar/src/value.rs`).

Owns: the two representations, the passage from one to the other, and for which types the two
comparisons agree.

Does not own: the digits of a `numeric` and the bits of a float, which are parameters.
-/

namespace Esker.Sql

inductive ColumnType where
  | int8 | int4 | int2 | text | varchar | bool | bytea | timestampTz | timestamp | double | real
  | date | time | uuid | interval | oid | numeric | bpchar | json | jsonb
deriving DecidableEq, Repr

/-- A value of the row engine. `uncarried` is every type that has no column. -/
inductive Datum (N F : Type) where
  | null
  | int8 (value : Int)
  | int4 (value : Int)
  | int2 (value : Int)
  | text (bytes : List Nat)
  | bool (value : Bool)
  | bytea (bytes : List Nat)
  | timestampTz (micros : Int)
  | timestamp (micros : Int)
  | double (value : F)
  | real (value : F)
  | date (days : Int)
  | time (micros : Int)
  | uuid (bytes : List Nat)
  | interval (months days micros : Int)
  | oid (value : Int)
  | numeric (value : N)
  | uncarried (kind : String) (value : Int)
deriving DecidableEq, Repr

inductive Value (F : Type) where
  | null
  | int8 (value : Int)
  | int4 (value : Int)
  | int2 (value : Int)
  | text (bytes : List Nat)
  | bool (value : Bool)
  | bytea (bytes : List Nat)
  | timestampTz (micros : Int)
  | timestamp (micros : Int)
  | double (value : F)
  | real (value : F)
  | date (days : Int)
  | time (micros : Int)
  | uuid (bytes : List Nat)
  | interval (bytes : List Nat)
  | oid (value : Int)
  | numeric (text : List Nat)
deriving DecidableEq, Repr

inductive ValueRef (F : Type) where
  | null
  | int (value : Int)
  | bool (value : Bool)
  | double (value : F)
  | real (value : F)
  | bytes (bytes : List Nat)
deriving DecidableEq, Repr

/-- What the model takes from elsewhere: the order and the text of a `numeric`, the order of
floats, how a decimal literal is read, and the order of values of unlike types. -/
structure Engine (N F : Type) where
  numericCmp : N → N → Ordering
  numericText : N → List Nat
  doubleCmp : F → F → Ordering
  realCmp : F → F → Ordering
  readNumeric : List Nat → Option N
  readDouble : List Nat → Option F
  unlikeCmp : Datum N F → Datum N F → Ordering

variable {N F : Type}

/-- The last `count` bytes of a two's complement number, least significant first. -/
def littleEndian : Nat → Int → List Nat
  | 0, _ => []
  | count + 1, value => (value % 256).toNat :: littleEndian count (value / 256)

def intervalBytes (months days micros : Int) : List Nat :=
  littleEndian 4 months ++ littleEndian 4 days ++ littleEndian 8 micros

def saturate (value : Int) : Int := max (-(2 ^ 63)) (min value (2 ^ 63 - 1))

/-- `interval_total`: an interval as microseconds, a month as thirty days. -/
def intervalTotal (months days micros : Int) : Int :=
  saturate (saturate (saturate (saturate (months * 30) + days) * 86400000000) + micros)

namespace Datum

def isNull : Datum N F → Bool
  | .null => true
  | _ => false

/-- The number that integers of every width, and oids, are compared by. -/
def integer? : Datum N F → Option Int
  | .int8 value | .int4 value | .int2 value | .oid value => some value
  | _ => none

/-- `Datum::pg_cmp`. -/
def pgCmp (engine : Engine N F) : Datum N F → Datum N F → Ordering
  | .null, .null => .eq
  | .null, _ => .gt
  | _, .null => .lt
  | .text left, .text right => compare left right
  | .bool left, .bool right => compare left right
  | .bytea left, .bytea right => compare left right
  | .timestampTz left, .timestampTz right | .timestamp left, .timestamp right
  | .timestampTz left, .timestamp right | .timestamp left, .timestampTz right
  | .date left, .date right | .time left, .time right => compare left right
  | .double left, .double right => engine.doubleCmp left right
  | .real left, .real right => engine.realCmp left right
  | .uuid left, .uuid right => compare left right
  | .interval months days micros, .interval months' days' micros' =>
    compare (intervalTotal months days micros) (intervalTotal months' days' micros')
  | .numeric left, .numeric right => engine.numericCmp left right
  | left, right =>
    match left.integer?, right.integer? with
    | some left, some right => compare left right
    | _, _ => engine.unlikeCmp left right

/-- `datum_to_value`. -/
def toValue (engine : Engine N F) : Datum N F → Value F
  | .null | .uncarried _ _ => .null
  | .int8 value => .int8 value
  | .int4 value => .int4 value
  | .int2 value => .int2 value
  | .text bytes => .text bytes
  | .bool value => .bool value
  | .bytea bytes => .bytea bytes
  | .timestampTz micros => .timestampTz micros
  | .timestamp micros => .timestamp micros
  | .double value => .double value
  | .real value => .real value
  | .date days => .date days
  | .time micros => .time micros
  | .uuid bytes => .uuid bytes
  | .interval months days micros => .interval (intervalBytes months days micros)
  | .oid value => .oid value
  | .numeric value => .numeric (engine.numericText value)

end Datum

namespace Value

def fits : Value F → ColumnType → Bool
  | .null, _ => true
  | .int8 _, type => type == .int8
  | .int4 _, type => type == .int4
  | .int2 _, type => type == .int2
  | .text _, type =>
    type == .text || type == .varchar || type == .bpchar || type == .json || type == .jsonb
  | .bool _, type => type == .bool
  | .bytea _, type => type == .bytea
  | .timestampTz _, type => type == .timestampTz
  | .timestamp _, type => type == .timestamp
  | .double _, type => type == .double
  | .real _, type => type == .real
  | .date _, type => type == .date
  | .time _, type => type == .time
  | .uuid _, type => type == .uuid
  | .interval _, type => type == .interval
  | .oid _, type => type == .oid
  | .numeric _, type => type == .numeric

def asRef : Value F → ValueRef F
  | .null => .null
  | .int8 value | .timestampTz value | .timestamp value | .time value => .int value
  | .int4 value | .date value | .oid value | .int2 value => .int value
  | .bool value => .bool value
  | .double value => .double value
  | .real value => .real value
  | .text bytes | .numeric bytes | .uuid bytes | .interval bytes | .bytea bytes => .bytes bytes

end Value

namespace ValueRef

def rank : ValueRef F → Nat
  | .bool _ => 0
  | .int _ => 1
  | .double _ => 2
  | .real _ => 3
  | .bytes _ => 4
  | .null => 5

/-- `ValueRef::pg_cmp`. -/
def pgCmp (engine : Engine N F) : ValueRef F → ValueRef F → Ordering
  | .null, .null => .eq
  | .null, _ => .gt
  | _, .null => .lt
  | .int left, .int right => compare left right
  | .bool left, .bool right => compare left right
  | .double left, .double right => engine.doubleCmp left right
  | .real left, .real right => engine.realCmp left right
  | .bytes left, .bytes right => compare left right
  | left, right => compare left.rank right.rank

end ValueRef

def Datum.asRef (engine : Engine N F) (datum : Datum N F) : ValueRef F := (datum.toValue engine).asRef

def Datum.hasType : Datum N F → ColumnType → Bool
  | .null, _ => true
  | .int8 _, type => type == .int8
  | .int4 _, type => type == .int4
  | .int2 _, type => type == .int2
  | .text _, type =>
    type == .text || type == .varchar || type == .bpchar || type == .json || type == .jsonb
  | .bool _, type => type == .bool
  | .bytea _, type => type == .bytea
  | .timestampTz _, type => type == .timestampTz
  | .timestamp _, type => type == .timestamp
  | .double _, type => type == .double
  | .real _, type => type == .real
  | .date _, type => type == .date
  | .time _, type => type == .time
  | .uuid _, type => type == .uuid
  | .interval _ _ _, type => type == .interval
  | .oid _, type => type == .oid
  | .numeric _, type => type == .numeric
  | .uncarried _ _, _ => false

def Datum.carried : Datum N F → Bool
  | .uncarried _ _ => false
  | _ => true

/-- The types whose columns are compared by something else than their value: a `numeric` by the
bytes of its text and an interval by its sixteen bytes. -/
def ColumnType.byRepresentation : ColumnType → Bool
  | .numeric | .interval => true
  | _ => false

variable {engine : Engine N F} {datum : Datum N F} {type : ColumnType}

theorem Datum.asRef_eq_null (carried : datum.carried = true) :
    datum.asRef engine = .null ↔ datum = .null := by
  cases datum <;> simp [Datum.asRef, Datum.toValue, Value.asRef, Datum.carried] at carried ⊢

theorem Datum.asRef_eq_bool {value : Bool} :
    datum.asRef engine = .bool value ↔ datum = .bool value := by
  cases datum <;> simp [Datum.asRef, Datum.toValue, Value.asRef]

theorem Datum.carried_of_hasType (typed : datum.hasType type = true) : datum.carried = true := by
  cases datum <;> simp [Datum.hasType, Datum.carried] at typed ⊢

theorem Datum.hasType_of_fits (carried : datum.carried = true)
    (fits : (datum.toValue engine).fits type = true) : datum.hasType type = true := by
  cases datum <;> simp_all [Datum.hasType, Datum.toValue, Value.fits, Datum.carried]

/-- Two values of one type that is not compared by its representation compare alike. -/
theorem Datum.pgCmp_asRef (engine : Engine N F) {left right : Datum N F}
    (leftTyped : left.hasType type = true) (rightTyped : right.hasType type = true)
    (byValue : type.byRepresentation = false) :
    (left.asRef engine).pgCmp engine (right.asRef engine) = left.pgCmp engine right := by
  -- The type leaves NULL and one kind of value on each side, and these compute.
  cases type <;>
    first
    | exact (Bool.false_ne_true byValue.symm).elim
    | (cases left <;>
        first
        | exact (Bool.false_ne_true leftTyped).elim
        | (cases right <;>
            first
            | exact (Bool.false_ne_true rightTyped).elim
            | rfl))

end Esker.Sql
