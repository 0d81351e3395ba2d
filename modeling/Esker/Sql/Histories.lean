import Esker.Sql.Catalog
import Esker.Versions
import Mathlib.Logic.Relation

/-!
Contract: a constraint of one table under concurrent transactions (`write_row`,
`check_exclusions` and `delete` of `esker-sql/src/exec/dml.rs`, `esker-sql/src/exec/deferred.rs`,
`SET CONSTRAINTS` and savepoints).

Owns: what a unique index or an `EXCLUDE` constraint forbids, how each is checked when a row is
written and when the transaction commits, and which constraints hold in every committed state.

Does not own: other tables and other constraints, which can only refuse more. Row locks and the
read set of `SERIALIZABLE` also only refuse more.
-/

namespace Esker.Sql.Histories

open Esker.Versions List
open Relation (ReflTransGen)
open Schema (primaryKeyOf)

/-- An `EXCLUDE` constraint with `&&`: its predicate, its key and the overlap of two keys. -/
structure Exclusion (V : Type) where
  admits : Row V → Bool
  key : Row V → Option V
  overlap : V → V → Bool
  symmetric : ∀ left right, overlap left right = overlap right left
  deferrable : Bool

inductive Constraint (V : Type) where
  | unique (index : IndexDef V)
  | exclude (exclusion : Exclusion V)

namespace Constraint

/-- Checked by scanning what the transaction sees rather than by reading one key. -/
def scanned {V : Type} : Constraint V → Bool
  | .unique index => index.deferrable
  | .exclude _ => true

def deferrable {V : Type} : Constraint V → Bool
  | .unique index => index.deferrable
  | .exclude exclusion => exclusion.deferrable

end Constraint

inductive StoreKey (C : Type) where
  | row (key : Key C)
  | entry (key : EntryKey C)
deriving DecidableEq

/-- What is stored: a row, or the primary key an entry leads to. -/
inductive Stored (V : Type) where
  | row (row : Row V)
  | primaryKey (values : List (Option V))
deriving DecidableEq

abbrev Database (V C : Type) := Store (StoreKey C) (Stored V)

abbrev Writes (V C : Type) := Buffer (StoreKey C) (Stored V)

variable {V C : Type}

/-- The row is stored under the key in what a reader sees. -/
def Holds (view : StoreKey C → Option (Stored V)) (key : Key C) (row : Row V) : Prop :=
  view (.row key) = some (.row row)

section Rules

variable (schema : Schema V C) (table : TableDef V)

/-- The code a unique index holds the row to, unless it excludes the row or a NULL keeps it
apart from every other. -/
def uniqueKey (index : IndexDef V) (row : Row V) : Option (Key C) :=
  match entry schema table index row with
  | .ok (some found) =>
    if index.unique && index.distinguishes found.values then some (schema.encode found.values)
    else none
  | _ => none

/-- `exclusion_conflict` of one stored row: both are indexed and their keys overlap. -/
def Exclusion.conflicts (exclusion : Exclusion V) (row other : Row V) : Bool :=
  exclusion.admits row && exclusion.admits other &&
    match exclusion.key row, exclusion.key other with
    | some value, some against => exclusion.overlap value against
    | _, _ => false

variable (constraint : Constraint V)

/-- Two rows that the constraint does not allow beside each other. -/
def Clash (row other : Row V) : Prop :=
  match constraint with
  | .unique index =>
    ∃ code, uniqueKey schema table index row = some code ∧
      uniqueKey schema table index other = some code
  | .exclude exclusion => exclusion.conflicts row other = true

/-- The row's entry in the constraint's index, where it has one. -/
def placed (row : Row V) : Except SqlError (Option (Entry V C)) :=
  match constraint with
  | .unique index => entry schema table index row
  | .exclude _ => .ok none

/-- The key that only one row may have, where the entry is stored by value. -/
def claim (row : Row V) : Option (EntryKey C) :=
  match placed schema table constraint row with
  | .ok (some found) => if found.byValue then some found.key else none
  | _ => none

/-- The key of the row's entry, where it ends in the primary key. -/
def suffixed (row : Row V) : Option (EntryKey C) :=
  match placed schema table constraint row with
  | .ok (some found) => if found.byValue then none else some found.key
  | _ => none

/-- `Check::verify`: at most one entry in the range of the row's values, or no other row that
overlaps. -/
def Verified (view : StoreKey C → Option (Stored V)) (row : Row V) : Prop :=
  match constraint with
  | .unique index =>
    ∀ code, uniqueKey schema table index row = some code →
      ∀ entry entry' : EntryKey C, (ofLex entry).1 = code → (ofLex entry').1 = code →
        view (.entry entry) ≠ none → view (.entry entry') ≠ none → entry = entry'
  | .exclude exclusion =>
    ∀ key other, Holds view key other → key ≠ schema.rowKey table row →
      exclusion.conflicts row other = false

/-- Writes `rowValue` at the row's key and `entryValue` at the key of its entry. -/
def place [DecidableEq C] (writes : Writes V C) (ts : Nat) (found : Option (Entry V C)) (row : Row V)
    (entryValue rowValue : Option (Stored V)) : Writes V C :=
  Buffer.put
    (match found with
      | some entry => writes.put ts (.entry entry.key) entryValue
      | none => writes)
    ts (.row (schema.rowKey table row)) rowValue

end Rules

structure Transaction (V C : Type) where
  start : Nat
  statement : Nat
  writes : Writes V C
  /-- The writes at its savepoints, and at the start of a statement that is run again. -/
  saved : List (Writes V C)
  pending : List (Row V)
  failed : Bool

namespace Transaction

def view (txn : Transaction V C) (db : Database V C) : StoreKey C → Option (Stored V) :=
  txn.writes.read db txn.statement

def opened (clock : Nat) : Transaction V C :=
  { start := clock, statement := clock, writes := Buffer.empty, saved := [], pending := []
    failed := false }

section Rows

variable [DecidableEq C] (schema : Schema V C) (table : TableDef V)

/-- `remove_entries` and the deletion of the row. -/
def removeRow (txn : Transaction V C) (found : Option (Entry V C)) (row : Row V) :
    Transaction V C :=
  { txn with writes := place schema table txn.writes txn.statement found row none none }

/-- The writes of `write_row`. -/
def writeRow (txn : Transaction V C) (found : Option (Entry V C)) (row : Row V) : Transaction V C :=
  { txn with
    writes := place schema table txn.writes txn.statement found row
      (some (.primaryKey (primaryKeyOf table row))) (some (.row row)) }

end Rows

end Transaction

structure History (T V C : Type) where
  db : Database V C
  active : T → Option (Transaction V C)
  /-- A row was removed that the transaction did not see under its key. -/
  stale : Prop
  /-- A transaction committed over a commit since it began, or took back writes after its
  checks had been taken. -/
  unguarded : Prop

namespace History

variable {T : Type} [DecidableEq T]

def opening (db : Database V C) : History T V C :=
  { db, active := fun _ => none, stale := False, unguarded := False }

def set (history : History T V C) (id : T) (txn : Option (Transaction V C)) : History T V C :=
  { history with active := Function.update history.active id txn }

inductive Step [DecidableEq C] (schema : Schema V C) (table : TableDef V)
    (constraint : Constraint V) : History T V C → History T V C → Prop
  | begin {history : History T V C} {id : T} (idle : history.active id = none) :
      Step schema table constraint history
        (history.set id (some (Transaction.opened history.db.clock)))
  /-- A statement at `READ COMMITTED` reads a new snapshot. -/
  | refresh {history : History T V C} {id : T} {txn : Transaction V C}
      (running : history.active id = some txn) :
      Step schema table constraint history
        (history.set id (some { txn with statement := history.db.clock }))
  | savepoint {history : History T V C} {id : T} {txn : Transaction V C}
      (running : history.active id = some txn) :
      Step schema table constraint history
        (history.set id (some { txn with saved := txn.writes :: txn.saved }))
  /-- `ROLLBACK TO`, and a statement that starts over: the writes go back, the checks do not. -/
  | rewind {history : History T V C} {id : T} {txn : Transaction V C} {writes : Writes V C}
      (running : history.active id = some txn) (known : writes ∈ txn.saved) :
      Step schema table constraint history
        { history.set id (some { txn with writes, failed := false }) with unguarded := True }
  | remove {history : History T V C} {id : T} {txn : Transaction V C} {row : Row V}
      {found : Option (Entry V C)} (running : history.active id = some txn)
      (sane : txn.failed = false) (has : placed schema table constraint row = .ok found) :
      Step schema table constraint history
        { history.set id (some (txn.removeRow schema table found row)) with
          stale := history.stale ∨
            ¬ Holds (txn.view history.db) (schema.rowKey table row) row }
  | write {history : History T V C} {id : T} {txn : Transaction V C} {row : Row V}
      {found : Option (Entry V C)} (running : history.active id = some txn)
      (sane : txn.failed = false) (has : placed schema table constraint row = .ok found)
      (absent : txn.view history.db (.row (schema.rowKey table row)) = none)
      (unclaimed : ∀ entry, found = some entry → entry.byValue = true →
        txn.view history.db (.entry entry.key) = none)
      (verified : constraint.scanned = true →
        Verified schema table constraint ((txn.writeRow schema table found row).view history.db)
          row) :
      Step schema table constraint history
        (history.set id (some (txn.writeRow schema table found row)))
  | writeDeferred {history : History T V C} {id : T} {txn : Transaction V C} {row : Row V}
      {found : Option (Entry V C)} (running : history.active id = some txn)
      (sane : txn.failed = false) (has : placed schema table constraint row = .ok found)
      (absent : txn.view history.db (.row (schema.rowKey table row)) = none)
      (deferrable : constraint.deferrable = true) :
      Step schema table constraint history
        (history.set id (some { txn.writeRow schema table found row with
          pending := row :: txn.pending }))
  /-- `SET CONSTRAINTS … IMMEDIATE`. The checks are taken before they are run. -/
  | settle {history : History T V C} {id : T} {txn : Transaction V C}
      (running : history.active id = some txn)
      (verified : ∀ row ∈ txn.pending,
        Verified schema table constraint (txn.view history.db) row) :
      Step schema table constraint history (history.set id (some { txn with pending := [] }))
  | settleFails {history : History T V C} {id : T} {txn : Transaction V C} {row : Row V}
      (running : history.active id = some txn) (owed : row ∈ txn.pending)
      (refuted : ¬ Verified schema table constraint (txn.view history.db) row) :
      Step schema table constraint history
        (history.set id (some { txn with pending := [], failed := true }))
  | commit {history : History T V C} {id : T} {txn : Transaction V C}
      (running : history.active id = some txn) (sane : txn.failed = false)
      (verified : ∀ row ∈ txn.pending,
        Verified schema table constraint (txn.view history.db) row)
      (unrefused : ¬ txn.writes.Conflicted history.db) :
      Step schema table constraint history
        { history.set id none with
          db := history.db.commit txn.writes
          unguarded := history.unguarded ∨ ∃ key, history.db.writtenSince key txn.start }
  | rollback {history : History T V C} {id : T} {txn : Transaction V C}
      (running : history.active id = some txn) :
      Step schema table constraint history (history.set id none)

end History

/-! ## What the rules mean -/

variable {key : Key C} {found : Option (Entry V C)} {writes : Writes V C} {ts : Nat}
  {pair : Option (Stored V) × Nat} {entryValue rowValue : Option (Stored V)}

variable {row : Row V} {view : StoreKey C → Option (Stored V)}

section Meaning

variable {schema : Schema V C} {table : TableDef V} {constraint : Constraint V}

theorem Exclusion.conflicts_comm (exclusion : Exclusion V) (row other : Row V) :
    exclusion.conflicts row other = exclusion.conflicts other row := by
  unfold Exclusion.conflicts
  rw [Bool.and_comm (exclusion.admits row)]
  congr 1
  cases exclusion.key row with
  | none => cases exclusion.key other <;> rfl
  | some value =>
    cases exclusion.key other with
    | none => rfl
    | some against => exact exclusion.symmetric value against

variable {other : Row V}

theorem Clash.symm (clash : Clash schema table constraint row other) :
    Clash schema table constraint other row := by
  cases constraint with
  | unique index =>
    obtain ⟨code, has, otherHas⟩ := clash
    exact ⟨code, otherHas, has⟩
  | exclude exclusion => exact (exclusion.conflicts_comm other row).trans clash

theorem claim_eq_some {key : EntryKey C} (claims : claim schema table constraint row = some key) :
    ∃ found, placed schema table constraint row = .ok (some found) ∧ found.byValue = true ∧
      found.key = key := by
  unfold claim at claims
  split at claims
  · rename_i found has
    split at claims
    · rename_i byValue
      cases claims
      exact ⟨found, has, byValue, rfl⟩
    · cases claims
  · cases claims

theorem claim_bot {key : EntryKey C}
    (claims : claim schema table constraint row = some key) : (ofLex key).2 = ⊥ := by
  obtain ⟨found, has, byValue, rfl⟩ := claim_eq_some claims
  cases constraint with
  | unique index =>
    rw [(entry_eq_some has).1, byValue]
    rfl
  | exclude exclusion => cases has

theorem key_ne_of_suffix {found : Entry V C} {key : EntryKey C}
    (has : placed schema table constraint row = .ok (some found)) (bot : (ofLex key).2 = ⊥)
    (unclaimed : claim schema table constraint row ≠ some key) : key ≠ found.key := by
  rintro rfl
  cases byValue : found.byValue with
  | true =>
    apply unclaimed
    unfold claim
    rw [has]
    simp only [byValue, if_true]
  | false =>
    cases constraint with
    | unique index =>
      rw [(entry_eq_some has).1, byValue] at bot
      exact WithBot.coe_ne_bot bot
    | exclude exclusion => cases has

theorem claim_of_uniqueKey {index : IndexDef V} (immediate : index.deferrable = false)
    {code : Key C} (has : uniqueKey schema table index row = some code) :
    claim schema table (.unique index) row = some (toLex (code, ⊥)) := by
  unfold uniqueKey at has
  split at has
  · rename_i found isEntry
    split at has
    · rename_i distinct
      cases has
      obtain ⟨key, byValue⟩ := entry_eq_some isEntry
      have stored : found.byValue = true := by
        rw [byValue, IndexDef.byValue, immediate]
        simpa using distinct
      have isPlaced : placed schema table (.unique index) row = .ok (some found) := isEntry
      unfold claim
      rw [isPlaced]
      simp only [stored, if_true]
      rw [key, stored]
      rfl
    · cases has
  · cases has

theorem suffixed_eq_some {key : EntryKey C}
    (has : suffixed schema table constraint row = some key) :
    ∃ found, placed schema table constraint row = .ok (some found) ∧ found.key = key ∧
      (ofLex key).2 = ((schema.rowKey table row : Key C) : WithBot (Key C)) := by
  unfold suffixed at has
  split at has
  · rename_i found isPlaced
    split at has
    · cases has
    · rename_i byValue
      cases has
      cases constraint with
      | unique index =>
        refine ⟨found, isPlaced, rfl, ?_⟩
        rw [(entry_eq_some isPlaced).1, (Bool.not_eq_true _).mp byValue]
        rfl
      | exclude exclusion => cases isPlaced
  · cases has

theorem placed_suffix {found : Entry V C} (has : placed schema table constraint row = .ok (some found))
    (ends : (ofLex found.key).2 = ((key : Key C) : WithBot (Key C))) :
    key = schema.rowKey table row := by
  cases constraint with
  | unique index =>
    rw [(entry_eq_some has).1] at ends
    cases byValue : found.byValue with
    | true =>
      rw [byValue] at ends
      exact absurd ends.symm (WithBot.coe_ne_bot)
    | false =>
      rw [byValue] at ends
      exact (WithBot.coe_injective ends).symm
  | exclude exclusion => cases has

theorem suffixed_of_uniqueKey {index : IndexDef V} (deferrable : index.deferrable = true)
    {code : Key C} (has : uniqueKey schema table index row = some code) :
    suffixed schema table (.unique index) row =
      some (toLex (code, ((schema.rowKey table row : Key C) : WithBot (Key C)))) := by
  unfold uniqueKey at has
  split at has
  · rename_i found isEntry
    split at has
    · cases has
      obtain ⟨key, byValue⟩ := entry_eq_some isEntry
      have stored : found.byValue = false := by
        rw [byValue, IndexDef.byValue, deferrable]
        simp
      have isPlaced : placed schema table (.unique index) row = .ok (some found) := isEntry
      unfold suffixed
      rw [isPlaced]
      simp only [stored]
      rw [key, stored]
      rfl
    · cases has
  · cases has

/-- A check that passes tells the row apart from every other, when each of the two has its entry. -/
theorem Verified.not_clash {otherKey : Key C} (scanned : constraint.scanned = true)
    (verified : Verified schema table constraint view row)
    (listed : ∀ entry, suffixed schema table constraint row = some entry →
      view (.entry entry) ≠ none)
    (otherListed : ∀ entry, suffixed schema table constraint other = some entry →
      view (.entry entry) ≠ none)
    (otherHolds : Holds view otherKey other) (filed : key = schema.rowKey table row)
    (otherFiled : otherKey = schema.rowKey table other) (different : key ≠ otherKey) :
    ¬ Clash schema table constraint row other := by
  intro clash
  cases constraint with
  | unique index =>
    obtain ⟨code, has, otherHas⟩ := clash
    have same := verified code has _ _ rfl rfl (listed _ (suffixed_of_uniqueKey scanned has))
      (otherListed _ (suffixed_of_uniqueKey scanned otherHas))
    apply different
    rw [filed, otherFiled]
    exact WithBot.coe_injective (Prod.mk.inj same).2
  | exclude exclusion =>
    have free := verified otherKey other otherHolds (filed ▸ different.symm)
    unfold Clash at clash
    rw [clash] at free
    cases free

end Meaning

/-! ## What one row's writes change -/

section Placing

variable [DecidableEq C] {schema : Schema V C} {table : TableDef V} {constraint : Constraint V}

/-- The writes after a row and one entry were written, or removed. -/
structure Rewritten (key : Key C) (found : Option (Entry V C)) (before after : Writes V C)
    (ts : Nat) (entryValue rowValue : Option (Stored V)) : Prop where
  grown : after.Extends before
  rowSelf : ∃ stamp, after (.row key) = some (rowValue, stamp) ∧
    (before (.row key) = none → stamp = ts)
  rowOther : ∀ other, other ≠ key → after (.row other) = before (.row other)
  entrySelf : ∀ entry, found = some entry →
    ∃ stamp, after (.entry entry.key) = some (entryValue, stamp) ∧
      (before (.entry entry.key) = none → stamp = ts)
  entryOther : ∀ other, (∀ entry, found = some entry → other ≠ entry.key) →
    after (.entry other) = before (.entry other)

omit [DecidableEq C] in
theorem Rewritten.entry_cases {before after : Writes V C}
    (changed : Rewritten key found before after ts entryValue rowValue) (other : EntryKey C) :
    (∃ entry, found = some entry ∧ other = entry.key) ∨
      after (.entry other) = before (.entry other) := by
  by_cases isFound : ∃ entry, found = some entry ∧ other = entry.key
  · exact .inl isFound
  · exact .inr (changed.entryOther other fun entry has same => isFound ⟨entry, has, same⟩)

theorem place_rewritten (writes : Writes V C) (ts : Nat) (found : Option (Entry V C)) (row : Row V)
    (entryValue rowValue : Option (Stored V)) :
    Rewritten (schema.rowKey table row) found writes
      (place schema table writes ts found row entryValue rowValue) ts entryValue rowValue := by
  have different (key : Key C) (key' : EntryKey C) : StoreKey.row key ≠ .entry key' := by
    intro same
    cases same
  cases found with
  | none =>
    refine ⟨Buffer.put_extends _ _ _ _, ?_, ?_, ?_, ?_⟩
    · obtain ⟨stamp, written, fresh, _⟩ :=
        Buffer.put_self writes ts (.row (schema.rowKey table row)) rowValue
      exact ⟨stamp, written, fresh⟩
    · intro key other
      exact Buffer.put_of_ne fun same => other (StoreKey.row.inj same)
    · intro entry isFound
      cases isFound
    · intro key _
      exact Buffer.put_of_ne (different _ _).symm
  | some found =>
    have rowSame : Buffer.put writes ts (.entry found.key) entryValue
        (.row (schema.rowKey table row)) = writes (.row (schema.rowKey table row)) :=
      Buffer.put_of_ne (different _ _)
    refine ⟨(Buffer.put_extends _ _ _ _).trans (Buffer.put_extends _ _ _ _), ?_, ?_, ?_, ?_⟩
    · obtain ⟨stamp, written, fresh, _⟩ :=
        Buffer.put_self (writes.put ts (.entry found.key) entryValue)
          ts (.row (schema.rowKey table row)) rowValue
      exact ⟨stamp, written, fun untouched => fresh (rowSame.trans untouched)⟩
    · intro key other
      refine (Buffer.put_of_ne fun same => other (StoreKey.row.inj same)).trans ?_
      exact Buffer.put_of_ne (different _ _)
    · intro entry isFound
      cases isFound
      obtain ⟨stamp, written, fresh, _⟩ :=
        Buffer.put_self writes ts (.entry found.key) entryValue
      refine ⟨stamp, ?_, fresh⟩
      exact (Buffer.put_of_ne (different _ _).symm).trans written
    · intro key other
      refine (Buffer.put_of_ne (different _ _).symm).trans ?_
      exact Buffer.put_of_ne fun same => other found rfl (StoreKey.entry.inj same)

/-- The writes after one row and its entry were written, or removed, as far as claims go. -/
structure Placed (schema : Schema V C) (table : TableDef V) (constraint : Constraint V)
    (before after : Writes V C) (ts : Nat) (row : Row V) (entryValue rowValue : Option (Stored V)) :
    Prop where
  grown : after.Extends before
  rowSelf : ∃ stamp, after (.row (schema.rowKey table row)) = some (rowValue, stamp)
  rowOther : ∀ key, key ≠ schema.rowKey table row → after (.row key) = before (.row key)
  entrySelf : ∀ key, claim schema table constraint row = some key →
    ∃ stamp, after (.entry key) = some (entryValue, stamp) ∧
      (before (.entry key) = none → stamp = ts)
  entryOther : ∀ key : EntryKey C, (ofLex key).2 = ⊥ →
    claim schema table constraint row ≠ some key → after (.entry key) = before (.entry key)

theorem place_placed (writes : Writes V C) (ts : Nat)
    (has : placed schema table constraint row = .ok found) (entryValue rowValue : Option (Stored V)) :
    Placed schema table constraint writes
      (place schema table writes ts found row entryValue rowValue) ts row entryValue rowValue := by
  have rewritten : Rewritten (schema.rowKey table row) found writes _ ts entryValue rowValue :=
    place_rewritten writes ts found row entryValue rowValue
  refine ⟨rewritten.grown, ?_, rewritten.rowOther, ?_, ?_⟩
  · obtain ⟨stamp, written, _⟩ := rewritten.rowSelf
    exact ⟨stamp, written⟩
  · intro key claims
    obtain ⟨entry, isPlaced, _, rfl⟩ := claim_eq_some claims
    exact rewritten.entrySelf entry (Except.ok.inj (has.symm.trans isPlaced))
  intro key bot unclaimed
  apply rewritten.entryOther
  intro entry isFound
  subst isFound
  exact key_ne_of_suffix has bot unclaimed

theorem place_stamped (stamped : writes.Stamped ts) (found : Option (Entry V C)) (row : Row V)
    (entryValue rowValue : Option (Stored V)) :
    (place schema table writes ts found row entryValue rowValue).Stamped ts := by
  cases found with
  | none => exact Buffer.put_stamped stamped _ _
  | some found => exact Buffer.put_stamped (Buffer.put_stamped stamped _ _) _ _

end Placing

/-! ## Claims -/

section Claims

variable (schema : Schema V C) (table : TableDef V) (constraint : Constraint V)

structure Allowed (view : StoreKey C → Option (Stored V)) : Prop where
  filed : ∀ key row, Holds view key row → key = schema.rowKey table row
  held : ∀ key row entry, Holds view key row → claim schema table constraint row = some entry →
    view (.entry entry) = some (.primaryKey (primaryKeyOf table row))
  listed : ∀ key row entry, Holds view key row →
    suffixed schema table constraint row = some entry → view (.entry entry) ≠ none
  apart : constraint.scanned = true → ∀ key row key' row', Holds view key row →
    Holds view key' row' → key ≠ key' → ¬ Clash schema table constraint row row'

def Filed (writes : Writes V C) : Prop :=
  ∀ key row stamp, writes (.row key) = some (some (.row row), stamp) →
    key = schema.rowKey table row

/-- The entries that end in a primary key are written with the row of that key. -/
structure Listed (writes : Writes V C) : Prop where
  held : ∀ key row stamp entry, writes (.row key) = some (some (.row row), stamp) →
    suffixed schema table constraint row = some entry →
      ∃ value stamp, writes (.entry entry) = some (some value, stamp)
  own : ∀ (entry : EntryKey C) (key : Key C) pair, (ofLex entry).2 = (key : WithBot (Key C)) →
    writes (.entry entry) = some pair → ∃ own, writes (.row key) = some own

/-- Nobody's entry, or that of a row the writes change. -/
abbrev Vacant (db : Database V C) (writes : Writes V C) (key : EntryKey C) : Prop :=
  db.latest (.entry key) = none ∨
    ∃ primaryKey, db.latest (.entry key) = some (.primaryKey primaryKey) ∧
      ∃ pair, writes (.row (schema.encode primaryKey)) = some pair

/-- The claims of a transaction that would not be refused. -/
structure Claimed (db : Database V C) (writes : Writes V C) : Prop where
  held : ∀ key row stamp entry, writes (.row key) = some (some (.row row), stamp) →
    claim schema table constraint row = some entry →
      ∃ stamp, writes (.entry entry) =
        some (some (.primaryKey (primaryKeyOf table row)), stamp)
  /-- A claim it changes is nobody's, or that of a row it changes too. -/
  vacant : ∀ entry value stamp, (ofLex entry).2 = ⊥ → writes (.entry entry) = some (value, stamp) →
    db.latest (.entry entry) = none ∨
      ∃ primaryKey, db.latest (.entry entry) = some (.primaryKey primaryKey) ∧
        ∃ pair, writes (.row (schema.encode primaryKey)) = some pair

variable {schema table constraint}

theorem Allowed.not_clash
    (allowed : Allowed schema table constraint view) {key' : Key C} {row' : Row V}
    (holds : Holds view key row) (holds' : Holds view key' row') (different : key ≠ key') :
    ¬ Clash schema table constraint row row' := by
  cases scanned : constraint.scanned with
  | true => exact allowed.apart scanned key row key' row' holds holds' different
  | false =>
    intro clash
    cases constraint with
    | exclude exclusion => cases scanned
    | unique index =>
      obtain ⟨code, has, has'⟩ := clash
      have leads := allowed.held key row _ holds (claim_of_uniqueKey scanned has)
      rw [allowed.held key' row' _ holds' (claim_of_uniqueKey scanned has')] at leads
      apply different
      rw [allowed.filed key row holds, allowed.filed key' row' holds']
      unfold Schema.rowKey
      rw [Stored.primaryKey.inj (Option.some.inj leads)]

variable {db : Database V C} {before after : Writes V C} {ts : Nat} {row : Row V}

theorem Vacant.grown {key : EntryKey C} (vacant : Vacant schema db before key)
    (grown : after.Extends before) : Vacant schema db after key := by
  rcases vacant with none | ⟨primaryKey, leads, own, has⟩
  · exact .inl none
  · obtain ⟨value, kept⟩ := grown _ own.1 own.2 has
    exact .inr ⟨primaryKey, leads, _, kept⟩

theorem Filed.rewritten (filed : Filed schema table before)
    (changed : Rewritten (schema.rowKey table row) found before after ts entryValue rowValue)
    (own : ∀ other, rowValue = some (.row other) → other = row) : Filed schema table after := by
  intro key other stamp written
  by_cases same : key = schema.rowKey table row
  · subst same
    obtain ⟨_, has, _⟩ := changed.rowSelf
    rw [has] at written
    cases written
    rw [own other rfl]
  · rw [changed.rowOther key same] at written
    exact filed key other stamp written

theorem Listed.rewritten (listed : Listed schema table constraint before)
    (filed : Filed schema table before)
    (has : placed schema table constraint row = .ok found)
    (changed : Rewritten (schema.rowKey table row) found before after ts entryValue rowValue)
    (own : ∀ other, rowValue = some (.row other) → other = row ∧ entryValue.isSome = true) :
    Listed schema table constraint after := by
  refine ⟨fun key other stamp entry written isSuffixed => ?_, fun entry key pair ends written => ?_⟩
  · obtain ⟨theirs, theirsHas, isKey, ends⟩ := suffixed_eq_some isSuffixed
    by_cases same : key = schema.rowKey table row
    · subst same
      obtain ⟨_, isNow, _⟩ := changed.rowSelf
      rw [isNow] at written
      cases written
      obtain ⟨rfl, given⟩ := own other rfl
      obtain ⟨value, isValue⟩ := Option.isSome_iff_exists.mp given
      cases Except.ok.inj (has.symm.trans theirsHas)
      obtain ⟨stamp, entered, _⟩ := changed.entrySelf theirs rfl
      exact ⟨value, stamp, isKey ▸ isValue ▸ entered⟩
    · rw [changed.rowOther key same] at written
      have isOther := filed key other stamp written
      rcases changed.entry_cases entry with ⟨mine, isMine, isEntry⟩ | unchanged
      · -- The entry ends in the primary key of the other row.
        subst isMine isEntry
        exact absurd (isOther.trans (placed_suffix has ends)) same
      · rw [unchanged]
        exact listed.held key other stamp entry written isSuffixed
  · rcases changed.entry_cases entry with ⟨mine, isMine, isEntry⟩ | unchanged
    · subst isMine isEntry
      obtain ⟨stamp, isNow, _⟩ := changed.rowSelf
      rw [placed_suffix has ends]
      exact ⟨_, isNow⟩
    · rw [unchanged] at written
      obtain ⟨mine, isMine⟩ := listed.own entry key pair ends written
      obtain ⟨value, kept⟩ := changed.grown _ mine.1 mine.2 isMine
      exact ⟨_, kept⟩

section

variable (claimed : Claimed schema table constraint db before)
include claimed

theorem Claimed.seen (allowed : Allowed schema table constraint (db.valueAt ts))
    (current : Holds (before.read db ts) (schema.rowKey table row) row) {entry : EntryKey C}
    (claims : claim schema table constraint row = some entry) : (∃ stamp, before (.entry entry) =
        some (some (.primaryKey (primaryKeyOf table row)), stamp)) ∨
      before (.row (schema.rowKey table row)) = none ∧
        db.valueAt ts (.entry entry) = some (.primaryKey (primaryKeyOf table row)) := by
  rcases Buffer.read_eq_some current with ⟨stamp, written⟩ | ⟨untouched, held⟩
  · exact .inl (claimed.held _ row stamp entry written claims)
  · exact .inr ⟨untouched, allowed.held _ row entry held claims⟩

theorem Claimed.vacant_placed
    (place : Placed schema table constraint before after ts row entryValue rowValue)
    (own : ∀ entry, claim schema table constraint row = some entry → before (.entry entry) = none →
      Vacant schema db after entry) :
    ∀ entry value stamp, (ofLex entry).2 = ⊥ → after (.entry entry) = some (value, stamp) →
      Vacant schema db after entry := by
  intro entry value stamp bot written
  cases held : before (.entry entry) with
  | some pair => exact Vacant.grown (claimed.vacant entry pair.1 pair.2 bot held) place.grown
  | none =>
    by_cases rowClaims : claim schema table constraint row = some entry
    · exact own entry rowClaims held
    · rw [place.entryOther entry bot rowClaims, held] at written
      cases written

theorem Claimed.removed (filed : Filed schema table before)
    (allowed : Allowed schema table constraint (db.valueAt ts)) (past : ts ≤ db.clock)
    (stamped : before.Stamped ts)
    (place : Placed schema table constraint before after ts row none none)
    (unrefused : ¬ after.Conflicted db)
    (current : Holds (before.read db ts) (schema.rowKey table row) row) :
    Claimed schema table constraint db after := by
  have unrefusedBefore : ¬ before.Conflicted db := fun conflicted =>
    unrefused (conflicted.extends place.grown)
  refine ⟨fun key other stamp entry written claims => ?_,
    claimed.vacant_placed place fun entry rowClaims held => ?_⟩
  · have different : key ≠ schema.rowKey table row := by
      rintro rfl
      obtain ⟨_, gone⟩ := place.rowSelf
      rw [gone] at written
      cases written
    rw [place.rowOther key different] at written
    obtain ⟨held, has⟩ := claimed.held key other stamp entry written claims
    refine ⟨held, ?_⟩
    rw [place.entryOther entry (claim_bot claims) ?_, has]
    -- Two rows with one claim: the entry in the writes leads to the other row, and the one the
    -- transaction read leads to this one, so this row's key is among the writes.
    intro rowClaims
    have isKey := filed key other stamp written
    rcases claimed.seen allowed current rowClaims with ⟨_, own⟩ | ⟨untouched, leads⟩
    · rw [has] at own
      apply different
      rw [isKey]
      unfold Schema.rowKey
      rw [Stored.primaryKey.inj (Option.some.inj (Prod.mk.inj (Option.some.inj own)).1)]
    · have newest := Buffer.latest_of_unrefused unrefusedBefore has (stamped _ _ _ has) past
      rw [leads] at newest
      rcases claimed.vacant entry _ held (claim_bot claims) has with none | ⟨_, found, pair, own⟩
      · rw [newest] at none
        cases none
      rw [newest] at found
      cases found
      unfold Schema.rowKey at untouched
      rw [untouched] at own
      cases own
  · obtain ⟨fresh, has, isNow⟩ := place.entrySelf entry rowClaims
    rcases claimed.seen allowed current rowClaims with ⟨_, own⟩ | ⟨_, leads⟩
    · rw [held] at own
      cases own
    have newest := Buffer.latest_of_unrefused unrefused has (isNow held).le past
    obtain ⟨rowStamp, gone⟩ := place.rowSelf
    exact .inr ⟨_, newest.trans leads, _, gone⟩

theorem Claimed.written (past : ts ≤ db.clock)
    (place : Placed schema table constraint before after ts row
      (some (.primaryKey (primaryKeyOf table row))) (some (.row row)))
    (unrefused : ¬ after.Conflicted db)
    (free : ∀ entry, claim schema table constraint row = some entry →
      before.read db ts (.entry entry) = none) : Claimed schema table constraint db after := by
  refine ⟨fun key other stamp entry written claims => ?_,
    claimed.vacant_placed place fun entry rowClaims held => ?_⟩
  · by_cases same : key = schema.rowKey table row
    · subst same
      obtain ⟨_, has⟩ := place.rowSelf
      rw [has] at written
      cases written
      obtain ⟨own, leads, _⟩ := place.entrySelf entry claims
      exact ⟨own, leads⟩
    · rw [place.rowOther key same] at written
      obtain ⟨held, has⟩ := claimed.held key other stamp entry written claims
      refine ⟨held, ?_⟩
      rw [place.entryOther entry (claim_bot claims) ?_, has]
      intro rowClaims
      have taken := free entry rowClaims
      rw [Buffer.read_of_some has] at taken
      cases taken
  · obtain ⟨fresh, has, isNow⟩ := place.entrySelf entry rowClaims
    have newest := Buffer.latest_of_unrefused unrefused has (isNow held).le past
    have nothing := free entry rowClaims
    rw [Buffer.read_of_none held] at nothing
    exact .inl (newest.trans nothing)

end

theorem Claimed.commit {other : Writes V C}
    (claimed : Claimed schema table constraint db writes) (stamped : writes.Stamped ts)
    (past : ts ≤ db.clock) (unrefused : ¬ writes.Conflicted (db.commit other)) :
    Claimed schema table constraint (db.commit other) writes := by
  refine ⟨claimed.held, fun entry value stamp bot written => ?_⟩
  have apart := Buffer.disjoint_of_commit stamped past unrefused written
  rw [Store.latest_commit, apart]
  exact claimed.vacant entry value stamp bot written

theorem Filed.read (filed : Filed schema table writes)
    (allowed : Allowed schema table constraint (db.valueAt ts))
    (holds : Holds (writes.read db ts) key row) : key = schema.rowKey table row := by
  rcases Buffer.read_eq_some holds with ⟨stamp, written⟩ | ⟨_, held⟩
  · exact filed key row stamp written
  · exact allowed.filed key row held

theorem Listed.read (listed : Listed schema table constraint writes)
    (allowed : Allowed schema table constraint (db.valueAt ts))
    (holds : Holds (writes.read db ts) key row) {entry : EntryKey C}
    (has : suffixed schema table constraint row = some entry) :
    writes.read db ts (.entry entry) ≠ none := by
  rcases Buffer.read_eq_some holds with ⟨stamp, written⟩ | ⟨untouched, held⟩
  · obtain ⟨value, _, entered⟩ := listed.held key row stamp entry written has
    rw [Buffer.read_of_some entered]
    exact Option.some_ne_none value
  cases changed : writes (.entry entry) with
  | none =>
    rw [Buffer.read_of_none changed]
    exact allowed.listed key row entry held has
  | some pair =>
    obtain ⟨_, _, _, ends⟩ := suffixed_eq_some has
    obtain ⟨own, isOwn⟩ := listed.own entry _ pair ends changed
    rw [← allowed.filed key row held, untouched] at isOwn
    cases isOwn

theorem Allowed.commit
    (allowed : Allowed schema table constraint db.latest) (filed : Filed schema table writes)
    (claimed : Claimed schema table constraint db writes)
    (listed : Listed schema table constraint writes)
    (apart : constraint.scanned = true → ∀ key row key' row',
      Holds (writes.read db db.clock) key row → Holds (writes.read db db.clock) key' row' →
        key ≠ key' → ¬ Clash schema table constraint row row') :
    Allowed schema table constraint (db.commit writes).latest := by
  rw [Buffer.read_commit]
  refine ⟨fun key row holds => filed.read allowed holds,
    fun key row entry holds claims => ?_, fun _ _ _ holds has => listed.read allowed holds has,
    apart⟩
  rcases Buffer.read_eq_some holds with ⟨stamp, written⟩ | ⟨held, was⟩
  · obtain ⟨_, leads⟩ := claimed.held key row stamp entry written claims
    exact Buffer.read_of_some leads
  have leads := allowed.held key row entry was claims
  cases changed : writes (.entry entry) with
  | none => exact (Buffer.read_of_none changed).trans leads
  | some pair =>
    rcases claimed.vacant entry pair.1 pair.2 (claim_bot claims) changed with
      none | ⟨_, found, own, has⟩
    · rw [leads] at none
      cases none
    rw [leads] at found
    cases found
    have isKey : key = schema.encode (primaryKeyOf table row) :=
      allowed.filed key row was
    rw [← isKey, held] at has
    cases has

end Claims

/-! ## Runs -/

section Runs

variable (schema : Schema V C) (table : TableDef V) (constraint : Constraint V)

/-- Every clash that a commit now would leave has a check that waits for it. -/
def Owed (db : Database V C) (txn : Transaction V C) : Prop :=
  ∀ key row key' row', Holds (txn.writes.read db db.clock) key row →
    Holds (txn.writes.read db db.clock) key' row' → key ≠ key' →
      Clash schema table constraint row row' → row ∈ txn.pending ∨ row' ∈ txn.pending

structure Known (db : Database V C) (ts : Nat) (writes : Writes V C) : Prop where
  stamped : writes.Stamped ts
  filed : Filed schema table writes
  listed : Listed schema table constraint writes
  claimed : writes.Conflicted db ∨ Claimed schema table constraint db writes

structure Running (db : Database V C) (txn : Transaction V C) : Prop where
  begun : txn.start ≤ txn.statement
  past : txn.statement ≤ db.clock
  known : ∀ writes ∈ txn.writes :: txn.saved,
    Known schema table constraint db txn.statement writes
  owed : constraint.scanned = true → txn.failed = true ∨
    (∃ key, db.writtenSince key txn.start) ∨ Owed schema table constraint db txn

structure Good {T : Type} (history : History T V C) : Prop where
  allowed : ∀ ts, Allowed schema table constraint (history.db.valueAt ts)
  running : ∀ id txn, history.active id = some txn →
    Running schema table constraint history.db txn

/-- Unless a removed row was not the stored one, or a scanned constraint was left unguarded. -/
def Kept {T : Type} (history : History T V C) : Prop :=
  history.stale ∨ constraint.scanned = true ∧ history.unguarded ∨
    Good schema table constraint history

variable {schema table constraint}

section Transactions

variable {db : Database V C} {txn : Transaction V C}

theorem Running.now (running : Running schema table constraint db txn) :
    Known schema table constraint db txn.statement txn.writes :=
  running.known _ mem_cons_self

theorem Known.later {later : Nat} (known : Known schema table constraint db ts writes)
    (ordered : ts ≤ later) : Known schema table constraint db later writes :=
  ⟨fun key value stamp held => (known.stamped key value stamp held).trans ordered, known.filed,
    known.listed, known.claimed⟩

theorem Owed.verified (scanned : constraint.scanned = true)
    (running : Running schema table constraint db txn)
    (allowed : ∀ ts, Allowed schema table constraint (db.valueAt ts))
    (quiet : ∀ key, ¬ db.writtenSince key txn.start) (owed : Owed schema table constraint db txn)
    (verified : ∀ row ∈ txn.pending, Verified schema table constraint (txn.view db) row) :
    ∀ key row key' row', Holds (txn.writes.read db db.clock) key row →
      Holds (txn.writes.read db db.clock) key' row' → key ≠ key' →
        ¬ Clash schema table constraint row row' := by
  intro key row key' row' holds holds' different clash
  have sees : txn.view db = txn.writes.read db db.clock :=
    Buffer.read_eq_of_quiet quiet running.begun running.past
  rw [sees] at verified
  have filed := running.now.filed.read (allowed _) holds
  have filed' := running.now.filed.read (allowed _) holds'
  have listed (entry : EntryKey C) (has : suffixed schema table constraint row = some entry) :=
    running.now.listed.read (allowed db.clock) holds has
  have listed' (entry : EntryKey C) (has : suffixed schema table constraint row' = some entry) :=
    running.now.listed.read (allowed db.clock) holds' has
  rcases owed key row key' row' holds holds' different clash with waits | waits
  · exact (verified row waits).not_clash scanned listed listed' holds' filed filed' different clash
  · exact (verified row' waits).not_clash scanned listed' listed holds filed' filed different.symm
      clash.symm

theorem opened_running (allowed : ∀ ts, Allowed schema table constraint (db.valueAt ts)) :
    Running schema table constraint db (Transaction.opened db.clock) where
  begun := le_rfl
  past := le_rfl
  known := by
    intro writes mem
    rw [mem_singleton.mp mem]
    exact ⟨nofun, nofun, ⟨nofun, nofun⟩, .inr ⟨nofun, nofun⟩⟩
  owed scanned := by
    refine .inr (.inr fun key row key' row' holds holds' different clash => ?_)
    exact absurd clash ((allowed db.clock).apart scanned key row key' row' holds holds' different)

variable {pending : List (Row V)}

theorem Running.rewritten (running : Running schema table constraint db txn)
    (known : Known schema table constraint db txn.statement writes)
    (owed : constraint.scanned = true → (∀ key, ¬ db.writtenSince key txn.start) →
      Owed schema table constraint db txn →
        Owed schema table constraint db { txn with writes, pending }) :
    Running schema table constraint db { txn with writes, pending } where
  begun := running.begun
  past := running.past
  known := by
    intro other mem
    rcases mem_cons.mp mem with rfl | earlier
    · exact known
    · exact running.known other (mem_cons_of_mem _ earlier)
  owed scanned := by
    rcases running.owed scanned with failed | written | wasOwed
    · exact .inl failed
    · exact .inr (.inl written)
    by_cases written : ∃ key, db.writtenSince key txn.start
    · exact .inr (.inl written)
    · exact .inr (.inr (owed scanned (not_exists.mp written) wasOwed))

section Rows

variable [DecidableEq C] {row : Row V} {found : Option (Entry V C)}

omit [DecidableEq C] in
theorem Placed.read_other {before after : Writes V C}
    (place : Placed schema table constraint before after ts row entryValue rowValue) (now : Nat)
    (other : key ≠ schema.rowKey table row) :
    after.read db now (.row key) = before.read db now (.row key) := by
  unfold Buffer.read
  rw [place.rowOther key other]

theorem Running.removed (running : Running schema table constraint db txn)
    (allowed : ∀ ts, Allowed schema table constraint (db.valueAt ts))
    (has : placed schema table constraint row = .ok found)
    (current : Holds (txn.view db) (schema.rowKey table row) row) :
    Running schema table constraint db (txn.removeRow schema table found row) := by
  have place := place_placed txn.writes txn.statement has none none
  apply running.rewritten
  · have changed : Rewritten (schema.rowKey table row) found txn.writes _ txn.statement none none :=
      place_rewritten txn.writes txn.statement found row none none
    refine ⟨place_stamped running.now.stamped _ _ _ _,
      running.now.filed.rewritten changed (by intro other same; cases same),
      running.now.listed.rewritten running.now.filed has changed (by intro other same; cases same),
      ?_⟩
    refine Buffer.Conflicted.or_moves running.now.claimed (·.extends place.grown) fun unrefused claimed => ?_
    exact claimed.removed running.now.filed (allowed _) running.past running.now.stamped place
      unrefused current
  · intro _ _ owed key other key' other' holds holds' different clash
    have stays (place' : Key C) (kept : Row V)
        (holds : Holds (Buffer.read (Histories.place schema table txn.writes txn.statement found
          row none none) db db.clock) place' kept) :
        Holds (txn.writes.read db db.clock) place' kept := by
      unfold Holds at holds ⊢
      rwa [place.read_other _ ?_] at holds
      rintro rfl
      obtain ⟨_, gone⟩ := place.rowSelf
      rw [Buffer.read_of_some gone] at holds
      cases holds
    exact owed key other key' other' (stays key other holds) (stays key' other' holds') different
      clash

theorem Running.wrote (running : Running schema table constraint db txn)
    (has : placed schema table constraint row = .ok found)
    (unclaimed : ∀ entry, found = some entry → entry.byValue = true →
      txn.view db (.entry entry.key) = none) :
    Known schema table constraint db txn.statement (txn.writeRow schema table found row).writes := by
  have place := place_placed txn.writes txn.statement has
    (some (.primaryKey (primaryKeyOf table row))) (some (.row row))
  have filed : Filed schema table (txn.writeRow schema table found row).writes := by
    apply running.now.filed.rewritten (place_rewritten _ _ found row _ _)
    intro other same
    cases same
    rfl
  have listed : Listed schema table constraint (txn.writeRow schema table found row).writes := by
    apply running.now.listed.rewritten running.now.filed has (place_rewritten _ _ found row _ _)
    intro other same
    cases same
    exact ⟨rfl, rfl⟩
  refine ⟨place_stamped running.now.stamped _ _ _ _, filed, listed, ?_⟩
  refine Buffer.Conflicted.or_moves running.now.claimed (·.extends place.grown)
    fun unrefused claimed => claimed.written running.past place unrefused fun _ claims => ?_
  obtain ⟨entry, isPlaced, byValue, rfl⟩ := claim_eq_some claims
  exact unclaimed entry (Except.ok.inj (has.symm.trans isPlaced)) byValue

theorem Owed.wrote (has : placed schema table constraint row = .ok found)
    (owed : Owed schema table constraint db txn) (kept : ∀ each ∈ txn.pending, each ∈ pending)
    (checked : ∀ key other, Holds ((txn.writeRow schema table found row).writes.read db db.clock)
      key other → key ≠ schema.rowKey table row → Clash schema table constraint row other →
        row ∈ pending) :
    Owed schema table constraint db { txn.writeRow schema table found row with pending } := by
  have place := place_placed txn.writes txn.statement has
    (some (.primaryKey (primaryKeyOf table row))) (some (.row row))
  have isRow (other : Row V) (holds : Holds ((txn.writeRow schema table found row).writes.read db
      db.clock) (schema.rowKey table row) other) : other = row := by
    obtain ⟨_, written⟩ := place.rowSelf
    have isNow := (Buffer.read_of_some written).symm.trans holds
    exact (Stored.row.inj (Option.some.inj isNow)).symm
  intro key other key' other' holds holds' different clash
  by_cases same : key = schema.rowKey table row
  · subst same
    cases isRow other holds
    exact .inl (checked key' other' holds' different.symm clash)
  by_cases same' : key' = schema.rowKey table row
  · subst same'
    cases isRow other' holds'
    exact .inr (checked key other holds same clash.symm)
  have was := (place.read_other db.clock same).symm.trans holds
  have was' := (place.read_other db.clock same').symm.trans holds'
  rcases owed key other key' other' was was' different clash with waits | waits
  · exact .inl (kept _ waits)
  · exact .inr (kept _ waits)

omit [DecidableEq C] in
theorem not_byValue_of_deferrable {constraint : Constraint V}
    (deferrable : constraint.deferrable = true) {found : Entry V C}
    (has : placed schema table constraint row = .ok (some found)) : found.byValue = false := by
  cases constraint with
  | unique index =>
    have isDeferrable : index.deferrable = true := deferrable
    rw [(entry_eq_some has).2, IndexDef.byValue, isDeferrable]
    simp
  | exclude exclusion => cases has

end Rows

theorem Running.commit (running : Running schema table constraint db txn) (other : Writes V C) :
    Running schema table constraint (db.commit other) txn where
  begun := running.begun
  past := running.past.trans (Nat.le_succ _)
  known := by
    intro writes mem
    have known := running.known writes mem
    refine ⟨known.stamped, known.filed, known.listed, ?_⟩
    exact Buffer.Conflicted.or_moves known.claimed Buffer.Conflicted.commit
      fun unrefused claimed => claimed.commit known.stamped running.past unrefused
  owed scanned := by
    rcases running.owed scanned with failed | ⟨key, written⟩ | owed
    · exact .inl failed
    · exact .inr (.inl ⟨key, Store.writtenSince_commit written⟩)
    by_cases writes : ∃ key pair, other key = some pair
    · obtain ⟨key, pair, written⟩ := writes
      have past := running.begun.trans running.past
      exact .inr (.inl ⟨key, Store.writtenSince_commit_self written past⟩)
    have same : txn.writes.read (db.commit other) (db.commit other).clock =
        txn.writes.read db db.clock := by
      funext key
      have untouched : other key = none := by
        cases held : other key with
        | none => rfl
        | some pair => exact absurd ⟨key, pair, held⟩ writes
      unfold Buffer.read
      have newest := Store.latest_commit db other key
      rw [untouched] at newest
      unfold Store.latest at newest
      rw [newest]
    refine .inr (.inr ?_)
    unfold Owed
    rw [same]
    exact owed

end Transactions

variable {T : Type} [DecidableEq T] {history after : History T V C} {txn : Transaction V C} {id : T}

theorem Good.set (good : Good schema table constraint history)
    {stale unguarded : Prop} (running : Running schema table constraint history.db txn) :
    Good schema table constraint { history.set id (some txn) with stale, unguarded } := by
  refine ⟨good.allowed, forall_update good.running ?_⟩
  rintro _ ⟨⟩
  exact running

theorem Good.commit (good : Good schema table constraint history)
    (isRunning : history.active id = some txn) (sane : txn.failed = false)
    (verified : ∀ row ∈ txn.pending, Verified schema table constraint (txn.view history.db) row)
    (unrefused : ¬ txn.writes.Conflicted history.db)
    (guarded : constraint.scanned = true → ¬ ∃ key, history.db.writtenSince key txn.start)
    {stale unguarded : Prop} :
    Good schema table constraint
      { history.set id none with db := history.db.commit txn.writes, stale, unguarded } := by
  have running := good.running id txn isRunning
  refine ⟨Buffer.forall_commit _ good.allowed ?_, ?_⟩
  · apply Allowed.commit (good.allowed _) running.now.filed
    · exact running.now.claimed.resolve_left unrefused
    · exact running.now.listed
    intro scanned
    have quiet := not_exists.mp (guarded scanned)
    rcases running.owed scanned with failed | written | owed
    · rw [sane] at failed
      cases failed
    · exact absurd written (guarded scanned)
    · exact owed.verified scanned running good.allowed quiet verified
  · exact forall_update (fun other held isHeld => (good.running other held isHeld).commit _) nofun

variable [DecidableEq C]

section

variable (step : History.Step schema table constraint history after)
include step

theorem step_kept (good : Good schema table constraint history) :
    Kept schema table constraint after := by
  cases step with
  | begin idle => exact .inr (.inr (good.set (opened_running good.allowed)))
  | refresh isRunning =>
    rename_i id txn
    have running := good.running id txn isRunning
    refine .inr (.inr (good.set ⟨running.begun.trans running.past, le_rfl, ?_, running.owed⟩))
    intro writes mem
    exact (running.known writes mem).later running.past
  | savepoint isRunning =>
    rename_i id txn
    have running := good.running id txn isRunning
    refine .inr (.inr (good.set ⟨running.begun, running.past, ?_, running.owed⟩))
    intro writes mem
    rcases mem_cons.mp mem with rfl | earlier
    · exact running.now
    · exact running.known writes earlier
  | rewind isRunning isSaved =>
    rename_i id txn writes
    have running := good.running id txn isRunning
    cases scanned : constraint.scanned with
    | true => exact .inr (.inl ⟨scanned, trivial⟩)
    | false =>
      have back : Running schema table constraint history.db
          { txn with writes, failed := false } := by
        refine ⟨running.begun, running.past, ?_, ?_⟩
        · intro other mem
          rcases mem_cons.mp mem with rfl | earlier
          · exact running.known _ (mem_cons_of_mem _ isSaved)
          · exact running.known other (mem_cons_of_mem _ earlier)
        · intro isScanned
          rw [scanned] at isScanned
          cases isScanned
      exact .inr (.inr (good.set back))
  | remove isRunning sane has =>
    rename_i id txn row found
    by_cases current : Holds (txn.view history.db) (schema.rowKey table row) row
    · have running := (good.running id txn isRunning).removed good.allowed has current
      exact .inr (.inr (good.set running))
    · exact .inl (.inr current)
  | write isRunning sane has absent unclaimed verified =>
    rename_i id txn row found
    have running := good.running id txn isRunning
    have known := running.wrote has unclaimed
    refine .inr (.inr (good.set (running.rewritten known ?_)))
    intro scanned quiet owed
    apply owed.wrote has fun each mem => mem
    intro key other holds different clash
    have sees : (txn.writeRow schema table found row).writes.read history.db txn.statement = _ :=
      Buffer.read_eq_of_quiet quiet running.begun running.past
    obtain ⟨_, written⟩ := (place_placed txn.writes txn.statement has
      (some (.primaryKey (primaryKeyOf table row))) (some (.row row))).rowSelf
    have free := verified scanned
    unfold Transaction.view at free
    have isThere : Holds ((txn.writeRow schema table found row).writes.read history.db
        history.db.clock) (schema.rowKey table row) row := Buffer.read_of_some written
    rw [← sees] at holds isThere
    have filed := known.filed.read (good.allowed _) holds
    exact absurd clash (free.not_clash scanned
      (fun _ => known.listed.read (good.allowed txn.statement) isThere)
      (fun _ => known.listed.read (good.allowed txn.statement) holds) holds rfl filed
      different.symm)
  | writeDeferred isRunning sane has absent deferrable =>
    rename_i id txn row found
    have running := good.running id txn isRunning
    have known := running.wrote has fun entry isFound byValue => by
      subst isFound
      rw [not_byValue_of_deferrable deferrable has] at byValue
      cases byValue
    refine .inr (.inr (good.set (running.rewritten known ?_)))
    intro _ _ owed
    apply owed.wrote has fun each mem => mem_cons_of_mem _ mem
    intro _ _ _ _ _
    exact mem_cons_self
  | settle isRunning verified =>
    rename_i id txn
    have running := good.running id txn isRunning
    refine .inr (.inr (good.set (running.rewritten running.now ?_)))
    intro scanned quiet owed key row key' row' holds holds' different clash
    exact absurd clash
      (owed.verified scanned running good.allowed quiet verified key row key' row' holds holds' different)
  | settleFails isRunning owed refuted =>
    rename_i id txn row
    have running := good.running id txn isRunning
    exact .inr (.inr (good.set ⟨running.begun, running.past, running.known, fun _ => .inl rfl⟩))
  | commit isRunning sane verified unrefused =>
    rename_i id txn
    by_cases crossed : constraint.scanned = true ∧ ∃ key, history.db.writtenSince key txn.start
    · exact .inr (.inl ⟨crossed.1, .inr crossed.2⟩)
    refine .inr (.inr (good.commit isRunning sane verified unrefused ?_))
    intro scanned written
    exact crossed ⟨scanned, written⟩
  | rollback isRunning =>
    exact .inr (.inr ⟨good.allowed, forall_update good.running nofun⟩)

theorem step_stale (stale : history.stale) : after.stale := by
  cases step with
  | remove isRunning sane has => exact .inl stale
  | begin | refresh | savepoint | rewind | write | writeDeferred | settle | settleFails | commit
  | rollback => exact stale

theorem step_unguarded (unguarded : history.unguarded) : after.unguarded := by
  cases step with
  | rewind => exact trivial
  | commit => exact .inl unguarded
  | begin | refresh | savepoint | remove | write | writeDeferred | settle | settleFails
  | rollback => exact unguarded

end

theorem run_kept (steps : ReflTransGen (History.Step schema table constraint) history after)
    (kept : Kept schema table constraint history) : Kept schema table constraint after := by
  induction steps with
  | refl => exact kept
  | tail _ step ih =>
    rcases ih with stale | ⟨scanned, unguarded⟩ | good
    · exact .inl (step_stale step stale)
    · exact .inr (.inl ⟨scanned, step_unguarded step unguarded⟩)
    · exact step_kept step good

end Runs

/-! ## Two transactions at once -/

section Crossing

def nothing : Database V C := ⟨0, fun _ => [], fun _ _ member => absurd member not_mem_nil⟩

theorem nothing_allowed (schema : Schema V C) (table : TableDef V) (constraint : Constraint V)
    (ts : Nat) : Allowed schema table constraint (nothing.valueAt ts) := by
  refine ⟨fun key row holds => ?_, fun key row entry holds => ?_, fun key row entry holds => ?_,
    fun _ key row key' row' holds => ?_⟩
  all_goals cases holds

variable [DecidableEq C] {schema : Schema V C} {table : TableDef V} {index : IndexDef V}
  {row row' : Row V} {found found' : Entry V C}

/-- One row written by a transaction that wrote nothing before. -/
def onlyRow (schema : Schema V C) (table : TableDef V) (found : Entry V C) (row : Row V) :
    Transaction V C :=
  (Transaction.opened 0).writeRow schema table (some found) row

theorem onlyRow_writes {key : StoreKey C}
    (writes : (onlyRow schema table found row).writes key = some pair) :
    key = .row (schema.rowKey table row) ∨ key = .entry found.key := by
  by_contra neither
  rw [not_or] at neither
  have untouched := (Buffer.put_of_ne neither.1).symm.trans writes
  have empty := (Buffer.put_of_ne neither.2).symm.trans untouched
  cases empty

theorem onlyRow_verified (schema : Schema V C) (table : TableDef V) (index : IndexDef V)
    (found : Entry V C) (row : Row V) :
    Verified schema table (.unique index) ((onlyRow schema table found row).view nothing) row := by
  intro code _ entry entry' _ _ there there'
  have isEntry (place : EntryKey C)
      (there : (onlyRow schema table found row).view nothing (.entry place) ≠ none) :
      place = found.key := by
    cases written : (onlyRow schema table found row).writes (.entry place) with
    | none => exact absurd (Buffer.read_of_none written) there
    | some pair =>
      rcases onlyRow_writes written with same | same
      · cases same
      · exact StoreKey.entry.inj same
  rw [isEntry entry there, isEntry entry' there']

/-- The transaction `true` writes the first row and `false` the second, both begun before. -/
def bothWrote (schema : Schema V C) (table : TableDef V) (found found' : Entry V C)
    (row row' : Row V) : History Bool V C :=
  ((((History.opening nothing).set true (some (Transaction.opened 0))).set false
    (some (Transaction.opened 0))).set true (some (onlyRow schema table found row))).set false
    (some (onlyRow schema table found' row'))

theorem bothWrote_steps (has : entry schema table index row = .ok (some found))
    (has' : entry schema table index row' = .ok (some found')) :
    ReflTransGen (History.Step schema table (.unique index)) (History.opening nothing)
      (bothWrote schema table found found' row row') := by
  refine .tail (.tail (.tail (.tail .refl (.begin ?_)) (.begin ?_)) (.write ?_ ?_ has ?_ ?_ ?_))
    (.write ?_ ?_ has' ?_ ?_ ?_)
  -- Each transaction reads an empty snapshot, so that nothing stands against its row.
  any_goals rfl
  · exact fun _ _ _ => rfl
  · exact fun _ => onlyRow_verified schema table index found row
  · exact fun _ _ _ => rfl
  · exact fun _ => onlyRow_verified schema table index found' row'

def oneCommitted (schema : Schema V C) (table : TableDef V) (found found' : Entry V C)
    (row row' : Row V) : History Bool V C :=
  { (bothWrote schema table found found' row row').set true none with
    db := nothing.commit (onlyRow schema table found row).writes
    unguarded := False ∨ ∃ key, (nothing : Database V C).writtenSince key 0 }

def bothCommitted (schema : Schema V C) (table : TableDef V) (found found' : Entry V C)
    (row row' : Row V) : History Bool V C :=
  { (oneCommitted schema table found found' row row').set false none with
    db := (nothing.commit (onlyRow schema table found row).writes).commit
      (onlyRow schema table found' row').writes
    unguarded := (oneCommitted schema table found found' row row').unguarded ∨
      ∃ key, (nothing.commit (onlyRow schema table found row).writes).writtenSince key 0 }

theorem bothCommitted_steps (has : entry schema table index row = .ok (some found))
    (has' : entry schema table index row' = .ok (some found'))
    (rows : schema.rowKey table row ≠ schema.rowKey table row') (entries : found.key ≠ found'.key) :
    ReflTransGen (History.Step schema table (.unique index)) (History.opening nothing)
      (bothCommitted schema table found found' row row') := by
  have running : (bothWrote schema table found found' row row').active true =
      some (onlyRow schema table found row) := rfl
  have running' : (oneCommitted schema table found found' row row').active false =
      some (onlyRow schema table found' row') := rfl
  have first : History.Step schema table (.unique index)
      (bothWrote schema table found found' row row')
      (oneCommitted schema table found found' row row') := by
    refine .commit running rfl (fun _ mem => absurd mem not_mem_nil) ?_
    rintro ⟨_, _, _, _, _, mem, _⟩
    exact absurd mem not_mem_nil
  refine .tail (.tail (bothWrote_steps has has') first)
    (.commit running' rfl (fun _ mem => absurd mem not_mem_nil) ?_)
  rintro ⟨key, value, stamp, writes, version, mem, _⟩
  have untouched : (onlyRow schema table found row).writes key = none := by
    cases held : (onlyRow schema table found row).writes key with
    | none => rfl
    | some pair =>
      rcases onlyRow_writes writes with rfl | rfl
      · rcases onlyRow_writes held with same | same
        · exact absurd (StoreKey.row.inj same).symm rows
        · cases same
      rcases onlyRow_writes held with same | same
      · cases same
      · exact absurd (StoreKey.entry.inj same).symm entries
  simp only [oneCommitted, Store.commit, untouched, nothing] at mem
  exact absurd mem not_mem_nil

theorem onlyRow_row (schema : Schema V C) (table : TableDef V) (found : Entry V C) (row : Row V) :
    ∃ stamp, (onlyRow schema table found row).writes (.row (schema.rowKey table row)) =
      some (some (.row row), stamp) := by
  obtain ⟨stamp, written, _⟩ := Buffer.put_self (Buffer.put Buffer.empty 0 (.entry found.key)
      (some (.primaryKey (primaryKeyOf table row)))) 0
    (StoreKey.row (schema.rowKey table row)) (some (Stored.row row))
  exact ⟨stamp, written⟩

theorem bothCommitted_holds (found found' : Entry V C)
    (rows : schema.rowKey table row ≠ schema.rowKey table row') :
    Holds (bothCommitted schema table found found' row row').db.latest (schema.rowKey table row)
        row ∧
      Holds (bothCommitted schema table found found' row row').db.latest (schema.rowKey table row')
        row' := by
  obtain ⟨_, written⟩ := onlyRow_row schema table found row
  obtain ⟨_, written'⟩ := onlyRow_row schema table found' row'
  unfold Holds bothCommitted
  refine ⟨?_, ?_⟩
  · dsimp only
    rw [Store.latest_commit]
    cases held : (onlyRow schema table found' row').writes (.row (schema.rowKey table row)) with
    | none =>
      rw [Store.latest_commit, written]
    | some pair =>
      rcases onlyRow_writes held with same | same
      · exact absurd (StoreKey.row.inj same) rows
      · cases same
  · dsimp only
    rw [Store.latest_commit, written']

variable (deferrable : Bool)

/-- Rows `(id, code)` with a unique constraint on the code. -/
def codeIndex : IndexDef Nat where
  id := 7
  unique := true
  deferrable
  nullsNotDistinct := false
  state := .published
  keyColumns := some [1]
  admits := fun _ => .ok true
  keyValues := fun row => .ok (pick [1] row)

def codeTable : TableDef Nat where
  id := 1
  primaryKey := [0]
  defaults := [none, none]
  indexes := [codeIndex deferrable]
  foreignKeys := []
  allows _ := true
  indexIds := pairwise_singleton _ _

def codeSchema : Schema Nat Nat where
  code value := value
  tables := [codeTable deferrable]
  tableIds := pairwise_singleton _ _

/-- The entry of the row `(id, code)`. -/
def codeEntry (id code : Nat) : Entry Nat Nat where
  key := (codeSchema deferrable).entryKey [some code] [some id] (!deferrable)
  values := [some code]
  byValue := !deferrable

theorem codeEntry_has (id code : Nat) :
    entry (codeSchema deferrable) (codeTable deferrable) (codeIndex deferrable)
      [some id, some code] = .ok (some (codeEntry deferrable id code)) := by
  cases deferrable <;> rfl

theorem codeKeys_ne (code code' : Nat) :
    (codeSchema deferrable).rowKey (codeTable deferrable) [some 1, some code] ≠
      (codeSchema deferrable).rowKey (codeTable deferrable) [some 2, some code'] := by
  intro same
  have codes := WithTop.coe_injective (List.cons.inj same).1
  exact absurd codes (by decide : (1 : Nat) ≠ 2)

end Crossing

end Esker.Sql.Histories
