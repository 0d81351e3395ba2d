import Esker.Sql.Filters

/-!
Contract: a join that becomes a membership test (`why_this_join_stays_on_rows`, `split_by_side`,
`absorb_join` and `push_the_semi_join_down` of `esker-sql/src/exec/fragment.rs`, `probe_for` of
`esker-sql/src/exec/query.rs`, the nested loop of `esker-sql/src/exec/cursor.rs`).

Owns: the nested loop with its probe, the rewritten filter, and when both choose the same outer
rows.

Does not own: how the outer side's own conditions are evaluated on columns (`Esker.Sql.Filters`).
-/

namespace Esker.Sql

open List

variable {N F : Type}

/-- How the inner row is found: by the primary key, by a unique index, or by reading all rows. -/
inductive Probe where
  | primaryKey (outer : Nat)
  | uniqueIndex (index outer : Nat)
  | materialize
deriving DecidableEq, Repr

structure InnerTable where
  primaryKey : List Nat
  uniqueIndexes : List (Nat × List Nat)
  children : Option Bool
deriving DecidableEq, Repr

structure Join (N F : Type) where
  leftJoin : Bool
  derived : Bool
  probe : Probe
  residual : Option (Expr N F)
  outerFilter : Option (Expr N F)

/-- What absorbing a join leaves: the conditions of the fragment, those of the key set, the column
that supplies the keys and the one that is tested. -/
structure Absorbed (N F : Type) where
  filter : List (Expr N F)
  keyFilter : List (Expr N F)
  keyColumn : Nat
  outerColumn : Nat

/-! ## The plan -/

def conjuncts : Expr N F → List (Expr N F)
  | .binary .and left right => conjuncts left ++ conjuncts right
  | expr => [expr]

/-- `key_probe` on an equality of two columns. The inner side's columns start at the boundary. -/
def keyProbe (boundary : Nat) (inner : InnerTable) : Expr N F → Option Probe
  | .binary (.compare .eq) (.ordinal left) (.ordinal right) =>
    let sides :=
      if left < boundary ∧ boundary ≤ right then some (left, right - boundary)
      else if boundary ≤ left ∧ right < boundary then some (right, left - boundary)
      else none
    match sides with
    | none => none
    | some (outer, column) =>
      if inner.primaryKey = [column] then some (.primaryKey outer)
      else
        (inner.uniqueIndexes.find? fun index => index.2 = [column]).map fun index =>
          .uniqueIndex index.1 outer
  | _ => none

/-- `probe_for`: the first key equality becomes the probe, the other conjuncts stay. -/
def probeFor (boundary : Nat) (inner : InnerTable) : List (Expr N F) →
    Option (Probe × List (Expr N F))
  | [] => none
  | conjunct :: rest =>
    match keyProbe boundary inner conjunct with
    | some probe => some (probe, rest)
    | none => (probeFor boundary inner rest).map fun found => (found.1, conjunct :: found.2)

def whyThisJoinStaysOnRows (join : Join N F) : Option String :=
  if join.leftJoin then some "a LEFT JOIN, whose unmatched rows a filter would drop"
  else if join.derived then some "a join whose inner side is a catalog view or a derived table"
  else
    match join.probe with
    | .materialize =>
      some "a join on a non-unique inner column, where one outer row may match many"
    | _ => none

/-- `rebased_onto_the_inner_row`: a column against a literal, in either order. -/
def rebasedOntoTheInnerRow (width : Nat) : Expr N F → Option (Expr N F)
  | .binary op (.ordinal column) (.literal value) =>
    if width ≤ column then some (.binary op (.ordinal (column - width)) (.literal value))
    else none
  | .binary op (.literal value) (.ordinal column) =>
    if width ≤ column then some (.binary op (.literal value) (.ordinal (column - width)))
    else none
  | _ => none

/-- The loop of `split_by_side` over the conjuncts of the filter and of the residual. -/
def splitBySide (width : Nat) : List (Expr N F) →
    Except String (List (Expr N F) × List (Expr N F))
  | [] => .ok ([], [])
  | conjunct :: rest =>
    match splitBySide width rest with
    | .error what => .error what
    | .ok (outer, inner) =>
      if ∀ column ∈ conjunct.columns, column < width then .ok (conjunct :: outer, inner)
      else if ∀ column ∈ conjunct.columns, width ≤ column then
        match rebasedOntoTheInnerRow width conjunct with
        | some rebased => .ok (outer, rebased :: inner)
        | none => .error "a join condition over a shape this build cannot move"
      else .error "a join condition naming both sides"

/-- The conditions over the combined row: the filter above the loop and the residual on it. -/
def conditions (filter : Option (Expr N F)) (join : Join N F) : List (Expr N F) :=
  (filter.map conjuncts).getD [] ++ (join.residual.map conjuncts).getD []

/-- `absorb_join`, over an outer table of the width. -/
def absorbJoin (width : Nat) (inner : InnerTable) (join : Join N F) (filter : Option (Expr N F)) :
    Except String (Absorbed N F) :=
  match whyThisJoinStaysOnRows join with
  | some refusal => .error refusal
  | none =>
    match inner.children with
    | none => .error "a join whose inner table reached the planner un-hydrated"
    | some true => .error "a join whose inner table has children"
    | some false =>
      match inner.primaryKey with
      | [keyColumn] =>
        match splitBySide width (conditions filter join) with
        | .error what => .error what
        | .ok (outer, keys) =>
          match join.probe with
          | .primaryKey column | .uniqueIndex _ column =>
            .ok
              { filter := join.outerFilter.toList ++ outer
                keyFilter := keys
                keyColumn
                outerColumn := column }
          | .materialize => .error "this access path"
      | _ => .error "a join whose inner key is not a single primary-key column"

/-! ## The row plan -/

section Rows

variable (engine : Engine N F)

def Expr.passes (expr : Expr N F) (row : List (Datum N F)) : Bool :=
  match expr.evaluate engine row with
  | .ok (.bool true) => true
  | _ => false

/-- The outer column that is probed with, and the inner column it is looked up in. -/
def probedColumns (inner : InnerTable) : Probe → Option (Nat × Nat)
  | .primaryKey outer => (inner.primaryKey[0]?).map fun column => (outer, column)
  | .uniqueIndex index outer =>
    match inner.uniqueIndexes.find? fun entry => entry.1 == index with
    | some (_, [column]) => some (outer, column)
    | _ => none
  | .materialize => none

/-- The point read: a NULL finds nothing, and a key finds the row that has it. -/
def probeRow (table : InnerTable) (probe : Probe) (innerRows : List (List (Datum N F)))
    (outer : List (Datum N F)) : Option (List (Datum N F)) :=
  match probedColumns table probe with
  | none => none
  | some (outerColumn, innerColumn) =>
    if (columnOf outer outerColumn).isNull then none
    else
      innerRows.find? fun inner =>
        !(columnOf inner innerColumn).isNull &&
          ((columnOf outer outerColumn).pgCmp engine (columnOf inner innerColumn)).isEq

/-- The outer parts of the pairs that the nested loop and the filter above it produce. -/
def joinedRows (table : InnerTable) (join : Join N F) (filter : Option (Expr N F))
    (outerRows innerRows : List (List (Datum N F))) : List (List (Datum N F)) :=
  outerRows.filter fun outer =>
    join.outerFilter.all (·.passes engine outer) &&
      match probeRow engine table join.probe innerRows outer with
      | none => false
      | some inner =>
        join.residual.all (·.passes engine (outer ++ inner)) &&
          filter.all (·.passes engine (outer ++ inner))

/-! ## The columnar plan -/

/-- The keys plan: the key column of the inner rows that its filter keeps. -/
def keyDatums (absorbed : Absorbed N F) (innerRows : List (List (Datum N F))) : List (Datum N F) :=
  (innerRows.filter fun inner => absorbed.keyFilter.all (·.passes engine inner)).map
    (columnOf · absorbed.keyColumn)

def maxInValues : Nat := 4096

/-- The key set: NULLs are dropped, and a key that no column carries refuses. The values are then
sorted and equal ones removed, which does not change what a search finds. -/
def keySet : List (Datum N F) → Except String (List (Value F))
  | [] => .ok []
  | datum :: rest =>
    match keySet rest with
    | .error what => .error what
    | .ok values =>
      if datum.isNull then .ok values
      else if (datum.toValue engine).asRef.isNull then
        .error "a join key of a type no fragment carries"
      else if maxInValues < values.length + 1 then
        .error "a join whose inner side has more keys than a fragment carries"
      else .ok (datum.toValue engine :: values)

def rewrittenRows (absorbed : Absorbed N F) (values : List (Value F))
    (outerRows : List (List (Datum N F))) : List (List (Datum N F)) :=
  outerRows.filter fun outer =>
    absorbed.filter.all (·.passes engine outer) &&
      if values.isEmpty then false
      else
        (ColExpr.isIn (.column 0) values).matches engine
          [(columnOf outer absorbed.outerColumn).asRef engine]

end Rows

/-! ## Conditions by side -/

variable {column : Nat}

section Sides

variable {engine : Engine N F} {outer inner : List (Datum N F)} {width : Nat}

theorem passes_and (left right : Expr N F) (row : List (Datum N F)) :
    (Expr.binary .and left right).passes engine row =
      (left.passes engine row && right.passes engine row) := by
  unfold Expr.passes
  rw [Expr.evaluate]
  cases left.evaluate engine row with
  | error error => rfl
  | ok leftValue =>
    cases right.evaluate engine row with
    | error error => simp
    | ok rightValue =>
      cases leftValue with
      | bool leftTruth =>
        cases rightValue with
        | bool rightTruth => cases leftTruth <;> cases rightTruth <;> rfl
        | _ => cases leftTruth <;> rfl
      | null =>
        cases rightValue with
        | bool rightTruth => cases rightTruth <;> rfl
        | _ => rfl
      | _ => rfl

theorem passes_conjuncts (expr : Expr N F) (row : List (Datum N F)) :
    (conjuncts expr).all (·.passes engine row) = expr.passes engine row := by
  induction expr with
  | binary op left right leftHypothesis rightHypothesis =>
    cases op with
    | and =>
      rw [conjuncts, all_append, leftHypothesis, rightHypothesis, passes_and]
    | _ => simp [conjuncts]
  | _ => simp [conjuncts]

theorem columnOf_append_left (below : column < outer.length) :
    columnOf (outer ++ inner) column = columnOf outer column := by
  unfold columnOf
  rw [getD_eq_getElem?_getD, getD_eq_getElem?_getD, getElem?_append_left below]

theorem columnOf_append_right (above : outer.length ≤ column) :
    columnOf (outer ++ inner) column = columnOf inner (column - outer.length) := by
  unfold columnOf
  rw [getD_eq_getElem?_getD, getD_eq_getElem?_getD, getElem?_append_right above]

theorem evaluate_outer {expr : Expr N F} (own : ∀ column ∈ expr.columns, column < outer.length) :
    expr.evaluate engine (outer ++ inner) = expr.evaluate engine outer := by
  induction expr with
  | ordinal column =>
    rw [Expr.evaluate, Expr.evaluate, columnOf_append_left (own column mem_cons_self)]
  | literal value => rfl
  | not operand ih | isNull operand negated ih =>    rw [Expr.evaluate, Expr.evaluate, ih own]
  | binary op left right leftHypothesis rightHypothesis =>
    rw [Expr.evaluate, Expr.evaluate,
      leftHypothesis fun column mem => own column (mem_append_left _ mem),
      rightHypothesis fun column mem => own column (mem_append_right _ mem)]
  | other what columns run =>
    rw [Expr.evaluate, Expr.evaluate]
    congr 1
    apply map_congr_left
    intro column mem
    exact columnOf_append_left (own column mem)

theorem evaluate_rebased {expr rebased : Expr N F}
    (moved : rebasedOntoTheInnerRow outer.length expr = some rebased) :
    expr.evaluate engine (outer ++ inner) = rebased.evaluate engine inner := by
  unfold rebasedOntoTheInnerRow at moved
  split at moved
  · split at moved
    · rename_i above
      cases moved
      simp only [Expr.evaluate, columnOf_append_right above]
    · cases moved
  · split at moved
    · rename_i above
      cases moved
      simp only [Expr.evaluate, columnOf_append_right above]
    · cases moved
  · cases moved

theorem passes_split {conditions outerSide innerSide : List (Expr N F)}
    (split : splitBySide outer.length conditions = .ok (outerSide, innerSide)) :
    conditions.all (·.passes engine (outer ++ inner)) =
      (outerSide.all (·.passes engine outer) && innerSide.all (·.passes engine inner)) := by
  induction conditions generalizing outerSide innerSide with
  | nil =>
    cases split
    rfl
  | cons conjunct rest ih =>
    unfold splitBySide at split
    split at split
    · cases split
    rename_i outerRest innerRest isRest
    have restSame := ih isRest
    rw [all_cons, restSame]
    split at split
    · rename_i own
      cases split
      rw [all_cons]
      unfold Expr.passes
      rw [evaluate_outer own]
      simp only [Bool.and_assoc]
    · split at split
      · split at split
        · rename_i rebased moved
          cases split
          rw [all_cons]
          unfold Expr.passes
          rw [evaluate_rebased moved]
          simp only [Bool.and_left_comm]
        · cases split
      · cases split

end Sides

/-! ## Membership -/

section Membership

/-- Equal by the comparison means equal: neither a float nor a type compared by representation. -/
def ColumnType.exact : ColumnType → Bool
  | .numeric | .interval | .double | .real => false
  | _ => true

theorem ColumnType.byValue_of_exact {type : ColumnType} (exact : type.exact = true) :
    type.byRepresentation = false := by
  cases type <;> first | rfl | cases exact

theorem Datum.pgCmp_isEq {engine : Engine N F} {left right : Datum N F} {type : ColumnType}
    (leftTyped : left.hasType type = true) (rightTyped : right.hasType type = true)
    (exact : type.exact = true) : (left.pgCmp engine right).isEq = true ↔ left = right := by
  cases type <;>
    first
    | exact (Bool.false_ne_true exact).elim
    | (cases left <;>
        first
        | exact (Bool.false_ne_true leftTyped).elim
        | (cases right <;>
            first
            | exact (Bool.false_ne_true rightTyped).elim
            | simp [Datum.pgCmp, Datum.integer?]))

/-- The types whose values a join may compare with one another, neither a float nor a type
compared by representation. -/
inductive JoinKind where
  | integer | text | bool | bytea | timestamp | date | time | uuid
deriving DecidableEq, Repr

def ColumnType.joinKind : ColumnType → Option JoinKind
  | .int8 | .int4 | .int2 | .oid => some .integer
  | .text | .varchar | .bpchar | .json | .jsonb => some .text
  | .bool => some .bool
  | .bytea => some .bytea
  | .timestampTz | .timestamp => some .timestamp
  | .date => some .date
  | .time => some .time
  | .uuid => some .uuid
  | .numeric | .interval | .double | .real => none

def Datum.hasKind : Datum N F → JoinKind → Bool
  | .null, _ => true
  | .int8 _, kind | .int4 _, kind | .int2 _, kind | .oid _, kind => kind == .integer
  | .text _, kind => kind == .text
  | .bool _, kind => kind == .bool
  | .bytea _, kind => kind == .bytea
  | .timestampTz _, kind | .timestamp _, kind => kind == .timestamp
  | .date _, kind => kind == .date
  | .time _, kind => kind == .time
  | .uuid _, kind => kind == .uuid
  | .double _, _ | .real _, _ | .interval _ _ _, _ | .numeric _, _ | .uncarried _ _, _ => false

theorem Datum.hasKind_of_hasType {datum : Datum N F} {type : ColumnType} {kind : JoinKind}
    (typed : datum.hasType type = true) (isKind : type.joinKind = some kind) :
    datum.hasKind kind = true := by
  cases type <;>
    first
    | cases isKind
      cases datum <;> first | rfl | exact (Bool.false_ne_true typed).elim
    | cases isKind

section Kinds

variable {engine : Engine N F} {left right : Datum N F} {kind : JoinKind}

/-- Two values of one kind compare alike on rows and on columns. -/
theorem Datum.pgCmp_asRef_of_hasKind (leftKind : left.hasKind kind = true)
    (rightKind : right.hasKind kind = true) :
    (left.asRef engine).pgCmp engine (right.asRef engine) = left.pgCmp engine right := by
  cases kind <;> cases left <;>
    first
    | exact (Bool.false_ne_true leftKind).elim
    | (cases right <;> first | exact (Bool.false_ne_true rightKind).elim | rfl)

theorem Datum.pgCmp_isEq_of_hasKind (leftKind : left.hasKind kind = true)
    (rightKind : right.hasKind kind = true) :
    (left.pgCmp engine right).isEq = true ↔ left.asRef engine = right.asRef engine := by
  cases kind <;> cases left <;>
    first
    | exact (Bool.false_ne_true leftKind).elim
    | (cases right <;>
        first
        | exact (Bool.false_ne_true rightKind).elim
        | simp [Datum.pgCmp, Datum.integer?, Datum.asRef, Datum.toValue, Value.asRef])

theorem Datum.eq_of_asRef {type : ColumnType} (leftTyped : left.hasType type = true)
    (rightTyped : right.hasType type = true) (isKind : type.joinKind = some kind)
    (same : left.asRef engine = right.asRef engine) : left = right := by
  have exact : type.exact = true := by cases type <;> first | rfl | cases isKind
  apply (Datum.pgCmp_isEq leftTyped rightTyped exact).mp
  exact (Datum.pgCmp_isEq_of_hasKind (Datum.hasKind_of_hasType leftTyped isKind)
    (Datum.hasKind_of_hasType rightTyped isKind)).mpr same

theorem Datum.carried_of_hasKind (hasKind : left.hasKind kind = true) : left.carried = true := by
  cases left <;> first | rfl | cases hasKind

end Kinds

variable {engine : Engine N F} {kind : JoinKind}

variable {datums : List (Datum N F)} {values : List (Value F)}

theorem mem_keySet (collected : keySet engine datums = .ok values) (value : Value F) :
    value ∈ values ↔ ∃ datum ∈ datums, datum.isNull = false ∧ datum.toValue engine = value := by
  induction datums generalizing values with
  | nil =>
    cases collected
    simp
  | cons datum rest ih =>
    unfold keySet at collected
    split at collected
    · cases collected
    rename_i found isRest
    have tail := ih isRest
    split at collected
    · rename_i isNull
      cases collected
      rw [tail]
      simp [isNull]
    · rename_i notNull
      split at collected
      · cases collected
      split at collected
      · cases collected
      cases collected
      rw [Bool.not_eq_true] at notNull
      rw [mem_cons, tail]
      constructor
      · rintro (rfl | ⟨other, mem, facts⟩)
        · exact ⟨datum, mem_cons_self, notNull, rfl⟩
        · exact ⟨other, mem_cons_of_mem _ mem, facts⟩
      rintro ⟨other, mem, facts⟩
      rcases mem_cons.mp mem with rfl | later
      · exact Or.inl facts.2.symm
      · exact Or.inr ⟨other, later, facts⟩

theorem membership {probe : Datum N F} (probeKind : probe.hasKind kind = true)
    (kinds : ∀ datum ∈ datums, datum.hasKind kind = true)
    (collected : keySet engine datums = .ok values) : (if values.isEmpty then false
      else (ColExpr.isIn (.column 0) values).matches engine [probe.asRef engine]) = true ↔
      probe.isNull = false ∧ ∃ datum ∈ datums, datum.asRef engine = probe.asRef engine := by
  have probeAlike : Alike probe (probe.asRef engine) :=
    alike_asRef (Datum.carried_of_hasKind probeKind)
  have found : (values.any fun value =>
        (value.asRef.pgCmp engine (probe.asRef engine)).isEq) = true ↔
      probe.isNull = false ∧ ∃ datum ∈ datums, datum.asRef engine = probe.asRef engine := by
    rw [any_eq_true]
    constructor
    · rintro ⟨value, mem, equal⟩
      obtain ⟨datum, isDatum, notNull, rfl⟩ := (mem_keySet collected value).mp mem
      have alike : Alike datum (datum.asRef engine) :=
        alike_asRef (Datum.carried_of_hasKind (kinds datum isDatum))
      have compared : (datum.asRef engine).pgCmp engine (probe.asRef engine) = _ :=
        Datum.pgCmp_asRef_of_hasKind (kinds datum isDatum) probeKind
      have same := (Datum.pgCmp_isEq_of_hasKind (kinds datum isDatum) probeKind).mp (compared ▸ equal)
      refine ⟨?_, datum, isDatum, same⟩
      rw [← probeAlike.isNull, ← same, alike.isNull]
      exact notNull
    · rintro ⟨notNull, datum, isDatum, same⟩
      have alike : Alike datum (datum.asRef engine) :=
        alike_asRef (Datum.carried_of_hasKind (kinds datum isDatum))
      rw [← probeAlike.isNull, ← same, alike.isNull] at notNull
      refine ⟨datum.toValue engine, (mem_keySet collected _).mpr ⟨datum, isDatum, notNull, rfl⟩, ?_⟩
      have compared : (datum.asRef engine).pgCmp engine (probe.asRef engine) = _ :=
        Datum.pgCmp_asRef_of_hasKind (kinds datum isDatum) probeKind
      rw [← Datum.asRef, compared]
      exact (Datum.pgCmp_isEq_of_hasKind (kinds datum isDatum) probeKind).mpr same
  cases values with
  | nil =>
    simp only [any_nil] at found
    simpa using found
  | cons value rest =>
    simp only [isEmpty_cons, ColExpr.matches, ColExpr.evaluate]
    rw [← found]
    cases isNull : probe.isNull with
    | true =>
      have nothing : ¬ ((value :: rest).any fun value =>
          (value.asRef.pgCmp engine (probe.asRef engine)).isEq) = true := by
        intro holds
        have notNull := (found.mp holds).1
        rw [isNull] at notNull
        cases notNull
      simp only [getD_cons_zero, probeAlike.isNull, isNull, if_true]
      simpa using nothing
    | false =>
      simp only [getD_cons_zero, probeAlike.isNull, isNull]
      cases (value :: rest).any fun value =>
        (value.asRef.pgCmp engine (probe.asRef engine)).isEq <;> simp

end Membership

/-! ## The rewritten join -/

section Rewriting

variable {engine : Engine N F} {outerType keyType : ColumnType} {kind : JoinKind}

theorem absorbJoin_ok {width : Nat} {table : InnerTable} {join : Join N F}
    {filter : Option (Expr N F)} {absorbed : Absorbed N F} (byKey : join.probe = .primaryKey column)
    (accepted : absorbJoin width table join filter = .ok absorbed) :
    table.primaryKey = [absorbed.keyColumn] ∧ absorbed.outerColumn = column ∧
      ∃ outerSide, splitBySide width (conditions filter join) = .ok (outerSide, absorbed.keyFilter) ∧
        absorbed.filter = join.outerFilter.toList ++ outerSide := by
  unfold absorbJoin at accepted
  split at accepted
  · cases accepted
  split at accepted
  · cases accepted
  · cases accepted
  split at accepted
  · rename_i keyColumn isKey
    split at accepted
    · cases accepted
    rename_i outerSide keys isSplit
    rw [byKey] at accepted
    cases accepted
    exact ⟨isKey, rfl, outerSide, isSplit, rfl⟩
  · cases accepted

theorem passes_conditions (filter : Option (Expr N F)) (join : Join N F) (row : List (Datum N F)) :
    (conditions filter join).all (·.passes engine row) =
      (join.residual.all (·.passes engine row) && filter.all (·.passes engine row)) := by
  unfold conditions
  rw [all_append, Bool.and_comm]
  congr 1
  · cases join.residual with
    | none => rfl
    | some residual => exact passes_conjuncts residual row
  cases filter with
  | none => rfl
  | some filter => exact passes_conjuncts filter row

end Rewriting

/-! ## A join on another unique column -/

section OtherColumn

/-- Rows `(id, code)` with the primary key `id` and a unique index on `code`. -/
def codes : InnerTable := ⟨[0], [(9, [1])], some false⟩

/-- The condition `outer.1 = codes.column`, over outer rows of two columns. -/
def onColumn (column : Nat) : Expr Empty Empty :=
  .binary (.compare .eq) (.ordinal 1) (.ordinal (2 + column))

def codesJoin (column : Nat) : Join Empty Empty where
  leftJoin := false
  derived := false
  probe := ((probeFor 2 codes (conjuncts (onColumn column))).map Prod.fst).getD .materialize
  residual := none
  outerFilter := none

def codeRows : List (List (Datum Empty Empty)) := [[.int8 1, .int8 7], [.int8 2, .int8 8]]

/-- The filter `codes.code = 7`, which goes to the key set. -/
def codeIsSeven : Expr Empty Empty :=
  .binary (.compare .eq) (.ordinal 3) (.literal (.integer 7))

/-- What the row plan and, where the join is absorbed, the columnar plan keep. -/
def bothPlans (column : Nat) (filter : Option (Expr Empty Empty))
    (outerRows : List (List (Datum Empty Empty))) :
    List (List (Datum Empty Empty)) × Except String (List (List (Datum Empty Empty))) :=
  (joinedRows plainEngine codes (codesJoin column) filter outerRows codeRows,
    match absorbJoin 2 codes (codesJoin column) filter with
    | .error what => .error what
    | .ok absorbed =>
      match keySet plainEngine (keyDatums plainEngine absorbed codeRows) with
      | .error what => .error what
      | .ok values => .ok (rewrittenRows plainEngine absorbed values outerRows))

/-- The join on `id` with that filter, absorbed. -/
def keyAbsorbed : Absorbed Empty Empty where
  filter := []
  keyFilter := [.binary (.compare .eq) (.ordinal 1) (.literal (.integer 7))]
  keyColumn := 0
  outerColumn := 1

end OtherColumn

end Esker.Sql
