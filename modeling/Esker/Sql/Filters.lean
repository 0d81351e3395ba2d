import Esker.Sql.Values

/-!
Contract: filters on rows and the filters that regions evaluate on columns (`push_filter`,
`literal_value` and `comparable` of `esker-sql/src/exec/fragment.rs`, `evaluate` of
`esker-sql/src/exec/cursor.rs`, `esker-columnar/src/fragment/expr.rs`).

Owns: the three-valued evaluation of both, the translation, and when they choose the same rows.

Does not own: shapes that are never pushed down, which are functions of the columns they read.
-/

namespace Esker.Sql

open List

inductive CompareOp where
  | eq | notEq | lt | ltEq | gt | gtEq
deriving DecidableEq, Repr

def CompareOp.holds : CompareOp → Ordering → Bool
  | .eq, ordering => ordering.isEq
  | .notEq, ordering => !ordering.isEq
  | .lt, ordering => ordering.isLT
  | .ltEq, ordering => ordering.isLE
  | .gt, ordering => ordering.isGT
  | .gtEq, ordering => ordering.isGE

inductive BinaryOp where
  | and
  | or
  | compare (op : CompareOp)
  | distinct
  | notDistinct
deriving DecidableEq, Repr

inductive Literal (N F : Type) where
  | null
  | typedNull (type : ColumnType)
  | bool (value : Bool)
  | integer (value : Int)
  | string (bytes : List Nat)
  | decimal (digits : List Nat)
  | typed (value : Datum N F)

inductive EvalError where
  | nonBooleanArgument (construct : String)
  | datatypeMismatch
  | invalidText
  | failed (text : String)
deriving DecidableEq, Repr

/-- A resolved expression of the row engine. `other` is every shape that is not pushed down: what
it is called in the refusal, the columns it reads and what it makes of them. -/
inductive Expr (N F : Type) where
  | ordinal (at_ : Nat)
  | literal (value : Literal N F)
  | not (operand : Expr N F)
  | isNull (operand : Expr N F) (negated : Bool)
  | binary (op : BinaryOp) (left right : Expr N F)
  | other (what : String) (columns : List Nat) (run : List (Datum N F) → Except EvalError (Datum N F))

inductive ColExpr (F : Type) where
  | column (slot : Nat)
  | literal (value : Value F)
  | isNull (operand : ColExpr F) (negated : Bool)
  | isIn (operand : ColExpr F) (values : List (Value F))
  | not (operand : ColExpr F)
  | and (left right : ColExpr F)
  | or (left right : ColExpr F)
  | compare (op : CompareOp) (left right : ColExpr F)

variable {N F : Type}

/-! ## The row engine -/

/-- `truth_of`: an operand of `AND` and `OR`. -/
def Datum.truthOf (construct : String) : Datum N F → Except EvalError (Option Bool)
  | .bool value => .ok (some value)
  | .null => .ok none
  | _ => .error (.nonBooleanArgument construct)

/-- Three-valued `AND`: a definite false decides. -/
def threeValuedAnd : Option Bool → Option Bool → Option Bool
  | some false, _ | _, some false => some false
  | some true, some true => some true
  | _, _ => none

/-- Three-valued `OR`: a definite true decides. -/
def threeValuedOr : Option Bool → Option Bool → Option Bool
  | some true, _ | _, some true => some true
  | some false, some false => some false
  | _, _ => none

def Datum.ofTruth : Option Bool → Datum N F
  | some value => .bool value
  | none => .null

variable (engine : Engine N F)

def Literal.evaluate : Literal N F → Except EvalError (Datum N F)
  | .null | .typedNull _ => .ok .null
  | .bool value => .ok (.bool value)
  | .integer value => .ok (.int8 value)
  | .string bytes => .ok (.text bytes)
  | .decimal digits =>
    match engine.readNumeric digits with
    | some value => .ok (.numeric value)
    | none => .error .invalidText
  | .typed value => .ok value

def columnOf (row : List (Datum N F)) (at_ : Nat) : Datum N F := row.getD at_ .null

def Datum.compared (op : CompareOp) (left right : Datum N F) : Datum N F :=
  if left.isNull || right.isNull then .null else .bool (op.holds (left.pgCmp engine right))

/-- `evaluate` of the row engine, on the shapes of a filter. -/
def Expr.evaluate (engine : Engine N F) (row : List (Datum N F)) :
    Expr N F → Except EvalError (Datum N F)
  | .ordinal at_ => .ok (columnOf row at_)
  | .literal value => value.evaluate engine
  | .not operand =>
    match operand.evaluate engine row with
    | .error error => .error error
    | .ok (.bool value) => .ok (.bool !value)
    | .ok .null => .ok .null
    | .ok _ => .error .datatypeMismatch
  | .isNull operand negated =>
    match operand.evaluate engine row with
    | .error error => .error error
    | .ok value => .ok (.bool (value.isNull != negated))
  | .binary op left right =>
    match left.evaluate engine row, right.evaluate engine row with
    | .error error, _ => .error error
    | .ok _, .error error => .error error
    | .ok left, .ok right =>
      match op with
      | .and =>
        match left.truthOf "AND", right.truthOf "AND" with
        | .error error, _ => .error error
        | .ok _, .error error => .error error
        | .ok left, .ok right => .ok (.ofTruth (threeValuedAnd left right))
      | .or =>
        match left.truthOf "OR", right.truthOf "OR" with
        | .error error, _ => .error error
        | .ok _, .error error => .error error
        | .ok left, .ok right => .ok (.ofTruth (threeValuedOr left right))
      | .distinct => .ok (.bool !(left.pgCmp engine right).isEq)
      | .notDistinct => .ok (.bool (left.pgCmp engine right).isEq)
      | .compare op => .ok (left.compared engine op right)
  | .other _ columns run => run (columns.map (columnOf row))

def Expr.keeps (expr : Expr N F) (row : List (Datum N F)) : Prop :=
  expr.evaluate engine row = .ok (.bool true)

/-! ## The columns -/

def ValueRef.truth : ValueRef F → Option Bool
  | .bool value => some value
  | _ => none

def ValueRef.ofTruth : Option Bool → ValueRef F
  | some value => .bool value
  | none => .null

def ValueRef.isNull : ValueRef F → Bool
  | .null => true
  | _ => false

def ValueRef.compared (op : CompareOp) (left right : ValueRef F) : ValueRef F :=
  if left.isNull || right.isNull then .null else .bool (op.holds (left.pgCmp engine right))

/-- `Expr::evaluate` of a region. The list of `IN` is sorted, and its binary search finds an equal
value where there is one. -/
def ColExpr.evaluate (engine : Engine N F) (row : List (ValueRef F)) : ColExpr F → ValueRef F
  | .column slot => row.getD slot .null
  | .literal value => value.asRef
  | .isNull operand negated => .bool ((operand.evaluate engine row).isNull != negated)
  | .isIn operand values =>
    let probe := operand.evaluate engine row
    if probe.isNull then .null
    else .bool (values.any fun value => (value.asRef.pgCmp engine probe).isEq)
  | .not operand => .ofTruth ((operand.evaluate engine row).truth.map (!·))
  | .and left right =>
    .ofTruth (threeValuedAnd (left.evaluate engine row).truth (right.evaluate engine row).truth)
  | .or left right =>
    .ofTruth (threeValuedOr (left.evaluate engine row).truth (right.evaluate engine row).truth)
  | .compare op left right =>
    (left.evaluate engine row).compared engine op (right.evaluate engine row)

def ColExpr.matches (expr : ColExpr F) (row : List (ValueRef F)) : Bool :=
  match expr.evaluate engine row with
  | .bool true => true
  | _ => false

/-! ## The translation -/

def literalValue : Literal N F → Except String (Value F)
  | .null | .typedNull _ => .ok .null
  | .bool value => .ok (.bool value)
  | .integer value => .ok (.int8 value)
  | .string bytes => .ok (.text bytes)
  | .typed datum => .ok (datum.toValue engine)
  | .decimal digits =>
    match engine.readDouble digits with
    | some value => .ok (.double value)
    | none => .error "a decimal literal this node cannot read as float8"

/-- `comparable`: a column against a value that fits it. -/
def comparable (types : List ColumnType) : ColExpr F → ColExpr F → Except String Unit
  | .column slot, .literal value | .literal value, .column slot =>
    match types[slot]? with
    | none => .error "a comparison between a column and a value of another type"
    | some type =>
      if value.fits type then .ok ()
      else .error "a comparison between a column and a value of another type"
  | _, _ => .error "a comparison that is not a column against a value"

/-- `push_filter`. A column is read from its slot in the projection. -/
def pushFilter (engine : Engine N F) (columns : List Nat) (types : List ColumnType) :
    Expr N F → Except String (ColExpr F)
  | .ordinal at_ => .ok (.column (columns.idxOf at_))
  | .literal value =>
    match literalValue engine value with
    | .error what => .error what
    | .ok value => .ok (.literal value)
  | .not operand =>
    match pushFilter engine columns types operand with
    | .error what => .error what
    | .ok operand => .ok (.not operand)
  | .isNull operand negated =>
    match pushFilter engine columns types operand with
    | .error what => .error what
    | .ok operand => .ok (.isNull operand negated)
  | .binary .distinct _ _ => .error "IS DISTINCT FROM"
  | .binary .notDistinct _ _ => .error "IS NOT DISTINCT FROM"
  | .binary .and left right =>
    match pushFilter engine columns types left, pushFilter engine columns types right with
    | .error what, _ => .error what
    | .ok _, .error what => .error what
    | .ok left, .ok right => .ok (.and left right)
  | .binary .or left right =>
    match pushFilter engine columns types left, pushFilter engine columns types right with
    | .error what, _ => .error what
    | .ok _, .error what => .error what
    | .ok left, .ok right => .ok (.or left right)
  | .binary (.compare op) left right =>
    match pushFilter engine columns types left, pushFilter engine columns types right with
    | .error what, _ => .error what
    | .ok _, .error what => .error what
    | .ok left, .ok right =>
      match comparable types left right with
      | .error what => .error what
      | .ok () => .ok (.compare op left right)
  | .other what _ _ => .error what

/-! ## Filters that mean the same -/

section Agreement

variable (engine : Engine N F) (schema : List ColumnType)

/-- The row has one value for each column of the table, of its type or NULL. -/
def Typed (row : List (Datum N F)) : Prop :=
  ∀ at_ type, schema[at_]? = some type → (columnOf row at_).hasType type = true

/-- What a region reads of the row: the projected columns. -/
def project (columns : List Nat) (row : List (Datum N F)) : List (ValueRef F) :=
  columns.map fun at_ => (columnOf row at_).asRef engine

def Literal.plain : Literal N F → Bool
  | .decimal _ => false
  | .typed value => value.carried
  | _ => true

def Expr.boolean : Expr N F → Bool
  | .ordinal at_ => schema[at_]? == some .bool
  | .literal (.bool _) | .literal .null | .literal (.typedNull _) => true
  | .literal (.typed (.bool _)) | .literal (.typed .null) => true
  | .literal _ => false
  | .not _ | .isNull _ _ | .binary _ _ _ => true
  | .other _ _ _ => false

/-- Compares no column by its representation, takes the truth of booleans only, and holds no
literal that a column cannot hold. -/
def Expr.plain : Expr N F → Bool
  | .ordinal at_ => (schema[at_]?).isSome
  | .literal value => value.plain
  | .not operand => operand.plain && operand.boolean schema
  | .isNull operand _ => operand.plain
  | .binary .and left right | .binary .or left right =>
    left.plain && right.plain && left.boolean schema && right.boolean schema
  | .binary _ left right => left.plain && right.plain && byValue left && byValue right
  | .other _ _ _ => false
where
  byValue : Expr N F → Bool
    | .ordinal at_ =>
      match schema[at_]? with
      | some type => !type.byRepresentation
      | none => false
    | _ => true

/-- `collect_columns`. -/
def Expr.columns : Expr N F → List Nat
  | .ordinal at_ => [at_]
  | .literal _ => []
  | .not operand => operand.columns
  | .isNull operand _ => operand.columns
  | .binary _ left right => left.columns ++ right.columns
  | .other _ columns _ => columns

def slotTypes (columns : List Nat) : List ColumnType :=
  columns.map fun at_ => schema.getD at_ .bool

variable {engine schema} {columns : List Nat} {row : List (Datum N F)}

variable {at_ slot : Nat} {datum : Datum N F} {types : List ColumnType} {expr : Expr N F}
  {value : Value F}

theorem project_idxOf (projected : at_ ∈ columns) :
    (project engine columns row).getD (columns.idxOf at_) .null =
      (columnOf row at_).asRef engine := by
  have inside := idxOf_lt_length_of_mem projected
  unfold project
  rw [getD_eq_getElem?_getD, getElem?_map, getElem?_eq_getElem inside, getElem_idxOf inside]
  rfl

theorem slotTypes_idxOf {type : ColumnType} (projected : at_ ∈ columns)
    (known : schema[at_]? = some type) :
    (slotTypes schema columns)[columns.idxOf at_]? = some type := by
  have inside := idxOf_lt_length_of_mem projected
  unfold slotTypes
  rw [getElem?_map, getElem?_eq_getElem inside, getElem_idxOf inside]
  simp [getD_eq_getElem?_getD, known]

/-- A row value and a columnar one that a filter cannot tell apart. -/
structure Alike (datum : Datum N F) (value : ValueRef F) : Prop where
  null : value = .null ↔ datum = .null
  bool : ∀ truth, value = .bool truth ↔ datum = .bool truth

def Datum.Boolean (datum : Datum N F) : Prop := ∃ truth, datum = .ofTruth truth

theorem alike_asRef (carried : datum.carried = true) : Alike datum (datum.asRef engine) :=
  ⟨Datum.asRef_eq_null carried, fun _ => Datum.asRef_eq_bool⟩

theorem alike_ofTruth (truth : Option Bool) :
    Alike (.ofTruth truth : Datum N F) (.ofTruth truth : ValueRef F) := by
  cases truth with
  | none =>
    refine ⟨⟨fun _ => rfl, fun _ => rfl⟩, fun other => ⟨fun same => ?_, fun same => ?_⟩⟩
    · cases same
    · cases same
  | some value =>
    refine ⟨⟨fun same => ?_, fun same => ?_⟩, fun other => ⟨fun same => ?_, fun same => ?_⟩⟩
    · cases same
    · cases same
    · cases same
      rfl
    · cases same
      rfl

theorem Alike.truth {truth : Option Bool} {value : ValueRef F}
    (alike : Alike (.ofTruth truth : Datum N F) value) : value.truth = truth := by
  cases truth with
  | none => rw [alike.null.mpr rfl]; rfl
  | some known => rw [(alike.bool known).mpr rfl]; rfl

theorem Alike.isNull {value : ValueRef F} (alike : Alike datum value) :
    value.isNull = datum.isNull := by
  cases isNull : datum.isNull with
  | true =>
    have nothing : datum = .null := by
      cases datum with
      | null => rfl
      | _ => cases isNull
    rw [alike.null.mpr nothing]
    rfl
  | false =>
    cases value with
    | null =>
      rw [alike.null.mp rfl] at isNull
      cases isNull
    | _ => rfl

theorem truthOf_ofTruth (construct : String) (truth : Option Bool) :
    (Datum.ofTruth truth : Datum N F).truthOf construct = .ok truth := by
  cases truth with
  | none => rfl
  | some value => rfl

theorem boolean_of_hasType (typed : datum.hasType .bool = true) : datum.Boolean := by
  cases datum with
  | null => exact ⟨none, rfl⟩
  | bool value => exact ⟨some value, rfl⟩
  | _ => exact (Bool.false_ne_true typed).elim

theorem literal_plain (engine : Engine N F) {literal : Literal N F} (plain : literal.plain = true) :
    ∃ datum, literal.evaluate engine = .ok datum ∧
      literalValue engine literal = .ok (datum.toValue engine) ∧ datum.carried = true := by
  cases literal with
  | null | typedNull => exact ⟨.null, rfl, rfl, rfl⟩
  | bool value => exact ⟨.bool value, rfl, rfl, rfl⟩
  | integer value => exact ⟨.int8 value, rfl, rfl, rfl⟩
  | string bytes => exact ⟨.text bytes, rfl, rfl, rfl⟩
  | typed value => exact ⟨value, rfl, rfl, plain⟩
  | decimal digits => cases plain

theorem literal_boolean {literal : Literal N F}
    (boolean : (Expr.literal literal).boolean schema = true)
    (evaluated : literal.evaluate engine = .ok datum) : datum.Boolean := by
  cases literal with
  | null | typedNull type =>
    cases evaluated
    exact ⟨none, rfl⟩
  | bool value =>
    cases evaluated
    exact ⟨some value, rfl⟩
  | typed value =>
    cases evaluated
    cases datum with
    | null => exact ⟨none, rfl⟩
    | bool value => exact ⟨some value, rfl⟩
    | _ => cases boolean
  | integer | string | decimal => cases boolean

theorem ordinal_of_pushed (pushed : pushFilter engine columns types expr = .ok (.column slot)) :
    ∃ at_, expr = .ordinal at_ ∧ slot = columns.idxOf at_ := by
  unfold pushFilter at pushed
  split at pushed
  · cases pushed
    exact ⟨_, rfl, rfl⟩
  all_goals first | cases pushed | skip
  all_goals
    split at pushed
    all_goals first | cases pushed | skip
  split at pushed
  · cases pushed
  · cases pushed

theorem literal_of_pushed (pushed : pushFilter engine columns types expr = .ok (.literal value)) :
    ∃ literal, expr = .literal literal ∧ literalValue engine literal = .ok value := by
  unfold pushFilter at pushed
  split at pushed
  · cases pushed
  · split at pushed
    · cases pushed
    rename_i isValue
    cases pushed
    exact ⟨_, rfl, isValue⟩
  all_goals first | cases pushed | skip
  all_goals
    split at pushed
    all_goals first | cases pushed | skip
  split at pushed
  · cases pushed
  · cases pushed

theorem compare_alike {literal : Literal N F} (typed : Typed schema row) (projected : at_ ∈ columns)
    (known : (Expr.ordinal at_ : Expr N F).plain schema = true)
    (byValue : Expr.plain.byValue schema (.ordinal at_ : Expr N F) = true)
    (plain : literal.plain = true) (isValue : literalValue engine literal = .ok value)
    (fits : ∀ type, (slotTypes schema columns)[columns.idxOf at_]? = some type →
      value.fits type = true) :
    ∃ datum, literal.evaluate engine = .ok datum ∧ value.asRef = datum.asRef engine ∧
      Alike (columnOf row at_) ((columnOf row at_).asRef engine) ∧
      Alike datum (datum.asRef engine) ∧
      ((columnOf row at_).asRef engine).pgCmp engine (datum.asRef engine) =
        (columnOf row at_).pgCmp engine datum ∧
      (datum.asRef engine).pgCmp engine ((columnOf row at_).asRef engine) =
        datum.pgCmp engine (columnOf row at_) := by
  obtain ⟨datum, evaluated, isDatum, carried⟩ := literal_plain engine plain
  rw [isValue] at isDatum
  cases isDatum
  obtain ⟨type, isType⟩ := Option.isSome_iff_exists.mp known
  have hasType := typed at_ type isType
  have datumType := Datum.hasType_of_fits carried (fits type (slotTypes_idxOf projected isType))
  have notByRepresentation : type.byRepresentation = false := by
    simpa [Expr.plain.byValue, isType] using byValue
  exact ⟨datum, evaluated, rfl, alike_asRef (Datum.carried_of_hasType hasType),
    alike_asRef carried, Datum.pgCmp_asRef engine hasType datumType notByRepresentation,
    Datum.pgCmp_asRef engine datumType hasType notByRepresentation⟩

theorem compared_alike (op : CompareOp) {left right : Datum N F} {left' right' : ValueRef F}
    (leftAlike : Alike left left') (rightAlike : Alike right right')
    (same : left'.pgCmp engine right' = left.pgCmp engine right) :
    ∃ truth, left.compared engine op right = .ofTruth truth ∧
      left'.compared engine op right' = .ofTruth truth := by
  unfold Datum.compared ValueRef.compared
  rw [leftAlike.isNull, rightAlike.isNull, same]
  cases left.isNull || right.isNull with
  | true => exact ⟨none, rfl, rfl⟩
  | false => exact ⟨some _, rfl, rfl⟩

theorem fits_of_slot (fits : (match types[slot]? with
      | none => .error "a comparison between a column and a value of another type"
      | some type =>
        if value.fits type then .ok ()
        else .error "a comparison between a column and a value of another type") =
        (.ok () : Except String Unit)) (type : ColumnType) (isType : types[slot]? = some type) :
    value.fits type = true := by
  rw [isType] at fits
  by_contra unfit
  rw [Bool.not_eq_true] at unfit
  simp [unfit] at fits

theorem threeValuedAnd_eq_true {left right : Option Bool} :
    threeValuedAnd left right = some true ↔ left = some true ∧ right = some true := by
  revert left right
  decide

theorem Datum.ofTruth_eq_true {truth : Option Bool} :
    (Datum.ofTruth truth : Datum N F) = .bool true ↔ truth = some true := by
  cases truth with
  | none => simp [Datum.ofTruth]
  | some value => simp [Datum.ofTruth]

theorem ValueRef.truth_ofTruth (truth : Option Bool) :
    (ValueRef.ofTruth truth : ValueRef F).truth = truth := by
  cases truth with
  | none => rfl
  | some value => rfl

section Cases

variable {values : List (ValueRef F)} {operand left right : Expr N F}
  {inner pushedLeft pushedRight : ColExpr F} {truth truth' : Option Bool}

theorem not_alike (evaluated : operand.evaluate engine row = .ok (.ofTruth truth))
    (alike : Alike (.ofTruth truth : Datum N F) (inner.evaluate engine values)) :
    (Expr.not operand).evaluate engine row = .ok (.ofTruth (truth.map (!·))) ∧
      (ColExpr.not inner).evaluate engine values = .ofTruth (truth.map (!·)) := by
  unfold Expr.evaluate ColExpr.evaluate
  rw [evaluated, alike.truth]
  refine ⟨?_, rfl⟩
  cases truth with
  | none => rfl
  | some value => rfl

theorem isNull_alike (negated : Bool) (evaluated : operand.evaluate engine row = .ok datum)
    (alike : Alike datum (inner.evaluate engine values)) :
    (Expr.isNull operand negated).evaluate engine row =
        .ok (.ofTruth (some (datum.isNull != negated))) ∧
      (ColExpr.isNull inner negated).evaluate engine values =
        .ofTruth (some (datum.isNull != negated)) := by
  unfold Expr.evaluate ColExpr.evaluate
  rw [evaluated, alike.isNull]
  exact ⟨rfl, rfl⟩

/-- A comparison that is accepted has the column on one side and the value on the other. -/
theorem comparison_alike (op : CompareOp) (typed : Typed schema row)
    (projected : ∀ at_ ∈ left.columns ++ right.columns, at_ ∈ columns)
    (plain : (Expr.binary (.compare op) left right).plain schema = true)
    (isLeft : pushFilter engine columns (slotTypes schema columns) left = .ok pushedLeft)
    (isRight : pushFilter engine columns (slotTypes schema columns) right = .ok pushedRight)
    (fits : comparable (slotTypes schema columns) pushedLeft pushedRight = .ok ()) :
    ∃ truth, (Expr.binary (.compare op) left right).evaluate engine row = .ok (.ofTruth truth) ∧
      (ColExpr.compare op pushedLeft pushedRight).evaluate engine (project engine columns row) =
        .ofTruth truth := by
  simp only [Expr.plain, Bool.and_eq_true] at plain
  obtain ⟨⟨⟨leftPlain, rightPlain⟩, leftByValue⟩, rightByValue⟩ := plain
  unfold comparable at fits
  split at fits
  · obtain ⟨at_, rfl, rfl⟩ := ordinal_of_pushed isLeft
    obtain ⟨literal, rfl, isValue⟩ := literal_of_pushed isRight
    have isProjected := projected at_ (mem_append_left _ mem_cons_self)
    obtain ⟨datum, evaluated, sameValue, columnAlike, literalAlike, sameOrder, _⟩ :=
      compare_alike typed isProjected leftPlain leftByValue rightPlain isValue (fits_of_slot fits)
    obtain ⟨truth, isRow, isColumn⟩ := compared_alike op columnAlike literalAlike sameOrder
    refine ⟨truth, ?_, ?_⟩
    · simp only [Expr.evaluate, evaluated, isRow]
    · simp only [ColExpr.evaluate, project_idxOf isProjected, sameValue, isColumn]
  · obtain ⟨at_, rfl, rfl⟩ := ordinal_of_pushed isRight
    obtain ⟨literal, rfl, isValue⟩ := literal_of_pushed isLeft
    have isProjected := projected at_ (mem_append_right _ mem_cons_self)
    obtain ⟨datum, evaluated, sameValue, columnAlike, literalAlike, _, sameOrder⟩ :=
      compare_alike typed isProjected rightPlain rightByValue leftPlain isValue (fits_of_slot fits)
    obtain ⟨truth, isRow, isColumn⟩ := compared_alike op literalAlike columnAlike sameOrder
    refine ⟨truth, ?_, ?_⟩
    · simp only [Expr.evaluate, evaluated, isRow]
    · simp only [ColExpr.evaluate, project_idxOf isProjected, sameValue, isColumn]
  · cases fits

/-- Rows pass a conjunction that pass both sides, on rows also where a side fails. -/
theorem keeps_and : (Expr.binary .and left right).keeps engine row ↔
    left.keeps engine row ∧ right.keeps engine row := by
  unfold Expr.keeps
  rw [Expr.evaluate]
  cases left.evaluate engine row with
  | error error => simp
  | ok left =>
    cases right.evaluate engine row with
    | error error => simp
    | ok right =>
      have isTrue (datum : Datum N F) : datum.truthOf "AND" = .ok (some true) ↔
          datum = .bool true := by
        cases datum <;> simp [Datum.truthOf]
      dsimp only
      rw [Except.ok.injEq, Except.ok.injEq, ← isTrue, ← isTrue]
      split
      · rename_i failed
        simp [failed]
      · rename_i failed
        simp [failed]
      · rename_i leftTruth rightTruth
        rw [leftTruth, rightTruth, Except.ok.injEq, Except.ok.injEq, Except.ok.injEq,
          Datum.ofTruth_eq_true, threeValuedAnd_eq_true]

theorem matches_eq_truth : inner.matches engine values = true ↔
    (inner.evaluate engine values).truth = some true := by
  unfold ColExpr.matches ValueRef.truth
  split <;> split <;> simp_all

theorem matches_and : (ColExpr.and pushedLeft pushedRight).matches engine values = true ↔
    pushedLeft.matches engine values = true ∧ pushedRight.matches engine values = true := by
  rw [matches_eq_truth, matches_eq_truth, matches_eq_truth, ColExpr.evaluate,
    ValueRef.truth_ofTruth, threeValuedAnd_eq_true]

end Cases

theorem push_alike {pushed : ColExpr F} (typed : Typed schema row)
    (projected : ∀ at_ ∈ expr.columns, at_ ∈ columns) (plain : expr.plain schema = true)
    (accepted : pushFilter engine columns (slotTypes schema columns) expr = .ok pushed) :
    ∃ datum, expr.evaluate engine row = .ok datum ∧
      Alike datum (pushed.evaluate engine (project engine columns row)) ∧
      (expr.boolean schema = true → datum.Boolean) := by
  induction expr generalizing pushed with
  | ordinal at_ =>
    cases accepted
    refine ⟨columnOf row at_, rfl, ?_, fun boolean => ?_⟩
    · rw [ColExpr.evaluate, project_idxOf (projected at_ mem_cons_self)]
      obtain ⟨type, isType⟩ := Option.isSome_iff_exists.mp plain
      exact alike_asRef (Datum.carried_of_hasType (typed at_ type isType))
    · have isBool : schema[at_]? = some .bool := by simpa [Expr.boolean] using boolean
      exact boolean_of_hasType (typed at_ .bool isBool)
  | literal value =>
    obtain ⟨datum, evaluated, isValue, carried⟩ := literal_plain engine plain
    unfold pushFilter at accepted
    rw [isValue] at accepted
    cases accepted
    exact ⟨datum, evaluated, alike_asRef carried, fun boolean =>
      literal_boolean boolean evaluated⟩
  | not operand ih =>
    unfold pushFilter at accepted
    split at accepted
    · cases accepted
    rename_i inner isInner
    cases accepted
    have both := Bool.and_eq_true_iff.mp plain
    obtain ⟨datum, evaluated, alike, boolean⟩ := ih projected both.1 isInner
    obtain ⟨truth, rfl⟩ := boolean both.2
    obtain ⟨isRow, isColumn⟩ := not_alike evaluated alike
    exact ⟨_, isRow, isColumn ▸ alike_ofTruth _, fun _ => ⟨_, rfl⟩⟩
  | isNull operand negated ih =>
    unfold pushFilter at accepted
    split at accepted
    · cases accepted
    rename_i inner isInner
    cases accepted
    obtain ⟨datum, evaluated, alike, _⟩ := ih projected plain isInner
    obtain ⟨isRow, isColumn⟩ := isNull_alike negated evaluated alike
    exact ⟨_, isRow, isColumn ▸ alike_ofTruth _, fun _ => ⟨_, rfl⟩⟩
  | binary op left right leftHypothesis rightHypothesis =>
    have leftProjected : ∀ at_ ∈ left.columns, at_ ∈ columns := fun at_ mem =>
      projected at_ (mem_append_left _ mem)
    have rightProjected : ∀ at_ ∈ right.columns, at_ ∈ columns := fun at_ mem =>
      projected at_ (mem_append_right _ mem)
    cases op with
    | distinct | notDistinct => cases accepted
    | and | or =>
      unfold pushFilter at accepted
      split at accepted
      · cases accepted
      · cases accepted
      rename_i isLeft isRight
      cases accepted
      simp only [Expr.plain, Bool.and_eq_true] at plain
      obtain ⟨⟨⟨leftPlain, rightPlain⟩, leftBoolean⟩, rightBoolean⟩ := plain
      obtain ⟨_, leftValue, leftAlike, isBoolean⟩ := leftHypothesis leftProjected leftPlain isLeft
      obtain ⟨_, rightValue, rightAlike, isBoolean'⟩ :=
        rightHypothesis rightProjected rightPlain isRight
      obtain ⟨truth, rfl⟩ := isBoolean leftBoolean
      obtain ⟨truth', rfl⟩ := isBoolean' rightBoolean
      simp only [Expr.evaluate, ColExpr.evaluate, leftValue, rightValue, truthOf_ofTruth,
        leftAlike.truth, rightAlike.truth]
      exact ⟨_, rfl, alike_ofTruth _, fun _ => ⟨_, rfl⟩⟩
    | compare op =>
      unfold pushFilter at accepted
      split at accepted
      · cases accepted
      · cases accepted
      rename_i isLeft isRight
      split at accepted
      · cases accepted
      rename_i fits
      cases accepted
      obtain ⟨truth, isRow, isColumn⟩ :=
        comparison_alike op typed projected plain isLeft isRight fits
      exact ⟨_, isRow, isColumn ▸ alike_ofTruth _, fun _ => ⟨_, rfl⟩⟩
  | other what read run => cases accepted

theorem matches_of_alike {pushed : ColExpr F} {values : List (ValueRef F)}
    (evaluated : expr.evaluate engine row = .ok datum)
    (alike : Alike datum (pushed.evaluate engine values)) :
    pushed.matches engine values = true ↔ expr.keeps engine row := by
  unfold Expr.keeps ColExpr.matches
  rw [evaluated]
  constructor
  · intro isTrue
    split at isTrue
    · rename_i isBool
      rw [(alike.bool true).mp isBool]
    · cases isTrue
  · intro isTrue
    cases isTrue
    rw [(alike.bool true).mpr rfl]

/-- A negation is true where its operand is false, on rows also where the operand is no boolean
and the negation an error. -/
theorem matches_not {inner : ColExpr F} {values : List (ValueRef F)}
    (evaluated : expr.evaluate engine row = .ok datum)
    (alike : Alike datum (inner.evaluate engine values)) :
    (ColExpr.not inner).matches engine values = true ↔ (Expr.not expr).keeps engine row := by
  have onColumns : (ColExpr.not inner).matches engine values = true ↔ datum = .bool false := by
    rw [← alike.bool false, matches_eq_truth, ColExpr.evaluate]
    rcases inner.evaluate engine values with _ | _ | _ <;>
      simp [ValueRef.truth, ValueRef.ofTruth]
  rw [onColumns, Expr.keeps, Expr.evaluate, evaluated]
  cases datum <;> simp

/-- A conjunction of filters that are plain, or negate a plain operand of any type. -/
def Expr.agreeing (schema : List ColumnType) : Expr N F → Bool
  | .not operand => operand.plain schema
  | .binary .and left right => left.agreeing schema && right.agreeing schema
  | expr => expr.plain schema

end Agreement

/-! ## Filters that do not -/

section Intervals

/-- An engine for tables without `numeric` and float columns. -/
def plainEngine : Engine Empty Empty where
  numericCmp _ _ := .eq
  numericText _ := []
  doubleCmp _ _ := .eq
  realCmp _ _ := .eq
  readNumeric _ := none
  readDouble _ := none
  unlikeCmp _ _ := .eq

/-- `n IS NOT NULL AND n > 3`, on the rows of a table with one integer column. -/
def aboveThree : Expr Empty Empty :=
  .binary .and (.isNull (.ordinal 0) true)
    (.binary (.compare .gt) (.ordinal 0) (.literal (.integer 3)))

/-- `span > interval '1 day'`, on the rows of a table with one interval column. -/
def longerThanADay : Expr Empty Empty :=
  .binary (.compare .gt) (.ordinal 0) (.literal (.typed (.interval 0 1 0)))

end Intervals

end Esker.Sql
