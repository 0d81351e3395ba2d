import Esker.Sql.SemiJoin

/-!
Contract: an aggregate over the rows of a table and over its regions' columns (`push_down`,
`combine`, `finish` and `value_of` of `esker-sql/src/exec/fragment.rs`,
`esker-columnar/src/scan/group.rs`, `Accumulator` of `esker-sql/src/exec/aggregate.rs`).

Owns: one aggregate of one group: the partials of a region, their combination, what the row engine
folds, and which aggregates the two give alike.

Does not own: the groups (`Esker.Sql.Grouping`), which rows are aggregated, and the walk over the
regions (`Esker.Sql.Route`).
-/

namespace Esker.Sql

open List

/-- What the aggregates take from the arithmetic of `numeric` and of floats. -/
structure Arithmetic (N F : Type) extends Engine N F where
  ofInt : Int → N
  add : N → N → N
  /-- The mean of a sum over a number of values, rounded as the server rounds it. -/
  mean : N → Nat → Option N
  divide : Int → Nat → F
  divideDouble : F → Nat → F
  addDouble : F → F → F
  zeroDouble : F
  readInterval : List Nat → Int × Int × Int
  /-- The sum of two `numeric` values is exact. -/
  add_ofInt : ∀ left right, add (ofInt left) (ofInt right) = ofInt (left + right)

inductive AggregateFunc where
  | count | sum | min | max | avg
deriving DecidableEq, Repr

/-- One aggregate of the plan, over a column or over rows. -/
structure AggregateSpec where
  func : AggregateFunc
  arg : Option Nat
  argType : ColumnType
deriving DecidableEq, Repr

inductive Aggregate where
  | countStar
  | count (slot : Nat)
  | sum (slot : Nat)
  | min (slot : Nat)
  | max (slot : Nat)
deriving DecidableEq, Repr

inductive Partial (F : Type) where
  | count (rows : Nat)
  | sum (total : Option (Value F))
  | min (best : Option (Value F))
  | max (best : Option (Value F))
deriving DecidableEq, Repr

variable {N F : Type}

/-- `push_down`: what the regions are asked for one aggregate. -/
def pushDown (spec : AggregateSpec) : Except String (List Aggregate) :=
  if (spec.func = .sum ∨ spec.func = .avg) ∧ spec.arg.isSome ∧ spec.argType ≠ .int8 ∧
      spec.argType ≠ .double then
    .error "a sum over a column a fragment cannot add"
  else
    match spec.func, spec.arg with
    | .count, none => .ok [.countStar]
    | .count, some slot => .ok [.count slot]
    | .sum, some slot => .ok [.sum slot]
    | .min, some slot => .ok [.min slot]
    | .max, some slot => .ok [.max slot]
    | .avg, some slot => .ok [.sum slot, .count slot]
    | _, none => .error "this aggregate over this argument"

/-! ## A region -/

section Region

variable (rules : Arithmetic N F)

/-- Whether the number fits a `bigint`. -/
def fitsBigint (value : Int) : Bool := -(2 ^ 63) ≤ value && value < 2 ^ 63

def addValues : Value F → Value F → Except String (Value F)
  | .int8 left, .int8 right =>
    if fitsBigint (left + right) then .ok (.int8 (left + right))
    else .error "bigint out of range"
  | .double left, .double right => .ok (.double (rules.addDouble left right))
  | _, _ => .error "summing"

def Aggregate.start : Aggregate → Partial F
  | .countStar | .count _ => .count 0
  | .sum _ => .sum none
  | .min _ => .min none
  | .max _ => .max none

/-- Keeps the value when there is none yet or it compares as wanted. -/
def keepValue (wanted : Ordering) (best : Option (Value F)) (value : Value F) : Value F :=
  match best with
  | none => value
  | some current =>
    if value.asRef.pgCmp rules.toEngine current.asRef = wanted then value else current

/-- `Accumulator::push` of a region. -/
def Aggregate.push (aggregate : Aggregate) (state : Partial F) (row : List (Value F)) :
    Except String (Partial F) :=
  match aggregate, state with
  | .countStar, .count rows => .ok (.count (rows + 1))
  | .count slot, .count rows =>
    if (row.getD slot .null).asRef.isNull then .ok (.count rows) else .ok (.count (rows + 1))
  | .sum slot, .sum total =>
    let value := row.getD slot .null
    if value.asRef.isNull then .ok (.sum total)
    else
      match total with
      | none => .ok (.sum (some value))
      | some current =>
        match addValues rules current value with
        | .error what => .error what
        | .ok added => .ok (.sum (some added))
  | .min slot, .min best =>
    let value := row.getD slot .null
    if value.asRef.isNull then .ok (.min best)
    else .ok (.min (some (keepValue rules .lt best value)))
  | .max slot, .max best =>
    let value := row.getD slot .null
    if value.asRef.isNull then .ok (.max best)
    else .ok (.max (some (keepValue rules .gt best value)))
  | _, state => .ok state

/-! ## The node that asked -/

/-- `value_to_datum`. -/
def Value.toDatum : Value F → Datum N F
  | .null => .null
  | .int8 value => .int8 value
  | .int4 value => .int4 value
  | .int2 value => .int2 value
  | .text bytes => .text bytes
  | .bool value => .bool value
  | .bytea bytes => .bytea bytes
  | .timestampTz micros => .timestampTz micros
  | .timestamp micros => .timestamp micros
  | .double value => .double value
  | .real value => .real value
  | .date days => .date days
  | .time micros => .time micros
  | .uuid bytes => .uuid bytes
  | .interval bytes =>
    let parts := rules.readInterval bytes
    .interval parts.1 parts.2.1 parts.2.2
  | .oid value => .oid value
  | .numeric digits =>
    match rules.readNumeric digits with
    | some value => .numeric value
    | none => .null

/-- `extreme`: the left one when it compares as wanted, and otherwise the right one. -/
def extreme (wanted : Ordering) : Option (Value F) → Option (Value F) → Option (Value F)
  | none, right => right
  | left, none => left
  | some left, some right =>
    if (left.toDatum rules).pgCmp rules.toEngine (right.toDatum rules) = wanted then some left
    else some right

def sumValues : Option (Value F) → Option (Value F) → Except String (Option (Value F))
  | none, right => .ok right
  | left, none => .ok left
  | some (.int8 left), some (.int8 right) =>
    if fitsBigint (left + right) then .ok (some (.int8 (left + right)))
    else .error "a bigint sum that does not fit"
  | some (.double left), some (.double right) => .ok (some (.double (rules.addDouble left right)))
  | _, _ => .error "a sum of a type this build cannot add"

/-- `combine` of one partial. -/
def Partial.combine : Partial F → Partial F → Except String (Partial F)
  | .count left, .count right =>
    if left + right < 2 ^ 64 then .ok (.count (left + right))
    else .error "a count of more rows than a u64 holds"
  | .sum left, .sum right =>
    match sumValues rules left right with
    | .error what => .error what
    | .ok total => .ok (.sum total)
  | .min left, .min right => .ok (.min (extreme rules .lt left right))
  | .max left, .max right => .ok (.max (extreme rules .gt left right))
  | _, _ => .error "two regions answered different aggregates for one fragment"

/-- A count as a `bigint`. -/
def countDatum (rows : Nat) : Datum N F := .int8 (min rows (2 ^ 63 - 1))

/-- `value_of`, and of no group at all the row that `finish` makes up. -/
def valueOf (func : AggregateFunc) : List (Option (Partial F)) → Datum N F
  | [some (.count rows)] => countDatum rows
  | [none] => if func = .count then .int8 0 else .null
  | [some (.sum (some value))] | [some (.min (some value))] | [some (.max (some value))] =>
    value.toDatum rules
  | [some (.sum (some value)), some (.count rows)] =>
    if rows = 0 then .null
    else
      match value with
      | .double total => .double (rules.divideDouble total rows)
      | .int8 total => .double (rules.divide total rows)
      | _ => .null
  | _ => .null

variable (spec : AggregateSpec)

/-! ## The row engine -/

/-- The states of the row engine's `Accumulator` for the aggregates that are pushed down: the
sums of intervals, of `money` and of `real` are not. -/
inductive RowState (N F : Type) where
  | count (rows : Nat)
  | sumWide (total : Option Int)
  | sumNumeric (total : Option N)
  | sumFloat (total : Option F)
  | avgNumeric (sum : Option N) (seen : Nat)
  | avgFloat (sum : F) (seen : Nat)
  | extreme (best : Option (Datum N F))

def RowState.new : RowState N F :=
  match spec.func, spec.argType with
  | .count, _ => .count 0
  | .sum, .int2 | .sum, .int4 => .sumWide none
  | .sum, .int8 | .sum, .numeric => .sumNumeric none
  | .sum, _ => .sumFloat none
  | .avg, .int2 | .avg, .int4 | .avg, .int8 | .avg, .numeric => .avgNumeric none 0
  | .avg, _ => .avgFloat rules.zeroDouble 0
  | .min, _ | .max, _ => .extreme none

def exactAddend : Datum N F → Option N
  | .int8 value | .int4 value | .int2 value => some (rules.ofInt value)
  | .numeric value => some value
  | _ => none

def addNumeric (total : Option N) (addend : N) : N :=
  match total with
  | none => addend
  | some total => rules.add total addend

/-- `Accumulator::push` of the row engine, without `DISTINCT`. A NULL is not seen. -/
def RowState.push (func : AggregateFunc) (state : RowState N F) (value : Datum N F) :
    Except String (RowState N F) :=
  if value.isNull then .ok state
  else
    match state, value with
    | .count rows, _ => .ok (.count (rows + 1))
    | .sumWide total, .int2 value | .sumWide total, .int4 value =>
      .ok (.sumWide (some (total.getD 0 + value)))
    | .sumWide total, .int8 value =>
      if fitsBigint (total.getD 0 + value) then .ok (.sumWide (some (total.getD 0 + value)))
      else .error "bigint out of range"
    | .sumNumeric total, .int8 value =>
      .ok (.sumNumeric (some (addNumeric rules total (rules.ofInt value))))
    | .sumNumeric total, .numeric value => .ok (.sumNumeric (some (addNumeric rules total value)))
    | .avgNumeric sum seen, value =>
      match exactAddend rules value with
      | some addend => .ok (.avgNumeric (some (addNumeric rules sum addend)) (seen + 1))
      | none => .error "this value reached an exact average"
    | .sumFloat total, .double value =>
      .ok (.sumFloat (some (rules.addDouble (total.getD rules.zeroDouble) value)))
    | .avgFloat sum seen, .double value =>
      .ok (.avgFloat (rules.addDouble sum value) (seen + 1))
    | .extreme best, value =>
      match best with
      | none => .ok (.extreme (some value))
      | some current =>
        let replaces :=
          match func with
          | .min => (value.pgCmp rules.toEngine current).isLT
          | _ => (value.pgCmp rules.toEngine current).isGT
        if replaces then .ok (.extreme (some value)) else .ok (.extreme (some current))
    | _, _ => .error "this value reached another accumulator"

def RowState.finish : RowState N F → Datum N F
  | .count rows => .int8 rows
  | .sumWide total => (total.map Datum.int8).getD .null
  | .sumNumeric total => (total.map Datum.numeric).getD .null
  | .sumFloat total => (total.map Datum.double).getD .null
  | .avgNumeric (some sum) seen => ((rules.mean sum seen).map Datum.numeric).getD .null
  | .avgNumeric none _ => .null
  | .avgFloat sum seen => if seen = 0 then .null else .double (rules.divideDouble sum seen)
  | .extreme best => best.getD .null

/-- What the row engine pushes for a row: the argument, or a value that is not NULL for
`count(*)`. -/
def AggregateSpec.argument (row : List (Datum N F)) : Datum N F :=
  match spec.arg with
  | none => .bool true
  | some slot => columnOf row slot

end Region

/-! ## Values in order -/

section Order

/-- A comparison that orders its values strictly and tells unequal ones apart. -/
structure Lawful {α : Type} (cmp : α → α → Ordering) : Prop where
  swap : ∀ {left right}, cmp left right = .gt → cmp right left = .lt
  swap' : ∀ {left right}, cmp left right = .lt → cmp right left = .gt
  trans : ∀ {left middle right}, cmp left middle = .lt → cmp middle right = .lt →
    cmp left right = .lt

theorem lawful_of_trans {α : Type} {cmp : α → α → Ordering} [Std.TransCmp cmp] : Lawful cmp where
  swap isGreater := Std.OrientedCmp.gt_iff_lt.mp isGreater
  swap' isLess := Std.OrientedCmp.gt_iff_lt.mpr isLess
  trans := Std.TransCmp.lt_trans

/-- The number, the bytes or the truth that a value is compared by. -/
def Datum.number : Datum N F → Int
  | .int8 value | .int4 value | .int2 value | .oid value => value
  | .timestampTz value | .timestamp value | .date value | .time value => value
  | _ => 0

def Datum.bytes : Datum N F → List Nat
  | .text bytes | .bytea bytes | .uuid bytes => bytes
  | _ => []

def Datum.truth : Datum N F → Bool
  | .bool value => value
  | _ => false

def Datum.Held (type : ColumnType) (datum : Datum N F) : Prop :=
  datum.hasType type = true ∧ datum.isNull = false

/-- The values of an exact type are compared by something that is lawfully ordered. -/
theorem exact_lawful (engine : Engine N F) {type : ColumnType} (exact : type.exact = true) :
    ∃ (α : Type) (cmp : α → α → Ordering) (code : Datum N F → α), Lawful cmp ∧
      ∀ left right, left.Held type → right.Held type →
        left.pgCmp engine right = cmp (code left) (code right) := by
  have numbers : Lawful (compare : Int → Int → Ordering) := lawful_of_trans
  have strings : Lawful (compare : List Nat → List Nat → Ordering) := lawful_of_trans
  have truths : Lawful (compare : Bool → Bool → Ordering) := lawful_of_trans
  cases type
  case numeric | interval | double | real => cases exact
  case' bool => refine ⟨Bool, compare, Datum.truth, truths, ?_⟩
  case' text | varchar | bpchar | json | jsonb | bytea | uuid =>
    refine ⟨List Nat, compare, Datum.bytes, strings, ?_⟩
  case' int8 | int4 | int2 | timestampTz | timestamp | date | time | oid =>
    refine ⟨Int, compare, Datum.number, numbers, ?_⟩
  all_goals
    intro left right leftHeld rightHeld
    cases left <;>
      first
      | exact (Bool.false_ne_true leftHeld.1).elim
      | exact (Bool.false_ne_true leftHeld.2.symm).elim
      | (cases right <;>
          first
          | exact (Bool.false_ne_true rightHeld.1).elim
          | exact (Bool.false_ne_true rightHeld.2.symm).elim
          | rfl)

variable {engine : Engine N F} {type : ColumnType} {left middle right : Datum N F}

theorem Datum.pgCmp_swap (exact : type.exact = true) (leftHeld : left.Held type)
    (rightHeld : right.Held type) :
    left.pgCmp engine right = .gt ↔ right.pgCmp engine left = .lt := by
  obtain ⟨α, cmp, code, lawful, same⟩ := exact_lawful engine exact
  rw [same _ _ leftHeld rightHeld, same _ _ rightHeld leftHeld]
  exact ⟨lawful.swap, lawful.swap'⟩

variable {wanted : Ordering}

section

variable (exact : type.exact = true) (leftHeld : left.Held type)
include exact leftHeld

theorem Datum.pgCmp_trans (middleHeld : middle.Held type) (rightHeld : right.Held type)
    (strict : wanted = .lt ∨ wanted = .gt) (first : left.pgCmp engine middle = wanted)
    (second : middle.pgCmp engine right = wanted) : left.pgCmp engine right = wanted := by
  obtain ⟨α, cmp, code, lawful, same⟩ := exact_lawful engine exact
  rw [same _ _ leftHeld middleHeld] at first
  rw [same _ _ middleHeld rightHeld] at second
  rw [same _ _ leftHeld rightHeld]
  rcases strict with rfl | rfl
  · exact lawful.trans first second
  · exact lawful.swap' (lawful.trans (lawful.swap second) (lawful.swap first))

theorem Datum.wanted_asymm (rightHeld : right.Held type) (strict : wanted = .lt ∨ wanted = .gt)
    (isBeyond : left.pgCmp engine right = wanted) : right.pgCmp engine left ≠ wanted := by
  rcases strict with rfl | rfl
  · rw [(Datum.pgCmp_swap exact rightHeld leftHeld).mpr isBeyond]
    decide
  · rw [(Datum.pgCmp_swap exact leftHeld rightHeld).mp isBeyond]
    decide

theorem Datum.eq_of_not_wanted (rightHeld : right.Held type) (strict : wanted = .lt ∨ wanted = .gt)
    (first : left.pgCmp engine right ≠ wanted) (second : right.pgCmp engine left ≠ wanted) :
    left = right := by
  apply (Datum.pgCmp_isEq leftHeld.1 rightHeld.1 exact).mp
  have swap := @Datum.pgCmp_swap N F engine type left right exact leftHeld rightHeld
  have swap' := @Datum.pgCmp_swap N F engine type right left exact rightHeld leftHeld
  cases compared : left.pgCmp engine right with
  | eq => rfl
  | lt =>
    rcases strict with rfl | rfl
    · exact absurd compared first
    · exact absurd (swap'.mpr compared) second
  | gt =>
    rcases strict with rfl | rfl
    · exact absurd (swap.mp compared) second
    · exact absurd compared first

end

end Order

/-! ## The best value -/

variable {datums first second : List (Datum N F)} {datum : Datum N F} {best : Option (Datum N F)}
  {spec : AggregateSpec}

section Best

variable (engine : Engine N F)

def seen (datums : List (Datum N F)) : List (Datum N F) := datums.filter fun datum => !datum.isNull

def Best (wanted : Ordering) (datums : List (Datum N F)) : Option (Datum N F) → Prop
  | none => seen datums = []
  | some best => best ∈ seen datums ∧ ∀ datum ∈ seen datums, datum.pgCmp engine best ≠ wanted

variable {engine} {type : ColumnType} {wanted : Ordering}

theorem seen_append (first second : List (Datum N F)) :
    seen (first ++ second) = seen first ++ seen second := filter_append _ _

theorem held_of_seen (typed : ∀ datum ∈ datums, datum.hasType type = true)
    (isSeen : datum ∈ seen datums) : datum.Held type := by
  obtain ⟨mem, held⟩ := mem_filter.mp isSeen
  exact ⟨typed datum mem, by simpa using held⟩

theorem Datum.pgCmp_self (exact : type.exact = true) (held : datum.Held type) :
    datum.pgCmp engine datum = .eq :=
  Ordering.isEq_iff_eq_eq.mp ((Datum.pgCmp_isEq held.1 held.1 exact).mpr rfl)

theorem Best.perm (perm : first.Perm second) (isBest : Best engine wanted first best) :
    Best engine wanted second best := by
  have same : (seen first).Perm (seen second) := perm.filter _
  cases best with
  | none =>
    rw [Best] at isBest ⊢
    rw [isBest] at same
    exact nil_perm.mp same
  | some best =>
    exact ⟨same.mem_iff.mp isBest.1, fun datum mem =>
      isBest.2 datum (same.mem_iff.mpr mem)⟩

theorem Best.of_seen (same : seen first = seen second) (isBest : Best engine wanted first best) :
    Best engine wanted second best := by
  cases best <;> simpa only [Best, same] using isBest

theorem seen_append_null (isNull : datum.isNull = true) :
    seen (datums ++ [datum]) = seen datums := by
  simp [seen, isNull]

theorem seen_append_held (held : datum.isNull = false) :
    seen (datums ++ [datum]) = seen datums ++ [datum] := by
  simp [seen, held]

variable (exact : type.exact = true) (strict : wanted = .lt ∨ wanted = .gt)
include exact strict

theorem Best.unique (typed : ∀ datum ∈ datums, datum.hasType type = true)
    {other : Option (Datum N F)}
    (isBest : Best engine wanted datums best) (isOther : Best engine wanted datums other) :
    best = other := by
  cases best with
  | none =>
    cases other with
    | none => rfl
    | some value =>
      rw [Best] at isBest
      rw [Best, isBest] at isOther
      exact absurd isOther.1 not_mem_nil
  | some best =>
    cases other with
    | none =>
      rw [Best] at isOther
      rw [Best, isOther] at isBest
      exact absurd isBest.1 not_mem_nil
    | some value =>
      rw [Datum.eq_of_not_wanted exact (held_of_seen typed isBest.1)
        (held_of_seen typed isOther.1) strict (isOther.2 best isBest.1)
        (isBest.2 value isOther.1)]

/-- The better of the best of two lists is the best of both, whichever is taken of equals. -/
theorem Best.append {first second : List (Datum N F)}
    (typed : ∀ datum ∈ first, datum.hasType type = true)
    (typed' : ∀ datum ∈ second, datum.hasType type = true) {left right : Datum N F}
    (isLeft : Best engine wanted first (some left))
    (isRight : Best engine wanted second (some right))
    {best : Datum N F} (isBest : best = left ∧ right.pgCmp engine left ≠ wanted ∨
      best = right ∧ left.pgCmp engine right ≠ wanted) :
    Best engine wanted (first ++ second) (some best) := by
  have leftHeld := held_of_seen typed isLeft.1
  have rightHeld := held_of_seen typed' isRight.1
  -- A value beyond the one that was kept would be beyond the best of its own list.
  have beyond {kept dropped datum : Datum N F} (keptHeld : kept.Held type)
      (droppedHeld : dropped.Held type) (held : datum.Held type)
      (notBeyond : dropped.pgCmp engine kept ≠ wanted)
      (isBest : datum.pgCmp engine dropped ≠ wanted) : datum.pgCmp engine kept ≠ wanted := by
    intro isBeyond
    by_cases other : kept.pgCmp engine dropped = wanted
    · exact isBest (Datum.pgCmp_trans exact held keptHeld droppedHeld strict isBeyond other)
    · rw [Datum.eq_of_not_wanted exact keptHeld droppedHeld strict other notBeyond] at isBeyond
      exact isBest isBeyond
  rcases isBest with ⟨rfl, notBeyond⟩ | ⟨rfl, notBeyond⟩
  · refine ⟨by rw [seen_append]; exact mem_append_left _ isLeft.1, fun datum mem => ?_⟩
    rw [seen_append] at mem
    rcases mem_append.mp mem with inFirst | inSecond
    · exact isLeft.2 datum inFirst
    · exact beyond leftHeld rightHeld (held_of_seen typed' inSecond) notBeyond
        (isRight.2 datum inSecond)
  · refine ⟨by rw [seen_append]; exact mem_append_right _ isRight.1, fun datum mem => ?_⟩
    rw [seen_append] at mem
    rcases mem_append.mp mem with inFirst | inSecond
    · exact beyond rightHeld leftHeld (held_of_seen typed inFirst) notBeyond
        (isLeft.2 datum inFirst)
    · exact isRight.2 datum inSecond

theorem Best.singleton {datum : Datum N F} (held : datum.Held type) :
    Best engine wanted [datum] (some datum) := by
  have isSeen : seen [datum] = [datum] := by simp [seen, held.2]
  rw [Best, isSeen]
  refine ⟨mem_singleton_self datum, fun other mem => ?_⟩
  rw [mem_singleton.mp mem, Datum.pgCmp_self exact held]
  rcases strict with rfl | rfl <;> decide

theorem Best.push (typed : ∀ datum ∈ datums, datum.hasType type = true) (held : datum.Held type)
    {current : Datum N F} (isBest : Best engine wanted datums (some current)) :
    Best engine wanted (datums ++ [datum])
      (some (if datum.pgCmp engine current = wanted then datum else current)) := by
  have typed' : ∀ each ∈ [datum], each.hasType type = true := by
    intro each mem
    rw [mem_singleton.mp mem]
    exact held.1
  apply isBest.append exact strict typed typed' (Best.singleton exact strict held)
  split
  case isTrue isBeyond =>
    exact .inr ⟨rfl, Datum.wanted_asymm exact held (held_of_seen typed isBest.1) strict isBeyond⟩
  case isFalse notBeyond => exact .inl ⟨rfl, notBeyond⟩

end Best

/-! ## What a partial stands for -/

section Partials

variable {rules : Arithmetic N F} {type : ColumnType} {wanted : Ordering}

theorem Value.toDatum_toValue (exact : type.exact = true) (typed : datum.hasType type = true) :
    (datum.toValue rules.toEngine).toDatum rules = datum := by
  cases type <;>
    first
    | exact (Bool.false_ne_true exact).elim
    | (cases datum <;>
        first
        | exact (Bool.false_ne_true typed).elim
        | rfl)

section

variable (exact : type.exact = true) (strict : wanted = .lt ∨ wanted = .gt)
include exact strict

theorem keepValue_best (typed : ∀ datum ∈ datums, datum.hasType type = true)
    (held : datum.Held type)
    (isBest : Best rules.toEngine wanted datums best) :
    ∃ kept, keepValue rules wanted (best.map (Datum.toValue rules.toEngine))
        (datum.toValue rules.toEngine) = kept.toValue rules.toEngine ∧
      Best rules.toEngine wanted (datums ++ [datum]) (some kept) := by
  cases best with
  | none =>
    refine ⟨datum, rfl, (Best.singleton exact strict held).of_seen ?_⟩
    rw [seen_append, isBest, nil_append]
  | some current =>
    have alike := Datum.pgCmp_asRef rules.toEngine held.1 (held_of_seen typed isBest.1).1
      (ColumnType.byValue_of_exact exact)
    unfold Datum.asRef at alike
    refine ⟨_, ?_, isBest.push exact strict typed held⟩
    simp only [Option.map_some, keepValue, alike]
    exact (apply_ite (Datum.toValue rules.toEngine) _ _ _).symm

theorem extreme_best (typed : ∀ datum ∈ first, datum.hasType type = true)
    (typed' : ∀ datum ∈ second, datum.hasType type = true) {left right : Option (Datum N F)}
    (isLeft : Best rules.toEngine wanted first left)
    (isRight : Best rules.toEngine wanted second right) :
    ∃ best, extreme rules wanted (left.map (Datum.toValue rules.toEngine))
        (right.map (Datum.toValue rules.toEngine)) = best.map (Datum.toValue rules.toEngine) ∧
      Best rules.toEngine wanted (first ++ second) best := by
  cases left with
  | none =>
    refine ⟨right, rfl, Best.of_seen ?_ isRight⟩
    rw [seen_append, isLeft, nil_append]
  | some left =>
    cases right with
    | none =>
      refine ⟨some left, rfl, Best.of_seen ?_ isLeft⟩
      rw [seen_append, isRight, append_nil]
    | some right =>
      have leftHeld := held_of_seen typed isLeft.1
      have rightHeld := held_of_seen typed' isRight.1
      simp only [Option.map_some, extreme, Value.toDatum_toValue exact leftHeld.1,
        Value.toDatum_toValue exact rightHeld.1]
      split
      case isTrue isBeyond =>
        exact ⟨some left, rfl, isLeft.append exact strict typed typed' isRight
          (.inl ⟨rfl, Datum.wanted_asymm exact leftHeld rightHeld strict isBeyond⟩)⟩
      case isFalse notBeyond =>
        exact ⟨some right, rfl, isLeft.append exact strict typed typed' isRight
          (.inr ⟨rfl, notBeyond⟩)⟩

end

/-- The sum of the integers that are seen, and nothing when none is. -/
def sumOf (datums : List (Datum N F)) : Option Int :=
  if seen datums = [] then none else some ((seen datums).map Datum.number).sum

theorem sumOf_append (first second : List (Datum N F)) :
    sumOf (first ++ second) = Option.merge (· + ·) (sumOf first) (sumOf second) := by
  unfold sumOf
  rw [seen_append]
  by_cases noneFirst : seen first = [] <;> by_cases noneSecond : seen second = [] <;>
    simp [noneFirst, noneSecond]

theorem sumOf_append_null (isNull : datum.isNull = true) :
    sumOf (datums ++ [datum]) = sumOf datums := by
  unfold sumOf
  rw [seen_append_null isNull]

theorem sumOf_append_int8 (datums : List (Datum N F)) (value : Int) :
    sumOf (datums ++ [.int8 value]) = some ((sumOf datums).getD 0 + value) := by
  have alone : sumOf [(Datum.int8 value : Datum N F)] = some value := by
    simp [sumOf, seen, Datum.isNull, Datum.number]
  rw [sumOf_append, alone]
  cases sumOf datums <;> simp

/-- The aggregates that the regions fold to what the row engine gives. -/
def AggregateSpec.alike (spec : AggregateSpec) : Bool :=
  match spec.func with
  | .count => true
  | .sum => spec.argType != .double
  | .min | .max => spec.argType.exact
  | .avg => false

/-- What a region is asked for is the aggregate of the plan. -/
def Aggregate.Serves (spec : AggregateSpec) : Aggregate → Prop
  | .countStar => spec.func = .count ∧ spec.arg = none
  | .count slot => spec.func = .count ∧ spec.arg = some slot
  | .sum slot => spec.func = .sum ∧ spec.arg = some slot ∧ spec.argType = .int8
  | .min slot => spec.func = .min ∧ spec.arg = some slot ∧ spec.argType.exact = true
  | .max slot => spec.func = .max ∧ spec.arg = some slot ∧ spec.argType.exact = true

theorem serves_of_pushDown (alike : spec.alike = true) {asks : List Aggregate}
    (pushed : pushDown spec = .ok asks) :
    ∃ aggregate, asks = [aggregate] ∧ aggregate.Serves spec := by
  obtain ⟨func, arg, argType⟩ := spec
  cases func with
  | avg => cases alike
  | count =>
    cases arg with
    | none => exact ⟨.countStar, (Except.ok.inj pushed).symm, rfl, rfl⟩
    | some slot => exact ⟨.count slot, (Except.ok.inj pushed).symm, rfl, rfl⟩
  | sum =>
    cases arg with
    | none => simp [pushDown] at pushed
    | some slot =>
      simp only [AggregateSpec.alike, bne_iff_ne] at alike
      by_cases isInt8 : argType = .int8
      · subst isInt8
        exact ⟨.sum slot, (Except.ok.inj pushed).symm, rfl, rfl, rfl⟩
      · simp [pushDown, isInt8, alike] at pushed
  | min | max =>
    cases arg with
    | none => simp [pushDown] at pushed
    | some slot => exact ⟨_, (Except.ok.inj pushed).symm, rfl, rfl, alike⟩

def Partial.Represents (rules : Arithmetic N F) (spec : AggregateSpec) (datums : List (Datum N F)) :
    Partial F → Prop
  | .count rows => spec.func = .count ∧ rows = (seen datums).length
  | .sum total => spec.func = .sum ∧ total = (sumOf datums).map Value.int8
  | .min best => spec.func = .min ∧ ∃ kept : Option (Datum N F),
      best = kept.map (Datum.toValue rules.toEngine) ∧ Best rules.toEngine .lt datums kept
  | .max best => spec.func = .max ∧ ∃ kept : Option (Datum N F),
      best = kept.map (Datum.toValue rules.toEngine) ∧ Best rules.toEngine .gt datums kept

def AggregateSpec.Typed (spec : AggregateSpec) (rows : List (List (Datum N F))) : Prop :=
  ∀ row ∈ rows, spec.arg.isSome = true → (spec.argument row).hasType spec.argType = true

theorem Datum.isNull_toValue (engine : Engine N F) (typed : datum.hasType type = true) :
    (datum.toValue engine).asRef.isNull = datum.isNull := by
  cases datum <;> first | rfl | exact (Bool.false_ne_true typed).elim

theorem columnOf_map (engine : Engine N F) (row : List (Datum N F)) (slot : Nat) :
    (row.map (Datum.toValue engine)).getD slot .null = (columnOf row slot).toValue engine :=
  getD_map row .null (Datum.toValue engine)

variable {state : Partial F}

section Steps

variable {spec : AggregateSpec} {aggregate : Aggregate}

theorem start_represents (serves : aggregate.Serves spec) :
    (aggregate.start : Partial F).Represents rules spec [] := by
  cases aggregate with
  | countStar | count | sum => exact ⟨serves.1, rfl⟩
  | min | max => exact ⟨serves.1, none, rfl, rfl⟩

section

variable (represents : state.Represents rules spec datums)
include represents

theorem represents_count (isCount : spec.func = .count) : state = .count (seen datums).length := by
  cases state with
  | count rows => rw [represents.2]
  | sum | min | max => exact absurd (isCount.symm.trans represents.1) (by decide)

theorem represents_sum (isSum : spec.func = .sum) :
    state = .sum ((sumOf datums).map Value.int8) := by
  cases state with
  | sum total => rw [represents.2]
  | count | min | max => exact absurd (isSum.symm.trans represents.1) (by decide)

theorem represents_extreme {func : AggregateFunc} (isFunc : spec.func = func) : match func with
    | .min => ∃ kept : Option (Datum N F), state = .min (kept.map (Datum.toValue rules.toEngine)) ∧
        Best rules.toEngine .lt datums kept
    | .max => ∃ kept : Option (Datum N F), state = .max (kept.map (Datum.toValue rules.toEngine)) ∧
        Best rules.toEngine .gt datums kept
    | _ => True := by
  cases func with
  | min | max =>
    cases state with
    | min best | max best =>
      first
      | exact absurd (isFunc.symm.trans represents.1) (by decide)
      | obtain ⟨_, kept, rfl, isBest⟩ := represents
        exact ⟨kept, rfl, isBest⟩
    | count | sum => exact absurd (isFunc.symm.trans represents.1) (by decide)
  | count | sum | avg => trivial

end

theorem Datum.eq_int8 (held : datum.Held .int8) : ∃ value, datum = .int8 value := by
  obtain ⟨typed, notNull⟩ := held
  cases datum with
  | int8 value => exact ⟨value, rfl⟩
  | null => cases notNull
  | _ => cases typed

variable {slot : Nat} {row : List (Datum N F)} {current : Datum N F} {func : AggregateFunc}

theorem argument_slot (isSlot : spec.arg = some slot) (row : List (Datum N F)) :
    spec.argument row = columnOf row slot := by
  rw [AggregateSpec.argument, isSlot]

variable {rows : List (List (Datum N F))}

theorem AggregateSpec.Typed.arguments (typed : spec.Typed rows) (isSlot : spec.arg = some slot) :
    ∀ datum ∈ rows.map spec.argument, datum.hasType spec.argType = true := by
  intro datum mem
  obtain ⟨row, isRow, rfl⟩ := mem_map.mp mem
  exact typed row isRow (by rw [isSlot]; rfl)

theorem pushed_best {extreme : Option (Value F) → Partial F} (exact : type.exact = true)
    (strict : wanted = .lt ∨ wanted = .gt) (typed : ∀ datum ∈ datums, datum.hasType type = true)
    (held : datum.hasType type = true) (isBest : Best rules.toEngine wanted datums best)
    {after : Partial F} (pushed : (if datum.isNull = true then
        Except.ok (extreme (best.map (Datum.toValue rules.toEngine)))
      else .ok (extreme (some (keepValue rules wanted (best.map (Datum.toValue rules.toEngine))
        (datum.toValue rules.toEngine))))) = (.ok after : Except String _)) :
    ∃ kept : Option (Datum N F), after = extreme (kept.map (Datum.toValue rules.toEngine)) ∧
      Best rules.toEngine wanted (datums ++ [datum]) kept := by
  cases isNull : datum.isNull with
  | true =>
    rw [isNull, if_pos rfl] at pushed
    exact ⟨best, (Except.ok.inj pushed).symm, isBest.of_seen (seen_append_null isNull).symm⟩
  | false =>
    rw [isNull, if_neg Bool.false_ne_true] at pushed
    obtain ⟨kept, isKept, stillBest⟩ := keepValue_best exact strict typed ⟨held, isNull⟩ isBest
    exact ⟨some kept, by rw [← Except.ok.inj pushed, isKept]; rfl, stillBest⟩

section

variable (serves : aggregate.Serves spec)
include serves

theorem push_represents (typed : spec.Typed rows) (rowTyped : spec.Typed [row]) {after : Partial F}
    (represents : state.Represents rules spec (rows.map spec.argument))
    (pushed : aggregate.push rules state (row.map (Datum.toValue rules.toEngine)) = .ok after) :
    after.Represents rules spec ((rows ++ [row]).map spec.argument) := by
  rw [map_append, map_singleton]
  cases aggregate with
  | countStar =>
    rw [represents_count represents serves.1] at pushed
    rw [← Except.ok.inj pushed]
    refine ⟨serves.1, ?_⟩
    rw [AggregateSpec.argument, serves.2, seen_append_held rfl, length_append]
    rfl
  | count slot =>
    have rowHeld := rowTyped.arguments serves.2 _ (mem_singleton_self _)
    rw [represents_count represents serves.1, Aggregate.push, columnOf_map,
      ← argument_slot serves.2, Datum.isNull_toValue _ rowHeld] at pushed
    cases isNull : (spec.argument row).isNull with
    | true =>
      rw [isNull, if_pos rfl] at pushed
      rw [← Except.ok.inj pushed]
      exact ⟨serves.1, by rw [seen_append_null isNull]⟩
    | false =>
      rw [isNull, if_neg Bool.false_ne_true] at pushed
      rw [← Except.ok.inj pushed]
      exact ⟨serves.1, by rw [seen_append_held isNull, length_append]; rfl⟩
  | sum slot =>
    obtain ⟨isSum, isSlot, isInt8⟩ := serves
    have rowHeld := rowTyped.arguments isSlot _ (mem_singleton_self _)
    rw [represents_sum represents isSum] at pushed
    unfold Aggregate.push at pushed
    dsimp only at pushed
    rw [columnOf_map, ← argument_slot isSlot, Datum.isNull_toValue _ rowHeld] at pushed
    cases isNull : (spec.argument row).isNull with
    | true =>
      rw [isNull, if_pos rfl] at pushed
      rw [← Except.ok.inj pushed]
      exact ⟨isSum, by rw [sumOf_append_null isNull]⟩
    | false =>
      rw [isInt8] at rowHeld
      obtain ⟨value, isValue⟩ := Datum.eq_int8 ⟨rowHeld, isNull⟩
      rw [isNull, if_neg Bool.false_ne_true, isValue] at pushed
      rw [isValue]
      cases total : sumOf (rows.map spec.argument) with
      | none =>
        rw [total] at pushed
        rw [← Except.ok.inj pushed]
        refine ⟨isSum, ?_⟩
        rw [sumOf_append_int8, total]
        simp [Datum.toValue]
      | some current =>
        rw [total] at pushed
        simp only [Option.map_some, Datum.toValue, addValues] at pushed
        split at pushed
        case h_1 => cases pushed
        case h_2 added isAdded =>
          split at isAdded
          case isFalse => cases isAdded
          case isTrue =>
            rw [← Except.ok.inj pushed, ← Except.ok.inj isAdded]
            refine ⟨isSum, ?_⟩
            rw [sumOf_append_int8, total]
            rfl
  | min slot | max slot =>
    obtain ⟨isFunc, isSlot, exact⟩ := serves
    have rowHeld := rowTyped.arguments isSlot _ (mem_singleton_self _)
    obtain ⟨kept, rfl, isBest⟩ := represents_extreme represents isFunc
    rw [Aggregate.push, columnOf_map, ← argument_slot isSlot,
      Datum.isNull_toValue _ rowHeld] at pushed
    obtain ⟨best, rfl, stillBest⟩ := pushed_best exact (by decide) (typed.arguments isSlot) rowHeld
      isBest pushed
    exact ⟨isFunc, best, rfl, stillBest⟩

theorem combine_represents {first second : List (List (Datum N F))} (typed : spec.Typed first)
    (typed' : spec.Typed second) {left right combined : Partial F}
    (isLeft : left.Represents rules spec (first.map spec.argument))
    (isRight : right.Represents rules spec (second.map spec.argument))
    (isCombined : left.combine rules right = .ok combined) :
    combined.Represents rules spec ((first ++ second).map spec.argument) := by
  rw [map_append]
  have counted (isCount : spec.func = .count) : combined.Represents rules spec
      (first.map spec.argument ++ second.map spec.argument) := by
    rw [represents_count isLeft isCount, represents_count isRight isCount,
      Partial.combine] at isCombined
    split at isCombined
    case isFalse => cases isCombined
    case isTrue =>
      rw [← Except.ok.inj isCombined]
      exact ⟨isCount, by rw [seen_append, length_append]⟩
  cases aggregate with
  | countStar | count => exact counted serves.1
  | sum slot =>
    have isSum := serves.1
    rw [represents_sum isLeft isSum, represents_sum isRight isSum, Partial.combine] at isCombined
    split at isCombined
    case h_1 => cases isCombined
    case h_2 total isTotal =>
      rw [← Except.ok.inj isCombined]
      refine ⟨isSum, ?_⟩
      rw [sumOf_append]
      cases left : sumOf (first.map spec.argument) with
      | none =>
        rw [left] at isTotal
        simpa [sumValues] using isTotal.symm
      | some left' =>
        cases right : sumOf (second.map spec.argument) with
        | none =>
          rw [left, right] at isTotal
          simpa [sumValues] using isTotal.symm
        | some right' =>
          rw [left, right] at isTotal
          simp only [Option.map_some, sumValues] at isTotal
          split at isTotal
          case isFalse => cases isTotal
          case isTrue => simpa using (Except.ok.inj isTotal).symm
  | min slot | max slot =>
    obtain ⟨isFunc, isSlot, exact⟩ := serves
    obtain ⟨left, rfl, leftBest⟩ := represents_extreme isLeft isFunc
    obtain ⟨right, rfl, rightBest⟩ := represents_extreme isRight isFunc
    obtain ⟨best, isKept, isBest⟩ := extreme_best exact (by decide) (typed.arguments isSlot)
      (typed'.arguments isSlot) leftBest rightBest
    rw [Partial.combine, isKept] at isCombined
    rw [← Except.ok.inj isCombined]
    exact ⟨isFunc, best, rfl, isBest⟩

/-! ## What the row engine's state stands for -/

def RowState.Represents (rules : Arithmetic N F) (spec : AggregateSpec)
    (datums : List (Datum N F)) : RowState N F → Prop
  | .count rows => spec.func = .count ∧ rows = (seen datums).length
  | .sumNumeric total => spec.func = .sum ∧ total = (sumOf datums).map rules.ofInt
  | .extreme best =>
    spec.func = .min ∧ Best rules.toEngine .lt datums best ∨
      spec.func = .max ∧ Best rules.toEngine .gt datums best
  | _ => False

theorem new_represents : (RowState.new rules spec).Represents rules spec [] := by
  obtain ⟨func, arg, argType⟩ := spec
  cases aggregate with
  | countStar | count =>
    obtain ⟨rfl, _⟩ := serves
    exact ⟨rfl, rfl⟩
  | sum slot =>
    obtain ⟨rfl, _, rfl⟩ := serves
    exact ⟨rfl, rfl⟩
  | min slot | max slot =>
    obtain ⟨rfl, _⟩ := serves
    simp [RowState.new, RowState.Represents, Best, seen]

omit serves in
theorem rowPush_null (state : RowState N F) (isNull : datum.isNull = true) :
    RowState.push rules func state datum = .ok state := by
  unfold RowState.push
  rw [if_pos isNull]

omit serves in
theorem rowPush_count (counted : Nat) (held : datum.isNull = false) :
    RowState.push rules func (.count counted) datum = .ok (.count (counted + 1)) := by
  unfold RowState.push
  rw [if_neg (ne_true_of_eq_false held)]

omit serves in
theorem rowPush_first (held : datum.isNull = false) :
    RowState.push rules func (.extreme none) datum = .ok (.extreme (some datum)) := by
  unfold RowState.push
  rw [if_neg (ne_true_of_eq_false held)]

omit serves in
theorem rowPush_extreme (held : datum.isNull = false)
    (isFunc : func = .min ∧ wanted = .lt ∨ func = .max ∧ wanted = .gt) :
    RowState.push rules func (.extreme (some current)) datum = .ok (.extreme
      (some (if datum.pgCmp rules.toEngine current = wanted then datum else current))) := by
  unfold RowState.push
  rw [if_neg (ne_true_of_eq_false held)]
  rcases isFunc with ⟨rfl, rfl⟩ | ⟨rfl, rfl⟩ <;>
    cases compared : datum.pgCmp rules.toEngine current <;>
      simp [compared, Ordering.isLT, Ordering.isGT]

theorem exact_of_serves (isExtreme : spec.func = .min ∨ spec.func = .max) :
    ∃ slot, spec.arg = some slot ∧ spec.argType.exact = true := by
  cases aggregate with
  | min slot | max slot => exact ⟨slot, serves.2⟩
  | _ =>
    rcases isExtreme with isFunc | isFunc <;>
      exact absurd (serves.1.symm.trans isFunc) (by decide)

theorem rowPush_represents
    (typed : spec.Typed rows) (rowTyped : spec.Typed [row]) {state : RowState N F}
    (represents : state.Represents rules spec (rows.map spec.argument)) :
    ∃ after, RowState.push rules spec.func state (spec.argument row) = .ok after ∧
      after.Represents rules spec ((rows ++ [row]).map spec.argument) := by
  rw [map_append, map_singleton]
  cases isNull : (spec.argument row).isNull with
  | true =>
    refine ⟨state, rowPush_null state isNull, ?_⟩
    cases state with
    | count rows => exact ⟨represents.1, by rw [seen_append_null isNull, represents.2]⟩
    | sumNumeric total => exact ⟨represents.1, by rw [sumOf_append_null isNull, represents.2]⟩
    | extreme best =>
      exact represents.imp (fun isMin => ⟨isMin.1, isMin.2.of_seen (seen_append_null isNull).symm⟩)
        (fun isMax => ⟨isMax.1, isMax.2.of_seen (seen_append_null isNull).symm⟩)
    | sumWide | sumFloat | avgNumeric | avgFloat => exact represents.elim
  | false =>
    cases state with
    | count counted =>
      refine ⟨_, rowPush_count counted isNull, represents.1, ?_⟩
      rw [seen_append_held isNull, length_append, represents.2]
      rfl
    | sumNumeric total =>
      have isInt8 : ∃ value, spec.argument row = .int8 value := by
        cases aggregate with
        | sum slot =>
          have rowHeld := rowTyped.arguments serves.2.1 _ (mem_singleton_self _)
          rw [serves.2.2] at rowHeld
          exact Datum.eq_int8 ⟨rowHeld, isNull⟩
        | _ => exact absurd (serves.1.symm.trans represents.1) (by decide)
      obtain ⟨value, isValue⟩ := isInt8
      rw [isValue]
      refine ⟨.sumNumeric (some (addNumeric rules total (rules.ofInt value))), rfl,
        represents.1, ?_⟩
      rw [sumOf_append_int8, represents.2]
      cases sumOf (rows.map spec.argument) with
      | none => simp [addNumeric]
      | some current => simp [addNumeric, rules.add_ofInt]
    | extreme best =>
      obtain ⟨slot, isSlot, exact⟩ := exact_of_serves serves (represents.imp And.left And.left)
      have held : (spec.argument row).Held spec.argType :=
        ⟨rowTyped.arguments isSlot _ (mem_singleton_self _), isNull⟩
      have rowsTyped := typed.arguments isSlot
      cases best with
      | none =>
        refine ⟨_, rowPush_first isNull, represents.imp (fun isMin => ⟨isMin.1, ?_⟩)
          (fun isMax => ⟨isMax.1, ?_⟩)⟩
        · apply (Best.singleton exact (.inl rfl) held).of_seen
          rw [seen_append, isMin.2, nil_append]
        · apply (Best.singleton exact (.inr rfl) held).of_seen
          rw [seen_append, isMax.2, nil_append]
      | some current =>
        rcases represents with ⟨isMin, isBest⟩ | ⟨isMax, isBest⟩
        · exact ⟨_, rowPush_extreme isNull (.inl ⟨isMin, rfl⟩),
            .inl ⟨isMin, isBest.push exact (.inl rfl) rowsTyped held⟩⟩
        · exact ⟨_, rowPush_extreme isNull (.inr ⟨isMax, rfl⟩),
            .inr ⟨isMax, isBest.push exact (.inr rfl) rowsTyped held⟩⟩
    | sumWide | sumFloat | avgNumeric | avgFloat => exact represents.elim

end

end Steps

/-! ## The two answers -/

/-- Two values that are one number: an exact sum is a `bigint` on one side and a `numeric` on the
other. -/
def SameNumber (rules : Arithmetic N F) (left right : Datum N F) : Prop :=
  left = right ∨ ∃ value, left = .int8 value ∧ right = .numeric (rules.ofInt value)

theorem sumOf_perm (perm : first.Perm second) : sumOf first = sumOf second := by
  have same : (seen first).Perm (seen second) := perm.filter _
  unfold sumOf
  rw [(same.map Datum.number).sum_eq]
  have isEmpty : seen first = [] ↔ seen second = [] := by
    rw [← length_eq_zero_iff, same.length_eq, length_eq_zero_iff]
  simp only [isEmpty]

theorem seen_length_perm (perm : first.Perm second) :
    (seen first).length = (seen second).length := (perm.filter _).length_eq

theorem seen_length_le (datums : List (Datum N F)) : (seen datums).length ≤ datums.length :=
  length_filter_le _ _

theorem Best.same (isKept : Best rules.toEngine wanted first best) (exact : type.exact = true)
    (strict : wanted = .lt ∨ wanted = .gt) (perm : first.Perm second)
    (typed : ∀ datum ∈ second, datum.hasType type = true) {other : Option (Datum N F)}
    (isBest : Best rules.toEngine wanted second other) :
    best = other ∧ ∀ value, other = some value →
      (value.toValue rules.toEngine).toDatum rules = value := by
  refine ⟨(isKept.perm perm).unique exact strict typed isBest, ?_⟩
  rintro value rfl
  exact Value.toDatum_toValue exact (held_of_seen typed isBest.1).1

theorem values_same {aggregate : Aggregate} (serves : aggregate.Serves spec)
    {gathered rows : List (List (Datum N F))} (perm : gathered.Perm rows) (typed : spec.Typed rows)
    (few : rows.length < 2 ^ 63) {row : RowState N F}
    (represents : state.Represents rules spec (gathered.map spec.argument))
    (rowRepresents : row.Represents rules spec (rows.map spec.argument)) :
    SameNumber rules (valueOf rules spec.func [some state]) (row.finish rules) := by
  have permuted : (gathered.map spec.argument).Perm (rows.map spec.argument) := perm.map _
  cases row with
  | count counted =>
    rw [represents_count represents rowRepresents.1, rowRepresents.2, seen_length_perm permuted]
    left
    have bounded := seen_length_le (rows.map spec.argument)
    rw [length_map] at bounded
    simp only [valueOf, countDatum, RowState.finish]
    rw [Int.min_eq_left (by omega)]
  | sumNumeric total =>
    rw [represents_sum represents rowRepresents.1, rowRepresents.2, sumOf_perm permuted]
    cases sumOf (rows.map spec.argument) with
    | none => exact .inl rfl
    | some value => exact .inr ⟨value, rfl, rfl⟩
  | extreme best =>
    left
    obtain ⟨slot, isSlot, exact⟩ := exact_of_serves serves (rowRepresents.imp And.left And.left)
    rcases rowRepresents with ⟨isFunc, isBest⟩ | ⟨isFunc, isBest⟩ <;>
      obtain ⟨kept, rfl, isKept⟩ := represents_extreme represents isFunc <;>
      obtain ⟨rfl, back⟩ := isKept.same exact (by decide) permuted (typed.arguments isSlot)
        isBest <;>
      cases kept <;> first | rfl | exact back _ rfl
  | sumWide | sumFloat | avgNumeric | avgFloat => exact rowRepresents.elim

end Partials

theorem finish_of_nothing {rules : Arithmetic N F} {state : RowState N F}
    (represents : state.Represents rules spec []) :
    state.finish rules = valueOf rules spec.func [none] := by
  cases state with
  | count | sumNumeric =>
    rw [represents.2, represents.1]
    rfl
  | extreme best =>
    cases best with
    | none => rcases represents with ⟨isFunc, _⟩ | ⟨isFunc, _⟩ <;> rw [isFunc] <;> rfl
    | some best =>
      rcases represents with ⟨_, isBest⟩ | ⟨_, isBest⟩ <;> exact absurd isBest.1 not_mem_nil
  | sumWide | sumFloat | avgNumeric | avgFloat => exact represents.elim

end Esker.Sql
