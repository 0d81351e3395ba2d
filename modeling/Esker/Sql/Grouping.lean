import Esker.Groups
import Esker.Sql.Aggregates

/-!
Contract: the groups of an aggregate plan, over the rows of a table and over its regions' columns
(`Sink` of `esker-columnar/src/scan.rs`, `evaluate`, `combine` and `finish` of
`esker-sql/src/exec/fragment.rs`, `fold` of `esker-sql/src/exec/cursor.rs`).

Owns: the keys of groups, a region's groups, their merging at the node, the row engine's groups, and
that the two give the same groups with the same values.

Does not own: one aggregate of one group (`Esker.Sql.Aggregates`), `HAVING`, which is applied above
both plans, and the order of the groups, which SQL leaves open.
-/

namespace Esker.Sql

open List Groups

variable {N F : Type}

/-- The slots the rows are grouped by, with their types, and the aggregates. -/
structure AggregatePlan where
  groupBy : List (Nat × ColumnType)
  specs : List AggregateSpec

/-- The order of `GroupKey`: value by value, and then by the length. -/
def keyCmp {α : Type} (cmp : α → α → Ordering) : List α → List α → Ordering
  | left :: lefts, right :: rights => (cmp left right).then (keyCmp cmp lefts rights)
  | lefts, rights => compare lefts.length rights.length

section Plans

variable (rules : Arithmetic N F) (plan : AggregatePlan)

/-! ## A region -/

def valueKey (row : List (Value F)) : List (Value F) :=
  plan.groupBy.map fun slot => row.getD slot.1 .null

def sameValues (left right : List (Value F)) : Bool :=
  (keyCmp (fun left right => left.asRef.pgCmp rules.toEngine right.asRef) left right).isEq

/-- Every accumulator of a group takes the row. -/
def pushAll (row : List (Value F)) :
    List Aggregate → List (Partial F) → Except String (List (Partial F))
  | aggregate :: aggregates, state :: states =>
    match aggregate.push rules state row with
    | .error what => .error what
    | .ok next => (pushAll row aggregates states).map fun rest => next :: rest
  | _, _ => .ok []

/-- `Sink`: a region's groups. Without grouping slots, no rows are one group. -/
def regionGroups (asks : List Aggregate) (rows : List (List (Value F))) :
    Except String (List (List (Value F) × List (Partial F))) :=
  (group (sameValues rules) (fun _ => none) (valueKey plan)
    (fun row held => pushAll rules row asks (held.getD (asks.map Aggregate.start))) rows).map
    fun table =>
      if plan.groupBy.isEmpty && table.isEmpty then [([], asks.map Aggregate.start)] else table

/-! ## The node that asked -/

def sameDatums (left right : List (Datum N F)) : Bool :=
  (keyCmp (Datum.pgCmp rules.toEngine) left right).isEq

/-- `combine`: the partials of a group, one by one. -/
def combineAll : List (Partial F) → List (Partial F) → Except String (List (Partial F))
  | running :: runnings, arriving :: arrivings =>
    match running.combine rules arriving with
    | .error what => .error what
    | .ok combined => (combineAll runnings arrivings).map fun rest => combined :: rest
  | runnings, _ => .ok runnings

def nodeKey (answer : List (Value F) × List (Partial F)) : List (Datum N F) :=
  answer.1.map (Value.toDatum rules)

/-- `evaluate`: the groups of every region, merged by their keys. -/
def mergedGroups (asks : List Aggregate) (regions : List (List (List (Value F)))) :
    Except String (List (List (Datum N F) × List (Partial F))) :=
  match regions.mapM (regionGroups rules plan asks) with
  | .error what => .error what
  | .ok answers =>
    group (sameDatums rules) (fun _ => none) (nodeKey rules)
      (fun answer held =>
        match held with
        | none => .ok answer.2
        | some running => combineAll rules running answer.2) answers.flatten

/-- The aggregates of one group, each from the partials that were asked for it. -/
def finishAll : List AggregateSpec → List (List Aggregate) → List (Partial F) → List (Datum N F)
  | spec :: specs, asks :: rest, partials =>
    valueOf rules spec.func ((partials.take asks.length).map some) ::
      finishAll specs rest (partials.drop asks.length)
  | _, _, _ => []

/-- The groups of the routed plan with their values, or the reason to fall back. -/
def columnarRows (regions : List (List (List (Value F)))) :
    Except String (List (List (Datum N F) × List (Datum N F))) :=
  match plan.specs.mapM pushDown with
  | .error what => .error what
  | .ok asks =>
    (mergedGroups rules plan asks.flatten regions).map fun merged =>
      -- An ungrouped aggregate over no region at all is one row.
      if merged.isEmpty && plan.groupBy.isEmpty then
        [([], plan.specs.map fun spec => valueOf rules spec.func [none])]
      else merged.map fun found => (found.1, finishAll rules plan.specs asks found.2)

/-! ## The row engine -/

def groupLimit : Nat := 1000000

def rowKey (row : List (Datum N F)) : List (Datum N F) :=
  plan.groupBy.map fun slot => columnOf row slot.1

def rowPushAll (row : List (Datum N F)) :
    List AggregateSpec → List (RowState N F) → Except String (List (RowState N F))
  | spec :: specs, state :: states =>
    match RowState.push rules spec.func state (spec.argument row) with
    | .error what => .error what
    | .ok next => (rowPushAll row specs states).map fun rest => next :: rest
  | _, _ => .ok []

def tooManyGroups : String :=
  "a GROUP BY of more than 1000000 groups needs more memory than this node " ++
    "                 will use; group by fewer columns or add a WHERE"

/-- The loop of `fold` over the rows. -/
def rowGroups (rows : List (List (Datum N F))) :
    Except String (List (List (Datum N F) × List (RowState N F))) :=
  group (sameDatums rules) (fun count => if count = groupLimit then some tooManyGroups else none)
    (rowKey plan)
    (fun row held => rowPushAll rules row plan.specs
      (held.getD (plan.specs.map (RowState.new rules)))) rows

/-- `fold`: the groups of the row plan with their values. -/
def rowRows (rows : List (List (Datum N F))) :
    Except String (List (List (Datum N F) × List (Datum N F))) :=
  (rowGroups rules plan rows).map fun table =>
    (if table.isEmpty && plan.groupBy.isEmpty then [([], plan.specs.map (RowState.new rules))]
      else table).map fun found => (found.1, found.2.map (RowState.finish rules))

end Plans

/-! ## Keys -/

variable {rules : Arithmetic N F} {plan : AggregatePlan}

/-- A key of values whose types are compared alike in columns and in rows. -/
def ExactKey (slots : List (Nat × ColumnType)) (key : List (Datum N F)) : Prop :=
  Forall₂ (fun slot datum => slot.2.exact = true ∧ datum.hasType slot.2 = true) slots key

section Keys

variable {slots : List (Nat × ColumnType)} {left right key : List (Datum N F)}

theorem keyCmp_cons_isEq {α : Type} (cmp : α → α → Ordering) (left right : α)
    (lefts rights : List α) : (keyCmp cmp (left :: lefts) (right :: rights)).isEq =
      ((cmp left right).isEq && (keyCmp cmp lefts rights).isEq) := by
  rw [keyCmp]
  cases cmp left right <;> rfl

theorem sameDatums_iff (rules : Arithmetic N F) (leftKey : ExactKey slots left)
    (rightKey : ExactKey slots right) : sameDatums rules left right = true ↔ left = right := by
  induction leftKey generalizing right with
  | nil =>
    cases rightKey
    exact iff_of_true rfl rfl
  | cons leftHeld _ ih =>
    cases rightKey with
    | cons rightHeld rest =>
      unfold sameDatums at ih ⊢
      rw [keyCmp_cons_isEq, Bool.and_eq_true, ih rest,
        Datum.pgCmp_isEq leftHeld.2 rightHeld.2 leftHeld.1, cons.injEq]

theorem sameValues_toValue (leftKey : ExactKey slots left) (rightKey : ExactKey slots right) :
    sameValues rules (left.map (Datum.toValue rules.toEngine))
      (right.map (Datum.toValue rules.toEngine)) = sameDatums rules left right := by
  induction leftKey generalizing right with
  | nil =>
    cases rightKey
    rfl
  | cons leftHeld _ ih =>
    cases rightKey with
    | cons rightHeld rest =>
      have alike := Datum.pgCmp_asRef rules.toEngine leftHeld.2 rightHeld.2
        (ColumnType.byValue_of_exact leftHeld.1)
      unfold Datum.asRef at alike
      unfold sameValues sameDatums at ih ⊢
      rw [map_cons, map_cons, keyCmp_cons_isEq, keyCmp_cons_isEq, alike, ih rest]

theorem toDatum_key (isKey : ExactKey slots key) :
    (key.map (Datum.toValue rules.toEngine)).map (Value.toDatum rules) = key := by
  induction isKey with
  | nil => rfl
  | cons held _ ih => rw [map_cons, map_cons, Value.toDatum_toValue held.1 held.2, ih]

/-- The key as a region holds it. -/
def RegionKey (rules : Arithmetic N F) (slots : List (Nat × ColumnType)) (key : List (Value F)) :
    Prop :=
  ∃ datums : List (Datum N F), ExactKey slots datums ∧
    datums.map (Datum.toValue rules.toEngine) = key

theorem sameValues_iff (left right : List (Value F)) (leftKey : RegionKey rules slots left)
    (rightKey : RegionKey rules slots right) :
    sameValues rules left right = true ↔ left = right := by
  obtain ⟨lefts, isLeft, rfl⟩ := leftKey
  obtain ⟨rights, isRight, rfl⟩ := rightKey
  rw [sameValues_toValue isLeft isRight, sameDatums_iff rules isLeft isRight]
  refine ⟨congrArg _, fun same => ?_⟩
  have back := congrArg (List.map (Value.toDatum rules)) same
  rwa [toDatum_key isLeft, toDatum_key isRight] at back

end Keys

theorem valueKey_map (row : List (Datum N F)) :
    valueKey plan (row.map (Datum.toValue rules.toEngine)) =
      (rowKey plan row).map (Datum.toValue rules.toEngine) := by
  unfold valueKey rowKey
  rw [map_map]
  exact map_congr_left fun slot _ => columnOf_map rules.toEngine row slot.1

/-! ## The aggregates of one group -/

section Members

variable {specs : List AggregateSpec} {asks : List Aggregate} {rows : List (List (Datum N F))}
  {row : List (Datum N F)}

/-- What is asked of the regions is the plan's aggregates, one by one. -/
abbrev ServesAll (specs : List AggregateSpec) (asks : List Aggregate) : Prop :=
  Forall₂ (fun spec aggregate => aggregate.Serves spec) specs asks

def TypedAll (specs : List AggregateSpec) (rows : List (List (Datum N F))) : Prop :=
  ∀ spec ∈ specs, spec.Typed rows

abbrev RepresentsAll (rules : Arithmetic N F) (specs : List AggregateSpec)
    (rows : List (List (Datum N F))) (states : List (Partial F)) : Prop :=
  Forall₂ (fun spec state => state.Represents rules spec (rows.map spec.argument)) specs states

abbrev RowRepresentsAll (rules : Arithmetic N F) (specs : List AggregateSpec)
    (rows : List (List (Datum N F))) (states : List (RowState N F)) : Prop :=
  Forall₂ (fun spec state => state.Represents rules spec (rows.map spec.argument)) specs states

theorem typedAll_nil (specs : List AggregateSpec) :
    TypedAll specs ([] : List (List (Datum N F))) :=
  fun _ _ _ mem => absurd mem not_mem_nil

theorem TypedAll.subset (typed : TypedAll specs rows) {some : List (List (Datum N F))}
    (among : ∀ row ∈ some, row ∈ rows) : TypedAll specs some :=
  fun spec isSpec row mem => typed spec isSpec row (among row mem)

theorem TypedAll.append {first second : List (List (Datum N F))} (typed : TypedAll specs first)
    (typed' : TypedAll specs second) : TypedAll specs (first ++ second) :=
  fun spec isSpec row mem => (mem_append.mp mem).elim (typed spec isSpec row)
    (typed' spec isSpec row)

theorem servesAll_of_pushDown (alike : ∀ spec ∈ specs, spec.alike = true)
    {asked : List (List Aggregate)} (pushed : specs.mapM pushDown = .ok asked) :
    ∃ asks : List Aggregate, asked = asks.map (fun aggregate => [aggregate]) ∧
      ServesAll specs asks := by
  induction specs generalizing asked with
  | nil =>
    cases pushed
    exact ⟨[], rfl, .nil⟩
  | cons spec specs ih =>
    rw [mapM_cons] at pushed
    cases first : pushDown spec with
    | error what =>
      rw [first] at pushed
      cases pushed
    | ok ask =>
      cases others : specs.mapM pushDown with
      | error what =>
        rw [first, others] at pushed
        cases pushed
      | ok rest =>
        rw [first, others] at pushed
        cases pushed
        obtain ⟨aggregate, rfl, serves⟩ := serves_of_pushDown (alike spec (.head _)) first
        obtain ⟨asks, rfl, servesRest⟩ := ih (fun spec mem => alike spec (.tail _ mem)) others
        exact ⟨aggregate :: asks, rfl, .cons serves servesRest⟩

theorem startAll_represents (serves : ServesAll specs asks) :
    RepresentsAll rules specs [] (asks.map Aggregate.start) := by
  induction serves with
  | nil => exact .nil
  | cons first _ ih => exact .cons (start_represents first) ih

theorem newAll_represents (rules : Arithmetic N F) (serves : ServesAll specs asks) :
    RowRepresentsAll rules specs [] (specs.map (RowState.new rules)) := by
  induction serves with
  | nil => exact .nil
  | cons first _ ih => exact .cons (new_represents first) ih

theorem pushAll_represents (serves : ServesAll specs asks) (typed : TypedAll specs rows)
    (rowTyped : TypedAll specs [row]) {states after : List (Partial F)}
    (represents : RepresentsAll rules specs rows states)
    (pushed : pushAll rules (row.map (Datum.toValue rules.toEngine)) asks states = .ok after) :
    RepresentsAll rules specs (rows ++ [row]) after := by
  induction serves generalizing states after with
  | nil =>
    cases represents
    cases pushed
    exact .nil
  | @cons spec aggregate specs asks first _ ih =>
    cases represents with
    | @cons _ state _ states isFirst isRest =>
      rw [pushAll] at pushed
      split at pushed
      case h_1 => cases pushed
      case h_2 next isNext =>
        cases later : pushAll rules (row.map (Datum.toValue rules.toEngine)) asks states with
        | error what =>
          rw [later] at pushed
          cases pushed
        | ok others =>
          rw [later] at pushed
          rw [← Except.ok.inj pushed]
          exact .cons (push_represents first (typed spec (.head _)) (rowTyped spec (.head _))
              isFirst isNext)
            (ih (fun spec mem => typed spec (.tail _ mem))
              (fun spec mem => rowTyped spec (.tail _ mem)) isRest later)

theorem combineAll_represents (serves : ServesAll specs asks)
    {first second : List (List (Datum N F))} (typed : TypedAll specs first)
    (typed' : TypedAll specs second) {lefts rights combined : List (Partial F)}
    (areLefts : RepresentsAll rules specs first lefts)
    (areRights : RepresentsAll rules specs second rights)
    (isCombined : combineAll rules lefts rights = .ok combined) :
    RepresentsAll rules specs (first ++ second) combined := by
  induction serves generalizing lefts rights combined with
  | nil =>
    cases areLefts
    cases isCombined
    exact .nil
  | @cons spec aggregate specs asks isServed _ ih =>
    cases areLefts with
    | @cons _ left _ lefts isLeft restLeft =>
      cases areRights with
      | @cons _ right _ rights isRight restRight =>
        rw [combineAll] at isCombined
        split at isCombined
        case h_1 => cases isCombined
        case h_2 both isBoth =>
          cases later : combineAll rules lefts rights with
          | error what =>
            rw [later] at isCombined
            cases isCombined
          | ok others =>
            rw [later] at isCombined
            rw [← Except.ok.inj isCombined]
            exact .cons (combine_represents isServed (typed spec (.head _)) (typed' spec (.head _))
                isLeft isRight isBoth)
              (ih (fun spec mem => typed spec (.tail _ mem))
                (fun spec mem => typed' spec (.tail _ mem)) restLeft restRight later)

theorem rowPushAll_represents (serves : ServesAll specs asks) (typed : TypedAll specs rows)
    (rowTyped : TypedAll specs [row]) {states : List (RowState N F)}
    (represents : RowRepresentsAll rules specs rows states) :
    ∃ after, rowPushAll rules row specs states = .ok after ∧
      RowRepresentsAll rules specs (rows ++ [row]) after := by
  induction serves generalizing states with
  | nil =>
    cases represents
    exact ⟨[], rfl, .nil⟩
  | @cons spec aggregate specs asks first _ ih =>
    cases represents with
    | cons isFirst isRest =>
      obtain ⟨next, pushed, isNext⟩ := rowPush_represents first (typed spec (.head _))
        (rowTyped spec (.head _)) isFirst
      obtain ⟨others, later, areOthers⟩ := ih (fun spec mem => typed spec (.tail _ mem))
        (fun spec mem => rowTyped spec (.tail _ mem)) isRest
      exact ⟨next :: others, by rw [rowPushAll, pushed, later]; rfl, .cons isNext areOthers⟩

theorem finishAll_same (serves : ServesAll specs asks) {gathered : List (List (Datum N F))}
    (perm : gathered.Perm rows) (typed : TypedAll specs rows) (few : rows.length < 2 ^ 63)
    {states : List (Partial F)} (represents : RepresentsAll rules specs gathered states)
    {rowStates : List (RowState N F)}
    (rowRepresents : RowRepresentsAll rules specs rows rowStates) :
    Forall₂ (SameNumber rules)
      (finishAll rules specs (asks.map fun aggregate => [aggregate]) states)
      (rowStates.map (RowState.finish rules)) := by
  induction serves generalizing states rowStates with
  | nil =>
    cases rowRepresents
    exact .nil
  | @cons spec aggregate specs asks first _ ih =>
    cases represents with
    | cons isFirst isRest =>
      cases rowRepresents with
      | cons isRow areRows =>
        exact .cons (values_same first perm (typed spec (.head _)) few isFirst isRow)
          (ih (fun spec mem => typed spec (.tail _ mem)) isRest areRows)

theorem finishAll_of_nothing {states : List (RowState N F)}
    (represents : RowRepresentsAll rules specs [] states) :
    Forall₂ (SameNumber rules) (specs.map fun spec => valueOf rules spec.func [none])
      (states.map (RowState.finish rules)) := by
  induction represents with
  | nil => exact .nil
  | cons first _ ih => exact .cons (.inl (finish_of_nothing first).symm) ih

end Members

/-! ## The groups of the regions -/

/-- The columns the plan groups by and the arguments of its aggregates hold values of their types,
and the types grouped by are compared alike in columns and in rows. -/
structure AggregatePlan.Typed (plan : AggregatePlan) (rows : List (List (Datum N F))) : Prop where
  keys : ∀ row ∈ rows, ExactKey plan.groupBy (rowKey plan row)
  arguments : TypedAll plan.specs rows

/-- A group that a region answered, and the rows it was folded from. -/
abbrev Answered (N F : Type) : Type :=
  (List (Value F) × List (Partial F)) × List (List (Datum N F))

/-- The groups that were answered stand for the rows: those under one key are the rows with that
key. -/
structure Collected (rules : Arithmetic N F) (plan : AggregatePlan)
    (rows : List (List (Datum N F))) (items : List (Answered N F)) : Prop where
  exact : ∀ item ∈ items, ExactKey plan.groupBy (nodeKey rules item.1)
  wanted : ∀ item ∈ items,
    plan.groupBy = [] ∨ ∃ row ∈ rows, rowKey plan row = nodeKey rules item.1
  present : ∀ row ∈ rows, ∃ item ∈ items, nodeKey rules item.1 = rowKey plan row
  represents : ∀ item ∈ items, RepresentsAll rules plan.specs item.2 item.1.2
  among : ∀ item ∈ items, ∀ row ∈ item.2, row ∈ rows
  members : ∀ key, ExactKey plan.groupBy key →
    (items.filter fun item => sameDatums rules key (nodeKey rules item.1)).flatMap Prod.snd =
      rows.filter fun row => sameDatums rules key (rowKey plan row)

section Collecting

variable {asks : List Aggregate} {rows : List (List (Datum N F))}

theorem AggregatePlan.Typed.subset (typed : plan.Typed rows) {some : List (List (Datum N F))}
    (among : ∀ row ∈ some, row ∈ rows) : plan.Typed some :=
  ⟨fun row mem => typed.keys row (among row mem), typed.arguments.subset among⟩

theorem AggregatePlan.Typed.row (typed : plan.Typed rows) {row : List (Datum N F)}
    (mem : row ∈ rows) : TypedAll plan.specs [row] :=
  typed.arguments.subset fun _ isRow => mem_singleton.mp isRow ▸ mem

theorem Collected.append {first second : List (List (Datum N F))}
    {items others : List (Answered N F)} (collected : Collected rules plan first items)
    (collected' : Collected rules plan second others) :
    Collected rules plan (first ++ second) (items ++ others) where
  exact item mem := (mem_append.mp mem).elim (collected.exact item) (collected'.exact item)
  wanted item mem := by
    rcases mem_append.mp mem with inItems | inOthers
    · exact (collected.wanted item inItems).imp id fun ⟨row, isRow, isKey⟩ =>
        ⟨row, mem_append_left _ isRow, isKey⟩
    · exact (collected'.wanted item inOthers).imp id fun ⟨row, isRow, isKey⟩ =>
        ⟨row, mem_append_right _ isRow, isKey⟩
  present row mem := by
    rcases mem_append.mp mem with inFirst | inSecond
    · obtain ⟨item, isItem, isKey⟩ := collected.present row inFirst
      exact ⟨item, mem_append_left _ isItem, isKey⟩
    · obtain ⟨item, isItem, isKey⟩ := collected'.present row inSecond
      exact ⟨item, mem_append_right _ isItem, isKey⟩
  represents item mem :=
    (mem_append.mp mem).elim (collected.represents item) (collected'.represents item)
  among item mem row isRow := mem_append.mpr <|
    (mem_append.mp mem).imp (fun inItems => collected.among item inItems row isRow)
      fun inOthers => collected'.among item inOthers row isRow
  members key isKey := by
    rw [filter_append, flatMap_append, filter_append, collected.members key isKey,
      collected'.members key isKey]

/-- A region's group with the region's rows under its key. -/
def withRows (rules : Arithmetic N F) (plan : AggregatePlan) (region : List (List (Datum N F)))
    (pair : List (Value F) × List (Partial F)) : Answered N F :=
  (pair, region.filter fun row =>
    sameValues rules pair.1 (valueKey plan (row.map (Datum.toValue rules.toEngine))))

theorem regionKey_of_typed (typed : plan.Typed rows) {row : List (Datum N F)} (mem : row ∈ rows) :
    RegionKey rules plan.groupBy (valueKey plan (row.map (Datum.toValue rules.toEngine))) :=
  ⟨rowKey plan row, typed.keys row mem, (valueKey_map row).symm⟩

theorem nodeKey_valueKey (typed : plan.Typed rows) {row : List (Datum N F)} (mem : row ∈ rows)
    (partials : List (Partial F)) :
    nodeKey rules (valueKey plan (row.map (Datum.toValue rules.toEngine)), partials) =
      rowKey plan row := by
  rw [nodeKey, valueKey_map, toDatum_key (typed.keys row mem)]

/-- The fold of a region's rows, group by group. -/
theorem region_grouped (serves : ServesAll plan.specs asks) (typed : plan.Typed rows)
    {table : List (List (Value F) × List (Partial F))}
    (run : group (sameValues rules) (fun _ => none) (valueKey plan)
      (fun row held => pushAll rules row asks (held.getD (asks.map Aggregate.start)))
      (rows.map (List.map (Datum.toValue rules.toEngine))) = .ok table) :
    Grouped (sameValues rules) (valueKey plan ∘ List.map (Datum.toValue rules.toEngine))
      (fun _ members partials => TypedAll plan.specs members ∧
        RepresentsAll rules plan.specs members partials) rows table := by
  rw [group_map] at run
  refine grouped_of_group sameValues_iff (fun row mem => regionKey_of_typed typed mem) ?_ ?_ run
  · intro row mem partials pushed
    exact ⟨typed.row mem, pushAll_represents serves (typedAll_nil plan.specs) (typed.row mem)
      (startAll_represents serves) pushed⟩
  · intro row mem members partials after stands pushed
    exact ⟨stands.1.append (typed.row mem),
      pushAll_represents serves stands.1 (typed.row mem) stands.2 pushed⟩

section Region

variable {table : List (List (Value F) × List (Partial F))} (typed : plan.Typed rows)
  (grouped : Grouped (sameValues rules)
    (valueKey plan ∘ List.map (Datum.toValue rules.toEngine))
    (fun _ members partials => TypedAll plan.specs members ∧
      RepresentsAll rules plan.specs members partials) rows table)
include typed grouped

/-- The key of a region's group is that of a row, in the region and at the node. -/
theorem key_of_group {pair : List (Value F) × List (Partial F)} (mem : pair ∈ table) :
    ∃ row ∈ rows, nodeKey rules pair = rowKey plan row ∧
      pair.1 = (rowKey plan row).map (Datum.toValue rules.toEngine) := by
  obtain ⟨row, isRow, isKey⟩ := grouped.wanted pair.1 (mem_map_of_mem mem)
  refine ⟨row, isRow, ?_, isKey.symm.trans (valueKey_map row)⟩
  rw [← nodeKey_valueKey typed isRow pair.2]
  exact congrArg (fun key => nodeKey rules (key, pair.2)) isKey.symm

/-- The node compares the keys of a region as the region does. -/
theorem region_members {key : List (Datum N F)} (isKey : ExactKey plan.groupBy key) :
    ((table.map (withRows rules plan rows)).filter fun item =>
        sameDatums rules key (nodeKey rules item.1)).flatMap Prod.snd =
      rows.filter fun row => sameDatums rules key (rowKey plan row) := by
  have members := grouped.members sameValues_iff (fun row mem => regionKey_of_typed typed mem)
    ⟨key, isKey, rfl⟩
  have sameGroups : (table.filter fun pair => sameDatums rules key (nodeKey rules pair)) =
      table.filter fun pair =>
        sameValues rules (key.map (Datum.toValue rules.toEngine)) pair.1 := by
    refine filter_congr fun pair inTable => ?_
    obtain ⟨row, isRow, isNode, isPair⟩ := key_of_group typed grouped inTable
    rw [isNode, isPair, sameValues_toValue isKey (typed.keys row isRow)]
  have sameRows : (rows.filter fun row => sameDatums rules key (rowKey plan row)) =
      rows.filter fun row => sameValues rules (key.map (Datum.toValue rules.toEngine))
        (valueKey plan (row.map (Datum.toValue rules.toEngine))) := by
    refine filter_congr fun row isRow => ?_
    rw [valueKey_map, sameValues_toValue isKey (typed.keys row isRow)]
  rw [filter_map, flatMap_map, sameRows]
  exact (congrArg _ sameGroups).trans members

theorem grouped_collected : Collected rules plan rows (table.map (withRows rules plan rows)) := by
  refine ⟨?_, ?_, ?_, ?_, ?_, fun key isKey => region_members typed grouped isKey⟩
  · intro item mem
    obtain ⟨pair, inTable, rfl⟩ := mem_map.mp mem
    obtain ⟨row, isRow, isKey, _⟩ := key_of_group typed grouped inTable
    exact isKey ▸ typed.keys row isRow
  · intro item mem
    obtain ⟨pair, inTable, rfl⟩ := mem_map.mp mem
    obtain ⟨row, isRow, isKey, _⟩ := key_of_group typed grouped inTable
    exact .inr ⟨row, isRow, isKey.symm⟩
  · intro row isRow
    obtain ⟨pair, inTable, isPair⟩ := mem_map.mp (grouped.present row isRow)
    refine ⟨_, mem_map_of_mem inTable, ?_⟩
    rw [← nodeKey_valueKey typed isRow pair.2]
    exact congrArg (fun key => nodeKey rules (key, pair.2)) isPair
  · intro item mem
    obtain ⟨pair, inTable, rfl⟩ := mem_map.mp mem
    exact (grouped.holds pair inTable).2
  · intro item mem row isRow
    obtain ⟨pair, inTable, rfl⟩ := mem_map.mp mem
    exact mem_of_mem_filter isRow

end Region

theorem region_collected (serves : ServesAll plan.specs asks) (typed : plan.Typed rows)
    {table : List (List (Value F) × List (Partial F))}
    (answered : regionGroups rules plan asks
      (rows.map (List.map (Datum.toValue rules.toEngine))) = .ok table) :
    ∃ items, items.map Prod.fst = table ∧ Collected rules plan rows items := by
  unfold regionGroups at answered
  cases run : group (sameValues rules) (fun _ => none) (valueKey plan)
      (fun row held => pushAll rules row asks (held.getD (asks.map Aggregate.start)))
      (rows.map (List.map (Datum.toValue rules.toEngine))) with
  | error what =>
    rw [run] at answered
    cases answered
  | ok folded =>
    rw [run] at answered
    have grouped := region_grouped serves typed run
    replace answered := Except.ok.inj answered
    dsimp only at answered
    split at answered
    case isFalse =>
      subst answered
      refine ⟨_, ?_, grouped_collected typed grouped⟩
      rw [map_map]
      exact map_id' folded
    case isTrue isEmpty =>
      simp only [Bool.and_eq_true, List.isEmpty_iff] at isEmpty
      obtain ⟨ungrouped, rfl⟩ := isEmpty
      have noRows : rows = [] := eq_nil_iff_forall_not_mem.mpr fun row mem =>
        not_mem_nil (grouped.present row mem)
      subst noRows answered
      refine ⟨[(([], asks.map Aggregate.start), [])], rfl, ?_, ?_, nofun, ?_, ?_, ?_⟩
      · intro item mem
        rw [mem_singleton.mp mem, ungrouped]
        exact .nil
      · exact fun item _ => .inl ungrouped
      · intro item mem
        rw [mem_singleton.mp mem]
        exact startAll_represents serves
      · intro item mem row isRow
        rw [mem_singleton.mp mem] at isRow
        exact isRow
      · intro key _
        rw [filter_nil, flatMap_eq_nil_iff]
        intro item mem
        rw [mem_singleton.mp (mem_of_mem_filter mem)]

theorem regions_collected (serves : ServesAll plan.specs asks) :
    ∀ (regions : List (List (List (Datum N F))))
      {answers : List (List (List (Value F) × List (Partial F)))},
      plan.Typed regions.flatten →
      (regions.map (List.map (List.map (Datum.toValue rules.toEngine)))).mapM
        (regionGroups rules plan asks) = .ok answers →
      ∃ items, items.map Prod.fst = answers.flatten ∧
        Collected rules plan regions.flatten items := by
  intro regions
  induction regions with
  | nil =>
    intro answers _ answered
    cases answered
    exact ⟨[], rfl, nofun, nofun, nofun, nofun, nofun, fun _ _ => rfl⟩
  | cons region regions ih =>
    intro answers typed answered
    rw [flatten_cons] at typed ⊢
    rw [map_cons, mapM_cons] at answered
    cases first : regionGroups rules plan asks
        (region.map (List.map (Datum.toValue rules.toEngine))) with
    | error what =>
      rw [first] at answered
      cases answered
    | ok table =>
      cases others : (regions.map (List.map (List.map (Datum.toValue rules.toEngine)))).mapM
          (regionGroups rules plan asks) with
      | error what =>
        rw [first, others] at answered
        cases answered
      | ok rest =>
        rw [first, others] at answered
        cases answered
        obtain ⟨items, rfl, collected⟩ := region_collected serves
          (typed.subset fun row mem => mem_append_left _ mem) first
        obtain ⟨later, isLater, collected'⟩ := ih
          (typed.subset fun row mem => mem_append_right _ mem) others
        exact ⟨items ++ later, by rw [map_append, isLater, flatten_cons],
          collected.append collected'⟩

end Collecting

/-! ## The two answers -/

/-- The key of a group of the answer: of a row, or of the one group of an ungrouped plan. -/
def Wanted (plan : AggregatePlan) (rows : List (List (Datum N F))) (key : List (Datum N F)) :
    Prop :=
  plan.groupBy = [] ∧ key = [] ∨ ∃ row ∈ rows, rowKey plan row = key

/-- The groups of the rows, each with what holds of the rows under its key. -/
structure GroupsOf {β : Type} (rules : Arithmetic N F) (plan : AggregatePlan)
    (rows : List (List (Datum N F))) (Holds : List (List (Datum N F)) → β → Prop)
    (table : List (List (Datum N F) × β)) : Prop where
  distinct : (table.map Prod.fst).Nodup
  keys : ∀ key, key ∈ table.map Prod.fst ↔ Wanted plan rows key
  holds : ∀ pair ∈ table,
    Holds (rows.filter fun row => sameDatums rules pair.1 (rowKey plan row)) pair.2

/-- The row engine answers however many rows there are, up to its limit of groups. -/
def AggregatePlan.Fits (plan : AggregatePlan) (rows : List (List (Datum N F))) : Prop :=
  ∀ keys : List (List (Datum N F)), keys.Nodup →
    (∀ key ∈ keys, ∃ row ∈ rows, rowKey plan row = key) → keys.length ≤ groupLimit

theorem AggregatePlan.fits_of_length {rows : List (List (Datum N F))}
    (few : rows.length ≤ groupLimit) : plan.Fits rows := by
  intro keys distinct among
  have subset : keys ⊆ rows.map (rowKey plan) := fun key mem => by
    obtain ⟨row, isRow, isKey⟩ := among key mem
    exact mem_map.mpr ⟨row, isRow, isKey⟩
  have bounded := (distinct.subperm subset).length_le
  rw [length_map] at bounded
  exact bounded.trans few

section Answers

variable {asks : List Aggregate} {rows : List (List (Datum N F))}

theorem ExactKey.eq_nil {key : List (Datum N F)} (isKey : ExactKey plan.groupBy key)
    (ungrouped : plan.groupBy = []) : key = [] := by
  rw [ungrouped] at isKey
  cases isKey
  rfl

/-- The one group of an ungrouped plan over no rows. -/
theorem groupsOf_made_up {β : Type} {Holds : List (List (Datum N F)) → β → Prop} {value : β}
    (ungrouped : plan.groupBy = []) (holds : Holds [] value) :
    GroupsOf rules plan [] Holds [([], value)] := by
  refine ⟨nodup_singleton _, fun key => ?_, fun pair mem => ?_⟩
  · simp [Wanted, ungrouped]
  · rw [mem_singleton.mp mem]
    exact holds

/-- The answer made of a table of groups, which for an ungrouped plan over no rows is made up. -/
theorem groupsOf_table {β γ : Type} {Holds : List (List (Datum N F)) → γ → Prop}
    {table : List (List (Datum N F) × β)} (finish : β → γ) {nothing : γ}
    (distinct : (table.map Prod.fst).Nodup)
    (exact : ∀ key ∈ table.map Prod.fst, ExactKey plan.groupBy key)
    (wanted : ∀ key ∈ table.map Prod.fst, Wanted plan rows key)
    (present : ∀ row ∈ rows, rowKey plan row ∈ table.map Prod.fst)
    (holds : ∀ pair ∈ table,
      Holds (rows.filter fun row => sameDatums rules pair.1 (rowKey plan row)) (finish pair.2))
    (made : Holds [] nothing) :
    GroupsOf rules plan rows Holds (if table.isEmpty && plan.groupBy.isEmpty then [([], nothing)]
      else table.map fun found => (found.1, finish found.2)) := by
  split
  case isTrue isEmpty =>
    simp only [Bool.and_eq_true, List.isEmpty_iff] at isEmpty
    obtain ⟨rfl, ungrouped⟩ := isEmpty
    have noRows : rows = [] := eq_nil_iff_forall_not_mem.mpr fun row mem =>
      not_mem_nil (present row mem)
    subst noRows
    exact groupsOf_made_up ungrouped made
  case isFalse notEmpty =>
    have keys : (table.map fun found => (found.1, finish found.2)).map Prod.fst =
        table.map Prod.fst := by
      rw [map_map]
      rfl
    refine ⟨keys ▸ distinct, fun key => ?_, fun pair mem => ?_⟩
    · rw [keys]
      refine ⟨wanted key, ?_⟩
      rintro (⟨ungrouped, rfl⟩ | ⟨row, isRow, rfl⟩)
      · obtain ⟨pair, inTable⟩ : ∃ pair, pair ∈ table := exists_mem_of_ne_nil table
          fun isNil => notEmpty (by rw [isNil, ungrouped]; rfl)
        have inKeys := mem_map_of_mem (f := Prod.fst) inTable
        rwa [(exact pair.1 inKeys).eq_nil ungrouped] at inKeys
      · exact present row isRow
    · obtain ⟨found, inTable, rfl⟩ := mem_map.mp mem
      exact holds found inTable

/-- What the accumulators of a group of the row engine stand for. -/
def RowStands (rules : Arithmetic N F) (specs : List AggregateSpec) (_ : List (Datum N F))
    (members : List (List (Datum N F))) (states : List (RowState N F)) : Prop :=
  TypedAll specs members ∧ RowRepresentsAll rules specs members states

/-- Within its limit of groups the row engine folds the rows, group by group. -/
theorem row_grouped (rules : Arithmetic N F) (serves : ServesAll plan.specs asks)
    (typed : plan.Typed rows) (fits : plan.Fits rows) :
    ∃ table, rowGroups rules plan rows = .ok table ∧
      Grouped (sameDatums rules) (rowKey plan) (RowStands rules plan.specs) rows table := by
  have exact (left right : List (Datum N F)) (leftKey : ExactKey plan.groupBy left)
      (rightKey : ExactKey plan.groupBy right) := sameDatums_iff rules leftKey rightKey
  have pushes {row : List (Datum N F)} (mem : row ∈ rows) {members : List (List (Datum N F))}
      {states : List (RowState N F)} (stands : RowStands rules plan.specs [] members states) :
      ∃ after, rowPushAll rules row plan.specs states = .ok after ∧
        RowStands rules plan.specs [] (members ++ [row]) after := by
    obtain ⟨after, pushed, isAfter⟩ := rowPushAll_represents serves stands.1 (typed.row mem)
      stands.2
    exact ⟨after, pushed, stands.1.append (typed.row mem), isAfter⟩
  have starts : RowStands rules plan.specs [] [] (plan.specs.map (RowState.new rules)) :=
    ⟨typedAll_nil plan.specs, newAll_represents rules serves⟩
  have first : ∀ row ∈ rows, ∀ states,
      rowPushAll rules row plan.specs (plan.specs.map (RowState.new rules)) = .ok states →
      RowStands rules plan.specs (rowKey plan row) [row] states := by
    intro row mem states pushed
    obtain ⟨after, isAfter, stands⟩ := pushes mem starts
    cases isAfter.symm.trans pushed
    exact stands
  have next : ∀ row ∈ rows, ∀ members states after,
      RowStands rules plan.specs (rowKey plan row) members states →
      rowPushAll rules row plan.specs states = .ok after →
      RowStands rules plan.specs (rowKey plan row) (members ++ [row]) after := by
    intro row mem members states after stands pushed
    obtain ⟨pushedTo, isPushed, standsAfter⟩ := pushes mem stands
    cases isPushed.symm.trans pushed
    exact standsAfter
  have room (keys : List (List (Datum N F))) (distinct : keys.Nodup)
      (among : ∀ key ∈ keys, ∃ row ∈ rows, rowKey plan row = key) (count : Nat)
      (less : count < keys.length) :
      (if count = groupLimit then some tooManyGroups else none) = none := by
    have bounded := fits keys distinct among
    exact if_neg (by omega)
  obtain ⟨table, run⟩ : ∃ table, rowGroups rules plan rows = .ok table :=
    group_exists exact typed.keys first next
    (fun row mem => (pushes mem starts).imp fun _ pushed => pushed.1)
    (fun row mem members states stands => (pushes mem stands).imp fun _ pushed => pushed.1) room
  exact ⟨table, run, grouped_of_group exact typed.keys first next run⟩

theorem rows_grouped (rules : Arithmetic N F) (serves : ServesAll plan.specs asks)
    (typed : plan.Typed rows) (fits : plan.Fits rows) :
    ∃ result, rowRows rules plan rows = .ok result ∧
      GroupsOf rules plan rows (fun members values => ∃ states,
        RowRepresentsAll rules plan.specs members states ∧
          values = states.map (RowState.finish rules)) result := by
  obtain ⟨table, run, grouped⟩ := row_grouped rules serves typed fits
  refine ⟨_, by rw [rowRows, run]; rfl, ?_⟩
  dsimp only
  rw [apply_ite (List.map _)]
  refine groupsOf_table (List.map (RowState.finish rules)) grouped.distinct
    (fun _ mem => grouped.keyed typed.keys mem) (fun key mem => .inr (grouped.wanted key mem))
    grouped.present (fun pair mem => ?_) ⟨_, newAll_represents rules serves, rfl⟩
  exact ⟨pair.2, (grouped.holds pair mem).2, rfl⟩

/-- What the merged partials of a group stand for: the rows the regions folded them from. -/
def NodeStands (rules : Arithmetic N F) (specs : List AggregateSpec) (_ : List (Datum N F))
    (members : List (Answered N F)) (partials : List (Partial F)) : Prop :=
  TypedAll specs (members.flatMap Prod.snd) ∧
    RepresentsAll rules specs (members.flatMap Prod.snd) partials

theorem merged_grouped (serves : ServesAll plan.specs asks) (typed : plan.Typed rows)
    {items : List (Answered N F)} (collected : Collected rules plan rows items)
    {merged : List (List (Datum N F) × List (Partial F))}
    (run : group (sameDatums rules) (fun _ => none) (nodeKey rules)
      (fun answer held =>
        match held with
        | none => .ok answer.2
        | some running => combineAll rules running answer.2) (items.map Prod.fst) = .ok merged) :
    Grouped (sameDatums rules) (nodeKey rules ∘ Prod.fst) (NodeStands rules plan.specs) items
      merged := by
  rw [group_map] at run
  have itemTyped {item : Answered N F} (mem : item ∈ items) : TypedAll plan.specs item.2 :=
    typed.arguments.subset (collected.among item mem)
  refine grouped_of_group (fun left right => sameDatums_iff rules) collected.exact ?_ ?_ run
  · intro item mem partials isFirst
    cases isFirst
    unfold NodeStands
    rw [flatMap_singleton]
    exact ⟨itemTyped mem, collected.represents item mem⟩
  · intro item mem members partials after stands isCombined
    unfold NodeStands
    rw [flatMap_append, flatMap_singleton]
    exact ⟨stands.1.append (itemTyped mem),
      combineAll_represents serves stands.1 (itemTyped mem) stands.2
        (collected.represents item mem) isCombined⟩

/-- What the routed plan answers for a group: its merged partials, or the row made up of nothing. -/
def Finished (rules : Arithmetic N F) (plan : AggregatePlan) (asks : List Aggregate)
    (members : List (List (Datum N F))) (values : List (Datum N F)) : Prop :=
  (∃ gathered states, gathered.Perm members ∧ RepresentsAll rules plan.specs gathered states ∧
    values = finishAll rules plan.specs (asks.map fun aggregate => [aggregate]) states) ∨
  members = [] ∧ values = plan.specs.map fun spec => valueOf rules spec.func [none]

theorem columnar_grouped (serves : ServesAll plan.specs asks)
    {regions : List (List (List (Datum N F)))} (divided : regions.flatten.Perm rows)
    (typed : plan.Typed rows) {merged : List (List (Datum N F) × List (Partial F))}
    (isMerged : mergedGroups rules plan asks
      (regions.map (List.map (List.map (Datum.toValue rules.toEngine)))) = .ok merged) :
    GroupsOf rules plan rows (Finished rules plan asks)
      (if merged.isEmpty && plan.groupBy.isEmpty then
        [([], plan.specs.map fun spec => valueOf rules spec.func [none])]
      else merged.map fun found => (found.1,
        finishAll rules plan.specs (asks.map fun aggregate => [aggregate]) found.2)) := by
  have regionsTyped : plan.Typed regions.flatten :=
    typed.subset fun row mem => divided.mem_iff.mp mem
  unfold mergedGroups at isMerged
  split at isMerged
  case h_1 => cases isMerged
  case h_2 answers answered =>
  obtain ⟨items, isItems, collected⟩ := regions_collected serves regions regionsTyped answered
  rw [← isItems] at isMerged
  have grouped := merged_grouped serves regionsTyped collected isMerged
  have exact {key : List (Datum N F)} (mem : key ∈ merged.map Prod.fst) :
      ExactKey plan.groupBy key := grouped.keyed collected.exact mem
  refine groupsOf_table (finishAll rules plan.specs (asks.map fun aggregate => [aggregate]))
    grouped.distinct (fun _ mem => exact mem) ?_ ?_ ?_ (.inr ⟨rfl, rfl⟩)
  · intro key mem
    obtain ⟨item, isItem, isKey⟩ := grouped.wanted key mem
    rcases collected.wanted item isItem with ungrouped | ⟨row, isRow, isRowKey⟩
    · exact .inl ⟨ungrouped, (exact mem).eq_nil ungrouped⟩
    · exact .inr ⟨row, divided.mem_iff.mp isRow, isRowKey.trans isKey⟩
  · intro row mem
    obtain ⟨item, isItem, isKey⟩ := collected.present row (divided.mem_iff.mpr mem)
    rw [← isKey]
    exact grouped.present item isItem
  · intro found inMerged
    refine .inl ⟨_, found.2, ?_, (grouped.holds found inMerged).2, rfl⟩
    have members := collected.members found.1 (exact (mem_map_of_mem inMerged))
    exact (Perm.of_eq members).trans (divided.filter _)

end Answers

/-- The number of some bytes of a two's complement, least significant first. -/
def readLittleEndian (bytes : List Nat) : Int :=
  let number : Int := bytes.foldr (fun byte above => (byte : Int) + 256 * above) 0
  if number < 2 ^ (8 * bytes.length - 1) then number else number - 2 ^ (8 * bytes.length)

/-- Whole numbers for `numeric`, for tables without a float column. -/
def wholeNumbers : Arithmetic Int Unit where
  numericCmp := compare
  numericText _ := []
  doubleCmp _ _ := .eq
  realCmp _ _ := .eq
  readNumeric _ := none
  readDouble _ := none
  unlikeCmp _ _ := .eq
  ofInt := id
  add := (· + ·)
  mean sum seen := some (sum / seen)
  divide _ _ := ()
  divideDouble _ _ := ()
  addDouble _ _ := ()
  zeroDouble := ()
  readInterval bytes :=
    (readLittleEndian (bytes.take 4), readLittleEndian ((bytes.drop 4).take 4),
      readLittleEndian (bytes.drop 8))
  add_ofInt _ _ := rfl

/-- `SELECT a, sum(b), count(*) … GROUP BY a`. -/
def sumPlan : AggregatePlan where
  groupBy := [(0, .int8)]
  specs := [⟨.sum, some 1, .int8⟩, ⟨.count, none, .int8⟩]

/-- Four rows of three groups: one group is in both regions, and one is that of the NULL. -/
def sumRows : List (List (Datum Int Unit)) :=
  [[.int8 7, .int8 5], [.null, .int8 1], [.int8 7, .int8 4], [.int8 8, .null]]

def sumRegions : List (List (List (Datum Int Unit))) :=
  [[[.int8 8, .null], [.int8 7, .int8 4]], [], [[.int8 7, .int8 5], [.null, .int8 1]]]

end Esker.Sql
