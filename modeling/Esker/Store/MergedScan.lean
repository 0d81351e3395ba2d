import Esker.SortedMap

/-!
Contract: a fragment over all runs of a region (`esker-columnar/src/scan.rs`, `scan/merged.rs`,
`scan/visible.rs`).

Owns: widening, the merge of the runs, which versions are visible, what the sink keeps of them, and
when that is the answer over the logical table.

Does not own: decoding, pruning (which visibility switches off), statistics, and what filters and
accumulators compute.
-/

namespace Esker.Store.MergedScan

open List

variable {T V K P G A : Type} [LinearOrder K] [LinearOrder G]

/-- A column of a schema: its name and its type. -/
structure Column (T : Type) where
  name : String
  type : T
deriving DecidableEq

structure Run (T V : Type) where
  schema : List (Column T)
  stripes : List (List (List V))

structure Visibility (V K : Type) where
  key : List V → K
  commitTs : List V → Int
  deleted : List V → Bool
  inRange : K → Bool
  readTs : Int

inductive Output (P G A : Type) where
  | rows (limit : Option Nat)
  /-- `whole` is the key of the one group where nothing is grouped by. -/
  | aggregates (groupBy : P → G) (whole : Option G) (start : A) (push : A → P → Except String A)

structure Fragment (V P G A : Type) where
  project : List V → P
  filter : P → Bool
  output : Output P G A

inductive FragmentOutput (P G A : Type) [LinearOrder G] where
  | rows (rows : List P)
  | groups (groups : SortedMap G A)

/-- Narrower rows are padded with what their columns are missing. A column is found by its name. -/
def widen [Inhabited V] (target : List (Column T)) (missing : List V) (schema : List (Column T))
    (row : List V) : List V :=
  target.zipIdx.map fun column =>
    match schema.findIdx? (·.name == column.1.name) with
    | some index => row[index]?.getD default
    | none => missing[column.2]?.getD default

/-! ## The sink -/

structure Sink (P G A : Type) [LinearOrder G] where
  rows : List P
  groups : SortedMap G A
  matched : Nat

namespace Sink

def empty : Sink P G A := ⟨[], .empty, 0⟩

def reached (sink : Sink P G A) (fragment : Fragment V P G A) : Bool :=
  match fragment.output with
  | .rows (some limit) => decide (limit ≤ sink.matched)
  | _ => false

variable (fragment : Fragment V P G A)

/-- Offers one visible row; `false` when the limit is reached. -/
def push (sink : Sink P G A) (row : P) : Except String (Sink P G A × Bool) :=
  if fragment.filter row then
    match fragment.output with
    | .rows limit =>
      let pushed := { sink with rows := sink.rows ++ [row], matched := sink.matched + 1 }
      .ok (pushed, limit.all fun limit => decide (sink.matched + 1 < limit))
    | .aggregates groupBy _ start accumulate =>
      match accumulate ((sink.groups.lookup (groupBy row)).getD start) row with
      | .error error => .error error
      | .ok state =>
        .ok (⟨sink.rows, sink.groups.insert (groupBy row) state, sink.matched + 1⟩, true)
  else .ok (sink, true)

def finish (sink : Sink P G A) : FragmentOutput P G A :=
  match fragment.output with
  | .rows _ => .rows sink.rows
  | .aggregates _ (some whole) start _ =>
    .groups (if sink.groups.entries = [] then sink.groups.insert whole start else sink.groups)
  | .aggregates _ none _ _ => .groups sink.groups

end Sink

/-! ## The scan -/

/-- Rows in the order of the runs: which key is settled, and what the sink then has. -/
def scan (view : Visibility V K) (fragment : Fragment V P G A) (settled : Option K)
    (sink : Sink P G A) : List (List V) → Except String (Option K × Sink P G A)
  | [] => .ok (settled, sink)
  | row :: rest =>
    if !view.inRange (view.key row) ∨ settled = some (view.key row) ∨
        view.readTs < view.commitTs row then
      scan view fragment settled sink rest
    else if view.deleted row then scan view fragment (some (view.key row)) sink rest
    else
      match sink.push fragment (fragment.project row) with
      | .error error => .error error
      | .ok (pushed, true) => scan view fragment (some (view.key row)) pushed rest
      | .ok (pushed, false) => .ok (some (view.key row), pushed)

/-- `evaluate_with`: a stripe is skipped once the limit is reached. -/
def scanStripes (view : Visibility V K) (fragment : Fragment V P G A) (settled : Option K)
    (sink : Sink P G A) : List (List (List V)) → Except String (Sink P G A)
  | [] => .ok sink
  | stripe :: rest =>
    if sink.reached fragment then scanStripes view fragment settled sink rest
    else
      match scan view fragment settled sink stripe with
      | .error error => .error error
      | .ok (settled, sink) => scanStripes view fragment settled sink rest

/-- The order of the runs: keys ascending, then newest first. -/
def Visibility.Before (view : Visibility V K) (left right : List V) : Prop :=
  view.key left < view.key right ∨
    view.key left = view.key right ∧ view.commitTs right ≤ view.commitTs left

instance (view : Visibility V K) (left right : List V) : Decidable (view.Before left right) :=
  inferInstanceAs (Decidable (_ ∨ _))

/-- The first of the smallest rows that the cursors show, and the cursors after it. -/
def next (view : Visibility V K) : List (List (List V)) → Option (List V × List (List (List V)))
  | [] => none
  | [] :: rest => (next view rest).map fun best => (best.1, [] :: best.2)
  | (row :: more) :: rest =>
    match next view rest with
    | none => some (row, more :: rest)
    | some (other, others) =>
      if view.Before row other then some (row, more :: rest)
      else some (other, (row :: more) :: others)

variable {view : Visibility V K} {cursors rest : List (List (List V))} {settled : Option K}

theorem next_eq_some {row : List V} (found : next view cursors = some (row, rest)) :
    (row :: rest.flatten).Perm cursors.flatten := by
  induction cursors generalizing row rest with
  | nil => cases found
  | cons cursor others ih =>
    cases cursor with
    | nil =>
      obtain ⟨⟨best, left⟩, isBest, same⟩ := Option.map_eq_some_iff.mp found
      cases same
      have perm := ih isBest
      exact perm
    | cons first more =>
      rw [next] at found
      split at found
      · cases found
        exact .refl _
      next other left isBest =>
      split_ifs at found
      · cases found
        exact .refl _
      cases found
      have perm := (ih isBest).append_left (first :: more)
      exact perm_middle.symm.trans perm

theorem flatten_of_next_none (exhausted : next view cursors = none) : cursors.flatten = [] := by
  induction cursors with
  | nil => rfl
  | cons cursor others ih =>
    cases cursor with
    | nil => exact ih (Option.map_eq_none_iff.mp exhausted)
    | cons first more =>
      rw [next] at exhausted
      split at exhausted
      · cases exhausted
      · split_ifs at exhausted

/-- The rows of the cursors in the order the merge reads them. -/
def stream (view : Visibility V K) (cursors : List (List (List V))) : List (List V) :=
  match _found : next view cursors with
  | none => []
  | some (row, rest) => row :: stream view rest
termination_by cursors.flatten.length
decreasing_by
  have same := (next_eq_some _found).length_eq
  rw [length_cons] at same
  omega

section Evaluate

variable [Inhabited V] (target : List (Column T)) (missing : List V) (view : Visibility V K)
  (fragment : Fragment V P G A)

def Run.rows (run : Run T V) : List (List V) :=
  run.stripes.flatten.map (widen target missing run.schema)

/-- `merged::evaluate`. -/
def merged (runs : List (Run T V)) : Except String (FragmentOutput P G A) :=
  if runs.any fun run => decide (target.length < run.schema.length) then
    .error "it was written under a newer schema"
  else
    (scan view fragment none .empty (stream view (runs.map (·.rows target missing)))).map
      fun scanned => scanned.2.finish fragment

/-- `evaluate_merged`. One run of the target schema is read as it stands. -/
def evaluateMerged [DecidableEq T] (runs : List (Run T V)) : Except String (FragmentOutput P G A) :=
  match runs with
  | [] => .error "a region with no runs"
  | [only] =>
    if only.schema = target then
      (scanStripes view fragment none .empty only.stripes).map (Sink.finish fragment)
    else merged target missing view fragment [only]
  | runs => merged target missing view fragment runs

end Evaluate

/-! ## What is asked for -/

/-- For each key in the range, its newest version that the read sees, unless that is a delete. -/
structure LogicalTable (view : Visibility V K) (rows table : List (List V)) : Prop where
  sorted : table.Pairwise fun left right => view.key left < view.key right
  mem : ∀ row, row ∈ table ↔ row ∈ rows ∧ view.inRange (view.key row) ∧
    view.commitTs row ≤ view.readTs ∧ view.deleted row = false ∧
    ∀ other ∈ rows, view.key other = view.key row → view.commitTs other ≤ view.readTs →
      view.commitTs other ≤ view.commitTs row

namespace Fragment

variable (fragment : Fragment V P G A)

def matching (table : List (List V)) : List P :=
  (table.map fragment.project).filter fragment.filter

def gather (groupBy : P → G) (start : A) (accumulate : A → P → Except String A)
    (groups : SortedMap G A) (row : P) : Except String (SortedMap G A) :=
  (accumulate ((groups.lookup (groupBy row)).getD start) row).map (groups.insert (groupBy row))

def answer (table : List (List V)) : Except String (FragmentOutput P G A) :=
  match fragment.output with
  | .rows limit => .ok (.rows (limit.elim (fragment.matching table) (fragment.matching table).take))
  | .aggregates groupBy _ start accumulate =>
    ((fragment.matching table).foldlM (gather groupBy start accumulate) .empty).map
      fun groups => Sink.finish fragment ⟨[], groups, 0⟩

end Fragment

/-! ## The stream -/

section Stream

variable {view : Visibility V K}

theorem Visibility.Before.trans {first second third : List V} (left : view.Before first second)
    (right : view.Before second third) : view.Before first third := by
  unfold Visibility.Before at *
  grind

theorem Visibility.Before.total (left right : List V) :
    view.Before left right ∨ view.Before right left := by
  unfold Visibility.Before
  grind

theorem next_sorted {row : List V} (sorted : ∀ cursor ∈ cursors, cursor.Pairwise view.Before)
    (found : next view cursors = some (row, rest)) :
    (∀ other ∈ rest.flatten, view.Before row other) ∧
      ∀ cursor ∈ rest, cursor.Pairwise view.Before := by
  induction cursors generalizing row rest with
  | nil => cases found
  | cons cursor others ih =>
    rw [forall_mem_cons] at sorted
    cases cursor with
    | nil =>
      obtain ⟨⟨best, left⟩, isBest, same⟩ := Option.map_eq_some_iff.mp found
      cases same
      have ⟨least, kept⟩ := ih sorted.2 isBest
      exact ⟨least, forall_mem_cons.mpr ⟨.nil, kept⟩⟩
    | cons first more =>
      have ⟨firstLeast, moreSorted⟩ := pairwise_cons.mp sorted.1
      rw [next] at found
      split at found
      next exhausted =>
        cases found
        refine ⟨?_, forall_mem_cons.mpr ⟨moreSorted, sorted.2⟩⟩
        rw [flatten_cons, flatten_of_next_none exhausted, append_nil]
        exact firstLeast
      next other left isBest =>
      have ⟨least, kept⟩ := ih sorted.2 isBest
      split_ifs at found with isFirst
      · cases found
        refine ⟨?_, forall_mem_cons.mpr ⟨moreSorted, sorted.2⟩⟩
        rw [flatten_cons]
        intro held member
        rcases mem_append.mp member with inMore | inOthers
        · exact firstLeast held inMore
        rcases mem_cons.mp ((next_eq_some isBest).mem_iff.mpr inOthers) with rfl | inLeft
        · exact isFirst
        · exact isFirst.trans (least held inLeft)
      · cases found
        have before := (Visibility.Before.total first row).resolve_left isFirst
        refine ⟨?_, forall_mem_cons.mpr ⟨sorted.1, kept⟩⟩
        rw [flatten_cons]
        intro held member
        rcases mem_append.mp member with inFirst | inLeft
        · rcases mem_cons.mp inFirst with rfl | inMore
          · exact before
          · exact before.trans (firstLeast held inMore)
        · exact least held inLeft

theorem stream_perm (cursors : List (List (List V))) :
    (stream view cursors).Perm cursors.flatten := by
  fun_induction stream view cursors with
  | case1 cursors exhausted => rw [flatten_of_next_none exhausted]
  | case2 cursors row rest found ih => exact (ih.cons row).trans (next_eq_some found)

theorem stream_sorted (sorted : ∀ cursor ∈ cursors, cursor.Pairwise view.Before) :
    (stream view cursors).Pairwise view.Before := by
  fun_induction stream view cursors with
  | case1 => exact .nil
  | case2 cursors row rest found ih =>
    have ⟨least, kept⟩ := next_sorted sorted found
    refine pairwise_cons.mpr ⟨?_, ih kept⟩
    exact fun other member => least other ((stream_perm rest).mem_iff.mp member)

/-! ## The visible rows -/

def resolve (view : Visibility V K) (settled : Option K) : List (List V) → List (List V)
  | [] => []
  | row :: rest =>
    if !view.inRange (view.key row) ∨ settled = some (view.key row) ∨
        view.readTs < view.commitTs row then
      resolve view settled rest
    else if view.deleted row then resolve view (some (view.key row)) rest
    else row :: resolve view (some (view.key row)) rest

/-- Versions of one key and time are copies of one version. -/
def Consistent (view : Visibility V K) (rows : List (List V)) : Prop :=
  ∀ left ∈ rows, ∀ right ∈ rows, view.key left = view.key right →
    view.commitTs left = view.commitTs right → left = right

/-- In a sorted stream, the rows let through are those that are newest among what is seen of their
key, where that key is not settled yet. -/
theorem mem_resolve {rows : List (List V)} {row : List V} (sorted : rows.Pairwise view.Before)
    (later : ∀ key, settled = some key → ∀ row ∈ rows, key ≤ view.key row)
    (consistent : Consistent view rows) :
    row ∈ resolve view settled rows ↔ row ∈ rows ∧ settled ≠ some (view.key row) ∧
      view.inRange (view.key row) ∧ view.commitTs row ≤ view.readTs ∧ view.deleted row = false ∧
      ∀ other ∈ rows, view.key other = view.key row → view.commitTs other ≤ view.readTs →
        view.commitTs other ≤ view.commitTs row := by
  induction rows generalizing settled with
  | nil => simp [resolve]
  | cons first rest ih =>
    have ⟨least, restSorted⟩ := pairwise_cons.mp sorted
    have same : row ∈ rest → view.key first = view.key row →
        view.commitTs first = view.commitTs row → first = row :=
      fun isRest => consistent first (.head _) row (.tail _ isRest)
    have next (other : List V) (isRest : other ∈ rest) : view.key first ≤ view.key other :=
      (least other isRest).elim le_of_lt fun same => le_of_eq same.1
    have older (other : List V) (isRest : other ∈ rest)
        (sameKey : view.key other = view.key first) : view.commitTs other ≤ view.commitTs first :=
      (least other isRest).elim (fun less => absurd sameKey (ne_of_gt less)) (·.2)
    have atFirst (key : K) (isKey : settled = some key) : key ≤ view.key first :=
      later key isKey first (.head _)
    have keeps := @ih settled restSorted
      (fun key isKey row isRest => later key isKey row (.tail _ isRest))
      (fun left isLeft right isRight => consistent left (.tail _ isLeft) right (.tail _ isRight))
    have settles := @ih (some (view.key first)) restSorted
      (fun key isKey row isRest => Option.some.inj isKey ▸ next row isRest)
      (fun left isLeft right isRight => consistent left (.tail _ isLeft) right (.tail _ isRight))
    clear ih sorted later consistent least restSorted
    rw [resolve]
    simp only [mem_cons, forall_eq_or_imp]
    split_ifs with hidden isDeleted
    · rw [keeps]
      grind
    · rw [settles]
      grind
    · rw [mem_cons, settles]
      grind

theorem resolve_sorted {rows : List (List V)} (sorted : rows.Pairwise view.Before)
    (later : ∀ key, settled = some key → ∀ row ∈ rows, key ≤ view.key row) :
    (resolve view settled rows).Pairwise (fun left right => view.key left < view.key right) ∧
      ∀ row ∈ resolve view settled rows, row ∈ rows ∧
        ∀ key, settled = some key → key < view.key row := by
  induction rows generalizing settled with
  | nil => exact ⟨.nil, nofun⟩
  | cons first rest ih =>
    have ⟨least, restSorted⟩ := pairwise_cons.mp sorted
    have next (row : List V) (isRest : row ∈ rest) : view.key first ≤ view.key row :=
      (least row isRest).elim le_of_lt fun same => le_of_eq same.1
    have ⟨kept, inside⟩ := @ih settled restSorted
      fun key isKey row isRest => later key isKey row (.tail _ isRest)
    have ⟨keptNext, insideNext⟩ := @ih (some (view.key first)) restSorted
      fun key isKey row isRest => Option.some.inj isKey ▸ next row isRest
    rw [resolve]
    split_ifs with hidden isDeleted
    · exact ⟨kept, fun row member => (inside row member).imp_left (.tail _)⟩
    · refine ⟨keptNext, fun row member => ?_⟩
      have := insideNext row member
      grind
    refine ⟨pairwise_cons.mpr ⟨fun row member => (insideNext row member).2 _ rfl, keptNext⟩, ?_⟩
    intro row member
    have := fun isRest => insideNext row isRest
    grind

theorem resolve_eq_table {rows sortedRows table : List (List V)} (perm : sortedRows.Perm rows)
    (sorted : sortedRows.Pairwise view.Before) (consistent : Consistent view rows)
    (logical : LogicalTable view rows table) : resolve view none sortedRows = table := by
  have unsettled (key : K) (isKey : none = some key) : ∀ row ∈ sortedRows, key ≤ view.key row := by
    cases isKey
  apply eq_of_sorted_of_mem_iff _ (resolve_sorted sorted unsettled).1 logical.sorted
  · intro row
    rw [logical.mem, mem_resolve sorted unsettled]
    · simp only [perm.mem_iff, ne_eq, reduceCtorEq, not_false_eq_true, true_and]
    · simpa only [Consistent, perm.mem_iff] using consistent
  · exact fun _ _ => lt_asymm

end Stream

/-! ## What the sink keeps -/

section Sinks

variable {view : Visibility V K} {fragment : Fragment V P G A}

def pushAll (fragment : Fragment V P G A) (sink : Sink P G A) : List P → Except String (Sink P G A)
  | [] => .ok sink
  | row :: rest =>
    match sink.push fragment row with
    | .error error => .error error
    | .ok (pushed, true) => pushAll fragment pushed rest
    | .ok (pushed, false) => .ok pushed

theorem scan_eq_pushAll (settled : Option K) (sink : Sink P G A) (rows : List (List V)) :
    (scan view fragment settled sink rows).map (·.2) =
      pushAll fragment sink ((resolve view settled rows).map fragment.project) := by
  induction rows generalizing settled sink with
  | nil => rfl
  | cons row rest ih =>
    rw [scan, resolve]
    split_ifs
    · exact ih _ _
    · exact ih _ _
    rw [map_cons, pushAll]
    split
    · rfl
    · exact ih _ _
    · rfl

variable {sink : Sink P G A} {limit : Option Nat}

theorem reached_of_push {pushed : Sink P G A} {row : P} {more : Bool}
    (room : sink.reached fragment = false) (isPushed : sink.push fragment row = .ok (pushed, more)) :
    pushed.reached fragment = !more := by
  rw [Sink.push] at isPushed
  split_ifs at isPushed with keeps
  · split at isPushed
    next limit isRows =>
      cases isPushed
      rw [Sink.reached, isRows]
      cases limit with
      | none => rfl
      | some limit =>
        rw [Option.all_some, ← decide_not, decide_eq_decide]
        exact Nat.not_lt.symm
    next isGroups =>
      split at isPushed
      · cases isPushed
      cases isPushed
      rw [Sink.reached, isGroups]
      rfl
  · cases isPushed
    exact room

theorem scan_append (room : sink.reached fragment = false) (first second : List (List V)) :
    scan view fragment settled sink (first ++ second) =
      match scan view fragment settled sink first with
      | .error error => .error error
      | .ok (settled, sink) =>
        if sink.reached fragment then .ok (settled, sink)
        else scan view fragment settled sink second := by
  induction first generalizing settled sink with
  | nil =>
    rw [scan, nil_append]
    simp only [room, Bool.false_eq_true, if_false]
  | cons row rest ih =>
    rw [cons_append, scan, scan]
    split_ifs
    · exact ih room
    · exact ih room
    split
    · rfl
    next pushed isPushed => exact ih (reached_of_push room isPushed)
    next pushed isPushed =>
      have full := reached_of_push room isPushed
      simp only [full, Bool.not_false, if_true]

theorem scanStripes_eq (stripes : List (List (List V))) :
    scanStripes view fragment settled sink stripes =
      if sink.reached fragment then .ok sink
      else (scan view fragment settled sink stripes.flatten).map (·.2) := by
  induction stripes generalizing settled sink with
  | nil => exact (ite_self _).symm
  | cons stripe rest ih =>
    rw [scanStripes]
    split_ifs with full
    · rw [ih, if_pos full]
    rw [flatten_cons, scan_append (Bool.eq_false_iff.mpr full)]
    split
    · rfl
    · rw [ih]
      split_ifs <;> rfl

theorem push_rows (isRows : fragment.output = .rows limit) (sink : Sink P G A) {row : P}
    (keeps : fragment.filter row) :
    sink.push fragment row = .ok (⟨sink.rows ++ [row], sink.groups, sink.matched + 1⟩,
      limit.all fun limit => decide (sink.matched + 1 < limit)) := by
  rw [Sink.push, if_pos keeps, isRows]

theorem pushAll_rows (isRows : fragment.output = .rows limit) (sink : Sink P G A) (rows : List P) :
    (pushAll fragment sink rows).map (Sink.finish fragment) = .ok (.rows (sink.rows ++
      limit.elim (rows.filter fragment.filter)
        fun limit => (rows.filter fragment.filter).take (max (limit - sink.matched) 1))) := by
  have finished (sink : Sink P G A) : sink.finish fragment = .rows sink.rows := by
    rw [Sink.finish, isRows]
  induction rows generalizing sink with
  | nil =>
    rw [pushAll, Except.map, finished]
    cases limit <;> simp
  | cons row rest ih =>
    by_cases keeps : fragment.filter row
    · rw [pushAll, push_rows isRows sink keeps, filter_cons_of_pos keeps]
      cases limit with
      | none => simp only [Option.all_none, ih, Option.elim_none, append_assoc, singleton_append]
      | some limit =>
        by_cases more : sink.matched + 1 < limit
        · have count : max (limit - sink.matched) 1 =
              max (limit - (sink.matched + 1)) 1 + 1 := by omega
          simp only [Option.all_some, decide_eq_true more, ih, Option.elim_some,
            append_assoc, singleton_append, count, take_succ_cons]
        · have count : max (limit - sink.matched) 1 = 1 := by omega
          simp only [Option.all_some, decide_eq_false more, Except.map, finished, Option.elim_some,
            count, take_succ_cons, take_zero]
    · rw [pushAll, Sink.push, if_neg keeps, filter_cons_of_neg keeps]
      exact ih sink

theorem pushAll_aggregates {groupBy : P → G} {whole : Option G} {start : A}
    {accumulate : A → P → Except String A}
    (isGroups : fragment.output = .aggregates groupBy whole start accumulate)
    (sink : Sink P G A) (rows : List P) :
    (pushAll fragment sink rows).map (Sink.finish fragment) =
      ((rows.filter fragment.filter).foldlM (Fragment.gather groupBy start accumulate)
        sink.groups).map fun groups => Sink.finish fragment ⟨[], groups, 0⟩ := by
  have groupsOnly (left right : Sink P G A) (same : left.groups = right.groups) :
      left.finish fragment = right.finish fragment := by
    rw [Sink.finish, Sink.finish, isGroups, same]
    cases whole <;> rfl
  induction rows generalizing sink with
  | nil => exact congrArg Except.ok (groupsOnly _ _ rfl)
  | cons row rest ih =>
    rw [pushAll, Sink.push, isGroups]
    by_cases keeps : fragment.filter row
    · rw [if_pos keeps, filter_cons_of_pos keeps, foldlM_cons, Fragment.gather]
      dsimp only
      cases accumulate ((sink.groups.lookup (groupBy row)).getD start) row with
      | error error => rfl
      | ok state => exact ih _
    · rw [if_neg keeps, filter_cons_of_neg keeps]
      exact ih sink

/-- Pushing a whole table gives the answer over it, unless the limit is no rows and one matches. -/
theorem pushAll_eq_answer_iff (table : List (List V)) :
    (pushAll fragment .empty (table.map fragment.project)).map (Sink.finish fragment) =
        fragment.answer table ↔
      (fragment.output = .rows (some 0) → fragment.matching table = []) := by
  unfold Fragment.answer
  split
  next limit isRows =>
    rw [pushAll_rows isRows, isRows]
    change Except.ok (FragmentOutput.rows ([] ++ limit.elim (fragment.matching table) fun limit =>
      (fragment.matching table).take (max (limit - 0) 1))) = _ ↔ _
    generalize fragment.matching table = found
    rw [Except.ok.injEq, FragmentOutput.rows.injEq, nil_append]
    match limit, found with
    | none, _ => simp
    | some 0, [] => simp
    | some 0, _ :: _ => simp
    | some (limit + 1), _ => simp
  next groupBy whole start accumulate isGroups =>
    rw [pushAll_aggregates isGroups, isGroups]
    exact ⟨fun _ => nofun, fun _ => rfl⟩

end Sinks

/-! ## The whole scan -/

section Whole

variable [Inhabited V] {target : List (Column T)} {missing : List V} {view : Visibility V K}
  {fragment : Fragment V P G A} {runs : List (Run T V)} {table : List (List V)}

/-- The rows of a run have a cell for each column of its schema. -/
def Run.Square (run : Run T V) : Prop := ∀ row ∈ run.stripes.flatten, row.length = run.schema.length

theorem widen_self (distinct : (target.map Column.name).Nodup) {row : List V}
    (square : row.length = target.length) : widen target missing target row = row := by
  apply ext_getElem
  · rw [widen, length_map, length_zipIdx, square]
  intro index inside inRow
  have inTarget : index < target.length := square ▸ inRow
  have isIndex : target.findIdx? (·.name == target[index].name) = some index := by
    apply findIdx?_eq_some_iff_getElem.mpr
    refine ⟨inTarget, beq_self_eq_true _, ?_⟩
    intro earlier less same
    have names := pairwise_map.mp distinct
    exact (pairwise_iff_getElem.mp names earlier index _ inTarget less) (beq_iff_eq.mp same)
  simp only [widen, getElem_map, getElem_zipIdx, isIndex,
    getElem?_eq_getElem inRow, Option.getD_some]

omit [Inhabited V] in
/-- A scan of all rows in order is the answer, but for a limit of no rows. -/
theorem scan_eq_answer_iff {rows ordered : List (List V)} (perm : ordered.Perm rows)
    (sorted : ordered.Pairwise view.Before) (consistent : Consistent view rows)
    (logical : LogicalTable view rows table) :
    ((scan view fragment none .empty ordered).map (·.2)).map (Sink.finish fragment) =
        fragment.answer table ↔
      (fragment.output = .rows (some 0) → fragment.matching table = []) := by
  rw [scan_eq_pushAll, resolve_eq_table perm sorted consistent logical]
  exact pushAll_eq_answer_iff table

theorem merged_eq_answer_iff (fits : ∀ run ∈ runs, run.schema.length ≤ target.length)
    (sorted : ∀ run ∈ runs, (run.rows target missing).Pairwise view.Before)
    (consistent : Consistent view (runs.flatMap (·.rows target missing)))
    (logical : LogicalTable view (runs.flatMap (·.rows target missing)) table) :
    merged target missing view fragment runs = fragment.answer table ↔
      (fragment.output = .rows (some 0) → fragment.matching table = []) := by
  have narrow : ¬ (runs.any fun run => decide (target.length < run.schema.length)) = true := by
    rw [any_eq_true]
    rintro ⟨run, member, wider⟩
    exact absurd (fits run member) (Nat.not_le.mpr (of_decide_eq_true wider))
  have streamSorted := stream_sorted (forall_mem_map.mpr sorted)
  rw [merged, if_neg narrow, ← scan_eq_answer_iff (stream_perm _) streamSorted consistent logical]
  cases scan view fragment none .empty (stream view (runs.map (·.rows target missing))) <;> rfl

/-- The merged scan answers the fragment over the logical table, with one exception: it returns a
matching row for a limit of none. A single run of the target schema has no exception. -/
theorem evaluateMerged_eq_answer_iff [DecidableEq T]
    (distinct : (target.map Column.name).Nodup) (nonempty : runs ≠ [])
    (fits : ∀ run ∈ runs, run.schema.length ≤ target.length ∧ run.Square)
    (sorted : ∀ run ∈ runs, (run.rows target missing).Pairwise view.Before)
    (consistent : Consistent view (runs.flatMap (·.rows target missing)))
    (logical : LogicalTable view (runs.flatMap (·.rows target missing)) table) :
    evaluateMerged target missing view fragment runs = fragment.answer table ↔
      (fragment.output = .rows (some 0) → fragment.matching table = [] ∨
        ∃ only, runs = [only] ∧ only.schema = target) := by
  have whole : merged target missing view fragment runs = fragment.answer table ↔
      (fragment.output = .rows (some 0) → fragment.matching table = []) :=
    merged_eq_answer_iff (fun run member => (fits run member).1) sorted consistent logical
  match runs with
  | [] => exact absurd rfl nonempty
  | [only] =>
    by_cases uniform : only.schema = target
    · refine ⟨fun _ _ => .inr ⟨only, rfl, uniform⟩, fun _ => ?_⟩
      have asItStands : only.rows target missing = only.stripes.flatten := by
        rw [Run.rows]
        nth_rewrite 2 [← map_id only.stripes.flatten]
        apply map_congr_left
        intro row member
        have square := (fits only (.head _)).2 row member
        rw [uniform] at square ⊢
        exact widen_self distinct square
      rw [flatMap_singleton, asItStands] at consistent logical
      have inOrder := sorted only (.head _)
      rw [asItStands] at inOrder
      rw [evaluateMerged, if_pos uniform, scanStripes_eq]
      by_cases none_ : fragment.output = .rows (some 0)
      · simp [Sink.reached, Sink.finish, Sink.empty, Fragment.answer, none_, Except.map]
      have room : Sink.empty.reached fragment = false := by
        unfold Sink.reached
        split
        next limit isRows =>
          apply decide_eq_false
          rintro zero
          cases Nat.le_zero.mp zero
          exact none_ isRows
        · rfl
      rw [if_neg (Bool.eq_false_iff.mp room)]
      exact (scan_eq_answer_iff (.refl _) inOrder consistent logical).mpr fun zero =>
        absurd zero none_
    · have other : ¬ ∃ run, [only] = [run] ∧ run.schema = target := by
        rintro ⟨_, same, isTarget⟩
        cases same
        exact uniform isTarget
      rw [evaluateMerged, if_neg uniform, whole, or_iff_left other]
  | first :: second :: rest =>
    have several : ¬ ∃ run, first :: second :: rest = [run] ∧ run.schema = target := by
      rintro ⟨_, same, _⟩
      cases same
    rw [show evaluateMerged target missing view fragment (first :: second :: rest) =
      merged target missing view fragment (first :: second :: rest) from rfl, whole,
      or_iff_left several]

end Whole

/-! ## Two runs and a limit -/

/-- Rows of a key, a commit time and a delete mark, read at time ten. -/
def keyed : Visibility Nat Nat where
  key row := row.headD 0
  commitTs row := row.getD 1 0
  deleted row := row.getD 2 0 == 1
  inRange _ := true
  readTs := 10

def columns : List (Column Unit) := [⟨"key", ()⟩, ⟨"ts", ()⟩, ⟨"deleted", ()⟩]

def twoRuns : List (Run Unit Nat) := [⟨columns, [[[1, 1, 0]]]⟩, ⟨columns, [[], [[2, 1, 0]]]⟩]

def firstRows (limit : Nat) : Fragment Nat (List Nat) Nat Nat :=
  ⟨id, fun _ => true, .rows (some limit)⟩

theorem twoRuns_table :
    LogicalTable keyed (twoRuns.flatMap (·.rows columns [])) [[1, 1, 0], [2, 1, 0]] where
  sorted := by decide
  mem := by
    have rows : twoRuns.flatMap (·.rows columns []) = [[1, 1, 0], [2, 1, 0]] := by decide +kernel
    intro row
    rw [rows]
    refine ⟨fun member => ⟨member, ?_⟩, (·.1)⟩
    rcases mem_cons.mp member with rfl | last
    · decide
    · cases mem_singleton.mp last
      decide

theorem twoRuns_consistent : Consistent keyed (twoRuns.flatMap (·.rows columns [])) := by
  unfold Consistent
  decide +kernel

theorem twoRuns_sorted :
    ∀ run ∈ twoRuns, (run.rows columns []).Pairwise keyed.Before := by decide +kernel

theorem firstRows_one_twoRuns : evaluateMerged columns [] keyed (firstRows 1) twoRuns =
      (firstRows 1).answer [[1, 1, 0], [2, 1, 0]] :=
  (evaluateMerged_eq_answer_iff (by decide) (by decide)
    (by unfold Run.Square; decide) twoRuns_sorted twoRuns_consistent twoRuns_table).mpr nofun

/-- Asked for no rows, the merged scan of two runs returns one. -/
theorem firstRows_zero_twoRuns :
    LogicalTable keyed (twoRuns.flatMap (·.rows columns [])) [[1, 1, 0], [2, 1, 0]] ∧
      (firstRows 0).answer [[1, 1, 0], [2, 1, 0]] = .ok (.rows []) ∧
      evaluateMerged columns [] keyed (firstRows 0) twoRuns ≠
        (firstRows 0).answer [[1, 1, 0], [2, 1, 0]] := by
  refine ⟨twoRuns_table, rfl, fun same => ?_⟩
  have empty := (merged_eq_answer_iff (by decide) twoRuns_sorted twoRuns_consistent
    twoRuns_table).mp same rfl
  cases empty

end Esker.Store.MergedScan
