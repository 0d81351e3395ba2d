import Esker.Engine.LevelSearch
import Mathlib

/-!
Contract: a point read returns what everything written says it should.

Owns: the order of the sources that every step keeps, and the result that reads equal the
model.

The order holds because a compaction takes, of every level it passes, each file that covers a
key it moves. Runs in which an output is cut between two versions of a key, or a discharge
leaves such a file behind, are not covered.
-/

namespace Esker.Engine.Levels

open List Function

variable {K V : Type} [LinearOrder K]

/-- All keys of the first file are below those of the second. -/
def Before (left right : Table K V) : Prop :=
  ∀ first ∈ left.entries, ∀ second ∈ right.entries, first.key < second.key

variable {snapshot seqno : Nat} {table file first second : Table K V} {op : Op K V} {level : Nat}

namespace Db

def memtables (db : Db K V) : List (Table K V) := db.active :: db.immutable.reverse

def held (db : Db K V) : Set (Entry K V) :=
  {entry | (∃ table ∈ db.memtables, entry ∈ table.entries) ∨
    ∃ level, ∃ file ∈ db.files level, entry ∈ file.entries}

def marks (db : Db K V) : Set (RangeTombstone K) :=
  {tombstone | (∃ table ∈ db.memtables, tombstone ∈ table.tombstones) ∨
    ∃ file ∈ db.files 0, tombstone ∈ file.tombstones}

structure Ordered (depth : Nat) (db : Db K V) : Prop where
  memSorted : ∀ table ∈ db.memtables, Sorted table.entries
  fileSorted : ∀ level, ∀ file ∈ db.files level, Sorted file.entries
  memOrder : db.memtables.Pairwise Shadows
  memNewer : ∀ table ∈ db.memtables, ∀ level, ∀ file ∈ db.files level, Shadows table file
  zeroOrder : (db.files 0).Pairwise Shadows
  levelOrder : ∀ level below, level < below → ∀ file ∈ db.files level,
    ∀ lower ∈ db.files below, Shadows file lower
  apart : ∀ level, 0 < level → (db.files level).Pairwise Before
  solid : ∀ level, 0 < level → ∀ file ∈ db.files level, file.entries ≠ [] ∧ file.tombstones = []
  firm : ∀ file ∈ db.files 0, file.points ≠ []
  shallow : ∀ level, 0 < level → depth ≤ level → db.files level = []

/-! ## Reads -/

variable {files : List (Table K V)} {key : K}

theorem candidate_eq_some (found : candidate files key snapshot = some table) :
    ∃ file ∈ files, table.entries = file.entries ∧ table.tombstones = [] := by
  obtain ⟨file, kept, isTable⟩ := Option.map_eq_some_iff.mp found
  obtain ⟨first, -⟩ := Option.filter_eq_some_iff.mp kept
  subst isTable
  exact ⟨file, mem_of_find?_eq_some first, rfl, rfl⟩

theorem endsBelow_eq_false {entry : Entry K V} (sorted : Sorted file.entries)
    (mem : entry ∈ file.entries) (visible : entry.seqno ≤ snapshot) :
    file.endsBelow entry.key snapshot = false := by
  have isLast := getLast?_eq_some_getLast (ne_nil_of_mem mem)
  unfold Table.endsBelow
  rw [isLast, Option.any_some, decide_eq_false_iff_not]
  rcases sorted.le_getLast isLast mem with same | precedes
  · rw [← same]
    rintro (below | ⟨-, newer⟩)
    · exact lt_irrefl _ below
    · omega
  · rintro (below | ⟨same, newer⟩)
    · exact absurd precedes.key_le (not_le.mpr below)
    · have older := precedes.newer same.symm
      omega

theorem candidate_of_visible {entry : Entry K V} (apart : files.Pairwise Before)
    (solid : ∀ file ∈ files, file.entries ≠ []) (sorted : Sorted file.entries)
    (inFiles : file ∈ files) (mem : entry ∈ file.entries) (visible : entry.seqno ≤ snapshot) :
    candidate files entry.key snapshot = some { file with tombstones := [] } := by
  have seeked : (files.find? fun file => !file.endsBelow entry.key snapshot) = some file := by
    obtain ⟨front, back, split⟩ := append_of_mem inFiles
    refine find?_eq_some_iff_append.mpr
      ⟨by rw [endsBelow_eq_false sorted mem visible]; rfl, front, back, split, ?_⟩
    intro earlier inFront
    rw [split, pairwise_append] at apart
    -- A file before it ends on a smaller user key.
    have isLast := getLast?_eq_some_getLast (solid earlier (split ▸ mem_append_left _ inFront))
    have below := apart.2.2 earlier inFront file (.head _) _ (mem_of_getLast? isLast) entry mem
    simp only [Table.endsBelow, isLast, Option.any_some, Bool.not_not, decide_eq_true_eq]
    exact .inl below
  unfold candidate
  rw [seeked]
  simp only [Option.filter_some, file.covers_of_entry mem, if_true, Option.map_some]

namespace Ordered

variable {depth : Nat} {db : Db K V}

section

variable (ordered : Ordered depth db)
include ordered

theorem lt_depth (positive : 0 < level) (inFiles : file ∈ db.files level) : level < depth := by
  by_contra deep
  rw [ordered.shallow level positive (not_lt.mp deep)] at inFiles
  cases inFiles

theorem level_eq_zero (inFiles : file ∈ db.files level)
    {tombstone : RangeTombstone K} (mem : tombstone ∈ file.tombstones) : level = 0 := by
  by_contra positive
  rw [(ordered.solid level (by omega) file inFiles).2] at mem
  cases mem

omit ordered in
theorem mem_sources : table ∈ db.sources depth key snapshot ↔
    table ∈ db.memtables ∨ (table ∈ db.files 0 ∧ table.covers key) ∨
      ∃ level < depth - 1, candidate (db.files (level + 1)) key snapshot = some table := by
  simp only [sources, memtables, mem_append, mem_filter, mem_filterMap, mem_range, or_assoc]

theorem sources_sorted (key : K) (snapshot : Nat) :
    ∀ table ∈ db.sources depth key snapshot, Sorted table.entries := by
  intro table mem
  rcases mem_sources.mp mem with inMem | ⟨inZero, -⟩ | ⟨level, -, found⟩
  · exact ordered.memSorted table inMem
  · exact ordered.fileSorted 0 table inZero
  obtain ⟨file, inFiles, same, -⟩ := candidate_eq_some found
  rw [same]
  exact ordered.fileSorted _ file inFiles

omit ordered in
omit [LinearOrder K] in
theorem shadows_of_entries (shadows : Shadows first file) (same : second.entries = file.entries)
    (none : second.tombstones = []) : Shadows first second := by
  intro newer mem
  rw [same, none]
  refine ⟨(shadows newer mem).1, ?_⟩
  intro tombstone impossible
  cases impossible

theorem sources_ordered (key : K) (snapshot : Nat) :
    (db.sources depth key snapshot).Pairwise Shadows := by
  refine pairwise_append.mpr ⟨pairwise_append.mpr ⟨ordered.memOrder, ?_, ?_⟩, ?_, ?_⟩
  · exact ordered.zeroOrder.filter _
  · intro table inMem file inZero
    exact ordered.memNewer table inMem 0 file (mem_of_mem_filter inZero)
  · rw [pairwise_filterMap]
    refine pairwise_lt_range.imp fun {level below} lower table found next foundNext => ?_
    obtain ⟨file, inFiles, same, -⟩ := candidate_eq_some found
    obtain ⟨nextFile, inNext, sameNext, none⟩ := candidate_eq_some foundNext
    have shadows := shadows_of_entries (ordered.levelOrder (level + 1) (below + 1) (by omega) file
      inFiles nextFile inNext) sameNext none
    intro newer mem
    exact shadows newer (same ▸ mem)
  · intro table shallow next deep
    obtain ⟨level, -, found⟩ := mem_filterMap.mp deep
    obtain ⟨file, inFiles, same, none⟩ := candidate_eq_some found
    refine shadows_of_entries ?_ same none
    rcases mem_append.mp shallow with inMem | inZero
    · exact ordered.memNewer table inMem _ file inFiles
    · exact ordered.levelOrder 0 (level + 1) (by omega) table (mem_of_mem_filter inZero) file
        inFiles

theorem get_eq_some_iff {value : V} :
    db.get depth key snapshot = some value ↔ Sees db.held db.marks key snapshot value := by
  have walk : db.get depth key snapshot = some value ↔
      ∃ seqno, search key snapshot [] (db.sources depth key snapshot) =
        some (.found value seqno) := by
    unfold get
    cases search key snapshot [] (db.sources depth key snapshot) with
    | none => simp
    | some answer => cases answer <;> simp
  rw [walk, search_eq_found [] (ordered.sources_sorted key snapshot)
    (ordered.sources_ordered key snapshot)]
  refine Sees.congr (fun entry isKey visible => ?_) fun tombstone inside _ => ?_
  · constructor
    · rintro ⟨table, mem, inTable⟩
      rcases mem_sources.mp mem with inMem | ⟨inZero, -⟩ | ⟨level, -, found⟩
      · exact .inl ⟨table, inMem, inTable⟩
      · exact .inr ⟨0, table, inZero, inTable⟩
      · obtain ⟨file, inFiles, same, -⟩ := candidate_eq_some found
        exact .inr ⟨level + 1, file, inFiles, same ▸ inTable⟩
    · rintro (⟨table, inMem, inTable⟩ | ⟨level, file, inFiles, inFile⟩)
      · exact ⟨table, mem_sources.mpr (.inl inMem), inTable⟩
      cases level with
      | zero =>
        have covers := isKey ▸ file.covers_of_entry inFile
        exact ⟨file, mem_sources.mpr (.inr (.inl ⟨inFiles, covers⟩)), inFile⟩
      | succ level =>
        have inside := ordered.lt_depth (Nat.succ_pos level) inFiles
        have found := candidate_of_visible (ordered.apart (level + 1) (by omega))
          (fun other mem => (ordered.solid (level + 1) (by omega) other mem).1)
          (ordered.fileSorted _ file inFiles) inFiles inFile visible
        rw [isKey] at found
        exact ⟨_, mem_sources.mpr (.inr (.inr ⟨level, by omega, found⟩)), inFile⟩
  · constructor
    · rintro (impossible | ⟨table, mem, inTable⟩)
      · cases impossible
      rcases mem_sources.mp mem with inMem | ⟨inZero, -⟩ | ⟨level, -, found⟩
      · exact .inl ⟨table, inMem, inTable⟩
      · exact .inr ⟨table, inZero, inTable⟩
      obtain ⟨file, inFiles, -, none⟩ := candidate_eq_some found
      rw [none] at inTable
      cases inTable
    · rintro (⟨table, inMem, inTable⟩ | ⟨file, inFiles, inFile⟩)
      · exact .inr ⟨table, mem_sources.mpr (.inl inMem), inTable⟩
      · have covers := file.covers_of_tombstone inFile inside
        exact .inr ⟨file, mem_sources.mpr (.inr (.inl ⟨inFiles, covers⟩)), inFile⟩

end

end Ordered

/-! ## Writes -/

end Db

def Op.entry (seqno : Nat) : Op K V → Option (Entry K V)
  | .put key value => some ⟨key, seqno, some value⟩
  | .delete key => some ⟨key, seqno, none⟩
  | .deleteRange _ _ => none

def Op.tombstone (seqno : Nat) : Op K V → Option (RangeTombstone K)
  | .put _ _ => none
  | .delete _ => none
  | .deleteRange start stop => some ⟨start, stop, seqno⟩

/-- What a read of the newest state sees after an operation, from what it saw before. -/
def Op.Yields (key : K) (value : V) (before : Prop) : Op K V → Prop
  | .put written new => if written = key then new = value else before
  | .delete written => written ≠ key ∧ before
  | .deleteRange start stop => ¬(start ≤ key ∧ key < stop) ∧ before

omit [LinearOrder K] in
theorem Op.seqno_of_entry {entry : Entry K V} (written : entry ∈ op.entry seqno) :
    entry.seqno = seqno := by
  cases op with
  | put | delete => cases written; rfl
  | deleteRange start stop => cases written

omit [LinearOrder K] in
theorem Op.seqno_of_tombstone {tombstone : RangeTombstone K}
    (written : tombstone ∈ op.tombstone seqno) : tombstone.seqno = seqno := by
  cases op with
  | put | delete => cases written
  | deleteRange start stop => cases written; rfl

namespace Table

variable {table : Table K V} {op : Op K V} {seqno : Nat}

theorem mem_entries_add {entry : Entry K V} :
    entry ∈ (table.add seqno op).entries ↔ entry ∈ table.entries ∨ entry ∈ op.entry seqno := by
  cases op with
  | put | delete => simp [add, Op.entry, mem_orderedInsert, or_comm, eq_comm]
  | deleteRange start stop => simp [add, Op.entry]

theorem mem_tombstones_add {tombstone : RangeTombstone K} :
    tombstone ∈ (table.add seqno op).tombstones ↔
      tombstone ∈ table.tombstones ∨ tombstone ∈ op.tombstone seqno := by
  cases op with
  | put | delete => simp [add, Op.tombstone]
  | deleteRange start stop => simp [add, Op.tombstone, or_comm, eq_comm]

end Table

theorem Sorted.orderedInsert {entries : List (Entry K V)} {entry : Entry K V}
    (sorted : Sorted entries) (newest : ∀ other ∈ entries, other.seqno < entry.seqno) :
    Sorted (entries.orderedInsert NotAfter entry) := by
  induction entries with
  | nil => exact pairwise_singleton _ _
  | cons head rest ih =>
    rw [forall_mem_cons] at newest
    unfold Sorted at sorted
    rw [pairwise_cons] at sorted
    unfold List.orderedInsert
    split
    · rename_i notAfter
      have precedes : Precedes entry head := by
        rcases notAfter with below | ⟨same, -⟩
        · exact .inl below
        · exact .inr ⟨same, newest.1⟩
      refine pairwise_cons.mpr ⟨?_, pairwise_cons.mpr sorted⟩
      intro other mem
      rcases mem_cons.mp mem with isHead | inRest
      · exact isHead ▸ precedes
      · exact precedes.trans (sorted.1 other inRest)
    · rename_i after
      have precedes : Precedes head entry := by
        rcases lt_trichotomy head.key entry.key with below | same | above
        · exact .inl below
        · exact absurd (.inr ⟨same.symm, newest.1.le⟩) after
        · exact absurd (.inl above) after
      refine pairwise_cons.mpr ⟨?_, ih sorted.2 newest.2⟩
      intro other mem
      rcases (mem_orderedInsert _).mp mem with isEntry | inRest
      · exact isEntry ▸ precedes
      · exact sorted.1 other inRest

theorem Table.sorted_add (op : Op K V) (sorted : Sorted table.entries)
    (newest : ∀ other ∈ table.entries, other.seqno < seqno) :
    Sorted (table.add seqno op).entries := by
  cases op with
  | put | delete => exact sorted.orderedInsert newest
  | deleteRange start stop => exact sorted

section Newest

variable {entries : Set (Entry K V)} {tombstones : Set (RangeTombstone K)} {visible : Nat}
  {key : K} {value : V}

theorem Sees.beyond_iff (entriesBelow : ∀ entry ∈ entries, entry.seqno ≤ visible)
    (tombstonesBelow : ∀ tombstone ∈ tombstones, tombstone.seqno ≤ visible)
    (above : visible ≤ snapshot) :
    Sees entries tombstones key snapshot value ↔ Sees entries tombstones key visible value := by
  constructor
  · rintro ⟨entry, mem, isKey, -, held, most, clear⟩
    refine ⟨entry, mem, isKey, entriesBelow entry mem, held, ?_, ?_⟩
    · intro other inside otherKey below
      exact most other inside otherKey (below.trans above)
    · intro tombstone inside covers below
      exact clear tombstone inside covers (below.trans above)
  · rintro ⟨entry, mem, isKey, below, held, most, clear⟩
    refine ⟨entry, mem, isKey, below.trans above, held, ?_, ?_⟩
    · intro other inside otherKey _
      exact most other inside otherKey (entriesBelow other inside)
    · intro tombstone inside covers _
      exact clear tombstone inside covers (tombstonesBelow tombstone inside)

theorem Sees.write_iff (op : Op K V) (entriesBelow : ∀ entry ∈ entries, entry.seqno ≤ visible)
    (tombstonesBelow : ∀ tombstone ∈ tombstones, tombstone.seqno ≤ visible) :
    Sees {entry | entry ∈ entries ∨ entry ∈ op.entry (visible + 1)}
        {tombstone | tombstone ∈ tombstones ∨ tombstone ∈ op.tombstone (visible + 1)} key
        (visible + 1) value ↔
      op.Yields key value (Sees entries tombstones key visible value) := by
  rw [← Sees.beyond_iff entriesBelow tombstonesBelow (Nat.le_succ visible)]
  -- An operation on another key changes nothing.
  have unrelated (other : ∀ entry ∈ op.entry (visible + 1), entry.key ≠ key)
      (outside : ∀ tombstone ∈ op.tombstone (visible + 1), tombstone.contains key = false) :
      Sees {entry | entry ∈ entries ∨ entry ∈ op.entry (visible + 1)}
          {tombstone | tombstone ∈ tombstones ∨ tombstone ∈ op.tombstone (visible + 1)} key
          (visible + 1) value ↔ Sees entries tombstones key (visible + 1) value := by
    refine Sees.congr (fun entry isKey _ => ?_) fun tombstone inside _ => ?_
    · exact or_iff_left fun written => other entry written isKey
    refine or_iff_left fun written => ?_
    rw [outside tombstone written] at inside
    cases inside
  -- An operation on the key hides everything before it.
  have newest (touches : (∃ entry ∈ op.entry (visible + 1), entry.key = key) ∨
        ∃ tombstone ∈ op.tombstone (visible + 1), tombstone.contains key) :
      Sees {entry | entry ∈ entries ∨ entry ∈ op.entry (visible + 1)}
          {tombstone | tombstone ∈ tombstones ∨ tombstone ∈ op.tombstone (visible + 1)} key
          (visible + 1) value → ∃ entry ∈ op.entry (visible + 1), entry.value = some value := by
    rintro ⟨entry, earlier | isNew, -, -, held, most, clear⟩
    · have below := entriesBelow entry earlier
      rcases touches with ⟨new, written, isKey⟩ | ⟨tombstone, written, covers⟩
      · have isLast := Op.seqno_of_entry written
        have limit := most new (.inr written) isKey isLast.le
        omega
      have isLast := Op.seqno_of_tombstone written
      have limit := clear tombstone (.inr written) covers isLast.le
      omega
    · exact ⟨entry, isNew, held⟩
  cases op with
  | put written new =>
    rw [Op.Yields]
    by_cases isKey : written = key
    · rw [if_pos isKey]
      constructor
      · intro seen
        obtain ⟨entry, isNew, held⟩ := newest (.inl ⟨_, rfl, isKey⟩) seen
        cases isNew
        exact Option.some.inj held
      · rintro rfl
        refine ⟨⟨written, visible + 1, some new⟩, .inr rfl, isKey, Nat.le_refl _, rfl, ?_, ?_⟩
        · exact fun _ _ _ below => below
        · exact fun _ _ _ below => below
    · rw [if_neg isKey]
      refine unrelated ?_ nofun
      rintro entry ⟨⟩
      exact isKey
  | delete written =>
    rw [Op.Yields]
    by_cases isKey : written = key
    · refine iff_of_false (fun seen => ?_) fun impossible => impossible.1 isKey
      obtain ⟨entry, ⟨⟩, ⟨⟩⟩ := newest (.inl ⟨_, rfl, isKey⟩) seen
    rw [unrelated _ nofun, and_iff_right isKey]
    rintro entry ⟨⟩
    exact isKey
  | deleteRange start stop =>
    rw [Op.Yields]
    by_cases covered : start ≤ key ∧ key < stop
    · refine iff_of_false (fun seen => ?_) fun impossible => impossible.1 covered
      obtain ⟨entry, ⟨⟩, -⟩ := newest (.inr ⟨_, rfl, decide_eq_true covered⟩) seen
    rw [unrelated nofun, and_iff_right covered]
    rintro tombstone ⟨⟩
    exact decide_eq_false covered

end Newest

namespace Db

structure Invariant (depth : Nat) (db : Db K V) : Prop where
  ordered : db.Ordered depth
  heldBelow : ∀ entry ∈ db.held, entry.seqno ≤ db.visible
  marksBelow : ∀ tombstone ∈ db.marks, tombstone.seqno ≤ db.visible
  entriesBelow : ∀ entry ∈ db.history.entries, entry.seqno ≤ db.visible
  tombstonesBelow : ∀ tombstone ∈ db.history.tombstones, tombstone.seqno ≤ db.visible
  snapshotsBelow : ∀ snapshot ∈ db.snapshots, snapshot ≤ db.visible
  agrees : ∀ snapshot, snapshot ∈ db.snapshots ∨ snapshot = db.visible → ∀ key value,
    Sees db.held db.marks key snapshot value ↔ db.history.Shows key snapshot value

namespace Invariant

variable {depth : Nat} {db : Db K V}

theorem empty (depth : Nat) : Invariant depth (Db.empty : Db K V) := by
  have noEntry : ∀ entry, entry ∉ (Db.empty : Db K V).held := by
    rintro entry (⟨table, inMem, mem⟩ | ⟨level, file, inFiles, -⟩)
    · rw [mem_singleton.mp inMem] at mem
      cases mem
    · cases inFiles
  have noMark : ∀ tombstone, tombstone ∉ (Db.empty : Db K V).marks := by
    rintro tombstone (⟨table, inMem, mem⟩ | ⟨file, inFiles, -⟩)
    · rw [mem_singleton.mp inMem] at mem
      cases mem
    · cases inFiles
  refine ⟨⟨?_, nofun, pairwise_singleton _ _, fun _ _ => nofun, .nil, fun _ _ _ => nofun,
      fun _ _ => .nil, fun _ _ => nofun, nofun, fun _ _ _ => rfl⟩,
    fun entry mem => absurd mem (noEntry entry),
    fun tombstone mem => absurd mem (noMark tombstone), nofun, nofun, nofun, ?_⟩
  · intro table inMem
    rw [mem_singleton.mp inMem]
    exact .nil
  intro snapshot _ key value
  refine Sees.congr (fun entry _ _ => ?_) fun tombstone _ _ => ?_
  · exact iff_of_false (noEntry entry) (not_mem_nil)
  · exact iff_of_false (noMark tombstone) (not_mem_nil)

/-! ### Writes -/

theorem exists_writeOne {part : Table K V → Prop} {new : Prop}
    (adds : part (db.active.add (db.visible + 1) op) ↔ part db.active ∨ new) :
    (∃ table ∈ (db.writeOne op).memtables, part table) ↔
      (∃ table ∈ db.memtables, part table) ∨ new := by
  simp only [memtables, Db.writeOne, exists_mem_cons_iff, adds]
  exact or_right_comm

theorem held_writeOne (db : Db K V) (op : Op K V) : (db.writeOne op).held =
      {entry | entry ∈ db.held ∨ entry ∈ op.entry (db.visible + 1)} := by
  ext entry
  exact (or_congr_left (exists_writeOne Table.mem_entries_add)).trans or_right_comm

theorem marks_writeOne (db : Db K V) (op : Op K V) : (db.writeOne op).marks =
      {tombstone | tombstone ∈ db.marks ∨ tombstone ∈ op.tombstone (db.visible + 1)} := by
  ext tombstone
  exact (or_congr_left (exists_writeOne Table.mem_tombstones_add)).trans or_right_comm

theorem shadows_add {visible : Nat} (op : Op K V) (shadows : Shadows first second)
    (below : ∀ entry ∈ second.entries, entry.seqno ≤ visible)
    (marksBelow : ∀ tombstone ∈ second.tombstones, tombstone.seqno ≤ visible) :
    Shadows (first.add (visible + 1) op) second := by
  intro newer mem
  rcases Table.mem_entries_add.mp mem with old | new
  · exact shadows newer old
  rw [Op.seqno_of_entry new]
  exact ⟨fun older inside _ => Nat.lt_succ_of_le (below older inside),
    fun tombstone inside => Nat.lt_succ_of_le (marksBelow tombstone inside)⟩

theorem mark_of_file (ordered : db.Ordered depth) (inFiles : file ∈ db.files level)
    {tombstone : RangeTombstone K} (mem : tombstone ∈ file.tombstones) : tombstone ∈ db.marks := by
  cases ordered.level_eq_zero inFiles mem
  exact .inr ⟨file, inFiles, mem⟩

theorem writeOne (inv : Invariant depth db) (op : Op K V) : Invariant depth (db.writeOne op) := by
  have ordered := inv.ordered
  have memBelow : ∀ table ∈ db.memtables, ∀ entry ∈ table.entries, entry.seqno ≤ db.visible :=
    fun table inMem entry mem => inv.heldBelow entry (.inl ⟨table, inMem, mem⟩)
  have shown : ∀ snapshot, snapshot ∈ db.snapshots ∨ snapshot = db.visible + 1 → ∀ key value,
      Sees (db.writeOne op).held (db.writeOne op).marks key snapshot value ↔
        (db.writeOne op).history.Shows key snapshot value := by
    have sameHistory : ∀ key snapshot value, (db.writeOne op).history.Shows key snapshot value ↔
        Sees {entry | entry ∈ {entry | entry ∈ db.history.entries} ∨
            entry ∈ op.entry (db.visible + 1)}
          {tombstone | tombstone ∈ {tombstone | tombstone ∈ db.history.tombstones} ∨
            tombstone ∈ op.tombstone (db.visible + 1)} key snapshot value := fun _ _ _ =>
      Sees.congr (fun _ _ _ => Table.mem_entries_add) fun _ _ _ => Table.mem_tombstones_add
    intro snapshot live key value
    rw [sameHistory, held_writeOne, marks_writeOne]
    rcases live with registered | isCurrent
    · -- An earlier snapshot does not see the operation.
      have earlier := inv.snapshotsBelow snapshot registered
      have unseen : ∀ {entries : Set (Entry K V)} {marks : Set (RangeTombstone K)},
          Sees {entry | entry ∈ entries ∨ entry ∈ op.entry (db.visible + 1)}
            {tombstone | tombstone ∈ marks ∨ tombstone ∈ op.tombstone (db.visible + 1)} key
            snapshot value ↔ Sees entries marks key snapshot value := by
        intro entries marks
        refine Sees.congr (fun entry _ visible => ?_) fun tombstone _ visible => ?_
        · refine or_iff_left fun new => ?_
          rw [Op.seqno_of_entry new] at visible
          omega
        refine or_iff_left fun new => ?_
        rw [Op.seqno_of_tombstone new] at visible
        omega
      rw [unseen, unseen]
      exact inv.agrees snapshot (.inl registered) key value
    · subst isCurrent
      rw [Sees.write_iff op inv.heldBelow inv.marksBelow,
        @Sees.write_iff K V _ {entry | entry ∈ db.history.entries}
          {tombstone | tombstone ∈ db.history.tombstones} db.visible key value op
          inv.entriesBelow inv.tombstonesBelow]
      have same := inv.agrees db.visible (.inr rfl) key value
      rw [same]
      rfl
  refine ⟨{ ordered with memSorted := ?_, memOrder := ?_, memNewer := ?_ }, ?_, ?_, ?_, ?_, ?_,
    shown⟩
  · intro table inMem
    rcases mem_cons.mp inMem with isActive | earlier
    · subst isActive
      exact Table.sorted_add op (ordered.memSorted _ (.head _)) fun other mem =>
        Nat.lt_succ_of_le (memBelow _ (.head _) other mem)
    · exact ordered.memSorted table (.tail _ earlier)
  · obtain ⟨newest, others⟩ := pairwise_cons.mp ordered.memOrder
    refine pairwise_cons.mpr ⟨fun table inMem => ?_, others⟩
    exact shadows_add op (newest table inMem) (memBelow table (.tail _ inMem)) fun tombstone mem =>
      inv.marksBelow tombstone (.inl ⟨table, .tail _ inMem, mem⟩)
  · intro table inMem level file inFiles
    rcases mem_cons.mp inMem with isActive | earlier
    · subst isActive
      exact shadows_add op (ordered.memNewer _ (.head _) level file inFiles)
        (fun entry mem => inv.heldBelow entry (.inr ⟨level, file, inFiles, mem⟩))
        fun tombstone mem => inv.marksBelow tombstone (mark_of_file ordered inFiles mem)
    · exact ordered.memNewer table (.tail _ earlier) level file inFiles
  · intro entry mem
    rw [held_writeOne] at mem
    rcases mem with old | new
    · exact (inv.heldBelow entry old).trans (Nat.le_succ _)
    · exact (Op.seqno_of_entry new).le
  · intro tombstone mem
    rw [marks_writeOne] at mem
    rcases mem with old | new
    · exact (inv.marksBelow tombstone old).trans (Nat.le_succ _)
    · exact (Op.seqno_of_tombstone new).le
  · intro entry mem
    rcases Table.mem_entries_add.mp mem with old | new
    · exact (inv.entriesBelow entry old).trans (Nat.le_succ _)
    · exact (Op.seqno_of_entry new).le
  · intro tombstone mem
    rcases Table.mem_tombstones_add.mp mem with old | new
    · exact (inv.tombstonesBelow tombstone old).trans (Nat.le_succ _)
    · exact (Op.seqno_of_tombstone new).le
  · intro snapshot mem
    exact (inv.snapshotsBelow snapshot mem).trans (Nat.le_succ _)

theorem write (inv : Invariant depth db) (ops : List (Op K V)) :
    Invariant depth (db.write ops) := by
  unfold Db.write
  induction ops generalizing db with
  | nil => exact inv
  | cons op rest ih => exact ih (inv.writeOne op)

/-! ### Steps that move tables -/

theorem of_same {after : Db K V} (inv : Invariant depth db) (ordered : after.Ordered depth)
    (held : after.held = db.held) (marks : after.marks = db.marks)
    (visible : after.visible = db.visible) (history : after.history = db.history)
    (snapshots : ∀ snapshot ∈ after.snapshots, snapshot ∈ db.snapshots ∨ snapshot = db.visible) :
    Invariant depth after := by
  refine ⟨ordered, ?_, ?_, ?_, ?_, ?_, ?_⟩
  · rw [held, visible]
    exact inv.heldBelow
  · rw [marks, visible]
    exact inv.marksBelow
  · rw [history, visible]
    exact inv.entriesBelow
  · rw [history, visible]
    exact inv.tombstonesBelow
  · intro snapshot mem
    rw [visible]
    rcases snapshots snapshot mem with old | current
    · exact inv.snapshotsBelow snapshot old
    · exact current.le
  · intro snapshot live
    rw [held, marks, history]
    rcases live with mem | current
    · exact inv.agrees snapshot (snapshots snapshot mem)
    · exact inv.agrees snapshot (.inr (visible ▸ current))

omit [LinearOrder K] in
theorem memtables_switch (db : Db K V) : db.switch.memtables = .empty :: db.memtables := by
  simp [memtables, Db.switch]

theorem switch (inv : Invariant depth db) : Invariant depth db.switch := by
  have ordered := inv.ordered
  have same := memtables_switch db
  have shadows : ∀ table : Table K V, Shadows .empty table := by
    intro table newer mem
    cases mem
  refine inv.of_same { ordered with memSorted := ?_, memOrder := ?_, memNewer := ?_ } ?_ ?_ rfl rfl
    fun _ mem => .inl mem
  · rw [same, forall_mem_cons]
    exact ⟨.nil, ordered.memSorted⟩
  · rw [same]
    exact pairwise_cons.mpr ⟨fun table _ => shadows table, ordered.memOrder⟩
  · rw [same, forall_mem_cons]
    exact ⟨fun _ file _ => shadows file, ordered.memNewer⟩
  · ext entry
    unfold held
    rw [same]
    simp [Table.empty, Db.switch]
  · ext tombstone
    unfold marks
    rw [same]
    simp [Table.empty, Db.switch]

variable [DecidableEq V] {rest : List (Table K V)}

theorem memtables_flushed (oldest : db.immutable = table :: rest) :
    db.memtables = (db.flushed table rest).memtables ++ [table] := by
  simp [memtables, flushed, oldest]

theorem mem_files_flushed : file ∈ (db.flushed table rest).files level ↔
      level = 0 ∧ table ≠ .empty ∧ file = table ∨ file ∈ db.files level := by
  simp only [flushed]
  split
  · simp_all
  rcases eq_or_ne level 0 with rfl | deep
  · simp_all
  · simp [deep]

theorem exists_flushed (oldest : db.immutable = table :: rest)
    (part : Table K V → Prop) (bare : ¬part .empty) (levels : Set Nat) (zero : 0 ∈ levels) :
    ((∃ other ∈ (db.flushed table rest).memtables, part other) ∨
        ∃ level ∈ levels, ∃ file ∈ (db.flushed table rest).files level, part file) ↔
      (∃ other ∈ db.memtables, part other) ∨
        ∃ level ∈ levels, ∃ file ∈ db.files level, part file := by
  have full : part table → table ≠ .empty := fun holds isEmpty => bare (isEmpty ▸ holds)
  simp only [memtables_flushed oldest, mem_files_flushed, mem_append, mem_singleton]
  grind

omit [LinearOrder K] [DecidableEq V] in
theorem points_ne_nil (full : table ≠ .empty) : table.points ≠ [] := by
  intro none
  obtain ⟨noKeys, noBounds⟩ := append_eq_nil_iff.mp none
  obtain ⟨entries, tombstones⟩ := table
  refine full (Table.mk.injEq .. ▸ ⟨map_eq_nil_iff.mp noKeys, ?_⟩)
  rw [flatMap_eq_nil_iff] at noBounds
  exact eq_nil_iff_forall_not_mem.mpr fun tombstone mem => nomatch noBounds tombstone mem

theorem flush (inv : Invariant depth db)
    (oldest : db.immutable = table :: rest) : Invariant depth (db.flushed table rest) := by
  have ordered := inv.ordered
  have split := memtables_flushed oldest
  have inMem : table ∈ db.memtables := by
    rw [split]
    exact mem_append_right _ (.head _)
  have stays : ∀ other ∈ (db.flushed table rest).memtables, other ∈ db.memtables := by
    rw [split]
    exact fun other mem => mem_append_left _ mem
  have memOrder := ordered.memOrder
  rw [split, pairwise_append] at memOrder
  have old : ∀ level, 0 < level → (db.flushed table rest).files level = db.files level := by
    intro level positive
    ext1 place
    simp only [flushed]
    split
    · rfl
    · rw [update_of_ne positive.ne']
  refine inv.of_same ⟨fun other mem => ordered.memSorted other (stays other mem), ?_,
    memOrder.1, ?_, ?_, ?_, ?_, ?_, ?_, ?_⟩ ?_ ?_ rfl rfl fun _ mem => .inl mem
  · intro level file inFiles
    rcases mem_files_flushed.mp inFiles with ⟨-, -, isTable⟩ | inOld
    · exact isTable ▸ ordered.memSorted table inMem
    · exact ordered.fileSorted level file inOld
  · intro other mem level file inFiles
    rcases mem_files_flushed.mp inFiles with ⟨-, -, isTable⟩ | inOld
    · exact isTable ▸ memOrder.2.2 other mem table (.head _)
    · exact ordered.memNewer other (stays other mem) level file inOld
  · simp only [flushed]
    split
    · exact ordered.zeroOrder
    rw [update_self]
    exact pairwise_cons.mpr
      ⟨fun file inFiles => ordered.memNewer table inMem 0 file inFiles, ordered.zeroOrder⟩
  · intro level below lower file inFiles next inNext
    rw [old below (by omega)] at inNext
    rcases mem_files_flushed.mp inFiles with ⟨-, -, isTable⟩ | inOld
    · exact isTable ▸ ordered.memNewer table inMem below next inNext
    · exact ordered.levelOrder level below lower file inOld next inNext
  · intro level positive
    rw [old level positive]
    exact ordered.apart level positive
  · intro level positive
    rw [old level positive]
    exact ordered.solid level positive
  · intro file inFiles
    rcases mem_files_flushed.mp inFiles with ⟨-, full, isTable⟩ | inOld
    · exact isTable ▸ points_ne_nil full
    · exact ordered.firm file inOld
  · intro level positive outside
    rw [old level positive]
    exact ordered.shallow level positive outside
  · ext entry
    simpa [held] using exists_flushed oldest (entry ∈ ·.entries) nofun Set.univ (Set.mem_univ 0)
  · ext tombstone
    simpa [marks] using exists_flushed oldest (tombstone ∈ ·.tombstones) nofun {0} rfl

end Invariant

end Db

end Esker.Engine.Levels
