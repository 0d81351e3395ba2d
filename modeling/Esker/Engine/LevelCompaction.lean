import Esker.Engine.LevelReads
import Mathlib

/-!
Contract: a compaction keeps the order of the sources and what live snapshots see.

Owns: which files a compaction takes, what it leaves of their entries, the invariant over whole
runs, and the result that reads equal the model.
-/

namespace Esker.Engine.Levels

open List

variable {K V : Type} [LinearOrder K] [DecidableEq V]

variable {files : List (Table K V)} {tombstone : RangeTombstone K} {extractUserKey : K → K}
  {entry : Entry K V}

namespace Compaction

variable {compaction : Compaction K V} {level : Nat} {file : Table K V}

theorem takes_iff : compaction.takes level file = true ↔
    (level = compaction.level ∧ file ∈ compaction.inputs) ∨
      (level = compaction.level + 1 ∧ file ∈ compaction.outputsOverlapped) ∨
      (level, file) ∈ compaction.discharge := by
  simp only [takes, Bool.or_eq_true, decide_eq_true_eq, or_assoc]

omit [LinearOrder K] [DecidableEq V] in
theorem mem_allInputs : file ∈ compaction.allInputs ↔ file ∈ compaction.inputs ∨
    file ∈ compaction.outputsOverlapped ∨ ∃ level, (level, file) ∈ compaction.discharge := by
  simp only [allInputs, mem_append, mem_map, Prod.exists, exists_eq_right, or_assoc]

end Compaction

open Compaction (mem_allInputs takes_iff)

namespace Db

variable {depth : Nat} {db : Db K V}

/-! ## Which files a compaction takes -/

/-- Whatever shares a key with one of the inputs is one of them. -/
def ClosedUnder (files inputs : List (Table K V)) : Prop :=
  ∀ file ∈ files, ∀ taken ∈ inputs, ∀ key, file.covers key = true → taken.covers key = true →
    file ∈ inputs

omit [DecidableEq V] in
theorem l0Closure_closed (firm : ∀ file ∈ db.files 0, file.points ≠ []) {fuel : Nat}
    (sublist : files.Sublist (db.files 0)) (enough : (db.files 0).length < files.length + fuel) :
    (db.l0Closure fuel files).Sublist (db.files 0) ∧
      ClosedUnder (db.files 0) (db.l0Closure fuel files) := by
  induction fuel generalizing files with
  | zero =>
    have bound := sublist.length_le
    omega
  | succ fuel ih =>
    unfold l0Closure
    have inPoints : ∀ file ∈ files, ∀ point ∈ file.points, point ∈ files.flatMap Table.points :=
      fun file mem point isPoint => mem_flatMap.mpr ⟨file, mem, isPoint⟩
    cases range : rangeOf (files.flatMap Table.points) with
    | none =>
      refine ⟨sublist, fun file _ taken inFiles => ?_⟩
      obtain ⟨point, isPoint⟩ := exists_mem_of_ne_nil _ (firm taken (sublist.subset inFiles))
      obtain ⟨_, found, -⟩ := rangeOf_isSome_of_mem (inPoints taken inFiles point isPoint)
      rw [range] at found
      cases found
    | some bounds =>
      obtain ⟨low, high⟩ := bounds
      have contained : files.Sublist (db.overlapping 0 low high) := by
        have all : files.filter (fun file => file.overlaps low high) = files := by
          refine filter_eq_self.mpr fun file mem => ?_
          obtain ⟨point, isPoint⟩ :=
            exists_mem_of_ne_nil _ (firm file (sublist.subset mem))
          obtain ⟨above, below⟩ := le_of_rangeOf range (inPoints file mem point isPoint)
          exact file.overlaps_of_point isPoint above below
        rw [← all]
        exact sublist.filter _
      dsimp only
      split
      · rename_i sameLength
        have fixed := contained.eq_of_length sameLength.symm
        refine ⟨filter_sublist, fun file inZero taken inGrown key covers shares => ?_⟩
        rw [← fixed] at inGrown
        obtain ⟨above, below⟩ := taken.between_of_covers (inPoints taken inGrown) range shares
        exact mem_filter.mpr ⟨inZero, file.overlaps_of_covers covers above below⟩
      · rename_i grows
        have longer := contained.length_le
        exact ih filter_sublist (by omega)

variable {level start : Nat} {file : Table K V} {seed : List (Table K V)} {levels : List Nat}

omit [DecidableEq V] in
theorem closed_spec (firm : ∀ file ∈ db.files 0, file.points ≠ [])
    (sublist : files.Sublist (db.files level)) : (db.closed level files).Sublist (db.files level) ∧
      (level = 0 → ClosedUnder (db.files 0) (db.closed level files)) := by
  unfold closed
  split
  · rename_i isZero
    subst isZero
    obtain ⟨stays, closes⟩ := l0Closure_closed firm sublist (by omega :
      (db.files 0).length < files.length + ((db.files 0).length + 1))
    exact ⟨stays, fun _ => closes⟩
  · rename_i positive
    exact ⟨sublist, fun isZero => absurd isZero positive⟩

omit [DecidableEq V] in
theorem overlappedBy_subset (mem : file ∈ db.overlappedBy level files) : file ∈ db.files level := by
  unfold overlappedBy at mem
  split at mem
  · exact mem_of_mem_filter mem
  · cases mem

omit [DecidableEq V] in
theorem grow_spec (firm : ∀ file ∈ db.files 0, file.points ≠ [])
    (sublist : seed.Sublist (db.files level)) : ((db.grow level seed).1.Sublist (db.files level) ∧
      (level = 0 → ClosedUnder (db.files 0) (db.grow level seed).1)) ∧
      ∀ file ∈ (db.grow level seed).2, file ∈ db.files (level + 1) := by
  unfold grow
  dsimp only
  split
  · exact ⟨closed_spec firm sublist, fun file => overlappedBy_subset⟩
  split
  · exact ⟨closed_spec firm filter_sublist, fun file => overlappedBy_subset⟩
  · exact ⟨closed_spec firm sublist, fun file => overlappedBy_subset⟩

structure Sound (depth : Nat) (db : Db K V) (compaction : Compaction K V) : Prop where
  inputs : ∀ file ∈ compaction.inputs, file ∈ db.files compaction.level
  overlapped : ∀ file ∈ compaction.outputsOverlapped, file ∈ db.files (compaction.level + 1)
  discharge : ∀ placed ∈ compaction.discharge, placed.2 ∈ db.files placed.1 ∧
    compaction.level < placed.1 ∧ placed.1 ≤ compaction.outputLevel
  deeper : compaction.level < compaction.outputLevel
  inside : compaction.outputLevel < depth
  closed : compaction.level = 0 → ClosedUnder (db.files 0) compaction.inputs
  /-- Below level 0 every file that covers a key of a tombstone is taken. -/
  swept : ∀ tombstone ∈ compaction.tombstones, ∀ level, 0 < level → ∀ file ∈ db.files level,
    ∀ key, tombstone.contains key = true → file.covers key = true →
      compaction.takes level file = true

theorem le_foldl_max_iff : level ≤ levels.foldl max start ↔
    level ≤ start ∨ ∃ each ∈ levels, level ≤ each := by
  induction levels generalizing start with
  | nil => simp
  | cons head rest ih => simp [ih, or_assoc]

namespace Sound

variable {compaction : Compaction K V}

section

variable (sound : Sound depth db compaction)
include sound

theorem level_of_takes (takes : compaction.takes level file = true) :
    file ∈ db.files level ∧ compaction.level ≤ level ∧ level ≤ compaction.outputLevel ∧
      file ∈ compaction.allInputs := by
  have deeper := sound.deeper
  rw [mem_allInputs]
  rcases takes_iff.mp takes with ⟨rfl, mem⟩ | ⟨rfl, mem⟩ | mem
  · exact ⟨sound.inputs file mem, Nat.le_refl _, deeper.le, .inl mem⟩
  · exact ⟨sound.overlapped file mem, Nat.le_succ _, deeper, .inr (.inl mem)⟩
  · obtain ⟨inFiles, low, high⟩ := sound.discharge _ mem
    exact ⟨inFiles, low.le, high, .inr (.inr ⟨level, mem⟩)⟩

theorem level_eq_zero (takes : compaction.takes 0 file = true) : compaction.level = 0 :=
  Nat.le_zero.mp (sound.level_of_takes takes).2.1

theorem input_of_takes (takes : compaction.takes 0 file = true) : file ∈ compaction.inputs := by
  rcases takes_iff.mp takes with ⟨-, isInput⟩ | ⟨impossible, -⟩ | deep
  · exact isInput
  · omega
  · exact absurd (sound.discharge _ deep).2.1 (Nat.not_lt_zero _)

theorem takes_of_allInputs (mem : file ∈ compaction.allInputs) :
    ∃ level, file ∈ db.files level ∧ compaction.takes level file = true := by
  simp only [takes_iff]
  rcases mem_allInputs.mp mem with isInput | isOverlapped | ⟨level, far⟩
  · exact ⟨_, sound.inputs file isInput, .inl ⟨rfl, isInput⟩⟩
  · exact ⟨_, sound.overlapped file isOverlapped, .inr (.inl ⟨rfl, isOverlapped⟩)⟩
  · exact ⟨level, (sound.discharge _ far).1, .inr (.inr far)⟩

end

end Sound

theorem sound_assemble (ordered : db.Ordered depth) (inside : level + 1 < depth)
    (chosen : seed.Sublist (db.files level)) (none : (db.assemble level seed).tombstones = []) :
    Sound depth db (db.assemble level seed) := by
  obtain ⟨⟨sublist, closes⟩, overlapped⟩ := grow_spec ordered.firm chosen
  refine ⟨fun file mem => sublist.subset mem, overlapped, nofun, Nat.lt_succ_self level, inside,
    closes, ?_⟩
  rw [none]
  exact nofun

omit [DecidableEq V] in
theorem level_eq_zero_of_tombstone (ordered : db.Ordered depth)
    (chosen : seed.Sublist (db.files level)) (mem : tombstone ∈ (db.assemble level seed).tombstones) :
    level = 0 := by
  obtain ⟨⟨sublist, -⟩, overlapped⟩ := grow_spec ordered.firm chosen
  obtain ⟨file, inInputs, inFile⟩ := mem_flatMap.mp mem
  rcases mem_allInputs.mp inInputs with isInput | isOverlapped | ⟨_, impossible⟩
  · exact ordered.level_eq_zero (sublist.subset isInput) inFile
  · have impossible := ordered.level_eq_zero (overlapped file isOverlapped) inFile
    omega
  · cases impossible

/-! ### Discharging -/

section Discharge

variable {compaction : Compaction K V} {tombstones : List (RangeTombstone K)} {low high : K}

omit [DecidableEq V] in
theorem sweepFor_spec (mem : tombstone ∈ tombstones) :
    ∃ low high, sweepFor extractUserKey compaction tombstones = some (low, high) ∧
      low ≤ tombstone.start ∧ tombstone.stop ≤ high := by
  have bounds : ∀ key ∈ [tombstone.start, tombstone.stop],
      key ∈ tombstones.flatMap fun tombstone => [tombstone.start, tombstone.stop] :=
    fun key isBound => mem_flatMap.mpr ⟨tombstone, mem, isBound⟩
  obtain ⟨range, isRange, least, -⟩ := rangeOf_isSome_of_mem (bounds tombstone.start (.head _))
  have most := (le_of_rangeOf (isRange : _ = some (range.1, range.2))
    (bounds tombstone.stop (.tail _ (.head _)))).2
  unfold sweepFor
  rw [isRange]
  cases rangeOf (compaction.allInputs.flatMap Table.points) with
  | none => exact ⟨_, _, rfl, least, most⟩
  | some input =>
    exact ⟨_, _, rfl, (min_le_left _ _).trans least, most.trans (le_max_left _ _)⟩

variable (inside : compaction.level + 1 < depth)
  (range : sweepFor extractUserKey compaction tombstones = some (low, high))
include inside range

theorem takes_discharge (below : compaction.level < level) :
    (db.discharge extractUserKey depth compaction tombstones).takes level file = true ↔
      level = compaction.level + 1 ∧ file ∈ compaction.outputsOverlapped ∨
        level < depth ∧ file ∈ db.overlapping level low high := by
  simp only [takes_iff, discharge, range, mem_append, mem_filter,
    mem_flatMap, mem_map, mem_range, decide_eq_true_eq, Prod.mk.injEq]
  grind

theorem mem_allInputs_discharge :
    file ∈ (db.discharge extractUserKey depth compaction tombstones).allInputs ↔
      file ∈ compaction.inputs ∨ file ∈ compaction.outputsOverlapped ∨
        ∃ deeper < depth, compaction.level < deeper ∧ file ∈ db.overlapping deeper low high := by
  simp only [Compaction.allInputs, discharge, range, mem_append, mem_filter,
    mem_flatMap, mem_map, mem_range, decide_eq_true_eq]
  grind

omit inside in
variable (depth db) in
theorem le_outputLevel_discharge (shallow : compaction.outputLevel = compaction.level + 1)
    (below : compaction.level < level) :
    level ≤ (db.discharge extractUserKey depth compaction tombstones).outputLevel ↔
      level = compaction.level + 1 ∨
        ∃ deeper < depth, level ≤ deeper ∧ db.overlapping deeper low high ≠ [] := by
  simp only [discharge, range, le_foldl_max_iff, mem_filter, mem_range,
    decide_eq_true_eq, Bool.not_eq_true', isEmpty_eq_false_iff]
  grind

omit inside in
variable (depth db) in
theorem discharge_inputs :
    (db.discharge extractUserKey depth compaction tombstones).level = compaction.level ∧
      (db.discharge extractUserKey depth compaction tombstones).inputs = compaction.inputs := by
  simp [discharge, range]

end Discharge

theorem sound_discharge (ordered : db.Ordered depth) (inside : level + 1 < depth)
    (chosen : seed.Sublist (db.files level))
    (carries : tombstone ∈ (db.assemble level seed).tombstones) :
    Sound depth db (db.discharge extractUserKey depth (db.assemble level seed)
      (db.assemble level seed).tombstones) := by
  have isZero := level_eq_zero_of_tombstone ordered chosen carries
  subst isZero
  obtain ⟨⟨sublist, closes⟩, overlapped⟩ := grow_spec ordered.firm chosen
  obtain ⟨low, high, range, -, -⟩ := @sweepFor_spec K V _ _ extractUserKey (db.assemble 0 seed) _
    carries
  obtain ⟨isLevel, isInputs⟩ := discharge_inputs depth db range
  have reaches {level : Nat} (below : 0 < level) :=
    le_outputLevel_discharge depth db range rfl below
  refine ⟨?_, ?_, ?_, ?_, ?_, ?_, ?_⟩
  · rw [isLevel, isInputs]
    exact fun file mem => sublist.subset mem
  · intro file mem
    simp only [discharge, range, mem_append] at mem ⊢
    rcases mem with old | new
    · exact overlapped file old
    · exact mem_of_mem_filter (mem_of_mem_filter new)
  · rintro ⟨below, file⟩ mem
    rw [isLevel]
    simp only [discharge, range, mem_flatMap, mem_map, mem_filter, mem_range,
      decide_eq_true_eq, Prod.mk.injEq] at mem
    obtain ⟨_, ⟨bounded, deeper⟩, _, inRange, rfl, rfl⟩ := mem
    have less := (Nat.lt_succ_self _).trans deeper
    exact ⟨mem_of_mem_filter inRange, less,
      (reaches less).mpr (.inr ⟨_, bounded, le_rfl, ne_nil_of_mem inRange⟩)⟩
  · rw [isLevel]
    exact (reaches (Nat.lt_succ_self 0)).mpr (.inl rfl)
  · by_contra outside
    rcases (reaches (Nat.lt_of_succ_lt inside)).mp (not_lt.mp outside) with isOne | deep
    · exact absurd inside isOne.not_gt
    · obtain ⟨deeper, less, above, -⟩ := deep
      exact absurd less above.not_gt
  · rw [isLevel, isInputs]
    exact closes
  · intro mark isMark below positive file inFiles key contains covers
    -- Files below level 0 have no tombstones, so the mark is one the sweep was made for.
    have original : mark ∈ (db.assemble 0 seed).tombstones := by
      obtain ⟨holder, inInputs, inHolder⟩ := mem_flatMap.mp isMark
      rcases (mem_allInputs_discharge inside range).mp inInputs with isInput | old |
        ⟨deeper, -, below, swept⟩
      · exact mem_flatMap.mpr ⟨holder, mem_allInputs.mpr (.inl isInput), inHolder⟩
      · cases ordered.level_eq_zero (overlapped holder old) inHolder
      · cases ordered.level_eq_zero (mem_of_mem_filter swept) inHolder
        cases below
    obtain ⟨first, last, sameRange, least, most⟩ :=
      @sweepFor_spec K V _ _ extractUserKey (db.assemble 0 seed) _ original
    rw [range] at sameRange
    cases sameRange
    have around := of_decide_eq_true contains
    have inSweep : file ∈ db.overlapping below low high :=
      mem_filter.mpr ⟨inFiles, file.overlaps_of_covers covers (least.trans around.1)
        (around.2.le.trans most)⟩
    exact (takes_discharge inside range positive).mpr
      (.inr ⟨ordered.lt_depth positive inFiles, inSweep⟩)

theorem sound_plan (ordered : db.Ordered depth) (inside : level + 1 < depth)
    (chosen : seed.Sublist (db.files level)) :
    Sound depth db (db.plan extractUserKey depth level seed) := by
  unfold plan
  split
  · rename_i none
    exact sound_assemble ordered inside chosen none
  rename_i some
  obtain ⟨tombstone, mem⟩ := exists_mem_of_ne_nil _ some
  exact sound_discharge ordered inside chosen mem

/-! ## What a compaction leaves -/

def taken (db : Db K V) (compaction : Compaction K V) : Set (Entry K V) :=
  {entry | ∃ level, ∃ file ∈ db.files level, compaction.takes level file = true ∧
    entry ∈ file.entries}

def spared (db : Db K V) (compaction : Compaction K V) : Set (Entry K V) :=
  {entry | (∃ table ∈ db.memtables, entry ∈ table.entries) ∨
    ∃ level, ∃ file ∈ db.files level, compaction.takes level file = false ∧ entry ∈ file.entries}

def entriesOf (files : List (Table K V)) : Set (Entry K V) :=
  {entry | ∃ file ∈ files, entry ∈ file.entries}

variable {compaction : Compaction K V} {outputs : List (Table K V)}

theorem held_eq (db : Db K V) (compaction : Compaction K V) :
    db.held = db.spared compaction ∪ db.taken compaction := by
  ext entry
  constructor
  · rintro (inMem | ⟨level, file, inFiles, mem⟩)
    · exact .inl (.inl inMem)
    cases takes : compaction.takes level file with
    | false => exact .inl (.inr ⟨level, file, inFiles, takes, mem⟩)
    | true => exact .inr ⟨level, file, inFiles, takes, mem⟩
  · rintro ((inMem | ⟨level, file, inFiles, -, mem⟩) | ⟨level, file, inFiles, -, mem⟩)
    · exact .inl inMem
    · exact .inr ⟨level, file, inFiles, mem⟩
    · exact .inr ⟨level, file, inFiles, mem⟩

theorem mem_files_compacted : file ∈ (db.compacted compaction outputs).files level ↔
      (file ∈ db.files level ∧ compaction.takes level file = false) ∨
        level = compaction.outputLevel ∧ file ∈ outputs := by
  unfold compacted
  dsimp only
  split
  · rename_i isOutput
    subst isOutput
    unfold placed
    rw [mem_insertionSort, mem_append, mem_filter, Bool.not_eq_true']
    simp only [true_and]
  · rename_i other
    rw [mem_filter, Bool.not_eq_true']
    simp only [other, false_and, or_false]

theorem held_compacted : (db.compacted compaction outputs).held =
    db.spared compaction ∪ entriesOf outputs := by
  ext entry
  constructor
  · rintro (inMem | ⟨level, file, inFiles, mem⟩)
    · exact .inl (.inl inMem)
    rcases mem_files_compacted.mp inFiles with ⟨old, spares⟩ | ⟨-, new⟩
    · exact .inl (.inr ⟨level, file, old, spares, mem⟩)
    · exact .inr ⟨file, new, mem⟩
  · rintro ((inMem | ⟨level, file, inFiles, spares, mem⟩) | ⟨file, new, mem⟩)
    · exact .inl inMem
    · exact .inr ⟨level, file, mem_files_compacted.mpr (.inl ⟨inFiles, spares⟩), mem⟩
    · exact .inr ⟨_, file, mem_files_compacted.mpr (.inr ⟨rfl, new⟩), mem⟩

theorem mem_merged (sound : Sound depth db compaction) :
    entry ∈ db.merged depth compaction ↔ entry ∈ db.taken compaction := by
  have inside := sound.inside
  unfold merged
  rw [mem_insertionSort, mem_flatMap]
  constructor
  · rintro ⟨level, -, inLevel⟩
    obtain ⟨file, isTaken, mem⟩ := mem_flatMap.mp inLevel
    obtain ⟨inFiles, takes⟩ := mem_filter.mp isTaken
    exact ⟨level, file, inFiles, takes, mem⟩
  · rintro ⟨level, file, inFiles, takes, mem⟩
    obtain ⟨-, -, above, -⟩ := sound.level_of_takes takes
    exact ⟨level, mem_range.mpr (by omega),
      mem_flatMap.mpr ⟨file, mem_filter.mpr ⟨inFiles, takes⟩, mem⟩⟩

end Db

instance : Std.Total (NotAfter : Entry K V → Entry K V → Prop) := ⟨fun left right => by
  unfold NotAfter
  rcases lt_trichotomy left.key right.key with below | same | above
  · exact .inl (.inl below)
  · rcases Nat.le_total left.seqno right.seqno with older | newer
    · exact .inr (.inr ⟨same.symm, older⟩)
    · exact .inl (.inr ⟨same, newer⟩)
  · exact .inr (.inl above)⟩

instance : IsTrans (Entry K V) NotAfter := ⟨fun first second third left right => by
  unfold NotAfter at left right ⊢
  rcases left with below | ⟨same, newer⟩
  · rcases right with belowNext | ⟨sameNext, -⟩
    · exact .inl (below.trans belowNext)
    · exact .inl (sameNext ▸ below)
  rcases right with belowNext | ⟨sameNext, newerNext⟩
  · exact .inl (same ▸ belowNext)
  · exact .inr ⟨same.trans sameNext, newerNext.trans newer⟩⟩

namespace Db

variable {depth : Nat} {db : Db K V} {compaction : Compaction K V} {outputs : List (Table K V)}

theorem merged_sorted (ordered : db.Ordered depth) (compaction : Compaction K V) :
    Sorted (db.merged depth compaction) := by
  let Apart (left right : Entry K V) : Prop := left.key = right.key → left.seqno ≠ right.seqno
  have ofShadows : ∀ {first second : Table K V}, Shadows first second →
      ∀ left ∈ first.entries, ∀ right ∈ second.entries, Apart left right :=
    fun shadows left inFirst right inSecond same =>
      ((shadows left inFirst).1 right inSecond same).ne'
  have apart : ((List.range depth).flatMap fun level =>
      ((db.files level).filter fun file => compaction.takes level file).flatMap
        Table.entries).Pairwise Apart := by
    rw [pairwise_flatMap]
    constructor
    · intro level _
      rw [pairwise_flatMap]
      constructor
      · intro file isTaken
        exact List.Pairwise.imp (fun precedes same => (precedes.newer same).ne')
          (ordered.fileSorted level file (mem_of_mem_filter isTaken))
      refine List.Pairwise.filter _ ?_
      rcases Nat.eq_zero_or_pos level with isZero | positive
      · subst isZero
        exact ordered.zeroOrder.imp ofShadows
      · exact (ordered.apart level positive).imp fun before left inFirst right inSecond same =>
          absurd same (before left inFirst right inSecond).ne
    · refine pairwise_lt_range.imp fun {level below} lower left inLevel right inBelow => ?_
      obtain ⟨file, isTaken, inFile⟩ := mem_flatMap.mp inLevel
      obtain ⟨next, isNext, inNext⟩ := mem_flatMap.mp inBelow
      exact ofShadows (ordered.levelOrder level below lower file (mem_of_mem_filter isTaken)
        next (mem_of_mem_filter isNext)) left inFile right inNext
  have sortedApart := apart.perm (perm_insertionSort NotAfter _).symm
    fun {left right} apart same => (apart same.symm).symm
  refine (sortedApart.and (pairwise_insertionSort NotAfter _)).imp ?_
  rintro left right ⟨different, notAfter⟩
  rcases notAfter with below | ⟨same, newer⟩
  · exact .inl below
  · exact .inr ⟨same, lt_of_le_of_ne newer (different same).symm⟩

variable {left right : Table K V} {first second other : Entry K V} {snapshot : Nat}

omit [LinearOrder K] [DecidableEq V] in
theorem key_ne_of_whole (whole : KeepsKeysWhole files) (inLeft : left ∈ files)
    (inRight : right ∈ files) (different : left ≠ right) (isFirst : first ∈ left.entries)
    (isSecond : second ∈ right.entries) : first.key ≠ second.key := by
  let Parted (left right : Table K V) : Prop :=
    ∀ first ∈ left.entries, ∀ second ∈ right.entries, first.key ≠ second.key
  have symmetric : Std.Symm Parted :=
    ⟨fun _ _ parted first inFirst second inSecond => (parted second inSecond first inFirst).symm⟩
  have parted : files.Pairwise Parted := whole
  exact parted.forall inLeft inRight different first isFirst second isSecond

omit [DecidableEq V] in
theorem key_ne_of_apart (apart : files.Pairwise Before) (inLeft : left ∈ files)
    (inRight : right ∈ files) (different : left ≠ right) (isFirst : first ∈ left.entries)
    (isSecond : second ∈ right.entries) : first.key ≠ second.key :=
  key_ne_of_whole (apart.imp fun before first inFirst second inSecond =>
    (before first inFirst second inSecond).ne) inLeft inRight different isFirst isSecond

theorem covers_ne_taken (sound : Sound depth db compaction) (free : ¬db.Intruded compaction)
    (inFiles : file ∈ db.files compaction.outputLevel)
    (spares : compaction.takes compaction.outputLevel file = false)
    (isTaken : entry ∈ db.taken compaction) : ¬file.covers entry.key = true := by
  intro covers
  obtain ⟨level, source, -, takes, inSource⟩ := isTaken
  have inInputs := (sound.level_of_takes takes).2.2.2
  obtain ⟨range, isRange, least, most⟩ := rangeOf_isSome_of_mem
    (mem_flatMap.mpr ⟨source, inInputs, source.key_mem_points inSource⟩ :
      entry.key ∈ compaction.allInputs.flatMap Table.points)
  exact free ⟨file, inFiles, by simp [spares], range, isRange,
    file.overlaps_of_covers covers least most⟩

/-- A version left where it is is newer than those of its key that are taken, unless it lies
below the output. -/
theorem spared_newer (ordered : db.Ordered depth) (sound : Sound depth db compaction)
    (free : ¬db.Intruded compaction) (sweeps : db.Sweeps compaction)
    (isTaken : entry ∈ db.taken compaction) (isSpared : other ∈ db.spared compaction)
    (same : other.key = entry.key) :
    entry.seqno < other.seqno ∨ ∃ below, compaction.outputLevel < below ∧
      ∃ file ∈ db.files below, other ∈ file.entries := by
  have isMoved := isTaken
  obtain ⟨level, file, inFiles, takes, inFile⟩ := isTaken
  obtain ⟨-, low, high, -⟩ := sound.level_of_takes takes
  rcases isSpared with ⟨table, inMem, inTable⟩ | ⟨place, home, inHome, spares, mem⟩
  · exact .inl ((ordered.memNewer table inMem level file inFiles other inTable).1 entry inFile same)
  have covers : home.covers entry.key = true := same ▸ home.covers_of_entry mem
  rcases Nat.lt_trichotomy place level with above | isLevel | below
  · exact .inl ((ordered.levelOrder place level above home inHome file inFiles other mem).1 entry
      inFile same)
  · -- In one level only one file has the key.
    subst isLevel
    exfalso
    rcases Nat.eq_zero_or_pos place with isZero | positive
    · subst isZero
      have isFirst := sound.level_eq_zero takes
      have closed := sound.closed isFirst home inHome file (sound.input_of_takes takes) entry.key
        covers (file.covers_of_entry inFile)
      simp [Compaction.takes, isFirst, closed] at spares
    · have different : home ≠ file := by
        rintro rfl
        rw [takes] at spares
        cases spares
      exact key_ne_of_apart (ordered.apart place positive) inHome inFiles different mem inFile same
  · rcases Nat.lt_trichotomy place compaction.outputLevel with between | isOutput | deep
    · have uncovered := sweeps place home (by omega) between inHome (by simp [spares]) level file
        inFiles takes below entry inFile
      rw [covers] at uncovered
      cases uncovered
    · subst isOutput
      exact absurd covers (covers_ne_taken sound free inHome spares isMoved)
    · exact .inr ⟨place, deep, home, inHome, mem⟩

theorem written_spec (ordered : db.Ordered depth) (sound : Sound depth db compaction)
    (written : db.Writes depth compaction outputs) :
    (∀ file ∈ outputs, Sorted file.entries ∧ file.entries ≠ [] ∧ file.tombstones = []) ∧
      entriesOf outputs ⊆ db.taken compaction := by
  unfold Writes at written
  split at written
  · rename_i moves
    obtain ⟨-, none, -⟩ := moves
    subst written
    constructor
    · intro file isInput
      have inFiles := sound.inputs file isInput
      have bare : file.tombstones = [] := flatMap_eq_nil_iff.mp none file
        (mem_allInputs.mpr (.inl isInput))
      refine ⟨ordered.fileSorted _ file inFiles, ?_, bare⟩
      rcases Nat.eq_zero_or_pos compaction.level with isZero | positive
      · intro noEntries
        rw [isZero] at inFiles
        refine ordered.firm file inFiles ?_
        rw [Table.points, noEntries, bare]
        rfl
      · exact (ordered.solid _ positive file inFiles).1
    · rintro entry ⟨file, isInput, mem⟩
      exact ⟨compaction.level, file, sound.inputs file isInput,
        takes_iff.mpr (.inl ⟨rfl, isInput⟩), mem⟩
  · obtain ⟨cut, files⟩ := written
    have sublist := (db.job depth compaction).run_sublist none (db.merged depth compaction)
    rw [← cut] at sublist
    have sorted := (merged_sorted ordered compaction).sublist sublist
    constructor
    · intro file isOutput
      exact ⟨(pairwise_flatMap.mp sorted).1 file isOutput, files file isOutput⟩
    · rintro entry ⟨file, isOutput, mem⟩
      exact (mem_merged sound).mp (sublist.subset (mem_flatMap.mpr ⟨file, isOutput, mem⟩))

omit [DecidableEq V] in
theorem precedes_of_checkDisjoint (sorted : ∀ file ∈ files, Sorted file.entries ∧ file.entries ≠ [])
    (disjoint : CheckDisjoint files) : files.Pairwise fun left right =>
      ∀ first ∈ left.entries, ∀ second ∈ right.entries, Precedes first second := by
  induction files with
  | nil => exact .nil
  | cons left rest ih =>
    rw [forall_mem_cons] at sorted
    cases rest with
    | nil => exact pairwise_singleton _ _
    | cons next rest =>
      obtain ⟨ends, others⟩ := isChain_cons_cons.mp disjoint
      have further := ih sorted.2 others
      have isLast := getLast?_eq_some_getLast sorted.1.2
      obtain ⟨start, later, isNext⟩ :=
        exists_cons_of_ne_nil (sorted.2 next (.head _)).2
      have boundary := ends _ isLast start (by rw [isNext]; rfl)
      have untilStart : ∀ first ∈ left.entries, Precedes first start := by
        intro first mem
        rcases sorted.1.1.le_getLast isLast mem with isOne | precedes
        · exact isOne ▸ boundary
        · exact precedes.trans boundary
      refine pairwise_cons.mpr ⟨fun right mem first inLeft second inRight => ?_, further⟩
      rcases mem_cons.mp mem with isRight | inRest
      · subst isRight
        have inOrder := (sorted.2 right (.head _)).1
        unfold Sorted at inOrder
        rw [isNext, pairwise_cons] at inOrder
        rw [isNext] at inRight
        rcases mem_cons.mp inRight with isStart | afterStart
        · exact isStart ▸ untilStart first inLeft
        · exact (untilStart first inLeft).trans (inOrder.1 second afterStart)
      · exact (untilStart first inLeft).trans ((pairwise_cons.mp further).1 right inRest start
          (by rw [isNext]; exact .head _) second inRight)

section Compacting

variable (inv : Invariant depth db) (sound : Sound depth db compaction)
  (written : db.Writes depth compaction outputs) (free : ¬db.Intruded compaction)
  (accepted : CheckDisjoint (db.placed compaction outputs)) (whole : KeepsKeysWhole outputs)
  (sweeps : db.Sweeps compaction)

include inv sound in
theorem marks_compacted : db.marks =
    (db.compacted compaction outputs).marks ∪ {tombstone | tombstone ∈ compaction.tombstones} := by
  have deeper := sound.deeper
  ext tombstone
  constructor
  · rintro (inMem | ⟨file, inFiles, mem⟩)
    · exact .inl (.inl inMem)
    cases takes : compaction.takes 0 file with
    | false => exact .inl (.inr ⟨file, mem_files_compacted.mpr (.inl ⟨inFiles, takes⟩), mem⟩)
    | true =>
      obtain ⟨-, -, -, inInputs⟩ := sound.level_of_takes takes
      exact .inr (mem_flatMap.mpr ⟨file, inInputs, mem⟩)
  · rintro ((inMem | ⟨file, inFiles, mem⟩) | isInput)
    · exact .inl inMem
    · rcases mem_files_compacted.mp inFiles with ⟨old, -⟩ | ⟨isOutput, -⟩
      · exact .inr ⟨file, old, mem⟩
      · omega
    obtain ⟨file, inInputs, mem⟩ := mem_flatMap.mp isInput
    obtain ⟨level, inFiles, -⟩ := sound.takes_of_allInputs inInputs
    exact Invariant.mark_of_file inv.ordered inFiles mem

include inv sound in
/-- What is left where it is and lies under a discharged tombstone was written after it. -/
theorem spared_after_tombstone (isInput : tombstone ∈ compaction.tombstones)
    (isSpared : other ∈ db.spared compaction) (contains : tombstone.contains other.key = true) :
    tombstone.seqno < other.seqno := by
  have ordered := inv.ordered
  obtain ⟨holder, inInputs, inHolder⟩ := mem_flatMap.mp isInput
  obtain ⟨level, inFiles, takes⟩ := sound.takes_of_allInputs inInputs
  cases ordered.level_eq_zero inFiles inHolder
  rcases isSpared with ⟨table, inMem, inTable⟩ | ⟨place, home, inHome, spares, mem⟩
  · exact (ordered.memNewer table inMem 0 holder inFiles other inTable).2 tombstone inHolder
  exfalso
  have covers := home.covers_of_entry mem
  rcases Nat.eq_zero_or_pos place with isZero | positive
  · subst isZero
    have shared : home ∈ compaction.inputs := sound.closed (sound.level_eq_zero takes) home inHome
      holder (sound.input_of_takes takes) other.key covers
      (holder.covers_of_tombstone inHolder contains)
    simp [Compaction.takes, sound.level_eq_zero takes, shared] at spares
  · rw [sound.swept tombstone isInput place positive home inHome other.key contains covers] at spares
    cases spares

include inv sound written free sweeps in
theorem sees_compacted (dischargeable : ∀ tombstone ∈ compaction.tombstones,
      tombstone.seqno ≤ db.compactionFloor) (reaches : db.compactionFloor ≤ snapshot) {key : K}
    {value : V} :
    Sees (db.compacted compaction outputs).held (db.compacted compaction outputs).marks key snapshot
      value ↔ Sees db.held db.marks key snapshot value := by
  have ordered := inv.ordered
  have subset := (written_spec ordered sound written).2
  rw [@marks_compacted K V _ _ depth db compaction outputs inv sound, held_eq db compaction, held_compacted]
  unfold Writes at written
  split at written
  · -- A file that is only moved keeps its entries.
    rename_i moves
    obtain ⟨trivial, none, -⟩ := moves
    have alone := of_decide_eq_true trivial
    have same : db.taken compaction = entriesOf outputs := by
      refine Set.Subset.antisymm ?_ subset
      rintro entry ⟨level, file, inFiles, takes, mem⟩
      simp only [Compaction.takes, alone.2.1, alone.2.2.1, not_mem_nil, and_false,
        decide_false, Bool.or_false, decide_eq_true_eq] at takes
      exact ⟨file, written ▸ takes.2, mem⟩
    rw [same, none]
    refine Sees.congr (fun _ _ _ => Iff.rfl) fun tombstone _ _ => ?_
    exact (or_iff_left not_mem_nil).symm
  · obtain ⟨cut, -⟩ := written
    have inputs : db.taken compaction = {entry | entry ∈ db.merged depth compaction} :=
      Set.ext fun _ => (mem_merged sound).symm
    have kept : entriesOf outputs =
        {entry | entry ∈ (db.job depth compaction).run none (db.merged depth compaction)} := by
      ext entry
      rw [← cut, Set.mem_ofPred, mem_flatMap]
      rfl
    have settled : {tombstone | tombstone ∈ compaction.tombstones} =
        {tombstone | tombstone ∈ compaction.tombstones ∧ tombstone.seqno ≤ db.compactionFloor} :=
      Set.ext fun tombstone => (and_iff_left_of_imp (dischargeable tombstone)).symm
    rw [inputs, kept, settled]
    refine @Job.sees_run_iff K V _ (db.job depth compaction) _ snapshot key value
      (merged_sorted ordered compaction) (db.spared compaction) ?_ ?_ _ reaches
    · intro entry inMerged bottom other isSpared same
      rcases spared_newer ordered sound free sweeps ((mem_merged sound).mp inMerged) isSpared same
        with newer | ⟨below, deep, file, inFiles, mem⟩
      · exact newer.le
      -- A delete is forgotten only if no file below the output covers its key.
      have bounded := ordered.lt_depth (Nat.zero_lt_of_lt deep) inFiles
      have empty := all_eq_true.mp bottom below (mem_range.mpr bounded)
      rw [Bool.or_eq_true, decide_eq_true_eq, List.isEmpty_iff] at empty
      rcases empty with shallow | none
      · omega
      have covers : file ∈ db.overlapping below entry.key entry.key :=
        mem_filter.mpr ⟨inFiles, same ▸ file.covers_of_entry mem⟩
      rw [none] at covers
      cases covers
    · intro tombstone isInput _ other isSpared inside
      exact (spared_after_tombstone inv sound isInput isSpared inside).le

include inv sound written free accepted whole sweeps in
theorem ordered_compacted : (db.compacted compaction outputs).Ordered depth := by
  have ordered := inv.ordered
  have deeper := sound.deeper
  have inside := sound.inside
  obtain ⟨files, subset⟩ := written_spec ordered sound written
  have filtered : ∀ level, level ≠ compaction.outputLevel →
      (db.compacted compaction outputs).files level =
        (db.files level).filter fun file => !compaction.takes level file :=
    fun level other => if_neg other
  have sortedAt : ∀ level, ∀ file ∈ (db.compacted compaction outputs).files level,
      Sorted file.entries := by
    intro level file inFiles
    rcases mem_files_compacted.mp inFiles with ⟨old, -⟩ | ⟨-, new⟩
    · exact ordered.fileSorted level file old
    · exact (files file new).1
  have solid : ∀ level, 0 < level → ∀ file ∈ (db.compacted compaction outputs).files level,
      file.entries ≠ [] ∧ file.tombstones = [] := by
    intro level positive file inFiles
    rcases mem_files_compacted.mp inFiles with ⟨old, -⟩ | ⟨-, new⟩
    · exact ordered.solid level positive file old
    · exact (files file new).2
  have noMarks : ∀ file ∈ outputs, ∀ tombstone ∈ file.tombstones, False := by
    intro file new tombstone mem
    rw [(files file new).2.2] at mem
    cases mem
  refine ⟨ordered.memSorted, sortedAt, ordered.memOrder, ?_, ?_, ?_, ?_, solid, ?_, ?_⟩
  · intro table inMem level file inFiles
    rcases mem_files_compacted.mp inFiles with ⟨old, -⟩ | ⟨-, new⟩
    · exact ordered.memNewer table inMem level file old
    intro newer inTable
    refine ⟨fun older mem same => ?_, fun tombstone mem =>
      (noMarks file new tombstone mem).elim⟩
    obtain ⟨origin, source, inSource, -, inOrigin⟩ := subset ⟨file, new, mem⟩
    exact (ordered.memNewer table inMem origin source inSource newer inTable).1 older inOrigin same
  · rw [filtered 0 (by omega)]
    exact ordered.zeroOrder.filter _
  · intro level below lower file inFiles next inNext
    rcases mem_files_compacted.mp inFiles with ⟨old, spares⟩ | ⟨isOutput, new⟩
    · rcases mem_files_compacted.mp inNext with ⟨oldNext, -⟩ | ⟨isOutput, newNext⟩
      · exact ordered.levelOrder level below lower file old next oldNext
      -- A file above the output is newer than what was moved past it.
      intro newer inFile
      refine ⟨fun older mem same => ?_, fun tombstone mem =>
        (noMarks next newNext tombstone mem).elim⟩
      have isTaken := subset ⟨next, newNext, mem⟩
      have isSpared : newer ∈ db.spared compaction := .inr ⟨level, file, old, spares, inFile⟩
      rcases spared_newer ordered sound free sweeps isTaken isSpared same with
        isNewer | ⟨deep, past, other, inOther, twice⟩
      · exact isNewer
      have impossible := (ordered.levelOrder level deep (by omega) file old other inOther newer
        inFile).1 newer twice rfl
      omega
    · rcases mem_files_compacted.mp inNext with ⟨oldNext, -⟩ | ⟨isAlso, -⟩
      · intro newer inFile
        obtain ⟨origin, source, inSource, takes, inOrigin⟩ := subset ⟨file, new, inFile⟩
        obtain ⟨-, -, high, -⟩ := sound.level_of_takes takes
        exact ordered.levelOrder origin below (by omega) source inSource next oldNext newer inOrigin
      · omega
  · intro level positive
    by_cases isOutput : level = compaction.outputLevel
    · -- The accepted edit is in internal order; no user key is in two of its files.
      subst isOutput
      have isPlaced : (db.compacted compaction outputs).files compaction.outputLevel =
          db.placed compaction outputs := if_pos rfl
      have inOrder := precedes_of_checkDisjoint (fun file mem =>
        ⟨sortedAt _ file (isPlaced ▸ mem), (solid _ positive file (isPlaced ▸ mem)).1⟩) accepted
      rw [isPlaced]
      refine inOrder.imp_of_mem fun {left right} inLeft inRight precedes first isFirst second isSecond =>
        lt_of_le_of_ne (precedes first isFirst second isSecond).key_le fun same => ?_
      have different : left ≠ right := by
        rintro rfl
        rcases precedes first isFirst first isFirst with below | ⟨-, newer⟩
        · exact lt_irrefl _ below
        · omega
      rw [← isPlaced] at inLeft inRight
      -- A file that stays cannot share a key with what is written beside it.
      have noShare : ∀ file ∈ db.files compaction.outputLevel,
          compaction.takes compaction.outputLevel file = false → ∀ entry ∈ file.entries,
          ∀ output ∈ outputs, ∀ moved ∈ output.entries, entry.key ≠ moved.key := by
        intro file inFiles spares entry inFile output isOutput moved inOutput same
        exact covers_ne_taken sound free inFiles spares (subset ⟨output, isOutput, inOutput⟩)
          (same ▸ file.covers_of_entry inFile)
      rcases mem_files_compacted.mp inLeft with ⟨oldLeft, sparesLeft⟩ | ⟨-, newLeft⟩
      · rcases mem_files_compacted.mp inRight with ⟨oldRight, -⟩ | ⟨-, newRight⟩
        · exact key_ne_of_apart (ordered.apart _ positive) oldLeft oldRight different isFirst isSecond
            same
        · exact noShare left oldLeft sparesLeft first isFirst right newRight second isSecond same
      · rcases mem_files_compacted.mp inRight with ⟨oldRight, sparesRight⟩ | ⟨-, newRight⟩
        · exact noShare right oldRight sparesRight second isSecond left newLeft first isFirst same.symm
        · exact key_ne_of_whole whole newLeft newRight different isFirst isSecond same
    · rw [filtered level isOutput]
      exact (ordered.apart level positive).filter _
  · intro file inFiles
    rw [filtered 0 (by omega)] at inFiles
    exact ordered.firm file (mem_of_mem_filter inFiles)
  · intro level positive outside
    rw [filtered level (by omega), ordered.shallow level positive outside]
    rfl

end Compacting

/-! ## Runs -/

namespace Invariant

omit [DecidableEq V] in
theorem compactionFloor_le (inv : Invariant depth db)
    (live : snapshot ∈ db.snapshots ∨ snapshot = db.visible) : db.compactionFloor ≤ snapshot := by
  unfold compactionFloor
  cases least : db.snapshots.min? with
  | none =>
    rw [min?_eq_none_iff] at least
    rcases live with mem | current
    · rw [least] at mem
      cases mem
    · exact current.ge
  | some oldest =>
    obtain ⟨isOne, atMost⟩ := min?_eq_some_iff.mp least
    rcases live with mem | current
    · exact atMost snapshot mem
    · exact (inv.snapshotsBelow oldest isOne).trans current.ge

theorem compact (inv : Invariant depth db) (sound : Sound depth db compaction)
    (dischargeable : ∀ tombstone ∈ compaction.tombstones, tombstone.seqno ≤ db.compactionFloor)
    (written : db.Writes depth compaction outputs) (free : ¬db.Intruded compaction)
    (accepted : CheckDisjoint (db.placed compaction outputs)) (whole : KeepsKeysWhole outputs)
    (sweeps : db.Sweeps compaction) : Invariant depth (db.compacted compaction outputs) := by
  have subset := (written_spec inv.ordered sound written).2
  refine ⟨ordered_compacted inv sound written free accepted whole sweeps, ?_, ?_,
    inv.entriesBelow, inv.tombstonesBelow, inv.snapshotsBelow, ?_⟩
  · intro entry mem
    refine inv.heldBelow entry ?_
    rw [held_compacted] at mem
    rw [held_eq db compaction]
    exact mem.imp_right fun isOutput => subset isOutput
  · intro tombstone mem
    refine inv.marksBelow tombstone ?_
    rw [@marks_compacted K V _ _ depth db compaction outputs inv sound]
    exact .inl mem
  · intro snapshot live key value
    rw [sees_compacted inv sound written free sweeps dischargeable (inv.compactionFloor_le live)]
    exact inv.agrees snapshot live key value

theorem step {extractUserKey : K → K} {after : Db K V} (inv : Invariant depth db)
    (taken : Step False extractUserKey depth db after) : Invariant depth after := by
  cases taken with
  | write ops => exact inv.write ops
  | acquire =>
    refine inv.of_same { inv.ordered with } rfl rfl rfl rfl fun snapshot mem => ?_
    rcases mem_cons.mp mem with isNew | old
    · exact .inr isNew
    · exact .inl old
  | release snapshot =>
    exact inv.of_same { inv.ordered with } rfl rfl rfl rfl fun _ mem => .inl (mem_of_mem_erase mem)
  | switch => exact inv.switch
  | flush oldest => exact inv.flush oldest
  | compact inside chosen compaction planned dischargeable written free accepted whole swept =>
    subst planned
    exact inv.compact (sound_plan inv.ordered inside chosen) dischargeable written free
      accepted (whole.resolve_left id) (swept.resolve_left id)

theorem run {after : Db K V} (inv : Invariant depth db)
    (taken : Run False extractUserKey depth db after) : Invariant depth after := by
  induction taken with
  | refl => exact inv
  | tail _ last ih => exact ih.step last

end Invariant

/-- A read at a live snapshot, or at the current sequence number, returns the newest put that
nothing later hides. -/
theorem get_eq_newest_write {extractUserKey : K → K}
    (run : Run False extractUserKey depth empty db) {snapshot : Nat}
    (live : snapshot ∈ db.snapshots ∨ snapshot = db.visible) (key : K) (value : V) :
    db.get depth key snapshot = some value ↔ db.history.Shows key snapshot value := by
  have invariant := (Invariant.empty depth).run run
  rw [invariant.ordered.get_eq_some_iff]
  exact invariant.agrees snapshot live key value

/-- A run with a compaction that keeps two versions of a key for an older snapshot. -/
theorem get_after_compaction :
    ∃ db : Db Nat Nat, Run False id 7 empty db ∧ 1 ∈ db.snapshots ∧ db.files 1 ≠ [] ∧
      (db.get 7 0 1 = some 10 ↔ db.history.Shows 0 1 10) ∧ db.get 7 0 1 = some 10 := by
  let old : Table Nat Nat := ⟨[⟨0, 1, some 10⟩], []⟩
  let new : Table Nat Nat := ⟨[⟨0, 2, some 20⟩], []⟩
  let both : Table Nat Nat := ⟨[⟨0, 2, some 20⟩, ⟨0, 1, some 10⟩], []⟩
  have first := (((Relation.ReflTransGen.refl : Run False id 7 (empty : Db Nat Nat) empty).tail
    (.write _ [.put 0 10])).tail (.acquire _)).tail (.switch _)
  have second := ((first.tail (@Step.flush Nat Nat _ _ _ _ _ _ old [] rfl)).tail
    (.write _ [.put 0 20])).tail (.switch _)
  have flushed := second.tail (@Step.flush Nat Nat _ _ _ _ _ _ new [] rfl)
  have compacted := flushed.tail (@Step.compact Nat Nat _ _ False id 7 _ 0 [new] [both] (by decide)
    (by decide) _ rfl (by decide +kernel) (by decide +kernel) (by decide +kernel)
    (by decide +kernel) (.inr (pairwise_singleton _ _))
    (.inr fun level file above below => absurd (Nat.lt_of_le_of_lt (Nat.succ_le_of_lt above) below)
      (by decide +kernel)))
  exact ⟨_, compacted, by decide +kernel, by decide +kernel,
    get_eq_newest_write compacted (.inl (by decide +kernel)) 0 10, by decide +kernel⟩

end Db

end Esker.Engine.Levels
