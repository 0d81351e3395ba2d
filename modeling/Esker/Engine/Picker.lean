import Esker.Engine.LevelCompaction
import Mathlib

/-!
Contract: what a compaction plan leaves behind (`Picker::pick` and `Picker::discharge` of
`esker-engine/src/compaction/picker.rs`, over the `overlapping` and `range_of` of
`version/mod.rs`).

Owns: the file a pick starts from, when a plan keeps versions in the order of the levels, and
when a discharge takes every file it writes past.

Which level is due is left open: the results are about every level and pointer.
-/

namespace Esker.Engine.Levels

open List

variable {K V : Type} [LinearOrder K]

namespace Table

variable {table : Table K V} {low high : K}

theorem beyond_of_not_overlaps (outside : table.overlaps low high = false) :
    (∀ entry ∈ table.entries, entry.key < low) ∨ ∀ entry ∈ table.entries, high < entry.key := by
  unfold overlaps at outside
  cases range : rangeOf table.points with
  | none =>
    refine .inl fun entry mem => ?_
    obtain ⟨_, found, -⟩ := rangeOf_isSome_of_mem (key_mem_points mem)
    simp [range] at found
  | some bounds =>
    have within := fun entry mem => le_of_rangeOf range (@key_mem_points K V table entry mem)
    simp only [range, decide_eq_false_iff_not, not_and_or, not_le] at outside
    exact outside.imp (fun below entry mem => (within entry mem).2.trans_lt below)
      fun above entry mem => above.trans_le (within entry mem).1

theorem entries_of_overlaps (bare : table.tombstones = []) (inside : table.overlaps low high) :
    (∃ entry ∈ table.entries, low ≤ entry.key) ∧ ∃ entry ∈ table.entries, entry.key ≤ high := by
  unfold overlaps at inside
  cases range : rangeOf table.points with
  | none => simp [range] at inside
  | some bounds =>
    obtain ⟨smallest, largest⟩ := rangeOf_mem range
    simp only [range, decide_eq_true_eq] at inside
    simp only [points, bare, flatMap_nil, append_nil, mem_map] at smallest largest
    obtain ⟨first, isFirst, least⟩ := smallest
    obtain ⟨last, isLast, most⟩ := largest
    exact ⟨⟨last, isLast, most ▸ inside.1⟩, first, isFirst, least ▸ inside.2⟩

theorem overlaps_mono {first last : K} (overlaps : table.overlaps first last = true)
    (below : low ≤ first) (above : last ≤ high) : table.overlaps low high = true := by
  unfold Table.overlaps at overlaps ⊢
  cases range : rangeOf table.points with
  | none => simp [range] at overlaps
  | some bounds =>
    simp only [range, decide_eq_true_eq] at overlaps ⊢
    exact ⟨below.trans overlaps.1, overlaps.2.trans above⟩

end Table

/-! ## Picking -/

/-- One file ends before the other begins, in internal order. -/
def Apart (left right : Table K V) : Prop :=
  (∀ first ∈ left.entries, ∀ second ∈ right.entries, Precedes first second) ∨
    ∀ first ∈ left.entries, ∀ second ∈ right.entries, Precedes second first

/-- Of every key, the first file has newer versions than the second. -/
def Newer (left right : Table K V) : Prop :=
  ∀ entry ∈ left.entries, ∀ older ∈ right.entries, entry.key = older.key → older.seqno < entry.seqno

theorem apart_symm : Std.Symm (Apart : Table K V → Table K V → Prop) :=
  ⟨fun _ _ apart => apart.symm.imp (fun all first inFirst second inSecond =>
    all second inSecond first inFirst) fun all first inFirst second inSecond =>
    all second inSecond first inFirst⟩

variable {entries : List (Entry K V)} {entry : Entry K V}

theorem Sorted.le_last (sorted : Sorted entries) {last : Entry K V}
    (isLast : last ∈ entries.getLast?) (mem : entry ∈ entries) : entry.key ≤ last.key := by
  obtain ⟨front, rfl⟩ := getLast?_eq_some_iff.mp isLast
  rcases mem_append.mp mem with earlier | isOne
  · exact ((pairwise_append.mp sorted).2.2 entry earlier last (.head _)).key_le
  · rw [mem_singleton.mp isOne]

theorem Sorted.first_le (sorted : Sorted entries) {first : Entry K V}
    (isFirst : first ∈ entries.head?) (mem : entry ∈ entries) : first.key ≤ entry.key := by
  obtain ⟨rest, rfl⟩ := head?_eq_some_iff.mp isFirst
  rcases mem_cons.mp mem with isOne | later
  · rw [isOne]
  · exact ((pairwise_cons.mp sorted).1 entry later).key_le

namespace Db

/-- The first file that ends past the pointer, or the first of all. -/
def pickStart (files : List (Table K V)) (pointer : Option K) : Option (Table K V) :=
  (pointer.bind fun pointer => files.find? fun file =>
    (rangeOf file.points).any fun range => decide (pointer < range.2)).or files.head?

def pick (db : Db K V) (level : Nat) (pointer : Option K) : Option (Compaction K V) :=
  (pickStart (db.files level) pointer).map fun start => db.assemble level [start]

/-- Levels below 0 are disjoint in internal order, and shallower levels and newer files of level 0
hold the newer versions. Only files of level 0 have tombstones. -/
structure Layered (db : Db K V) : Prop where
  sorted : ∀ level, ∀ file ∈ db.files level, Sorted file.entries
  firm : ∀ file ∈ db.files 0, file.points ≠ []
  bare : ∀ level, 0 < level → ∀ file ∈ db.files level, file.tombstones = []
  disjoint : ∀ level, 0 < level → (db.files level).Pairwise Apart
  newerFiles : (db.files 0).Pairwise Newer
  newerLevels : ∀ level below, level < below → ∀ file ∈ db.files level,
    ∀ lower ∈ db.files below, Newer file lower

/-- A picked file ends with a user key with whose older versions a file left in its level begins. -/
def Splits (db : Db K V) (plan : Compaction K V) : Prop :=
  ∃ taken ∈ plan.inputs, ∃ file ∈ db.files plan.level, file ∉ plan.inputs ∧
    ∃ last ∈ taken.entries.getLast?, ∃ first ∈ file.entries.head?,
      last.key = first.key ∧ first.seqno < last.seqno

variable {db : Db K V} {level : Nat} {seed : List (Table K V)}

theorem grow_overlapped :
    (db.grow level seed).2 = db.overlappedBy (level + 1) (db.grow level seed).1 := by
  unfold grow
  dsimp only
  split
  · rfl
  · split <;> rfl

variable {file : Table K V}

theorem mem_allInputs_assemble : file ∈ (db.assemble level seed).allInputs ↔
    file ∈ (db.grow level seed).1 ∨ file ∈ (db.grow level seed).2 := by
  simp [Compaction.allInputs, assemble]

namespace Layered

variable (layered : db.Layered)
include layered

theorem apart {left right : Table K V} (below : 0 < level) (inLeft : left ∈ db.files level)
    (inRight : right ∈ db.files level) (different : left ≠ right) : Apart left right :=
  have := @apart_symm K V _
  (layered.disjoint level below).forall inLeft inRight different

variable {taken : Table K V}

/-- Where a file ends before another begins, they share a key only if it is the last of the one
and the first of the other. -/
theorem newer_of_whole (inTaken : taken ∈ db.files level) (inFile : file ∈ db.files level)
    (apart : Apart taken file)
    (whole : ∀ last ∈ taken.entries.getLast?, ∀ first ∈ file.entries.head?,
      last.key = first.key → ¬first.seqno < last.seqno) : Newer file taken := by
  intro entry mem moved inMoved same
  rcases apart with before | after
  · obtain ⟨last, isLast⟩ := Option.isSome_iff_exists.mp
      (getLast?_isSome.mpr (ne_nil_of_mem inMoved))
    obtain ⟨first, isFirst⟩ := Option.isSome_iff_exists.mp (isSome_head?.mpr (ne_nil_of_mem mem))
    have boundary := before last (mem_of_getLast? isLast) first (mem_of_head? isFirst)
    have low := (layered.sorted level taken inTaken).le_last isLast inMoved
    have high := (layered.sorted level file inFile).first_le isFirst mem
    have shared : last.key = first.key :=
      le_antisymm boundary.key_le (high.trans (same ▸ low))
    exact absurd (boundary.newer shared) (whole last isLast first isFirst shared)
  · exact (after moved inMoved entry mem).newer same

/-- A file left in the level of the plan is newer than the inputs exactly when they end with no
key that it goes on with. -/
theorem newer_inputs (chosen : seed.Sublist (db.files level))
    (whole : ¬db.Splits (db.assemble level seed)) (inFile : file ∈ db.files level)
    (left : file ∉ (db.grow level seed).1) (isInput : taken ∈ (db.grow level seed).1) :
    Newer file taken := by
  obtain ⟨⟨sublist, closed⟩, -⟩ := grow_spec layered.firm chosen
  have inTaken := sublist.subset isInput
  rcases Nat.eq_zero_or_pos level with rfl | below
  · intro entry mem moved inMoved same
    exact absurd (closed rfl file inFile taken isInput moved.key
      (same ▸ file.covers_of_entry mem) (taken.covers_of_entry inMoved)) left
  have different : taken ≠ file := fun same => left (same ▸ isInput)
  refine layered.newer_of_whole inTaken inFile (layered.apart below inTaken inFile different) ?_
  intro last isLast first isFirst shared older
  exact whole ⟨taken, isInput, file, inFile, left, last, isLast, first, isFirst, shared, older⟩

theorem beside (inFile : file ∈ db.files (level + 1)) (left : file ∉ (db.grow level seed).2) :
    (∀ entry ∈ file.entries, ∀ taken, taken ∈ (db.grow level seed).1 ∨
      taken ∈ (db.grow level seed).2 → ∀ moved ∈ taken.entries, Precedes entry moved) ∨
    ∀ entry ∈ file.entries, ∀ taken, taken ∈ (db.grow level seed).1 ∨
      taken ∈ (db.grow level seed).2 → ∀ moved ∈ taken.entries, Precedes moved entry := by
  rw [grow_overlapped] at left ⊢
  unfold overlappedBy at left ⊢
  cases range : rangeOf ((db.grow level seed).1.flatMap Table.points) with
  | none =>
    refine .inl fun entry mem taken isTaken moved inMoved => ?_
    rcases isTaken with isInput | impossible
    · obtain ⟨_, found, -⟩ := rangeOf_isSome_of_mem (mem_flatMap.mpr
        ⟨taken, isInput, Table.key_mem_points inMoved⟩)
      simp [range] at found
    · simp at impossible
  | some bounds =>
    obtain ⟨low, high⟩ := bounds
    simp only [range] at left ⊢
    have within {taken : Table K V} {moved : Entry K V} (isInput : taken ∈ (db.grow level seed).1)
        (inMoved : moved ∈ taken.entries) : low ≤ moved.key ∧ moved.key ≤ high :=
      le_of_rangeOf range (mem_flatMap.mpr ⟨taken, isInput, Table.key_mem_points inMoved⟩)
    have outside : file.overlaps low high = false := by
      simpa [overlapping, inFile] using left
    -- A file of the next level that is taken reaches into the range that this one stays out of.
    have rewritten {taken : Table K V} (isTaken : taken ∈ db.overlapping (level + 1) low high) :
        Apart file taken ∧ (∃ entry ∈ taken.entries, low ≤ entry.key) ∧
          ∃ entry ∈ taken.entries, entry.key ≤ high := by
      obtain ⟨inTaken, overlaps⟩ := mem_filter.mp isTaken
      refine ⟨layered.apart level.succ_pos inFile inTaken ?_,
        taken.entries_of_overlaps (layered.bare _ level.succ_pos taken inTaken) overlaps⟩
      rintro rfl
      simp [outside] at overlaps
    rcases file.beyond_of_not_overlaps outside with below | above
    · refine .inl fun entry mem taken isTaken moved inMoved => ?_
      rcases isTaken with isInput | isTaken
      · exact .inl ((below entry mem).trans_le (within isInput inMoved).1)
      obtain ⟨before | after, ⟨far, inFar, beyond⟩, -⟩ := rewritten isTaken
      · exact before entry mem moved inMoved
      · exact absurd (after entry mem far inFar).key_le
          (not_le.mpr ((below entry mem).trans_le beyond))
    · refine .inr fun entry mem taken isTaken moved inMoved => ?_
      rcases isTaken with isInput | isTaken
      · exact .inl ((within isInput inMoved).2.trans_lt (above entry mem))
      obtain ⟨before | after, -, near, inNear, beyond⟩ := rewritten isTaken
      · exact absurd (before entry mem near inNear).key_le
          (not_le.mpr (beyond.trans_lt (above entry mem)))
      · exact after entry mem moved inMoved

end Layered

variable [DecidableEq V]

/-- Nothing left at or above the level of the plan is older than what moved below it, and what is
left there is before or after all that the plan writes. -/
def Keeps (db : Db K V) (plan : Compaction K V) : Prop :=
  (∀ level ≤ plan.level, ∀ file ∈ db.files level, plan.takes level file = false →
    ∀ taken ∈ plan.allInputs, Newer file taken) ∧
  ∀ file ∈ db.files (plan.level + 1), plan.takes (plan.level + 1) file = false →
    (∀ entry ∈ file.entries, ∀ taken ∈ plan.allInputs, ∀ moved ∈ taken.entries,
      Precedes entry moved) ∨
    ∀ entry ∈ file.entries, ∀ taken ∈ plan.allInputs, ∀ moved ∈ taken.entries, Precedes moved entry

instance (db : Db K V) (plan : Compaction K V) : Decidable (db.Splits plan) :=
  inferInstanceAs (Decidable (∃ taken ∈ plan.inputs, _))

theorem takes_assemble {place : Nat} : (db.assemble level seed).takes place file = true ↔
      place = level ∧ file ∈ (db.grow level seed).1 ∨
        place = level + 1 ∧ file ∈ (db.grow level seed).2 := by
  unfold Compaction.takes
  rw [Bool.or_eq_true, Bool.or_eq_true, decide_eq_true_eq, decide_eq_true_eq, decide_eq_true_eq]
  simp [assemble]

/-- A plan keeps the order of versions exactly when no picked file ends in the middle of a user
key. -/
theorem pick_keeps_iff (layered : db.Layered) {pointer : Option K} {plan : Compaction K V}
    (picked : db.pick level pointer = some plan) : db.Keeps plan ↔ ¬db.Splits plan := by
  obtain ⟨start, isStart, rfl⟩ := Option.map_eq_some_iff.mp picked
  have chosen : [start].Sublist (db.files level) := by
    rw [singleton_sublist]
    rcases Option.or_eq_some_iff.mp isStart with found | ⟨-, first⟩
    · obtain ⟨_, -, isFound⟩ := Option.bind_eq_some_iff.mp found
      exact mem_of_find?_eq_some isFound
    · exact mem_of_head? first
  constructor
  · rintro ⟨newer, -⟩ ⟨taken, isInput, file, inFile, left, last, isLast, first, isFirst, same, older⟩
    have spared : (db.assemble level [start]).takes level file = false := by
      rw [Bool.eq_false_iff, Ne, takes_assemble]
      exact fun takes => takes.elim (fun here => left here.2) fun below => by omega
    have isNewer := newer level (le_refl _) file inFile spared taken
      (mem_allInputs_assemble.mpr (.inl isInput)) first (mem_of_head? isFirst) last
      (mem_of_getLast? isLast) same.symm
    omega
  · intro whole
    refine ⟨fun place above file inFile spared taken isTaken => ?_, fun file inFile spared => ?_⟩
    · obtain ⟨⟨sublist, -⟩, overlapped⟩ := grow_spec layered.firm chosen
      rw [Bool.eq_false_iff, Ne, takes_assemble] at spared
      rcases mem_allInputs_assemble.mp isTaken with isInput | rewritten
      · rcases Nat.lt_or_eq_of_le above with higher | rfl
        · exact layered.newerLevels place level higher file inFile taken (sublist.subset isInput)
        · exact layered.newer_inputs chosen whole inFile (fun input => spared (.inl ⟨rfl, input⟩))
            isInput
      · exact layered.newerLevels place (level + 1) (Nat.lt_succ_of_le above) file inFile taken
          (overlapped taken rewritten)
    · rw [Bool.eq_false_iff, Ne, takes_assemble] at spared
      simp only [mem_allInputs_assemble]
      exact layered.beside inFile fun taken => spared (.inr ⟨rfl, taken⟩)

/-- Two versions of one key in two files of level 1. -/
def cutDb : Db Nat Nat :=
  { empty with files := fun level =>
      if level = 1 then [⟨[⟨0, 2, some 20⟩], []⟩, ⟨[⟨0, 1, some 10⟩], []⟩] else [] }

theorem cutDb_layered : cutDb.Layered := by
  refine ⟨?_, ?_, ?_, ?_, ?_, ?_⟩
  · rintro (_ | _ | _) <;> simp [cutDb, Sorted]
  · simp [cutDb]
  · rintro (_ | _ | _) <;> simp [cutDb]
  · rintro (_ | _ | _) <;> simp [cutDb, Apart, Precedes]
  · simp [cutDb]
  · rintro (_ | _ | _) (_ | _ | _) <;> simp [cutDb]

theorem cutDb_pick : cutDb.pick 1 none = some ⟨1, [⟨[⟨0, 2, some 20⟩], []⟩], [], [], 2⟩ := rfl

theorem pick_keeps_iff_cutDb : cutDb.Layered ∧
    ∃ plan, cutDb.pick 1 none = some plan ∧ (cutDb.Keeps plan ↔ ¬cutDb.Splits plan) :=
  ⟨cutDb_layered, _, cutDb_pick, pick_keeps_iff cutDb_layered cutDb_pick⟩

/-- The newer version moves to level 2 and leaves the older one above it. -/
theorem pick_inverts_key : cutDb.Layered ∧
    ∃ plan, cutDb.pick 1 none = some plan ∧ ¬cutDb.Keeps plan := by
  refine ⟨cutDb_layered, _, cutDb_pick, fun keeps => ?_⟩
  have newer := keeps.1 1 (le_refl _) ⟨[⟨0, 1, some 10⟩], []⟩ (by decide) (by decide +kernel)
    ⟨[⟨0, 2, some 20⟩], []⟩ (by decide) _ (.head _) _ (.head _) rfl
  exact absurd newer (by decide)

end Db

/-! ## Discharging -/

/-- The ranges of the two files meet. -/
def Table.meets (file other : Table K V) : Bool :=
  (rangeOf other.points).any fun range => file.overlaps range.1 range.2

namespace Db

section

variable [DecidableEq V]

/-- Of the levels the plan writes past, every file that meets a file of the plan or a tombstone is
taken. -/
def TakesAll (db : Db K V) (plan : Compaction K V) (tombstones : List (RangeTombstone K)) : Prop :=
  ∀ level file, plan.level < level → level ≤ plan.outputLevel → file ∈ db.files level →
    ((∃ taken ∈ plan.allInputs, file.meets taken) ∨
      ∃ tombstone ∈ tombstones, file.overlaps tombstone.start tombstone.stop) →
    plan.takes level file

end

section

variable (extractUserKey : K → K) (compaction : Compaction K V)
  (tombstones : List (RangeTombstone K))

/-- The bounds of the files have no tag to lose, or the tombstones reach past them and past what is
left of them. -/
def Uncut : Prop :=
  ∀ swept ∈ rangeOf (tombstones.flatMap fun tombstone => [tombstone.start, tombstone.stop]),
    ∀ held ∈ rangeOf (compaction.allInputs.flatMap Table.points),
      (extractUserKey held.1 = held.1 ∨ swept.1 ≤ held.1 ∧ swept.1 ≤ extractUserKey held.1) ∧
        (extractUserKey held.2 = held.2 ∨ held.2 ≤ swept.2 ∧ extractUserKey held.2 ≤ swept.2)

/-- No file below the input level reaches past the range of the files and the tombstones from
inside it. -/
def Narrow (db : Db K V) : Prop :=
  ∀ range ∈ sweepFor id compaction tombstones, ∀ level file, compaction.level < level →
    file ∈ db.files level → file.overlaps range.1 range.2 = true →
      ∀ point ∈ file.points, range.1 ≤ point ∧ point ≤ range.2

variable {extractUserKey compaction tombstones}

theorem sweepFor_uncut (uncut : Uncut extractUserKey compaction tombstones) :
    sweepFor extractUserKey compaction tombstones = sweepFor id compaction tombstones := by
  unfold sweepFor
  cases marks : rangeOf (tombstones.flatMap fun tombstone => [tombstone.start, tombstone.stop]) with
  | none => rfl
  | some swept =>
    cases keys : rangeOf (compaction.allInputs.flatMap Table.points) with
    | none => rfl
    | some held =>
      obtain ⟨least, most⟩ := uncut swept marks held keys
      have low : min swept.1 (extractUserKey held.1) = min swept.1 held.1 := by
        rcases least with same | ⟨reached, left⟩
        · rw [same]
        · rw [min_eq_left left, min_eq_left reached]
      have high : max swept.2 (extractUserKey held.2) = max swept.2 held.2 := by
        rcases most with same | ⟨reached, left⟩
        · rw [same]
        · rw [max_eq_left left, max_eq_left reached]
      exact congrArg some (Prod.ext low high)

/-- The range of the files and the tombstones holds the files. -/
theorem sweepFor_id_holds {low high : K}
    (range : sweepFor id compaction tombstones = some (low, high)) {file : Table K V}
    (taken : file ∈ compaction.allInputs) {point : K} (held : point ∈ file.points) :
    low ≤ point ∧ point ≤ high := by
  obtain ⟨keys, isKeys, least, most⟩ := rangeOf_isSome_of_mem
    (mem_flatMap.mpr ⟨file, taken, held⟩ : point ∈ compaction.allInputs.flatMap Table.points)
  unfold sweepFor at range
  rw [isKeys] at range
  split at range
  case h_1 isSome =>
    cases isSome
    cases range
    exact ⟨(min_le_right _ _).trans least, most.trans (le_max_right _ _)⟩
  case h_2 impossible => exact (impossible _ _ _ _ range rfl).elim

theorem Table.overlaps_of_meets {low high : K} {file taken : Table K V}
    (held : ∀ point ∈ taken.points, low ≤ point ∧ point ≤ high) (meets : file.meets taken = true) :
    file.overlaps low high = true := by
  unfold Table.meets at meets
  cases isRange : rangeOf taken.points with
  | none => simp [isRange] at meets
  | some range =>
    have bounds := rangeOf_mem (isRange : _ = some (range.1, range.2))
    rw [isRange] at meets
    exact file.overlaps_mono meets (held _ bounds.1).1 (held _ bounds.2).2

end

/-- A discharge takes all it writes past when its range is not cut short and no file it takes
widens it. -/
theorem discharge_takesAll [DecidableEq V] {db : Db K V} {extractUserKey : K → K}
    {depth level : Nat} {seed : List (Table K V)} {tombstones : List (RangeTombstone K)}
    (inside : level + 1 < depth) (carried : tombstones ≠ [])
    (uncut : Uncut extractUserKey (db.assemble level seed) tombstones)
    (narrow : Narrow (db.assemble level seed) tombstones db) :
    db.TakesAll (db.discharge extractUserKey depth (db.assemble level seed) tombstones)
      tombstones := by
  obtain ⟨tombstone, member⟩ := exists_mem_of_ne_nil _ carried
  obtain ⟨low, high, range, -, -⟩ := @sweepFor_spec K V _ _ extractUserKey
    (db.assemble level seed) _ member
  have span := (sweepFor_uncut uncut).symm.trans range
  intro place file below within inFile reaches
  rw [(discharge_inputs depth db range).1] at below
  rw [le_outputLevel_discharge depth db range rfl below] at within
  have bounded : place < depth := by
    rcases within with next | ⟨deeper, less, above, -⟩
    · exact next ▸ inside
    · exact above.trans_lt less
  rw [takes_discharge inside range below]
  refine .inr ⟨bounded, mem_filter.mpr ⟨inFile, ?_⟩⟩
  rcases reaches with ⟨taken, isTaken, meets⟩ | ⟨mark, isMark, overlaps⟩
  · refine Table.overlaps_of_meets ?_ meets
    rcases (mem_allInputs_discharge inside range).mp isTaken with isInput | isOverlapped |
      ⟨deeper, -, deeperBelow, swept⟩
    · exact fun point held => sweepFor_id_holds span (Compaction.mem_allInputs.mpr (.inl isInput)) held
    · exact fun point held =>
        sweepFor_id_holds span (Compaction.mem_allInputs.mpr (.inr (.inl isOverlapped))) held
    · obtain ⟨inDeeper, overlaps⟩ := mem_filter.mp swept
      exact narrow _ span deeper taken deeperBelow inDeeper overlaps
  · obtain ⟨_, _, same, least, most⟩ := @sweepFor_spec K V _ _ extractUserKey
      (db.assemble level seed) _ isMark
    rw [range] at same
    cases same
    exact file.overlaps_mono overlaps least most

/-- A file at level 3 under the tombstone of a file at level 0, and one at level 2 beside it. -/
def deepDb : Db Nat Nat :=
  { empty with files := fun level =>
      if level = 0 then [⟨[⟨9, 3, some 30⟩], [⟨1, 2, 4⟩]⟩]
      else if level = 2 then [⟨[⟨9, 2, some 20⟩], []⟩]
      else if level = 3 then [⟨[⟨1, 1, some 10⟩], []⟩] else [] }

/-- A tombstone that reaches past the input makes up for what its key loses. -/
theorem discharge_takesAll_deepDb :
    deepDb.TakesAll (deepDb.discharge (fun _ => 0) 7 (deepDb.assemble 0 (deepDb.files 0))
      [⟨0, 9, 4⟩]) [⟨0, 9, 4⟩] := by
  refine discharge_takesAll (by decide) (by decide) ?_ ?_
  · intro swept isSwept held isHeld
    cases isSwept
    cases isHeld
    decide
  · rintro range isRange (_ | _ | _ | _ | level) file below inFile - point held
    all_goals cases isRange
    all_goals simp_all [deepDb, Table.points]

/-- The keys are eight bytes long and lose all of them, so the sweep ends at the tombstone, and the
file at level 2 stays above a newer version of its key. -/
theorem discharge_leaves_file : (∀ level, 0 < level → (deepDb.files level).Pairwise Apart) ∧
    ¬deepDb.TakesAll (deepDb.discharge (fun _ => 0) 7 (deepDb.assemble 0 (deepDb.files 0))
      [⟨1, 2, 4⟩]) [⟨1, 2, 4⟩] := by
  constructor
  · rintro (_ | _ | _ | _ | _) <;> simp [deepDb]
  intro all
  exact absurd (all 2 ⟨[⟨9, 2, some 20⟩], []⟩ (by decide +kernel) (by decide +kernel)
    (by decide) (.inl ⟨⟨[⟨9, 3, some 30⟩], [⟨1, 2, 4⟩]⟩, by decide +kernel, by decide +kernel⟩))
    (by decide +kernel)

end Db

end Esker.Engine.Levels
