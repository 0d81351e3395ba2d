import Esker.Engine.Levels
import Mathlib

/-!
Contract: what a seek in a table, the walk of a read through its sources, and the compaction
job do.

Owns: ranges of tables, one lemma each for a seek, for the walk (`search_eq_found`) and for the
job, and `Sees.compact_iff`, which says what a compaction may drop.
-/

namespace Esker.Engine.Levels

open List

/-! ## Ranges -/

section Ranges

variable {K V : Type} [LinearOrder K] {keys : List K}

theorem rangeOf_isSome_of_mem {key : K} (mem : key ∈ keys) :
    ∃ range, rangeOf keys = some range ∧ range.1 ≤ key ∧ key ≤ range.2 := by
  induction keys with
  | nil => cases mem
  | cons head rest ih =>
    unfold rangeOf
    rcases mem_cons.mp mem with isHead | inRest
    · subst isHead
      cases rangeOf rest with
      | none => exact ⟨_, rfl, le_refl _, le_refl _⟩
      | some range => exact ⟨_, rfl, min_le_left _ _, le_max_left _ _⟩
    · obtain ⟨range, isRange, above, below⟩ := ih inRest
      rw [isRange]
      exact ⟨_, rfl, (min_le_right _ _).trans above, below.trans (le_max_right _ _)⟩

theorem le_of_rangeOf {low high key : K} (range : rangeOf keys = some (low, high))
    (mem : key ∈ keys) : low ≤ key ∧ key ≤ high := by
  obtain ⟨found, isRange, bounds⟩ := rangeOf_isSome_of_mem mem
  rw [range] at isRange
  cases isRange
  exact bounds

theorem rangeOf_mem {low high : K} (range : rangeOf keys = some (low, high)) :
    low ∈ keys ∧ high ∈ keys := by
  induction keys generalizing low high with
  | nil => cases range
  | cons head rest ih =>
    unfold rangeOf at range
    cases found : rangeOf rest with
    | none =>
      rw [found] at range
      cases range
      exact ⟨.head _, .head _⟩
    | some bounds =>
      rw [found] at range
      cases range
      obtain ⟨inLow, inHigh⟩ := ih found
      constructor
      · rcases min_choice head bounds.1 with same | same <;> simp [same, inLow]
      · rcases max_choice head bounds.2 with same | same <;> simp [same, inHigh]

namespace Table

variable {table : Table K V}

theorem overlaps_of_point {key low high : K} (point : key ∈ table.points) (above : low ≤ key)
    (below : key ≤ high) : table.overlaps low high = true := by
  obtain ⟨range, isRange, least, most⟩ := rangeOf_isSome_of_mem point
  unfold overlaps
  rw [isRange]
  exact decide_eq_true ⟨above.trans most, least.trans below⟩

omit [LinearOrder K] in
theorem key_mem_points {entry : Entry K V} (mem : entry ∈ table.entries) :
    entry.key ∈ table.points :=
  mem_append_left _ (mem_map_of_mem mem)

theorem covers_of_entry {entry : Entry K V} (mem : entry ∈ table.entries) :
    table.covers entry.key = true :=
  overlaps_of_point (key_mem_points mem) (le_refl _) (le_refl _)

variable {tombstone : RangeTombstone K}

omit [LinearOrder K] in
theorem bounds_mem_points (mem : tombstone ∈ table.tombstones) :
    tombstone.start ∈ table.points ∧ tombstone.stop ∈ table.points := by
  constructor
  · exact mem_append_right _ (mem_flatMap.mpr ⟨tombstone, mem, .head _⟩)
  · exact mem_append_right _ (mem_flatMap.mpr ⟨tombstone, mem, .tail _ (.head _)⟩)

theorem covers_of_tombstone {key : K}
    (mem : tombstone ∈ table.tombstones) (inside : tombstone.contains key = true) :
    table.covers key = true := by
  obtain ⟨first, last⟩ := bounds_mem_points mem
  obtain ⟨startRange, isRange, least, -⟩ := rangeOf_isSome_of_mem first
  obtain ⟨-, most⟩ := le_of_rangeOf (isRange : _ = some (startRange.1, startRange.2)) last
  have bounds := of_decide_eq_true inside
  unfold covers overlaps
  rw [isRange]
  exact decide_eq_true ⟨bounds.2.le.trans most, least.trans bounds.1⟩

theorem overlaps_of_covers {key low high : K} (covers : table.covers key = true)
    (above : low ≤ key) (below : key ≤ high) : table.overlaps low high = true := by
  unfold Table.covers at covers
  unfold overlaps at covers ⊢
  cases range : rangeOf table.points with
  | none => rw [range] at covers; cases covers
  | some bounds =>
    rw [range] at covers
    have around := of_decide_eq_true covers
    exact decide_eq_true ⟨above.trans around.1, around.2.trans below⟩

theorem between_of_covers {low high key : K}
    (subset : ∀ point ∈ table.points, point ∈ keys) (range : rangeOf keys = some (low, high))
    (covers : table.covers key = true) : low ≤ key ∧ key ≤ high := by
  unfold Table.covers overlaps at covers
  cases found : rangeOf table.points with
  | none => rw [found] at covers; cases covers
  | some bounds =>
    rw [found] at covers
    have around := of_decide_eq_true covers
    obtain ⟨smallest, largest⟩ := rangeOf_mem (found : _ = some (bounds.1, bounds.2))
    exact ⟨(le_of_rangeOf range (subset _ smallest)).1.trans around.2,
      around.1.trans (le_of_rangeOf range (subset _ largest)).2⟩

end Table

end Ranges

/-! ## Seeks -/

variable {snapshot seqno : Nat}

section Seeks

variable {K V : Type} [LinearOrder K]

def Sorted (entries : List (Entry K V)) : Prop := entries.Pairwise Precedes

theorem Precedes.trans {first second third : Entry K V} (left : Precedes first second)
    (right : Precedes second third) : Precedes first third := by
  rcases left with below | ⟨same, newer⟩
  · rcases right with belowNext | ⟨sameNext, -⟩
    · exact .inl (below.trans belowNext)
    · exact .inl (sameNext ▸ below)
  rcases right with belowNext | ⟨sameNext, newerNext⟩
  · exact .inl (same ▸ belowNext)
  · exact .inr ⟨same.trans sameNext, newerNext.trans newer⟩

variable {first second other : Entry K V}

theorem Precedes.key_le (precedes : Precedes first second) :
    first.key ≤ second.key := by
  rcases precedes with below | ⟨same, -⟩
  · exact below.le
  · exact same.le

theorem Precedes.newer (precedes : Precedes first second)
    (same : first.key = second.key) : second.seqno < first.seqno := by
  rcases precedes with below | ⟨-, newer⟩
  · exact absurd same below.ne
  · exact newer

theorem Sorted.eq_of_same {entries : List (Entry K V)} (sorted : Sorted entries)
    (inFirst : first ∈ entries) (inSecond : second ∈ entries)
    (key : first.key = second.key) (seqno : first.seqno = second.seqno) : first = second := by
  by_contra different
  let Apart (left right : Entry K V) : Prop := left.key = right.key → left.seqno ≠ right.seqno
  have symmetric : Std.Symm Apart := ⟨fun _ _ apart same => (apart same.symm).symm⟩
  have apart : entries.Pairwise Apart :=
    List.Pairwise.imp (fun precedes same => (precedes.newer same).ne') sorted
  exact apart.forall inFirst inSecond different key seqno

theorem Sorted.le_getLast {entries : List (Entry K V)}
    {entry last : Entry K V} (sorted : Sorted entries) (isLast : entries.getLast? = some last)
    (mem : entry ∈ entries) : entry = last ∨ Precedes entry last := by
  obtain ⟨front, rfl⟩ := getLast?_eq_some_iff.mp isLast
  rcases mem_append.mp mem with inFront | isOne
  · exact .inr ((pairwise_append.mp sorted).2.2 entry inFront last (.head _))
  · exact .inl (mem_singleton.mp isOne)

theorem Sees.congr {entries others : Set (Entry K V)} {tombstones marks : Set (RangeTombstone K)}
    {key : K} {value : V}
    (sameEntries : ∀ entry : Entry K V, entry.key = key → entry.seqno ≤ snapshot →
      (entry ∈ entries ↔ entry ∈ others))
    (sameTombstones : ∀ tombstone : RangeTombstone K, tombstone.contains key →
      tombstone.seqno ≤ snapshot → (tombstone ∈ tombstones ↔ tombstone ∈ marks)) :
    Sees entries tombstones key snapshot value ↔ Sees others marks key snapshot value := by
  have half {entries others : Set (Entry K V)} {tombstones marks : Set (RangeTombstone K)}
      (sameEntries : ∀ entry : Entry K V, entry.key = key → entry.seqno ≤ snapshot →
        (entry ∈ entries ↔ entry ∈ others))
      (sameTombstones : ∀ tombstone : RangeTombstone K, tombstone.contains key →
        tombstone.seqno ≤ snapshot → (tombstone ∈ tombstones ↔ tombstone ∈ marks)) :
      Sees entries tombstones key snapshot value → Sees others marks key snapshot value := by
    rintro ⟨entry, mem, isKey, visible, held, most, clear⟩
    refine ⟨entry, (sameEntries entry isKey visible).mp mem, isKey, visible, held, ?_, ?_⟩
    · intro other inOthers otherKey otherVisible
      exact most other ((sameEntries other otherKey otherVisible).mpr inOthers) otherKey otherVisible
    · intro tombstone inMarks inside below
      exact clear tombstone ((sameTombstones tombstone inside below).mpr inMarks) inside below
  exact ⟨half sameEntries sameTombstones, half
    (fun entry isKey visible => (sameEntries entry isKey visible).symm)
    fun tombstone inside below => (sameTombstones tombstone inside below).symm⟩

namespace Table

variable {table : Table K V} {key : K} {snapshot : Nat}

theorem mem_of_get {entry : Entry K V} (found : table.get key snapshot = some entry) :
    entry ∈ table.entries ∧ entry.key = key ∧ entry.seqno ≤ snapshot := by
  obtain ⟨seeked, isKey⟩ := Option.filter_eq_some_iff.mp found
  have same := of_decide_eq_true isKey
  have passes := find?_some seeked
  rw [decide_eq_true_eq] at passes
  rcases passes with beyond | visible
  · exact absurd same beyond.ne'
  · exact ⟨mem_of_find?_eq_some seeked, visible⟩

theorem get_newest (sorted : Sorted table.entries) {entry : Entry K V}
    (found : table.get key snapshot = some entry) (mem : other ∈ table.entries)
    (isKey : other.key = key) (visible : other.seqno ≤ snapshot) : other.seqno ≤ entry.seqno := by
  obtain ⟨seeked, isEntry⟩ := Option.filter_eq_some_iff.mp found
  have same : entry.key = key := of_decide_eq_true isEntry
  obtain ⟨-, before, after, split, skipped⟩ := find?_eq_some_iff_append.mp seeked
  rw [split] at mem
  rcases mem_append.mp mem with earlier | later
  · -- What the seek skips is not visible.
    have notVisible := skipped other earlier
    simp only [Bool.not_eq_eq_eq_not, Bool.not_true, decide_eq_false_iff_not] at notVisible
    exact absurd (.inr ⟨isKey, visible⟩) notVisible
  · rcases mem_cons.mp later with isSame | further
    · rw [isSame]
    unfold Sorted at sorted
    rw [split, pairwise_append, pairwise_cons] at sorted
    exact ((sorted.2.1.1 other further).newer (same.trans isKey.symm)).le

theorem get_of_visible (sorted : Sorted table.entries)
    (mem : other ∈ table.entries) (isKey : other.key = key) (visible : other.seqno ≤ snapshot) :
    ∃ entry, table.get key snapshot = some entry := by
  have satisfied : decide (key < other.key ∨ other.key = key ∧ other.seqno ≤ snapshot) = true :=
    decide_eq_true (.inr ⟨isKey, visible⟩)
  obtain ⟨entry, seeked⟩ := Option.isSome_iff_exists.mp (find?_isSome.mpr ⟨other, mem, satisfied⟩ :
      (table.entries.find? fun entry =>
        decide (key < entry.key ∨ entry.key = key ∧ entry.seqno ≤ snapshot)).isSome)
  refine ⟨entry, Option.filter_eq_some_iff.mpr ⟨seeked, decide_eq_true ?_⟩⟩
  -- The seek cannot end beyond the key, because the visible version comes first.
  have passes := find?_some seeked
  rw [decide_eq_true_eq] at passes
  rcases passes with beyond | same
  · obtain ⟨-, before, after, split, skipped⟩ := find?_eq_some_iff_append.mp seeked
    rw [split] at mem
    rcases mem_append.mp mem with earlier | later
    · have notVisible := skipped other earlier
      rw [satisfied] at notVisible
      cases notVisible
    rcases mem_cons.mp later with isSame | further
    · exact isSame ▸ isKey
    unfold Sorted at sorted
    rw [split, pairwise_append, pairwise_cons] at sorted
    exact absurd (sorted.2.1.1 other further).key_le (isKey ▸ not_le.mpr beyond)
  · exact same.1

end Table

/-! ## The walk through the sources -/

/-- Whatever the first table holds of a key is newer than what the second does. -/
def Shadows (first second : Table K V) : Prop :=
  ∀ newer ∈ first.entries,
    (∀ older ∈ second.entries, newer.key = older.key → older.seqno < newer.seqno) ∧
    ∀ tombstone ∈ second.tombstones, tombstone.seqno < newer.seqno

theorem judge_eq_found {tombstones : List (RangeTombstone K)} {entry : Entry K V} {value : V} :
    judge tombstones snapshot entry = .found value seqno ↔
      entry.value = some value ∧ entry.seqno = seqno ∧
        ∀ tombstone ∈ tombstones, tombstone.contains entry.key → tombstone.seqno ≤ snapshot →
          tombstone.seqno ≤ entry.seqno := by
  unfold judge
  cases held : entry.value with
  | none => simp
  | some kept =>
    simp only [any_eq_true, Bool.and_eq_true, RangeTombstone.hides, decide_eq_true_eq]
    split
    · rename_i hidden
      obtain ⟨tombstone, mem, ⟨later, visible⟩, inside⟩ := hidden
      constructor
      · intro impossible
        cases impossible
      · rintro ⟨-, -, clear⟩
        exact absurd (clear tombstone mem inside visible) (by omega)
    · rename_i clear
      simp only [Lookup.found.injEq, Option.some.injEq, and_congr_right_iff]
      intro _
      constructor
      · intro same
        refine ⟨same, fun tombstone mem inside visible => ?_⟩
        by_contra later
        exact clear ⟨tombstone, mem, ⟨by omega, visible⟩, inside⟩
      · exact fun facts => facts.1

theorem search_eq_found {key : K} {value : V} {tables : List (Table K V)}
    (collected : List (RangeTombstone K)) (sorted : ∀ table ∈ tables, Sorted table.entries)
    (ordered : tables.Pairwise Shadows) :
    (∃ seqno, search key snapshot collected tables = some (.found value seqno)) ↔
      Sees {entry | ∃ table ∈ tables, entry ∈ table.entries}
        {tombstone | tombstone ∈ collected ∨ ∃ table ∈ tables, tombstone ∈ table.tombstones}
        key snapshot value := by
  induction tables generalizing collected with
  | nil => simp [search, Sees]
  | cons table rest ih =>
    rw [forall_mem_cons] at sorted
    rw [pairwise_cons] at ordered
    unfold search
    cases found : table.get key snapshot with
    | some entry =>
      obtain ⟨mem, isKey, visible⟩ := table.mem_of_get found
      simp only [Option.some.injEq, judge_eq_found]
      constructor
      · rintro ⟨_, held, -, clear⟩
        refine ⟨entry, ⟨table, .head _, mem⟩, isKey, visible, held, ?_, ?_⟩
        · rintro other ⟨holder, inTables, inHolder⟩ sameKey otherVisible
          rcases mem_cons.mp inTables with isTable | later
          · subst isTable
            exact holder.get_newest sorted.1 found inHolder sameKey otherVisible
          · exact (((ordered.1 holder later) entry mem).1 other inHolder
              (isKey.trans sameKey.symm)).le
        · rintro tombstone (seen | ⟨holder, inTables, inHolder⟩) inside below
          · exact clear tombstone (mem_append_left _ seen) (isKey ▸ inside) below
          rcases mem_cons.mp inTables with isTable | later
          · subst isTable
            exact clear tombstone (mem_append_right _ inHolder) (isKey ▸ inside) below
          · exact (((ordered.1 holder later) entry mem).2 tombstone inHolder).le
      · rintro ⟨newest, ⟨holder, inTables, inHolder⟩, sameKey, newestVisible, held, most, clear⟩
        have atLeast := most entry ⟨table, .head _, mem⟩ isKey visible
        have isNewest : newest = entry := by
          rcases mem_cons.mp inTables with isTable | later
          · subst isTable
            -- Two versions of a key in one table have different numbers.
            have atMost := holder.get_newest sorted.1 found inHolder sameKey newestVisible
            exact sorted.1.eq_of_same inHolder mem (sameKey.trans isKey.symm) (by omega)
          · exact absurd (((ordered.1 holder later) entry mem).1 newest inHolder
              (isKey.trans sameKey.symm)) (by omega)
        subst isNewest
        refine ⟨_, held, rfl, fun tombstone seen inside below => ?_⟩
        refine clear tombstone ?_ (sameKey ▸ inside) below
        rcases mem_append.mp seen with earlier | own
        · exact .inl earlier
        · exact .inr ⟨table, .head _, own⟩
    | none =>
      have unseen : ∀ entry ∈ table.entries, entry.key = key → ¬entry.seqno ≤ snapshot := by
        intro entry mem isKey visible
        obtain ⟨seeked, some⟩ := table.get_of_visible sorted.1 mem isKey visible
        rw [found] at some
        cases some
      rw [ih _ sorted.2 ordered.2]
      refine Sees.congr (fun entry isKey visible => ?_) fun tombstone _ _ => ?_
      · simp only [Set.mem_ofPred_eq, exists_mem_cons_iff]
        exact (or_iff_right fun mem => unseen entry mem isKey visible).symm
      · simp only [Set.mem_ofPred_eq, exists_mem_cons_iff, mem_append, or_assoc]

end Seeks

/-! ## What the job drops -/

section Dropping

variable {K V : Type} [LinearOrder K]

theorem newestCovering_any {tombstones : List (RangeTombstone K)} {key : K} :
    ((newestCovering tombstones key snapshot).any fun covering => decide (seqno < covering)) = true ↔
      ∃ tombstone ∈ tombstones, tombstone.seqno ≤ snapshot ∧ tombstone.contains key ∧
        seqno < tombstone.seqno := by
  unfold newestCovering
  cases most : ((tombstones.filter fun tombstone =>
      decide (tombstone.seqno ≤ snapshot) && tombstone.contains key).map
        RangeTombstone.seqno).max? with
  | none =>
    rw [max?_eq_none_iff, map_eq_nil_iff, filter_eq_nil_iff] at most
    simp only [Option.any_none, Bool.false_eq_true, false_iff]
    rintro ⟨tombstone, mem, visible, inside, -⟩
    exact most tombstone mem (by simp [visible, inside])
  | some covering =>
    obtain ⟨isOne, atMost⟩ := max?_eq_some_iff.mp most
    simp only [Option.any_some, decide_eq_true_eq]
    constructor
    · intro below
      obtain ⟨tombstone, mem, isSeqno⟩ := mem_map.mp isOne
      rw [mem_filter, Bool.and_eq_true, decide_eq_true_eq] at mem
      exact ⟨tombstone, mem.1, mem.2.1, mem.2.2, isSeqno ▸ below⟩
    · rintro ⟨tombstone, mem, visible, inside, below⟩
      refine Nat.lt_of_lt_of_le below (atMost _ (mem_map_of_mem ?_))
      rw [mem_filter, Bool.and_eq_true, decide_eq_true_eq]
      exact ⟨mem, visible, inside⟩

namespace Job

variable {job : Job K} {previous : Option (Entry K V)} {entry : Entry K V}

def Hides (job : Job K) (entry : Entry K V) : Prop :=
  ∃ tombstone ∈ job.tombstones, tombstone.seqno ≤ job.floor ∧ tombstone.contains entry.key ∧
    entry.seqno < tombstone.seqno

/-- The entry is a delete that nothing older lies beneath. -/
def Forgets (job : Job K) (entry : Entry K V) : Prop :=
  entry.value = none ∧ entry.seqno ≤ job.floor ∧ job.isBottom entry.key = true

theorem writes_iff : job.writes previous entry = true ↔
    ¬job.Hides entry ∧ (∀ newer ∈ previous, newer.key = entry.key → job.floor < newer.seqno) ∧
      ¬job.Forgets entry := by
  unfold writes
  by_cases hidden : job.Hides entry
  · rw [if_pos (newestCovering_any.mpr hidden)]
    simp [hidden]
  rw [if_neg (fun covering => hidden (newestCovering_any.mp covering))]
  by_cases shadowed : (previous.any fun newer =>
      decide (newer.key = entry.key ∧ newer.seqno ≤ job.floor)) = true
  · rw [if_pos shadowed]
    rw [Option.any_eq_true] at shadowed
    obtain ⟨newer, isPrevious, shadows⟩ := shadowed
    have facts := of_decide_eq_true shadows
    simp only [Bool.false_eq_true, false_iff]
    rintro ⟨-, above, -⟩
    exact absurd (above newer isPrevious facts.1) (Nat.not_lt.mpr facts.2)
  · rw [if_neg shadowed]
    have above : ∀ newer ∈ previous, newer.key = entry.key → job.floor < newer.seqno := by
      intro newer isPrevious sameKey
      by_contra below
      rw [Option.mem_def] at isPrevious
      subst isPrevious
      exact shadowed (decide_eq_true ⟨sameKey, Nat.not_lt.mp below⟩)
    by_cases forgotten : job.Forgets entry
    · rw [if_pos (by simpa [Forgets] using forgotten)]
      simp [forgotten]
    rw [if_neg (by simpa [Forgets] using forgotten)]
    simp only [true_iff]
    exact ⟨hidden, above, forgotten⟩

theorem run_sublist (job : Job K) (previous : Option (Entry K V)) (entries : List (Entry K V)) :
    (job.run previous entries).Sublist entries := by
  induction entries generalizing previous with
  | nil => exact .slnil
  | cons entry rest ih =>
    unfold run
    split
    · exact (ih _).cons_cons entry
    · exact (ih _).cons entry

theorem mem_run_iff {entries : List (Entry K V)} : entry ∈ job.run previous entries ↔
    ∃ front back, entries = front ++ entry :: back ∧
      job.writes (front.getLast?.or previous) entry = true := by
  induction entries generalizing previous with
  | nil => simp [run]
  | cons head rest ih =>
    have later : entry ∈ job.run (some head) rest ↔ ∃ front back, rest = front ++ entry :: back ∧
        job.writes ((head :: front).getLast?.or previous) entry = true := by
      rw [ih]
      refine exists_congr fun front => exists_congr fun back => and_congr_right fun _ => ?_
      rw [getLast?_cons]
      cases front.getLast? <;> rfl
    have here : entry ∈ job.run previous (head :: rest) ↔
        (head = entry ∧ job.writes previous entry = true) ∨ entry ∈ job.run (some head) rest := by
      rw [run]
      split <;> grind
    rw [here, later]
    constructor
    · rintro (⟨rfl, writes⟩ | ⟨front, back, rfl, writes⟩)
      · exact ⟨[], rest, rfl, writes⟩
      · exact ⟨head :: front, back, rfl, writes⟩
    rintro ⟨_ | ⟨_, front⟩, back, split, writes⟩
    · cases split
      exact .inl ⟨rfl, writes⟩
    · cases split
      exact .inr ⟨front, back, rfl, writes⟩

variable {entries : List (Entry K V)}

theorem kept_of_mem_run (sorted : Sorted entries) (written : entry ∈ job.run none entries) :
    ¬job.Hides entry ∧ ∀ newer ∈ entries, newer.key = entry.key →
      entry.seqno < newer.seqno → job.floor < newer.seqno := by
  obtain ⟨front, back, rfl, writes⟩ := mem_run_iff.mp written
  rw [Option.or_none] at writes
  obtain ⟨clear, above, -⟩ := writes_iff.mp writes
  obtain ⟨frontSorted, rest, across⟩ := pairwise_append.mp sorted
  refine ⟨clear, fun newer mem sameKey isNewer => ?_⟩
  rcases mem_append.mp mem with earlier | later
  · -- The entry read last stands between the newer version and this one.
    have isLast := getLast?_eq_some_getLast (ne_nil_of_mem earlier)
    have lastPrecedes := across _ (mem_of_getLast? isLast) entry (.head _)
    rcases Sorted.le_getLast frontSorted isLast earlier with isSame | precedes
    · exact above newer (isSame ▸ isLast) sameKey
    · have lastKey := le_antisymm lastPrecedes.key_le (sameKey ▸ precedes.key_le)
      exact Nat.lt_trans (above _ isLast lastKey) (precedes.newer (sameKey.trans lastKey.symm))
  · rcases mem_cons.mp later with isSame | further
    · rw [isSame] at isNewer
      exact absurd isNewer (Nat.lt_irrefl _)
    · have older := ((pairwise_cons.mp rest).1 newer further).newer sameKey.symm
      omega

theorem dropped_of_not_mem_run (sorted : Sorted entries) (mem : entry ∈ entries)
    (dropped : entry ∉ job.run none entries) :
    job.Hides entry ∨ (∃ newer ∈ entries, newer.key = entry.key ∧
      entry.seqno < newer.seqno ∧ newer.seqno ≤ job.floor) ∨ job.Forgets entry := by
  obtain ⟨front, back, rfl⟩ := append_of_mem mem
  by_contra reasons
  rw [not_or, not_or] at reasons
  refine dropped (mem_run_iff.mpr ⟨front, back, rfl, writes_iff.mpr ⟨reasons.1, ?_, reasons.2.2⟩⟩)
  rw [Option.or_none]
  intro newer isLast sameKey
  by_contra below
  have inFront := mem_of_getLast? isLast
  have precedes := (pairwise_append.mp sorted).2.2 newer inFront entry (.head _)
  exact reasons.2.1 ⟨newer, mem_append_left _ inFront, sameKey, precedes.newer sameKey,
    Nat.not_lt.mp below⟩

end Job

/-- Dropping from the inputs what no reader at or above the floor can tell changes no such
read. -/
theorem Sees.compact_iff {rest inputs outputs : Set (Entry K V)}
    {kept discharged : Set (RangeTombstone K)} {floor : Nat} {key : K} {value : V}
    (subset : outputs ⊆ inputs) (reaches : floor ≤ snapshot)
    (dropped : ∀ entry ∈ inputs, entry ∉ outputs →
      (∃ tombstone ∈ discharged, tombstone.contains entry.key ∧ entry.seqno < tombstone.seqno) ∨
      (∃ newer ∈ inputs, newer.key = entry.key ∧ entry.seqno < newer.seqno ∧ newer.seqno ≤ floor) ∨
      (entry.value = none ∧ entry.seqno ≤ floor ∧
        ∀ other ∈ rest, other.key = entry.key → entry.seqno ≤ other.seqno))
    (clear : ∀ entry ∈ outputs, ∀ tombstone ∈ discharged, tombstone.contains entry.key →
      tombstone.seqno ≤ entry.seqno)
    (newest : ∀ entry ∈ outputs, ∀ newer ∈ inputs, newer.key = entry.key →
      entry.seqno < newer.seqno → floor < newer.seqno)
    (settled : ∀ tombstone ∈ discharged, tombstone.seqno ≤ floor)
    (spent : ∀ tombstone ∈ discharged, ∀ other ∈ rest, tombstone.contains other.key →
      tombstone.seqno ≤ other.seqno) : Sees (rest ∪ outputs) kept key snapshot value ↔
      Sees (rest ∪ inputs) (kept ∪ discharged) key snapshot value := by
  have clearOf : ∀ entry ∈ rest ∪ outputs, ∀ tombstone ∈ discharged,
      tombstone.contains entry.key → tombstone.seqno ≤ entry.seqno := by
    intro entry mem tombstone inDischarged inside
    rcases mem with outside | written
    · exact spent tombstone inDischarged entry outside inside
    · exact clear entry written tombstone inDischarged inside
  constructor
  · rintro ⟨entry, mem, isKey, visible, held, most, unhidden⟩
    refine ⟨entry, mem.imp_right fun written => subset written, isKey, visible, held, ?_, ?_⟩
    · -- A newer version that was dropped leads to a still newer one, up to the snapshot.
      intro other
      induction distance : snapshot - other.seqno using Nat.strong_induction_on generalizing other
        with
      | h distance ih =>
        intro inBefore otherKey otherVisible
        by_contra older
        have isNewer : entry.seqno < other.seqno := Nat.not_le.mp older
        have gone : other ∉ rest ∪ outputs := fun present =>
          older (most other present otherKey otherVisible)
        rcases inBefore with outside | taken
        · exact gone (.inl outside)
        rcases dropped other taken (fun written => gone (.inr written)) with
          ⟨tombstone, inDischarged, inside, above⟩ | ⟨newer, inInputs, newerKey, above, low⟩ |
          ⟨-, low, beneath⟩
        · have limit := clearOf entry mem tombstone inDischarged
            (isKey.trans otherKey.symm ▸ inside)
          omega
        · have bound := ih (snapshot - newer.seqno) (by omega) newer rfl
            (.inr inInputs) (newerKey.trans otherKey) (by omega)
          omega
        rcases mem with outside | written
        · have limit := beneath entry outside (isKey.trans otherKey.symm)
          omega
        · have limit := newest entry written other taken (otherKey.trans isKey.symm) isNewer
          omega
    · rintro tombstone (stays | inDischarged) inside below
      · exact unhidden tombstone stays inside below
      · exact clearOf entry mem tombstone inDischarged (isKey ▸ inside)
  · rintro ⟨entry, mem, isKey, visible, held, most, unhidden⟩
    refine ⟨entry, ?_, isKey, visible, held, ?_, fun tombstone stays => unhidden tombstone (.inl stays)⟩
    · rcases mem with outside | taken
      · exact .inl outside
      by_contra gone
      rcases dropped entry taken (fun written => gone (.inr written)) with
        ⟨tombstone, inDischarged, inside, above⟩ | ⟨newer, inInputs, newerKey, above, low⟩ |
        ⟨absent, -, -⟩
      · have limit := unhidden tombstone (.inr inDischarged) (isKey ▸ inside)
          ((settled tombstone inDischarged).trans reaches)
        omega
      · have limit := most newer (.inr inInputs) (newerKey.trans isKey) (low.trans reaches)
        omega
      · rw [held] at absent
        cases absent
    · intro other present otherKey otherVisible
      exact most other (present.imp_right fun written => subset written) otherKey otherVisible

/-! ## What readers see of the job's output -/

namespace Job

/-- The files an output is cut into: one that has reached its target is finished before the next
entry is added. -/
def cut (fileSize : List (Entry K V) → Nat) (target : Nat) :
    (opened : List (Entry K V)) → List (Entry K V) → List (List (Entry K V))
  | opened, [] => if opened.isEmpty then [] else [opened]
  | opened, entry :: rest =>
    if target ≤ fileSize opened ∧ !opened.isEmpty then opened :: cut fileSize target [entry] rest
    else cut fileSize target (opened ++ [entry]) rest

omit [LinearOrder K] in
theorem cut_flatten (fileSize : List (Entry K V) → Nat) (target : Nat)
    (opened rest : List (Entry K V)) : (cut fileSize target opened rest).flatten = opened ++ rest := by
  induction rest generalizing opened with
  | nil =>
    simp only [cut]
    split <;> simp_all
  | cons entry rest ih =>
    simp only [cut]
    split <;> simp [ih]

variable {job : Job K} {input : List (Entry K V)} {snapshot : Nat} {key : K} {value : V}

/-- The job changes no read at or above its floor, beside entries outside that its oracle and its
tombstones account for, and drops the tombstones that are at or below the floor with what they
hide. -/
theorem sees_run_iff (sorted : Sorted input) {outside : Set (Entry K V)}
    (bottom : ∀ entry ∈ input, job.isBottom entry.key = true → ∀ other ∈ outside,
      other.key = entry.key → entry.seqno ≤ other.seqno)
    (spent : ∀ tombstone ∈ job.tombstones, tombstone.seqno ≤ job.floor → ∀ other ∈ outside,
      tombstone.contains other.key → tombstone.seqno ≤ other.seqno)
    (kept : Set (RangeTombstone K)) (reaches : job.floor ≤ snapshot) :
    Sees (outside ∪ {entry | entry ∈ job.run none input}) kept key snapshot value ↔
      Sees (outside ∪ {entry | entry ∈ input})
        (kept ∪ {tombstone | tombstone ∈ job.tombstones ∧ tombstone.seqno ≤ job.floor})
        key snapshot value := by
  have written := fun entry mem => @kept_of_mem_run K V _ job entry input sorted mem
  refine Sees.compact_iff (fun entry mem => (job.run_sublist none input).subset mem) reaches
    ?_ ?_ ?_ (fun tombstone settled => settled.2)
    fun tombstone settled => spent tombstone settled.1 settled.2
  · intro entry mem dropped
    rcases dropped_of_not_mem_run sorted mem dropped with
      ⟨tombstone, inJob, settled, inside, above⟩ | shadowed | ⟨absent, low, isBottom⟩
    · exact .inl ⟨tombstone, ⟨inJob, settled⟩, inside, above⟩
    · exact .inr (.inl shadowed)
    · exact .inr (.inr ⟨absent, low, bottom entry mem isBottom⟩)
  · intro entry mem tombstone settled inside
    by_contra older
    exact (written entry mem).1 ⟨tombstone, settled.1, settled.2, inside, Nat.not_le.mp older⟩
  · exact fun entry mem => (written entry mem).2

/-- A compaction keeps every read at or above its floor, in the order of its input, whatever its
output is cut into. -/
theorem run_preserves_reads (sorted : Sorted input) {outside : Set (Entry K V)}
    (bottom : ∀ entry ∈ input, job.isBottom entry.key = true → ∀ other ∈ outside,
      other.key = entry.key → entry.seqno ≤ other.seqno)
    (reaches : job.floor ≤ snapshot) :
    (Table.Shows ⟨input, job.tombstones⟩ key snapshot value ↔
      Table.Shows ⟨job.run none input, job.tombstones⟩ key snapshot value) ∧
    ((∀ tombstone ∈ job.tombstones, tombstone.seqno ≤ job.floor) →
      (Table.Shows ⟨input, job.tombstones⟩ key snapshot value ↔
        Table.Shows ⟨job.run none input, []⟩ key snapshot value)) ∧
    ((∀ tombstone ∈ job.tombstones, tombstone.seqno ≤ job.floor → ∀ other ∈ outside,
        tombstone.contains other.key → tombstone.seqno ≤ other.seqno) →
      (Sees (outside ∪ {entry | entry ∈ input}) {tombstone | tombstone ∈ job.tombstones} key
          snapshot value ↔
        Sees (outside ∪ {entry | entry ∈ job.run none input})
          {tombstone | tombstone ∈ job.tombstones} key snapshot value)) ∧
    (job.run none input).Sublist input ∧ Sorted (job.run none input) ∧
    ∀ fileSize target, (cut fileSize target [] (job.run none input)).flatten = job.run none input := by
  have absorbed : {tombstone | tombstone ∈ job.tombstones} ∪
      {tombstone | tombstone ∈ job.tombstones ∧ tombstone.seqno ≤ job.floor} =
        {tombstone | tombstone ∈ job.tombstones} :=
    Set.union_eq_left.mpr fun _ settled => settled.1
  have alone (kept : Set (RangeTombstone K)) := @sees_run_iff K V _ job input snapshot key value
    sorted ∅ (by simp) (by simp) kept reaches
  simp only [Set.empty_union] at alone
  refine ⟨?_, fun settled => ?_, fun spent => ?_, job.run_sublist none input,
    sorted.sublist (job.run_sublist none input), fun fileSize target => cut_flatten ..⟩
  · have same := alone {tombstone | tombstone ∈ job.tombstones}
    rw [absorbed] at same
    exact same.symm
  · have same := alone ∅
    have all : {tombstone | tombstone ∈ job.tombstones ∧ tombstone.seqno ≤ job.floor} =
        {tombstone | tombstone ∈ job.tombstones} :=
      Set.ext fun tombstone => and_iff_left_of_imp (settled tombstone)
    rw [Set.empty_union, all] at same
    simpa [Table.Shows] using same.symm
  · have same := @sees_run_iff K V _ job input snapshot key value sorted outside bottom spent
      {tombstone | tombstone ∈ job.tombstones} reaches
    rw [absorbed] at same
    exact same.symm

/-- A shadowed version and a delete at the bottom go, and a reader at the floor sees the same. -/
theorem run_preserves_reads_twoVersions :
    let job : Job Nat := ⟨5, fun _ => true, []⟩
    job.run none [(⟨1, 4, some 20⟩ : Entry Nat Nat), ⟨1, 3, some 10⟩, ⟨2, 5, none⟩] =
        [⟨1, 4, some 20⟩] ∧
      (Table.Shows ⟨[(⟨1, 4, some 20⟩ : Entry Nat Nat), ⟨1, 3, some 10⟩, ⟨2, 5, none⟩], []⟩ 1 5 20 ↔
        Table.Shows ⟨job.run none [(⟨1, 4, some 20⟩ : Entry Nat Nat), ⟨1, 3, some 10⟩,
          ⟨2, 5, none⟩], []⟩ 1 5 20) :=
  ⟨by decide, (@run_preserves_reads Nat Nat _ ⟨5, fun _ => true, []⟩ _ 5 1 20
    (by unfold Sorted; decide) ∅ (by simp) (by decide)).1⟩

end Job

end Dropping

end Esker.Engine.Levels
