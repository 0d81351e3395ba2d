import Esker.Gc.Collector

/-!
Contract: which reads survive a compaction that collects old versions.

Owns: what the filter can do to the newest version a read rests on, the state the collector
carries from one compaction to the next, and the reads before and after each compaction.
-/

namespace Esker.Gc

open Esker.Txn (Version WriteRecord Kind Cell newestVersionAt readWrites valueOf)
open List

/-! ## A delete whose older version is in a sibling file -/

/-- Key `7`: its delete at `10` and its value at `5`, in two files of level 1. -/
def scatteredStore : Store Nat :=
  { layout := [(1, ⟨1, [⟨7, 10, 2, some ⟨.delete, 9, none⟩⟩]⟩),
      (1, ⟨2, [⟨7, 5, 1, some ⟨.put, 4, some [1]⟩⟩]⟩)]
    published := 20
    seen := none }

/-- A policy that keeps nothing below the published safepoint. -/
def plainPolicy : RetentionPolicy Nat := ⟨0, fun _ => 0⟩

/-- Compacting the first file drops the delete, and the value is read again. -/
theorem deleted_key_readable_again :
    scatteredStore.layout.LevelsHold ∧ scatteredStore.layout.Distinct ∧
      plainPolicy.effectiveSafepoint 7 scatteredStore.published = some 20 ∧
      ∃ next, Store.Compacts True plainPolicy 7 scatteredStore next ∧
        readWrites (scatteredStore.cell 7 ⟨none, [], []⟩) 20 = .ok .notFound ∧
        readWrites (next.cell 7 ⟨none, [], []⟩) 20 = .ok (.value [1]) := by
  refine ⟨?_, by unfold Layout.Distinct; decide, by decide, _, @Store.Compacts.compact _ _ True plainPolicy 7
    scatteredStore 1 2 [⟨1, [⟨7, 10, 2, some ⟨.delete, 9, none⟩⟩]⟩] [] [] (some (7, 10))
    (by decide) (by decide) (by decide) rfl (.inl trivial), by decide, by decide⟩
  constructor <;> decide

variable {K : Type} [LinearOrder K]

/-! ## The newest version -/

theorem find_newest {writes : List Version}
    (sorted : writes.Pairwise fun left right => right.commitTs ≤ left.commitTs)
    {wanted : Version → Bool} {found : Version} (search : writes.find? wanted = some found) :
    ∀ other ∈ writes, wanted other → other.commitTs ≤ found.commitTs := by
  induction writes with
  | nil => cases search
  | cons first rest ih =>
    obtain ⟨newest, tail⟩ := pairwise_cons.mp sorted
    rw [find?_cons] at search
    intro other mem wants
    split at search
    · cases search
      rcases mem_cons.mp mem with rfl | later
      · exact le_rfl
      · exact newest other later
    · rename_i passed
      rcases mem_cons.mp mem with rfl | later
      · simp [wants] at passed
      · exact ih tail search other later wants

variable {entry : Entry K} {version : Version} {key : K} {ts : Nat}

namespace Store

def Has (store : Store K) (key : K) (version : Version) : Prop :=
  ∃ entry ∈ store.layout.entries, entry.key = key ∧ entry.version = some version

variable {store next : Store K}

omit [LinearOrder K] in
theorem version_eq_some : entry.version = some version ↔ entry.record = some version.record ∧
      entry.commitTs = version.commitTs ∧ version.isAVersion := by
  unfold Entry.version
  cases entry.record with
  | none => simp
  | some record =>
    rw [Option.bind_some]
    constructor
    · intro same
      split at same
      · rename_i kind
        cases same
        exact ⟨rfl, rfl, kind⟩
      · cases same
    · rintro ⟨same, timestamp, kind⟩
      cases same
      rw [if_pos (show version.record.kind.isAVersion = true from kind), timestamp]

theorem mem_writes : version ∈ store.writes key ∧ version.isAVersion ↔ store.Has key version := by
  unfold writes Has
  rw [mem_insertionSort, mem_filterMap]
  constructor
  · rintro ⟨⟨entry, mem, found⟩, kind⟩
    split at found
    · rename_i own
      obtain ⟨record, present, rfl⟩ := Option.map_eq_some_iff.mp found
      exact ⟨entry, mem, own, version_eq_some.mpr ⟨present, rfl, kind⟩⟩
    · cases found
  · rintro ⟨entry, mem, own, isVersion⟩
    obtain ⟨record, timestamp, kind⟩ := version_eq_some.mp isVersion
    refine ⟨⟨entry, mem, ?_⟩, kind⟩
    rw [if_pos own, record, timestamp]
    rfl

theorem writes_sorted (key : K) :
    (store.writes key).Pairwise fun left right => right.commitTs ≤ left.commitTs :=
  pairwise_insertionSort _ _

variable {rest : Cell K}

theorem newest_some (found : newestVersionAt (store.cell key rest) ts = some version) :
    store.Has key version ∧ version.commitTs ≤ ts ∧
      ∀ other, store.Has key other → other.commitTs ≤ ts → other.commitTs ≤ version.commitTs := by
  have hit := find?_some found
  simp only [Bool.and_eq_true, decide_eq_true_eq] at hit
  refine ⟨mem_writes.mp ⟨mem_of_find?_eq_some found, hit.2⟩, hit.1, fun other has below => ?_⟩
  obtain ⟨mem, kind⟩ := mem_writes.mpr has
  exact find_newest (writes_sorted key) found other mem (by simp [below, kind])

theorem newest_none (found : newestVersionAt (store.cell key rest) ts = none)
    (has : store.Has key version) : ¬version.commitTs ≤ ts := by
  obtain ⟨mem, kind⟩ := mem_writes.mpr has
  have passed := find?_eq_none.mp found version mem
  simpa [kind] using passed

omit [LinearOrder K] in
theorem Has.unique (distinct : store.layout.Distinct) {left right : Version}
    (one : store.Has key left) (two : store.Has key right) (same : left.commitTs = right.commitTs) :
    left = right := by
  obtain ⟨first, memberOne, ownOne, isLeft⟩ := one
  obtain ⟨second, memberTwo, ownTwo, isRight⟩ := two
  obtain ⟨_, leftTs, _⟩ := version_eq_some.mp isLeft
  obtain ⟨_, rightTs, _⟩ := version_eq_some.mp isRight
  have equal : first = second := by
    refine inj_on_of_nodup_map distinct memberOne memberTwo ?_
    exact Prod.ext (ownOne.trans ownTwo.symm) (leftTs.trans (same.trans rightTs.symm))
  subst equal
  exact Option.some.inj (isLeft.symm.trans isRight)

/-- A read is the same when its newest version stays, or when it is a delete and nothing at
or below the read is left. -/
theorem readWrites_same (distinct : store.layout.Distinct)
    (among : ∀ version, next.Has key version → store.Has key version)
    (kept : ∀ version, store.Has key version → version.commitTs ≤ ts →
      (∀ other, store.Has key other → other.commitTs ≤ ts → other.commitTs ≤ version.commitTs) →
      next.Has key version ∨ version.record.kind = .delete ∧
        ∀ other, next.Has key other → ¬other.commitTs ≤ ts) :
    readWrites (store.cell key rest) ts = readWrites (next.cell key rest) ts := by
  unfold readWrites
  cases before : newestVersionAt (store.cell key rest) ts with
  | none =>
    cases after : newestVersionAt (next.cell key rest) ts with
    | none => rfl
    | some version =>
      obtain ⟨has, below, _⟩ := newest_some after
      exact absurd below (newest_none before (among version has))
  | some version =>
    obtain ⟨has, below, newest⟩ := newest_some before
    cases after : newestVersionAt (next.cell key rest) ts with
    | none =>
      rcases kept version has below newest with stays | ⟨deleted, _⟩
      · exact absurd below (newest_none after stays)
      · simp only [valueOf, deleted]
    | some other =>
      obtain ⟨left, under, latest⟩ := newest_some after
      rcases kept version has below newest with stays | ⟨_, gone⟩
      · have same : version = other := by
          refine has.unique distinct (among other left) (le_antisymm ?_ ?_)
          · exact latest version stays below
          · exact newest other (among other left) under
        subst same
        rfl
      · exact absurd under (gone other left)

end Store

/-! ## What the job does to an entry -/

namespace Job

variable {job : Job K} {seen : Seen K} {entry : Entry K}

theorem emit_cases (job : Job K) (seen : Seen K) (entry : Entry K) :
    (job.emit seen entry).1 = some entry ∨
      (job.emit seen entry).1 = some { entry with record := none } ∨
      (job.emit seen entry).1 = none := by
  unfold emit
  split
  · dsimp only
    split <;> simp
  split
  · split
    · exact .inl rfl
    · dsimp only
      split <;> simp
  · exact .inl rfl

theorem keepAsNewest_cases (seen : Seen K) (key : K) (commitTs : Nat) :
    (keepAsNewest seen key commitTs = (true, some (key, commitTs)) ∧
      ∀ kept, seen = some (key, kept) → kept ≤ commitTs) ∨
    (keepAsNewest seen key commitTs = (false, seen) ∧
      ∃ kept, seen = some (key, kept) ∧ commitTs < kept) := by
  unfold keepAsNewest
  split
  · rename_i held kept
    by_cases same : held = key
    · subst same
      rw [if_pos rfl]
      by_cases newer : kept ≤ commitTs
      · rw [if_pos newer]
        refine .inl ⟨rfl, fun other held => ?_⟩
        cases held
        exact newer
      · rw [if_neg newer]
        exact .inr ⟨rfl, kept, rfl, Nat.lt_of_not_le newer⟩
    · rw [if_neg same]
      refine .inl ⟨rfl, fun other held => ?_⟩
      cases held
      exact absurd rfl same
  · exact .inl ⟨rfl, fun kept held => nomatch held⟩

/-- The record is a version at or below its key's safepoint. -/
def Collects (job : Job K) (key : K) (commitTs : Nat) (record : WriteRecord) : Prop :=
  record.kind.isAVersion ∧ ∃ safepoint, job.safepoint key = some safepoint ∧ commitTs ≤ safepoint

/-- What the filter does to a version at or below the safepoint; anything else leaves the
state alone, and a version above it is kept. -/
theorem filter_cases (job : Job K) (seen : Seen K) (key : K) (commitTs : Nat)
    (record : WriteRecord) :
    (¬job.Collects key commitTs record ∧ (job.filter seen key commitTs record).2 = seen ∧
      (record.kind.isAVersion → (job.filter seen key commitTs record).1 = .keep)) ∨
    (job.Collects key commitTs record ∧ (((∀ kept, seen = some (key, kept) → kept ≤ commitTs) ∧
        (job.filter seen key commitTs record).2 = some (key, commitTs) ∧
        ((job.filter seen key commitTs record).1 = .remove →
          record.kind = .delete ∧ job.nothingBelow key)) ∨
      ((∃ kept, seen = some (key, kept) ∧ commitTs < kept) ∧
        job.filter seen key commitTs record = (.remove, seen)))) := by
  unfold filter Collects
  split
  · rename_i forever
    exact .inl ⟨by simp [forever], rfl, fun _ => rfl⟩
  rename_i safepoint applies
  by_cases kind : record.kind.isAVersion
  · rw [if_neg (not_not_intro kind)]
    by_cases above : safepoint < commitTs
    · rw [if_pos above]
      refine .inl ⟨?_, rfl, fun _ => rfl⟩
      rintro ⟨_, other, same, below⟩
      cases applies.symm.trans same
      omega
    · rw [if_neg above]
      refine .inr ⟨⟨kind, safepoint, applies, Nat.le_of_not_lt above⟩, ?_⟩
      rcases keepAsNewest_cases seen key commitTs with ⟨newest, bound⟩ | ⟨older, why⟩
      · rw [newest]
        refine .inl ⟨bound, rfl, fun removed => ?_⟩
        dsimp only at removed
        split at removed
        · assumption
        · cases removed
      · rw [older]
        exact .inr ⟨why, rfl⟩
  · rw [if_pos kind]
    exact .inl ⟨fun collects => kind collects.1, rfl, fun version => absurd version kind⟩

theorem emit_filtered {record : WriteRecord} (present : entry.record = some record)
    (visible : entry.seqno ≤ job.floor) :
    (job.emit seen entry).2 = (job.filter seen entry.key entry.commitTs record).2 ∧
      ((job.emit seen entry).1 = some entry ↔
        (job.filter seen entry.key entry.commitTs record).1 = .keep) := by
  unfold emit
  rw [present]
  dsimp only
  rw [if_pos visible]
  split
  · rename_i decided
    rw [decided]
    simp
  rename_i decided
  rw [decided]
  refine ⟨rfl, ?_⟩
  dsimp only
  split
  · simp
  simp only [Option.some.injEq, reduceCtorEq, iff_false]
  intro same
  have gone := congrArg Entry.record same
  rw [present] at gone
  cases gone

theorem emit_unfiltered (hidden : entry.record = none ∨ ¬entry.seqno ≤ job.floor) :
    (job.emit seen entry).2 = seen := by
  unfold emit
  rcases hidden with none | unseen
  · rw [none]
  split
  · rfl
  · rw [if_neg unseen]

theorem emit_lost (isVersion : entry.version = some version)
    (lost : (job.emit seen entry).1 ≠ some entry) :
    entry.seqno ≤ job.floor ∧ job.Collects entry.key entry.commitTs version.record ∧
      ((∃ kept, seen = some (entry.key, kept) ∧ entry.commitTs < kept) ∨
        version.record.kind = .delete ∧ job.nothingBelow entry.key ∧
          (job.emit seen entry).2 = some (entry.key, entry.commitTs)) := by
  obtain ⟨present, _, kind⟩ := Store.version_eq_some.mp isVersion
  by_cases visible : entry.seqno ≤ job.floor
  · obtain ⟨state, written⟩ := @emit_filtered _ _ job seen entry _ present visible
    have removed : (job.filter seen entry.key entry.commitTs version.record).1 = .remove := by
      cases decision : (job.filter seen entry.key entry.commitTs version.record).1 with
      | keep => exact absurd (written.mpr decision) lost
      | remove => rfl
    refine ⟨visible, ?_⟩
    rcases job.filter_cases seen entry.key entry.commitTs version.record with
      ⟨_, _, keeps⟩ | ⟨collects, ⟨_, moved, drops⟩ | ⟨older, _⟩⟩
    · rw [keeps kind] at removed
      cases removed
    · exact ⟨collects, .inr ⟨(drops removed).1, (drops removed).2, state.trans moved⟩⟩
    · exact ⟨collects, .inl older⟩
  · refine absurd ?_ lost
    unfold emit
    rw [present]
    dsimp only
    rw [if_neg visible]

theorem emit_state (job : Job K) (seen : Seen K) (entry : Entry K) :
    (job.emit seen entry).2 = seen ∨ ∃ version, entry.version = some version ∧
      job.Collects entry.key entry.commitTs version.record ∧
      (job.emit seen entry).2 = some (entry.key, entry.commitTs) ∧
      ∀ kept, seen = some (entry.key, kept) → kept ≤ entry.commitTs := by
  cases present : entry.record with
  | none => exact .inl (emit_unfiltered (.inl present))
  | some record =>
    by_cases visible : entry.seqno ≤ job.floor
    · obtain ⟨state, _⟩ := @emit_filtered _ _ job seen entry _ present visible
      rcases job.filter_cases seen entry.key entry.commitTs record with
        ⟨_, stays, _⟩ | ⟨collects, ⟨newest, moved, _⟩ | ⟨_, removed⟩⟩
      · exact .inl (state.trans stays)
      · exact .inr ⟨⟨entry.commitTs, record⟩,
          Store.version_eq_some.mpr ⟨present, rfl, collects.1⟩, collects, state.trans moved,
          newest⟩
      · exact .inl (by rw [state, removed])
    · exact .inl (emit_unfiltered (.inr visible))

/-! ## A whole run of the job -/

theorem run_cons (job : Job K) (seen : Seen K) (entry : Entry K) (rest : List (Entry K)) :
    job.run seen (entry :: rest) =
      ((job.emit seen entry).1.toList ++ (job.run (job.emit seen entry).2 rest).1,
        (job.run (job.emit seen entry).2 rest).2) :=
  rfl

variable {entries : List (Entry K)} {older : Entry K}

theorem of_mem_emit {written : Entry K} (mem : written ∈ (job.emit seen entry).1.toList)
    (present : written.record ≠ none) : written = entry ∧ (job.emit seen entry).1 = some entry := by
  rcases job.emit_cases seen entry with kept | tombstone | dropped
  · rw [kept] at mem
    exact ⟨mem_singleton.mp mem, kept⟩
  · rw [tombstone] at mem
    exact absurd (congrArg Entry.record (mem_singleton.mp mem)) present
  · rw [dropped] at mem
    cases mem

theorem mem_of_mem_run {written : Entry K} (mem : written ∈ (job.run seen entries).1)
    (present : written.record ≠ none) : written ∈ entries := by
  induction entries generalizing seen with
  | nil => cases mem
  | cons entry rest ih =>
    rw [run_cons] at mem
    rcases mem_append.mp mem with here | later
    · rw [(of_mem_emit here present).1]
      exact .head _
    · exact .tail _ (ih later)

theorem run_keys (job : Job K) (seen : Seen K) (entries : List (Entry K)) :
    List.Sublist ((job.run seen entries).1.map Entry.engineKey) (entries.map Entry.engineKey) := by
  induction entries generalizing seen with
  | nil => exact .slnil
  | cons entry rest ih =>
    rw [run_cons, map_append, map_cons]
    have tail := ih (job.emit seen entry).2
    rcases job.emit_cases seen entry with kept | tombstone | dropped
    · rw [kept]
      exact tail.cons_cons _
    · rw [tombstone]
      exact tail.cons_cons _
    · rw [dropped]
      exact tail.cons _

/-- What the collector remembers of a key is no newer than the newest version it would keep. -/
def SeenHolds (job : Job K) (has : K → Version → Prop) (seen : Seen K) : Prop :=
  ∀ key kept, seen = some (key, kept) → ∃ safepoint, job.safepoint key = some safepoint ∧
    kept ≤ safepoint ∧ ∀ version, has key version → version.commitTs ≤ safepoint →
      ∃ newest, has key newest ∧ newest.commitTs ≤ safepoint ∧ kept ≤ newest.commitTs

variable {has : K → Version → Prop}

section

variable (holds : job.SeenHolds has seen)
include holds

theorem SeenHolds.emit (known : ∀ version, entry.version = some version → has entry.key version) :
    job.SeenHolds has (job.emit seen entry).2 := by
  rcases job.emit_state seen entry with stays | ⟨version, isVersion, collects, moved, _⟩
  · rw [stays]
    exact holds
  rw [moved]
  intro key kept same
  cases same
  obtain ⟨_, safepoint, applies, below⟩ := collects
  obtain ⟨_, timestamp, _⟩ := Store.version_eq_some.mp isVersion
  exact ⟨safepoint, applies, below, fun _ _ _ =>
    ⟨version, known version isVersion, timestamp ▸ below, timestamp.le⟩⟩

theorem SeenHolds.run
    (known : ∀ entry ∈ entries, ∀ version, entry.version = some version → has entry.key version) :
    job.SeenHolds has (job.run seen entries).2 := by
  induction entries generalizing seen with
  | nil => exact holds
  | cons entry rest ih =>
    rw [run_cons]
    exact ih (holds.emit (known entry (.head _))) fun later mem => known later (.tail _ mem)

/-- No version of the key at or below the safepoint is newer. -/
def Newest (job : Job K) (has : K → Version → Prop) (key : K) (commitTs : Nat) : Prop :=
  ∀ safepoint, job.safepoint key = some safepoint → commitTs ≤ safepoint →
    ∀ other, has key other → other.commitTs ≤ safepoint → other.commitTs ≤ commitTs

omit [LinearOrder K] in
theorem SeenHolds.not_ahead {kept : Nat}
    (present : has key version) (newest : job.Newest has key version.commitTs)
    (collects : job.Collects key version.commitTs version.record) (same : seen = some (key, kept)) :
    kept ≤ version.commitTs := by
  obtain ⟨safepoint, applies, _, ahead⟩ := holds key kept same
  obtain ⟨_, other, sameSafepoint, below⟩ := collects
  cases applies.symm.trans sameSafepoint
  obtain ⟨latest, found, under, above⟩ := ahead version present below
  exact above.trans (newest safepoint applies below latest found under)

/-- A version above the safepoint is written, and so is the newest one at or below it, unless
it is a delete with nothing below. -/
theorem newest_written
    (known : ∀ entry ∈ entries, ∀ version, entry.version = some version → has entry.key version)
    (mem : entry ∈ entries) (isVersion : entry.version = some version)
    (newest : job.Newest has entry.key version.commitTs) : entry ∈ (job.run seen entries).1 ∨
      job.Collects entry.key entry.commitTs version.record ∧ version.record.kind = .delete ∧
        job.nothingBelow entry.key := by
  induction entries generalizing seen with
  | nil => cases mem
  | cons first rest ih =>
    rw [run_cons]
    rcases mem_cons.mp mem with rfl | later
    · by_cases written : (job.emit seen entry).1 = some entry
      · exact .inl (mem_append_left _ (by simp [written]))
      obtain ⟨_, collects, ⟨kept, same, older⟩ | ⟨deleted, nothing, _⟩⟩ :=
        emit_lost isVersion written
      · obtain ⟨_, timestamp, _⟩ := Store.version_eq_some.mp isVersion
        have bound := holds.not_ahead (known entry (.head _) version isVersion) newest
          (timestamp ▸ collects) same
        omega
      · exact .inr ⟨collects, deleted, nothing⟩
    · rcases ih (holds.emit (known first (.head _)))
        (fun entry mem => known entry (.tail _ mem)) later with written | dropped
      · exact .inl (mem_append_right _ written)
      · exact .inr dropped

end

section

variable (sorted : entries.Pairwise fun left right => keyLe left.engineKey right.engineKey)
  (distinct : (entries.map Entry.engineKey).Nodup)
include sorted distinct

theorem older_dropped {newest : Nat}
    (after : ∀ entry ∈ entries, key ≤ entry.key ∧ (entry.key = key → entry.commitTs < newest))
    (mem : older ∈ entries) (own : older.key = key) (isVersion : older.version = some version)
    (visible : older.seqno ≤ job.floor)
    (collects : job.Collects older.key older.commitTs version.record) :
    older ∉ (job.run (some (key, newest)) entries).1 := by
  obtain ⟨present, _, _⟩ := Store.version_eq_some.mp isVersion
  have recorded : older.record ≠ none := by simp [present]
  induction entries with
  | nil => cases mem
  | cons first rest ih =>
    obtain ⟨before, tail⟩ := pairwise_cons.mp sorted
    obtain ⟨fresh, distinctTail⟩ := nodup_cons.mp distinct
    -- Everything up to the older version is of its key.
    have same : first.key = key := by
      rcases mem_cons.mp mem with rfl | later
      · exact own
      rcases before older later with below | ⟨same, _⟩
      · exact absurd (own ▸ below : first.key < key) (not_lt.mpr (after first (.head _)).1)
      · exact same.trans own
    have newer := (after first (.head _)).2 same
    have stays : (job.emit (some (key, newest)) first).2 = some (key, newest) := by
      rcases job.emit_state (some (key, newest)) first with stays | ⟨_, _, _, _, bound⟩
      · exact stays
      · have ahead := bound newest (by rw [same])
        omega
    rw [run_cons, stays]
    intro written
    rcases mem_append.mp written with here | later
    · obtain ⟨isFirst, whole⟩ := of_mem_emit here recorded
      rcases mem_cons.mp mem with rfl | inRest
      · -- The older version itself is met with a newer one remembered.
        have keeps := (@emit_filtered _ _ job (some (key, newest)) older _ present visible).2.mp whole
        rcases job.filter_cases (some (key, newest)) older.key older.commitTs version.record with
          ⟨not, _⟩ | ⟨_, ⟨bound, _⟩ | ⟨_, removed⟩⟩
        · exact not collects
        · have ahead := bound newest (by rw [same])
          omega
        · rw [removed] at keeps
          cases keeps
      · exact fresh (isFirst ▸ mem_map_of_mem inRest)
    · have inRest := mem_of_mem_run later recorded
      exact ih tail distinctTail (fun entry mem => after entry (.tail _ mem)) inRest later

theorem segment_dropped {deleted : Entry K} {oldVersion : Version} (holds : job.SeenHolds has seen)
    (known : ∀ entry ∈ entries, ∀ version, entry.version = some version → has entry.key version)
    (mem : deleted ∈ entries) (isVersion : deleted.version = some version)
    (newest : job.Newest has deleted.key version.commitTs)
    (lost : deleted ∉ (job.run seen entries).1) (among : older ∈ entries)
    (own : older.key = deleted.key) (isOld : older.version = some oldVersion)
    (before : older.commitTs < deleted.commitTs) (visible : older.seqno ≤ job.floor) :
    older ∉ (job.run seen entries).1 := by
  obtain ⟨present, _, kind⟩ := Store.version_eq_some.mp isOld
  have recorded : older.record ≠ none := by simp [present]
  induction entries generalizing seen with
  | nil => cases mem
  | cons first rest ih =>
    obtain ⟨ahead, tail⟩ := pairwise_cons.mp sorted
    obtain ⟨fresh, distinctTail⟩ := nodup_cons.mp distinct
    rw [run_cons] at lost ⊢
    rcases mem_cons.mp mem with rfl | inRest
    · have gone : (job.emit seen deleted).1 ≠ some deleted := fun whole =>
        lost (mem_append_left _ (by simp [whole]))
      have olderInRest : older ∈ rest := by
        rcases mem_cons.mp among with rfl | later
        · exact absurd before (lt_irrefl _)
        · exact later
      obtain ⟨_, collects, ⟨kept, same, above⟩ | ⟨_, _, moved⟩⟩ := emit_lost isVersion gone
      · obtain ⟨_, timestamp, _⟩ := Store.version_eq_some.mp isVersion
        have bound := holds.not_ahead (known deleted (.head _) version isVersion) newest
          (timestamp ▸ collects) same
        omega
      · rw [moved]
        intro written
        rcases mem_append.mp written with here | later
        · exact gone (of_mem_emit here recorded).2
        refine older_dropped tail distinctTail (fun entry inside => ?_) olderInRest own isOld
          visible ?_ later
        · have different : deleted.engineKey ≠ entry.engineKey := fun same =>
            fresh (same ▸ mem_map_of_mem inside)
          rcases ahead entry inside with below | ⟨same, not⟩
          · exact ⟨below.le, fun same => absurd below (not_lt.mpr same.le)⟩
          · refine ⟨same.le, fun _ => lt_of_le_of_ne not fun equal => different ?_⟩
            exact Prod.ext same equal.symm
        · obtain ⟨_, safepoint, applies, below⟩ := collects
          exact ⟨kind, safepoint, own ▸ applies, before.le.trans below⟩
    · have notFirst : older ≠ first := by
        rintro rfl
        rcases ahead deleted inRest with below | ⟨_, newer⟩
        · exact absurd below (not_lt.mpr own.symm.le)
        · exact absurd before (not_lt.mpr newer)
      have olderInRest := (mem_cons.mp among).resolve_left notFirst
      intro written
      rcases mem_append.mp written with here | later
      · exact notFirst (of_mem_emit here recorded).1
      exact ih tail distinctTail (holds.emit (known first (.head _)))
        (fun entry mem => known entry (.tail _ mem)) inRest
        (fun inside => lost (mem_append_right _ inside)) olderInRest later

end

end Job

/-! ## Compactions -/

namespace Store

variable {policy : RetentionPolicy K} {depth floor level : Nat} {store next : Store K}
  {seed : List (File K)} {outputs : List (File K)} {written : List (Entry K)} {seen : Seen K}

def untouched (store : Store K) (level : Nat) (seed : List (File K)) : List (Entry K) :=
  Layout.entries (store.layout.filter fun placed => !store.takes level seed placed)

theorem entries_perm (store : Store K) (level : Nat) (seed : List (File K)) :
    (store.untouched level seed ++ store.merged level seed).Perm store.layout.entries := by
  have split := (filter_append_perm (store.takes level seed) store.layout).flatMap_right
    fun placed => placed.2.entries
  rw [flatMap_append] at split
  refine List.Perm.trans ?_ split
  refine perm_append_comm.trans (List.Perm.append_right _ ?_)
  exact perm_insertionSort _ _

theorem mem_entries : entry ∈ store.layout.entries ↔
      entry ∈ store.untouched level seed ∨ entry ∈ store.merged level seed := by
  rw [← (store.entries_perm level seed).mem_iff, mem_append]

theorem entries_compacted (cut : outputs.flatMap File.entries = written) :
    (store.compacted level seed outputs seen).layout.entries =
      store.untouched level seed ++ written := by
  unfold compacted Layout.entries untouched
  rw [flatMap_append, flatMap_map, ← cut]
  rfl

theorem merged_sorted (store : Store K) (level : Nat) (seed : List (File K)) :
    (store.merged level seed).Pairwise fun left right =>
      keyLe left.engineKey right.engineKey := by
  have total : Std.Total fun left right : Entry K =>
      keyLe left.engineKey right.engineKey := by
    refine ⟨fun left right => ?_⟩
    rcases lt_trichotomy left.key right.key with less | same | more
    · exact .inl (.inl less)
    · rcases le_total left.commitTs right.commitTs with older | newer
      · exact .inr (.inr ⟨same.symm, older⟩)
      · exact .inl (.inr ⟨same, newer⟩)
    · exact .inr (.inl more)
  have transitive : IsTrans (Entry K) fun left right =>
      keyLe left.engineKey right.engineKey := by
    refine ⟨fun left middle right one two => ?_⟩
    rcases one with less | ⟨same, newer⟩ <;> rcases two with further | ⟨equal, older⟩
    · exact .inl (less.trans further)
    · exact .inl (equal ▸ less)
    · exact .inl (same ▸ further)
    · exact .inr ⟨same.trans equal, older.trans newer⟩
  exact pairwise_insertionSort _ _

theorem merged_distinct (distinct : store.layout.Distinct) (level : Nat) (seed : List (File K)) :
    ((store.untouched level seed ++ store.merged level seed).map Entry.engineKey).Nodup :=
  ((store.entries_perm level seed).map Entry.engineKey).nodup_iff.mpr distinct

/-- What the collector remembers from earlier compactions. -/
def Remembers (policy : RetentionPolicy K) (store : Store K) : Prop :=
  ∀ key kept, store.seen = some (key, kept) → ∃ safepoint,
    policy.effectiveSafepoint key store.published = some safepoint ∧ kept ≤ safepoint ∧
      ∀ version, store.Has key version → version.commitTs ≤ safepoint →
        ∃ newest, store.Has key newest ∧ newest.commitTs ≤ safepoint ∧ kept ≤ newest.commitTs

theorem known_merged : ∀ entry ∈ store.merged level seed, ∀ version,
    entry.version = some version → store.Has entry.key version :=
  fun entry mem _ isVersion => ⟨entry, mem_entries.mpr (.inr mem), rfl, isVersion⟩

section Compaction

variable (distinct : store.layout.Distinct) (remembers : store.Remembers policy)
  (ran : (store.job policy depth floor level).run store.seen (store.merged level seed) =
    (written, seen))
  (cut : outputs.flatMap File.entries = written)
  (gathers : store.Gathers policy depth floor level seed)

include ran cut in
theorem has_of_compacted (has : (store.compacted level seed outputs seen).Has key version) :
    store.Has key version := by
  obtain ⟨rfl, _⟩ := Prod.ext_iff.mp ran
  obtain ⟨entry, mem, own, isVersion⟩ := has
  rw [entries_compacted cut] at mem
  refine ⟨entry, mem_entries.mpr ((mem_append.mp mem).imp_right fun inside => ?_), own, isVersion⟩
  obtain ⟨present, _, _⟩ := version_eq_some.mp isVersion
  exact Job.mem_of_mem_run inside (by simp [present])

include distinct remembers ran cut gathers in
/-- The newest version at or below a read above the safepoint stays, or it is a delete and
every older version goes with it. -/
theorem newest_stays
    (above : ∀ safepoint, policy.effectiveSafepoint key store.published = some safepoint →
      safepoint ≤ ts) (has : store.Has key version)
    (newest : ∀ other, store.Has key other → other.commitTs ≤ ts →
      other.commitTs ≤ version.commitTs) :
    (store.compacted level seed outputs seen).Has key version ∨ version.record.kind = .delete ∧
        ∀ other, (store.compacted level seed outputs seen).Has key other →
          ¬other.commitTs ≤ ts := by
  obtain ⟨rfl, _⟩ := Prod.ext_iff.mp ran
  obtain ⟨entry, mem, rfl, isVersion⟩ := has
  have holds : (store.job policy depth floor level).SeenHolds store.Has store.seen := remembers
  have first : (store.job policy depth floor level).Newest store.Has entry.key
      version.commitTs := fun safepoint applies _ other has under =>
    newest other has (under.trans (above safepoint applies))
  by_cases stays : entry ∈ (store.compacted level seed outputs seen).layout.entries
  · exact .inl ⟨entry, stays, rfl, isVersion⟩
  rw [entries_compacted cut, mem_append, not_or] at stays
  have read : entry ∈ store.merged level seed := (mem_entries.mp mem).resolve_left stays.1
  obtain ⟨collects, deleted, nothing⟩ :=
    (Job.newest_written holds known_merged read isVersion first).resolve_left stays.2
  obtain ⟨_, timestamp, _⟩ := version_eq_some.mp isVersion
  refine .inr ⟨deleted, fun other has under => ?_⟩
  -- An older version of the key is among the inputs, and goes with the delete.
  have before := newest other (has_of_compacted ran cut has) under
  obtain ⟨old, oldMember, own, isOld⟩ := has
  obtain ⟨present, oldTs, _⟩ := version_eq_some.mp isOld
  have keys := merged_distinct distinct level seed
  rw [entries_compacted cut] at oldMember
  have oldBefore : old ∈ store.layout.entries := by
    refine mem_entries.mpr ((mem_append.mp oldMember).imp_right fun inside => ?_)
    exact Job.mem_of_mem_run inside (by simp [present])
  have different : old.commitTs ≠ entry.commitTs := by
    intro same
    have equal : old = entry := inj_on_of_nodup_map distinct oldBefore mem (Prod.ext own same)
    rcases mem_append.mp oldMember with kept | inside
    · exact stays.1 (equal ▸ kept)
    · exact stays.2 (equal ▸ inside)
  have older : old.commitTs < entry.commitTs := by omega
  obtain ⟨oldRead, visible⟩ := gathers entry read version isVersion deleted nothing
    collects.2 old oldBefore own (by simp [isOld]) older
  rw [map_append] at keys
  have gone := Job.segment_dropped (merged_sorted store level seed)
    (nodup_append.mp keys).2.1 holds known_merged read isVersion first stays.2 oldRead own
    isOld older visible
  rcases mem_append.mp oldMember with kept | inside
  · exact (nodup_append.mp keys).2.2 _ (mem_map_of_mem kept) _ (mem_map_of_mem oldRead) rfl
  · exact gone inside

include distinct ran cut in
theorem compacted_distinct : (store.compacted level seed outputs seen).layout.Distinct := by
  have keys := merged_distinct distinct level seed
  have fewer := (store.job policy depth floor level).run_keys store.seen (store.merged level seed)
  rw [ran] at fewer
  unfold Layout.Distinct
  rw [entries_compacted cut, map_append]
  rw [map_append] at keys
  exact keys.sublist (fewer.append_left _)

include distinct remembers ran cut gathers in
theorem compacted_remembers : (store.compacted level seed outputs seen).Remembers policy := by
  have holds : (store.job policy depth floor level).SeenHolds store.Has
      ((store.job policy depth floor level).run store.seen (store.merged level seed)).2 :=
    Job.SeenHolds.run remembers known_merged
  rw [ran] at holds
  intro key kept same
  obtain ⟨safepoint, applies, bound, ahead⟩ := holds key kept same
  refine ⟨safepoint, applies, bound, fun version has below => ?_⟩
  have before := has_of_compacted ran cut has
  cases found : newestVersionAt (store.cell key ⟨none, [], []⟩) safepoint with
  | none => exact absurd below (newest_none found before)
  | some newest =>
    obtain ⟨present, under, latest⟩ := newest_some found
    obtain ⟨other, hasOther, underOther, above⟩ := ahead version before below
    rcases newest_stays distinct remembers ran cut gathers (fun other same => by
      cases applies.symm.trans same; exact le_rfl) present latest with stays | ⟨_, gone⟩
    · exact ⟨newest, stays, under, above.trans (latest other hasOther underOther)⟩
    · exact absurd below (gone version has)

end Compaction

/-! ## Runs -/

theorem run_remembers {start : Store K} (distinct : start.layout.Distinct)
    (fresh : start.seen = none) (run : Run False policy depth start store) :
    store.layout.Distinct ∧ store.Remembers policy := by
  induction run with
  | refl => exact ⟨distinct, fun key kept same => by simp [fresh] at same⟩
  | tail _ step ih =>
    obtain ⟨distinct, remembers⟩ := ih
    cases step with
    | publish rises =>
      refine ⟨distinct, fun key kept same => ?_⟩
      obtain ⟨safepoint, applies, bound, ahead⟩ := remembers key kept same
      obtain ⟨risen, later, higher⟩ := policy.effectiveSafepoint_mono rises applies
      refine ⟨risen, later, bound.trans higher, fun version has below => ?_⟩
      by_cases under : version.commitTs ≤ safepoint
      · obtain ⟨newest, found, low, above⟩ := ahead version has under
        exact ⟨newest, found, low.trans higher, above⟩
      · exact ⟨version, has, below, bound.trans (Nat.le_of_not_le under)⟩
    | compact compacts =>
      cases compacts with
      | compact source inside ran cut gathers =>
        have gathers := gathers.resolve_left id
        exact ⟨compacted_distinct distinct ran cut,
          compacted_remembers distinct remembers ran cut gathers⟩

/-- Along a run whose compactions each take, with a delete they could drop, every older
version of its key, no compaction changes a read at or above the key's safepoint. -/
theorem collection_preserves_reads {start : Store K} (distinct : start.layout.Distinct)
    (fresh : start.seen = none) (run : Run False policy depth start store)
    (compacts : Compacts False policy depth store next) {key : K} {ts : Nat}
    (above : ∀ safepoint, policy.effectiveSafepoint key store.published = some safepoint →
      safepoint ≤ ts) (rest : Cell K) :
    Esker.Txn.read (store.cell key rest) ts = Esker.Txn.read (next.cell key rest) ts := by
  obtain ⟨distinct, remembers⟩ := run_remembers distinct fresh run
  have writes : readWrites (store.cell key rest) ts = readWrites (next.cell key rest) ts := by
    cases compacts with
    | compact source inside ran cut gathers =>
      have gathers := gathers.resolve_left id
      exact readWrites_same distinct (fun version has => has_of_compacted ran cut has)
        fun version has _ newest =>
          newest_stays distinct remembers ran cut gathers above has newest
  unfold Esker.Txn.read
  rw [writes]
  rfl

/-- A compaction of the range of both files takes both: both records go, and the key stays
deleted. -/
theorem collection_preserves_reads_gathered :
    ∃ next, Compacts False plainPolicy 7 scatteredStore next ∧ next.layout.entries = [] ∧
      Esker.Txn.read (next.cell 7 ⟨none, [], []⟩) 20 = .ok .notFound := by
  have whole : ∀ older ∈ scatteredStore.layout.entries,
      older ∈ scatteredStore.merged 1 (scatteredStore.layout.files 1) ∧ older.seqno ≤ 2 := by
    decide
  have compacts := @Compacts.compact _ _ False plainPolicy 7 scatteredStore 1 2
    (scatteredStore.layout.files 1) [] [] (some (7, 10)) (fun _ member => member) (by decide)
    (by decide) rfl (.inr fun _ _ _ _ _ _ _ older member _ _ _ => whole older member)
  have applies : ∀ safepoint, plainPolicy.effectiveSafepoint 7 scatteredStore.published =
      some safepoint → safepoint ≤ 20 := by
    intro safepoint same
    cases (by decide : plainPolicy.effectiveSafepoint 7 scatteredStore.published =
      some 20).symm.trans same
    exact le_rfl
  have same := collection_preserves_reads (by unfold Layout.Distinct; decide) rfl .refl compacts
    applies ⟨none, [], []⟩
  exact ⟨_, compacts, by decide, same.symm.trans (by decide)⟩

end Store

end Esker.Gc
