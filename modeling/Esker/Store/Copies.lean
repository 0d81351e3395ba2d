import Esker.SortedMap

/-!
Contract: the columnar copies of a region beside its row store (`ColumnarSlot` of
`esker-store/src/columnar/region.rs`, `ColumnarApply` of `esker-store/src/columnar/mod.rs`, the tee
of `apply` in `esker-store/src/peer.rs`).

Owns: the open copies, their runs and manifests, the index the slot was told about, every order of
entries, tees, opens, seals, closes, installs, splits and crashes, and when the runs that are handed
out hold the versions of the row store.

Does not own: how an entry decides which versions it commits. The log says which versions of a
table's rows each entry left in the `write` family, and an applied index stands for the state that
the entries up to it left.
-/

namespace Esker.Store.Copies

open List SortedMap Function

/-- The entries of a region: the tables each one touches, and the versions it leaves of them. -/
structure Log (T X : Type) where
  touches : Nat → List T
  versions : Nat → T → List X
  touched : ∀ index table, versions index table ≠ [] → table ∈ touches index
  wanted : T → Bool

/-- An open copy: its sealed runs, the rows that are buffered, and `complete_index`. -/
structure Copy (X : Type) where
  runs : List X
  buffered : List X
  complete : Nat
deriving DecidableEq, Repr

def Copy.held {X : Type} (copy : Copy X) : List X := copy.runs ++ copy.buffered

inductive Stage where
  | idle
  | written
  | told
deriving DecidableEq, Repr

/-- The region on this store, its slot, and what the copies have on disk. -/
structure Slot (T X : Type) [LinearOrder T] where
  applied : Nat
  truncated : Nat
  stage : Stage
  seen : Nat
  copies : SortedMap T (Copy X)
  missing : T → Bool
  /-- The index that a manifest names, and the runs it lists. Zero is no manifest. -/
  manifest : T → Nat × List X
  inside : X → Bool

/-- What the entries after one index and up to another left of a table: `replay`. -/
def Log.replay {T X : Type} (log : Log T X) (table : T) (first last : Nat) : List X :=
  (List.range (last - first)).flatMap fun step => log.versions (first + step + 1) table

section Steps

variable {T X : Type} [LinearOrder T]

namespace Slot

variable (log : Log T X) (slot : Slot T X) (table : T)

/-- `ColumnarApply::seal`: what is buffered becomes a run, and the manifest names the last entry
that was fed to its end. -/
def sealTable : Slot T X :=
  match slot.copies.lookup table with
  | none => slot
  | some copy =>
    if copy.buffered.isEmpty then slot
    else
      { slot with
        copies := slot.copies.insert table ⟨copy.held, [], copy.complete⟩
        manifest := update slot.manifest table (copy.complete, copy.held) }

/-- `resume`, or `rebuild` by a walk when the manifest does not let it: there is none, the log
begins after it, or it names an index that the region has not reached. -/
def built : List X :=
  let first := (slot.manifest table).1
  if first = 0 ∨ first < slot.truncated ∨ slot.applied < first then
    (log.replay table 0 slot.applied).filter slot.inside
  else (slot.manifest table).2 ++ log.replay table first slot.applied

/-- `ensure`: opens the copy of a table that asks for one, and publishes it as built to the applied
index. -/
def ensure : Slot T X :=
  if (slot.copies.lookup table).isSome || slot.missing table then slot
  else if !log.wanted table then
    { slot with missing := update slot.missing table true }
  else
    { slot with
      copies := slot.copies.insert table ⟨slot.built log table, [], slot.applied⟩
      manifest := update slot.manifest table (slot.applied, slot.built log table)
      seen := max slot.seen slot.applied }

/-- `saw`: an entry that does not follow the last one drops every copy. -/
def saw (index : Nat) : Slot T X :=
  if !slot.copies.entries.isEmpty && decide (slot.seen + 1 < index) then
    { slot with copies := SortedMap.empty, seen := max slot.seen index }
  else { slot with seen := max slot.seen index }

def feed (versions : List X) : Slot T X :=
  match slot.copies.lookup table with
  | none => slot
  | some copy =>
    { slot with
      copies := slot.copies.insert table { copy with buffered := copy.buffered ++ versions } }

/-- `entry_applied` on a table that the entry touched. -/
def finishEntry (index : Nat) : Slot T X :=
  match slot.copies.lookup table with
  | none => slot
  | some copy =>
    { slot with
      copies := slot.copies.insert table { copy with complete := max copy.complete index } }

/-- `ColumnarSlot::commit` on one table that the applied entry touched. A copy that is built by
this very call holds the entry already. -/
def teeTable : Slot T X :=
  if (slot.copies.lookup table).isSome then
    (slot.feed table (log.versions slot.applied table)).finishEntry table slot.applied
  else (slot.ensure log table).finishEntry table slot.applied

def close : Slot T X :=
  { slot with copies := SortedMap.empty, missing := fun _ => false }

/-- `table`: the runs of an open copy, sealed first. -/
def tableRuns : Option (List X) :=
  ((slot.sealTable table).copies.lookup table).map Copy.runs

end Slot

inductive Event (T X : Type) where
  | write
  | saw
  | feedPart (table : T) (part : List X)
  | tee
  | teeFailed
  | untold
  /-- A snapshot of the region is installed: the slot is dropped. -/
  | install (index : Nat)
  | openTable (table : T)
  | sealTable (table : T)
  | close
  /-- `install_record`: a newer record closes the table's copy. -/
  | installRecord (table : T)
  | split (keeps : X → Bool)
  | truncate (index : Nat)
  /-- A crash, after which the region's state is that of an index. -/
  | crash (index : Nat)

namespace Slot

variable [DecidableEq X] (log : Log T X)

/-- One event. An event at a moment it cannot happen changes nothing. -/
def step (slot : Slot T X) : Event T X → Slot T X
  | .write =>
    if slot.stage = .idle then { slot with applied := slot.applied + 1, stage := .written }
    else slot
  | .saw =>
    if slot.stage = .written then { slot.saw slot.applied with stage := .told } else slot
  | .feedPart table part =>
    if slot.stage = .told ∧ ∀ version ∈ part, version ∈ log.versions slot.applied table then
      slot.feed table part
    else slot
  | .tee =>
    if slot.stage = .told then
      { (log.touches slot.applied).foldl (fun slot table => slot.teeTable log table) slot with
        stage := .idle }
    else slot
  | .teeFailed => if slot.stage = .told then { slot.close with stage := .idle } else slot
  | .untold => if slot.stage = .idle then { slot with applied := slot.applied + 1 } else slot
  | .install index =>
    if slot.stage = .idle ∧ slot.applied < index then
      { slot.close with applied := index, truncated := index, seen := 0 }
    else slot
  | .openTable table =>
    { slot with missing := update slot.missing table false }.ensure log table
  | .sealTable table => slot.sealTable table
  | .close => slot.close
  | .installRecord table =>
    { slot with
      copies := slot.copies.erase table
      missing := update slot.missing table false }
  | .split keeps => { slot with inside := fun version => slot.inside version && keeps version }
  | .truncate index => { slot with truncated := max slot.truncated (min index slot.applied) }
  | .crash index =>
    { slot.close with applied := min index slot.applied, stage := .idle, seen := 0 }

def after (slot : Slot T X) (events : List (Event T X)) : Slot T X :=
  events.foldl (fun slot event => slot.step log event) slot

end Slot

end Steps

/-! ## What a copy holds -/

section Holding

variable {T X : Type} {log : Log T X} {table : T}

/-- Every version of the table in the range that the entries up to the index left is held. -/
def Holds (log : Log T X) (inside : X → Bool) (table : T) (held : List X) (index : Nat) : Prop :=
  ∀ entry, 0 < entry → entry ≤ index → ∀ version ∈ log.versions entry table,
    inside version = true → version ∈ held

/-- Nothing is held but what the entries up to the index left. -/
def Sourced (log : Log T X) (table : T) (held : List X) (index : Nat) : Prop :=
  ∀ version ∈ held, ∃ entry, 0 < entry ∧ entry ≤ index ∧ version ∈ log.versions entry table

variable {inside : X → Bool}

theorem Holds.mono {held : List X} {index lower : Nat}
    (holds : Holds log inside table held index) (le : lower ≤ index) :
    Holds log inside table held lower := fun entry positive atMost =>
  holds entry positive (atMost.trans le)

theorem Holds.more {held more : List X} {index : Nat}
    (holds : Holds log inside table held index) (subset : held ⊆ more) :
    Holds log inside table more index := fun entry positive atMost version isLeft isInside =>
  subset (holds entry positive atMost version isLeft isInside)

theorem mem_replay {first last : Nat} {version : X} : version ∈ log.replay table first last ↔
      ∃ entry, first < entry ∧ entry ≤ last ∧ version ∈ log.versions entry table := by
  unfold Log.replay
  rw [mem_flatMap]
  constructor
  · rintro ⟨step, isStep, isLeft⟩
    rw [mem_range] at isStep
    exact ⟨first + step + 1, by omega, by omega, isLeft⟩
  rintro ⟨entry, above, atMost, isLeft⟩
  refine ⟨entry - first - 1, by rw [mem_range]; omega, ?_⟩
  rwa [show first + (entry - first - 1) + 1 = entry by omega]

theorem Sourced.mono {held : List X} {index higher : Nat} (sourced : Sourced log table held index)
    (le : index ≤ higher) : Sourced log table held higher := by
  intro version mem
  obtain ⟨entry, positive, atMost, isLeft⟩ := sourced version mem
  exact ⟨entry, positive, atMost.trans le, isLeft⟩

variable [LinearOrder T]

/-- What a slot keeps of its open copies and of its manifests. Between being told of an entry and
being fed with it, the copies are one entry behind. -/
structure Mirrors (log : Log T X) (slot : Slot T X) : Prop where
  seen : slot.seen ≤ slot.applied
  told : slot.stage = .told → slot.seen = slot.applied
  running : slot.stage ≠ .idle → 0 < slot.applied
  copies : ∀ table copy, slot.copies.lookup table = some copy →
    Holds log slot.inside table copy.held
      (if slot.stage = .told then slot.seen - 1 else slot.seen) ∧
    Holds log slot.inside table copy.held copy.complete ∧
    Sourced log table copy.held slot.seen
  disk : ∀ table, Holds log slot.inside table (slot.manifest table).2 (slot.manifest table).1 ∧
    Sourced log table (slot.manifest table).2 (max (slot.manifest table).1 slot.applied)

theorem built_holds {slot : Slot T X} (mirrors : Mirrors log slot) (table : T) :
    Holds log slot.inside table (slot.built log table) slot.applied ∧
      Sourced log table (slot.built log table) slot.applied := by
  obtain ⟨onDisk, sourced⟩ := mirrors.disk table
  unfold Slot.built
  dsimp only
  split
  · constructor
    · intro entry positive atMost version isLeft isInside
      exact mem_filter.mpr ⟨mem_replay.mpr ⟨entry, positive, atMost, isLeft⟩, isInside⟩
    intro version mem
    exact mem_replay.mp (mem_filter.mp mem).1
  case isFalse usable =>
    have reached : max (slot.manifest table).1 slot.applied = slot.applied :=
      max_eq_right (not_lt.mp fun ahead => usable (.inr (.inr ahead)))
    constructor
    · intro entry positive atMost version isLeft isInside
      rw [mem_append]
      by_cases old : entry ≤ (slot.manifest table).1
      · exact .inl (onDisk entry positive old version isLeft isInside)
      · exact .inr (mem_replay.mpr ⟨entry, by omega, atMost, isLeft⟩)
    · intro version mem
      rcases mem_append.mp mem with old | replayed
      · exact reached ▸ sourced version old
      · obtain ⟨entry, above, atMost, isLeft⟩ := mem_replay.mp replayed
        exact ⟨entry, by omega, atMost, isLeft⟩

variable {map : SortedMap T (Copy X)}

theorem lookup_insert_cases {at_ : T} {copy found : Copy X}
    (isFound : (map.insert table copy).lookup at_ = some found) :
    at_ = table ∧ found = copy ∨ at_ ≠ table ∧ map.lookup at_ = some found := by
  by_cases same : at_ = table
  · subst same
    rw [lookup_insert_self] at isFound
    exact .inl ⟨rfl, (Option.some.inj isFound).symm⟩
  · rw [lookup_insert_of_ne _ _ same] at isFound
    exact .inr ⟨same, isFound⟩

theorem lookup_of_entries_nil (isEmpty : map.entries = []) (at_ : T) : map.lookup at_ = none := by
  unfold SortedMap.lookup
  rw [isEmpty]
  rfl

theorem Mirrors.closed {slot : Slot T X} (mirrors : Mirrors log slot) {after : Slot T X}
    (none : ∀ at_, after.copies.lookup at_ = none) (inside : after.inside = slot.inside)
    (manifest : after.manifest = slot.manifest) (seen : after.seen ≤ after.applied)
    (told : after.stage = .told → after.seen = after.applied)
    (running : after.stage ≠ .idle → 0 < after.applied)
    (kept : slot.applied ≤ after.applied ∨
      ∀ table, Sourced log table (slot.manifest table).2 (slot.manifest table).1) :
    Mirrors log after where
  seen := seen
  told := told
  running := running
  copies := by
    intro at_ copy found
    rw [none at_] at found
    cases found
  disk := by
    intro at_
    obtain ⟨holds, sourced⟩ := mirrors.disk at_
    rw [inside, manifest]
    refine ⟨holds, ?_⟩
    rcases kept with noLess | whole
    · exact sourced.mono (max_le_max_left _ noLess)
    · exact (whole at_).mono (le_max_left _ _)

variable {slot : Slot T X}

theorem Mirrors.sealTable (mirrors : Mirrors log slot) (table : T) :
    Mirrors log (slot.sealTable table) := by
  unfold Slot.sealTable
  split
  · exact mirrors
  case h_2 copy found =>
    split
    · exact mirrors
    obtain ⟨level, complete, sourced⟩ := mirrors.copies table copy found
    have sealed : (⟨copy.held, [], copy.complete⟩ : Copy X).held = copy.held :=
      append_nil _
    refine ⟨mirrors.seen, mirrors.told, mirrors.running, fun at_ other isOther => ?_,
      fun at_ => ?_⟩
    · rcases lookup_insert_cases isOther with ⟨rfl, rfl⟩ | ⟨_, old⟩
      · rw [sealed]
        exact ⟨level, complete, sourced⟩
      · exact mirrors.copies at_ other old
    · by_cases same : at_ = table
      · subst same
        dsimp only
        rw [update_self]
        exact ⟨complete, sourced.mono (mirrors.seen.trans (le_max_right _ _))⟩
      · dsimp only
        rw [update_of_ne same]
        exact mirrors.disk at_

theorem Mirrors.ensure (mirrors : Mirrors log slot) (table : T)
    (calm : slot.copies.entries = [] ∨ slot.seen = slot.applied) :
    Mirrors log (slot.ensure log table) := by
  unfold Slot.ensure
  split
  · exact mirrors
  split
  · exact { mirrors with }
  obtain ⟨holds, sourced⟩ := built_holds mirrors table
  have seen : max slot.seen slot.applied = slot.applied := Nat.max_eq_right mirrors.seen
  have held : (⟨slot.built log table, [], slot.applied⟩ : Copy X).held = slot.built log table :=
    append_nil _
  refine ⟨by dsimp only; omega, fun _ => seen, mirrors.running, fun at_ other isOther => ?_,
    fun at_ => ?_⟩
  · dsimp only
    rw [seen]
    rcases lookup_insert_cases isOther with ⟨rfl, rfl⟩ | ⟨_, old⟩
    · rw [held]
      exact ⟨holds.mono (by split <;> omega), holds, sourced⟩
    rcases calm with isEmpty | upToDate
    · rw [lookup_of_entries_nil isEmpty] at old
      cases old
    · rw [← upToDate]
      exact mirrors.copies at_ other old
  · dsimp only
    by_cases same : at_ = table
    · subst same
      rw [update_self]
      exact ⟨holds, sourced.mono (le_max_right _ _)⟩
    · rw [update_of_ne same]
      exact mirrors.disk at_

theorem Mirrors.feed (mirrors : Mirrors log slot) (table : T) {part : List X}
    (isPart : Sourced log table part slot.seen) : Mirrors log (slot.feed table part) := by
  unfold Slot.feed
  split
  · exact mirrors
  case h_2 copy found =>
    obtain ⟨level, complete, sourced⟩ := mirrors.copies table copy found
    have held : ({ copy with buffered := copy.buffered ++ part } : Copy X).held =
        copy.held ++ part := (append_assoc _ _ _).symm
    refine ⟨mirrors.seen, mirrors.told, mirrors.running, fun at_ other isOther => ?_,
      mirrors.disk⟩
    rcases lookup_insert_cases isOther with ⟨rfl, rfl⟩ | ⟨_, old⟩
    · rw [held]
      refine ⟨level.more (subset_append_left _ _), complete.more (subset_append_left _ _),
        fun version mem => ?_⟩
      exact (mem_append.mp mem).elim (sourced version) (isPart version)
    · exact mirrors.copies at_ other old

structure Frame (table : T) (slot after : Slot T X) : Prop where
  applied : after.applied = slot.applied
  stage : after.stage = slot.stage
  inside : after.inside = slot.inside
  others : ∀ at_, at_ ≠ table → after.copies.lookup at_ = slot.copies.lookup at_

theorem Frame.refl (table : T) (slot : Slot T X) : Frame table slot slot :=
  ⟨rfl, rfl, rfl, fun _ _ => rfl⟩

theorem Frame.trans {first second third : Slot T X} (before : Frame table first second)
    (after : Frame table second third) : Frame table first third :=
  ⟨after.applied.trans before.applied, after.stage.trans before.stage,
    after.inside.trans before.inside, fun at_ other =>
      (after.others at_ other).trans (before.others at_ other)⟩

theorem feed_frame (table : T) (part : List X) : Frame table slot (slot.feed table part) := by
  unfold Slot.feed
  split
  · exact Frame.refl table slot
  · exact ⟨rfl, rfl, rfl, fun at_ other => lookup_insert_of_ne _ _ other⟩

theorem finishEntry_frame (table : T) (index : Nat) :
    Frame table slot (slot.finishEntry table index) := by
  unfold Slot.finishEntry
  split
  · exact Frame.refl table slot
  · exact ⟨rfl, rfl, rfl, fun at_ other => lookup_insert_of_ne _ _ other⟩

theorem ensure_frame (table : T) : Frame table slot (slot.ensure log table) := by
  unfold Slot.ensure
  split
  · exact Frame.refl table slot
  split
  · exact ⟨rfl, rfl, rfl, fun _ _ => rfl⟩
  · exact ⟨rfl, rfl, rfl, fun at_ other => lookup_insert_of_ne _ _ other⟩

/-- The copy of a table, where one is open, holds the applied entry. -/
def Fed (log : Log T X) (slot : Slot T X) (table : T) : Prop :=
  ∀ copy, slot.copies.lookup table = some copy →
    Holds log slot.inside table copy.held slot.applied

theorem Fed.frame {after : Slot T X} (fed : Fed log slot table) {other : T}
    (frame : Frame other slot after) (different : table ≠ other) : Fed log after table := by
  intro copy found
  rw [frame.others table different] at found
  rw [frame.inside, frame.applied]
  exact fed copy found

theorem Mirrors.finishEntry (mirrors : Mirrors log slot) (fed : Fed log slot table) :
    Mirrors log (slot.finishEntry table slot.applied) ∧
      Fed log (slot.finishEntry table slot.applied) table := by
  unfold Slot.finishEntry
  split
  · exact ⟨mirrors, fed⟩
  case h_2 copy found =>
    obtain ⟨level, complete, sourced⟩ := mirrors.copies table copy found
    have holds := fed copy found
    refine ⟨⟨mirrors.seen, mirrors.told, mirrors.running, fun at_ other isOther => ?_,
      mirrors.disk⟩, ?_⟩
    · rcases lookup_insert_cases isOther with ⟨rfl, rfl⟩ | ⟨_, old⟩
      · refine ⟨level, ?_, sourced⟩
        rcases Nat.le_total copy.complete slot.applied with less | more
        · rw [Nat.max_eq_right less]
          exact holds
        · rw [Nat.max_eq_left more]
          exact complete
      · exact mirrors.copies at_ other old
    · intro other isOther
      rw [lookup_insert_self] at isOther
      rw [← Option.some.inj isOther]
      exact holds

theorem Mirrors.teeTable (mirrors : Mirrors log slot) (told : slot.stage = .told) (table : T) :
    Mirrors log (slot.teeTable log table) ∧ Fed log (slot.teeTable log table) table ∧
      Frame table slot (slot.teeTable log table) := by
  have upToDate := mirrors.told told
  unfold Slot.teeTable
  split
  case isTrue isOpen =>
    obtain ⟨copy, found⟩ := Option.isSome_iff_exists.mp isOpen
    obtain ⟨level, _, _⟩ := mirrors.copies table copy found
    rw [if_pos told, upToDate] at level
    have frame := @feed_frame T X _ slot table (log.versions slot.applied table)
    have fed : Fed log (slot.feed table (log.versions slot.applied table)) table := by
      intro other isOther
      rw [frame.inside, frame.applied]
      unfold Slot.feed at isOther
      rw [found] at isOther
      rw [lookup_insert_self] at isOther
      rw [← Option.some.inj isOther]
      intro entry positive atMost version isLeft isInside
      rw [Copy.held, ← append_assoc, mem_append]
      by_cases isLast : entry = slot.applied
      · rw [isLast] at isLeft
        exact .inr isLeft
      · exact .inl (level entry positive (by omega) version isLeft isInside)
    have fromEntry : Sourced log table (log.versions slot.applied table) slot.seen :=
      fun version isLeft => ⟨slot.applied, mirrors.running (by rw [told]; decide), upToDate.ge,
        isLeft⟩
    have finished := (mirrors.feed table fromEntry).finishEntry fed
    rw [frame.applied] at finished
    exact ⟨finished.1, finished.2, frame.trans (finishEntry_frame table slot.applied)⟩
  case isFalse notOpen =>
    have frame := @ensure_frame T X log _ slot table
    have fed : Fed log (slot.ensure log table) table := by
      intro copy found
      rw [frame.inside, frame.applied]
      unfold Slot.ensure at found
      split at found
      · rw [found] at notOpen
        exact absurd rfl notOpen
      split at found
      · dsimp only at found
        rw [found] at notOpen
        exact absurd rfl notOpen
      rw [lookup_insert_self] at found
      rw [← Option.some.inj found]
      exact (built_holds mirrors table).1.more (subset_append_left _ _)
    have finished := (mirrors.ensure table (.inr upToDate)).finishEntry fed
    rw [frame.applied] at finished
    exact ⟨finished.1, finished.2, frame.trans (finishEntry_frame table slot.applied)⟩

theorem Mirrors.teeAll (tables : List T) :
    ∀ {slot : Slot T X}, Mirrors log slot → slot.stage = .told →
      let fed := tables.foldl (fun slot table => slot.teeTable log table) slot
      Mirrors log fed ∧ fed.stage = .told ∧ fed.applied = slot.applied ∧
        (∀ table, table ∈ tables ∨ Fed log slot table → Fed log fed table) := by
  induction tables with
  | nil =>
    intro slot mirrors told
    exact ⟨mirrors, told, rfl, fun table either =>
      either.elim (fun mem => absurd mem not_mem_nil) id⟩
  | cons head rest ih =>
    intro slot mirrors told
    obtain ⟨stepped, headFed, frame⟩ := mirrors.teeTable told head
    obtain ⟨after, stage, applied, fed⟩ := ih stepped (frame.stage.trans told)
    refine ⟨after, stage, applied.trans frame.applied, fun table either => fed table ?_⟩
    by_cases isHead : table = head
    · exact .inr (isHead ▸ headFed)
    rcases either with mem | already
    · exact .inl ((mem_cons.mp mem).resolve_left isHead)
    · exact .inr (already.frame frame isHead)

end Holding

/-! ## Along every run -/

section Runs

variable {T X : Type} [LinearOrder T] {log : Log T X} {slot : Slot T X}

theorem Mirrors.saw (mirrors : Mirrors log slot) (written : slot.stage = .written) :
    Mirrors log { slot.saw slot.applied with stage := .told } := by
  have seen : max slot.seen slot.applied = slot.applied := Nat.max_eq_right mirrors.seen
  have running := mirrors.running (by rw [written]; decide)
  unfold Slot.saw
  split
  · exact mirrors.closed (fun _ => rfl) rfl rfl (Nat.le_of_eq seen) (fun _ => seen)
      (fun _ => running) (.inl le_rfl)
  case isFalse noGap =>
    refine ⟨Nat.le_of_eq seen, fun _ => seen, fun _ => running, fun at_ copy found => ?_,
      mirrors.disk⟩
    obtain ⟨level, complete, sourced⟩ := mirrors.copies at_ copy found
    rw [if_neg (by rw [written]; decide)] at level
    refine ⟨level.mono ?_, complete, sourced.mono (le_max_left _ _)⟩
    dsimp only
    rw [if_pos rfl, seen]
    -- A copy is open, so the entry follows the last one the slot was told of.
    by_contra behind
    apply noGap
    rw [Bool.and_eq_true, decide_eq_true_eq]
    refine ⟨?_, by omega⟩
    cases isEmpty : slot.copies.entries with
    | nil =>
      have missing : slot.copies.lookup at_ = none := lookup_of_entries_nil isEmpty at_
      rw [missing] at found
      cases found
    | cons => rfl

theorem Mirrors.tee (mirrors : Mirrors log slot) (told : slot.stage = .told) : Mirrors log
      { (log.touches slot.applied).foldl (fun slot table => slot.teeTable log table) slot with
        stage := .idle } := by
  obtain ⟨after, stage, applied, fed⟩ := Mirrors.teeAll (log.touches slot.applied) mirrors told
  have upToDate := after.told stage
  refine ⟨after.seen, fun idle => (by cases idle), fun idle => absurd rfl idle,
    fun at_ copy found => ?_, after.disk⟩
  obtain ⟨level, complete, sourced⟩ := after.copies at_ copy found
  refine ⟨?_, complete, sourced⟩
  rw [if_neg (by intro isTold; cases isTold), show (List.foldl (fun slot table =>
    slot.teeTable log table) slot (log.touches slot.applied)).seen = slot.applied from
      upToDate.trans applied]
  by_cases touched : at_ ∈ log.touches slot.applied
  · have level := fed at_ (.inl touched) copy found
    rwa [applied] at level
  -- An entry that did not touch the table left no version of it.
  rw [if_pos stage, upToDate, applied] at level
  intro entry positive atMost version isLeft isInside
  by_cases isLast : entry = slot.applied
  · rw [isLast] at isLeft
    exact absurd (log.touched _ at_ (ne_nil_of_mem isLeft)) touched
  · exact level entry positive (by omega) version isLeft isInside

def Slot.initial (inside : X → Bool) : Slot T X :=
  ⟨0, 0, .idle, 0, SortedMap.empty, fun _ => false, fun _ => (0, []), inside⟩

open Slot (initial)

theorem initial_mirrors (inside : X → Bool) : Mirrors log (initial inside) where
  seen := Nat.le_refl 0
  told := fun told => by cases told
  running := fun running => absurd rfl running
  copies := by
    intro at_ copy found
    cases found
  disk := by
    intro at_
    refine ⟨fun entry positive atMost => ?_, fun version mem => absurd mem not_mem_nil⟩
    exact absurd (Nat.lt_of_lt_of_le positive atMost) (Nat.lt_irrefl 0)

theorem tableRuns_held {table : T} {runs : List X} (taken : slot.tableRuns table = some runs) :
    ∃ copy, (slot.sealTable table).copies.lookup table = some copy ∧ copy.held = runs := by
  unfold Slot.tableRuns at taken
  obtain ⟨copy, found, rfl⟩ := Option.map_eq_some_iff.mp taken
  refine ⟨copy, found, ?_⟩
  unfold Slot.sealTable at found
  split at found
  case h_1 missing =>
    rw [missing] at found
    cases found
  case h_2 old isOld =>
    split at found
    case isTrue isEmpty =>
      rw [isOld] at found
      rw [← Option.some.inj found, Copy.held, isEmpty_iff.mp isEmpty, append_nil]
    case isFalse =>
      rw [lookup_insert_self] at found
      rw [← Option.some.inj found]
      exact append_nil _

theorem Mirrors.disk_later (mirrors : Mirrors log slot) {applied : Nat}
    (later : slot.applied ≤ applied) (table : T) :
    Holds log slot.inside table (slot.manifest table).2 (slot.manifest table).1 ∧
      Sourced log table (slot.manifest table).2 (max (slot.manifest table).1 applied) :=
  (mirrors.disk table).imp_right fun sourced => sourced.mono (max_le_max_left _ later)

theorem Mirrors.guarded (mirrors : Mirrors log slot) {after : Slot T X} {allowed : Prop}
    [Decidable allowed] (moves : allowed → Mirrors log after) :
    Mirrors log (if allowed then after else slot) := by
  split
  case isTrue holds => exact moves holds
  case isFalse => exact mirrors

variable [DecidableEq X]

/-- A fragment opens a table when the slot has been told of everything that is applied, or has no
open copy. A crash loses no applied entry, or finds no manifest that lists a part of an entry after
the one it names. -/
def Calm (log : Log T X) (slot : Slot T X) : Event T X → Prop
  | .openTable _ => slot.copies.entries = [] ∨ slot.seen = slot.applied
  | .crash index => slot.applied ≤ index ∨
      ∀ table, Sourced log table (slot.manifest table).2 (slot.manifest table).1
  | _ => True

def CalmRun (log : Log T X) : Slot T X → List (Event T X) → Prop
  | _, [] => True
  | slot, event :: rest => Calm log slot event ∧ CalmRun log (slot.step log event) rest

theorem Mirrors.step (mirrors : Mirrors log slot) {event : Event T X}
    (calm : Calm log slot event) :
    Mirrors log (slot.step log event) := by
  cases event with
  | write =>
    refine mirrors.guarded fun idle => ⟨mirrors.seen.trans (Nat.le_succ _),
      fun told => (by cases told), fun _ => Nat.succ_pos _, fun at_ copy found => ?_,
      fun at_ => mirrors.disk_later (Nat.le_succ _) at_⟩
    have held := mirrors.copies at_ copy found
    rw [if_neg (by rw [idle]; decide)] at held
    exact held
  | saw => exact mirrors.guarded mirrors.saw
  | feedPart table part =>
    exact mirrors.guarded fun isPart => mirrors.feed table fun version mem =>
      ⟨slot.applied, mirrors.running (by rw [isPart.1]; decide), (mirrors.told isPart.1).ge,
        isPart.2 version mem⟩
  | tee => exact mirrors.guarded mirrors.tee
  | teeFailed =>
    exact mirrors.guarded fun _ => mirrors.closed (fun _ => rfl) rfl rfl mirrors.seen
      (fun told => by cases told) (fun running => absurd rfl running) (.inl le_rfl)
  | untold =>
    exact mirrors.guarded fun idle => ⟨mirrors.seen.trans (Nat.le_succ _),
      fun told => absurd (idle.symm.trans told) (by decide), fun _ => Nat.succ_pos _,
      mirrors.copies, fun at_ => mirrors.disk_later (Nat.le_succ _) at_⟩
  | install index =>
    exact mirrors.guarded fun idle => mirrors.closed (fun _ => rfl) rfl rfl (Nat.zero_le _)
      (fun told => absurd (idle.1.symm.trans told) (by decide))
      (fun running => absurd idle.1 running) (.inl idle.2.le)
  | openTable table =>
    have same : Mirrors log { slot with missing := update slot.missing table false } :=
      { mirrors with }
    exact same.ensure table calm
  | sealTable table => exact mirrors.sealTable table
  | close =>
    exact mirrors.closed (fun _ => rfl) rfl rfl mirrors.seen mirrors.told mirrors.running
      (.inl le_rfl)
  | installRecord table =>
    refine ⟨mirrors.seen, mirrors.told, mirrors.running, fun at_ copy found => ?_, mirrors.disk⟩
    apply mirrors.copies at_ copy
    rw [SortedMap.lookup_eq_some_iff] at found ⊢
    exact (SortedMap.mem_erase.mp found).2
  | split keeps =>
    have narrow {at_ : T} {held : List X} {index : Nat}
        (holds : Holds log slot.inside at_ held index) :
        Holds log (fun version => slot.inside version && keeps version) at_ held index :=
      fun entry positive atMost version isLeft isInside =>
        holds entry positive atMost version isLeft (Bool.and_eq_true_iff.mp isInside).1
    refine ⟨mirrors.seen, mirrors.told, mirrors.running, fun at_ copy found => ?_, fun at_ => ?_⟩
    · obtain ⟨level, complete, sourced⟩ := mirrors.copies at_ copy found
      exact ⟨narrow level, narrow complete, sourced⟩
    · exact ⟨narrow (mirrors.disk at_).1, (mirrors.disk at_).2⟩
  | truncate index => exact { mirrors with }
  | crash index =>
    exact mirrors.closed (fun _ => rfl) rfl rfl (Nat.zero_le _) (fun told => by cases told)
      (fun running => absurd rfl running) (calm.imp_left fun all => le_min all le_rfl)

theorem Mirrors.after (mirrors : Mirrors log slot) {events : List (Event T X)}
    (calm : CalmRun log slot events) : Mirrors log (slot.after log events) := by
  induction events generalizing slot with
  | nil => exact mirrors
  | cons event rest ih => exact ih (mirrors.step calm.1) calm.2

/-- Under every order of events in which a fragment opens a table only when the slot has been told
of everything that is applied or has no open copy, and no crash loses an entry of which a manifest
lists a part, the runs of a table that are handed out with no entry between being seen and being fed
hold, of the versions in the range, exactly those that the entries up to the last one the slot was
told of left. -/
theorem runs_mirror_rows (log : Log T X) (inside : X → Bool) {events : List (Event T X)}
    (calm : CalmRun log (initial inside) events) {table : T} {runs : List X}
    (settled : ((initial inside).after log events).stage ≠ .told)
    (taken : ((initial inside).after log events).tableRuns table = some runs) (version : X)
    (within : ((initial inside).after log events).inside version = true) :
    version ∈ runs ↔ ∃ entry, 0 < entry ∧ entry ≤ ((initial inside).after log events).seen ∧
      version ∈ log.versions entry table := by
  have mirrors := (@initial_mirrors T X _ log inside).after calm
  have sealed := mirrors.sealTable table
  obtain ⟨copy, found, rfl⟩ := tableRuns_held taken
  obtain ⟨level, _, sourced⟩ := sealed.copies table copy found
  have same : ((initial inside).after log events |>.sealTable table).stage =
      ((initial inside).after log events).stage ∧
      ((initial inside).after log events |>.sealTable table).seen =
      ((initial inside).after log events).seen ∧
      ((initial inside).after log events |>.sealTable table).inside =
      ((initial inside).after log events).inside := by
    unfold Slot.sealTable
    split
    · exact ⟨rfl, rfl, rfl⟩
    · split <;> exact ⟨rfl, rfl, rfl⟩
  rw [same.1, same.2.1, same.2.2, if_neg settled] at level
  rw [same.2.1] at sourced
  refine ⟨sourced version, ?_⟩
  rintro ⟨entry, positive, atMost, isLeft⟩
  exact level entry positive atMost version isLeft within

/-- One table, which every entry touches and leaves its own number in. -/
def countingLog : Log Nat Nat where
  touches _ := [1]
  versions entry table := if table = 1 then [entry] else []
  touched := by
    intro entry table left
    by_cases isOne : table = 1
    · rw [isOne]
      exact mem_singleton_self 1
    · rw [if_neg isOne] at left
      exact absurd rfl left
  wanted _ := true

def twoEntries : List (Event Nat Nat) :=
  [.write, .saw, .tee, .openTable 1, .write, .saw, .tee]

theorem two_entries_mirrored :
    ((initial fun _ => true).after countingLog twoEntries).tableRuns 1 = some [1, 2] ∧
      (2 ∈ [1, 2] ↔ ∃ entry, 0 < entry ∧
        entry ≤ ((initial fun _ => true).after countingLog twoEntries).seen ∧
          2 ∈ countingLog.versions entry 1) :=
  ⟨by decide, @runs_mirror_rows Nat Nat _ _ countingLog (fun _ => true) twoEntries
    ⟨trivial, trivial, trivial, .inr rfl, trivial, trivial, trivial, trivial⟩ 1 [1, 2]
    (by decide) (by decide) 2 rfl⟩

/-- The slot has seen the second entry and not been fed with it: its runs are without it. -/
theorem seen_entry_missing : ((initial fun _ => true).after countingLog
        [.write, .saw, .tee, .openTable 1, .write, .saw]).seen = 2 ∧
      ((initial fun _ => true).after countingLog
        [.write, .saw, .tee, .openTable 1, .write, .saw]).tableRuns 1 = some [1] ∧
      2 ∈ countingLog.versions 2 1 := by
  decide

-- An entry that the slot was not told of is skipped without a gap being seen when another table is
-- opened in between: opening raises the index of the whole slot.
example :
    ((initial fun _ => true).after countingLog
      [.write, .saw, .tee, .openTable 1, .untold, .openTable 2, .write, .saw, .tee]).tableRuns 1 =
        some [1, 3] := by
  decide

end Runs

end Esker.Store.Copies
