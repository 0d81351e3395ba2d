import Esker.Txn.Percolator
import Mathlib

/-!
Contract: collecting old versions of the `write` family while it is compacted
(`MvccCollector` and `RetentionPolicy` of `esker-store/src/gc.rs`, `CompactionJob::run` of
`esker-engine/src/compaction/job.rs`, `assemble` and `nothing_below` of
`esker-engine/src/compaction/picker.rs`).

Owns: the effective safepoint, the filter with the state it keeps between entries and between
compactions, the compaction job over a sorted run of entries, and which files a compaction
takes.

A write record has an engine key of its own, so each stands in one file. Which level is worst
and which of its files is due is left open. Records that do not decode are left out.

Does not own: range tombstones and their discharge.
-/

namespace Esker.Gc

open Esker.Txn (Version WriteRecord Kind Cell)

section Model

variable {K : Type} [LinearOrder K]

/-! ## Safepoints -/

structure RetentionPolicy (K : Type) where
  defaultMs : Nat
  retentionMs : K → Nat

def retentionForever : Nat := 2 ^ 64 - 1

def tsoLogicalBits : Nat := 18

/-- The safepoint that applies to a key; `none` collects nothing. The distance is a `u64`
shift, which drops the bits it pushes out. -/
def RetentionPolicy.effectiveSafepoint (policy : RetentionPolicy K) (key : K)
    (published : Nat) : Option Nat :=
  if policy.retentionMs key = retentionForever then none
  else if policy.retentionMs key < policy.defaultMs then some published
  else
    let extra := (policy.retentionMs key - policy.defaultMs) * 2 ^ tsoLogicalBits % 2 ^ 64
    if extra ≤ published then some (published - extra) else none

omit [LinearOrder K] in
theorem RetentionPolicy.effectiveSafepoint_mono (policy : RetentionPolicy K) {key : K}
    {published later safepoint : Nat} (rises : published ≤ later)
    (applies : policy.effectiveSafepoint key published = some safepoint) :
    ∃ risen, policy.effectiveSafepoint key later = some risen ∧ safepoint ≤ risen := by
  unfold effectiveSafepoint at applies ⊢
  split at applies
  · cases applies
  rename_i bounded
  rw [if_neg bounded]
  split at applies
  · rename_i shorter
    cases applies
    exact ⟨later, if_pos shorter, rises⟩
  rename_i longer
  rw [if_neg longer]
  dsimp only at applies ⊢
  split at applies
  · rename_i fits
    cases applies
    exact ⟨_, if_pos (fits.trans rises), Nat.sub_le_sub_right rises _⟩
  · cases applies

/-! ## Files -/

/-- An entry of the `write` family: a record, or the engine's tombstone for its key. -/
structure Entry (K : Type) where
  key : K
  commitTs : Nat
  seqno : Nat
  record : Option WriteRecord
deriving DecidableEq, Repr

namespace Entry

def engineKey (entry : Entry K) : K × Nat := (entry.key, entry.commitTs)

/-- The version the entry is, if it says what its key holds. -/
def version (entry : Entry K) : Option Version :=
  entry.record.bind fun record =>
    if record.kind.isAVersion then some ⟨entry.commitTs, record⟩ else none

end Entry

/-- The engine's order: by user key, and newer timestamps first. -/
def keyLe (left right : K × Nat) : Prop :=
  left.1 < right.1 ∨ left.1 = right.1 ∧ right.2 ≤ left.2

instance (left right : K × Nat) : Decidable (keyLe left right) :=
  inferInstanceAs (Decidable (_ ∨ _))

structure File (K : Type) where
  number : Nat
  entries : List (Entry K)
deriving DecidableEq, Repr

def File.bounds (file : File K) : Option ((K × Nat) × (K × Nat)) :=
  match file.entries.head?, file.entries.getLast? with
  | some first, some last => some (first.engineKey, last.engineKey)
  | _, _ => none

abbrev Layout (K : Type) := List (Nat × File K)

namespace Layout

variable (layout : Layout K) (level : Nat)

def files : List (File K) :=
  (layout.filter fun placed => placed.1 = level).map Prod.snd

def entries (layout : Layout K) : List (Entry K) := layout.flatMap fun placed => placed.2.entries

def overlapping (low high : K × Nat) : List (File K) :=
  (layout.files level).filter fun file =>
    match file.bounds with
    | some (smallest, largest) => decide (keyLe low largest) && decide (keyLe smallest high)
    | none => false

variable (files : List (File K))

def rangeOf : Option ((K × Nat) × (K × Nat)) :=
  files.foldl (fun bounds file =>
    match bounds, file.bounds with
    | none, range => range
    | some range, none => some range
    | some (low, high), some (smallest, largest) =>
      some (if keyLe low smallest then low else smallest,
        if keyLe largest high then high else largest)) none

/-- Grows a set of level-0 files until it holds every one that overlaps its range. -/
def l0Closure (layout : Layout K) : Nat → List (File K) → List (File K)
  | 0, files => files
  | fuel + 1, files =>
    match rangeOf files with
    | none => files
    | some (low, high) =>
      let grown := layout.overlapping 0 low high
      if grown.length = files.length then grown else l0Closure layout fuel grown

/-- The level-0 closure at level 0; the files themselves elsewhere. Every round but the last
adds a file, so the number of files is rounds enough. -/
def closed : List (File K) :=
  if level = 0 then l0Closure layout ((layout.files 0).length + 1) files else files

/-- The files of `level + 1` in the range of `files`. -/
def overlappedBy : List (File K) :=
  match rangeOf files with
  | some (low, high) => layout.overlapping (level + 1) low high
  | none => []

/-- Grows a seed into a compaction: its inputs at `level`, and those at `level + 1`. -/
def assemble (seed : List (File K)) : List (File K) × List (File K) :=
  let inputs := layout.closed level seed
  let overlapped := layout.overlappedBy level inputs
  match rangeOf overlapped with
  | none => (inputs, overlapped)
  | some (low, high) =>
    let expanded := layout.closed level (layout.overlapping level low high)
    let still := layout.overlappedBy level expanded
    if inputs.length < expanded.length ∧ still.length = overlapped.length then (expanded, still)
    else (inputs, overlapped)

/-- Whether no level below `level + 1` holds any version of the key. -/
def nothingBelow (depth level : Nat) (key : K) : Bool :=
  (List.range depth).all fun below =>
    below < level + 2 || (layout.overlapping below (key, 2 ^ 64 - 1) (key, 0)).isEmpty

/-- Whether no level below `level + 1` holds the engine key. -/
def isBottom (depth level : Nat) (key : K × Nat) : Bool :=
  (List.range depth).all fun below =>
    below < level + 2 || (layout.overlapping below key key).isEmpty

/-- The levels' invariant: files are sorted and not empty, and below level 0 those of one
level do not overlap. -/
def LevelsHold : Prop :=
  (∀ placed ∈ layout, placed.2.entries ≠ [] ∧
    placed.2.entries.Pairwise fun left right => keyLe left.engineKey right.engineKey) ∧
  layout.Pairwise fun left right => left.1 = right.1 → 0 < left.1 →
    ∀ one ∈ left.2.entries, ∀ two ∈ right.2.entries,
      keyLe one.engineKey two.engineKey ∧ one.engineKey ≠ two.engineKey

/-- Each record has an engine key of its own, so that none shadows another. -/
def Distinct : Prop := (layout.entries.map Entry.engineKey).Nodup

end Layout

/-! ## The filter -/

inductive FilterDecision where
  | keep
  | remove
deriving DecidableEq, Repr

/-- What the collector remembers: the key it is on, and the version it kept of it. -/
abbrev Seen (K : Type) := Option (K × Nat)

def keepAsNewest (seen : Seen K) (key : K) (commitTs : Nat) : Bool × Seen K :=
  match seen with
  | some (held, kept) =>
    if held = key then
      if kept ≤ commitTs then (true, some (key, commitTs)) else (false, seen)
    else (true, some (key, commitTs))
  | none => (true, some (key, commitTs))

structure Job (K : Type) where
  policy : RetentionPolicy K
  published : Nat
  floor : Nat
  isBottom : K × Nat → Bool
  nothingBelow : K → Bool

namespace Job

def safepoint (job : Job K) (key : K) : Option Nat :=
  job.policy.effectiveSafepoint key job.published

def filter (job : Job K) (seen : Seen K) (key : K) (commitTs : Nat) (record : WriteRecord) :
    FilterDecision × Seen K :=
  match job.safepoint key with
  | none => (.keep, seen)
  | some safepoint =>
    if ¬record.kind.isAVersion then
      let bound := if record.kind = .rollback then record.startTs else commitTs
      (if bound < safepoint then .remove else .keep, seen)
    else if safepoint < commitTs then (.keep, seen)
    else
      match keepAsNewest seen key commitTs with
      | (true, seen) =>
        (if record.kind = .delete ∧ job.nothingBelow key then .remove else .keep, seen)
      | (false, seen) => (.remove, seen)

def emit (job : Job K) (seen : Seen K) (entry : Entry K) : Option (Entry K) × Seen K :=
  match entry.record with
  | none => (if entry.seqno ≤ job.floor ∧ job.isBottom entry.engineKey then none else some entry, seen)
  | some record =>
    if entry.seqno ≤ job.floor then
      match job.filter seen entry.key entry.commitTs record with
      | (.keep, seen) => (some entry, seen)
      | (.remove, seen) =>
        -- Vanishing outright is only safe where nothing older is underneath.
        (if job.isBottom entry.engineKey then none else some { entry with record := none }, seen)
    else (some entry, seen)

def run (job : Job K) : Seen K → List (Entry K) → List (Entry K) × Seen K
  | seen, [] => ([], seen)
  | seen, entry :: rest =>
    let (emitted, next) := job.emit seen entry
    let (written, last) := job.run next rest
    (emitted.toList ++ written, last)

end Job

/-! ## Compactions -/

structure Store (K : Type) where
  layout : Layout K
  published : Nat
  seen : Seen K

namespace Store

variable (store : Store K)

/-- The `write` records of a key, newest first. -/
def writes (key : K) : List Version :=
  (store.layout.entries.filterMap fun entry =>
    if entry.key = key then entry.record.map fun record => (⟨entry.commitTs, record⟩ : Version)
    else none).insertionSort fun left right => right.commitTs ≤ left.commitTs

/-- The key with its locks and values, which no compaction of this family touches. -/
def cell (key : K) (rest : Cell K) : Cell K :=
  { rest with writes := store.writes key }

/-- The files a compaction from `seed` takes. -/
def takes (level : Nat) (seed : List (File K)) (placed : Nat × File K) : Bool :=
  let (inputs, overlapped) := store.layout.assemble level seed
  (decide (placed.1 = level) && decide (placed.2 ∈ inputs)) ||
    (decide (placed.1 = level + 1) && decide (placed.2 ∈ overlapped))

def merged (level : Nat) (seed : List (File K)) : List (Entry K) :=
  (Layout.entries (store.layout.filter (store.takes level seed))).insertionSort fun left right =>
    keyLe left.engineKey right.engineKey

def job (policy : RetentionPolicy K) (depth floor level : Nat) (store : Store K) : Job K :=
  ⟨policy, store.published, floor, store.layout.isBottom depth level,
    store.layout.nothingBelow depth level⟩

/-- The store after a compaction that wrote `outputs`. -/
def compacted (level : Nat) (seed : List (File K)) (outputs : List (File K)) (seen : Seen K) : Store K :=
  { store with
    layout := (store.layout.filter fun placed => !store.takes level seed placed) ++
      outputs.map fun file => (level + 1, file)
    seen }

/-- A delete at or below the safepoint that the compaction reads, with nothing below, has every
older version of its key with it, all of them visible to every reader. -/
def Gathers (policy : RetentionPolicy K) (depth floor level : Nat) (store : Store K)
    (seed : List (File K)) : Prop :=
  ∀ entry ∈ store.merged level seed, ∀ version, entry.version = some version →
    version.record.kind = .delete → store.layout.nothingBelow depth level entry.key →
    (∃ safepoint, policy.effectiveSafepoint entry.key store.published = some safepoint ∧
      entry.commitTs ≤ safepoint) →
    ∀ older ∈ store.layout.entries, older.key = entry.key → older.version.isSome →
      older.commitTs < entry.commitTs → older ∈ store.merged level seed ∧ older.seqno ≤ floor

/-- A compaction from some files of `level`: from the one that `pick` takes, or from those in the
range of `pick_range`. The job may cut its output between any two entries.
Whether it may leave older versions of a delete behind is a parameter. -/
inductive Compacts (scattered : Prop) (policy : RetentionPolicy K) (depth : Nat) :
    Store K → Store K → Prop
  | compact {store : Store K} {level floor : Nat} {seed : List (File K)} {outputs : List (File K)}
      {written : List (Entry K)} {seen : Seen K}
      (source : ∀ file ∈ seed, file ∈ store.layout.files level) (inside : level + 1 < depth)
      (ran : (store.job policy depth floor level).run store.seen (store.merged level seed) =
        (written, seen))
      (cut : outputs.flatMap File.entries = written)
      (gathers : scattered ∨ store.Gathers policy depth floor level seed) :
      Compacts scattered policy depth store (store.compacted level seed outputs seen)

inductive Step (scattered : Prop) (policy : RetentionPolicy K) (depth : Nat) :
    Store K → Store K → Prop
  | publish {store : Store K} {published : Nat} (rises : store.published ≤ published) :
      Step scattered policy depth store { store with published }
  | compact {store next : Store K} (compacts : Compacts scattered policy depth store next) :
      Step scattered policy depth store next

abbrev Run (scattered : Prop) (policy : RetentionPolicy K) (depth : Nat) :
    Store K → Store K → Prop :=
  Relation.ReflTransGen (Step scattered policy depth)

end Store

end Model

end Esker.Gc
