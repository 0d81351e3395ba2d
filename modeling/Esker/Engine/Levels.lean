import Mathlib

/-!
Contract: point reads over memtables and levels, and the compactions that rearrange them
(`lookup`, `search_levels` and `search_table` of `esker-engine/src/db/read.rs`, `assemble` and
`discharge` of `compaction/picker.rs`, `CompactionJob::run` of `compaction/job.rs`,
`run_compaction` of `db/compact.rs`, `sort_level` and `check_disjoint` of
`version/builder.rs`).

Owns: tables with their range tombstones, the walk of a read through its sources, the choice
of a compaction's inputs, what the job drops, and the edit that swaps the files.

A memtable and a file are both tables, and a file is told from another by what it holds. Which
level is worst and which of its files seed a compaction is left open, as are the bytes at which
an output is cut. No compaction filter is configured; bloom filters are left out.

Does not own: reads beside running compactions.
-/

namespace Esker.Engine.Levels

section Tables

/-- A version of a key; without a value it deletes the key. -/
structure Entry (K V : Type) where
  key : K
  seqno : Nat
  value : Option V
deriving DecidableEq, Repr

variable {K V : Type} [LinearOrder K]

/-- A range of keys deleted at one sequence number, without its upper bound. -/
structure RangeTombstone (K : Type) where
  start : K
  stop : K
  seqno : Nat
deriving DecidableEq, Repr

namespace RangeTombstone

def contains (tombstone : RangeTombstone K) (key : K) : Bool :=
  decide (tombstone.start ≤ key ∧ key < tombstone.stop)

def hides (tombstone : RangeTombstone K) (seqno snapshot : Nat) : Bool :=
  decide (seqno < tombstone.seqno ∧ tombstone.seqno ≤ snapshot)

end RangeTombstone

/-- The internal order of entries: by user key, newer versions first. -/
def Precedes (left right : Entry K V) : Prop :=
  left.key < right.key ∨ left.key = right.key ∧ right.seqno < left.seqno

instance (left right : Entry K V) : Decidable (Precedes left right) :=
  inferInstanceAs (Decidable (_ ∨ _))

def NotAfter (left right : Entry K V) : Prop :=
  left.key < right.key ∨ left.key = right.key ∧ right.seqno ≤ left.seqno

instance : DecidableRel (NotAfter : Entry K V → Entry K V → Prop) := fun left right =>
  inferInstanceAs (Decidable (left.key < right.key ∨ _))

structure Table (K V : Type) where
  entries : List (Entry K V)
  tombstones : List (RangeTombstone K)
deriving DecidableEq, Repr

def rangeOf : List K → Option (K × K)
  | [] => none
  | key :: rest =>
    match rangeOf rest with
    | none => some (key, key)
    | some (low, high) => some (min key low, max key high)

inductive Op (K V : Type) where
  | put (key : K) (value : V)
  | delete (key : K)
  | deleteRange (start stop : K)
deriving DecidableEq, Repr

namespace Table

def empty : Table K V := ⟨[], []⟩

variable (table : Table K V)

def add (seqno : Nat) : Op K V → Table K V
  | .put key value =>
    { table with entries := table.entries.orderedInsert NotAfter ⟨key, seqno, some value⟩ }
  | .delete key =>
    { table with entries := table.entries.orderedInsert NotAfter ⟨key, seqno, none⟩ }
  | .deleteRange start stop =>
    { table with tombstones := ⟨start, stop, seqno⟩ :: table.tombstones }

/-- The entry a seek for the key at the snapshot ends on, if it is one of the key. -/
def get (key : K) (snapshot : Nat) : Option (Entry K V) :=
  (table.entries.find? fun entry =>
    decide (key < entry.key ∨ entry.key = key ∧ entry.seqno ≤ snapshot)).filter fun entry =>
      decide (entry.key = key)

/-- The keys whose span is the reach of a table: those of its entries, and the bounds of its
tombstones. -/
def points : List K :=
  table.entries.map Entry.key ++
    table.tombstones.flatMap fun tombstone => [tombstone.start, tombstone.stop]

def overlaps (low high : K) : Bool :=
  match rangeOf table.points with
  | some (smallest, largest) => decide (low ≤ largest ∧ smallest ≤ high)
  | none => false

def covers (key : K) : Bool := table.overlaps key key

/-- Whether the largest entry sorts below a seek for the key at the snapshot. -/
def endsBelow (key : K) (snapshot : Nat) : Bool :=
  table.entries.getLast?.any fun last =>
    decide (last.key < key ∨ last.key = key ∧ snapshot < last.seqno)

end Table

/-! ## Reads -/

inductive Lookup (V : Type) where
  | found (value : V) (seqno : Nat)
  | deleted
deriving DecidableEq, Repr

/-- The answer an entry gives under the tombstones collected so far. -/
def judge (tombstones : List (RangeTombstone K)) (snapshot : Nat) (entry : Entry K V) : Lookup V :=
  match entry.value with
  | some value =>
    if tombstones.any fun tombstone =>
        tombstone.hides entry.seqno snapshot && tombstone.contains entry.key then .deleted
    else .found value entry.seqno
  | none => .deleted

/-- The walk through the sources, newest first, collecting tombstones on the way. -/
def search (key : K) (snapshot : Nat) :
    List (RangeTombstone K) → List (Table K V) → Option (Lookup V)
  | _, [] => none
  | collected, table :: rest =>
    match table.get key snapshot with
    | some entry => some (judge (collected ++ table.tombstones) snapshot entry)
    | none => search key snapshot (collected ++ table.tombstones) rest

/-- The one file of a level below 0 that a read looks into. Its tombstones are not collected. -/
def candidate (files : List (Table K V)) (key : K) (snapshot : Nat) : Option (Table K V) :=
  ((files.find? fun file => !file.endsBelow key snapshot).filter fun file =>
    file.covers key).map fun file => { file with tombstones := [] }

end Tables

/-! ## The compaction job -/

section Job

variable {K V : Type} [LinearOrder K]

/-- The largest sequence number of a tombstone that covers the key at the snapshot. -/
def newestCovering (tombstones : List (RangeTombstone K)) (key : K) (snapshot : Nat) : Option Nat :=
  ((tombstones.filter fun tombstone =>
    decide (tombstone.seqno ≤ snapshot) && tombstone.contains key).map
      RangeTombstone.seqno).max?

structure Job (K : Type) where
  floor : Nat
  isBottom : K → Bool
  tombstones : List (RangeTombstone K)

namespace Job

/-- Whether an entry is written, after the one read before it. -/
def writes (job : Job K) (previous : Option (Entry K V)) (entry : Entry K V) : Bool :=
  if (newestCovering job.tombstones entry.key job.floor).any fun covering =>
      decide (entry.seqno < covering) then false
  else if previous.any fun newer =>
      decide (newer.key = entry.key ∧ newer.seqno ≤ job.floor) then false
  else if entry.value.isNone ∧ entry.seqno ≤ job.floor ∧ job.isBottom entry.key then false
  else true

def run (job : Job K) : Option (Entry K V) → List (Entry K V) → List (Entry K V)
  | _, [] => []
  | previous, entry :: rest =>
    if job.writes previous entry then entry :: job.run (some entry) rest
    else job.run (some entry) rest

end Job

end Job

/-! ## The database -/

structure Compaction (K V : Type) where
  level : Nat
  inputs : List (Table K V)
  outputsOverlapped : List (Table K V)
  discharge : List (Nat × Table K V)
  outputLevel : Nat

structure Db (K V : Type) where
  active : Table K V
  immutable : List (Table K V)
  files : Nat → List (Table K V)
  visible : Nat
  snapshots : List Nat
  history : Table K V

section Db

variable {K V : Type} [LinearOrder K] [DecidableEq V]

namespace Compaction

variable (compaction : Compaction K V)

def takes (level : Nat) (file : Table K V) : Bool :=
  decide (level = compaction.level ∧ file ∈ compaction.inputs) ||
    decide (level = compaction.level + 1 ∧ file ∈ compaction.outputsOverlapped) ||
    decide ((level, file) ∈ compaction.discharge)

def allInputs : List (Table K V) :=
  compaction.inputs ++ compaction.outputsOverlapped ++ compaction.discharge.map Prod.snd

def tombstones (compaction : Compaction K V) : List (RangeTombstone K) :=
  compaction.allInputs.flatMap Table.tombstones

def isTrivialMove : Bool :=
  decide (compaction.inputs.length = 1 ∧ compaction.outputsOverlapped = [] ∧
    compaction.discharge = [] ∧ compaction.outputLevel ≤ compaction.level + 1)

end Compaction

namespace Db

def empty : Db K V := ⟨.empty, [], fun _ => [], 0, [], .empty⟩

def sources (depth : Nat) (db : Db K V) (key : K) (snapshot : Nat) : List (Table K V) :=
  db.active :: db.immutable.reverse ++ (db.files 0).filter (fun file => file.covers key) ++
    (List.range (depth - 1)).filterMap fun level => candidate (db.files (level + 1)) key snapshot

def get (depth : Nat) (db : Db K V) (key : K) (snapshot : Nat) : Option V :=
  match search key snapshot [] (db.sources depth key snapshot) with
  | some (.found value _) => some value
  | _ => none

variable (db : Db K V)

/-- The oldest live snapshot, or the newest visible number. -/
def compactionFloor : Nat := db.snapshots.min?.getD db.visible

def writeOne (op : Op K V) : Db K V :=
  { db with
    active := db.active.add (db.visible + 1) op
    visible := db.visible + 1
    history := db.history.add (db.visible + 1) op }

def write (ops : List (Op K V)) : Db K V := ops.foldl writeOne db

def switch : Db K V :=
  { db with active := .empty, immutable := db.immutable ++ [db.active] }

/-- Flushes the oldest switched memtable. An empty one produces no file. -/
def flushed (table : Table K V) (rest : List (Table K V)) : Db K V :=
  { db with
    immutable := rest
    files := if table = .empty then db.files
      else Function.update db.files 0 (table :: db.files 0) }

/-! ### Picking -/

variable (level : Nat)

def overlapping (low high : K) : List (Table K V) :=
  (db.files level).filter fun file => file.overlaps low high

/-- Grows a set of level-0 files until it holds every one that overlaps its range. -/
def l0Closure (db : Db K V) : Nat → List (Table K V) → List (Table K V)
  | 0, files => files
  | fuel + 1, files =>
    match rangeOf (files.flatMap Table.points) with
    | none => files
    | some (low, high) =>
      let grown := db.overlapping 0 low high
      if grown.length = files.length then grown else l0Closure db fuel grown

variable (files : List (Table K V))

/-- The level-0 closure at level 0; the files themselves elsewhere. Every round but the last
adds a file, so the number of files is rounds enough. -/
def closed : List (Table K V) :=
  if level = 0 then l0Closure db ((db.files 0).length + 1) files else files

/-- The files of the level in the range of `files`. -/
def overlappedBy : List (Table K V) :=
  match rangeOf (files.flatMap Table.points) with
  | some (low, high) => db.overlapping level low high
  | none => []

/-- The inputs at `level`, and those at `level + 1`, that a seed grows into. -/
def grow (seed : List (Table K V)) : List (Table K V) × List (Table K V) :=
  let inputs := db.closed level seed
  let overlapped := db.overlappedBy (level + 1) inputs
  match rangeOf (overlapped.flatMap Table.points) with
  | none => (inputs, overlapped)
  | some (low, high) =>
    let expanded := db.closed level (db.overlapping level low high)
    let still := db.overlappedBy (level + 1) expanded
    if inputs.length < expanded.length ∧ still.length = overlapped.length then (expanded, still)
    else (inputs, overlapped)

def assemble (seed : List (Table K V)) : Compaction K V :=
  ⟨level, (db.grow level seed).1, (db.grow level seed).2, [], level + 1⟩

variable (extractUserKey : K → K) (compaction : Compaction K V)

omit [DecidableEq V] in
/-- The range a discharge of the tombstones sweeps: theirs, widened to that of the inputs, whose
bounds are user keys and lose what `extract_user_key` takes for a tag. -/
def sweepFor (tombstones : List (RangeTombstone K)) : Option (K × K) :=
  match rangeOf (tombstones.flatMap fun tombstone => [tombstone.start, tombstone.stop]),
      rangeOf (compaction.allInputs.flatMap Table.points) with
  | some (low, high), some (inputLow, inputHigh) =>
    some (min low (extractUserKey inputLow), max high (extractUserKey inputHigh))
  | bounds, _ => bounds

/-- Grows a compaction into a discharge of the tombstones. -/
def discharge (extractUserKey : K → K) (depth : Nat) (db : Db K V) (compaction : Compaction K V)
    (tombstones : List (RangeTombstone K)) : Compaction K V :=
  match sweepFor extractUserKey compaction tombstones with
  | none => compaction
  | some (low, high) =>
    let deeper := (List.range depth).filter fun level => decide (compaction.level + 1 < level)
    let reached := deeper.filter fun level => !(db.overlapping level low high).isEmpty
    { compaction with
      outputsOverlapped := compaction.outputsOverlapped ++
        (db.overlapping (compaction.level + 1) low high).filter fun file =>
          decide (file ∉ compaction.outputsOverlapped)
      discharge := deeper.flatMap fun level =>
        (db.overlapping level low high).map fun file => (level, file)
      outputLevel := reached.foldl max compaction.outputLevel }

def plan (depth : Nat) (db : Db K V) (level : Nat) (seed : List (Table K V)) : Compaction K V :=
  if (db.assemble level seed).tombstones = [] then db.assemble level seed
  else db.discharge extractUserKey depth (db.assemble level seed) (db.assemble level seed).tombstones

/-! ### Compacting -/

/-- The entries of the files a compaction takes, in internal order. -/
def merged (depth : Nat) (db : Db K V) (compaction : Compaction K V) : List (Entry K V) :=
  ((List.range depth).flatMap fun level =>
    ((db.files level).filter fun file => compaction.takes level file).flatMap
      Table.entries).insertionSort NotAfter

def isBottom (depth : Nat) (db : Db K V) (compaction : Compaction K V) (key : K) : Bool :=
  (List.range depth).all fun below =>
    decide (below ≤ compaction.outputLevel) || (db.overlapping below key key).isEmpty

def job (depth : Nat) (db : Db K V) (compaction : Compaction K V) : Job K :=
  ⟨db.compactionFloor, db.isBottom depth compaction, compaction.tombstones⟩

/-- What a compaction may write: the file itself if it is only moved, and else the job's
output, cut into files anywhere. -/
def Writes (depth : Nat) (db : Db K V) (compaction : Compaction K V)
    (outputs : List (Table K V)) : Prop :=
  if compaction.isTrivialMove ∧ compaction.tombstones = [] ∧
      compaction.outputLevel + 1 < depth then outputs = compaction.inputs
  else outputs.flatMap Table.entries =
      (db.job depth compaction).run none (db.merged depth compaction) ∧
    ∀ file ∈ outputs, file.entries ≠ [] ∧ file.tombstones = []

instance (depth : Nat) (db : Db K V) (compaction : Compaction K V) (outputs : List (Table K V)) :
    Decidable (db.Writes depth compaction outputs) :=
  inferInstanceAs (Decidable (ite _ _ _))

def FilesNotAfter (left right : Table K V) : Prop :=
  ∀ first ∈ left.entries.head?, ∀ second ∈ right.entries.head?, NotAfter first second

instance : DecidableRel (FilesNotAfter : Table K V → Table K V → Prop) := fun left _ =>
  inferInstanceAs (Decidable (∀ first ∈ left.entries.head?, _))

def placed (outputs : List (Table K V)) : List (Table K V) :=
  (((db.files compaction.outputLevel).filter fun file =>
    !compaction.takes compaction.outputLevel file) ++ outputs).insertionSort FilesNotAfter

def CheckDisjoint : Prop :=
  files.IsChain fun left right =>
    ∀ last ∈ left.entries.getLast?, ∀ first ∈ right.entries.head?, Precedes last first

instance (files : List (Table K V)) : Decidable (CheckDisjoint files) :=
  inferInstanceAs (Decidable (List.IsChain _ _))

/-- A file of the output level that the compaction does not take overlaps its range. -/
def Intruded : Prop :=
  ∃ file ∈ db.files compaction.outputLevel, ¬compaction.takes compaction.outputLevel file ∧
    ∃ range ∈ rangeOf (compaction.allInputs.flatMap Table.points), file.overlaps range.1 range.2

instance (db : Db K V) (compaction : Compaction K V) : Decidable (db.Intruded compaction) :=
  inferInstanceAs (Decidable (∃ file ∈ db.files compaction.outputLevel, _ ∧ _))

def compacted (outputs : List (Table K V)) : Db K V :=
  { db with
    files := fun level =>
      if level = compaction.outputLevel then db.placed compaction outputs
      else (db.files level).filter fun file => !compaction.takes level file }

def KeepsKeysWhole : Prop :=
  files.Pairwise fun left right =>
    ∀ first ∈ left.entries, ∀ second ∈ right.entries, first.key ≠ second.key

/-- Between its first level and its output, a compaction takes every file that covers a key it
writes past. -/
def Sweeps : Prop :=
  ∀ level file, compaction.level < level → level < compaction.outputLevel →
    file ∈ db.files level → ¬compaction.takes level file →
    ∀ above taken, taken ∈ db.files above → compaction.takes above taken → above < level →
      ∀ entry ∈ taken.entries, file.covers entry.key = false

/-- One step. Whether an output may be cut between two versions of a key, and whether a
discharge may leave a file it should sweep, is a parameter. A compaction whose edit is refused,
or dropped because of an intruder, changes nothing and is no step. -/
inductive Step (faulty : Prop) (extractUserKey : K → K) (depth : Nat) : Db K V → Db K V → Prop
  | write (db : Db K V) (ops : List (Op K V)) : Step faulty extractUserKey depth db (db.write ops)
  | acquire (db : Db K V) : Step faulty extractUserKey depth db
      { db with snapshots := db.visible :: db.snapshots }
  | release (db : Db K V) (snapshot : Nat) : Step faulty extractUserKey depth db
      { db with snapshots := db.snapshots.erase snapshot }
  | switch (db : Db K V) : Step faulty extractUserKey depth db db.switch
  | flush {db : Db K V} {table : Table K V} {rest : List (Table K V)}
      (oldest : db.immutable = table :: rest) :
      Step faulty extractUserKey depth db (db.flushed table rest)
  | compact {db : Db K V} {level : Nat} {seed outputs : List (Table K V)}
      (inside : level + 1 < depth) (chosen : seed.Sublist (db.files level))
      (compaction : Compaction K V) (planned : compaction = db.plan extractUserKey depth level seed)
      (dischargeable : ∀ tombstone ∈ compaction.tombstones,
        tombstone.seqno ≤ db.compactionFloor)
      (written : db.Writes depth compaction outputs) (free : ¬db.Intruded compaction)
      (accepted : CheckDisjoint (db.placed compaction outputs))
      (whole : faulty ∨ KeepsKeysWhole outputs) (swept : faulty ∨ db.Sweeps compaction) :
      Step faulty extractUserKey depth db (db.compacted compaction outputs)

abbrev Run (faulty : Prop) (extractUserKey : K → K) (depth : Nat) : Db K V → Db K V → Prop :=
  Relation.ReflTransGen (Step faulty extractUserKey depth)

end Db

end Db

/-! ## What a read should return -/

section Model

variable {K V : Type} [LinearOrder K]

/-- A read of `key` at `snapshot` sees `value`: the newest version at or below the snapshot
puts it, and no covering range delete at or below the snapshot is later. -/
def Sees (entries : Set (Entry K V)) (tombstones : Set (RangeTombstone K)) (key : K)
    (snapshot : Nat) (value : V) : Prop :=
  ∃ entry ∈ entries, entry.key = key ∧ entry.seqno ≤ snapshot ∧ entry.value = some value ∧
    (∀ other ∈ entries, other.key = key → other.seqno ≤ snapshot → other.seqno ≤ entry.seqno) ∧
    ∀ tombstone ∈ tombstones, tombstone.contains key → tombstone.seqno ≤ snapshot →
      tombstone.seqno ≤ entry.seqno

/-- What a read should see in a list of everything written. -/
def Table.Shows (table : Table K V) (key : K) (snapshot : Nat) (value : V) : Prop :=
  Sees {entry | entry ∈ table.entries} {tombstone | tombstone ∈ table.tombstones} key snapshot
    value

instance [DecidableEq V] (table : Table K V) (key : K) (snapshot : Nat) (value : V) :
    Decidable (table.Shows key snapshot value) :=
  inferInstanceAs (Decidable (∃ entry ∈ table.entries, entry.key = key ∧ entry.seqno ≤ snapshot ∧
    entry.value = some value ∧
    (∀ other ∈ table.entries, other.key = key → other.seqno ≤ snapshot →
      other.seqno ≤ entry.seqno) ∧
    ∀ tombstone ∈ table.tombstones, tombstone.contains key → tombstone.seqno ≤ snapshot →
      tombstone.seqno ≤ entry.seqno))

end Model

/-! ## An output cut between two versions of a key -/

namespace Db

/-- The older of two versions moves above the newer one, and a read at the current sequence
number returns it. -/
theorem read_returns_older_version :
    ∃ db : Db Nat Nat, Run True id 7 empty db ∧ db.history.Shows 0 db.visible 20 ∧
      db.get 7 0 db.visible = some 10 := by
  let old : Table Nat Nat := ⟨[⟨0, 1, some 10⟩], []⟩
  let new : Table Nat Nat := ⟨[⟨0, 2, some 20⟩], []⟩
  -- A snapshot keeps the first version; both are flushed to level 0.
  have first := (((Relation.ReflTransGen.refl : Run True id 7 (empty : Db Nat Nat) empty).tail
    (.write _ [.put 0 10])).tail (.acquire _)).tail (.switch _)
  have second := ((first.tail (@Step.flush Nat Nat _ _ _ _ _ _ old [] rfl)).tail
    (.write _ [.put 0 20])).tail (.switch _)
  have flushed := second.tail (@Step.flush Nat Nat _ _ _ _ _ _ new [] rfl)
  -- The job keeps both, and cuts its output between them.
  have cut := flushed.tail (@Step.compact Nat Nat _ _ True id 7 _ 0 [new] [new, old] (by decide)
    (by decide) _ rfl (by decide +kernel) (by decide +kernel) (by decide +kernel)
    (by decide +kernel) (.inl trivial) (.inl trivial))
  -- The file with the newer version is due at level 1 and moves to level 2 by itself.
  have moved := cut.tail (@Step.compact Nat Nat _ _ True id 7 _ 1 [new] [new] (by decide)
    (by decide +kernel) _ rfl (by decide +kernel) (by decide +kernel) (by decide +kernel)
    (by decide +kernel) (.inl trivial) (.inl trivial))
  exact ⟨_, moved, by decide +kernel, by decide +kernel⟩

/-- A discharge reads the bounds of its inputs as internal keys, here eight bytes that lose all
of them, and writes past a file that holds an older version. -/
theorem discharge_leaves_older_version :
    ∃ db : Db Nat Nat, Run True (fun _ => 0) 7 empty db ∧ db.history.Shows 9 db.visible 30 ∧
      db.get 7 9 db.visible = some 20 := by
  let deep : Table Nat Nat := ⟨[⟨1, 1, some 10⟩], []⟩
  let old : Table Nat Nat := ⟨[⟨9, 2, some 20⟩], []⟩
  let new : Table Nat Nat := ⟨[⟨9, 3, some 30⟩], [⟨1, 2, 4⟩]⟩
  -- A file that is alone moves down by itself: the first to level 3, the second to level 2.
  have move {db : Db Nat Nat} (reached : Run True (fun _ => 0) 7 empty db) (level : Nat)
      (file : Table Nat Nat) (fits : level + 1 < 7 ∧ [file].Sublist (db.files level) ∧
        db.Writes 7 (db.plan (fun _ => 0) 7 level [file]) [file] ∧
        (db.plan (fun _ => 0) 7 level [file]).tombstones = [] ∧
        ¬db.Intruded (db.plan (fun _ => 0) 7 level [file]) ∧
        CheckDisjoint (db.placed (db.plan (fun _ => 0) 7 level [file]) [file])) :
      Run True (fun _ => 0) 7 empty (db.compacted (db.plan (fun _ => 0) 7 level [file]) [file]) :=
    have ⟨inside, chosen, written, bare, free, accepted⟩ := fits
    reached.tail (@Step.compact Nat Nat _ _ True _ 7 _ level [file] [file] inside chosen _ rfl
      (by rw [bare]; exact fun _ mem => absurd mem List.not_mem_nil) written free accepted
      (.inl trivial) (.inl trivial))
  have first := (((Relation.ReflTransGen.refl :
    Run True (fun _ => 0) 7 (empty : Db Nat Nat) empty).tail (.write _ [.put 1 10])).tail
      (.switch _)).tail (@Step.flush Nat Nat _ _ _ _ _ _ deep [] rfl)
  have third := move (move (move first 0 deep (by decide +kernel)) 1 deep (by decide +kernel))
    2 deep (by decide +kernel)
  have fourth := ((third.tail (.write _ [.put 9 20])).tail (.switch _)).tail
    (@Step.flush Nat Nat _ _ _ _ _ _ old [] rfl)
  have sixth := move (move fourth 0 old (by decide +kernel)) 1 old (by decide +kernel)
  have flushed := ((sixth.tail (.write _ [.put 9 30, .deleteRange 1 2])).tail (.switch _)).tail
    (@Step.flush Nat Nat _ _ _ _ _ _ new [] rfl)
  -- The tombstone reaches level 3, and the newer version is written there.
  have discharged := flushed.tail (@Step.compact Nat Nat _ _ True _ 7 _ 0 [new]
    [⟨[⟨9, 3, some 30⟩], []⟩] (by decide) (by decide +kernel) _ rfl (by decide +kernel)
    (by decide +kernel) (by decide +kernel) (by decide +kernel) (.inl trivial) (.inl trivial))
  exact ⟨_, discharged, by decide +kernel, by decide +kernel⟩

end Db

end Esker.Engine.Levels
