import Esker.Fallible
import Esker.Consensus.Storage

/-!
Contract: the log as the core sees it (`esker-raft/src/log.rs`).

Owns: `RaftLog`, a durable prefix in a `LogStorage` plus the tail that has been
decided but not yet written, with a pending snapshot superseding everything below
its index.
-/

namespace Esker.Consensus

/-- A query that may overflow (`none`) or fail. -/
abbrev Checked (α : Type) := Option (Except RaftError α)

structure AppendOutcome where
  last : Nat
  splicedFrom : Option Nat
  truncated : Bool
deriving DecidableEq, Repr

structure RaftLog (S D : Type) where
  store : S
  unstable : List Entry
  unstableOffset : Nat
  unstableSnapshot : Option (Snapshot D)
  committed : Nat
  applied : Nat

abbrev LogM (S D : Type) := Fallible RaftError (RaftLog S D)

namespace RaftLog

variable {S D : Type} [LogStorage S D]

open Fallible

/-- Opens the log over `store`, resuming from `applied`. -/
def new (store : S) (applied : Nat) : Checked (RaftLog S D) :=
  match LogStorage.lastIndex store, LogStorage.initialState store,
      LogStorage.firstIndex store with
  | .ok last, .ok initial, .ok first =>
    match checkedAdd last 1 with
    | none => none
    | some unstableOffset =>
      some (.ok
        { store
          unstable := []
          unstableOffset
          unstableSnapshot := none
          committed := max initial.hardState.commit (first - 1)
          applied := max applied (first - 1) })
  | .error error, _, _ => some (.error error)
  | _, .error error, _ => some (.error error)
  | _, _, .error error => some (.error error)

def firstIndex (log : RaftLog S D) : Checked Nat :=
  match log.unstableSnapshot with
  | some snapshot => (checkedAdd snapshot.metadata.index 1).map .ok
  | none => some (LogStorage.firstIndex log.store)

def lastIndex (log : RaftLog S D) : Except RaftError Nat :=
  match log.unstable.getLast? with
  | some entry => .ok entry.index
  | none =>
    match log.unstableSnapshot with
    | some snapshot => .ok snapshot.metadata.index
    | none => LogStorage.lastIndex log.store

/-- The term at `index`. -/
def term (log : RaftLog S D) (index : Nat) : Except RaftError Nat :=
  if log.unstableOffset ≤ index then
    match log.unstable[index - log.unstableOffset]? with
    | some entry => .ok entry.term
    | none => .error (.unavailable index)
  else
    match log.unstableSnapshot with
    | some snapshot =>
      if index = snapshot.metadata.index then .ok snapshot.metadata.term
      else if index < snapshot.metadata.index then
        .error (.compacted snapshot.metadata.index)
      else LogStorage.term log.store index
    | none => LogStorage.term log.store index

variable (log : RaftLog S D)

def lastTerm : Nat :=
  match log.lastIndex with
  | .ok index =>
    match log.term index with
    | .ok term => term
    | .error _ => 0
  | .error _ => 0

/-- `last_index().unwrap_or(0)`. -/
def lastIndexOrZero : Nat :=
  match log.lastIndex with
  | .ok index => index
  | .error _ => 0

/-- Whether a candidate advertising `(lastIndex, lastTerm)` has a log at least as up
to date as this one: the term decides first, and only then the index. -/
def isUpToDate (lastIndex : Nat) (lastTerm : Nat) : Bool :=
  decide (log.lastTerm < lastTerm ∨
    (lastTerm = log.lastTerm ∧ log.lastIndexOrZero ≤ lastIndex))

variable (index : Nat)

/-- Whether `(index, term)` matches this log: the `prev_log_*` check. -/
def matchesAt (term : Nat) : Bool :=
  match log.term index with
  | .ok own => decide (own = term)
  | .error _ => false

variable (entries : List Entry)

/-- Splices `entries` in, dropping whatever they replace. Panics when the end of the
tail is past the index space. -/
def truncateAndAppend : Option (RaftLog S D) :=
  match entries.head? with
  | none => some log
  | some first =>
    match checkedAdd log.unstableOffset log.unstable.length with
    | none => none
    | some stop =>
      if stop ≤ first.index then
        -- Purely additive.
        some { log with
          unstableOffset := if log.unstable = [] then first.index else log.unstableOffset
          unstable := log.unstable ++ entries }
      else if first.index ≤ log.unstableOffset then
        -- Replaces the whole tail, and possibly entries storage still holds.
        some { log with unstableOffset := first.index, unstable := entries }
      else
        some { log with
          unstable := log.unstable.take (first.index - log.unstableOffset) ++ entries }

/-- The leader's append: the caller has already numbered the entries. -/
def append : LogM S D Nat := do
  match entries.head? with
  | none => do
      let log ← get
      orThrow log.lastIndex
  | some first => do
      let log ← get
      let last ← orThrow log.lastIndex
      let expected ← orPanic (checkedAdd last 1)
      debugAssert (first.index = expected)
      let after ← orPanic (log.truncateAndAppend entries)
      modify fun _ => after
      orThrow after.lastIndex

/-- The first entry that disagrees with this log, as `(position, index)`, looking at
the batch from position `at` on. -/
def findConflictFrom (log : RaftLog S D) (last : Nat) :
    (position : Nat) → List Entry → Option (Nat × Nat)
  | _, [] => none
  | position, entry :: rest =>
    if last < entry.index then some (position, entry.index)
    else
      match log.term entry.index with
      | .ok term =>
        if term = entry.term then log.findConflictFrom last (position + 1) rest
        else some (position, entry.index)
      | .error error =>
        -- A compacted index cannot conflict: it is committed.
        if error.isCompacted then log.findConflictFrom last (position + 1) rest
        else some (position, entry.index)

def findConflict : Except RaftError (Option (Nat × Nat)) :=
  match log.lastIndex with
  | .error error => .error error
  | .ok last => .ok (log.findConflictFrom last 0 entries)

/-- Advances the commit index: never backwards, and never past the log's end. -/
def commitTo : LogM S D Unit := do
  let log ← get
  if index ≤ log.committed then pure ()
  else do
    let last ← orThrow log.lastIndex
    if last < index then throw (.unavailable index)
    else modify fun log => { log with committed := index }

/-- The last index of a batch that follows `prevIndex`:
`entries.last().map_or(prev_index, |entry| entry.index)`. -/
def batchEnd (prevIndex : Nat) (entries : List Entry) : Nat :=
  match entries.getLast? with
  | some entry => entry.index
  | none => prevIndex

/-- The follower's append: checks `(prevIndex, prevTerm)`, splices in whatever of
`entries` is new, and advances the commit index. `none` if the check failed. -/
def maybeAppend (prevIndex : Nat) (prevTerm : Nat) (committed : Nat)
    (entries : List Entry) : LogM S D (Option AppendOutcome) := do
  let log ← get
  if !log.matchesAt prevIndex prevTerm then pure none
  else do
    let lastNew := batchEnd prevIndex entries
    match ← orThrow (log.findConflict entries) with
    | some (position, conflict) => do
        if conflict ≤ log.committed then
          -- Rewriting a committed entry would break State Machine Safety.
          throw (.storage
            s!"append conflicts at committed index {conflict} (commit {log.committed})")
        else do
          let last ← orThrow log.lastIndex
          let after ← orPanic (log.truncateAndAppend (entries.drop position))
          modify fun _ => after
          commitTo (min committed lastNew)
          pure (some ⟨lastNew, some conflict, decide (conflict ≤ last)⟩)
    | none => do
        commitTo (min committed lastNew)
        pure (some ⟨lastNew, none, false⟩)

/-- The part of `slice` that reads the unstable tail: `count` entries from `index`. -/
def sliceUnstable (log : RaftLog S D) (maxBytes : Nat) :
    (count : Nat) → (index : Nat) → (budget : Nat) → (out : List Entry) →
      Except RaftError (List Entry)
  | 0, _, _, out => .ok out
  | count + 1, index, budget, out =>
    match log.unstable[index - log.unstableOffset]? with
    | none => .error (.unavailable index)
    | some entry =>
      let budget := saturatingAdd budget entry.cost
      if maxBytes < budget ∧ out ≠ [] then .ok out
      else log.sliceUnstable maxBytes count (index + 1) budget (out ++ [entry])

/-- Entries in `[low, high)`, subject to a byte budget, from wherever they live. -/
def slice (low high : Nat) (maxBytes : Nat) : Except RaftError (List Entry) :=
  if high ≤ low then .ok []
  else if low < log.unstableOffset then
    let stableHigh := min high log.unstableOffset
    match LogStorage.entries log.store low stableHigh maxBytes with
    | .error error => .error error
    | .ok out =>
      -- Storage stopped early on the budget; do not read past the hole it left.
      if out.length ≠ stableHigh - low then .ok out
      else
        log.sliceUnstable maxBytes (high - log.unstableOffset) log.unstableOffset
          (out.map Entry.cost).sum out
  else log.sliceUnstable maxBytes (high - low) low 0 []

/-- Committed entries the state machine has not been handed yet. -/
def nextCommitted (maxBytes : Nat) : Checked (List Entry) :=
  if log.committed ≤ log.applied then some (.ok [])
  else
    match checkedAdd log.applied 1, checkedAdd log.committed 1 with
    | some low, some high => some (log.slice low high maxBytes)
    | _, _ => none

/-- Records that entries through `index` are durable. The term check makes a lost race
harmless: if the log was rewritten since the `Ready`, nothing is marked stable. -/
def stableTo (term : Nat) : Option (RaftLog S D) :=
  if !log.matchesAt index term then some log
  else if index < log.unstableOffset then some log
  else
    match checkedAdd index 1 with
    | none => none
    | some next =>
      some { log with
        unstable := log.unstable.drop (next - log.unstableOffset)
        unstableOffset := next }

def stableSnapshotTo : RaftLog S D :=
  match log.unstableSnapshot with
  | some snapshot =>
    if snapshot.metadata.index = index then { log with unstableSnapshot := none } else log
  | none => log

/-- Records that the state machine has applied through `index`. -/
def appliedTo : RaftLog S D :=
  { log with applied := min (max log.applied index) log.committed }

/-- Whether a snapshot is worth installing: only if it carries the log past where this
node already is. -/
def shouldRestore (snapshot : Snapshot D) : Bool :=
  if snapshot.metadata.index = u64Max then false
  else if snapshot.metadata.index ≤ log.committed then false
  else !log.matchesAt snapshot.metadata.index snapshot.metadata.term

/-- Replaces the log with `snapshot`. -/
def restore (snapshot : Snapshot D) : RaftLog S D :=
  { log with
    committed := snapshot.metadata.index
    applied := max log.applied snapshot.metadata.index
    unstable := []
    unstableOffset := saturatingAdd snapshot.metadata.index 1
    unstableSnapshot := some snapshot }

/-- A snapshot to send to a follower that has fallen behind the boundary. -/
def snapshot (log : RaftLog S D) : Except RaftError (Snapshot D) :=
  match log.unstableSnapshot with
  | some snapshot => .ok snapshot
  | none => LogStorage.snapshot log.store

end RaftLog

end Esker.Consensus
