import Esker.Consensus.Log
import Esker.Consensus.Membership
import Esker.Runs
import Esker.Store.RaftLog

/-!
Contract: the Raft log of the placement driver (`esker-pd/src/raft_log.rs`) through appends,
compactions and reopens.

Owns: `PdLogStorage`, its `stage_compact`, `open`, `initial_state` and `snapshot`, and when the
membership and the snapshot it offers are those of its truncated index.

Does not own: `stage_ready` and `stage_applied`, which are those of a region's log.
-/

namespace Esker.Pd

open Esker.Consensus Esker.Runs
open Esker.Store (RaftLogStorage RaftRecords PersistedState)

variable {D : Type}

/-- An open log: what is in the database and its state in memory, and the snapshot of the last
compaction, which is in memory only. -/
structure PdLogStorage (D : Type) where
  log : RaftLogStorage
  snapshot : Option (Snapshot D)

namespace PdLogStorage

/-- `open`. -/
def openStorage (records : RaftRecords) (conf : ConfState) : PdLogStorage D :=
  ⟨(RaftLogStorage.openStorage records conf).1, none⟩

variable (storage : PdLogStorage D)

/-- `stage_compact`; `none` is the refusal to compact what has not been applied. -/
def stageCompact (index term : Nat) (data : D) : Option (PdLogStorage D) :=
  let state := storage.log.state
  if state.appliedIndex < index then none
  else if index ≤ state.truncatedIndex then some storage
  else some
    { log :=
        { storage.log with
          entries := RaftLogStorage.eraseThrough storage.log.entries (state.truncatedIndex + 1) index
          state := { state with truncatedIndex := index, truncatedTerm := term } }
      snapshot := some ⟨⟨index, term, state.confState⟩, data⟩ }

/-- The membership of `initial_state`. -/
def initialConf : ConfState := storage.log.state.confState

/-- The index of what `snapshot` offers. The default snapshot stands for the empty log. -/
def offeredIndex : Nat :=
  (storage.snapshot.map (·.metadata.index)).getD 0

end PdLogStorage

inductive LogOp (D : Type) where
  /-- A `Ready`: a batch that continues the log, or replaces its end by a new leader's. -/
  | append (hardState : Option HardState) (first : Entry) (rest : List Entry)
  | applied (index : Nat)
  | compact (index term : Nat) (data : D)
  | reopen

/-- The list after `entries` have replaced everything from the index of the first of
them on. -/
def spliced (full : List Entry) (start : Nat) (entries : List Entry) : List Entry :=
  full.take (start - 1) ++ entries

theorem spliced_length {full : List Entry} (entries : List Entry) {start : Nat}
    (inside : start ≤ full.length + 1) :
    (spliced full start entries).length = start - 1 + entries.length := by
  rw [spliced, List.length_append, List.length_take]
  omega

/-- A storage and the entries that its log stands for, those that are compacted included. -/
structure Kept (D : Type) where
  storage : PdLogStorage D
  history : List Entry

namespace Kept

variable (kept : Kept D)

def truncated : Nat := kept.storage.log.state.truncatedIndex

def Continues (first : Entry) : Prop :=
  kept.storage.log.state.appliedIndex < first.index ∧ first.index ≤ kept.history.length + 1

instance decidableContinues (kept : Kept D) (first : Entry) : Decidable (kept.Continues first) :=
  inferInstanceAs (Decidable (_ ∧ _))

/-- One operation; one that the log is never asked for, or refuses, changes nothing. -/
def step : LogOp D → Kept D
  | .append hardState first rest =>
    if kept.Continues first then
      ⟨{ kept.storage with log := kept.storage.log.stageReady hardState (first :: rest) },
        spliced kept.history first.index (first :: rest)⟩
    else kept
  | .applied index =>
    if index ≤ kept.history.length then
      ⟨{ kept.storage with log := kept.storage.log.stageApplied index }, kept.history⟩
    else kept
  | .compact index term data =>
    match kept.storage.stageCompact index term data with
    | some storage => ⟨storage, kept.history⟩
    | none => kept
  | .reopen =>
    ⟨PdLogStorage.openStorage ⟨some kept.storage.log.state, kept.storage.log.entries⟩ default,
      kept.history⟩

def bootstrap (conf : ConfState) : Kept D :=
  ⟨PdLogStorage.openStorage ⟨none, SortedMap.empty⟩ conf, []⟩

/-- What a restart needs of a compacted log: the membership at the truncated index, and a snapshot
there. -/
structure Restartable (origin : ConfState) (kept : Kept D) : Prop where
  conf : kept.storage.initialConf = confAt origin (kept.history.take kept.truncated)
  offered : kept.storage.offeredIndex = kept.truncated

/-- The compaction drops no entry that changes the membership, and nothing that was compacted is
reopened. -/
def Spares : LogOp D → Prop
  | .compact index _ _ => kept.truncated < index → index ≤ kept.storage.log.state.appliedIndex →
      confAt kept.storage.initialConf ((kept.history.take index).drop kept.truncated) =
        kept.storage.initialConf
  | .reopen => kept.truncated = 0
  | _ => True

structure Ordered (kept : Kept D) : Prop where
  truncated : kept.truncated ≤ kept.storage.log.state.appliedIndex
  applied : kept.storage.log.state.appliedIndex ≤ kept.history.length

theorem Ordered.step {kept : Kept D} (ordered : kept.Ordered) (op : LogOp D) :
    (kept.step op).Ordered := by
  obtain ⟨truncated, applied⟩ := ordered
  cases op with
  | append hardState first rest =>
    rw [Kept.step]
    split
    case isFalse => exact ⟨truncated, applied⟩
    case isTrue continues =>
      refine ⟨truncated, ?_⟩
      have longer := spliced_length (first :: rest) continues.2
      have above := continues.1
      rw [List.length_cons] at longer
      change kept.storage.log.state.appliedIndex ≤ _
      rw [longer]
      omega
  | applied index =>
    rw [Kept.step]
    split
    case isFalse => exact ⟨truncated, applied⟩
    case isTrue inside =>
      exact ⟨truncated.trans (Nat.le_max_left _ _), Nat.max_le.mpr ⟨applied, inside⟩⟩
  | compact index term data =>
    rw [Kept.step, PdLogStorage.stageCompact]
    dsimp only
    split_ifs with refused old
    · exact ⟨truncated, applied⟩
    · exact ⟨truncated, applied⟩
    · exact ⟨Nat.le_of_not_lt refused, applied⟩
  | reopen => exact ⟨truncated, applied⟩

/-- From a state that is as required, an operation leads to one exactly when it spares what a
restart needs. -/
theorem restartable_step {origin : ConfState} {kept : Kept D} (ordered : kept.Ordered)
    (restartable : kept.Restartable origin) (op : LogOp D) :
    (kept.step op).Restartable origin ↔ kept.Spares op := by
  cases op with
  | append hardState first rest =>
    refine ⟨fun _ => trivial, fun _ => ?_⟩
    rw [Kept.step]
    split
    case isFalse => exact restartable
    case isTrue continues =>
      refine ⟨?_, restartable.offered⟩
      have before : kept.truncated ≤ first.index - 1 := by
        have := ordered.truncated
        have := continues.1
        omega
      have inside : kept.truncated ≤ kept.history.length :=
        ordered.truncated.trans ordered.applied
      change kept.storage.initialConf =
        confAt origin ((spliced kept.history first.index (first :: rest)).take kept.truncated)
      rw [spliced, List.take_append_of_le_length (by rw [List.length_take]; omega),
        List.take_take, Nat.min_eq_left before]
      exact restartable.conf
  | applied index =>
    refine ⟨fun _ => trivial, fun _ => ?_⟩
    rw [Kept.step]
    split
    case isFalse => exact restartable
    case isTrue => exact ⟨restartable.conf, restartable.offered⟩
  | compact index term data =>
    rw [Kept.step, PdLogStorage.stageCompact, Spares]
    dsimp only
    split_ifs with refused old
    · exact ⟨fun _ _ fits => absurd refused (Nat.not_lt.mpr fits), fun _ => restartable⟩
    · exact ⟨fun _ above => absurd above (Nat.not_lt.mpr old), fun _ => restartable⟩
    -- The membership at the new index is that of the old one and the dropped entries.
    have split : confAt origin (kept.history.take index) =
        confAt kept.storage.initialConf ((kept.history.take index).drop kept.truncated) := by
      rw [restartable.conf, ← confAt_append]
      congr 1
      have below : kept.truncated ≤ index := Nat.le_of_not_le old
      have prefixed : kept.history.take kept.truncated =
          (kept.history.take index).take kept.truncated := by
        rw [List.take_take, Nat.min_eq_left below]
      rw [prefixed, List.take_append_drop]
    constructor
    · intro after _ _
      rw [← split]
      exact after.conf.symm
    intro spares
    refine ⟨?_, rfl⟩
    change kept.storage.initialConf = confAt origin (kept.history.take index)
    rw [split, spares (Nat.lt_of_not_le old) (Nat.le_of_not_lt refused)]
  | reopen =>
    constructor
    · intro after
      exact after.offered.symm
    · intro none
      exact ⟨restartable.conf, none.symm⟩

/-- A run of a log keeps what a restart needs, in every state, exactly when each of its
compactions drops no change of the membership and nothing that was compacted is reopened. -/
theorem restartable_along_iff (conf : ConfState) (ops : List (LogOp D)) :
    Along step (Restartable conf.normalize) (bootstrap conf) ops ↔
      Meets step Spares (bootstrap conf) ops := by
  apply along_iff_meets (fun _ op ordered => ordered.step op)
    (fun _ op ordered restartable => restartable_step ordered restartable op)
  · exact ⟨Nat.le_refl 0, Nat.le_refl 0⟩
  · exact ⟨rfl, rfl⟩

/-- A third voter joins, and its entry is compacted: a restart knows the first two. And a log that
is compacted and reopened offers no snapshot. -/
theorem compacted_voter_forgotten : ¬Along step (Restartable (ConfState.normalize ⟨[1, 2], []⟩))
        (bootstrap ⟨[1, 2], []⟩ : Kept Unit)
        [.append none (.confChange 1 1 ⟨.addVoter, 3, []⟩) [], .applied 1, .compact 1 1 ()] ∧
      ¬Along step (Restartable (ConfState.normalize ⟨[1, 2], []⟩))
        (bootstrap ⟨[1, 2], []⟩ : Kept Unit)
        [.append none (.empty 1 1) [], .applied 1, .compact 1 1 (), .reopen] := by
  constructor
  · intro along
    exact absurd along.2.2.2.conf (by decide)
  · intro along
    exact absurd along.2.2.2.2.offered (by decide)

end Kept

end Esker.Pd
