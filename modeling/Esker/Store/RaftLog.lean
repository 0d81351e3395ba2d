import Esker.SortedMap
import Esker.Consensus.Log

/-!
Contract: the Raft log a store keeps in its database (`esker-store/src/raft_log.rs`), and
what adopting a snapshot writes over it (`Store::adopt_snapshot`).

Owns: the state record and the entry keys of one region, the storage a peer opens over
them, the batches it stages, and when the storage that opens after an adoption still keeps
the promises of the one before.

Does not own: which region a key belongs to; a region's keys are its own map here.
-/

namespace Esker.Store

open Esker.Consensus

/-! ## The records of one region -/

/-- The state record: everything a restart reads besides the entries. -/
structure PersistedState where
  hardState : HardState
  confState : ConfState
  appliedIndex : Nat
  truncatedIndex : Nat
  truncatedTerm : Nat
deriving DecidableEq, Repr

/-- What the `raft` family holds for one region: its state record and its entry keys. -/
structure RaftRecords where
  state : Option PersistedState
  entries : SortedMap Nat Entry

/-- An open log: the records, the state in memory and the last index. -/
structure RaftLogStorage where
  entries : SortedMap Nat Entry
  state : PersistedState
  lastIndex : Nat

namespace RaftLogStorage

/-- The highest entry key of the region, or the truncation point where there is none. -/
def scanLastIndex (entries : SortedMap Nat Entry) (state : PersistedState) : Nat :=
  match entries.last with
  | some (index, _) => index
  | none => state.truncatedIndex

def freshState (conf : ConfState) : PersistedState := ⟨default, conf.normalize, 0, 0, 0⟩

/-- `RaftLogStorage::open`, with the records after it: a missing state record is written
from the given membership. -/
def openStorage (records : RaftRecords) (conf : ConfState) : RaftLogStorage × RaftRecords :=
  let state := records.state.getD (freshState conf)
  (⟨records.entries, state, scanLastIndex records.entries state⟩,
    { records with state := some state })

variable (storage : RaftLogStorage)

def records : RaftRecords := ⟨some storage.state, storage.entries⟩

def eraseThrough (entries : SortedMap Nat Entry) (first last : Nat) : SortedMap Nat Entry :=
  ((List.range' first (last + 1 - first)).foldl SortedMap.erase entries)

/-- What a `Ready` asks to persist. -/
def stageReady (hardState : Option HardState) (batch : List Entry) : RaftLogStorage :=
  let state := { storage.state with hardState := hardState.getD storage.state.hardState }
  match batch with
  | [] => { storage with state }
  | first :: rest =>
    let kept := eraseThrough storage.entries first.index storage.lastIndex
    { entries := (first :: rest).foldl (fun map entry => map.insert entry.index entry) kept
      state
      lastIndex := ((first :: rest).getLast (List.cons_ne_nil _ _)).index }

def stageApplied (index : Nat) : RaftLogStorage :=
  { storage with state :=
      { storage.state with appliedIndex := max storage.state.appliedIndex index } }

/-- Drops the entries through `index`; `none` is the refusal to compact what has not been
applied. -/
def stageCompact (index term : Nat) (conf : ConfState) : Option RaftLogStorage :=
  if storage.state.appliedIndex < index then none
  else if index ≤ storage.state.truncatedIndex then some storage
  else some
    { entries := eraseThrough storage.entries (storage.state.truncatedIndex + 1) index
      state := { storage.state with
        truncatedIndex := index, truncatedTerm := term, confState := conf.normalize }
      lastIndex := max storage.lastIndex index }

/-! ## Reads -/

/-- The loop of `entries`: each index in turn until the budget is passed. -/
def readFrom (storage : RaftLogStorage) (maxBytes : Nat) :
    (indexes : List Nat) → (budget : Nat) → (out : List Entry) → Except RaftError (List Entry)
  | [], _, out => .ok out
  | index :: rest, budget, out =>
    match storage.entries.lookup index with
    | none => .error (.unavailable index)
    | some entry =>
      let budget := saturatingAdd budget entry.cost
      if maxBytes < budget ∧ out ≠ [] then .ok out
      else readFrom storage maxBytes rest budget (out ++ [entry])

def readEntries (low high maxBytes : Nat) : Except RaftError (List Entry) :=
  if low ≤ storage.state.truncatedIndex then .error (.compacted storage.state.truncatedIndex)
  else if storage.lastIndex + 1 < high then .error (.unavailable (high - 1))
  else storage.readFrom maxBytes (List.range' low (high - low)) 0 []

def readTerm (index : Nat) : Except RaftError Nat :=
  if index = storage.state.truncatedIndex then .ok storage.state.truncatedTerm
  else if index < storage.state.truncatedIndex then
    .error (.compacted storage.state.truncatedIndex)
  else if storage.lastIndex < index then .error (.unavailable index)
  else
    match storage.entries.lookup index with
    | some entry => .ok entry.term
    | none => .error (.unavailable index)

/-- A snapshot is offered by its metadata only; the data travels on a stream of its own. -/
instance : LogStorage RaftLogStorage Bytes where
  initialState storage := .ok ⟨storage.state.hardState, storage.state.confState⟩
  entries := readEntries
  term := readTerm
  firstIndex storage := .ok (storage.state.truncatedIndex + 1)
  lastIndex storage := .ok storage.lastIndex
  snapshot storage :=
    .ok ⟨⟨storage.state.truncatedIndex, storage.state.truncatedTerm, storage.state.confState⟩, []⟩

end RaftLogStorage

/-! ## Adoption -/

/-- The state record `adopt_snapshot` writes, whatever was there before. The entry keys of
the region stay. -/
def adoptedState (metadata : SnapshotMeta) : PersistedState :=
  { hardState := ⟨metadata.term, none, metadata.index⟩
    confState := metadata.conf
    appliedIndex := metadata.index
    truncatedIndex := metadata.index
    truncatedTerm := metadata.term }

def adoptSnapshot (records : RaftRecords) (metadata : SnapshotMeta) : RaftRecords :=
  { records with state := some (adoptedState metadata) }

/-- What the storage that opens next owes the one before: no earlier term, the vote of an
unchanged term, and a log that begins right after the snapshot and has every entry it says
it has. -/
structure KeepsPromises (before : HardState) (metadata : SnapshotMeta)
    (storage : RaftLogStorage) : Prop where
  term_le : before.term ≤ storage.state.hardState.term
  vote_kept : storage.state.hardState.term = before.term →
    storage.state.hardState.votedFor = before.votedFor
  first_index : LogStorage.firstIndex storage = .ok (metadata.index + 1)
  last_index : metadata.index ≤ storage.lastIndex
  snapshot_term : LogStorage.term storage metadata.index = .ok metadata.term
  readable : ∀ index, metadata.index + 1 ≤ index → index ≤ storage.lastIndex →
    (storage.entries.lookup index).isSome = true
  /-- The core that starts on this storage accepts an append at the snapshot index. -/
  accepts : ∀ log : RaftLog RaftLogStorage Bytes,
    RaftLog.new storage storage.state.appliedIndex = some (.ok log) →
      log.matchesAt metadata.index metadata.term = true

/-- When an adoption is safe: the term moves forward, or stays with no vote cast in it;
and the old entry keys either are gone or reach the snapshot index without a hole above
it. -/
structure AdoptionFits (records : RaftRecords) (before : HardState) (metadata : SnapshotMeta) :
    Prop where
  term_moves : before.term < metadata.term ∨
    (before.term = metadata.term ∧ before.votedFor = none)
  log_reaches : ∀ last entry, records.entries.last = some (last, entry) →
    metadata.index ≤ last ∧
      ∀ index, metadata.index < index → index ≤ last →
        (records.entries.lookup index).isSome = true

section Adoption

variable (records : RaftRecords) (metadata : SnapshotMeta) (conf : ConfState)

abbrev adoptedStorage : RaftLogStorage :=
  (RaftLogStorage.openStorage (adoptSnapshot records metadata) conf).1

@[simp] theorem adoptedStorage_state :
    (adoptedStorage records metadata conf).state = adoptedState metadata := rfl

@[simp] theorem adoptedStorage_entries :
    (adoptedStorage records metadata conf).entries = records.entries := rfl

theorem adoptedStorage_lastIndex : (adoptedStorage records metadata conf).lastIndex =
      match records.entries.last with
      | some (index, _) => index
      | none => metadata.index := rfl

/-- The core reads the snapshot's term exactly when the last index reaches it: below that
it looks for the entry in its own unstable tail. -/
theorem matchesAt_of_new {storage : RaftLogStorage} {applied : Nat}
    {log : RaftLog RaftLogStorage Bytes} (opened : RaftLog.new storage applied = some (.ok log))
    (reaches : storage.state.truncatedIndex ≤ storage.lastIndex) :
    log.matchesAt storage.state.truncatedIndex storage.state.truncatedTerm = true := by
  unfold RaftLog.new at opened
  cases computed : checkedAdd storage.lastIndex 1 with
  | none =>
    simp [LogStorage.firstIndex, LogStorage.lastIndex, LogStorage.initialState, computed] at opened
  | some unstableOffset =>
    simp only [LogStorage.firstIndex, LogStorage.lastIndex, LogStorage.initialState, computed,
      Option.some.injEq, Except.ok.injEq] at opened
    have offset : unstableOffset = storage.lastIndex + 1 := by
      rw [checkedAdd] at computed
      split_ifs at computed
      exact (Option.some.inj computed).symm
    subst opened
    have below : ¬ unstableOffset ≤ storage.state.truncatedIndex := by omega
    simp only [RaftLog.matchesAt, RaftLog.term]
    rw [if_neg below]
    simp [LogStorage.term, RaftLogStorage.readTerm]

/-- Adopting a snapshot keeps what the old state promised exactly when the adoption
fits. -/
theorem adoption_keepsPromises_iff (before : HardState) :
    KeepsPromises before metadata (adoptedStorage records metadata conf) ↔
      AdoptionFits records before metadata := by
  constructor
  · intro keeps
    constructor
    case term_moves =>
      have ordered : before.term ≤ metadata.term := keeps.term_le
      rcases ordered.lt_or_eq with earlier | same
      · exact Or.inl earlier
      · exact Or.inr ⟨same, (keeps.vote_kept same.symm).symm⟩
    case log_reaches =>
      intro last entry found
      have atLast : (adoptedStorage records metadata conf).lastIndex = last := by
        rw [adoptedStorage_lastIndex, found]
      have reaches := keeps.last_index
      have readable := keeps.readable
      rw [atLast] at reaches readable
      exact ⟨reaches, fun index above within => readable index above within⟩
  · intro fits
    have reaches : metadata.index ≤ (adoptedStorage records metadata conf).lastIndex := by
      rw [adoptedStorage_lastIndex]
      cases found : records.entries.last with
      | none => exact le_rfl
      | some entry => exact (fits.log_reaches entry.1 entry.2 found).1
    constructor
    case term_le =>
      rcases fits.term_moves with earlier | same
      · exact earlier.le
      · exact same.1.le
    case vote_kept =>
      intro sameTerm
      rcases fits.term_moves with earlier | same
      · exact absurd sameTerm earlier.ne'
      · exact same.2.symm
    case first_index => rfl
    case last_index => exact reaches
    case snapshot_term => simp [LogStorage.term, RaftLogStorage.readTerm, adoptedState]
    case readable =>
      intro index above within
      rw [adoptedStorage_lastIndex] at within
      cases found : records.entries.last with
      | none =>
        rw [found] at within
        dsimp only at within
        omega
      | some entry =>
        rw [found] at within
        exact (fits.log_reaches entry.1 entry.2 found).2 index above within
    case accepts =>
      intro log opened
      exact matchesAt_of_new opened reaches

end Adoption

/-- A peer in term 7 that voted for 2, with the entries 5 and 6 after a truncation at 4. -/
def votedRecords : RaftRecords :=
  ⟨some ⟨⟨7, some 2, 6⟩, ⟨[1, 2, 3], []⟩, 4, 4, 3⟩,
    (SortedMap.empty.insert 5 ⟨3, 5, .normal, []⟩).insert 6 ⟨3, 6, .normal, []⟩⟩

/-- Adopting the snapshot of index 10 and term 3 there lowers the term, forgets the vote,
ends the log below the snapshot, and the core that starts cannot match the snapshot's own
index. -/
theorem adoption_breaks_promises :
    (adoptedStorage votedRecords ⟨10, 3, ⟨[1, 2, 3], []⟩⟩ ⟨[1, 2, 3], []⟩).state.hardState =
        ⟨3, none, 10⟩ ∧
      (adoptedStorage votedRecords ⟨10, 3, ⟨[1, 2, 3], []⟩⟩ ⟨[1, 2, 3], []⟩).lastIndex = 6 ∧
      ((RaftLog.new (adoptedStorage votedRecords ⟨10, 3, ⟨[1, 2, 3], []⟩⟩ ⟨[1, 2, 3], []⟩)
        10).map fun opened => opened.map fun log => log.matchesAt 10 3) = some (.ok false) := by
  decide +kernel

end Esker.Store
