import Esker.Consensus.Types

/-!
Contract: the log the core reads (`esker-raft/src/storage.rs`).

Owns: the read interface `LogStorage`, and `Storage`, the durable state of one
node: what a driver that follows the `Ready` contract has written. Its reads are
those of `MemStorage`; its writes are those a `Ready` asks for, plus compaction.
-/

namespace Esker.Consensus

/-- What a node reloads when it restarts. `confState` is the membership as of
`firstIndex - 1`, not as of the last entry. -/
structure InitialState where
  hardState : HardState
  confState : ConfState
deriving DecidableEq, Repr

/-- Read access to the Raft log and the durable state beside it. -/
class LogStorage (S : Type) (D : outParam Type) where
  initialState : S → Except RaftError InitialState
  entries : S → (low high : Nat) → (maxBytes : Nat) → Except RaftError (List Entry)
  term : S → Nat → Except RaftError Nat
  firstIndex : S → Except RaftError Nat
  lastIndex : S → Except RaftError Nat
  snapshot : S → Except RaftError (Snapshot D)

/-- The batching loop: entries in order until the budget is exceeded, but always at
least one. -/
def takeWithin (maxBytes : Nat) : List Entry → (budget : Nat) → (out : List Entry) → List Entry
  | [], _, out => out
  | entry :: rest, budget, out =>
    let budget := saturatingAdd budget entry.cost
    if maxBytes < budget ∧ out ≠ [] then out
    else takeWithin maxBytes rest budget (out ++ [entry])

structure Storage (D : Type) where
  hardState : HardState
  confState : ConfState
  snapshot : Snapshot D
  /-- Entries strictly above the compaction boundary, in index order. -/
  entries : List Entry
deriving DecidableEq, Repr

namespace Storage

variable {D : Type}

/-- An empty log whose membership is `conf`: how a bootstrapped group starts. -/
def withConfState (conf : ConfState) (payload : D) : Storage D :=
  { hardState := default
    confState := conf
    snapshot := ⟨⟨0, 0, default⟩, payload⟩
    entries := [] }

variable (store : Storage D)

def compactedIndex : Nat := store.snapshot.metadata.index

def compactedTerm : Nat := store.snapshot.metadata.term

def last : Nat := store.compactedIndex + store.entries.length

/-- Entries in `[low, high)`, subject to a byte budget. -/
def readEntries (low high : Nat) (maxBytes : Nat) : Except RaftError (List Entry) :=
  if low ≤ store.compactedIndex then .error (.compacted store.compactedIndex)
  else if store.last + 1 < high then .error (.unavailable (high - 1))
  else if high ≤ low then .ok []
  else
    let start := low - store.compactedIndex - 1
    let stop := high - store.compactedIndex - 1
    -- `high ≤ last + 1`, so the source's `get(start..stop)` is always in range.
    let window := (store.entries.take stop).drop start
    .ok (takeWithin maxBytes window 0 [])

/-- The term at `index`; the boundary is answered from the snapshot. -/
def readTerm (index : Nat) : Except RaftError Nat :=
  if index = store.compactedIndex then .ok store.compactedTerm
  else if index < store.compactedIndex then .error (.compacted store.compactedIndex)
  else
    match store.entries[index - store.compactedIndex - 1]? with
    | some entry => .ok entry.term
    | none => .error (.unavailable index)

instance : LogStorage (Storage D) D where
  initialState store := .ok ⟨store.hardState, store.confState⟩
  entries := readEntries
  term := readTerm
  firstIndex store := .ok (store.compactedIndex + 1)
  lastIndex store := .ok store.last
  snapshot store := .ok store.snapshot

/-- Appends a batch, truncating any suffix it replaces; entries the snapshot already
covers are dropped. -/
def append (batch : List Entry) : Except RaftError (Storage D) :=
  match batch.head?, batch.getLast? with
  | some first, some final =>
    if final.index ≤ store.compactedIndex then .ok store
    else if store.last + 1 < first.index then .error (.unavailable (store.last + 1))
    else
      let kept := batch.drop (store.compactedIndex + 1 - first.index)
      match kept.head? with
      | none => .ok store
      | some firstKept =>
        let keep := firstKept.index - store.compactedIndex - 1
        .ok { store with entries := store.entries.take keep ++ kept }
  | _, _ => .ok store

def setHardState (hardState : HardState) : Storage D :=
  { store with hardState }

def setConfState (confState : ConfState) : Storage D :=
  { store with confState }

/-- Discards entries at or below `toIndex` and keeps the term at it. The membership
stays the one last recorded, and the payload of the snapshot is not touched. -/
def compact (toIndex : Nat) : Except RaftError (Storage D) :=
  if toIndex ≤ store.compactedIndex then .error (.compacted store.compactedIndex)
  else if store.last < toIndex then .error (.unavailable toIndex)
  else
    match store.readTerm toIndex with
    | .error error => .error error
    | .ok term =>
      .ok { store with
        snapshot := { store.snapshot with metadata := ⟨toIndex, term, store.confState⟩ }
        entries := store.entries.drop (toIndex - store.compactedIndex) }

end Storage

end Esker.Consensus
