import Esker.Txn.Records

/-!
Contract: what the transaction protocol decides for one key
(`esker-txn/src/percolator.rs`).

Owns: `read`, `checkPrewrite`, `commitPrimary`, `commitSecondary`, `rollback` and `release`
as decisions over one cell, and for each of the writing ones what it can do to the cell.
-/

namespace Esker.Txn

open Esker.Consensus (Bytes saturatingAdd)

def shortValueMaxLen : Nat := 255

inductive Op where
  | put (value : Bytes)
  | delete
  | check
deriving DecidableEq, Repr

namespace Op

def kind : Op → Kind
  | .put _ => .put
  | .delete => .delete
  | .check => .lock

def shortValue : Op → Option Bytes
  | .put value => if value.length ≤ shortValueMaxLen then some value else none
  | .delete | .check => none

def longValue : Op → Option Bytes
  | .put value => if shortValueMaxLen < value.length then some value else none
  | .delete | .check => none

end Op

structure Prewrite (K : Type) where
  key : K
  primary : K
  startTs : Nat
  readTs : Nat
  ttlMs : Nat
  op : Op
deriving DecidableEq, Repr

inductive PrewriteDecision (K : Type) where
  | lock (mutations : List (Mutation K))
  | alreadyLocked
  | locked (lock : LockRecord K)
  | conflict (commitTs : Nat)
  | rolledBack
deriving DecidableEq, Repr

inductive ReadOutcome (K : Type) where
  | locked (lock : LockRecord K)
  | notFound
  | value (value : Bytes)
deriving DecidableEq, Repr

inductive TxnError where
  | missingValue (startTs : Nat)
  | alreadyCommitted (startTs commitTs : Nat)
  | alreadyRolledBack (startTs : Nat)
  | txnLockNotFound (startTs : Nat)
  | misuse (reason : String)
deriving DecidableEq, Repr

inductive Settled where
  | committed (commitTs : Nat)
  | rolledBack
  | undecided
deriving DecidableEq, Repr

section Decisions

variable {K : Type}

/-! ## Reading -/

variable (cell : Cell K)

/-- The newest version at or below `ts`, stepping past markers and lock records. -/
def newestVersionAt (ts : Nat) : Option Version :=
  cell.writes.find? fun version => version.commitTs ≤ ts && version.isAVersion

def valueOf (record : WriteRecord) : Except TxnError (ReadOutcome K) :=
  match record.kind with
  | .delete | .rollback | .lock => .ok .notFound
  | .put =>
    match record.shortValue with
    | some value => .ok (.value value)
    | none =>
      match cell.getValue record.startTs with
      | some value => .ok (.value value)
      | none => .error (.missingValue record.startTs)

/-- What the versions at or below `ts` say, locks apart. -/
def readWrites (ts : Nat) : Except TxnError (ReadOutcome K) :=
  match newestVersionAt cell ts with
  | none => .ok .notFound
  | some version => valueOf cell version.record

def read (ts : Nat) : Except TxnError (ReadOutcome K) :=
  match cell.lock with
  | some lock =>
    if lock.startTs ≤ ts ∧ lock.kind ≠ .lock then .ok (.locked lock)
    else readWrites cell ts
  | none => readWrites cell ts

/-! ## Prewrite -/

variable (request : Prewrite K)

def lockMutations : List (Mutation K) :=
  .putLock
    { kind := request.op.kind
      startTs := request.startTs
      ttlMs := request.ttlMs
      primary := request.primary
      shortValue := request.op.shortValue } ::
    match request.op.longValue with
    | some value => [.putValue request.startTs value]
    | none => []

/-- The lock check, once the key's records let the prewrite through. -/
def checkLock : PrewriteDecision K :=
  match cell.lock with
  | some lock =>
    if lock.startTs ≠ request.startTs then .locked lock
    -- Only a lock taken without a value is replaced, and only by a write.
    else if request.op.kind = .lock ∨ lock.kind ≠ .lock then .alreadyLocked
    else .lock (lockMutations request)
  | none => .lock (lockMutations request)

def checkPrewrite : PrewriteDecision K :=
  match cell.writeOfTxn request.startTs with
  | some ours => if ours.record.kind = .rollback then .rolledBack else .alreadyLocked
  | none =>
    match cell.newestWriteAfter request.readTs with
    | some winner =>
      if winner.record.startTs ≠ request.startTs then .conflict winner.commitTs
      else checkLock cell request
    | none => checkLock cell request

/-! ## Commit and rollback -/

/-- What the `write` family says became of a transaction here. -/
def settled (startTs : Nat) : Settled :=
  match cell.writeOfTxn startTs with
  | some version =>
    if version.record.kind = .rollback then .rolledBack else .committed version.commitTs
  | none => .undecided

def commitMutations (commitTs : Nat) (lock : LockRecord K) : List (Mutation K) :=
  [.putWrite ⟨commitTs, ⟨lock.kind, lock.startTs, lock.shortValue⟩⟩, .deleteLock]

/-- A commit of a key whose lock is gone: only a commit at the same timestamp is one. -/
def commitSettled (startTs commitTs : Nat) : Except TxnError (List (Mutation K)) :=
  match settled cell startTs with
  | .committed found =>
    if found = commitTs then .ok [] else .error (.alreadyCommitted startTs found)
  | .rolledBack => .error (.alreadyRolledBack startTs)
  | .undecided => .error (.txnLockNotFound startTs)

/-- Undoes a transaction on one key and leaves the marker. -/
def rollback (cell : Cell K) (startTs : Nat) : Except TxnError (List (Mutation K)) :=
  match settled cell startTs with
  | .committed commitTs => .error (.alreadyCommitted startTs commitTs)
  | .rolledBack => .ok []
  | .undecided =>
    .ok (.putWrite ⟨startTs, .rollback startTs⟩ ::
      match cell.lockOf startTs with
      | some lock =>
        .deleteLock :: if lock.shortValue = none ∧ lock.kind = .put then
          [.deleteValue startTs] else []
      | none => [])

/-- Gives a lock back, leaving nothing behind; says whether there was one. -/
def release (startTs : Nat) : List (Mutation K) × Bool :=
  match cell.lockOf startTs with
  | some lock =>
    (.deleteLock :: if lock.shortValue = none ∧ lock.kind = .put then
      [.deleteValue startTs] else [], true)
  | none => ([], false)

variable [DecidableEq K]

def commitPrimary (cell : Cell K) (primary : K) (startTs commitTs : Nat) :
    Except TxnError (List (Mutation K)) :=
  if commitTs ≤ startTs then
    .error (.misuse "a commit timestamp must be above the transaction's start timestamp")
  else
    match cell.lockOf startTs with
    | some lock =>
      if lock.primary ≠ primary then
        .error (.misuse "commit_primary was given a key whose lock names another primary")
      else .ok (commitMutations commitTs lock)
    | none => commitSettled cell startTs commitTs

/-- Commits another key, on the evidence that `primary` committed at `commitTs`. -/
def commitSecondary (cell : Cell K) (primary : K) (startTs commitTs : Nat) :
    Except TxnError (List (Mutation K)) :=
  match cell.lockOf startTs with
  | some lock =>
    if lock.primary ≠ primary then
      .error (.misuse "the lock names a different primary from the token")
    else .ok (commitMutations commitTs lock)
  | none => commitSettled cell startTs commitTs

end Decisions

end Esker.Txn
