import Esker.Txn.Percolator

/-!
Contract: what a region does with one transactional request
(`esker-store/src/txnkv.rs`).

Owns: the requests and responses, `handle`, one command decided against one snapshot and
staged as one batch, and what it does to the cell of each key.
-/

namespace Esker.Txn

open Esker.Consensus (Bytes saturatingAdd)

inductive TxnMutation (K : Type) where
  | put (key : K) (value : Bytes) (readTs : Option Nat)
  | delete (key : K) (readTs : Option Nat)
  | check (key : K) (readTs : Option Nat)
  | checkRange (first last : K)
deriving DecidableEq, Repr

structure LockInfo (K : Type) where
  key : K
  primary : K
  startTs : Nat
  ttlMs : Nat
deriving DecidableEq, Repr

inductive TxnStatus (K : Type) where
  | ok
  | conflict (commitTs : Nat)
  | rolledBack
  | committed (commitTs : Nat)
  | lockNotFound
  | locked (lock : LockInfo K)
deriving DecidableEq, Repr

inductive Request (K : Type) where
  | prewrite (startTs : Nat) (primary : K) (ttlMs : Nat) (mutations : List (TxnMutation K))
  | commit (startTs commitTs : Nat) (keys : List K)
  | rollback (startTs : Nat) (keys : List K)
  | releaseLock (startTs : Nat) (keys : List K)
  | resolveLock (startTs commitTs : Nat) (keys : List K)
  | heartbeat (startTs : Nat) (primary : K) (ttlMs : Nat)
deriving DecidableEq, Repr

inductive Response (K : Type) where
  | prewrite (keys : List (TxnStatus K))
  | commit (status : TxnStatus K)
  | rollback (status : TxnStatus K)
  | releaseLock (released : Nat)
  | resolveLock (resolved : Nat)
  | heartbeat (ttlMs : Nat)
deriving DecidableEq, Repr

section Handling

variable {K : Type} [LinearOrder K]

def lockInfo (key : K) (lock : LockRecord K) : LockInfo K :=
  ⟨key, lock.primary, lock.startTs, lock.ttlMs⟩

def statusOf : TxnError → TxnStatus K
  | .alreadyRolledBack _ => .rolledBack
  | .alreadyCommitted _ commitTs => .committed commitTs
  | .txnLockNotFound _ | .missingValue _ | .misuse _ => .lockNotFound

namespace TxnMutation

def target : TxnMutation K → Option K
  | .put key _ _ | .delete key _ | .check key _ => some key
  | .checkRange _ _ => none

def request (startTs : Nat) (primary : K) (ttlMs : Nat) : TxnMutation K → Option (Prewrite K)
  | .put key value readTs =>
    some ⟨key, primary, startTs, readTs.getD startTs, ttlMs, .put value⟩
  | .delete key readTs => some ⟨key, primary, startTs, readTs.getD startTs, ttlMs, .delete⟩
  | .check key readTs => some ⟨key, primary, startTs, readTs.getD startTs, ttlMs, .check⟩
  | .checkRange _ _ => none

end TxnMutation

variable (store : Store K)

def checkRange (startTs : Nat) (first last : K) : TxnStatus K :=
  match store.newestWriteInRange first last startTs with
  | some version => .conflict version.commitTs
  | none =>
    match store.foreignLockInRange first last startTs with
    | some (key, lock) => .locked (lockInfo key lock)
    | none => .ok

def prewriteStatus (key : K) : PrewriteDecision K → TxnStatus K
  | .lock _ | .alreadyLocked => .ok
  | .locked lock => .locked (lockInfo key lock)
  | .conflict commitTs => .conflict commitTs
  | .rolledBack => .rolledBack

def prewriteKey (request : Prewrite K) : TxnStatus K × List (K × Mutation K) :=
  let decision := checkPrewrite (store.get request.key) request
  (prewriteStatus request.key decision,
    match decision with
    | .lock mutations => mutations.map (request.key, ·)
    | _ => [])

/-- One mutation's status and what it stages. A range is validated rather than locked. -/
def prewriteOne (startTs : Nat) (primary : K) (ttlMs : Nat)
    (mutation : TxnMutation K) : TxnStatus K × List (K × Mutation K) :=
  match mutation with
  | .checkRange first last => (checkRange store startTs first last, [])
  | .put key value readTs =>
    prewriteKey store ⟨key, primary, startTs, readTs.getD startTs, ttlMs, .put value⟩
  | .delete key readTs =>
    prewriteKey store ⟨key, primary, startTs, readTs.getD startTs, ttlMs, .delete⟩
  | .check key readTs =>
    prewriteKey store ⟨key, primary, startTs, readTs.getD startTs, ttlMs, .check⟩

/-- Decides one `Prewrite`: a status for each mutation, and nothing staged if one of them
is refused. -/
def prewrite (store : Store K) (startTs : Nat) (primary : K) (ttlMs : Nat)
    (mutations : List (TxnMutation K)) : Response K × Store K :=
  let decided := mutations.map (prewriteOne store startTs primary ttlMs)
  let statuses := decided.map Prod.fst
  (.prewrite statuses,
    if statuses.all (· = .ok) then store.stage (decided.flatMap Prod.snd) else store)

/-- Commits one key on its own evidence: a lock that names the key as its primary is the
commit point, and without a lock the records decide. -/
def commitOne (startTs commitTs : Nat) (key : K) : Except TxnError (List (Mutation K)) :=
  match (store.get key).lock with
  | some lock =>
    if lock.primary = key then commitPrimary (store.get key) key startTs commitTs
    else commitSecondary (store.get key) lock.primary startTs commitTs
  | none => commitPrimary (store.get key) key startTs commitTs

/-- Decides each key in turn, stopping at the first refusal. -/
def decideAll (decide : K → Except TxnError (List (Mutation K))) :
    List K → Except TxnError (List (K × Mutation K))
  | [] => .ok []
  | key :: rest =>
    match decide key with
    | .error error => .error error
    | .ok mutations =>
      match decideAll decide rest with
      | .error error => .error error
      | .ok staged => .ok (mutations.map (key, ·) ++ staged)

def commit (store : Store K) (startTs commitTs : Nat) (keys : List K) : Response K × Store K :=
  match decideAll (commitOne store startTs commitTs) keys with
  | .error error => (.commit (statusOf error), store)
  | .ok staged => (.commit .ok, store.stage staged)

def rollbackKeys (startTs : Nat) (keys : List K) : Response K × Store K :=
  match decideAll (fun key => rollback (store.get key) startTs) keys with
  | .error error => (.rollback (statusOf error), store)
  | .ok staged => (.rollback .ok, store.stage staged)

def releaseLock (store : Store K) (startTs : Nat) (keys : List K) : Response K × Store K :=
  (.releaseLock (keys.countP fun key => (release (store.get key) startTs).2),
    store.stage (keys.flatMap fun key =>
      (release (store.get key) startTs).1.map (key, ·)))

/-- What a verdict about somebody else's transaction does to one key, `none` where there is
no lock of that transaction or the key was settled the other way. -/
def resolveOne (startTs commitTs : Nat) (key : K) : Option (List (Mutation K)) :=
  match (store.get key).lockOf startTs with
  | none => none
  | some lock =>
    match
      if commitTs = 0 then rollback (store.get key) startTs
      else commitSecondary (store.get key) lock.primary startTs commitTs with
    | .ok mutations => some mutations
    | .error _ => none

def resolveLock (store : Store K) (startTs commitTs : Nat) (keys : List K) : Response K × Store K :=
  (.resolveLock (keys.countP fun key => (resolveOne store startTs commitTs key).isSome),
    store.stage (keys.flatMap fun key =>
      ((resolveOne store startTs commitTs key).getD []).map (key, ·)))

/-- Extends a live transaction's lease, never shortening it. -/
def heartbeat (store : Store K) (startTs : Nat) (primary : K) (ttlMs : Nat) :
    Response K × Store K :=
  match (store.get primary).lockOf startTs with
  | none => (.heartbeat 0, store)
  | some lock =>
    if lock.ttlMs < ttlMs then
      (.heartbeat ttlMs, store.stage [(primary, .putLock { lock with ttlMs })])
    else (.heartbeat lock.ttlMs, store)

def handle : Request K → Response K × Store K
  | .prewrite startTs primary ttlMs mutations => prewrite store startTs primary ttlMs mutations
  | .commit startTs commitTs keys => commit store startTs commitTs keys
  | .rollback startTs keys => rollbackKeys store startTs keys
  | .releaseLock startTs keys => releaseLock store startTs keys
  | .resolveLock startTs commitTs keys => resolveLock store startTs commitTs keys
  | .heartbeat startTs primary ttlMs => heartbeat store startTs primary ttlMs

end Handling

end Esker.Txn
