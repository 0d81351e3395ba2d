import Esker.Txn.Moves

/-!
Contract: clients, the timestamp oracle and the store, with a network that loses, delays,
repeats and reorders requests (`Transaction::commit`, `classify`, `settle_primary` and
`resolve` of `esker-client/src/txn.rs`).

Owns: `Phase`, where a client's transaction stands, `System`, `System.Step`, and runs.

A transaction is named by its start timestamp. What its caller buffers, and which regions
and frames a batch is cut into, is left open: a prewrite may carry any mutations of distinct
keys. Whether a resolver's victim had expired or was wounded is left open too. A commit timestamp is
drawn only after every prewrite that was sent has been answered `Ok`: a transaction that goes on
without a key it could not lock, and one that pins another primary after its first was refused, are
not among the runs. Neither are `ReleaseLock` and garbage collection.
-/

namespace Esker.Txn

inductive Phase (K : Type) where
  | idle
  /-- Before `commit`: the pinned primary, and the eager prewrites sent so far. -/
  | open (pinned : Option K) (asked : List (Request K))
  /-- Inside `commit`: the prewrites sent so far, and the batches still to be sent. -/
  | prewriting (primary : K) (asked : List (Request K)) (batches : List (List (Request K)))
  | committing (primary : K) (secondaries : List K) (asked : List (Request K)) (commitTs : Nat)
  | aborted (primary : Option K)
deriving DecidableEq, Repr

namespace Phase

variable {K : Type}

def primary : Phase K → Option K
  | .idle => none
  | .open pinned _ => pinned
  | .prewriting primary _ _ => some primary
  | .committing primary _ _ _ => some primary
  | .aborted primary => primary

def commitTs : Phase K → Option Nat
  | .committing _ _ _ commitTs => some commitTs
  | .idle | .open _ _ | .prewriting _ _ _ | .aborted _ => none

/-- The prewrites sent so far, while the transaction may still commit. -/
def asked : Phase K → Option (List (Request K))
  | .open _ asked | .prewriting _ asked _ | .committing _ _ asked _ => some asked
  | .idle | .aborted _ => none

end Phase

structure System (K : Type) where
  clock : Nat
  store : Store K
  sent : List (Request K)
  answered : List (Request K × Response K)
  phases : Nat → Phase K

namespace System

variable {K : Type} [LinearOrder K]

def initial : System K := ⟨0, [], [], [], fun _ => .idle⟩

variable (system : System K)

/-- Whether some delivery of the prewrite answered `Ok` for every mutation. -/
def Accepted (request : Request K) : Prop :=
  ∃ statuses : List (TxnStatus K), (request, .prewrite statuses) ∈ system.answered ∧
    ∀ status ∈ statuses, status = .ok

def send (requests : List (Request K)) : System K :=
  { system with sent := requests ++ system.sent }

def enter (startTs : Nat) (phase : Phase K) : System K :=
  { system with phases := fun other => if other = startTs then phase else system.phases other }

/-- A prewrite of this transaction, under this primary, of distinct keys. -/
def Prewrites (startTs : Nat) (primary : K) (request : Request K) : Prop :=
  ∃ ttlMs mutations, request = .prewrite startTs primary ttlMs mutations ∧
    (mutations.filterMap TxnMutation.target).Nodup

inductive Step : System K → System K → Prop
  | timestamp (system : System K) {ts : Nat} (later : system.clock < ts) :
      Step system { system with clock := ts }
  | begin (system : System K) {startTs : Nat} (later : system.clock < startTs) :
      Step system ({ system with clock := startTs }.enter startTs (.open none []))
  /-- `lock` prewrites one key early, under the pinned primary, which the first call pins. It may
  be called again, for the same key or another, whether or not the key was taken. -/
  | lock {system : System K} {startTs : Nat} {pinned : Option K} {asked : List (Request K)}
      {primary : K} {request : Request K} (phase : system.phases startTs = .open pinned asked)
      (same : ∀ earlier ∈ pinned, earlier = primary)
      (shape : Prewrites startTs primary request) :
      Step system ((system.send [request]).enter startTs
        (.open (some primary) (request :: asked)))
  /-- `commit` is called, with the batches it will send: the primary, the other keys cut by
  region and frame, the ranges. -/
  | commit {system : System K} {startTs : Nat} {pinned : Option K} {asked : List (Request K)}
      {primary : K} {batches : List (List (Request K))}
      (phase : system.phases startTs = .open pinned asked)
      (same : ∀ earlier ∈ pinned, earlier = primary)
      (shape : ∀ batch ∈ batches, ∀ request ∈ batch, Prewrites startTs primary request) :
      Step system (system.enter startTs (.prewriting primary asked batches))
  /-- The next batch goes out when every earlier prewrite was accepted. -/
  | prewrite {system : System K} {startTs : Nat} {primary : K} {asked : List (Request K)}
      {batch : List (Request K)} {batches : List (List (Request K))}
      (phase : system.phases startTs = .prewriting primary asked (batch :: batches))
      (granted : ∀ earlier ∈ asked, system.Accepted earlier) :
      Step system ((system.send batch).enter startTs
        (.prewriting primary (batch ++ asked) batches))
  /-- The commit timestamp, once everything is prewritten, and the commit of the primary. -/
  | commitPrimary {system : System K} {startTs commitTs : Nat} {primary : K}
      {asked : List (Request K)} (secondaries : List K)
      (phase : system.phases startTs = .prewriting primary asked [])
      (granted : ∀ earlier ∈ asked, system.Accepted earlier)
      (later : system.clock < commitTs) :
      Step system (({ system with clock := commitTs }.send
        [.commit startTs commitTs [primary]]).enter startTs
          (.committing primary secondaries asked commitTs))
  | commitSecondaries {system : System K} {startTs commitTs : Nat} {primary : K}
      {secondaries : List K} {asked : List (Request K)} {keys : List K}
      (phase : system.phases startTs = .committing primary secondaries asked commitTs)
      (settled : (Request.commit startTs commitTs [primary], .commit .ok) ∈ system.answered)
      (among : ∀ key ∈ keys, key ∈ secondaries) (distinct : keys.Nodup) :
      Step system (system.send [.commit startTs commitTs keys])
  /-- The commit was refused: the primary is asked what happened. -/
  | primaryFate {system : System K} {startTs commitTs : Nat} {primary : K}
      {secondaries : List K} {asked : List (Request K)}
      (phase : system.phases startTs = .committing primary secondaries asked commitTs) :
      Step system (system.send [.rollback startTs [primary]])
  | commitCleanup {system : System K} {startTs commitTs committedAt : Nat} {primary : K}
      {secondaries : List K} {asked : List (Request K)} {keys : List K}
      (phase : system.phases startTs = .committing primary secondaries asked commitTs)
      (fate : (Request.rollback startTs [primary], .rollback (.committed committedAt)) ∈
        system.answered)
      (among : ∀ key ∈ keys, key ∈ secondaries) (distinct : keys.Nodup) :
      Step system (system.send [.commit startTs committedAt keys])
  | rollbackCleanup {system : System K} {startTs commitTs : Nat} {primary : K}
      {secondaries : List K} {asked : List (Request K)} {keys : List K} {status : TxnStatus K}
      (phase : system.phases startTs = .committing primary secondaries asked commitTs)
      (fate : (Request.rollback startTs [primary], .rollback status) ∈ system.answered)
      (dead : ∀ committedAt, status ≠ .committed committedAt)
      (among : ∀ key ∈ keys, key ∈ secondaries) (distinct : keys.Nodup) :
      Step system (system.send [.rollback startTs keys])
  | abort {system : System K} {startTs : Nat} {asked : List (Request K)}
      (phase : (system.phases startTs).asked = some asked)
      (undrawn : (system.phases startTs).commitTs = none) :
      Step system (system.enter startTs (.aborted (system.phases startTs).primary))
  /-- `undo` and `rollback` send the markers. -/
  | undo {system : System K} {startTs : Nat} {primary : Option K} {keys : List K}
      (phase : system.phases startTs = .aborted primary) (distinct : keys.Nodup) :
      Step system (system.send [.rollback startTs keys])
  | settlePrimary {system : System K} {key : K} {lock : LockRecord K}
      (met : (system.store.get key).lock = some lock) :
      Step system (system.send [.rollback lock.startTs [lock.primary]])
  | resolve {system : System K} {startTs : Nat} {primary : K} {status : TxnStatus K}
      {verdict : Nat} {keys : List K}
      (fate : (Request.rollback startTs [primary], .rollback status) ∈ system.answered)
      (carried : status = .ok ∧ verdict = 0 ∨ status = .rolledBack ∧ verdict = 0 ∨
        status = .committed verdict)
      (distinct : keys.Nodup) :
      Step system (system.send [.resolveLock startTs verdict keys])
  | renew (system : System K) (startTs : Nat) (primary : K) (ttlMs : Nat) :
      Step system (system.send [.heartbeat startTs primary ttlMs])
  /-- The store applies a request that was sent at some time before. -/
  | deliver {system : System K} {request : Request K} (sent : request ∈ system.sent) :
      Step system { system with
        store := (handle system.store request).2
        answered := (request, (handle system.store request).1) :: system.answered }

abbrev Run : System K → System K → Prop := Relation.ReflTransGen Step

def Reachable : Prop := Run initial system

end System

end Esker.Txn
