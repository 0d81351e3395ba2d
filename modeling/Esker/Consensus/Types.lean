import Mathlib

/-!
Contract: the values Raft moves around (`esker-raft/src/types.rs`, `error.rs`,
`message.rs`).

Owns: identities, log entries, the durable state, configurations and their
single-server changes, snapshots, messages and errors, with the byte format of a
configuration change. `u64` quantities are natural numbers; where the source
saturates or may overflow, the operation says so.
-/

namespace Esker.Consensus

abbrev Bytes := List UInt8

/-- `u64::MAX`. -/
def u64Max : Nat := 18446744073709551615

/-- `u64::saturating_add`. -/
def saturatingAdd (left right : Nat) : Nat := min (left + right) u64Max

/-- An unchecked `u64` addition: it panics rather than wrap. -/
def checkedAdd (left right : Nat) : Option Nat :=
  if left + right ≤ u64Max then some (left + right) else none

/-- What can go wrong in a state machine that does no I/O. -/
inductive RaftError where
  | compacted (index : Nat)
  | unavailable (index : Nat)
  | snapshotTemporarilyUnavailable
  | snapshotOutOfDate (index committed : Nat)
  | notLeader
  | confChangePending (index : Nat)
  | leadershipTransferInProgress (target : Nat)
  | invalidConfig (reason : String)
  | corruptConfChange (reason : String)
  | storage (reason : String)
deriving DecidableEq, Repr

def RaftError.isCompacted : RaftError → Bool
  | .compacted _ => true
  | _ => false

inductive EntryKind where
  | normal
  | confChange
deriving DecidableEq, Repr

structure Entry where
  term : Nat
  index : Nat
  kind : EntryKind
  data : Bytes
deriving DecidableEq, Repr

def Entry.empty (term : Nat) (index : Nat) : Entry :=
  ⟨term, index, .normal, []⟩

def Entry.cost (entry : Entry) : Nat := 24 + entry.data.length

/-- The state a node must have on stable storage before it acts on it. -/
structure HardState where
  term : Nat
  votedFor : Option Nat
  commit : Nat
deriving DecidableEq, Repr

instance : Inhabited HardState := ⟨⟨0, none, 0⟩⟩

def HardState.differsFrom (state other : HardState) : Bool := decide (state ≠ other)

/-! ## Configurations -/

structure ConfState where
  voters : List Nat
  learners : List Nat
deriving DecidableEq, Repr

instance : Inhabited ConfState := ⟨⟨[], []⟩⟩

/-- `Vec::dedup`: drops consecutive repetitions. -/
def dedupRuns : List Nat → List Nat
  | [] => []
  | [only] => [only]
  | first :: second :: rest =>
    if first = second then dedupRuns (second :: rest)
    else first :: dedupRuns (second :: rest)

/-- `sort_unstable` followed by `dedup`. -/
def sortDedup (ids : List Nat) : List Nat :=
  dedupRuns (ids.insertionSort (· ≤ ·))

namespace ConfState

variable (conf : ConfState)

/-- Sorts and deduplicates both lists; a node listed as both is a voter. -/
def normalize : ConfState :=
  let voters := sortDedup conf.voters
  { voters := voters
    learners := (sortDedup conf.learners).filter fun id => !voters.contains id }

/-- Whether `id` votes in this configuration. Both lists are kept sorted, so the
source's binary search is membership. -/
def isVoter (id : Nat) : Bool := conf.voters.contains id

def isLearner (id : Nat) : Bool := conf.learners.contains id

def contains (id : Nat) : Bool := conf.isVoter id || conf.isLearner id

def quorum : Nat := conf.voters.length / 2 + 1

def members : List Nat := conf.voters ++ conf.learners

end ConfState

inductive ConfChangeKind where
  | addVoter
  | addLearner
  | remove
deriving DecidableEq, Repr

def ConfChangeKind.tag : ConfChangeKind → UInt8
  | .addVoter => 1
  | .addLearner => 2
  | .remove => 3

def ConfChangeKind.fromTag (tag : UInt8) : Option ConfChangeKind :=
  if tag = 1 then some .addVoter
  else if tag = 2 then some .addLearner
  else if tag = 3 then some .remove
  else none

structure ConfChange where
  kind : ConfChangeKind
  node : Nat
  context : Bytes
deriving DecidableEq, Repr

/-- `u64::to_le_bytes`, `width` bytes of it. -/
def toLeBytes : (width : Nat) → Nat → Bytes
  | 0, _ => []
  | width + 1, value => UInt8.ofNat (value % 256) :: toLeBytes width (value / 256)

/-- `u64::from_le_bytes`. -/
def fromLeBytes : Bytes → Nat
  | [] => 0
  | byte :: rest => byte.toNat + 256 * fromLeBytes rest

namespace ConfChange

def headerLen : Nat := 9

/-- The payload of a `ConfChange` entry. -/
def encode (change : ConfChange) : Bytes :=
  change.kind.tag :: (toLeBytes 8 change.node ++ change.context)

/-- Reads a payload written by `encode`. -/
def decode (data : Bytes) : Except RaftError ConfChange :=
  match data with
  | [] => .error (.corruptConfChange
      s!"payload is {data.length} bytes, needs at least {headerLen}")
  | tag :: rest =>
    if data.length < headerLen then
      .error (.corruptConfChange
        s!"payload is {data.length} bytes, needs at least {headerLen}")
    else
      match ConfChangeKind.fromTag tag with
      | none => .error (.corruptConfChange s!"unknown kind byte {tag}")
      | some kind => .ok ⟨kind, fromLeBytes (rest.take 8), rest.drop 8⟩

/-- Applies this change to `conf`. Idempotent. -/
def applyTo (change : ConfChange) (conf : ConfState) : ConfState :=
  let voters := conf.voters.filter (· ≠ change.node)
  let learners := conf.learners.filter (· ≠ change.node)
  match change.kind with
  | .addVoter => (ConfState.mk (voters ++ [change.node]) learners).normalize
  | .addLearner => (ConfState.mk voters (learners ++ [change.node])).normalize
  | .remove => (ConfState.mk voters learners).normalize

end ConfChange

def Entry.confChange (term : Nat) (index : Nat) (change : ConfChange) : Entry :=
  ⟨term, index, .confChange, change.encode⟩

/-! ## Snapshots and reads -/

structure SnapshotMeta where
  index : Nat
  term : Nat
  conf : ConfState
deriving DecidableEq, Repr

/-- A snapshot of the state machine and its place in the log. The payload type `D`
is the state machine's business: nothing in the core reads it. -/
structure Snapshot (D : Type) where
  metadata : SnapshotMeta
  data : D
deriving DecidableEq, Repr

def Snapshot.isEmpty {D : Type} (snapshot : Snapshot D) : Bool := snapshot.metadata.index == 0

inductive SnapshotStatus where
  | finished
  | failed
deriving DecidableEq, Repr

/-- A read whose linearizability point has been established. -/
structure ReadState where
  index : Nat
  ctx : Bytes
deriving DecidableEq, Repr

/-! ## Messages -/

/-- One message between two members of a group. Every kind carries its sender, its
recipient and a term. -/
inductive Message (D : Type) where
  | requestVote (sender recipient : Nat) (term : Nat) (lastLogIndex : Nat)
      (lastLogTerm : Nat) (preVote force : Bool)
  | requestVoteResponse (sender recipient : Nat) (term : Nat) (granted preVote : Bool)
  | appendEntries (sender recipient : Nat) (term : Nat) (prevLogIndex : Nat)
      (prevLogTerm : Nat) (entries : List Entry) (leaderCommit : Nat) (context : Bytes)
  | appendEntriesResponse (sender recipient : Nat) (term : Nat) (reject : Bool)
      (index : Nat) (hintTerm : Nat) (context : Bytes)
  | installSnapshot (sender recipient : Nat) (term : Nat) (snapshot : Snapshot D)
  | timeoutNow (sender recipient : Nat) (term : Nat)
  | readIndex (sender recipient : Nat) (term : Nat) (ctx : Bytes)
  | readIndexResponse (sender recipient : Nat) (term : Nat) (index : Nat) (ctx : Bytes)
deriving DecidableEq, Repr

namespace Message

variable {D : Type}

def sender : Message D → Nat
  | requestVote sender _ _ _ _ _ _ => sender
  | requestVoteResponse sender _ _ _ _ => sender
  | appendEntries sender _ _ _ _ _ _ _ => sender
  | appendEntriesResponse sender _ _ _ _ _ _ => sender
  | installSnapshot sender _ _ _ => sender
  | timeoutNow sender _ _ => sender
  | readIndex sender _ _ _ => sender
  | readIndexResponse sender _ _ _ _ => sender

def recipient : Message D → Nat
  | requestVote _ recipient _ _ _ _ _ => recipient
  | requestVoteResponse _ recipient _ _ _ => recipient
  | appendEntries _ recipient _ _ _ _ _ _ => recipient
  | appendEntriesResponse _ recipient _ _ _ _ _ => recipient
  | installSnapshot _ recipient _ _ => recipient
  | timeoutNow _ recipient _ => recipient
  | readIndex _ recipient _ _ => recipient
  | readIndexResponse _ recipient _ _ _ => recipient

def term : Message D → Nat
  | requestVote _ _ term _ _ _ _ => term
  | requestVoteResponse _ _ term _ _ => term
  | appendEntries _ _ term _ _ _ _ _ => term
  | appendEntriesResponse _ _ term _ _ _ _ => term
  | installSnapshot _ _ term _ => term
  | timeoutNow _ _ term => term
  | readIndex _ _ term _ => term
  | readIndexResponse _ _ term _ _ => term

end Message

/-- What a node's elections have done; nothing reads these back. -/
structure Counters where
  campaignsPre : Nat
  campaignsReal : Nat
  voteRequestsSent : Nat
  voteResponsesSent : Nat
  voteResponsesGranted : Nat
  voteResponsesIgnored : Nat
  checkQuorumStepDowns : Nat
deriving DecidableEq, Repr

instance : Inhabited Counters := ⟨⟨0, 0, 0, 0, 0, 0, 0⟩⟩

end Esker.Consensus
