import Esker.Consensus.Log
import Esker.Consensus.Progress

/-!
Contract: the state of one Raft node and the transitions every module shares
(`esker-raft/src/core.rs`, `config.rs`, and the data types of `conf.rs`,
`readonly.rs` and `election.rs`).

Owns: `Config`, `ConfTracker`, `ReadOnly`, the `Raft` record, `reset`,
`becomeFollower` and `rebuildProgress`.
-/

namespace Esker.Consensus

open Fallible

/-! ## The random source -/

/-- The generator a node draws its timeouts from. The core depends on it only through
the values drawn, so it is the stream of those and a position in it. -/
structure Pcg32 where
  stream : Nat → Nat
  position : Nat

/-- A value in `low..=high`. -/
def Pcg32.rangeInclusive (rng : Pcg32) (low high : Nat) : Nat × Pcg32 :=
  (low + rng.stream rng.position % (high - low + 1), { rng with position := rng.position + 1 })

/-! ## Configuration of a node -/

structure Config where
  id : Nat
  voters : List Nat
  learners : List Nat
  electionTick : Nat × Nat
  heartbeatTick : Nat
  maxInflightMsgs : Nat
  maxSizePerMsg : Nat
  preVote : Bool
  checkQuorum : Bool
  applied : Nat
  rng : Pcg32

namespace Config

def confState (config : Config) : ConfState :=
  ConfState.normalize ⟨config.voters, config.learners⟩

def validate (config : Config) : Except RaftError Unit :=
  let (low, high) := config.electionTick
  if config.id = 0 then .error (.invalidConfig "node id 0 is reserved for 'no node'")
  else if low = 0 ∨ high < low then
    .error (.invalidConfig s!"election_tick {low}..={high} is empty or inverted")
  else if config.heartbeatTick = 0 then
    .error (.invalidConfig "heartbeat_tick must be at least 1")
  else if low ≤ config.heartbeatTick then
    .error (.invalidConfig
      s!"election_tick low bound {low} must exceed heartbeat_tick {config.heartbeatTick}")
  else if config.maxInflightMsgs = 0 then
    .error (.invalidConfig "max_inflight_msgs must be at least 1")
  else if config.maxSizePerMsg = 0 then
    .error (.invalidConfig "max_size_per_msg must be at least 1")
  else .ok ()

end Config

/-! ## The membership and the reads a node keeps track of -/

/-- The configuration, plus enough history to undo the part that is not committed. -/
structure ConfTracker where
  base : ConfState
  baseIndex : Nat
  /-- Changes appended above `baseIndex`, each with the resulting configuration. -/
  appended : List (Nat × ConfState)
deriving DecidableEq, Repr

namespace ConfTracker

def new (base : ConfState) (index : Nat) : ConfTracker := ⟨base, index, []⟩

variable (tracker : ConfTracker)

/-- The configuration in force: the latest in the log, committed or not. -/
def current : ConfState :=
  match tracker.appended.getLast? with
  | some (_, conf) => conf
  | none => tracker.base

variable (index : Nat)

/-- Applies `change` as of the entry at `index`. -/
def append (change : ConfChange) : ConfTracker :=
  { tracker with
    appended := (tracker.appended.filter fun (position, _) => position < index) ++
      [(index, change.applyTo tracker.current)] }

/-- Reverts every change appended at or above `index`; says whether the configuration
changed. -/
def truncateFrom : Bool × ConfTracker :=
  let after :=
    { tracker with appended := tracker.appended.filter fun (position, _) => position < index }
  (decide (after.current ≠ tracker.current), after)

/-- The folding loop of `commitTo`. -/
def foldCommitted (index : Nat) (base : ConfState) (baseIndex : Nat) :
    List (Nat × ConfState) → ConfTracker
  | [] => ⟨base, baseIndex, []⟩
  | (position, conf) :: rest =>
    if index < position then ⟨base, baseIndex, (position, conf) :: rest⟩
    else foldCommitted index conf position rest

/-- Folds every change at or below `index` into the base. -/
def commitTo : ConfTracker :=
  foldCommitted index tracker.base tracker.baseIndex tracker.appended

/-- The index of the first change that is appended but not committed, if any. -/
def pending : Option Nat :=
  tracker.appended.head?.map Prod.fst

def reset (_tracker : ConfTracker) (conf : ConfState) (index : Nat) : ConfTracker :=
  ⟨conf, index, []⟩

end ConfTracker

/-- One outstanding `ReadIndex` round. -/
structure ReadIndexRound where
  index : Nat
  ctx : Bytes
  /-- Which peers have confirmed the leader within this round, sorted. -/
  acks : List Nat
  origin : Option Nat
deriving DecidableEq, Repr

def insertSorted (id : Nat) : List Nat → List Nat
  | [] => [id]
  | first :: rest =>
    if first = id then first :: rest
    else if id < first then id :: first :: rest
    else first :: insertSorted id rest

/-- Records `node` as having confirmed the leader. -/
def ReadIndexRound.ack (round : ReadIndexRound) (node : Nat) : ReadIndexRound :=
  { round with acks := insertSorted node round.acks }

/-- The leader's outstanding read rounds, oldest first, and the reads received before it
had committed anything in its own term. -/
structure ReadOnly where
  pending : List ReadIndexRound
  postponed : List (Bytes × Option Nat)
deriving DecidableEq, Repr

namespace ReadOnly

def new : ReadOnly := ⟨[], []⟩

variable (reads : ReadOnly)

/-- Starts a round at `index`. A context already in flight is not started twice. -/
def addRequest (index : Nat) (ctx : Bytes) (origin : Option Nat) (leader : Nat) : ReadOnly :=
  if reads.pending.any fun round => round.ctx = ctx then reads
  else
    { reads with
      pending := reads.pending ++ [ReadIndexRound.ack ⟨index, ctx, [], origin⟩ leader] }

/-- `iter_mut().find(..)` on the rounds: acknowledges the first one named `ctx`. -/
def ackFirst (ctx : Bytes) (node : Nat) : List ReadIndexRound → Option (Nat × List ReadIndexRound)
  | [] => none
  | round :: rest =>
    if round.ctx = ctx then
      let acked := round.ack node
      some (acked.acks.length, acked :: rest)
    else
      (ackFirst ctx node rest).map fun (count, tail) => (count, round :: tail)

variable (ctx : Bytes)

/-- Records a heartbeat response tagged with `ctx`, returning the confirmations that
round now has. -/
def recordAck (node : Nat) : Option (Nat × ReadOnly) :=
  (ackFirst ctx node reads.pending).map fun (count, pending) =>
    (count, { reads with pending })

/-- Completes every round up to and including the one named by `ctx`. -/
def advance : List ReadIndexRound × ReadOnly :=
  match reads.pending.findIdx? fun round => round.ctx = ctx with
  | none => ([], reads)
  | some position =>
    (reads.pending.take (position + 1),
      { reads with pending := reads.pending.drop (position + 1) })

/-- The context of the most recent round, which is what a heartbeat should carry. -/
def lastPendingCtx : Option Bytes :=
  reads.pending.getLast?.map ReadIndexRound.ctx

/-- Holds a read until this leader has committed an entry of its own term. -/
def postpone (origin : Option Nat) : ReadOnly :=
  if reads.postponed.any fun (pending, _) => pending = ctx then reads
  else { reads with postponed := reads.postponed ++ [(ctx, origin)] }

def takePostponed : List (Bytes × Option Nat) × ReadOnly :=
  (reads.postponed, { reads with postponed := [] })

def reset (_reads : ReadOnly) : ReadOnly := ⟨[], []⟩

end ReadOnly

/-! ## The node -/

inductive Role where
  | follower
  | preCandidate
  | candidate
  | leader
deriving DecidableEq, Repr

inductive CampaignKind where
  | preElection
  | election
  | transfer
deriving DecidableEq, Repr

inductive VoteResult where
  | pending
  | won
  | lost
deriving DecidableEq, Repr

structure Raft (S D : Type) where
  id : Nat
  term : Nat
  vote : Option Nat
  role : Role
  leader : Option Nat
  log : RaftLog S D
  progress : ProgressMap
  conf : ConfTracker
  votes : List (Nat × Bool)
  /-- Messages produced since the last `Ready`. -/
  messages : List (Message D)
  /-- Reads whose index has been established since the last `Ready`. -/
  readStates : List ReadState
  readOnly : ReadOnly
  electionElapsed : Nat
  heartbeatElapsed : Nat
  randomizedElectionTimeout : Nat
  counters : Counters
  electionTick : Nat × Nat
  heartbeatTick : Nat
  maxInflightMsgs : Nat
  maxSizePerMsg : Nat
  preVote : Bool
  checkQuorum : Bool
  rng : Pcg32
  leadTransferee : Option Nat
  /-- The index of the first entry this leader appended in its own term. -/
  ownTermIndex : Nat

abbrev RaftM (S D : Type) := Fallible RaftError (Raft S D)

namespace Raft

variable {S D : Type} [LogStorage S D]

def hardState (raft : Raft S D) : HardState := ⟨raft.term, raft.vote, raft.log.committed⟩

/-- Whether `id` counts toward a quorum in the configuration in force. -/
def isVoter (raft : Raft S D) (id : Nat) : Bool := raft.conf.current.isVoter id

/-- Queues a message for the next `Ready`. -/
def send (message : Message D) (raft : Raft S D) : Raft S D :=
  { raft with messages := raft.messages ++ [message] }

def resetElectionTimeout (raft : Raft S D) : Raft S D :=
  let (timeout, rng) := raft.rng.rangeInclusive raft.electionTick.1 raft.electionTick.2
  { raft with randomizedElectionTimeout := timeout, rng }

/-- Clears everything that belonged to the previous term and redraws the timeout. -/
def reset (term : Nat) (raft : Raft S D) : Raft S D :=
  let raft := if raft.term ≠ term then { raft with term, vote := none } else raft
  let raft := resetElectionTimeout
    { raft with leader := none, electionElapsed := 0, heartbeatElapsed := 0 }
  { raft with votes := [], readOnly := raft.readOnly.reset, leadTransferee := none }

/-- Becomes a follower of `leader` in `term`. -/
def becomeFollower (term : Nat) (leader : Option Nat) (raft : Raft S D) : Raft S D :=
  { raft.reset term with role := .follower, leader }

def onLog {α : Type} (call : LogM S D α) : RaftM S D α :=
  zoom Raft.log (fun log raft => { raft with log }) call

/-- The last index of the node's log, with `?`. -/
def lastIndex : RaftM S D Nat := do
  let raft ← get
  orThrow raft.log.lastIndex

def orFail {α : Type} : Checked α → RaftM S D α
  | none => panicked
  | some result => orThrow result

/-- A write through `progress.get_mut`. -/
def adjustProgress (id : Nat) (change : Progress → Progress) (raft : Raft S D) : Raft S D :=
  { raft with progress := raft.progress.adjust id change }

/-- One member's pass of `rebuildProgress`. A peer that becomes a voter starts out
recently active. -/
def rebuildMember (conf : ConfState) (next : Nat) (maxInflight : Nat) (peers : ProgressMap)
    (id : Nat) : ProgressMap :=
  let isLearner := conf.isLearner id
  match peers.get id with
  | some _ =>
    peers.adjust id fun progress =>
      { progress with
        recentActive :=
          if progress.isLearner && !isLearner then true else progress.recentActive
        isLearner }
  | none =>
    peers.insert id { Progress.new next maxInflight isLearner with recentActive := !isLearner }

/-- Rebuilds the progress map from the current configuration, keeping what is known
about peers that survived the change. -/
def rebuildProgress : RaftM S D Unit := do
  let last ← lastIndex
  modify fun raft =>
    let conf := raft.conf.current
    let rebuilt := conf.members.foldl
      (rebuildMember conf (saturatingAdd last 1) raft.maxInflightMsgs) raft.progress
    { raft with progress := rebuilt.filter fun (id, _) => conf.contains id }

inductive Counter where
  | campaignsPre
  | campaignsReal
  | voteRequestsSent
  | voteResponsesSent
  | voteResponsesGranted
  | voteResponsesIgnored
  | checkQuorumStepDowns
deriving DecidableEq, Repr

end Raft

/-- `self.counters.x += 1`. -/
def Counters.bump (counters : Counters) : Raft.Counter → Option Counters
  | .campaignsPre =>
    (checkedAdd counters.campaignsPre 1).map fun n => { counters with campaignsPre := n }
  | .campaignsReal =>
    (checkedAdd counters.campaignsReal 1).map fun n => { counters with campaignsReal := n }
  | .voteRequestsSent =>
    (checkedAdd counters.voteRequestsSent 1).map fun n =>
      { counters with voteRequestsSent := n }
  | .voteResponsesSent =>
    (checkedAdd counters.voteResponsesSent 1).map fun n =>
      { counters with voteResponsesSent := n }
  | .voteResponsesGranted =>
    (checkedAdd counters.voteResponsesGranted 1).map fun n =>
      { counters with voteResponsesGranted := n }
  | .voteResponsesIgnored =>
    (checkedAdd counters.voteResponsesIgnored 1).map fun n =>
      { counters with voteResponsesIgnored := n }
  | .checkQuorumStepDowns =>
    (checkedAdd counters.checkQuorumStepDowns 1).map fun n =>
      { counters with checkQuorumStepDowns := n }

def Raft.count {S D : Type} (counter : Raft.Counter) : RaftM S D Unit := do
  let raft ← get
  let counters ← orPanic (raft.counters.bump counter)
  modify fun raft => { raft with counters }

end Esker.Consensus
