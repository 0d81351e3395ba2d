import Esker.Consensus.Replication

/-!
Contract: elections, ticks, and the dispatch of messages
(`esker-raft/src/election.rs`, `transfer.rs`, and the driving part of `core.rs`).

Owns: campaigning, voting, taking office, leadership transfer on the target's side,
check-quorum, `tick` and `step`, and the construction of a node over its storage.
-/

namespace Esker.Consensus.Raft

variable {S D : Type} [LogStorage S D]

open Fallible

/-! ## Role transitions -/

variable (raft : Raft S D)

/-- A node in a pre-vote round: the term and the vote are untouched. -/
def preCandidacy : Raft S D :=
  resetElectionTimeout { raft with role := .preCandidate, leader := none, votes := [] }

/-- A node that has adopted the next term and voted for itself. -/
def candidacy : Raft S D :=
  { raft.reset (saturatingAdd raft.term 1) with vote := some raft.id, role := .candidate }

def becomePreCandidate : RaftM S D Unit := do
  let raft ← get
  debugAssert (raft.role ≠ .leader)
  modify preCandidacy

def becomeCandidate : RaftM S D Unit := do
  let raft ← get
  debugAssert (raft.role ≠ .leader)
  modify candidacy

def assumeOffice : Raft S D :=
  { raft.reset raft.term with vote := some raft.id, role := .leader, leader := some raft.id }

def probeMember (last : Nat) (conf : ConfState) (peer : Nat) : RaftM S D Unit := do
  let next ← orPanic (checkedAdd last 1)
  modify fun raft =>
    { raft with
      progress := raft.progress.insert peer
        (Progress.new next raft.maxInflightMsgs (conf.isLearner peer)) }

/-- Forgets what was known about every peer: a new leader starts by probing. -/
def probeMembers (last : Nat) : RaftM S D Unit := do
  let raft ← get
  let conf := raft.conf.current
  each (probeMember last conf) conf.members

def ownEntry (index : Nat) (raft : Raft S D) : Raft S D :=
  adjustProgress raft.id
    (fun own =>
      { Progress.becomeReplicate { own with matched := index } with recentActive := true })
    { raft with ownTermIndex := index }

/-- Takes office, appending an empty entry of the new term. -/
def becomeLeader : RaftM S D Unit := do
  let raft ← get
  debugAssert (raft.role ≠ .follower)
  modify assumeOffice
  let last ← lastIndex
  probeMembers last
  let index := saturatingAdd last 1
  let _ ← onLog (RaftLog.append [Entry.empty raft.term index])
  modify (ownEntry index)
  let _ ← maybeCommit
  bcastAppend

/-! ## Voting -/

/-- Records a vote in the sorted list, unless this voter has already answered. -/
def recordVote (voter : Nat) (granted : Bool) : List (Nat × Bool) → List (Nat × Bool)
  | [] => [(voter, granted)]
  | (existing, vote) :: rest =>
    if existing = voter then (existing, vote) :: rest
    else if voter < existing then (voter, granted) :: (existing, vote) :: rest
    else (existing, vote) :: recordVote voter granted rest

/-- Counts the votes of nodes that are voters in the configuration in force. -/
def tallyVotes (conf : ConfState) (votes : List (Nat × Bool)) : VoteResult :=
  let counted := votes.filter fun (id, _) => conf.isVoter id
  if conf.quorum ≤ (counted.filter fun (_, granted) => granted).length then .won
  else if conf.quorum ≤ (counted.filter fun (_, granted) => !granted).length then .lost
  else .pending

variable (sender : Nat)

/-- Records a vote and says whether the election is decided. -/
def poll (granted : Bool) : RaftM S D VoteResult := do
  modify fun raft => { raft with votes := recordVote sender granted raft.votes }
  let raft ← get
  pure (tallyVotes raft.conf.current raft.votes)

/-- Whether this node may vote for `sender` now. -/
def grantsVote (term : Nat) (lastLogIndex : Nat) (lastLogTerm : Nat) (preVote : Bool) : Bool :=
  let canVote := decide (raft.vote = some sender ∨ (raft.vote = none ∧ raft.leader = none) ∨
    (preVote = true ∧ raft.term < term))
  canVote && raft.isVoter sender && raft.log.isUpToDate lastLogIndex lastLogTerm

def castVote (granted preVote : Bool) (raft : Raft S D) : Raft S D :=
  if granted && !preVote then { raft with vote := some sender, electionElapsed := 0 } else raft

def countAnswer (granted : Bool) : RaftM S D Unit := do
  count .voteResponsesSent
  if granted then count .voteResponsesGranted else pure ()

def handleVoteRequest (term : Nat) (lastLogIndex : Nat)
    (lastLogTerm : Nat) (preVote : Bool) : RaftM S D Unit := do
  let raft ← get
  let granted := raft.grantsVote sender term lastLogIndex lastLogTerm preVote
  -- The vote is recorded before the response is queued, so both leave in one `Ready`.
  modify (castVote sender granted preVote)
  countAnswer granted
  modify fun raft =>
    raft.send (.requestVoteResponse raft.id sender (if preVote then term else raft.term)
      granted preVote)

/-! ## Campaigning -/

def askOne (id voteTerm lastLogIndex lastLogTerm : Nat) (preVote force : Bool) (peer : Nat) :
    RaftM S D Unit :=
  if peer = id then pure ()
  else do
    count .voteRequestsSent
    modify (send (.requestVote id peer voteTerm lastLogIndex lastLogTerm preVote force))

variable (kind : CampaignKind)

def requestVotes (voteTerm : Nat) : RaftM S D Unit := do
  let raft ← get
  let lastLogIndex ← orThrow raft.log.lastIndex
  each
    (askOne raft.id voteTerm lastLogIndex raft.log.lastTerm (decide (kind = .preElection))
      (decide (kind = .transfer)))
    raft.conf.current.voters

def enterRound : RaftM S D Unit :=
  if kind = .preElection then do
    count .campaignsPre
    becomePreCandidate
  else do
    count .campaignsReal
    becomeCandidate

/-- One round of a campaign; `won` is what follows when this node's own vote already
decides it. -/
def campaignRound (won : RaftM S D Unit) : RaftM S D Unit := do
  let raft ← get
  if raft.role = .leader then pure ()
  else if !raft.isVoter raft.id then pure ()
  else do
    let voteTerm := saturatingAdd raft.term 1
    enterRound kind
    match ← poll raft.id true with
    | .won => won
    | _ => requestVotes kind voteTerm

/-- Stands for election. A pre-vote round that is won at once becomes a real one. -/
def campaign : CampaignKind → RaftM S D Unit
  | .preElection => campaignRound .preElection (campaignRound .election becomeLeader)
  | kind => campaignRound kind becomeLeader

def handleVoteResponse (granted preVote : Bool) : RaftM S D Unit := do
  let raft ← get
  let expected := match raft.role with
    | .preCandidate => some true
    | .candidate => some false
    | .follower => none
    | .leader => none
  -- A response has to match the round this node is actually running.
  if expected = some preVote then do
    match ← poll sender granted with
    | .pending => pure ()
    | .won => if raft.role = .preCandidate then campaign .election else becomeLeader
    | .lost => modify fun raft => raft.becomeFollower raft.term none
  else count .voteResponsesIgnored

/-- The target's side of a transfer: campaign immediately. -/
def handleTimeoutNow : RaftM S D Unit := do
  let raft ← get
  if raft.role = .leader then pure ()
  else if !raft.isVoter raft.id then pure ()
  else campaign .transfer

/-! ## Time -/

/-- Whether a majority has been heard from; clears every peer's activity flag. -/
def checkQuorumActive : Bool × Raft S D :=
  let conf := raft.conf.current
  let active := raft.progress.countP fun (id, progress) =>
    conf.isVoter id && (decide (id = raft.id) || progress.recentActive)
  (decide (conf.quorum ≤ active),
    { raft with
      progress := raft.progress.map fun (id, progress) =>
        (id, { progress with recentActive := false }) })

/-- How long a leader waits for a report on a snapshot, in ticks. -/
def snapshotTimeoutTicks : Nat := 100

def tickElection : RaftM S D Unit := do
  let raft ← get
  let elapsed ← orPanic (checkedAdd raft.electionElapsed 1)
  if raft.randomizedElectionTimeout ≤ elapsed then do
    modify fun raft => { raft with electionElapsed := 0 }
    -- A node that cannot read its log cannot stand for election, which is survivable.
    let _ ← attempt (campaign (if raft.preVote then .preElection else .election))
    pure ()
  else modify fun raft => { raft with electionElapsed := elapsed }

def heartbeatIfDue : RaftM S D Unit := do
  let raft ← get
  if raft.heartbeatTick ≤ raft.heartbeatElapsed then do
    modify fun raft => { raft with heartbeatElapsed := 0 }
    let _ ← attempt (bcastHeartbeat (raft.readOnly.lastPendingCtx.getD []))
    pure ()
  else pure ()

def stepDownWithoutQuorum : RaftM S D Unit := do
  let raft ← get
  let (active, after) := raft.checkQuorumActive
  modify fun _ => after
  if active then pure ()
  else do
    count .checkQuorumStepDowns
    modify fun raft => raft.becomeFollower raft.term none

/-- The election-timeout part of a leader's tick: a transfer gets one timeout. -/
def checkQuorumIfDue : RaftM S D Unit := do
  let raft ← get
  if raft.randomizedElectionTimeout ≤ raft.electionElapsed then do
    modify fun raft => { raft with electionElapsed := 0, leadTransferee := none }
    if raft.checkQuorum then stepDownWithoutQuorum else pure ()
  else pure ()

def tickHeartbeat : RaftM S D Unit := do
  let raft ← get
  let heartbeatElapsed ← orPanic (checkedAdd raft.heartbeatElapsed 1)
  let electionElapsed ← orPanic (checkedAdd raft.electionElapsed 1)
  modify fun raft => { raft with heartbeatElapsed, electionElapsed }
  modify (expirePendingSnapshots snapshotTimeoutTicks)
  heartbeatIfDue
  checkQuorumIfDue

def tick : RaftM S D Unit := do
  let raft ← get
  if raft.role = .leader then tickHeartbeat else tickElection

/-! ## Dispatch -/

/-- A node that has heard from a leader within the election timeout ignores a vote
request from a higher term, unless the leader itself ordered it. -/
def vetoedByLeaderLease : Message D → Bool
  | .requestVote _ _ _ _ _ _ force =>
    !force && raft.checkQuorum && raft.leader.isSome &&
      decide (raft.electionElapsed < raft.randomizedElectionTimeout)
  | _ => false

variable (message : Message D)

/-- A message from the future: adopt the term, unless it is a pre-vote. -/
def stepHigherTerm (raft : Raft S D) : Raft S D :=
  match message with
  | .requestVote _ _ _ _ _ true _ => raft
  | .requestVoteResponse _ _ _ true true => raft
  | .appendEntries sender _ term _ _ _ _ _ => raft.becomeFollower term (some sender)
  | .installSnapshot sender _ term _ => raft.becomeFollower term (some sender)
  | message => raft.becomeFollower message.term none

/-- A message from the past: ignored, with two exceptions that exist so the sender
learns. -/
def stepLowerTerm : RaftM S D Unit :=
  match message with
  | .appendEntries sender _ _ _ _ _ _ _ => do
      let raft ← get
      let index ← orThrow raft.log.lastIndex
      modify (send (.appendEntriesResponse raft.id sender raft.term true index
        raft.log.lastTerm []))
  | .installSnapshot sender _ _ _ => do
      let raft ← get
      let index ← orThrow raft.log.lastIndex
      modify (send (.appendEntriesResponse raft.id sender raft.term true index
        raft.log.lastTerm []))
  | .requestVote sender _ _ _ _ true _ =>
    modify fun raft => raft.send (.requestVoteResponse raft.id sender raft.term false true)
  | _ => pure ()

/-- A candidate that hears from a leader of its own term concedes. -/
def concede (term : Nat) (raft : Raft S D) : Raft S D :=
  if raft.role = .candidate ∨ raft.role = .preCandidate then
    raft.becomeFollower term (some sender)
  else raft

/-- A message in this node's own term. A pre-vote request is the one message that can
reach here with a term above it. -/
def stepCurrentTerm : RaftM S D Unit :=
  match message with
  | .requestVote sender _ term lastLogIndex lastLogTerm preVote _ =>
    handleVoteRequest sender term lastLogIndex lastLogTerm preVote
  | .requestVoteResponse sender _ _ granted preVote => handleVoteResponse sender granted preVote
  | .appendEntries sender _ term prevLogIndex prevLogTerm entries leaderCommit context => do
      modify (concede sender term)
      handleAppendEntries sender prevLogIndex prevLogTerm entries leaderCommit context
  | .appendEntriesResponse sender _ _ reject index hintTerm context =>
    handleAppendResponse sender reject index hintTerm context
  | .readIndex sender _ _ ctx => readIndex ctx (some sender)
  | .readIndexResponse _ _ _ index ctx => modify (handleReadIndexResponse index ctx)
  | .installSnapshot sender _ term snapshot => do
      modify (concede sender term)
      handleInstallSnapshot sender snapshot
  | .timeoutNow _ _ _ => handleTimeoutNow

def step : RaftM S D Unit := do
  let raft ← get
  if raft.term < message.term then
    if raft.vetoedByLeaderLease message then pure ()
    else do
      modify (stepHigherTerm message)
      stepCurrentTerm message
  else if message.term < raft.term then stepLowerTerm message
  else stepCurrentTerm message

/-! ## Construction -/

/-- The membership a node starts from, and the index it is the membership as of: the
snapshot's when it names any members, and otherwise what storage or the
configuration says. -/
def anchorConf (config : Config) (store : S) (initial : InitialState) (first : Nat) :
    ConfState × Nat :=
  let stored :=
    if initial.confState.voters = [] ∧ initial.confState.learners = [] then config.confState
    else initial.confState
  match LogStorage.snapshot store with
  | .ok snapshot =>
    if 0 < snapshot.metadata.index ∧ snapshot.metadata.conf.members ≠ [] then
      (snapshot.metadata.conf, snapshot.metadata.index)
    else (stored, first - 1)
  | .error _ => (stored, first - 1)

/-- A node that has just opened its log, before the log's configuration changes are
replayed. -/
def fresh (config : Config) (initial : InitialState) (log : RaftLog S D) (conf : ConfTracker) :
    Raft S D :=
  { id := config.id
    term := initial.hardState.term
    vote := initial.hardState.votedFor
    role := .follower
    leader := none
    log
    progress := []
    conf
    votes := []
    messages := []
    readStates := []
    readOnly := ReadOnly.new
    electionElapsed := 0
    heartbeatElapsed := 0
    randomizedElectionTimeout := config.electionTick.1
    counters := default
    electionTick := config.electionTick
    heartbeatTick := config.heartbeatTick
    maxInflightMsgs := config.maxInflightMsgs
    maxSizePerMsg := config.maxSizePerMsg
    preVote := config.preVote
    checkQuorum := config.checkQuorum
    rng := config.rng
    leadTransferee := none
    ownTermIndex := 0 }

/-- What `new` does once the record is built. -/
def opening : RaftM S D Unit := do
  replayConfChanges
  rebuildProgress
  modify resetElectionTimeout

/-- Builds a node over `store`. The membership comes from storage when storage has
one. -/
def new (config : Config) (store : S) : Checked (Raft S D) :=
  match config.validate, LogStorage.initialState store with
  | .error error, _ => some (.error error)
  | .ok (), .error error => some (.error error)
  | .ok (), .ok initial =>
    match RaftLog.new store config.applied with
    | none => none
    | some (.error error) => some (.error error)
    | some (.ok log) =>
      match log.firstIndex with
      | none => none
      | some (.error error) => some (.error error)
      | some (.ok first) =>
        let (conf, index) := anchorConf config store initial first
        match opening (fresh config initial log (ConfTracker.new conf index)) with
        | none => none
        | some (.error error, _) => some (.error error)
        | some (.ok (), raft) => some (.ok raft)

end Esker.Consensus.Raft
