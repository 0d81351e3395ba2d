import Esker.Consensus.Core
import Esker.Quorum

/-!
Contract: how a leader gets its log onto everyone else's disk, how it decides that
enough of them have it, and what a follower answers (`esker-raft/src/replication.rs`,
`snapshot.rs`, and the `Raft` methods of `conf.rs`, `readonly.rs` and `transfer.rs`
that replication calls).

Owns: the send paths, the linearizable reads, commit advancement, configuration
changes, and the handlers of append, response and snapshot messages.
-/

namespace Esker.Consensus.Raft

variable {S D : Type} [LogStorage S D]

open Fallible

/-- `if let Some(progress) = self.progress.get_mut(id)` around a change that also
yields a value. -/
def withProgress {α : Type} (id : Nat) (absent : α) (change : Progress → α × Progress) :
    RaftM S D α := do
  let raft ← get
  match raft.progress.get id with
  | none => pure absent
  | some progress => do
      modify (adjustProgress id fun _ => (change progress).2)
      pure (change progress).1

/-! ## Sending -/

variable (peer : Nat)

/-- Sends the follower a snapshot, because what it needs has been compacted away. -/
def sendSnapshot : RaftM S D Unit := do
  let raft ← get
  match raft.log.snapshot with
  | .error .snapshotTemporarilyUnavailable => pure ()
  | .error error => throw error
  | .ok snapshot =>
    if snapshot.isEmpty then
      -- Nothing has been compacted: the leader's own view of `next` is wrong.
      modify (adjustProgress peer Progress.becomeProbe)
    else do
      modify (send (.installSnapshot raft.id peer raft.term snapshot))
      -- Recorded as in flight, not as matched.
      modify (adjustProgress peer fun progress =>
        progress.becomeSnapshot snapshot.metadata.index)

/-- Sends from `next`, or a snapshot if what the follower needs is gone. -/
def sendAppend : RaftM S D Unit := do
  let raft ← get
  match raft.progress.get peer with
  | none => pure ()
  | some progress =>
    if progress.isPaused then pure ()
    else do
      let next := max progress.next 1
      let prevIndex := next - 1
      let last ← orThrow raft.log.lastIndex
      match raft.log.term prevIndex,
          raft.log.slice next (saturatingAdd last 1) raft.maxSizePerMsg with
      | .ok prevTerm, .ok entries => do
          let lastSent := RaftLog.batchEnd prevIndex entries
          modify (send (.appendEntries raft.id peer raft.term prevIndex prevTerm entries
            raft.log.committed []))
          match progress.state with
          | .replicate => do
              let after ← orPanic (checkedAdd lastSent 1)
              modify (adjustProgress peer fun progress =>
                { progress with
                  next := after
                  inflights :=
                    if entries = [] then progress.inflights
                    else progress.inflights.add lastSent })
          | .probe => modify (adjustProgress peer fun progress =>
            { progress with probeSent := true })
          | .snapshot => pure ()
      | _, _ => sendSnapshot peer

def bcastAppend : RaftM S D Unit := do
  let raft ← get
  each (fun peer => if peer = raft.id then pure () else sendAppend peer) raft.progress.ids

/-- A heartbeat: an append with no entries, anchored at what the follower is already
known to have. -/
def sendHeartbeat (context : Bytes) : RaftM S D Unit := do
  let raft ← get
  match raft.progress.get peer with
  | none => pure ()
  | some progress =>
    match raft.log.term progress.matched with
    | .error _ => do
        -- No heartbeat can describe this follower's position: send what it needs, even
        -- though probing is paused.
        modify (adjustProgress peer fun progress =>
          if progress.state = .probe then { progress with probeSent := false } else progress)
        sendAppend peer
    | .ok anchorTerm =>
      modify (send (.appendEntries raft.id peer raft.term progress.matched anchorTerm []
        (min raft.log.committed progress.matched) context))

/-- Proves the leader is still there; `context` carries a read round's tag. -/
def bcastHeartbeat (context : Bytes) : RaftM S D Unit := do
  let raft ← get
  each (fun peer => if peer = raft.id then pure () else sendHeartbeat peer context)
    raft.progress.ids

/-! ## Linearizable reads -/

variable (index : Nat)

/-- Delivers a completed read: to the driver if it was raised here, to the follower
otherwise. -/
def answerRead (ctx : Bytes) (origin : Option Nat) (raft : Raft S D) : Raft S D :=
  match origin with
  | none => { raft with readStates := raft.readStates ++ [⟨index, ctx⟩] }
  | some follower => raft.send (.readIndexResponse raft.id follower raft.term index ctx)

variable (raft : Raft S D)

/-- Whether this leader's commit index is one it can vouch for. -/
def hasCommittedInCurrentTerm : Bool :=
  match raft.log.term raft.log.committed with
  | .ok term => decide (term = raft.term)
  | .error _ => false

/-- Starts a linearizable read; `origin` is the follower that forwarded it. -/
def readIndex (ctx : Bytes) (origin : Option Nat) : RaftM S D Unit := do
  let raft ← get
  if raft.role ≠ .leader then
    match raft.leader with
    | some leader => modify (send (.readIndex raft.id leader raft.term ctx))
    | none => pure ()
  else if !raft.hasCommittedInCurrentTerm then
    modify fun raft => { raft with readOnly := raft.readOnly.postpone ctx origin }
  else if raft.conf.current.quorum = 1 ∧ raft.isVoter raft.id then
    -- A single voter is its own quorum.
    modify (answerRead raft.log.committed ctx origin)
  else do
    modify fun raft =>
      { raft with
        readOnly := raft.readOnly.addRequest raft.log.committed ctx origin raft.id }
    bcastHeartbeat ctx

/-- Releases reads that were waiting for this leader to commit in its own term. -/
def flushPostponedReads : RaftM S D Unit := do
  let raft ← get
  if !raft.hasCommittedInCurrentTerm then pure ()
  else do
    modify fun raft => { raft with readOnly := raft.readOnly.takePostponed.2 }
    each (fun (ctx, origin) => readIndex ctx origin) raft.readOnly.takePostponed.1

variable (sender : Nat)

/-- Counts a heartbeat response toward the round its context names, and completes the
round, with every older one, once a quorum has confirmed the leader. -/
def recordReadAck (context : Bytes) (raft : Raft S D) : Raft S D :=
  if context = [] ∨ raft.role ≠ .leader ∨ !raft.isVoter sender then raft
  else
    match raft.readOnly.recordAck context sender with
    | none => raft
    | some (acks, readOnly) =>
      let raft := { raft with readOnly }
      if acks < raft.conf.current.quorum then raft
      else
        let (rounds, readOnly) := raft.readOnly.advance context
        rounds.foldl (fun raft round => answerRead round.index round.ctx round.origin raft)
          { raft with readOnly }

/-- Records the leader's answer to a read this node forwarded. -/
def handleReadIndexResponse (ctx : Bytes) (raft : Raft S D) : Raft S D :=
  { raft with readStates := raft.readStates ++ [⟨index, ctx⟩] }

/-! ## Configuration changes -/

/-- The loop of `recordConfChanges`: whether the configuration moved. -/
def applyConfChanges : List Entry → (moved : Bool) → RaftM S D Bool
  | [], moved => pure moved
  | entry :: rest, moved =>
    if entry.kind = .confChange then do
      let change ← orThrow (ConfChange.decode entry.data)
      let raft ← get
      let conf := raft.conf.append entry.index change
      modify fun raft => { raft with conf }
      applyConfChanges rest (moved || decide (conf.current ≠ raft.conf.current))
    else applyConfChanges rest moved

/-- Applies the configuration carried by the `ConfChange` entries the log has just
written. -/
def recordConfChanges (entries : List Entry) : RaftM S D Unit := do
  let moved ← applyConfChanges entries false
  if moved then rebuildProgress else pure ()

/-- Reverts every configuration change appended at or above `index`. -/
def revertConfTo : RaftM S D Unit := do
  let raft ← get
  let (changed, conf) := raft.conf.truncateFrom index
  modify fun raft => { raft with conf }
  if changed then rebuildProgress else pure ()

/-- Folds every configuration change at or below the commit index into the base. -/
def advanceConfCommit : Raft S D :=
  { raft with conf := raft.conf.commitTo raft.log.committed }

/-- A leader that a committed configuration change has removed steps down. -/
def stepDownIfRemoved : Raft S D :=
  if raft.role = .leader ∧ !raft.isVoter raft.id then raft.becomeFollower raft.term none
  else raft

/-- Rebuilds the stack from the log, at open, on top of the anchor. -/
def replayConfChanges : RaftM S D Unit := do
  let raft ← get
  let first ← orFail raft.log.firstIndex
  let last ← orThrow raft.log.lastIndex
  if last < first then pure ()
  else do
    let entries ← orThrow (raft.log.slice first (saturatingAdd last 1) u64Max)
    recordConfChanges entries
    modify advanceConfCommit

/-! ## Committing and proposing -/

/-- The highest index a majority of `voters` has reached. -/
def quorumIndex (voters : List Nat) (peers : ProgressMap) : Option Nat :=
  let matched := voters.map fun id =>
    match peers.get id with
    | some progress => progress.matched
    | none => 0
  (matched.insertionSort (· ≥ ·))[voters.length / 2]?

/-- What the leader knows a voter to have. -/
def reached (peers : ProgressMap) (id : Nat) : Nat :=
  match peers.get id with
  | some progress => progress.matched
  | none => 0

/-- The candidate for the commit index is the greatest index that a majority of the voters has. -/
theorem quorumIndex_eq_greatest (voters : List Nat) (peers : ProgressMap) :
    (∀ index, quorumIndex voters peers = some index ↔ IsGreatest
      { index | voters.length < 2 * voters.countP (index ≤ reached peers ·) } index) ∧
      (quorumIndex voters peers = none ↔ voters = []) := by
  have none_iff : quorumIndex voters peers = none ↔ voters = [] := by
    rw [← List.length_eq_zero_iff]
    simp only [quorumIndex, List.getElem?_eq_none_iff, List.length_insertionSort, List.length_map]
    omega
  have middle {index : Nat} (found : quorumIndex voters peers = some index) :
      IsGreatest { index | voters.length < 2 * voters.countP (index ≤ reached peers ·) } index := by
    have onValues := @greatest_of_middle (voters.map (reached peers)) index
    simp only [List.length_map, List.countP_map] at onValues
    exact onValues found
  refine ⟨fun index => ⟨middle, fun greatest => ?_⟩, none_iff⟩
  cases found : quorumIndex voters peers with
  | some candidate => rw [greatest.unique (middle found)]
  | none =>
    have most : voters.length < _ := greatest.1
    rw [none_iff.mp found] at most
    simp at most

/-- Advances the commit index, including the term condition: only an entry of the
current term commits by counting. Returns whether it moved. -/
def maybeCommit : RaftM S D Bool := do
  let raft ← get
  let voters := raft.conf.current.voters
  if voters = [] then pure false
  else do
    let candidate ← orPanic (quorumIndex voters raft.progress)
    if candidate ≤ raft.log.committed then pure false
    else if !raft.log.matchesAt candidate raft.term then pure false
    else do
      onLog (RaftLog.commitTo candidate)
      modify advanceConfCommit
      modify stepDownIfRemoved
      flushPostponedReads
      pure true

/-- Appends `data` as an entry of the current term and starts replicating it. -/
def proposeEntry (kind : EntryKind) (data : Bytes) : RaftM S D Nat := do
  let raft ← get
  debugAssert (raft.role = .leader)
  let last ← orThrow raft.log.lastIndex
  let index := saturatingAdd last 1
  let entry : Entry := ⟨raft.term, index, kind, data⟩
  let _ ← onLog (RaftLog.append [entry])
  recordConfChanges [entry]
  modify fun raft =>
    adjustProgress raft.id (fun own => (own.maybeUpdate index).2) raft
  let _ ← maybeCommit
  bcastAppend
  pure index

def proposeConfChange (change : ConfChange) : RaftM S D Nat := do
  let raft ← get
  if raft.role ≠ .leader then throw .notLeader
  else
    match raft.conf.pending with
    | some position => throw (.confChangePending position)
    | none =>
      if raft.log.committed < raft.ownTermIndex then
        throw (.confChangePending raft.ownTermIndex)
      else
        match raft.leadTransferee with
        | some target => throw (.leadershipTransferInProgress target)
        | none =>
          if (change.applyTo raft.conf.current).voters = [] then
            throw (.invalidConfig
              "a configuration change may not remove the last voter")
          else proposeEntry .confChange change.encode

/-! ## Leadership transfer, the leader's part -/

/-- Sends `TimeoutNow` if the target is current, and otherwise what it is missing. -/
def nudgeTransferee (target : Nat) : RaftM S D Unit := do
  let raft ← get
  let last ← orThrow raft.log.lastIndex
  let caughtUp := match raft.progress.get target with
    | some progress => decide (progress.matched = last)
    | none => false
  if caughtUp then modify (send (.timeoutNow raft.id target raft.term))
  else sendAppend target

/-- Called when a follower's progress moves, in case it was the transfer target. -/
def maybeFinishTransfer : RaftM S D Unit := do
  let raft ← get
  if raft.leadTransferee = some sender then nudgeTransferee sender else pure ()

/-- Asks the leader to hand office to `target`. -/
def transferLeader (target : Nat) : RaftM S D Unit := do
  let raft ← get
  if raft.role ≠ .leader then pure ()
  else if target = raft.id then pure ()
  else if !raft.isVoter target then pure ()
  else if raft.leadTransferee = some target then pure ()
  else do
    modify fun raft => { raft with leadTransferee := some target, electionElapsed := 0 }
    nudgeTransferee target

/-! ## The follower's side -/

/-- Walks back from `index` while this log has the same term one below. -/
def conflictTermStart (log : RaftLog S D) (first : Nat) (conflictTerm : Nat) : Nat → Nat
  | 0 => 0
  | index + 1 =>
    if first < index + 1 ∧ log.matchesAt index conflictTerm then
      conflictTermStart log first conflictTerm index
    else index + 1

/-- What to tell a leader whose append was refused: the end of this log if it is simply
shorter, and otherwise the first index of the term this node has there. -/
def conflictHint (log : RaftLog S D) (prevLogIndex : Nat) : Checked (Nat × Nat) :=
  match log.lastIndex with
  | .error error => some (.error error)
  | .ok last =>
    if last < prevLogIndex then some (.ok (last, log.lastTerm))
    else
      match log.term prevLogIndex with
      | .error _ => some (.ok (last, log.lastTerm))
      | .ok conflictTerm =>
        match log.firstIndex with
        | none => none
        | some (.error error) => some (.error error)
        | some (.ok first) =>
          some (.ok (conflictTermStart log first conflictTerm prevLogIndex, conflictTerm))

/-- Refuses an append, with a hint of where to probe next. -/
def rejectAppend (prevLogIndex : Nat) (context : Bytes) : RaftM S D Unit := do
  let raft ← get
  let (index, hintTerm) ← orFail (conflictHint raft.log prevLogIndex)
  modify (send (.appendEntriesResponse raft.id sender raft.term true index hintTerm context))

/-- Acknowledges an append through `index`. -/
def acknowledgeAppend (index : Nat) (context : Bytes) (raft : Raft S D) : Raft S D :=
  raft.send (.appendEntriesResponse raft.id sender raft.term false index 0 context)

/-- Moves the configuration with the log: a truncated entry takes its configuration with
it, and an entry the log has just written applies its own. -/
def followAppend (outcome : AppendOutcome) (confChanges : List Entry) : RaftM S D Unit :=
  match outcome.splicedFrom with
  | none => pure ()
  | some fromIndex => do
      let written := confChanges.filter fun entry => fromIndex ≤ entry.index
      if outcome.truncated then do
        revertConfTo fromIndex
        recordConfChanges written
      else recordConfChanges written

def handleAppendEntries (prevLogIndex : Nat) (prevLogTerm : Nat)
    (entries : List Entry) (leaderCommit : Nat) (context : Bytes) : RaftM S D Unit := do
  modify fun raft => { raft with leader := some sender, electionElapsed := 0 }
  let raft ← get
  if prevLogIndex < raft.log.committed then
    -- An append below the commit index is answered, not rejected: everything at or below
    -- `committed` is settled.
    modify (acknowledgeAppend sender raft.log.committed context)
  else do
    let confChanges := entries.filter fun entry => entry.kind = .confChange
    match ← attempt (onLog (RaftLog.maybeAppend prevLogIndex prevLogTerm leaderCommit entries))
      with
    | .ok (some outcome) => do
        -- The configuration follows what the log did, not what the message carried.
        followAppend outcome confChanges
        modify advanceConfCommit
        modify (acknowledgeAppend sender outcome.last context)
    | .ok none => rejectAppend sender prevLogIndex context
    | .error _ => rejectAppend sender prevLogIndex context

def restore (snapshot : Snapshot D) : RaftM S D Unit := do
  modify fun raft =>
    { raft with
      log := raft.log.restore snapshot
      conf := raft.conf.reset snapshot.metadata.conf snapshot.metadata.index }
  rebuildProgress

/-- Installs a snapshot from the leader, or explains why it was not needed. -/
def handleInstallSnapshot (snapshot : Snapshot D) : RaftM S D Unit := do
  modify fun raft => { raft with leader := some sender, electionElapsed := 0 }
  let raft ← get
  if raft.log.shouldRestore snapshot then do
    restore snapshot
    let last ← lastIndex
    modify (acknowledgeAppend sender last [])
  else modify (acknowledgeAppend sender raft.log.committed [])

/-! ## The leader's side of the answers -/

/-- Walks back from `index` while this log's term there is greater than `term`. -/
def conflictByTermFrom (log : RaftLog S D) (term : Nat) : Nat → Nat
  | 0 => 0
  | index + 1 =>
    match log.term (index + 1) with
    | .ok own => if term < own then conflictByTermFrom log term index else index + 1
    | .error _ => index + 1

def findConflictByTerm (log : RaftLog S D) (index : Nat) (term : Nat) : Nat :=
  conflictByTermFrom log term (min index log.lastIndexOrZero)

def handleRejection (index : Nat) (hintTerm : Nat) : RaftM S D Unit := do
  let raft ← get
  let probe :=
    if 0 < hintTerm then saturatingAdd (findConflictByTerm raft.log index hintTerm) 1
    else saturatingAdd index 1
  let retry ← withProgress sender false fun progress =>
    let after := { (progress.maybeDecrTo probe).2 with probeSent := false }
    (!after.isPaused, after)
  if retry then sendAppend sender else pure ()

/-- The progress of a follower that has acknowledged `index`. -/
def acknowledged (progress : Progress) : Bool × Progress :=
  let (advanced, progress) := progress.maybeUpdate index
  (advanced,
    match progress.state with
    | .probe => progress.becomeReplicate
    | .replicate => { progress with inflights := progress.inflights.freeTo index }
    | .snapshot => progress.becomeProbe)

/-- What an acknowledgement makes the leader send: everyone learns of a new commit index,
and a follower that is still behind gets more. -/
def replicateFurther (sender last : Nat) (committed : Bool) : RaftM S D Unit := do
  let raft ← get
  let behind := match raft.progress.get sender with
    | some progress => decide (progress.matched < last)
    | none => false
  if committed then bcastAppend
  else if behind then sendAppend sender
  else pure ()

/-- `advanced && self.maybe_commit()?`. -/
def commitIfAdvanced (advanced : Bool) : RaftM S D Bool :=
  if advanced then maybeCommit else pure false

def handleAppendResponse (reject : Bool) (index : Nat) (hintTerm : Nat)
    (context : Bytes) : RaftM S D Unit := do
  let raft ← get
  if raft.role ≠ .leader ∨ !raft.progress.contains sender then pure ()
  else do
    -- A follower cannot hold more than this leader has sent it.
    let last ← orThrow raft.log.lastIndex
    let index := min index last
    modify (adjustProgress sender fun progress => { progress with recentActive := true })
    if reject then handleRejection sender index hintTerm
    else do
      let advanced ← withProgress sender false (acknowledged index)
      maybeFinishTransfer sender
      let last ← lastIndex
      let committed ← commitIfAdvanced advanced
      replicateFurther sender last committed
      modify (recordReadAck sender context)

/-- Takes the driver's word for what became of a snapshot transfer. -/
def reportSnapshot (status : SnapshotStatus) (raft : Raft S D) : Raft S D :=
  if raft.role ≠ .leader then raft
  else
    raft.adjustProgress peer fun progress =>
      if progress.state ≠ .snapshot then progress
      else
        match status with
        | .finished => progress.becomeProbe
        | .failed => progress.abortSnapshot

def expirePendingSnapshots (limit : Nat) (raft : Raft S D) : Raft S D :=
  { raft with
    progress := raft.progress.map fun (id, progress) =>
      let (expired, ticked) := progress.snapshotTick limit
      (id, if expired then ticked.abortSnapshot else ticked) }

end Esker.Consensus.Raft
