import Esker.Consensus.Election

/-!
Contract: what the sending and committing calls of a node can change.

Owns: `Keeps`: the calls which queue messages, move flow control, serve reads and follow the
configuration keep who the node is, its term, its vote and its role, over every `LogStorage`.
-/

namespace Esker.Consensus

namespace Raft

open Fallible

variable {S D α : Type} {first second third : Raft S D} (raft : Raft S D)

/-! ## What a call leaves alone -/

/-- The call left alone who the node is, its term, its vote and its role. -/
structure Keeps (before after : Raft S D) : Prop where
  id : after.id = before.id
  term : after.term = before.term
  vote : after.vote = before.vote
  role : after.role = before.role

namespace Keeps

theorem refl : Keeps raft raft := ⟨rfl, rfl, rfl, rfl⟩

theorem trans (left : Keeps first second) (right : Keeps second third) : Keeps first third :=
  ⟨right.id.trans left.id, right.term.trans left.term, right.vote.trans left.vote,
    right.role.trans left.role⟩

instance : Std.Refl (α := Raft S D) Keeps := ⟨refl⟩

instance : IsTrans (Raft S D) Keeps := ⟨fun _ _ _ => trans⟩

end Keeps

theorem follows_onLog (call : LogM S D α) : Follows Keeps (onLog call) :=
  follows_zoom call fun _ _ => ⟨rfl, rfl, rfl, rfl⟩

theorem follows_count (counter : Counter) : Follows Keeps (count counter : RaftM S D Unit) :=
  follows_read fun _ => follows_bind (follows_orPanic _) fun _ =>
    follows_modify fun _ => ⟨rfl, rfl, rfl, rfl⟩

theorem follows_send (message : Message D) :
    Follows Keeps (modify (send message) : RaftM S D Unit) :=
  follows_modify fun _ => ⟨rfl, rfl, rfl, rfl⟩

theorem follows_adjustProgress (id : Nat) (change : Progress → Progress) :
    Follows Keeps (modify (adjustProgress id change) : RaftM S D Unit) :=
  follows_modify fun _ => ⟨rfl, rfl, rfl, rfl⟩

theorem follows_withProgress (id : Nat) (absent : α) (change : Progress → α × Progress) :
    Follows Keeps (withProgress id absent change : RaftM S D α) := by
  refine follows_read fun raft => ?_
  cases raft.progress.get id with
  | none => exact follows_pure absent
  | some progress => exact follows_bind (follows_adjustProgress _ _) fun _ => follows_pure _

theorem follows_acknowledgeAppend (sender index : Nat) (context : Bytes) :
    Follows Keeps (modify (acknowledgeAppend sender index context) : RaftM S D Unit) :=
  follows_modify fun _ => ⟨rfl, rfl, rfl, rfl⟩

theorem keeps_answerRead (index : Nat) (ctx : Bytes) (origin : Option Nat) :
    Keeps raft (raft.answerRead index ctx origin) := by
  cases origin <;> exact ⟨rfl, rfl, rfl, rfl⟩

theorem follows_orFail (result : Checked α) : Follows Keeps (orFail result : RaftM S D α) := by
  cases result with
  | none => exact fun _ => trivial
  | some result => exact follows_orThrow result

variable [LogStorage S D]

theorem follows_lastIndex : Follows Keeps (lastIndex : RaftM S D Nat) :=
  follows_read fun _ => follows_orThrow _

/-! ## Sending -/

theorem follows_sendSnapshot (peer : Nat) : Follows Keeps (sendSnapshot peer : RaftM S D Unit) := by
  refine follows_read fun raft => ?_
  cases raft.log.snapshot with
  | error error => cases error <;> first | exact follows_pure () | exact follows_throw _
  | ok snapshot =>
    exact follows_ite (fun _ => follows_adjustProgress _ _) fun _ =>
      follows_bind (follows_send _) fun _ => follows_adjustProgress _ _

theorem follows_sendAppend (peer : Nat) : Follows Keeps (sendAppend peer : RaftM S D Unit) := by
  refine follows_read fun raft => ?_
  cases raft.progress.get peer with
  | none => exact follows_pure ()
  | some progress =>
    refine follows_ite (fun _ => follows_pure ()) fun _ => ?_
    refine follows_bind (follows_orThrow _) fun last => ?_
    split
    · refine follows_bind (follows_send _) fun _ => ?_
      cases progress.state with
      | replicate => exact follows_bind (follows_orPanic _) fun _ => follows_adjustProgress _ _
      | probe => exact follows_adjustProgress _ _
      | snapshot => exact follows_pure ()
    · exact follows_sendSnapshot peer

theorem follows_bcastAppend : Follows Keeps (bcastAppend : RaftM S D Unit) :=
  follows_read fun _ => follows_each _ fun peer _ =>
    follows_ite (fun _ => follows_pure ()) fun _ => follows_sendAppend peer

theorem follows_bcastHeartbeat (context : Bytes) :
    Follows Keeps (bcastHeartbeat context : RaftM S D Unit) := by
  have one (peer : Nat) : Follows Keeps (sendHeartbeat peer context : RaftM S D Unit) := by
    refine follows_read fun raft => ?_
    cases raft.progress.get peer with
    | none => exact follows_pure ()
    | some progress =>
      dsimp only
      cases raft.log.term progress.matched with
      | ok anchorTerm => exact follows_send _
      | error error =>
        exact follows_bind (follows_adjustProgress _ _) fun _ => follows_sendAppend peer
  exact follows_read fun _ => follows_each _ fun peer _ =>
    follows_ite (fun _ => follows_pure ()) fun _ => one peer

/-! ## Reads -/

theorem follows_readIndex (ctx : Bytes) (origin : Option Nat) :
    Follows Keeps (readIndex ctx origin : RaftM S D Unit) := by
  refine follows_read fun raft => follows_ite (fun _ => ?_) fun _ => ?_
  · cases raft.leader with
    | none => exact follows_pure ()
    | some leader => exact follows_send _
  · exact follows_ite (fun _ => follows_modify fun _ => ⟨rfl, rfl, rfl, rfl⟩) fun _ =>
      follows_ite (fun _ => follows_modify fun raft => keeps_answerRead raft _ ctx origin) fun _ =>
      follows_bind (follows_modify fun _ => ⟨rfl, rfl, rfl, rfl⟩) fun _ =>
      follows_bcastHeartbeat ctx

theorem follows_flushPostponedReads : Follows Keeps (flushPostponedReads : RaftM S D Unit) :=
  follows_read fun _ => follows_ite (fun _ => follows_pure ()) fun _ =>
    follows_bind (follows_modify fun _ => ⟨rfl, rfl, rfl, rfl⟩) fun _ =>
    follows_each _ fun read _ => follows_readIndex read.1 read.2

omit [LogStorage S D] in
theorem keeps_recordReadAck (sender : Nat) (context : Bytes) (raft : Raft S D) :
    Keeps raft (raft.recordReadAck sender context) := by
  have answers (rounds : List ReadIndexRound) (current : Raft S D) (soFar : Keeps raft current) :
      Keeps raft (rounds.foldl
        (fun raft round => Raft.answerRead round.index round.ctx round.origin raft) current) := by
    induction rounds generalizing current with
    | nil => exact soFar
    | cons round rest ih => exact ih _ (soFar.trans (keeps_answerRead current _ _ _))
  unfold recordReadAck
  split
  · exact .refl raft
  split
  · exact .refl raft
  dsimp only
  split
  · exact ⟨rfl, rfl, rfl, rfl⟩
  · exact answers _ _ ⟨rfl, rfl, rfl, rfl⟩

/-! ## Membership changes -/

theorem follows_rebuildProgress : Follows Keeps (rebuildProgress : RaftM S D Unit) :=
  follows_bind follows_lastIndex fun _ => follows_modify fun _ => ⟨rfl, rfl, rfl, rfl⟩

theorem follows_recordConfChanges (entries : List Entry) :
    Follows Keeps (recordConfChanges entries : RaftM S D Unit) := by
  have applies (moved : Bool) : Follows Keeps (applyConfChanges entries moved : RaftM S D Bool) := by
    induction entries generalizing moved with
    | nil => exact follows_pure moved
    | cons entry rest ih =>
      exact follows_ite (fun _ => follows_bind (follows_orThrow _) fun _ =>
        follows_read fun _ =>
        follows_bind (follows_modify fun _ => ⟨rfl, rfl, rfl, rfl⟩) fun _ => ih _) fun _ => ih _
  exact follows_bind (applies false) fun _ =>
    follows_ite (fun _ => follows_rebuildProgress) fun _ => follows_pure ()

theorem follows_revertConfTo (index : Nat) : Follows Keeps (revertConfTo index : RaftM S D Unit) :=
  follows_read fun _ =>
    follows_bind (follows_modify fun _ => ⟨rfl, rfl, rfl, rfl⟩) fun _ =>
    follows_ite (fun _ => follows_rebuildProgress) fun _ => follows_pure ()

theorem follows_opening : Follows Keeps (opening : RaftM S D Unit) := by
  have replays : Follows Keeps (replayConfChanges : RaftM S D Unit) :=
    follows_read fun _ => follows_bind (follows_orFail _) fun _ =>
      follows_bind (follows_orThrow _) fun _ => follows_ite (fun _ => follows_pure ()) fun _ =>
      follows_bind (follows_orThrow _) fun _ => follows_bind (follows_recordConfChanges _) fun _ =>
      follows_modify fun _ => ⟨rfl, rfl, rfl, rfl⟩
  exact follows_bind replays fun _ => follows_bind follows_rebuildProgress fun _ =>
    follows_modify fun _ => ⟨rfl, rfl, rfl, rfl⟩

/-! ## Leadership transfer -/

theorem follows_nudgeTransferee (target : Nat) :
    Follows Keeps (nudgeTransferee target : RaftM S D Unit) :=
  follows_read fun _ => follows_bind (follows_orThrow _) fun _ =>
    follows_ite (fun _ => follows_send _) fun _ => follows_sendAppend target

theorem follows_transferLeader (target : Nat) :
    Follows Keeps (transferLeader target : RaftM S D Unit) :=
  follows_read fun _ => follows_ite (fun _ => follows_pure _) fun _ =>
    follows_ite (fun _ => follows_pure _) fun _ => follows_ite (fun _ => follows_pure _) fun _ =>
    follows_ite (fun _ => follows_pure _) fun _ =>
    follows_bind (follows_modify fun _ => ⟨rfl, rfl, rfl, rfl⟩) fun _ =>
    follows_nudgeTransferee target

/-! ## The follower's side -/

theorem follows_rejectAppend (sender prevLogIndex : Nat) (context : Bytes) :
    Follows Keeps (rejectAppend sender prevLogIndex context : RaftM S D Unit) :=
  follows_read fun _ => follows_bind (follows_orFail _) fun _ => follows_send _

theorem follows_followAppend (outcome : AppendOutcome) (confChanges : List Entry) :
    Follows Keeps (followAppend outcome confChanges : RaftM S D Unit) := by
  unfold followAppend
  cases outcome.splicedFrom with
  | none => exact follows_pure ()
  | some fromIndex =>
    exact follows_ite
      (fun _ => follows_bind (follows_revertConfTo _) fun _ => follows_recordConfChanges _)
      fun _ => follows_recordConfChanges _

theorem follows_handleAppendEntries (sender prevLogIndex prevLogTerm : Nat)
    (entries : List Entry) (leaderCommit : Nat) (context : Bytes) :
    Follows Keeps (handleAppendEntries sender prevLogIndex prevLogTerm entries leaderCommit
      context : RaftM S D Unit) := by
  refine follows_bind (follows_modify fun _ => ⟨rfl, rfl, rfl, rfl⟩) fun _ => ?_
  refine follows_read fun _ => follows_ite (fun _ => follows_acknowledgeAppend _ _ _) fun _ => ?_
  refine follows_bind (follows_attempt (follows_onLog _)) fun result => ?_
  cases result with
  | error error => exact follows_rejectAppend _ _ _
  | ok outcome =>
    cases outcome with
    | none => exact follows_rejectAppend _ _ _
    | some outcome =>
      exact follows_bind (follows_followAppend _ _) fun _ =>
        follows_bind (follows_modify fun _ => ⟨rfl, rfl, rfl, rfl⟩) fun _ =>
        follows_acknowledgeAppend _ _ _

theorem follows_handleInstallSnapshot (sender : Nat) (snapshot : Snapshot D) :
    Follows Keeps (handleInstallSnapshot sender snapshot : RaftM S D Unit) :=
  have restored : Follows Keeps (restore snapshot : RaftM S D Unit) :=
    follows_bind (follows_modify fun _ => ⟨rfl, rfl, rfl, rfl⟩) fun _ => follows_rebuildProgress
  follows_bind (follows_modify fun _ => ⟨rfl, rfl, rfl, rfl⟩) fun _ =>
    follows_read fun _ => follows_ite
      (fun _ => follows_bind restored fun _ => follows_bind follows_lastIndex fun _ =>
        follows_acknowledgeAppend _ _ _)
      fun _ => follows_acknowledgeAppend _ _ _

/-! ## Elections -/

theorem follows_requestVotes (kind : CampaignKind) (voteTerm : Nat) :
    Follows Keeps (requestVotes kind voteTerm : RaftM S D Unit) :=
  follows_read fun _ => follows_bind (follows_orThrow _) fun _ =>
    follows_each _ fun _ _ => follows_ite (fun _ => follows_pure ()) fun _ =>
    follows_bind (follows_count _) fun _ => follows_send _

/-! ## Role changes -/

omit [LogStorage S D] in
theorem reset_eq (term : Nat) (raft : Raft S D) : raft.reset term =
      { raft with
        term
        vote := if raft.term = term then raft.vote else none
        leader := none
        electionElapsed := 0
        heartbeatElapsed := 0
        randomizedElectionTimeout :=
          (raft.rng.rangeInclusive raft.electionTick.1 raft.electionTick.2).1
        rng := (raft.rng.rangeInclusive raft.electionTick.1 raft.electionTick.2).2
        votes := []
        readOnly := ⟨[], []⟩
        leadTransferee := none } := by
  by_cases same : raft.term = term
  · subst same
    simp [reset, resetElectionTimeout, ReadOnly.reset]
  · simp [reset, resetElectionTimeout, ReadOnly.reset, same]

section BecomeFollower

variable (term : Nat) (leader : Option Nat) (raft : Raft S D)

omit [LogStorage S D]

@[simp] theorem becomeFollower_term : (raft.becomeFollower term leader).term = term := by
  rw [becomeFollower, reset_eq]

@[simp] theorem becomeFollower_vote :
    (raft.becomeFollower term leader).vote = if raft.term = term then raft.vote else none := by
  rw [becomeFollower, reset_eq]

end BecomeFollower

end Raft

end Esker.Consensus
