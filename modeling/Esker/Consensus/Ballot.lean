import Esker.Consensus.Campaign
import Esker.Consensus.Opening
import Esker.Consensus.RawNode

/-!
Contract: what calls do to the term and the vote of a node, over every `LogStorage`
and for every message.

Owns: `Ballot`, the order in which a term and a vote may move, and the proof that
every call moves along it unless it campaigns in the last term the index space has.
-/

namespace Esker.Consensus

variable {S D : Type}

/-- Whether handling the message can make the node stand for election. -/
def Message.mayStand : Message D → Bool
  | .requestVoteResponse .. => true
  | .timeoutNow .. => true
  | _ => false

/-- A node's term never goes back, and within a term its vote is set at most once. -/
structure Ballot (before after : Raft S D) : Prop where
  id : after.id = before.id
  term : before.term ≤ after.term
  vote : after.term = before.term → before.vote = none ∨ after.vote = before.vote

variable {first second third : Raft S D} {node : RawNode S D}

namespace Ballot

theorem refl (raft : Raft S D) : Ballot raft raft :=
  ⟨rfl, Nat.le_refl _, fun _ => .inr rfl⟩

theorem trans (left : Ballot first second) (right : Ballot second third) : Ballot first third := by
  have leftTerm := left.term
  have rightTerm := right.term
  refine ⟨right.id.trans left.id, Nat.le_trans leftTerm rightTerm, fun same => ?_⟩
  rcases left.vote (by omega) with none | kept
  · exact .inl none
  rcases right.vote (by omega) with none | keptAgain
  · exact .inl (kept ▸ none)
  · exact .inr (keptAgain.trans kept)

end Ballot

namespace Raft

open Fallible

def VotesForSelf (raft : Raft S D) : Prop := raft.role = .candidate → raft.vote = some raft.id

/-- From a state in which a candidate has voted for itself, the ballot moves in order and
a candidate has still voted for itself. -/
def Upholds (before after : Raft S D) : Prop :=
  before.VotesForSelf → Ballot before after ∧ after.VotesForSelf

variable {before after raft : Raft S D} {term : Nat} {α : Type}

namespace Upholds

theorem refl (raft : Raft S D) : Upholds raft raft := fun own => ⟨Ballot.refl raft, own⟩

theorem trans (left : Upholds first second) (right : Upholds second third) :
    Upholds first third := by
  intro own
  obtain ⟨firstMove, middle⟩ := left own
  obtain ⟨secondMove, last⟩ := right middle
  exact ⟨firstMove.trans secondMove, last⟩

instance : Std.Refl (α := Raft S D) Upholds := ⟨refl⟩

instance : IsTrans (Raft S D) Upholds := ⟨fun _ _ _ => trans⟩

theorem of_same (id : after.id = before.id) (term : after.term = before.term)
    (vote : after.vote = before.vote) (role : after.role = before.role) : Upholds before after := by
  intro own
  refine ⟨⟨id, Nat.le_of_eq term.symm, fun _ => .inr vote⟩, ?_⟩
  unfold VotesForSelf
  rw [id, vote, role]
  exact own

end Upholds

theorem Keeps.upholds (kept : Keeps before after) : Upholds before after :=
  .of_same kept.id kept.term kept.vote kept.role

theorem follows_upholds {call : RaftM S D α} (quiet : Follows Keeps call) : Follows Upholds call :=
  fun state => wp_mono (quiet state) fun _ _ kept => kept.upholds

theorem Upholds.followed {call : RaftM S D α} (moved : Upholds raft after)
    (rest : wp True call (fun _ => Upholds after) after) :
    wp True call (fun _ => Upholds raft) after :=
  wp_mono rest fun _ _ later => moved.trans later

/-- The node may campaign without overwriting a vote: its term can still grow, or it has
given its vote to nobody else. -/
def FreeToStand (raft : Raft S D) : Prop :=
  raft.term < u64Max ∨ (raft.term = u64Max ∧ (raft.vote = none ∨ raft.vote = some raft.id))

theorem upholds_becomeFollower (leader : Option Nat) (later : raft.term ≤ term) :
    Upholds raft (raft.becomeFollower term leader) := by
  intro _
  rw [becomeFollower, reset_eq]
  refine ⟨⟨rfl, later, fun same => .inr ?_⟩, ?_⟩
  · simp only at same ⊢
    rw [if_pos same.symm]
  · intro candidate
    cases candidate

theorem upholds_stepDownIfRemoved (raft : Raft S D) : Upholds raft raft.stepDownIfRemoved := by
  unfold stepDownIfRemoved
  split
  · exact upholds_becomeFollower none (Nat.le_refl _)
  · exact .refl raft

variable [LogStorage S D]

/-! ## Replication -/

theorem follows_maybeCommit : Follows Upholds (maybeCommit : RaftM S D Bool) :=
  follows_read fun _ => follows_ite (fun _ => follows_pure _) fun _ =>
    follows_bind (follows_orPanic _) fun _ => follows_ite (fun _ => follows_pure _) fun _ =>
    follows_ite (fun _ => follows_pure _) fun _ =>
    follows_bind (follows_upholds (follows_onLog _)) fun _ =>
    follows_bind (follows_modify fun _ => .of_same rfl rfl rfl rfl) fun _ =>
    follows_bind (follows_modify upholds_stepDownIfRemoved) fun _ =>
    follows_bind (follows_upholds follows_flushPostponedReads) fun _ => follows_pure _

theorem follows_proposeEntry (kind : EntryKind) (data : Bytes) :
    Follows Upholds (proposeEntry kind data : RaftM S D Nat) :=
  follows_read fun _ => follows_bind (follows_debugAssert _) fun _ =>
    follows_bind (follows_orThrow _) fun _ => follows_bind (follows_upholds (follows_onLog _)) fun _ =>
    follows_bind (follows_upholds (follows_recordConfChanges _)) fun _ =>
    follows_bind (follows_modify fun _ => .of_same rfl rfl rfl rfl) fun _ =>
    follows_bind follows_maybeCommit fun _ =>
    follows_bind (follows_upholds follows_bcastAppend) fun _ =>
    follows_pure _

theorem follows_proposeConfChange (change : ConfChange) :
    Follows Upholds (proposeConfChange change : RaftM S D Nat) := by
  refine follows_read fun raft => ?_
  refine follows_ite (fun _ => follows_throw _) fun _ => ?_
  cases raft.conf.pending with
  | some position => exact follows_throw _
  | none =>
    refine follows_ite (fun _ => follows_throw _) fun _ => ?_
    cases raft.leadTransferee with
    | some target => exact follows_throw _
    | none =>
      exact follows_ite (fun _ => follows_throw _) fun _ => follows_proposeEntry _ _

theorem follows_handleAppendResponse (sender : Nat) (reject : Bool) (index hintTerm : Nat)
    (context : Bytes) :
    Follows Upholds (handleAppendResponse sender reject index hintTerm context :
      RaftM S D Unit) := by
  have rejected (probed : Nat) : Follows Keeps (handleRejection sender probed hintTerm :
      RaftM S D Unit) :=
    follows_read fun _ => follows_bind (follows_withProgress _ _ _) fun _ =>
      follows_ite (fun _ => follows_sendAppend _) fun _ => follows_pure _
  have transfer : Follows Keeps (maybeFinishTransfer sender : RaftM S D Unit) :=
    follows_read fun _ =>
      follows_ite (fun _ => follows_nudgeTransferee _) fun _ => follows_pure _
  have commit (advanced : Bool) : Follows Upholds (commitIfAdvanced advanced : RaftM S D Bool) :=
    follows_ite (fun _ => follows_maybeCommit) fun _ => follows_pure _
  have further (last : Nat) (committed : Bool) :
      Follows Keeps (replicateFurther sender last committed : RaftM S D Unit) :=
    follows_read fun _ => follows_ite (fun _ => follows_bcastAppend) fun _ =>
      follows_ite (fun _ => follows_sendAppend _) fun _ => follows_pure _
  exact follows_read fun _ => follows_ite (fun _ => follows_pure _) fun _ =>
    follows_bind (follows_orThrow _) fun _ =>
    follows_bind (follows_modify fun _ => .of_same rfl rfl rfl rfl) fun _ =>
    follows_ite (fun _ => follows_upholds (rejected _)) fun _ =>
    follows_bind (follows_upholds (follows_withProgress _ _ _)) fun _ =>
    follows_bind (follows_upholds transfer) fun _ =>
    follows_bind (follows_upholds follows_lastIndex) fun _ => follows_bind (commit _) fun _ =>
    follows_bind (follows_upholds (further _ _)) fun _ =>
    follows_modify fun raft => (keeps_recordReadAck sender context raft).upholds

/-! ## Elections -/

theorem wp_becomeLeader_upholds (candidate : raft.role = .candidate) :
    wp True becomeLeader (fun _ => Upholds raft) raft := by
  have office : Upholds raft raft.assumeOffice := by
    intro own
    rw [assumeOffice, reset_eq]
    exact ⟨⟨rfl, Nat.le_refl _, fun _ => .inr (own candidate).symm⟩, nofun⟩
  have probing (last : Nat) : Follows Upholds (probeMembers last : RaftM S D Unit) :=
    follows_read fun _ => follows_each _ fun _ _ =>
      follows_bind (follows_orPanic _) fun _ => follows_modify fun _ => .of_same rfl rfl rfl rfl
  have rest : Follows Upholds (do
      let last ← lastIndex
      probeMembers last
      let _ ← onLog (RaftLog.append [Entry.empty raft.term (saturatingAdd last 1)])
      modify (ownEntry (saturatingAdd last 1))
      let _ ← maybeCommit
      bcastAppend : RaftM S D Unit) :=
    follows_bind (follows_upholds follows_lastIndex) fun _ => follows_bind (probing _) fun _ =>
      follows_bind (follows_upholds (follows_onLog _)) fun _ =>
      follows_bind (follows_modify fun _ => .of_same rfl rfl rfl rfl) fun _ =>
      follows_bind follows_maybeCommit fun _ => follows_upholds follows_bcastAppend
  unfold becomeLeader
  rw [wp_get_bind, wp_bind, wp_debugAssert]
  refine ⟨fun _ => ?_, fun _ => trivial⟩
  rw [afterCall_ok, wp_bind, wp_modify, afterCall_ok]
  exact office.followed (rest raft.assumeOffice)

omit [LogStorage S D] in
theorem upholds_candidacy (free : raft.FreeToStand) : Upholds raft raft.candidacy := by
  intro _
  rw [candidacy, reset_eq]
  refine ⟨⟨rfl, ?_, fun same => ?_⟩, fun _ => rfl⟩
  · simp only [saturatingAdd]
    rcases free with below | ⟨last, -⟩ <;> omega
  simp only [saturatingAdd] at same
  rcases free with below | ⟨-, none | own⟩
  · omega
  · exact .inl none
  · exact .inr own.symm

theorem wp_campaignRound_upholds {kind : CampaignKind} {won : RaftM S D Unit}
    (free : raft.FreeToStand) (decided : ∀ current, Upholds raft current →
      (kind ≠ .preElection → current.role = .candidate) →
      (kind = .preElection → current.FreeToStand) →
      wp True won (fun _ => Upholds raft) current) :
    wp True (campaignRound kind won) (fun _ => Upholds raft) raft := by
  unfold campaignRound
  rw [wp_get_bind]
  simp only [wp_ite, wp_pure]
  refine ⟨fun _ => .refl raft, fun notLeader => ⟨fun _ => .refl raft, fun _ => ?_⟩⟩
  rw [wp_bind]
  refine wp_enterRound notLeader (fun _ => trivial) fun counters _ => ?_
  have counted : Upholds raft { raft with counters } := .of_same rfl rfl rfl rfl
  have started : Upholds raft (entered kind { raft with counters }) ∧
      (kind ≠ .preElection → (entered kind { raft with counters }).role = .candidate) ∧
      (kind = .preElection → (entered kind { raft with counters }).FreeToStand) := by
    unfold entered
    by_cases isPre : kind = .preElection
    · rw [if_pos isPre]
      refine ⟨counted.trans fun _ => ⟨⟨rfl, Nat.le_refl _, fun _ => .inr rfl⟩, ?_⟩,
        fun other => absurd isPre other, fun _ => free⟩
      intro candidate
      cases candidate
    · rw [if_neg isPre]
      refine ⟨counted.trans (upholds_candidacy free), fun _ => ?_, fun other => absurd other isPre⟩
      rw [candidacy]
  generalize entered kind { raft with counters } = start at started
  obtain ⟨moved, candidate, stillFree⟩ := started
  rw [afterCall_ok, wp_bind, poll, wp_bind, wp_modify, afterCall_ok, wp_get_bind,
    wp_pure, afterCall_ok]
  have polled : Upholds raft { start with votes := recordVote raft.id true start.votes } :=
    moved.trans (.of_same rfl rfl rfl rfl)
  have ask : wp True (requestVotes kind (saturatingAdd raft.term 1)) (fun _ => Upholds raft)
      { start with votes := recordVote raft.id true start.votes } :=
    wp_mono (follows_requestVotes kind _ _) fun _ _ asked => polled.trans asked.upholds
  split
  · exact decided _ polled candidate stillFree
  · exact ask

theorem wp_campaign_upholds (kind : CampaignKind) (free : raft.FreeToStand) :
    wp True (campaign kind) (fun _ => Upholds raft) raft := by
  -- A real round that is won at once makes a leader of a candidate.
  have real (kind : CampaignKind) (isReal : kind ≠ .preElection) (start : Raft S D)
      (free : start.FreeToStand) :
      wp True (campaignRound kind becomeLeader) (fun _ => Upholds start) start :=
    wp_campaignRound_upholds free fun current moved candidate _ =>
      moved.followed (wp_becomeLeader_upholds (candidate isReal))
  cases kind with
  | election => exact real .election (by decide) raft free
  | transfer => exact real .transfer (by decide) raft free
  | preElection =>
    exact wp_campaignRound_upholds free fun current moved _ stillFree =>
      moved.followed (real .election (by decide) current (stillFree rfl))

/-- A vote that is granted for real replaces nothing: the node had given none, or this
one. -/
theorem upholds_castVote (raft : Raft S D) (sender term lastLogIndex lastLogTerm : Nat)
    (preVote : Bool) :
    Upholds raft (raft.castVote sender
      (raft.grantsVote sender term lastLogIndex lastLogTerm preVote) preVote) := by
  unfold castVote
  split
  · rename_i real
    simp only [grantsVote, Bool.and_eq_true, Bool.not_eq_true', decide_eq_true_eq] at real
    obtain ⟨⟨⟨canVote, -⟩, -⟩, notPre⟩ := real
    have free : raft.vote = some sender ∨ raft.vote = none := by
      rcases canVote with same | ⟨none, -⟩ | ⟨pre, -⟩
      · exact .inl same
      · exact .inr none
      · simp [notPre] at pre
    intro own
    refine ⟨⟨rfl, Nat.le_refl _, fun _ => ?_⟩, fun candidate => ?_⟩
    · exact free.symm.imp_right Eq.symm
    have selfVote := own candidate
    rcases free with same | none
    · exact same.symm.trans selfVote
    · simp [none] at selfVote
  · exact .refl raft

theorem follows_handleVoteRequest (sender term lastLogIndex lastLogTerm : Nat) (preVote : Bool) :
    Follows Upholds (handleVoteRequest sender term lastLogIndex lastLogTerm preVote :
      RaftM S D Unit) :=
  fun raft => by
  have told (granted : Bool) : Follows Keeps (do
      countAnswer granted
      modify fun raft => raft.send (.requestVoteResponse raft.id sender
        (if preVote then term else raft.term) granted preVote) : RaftM S D Unit) :=
    follows_bind (follows_bind (follows_count _) fun _ =>
      follows_ite (fun _ => follows_count _) fun _ => follows_pure ()) fun _ =>
      follows_modify fun _ => ⟨rfl, rfl, rfl, rfl⟩
  rw [handleVoteRequest, wp_get_bind, wp_bind, wp_modify, afterCall_ok]
  exact wp_mono (told _ _) fun _ _ kept =>
    (upholds_castVote raft sender term lastLogIndex lastLogTerm preVote).trans kept.upholds

theorem wp_handleVoteResponse_upholds (sender : Nat) (granted preVote : Bool)
    (free : raft.FreeToStand) : wp True (handleVoteResponse sender granted preVote)
      (fun _ => Upholds raft) raft := by
  unfold handleVoteResponse
  rw [wp_get_bind, wp_ite]
  refine ⟨fun expected => ?_, fun _ => follows_upholds (follows_count _) raft⟩
  rw [wp_bind, poll, wp_bind, wp_modify, afterCall_ok, wp_get_bind, wp_pure, afterCall_ok]
  have polled : Upholds raft { raft with votes := recordVote sender granted raft.votes } :=
    .of_same rfl rfl rfl rfl
  split
  · exact polled
  · rw [wp_ite]
    refine ⟨fun _ => ?_, fun notPre => ?_⟩
    · exact polled.followed (wp_campaign_upholds .election free)
    have candidate : raft.role = .candidate := by
      cases role : raft.role <;> simp_all
    exact polled.followed (wp_becomeLeader_upholds candidate)
  · exact polled.trans (upholds_becomeFollower none (Nat.le_refl _))

theorem wp_handleTimeoutNow_upholds (free : raft.FreeToStand) :
    wp True handleTimeoutNow (fun _ => Upholds raft) raft := by
  unfold handleTimeoutNow
  rw [wp_get_bind]
  simp only [wp_ite, wp_pure]
  exact ⟨fun _ => .refl raft, fun _ =>
    ⟨fun _ => .refl raft, fun _ => wp_campaign_upholds .transfer free⟩⟩

/-! ## Ticks and messages -/

theorem wp_tick_upholds (free : raft.FreeToStand) : wp True tick (fun _ => Upholds raft) raft := by
  have heartbeat : Follows Upholds (heartbeatIfDue : RaftM S D Unit) :=
    follows_read fun _ => follows_ite
      (fun _ => follows_bind (follows_modify fun _ => .of_same rfl rfl rfl rfl) fun _ =>
        follows_bind (follows_attempt (follows_upholds (follows_bcastHeartbeat _))) fun _ =>
        follows_pure _)
      fun _ => follows_pure _
  have stepDown : Follows Upholds (stepDownWithoutQuorum : RaftM S D Unit) := by
    intro state
    unfold stepDownWithoutQuorum
    rw [wp_get_bind, wp_bind, wp_modify, afterCall_ok, wp_ite]
    have cleared : Upholds state state.checkQuorumActive.2 := .of_same rfl rfl rfl rfl
    have leaves : Follows Upholds (do
        count .checkQuorumStepDowns
        modify fun raft => raft.becomeFollower raft.term none : RaftM S D Unit) :=
      follows_bind (follows_upholds (follows_count _)) fun _ =>
        follows_modify fun _ => upholds_becomeFollower none (Nat.le_refl _)
    exact ⟨fun _ => cleared, fun _ => cleared.followed (leaves _)⟩
  have quorum : Follows Upholds (checkQuorumIfDue : RaftM S D Unit) :=
    follows_read fun _ => follows_ite
      (fun _ => follows_bind (follows_modify fun _ => .of_same rfl rfl rfl rfl) fun _ =>
        follows_ite (fun _ => stepDown) fun _ => follows_pure _)
      fun _ => follows_pure _
  have leads : Follows Upholds (tickHeartbeat : RaftM S D Unit) :=
    follows_read fun _ => follows_bind (follows_orPanic _) fun _ =>
      follows_bind (follows_orPanic _) fun _ =>
      follows_bind (follows_modify fun _ => .of_same rfl rfl rfl rfl) fun _ =>
      follows_bind (follows_modify fun _ => .of_same rfl rfl rfl rfl) fun _ =>
      follows_bind heartbeat fun _ => quorum
  unfold tick
  rw [wp_get_bind, wp_ite]
  refine ⟨fun _ => leads raft, fun _ => ?_⟩
  unfold tickElection
  rw [wp_get_bind, wp_bind]
  cases checkedAdd raft.electionElapsed 1 with
  | none => trivial
  | some elapsed =>
    rw [wp_orPanic_some, afterCall_ok, wp_ite]
    refine ⟨fun _ => ?_, fun _ => .of_same rfl rfl rfl rfl⟩
    have rewound : Upholds raft { raft with electionElapsed := 0 } := .of_same rfl rfl rfl rfl
    rw [wp_bind, wp_modify, afterCall_ok, wp_bind, wp_attempt]
    exact rewound.followed (wp_campaign_upholds _ free)

omit [LogStorage S D] in
theorem upholds_stepHigherTerm {message : Message D} (higher : raft.term < message.term) :
    Upholds raft (raft.stepHigherTerm message) := by
  have adopts (leader : Option Nat) : Upholds raft (raft.becomeFollower message.term leader) :=
    upholds_becomeFollower leader (Nat.le_of_lt higher)
  unfold stepHigherTerm
  split
  · exact .refl raft
  · exact .refl raft
  · exact adopts _
  · exact adopts _
  · exact adopts _

omit [LogStorage S D] in
theorem upholds_concede (sender : Nat) (later : raft.term ≤ term) :
    Upholds raft (raft.concede sender term) := by
  unfold concede
  split
  · exact upholds_becomeFollower _ later
  · exact .refl raft

theorem wp_stepCurrentTerm_upholds (message : Message D) (later : raft.term ≤ message.term)
    (free : message.mayStand = true → raft.FreeToStand) :
    wp True (stepCurrentTerm message) (fun _ => Upholds raft) raft := by
  cases message with
  | requestVote sender recipient term lastLogIndex lastLogTerm preVote force =>
    exact follows_handleVoteRequest _ _ _ _ _ raft
  | requestVoteResponse sender recipient term granted preVote =>
    exact wp_handleVoteResponse_upholds sender granted preVote (free rfl)
  | appendEntries sender recipient term prevLogIndex prevLogTerm entries leaderCommit context =>
    rw [stepCurrentTerm, wp_bind, wp_modify, afterCall_ok]
    exact wp_mono (follows_handleAppendEntries _ _ _ _ _ _ _) fun _ _ moved =>
      (upholds_concede sender later).trans moved.upholds
  | appendEntriesResponse sender recipient term reject index hintTerm context =>
    exact follows_handleAppendResponse _ _ _ _ _ raft
  | installSnapshot sender recipient term snapshot =>
    rw [stepCurrentTerm, wp_bind, wp_modify, afterCall_ok]
    exact wp_mono (follows_handleInstallSnapshot _ _ _) fun _ _ moved =>
      (upholds_concede sender later).trans moved.upholds
  | timeoutNow sender recipient term => exact wp_handleTimeoutNow_upholds (free rfl)
  | readIndex sender recipient term ctx => exact follows_upholds (follows_readIndex ctx (some sender)) raft
  | readIndexResponse sender recipient term index ctx => exact .of_same rfl rfl rfl rfl

theorem follows_stepLowerTerm (message : Message D) :
    Follows Upholds (stepLowerTerm message : RaftM S D Unit) := by
  have told (sender : Nat) : Follows Keeps (do
      let raft ← get
      let index ← orThrow raft.log.lastIndex
      modify (send (.appendEntriesResponse raft.id sender raft.term true index
        raft.log.lastTerm [])) : RaftM S D Unit) :=
    follows_read fun _ => follows_bind (follows_orThrow _) fun _ => follows_send _
  unfold stepLowerTerm
  split
  · exact follows_upholds (told _)
  · exact follows_upholds (told _)
  · exact follows_modify fun _ => .of_same rfl rfl rfl rfl
  · exact follows_pure ()

/-- A message of the node's own term may make it stand; one of a later term makes it
forget its vote first, unless it is a pre-vote. -/
theorem wp_step_upholds (message : Message D) (fits : message.term ≤ u64Max)
    (free : message.mayStand = true → raft.FreeToStand) :
    wp True (step message) (fun _ => Upholds raft) raft := by
  unfold step
  rw [wp_get_bind]
  simp only [wp_ite]
  refine ⟨fun higher => ⟨fun _ => .refl raft, fun _ => ?_⟩,
    fun notHigher => ⟨fun _ => follows_stepLowerTerm message raft, fun notLower =>
      wp_stepCurrentTerm_upholds message (by omega) free⟩⟩
  have adopted := upholds_stepHigherTerm higher
  rw [wp_bind, wp_modify, afterCall_ok]
  refine wp_mono (wp_stepCurrentTerm_upholds message ?_ fun stands => ?_)
    fun _ _ moved => adopted.trans moved
  · unfold stepHigherTerm
    split
    · exact Nat.le_of_lt higher
    · exact Nat.le_of_lt higher
    · exact (becomeFollower_term _ _ _).le
    · exact (becomeFollower_term _ _ _).le
    · exact (becomeFollower_term _ _ _).le
  · have forgets (leader : Option Nat) : (raft.becomeFollower message.term leader).FreeToStand := by
      unfold FreeToStand
      rw [becomeFollower_term, becomeFollower_vote, if_neg (by omega)]
      rcases Nat.lt_or_ge message.term u64Max with below | last
      · exact .inl below
      · exact .inr ⟨by omega, .inl rfl⟩
    unfold stepHigherTerm
    split
    · exact free stands
    · exact free stands
    · exact forgets _
    · exact forgets _
    · exact forgets _

end Raft

/-! ## Sequences of calls -/

/-- Whether the call can make the node stand for election in the term it is in. -/
def Call.mayStand : Call D → Bool
  | .tick => true
  | .campaign => true
  | .step message => message.mayStand
  | _ => false

/-- A call that would overwrite no vote: unless the node is free to stand, it is neither a
tick nor a campaign nor a message that makes it stand. Terms in messages are `u64`s. -/
def Admits (node : RawNode S D) (call : Call D) : Prop :=
  (call.mayStand = true → node.raft.FreeToStand) ∧
    ∀ message, call = .step message → message.term ≤ u64Max

open Fallible Raft

variable [LogStorage S D]

theorem wp_perform_upholds (call : Call D) (admits : Admits node call) :
    wp True call.perform (fun _ after => Upholds node.raft after.raft) node := by
  obtain ⟨free, fits⟩ := admits
  cases call with
  | tick => exact (wp_zoom _ _ _).mpr (wp_tick_upholds (free rfl))
  | step message => exact (wp_zoom _ _ _).mpr (wp_step_upholds message (fits message rfl) free)
  | propose data =>
    rw [Call.perform, RawNode.propose, wp_get_bind, wp_ite]
    refine ⟨fun _ => .refl _, fun _ => ?_⟩
    cases node.raft.leadTransferee with
    | some target => exact .refl _
    | none =>
      rw [wp_bind, RawNode.onRaft, wp_zoom]
      refine wp_mono (follows_proposeEntry .normal data node.raft) fun result _ moved => ?_
      cases result <;> exact moved
  | proposeConfChange change =>
    rw [Call.perform, RawNode.proposeConfChange, wp_get_bind, wp_ite]
    refine ⟨fun _ => .refl _, fun _ => ?_⟩
    rw [wp_bind, RawNode.onRaft, wp_zoom]
    refine wp_mono (follows_proposeConfChange change node.raft) fun result _ moved => ?_
    cases result <;> exact moved
  | readIndex ctx =>
    rw [Call.perform, RawNode.readIndex, wp_bind, wp_attempt, RawNode.onRaft, wp_zoom]
    exact follows_upholds (follows_readIndex ctx none) node.raft
  | campaign =>
    rw [Call.perform, RawNode.campaign, wp_get_bind, RawNode.onRaft, wp_zoom]
    exact wp_campaign_upholds _ (free rfl)
  | transferLeader target =>
    rw [Call.perform, RawNode.transferLeader, wp_bind, wp_attempt, RawNode.onRaft, wp_zoom]
    exact follows_upholds (follows_transferLeader target) node.raft
  | reportSnapshot peer status =>
    rw [Call.perform, RawNode.reportSnapshot, RawNode.onRaft, wp_zoom, wp_modify]
    unfold reportSnapshot
    split
    · exact .refl _
    · exact .of_same rfl rfl rfl rfl

theorem reaches_upholds {first last : RawNode S D} (run : Reaches Admits first last) :
    Upholds first.raft last.raft := by
  induction run with
  | refl => exact .refl _
  | call earlier admitted returned ih =>
    exact ih.trans (wp_returned (wp_perform_upholds _ admitted) returned)

theorem votesForSelf_of_new {config : Config} {store : S}
    (built : RawNode.new config store = some (.ok node)) : node.raft.VotesForSelf := by
  unfold RawNode.new at built
  split at built
  · simp at built
  · simp at built
  rename_i raft opened
  simp only [Option.some.injEq, Except.ok.injEq] at built
  subst built
  obtain ⟨initial, log, first, opens⟩ := opensFrom_of_new opened
  have kept := wp_returned (follows_opening _) opens.replayed
  intro candidate
  cases kept.role.symm.trans candidate

/-- From the moment a node is built, its term never goes back and a vote it has cast in a
term is its vote for as long as the term lasts. -/
theorem hardState_monotone {config : Config} {store : S} {built before after : RawNode S D}
    (opened : RawNode.new config store = some (.ok built))
    (first : Reaches Admits built before) (rest : Reaches Admits before after) :
    before.raft.hardState.term ≤ after.raft.hardState.term ∧
      (after.raft.hardState.term = before.raft.hardState.term →
        ∀ candidate, before.raft.hardState.votedFor = some candidate →
          after.raft.hardState.votedFor = some candidate) := by
  obtain ⟨-, own⟩ := reaches_upholds first (votesForSelf_of_new opened)
  obtain ⟨moved, -⟩ := reaches_upholds rest own
  refine ⟨moved.term, fun same candidate voted => ?_⟩
  rcases moved.vote same with none | kept
  · exact absurd (none.symm.trans voted) (by simp)
  · exact kept.trans voted

/-! ## The last term -/

def threeVoters : Config where
  id := 1
  voters := [1, 2, 3]
  learners := []
  electionTick := (10, 20)
  heartbeatTick := 1
  maxInflightMsgs := 256
  maxSizePerMsg := 1048576
  preVote := true
  checkQuorum := true
  applied := 0
  rng := ⟨fun _ => 0, 0⟩

/-- A vote in term 1 outlives a second candidate's request. -/
theorem hardState_monotone_threeVoters :
    ∃ built before after : RawNode (Storage Unit) Unit,
      RawNode.new threeVoters (Storage.withConfState threeVoters.confState ()) =
        some (.ok built) ∧
      before.raft.hardState = ⟨1, some 2, 0⟩ ∧ after.raft.hardState.term = 1 ∧
      after.raft.hardState.votedFor = some 2 := by
  have admitted : ∀ call ∈ [Call.step (.requestVote 2 1 1 0 0 false false)] ++
      [.step (.requestVote 3 1 1 0 0 false false)],
      ∀ node : RawNode (Storage Unit) Unit, Admits node call := by
    intro call member node
    simp only [List.cons_append, List.nil_append, List.mem_cons, List.not_mem_nil, or_false]
      at member
    rcases member with rfl | rfl <;>
      exact ⟨nofun, fun message same => by cases same; exact Nat.le_of_ble_eq_true rfl⟩
  obtain ⟨built, before, after, opened, first, rest, early, late⟩ :=
    @reaches_hardStatesOf _ _ _ _ threeVoters (Storage.withConfState threeVoters.confState ())
      _ _ ⟨1, some 2, 0⟩ ⟨1, some 2, 0⟩ admitted (by decide +kernel)
  have kept := (hardState_monotone opened first rest).2 (by rw [early, late])
  exact ⟨built, before, after, opened, early, by rw [late], kept 2 (by rw [early])⟩

/-- In the last term a `TimeoutNow` makes the node replace the vote it has cast. -/
theorem vote_replaced_in_lastTerm :
    ∃ built before after : RawNode (Storage Unit) Unit,
      RawNode.new threeVoters (Storage.withConfState threeVoters.confState ()) =
        some (.ok built) ∧
      Reaches (fun _ _ => True) built before ∧ Reaches (fun _ _ => True) before after ∧
      before.raft.hardState = ⟨u64Max, some 2, 0⟩ ∧
      after.raft.hardState = ⟨u64Max, some 1, 0⟩ :=
  @reaches_hardStatesOf _ _ _ _ _ _ [.step (.requestVote 2 1 u64Max 0 0 false false)]
    [.step (.timeoutNow 2 1 u64Max)] _ _ (fun _ _ _ => trivial) (by decide +kernel)

end Esker.Consensus
