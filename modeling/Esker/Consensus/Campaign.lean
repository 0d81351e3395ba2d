import Esker.Consensus.Effects

/-!
Contract: what the election calls of a node can change.

Owns: the effect of counting and of entering a round, over every `LogStorage`.
-/

namespace Esker.Consensus.Raft

open Fallible

variable {S D : Type} {onPanic : Prop} {raft : Raft S D}

variable {post : Except RaftError Unit → Raft S D → Prop}

theorem wp_count {counter : Counter} (full : raft.counters.bump counter = none → onPanic)
    (counted : ∀ counters, raft.counters.bump counter = some counters →
      post (.ok ()) { raft with counters }) : wp onPanic (count counter) post raft := by
  unfold count
  rw [wp_get_bind, wp_bind]
  cases bumped : raft.counters.bump counter with
  | none => exact full bumped
  | some counters => exact counted counters bumped

def entered (kind : CampaignKind) (raft : Raft S D) : Raft S D :=
  if kind = .preElection then raft.preCandidacy else raft.candidacy

def campaignCounter (kind : CampaignKind) : Counter :=
  if kind = .preElection then .campaignsPre else .campaignsReal

theorem wp_enterRound {kind : CampaignKind} (notLeader : raft.role ≠ .leader)
    (full : raft.counters.bump (campaignCounter kind) = none → onPanic)
    (counted : ∀ counters, raft.counters.bump (campaignCounter kind) = some counters →
      post (.ok ()) (entered kind { raft with counters })) :
    wp onPanic (enterRound kind) post raft := by
  unfold enterRound
  by_cases isPre : kind = .preElection
  · simp only [campaignCounter, isPre, if_true] at full counted
    rw [if_pos isPre, wp_bind]
    refine wp_count full fun counters bumped => ?_
    rw [afterCall_ok, becomePreCandidate, wp_get_bind, wp_bind, wp_debugAssert]
    refine ⟨fun _ => ?_, fun isLeader => absurd notLeader isLeader⟩
    simpa [entered] using counted counters bumped
  · simp only [campaignCounter, isPre, if_false] at full counted
    rw [if_neg isPre, wp_bind]
    refine wp_count full fun counters bumped => ?_
    rw [afterCall_ok, becomeCandidate, wp_get_bind, wp_bind, wp_debugAssert]
    refine ⟨fun _ => ?_, fun isLeader => absurd notLeader isLeader⟩
    simpa [entered, isPre] using counted counters bumped

end Esker.Consensus.Raft
