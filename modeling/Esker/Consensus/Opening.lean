import Esker.Consensus.Effects
import Esker.Consensus.Election

/-!
Contract: what a node is when it has just been built over a store.

Owns: the one way `new` succeeds.
-/

namespace Esker.Consensus.Raft

open Fallible

variable {S D : Type} [LogStorage S D]

structure OpensFrom (config : Config) (store : S) (initial : InitialState) (log : RaftLog S D)
    (first : Nat) (raft : Raft S D) : Prop where
  valid : config.validate = .ok ()
  initialState : LogStorage.initialState store = .ok initial
  opened : RaftLog.new store config.applied = some (.ok log)
  firstIndex : log.firstIndex = some (.ok first)
  replayed : opening (fresh config initial log (ConfTracker.new
    (anchorConf config store initial first).1 (anchorConf config store initial first).2)) =
      some (.ok (), raft)

theorem opensFrom_of_new {config : Config} {store : S} {raft : Raft S D}
    (built : new config store = some (.ok raft)) :
    ∃ initial log first, OpensFrom config store initial log first raft := by
  unfold new at built
  split at built
  · simp at built
  · simp at built
  rename_i initial valid initialState
  split at built
  · simp at built
  · simp at built
  rename_i log opened
  split at built
  · simp at built
  · simp at built
  rename_i first firstIndex
  simp only at built
  split at built
  · simp at built
  · simp at built
  rename_i final replayed
  simp only [Option.some.injEq, Except.ok.injEq] at built
  subst built
  exact ⟨initial, log, first, valid, initialState, opened, firstIndex, replayed⟩

end Esker.Consensus.Raft
