import Esker.Store.Membership

/-!
Contract: the memberships of one peer over a whole run: entries applied, the log
compacted, the peer restarted (`esker-store/src/peer.rs`).

Owns: what a crash can fall back to, the steps of the peer that move a membership, and
the index at which each persisted membership is right.

Does not own: the policy that chooses a compaction's target; every target is a step here.
-/

namespace Esker.Store

open Esker.Consensus List

variable {K : Type} [LinearOrder K] [OrderBot K]

/-! ## The log's own account -/

variable (conf : ConfState)

def confStep : Payload K → ConfState
  | .confChange change => change.applyTo conf
  | _ => conf

variable (log : Nat → Payload K) (base : ConfState)

/-- The membership at `index`: the changes above `start` and through `index`, folded over
the membership at `start`. -/
def confAt (start index : Nat) : ConfState :=
  (List.range' (start + 1) (index - start)).foldl (fun conf at_ => confStep conf (log at_)) base

omit [LinearOrder K] [OrderBot K] in
theorem confAt_start (start : Nat) : confAt log base start start = base := by
  rw [confAt, Nat.sub_self]
  rfl

omit [LinearOrder K] [OrderBot K] in
theorem confAt_succ {start index : Nat} (after : start ≤ index) :
    confAt log base start (index + 1) =
      confStep (confAt log base start index) (log (index + 1)) := by
  have count : index + 1 - start = index - start + 1 := by omega
  have last : start + 1 + (index - start) = index + 1 := by omega
  rw [confAt, count, range'_1_concat, foldl_append, last]
  rfl

omit [LinearOrder K] [OrderBot K] in
theorem confAt_quiet {start target index : Nat} (after : start ≤ target) (within : target ≤ index)
    (quiet : ∀ at_, target < at_ → at_ ≤ index → ∀ change, log at_ ≠ .confChange change) :
    confAt log base start index = confAt log base start target := by
  induction index, within using Nat.le_induction with
  | base => rfl
  | succ index reached ih =>
    rw [confAt_succ log base (after.trans reached), ih
      fun at_ above below => quiet at_ above (Nat.le_succ_of_le below)]
    have ordinary := quiet (index + 1) (Nat.lt_succ_of_le reached) le_rfl
    rw [confStep.eq_def]
    split
    · rename_i change isChange
      exact absurd isChange (ordinary change)
    · rfl

/-- Every change in the log above `start` was proposed: it is well formed, and the core
refused one that would leave no voter. -/
def Proposed (start : Nat) : Prop :=
  ∀ index, start < index → ∀ change, log index = .confChange change →
    WellFormedChange change ∧ (confAt log base start index).voters ≠ []

/-! ## The peer -/

def nextRegion (region : Region K) : Payload K → Region K
  | .command (.split splitKey newRegionId newPeerIds) =>
    match stageSplit region splitKey newRegionId newPeerIds with
    | .ok (some (parent, _)) => parent
    | _ => region
  | .confChange change =>
    match stageConfChange region change with
    | .ok (some moved) => moved
    | _ => region
  | _ => region

/-- `applied_conf` as `stage_conf_change` moves it. -/
def movedConf (change : ConfChange) : ConfState :=
  match change.kind with
  | .addVoter =>
    ConfState.normalize
      { voters := if conf.voters.contains change.node then conf.voters
          else conf.voters ++ [change.node]
        learners := conf.learners.filter (· ≠ change.node) }
  | .addLearner =>
    ConfState.normalize
      { voters := conf.voters.filter (· ≠ change.node)
        learners := if conf.learners.contains change.node then conf.learners
          else conf.learners ++ [change.node] }
  | .remove =>
    ConfState.normalize
      { voters := conf.voters.filter (· ≠ change.node)
        learners := conf.learners.filter (· ≠ change.node) }

theorem movedConf_eq (change : ConfChange) : movedConf conf change = change.applyTo conf := by
  have pushed : ∀ ids : List Nat, ∀ id, id ∈ (if ids.contains change.node then ids
      else ids ++ [change.node]) ↔ id ∈ ids ∨ id = change.node := by
    intro ids id
    split_ifs with present
    · rw [contains_iff_mem] at present
      constructor
      · exact Or.inl
      rintro (mem | rfl)
      · exact mem
      · exact present
    · rw [mem_append, mem_singleton]
  rw [movedConf, ConfChange.applyTo]
  cases change.kind with
  | addVoter =>
    refine normalize_congr ?_ fun _ _ => Iff.rfl
    intro id
    rw [pushed, mem_append, mem_filter, mem_singleton, decide_eq_true_eq]
    tauto
  | addLearner =>
    refine normalize_congr (fun _ => Iff.rfl) ?_
    intro id _
    rw [pushed, mem_append, mem_filter, mem_singleton, decide_eq_true_eq]
    tauto
  | remove => rfl

/-- `applied_conf` after an entry applies: it moves where the region's peers did. -/
def nextConf (region : Region K) : Payload K → ConfState
  | .confChange change =>
    match stageConfChange region change with
    | .ok (some _) => movedConf conf change
    | _ => conf
  | _ => conf

/-- What a restart reads: the region record and the Raft state record. -/
structure MemberDisk (K : Type) where
  region : Region K
  state : PersistedState

/-- One peer: its records, the older ones a crash can bring back, and the membership in
memory. -/
structure MemberPeer (K : Type) where
  disk : MemberDisk K
  /-- The records before each batch written since the last sync, newest first. -/
  unsynced : List (MemberDisk K)
  appliedConf : ConfState

namespace MemberPeer

variable (peer : MemberPeer K)

/-- Applies the next entry of the log, in an unsynced batch. -/
def apply (payload : Payload K) : MemberPeer K where
  disk :=
    { region := nextRegion peer.disk.region payload
      state := { peer.disk.state with
        appliedIndex := max peer.disk.state.appliedIndex (peer.disk.state.appliedIndex + 1) } }
  unsynced := peer.disk :: peer.unsynced
  appliedConf := nextConf peer.appliedConf peer.disk.region payload

/-- Persists a `Ready`, in a synced batch: the hard state may move, the membership does
not. -/
def persist (hardState : HardState) : MemberPeer K :=
  { peer with
    disk := { peer.disk with state := { peer.disk.state with hardState } }, unsynced := [] }

/-- `PeerCore::compact` at a target its policy chose, in a synced batch. -/
def compact (entries : SortedMap Nat Entry) (lastIndex target term : Nat) : MemberPeer K :=
  match RaftLogStorage.stageCompact ⟨entries, peer.disk.state, lastIndex⟩ target term
      peer.appliedConf with
  | none => peer
  | some storage => { peer with disk := { peer.disk with state := storage.state }, unsynced := [] }

def restart (disk : MemberDisk K) : MemberPeer K := ⟨disk, [], membership disk.region⟩

end MemberPeer

/-- The steps of a peer over one committed log. A compaction is taken only where no
membership change lies between its target and the apply index. -/
inductive MemberStep (log : Nat → Payload K) : MemberPeer K → MemberPeer K → Prop
  | apply (peer : MemberPeer K) :
      MemberStep log peer (peer.apply (log (peer.disk.state.appliedIndex + 1)))
  | persist (peer : MemberPeer K) (hardState : HardState) :
      MemberStep log peer (peer.persist hardState)
  | compact (peer : MemberPeer K) (entries : SortedMap Nat Entry) (lastIndex target term : Nat)
      (quiet : ∀ at_, target < at_ → at_ ≤ peer.disk.state.appliedIndex →
        ∀ change, log at_ ≠ .confChange change) :
      MemberStep log peer (peer.compact entries lastIndex target term)
  | restart (peer : MemberPeer K) (disk : MemberDisk K)
      (found : disk ∈ peer.disk :: peer.unsynced) : MemberStep log peer (MemberPeer.restart disk)

/-! ## The invariant -/

section Invariant

variable {log : Nat → Payload K} {base : ConfState} {start : Nat}

structure Anchored (log : Nat → Payload K) (base : ConfState) (start : Nat)
    (disk : MemberDisk K) : Prop where
  unique : UniquePeers disk.region.peers
  recorded : membership disk.region = confAt log base start disk.state.appliedIndex
  anchored : disk.state.confState = confAt log base start disk.state.truncatedIndex
  fromStart : start ≤ disk.state.truncatedIndex
  ordered : disk.state.truncatedIndex ≤ disk.state.appliedIndex

/-- The invariant of a run: every record a restart may find is anchored, and the
membership in memory is the region record's. -/
structure MemberInvariant (log : Nat → Payload K) (base : ConfState) (start : Nat)
    (peer : MemberPeer K) : Prop where
  disks : ∀ disk ∈ peer.disk :: peer.unsynced, Anchored log base start disk
  inMemory : peer.appliedConf = membership peer.disk.region

variable {region : Region K}

omit [LinearOrder K] [OrderBot K] in
/-- A proposed change is never refused when it applies, and moves the record as it moves
the membership. -/
theorem stageConfChange_membership {change : ConfChange}
    (unique : UniquePeers region.peers) (wellFormed : WellFormedChange change)
    (voters : (change.applyTo (membership region)).voters ≠ []) :
    ∃ outcome, stageConfChange region change = .ok outcome ∧
      match outcome with
      | none => change.applyTo (membership region) = membership region
      | some moved => UniquePeers moved.peers ∧
          membership moved = change.applyTo (membership region) := by
  obtain ⟨storeId, role, decoded, _⟩ := id wellFormed
  have decodedHere := @decodeConfChangeContext_ok Unit K _ _ decoded
  have effect := membership_moved unique wellFormed storeId
    ⟨region.epoch.confVer + 1, region.epoch.version⟩
  -- Somebody votes after the change, so somebody is still listed.
  have kept : movedPeers region.peers change storeId ≠ [] := by
    intro emptied
    rw [emptied] at effect
    apply voters
    rw [← effect]
    rfl
  have applied : applyConfChange region change storeId = .ok { region with
      peers := sortPeers (movedPeers region.peers change storeId)
      epoch := ⟨region.epoch.confVer + 1, region.epoch.version⟩ } := by
    rw [applyConfChange, if_neg kept]
  rw [stageConfChange, decodedHere]
  dsimp only
  rw [applied]
  dsimp only
  split_ifs with unchanged
  · refine ⟨none, rfl, ?_⟩
    dsimp only
    rw [← effect, membership, membership, unchanged]
  · exact ⟨some _, rfl, (unique.movedPeers change storeId).sortPeers, effect⟩

omit [OrderBot K] [LinearOrder K] in
theorem splitRegion_peers {parent child : Region K} {splitKey : K} {newRegionId : Nat}
    {newPeerIds : List Nat}
    (split : splitRegion region splitKey newRegionId newPeerIds = .ok (parent, child)) :
    parent.peers = region.peers := by
  obtain ⟨_, _, _, _, parentIs⟩ := splitRegion_ok split
  rw [parentIs]

theorem nextRegion_peers (region : Region K) (command : Command K) :
    (nextRegion region (.command command)).peers = region.peers := by
  cases command with
  | split splitKey newRegionId newPeerIds =>
    rw [nextRegion]
    split
    · rename_i parent child staged
      exact splitRegion_peers (stageSplit_some staged).2
    · rfl
  | _ => rfl

theorem nextRegion_membership {payload : Payload K}
    (unique : UniquePeers region.peers) (proposed : ∀ change, payload = .confChange change →
      WellFormedChange change ∧ (confStep (membership region) payload).voters ≠ []) :
    UniquePeers (nextRegion region payload).peers ∧
      membership (nextRegion region payload) = confStep (membership region) payload ∧
      nextConf (membership region) region payload = membership (nextRegion region payload) := by
  cases payload with
  | confChange change =>
    obtain ⟨wellFormed, voters⟩ := proposed change rfl
    obtain ⟨outcome, staged, effect⟩ := stageConfChange_membership unique wellFormed voters
    rw [nextRegion, nextConf, confStep, staged]
    cases outcome with
    | none => exact ⟨unique, effect.symm, rfl⟩
    | some moved =>
      dsimp only
      rw [movedConf_eq]
      exact ⟨effect.1, effect.2, effect.2.symm⟩
  | noop => exact ⟨unique, rfl, rfl⟩
  | command command =>
    have same : membership (nextRegion region (.command command)) = membership region := by
      rw [membership, membership, nextRegion_peers]
    exact ⟨nextRegion_peers region command ▸ unique, same, same.symm⟩

variable {peer : MemberPeer K}

theorem MemberInvariant.apply
    (inv : MemberInvariant log base start peer) (proposed : Proposed log base start) :
    MemberInvariant log base start (peer.apply (log (peer.disk.state.appliedIndex + 1))) := by
  have current := inv.disks peer.disk mem_cons_self
  have after : start ≤ peer.disk.state.appliedIndex := current.fromStart.trans current.ordered
  have next := confAt_succ log base after
  have maximum : max peer.disk.state.appliedIndex (peer.disk.state.appliedIndex + 1) =
      peer.disk.state.appliedIndex + 1 := max_eq_right (Nat.le_succ _)
  rw [← current.recorded] at next
  have moves := nextRegion_membership current.unique fun change isChange =>
    next ▸ proposed _ (Nat.lt_succ_of_le after) change isChange
  rw [← next, ← inv.inMemory] at moves
  constructor
  case disks =>
    intro disk mem
    rcases mem_cons.mp mem with rfl | older
    · refine ⟨moves.1, ?_, current.anchored, current.fromStart, ?_⟩
      · dsimp only [MemberPeer.apply]
        rw [maximum]
        exact moves.2.1
      dsimp only [MemberPeer.apply]
      rw [maximum]
      exact current.ordered.trans (Nat.le_succ _)
    · exact inv.disks disk older
  case inMemory => exact moves.2.2

omit [LinearOrder K] [OrderBot K] in
theorem MemberInvariant.compact
    (inv : MemberInvariant log base start peer) {entries : SortedMap Nat Entry}
    {lastIndex target term : Nat}
    (quiet : ∀ at_, target < at_ → at_ ≤ peer.disk.state.appliedIndex →
      ∀ change, log at_ ≠ .confChange change) :
    MemberInvariant log base start (peer.compact entries lastIndex target term) := by
  have current := inv.disks peer.disk mem_cons_self
  rw [MemberPeer.compact, RaftLogStorage.stageCompact]
  dsimp only
  by_cases pastApplied : peer.disk.state.appliedIndex < target
  · rw [if_pos pastApplied]
    exact inv
  rw [if_neg pastApplied]
  rw [not_lt] at pastApplied
  by_cases already : target ≤ peer.disk.state.truncatedIndex
  · rw [if_pos already]
    refine ⟨?_, inv.inMemory⟩
    intro disk mem
    rw [mem_singleton.mp mem]
    exact current
  · rw [if_neg already]
    rw [not_le] at already
    have above : start ≤ target := current.fromStart.trans already.le
    refine ⟨?_, inv.inMemory⟩
    intro disk mem
    rw [mem_singleton.mp mem]
    refine ⟨current.unique, current.recorded, ?_, above, pastApplied⟩
    dsimp only
    rw [inv.inMemory, membership_normalize, current.recorded]
    exact confAt_quiet log base above pastApplied quiet

theorem MemberStep.preserves {next : MemberPeer K} (step : MemberStep log peer next)
    (proposed : Proposed log base start) (inv : MemberInvariant log base start peer) :
    MemberInvariant log base start next := by
  cases step with
  | apply => exact inv.apply proposed
  | persist hardState =>
    refine ⟨?_, inv.inMemory⟩
    intro disk mem
    rw [mem_singleton.mp mem]
    have current := inv.disks peer.disk mem_cons_self
    exact { current with }
  | compact entries lastIndex target term quiet => exact inv.compact quiet
  | restart disk found =>
    refine ⟨?_, rfl⟩
    intro other mem
    rw [mem_singleton.mp mem]
    exact inv.disks disk found

/-- A peer as bootstrapping, or adopting a snapshot, leaves it: both indexes at `start`,
and both records with the membership there. -/
structure StartsAt (start : Nat) (peer : MemberPeer K) : Prop where
  unique : UniquePeers peer.disk.region.peers
  applied : peer.disk.state.appliedIndex = start
  truncated : peer.disk.state.truncatedIndex = start
  anchored : peer.disk.state.confState = membership peer.disk.region
  synced : peer.unsynced = []
  inMemory : peer.appliedConf = membership peer.disk.region

omit [LinearOrder K] [OrderBot K] in
theorem StartsAt.invariant (starts : StartsAt start peer) (log : Nat → Payload K) :
    MemberInvariant log (membership peer.disk.region) start peer := by
  refine ⟨?_, starts.inMemory⟩
  intro disk mem
  rw [starts.synced, mem_singleton] at mem
  subst mem
  refine ⟨starts.unique, ?_, ?_, starts.truncated.ge, ?_⟩
  · rw [starts.applied, confAt_start]
  · rw [starts.truncated, confAt_start]
    exact starts.anchored
  · rw [starts.truncated, starts.applied]

end Invariant

/-- In every run whose compactions have no membership change between their target and the
apply index, the membership beside the log is the one at the truncation point, and the
region record's is the one in memory and the one at the apply index. -/
theorem persisted_membership_at_its_index {log : Nat → Payload K} {start : Nat}
    {first peer : MemberPeer K} (starts : StartsAt start first)
    (proposed : Proposed log (membership first.disk.region) start)
    (run : Relation.ReflTransGen (MemberStep log) first peer) :
    peer.disk.state.confState =
        confAt log (membership first.disk.region) start peer.disk.state.truncatedIndex ∧
      membership peer.disk.region = peer.appliedConf ∧
      membership peer.disk.region =
        confAt log (membership first.disk.region) start peer.disk.state.appliedIndex := by
  have invariant : MemberInvariant log (membership first.disk.region) start peer := by
    induction run with
    | refl => exact starts.invariant log
    | tail _ step ih => exact step.preserves proposed ih
  have current := invariant.disks peer.disk mem_cons_self
  exact ⟨current.anchored, invariant.inMemory.symm, current.recorded⟩

/-! ## A compaction across a change -/

def bootstrappedPeer : MemberPeer Bytes :=
  ⟨⟨Region.bootstrap 1 1 1, ⟨default, ⟨[1], []⟩, 0, 0, 0⟩⟩, [], ⟨[1], []⟩⟩

/-- A log whose second entry adds peer 2 on store 2 as a learner. -/
def learnerLog (index : Nat) : Payload Bytes :=
  if index = 2 then .confChange ⟨.addLearner, 2, [1, 2, 2]⟩ else .noop

theorem learnerLog_proposed : Proposed learnerLog (membership bootstrappedPeer.disk.region) 0 := by
  intro index above change isChange
  by_cases isSecond : index = 2
  · subst isSecond
    rw [learnerLog, if_pos rfl] at isChange
    cases isChange
    exact ⟨⟨2, .learner, by decide +kernel, by decide⟩, by decide +kernel⟩
  · rw [learnerLog, if_neg isSecond] at isChange
    cases isChange

/-- Two entries applied, then compacted through both. -/
theorem compaction_through_change_anchored :
    (((bootstrappedPeer.apply (learnerLog 1)).apply (learnerLog 2)).compact
        SortedMap.empty 2 2 1).disk.state.confState =
      confAt learnerLog (membership bootstrappedPeer.disk.region) 0
        (((bootstrappedPeer.apply (learnerLog 1)).apply (learnerLog 2)).compact
          SortedMap.empty 2 2 1).disk.state.truncatedIndex := by
  refine (persisted_membership_at_its_index
    ⟨by decide +kernel, rfl, rfl, by decide +kernel, rfl, by decide +kernel⟩ learnerLog_proposed
    (((Relation.ReflTransGen.refl.tail (MemberStep.apply _)).tail (MemberStep.apply _)).tail
      (MemberStep.compact _ SortedMap.empty 2 2 1 ?_))).1
  intro at_ above within
  have bound : at_ ≤ 2 := within
  omega

/-- Compacted to the first entry instead, the record beside the log already has the
learner the second entry adds. -/
theorem compaction_before_change_misanchored :
    (((bootstrappedPeer.apply (learnerLog 1)).apply (learnerLog 2)).compact
        SortedMap.empty 2 1 1).disk.state.truncatedIndex = 1 ∧
      (((bootstrappedPeer.apply (learnerLog 1)).apply (learnerLog 2)).compact
        SortedMap.empty 2 1 1).disk.state.confState = ⟨[1], [2]⟩ ∧
      confAt learnerLog (membership bootstrappedPeer.disk.region) 0 1 = ⟨[1], []⟩ := by
  decide +kernel

end Esker.Store
