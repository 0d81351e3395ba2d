import Esker.Pd.Group

/-!
Contract: what the placement driver asks of the stores (`esker-pd/src/schedule.rs`, `balance.rs`,
`operator.rs` and `pd/repair.rs`).

Owns: the repair, columnar and balance rules, the operators in flight, and what a heartbeat is
answered with.

Does not own: the texts of logs and the event history; whether an event could be recorded and a
peer id be had comes with the heartbeat.
-/

namespace Esker.Pd.Operators

open Esker.Store (Epoch Peer PeerRole)
open Esker.Runs List SortedMap

/-! ## What the rules look at -/

structure StoreStats where
  regionCount : Nat
  leaderCount : Nat
deriving DecidableEq

structure LoadDelta where
  regionTo : Option Nat
  regionFrom : Option Nat
  leaderTo : Option Nat
  leaderFrom : Option Nat
deriving DecidableEq

structure Cluster where
  stores : List (Nat × StoreRecord StoreStats)
  pending : List LoadDelta
  nowMs : Nat
  maxStoreDownTimeMs : Nat
  targetReplicas : Nat

structure Record where
  id : Nat
  epoch : Epoch
  peers : List Peer
  leaderPeerId : Nat

def isDown (store : StoreRecord StoreStats) (nowMs maxDownMs : Nat) : Bool :=
  decide (maxDownMs < nowMs - store.lastHeartbeatMs)

namespace Cluster

def find (cluster : Cluster) (storeId : Nat) : Option (StoreRecord StoreStats) :=
  (cluster.stores.find? (·.1 == storeId)).map (·.2)

variable (cluster : Cluster) (storeId : Nat)

def isStoreDown : Bool :=
  (cluster.find storeId).any fun store => isDown store cluster.nowMs cluster.maxStoreDownTimeMs

def count (value : Nat) : Int := min value (2 ^ 63 - 1)

def delta (gains loses : Option Nat) : Int :=
  (if gains = some storeId then 1 else 0) - (if loses = some storeId then 1 else 0)

def effectiveRegions : Int :=
  ((cluster.find storeId).elim 0 fun store => count store.stats.regionCount) +
    (cluster.pending.map fun load => delta storeId load.regionTo load.regionFrom).sum

def effectiveLeaders : Int :=
  ((cluster.find storeId).elim 0 fun store => count store.stats.leaderCount) +
    (cluster.pending.map fun load => delta storeId load.leaderTo load.leaderFrom).sum

def liveStores : List Nat :=
  (cluster.stores.filter fun store =>
    !isDown store.2 cluster.nowMs cluster.maxStoreDownTimeMs).map (·.1)

end Cluster

def pick {α : Type} (replaces : α → α → Bool) (items : List α) : Option α :=
  items.foldl (fun best item => best.elim (some item) fun held =>
    if replaces item held then some item else some held) none

def before (left right : Int × Int) : Bool :=
  decide (left.1 < right.1) || (decide (left.1 = right.1) && decide (left.2 < right.2))

/-- `min_by_key`: the first of the smallest. -/
def minByKey {α : Type} (key : α → Int × Int) : List α → Option α :=
  pick fun item held => before (key item) (key held)

/-- `max_by_key`: the last of the greatest. -/
def maxByKey {α : Type} (key : α → Int × Int) : List α → Option α :=
  pick fun item held => !before (key item) (key held)

theorem mem_of_pick {α : Type} {replaces : α → α → Bool} {items : List α} {item : α}
    (picked : pick replaces items = some item) : item ∈ items := by
  have inside : ∀ start, (items.foldl (fun best item => best.elim (some item) fun held =>
      if replaces item held then some item else some held) start) = some item →
      item ∈ items ∨ start = some item := by
    clear picked
    induction items with
    | nil => exact fun _ found => .inr found
    | cons first rest ih =>
      intro start found
      rcases ih _ found with later | same
      · exact .inl (.tail _ later)
      cases start with
      | none =>
        cases same
        exact .inl (.head _)
      | some held =>
        change (if replaces first held then some first else some held) = some item at same
        split_ifs at same
        · cases same
          exact .inl (.head _)
        · exact .inr same
  exact (inside none picked).resolve_right nofun

/-! ## The rules -/

inductive Repair where
  | addPeer (storeId : Nat)
  | addColumnarLearner (storeId : Nat)
  | removePeer (peerId : Nat)
deriving DecidableEq

inductive Balance where
  | transferLeader (toPeerId fromStore toStore : Nat) (finishing : Bool)
  | addPeer (storeId : Nat)
  | removePeer (peerId fromStore : Nat)
deriving DecidableEq

def Balance.finishesAMove : Balance → Bool
  | .removePeer _ _ => true
  | .transferLeader _ _ _ finishing => finishing
  | .addPeer _ => false

inductive Plan where
  | repair (repair : Repair)
  | balance (balance : Balance)
deriving DecidableEq

def isVoter (peer : Peer) : Bool := decide (peer.role = .voter)

def isColumnar (peer : Peer) : Bool := decide (peer.role = .columnarLearner)

namespace Record

variable (record : Record)

def holds (storeId : Nat) : Bool :=
  record.peers.any fun peer => decide (peer.storeId = storeId)

variable (cluster : Cluster)

def live : List Peer :=
  record.peers.filter fun peer => !cluster.isStoreDown peer.storeId

def dead : List Peer :=
  record.peers.filter fun peer => cluster.isStoreDown peer.storeId

/-- `healthiest_store_without_a_peer`, which is also balance's quietest store. -/
def healthiestStoreWithoutAPeer : Option Nat :=
  minByKey (fun storeId => (cluster.effectiveRegions storeId, (storeId : Int)))
    (cluster.liveStores.filter fun storeId => !record.holds storeId)

def repairFor : Option Repair :=
  if ((record.live cluster).filter fun peer => !isColumnar peer).length <
      cluster.targetReplicas then
    (record.healthiestStoreWithoutAPeer cluster).map .addPeer
  else if ((record.live cluster).filter isVoter).length < cluster.targetReplicas then none
  else ((record.dead cluster).map (·.peerId)).min?.map .removePeer

def columnarFor (wanted : Nat) : Option Repair :=
  let columnar := record.peers.filter isColumnar
  if ((record.live cluster).filter isColumnar).length < wanted then
    (record.healthiestStoreWithoutAPeer cluster).map .addColumnarLearner
  else if wanted < columnar.length then
    (minByKey (fun peer => (if cluster.isStoreDown peer.storeId then 0 else 1, (peer.peerId : Int)))
      columnar).map fun peer => .removePeer peer.peerId
  else none

def isMidRepair : Bool :=
  record.peers.any fun peer => cluster.isStoreDown peer.storeId || decide (peer.role = .learner)

def heaviest : List Peer → Option Peer :=
  maxByKey fun peer => (cluster.effectiveRegions peer.storeId, -Cluster.count peer.storeId)

/-- The voter to lead next, on the store that leads least. -/
def successor (leaving : Nat) : Option Peer :=
  minByKey (fun peer => (cluster.effectiveLeaders peer.storeId, (peer.storeId : Int)))
    ((record.live cluster).filter fun peer => isVoter peer && decide (peer.peerId ≠ leaving))

def regionBalance : Option Balance :=
  let voters := record.peers.filter isVoter
  if cluster.targetReplicas < voters.length ∧ !record.isMidRepair cluster then
    (heaviest cluster voters).bind fun peer =>
      if peer.peerId = record.leaderPeerId then
        (record.successor cluster peer.peerId).map fun next =>
          .transferLeader next.peerId peer.storeId next.storeId true
      else some (.removePeer peer.peerId peer.storeId)
  else if record.isMidRepair cluster then none
  else
    (heaviest cluster (voters.filter fun peer => !cluster.isStoreDown peer.storeId)).bind
      fun busiest => (record.healthiestStoreWithoutAPeer cluster).bind fun quietest =>
        if cluster.effectiveRegions busiest.storeId - cluster.effectiveRegions quietest < 2
        then none
        else some (.addPeer quietest)

def leaderBalance : Option Balance :=
  if record.leaderPeerId = 0 ∨ record.isMidRepair cluster then none
  else
    (record.peers.find? fun peer => decide (peer.peerId = record.leaderPeerId)).bind fun leader =>
      if cluster.isStoreDown leader.storeId then none
      else (record.successor cluster leader.peerId).bind fun candidate =>
        if cluster.effectiveLeaders leader.storeId - cluster.effectiveLeaders candidate.storeId < 2
        then none
        else some (.transferLeader candidate.peerId leader.storeId candidate.storeId false)

def balanceFor : Option Balance :=
  (record.regionBalance cluster).or (record.leaderBalance cluster)

end Record

/-! ## Operators in flight -/

inductive Action where
  | addPeer (storeId peerId : Nat)
  | addLearner (storeId peerId : Nat)
  | removePeer (peerId : Nat)
  | transferLeader (toPeerId : Nat)
deriving DecidableEq

structure Operator where
  regionId : Nat
  epoch : Epoch
  action : Action
deriving DecidableEq

inductive Progress where
  | issued
  | started
deriving DecidableEq

inductive Observed where
  | pending (progress : Progress)
  | done
  | cancelled
  | timedOut
deriving DecidableEq

structure Settings where
  maxStoreDownTimeMs : Nat
  targetReplicas : Nat
  operatorTimeoutMs : Nat
  balanceCooldownMs : Nat
  maxBalanceOperators : Nat
  balance : Bool

/-- A heartbeat: the record the driver holds after it, and what it then reads. -/
structure Beat where
  record : Record
  stores : List (Nat × StoreRecord StoreStats)
  nowMs : Nat
  wanted : Nat
  freshPeerId : Option Nat
  /-- Whether the history takes the end of an operator, and the issue of one. -/
  recordsEnd : Bool
  recordsIssue : Bool

/-- An operator in flight, with the plan and the heartbeat it was issued on. -/
structure InFlight where
  operator : Operator
  progress : Progress
  sinceMs : Nat
  load : LoadDelta
  plan : Plan
  issuedOn : Beat

def InFlight.observe (flight : InFlight) (record : Record) (nowMs timeoutMs : Nat) : Observed :=
  let found (peerId : Nat) := record.peers.find? fun peer => decide (peer.peerId = peerId)
  let stuck := decide (timeoutMs < nowMs - flight.sinceMs)
  let unseen := if record.epoch ≠ flight.operator.epoch then .cancelled
    else if stuck then .timedOut else .pending flight.progress
  if record.id ≠ flight.operator.regionId then .cancelled
  else match flight.operator.action with
    | .addPeer _ peerId =>
      match found peerId with
      | none => unseen
      | some peer =>
        if peer.role = .voter then .done
        else if flight.progress ≠ .started then .pending .started
        else if stuck then .timedOut else .pending .started
    | .addLearner _ peerId => if (found peerId).isSome then .done else unseen
    | .removePeer peerId => if (found peerId).isNone then .done else unseen
    | .transferLeader toPeerId => if record.leaderPeerId = toPeerId then .done else unseen

def InFlight.advance (flight : InFlight) (progress : Progress) (nowMs : Nat) : InFlight :=
  if progress = flight.progress then flight
  else { flight with progress := progress, sinceMs := nowMs }

structure State where
  inFlight : SortedMap Nat InFlight
  cooling : List (Nat × Nat)
  settling : List (LoadDelta × Nat)
  answer : Option (Beat × InFlight)

namespace State

def initial : State := ⟨.empty, [], [], none⟩

variable (state : State) (settings : Settings) (beat : Beat)

def cluster : Cluster where
  stores := beat.stores
  pending := state.inFlight.entries.map (·.2.load) ++ state.settling.map (·.1)
  nowMs := beat.nowMs
  maxStoreDownTimeMs := settings.maxStoreDownTimeMs
  targetReplicas := settings.targetReplicas

/-- `retire_settled`, and the end of cooling. -/
def retireSettled : State :=
  let reports := (beat.stores.filter fun store =>
    !isDown store.2 beat.nowMs settings.maxStoreDownTimeMs).map (·.2.lastHeartbeatMs)
  { state with
    cooling := state.cooling.filter fun region => decide (beat.nowMs < region.2)
    settling := state.settling.filter fun load => decide (reports.min?.getD 0 < load.2) &&
      decide (beat.nowMs - settings.maxStoreDownTimeMs < load.2) }

/-- `Pd::plan`: repair, then columnar placement, then balance. -/
def plan : Option Plan :=
  let cluster := state.cluster settings beat
  ((beat.record.repairFor cluster).map .repair).or
    (((beat.record.columnarFor cluster beat.wanted).map .repair).or
      (if settings.balance then
        (beat.record.balanceFor cluster).bind fun balance =>
          if ¬ balance.finishesAMove ∧
              ((state.cooling.any fun region => decide (region.1 = beat.record.id)) ∨
                settings.maxBalanceOperators ≤ state.inFlight.entries.length)
          then none else some (.balance balance)
      else none))

/-- The operator of a plan and the load it moves; a new replica needs a fresh peer id. -/
def operator : Plan → Option (Action × LoadDelta)
  | .balance (.transferLeader toPeerId fromStore toStore _) =>
    some (.transferLeader toPeerId, ⟨none, none, some toStore, some fromStore⟩)
  | .balance (.addPeer storeId) | .repair (.addPeer storeId) =>
    beat.freshPeerId.map fun peerId => (.addPeer storeId peerId, ⟨some storeId, none, none, none⟩)
  | .repair (.addColumnarLearner storeId) =>
    beat.freshPeerId.map fun peerId =>
      (.addLearner storeId peerId, ⟨some storeId, none, none, none⟩)
  | .balance (.removePeer peerId fromStore) =>
    some (.removePeer peerId, ⟨none, some fromStore, none, none⟩)
  | .repair (.removePeer peerId) =>
    let leaves := beat.record.peers.find? fun peer => decide (peer.peerId = peerId)
    some (.removePeer peerId, ⟨none, some (leaves.elim 0 (·.storeId)), none, none⟩)

/-- A region with no operator in flight is decided afresh. -/
def decide_ : State :=
  let settled := state.retireSettled settings beat
  match settled.plan settings beat with
  | none => settled
  | some plan =>
    match operator beat plan with
    | none => settled
    | some (action, load) =>
      if beat.recordsIssue then
        let flight : InFlight :=
          ⟨⟨beat.record.id, beat.record.epoch, action⟩, .issued, beat.nowMs, load, plan, beat⟩
        { settled with
          inFlight := settled.inFlight.insert beat.record.id flight
          answer := some (beat, flight) }
      else settled

/-- `Pd::schedule`. -/
def schedule (state : State) (beat : Beat) : State :=
  match state.inFlight.lookup beat.record.id with
  | none => { state with answer := none }.decide_ settings beat
  | some flight =>
    match flight.observe beat.record beat.nowMs settings.operatorTimeoutMs with
    | .pending progress =>
      let advanced := flight.advance progress beat.nowMs
      { state with
        inFlight := state.inFlight.insert beat.record.id advanced
        answer := if advanced.progress = .issued then some (beat, advanced) else none }
    | _ =>
      let freed : State :=
        { inFlight := state.inFlight.erase beat.record.id
          settling := state.settling ++ [(flight.load, beat.nowMs)]
          cooling := (beat.record.id, beat.nowMs + settings.balanceCooldownMs) ::
            state.cooling.filter fun region => decide (region.1 ≠ beat.record.id)
          answer := none }
      if beat.recordsEnd then freed.decide_ settings beat else freed

end State

/-! ## What the rules guarantee -/

/-- Removing the peer leaves the target of voters on live stores, or it is one columnar copy more
than were asked for. -/
def Leaves (cluster : Cluster) (record : Record) (wanted peerId : Nat) : Prop :=
  cluster.targetReplicas ≤ (((record.live cluster).filter isVoter).filter
      fun peer => decide (peer.peerId ≠ peerId)).length ∨
    wanted < (record.peers.filter isColumnar).length ∧
      ∀ peer ∈ record.peers, peer.peerId = peerId → isColumnar peer

def Plan.adds : Plan → Option Nat
  | .repair (.addPeer storeId) | .repair (.addColumnarLearner storeId)
  | .balance (.addPeer storeId) => some storeId
  | _ => none

def Plan.removes : Plan → Option Nat
  | .repair (.removePeer peerId) | .balance (.removePeer peerId _) => some peerId
  | _ => none

structure Plan.Safe (cluster : Cluster) (record : Record) (wanted : Nat) (plan : Plan) : Prop where
  apart : ∀ storeId, plan.adds = some storeId → record.holds storeId = false
  sheds : ∀ peerId, plan.removes = some peerId → Leaves cluster record wanted peerId
  leader : ∀ peerId fromStore, plan = .balance (.removePeer peerId fromStore) →
    peerId ≠ record.leaderPeerId

section Rules

variable {cluster : Cluster} {record : Record} {wanted : Nat}

theorem holds_eq_false_of_healthiest {storeId : Nat}
    (found : record.healthiestStoreWithoutAPeer cluster = some storeId) :
    record.holds storeId = false := by
  have mem := (mem_filter.mp (mem_of_pick found)).2
  exact Bool.not_eq_true' _ ▸ mem

section

variable (distinct : (record.peers.map (·.peerId)).Nodup)
include distinct

theorem eq_of_peerId {left right : Peer}
    (isLeft : left ∈ record.peers) (isRight : right ∈ record.peers)
    (same : left.peerId = right.peerId) : left = right :=
  inj_on_of_nodup_map distinct isLeft isRight same

theorem repairFor_safe {repair : Repair} (found : record.repairFor cluster = some repair) :
    (Plan.repair repair).Safe cluster record wanted := by
  rw [Record.repairFor] at found
  split_ifs at found with missing short
  · obtain ⟨storeId, isStore, rfl⟩ := Option.map_eq_some_iff.mp found
    refine ⟨?_, nofun, nofun⟩
    rintro _ ⟨⟩
    exact holds_eq_false_of_healthiest isStore
  · obtain ⟨peerId, least, rfl⟩ := Option.map_eq_some_iff.mp found
    refine ⟨nofun, ?_, nofun⟩
    rintro _ ⟨⟩
    obtain ⟨gone, isDead, rfl⟩ := mem_map.mp (min?_mem least)
    have ⟨isGone, isDown⟩ := mem_filter.mp isDead
    -- no live peer has the id of the dead one
    have others : ((record.live cluster).filter isVoter).filter
        (fun peer => decide (peer.peerId ≠ gone.peerId)) =
        (record.live cluster).filter isVoter := by
      apply filter_eq_self.mpr
      intro peer mem
      have ⟨isPeer, isLive⟩ := mem_filter.mp (mem_filter.mp mem).1
      apply decide_eq_true
      intro same
      rw [eq_of_peerId distinct isPeer isGone same, isDown] at isLive
      cases isLive
    left
    rw [others]
    exact Nat.le_of_not_lt short

theorem columnarFor_safe {repair : Repair}
    (found : record.columnarFor cluster wanted = some repair) :
    (Plan.repair repair).Safe cluster record wanted := by
  rw [Record.columnarFor] at found
  split_ifs at found with missing more
  · obtain ⟨storeId, isStore, rfl⟩ := Option.map_eq_some_iff.mp found
    refine ⟨?_, nofun, nofun⟩
    rintro _ ⟨⟩
    exact holds_eq_false_of_healthiest isStore
  · obtain ⟨gone, picked, rfl⟩ := Option.map_eq_some_iff.mp found
    refine ⟨nofun, ?_, nofun⟩
    rintro _ ⟨⟩
    have ⟨isGone, columnar⟩ := mem_filter.mp (mem_of_pick picked)
    right
    refine ⟨more, ?_⟩
    intro peer isPeer same
    rw [eq_of_peerId distinct isPeer isGone same]
    exact columnar

omit distinct in
theorem length_le_filter_ne {peers : List Peer} (distinct : (peers.map (·.peerId)).Nodup)
    (peerId : Nat) :
    peers.length ≤ (peers.filter fun peer => decide (peer.peerId ≠ peerId)).length + 1 := by
  have once := nodup_iff_count_le_one.mp distinct peerId
  rw [count_eq_countP, countP_map] at once
  have split := length_eq_countP_add_countP (l := peers) fun peer => decide (peer.peerId ≠ peerId)
  rw [← countP_eq_length_filter, split]
  apply Nat.add_le_add_left
  apply Nat.le_trans _ once
  apply countP_mono_left
  intro peer _ same
  simpa using same

theorem regionBalance_safe {balance : Balance}
    (found : record.regionBalance cluster = some balance) :
    (Plan.balance balance).Safe cluster record wanted := by
  rw [Record.regionBalance] at found
  split_ifs at found with shed
  · obtain ⟨peer, picked, chosen⟩ := Option.bind_eq_some_iff.mp found
    split_ifs at chosen with leads
    · obtain ⟨_, _, rfl⟩ := Option.map_eq_some_iff.mp chosen
      exact ⟨nofun, nofun, nofun⟩
    cases chosen
    refine ⟨nofun, ?_, ?_⟩
    · rintro _ ⟨⟩
      have allLive : record.live cluster = record.peers := by
        apply filter_eq_self.mpr
        intro peer mem
        have settled := shed.2
        rw [Record.isMidRepair, Bool.not_eq_true', any_eq_false] at settled
        have := settled peer mem
        rw [Bool.or_eq_true, not_or] at this
        rw [Bool.not_eq_true', Bool.eq_false_iff]
        exact this.1
      have fewer := length_le_filter_ne
        (distinct.sublist ((filter_sublist (p := isVoter)).map _)) peer.peerId
      left
      rw [allLive]
      omega
    · rintro _ _ ⟨⟩
      exact leads
  · obtain ⟨busiest, _, chosen⟩ := Option.bind_eq_some_iff.mp found
    obtain ⟨quietest, isStore, chosen⟩ := Option.bind_eq_some_iff.mp chosen
    split_ifs at chosen
    cases chosen
    refine ⟨?_, nofun, nofun⟩
    rintro _ ⟨⟩
    exact holds_eq_false_of_healthiest isStore

end

theorem leaderBalance_safe {balance : Balance}
    (found : record.leaderBalance cluster = some balance) :
    (Plan.balance balance).Safe cluster record wanted := by
  rw [Record.leaderBalance] at found
  split_ifs at found
  obtain ⟨leader, _, chosen⟩ := Option.bind_eq_some_iff.mp found
  split_ifs at chosen
  obtain ⟨candidate, _, chosen⟩ := Option.bind_eq_some_iff.mp chosen
  split_ifs at chosen
  cases chosen
  exact ⟨nofun, nofun, nofun⟩

theorem plan_safe {state : State} {settings : Settings} {beat : Beat} {plan : Plan}
    (distinct : (beat.record.peers.map (·.peerId)).Nodup)
    (found : state.plan settings beat = some plan) :
    plan.Safe (state.cluster settings beat) beat.record beat.wanted := by
  rw [State.plan] at found
  rcases Option.or_eq_some_iff.mp found with repairs | ⟨_, later⟩
  · obtain ⟨repair, chosen, rfl⟩ := Option.map_eq_some_iff.mp repairs
    exact repairFor_safe distinct chosen
  rcases Option.or_eq_some_iff.mp later with columnar | ⟨_, balances⟩
  · obtain ⟨repair, chosen, rfl⟩ := Option.map_eq_some_iff.mp columnar
    exact columnarFor_safe distinct chosen
  split_ifs at balances
  obtain ⟨balance, chosen, isPlan⟩ := Option.bind_eq_some_iff.mp balances
  split_ifs at isPlan
  cases isPlan
  rcases Option.or_eq_some_iff.mp chosen with regions | ⟨_, leaders⟩
  · exact regionBalance_safe distinct regions
  · exact leaderBalance_safe leaders

end Rules

/-! ## Runs -/

/-- The peers of a region are determined by its epoch, and each has its own id. -/
def Beat.Agrees (members : Nat → Epoch → List Peer) (beat : Beat) : Prop :=
  beat.record.peers = members beat.record.id beat.record.epoch ∧
    (beat.record.peers.map (·.peerId)).Nodup

/-- A heartbeat, or a new office, which starts with nothing in flight. -/
inductive Event (members : Nat → Epoch → List Peer) where
  | beat (beat : Beat) (agrees : beat.Agrees members)
  | takeOffice

variable {members : Nat → Epoch → List Peer}

def step (settings : Settings) (state : State) : Event members → State
  | .beat beat _ => state.schedule settings beat
  | .takeOffice => .initial

/-- What an operator is, wherever it is run at the epoch it carries. -/
structure InFlight.Sound (members : Nat → Epoch → List Peer) (settings : Settings) (id : Nat)
    (flight : InFlight) : Prop where
  region : flight.operator.regionId = id
  adds : ∀ storeId peerId, flight.operator.action = .addPeer storeId peerId ∨
    flight.operator.action = .addLearner storeId peerId →
      ∀ peer ∈ members id flight.operator.epoch, peer.storeId ≠ storeId
  removes : ∀ peerId, flight.operator.action = .removePeer peerId →
    Leaves (State.initial.cluster settings flight.issuedOn) flight.issuedOn.record
      flight.issuedOn.wanted peerId

/-- One operator in flight for a region, and only that one is asked for. -/
structure State.Sound (members : Nat → Epoch → List Peer) (settings : Settings) (state : State) :
    Prop where
  flights : ∀ id flight, (id, flight) ∈ state.inFlight → flight.Sound members settings id
  answer : ∀ beat flight, state.answer = some (beat, flight) →
    state.inFlight.lookup beat.record.id = some flight

/-- As the driver sees the stores on the heartbeat, a removal leaves enough, and one of balance does
not take the leader's own replica. -/
structure InFlight.Fits (settings : Settings) (beat : Beat) (flight : InFlight) : Prop where
  sheds : ∀ peerId, flight.operator.action = .removePeer peerId →
    Leaves (State.initial.cluster settings beat) beat.record beat.wanted peerId
  leader : ∀ peerId fromStore, flight.plan = .balance (.removePeer peerId fromStore) →
    peerId ≠ beat.record.leaderPeerId

/-- Every heartbeat is answered with an operator that fits it. -/
def State.Fitting (settings : Settings) (state : State) : Prop :=
  ∀ beat flight, state.answer = some (beat, flight) → flight.Fits settings beat

/-- An operator that is still pending and sent again fits the heartbeat that asks for it. -/
def StillFits (settings : Settings) (state : State) : Event members → Prop
  | .beat beat _ => ∀ flight, state.inFlight.lookup beat.record.id = some flight →
      flight.observe beat.record beat.nowMs settings.operatorTimeoutMs = .pending .issued →
      flight.Fits settings beat
  | .takeOffice => True

section Runs

variable {settings : Settings} {state : State} {beat : Beat}

theorem advance_keeps (flight : InFlight) (progress : Progress) (nowMs : Nat) :
    (flight.advance progress nowMs).operator = flight.operator ∧
      (flight.advance progress nowMs).plan = flight.plan ∧
      (flight.advance progress nowMs).issuedOn = flight.issuedOn ∧
      (flight.advance progress nowMs).progress = progress := by
  rw [InFlight.advance]
  split_ifs with same
  · exact ⟨rfl, rfl, rfl, same.symm⟩
  · exact ⟨rfl, rfl, rfl, rfl⟩

theorem insert_sound {flights : SortedMap Nat InFlight}
    (sound : ∀ id flight, (id, flight) ∈ flights → flight.Sound members settings id)
    {region : Nat} {flight : InFlight} (isSound : flight.Sound members settings region) :
    ∀ id held, (id, held) ∈ flights.insert region flight → held.Sound members settings id := by
  intro id held mem
  rcases mem_insert.mp mem with ⟨rfl, rfl⟩ | ⟨_, old⟩
  · exact isSound
  · exact sound id held old

theorem issued_sound {plan : Plan} {action : Action} {load : LoadDelta}
    (agrees : beat.Agrees members)
    (safe : plan.Safe (state.cluster settings beat) beat.record beat.wanted)
    (issued : State.operator beat plan = some (action, load)) :
    InFlight.Sound members settings beat.record.id
      ⟨⟨beat.record.id, beat.record.epoch, action⟩, .issued, beat.nowMs, load, plan, beat⟩ := by
  have apart {storeId : Nat} (isNew : plan.adds = some storeId) :
      ∀ peer ∈ members beat.record.id beat.record.epoch, peer.storeId ≠ storeId := by
    have free := safe.apart storeId isNew
    rw [Record.holds, agrees.1, any_eq_false] at free
    intro peer mem same
    exact free peer mem (decide_eq_true same)
  have plans : (∀ storeId peerId, action = .addPeer storeId peerId ∨
      action = .addLearner storeId peerId → plan.adds = some storeId) ∧
      ∀ peerId, action = .removePeer peerId → plan.removes = some peerId := by
    rcases plan with (_ | _ | _) | (_ | _ | _)
    all_goals
      simp only [State.operator, Option.map_eq_some_iff, Option.some.injEq, Prod.mk.injEq] at issued
      grind [Plan.adds, Plan.removes]
  refine ⟨rfl, ?_, ?_⟩
  · intro storeId peerId adds
    exact apart (plans.1 storeId peerId adds)
  · intro peerId removes
    exact safe.sheds peerId (plans.2 peerId removes)

theorem silent_sound
    (sound : ∀ id flight, (id, flight) ∈ state.inFlight → flight.Sound members settings id)
    (silent : state.answer = none) : state.Sound members settings ∧ state.Fitting settings := by
  refine ⟨⟨sound, ?_⟩, ?_⟩
  · intro _ _ answered
    rw [silent] at answered
    cases answered
  intro _ _ answered
  rw [silent] at answered
  cases answered

theorem initial_sound :
    State.initial.Sound members settings ∧ State.initial.Fitting settings :=
  silent_sound (fun _ _ mem => absurd mem (not_mem_empty _)) rfl

theorem decide_sound (state : State) (agrees : beat.Agrees members)
    (sound : ∀ id flight, (id, flight) ∈ state.inFlight → flight.Sound members settings id)
    (silent : state.answer = none) :
    (state.decide_ settings beat).Sound members settings ∧
      (state.decide_ settings beat).Fitting settings := by
  have unanswered := @silent_sound _ settings (state.retireSettled settings beat) sound silent
  rw [State.decide_]
  split
  · exact unanswered
  next plan planned =>
  have safe := plan_safe agrees.2 planned
  split
  · exact unanswered
  next action load issued =>
  split_ifs
  swap
  · exact unanswered
  have isSound := issued_sound agrees safe issued
  refine ⟨⟨insert_sound sound isSound, ?_⟩, ?_⟩
  · rintro _ _ ⟨⟩
    exact lookup_insert_self _ _ _
  · rintro _ _ ⟨⟩
    exact ⟨isSound.removes, safe.leader⟩

theorem schedule_sound (sound : state.Sound members settings) (agrees : beat.Agrees members) :
    (state.schedule settings beat).Sound members settings ∧
      ((state.schedule settings beat).Fitting settings ↔
        StillFits settings state (.beat beat agrees)) := by
  rw [State.schedule]
  split
  next none_ =>
    have ⟨isSound, spares⟩ := decide_sound { state with answer := none } agrees sound.flights rfl
    refine ⟨isSound, fun _ flight found => ?_, fun _ => spares⟩
    exact absurd (none_.symm.trans found) nofun
  next flight found =>
  have isFlight := sound.flights _ _ (lookup_eq_some_iff.mp found)
  split
  next progress pending =>
    have ⟨sameOperator, samePlan, sameBeat, isProgress⟩ :=
      advance_keeps flight progress beat.nowMs
    constructor
    · refine ⟨insert_sound sound.flights ⟨?_, ?_, ?_⟩, ?_⟩
      · rw [sameOperator]
        exact isFlight.region
      · rw [sameOperator]
        exact isFlight.adds
      · rw [sameOperator, sameBeat]
        exact isFlight.removes
      intro asked sent answered
      dsimp only at answered
      split_ifs at answered
      cases answered
      exact lookup_insert_self _ _ _
    · constructor
      · intro fits held isHeld again
        cases found.symm.trans isHeld
        cases pending.symm.trans again
        have sent := fits beat _ (if_pos isProgress)
        exact ⟨fun peerId removes => sent.sheds peerId (sameOperator ▸ removes),
          fun peerId fromStore isPlan => sent.leader peerId fromStore (samePlan ▸ isPlan)⟩
      · intro allowed asked sent answered
        dsimp only at answered
        split_ifs at answered with isIssued
        cases answered
        rw [isProgress] at isIssued
        have fits := allowed flight found (isIssued ▸ pending)
        exact ⟨fun peerId removes => fits.sheds peerId (sameOperator ▸ removes),
          fun peerId fromStore isPlan => fits.leader peerId fromStore (samePlan ▸ isPlan)⟩
  next ended =>
    have freed : ∀ id held, (id, held) ∈ state.inFlight.erase beat.record.id →
        held.Sound members settings id :=
      fun id held mem => sound.flights id held (mem_erase.mp mem).2
    have allowed : StillFits settings state (.beat beat agrees) := by
      intro held isHeld again
      cases found.symm.trans isHeld
      exact absurd again (ended _)
    dsimp only
    split_ifs
    · exact (decide_sound _ agrees freed rfl).imp_right
        fun spares => ⟨fun _ => allowed, fun _ => spares⟩
    · exact (silent_sound freed rfl).imp_right fun spares => ⟨fun _ => allowed, fun _ => spares⟩

end Runs

/-- Over every sequence of heartbeats and offices each region has one operator in flight, no
operator adds a peer beside one, and every removal leaves enough on the heartbeat it is issued on.
On every heartbeat that is answered a removal leaves enough, and balance spares the leader's own
replica, exactly when that is so where a pending one is sent again. -/
theorem scheduling_safe_iff (settings : Settings) (events : List (Event members)) :
    Along (step settings) (fun state => state.Sound members settings ∧ state.Fitting settings)
        State.initial events ↔
      Meets (step settings) (StillFits settings) State.initial events := by
  have start : State.initial.Sound members settings ∧ State.initial.Fitting settings :=
    initial_sound
  have kept (state : State) (event : Event members) (sound : state.Sound members settings) :
      (step settings state event).Sound members settings := by
    cases event with
    | beat beat agrees => exact (schedule_sound sound agrees).1
    | takeOffice => exact start.1
  apply along_iff_meets kept _ events start.1 start
  intro state event sound _
  cases event with
  | beat beat agrees =>
    have ⟨isSound, exactly⟩ := schedule_sound sound agrees
    exact ⟨fun holds => exactly.mp holds.2, fun allowed => ⟨isSound, exactly.mpr allowed⟩⟩
  | takeOffice => exact ⟨fun _ => trivial, fun _ => start⟩

/-- A region with one voter more than its target, the second of them on the busiest store. -/
def fourVoters : List Peer := [⟨1, 1, .voter⟩, ⟨2, 2, .voter⟩, ⟨3, 3, .voter⟩, ⟨4, 4, .voter⟩]

def ledBy (leaderPeerId : Nat) : Beat where
  record := ⟨1, ⟨1, 1⟩, fourVoters, leaderPeerId⟩
  stores := [(1, ⟨"", 0, 0, ⟨1, 1⟩⟩), (2, ⟨"", 0, 0, ⟨5, 0⟩⟩), (3, ⟨"", 0, 0, ⟨1, 0⟩⟩),
    (4, ⟨"", 0, 0, ⟨1, 0⟩⟩)]
  nowMs := 0
  wanted := 0
  freshPeerId := none
  recordsEnd := true
  recordsIssue := true

/-- The removal of the second peer is issued to the first, and sent again to the second, which has
been elected since at the same epoch. -/
theorem removal_sent_to_its_leader :
    ¬ Along (@step (fun _ _ => fourVoters) ⟨1000, 3, 1000, 0, 1, true⟩)
      (fun state => state.Sound (fun _ _ => fourVoters) ⟨1000, 3, 1000, 0, 1, true⟩ ∧
        state.Fitting ⟨1000, 3, 1000, 0, 1, true⟩)
      State.initial
      [.beat (ledBy 1) ⟨rfl, by decide⟩, .beat (ledBy 2) ⟨rfl, by decide⟩] := by
  intro along
  have fits := along.last.2 (ledBy 2) ⟨⟨1, ⟨1, 1⟩, .removePeer 2⟩, .issued, 0,
    ⟨none, some 2, none, none⟩, .balance (.removePeer 2 2), ledBy 1⟩ rfl
  exact fits.leader 2 2 rfl rfl

end Esker.Pd.Operators
