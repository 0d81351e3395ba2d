import Esker.Consensus.Election

/-!
Contract: the handle a driver holds (`esker-raft/src/raw_node.rs`).

Owns: `RawNode` with its calls, and `Ready`, the only way an effect leaves the core.
-/

namespace Esker.Consensus

open Fallible

/-- Everything the core decided since the last `advance`. -/
structure Ready (D : Type) where
  hardState : Option HardState
  entries : List Entry
  snapshot : Option (Snapshot D)
  messages : List (Message D)
  committedEntries : List Entry
  readStates : List ReadState
deriving DecidableEq, Repr

structure RawNode (S D : Type) where
  raft : Raft S D
  /-- The last `HardState` handed to a driver. -/
  prevHardState : HardState

abbrev NodeM (S D : Type) := Fallible RaftError (RawNode S D)

namespace RawNode

variable {S D : Type} [LogStorage S D]

/-- Builds a node over `store`. -/
def new (config : Config) (store : S) : Checked (RawNode S D) :=
  match Raft.new config store with
  | none => none
  | some (.error error) => some (.error error)
  | some (.ok raft) => some (.ok ⟨raft, raft.hardState⟩)

def onRaft {α : Type} (call : RaftM S D α) : NodeM S D α :=
  zoom RawNode.raft (fun raft node => { node with raft }) call

def tick : NodeM S D Unit := onRaft Raft.tick

def step (message : Message D) : NodeM S D Unit := onRaft (Raft.step message)

def propose (data : Bytes) : NodeM S D Unit := do
  let node ← get
  if node.raft.role ≠ .leader then throw .notLeader
  else
    match node.raft.leadTransferee with
    | some target => throw (.leadershipTransferInProgress target)
    | none => do
        let _ ← onRaft (Raft.proposeEntry .normal data)
        pure ()

def proposeConfChange (change : ConfChange) : NodeM S D Unit := do
  let node ← get
  if node.raft.role ≠ .leader then throw .notLeader
  else do
    let _ ← onRaft (Raft.proposeConfChange change)
    pure ()

def readIndex (ctx : Bytes) : NodeM S D Unit := do
  let _ ← attempt (onRaft (Raft.readIndex ctx none))
  pure ()

def campaign : NodeM S D Unit := do
  let node ← get
  onRaft (Raft.campaign (if node.raft.preVote then .preElection else .election))

/-- Asks the leader to hand leadership to `target`; a failure is swallowed. -/
def transferLeader (target : Nat) : NodeM S D Unit := do
  let _ ← attempt (onRaft (Raft.transferLeader target))
  pure ()

def reportSnapshot (peer : Nat) (status : SnapshotStatus) : NodeM S D Unit :=
  onRaft (modify (Raft.reportSnapshot peer status))

def ready : NodeM S D (Ready D) := do
  let node ← get
  let raft := node.raft
  let committed ← orPanic (raft.log.nextCommitted raft.maxSizePerMsg)
  modify fun node => { node with raft := { node.raft with messages := [], readStates := [] } }
  pure
    { hardState :=
        if raft.hardState.differsFrom node.prevHardState then some raft.hardState else none
      entries := raft.log.unstable
      snapshot := raft.log.unstableSnapshot
      messages := raft.messages
      committedEntries := match committed with
        | .ok entries => entries
        | .error _ => []
      readStates := raft.readStates }

/-- Records that `ready` has been discharged. -/
def advance (ready : Ready D) : NodeM S D Unit := do
  modify fun node =>
    { node with prevHardState := ready.hardState.getD node.prevHardState }
  match ready.snapshot with
  | some snapshot => onRaft (modify fun raft =>
    { raft with log := raft.log.stableSnapshotTo snapshot.metadata.index })
  | none => pure ()
  match ready.entries.getLast? with
  | some last => do
      let node ← get
      let log ← orPanic (node.raft.log.stableTo last.index last.term)
      onRaft (modify fun raft => { raft with log })
  | none => pure ()
  match ready.committedEntries.getLast? with
  | some last => onRaft (modify fun raft =>
    { raft with
      log := raft.log.appliedTo last.index
      conf := raft.conf.commitTo last.index })
  | none => pure ()

end RawNode

/-! ## Sequences of calls -/

/-- A call that is not part of discharging a `Ready`. -/
inductive Call (D : Type) where
  | tick
  | step (message : Message D)
  | propose (data : Bytes)
  | proposeConfChange (change : ConfChange)
  | readIndex (ctx : Bytes)
  | campaign
  | transferLeader (target : Nat)
  | reportSnapshot (peer : Nat) (status : SnapshotStatus)
deriving DecidableEq, Repr

def Call.perform {S D : Type} [LogStorage S D] : Call D → NodeM S D Unit
  | .tick => RawNode.tick
  | .step message => RawNode.step message
  | .propose data => RawNode.propose data
  | .proposeConfChange change => RawNode.proposeConfChange change
  | .readIndex ctx => RawNode.readIndex ctx
  | .campaign => RawNode.campaign
  | .transferLeader target => RawNode.transferLeader target
  | .reportSnapshot peer status => RawNode.reportSnapshot peer status

/-- One node reached from another by calls that return, each made in a state that
`allowed` admits it in. -/
inductive Reaches {S D : Type} [LogStorage S D] (allowed : RawNode S D → Call D → Prop) :
    RawNode S D → RawNode S D → Prop
  | refl (node : RawNode S D) : Reaches allowed node node
  | call {first before after : RawNode S D} {call : Call D} {result : Except RaftError Unit}
      (earlier : Reaches allowed first before) (admitted : allowed before call)
      (returned : call.perform before = some (result, after)) : Reaches allowed first after

section Running

variable {S D : Type} [LogStorage S D]

/-- The node after a list of calls, unless one of them panics. -/
def runCalls : List (Call D) → RawNode S D → Option (RawNode S D)
  | [], node => some node
  | call :: rest, node =>
    match call.perform node with
    | none => none
    | some (_, after) => runCalls rest after

theorem reaches_runCalls {allowed : RawNode S D → Call D → Prop} {first middle last : RawNode S D}
    {calls : List (Call D)} (admitted : ∀ call ∈ calls, ∀ node, allowed node call)
    (earlier : Reaches allowed first middle) (ran : runCalls calls middle = some last) :
    Reaches allowed first last := by
  induction calls generalizing middle with
  | nil =>
    cases ran
    exact earlier
  | cons call rest ih =>
    unfold runCalls at ran
    split at ran
    · cases ran
    rename_i returned
    exact ih (fun later mem => admitted later (.tail _ mem))
      (.call earlier (admitted call (.head _) _) returned) ran

/-- Builds a node and makes two lists of calls, showing its durable state after each. -/
def hardStatesOf (config : Config) (store : S) (first second : List (Call D)) :
    Option (HardState × HardState) :=
  match RawNode.new config store with
  | some (.ok built) => do
      let before ← runCalls first built
      let after ← runCalls second before
      some (before.raft.hardState, after.raft.hardState)
  | _ => none

theorem reaches_hardStatesOf {allowed : RawNode S D → Call D → Prop} {config : Config} {store : S}
    {first second : List (Call D)} {early late : HardState}
    (admitted : ∀ call ∈ first ++ second, ∀ node, allowed node call)
    (seen : hardStatesOf config store first second = some (early, late)) :
    ∃ built before after : RawNode S D, RawNode.new config store = some (.ok built) ∧
      Reaches allowed built before ∧ Reaches allowed before after ∧
      before.raft.hardState = early ∧ after.raft.hardState = late := by
  unfold hardStatesOf at seen
  split at seen
  · rename_i built opened
    obtain ⟨before, ranFirst, seen⟩ := Option.bind_eq_some_iff.mp seen
    obtain ⟨after, ranSecond, seen⟩ := Option.bind_eq_some_iff.mp seen
    cases seen
    exact ⟨built, before, after, opened,
      reaches_runCalls (fun call mem => admitted call (List.mem_append_left _ mem))
        (.refl built) ranFirst,
      reaches_runCalls (fun call mem => admitted call (List.mem_append_right _ mem))
        (.refl before) ranSecond, rfl, rfl⟩
  · cases seen

end Running

end Esker.Consensus
