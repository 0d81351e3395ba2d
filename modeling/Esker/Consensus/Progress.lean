import Esker.Consensus.Types

/-!
Contract: what a leader believes about each follower (`esker-raft/src/progress.rs`).

Owns: the per-follower state machine `Progress` with its in-flight window, and
`ProgressMap`, every peer's progress keyed by id and kept sorted.
-/

namespace Esker.Consensus

inductive ProgressState where
  | probe
  | replicate
  | snapshot
deriving DecidableEq, Repr

/-- A bounded window of in-flight append messages, tracked by the last index each
carried. -/
structure Inflights where
  window : List Nat
  capacity : Nat
deriving DecidableEq, Repr

namespace Inflights

def new (capacity : Nat) : Inflights := ⟨[], max capacity 1⟩

variable (inflights : Inflights)

/-- Whether the leader must stop sending to this follower. -/
def isFull : Bool :=
  decide (inflights.capacity ≤ inflights.window.length)

def add (last : Nat) : Inflights :=
  if inflights.isFull then inflights
  else { inflights with window := inflights.window ++ [last] }

/-- Releases every message the follower has now acknowledged. -/
def freeTo (acked : Nat) : Inflights :=
  { inflights with window := inflights.window.dropWhile (· ≤ acked) }

def reset : Inflights := { inflights with window := [] }

end Inflights

structure Progress where
  matched : Nat
  next : Nat
  state : ProgressState
  recentActive : Bool
  probeSent : Bool
  pendingSnapshot : Nat
  snapshotElapsed : Nat
  isLearner : Bool
  inflights : Inflights
deriving DecidableEq, Repr

namespace Progress

def new (next : Nat) (maxInflight : Nat) (isLearner : Bool) : Progress :=
  { matched := 0
    next
    state := .probe
    recentActive := false
    probeSent := false
    pendingSnapshot := 0
    snapshotElapsed := 0
    isLearner
    inflights := Inflights.new maxInflight }

variable (progress : Progress)

/-- Back to probing. Coming back from a snapshot, the follower is known to have at
least the snapshot's index, so probing restarts from there. -/
def becomeProbe : Progress :=
  { progress with
    next :=
      if progress.state = .snapshot then
        saturatingAdd (max progress.matched progress.pendingSnapshot) 1
      else saturatingAdd progress.matched 1
    state := .probe
    pendingSnapshot := 0
    snapshotElapsed := 0
    probeSent := false
    inflights := progress.inflights.reset }

def becomeReplicate : Progress :=
  { progress with
    state := .replicate
    next := saturatingAdd progress.matched 1
    pendingSnapshot := 0
    snapshotElapsed := 0
    probeSent := false
    inflights := progress.inflights.reset }

/-- A snapshot at `index` is on its way. -/
def becomeSnapshot (index : Nat) : Progress :=
  { progress with
    state := .snapshot
    pendingSnapshot := index
    snapshotElapsed := 0
    probeSent := false
    inflights := progress.inflights.reset }

/-- The snapshot did not arrive: probe from `matched + 1`, not from the promise. -/
def abortSnapshot : Progress :=
  becomeProbe { progress with pendingSnapshot := 0 }

/-- Whether an acknowledgement has made the snapshot in flight pointless. -/
def snapshotIsMoot : Bool :=
  decide (progress.state = .snapshot ∧ progress.pendingSnapshot ≤ progress.matched)

/-- Counts one tick against a snapshot in flight, and says whether it has run out of
patience. -/
def snapshotTick (limit : Nat) : Bool × Progress :=
  if progress.state ≠ .snapshot then (false, progress)
  else
    let elapsed := saturatingAdd progress.snapshotElapsed 1
    (decide (limit ≤ elapsed), { progress with snapshotElapsed := elapsed })

/-- Records an acknowledgement. Returns whether it moved `matched` forward. -/
def maybeUpdate (acked : Nat) : Bool × Progress :=
  let advanced := decide (progress.matched < acked)
  let progress :=
    if advanced then { progress with matched := acked, probeSent := false } else progress
  let progress := { progress with next := max progress.next (saturatingAdd acked 1) }
  (advanced, if progress.snapshotIsMoot then progress.becomeProbe else progress)

/-- Applies a rejection, backing `next` off to the probe point. `next` never drops to
or below `matched` and never rises on a rejection. -/
def maybeDecrTo (probe : Nat) : Bool × Progress :=
  let candidate := max probe (saturatingAdd progress.matched 1)
  match progress.state with
  | .snapshot => (true, progress.becomeProbe)
  | .replicate =>
    if probe ≤ progress.matched then (false, progress)
    else (true, { progress.becomeProbe with next := candidate })
  | .probe =>
    if progress.next ≤ candidate then (false, progress)
    else (true, { progress with next := candidate, probeSent := false })

/-- Whether the leader must not send to this peer right now. -/
def isPaused : Bool :=
  match progress.state with
  | .probe => progress.probeSent
  | .replicate => progress.inflights.isFull
  | .snapshot => true

end Progress

abbrev ProgressMap := List (Nat × Progress)

namespace ProgressMap

def get : ProgressMap → Nat → Option Progress
  | [], _ => none
  | (peer, progress) :: rest, id => if peer = id then some progress else get rest id

def insert : ProgressMap → Nat → Progress → ProgressMap
  | [], id, progress => [(id, progress)]
  | (peer, existing) :: rest, id, progress =>
    if peer = id then (id, progress) :: rest
    else if id < peer then (id, progress) :: (peer, existing) :: rest
    else (peer, existing) :: insert rest id progress

variable (peers : ProgressMap)

/-- What a write through `get_mut` does. -/
def adjust (id : Nat) (change : Progress → Progress) : ProgressMap :=
  peers.map fun (peer, progress) =>
    if peer = id then (peer, change progress) else (peer, progress)

def contains (id : Nat) : Bool := (peers.get id).isSome

def ids : List Nat := peers.map Prod.fst

end ProgressMap

end Esker.Consensus
