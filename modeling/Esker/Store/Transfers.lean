import Esker.Store.RegionMap

/-!
Contract: a store receiving regions by snapshot (`Store::fetch_snapshot`,
`announce_snapshot`, `adopt_snapshot`, `discard_interrupted_snapshots` and `Store::open`
in `esker-store/src/server.rs`, `clear_range` and `stage_pairs` in
`esker-store/src/snapshot.rs`).

Owns: the durable records of a store, its region map, the receives in flight with their
steps, what a crash leaves and what opening makes of it; and which keys a receive touches.

Does not own: how a stream is sent. A receive carries the chunks its stream has left.
-/

namespace Esker.Store

open Esker.Consensus (Bytes)
open Esker.KeyRange List SortedMap
open Relation (ReflTransGen)

/-! ## The store -/

structure Disk (K V : Type) where
  records : SortedMap Nat (Region K)
  applied : SortedMap Nat Nat
  pending : SortedMap Nat (Region K)
  retiring : SortedMap Nat (Region K)
  data : K → Option V

inductive Phase where
  | opened
  | announced
  | filling
  | adopted
deriving DecidableEq, Repr

/-- A receive in flight: the header it was sent, the snapshot's index and the chunks its
stream has left. -/
structure Transfer (K V : Type) where
  header : Region K
  index : Nat
  chunks : List (List (K × V))
  phase : Phase

/-- A reclamation past its gate: the region retired, the hosted regions the gate found in
its range, and whether the range has been cleared. -/
structure Reclaim (K : Type) where
  region : Region K
  overlaps : List Nat
  cleared : Bool
deriving DecidableEq, Repr

structure StoreState (K V : Type) [LinearOrder K] where
  disk : Disk K V
  /-- The durable state before each batch since the last sync, newest first: what a crash
  can fall back to. -/
  unsynced : List (Disk K V)
  regions : RegionMap K
  receiving : SortedMap Nat (Transfer K V)
  reclaims : SortedMap Nat (Reclaim K)

section Data

variable {K V : Type} [LinearOrder K] [OrderBot K]

/-- Deletes every key of the region's range, in every family. -/
def clearRange (data : K → Option V) (region : Region K) : K → Option V :=
  fun key => if region.contains key then none else data key

/-- What the pairs hold at `key`: the last one wins. -/
def bindings (pairs : List (K × V)) (key : K) : Option V :=
  (pairs.reverse.find? fun pair => decide (pair.1 = key)).map Prod.snd

def stagePairs (data : K → Option V) (pairs : List (K × V)) : K → Option V :=
  fun key => (bindings pairs key).or (data key)

variable {data : K → Option V} {region : Region K}

theorem clearRange_of_not_contains {key : K}
    (outside : region.contains key = false) : clearRange data region key = data key := by
  rw [clearRange, outside]
  rfl

theorem clearRange_of_contains {key : K}
    (inside : region.contains key = true) : clearRange data region key = none := by
  rw [clearRange, if_pos inside]

omit [OrderBot K] in
theorem stagePairs_of_not_mem {pairs : List (K × V)} {key : K}
    (absent : ∀ pair ∈ pairs, pair.1 ≠ key) : stagePairs data pairs key = data key := by
  have missing : pairs.reverse.find? (fun pair => decide (pair.1 = key)) = none := by
    rw [find?_eq_none]
    intro pair mem
    rw [decide_eq_true_eq]
    exact absent pair (mem_reverse.mp mem)
  rw [stagePairs, bindings, missing]
  rfl

end Data

variable {id : Nat}

namespace StoreState

variable {K V : Type} [LinearOrder K] [OrderBot K] (state : StoreState K V)

def write (disk : Disk K V) : StoreState K V :=
  { state with disk, unsynced := state.disk :: state.unsynced }

def sync (disk : Disk K V) : StoreState K V :=
  { state with disk, unsynced := [] }

/-- A header arrived for a region no receive is in flight for. A hosted region of that id is
retired first: its peer stops and it leaves the map, its records stay. -/
def startTransfer (header : Region K) (index : Nat)
    (chunks : List (List (K × V))) : StoreState K V :=
  match state.receiving.lookup header.id with
  | some _ => state
  | none =>
    { state with
      regions := state.regions.call (.remove header.id)
      receiving := state.receiving.insert header.id ⟨header, index, chunks, .opened⟩ }

/-- The receive of `id` where it stands in `phase`. -/
def transferIn (id : Nat) (phase : Phase) : Option (Transfer K V) :=
  (state.receiving.lookup id).filter fun transfer => transfer.phase = phase

def setTransfer (id : Nat) (transfer : Transfer K V) : StoreState K V :=
  { state with receiving := state.receiving.insert id transfer }

def announce (id : Nat) : StoreState K V :=
  match state.transferIn id .opened with
  | none => state
  | some transfer =>
    (state.sync { state.disk with
      pending := state.disk.pending.insert id transfer.header }).setTransfer id
        { transfer with phase := .announced }

def clear (id : Nat) : StoreState K V :=
  match state.transferIn id .announced with
  | none => state
  | some transfer =>
    (state.write { state.disk with
      data := clearRange state.disk.data transfer.header }).setTransfer id
        { transfer with phase := .filling }

def chunk (id : Nat) : StoreState K V :=
  match state.transferIn id .filling with
  | none => state
  | some transfer =>
    match transfer.chunks with
    | [] => state
    | pairs :: rest =>
      (state.write { state.disk with
        data := stagePairs state.disk.data pairs }).setTransfer id
          { transfer with chunks := rest }

/-- The adoption, once the stream is at its end: record, Raft state and the end of the
announcement in one synced batch. -/
def adopt (id : Nat) : StoreState K V :=
  match state.transferIn id .filling with
  | none => state
  | some transfer =>
    match transfer.chunks with
    | _ :: _ => state
    | [] =>
      (state.sync { state.disk with
        records := state.disk.records.insert id transfer.header
        applied := state.disk.applied.insert id transfer.index
        pending := state.disk.pending.erase id }).setTransfer id
          { transfer with phase := .adopted }

/-- Hosts what was adopted, and ends the receive whether the map takes it or not. -/
def host (id : Nat) : StoreState K V :=
  match state.transferIn id .adopted with
  | none => state
  | some transfer =>
    { state with
      regions := state.regions.call (.insert transfer.header)
      receiving := state.receiving.erase id }

def fail (id : Nat) : StoreState K V :=
  { state with receiving := state.receiving.erase id }

omit [OrderBot K] in
theorem mem_of_transferIn {state : StoreState K V} {phase : Phase}
    {transfer : Transfer K V} (found : state.transferIn id phase = some transfer) :
    (id, transfer) ∈ state.receiving ∧ transfer.phase = phase := by
  rw [transferIn, Option.filter_eq_some_iff] at found
  exact ⟨lookup_eq_some_iff.mp found.1, of_decide_eq_true found.2⟩

end StoreState

/-! ## What a receive touches -/

section Frame

variable {K V : Type} [LinearOrder K] [OrderBot K]

inductive ReceiveStep where
  | announce
  | clear
  | chunk
  | adopt
  | host
  | fail
deriving DecidableEq, Repr

def StoreState.receive (state : StoreState K V) (id : Nat) : ReceiveStep → StoreState K V
  | .announce => state.announce id
  | .clear => state.clear id
  | .chunk => state.chunk id
  | .adopt => state.adopt id
  | .host => state.host id
  | .fail => state.fail id

def Apart (left right : Region K) : Prop :=
  ∀ key, left.contains key = true → right.contains key = true → False

/-- A stream carries the keys of the region its header describes. -/
def StreamsOwn (header : Region K) (chunks : List (List (K × V))) : Prop :=
  ∀ pairs ∈ chunks, ∀ pair ∈ pairs, header.contains pair.1 = true

/-- The header shares no key with a hosted region of another id, nor with a receive in
flight. -/
structure HeaderFits (state : StoreState K V) (header : Region K) : Prop where
  hosted : ∀ id region, (id, region) ∈ state.regions.byId → id ≠ header.id → Apart header region
  receiving : ∀ id transfer, (id, transfer) ∈ state.receiving → id ≠ header.id →
    Apart header transfer.header

/-- What a store does while it receives: receives start, where their header fits, and take
their steps; hosted regions split, change their members and leave; and anything else is
written. -/
inductive TransferStep : StoreState K V → StoreState K V → Prop
  | start (state : StoreState K V) (header : Region K) (index : Nat)
      (chunks : List (List (K × V))) (own : StreamsOwn header chunks)
      (fits : HeaderFits state header) :
      TransferStep state (state.startTransfer header index chunks)
  | receive (state : StoreState K V) (id : Nat) (step : ReceiveStep) :
      TransferStep state (state.receive id step)
  | split (state : StoreState K V) (parent child : Region K)
      (wellFormed : (RegionMap.Call.applySplit parent child).WellFormed state.regions) :
      TransferStep state
        { state with regions := state.regions.call (.applySplit parent child) }
  | replace (state : StoreState K V) (region : Region K) :
      TransferStep state { state with regions := state.regions.call (.replace region) }
  | retire (state : StoreState K V) (id : Nat) :
      TransferStep state { state with regions := state.regions.call (.remove id) }
  | apply (state : StoreState K V) (disk : Disk K V) :
      TransferStep state (state.write disk)

/-- No receive's range shares a key with a hosted region or with another receive's. -/
structure ReceivesApart (state : StoreState K V) : Prop where
  filed : ∀ id transfer, (id, transfer) ∈ state.receiving → transfer.header.id = id
  own : ∀ id transfer, (id, transfer) ∈ state.receiving →
    StreamsOwn transfer.header transfer.chunks
  hosted : ∀ id transfer, (id, transfer) ∈ state.receiving →
    ∀ other region, (other, region) ∈ state.regions.byId → Apart transfer.header region
  others : ∀ id transfer other another, (id, transfer) ∈ state.receiving →
    (other, another) ∈ state.receiving → id ≠ other → Apart transfer.header another.header

/-- What a receive's step may write: a later phase with less of the stream, keys of the header's
range, and no record but the header's. -/
structure Moves (state written : StoreState K V) (transfer later : Transfer K V) : Prop where
  regions : written.regions = state.regions
  receiving : written.receiving = state.receiving
  reclaims : written.reclaims = state.reclaims
  retiring : written.disk.retiring = state.disk.retiring
  header : later.header = transfer.header
  chunks : ∀ pairs ∈ later.chunks, pairs ∈ transfer.chunks
  data : StreamsOwn transfer.header transfer.chunks → ∀ key,
    written.disk.data key ≠ state.disk.data key → transfer.header.contains key = true
  records : ∀ disk ∈ written.disk :: written.unsynced, ∀ entry ∈ disk.records,
    entry.2 = transfer.header ∨ ∃ image ∈ state.disk :: state.unsynced, entry ∈ image.records

/-- What one step of a receive can do. -/
inductive Received (state : StoreState K V) (id : Nat) : StoreState K V → Prop
  | idle : Received state id state
  | moves {transfer later : Transfer K V} {written : StoreState K V}
      (mem : (id, transfer) ∈ state.receiving) (moves : Moves state written transfer later) :
      Received state id (written.setTransfer id later)
  | hosts {transfer : Transfer K V} (mem : (id, transfer) ∈ state.receiving) :
      Received state id
        { state with
          regions := state.regions.call (.insert transfer.header)
          receiving := state.receiving.erase id }
  | ends : Received state id { state with receiving := state.receiving.erase id }

theorem StoreState.received (state : StoreState K V) (id : Nat) (step : ReceiveStep) :
    Received state id (state.receive id step) := by
  cases step with
  | announce =>
    rw [receive, announce]
    split
    · exact .idle
    rename_i transfer found
    refine .moves (mem_of_transferIn found).1
      ⟨rfl, rfl, rfl, rfl, rfl, fun _ same => same, fun _ _ changed => absurd rfl changed, ?_⟩
    intro disk isDisk entry recorded
    rw [mem_singleton.mp isDisk] at recorded
    exact Or.inr ⟨_, mem_cons_self, recorded⟩
  | clear =>
    rw [receive, clear]
    split
    · exact .idle
    rename_i transfer found
    refine .moves (mem_of_transferIn found).1
      ⟨rfl, rfl, rfl, rfl, rfl, fun _ same => same, fun _ key changed => ?_, ?_⟩
    · by_contra outside
      rw [Bool.not_eq_true] at outside
      exact changed (clearRange_of_not_contains outside)
    rintro disk (_ | ⟨_, older⟩) entry recorded
    · exact Or.inr ⟨_, mem_cons_self, recorded⟩
    · exact Or.inr ⟨disk, older, recorded⟩
  | chunk =>
    rw [receive, chunk]
    split
    · exact .idle
    rename_i transfer found
    split
    · exact .idle
    rename_i pairs rest left
    refine .moves (mem_of_transferIn found).1
      ⟨rfl, rfl, rfl, rfl, rfl, fun _ same => ?_, fun own key changed => ?_, ?_⟩
    · rw [left]
      exact mem_cons_of_mem _ same
    · by_contra outside
      apply changed
      refine stagePairs_of_not_mem ?_
      rintro pair pairMember rfl
      exact outside (own pairs (left ▸ mem_cons_self) pair pairMember)
    · rintro disk (_ | ⟨_, older⟩) entry recorded
      · exact Or.inr ⟨_, mem_cons_self, recorded⟩
      · exact Or.inr ⟨disk, older, recorded⟩
  | adopt =>
    rw [receive, adopt]
    split
    · exact .idle
    rename_i transfer found
    split
    · exact .idle
    refine .moves (mem_of_transferIn found).1
      ⟨rfl, rfl, rfl, rfl, rfl, fun _ same => same, fun _ _ changed => absurd rfl changed, ?_⟩
    rintro disk isDisk ⟨other, region⟩ recorded
    rw [mem_singleton.mp isDisk] at recorded
    rcases mem_insert.mp recorded with ⟨_, rfl⟩ | ⟨_, old⟩
    · exact Or.inl rfl
    · exact Or.inr ⟨_, mem_cons_self, old⟩
  | host =>
    rw [receive, host]
    split
    · exact .idle
    · rename_i transfer found
      exact .hosts (mem_of_transferIn found).1
  | fail => exact .ends

namespace ReceivesApart

variable {state : StoreState K V}

/-- The map may change as long as every region it has keeps to keys a region had. -/
theorem regions_call (apart : ReceivesApart state) {next : RegionMap.Call K}
    (wellFormed : next.WellFormed state.regions) (inserts : ∀ region, next ≠ .insert region) :
    ReceivesApart { state with regions := state.regions.call next } := by
  refine ⟨apart.filed, apart.own, ?_, apart.others⟩
  intro id transfer mem other region hosted key inside regionInside
  rcases RegionMap.origin_of_call wellFormed hosted with ⟨home, before, held, within⟩ | inserted
  · exact apart.hosted id transfer mem home before held key inside (within key regionInside)
  · exact inserts region inserted

section

variable (apart : ReceivesApart state)
include apart

theorem setTransfer {transfer : Transfer K V} (mem : (id, transfer) ∈ state.receiving)
    {written : StoreState K V} {later : Transfer K V} (moves : Moves state written transfer later) :
    ReceivesApart (written.setTransfer id later) := by
  have earlier : ∀ other current, (other, current) ∈ (written.setTransfer id later).receiving →
      ∃ before, (other, before) ∈ state.receiving ∧ before.header = current.header ∧
        ∀ pairs ∈ current.chunks, pairs ∈ before.chunks := by
    intro other current found
    rw [← moves.receiving] at mem ⊢
    rcases mem_insert.mp found with ⟨rfl, rfl⟩ | ⟨_, old⟩
    · exact ⟨transfer, mem, moves.header.symm, moves.chunks⟩
    · exact ⟨current, old, rfl, fun _ same => same⟩
  constructor
  case filed =>
    intro other current found
    obtain ⟨before, held, sameHeader, _⟩ := earlier other current found
    rw [← sameHeader]
    exact apart.filed other before held
  case own =>
    intro other current found pairs pairsMember
    obtain ⟨before, held, sameHeader, kept⟩ := earlier other current found
    rw [← sameHeader]
    exact apart.own other before held pairs (kept pairs pairsMember)
  case hosted =>
    intro other current found
    obtain ⟨before, held, sameHeader, _⟩ := earlier other current found
    rw [← sameHeader]
    have hosted := apart.hosted other before held
    rw [← moves.regions] at hosted
    exact hosted
  case others =>
    intro other current another further found furtherFound
    obtain ⟨before, held, sameHeader, _⟩ := earlier other current found
    obtain ⟨furtherBefore, furtherHeld, furtherSame, _⟩ := earlier another further furtherFound
    rw [← sameHeader, ← furtherSame]
    exact apart.others other before another furtherBefore held furtherHeld

theorem erase (id : Nat) : ReceivesApart { state with receiving := state.receiving.erase id } := by
  constructor
  case filed =>
    intro other current found
    exact apart.filed other current (mem_erase.mp found).2
  case own =>
    intro other current found
    exact apart.own other current (mem_erase.mp found).2
  case hosted =>
    intro other current found
    exact apart.hosted other current (mem_erase.mp found).2
  case others =>
    intro other current another further found furtherFound
    exact apart.others other current another further (mem_erase.mp found).2
      (mem_erase.mp furtherFound).2

theorem of_same {other : StoreState K V} (sameRegions : other.regions = state.regions)
    (sameReceiving : other.receiving = state.receiving) : ReceivesApart other := by
  constructor
  case filed =>
    rw [sameReceiving]
    exact apart.filed
  case own =>
    rw [sameReceiving]
    exact apart.own
  case hosted =>
    rw [sameReceiving, sameRegions]
    exact apart.hosted
  case others =>
    rw [sameReceiving]
    exact apart.others

theorem start {header : Region K} {index : Nat} {chunks : List (List (K × V))}
    (own : StreamsOwn header chunks) (fits : HeaderFits state header) :
    ReceivesApart (state.startTransfer header index chunks) := by
  rw [StoreState.startTransfer]
  cases found : state.receiving.lookup header.id with
  | some transfer => exact apart
  | none =>
    have unused := lookup_eq_none_iff.mp found
    have stays : ∀ other region, (other, region) ∈ (state.regions.call (.remove header.id)).byId →
        other ≠ header.id ∧ (other, region) ∈ state.regions.byId := by
      intro other region mem
      rw [RegionMap.call, RegionMap.remove.eq_def] at mem
      split at mem
      · rename_i missing
        refine ⟨?_, mem⟩
        rintro rfl
        exact lookup_eq_none_iff.mp missing region mem
      · exact mem_erase.mp mem
    constructor
    case filed => exact forall_insert rfl apart.filed
    case own => exact forall_insert own apart.own
    case hosted =>
      refine forall_insert (fun other region hosted => ?_) fun id transfer old other region hosted =>
        apart.hosted id transfer old other region (stays other region hosted).2
      exact fits.hosted other region (stays other region hosted).2 (stays other region hosted).1
    case others =>
      exact pairs_insert (fun apart key inside outside => apart key outside inside) apart.others
        fits.receiving

theorem host {transfer : Transfer K V} (mem : (id, transfer) ∈ state.receiving) :
    ReceivesApart { state with
      regions := state.regions.call (.insert transfer.header)
      receiving := state.receiving.erase id } := by
  have ended := apart.erase id
  refine ⟨ended.filed, ended.own, ?_, ended.others⟩
  intro other current currentMember home region hosted key inside regionInside
  obtain ⟨differs, held⟩ := mem_erase.mp currentMember
  by_cases isHeader : region = transfer.header
  · -- The region just hosted is apart from every other receive.
    rw [isHeader] at regionInside
    exact apart.others other current id transfer held mem differs key inside regionInside
  have stays : (home, region) ∈ state.regions.byId := by
    dsimp only at hosted
    rw [RegionMap.call.eq_def] at hosted
    dsimp only at hosted
    rw [RegionMap.insert.eq_def] at hosted
    split at hosted
    · exact hosted
    split at hosted
    · exact hosted
    rcases mem_insert.mp hosted with ⟨_, rfl⟩ | ⟨_, old⟩
    · exact absurd rfl isHeader
    · exact old
  exact apart.hosted other current held home region stays key inside regionInside

theorem receive (id : Nat) (step : ReceiveStep) : ReceivesApart (state.receive id step) := by
  have received := state.received id step
  generalize state.receive id step = next at received ⊢
  cases received with
  | idle => exact apart
  | moves mem moves => exact apart.setTransfer mem moves
  | hosts mem => exact apart.host mem
  | ends => exact apart.erase id

end

end ReceivesApart

theorem TransferStep.preserves {state next : StoreState K V} (step : TransferStep state next)
    (apart : ReceivesApart state) : ReceivesApart next := by
  cases step with
  | start header index chunks own fits => exact apart.start own fits
  | receive id step => exact apart.receive id step
  | split parent child wellFormed =>
    exact apart.regions_call wellFormed fun _ => by simp
  | replace | retire => exact apart.regions_call trivial fun _ => by simp
  | apply disk => exact apart.of_same rfl rfl

theorem StoreState.receive_data {state : StoreState K V} (apart : ReceivesApart state) (id : Nat)
    (step : ReceiveStep) {key : K}
    (changed : (state.receive id step).disk.data key ≠ state.disk.data key) :
    ∃ transfer, (id, transfer) ∈ state.receiving ∧ transfer.header.contains key = true := by
  have received := state.received id step
  generalize state.receive id step = next at changed received
  cases received with
  | moves mem moves => exact ⟨_, mem, moves.data (apart.own id _ mem) key changed⟩
  | idle | hosts | ends => exact absurd rfl changed

theorem TransferStep.run_apart {first state : StoreState K V}
    (idle : first.receiving = SortedMap.empty)
    (run : ReflTransGen TransferStep first state) : ReceivesApart state := by
  induction run with
  | refl =>
    have none : ∀ entry : Nat × Transfer K V, entry ∉ first.receiving := by
      rw [idle]
      exact not_mem_empty
    exact ⟨fun _ _ mem => absurd mem (none _), fun _ _ mem => absurd mem (none _),
      fun _ _ mem => absurd mem (none _), fun _ _ _ _ mem => absurd mem (none _)⟩
  | tail _ step ih => exact step.preserves ih

/-- In every run whose headers fit where they arrive, no step of a receive deletes or
writes a key of a hosted region of another id. -/
theorem receive_touches_no_other_region {first state : StoreState K V}
    (idle : first.receiving = SortedMap.empty)
    (run : ReflTransGen TransferStep first state) (id : Nat) (step : ReceiveStep)
    (key : K) (changed : (state.receive id step).disk.data key ≠ state.disk.data key)
    (region : Region K) (hosted : state.regions.Hosts region) (_other : region.id ≠ id) :
    region.contains key = false := by
  have apart := TransferStep.run_apart idle run
  obtain ⟨transfer, member, inside⟩ := StoreState.receive_data apart id step changed
  by_contra owned
  rw [Bool.not_eq_false] at owned
  exact apart.hosted id transfer member region.id region hosted key inside owned

end Frame

/-- A store that hosts the two halves of a split at `[5]`, with a key in each. -/
def splitStore : StoreState Bytes Bytes where
  disk :=
    { records := (oneRecord (plainRegion 1 [] [5])).insert 2 (plainRegion 2 [5] [])
      applied := (SortedMap.empty.insert 1 4).insert 2 0
      pending := SortedMap.empty
      retiring := SortedMap.empty
      data := fun key => if key = [3] ∨ key = [7] then some [1] else none }
  unsynced := []
  regions := RegionMap.empty.calls
    [.insert (plainRegion 1 [] [5]), .insert (plainRegion 2 [5] [])]
  receiving := SortedMap.empty
  reclaims := SortedMap.empty

theorem splitStore_hosted : splitStore.regions.byId.entries =
    [(1, plainRegion 1 [] [5]), (2, plainRegion 2 [5] [])] := by
  decide +kernel

/-- Receiving region 1 with the range it has here clears its own key `[3]`, which is not
the other region's. -/
theorem receive_clears_own_key :
    (((splitStore.startTransfer (plainRegion 1 [] [5]) 9 []).announce 1).receive 1
        .clear).disk.data [3] ≠
      ((splitStore.startTransfer (plainRegion 1 [] [5]) 9 []).announce 1).disk.data [3] ∧
      (plainRegion 2 [5] []).contains [3] = false := by
  have fits : HeaderFits splitStore (plainRegion 1 [] [5]) := by
    constructor
    case hosted =>
      intro id region member differs key inside regionInside
      rw [mem_def, splitStore_hosted] at member
      simp only [mem_cons, Prod.mk.injEq, not_mem_nil, or_false] at member
      rcases member with ⟨rfl, _⟩ | ⟨_, rfl⟩
      · exact absurd rfl differs
      · have below := (Region.contains_iff.mp inside).2.resolve_left (by decide)
        exact absurd (below.trans_le (Region.contains_iff.mp regionInside).1) (lt_irrefl _)
    case receiving =>
      intro id transfer member
      exact absurd member (not_mem_empty _)
  have run : ReflTransGen TransferStep splitStore
      ((splitStore.startTransfer (plainRegion 1 [] [5]) 9 []).announce 1) :=
    (ReflTransGen.refl.tail (TransferStep.start _ _ 9 []
      (fun _ member => absurd member not_mem_nil) fits)).tail
        (TransferStep.receive _ 1 .announce)
  have cleared : (((splitStore.startTransfer (plainRegion 1 [] [5]) 9 []).announce 1).receive 1
      .clear).disk.data [3] ≠
        ((splitStore.startTransfer (plainRegion 1 [] [5]) 9 []).announce 1).disk.data [3] := by
    decide +kernel
  refine ⟨cleared, receive_touches_no_other_region rfl run 1 .clear [3] cleared
    (plainRegion 2 [5] []) ?_ (by decide)⟩
  exact lookup_eq_some_iff.mp (by decide +kernel)

/-- Receiving region 1 with the range it had before the split clears the key `[7]` of
region 2, which the store hosts. -/
theorem receive_clears_child_key :
    ((splitStore.startTransfer (plainRegion 1 [] []) 9 []).announce 1).regions.byId.lookup 2 =
        some (plainRegion 2 [5] []) ∧
      (plainRegion 2 [5] []).contains [7] = true ∧
      ((splitStore.startTransfer (plainRegion 1 [] []) 9 []).announce 1).disk.data [7] =
        some [1] ∧
      (((splitStore.startTransfer (plainRegion 1 [] []) 9 []).announce 1).receive 1
        .clear).disk.data [7] = none := by
  decide +kernel

end Esker.Store
