import Esker.Pd.Routing

/-!
Contract: the state machine of the placement driver and the members that replicate it
(`esker-pd/src/machine.rs`, `stage_apply`, `compact` and `install` of `esker-pd/src/driver.rs`).

Owns: `Machine::apply` over what it reads and what it writes, the applies of a member, the snapshots
members offer and install, and when members at one index hold the same.

Does not own: how entries are committed. The log is the sequence of committed entries that every
member applies in order; an entry without a command does what taking office does, nothing.
-/

namespace Esker.Pd

open Esker.Runs
open Esker.Store (Region)
open List Function

structure StoreRecord (S : Type) where
  address : String
  startedMs : Nat
  lastHeartbeatMs : Nat
  stats : S
deriving DecidableEq

structure ClusterRecord where
  clusterId : Nat
  firstRegionId : Nat
  createdMs : Nat
deriving DecidableEq

inductive Command (S H W : Type) where
  | takeOffice
  | bootstrap (storeId : Nat) (address : String) (baseId clusterId nowMs : Nat)
  | reserveIds (last : Nat)
  | advanceTso (mark : Nat)
  | storeBeat (storeId : Nat) (stats : S) (nowMs : Nat)
  | regionBeat (record : RegionRecord)
  | columnar (wishes : W)
  | history (event : H)

/-- Everything `snapshot` would write. -/
structure Machine (S H W : Type) where
  cluster : Option ClusterRecord
  allocatedEnd : Nat
  highWaterMs : Nat
  history : List H
  columnar : W
  stores : SortedMap Nat (StoreRecord S)
  table : Table

variable {S H W : Type}

def historyCapacity : Nat := 64

/-- `HistoryRecord::push`: the oldest events make room. -/
def pushEvent (events : List H) (event : H) : List H :=
  (if historyCapacity ≤ events.length then events.drop (events.length - historyCapacity + 1)
    else events) ++ [event]

namespace Machine

variable [Inhabited S]

/-- `store_record`: a registering store keeps the stats it has reported. -/
def storeRecord (read : Machine S H W) (storeId : Nat) (address : String) (nowMs : Nat) :
    StoreRecord S :=
  ⟨address, nowMs, nowMs, ((read.stores.lookup storeId).map (·.stats)).getD default⟩

/-- `apply`. Store and region records are read from the database, everything else from the mirrors
in memory, which are ahead of it by the entries of the same batch. -/
def apply (read state : Machine S H W) : Command S H W → Machine S H W
  | .takeOffice => state
  | .bootstrap storeId address baseId clusterId nowMs =>
    let stores := state.stores.insert storeId (read.storeRecord storeId address nowMs)
    match state.cluster with
    | some _ => { state with stores }
    | none =>
      { state with
        cluster := some ⟨clusterId, baseId, nowMs⟩
        stores
        table := state.table.stageRegion
          (.new (.bootstrap baseId storeId (baseId + 1)) nowMs) none }
  | .reserveIds last => { state with allocatedEnd := max state.allocatedEnd last }
  | .advanceTso mark => { state with highWaterMs := max state.highWaterMs mark }
  | .storeBeat storeId stats nowMs =>
    match read.stores.lookup storeId with
    | none => state
    | some existing =>
      let record := { existing with stats, lastHeartbeatMs := nowMs }
      { state with stores := state.stores.insert storeId record }
  | .regionBeat record => { state with table := state.table.beat record read.table }
  | .columnar wishes => { state with columnar := wishes }
  | .history event => { state with history := pushEvent state.history event }

/-- The entries of a `Ready` that sends nothing are applied in one batch. -/
def applyBatch (state : Machine S H W) (commands : List (Command S H W)) : Machine S H W :=
  commands.foldl (fun after command => state.apply after command) state

def applyEach (state : Machine S H W) (commands : List (Command S H W)) : Machine S H W :=
  commands.foldl (fun after command => after.apply after command) state

end Machine

namespace Command

def store? : Command S H W → Option Nat
  | .bootstrap storeId _ _ _ _ | .storeBeat storeId _ _ => some storeId
  | _ => none

def regionRead? : Command S H W → Option Nat
  | .regionBeat record => some record.region.id
  | _ => none

def regionWritten? : Command S H W → Option Nat
  | .regionBeat record => some record.region.id
  | .bootstrap _ _ baseId _ _ => some baseId
  | _ => none

/-- The later command reads no record that the earlier one writes. -/
def Misses (earlier later : Command S H W) : Prop :=
  (∀ id, earlier.store? = some id → later.store? ≠ some id) ∧
    ∀ id, earlier.regionWritten? = some id → later.regionRead? ≠ some id

end Command

section Batches

variable [Inhabited S]

/-- The records a command reads are in the database as they are in the state. -/
def Machine.Fresh (read state : Machine S H W) (command : Command S H W) : Prop :=
  (∀ id, command.store? = some id → read.stores.lookup id = state.stores.lookup id) ∧
    ∀ id, command.regionRead? = some id →
      read.table.records.lookup id = state.table.records.lookup id

theorem Machine.apply_of_fresh {read state : Machine S H W} {command : Command S H W}
    (fresh : read.Fresh state command) : read.apply state command = state.apply state command := by
  obtain ⟨store, region⟩ := fresh
  cases command with
  | bootstrap storeId address baseId clusterId nowMs =>
    rw [apply, apply, storeRecord, storeRecord, store storeId rfl]
  | storeBeat storeId stats nowMs => rw [apply, apply, store storeId rfl]
  | regionBeat record =>
    rw [apply, apply, Table.beat, Table.beat, Table.takes, Table.takes, region _ rfl]
  | _ => rfl

theorem Machine.apply_keeps (read state : Machine S H W) (command : Command S H W) :
    (∀ id, command.store? ≠ some id →
      (read.apply state command).stores.lookup id = state.stores.lookup id) ∧
    ∀ id, command.regionWritten? ≠ some id →
      (read.apply state command).table.records.lookup id = state.table.records.lookup id := by
  have other {id own : Nat} (differs : some own ≠ some id) : id ≠ own := fun same =>
    differs (congrArg some same.symm)
  cases command with
  | bootstrap storeId address baseId clusterId nowMs =>
    rw [apply]
    cases state.cluster with
    | none => exact ⟨fun _ differs => SortedMap.lookup_insert_of_ne _ _ (other differs),
        fun _ differs => SortedMap.lookup_insert_of_ne _ _ (other differs)⟩
    | some _ => exact ⟨fun _ differs => SortedMap.lookup_insert_of_ne _ _ (other differs),
        fun _ _ => rfl⟩
  | storeBeat storeId stats nowMs =>
    rw [apply]
    cases read.stores.lookup storeId with
    | none => exact ⟨fun _ _ => rfl, fun _ _ => rfl⟩
    | some _ => exact ⟨fun _ differs => SortedMap.lookup_insert_of_ne _ _ (other differs),
        fun _ _ => rfl⟩
  | regionBeat record =>
    rw [apply, Table.beat]
    split_ifs
    · exact ⟨fun _ _ => rfl, fun _ differs => SortedMap.lookup_insert_of_ne _ _ (other differs)⟩
    · exact ⟨fun _ _ => rfl, fun _ _ => rfl⟩
  | _ => exact ⟨fun _ _ => rfl, fun _ _ => rfl⟩

/-- A batch whose entries read nothing that the batch wrote does what its entries do one by one. -/
theorem Machine.applyBatch_eq_applyEach {state : Machine S H W} {commands : List (Command S H W)}
    (misses : commands.Pairwise Command.Misses) :
    state.applyBatch commands = state.applyEach commands := by
  unfold applyBatch applyEach
  have general : ∀ after : Machine S H W, (∀ command ∈ commands, state.Fresh after command) →
      commands.foldl (fun after command => state.apply after command) after =
        commands.foldl (fun after command => after.apply after command) after := by
    induction commands with
    | nil => exact fun _ _ => rfl
    | cons command rest ih =>
      intro after fresh
      rw [pairwise_cons] at misses
      rw [forall_mem_cons] at fresh
      rw [foldl_cons, foldl_cons, apply_of_fresh fresh.1]
      apply ih misses.2
      intro later member
      obtain ⟨stores, regions⟩ := apply_keeps after after command
      constructor
      · intro id reads
        rw [stores id fun wrote => (misses.1 later member).1 id wrote reads]
        exact (fresh.2 later member).1 id reads
      intro id reads
      rw [regions id fun wrote => (misses.1 later member).2 id wrote reads]
      exact (fresh.2 later member).2 id reads
  exact general state fun _ _ => ⟨fun _ _ => rfl, fun _ _ => rfl⟩

/-! ## Heartbeats -/

/-- The heartbeats of one `Ready` are applied. -/
def Machine.hear (state : Machine S H W) (beats : List RegionRecord) : Machine S H W :=
  state.applyBatch (beats.map .regionBeat)

theorem Machine.table_hear (state : Machine S H W) (beats : List RegionRecord) :
    (state.hear beats).table = state.table.beatAll beats := by
  have general : ∀ after : Machine S H W, ((beats.map .regionBeat).foldl
      (fun after command => state.apply after command) after).table =
        beats.foldl (fun table record => table.beat record state.table) after.table := by
    induction beats with
    | nil => exact fun _ => rfl
    | cons beat rest ih => exact fun after => ih _
  exact general state

/-- Along a run of batches of heartbeats, none of which takes two of one region, the index stays
that of the records and answers as it should exactly when every heartbeat that is taken names an end
that no other record has. -/
theorem Machine.routing_sound_iff {machine : Machine S H W} (sound : machine.table.Sound)
    {batches : List (List RegionRecord)}
    (once : Meets hear (fun machine beats => machine.table.Once beats) machine batches) :
    Along hear (fun machine => machine.table.Sound) machine batches ↔
      Meets hear (fun machine beats => machine.table.Clear beats) machine batches := by
  induction batches generalizing machine with
  | nil => exact ⟨fun _ => trivial, fun _ => sound⟩
  | cons beats rest ih =>
    have here : (machine.hear beats).table.Sound ↔ machine.table.Clear beats := by
      rw [table_hear]
      exact Table.sound_beatAll sound once.1
    constructor
    · intro along
      have next := along.2.start
      exact ⟨here.mp next, (ih next once.2).mp along.2⟩
    · intro meets
      exact ⟨sound, (ih (here.mpr meets.1) once.2).mpr meets.2⟩

/-- A machine that holds nothing yet. -/
def blank : Machine Unit Nat Unit := ⟨none, 0, 0, [], (), SortedMap.empty, Table.empty⟩

/-- A region of the whole key space, and the two regions that it becomes. -/
def wholeRegion : RegionRecord := ⟨⟨1, [], [], [], ⟨1, 1⟩⟩, 1, 1, 0, 0, 0⟩

def splitParent : RegionRecord := ⟨⟨1, [], [7], [], ⟨1, 2⟩⟩, 1, 1, 0, 0, 0⟩

def splitChild : RegionRecord := ⟨⟨2, [7], [], [], ⟨1, 2⟩⟩, 2, 1, 0, 0, 0⟩

/-- The parent's heartbeat comes before the child's, in one batch. -/
theorem split_indexed : Along Machine.hear (fun machine => machine.table.Sound) blank
    [[wholeRegion], [splitParent, splitChild]] := by
  apply (Machine.routing_sound_iff Table.sound_empty ?_).mpr
  · refine ⟨⟨?_, trivial⟩, ⟨?_, ?_, trivial⟩, trivial⟩
    · intro id other found
      cases found
    · intro id other found differs
      obtain ⟨rfl, rfl⟩ := Prod.mk.inj (mem_singleton.mp (SortedMap.lookup_eq_some_iff.mp found))
      exact absurd rfl differs
    · intro id other found differs
      obtain ⟨rfl, rfl⟩ := Prod.mk.inj (mem_singleton.mp (SortedMap.lookup_eq_some_iff.mp found))
      decide
  · exact ⟨nodup_singleton _, by unfold Table.Once; decide, trivial⟩

/-- The child's heartbeat comes first, and the parent's then takes the child's entry away. -/
theorem child_entry_lost : ¬Along Machine.hear (fun machine => machine.table.Sound) blank
    [[wholeRegion], [splitChild], [splitParent]] := by
  intro along
  have entry := along.2.2.2.1.named 2 splitChild (by decide)
  exact absurd entry (by decide)

end Batches

/-! ## The group -/

/-- A member: what its machine holds, and the indexes of its log. -/
structure Member (S H W : Type) where
  machine : Machine S H W
  applied : Nat
  truncated : Nat

/-- The members, and every snapshot one of them has offered. -/
structure Group (S H W : Type) where
  member : Nat → Member S H W
  offered : List (Nat × Machine S H W)

/-- What a leader knows of a member: how far its log matches, and the snapshot on its way. -/
structure Position where
  id : Nat
  matched : Nat
  pendingSnapshot : Nat
deriving DecidableEq, Repr

/-- What a member sees of the others when it compacts: a leader sees their positions, another
member sees none and knows the number of voters. -/
structure Outlook where
  progress : List Position
  voters : Nat
deriving DecidableEq, Repr

def compactThreshold : Nat := 4096

def slowMemberAllowance : Nat := 1024

/-- The index that `compact` goes up to. -/
def compactTarget (own applied : Nat) (outlook : Outlook) : Nat :=
  if outlook.progress = [] then
    if 1 < outlook.voters then min applied (applied - slowMemberAllowance) else applied
  else
    outlook.progress.foldl (fun target peer =>
      if peer.id = own then target
      else if applied - max peer.matched peer.pendingSnapshot ≤ slowMemberAllowance then
        min target (max peer.matched peer.pendingSnapshot)
      else target) applied

inductive GroupEvent where
  | apply (member count : Nat)
  /-- A member that has applied enough drops its log up to an index, and offers what it holds as
  the snapshot there. -/
  | compact (member : Nat) (outlook : Outlook)
  /-- A member that has not come as far installs a snapshot that was offered. -/
  | install (member position : Nat)

variable [Inhabited S]

def entriesFrom (log : Nat → Command S H W) (index count : Nat) : List (Command S H W) :=
  (List.range' (index + 1) count).map log

namespace Group

variable (log : Nat → Command S H W) (group : Group S H W)

/-- One event; one that cannot happen changes nothing. A restart finds the machine and the applied
index as they were written, in one batch. -/
def step : GroupEvent → Group S H W
  | .apply id count =>
    let held := group.member id
    let machine := held.machine.applyBatch (entriesFrom log held.applied count)
    let next := ⟨machine, held.applied + count, held.truncated⟩
    { group with member := update group.member id next }
  | .compact id outlook =>
    let held := group.member id
    let target := compactTarget id held.applied outlook
    if held.applied - held.truncated < compactThreshold then group
    else if target ≤ held.truncated then group
    else
      ⟨update group.member id { held with truncated := target },
        group.offered ++ [(target, held.machine)]⟩
  | .install id position =>
    match group.offered[position]? with
    | none => group
    | some (index, machine) =>
      if (group.member id).applied < index then
        { group with member := update group.member id ⟨machine, index, index⟩ }
      else group

def Agrees : Prop :=
  ∀ id other, (group.member id).applied = (group.member other).applied →
    (group.member id).machine = (group.member other).machine

/-- Nobody holds a compaction back: each member that the leader sees has come as far as it has
applied or is too slow to be waited for, and a member that sees none is the only voter. -/
def Unhindered (own applied : Nat) (outlook : Outlook) : Prop :=
  (outlook.progress = [] → outlook.voters ≤ 1) ∧
    ∀ peer ∈ outlook.progress, peer.id ≠ own →
      applied ≤ max peer.matched peer.pendingSnapshot ∨
        slowMemberAllowance < applied - max peer.matched peer.pendingSnapshot

/-- A batch reads nothing it has written, and a compaction that takes place is not held back. -/
def Labelled : GroupEvent → Prop
  | .apply id count =>
    (entriesFrom log (group.member id).applied count).Pairwise Command.Misses
  | .compact id outlook =>
    compactThreshold ≤ (group.member id).applied - (group.member id).truncated →
      Unhindered id (group.member id).applied outlook
  | .install _ _ => True

theorem compactTarget_of_unhindered {own applied : Nat} {outlook : Outlook}
    (unhindered : Unhindered own applied outlook) : compactTarget own applied outlook = applied := by
  obtain ⟨alone, ahead⟩ := unhindered
  unfold compactTarget
  split_ifs with unseen several
  · exact absurd (alone unseen) (not_le.mpr several)
  · rfl
  · clear alone unseen
    generalize outlook.progress = peers at ahead ⊢
    induction peers with
    | nil => rfl
    | cons peer rest ih =>
      rw [forall_mem_cons] at ahead
      rw [foldl_cons]
      split_ifs with isOwn near
      · exact ih ahead.2
      · have reached := (ahead.1 isOwn).resolve_right (not_lt.mpr near)
        rw [min_eq_left reached]
        exact ih ahead.2
      · exact ih ahead.2

variable (origin : Machine S H W)

/-- What the entries up to an index make of the machine the group starts with. -/
def replayed (index : Nat) : Machine S H W :=
  origin.applyEach (entriesFrom log 0 index)

/-- Members hold what their index says, and so do the snapshots. -/
structure Replayed (log : Nat → Command S H W) (origin : Machine S H W) (group : Group S H W) :
    Prop where
  members : ∀ id, (group.member id).machine = replayed log origin (group.member id).applied
  offered : ∀ snapshot ∈ group.offered, snapshot.2 = replayed log origin snapshot.1

theorem replayed_add (index count : Nat) :
    (replayed log origin index).applyEach (entriesFrom log index count) =
      replayed log origin (index + count) := by
  unfold replayed Machine.applyEach entriesFrom
  rw [← foldl_append, ← map_append, Nat.add_comm index 1, Nat.zero_add, range'_append_1]

theorem Replayed.step {log : Nat → Command S H W} {origin : Machine S H W} {group : Group S H W}
    {event : GroupEvent} (held : group.Replayed log origin)
    (labelled : group.Labelled log event) : (group.step log event).Replayed log origin := by
  have update {id : Nat} {next : Member S H W} (isNext : next.machine =
      replayed log origin next.applied) (other : Nat) :
      (update group.member id next other).machine =
        replayed log origin (update group.member id next other).applied := by
    by_cases same : other = id
    · rw [same, update_self, isNext]
    · rw [update_of_ne same]
      exact held.members other
  cases event with
  | apply id count =>
    refine ⟨update ?_, held.offered⟩
    dsimp only
    rw [Machine.applyBatch_eq_applyEach labelled, held.members id, replayed_add]
  | compact id outlook =>
    rw [Group.step]
    split_ifs with few
    · exact held
    · exact held
    · refine ⟨update (held.members id), fun snapshot member => ?_⟩
      rcases mem_append.mp member with old | new
      · exact held.offered snapshot old
      · rw [mem_singleton.mp new, compactTarget_of_unhindered (labelled (not_lt.mp few))]
        exact held.members id
  | install id position =>
    rw [Group.step]
    cases found : group.offered[position]? with
    | none => exact held
    | some snapshot =>
      dsimp only
      split_ifs
      · exact ⟨update (held.offered snapshot (mem_of_getElem? found)), held.offered⟩
      · exact held

def initial : Group S H W := ⟨fun _ => ⟨origin, 0, 0⟩, []⟩

/-- The oracle's mark is raised by every entry but the last, which tells an event. -/
def marksAndEvent (index : Nat) : Command Unit Nat Unit :=
  if index = 4097 then .history 0 else .advanceTso index

theorem misses_marksAndEvent (first second : Nat) :
    (marksAndEvent first).Misses (marksAndEvent second) := by
  unfold marksAndEvent Command.Misses
  split_ifs <;> exact ⟨fun _ found => (by cases found), fun _ found => by cases found⟩

theorem history_marks (machine : Machine Unit Nat Unit) (count : Nat) (below : count ≤ 4096) :
    (machine.applyBatch (entriesFrom marksAndEvent 0 count)).history = machine.history := by
  have marks : ∀ command ∈ entriesFrom marksAndEvent 0 count, ∃ mark,
      command = .advanceTso mark := by
    intro command member
    obtain ⟨index, inside, rfl⟩ := mem_map.mp member
    rw [mem_range'_1] at inside
    exact ⟨index, if_neg (by omega)⟩
  have general : ∀ after : Machine Unit Nat Unit, ((entriesFrom marksAndEvent 0 count).foldl
      (fun after command => machine.apply after command) after).history = after.history := by
    generalize entriesFrom marksAndEvent 0 count = commands at marks
    induction commands with
    | nil => exact fun _ => rfl
    | cons command rest ih =>
      rw [forall_mem_cons] at marks
      obtain ⟨mark, rfl⟩ := marks.1
      exact fun after => ih marks.2 _
  exact general machine

end Group

end Esker.Pd
