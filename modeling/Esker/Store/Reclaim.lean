import Esker.Store.Reopen

/-!
Contract: retiring a region and reclaiming its range (`Store::retire_region`,
`reclaim_retired_range`, `finish_retirement` and `reclaim_interrupted_retirements` in
`esker-store/src/server.rs`, `destroy` in `esker-store/src/raft_log.rs`).

Owns: the destroy batch with its announcement, the gate over the region map, the delete and
the end of the announcement as steps of their own, and which keys a reclamation deletes
when the rest of the store runs between them.

Does not own: why a region is retired. A removal that applied and an orphan found by the
sweep differ only in the membership they are judged by.
-/

namespace Esker.Store

open Esker.Consensus (Bytes)
open Esker.KeyRange List SortedMap

variable {K V : Type} [LinearOrder K] [OrderBot K]

/-! ## The steps of a retirement -/

/-- The first gate: a region is announced for reclamation unless the membership it is
judged by still names a peer on this store. -/
def retirementAnnounced (storeId : Nat) (region : Region K) (membership : Option (Region K)) :
    Option (Region K) :=
  if (membership.getD region).peers.any fun peer => decide (peer.storeId = storeId) then none
  else some region

namespace StoreState

variable (state : StoreState K V)

/-- The destroy batch: the region's records go and the announcement comes, in one synced
write. -/
def destroy (storeId : Nat) (region : Region K) (membership : Option (Region K)) : StoreState K V :=
  state.sync { state.disk with
    records := state.disk.records.erase region.id
    applied := state.disk.applied.erase region.id
    pending := state.disk.pending.erase region.id
    retiring := match retirementAnnounced storeId region membership with
      | none => state.disk.retiring
      | some announced => state.disk.retiring.insert region.id announced }

/-- The second gate: the hosted regions in the range, as the map stands now. -/
def gate (region : Region K) : StoreState K V :=
  let overlaps := (state.regions.overlapping region.startKey region.endKey).map Region.id
  { state with reclaims := state.reclaims.insert region.id ⟨region, overlaps, false⟩ }

/-- The delete, on its own thread: only where the gate found nothing. -/
def clearReclaim (id : Nat) : StoreState K V :=
  match state.reclaims.lookup id with
  | none => state
  | some reclaim =>
    if reclaim.overlaps = [] then
      { state.sync { state.disk with data := clearRange state.disk.data reclaim.region } with
        reclaims := state.reclaims.insert id { reclaim with cleared := true } }
    else state

/-- The end of the announcement: where the gate found a region, or the range was cleared. -/
def forget (id : Nat) : StoreState K V :=
  match state.reclaims.lookup id with
  | none => state
  | some reclaim =>
    if reclaim.overlaps ≠ [] ∨ reclaim.cleared = true then
      { state.sync { state.disk with retiring := state.disk.retiring.erase id } with
        reclaims := state.reclaims.erase id }
    else state

/-- A delete that failed: the announcement stays for the next open. -/
def abandon (id : Nat) : StoreState K V :=
  { state with reclaims := state.reclaims.erase id }

end StoreState

/-! ## Runs -/

/-- What runs beside a reclamation. A receive starts only if its header shares no key with
a range being reclaimed, and replaces no region a gate has counted on; such a region is not
split or retired either. A gate is passed only if no receive in flight shares a key with the
range, only once at a time for one region, and finds regions in the range only if one of
them covers it. A region is not retired again while its reclamation runs. -/
inductive ReclaimStep : StoreState K V → StoreState K V → Prop
  | start (state : StoreState K V) (header : Region K) (index : Nat)
      (chunks : List (List (K × V))) (proper : header.ProperRange)
      (own : StreamsOwn header chunks)
      (clear : ∀ id reclaim, (id, reclaim) ∈ state.reclaims → Apart reclaim.region header)
      (uncounted : ∀ id reclaim, (id, reclaim) ∈ state.reclaims → header.id ∉ reclaim.overlaps) :
      ReclaimStep state (state.startTransfer header index chunks)
  | receive (state : StoreState K V) (id : Nat) (step : ReceiveStep) :
      ReclaimStep state (state.receive id step)
  | split (state : StoreState K V) (parent child : Region K)
      (wellFormed : (RegionMap.Call.applySplit parent child).WellFormed state.regions)
      (uncounted : ∀ id reclaim, (id, reclaim) ∈ state.reclaims → parent.id ∉ reclaim.overlaps) :
      ReclaimStep state { state with regions := state.regions.call (.applySplit parent child) }
  | replace (state : StoreState K V) (region : Region K) :
      ReclaimStep state { state with regions := state.regions.call (.replace region) }
  | retire (state : StoreState K V) (id : Nat)
      (uncounted : ∀ other reclaim, (other, reclaim) ∈ state.reclaims → id ∉ reclaim.overlaps) :
      ReclaimStep state { state with regions := state.regions.call (.remove id) }
  | destroy (state : StoreState K V) (storeId : Nat) (region : Region K)
      (membership : Option (Region K)) (once : state.reclaims.lookup region.id = none) :
      ReclaimStep state (state.destroy storeId region membership)
  | gate (state : StoreState K V) (region : Region K) (proper : region.ProperRange)
      (announced : (region.id, region) ∈ state.disk.retiring)
      (once : state.reclaims.lookup region.id = none)
      (clear : ∀ id transfer, (id, transfer) ∈ state.receiving → Apart region transfer.header)
      (covered : state.regions.overlapping region.startKey region.endKey ≠ [] →
        ∃ cover ∈ state.regions.overlapping region.startKey region.endKey,
          ∀ key, region.contains key = true → cover.contains key = true) :
      ReclaimStep state (state.gate region)
  | clearReclaim (state : StoreState K V) (id : Nat) :
      ReclaimStep state (state.clearReclaim id)
  | forget (state : StoreState K V) (id : Nat) : ReclaimStep state (state.forget id)
  | abandon (state : StoreState K V) (id : Nat) : ReclaimStep state (state.abandon id)
  | apply (state : StoreState K V) (disk : Disk K V)
      (owned : ∀ key, disk.data key ≠ state.disk.data key →
        ∃ id region, (id, region) ∈ state.regions.byId ∧ region.contains key = true)
      (sameRetiring : disk.retiring = state.disk.retiring)
      (proper : ∀ id region, (id, region) ∈ disk.records → region.ProperRange) :
      ReclaimStep state (state.write disk)
  | reopen (state : StoreState K V) (disk : Disk K V)
      (found : disk ∈ state.disk :: state.unsynced) : ReclaimStep state (openStore disk)

/-! ## The invariant -/

/-- A reclamation that may still delete: nothing hosted or received shares a key with its
range, and once cleared the range is empty. -/
structure ReclaimOpen (state : StoreState K V) (reclaim : Reclaim K) : Prop where
  hosted : ∀ id region, (id, region) ∈ state.regions.byId → Apart reclaim.region region
  empty : reclaim.cleared = true → ∀ key, reclaim.region.contains key = true →
    state.disk.data key = none

def ReclaimCovered (state : StoreState K V) (reclaim : Reclaim K) : Prop :=
  ∃ id region, (id, region) ∈ state.regions.byId ∧ id ∈ reclaim.overlaps ∧
    ∀ key, reclaim.region.contains key = true → region.contains key = true

structure ReclaimInvariant (state : StoreState K V) : Prop where
  valid : state.regions.Valid
  headers : ∀ id transfer, (id, transfer) ∈ state.receiving →
    transfer.header.ProperRange ∧ StreamsOwn transfer.header transfer.chunks
  records : ∀ disk ∈ state.disk :: state.unsynced,
    ∀ id region, (id, region) ∈ disk.records → region.ProperRange
  filed : ∀ id reclaim, (id, reclaim) ∈ state.reclaims → reclaim.region.id = id
  announced : ∀ id reclaim, (id, reclaim) ∈ state.reclaims →
    (id, reclaim.region) ∈ state.disk.retiring
  receiving : ∀ id reclaim, (id, reclaim) ∈ state.reclaims →
    ∀ other transfer, (other, transfer) ∈ state.receiving → Apart reclaim.region transfer.header
  opens : ∀ id reclaim, (id, reclaim) ∈ state.reclaims → reclaim.overlaps = [] →
    ReclaimOpen state reclaim
  covered : ∀ id reclaim, (id, reclaim) ∈ state.reclaims → reclaim.overlaps ≠ [] →
    ReclaimCovered state reclaim

namespace ReclaimInvariant

variable {state next : StoreState K V}

/-- What the rest of a store may do beside its reclamations: its regions and receives keep
to ranges it already has, its writes to keys of those, and the regions a gate counted
stay. -/
theorem beside (inv : ReclaimInvariant state) (valid : next.regions.Valid)
    (sameReclaims : next.reclaims = state.reclaims)
    (records : ∀ disk ∈ next.disk :: next.unsynced,
      ∀ id region, (id, region) ∈ disk.records → region.ProperRange)
    (retiring : ∀ id reclaim, (id, reclaim) ∈ state.reclaims →
      (id, reclaim.region) ∈ state.disk.retiring → (id, reclaim.region) ∈ next.disk.retiring)
    (headers : ∀ id transfer, (id, transfer) ∈ next.receiving →
      (transfer.header.ProperRange ∧ StreamsOwn transfer.header transfer.chunks) ∧
        ∀ home reclaim, (home, reclaim) ∈ state.reclaims → Apart reclaim.region transfer.header)
    (regions : ∀ id region, (id, region) ∈ next.regions.byId →
      (∃ other before, (other, before) ∈ state.regions.byId ∧
        ∀ key, region.contains key = true → before.contains key = true) ∨
      ∃ other transfer, (other, transfer) ∈ state.receiving ∧ region = transfer.header)
    (data : ∀ key, next.disk.data key ≠ state.disk.data key →
      (∃ id region, (id, region) ∈ state.regions.byId ∧ region.contains key = true) ∨
      ∃ id transfer, (id, transfer) ∈ state.receiving ∧ transfer.header.contains key = true)
    (counted : ∀ home reclaim, (home, reclaim) ∈ state.reclaims → ∀ id region,
      (id, region) ∈ state.regions.byId → id ∈ reclaim.overlaps →
      ∃ after, (id, after) ∈ next.regions.byId ∧ ∀ key, after.contains key = region.contains key) :
    ReclaimInvariant next := by
  refine ⟨valid, fun id transfer mem => (headers id transfer mem).1, records, ?_, ?_, ?_,
    ?_, ?_⟩ <;> rw [sameReclaims]
  · exact inv.filed
  · intro id reclaim mem
    exact retiring id reclaim mem (inv.announced id reclaim mem)
  · intro id reclaim mem other transfer found
    exact (headers other transfer found).2 id reclaim mem
  · intro id reclaim mem uncounted
    have opens := inv.opens id reclaim mem uncounted
    have received := inv.receiving id reclaim mem
    constructor
    case hosted =>
      intro other region hosted key inside regionInside
      rcases regions other region hosted with ⟨home, before, held, within⟩ |
        ⟨home, transfer, found, rfl⟩
      · exact opens.hosted home before held key inside (within key regionInside)
      · exact received home transfer found key inside regionInside
    case empty =>
      intro cleared key inside
      rw [← opens.empty cleared key inside]
      by_contra changed
      rcases data key changed with ⟨home, region, held, owned⟩ | ⟨home, transfer, found, owned⟩
      · exact opens.hosted home region held key inside owned
      · exact received home transfer found key inside owned
  · intro id reclaim mem overlapped
    obtain ⟨home, region, held, listed, covers⟩ := inv.covered id reclaim mem overlapped
    obtain ⟨after, stays, same⟩ := counted id reclaim mem home region held listed
    refine ⟨home, after, stays, listed, ?_⟩
    intro key inside
    rw [same]
    exact covers key inside

theorem headers_own (inv : ReclaimInvariant state) {id : Nat} {transfer : Transfer K V}
    (mem : (id, transfer) ∈ state.receiving) :
    (transfer.header.ProperRange ∧ StreamsOwn transfer.header transfer.chunks) ∧
      ∀ home reclaim, (home, reclaim) ∈ state.reclaims → Apart reclaim.region transfer.header :=
  ⟨inv.headers id transfer mem,
    fun home reclaim found => inv.receiving home reclaim found id transfer mem⟩

theorem regions_call (inv : ReclaimInvariant state) {change : RegionMap.Call K}
    (wellFormed : change.WellFormed state.regions) (inserts : ∀ region, change ≠ .insert region)
    (uncounted : ∀ home reclaim, (home, reclaim) ∈ state.reclaims →
      ∀ id ∈ reclaim.overlaps, change.target ≠ some id) :
    ReclaimInvariant { state with regions := state.regions.call change } := by
  refine inv.beside (inv.valid.call wellFormed) rfl inv.records
    (fun _ _ _ held => held) (fun _ _ mem => inv.headers_own mem) ?_
    (fun _ changed => absurd rfl changed) ?_
  · intro id region mem
    rcases RegionMap.origin_of_call wellFormed mem with origin | inserted
    · exact Or.inl origin
    · exact absurd inserted (inserts region)
  · intro home reclaim found id region mem listed
    exact RegionMap.call_keeps mem (uncounted home reclaim found id listed)

section

variable (inv : ReclaimInvariant state)
include inv

theorem setTransfer {id : Nat} {transfer : Transfer K V} (mem : (id, transfer) ∈ state.receiving)
    {written : StoreState K V} {later : Transfer K V} (moves : Moves state written transfer later) :
    ReclaimInvariant (written.setTransfer id later) := by
  have valid := inv.valid
  obtain ⟨⟨proper, own⟩, apart⟩ := inv.headers_own mem
  rw [← moves.regions] at valid
  refine inv.beside valid moves.reclaims ?_ ?_ ?_ ?_ ?_ ?_
  · intro disk isDisk other region recorded
    rcases moves.records disk isDisk _ recorded with isHeader | ⟨image, isImage, old⟩
    · cases isHeader
      exact proper
    · exact inv.records image isImage other region old
  · intro home reclaim _ held
    exact moves.retiring ▸ held
  · intro other current found
    rcases mem_insert.mp found with ⟨rfl, rfl⟩ | ⟨_, old⟩
    · rw [moves.header]
      exact ⟨⟨proper, fun pairs left => own pairs (moves.chunks pairs left)⟩, apart⟩
    · rw [moves.receiving] at old
      exact inv.headers_own old
  · exact fun _ _ hosted => .inl ⟨_, _, moves.regions ▸ hosted, fun _ inside => inside⟩
  · intro key changed
    exact Or.inr ⟨id, transfer, mem, moves.data own key changed⟩
  · intro home reclaim _ other region held _
    refine ⟨region, ?_, fun _ => rfl⟩
    exact moves.regions ▸ held

theorem start {header : Region K} {index : Nat} {chunks : List (List (K × V))}
    (proper : header.ProperRange) (own : StreamsOwn header chunks)
    (clear : ∀ id reclaim, (id, reclaim) ∈ state.reclaims → Apart reclaim.region header)
    (uncounted : ∀ id reclaim, (id, reclaim) ∈ state.reclaims → header.id ∉ reclaim.overlaps) :
    ReclaimInvariant (state.startTransfer header index chunks) := by
  rw [StoreState.startTransfer]
  cases state.receiving.lookup header.id with
  | some transfer => exact inv
  | none =>
    have retired := @regions_call K V _ _ state inv (.remove header.id) trivial (by simp)
      fun home reclaim found id listed same => by
        rw [Option.some.inj same] at uncounted
        exact uncounted home reclaim found listed
    refine ⟨retired.valid, ?_, retired.records, retired.filed, retired.announced, ?_, ?_,
      retired.covered⟩
    · exact forall_insert ⟨proper, own⟩ inv.headers
    · exact fun id reclaim mem => forall_insert (clear id reclaim mem) (inv.receiving id reclaim mem)
    · intro id reclaim mem unlisted
      have opens := retired.opens id reclaim mem unlisted
      exact ⟨opens.hosted, opens.empty⟩

theorem receive (id : Nat) (step : ReceiveStep) : ReclaimInvariant (state.receive id step) := by
  have received := state.received id step
  generalize state.receive id step = next at received ⊢
  cases received with
  | idle => exact inv
  | moves mem moves => exact inv.setTransfer mem moves
  | hosts mem =>
    rename_i transfer
    have wellFormed : (RegionMap.Call.insert transfer.header).WellFormed state.regions :=
      (inv.headers id transfer mem).1
    refine inv.beside (inv.valid.call wellFormed) rfl inv.records (fun _ _ _ held => held)
      (fun _ _ held => inv.headers_own (mem_erase.mp held).2) ?_
      (fun _ changed => absurd rfl changed) ?_
    · intro other region hosted
      rcases RegionMap.origin_of_call wellFormed hosted with origin | inserted
      · exact Or.inl origin
      · cases inserted
        exact Or.inr ⟨id, transfer, mem, rfl⟩
    · intro home reclaim _ other region held _
      exact RegionMap.call_keeps held (by simp [RegionMap.Call.target])
  | ends =>
    refine inv.beside inv.valid rfl inv.records (fun _ _ _ held => held)
      (fun _ _ held => inv.headers_own (mem_erase.mp held).2)
      (fun _ _ hosted => .inl ⟨_, _, hosted, fun _ inside => inside⟩)
      (fun _ changed => absurd rfl changed) fun _ _ _ _ region held _ =>
        ⟨region, held, fun _ => rfl⟩

theorem destroy (storeId : Nat) (region : Region K) (membership : Option (Region K))
    (once : state.reclaims.lookup region.id = none) :
    ReclaimInvariant (state.destroy storeId region membership) := by
  refine inv.beside inv.valid rfl ?_ ?_ (fun _ _ mem => inv.headers_own mem)
    (fun _ _ hosted => .inl ⟨_, _, hosted, fun _ inside => inside⟩)
    (fun _ changed => absurd rfl changed) fun _ _ _ _ current held _ =>
      ⟨current, held, fun _ => rfl⟩
  · intro image imageMember id current recorded
    rw [mem_singleton.mp imageMember] at recorded
    exact inv.records state.disk mem_cons_self id current (mem_erase.mp recorded).2
  · intro id reclaim mem held
    have differs : id ≠ region.id := by
      rintro rfl
      exact lookup_eq_none_iff.mp once reclaim mem
    rw [StoreState.destroy]
    dsimp only [StoreState.sync]
    split
    · exact held
    · exact mem_insert.mpr (Or.inr ⟨differs, held⟩)

/-- Passing the gate: what the map says now is what the delete relies on later. -/
theorem gate {region : Region K} (proper : region.ProperRange)
    (announced : (region.id, region) ∈ state.disk.retiring)
    (clear : ∀ id transfer, (id, transfer) ∈ state.receiving → Apart region transfer.header)
    (covered : state.regions.overlapping region.startKey region.endKey ≠ [] →
      ∃ cover ∈ state.regions.overlapping region.startKey region.endKey,
        ∀ key, region.contains key = true → cover.contains key = true) :
    ReclaimInvariant (state.gate region) := by
  refine ⟨inv.valid, inv.headers, inv.records, forall_insert rfl inv.filed,
    forall_insert announced inv.announced, forall_insert clear inv.receiving,
    forall_insert (fun unlisted => ?_) fun id reclaim old unlisted => ?_,
    forall_insert (fun listed => ?_) inv.covered⟩
  · refine ⟨?_, fun cleared => absurd cleared Bool.false_ne_true⟩
    intro other current hosted key inside currentInside
    have found := (inv.valid.mem_overlapping_iff proper).mpr
      ⟨inv.valid.hosts hosted, key, Region.contains_iff.mp currentInside,
        Region.contains_iff.mp inside⟩
    rw [map_eq_nil_iff.mp unlisted] at found
    cases found
  · have opens := inv.opens id reclaim old unlisted
    exact ⟨opens.hosted, opens.empty⟩
  · obtain ⟨cover, coverMember, covers⟩ := covered fun none => listed (by rw [none]; rfl)
    have hosted := ((inv.valid.mem_overlapping_iff proper).mp coverMember).1
    exact ⟨cover.id, cover, hosted, mem_map_of_mem coverMember, covers⟩

theorem clearReclaim (id : Nat) : ReclaimInvariant (state.clearReclaim id) := by
  rw [StoreState.clearReclaim]
  cases found : state.reclaims.lookup id with
  | none => exact inv
  | some reclaim =>
    have held := lookup_eq_some_iff.mp found
    dsimp only
    split_ifs with unlisted
    · -- Every reclamation is one that was there, this one with its range now empty.
      have earlier : ∀ other current,
          (other, current) ∈ state.reclaims.insert id { reclaim with cleared := true } →
          ∃ before, (other, before) ∈ state.reclaims ∧ current.region = before.region ∧
            current.overlaps = before.overlaps ∧
            (current.cleared = true → current.region = reclaim.region ∨ before.cleared = true) := by
        intro other current mem
        rcases mem_insert.mp mem with ⟨rfl, rfl⟩ | ⟨_, old⟩
        · exact ⟨reclaim, held, rfl, rfl, fun _ => Or.inl rfl⟩
        · exact ⟨current, old, rfl, rfl, Or.inr⟩
      refine ⟨inv.valid, inv.headers, ?_, ?_, ?_, ?_, ?_, ?_⟩
      · intro image imageMember
        rw [mem_singleton.mp imageMember]
        exact inv.records state.disk mem_cons_self
      · intro other current mem
        obtain ⟨before, old, sameRegion, _, _⟩ := earlier other current mem
        exact sameRegion ▸ inv.filed other before old
      · intro other current mem
        obtain ⟨before, old, sameRegion, _, _⟩ := earlier other current mem
        exact sameRegion ▸ inv.announced other before old
      · intro other current mem
        obtain ⟨before, old, sameRegion, _, _⟩ := earlier other current mem
        exact sameRegion ▸ inv.receiving other before old
      · intro other current mem none
        obtain ⟨before, old, sameRegion, sameOverlaps, wasCleared⟩ :=
          earlier other current mem
        have opens := inv.opens other before old (sameOverlaps ▸ none)
        constructor
        case hosted =>
          rw [sameRegion]
          exact opens.hosted
        case empty =>
          intro cleared key inside
          show clearRange state.disk.data reclaim.region key = _
          rcases wasCleared cleared with isThis | already
          · rw [isThis] at inside
            exact clearRange_of_contains inside
          rw [clearRange]
          split_ifs
          · rfl
          · rw [sameRegion] at inside
            exact opens.empty already key inside
      · intro other current mem listed
        obtain ⟨before, old, sameRegion, sameOverlaps, _⟩ := earlier other current mem
        rw [sameOverlaps] at listed
        rw [ReclaimCovered, sameRegion, sameOverlaps]
        exact inv.covered other before old listed
    · exact inv

theorem ends (id : Nat) {retiring : SortedMap Nat (Region K)} {unsynced : List (Disk K V)}
    (older : ∀ disk ∈ unsynced, disk ∈ state.unsynced)
    (kept : ∀ other region, other ≠ id → (other, region) ∈ state.disk.retiring →
      (other, region) ∈ retiring) : ReclaimInvariant { state with
      disk := { state.disk with retiring }, unsynced
      reclaims := state.reclaims.erase id } := by
  refine ⟨inv.valid, inv.headers, ?_, ?_, ?_, ?_, ?_, ?_⟩
  · intro image mem
    rcases mem_cons.mp mem with rfl | old
    · exact inv.records state.disk mem_cons_self
    · exact inv.records image (mem_cons_of_mem _ (older image old))
  · intro other reclaim mem
    exact inv.filed other reclaim (mem_erase.mp mem).2
  · intro other reclaim mem
    obtain ⟨differs, old⟩ := mem_erase.mp mem
    exact kept other reclaim.region differs (inv.announced other reclaim old)
  · intro other reclaim mem
    exact inv.receiving other reclaim (mem_erase.mp mem).2
  · intro other reclaim mem unlisted
    have opens := inv.opens other reclaim (mem_erase.mp mem).2 unlisted
    exact ⟨opens.hosted, opens.empty⟩
  · intro other reclaim mem
    exact inv.covered other reclaim (mem_erase.mp mem).2

theorem forget (id : Nat) : ReclaimInvariant (state.forget id) := by
  rw [StoreState.forget]
  cases state.reclaims.lookup id with
  | none => exact inv
  | some reclaim =>
    dsimp only
    split_ifs
    · refine inv.ends id (fun _ mem => absurd mem not_mem_nil) ?_
      intro other region differs held
      exact mem_erase.mpr ⟨differs, held⟩
    · exact inv

end

theorem opened {disk : Disk K V}
    (proper : ∀ id region, (id, region) ∈ disk.records → region.ProperRange) :
    ReclaimInvariant (openStore disk) := by
  have sameRecords := (Disk.foldl_discard_fields disk.pending.entries disk).1
  have recovered : ∀ id region, (id, region) ∈ disk.recover.records → region.ProperRange := by
    intro id region mem
    rw [Disk.recover, sameRecords] at mem
    exact proper id region mem
  have wellFormed : ∀ regions : List (Region K), (∀ region ∈ regions, region.ProperRange) →
      ∀ map : RegionMap K, map.AllWellFormed (regions.map RegionMap.Call.insert) := by
    intro regions
    induction regions with
    | nil =>
      intro _ _
      exact trivial
    | cons first rest ih =>
      intro all map
      exact ⟨all first mem_cons_self, ih (fun region mem => all region (mem_cons_of_mem _ mem)) _⟩
  refine ⟨?_, ?_, ?_, ?_, ?_, ?_, ?_, ?_⟩
  · refine RegionMap.valid_empty.calls (wellFormed _ ?_ _)
    intro region mem
    obtain ⟨⟨id, held⟩, recorded, rfl⟩ := mem_map.mp mem
    exact recovered id held recorded
  · exact fun _ _ mem => absurd mem (not_mem_empty _)
  · intro image mem
    rw [mem_singleton.mp mem]
    exact recovered
  all_goals exact fun _ _ mem => absurd mem (not_mem_empty _)

end ReclaimInvariant

theorem ReclaimStep.preserves {state next : StoreState K V} (step : ReclaimStep state next)
    (inv : ReclaimInvariant state) : ReclaimInvariant next := by
  cases step with
  | start header index chunks proper own clear uncounted =>
    exact inv.start proper own clear uncounted
  | receive id step => exact inv.receive id step
  | split parent child wellFormed uncounted =>
    refine inv.regions_call wellFormed (by simp) ?_
    rintro home reclaim found id listed ⟨rfl⟩
    exact uncounted home reclaim found listed
  | replace region =>
    exact inv.regions_call trivial (by simp) (by simp [RegionMap.Call.target])
  | retire id uncounted =>
    refine inv.regions_call trivial (by simp) ?_
    rintro home reclaim found other listed ⟨rfl⟩
    exact uncounted home reclaim found listed
  | destroy storeId region membership once =>
    exact inv.destroy storeId region membership once
  | gate region proper announced once clear covered =>
    exact inv.gate proper announced clear covered
  | clearReclaim id => exact inv.clearReclaim id
  | forget id => exact inv.forget id
  | abandon id =>
    exact inv.ends id (fun _ mem => mem) fun _ _ _ held => held
  | apply disk owned sameRetiring proper =>
    refine inv.beside inv.valid rfl ?_ ?_ (fun _ _ mem => inv.headers_own mem)
      (fun _ _ hosted => .inl ⟨_, _, hosted, fun _ inside => inside⟩)
      (fun key changed => Or.inl (owned key changed)) fun _ _ _ _ region held _ =>
        ⟨region, held, fun _ => rfl⟩
    · intro image mem
      rcases mem_cons.mp mem with rfl | older
      · exact proper
      · exact inv.records image older
    · intro id reclaim _ held
      exact sameRetiring.symm ▸ held
  | reopen disk found => exact ReclaimInvariant.opened (inv.records disk found)

/-- From a store just opened, in every run that keeps to the conditions of its steps, a
reclamation deletes no key of a region hosted or being received at that moment, and an
announcement is forgotten only if its range is empty or a hosted region covers it. -/
theorem reclaim_keeps_hosted_keys {disk : Disk K V} {state : StoreState K V}
    (proper : ∀ id region, (id, region) ∈ disk.records → region.ProperRange)
    (run : Relation.ReflTransGen ReclaimStep (openStore disk) state) (id : Nat) :
    (∀ key, (state.clearReclaim id).disk.data key ≠ state.disk.data key →
      (∀ region, state.regions.Hosts region → region.contains key = false) ∧
      ∀ other transfer, (other, transfer) ∈ state.receiving →
        transfer.header.contains key = false) ∧
    (∀ region, (id, region) ∈ state.disk.retiring →
      (id, region) ∉ (state.forget id).disk.retiring →
      (∀ key, region.contains key = true → state.disk.data key = none) ∨
      ∃ cover, state.regions.Hosts cover ∧
        ∀ key, region.contains key = true → cover.contains key = true) := by
  have invariant : ReclaimInvariant state := by
    induction run with
    | refl => exact ReclaimInvariant.opened proper
    | tail _ step ih => exact step.preserves ih
  constructor
  · intro key changed
    rw [StoreState.clearReclaim] at changed
    split at changed
    · exact absurd rfl changed
    rename_i reclaim found
    split_ifs at changed with unlisted
    · have held := lookup_eq_some_iff.mp found
      have inside : reclaim.region.contains key = true := by
        by_contra outside
        rw [Bool.not_eq_true] at outside
        exact changed (clearRange_of_not_contains outside)
      constructor
      · intro region hosted
        by_contra owned
        rw [Bool.not_eq_false] at owned
        exact (invariant.opens id reclaim held unlisted).hosted region.id region hosted key
          inside owned
      · intro other transfer receiving
        by_contra owned
        rw [Bool.not_eq_false] at owned
        exact invariant.receiving id reclaim held other transfer receiving key inside owned
    · exact absurd rfl changed
  · intro region announced forgotten
    rw [StoreState.forget] at forgotten
    split at forgotten
    · exact absurd announced forgotten
    rename_i reclaim found
    have held := lookup_eq_some_iff.mp found
    have same := value_unique (invariant.announced id reclaim held) announced
    split_ifs at forgotten with finished
    · by_cases unlisted : reclaim.overlaps = []
      · left
        rw [← same]
        exact (invariant.opens id reclaim held unlisted).empty
          (finished.resolve_left fun listed => listed unlisted)
      · right
        obtain ⟨home, cover, hosted, _, covers⟩ := invariant.covered id reclaim held unlisted
        rw [same] at covers
        exact ⟨cover, invariant.valid.hosts hosted, covers⟩
    · exact absurd announced forgotten

/-- Region 1 of a store that was just opened leaves its map, its records go under an
announcement, and its range passes the gate: region 2 is hosted beside it. -/
def retiredStore : StoreState Bytes Bytes :=
  (({ openStore splitStore.disk with
      regions := (openStore splitStore.disk).regions.call (.remove 1) }).destroy 9
    (plainRegion 1 [] [5]) none).gate (plainRegion 1 [] [5])

/-- Reclaiming region 1 deletes its key `[3]`, which is not the hosted region's. -/
theorem reclaim_deletes_retired_key :
    (retiredStore.clearReclaim 1).disk.data [3] ≠ retiredStore.disk.data [3] ∧
      (plainRegion 2 [5] []).contains [3] = false := by
  have proper : ∀ id region, (id, region) ∈ splitStore.disk.records → region.ProperRange := by
    have all : ∀ record ∈ splitStore.disk.records.entries,
        record.2.endKey = [] ∨ record.2.startKey < record.2.endKey := by
      decide +kernel
    exact fun id region member => all (id, region) member
  have run : Relation.ReflTransGen ReclaimStep (openStore splitStore.disk) retiredStore := by
    refine ((Relation.ReflTransGen.refl.tail (ReclaimStep.retire _ 1 ?_)).tail
      (ReclaimStep.destroy _ 9 (plainRegion 1 [] [5]) none ?_)).tail
        (ReclaimStep.gate _ (plainRegion 1 [] [5]) ?_ ?_ ?_ ?_ ?_)
    · exact fun _ _ member => absurd member (not_mem_empty _)
    · decide +kernel
    · exact Or.inr (by decide)
    · exact lookup_eq_some_iff.mp (by decide +kernel)
    · decide +kernel
    · exact fun _ _ member => absurd member (not_mem_empty _)
    · exact fun found => absurd (by decide +kernel) found
  have deleted : (retiredStore.clearReclaim 1).disk.data [3] ≠ retiredStore.disk.data [3] := by
    decide +kernel
  refine ⟨deleted, ((reclaim_keeps_hosted_keys proper run 1).1 [3] deleted).1
    (plainRegion 2 [5] []) ?_⟩
  exact lookup_eq_some_iff.mp (by decide +kernel)

/-- Region 1 comes back as a snapshot after its gate was passed. -/
def returningStore : StoreState Bytes Bytes :=
  (((retiredStore.startTransfer (plainRegion 1 [] [5]) 9 [[([3], [2])]]).announce 1).clear
    1).chunk 1

/-- Region 1 is retired with the whole key space while the store hosts a part of it. -/
def partHostedStore : StoreState Bytes Bytes :=
  ((childStore.write { childStore.disk with data := splitStore.disk.data }).destroy 9
    (plainRegion 1 [] []) none).gate (plainRegion 1 [] [])

/-- The gate's answer is too old or too coarse. The delete takes the key `[3]` that the
stream of the returning region has just written. And a range of which a hosted region holds
only a part is taken for covered: its announcement is forgotten with the key `[3]` in place
and no hosted region around it. -/
theorem reclaim_deletes_received_key :
    returningStore.disk.data [3] = some [2] ∧
      (returningStore.receiving.lookup 1).map (fun transfer => transfer.header.contains [3]) =
        some true ∧
      (returningStore.clearReclaim 1).disk.data [3] = none ∧
      partHostedStore.disk.retiring.lookup 1 = some (plainRegion 1 [] []) ∧
      partHostedStore.disk.data [3] = some [1] ∧ partHostedStore.regions.find [3] = none ∧
      (partHostedStore.forget 1).disk.retiring.lookup 1 = none := by
  decide +kernel

end Esker.Store
