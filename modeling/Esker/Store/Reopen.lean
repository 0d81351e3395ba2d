import Esker.Store.Transfers

/-!
Contract: what opening a store makes of the records a crash left
(`discard_interrupted_snapshots` and `Store::open` in `esker-store/src/server.rs`).

Owns: recovery, the runs that interleave receives with crashes and failures, and when every
region hosted at open has the data of its own apply index.

Does not own: what a log holds. The contents of a region at an index are a parameter.
-/

namespace Esker.Store

open Esker.Consensus (Bytes)
open Esker.KeyRange List SortedMap

variable {K V : Type} [LinearOrder K] [OrderBot K]

/-! ## Opening -/

variable {disk : Disk K V} {key : K} {region : Region K}

namespace Disk

/-- Discards one interrupted snapshot: its range, then its announcement. -/
def discard (disk : Disk K V) (entry : Nat × Region K) : Disk K V :=
  { disk with data := clearRange disk.data entry.2, pending := disk.pending.erase entry.1 }

/-- `discard_interrupted_snapshots`. -/
def recover (disk : Disk K V) : Disk K V := disk.pending.entries.foldl discard disk

theorem foldl_discard_fields (entries : List (Nat × Region K)) (disk : Disk K V) :
    (entries.foldl discard disk).records = disk.records ∧
      (entries.foldl discard disk).applied = disk.applied ∧
      (entries.foldl discard disk).retiring = disk.retiring := by
  induction entries generalizing disk with
  | nil => exact ⟨rfl, rfl, rfl⟩
  | cons entry rest ih => exact ih (disk.discard entry)

variable {entries : List (Nat × Region K)}

theorem foldl_discard_data (outside : ∀ entry ∈ entries, entry.2.contains key = false) :
    (entries.foldl discard disk).data key = disk.data key := by
  induction entries generalizing disk with
  | nil => rfl
  | cons entry rest ih =>
    rw [foldl_cons, ih fun other mem =>
      outside other (mem_cons_of_mem _ mem)]
    exact clearRange_of_not_contains (outside entry mem_cons_self)

theorem mem_foldl_discard_pending {id : Nat} : (id, region) ∈ (entries.foldl discard disk).pending ↔
      id ∉ entries.map Prod.fst ∧ (id, region) ∈ disk.pending := by
  induction entries generalizing disk with
  | nil => simp
  | cons entry rest ih =>
    rw [foldl_cons, ih, map_cons, mem_cons, not_or]
    dsimp only [discard]
    rw [mem_erase]
    tauto

theorem not_mem_recover_pending (disk : Disk K V) (entry : Nat × Region K) :
    entry ∉ disk.recover.pending := by
  obtain ⟨id, region⟩ := entry
  rw [recover, mem_foldl_discard_pending]
  rintro ⟨unlisted, mem⟩
  exact unlisted (mem_map_of_mem mem)

end Disk

/-- Hosts the regions in order; one the map refuses is not hosted. -/
def hostAll (regions : List (Region K)) : RegionMap K :=
  RegionMap.empty.calls (regions.map RegionMap.Call.insert)

theorem mem_calls_insert {regions : List (Region K)} {map : RegionMap K} {id : Nat}
    (hosted : (id, region) ∈ (map.calls (regions.map RegionMap.Call.insert)).byId) :
    (id, region) ∈ map.byId ∨ (region ∈ regions ∧ region.id = id) := by
  induction regions generalizing map with
  | nil => exact Or.inl hosted
  | cons first rest ih =>
    rw [map_cons, RegionMap.calls] at hosted
    rcases ih hosted with mem | ⟨mem, filed⟩
    · rw [RegionMap.call, RegionMap.insert.eq_def] at mem
      split at mem
      · exact Or.inl mem
      split at mem
      · exact Or.inl mem
      rcases mem_insert.mp mem with ⟨rfl, rfl⟩ | ⟨_, old⟩
      · exact Or.inr ⟨mem_cons_self, rfl⟩
      · exact Or.inl old
    · exact Or.inr ⟨mem_cons_of_mem _ mem, filed⟩

/-- `Store::open` on the records it finds: interrupted snapshots are discarded, then every
region with a record is hosted. -/
def openStore (disk : Disk K V) : StoreState K V where
  disk := disk.recover
  unsynced := []
  regions := hostAll (disk.recover.records.entries.map Prod.snd)
  receiving := SortedMap.empty
  reclaims := SortedMap.empty

/-! ## Whole contents -/

section Contents

-- What the log of a region, applied through an index, holds at a key.
variable (content : Nat → Nat → K → Option V)

/-- The keys of the region hold what its log does at `index`. -/
def HasContent (data : K → Option V) (region : Region K) (id index : Nat) : Prop :=
  ∀ key, region.contains key = true → data key = content id index key

/-- Records that opening makes whole regions of: every region record is filed under its id,
has an apply index and the data of that index, and shares no key with another record or
with an announced snapshot. -/
structure Whole (disk : Disk K V) : Prop where
  filed : ∀ id region, (id, region) ∈ disk.records → region.id = id
  held : ∀ id region, (id, region) ∈ disk.records → ∃ index,
    disk.applied.lookup id = some index ∧ HasContent content disk.data region id index
  apart : ∀ id region other another, (id, region) ∈ disk.records →
    (other, another) ∈ disk.records → id ≠ other → Apart region another
  unannounced : ∀ id region other announced, (id, region) ∈ disk.records →
    (other, announced) ∈ disk.pending → Apart region announced

variable {content}

section

variable (whole : Whole content disk)
include whole

theorem Whole.of_data {data : K → Option V} {pending : SortedMap Nat (Region K)}
    (kept : ∀ id region, (id, region) ∈ disk.records → ∀ key, region.contains key = true →
      data key = disk.data key) (announced : ∀ entry ∈ pending, entry ∈ disk.pending) :
    Whole content { disk with data, pending } := by
  refine ⟨whole.filed, ?_, whole.apart, ?_⟩
  · intro id region mem
    obtain ⟨index, applied, holds⟩ := whole.held id region mem
    refine ⟨index, applied, ?_⟩
    intro key inside
    rw [← holds key inside]
    exact kept id region mem key inside
  · intro id region other current mem currentMember
    exact whole.unannounced id region other current mem (announced _ currentMember)

variable {entry : Nat × Region K}

theorem Whole.not_contains {id : Nat}
    (announced : entry ∈ disk.pending) (recorded : (id, region) ∈ disk.records)
    (inside : region.contains key = true) : entry.2.contains key = false := by
  rw [Bool.eq_false_iff]
  exact whole.unannounced id region entry.1 entry.2 recorded announced key inside

theorem Whole.clearRange (mem : entry ∈ disk.pending) {pending : SortedMap Nat (Region K)}
    (announced : ∀ entry ∈ pending, entry ∈ disk.pending) :
    Whole content { disk with data := clearRange disk.data entry.2, pending } :=
  whole.of_data (fun _ _ held _ inside =>
    clearRange_of_not_contains (whole.not_contains mem held inside)) announced

theorem Whole.discard (mem : entry ∈ disk.pending) : Whole content (disk.discard entry) :=
  whole.clearRange mem fun _ currentMember => (mem_erase.mp currentMember).2

theorem Whole.recover : Whole content disk.recover := by
  obtain ⟨sameRecords, sameApplied, _⟩ :=
    Disk.foldl_discard_fields disk.pending.entries disk
  constructor
  case filed =>
    intro id region mem
    rw [Disk.recover, sameRecords] at mem
    exact whole.filed id region mem
  case held =>
    intro id region mem
    rw [Disk.recover, sameRecords] at mem
    obtain ⟨index, applied, holds⟩ := whole.held id region mem
    refine ⟨index, ?_, ?_⟩
    · rw [Disk.recover, sameApplied]
      exact applied
    intro key inside
    rw [Disk.recover, Disk.foldl_discard_data fun _ listed => whole.not_contains listed mem inside]
    exact holds key inside
  case apart =>
    rw [Disk.recover, sameRecords]
    exact whole.apart
  case unannounced =>
    intro id region other announced _ announcedMember
    exact absurd announcedMember (Disk.not_mem_recover_pending disk _)

theorem Whole.hosted (hosted : (openStore disk).regions.Hosts region) :
    ∃ index, (openStore disk).disk.applied.lookup region.id = some index ∧
      HasContent content (openStore disk).disk.data region region.id index := by
  have recovered := whole.recover
  rcases mem_calls_insert hosted with absurdMember | ⟨mem, _⟩
  · exact absurd absurdMember (not_mem_empty _)
  obtain ⟨⟨id, held⟩, recorded, rfl⟩ := mem_map.mp mem
  have filed := recovered.filed id held recorded
  rw [← filed] at recorded
  exact recovered.held held.id held recorded

end

end Contents

/-! ## Runs -/

section Runs

/-- The stream of a snapshot at `index`: its pairs are the contents of the header's range. -/
structure StreamsContent (content : Nat → Nat → K → Option V) (header : Region K) (index : Nat)
    (chunks : List (List (K × V))) : Prop where
  own : StreamsOwn header chunks
  faithful : ∀ key, header.contains key = true →
    bindings chunks.flatten key = content header.id index key

/-- A receive starts where nothing of its region is on disk: no record of its id, and no
record, announcement or other receive that shares a key with its header. -/
structure FreshHeader (state : StoreState K V) (header : Region K) : Prop where
  unrecorded : state.disk.records.lookup header.id = none
  records : ∀ id region, (id, region) ∈ state.disk.records → Apart region header
  pending : ∀ id region, (id, region) ∈ state.disk.pending → id ≠ header.id →
    Apart header region
  receiving : ∀ id transfer, (id, transfer) ∈ state.receiving → id ≠ header.id →
    Apart header transfer.header

/-- One entry applied by the peer of a region with a record: the data of its range and its
apply index move in one batch. -/
def StoreState.applyEntry (state : StoreState K V) (content : Nat → Nat → K → Option V)
    (id : Nat) : StoreState K V :=
  match state.disk.records.lookup id, state.disk.applied.lookup id with
  | some region, some index =>
    state.write { state.disk with
      applied := state.disk.applied.insert id (index + 1)
      data := fun key =>
        if region.contains key then content id (index + 1) key else state.disk.data key }
  | _, _ => state

/-- What a store and its crashes do: receives start fresh and take their steps or fail,
hosted regions apply, the store crashes and opens again on any state a crash can leave, and
a crash may come while opening is still discarding. -/
inductive ReopenStep (content : Nat → Nat → K → Option V) :
    StoreState K V → StoreState K V → Prop
  | start (state : StoreState K V) (header : Region K) (index : Nat)
      (chunks : List (List (K × V))) (streams : StreamsContent content header index chunks)
      (fresh : FreshHeader state header) :
      ReopenStep content state (state.startTransfer header index chunks)
  | receive (state : StoreState K V) (id : Nat) (step : ReceiveStep) :
      ReopenStep content state (state.receive id step)
  | apply (state : StoreState K V) (id : Nat) :
      ReopenStep content state (state.applyEntry content id)
  | reopen (state : StoreState K V) (disk : Disk K V) (found : disk ∈ state.disk :: state.unsynced) :
      ReopenStep content state (openStore disk)
  | interrupted (state : StoreState K V) (disk : Disk K V) (entry : Nat × Region K)
      (found : disk ∈ state.disk :: state.unsynced) (announced : entry ∈ disk.pending) :
      ReopenStep content state
        ⟨disk.discard entry, [{ disk with data := clearRange disk.data entry.2 }, disk],
          RegionMap.empty, SortedMap.empty, SortedMap.empty⟩

structure TransferSound (content : Nat → Nat → K → Option V) (state : StoreState K V) (id : Nat)
    (transfer : Transfer K V) : Prop where
  filed : transfer.header.id = id
  own : StreamsOwn transfer.header transfer.chunks
  unrecorded : transfer.phase ≠ .adopted → state.disk.records.lookup id = none
  records : ∀ other region, (other, region) ∈ state.disk.records → other ≠ id →
    Apart region transfer.header
  pending : ∀ other region, (other, region) ∈ state.disk.pending → other ≠ id →
    Apart transfer.header region
  /-- The chunks written so far and those left make the contents of the snapshot, and once
  the range is cleared it holds exactly those written. -/
  progress : transfer.phase ≠ .adopted → ∃ written,
    (∀ key, transfer.header.contains key = true →
      bindings (written ++ transfer.chunks.flatten) key = content id transfer.index key) ∧
    (transfer.phase = .filling → ∀ key, transfer.header.contains key = true →
      state.disk.data key = bindings written key) ∧
    (transfer.phase ≠ .filling → written = [])

structure ReopenInvariant (content : Nat → Nat → K → Option V) (state : StoreState K V) :
    Prop where
  whole : ∀ disk ∈ state.disk :: state.unsynced, Whole content disk
  sound : ∀ id transfer, (id, transfer) ∈ state.receiving → TransferSound content state id transfer
  others : ∀ id transfer other another, (id, transfer) ∈ state.receiving →
    (other, another) ∈ state.receiving → id ≠ other → Apart transfer.header another.header

variable {content : Nat → Nat → K → Option V} {state : StoreState K V}
  {transfer : Transfer K V} {other : Nat}

/-- Before a snapshot is adopted no record has its id, so its header is apart from every record. -/
theorem TransferSound.apart_records {id : Nat} (sound : TransferSound content state id transfer)
    (unadopted : transfer.phase ≠ .adopted) (recorded : (other, region) ∈ state.disk.records) :
    Apart region transfer.header := by
  have missing := lookup_eq_none_iff.mp (sound.unrecorded unadopted)
  apply sound.records other region recorded
  rintro rfl
  exact missing region recorded

theorem TransferSound.not_contains {id : Nat} (sound : TransferSound content state id transfer)
    (unadopted : transfer.phase ≠ .adopted) (recorded : (other, region) ∈ state.disk.records)
    (inside : region.contains key = true) : transfer.header.contains key = false := by
  rw [Bool.eq_false_iff]
  exact sound.apart_records unadopted recorded key inside

namespace ReopenInvariant

section

variable (inv : ReopenInvariant content state)
include inv

theorem current : Whole content state.disk :=
  inv.whole state.disk mem_cons_self

theorem whole_write (whole : Whole content disk) :
    ∀ image ∈ disk :: state.disk :: state.unsynced, Whole content image := by
  intro image mem
  rcases mem_cons.mp mem with rfl | older
  · exact whole
  · exact inv.whole image older

omit inv in
omit [OrderBot K] [LinearOrder K] in
theorem whole_single {L : Type} [LinearOrder L] [OrderBot L] {contents : Nat → Nat → L → Option V}
    {disk : Disk L V} (whole : Whole contents disk) : ∀ image ∈ [disk], Whole contents image := by
  intro image mem
  rw [mem_singleton.mp mem]
  exact whole

theorem whole_inside {id : Nat} {data : K → Option V}
    (sound : TransferSound content state id transfer) (unadopted : transfer.phase ≠ .adopted)
    (kept : ∀ key, transfer.header.contains key = false → data key = state.disk.data key) :
    ∀ image ∈ { state.disk with data } :: state.disk :: state.unsynced, Whole content image :=
  inv.whole_write (inv.current.of_data (fun _ _ recorded key inside =>
    kept key (sound.not_contains unadopted recorded inside)) fun _ same => same)

theorem underway {id : Nat} {phase : Phase}
    (found : state.transferIn id phase = some transfer) (early : phase ≠ .adopted) :
    (id, transfer) ∈ state.receiving ∧ transfer.phase = phase ∧
      TransferSound content state id transfer ∧ transfer.phase ≠ .adopted := by
  obtain ⟨mem, reached⟩ := StoreState.mem_of_transferIn found
  exact ⟨mem, reached, inv.sound id transfer mem, reached ▸ early⟩

end

theorem reopened (whole : Whole content disk) : ReopenInvariant content (openStore disk) :=
  ⟨whole_single whole.recover, fun _ _ mem => absurd mem (not_mem_empty _),
    fun _ _ _ _ mem => absurd mem (not_mem_empty _)⟩

section

variable (inv : ReopenInvariant content state)
include inv

theorem start {header : Region K} {index : Nat} {chunks : List (List (K × V))}
    (streams : StreamsContent content header index chunks) (fresh : FreshHeader state header) :
    ReopenInvariant content (state.startTransfer header index chunks) := by
  rw [StoreState.startTransfer]
  cases found : state.receiving.lookup header.id with
  | some transfer => exact inv
  | none =>
    refine ⟨inv.whole, ?_, ?_⟩
    · intro id transfer mem
      rcases mem_insert.mp mem with ⟨rfl, rfl⟩ | ⟨_, old⟩
      · refine ⟨rfl, streams.own, fun _ => fresh.unrecorded, ?_, ?_, ?_⟩
        · intro other region recorded _
          exact fresh.records other region recorded
        · exact fresh.pending
        · intro _
          exact ⟨[], streams.faithful, by simp, fun _ => rfl⟩
      · exact { inv.sound id transfer old with }
    · exact pairs_insert (fun apart key inside outside => apart key outside inside) inv.others
        fresh.receiving

/-- What happens to the other receives when one moves on: nothing, if its writes keep to its
own range and add no record or announcement but its own. -/
theorem advance {id : Nat} {later : Transfer K V} (mem : (id, transfer) ∈ state.receiving)
    (sameHeader : later.header = transfer.header) {written : StoreState K V}
    (whole : ∀ disk ∈ written.disk :: written.unsynced, Whole content disk)
    (sameReceiving : written.receiving = state.receiving)
    (data : ∀ key, transfer.header.contains key = false →
      written.disk.data key = state.disk.data key)
    (records : ∀ other region, (other, region) ∈ written.disk.records →
      (other, region) ∈ state.disk.records ∨ (other = id ∧ region = transfer.header))
    (pending : ∀ other region, (other, region) ∈ written.disk.pending →
      (other, region) ∈ state.disk.pending ∨ (other = id ∧ region = transfer.header))
    (own : TransferSound content (written.setTransfer id later) id later) :
    ReopenInvariant content (written.setTransfer id later) := by
  refine ⟨whole, ?_, ?_⟩
  · intro other current found
    rcases mem_insert.mp found with ⟨rfl, rfl⟩ | ⟨differs, old⟩
    · exact own
    rw [sameReceiving] at old
    have sound := inv.sound other current old
    have clear := inv.others other current id transfer old mem differs
    refine ⟨sound.filed, sound.own, ?_, ?_, ?_, ?_⟩
    · intro unadopted
      have missing := lookup_eq_none_iff.mp (sound.unrecorded unadopted)
      refine lookup_eq_none_iff.mpr fun region recorded => ?_
      rcases records other region recorded with old | ⟨same, _⟩
      · exact missing region old
      · exact differs same
    · intro home region recorded notOwn
      rcases records home region recorded with old | ⟨rfl, rfl⟩
      · exact sound.records home region old notOwn
      · intro key inside currentInside
        exact clear key currentInside inside
    · intro home region announced notOwn
      rcases pending home region announced with old | ⟨rfl, rfl⟩
      · exact sound.pending home region old notOwn
      · exact clear
    · intro unadopted
      obtain ⟨done, faithful, holds, untouched⟩ := sound.progress unadopted
      refine ⟨done, faithful, ?_, untouched⟩
      intro filling key inside
      rw [← holds filling key inside]
      refine data key ?_
      by_contra shared
      rw [Bool.not_eq_false] at shared
      exact clear key inside shared
  · intro other current another further found furtherFound differs
    have header : ∀ home held, (home, held) ∈ (written.setTransfer id later).receiving →
        ∃ before, (home, before) ∈ state.receiving ∧ before.header = held.header := by
      intro home held heldMember
      rcases mem_insert.mp heldMember with ⟨rfl, rfl⟩ | ⟨_, old⟩
      · exact ⟨transfer, mem, sameHeader.symm⟩
      · rw [sameReceiving] at old
        exact ⟨held, old, rfl⟩
    obtain ⟨before, held, same⟩ := header other current found
    obtain ⟨furtherBefore, furtherHeld, furtherSame⟩ := header another further furtherFound
    rw [← same, ← furtherSame]
    exact inv.others other before another furtherBefore held furtherHeld differs

section

variable (id : Nat)
include id

theorem announce : ReopenInvariant content (state.announce id) := by
  rw [StoreState.announce]
  cases found : state.transferIn id .opened with
  | none => exact inv
  | some transfer =>
    obtain ⟨mem, phase, sound, unadopted⟩ := inv.underway found (by decide)
    have whole := inv.current
    dsimp only
    apply inv.advance mem
    case sameHeader => rfl
    case sameReceiving => rfl
    case data => exact fun _ _ => rfl
    case records => exact fun _ _ recorded => Or.inl recorded
    case pending => exact fun _ _ announced => (mem_insert.mp announced).symm.imp_left And.right
    case whole =>
      refine whole_single ⟨whole.filed, whole.held, whole.apart, ?_⟩
      intro other region home current recorded pendingMember
      rcases mem_insert.mp pendingMember with ⟨_, rfl⟩ | ⟨_, old⟩
      · exact sound.apart_records unadopted recorded
      · exact whole.unannounced other region home current recorded old
    case own =>
      refine ⟨sound.filed, sound.own, fun _ => sound.unrecorded unadopted, sound.records, ?_, ?_⟩
      · intro other region pendingMember differs
        have old := (mem_insert.mp pendingMember).resolve_left fun same => differs same.1
        exact sound.pending other region old.2 differs
      · intro _
        obtain ⟨done, faithful, _, untouched⟩ := sound.progress unadopted
        exact ⟨done, faithful, by simp, fun _ => untouched (by rw [phase]; decide)⟩

theorem clear : ReopenInvariant content (state.clear id) := by
  rw [StoreState.clear]
  cases found : state.transferIn id .announced with
  | none => exact inv
  | some transfer =>
    obtain ⟨mem, phase, sound, unadopted⟩ := inv.underway found (by decide)
    dsimp only
    apply inv.advance mem
    case sameHeader => rfl
    case sameReceiving => rfl
    case data => exact fun _ => clearRange_of_not_contains
    case records => exact fun _ _ recorded => Or.inl recorded
    case pending => exact fun _ _ announced => Or.inl announced
    case whole => exact inv.whole_inside sound unadopted fun _ => clearRange_of_not_contains
    case own =>
      refine { sound with unrecorded := fun _ => sound.unrecorded unadopted, progress := fun _ => ?_ }
      obtain ⟨done, faithful, _, untouched⟩ := sound.progress unadopted
      obtain rfl := untouched (by rw [phase]; decide)
      exact ⟨[], faithful, fun _ _ inside => clearRange_of_contains inside,
        fun notFilling => absurd rfl notFilling⟩

theorem chunk : ReopenInvariant content (state.chunk id) := by
  rw [StoreState.chunk]
  cases found : state.transferIn id .filling with
  | none => exact inv
  | some transfer =>
    obtain ⟨mem, phase, sound, unadopted⟩ := inv.underway found (by decide)
    dsimp only
    split
    · exact inv
    rename_i pairs rest left
    have outsideKept : ∀ key, transfer.header.contains key = false →
        stagePairs state.disk.data pairs key = state.disk.data key := by
      intro key outside
      refine stagePairs_of_not_mem ?_
      rintro pair pairMember rfl
      have inside := sound.own pairs (by rw [left]; exact mem_cons_self) pair pairMember
      rw [inside] at outside
      cases outside
    apply inv.advance mem
    case sameHeader => rfl
    case sameReceiving => rfl
    case data => exact outsideKept
    case records => exact fun _ _ recorded => Or.inl recorded
    case pending => exact fun _ _ announced => Or.inl announced
    case whole => exact inv.whole_inside sound unadopted outsideKept
    case own =>
      refine ⟨sound.filed, ?_, fun _ => sound.unrecorded unadopted, sound.records,
        sound.pending, ?_⟩
      · intro current currentMember
        exact sound.own current (by rw [left]; exact mem_cons_of_mem _ currentMember)
      intro _
      obtain ⟨done, faithful, holds, _⟩ := sound.progress unadopted
      refine ⟨done ++ pairs, ?_, ?_, fun notFilling => absurd phase notFilling⟩
      · intro key inside
        rw [← faithful key inside, left, flatten_cons, append_assoc]
      intro _ key inside
      -- The chunk goes over what the range already holds.
      have before := holds phase key inside
      show stagePairs state.disk.data pairs key = bindings (done ++ pairs) key
      rw [stagePairs, before, bindings, bindings, bindings, reverse_append,
        find?_append, Option.map_or]

theorem adopt : ReopenInvariant content (state.adopt id) := by
  rw [StoreState.adopt]
  cases found : state.transferIn id .filling with
  | none => exact inv
  | some transfer =>
    obtain ⟨mem, phase, sound, unadopted⟩ := inv.underway found (by decide)
    have whole := inv.current
    dsimp only
    split
    · exact inv
    rename_i left
    obtain ⟨done, faithful, holds, _⟩ := sound.progress unadopted
    apply inv.advance mem
    case sameHeader => rfl
    case sameReceiving => rfl
    case data => exact fun _ _ => rfl
    case whole =>
      apply whole_single
      constructor
      case filed => exact forall_insert sound.filed whole.filed
      case held =>
        intro other region recorded
        rcases (mem_insert.mp recorded).symm with ⟨differs, old⟩ | ⟨rfl, rfl⟩
        · obtain ⟨index, applied, content⟩ := whole.held other region old
          exact ⟨index, (lookup_insert_of_ne _ _ differs).trans applied, content⟩
        refine ⟨transfer.index, lookup_insert_self _ _ _, ?_⟩
        intro key inside
        rw [← faithful key inside, left, flatten_nil, append_nil]
        exact holds phase key inside
      case apart =>
        exact pairs_insert (fun apart key inside outside => apart key outside inside) whole.apart
          fun other region old notOwn key inside outside =>
            sound.records other region old notOwn key outside inside
      case unannounced =>
        intro other region another announced recorded announcedMember
        obtain ⟨notOwn, old⟩ := mem_erase.mp announcedMember
        rcases mem_insert.mp recorded with ⟨rfl, rfl⟩ | ⟨_, oldRecord⟩
        · exact sound.pending another announced old notOwn
        · exact whole.unannounced other region another announced oldRecord old
    case records => exact fun _ _ recorded => (mem_insert.mp recorded).symm.imp_left And.right
    case pending => exact fun _ _ announced => Or.inl (mem_erase.mp announced).2
    case own =>
      refine ⟨sound.filed, sound.own, fun notAdopted => absurd rfl notAdopted, ?_, ?_,
        fun notAdopted => absurd rfl notAdopted⟩
      · intro other region recorded differs
        have old := (mem_insert.mp recorded).resolve_left fun same => differs same.1
        exact sound.records other region old.2 differs
      · intro other region announced differs
        exact sound.pending other region (mem_erase.mp announced).2 differs

theorem erase (regions : RegionMap K) : ReopenInvariant content
      { state with regions, receiving := state.receiving.erase id } := by
  refine ⟨inv.whole, ?_, ?_⟩
  · intro other current found
    exact { inv.sound other current (mem_erase.mp found).2 with }
  intro other current another further found furtherFound
  exact inv.others other current another further (mem_erase.mp found).2
    (mem_erase.mp furtherFound).2

theorem receive (step : ReceiveStep) : ReopenInvariant content (state.receive id step) := by
  cases step with
  | announce => exact inv.announce id
  | clear => exact inv.clear id
  | chunk => exact inv.chunk id
  | adopt => exact inv.adopt id
  | host =>
    rw [StoreState.receive, StoreState.host]
    cases state.transferIn id .adopted with
    | none => exact inv
    | some transfer => exact inv.erase id _
  | fail => exact inv.erase id state.regions

theorem applyEntry : ReopenInvariant content (state.applyEntry content id) := by
  rw [StoreState.applyEntry]
  split
  · rename_i region index recorded applied
    have whole := inv.current
    have held := lookup_eq_some_iff.mp recorded
    refine ⟨inv.whole_write ?_, ?_, inv.others⟩
    · refine ⟨whole.filed, ?_, whole.apart, whole.unannounced⟩
      intro other current mem
      by_cases same : other = id
      · subst same
        rw [value_unique mem held]
        refine ⟨index + 1, lookup_insert_self _ _ _, ?_⟩
        intro key inside
        exact if_pos inside
      · obtain ⟨at_, appliedAt, holds⟩ := whole.held other current mem
        refine ⟨at_, (lookup_insert_of_ne _ _ same).trans appliedAt, ?_⟩
        intro key inside
        rw [← holds key inside]
        refine if_neg fun shared => ?_
        exact whole.apart other current id region mem held same key inside shared
    · intro other transfer mem
      have sound := inv.sound other transfer mem
      refine { sound with progress := fun unadopted => ?_ }
      obtain ⟨done, faithful, holds, untouched⟩ := sound.progress unadopted
      refine ⟨done, faithful, ?_, untouched⟩
      intro filling key inside
      rw [← holds filling key inside]
      exact if_neg fun shared => sound.apart_records unadopted held key shared inside
  · exact inv

end

end

end ReopenInvariant

theorem ReopenStep.preserves {next : StoreState K V} (step : ReopenStep content state next)
    (inv : ReopenInvariant content state) : ReopenInvariant content next := by
  cases step with
  | start header index chunks streams fresh => exact inv.start streams fresh
  | receive id step => exact inv.receive id step
  | apply id => exact inv.applyEntry id
  | reopen disk found => exact ReopenInvariant.reopened (inv.whole disk found)
  | interrupted disk entry found announced =>
    have whole := inv.whole disk found
    refine ⟨?_, fun _ _ mem => absurd mem (not_mem_empty _),
      fun _ _ _ _ mem => absurd mem (not_mem_empty _)⟩
    intro image mem
    simp only [mem_cons, not_mem_nil, or_false] at mem
    rcases mem with rfl | rfl | rfl
    · exact whole.discard announced
    · exact whole.clearRange announced fun _ same => same
    · exact whole

/-- From a store that starts on whole records, in every run whose receives start fresh,
with crashes and failures anywhere, every region the store hosts when it opens on what a
crash left has the data of its persisted apply index. -/
theorem opened_regions_whole {first : StoreState K V}
    (starts : Whole content first.disk) (synced : first.unsynced = [])
    (idle : first.receiving = SortedMap.empty)
    (run : Relation.ReflTransGen (ReopenStep content) first state) (disk : Disk K V)
    (found : disk ∈ state.disk :: state.unsynced) (region : Region K)
    (hosted : (openStore disk).regions.Hosts region) :
    ∃ index, (openStore disk).disk.applied.lookup region.id = some index ∧
      HasContent content (openStore disk).disk.data region region.id index := by
  have invariant : ReopenInvariant content state := by
    clear found hosted
    induction run with
    | refl =>
      refine ⟨?_, ?_, ?_⟩
      · rw [synced]
        exact ReopenInvariant.whole_single starts
      · rw [idle]
        exact fun _ _ member => absurd member (not_mem_empty _)
      · rw [idle]
        exact fun _ _ _ _ member => absurd member (not_mem_empty _)
    | tail _ step ih => exact step.preserves ih
  exact (invariant.whole disk found).hosted hosted

end Runs

/-! ## A crash in the middle of a receive -/

/-- A store that hosts region 2 from `[5]` on, with the key `[7]`. -/
def childStore : StoreState Bytes Bytes where
  disk :=
    { records := oneRecord (plainRegion 2 [5] [])
      applied := SortedMap.empty.insert 2 0
      pending := SortedMap.empty
      retiring := SortedMap.empty
      data := fun key => if key = [7] then some [1] else none }
  unsynced := []
  regions := RegionMap.empty.calls [.insert (plainRegion 2 [5] [])]
  receiving := SortedMap.empty
  reclaims := SortedMap.empty

/-- Every region's log holds `[1]` at `[3]` and at `[7]`. -/
def pairContent : Nat → Nat → Bytes → Option Bytes :=
  fun _ _ key => if key = [3] ∨ key = [7] then some [1] else none

theorem childStore_apart {key : Bytes} (inside : (plainRegion 2 [5] []).contains key = true)
    (below : (plainRegion 1 [] [5]).contains key = true) : False := by
  have above := (Region.contains_iff.mp inside).1
  have under := (Region.contains_iff.mp below).2.resolve_left (by decide)
  exact absurd (under.trans_le above) (lt_irrefl key)

theorem childStore_whole : Whole pairContent childStore.disk := by
  have recorded : ∀ id region, (id, region) ∈ childStore.disk.records →
      id = 2 ∧ region = plainRegion 2 [5] [] := fun id region mem => mem_oneRecord.mp mem
  constructor
  case filed =>
    intro id region mem
    obtain ⟨rfl, rfl⟩ := recorded id region mem
    rfl
  case held =>
    intro id region mem
    obtain ⟨rfl, rfl⟩ := recorded id region mem
    refine ⟨0, by decide +kernel, ?_⟩
    intro key inside
    have notThree : key ≠ [3] := by
      rintro rfl
      revert inside
      decide
    simp [childStore, pairContent, notThree]
  case apart =>
    intro id region other another mem otherMember differs
    rw [(recorded id region mem).1, (recorded other another otherMember).1] at differs
    exact absurd rfl differs
  case unannounced =>
    intro id region other announced _ announcedMember
    exact absurd announcedMember (not_mem_empty _)

/-- A store that crashes while it fills region 1, which it had no record of, hosts region 2
whole when it opens. -/
theorem crash_while_filling_fresh_region :
    ∃ index, (openStore (((childStore.startTransfer (plainRegion 1 [] [5]) 9
        [[([3], [1])]]).announce 1).clear 1).disk).disk.applied.lookup 2 = some index ∧
      HasContent pairContent (openStore (((childStore.startTransfer (plainRegion 1 [] [5]) 9
        [[([3], [1])]]).announce 1).clear 1).disk).disk.data (plainRegion 2 [5] []) 2 index := by
  have streams : StreamsContent pairContent (plainRegion 1 [] [5]) 9 [[([3], [1])]] := by
    constructor
    case own =>
      intro pairs pairsMember pair pairMember
      rw [mem_singleton.mp pairsMember, mem_singleton] at pairMember
      rw [pairMember]
      decide +kernel
    case faithful =>
      intro key inside
      have notSeven : key ≠ [7] := by
        rintro rfl
        revert inside
        decide
      by_cases isThree : key = [3]
      · subst isThree
        decide +kernel
      · simp [bindings, pairContent, isThree, notSeven, Ne.symm isThree]
  have fresh : FreshHeader childStore (plainRegion 1 [] [5]) := by
    constructor
    case unrecorded => decide +kernel
    case records =>
      intro id region member key inside headerInside
      rw [(mem_oneRecord.mp member).2] at inside
      exact childStore_apart inside headerInside
    case pending =>
      intro id region member
      exact absurd member (not_mem_empty _)
    case receiving =>
      intro id transfer member
      exact absurd member (not_mem_empty _)
  refine opened_regions_whole childStore_whole rfl rfl
    (((Relation.ReflTransGen.refl.tail (ReopenStep.start _ _ 9 _ streams fresh)).tail
      (ReopenStep.receive _ 1 .announce)).tail (ReopenStep.receive _ 1 .clear)) _
    mem_cons_self (plainRegion 2 [5] []) ?_
  exact lookup_eq_some_iff.mp (by decide +kernel)

/-- A store that crashes after it cleared the range of region 1, which it was replacing,
hosts region 1 when it opens, with the apply index it had and without the key `[3]` it had
at that index. -/
theorem crash_while_replacing_region :
    (openStore (((splitStore.startTransfer (plainRegion 1 [] [5]) 9 []).announce 1).clear
        1).disk).regions.byId.lookup 1 = some (plainRegion 1 [] [5]) ∧
      (openStore (((splitStore.startTransfer (plainRegion 1 [] [5]) 9 []).announce 1).clear
        1).disk).disk.applied.lookup 1 = splitStore.disk.applied.lookup 1 ∧
      (plainRegion 1 [] [5]).contains [3] = true ∧ splitStore.disk.data [3] = some [1] ∧
      (openStore (((splitStore.startTransfer (plainRegion 1 [] [5]) 9 []).announce 1).clear
        1).disk).disk.data [3] = none := by
  decide +kernel

end Esker.Store
