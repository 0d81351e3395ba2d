import Esker.Store.Tiling
import Esker.Txn.Commands

/-!
Contract: what an applied entry does to a store's data (`esker-store/src/apply.rs`,
`PeerCore::apply` in `esker-store/src/peer.rs`).

Owns: the commands of the log, the scope check every command but a split goes through,
the batch each one stages, and which keys a peer's entries can change.

Does not own: how an engine key is spelled. A raw value is filed under its user key and a
transaction's records in that key's cell; both spellings keep keys apart and in order.
-/

namespace Esker.Store

open Esker.Consensus (Bytes ConfChange)
open Esker.KeyRange List
open Relation (ReflTransGen)

/-! ## Commands -/

inductive Command (K : Type) where
  | put (key : K) (value : Bytes)
  | batchPut (pairs : List (K × Bytes))
  | delete (key : K)
  | deleteRange (start stop : K)
  | compareAndSwap (key : K) (expected value : Option Bytes)
  | txn (request : Txn.Request K)
  | split (splitKey : K) (newRegionId : Nat) (newPeerIds : List Nat)
deriving DecidableEq, Repr

inductive Applied (K : Type) where
  | done
  | swapped (swapped : Bool) (previous : Option Bytes)
  | deleted (keys : Nat)
  | txn (response : Txn.Response K)
deriving DecidableEq, Repr

/-- What an entry of the log carries: a leader's empty entry, a command or a membership
change. -/
inductive Payload (K : Type) where
  | noop
  | command (command : Command K)
  | confChange (change : ConfChange)
deriving DecidableEq, Repr

/-- The user key a mutation touches; a range is addressed by its lower bound. -/
def mutationKey {K : Type} : Txn.TxnMutation K → K
  | .put key _ _ | .delete key _ | .check key _ => key
  | .checkRange first _ => first

/-- Every key a transaction command is checked for. A prewrite's primary may be in another
region, so only the keys it writes count. -/
def txnKeys {K : Type} : Txn.Request K → List K
  | .prewrite _ _ _ mutations => mutations.map mutationKey
  | .commit _ _ keys | .rollback _ keys | .releaseLock _ keys | .resolveLock _ _ keys => keys
  | .heartbeat _ primary _ => [primary]

/-- The keys the scope check asks about. A range delete is checked at its start only. -/
def Command.scopeKeys {K : Type} : Command K → List K
  | .put key _ | .delete key | .compareAndSwap key _ _ => [key]
  | .txn request => txnKeys request
  | .batchPut pairs => pairs.map Prod.fst
  | .deleteRange start _ => [start]
  | .split _ _ _ => []

section Data

variable {K : Type} [LinearOrder K]

/-- The data families of a store: raw values, and the transactional cells. -/
structure Data (K : Type) [LinearOrder K] where
  raw : SortedMap K Bytes
  cells : Txn.Store K

def Data.at (data : Data K) (key : K) : Option Bytes × Txn.Cell K :=
  (data.raw.lookup key, data.cells.get key)

variable [OrderBot K]

/-- Refuses a command whose keys are not all in the region; the refusal carries the
region and no key. -/
def checkScope (command : Command K) (region : Region K) : Except (ProtoError K) Unit :=
  if command.scopeKeys.all region.contains then .ok () else .error (.epochNotMatch [region])

def maxDeleteRangeKeys : Nat := 65536

/-- Deletes every raw key in `[start, stop)`, or fails the store where there are too
many. -/
def stageDeleteRange (data : Data K) (start stop : K) : Except (ProtoError K) (Nat × Data K) :=
  let keys := (data.raw.entries.map Prod.fst).filter fun key => decide (InRange start stop key)
  if maxDeleteRangeKeys < keys.length then
    .error (.internal s!"a committed DeleteRange covers more than {maxDeleteRangeKeys} keys")
  else .ok (keys.length, { data with raw := keys.foldl SortedMap.erase data.raw })

def stage (data : Data K) (command : Command K) (region : Region K) :
    Except (ProtoError K) (Applied K × Data K) :=
  match command with
  | .put key value => .ok (.done, { data with raw := data.raw.insert key value })
  | .batchPut pairs =>
    .ok (.done, { data with
      raw := pairs.foldl (fun raw pair => raw.insert pair.1 pair.2) data.raw })
  | .delete key => .ok (.done, { data with raw := data.raw.erase key })
  | .deleteRange start stop =>
    let stop := if stop = ⊥ then region.endKey else stop
    match stageDeleteRange data start stop with
    | .error error => .error error
    | .ok (keys, after) => .ok (.deleted keys, after)
  | .compareAndSwap key expected value =>
    let stored := data.raw.lookup key
    if stored ≠ expected then .ok (.swapped false stored, data)
    else
      match value with
      | some value => .ok (.swapped true stored, { data with raw := data.raw.insert key value })
      | none => .ok (.swapped true stored, { data with raw := data.raw.erase key })
  | .txn request =>
    let (response, cells) := Txn.handle data.cells request
    .ok (.txn response, { data with cells })
  | .split _ _ _ => .ok (.done, data)

/-- What one peer's entries change: its region, the region records and the data of the
shared database, and how far it has applied. -/
structure PeerState (K : Type) [LinearOrder K] where
  region : Region K
  records : Records K
  data : Data K
  appliedIndex : Nat

namespace PeerState

/-- `PeerCore::apply`: the answer to the proposer and the state after, or the error that
stops the driver with nothing written. -/
def apply (state : PeerState K) (index : Nat) (payload : Payload K) :
    Except (ProtoError K) (Except (ProtoError K) (Applied K) × PeerState K) :=
  let applied := { state with appliedIndex := index }
  match payload with
  | .noop => .ok (.ok .done, applied)
  | .command (.split splitKey newRegionId newPeerIds) =>
    match stageSplit state.region splitKey newRegionId newPeerIds with
    | .error refusal => .ok (.error refusal, applied)
    | .ok none => .ok (.ok .done, applied)
    | .ok (some (parent, child)) =>
      .ok (.ok .done, { applied with
        region := parent
        records := (state.records.insert parent.id parent).insert child.id child })
  | .command command =>
    match checkScope command state.region with
    | .error refusal => .ok (.error refusal, applied)
    | .ok () =>
      match stage state.data command state.region with
      | .error error => .error error
      | .ok (answer, data) => .ok (.ok answer, { applied with data })
  | .confChange change =>
    match stageConfChange state.region change with
    | .error refusal => .ok (.error refusal, applied)
    | .ok none => .ok (.ok .done, applied)
    | .ok (some moved) =>
      .ok (.ok .done, { applied with
        region := moved, records := state.records.insert moved.id moved })

end PeerState

end Data

/-! ## What a command changes -/

section Untouched

variable {K : Type} [LinearOrder K]

theorem lookup_foldl_insert {raw : SortedMap K Bytes} {pairs : List (K × Bytes)} {key : K}
    (untouched : key ∉ pairs.map Prod.fst) :
    (pairs.foldl (fun raw pair => raw.insert pair.1 pair.2) raw).lookup key = raw.lookup key := by
  induction pairs generalizing raw with
  | nil => rfl
  | cons pair rest ih =>
    rw [map_cons, mem_cons, not_or] at untouched
    rw [foldl_cons, ih untouched.2, SortedMap.lookup_insert_of_ne _ _ untouched.1]

theorem lookup_erase_of_ne {raw : SortedMap K Bytes} {key other : K} (differs : other ≠ key) :
    (raw.erase key).lookup other = raw.lookup other := by
  ext value
  rw [SortedMap.lookup_eq_some_iff, SortedMap.lookup_eq_some_iff, SortedMap.mem_erase]
  exact and_iff_right differs

theorem mem_foldl_erase {raw : SortedMap K Bytes} {keys : List K} {key : K} {value : Bytes} :
    (key, value) ∈ keys.foldl SortedMap.erase raw ↔ key ∉ keys ∧ (key, value) ∈ raw := by
  induction keys generalizing raw with
  | nil => simp
  | cons first rest ih =>
    rw [foldl_cons, ih, SortedMap.mem_erase, mem_cons, not_or]
    tauto

variable {store : Txn.Store K} {staged : List (K × Txn.Mutation K)}

theorem get_stage_of_not_mem {key : K} (untouched : ∀ entry ∈ staged, entry.1 ≠ key) :
    (store.stage staged).get key = store.get key := by
  have flattened : staged.flatMap (fun entry => [entry]) = staged := by
    simp
  rw [← flattened]
  refine Txn.Store.get_stage_untouched ?_
  intro item present entry staging
  rw [mem_singleton.mp staging]
  exact untouched item present

omit [LinearOrder K] in
theorem decideAll_keys {decide : K → Except Txn.TxnError (List (Txn.Mutation K))} {keys : List K}
    (decided : Txn.decideAll decide keys = .ok staged) :
    ∀ entry ∈ staged, entry.1 ∈ keys := by
  induction keys generalizing staged with
  | nil =>
    cases decided
    intro entry mem
    cases mem
  | cons key rest ih =>
    rw [Txn.decideAll] at decided
    split at decided
    · cases decided
    split at decided
    · cases decided
    rename_i mutations _ others decidedRest
    cases decided
    intro entry mem
    rcases mem_append.mp mem with own | other
    · obtain ⟨_, _, rfl⟩ := mem_map.mp own
      exact mem_cons_self
    · exact mem_cons_of_mem _ (ih decidedRest entry other)

theorem prewriteOne_keys {startTs ttlMs : Nat} {primary : K} {mutation : Txn.TxnMutation K} :
    ∀ entry ∈ (Txn.prewriteOne store startTs primary ttlMs mutation).2,
      entry.1 = mutationKey mutation := by
  have own : ∀ request : Txn.Prewrite K, ∀ entry ∈ (Txn.prewriteKey store request).2,
      entry.1 = request.key := by
    intro request entry mem
    rw [Txn.prewriteKey] at mem
    split at mem
    · obtain ⟨_, _, rfl⟩ := mem_map.mp mem
      rfl
    · cases mem
  intro entry mem
  cases mutation with
  | put | delete | check => exact own _ entry mem
  | checkRange first last => cases mem

/-- A transaction command stages cells of the keys it is checked for. -/
theorem handle_stages (store : Txn.Store K) (request : Txn.Request K) :
    ∃ staged, (Txn.handle store request).2 = store.stage staged ∧
      ∀ entry ∈ staged, entry.1 ∈ txnKeys request := by
  have nothing : ∃ staged, store = store.stage staged ∧
      ∀ entry ∈ staged, entry.1 ∈ txnKeys request := ⟨[], rfl, nofun⟩
  cases request with
  | prewrite startTs primary ttlMs mutations =>
    rw [Txn.handle, Txn.prewrite]
    split_ifs
    · refine ⟨_, rfl, fun entry mem => ?_⟩
      obtain ⟨decided, decidedMember, staging⟩ := mem_flatMap.mp mem
      obtain ⟨mutation, present, rfl⟩ := mem_map.mp decidedMember
      rw [prewriteOne_keys entry staging]
      exact mem_map_of_mem present
    · exact nothing
  | commit startTs commitTs keys =>
    rw [Txn.handle, Txn.commit]
    split
    · exact nothing
    · rename_i staged decided
      exact ⟨staged, rfl, decideAll_keys decided⟩
  | rollback startTs keys =>
    rw [Txn.handle, Txn.rollbackKeys]
    split
    · exact nothing
    · rename_i staged decided
      exact ⟨staged, rfl, decideAll_keys decided⟩
  | releaseLock startTs keys | resolveLock startTs commitTs keys =>
    refine ⟨_, rfl, fun entry mem => ?_⟩
    obtain ⟨own, present, staging⟩ := mem_flatMap.mp mem
    obtain ⟨_, _, rfl⟩ := mem_map.mp staging
    exact present
  | heartbeat startTs primary ttlMs =>
    rw [Txn.handle, Txn.heartbeat]
    split
    · exact nothing
    split_ifs
    · refine ⟨_, rfl, fun entry mem => ?_⟩
      rw [mem_singleton.mp mem]
      exact mem_singleton_self _
    · exact nothing

theorem handle_untouched {request : Txn.Request K} {key : K} (untouched : key ∉ txnKeys request) :
    (Txn.handle store request).2.get key = store.get key := by
  obtain ⟨staged, isStaged, own⟩ := handle_stages store request
  rw [isStaged]
  refine get_stage_of_not_mem ?_
  rintro entry mem rfl
  exact untouched (own entry mem)

end Untouched

/-! ## The frame of an entry -/

section Frame

variable {K : Type} [LinearOrder K] [OrderBot K] (region : Region K)

/-- Every record that differs belongs to a key of the region. -/
def ChangesOnly (before after : Data K) : Prop :=
  ∀ key, after.at key ≠ before.at key → region.contains key = true

/-- A range delete that starts in the region and names an end finds no raw key between the
region's end and its own. -/
def Clamped (data : Data K) : Payload K → Prop
  | .command (.deleteRange start stop) =>
    region.contains start = true → stop ≠ ⊥ → region.endKey ≠ ⊥ →
      ∀ key value, (key, value) ∈ data.raw → region.endKey ≤ key → stop ≤ key
  | _ => True

theorem changesOnly_refl (data : Data K) : ChangesOnly region data data := by
  intro key differs
  exact absurd rfl differs

variable {region : Region K} {data after : Data K} {state next : PeerState K} {index : Nat}
  {payload : Payload K} {answer : Except (ProtoError K) (Applied K)}

theorem changesOnly_raw {raw : SortedMap K Bytes}
    (kept : ∀ key, region.contains key = false → raw.lookup key = data.raw.lookup key) :
    ChangesOnly region data { data with raw } := by
  intro key differs
  by_contra outside
  rw [Bool.not_eq_true] at outside
  apply differs
  rw [Data.at, Data.at, kept key outside]

theorem ne_of_contains {key other : K} (inside : region.contains key = true)
    (outside : region.contains other = false) : other ≠ key := by
  rintro rfl
  rw [inside] at outside
  cases outside

theorem stageDeleteRange_at {start stop : K} {count : Nat}
    (staged : stageDeleteRange data start stop = .ok (count, after)) (key : K) :
    after.at key ≠ data.at key ↔ InRange start stop key ∧ ∃ value, (key, value) ∈ data.raw := by
  rw [stageDeleteRange] at staged
  split_ifs at staged with tooMany
  simp only [Except.ok.injEq, Prod.mk.injEq] at staged
  obtain ⟨_, rfl⟩ := staged
  have scanned : key ∈ ((data.raw.entries.map Prod.fst).filter
      fun key => decide (InRange start stop key)) ↔
        InRange start stop key ∧ ∃ value, (key, value) ∈ data.raw := by
    rw [mem_filter, mem_map, decide_eq_true_eq, and_comm]
    refine and_congr_right fun _ => ?_
    constructor
    · rintro ⟨⟨_, value⟩, mem, rfl⟩
      exact ⟨value, mem⟩
    · rintro ⟨value, mem⟩
      exact ⟨(key, value), mem, rfl⟩
  rw [← scanned]
  constructor
  · intro differs
    by_contra skipped
    apply differs
    rw [Data.at, Data.at]
    congr 1
    ext value
    rw [SortedMap.lookup_eq_some_iff, SortedMap.lookup_eq_some_iff, mem_foldl_erase]
    exact and_iff_right skipped
  · intro removed same
    obtain ⟨value, mem⟩ := (scanned.mp removed).2
    have stillThere := congrArg Prod.fst same
    dsimp only [Data.at] at stillThere
    rw [SortedMap.lookup_eq_some_iff.mpr mem, SortedMap.lookup_eq_some_iff,
      mem_foldl_erase] at stillThere
    exact stillThere.1 removed

/-- The frame of a staged command that passed the scope check: its region's keys, exactly
when a range delete is clamped. -/
theorem stage_changesOnly_iff {command : Command K} {answer : Applied K}
    (allInside : command.scopeKeys.all region.contains = true)
    (staged : stage data command region = .ok (answer, after)) :
    ChangesOnly region data after ↔ Clamped region data (.command command) := by
  rw [all_eq_true] at allInside
  cases command with
  | put key value =>
    cases staged
    refine iff_of_true (changesOnly_raw fun other outside => ?_) trivial
    exact SortedMap.lookup_insert_of_ne _ _
      (ne_of_contains (allInside key (mem_singleton_self _)) outside)
  | batchPut pairs =>
    cases staged
    refine iff_of_true (changesOnly_raw fun other outside => ?_) trivial
    refine lookup_foldl_insert fun mem => ?_
    exact ne_of_contains (allInside other mem) outside rfl
  | delete key =>
    cases staged
    refine iff_of_true (changesOnly_raw fun other outside => ?_) trivial
    exact lookup_erase_of_ne (ne_of_contains (allInside key (mem_singleton_self _)) outside)
  | compareAndSwap key expected value =>
    refine iff_of_true ?_ trivial
    have inside := allInside key (mem_singleton_self _)
    rw [stage.eq_def] at staged
    dsimp only at staged
    split_ifs at staged
    · cases staged
      exact changesOnly_refl region data
    cases value with
    | some value =>
      cases staged
      exact changesOnly_raw fun other outside =>
        SortedMap.lookup_insert_of_ne _ _ (ne_of_contains inside outside)
    | none =>
      cases staged
      exact changesOnly_raw fun other outside =>
        lookup_erase_of_ne (ne_of_contains inside outside)
  | txn request =>
    simp only [stage, Except.ok.injEq, Prod.mk.injEq] at staged
    obtain ⟨_, rfl⟩ := staged
    refine iff_of_true ?_ trivial
    intro key differs
    by_contra outside
    apply differs
    have untouched : key ∉ txnKeys request := fun mem => outside (allInside key mem)
    rw [Data.at, Data.at, handle_untouched untouched]
  | split splitKey newRegionId newPeerIds =>
    cases staged
    exact iff_of_true (changesOnly_refl region data) trivial
  | deleteRange start stop =>
    have inside := allInside start (mem_singleton_self _)
    have begins := (Region.contains_iff.mp inside).1
    rw [stage] at staged
    split at staged
    · cases staged
    rename_i count removed deleted
    cases staged
    have changed := stageDeleteRange_at deleted
    constructor
    · intro only _ named bounded key value mem past
      by_contra below
      rw [not_le] at below
      have removedKey := (changed key).mpr
      rw [if_neg named] at removedKey
      have ends := (Region.contains_iff.mp inside).2.resolve_left bounded
      have owned := only key (removedKey ⟨⟨ends.le.trans past, .inr below⟩, value, mem⟩)
      have before := (Region.contains_iff.mp owned).2.resolve_left bounded
      exact absurd (before.trans_le past) (lt_irrefl key)
    · intro clamped key differs
      obtain ⟨⟨fromStart, toStop⟩, value, mem⟩ := (changed key).mp differs
      rw [Region.contains_iff]
      refine ⟨begins.trans fromStart, ?_⟩
      by_cases open_ : stop = ⊥
      · rw [if_pos open_] at toStop
        exact toStop
      rw [if_neg open_] at toStop
      by_contra outside
      rw [not_or, not_lt] at outside
      have past := clamped inside open_ outside.1 key value mem outside.2
      exact absurd ((toStop.resolve_left open_).trans_le past) (lt_irrefl key)

theorem PeerState.apply_command {command : Command K}
    (notSplit : ¬∃ splitKey newRegionId newPeerIds,
      command = .split splitKey newRegionId newPeerIds) : state.apply index (.command command) =
      match checkScope command state.region with
      | .error refusal => .ok (.error refusal, { state with appliedIndex := index })
      | .ok () =>
        match stage state.data command state.region with
        | .error error => .error error
        | .ok (answer, data) => .ok (.ok answer, { state with appliedIndex := index, data }) := by
  cases command with
  | split splitKey newRegionId newPeerIds => exact absurd ⟨_, _, _, rfl⟩ notSplit
  | _ => rfl

/-- What an applied entry does to the state of its region. -/
inductive PeerState.ApplyStep (state : PeerState K) (index : Nat) :
    Payload K → PeerState K → Prop
  /-- Nothing to do, or refused. -/
  | unchanged (payload : Payload K) :
      ApplyStep state index payload { state with appliedIndex := index }
  | moved {change moved} (staged : stageConfChange state.region change = .ok (some moved)) :
      ApplyStep state index (.confChange change)
        ⟨moved, state.records.insert moved.id moved, state.data, index⟩
  | divided {splitKey newRegionId newPeerIds parent child}
      (staged : stageSplit state.region splitKey newRegionId newPeerIds =
        .ok (some (parent, child))) :
      ApplyStep state index (.command (.split splitKey newRegionId newPeerIds))
        ⟨parent, (state.records.insert parent.id parent).insert child.id child, state.data, index⟩
  | written {command answer data}
      (staged : stage state.data command state.region = .ok (answer, data)) :
      ApplyStep state index (.command command) ⟨state.region, state.records, data, index⟩

theorem PeerState.apply_step (applied : state.apply index payload = .ok (answer, next)) :
    state.ApplyStep index payload next := by
  cases payload with
  | noop =>
    cases applied
    exact .unchanged _
  | confChange change =>
    rw [PeerState.apply] at applied
    split at applied <;> cases applied
    case h_3 staged => exact .moved staged
    all_goals exact .unchanged _
  | command command =>
    by_cases divides : ∃ splitKey newRegionId newPeerIds,
        command = .split splitKey newRegionId newPeerIds
    · obtain ⟨splitKey, newRegionId, newPeerIds, rfl⟩ := divides
      rw [PeerState.apply] at applied
      split at applied <;> cases applied
      case h_3 staged => exact .divided staged
      all_goals exact .unchanged _
    · rw [PeerState.apply_command divides] at applied
      split at applied
      next =>
        cases applied
        exact .unchanged _
      next =>
        split at applied
        · cases applied
        next staged =>
          cases applied
          exact .written staged

theorem PeerState.apply_frame (applied : state.apply index payload = .ok (answer, next)) :
    (ChangesOnly state.region state.data next.data ↔ Clamped state.region state.data payload) ∧
    ∀ key, next.region.contains key = true → state.region.contains key = true := by
  have step := PeerState.apply_step applied
  constructor
  · cases payload with
    | noop | confChange change =>
      cases step <;> exact iff_of_true (changesOnly_refl _ _) trivial
    | command command =>
      by_cases divides : ∃ splitKey newRegionId newPeerIds,
          command = .split splitKey newRegionId newPeerIds
      · obtain ⟨splitKey, newRegionId, newPeerIds, rfl⟩ := divides
        cases step with
        | unchanged | divided => exact iff_of_true (changesOnly_refl _ _) trivial
        | written staged =>
          cases staged
          exact iff_of_true (changesOnly_refl _ _) trivial
      rw [PeerState.apply_command divides, checkScope] at applied
      split_ifs at applied with allInside
      · dsimp only at applied
        split at applied <;> cases applied
        rename_i staged
        exact stage_changesOnly_iff allInside staged
      · cases applied
        refine iff_of_true (changesOnly_refl _ _) ?_
        -- A refused command stages nothing; a range delete is refused for its start.
        cases command with
        | deleteRange start stop =>
          intro inside
          apply absurd _ allInside
          simpa [Command.scopeKeys] using inside
        | _ => exact trivial
  · intro key inside
    cases step with
    | unchanged | written => exact inside
    | moved staged =>
      obtain ⟨storeId, computed, _⟩ := stageConfChange_some staged
      rw [(applyConfChange_ok computed).2] at inside
      exact inside
    | divided staged =>
      obtain ⟨divides, split⟩ := stageSplit_some staged
      exact (contains_divided divides split key).mpr (.inl inside)

/-! ## Runs -/

/-- One entry applied by the peer, with every range delete clamped. -/
inductive ClampedStep (state next : PeerState K) : Prop
  | entry (index : Nat) (payload : Payload K) (answer : Except (ProtoError K) (Applied K))
      (clamped : Clamped state.region state.data payload)
      (applied : state.apply index payload = .ok (answer, next))

/-- Along a run of clamped entries no record of a key outside the first region changes,
and the region only shrinks. -/
theorem ClampedStep.run_frame {start : PeerState K} (run : ReflTransGen ClampedStep start state) :
    (∀ key, start.region.contains key = false → state.data.at key = start.data.at key) ∧
      ∀ key, state.region.contains key = true → start.region.contains key = true := by
  induction run with
  | refl => exact ⟨fun _ _ => rfl, fun _ inside => inside⟩
  | tail _ step ih =>
    obtain ⟨kept, shrunk⟩ := ih
    obtain ⟨index, payload, answer, clamped, applied⟩ := step
    obtain ⟨frame, narrower⟩ := PeerState.apply_frame applied
    refine ⟨?_, fun key inside => shrunk key (narrower key inside)⟩
    intro key outside
    rw [← kept key outside]
    by_contra differs
    have owned := shrunk key (frame.mpr clamped key differs)
    rw [owned] at outside
    cases outside

/-- In a run whose entries are all clamped, the next entry changes only keys of the region
as it stands, exactly when it is clamped too; and from any state on, so from the one a
split leaves, nothing outside the region of that state is changed by the entries after
it. -/
theorem applied_entries_change_own_keys {start state : PeerState K}
    (run : ReflTransGen ClampedStep start state) :
    (∀ index payload answer next, state.apply index payload = .ok (answer, next) →
      (ChangesOnly state.region state.data next.data ↔
        Clamped state.region state.data payload)) ∧
    (∀ key, start.region.contains key = false → state.data.at key = start.data.at key) ∧
    ∀ key, state.region.contains key = true → start.region.contains key = true := by
  refine ⟨?_, ClampedStep.run_frame run⟩
  intro index payload answer next applied
  exact (PeerState.apply_frame applied).1

/-- Applies a log in order, stopping where the driver stops. -/
def PeerState.applyLog (state : PeerState K) :
    List (Nat × Payload K) → Except (ProtoError K) (PeerState K)
  | [] => .ok state
  | (index, payload) :: rest =>
    match state.apply index payload with
    | .error error => .error error
    | .ok (_, next) => next.applyLog rest

end Frame

/-- A peer of one region with the whole key space, which holds the raw key `[7]`. -/
def loadedPeer : PeerState Bytes :=
  ⟨Region.bootstrap 1 1 1, oneRecord (Region.bootstrap 1 1 1),
    ⟨SortedMap.empty.insert [7] [1], []⟩, 0⟩

/-- After a split the child's key keeps its value, whatever the parent goes on to apply. -/
theorem put_after_split_keeps_child_key :
    ∃ state : PeerState Bytes, ReflTransGen ClampedStep loadedPeer state ∧
      state.region.contains [7] = false ∧
      ∀ later, ReflTransGen ClampedStep state later →
        later.data.at [7] = state.data.at [7] := by
  refine ⟨_, ReflTransGen.refl.tail (ClampedStep.entry 1
    (.command (.split [5] 2 [9])) (.ok .done) trivial rfl), by decide +kernel, ?_⟩
  intro later run
  exact (applied_entries_change_own_keys run).2.1 [7] (by decide +kernel)

/-- A range delete that names an end, ordered after a split at `[5]`, deletes the child's
key `[7]`. -/
theorem deleteRange_after_split_deletes_child_key :
    ((loadedPeer.applyLog [(1, .command (.split [5] 2 [9]))]).toOption.map fun state =>
        (state.region.contains [7], state.data.raw.lookup [7])) = some (false, some [1]) ∧
      ((loadedPeer.applyLog [(1, .command (.split [5] 2 [9])),
        (2, .command (.deleteRange [1] [9]))]).toOption.map fun state =>
          (state.region.contains [7], state.data.raw.lookup [7])) = some (false, none) := by
  decide +kernel

end Esker.Store
