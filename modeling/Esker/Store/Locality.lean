import Esker.Store.Apply

/-!
Contract: what an entry reads. A peer's entry does the same to its region on two stores that
agree on the region's keys, whatever else the stores hold.

Owns: agreement of two stores on a region, the entries whose ranges end inside their region,
and that such an entry keeps the agreement.
-/

namespace Esker.Txn

open List

variable {K : Type} [LinearOrder K]

/-! ## Cells in key order -/

def Store.Sorted (store : Store K) : Prop :=
  store.Pairwise fun left right => left.1 < right.1

variable {store : Store K} {entry : K × Cell K} {cell : Cell K}

theorem Store.fst_of_mem_set {key : K}
    (mem : entry ∈ store.set key cell) : entry.1 = key ∨ entry ∈ store := by
  induction store with
  | nil =>
    rw [mem_singleton.mp mem]
    exact .inl rfl
  | cons head rest ih =>
    obtain ⟨present, old⟩ := head
    rw [Store.set] at mem
    split_ifs at mem with same below
    · rcases mem_cons.mp mem with rfl | behind
      · exact .inl rfl
      · exact .inr (mem_cons_of_mem _ behind)
    · rcases mem_cons.mp mem with rfl | behind
      · exact .inl rfl
      · exact .inr behind
    rcases mem_cons.mp mem with rfl | behind
    · exact .inr mem_cons_self
    · exact (ih behind).imp id (mem_cons_of_mem _)

theorem Store.Sorted.set (sorted : store.Sorted) (key : K) (cell : Cell K) :
    (store.set key cell).Sorted := by
  induction store with
  | nil => exact pairwise_singleton _ _
  | cons head rest ih =>
    obtain ⟨present, old⟩ := head
    obtain ⟨least, tailSorted⟩ := pairwise_cons.mp sorted
    rw [Store.set]
    split_ifs with same below
    · rw [← same]
      exact pairwise_cons.mpr ⟨least, tailSorted⟩
    · refine pairwise_cons.mpr ⟨?_, sorted⟩
      intro entry mem
      rcases mem_cons.mp mem with rfl | behind
      · exact below
      · exact below.trans (least entry behind)
    · refine pairwise_cons.mpr ⟨?_, ih tailSorted⟩
      intro entry mem
      rcases Store.fst_of_mem_set mem with isKey | behind
      · show present < entry.1
        rw [isKey]
        exact lt_of_le_of_ne (not_lt.mp below) same
      · exact least entry behind

theorem Store.Sorted.stage (sorted : store.Sorted)
    (staged : List (K × Mutation K)) : (store.stage staged).Sorted := by
  induction staged generalizing store with
  | nil => exact sorted
  | cons entry rest ih => exact ih (sorted.set _ _)

theorem Store.Sorted.handle (sorted : store.Sorted) (request : Request K) :
    (handle store request).2.Sorted := by
  obtain ⟨staged, isStaged, _⟩ := Esker.Store.handle_stages store request
  rw [isStaged]
  exact sorted.stage staged

theorem Store.Sorted.get_of_mem (sorted : store.Sorted) {key : K}
    (mem : (key, cell) ∈ store) : store.get key = cell := by
  induction store with
  | nil => cases mem
  | cons head rest ih =>
    obtain ⟨present, old⟩ := head
    obtain ⟨least, tailSorted⟩ := pairwise_cons.mp sorted
    rw [Store.get]
    rcases mem_cons.mp mem with same | behind
    · cases same
      rw [if_pos rfl]
    · rw [if_neg (least _ behind).ne]
      exact ih tailSorted behind

theorem Store.mem_of_get_ne {key : K} (written : store.get key ≠ .empty) :
    (key, store.get key) ∈ store := by
  induction store with
  | nil => exact absurd rfl written
  | cons head rest ih =>
    obtain ⟨present, old⟩ := head
    rw [Store.get] at written ⊢
    split_ifs at written ⊢ with same
    · rw [same]
      exact mem_cons_self
    · exact mem_cons_of_mem _ (ih written)

/-! ## Reads of two stores -/

variable {β : Type}

theorem findSome_isSome {α : Type} (found : α → Option β) (list : List α) :
    list.findSome? found = (list.filter fun item => (found item).isSome).findSome? found := by
  induction list with
  | nil => rfl
  | cons head rest ih =>
    cases answer : found head with
    | none => simp [answer, ih]
    | some value => simp [answer]

section Agreement

variable {inside : K → Bool} {one two : Store K} {found : K × Cell K → Option β}

theorem Store.mem_scan (idle : ∀ key, found (key, .empty) = none)
    (oneSorted : one.Sorted) (same : ∀ key, inside key = true → one.get key = two.get key)
    (mem : entry ∈ (one.filter fun entry => inside entry.1).filter
      fun entry => (found entry).isSome) : entry ∈ (two.filter fun entry => inside entry.1).filter
      fun entry => (found entry).isSome := by
  obtain ⟨key, cell⟩ := entry
  rw [mem_filter, mem_filter] at mem ⊢
  obtain ⟨⟨held, within⟩, answers⟩ := mem
  have isCell : two.get key = cell := by
    rw [← same key within, oneSorted.get_of_mem held]
  have written : two.get key ≠ .empty := by
    intro isEmpty
    rw [← isCell, isEmpty, idle] at answers
    cases answers
  have present := Store.mem_of_get_ne written
  rw [isCell] at present
  exact ⟨⟨present, within⟩, answers⟩

theorem Store.scan_congr (idle : ∀ key, found (key, .empty) = none)
    (oneSorted : one.Sorted) (twoSorted : two.Sorted)
    (same : ∀ key, inside key = true → one.get key = two.get key) :
    (one.filter fun entry => inside entry.1).findSome? found =
      (two.filter fun entry => inside entry.1).findSome? found := by
  rw [findSome_isSome, findSome_isSome found (two.filter _)]
  congr 1
  refine eq_of_sorted_of_mem_iff (fun _ _ => lt_asymm) ((oneSorted.filter _).filter _)
    ((twoSorted.filter _).filter _) ?_
  intro entry
  constructor
  · exact Store.mem_scan idle oneSorted same
  · exact Store.mem_scan idle twoSorted fun key within => (same key within).symm

theorem checkRange_congr (oneSorted : one.Sorted) (twoSorted : two.Sorted) {first last : K}
    (same : ∀ key, first ≤ key → key < last → one.get key = two.get key) (startTs : Nat) :
    checkRange one startTs first last = checkRange two startTs first last := by
  have inRange : ∀ key, (decide (first ≤ key) && decide (key < last)) = true →
      one.get key = two.get key := by
    intro key within
    rw [Bool.and_eq_true, decide_eq_true_eq, decide_eq_true_eq] at within
    exact same key within.1 within.2
  have writes : one.newestWriteInRange first last startTs =
      two.newestWriteInRange first last startTs :=
    Store.scan_congr (fun _ => rfl) oneSorted twoSorted inRange
  have locks : one.foreignLockInRange first last startTs =
      two.foreignLockInRange first last startTs :=
    Store.scan_congr (fun _ => rfl) oneSorted twoSorted inRange
  rw [checkRange, checkRange, writes, locks]

theorem Store.stage_congr {key : K} (same : one.get key = two.get key)
    (staged : List (K × Mutation K)) : (one.stage staged).get key = (two.stage staged).get key := by
  rw [Store.get_stage, Store.get_stage, same]

omit [LinearOrder K] in
theorem decideAll_congr {left right : K → Except TxnError (List (Mutation K))} {keys : List K}
    (same : ∀ key ∈ keys, left key = right key) : decideAll left keys = decideAll right keys := by
  induction keys with
  | nil => rfl
  | cons key rest ih =>
    rw [decideAll, decideAll, same key mem_cons_self,
      ih fun other mem => same other (mem_cons_of_mem _ mem)]

theorem Store.stage_keys_congr {keys : List K} {chosen others : K → List (Mutation K)} {key : K}
    (same : one.get key = two.get key) (each : ∀ key ∈ keys, chosen key = others key) :
    (one.stage (keys.flatMap fun key => (chosen key).map (key, ·))).get key =
      (two.stage (keys.flatMap fun key => (others key).map (key, ·))).get key := by
  rw [flatMap_congr fun key mem => congrArg (map (key, ·)) (each key mem)]
  exact Store.stage_congr same _

end Agreement

end Esker.Txn

namespace Esker.Store

open Esker.Consensus (Bytes)
open Esker.KeyRange List

variable {K : Type} [LinearOrder K] [OrderBot K]

/-! ## Entries that keep to their region -/

/-- No key past the region's end is below `stop`. -/
def EndsInside (region : Region K) (stop : K) : Prop :=
  region.endKey = ⊥ ∨ stop ≤ region.endKey

/-- The ranges an entry deletes or checks end inside its region, if they start there. -/
def Local (region : Region K) : Payload K → Prop
  | .command (.deleteRange start stop) =>
    region.contains start = true → stop ≠ ⊥ → EndsInside region stop
  | .command (.txn (.prewrite _ _ _ mutations)) =>
    ∀ first last, .checkRange first last ∈ mutations → region.contains first = true →
      EndsInside region last
  | _ => True

variable {payload : Payload K} {region : Region K}

theorem Local.clamped (keeps : Local region payload)
    (data : Data K) : Clamped region data payload := by
  cases payload with
  | noop | confChange => exact trivial
  | command command =>
    cases command with
    | deleteRange start stop =>
      intro inside named bounded key value _ past
      exact ((keeps inside named).resolve_left bounded).trans past
    | _ => exact trivial

theorem contains_of_between {start stop key : K}
    (inside : region.contains start = true) (ends : EndsInside region stop)
    (above : start ≤ key) (below : key < stop) : region.contains key = true := by
  rw [Region.contains_iff] at inside ⊢
  refine ⟨inside.1.trans above, ?_⟩
  rcases ends with unbounded | within
  · exact .inl unbounded
  · exact .inr (below.trans_le within)

/-- Two stores hold the same records for the region's keys. -/
def AgreesOn (region : Region K) (left right : Data K) : Prop :=
  ∀ key, region.contains key = true → left.at key = right.at key

namespace AgreesOn

variable {region : Region K} {left right : Data K}

section

variable (agrees : AgreesOn region left right)
include agrees

theorem symm : AgreesOn region right left :=
  fun key inside => (agrees key inside).symm

omit agrees in
theorem trans {third : Data K} (first : AgreesOn region left right)
    (second : AgreesOn region right third) : AgreesOn region left third :=
  fun key inside => (first key inside).trans (second key inside)

theorem raw {key : K}
    (inside : region.contains key = true) : left.raw.lookup key = right.raw.lookup key :=
  congrArg Prod.fst (agrees key inside)

theorem cells {key : K}
    (inside : region.contains key = true) : left.cells.get key = right.cells.get key :=
  congrArg Prod.snd (agrees key inside)

theorem withRaw {one two : SortedMap K Bytes}
    (same : ∀ key, region.contains key = true → one.lookup key = two.lookup key) :
    AgreesOn region { left with raw := one } { right with raw := two } := by
  intro key inside
  rw [Data.at, Data.at, same key inside, agrees.cells inside]

end

end AgreesOn

section Raw

variable {one two : SortedMap K Bytes} {key : K}

section

variable (same : one.lookup key = two.lookup key)
include same

omit [OrderBot K] in
theorem lookup_insert_congr (other : K) (value : Bytes) :
    (one.insert other value).lookup key = (two.insert other value).lookup key := by
  by_cases isKey : key = other
  · rw [isKey, SortedMap.lookup_insert_self, SortedMap.lookup_insert_self]
  · rw [SortedMap.lookup_insert_of_ne _ _ isKey, SortedMap.lookup_insert_of_ne _ _ isKey, same]

omit [OrderBot K] in
theorem lookup_erase_congr (other : K) :
    (one.erase other).lookup key = (two.erase other).lookup key := by
  by_cases isKey : key = other
  · have gone : ∀ map : SortedMap K Bytes, (map.erase other).lookup key = none := by
      intro map
      rw [SortedMap.lookup_eq_none_iff]
      intro value mem
      exact (SortedMap.mem_erase.mp mem).1 isKey
    rw [gone, gone]
  · rw [lookup_erase_of_ne isKey, lookup_erase_of_ne isKey, same]

end

theorem scanned_congr {start stop : K}
    (same : ∀ key, InRange start stop key → one.lookup key = two.lookup key) :
    (one.entries.map Prod.fst).filter (fun key => decide (InRange start stop key)) =
      (two.entries.map Prod.fst).filter fun key => decide (InRange start stop key) := by
  have sorted : ∀ map : SortedMap K Bytes, (map.entries.map Prod.fst).Pairwise (· < ·) :=
    fun map => pairwise_map.mpr map.sorted
  have found : ∀ (map : SortedMap K Bytes) key, key ∈ map.entries.map Prod.fst ↔
      ∃ value, map.lookup key = some value := by
    intro map key
    rw [mem_map]
    constructor
    · rintro ⟨⟨_, value⟩, mem, rfl⟩
      exact ⟨value, SortedMap.lookup_eq_some_iff.mpr mem⟩
    · rintro ⟨value, held⟩
      exact ⟨(key, value), SortedMap.lookup_eq_some_iff.mp held, rfl⟩
  refine eq_of_sorted_of_mem_iff (fun _ _ => lt_asymm) ((sorted one).filter _)
    ((sorted two).filter _) ?_
  intro key
  rw [mem_filter, mem_filter, decide_eq_true_eq, found, found]
  refine and_congr_left ?_
  intro within
  rw [same key within]

end Raw

/-! ## Requests -/

section Requests

open Esker.Txn

variable {region : Region K} {one two : Txn.Store K}

/-- A request checked for keys of the region answers and writes the same on both stores. -/
theorem handle_congr {request : Txn.Request K}
    (inScope : ∀ key ∈ txnKeys request, region.contains key = true)
    (keeps : Local region (.command (.txn request)))
    (oneSorted : one.Sorted) (twoSorted : two.Sorted)
    (same : ∀ key, region.contains key = true → one.get key = two.get key) :
    (handle one request).1 = (handle two request).1 ∧ ∀ key, region.contains key = true →
        (handle one request).2.get key = (handle two request).2.get key := by
  cases request with
  | prewrite startTs primary ttlMs mutations =>
    have decided : mutations.map (prewriteOne one startTs primary ttlMs) =
        mutations.map (prewriteOne two startTs primary ttlMs) := by
      refine map_congr_left ?_
      intro mutation mem
      have inside := inScope (mutationKey mutation) (mem_map_of_mem mem)
      cases mutation with
      | put key | delete key | check key =>
        rw [prewriteOne, prewriteOne, prewriteKey, prewriteKey, same key inside]
      | checkRange first last =>
        have ends := keeps first last mem inside
        rw [prewriteOne, prewriteOne, checkRange_congr oneSorted twoSorted]
        intro key above below
        exact same key (contains_of_between inside ends above below)
    rw [handle, handle, prewrite, prewrite, decided]
    refine ⟨rfl, ?_⟩
    intro key inside
    split_ifs
    · exact Store.stage_congr (same key inside) _
    · exact same key inside
  | commit startTs commitTs keys =>
    have decided : decideAll (commitOne one startTs commitTs) keys =
        decideAll (commitOne two startTs commitTs) keys := by
      refine decideAll_congr fun key mem => ?_
      rw [commitOne, commitOne, same key (inScope key mem)]
    rw [handle, handle, commit, commit, decided]
    split
    · exact ⟨rfl, same⟩
    · exact ⟨rfl, fun key inside => Store.stage_congr (same key inside) _⟩
  | rollback startTs keys =>
    have decided : decideAll (fun key => rollback (one.get key) startTs) keys =
        decideAll (fun key => rollback (two.get key) startTs) keys := by
      refine decideAll_congr fun key mem => ?_
      rw [same key (inScope key mem)]
    rw [handle, handle, rollbackKeys, rollbackKeys, decided]
    split
    · exact ⟨rfl, same⟩
    · exact ⟨rfl, fun key inside => Store.stage_congr (same key inside) _⟩
  | releaseLock startTs keys =>
    have released : ∀ key ∈ keys, release (one.get key) startTs = release (two.get key) startTs :=
      fun key mem => by rw [same key (inScope key mem)]
    refine ⟨congrArg Response.releaseLock (countP_congr fun key mem => ?_), fun key inside =>
      Store.stage_keys_congr (same key inside) fun key mem => ?_⟩ <;> rw [released key mem]
  | resolveLock startTs commitTs keys =>
    have resolved : ∀ key ∈ keys, resolveOne one startTs commitTs key =
        resolveOne two startTs commitTs key := by
      intro key mem
      rw [resolveOne, resolveOne, same key (inScope key mem)]
    refine ⟨congrArg Response.resolveLock (countP_congr fun key mem => ?_), fun key inside =>
      Store.stage_keys_congr (same key inside) fun key mem => ?_⟩ <;> rw [resolved key mem]
  | heartbeat startTs primary ttlMs =>
    have atPrimary := same primary (inScope primary (mem_singleton_self _))
    rw [handle, handle, heartbeat, heartbeat, atPrimary]
    cases (two.get primary).lockOf startTs with
    | none => exact ⟨rfl, same⟩
    | some lock =>
      dsimp only
      split_ifs
      · exact ⟨rfl, fun key inside => Store.stage_congr (same key inside) _⟩
      · exact ⟨rfl, same⟩

end Requests

/-! ## Entries -/

variable {region : Region K} {left right after : Data K} {answer : Applied K} {command : Command K}

theorem stage_congr (inScope : command.scopeKeys.all region.contains = true)
    (keeps : Local region (.command command)) (leftSorted : left.cells.Sorted)
    (rightSorted : right.cells.Sorted) (agrees : AgreesOn region left right)
    (staged : stage left command region = .ok (answer, after)) :
    ∃ twin, stage right command region = .ok (answer, twin) ∧ AgreesOn region after twin := by
  rw [all_eq_true] at inScope
  cases command with
  | put key value =>
    cases staged
    refine ⟨_, rfl, agrees.withRaw ?_⟩
    exact fun other inside => lookup_insert_congr (agrees.raw inside) key value
  | batchPut pairs =>
    cases staged
    refine ⟨_, rfl, agrees.withRaw ?_⟩
    exact fun other inside => foldl_rel
      (r := fun (one two : SortedMap K Bytes) => one.lookup other = two.lookup other)
      (agrees.raw inside) fun pair _ _ _ same => lookup_insert_congr same pair.1 pair.2
  | delete key =>
    cases staged
    refine ⟨_, rfl, agrees.withRaw ?_⟩
    exact fun other inside => lookup_erase_congr (agrees.raw inside) key
  | deleteRange start stop =>
    have startInside := inScope start (mem_singleton_self _)
    have scanned := @scanned_congr _ _ _ left.raw right.raw start
      (if stop = ⊥ then region.endKey else stop) (by
        intro key within
        apply agrees.raw
        rw [Region.contains_iff]
        have bounds := Region.contains_iff.mp startInside
        refine ⟨bounds.1.trans within.1, ?_⟩
        by_cases openEnded : stop = ⊥
        · rw [if_pos openEnded] at within
          exact within.2
        rw [if_neg openEnded] at within
        rcases keeps startInside openEnded with unbounded | ends
        · exact .inl unbounded
        · exact .inr ((within.2.resolve_left openEnded).trans_le ends))
    rw [stage.eq_def] at staged ⊢
    dsimp only at staged ⊢
    generalize (if stop = ⊥ then region.endKey else stop) = bound at staged scanned ⊢
    rw [stageDeleteRange] at staged ⊢
    rw [← scanned]
    split_ifs at staged ⊢ with tooMany
    · cases staged
      refine ⟨_, rfl, agrees.withRaw ?_⟩
      exact fun other inside => foldl_rel
        (r := fun (one two : SortedMap K Bytes) => one.lookup other = two.lookup other)
        (agrees.raw inside) fun key _ _ _ same => lookup_erase_congr same key
  | compareAndSwap key expected value =>
    have stored := agrees.raw (inScope key (mem_singleton_self _))
    rw [stage.eq_def] at staged ⊢
    dsimp only at staged ⊢
    rw [← stored]
    split_ifs at staged ⊢ with differs
    · cases staged
      exact ⟨_, rfl, agrees⟩
    cases value with
    | some value =>
      cases staged
      refine ⟨_, rfl, agrees.withRaw ?_⟩
      exact fun other inside => lookup_insert_congr (agrees.raw inside) key value
    | none =>
      cases staged
      refine ⟨_, rfl, agrees.withRaw ?_⟩
      exact fun other inside => lookup_erase_congr (agrees.raw inside) key
  | txn request =>
    obtain ⟨sameAnswer, sameCells⟩ := handle_congr inScope keeps leftSorted rightSorted
      fun key inside => agrees.cells inside
    rw [stage.eq_def] at staged ⊢
    dsimp only at staged ⊢
    cases staged
    refine ⟨{ right with cells := (Txn.handle right.cells request).2 }, ?_, ?_⟩
    · rw [sameAnswer]
    intro key inside
    rw [Data.at, Data.at]
    exact Prod.ext (agrees.raw inside) (sameCells key inside)
  | split splitKey newRegionId newPeerIds =>
    cases staged
    exact ⟨_, rfl, agrees⟩

theorem stage_sorted {data : Data K} (sorted : data.cells.Sorted)
    (staged : stage data command region = .ok (answer, after)) : after.cells.Sorted := by
  cases command with
  | deleteRange start stop =>
    rw [stage.eq_def] at staged
    dsimp only at staged
    generalize (if stop = ⊥ then region.endKey else stop) = bound at staged
    rw [stageDeleteRange] at staged
    split_ifs at staged
    · cases staged
      exact sorted
  | compareAndSwap key expected value =>
    rw [stage.eq_def] at staged
    dsimp only at staged
    split_ifs at staged
    · cases staged
      exact sorted
    cases value <;>
    · cases staged
      exact sorted
  | txn request =>
    cases staged
    exact sorted.handle request
  | _ =>
    cases staged
    exact sorted

/-- An entry that keeps to its region does the same on two stores that agree on it. -/
theorem PeerState.apply_congr {state other next : PeerState K} {index : Nat}
    {answer : Except (ProtoError K) (Applied K)} (sameRegion : other.region = state.region)
    (agrees : AgreesOn state.region state.data other.data)
    (stateSorted : state.data.cells.Sorted) (otherSorted : other.data.cells.Sorted)
    (keeps : Local state.region payload)
    (applied : state.apply index payload = .ok (answer, next)) :
    ∃ twin, other.apply index payload = .ok (answer, twin) ∧ twin.region = next.region ∧
      AgreesOn state.region next.data twin.data ∧ next.data.cells.Sorted ∧
      twin.data.cells.Sorted := by
  cases payload with
  | noop =>
    cases applied
    exact ⟨_, rfl, sameRegion, agrees, stateSorted, otherSorted⟩
  | confChange change =>
    rw [PeerState.apply] at applied ⊢
    rw [sameRegion]
    split at applied <;>
    · cases applied
      exact ⟨_, rfl, rfl, agrees, stateSorted, otherSorted⟩
  | command command =>
    by_cases divides : ∃ splitKey newRegionId newPeerIds,
        command = .split splitKey newRegionId newPeerIds
    · obtain ⟨splitKey, newRegionId, newPeerIds, rfl⟩ := divides
      rw [PeerState.apply] at applied ⊢
      rw [sameRegion]
      split at applied <;>
      · cases applied
        exact ⟨_, rfl, rfl, agrees, stateSorted, otherSorted⟩
    · rw [PeerState.apply_command divides, checkScope] at applied ⊢
      rw [sameRegion]
      by_cases inScope : command.scopeKeys.all state.region.contains = true
      · rw [if_pos inScope] at applied ⊢
        cases staged : stage state.data command state.region with
        | error error =>
          rw [staged] at applied
          cases applied
        | ok result =>
          rw [staged] at applied
          cases applied
          obtain ⟨twin, twinStaged, twinAgrees⟩ :=
            stage_congr inScope keeps stateSorted otherSorted agrees staged
          rw [twinStaged]
          exact ⟨_, rfl, rfl, twinAgrees, stage_sorted stateSorted staged,
            stage_sorted otherSorted twinStaged⟩
      · rw [if_neg inScope] at applied ⊢
        cases applied
        exact ⟨_, rfl, rfl, agrees, stateSorted, otherSorted⟩

end Esker.Store
