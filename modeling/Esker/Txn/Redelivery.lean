import Esker.Runs
import Esker.Txn.PerKey

/-!
Contract: what commands do that arrive again, late or out of order
(`esker-txn/src/percolator.rs`, `esker-store/src/txnkv.rs`).

Owns: the lock a prewrite leaves on a key it may name more than once, and what becomes of the lease
on a primary key and of a write to a key that was locked and given back before.
-/

namespace Esker.Txn

open Esker.Consensus (Bytes)
open Esker.Runs List

variable {K : Type} [LinearOrder K] {store : Store K} {startTs ttlMs : Nat} {primary key : K}
  {mutations : List (TxnMutation K)}

/-! ## The locks of a prewrite -/

def Accepted (store : Store K) (startTs : Nat) (primary : K) (ttlMs : Nat)
    (mutations : List (TxnMutation K)) : Prop :=
  ∀ mutation ∈ mutations, (prewriteOne store startTs primary ttlMs mutation).1 = .ok

/-- The writes and checks of a prewrite that are to lock the key, in order. -/
def granted (store : Store K) (startTs : Nat) (primary : K) (ttlMs : Nat)
    (mutations : List (TxnMutation K)) (key : K) : List (Prewrite K) :=
  (mutations.filterMap (TxnMutation.request startTs primary ttlMs)).filter fun request =>
    request.key = key ∧ checkPrewrite (store.get key) request = .lock (lockMutations request)

theorem staged_granted (mutations : List (TxnMutation K)) :
    ((mutations.flatMap fun mutation => (prewriteOne store startTs primary ttlMs mutation).2).filter
      (·.1 = key)).map Prod.snd =
        (granted store startTs primary ttlMs mutations key).flatMap lockMutations := by
  induction mutations with
  | nil => rfl
  | cons mutation rest ih =>
    rw [flatMap_cons, filter_append, map_append, ih]
    unfold granted
    cases asked : mutation.request startTs primary ttlMs with
    | none =>
      rw [filterMap_cons_none asked]
      cases mutation with
      | checkRange first last => rfl
      | put | delete | check => cases asked
    | some request =>
      rw [filterMap_cons_some asked, (prewriteOne_of_request store asked).1, prewriteKey,
        filter_cons]
      dsimp only
      split
      · rename_i staged decided
        obtain ⟨rfl, _⟩ := lock_granted decided
        rw [staged_for]
        by_cases same : request.key = key
        · subst same
          simp [decided]
        · simp [same]
      · rename_i refused
        rw [if_neg]
        · rfl
        · simp only [decide_eq_true_eq]
          rintro ⟨rfl, decided⟩
          exact refused _ decided

theorem mem_granted {request : Prewrite K}
    (mem : request ∈ granted store startTs primary ttlMs mutations key) :
    request.startTs = startTs ∧ request.ttlMs = ttlMs ∧
      checkPrewrite (store.get key) request = .lock (lockMutations request) := by
  obtain ⟨asked, decided⟩ := mem_filter.mp mem
  obtain ⟨mutation, _, asks⟩ := mem_filterMap.mp asked
  refine ⟨?_, ?_, (of_decide_eq_true decided).2⟩ <;> cases mutation <;> cases asks <;> rfl

omit [LinearOrder K] in
theorem applyAll_granted (requests : List (Prewrite K)) (cell : Cell K) :
    (cell.applyAll (requests.flatMap lockMutations)).lock =
        ((requests.getLast?.map Prewrite.lock).or cell.lock) ∧
      (cell.applyAll (requests.flatMap lockMutations)).writes = cell.writes := by
  induction requests using List.reverseRecOn with
  | nil => exact ⟨rfl, rfl⟩
  | append_singleton earlier request ih =>
    rw [flatMap_append, flatMap_singleton, Cell.applyAll, foldl_append, getLast?_concat]
    refine ⟨?_, Eq.trans ?_ ih.2⟩ <;> unfold lockMutations <;> cases request.op.longValue <;> rfl

theorem prewrite_granted (accepted : Accepted store startTs primary ttlMs mutations) :
    (prewrite store startTs primary ttlMs mutations).2.get key = (store.get key).applyAll
        ((granted store startTs primary ttlMs mutations key).flatMap lockMutations) := by
  rw [prewrite_accepted accepted, Store.get_stage, staged_granted]

/-! ## Leases -/

/-- A command of the transaction to its primary key. -/
inductive LeaseCommand (K : Type) where
  | prewrite (mutations : List (TxnMutation K))
  | heartbeat (ttlMs : Nat)

def LeaseCommand.request (startTs : Nat) (primary : K) (lockTtlMs : Nat) :
    LeaseCommand K → Request K
  | .prewrite mutations => .prewrite startTs primary lockTtlMs mutations
  | .heartbeat ttlMs => .heartbeat startTs primary ttlMs

/-- When the lease of a lock runs out. -/
def LockRecord.expiry (lock : LockRecord K) : Nat := lock.startTs >>> 18 + lock.ttlMs

section Leases

variable (startTs : Nat) (primary : K) (lockTtlMs : Nat)

def leaseStep (store : Store K) (command : LeaseCommand K) : Store K :=
  (handle store (command.request startTs primary lockTtlMs)).2

/-- The command does not bring the end of the lease forward. -/
def Prolongs (store : Store K) (command : LeaseCommand K) : Prop :=
  ∀ held ∈ (store.get primary).lockOf startTs,
    ∀ later ∈ ((leaseStep startTs primary lockTtlMs store command).get primary).lockOf startTs,
      held.expiry ≤ later.expiry

/-- A prewrite that replaces the lock on the primary, as a write does with a lock taken without a
value, carries a lease no shorter than the one it replaces. -/
def Renews (store : Store K) : LeaseCommand K → Prop
  | .heartbeat _ => True
  | .prewrite mutations => ∀ held ∈ (store.get primary).lockOf startTs,
    Accepted store startTs primary lockTtlMs mutations →
      granted store startTs primary lockTtlMs mutations primary ≠ [] → held.ttlMs ≤ lockTtlMs

variable {startTs primary lockTtlMs}

theorem prolongs_iff (store : Store K) (command : LeaseCommand K) :
    Prolongs startTs primary lockTtlMs store command ↔
      Renews startTs primary lockTtlMs store command := by
  unfold Prolongs leaseStep
  cases command with
  | heartbeat ttlMs =>
    refine iff_of_true (fun held isHeld later isLater => ?_) trivial
    simp only [LeaseCommand.request, handle, heartbeat, Option.mem_def.mp isHeld] at isLater
    split_ifs at isLater with longer
    · rw [Option.mem_def, Store.get_stage_one, if_pos rfl, Cell.lockOf_eq_some] at isLater
      rw [← Option.some.inj isLater.1]
      exact Nat.add_le_add_left longer.le _
    · rw [Option.mem_def.mp isHeld] at isLater
      cases isLater
      exact le_refl _
  | prewrite mutations =>
    refine forall₂_congr fun held isHeld => ?_
    simp only [LeaseCommand.request, handle]
    by_cases accepted : Accepted store startTs primary lockTtlMs mutations
    · obtain ⟨isLock, own⟩ := Cell.lockOf_eq_some.mp (Option.mem_def.mp isHeld)
      rw [forall_prop_of_true accepted, prewrite_granted accepted]
      have lock := (applyAll_granted (granted store startTs primary lockTtlMs mutations primary)
        (store.get primary)).1
      generalize (store.get primary).applyAll _ = after at lock
      cases last : (granted store startTs primary lockTtlMs mutations primary).getLast? with
      | none =>
        rw [last, isLock] at lock
        refine iff_of_true (fun later isLater => ?_) fun some => absurd (getLast?_eq_none_iff.mp last) some
        cases lock.symm.trans (Cell.lockOf_eq_some.mp (Option.mem_def.mp isLater)).1
        exact le_refl _
      | some request =>
        have mem := mem_of_getLast? last
        obtain ⟨isStart, isTtl, _⟩ := mem_granted mem
        rw [last] at lock
        have isLater : after.lockOf startTs = some request.lock :=
          Cell.lockOf_eq_some.mpr ⟨lock, isStart⟩
        simp only [isLater, Option.mem_some_iff, forall_eq', LockRecord.expiry, Prewrite.lock, own,
          isStart, isTtl, Nat.add_le_add_iff_left, ne_nil_of_mem mem, ne_eq, not_false_eq_true,
          forall_const]
    · rw [prewrite_refused accepted]
      refine iff_of_true (fun later isLater => ?_) fun isAccepted => absurd isAccepted accepted
      cases isHeld.symm.trans isLater
      exact le_refl _

/-- Along any commands the lease on the primary never shrinks exactly when no write replaces, with
the client's own lease, a lock whose lease heartbeats have made longer. -/
theorem lease_never_shrinks_iff (store : Store K) (commands : List (LeaseCommand K)) :
    Meets (leaseStep startTs primary lockTtlMs) (Prolongs startTs primary lockTtlMs) store commands ↔
      Meets (leaseStep startTs primary lockTtlMs) (Renews startTs primary lockTtlMs) store
        commands := by
  induction commands generalizing store with
  | nil => exact Iff.rfl
  | cons command rest ih => exact and_congr (prolongs_iff store command) (ih _)

end Leases

/-- A row is locked, its lease extended to a minute, and then it is written. -/
theorem upgrade_shortens_lease :
    let locked := leaseStep 5 1 3000 ([] : Store Nat) (.prewrite [.check 1 none])
    let extended := leaseStep 5 1 3000 locked (.heartbeat 60000)
    let written := leaseStep 5 1 3000 extended (.prewrite [.put 1 [7] none])
    ((extended.get 1).lockOf 5).map LockRecord.expiry = some 60000 ∧
      ((written.get 1).lockOf 5).map LockRecord.expiry = some 3000 := by
  decide

/-! ## Releases -/

/-- A write of a transaction, and the timestamp its primary commits at. -/
structure Written (K : Type) where
  key : K
  startTs : Nat
  commitTs : Nat
  value : Bytes
  shortValue : Option Bytes

/-- The store after the requests, in the order in which they arrive. -/
def arrived (store : Store K) (requests : List (Request K)) : Store K :=
  requests.foldl (fun store request => (handle store request).2) store

namespace Written

section Releases

variable (write : Written K)

/-- The value is in the record or filed under the transaction. -/
def Carried (cell : Cell K) : Prop :=
  write.shortValue = some write.value ∨
    write.shortValue = none ∧ cell.getValue write.startTs = some write.value

/-- The cell holds the write's lock. -/
def Locked (cell : Cell K) : Prop :=
  ∃ lock, cell.lock = some lock ∧ lock.kind = .put ∧ lock.startTs = write.startTs ∧
    lock.shortValue = write.shortValue

/-- The cell has the write's commit record and no lock of its transaction. -/
def Recorded (cell : Cell K) : Prop :=
  ⟨write.commitTs, ⟨.put, write.startTs, write.shortValue⟩⟩ ∈ cell.writes ∧
    cell.lockOf write.startTs = none

structure Kept (cell : Cell K) : Prop where
  filed : cell.Filed
  carried : write.Carried cell
  present : write.Locked cell ∨ write.Recorded cell

/-- What may be said at the key: of the transaction, that it committed when its primary did, and of
the others nothing at that timestamp. -/
def Allows : Change K → Prop
  | .committed startTs commitTs =>
    startTs ≤ commitTs ∧ (startTs = write.startTs ↔ commitTs = write.commitTs)
  | .marked startTs => startTs ≠ write.startTs ∧ startTs ≠ write.commitTs
  | .placed _ | .extended => True

/-- The request names each key once, and is no release of the key by the transaction. -/
structure Delivers (request : Request K) : Prop where
  distinct : request.Distinct
  allows : ∀ change, request.Causes write.key change → write.Allows change
  keeps : ∀ keys, request = .releaseLock write.startTs keys → write.key ∉ keys

variable {write} {cell after : Cell K} {change : Change K}

omit [LinearOrder K] in
theorem Carried.mono (carried : write.Carried cell)
    (same : after.getValue write.startTs = cell.getValue write.startTs) : write.Carried after :=
  carried.imp_right fun ⟨long, value⟩ => ⟨long, same.trans value⟩

omit [LinearOrder K] in
/-- A lock that is held beside the write's record is somebody else's. -/
theorem Recorded.foreign {lock : LockRecord K} (recorded : write.Recorded cell)
    (held : cell.lock = some lock) : lock.startTs ≠ write.startTs := by
  intro own
  rw [Recorded, Cell.lockOf_eq_some.mpr ⟨held, own⟩] at recorded
  cases recorded.2

omit [LinearOrder K] in
theorem Kept.moves (kept : write.Kept cell) (moved : cell.Moves after change)
    (allows : write.Allows change) : write.Kept after := by
  obtain ⟨filed, carried, present⟩ := kept
  cases moved with
  | @placed _ request unrecorded unbeaten free lock writes values =>
    rcases present with ⟨held, isHeld, isPut, _⟩ | recorded
    · cases isPut.symm.trans (free held isHeld).2.1
    have other : request.startTs ≠ write.startTs := fun same =>
      unrecorded _ recorded.1 (same ▸ filed _ recorded.1) same.symm
    refine ⟨fun version mem => filed version (writes ▸ mem), carried.mono (values _ other.symm),
      .inr ⟨writes ▸ recorded.1, ?_⟩⟩
    simpa [Cell.lockOf, lock, Prewrite.lock] using other
  | @committed lock commitTs held =>
    obtain ⟨above, own⟩ := allows
    refine ⟨filed.insert above rfl, carried, .inr ⟨?_, rfl⟩⟩
    rcases present with ⟨mine, isMine, isPut, isStart, isShort⟩ | recorded
    · cases held.symm.trans isMine
      rw [← isStart, ← isShort, ← isPut, ← own.mp isStart]
      exact insertVersion_self _ _
    · exact insertVersion_keeps recorded.1 fun same => recorded.foreign held (own.mpr same.symm)
  | @marked _ startTs unrecorded lock writes values =>
    obtain ⟨other, elsewhere⟩ := allows
    refine ⟨filed.insert le_rfl writes, carried.mono (values _ other.symm), ?_⟩
    rcases present with ⟨mine, isMine, isPut, isStart, isShort⟩ | recorded
    · refine .inl ⟨mine, ?_, isPut, isStart, isShort⟩
      simp [lock, isMine, Option.filter, isStart, other.symm]
    · refine .inr ⟨writes ▸ insertVersion_keeps recorded.1 elsewhere.symm, ?_⟩
      refine Option.eq_none_iff_forall_ne_some.mpr fun held isHeld => ?_
      obtain ⟨isHeld, own⟩ := Cell.lockOf_eq_some.mp isHeld
      rw [lock, Option.filter_eq_some_iff] at isHeld
      exact recorded.foreign isHeld.1 own
  | @extended lock ttlMs held =>
    refine ⟨filed, carried, ?_⟩
    rcases present with ⟨mine, isMine, isPut, isStart, isShort⟩ | recorded
    · cases held.symm.trans isMine
      exact .inl ⟨_, rfl, isPut, isStart, isShort⟩
    · refine .inr ⟨recorded.1, ?_⟩
      simpa [Cell.lockOf] using recorded.foreign held

omit [LinearOrder K] in
theorem Kept.release (kept : write.Kept cell) (other : startTs ≠ write.startTs) :
    write.Kept (cell.applyAll (release cell startTs).1) := by
  unfold Esker.Txn.release
  split
  · rename_i lock held
    obtain ⟨isLock, own⟩ := Cell.lockOf_eq_some.mp held
    rcases kept.present with ⟨mine, isMine, _, isStart, _⟩ | recorded
    · cases isLock.symm.trans isMine
      exact absurd (own.symm.trans isStart) other
    · split_ifs
      · exact ⟨kept.filed, kept.carried.mono (lookup_filter_ne other.symm), .inr ⟨recorded.1, rfl⟩⟩
      · exact ⟨kept.filed, kept.carried, .inr ⟨recorded.1, rfl⟩⟩
  · exact kept

theorem Kept.handle (kept : write.Kept (store.get write.key)) {request : Request K}
    (delivers : write.Delivers request) :
    write.Kept ((handle store request).2.get write.key) := by
  rcases handle_moves kept.filed delivers.distinct with
    same | ⟨startTs, keys, isRelease, mem, released⟩ | ⟨change, moved, causes⟩
  · exact same ▸ kept
  · rw [released]
    exact kept.release fun own => delivers.keeps keys (own ▸ isRelease) mem
  · exact kept.moves moved (delivers.allows change causes)

end Releases

/-- Two rows are written, the second of them after it was locked and given back. -/
def rewritten : Store Nat :=
  arrived [] [.prewrite 5 1 9 [.put 1 [7] none, .check 2 none], .releaseLock 5 [2],
    .prewrite 5 1 9 [.put 2 [8] none]]

end Written

end Esker.Txn
