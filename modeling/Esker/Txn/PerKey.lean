import Esker.Txn.Moves

/-!
Contract: what every user key keeps under any commands, in any order and any number of times
(`esker-txn/src/percolator.rs`, `esker-store/src/txnkv.rs`).

Owns: `Lawful`, and that each command keeps it, also when it names a key more than once.
-/

namespace Esker.Txn

open Esker.Consensus (Bytes)
open List

variable {startTs : Nat}

section Cells

variable {K : Type}

/-- A key's records, its lock and its values belong together. -/
structure Cell.Lawful (cell : Cell K) : Prop where
  single : (cell.writes.map fun version => version.record.startTs).Nodup
  marked : ∀ version ∈ cell.writes, version.record.kind = .rollback →
    version.commitTs = version.record.startTs
  unsettled : ∀ lock, cell.lock = some lock → ∀ version ∈ cell.writes,
    version.record.startTs ≠ lock.startTs
  lockValue : ∀ lock, cell.lock = some lock → lock.kind = .put → lock.shortValue = none →
    (cell.getValue lock.startTs).isSome = true
  writeValue : ∀ version ∈ cell.writes, version.record.kind = .put →
    version.record.shortValue = none → (cell.getValue version.record.startTs).isSome = true
  filed : cell.Filed
  locks : ∀ lock, cell.lock = some lock → lock.kind ≠ .rollback

theorem Cell.Lawful.empty : (Cell.empty : Cell K).Lawful where
  single := nodup_nil
  marked := by simp [Cell.empty]
  unsettled := by simp [Cell.empty]
  lockValue := by simp [Cell.empty]
  writeValue := by simp [Cell.empty]
  filed := by simp [Cell.empty, Cell.Filed]
  locks := by simp [Cell.empty]

theorem nodup_insertVersion {version : Version} {writes : List Version}
    (single : (writes.map fun held => held.record.startTs).Nodup)
    (unrecorded : ∀ held ∈ writes, held.record.startTs ≠ version.record.startTs) :
    ((insertVersion version writes).map fun held => held.record.startTs).Nodup := by
  induction writes with
  | nil => exact nodup_singleton _
  | cons newest older ih =>
    rw [forall_mem_cons] at unrecorded
    rw [map_cons, nodup_cons] at single
    have absent : version.record.startTs ∉ older.map fun held => held.record.startTs := by
      intro mem
      obtain ⟨held, isHeld, same⟩ := mem_map.mp mem
      exact unrecorded.2 held isHeld same
    unfold insertVersion
    split
    · exact nodup_cons.mpr ⟨absent, single.2⟩
    split
    · refine nodup_cons.mpr ⟨?_, nodup_cons.mpr single⟩
      rw [map_cons, mem_cons, not_or]
      exact ⟨unrecorded.1.symm, absent⟩
    refine nodup_cons.mpr ⟨fun mem => ?_, ih single.2 unrecorded.2⟩
    obtain ⟨held, isHeld, same⟩ := mem_map.mp mem
    rcases mem_insertVersion isHeld with rfl | isOlder
    · exact unrecorded.1 same.symm
    · exact single.1 (mem_map.mpr ⟨held, isOlder, same⟩)

@[simp] theorem insertVersion_twice (version : Version) (writes : List Version) :
    insertVersion version (insertVersion version writes) = insertVersion version writes := by
  induction writes with
  | nil => simp [insertVersion]
  | cons newest older ih =>
    by_cases same : newest.commitTs = version.commitTs
    · simp [insertVersion, same]
    by_cases below : newest.commitTs < version.commitTs
    · simp [insertVersion, same, below]
    · simp [insertVersion, same, below, ih]

theorem Cell.Lawful.absent {cell : Cell K} (lawful : cell.Lawful)
    (unrecorded : cell.Unrecorded startTs) : ∀ version ∈ cell.writes,
      version.record.startTs ≠ startTs := by
  intro version mem same
  exact unrecorded version mem (same ▸ lawful.filed version mem) same

/-! ## One decision -/

/-- The transaction may lock the key: it has no record there, and the lock is its own or free. -/
structure Cell.Open (cell : Cell K) (startTs : Nat) : Prop where
  lawful : cell.Lawful
  unrecorded : ∀ version ∈ cell.writes, version.record.startTs ≠ startTs
  free : ∀ lock, cell.lock = some lock → lock.startTs = startTs

theorem Cell.Open.locked {cell : Cell K} {request : Prewrite K}
    (isOpen : cell.Open request.startTs) :
    (cell.applyAll (lockMutations request)).Open request.startTs := by
  obtain ⟨lawful, unrecorded, _⟩ := isOpen
  obtain ⟨after, isAfter⟩ : ∃ after, after = cell.applyAll (lockMutations request) := ⟨_, rfl⟩
  have lock : after.lock = some request.lock ∧ after.writes = cell.writes := by
    rw [isAfter, lockMutations]
    cases request.op.longValue <;> exact ⟨rfl, rfl⟩
  have others : ∀ startTs ≠ request.startTs, after.getValue startTs = cell.getValue startTs := by
    intro startTs differs
    rw [isAfter, lockMutations]
    cases request.op.longValue with
    | none => rfl
    | some value => exact Cell.getValue_put _ value differs
  have own : request.op.kind = .put → request.op.shortValue = none →
      (after.getValue request.startTs).isSome = true := by
    intro isPut isLong
    rw [isAfter, lockMutations]
    cases isOp : request.op with
    | put value =>
      rw [isOp, Op.shortValue] at isLong
      split at isLong
      · cases isLong
      · rename_i long
        simp [Op.longValue, Nat.lt_of_not_le long, Cell.applyAll, Cell.apply, Cell.getValue]
    | delete | check =>
      rw [isOp] at isPut
      cases isPut
  have only {held : LockRecord K} (isHeld : after.lock = some held) : request.lock = held :=
    Option.some.inj (lock.1.symm.trans isHeld)
  rw [← isAfter]
  refine ⟨⟨?_, ?_, ?_, ?_, ?_, ?_, ?_⟩, ?_, ?_⟩
  · exact lock.2 ▸ lawful.single
  · exact lock.2 ▸ lawful.marked
  · intro held isHeld
    rw [← only isHeld, lock.2]
    exact unrecorded
  · intro held isHeld
    rw [← only isHeld]
    exact own
  · intro version mem isPut isLong
    rw [lock.2] at mem
    rw [others _ (unrecorded version mem)]
    exact lawful.writeValue version mem isPut isLong
  · intro version mem
    rw [lock.2] at mem
    exact lawful.filed version mem
  · intro held isHeld
    rw [← only isHeld]
    change request.op.kind ≠ .rollback
    cases request.op <;> exact fun same => by cases same
  · exact lock.2 ▸ unrecorded
  · intro held isHeld
    rw [← only isHeld]
    rfl

theorem Cell.Lawful.recorded {cell after : Cell K} {version : Version} (lawful : cell.Lawful)
    (absent : ∀ other ∈ cell.writes, other.record.startTs ≠ version.record.startTs)
    (writes : after.writes = insertVersion version cell.writes)
    (kept : ∀ held, after.lock = some held →
      cell.lock = some held ∧ held.startTs ≠ version.record.startTs)
    (values : ∀ startTs ≠ version.record.startTs, after.getValue startTs = cell.getValue startTs)
    (marked : version.record.kind = .rollback → version.commitTs = version.record.startTs)
    (valued : version.record.kind = .put → version.record.shortValue = none →
      (after.getValue version.record.startTs).isSome = true)
    (filed : version.record.startTs ≤ version.commitTs) : after.Lawful := by
  have either {other : Version} (mem : other ∈ after.writes) :
      other = version ∨ other ∈ cell.writes := mem_insertVersion (writes ▸ mem)
  refine ⟨writes ▸ nodup_insertVersion lawful.single absent, fun other mem => ?_,
    fun held isHeld other mem => ?_, fun held isHeld isPut isLong => ?_, fun other mem => ?_,
    fun other mem => ?_, fun held isHeld => lawful.locks held (kept held isHeld).1⟩
  · rcases either mem with rfl | old
    · exact marked
    · exact lawful.marked other old
  · rcases either mem with rfl | old
    · exact (kept held isHeld).2.symm
    · exact lawful.unsettled held (kept held isHeld).1 other old
  · rw [values _ (kept held isHeld).2]
    exact lawful.lockValue held (kept held isHeld).1 isPut isLong
  · rcases either mem with rfl | old
    · exact valued
    · rw [values _ (absent other old)]
      exact lawful.writeValue other old
  · rcases either mem with rfl | old
    · exact filed
    · exact lawful.filed other old

/-- What the commands that name keys decide for one of them: nothing, a rollback, or a commit. -/
inductive Decides (cell : Cell K) : List (Mutation K) → Prop
  | none : Decides cell []
  | undone {startTs : Nat} {mutations : List (Mutation K)}
      (decided : rollback cell startTs = .ok mutations) : Decides cell mutations
  | committed {lock : LockRecord K} {commitTs : Nat} (held : cell.lock = some lock)
      (above : lock.startTs < commitTs) : Decides cell (commitMutations commitTs lock)

theorem Decides.lawful {cell : Cell K} {mutations : List (Mutation K)}
    (decides : Decides cell mutations) (lawful : cell.Lawful) :
    (cell.applyAll mutations).Lawful := by
  cases decides with
  | none => exact lawful
  | @undone startTs mutations decided =>
    rcases rollback_cases decided with ⟨rfl, _⟩ | moved
    · exact lawful
    generalize cell.applyAll mutations = after at moved ⊢
    cases moved with
    | marked unrecorded lock writes values =>
    refine lawful.recorded (lawful.absent unrecorded) writes (fun held isHeld => ?_) values
      (fun _ => rfl) (fun isPut => by cases isPut) (Nat.le_refl _)
    rw [lock, Option.filter_eq_some_iff, decide_eq_true_eq] at isHeld
    exact isHeld
  | @committed lock commitTs held above =>
    exact lawful.recorded (lawful.unsettled lock held)
      (show _ = insertVersion (lock.committedAt commitTs) cell.writes from rfl)
      (fun _ none => by cases none) (fun _ _ => rfl) (fun isMarker =>
        absurd isMarker (lawful.locks lock held)) (lawful.lockValue lock held) above.le

theorem Decides.twice {cell : Cell K} {mutations : List (Mutation K)}
    (decides : Decides cell mutations) :
    (cell.applyAll mutations).applyAll mutations = cell.applyAll mutations := by
  cases decides with
  | none => rfl
  | undone decided =>
    unfold rollback at decided
    split at decided
    · cases decided
    · cases decided
      rfl
    cases decided
    split
    · split <;> simp [Cell.applyAll, Cell.apply]
    · simp [Cell.applyAll, Cell.apply]
  | committed held above => simp [Cell.applyAll, Cell.apply, commitMutations]

end Cells

/-! ## One command -/

variable {K : Type} [LinearOrder K]

/-- What every item keeps of a cell, whatever it stages for the key, a batch of items keeps. -/
theorem Store.stage_keeps {ι : Type} {keeps : Cell K → Prop} {items : List ι}
    {staged : ι → List (K × Mutation K)} {store : Store K} {key : K} (start : keeps (store.get key))
    (each : ∀ item ∈ items, ∀ cell, keeps cell →
      keeps (cell.applyAll (((staged item).filter (·.1 = key)).map Prod.snd))) :
    keeps ((store.stage (items.flatMap staged)).get key) := by
  rw [Store.get_stage]
  generalize store.get key = cell at start
  induction items generalizing cell with
  | nil => exact start
  | cons item rest ih =>
    rw [flatMap_cons, filter_append, map_append, Cell.applyAll, foldl_append]
    exact ih (fun other mem => each other (.tail _ mem)) _ (each item (.head _) cell start)

omit [LinearOrder K] in
theorem staged_for [DecidableEq K] (mutations : List (Mutation K)) (target key : K) :
    ((mutations.map (target, ·)).filter (·.1 = key)).map Prod.snd =
      if target = key then mutations else [] := by
  split_ifs with same
  · rw [filter_eq_self.mpr (by simpa using fun _ _ => same), map_map]
    exact map_id _
  · rw [filter_eq_nil_iff.mpr (by simpa using fun _ _ => same), map_nil]

variable {store : Store K}

theorem lawful_keyed {keys : List K} {chosen : K → List (Mutation K)} {key : K}
    (lawful : (store.get key).Lawful) (decides : key ∈ keys → Decides (store.get key) (chosen key)) :
    ((store.stage (keys.flatMap fun key => (chosen key).map (key, ·))).get key).Lawful := by
  have once : ∀ cell, cell = store.get key ∨ key ∈ keys ∧
      cell = (store.get key).applyAll (chosen key) → cell.Lawful := by
    rintro cell (rfl | ⟨mem, rfl⟩)
    · exact lawful
    · exact (decides mem).lawful lawful
  apply once
  apply @Store.stage_keeps K _ K fun cell => cell = store.get key ∨ key ∈ keys ∧
    cell = (store.get key).applyAll (chosen key)
  · exact .inl rfl
  intro other mem cell reached
  rw [staged_for]
  split_ifs with same
  · subst same
    rcases reached with rfl | ⟨_, rfl⟩
    · exact .inr ⟨mem, rfl⟩
    · exact .inr ⟨mem, (decides mem).twice⟩
  · exact reached

theorem lawful_prewrite {ttlMs : Nat} {primary : K} {mutations : List (TxnMutation K)}
    (lawful : ∀ key, (store.get key).Lawful) (key : K) :
    ((prewrite store startTs primary ttlMs mutations).2.get key).Lawful := by
  unfold prewrite
  dsimp only
  split
  case isFalse => exact lawful key
  rw [flatMap_map]
  have either : ∀ cell : Cell K, cell = store.get key ∨ cell.Open startTs → cell.Lawful := by
    rintro cell (rfl | isOpen)
    · exact lawful key
    · exact isOpen.lawful
  apply either
  apply @Store.stage_keeps K _ _ fun cell => cell = store.get key ∨ cell.Open startTs
  · exact .inl rfl
  intro mutation _ cell reached
  cases asked : mutation.request startTs primary ttlMs with
  | none =>
    cases mutation with
    | checkRange first last => exact reached
    | put _ _ _ | delete _ _ | check _ _ => cases asked
  | some request =>
    have isStart : request.startTs = startTs := by
      cases mutation <;> cases asked <;> rfl
    rw [(prewriteOne_of_request store asked).1, prewriteKey]
    dsimp only
    split
    · rename_i staged decided
      rw [staged_for]
      split_ifs with same
      · obtain ⟨rfl, recorded, free⟩ := lock_granted decided
        rw [same] at recorded free
        have isOpen : (store.get key).Open request.startTs :=
          ⟨lawful key, (lawful key).absent (Cell.unrecorded_of_writeOfTxn recorded),
            fun lock held => (free lock held).1⟩
        rw [← isStart] at reached ⊢
        rcases reached with rfl | opened
        · exact .inr isOpen.locked
        · exact .inr opened.locked
      · exact reached
    · exact reached

/-- The timestamps of a command are as the oracle gives them, and it gives no lock back. -/
def Request.Timely : Request K → Prop
  | .commit startTs commitTs _ => startTs < commitTs
  | .resolveLock startTs commitTs _ => commitTs = 0 ∨ startTs < commitTs
  | .releaseLock _ _ => False
  | .prewrite _ _ _ _ | .rollback _ _ | .heartbeat _ _ _ => True

theorem resolveOne_decides {commitTs : Nat} (key : K) (timely : commitTs = 0 ∨ startTs < commitTs) :
    Decides (store.get key) ((resolveOne store startTs commitTs key).getD []) := by
  unfold resolveOne
  split
  · exact .none
  rename_i lock held
  obtain ⟨isLock, own⟩ := Cell.lockOf_eq_some.mp held
  split_ifs with isRollback
  · cases decided : rollback (store.get key) startTs with
    | error _ => exact .none
    | ok mutations => exact .undone decided
  unfold commitSecondary
  rw [held]
  dsimp only
  split_ifs
  · exact .none
  · exact .committed isLock (own ▸ timely.resolve_left isRollback)

theorem lawful_handle (lawful : ∀ key, (store.get key).Lawful) {request : Request K}
    (timely : request.Timely) (key : K) : ((handle store request).2.get key).Lawful := by
  cases request with
  | prewrite startTs primary ttlMs mutations => exact lawful_prewrite lawful key
  | releaseLock startTs keys => exact timely.elim
  | commit startTs commitTs keys =>
    rw [handle, commit]
    split
    · exact lawful key
    rename_i staged decided
    obtain ⟨each, rfl⟩ := decideAll_ok decided
    refine lawful_keyed (lawful key) fun mem => ?_
    obtain ⟨mutations, isOk⟩ := each key mem
    rw [isOk]
    rcases commitOne_cases isOk with ⟨lock, held, own, rfl⟩ | ⟨rfl, _⟩
    · exact .committed held (own ▸ timely)
    · exact .none
  | rollback startTs keys =>
    rw [handle, rollbackKeys]
    split
    · exact lawful key
    rename_i staged decided
    obtain ⟨each, rfl⟩ := decideAll_ok decided
    refine lawful_keyed (lawful key) fun mem => ?_
    obtain ⟨mutations, isOk⟩ := each key mem
    rw [isOk]
    exact .undone isOk
  | resolveLock startTs commitTs keys =>
    exact lawful_keyed (lawful key) fun _ => resolveOne_decides key timely
  | heartbeat startTs primary ttlMs =>
    rw [handle, heartbeat]
    split
    · exact lawful key
    rename_i lock held
    split
    · rw [Store.get_stage_one]
      split_ifs with same
      · subst same
        obtain ⟨single, marked, unsettled, lockValue, writeValue, filed, locks⟩ := lawful primary
        have isLock := (Cell.lockOf_eq_some.mp held).1
        refine ⟨single, marked, ?_, ?_, writeValue, filed, ?_⟩
        all_goals
          intro extended isExtended
          cases isExtended
        · exact unsettled lock isLock
        · exact lockValue lock isLock
        · exact locks lock isLock
      · exact lawful key
    · exact lawful key

/-- Every key, after any commands whose commit timestamps are above their start timestamps and that
give no lock back, is lawful. -/
theorem commands_keep_keys_lawful (requests : List (Request K))
    (timely : ∀ request ∈ requests, request.Timely) (key : K) :
    ((requests.foldl (fun store request => (handle store request).2) []).get key).Lawful := by
  have general : ∀ store : Store K, (∀ key, (store.get key).Lawful) →
      ((requests.foldl (fun store request => (handle store request).2) store).get key).Lawful := by
    induction requests with
    | nil => exact fun store lawful => lawful key
    | cons request rest ih =>
      intro store lawful
      rw [forall_mem_cons] at timely
      exact ih timely.2 _ (lawful_handle lawful timely.1)
  exact general [] fun _ => Cell.Lawful.empty

/-- A key that one prewrite and one commit name twice. -/
theorem doubled_prewrite_lawful :
    (([.prewrite 5 1 9 [.put 1 [7] none, .check 1 none], .commit 5 7 [1, 1]] :
      List (Request Nat)).foldl (fun store request => (handle store request).2) []).get 1
        |>.Lawful :=
  commands_keep_keys_lawful _ (by simp [Request.Timely]) 1

end Esker.Txn
