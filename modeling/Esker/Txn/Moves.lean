import Esker.Txn.Commands

/-!
Contract: everything a request can do to the cell of one key.

Owns: `Cell.Moves`, the changes a cell goes through, `Request.Causes`, which request makes
which change, and the lemmas that a command makes no other change and that its answer is
true of the cells it leaves.
-/

namespace Esker.Txn

open Esker.Consensus (Bytes saturatingAdd)
open List

inductive Change (K : Type) where
  | placed (request : Prewrite K)
  | committed (startTs commitTs : Nat)
  | marked (startTs : Nat)
  | extended

section Moves

variable {K : Type} (cell : Cell K)

/-- The record a transaction left: its commit, or its rollback marker. -/
def Cell.Committed (startTs commitTs : Nat) : Prop :=
  ∃ version ∈ cell.writes, version.commitTs = commitTs ∧
    version.record.startTs = startTs ∧ version.record.kind ≠ .rollback

variable (startTs : Nat)

def Cell.RolledBack : Prop :=
  ∃ version ∈ cell.writes, version.record.startTs = startTs ∧ version.record.kind = .rollback

def Cell.Unrecorded : Prop :=
  ∀ version ∈ cell.writes, startTs ≤ version.commitTs → version.record.startTs ≠ startTs

/-- No other transaction changed the key after `readTs`. -/
def Cell.Unbeaten (startTs readTs : Nat) : Prop :=
  ∀ version ∈ cell.writes, version.isAVersion → version.record.startTs ≠ startTs →
    version.commitTs ≤ readTs

def marker : Version := ⟨startTs, .rollback startTs⟩

def LockRecord.committedAt (lock : LockRecord K) (commitTs : Nat) : Version :=
  ⟨commitTs, ⟨lock.kind, lock.startTs, lock.shortValue⟩⟩

def Prewrite.lock (request : Prewrite K) : LockRecord K :=
  ⟨request.op.kind, request.startTs, request.ttlMs, request.primary, request.op.shortValue⟩

/-- The changes a cell goes through, with what holds before each. -/
inductive Cell.Moves (cell : Cell K) : Cell K → Change K → Prop
  | placed {after : Cell K} {request : Prewrite K}
      (unrecorded : cell.Unrecorded request.startTs)
      (unbeaten : cell.Unbeaten request.startTs request.readTs)
      (free : ∀ lock, cell.lock = some lock →
        lock.startTs = request.startTs ∧ lock.kind = .lock ∧ request.op.kind ≠ .lock)
      (lock : after.lock = some request.lock) (writes : after.writes = cell.writes)
      (values : ∀ startTs ≠ request.startTs, after.getValue startTs = cell.getValue startTs) :
      Moves cell after (.placed request)
  | committed {lock : LockRecord K} {commitTs : Nat} (held : cell.lock = some lock) :
      Moves cell ⟨none, insertVersion (lock.committedAt commitTs) cell.writes, cell.values⟩
        (.committed lock.startTs commitTs)
  | marked {after : Cell K} {startTs : Nat} (unrecorded : cell.Unrecorded startTs)
      (lock : after.lock = cell.lock.filter fun lock => lock.startTs ≠ startTs)
      (writes : after.writes = insertVersion (marker startTs) cell.writes)
      (values : ∀ other ≠ startTs, after.getValue other = cell.getValue other) :
      Moves cell after (.marked startTs)
  | extended {lock : LockRecord K} {ttlMs : Nat} (held : cell.lock = some lock) :
      Moves cell { cell with lock := some { lock with ttlMs } } .extended

variable {cell after : Cell K} {request : Prewrite K} {startTs other commitTs ttlMs : Nat}
  {mutations : List (Mutation K)} {error : TxnError} {store : Store K} {key primary : K}
  {mutation : TxnMutation K} {keys : List K}

theorem Cell.Moves.of_placed (moved : cell.Moves after (.placed request)) :
    after.lock = some request.lock ∧ after.writes = cell.writes ∧
      cell.Unbeaten request.startTs request.readTs := by
  cases moved with
  | placed unrecorded unbeaten free lock writes values => exact ⟨lock, writes, unbeaten⟩

theorem Cell.Moves.of_marked (moved : cell.Moves after (.marked startTs)) :
    after.RolledBack startTs := by
  cases moved with
  | marked unrecorded lock writes values =>
    exact ⟨marker startTs, writes ▸ insertVersion_self _ _, rfl, rfl⟩

/-! ## The decisions move the cell -/

@[simp] theorem Cell.lockOf_eq_some {lock : LockRecord K} :
    cell.lockOf startTs = some lock ↔ cell.lock = some lock ∧ lock.startTs = startTs := by
  simp [Cell.lockOf]

theorem Cell.unrecorded_of_writeOfTxn (absent : cell.writeOfTxn startTs = none) :
    cell.Unrecorded startTs := by
  intro version mem above same
  have missed := find?_eq_none.mp absent version mem
  simp [above, same] at missed

theorem lookup_filter_ne {values : List (Nat × Bytes)} (different : other ≠ startTs) :
    (values.filter (·.1 ≠ startTs)).lookup other = values.lookup other := by
  induction values with
  | nil => rfl
  | cons entry rest ih =>
    rw [filter_cons]
    split
    · simp only [List.lookup, ih]
    rename_i dropped
    have passed : (other == entry.1) = false := by
      simp only [ne_eq, decide_not, Bool.not_eq_eq_eq_not, Bool.not_true,
        decide_eq_false_iff_not, not_not] at dropped
      simp [dropped, different]
    simp only [List.lookup, passed, ih]

theorem Cell.getValue_put (cell : Cell K) (value : Bytes) (different : other ≠ startTs) :
    (cell.apply (.putValue startTs value)).getValue other = cell.getValue other := by
  have passed : (other == startTs) = false := by simp [different]
  simp only [Cell.getValue, Cell.apply, List.lookup, passed, lookup_filter_ne different]

/-- Every record is filed at or above its transaction's start. -/
def Cell.Filed (cell : Cell K) : Prop :=
  ∀ version ∈ cell.writes, version.record.startTs ≤ version.commitTs

theorem Cell.Filed.insert {version : Version} (filed : cell.Filed)
    (above : version.record.startTs ≤ version.commitTs)
    (writes : after.writes = insertVersion version cell.writes) : after.Filed := by
  intro other mem
  rcases mem_insertVersion (writes ▸ mem) with rfl | old
  · exact above
  · exact filed other old

/-- A prewrite that gets past the records finds the transaction unsettled and unbeaten. -/
theorem checkPrewrite_reaches (filed : cell.Filed)
    (unrecorded : cell.writeOfTxn request.startTs = none)
    (won : ∀ commitTs, checkPrewrite cell request ≠ .conflict commitTs) :
    checkPrewrite cell request = checkLock cell request ∧
      cell.Unbeaten request.startTs request.readTs := by
  unfold checkPrewrite at won ⊢
  rw [unrecorded] at won ⊢
  dsimp only at won ⊢
  split at won
  · rename_i winner found
    have mem := mem_of_find?_eq_some found
    -- A newest version of the transaction's own would have settled it above.
    have foreign : winner.record.startTs ≠ request.startTs := fun own =>
      Cell.unrecorded_of_writeOfTxn unrecorded winner mem (own ▸ filed winner mem) own
    rw [if_pos foreign] at won
    exact absurd rfl (won _)
  · rename_i none
    refine ⟨rfl, fun version mem changes _ => ?_⟩
    have missed := find?_eq_none.mp none version mem
    have below : ¬ saturatingAdd request.readTs 1 ≤ version.commitTs := fun above =>
      missed (by simp [changes, above])
    unfold saturatingAdd at below
    omega

/-- A lock is granted to a transaction without a record of its own, over no lock or over a lock of
its own that was taken without a value. -/
theorem lock_granted (decided : checkPrewrite cell request = .lock mutations) :
    mutations = lockMutations request ∧ cell.writeOfTxn request.startTs = none ∧
      ∀ lock, cell.lock = some lock →
        lock.startTs = request.startTs ∧ lock.kind = .lock ∧ request.op.kind ≠ .lock := by
  have viaLock (locks : checkLock cell request = .lock mutations) :
      mutations = lockMutations request ∧ ∀ lock, cell.lock = some lock →
        lock.startTs = request.startTs ∧ lock.kind = .lock ∧ request.op.kind ≠ .lock := by
    unfold checkLock at locks
    cases isLock : cell.lock with
    | none =>
      rw [isLock] at locks
      cases locks
      exact ⟨rfl, fun _ none => by cases none⟩
    | some lock =>
      rw [isLock] at locks
      dsimp only at locks
      split_ifs at locks with foreign upgrade
      cases locks
      rw [not_or, not_not] at upgrade
      refine ⟨rfl, fun _ same => ?_⟩
      rw [← Option.some.inj same]
      exact ⟨not_not.mp foreign, upgrade.2, upgrade.1⟩
  unfold checkPrewrite at decided
  cases recorded : cell.writeOfTxn request.startTs with
  | some ours =>
    rw [recorded] at decided
    dsimp only at decided
    split_ifs at decided
  | none =>
    rw [recorded] at decided
    dsimp only at decided
    split at decided
    · split_ifs at decided
      exact ⟨(viaLock decided).1, rfl, (viaLock decided).2⟩
    · exact ⟨(viaLock decided).1, rfl, (viaLock decided).2⟩

theorem moves_of_lock (filed : cell.Filed) (decided : checkPrewrite cell request = .lock mutations) :
    cell.Moves (cell.applyAll mutations) (.placed request) := by
  obtain ⟨rfl, unrecorded, free⟩ := lock_granted decided
  obtain ⟨_, unbeaten⟩ := checkPrewrite_reaches filed unrecorded
    (fun commitTs lost => by rw [decided] at lost; cases lost)
  refine .placed (Cell.unrecorded_of_writeOfTxn unrecorded) unbeaten free ?_ ?_ ?_
  all_goals
    unfold lockMutations
    cases request.op.longValue with
    | none => intros; rfl
    | some value =>
      first
      | rfl
      | exact fun startTs different => Cell.getValue_put
          { cell with lock := some request.lock } value different

theorem settled_cases (cell : Cell K) (startTs : Nat) :
    (settled cell startTs = .undecided ∧ cell.writeOfTxn startTs = none) ∨
    (settled cell startTs = .rolledBack ∧ cell.RolledBack startTs) ∨
    ∃ commitTs, settled cell startTs = .committed commitTs ∧ cell.Committed startTs commitTs := by
  unfold settled
  cases found : cell.writeOfTxn startTs with
  | none => exact .inl ⟨rfl, rfl⟩
  | some version =>
    have mem := mem_of_find?_eq_some found
    have hit := find?_some found
    simp only [Bool.and_eq_true, decide_eq_true_eq] at hit
    by_cases dead : version.record.kind = .rollback
    · exact .inr (.inl ⟨if_pos dead, version, mem, hit.2, dead⟩)
    · exact .inr (.inr ⟨_, if_neg dead, version, mem, rfl, hit.2, dead⟩)

theorem rollback_cases (decided : rollback cell startTs = .ok mutations) :
    (mutations = [] ∧ cell.RolledBack startTs) ∨
    cell.Moves (cell.applyAll mutations) (.marked startTs) := by
  unfold rollback at decided
  rcases settled_cases cell startTs with ⟨isSettled, found⟩ | ⟨isSettled, dead⟩ |
      ⟨_, isSettled, _⟩ <;>
    rw [isSettled] at decided <;> cases decided
  · right
    have unrecorded := Cell.unrecorded_of_writeOfTxn found
    cases held : cell.lockOf startTs with
    | none =>
      refine .marked unrecorded ?_ rfl fun _ _ => rfl
      symm
      change cell.lock.filter _ = cell.lock
      cases present : cell.lock with
      | none => rfl
      | some lock =>
        simp only [Cell.lockOf, present, Option.filter_eq_none_iff] at held
        simpa [Option.filter] using held
    | some lock =>
      obtain ⟨present, own⟩ := Cell.lockOf_eq_some.mp held
      have gone : (none : Option (LockRecord K)) =
          cell.lock.filter fun lock => lock.startTs ≠ startTs := by
        simp [present, own, Option.filter]
      dsimp only
      split
      · refine .marked unrecorded gone rfl fun other different => ?_
        exact lookup_filter_ne different
      · exact .marked unrecorded gone rfl fun _ _ => rfl
  · exact .inl ⟨rfl, dead⟩

theorem rollback_refused (refused : rollback cell startTs = .error error) :
    ∃ commitTs, error = .alreadyCommitted startTs commitTs ∧ cell.Committed startTs commitTs := by
  rw [rollback] at refused
  rcases settled_cases cell startTs with ⟨isSettled, _⟩ | ⟨isSettled, _⟩ |
      ⟨commitTs, isSettled, committed⟩ <;>
    rw [isSettled] at refused <;> cases refused
  exact ⟨commitTs, rfl, committed⟩

variable [LinearOrder K]

theorem commitOne_cases (decided : commitOne store startTs commitTs key = .ok mutations) :
    (∃ lock, (store.get key).lock = some lock ∧ lock.startTs = startTs ∧
      mutations = commitMutations commitTs lock) ∨
    (mutations = [] ∧ (store.get key).Committed startTs commitTs) := by
  have fromSettled : ∀ {cell : Cell K}, commitSettled cell startTs commitTs = .ok mutations →
      mutations = [] ∧ cell.Committed startTs commitTs := by
    intro cell ok
    rw [commitSettled] at ok
    rcases settled_cases cell startTs with ⟨isSettled, _⟩ | ⟨isSettled, _⟩ |
      ⟨found, isSettled, committed⟩ <;> rw [isSettled] at ok
    · cases ok
    · cases ok
    dsimp only at ok
    split_ifs at ok with same
    cases ok
    exact ⟨rfl, same ▸ committed⟩
  have fromPrimary : commitPrimary (store.get key) key startTs commitTs = .ok mutations →
      (∃ lock, (store.get key).lock = some lock ∧ lock.startTs = startTs ∧
        mutations = commitMutations commitTs lock) ∨
      (mutations = [] ∧ (store.get key).Committed startTs commitTs) := by
    intro ok
    unfold commitPrimary at ok
    split at ok
    · cases ok
    split at ok
    · rename_i lock held
      obtain ⟨present, own⟩ := Cell.lockOf_eq_some.mp held
      split at ok
      · cases ok
      · cases ok
        exact .inl ⟨lock, present, own, rfl⟩
    · exact .inr (fromSettled ok)
  unfold commitOne at decided
  split at decided
  · split at decided
    · exact fromPrimary decided
    unfold commitSecondary at decided
    split at decided
    · rename_i held
      obtain ⟨present, own⟩ := Cell.lockOf_eq_some.mp held
      split at decided
      · cases decided
      · cases decided
        exact .inl ⟨_, present, own, rfl⟩
    · exact .inr (fromSettled decided)
  · exact fromPrimary decided

/-! ## A command makes no other change -/

def Request.Causes : Request K → K → Change K → Prop
  | .prewrite startTs primary ttlMs mutations, key, .placed request =>
    request.key = key ∧ ∃ mutation ∈ mutations,
      mutation.request startTs primary ttlMs = some request
  | .commit startTs commitTs keys, key, change => key ∈ keys ∧ change = .committed startTs commitTs
  | .rollback startTs keys, key, change => key ∈ keys ∧ change = .marked startTs
  | .resolveLock startTs commitTs keys, key, change =>
    key ∈ keys ∧ change = if commitTs = 0 then .marked startTs
      else .committed startTs commitTs
  | .heartbeat _ _ _, _, .extended => True
  | _, _, _ => False

def Request.Distinct : Request K → Prop
  | .prewrite _ _ _ mutations => (mutations.filterMap TxnMutation.target).Nodup
  | .commit _ _ keys | .rollback _ keys | .resolveLock _ _ keys | .releaseLock _ keys => keys.Nodup
  | .heartbeat _ _ _ => True

theorem prewriteOne_target {entry : K × Mutation K}
    (staged : entry ∈ (prewriteOne store startTs primary ttlMs mutation).2) :
    mutation.target = some entry.1 := by
  have ofKey : ∀ {request : Prewrite K}, entry ∈ (prewriteKey store request).2 →
      request.key = entry.1 := by
    intro request staged
    unfold prewriteKey at staged
    dsimp only at staged
    split at staged
    · obtain ⟨_, _, rfl⟩ := mem_map.mp staged
      rfl
    · cases staged
  cases mutation with
  | checkRange first last => cases staged
  | put | delete | check => exact congrArg some (ofKey staged)

theorem prewriteOne_of_request (store : Store K)
    (asks : mutation.request startTs primary ttlMs = some request) :
    prewriteOne store startTs primary ttlMs mutation = prewriteKey store request ∧
      mutation.target = some request.key := by
  cases mutation with
  | checkRange first last => cases asks
  | put | delete | check => cases asks; exact ⟨rfl, rfl⟩

omit [LinearOrder K] in
theorem TxnMutation.request_of_target (targets : mutation.target = some key) (startTs : Nat)
    (primary : K) (ttlMs : Nat) :
    ∃ request, mutation.request startTs primary ttlMs = some request ∧ request.key = key := by
  cases mutation with
  | checkRange first last => cases targets
  | put | delete | check => cases targets; exact ⟨_, rfl, rfl⟩

theorem prewrite_accepted {mutations : List (TxnMutation K)} (accepted : ∀ mutation ∈ mutations,
      (prewriteOne store startTs primary ttlMs mutation).1 = .ok) :
    (prewrite store startTs primary ttlMs mutations).2 =
      store.stage (mutations.flatMap fun mutation =>
        (prewriteOne store startTs primary ttlMs mutation).2) := by
  unfold prewrite
  dsimp only
  rw [if_pos (by simpa using accepted), flatMap_map]

theorem prewrite_get {mutations : List (TxnMutation K)}
    (distinct : (mutations.filterMap TxnMutation.target).Nodup) (mem : mutation ∈ mutations)
    (asks : mutation.request startTs primary ttlMs = some request)
    (accepted : ∀ mutation ∈ mutations,
      (prewriteOne store startTs primary ttlMs mutation).1 = .ok) :
    (prewrite store startTs primary ttlMs mutations).2.get request.key =
      (store.get request.key).applyAll ((prewriteKey store request).2.map Prod.snd) := by
  obtain ⟨one, targets⟩ := prewriteOne_of_request store asks
  rw [prewrite_accepted accepted, Store.get_stage_item _ distinct (fun item _ entry staged => prewriteOne_target staged)
    mem targets, one]

theorem prewrite_refused {mutations : List (TxnMutation K)} (refused : ¬ ∀ mutation ∈ mutations,
      (prewriteOne store startTs primary ttlMs mutation).1 = .ok) :
    (prewrite store startTs primary ttlMs mutations).2 = store := by
  unfold prewrite
  dsimp only
  rw [if_neg (by simpa using refused)]

theorem prewrite_moves (filed : (store.get key).Filed) {mutations : List (TxnMutation K)}
    (distinct : (mutations.filterMap TxnMutation.target).Nodup) :
    (prewrite store startTs primary ttlMs mutations).2.get key = store.get key ∨
    ∃ request, (store.get key).Moves
        ((prewrite store startTs primary ttlMs mutations).2.get key) (.placed request) ∧
      request.key = key ∧
      ∃ mutation ∈ mutations, mutation.request startTs primary ttlMs = some request := by
  by_cases accepted : ∀ mutation ∈ mutations,
      (prewriteOne store startTs primary ttlMs mutation).1 = .ok
  · by_cases targeted : ∃ mutation ∈ mutations, mutation.target = some key
    · obtain ⟨mutation, mem, targets⟩ := targeted
      obtain ⟨request, asks, rfl⟩ := TxnMutation.request_of_target targets startTs primary ttlMs
      rw [prewrite_get distinct mem asks accepted]
      cases decision : checkPrewrite (store.get request.key) request with
      | lock staged =>
        refine .inr ⟨request, ?_, rfl, mutation, mem, asks⟩
        have moved := moves_of_lock filed decision
        simpa [prewriteKey, decision, map_map, Function.comp_def] using moved
      | alreadyLocked | locked _ | conflict _ | rolledBack =>
        left
        simp [prewriteKey, decision, Cell.applyAll]
    · left
      rw [prewrite_accepted accepted]
      refine Store.get_stage_untouched fun mutation mem entry staged same => targeted ?_
      exact ⟨mutation, mem, same ▸ prewriteOne_target staged⟩
  · exact .inl (by rw [prewrite_refused accepted])

omit [LinearOrder K] in
theorem decideAll_ok {decide : K → Except TxnError (List (Mutation K))}
    {staged : List (K × Mutation K)} (decided : decideAll decide keys = .ok staged) :
    (∀ key ∈ keys, ∃ mutations, decide key = .ok mutations) ∧
      staged = keys.flatMap fun key => (((decide key).toOption).getD []).map (key, ·) := by
  induction keys generalizing staged with
  | nil =>
    cases decided
    exact ⟨by simp, rfl⟩
  | cons key rest ih =>
    unfold decideAll at decided
    cases first : decide key with
    | error error => simp [first] at decided
    | ok mutations =>
      cases later : decideAll decide rest with
      | error error => simp [first, later] at decided
      | ok others =>
        simp only [first, later, Except.ok.injEq] at decided
        obtain ⟨each, rfl⟩ := ih later
        subst decided
        refine ⟨fun other mem => ?_, by simp [first, Except.toOption]⟩
        rcases mem_cons.mp mem with rfl | below
        · exact ⟨mutations, first⟩
        · exact each other below

omit [LinearOrder K] in
theorem decideAll_error {decide : K → Except TxnError (List (Mutation K))}
    (refused : decideAll decide keys = .error error) : ∃ key ∈ keys, decide key = .error error := by
  induction keys with
  | nil => cases refused
  | cons key rest ih =>
    unfold decideAll at refused
    cases first : decide key with
    | error found =>
      simp only [first, Except.error.injEq] at refused
      exact ⟨key, .head _, refused ▸ first⟩
    | ok mutations =>
      cases later : decideAll decide rest with
      | error found =>
        simp only [first, later, Except.error.injEq] at refused
        subst refused
        obtain ⟨key, mem, refusing⟩ := ih later
        exact ⟨key, .tail _ mem, refusing⟩
      | ok others => simp [first, later] at refused

theorem stage_each {store : Store K} {keys : List K} (distinct : keys.Nodup)
    (chosen : K → List (Mutation K)) (key : K) :
    (store.stage (keys.flatMap fun key => (chosen key).map (key, ·))).get key =
      if key ∈ keys then (store.get key).applyAll (chosen key) else store.get key := by
  split
  · rename_i mem
    rw [Store.get_stage_item some (by simpa using distinct) ?_ mem rfl]
    · simp [map_map, Function.comp_def]
    intro item _ entry staged
    obtain ⟨_, _, rfl⟩ := mem_map.mp staged
    rfl
  · rename_i absent
    refine Store.get_stage_untouched fun item mem entry staged same => absent ?_
    obtain ⟨_, _, rfl⟩ := mem_map.mp staged
    exact same ▸ mem

theorem commit_moves (distinct : keys.Nodup) (key : K) :
    (commit store startTs commitTs keys).2.get key = store.get key ∨
    key ∈ keys ∧ (store.get key).Moves ((commit store startTs commitTs keys).2.get key)
      (.committed startTs commitTs) := by
  unfold commit
  split
  · exact .inl rfl
  rename_i staged decided
  obtain ⟨each, rfl⟩ := decideAll_ok decided
  rw [stage_each distinct]
  split
  · rename_i mem
    obtain ⟨mutations, ok⟩ := each key mem
    rw [ok]
    rcases commitOne_cases ok with ⟨lock, held, rfl, rfl⟩ | ⟨rfl, _⟩
    · exact .inr ⟨mem, .committed held⟩
    · exact .inl rfl
  · exact .inl rfl

theorem rollbackKeys_moves (distinct : keys.Nodup) (key : K) :
    (rollbackKeys store startTs keys).2.get key = store.get key ∨
    key ∈ keys ∧ (store.get key).Moves ((rollbackKeys store startTs keys).2.get key)
      (.marked startTs) := by
  unfold rollbackKeys
  split
  · exact .inl rfl
  rename_i staged decided
  obtain ⟨each, rfl⟩ := decideAll_ok decided
  rw [stage_each distinct]
  split
  · rename_i mem
    obtain ⟨mutations, ok⟩ := each key mem
    rw [ok]
    rcases rollback_cases ok with ⟨rfl, _⟩ | moved
    · exact .inl rfl
    · exact .inr ⟨mem, moved⟩
  · exact .inl rfl

theorem resolveLock_moves (distinct : keys.Nodup) (key : K) :
    (resolveLock store startTs commitTs keys).2.get key = store.get key ∨
    key ∈ keys ∧ (store.get key).Moves ((resolveLock store startTs commitTs keys).2.get key)
      (if commitTs = 0 then .marked startTs else .committed startTs commitTs) := by
  unfold resolveLock
  rw [stage_each distinct]
  split
  · rename_i mem
    cases decided : resolveOne store startTs commitTs key with
    | none => exact .inl rfl
    | some mutations =>
      unfold resolveOne at decided
      split at decided
      · cases decided
      rename_i lock held
      obtain ⟨present, own⟩ := Cell.lockOf_eq_some.mp held
      split at decided
      · rename_i found ok
        cases decided
        split at ok
        · rename_i zero
          rw [if_pos zero]
          rcases rollback_cases ok with ⟨rfl, _⟩ | moved
          · exact .inl rfl
          · exact .inr ⟨mem, moved⟩
        · rename_i positive
          rw [if_neg positive]
          simp only [commitSecondary, held, ne_eq, not_true_eq_false, if_false,
            Except.ok.injEq] at ok
          subst ok own
          exact .inr ⟨mem, .committed present⟩
      · cases decided
  · exact .inl rfl

theorem heartbeat_moves (key : K) :
    (heartbeat store startTs primary ttlMs).2.get key = store.get key ∨
    (store.get key).Moves ((heartbeat store startTs primary ttlMs).2.get key) .extended := by
  unfold heartbeat
  split
  · exact .inl rfl
  rename_i lock held
  obtain ⟨present, _⟩ := Cell.lockOf_eq_some.mp held
  split
  · dsimp only
    rw [Store.get_stage_one]
    split_ifs with same
    · subst same
      exact .inr (.extended present)
    · exact .inl rfl
  · exact .inl rfl

/-- A request leaves a cell alone, gives its lock back or makes the change it causes. -/
theorem handle_moves (filed : (store.get key).Filed) {request : Request K}
    (distinct : request.Distinct) : (handle store request).2.get key = store.get key ∨
    (∃ startTs keys, request = .releaseLock startTs keys ∧ key ∈ keys ∧
      (handle store request).2.get key =
        (store.get key).applyAll (release (store.get key) startTs).1) ∨
    ∃ change, (store.get key).Moves ((handle store request).2.get key) change ∧
      request.Causes key change := by
  cases request with
  | prewrite startTs primary ttlMs mutations =>
    exact (prewrite_moves filed distinct).imp_right
      fun ⟨request, moved, cause⟩ => .inr ⟨_, moved, cause⟩
  | commit startTs commitTs keys =>
    exact (commit_moves distinct key).imp_right fun ⟨mem, moved⟩ => .inr ⟨_, moved, mem, rfl⟩
  | rollback startTs keys =>
    exact (rollbackKeys_moves distinct key).imp_right fun ⟨mem, moved⟩ => .inr ⟨_, moved, mem, rfl⟩
  | releaseLock startTs keys =>
    rw [handle, releaseLock, stage_each distinct]
    split_ifs with mem
    · exact .inr (.inl ⟨startTs, keys, rfl, mem, rfl⟩)
    · exact .inl rfl
  | resolveLock startTs commitTs keys =>
    exact (resolveLock_moves distinct key).imp_right fun ⟨mem, moved⟩ => .inr ⟨_, moved, mem, rfl⟩
  | heartbeat startTs primary ttlMs =>
    exact (heartbeat_moves key).imp_right fun moved => .inr ⟨.extended, moved, trivial⟩

end Moves

end Esker.Txn
