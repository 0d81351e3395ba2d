import Esker.Txn.Moves

/-!
Contract: what a columnar learner answers a fragment with (`serve_fragment`, `catch_up` and
`evaluate` of `esker-store/src/server.rs`, `ColumnarSlot::commit` and `table` and `unresolved_lock` of
`esker-store/src/columnar/region.rs`, `apply` and `tee_columnar` of `esker-store/src/peer.rs`).

Owns: the learner's store and copy under every order of entries, tees, builds and splits, the
catch-up and the moments at which a fragment reads, and when its answer is the snapshot at its
timestamp.

Does not own: how the read-index round finds its index, the files of a run, and the expressions of a
fragment. Keys are those of one table.
-/

namespace Esker.Store.Fragments

open Esker.Txn List

variable {K : Type}

section Serving

variable [LinearOrder K]

/-- A columnar learner of a region, as far as one table goes. -/
structure Learner (K : Type) [LinearOrder K] where
  range : K → Bool
  store : Txn.Store K
  copy : K → List Version
  /-- What an entry that has been applied still has to feed to the copy. -/
  owed : Option (Nat × List K)
  /-- The index of the entry that was applied last. -/
  applied : Nat

/-- `commits_of` and `committed_ok`: the timestamp and the keys that an applied request feeds. -/
def committed (request : Request K) (response : Response K) : Option (Nat × List K) :=
  match request, response with
  | .commit _ commitTs keys, .commit .ok => some (commitTs, keys)
  | .resolveLock _ commitTs keys, .resolveLock _ =>
    if commitTs = 0 then none else some (commitTs, keys)
  | _, _ => none

/-- `ColumnarSlot::commit` on one key: the version that the commit left, when it did. -/
def feedKey (store : Txn.Store K) (commitTs : Nat) (key : K) (held : List Version) :
    List Version :=
  match (store.get key).seekWrite commitTs with
  | none => held
  | some version =>
    if version.commitTs = commitTs ∧ version.isAVersion then insertVersion version held else held

/-- The versions of a key in the `write` family. -/
def versions (cell : Cell K) : List Version := cell.writes.filter Version.isAVersion

namespace Learner

/-- The copy once the entry that was applied last has been fed. -/
def settledCopy (learner : Learner K) (key : K) : List Version :=
  match learner.owed with
  | none => learner.copy key
  | some (commitTs, keys) =>
    if key ∈ keys then feedKey learner.store commitTs key (learner.copy key)
    else learner.copy key

end Learner

/-- What happens on the learner's store beside a fragment. -/
inductive Event (K : Type) where
  | applied (request : Request K)
  | fed
  | rebuilt
  | split (keeps : K → Bool)
  | elsewhere (request : Request K)

namespace Learner

def step (learner : Learner K) : Event K → Learner K
  -- One driver applies and feeds, so the next entry waits for the tee of the last.
  | .applied request =>
    if learner.owed.isSome then learner
    else
      { learner with
        store := (handle learner.store request).2
        owed := committed request (handle learner.store request).1
        applied := learner.applied + 1 }
  | .fed => { learner with copy := learner.settledCopy, owed := none }
  | .rebuilt =>
    { learner with
      copy := fun key =>
        if learner.range key then versions (learner.store.get key) else learner.copy key }
  | .split keeps => { learner with range := fun key => learner.range key && keeps key }
  | .elsewhere request => { learner with store := (handle learner.store request).2 }

def after (learner : Learner K) (events : List (Event K)) : Learner K := events.foldl step learner

end Learner

/-- `unresolved_lock`: whether a lock in the range may hide a version at or below `ts`. -/
def unresolvedLock (store : Txn.Store K) (ts : Nat) (range : K → Bool) : Bool :=
  store.any fun entry =>
    range entry.1 &&
      match entry.2.lock with
      | some lock => lock.startTs ≤ ts && lock.kind != .lock
      | none => false

/-- `evaluate`: the newest version of the runs at or below `ts`, of every key in the range. -/
def evaluate (runs : K → List Version) (ts : Nat) (range : K → Bool) (key : K) : Option Version :=
  if range key then (runs key).find? fun version => version.commitTs ≤ ts else none

/-- How the read-index round of a fragment ends. -/
inductive Round where
  /-- The store holds the record of the region and does not replicate it. -/
  | unreplicated
  | answered (index : Nat)
  | failed
  /-- The round did not answer in time; what the peer then says of itself, if anything. -/
  | timedOut (status : Option (Nat × Nat × Nat))
deriving DecidableEq, Repr

/-- `catch_up`: whether the fragment is answered. The round returns once the index it established
has been applied; one that times out leaves it to a peer with nothing outstanding. -/
def catchUp (round : Round) (applied minApplyIndex : Nat) : Bool :=
  match round with
  | .unreplicated => true
  | .answered index => decide (index ≤ applied) && decide (minApplyIndex ≤ applied)
  | .failed | .timedOut none => false
  | .timedOut (some (applied', commit, lastIndex)) =>
    !(decide (applied' < commit) || decide (commit < lastIndex)) && decide (minApplyIndex ≤ applied)

/-- `serve_fragment`: the region as routed, the catch-up over after some events, the runs taken
after some more, and the locks looked for after others. Without a result the fragment is refused. -/
def serveFragment (ts minApplyIndex : Nat) (round : Round) (learner : Learner K)
    (waiting opening between : List (Event K)) : Option (K → Option Version) :=
  let routed := learner.range
  if !catchUp round (learner.after waiting).applied minApplyIndex then none
  else
    let opened := (learner.after waiting).after opening
    if unresolvedLock (opened.after between).store ts routed then none
    else some (evaluate opened.copy ts routed)

end Serving

/-! ## Versions in order -/

variable {version : Version} {startTs commitTs ts : Nat} {store : Txn.Store K} {request : Request K}
  {lock : LockRecord K} {key : K} {keys : List K}

section Ordered

def Newest (writes : List Version) : Prop :=
  writes.Pairwise fun newer older => older.commitTs < newer.commitTs

theorem Newest.insert {writes : List Version} (newest : Newest writes) :
    Newest (insertVersion version writes) := insertVersion_ordered newest

theorem seek_insertVersion (version : Version) (writes : List Version) :
    (insertVersion version writes).find? (fun other => other.commitTs ≤ version.commitTs) =
      some version := by
  induction writes with
  | nil => simp [insertVersion]
  | cons head rest ih =>
    unfold insertVersion
    split
    · simp
    split
    · simp
    · have passed : ¬ head.commitTs ≤ version.commitTs := by omega
      simp [passed, ih]

variable {writes : List Version}

theorem insertVersion_of_mem (newest : Newest writes) (mem : version ∈ writes) :
    insertVersion version writes = writes := by
  induction writes with
  | nil => cases mem
  | cons head rest ih =>
    obtain ⟨above, restNewest⟩ := pairwise_cons.mp newest
    unfold insertVersion
    rcases mem_cons.mp mem with rfl | inRest
    · rw [if_pos rfl]
    · have lower := above version inRest
      rw [if_neg (by omega), if_neg (by omega), ih restNewest inRest]

theorem filter_insertVersion (newest : Newest writes) (isVersion : version.isAVersion = true) :
    (insertVersion version writes).filter Version.isAVersion =
      insertVersion version (writes.filter Version.isAVersion) := by
  induction writes with
  | nil => simp [insertVersion, isVersion]
  | cons head rest ih =>
    obtain ⟨above, restNewest⟩ := pairwise_cons.mp newest
    -- All that comes after a record that is older than the version is older as well.
    have older : head.commitTs ≤ version.commitTs →
        insertVersion version (rest.filter Version.isAVersion) =
          version :: rest.filter Version.isAVersion := by
      intro atMost
      cases filtered : rest.filter Version.isAVersion with
      | nil => rfl
      | cons next others =>
        have isNext : next ∈ rest.filter Version.isAVersion := by
          rw [filtered]
          exact mem_cons_self
        have lower := above next (mem_filter.mp isNext).1
        unfold insertVersion
        rw [if_neg (by omega), if_pos (by omega)]
    by_cases headVersion : head.isAVersion = true
    · rw [filter_cons_of_pos headVersion]
      unfold insertVersion
      split
      · rw [filter_cons_of_pos isVersion]
      split
      · rw [filter_cons_of_pos isVersion, filter_cons_of_pos headVersion]
      · rw [filter_cons_of_pos headVersion, ih restNewest]
    · rw [filter_cons_of_neg headVersion, insertVersion]
      split
      case isTrue same =>
        rw [filter_cons_of_pos isVersion]
        exact (older (Nat.le_of_eq same)).symm
      case isFalse =>
        split
        case isTrue below =>
          rw [filter_cons_of_pos isVersion, filter_cons_of_neg headVersion]
          exact (older (Nat.le_of_lt below)).symm
        case isFalse =>
          rw [filter_cons_of_neg headVersion]
          exact ih restNewest

theorem filter_insertVersion_other (notVersion : version.isAVersion = false)
    (apart : ∀ other ∈ writes, other.isAVersion = true → other.commitTs ≠ version.commitTs) :
    (insertVersion version writes).filter Version.isAVersion =
      writes.filter Version.isAVersion := by
  induction writes with
  | nil => simp [insertVersion, notVersion]
  | cons head rest ih =>
    have later := ih fun other mem => apart other (.tail _ mem)
    unfold insertVersion
    split
    case isTrue same =>
      have headOther : ¬ head.isAVersion = true := fun isVersion =>
        apart head (.head _) isVersion same
      rw [filter_cons_of_neg (ne_true_of_eq_false notVersion), filter_cons_of_neg headOther]
    case isFalse =>
      split
      · rw [filter_cons_of_neg (ne_true_of_eq_false notVersion)]
      · rw [filter_cons, filter_cons, later]

end Ordered

/-! ## What entries do to a key -/

/-- The timestamps that were issued: which transaction a commit timestamp belongs to. -/
structure Oracle where
  owner : Nat → Option Nat
  before : ∀ {commitTs startTs}, owner commitTs = some startTs → startTs < commitTs

/-- The request carries timestamps as they were issued. A transaction that prewrites after the
fragment's timestamp was issued commits above it. -/
def Oracle.Timely (oracle : Oracle) (ts : Nat) : Request K → Prop
  | .prewrite startTs _ _ _ => ∀ commitTs, oracle.owner commitTs = some startTs → ts < commitTs
  | .commit startTs commitTs _ => oracle.owner commitTs = some startTs
  | .rollback startTs _ => oracle.owner startTs = none
  | .resolveLock startTs commitTs _ =>
    if commitTs = 0 then oracle.owner startTs = none else oracle.owner commitTs = some startTs
  | .releaseLock _ _ | .heartbeat _ _ _ => True

structure Sound (oracle : Oracle) (cell : Cell K) : Prop where
  newest : Newest cell.writes
  filed : cell.Filed
  owned : ∀ version ∈ cell.writes, version.isAVersion = true →
    oracle.owner version.commitTs = some version.record.startTs
  unrecorded : ∀ lock, cell.lock = some lock → ∀ version ∈ cell.writes,
    version.isAVersion = true → version.record.startTs ≠ lock.startTs

/-- No lock of the key is going to be committed at or below `ts`, but for one without a value. -/
def Resolved (oracle : Oracle) (ts : Nat) (cell : Cell K) : Prop :=
  ∀ lock, cell.lock = some lock → lock.kind ≠ .lock →
    ∀ commitTs, oracle.owner commitTs = some lock.startTs → ts < commitTs

inductive Effect (oracle : Oracle) (ts : Nat) (cell : Cell K) : Cell K → Prop
  | unlocked {after : Cell K} (writes : after.writes = cell.writes)
      (lock : after.lock = none ∨ after.lock = cell.lock) : Effect oracle ts cell after
  | extended {after : Cell K} {lock renewed : LockRecord K} (held : cell.lock = some lock)
      (writes : after.writes = cell.writes) (renews : after.lock = some renewed)
      (same : renewed.startTs = lock.startTs ∧ renewed.kind = lock.kind) :
      Effect oracle ts cell after
  | placed {after : Cell K} {lock : LockRecord K} (writes : after.writes = cell.writes)
      (placed : after.lock = some lock) (fresh : cell.Unrecorded lock.startTs)
      (late : ∀ commitTs, oracle.owner commitTs = some lock.startTs → ts < commitTs) :
      Effect oracle ts cell after
  | committed {after : Cell K} {lock : LockRecord K} {commitTs : Nat}
      (held : cell.lock = some lock) (owned : oracle.owner commitTs = some lock.startTs)
      (writes : after.writes = insertVersion (lock.committedAt commitTs) cell.writes)
      (unlocked : after.lock = none) : Effect oracle ts cell after
  | marked {after : Cell K} {startTs : Nat} (unowned : oracle.owner startTs = none)
      (writes : after.writes = insertVersion (marker startTs) cell.writes)
      (lock : after.lock = none ∨ after.lock = cell.lock) : Effect oracle ts cell after

section Effects

variable {oracle : Oracle} {ts : Nat} {cell after : Cell K}

theorem filter_lock (lock : Option (LockRecord K)) (wanted : LockRecord K → Bool) :
    lock.filter wanted = none ∨ lock.filter wanted = lock := by
  cases lock with
  | none => exact .inl rfl
  | some lock => by_cases holds : wanted lock <;> simp [holds]

/-- What the oracle has to say of a change. -/
def Oracle.Accounts (oracle : Oracle) (ts : Nat) : Change K → Prop
  | .placed request => ∀ commitTs, oracle.owner commitTs = some request.startTs → ts < commitTs
  | .committed startTs commitTs => oracle.owner commitTs = some startTs
  | .marked startTs => oracle.owner startTs = none
  | .extended => True

variable {change : Change K}

theorem effect_of_moves (moved : cell.Moves after change)
    (accounts : oracle.Accounts ts change) : Effect oracle ts cell after := by
  cases moved with
  | @placed _ request unrecorded _ _ lock writes _ =>
    exact .placed writes lock unrecorded accounts
  | committed held => exact .committed held accounts rfl rfl
  | marked _ lock writes _ =>
    refine .marked accounts writes ?_
    rw [lock]
    exact filter_lock _ _
  | extended held => exact .extended held rfl rfl ⟨rfl, rfl⟩

theorem release_effect (startTs : Nat) :
    (cell.applyAll (release cell startTs).1).writes = cell.writes ∧
      ((cell.applyAll (release cell startTs).1).lock = none ∨
        (cell.applyAll (release cell startTs).1).lock = cell.lock) := by
  unfold release
  split
  · split <;> exact ⟨rfl, .inl rfl⟩
  · exact ⟨rfl, .inr rfl⟩

theorem request_startTs {ttlMs : Nat} {primary : K} {mutation : TxnMutation K}
    {request : Prewrite K} (asks : mutation.request startTs primary ttlMs = some request) :
    request.startTs = startTs := by
  cases mutation with
  | checkRange first last => cases asks
  | put | delete | check =>
    rw [← Option.some.inj asks]

theorem Oracle.Timely.accounts (timely : oracle.Timely ts request)
    (causes : request.Causes key change) : oracle.Accounts ts change := by
  cases request with
  | prewrite startTs primary ttlMs mutations =>
    cases change with
    | placed asked =>
      obtain ⟨_, mutation, _, asks⟩ := causes
      intro commitTs owned
      exact timely commitTs (owned.trans (congrArg some (request_startTs asks)))
    | committed | marked | extended => cases causes
  | commit | rollback =>
    obtain ⟨_, rfl⟩ := causes
    exact timely
  | resolveLock startTs commitTs keys =>
    obtain ⟨_, rfl⟩ := causes
    rw [Oracle.Timely] at timely
    split_ifs at timely ⊢ <;> exact timely
  | releaseLock => cases causes
  | heartbeat =>
    cases change with
    | extended => trivial
    | placed | committed | marked => cases causes

variable [LinearOrder K]

theorem handle_effect (filed : ∀ key, (store.get key).Filed) (distinct : request.Distinct)
    (timely : oracle.Timely ts request) (key : K) :
    Effect oracle ts (store.get key) ((handle store request).2.get key) := by
  rcases handle_moves (filed key) distinct with
    same | ⟨startTs, keys, _, _, released⟩ | ⟨change, moved, causes⟩
  · rw [same]
    exact .unlocked rfl (.inr rfl)
  · rw [released]
    exact .unlocked (release_effect startTs).1 (release_effect startTs).2
  · exact effect_of_moves moved (timely.accounts causes)

end Effects

section Keeps

variable {oracle : Oracle} {ts : Nat} {cell after : Cell K}

theorem isAVersion_committedAt (lock : LockRecord K) (commitTs : Nat)
    (isVersion : (lock.committedAt commitTs).isAVersion = true) : lock.kind ≠ .lock := by
  intro isLock
  simp [LockRecord.committedAt, Version.isAVersion, isLock, Kind.isAVersion] at isVersion

theorem Sound.apart_commit (sound : Sound oracle cell) (held : cell.lock = some lock)
    (owned : oracle.owner commitTs = some lock.startTs) :
    ∀ other ∈ cell.writes, other.isAVersion = true → other.commitTs ≠ commitTs := by
  intro other mem isVersion same
  have isOwner := sound.owned other mem isVersion
  rw [same, owned] at isOwner
  exact sound.unrecorded lock held other mem isVersion (Option.some.inj isOwner).symm

theorem Sound.apart_marker (sound : Sound oracle cell) (unowned : oracle.owner startTs = none) :
    ∀ other ∈ cell.writes, other.isAVersion = true → other.commitTs ≠ startTs := by
  intro other mem isVersion same
  have isOwner := sound.owned other mem isVersion
  rw [same, unowned] at isOwner
  cases isOwner

theorem Sound.of_writes (sound : Sound oracle cell) (writes : after.writes = cell.writes)
    (unrecorded : ∀ lock, after.lock = some lock → ∀ version ∈ cell.writes,
      version.isAVersion = true → version.record.startTs ≠ lock.startTs) : Sound oracle after :=
  ⟨writes ▸ sound.newest, fun version mem => sound.filed version (writes ▸ mem),
    fun version mem => sound.owned version (writes ▸ mem), writes ▸ unrecorded⟩

section

variable (effect : Effect oracle ts cell after)
include effect

theorem Effect.sound (sound : Sound oracle cell) : Sound oracle after := by
  cases effect with
  | unlocked writes lock =>
    refine sound.of_writes writes fun held isHeld => ?_
    rcases lock with isNone | same
    · rw [isNone] at isHeld
      cases isHeld
    · exact sound.unrecorded held (same ▸ isHeld)
  | @extended lock renewed held writes renews same =>
    refine sound.of_writes writes fun other isOther => ?_
    rw [renews] at isOther
    rw [← Option.some.inj isOther, same.1]
    exact sound.unrecorded lock held
  | @placed lock writes placed fresh late =>
    refine sound.of_writes writes fun other isOther version mem _ same => ?_
    rw [placed] at isOther
    rw [← Option.some.inj isOther] at same
    exact fresh version mem (same ▸ sound.filed version mem) same
  | @committed lock commitTs held owned writes unlocked =>
    refine ⟨writes ▸ sound.newest.insert, sound.filed.insert (oracle.before owned).le writes,
      ?_, ?_⟩
    · intro version mem isVersion
      rw [writes] at mem
      rcases mem_insertVersion mem with rfl | old
      · exact owned
      · exact sound.owned version old isVersion
    · intro other isOther
      rw [unlocked] at isOther
      cases isOther
  | @marked startTs unowned writes lock =>
    have old {version : Version} (mem : version ∈ after.writes)
        (isVersion : version.isAVersion = true) : version ∈ cell.writes := by
      rw [writes] at mem
      rcases mem_insertVersion mem with rfl | old
      · cases isVersion
      · exact old
    refine ⟨writes ▸ sound.newest.insert, sound.filed.insert le_rfl writes, ?_, ?_⟩
    · intro version mem isVersion
      exact sound.owned version (old mem isVersion) isVersion
    · intro held isHeld version mem isVersion
      rcases lock with isNone | same
      · rw [isNone] at isHeld
        cases isHeld
      · exact sound.unrecorded held (same ▸ isHeld) version (old mem isVersion) isVersion

theorem Effect.resolved (resolved : Resolved oracle ts cell) : Resolved oracle ts after := by
  intro lock isLock isWrite
  cases effect with
  | unlocked _ unlocked | marked _ _ unlocked =>
    rcases unlocked with isNone | same
    · rw [isNone] at isLock
      cases isLock
    · exact resolved lock (same ▸ isLock) isWrite
  | @extended held renewed isHeld _ renews same =>
    rw [renews] at isLock
    rw [← Option.some.inj isLock, same.2] at isWrite
    rw [← Option.some.inj isLock, same.1]
    exact resolved held isHeld isWrite
  | placed _ placed _ late =>
    rw [placed] at isLock
    rw [← Option.some.inj isLock]
    exact late
  | committed _ _ _ unlocked =>
    rw [unlocked] at isLock
    cases isLock

/-- The versions of a key change by a commit of a lock with a value, and in no other way. -/
theorem Effect.versions_eq (sound : Sound oracle cell) :
    versions after = versions cell ∨ ∃ lock commitTs, cell.lock = some lock ∧
      oracle.owner commitTs = some lock.startTs ∧ (lock.committedAt commitTs).isAVersion = true ∧
      after.writes = insertVersion (lock.committedAt commitTs) cell.writes ∧
      versions after = insertVersion (lock.committedAt commitTs) (versions cell) := by
  unfold versions
  cases effect with
  | unlocked writes _ | extended _ writes _ _ | placed writes _ _ _ => exact .inl (by rw [writes])
  | @committed lock commitTs held owned writes _ =>
    rw [writes]
    by_cases isVersion : (lock.committedAt commitTs).isAVersion = true
    · right
      exact ⟨lock, commitTs, held, owned, isVersion, rfl,
        filter_insertVersion sound.newest isVersion⟩
    left
    exact filter_insertVersion_other (Bool.eq_false_iff.mpr isVersion)
      (sound.apart_commit held owned)
  | marked unowned writes _ =>
    left
    rw [writes]
    exact filter_insertVersion_other rfl (sound.apart_marker unowned)

omit effect in
theorem newestVersionAt_eq (cell : Cell K) (ts : Nat) :
    newestVersionAt cell ts = (versions cell).find? fun version => version.commitTs ≤ ts := by
  unfold newestVersionAt versions
  rw [find?_filter]
  congr 1
  funext version
  cases version.isAVersion <;> simp

omit effect in
theorem find_insert_above {held : List Version} (above : ts < version.commitTs) :
    (insertVersion version held).find? (fun other => other.commitTs ≤ ts) =
      held.find? fun other => other.commitTs ≤ ts :=
  find_insertVersion (by simp only [decide_eq_false_iff_not]; omega) fun other _ same => by
    simp only [decide_eq_false_iff_not]
    omega

theorem Effect.seen_of_resolved (sound : Sound oracle cell)
    (resolved : Resolved oracle ts cell) : newestVersionAt after ts = newestVersionAt cell ts := by
  rw [newestVersionAt_eq, newestVersionAt_eq]
  rcases effect.versions_eq sound with same | ⟨lock, commitTs, held, owned, isVersion, _, inserted⟩
  · rw [same]
  · have isWrite := isAVersion_committedAt lock commitTs isVersion
    rw [inserted, find_insert_above (resolved lock held isWrite commitTs owned)]

end

end Keeps

/-! ## The learner over its events -/

/-- An event that commits nothing at or below `ts`. -/
def Event.quiet (ts : Nat) : Event K → Bool
  | .applied (.commit _ commitTs _) => ts < commitTs
  | .applied (.resolveLock _ commitTs _) => commitTs = 0 || ts < commitTs
  | _ => true

def Event.splits : Event K → Bool
  | .split _ => true
  | _ => false

theorem quiet_above {response : Response K} (quiet : (Event.applied request).quiet ts = true)
    (owed : committed request response = some (commitTs, keys)) : ts < commitTs := by
  unfold committed at owed
  split at owed
  case h_1 =>
    cases owed
    simpa [Event.quiet] using quiet
  case h_2 =>
    split at owed
    case isTrue => cases owed
    case isFalse committing =>
      cases owed
      simpa [Event.quiet, committing] using quiet
  case h_3 => cases owed

section Runs

variable [LinearOrder K]

/-- A fragment: its timestamp, the index that the leader had committed when it came, and the keys
of the region it was routed to. -/
structure Fragment (K : Type) where
  ts : Nat
  index : Nat
  range : K → Bool

/-- The entries carry issued timestamps, and those of other regions leave this one's keys alone.
Up to the index of the fragment a transaction may also commit at or below its timestamp; a key that
was split off is changed by what is prewritten later. -/
def Allowed (oracle : Oracle) (fragment : Fragment K) (learner : Learner K) : Event K → Prop
  | .applied request =>
    request.Distinct ∧
      oracle.Timely (if learner.applied < fragment.index then 0 else fragment.ts) request
  | .elsewhere request =>
    request.Distinct ∧ oracle.Timely 0 request ∧
      (∀ key, learner.range key = true →
        (handle learner.store request).2.get key = learner.store.get key) ∧
      ((∀ key, fragment.range key = true →
        (handle learner.store request).2.get key = learner.store.get key) ∨
          oracle.Timely fragment.ts request)
  | .fed | .rebuilt | .split _ => True

def Run (oracle : Oracle) (fragment : Fragment K) : Learner K → List (Event K) → Prop
  | _, [] => True
  | learner, event :: rest =>
    Allowed oracle fragment learner event ∧ Run oracle fragment (learner.step event) rest

theorem run_append {oracle : Oracle} {fragment : Fragment K} {learner : Learner K}
    {first second : List (Event K)} : Run oracle fragment learner (first ++ second) ↔
      Run oracle fragment learner first ∧ Run oracle fragment (learner.after first) second := by
  induction first generalizing learner with
  | nil => simp [Run, Learner.after]
  | cons event rest ih =>
    rw [cons_append, Run, Run, ih, and_assoc]
    rfl

/-- The records of every key are sound, and once the last entry has been fed the copy of a key of
the region holds its versions. -/
structure Mirrors (oracle : Oracle) (learner : Learner K) : Prop where
  sound : ∀ key, Sound oracle (learner.store.get key)
  mirror : ∀ key, learner.range key = true →
    learner.settledCopy key = versions (learner.store.get key)

variable {oracle : Oracle} {ts : Nat} {fragment : Fragment K} {learner : Learner K}

theorem feedKey_of_mirror (sound : Sound oracle (store.get key)) (commitTs : Nat) :
    feedKey store commitTs key (versions (store.get key)) = versions (store.get key) := by
  unfold feedKey
  split
  · rfl
  case h_2 version sought =>
    split
    case isFalse => rfl
    case isTrue isVersion =>
      apply insertVersion_of_mem (sound.newest.filter _)
      exact mem_filter.mpr ⟨mem_of_find?_eq_some sought, isVersion.2⟩

theorem Learner.settledCopy_owed {commitTs : Nat} {keys : List K}
    (owes : learner.owed = some (commitTs, keys)) (key : K) :
    learner.settledCopy key =
      if key ∈ keys then feedKey learner.store commitTs key (learner.copy key)
      else learner.copy key := by
  unfold Learner.settledCopy
  rw [owes]

theorem Learner.settledCopy_paid (owes : learner.owed = none) (key : K) :
    learner.settledCopy key = learner.copy key := by
  unfold Learner.settledCopy
  rw [owes]

/-- Where an entry changes the versions of a key, it is a commit that owes the key to the copy. -/
theorem handle_commits (sound : ∀ key, Sound oracle (store.get key)) (distinct : request.Distinct)
    (timely : oracle.Timely ts request) (key : K) :
    versions ((handle store request).2.get key) = versions (store.get key) ∨
      ∃ (version : Version) (keys : List K), version.isAVersion = true ∧ key ∈ keys ∧
        committed request (handle store request).1 = some (version.commitTs, keys) ∧
        ((handle store request).2.get key).writes = insertVersion version (store.get key).writes := by
  by_cases unchanged : (handle store request).2.get key = store.get key
  · exact .inl (by rw [unchanged])
  rcases handle_moves (sound key).filed distinct with
    same | ⟨startTs, keys, _, _, released⟩ | ⟨change, moved, causes⟩
  · exact absurd same unchanged
  · rw [released]
    exact .inl (congrArg (List.filter Version.isAVersion) (release_effect startTs).1)
  generalize isAfter : (handle store request).2.get key = after at moved unchanged ⊢
  cases moved with
  | placed _ _ _ _ writes _ => exact .inl (congrArg (List.filter Version.isAVersion) writes)
  | extended _ => exact .inl rfl
  | marked _ _ writes _ =>
    left
    unfold versions
    rw [writes]
    exact filter_insertVersion_other rfl ((sound key).apart_marker (timely.accounts causes))
  | @committed lock commitTs held =>
    by_cases isVersion : (lock.committedAt commitTs).isAVersion = true
    case neg =>
      exact .inl (filter_insertVersion_other (Bool.eq_false_iff.mpr isVersion)
        ((sound key).apart_commit held (timely.accounts causes)))
    have owes : ∃ keys, key ∈ keys ∧
        committed request (handle store request).1 = some (commitTs, keys) := by
      cases request with
      | prewrite | releaseLock | heartbeat => cases causes
      | rollback => cases causes.2
      | commit startTs commitTs keys =>
        obtain ⟨isKey, isChange⟩ := causes
        cases isChange
        refine ⟨keys, isKey, ?_⟩
        cases decided : decideAll (commitOne store lock.startTs commitTs) keys with
        | error refused =>
          apply absurd (isAfter.symm.trans _) unchanged
          rw [handle, commit, decided]
        | ok staged =>
          rw [handle, commit, decided]
          rfl
      | resolveLock startTs commitTs keys =>
        obtain ⟨isKey, isChange⟩ := causes
        split at isChange
        case isTrue => cases isChange
        case isFalse committing =>
          cases isChange
          exact ⟨keys, isKey, if_neg committing⟩
    obtain ⟨keys, isKey, owes⟩ := owes
    exact .inr ⟨lock.committedAt commitTs, keys, isVersion, isKey, owes, rfl⟩

theorem applied_mirror (mirrors : Mirrors oracle learner) (paid : learner.owed = none)
    (distinct : request.Distinct) (timely : oracle.Timely ts request)
    (inRange : learner.range key = true) : (learner.step (.applied request)).settledCopy key =
      versions ((handle learner.store request).2.get key) := by
  have copied : learner.copy key = versions (learner.store.get key) := by
    rw [← mirrors.mirror key inRange, Learner.settledCopy_paid paid]
  have steps : learner.step (.applied request) =
      { learner with
        store := (handle learner.store request).2
        owed := committed request (handle learner.store request).1
        applied := learner.applied + 1 } := by
    rw [Learner.step, paid]
    rfl
  have after := (handle_effect (fun key => (mirrors.sound key).filed) distinct timely key).sound
    (mirrors.sound key)
  rcases handle_commits mirrors.sound distinct timely key with
    same | ⟨version, keys, isVersion, isKey, owes, writes⟩
  · rw [steps, same]
    cases owes : committed request (handle learner.store request).1 with
    | none =>
      rw [Learner.settledCopy_paid rfl]
      exact copied
    | some owed =>
      obtain ⟨commitTs, keys⟩ := owed
      rw [Learner.settledCopy_owed rfl]
      dsimp only
      rw [copied, ← same, feedKey_of_mirror after, ite_self]
  · rw [steps, owes, Learner.settledCopy_owed rfl, if_pos isKey]
    dsimp only
    unfold feedKey versions Cell.seekWrite
    rw [writes, seek_insertVersion, filter_insertVersion (mirrors.sound key).newest isVersion]
    dsimp only
    rw [if_pos ⟨rfl, isVersion⟩, copied]
    rfl

theorem Mirrors.step (mirrors : Mirrors oracle learner) {event : Event K}
    (allowed : Allowed oracle fragment learner event) : Mirrors oracle (learner.step event) := by
  cases event with
  | applied request =>
    cases owes : learner.owed with
    | some owed =>
      rw [Learner.step, owes]
      exact mirrors
    | none =>
      have effect := handle_effect (fun key => (mirrors.sound key).filed) allowed.1 allowed.2
      have steps : (learner.step (.applied request)).store = (handle learner.store request).2 := by
        rw [Learner.step, owes]
        rfl
      refine ⟨fun key => ?_, fun key inRange => ?_⟩
      · rw [steps]
        exact (effect key).sound (mirrors.sound key)
      rw [steps]
      apply applied_mirror mirrors owes allowed.1 allowed.2
      rw [Learner.step, owes] at inRange
      exact inRange
  | fed => exact ⟨mirrors.sound, mirrors.mirror⟩
  | rebuilt =>
    refine ⟨mirrors.sound, fun key inRange => ?_⟩
    have inRange' : learner.range key = true := inRange
    have copied : (learner.step .rebuilt).copy key = versions (learner.store.get key) :=
      if_pos inRange'
    cases owes : learner.owed with
    | none =>
      rw [@Learner.settledCopy_paid K _ (learner.step .rebuilt) owes]
      exact copied
    | some owed =>
      obtain ⟨commitTs, keys⟩ := owed
      rw [@Learner.settledCopy_owed K _ (learner.step .rebuilt) _ _ owes, copied]
      split
      · exact feedKey_of_mirror (mirrors.sound key) commitTs
      · rfl
  | split keeps =>
    refine ⟨mirrors.sound, fun key inRange => mirrors.mirror key ?_⟩
    exact (Bool.and_eq_true_iff.mp inRange).1
  | elsewhere request =>
    obtain ⟨distinct, timely, apart, _⟩ := allowed
    have effect := handle_effect (fun key => (mirrors.sound key).filed) distinct timely
    refine ⟨fun key => (effect key).sound (mirrors.sound key), fun key inRange => ?_⟩
    have same := apart key inRange
    have held := mirrors.mirror key inRange
    change _ = versions ((handle learner.store request).2.get key)
    rw [same, ← held]
    unfold Learner.settledCopy feedKey Learner.step
    dsimp only
    rw [same]

variable {events : List (Event K)} {event : Event K}

section

variable (mirrors : Mirrors oracle learner)
include mirrors

theorem Mirrors.after (run : Run oracle fragment learner events) :
    Mirrors oracle (learner.after events) := by
  induction events generalizing learner with
  | nil => exact mirrors
  | cons event rest ih => exact ih (mirrors.step run.1) run.2

omit mirrors in
theorem applied_le_step (learner : Learner K) (event : Event K) :
    learner.applied ≤ (learner.step event).applied := by
  cases event with
  | applied request =>
    rw [Learner.step]
    split
    · exact le_rfl
    · exact Nat.le_succ _
  | fed | rebuilt | split | elsewhere => exact le_rfl

omit mirrors in
theorem applied_le_after (learner : Learner K) (events : List (Event K)) :
    learner.applied ≤ (learner.after events).applied := by
  induction events generalizing learner with
  | nil => exact le_rfl
  | cons event rest ih => exact (applied_le_step learner event).trans (ih _)

theorem step_effect (caught : fragment.index ≤ learner.applied)
    (allowed : Allowed oracle fragment learner event) (asked : fragment.range key = true) :
    Effect oracle fragment.ts (learner.store.get key) ((learner.step event).store.get key) := by
  have filed : ∀ key, (learner.store.get key).Filed := fun key => (mirrors.sound key).filed
  cases event with
  | applied request =>
    cases owes : learner.owed with
    | some owed =>
      rw [Learner.step, owes]
      exact .unlocked rfl (.inr rfl)
    | none =>
      rw [Learner.step, owes]
      have timely := allowed.2
      rw [if_neg (not_lt.mpr caught)] at timely
      exact handle_effect filed allowed.1 timely key
  | elsewhere request =>
    rcases allowed.2.2.2 with apart | timely
    · have same : (learner.step (.elsewhere request)).store.get key = learner.store.get key :=
        apart key asked
      rw [same]
      exact .unlocked rfl (.inr rfl)
    · exact handle_effect filed allowed.1 timely key
  | fed | rebuilt | split => exact .unlocked rfl (.inr rfl)

omit mirrors in
theorem after_range (unsplit : ∀ event ∈ events, event.splits = false) :
    (learner.after events).range = learner.range := by
  induction events generalizing learner with
  | nil => rfl
  | cons event rest ih =>
    have later := @ih (learner.step event) fun event mem => unsplit event (.tail _ mem)
    refine later.trans ?_
    cases event with
    | split keeps => exact (Bool.false_ne_true (unsplit _ (.head _)).symm).elim
    | applied request =>
      rw [Learner.step]
      split <;> rfl
    | fed | rebuilt | elsewhere => rfl

/-- What is seen at `ts` of a key whose locks are resolved stays, whatever is applied to a learner
that has caught up. -/
theorem after_seen (caught : fragment.index ≤ learner.applied)
    (asked : fragment.range key = true)
    (resolved : Resolved oracle fragment.ts (learner.store.get key))
    (run : Run oracle fragment learner events) :
    newestVersionAt ((learner.after events).store.get key) fragment.ts =
      newestVersionAt (learner.store.get key) fragment.ts := by
  induction events generalizing learner with
  | nil => rfl
  | cons event rest ih =>
    have effect := step_effect mirrors caught run.1 asked
    have later := ih (mirrors.step run.1) (caught.trans (applied_le_step learner event))
      (effect.resolved resolved) run.2
    exact later.trans (effect.seen_of_resolved (mirrors.sound key) resolved)

/-! ## The answer -/

theorem quiet_seen (allowed : Allowed oracle fragment learner event)
    (quiet : event.quiet ts = true) (inRange : learner.range key = true) :
    newestVersionAt ((learner.step event).store.get key) ts =
      newestVersionAt (learner.store.get key) ts := by
  cases event with
  | fed | rebuilt | split => rfl
  | elsewhere request => exact congrArg (newestVersionAt · ts) (allowed.2.2.1 key inRange)
  | applied request =>
    cases owes : learner.owed with
    | some owed => rw [Learner.step, owes]; rfl
    | none =>
      rw [Learner.step, owes, newestVersionAt_eq, newestVersionAt_eq]
      rcases handle_commits mirrors.sound allowed.1 allowed.2 key with
        same | ⟨version, keys, isVersion, isKey, owed, writes⟩
      · exact congrArg (List.find? _) same
      have above := quiet_above quiet owed
      have inserted : versions ((handle learner.store request).2.get key) =
          insertVersion version (versions (learner.store.get key)) := by
        unfold versions
        rw [writes, filter_insertVersion (mirrors.sound key).newest isVersion]
      exact (congrArg (List.find? _) inserted).trans (find_insert_above above)

theorem quiet_after_seen (inRange : learner.range key = true)
    (unsplit : ∀ event ∈ events, event.splits = false)
    (quiet : ∀ event ∈ events, event.quiet ts = true) (run : Run oracle fragment learner events) :
    newestVersionAt ((learner.after events).store.get key) ts =
      newestVersionAt (learner.store.get key) ts := by
  induction events generalizing learner with
  | nil => rfl
  | cons event rest ih =>
    have kept : (learner.step event).range = learner.range :=
      @after_range K _ learner [event] fun each mem => by
        rw [mem_singleton.mp mem]
        exact unsplit event (.head _)
    have later := ih (mirrors.step run.1) (by rw [kept]; exact inRange)
      (fun each mem => unsplit each (.tail _ mem))
      (fun each mem => quiet each (.tail _ mem)) run.2
    exact later.trans (quiet_seen mirrors run.1 (quiet event (.head _)) inRange)

end

theorem mem_of_lock (held : (store.get key).lock = some lock) : (key, store.get key) ∈ store := by
  induction store with
  | nil => cases held
  | cons entry rest ih =>
    obtain ⟨first, cell⟩ := entry
    unfold Txn.Store.get at held ⊢
    split at held
    case isTrue same =>
      rw [if_pos same, same]
      exact .head _
    case isFalse different =>
      rw [if_neg different]
      exact .tail _ (ih held)

theorem resolved_of_scan {range : K → Bool} (clear : unresolvedLock store ts range = false)
    (inRange : range key = true) : Resolved oracle ts (store.get key) := by
  intro lock held isWrite commitTs owned
  by_contra early
  have before := oracle.before owned
  have found : unresolvedLock store ts range = true := by
    apply any_eq_true.mpr
    refine ⟨(key, store.get key), mem_of_lock held, ?_⟩
    simp only [inRange, held, Bool.true_and, Bool.and_eq_true, decide_eq_true_eq, bne_iff_ne]
    exact ⟨by omega, isWrite⟩
  rw [clear] at found
  cases found

/-- An answered fragment is computed from the versions at its timestamp, whatever is applied
afterwards, when its round is answered with an index as high as the leader had committed when it
came, the region is not split under it, the runs are taken with every entry fed, and nothing commits
at or below the timestamp between taking the runs and looking for locks. -/
theorem answered_fragment_exact (oracle : Oracle) (ts index minApplyIndex : Nat)
    {learner : Learner K} (mirrors : Mirrors oracle learner)
    {waiting opening between later : List (Event K)}
    (run : Run oracle ⟨ts, index, learner.range⟩ learner
      (waiting ++ (opening ++ (between ++ later))))
    (unsplit : ∀ event ∈ waiting ++ (opening ++ between), event.splits = false)
    (fed : (learner.after (waiting ++ opening)).owed = none)
    (quiet : ∀ event ∈ between, event.quiet ts = true) {answer : K → Option Version}
    (answered : serveFragment ts minApplyIndex (.answered index) learner waiting opening between =
      some answer) :
    ∀ key, learner.range key = true →
      answer key = newestVersionAt
        ((learner.after (waiting ++ (opening ++ (between ++ later)))).store.get key) ts := by
  intro key inRange
  have joined (first second : List (Event K)) :
      learner.after (first ++ second) = (learner.after first).after second := foldl_append
  rw [← append_assoc] at run unsplit ⊢
  obtain ⟨runWaiting, runRest⟩ := run_append.mp run
  obtain ⟨runBetween, runLater⟩ := run_append.mp runRest
  have unsplitWaiting : ∀ event ∈ waiting ++ opening, event.splits = false :=
    fun event member => unsplit event (mem_append_left _ member)
  have unsplitBetween : ∀ event ∈ between, event.splits = false := fun event member =>
    unsplit event (mem_append_right _ member)
  have taken := mirrors.after runWaiting
  have scanned := taken.after runBetween
  have takenRange : (learner.after (waiting ++ opening)).range key = true := by
    rw [after_range unsplitWaiting]
    exact inRange
  unfold serveFragment at answered
  dsimp only at answered
  split at answered
  case isTrue => cases answered
  case isFalse passed =>
    rw [← joined] at answered
    split at answered
    case isTrue => cases answered
    case isFalse clear =>
      -- The round has waited for its index, and what is applied is never taken back.
      have reached : index ≤ (learner.after waiting).applied := by
        simp only [catchUp, Bool.not_eq_true', Bool.not_eq_false, Bool.and_eq_true,
          decide_eq_true_eq] at passed
        exact passed.1
      have caught : index ≤ ((learner.after (waiting ++ opening)).after between).applied := by
        rw [joined]
        exact reached.trans ((applied_le_after _ _).trans (applied_le_after _ _))
      have resolved : Resolved oracle ts
          (((learner.after (waiting ++ opening)).after between).store.get key) :=
        resolved_of_scan (Bool.eq_false_iff.mpr clear) inRange
      have stays := after_seen scanned caught inRange resolved runLater
      have same := quiet_after_seen taken takenRange unsplitBetween quiet runBetween
      have held : (learner.after (waiting ++ opening)).copy key =
          versions ((learner.after (waiting ++ opening)).store.get key) := by
        rw [← taken.mirror key takenRange, Learner.settledCopy_paid fed]
      have whole : learner.after (waiting ++ opening ++ (between ++ later)) =
          ((learner.after (waiting ++ opening)).after between).after later := by
        rw [joined]
        exact foldl_append
      rw [whole, stays, same, newestVersionAt_eq, ← held, ← Option.some.inj answered]
      exact if_pos inRange

end Runs

/-! ## A lock that is resolved in between -/

section Hidden

def fiveAtSix : Oracle where
  owner commitTs := if commitTs = 6 then some 5 else none
  before := by
    intro commitTs startTs owned
    split at owned
    · cases owned
      omega
    · cases owned

/-- A key that transaction 5 locked, which is a secondary of a primary elsewhere. -/
def lockedCell : Cell Nat := ⟨some ⟨.put, 5, 0, 0, some []⟩, [], []⟩

def lockedLearner : Learner Nat := ⟨fun key => key == 1, [(1, lockedCell)], fun _ => [], none, 3⟩

def resolution : Event Nat := .applied (.resolveLock 5 6 [1])

theorem mirrors_of_unwritten {learner : Learner Nat} (paid : learner.owed = none)
    (uncopied : ∀ key, learner.copy key = [])
    (nothing : ∀ key, (learner.store.get key).writes = []) : Mirrors fiveAtSix learner := by
  refine ⟨fun key => ⟨nothing key ▸ .nil, ?_, ?_, ?_⟩, ?_⟩
  · simp [Cell.Filed, nothing]
  · simp [nothing]
  · simp [nothing]
  intro key _
  rw [Learner.settledCopy_paid paid, uncopied, versions, nothing]
  rfl

theorem lockedLearner_mirrors : Mirrors fiveAtSix lockedLearner := by
  refine mirrors_of_unwritten rfl (fun _ => rfl) fun key => ?_
  simp only [lockedLearner, Txn.Store.get]
  split <;> rfl

/-- A learner that has applied nothing, and the two entries it lags behind. -/
def freshLearner : Learner Nat := ⟨fun key => key == 1, [], fun _ => [], none, 0⟩

def backlog : List (Event Nat) :=
  [.applied (.prewrite 5 1 0 [.put 1 [] none]), .applied (.commit 5 6 [1]), .fed]

theorem freshLearner_mirrors : Mirrors fiveAtSix freshLearner :=
  mirrors_of_unwritten rfl (fun _ => rfl) fun _ => rfl

theorem backlog_run :
    Run fiveAtSix ⟨10, 2, freshLearner.range⟩ freshLearner (backlog ++ ([] ++ ([] ++ []))) :=
  ⟨⟨nodup_singleton _, fun _ owned => (Nat.zero_le 5).trans_lt (fiveAtSix.before owned)⟩,
    ⟨nodup_singleton 1, rfl⟩, trivial, trivial⟩

/-- The learner catches up with a transaction that committed below the fragment's timestamp. -/
theorem lagging_learner_answers :
    ∃ answer, serveFragment 10 0 (.answered 2) freshLearner backlog [] [] = some answer ∧
      answer 1 = some ⟨6, ⟨.put, 5, some []⟩⟩ ∧
      answer 1 = newestVersionAt
        ((freshLearner.after (backlog ++ ([] ++ ([] ++ [])))).store.get 1) 10 :=
  ⟨_, rfl, rfl, answered_fragment_exact fiveAtSix 10 2 0 freshLearner_mirrors backlog_run
    (by decide) rfl (fun _ member => absurd member not_mem_nil) rfl 1 rfl⟩

/-- Resolved after the runs were taken and before the locks are looked for, the committed version
is neither in the runs nor behind a lock, and the answer is without it. -/
theorem resolved_lock_missed :
    Mirrors fiveAtSix lockedLearner ∧
      Run fiveAtSix ⟨10, 3, lockedLearner.range⟩ lockedLearner [resolution, .fed] ∧
      (serveFragment 10 0 (.answered 3) lockedLearner [] [] [resolution, .fed]).map (· 1) =
        some none ∧
      newestVersionAt ((lockedLearner.after [resolution, .fed]).store.get 1) 10 =
        some ⟨6, ⟨.put, 5, some []⟩⟩ := by
  exact ⟨lockedLearner_mirrors, ⟨⟨nodup_singleton 1, rfl⟩, trivial, trivial⟩, by decide, by decide⟩

end Hidden

end Esker.Store.Fragments
