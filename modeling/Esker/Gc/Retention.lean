import Esker.Gc.Collector

/-!
Contract: how far retention lets the collector reach, and what it takes from the `default` family
(`RetentionPolicy`, `collect_spilled_values`, `starts_named_by_write` and `locked` of
`esker-store/src/gc.rs`).

Owns: the comparison of two windows, the pass over spilled values with the facts it keeps for the
key it is at, and reads before and after it.

Engine keys are taken as split, and the records of a user key are its part of the `write` family.

Does not own: when a pass runs, and the compaction of the `write` family.
-/

namespace Esker.Gc

open Esker.Txn (WriteRecord LockRecord ReadOutcome TxnError Kind)
open Esker.Consensus (Bytes)

/-! ## Windows -/

section Windows

variable {K : Type}

/-- The policy of one default and the windows that tables override it with. -/
def RetentionPolicy.ofOverrides {T : Type} [DecidableEq T] (defaultMs : Nat)
    (overrides : List (T × Nat)) (tableOf : K → Option T) : RetentionPolicy K :=
  ⟨defaultMs, fun key => ((tableOf key).bind fun table => overrides.lookup table).getD defaultMs⟩

/-- With the longer window the key's safepoint is no higher, where collecting nothing is lowest, and
a window of so many milliseconds above the default holds it back by as many. -/
structure RetentionPolicy.CollectsNoMore (longer shorter : RetentionPolicy K) (key : K)
    (published : Nat) : Prop where
  lower : ∀ safepoint, longer.effectiveSafepoint key published = some safepoint →
    ∃ other, shorter.effectiveSafepoint key published = some other ∧ safepoint ≤ other
  back : ∀ safepoint, longer.effectiveSafepoint key published = some safepoint →
    safepoint + (longer.retentionMs key - longer.defaultMs) * 2 ^ tsoLogicalBits ≤ published

/-- The window is the one that keeps everything, its distance from the default survives the shift,
or what is left of it still reaches past the published safepoint. -/
def RetentionPolicy.Shifts (policy : RetentionPolicy K) (key : K) (published : Nat) : Prop :=
  policy.retentionMs key = retentionForever ∨
    policy.retentionMs key - policy.defaultMs < 2 ^ 46 ∨
    published < (policy.retentionMs key - policy.defaultMs) * 2 ^ tsoLogicalBits % 2 ^ 64

variable {longer shorter : RetentionPolicy K} {key : K} {published : Nat}

theorem RetentionPolicy.effectiveSafepoint_eq_some {policy : RetentionPolicy K} {safepoint : Nat}
    (above : policy.defaultMs ≤ policy.retentionMs key) :
    policy.effectiveSafepoint key published = some safepoint ↔
      policy.retentionMs key ≠ retentionForever ∧ safepoint +
        (policy.retentionMs key - policy.defaultMs) * 2 ^ tsoLogicalBits % 2 ^ 64 = published := by
  unfold effectiveSafepoint
  dsimp only
  split_ifs with forever shorter fits
  · exact iff_of_false (by simp) fun applies => applies.1 forever
  · omega
  · rw [Option.some.injEq, and_iff_right forever]
    omega
  · exact iff_of_false (by simp) fun applies => by omega

/-- A longer window collects no more exactly when its distance from the default is not lost in the
shift, or nothing is collected for the key either way. -/
theorem longer_window_collects_no_more (same : longer.defaultMs = shorter.defaultMs)
    (windows : shorter.retentionMs key ≤ longer.retentionMs key)
    (above : longer.defaultMs ≤ longer.retentionMs key) (isU64 : longer.retentionMs key < 2 ^ 64) :
    longer.CollectsNoMore shorter key published ↔ longer.Shifts key published := by
  have bits : tsoLogicalBits = 18 := rfl
  have forever : retentionForever = 2 ^ 64 - 1 := rfl
  constructor
  · intro keeps
    by_contra lost
    simp only [RetentionPolicy.Shifts, not_or, Nat.not_lt] at lost
    obtain ⟨bounded, far, reaches⟩ := lost
    have back := keeps.back _ ((RetentionPolicy.effectiveSafepoint_eq_some above).mpr
      ⟨bounded, Nat.sub_add_cancel reaches⟩)
    rw [bits] at back reaches
    omega
  intro shifts
  -- Where the key is collected at all, the shift has lost nothing.
  have exact {safepoint : Nat}
      (applies : longer.effectiveSafepoint key published = some safepoint) :
      longer.retentionMs key ≠ retentionForever ∧
        longer.retentionMs key - longer.defaultMs < 2 ^ 46 ∧
        safepoint + (longer.retentionMs key - longer.defaultMs) * 2 ^ tsoLogicalBits =
          published := by
    obtain ⟨bounded, total⟩ := (RetentionPolicy.effectiveSafepoint_eq_some above).mp applies
    have near : longer.retentionMs key - longer.defaultMs < 2 ^ 46 := by
      rcases shifts with isForever | near | past
      · exact absurd isForever bounded
      · exact near
      · omega
    rw [Nat.mod_eq_of_lt (by rw [bits]; omega)] at total
    exact ⟨bounded, near, total⟩
  refine ⟨fun safepoint applies => ?_, fun safepoint applies => (exact applies).2.2.le⟩
  obtain ⟨bounded, near, total⟩ := exact applies
  rw [bits] at total
  rcases Nat.lt_or_ge (shorter.retentionMs key) shorter.defaultMs with below | atLeast
  · refine ⟨published, ?_, by omega⟩
    rw [RetentionPolicy.effectiveSafepoint, if_neg (by omega), if_pos below]
  · refine ⟨published - (shorter.retentionMs key - shorter.defaultMs) * 2 ^ 18, ?_, by omega⟩
    refine (RetentionPolicy.effectiveSafepoint_eq_some atLeast).mpr ⟨by omega, ?_⟩
    rw [bits, Nat.mod_eq_of_lt (by omega)]
    omega

def tableSeven (windowMs : Nat) : RetentionPolicy Nat := .ofOverrides 600000 [(7, windowMs)] some

/-- A day's window against an hour's, over a default of ten minutes. -/
theorem day_collects_no_more :
    (tableSeven 86400000).CollectsNoMore (tableSeven 3600000) 7 (2 ^ 58) :=
  (@longer_window_collects_no_more Nat (tableSeven 86400000) (tableSeven 3600000) 7 (2 ^ 58) rfl
    (by decide) (by decide) (by decide)).mpr (.inr (.inl (by decide)))

/-- A window of 2 ^ 46 ms above the default is shifted to nothing: the key is collected up to the
published safepoint, and a window one millisecond above the default keeps more. -/
theorem vast_window_collects_more :
    (tableSeven (600000 + 2 ^ 46)).effectiveSafepoint 7 (2 ^ 58) = some (2 ^ 58) ∧
    (tableSeven 600001).effectiveSafepoint 7 (2 ^ 58) = some (2 ^ 58 - 2 ^ 18) := by
  decide

end Windows

/-! ## Spilled values -/

/-- The three families with their keys split; a record that does not decode is `none`. -/
structure Families (K : Type) where
  /-- Values in key order, by user key and start timestamp; other keys of the family do not split. -/
  default : List (Option (K × Nat) × Bytes)
  /-- Records in key order, so newest first for one user key. -/
  write : List (K × Nat × Option WriteRecord)
  lock : List (K × Option (LockRecord K))

namespace Families

variable {K : Type} [DecidableEq K] (families : Families K) (userKey : K)

def writesOf : List (Nat × Option WriteRecord) :=
  (families.write.filter fun entry => entry.1 = userKey).map Prod.snd

/-- The start timestamps that records of the key name: none at all once one is unreadable. -/
def startsNamedByWrite : List Nat :=
  if (families.writesOf userKey).any (·.2.isNone) then []
  else (families.writesOf userKey).filterMap fun written => written.2.map (·.startTs)

def locked : Bool := (families.lock.lookup userKey).isSome

/-- What the pass knows of a user key: looked up once for the run of its entries. -/
def judge (current : Option (K × List Nat × Bool)) : K × List Nat × Bool :=
  match current with
  | some (key, known) =>
    if key = userKey then (key, known)
    else (userKey, families.startsNamedByWrite userKey, families.locked userKey)
  | none => (userKey, families.startsNamedByWrite userKey, families.locked userKey)

def orphansFrom (families : Families K) (safepoint : Nat) (current : Option (K × List Nat × Bool)) :
    List (Option (K × Nat) × Bytes) → List (K × Nat)
  | [] => []
  | (none, _) :: rest => families.orphansFrom safepoint current rest
  | (some (userKey, startTs), _) :: rest =>
    let judged := families.judge userKey current
    let later := families.orphansFrom safepoint (some judged) rest
    if startTs < safepoint ∧ judged.2.2 = false ∧ startTs ∉ judged.2.1 then
      (userKey, startTs) :: later
    else later

variable (safepoint : Nat)

def orphans : List (K × Nat) :=
  families.orphansFrom safepoint none families.default

/-- How many values went, and what is left. -/
def collectSpilledValues : Nat × Families K :=
  let orphans := families.orphans safepoint
  let kept := families.default.filter fun entry => entry.1.all (· ∉ orphans)
  (orphans.length, { families with default := kept })

/-! ### Reading -/

/-- The first record at or below `ts` that is a version or unreadable. -/
def newestVersionAt (ts : Nat) : Option (Nat × Option WriteRecord) :=
  (families.writesOf userKey).find? fun written =>
    written.1 ≤ ts && written.2.all (·.kind.isAVersion)

def getValue (startTs : Nat) : Option Bytes :=
  (families.default.find? fun entry => entry.1 = some (userKey, startTs)).map Prod.snd

def valueOf (record : WriteRecord) : Except TxnError (ReadOutcome K) :=
  match record.kind with
  | .delete | .rollback | .lock => .ok .notFound
  | .put =>
    match record.shortValue with
    | some value => .ok (.value value)
    | none =>
      match families.getValue userKey record.startTs with
      | some value => .ok (.value value)
      | none => .error (.missingValue record.startTs)

/-- What the records at or below `ts` say; `none` when one that is met does not decode. -/
def readWrites (ts : Nat) : Option (Except TxnError (ReadOutcome K)) :=
  match families.newestVersionAt userKey ts with
  | none => some (.ok .notFound)
  | some (_, none) => none
  | some (_, some record) => some (families.valueOf userKey record)

def read (ts : Nat) : Option (Except TxnError (ReadOutcome K)) :=
  match families.lock.lookup userKey with
  | none => families.readWrites userKey ts
  | some none => none
  | some (some lock) =>
    if lock.startTs ≤ ts ∧ lock.kind ≠ .lock then some (.ok (.locked lock))
    else families.readWrites userKey ts

/-! ### What the pass removes -/

/-- Whether a record, readable or not, could be the one that names the value. -/
def couldName (startTs : Nat) : Option WriteRecord → Prop
  | none => True
  | some record => record.startTs = startTs

/-- Every value the pass removes is old, unlocked and named by nothing, and every value that was
read before it is read after it. -/
structure CollectsSafely (families : Families K) (safepoint : Nat) : Prop where
  unnamed : ∀ userKey startTs, (userKey, startTs) ∈ families.orphans safepoint →
    startTs < safepoint ∧ families.locked userKey = false ∧
      ∀ written ∈ families.writesOf userKey, ¬couldName startTs written.2
  reads : ∀ userKey ts value, families.read userKey ts = some (.ok (.value value)) →
    (families.collectSpilledValues safepoint).2.read userKey ts = some (.ok (.value value))

/-- Every record of an unlocked key with a value below the safepoint decodes. -/
def Readable : Prop :=
  ∀ userKey startTs value, (some (userKey, startTs), value) ∈ families.default →
    startTs < safepoint → families.locked userKey = false →
      ∀ written ∈ families.writesOf userKey, written.2 ≠ none

variable {families : Families K} {safepoint startTs : Nat} {userKey : K}

theorem judge_eq {current : Option (K × List Nat × Bool)}
    (fresh : ∀ known ∈ current, known = families.judge known.1 none) (userKey : K) :
    families.judge userKey current = families.judge userKey none := by
  cases current with
  | none => rfl
  | some known =>
    have held := fresh known rfl
    obtain ⟨key, facts⟩ := known
    simp only [judge]
    split_ifs with same
    · rw [held, same]
      rfl
    · rfl

theorem mem_orphansFrom {current : Option (K × List Nat × Bool)}
    {entries : List (Option (K × Nat) × Bytes)}
    (fresh : ∀ known ∈ current, known = families.judge known.1 none) :
    (userKey, startTs) ∈ families.orphansFrom safepoint current entries ↔
      (∃ value, (some (userKey, startTs), value) ∈ entries) ∧ startTs < safepoint ∧
        families.locked userKey = false ∧ startTs ∉ families.startsNamedByWrite userKey := by
  induction entries generalizing current with
  | nil => simp [orphansFrom]
  | cons entry rest ih =>
    obtain ⟨engineKey, value⟩ := entry
    cases engineKey with
    | none => simp [orphansFrom, ih fresh]
    | some found =>
      obtain ⟨key, start⟩ := found
      have later := @ih (some (families.judge key none)) (by simp [judge])
      simp only [orphansFrom, judge_eq fresh]
      by_cases same : (userKey, startTs) = (key, start)
      · cases same
        split_ifs with goes
        · exact iff_of_true (.head _) ⟨⟨value, .head _⟩, goes⟩
        · rw [later]
          exact iff_of_false (fun kept => goes kept.2) fun kept => goes kept.2
      · split_ifs <;> simp [later, same]

theorem mem_orphans : (userKey, startTs) ∈ families.orphans safepoint ↔
    (∃ value, (some (userKey, startTs), value) ∈ families.default) ∧ startTs < safepoint ∧
      families.locked userKey = false ∧ startTs ∉ families.startsNamedByWrite userKey :=
  mem_orphansFrom (by simp)

theorem mem_startsNamedByWrite (readable : ∀ written ∈ families.writesOf userKey, written.2 ≠ none)
    (names : ∃ written ∈ families.writesOf userKey, couldName startTs written.2) :
    startTs ∈ families.startsNamedByWrite userKey := by
  obtain ⟨written, mem, names⟩ := names
  rw [startsNamedByWrite, if_neg]
  · refine List.mem_filterMap.mpr ⟨written, mem, ?_⟩
    cases isRecord : written.2 with
    | none => exact absurd isRecord (readable written mem)
    | some record =>
      rw [isRecord] at names
      exact congrArg some names
  · simpa using fun commitTs mem => readable (commitTs, none) mem rfl

theorem getValue_collected (kept : (userKey, startTs) ∉ families.orphans safepoint) :
    (families.collectSpilledValues safepoint).2.getValue userKey startTs =
      families.getValue userKey startTs := by
  simp only [collectSpilledValues, getValue, List.find?_filter]
  congr 2
  funext entry
  by_cases same : entry.1 = some (userKey, startTs)
  · simp [same, kept]
  · simp [same]

/-- No record that a read can meet has lost its value. -/
theorem read_collected {ts : Nat}
    (unnamed : ∀ startTs, (userKey, startTs) ∈ families.orphans safepoint →
      ∀ written ∈ families.writesOf userKey, ¬couldName startTs written.2) :
    (families.collectSpilledValues safepoint).2.read userKey ts = families.read userKey ts := by
  have writes : (families.collectSpilledValues safepoint).2.readWrites userKey ts =
      families.readWrites userKey ts := by
    have same : (families.collectSpilledValues safepoint).2.newestVersionAt userKey ts =
        families.newestVersionAt userKey ts := rfl
    unfold readWrites
    rw [same]
    cases found : families.newestVersionAt userKey ts with
    | none => rfl
    | some newest =>
      obtain ⟨commitTs, record⟩ := newest
      cases record with
      | none => rfl
      | some record =>
        have kept : (userKey, record.startTs) ∉ families.orphans safepoint := fun removed =>
          unnamed _ removed _ (List.mem_of_find?_eq_some found) rfl
        simp only [valueOf, getValue_collected kept]
  unfold read
  rw [writes]
  rfl

/-- The pass is safe exactly when it meets no unreadable record. -/
theorem spilled_collection_safe :
    families.CollectsSafely safepoint ↔ families.Readable safepoint := by
  constructor
  · intro safe userKey startTs value stored below unlocked written mem unreadable
    have named : families.startsNamedByWrite userKey = [] :=
      if_pos (List.any_eq_true.mpr ⟨written, mem, by rw [unreadable]; rfl⟩)
    have removed := mem_orphans.mpr ⟨⟨value, stored⟩, below, unlocked, by simp [named]⟩
    have := (safe.unnamed userKey startTs removed).2.2 written mem
    rw [unreadable] at this
    exact this trivial
  intro readable
  have unnamed : ∀ userKey startTs, (userKey, startTs) ∈ families.orphans safepoint →
      startTs < safepoint ∧ families.locked userKey = false ∧
        ∀ written ∈ families.writesOf userKey, ¬couldName startTs written.2 := by
    intro userKey startTs removed
    obtain ⟨⟨value, stored⟩, below, unlocked, unnamed⟩ := mem_orphans.mp removed
    refine ⟨below, unlocked, fun written mem names => unnamed ?_⟩
    exact mem_startsNamedByWrite (readable userKey startTs value stored below unlocked)
      ⟨written, mem, names⟩
  refine ⟨unnamed, fun userKey ts value reads => ?_⟩
  rw [read_collected fun startTs removed => (unnamed userKey startTs removed).2.2]
  exact reads

/-- A committed value and, above it, a record that does not decode. -/
def tornRecord : Families Nat where
  default := [(some (1, 5), [9])]
  write := [(1, 8, none), (1, 6, some ⟨.put, 5, none⟩)]
  lock := []

/-- The value that a read at 7 returned is gone after the pass. -/
theorem torn_record_loses_value : tornRecord.read 1 7 = some (.ok (.value [9])) ∧
      (tornRecord.collectSpilledValues 20).2.read 1 7 = some (.error (.missingValue 5)) := by
  decide

end Families

end Esker.Gc
