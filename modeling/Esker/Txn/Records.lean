import Mathlib
import Esker.Consensus.Types

/-!
Contract: what the store keeps for a user key, and the questions the transaction
protocol asks of it (`esker-txn/src/codec.rs`, `esker-txn/src/snapshot.rs` and the engine
snapshot of `esker-store/src/txnkv.rs`).

Owns: lock and write records, `Cell`, the three column families at one user key, `Store`,
the cells by user key, and the snapshot queries.
-/

namespace Esker.Txn

open Esker.Consensus (Bytes saturatingAdd)
open List

inductive Kind where
  | put
  | delete
  | lock
  | rollback
deriving DecidableEq, Repr

/-- Whether a record of this kind says what the key holds. -/
def Kind.isAVersion : Kind → Bool
  | .put | .delete => true
  | .lock | .rollback => false

/-- A record of the `lock` family. -/
structure LockRecord (K : Type) where
  kind : Kind
  startTs : Nat
  ttlMs : Nat
  primary : K
  shortValue : Option Bytes
deriving DecidableEq, Repr

/-- A record of the `write` family. -/
structure WriteRecord where
  kind : Kind
  startTs : Nat
  shortValue : Option Bytes
deriving DecidableEq, Repr

def WriteRecord.rollback (startTs : Nat) : WriteRecord := ⟨.rollback, startTs, none⟩

structure Version where
  commitTs : Nat
  record : WriteRecord
deriving DecidableEq, Repr

def Version.isAVersion (version : Version) : Bool := version.record.kind.isAVersion

structure Cell (K : Type) where
  lock : Option (LockRecord K)
  /-- The `write` family, newest first. -/
  writes : List Version
  /-- The `default` family: values by the start timestamp of their writer. -/
  values : List (Nat × Bytes)
deriving DecidableEq, Repr

inductive Mutation (K : Type) where
  | putLock (lock : LockRecord K)
  | deleteLock
  | putWrite (version : Version)
  | putValue (startTs : Nat) (value : Bytes)
  | deleteValue (startTs : Nat)
deriving DecidableEq, Repr

/-- Files a version where its timestamp sorts, over whatever was filed there. -/
def insertVersion (version : Version) : List Version → List Version
  | [] => [version]
  | newest :: older =>
    if newest.commitTs = version.commitTs then version :: older
    else if newest.commitTs < version.commitTs then version :: newest :: older
    else newest :: insertVersion version older

namespace Cell

variable {K : Type}

def empty : Cell K := ⟨none, [], []⟩

variable (cell : Cell K)

def apply : Mutation K → Cell K
  | .putLock lock => { cell with lock := some lock }
  | .deleteLock => { cell with lock := none }
  | .putWrite version => { cell with writes := insertVersion version cell.writes }
  | .putValue startTs value =>
    { cell with values := (startTs, value) :: cell.values.filter (·.1 ≠ startTs) }
  | .deleteValue startTs => { cell with values := cell.values.filter (·.1 ≠ startTs) }

def applyAll (mutations : List (Mutation K)) : Cell K :=
  mutations.foldl apply cell

/-! ## The snapshot queries -/

/-- The newest record at or below `ts`. -/
def seekWrite (ts : Nat) : Option Version :=
  cell.writes.find? fun version => version.commitTs ≤ ts

/-- The newest record above `ts` that changed the key. -/
def newestWriteAfter (ts : Nat) : Option Version :=
  cell.writes.find? fun version =>
    saturatingAdd ts 1 ≤ version.commitTs && version.isAVersion

variable (startTs : Nat)

def writeOfTxn : Option Version :=
  cell.writes.find? fun version =>
    startTs ≤ version.commitTs && version.record.startTs = startTs

/-- The value a transaction's `default` entry holds. -/
def getValue : Option Bytes := cell.values.lookup startTs

def lockOf : Option (LockRecord K) :=
  cell.lock.filter fun lock => lock.startTs = startTs

end Cell

/-! ## The cells of a region -/

/-- Every user key something was written to, in key order. -/
abbrev Store (K : Type) := List (K × Cell K)

namespace Store

variable {K : Type} [LinearOrder K]

def get : Store K → K → Cell K
  | [], _ => .empty
  | (key, cell) :: rest, wanted => if key = wanted then cell else get rest wanted

def set : Store K → K → Cell K → Store K
  | [], key, cell => [(key, cell)]
  | (present, old) :: rest, key, cell =>
    if present = key then (key, cell) :: rest
    else if key < present then (key, cell) :: (present, old) :: rest
    else (present, old) :: set rest key cell

variable (store : Store K)

def stage (staged : List (K × Mutation K)) : Store K :=
  staged.foldl (fun store entry => store.set entry.1 ((store.get entry.1).apply entry.2)) store

/-- The first record above `ts` in the range that is not a rollback marker. -/
def newestWriteInRange (first last : K) (ts : Nat) : Option Version :=
  (store.filter fun entry => first ≤ entry.1 && entry.1 < last).findSome? fun entry =>
    entry.2.writes.find? fun version => ts < version.commitTs && version.record.kind ≠ .rollback

/-- The first lock in the range that another transaction holds. -/
def foreignLockInRange (first last : K) (mine : Nat) : Option (K × LockRecord K) :=
  (store.filter fun entry => first ≤ entry.1 && entry.1 < last).findSome? fun entry =>
    (entry.2.lock.filter fun lock => lock.startTs ≠ mine).map fun lock => (entry.1, lock)

end Store

/-! ## What the updates change -/

section Updates

variable {K : Type} {version other : Version} {writes : List Version}

theorem mem_insertVersion (mem : other ∈ insertVersion version writes) :
    other = version ∨ other ∈ writes := by
  induction writes with
  | nil => exact .inl (mem_singleton.mp mem)
  | cons newest older ih =>
    unfold insertVersion at mem
    split at mem
    · rcases mem_cons.mp mem with same | older
      · exact .inl same
      · exact .inr (.tail _ older)
    split at mem
    · exact mem_cons.mp mem
    rcases mem_cons.mp mem with same | below
    · exact .inr (same ▸ .head _)
    · exact (ih below).imp_right (.tail _)

theorem insertVersion_ordered
    (ordered : writes.Pairwise fun newer older => older.commitTs < newer.commitTs) :
    (insertVersion version writes).Pairwise fun newer older =>
      older.commitTs < newer.commitTs := by
  induction writes with
  | nil => exact pairwise_singleton _ _
  | cons newest older ih =>
    obtain ⟨above, tail⟩ := pairwise_cons.mp ordered
    unfold insertVersion
    split
    · rename_i same
      exact pairwise_cons.mpr ⟨fun other mem => same ▸ above other mem, tail⟩
    split
    · rename_i different newer
      refine pairwise_cons.mpr ⟨fun other mem => ?_, ordered⟩
      rcases mem_cons.mp mem with rfl | later
      · exact newer
      · exact (above other later).trans newer
    · rename_i different notNewer
      refine pairwise_cons.mpr ⟨fun other mem => ?_, ih tail⟩
      rcases mem_insertVersion mem with rfl | later
      · omega
      · exact above other later

theorem insertVersion_self (version : Version) (writes : List Version) :
    version ∈ insertVersion version writes := by
  induction writes with
  | nil => exact .head _
  | cons newest older ih =>
    unfold insertVersion
    split
    · exact .head _
    split
    · exact .head _
    · exact .tail _ ih

theorem insertVersion_keeps (mem : other ∈ writes) (elsewhere : other.commitTs ≠ version.commitTs) :
    other ∈ insertVersion version writes := by
  induction writes with
  | nil => cases mem
  | cons newest older ih =>
    unfold insertVersion
    split
    · rename_i same
      rcases mem_cons.mp mem with rfl | below
      · exact absurd same elsewhere
      · exact .tail _ below
    · split
      · exact .tail _ mem
      rcases mem_cons.mp mem with rfl | below
      · exact .head _
      · exact .tail _ (ih below)

theorem find_insertVersion {wanted : Version → Bool} (passed : wanted version = false)
    (unwanted : ∀ other ∈ writes, other.commitTs = version.commitTs → wanted other = false) :
    (insertVersion version writes).find? wanted = writes.find? wanted := by
  induction writes with
  | nil => simp [insertVersion, passed]
  | cons newest older ih =>
    have later := ih fun other mem => unwanted other (.tail _ mem)
    unfold insertVersion
    split
    · rename_i same
      simp [passed, unwanted newest (.head _) same]
    split
    · simp [passed]
    · simp only [find?_cons, later]

variable [LinearOrder K]

@[simp] theorem Store.get_set (store : Store K) (key wanted : K) (cell : Cell K) :
    (store.set key cell).get wanted = if key = wanted then cell else store.get wanted := by
  induction store with
  | nil => rfl
  | cons entry rest ih =>
    obtain ⟨present, old⟩ := entry
    unfold Store.set
    split
    · rename_i same
      subst same
      simp only [Store.get]
      split <;> rfl
    · split
      · simp only [Store.get]
      simp only [Store.get, ih]
      split
      · rename_i distinct _ same
        rw [if_neg fun other => distinct (same.trans other.symm)]
      · rfl

theorem Store.get_stage (store : Store K) (staged : List (K × Mutation K)) (key : K) :
    (store.stage staged).get key =
      (store.get key).applyAll ((staged.filter (·.1 = key)).map Prod.snd) := by
  induction staged generalizing store with
  | nil => rfl
  | cons entry rest ih =>
    have unfolded : store.stage (entry :: rest) =
        (store.set entry.1 ((store.get entry.1).apply entry.2)).stage rest := rfl
    rw [unfolded, ih, Store.get_set]
    by_cases same : entry.1 = key
    · subst same
      simp [Cell.applyAll]
    · simp [same]

theorem Store.get_stage_one (store : Store K) (key wanted : K) (mutation : Mutation K) :
    (store.stage [(key, mutation)]).get wanted =
      if key = wanted then (store.get key).apply mutation else store.get wanted :=
  Store.get_set ..

section Items

variable {ι : Type} {items : List ι} {staged : ι → List (K × Mutation K)} {key : K}

theorem Store.get_stage_untouched {store : Store K}
    (untouched : ∀ item ∈ items, ∀ entry ∈ staged item, entry.1 ≠ key) :
    (store.stage (items.flatMap staged)).get key = store.get key := by
  have none : (items.flatMap staged).filter (·.1 = key) = [] := by
    refine filter_eq_nil_iff.mpr fun entry mem => ?_
    obtain ⟨item, present, staging⟩ := mem_flatMap.mp mem
    simpa using untouched item present entry staging
  rw [Store.get_stage, none]
  rfl

theorem Store.get_stage_item (target : ι → Option K) (distinct : (items.filterMap target).Nodup)
    (own : ∀ item ∈ items, ∀ entry ∈ staged item, target item = some entry.1) {item : ι}
    (mem : item ∈ items) (targets : target item = some key) (store : Store K) :
    (store.stage (items.flatMap staged)).get key =
      (store.get key).applyAll ((staged item).map Prod.snd) := by
  have selected : ((items.flatMap staged).filter (·.1 = key)) = staged item := by
    induction items with
    | nil => cases mem
    | cons first rest ih =>
      have keep : (staged item).filter (·.1 = key) = staged item :=
        filter_eq_self.mpr fun entry staging => by
          have same := (own item mem entry staging).symm.trans targets
          simpa using same
      have drop : ∀ other, (∀ entry ∈ staged other, target other = some entry.1) →
          target other ≠ some key → (staged other).filter (·.1 = key) = [] :=
        fun other own different => filter_eq_nil_iff.mpr fun entry staging => by
          simpa using fun same : entry.1 = key =>
            different ((own entry staging).trans (congrArg some same))
      have ownRest : ∀ item ∈ rest, ∀ entry ∈ staged item, target item = some entry.1 :=
        fun item present => own item (.tail _ present)
      rw [flatMap_cons, filter_append]
      rcases mem_cons.mp mem with rfl | later
      · have elsewhere : (rest.flatMap staged).filter (·.1 = key) = [] := by
          refine filter_eq_nil_iff.mpr fun entry staging => ?_
          obtain ⟨other, present, staging⟩ := mem_flatMap.mp staging
          rw [filterMap_cons_some targets, nodup_cons] at distinct
          have different : entry.1 ≠ key := fun same => distinct.1 (mem_filterMap.mpr
            ⟨other, present, (ownRest other present entry staging).trans (congrArg some same)⟩)
          simpa using different
        rw [keep, elsewhere, append_nil]
      · have distinctRest : (rest.filterMap target).Nodup := by
          cases found : target first with
          | none => rwa [filterMap_cons_none found] at distinct
          | some _ =>
            rw [filterMap_cons_some found] at distinct
            exact (nodup_cons.mp distinct).2
        have different : target first ≠ some key := fun same => by
          rw [filterMap_cons_some same, nodup_cons] at distinct
          exact distinct.1 (mem_filterMap.mpr ⟨item, later, targets⟩)
        rw [drop first (own first (.head _)) different, nil_append]
        exact ih distinctRest ownRest later
  rw [Store.get_stage, selected]

end Items

end Updates

end Esker.Txn
