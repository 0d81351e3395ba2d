import Esker.Acyclic
import Esker.SortedMap

/-!
Contract: the row locks of one `esker-sql` process and its graph of who waits for whom
(`esker-sql/src/backend/locks.rs`).

Owns: every operation on them, and over all runs: waits end, edges name holders, and a request is a
deadlock exactly when the row's holder waits for the asker.
-/

namespace Esker.Sql

open List SortedMap
open Relation (TransGen ReflTransGen)

inductive Lock where
  | taken
  | held (holderTs leaseMs : Nat)
  | deadlock

/-- A row's holder with its `start_ts`, and for a waiter whom and which row it waits for. -/
structure RowLocks (Key : Type) [LinearOrder Key] where
  locks : SortedMap Key (Nat × Nat)
  waitsFor : SortedMap Nat (Nat × Key)

namespace RowLocks

variable {Key : Type} [LinearOrder Key] (table : RowLocks Key) (waiter : Nat)

/-- The loop of `deadlocks`. -/
def follow : (rounds at_ : Nat) → Bool
  | 0, _ => false
  | rounds + 1, at_ =>
    if at_ = waiter then true
    else match table.waitsFor.lookup at_ with
      | some (next, _) => follow rounds next
      | none => false

def deadlocks (holder : Nat) : Bool :=
  table.follow waiter (table.waitsFor.entries.length + 1) holder

variable (id : Nat) (keys : List Key)

def stopWaiting : RowLocks Key := { table with waitsFor := table.waitsFor.erase id }

def take (key : Key) (startTs : Nat) : Lock × RowLocks Key :=
  match table.locks.lookup key with
  | some (holder, holderTs) =>
    if holder ≠ id then
      if table.deadlocks id holder then (.deadlock, table.stopWaiting id)
      else (.held holderTs (2 ^ 64 - 1),
        { table with waitsFor := table.waitsFor.insert id (holder, key) })
    else (.taken, table.stopWaiting id)
  | none =>
    (.taken, { table with locks := table.locks.insert key (id, startTs) }.stopWaiting id)

/-- One round of `drop`. -/
def dropKey (key : Key) : RowLocks Key :=
  if (table.locks.lookup key).map Prod.fst = some id then
    { locks := table.locks.erase key
      waitsFor := table.waitsFor.retain fun _ (_, on) => on ≠ key }
  else table

def drop : RowLocks Key := keys.foldl (fun table key => table.dropKey id key) table

def release : RowLocks Key :=
  { table with
    waitsFor := (table.waitsFor.erase id).retain fun _ (holder, _) => holder ≠ id }.drop id keys

def giveBack : RowLocks Key := table.drop id keys

inductive Call (Key : Type) where
  | take (id : Nat) (key : Key) (startTs : Nat)
  | stopWaiting (id : Nat)
  | release (id : Nat) (held : List Key)
  | giveBack (id : Nat) (keys : List Key)

def apply : Call Key → RowLocks Key
  | .take id key startTs => (table.take id key startTs).2
  | .stopWaiting id => table.stopWaiting id
  | .release id held => table.release id held
  | .giveBack id keys => table.giveBack id keys

def run (calls : List (Call Key)) : RowLocks Key := calls.foldl apply ⟨.empty, .empty⟩

def Waits (holder : Nat) : Prop := ∃ key, (waiter, holder, key) ∈ table.waitsFor

structure Sound : Prop where
  blocked : ∀ waiter holder key, (waiter, holder, key) ∈ table.waitsFor →
    ∃ startTs, (key, holder, startTs) ∈ table.locks
  acyclic : ∀ id, ¬ TransGen table.Waits id id

variable {table} {other : RowLocks Key} {waiter}

theorem reaches_of_follow {rounds at_ : Nat} (found : table.follow waiter rounds at_ = true) :
    ReflTransGen table.Waits at_ waiter := by
  induction rounds generalizing at_ with
  | zero => simp [follow] at found
  | succ rounds ih =>
    rw [follow] at found
    split at found
    case isTrue same => rw [same]
    split at found
    case h_1 next key edge => exact (ih found).head ⟨key, lookup_eq_some_iff.mp edge⟩
    case h_2 => cases found

variable (sound : table.Sound)
include sound

theorem Sound.induction {motive : Nat → Nat → Prop} (id : Nat)
    (step : ∀ count id, (∀ next, table.Waits id next → ∃ less, count = less + 1 ∧
      motive less next) → motive count id) : motive table.waitsFor.entries.length id := by
  have bounded := acyclic_induction sound.acyclic step (table.waitsFor.entries.map Prod.fst) id
    fun source target _ ⟨key, edge⟩ => mem_map_of_mem edge
  rwa [length_map] at bounded

theorem Sound.exists_running (id : Nat) :
    ∃ last, ReflTransGen table.Waits id last ∧ ∀ next, ¬ table.Waits last next := by
  refine sound.induction (motive := fun _ id =>
    ∃ last, ReflTransGen table.Waits id last ∧ ∀ next, ¬ table.Waits last next) id ?_
  intro _ id ih
  by_cases waits : ∃ next, table.Waits id next
  · obtain ⟨next, edge⟩ := waits
    obtain ⟨_, _, last, path, running⟩ := ih next edge
    exact ⟨last, path.head edge, running⟩
  · exact ⟨id, .refl, not_exists.mp waits⟩

theorem Sound.deadlocks_iff (holder : Nat) :
    table.deadlocks waiter holder = true ↔ ReflTransGen table.Waits holder waiter := by
  refine ⟨reaches_of_follow, sound.induction (motive := fun count at_ =>
    ReflTransGen table.Waits at_ waiter → table.follow waiter (count + 1) at_ = true) holder ?_⟩
  intro count at_ ih reaches
  rcases reaches.cases_head with same | ⟨next, ⟨key, edge⟩, rest⟩
  · simp [follow, same]
  · obtain ⟨less, rfl, found⟩ := ih next ⟨key, edge⟩
    rw [follow, lookup_eq_some_iff.mpr edge]
    simp [found rest]

/-- Fewer edges are sound while the holds they name are still there. -/
theorem Sound.fewer (kept : ∀ waiter holder key, (waiter, holder, key) ∈ other.waitsFor →
      (waiter, holder, key) ∈ table.waitsFor ∧
        ∀ startTs, (key, holder, startTs) ∈ table.locks → (key, holder, startTs) ∈ other.locks) :
    other.Sound where
  blocked waiter holder key mem :=
    (sound.blocked waiter holder key (kept _ _ _ mem).1).imp (kept _ _ _ mem).2
  acyclic id circle := by
    refine sound.acyclic id (TransGen.mono ?_ id id circle)
    rintro waiter holder ⟨key, mem⟩
    exact ⟨key, (kept _ _ _ mem).1⟩

theorem Sound.stopWaiting : (table.stopWaiting id).Sound :=
  sound.fewer fun _ _ _ mem => ⟨(mem_erase.mp mem).2, fun _ held => held⟩

theorem Sound.drop : (table.drop id keys).Sound := by
  induction keys generalizing table with
  | nil => exact sound
  | cons key keys ih =>
    apply @ih (table.dropKey id key)
    rw [dropKey]
    split
    · apply sound.fewer
      intro _ _ on mem
      obtain ⟨old, differs⟩ := mem_retain.mp mem
      exact ⟨old, fun _ held => mem_erase.mpr ⟨of_decide_eq_true differs, held⟩⟩
    · exact sound

theorem Sound.release : (table.release id keys).Sound := by
  rw [RowLocks.release]
  apply Sound.drop
  apply sound.fewer
  intro _ _ _ mem
  exact ⟨(mem_erase.mp (mem_retain.mp mem).1).2, fun _ held => held⟩

theorem Sound.waiting {key : Key} {holder startTs : Nat}
    (held : (key, holder, startTs) ∈ table.locks) (free : ¬ ReflTransGen table.Waits holder id) :
    { table with waitsFor := table.waitsFor.insert id (holder, key) : RowLocks Key }.Sound where
  blocked waiter holder' on mem := by
    rcases mem_insert.mp mem with ⟨_, same⟩ | ⟨_, old⟩
    · cases same
      exact ⟨startTs, held⟩
    · exact sound.blocked waiter holder' on old
  acyclic := by
    apply acyclic_of_new_edge sound.acyclic free
    rintro waiter holder' ⟨on, mem⟩
    rcases mem_insert.mp mem with ⟨rfl, same⟩ | ⟨_, old⟩
    · exact Or.inr ⟨rfl, (Prod.mk.inj same).1⟩
    · exact Or.inl ⟨on, old⟩

theorem Sound.take (key : Key) (startTs : Nat) : (table.take id key startTs).2.Sound := by
  rw [RowLocks.take]
  split
  case h_1 holder holderTs found =>
    split_ifs with _ free
    · exact sound.stopWaiting id
    · rw [sound.deadlocks_iff] at free
      exact sound.waiting id (lookup_eq_some_iff.mp found) free
    · exact sound.stopWaiting id
  case h_2 absent =>
    apply Sound.stopWaiting
    apply sound.fewer
    intro _ _ on mem
    refine ⟨mem, fun _ held => mem_insert.mpr (Or.inr ⟨?_, held⟩)⟩
    rintro rfl
    exact lookup_eq_none_iff.mp absent _ held

theorem Sound.take_eq_deadlock_iff (key : Key) (startTs : Nat) :
    (table.take id key startTs).1 = .deadlock ↔ ∃ holder holderTs,
      (key, holder, holderTs) ∈ table.locks ∧ holder ≠ id ∧
        ReflTransGen table.Waits holder id := by
  simp only [← SortedMap.lookup_eq_some_iff, ← sound.deadlocks_iff, RowLocks.take]
  cases table.locks.lookup key with
  | none => simp
  | some hold =>
    obtain ⟨holder, holderTs⟩ := hold
    simp only [Option.some.injEq, Prod.mk.injEq]
    split_ifs <;> simp_all

omit sound

theorem sound_run (calls : List (Call Key)) : (run calls).Sound := by
  induction calls using List.reverseRecOn with
  | nil =>
    refine ⟨nofun, fun id circle => ?_⟩
    obtain ⟨_, ⟨_, mem⟩, _⟩ := TransGen.head'_iff.mp circle
    cases mem
  | append_singleton calls call sound =>
    rw [run, foldl_append]
    cases call with
    | take id key startTs => exact sound.take id key startTs
    | stopWaiting id => exact sound.stopWaiting id
    | release id held => exact sound.release id held
    | giveBack id keys => exact sound.drop id keys

/-- After any calls every chain of waiters ends at a transaction that waits for none, every waiter
waits for one that has the row, and a request is told of a deadlock exactly when the row's holder
waits, itself or through others, for the one who asks. -/
theorem row_locks_deadlock_exactly (calls : List (Call Key)) :
    (∀ id, ∃ last, ReflTransGen (run calls).Waits id last ∧
        ∀ next, ¬ (run calls).Waits last next) ∧
      (∀ waiter holder key, (waiter, holder, key) ∈ (run calls).waitsFor →
        ∃ startTs, (key, holder, startTs) ∈ (run calls).locks) ∧
      ∀ id key startTs, ((run calls).take id key startTs).1 = .deadlock ↔ ∃ holder holderTs,
        (key, holder, holderTs) ∈ (run calls).locks ∧ holder ≠ id ∧
          ReflTransGen (run calls).Waits holder id :=
  ⟨(sound_run calls).exists_running, (sound_run calls).blocked,
    fun id => (sound_run calls).take_eq_deadlock_iff id⟩

end RowLocks

end Esker.Sql
