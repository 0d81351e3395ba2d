import Mathlib.Logic.Function.Basic
import Mathlib.Tactic.Cases
import Mathlib.Tactic.Common
import Mathlib.Order.Nat

/-!
Contract: a store of timestamped versions, and transactions that buffer their writes and
are refused at their commit when a key they wrote has a version newer than what they read.

Owns: what a snapshot holds, what a transaction reads through its buffer, and what a commit
changes in every snapshot.
-/

namespace Esker.Versions

open Function

variable {K S : Type}

/-- The committed versions of each key, newest first; a version without a value deletes. -/
structure Store (K S : Type) where
  clock : Nat
  history : K → List (Nat × Option S)
  bounded : ∀ key, ∀ version ∈ history key, version.1 ≤ clock

/-- What a transaction would write: for each key the value and the snapshot it was first
written from. -/
abbrev Buffer (K S : Type) := K → Option (Option S × Nat)

variable {store : Store K S} {key : K} {ts : Nat} {buffer : Buffer K S}

theorem forall_update {T A : Type} [DecidableEq T] {active : T → Option A} {id : T}
    {next : Option A} {fact : A → Prop} (all : ∀ id held, active id = some held → fact held)
    (moved : ∀ held, next = some held → fact held) :
    ∀ other held, update active id next other = some held → fact held :=
  (Function.forall_update_iff active fun _ now => ∀ held, now = some held → fact held).mpr
    ⟨moved, fun other _ => all other⟩

namespace Store

private theorem find?_of_all {test : Nat × Option S → Bool} {versions : List (Nat × Option S)}
    (all : ∀ version ∈ versions, test version = true) :
    versions.find? test = versions.head? := by
  cases versions with
  | nil => rfl
  | cons newest older => rw [List.find?_cons, all newest List.mem_cons_self, List.head?_cons]

def valueAt (store : Store K S) (ts : Nat) (key : K) : Option S :=
  ((store.history key).find? fun version => version.1 ≤ ts).bind Prod.snd

def latest (store : Store K S) (key : K) : Option S := store.valueAt store.clock key

def writtenSince (store : Store K S) (key : K) (ts : Nat) : Prop :=
  ∃ version ∈ store.history key, ts < version.1

def commit (store : Store K S) (buffer : Buffer K S) : Store K S where
  clock := store.clock + 1
  history key :=
    match buffer key with
    | some (value, _) => (store.clock + 1, value) :: store.history key
    | none => store.history key
  bounded := by
    intro key version member
    cases written : buffer key with
    | none =>
      simp only [written] at member
      exact (store.bounded key version member).trans (Nat.le_succ _)
    | some pair =>
      simp only [written, List.mem_cons] at member
      rcases member with rfl | earlier
      · exact le_rfl
      · exact (store.bounded key version earlier).trans (Nat.le_succ _)

@[simp]
theorem commit_clock (store : Store K S) (buffer : Buffer K S) :
    (store.commit buffer).clock = store.clock + 1 :=
  rfl

theorem not_writtenSince_clock (store : Store K S) (key : K) :
    ¬ store.writtenSince key store.clock := by
  rintro ⟨version, mem, later⟩
  exact absurd later (not_lt.mpr (store.bounded key version mem))

theorem valueAt_eq_of_quiet {later : Nat} (quiet : ¬ store.writtenSince key ts)
    (ordered : ts ≤ later) : store.valueAt later key = store.valueAt ts key := by
  have below : ∀ version ∈ store.history key, version.1 ≤ ts := by
    intro version mem
    by_contra newer
    exact quiet ⟨version, mem, not_le.mp newer⟩
  unfold valueAt
  rw [find?_of_all fun version mem => decide_eq_true (below version mem),
    find?_of_all fun version mem => decide_eq_true ((below version mem).trans ordered)]

theorem valueAt_eq_latest (quiet : ¬ store.writtenSince key ts) (past : ts ≤ store.clock) :
    store.valueAt ts key = store.latest key :=
  (valueAt_eq_of_quiet quiet past).symm

theorem valueAt_of_clock_le (future : store.clock ≤ ts) : store.valueAt ts = store.latest := by
  funext key
  exact valueAt_eq_of_quiet (not_writtenSince_clock store key) future

theorem valueAt_commit (past : ts ≤ store.clock) :
    (store.commit buffer).valueAt ts key = store.valueAt ts key := by
  unfold valueAt commit
  cases written : buffer key with
  | none => simp only [written]
  | some pair =>
    have skipped : ¬ store.clock + 1 ≤ ts := by omega
    simp only [written, List.find?_cons, skipped, decide_false]

theorem latest_commit (store : Store K S) (buffer : Buffer K S) (key : K) :
    (store.commit buffer).latest key =
      match buffer key with
      | some (value, _) => value
      | none => store.latest key := by
  unfold latest
  cases written : buffer key with
  | none =>
    have past := store.bounded key
    unfold valueAt commit
    simp only [written]
    rw [find?_of_all fun version mem => decide_eq_true (past version mem),
      find?_of_all fun version mem =>
        decide_eq_true ((past version mem).trans (Nat.le_succ _))]
  | some pair =>
    unfold valueAt commit
    simp [written]

theorem writtenSince_commit (written : store.writtenSince key ts) :
    (store.commit buffer).writtenSince key ts := by
  obtain ⟨version, mem, later⟩ := written
  refine ⟨version, ?_, later⟩
  unfold commit
  cases held : buffer key with
  | none => simpa only [held] using mem
  | some pair => simpa only [held] using List.mem_cons_of_mem _ mem

theorem writtenSince_of_commit (untouched : buffer key = none)
    (written : (store.commit buffer).writtenSince key ts) : store.writtenSince key ts := by
  obtain ⟨version, mem, later⟩ := written
  simp only [commit, untouched] at mem
  exact ⟨version, mem, later⟩

theorem writtenSince_commit_self {pair : Option S × Nat} (written : buffer key = some pair)
    (past : ts ≤ store.clock) : (store.commit buffer).writtenSince key ts := by
  refine ⟨(store.clock + 1, pair.1), ?_, by dsimp only; omega⟩
  unfold commit
  simp [written]

end Store

namespace Buffer

def empty : Buffer K S := fun _ => none

/-- What a transaction reads of a key: its own write, or its snapshot. -/
def read (buffer : Buffer K S) (store : Store K S) (ts : Nat) (key : K) : Option S :=
  match buffer key with
  | some (value, _) => value
  | none => store.valueAt ts key

/-- Buffers a write. A key keeps the snapshot of its first write. -/
def put [DecidableEq K] (buffer : Buffer K S) (ts : Nat) (key : K) (value : Option S) :
    Buffer K S :=
  update buffer key
    (some (value, match buffer key with
      | some (_, stamp) => stamp
      | none => ts))

/-- A key the buffer writes has a version newer than the snapshot it was written from. -/
def Conflicted (buffer : Buffer K S) (store : Store K S) : Prop :=
  ∃ key value stamp, buffer key = some (value, stamp) ∧ store.writtenSince key stamp

/-- Every write stays, with the snapshot it was made from. -/
def Extends (after before : Buffer K S) : Prop :=
  ∀ key value stamp, before key = some (value, stamp) → ∃ value, after key = some (value, stamp)

def Stamped (buffer : Buffer K S) (ts : Nat) : Prop :=
  ∀ key value stamp, buffer key = some (value, stamp) → stamp ≤ ts

variable {value : Option S} {stamp : Nat}

theorem read_of_some (held : buffer key = some (value, stamp)) :
    buffer.read store ts key = value := by
  unfold read
  rw [held]

theorem read_of_none (untouched : buffer key = none) :
    buffer.read store ts key = store.valueAt ts key := by
  unfold read
  rw [untouched]

theorem read_eq_some {value : S} (reads : buffer.read store ts key = some value) :
    (∃ stamp, buffer key = some (some value, stamp)) ∨
      buffer key = none ∧ store.valueAt ts key = some value := by
  unfold read at reads
  split at reads
  · rename_i held
    exact Or.inl ⟨_, reads ▸ held⟩
  · rename_i untouched
    exact Or.inr ⟨untouched, reads⟩

theorem read_commit (store : Store K S) (buffer : Buffer K S) :
    (store.commit buffer).latest = buffer.read store store.clock := by
  funext key
  rw [Store.latest_commit]
  rfl

theorem forall_commit (property : (K → Option S) → Prop)
    (before : ∀ ts, property (store.valueAt ts)) (newest : property (store.commit buffer).latest)
    (ts : Nat) : property ((store.commit buffer).valueAt ts) := by
  by_cases past : ts ≤ store.clock
  · have same : (store.commit buffer).valueAt ts = store.valueAt ts := by
      funext key
      exact Store.valueAt_commit past
    rw [same]
    exact before ts
  · rw [Store.valueAt_of_clock_le (by rw [Store.commit_clock]; omega)]
    exact newest

theorem read_eq_of_quiet {start : Nat} (quiet : ∀ key, ¬ store.writtenSince key start)
    (begun : start ≤ ts) (past : ts ≤ store.clock) :
    buffer.read store ts = buffer.read store store.clock := by
  funext key
  unfold read
  rw [Store.valueAt_eq_of_quiet (quiet key) begun,
    Store.valueAt_eq_of_quiet (quiet key) (begun.trans past)]

section Put

variable [DecidableEq K]

theorem put_self (buffer : Buffer K S) (ts : Nat) (key : K) (value : Option S) :
    ∃ stamp, buffer.put ts key value key = some (value, stamp) ∧
      (buffer key = none → stamp = ts) ∧ ∀ held, buffer key = some held → stamp = held.2 := by
  unfold put
  rw [update_self]
  cases held : buffer key with
  | none => exact ⟨ts, rfl, fun _ => rfl, fun found isFound => by cases isFound⟩
  | some pair =>
    refine ⟨pair.2, rfl, nofun, ?_⟩
    rintro _ ⟨⟩
    rfl

theorem put_of_ne {other : K} (different : other ≠ key) :
    buffer.put ts key value other = buffer other :=
  update_of_ne different _ _

theorem put_extends (buffer : Buffer K S) (ts : Nat) (key : K) (value : Option S) :
    (buffer.put ts key value).Extends buffer := by
  intro other held stamp has
  by_cases same : other = key
  · subst same
    obtain ⟨kept, written, _, stays⟩ := put_self buffer ts other value
    have stampKept : kept = stamp := stays (held, stamp) has
    exact ⟨value, by rw [written, stampKept]⟩
  · exact ⟨held, by rw [put_of_ne same, has]⟩

theorem put_stamped (stamped : buffer.Stamped ts) (key : K) (value : Option S) :
    (buffer.put ts key value).Stamped ts := by
  intro other held stamp has
  by_cases same : other = key
  · subst same
    obtain ⟨kept, written, fresh, stays⟩ := put_self buffer ts other value
    rw [written] at has
    cases has
    cases before : buffer other with
    | none => exact (fresh before).le
    | some pair =>
      rw [stays pair before]
      exact stamped other pair.1 pair.2 before
  · rw [put_of_ne same] at has
    exact stamped other held stamp has

end Put

theorem Extends.trans {first second third : Buffer K S} (later : third.Extends second)
    (earlier : second.Extends first) : third.Extends first := by
  intro key value stamp has
  obtain ⟨middle, held⟩ := earlier key value stamp has
  exact later key middle stamp held

theorem Conflicted.extends {before after : Buffer K S} (conflicted : before.Conflicted store)
    (grown : after.Extends before) : after.Conflicted store := by
  obtain ⟨key, value, stamp, held, newer⟩ := conflicted
  obtain ⟨rewritten, stays⟩ := grown key value stamp held
  exact ⟨key, rewritten, stamp, stays, newer⟩

theorem Conflicted.commit {buffer other : Buffer K S} {store : Store K S}
    (conflicted : buffer.Conflicted store) : buffer.Conflicted (store.commit other) := by
  obtain ⟨key, value, stamp, held, newer⟩ := conflicted
  exact ⟨key, value, stamp, held, Store.writtenSince_commit newer⟩

theorem Conflicted.or_moves {before after : Buffer K S} {earlier later : Store K S}
    {known next : Prop} (either : before.Conflicted earlier ∨ known)
    (lasts : before.Conflicted earlier → after.Conflicted later)
    (moves : ¬ after.Conflicted later → known → next) : after.Conflicted later ∨ next := by
  by_cases refused : after.Conflicted later
  · exact Or.inl refused
  · exact Or.inr (moves refused (either.resolve_left fun conflicted => refused (lasts conflicted)))

theorem disjoint_of_commit {other : Buffer K S} (stamped : buffer.Stamped ts)
    (past : ts ≤ store.clock) (unrefused : ¬ buffer.Conflicted (store.commit other))
    {held : Option S × Nat} (writes : buffer key = some held) : other key = none := by
  cases committed : other key with
  | none => rfl
  | some pair =>
    have stampPast := (stamped key held.1 held.2 writes).trans past
    exact absurd ⟨key, held.1, held.2, writes, Store.writtenSince_commit_self committed stampPast⟩
      unrefused

theorem latest_of_unrefused (unrefused : ¬ buffer.Conflicted store)
    (held : buffer key = some (value, stamp)) (stampPast : stamp ≤ ts) (past : ts ≤ store.clock) :
    store.latest key = store.valueAt ts key := by
  have quiet : ¬ store.writtenSince key stamp := fun newer =>
    unrefused ⟨key, value, stamp, held, newer⟩
  rw [← Store.valueAt_eq_latest quiet (stampPast.trans past),
    Store.valueAt_eq_of_quiet quiet stampPast]

end Buffer

end Esker.Versions
