import Esker.Txn.Isolation

/-!
Contract: serial orders of transactions that validate what they read (`checking`,
`commit` and `prewrite_range_checks` of `esker-client/src/txn.rs`).

Owns: what it means for an order of the transactions to explain their reads, the order by
commit timestamp, and the range check that holds nothing until the commit.

A transaction that writes nothing has no primary, and its `commit` sends nothing.
-/

namespace Esker.Txn

open List

/-! ## Records in order -/

abbrev Cell.Ordered {K : Type} (cell : Cell K) : Prop :=
  cell.writes.Pairwise fun newer older => older.commitTs < newer.commitTs

variable {version : Version} {K : Type} {cell : Cell K}

theorem Cell.Moves.ordered {after : Cell K} {change : Change K} (moved : cell.Moves after change)
    (ordered : cell.Ordered) : after.Ordered := by
  cases moved with
  | placed unrecorded unbeaten free lock writes values =>
    unfold Cell.Ordered
    rw [writes]
    exact ordered
  | committed held => exact insertVersion_ordered ordered
  | marked unrecorded lock writes values =>
    unfold Cell.Ordered
    rw [writes]
    exact insertVersion_ordered ordered
  | extended held => exact ordered

theorem newestVersionAt_newest (ordered : cell.Ordered) {ts : Nat}
    (found : newestVersionAt cell ts = some version) :
    ∀ other ∈ cell.writes, other.isAVersion → other.commitTs ≤ ts →
      other.commitTs ≤ version.commitTs := by
  obtain ⟨_, newer, older, split, passed⟩ := find?_eq_some_iff_append.mp found
  intro other mem changes below
  unfold Cell.Ordered at ordered
  rw [split] at mem ordered
  rcases mem_append.mp mem with before | after
  · have skipped := passed other before
    simp [changes, below] at skipped
  rcases mem_cons.mp after with rfl | later
  · exact le_rfl
  · exact ((pairwise_cons.mp (pairwise_append.mp ordered).2.1).1 other later).le

namespace System

variable [LinearOrder K] {system : System K}

theorem Reachable.ordered (reachable : Reachable system) (key : K) :
    (system.store.get key).Ordered := by
  have run : Run initial system := reachable
  induction run with
  | refl => exact .nil
  | tail earlier step ih =>
    have before := ih earlier
    have inv := Reachable.invariant earlier
    rcases inv.step_cases step with proceeds | ⟨request, sent, rfl⟩
    · rw [proceeds.advances.store]
      exact before
    rcases inv.moves (inv.legit request sent) key with same | ⟨_, moved, _⟩
    · rw [same]
      exact before
    · exact moved.ordered before

/-! ## Serial orders -/

/-- The transaction has committed a change of the key: its record, or its lock while a
resolver has not carried the verdict there. -/
def Wrote (system : System K) (startTs : Nat) (key : K) : Prop :=
  (∃ version ∈ (system.store.get key).writes, version.record.startTs = startTs ∧
    version.isAVersion) ∨
  ∃ lock, (system.store.get key).lock = some lock ∧ lock.startTs = startTs ∧
    lock.kind ≠ .lock ∧ ∃ commitTs, system.Decided startTs commitTs

/-- The transactions of a history: those that committed, and readers that wrote nothing. -/
def Member (system : System K) (readers : Nat → Prop) (startTs : Nat) : Prop :=
  (∃ commitTs, system.Decided startTs commitTs) ∨ readers startTs

/-- Placing the transactions by `position` explains every read: it found the change of the
last transaction before the reader that changed the key, or none. -/
structure Explains (system : System K) (readers : Nat → Prop) (reads : Nat → K → Prop)
    (position : Nat → Nat) : Prop where
  distinct : ∀ first second, system.Member readers first → system.Member readers second →
    position first = position second → first = second
  found : ∀ startTs key, system.Member readers startTs → reads startTs key →
    ∀ version, newestVersionAt (system.store.get key) startTs = some version →
      system.Member readers version.record.startTs ∧
      position version.record.startTs < position startTs ∧
      ∀ writer, system.Member readers writer → system.Wrote writer key →
        position writer < position startTs → position writer ≤ position version.record.startTs
  absent : ∀ startTs key, system.Member readers startTs → reads startTs key →
    newestVersionAt (system.store.get key) startTs = none →
      ∀ writer, system.Member readers writer → system.Wrote writer key →
        ¬position writer < position startTs

def Serializable (system : System K) (readers : Nat → Prop) (reads : Nat → K → Prop) : Prop :=
  ∃ position, system.Explains readers reads position

/-- The read of the key at the transaction's snapshot was answered, at some time before. -/
def Answered (system : System K) (startTs : Nat) (key : K) : Prop :=
  ∃ earlier answer, Reachable earlier ∧ Run earlier system ∧ startTs ≤ earlier.clock ∧
    read (earlier.store.get key) startTs = .ok answer ∧ ∀ lock, answer ≠ .locked lock

/-- The key was prewritten, or checked, at the transaction's own snapshot. -/
def Validated (system : System K) (startTs : Nat) (key : K) : Prop :=
  ∃ primary ttlMs mutations, .prewrite startTs primary ttlMs mutations ∈ system.sent ∧
    ∃ mutation ∈ mutations, ∃ request, mutation.request startTs primary ttlMs = some request ∧
      request.key = key ∧ request.readTs = startTs

/-! ## A phantom after the range check -/

def phantomPrewrite : Request Nat := .prewrite 1 7 3000 [.put 7 [1] none]

/-- The check of the range transaction `1` scanned. -/
def phantomCheck : Request Nat := .prewrite 1 7 3000 [.checkRange 0 5]

def insertPrewrite : Request Nat := .prewrite 2 3 3000 [.put 3 [2] none]

/-- Transaction `1` has prewritten key `7` and passed its range check. -/
def phantomChecked : System Nat :=
  let begun := (System.initial.entered 1 1 (.open none [])).entered 2 2 (.open none [])
  let called := begun.entered 2 1 (.prewriting 7 [] [[phantomPrewrite], [phantomCheck]])
  let asked := (called.send [phantomPrewrite]).enter 1
    (.prewriting 7 [phantomPrewrite] [[phantomCheck]])
  let locked := asked.delivered phantomPrewrite
  let checking := (locked.send [phantomCheck]).enter 1
    (.prewriting 7 [phantomCheck, phantomPrewrite] [])
  checking.delivered phantomCheck

/-- Transaction `2` has inserted key `3` into the range and committed at `3`. -/
def phantomInserted : System Nat :=
  let called := phantomChecked.entered 2 2 (.prewriting 3 [] [[insertPrewrite]])
  let asked := (called.send [insertPrewrite]).enter 2 (.prewriting 3 [insertPrewrite] [])
  let locked := asked.delivered insertPrewrite
  let drawn := ({ locked with clock := 3 }.send [.commit 2 3 [3]]).enter 2
    (.committing 3 [] [insertPrewrite] 3)
  drawn.delivered (.commit 2 3 [3])

/-- Transaction `4` has begun, to read keys `3` and `7`, and transaction `1` has committed
at `5`. -/
def phantomCommitted : System Nat :=
  let begun := phantomInserted.entered 4 4 (.open none [])
  let drawn := ({ begun with clock := 5 }.send [.commit 1 5 [7]]).enter 1
    (.committing 7 [] [phantomCheck, phantomPrewrite] 5)
  drawn.delivered (.commit 1 5 [7])

theorem phantomChecked_reachable : Reachable phantomChecked := by
  have shape : ∀ batch ∈ [[phantomPrewrite], [phantomCheck]], ∀ request ∈ batch,
      Prewrites 1 7 request := by
    simp only [mem_cons, not_mem_nil, or_false, forall_eq_or_imp, forall_eq]
    exact ⟨⟨3000, _, rfl, by decide⟩, ⟨3000, _, rfl, by decide⟩⟩
  have first : Step (System.initial : System Nat) (System.initial.entered 1 1 (.open none [])) :=
    .begin _ (by decide : 0 < 1)
  have second := (Relation.ReflTransGen.single first).tail
    (.begin ((System.initial : System Nat).entered 1 1 (.open none [])) (by decide : 1 < 2))
  have called := second.tail (@Step.commit _ _ _ 1 none [] 7 _ rfl (by simp) shape)
  have locked := (called.tail (@Step.prewrite _ _ _ 1 7 [] [phantomPrewrite] [[phantomCheck]]
    rfl (by simp))).tail (.deliver (.head _))
  refine (locked.tail (@Step.prewrite _ _ _ 1 7 [phantomPrewrite] [phantomCheck] [] rfl ?_)).tail
    (.deliver (.head _))
  simp only [append_nil, mem_singleton, forall_eq]
  exact ⟨[.ok], .head _, by decide⟩

theorem phantomInserted_reachable : Reachable phantomInserted := by
  have shape : ∀ batch ∈ [[insertPrewrite]], ∀ request ∈ batch, Prewrites 2 3 request := by
    simp only [mem_singleton, forall_eq]
    exact ⟨3000, _, rfl, by decide⟩
  have called := phantomChecked_reachable.tail
    (@Step.commit _ _ _ 2 none [] 3 _ rfl (by simp) shape)
  have locked := (called.tail (@Step.prewrite _ _ _ 2 3 [] [insertPrewrite] [] rfl
    (by simp))).tail (.deliver (.head _))
  refine (locked.tail (.commitPrimary [] rfl ?_ (by decide : 2 < 3))).tail (.deliver (.head _))
  simp only [append_nil, mem_singleton, forall_eq]
  exact ⟨[.ok], .head _, by decide⟩

theorem phantomCommitted_reachable : Reachable phantomCommitted := by
  have begun := phantomInserted_reachable.tail (.begin _ (by decide : 3 < 4))
  refine (begun.tail (.commitPrimary [] rfl ?_ (by decide : 4 < 5))).tail (.deliver (.head _))
  simp only [mem_cons, not_mem_nil, or_false, forall_eq_or_imp, forall_eq]
  exact ⟨⟨[.ok], by decide, by decide⟩, ⟨[.ok], by decide, by decide⟩⟩

/-- Transaction `1` scanned the range of its check; transaction `4` wrote nothing. -/
def phantomReads (startTs key : Nat) : Prop :=
  startTs = 1 ∧ key < 5 ∨ startTs = 4 ∧ (key = 3 ∨ key = 7)

variable {startTs commitTs : Nat}

theorem Invariant.drawn_of_decided (inv : Invariant system)
    (decided : system.Decided startTs commitTs) :
    (system.phases startTs).commitTs = some commitTs := by
  obtain ⟨primary, _, version, mem, rfl, rfl, live⟩ := decided
  exact ((inv.cells primary).commit version mem live).1

/-- What a committed transaction that validated a key leaves on it: its lock, or its own
record with every other change at or below the snapshot or above the commit. -/
theorem Invariant.holds_validated (inv : Invariant system) {key : K}
    (decided : system.Decided startTs commitTs) (validated : system.Validated startTs key) :
    (∃ lock, (system.store.get key).lock = some lock ∧ lock.startTs = startTs ∧
      (system.store.get key).Unbeaten startTs startTs) ∨
    ∃ version ∈ (system.store.get key).writes, version.record.startTs = startTs ∧
      version.record.kind ≠ .rollback ∧ version.commitTs = commitTs ∧
      ∀ other ∈ (system.store.get key).writes, other.isAVersion →
        other.record.startTs ≠ startTs → other.commitTs ≤ startTs ∨ commitTs < other.commitTs := by
  have drawn := inv.drawn_of_decided decided
  obtain ⟨primary, ttlMs, mutations, sent, mutation, present, request, asks, rfl, snapshot⟩ :=
    validated
  have named : request.startTs = startTs := by cases mutation <;> cases asks <;> rfl
  have sound := inv.cells request.key
  rcases inv.held_of_drawn (inv.legit _ sent) drawn present asks with
    ⟨lock, held, own, _, unbeaten⟩ | ⟨version, recorded, own, ahead⟩
  · exact .inl ⟨lock, held, own.trans named, by rw [named, snapshot] at unbeaten; exact unbeaten⟩
  have live : version.record.kind ≠ .rollback := by
    -- A marker would make the transaction dead on its primary, where it committed.
    intro rolled
    obtain ⟨_, _, dead⟩ := sound.marker version recorded rolled
    rw [own, named] at dead
    obtain ⟨home, isHome, found, mem, _, mine, kept⟩ := decided
    rcases dead with ⟨_, aborted⟩ | ⟨other, isOther, mark, marked, ofMark, gone⟩
    · simp [aborted, Phase.commitTs] at drawn
    cases isHome.symm.trans isOther
    exact kept ((inv.cells home).exclusive mark marked found mem (ofMark.trans mine.symm) gone)
  have same := (sound.commit version recorded live).1
  rw [own, named, drawn] at same
  have equal : version.commitTs = commitTs := (Option.some.inj same).symm
  refine .inr ⟨version, recorded, own.trans named, live, equal, fun other found changes foreign => ?_⟩
  have apart := ahead.resolve_left live other found changes (by rw [named]; exact foreign)
  rwa [snapshot, equal] at apart

/-- A committed transaction's place is its commit timestamp; a reader's is its snapshot. -/
def place (system : System K) (startTs : Nat) : Nat :=
  (system.phases startTs).commitTs.getD startTs

section Placing

variable {readers : Nat → Prop} {reads : Nat → K → Prop} {startTs : Nat} {key : K}

theorem Invariant.place_decided (inv : Invariant system) (decided : system.Decided startTs commitTs) :
    system.place startTs = commitTs := by
  unfold place
  rw [inv.drawn_of_decided decided]
  rfl

/-- Of the readers: they began, and drew no commit timestamp. -/
def Reads (system : System K) (readers : Nat → Prop) : Prop :=
  ∀ startTs, readers startTs → system.phases startTs ≠ .idle ∧
    (system.phases startTs).commitTs = none

omit [LinearOrder K] in
theorem Reads.place (passive : system.Reads readers) (reader : readers startTs) :
    system.place startTs = startTs := by
  unfold System.place
  rw [(passive startTs reader).2]
  rfl

section

variable (inv : Invariant system) (passive : system.Reads readers)
include inv passive

theorem Invariant.place_distinct {first second : Nat} (one : system.Member readers first)
    (two : system.Member readers second) (same : system.place first = system.place second) :
    first = second := by
  rcases one with ⟨firstTs, decidedOne⟩ | readerOne <;>
    rcases two with ⟨secondTs, decidedTwo⟩ | readerTwo
  · rw [inv.place_decided decidedOne, inv.place_decided decidedTwo] at same
    subst same
    exact inv.drawnOnce _ _ _ (inv.drawn_of_decided decidedOne) (inv.drawn_of_decided decidedTwo)
  · rw [inv.place_decided decidedOne, passive.place readerTwo] at same
    subst same
    exact absurd (inv.drawn _ _ (inv.drawn_of_decided decidedOne)).2.2 (passive _ readerTwo).1
  · rw [passive.place readerOne, inv.place_decided decidedTwo] at same
    subst same
    exact absurd (inv.drawn _ _ (inv.drawn_of_decided decidedTwo)).2.2 (passive _ readerOne).1
  · rwa [passive.place readerOne, passive.place readerTwo] at same

/-- A version at or below the snapshot was committed before the transaction's place. -/
theorem Invariant.place_above (mem : system.Member readers startTs)
    (found : version ∈ (system.store.get key).writes) (live : version.record.kind ≠ .rollback)
    (below : version.commitTs ≤ startTs) : version.commitTs < system.place startTs := by
  have drawn := ((inv.cells key).commit version found live).1
  rcases mem with ⟨commitTs, decided⟩ | reader
  · have later := (inv.drawn _ _ (inv.drawn_of_decided decided)).1
    rw [inv.place_decided decided]
    omega
  rw [passive.place reader]
  refine lt_of_le_of_ne below fun same => (passive _ reader).1 ?_
  exact same ▸ (inv.drawn _ _ drawn).2.2

/-- Whatever was placed before a transaction and changed a key it read is in its snapshot. -/
theorem Invariant.before_in_snapshot (mem : system.Member readers startTs)
    (locks : ∀ lock, (system.store.get key).lock = some lock → lock.kind ≠ .lock →
      ∀ commitTs, (system.phases lock.startTs).commitTs = some commitTs → startTs < commitTs)
    (validates : ∀ commitTs, system.Decided startTs commitTs → system.Validated startTs key)
    {writer : Nat} (wrote : system.Wrote writer key)
    (before : system.place writer < system.place startTs) :
    ∃ version ∈ (system.store.get key).writes, version.record.startTs = writer ∧
      version.isAVersion ∧ version.commitTs = system.place writer ∧
      version.commitTs ≤ startTs := by
  have sound := inv.cells key
  have other : writer ≠ startTs := fun same => by simp [same] at before
  rcases wrote with ⟨version, found, rfl, changes⟩ | ⟨lock, held, rfl, write, ⟨commitTs, decided⟩⟩
  · have live : version.record.kind ≠ .rollback := fun dead => by
      simp [Version.isAVersion, dead, Kind.isAVersion] at changes
    have placedAt := inv.place_decided (sound.commit version found live).2
    refine ⟨version, found, rfl, changes, placedAt.symm, ?_⟩
    rcases mem with ⟨commitTs, decided⟩ | reader
    · rw [placedAt, inv.place_decided decided] at before
      rcases inv.holds_validated decided (validates _ decided) with
        ⟨_, _, _, unbeaten⟩ | ⟨_, _, _, _, _, apart⟩
      · exact unbeaten version found changes other
      · exact (apart version found changes other).resolve_right (by omega)
    · rw [placedAt, passive.place reader] at before
      exact before.le
  · -- A lock that is still to be committed commits after the snapshot and after the reader.
    exfalso
    have drawn := inv.drawn_of_decided decided
    have above := locks lock held write commitTs drawn
    rw [inv.place_decided decided] at before
    rcases mem with ⟨ownTs, own⟩ | reader
    · rw [inv.place_decided own] at before
      rcases inv.holds_validated own (validates _ own) with
        ⟨mine, holding, isMine, _⟩ | ⟨version, recorded, _, live, isOwn, _⟩
      · cases held.symm.trans holding
        exact other isMine
      · have later := sound.lockNewest lock held write commitTs drawn version recorded live
        omega
    · rw [passive.place reader] at before
      omega

end

end Placing

end System

end Esker.Txn
