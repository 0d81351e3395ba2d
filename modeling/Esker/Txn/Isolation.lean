import Esker.Txn.Preservation

/-!
Contract: what the transaction protocol promises in every run.

Owns: atomicity, that the first committer wins, and that a snapshot read is stable.

Does not own: what garbage collection does to the evidence.
-/

namespace Esker.Txn

open Esker.Consensus (Bytes)

namespace System

variable {K : Type} [LinearOrder K] {system : System K}

/-! ## A run that commits two keys -/

/-- The prewrite of a transaction that writes keys `7` and `8`, with `7` its primary. -/
def pairPrewrite : Request Nat :=
  .prewrite 1 7 3000 [.put 7 [1] none, .put 8 [2] none]

/-- Transaction `1` has prewritten both keys. -/
def pairPrepared : System Nat :=
  let begun := System.initial.entered 1 1 (.open none [])
  let called := begun.entered 1 1 (.prewriting 7 [] [[pairPrewrite]])
  let asked := (called.send [pairPrewrite]).enter 1 (.prewriting 7 [pairPrewrite] [])
  asked.delivered pairPrewrite

/-- It has drawn timestamp `2` and committed. -/
def pairCommitted : System Nat :=
  let drawn := ({ pairPrepared with clock := 2 }.send [.commit 1 2 [7]]).enter 1
    (.committing 7 [8] [pairPrewrite] 2)
  let decided := drawn.delivered (.commit 1 2 [7])
  (decided.send [.commit 1 2 [8]]).delivered (.commit 1 2 [8])

theorem pairPrepared_reachable : Reachable pairPrepared := by
  have shape : Prewrites 1 7 pairPrewrite := ⟨3000, _, rfl, by decide⟩
  have begun : Step (System.initial : System Nat) (System.initial.entered 1 1 (.open none [])) :=
    .begin _ (by decide : 0 < 1)
  have called : Step ((System.initial : System Nat).entered 1 1 (.open none []))
      (((System.initial : System Nat).entered 1 1 (.open none [])).entered 1 1
        (.prewriting 7 [] [[pairPrewrite]])) :=
    .commit rfl (by simp) (by simpa using shape)
  exact (((Relation.ReflTransGen.single begun).tail called).tail
    (.prewrite rfl (by simp))).tail (.deliver (.head _))

theorem pairCommitted_reachable : Reachable pairCommitted := by
  have granted : ∀ earlier ∈ [pairPrewrite], pairPrepared.Accepted earlier := by
    simp only [List.mem_singleton, forall_eq]
    exact ⟨[.ok, .ok], .head _, by decide⟩
  have drawn : Step pairPrepared (({ pairPrepared with clock := 2 }.send
      [.commit 1 2 [7]]).enter 1 (.committing 7 [8] [pairPrewrite] 2)) :=
    .commitPrimary [8] rfl granted (by decide)
  exact (((pairPrepared_reachable.tail drawn).tail (.deliver (.head _))).tail
    (.commitSecondaries rfl (.head _) (by simp) (by simp))).tail (.deliver (.head _))

/-! ## Atomicity -/

/-- A transaction commits at one timestamp on every key it commits on, and it is never
committed on one key and rolled back on another. -/
theorem transaction_atomic (reachable : Reachable system) (startTs : Nat) :
    (∀ first second : K, ∀ firstTs secondTs : Nat,
      (system.store.get first).Committed startTs firstTs →
      (system.store.get second).Committed startTs secondTs → firstTs = secondTs) ∧
    (∀ first second : K, ∀ commitTs : Nat,
      (system.store.get first).Committed startTs commitTs →
      ¬ (system.store.get second).RolledBack startTs) := by
  have invariant := reachable.invariant
  have drawn : ∀ {key : K} {commitTs : Nat}, (system.store.get key).Committed startTs commitTs →
      (system.phases startTs).commitTs = some commitTs ∧ system.Decided startTs commitTs := by
    rintro key commitTs ⟨version, member, rfl, rfl, live⟩
    exact (invariant.cells key).commit version member live
  refine ⟨fun first second firstTs secondTs one two => ?_,
    fun first second commitTs committed rolled => ?_⟩
  · have same := (drawn one).1.symm.trans (drawn two).1
    exact Option.some.inj same
  obtain ⟨now, primary, own, version, member, _, mine, live⟩ := drawn committed
  obtain ⟨mark, marked, ofMark, dead⟩ := rolled
  obtain ⟨_, _, lost⟩ := (invariant.cells second).marker mark marked dead
  rw [ofMark] at lost
  rcases lost with ⟨_, aborted⟩ | ⟨other, same, found, present, ofFound, gone⟩
  · simp [aborted, Phase.commitTs] at now
  -- Both facts are about the primary, whose records exclude each other.
  cases own.symm.trans same
  exact live ((invariant.cells primary).exclusive found present version member
    (ofFound.trans mine.symm) gone)

/-- Both keys of the run above are committed at `2`, and neither is rolled back. -/
theorem transaction_atomic_pair :
    (pairCommitted.store.get 7).Committed 1 2 ∧ (pairCommitted.store.get 8).Committed 1 2 ∧
      ∀ key, ¬ (pairCommitted.store.get key).RolledBack 1 := by
  have primary : (pairCommitted.store.get 7).Committed 1 2 :=
    ⟨⟨2, ⟨.put, 1, some [1]⟩⟩, by decide, rfl, rfl, by decide⟩
  refine ⟨primary, ⟨⟨2, ⟨.put, 1, some [2]⟩⟩, by decide, rfl, rfl, by decide⟩, fun key => ?_⟩
  exact (transaction_atomic pairCommitted_reachable 1).2 7 key 2 primary

/-! ## The first committer wins -/

variable {key : K} {cell after : Cell K} {ts : Nat} {answer : ReadOutcome K} {last : System K}

/-- A committed write is ordered against every other by the snapshot it was computed from:
the other is at or below it, or above its commit. -/
theorem Invariant.ordered (inv : Invariant system) {version : Version}
    (mem : version ∈ (system.store.get key).writes) (changes : version.isAVersion) {primary : K}
    {ttlMs : Nat} {mutations : List (TxnMutation K)}
    (sent : .prewrite version.record.startTs primary ttlMs mutations ∈ system.sent)
    {mutation : TxnMutation K} (present : mutation ∈ mutations) {prewrite : Prewrite K}
    (asks : mutation.request version.record.startTs primary ttlMs = some prewrite)
    (here : prewrite.key = key) {other : Version} (found : other ∈ (system.store.get key).writes)
    (changing : other.isAVersion) (foreign : other.record.startTs ≠ version.record.startTs) :
    other.commitTs ≤ prewrite.readTs ∨ version.commitTs < other.commitTs := by
  subst here
  have sound := inv.cells prewrite.key
  have live : version.record.kind ≠ .rollback := fun dead => by
    simp [Version.isAVersion, dead, Kind.isAVersion] at changes
  have drawn := (sound.commit version mem live).1
  have named : prewrite.startTs = version.record.startTs := by
    cases mutation <;> cases asks <;> rfl
  rcases inv.held_of_drawn (inv.legit _ sent) drawn present asks with
    ⟨lock, held, own, _⟩ | ⟨record, recorded, own, ahead⟩
  · exact absurd (named.symm.trans own.symm) (sound.lockUnsettled lock held version mem)
  have kept : record.record.kind ≠ .rollback := fun dead =>
    live (sound.exclusive record recorded version mem (own.trans named) dead)
  have same := (sound.commit record recorded kept).1
  rw [own, named, drawn] at same
  have equal : record.commitTs = version.commitTs := (Option.some.inj same).symm
  rw [← equal]
  exact ahead.resolve_left kept other found changing (by rw [named]; exact foreign)

/-- When a write computed from the snapshot `readTs` is committed, no other transaction has
changed the key between that snapshot and the commit; and of two transactions that wrote the
key, one has the other's commit in the snapshot its write was computed from. -/
theorem first_committer_wins (reachable : Reachable system) {key : K} {version : Version}
    (member : version ∈ (system.store.get key).writes) (changes : version.isAVersion)
    {primary : K} {ttlMs : Nat} {mutations : List (TxnMutation K)}
    (sent : .prewrite version.record.startTs primary ttlMs mutations ∈ system.sent)
    {mutation : TxnMutation K} (present : mutation ∈ mutations) {prewrite : Prewrite K}
    (asks : mutation.request version.record.startTs primary ttlMs = some prewrite)
    (here : prewrite.key = key) :
    ∀ other ∈ (system.store.get key).writes, other.isAVersion →
      other.record.startTs ≠ version.record.startTs →
      ¬ (prewrite.readTs < other.commitTs ∧ other.commitTs < version.commitTs) ∧
      ∀ (otherPrimary : K) (otherTtl : Nat) (others : List (TxnMutation K)),
        .prewrite other.record.startTs otherPrimary otherTtl others ∈ system.sent →
        ∀ otherMutation ∈ others, ∀ otherPrewrite : Prewrite K,
          otherMutation.request other.record.startTs otherPrimary otherTtl =
            some otherPrewrite → otherPrewrite.key = key →
          other.commitTs ≤ prewrite.readTs ∨ version.commitTs ≤ otherPrewrite.readTs := by
  intro other found changing foreign
  have invariant := reachable.invariant
  have ours := invariant.ordered member changes sent present asks here found changing foreign
  refine ⟨by omega, fun otherPrimary otherTtl others otherSent otherMutation among otherPrewrite
    otherAsks otherHere => ?_⟩
  have theirs := invariant.ordered found changing otherSent among otherAsks otherHere member
    changes foreign.symm
  omega

/-- The prewrite of a second transaction, which overwrites key `7`. -/
def againPrewrite : Request Nat := .prewrite 3 7 3000 [.put 7 [3] none]

/-- Transaction `3` has prewritten key `7` after transaction `1` committed. -/
def againPrepared : System Nat :=
  let begun := pairCommitted.entered 3 3 (.open none [])
  let called := begun.entered 3 3 (.prewriting 7 [] [[againPrewrite]])
  let asked := (called.send [againPrewrite]).enter 3 (.prewriting 7 [againPrewrite] [])
  asked.delivered againPrewrite

/-- It has drawn timestamp `4` and committed. -/
def againCommitted : System Nat :=
  let drawn := ({ againPrepared with clock := 4 }.send [.commit 3 4 [7]]).enter 3
    (.committing 7 [] [againPrewrite] 4)
  drawn.delivered (.commit 3 4 [7])

theorem againCommitted_run : Run pairCommitted againCommitted := by
  have shape : Prewrites 3 7 againPrewrite := ⟨3000, _, rfl, by decide⟩
  have begun : Step pairCommitted (pairCommitted.entered 3 3 (.open none [])) :=
    .begin _ (by decide : 2 < 3)
  have called : Step (pairCommitted.entered 3 3 (.open none []))
      ((pairCommitted.entered 3 3 (.open none [])).entered 3 3
        (.prewriting 7 [] [[againPrewrite]])) :=
    .commit rfl (by simp) (by simpa using shape)
  have prepared : Run pairCommitted againPrepared :=
    (((Relation.ReflTransGen.single begun).tail called).tail (.prewrite rfl (by simp))).tail
      (.deliver (.head _))
  have granted : ∀ earlier ∈ [againPrewrite], againPrepared.Accepted earlier := by
    simp only [List.mem_singleton, forall_eq]
    exact ⟨[.ok], .head _, by decide⟩
  have drawn : Step againPrepared (({ againPrepared with clock := 4 }.send
      [.commit 3 4 [7]]).enter 3 (.committing 7 [] [againPrewrite] 4)) :=
    .commitPrimary [] rfl granted (by decide)
  exact (prepared.tail drawn).tail (.deliver (.head _))

theorem againCommitted_reachable : Reachable againCommitted :=
  pairCommitted_reachable.trans againCommitted_run

/-- Two transactions wrote key `7`: the second, from the snapshot at `3`, has the commit of
the first at `2` in its snapshot. -/
theorem first_committer_wins_pair :
    (⟨2, ⟨.put, 1, some [1]⟩⟩ : Version) ∈ (againCommitted.store.get 7).writes ∧
      (⟨4, ⟨.put, 3, some [3]⟩⟩ : Version) ∈ (againCommitted.store.get 7).writes ∧
      ¬ (3 < 2 ∧ 2 < 4) ∧ (2 ≤ 3 ∨ 4 ≤ 1) := by
  have first : (⟨2, ⟨.put, 1, some [1]⟩⟩ : Version) ∈ (againCommitted.store.get 7).writes := by
    decide
  have second : (⟨4, ⟨.put, 3, some [3]⟩⟩ : Version) ∈ (againCommitted.store.get 7).writes := by
    decide
  have asked : pairPrewrite ∈ againCommitted.sent := by decide
  have askedAgain : againPrewrite ∈ againCommitted.sent := by decide
  have asks : (TxnMutation.put 7 [1] none).request 1 7 3000 =
      some ⟨7, 7, 1, 1, 3000, .put [1]⟩ := rfl
  have asksAgain : (TxnMutation.put 7 [3] none).request 3 7 3000 =
      some ⟨7, 7, 3, 3, 3000, .put [3]⟩ := rfl
  have wins := first_committer_wins againCommitted_reachable second rfl askedAgain (.head _)
    asksAgain rfl _ first rfl (by decide)
  exact ⟨first, second, wins.1, wins.2 7 3000 _ asked _ (.head _) _ asks rfl⟩

/-! ## Snapshot reads are stable -/

/-- What a read at `ts` rests on: the versions answer it, and no write lock will commit at
or below `ts`. -/
structure Stable (system : System K) (key : K) (ts : Nat) (answer : ReadOutcome K) : Prop where
  handed : ts ≤ system.clock
  writes : readWrites (system.store.get key) ts = .ok answer
  locks : ∀ lock, (system.store.get key).lock = some lock → lock.kind ≠ .lock →
    ∀ commitTs, (system.phases lock.startTs).commitTs = some commitTs → ts < commitTs

omit [LinearOrder K] in
theorem readWrites_congr (writes : newestVersionAt after ts = newestVersionAt cell ts)
    (values : ∀ version ∈ cell.writes,
      after.getValue version.record.startTs = cell.getValue version.record.startTs) :
    readWrites after ts = readWrites cell ts := by
  unfold readWrites
  rw [writes]
  cases found : newestVersionAt cell ts with
  | none => rfl
  | some version =>
    simp only [valueOf, values version (List.mem_of_find?_eq_some found)]

theorem CellSound.stable (sound : CellSound system cell) (inv : Invariant system)
    {change : Change K} (permitted : Permitted system key change) (moved : cell.Moves after change)
    (locks : ∀ lock, cell.lock = some lock → lock.kind ≠ .lock →
      ∀ commitTs, (system.phases lock.startTs).commitTs = some commitTs → ts < commitTs) :
    readWrites after ts = readWrites cell ts ∧
    ∀ lock, after.lock = some lock → lock.kind ≠ .lock →
      ∀ commitTs, (system.phases lock.startTs).commitTs = some commitTs → ts < commitTs := by
  have filed := sound.filed inv
  cases moved with
  | @placed _ request unrecorded unbeaten free lock writes values =>
    refine ⟨readWrites_congr (by simp only [newestVersionAt, writes]) ?_, ?_⟩
    · intro version mem
      refine values _ fun same => ?_
      have above := filed version mem
      rw [same] at above
      exact unrecorded version mem above same
    · intro other found write commitTs drawn
      cases lock.symm.trans found
      exact absurd ((permitted.2 write).symm.trans drawn) (by simp)
  | @committed lock commitTs held =>
    refine ⟨readWrites_congr (find_insertVersion ?_ ?_) fun _ _ => rfl, by simp⟩
    · -- A write commits above `ts`, and a lock record is no version.
      by_cases check : lock.kind = .lock
      · simp [LockRecord.committedAt, Version.isAVersion, check, Kind.isAVersion]
      · have above := locks lock held check commitTs permitted.1
        simp [LockRecord.committedAt, Nat.not_le.mpr above]
    · intro other mem same
      exact absurd same (sound.commit_fresh inv held permitted.1 other mem)
  | @marked _ startTs unrecorded lock writes values =>
    refine ⟨readWrites_congr ?_ ?_, ?_⟩
    · unfold newestVersionAt
      rw [writes]
      refine find_insertVersion (by simp [Version.isAVersion, Esker.Txn.marker,
        WriteRecord.rollback, Kind.isAVersion]) fun other mem same => ?_
      exact absurd same (sound.marker_fresh inv permitted.1 unrecorded other mem)
    · intro version mem
      refine values _ fun same => ?_
      have above := filed version mem
      rw [same] at above
      exact unrecorded version mem above same
    · intro other found
      rw [lock, Option.filter_eq_some_iff] at found
      exact locks other found.1
  | @extended lock ttlMs held =>
    refine ⟨rfl, fun other found write => ?_⟩
    cases found
    exact locks lock held write

theorem Stable.step {key : K} {ts : Nat} {answer : ReadOutcome K} {next : System K}
    (stable : Stable system key ts answer) (inv : Invariant system)
    (step : Step system next) : Stable next key ts answer := by
  rcases inv.step_cases step with proceeds | ⟨request, sent, rfl⟩
  · have advances := proceeds.advances
    refine ⟨stable.handed.trans advances.clock, advances.store ▸ stable.writes, ?_⟩
    intro lock held write commitTs drawn
    rw [advances.store] at held
    rcases advances.fresh _ _ drawn with before | above
    · exact stable.locks lock held write commitTs before
    · exact stable.handed.trans_lt above
  · rcases inv.moves (inv.legit request sent) key with same | ⟨change, moved, permitted⟩
    · exact ⟨stable.handed, by rw [same]; exact stable.writes, by rw [same]; exact stable.locks⟩
    obtain ⟨reads, locks⟩ :=
      (inv.cells key).stable inv permitted moved stable.locks
    exact ⟨stable.handed, reads.trans stable.writes, locks⟩

theorem Stable.run (stable : Stable system key ts answer) (inv : Invariant system)
    (run : Run system last) : Stable last key ts answer := by
  induction run with
  | refl => exact stable
  | tail earlier step ih =>
    exact ih.step (inv.run earlier) step

/-- A commit timestamp above `ts`, or not drawn while `ts` was handed out, stays above. -/
theorem Invariant.commitTs_above (inv : Invariant system) {startTs : Nat}
    (handed : ts ≤ system.clock)
    (above : ∀ commitTs, (system.phases startTs).commitTs = some commitTs → ts < commitTs)
    (run : Run system last) :
    ∀ commitTs, (last.phases startTs).commitTs = some commitTs → ts < commitTs := by
  suffices both : ts ≤ last.clock ∧
      ∀ commitTs, (last.phases startTs).commitTs = some commitTs → ts < commitTs from both.2
  induction run with
  | refl => exact ⟨handed, above⟩
  | tail earlier step ih =>
    obtain ⟨handed, above⟩ := ih
    rcases (inv.run earlier).step_cases step with proceeds | ⟨request, _, rfl⟩
    · refine ⟨handed.trans proceeds.advances.clock, fun commitTs drawn => ?_⟩
      rcases proceeds.advances.fresh _ _ drawn with before | fresh
      · exact above commitTs before
      · exact handed.trans_lt fresh
    · exact ⟨handed, above⟩

theorem stable_of_read {first : System K} (reachable : Reachable first) (handed : ts ≤ first.clock)
    (answered : read (first.store.get key) ts = .ok answer)
    (unlocked : ∀ lock, answer ≠ .locked lock) : Stable first key ts answer := by
  have inv := reachable.invariant
  refine ⟨handed, ?_, fun lock held write commitTs drawn => ?_⟩
  · unfold read at answered
    split at answered
    · split at answered
      · cases answered
        exact absurd rfl (unlocked _)
      · exact answered
    · exact answered
  · -- Only a lock that starts above `ts` was let through.
    by_cases below : lock.startTs ≤ ts
    · simp only [read, held, below, write, ne_eq, not_false_eq_true, and_self, if_true,
        Except.ok.injEq] at answered
      exact absurd answered.symm (unlocked lock)
    · have above := (inv.drawn _ _ drawn).1
      omega

/-- An answered snapshot read gets the same answer for ever, but for a lock of a transaction
that, if it commits at all, commits above the snapshot. -/
theorem snapshot_read_stable {first last : System K} (reachable : Reachable first) {key : K}
    {ts : Nat} (handed : ts ≤ first.clock) {answer : ReadOutcome K}
    (answered : read (first.store.get key) ts = .ok answer)
    (unlocked : ∀ lock, answer ≠ .locked lock) (run : Run first last) :
    read (last.store.get key) ts = .ok answer ∨
    ∃ lock, read (last.store.get key) ts = .ok (.locked lock) ∧
      ∀ final commitTs, Run last final →
        (final.phases lock.startTs).commitTs = some commitTs → ts < commitTs := by
  have invariant := reachable.invariant
  have stable := stable_of_read reachable handed answered unlocked
  have later := stable.run invariant run
  unfold read
  split
  · rename_i lock held
    split
    · rename_i blocking
      refine .inr ⟨lock, rfl, fun final commitTs rest => ?_⟩
      exact (invariant.run run).commitTs_above later.handed
        (later.locks lock held blocking.2) rest commitTs
    · exact .inl later.writes
  · exact .inl later.writes

/-- Key `7` of the run above read at `2`, and read again after another transaction overwrote it. -/
theorem snapshot_read_stable_pair :
    read (pairCommitted.store.get 7) 2 = .ok (.value [1]) ∧ Run pairCommitted againCommitted ∧
      read (againCommitted.store.get 7) 4 = .ok (.value [3]) ∧
      read (againCommitted.store.get 7) 2 = .ok (.value [1]) := by
  have answered : read (pairCommitted.store.get 7) 2 = .ok (.value [1]) := by decide
  refine ⟨answered, againCommitted_run, by decide, ?_⟩
  rcases snapshot_read_stable pairCommitted_reachable (by decide) answered (by simp)
    againCommitted_run with same | ⟨lock, locked, _⟩
  · exact same
  · rw [show read (againCommitted.store.get 7) 2 = .ok (.value [1]) by decide] at locked
    cases locked

end System

end Esker.Txn
