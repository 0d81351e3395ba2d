import Esker.Txn.System

/-!
Contract: what holds in every state of every run of the transaction system.

Owns: `System.Invariant` with its parts, and its preservation by every step.

The argument is about one cell at a time. A record is never overwritten, because
timestamps are handed out once; so what a request was sent on the strength of stays true
while it waits, and what an answer said stays true after it.
-/

namespace Esker.Txn

/-- What an accepted prewrite of a key leaves there: the lock, with no later change by
another transaction, or a record that no such change precedes. -/
def Cell.Held {K : Type} (cell : Cell K) (request : Prewrite K) : Prop :=
  (∃ lock, cell.lock = some lock ∧ lock.startTs = request.startTs ∧
    (request.op.kind ≠ .lock → lock.kind ≠ .lock) ∧
    cell.Unbeaten request.startTs request.readTs) ∨
  ∃ version ∈ cell.writes, version.record.startTs = request.startTs ∧
    (version.record.kind = .rollback ∨
      ∀ other ∈ cell.writes, other.isAVersion → other.record.startTs ≠ request.startTs →
        other.commitTs ≤ request.readTs ∨ version.commitTs < other.commitTs)

namespace System

variable {K : Type} [LinearOrder K] (system : System K)

/-- The transaction can never commit: its client gave up before drawing a timestamp, or its
primary carries the marker. -/
def Dead (startTs : Nat) : Prop :=
  (∃ primary, system.phases startTs = .aborted primary) ∨
  ∃ primary, (system.phases startTs).primary = some primary ∧
    (system.store.get primary).RolledBack startTs

def Decided (startTs commitTs : Nat) : Prop :=
  ∃ primary, (system.phases startTs).primary = some primary ∧
    (system.store.get primary).Committed startTs commitTs

/-- What the lock and the records of one key have to do with the transactions. -/
structure CellSound (system : System K) (cell : Cell K) : Prop where
  lockPrimary : ∀ lock, cell.lock = some lock →
    (system.phases lock.startTs).primary = some lock.primary
  lockKind : ∀ lock, cell.lock = some lock → lock.kind ≠ .rollback
  lockUnsettled : ∀ lock, cell.lock = some lock →
    ∀ version ∈ cell.writes, version.record.startTs ≠ lock.startTs
  /-- A write locked before its commit timestamp was drawn commits above every record. -/
  lockNewest : ∀ lock, cell.lock = some lock → lock.kind ≠ .lock →
    ∀ commitTs, (system.phases lock.startTs).commitTs = some commitTs →
      ∀ version ∈ cell.writes, version.record.kind ≠ .rollback → version.commitTs < commitTs
  marker : ∀ version ∈ cell.writes, version.record.kind = .rollback →
    version.commitTs = version.record.startTs ∧
      system.phases version.record.startTs ≠ .idle ∧ system.Dead version.record.startTs
  commit : ∀ version ∈ cell.writes, version.record.kind ≠ .rollback →
    (system.phases version.record.startTs).commitTs = some version.commitTs ∧
      system.Decided version.record.startTs version.commitTs
  exclusive : ∀ version ∈ cell.writes, ∀ other ∈ cell.writes,
    version.record.startTs = other.record.startTs → version.record.kind = .rollback →
      other.record.kind = .rollback

def Legit : Request K → Prop
  | .prewrite startTs primary ttlMs mutations =>
    (system.phases startTs).primary = some primary ∧
    (mutations.filterMap TxnMutation.target).Nodup ∧
    ∀ asked, (system.phases startTs).asked = some asked →
      .prewrite startTs primary ttlMs mutations ∈ asked
  | .commit startTs commitTs keys =>
    keys.Nodup ∧ (system.phases startTs).commitTs = some commitTs ∧
    ((∃ primary, (system.phases startTs).primary = some primary ∧ keys = [primary]) ∨
      system.Decided startTs commitTs)
  | .rollback startTs keys =>
    keys.Nodup ∧ system.phases startTs ≠ .idle ∧
    ((∃ primary, (system.phases startTs).primary = some primary ∧ keys = [primary]) ∨
      system.Dead startTs)
  | .resolveLock startTs commitTs keys =>
    keys.Nodup ∧ system.phases startTs ≠ .idle ∧
    if commitTs = 0 then system.Dead startTs
    else (system.phases startTs).commitTs = some commitTs ∧ system.Decided startTs commitTs
  | .heartbeat _ _ _ => True
  | .releaseLock _ _ => False

def Truthful : Request K → Response K → Prop
  | .prewrite startTs primary ttlMs mutations, .prewrite statuses =>
    (∀ status ∈ statuses, status = .ok) → ∀ mutation ∈ mutations, ∀ request,
      mutation.request startTs primary ttlMs = some request →
        (system.store.get request.key).Held request
  | .commit startTs commitTs keys, .commit .ok =>
    ∀ key ∈ keys, (system.store.get key).Committed startTs commitTs
  | .rollback startTs keys, .rollback status =>
    (status = .ok ∧ ∀ key ∈ keys, (system.store.get key).RolledBack startTs) ∨
    ∃ commitTs, status = .committed commitTs ∧
      ∃ key ∈ keys, (system.store.get key).Committed startTs commitTs
  | _, _ => True

structure Invariant (system : System K) : Prop where
  handedOut : ∀ startTs, system.phases startTs ≠ .idle → startTs ≤ system.clock
  drawn : ∀ startTs commitTs, (system.phases startTs).commitTs = some commitTs →
    startTs < commitTs ∧ commitTs ≤ system.clock ∧ system.phases commitTs = .idle
  drawnOnce : ∀ first second commitTs, (system.phases first).commitTs = some commitTs →
    (system.phases second).commitTs = some commitTs → first = second
  granted : ∀ startTs commitTs, (system.phases startTs).commitTs = some commitTs →
    ∀ asked, (system.phases startTs).asked = some asked →
      ∀ request ∈ asked, system.Accepted request
  batched : ∀ startTs primary asked batches,
    system.phases startTs = .prewriting primary asked batches →
      ∀ batch ∈ batches, ∀ request ∈ batch, Prewrites startTs primary request
  cells : ∀ key, CellSound system (system.store.get key)
  legit : ∀ request ∈ system.sent, system.Legit request
  truthful : ∀ exchange ∈ system.answered, system.Truthful exchange.1 exchange.2

/-! ## One cell -/

variable {commitTs startTs : Nat} {key : K} {change : Change K} {version : Version}

section Cells

variable {system : System K} {cell after : Cell K}

theorem CellSound.filed (sound : CellSound system cell) (inv : Invariant system) : cell.Filed := by
  intro version mem
  by_cases dead : version.record.kind = .rollback
  · exact (sound.marker version mem dead).1.ge
  · exact (inv.drawn _ _ (sound.commit version mem dead).1).1.le

def Permitted (system : System K) (key : K) : Change K → Prop
  | .placed request =>
    (system.phases request.startTs).primary = some request.primary ∧
    (request.op.kind ≠ .lock → (system.phases request.startTs).commitTs = none)
  | .committed startTs commitTs =>
    (system.phases startTs).commitTs = some commitTs ∧
    ((system.phases startTs).primary = some key ∨ system.Decided startTs commitTs)
  | .marked startTs =>
    system.phases startTs ≠ .idle ∧
    ((system.phases startTs).primary = some key ∨ system.Dead startTs)
  | .extended => True

theorem CellSound.mono (sound : CellSound system cell) {next : System K}
    (phases : next.phases = system.phases)
    (dead : ∀ startTs, system.Dead startTs → next.Dead startTs)
    (decided : ∀ startTs commitTs, system.Decided startTs commitTs →
      next.Decided startTs commitTs) : CellSound next cell where
  lockPrimary := phases ▸ sound.lockPrimary
  lockKind := sound.lockKind
  lockUnsettled := sound.lockUnsettled
  lockNewest := phases ▸ sound.lockNewest
  marker version mem rolled := by
    obtain ⟨filed, begun, lost⟩ := sound.marker version mem rolled
    exact ⟨filed, phases ▸ begun, dead _ lost⟩
  commit version mem kept := by
    obtain ⟨drawn, won⟩ := sound.commit version mem kept
    exact ⟨phases ▸ drawn, decided _ _ won⟩
  exclusive := sound.exclusive

section

variable (sound : CellSound system cell) (inv : Invariant system)
include sound inv

theorem CellSound.commit_fresh {lock : LockRecord K} (held : cell.lock = some lock)
    (drawn : (system.phases lock.startTs).commitTs = some commitTs) :
    ∀ version ∈ cell.writes, version.commitTs ≠ commitTs := by
  intro version mem same
  by_cases dead : version.record.kind = .rollback
  · obtain ⟨filed, begun, _⟩ := sound.marker version mem dead
    rw [← filed, same] at begun
    exact begun (inv.drawn _ _ drawn).2.2
  have own := (sound.commit version mem dead).1
  rw [same] at own
  exact sound.lockUnsettled lock held version mem (inv.drawnOnce _ _ _ own drawn)

theorem CellSound.marker_fresh (begun : system.phases startTs ≠ .idle)
    (unrecorded : cell.Unrecorded startTs) :
    ∀ version ∈ cell.writes, version.commitTs ≠ startTs := by
  intro version mem same
  by_cases dead : version.record.kind = .rollback
  · exact unrecorded version mem same.ge ((sound.marker version mem dead).1.symm.trans same)
  have own := (sound.commit version mem dead).1
  rw [same] at own
  exact begun (inv.drawn _ _ own).2.2

section

variable (permitted : Permitted system key change)
include permitted

section

variable (moved : cell.Moves after change)
include moved

theorem CellSound.keeps (mem : version ∈ cell.writes) : version ∈ after.writes := by
  cases moved with
  | placed unrecorded unbeaten free lock writes values => exact writes ▸ mem
  | committed held =>
    exact insertVersion_keeps mem (sound.commit_fresh inv held permitted.1 version mem)
  | marked unrecorded lock writes values =>
    rw [writes]
    exact insertVersion_keeps mem (sound.marker_fresh inv permitted.1 unrecorded version mem)
  | extended held => exact mem

theorem CellSound.held {request : Prewrite K} (holds : cell.Held request) : after.Held request := by
  rcases holds with ⟨lock, present, own, kind, unbeaten⟩ | ⟨version, mem, own, ahead⟩
  · cases moved with
    | @placed _ other unrecorded _ free lock' writes values =>
      obtain ⟨same, _, upgrade⟩ := free lock present
      refine .inl ⟨other.lock, lock', same.symm.trans own, fun _ => upgrade, ?_⟩
      exact fun version mem => unbeaten version (writes ▸ mem)
    | @committed held commitTs here =>
      cases present.symm.trans here
      refine .inr ⟨lock.committedAt commitTs, insertVersion_self _ _, own, .inr ?_⟩
      intro other found changes foreign
      rcases mem_insertVersion found with rfl | old
      · exact absurd own foreign
      · exact .inl (unbeaten other old changes foreign)
    | @marked _ startTs unrecorded lock' writes values =>
      by_cases same : lock.startTs = startTs
      · refine .inr ⟨Esker.Txn.marker startTs, writes ▸ insertVersion_self _ _, ?_, .inl rfl⟩
        exact same.symm.trans own
      refine .inl ⟨lock, by simp [lock', present, Option.filter, same], own, kind, ?_⟩
      intro version found changes
      rcases mem_insertVersion (writes ▸ found) with rfl | old
      · cases changes
      · exact unbeaten version old changes
    | @extended held ttlMs here =>
      cases present.symm.trans here
      exact .inl ⟨{ lock with ttlMs }, rfl, own, kind, unbeaten⟩
  · refine .inr ⟨version, sound.keeps inv permitted moved mem, own, ?_⟩
    by_cases dead : version.record.kind = .rollback
    · exact .inl dead
    refine .inr fun other found changes foreign => ?_
    have ahead := ahead.resolve_left dead
    cases moved with
    | placed unrecorded unbeaten free lock writes values =>
      exact ahead other (writes ▸ found) changes foreign
    | @committed lock commitTs here =>
      rcases mem_insertVersion found with rfl | old
      · -- The newcomer's lock was there when its timestamp was drawn.
        have write : lock.kind ≠ .lock := fun check => by
          simp [Version.isAVersion, LockRecord.committedAt, check, Kind.isAVersion] at changes
        exact .inr (sound.lockNewest lock here write commitTs permitted.1 version mem dead)
      · exact ahead other old changes foreign
    | marked unrecorded lock writes values =>
      rcases mem_insertVersion (writes ▸ found) with rfl | old
      · cases changes
      · exact ahead other old changes foreign
    | extended here => exact ahead other found changes foreign

end

end

section Moving

variable (sound : CellSound system cell) (inv : Invariant system) {next : System K}
  (phases : next.phases = system.phases)
  (dead : ∀ startTs, system.Dead startTs → next.Dead startTs)
  (decided : ∀ startTs commitTs, system.Decided startTs commitTs →
    next.Decided startTs commitTs)
include sound inv phases dead decided

theorem CellSound.placed {request : Prewrite K}
    (permitted : Permitted system key (.placed request))
    (unrecorded : cell.Unrecorded request.startTs) (lock : after.lock = some request.lock)
    (writes : after.writes = cell.writes) : CellSound next after := by
  have later := sound.mono phases dead decided
  have filed := sound.filed inv
  refine
    { lockPrimary := fun other found => ?_
      lockKind := fun other found => ?_
      lockUnsettled := fun other found version mem same => ?_
      lockNewest := fun other found write commitTs drawn => ?_
      marker := writes ▸ later.marker
      commit := writes ▸ later.commit
      exclusive := writes ▸ sound.exclusive }
  all_goals cases lock.symm.trans found
  · exact phases ▸ permitted.1
  · change request.op.kind ≠ .rollback
    cases request.op <;> simp [Op.kind]
  · rw [writes] at mem
    have above := filed version mem
    rw [same] at above
    exact unrecorded version mem above same
  · rw [phases] at drawn
    exact absurd ((permitted.2 write).symm.trans drawn) (by simp)

omit inv in
theorem CellSound.committed {lock : LockRecord K}
    (permitted : Permitted system key (.committed lock.startTs commitTs))
    (held : cell.lock = some lock)
    (here : next.store.get key =
      ⟨none, insertVersion (lock.committedAt commitTs) cell.writes, cell.values⟩) :
    CellSound next ⟨none, insertVersion (lock.committedAt commitTs) cell.writes, cell.values⟩ := by
  have later := sound.mono phases dead decided
  obtain ⟨drawn, primary⟩ := permitted
  have own : next.Decided lock.startTs commitTs := by
    rcases primary with primary | won
    · refine ⟨key, phases ▸ primary, ?_⟩
      rw [here]
      exact ⟨lock.committedAt commitTs, insertVersion_self _ _, rfl, rfl,
        sound.lockKind lock held⟩
    · exact decided _ _ won
  refine
    { lockPrimary := fun other found => by cases found
      lockKind := fun other found => by cases found
      lockUnsettled := fun other found => by cases found
      lockNewest := fun other found => by cases found
      marker := fun version mem rolled => ?_
      commit := fun version mem kept => ?_
      exclusive := fun version mem other found same rolled => ?_ }
  all_goals rcases mem_insertVersion mem with rfl | old
  · exact absurd rolled (sound.lockKind lock held)
  · exact later.marker version old rolled
  · exact ⟨phases ▸ drawn, own⟩
  · exact later.commit version old kept
  · exact absurd rolled (sound.lockKind lock held)
  rcases mem_insertVersion found with rfl | older
  · exact absurd same (sound.lockUnsettled lock held version old)
  · exact sound.exclusive version old other older same rolled

theorem CellSound.marked (permitted : Permitted system key (.marked startTs))
    (unrecorded : cell.Unrecorded startTs)
    (lock : after.lock = cell.lock.filter fun lock => lock.startTs ≠ startTs)
    (writes : after.writes = insertVersion (Esker.Txn.marker startTs) cell.writes)
    (here : next.store.get key = after) : CellSound next after := by
  have later := sound.mono phases dead decided
  obtain ⟨begun, primary⟩ := permitted
  have filed := sound.filed inv
  have lost : next.Dead startTs := by
    rcases primary with primary | lost
    · refine .inr ⟨key, phases ▸ primary, ?_⟩
      rw [here]
      exact ⟨Esker.Txn.marker startTs, writes ▸ insertVersion_self _ _, rfl, rfl⟩
    · exact dead _ lost
  have kept : ∀ other, after.lock = some other →
      cell.lock = some other ∧ other.startTs ≠ startTs := by
    intro other found
    rw [lock, Option.filter_eq_some_iff] at found
    exact ⟨found.1, by simpa using found.2⟩
  have unsettled : ∀ version ∈ cell.writes, version.record.startTs ≠ startTs :=
    fun version mem same => unrecorded version mem (same ▸ filed version mem) same
  refine
    { lockPrimary := fun other found => later.lockPrimary other (kept other found).1
      lockKind := fun other found => sound.lockKind other (kept other found).1
      lockUnsettled := fun other found version mem => ?_
      lockNewest := fun other found write commitTs drawn version mem live => ?_
      marker := fun version mem rolled => ?_
      commit := fun version mem live => ?_
      exclusive := fun version mem other found same rolled => ?_ }
  all_goals rcases mem_insertVersion (writes ▸ mem) with rfl | old
  · exact (kept other found).2.symm
  · exact sound.lockUnsettled other (kept other found).1 version old
  · exact absurd rfl live
  · exact later.lockNewest other (kept other found).1 write commitTs drawn version old live
  · exact ⟨rfl, phases ▸ begun, lost⟩
  · exact later.marker version old rolled
  · exact absurd rfl live
  · exact later.commit version old live
  · rcases mem_insertVersion (writes ▸ found) with rfl | older
    · rfl
    · exact absurd same.symm (unsettled other older)
  rcases mem_insertVersion (writes ▸ found) with rfl | older
  · rfl
  · exact sound.exclusive version old other older same rolled

/-- A permitted change keeps the cell sound, in a system that knows at least as much. -/
theorem CellSound.moves (permitted : Permitted system key change)
    (moved : cell.Moves after change) (here : next.store.get key = after) :
    CellSound next after := by
  cases moved with
  | placed unrecorded unbeaten free lock writes values =>
    exact sound.placed inv phases dead decided permitted unrecorded lock writes
  | committed held => exact sound.committed phases dead decided permitted held here
  | marked unrecorded lock writes values =>
    exact sound.marked inv phases dead decided permitted unrecorded lock writes here
  | @extended lock ttlMs held =>
    have later := sound.mono phases dead decided
    refine
      { lockPrimary := fun other found => ?_
        lockKind := fun other found => ?_
        lockUnsettled := fun other found => ?_
        lockNewest := fun other found => ?_
        marker := later.marker
        commit := later.commit
        exclusive := sound.exclusive }
    all_goals cases found
    · exact later.lockPrimary lock held
    · exact sound.lockKind lock held
    · exact sound.lockUnsettled lock held
    · exact later.lockNewest lock held

end Moving

end

end Cells

/-! ## A delivery -/

section Delivery

variable {system : System K}

def delivered (system : System K) (request : Request K) : System K :=
  { system with
    store := (handle system.store request).2
    answered := (request, (handle system.store request).1) :: system.answered }

theorem Legit.distinct {request : Request K} (legit : system.Legit request) : request.Distinct := by
  cases request with
  | prewrite startTs primary ttlMs mutations => exact legit.2.1
  | commit | rollback | resolveLock => exact legit.1
  | releaseLock startTs keys => exact legit.elim
  | heartbeat startTs primary ttlMs => trivial

theorem Legit.keeping {request : Request K} (legit : system.Legit request) (startTs : Nat)
    (keys : List K) : request ≠ .releaseLock startTs keys := by
  rintro rfl
  exact legit

/-- Once its commit timestamp is drawn, every prewrite a transaction sent is accounted for. -/
theorem Invariant.held_of_drawn (inv : Invariant system) {ttlMs : Nat} {primary : K}
    {mutations : List (TxnMutation K)}
    (legit : system.Legit (.prewrite startTs primary ttlMs mutations))
    (drawn : (system.phases startTs).commitTs = some commitTs) {mutation : TxnMutation K}
    (mem : mutation ∈ mutations) {request : Prewrite K}
    (asks : mutation.request startTs primary ttlMs = some request) :
    (system.store.get request.key).Held request := by
  cases phase : system.phases startTs with
  | idle | «open» _ _ | prewriting _ _ _ | aborted _ => simp [phase, Phase.commitTs] at drawn
  | committing first secondaries asked found =>
    have asking : (system.phases startTs).asked = some asked := by rw [phase]; rfl
    obtain ⟨statuses, answer, ok⟩ := inv.granted startTs commitTs drawn asked asking _
      (legit.2.2 asked asking)
    exact inv.truthful _ answer ok mutation mem request asks

theorem Invariant.permitted (inv : Invariant system) {request : Request K}
    (legit : system.Legit request) {after : Cell K}
    (moved : (system.store.get key).Moves after change) (causes : request.Causes key change) :
    Permitted system key change := by
  cases request with
  | prewrite startTs primary ttlMs mutations =>
    cases change with
    | placed asked =>
      obtain ⟨rfl, mutation, mem, asks⟩ := causes
      have named : asked.startTs = startTs ∧ asked.primary = primary := by
        cases mutation <;> cases asks <;> exact ⟨rfl, rfl⟩
      refine ⟨by rw [named.1, named.2]; exact legit.1, fun write => ?_⟩
      cases drawn : (system.phases asked.startTs).commitTs with
      | none => rfl
      | some commitTs =>
        -- A write prewritten before the draw has left its lock or its record here.
        rw [named.1] at drawn
        have filed := (inv.cells asked.key).filed inv
        cases moved with
        | placed unrecorded unbeaten free lock writes values =>
          rcases inv.held_of_drawn legit drawn mem asks with
            ⟨lock, held, _, kind, _⟩ | ⟨version, found, own, _⟩
          · exact absurd (free lock held).2.1 (kind write)
          have above := filed version found
          rw [own] at above
          exact absurd own (unrecorded version found above)
    | committed | marked | extended => exact causes.elim
  | commit | rollback =>
    obtain ⟨mem, rfl⟩ := causes
    refine ⟨legit.2.1, legit.2.2.imp_left ?_⟩
    rintro ⟨primary, own, rfl⟩
    rw [own, List.mem_singleton.mp mem]
  | releaseLock startTs keys => exact legit.elim
  | resolveLock startTs commitTs keys =>
    obtain ⟨mem, rfl⟩ := causes
    obtain ⟨_, begun, verdict⟩ := legit
    split at verdict
    · rename_i zero
      rw [if_pos zero]
      exact ⟨begun, .inr verdict⟩
    rename_i positive
    rw [if_neg positive]
    exact ⟨verdict.1, .inr verdict.2⟩
  | heartbeat startTs primary ttlMs =>
    cases change with
    | extended => trivial
    | placed | committed | marked => exact causes.elim

variable {request : Request K}

section

variable (inv : Invariant system) (legit : system.Legit request)
include inv legit

theorem Invariant.moves (key : K) :
    (system.delivered request).store.get key = system.store.get key ∨
    ∃ change, (system.store.get key).Moves ((system.delivered request).store.get key) change ∧
      Permitted system key change := by
  refine (handle_moves ((inv.cells key).filed inv) legit.distinct).imp_right ?_
  rintro (⟨startTs, keys, isRelease, _⟩ | ⟨change, moved, causes⟩)
  · exact absurd isRelease (legit.keeping startTs keys)
  · exact ⟨change, moved, inv.permitted legit moved causes⟩

theorem Invariant.keeps (mem : version ∈ (system.store.get key).writes) :
    version ∈ ((system.delivered request).store.get key).writes := by
  rcases inv.moves legit key with same | ⟨change, moved, permitted⟩
  · exact same ▸ mem
  · exact (inv.cells key).keeps inv permitted moved mem

theorem Invariant.keeps_committed (committed : (system.store.get key).Committed startTs commitTs) :
    ((system.delivered request).store.get key).Committed startTs commitTs := by
  obtain ⟨version, mem, at_, own, kind⟩ := committed
  exact ⟨version, inv.keeps legit mem, at_, own, kind⟩

theorem Invariant.keeps_rolledBack (rolled : (system.store.get key).RolledBack startTs) :
    ((system.delivered request).store.get key).RolledBack startTs := by
  obtain ⟨version, mem, own, kind⟩ := rolled
  exact ⟨version, inv.keeps legit mem, own, kind⟩

theorem Invariant.keeps_held {prewrite : Prewrite K} (held : (system.store.get key).Held prewrite) :
    ((system.delivered request).store.get key).Held prewrite := by
  rcases inv.moves legit key with same | ⟨change, moved, permitted⟩
  · exact same ▸ held
  · exact (inv.cells key).held inv permitted moved held

end

theorem Invariant.keeps_dead (inv : Invariant system) (legit : system.Legit request)
    {startTs : Nat} (dead : system.Dead startTs) : (system.delivered request).Dead startTs :=
  dead.imp_right fun ⟨primary, own, rolled⟩ =>
    ⟨primary, own, inv.keeps_rolledBack legit rolled⟩

theorem Invariant.keeps_decided (inv : Invariant system) (legit : system.Legit request)
    {startTs commitTs : Nat} (decided : system.Decided startTs commitTs) :
    (system.delivered request).Decided startTs commitTs := by
  obtain ⟨primary, own, committed⟩ := decided
  exact ⟨primary, own, inv.keeps_committed legit committed⟩

theorem Invariant.cells_delivered (inv : Invariant system)
    (legit : system.Legit request) (key : K) :
    CellSound (system.delivered request) ((system.delivered request).store.get key) := by
  have sound := inv.cells key
  have dead := fun startTs => @Invariant.keeps_dead _ _ _ _ inv legit startTs
  have decided := fun startTs commitTs =>
    @Invariant.keeps_decided _ _ _ _ inv legit startTs commitTs
  rcases inv.moves legit key with same | ⟨change, moved, permitted⟩
  · rw [same]
    exact sound.mono rfl dead decided
  · exact sound.moves inv rfl dead decided permitted moved rfl

end Delivery

end System

end Esker.Txn
