import Esker.Txn.Invariant

/-!
Contract: every step keeps the invariant of the transaction system.

Owns: that the store's answers are true, and `System.Invariant.step` with its run lemma.
-/

namespace Esker.Txn

open List

namespace System

variable {K : Type} [LinearOrder K] {system : System K} {request : Request K}

/-! ## What the store answers -/

variable {key primary : K} {startTs commitTs clock : Nat} {keys : List K} {status : TxnStatus K}
  {other : Request K} {response : Response K} {phase : Phase K}

omit [LinearOrder K] in
theorem prewriteStatus_ok {decision : PrewriteDecision K} (ok : prewriteStatus key decision = .ok) :
    (∃ mutations, decision = .lock mutations) ∨ decision = .alreadyLocked := by
  cases decision with
  | lock mutations => exact .inl ⟨mutations, rfl⟩
  | alreadyLocked => exact .inr rfl
  | locked _ | conflict _ | rolledBack => cases ok

theorem Invariant.prewrite_answer (invariant : Invariant system) {ttlMs : Nat}
    {mutations : List (TxnMutation K)}
    (legit : system.Legit (.prewrite startTs primary ttlMs mutations))
    (accepted : ∀ mutation ∈ mutations,
      (prewriteOne system.store startTs primary ttlMs mutation).1 = .ok) {mutation : TxnMutation K}
    (mem : mutation ∈ mutations) {request : Prewrite K}
    (asks : mutation.request startTs primary ttlMs = some request) :
    ((prewrite system.store startTs primary ttlMs mutations).2.get request.key).Held
      request := by
  have sound := invariant.cells request.key
  have filed := sound.filed invariant
  have named : request.startTs = startTs := by
    cases mutation <;> cases asks <;> rfl
  rw [prewrite_get legit.2.1 mem asks accepted]
  have status := accepted mutation mem
  rw [(prewriteOne_of_request system.store asks).1] at status
  rcases prewriteStatus_ok status with ⟨staged, decision⟩ | decision
  · obtain ⟨lock, writes, unbeaten⟩ := (moves_of_lock filed decision).of_placed
    have staging : (prewriteKey system.store request).2.map Prod.snd = staged := by
      simp [prewriteKey, decision, map_map, Function.comp_def]
    rw [staging]
    refine .inl ⟨request.lock, lock, rfl, fun write => write, ?_⟩
    exact fun version found => unbeaten version (writes ▸ found)
  · have staging : (prewriteKey system.store request).2 = [] := by
      simp [prewriteKey, decision]
    rw [staging]
    change (system.store.get request.key).Held request
    cases recorded : (system.store.get request.key).writeOfTxn request.startTs with
    | some ours =>
      have hit := find?_some recorded
      have present := mem_of_find?_eq_some recorded
      simp only [Bool.and_eq_true, decide_eq_true_eq] at hit
      have live : ours.record.kind ≠ .rollback := fun dead => by
        simp [checkPrewrite, recorded, dead] at decision
      -- Its own commit record: the timestamp is drawn, so this prewrite was accepted before.
      have drawn := (sound.commit ours present live).1
      rw [hit.2, named] at drawn
      exact invariant.held_of_drawn legit drawn mem asks
    | none =>
      obtain ⟨reached, unbeaten⟩ := checkPrewrite_reaches filed recorded
        (fun commitTs lost => by rw [decision] at lost; cases lost)
      rw [reached] at decision
      unfold checkLock at decision
      split at decision
      · rename_i lock held
        split at decision
        · cases decision
        rename_i own
        push Not at own
        split at decision
        · rename_i kind
          exact .inl ⟨lock, held, own, fun write => kind.resolve_left write, unbeaten⟩
        · cases decision
      · cases decision

theorem Invariant.commit_answer (invariant : Invariant system)
    (legit : system.Legit (.commit startTs commitTs keys))
    (ok : (commit system.store startTs commitTs keys).1 = .commit .ok) (mem : key ∈ keys) :
    ((commit system.store startTs commitTs keys).2.get key).Committed startTs commitTs := by
  unfold commit at ok ⊢
  split at ok
  · rename_i error _
    simp only [Response.commit.injEq] at ok
    cases error <;> cases ok
  rename_i staged decided
  obtain ⟨each, rfl⟩ := decideAll_ok decided
  dsimp only
  obtain ⟨mutations, chosen⟩ := each key mem
  rw [stage_each legit.1, if_pos mem, chosen]
  rcases commitOne_cases chosen with ⟨lock, held, own, rfl⟩ | ⟨rfl, committed⟩
  · exact ⟨lock.committedAt commitTs, insertVersion_self _ _, rfl, own,
      (invariant.cells key).lockKind lock held⟩
  · exact committed

theorem rollback_answer {store : Store K} (distinct : keys.Nodup)
    (answer : (rollbackKeys store startTs keys).1 = .rollback status) : (status = .ok ∧
      ∀ key ∈ keys, ((rollbackKeys store startTs keys).2.get key).RolledBack startTs) ∨
    ∃ commitTs, status = .committed commitTs ∧
      ∃ key ∈ keys, ((rollbackKeys store startTs keys).2.get key).Committed startTs commitTs := by
  unfold rollbackKeys at answer ⊢
  cases decided : decideAll (fun key => rollback (store.get key) startTs) keys with
  | error error =>
    rw [decided] at answer
    cases answer
    obtain ⟨key, mem, refused⟩ := decideAll_error decided
    obtain ⟨commitTs, rfl, committed⟩ := rollback_refused refused
    exact .inr ⟨commitTs, rfl, key, mem, committed⟩
  | ok staged =>
    rw [decided] at answer
    cases answer
    obtain ⟨each, rfl⟩ := decideAll_ok decided
    refine .inl ⟨rfl, fun key mem => ?_⟩
    obtain ⟨mutations, chosen⟩ := each key mem
    dsimp only at chosen ⊢
    rw [stage_each distinct, if_pos mem, chosen]
    rcases rollback_cases chosen with ⟨rfl, rolled⟩ | moved
    · exact rolled
    · exact moved.of_marked

section

variable (invariant : Invariant system) (legit : system.Legit request)
include invariant legit

theorem Invariant.truthful_answer :
    (system.delivered request).Truthful request (handle system.store request).1 := by
  cases request with
  | prewrite startTs primary ttlMs mutations =>
    intro ok mutation mem asked asks
    refine invariant.prewrite_answer legit (fun other present => ok _ ?_) mem asks
    simp only [map_map, mem_map, Function.comp_apply]
    exact ⟨other, present, rfl⟩
  | commit startTs commitTs keys =>
    cases answer : (handle system.store (.commit startTs commitTs keys)).1 with
    | commit status =>
      cases status with
      | ok => exact fun key mem => invariant.commit_answer legit answer mem
      | conflict _ | rolledBack | committed _ | lockNotFound | locked _ => trivial
    | prewrite _ | rollback _ | releaseLock _ | resolveLock _ | heartbeat _ => trivial
  | rollback startTs keys =>
    cases answer : (handle system.store (.rollback startTs keys)).1 with
    | rollback status => exact rollback_answer legit.1 answer
    | prewrite _ | commit _ | releaseLock _ | resolveLock _ | heartbeat _ => trivial
  | releaseLock startTs keys => exact legit.elim
  | resolveLock startTs commitTs keys => trivial
  | heartbeat startTs primary ttlMs =>
    cases (handle system.store (.heartbeat startTs primary ttlMs)).1 <;> trivial

theorem Invariant.legit_delivered (earlier : system.Legit other) :
    (system.delivered request).Legit other := by
  cases other with
  | prewrite startTs primary ttlMs mutations => exact earlier
  | commit startTs commitTs keys =>
    exact ⟨earlier.1, earlier.2.1, earlier.2.2.imp_right (invariant.keeps_decided legit)⟩
  | rollback startTs keys =>
    exact ⟨earlier.1, earlier.2.1, earlier.2.2.imp_right (invariant.keeps_dead legit)⟩
  | releaseLock startTs keys => exact earlier.elim
  | resolveLock startTs commitTs keys =>
    obtain ⟨distinct, begun, verdict⟩ := earlier
    refine ⟨distinct, begun, ?_⟩
    split at verdict
    · rename_i zero
      rw [if_pos zero]
      exact invariant.keeps_dead legit verdict
    rename_i positive
    rw [if_neg positive]
    exact ⟨verdict.1, invariant.keeps_decided legit verdict.2⟩
  | heartbeat startTs primary ttlMs => trivial

theorem Invariant.truthful_delivered (earlier : system.Truthful other response) :
    (system.delivered request).Truthful other response := by
  cases other with
  | prewrite startTs primary ttlMs mutations =>
    cases response with
    | prewrite statuses =>
      intro ok mutation mem asked asks
      exact invariant.keeps_held legit (earlier ok mutation mem asked asks)
    | commit _ | rollback _ | releaseLock _ | resolveLock _ | heartbeat _ => trivial
  | commit startTs commitTs keys =>
    cases response with
    | commit status =>
      cases status with
      | ok => exact fun key mem => invariant.keeps_committed legit (earlier key mem)
      | conflict _ | rolledBack | committed _ | lockNotFound | locked _ => trivial
    | prewrite _ | rollback _ | releaseLock _ | resolveLock _ | heartbeat _ => trivial
  | rollback startTs keys =>
    cases response with
    | rollback status =>
      rcases earlier with ⟨ok, rolled⟩ | ⟨commitTs, refused, key, mem, committed⟩
      · exact .inl ⟨ok, fun key mem => invariant.keeps_rolledBack legit (rolled key mem)⟩
      · exact .inr ⟨commitTs, refused, key, mem, invariant.keeps_committed legit committed⟩
    | prewrite _ | commit _ | releaseLock _ | resolveLock _ | heartbeat _ => trivial
  | releaseLock startTs keys | resolveLock startTs commitTs keys | heartbeat startTs primary ttlMs =>
    cases response <;> trivial

end

theorem Invariant.deliver (invariant : Invariant system) (sent : request ∈ system.sent) :
    Invariant (system.delivered request) := by
  have legit := invariant.legit request sent
  refine
    { handedOut := invariant.handedOut
      drawn := invariant.drawn
      drawnOnce := invariant.drawnOnce
      granted := fun startTs commitTs drawn asked asking earlier mem => ?_
      batched := invariant.batched
      cells := invariant.cells_delivered legit
      legit := fun other present => invariant.legit_delivered legit (invariant.legit other present)
      truthful := fun exchange mem => ?_ }
  · obtain ⟨statuses, answer, ok⟩ :=
      invariant.granted startTs commitTs drawn asked asking earlier mem
    exact ⟨statuses, .tail _ answer, ok⟩
  rcases mem_cons.mp mem with rfl | earlier
  · exact invariant.truthful_answer legit
  · exact invariant.truthful_delivered legit (invariant.truthful exchange earlier)

/-! ## What the clients do -/

/-- What a step of a client or the oracle keeps: the store and the answers, and what is
known of every transaction. -/
structure Advances (system next : System K) : Prop where
  store : next.store = system.store
  answered : next.answered = system.answered
  clock : system.clock ≤ next.clock
  primary : ∀ startTs primary, (system.phases startTs).primary = some primary →
    (next.phases startTs).primary = some primary
  commitTs : ∀ startTs commitTs, (system.phases startTs).commitTs = some commitTs →
    (next.phases startTs).commitTs = some commitTs
  fresh : ∀ startTs commitTs, (next.phases startTs).commitTs = some commitTs →
    (system.phases startTs).commitTs = some commitTs ∨ system.clock < commitTs
  begun : ∀ startTs, system.phases startTs ≠ .idle → next.phases startTs ≠ .idle
  aborted : ∀ startTs primary, system.phases startTs = .aborted primary →
    next.phases startTs = .aborted primary
  asked : ∀ startTs primary, (system.phases startTs).primary = some primary →
    ∀ later, (next.phases startTs).asked = some later →
      ∃ asked, (system.phases startTs).asked = some asked ∧ ∀ request ∈ asked, request ∈ later

variable {next : System K}

section

variable (advances : Advances system next)
include advances

theorem Advances.dead (dead : system.Dead startTs) : next.Dead startTs := by
  rcases dead with ⟨primary, aborted⟩ | ⟨primary, own, rolled⟩
  · exact .inl ⟨primary, advances.aborted _ _ aborted⟩
  · exact .inr ⟨primary, advances.primary _ _ own, advances.store ▸ rolled⟩

theorem Advances.decided (decided : system.Decided startTs commitTs) :
    next.Decided startTs commitTs := by
  obtain ⟨primary, own, committed⟩ := decided
  exact ⟨primary, advances.primary _ _ own, advances.store ▸ committed⟩

theorem Advances.cellSound (invariant : Invariant system) (key : K) :
    CellSound next (next.store.get key) := by
  have sound := invariant.cells key
  rw [advances.store]
  refine
    { lockPrimary := fun lock held => advances.primary _ _ (sound.lockPrimary lock held)
      lockKind := sound.lockKind
      lockUnsettled := sound.lockUnsettled
      lockNewest := fun lock held write commitTs drawn version mem live => ?_
      marker := fun version mem rolled => ?_
      commit := fun version mem live => ?_
      exclusive := sound.exclusive }
  · rcases advances.fresh _ _ drawn with before | above
    · exact sound.lockNewest lock held write commitTs before version mem live
    · exact (invariant.drawn _ _ (sound.commit version mem live).1).2.1.trans_lt above
  · obtain ⟨filedAt, begun, lost⟩ := sound.marker version mem rolled
    exact ⟨filedAt, advances.begun _ begun, advances.dead lost⟩
  · obtain ⟨drawn, won⟩ := sound.commit version mem live
    exact ⟨advances.commitTs _ _ drawn, advances.decided won⟩

theorem Advances.legit (earlier : system.Legit other) : next.Legit other := by
  cases other with
  | prewrite startTs primary ttlMs mutations =>
    refine ⟨advances.primary _ _ earlier.1, earlier.2.1, fun later asking => ?_⟩
    obtain ⟨asked, before, remembered⟩ := advances.asked _ _ earlier.1 later asking
    exact remembered _ (earlier.2.2 asked before)
  | commit startTs commitTs keys =>
    refine ⟨earlier.1, advances.commitTs _ _ earlier.2.1, ?_⟩
    rcases earlier.2.2 with ⟨primary, own, only⟩ | decided
    · exact .inl ⟨primary, advances.primary _ _ own, only⟩
    · exact .inr (advances.decided decided)
  | rollback startTs keys =>
    refine ⟨earlier.1, advances.begun _ earlier.2.1, ?_⟩
    rcases earlier.2.2 with ⟨primary, own, only⟩ | dead
    · exact .inl ⟨primary, advances.primary _ _ own, only⟩
    · exact .inr (advances.dead dead)
  | releaseLock startTs keys => exact earlier.elim
  | resolveLock startTs commitTs keys =>
    obtain ⟨distinct, begun, verdict⟩ := earlier
    refine ⟨distinct, advances.begun _ begun, ?_⟩
    split at verdict
    · rename_i zero
      rw [if_pos zero]
      exact advances.dead verdict
    rename_i positive
    rw [if_neg positive]
    exact ⟨advances.commitTs _ _ verdict.1, advances.decided verdict.2⟩
  | heartbeat startTs primary ttlMs => trivial

theorem Advances.truthful (earlier : system.Truthful other response) :
    next.Truthful other response := by
  unfold Truthful at earlier ⊢
  rw [advances.store]
  exact earlier

end

/-- A step of a client or the oracle, with the invariant after it. -/
structure Proceeds (system next : System K) : Prop where
  invariant : Invariant next
  advances : Advances system next

theorem Invariant.quiet (invariant : Invariant system) (later : system.clock ≤ clock)
    (requests : List (Request K)) (legit : ∀ request ∈ requests, system.Legit request) :
    Proceeds system ({ system with clock := clock }.send requests) := by
  have advances : Advances system ({ system with clock := clock }.send requests) :=
    { store := rfl, answered := rfl, clock := later
      primary := fun _ _ own => own
      commitTs := fun _ _ drawn => drawn
      fresh := fun _ _ drawn => .inl drawn
      begun := fun _ begun => begun
      aborted := fun _ _ aborted => aborted
      asked := fun _ _ _ later asking => ⟨later, asking, fun _ mem => mem⟩ }
  refine ⟨?_, advances⟩
  exact
    { handedOut := fun startTs begun => (invariant.handedOut startTs begun).trans later
      drawn := fun startTs commitTs drawn =>
        (invariant.drawn startTs commitTs drawn).imp_right fun ⟨below, free⟩ =>
          ⟨below.trans later, free⟩
      drawnOnce := invariant.drawnOnce
      granted := invariant.granted
      batched := invariant.batched
      cells := advances.cellSound invariant
      legit := fun request mem => advances.legit
        ((mem_append.mp mem).elim (legit request) (invariant.legit request))
      truthful := fun exchange mem =>
        advances.truthful (invariant.truthful exchange mem) }

theorem Invariant.send (invariant : Invariant system) (legit : system.Legit request) :
    Proceeds system (system.send [request]) :=
  invariant.quiet le_rfl [request] fun _ mem => mem_singleton.mp mem ▸ legit

theorem Proceeds.sends {requests : List (Request K)} (proceeds : Proceeds system next)
    (legit : ∀ request ∈ requests, next.Legit request) :
    Proceeds system (next.send requests) :=
  ⟨(proceeds.invariant.quiet le_rfl requests legit).invariant,
    { proceeds.advances with }⟩

/-- The clock moves, and one transaction goes from one phase to the next. -/
def entered (system : System K) (clock startTs : Nat) (phase : Phase K) : System K :=
  { system with clock := clock }.enter startTs phase

structure PhaseGrows (clock : Nat) (before after : Phase K) : Prop where
  primary : ∀ primary, before.primary = some primary → after.primary = some primary
  commitTs : ∀ commitTs, before.commitTs = some commitTs → after.commitTs = some commitTs
  fresh : ∀ commitTs, after.commitTs = some commitTs →
    before.commitTs = some commitTs ∨ clock < commitTs
  begun : after ≠ .idle
  aborted : ∀ primary, before ≠ .aborted primary
  asked : ∀ primary, before.primary = some primary → ∀ later, after.asked = some later →
    ∃ asked, before.asked = some asked ∧ ∀ request ∈ asked, request ∈ later

omit [LinearOrder K] in
theorem entered_own : (system.entered clock startTs phase).phases startTs = phase := if_pos rfl

omit [LinearOrder K] in
theorem entered_other {other : Nat} (different : other ≠ startTs) :
    (system.entered clock startTs phase).phases other = system.phases other := if_neg different

omit [LinearOrder K] in
theorem entered_advances (later : system.clock ≤ clock)
    (grows : PhaseGrows system.clock (system.phases startTs) phase) :
    Advances system (system.entered clock startTs phase) := by
  refine
    { store := rfl, answered := rfl, clock := later
      primary := fun other primary own => ?_
      commitTs := fun other commitTs drawn => ?_
      fresh := fun other commitTs drawn => ?_
      begun := fun other begun => ?_
      aborted := fun other primary aborted => ?_
      asked := fun other primary own later asking => ?_ }
  all_goals by_cases same : other = startTs
  · subst same; rw [entered_own]; exact grows.primary primary own
  · rw [entered_other same]; exact own
  · subst same; rw [entered_own]; exact grows.commitTs commitTs drawn
  · rw [entered_other same]; exact drawn
  · subst same; rw [entered_own] at drawn; exact grows.fresh commitTs drawn
  · rw [entered_other same] at drawn; exact .inl drawn
  · subst same; rw [entered_own]; exact grows.begun
  · rw [entered_other same]; exact begun
  · subst same; exact absurd aborted (grows.aborted primary)
  · rw [entered_other same]; exact aborted
  · subst same; rw [entered_own] at asking; exact grows.asked primary own later asking
  · rw [entered_other same] at asking; exact ⟨later, asking, fun _ mem => mem⟩

theorem Invariant.enter (invariant : Invariant system) (later : system.clock ≤ clock)
    (grows : PhaseGrows system.clock (system.phases startTs) phase)
    (known : system.phases startTs ≠ .idle ∨ system.clock < startTs ∧ startTs ≤ clock)
    (drawn : ∀ commitTs, phase.commitTs = some commitTs →
      (system.phases startTs).commitTs = none → startTs < commitTs ∧ commitTs ≤ clock)
    (granted : ∀ commitTs, phase.commitTs = some commitTs → ∀ asked, phase.asked = some asked →
      ∀ request ∈ asked, system.Accepted request)
    (batched : ∀ primary asked batches, phase = .prewriting primary asked batches →
      ∀ batch ∈ batches, ∀ request ∈ batch, Prewrites startTs primary request) :
    Proceeds system (system.entered clock startTs phase) := by
  have advances := entered_advances later grows
  refine ⟨?_, advances⟩
  have begunBelow : startTs ≤ clock := known.elim
    (fun begun => (invariant.handedOut startTs begun).trans later) (·.2)
  have idle : ∀ ts, system.clock < ts → system.phases ts = .idle := fun ts above =>
    not_not.mp fun begun => absurd (invariant.handedOut ts begun) (by omega)
  -- An older commit timestamp is still nobody's start.
  have apart : ∀ first commitTs, (system.phases first).commitTs = some commitTs →
      commitTs ≠ startTs := by
    rintro first commitTs old rfl
    obtain ⟨_, below, free⟩ := invariant.drawn first commitTs old
    exact known.elim (fun begun => begun free) (fun above => by omega)
  have drawnNow : ∀ commitTs, phase.commitTs = some commitTs →
      startTs < commitTs ∧ commitTs ≤ clock ∧ system.phases commitTs = .idle := by
    intro commitTs now
    cases before : (system.phases startTs).commitTs with
    | none =>
      obtain ⟨above, below⟩ := drawn commitTs now before
      refine ⟨above, below, idle commitTs ?_⟩
      exact (grows.fresh commitTs now).resolve_left (by simp [before])
    | some earlier =>
      obtain ⟨above, below, free⟩ := invariant.drawn startTs earlier before
      have same := (grows.commitTs earlier before).symm.trans now
      cases same
      exact ⟨above, below.trans later, free⟩
  refine
    { handedOut := fun other begun => ?_
      drawn := fun other commitTs now => ?_
      drawnOnce := fun first second commitTs one two => ?_
      granted := fun other commitTs now asked asking request mem => ?_
      batched := fun other primary asked batches now => ?_
      cells := advances.cellSound invariant
      legit := fun request mem => advances.legit (invariant.legit request mem)
      truthful := fun exchange mem => advances.truthful (invariant.truthful exchange mem) }
  · by_cases same : other = startTs
    · exact same ▸ begunBelow
    · rw [entered_other same] at begun
      exact (invariant.handedOut other begun).trans later
  · by_cases same : other = startTs
    · subst same
      rw [entered_own] at now
      obtain ⟨above, below, free⟩ := drawnNow commitTs now
      exact ⟨above, below, by rw [entered_other (by omega)]; exact free⟩
    · rw [entered_other same] at now
      obtain ⟨above, below, free⟩ := invariant.drawn other commitTs now
      refine ⟨above, below.trans later, ?_⟩
      rw [entered_other (apart other commitTs now)]
      exact free
  · -- A fresh timestamp is above every older one, and an older one was drawn once.
    have old : ∀ other, ((system.entered clock startTs phase).phases other).commitTs =
        some commitTs → (system.phases other).commitTs = some commitTs ∨
          other = startTs ∧ system.clock < commitTs := by
      intro other now
      by_cases same : other = startTs
      · subst same
        rw [entered_own] at now
        exact (grows.fresh commitTs now).imp_right fun above => ⟨rfl, above⟩
      · rw [entered_other same] at now
        exact .inl now
    rcases old first one with before | ⟨same, above⟩ <;>
      rcases old second two with before' | ⟨same', above'⟩
    · exact invariant.drawnOnce first second commitTs before before'
    · exact absurd (invariant.drawn _ _ before).2.1 (by omega)
    · exact absurd (invariant.drawn _ _ before').2.1 (by omega)
    · exact same.trans same'.symm
  · by_cases same : other = startTs
    · subst same
      rw [entered_own] at now asking
      exact granted commitTs now asked asking request mem
    · rw [entered_other same] at now asking
      exact invariant.granted other commitTs now asked asking request mem
  · by_cases same : other = startTs
    · subst same
      rw [entered_own] at now
      exact batched primary asked batches now
    · rw [entered_other same] at now
      exact invariant.batched other primary asked batches now

theorem Invariant.fate (invariant : Invariant system)
    (answer : (Request.rollback startTs [primary], .rollback status) ∈ system.answered) :
    (status = .ok ∧ system.phases startTs ≠ .idle ∧ system.Dead startTs) ∨
    ∃ commitTs, status = .committed commitTs ∧ commitTs ≠ 0 ∧
      (system.phases startTs).commitTs = some commitTs ∧
      system.Decided startTs commitTs := by
  have sound := invariant.cells primary
  rcases invariant.truthful _ answer with ⟨ok, rolled⟩ | ⟨commitTs, found, key, mem, done⟩
  · obtain ⟨version, present, own, kind⟩ := rolled primary (.head _)
    obtain ⟨_, begun, dead⟩ := sound.marker version present kind
    exact .inl ⟨ok, own ▸ begun, own ▸ dead⟩
  cases mem_singleton.mp mem
  obtain ⟨version, present, at_, own, kind⟩ := done
  obtain ⟨drawn, decided⟩ := sound.commit version present kind
  rw [own, at_] at drawn decided
  have above := (invariant.drawn _ _ drawn).1
  exact .inr ⟨commitTs, found, by omega, drawn, decided⟩

omit [LinearOrder K] in
theorem begun_of_primary (own : (system.phases startTs).primary = some primary) :
    system.phases startTs ≠ .idle := fun idle => by
  simp [idle, Phase.primary] at own

theorem legit_prewrite (asked : List (Request K)) (shape : Prewrites startTs primary request)
    (own : (system.phases startTs).primary = some primary)
    (asking : (system.phases startTs).asked = some asked) (mem : request ∈ asked) :
    system.Legit request := by
  obtain ⟨ttlMs, mutations, rfl, distinct⟩ := shape
  refine ⟨own, distinct, fun later found => ?_⟩
  cases asking.symm.trans found
  exact mem

section Clients

variable (invariant : Invariant system) {asked : List (Request K)}
include invariant

theorem Invariant.locks {pinned : Option K} (phase : system.phases startTs = .open pinned asked)
    (same : ∀ earlier ∈ pinned, earlier = primary) (shape : Prewrites startTs primary request) :
    Proceeds system ((system.send [request]).enter startTs
      (.open (some primary) (request :: asked))) := by
  have entered : Proceeds system (system.entered system.clock startTs
      (.open (some primary) (request :: asked))) := by
    refine invariant.enter le_rfl ?_ (.inl (by simp [phase])) ?_ ?_ ?_
    · rw [phase]
      constructor <;> simp_all [Phase.primary, Phase.commitTs, Phase.asked]
    all_goals simp [Phase.commitTs]
  refine entered.sends fun other mem => ?_
  cases mem_singleton.mp mem
  refine legit_prewrite (request :: asked) shape ?_ ?_ (.head _) <;>
    simp [System.entered, System.enter, Phase.primary, Phase.asked]

theorem Invariant.prewrites {batch : List (Request K)} {batches : List (List (Request K))}
    (phase : system.phases startTs = .prewriting primary asked (batch :: batches)) :
    Proceeds system ((system.send batch).enter startTs
      (.prewriting primary (batch ++ asked) batches)) := by
  have shapes := invariant.batched startTs primary asked (batch :: batches) phase
  have entered : Proceeds system (system.entered system.clock startTs
      (.prewriting primary (batch ++ asked) batches)) := by
    refine invariant.enter le_rfl ?_ (.inl (by simp [phase])) ?_ ?_ ?_
    · rw [phase]
      constructor <;> simp_all [Phase.primary, Phase.commitTs, Phase.asked]
    · simp [Phase.commitTs]
    · simp [Phase.commitTs]
    · rintro first earlier later ⟨⟩
      exact fun batch mem => shapes batch (.tail _ mem)
  refine entered.sends fun request mem => ?_
  refine legit_prewrite (batch ++ asked) (shapes batch (.head _) request mem) ?_ ?_
    (mem_append_left _ mem) <;>
    simp [System.entered, System.enter, Phase.primary, Phase.asked]

theorem Invariant.commitsPrimary (secondaries : List K)
    (phase : system.phases startTs = .prewriting primary asked [])
    (granted : ∀ earlier ∈ asked, system.Accepted earlier) (later : system.clock < commitTs) :
    Proceeds system (({ system with clock := commitTs }.send
      [.commit startTs commitTs [primary]]).enter startTs
        (.committing primary secondaries asked commitTs)) := by
  have below := invariant.handedOut startTs (by simp [phase])
  have entered : Proceeds system (system.entered commitTs startTs
      (.committing primary secondaries asked commitTs)) := by
    refine invariant.enter later.le ?_ (.inl (by simp [phase])) ?_ ?_ ?_
    · rw [phase]
      constructor <;> simp_all [Phase.primary, Phase.commitTs, Phase.asked]
    · rintro found ⟨⟩ _
      omega
    · rintro found ⟨⟩ earlier ⟨⟩
      exact granted
    · simp
  refine entered.sends fun request mem => ?_
  cases mem_singleton.mp mem
  refine ⟨by simp, ?_, .inl ⟨primary, ?_, rfl⟩⟩ <;>
    simp [System.entered, System.enter, Phase.primary, Phase.commitTs]

theorem Invariant.resolves {verdict : Nat}
    (fate : (Request.rollback startTs [primary], .rollback status) ∈ system.answered)
    (carried : status = .ok ∧ verdict = 0 ∨ status = .rolledBack ∧ verdict = 0 ∨
      status = .committed verdict) (distinct : keys.Nodup) :
    Proceeds system (system.send [.resolveLock startTs verdict keys]) := by
  rcases invariant.fate fate with ⟨rfl, begun, lost⟩ | ⟨commitTs, rfl, positive, drawn, decided⟩
  · have zero : verdict = 0 := by simpa using carried
    refine invariant.send ⟨distinct, begun, ?_⟩
    rw [if_pos zero]
    exact lost
  · have same : commitTs = verdict := by simpa using carried
    subst same
    have begun : system.phases startTs ≠ .idle := fun idle => by
      simp [idle, Phase.commitTs] at drawn
    refine invariant.send ⟨distinct, begun, ?_⟩
    rw [if_neg positive]
    exact ⟨drawn, decided⟩

end Clients

/-- Every step is a delivery, or keeps the store and what is known of every transaction. -/
theorem Invariant.step_cases (invariant : Invariant system) (step : Step system next) :
    Proceeds system next ∨ ∃ request ∈ system.sent, next = system.delivered request := by
  cases step with
  | timestamp later =>
    exact .inl (invariant.quiet later.le [] fun _ mem => absurd mem (by simp))
  | @begin startTs later =>
    have idle : system.phases startTs = .idle := not_not.mp fun begun =>
      absurd (invariant.handedOut startTs begun) (by omega)
    refine .inl (invariant.enter later.le ?_ (.inr ⟨later, le_rfl⟩) ?_ ?_ ?_)
    · rw [idle]
      constructor <;> simp [Phase.primary, Phase.commitTs]
    all_goals simp [Phase.commitTs]
  | lock phase same shape => exact .inl (invariant.locks phase same shape)
  | @commit startTs pinned asked primary batches phase same shape =>
    refine .inl (invariant.enter le_rfl ?_ (.inl (by simp [phase])) ?_ ?_ ?_)
    · rw [phase]
      constructor <;> simp_all [Phase.primary, Phase.commitTs, Phase.asked]
    · simp [Phase.commitTs]
    · simp [Phase.commitTs]
    · rintro first earlier later ⟨⟩
      exact shape
  | prewrite phase granted => exact .inl (invariant.prewrites phase)
  | commitPrimary secondaries phase granted later =>
    exact .inl (invariant.commitsPrimary secondaries phase granted later)
  | @commitSecondaries startTs commitTs primary secondaries asked keys phase settled among
      distinct =>
      have done := invariant.truthful _ settled primary (.head _)
      refine .inl (invariant.send
        ⟨distinct, by simp [phase, Phase.commitTs], .inr ⟨primary, ?_, done⟩⟩)
      simp [phase, Phase.primary]
  | @primaryFate startTs commitTs primary secondaries asked phase =>
    refine .inl (invariant.send ⟨by simp, by simp [phase], .inl ⟨primary, ?_, rfl⟩⟩)
    simp [phase, Phase.primary]
  | commitCleanup phase fate among distinct =>
    rcases invariant.fate fate with ⟨ok, _⟩ | ⟨commitTs, same, _, drawn, decided⟩
    · cases ok
    · cases same
      exact .inl (invariant.send ⟨distinct, drawn, .inr decided⟩)
  | rollbackCleanup phase fate dead among distinct =>
    rcases invariant.fate fate with ⟨_, begun, lost⟩ | ⟨commitTs, same, _⟩
    · exact .inl (invariant.send ⟨distinct, begun, .inr lost⟩)
    · exact absurd same (dead commitTs)
  | @abort startTs asked phase undrawn =>
    have begun : system.phases startTs ≠ .idle := fun idle => by
      simp [idle, Phase.asked] at phase
    refine .inl (invariant.enter le_rfl ?_ (.inl begun) ?_ ?_ ?_)
    · constructor <;> simp_all [Phase.primary, Phase.commitTs, Phase.asked]
      intro primary aborted
      simp [aborted] at phase
    all_goals simp [Phase.commitTs]
  | @undo startTs primary keys phase distinct =>
    exact .inl (invariant.send ⟨distinct, by simp [phase], .inr (.inl ⟨primary, phase⟩)⟩)
  | @settlePrimary key lock met =>
    have own := (invariant.cells key).lockPrimary lock met
    exact .inl (invariant.send ⟨by simp, begun_of_primary own, .inl ⟨lock.primary, own, rfl⟩⟩)
  | resolve fate carried distinct => exact .inl (invariant.resolves fate carried distinct)
  | renew startTs primary ttlMs => exact .inl (invariant.send trivial)
  | deliver sent => exact .inr ⟨_, sent, rfl⟩

theorem Invariant.step (invariant : Invariant system) (step : Step system next) :
    Invariant next := by
  rcases invariant.step_cases step with proceeds | ⟨request, sent, rfl⟩
  · exact proceeds.invariant
  · exact invariant.deliver sent

theorem Invariant.initial : Invariant (System.initial : System K) := by
  have empty : ∀ key : K, (System.initial.store.get key : Cell K) = .empty := fun _ => rfl
  refine
    { handedOut := fun _ begun => absurd rfl begun
      drawn := fun _ _ drawn => by cases drawn
      drawnOnce := fun _ _ _ drawn => by cases drawn
      granted := fun _ _ drawn => by cases drawn
      batched := fun _ _ _ _ phase => by cases phase
      cells := fun key => ?_
      legit := fun _ mem => by cases mem
      truthful := fun _ mem => by cases mem }
  rw [empty]
  constructor <;> simp [Cell.empty]

theorem Invariant.run {first last : System K} (invariant : Invariant first)
    (run : Run first last) : Invariant last := by
  induction run with
  | refl => exact invariant
  | tail _ step ih => exact ih.step step

theorem Reachable.invariant (reachable : Reachable system) : Invariant system :=
  Invariant.initial.run reachable

end System

end Esker.Txn
