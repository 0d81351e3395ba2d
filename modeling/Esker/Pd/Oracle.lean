import Mathlib

/-!
Contract: the timestamp oracle (`Oracle::load` and `Oracle::allocate` of `esker-pd/src/tso.rs`,
`compose_ts` and `decompose_ts` of `lib.rs`) with the disk that keeps its mark.

Owns: the layout of a timestamp, an allocation with its error paths, a service that crashes and
resumes from the mark on disk, and what a failed call leaves behind.

A durable write that is reported as failed may have reached the disk.

Does not own: which process serves, and how the mark is replicated.
-/

namespace Esker.Pd

def tsoLogicalBits : Nat := 18

def tsoMaxLogical : Nat := 2 ^ tsoLogicalBits - 1

def logicalSpace : Nat := tsoMaxLogical + 1

def maxPhysicalMs : Nat := 2 ^ (64 - tsoLogicalBits) - 1

def composeTs (physicalMs logical : Nat) : Nat :=
  (physicalMs <<< tsoLogicalBits) % 2 ^ 64 ||| (logical &&& tsoMaxLogical)

def decomposeTs (ts : Nat) : Nat × Nat := (ts >>> tsoLogicalBits, ts &&& tsoMaxLogical)

theorem logicalSpace_eq : logicalSpace = 2 ^ 18 := rfl

theorem composeTs_eq {physicalMs logical : Nat} (fits : physicalMs ≤ maxPhysicalMs)
    (below : logical < 2 ^ 18) :
    composeTs physicalMs logical = physicalMs * 2 ^ 18 + logical := by
  simp only [maxPhysicalMs, tsoLogicalBits] at fits
  have mask : logical &&& tsoMaxLogical = logical := by
    rw [tsoMaxLogical, tsoLogicalBits, Nat.and_two_pow_sub_one_eq_mod]
    omega
  have shifted : (physicalMs <<< tsoLogicalBits) % 2 ^ 64 = physicalMs <<< 18 := by
    simp only [tsoLogicalBits, Nat.shiftLeft_eq]
    omega
  rw [composeTs, mask, shifted, ← Nat.shiftLeft_add_eq_or_of_lt (by omega), Nat.shiftLeft_eq]

inductive PdError where
  | invalid (detail : String)
  | internal (detail : String)
deriving DecidableEq, Repr

structure Oracle where
  physicalMs : Nat
  logical : Nat
  highWaterMs : Nat
  saveIntervalMs : Nat
deriving DecidableEq, Repr

/-- What an allocation leaves: the oracle, the mark `persist` was called with, and the answer. -/
structure Allocated where
  oracle : Oracle
  asked : Option Nat
  answer : Except PdError Nat

namespace Oracle

def load (record : Option Nat) (nowMs saveIntervalMs : Nat) : Oracle :=
  ⟨max nowMs (record.getD 0), 0, record.getD 0, max saveIntervalMs 1⟩

def exhausted : PdError := .internal "the timestamp space is exhausted"

variable (oracle : Oracle)

/-- The oracle follows a clock forwards only. -/
def follow (nowMs : Nat) : Oracle :=
  if oracle.physicalMs < nowMs then { oracle with physicalMs := nowMs, logical := 0 } else oracle

/-- A batch that does not fit into the millisecond is taken from the next one. -/
def roll (count : Nat) : Except PdError Oracle :=
  if logicalSpace < oracle.logical + count then
    if oracle.physicalMs + 1 < 2 ^ 64 then
      .ok { oracle with physicalMs := oracle.physicalMs + 1, logical := 0 }
    else .error exhausted
  else .ok oracle

def take (count : Nat) (asked : Option Nat) : Allocated :=
  ⟨{ oracle with logical := oracle.logical + count }, asked,
    .ok (composeTs oracle.physicalMs oracle.logical)⟩

def allocate (count nowMs : Nat) (persisted : Except PdError Unit) : Allocated :=
  if count = 0 then ⟨oracle, none, .error (.invalid "tso needs a count of at least one")⟩
  else if logicalSpace < count then
    ⟨oracle, none, .error (.invalid ("tso batch of " ++ toString count ++
      " is larger than a millisecond's " ++ toString logicalSpace ++ " timestamps"))⟩
  else match (oracle.follow nowMs).roll count with
    | .error error => ⟨oracle.follow nowMs, none, .error error⟩
    | .ok rolled =>
      if maxPhysicalMs < rolled.physicalMs then
        ⟨rolled, none, .error (.internal ("the clock reads " ++ toString rolled.physicalMs ++
          " ms, past the end of the timestamp space"))⟩
      else if rolled.highWaterMs ≤ rolled.physicalMs then
        let mark := rolled.physicalMs + rolled.saveIntervalMs
        if mark < 2 ^ 64 then
          match persisted with
          | .ok () => { rolled with highWaterMs := mark }.take count (some mark)
          | .error error => ⟨rolled, some mark, .error error⟩
        else ⟨rolled, none, .error exhausted⟩
      else rolled.take count none

/-- The first number the oracle has not handed out, before its clock moves on. -/
def position : Nat := oracle.physicalMs * 2 ^ 18 + oracle.logical

structure Sound (oracle : Oracle) : Prop where
  logical : oracle.logical ≤ 2 ^ 18
  ahead : 1 ≤ oracle.saveIntervalMs

variable {oracle rolled : Oracle} {count : Nat}

theorem Sound.position_le (sound : oracle.Sound) {mark : Nat} (below : oracle.physicalMs < mark) :
    oracle.position ≤ mark * 2 ^ 18 := by
  have logical := sound.logical
  simp only [position]
  omega

theorem Sound.follow (sound : oracle.Sound) (nowMs : Nat) : (oracle.follow nowMs).Sound ∧
    (oracle.follow nowMs).highWaterMs = oracle.highWaterMs ∧
      oracle.position ≤ (oracle.follow nowMs).position := by
  obtain ⟨logical, ahead⟩ := sound
  unfold Oracle.follow
  split
  · exact ⟨⟨by simp, ahead⟩, rfl, by simp only [position]; omega⟩
  · exact ⟨⟨logical, ahead⟩, rfl, le_refl _⟩

theorem Sound.roll (sound : oracle.Sound) (within : count ≤ logicalSpace)
    (isRolled : oracle.roll count = .ok rolled) : rolled.Sound ∧
      rolled.highWaterMs = oracle.highWaterMs ∧ oracle.position ≤ rolled.position ∧
        rolled.logical + count ≤ 2 ^ 18 := by
  obtain ⟨logical, ahead⟩ := sound
  have space := logicalSpace_eq
  unfold Oracle.roll at isRolled
  split at isRolled
  · split at isRolled
    · cases isRolled
      exact ⟨⟨by simp, ahead⟩, rfl, by simp only [position]; omega, by dsimp only; omega⟩
    · cases isRolled
  · cases isRolled
    exact ⟨⟨logical, ahead⟩, rfl, le_refl _, by omega⟩

/-- What every allocation does: it never moves back, asks for marks above all it has handed out,
and answers with the numbers it passes, below its mark. -/
structure Advances (oracle : Oracle) (count : Nat) (persisted : Except PdError Unit)
    (done : Allocated) : Prop where
  sound : done.oracle.Sound
  forwards : oracle.position ≤ done.oracle.position
  mark : done.oracle.highWaterMs = oracle.highWaterMs ∨
    done.asked = some done.oracle.highWaterMs ∧ persisted = .ok ()
  asked : ∀ mark ∈ done.asked, done.oracle.physicalMs < mark ∧ oracle.highWaterMs < mark
  answer : ∀ start, done.answer = .ok start → 0 < count ∧ oracle.position ≤ start ∧
    start + count = done.oracle.position ∧ done.oracle.physicalMs < done.oracle.highWaterMs

theorem take_advances {asked : Option Nat} {persisted : Except PdError Unit}
    (ahead : 1 ≤ rolled.saveIntervalMs) (some : 0 < count) (room : rolled.logical + count ≤ 2 ^ 18)
    (inside : rolled.physicalMs ≤ maxPhysicalMs) (forwards : oracle.position ≤ rolled.position)
    (below : rolled.physicalMs < rolled.highWaterMs)
    (mark : rolled.highWaterMs = oracle.highWaterMs ∧ asked = none ∨
      oracle.highWaterMs < rolled.highWaterMs ∧ asked = .some rolled.highWaterMs ∧
        persisted = .ok ()) :
    Advances oracle count persisted (rolled.take count asked) := by
  have start := composeTs_eq inside (by omega : rolled.logical < 2 ^ 18)
  simp only [position] at forwards
  refine ⟨⟨room, ahead⟩, by simp only [take, position]; omega, ?_, ?_, ?_⟩
  · exact mark.imp And.left And.right
  · rcases mark with ⟨-, rfl⟩ | ⟨above, rfl, -⟩
    · simp [take]
    · simpa [take] using ⟨below, above⟩
  simp only [take, start, position, Except.ok.injEq]
  rintro _ rfl
  exact ⟨some, forwards, by omega, below⟩

theorem allocate_advances (sound : oracle.Sound) (count nowMs : Nat)
    (persisted : Except PdError Unit) :
    Advances oracle count persisted (oracle.allocate count nowMs persisted) := by
  have still {other : Oracle} {error : PdError} (isSound : other.Sound)
      (same : other.highWaterMs = oracle.highWaterMs) (forwards : oracle.position ≤ other.position) :
      Advances oracle count persisted ⟨other, none, .error error⟩ :=
    ⟨isSound, forwards, .inl same, by simp, by simp⟩
  unfold allocate
  split
  · exact still sound rfl (le_refl _)
  split
  · exact still sound rfl (le_refl _)
  obtain ⟨followed, sameMark, later⟩ := sound.follow nowMs
  split
  · exact still followed sameMark later
  next rolled isRolled =>
    obtain ⟨isSound, rolledMark, rolledLater, room⟩ := followed.roll (by omega) isRolled
    have forwards := later.trans rolledLater
    have kept := rolledMark.trans sameMark
    have ahead := isSound.ahead
    split
    · exact still isSound kept forwards
    next inside =>
      split
      next reached =>
        dsimp only
        split
        · cases persisted with
          | ok =>
            exact take_advances ahead (by omega) room (Nat.not_lt.mp inside) forwards
              (by dsimp only; omega) (.inr ⟨by dsimp only; omega, rfl, rfl⟩)
          | error => exact ⟨isSound, forwards, .inl kept, by simp; omega, by simp⟩
        · exact still isSound kept forwards
      next below =>
        exact take_advances ahead (by omega) room (Nat.not_lt.mp inside) forwards
          (Nat.not_le.mp below) (.inl ⟨kept, rfl⟩)

end Oracle

/-! ## A service over crashes -/

/-- A batch handed out, with the mark that was durable then. -/
structure Batch where
  start : Nat
  count : Nat
  durable : Nat
deriving DecidableEq, Repr

structure TsoService where
  oracle : Oracle
  disk : Option Nat
  served : List Batch

inductive TsoEvent where
  /-- A call, with the outcome of the durable write and whether it reached the disk if it failed. -/
  | allocate (count nowMs : Nat) (persisted : Except PdError Unit) (landed : Bool)
  | restart (nowMs saveIntervalMs : Nat)

namespace TsoService

def opened (disk : Option Nat) (nowMs saveIntervalMs : Nat) : TsoService :=
  ⟨.load disk nowMs saveIntervalMs, disk, []⟩

/-- What the disk holds after a write of the mark. -/
def written (disk asked : Option Nat) (persisted : Except PdError Unit) (landed : Bool) :
    Option Nat :=
  if asked.isSome ∧ (persisted.isOk ∨ landed) then asked else disk

def step (service : TsoService) : TsoEvent → TsoService
  | .allocate count nowMs persisted landed =>
    let done := service.oracle.allocate count nowMs persisted
    let disk := written service.disk done.asked persisted landed
    ⟨done.oracle, disk, match done.answer with
      | .ok start => service.served ++ [⟨start, count, disk.getD 0⟩]
      | .error _ => service.served⟩
  | .restart nowMs saveIntervalMs =>
    { service with oracle := .load service.disk nowMs saveIntervalMs }

def run (service : TsoService) (events : List TsoEvent) : TsoService := events.foldl step service

structure Sound (service : TsoService) : Prop where
  oracle : service.oracle.Sound
  mark : service.oracle.highWaterMs ≤ service.disk.getD 0
  passed : ∀ batch ∈ service.served, batch.start + batch.count ≤ service.oracle.position
  durable : ∀ batch ∈ service.served, batch.start + batch.count ≤ service.disk.getD 0 * 2 ^ 18
  ordered : service.served.Pairwise fun earlier later => earlier.start + earlier.count ≤ later.start
  kept : ∀ batch ∈ service.served, 0 < batch.count ∧
    batch.start + batch.count ≤ batch.durable * 2 ^ 18

theorem load_sound (record : Option Nat) (nowMs saveIntervalMs : Nat) :
    (Oracle.load record nowMs saveIntervalMs).Sound ∧
      record.getD 0 * 2 ^ 18 ≤ (Oracle.load record nowMs saveIntervalMs).position :=
  ⟨⟨Nat.zero_le _, le_max_right _ _⟩, by simp only [Oracle.load, Oracle.position]; omega⟩

/-- A mark that is written is above all that has been handed out, whether or not the write is
reported as done. -/
theorem Sound.written {service : TsoService} (sound : service.Sound) {count : Nat}
    {done : Allocated} {persisted : Except PdError Unit}
    (advances : Oracle.Advances service.oracle count persisted done) (landed : Bool) :
    done.oracle.highWaterMs ≤ (written service.disk done.asked persisted landed).getD 0 ∧
      ∀ batch ∈ service.served, batch.start + batch.count ≤
          (written service.disk done.asked persisted landed).getD 0 * 2 ^ 18 := by
  have before := sound.mark
  cases isAsked : done.asked with
  | none =>
    have same : done.oracle.highWaterMs = service.oracle.highWaterMs := by
      simpa [isAsked] using advances.mark
    simpa [TsoService.written, same, before] using sound.durable
  | some mark =>
    obtain ⟨above, higher⟩ := advances.asked mark (by simp [isAsked])
    have covered : ∀ batch ∈ service.served, batch.start + batch.count ≤ mark * 2 ^ 18 :=
      fun batch mem => (sound.passed batch mem).trans
        (advances.forwards.trans (advances.sound.position_le above))
    have moved := advances.mark
    simp only [isAsked, Option.some.injEq] at moved
    simp only [TsoService.written, Option.isSome_some, true_and]
    split
    · refine ⟨?_, covered⟩
      rw [Option.getD_some]
      omega
    next failed =>
      have same : done.oracle.highWaterMs = service.oracle.highWaterMs :=
        moved.resolve_right fun reported => failed (.inl (by simp [reported.2, Except.isOk, Except.toBool]))
      exact ⟨same ▸ before, sound.durable⟩

theorem Sound.step {service : TsoService} (sound : service.Sound) (event : TsoEvent) :
    (service.step event).Sound := by
  cases event with
  | restart nowMs saveIntervalMs =>
    obtain ⟨oracle, resumed⟩ := load_sound service.disk nowMs saveIntervalMs
    exact { sound with
      oracle
      mark := le_refl _
      passed := fun batch mem => (sound.durable batch mem).trans resumed }
  | allocate count nowMs persisted landed =>
    have advances := Oracle.allocate_advances sound.oracle count nowMs persisted
    obtain ⟨mark, durable⟩ := sound.written advances landed
    have passed : ∀ batch ∈ service.served,
        batch.start + batch.count ≤ (service.oracle.allocate count nowMs persisted).oracle.position :=
      fun batch mem => (sound.passed batch mem).trans advances.forwards
    simp only [TsoService.step]
    split
    next start answered =>
      obtain ⟨some, first, last, below⟩ := advances.answer start answered
      have under := last.le.trans (advances.sound.position_le (below.trans_le mark))
      refine ⟨advances.sound, mark, ?_, ?_, ?_, ?_⟩
      · rw [List.forall_mem_append, List.forall_mem_singleton]
        exact ⟨passed, last.le⟩
      · rw [List.forall_mem_append, List.forall_mem_singleton]
        exact ⟨durable, under⟩
      · simpa [List.pairwise_append, sound.ordered] using
          fun batch mem => (sound.passed batch mem).trans first
      · rw [List.forall_mem_append, List.forall_mem_singleton]
        exact ⟨sound.kept, some, under⟩
    · exact ⟨advances.sound, mark, passed, durable, sound.ordered, sound.kept⟩

theorem Sound.run {service : TsoService} (sound : service.Sound) (events : List TsoEvent) :
    (service.run events).Sound := by
  induction events generalizing service with
  | nil => exact sound
  | cons event rest ih => exact ih (sound.step event)

/-- Batches follow one another without overlap, and no timestamp of one reaches the mark that was
durable when it was handed out. -/
theorem timestamps_increase (disk : Option Nat) (nowMs saveIntervalMs : Nat)
    (events : List TsoEvent) :
    let served := ((opened disk nowMs saveIntervalMs).run events).served
    served.Pairwise (fun earlier later => earlier.start + earlier.count ≤ later.start) ∧
      ∀ batch ∈ served, 0 < batch.count ∧ ∀ ts, batch.start ≤ ts → ts < batch.start + batch.count →
        (decomposeTs ts).1 < batch.durable := by
  obtain ⟨oracle, -⟩ := load_sound disk nowMs saveIntervalMs
  have start : (opened disk nowMs saveIntervalMs).Sound :=
    ⟨oracle, le_refl _, by simp [opened], by simp [opened], by simp [opened], by simp [opened]⟩
  have sound := start.run events
  refine ⟨sound.ordered, fun batch member => ⟨(sound.kept batch member).1, fun ts _ below => ?_⟩⟩
  have under := (sound.kept batch member).2
  simp only [decomposeTs, tsoLogicalBits, Nat.shiftRight_eq_div_pow]
  omega

end TsoService

/-! ## After a failed call -/

structure AllocateCall where
  count : Nat
  nowMs : Nat
  persisted : Except PdError Unit

namespace Oracle

/-- What a sequence of calls leaves, call by call. -/
def replies (oracle : Oracle) : List AllocateCall → List Allocated
  | [] => []
  | call :: rest =>
    let done := oracle.allocate call.count call.nowMs call.persisted
    done :: done.oracle.replies rest

/-- The call is refused for its count, or takes neither a later reading nor the next millisecond. -/
def Stays (oracle : Oracle) (count nowMs : Nat) : Prop :=
  count = 0 ∨ logicalSpace < count ∨ nowMs ≤ oracle.physicalMs ∧
    (oracle.logical + count ≤ logicalSpace ∨ 2 ^ 64 ≤ oracle.physicalMs + 1)

variable {oracle rolled : Oracle} {count nowMs : Nat} {persisted : Except PdError Unit}

theorem follow_eq_self : oracle.follow nowMs = oracle ↔ nowMs ≤ oracle.physicalMs := by
  unfold follow
  split_ifs with ahead
  · exact iff_of_false (fun same => ahead.ne (congrArg physicalMs same).symm) (by omega)
  · exact iff_of_true rfl (by omega)

theorem roll_cases (oracle : Oracle) (count : Nat) :
    (oracle.logical + count ≤ logicalSpace ∧ oracle.roll count = .ok oracle) ∨
    (2 ^ 64 ≤ oracle.physicalMs + 1 ∧ oracle.roll count = .error exhausted) ∨
    logicalSpace < oracle.logical + count ∧ oracle.physicalMs + 1 < 2 ^ 64 ∧
      oracle.roll count = .ok { oracle with physicalMs := oracle.physicalMs + 1, logical := 0 } := by
  unfold roll
  split_ifs with full room
  · exact .inr (.inr ⟨full, room, rfl⟩)
  · exact .inr (.inl ⟨Nat.not_lt.mp room, rfl⟩)
  · exact .inl ⟨Nat.not_lt.mp full, rfl⟩

/-- A call that fails after its count was let through leaves what it followed and rolled into. -/
theorem failed_oracle {error : PdError}
    (failed : (oracle.allocate count nowMs persisted).answer = .error error) :
    (count = 0 ∨ logicalSpace < count) ∧ (oracle.allocate count nowMs persisted).oracle = oracle ∨
    (count ≠ 0 ∧ count ≤ logicalSpace) ∧ (oracle.allocate count nowMs persisted).oracle =
      match (oracle.follow nowMs).roll count with
      | .ok rolled => rolled
      | .error _ => oracle.follow nowMs := by
  unfold allocate at failed ⊢
  by_cases zero : count = 0
  · exact .inl ⟨.inl zero, by rw [if_pos zero]⟩
  by_cases many : logicalSpace < count
  · exact .inl ⟨.inr many, by rw [if_neg zero, if_pos many]⟩
  rw [if_neg zero, if_neg many] at failed ⊢
  refine .inr ⟨⟨zero, Nat.not_lt.mp many⟩, ?_⟩
  generalize (oracle.follow nowMs).roll count = moved at failed ⊢
  cases moved with
  | error _ => rfl
  | ok rolled =>
    dsimp only [take] at failed ⊢
    cases persisted <;> split_ifs at failed ⊢ <;> rfl

theorem failed_oracle_eq {error : PdError}
    (failed : (oracle.allocate count nowMs persisted).answer = .error error) :
    (oracle.allocate count nowMs persisted).oracle = oracle ↔ oracle.Stays count nowMs := by
  rcases failed_oracle failed with ⟨out, same⟩ | ⟨⟨some, within⟩, after⟩
  · exact iff_of_true same (or_assoc.mp (.inl out))
  rw [after, Stays, or_iff_right some, or_iff_right (Nat.not_lt.mpr within)]
  by_cases behind : nowMs ≤ oracle.physicalMs
  · rw [follow_eq_self.mpr behind, and_iff_right behind]
    rcases roll_cases oracle count with ⟨fits, isRolled⟩ | ⟨last, isRolled⟩ | ⟨full, room, isRolled⟩ <;>
      rw [isRolled]
    · exact iff_of_true rfl (.inl fits)
    · exact iff_of_true rfl (.inr last)
    · refine iff_of_false (fun same => ?_) (by omega)
      exact absurd (congrArg physicalMs same) (Nat.succ_ne_self _)
  · -- A later reading is followed, and a batch in range fits into its millisecond.
    have followed : oracle.follow nowMs = { oracle with physicalMs := nowMs, logical := 0 } :=
      if_pos (Nat.not_le.mp behind)
    rw [followed, roll, if_neg (by dsimp only; omega)]
    refine iff_of_false (fun same => ?_) fun stays => behind stays.1
    exact behind (congrArg physicalMs same).le

/-- A failed call goes unnoticed exactly when it was refused for its count or has taken neither a
later clock reading nor the next millisecond. -/
theorem failed_allocation_unnoticed {error : PdError}
    (failed : (oracle.allocate count nowMs persisted).answer = .error error) :
    (∀ calls, (oracle.allocate count nowMs persisted).oracle.replies calls =
      oracle.replies calls) ↔ oracle.Stays count nowMs := by
  rw [← failed_oracle_eq failed]
  refine ⟨fun same => ?_, fun same calls => by rw [same]⟩
  have refused := same [⟨0, 0, .ok ()⟩]
  simpa [replies, allocate] using refused

/-- A disk that refuses the first mark, at the reading the oracle was loaded with. -/
theorem refused_mark_unnoticed :
    ((Oracle.load none 500 3000).allocate 1 500 (.error exhausted)).oracle.replies
        [⟨1, 501, .ok ()⟩] =
      (Oracle.load none 500 3000).replies [⟨1, 501, .ok ()⟩] :=
  (@failed_allocation_unnoticed (.load none 500 3000) 1 500 (.error exhausted) exhausted rfl).mpr
    (.inr (.inr (by decide))) _

/-- One reading past the end of the timestamp space, and the next ordinary reading is refused. -/
theorem absurd_clock_stops_oracle :
    (((Oracle.load none 500 3000).allocate 1 (2 ^ 46) (.ok ())).oracle.allocate 1 501
        (.ok ())).answer =
      .error (.internal "the clock reads 70368744177664 ms, past the end of the timestamp space") ∧
    ((Oracle.load none 500 3000).allocate 1 501 (.ok ())).answer = .ok (composeTs 501 0) :=
  ⟨rfl, rfl⟩

end Oracle

end Esker.Pd
