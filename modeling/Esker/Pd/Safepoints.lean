import Esker.Pd.Oracle
import Esker.Runs
import Esker.SortedMap

/-!
Contract: the safepoint that the placement driver publishes from what its readers report
(`Safepoints` of `esker-pd/src/safepoint.rs`).

Owns: the registry, and what the published value may not pass.

Does not own: `forget`, or what the stores collect below the value.
-/

namespace Esker.Pd

open List

structure Reporter where
  oldest : Option Nat
  heard : Nat

structure Safepoints where
  retentionMs : Nat
  ttlMs : Nat
  reporters : SortedMap Nat Reporter
  published : Nat

/-- A `u64` shift: eighteen places are never too many for `checked_shl`, and the bits it pushes out
are lost. -/
def asTs (ms : Nat) : Nat := ms * 2 ^ tsoLogicalBits % 2 ^ 64

namespace Safepoints

def new (retentionMs ttlMs : Nat) : Safepoints := ⟨retentionMs, ttlMs, .empty, 0⟩

variable (self : Safepoints)

def report (reporter : Nat) (oldest : Option Nat) (now : Nat) : Safepoints :=
  { self with reporters := self.reporters.insert reporter ⟨oldest, now⟩ }

variable (now : Nat)

/-- The reporters that are not past their time to live. -/
def live : SortedMap Nat Reporter :=
  ⟨self.reporters.entries.filter fun entry => now - entry.2.heard ≤ asTs self.ttlMs,
    self.reporters.sorted.filter _⟩

def safepoint : Safepoints :=
  let live := self.live now
  let kept := { self with reporters := live }
  if live.entries = [] then kept
  else
    let window := now - asTs self.retentionMs
    let oldest := (live.entries.map fun entry => entry.2.oldest.getD entry.2.heard).min?
    { kept with published := max self.published (oldest.elim window (min window)) }

/-! ## One call -/

theorem mem_live {self : Safepoints} {now : Nat} {entry : Nat × Reporter} :
    entry ∈ self.live now ↔ entry ∈ self.reporters ∧ now - entry.2.heard ≤ asTs self.ttlMs := by
  simp only [SortedMap.mem_def, live, mem_filter, decide_eq_true_eq]

theorem safepoint_fields : (self.safepoint now).retentionMs = self.retentionMs ∧
      (self.safepoint now).ttlMs = self.ttlMs ∧ (self.safepoint now).reporters = self.live now := by
  rw [safepoint]
  split_ifs <;> exact ⟨rfl, rfl, rfl⟩

/-- What a call publishes was published before, or passes neither the window nor the oldest read of
a reporter that is left. -/
theorem safepoint_cases : (self.safepoint now).published = self.published ∨
      self.published ≤ (self.safepoint now).published ∧
      (self.safepoint now).published ≤ now - asTs self.retentionMs ∧
      ∀ reporter report oldest, (reporter, report) ∈ self.live now → report.oldest = some oldest →
        (self.safepoint now).published ≤ oldest := by
  rw [safepoint]
  split_ifs with empty
  · exact .inl rfl
  cases least : ((self.live now).entries.map fun entry =>
      entry.2.oldest.getD entry.2.heard).min? with
  | none => exact absurd (map_eq_nil_iff.mp (min?_eq_none_iff.mp least)) empty
  | some floor =>
    dsimp only [Option.elim]
    rcases le_total (min (now - asTs self.retentionMs) floor) self.published with lower | higher
    · exact .inl (max_eq_left lower)
    right
    rw [max_eq_right higher]
    refine ⟨higher, min_le_left _ _, fun reporter report oldest mem reads => ?_⟩
    refine (min_le_right _ _).trans ((min?_eq_some_iff.mp least).2 oldest (mem_map.mpr ⟨_, mem, ?_⟩))
    rw [reads, Option.getD_some]

end Safepoints

/-! ## Runs -/

inductive SafepointCall where
  | report (reporter : Nat) (oldest : Option Nat) (now : Nat)
  | safepoint (now : Nat)

def SafepointCall.now : SafepointCall → Nat
  | .report _ _ now => now
  | .safepoint now => now

/-- The registry, the last clock reading, and of each reporter its last report and what was published
when it was first heard. -/
structure Observed where
  registry : Safepoints
  clock : Nat
  said : Nat → Option (Reporter × Nat)

namespace Observed

def start (retentionMs ttlMs : Nat) : Observed := ⟨.new retentionMs ttlMs, 0, fun _ => none⟩

variable (seen : Observed)

def first (reporter : Nat) : Nat :=
  ((seen.said reporter).map Prod.snd).getD seen.registry.published

def step (call : SafepointCall) : Observed :=
  match call with
  | .report reporter oldest now =>
    ⟨seen.registry.report reporter oldest now, now,
      Function.update seen.said reporter (some (⟨oldest, now⟩, seen.first reporter))⟩
  | .safepoint now => ⟨seen.registry.safepoint now, now, seen.said⟩

/-- The published value is not above the window, nor above the oldest read of a reporter heard
within the time to live, unless that read was too old when the reporter was first heard. -/
structure Protects (seen : Observed) : Prop where
  window : seen.registry.published ≤ seen.clock - seen.registry.retentionMs * 2 ^ tsoLogicalBits
  readers : ∀ reporter report first oldest, seen.said reporter = some (report, first) →
    report.oldest = some oldest →
    seen.clock - report.heard ≤ seen.registry.ttlMs * 2 ^ tsoLogicalBits →
    seen.registry.published ≤ oldest ∨ oldest < first

/-- The clock does not go back, and a read that is reported is not below what is published, unless
it was when the reporter was first heard. -/
def Allowed (call : SafepointCall) : Prop :=
  seen.clock ≤ call.now ∧ ∀ reporter oldest now, call = .report reporter (some oldest) now →
    seen.registry.published ≤ oldest ∨ oldest < seen.first reporter

structure Invariant (retentionMs ttlMs : Nat) (seen : Observed) : Prop extends seen.Protects where
  windows : seen.registry.retentionMs = retentionMs ∧ seen.registry.ttlMs = ttlMs
  kept : ∀ reporter report first, seen.said reporter = some (report, first) →
    (reporter, report) ∈ seen.registry.reporters ∨
      ttlMs * 2 ^ tsoLogicalBits < seen.clock - report.heard

theorem said_report {seen : Observed} {reporter now other first : Nat} {oldest : Option Nat}
    {report : Reporter}
    (said : (seen.step (.report reporter oldest now)).said other = some (report, first)) :
    other = reporter ∧ report = ⟨oldest, now⟩ ∧ first = seen.first reporter ∨
      other ≠ reporter ∧ seen.said other = some (report, first) := by
  by_cases same : other = reporter
  · simp only [step, same, Function.update_self] at said
    cases said
    exact .inl ⟨same, rfl, rfl⟩
  · simp only [step, Function.update_of_ne same] at said
    exact .inr ⟨same, said⟩

theorem asTs_of_fits {ms : Nat} (fits : ms < 2 ^ 46) : asTs ms = ms * 2 ^ tsoLogicalBits := by
  rw [asTs, tsoLogicalBits]
  exact Nat.mod_eq_of_lt (by omega)

theorem Invariant.step {retentionMs ttlMs : Nat} {seen : Observed} {call : SafepointCall}
    (fits : retentionMs < 2 ^ 46 ∧ ttlMs < 2 ^ 46) (inv : seen.Invariant retentionMs ttlMs)
    (allowed : seen.Allowed call) : (seen.step call).Invariant retentionMs ttlMs := by
  obtain ⟨steady, late⟩ := allowed
  obtain ⟨rfl, rfl⟩ := inv.windows
  have later (amount : Nat) := Nat.sub_le_sub_right steady amount
  cases call with
  | report reporter oldest now =>
    refine ⟨⟨inv.window.trans (later _), ?_⟩, ⟨rfl, rfl⟩, ?_⟩
    · intro other report first read said reads within
      rcases said_report said with ⟨rfl, rfl, rfl⟩ | ⟨_, said⟩
      · exact late other read now (by rw [← reads])
      · exact inv.readers other report first read said reads ((later _).trans within)
    · intro other report first said
      rcases said_report said with ⟨rfl, rfl, _⟩ | ⟨differs, said⟩
      · exact .inl (SortedMap.mem_insert.mpr (.inl ⟨rfl, rfl⟩))
      · exact (inv.kept other report first said).imp
          (fun mem => SortedMap.mem_insert.mpr (.inr ⟨differs, mem⟩)) fun past => past.trans_le (later _)
  | safepoint now =>
    obtain ⟨sameRetention, sameTtl, live⟩ := seen.registry.safepoint_fields now
    have published := seen.registry.safepoint_cases now
    rw [asTs_of_fits fits.1] at published
    refine ⟨⟨?_, ?_⟩, ⟨sameRetention, sameTtl⟩, ?_⟩
    · rw [Observed.step, sameRetention]
      rcases published with same | ⟨_, below, _⟩
      · rw [same]
        exact inv.window.trans (later _)
      · exact below
    · intro reporter report first oldest said reads within
      rw [Observed.step, sameTtl] at within
      have before := (later _).trans within
      have mem := (inv.kept reporter report first said).resolve_right before.not_gt
      rw [Observed.step]
      rcases published with same | ⟨_, _, below⟩
      · rw [same]
        exact inv.readers reporter report first oldest said reads before
      · refine .inl (below reporter report oldest (Safepoints.mem_live.mpr ⟨mem, ?_⟩) reads)
        rwa [asTs_of_fits fits.2]
    · intro reporter report first said
      rw [Observed.step, live, Safepoints.mem_live, asTs_of_fits fits.2]
      rcases inv.kept reporter report first said with mem | past
      · exact (Nat.lt_or_ge _ _).symm.imp_left fun within => ⟨mem, within⟩
      · exact .inr (past.trans_le (later _))

end Observed

/-- Windows that the shift does not wrap, a clock that does not go back, and no read reported from
below what is published: then at every moment the value protects the readers. It never falls. -/
theorem published_protects (retentionMs ttlMs : Nat) (fits : retentionMs < 2 ^ 46 ∧ ttlMs < 2 ^ 46)
    (calls : List SafepointCall)
    (meets : Runs.Meets Observed.step Observed.Allowed (.start retentionMs ttlMs) calls) :
    Runs.Along Observed.step (fun seen => seen.Protects ∧ ∀ call,
      seen.registry.published ≤ (seen.step call).registry.published)
      (.start retentionMs ttlMs) calls := by
  have start : (Observed.start retentionMs ttlMs).Invariant retentionMs ttlMs :=
    ⟨⟨Nat.zero_le _, nofun⟩, ⟨rfl, rfl⟩, nofun⟩
  refine (Runs.along_of_meets (fun _ _ inv allowed => inv.step fits allowed) start meets).mono ?_
  refine fun seen inv => ⟨inv.toProtects, fun call => ?_⟩
  cases call with
  | report => exact le_rfl
  | safepoint now => exact (seen.registry.safepoint_cases now).elim Eq.ge And.left

/-- A retention of `2 ^ 46` milliseconds is no retention at all. -/
theorem published_passes_window : Runs.Meets Observed.step Observed.Allowed (.start (2 ^ 46) 20000)
      [.report 1 none 5, .safepoint 5] ∧
    ¬ ([SafepointCall.report 1 none 5, .safepoint 5].foldl Observed.step
      (.start (2 ^ 46) 20000)).Protects := by
  refine ⟨⟨⟨by decide, nofun⟩, ⟨by decide, nofun⟩, trivial⟩, fun protects => ?_⟩
  exact absurd protects.window (by decide)

/-- A read from before the window holds the value back. -/
theorem published_protects_long_read : Runs.Along Observed.step (fun seen => seen.Protects ∧ ∀ call,
      seen.registry.published ≤ (seen.step call).registry.published)
      (.start 1 1) [.report 1 (some 5) (2 ^ 20), .safepoint (2 ^ 20)] :=
  published_protects 1 1 (by decide) _ ⟨⟨by decide, fun _ _ _ same => by
    cases same
    exact .inl (by decide)⟩, ⟨by decide, nofun⟩, trivial⟩

end Esker.Pd
