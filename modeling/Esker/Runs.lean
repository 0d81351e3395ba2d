import Mathlib.Tactic.Common

/-!
Contract: runs of a step function, and what holds in every state of one.

Owns: `Along`, a property of every state of a run; `Meets`, a condition on every step of it; and the
two rules that lead from one step to the run.
-/

namespace Esker.Runs

variable {S O : Type} (step : S → O → S)

/-- Every state of the run, the first and the last included, is as required. -/
def Along (required : S → Prop) : S → List O → Prop
  | state, [] => required state
  | state, op :: rest => required state ∧ Along required (step state op) rest

def Meets (allowed : S → O → Prop) : S → List O → Prop
  | _, [] => True
  | state, op :: rest => allowed state op ∧ Meets allowed (step state op) rest

variable {step} {required inv : S → Prop} {allowed : S → O → Prop} {ops : List O}

theorem Along.start {state : S} (along : Along step required state ops) : required state := by
  cases ops with
  | nil => exact along
  | cons => exact along.1

theorem Along.last {state : S} (along : Along step required state ops) :
    required (ops.foldl step state) := by
  induction ops generalizing state with
  | nil => exact along
  | cons op rest ih => exact ih along.2

/-- Where every allowed step keeps the invariant, a run of allowed steps does. -/
theorem along_of_meets (kept : ∀ state op, inv state → allowed state op → inv (step state op))
    {state : S} (holds : inv state) (meets : Meets step allowed state ops) :
    Along step inv state ops := by
  induction ops generalizing state with
  | nil => exact holds
  | cons op rest ih =>
    exact ⟨holds, ih (kept state op holds meets.1) meets.2⟩

theorem Along.mono (weaker : ∀ state, inv state → required state) {state : S}
    (along : Along step inv state ops) : Along step required state ops := by
  induction ops generalizing state with
  | nil => exact weaker state along
  | cons op rest ih =>
    exact ⟨weaker state along.1, ih along.2⟩

/-- Where a step keeps what is required exactly when it is allowed, a run does exactly when all its
steps are. -/
theorem along_iff_meets (kept : ∀ state op, inv state → inv (step state op))
    (exact_ : ∀ state op, inv state → required state →
      (required (step state op) ↔ allowed state op))
    {state : S} (ops : List O) (holds : inv state) (isRequired : required state) :
    Along step required state ops ↔ Meets step allowed state ops := by
  induction ops generalizing state with
  | nil => exact ⟨fun _ => trivial, fun _ => isRequired⟩
  | cons op rest ih =>
    have next := exact_ state op holds isRequired
    have later := @ih (step state op) (kept state op holds)
    constructor
    · intro along
      have required' := along.2.start
      exact ⟨next.mp required', (later required').mp along.2⟩
    · intro meets
      exact ⟨isRequired, (later (next.mpr meets.1)).mpr meets.2⟩

end Esker.Runs
