import Mathlib

/-!
Contract: relations without a circle.

Owns: induction against the edges with a bound on their number, and when a new edge closes a circle.
-/

namespace Esker

open List
open Relation (TransGen ReflTransGen)

variable {α : Type} {related wider : α → α → Prop} (acyclic : ∀ node, ¬ TransGen related node node)
include acyclic

/-- Induction against the edges, with a count that a list of their sources bounds. -/
theorem acyclic_induction [DecidableEq α] {motive : Nat → α → Prop}
    (step : ∀ count node, (∀ next, related node next → ∃ less, count = less + 1 ∧
      motive less next) → motive count node)
    (sources : List α) (node : α) (covers : ∀ source target, ReflTransGen related node source →
      related source target → source ∈ sources) : motive sources.length node := by
  induction count : sources.length generalizing sources node with
  | zero =>
    apply step
    intro next edge
    simpa [length_eq_zero_iff.mp count] using covers node next .refl edge
  | succ less ih =>
    apply step
    intro next edge
    have mem := covers node next .refl edge
    refine ⟨less, rfl, ih (sources.erase node) next ?_ (by simp [length_erase_of_mem mem, count])⟩
    intro source target reach further
    -- Behind the first edge its source does not come again.
    have differs : source ≠ node := by
      rintro rfl
      exact acyclic source (TransGen.head' edge reach)
    exact (mem_erase_of_ne differs).mpr (covers source target (reach.head edge) further)

/-- An edge closes a circle only if its target already led to its source. -/
theorem acyclic_of_new_edge {source target : α} (apart : ¬ ReflTransGen related target source)
    (split : ∀ left right, wider left right → related left right ∨ left = source ∧ right = target)
    (node : α) : ¬ TransGen wider node node := by
  have through : ∀ right, TransGen wider node right → TransGen related node right ∨
      ReflTransGen related node source ∧ ReflTransGen related target right := by
    intro right path
    induction path with
    | single edge =>
      rcases split _ _ edge with old | ⟨rfl, rfl⟩
      · exact Or.inl (.single old)
      · exact Or.inr ⟨.refl, .refl⟩
    | tail _ edge ih =>
      rcases split _ _ edge with old | ⟨rfl, rfl⟩ <;> rcases ih with path | ⟨before, after⟩
      · exact Or.inl (path.tail old)
      · exact Or.inr ⟨before, after.tail old⟩
      · exact Or.inr ⟨path.to_reflTransGen, .refl⟩
      · exact absurd after apart
  intro circle
  rcases through node circle with old | ⟨before, after⟩
  · exact acyclic node old
  · exact apart (after.trans before)

end Esker
