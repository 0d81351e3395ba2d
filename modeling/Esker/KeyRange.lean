import Mathlib

/-!
Contract: half-open ranges over an order with a least key, where the least key as
an end stands for "no end".

Owns: when a key is in a range, when a range holds a key at all, when two ranges
share a key, and how a range divides at a key strictly inside it.
-/

namespace Esker.KeyRange

variable {K : Type} [LinearOrder K] [OrderBot K]

/-- `key` lies in `[start, stop)`; a stop of `⊥` is the end of the key space. -/
def InRange (start stop key : K) : Prop := start ≤ key ∧ (stop = ⊥ ∨ key < stop)

instance (start stop key : K) : Decidable (InRange start stop key) :=
  inferInstanceAs (Decidable (_ ∧ _))

/-- The range `[start, stop)` holds a key. -/
def Proper (start stop : K) : Prop := stop = ⊥ ∨ start < stop

instance (start stop : K) : Decidable (Proper start stop) :=
  inferInstanceAs (Decidable (_ ∨ _))

def Meets (start stop otherStart otherStop : K) : Prop :=
  ∃ key, InRange start stop key ∧ InRange otherStart otherStop key

theorem inRange_whole (key : K) : InRange ⊥ ⊥ key := ⟨bot_le, Or.inl rfl⟩

variable {start stop key otherStart otherStop : K}

theorem inRange_start (proper : Proper start stop) : InRange start stop start := ⟨le_rfl, proper⟩

theorem InRange.proper (inside : InRange start stop key) : Proper start stop := by
  rcases inside.2 with open_ | below
  · exact Or.inl open_
  · exact Or.inr (lt_of_le_of_lt inside.1 below)

/-- Two ranges that hold keys share one exactly when neither ends before the other
begins. The shared key is the later of the two starts. -/
theorem meets_iff (proper : Proper start stop) (otherProper : Proper otherStart otherStop) :
    Meets start stop otherStart otherStop ↔
      ¬(stop ≠ ⊥ ∧ stop ≤ otherStart) ∧ ¬(otherStop ≠ ⊥ ∧ otherStop ≤ start) := by
  constructor
  · rintro ⟨key, ⟨fromStart, toStop⟩, ⟨fromOther, toOther⟩⟩
    constructor
    · rintro ⟨bounded, ends⟩
      have below : key < stop := toStop.resolve_left bounded
      exact absurd (lt_of_lt_of_le below (ends.trans fromOther)) (lt_irrefl key)
    rintro ⟨bounded, ends⟩
    have below : key < otherStop := toOther.resolve_left bounded
    exact absurd (lt_of_lt_of_le below (ends.trans fromStart)) (lt_irrefl key)
  · rintro ⟨notBefore, notAfter⟩
    refine ⟨max start otherStart, ⟨le_max_left _ _, ?_⟩, ⟨le_max_right _ _, ?_⟩⟩
    · by_cases unbounded : stop = ⊥
      · exact Or.inl unbounded
      · have reaches : otherStart < stop := not_le.mp fun ends => notBefore ⟨unbounded, ends⟩
        exact Or.inr (max_lt (proper.resolve_left unbounded) reaches)
    · by_cases unbounded : otherStop = ⊥
      · exact Or.inl unbounded
      · have reaches : start < otherStop := not_le.mp fun ends => notAfter ⟨unbounded, ends⟩
        exact Or.inr (max_lt reaches (otherProper.resolve_left unbounded))

/-- A range that begins below another and shares no key with it ends where the other
begins, at the latest. -/
theorem ends_before_of_not_meets (proper : Proper start stop)
    (otherProper : Proper otherStart otherStop) (begins : start < otherStart)
    (apart : ¬ Meets start stop otherStart otherStop) : stop ≠ ⊥ ∧ stop ≤ otherStart := by
  rw [meets_iff proper otherProper] at apart
  by_contra reaches
  apply apart
  refine ⟨reaches, ?_⟩
  rintro ⟨bounded, ends⟩
  have otherBelow : otherStart < otherStop := otherProper.resolve_left bounded
  exact absurd (begins.trans (otherBelow.trans_le ends)) (lt_irrefl start)

/-! ## Dividing a range -/

/-- `key` divides `[start, stop)` into two ranges that both hold a key. -/
def Divides (start stop key : K) : Prop := start < key ∧ (stop = ⊥ ∨ key < stop)

instance (start stop key : K) : Decidable (Divides start stop key) :=
  inferInstanceAs (Decidable (_ ∧ _))

namespace Divides

variable {start stop boundary : K}

section

variable (divides : Divides start stop boundary)
include divides

theorem ne_bot : boundary ≠ ⊥ :=
  (lt_of_le_of_lt bot_le divides.1).ne'

theorem left_proper : Proper start boundary :=
  Or.inr divides.1

theorem right_proper : Proper boundary stop :=
  divides.2

theorem inRange_iff (key : K) :
    InRange start stop key ↔ InRange start boundary key ∨ InRange boundary stop key := by
  constructor
  · rintro ⟨fromStart, toStop⟩
    rcases lt_or_ge key boundary with below | above
    · exact Or.inl ⟨fromStart, Or.inr below⟩
    · exact Or.inr ⟨above, toStop⟩
  · rintro (⟨fromStart, toBoundary⟩ | ⟨fromBoundary, toStop⟩)
    · have below : key < boundary := toBoundary.resolve_left divides.ne_bot
      exact ⟨fromStart, divides.2.imp id fun ends => below.trans ends⟩
    · exact ⟨divides.1.le.trans fromBoundary, toStop⟩

theorem disjoint (left : InRange start boundary key) (right : InRange boundary stop key) :
    False := by
  have below : key < boundary := left.2.resolve_left divides.ne_bot
  exact absurd (below.trans_le right.1) (lt_irrefl key)

end

end Divides

end Esker.KeyRange
