import Mathlib

/-!
Contract: majorities of a list of values.

Owns: what most of a list of values reaches.
-/

namespace Esker

open List

/-- In decreasing order, a majority has the value in the middle and no majority has more. -/
theorem greatest_of_middle {values : List Nat} {index : Nat}
    (middle : (values.insertionSort (· ≥ ·))[values.length / 2]? = some index) :
    IsGreatest { index | values.length < 2 * values.countP (index ≤ ·) } index := by
  have count (bound : Nat) := (perm_insertionSort (· ≥ ·) values).countP_eq (bound ≤ ·)
  have ordered := pairwise_insertionSort (· ≥ ·) values
  obtain ⟨front, back, split, position⟩ : ∃ front back, values.insertionSort (· ≥ ·) =
      front ++ index :: back ∧ front.length = values.length / 2 := by
    obtain ⟨inside, rfl⟩ := List.getElem?_eq_some_iff.mp middle
    have cut := take_append_drop (values.length / 2) (values.insertionSort (· ≥ ·))
    rw [drop_eq_getElem_cons inside] at cut
    exact ⟨_, _, cut.symm, length_take_of_le inside.le⟩
  rw [split, pairwise_append, pairwise_cons] at ordered
  simp only [split, countP_append, countP_cons] at count
  constructor
  · have high : front.countP (index ≤ ·) = front.length :=
      countP_eq_length.mpr fun value mem => by simpa using ordered.2.2 value mem index (.head _)
    have counted := count index
    simp only [high, le_refl, decide_true, if_true] at counted
    show values.length < _
    omega
  · intro bound many
    by_contra above
    have low : back.countP (bound ≤ ·) = 0 := countP_eq_zero.mpr fun value mem => by
      have atMost := ordered.2.1.1 value mem
      simp
      omega
    have counted := count bound
    simp only [low, above, decide_false, Bool.false_eq_true, if_false] at counted
    have inFront := front.countP_le_length (p := (bound ≤ ·))
    have most : values.length < _ := many
    omega

end Esker
