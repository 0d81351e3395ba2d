import Mathlib

/-!
Contract: byte strings in groups of eight, so that the order of the strings is the order of their
encodings whatever follows them.

Owns: the encoding, that no encoding begins another, and the order of numbers as bytes.
-/

namespace Esker.GroupEncoding

open List

/-- Full groups of eight bytes, each behind the marker of a full group, and a last group that is
padded with zeros and marked with how many. -/
def encodeBytes (value : List UInt8) : List UInt8 :=
  if 8 ≤ value.length then value.take 8 ++ 255 :: encodeBytes (value.drop 8)
  else value ++ List.replicate (8 - value.length) 0 ++ [UInt8.ofNat (255 - (8 - value.length))]
termination_by value.length
decreasing_by
  rw [length_drop]
  omega

/-! ## Byte by byte -/

/-- The encoding of the rest of a string of which `filled` bytes are in the group already. -/
def encodeFrom (filled : Nat) : List UInt8 → List UInt8
  | [] =>
    if filled = 8 then 255 :: (List.replicate 8 0 ++ [247])
    else List.replicate (8 - filled) 0 ++ [UInt8.ofNat (247 + filled)]
  | byte :: rest =>
    if filled = 8 then 255 :: byte :: encodeFrom 1 rest else byte :: encodeFrom (filled + 1) rest

theorem encodeFrom_full (value : List UInt8) : encodeFrom 8 value = 255 :: encodeFrom 0 value := by
  cases value <;> rfl

theorem encodeFrom_append (part rest : List UInt8) (filled : Nat)
    (fits : filled + part.length ≤ 8) :
    encodeFrom filled (part ++ rest) = part ++ encodeFrom (filled + part.length) rest := by
  induction part generalizing filled with
  | nil => rfl
  | cons byte part ih =>
    rw [length_cons] at fits
    rw [cons_append, encodeFrom, if_neg (by omega),
      ih (filled + 1) (by omega), length_cons, cons_append]
    congr 3
    omega

theorem encodeBytes_eq (value : List UInt8) : encodeBytes value = encodeFrom 0 value := by
  induction length : value.length using Nat.strongRecOn generalizing value with
  | ind _ ih =>
    rw [encodeBytes]
    split
    case isTrue full =>
      have head : (value.take 8).length = 8 := by
        rw [length_take]
        omega
      have rest := ih (value.drop 8).length (by rw [length_drop]; omega) (value.drop 8) rfl
      conv_rhs => rw [← take_append_drop 8 value]
      rw [encodeFrom_append _ _ 0 (by omega), head, encodeFrom_full, rest]
    case isFalse short =>
      have whole := encodeFrom_append value [] 0 (by omega)
      rw [append_nil] at whole
      rw [whole, Nat.zero_add, encodeFrom, if_neg (by omega), append_assoc]
      congr 4
      omega

/-! ## Order -/

theorem zero_cons_lt (byte : UInt8) {left right : List UInt8} (less : left < right) :
    0 :: left < byte :: right := by
  rw [cons_lt_cons_iff]
  by_cases isZero : byte = 0
  · exact .inr ⟨isZero.symm, less⟩
  left
  rw [UInt8.lt_iff_toNat_lt]
  exact Nat.pos_of_ne_zero fun zero => isZero (UInt8.toNat_inj.mp zero)

/-- Padding with a lower marker is below anything that may follow. -/
theorem padding_lt {shorter : Nat} (later more : List UInt8) (value : List UInt8) :
    ∀ filled, shorter < filled → filled ≤ 8 →
      List.replicate (8 - filled) 0 ++ UInt8.ofNat (247 + shorter) :: more <
        encodeFrom filled value ++ later := by
  have marker {left right : Nat} (less : left < right) (bound : right ≤ 8) :
      UInt8.ofNat (247 + left) < UInt8.ofNat (247 + right) := by
    rw [UInt8.lt_iff_toNat_lt, UInt8.toNat_ofNat', UInt8.toNat_ofNat']
    omega
  induction value with
  | nil =>
    intro filled below bound
    rw [encodeFrom]
    split
    case isTrue isFull =>
      subst isFull
      exact cons_lt_cons_iff.mpr (.inl (marker below (Nat.le_refl 8)))
    case isFalse =>
      rw [append_assoc]
      exact append_left_lt (cons_lt_cons_iff.mpr (.inl (marker below bound)))
  | cons byte rest ih =>
    intro filled below bound
    rw [encodeFrom]
    split
    case isTrue isFull =>
      subst isFull
      exact cons_lt_cons_iff.mpr (.inl (marker below (Nat.le_refl 8)))
    case isFalse notFull =>
      have zeros : 8 - filled = (8 - (filled + 1)) + 1 := by omega
      rw [zeros, replicate_succ, cons_append, cons_append]
      exact zero_cons_lt byte (ih (filled + 1) (by omega) (by omega))

theorem encodeFrom_lt (left : List UInt8) :
    ∀ (right : List UInt8) (filled : Nat) (later more : List UInt8), filled ≤ 8 → left < right →
      encodeFrom filled left ++ later < encodeFrom filled right ++ more := by
  -- Below a full group, where the marker of the group is not in the way.
  have open_ : ∀ (right : List UInt8) (filled : Nat) (later more : List UInt8), filled < 8 →
      left < right → encodeFrom filled left ++ later < encodeFrom filled right ++ more := by
    induction left with
    | nil =>
      intro right filled later more fits less
      cases right with
      | nil => exact absurd less (List.lt_irrefl [])
      | cons byte rest =>
        rw [encodeFrom, encodeFrom, if_neg (by omega), if_neg (by omega)]
        have zeros : 8 - filled = (8 - (filled + 1)) + 1 := by omega
        rw [zeros, replicate_succ, cons_append, cons_append, cons_append, append_assoc]
        exact zero_cons_lt byte (padding_lt more later rest (filled + 1) (by omega) (by omega))
    | cons first rest ih =>
      intro right filled later more fits less
      cases right with
      | nil => exact absurd less (not_lt_nil _)
      | cons byte others =>
        rw [encodeFrom, encodeFrom, if_neg (by omega), if_neg (by omega), cons_append,
          cons_append, cons_lt_cons_iff]
        rcases cons_lt_cons_iff.mp less with lower | ⟨same, restLess⟩
        · exact .inl lower
        refine .inr ⟨same, ?_⟩
        by_cases fills : filled + 1 = 8
        · rw [fills, encodeFrom_full, encodeFrom_full, cons_append, cons_append, cons_lt_cons_iff]
          exact .inr ⟨rfl, ih others 0 later more (by omega) restLess⟩
        · exact ih others (filled + 1) later more (by omega) restLess
  intro right filled later more fits less
  by_cases isFull : filled = 8
  · rw [isFull, encodeFrom_full, encodeFrom_full, cons_append, cons_append, cons_lt_cons_iff]
    exact .inr ⟨rfl, open_ right 0 later more (by omega) less⟩
  · exact open_ right filled later more (by omega) less

/-- The order of the strings is that of their encodings, whatever follows these. -/
theorem encodeBytes_lt {left right : List UInt8} (less : left < right) (later more : List UInt8) :
    encodeBytes left ++ later < encodeBytes right ++ more := by
  rw [encodeBytes_eq, encodeBytes_eq]
  exact encodeFrom_lt left right 0 later more (by omega) less

/-! ## Numbers -/

/-- The low `width` bytes of a number, the highest first. -/
def toBeBytes : (width : Nat) → Nat → List UInt8
  | 0, _ => []
  | width + 1, value => UInt8.ofNat (value / 256 ^ width) :: toBeBytes width value

theorem toBeBytes_lt (width left right : Nat) :
    toBeBytes width left < toBeBytes width right ↔ left % 256 ^ width < right % 256 ^ width := by
  induction width with
  | zero => simp [toBeBytes, Nat.mod_one]
  | succ width ih =>
    rw [toBeBytes, toBeBytes, cons_lt_cons_iff, ih, UInt8.lt_iff_toNat_lt, ← UInt8.toNat_inj,
      UInt8.toNat_ofNat', UInt8.toNat_ofNat', Nat.mod_pow_succ (x := left) (b := 256),
      Nat.mod_pow_succ (x := right) (b := 256)]
    have unit : 0 < 256 ^ width := Nat.pow_pos (by decide)
    have leftLow := Nat.mod_lt left unit
    have rightLow := Nat.mod_lt right unit
    rcases Nat.lt_trichotomy (left / 256 ^ width % 256) (right / 256 ^ width % 256) with
      lower | same | higher
    · have := Nat.mul_le_mul_left (256 ^ width) lower
      rw [Nat.mul_succ] at this
      omega
    · rw [same]
      omega
    · have := Nat.mul_le_mul_left (256 ^ width) higher
      rw [Nat.mul_succ] at this
      omega

end Esker.GroupEncoding
