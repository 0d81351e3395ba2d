import Esker.Consensus.Types

/-!
Contract: the configuration a log determines.

Owns: `confAt`, the fold of the changes a log carries, and the one byte form of a change.
-/

namespace Esker.Consensus

/-! ## The byte format -/

theorem toLeBytes_length (width value : Nat) : (toLeBytes width value).length = width := by
  induction width generalizing value with
  | zero => rfl
  | succ width ih => rw [toLeBytes, List.length_cons, ih]

theorem fromLeBytes_toLeBytes {width value : Nat} (fits : value < 256 ^ width) :
    fromLeBytes (toLeBytes width value) = value := by
  induction width generalizing value with
  | zero =>
    rw [Nat.pow_zero] at fits
    rw [toLeBytes, fromLeBytes]
    omega
  | succ width ih =>
    rw [Nat.pow_succ] at fits
    have small : value / 256 < 256 ^ width := Nat.div_lt_of_lt_mul (by omega)
    have byte : (UInt8.ofNat (value % 256)).toNat = value % 256 := by
      rw [UInt8.toNat_ofNat']
      omega
    rw [toLeBytes, fromLeBytes, ih small, byte]
    omega

theorem toLeBytes_fromLeBytes (bytes : Bytes) :
    toLeBytes bytes.length (fromLeBytes bytes) = bytes ∧ fromLeBytes bytes < 256 ^ bytes.length := by
  induction bytes with
  | nil => simp [toLeBytes, fromLeBytes]
  | cons byte rest ih =>
    have small := byte.toNat_lt
    rw [List.length_cons, toLeBytes, fromLeBytes, Nat.pow_succ, Nat.add_mul_mod_self_left,
      Nat.add_mul_div_left _ _ (by decide), Nat.mod_eq_of_lt small, Nat.div_eq_of_lt small,
      Nat.zero_add, ih.1, UInt8.ofNat_toNat]
    exact ⟨rfl, by omega⟩

/-- A change is read back as it was written, and no two payloads are read as one change. -/
theorem ConfChange.decode_eq_ok_iff (data : Bytes) (change : ConfChange) :
    decode data = .ok change ↔ change.node < 2 ^ 64 ∧ data = change.encode := by
  constructor
  · intro read
    unfold decode at read
    split at read
    · cases read
    split_ifs at read with short
    split at read
    · cases read
    case h_2 tag rest _ kind known =>
      cases read
      have width : (rest.take 8).length = 8 := by
        simp [headerLen] at short ⊢
        omega
      have number := toLeBytes_fromLeBytes (rest.take 8)
      rw [width] at number
      refine ⟨number.2, ?_⟩
      have sameTag : kind.tag = tag := by
        unfold ConfChangeKind.fromTag at known
        grind [ConfChangeKind.tag]
      rw [encode, sameTag, number.1, List.take_append_drop]
  · rintro ⟨fits, rfl⟩
    have known : ConfChangeKind.fromTag change.kind.tag = some change.kind := by
      cases change.kind <;> rfl
    have number := @fromLeBytes_toLeBytes 8 change.node fits
    simp [decode, encode, headerLen, known, toLeBytes_length, number]

/-! ## The configuration of a log -/

def Entry.reconfigure (conf : ConfState) (entry : Entry) : ConfState :=
  if entry.kind = .confChange then
    match ConfChange.decode entry.data with
    | .ok change => change.applyTo conf
    | .error _ => conf
  else conf

/-- The configuration a log determines, starting from `origin`. -/
def confAt (origin : ConfState) (log : List Entry) : ConfState :=
  log.foldl Entry.reconfigure origin

theorem confAt_append (origin : ConfState) (front back : List Entry) :
    confAt origin (front ++ back) = confAt (confAt origin front) back :=
  List.foldl_append

end Esker.Consensus
