import Esker.Store.Snapshots

/-!
Contract: the engine keys of a user key (`encode_bytes`, `decode_bytes` and `enc_ts` of
`esker-keys/src/codec.rs`, `lock`, `write`, `value` and `version_range` of `esker-txn/src/key.rs`).

Owns: reading an encoding back, the order of a key's versions, and that these fill their range and
the ranges of a region.

Does not own: `split`, or what is stored under the keys.
-/

namespace Esker.Store.Snapshots

open List GroupEncoding
open Esker.Consensus (Bytes)

/-! ## Reading an encoding -/

inductive CodecError where
  | truncated (needed found : Nat)
  | badGroupMarker (marker : UInt8)
  | dirtyPadding

/-- The loop of `decode_bytes`, a group of eight bytes and its marker at a time. -/
def decodeGroups (out rest : Bytes) : Except CodecError (Bytes × Bytes) :=
  match _group : rest.drop 8 with
  | [] => .error (.truncated 9 rest.length)
  | marker :: tail =>
    if marker = 255 then decodeGroups (out ++ rest.take 8) tail
    else if 8 < 255 - marker.toNat then .error (.badGroupMarker marker)
    else if ((rest.take 8).drop (8 - (255 - marker.toNat))).any (· ≠ 0) then .error .dirtyPadding
    else .ok (out ++ (rest.take 8).take (8 - (255 - marker.toNat)), tail)
termination_by rest.length
decreasing_by
  have length := congrArg List.length _group
  rw [length_drop, length_cons] at length
  omega

def decodeBytes (buf : Bytes) : Except CodecError (Bytes × Bytes) := decodeGroups [] buf

theorem decodeGroups_group {payload : Bytes} (sized : payload.length = 8) (marker : UInt8)
    (out tail : Bytes) : decodeGroups out (payload ++ marker :: tail) =
      if marker = 255 then decodeGroups (out ++ payload) tail
      else if 8 < 255 - marker.toNat then .error (.badGroupMarker marker)
      else if (payload.drop (8 - (255 - marker.toNat))).any (· ≠ 0) then .error .dirtyPadding
      else .ok (out ++ payload.take (8 - (255 - marker.toNat)), tail) := by
  rw [decodeGroups]
  split <;> rename_i group <;> rw [drop_left' sized] at group <;> cases group
  rw [take_left' sized]

theorem decodeGroups_encodeBytes (value out later : Bytes) :
    decodeGroups out (encodeBytes value ++ later) = .ok (out ++ value, later) := by
  fun_induction encodeBytes value generalizing out with
  | case1 value full ih =>
    have head : (value.take 8).length = 8 := by
      rw [length_take]
      omega
    rw [append_assoc, cons_append, decodeGroups_group head, if_pos rfl, ih, append_assoc,
      take_append_drop]
  | case2 value short =>
    have padded : (value ++ replicate (8 - value.length) 0).length = 8 := by
      rw [length_append, length_replicate]
      omega
    have marked : (UInt8.ofNat (255 - (8 - value.length))).toNat = 255 - (8 - value.length) := by
      rw [UInt8.toNat_ofNat']
      omega
    have kept : 8 - (255 - (255 - (8 - value.length))) = value.length := by omega
    have notFull : UInt8.ofNat (255 - (8 - value.length)) ≠ 255 := by
      rw [← UInt8.toNat_inj.ne, marked]
      exact (by omega : 255 - (8 - value.length) < 255).ne
    rw [append_assoc, singleton_append, decodeGroups_group padded, if_neg notFull, marked, kept,
      if_neg (by omega), drop_left, take_left, if_neg (by simp)]

theorem of_decodeGroups {out buf value later : Bytes}
    (read : decodeGroups out buf = .ok (value, later)) :
    ∃ rest, value = out ++ rest ∧ buf = encodeBytes rest ++ later := by
  fun_induction decodeGroups out buf with
  | case1 => cases read
  | case2 out buf tail group ih =>
    obtain ⟨rest, rfl, rfl⟩ := ih read
    have head : (buf.take 8).length = 8 := by
      have length := congrArg List.length group
      rw [length_drop, length_cons] at length
      rw [length_take]
      omega
    refine ⟨buf.take 8 ++ rest, by rw [append_assoc], ?_⟩
    rw [encodeBytes, if_pos (by rw [length_append]; omega), take_left' head, drop_left' head,
      append_assoc, cons_append, ← group, take_append_drop]
  | case3 => cases read
  | case4 => cases read
  | case5 out buf marker tail group notFull fits clean =>
    obtain ⟨rfl, rfl⟩ := Prod.mk.inj (Except.ok.inj read)
    refine ⟨_, rfl, ?_⟩
    have length := congrArg List.length group
    rw [length_drop, length_cons] at length
    have below : marker.toNat < 255 :=
      lt_of_le_of_ne (Nat.le_of_lt_succ marker.toNat_lt) fun full =>
        notFull (UInt8.toNat_inj.mp full)
    generalize isKept : 8 - (255 - marker.toNat) = kept at clean ⊢
    have taken : ((buf.take 8).take kept).length = kept := by
      rw [length_take, length_take]
      omega
    have zeros : (buf.take 8).drop kept = replicate (8 - kept) 0 := by
      rw [eq_replicate_iff, length_drop, length_take]
      refine ⟨by omega, fun byte mem => ?_⟩
      by_contra dirty
      exact clean (any_eq_true.mpr ⟨byte, mem, decide_eq_true dirty⟩)
    have marked : UInt8.ofNat (255 - (8 - kept)) = marker := by
      rw [← UInt8.toNat_inj, UInt8.toNat_ofNat']
      omega
    rw [encodeBytes, if_neg (by omega), taken, ← zeros, take_append_drop, marked, append_assoc,
      singleton_append, ← group, take_append_drop]

/-! ## Versions -/

def encTs (ts : UInt64) : Bytes := toBeBytes 8 (~~~ts).toNat

theorem encTs_lt (left right : UInt64) : encTs left < encTs right ↔ right < left := by
  rw [encTs, encTs, toBeBytes_lt, UInt64.lt_iff_toNat_lt, UInt64.toNat_not, UInt64.toNat_not]
  have := left.toNat_lt
  have := right.toNat_lt
  simp only [UInt64.size]
  omega

def lock (user : Bytes) : Bytes := txnNamespace :: encodeBytes user

/-- `write` and `value`, whose timestamps are of a commit and of a start. -/
def versioned (user : Bytes) (ts : UInt64) : Bytes := lock user ++ encTs ts

def versionRange (user : Bytes) : Bytes × Bytes :=
  let stop := lock user
  (versioned user 18446744073709551615, match stop.getLast? with
    | none => stop
    | some marker => stop.dropLast ++ [if marker = 255 then 255 else marker + 1])

theorem exists_marker (value : Bytes) :
    ∃ body marker, encodeBytes value = body ++ [marker] ∧ marker ≠ 255 := by
  fun_induction encodeBytes value with
  | case1 value full ih =>
    obtain ⟨body, marker, isEncoded, notFull⟩ := ih
    exact ⟨value.take 8 ++ 255 :: body, marker,
      by rw [isEncoded, append_assoc, cons_append], notFull⟩
  | case2 value short =>
    refine ⟨_, _, rfl, ?_⟩
    rw [← UInt8.toNat_inj.ne, UInt8.toNat_ofNat']
    exact (by omega : (255 - (8 - value.length)) % 2 ^ 8 < 255).ne

theorem toNat_successor {marker : UInt8} (notFull : marker ≠ 255) :
    (marker + 1).toNat = marker.toNat + 1 := by
  have below : marker.toNat ≠ 255 := UInt8.toNat_inj.ne.mpr notFull
  have bound := marker.toNat_lt
  rw [UInt8.toNat_add]
  exact Nat.mod_eq_of_lt (by omega : marker.toNat + 1 < 2 ^ 8)

/-- What is above a string and does not begin with it is above all that does. -/
theorem successor_le {body bytes : Bytes} {marker : UInt8} (notFull : marker ≠ 255)
    (above : body ++ [marker] < bytes) (apart : ¬ body ++ [marker] <+: bytes) :
    body ++ [marker + 1] ≤ bytes := by
  induction body generalizing bytes with
  | nil =>
    cases bytes with
    | nil => exact absurd above (not_lt_nil _)
    | cons first rest =>
      rcases cons_lt_cons_iff.mp above with higher | ⟨rfl, _⟩
      · rw [← not_lt, nil_append, cons_lt_cons_iff]
        rintro (lower | ⟨_, none⟩)
        · rw [UInt8.lt_iff_toNat_lt] at higher lower
          rw [toNat_successor notFull] at lower
          omega
        · exact not_lt_nil _ none
      · exact absurd ⟨rest, rfl⟩ apart
  | cons first body ih =>
    cases bytes with
    | nil => exact absurd above (not_lt_nil _)
    | cons other rest =>
      rcases cons_lt_cons_iff.mp above with higher | ⟨rfl, later⟩
      · exact le_of_lt (cons_lt_of_head higher)
      · rw [← not_lt, cons_append, cons_lt_same, not_lt]
        exact ih later fun begins => apart (cons_prefix_cons.mpr ⟨rfl, begins⟩)

theorem encodeBytes_prefix {left right suffix : Bytes}
    (begins : encodeBytes left <+: encodeBytes right ++ suffix) : left = right := by
  obtain ⟨rest, same⟩ := begins
  rcases lt_trichotomy left right with less | rfl | less
  · exact absurd same (encodeBytes_lt less rest suffix).ne
  · rfl
  · exact absurd same (encodeBytes_lt less suffix rest).ne'

theorem inVersionRange (user other suffix : Bytes) :
    ((versionRange user).1 ≤ lock other ++ suffix ∧ lock other ++ suffix < (versionRange user).2) ↔
      other = user ∧ encTs 18446744073709551615 ≤ suffix := by
  obtain ⟨body, marker, isEncoded, notFull⟩ := exists_marker user
  have stop : (versionRange user).2 = txnNamespace :: (body ++ [marker + 1]) := by
    rw [versionRange, lock, isEncoded, ← cons_append]
    simp only [getLast?_concat, dropLast_concat, if_neg notFull]
    rw [cons_append]
  rw [stop, versionRange, versioned, lock, lock, cons_append, cons_append, cons_lt_same, ← not_lt,
    cons_lt_same, not_lt]
  constructor
  · rintro ⟨fromStart, toStop⟩
    rcases lt_trichotomy other user with less | rfl | less
    · exact absurd fromStart (encodeBytes_lt less suffix _).not_ge
    · exact ⟨rfl, not_lt.mp fun less => ((append_lt_same _).mpr less).not_ge fromStart⟩
    · have above := encodeBytes_lt less [] suffix
      rw [append_nil, isEncoded] at above
      refine absurd toStop (not_lt.mpr (successor_le notFull above fun begins => less.ne ?_))
      rw [← isEncoded] at begins
      exact encodeBytes_prefix begins
  · rintro ⟨rfl, fromFirst⟩
    refine ⟨not_lt.mp fun less => ?_, ?_⟩
    · exact fromFirst.not_gt ((append_lt_same _).mp less)
    · rw [isEncoded, append_assoc]
      refine (append_lt_same _).mpr (cons_lt_of_head ?_)
      rw [UInt8.lt_iff_toNat_lt, toNat_successor notFull]
      exact Nat.lt_succ_self _

/-! ## Order and ownership -/

def EngineKey (key : Bytes) : Prop :=
  ∃ user, key = rawNamespace :: user ∨ key = lock user ∨ ∃ ts, key = versioned user ts

/-- A key lies in one of the engine ranges of `[start, stop)`. -/
def Owned (start stop key : Bytes) : Prop :=
  ∃ range ∈ physicalRangesOf start stop, range.1 ≤ key ∧ key < range.2

/-- Encodings keep the order, none begins another, and only they are read back; a key's versions
are the engine keys of its range, the newest first, and nothing lies between them; and a raw or
versioned key is owned with its user key. -/
theorem engine_keys_ordered_and_owned :
    (∀ left right, encodeBytes left < encodeBytes right ↔ left < right) ∧
    (∀ left right, encodeBytes left <+: encodeBytes right → left = right) ∧
    (∀ buf value later, decodeBytes buf = .ok (value, later) ↔ buf = encodeBytes value ++ later) ∧
    (∀ user key, EngineKey key → (((versionRange user).1 ≤ key ∧ key < (versionRange user).2) ↔
      ∃ ts, key = versioned user ts)) ∧
    (∀ user left right, versioned user left < versioned user right ↔ right < left) ∧
    (∀ user other newest ts oldest, versioned user newest ≤ versioned other ts →
      versioned other ts ≤ versioned user oldest → other = user) ∧
    ∀ start stop user,
      (Owned start stop (rawNamespace :: user) ↔ start ≤ user ∧ (stop = [] ∨ user < stop)) ∧
      ∀ ts, Owned start stop (versioned user ts) ↔ start ≤ user ∧ (stop = [] ∨ user < stop) := by
  have newest (ts : UInt64) : encTs 18446744073709551615 ≤ encTs ts := by
    rw [← not_lt, encTs_lt, UInt64.lt_iff_toNat_lt]
    exact Nat.not_lt_of_le (Nat.le_of_lt_succ ts.toNat_lt)
  have own (user : Bytes) (ts : UInt64) :=
    (inVersionRange user user (encTs ts)).mpr ⟨rfl, newest ts⟩
  refine ⟨fun left right => ?_, fun left right begins => ?_, fun buf value later => ?_,
    fun user key isKey => ?_, fun user left right => ?_, ?_, fun start stop user => ?_⟩
  · have encoded := @encoded_lt left right []
    rwa [append_nil] at encoded
  · rw [← append_nil (encodeBytes right)] at begins
    exact encodeBytes_prefix begins
  · constructor
    · intro read
      obtain ⟨rest, rfl, same⟩ := of_decodeGroups read
      exact same
    · rintro rfl
      exact decodeGroups_encodeBytes value [] later
  · constructor
    · rintro inside
      obtain ⟨other, rfl | rfl | ⟨ts, rfl⟩⟩ := isKey
      · exact absurd inside.1 (cons_lt_of_head (by decide)).not_ge
      · rw [← append_nil (lock other)] at inside
        exact absurd ((inVersionRange user other []).mp inside).2 (by decide)
      · exact ⟨ts, by rw [((inVersionRange user other _).mp inside).1]⟩
    · rintro ⟨ts, rfl⟩
      exact own user ts
  · rw [versioned, versioned, append_lt_same, encTs_lt]
  · intro user other newest ts oldest above below
    exact ((inVersionRange user other _).mp
      ⟨(own user newest).1.trans above, below.trans_lt (own user oldest).2⟩).1
  · have inside {key : Bytes}
        (isIn : _ ↔ Region.contains ⟨0, start, stop, [], ⟨0, 0⟩⟩ user = true) :
        Owned start stop key ↔ start ≤ user ∧ (stop = [] ∨ user < stop) :=
      (@inRegion_iff key ⟨0, start, stop, [], ⟨0, 0⟩⟩).symm.trans (isIn.trans Region.contains_iff)
    exact ⟨inside (inRegion_raw user), fun ts => inside (inRegion_txn user (encTs ts))⟩

end Esker.Store.Snapshots
