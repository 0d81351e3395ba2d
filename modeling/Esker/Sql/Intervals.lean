import Esker.GroupEncoding
import Esker.Sql.Filters

/-!
Contract: the order of intervals (the interval arms of `encode_key_column` and `interval_total` of
`esker-keys/src/row.rs`, `encode_i64` of its `codec.rs`, and of `pg_cmp`).

Owns: the exact total of an interval, and for which intervals comparison and index keys follow it.
-/

namespace Esker.Sql

variable (value : Int64)

def flipSign : UInt64 := value.toUInt64 ^^^ ((1 : UInt64) <<< 63)

def encodeI64 : List UInt8 := GroupEncoding.toBeBytes 8 (flipSign value).toNat

theorem toNat_flipSign : ((flipSign value).toNat : Int) = value.toInt + 2 ^ 63 := by
  have signed : value.toInt = _ := value.toBitVec.toInt_eq_toNat_cond
  have flipped : (flipSign value).toNat = value.toBitVec.toNat ^^^ 2 ^ 63 := UInt64.toNat_xor _ _
  have high := Nat.xor_div_two_pow (a := value.toBitVec.toNat) (b := 2 ^ 63) (n := 63)
  have low := Nat.xor_mod_two_pow (a := value.toBitVec.toNat) (b := 2 ^ 63) (n := 63)
  have bound := value.toBitVec.isLt
  rw [flipped, signed]
  rw [Nat.mod_self, Nat.xor_zero] at low
  rcases (by omega : value.toBitVec.toNat / 2 ^ 63 = 0 ∨ value.toBitVec.toNat / 2 ^ 63 = 1) with
    sign | sign
  · rw [sign, Nat.div_self (by decide), Nat.zero_xor] at high
    split <;> omega
  · rw [sign, Nat.div_self (by decide), Nat.xor_self] at high
    split <;> omega

theorem encodeI64_lt (left right : Int64) :
    encodeI64 left < encodeI64 right ↔ left.toInt < right.toInt := by
  have := (flipSign left).toNat_lt
  have := (flipSign right).toNat_lt
  have := toNat_flipSign left
  have := toNat_flipSign right
  rw [encodeI64, encodeI64, GroupEncoding.toBeBytes_lt]
  omega

structure Interval where
  months : Int32
  days : Int32
  micros : Int64

namespace Interval

variable {N F : Type} (interval : Interval)

def toDatum : Datum N F :=
  .interval interval.months.toInt interval.days.toInt interval.micros.toInt

/-- The interval arm of `encode_key_column`. -/
def key : List UInt8 :=
  encodeI64 (.ofInt (intervalTotal interval.months.toInt interval.days.toInt interval.micros.toInt))

/-- The microseconds of the months and days, without overflow. -/
def dayMicros : Int :=
  (30 * interval.months.toInt + interval.days.toInt) * 86400000000

def total : Int := interval.dayMicros + interval.micros.toInt

/-- The microseconds fit into 64 bits, with and without those of the time. -/
def Representable : Prop :=
  (-2 ^ 63 ≤ interval.dayMicros ∧ interval.dayMicros < 2 ^ 63) ∧
    -2 ^ 63 ≤ interval.total ∧ interval.total < 2 ^ 63

instance (interval : Interval) : Decidable interval.Representable :=
  inferInstanceAs (Decidable (_ ∧ _))

/-- The saturating arithmetic finds the exact total of the representable intervals only. -/
theorem intervalTotal_eq_iff (interval : Interval) :
    intervalTotal interval.months.toInt interval.days.toInt interval.micros.toInt =
      interval.total ↔ interval.Representable := by
  have := interval.months.toInt_lt
  have := interval.months.le_toInt
  have := interval.days.toInt_lt
  have := interval.days.le_toInt
  have := interval.micros.toInt_lt
  have := interval.micros.le_toInt
  simp only [Representable, intervalTotal, saturate, total, dayMicros]
  omega

theorem Representable.intervalTotal_eq {interval : Interval} (fits : interval.Representable) :
    intervalTotal interval.months.toInt interval.days.toInt interval.micros.toInt =
      interval.total :=
  interval.intervalTotal_eq_iff.mpr fits

/-- The interval of microseconds alone whose exact total is the saturated one. -/
def saturated : Interval :=
  ⟨0, 0, .ofInt (intervalTotal interval.months.toInt interval.days.toInt interval.micros.toInt)⟩

theorem Representable.key_lt {left right : Interval} (leftFits : left.Representable)
    (rightFits : right.Representable) : left.key < right.key ↔ left.total < right.total := by
  rw [key, key, encodeI64_lt, leftFits.intervalTotal_eq, rightFits.intervalTotal_eq,
    Int64.toInt_ofInt_of_le leftFits.2.1 leftFits.2.2,
    Int64.toInt_ofInt_of_le rightFits.2.1 rightFits.2.2]

theorem toInt_total : (Int64.ofInt
    (intervalTotal interval.months.toInt interval.days.toInt interval.micros.toInt)).toInt =
      intervalTotal interval.months.toInt interval.days.toInt interval.micros.toInt := by
  apply Int64.toInt_ofInt_of_le <;> (unfold intervalTotal saturate; omega)

theorem total_saturated : interval.saturated.total =
    intervalTotal interval.months.toInt interval.days.toInt interval.micros.toInt := by
  simp only [total, dayMicros, saturated, toInt_total, Int32.toInt_zero]
  omega

theorem saturated_representable : interval.saturated.Representable := by
  have low : interval.saturated.dayMicros = 0 := by
    simp [dayMicros, saturated]
  have bounds := total_saturated interval
  unfold intervalTotal saturate at bounds
  rw [Representable, low]
  omega

/-- Two intervals compare, and their index keys sort, as their exact totals do. -/
def OrderedExactly (engine : Engine N F) (left right : Interval) : Prop :=
  left.toDatum.pgCmp engine right.toDatum = compare left.total right.total ∧
    (left.key < right.key ↔ left.total < right.total) ∧
    (left.key = right.key ↔ left.total = right.total)

theorem Representable.orderedExactly (engine : Engine N F) {left right : Interval}
    (leftFits : left.Representable) (rightFits : right.Representable) :
    left.OrderedExactly engine right := by
  refine ⟨?_, leftFits.key_lt rightFits, ?_⟩
  · rw [← leftFits.intervalTotal_eq, ← rightFits.intervalTotal_eq]
    rfl
  · constructor
    · intro same
      have below := leftFits.key_lt rightFits
      have above := rightFits.key_lt leftFits
      simp only [same, List.lt_irrefl, false_iff, not_lt] at below above
      exact le_antisymm above below
    · intro same
      rw [key, key, leftFits.intervalTotal_eq, rightFits.intervalTotal_eq, same]

/-- An interval is ordered exactly against every representable one exactly when it is
representable itself. -/
theorem interval_order_is_exact (engine : Engine N F) (left : Interval) :
    left.Representable ↔
      ∀ right : Interval, right.Representable → left.OrderedExactly engine right := by
  constructor
  · intro leftFits right rightFits
    exact leftFits.orderedExactly engine rightFits
  · intro exactly
    -- The interval that has the saturated total as its exact one compares as equal.
    have same := (exactly left.saturated left.saturated_representable).1
    rw [left.total_saturated] at same
    have equal : left.toDatum.pgCmp engine left.saturated.toDatum = .eq := by
      have compared : left.toDatum.pgCmp engine left.saturated.toDatum = compare _ _ := rfl
      rw [compared, compare_eq_iff_eq, left.saturated_representable.intervalTotal_eq,
        left.total_saturated]
    rw [equal, eq_comm, compare_eq_iff_eq] at same
    exact left.intervalTotal_eq_iff.mp same.symm

example : (Interval.mk 1 0 0).key = (Interval.mk 0 30 0).key := by decide +kernel

/-- The longest months saturate, so that two different intervals are equal and share a key. -/
theorem interval_total_saturates :
    (Interval.mk 2147483646 0 0).toDatum.pgCmp plainEngine
        (Interval.mk 2147483647 0 0).toDatum = .eq ∧
      (Interval.mk 2147483646 0 0).key = (Interval.mk 2147483647 0 0).key ∧
      (Interval.mk 2147483646 0 0).total < (Interval.mk 2147483647 0 0).total := by
  decide +kernel

/-- However far an interval is out of range, its index key sorts as it compares. -/
theorem interval_keys_follow_comparison (engine : Engine N F) (left right : Interval) :
    (left.toDatum.pgCmp engine right.toDatum = .lt ↔ left.key < right.key) ∧
      (left.toDatum.pgCmp engine right.toDatum = .eq ↔ left.key = right.key) := by
  have below (left right : Interval) : left.key < right.key ↔ _ :=
    encodeI64_lt (.ofInt _) (.ofInt _)
  simp only [toInt_total] at below
  have compared : left.toDatum.pgCmp engine right.toDatum = compare _ _ := rfl
  rw [compared, below, compare_lt_iff_lt, compare_eq_iff_eq]
  refine ⟨Iff.rfl, fun same => by rw [key, key, same], fun same => ?_⟩
  have less := below left right
  have more := below right left
  simp only [same, List.lt_irrefl, false_iff, not_lt] at less more
  exact le_antisymm more less

end Interval

end Esker.Sql
