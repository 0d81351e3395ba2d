import Mathlib

/-!
Contract: byte strings that are written field by field and read back the same way.

Owns: varints of base 128, bytes and lists behind their length, the reader that takes fields from
the front of what is left, and that it reads back what was written.
-/

namespace Esker.Wire

open List

inductive DecodeError where
  | truncated (field : String) (needed found : Nat)
  | varint (field : String)
  | invalidValue (field detail : String)
  | trailing (remaining : Nat)
deriving DecidableEq, Repr

/-- Takes fields from the front of the bytes that are left. -/
abbrev Reader (E : Type) := StateT (List UInt8) (Except E)

/-! ## Writing -/

/-- Seven bits a byte, the lowest first; the high bit says that more follow. -/
def putVarint (value : Nat) : List UInt8 :=
  if value < 128 then [UInt8.ofNat value]
  else UInt8.ofNat (value % 128 + 128) :: putVarint (value / 128)
termination_by value
decreasing_by omega

def putBytes (bytes : List UInt8) : List UInt8 := putVarint bytes.length ++ bytes

def putU32 (value : UInt32) : List UInt8 :=
  [UInt8.ofNat value.toNat, UInt8.ofNat (value.toNat / 256), UInt8.ofNat (value.toNat / 65536),
    UInt8.ofNat (value.toNat / 16777216)]

def putList {α : Type} (put : α → List UInt8) (elements : List α) : List UInt8 :=
  putVarint elements.length ++ elements.flatMap put

/-! ## Reading -/

def take (field : String) (count : Nat) : Reader DecodeError (List UInt8) := fun bytes =>
  if count ≤ bytes.length then .ok (bytes.take count, bytes.drop count)
  else .error (.truncated field count bytes.length)

variable (field : String)

def getU8 : Reader DecodeError UInt8 := fun bytes =>
  match bytes with
  | [] => .error (.truncated field 1 0)
  | byte :: rest => .ok (byte, rest)

def getU32 : Reader DecodeError UInt32 := do
  let bytes ← take field 4
  pure (UInt32.ofNat (bytes.foldr (fun byte above => byte.toNat + 256 * above) 0))

/-- The bytes of a varint from its `index`th on. At most ten are read, the tenth carries one bit,
and the last of several is not zero. -/
def varintFrom : Nat → List UInt8 → Option (Nat × List UInt8)
  | _, [] => none
  | index, byte :: rest =>
    if index = 10 then none
    else if index = 9 ∧ 1 < byte.toNat % 128 then none
    else if byte.toNat < 128 then
      if byte.toNat = 0 ∧ 0 < index then none else some (byte.toNat, rest)
    else
      match varintFrom (index + 1) rest with
      | none => none
      | some (above, rest) => some (byte.toNat % 128 + 128 * above, rest)

def getVarint : Reader DecodeError Nat := fun bytes =>
  match varintFrom 0 bytes with
  | none => .error (.varint field)
  | some (value, rest) => .ok (value, rest)

def getBytes : Reader DecodeError (List UInt8) := do
  let length ← getVarint field
  take field length

/-- A number of elements, which is at most the number of bytes that are left. -/
def getCount : Reader DecodeError Nat := fun bytes =>
  match getVarint field bytes with
  | .error error => .error error
  | .ok (count, rest) =>
    let left := rest.length
    if left < count then
      .error (.invalidValue field s!"count {count} exceeds the {left} bytes left")
    else .ok (count, rest)

def getMany {E α : Type} (read : Reader E α) : Nat → Reader E (List α)
  | 0 => pure []
  | count + 1 => do
      let element ← read
      let rest ← getMany read count
      pure (element :: rest)

def finish : Reader DecodeError Unit := fun bytes =>
  if bytes.length = 0 then .ok ((), bytes) else .error (.trailing bytes.length)

def mapError {E E' α : Type} (error : E → E') (read : Reader E α) : Reader E' α := fun bytes =>
  match read bytes with
  | .error failed => .error (error failed)
  | .ok result => .ok result

def require {E : Type} (holds : Bool) (error : E) : Reader E Unit := fun bytes =>
  if holds then .ok ((), bytes) else .error error

def requireSome {E α : Type} (found : Option α) (error : E) : Reader E α := fun bytes =>
  match found with
  | some value => .ok (value, bytes)
  | none => .error error

/-! ## What was written is read -/

/-- The reader takes exactly these bytes, whatever follows, and gives the value. -/
def Reads {E α : Type} (read : Reader E α) (bytes : List UInt8) (value : α) : Prop :=
  ∀ rest, read (bytes ++ rest) = .ok (value, rest)

section Reads

variable {E α β : Type}

theorem reads_pure (value : α) : Reads (pure value : Reader E α) [] value := fun _ => rfl

theorem Reads.bind {read : Reader E α} {next : α → Reader E β} {bytes later : List UInt8} {value : α}
    {result : β} (first : Reads read bytes value) (second : Reads (next value) later result) :
    Reads (read >>= next) (bytes ++ later) result := by
  intro rest
  rw [append_assoc]
  change (read (bytes ++ (later ++ rest)) >>= fun pair => next pair.1 pair.2) = _
  rw [first (later ++ rest)]
  exact second rest

variable {read : Reader E α} {bytes : List UInt8} {value : α} {put : α → List UInt8}

theorem Reads.map (first : Reads read bytes value) (result : α → β) :
    Reads (read >>= fun value => pure (result value)) bytes (result value) := by
  have both := @Reads.bind E α β read (fun value => pure (result value)) bytes [] value _ first
    (reads_pure (result value))
  rwa [append_nil] at both

variable (field : String)

theorem reads_u8 (byte : UInt8) : Reads (getU8 field) [byte] byte := fun _ => rfl

theorem reads_take (bytes : List UInt8) : Reads (take field bytes.length) bytes bytes := by
  intro rest
  unfold take
  rw [if_pos (by rw [length_append]; omega), take_left, drop_left]

theorem reads_u32 (value : UInt32) : Reads (getU32 field) (putU32 value) value := by
  have four : (putU32 value).length = 4 := rfl
  have taken := (reads_take field (putU32 value)).map
    fun bytes => UInt32.ofNat (bytes.foldr (fun byte above => byte.toNat + 256 * above) 0)
  have whole : UInt32.ofNat ((putU32 value).foldr (fun byte above => byte.toNat + 256 * above) 0) =
      value := by
    have bound := value.toNat_lt
    apply UInt32.toNat_inj.mp
    simp only [putU32, foldr_cons, foldr_nil, UInt8.toNat_ofNat', UInt32.toNat_ofNat']
    omega
  rw [whole, four] at taken
  exact taken

theorem varintFrom_putVarint (value : Nat) :
    ∀ index rest, value * 128 ^ index < 2 ^ 64 → (index = 0 ∨ 0 < value) →
      varintFrom index (putVarint value ++ rest) = some (value, rest) := by
  induction value using Nat.strongRecOn with
  | ind value ih =>
    intro index rest bound positive
    -- A byte that is needed is one of the first ten, and the tenth carries one bit.
    have early : index ≤ 9 := by
      by_contra late
      have power : 128 ^ 10 ≤ 128 ^ index := Nat.pow_le_pow_right (by decide) (by omega)
      have large : 1 * 128 ^ index ≤ value * 128 ^ index :=
        Nat.mul_le_mul_right _ (by omega)
      omega
    have tenth : index = 9 → value ≤ 1 := by
      intro isTenth
      rw [isTenth] at bound
      omega
    rw [putVarint]
    split
    case isTrue small =>
      have byte : (UInt8.ofNat value).toNat = value := by
        rw [UInt8.toNat_ofNat']
        omega
      rw [cons_append, nil_append, varintFrom, byte, if_neg (by omega),
        if_neg (by omega), if_pos small, if_neg (by omega)]
    case isFalse large =>
      have byte : (UInt8.ofNat (value % 128 + 128)).toNat = value % 128 + 128 := by
        rw [UInt8.toNat_ofNat']
        omega
      have next := ih (value / 128) (by omega) (index + 1) rest (by
          calc value / 128 * 128 ^ (index + 1) = value / 128 * 128 * 128 ^ index := by ring
            _ ≤ value * 128 ^ index := Nat.mul_le_mul_right _ (by omega)
            _ < 2 ^ 64 := bound)
        (.inr (by omega))
      have notTenth : index ≠ 9 := fun isTenth => by
        have := tenth isTenth
        omega
      rw [cons_append, varintFrom, byte, if_neg (by omega), if_neg (by omega),
        if_neg (by omega), next]
      simp only [Option.some.injEq, Prod.mk.injEq, and_true]
      omega

theorem reads_varint {value : Nat} (bound : value < 2 ^ 64) :
    Reads (getVarint field) (putVarint value) value := by
  intro rest
  unfold getVarint
  rw [varintFrom_putVarint value 0 rest (by omega) (.inl rfl)]

theorem reads_bytes (bound : bytes.length < 2 ^ 64) :
    Reads (getBytes field) (putBytes bytes) bytes :=
  (reads_varint field bound).bind (reads_take field bytes)

theorem reads_many (elements : List α)
    (each : ∀ element ∈ elements, Reads read (put element) element) :
    Reads (getMany read elements.length) (elements.flatMap put) elements := by
  induction elements with
  | nil => exact reads_pure []
  | cons element rest ih =>
    have later := ih fun other mem => each other (.tail _ mem)
    exact (each element (.head _)).bind (later.map (element :: ·))

theorem length_le_flatMap (elements : List α) (nonempty : ∀ element, 0 < (put element).length) :
    elements.length ≤ (elements.flatMap put).length := by
  induction elements with
  | nil => exact Nat.le_refl _
  | cons element rest ih =>
    have first := nonempty element
    rw [flatMap_cons, length_append, length_cons]
    omega

theorem reads_list (error : DecodeError → E) (elements : List α)
    (bound : elements.length < 2 ^ 64) (nonempty : ∀ element, 0 < (put element).length)
    (each : ∀ element ∈ elements, Reads read (put element) element) :
    Reads (mapError error (getCount field) >>= fun count => getMany read count)
      (putList put elements) elements := by
  intro rest
  have counted : getCount field (putVarint elements.length ++ (elements.flatMap put ++ rest)) =
      .ok (elements.length, elements.flatMap put ++ rest) := by
    have first := reads_varint field bound (elements.flatMap put ++ rest)
    have enough := length_le_flatMap elements nonempty
    unfold getCount
    rw [first]
    dsimp only
    rw [if_neg (by rw [length_append]; omega)]
  unfold putList
  rw [append_assoc]
  change (mapError error (getCount field) _ >>= fun pair => getMany read pair.1 pair.2) = _
  unfold mapError
  rw [counted]
  exact reads_many elements each rest

theorem reads_require {holds : Bool} (isTrue : holds = true) (error : E) :
    Reads (require holds error) [] () := by
  intro rest
  rw [isTrue]
  rfl

theorem reads_requireSome {found : Option α} (isFound : found = some value) (error : E) :
    Reads (requireSome found error) [] value := by
  intro rest
  rw [isFound]
  rfl

theorem Reads.orElse {E' : Type} (reads : Reads read bytes value) (error : E → E') :
    Reads (mapError error read) bytes value := by
  intro rest
  unfold mapError
  rw [reads rest]

/-- A whole message is read, and what follows its end has nothing left. -/
theorem Reads.whole {next : α → Reader E β} (reads : Reads read bytes value) :
    (read >>= next) bytes = next value [] := by
  have first := reads []
  rw [append_nil] at first
  change (read bytes >>= fun pair => next pair.1 pair.2) = _
  rw [first]
  rfl

theorem putVarint_length (value : Nat) : 0 < (putVarint value).length := by
  rw [putVarint]
  split <;> exact Nat.zero_lt_succ _

theorem putVarint_length_le (bytes : Nat) :
    ∀ value, value < 128 ^ (bytes + 1) → (putVarint value).length ≤ bytes + 1 := by
  induction bytes with
  | zero =>
    intro value bound
    rw [putVarint, if_pos (by omega)]
    exact Nat.le_refl 1
  | succ bytes ih =>
    intro value bound
    rw [putVarint]
    split
    · exact Nat.succ_le_succ (Nat.zero_le _)
    rw [length_cons]
    apply Nat.succ_le_succ
    apply ih
    rw [Nat.pow_succ] at bound
    exact Nat.div_lt_of_lt_mul (by rw [Nat.mul_comm]; exact bound)

end Reads

end Esker.Wire
