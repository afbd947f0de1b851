import OpenScap.CInteger
import OpenScap.Sexp

/-!
# Numbers of S-expressions

The constructors of numbers and the functions that get an integer out of one. A number keeps
its type and its bits; a getter reads the bits by the type it casts them to, which is not always
the type they were stored by, and converts what it read to the type of its result.

## Main results

* `NumberGetter.get_of_lt` — a type that a getter does not take gives its largest result;
* `NumberGetter.get_eq_iff` — when a getter returns the integer that is stored.
-/

namespace OpenScap

open CInteger

/-! ### Types -/

/-- `SEXP_numtype_t`. -/
inductive SexpNumtype
  | bool
  | int8
  | uint8
  | int16
  | uint16
  | int32
  | uint32
  | int64
  | uint64
  | double
  deriving DecidableEq, Repr

/-- The constants by which types are compared. -/
def SexpNumtype.code : SexpNumtype → ℕ
  | .bool => 0x01
  | .int8 => 0x07
  | .uint8 => 0x08
  | .int16 => 0x0f
  | .uint16 => 0x10
  | .int32 => 0x1f
  | .uint32 => 0x20
  | .int64 => 0x3f
  | .uint64 => 0x40
  | .double => 0x41

/-- `SEXP_rawval_number_type`. -/
def SexpNumber.type : SexpNumber → SexpNumtype
  | .bool _ => .bool
  | .int8 _ => .int8
  | .uint8 _ => .uint8
  | .int16 _ => .int16
  | .uint16 _ => .uint16
  | .int32 _ => .int32
  | .uint32 _ => .uint32
  | .int64 _ => .int64
  | .uint64 _ => .uint64
  | .double _ => .double

/-- The width of a type. -/
def SexpNumtype.bits : SexpNumtype → ℕ
  | .bool | .int8 | .uint8 => 8
  | .int16 | .uint16 => 16
  | .int32 | .uint32 => 32
  | .int64 | .uint64 | .double => 64

/-- The types of signed integers. -/
def SexpNumtype.signed : SexpNumtype → Bool
  | .int8 | .int16 | .int32 | .int64 => true
  | .bool | .uint8 | .uint16 | .uint32 | .uint64 | .double => false

/-- The bits of a number, read as an unsigned integer. -/
def SexpNumber.raw : SexpNumber → ℕ
  | .bool n | .int8 n | .uint8 n => n.toNat
  | .int16 n | .uint16 n => n.toNat
  | .int32 n | .uint32 n => n.toNat
  | .int64 n | .uint64 n | .double n => n.toNat

/-- The integer that is stored, read by its own type. -/
def SexpNumber.integer : SexpNumber → Option ℤ
  | .bool n => some n.toNat
  | .int8 n => some n.toInt8.toInt
  | .uint8 n => some n.toNat
  | .int16 n => some n.toInt16.toInt
  | .uint16 n => some n.toNat
  | .int32 n => some n.toInt32.toInt
  | .uint32 n => some n.toNat
  | .int64 n => some n.toInt64.toInt
  | .uint64 n => some n.toNat
  | .double _ => none

/-! ### Constructors -/

/-- The constructors of integers, with their arguments. -/
inductive NumberConstructor
  | newb (n : Bool)
  | newi8 (n : Int8)
  | newu8 (n : UInt8)
  | newi16 (n : Int16)
  | newu16 (n : UInt16)
  | newi32 (n : Int32)
  | newu32 (n : UInt32)
  | newi64 (n : Int64)
  | newu64 (n : UInt64)

/-- `SEXP_number_newb`, `SEXP_number_newi_8` and the others: the type, and the argument. -/
def NumberConstructor.number : NumberConstructor → SexpNumber
  | .newb n => .bool n.toUInt8
  | .newi8 n => .int8 n.toUInt8
  | .newu8 n => .uint8 n
  | .newi16 n => .int16 n.toUInt16
  | .newu16 n => .uint16 n
  | .newi32 n => .int32 n.toUInt32
  | .newu32 n => .uint32 n
  | .newi64 n => .int64 n.toUInt64
  | .newu64 n => .uint64 n

/-- The integer that a constructor is given. -/
def NumberConstructor.integer : NumberConstructor → ℤ
  | .newb n => n.toNat
  | .newi8 n => n.toInt
  | .newu8 n => n.toNat
  | .newi16 n => n.toInt
  | .newu16 n => n.toNat
  | .newi32 n => n.toInt
  | .newu32 n => n.toNat
  | .newi64 n => n.toInt
  | .newu64 n => n.toNat

/-- A constructor stores the integer that it is given. -/
theorem NumberConstructor.integer_number (c : NumberConstructor) :
    c.number.integer = some c.integer := by
  cases c with
  | newb n => cases n <;> rfl
  | _ n => rfl

/-! ### Getters -/

/-- `SEXP_number_getu_8`. -/
def SexpNumber.getu8 : SexpNumber → UInt8
  | .uint8 n | .int8 n | .bool n => n
  | .int16 _ | .uint16 _ | .int32 _ | .uint32 _ | .int64 _ | .uint64 _ | .double _ => 0xff

/-- `SEXP_number_geti_32`. The types of 16 and of 8 bits are read as unsigned ones. -/
def SexpNumber.geti32 : SexpNumber → Int32
  | .int32 n => n.toInt32
  | .uint32 n => n.toInt32
  | .uint16 n | .int16 n => n.toUInt32.toInt32
  | .uint8 n | .int8 n | .bool n => n.toUInt32.toInt32
  | .int64 _ | .uint64 _ | .double _ => 0x7fffffff

/-- `SEXP_number_geti_64`. The types of 16 bits are read as unsigned ones. -/
def SexpNumber.geti64 : SexpNumber → Int64
  | .int64 n => n.toInt64
  | .uint64 n => n.toInt64
  | .uint32 n => n.toUInt64.toInt64
  | .int32 n => n.toInt32.toInt64
  | .uint16 n | .int16 n => n.toUInt64.toInt64
  | .uint8 n | .bool n => n.toUInt64.toInt64
  | .int8 n => n.toInt8.toInt64
  | .double _ => 0x7fffffffffffffff

/-- `SEXP_number_getu_64`. -/
def SexpNumber.getu64 : SexpNumber → UInt64
  | .uint64 n => n
  | .int64 n => n.toInt64.toUInt64
  | .uint32 n => n.toUInt64
  | .int32 n => n.toInt32.toInt64.toUInt64
  | .uint16 n | .int16 n => n.toUInt64
  | .uint8 n | .int8 n | .bool n => n.toUInt64
  | .double _ => 0xffffffffffffffff

/-- The getters of integers. -/
inductive NumberGetter
  | geti32
  | geti64
  | getu8
  | getu16
  | getu32
  | getu64
  deriving DecidableEq, Repr

/-- What a getter returns. -/
def NumberGetter.get (number : SexpNumber) : NumberGetter → ℤ
  | .geti32 => number.geti32.toInt
  | .geti64 => number.geti64.toInt
  | .getu8 => number.getu8.toNat
  | .getu16 => number.getu16.toNat
  | .getu32 => (number.getu32 .other).1.toNat
  | .getu64 => number.getu64.toNat

/-- The last type that a getter takes. -/
def NumberGetter.widest : NumberGetter → SexpNumtype
  | .getu8 => .uint8
  | .getu16 => .uint16
  | .geti32 | .getu32 => .uint32
  | .geti64 | .getu64 => .uint64

/-- The least integer of the result type. -/
def NumberGetter.minimum : NumberGetter → ℤ
  | .geti32 => -2 ^ 31
  | .geti64 => -2 ^ 63
  | .getu8 | .getu16 | .getu32 | .getu64 => 0

/-- The largest integer of the result type. -/
def NumberGetter.maximum : NumberGetter → ℤ
  | .geti32 => 2 ^ 31 - 1
  | .geti64 => 2 ^ 63 - 1
  | .getu8 => 2 ^ 8 - 1
  | .getu16 => 2 ^ 16 - 1
  | .getu32 => 2 ^ 32 - 1
  | .getu64 => 2 ^ 64 - 1

/-- The result type is at least as wide as the type that a number is stored by. -/
def NumberGetter.Takes (getter : NumberGetter) (number : SexpNumber) : Prop :=
  number.type.code ≤ getter.widest.code

/-- An integer is one of the result type. -/
def NumberGetter.Represents (getter : NumberGetter) (n : ℤ) : Prop :=
  getter.minimum ≤ n ∧ n ≤ getter.maximum

instance (getter : NumberGetter) (number : SexpNumber) : Decidable (getter.Takes number) :=
  inferInstanceAs (Decidable (_ ≤ _))

instance (getter : NumberGetter) (n : ℤ) : Decidable (getter.Represents n) :=
  inferInstanceAs (Decidable (_ ∧ _))

/-- A signed type that a getter of signed integers reads as the unsigned one. -/
def NumberGetter.readsUnsigned : NumberGetter → SexpNumtype → Bool
  | .geti32, .int8 | .geti32, .int16 | .geti64, .int16 => true
  | _, _ => false

/-! ### What is returned -/

/-- The bits are as many as the type has. -/
theorem SexpNumber.raw_lt (number : SexpNumber) : number.raw < 2 ^ number.type.bits := by
  cases number with
  | bool n | int8 n | uint8 n => exact n.toNat_lt
  | int16 n | uint16 n => exact n.toNat_lt
  | int32 n | uint32 n => exact n.toNat_lt
  | int64 n | uint64 n | double n => exact n.toNat_lt

/-- The integer is that of the bits, which are read by the type. -/
theorem SexpNumber.integer_eq {number : SexpNumber} {n : ℤ} (h : number.integer = some n) :
    n = if number.type.signed then signedOf number.type.bits number.raw else number.raw := by
  cases number with
  | double n => exact absurd h (by simp [SexpNumber.integer])
  | bool n | uint8 n | uint16 n | uint32 n | uint64 n => exact (Option.some.inj h).symm
  | int8 n => exact (Option.some.inj h).symm.trans (toInt_toInt8 n)
  | int16 n => exact (Option.some.inj h).symm.trans (toInt_toInt16 n)
  | int32 n => exact (Option.some.inj h).symm.trans (toInt_toInt32 n)
  | int64 n => exact (Option.some.inj h).symm.trans (toInt_toInt64 n)

/-- **A type that a getter does not take gives its largest result.** -/
theorem NumberGetter.get_of_not_takes {getter : NumberGetter} {number : SexpNumber}
    (h : ¬ getter.Takes number) : getter.get number = getter.maximum := by
  rw [NumberGetter.Takes, Nat.not_le] at h
  cases getter <;> cases number <;>
    first | rfl | simp [NumberGetter.widest, SexpNumber.type, SexpNumtype.code] at h

section Takes

variable {number : SexpNumber}

/-- The bits of a type that is taken are the result. -/
theorem toNat_getu8 (h : NumberGetter.getu8.Takes number) :
    number.getu8.toNat = number.raw := by
  cases number with
  | bool n | int8 n | uint8 n => rfl
  | _ n => simp [NumberGetter.Takes, NumberGetter.widest, SexpNumber.type, SexpNumtype.code] at h

/-- The bits of a type that is taken are the result. -/
theorem toNat_getu16 (h : NumberGetter.getu16.Takes number) :
    number.getu16.toNat = number.raw := by
  cases number with
  | bool n | int8 n | uint8 n => rfl
  | int16 n | uint16 n => rfl
  | _ n => simp [NumberGetter.Takes, NumberGetter.widest, SexpNumber.type, SexpNumtype.code] at h

/-- The bits of a type that is taken are the result. -/
theorem toNat_getu32 (h : NumberGetter.getu32.Takes number) :
    (number.getu32 .other).1.toNat = number.raw := by
  cases number with
  | bool n | int8 n | uint8 n => rfl
  | int16 n | uint16 n => rfl
  | int32 n | uint32 n => rfl
  | _ n => simp [NumberGetter.Takes, NumberGetter.widest, SexpNumber.type, SexpNumtype.code] at h

/-- A signed integer of 32 bits is extended, any other type gives its bits. -/
theorem toNat_getu64 (h : NumberGetter.getu64.Takes number) :
    (number.getu64.toNat : ℤ) =
      if number.type = .int32 then signedOf 32 number.raw % 2 ^ 64 else (number.raw : ℤ) := by
  cases number with
  | bool n | int8 n | uint8 n => rfl
  | int16 n | uint16 n => rfl
  | uint32 n => rfl
  | int64 n | uint64 n => rfl
  | int32 n =>
      rw [SexpNumber.getu64, toNat_toUInt64, Int32.toInt_toInt64, toInt_toInt32]
      rfl
  | double n =>
      simp [NumberGetter.Takes, NumberGetter.widest, SexpNumber.type, SexpNumtype.code] at h

/-- The bits are read as a signed integer of 32 bits, whatever the type. -/
theorem toInt_geti32 (h : NumberGetter.geti32.Takes number) :
    number.geti32.toInt = signedOf 32 number.raw := by
  cases number with
  | bool n | int8 n | uint8 n => exact toInt_toInt32 n.toUInt32
  | int16 n | uint16 n => exact toInt_toInt32 n.toUInt32
  | int32 n | uint32 n => exact toInt_toInt32 n
  | _ n => simp [NumberGetter.Takes, NumberGetter.widest, SexpNumber.type, SexpNumtype.code] at h

/-- The bits are read as a signed integer of 64 bits, but for two of the signed types. -/
theorem toInt_geti64 (h : NumberGetter.geti64.Takes number) :
    number.geti64.toInt =
      if number.type = .int8 ∨ number.type = .int32 then signedOf number.type.bits number.raw
      else signedOf 64 number.raw := by
  cases number with
  | bool n | uint8 n => exact toInt_toInt64 n.toUInt64
  | int16 n | uint16 n => exact toInt_toInt64 n.toUInt64
  | uint32 n => exact toInt_toInt64 n.toUInt64
  | int64 n | uint64 n => exact toInt_toInt64 n
  | int8 n => exact (Int8.toInt_toInt64 _).trans (toInt_toInt8 n)
  | int32 n => exact (Int32.toInt_toInt64 _).trans (toInt_toInt32 n)
  | double n =>
      simp [NumberGetter.Takes, NumberGetter.widest, SexpNumber.type, SexpNumtype.code] at h

end Takes

/-- An integer that is not negative is that of the bits. -/
theorem SexpNumber.raw_eq {number : SexpNumber} {n : ℤ} (h : number.integer = some n)
    (hn : 0 ≤ n) : (number.raw : ℤ) = n := by
  have hraw := number.raw_lt
  rw [SexpNumber.integer_eq h] at hn ⊢
  split at hn
  · rw [if_pos ‹_›, signedOf_of_nonneg hraw hn]
  · rw [if_neg ‹_›]

/-- A negative integer is stored by a signed type. -/
theorem SexpNumber.signed_of_neg {number : SexpNumber} {n : ℤ} (h : number.integer = some n)
    (hn : n < 0) : number.type.signed = true ∧ n = signedOf number.type.bits number.raw := by
  rw [SexpNumber.integer_eq h] at hn ⊢
  split at hn
  · exact ⟨‹_›, if_pos ‹_›⟩
  · omega

/-- `SEXP_number_geti_32` on an integer that is not negative. -/
theorem toInt_geti32_of_nonneg {number : SexpNumber} {n : ℤ} (h : number.integer = some n)
    (htakes : NumberGetter.geti32.Takes number) (hn : 0 ≤ n) (hmax : n < 2 ^ 31) :
    number.geti32.toInt = n := by
  have hraw := SexpNumber.raw_eq h hn
  rw [toInt_geti32 htakes, signedOf_of_lt (hraw.trans_lt hmax), hraw]

/-- `SEXP_number_geti_64` on an integer that is not negative. -/
theorem toInt_geti64_of_nonneg {number : SexpNumber} {n : ℤ} (h : number.integer = some n)
    (htakes : NumberGetter.geti64.Takes number) (hn : 0 ≤ n) (hmax : n < 2 ^ 63) :
    number.geti64.toInt = n := by
  have hraw := SexpNumber.raw_eq h hn
  rw [toInt_geti64 htakes]
  split
  · have hsigned : number.type.signed = true := by
      rcases ‹_ ∨ _› with htype | htype <;> rw [htype] <;> rfl
    rw [SexpNumber.integer_eq h, if_pos hsigned]
  · rw [signedOf_of_lt (hraw.trans_lt hmax), hraw]

/-- `SEXP_number_getu_64` on an integer that is not negative. -/
theorem toNat_getu64_of_nonneg {number : SexpNumber} {n : ℤ} (h : number.integer = some n)
    (htakes : NumberGetter.getu64.Takes number) (hn : 0 ≤ n) (hmax : n < 2 ^ 64) :
    (number.getu64.toNat : ℤ) = n := by
  rw [toNat_getu64 htakes]
  split
  · have heq : n = signedOf 32 number.raw := by
      have := SexpNumber.integer_eq h
      rwa [‹number.type = _›] at this
    rw [← heq, Int.emod_eq_of_lt hn hmax]
  · exact SexpNumber.raw_eq h hn

/-- `SEXP_number_geti_32` on a negative integer: the types of less than 32 bits lose the sign. -/
theorem toInt_geti32_of_neg {number : SexpNumber} {n : ℤ} (h : number.integer = some n)
    (htakes : NumberGetter.geti32.Takes number) (hn : n < 0) :
    number.geti32.toInt = n ↔ NumberGetter.geti32.readsUnsigned number.type = false := by
  obtain ⟨hsigned, heq⟩ := SexpNumber.signed_of_neg h hn
  have hraw := number.raw_lt
  rw [toInt_geti32 htakes]
  cases htype : number.type with
  | int32 =>
      rw [htype] at heq
      exact iff_of_true heq.symm rfl
  | int8 | int16 =>
      rw [htype] at hraw
      have hlt : (number.raw : ℤ) < 2 ^ (32 - 1) := by
        have := Int.ofNat_lt.mpr hraw
        simp only [SexpNumtype.bits] at this
        omega
      rw [signedOf_of_lt hlt]
      exact iff_of_false (hn.trans_le (Int.natCast_nonneg _)).ne' (by decide)
  | int64 => exact absurd htakes (by rw [NumberGetter.Takes, htype]; decide)
  | _ => exact absurd hsigned (by rw [htype]; decide)

/-- `SEXP_number_geti_64` on a negative integer: the type of 16 bits loses the sign. -/
theorem toInt_geti64_of_neg {number : SexpNumber} {n : ℤ} (h : number.integer = some n)
    (htakes : NumberGetter.geti64.Takes number) (hn : n < 0) :
    number.geti64.toInt = n ↔ NumberGetter.geti64.readsUnsigned number.type = false := by
  obtain ⟨hsigned, heq⟩ := SexpNumber.signed_of_neg h hn
  have hraw := number.raw_lt
  rw [toInt_geti64 htakes]
  cases htype : number.type with
  | int8 | int32 | int64 =>
      rw [htype] at heq
      exact iff_of_true heq.symm rfl
  | int16 =>
      rw [htype] at hraw
      have hlt : (number.raw : ℤ) < 2 ^ (64 - 1) := by
        have := Int.ofNat_lt.mpr hraw
        simp only [SexpNumtype.bits] at this
        omega
      rw [if_neg (by decide), signedOf_of_lt hlt]
      exact iff_of_false (hn.trans_le (Int.natCast_nonneg _)).ne' (by decide)
  | _ => exact absurd hsigned (by rw [htype]; decide)

/-- **When a getter returns the integer that is stored.** -/
theorem NumberGetter.get_eq_iff {getter : NumberGetter} {number : SexpNumber} {n : ℤ}
    (h : number.integer = some n) (htakes : getter.Takes number) (hrep : getter.Represents n) :
    getter.get number = n ↔ ¬ (n < 0 ∧ getter.readsUnsigned number.type = true) := by
  obtain ⟨hmin, hmax⟩ := hrep
  rcases lt_or_ge n 0 with hneg | hnonneg
  · cases getter with
    | getu8 | getu16 | getu32 | getu64 => exact absurd hneg (Int.not_lt.mpr hmin)
    | geti32 =>
        rw [NumberGetter.get, toInt_geti32_of_neg h htakes hneg]
        simp [hneg]
    | geti64 =>
        rw [NumberGetter.get, toInt_geti64_of_neg h htakes hneg]
        simp [hneg]
  · have hraw := SexpNumber.raw_eq h hnonneg
    refine iff_of_true ?_ fun hlt => absurd hlt.1 (Int.not_lt.mpr hnonneg)
    cases getter with
    | getu8 => rw [NumberGetter.get, toNat_getu8 htakes, hraw]
    | getu16 => rw [NumberGetter.get, toNat_getu16 htakes, hraw]
    | getu32 => rw [NumberGetter.get, toNat_getu32 htakes, hraw]
    | getu64 => exact toNat_getu64_of_nonneg h htakes hnonneg (Int.lt_of_le_sub_one hmax)
    | geti32 => exact toInt_geti32_of_nonneg h htakes hnonneg (Int.lt_of_le_sub_one hmax)
    | geti64 => exact toInt_geti64_of_nonneg h htakes hnonneg (Int.lt_of_le_sub_one hmax)

end OpenScap
