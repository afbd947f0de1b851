import Mathlib.Data.Nat.Notation
import OpenScap.CString

/-!
# S-expressions

The values of S-expressions and the functions of the library that take them apart. A number
keeps its type and the bits that are stored. Lists are the lists of their members, which is
what their blocks hold one after another; positions are counted from 1, so that a loop over
positions is a walk along the list. Datatypes are left out.

`errno` is passed along where a caller reads it. A result is `undefined` where the source reads
memory that is not of the type, or outside of what was allocated.
-/

namespace OpenScap

/-- The values of `errno` that the library sets or its callers look for. -/
inductive Errno
  | edom | efault | einval | erange | other
deriving DecidableEq

/-- What a function of the source comes to: a result, a return value that stands for an error,
or undefined behaviour. -/
inductive Outcome (α : Type)
  | ok (a : α)
  | error (ret : Int)
  | undefined

/-- A result handed on. -/
def Outcome.bind {α β : Type} : Outcome α → (α → Outcome β) → Outcome β
  | .ok a, f => f a
  | .error ret, _ => .error ret
  | .undefined, _ => .undefined

@[simp] theorem Outcome.bind_ok {α β : Type} (a : α) (f : α → Outcome β) :
    (Outcome.ok a).bind f = f a := rfl

@[simp] theorem Outcome.bind_error {α β : Type} (ret : Int) (f : α → Outcome β) :
    (Outcome.error ret).bind f = .error ret := rfl

@[simp] theorem Outcome.bind_undefined {α β : Type} (f : α → Outcome β) :
    Outcome.undefined.bind f = .undefined := rfl

/-- A result that was handed on. -/
theorem Outcome.bind_eq_ok {α β : Type} {x : Outcome α} {f : α → Outcome β} {b : β}
    (h : x.bind f = .ok b) : ∃ a, x = .ok a ∧ f a = .ok b := by
  cases x with
  | ok a => exact ⟨a, rfl, h⟩
  | error ret => exact Outcome.noConfusion rfl (heq_of_eq h)
  | undefined => exact Outcome.noConfusion rfl (heq_of_eq h)

/-- A number by its type, as the bits that are stored. -/
inductive SexpNumber
  | bool (n : UInt8)
  | int8 (n : UInt8)
  | uint8 (n : UInt8)
  | int16 (n : UInt16)
  | uint16 (n : UInt16)
  | int32 (n : UInt32)
  | uint32 (n : UInt32)
  | int64 (n : UInt64)
  | uint64 (n : UInt64)
  | double (n : UInt64)

/-- `SEXP_number_getu_16`; the types that are too large set `errno`. -/
def SexpNumber.getu16 : SexpNumber → UInt16
  | .bool n | .int8 n | .uint8 n => n.toUInt16
  | .int16 n | .uint16 n => n
  | .int32 _ | .uint32 _ | .int64 _ | .uint64 _ | .double _ => 0xffff

/-- `SEXP_number_getu_32` with the `errno` it leaves. -/
def SexpNumber.getu32 (errno : Errno) : SexpNumber → UInt32 × Errno
  | .bool n | .int8 n | .uint8 n => (n.toUInt32, errno)
  | .int16 n | .uint16 n => (n.toUInt32, errno)
  | .int32 n | .uint32 n => (n, errno)
  | .int64 _ | .uint64 _ | .double _ => (0xffffffff, .edom)

/-- `SEXP_t`. -/
inductive Sexp
  | empty
  | string (s : List UInt8)
  | number (n : SexpNumber)
  | list (xs : List Sexp)

/-- The number, if it is one. -/
def Sexp.number? : Sexp → Option SexpNumber
  | .number n => some n
  | _ => none

/-- How many bytes `SEXP_number_getu_32` reads of a number of a type that is not too large; it
aborts at the types that it does not know. -/
def numberBytes (t : UInt8) : Option ℕ :=
  if t = 0x01 ∨ t = 0x07 ∨ t = 0x08 then some 1
  else if t = 0x0f ∨ t = 0x10 then some 2
  else if t = 0x1f ∨ t = 0x20 then some 4
  else none

/-- The number that bytes are, the first one being the lowest. -/
def littleEndian (bs : List UInt8) : UInt32 := bs.foldr (fun b n => b.toUInt32 ||| n <<< 8) 0

/-- `SEXP_number_getu_32` of a string, whose last byte it takes for the type. In front of the
characters of an empty string there is a zero byte, the end of its length. -/
def stringGetu32 (errno : Errno) (s : List UInt8) : Outcome (UInt32 × Errno) :=
  match s.getLast? with
  | none => .undefined
  | some t =>
      if 0x20 < t then .ok (0xffffffff, .edom)
      else
        match numberBytes t with
        | none => .undefined
        | some k => if k ≤ s.length then .ok (littleEndian (s.take k), errno) else .undefined

/-- `SEXP_number_getu_32` with the `errno` it leaves. -/
def Sexp.getu32 (errno : Errno) : Sexp → Outcome (UInt32 × Errno)
  | .number n => .ok (n.getu32 errno)
  | .string s => stringGetu32 errno s
  -- a list ends with the high byte of its offset, which is no type
  | .list _ => .undefined
  | .empty => .undefined

/-- `SEXP_string_nth` at 1, with the `errno` it leaves. -/
def Sexp.stringFirst (errno : Errno) : Sexp → Option UInt8 × Errno
  | .string (c :: _) => (some c, errno)
  | .string [] => (none, .erange)
  | _ => (none, .einval)

/-- Whether the comparison of the bytes of a string with a C string finds no difference. -/
def stringEq : List UInt8 → List UInt8 → Bool
  | [], [] => true
  | [], _ :: _ => false
  | m :: _, [] => m == 0
  | m :: ms, c :: cs => m == c && stringEq ms cs

/-- `SEXP_strcmp` gives 0. -/
def Sexp.strEq : Sexp → List UInt8 → Bool
  | .string s, str => stringEq s str
  | _, _ => false

/-- `SEXP_string_cstr`: the C string ends at the first zero byte. -/
def Sexp.cstr : Sexp → Option (List UInt8)
  | .string s => some (s.takeWhile (· ≠ 0))
  | _ => none

/-- `SEXP_string_subcstr`. The length is a limit, so that a length of 0 gives no string; what is
copied is as long as the whole string. -/
def Sexp.subcstr (beg len : ℕ) : Sexp → Outcome (Option (List UInt8))
  | .string s =>
      if beg > s.length then .ok none
      else if min (s.length - beg) len > 0 then
        if beg = 0 then .ok (some (s.takeWhile (· ≠ 0))) else .undefined
      else .ok none
  | _ => .ok none

/-- A limit of 0 leaves no string. -/
theorem Sexp.subcstr_zero (beg : ℕ) (x : Sexp) : x.subcstr beg 0 = .ok none := by
  cases x with
  | string s =>
      rw [Sexp.subcstr, Nat.min_zero, if_neg (Nat.lt_irrefl 0), ite_self]
  | _ => rfl

end OpenScap
