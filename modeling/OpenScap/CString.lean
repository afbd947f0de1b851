import Mathlib.Algebra.Group.Nat.Defs
import Mathlib.Logic.Basic

/-!
# Characters and strings of C

A string is the list of its bytes before the terminator. The character classes are those of
the C locale. Only the sign of what `strcmp` returns is modelled, which is all its callers use.
-/

namespace OpenScap

/-- A character constant. -/
def ascii (c : Char) : UInt8 := c.toUInt8

/-- A string constant. -/
def bytes (cs : List Char) : List UInt8 := cs.map ascii

/-- `isdigit`, `risdigit`. -/
def isdigit (c : UInt8) : Bool := ascii '0' ≤ c && c ≤ ascii '9'

/-- `isalpha`. -/
def isalpha (c : UInt8) : Bool :=
  (ascii 'a' ≤ c && c ≤ ascii 'z') || (ascii 'A' ≤ c && c ≤ ascii 'Z')

/-- `isalnum`. -/
def isalnum (c : UInt8) : Bool := isalpha c || isdigit c

/-- `isxdigit`. -/
def isxdigit (c : UInt8) : Bool :=
  isdigit c || (ascii 'a' ≤ c && c ≤ ascii 'f') || (ascii 'A' ≤ c && c ≤ ascii 'F')

/-- A letter or a digit is an ASCII character. -/
theorem isalnum_lt {c : UInt8} (h : isalnum c = true) : c < 128 := by
  simp only [isalnum, isalpha, isdigit, Bool.or_eq_true, Bool.and_eq_true, decide_eq_true_eq] at h
  rcases h with (h | h) | h
  · exact UInt8.lt_of_le_of_lt h.2 (by decide)
  · exact UInt8.lt_of_le_of_lt h.2 (by decide)
  · exact UInt8.lt_of_le_of_lt h.2 (by decide)

/-- A hexadecimal digit is a letter or a digit. -/
theorem isalnum_of_isxdigit {c : UInt8} (h : isxdigit c = true) : isalnum c = true := by
  simp only [isxdigit, isalnum, isalpha, Bool.or_eq_true, Bool.and_eq_true,
    decide_eq_true_eq] at h ⊢
  rcases h with (h | h) | h
  · exact .inr h
  · exact .inl (.inl ⟨h.1, UInt8.le_trans h.2 (by decide)⟩)
  · exact .inl (.inr ⟨h.1, UInt8.le_trans h.2 (by decide)⟩)

/-- The sign of what `strcmp` returns. -/
def strcmp : List UInt8 → List UInt8 → Int
  | [], [] => 0
  | [], _ :: _ => -1
  | _ :: _, [] => 1
  | a :: as, b :: bs => if a < b then -1 else if b < a then 1 else strcmp as bs

/-- `strcmp` finds equal texts. -/
theorem strcmp_eq_zero {a b : List UInt8} : strcmp a b = 0 ↔ a = b := by
  induction a generalizing b with
  | nil => cases b <;> simp [strcmp]
  | cons x xs ih =>
      cases b with
      | nil => simp [strcmp]
      | cons y ys =>
          rw [strcmp]
          by_cases hlt : x < y
          · simp [hlt, UInt8.ne_of_lt hlt]
          · by_cases hgt : y < x
            · simp [hlt, hgt, (UInt8.ne_of_lt hgt).symm]
            · have hxy : x = y := UInt8.le_antisymm (UInt8.not_lt.mp hgt) (UInt8.not_lt.mp hlt)
              rw [if_neg hlt, if_neg hgt, ih, hxy, List.cons.injEq, and_iff_right rfl]

/-- `tolower`. -/
def tolower (c : UInt8) : UInt8 := if ascii 'A' ≤ c ∧ c ≤ ascii 'Z' then c + 32 else c

/-- A byte that is no ASCII character is left as it is. -/
theorem tolower_of_not_lt {c : UInt8} (h : ¬ c < 128) : tolower c = c :=
  if_neg fun hletter => h (UInt8.lt_of_le_of_lt hletter.2 (by decide))

/-- The sign of what `strcasecmp` returns. -/
def strcasecmp (a b : List UInt8) : Int := strcmp (a.map tolower) (b.map tolower)

/-- `strcasecmp` finds texts that are equal up to case. -/
theorem strcasecmp_eq_zero {a b : List UInt8} :
    strcasecmp a b = 0 ↔ a.map tolower = b.map tolower := strcmp_eq_zero

/-- `strrchr`: what stands before the last occurrence of a character, and what after it. -/
def strrchr (c : UInt8) : List UInt8 → Option (List UInt8 × List UInt8)
  | [] => none
  | x :: xs =>
      match strrchr c xs with
      | some (before, after) => some (x :: before, after)
      | none => if x = c then some ([], xs) else none

/-- A character that does not occur. -/
theorem strrchr_of_notMem {c : UInt8} {s : List UInt8} (h : c ∉ s) : strrchr c s = none := by
  induction s with
  | nil => rfl
  | cons x xs ih =>
      obtain ⟨hne, hxs⟩ := List.ne_and_not_mem_of_not_mem_cons h
      rw [strrchr, ih hxs]
      exact if_neg hne.symm

/-- The last occurrence of a character is the one with none behind it. -/
theorem strrchr_append {c : UInt8} (before : List UInt8) {after : List UInt8} (h : c ∉ after) :
    strrchr c (before ++ c :: after) = some (before, after) := by
  induction before with
  | nil =>
      rw [List.nil_append, strrchr, strrchr_of_notMem h]
      exact if_pos rfl
  | cons x xs ih =>
      rw [List.cons_append, strrchr, ih]

/-- The value of a hexadecimal digit. -/
def xdigitValue (c : UInt8) : UInt8 :=
  if isdigit c then c - ascii '0'
  else if ascii 'a' ≤ c then c - ascii 'a' + 10
  else c - ascii 'A' + 10

/-- `sscanf` with `%x` on two hexadecimal digits. -/
def scanHex (h l : UInt8) : UInt8 := 16 * xdigitValue h + xdigitValue l

/-- `%02X` of an `unsigned int`. -/
def format02X (n : Nat) : List UInt8 :=
  let digits := (Nat.toDigits 16 n).map fun c => ascii c.toUpper
  List.replicate (2 - digits.length) (ascii '0') ++ digits

/-- The `unsigned int` that a `char` is converted to, `char` being signed. -/
def charToUnsigned (c : UInt8) : Nat :=
  if c < 128 then c.toNat else 2 ^ 32 + c.toNat - 256

/-- `oscap_split` at a separator of one character. -/
def oscapSplit (str : List UInt8) (delim : UInt8) : List (List UInt8) := str.splitOn delim

/-- What holds of the 256 values holds of every byte. -/
theorem forall_byte {p : UInt8 → Prop} (h : ∀ n < 256, p (UInt8.ofNat n)) (b : UInt8) : p b := by
  have hb := h b.toNat b.toNat_lt
  rwa [UInt8.ofNat_toNat] at hb

/-- What a check of every byte of a list finds holds of its members. -/
theorem forall_mem_of_all {p : UInt8 → Prop} [DecidablePred p] {l : List UInt8}
    (h : l.all (fun b => decide (p b)) = true) : ∀ b ∈ l, p b := by
  simpa using h

end OpenScap
