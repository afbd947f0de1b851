import Mathlib.Algebra.Order.Ring.Nat
import Mathlib.Tactic.Ring
import OpenScap.CString

/-!
# Numbers of C in texts

The conversions of the C library from decimal digits to machine integers, on a platform with
an `int` of 32 and a `long` of 64 bits. `strtol` stops at the limits of `long`; `atoi` is
`strtol` converted to `int`, which keeps the low 32 bits.

## Main results

* `strtol_digits` — the number read from a text that starts with digits;
* `atoi_digits` — the same converted to `int`;
* `formatLu_inj` — different numbers are printed differently;
* `take_formatLu` — a printed number that is cut off is the text of a smaller one.
-/

namespace OpenScap

/-- `isspace`. -/
def isspace (c : UInt8) : Bool := c == ascii ' ' || (9 ≤ c && c ≤ 13)

/-- The value of a decimal digit. -/
def digitValue (c : UInt8) : ℕ := c.toNat - 48

/-- The number that digits write. -/
def digitsValue (digits : List UInt8) : ℕ :=
  digits.foldl (fun n c => 10 * n + digitValue c) 0

/-- The nearest `long`. -/
def clampLong (z : ℤ) : ℤ := max (-2 ^ 63) (min z (2 ^ 63 - 1))

/-- The sign that a number may start with. -/
def takeSign : List UInt8 → Bool × List UInt8
  | c :: s => if c = ascii '-' then (true, s) else if c = ascii '+' then (false, s)
    else (false, c :: s)
  | [] => (false, [])

/-- `strtol` in base ten. -/
def strtol (s : List UInt8) : ℤ :=
  let (negative, s) := takeSign (s.dropWhile isspace)
  let n : ℤ := digitsValue (s.takeWhile isdigit)
  clampLong (if negative then -n else n)

/-- A conversion to `int` keeps the low 32 bits. -/
def toInt32 (z : ℤ) : ℤ := Int.bmod z (2 ^ 32)

/-- `atoi`. -/
def atoi (s : List UInt8) : ℤ := toInt32 (strtol s)

/-- A number that does not fit into `long` is read as the largest one, and converted. -/
def intOf (n : ℕ) : ℤ := toInt32 (clampLong n)

/-- `%lu` of an `unsigned long`. -/
def formatLu (n : ℕ) : List UInt8 := (Nat.toDigits 10 n).map ascii

/-- Digits, at least one. -/
structure Decimal where
  text : List UInt8
  /-- There is a digit. -/
  ne_nil : text ≠ []
  /-- There is nothing else. -/
  digits : ∀ c ∈ text, isdigit c = true

/-- A digit is not the empty text. -/
theorem singleton_ne_nil (c : UInt8) : [c] ≠ [] := List.cons_ne_nil c []

/-- A digit is all there is in its text. -/
theorem isdigit_of_mem_singleton {c : UInt8} (h : isdigit c = true) :
    ∀ x ∈ [c], isdigit x = true := by
  intro x hx
  rwa [List.mem_singleton.mp hx]

/-- The number. -/
def Decimal.value (d : Decimal) : ℕ := digitsValue d.text

/-! ### What is read -/

/-- A digit is no white space and no sign. -/
theorem isdigit_plain {c : UInt8} (h : isdigit c = true) :
    isspace c = false ∧ c ≠ ascii '-' ∧ c ≠ ascii '+' := by
  revert h
  exact forall_byte (p := fun c => isdigit c = true → isspace c = false ∧ c ≠ ascii '-' ∧
    c ≠ ascii '+') (by decide +kernel) c

/-- What stands before a text that does not start with a digit is all that is read of
digits. -/
theorem takeWhile_digits {digits rest : List UInt8} (h : ∀ c ∈ digits, isdigit c = true)
    (hrest : rest.head?.any isdigit = false) :
    (digits ++ rest).takeWhile isdigit = digits := by
  rw [List.takeWhile_append_of_pos h]
  cases rest with
  | nil => simp
  | cons c cs =>
      have hc : isdigit c = false := by simpa using hrest
      simp [hc]

/-- What stands behind the digits is left. -/
theorem dropWhile_digits {digits rest : List UInt8} (h : ∀ c ∈ digits, isdigit c = true)
    (hrest : rest.head?.any isdigit = false) :
    (digits ++ rest).dropWhile isdigit = rest := by
  rw [List.dropWhile_append_of_pos h]
  cases rest with
  | nil => rfl
  | cons c cs =>
      have hc : isdigit c = false := by simpa using hrest
      simp [hc]

/-- **The number read from a text that starts with digits.** -/
theorem strtol_digits (d : Decimal) {rest : List UInt8}
    (hrest : rest.head?.any isdigit = false) :
    strtol (d.text ++ rest) = clampLong d.value := by
  obtain ⟨digits, hne, hdigits⟩ := d
  obtain ⟨c, cs, rfl⟩ := List.exists_cons_of_ne_nil hne
  obtain ⟨hspace, hminus, hplus⟩ := isdigit_plain (hdigits c (List.mem_cons_self ..))
  have htake := takeWhile_digits hdigits hrest
  rw [List.cons_append] at htake
  simp only [strtol, List.cons_append, List.dropWhile_cons, hspace, Bool.false_eq_true, if_false,
    takeSign, if_neg hminus, if_neg hplus, htake]
  rfl

/-- A minus sign in front of the digits. -/
theorem strtol_minus (d : Decimal) : strtol (ascii '-' :: d.text) = clampLong (-d.value) := by
  have htake : (d.text ++ []).takeWhile isdigit = d.text := takeWhile_digits d.digits rfl
  rw [List.append_nil] at htake
  have hminus : isspace (ascii '-') = false := by decide
  simp only [strtol, List.dropWhile_cons, hminus, Bool.false_eq_true, if_false, takeSign, if_true,
    htake]
  rfl

/-- The same, converted to `int`. -/
theorem atoi_digits (d : Decimal) {rest : List UInt8}
    (hrest : rest.head?.any isdigit = false) :
    atoi (d.text ++ rest) = intOf d.value := by
  rw [atoi, strtol_digits d hrest, intOf]

/-- A number that fits into `int` is kept. -/
theorem intOf_of_lt {n : ℕ} (h : n < 2 ^ 31) : intOf n = n := by
  have hclamp : clampLong n = n := by
    rw [clampLong]
    omega
  rw [intOf, hclamp, toInt32]
  exact Int.bmod_eq_of_le (by omega) (by omega)

@[simp] theorem intOf_zero : intOf 0 = 0 := intOf_of_lt (by norm_num)

/-! ### What is printed -/

/-- The number that digits with one more behind them write. -/
theorem digitsValue_append (digits : List UInt8) (c : UInt8) :
    digitsValue (digits ++ [c]) = 10 * digitsValue digits + digitValue c := by
  rw [digitsValue, List.foldl_append]
  rfl

/-- A number of one digit. -/
theorem formatLu_of_lt {n : ℕ} (h : n < 10) : formatLu n = [ascii n.digitChar] := by
  rw [formatLu, Nat.toDigits_of_lt_base h]
  rfl

/-- The last digit stands behind the others. -/
theorem formatLu_of_le {n : ℕ} (h : 10 ≤ n) :
    formatLu n = formatLu (n / 10) ++ [ascii (n % 10).digitChar] := by
  rw [formatLu, Nat.toDigits_of_base_le (by omega) h, List.map_append]
  rfl

/-- The characters of digits. -/
theorem ascii_digitChar {n : ℕ} (h : n < 10) :
    isdigit (ascii n.digitChar) = true ∧ digitValue (ascii n.digitChar) = n := by
  have hall : ∀ i < 10, isdigit (ascii i.digitChar) = true ∧
      digitValue (ascii i.digitChar) = i := by decide
  exact hall n h

/-- Only digits are printed, and they write the number. -/
theorem formatLu_spec (n : ℕ) :
    (∀ c ∈ formatLu n, isdigit c = true) ∧ digitsValue (formatLu n) = n := by
  induction n using Nat.strongRecOn with
  | ind n ih =>
      by_cases h : n < 10
      · obtain ⟨hdigit, hvalue⟩ := ascii_digitChar h
        rw [formatLu_of_lt h]
        refine ⟨fun c hc => ?_, ?_⟩
        · rwa [List.mem_singleton.1 hc]
        · rw [digitsValue, List.foldl_cons, List.foldl_nil, hvalue, Nat.mul_zero, Nat.zero_add]
      · obtain ⟨hdigits, hvalues⟩ := ih (n / 10) (by omega)
        obtain ⟨hdigit, hvalue⟩ := ascii_digitChar (Nat.mod_lt n (by omega : 10 > 0))
        rw [formatLu_of_le (by omega)]
        refine ⟨fun c hc => ?_, ?_⟩
        · rcases List.mem_append.1 hc with hc | hc
          · exact hdigits c hc
          · rwa [List.mem_singleton.1 hc]
        · rw [digitsValue_append, hvalues, hvalue]
          omega

/-- **Different numbers are printed differently.** -/
theorem formatLu_inj {m n : ℕ} : formatLu m = formatLu n ↔ m = n := by
  constructor
  · intro h
    rw [← (formatLu_spec m).2, h, (formatLu_spec n).2]
  · rintro rfl
    rfl

/-- How many digits there are. -/
theorem length_formatLu_le {n k : ℕ} (h : 0 < k) : (formatLu n).length ≤ k ↔ n < 10 ^ k := by
  rw [formatLu, List.length_map]
  exact Nat.length_toDigits_le_iff (by omega) h

/-- **A printed number that is cut off is the text of one that is at most a tenth of it.** -/
theorem take_formatLu {n k : ℕ} (h : 10 ^ (k + 2) ≤ n) :
    ∃ m, (formatLu n).take (k + 2) = formatLu m ∧ 10 ^ (k + 1) ≤ m ∧ 10 * m ≤ n := by
  induction n using Nat.strongRecOn with
  | ind n ih =>
      have hpow : 10 ^ (k + 2) = 10 * 10 ^ (k + 1) := by ring
      have hten : 10 ≤ n := by
        have hone : 1 ≤ 10 ^ (k + 1) := Nat.one_le_pow _ _ (by omega)
        omega
      have hlen : k + 2 ≤ (formatLu (n / 10)).length := by
        by_contra hlt
        have hsmall := (length_formatLu_le (Nat.succ_pos k)).1 (Nat.le_of_lt_succ (not_le.1 hlt))
        omega
      rw [formatLu_of_le hten, List.take_append_of_le_length hlen]
      by_cases hcut : 10 ^ (k + 2) ≤ n / 10
      · obtain ⟨m, htake, hle, hm⟩ := ih (n / 10) (by omega) hcut
        exact ⟨m, htake, hle, by omega⟩
      · -- the digits that are left are all there are
        have hall := (length_formatLu_le (Nat.succ_pos (k + 1))).2 (not_le.1 hcut)
        exact ⟨n / 10, List.take_of_length_le hall, by omega, by omega⟩

end OpenScap
