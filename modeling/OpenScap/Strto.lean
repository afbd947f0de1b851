import OpenScap.CInteger
import OpenScap.CNumber
import OpenScap.Sexp

/-!
# Decimal numbers in texts that are not terminated

The functions that convert a text of a given length to an integer of 64 bits. A digit that does
not fit is found by the sign of the product, or by a product that is smaller than what was
multiplied, so that only the first number of digits that is too long is sure to be found.
Integers of 64 bits wrap around.

## Main results

* `strtoUint64Dec_digits` — digits that write an unsigned integer of 64 bits;
* `strtoInt64Dec_plus`, `strtoInt64Dec_minus` — digits behind a sign.
-/

namespace OpenScap

open CInteger

/-- `*s - '0'`. -/
def digitOf (c : UInt8) : UInt8 := c - ascii '0'

/-- The second loop of `strto_uint64_dec`; no result is an overflow that was found. -/
def strtoUint64Loop : List UInt8 → UInt64 → UInt64 → Option (UInt64 × List UInt8)
  | [], n, _ => some (n, [])
  | c :: s, n, t =>
      if isdigit c then
        let n := n * 10
        if n < t ∨ 0xffffffffffffffff - n < (digitOf c).toUInt64 then none
        else
          let n := n + (digitOf c).toUInt64
          strtoUint64Loop s n n
      else some (n, c :: s)

/-- `strto_uint64_dec`, with the `errno` that is left if it is not zero. -/
def strtoUint64Dec (str : List UInt8) : UInt64 × Option Errno :=
  let s := str.dropWhile (· == ascii ' ')
  let s := if s.head? = some (ascii '+') then s.tail else s
  match strtoUint64Loop s 0 0 with
  | none => (0xffffffffffffffff, some .erange)
  | some (n, rest) =>
      (n, if rest ≠ [] ∧ rest.length = str.length then some .einval else none)

/-- The second loop of `strto_int64_dec`; no result is an overflow that was found. -/
def strtoInt64Loop : List UInt8 → Int64 → Option (Int64 × List UInt8)
  | [], n => some (n, [])
  | c :: s, n =>
      if isdigit c then
        let n := n * 10
        if n < 0 then none
        else strtoInt64Loop s (n + (digitOf c).toUInt64.toInt64)
      else some (n, c :: s)

/-- `strto_int64_dec`, with the `errno` that is left if it is not zero. -/
def strtoInt64Dec (str : List UInt8) : Int64 × Option Errno :=
  let (negative, s) := takeSign (str.dropWhile (· == ascii ' '))
  let p : Int64 := if negative then -1 else 1
  let limit : Int64 := if negative then Int64.minValue else Int64.maxValue
  match strtoInt64Loop s 0 with
  | none => (limit, some .erange)
  | some (n, rest) =>
      let n := n * p
      if rest ≠ [] then (n, if rest.length = str.length then some .einval else none)
      else if n * p < 0 ∧ ¬ (n = Int64.minValue ∧ str.getLast? = some (ascii '8')) then
        (limit, some .erange)
      else (n, none)

/-! ### Digits -/

/-- The number that digits write behind others. -/
def digitsFrom (n : ℕ) (digits : List UInt8) : ℕ :=
  digits.foldl (fun n c => 10 * n + digitValue c) n

/-- The value of a digit. -/
theorem digitOf_spec {c : UInt8} (h : isdigit c = true) :
    (digitOf c).toNat = digitValue c ∧ digitValue c < 10 := by
  revert h
  exact forall_byte (p := fun c => isdigit c = true → (digitOf c).toNat = digitValue c ∧
    digitValue c < 10) (by decide +kernel) c

/-- More digits write a larger number. -/
theorem le_digitsFrom (n : ℕ) (digits : List UInt8) : n ≤ digitsFrom n digits := by
  induction digits generalizing n with
  | nil => exact Nat.le_refl n
  | cons c digits ih =>
      have hle := ih (10 * n + digitValue c)
      rw [digitsFrom, List.foldl_cons, ← digitsFrom]
      omega

/-- One digit more. -/
theorem digitsFrom_cons (n : ℕ) (c : UInt8) (digits : List UInt8) :
    digitsFrom n (c :: digits) = digitsFrom (10 * n + digitValue c) digits := by
  rw [digitsFrom, List.foldl_cons, ← digitsFrom]

/-- Ten times what was read, and the next digit. -/
theorem toNat_mul_ten {n : UInt64} (h : 10 * n.toNat < 2 ^ 64) :
    (n * 10).toNat = 10 * n.toNat := by
  have hten : (10 : UInt64).toNat = 10 := rfl
  rw [toNat_mul_of_lt] <;> rw [hten, Nat.mul_comm]
  exact h

/-- Ten times what was read is not too large. -/
theorem toInt_mul_ten {n : Int64} {m : ℕ} (hn : n.toInt = m) (h : 10 * m < 2 ^ 63) :
    (n * 10).toInt = 10 * m := by
  have hten : (10 : Int64).toInt = 10 := rfl
  rw [Int64.toInt_mul, hn, hten, mul_comm]
  exact bmod_of_lt (by omega) (by omega)

/-- Ten times what was read is too large. -/
theorem toInt_mul_ten_overflow {n : Int64} {m : ℕ} (hn : n.toInt = m) (hge : 2 ^ 63 ≤ 10 * m)
    (h : 10 * m < 2 ^ 64) : (n * 10).toInt = 10 * m - 2 ^ 64 := by
  have hten : (10 : Int64).toInt = 10 := rfl
  rw [Int64.toInt_mul, hn, hten, mul_comm]
  exact bmod_of_ge (by omega) (by omega)

/-! ### Unsigned integers -/

/-- What is left to the largest integer. -/
theorem toNat_max_sub (n : UInt64) : (0xffffffffffffffff - n).toNat = 2 ^ 64 - 1 - n.toNat := by
  have hmax : (0xffffffffffffffff : UInt64).toNat = 2 ^ 64 - 1 := rfl
  have hlt := n.toNat_lt
  rw [UInt64.toNat_sub_of_le _ _ (UInt64.le_iff_toNat_le.mpr (by omega)), hmax]

/-- **Digits that write an unsigned integer of 64 bits are read to their end.** -/
theorem strtoUint64Loop_digits {digits : List UInt8} (h : ∀ c ∈ digits, isdigit c = true)
    {n : UInt64} (hlt : digitsFrom n.toNat digits < 2 ^ 64) :
    ∃ r, strtoUint64Loop digits n n = some (r, []) ∧ r.toNat = digitsFrom n.toNat digits := by
  induction digits generalizing n with
  | nil => exact ⟨n, rfl, rfl⟩
  | cons c digits ih =>
      obtain ⟨hvalue, hten⟩ := digitOf_spec (h c (List.mem_cons_self ..))
      have hle := le_digitsFrom (10 * n.toNat + digitValue c) digits
      rw [digitsFrom_cons] at hlt ⊢
      have hmul : (n * 10).toNat = 10 * n.toNat := toNat_mul_ten (by omega)
      have hdigit : ((digitOf c).toUInt64).toNat = digitValue c := hvalue
      have hadd : (n * 10 + (digitOf c).toUInt64).toNat = 10 * n.toNat + digitValue c := by
        rw [toNat_add_of_lt] <;> rw [hmul, hdigit]
        omega
      have hfits : ¬ (n * 10 < n ∨ 0xffffffffffffffff - n * 10 < (digitOf c).toUInt64) := by
        rw [UInt64.lt_iff_toNat_lt, UInt64.lt_iff_toNat_lt, toNat_max_sub, hmul, hdigit]
        omega
      rw [strtoUint64Loop, if_pos (h c (List.mem_cons_self ..))]
      simp only [if_neg hfits]
      rw [← hadd] at hlt ⊢
      exact ih (fun c hc => h c (List.mem_cons_of_mem _ hc)) hlt

/-! ### Signed integers -/

/-- The next digit as a signed integer. -/
theorem toInt_digitOf {c : UInt8} (h : isdigit c = true) :
    (digitOf c).toUInt64.toInt64.toInt = digitValue c := by
  obtain ⟨hvalue, hten⟩ := digitOf_spec h
  have hdigit : ((digitOf c).toUInt64).toNat = digitValue c := hvalue
  rw [toInt_toInt64, signedOf_of_lt, hdigit]
  rw [hdigit]
  omega

/-- **Digits that write a signed integer of 64 bits are read to their end.** -/
theorem strtoInt64Loop_digits {digits : List UInt8} (h : ∀ c ∈ digits, isdigit c = true)
    {n : Int64} {m : ℕ} (hn : n.toInt = m) (hlt : digitsFrom m digits < 2 ^ 63) :
    ∃ r, strtoInt64Loop digits n = some (r, []) ∧ r.toInt = digitsFrom m digits := by
  induction digits generalizing n m with
  | nil => exact ⟨n, rfl, hn⟩
  | cons c digits ih =>
      have hle := le_digitsFrom (10 * m + digitValue c) digits
      rw [digitsFrom_cons] at hlt ⊢
      have hmul : (n * 10).toInt = 10 * m := toInt_mul_ten hn (by omega)
      have hadd : (n * 10 + (digitOf c).toUInt64.toInt64).toInt =
          (10 * m + digitValue c : ℕ) := by
        rw [Int64.toInt_add, hmul, toInt_digitOf (h c (List.mem_cons_self ..))]
        rw [bmod_of_lt] <;> push_cast <;> omega
      have hneg : ¬ n * 10 < 0 := by
        rw [Int64.lt_iff_toInt_lt, hmul, Int64.toInt_zero]
        omega
      rw [strtoInt64Loop, if_pos (h c (List.mem_cons_self ..))]
      simp only [if_neg hneg]
      exact ih (fun c hc => h c (List.mem_cons_of_mem _ hc)) hadd hlt

/-- Digits that write an integer that is too large for a signed one, but not for an unsigned
one: what is found is found at once, and what is not found is negative. -/
theorem strtoInt64Loop_overflow {digits : List UInt8} (h : ∀ c ∈ digits, isdigit c = true)
    {n : Int64} {m : ℕ} (hn : n.toInt = m) (hge : 2 ^ 63 ≤ digitsFrom m digits)
    (hlt : digitsFrom m digits < 2 ^ 64) :
    strtoInt64Loop digits n = none ∨
      ∃ r, strtoInt64Loop digits n = some (r, []) ∧ r.toInt = digitsFrom m digits - 2 ^ 64 := by
  induction digits generalizing n m with
  | nil =>
      have hmax := n.toInt_lt
      rw [hn] at hmax
      exact absurd hge (by rw [digitsFrom, List.foldl_nil]; omega)
  | cons c digits ih =>
      have hle := le_digitsFrom (10 * m + digitValue c) digits
      obtain ⟨-, hten⟩ := digitOf_spec (h c (List.mem_cons_self ..))
      rw [digitsFrom_cons] at hge hlt ⊢
      rw [strtoInt64Loop, if_pos (h c (List.mem_cons_self ..))]
      by_cases hneg : n * 10 < 0
      · exact .inl (if_pos hneg)
      · have hfits : 10 * m < 2 ^ 63 := by
          by_contra hge'
          refine hneg (Int64.lt_iff_toInt_lt.mpr ?_)
          rw [toInt_mul_ten_overflow hn (by omega) (by omega), Int64.toInt_zero]
          omega
        simp only [if_neg hneg]
        have hsum : (n * 10 + (digitOf c).toUInt64.toInt64).toInt =
            (10 * m + digitValue c : ℤ).bmod (2 ^ 64) := by
          rw [Int64.toInt_add, toInt_mul_ten hn hfits, toInt_digitOf (h c (List.mem_cons_self ..))]
        rcases Nat.lt_or_ge (10 * m + digitValue c) (2 ^ 63) with hlt' | hge'
        · rw [bmod_of_lt (by omega) (by omega)] at hsum
          exact ih (fun c hc => h c (List.mem_cons_of_mem _ hc)) (by exact_mod_cast hsum) hge hlt
        · -- the sum is negative now, and there is no room for a further digit
          have hnil : digits = [] := by
            cases digits with
            | nil => rfl
            | cons d digits =>
                have hle' := le_digitsFrom (10 * (10 * m + digitValue c) + digitValue d) digits
                rw [← digitsFrom_cons] at hle'
                omega
          subst hnil
          rw [bmod_of_ge (by omega) (by omega)] at hsum
          exact .inr ⟨_, rfl, by rw [hsum]; push_cast [digitsFrom]; rfl⟩

/-! ### Whole texts -/

/-- A digit is no sign and no space. -/
theorem digit_ne {c : UInt8} (h : isdigit c = true) : c ≠ ascii ' ' ∧ c ≠ ascii '+' := by
  obtain ⟨hspace, -, hplus⟩ := isdigit_plain h
  refine ⟨?_, hplus⟩
  rintro rfl
  exact absurd hspace (by decide)

/-- **Digits that write an unsigned integer of 64 bits.** -/
theorem strtoUint64Dec_digits (d : Decimal) (h : d.value < 2 ^ 64) :
    ∃ r, strtoUint64Dec d.text = (r, none) ∧ r.toNat = d.value := by
  obtain ⟨r, hloop, hr⟩ := strtoUint64Loop_digits (n := 0) d.digits h
  refine ⟨r, ?_, hr⟩
  obtain ⟨c, cs, htext⟩ := List.exists_cons_of_ne_nil d.ne_nil
  obtain ⟨hspace, hplus⟩ := digit_ne (d.digits c (by rw [htext]; exact List.mem_cons_self ..))
  have hdrop : d.text.dropWhile (· == ascii ' ') = d.text := by
    rw [htext, List.dropWhile_cons_of_neg (by simpa using hspace)]
  have hhead : d.text.head? ≠ some (ascii '+') := by
    rw [htext]
    simpa using hplus
  rw [strtoUint64Dec, hdrop]
  simp only [if_neg hhead, hloop]
  rfl

/-- The text of a sign and digits is read from behind the sign. -/
theorem strtoInt64Dec_sign {c : UInt8} (hc : c = ascii '+' ∨ c = ascii '-') (digits : List UInt8) :
    takeSign ((c :: digits).dropWhile (· == ascii ' ')) = (c == ascii '-', digits) := by
  rcases hc with rfl | rfl
  · rw [List.dropWhile_cons_of_neg (by decide)]
    rfl
  · rw [List.dropWhile_cons_of_neg (by decide)]
    rfl

/-- **Digits behind a plus sign that write a signed integer of 64 bits.** -/
theorem strtoInt64Dec_plus (d : Decimal) (h : d.value < 2 ^ 63) :
    ∃ r, strtoInt64Dec (ascii '+' :: d.text) = (r, none) ∧ r.toInt = d.value := by
  obtain ⟨r, hloop, hr⟩ := strtoInt64Loop_digits d.digits (n := 0) (m := 0) rfl h
  refine ⟨r, ?_, hr⟩
  have hneg : ¬ r < 0 := by
    rw [Int64.lt_iff_toInt_lt, hr, Int64.toInt_zero]
    omega
  rw [strtoInt64Dec, strtoInt64Dec_sign (.inl rfl)]
  simp [hloop, hneg, show (ascii '+' == ascii '-') = false from by decide]

/-- **Digits behind a minus sign that write a signed integer of 64 bits.** -/
theorem strtoInt64Dec_minus (d : Decimal) (h : d.value < 2 ^ 63) :
    ∃ r, strtoInt64Dec (ascii '-' :: d.text) = (r, none) ∧ r.toInt = -d.value := by
  obtain ⟨r, hloop, hr⟩ := strtoInt64Loop_digits d.digits (n := 0) (m := 0) rfl h
  have hvalue : (r * -1).toInt = -d.value := by
    have hone : (-1 : Int64).toInt = -1 := rfl
    rw [Int64.toInt_mul, hr, hone, mul_neg_one]
    exact bmod_of_lt (by change -2 ^ 63 ≤ -(d.value : ℤ); omega)
      (by change -(d.value : ℤ) < 2 ^ 63; omega)
  refine ⟨r * -1, ?_, hvalue⟩
  have hneg : ¬ r * -1 * -1 < 0 := by
    have hback : r * -1 * -1 = r := by grind
    rw [hback, Int64.lt_iff_toInt_lt, hr, Int64.toInt_zero]
    omega
  rw [strtoInt64Dec, strtoInt64Dec_sign (.inr rfl)]
  simp only [beq_self_eq_true, if_true, hloop, ne_eq, not_true_eq_false, if_false, hneg,
    false_and]

/-- What is read from digits behind a sign when no overflow is found. -/
theorem strtoInt64Dec_of_loop {digits : List UInt8} {c : UInt8}
    (hc : c = ascii '+' ∨ c = ascii '-') {p : Int64} (hp : p = if c == ascii '-' then -1 else 1)
    {r : Int64} (h : strtoInt64Dec (c :: digits) = (r, none)) {Read : Int64 → Prop}
    (hloop : strtoInt64Loop digits 0 = none ∨
      ∃ n, strtoInt64Loop digits 0 = some (n, []) ∧ Read n) :
    ∃ n, Read n ∧ r = n * p ∧ (n * p * p < 0 → r = Int64.minValue) := by
  rw [strtoInt64Dec, strtoInt64Dec_sign hc] at h
  rcases hloop with hloop | ⟨n, hloop, hn⟩
  · simp [hloop] at h
  · simp only [hloop, ne_eq, not_true_eq_false, if_false, ← hp] at h
    refine ⟨n, hn, ?_⟩
    by_cases hrange : n * p * p < 0 ∧
        ¬ (n * p = Int64.minValue ∧ (c :: digits).getLast? = some (ascii '8'))
    · rw [if_pos hrange] at h
      exact absurd (congrArg Prod.snd h) (by simp)
    · rw [if_neg hrange] at h
      obtain ⟨rfl, -⟩ := Prod.mk.inj h
      refine ⟨rfl, fun hneg => ?_⟩
      by_contra hne
      exact hrange ⟨hneg, fun hmin => hne hmin.1⟩

/-- A plus sign in front of an integer that is too large for a signed one, but not for an
unsigned one: only the first of them is read, as the least integer. -/
theorem strtoInt64Dec_plus_overflow {d : Decimal} (hge : 2 ^ 63 ≤ d.value)
    (hlt : d.value < 2 ^ 64) {r : Int64}
    (h : strtoInt64Dec (ascii '+' :: d.text) = (r, none)) :
    d.value = 2 ^ 63 ∧ r.toInt = -2 ^ 63 := by
  obtain ⟨n, hn, hr, hmin⟩ := strtoInt64Dec_of_loop (.inl rfl) rfl h
    (strtoInt64Loop_overflow d.digits (n := 0) (m := 0) rfl hge hlt)
  have hone : (if (ascii '+' == ascii '-') = true then -1 else 1 : Int64) = 1 := by decide
  rw [hone, Int64.mul_one] at hr hmin
  change n.toInt = (d.value : ℤ) - 2 ^ 64 at hn
  have hneg : r * 1 < 0 := by
    rw [Int64.mul_one, hr, Int64.lt_iff_toInt_lt, hn, Int64.toInt_zero]
    omega
  rw [← hr] at hmin hn
  rw [hmin hneg, Int64.toInt_minValue] at hn ⊢
  exact ⟨by omega, rfl⟩

/-- A minus sign in front of the first integer that is too large gives the least integer. -/
theorem strtoInt64Dec_minus_overflow {d : Decimal} (hd : d.value = 2 ^ 63) {r : Int64}
    (h : strtoInt64Dec (ascii '-' :: d.text) = (r, none)) : r.toInt = -2 ^ 63 := by
  obtain ⟨n, hn, hr, hmin⟩ := strtoInt64Dec_of_loop (.inr rfl) rfl h
    (strtoInt64Loop_overflow d.digits (n := 0) (m := 0) rfl hd.ge (show d.value < 2 ^ 64 by omega))
  have hone : (if (ascii '-' == ascii '-') = true then -1 else 1 : Int64) = -1 := by decide
  have hnmin : n = Int64.minValue := by
    refine Int64.toInt.inj ?_
    rw [hn, Int64.toInt_minValue]
    change (d.value : ℤ) - 2 ^ 64 = -2 ^ 63
    omega
  rw [hr, hone, hnmin]
  decide

end OpenScap
