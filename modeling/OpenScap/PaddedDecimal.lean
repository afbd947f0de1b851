import Mathlib.Data.List.Induction
import OpenScap.CNumber

/-!
# Numbers printed next to each other

A number printed with at least `w` digits, and another one behind it with nothing in between.
The text does not always tell where the one ends and the other begins.

## Main results

* `digits_ext` — digits are determined by their count and the number they write;
* `formatLu_append` — the digits of a number split at any place where a digit other than zero
  follows;
* `concat_eq_iff` — when two pairs of numbers are printed alike.
-/

namespace OpenScap

/-! ### Digits and values -/

/-- A digit is less than ten, and its value determines it. -/
theorem digitValue_lt {c : UInt8} (h : isdigit c = true) : digitValue c < 10 ∧
    c = ascii (digitValue c).digitChar := by
  revert h
  exact forall_byte (p := fun c => isdigit c = true → digitValue c < 10 ∧
    c = ascii (digitValue c).digitChar) (by decide +kernel) c

/-- The number that digits behind digits write. -/
theorem digitsValue_append_digits (xs ys : List UInt8) :
    digitsValue (xs ++ ys) = digitsValue xs * 10 ^ ys.length + digitsValue ys := by
  induction ys using List.reverseRecOn with
  | nil => simp [digitsValue]
  | append_singleton ys c ih =>
      rw [← List.append_assoc, digitsValue_append, digitsValue_append, ih, List.length_append,
        List.length_singleton, pow_succ]
      ring

/-- Digits write a number with at most as many digits. -/
theorem digitsValue_lt {digits : List UInt8} (h : ∀ c ∈ digits, isdigit c = true) :
    digitsValue digits < 10 ^ digits.length := by
  induction digits using List.reverseRecOn with
  | nil => simp [digitsValue]
  | append_singleton digits c ih =>
      have hlt := ih fun d hd => h d (List.mem_append_left _ hd)
      have hc := (digitValue_lt (h c (List.mem_append_right _ (List.mem_singleton_self c)))).1
      rw [digitsValue_append, List.length_append, List.length_singleton, pow_succ]
      omega

/-- **Digits are determined by their count and their number.** -/
theorem digits_ext {xs ys : List UInt8} (hx : ∀ c ∈ xs, isdigit c = true)
    (hy : ∀ c ∈ ys, isdigit c = true) (hlen : xs.length = ys.length)
    (hvalue : digitsValue xs = digitsValue ys) : xs = ys := by
  induction xs using List.reverseRecOn generalizing ys with
  | nil => exact (List.length_eq_zero_iff.mp hlen.symm).symm
  | append_singleton xs c ih =>
      cases ys using List.reverseRecOn with
      | nil => simp at hlen
      | append_singleton ys d =>
          have hc := digitValue_lt (hx c (List.mem_append_right _ (List.mem_singleton_self c)))
          have hd := digitValue_lt (hy d (List.mem_append_right _ (List.mem_singleton_self d)))
          rw [digitsValue_append, digitsValue_append] at hvalue
          have hlast : digitValue c = digitValue d := by omega
          have hrest : xs = ys := ih (fun e he => hx e (List.mem_append_left _ he))
            (fun e he => hy e (List.mem_append_left _ he)) (by simpa using hlen) (by omega)
          rw [hrest, hc.2, hd.2, hlast]

/-- A number has at least as many digits as the power of ten below it. -/
theorem lt_length_formatLu {n k : ℕ} : k < (formatLu n).length ↔ k = 0 ∨ 10 ^ k ≤ n := by
  rcases Nat.eq_zero_or_pos k with rfl | hk
  · have hne : formatLu n ≠ [] := by
      rw [formatLu, Ne, List.map_eq_nil_iff]
      exact Nat.toDigits_ne_nil
    simpa using List.length_pos_iff.mpr hne
  · have := length_formatLu_le (n := n) hk
    omega

/-- A number is below the power of ten of its digits. -/
theorem lt_pow_length (n : ℕ) : n < 10 ^ (formatLu n).length :=
  (length_formatLu_le (lt_length_formatLu.mpr (.inl rfl))).mp (Nat.le_refl _)

/-- **The digits of a number split**, when what follows does not start with a zero. -/
theorem formatLu_append {p r j : ℕ} (hp : 0 < p) (hr : r < 10 ^ j)
    (hlead : (formatLu r).length = j) :
    formatLu (p * 10 ^ j + r) = formatLu p ++ formatLu r := by
  have hlen : (formatLu (p * 10 ^ j + r)).length = (formatLu p).length + j := by
    have hpos : 0 < (formatLu p).length := lt_length_formatLu.mpr (.inl rfl)
    refine le_antisymm ((length_formatLu_le (by omega)).mpr ?_) ?_
    · calc p * 10 ^ j + r < p * 10 ^ j + 10 ^ j := by omega
        _ = (p + 1) * 10 ^ j := by ring
        _ ≤ 10 ^ (formatLu p).length * 10 ^ j := Nat.mul_le_mul_right _ (lt_pow_length p)
        _ = 10 ^ ((formatLu p).length + j) := (pow_add ..).symm
    · have hlead : 10 ^ ((formatLu p).length - 1) ≤ p := by
        rcases lt_length_formatLu.mp (Nat.sub_one_lt_of_lt hpos) with hone | hle
        · rw [hone]
          exact hp
        · exact hle
      obtain ⟨k, hk⟩ : ∃ k, (formatLu p).length = k + 1 := ⟨_, (Nat.sub_add_cancel hpos).symm⟩
      rw [hk] at hlead ⊢
      have hlt : k + j < (formatLu (p * 10 ^ j + r)).length := by
        refine lt_length_formatLu.mpr (.inr ?_)
        calc 10 ^ (k + j) = 10 ^ k * 10 ^ j := pow_add ..
          _ ≤ p * 10 ^ j := Nat.mul_le_mul_right _ hlead
          _ ≤ p * 10 ^ j + r := Nat.le_add_right ..
      omega
  refine digits_ext (formatLu_spec _).1 (fun c hc => ?_) ?_ ?_
  · rcases List.mem_append.mp hc with hc | hc
    · exact (formatLu_spec p).1 c hc
    · exact (formatLu_spec r).1 c hc
  · rw [hlen, List.length_append, ‹(formatLu r).length = j›]
  · rw [digitsValue_append_digits, (formatLu_spec _).2, (formatLu_spec _).2, (formatLu_spec _).2,
      ‹(formatLu r).length = j›]

/-! ### A least number of digits -/

/-- `%0wu`. -/
def formatPadded (w n : ℕ) : List UInt8 :=
  List.replicate (w - (formatLu n).length) (ascii '0') ++ formatLu n

/-- The count of the digits. -/
theorem length_formatPadded (w n : ℕ) :
    (formatPadded w n).length = max w (formatLu n).length := by
  rw [formatPadded, List.length_append, List.length_replicate]
  omega

/-- Only digits are printed, and they write the number. -/
theorem formatPadded_spec (w n : ℕ) :
    (∀ c ∈ formatPadded w n, isdigit c = true) ∧ digitsValue (formatPadded w n) = n := by
  have hzeros (k : ℕ) : digitsValue (List.replicate k (ascii '0')) = 0 := by
    induction k with
    | zero => rfl
    | succ k ih =>
        rw [List.replicate_succ', digitsValue_append, ih]
        rfl
  refine ⟨fun c hc => ?_, ?_⟩
  · rcases List.mem_append.mp hc with hc | hc
    · rw [List.eq_of_mem_replicate hc]
      rfl
    · exact (formatLu_spec n).1 c hc
  · rw [formatPadded, digitsValue_append_digits, hzeros, (formatLu_spec n).2]
    omega

/-- A number with enough digits is not padded. -/
theorem formatPadded_of_le {w n : ℕ} (h : w ≤ (formatLu n).length) :
    formatPadded w n = formatLu n := by
  rw [formatPadded, Nat.sub_eq_zero_of_le h]
  rfl

/-- Numbers printed with equally many digits are printed differently. -/
theorem formatPadded_inj {w m n : ℕ} (h : formatPadded w m = formatPadded w n) : m = n := by
  rw [← (formatPadded_spec w m).2, h, (formatPadded_spec w n).2]

/-- What it means that the digits of `p` are continued by those of `q`: with `w` digits or more
of its own, `p` is followed in `q` by the digits of `r`, of which the first is not zero. -/
structure Continues (w p q r : ℕ) : Prop where
  large : 10 ^ (w - 1) ≤ p
  positive : 0 < r
  digits : q = p * 10 ^ (formatLu r).length + r

/-- A continuation is a larger number. -/
theorem Continues.lt {w p q r : ℕ} (h : Continues w p q r) : p < q := by
  have hpow : 0 < 10 ^ (formatLu r).length := Nat.pow_pos (by decide)
  have hpos := h.positive
  have hle := Nat.le_mul_of_pos_right p hpow
  rw [h.digits]
  omega

/-- **A longer first number.** -/
theorem concat_eq_of_continues {w p q r b : ℕ} (h : Continues w p q r) :
    formatPadded w p ++ formatLu (r * 10 ^ (formatLu b).length + b) =
      formatPadded w q ++ formatLu b := by
  have hp : 0 < p := Nat.lt_of_lt_of_le (Nat.pow_pos (by decide)) h.large
  have hq := formatLu_append hp (lt_pow_length r) rfl
  rw [← h.digits] at hq
  have hw : w ≤ (formatLu p).length := by
    rcases Nat.eq_zero_or_pos w with rfl | hpos
    · exact Nat.zero_le _
    · have := lt_length_formatLu.mpr (.inr h.large)
      omega
  rw [formatPadded_of_le hw, formatLu_append h.positive (lt_pow_length b) rfl,
    formatPadded_of_le (by rw [hq, List.length_append]; omega), hq, List.append_assoc]

/-- What is printed alike with a longer first number. -/
theorem continues_of_concat {w p q a b : ℕ} (hw : 0 < w)
    (h : formatPadded w p ++ formatLu a = formatPadded w q ++ formatLu b)
    (hlt : (formatPadded w p).length < (formatPadded w q).length) :
    ∃ r, Continues w p q r ∧ a = r * 10 ^ (formatLu b).length + b := by
  obtain ⟨u, hq, ha⟩ : ∃ u, formatPadded w q = formatPadded w p ++ u ∧
      formatLu a = u ++ formatLu b := by
    rcases List.append_eq_append_iff.mp h with ⟨u, hq, ha⟩ | ⟨u, hp, -⟩
    · exact ⟨u, hq, ha⟩
    · rw [hp, List.length_append] at hlt
      omega
  have hudigits (c : UInt8) (hc : c ∈ u) : isdigit c = true :=
    (formatLu_spec a).1 c (ha ▸ List.mem_append_left _ hc)
  have hqvalue : q = p * 10 ^ u.length + digitsValue u := by
    rw [← (formatPadded_spec w q).2, hq, digitsValue_append_digits, (formatPadded_spec w p).2]
  have havalue : a = digitsValue u * 10 ^ (formatLu b).length + b := by
    have := digitsValue_append_digits u (formatLu b)
    rwa [← ha, (formatLu_spec a).2, (formatLu_spec b).2] at this
  have hulen : 0 < u.length := by
    rw [hq, List.length_append] at hlt
    omega
  have hblen : 0 < (formatLu b).length := lt_length_formatLu.mpr (.inl rfl)
  -- the first digit of `a` is not zero, and it is the first one of `u`
  have halen := congrArg List.length ha
  rw [List.length_append] at halen
  have haleast : 10 ^ (u.length - 1 + (formatLu b).length) ≤ a := by
    rcases lt_length_formatLu.mp
      (show u.length - 1 + (formatLu b).length < (formatLu a).length by omega) with hz | hle
    · omega
    · exact hle
  have huleast : 10 ^ (u.length - 1) ≤ digitsValue u := by
    by_contra hsmall
    have hb := lt_pow_length b
    have hmul : (digitsValue u + 1) * 10 ^ (formatLu b).length ≤
        10 ^ (u.length - 1) * 10 ^ (formatLu b).length :=
      Nat.mul_le_mul_right _ (by omega)
    rw [pow_add] at haleast
    rw [Nat.succ_mul] at hmul
    omega
  have hupos : 0 < digitsValue u := Nat.lt_of_lt_of_le (Nat.pow_pos (by decide)) huleast
  have hu : formatLu (digitsValue u) = u := by
    refine digits_ext (formatLu_spec _).1 hudigits ?_ (formatLu_spec _).2
    refine le_antisymm ((length_formatLu_le hulen).mpr (digitsValue_lt hudigits)) ?_
    rcases Nat.eq_zero_or_pos (u.length - 1) with hone | hmany
    · have := lt_length_formatLu.mpr (.inl rfl : 0 = 0 ∨ 10 ^ 0 ≤ digitsValue u)
      omega
    · have := lt_length_formatLu.mpr (.inr huleast)
      omega
  refine ⟨digitsValue u, ⟨?_, hupos, ?_⟩, havalue⟩
  · -- a padded first number would make the second one shorter
    by_contra hsmall
    have hplen : (formatLu p).length ≤ w - 1 ∨ w = 1 := by
      rcases Nat.eq_zero_or_pos (w - 1) with hone | hmany
      · exact .inr (by omega)
      · exact .inl ((length_formatLu_le hmany).mpr (not_le.mp hsmall))
    have hqlen := congrArg List.length hq
    rw [List.length_append, length_formatPadded, length_formatPadded] at hqlen
    have hqsmall : q < 10 ^ (w - 1 + u.length) := by
      have hu := digitsValue_lt hudigits
      calc q = p * 10 ^ u.length + digitsValue u := hqvalue
        _ < (p + 1) * 10 ^ u.length := by rw [Nat.succ_mul]; omega
        _ ≤ 10 ^ (w - 1) * 10 ^ u.length := Nat.mul_le_mul_right _ (by omega)
        _ = 10 ^ (w - 1 + u.length) := (pow_add ..).symm
    have := (length_formatLu_le (by omega)).mpr hqsmall
    omega
  · rw [hu]
    exact hqvalue

/-- **When two pairs are printed alike**: they are the same, or the digits of the one first
number continue those of the other. -/
theorem concat_eq_iff {w p q a b : ℕ} (hw : 0 < w) :
    formatPadded w p ++ formatLu a = formatPadded w q ++ formatLu b ↔
      (p = q ∧ a = b) ∨ (∃ r, Continues w p q r ∧ a = r * 10 ^ (formatLu b).length + b) ∨
        ∃ r, Continues w q p r ∧ b = r * 10 ^ (formatLu a).length + a := by
  constructor
  · intro h
    rcases Nat.lt_trichotomy (formatPadded w p).length (formatPadded w q).length with
      hlt | heq | hgt
    · exact .inr (.inl (continues_of_concat hw h hlt))
    · obtain ⟨hp, ha⟩ := List.append_inj h heq
      exact .inl ⟨formatPadded_inj hp, formatLu_inj.mp ha⟩
    · exact .inr (.inr (continues_of_concat hw h.symm hgt))
  · rintro (⟨rfl, rfl⟩ | ⟨r, h, rfl⟩ | ⟨r, h, rfl⟩)
    · rfl
    · exact concat_eq_of_continues h
    · exact (concat_eq_of_continues h).symm

end OpenScap
