import Mathlib.Data.List.Infix
import OpenScap.Strto

/-!
# Overflows that the conversions find

`strto_uint64_dec` and `strto_int64_dec` multiply first and look for an overflow afterwards. A
product can wrap around and still be larger than what was multiplied, or not negative, so that
an overflow passes unnoticed; the last test of `strto_int64_dec` is made only if the number ends
the text, and takes the text of 2^63 without a minus sign for the least integer.

## Main results

* `strtoUint64Loop_eq`, `strtoInt64Loop_eq` — what the loops do with any digits;
* `conversions_right_iff` — when the conversions return the number, or the error with the limit.
-/

namespace OpenScap

open CInteger

/-! ### Texts of numbers -/

/-- Digits, with what stands behind them: the end of the text, or other characters. -/
structure NumberText where
  digits : Decimal
  rest : List UInt8
  /-- The digits end there. -/
  ends : rest.head?.any isdigit = false

/-- A text for the unsigned conversion: there may be a plus sign. -/
structure UnsignedText extends NumberText where
  plus : Bool

/-- A text for the signed conversion: there may be a sign. -/
structure SignedText extends NumberText where
  sign : Option Bool

/-- The text. -/
def UnsignedText.text (u : UnsignedText) : List UInt8 :=
  (if u.plus then [ascii '+'] else []) ++ (u.digits.text ++ u.rest)

/-- The text; the sign is `true` for a minus sign. -/
def SignedText.text (s : SignedText) : List UInt8 :=
  (match s.sign with
    | none => []
    | some false => [ascii '+']
    | some true => [ascii '-']) ++ (s.digits.text ++ s.rest)

/-- The number is negative, or zero behind a minus sign. -/
def SignedText.negative (s : SignedText) : Bool := s.sign = some true

/-- The number that a text writes. -/
def SignedText.value (s : SignedText) : ℤ :=
  if s.negative then -s.digits.value else s.digits.value

/-! ### What is claimed -/

/-- **The number, or an error with the largest integer.** -/
def UnsignedText.ReadRight (u : UnsignedText) : Prop :=
  strtoUint64Dec u.text =
    if u.digits.value < 2 ^ 64 then (UInt64.ofNat u.digits.value, none)
    else (0xffffffffffffffff, some .erange)

/-- **The number, or an error with the limit on its side.** -/
def SignedText.ReadRight (s : SignedText) : Prop :=
  strtoInt64Dec s.text =
    if -2 ^ 63 ≤ s.value ∧ s.value < 2 ^ 63 then (Int64.ofInt s.value, none)
    else (if s.negative then Int64.minValue else Int64.maxValue, some .erange)

/-! ### What is found -/

/-- Some digit behind the number `v`, and the number that ends before it, are such that an
overflow is found. -/
def FoundBehind (trips : ℕ → ℕ → Prop) (v : ℕ) (digits : List UInt8) : Prop :=
  ∃ pre c post, digits = pre ++ c :: post ∧ trips (digitsFrom v pre) (digitValue c)

/-- The unsigned test: ten times a number, wrapped around, is less than the number, or leaves no
room for the digit. -/
def UnsignedTrips (w d : ℕ) : Prop :=
  10 * w % 2 ^ 64 < w % 2 ^ 64 ∨ 2 ^ 64 ≤ 10 * w % 2 ^ 64 + d

/-- The signed test: ten times a number, wrapped around, is negative. -/
def SignedTrips (w _d : ℕ) : Prop := 2 ^ 63 ≤ 10 * w % 2 ^ 64

/-- No digit is found at the end. -/
theorem not_foundBehind_nil (trips : ℕ → ℕ → Prop) (v : ℕ) : ¬ FoundBehind trips v [] := by
  rintro ⟨pre, c, post, h, -⟩
  cases pre <;> cases h

/-- An overflow is found at the first digit, or behind it. -/
theorem foundBehind_cons {trips : ℕ → ℕ → Prop} {v : ℕ} {c : UInt8} {digits : List UInt8} :
    FoundBehind trips v (c :: digits) ↔
      trips v (digitValue c) ∨ FoundBehind trips (10 * v + digitValue c) digits := by
  constructor
  · rintro ⟨pre, d, post, h, htrips⟩
    cases pre with
    | nil =>
        obtain ⟨rfl, rfl⟩ := List.cons.inj h
        exact .inl htrips
    | cons e pre =>
        obtain ⟨rfl, rfl⟩ := List.cons.inj h
        rw [digitsFrom_cons] at htrips
        exact .inr ⟨pre, d, post, rfl, htrips⟩
  · rintro (htrips | ⟨pre, d, post, rfl, htrips⟩)
    · exact ⟨[], c, digits, rfl, htrips⟩
    · exact ⟨c :: pre, d, post, rfl, by rwa [digitsFrom_cons]⟩

/-- What is found in digits is found in numbers that are at most a tenth of theirs. -/
theorem FoundBehind.exists_le {trips : ℕ → ℕ → Prop} {v : ℕ} {digits : List UInt8}
    (h : FoundBehind trips v digits) :
    ∃ w d, trips w d ∧ 10 * w + d ≤ digitsFrom v digits := by
  obtain ⟨pre, c, post, rfl, htrips⟩ := h
  refine ⟨_, _, htrips, ?_⟩
  have hle := le_digitsFrom (10 * digitsFrom v pre + digitValue c) post
  rw [← digitsFrom_cons] at hle
  have happend : digitsFrom v (pre ++ c :: post) = digitsFrom (digitsFrom v pre) (c :: post) :=
    List.foldl_append
  rwa [happend]

/-- Nothing is found in a number of 64 bits. -/
theorem not_found_unsigned {digits : List UInt8} (h : digitsFrom 0 digits < 2 ^ 64) :
    ¬ FoundBehind UnsignedTrips 0 digits := by
  intro hfound
  obtain ⟨w, d, htrips, hle⟩ := hfound.exists_le
  rw [UnsignedTrips, Nat.mod_eq_of_lt (by omega), Nat.mod_eq_of_lt (by omega)] at htrips
  omega

/-- Nothing is found in a number that is at most the modulus of the least integer. -/
theorem not_found_signed {digits : List UInt8} (h : digitsFrom 0 digits ≤ 2 ^ 63) :
    ¬ FoundBehind SignedTrips 0 digits := by
  intro hfound
  obtain ⟨w, d, htrips, hle⟩ := hfound.exists_le
  rw [SignedTrips, Nat.mod_eq_of_lt (by omega)] at htrips
  have hlast : 10 * w = 2 ^ 63 := by omega
  omega

/-! ### The unsigned conversion -/

/-- Where the digits end the loop does. -/
theorem strtoUint64Loop_stop {rest : List UInt8} (hrest : rest.head?.any isdigit = false)
    (n t : UInt64) : strtoUint64Loop rest n t = some (n, rest) := by
  cases rest with
  | nil => rfl
  | cons c rest =>
      have hc : isdigit c = false := by simpa using hrest
      rw [strtoUint64Loop, hc]
      rfl

/-- **What the loop does with any digits.** -/
theorem strtoUint64Loop_eq {digits rest : List UInt8} (h : ∀ c ∈ digits, isdigit c = true)
    (hrest : rest.head?.any isdigit = false) (v : ℕ) :
    (FoundBehind UnsignedTrips v digits →
      strtoUint64Loop (digits ++ rest) (UInt64.ofNat v) (UInt64.ofNat v) = none) ∧
    (¬ FoundBehind UnsignedTrips v digits →
      strtoUint64Loop (digits ++ rest) (UInt64.ofNat v) (UInt64.ofNat v) =
        some (UInt64.ofNat (digitsFrom v digits), rest)) := by
  induction digits generalizing v with
  | nil =>
      refine ⟨fun hfound => absurd hfound (not_foundBehind_nil _ v), fun _ => ?_⟩
      exact strtoUint64Loop_stop hrest _ _
  | cons c digits ih =>
      obtain ⟨hvalue, hten⟩ := digitOf_spec (h c List.mem_cons_self)
      have hdigit : ((digitOf c).toUInt64).toNat = digitValue c := hvalue
      have hmul : UInt64.ofNat v * 10 = UInt64.ofNat (10 * v) := by
        rw [Nat.mul_comm, UInt64.ofNat_mul]
        rfl
      have hsum : UInt64.ofNat (10 * v) + (digitOf c).toUInt64 =
          UInt64.ofNat (10 * v + digitValue c) := by
        rw [UInt64.ofNat_add, ← hdigit, UInt64.ofNat_toNat]
      have htest : (UInt64.ofNat (10 * v) < UInt64.ofNat v ∨
          0xffffffffffffffff - UInt64.ofNat (10 * v) < (digitOf c).toUInt64) ↔
            UnsignedTrips v (digitValue c) := by
        rw [UInt64.lt_iff_toNat_lt, UInt64.lt_iff_toNat_lt, toNat_max_sub, hdigit,
          UInt64.toNat_ofNat', UInt64.toNat_ofNat', UnsignedTrips]
        omega
      obtain ⟨ihfound, ihnot⟩ := ih (fun d hd => h d (List.mem_cons_of_mem _ hd))
        (10 * v + digitValue c)
      rw [List.cons_append, strtoUint64Loop, if_pos (h c List.mem_cons_self),
        digitsFrom_cons, foundBehind_cons]
      simp only [hmul]
      by_cases htrips : UnsignedTrips v (digitValue c)
      · rw [if_pos (htest.mpr htrips)]
        exact ⟨fun _ => rfl, fun hnot => absurd (.inl htrips) hnot⟩
      · rw [if_neg (fun hc => htrips (htest.mp hc)), hsum]
        exact ⟨fun hfound => ihfound (hfound.resolve_left htrips),
          fun hnot => ihnot fun hfound => hnot (.inr hfound)⟩

/-- The sign in front of the digits is read over. -/
theorem strtoUint64Dec_text (u : UnsignedText) :
    strtoUint64Dec u.text =
      match strtoUint64Loop (u.digits.text ++ u.rest) 0 0 with
      | none => (0xffffffffffffffff, some .erange)
      | some (n, rest) =>
          (n, if rest ≠ [] ∧ rest.length = u.text.length then some .einval else none) := by
  obtain ⟨c, cs, htext⟩ := List.exists_cons_of_ne_nil u.digits.ne_nil
  obtain ⟨hspace, hplus⟩ := digit_ne (u.digits.digits c (by rw [htext]; exact List.mem_cons_self))
  rw [strtoUint64Dec]
  have hs : (let s := u.text.dropWhile (· == ascii ' ')
      if s.head? = some (ascii '+') then s.tail else s) = u.digits.text ++ u.rest := by
    rw [UnsignedText.text]
    cases u.plus with
    | false =>
        simp only [Bool.false_eq_true, if_false, List.nil_append, htext, List.cons_append]
        rw [List.dropWhile_cons_of_neg (by simpa using hspace)]
        simp [hplus]
    | true =>
        simp only [if_true, List.singleton_append]
        rw [List.dropWhile_cons_of_neg (by decide)]
        simp
  exact hs ▸ rfl

/-- **When the unsigned conversion is right.** -/
theorem UnsignedText.readRight_iff (u : UnsignedText) :
    u.ReadRight ↔ u.digits.value < 2 ^ 64 ∨ FoundBehind UnsignedTrips 0 u.digits.text := by
  have hloop := strtoUint64Loop_eq u.digits.digits u.ends 0
  have hvalue : digitsFrom 0 u.digits.text = u.digits.value := rfl
  have hlong : u.rest.length < u.text.length := by
    have hpos := List.length_pos_iff.mpr u.digits.ne_nil
    rw [UnsignedText.text, List.length_append, List.length_append]
    omega
  rw [UnsignedText.ReadRight, strtoUint64Dec_text]
  by_cases hfound : FoundBehind UnsignedTrips 0 u.digits.text
  · rw [show (0 : UInt64) = UInt64.ofNat 0 from rfl, hloop.1 hfound]
    have hlarge : ¬ u.digits.value < 2 ^ 64 := fun hlt => not_found_unsigned hlt hfound
    rw [if_neg hlarge]
    exact iff_of_true rfl (.inr hfound)
  · rw [show (0 : UInt64) = UInt64.ofNat 0 from rfl, hloop.2 hfound, hvalue]
    simp only [show ¬ (u.rest ≠ [] ∧ u.rest.length = u.text.length) by omega, if_false, hfound,
      or_false]
    by_cases hlt : u.digits.value < 2 ^ 64
    · rw [if_pos hlt]
      exact iff_of_true rfl hlt
    · rw [if_neg hlt]
      exact iff_of_false (by simp) hlt

/-! ### The signed conversion -/

/-- Where the digits end the loop does. -/
theorem strtoInt64Loop_stop {rest : List UInt8} (hrest : rest.head?.any isdigit = false)
    (n : Int64) : strtoInt64Loop rest n = some (n, rest) := by
  cases rest with
  | nil => rfl
  | cons c rest =>
      have hc : isdigit c = false := by simpa using hrest
      rw [strtoInt64Loop, hc]
      rfl

/-- A natural number as a signed integer is negative in the upper half. -/
theorem ofInt_neg_iff (v : ℕ) : Int64.ofInt v < 0 ↔ 2 ^ 63 ≤ v % 2 ^ 64 := by
  have hsize : Int64.size = 2 ^ 64 := rfl
  rw [Int64.lt_iff_toInt_lt, Int64.toInt_ofInt, Int64.toInt_zero, hsize, Int.bmod_def]
  omega

/-- The next digit as a signed integer. -/
theorem digitOf_toInt64 {c : UInt8} (h : isdigit c = true) :
    (digitOf c).toUInt64.toInt64 = Int64.ofInt (digitValue c) := by
  rw [← toInt_digitOf h, Int64.ofInt_toInt]

/-- **What the loop does with any digits.** -/
theorem strtoInt64Loop_eq {digits rest : List UInt8} (h : ∀ c ∈ digits, isdigit c = true)
    (hrest : rest.head?.any isdigit = false) (v : ℕ) :
    (FoundBehind SignedTrips v digits →
      strtoInt64Loop (digits ++ rest) (Int64.ofInt v) = none) ∧
    (¬ FoundBehind SignedTrips v digits →
      strtoInt64Loop (digits ++ rest) (Int64.ofInt v) =
        some (Int64.ofInt (digitsFrom v digits), rest)) := by
  induction digits generalizing v with
  | nil =>
      refine ⟨fun hfound => absurd hfound (not_foundBehind_nil _ v), fun _ => ?_⟩
      exact strtoInt64Loop_stop hrest _
  | cons c digits ih =>
      have hmul : Int64.ofInt v * 10 = Int64.ofInt (10 * v : ℕ) := by
        rw [show (10 : Int64) = Int64.ofInt 10 from rfl, ← Int64.ofInt_mul, Int.mul_comm]
        rfl
      have hsum : Int64.ofInt (10 * v : ℕ) + (digitOf c).toUInt64.toInt64 =
          Int64.ofInt (10 * v + digitValue c : ℕ) := by
        rw [digitOf_toInt64 (h c List.mem_cons_self), ← Int64.ofInt_add]
        rfl
      obtain ⟨ihfound, ihnot⟩ := ih (fun d hd => h d (List.mem_cons_of_mem _ hd))
        (10 * v + digitValue c)
      rw [List.cons_append, strtoInt64Loop, if_pos (h c List.mem_cons_self),
        digitsFrom_cons, foundBehind_cons]
      simp only [hmul]
      by_cases htrips : SignedTrips v (digitValue c)
      · rw [if_pos ((ofInt_neg_iff _).mpr htrips)]
        exact ⟨fun _ => rfl, fun hnot => absurd (.inl htrips) hnot⟩
      · rw [if_neg (fun hc => htrips ((ofInt_neg_iff _).mp hc)), hsum]
        exact ⟨fun hfound => ihfound (hfound.resolve_left htrips),
          fun hnot => ihnot fun hfound => hnot (.inr hfound)⟩

/-- The factor for the sign. -/
def SignedText.factor (s : SignedText) : Int64 := if s.negative then -1 else 1

/-- The limit on the side of the sign. -/
def SignedText.limit (s : SignedText) : Int64 :=
  if s.negative then Int64.minValue else Int64.maxValue

/-- The sign in front of the digits is taken. -/
theorem SignedText.takeSign_text (s : SignedText) :
    takeSign (s.text.dropWhile (· == ascii ' ')) = (s.negative, s.digits.text ++ s.rest) := by
  rcases s with ⟨n, _ | _ | _⟩
  · obtain ⟨c, cs, htext⟩ := List.exists_cons_of_ne_nil n.digits.ne_nil
    have hdigit := n.digits.digits c (by rw [htext]; exact List.mem_cons_self)
    obtain ⟨-, hminus, hplus⟩ := isdigit_plain hdigit
    change takeSign ((n.digits.text ++ n.rest).dropWhile _) = (false, n.digits.text ++ n.rest)
    rw [htext, List.cons_append,
      List.dropWhile_cons_of_neg (by simpa using (digit_ne hdigit).1), takeSign, if_neg hminus,
      if_neg hplus]
  · exact strtoInt64Dec_sign (.inl rfl) _
  · exact strtoInt64Dec_sign (.inr rfl) _

/-- The number that was read, and the test at the end. -/
theorem strtoInt64Dec_text (s : SignedText) :
    strtoInt64Dec s.text =
      match strtoInt64Loop (s.digits.text ++ s.rest) 0 with
      | none => (s.limit, some .erange)
      | some (n, rest) =>
          if rest ≠ [] then
            (n * s.factor, if rest.length = s.text.length then some .einval else none)
          else if n * s.factor * s.factor < 0 ∧
              ¬ (n * s.factor = Int64.minValue ∧ s.text.getLast? = some (ascii '8')) then
            (s.limit, some .erange)
          else (n * s.factor, none) := by
  rw [strtoInt64Dec, s.takeSign_text]
  rfl

/-- The last digit is the remainder by ten. -/
theorem digitsFrom_mod_ten (v : ℕ) {digits : List UInt8} {c : UInt8}
    (h : ∀ d ∈ digits, isdigit d = true) (hlast : digits.getLast? = some c) :
    digitsFrom v digits % 10 = digitValue c := by
  obtain ⟨pre, rfl⟩ := List.getLast?_eq_some_iff.mp hlast
  have hten := (digitOf_spec (h c (by simp))).2
  have happend : digitsFrom v (pre ++ [c]) = 10 * digitsFrom v pre + digitValue c := by
    rw [digitsFrom, List.foldl_append]
    rfl
  omega

/-- The digit eight. -/
theorem digitValue_eq_eight {c : UInt8} (h : isdigit c = true) :
    digitValue c = 8 ↔ c = ascii '8' := by
  revert h
  exact forall_byte (p := fun c => isdigit c = true → (digitValue c = 8 ↔ c = ascii '8'))
    (by decide +kernel) c

/-- The text ends with the digit eight if the number does, when nothing is behind it. -/
theorem SignedText.getLast_text {s : SignedText} (h : s.rest = []) :
    s.text.getLast? = some (ascii '8') ↔ s.digits.value % 10 = 8 := by
  obtain ⟨c, hlast⟩ : ∃ c, s.digits.text.getLast? = some c :=
    ⟨_, List.getLast?_eq_some_getLast s.digits.ne_nil⟩
  have hdigit := s.digits.digits c (List.mem_of_getLast? hlast)
  have hmod : s.digits.value % 10 = digitValue c :=
    digitsFrom_mod_ten 0 s.digits.digits hlast
  rw [SignedText.text, h, List.append_nil, List.getLast?_append_of_ne_nil _ s.digits.ne_nil,
    hlast, hmod, digitValue_eq_eight hdigit, Option.some_inj]

/-- The test at the end finds an overflow. -/
def SignedText.TripsAtEnd (s : SignedText) : Prop :=
  s.rest = [] ∧ 2 ^ 63 ≤ s.digits.value % 2 ^ 64 ∧
    ¬ (s.digits.value % 2 ^ 64 = 2 ^ 63 ∧ s.digits.value % 10 = 8)

/-- The number fits. -/
def SignedText.Fits (s : SignedText) : Prop := -2 ^ 63 ≤ s.value ∧ s.value < 2 ^ 63

instance (s : SignedText) : Decidable s.Fits :=
  inferInstanceAs (Decidable (-2 ^ 63 ≤ s.value ∧ s.value < 2 ^ 63))

/-- A number that fits has a modulus that does. -/
theorem SignedText.Fits.le {s : SignedText} (h : s.Fits) : s.digits.value ≤ 2 ^ 63 := by
  obtain ⟨hlow, hhigh⟩ := h
  rw [SignedText.value] at hlow hhigh
  by_cases hneg : s.negative
  · rw [if_pos hneg] at hlow
    omega
  · rw [if_neg hneg] at hhigh
    omega

/-- The sign twice is no sign. -/
theorem SignedText.mul_factor (s : SignedText) (n : Int64) : n * s.factor * s.factor = n := by
  rw [SignedText.factor]
  split <;> grind

/-- The sign in front of the number. -/
theorem SignedText.ofInt_value (s : SignedText) :
    Int64.ofInt s.digits.value * s.factor = Int64.ofInt s.value := by
  rw [SignedText.factor, SignedText.value]
  split
  · rw [show (-1 : Int64) = Int64.ofInt (-1) from rfl, ← Int64.ofInt_mul, mul_neg_one]
  · rw [Int64.mul_one]

/-- The least integer is read from the numbers that are 2^63 in 64 bits. -/
theorem SignedText.ofInt_value_eq_min (s : SignedText) :
    Int64.ofInt s.digits.value * s.factor = Int64.minValue ↔
      s.digits.value % 2 ^ 64 = 2 ^ 63 := by
  have hsize : Int64.size = 2 ^ 64 := rfl
  rw [s.ofInt_value, ← Int64.toInt_inj, Int64.toInt_ofInt, Int64.toInt_minValue, hsize,
    Int.bmod_def, SignedText.value]
  split <;> omega

/-- A number that fits does not trip the test at the end. -/
theorem SignedText.Fits.not_tripsAtEnd {s : SignedText} (h : s.Fits) : ¬ s.TripsAtEnd := by
  rintro ⟨-, hge, hexempt⟩
  have hle := h.le
  have hleast : s.digits.value = 2 ^ 63 := by omega
  exact hexempt (by rw [hleast]; decide)

/-- **When the signed conversion is right.** -/
theorem SignedText.readRight_iff (s : SignedText) :
    s.ReadRight ↔ s.Fits ∨ FoundBehind SignedTrips 0 s.digits.text ∨ s.TripsAtEnd := by
  have hloop := strtoInt64Loop_eq s.digits.digits s.ends 0
  have hvalue : digitsFrom 0 s.digits.text = s.digits.value := rfl
  have hlong : s.rest.length < s.text.length := by
    have hpos := List.length_pos_iff.mpr s.digits.ne_nil
    rw [SignedText.text, List.length_append, List.length_append]
    omega
  rw [show Int64.ofInt (0 : ℕ) = 0 from rfl] at hloop
  rw [SignedText.ReadRight, strtoInt64Dec_text]
  change _ = (if s.Fits then _ else (s.limit, some Errno.erange)) ↔ _
  by_cases hfound : FoundBehind SignedTrips 0 s.digits.text
  · rw [hloop.1 hfound]
    have hlarge : ¬ s.Fits := fun hfits => not_found_signed hfits.le hfound
    rw [if_neg hlarge]
    exact iff_of_true rfl (.inr (.inl hfound))
  · rw [hloop.2 hfound, hvalue]
    simp only [s.ofInt_value, hfound, false_or]
    by_cases hrest : s.rest = []
    · have htest : (Int64.ofInt s.value * s.factor < 0 ∧
          ¬ (Int64.ofInt s.value = Int64.minValue ∧ s.text.getLast? = some (ascii '8'))) ↔
            s.TripsAtEnd := by
        rw [← s.ofInt_value, s.mul_factor, ofInt_neg_iff, s.getLast_text hrest,
          s.ofInt_value_eq_min, SignedText.TripsAtEnd]
        simp only [hrest, true_and]
      rw [if_neg (not_not.mpr hrest)]
      by_cases hend : s.TripsAtEnd
      · rw [if_pos (htest.mpr hend), if_neg fun hfits => hfits.not_tripsAtEnd hend]
        exact iff_of_true rfl (.inr hend)
      · rw [if_neg (fun h => hend (htest.mp h))]
        by_cases hfits : s.Fits
        · rw [if_pos hfits]
          exact iff_of_true rfl (.inl hfits)
        · rw [if_neg hfits]
          exact iff_of_false (by simp) (by simp [hfits, hend])
    · rw [if_pos hrest, if_neg (by omega)]
      have hend : ¬ s.TripsAtEnd := fun h => hrest h.1
      by_cases hfits : s.Fits
      · rw [if_pos hfits]
        exact iff_of_true rfl (.inl hfits)
      · rw [if_neg hfits]
        exact iff_of_false (by simp) (by simp [hfits, hend])

/-! ### The claim -/

/-- **When the conversions return the number, or the error with the limit**: the number fits, or
a product on the way to it shows the overflow, or, for a signed number at the end of the text,
the last test does. -/
theorem conversions_right_iff (u : UnsignedText) (s : SignedText) :
    (u.ReadRight ↔ u.digits.value < 2 ^ 64 ∨ FoundBehind UnsignedTrips 0 u.digits.text) ∧
      (s.ReadRight ↔ s.Fits ∨ FoundBehind SignedTrips 0 s.digits.text ∨ s.TripsAtEnd) :=
  ⟨u.readRight_iff, s.readRight_iff⟩

/-- The text `30000000000000000000`. -/
def thirtyDigits : UnsignedText where
  digits := ⟨ascii '3' :: List.replicate 19 (ascii '0'), by decide, by decide +kernel⟩
  rest := []
  ends := rfl
  plus := false

/-- **A number is returned wrapped around, without an error**: the product by ten is larger than
what was multiplied. -/
theorem not_conversions_right :
    thirtyDigits.digits.value = 30000000000000000000 ∧
      strtoUint64Dec thirtyDigits.text = (11553255926290448384, none) ∧
      ¬ ((∀ u : UnsignedText, u.ReadRight) ∧ ∀ s : SignedText, s.ReadRight) := by
  have hread : strtoUint64Dec thirtyDigits.text = (11553255926290448384, none) := by
    decide +kernel
  have hvalue : thirtyDigits.digits.value = 30000000000000000000 := by decide +kernel
  refine ⟨hvalue, hread, fun h => ?_⟩
  have hright := h.1 thirtyDigits
  have hlarge : ¬ (30000000000000000000 : ℕ) < 2 ^ 64 := by simp
  rw [UnsignedText.ReadRight, hread, hvalue, if_neg hlarge] at hright
  cases congrArg Prod.snd hright

end OpenScap
