import OpenScap.CNumber
import OpenScap.GregorianCalendar

/-!
# Times of C

The functions of the C library between broken-down times, counts of seconds and texts, in the
UTC zone and the C locale, on a platform whose `time_t` has 64 bits. There is no daylight
saving time in UTC. `mktime` is the proleptic Gregorian calendar; a month outside the year is
one of another year. `localtime` fails where the year does not fit into `int`.

## Main results

* `getNumber_fixedDigits` — the number that digits of a fixed count write is read back;
* `monthName_full`, `monthName_abbreviated` — so is the name of a month.
-/

namespace OpenScap

open GregorianCalendar

/-- `struct tm`. -/
structure Tm where
  tm_year : ℤ
  tm_mon : ℤ
  tm_mday : ℤ
  tm_hour : ℤ
  tm_min : ℤ
  tm_sec : ℤ
deriving DecidableEq

/-- What `memset` leaves. -/
def Tm.zero : Tm := ⟨0, 0, 0, 0, 0, 0⟩

/-- `mktime`. -/
def mktime (t : Tm) : ℤ :=
  86400 * dayNumber (1900 + t.tm_year + t.tm_mon / 12) (t.tm_mon % 12 + 1).toNat t.tm_mday +
    3600 * t.tm_hour + 60 * t.tm_min + t.tm_sec

/-- The times whose year, counted from 1900, fits into `int`. -/
def InTmRange (t : ℤ) : Prop :=
  86400 * yearStart (1900 - 2 ^ 31) ≤ t ∧ t < 86400 * yearStart (1900 + 2 ^ 31)

instance (t : ℤ) : Decidable (InTmRange t) := inferInstanceAs (Decidable (_ ∧ _))

/-- The `tm_isdst` of what `localtime` returns, which is a null pointer for the other times. -/
def localtimeIsdst (t : ℤ) : Option ℤ := if InTmRange t then some 0 else none

/-- The limits of the range. -/
theorem inTmRange_iff (t : ℤ) :
    InTmRange t ↔ -67768040609740800 ≤ t ∧ t < 67768036191676800 := by
  have hmin : yearStart (1900 - 2 ^ 31) = -784352321872 := by decide
  have hmax : yearStart (1900 + 2 ^ 31) = 784352270737 := by decide
  rw [InTmRange, hmin, hmax]
  norm_num

/-! ### `strptime` -/

/-- A conversion specification of a format, or a character that stands for itself. -/
inductive Directive
  | Y | m | d | b | H | M | S | n | T
  | char (c : UInt8)
deriving DecidableEq

/-- The digits that may follow, as long as the number can stay below its limit. -/
def moreDigits (hi : ℕ) : ℕ → ℕ → List UInt8 → ℕ × List UInt8
  | k + 1, v, c :: s =>
      if 10 * v ≤ hi && isdigit c then moreDigits hi k (10 * v + digitValue c) s
      else (v, c :: s)
  | _, v, s => (v, s)

/-- A number between two limits with at most a number of digits, behind blanks. -/
def getNumber (lo hi k : ℕ) (s : List UInt8) : Option (ℕ × List UInt8) :=
  match s.dropWhile (· == ascii ' ') with
  | c :: s =>
      if isdigit c then
        let (v, rest) := moreDigits hi (k - 1) (digitValue c) s
        if lo ≤ v ∧ v ≤ hi then some (v, rest) else none
      else none
  | [] => none

/-- What stands behind a name, which may be written with letters of either case. -/
def matchString : List UInt8 → List UInt8 → Option (List UInt8)
  | [], s => some s
  | _ :: _, [] => none
  | a :: as, c :: s => if tolower a = tolower c then matchString as s else none

/-- The names of the months and their abbreviations. -/
def monthNames : List (List UInt8 × List UInt8) :=
  [(bytes ['J', 'a', 'n', 'u', 'a', 'r', 'y'], bytes ['J', 'a', 'n']),
   (bytes ['F', 'e', 'b', 'r', 'u', 'a', 'r', 'y'], bytes ['F', 'e', 'b']),
   (bytes ['M', 'a', 'r', 'c', 'h'], bytes ['M', 'a', 'r']),
   (bytes ['A', 'p', 'r', 'i', 'l'], bytes ['A', 'p', 'r']),
   (bytes ['M', 'a', 'y'], bytes ['M', 'a', 'y']),
   (bytes ['J', 'u', 'n', 'e'], bytes ['J', 'u', 'n']),
   (bytes ['J', 'u', 'l', 'y'], bytes ['J', 'u', 'l']),
   (bytes ['A', 'u', 'g', 'u', 's', 't'], bytes ['A', 'u', 'g']),
   (bytes ['S', 'e', 'p', 't', 'e', 'm', 'b', 'e', 'r'], bytes ['S', 'e', 'p']),
   (bytes ['O', 'c', 't', 'o', 'b', 'e', 'r'], bytes ['O', 'c', 't']),
   (bytes ['N', 'o', 'v', 'e', 'm', 'b', 'e', 'r'], bytes ['N', 'o', 'v']),
   (bytes ['D', 'e', 'c', 'e', 'm', 'b', 'e', 'r'], bytes ['D', 'e', 'c'])]

/-- The first month of a list that a text starts with, by its name or its abbreviation. -/
def monthName (s : List UInt8) :
    ℕ → List (List UInt8 × List UInt8) → Option (ℕ × List UInt8)
  | _, [] => none
  | i, (full, abbreviated) :: names =>
      match matchString full s with
      | some rest => some (i, rest)
      | none =>
          match matchString abbreviated s with
          | some rest => some (i, rest)
          | none => monthName s (i + 1) names

/-- The text that is left and the broken-down time, while a format is worked through. -/
abbrev Scan := List UInt8 × Tm

/-- A number is read and stored. -/
def readNumber (lo hi k : ℕ) (store : Tm → ℕ → Tm) (st : Scan) : Option Scan :=
  (getNumber lo hi k st.1).map fun r => (r.2, store st.2 r.1)

/-- `%H`. -/
def readHour : Scan → Option Scan := readNumber 0 23 2 fun t v => { t with tm_hour := v }

/-- `%M`. -/
def readMinute : Scan → Option Scan := readNumber 0 59 2 fun t v => { t with tm_min := v }

/-- `%S`. -/
def readSecond : Scan → Option Scan := readNumber 0 61 2 fun t v => { t with tm_sec := v }

/-- A character that stands for itself. -/
def readChar (c : UInt8) : Scan → Option Scan
  | (x :: s, t) => if x = c then some (s, t) else none
  | ([], _) => none

/-- What a directive reads; `%T` is `%H:%M:%S`. -/
def Directive.read : Directive → Scan → Option Scan
  | .Y, st => readNumber 0 9999 4 (fun t v => { t with tm_year := v - 1900 }) st
  | .m, st => readNumber 1 12 2 (fun t v => { t with tm_mon := v - 1 }) st
  | .d, st => readNumber 1 31 2 (fun t v => { t with tm_mday := v }) st
  | .b, (s, t) => (monthName s 0 monthNames).map fun r => (r.2, { t with tm_mon := r.1 })
  | .H, st => readHour st
  | .M, st => readMinute st
  | .S, st => readSecond st
  | .n, (s, t) => some (s.dropWhile isspace, t)
  | .T, st =>
      readHour st >>= readChar (ascii ':') >>= readMinute >>= readChar (ascii ':') >>= readSecond
  | .char c, st => readChar c st

@[simp] theorem read_hour (st : Scan) : Directive.H.read st = readHour st := rfl

@[simp] theorem read_minute (st : Scan) : Directive.M.read st = readMinute st := rfl

@[simp] theorem read_second (st : Scan) : Directive.S.read st = readSecond st := rfl

@[simp] theorem read_spaces (s : List UInt8) (t : Tm) :
    Directive.n.read (s, t) = some (s.dropWhile isspace, t) := rfl

@[simp] theorem read_char (c : UInt8) (st : Scan) :
    (Directive.char c).read st = readChar c st := rfl

@[simp] theorem read_time (st : Scan) :
    Directive.T.read st = (readHour st >>= readChar (ascii ':') >>= readMinute >>=
      readChar (ascii ':') >>= readSecond) := rfl

@[simp] theorem readChar_cons (c x : UInt8) (s : List UInt8) (t : Tm) :
    readChar c (x :: s, t) = if x = c then some (s, t) else none := rfl

/-- `strptime`: the text that is left, and the broken-down time with what was read. -/
def strptime (s : List UInt8) (fmt : List Directive) (t : Tm) : Option Scan :=
  fmt.foldlM (fun st directive => directive.read st) (s, t)

/-! ### Digits -/

/-- The character of a digit. -/
def digitChar (n : ℕ) : UInt8 := UInt8.ofNat (48 + n % 10)

/-- The last digits of a number, a fixed count of them. -/
def fixedDigits : ℕ → ℕ → List UInt8
  | 0, _ => []
  | k + 1, n => digitChar (n / 10 ^ k) :: fixedDigits k n

/-- What the characters of digits are. -/
theorem digitChar_spec (n : ℕ) :
    isdigit (digitChar n) = true ∧ digitValue (digitChar n) = n % 10 := by
  have h : ∀ i < 10, isdigit (UInt8.ofNat (48 + i)) = true ∧
      digitValue (UInt8.ofNat (48 + i)) = i := by decide
  exact h (n % 10) (Nat.mod_lt n (by omega))

/-- The digits that are read after a number are appended to it. -/
theorem moreDigits_fixedDigits {hi k n v : ℕ} (rest : List UInt8)
    (h : v * 10 ^ k + n % 10 ^ k ≤ hi) :
    moreDigits hi k v (fixedDigits k n ++ rest) = (v * 10 ^ k + n % 10 ^ k, rest) := by
  induction k generalizing v with
  | zero => simp [moreDigits, fixedDigits, Nat.mod_one]
  | succ k ih =>
      obtain ⟨hdigit, hvalue⟩ := digitChar_spec (n / 10 ^ k)
      have hsplit : n % 10 ^ (k + 1) = n / 10 ^ k % 10 * 10 ^ k + n % 10 ^ k := by
        rw [pow_succ, Nat.mod_mul, add_comm, mul_comm]
      have hnext : (10 * v + n / 10 ^ k % 10) * 10 ^ k + n % 10 ^ k =
          v * 10 ^ (k + 1) + n % 10 ^ (k + 1) := by
        rw [hsplit, pow_succ]
        ring
      have hle : 10 * v ≤ hi := by
        calc 10 * v = v * 10 ^ 1 := by ring
          _ ≤ v * 10 ^ (k + 1) := Nat.mul_le_mul_left v (Nat.pow_le_pow_right (by omega) (by omega))
          _ ≤ hi := by omega
      rw [fixedDigits, List.cons_append, moreDigits, hdigit, hvalue]
      simp only [hle, decide_true, Bool.and_self, if_true]
      rw [ih (by rw [hnext]; exact h), hnext]

/-- **The number that digits of a fixed count write is read back.** -/
theorem getNumber_fixedDigits {lo hi k n : ℕ} (rest : List UInt8) (hk : n < 10 ^ (k + 1))
    (hlo : lo ≤ n) (hhi : n ≤ hi) :
    getNumber lo hi (k + 1) (fixedDigits (k + 1) n ++ rest) = some (n, rest) := by
  obtain ⟨hdigit, hvalue⟩ := digitChar_spec (n / 10 ^ k)
  obtain ⟨hspace, -, -⟩ := isdigit_plain hdigit
  have hblank : (digitChar (n / 10 ^ k) == ascii ' ') = false := by
    rw [isspace, Bool.or_eq_false_iff] at hspace
    exact hspace.1
  have hn : n / 10 ^ k % 10 * 10 ^ k + n % 10 ^ k = n := by
    have hlt : n / 10 ^ k < 10 := Nat.div_lt_of_lt_mul (by rwa [← pow_succ])
    rw [Nat.mod_eq_of_lt hlt]
    exact Nat.div_add_mod' n (10 ^ k)
  rw [getNumber, fixedDigits, List.cons_append, List.dropWhile_cons_of_neg (by simp [hblank])]
  simp only [hdigit, if_true, hvalue, Nat.add_sub_cancel]
  rw [moreDigits_fixedDigits rest (by rw [hn]; exact hhi), hn]
  exact if_pos ⟨hlo, hhi⟩

/-- A text that starts with neither a blank nor a digit has no number. -/
theorem getNumber_of_not_digit {c : UInt8} (lo hi k : ℕ) (s : List UInt8)
    (hblank : c ≠ ascii ' ') (hdigit : isdigit c = false) :
    getNumber lo hi k (c :: s) = none := by
  rw [getNumber, List.dropWhile_cons_of_neg (by simpa using hblank)]
  simp [hdigit]

/-! ### Names of months -/

/-- The name of a month is read. -/
theorem monthName_full {m : ℕ} (hm : m < 12) (rest : List UInt8) :
    monthName ((monthNames.get ⟨m, hm⟩).1 ++ rest) 0 monthNames = some (m, rest) := by
  interval_cases m <;> rfl

/-- So is its abbreviation, in front of a comma. -/
theorem monthName_abbreviated {m : ℕ} (hm : m < 12) (rest : List UInt8) :
    monthName ((monthNames.get ⟨m, hm⟩).2 ++ ascii ',' :: rest) 0 monthNames =
      some (m, ascii ',' :: rest) := by
  interval_cases m <;> rfl

/-- Neither is a number. -/
theorem getNumber_monthNames {m : ℕ} (hm : m < 12) (lo hi k : ℕ) (rest : List UInt8) :
    getNumber lo hi k ((monthNames.get ⟨m, hm⟩).1 ++ rest) = none ∧
    getNumber lo hi k ((monthNames.get ⟨m, hm⟩).2 ++ rest) = none := by
  interval_cases m <;> exact ⟨rfl, rfl⟩

end OpenScap
