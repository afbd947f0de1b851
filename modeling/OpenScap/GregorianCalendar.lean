import Mathlib.Algebra.Order.Ring.Int
import Mathlib.Tactic.IntervalCases
import Mathlib.Tactic.Ring

/-!
# The Gregorian calendar

The proleptic calendar: its rules hold for every year, also before they were introduced, and
years are counted through zero. Every day has a number, which is 0 for 1 January 1970.

## Main results

* `dayNumber_nextDay` — a day and the next one have successive numbers;
* `yearStart_add_bounds` — how far apart two years are.
-/

namespace GregorianCalendar

/-- The leap years. -/
def isLeap (y : ℤ) : Bool := y % 4 = 0 && (y % 100 ≠ 0 || y % 400 = 0)

/-- How many days a month has. -/
def daysInMonth (y : ℤ) (m : ℕ) : ℕ :=
  if m = 2 then (if isLeap y then 29 else 28)
  else if m = 4 ∨ m = 6 ∨ m = 9 ∨ m = 11 then 30
  else 31

/-- How many days of a year there are before a month. -/
def daysBefore (y : ℤ) : ℕ → ℕ
  | 0 => 0
  | 1 => 0
  | m + 2 => daysBefore y (m + 1) + daysInMonth y (m + 1)

/-- The leap days up to the end of a year, counted from the year 1. -/
def leapDays (y : ℤ) : ℤ := y / 4 - y / 100 + y / 400

/-- The number of 1 January. -/
def yearStart (y : ℤ) : ℤ := 365 * (y - 1970) + leapDays (y - 1) - leapDays 1969

/-- The number of a day. -/
def dayNumber (y : ℤ) (m : ℕ) (d : ℤ) : ℤ := yearStart y + daysBefore y m + (d - 1)

/-- The day after a date. -/
def nextDay (y : ℤ) (m d : ℕ) : ℤ × ℕ × ℕ :=
  if d < daysInMonth y m then (y, m, d + 1)
  else if m < 12 then (y, m + 1, 1)
  else (y + 1, 1, 1)

/-! ### Successive days -/

/-- The days are counted from 1 January 1970. -/
theorem dayNumber_epoch : dayNumber 1970 1 1 = 0 := by decide

/-- A year has 366 days if it is a leap year, and 365 otherwise. -/
theorem yearStart_succ (y : ℤ) :
    yearStart (y + 1) = yearStart y + 365 + if isLeap y then 1 else 0 := by
  have hleap : leapDays y = leapDays (y - 1) + if isLeap y then 1 else 0 := by
    simp only [leapDays, isLeap, ne_eq, Bool.and_eq_true, Bool.or_eq_true, decide_eq_true_eq]
    split <;> omega
  rw [yearStart, yearStart, add_sub_cancel_right, hleap]
  ring

/-- The days before December and those of December are the days of the year. -/
theorem daysBefore_december (y : ℤ) :
    (daysBefore y 12 : ℤ) + 31 = 365 + if isLeap y then 1 else 0 := by
  simp only [daysBefore, daysInMonth]
  cases isLeap y <;> rfl

/-- **A day and the next one have successive numbers.** -/
theorem dayNumber_nextDay {y : ℤ} {m d : ℕ} (hm : 1 ≤ m ∧ m ≤ 12)
    (hd : d ≤ daysInMonth y m) :
    dayNumber (nextDay y m d).1 (nextDay y m d).2.1 (nextDay y m d).2.2 =
      dayNumber y m d + 1 := by
  rw [nextDay]
  split_ifs with hlt hm12
  · simp only [dayNumber]
    push_cast
    ring
  · -- the first of the next month
    obtain ⟨k, rfl⟩ : ∃ k, m = k + 1 := ⟨m - 1, by omega⟩
    have hlast : d = daysInMonth y (k + 1) := by omega
    simp only [dayNumber, daysBefore, hlast]
    push_cast
    ring
  · -- 1 January
    obtain rfl : m = 12 := by omega
    have hlast : d = 31 := by
      have hdec : daysInMonth y 12 = 31 := rfl
      omega
    have hdays := daysBefore_december y
    simp only [dayNumber, yearStart_succ, hlast]
    have hjan : daysBefore (y + 1) 1 = 0 := rfl
    rw [hjan]
    push_cast
    omega

/-! ### Bounds -/

/-- A year has 365 or 366 days. -/
theorem yearStart_add_bounds (y : ℤ) (k : ℕ) :
    yearStart y + 365 * k ≤ yearStart (y + k) ∧ yearStart (y + k) ≤ yearStart y + 366 * k := by
  induction k with
  | zero => simp
  | succ k ih =>
      have hsucc := yearStart_succ (y + k)
      rw [Nat.cast_succ, ← add_assoc, hsucc]
      split <;> omega

/-- The days before the months increase. -/
theorem daysBefore_mono (y : ℤ) {m n : ℕ} (h : m ≤ n) : daysBefore y m ≤ daysBefore y n := by
  induction n, h using Nat.le_induction with
  | base => exact le_rfl
  | succ n _ ih =>
      refine ih.trans ?_
      cases n with
      | zero => exact le_rfl
      | succ n => exact Nat.le_add_right _ _

/-- There are at most 335 days before a month. -/
theorem daysBefore_le (y : ℤ) {m : ℕ} (h : m ≤ 12) : daysBefore y m ≤ 335 := by
  have hmono := daysBefore_mono y h
  have hdec := daysBefore_december y
  split at hdec <;> omega

/-- A month has at most 31 days. -/
theorem daysInMonth_le (y : ℤ) (m : ℕ) : daysInMonth y m ≤ 31 := by
  rw [daysInMonth]
  split_ifs <;> omega

end GregorianCalendar
