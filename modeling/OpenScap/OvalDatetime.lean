import OpenScap.CTime

/-!
# Datetimes of the time difference function

What `_parse_fmt` makes of a text in one of the datetime formats. The broken-down time that
`strptime` fills counts its years from 1900 and its months from 0. `_comp_sec` takes years and
months as they are written and makes this conversion again, so that every date is taken for
one 1900 years and a month earlier.

A result is `none` where the pointer that `localtime` returns is null and is followed.

## Main results

* `parseFmt_text` — the value read from a text, and how far it is from the true one;
* `datetime_difference_iff` — the value is never the true number of seconds, and the difference
  of two values is the true one exactly when both dates are moved by the same number of days.
-/

namespace OpenScap

open GregorianCalendar

/-- `long unsigned int`. -/
abbrev ULong := BitVec 64

/-- `_comp_sec`. -/
def compSec (year month day hour minute second : ℤ) : Option ULong := do
  let t := mktime ⟨year - 1900, month - 1, day, hour, minute, second⟩
  let isdst ← localtimeIsdst t
  let t := if isdst = 1 then t - 3600 else t
  some (BitVec.ofInt 64 t)

/-- `_dtfmt_ymd`. -/
def dtfmtYmd : List (List Directive) :=
  [[.Y, .m, .d],
   [.Y, .char (ascii '/'), .m, .char (ascii '/'), .d],
   [.Y, .char (ascii '-'), .m, .char (ascii '-'), .d],
   [.Y, .m, .d, .char (ascii 'T'), .H, .M, .S],
   [.Y, .char (ascii '/'), .m, .char (ascii '/'), .d, .n, .T],
   [.Y, .char (ascii '-'), .m, .char (ascii '-'), .d, .n, .T]]

/-- `_dtfmt_mdy`. -/
def dtfmtMdy : List (List Directive) :=
  [[.m, .char (ascii '/'), .d, .char (ascii '/'), .Y],
   [.m, .char (ascii '-'), .d, .char (ascii '-'), .Y],
   [.b, .char (ascii ','), .n, .d, .n, .Y],
   [.m, .char (ascii '/'), .d, .char (ascii '/'), .Y, .n, .T],
   [.m, .char (ascii '-'), .d, .char (ascii '-'), .Y, .n, .T],
   [.b, .char (ascii ','), .n, .d, .n, .Y, .n, .T]]

/-- `_dtfmt_dmy`. -/
def dtfmtDmy : List (List Directive) :=
  [[.d, .char (ascii '/'), .m, .char (ascii '/'), .Y],
   [.d, .char (ascii '-'), .m, .char (ascii '-'), .Y],
   [.d, .char (ascii '/'), .m, .char (ascii '/'), .Y, .n, .T],
   [.d, .char (ascii '-'), .m, .char (ascii '-'), .Y, .n, .T]]

/-- `_parse_datetime`: the first format that reads the whole text. -/
def parseDatetime (datetime : List UInt8) : List (List Directive) → Option ULong
  | [] => some 0
  | fmt :: fmts =>
      match strptime datetime fmt Tm.zero with
      | some ([], t) => compSec t.tm_year t.tm_mon t.tm_mday t.tm_hour t.tm_min t.tm_sec
      | _ => parseDatetime datetime fmts

/-- `_parse_fmt_win`, which is still to be written. -/
def parseFmtWin (_dt : List UInt8) : ULong := 0

/-- `_parse_fmt_sse`. -/
def parseFmtSse (dt : List UInt8) : Option ULong := do
  let t := strtol dt
  let isdst ← localtimeIsdst t
  let t := if isdst = 1 then t - 3600 else t
  some (BitVec.ofInt 64 t)

/-- `oval_datetime_format_t`. -/
inductive OvalDatetimeFormat
  | unknown | yearMonthDay | monthDayYear | dayMonthYear | winFiletime | secondsSinceEpoch
deriving DecidableEq

/-- `_parse_fmt`. -/
def parseFmt (sv : List UInt8) : OvalDatetimeFormat → Option ULong
  | .yearMonthDay => parseDatetime sv dtfmtYmd
  | .monthDayYear => parseDatetime sv dtfmtMdy
  | .dayMonthYear => parseDatetime sv dtfmtDmy
  | .winFiletime => some (parseFmtWin sv)
  | .secondsSinceEpoch => parseFmtSse sv
  | .unknown => some 0

/-! ### Written datetimes -/

/-- A date that exists, in a year of four digits, and a time of the day. -/
structure Datetime where
  year : ℕ
  month : ℕ
  day : ℕ
  hour : ℕ
  minute : ℕ
  second : ℕ
  year_lt : year < 10000
  month_pos : 1 ≤ month
  month_le : month ≤ 12
  day_pos : 1 ≤ day
  day_le : day ≤ daysInMonth year month
  hour_lt : hour < 24
  minute_lt : minute < 60
  second_lt : second < 60

/-- What stands between the numbers of a date. -/
inductive DateSeparator
  | slash | dash

/-- The character. -/
def DateSeparator.char : DateSeparator → UInt8
  | .slash => ascii '/'
  | .dash => ascii '-'

/-- How a date is written. -/
inductive Layout
  /-- `yyyymmdd` -/
  | compact
  /-- `yyyy/mm/dd` and `yyyy-mm-dd` -/
  | yearMonthDay (sep : DateSeparator)
  /-- `mm/dd/yyyy` and `mm-dd-yyyy` -/
  | monthDayYear (sep : DateSeparator)
  /-- `NameOfMonth, dd yyyy` -/
  | nameOfMonth
  /-- `AbreviatedNameOfMonth, dd yyyy` -/
  | abbreviatedNameOfMonth
  /-- `dd/mm/yyyy` and `dd-mm-yyyy` -/
  | dayMonthYear (sep : DateSeparator)

/-- The format that a layout belongs to. -/
def Layout.format : Layout → OvalDatetimeFormat
  | .compact | .yearMonthDay _ => .yearMonthDay
  | .monthDayYear _ | .nameOfMonth | .abbreviatedNameOfMonth => .monthDayYear
  | .dayMonthYear _ => .dayMonthYear

/-- The entry of the month in the table of names. -/
def Datetime.names (dt : Datetime) : List UInt8 × List UInt8 :=
  monthNames.get ⟨dt.month - 1, by
    have hle := dt.month_le
    have hpos := dt.month_pos
    have hlen : monthNames.length = 12 := rfl
    omega⟩

/-- The text of the date. -/
def Layout.date (dt : Datetime) : Layout → List UInt8
  | .compact => fixedDigits 4 dt.year ++ (fixedDigits 2 dt.month ++ fixedDigits 2 dt.day)
  | .yearMonthDay sep =>
      fixedDigits 4 dt.year ++ sep.char :: (fixedDigits 2 dt.month ++ sep.char ::
        fixedDigits 2 dt.day)
  | .monthDayYear sep =>
      fixedDigits 2 dt.month ++ sep.char :: (fixedDigits 2 dt.day ++ sep.char ::
        fixedDigits 4 dt.year)
  | .nameOfMonth =>
      dt.names.1 ++ ascii ',' :: ascii ' ' :: (fixedDigits 2 dt.day ++ ascii ' ' ::
        fixedDigits 4 dt.year)
  | .abbreviatedNameOfMonth =>
      dt.names.2 ++ ascii ',' :: ascii ' ' :: (fixedDigits 2 dt.day ++ ascii ' ' ::
        fixedDigits 4 dt.year)
  | .dayMonthYear sep =>
      fixedDigits 2 dt.day ++ sep.char :: (fixedDigits 2 dt.month ++ sep.char ::
        fixedDigits 4 dt.year)

/-- The text of the time, with what stands before it: `Thhmmss` after a date without
separators, and otherwise ` hh:mm:ss`. -/
def Layout.time (dt : Datetime) : Layout → List UInt8
  | .compact =>
      ascii 'T' :: (fixedDigits 2 dt.hour ++ (fixedDigits 2 dt.minute ++
        fixedDigits 2 dt.second))
  | _ =>
      ascii ' ' :: (fixedDigits 2 dt.hour ++ ascii ':' :: (fixedDigits 2 dt.minute ++
        ascii ':' :: fixedDigits 2 dt.second))

/-- A well-formed timestamp. -/
inductive Timestamp
  /-- A datetime in one of the layouts, with its time or, for midnight, without. -/
  | calendar (layout : Layout) (withTime : Bool) (dt : Datetime)
  /-- A number of seconds. -/
  | secondsSinceEpoch (negative : Bool) (d : Decimal)

/-- Its format. -/
def Timestamp.format : Timestamp → OvalDatetimeFormat
  | .calendar layout _ _ => layout.format
  | .secondsSinceEpoch _ _ => .secondsSinceEpoch

/-- Its text. -/
def Timestamp.text : Timestamp → List UInt8
  | .calendar layout withTime dt => layout.date dt ++ if withTime then layout.time dt else []
  | .secondsSinceEpoch negative d => if negative then ascii '-' :: d.text else d.text

/-- The true number of seconds since the epoch. -/
def Timestamp.instant : Timestamp → ℤ
  | .calendar _ withTime dt =>
      86400 * dayNumber dt.year dt.month dt.day +
        if withTime then (3600 * dt.hour + 60 * dt.minute + dt.second : ℤ) else 0
  | .secondsSinceEpoch negative d => if negative then -d.value else d.value

/-! ### What the formats read -/

/-- The numbers of a datetime are read back. -/
@[simp] theorem Datetime.read_year (dt : Datetime) (rest : List UInt8) (t : Tm) :
    Directive.Y.read (fixedDigits 4 dt.year ++ rest, t) =
      some (rest, { t with tm_year := dt.year - 1900 }) := by
  have hlt := dt.year_lt
  rw [Directive.read, readNumber, getNumber_fixedDigits rest (by omega) (by omega) (by omega)]
  rfl

@[simp] theorem Datetime.read_month (dt : Datetime) (rest : List UInt8) (t : Tm) :
    Directive.m.read (fixedDigits 2 dt.month ++ rest, t) =
      some (rest, { t with tm_mon := dt.month - 1 }) := by
  have hle := dt.month_le
  rw [Directive.read, readNumber, getNumber_fixedDigits rest (by omega) dt.month_pos hle]
  rfl

@[simp] theorem Datetime.read_day (dt : Datetime) (rest : List UInt8) (t : Tm) :
    Directive.d.read (fixedDigits 2 dt.day ++ rest, t) =
      some (rest, { t with tm_mday := dt.day }) := by
  have hle := dt.day_le.trans (daysInMonth_le dt.year dt.month)
  rw [Directive.read, readNumber, getNumber_fixedDigits rest (by omega) dt.day_pos hle]
  rfl

@[simp] theorem Datetime.read_hour (dt : Datetime) (rest : List UInt8) (t : Tm) :
    readHour (fixedDigits 2 dt.hour ++ rest, t) = some (rest, { t with tm_hour := dt.hour }) := by
  have hlt := dt.hour_lt
  rw [readHour, readNumber, getNumber_fixedDigits rest (by omega) (by omega) (by omega)]
  rfl

@[simp] theorem Datetime.read_minute (dt : Datetime) (rest : List UInt8) (t : Tm) :
    readMinute (fixedDigits 2 dt.minute ++ rest, t) =
      some (rest, { t with tm_min := dt.minute }) := by
  have hlt := dt.minute_lt
  rw [readMinute, readNumber, getNumber_fixedDigits rest (by omega) (by omega) (by omega)]
  rfl

@[simp] theorem Datetime.read_second (dt : Datetime) (t : Tm) :
    readSecond (fixedDigits 2 dt.second, t) = some ([], { t with tm_sec := dt.second }) := by
  have hlt := dt.second_lt
  rw [readSecond, readNumber, ← List.append_nil (fixedDigits 2 dt.second),
    getNumber_fixedDigits [] (by omega) (by omega) (by omega)]
  rfl

/-- A number is not what a character of a format stands for. -/
@[simp] theorem readChar_fixedDigits {c : UInt8} (hc : isdigit c = false) (k n : ℕ)
    (rest : List UInt8) (t : Tm) : readChar c (fixedDigits (k + 1) n ++ rest, t) = none := by
  have hne : digitChar (n / 10 ^ k) ≠ c := by
    rintro rfl
    rw [(digitChar_spec _).1] at hc
    exact Bool.noConfusion hc
  rw [fixedDigits, List.cons_append, readChar, if_neg hne]

/-- Nor the name of a month. -/
@[simp] theorem read_monthName_fixedDigits (k n : ℕ) (rest : List UInt8) (t : Tm) :
    Directive.b.read (fixedDigits (k + 1) n ++ rest, t) = none := by
  have hdigit : ∀ i < 10, ∀ s : List UInt8,
      monthName (UInt8.ofNat (48 + i) :: s) 0 monthNames = none := by
    intro i hi s
    interval_cases i <;> rfl
  rw [Directive.read, fixedDigits, List.cons_append, digitChar,
    hdigit _ (Nat.mod_lt _ (by omega))]
  rfl

/-- Digits are no white space. -/
@[simp] theorem dropWhile_fixedDigits (k n : ℕ) (rest : List UInt8) :
    (fixedDigits (k + 1) n ++ rest).dropWhile isspace = fixedDigits (k + 1) n ++ rest := by
  obtain ⟨hspace, -, -⟩ := isdigit_plain (digitChar_spec (n / 10 ^ k)).1
  rw [fixedDigits, List.cons_append, List.dropWhile_cons_of_neg (by simp [hspace])]

/-- The name of a month is read back. -/
@[simp] theorem Datetime.read_name (dt : Datetime) (rest : List UInt8) (t : Tm) :
    Directive.b.read (dt.names.1 ++ rest, t) =
      some (rest, { t with tm_mon := dt.month - 1 }) := by
  have hpos := dt.month_pos
  have hle := dt.month_le
  have hmon : ((dt.month - 1 : ℕ) : ℤ) = dt.month - 1 := by omega
  rw [Directive.read, Datetime.names, monthName_full (by omega), Option.map_some, hmon]

/-- So is its abbreviation. -/
@[simp] theorem Datetime.read_abbreviation (dt : Datetime) (rest : List UInt8) (t : Tm) :
    Directive.b.read (dt.names.2 ++ ascii ',' :: rest, t) =
      some (ascii ',' :: rest, { t with tm_mon := dt.month - 1 }) := by
  have hpos := dt.month_pos
  have hle := dt.month_le
  have hmon : ((dt.month - 1 : ℕ) : ℤ) = dt.month - 1 := by omega
  rw [Directive.read, Datetime.names, monthName_abbreviated (by omega), Option.map_some, hmon]

/-- Neither is a number. -/
@[simp] theorem Datetime.read_month_names (dt : Datetime) (rest : List UInt8) (t : Tm) :
    Directive.m.read (dt.names.1 ++ rest, t) = none ∧
    Directive.m.read (dt.names.2 ++ rest, t) = none := by
  have hpos := dt.month_pos
  have hle := dt.month_le
  obtain ⟨hfull, habbreviated⟩ :=
    getNumber_monthNames (m := dt.month - 1) (by omega) 1 12 2 rest
  constructor
  · rw [Directive.read, readNumber, Datetime.names, hfull, Option.map_none]
  · rw [Directive.read, readNumber, Datetime.names, habbreviated, Option.map_none]

/-- Nor is a separator. -/
@[simp] theorem read_month_char {c : UInt8} (hblank : c ≠ ascii ' ') (hdigit : isdigit c = false)
    (s : List UInt8) (t : Tm) : Directive.m.read (c :: s, t) = none := by
  rw [Directive.read, readNumber, getNumber_of_not_digit 1 12 2 s hblank hdigit, Option.map_none]

/-- **What a written datetime is read as.** The formats before the one of its layout do not
read the whole text. -/
theorem parseFmt_calendar (layout : Layout) (withTime : Bool) (dt : Datetime) :
    parseFmt (Timestamp.calendar layout withTime dt).text layout.format =
      compSec (dt.year - 1900) (dt.month - 1) dt.day (if withTime then dt.hour else 0)
        (if withTime then dt.minute else 0) (if withTime then dt.second else 0) := by
  cases layout with
  | compact =>
      cases withTime <;>
        simp +decide [-List.append_nil, Timestamp.text, parseFmt, Layout.format, Layout.date,
          Layout.time, parseDatetime, dtfmtYmd, strptime, Tm.zero]
  | yearMonthDay sep =>
      cases sep <;> cases withTime <;>
        simp +decide [-List.append_nil, Timestamp.text, parseFmt, Layout.format, Layout.date,
          Layout.time, parseDatetime, dtfmtYmd, strptime, Tm.zero, DateSeparator.char]
  | monthDayYear sep =>
      cases sep <;> cases withTime <;>
        simp +decide [-List.append_nil, Timestamp.text, parseFmt, Layout.format, Layout.date,
          Layout.time, parseDatetime, dtfmtMdy, strptime, Tm.zero, DateSeparator.char]
  | nameOfMonth =>
      cases withTime <;>
        simp +decide [-List.append_nil, Timestamp.text, parseFmt, Layout.format, Layout.date,
          Layout.time, parseDatetime, dtfmtMdy, strptime, Tm.zero]
  | abbreviatedNameOfMonth =>
      cases withTime <;>
        simp +decide [-List.append_nil, Timestamp.text, parseFmt, Layout.format, Layout.date,
          Layout.time, parseDatetime, dtfmtMdy, strptime, Tm.zero]
  | dayMonthYear sep =>
      cases sep <;> cases withTime <;>
        simp +decide [-List.append_nil, Timestamp.text, parseFmt, Layout.format, Layout.date,
          Layout.time, parseDatetime, dtfmtDmy, strptime, Tm.zero, DateSeparator.char]

/-! ### How far the dates are moved -/

/-- The month before a month. -/
def monthBefore (y : ℤ) (m : ℕ) : ℤ × ℕ := if m = 1 then (y - 1, 12) else (y, m - 1)

/-- The number of days from the first of the month before a date's month, 1900 years earlier, to
the first of its month. -/
def Datetime.shift (dt : Datetime) : ℤ :=
  dayNumber dt.year dt.month 1 -
    dayNumber (monthBefore (dt.year - 1900) dt.month).1 (monthBefore (dt.year - 1900) dt.month).2 1

/-- The shift is at least 1900 years of 365 days less the days of a year, and at most 1901 years
of 366 days and those of a year. -/
theorem Datetime.shift_bounds (dt : Datetime) : 0 < dt.shift ∧ dt.shift ≤ 700000 := by
  have hpos := dt.month_pos
  have hle := dt.month_le
  have hbefore := daysBefore_le dt.year hle
  obtain ⟨k, m, hmonth, hm, hk⟩ : ∃ (k m : ℕ),
      monthBefore (dt.year - 1900) dt.month = ((dt.year : ℤ) - k, m) ∧
        m ≤ 12 ∧ 1900 ≤ k ∧ k ≤ 1901 := by
    rw [monthBefore]
    split
    · exact ⟨1901, 12, Prod.ext (by push_cast; ring) rfl, le_rfl, by omega, by omega⟩
    · exact ⟨1900, dt.month - 1, rfl, by omega, by omega, by omega⟩
  have hbefore' := daysBefore_le (dt.year - k) hm
  have hyears := yearStart_add_bounds (dt.year - k) k
  rw [sub_add_cancel] at hyears
  rw [Datetime.shift, hmonth]
  simp only [dayNumber]
  omega

/-- The numbers of the days of the years 0 to 9999. -/
theorem Datetime.dayNumber_bounds (dt : Datetime) :
    -719528 ≤ dayNumber dt.year dt.month dt.day ∧
      dayNumber dt.year dt.month dt.day ≤ 3000000 := by
  have hlt := dt.year_lt
  have hbefore := daysBefore_le dt.year dt.month_le
  have hpos := dt.day_pos
  have hday := dt.day_le.trans (daysInMonth_le dt.year dt.month)
  have hyears := yearStart_add_bounds 0 dt.year
  have hzero : yearStart 0 = -719528 := by decide
  rw [hzero, zero_add] at hyears
  simp only [dayNumber]
  omega

/-- `mktime` counts the years and the months that `_comp_sec` hands to it from their beginning
once more. -/
theorem Datetime.mktime_eq (dt : Datetime) (hour minute second : ℤ) :
    mktime ⟨(dt.year - 1900) - 1900, (dt.month - 1) - 1, dt.day, hour, minute, second⟩ =
      86400 * (dayNumber dt.year dt.month dt.day - dt.shift) +
        3600 * hour + 60 * minute + second := by
  have hpos := dt.month_pos
  have hle := dt.month_le
  rw [mktime, Datetime.shift, monthBefore]
  dsimp only
  split_ifs with hjan
  · -- December of the year before
    have hdiv : ((dt.month : ℤ) - 1 - 1) / 12 = -1 := by omega
    have hmod : (((dt.month : ℤ) - 1 - 1) % 12 + 1).toNat = 12 := by omega
    have hyear : (1900 : ℤ) + (dt.year - 1900 - 1900) + -1 = dt.year - 1900 - 1 := by ring
    rw [hdiv, hmod, hyear]
    simp only [dayNumber]
    ring
  · have hdiv : ((dt.month : ℤ) - 1 - 1) / 12 = 0 := by omega
    have hmod : (((dt.month : ℤ) - 1 - 1) % 12 + 1).toNat = dt.month - 1 := by omega
    have hyear : (1900 : ℤ) + (dt.year - 1900 - 1900) + 0 = dt.year - 1900 := by ring
    rw [hdiv, hmod, hyear]
    simp only [dayNumber]
    ring

/-! ### The values -/

/-- By how many seconds the value of a timestamp is too small. -/
def Timestamp.shift : Timestamp → ℤ
  | .calendar _ _ dt => 86400 * dt.shift
  | .secondsSinceEpoch _ _ => 0

/-- `localtime` has a broken-down time for the value. -/
def Timestamp.Representable : Timestamp → Prop
  | .calendar _ _ _ => True
  | .secondsSinceEpoch negative d => InTmRange (if negative then -d.value else d.value)

/-- The true instants of the dates with a year of four digits. -/
theorem Timestamp.instant_bounds (layout : Layout) (withTime : Bool) (dt : Datetime) :
    -62167219200 ≤ (Timestamp.calendar layout withTime dt).instant ∧
      (Timestamp.calendar layout withTime dt).instant ≤ 259200086400 := by
  have hdays := dt.dayNumber_bounds
  have hhour := dt.hour_lt
  have hminute := dt.minute_lt
  have hsecond := dt.second_lt
  simp only [Timestamp.instant]
  split <;> omega

/-- Where `localtime` has a broken-down time, the number of seconds is kept. -/
theorem localtimeIsdst_of_range {t : ℤ} (h : InTmRange t) : localtimeIsdst t = some 0 := if_pos h

/-- **The value read from a text.** -/
theorem parseFmt_text (t : Timestamp) (h : t.Representable) :
    parseFmt t.text t.format = some (BitVec.ofInt 64 (t.instant - t.shift)) := by
  cases t with
  | calendar layout withTime dt =>
      have hinstant := Timestamp.instant_bounds layout withTime dt
      obtain ⟨hpos, hle⟩ := dt.shift_bounds
      have hvalue : mktime ⟨(dt.year - 1900) - 1900, (dt.month - 1) - 1, dt.day,
          if withTime then dt.hour else 0, if withTime then dt.minute else 0,
          if withTime then dt.second else 0⟩ =
          (Timestamp.calendar layout withTime dt).instant - 86400 * dt.shift := by
        rw [dt.mktime_eq]
        cases withTime
        · simp only [Timestamp.instant, Bool.false_eq_true, if_false]
          ring
        · simp only [Timestamp.instant, if_true]
          ring
      have hrange : InTmRange
          ((Timestamp.calendar layout withTime dt).instant - 86400 * dt.shift) := by
        rw [inTmRange_iff]
        omega
      have hformat : (Timestamp.calendar layout withTime dt).format = layout.format := rfl
      rw [hformat, parseFmt_calendar]
      simp only [compSec, hvalue, localtimeIsdst_of_range hrange]
      rfl
  | secondsSinceEpoch negative d =>
      have hstrtol : strtol (Timestamp.secondsSinceEpoch negative d).text =
          (Timestamp.secondsSinceEpoch negative d).instant := by
        have hrange := (inTmRange_iff _).1 h
        cases negative with
        | true =>
            simp only [Timestamp.text, Timestamp.instant, if_true] at hrange ⊢
            rw [strtol_minus, clampLong]
            omega
        | false =>
            simp only [Timestamp.text, Timestamp.instant, Bool.false_eq_true, if_false]
              at hrange ⊢
            rw [← List.append_nil d.text, strtol_digits d rfl, clampLong]
            omega
      have hrange : InTmRange (Timestamp.secondsSinceEpoch negative d).instant := h
      have hparse : parseFmt (Timestamp.secondsSinceEpoch negative d).text
          (Timestamp.secondsSinceEpoch negative d).format =
          parseFmtSse (Timestamp.secondsSinceEpoch negative d).text := rfl
      rw [hparse]
      simp only [parseFmtSse, hstrtol, localtimeIsdst_of_range hrange, Timestamp.shift, sub_zero]
      rfl

/-- Elsewhere the null pointer is followed. -/
theorem parseFmt_text_none (t : Timestamp) (h : ¬ t.Representable) :
    parseFmt t.text t.format = none := by
  cases t with
  | calendar layout withTime dt => exact absurd trivial h
  | secondsSinceEpoch negative d =>
      have hstrtol : ¬ InTmRange (strtol (Timestamp.secondsSinceEpoch negative d).text) := by
        have hrange := mt (inTmRange_iff _).2 h
        cases negative with
        | true =>
            simp only [Timestamp.text, if_true] at hrange ⊢
            rw [strtol_minus, clampLong, inTmRange_iff]
            omega
        | false =>
            simp only [Timestamp.text, Bool.false_eq_true, if_false] at hrange ⊢
            rw [← List.append_nil d.text, strtol_digits d rfl, clampLong, inTmRange_iff]
            omega
      have hparse : parseFmt (Timestamp.secondsSinceEpoch negative d).text
          (Timestamp.secondsSinceEpoch negative d).format =
          parseFmtSse (Timestamp.secondsSinceEpoch negative d).text := rfl
      rw [hparse, parseFmtSse]
      simp only [localtimeIsdst, if_neg hstrtol]
      rfl

/-! ### Differences -/

/-- The difference of two values, as the time difference function takes it. -/
def parseDifference (sv1 : List UInt8) (fmt1 : OvalDatetimeFormat) (sv2 : List UInt8)
    (fmt2 : OvalDatetimeFormat) : Option ULong := do
  let v1 ← parseFmt sv1 fmt1
  let v2 ← parseFmt sv2 fmt2
  some (v1 - v2)

/-- Numbers that are not too far apart are told apart by their low 64 bits. -/
theorem ulong_ofInt_inj {a b : ℤ} (h : |a - b| < 2 ^ 64) :
    BitVec.ofInt 64 a = BitVec.ofInt 64 b ↔ a = b := by
  rw [abs_lt] at h
  constructor
  · intro heq
    have hnat := congrArg BitVec.toNat heq
    rw [BitVec.toNat_ofInt, BitVec.toNat_ofInt] at hnat
    omega
  · rintro rfl
    rfl

/-- The low 64 bits of a difference. -/
theorem ulong_ofInt_sub (a b : ℤ) :
    BitVec.ofInt 64 a - BitVec.ofInt 64 b = BitVec.ofInt 64 (a - b) := by
  apply BitVec.eq_of_toNat_eq
  rw [BitVec.toNat_sub, BitVec.toNat_ofInt, BitVec.toNat_ofInt, BitVec.toNat_ofInt]
  omega

/-- The difference of two values. -/
theorem parseDifference_text {t u : Timestamp} (ht : t.Representable) (hu : u.Representable) :
    parseDifference t.text t.format u.text u.format =
      some (BitVec.ofInt 64 ((t.instant - u.instant) - (t.shift - u.shift))) := by
  rw [parseDifference, parseFmt_text t ht, parseFmt_text u hu]
  have hsplit : (t.instant - u.instant) - (t.shift - u.shift) =
      (t.instant - t.shift) - (u.instant - u.shift) := by ring
  rw [hsplit, ← ulong_ofInt_sub (t.instant - t.shift) (u.instant - u.shift)]
  rfl

/-- A value that is not there leaves no difference. -/
theorem parseDifference_eq_none {t u : Timestamp} (h : ¬ (t.Representable ∧ u.Representable)) :
    parseDifference t.text t.format u.text u.format = none := by
  rw [parseDifference]
  by_cases ht : t.Representable
  · rw [parseFmt_text t ht, parseFmt_text_none u fun hu => h ⟨ht, hu⟩]
    rfl
  · rw [parseFmt_text_none t ht]
    rfl

/-- The shifts. -/
theorem Timestamp.shift_bounds (t : Timestamp) : 0 ≤ t.shift ∧ t.shift ≤ 60480000000 := by
  cases t with
  | calendar layout withTime dt =>
      obtain ⟨hpos, hle⟩ := dt.shift_bounds
      simp only [Timestamp.shift]
      omega
  | secondsSinceEpoch negative d => exact ⟨le_rfl, by norm_num [Timestamp.shift]⟩

/-- **When a difference is right.** -/
theorem parseDifference_iff (t u : Timestamp) :
    parseDifference t.text t.format u.text u.format =
        some (BitVec.ofInt 64 (t.instant - u.instant)) ↔
      t.Representable ∧ u.Representable ∧ t.shift = u.shift := by
  by_cases h : t.Representable ∧ u.Representable
  · have hbounds := t.shift_bounds
    have hbounds' := u.shift_bounds
    rw [parseDifference_text h.1 h.2, Option.some_inj, ulong_ofInt_inj (by rw [abs_lt]; omega)]
    constructor
    · intro heq
      exact ⟨h.1, h.2, by omega⟩
    · rintro ⟨-, -, heq⟩
      omega
  · rw [parseDifference_eq_none h]
    constructor
    · intro hnone
      exact absurd hnone.symm (Option.some_ne_none _)
    · rintro ⟨ht, hu, -⟩
      exact absurd ⟨ht, hu⟩ h

/-- **No datetime has its true value, and when a difference is right.** -/
theorem datetime_difference_iff (layout : Layout) (withTime : Bool) (dt : Datetime)
    (t u : Timestamp) :
    parseFmt (Timestamp.calendar layout withTime dt).text layout.format ≠
        some (BitVec.ofInt 64 (Timestamp.calendar layout withTime dt).instant) ∧
      (parseDifference t.text t.format u.text u.format =
          some (BitVec.ofInt 64 (t.instant - u.instant)) ↔
        t.Representable ∧ u.Representable ∧ t.shift = u.shift) := by
  refine ⟨?_, parseDifference_iff t u⟩
  have hvalue := parseFmt_text (.calendar layout withTime dt) trivial
  have hformat : (Timestamp.calendar layout withTime dt).format = layout.format := rfl
  obtain ⟨hpos, hle⟩ := dt.shift_bounds
  rw [hformat] at hvalue
  rw [hvalue]
  intro heq
  rw [Option.some_inj, ulong_ofInt_inj (by simp only [Timestamp.shift, abs_lt]; omega)] at heq
  simp only [Timestamp.shift] at heq
  omega

/-- 1 January 2000 is read as 1 December 99. -/
theorem not_datetime_value :
    ¬ ∀ (layout : Layout) (withTime : Bool) (dt : Datetime),
      parseFmt (Timestamp.calendar layout withTime dt).text layout.format =
        some (BitVec.ofInt 64 (Timestamp.calendar layout withTime dt).instant) := by
  intro h
  have hday := h .compact false ⟨2000, 1, 1, 0, 0, 0, by decide, by decide, by decide, by decide,
    by decide, by decide, by decide, by decide⟩
  revert hday
  decide +kernel

end OpenScap
