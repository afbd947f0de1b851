import Mathlib.Data.List.ProdSigma
import OpenScap.FallibleLoop
import OpenScap.OvalDatetime
import OpenScap.OvalTest

/-!
# The time difference function

The evaluation of `time_difference`: all pairs of a value of the first and a value of the second
component, the second one running faster, each read as a datetime and subtracted. The difference
is a `long unsigned int`, and its text is cut off after 15 characters. With one component the
first one is the current time; more than two are an error.

## Main results

* `timedifLoop_eq` — the values are those of the pairs in row-major order;
* `timedif_correct_iff` — all values are the exact signed differences exactly when for every
  pair both timestamps are read with the same shift and the difference is neither negative nor
  of more than 15 digits.
-/

namespace OpenScap

open FallibleLoop GregorianCalendar

/-- `struct oval_value`, as far as the components have it. -/
structure ComponentValue where
  datatype : OvalDatatype
  text : List UInt8
deriving DecidableEq

/-- `snprintf` with `%lu` into a buffer. -/
def snprintfLu (size : ℕ) (v : ℕ) : List UInt8 := (formatLu v).take (size - 1)

/-- The value of one pair. -/
def timedifValue (fmt1 fmt2 : OvalDatetimeFormat) (ov1 ov2 : ComponentValue) :
    Option ComponentValue := do
  let v ← parseDifference ov1.text fmt1 ov2.text fmt2
  some ⟨.integer, snprintfLu 16 v.toNat⟩

/-- The two loops: `value_collection` grows by one value for each pair. -/
def timedifLoop (fmt1 fmt2 : OvalDatetimeFormat) (col1 col2 : List ComponentValue)
    (valueCollection : List ComponentValue) : Option (List ComponentValue) :=
  col1.foldlM (fun acc ov1 =>
    col2.foldlM (fun acc ov2 => do
      let ov ← timedifValue fmt1 fmt2 ov1 ov2
      some (acc ++ [ov])) acc) valueCollection

/-- `_oval_component_evaluate_TIMEDIF`. The components are given by what their evaluation
returns and by the values that it collects; there is no result where a null pointer is
followed. -/
def ovalComponentEvaluateTimedif (now : ℕ) (timedifFormat1 timedifFormat2 : OvalDatetimeFormat)
    (subcomps : List (SyscharFlag × List ComponentValue))
    (valueCollection : List ComponentValue) : Option (SyscharFlag × List ComponentValue) :=
  match subcomps with
  | [] => some (.error, valueCollection)
  | [(flag, col)] => do
      let current : ComponentValue := ⟨.integer, snprintfLu 16 now⟩
      let values ← timedifLoop .secondsSinceEpoch timedifFormat2 [current] col valueCollection
      some (flag, values)
  | [(_, col1), (flag, col2)] => do
      let values ← timedifLoop timedifFormat1 timedifFormat2 col1 col2 valueCollection
      some (flag, values)
  | _ :: _ :: _ :: _ => some (.error, valueCollection)

/-! ### The loops -/

/-- **The values are those of the pairs in row-major order.** -/
theorem timedifLoop_eq (fmt1 fmt2 : OvalDatetimeFormat) (col1 col2 acc : List ComponentValue) :
    timedifLoop fmt1 fmt2 col1 col2 acc =
      ((col1 ×ˢ col2).mapM fun p => timedifValue fmt1 fmt2 p.1 p.2).map (acc ++ ·) := by
  induction col1 generalizing acc with
  | nil => simp [timedifLoop]
  | cons ov1 col1 ih =>
      rw [timedifLoop, List.foldlM_cons, foldlM_collect, List.product_cons, List.mapM_append,
        List.mapM_map]
      have hpairs : (fun p : ComponentValue × ComponentValue => timedifValue fmt1 fmt2 p.1 p.2) ∘
          (fun ov2 => (ov1, ov2)) = timedifValue fmt1 fmt2 ov1 := rfl
      rw [hpairs]
      cases hrow : col2.mapM (timedifValue fmt1 fmt2 ov1) with
      | none => rfl
      | some row =>
          have hrest := ih (acc ++ row)
          rw [timedifLoop] at hrest
          rw [Option.map_some, Option.bind_eq_bind, Option.bind_some, hrest]
          cases (col1 ×ˢ col2).mapM fun p => timedifValue fmt1 fmt2 p.1 p.2 with
          | none => rfl
          | some rows =>
              rw [Option.map_some, List.append_assoc]
              rfl

/-! ### Timestamps -/

/-- A well-formed timestamp of one of the five formats. A Windows file time is the hexadecimal
number of intervals of 100 nanoseconds since the year 1601, of 64 bits. -/
inductive OvalTimestamp
  | read (t : Timestamp)
  | winFiletime (ticks : BitVec 64)

/-- Its format. -/
def OvalTimestamp.format : OvalTimestamp → OvalDatetimeFormat
  | .read t => t.format
  | .winFiletime _ => .winFiletime

/-- Its text. -/
def OvalTimestamp.text : OvalTimestamp → List UInt8
  | .read t => t.text
  | .winFiletime ticks => (Nat.toDigits 16 ticks.toNat).map ascii

/-- Its instant, in intervals of 100 nanoseconds since the epoch. -/
def OvalTimestamp.ticks : OvalTimestamp → ℤ
  | .read t => 10 ^ 7 * t.instant
  | .winFiletime ticks => ticks.toNat + 10 ^ 7 * (86400 * yearStart 1601)

/-- Its value, if there is one. -/
def OvalTimestamp.Representable : OvalTimestamp → Prop
  | .read t => t.Representable
  | .winFiletime _ => True

/-- By how much the value is too small. -/
def OvalTimestamp.shift : OvalTimestamp → ℤ
  | .read t => 10 ^ 7 * t.shift
  | .winFiletime ticks => ticks.toNat + 10 ^ 7 * (86400 * yearStart 1601)

/-- The value that a component has for a timestamp. -/
def OvalTimestamp.value (datatype : OvalDatatype) (t : OvalTimestamp) : ComponentValue :=
  ⟨datatype, t.text⟩

/-- The decimal text of an integer. -/
def decimalText (z : ℤ) : List UInt8 :=
  if z < 0 then ascii '-' :: formatLu z.natAbs else formatLu z.natAbs

/-- A value is the exact signed difference of two timestamps in seconds. -/
def IsDifference (t u : OvalTimestamp) (value : ComponentValue) : Prop :=
  value.datatype = .integer ∧
    ∃ d : ℤ, value.text = decimalText d ∧ 10 ^ 7 * d = t.ticks - u.ticks

/-- Both timestamps are read with the same shift, and the difference is neither negative nor of
more than 15 digits. -/
def PairRead (t u : OvalTimestamp) : Prop :=
  t.Representable ∧ u.Representable ∧ t.shift = u.shift ∧
    u.ticks ≤ t.ticks ∧ t.ticks - u.ticks < 10 ^ 7 * 10 ^ 15

/-- The number of seconds that a timestamp is read as. -/
def OvalTimestamp.readAs : OvalTimestamp → ℤ
  | .read t => t.instant - t.shift
  | .winFiletime _ => 0

/-- The value of a timestamp, which is too small by the shift. -/
theorem OvalTimestamp.parseFmt_text (t : OvalTimestamp) (h : t.Representable) :
    parseFmt t.text t.format = some (BitVec.ofInt 64 t.readAs) ∧
      10 ^ 7 * t.readAs = t.ticks - t.shift := by
  cases t with
  | read t =>
      refine ⟨OpenScap.parseFmt_text t h, ?_⟩
      simp only [OvalTimestamp.readAs, OvalTimestamp.ticks, OvalTimestamp.shift]
      ring
  | winFiletime ticks =>
      refine ⟨rfl, ?_⟩
      simp only [OvalTimestamp.readAs, OvalTimestamp.ticks, OvalTimestamp.shift, sub_self, mul_zero]

/-- There is no value otherwise. -/
theorem OvalTimestamp.parseFmt_text_none (t : OvalTimestamp) (h : ¬ t.Representable) :
    parseFmt t.text t.format = none := by
  cases t with
  | read t => exact OpenScap.parseFmt_text_none t h
  | winFiletime ticks => exact absurd trivial h

/-- The values are within the range of `localtime`. -/
theorem OvalTimestamp.readAs_bounds (t : OvalTimestamp) (h : t.Representable) :
    -10 ^ 17 ≤ t.readAs ∧ t.readAs ≤ 10 ^ 17 := by
  cases t with
  | read t =>
      have hshift := t.shift_bounds
      cases t with
      | calendar layout withTime dt =>
          have hinstant := Timestamp.instant_bounds layout withTime dt
          simp only [OvalTimestamp.readAs]
          omega
      | secondsSinceEpoch negative d =>
          have hrange := (inTmRange_iff _).1 h
          simp only [OvalTimestamp.readAs, Timestamp.instant, Timestamp.shift] at hshift ⊢
          omega
  | winFiletime ticks => simp [OvalTimestamp.readAs]

/-- A shift is less than 2 · 10¹² seconds, to either side. -/
theorem OvalTimestamp.shift_bounds (t : OvalTimestamp) :
    -2 * 10 ^ 19 ≤ t.shift ∧ t.shift ≤ 2 * 10 ^ 19 := by
  cases t with
  | read t =>
      have hshift := t.shift_bounds
      simp only [OvalTimestamp.shift]
      omega
  | winFiletime ticks =>
      have hlt := ticks.isLt
      have hstart : yearStart 1601 = -134774 := by decide
      simp only [OvalTimestamp.shift, hstart]
      omega

/-- A text without a sign is that of the number that it writes. -/
theorem formatLu_eq_decimalText {m : ℕ} {d : ℤ} : formatLu m = decimalText d ↔ (m : ℤ) = d := by
  rw [decimalText]
  split
  · rename_i hneg
    constructor
    · intro h
      have hdigit := (formatLu_spec m).1 (ascii '-') (by rw [h]; exact List.mem_cons_self ..)
      exact absurd hdigit (by decide)
    · intro h
      omega
  · rw [formatLu_inj]
    omega

/-- **When a printed difference is the text of an integer.** Where the number is cut off, or
negative and printed as an unsigned one, the text is that of an integer far away from it. -/
theorem snprintfLu_eq_decimalText {r d : ℤ} (hr : |r| < 2 ^ 62) (hd : |r - d| < 10 ^ 14) :
    snprintfLu 16 (BitVec.ofInt 64 r).toNat = decimalText d ↔ r = d ∧ 0 ≤ r ∧ r < 10 ^ 15 := by
  rw [abs_lt] at hr hd
  rw [snprintfLu, BitVec.toNat_ofInt]
  by_cases hshort : (r % (2 ^ 64 : ℕ)).toNat < 10 ^ 15
  · -- the whole number is printed
    have hlen := (length_formatLu_le (k := 15) (by omega)).2 hshort
    rw [List.take_of_length_le hlen, formatLu_eq_decimalText]
    omega
  · obtain ⟨m, htake, hle, hm⟩ := take_formatLu (k := 13) (not_lt.1 hshort)
    rw [htake, formatLu_eq_decimalText]
    omega

/-- **When the value of a pair is the exact signed difference.** -/
theorem timedifValue_iff (datatype1 datatype2 : OvalDatatype) (t u : OvalTimestamp) :
    (∃ value, timedifValue t.format u.format (t.value datatype1) (u.value datatype2) =
        some value ∧ IsDifference t u value) ↔ PairRead t u := by
  by_cases h : t.Representable ∧ u.Representable
  · obtain ⟨ht, htshift⟩ := t.parseFmt_text h.1
    obtain ⟨hu, hushift⟩ := u.parseFmt_text h.2
    have hvalue : timedifValue t.format u.format (t.value datatype1) (u.value datatype2) =
        some ⟨.integer, snprintfLu 16 (BitVec.ofInt 64 (t.readAs - u.readAs)).toNat⟩ := by
      simp only [timedifValue, OvalTimestamp.value, parseDifference, ht, hu,
        ← ulong_ofInt_sub t.readAs u.readAs]
      rfl
    have hread := t.readAs_bounds h.1
    have hread' := u.readAs_bounds h.2
    have hshift := t.shift_bounds
    have hshift' := u.shift_bounds
    have htext : ∀ d : ℤ, 10 ^ 7 * d = t.ticks - u.ticks →
        (snprintfLu 16 (BitVec.ofInt 64 (t.readAs - u.readAs)).toNat = decimalText d ↔
          t.readAs - u.readAs = d ∧ 0 ≤ t.readAs - u.readAs ∧
            t.readAs - u.readAs < 10 ^ 15) := by
      intro d hd
      exact snprintfLu_eq_decimalText (by rw [abs_lt]; omega) (by rw [abs_lt]; omega)
    constructor
    · rintro ⟨value, hsome, -, d, hd, hticks⟩
      rw [hvalue, Option.some_inj] at hsome
      rw [← hsome, htext d hticks] at hd
      exact ⟨h.1, h.2, by omega⟩
    · rintro ⟨-, -, hequal, hle, hlt⟩
      have hticks : 10 ^ 7 * (t.readAs - u.readAs) = t.ticks - u.ticks := by omega
      refine ⟨_, hvalue, rfl, t.readAs - u.readAs, ?_, hticks⟩
      rw [htext _ hticks]
      exact ⟨rfl, by omega⟩
  · have hnone : timedifValue t.format u.format (t.value datatype1) (u.value datatype2) =
        none := by
      simp only [timedifValue, OvalTimestamp.value, parseDifference]
      by_cases ht : t.Representable
      · rw [(t.parseFmt_text ht).1, u.parseFmt_text_none fun hu => h ⟨ht, hu⟩]
        rfl
      · rw [t.parseFmt_text_none ht]
        rfl
    rw [hnone]
    constructor
    · rintro ⟨value, hsome, -⟩
      exact absurd hsome.symm (Option.some_ne_none _)
    · rintro ⟨ht, hu, -⟩
      exact absurd ⟨ht, hu⟩ h

/-! ### All pairs -/

/-- A value of a component, whose format is given. -/
structure TimestampValue (fmt : OvalDatetimeFormat) where
  datatype : OvalDatatype
  timestamp : OvalTimestamp
  /-- The timestamp is written in the format of the component. -/
  format_eq : timestamp.format = fmt

/-- The value. -/
def TimestampValue.value {fmt : OvalDatetimeFormat} (v : TimestampValue fmt) : ComponentValue :=
  v.timestamp.value v.datatype

/-- The pairs of two lists of images. -/
theorem map_product_map {α β γ δ : Type*} (f : α → γ) (g : β → δ) (xs : List α) (ys : List β) :
    xs.map f ×ˢ ys.map g = (xs ×ˢ ys).map (Prod.map f g) := by
  induction xs with
  | nil => rfl
  | cons x xs ih =>
      rw [List.map_cons, List.product_cons, List.product_cons, List.map_append, List.map_map,
        List.map_map, ih]
      rfl

/-- **All values are the exact signed differences, in row-major order, exactly when every pair
is read so.** -/
theorem timedif_correct_iff (now : ℕ) (fmt1 fmt2 : OvalDatetimeFormat)
    (flag1 flag2 : SyscharFlag) (col1 : List (TimestampValue fmt1))
    (col2 : List (TimestampValue fmt2)) :
    (∃ values, ovalComponentEvaluateTimedif now fmt1 fmt2
          [(flag1, col1.map TimestampValue.value), (flag2, col2.map TimestampValue.value)] [] =
        some (flag2, values) ∧
      List.Forall₂ (fun p value => IsDifference p.1.timestamp p.2.timestamp value)
        (col1 ×ˢ col2) values) ↔
      ∀ t ∈ col1, ∀ u ∈ col2, PairRead t.timestamp u.timestamp := by
  have hvalue : ∀ values, ovalComponentEvaluateTimedif now fmt1 fmt2
      [(flag1, col1.map TimestampValue.value), (flag2, col2.map TimestampValue.value)] [] =
        some (flag2, values) ↔
      (col1 ×ˢ col2).mapM (fun p => timedifValue fmt1 fmt2 p.1.value p.2.value) =
        some values := by
    intro values
    have hmap : (col1.map TimestampValue.value ×ˢ col2.map TimestampValue.value).mapM
        (fun p => timedifValue fmt1 fmt2 p.1 p.2) =
        (col1 ×ˢ col2).mapM fun p => timedifValue fmt1 fmt2 p.1.value p.2.value := by
      rw [map_product_map, List.mapM_map]
      rfl
    simp only [ovalComponentEvaluateTimedif, timedifLoop_eq, hmap]
    cases (col1 ×ˢ col2).mapM fun p => timedifValue fmt1 fmt2 p.1.value p.2.value with
    | none => simp
    | some ys => simp
  simp only [hvalue]
  rw [mapM_forall₂_iff]
  constructor
  · intro h t ht u hu
    have hpair := h (t, u) (List.mem_product.2 ⟨ht, hu⟩)
    obtain ⟨datatype1, t, rfl⟩ := t
    obtain ⟨datatype2, u, rfl⟩ := u
    exact (timedifValue_iff datatype1 datatype2 t u).1 hpair
  · rintro h ⟨t, u⟩ hp
    obtain ⟨ht, hu⟩ := List.mem_product.1 hp
    have hpair := h t ht u hu
    obtain ⟨datatype1, t, rfl⟩ := t
    obtain ⟨datatype2, u, rfl⟩ := u
    exact (timedifValue_iff datatype1 datatype2 t u).2 hpair

/-- A number of seconds of one digit. -/
def TimestampValue.digit (c : UInt8) (h : isdigit c = true) :
    TimestampValue .secondsSinceEpoch :=
  ⟨.integer, .read (.secondsSinceEpoch false
    ⟨[c], singleton_ne_nil c, isdigit_of_mem_singleton h⟩), rfl⟩

/-- The second 0 less the second 1 is the text `184467440737095`. -/
theorem not_timedif_correct :
    ¬ ∀ (now : ℕ) (fmt1 fmt2 : OvalDatetimeFormat) (flag1 flag2 : SyscharFlag)
      (col1 : List (TimestampValue fmt1)) (col2 : List (TimestampValue fmt2)),
      ∃ values, ovalComponentEvaluateTimedif now fmt1 fmt2
          [(flag1, col1.map TimestampValue.value), (flag2, col2.map TimestampValue.value)] [] =
        some (flag2, values) ∧
      List.Forall₂ (fun p value => IsDifference p.1.timestamp p.2.timestamp value)
        (col1 ×ˢ col2) values := by
  intro h
  obtain ⟨values, hvalues, hdifferences⟩ := h 0 .secondsSinceEpoch .secondsSinceEpoch .complete
    .complete [.digit (ascii '0') (by decide)] [.digit (ascii '1') (by decide)]
  have heval : ovalComponentEvaluateTimedif 0 .secondsSinceEpoch .secondsSinceEpoch
      [(.complete, [TimestampValue.value (.digit (ascii '0') (by decide))]),
        (.complete, [TimestampValue.value (.digit (ascii '1') (by decide))])] [] =
      some (.complete, [⟨.integer, bytes ['1', '8', '4', '4', '6', '7', '4', '4', '0', '7', '3',
        '7', '0', '9', '5']⟩]) := by decide +kernel
  obtain rfl : [_] = values := congrArg Prod.snd (Option.some.inj (heval.symm.trans hvalues))
  obtain ⟨⟨-, d, htext, hticks⟩, -⟩ := List.forall₂_cons.1 hdifferences
  obtain rfl : d = -1 := by
    have hone : (10 : ℤ) ^ 7 * d = -10 ^ 7 := hticks
    omega
  revert htext
  decide +kernel

end OpenScap
