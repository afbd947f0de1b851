import OpenScap.CString
import OpenScap.KeyedOrder
import OpenScap.OvalTest

/-!
# Comparing RPM versions

`oval_evr_string_cmp` compares two strings of the form `epoch:version-release` part by part
with `rpmvercmp`, of which the library carries its own for builds without `librpm`. It cuts
both strings into runs of digits and runs of letters and compares run by run.

The runs of a string, with a mark for how it ends, are a key (`evrKey`), and `rpmvercmp` is
the lexicographic comparison of the keys. So it inherits the laws of comparisons.

## Main results

* `rpmvercmp_eq_compare` — `rpmvercmp` compares keys;
* `rpmvercmp_totalPreorder`, `rpmevrcmp_totalPreorder` — the laws;
* `evr_operations_consistent` — the laws, and what they mean for the OVAL operations.
-/

open KeyedOrder Std

namespace OpenScap

/-! ### The comparison -/

/-- What is at the end of the loop of `rpmvercmp`. -/
def rpmvercmpEnd (one two : List UInt8) : Int :=
  if one = [] ∧ two = [] then 0
  else if one = [] then -1
  else 1

/-- `while (*one == '0') one++`. -/
def dropZeros (digits : List UInt8) : List UInt8 := digits.dropWhile (· == ascii '0')

/-- `while (*one && !isalnum(*one)) one++`. -/
def skipSeparators (s : List UInt8) : List UInt8 := s.dropWhile fun c => !isalnum c

/-- The first segment is completely numeric. -/
def startsNumeric (s : List UInt8) : Bool := s.head?.any isdigit

/-- The characters of a segment. -/
def inSegment (isnum : Bool) : UInt8 → Bool := if isnum then isdigit else isalpha

/-- What of a segment is compared. -/
def significant (isnum : Bool) (segment : List UInt8) : List UInt8 :=
  if isnum then dropZeros segment else segment

/-- The loop of `rpmvercmp`. -/
def rpmvercmpLoop (one two : List UInt8) : Int :=
  if one = [] ∨ two = [] then rpmvercmpEnd one two
  else
    let str1 := skipSeparators one
    let str2 := skipSeparators two
    if str1 = [] ∨ str2 = [] then rpmvercmpEnd str1 str2
    else
      let isnum := startsNumeric str1
      let seg1 := str1.takeWhile (inSegment isnum)
      let seg2 := str2.takeWhile (inSegment isnum)
      if hseg : seg1 = [] then -1
      else if seg2 = [] then (if isnum then 1 else -1)
      else
        let num1 := significant isnum seg1
        let num2 := significant isnum seg2
        if isnum ∧ num2.length < num1.length then 1
        else if isnum ∧ num1.length < num2.length then -1
        else
          let rc := strcmp num1 num2
          if rc ≠ 0 then (if rc < 1 then -1 else 1)
          else rpmvercmpLoop (str1.dropWhile (inSegment isnum)) (str2.dropWhile (inSegment isnum))
termination_by one.length
decreasing_by
  have hlen := congrArg List.length (@List.takeWhile_append_dropWhile _
    (inSegment (startsNumeric (skipSeparators one))) (skipSeparators one))
  have hpos : 0 < (List.takeWhile (inSegment (startsNumeric (skipSeparators one)))
      (skipSeparators one)).length := List.length_pos_iff.mpr hseg
  have hle : (skipSeparators one).length ≤ one.length := (List.dropWhile_sublist _).length_le
  rw [List.length_append] at hlen
  omega

/-- `rpmvercmp`. -/
def rpmvercmp (a b : List UInt8) : Int :=
  if strcmp a b = 0 then 0 else rpmvercmpLoop a b

/-- `compare_values`. -/
def compareValues (str1 str2 : Option (List UInt8)) : Int :=
  match str1, str2 with
  | none, none => 0
  | some _, none => 1
  | none, some _ => -1
  | some str1, some str2 => rpmvercmp str1 str2

/-- The parts of a version string. -/
structure Evr where
  epoch : Option (List UInt8)
  version : List UInt8
  release : Option (List UInt8)
  deriving DecidableEq, Repr

/-- `parseEVR`. -/
def parseEVR (evr : List UInt8) : Evr :=
  let digits := evr.takeWhile isdigit
  let s := evr.dropWhile isdigit
  match s with
  | c :: rest =>
      if c = ascii ':' then
        let epoch := if digits = [] then [ascii '0'] else digits
        match strrchr (ascii '-') rest with
        | some (version, release) => ⟨some epoch, version, some release⟩
        | none => ⟨some epoch, rest, none⟩
      else
        match strrchr (ascii '-') s with
        | some (before, release) => ⟨none, digits ++ before, some release⟩
        | none => ⟨none, evr, none⟩
  | [] => ⟨none, evr, none⟩

/-- `rpmevrcmp`. -/
def rpmevrcmp (a b : List UInt8) : Int :=
  let a := parseEVR a
  let b := parseEVR b
  let result := compareValues a.epoch b.epoch
  if result ≠ 0 then result
  else
    let result := compareValues (some a.version) (some b.version)
    if result ≠ 0 then result
    else compareValues a.release b.release

/-- `oval_evr_string_cmp`. -/
def ovalEvrStringCmp (state sys : List UInt8) (operation : OvalOperation) : OvalResult :=
  let result := rpmevrcmp sys state
  match operation with
  | .equals => if result = 0 then .true else .false
  | .notEqual => if result ≠ 0 then .true else .false
  | .greaterThan => if result = 1 then .true else .false
  | .greaterThanOrEqual => if result ≠ -1 then .true else .false
  | .lessThan => if result = -1 then .true else .false
  | .lessThanOrEqual => if result ≠ 1 then .true else .false
  | _ => .error

/-! ### Keys -/

/-- A run of a string: its rank, the length that counts, and its text. The ranks are 0 for the
end of the string, 1 for an end after separators, 2 for letters and 3 for digits. -/
abbrev EvrRun := Nat × Nat × List UInt8

/-- Runs are compared by rank, then by length, then by text. -/
def evrRunCmp : EvrRun → EvrRun → Ordering :=
  compareLex (compareOn fun r => r.1)
    (compareLex (compareOn fun r => r.2.1) (compareOn fun r => r.2.2))

instance : TransCmp evrRunCmp :=
  inferInstanceAs (TransCmp (compareLex _ (compareLex _ _)))

/-- The run of a segment. -/
def segmentRun (isnum : Bool) (segment : List UInt8) : EvrRun :=
  if isnum then (3, (dropZeros segment).length, dropZeros segment) else (2, 0, segment)

/-- The runs of a string. -/
def evrKey (s : List UInt8) : List EvrRun :=
  if s = [] then [(0, 0, [])]
  else
    let str := skipSeparators s
    if str = [] then [(1, 0, [])]
    else
      let isnum := startsNumeric str
      let seg := str.takeWhile (inSegment isnum)
      if _hseg : seg = [] then []
      else segmentRun isnum seg :: evrKey (str.dropWhile (inSegment isnum))
termination_by s.length
decreasing_by
  have hlen := congrArg List.length (@List.takeWhile_append_dropWhile _
    (inSegment (startsNumeric (skipSeparators s))) (skipSeparators s))
  have hpos : 0 < (List.takeWhile (inSegment (startsNumeric (skipSeparators s)))
      (skipSeparators s)).length := List.length_pos_iff.mpr _hseg
  have hle : (skipSeparators s).length ≤ s.length := (List.dropWhile_sublist _).length_le
  rw [List.length_append] at hlen
  omega

/-- `strcmp` compares byte by byte. -/
theorem strcmp_eq_compare (a b : List UInt8) : strcmp a b = sign (compare a b) := by
  induction a generalizing b with
  | nil => cases b <;> rfl
  | cons x xs ih =>
      cases b with
      | nil => rfl
      | cons y ys =>
          rw [strcmp, List.compare_cons_cons, ih]
          split_ifs with hlt hgt
          · rw [Std.compare_eq_lt.mpr hlt]
            rfl
          · rw [Std.compare_eq_gt.mpr hgt]
            rfl
          · rw [Std.compare_eq_iff_eq.mpr (UInt8.le_antisymm (UInt8.not_lt.mp hgt)
              (UInt8.not_lt.mp hlt))]
            rfl

/-- What is left after the separators starts with a letter or a digit. -/
theorem skipSeparators_cons {s : List UInt8} {c : UInt8} {cs : List UInt8}
    (h : skipSeparators s = c :: cs) : isalpha c = true ∨ isdigit c = true := by
  have hhead := List.head?_dropWhile_not (fun c => !isalnum c) s
  unfold skipSeparators at h
  rw [h] at hhead
  simp only [List.head?_cons, isalnum, Bool.not_eq_false', Bool.or_eq_true] at hhead
  exact hhead

/-- Nothing is both a letter and a digit. -/
theorem isalpha_eq_false {c : UInt8} (h : isdigit c = true) : isalpha c = false := by
  simp only [isdigit, isalpha, ascii, Bool.and_eq_true, decide_eq_true_eq, Bool.or_eq_false_iff,
    Bool.and_eq_false_iff, decide_eq_false_iff_not, UInt8.le_iff_toNat_le] at h ⊢
  have h0 : ('0' : Char).toUInt8.toNat = 48 := rfl
  have h9 : ('9' : Char).toUInt8.toNat = 57 := rfl
  have ha : ('a' : Char).toUInt8.toNat = 97 := rfl
  have hA : ('A' : Char).toUInt8.toNat = 65 := rfl
  omega

/-- The first segment of a string without separators in front is of the kind asked for
exactly when it is not empty. -/
theorem takeWhile_inSegment_eq_nil_iff {s : List UInt8} (h : skipSeparators s ≠ [])
    (isnum : Bool) :
    (skipSeparators s).takeWhile (inSegment isnum) = [] ↔
      startsNumeric (skipSeparators s) ≠ isnum := by
  cases hs : skipSeparators s with
  | nil => exact absurd hs h
  | cons c cs =>
      have hc := skipSeparators_cons hs
      cases isnum with
      | false =>
          by_cases hd : isdigit c = true
          · simp [startsNumeric, inSegment, hd, isalpha_eq_false hd]
          · simp [startsNumeric, inSegment, hd, hc.resolve_right hd]
      | true => by_cases hd : isdigit c = true <;> simp [startsNumeric, inSegment, hd]

/-- The key of a string with a segment. -/
theorem evrKey_of_segment {s : List UInt8} (h : skipSeparators s ≠ []) :
    evrKey s = segmentRun (startsNumeric (skipSeparators s))
        ((skipSeparators s).takeWhile (inSegment (startsNumeric (skipSeparators s)))) ::
      evrKey ((skipSeparators s).dropWhile (inSegment (startsNumeric (skipSeparators s)))) := by
  have hs : s ≠ [] := by
    rintro rfl
    exact h rfl
  have hseg := (takeWhile_inSegment_eq_nil_iff h (startsNumeric (skipSeparators s))).not.mpr
    (not_not.mpr rfl)
  rw [evrKey, if_neg hs]
  simp only
  rw [if_neg h, dif_neg hseg]

/-- The rank of the first run of a string. -/
theorem evrKey_rank (s : List UInt8) :
    ∃ r rs, evrKey s = r :: rs ∧ (s = [] → r.1 = 0) ∧
      (s ≠ [] → skipSeparators s = [] → r.1 = 1) ∧ (skipSeparators s ≠ [] → 2 ≤ r.1) := by
  by_cases hs : s = []
  · subst hs
    exact ⟨(0, 0, []), [], by rw [evrKey, if_pos rfl], fun _ => rfl, fun h => absurd rfl h,
      fun h => absurd rfl h⟩
  by_cases hstr : skipSeparators s = []
  · refine ⟨(1, 0, []), [], ?_, fun h => absurd h hs, fun _ _ => rfl, fun h => absurd hstr h⟩
    rw [evrKey, if_neg hs]
    simp only
    rw [if_pos hstr]
  · refine ⟨_, _, evrKey_of_segment hstr, fun h => absurd h hs, fun _ h => absurd h hstr,
      fun _ => ?_⟩
    unfold segmentRun
    split <;> simp

/-- Runs of different rank are told apart by it. -/
theorem evrKeyCmp_of_rank_lt {r r' : EvrRun} {rs rs' : List EvrRun} (h : r.1 < r'.1) :
    List.compareLex evrRunCmp (r :: rs) (r' :: rs') = .lt := by
  have hcmp : evrRunCmp r r' = .lt := by
    simp only [evrRunCmp, compareLex, compareOn]
    rw [Nat.compare_eq_lt.mpr h]
    rfl
  rw [List.compareLex_cons_cons, hcmp]
  rfl

theorem evrKeyCmp_of_rank_gt {r r' : EvrRun} {rs rs' : List EvrRun} (h : r'.1 < r.1) :
    List.compareLex evrRunCmp (r :: rs) (r' :: rs') = .gt := by
  rw [OrientedCmp.gt_iff_lt]
  exact evrKeyCmp_of_rank_lt h

/-- Segments of one kind are compared by length if they are numeric, then by text. -/
theorem sign_segmentRun (isnum : Bool) (seg1 seg2 : List UInt8) (rest : Ordering) :
    sign ((evrRunCmp (segmentRun isnum seg1) (segmentRun isnum seg2)).then rest) =
      (let num1 := significant isnum seg1
       let num2 := significant isnum seg2
       if isnum ∧ num2.length < num1.length then 1
       else if isnum ∧ num1.length < num2.length then -1
       else
         let rc := strcmp num1 num2
         if rc ≠ 0 then (if rc < 1 then -1 else 1) else sign rest) := by
  have text : ∀ o : Ordering, sign (o.then rest) =
      if sign o ≠ 0 then (if sign o < 1 then -1 else 1) else sign rest := by
    intro o
    cases o <;> simp
  cases isnum with
  | false =>
      simp only [segmentRun, significant, evrRunCmp, compareLex, compareOn, Bool.false_eq_true,
        false_and, if_false, strcmp_eq_compare, text]
      rfl
  | true =>
      simp only [segmentRun, significant, evrRunCmp, compareLex, compareOn, if_true, true_and,
        strcmp_eq_compare, ReflOrd.compare_self]
      rcases Nat.lt_trichotomy (dropZeros seg1).length (dropZeros seg2).length with h | h | h
      · rw [if_neg (by omega), if_pos h, Nat.compare_eq_lt.mpr h]
        rfl
      · rw [if_neg (by omega), if_neg (by omega), Nat.compare_eq_eq.mpr h]
        exact text _
      · rw [if_pos h, Nat.compare_eq_gt.mpr h]
        rfl

/-- The loop of `rpmvercmp` compares keys: by induction on the length, each round compares
the first runs. -/
theorem rpmvercmpLoop_eq_compare (one two : List UInt8) :
    rpmvercmpLoop one two = sign (List.compareLex evrRunCmp (evrKey one) (evrKey two)) := by
  induction hn : one.length using Nat.strongRecOn generalizing one two with
  | ind n ih =>
      obtain ⟨r, rs, hr, hr0, hr1, hr2⟩ := evrKey_rank one
      obtain ⟨t, ts, ht, ht0, ht1, ht2⟩ := evrKey_rank two
      have rank_pos : ∀ {s : List UInt8} {q : EvrRun}, s ≠ [] →
          (s ≠ [] → skipSeparators s = [] → q.1 = 1) → (skipSeparators s ≠ [] → 2 ≤ q.1) →
          0 < q.1 := by
        intro s q hs h1 h2
        by_cases hstr : skipSeparators s = []
        · exact h1 hs hstr ▸ Nat.one_pos
        · have := h2 hstr
          omega
      rw [rpmvercmpLoop]
      by_cases hone : one = []
      · rw [if_pos (.inl hone)]
        by_cases htwo : two = []
        · subst hone htwo
          simp [rpmvercmpEnd, ReflCmp.compare_self]
        · have h0 := hr0 hone
          have hpos := rank_pos htwo ht1 ht2
          rw [hr, ht, evrKeyCmp_of_rank_lt (by omega)]
          simp [rpmvercmpEnd, hone, htwo]
      by_cases htwo : two = []
      · have h0 := ht0 htwo
        have hpos := rank_pos hone hr1 hr2
        rw [if_pos (.inr htwo), hr, ht, evrKeyCmp_of_rank_gt (by omega)]
        simp [rpmvercmpEnd, hone]
      rw [if_neg (by simp [hone, htwo])]
      simp only
      by_cases hstr1 : skipSeparators one = []
      · rw [if_pos (.inl hstr1)]
        have h1 := hr1 hone hstr1
        by_cases hstr2 : skipSeparators two = []
        · have hkey : evrKey one = evrKey two := by
            rw [evrKey, if_neg hone, evrKey, if_neg htwo]
            simp only
            rw [if_pos hstr1, if_pos hstr2]
          simp [rpmvercmpEnd, hstr1, hstr2, hkey, ReflCmp.compare_self]
        · have h2 := ht2 hstr2
          rw [hr, ht, evrKeyCmp_of_rank_lt (by omega)]
          simp [rpmvercmpEnd, hstr1, hstr2]
      by_cases hstr2 : skipSeparators two = []
      · have h1 := ht1 htwo hstr2
        have h2 := hr2 hstr1
        rw [if_pos (.inr hstr2), hr, ht, evrKeyCmp_of_rank_gt (by omega)]
        simp [rpmvercmpEnd, hstr1]
      rw [if_neg (by simp [hstr1, hstr2])]
      have hseg1 := (takeWhile_inSegment_eq_nil_iff hstr1
        (startsNumeric (skipSeparators one))).not.mpr (not_not.mpr rfl)
      have hseg2 := takeWhile_inSegment_eq_nil_iff hstr2 (startsNumeric (skipSeparators one))
      rw [dif_neg hseg1]
      by_cases hkind : startsNumeric (skipSeparators two) = startsNumeric (skipSeparators one)
      · rw [if_neg (hseg2.not.mpr (not_not.mpr hkind)), evrKey_of_segment hstr1,
          evrKey_of_segment hstr2, hkind, List.compareLex_cons_cons, sign_segmentRun]
        have hlen := congrArg List.length (@List.takeWhile_append_dropWhile _
          (inSegment (startsNumeric (skipSeparators one))) (skipSeparators one))
        have hpos := List.length_pos_iff.mpr hseg1
        have hle : (skipSeparators one).length ≤ one.length :=
          (List.dropWhile_sublist _).length_le
        rw [List.length_append] at hlen
        simp only
        rw [ih _ (by omega) _ _ rfl]
      · rw [if_pos (hseg2.mpr hkind), evrKey_of_segment hstr1, evrKey_of_segment hstr2]
        cases hk1 : startsNumeric (skipSeparators one) with
        | true =>
            have hk2 : startsNumeric (skipSeparators two) = false := by
              rw [hk1] at hkind
              exact Bool.eq_false_iff.mpr hkind
            rw [hk2, evrKeyCmp_of_rank_gt (by simp [segmentRun])]
            rfl
        | false =>
            have hk2 : startsNumeric (skipSeparators two) = true := by
              rw [hk1] at hkind
              exact Bool.not_eq_false _ ▸ hkind
            rw [hk2, evrKeyCmp_of_rank_lt (by simp [segmentRun])]
            rfl

/-- **`rpmvercmp` compares keys.** -/
theorem rpmvercmp_eq_compare (a b : List UInt8) :
    rpmvercmp a b = sign (List.compareLex evrRunCmp (evrKey a) (evrKey b)) := by
  unfold rpmvercmp
  split_ifs with h
  · rw [strcmp_eq_compare, sign_eq_zero_iff, Std.compare_eq_iff_eq] at h
    have heq : List.compareLex evrRunCmp (evrKey b) (evrKey b) = .eq := ReflCmp.compare_self
    rw [h, heq]
    rfl
  · exact rpmvercmpLoop_eq_compare a b

/-- `rpmvercmp` is a total preorder. -/
theorem rpmvercmp_totalPreorder : IsTotalPreorder rpmvercmp :=
  IsTotalPreorder.of_key rpmvercmp_eq_compare

/-! ### Epoch, version and release -/

/-- Parts are compared by their keys; a missing part comes first. -/
def evrPartCmp : Option (List UInt8) → Option (List UInt8) → Ordering
  | none, none => .eq
  | none, some _ => .lt
  | some _, none => .gt
  | some a, some b => List.compareLex evrRunCmp (evrKey a) (evrKey b)

instance : OrientedCmp evrPartCmp where
  eq_swap {a b} := by
    cases a with
    | none => cases b <;> rfl
    | some a =>
        cases b with
        | none => rfl
        | some b =>
            change List.compareLex evrRunCmp (evrKey a) (evrKey b) =
              (List.compareLex evrRunCmp (evrKey b) (evrKey a)).swap
            exact OrientedCmp.eq_swap

instance : TransCmp evrPartCmp where
  isLE_trans {a b c} hab hbc := by
    cases a with
    | none => cases c <;> rfl
    | some a =>
        cases b with
        | none => cases hab
        | some b =>
            cases c with
            | none => cases hbc
            | some c =>
                change (List.compareLex evrRunCmp (evrKey a) (evrKey b)).isLE = true at hab
                change (List.compareLex evrRunCmp (evrKey b) (evrKey c)).isLE = true at hbc
                change (List.compareLex evrRunCmp (evrKey a) (evrKey c)).isLE = true
                exact TransCmp.isLE_trans hab hbc

theorem compareValues_eq_compare (a b : Option (List UInt8)) :
    compareValues a b = sign (evrPartCmp a b) := by
  cases a with
  | none => cases b <;> rfl
  | some a =>
      cases b with
      | none => rfl
      | some b => exact rpmvercmp_eq_compare a b

/-- Version strings are compared by epoch, then by version, then by release. -/
def evrCmp : Evr → Evr → Ordering :=
  compareLex (fun a b => evrPartCmp a.epoch b.epoch)
    (compareLex (fun a b => evrPartCmp (some a.version) (some b.version))
      fun a b => evrPartCmp a.release b.release)

/-- A lawful comparison of images is lawful. -/
theorem transCmp_comap {α β : Type} (f : α → β) (cmp : β → β → Ordering) [TransCmp cmp] :
    TransCmp fun a b => cmp (f a) (f b) where
  eq_swap {a b} := @OrientedCmp.eq_swap _ cmp _ (f a) (f b)
  isLE_trans {a b c} hab hbc := @TransCmp.isLE_trans _ cmp _ (f a) (f b) (f c) hab hbc

instance : TransCmp evrCmp :=
  have := transCmp_comap Evr.epoch evrPartCmp
  have := transCmp_comap (fun e : Evr => some e.version) evrPartCmp
  have := transCmp_comap Evr.release evrPartCmp
  inferInstanceAs (TransCmp (compareLex _ (compareLex _ _)))

/-- `rpmevrcmp` compares the parts in turn. -/
theorem rpmevrcmp_eq_compare (a b : List UInt8) :
    rpmevrcmp a b = sign (evrCmp (parseEVR a) (parseEVR b)) := by
  simp only [rpmevrcmp, evrCmp, compareLex, compareValues_eq_compare]
  split_ifs with hepoch hversion
  · rw [sign_then_of_ne hepoch]
  · rw [sign_then_of_eq (not_not.mp hepoch), sign_then_of_ne hversion]
  · rw [sign_then_of_eq (not_not.mp hepoch), sign_then_of_eq (not_not.mp hversion)]

/-- `rpmevrcmp` is a total preorder, whichever parts the strings have. -/
theorem rpmevrcmp_totalPreorder : IsTotalPreorder rpmevrcmp :=
  IsTotalPreorder.of_key rpmevrcmp_eq_compare

/-- **The version comparisons are total preorders, and the OVAL operations say so.** Exactly
one of less-than, equals and greater-than is TRUE, the other operations are made of these,
and less-than and greater-than are converse. -/
theorem evr_operations_consistent :
    IsTotalPreorder rpmvercmp ∧ IsTotalPreorder rpmevrcmp ∧
    ∀ state sys : List UInt8,
      (∃! op, op ∈ [OvalOperation.lessThan, .equals, .greaterThan] ∧
        ovalEvrStringCmp state sys op = .true) ∧
      (∀ op ∈ [OvalOperation.equals, .notEqual, .lessThan, .lessThanOrEqual, .greaterThan,
        .greaterThanOrEqual], ovalEvrStringCmp state sys op = .true ∨
          ovalEvrStringCmp state sys op = .false) ∧
      (ovalEvrStringCmp state sys .notEqual = .true ↔
        ¬ ovalEvrStringCmp state sys .equals = .true) ∧
      (ovalEvrStringCmp state sys .lessThanOrEqual = .true ↔
        ovalEvrStringCmp state sys .lessThan = .true ∨
          ovalEvrStringCmp state sys .equals = .true) ∧
      (ovalEvrStringCmp state sys .greaterThanOrEqual = .true ↔
        ovalEvrStringCmp state sys .greaterThan = .true ∨
          ovalEvrStringCmp state sys .equals = .true) ∧
      (ovalEvrStringCmp state sys .lessThan = .true ↔
        ovalEvrStringCmp sys state .greaterThan = .true) ∧
      (ovalEvrStringCmp state sys .equals = .true ↔
        ovalEvrStringCmp sys state .equals = .true) := by
  refine ⟨rpmvercmp_totalPreorder, rpmevrcmp_totalPreorder, fun state sys => ?_⟩
  have hswap := rpmevrcmp_totalPreorder.swap sys state
  simp only [ovalEvrStringCmp, hswap]
  rcases rpmevrcmp_totalPreorder.values sys state with h | h | h
  · rw [h]
    refine ⟨⟨.lessThan, by decide, ?_⟩, by decide, by decide, by decide, by decide, by decide,
      by decide⟩
    rintro op ⟨hop, hop'⟩
    simp only [List.mem_cons, List.not_mem_nil, or_false] at hop
    rcases hop with rfl | rfl | rfl
    · rfl
    · exact absurd hop' (by decide)
    · exact absurd hop' (by decide)
  · rw [h]
    refine ⟨⟨.equals, by decide, ?_⟩, by decide, by decide, by decide, by decide, by decide,
      by decide⟩
    rintro op ⟨hop, hop'⟩
    simp only [List.mem_cons, List.not_mem_nil, or_false] at hop
    rcases hop with rfl | rfl | rfl
    · exact absurd hop' (by decide)
    · rfl
    · exact absurd hop' (by decide)
  · rw [h]
    refine ⟨⟨.greaterThan, by decide, ?_⟩, by decide, by decide, by decide, by decide,
      by decide, by decide⟩
    rintro op ⟨hop, hop'⟩
    simp only [List.mem_cons, List.not_mem_nil, or_false] at hop
    rcases hop with rfl | rfl | rfl
    · exact absurd hop' (by decide)
    · exact absurd hop' (by decide)
    · rfl

end OpenScap
