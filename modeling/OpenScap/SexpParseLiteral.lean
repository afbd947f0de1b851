import OpenScap.SexpParse

/-!
# Printed integers in the buffers of the parser

What `SEXP_parse` does at an integer behind `#d`: where more octets follow, where the buffer ends
inside of it, and when more have arrived. An integer that was printed is stored by another type
than before.

## Main results

* `SexpNumber.integer_reread` — what is stored for a printed number is the same integer;
* `step_literal` — a literal is counted, and what follows it decides;
* `step_literal_part` — in the middle of a literal the parser waits, and goes on as if all of it
  had been there.
-/

namespace OpenScap

open ChunkedReader

/-! ### Numbers -/

/-- What is stored for an integer that was printed. -/
def printedNumber (n : ℤ) : SexpNumber :=
  if n < 0 then narrowInt (Int64.ofInt n) else narrowUint (UInt64.ofNat n.toNat)

/-- What is stored for a number that was printed. -/
def SexpNumber.reread (number : SexpNumber) : SexpNumber :=
  match number, number.integer with
  | .bool n, _ => .bool n
  | _, some n => printedNumber n
  | _, none => number

/-- The text of a literal in front of its end. -/
theorem stage3_literal (strtoDouble : List UInt8 → UInt64 × Option Errno) {eofok : Bool}
    {rest : List UInt8} {literal : DecimalLiteral} (h : NumberEnds eofok rest) :
    stage3 strtoDouble literal.sign.cls literal.text.length (literal.text ++ rest) =
      convertNumber strtoDouble literal.sign.cls literal.text rest := by
  obtain ⟨digits, hscan, hdigits, hlength⟩ := scanNumber_literal eofok literal rest
  have hparse : parseNumber strtoDouble eofok (literal.text ++ rest) = _ := parseNumber_of_ends h
  rw [parseNumber, hscan, contInt_of_ends hdigits h, Nat.add_comm, hlength] at hparse
  exact hparse

/-- An integer that is printed is stored. -/
theorem convertNumber_printedLiteral (strtoDouble : List UInt8 → UInt64 × Option Errno) {n : ℤ}
    (hmin : -2 ^ 63 ≤ n) (hmax : n < 2 ^ 64) (rest : List UInt8) :
    convertNumber strtoDouble (printedLiteral n).sign.cls (printedLiteral n).text rest =
      .number (printedNumber n) rest := by
  have hvalue := value_printedDigits n.natAbs
  rw [printedLiteral, printedNumber]
  split
  · have hread : ∃ r : Int64, strtoInt64Dec (ascii '-' :: (printedDigits n.natAbs).text) =
        (r, none) ∧ r.toInt = n := by
      rcases hmin.lt_or_eq with hlt | rfl
      · obtain ⟨r, hr, hrn⟩ := strtoInt64Dec_minus (printedDigits n.natAbs) (by omega)
        exact ⟨r, hr, by omega⟩
      · exact ⟨Int64.minValue, by decide +kernel, by decide⟩
    obtain ⟨r, hr, hrn⟩ := hread
    obtain rfl : r = Int64.ofInt n := by
      rw [← hrn, Int64.ofInt_toInt]
    change storeNumber narrowInt rest
      (strtoInt64Dec (ascii '-' :: (printedDigits n.natAbs).text)) = _
    rw [hr]
    rfl
  · obtain ⟨r, hr, hrn⟩ := strtoUint64Dec_digits (printedDigits n.natAbs) (by omega)
    obtain rfl : r = UInt64.ofNat n.toNat := by
      rw [show n.toNat = r.toNat by omega, UInt64.ofNat_toNat]
    change storeNumber narrowUint rest (strtoUint64Dec (printedDigits n.natAbs).text) = _
    rw [hr]
    rfl

/-- What is stored is the same integer. -/
theorem integer_printedNumber {n : ℤ} (hmin : -2 ^ 63 ≤ n) (hmax : n < 2 ^ 64) :
    (printedNumber n).integer = some n := by
  rw [printedNumber]
  split
  · have htoInt : (Int64.ofInt n).toInt = n :=
      Int64.toInt_ofInt_of_le hmin (by omega)
    rw [integer_narrowInt (by rw [htoInt]; omega), htoInt]
  · rw [integer_narrowUint, UInt64.toNat_ofNat_of_lt' (by change n.toNat < 2 ^ 64; omega)]
    congr 1
    omega

/-- **A number that is printed and read is the same integer.** -/
theorem SexpNumber.integer_reread (number : SexpNumber) :
    number.reread.integer = number.integer := by
  cases hinteger : number.integer with
  | none =>
      cases number with
      | double n => rfl
      | _ n => exact Option.noConfusion rfl (heq_of_eq hinteger)
  | some n =>
      obtain ⟨hmin, hmax⟩ := number.integer_bounds hinteger
      cases number with
      | bool m => exact hinteger
      | double m => exact Option.noConfusion rfl (heq_of_eq hinteger)
      | _ m =>
          obtain rfl := Option.some.inj hinteger
          exact integer_printedNumber hmin hmax

namespace SexpParser

/-! ### Literals behind a number sign -/

section Literal

variable {strtoDouble : List UInt8 → UInt64 × Option Errno} {buffer : List UInt8} {s : PState}

/-- Digits are counted. -/
theorem numberContInt_digits (eofok : Bool) (cls : NumClass) (explen : ℕ) {ds : List UInt8}
    (hds : ∀ c ∈ ds, isdigit c = true) (rest : List UInt8) :
    numberContInt eofok cls explen (ds ++ rest) =
      numberContInt eofok cls (explen + ds.length) rest := by
  rw [numberContInt, numberContInt, List.takeWhile_append_of_pos hds,
    List.dropWhile_append_of_pos hds, List.length_append, Nat.add_assoc]

/-- A number ends in front of an octet that belongs to none. -/
theorem numberContInt_cons (eofok : Bool) (cls : NumClass) (explen : ℕ) {c : UInt8}
    (hdigit : isdigit c = false) (hdot : c ≠ ascii '.') (hexp : c ≠ ascii 'e')
    (hexp' : c ≠ ascii 'E') (rest : List UInt8) :
    numberContInt eofok cls explen (c :: rest) = .stage3 cls explen := by
  have hneg : ¬isdigit c = true := by rw [hdigit]; exact Bool.false_ne_true
  rw [numberContInt, List.takeWhile_cons_of_neg hneg, List.dropWhile_cons_of_neg hneg]
  simp only [numberStage2, if_neg hdot, if_neg (not_or.mpr ⟨hexp, hexp'⟩)]
  rfl

/-- An offset in front of octets is in the buffer. -/
theorem offset_lt_of_drop {n : ℕ} {t : List UInt8} (h : buffer.drop n = t) (ht : t ≠ []) :
    n + t.length = buffer.length := by
  have hlength := congrArg List.length h
  rw [List.length_drop] at hlength
  have := List.length_pos_iff.mpr ht
  omega

/-- The octets at an offset when more have arrived. -/
theorem drop_append_of_drop {n : ℕ} {t : List UInt8} (h : buffer.drop n = t) (ht : t ≠ [])
    (more : List UInt8) : (buffer ++ more).drop n = t ++ more := by
  have := offset_lt_of_drop h ht
  rw [List.drop_append_of_le_length (by omega), h]

/-- The octets behind two others. -/
theorem drop_two_of_drop {n : ℕ} {a b : UInt8} {t : List UInt8} (h : buffer.drop n = a :: b :: t) :
    buffer.drop (n + 2) = t := by
  rw [← List.drop_drop, h]
  rfl

/-- A number sign. -/
theorem step_hash {t : List UInt8} (hexplen : s.explen = 0)
    (h : buffer.drop s.bufoff = ascii '#' :: t) :
    step strtoDouble buffer s = labelHash strtoDouble buffer s := by
  rw [step, if_neg (by omega), dispatch, h]
  rfl

/-- What follows the states of a number does not depend on what was kept of it. -/
theorem numberStop_congr (stop : NumberStop) (n : ℕ) (cls : Option NumClass) :
    numberStop strtoDouble buffer { s with explen := n, numclass := cls } stop =
      numberStop strtoDouble buffer s stop := by
  cases stop with
  | invalid => rfl
  | unfinished cls' stage explen => rfl
  | stage3 cls' explen =>
      rw [numberStop, numberStop, labelNumberStage3, labelNumberStage3]
      rfl

/-- The letter behind a number sign. -/
theorem labelHash_digit {d : UInt8} {t : List UInt8}
    (h : buffer.drop s.bufoff = ascii '#' :: ascii 'd' :: d :: t) :
    labelHash strtoDouble buffer s =
      if d = ascii '+' ∨ d = ascii '-' then
        labelSign strtoDouble buffer { s with bufoff := s.bufoff + 2 }
      else if d = ascii '.' then labelDot strtoDouble buffer { s with bufoff := s.bufoff + 2 }
      else if isdigit d then labelNumber strtoDouble buffer { s with bufoff := s.bufoff + 2 }
      else .fail .einval := by
  rw [labelHash, h]
  rfl

/-- **A literal**: its digits are counted, and what follows them decides. -/
theorem step_literal (sign : LiteralSign) {ds : List UInt8} (hexplen : s.explen = 0)
    (hnumclass : s.numclass = none) (heofok : s.eofok = false) (hne : ds ≠ [])
    (hds : ∀ c ∈ ds, isdigit c = true) {rest : List UInt8}
    (h : buffer.drop s.bufoff = ascii '#' :: ascii 'd' :: (sign.text ++ (ds ++ rest))) :
    step strtoDouble buffer s =
      numberStop strtoDouble buffer { s with bufoff := s.bufoff + 2, label := .number }
        (numberContInt false sign.cls (sign.text.length + ds.length) rest) := by
  obtain ⟨d, ds, rfl⟩ := List.exists_cons_of_ne_nil hne
  have hd : isdigit d = true := hds d (List.mem_cons_self ..)
  have hds' : ∀ c ∈ ds, isdigit c = true := fun c hc => hds c (List.mem_cons_of_mem _ hc)
  obtain ⟨-, hminus, hplus⟩ := isdigit_plain hd
  have hdot : d ≠ ascii '.' := by
    rintro rfl
    exact absurd hd (by decide)
  have hdrop : buffer.drop (s.bufoff + 2) = sign.text ++ (d :: (ds ++ rest)) := drop_two_of_drop h
  rw [step_hash hexplen h]
  cases sign with
  | none =>
      change buffer.drop (s.bufoff + 2) = d :: (ds ++ rest) at hdrop
      rw [labelHash_digit h, if_neg (not_or.mpr ⟨hplus, hminus⟩), if_neg hdot, if_pos hd]
      simp only [labelNumber, hdrop, hexplen, Nat.lt_irrefl, if_false, List.headD_cons, hd, if_true,
        hnumclass, heofok, List.drop_succ_cons, List.drop_zero]
      have hlength : LiteralSign.none.text.length + (d :: ds).length = 1 + ds.length := by
        rw [LiteralSign.text, List.length_nil, List.length_cons]
        omega
      rw [if_neg (fun heq => Option.noConfusion rfl (heq_of_eq heq)),
        numberContInt_digits _ _ _ hds', hlength]
      rfl
  | plus | minus =>
      rw [labelHash_digit h, if_pos (by decide)]
      simp only [labelSign, hdrop, LiteralSign.text, List.cons_append, List.nil_append, hd, if_true,
        hexplen, heofok, Nat.zero_add, List.drop_succ_cons, List.drop_zero]
      rw [← List.cons_append, numberContInt_digits _ _ _ hds]
      rfl

/-- Nothing is checked that does not hold where nothing of an expression was looked at. -/
theorem check_of_lt (hexplen : s.explen = 0) (h : s.bufoff < buffer.length) :
    check buffer s = none := by
  rw [check, if_neg (by omega), if_neg (by omega)]

/-- A parser that waits in front of an expression. -/
theorem check_append (hexplen : s.explen = 0) (h : s.bufoff ≤ buffer.length) {more : List UInt8}
    (hmore : more ≠ []) : check (buffer ++ more) s = none := by
  have := List.length_pos_iff.mpr hmore
  exact check_of_lt hexplen (by rw [List.length_append]; omega)

/-- A number that is taken up at its digits. -/
theorem step_contInt (cls : NumClass) (hexplen : 0 < s.explen) (hlabel : s.label = .number)
    (hnumstage : s.numstage = .contInt) (hnumclass : s.numclass = some cls) :
    step strtoDouble buffer s = numberStop strtoDouble buffer s
      (numberContInt s.eofok cls s.explen ((buffer.drop s.bufoff).drop s.explen)) := by
  rw [step, if_pos hexplen, hlabel]
  simp only [labelNumber, if_pos hexplen, hnumstage, hnumclass]
  rw [← hlabel, ← hnumstage, ← hnumclass]

/-- The end of the buffer behind some of the digits. -/
theorem step_digits_part (sign : LiteralSign) {ds : List UInt8} (hexplen : s.explen = 0)
    (hnumclass : s.numclass = none) (heofok : s.eofok = false) (hne : ds ≠ [])
    (hds : ∀ c ∈ ds, isdigit c = true)
    (h : buffer.drop s.bufoff = ascii '#' :: ascii 'd' :: (sign.text ++ ds)) :
    ∃ s', step strtoDouble buffer s = .wait s' ∧ s'.bufoff ≤ buffer.length ∧
      ∀ more, more ≠ [] → check (buffer ++ more) s' = none ∧
        step strtoDouble (buffer ++ more) s' =
          step strtoDouble (buffer ++ more) { s with numstage := .contInt } := by
  have hlength := offset_lt_of_drop h (List.cons_ne_nil _ _)
  rw [List.length_cons, List.length_cons, List.length_append] at hlength
  have hpos := List.length_pos_iff.mpr hne
  have hbuffer : buffer.drop s.bufoff = ascii '#' :: ascii 'd' :: (sign.text ++ (ds ++ [])) := by
    rw [h, List.append_nil]
  refine ⟨_, step_literal sign hexplen hnumclass heofok hne hds hbuffer, ?_, fun more hmore => ?_⟩
  · change s.bufoff + 2 ≤ buffer.length
    omega
  · have hmore' := List.length_pos_iff.mpr hmore
    have hdrop := drop_append_of_drop h (List.cons_ne_nil _ _) more
    have hdrop' : (buffer ++ more).drop s.bufoff =
        ascii '#' :: ascii 'd' :: (sign.text ++ (ds ++ more)) := by
      rw [hdrop, List.cons_append, List.cons_append, List.append_assoc]
    have hrest : ((buffer ++ more).drop (s.bufoff + 2)).drop (sign.text.length + ds.length) =
        more := by
      rw [drop_two_of_drop hdrop', ← List.append_assoc, ← List.length_append, List.drop_left]
    constructor
    · rw [check, if_neg, if_neg]
      · rintro ⟨hzero, -⟩
        change sign.text.length + ds.length = 0 at hzero
        omega
      · rintro ⟨-, hle⟩
        change (buffer ++ more).length ≤ s.bufoff + 2 + (sign.text.length + ds.length) at hle
        rw [List.length_append] at hle
        omega
    · rw [step_literal sign (s := { s with numstage := .contInt }) hexplen hnumclass heofok hne hds
        hdrop']
      refine (step_contInt sign.cls ?_ rfl rfl rfl).trans ?_
      · change 0 < sign.text.length + ds.length
        omega
      · change numberStop strtoDouble (buffer ++ more) _ (numberContInt s.eofok sign.cls
          (sign.text.length + ds.length)
          (((buffer ++ more).drop (s.bufoff + 2)).drop (sign.text.length + ds.length))) = _
        rw [hrest, show numberContInt s.eofok = numberContInt false by rw [heofok]]
        exact numberStop_congr (s := { s with
          bufoff := s.bufoff + 2, label := .number, numstage := .contInt }) _ _ _

/-- A sign is one octet, if there is one. -/
theorem length_signText_le (sign : LiteralSign) : sign.text.length ≤ 1 := by
  cases sign with
  | none => exact Nat.zero_le _
  | plus | minus => exact Nat.le_refl _

/-- **The end of the buffer inside of a literal**: the parser waits, and goes on when more octets
have arrived as if they had been there. -/
theorem step_literal_part (literal : DecimalLiteral) (hsign : literal.sign ≠ .plus)
    (hexplen : s.explen = 0) (hnumclass : s.numclass = none) (heofok : s.eofok = false)
    {part rest : List UInt8} (h : buffer.drop s.bufoff = part) (hne : part ≠ [])
    (htext : ascii '#' :: ascii 'd' :: literal.text = part ++ rest) :
    ∃ s' s₀, step strtoDouble buffer s = .wait s' ∧ s'.bufoff ≤ buffer.length ∧
      s₀ = { s with label := s₀.label, numstage := s₀.numstage } ∧ ∀ more, more ≠ [] →
        check (buffer ++ more) s' = none ∧
          step strtoDouble (buffer ++ more) s' = step strtoDouble (buffer ++ more) s₀ := by
  have hlength := offset_lt_of_drop h hne
  have hle : s.bufoff ≤ buffer.length := by omega
  obtain _ | ⟨c, part⟩ := part
  · exact absurd rfl hne
  obtain ⟨hc, htext'⟩ := List.cons.inj htext
  subst c
  obtain _ | ⟨d, part⟩ := part
  · refine ⟨{ s with label := .hash }, { s with label := .hash }, ?_, hle, rfl,
      fun more hmore => ⟨check_append (s := { s with label := .hash }) hexplen hle hmore, rfl⟩⟩
    rw [step_hash hexplen h, labelHash, h]
  obtain ⟨hd, hdigits⟩ := List.cons.inj htext'
  subst d
  change literal.sign.text ++ literal.digits.text = part ++ rest at hdigits
  by_cases hpart : part = []
  · -- behind the letter of the base
    subst hpart
    refine ⟨{ s with label := .hash }, { s with label := .hash }, ?_, hle, rfl,
      fun more hmore => ⟨check_append (s := { s with label := .hash }) hexplen hle hmore, rfl⟩⟩
    rw [step_hash hexplen h, labelHash, h]
    rfl
  obtain ⟨ds, hpart', hds⟩ : ∃ ds, part = literal.sign.text ++ ds ∧
      literal.digits.text = ds ++ rest := by
    rcases List.append_eq_append_iff.mp hdigits with ⟨ds, hds⟩ | ⟨ds, hsign', hrest⟩
    · exact ⟨ds, hds⟩
    · have hsignlen := length_signText_le literal.sign
      have hpartlen := List.length_pos_iff.mpr hpart
      rw [hsign', List.length_append] at hsignlen
      obtain rfl : ds = [] := List.length_eq_zero_iff.mp (by omega)
      exact ⟨[], by rw [hsign', List.append_nil, List.append_nil], hrest.symm⟩
  subst hpart'
  by_cases hnil : ds = []
  · subst hnil
    have hminus : literal.sign = .minus := by
      cases hsigncase : literal.sign with
      | none =>
          rw [hsigncase] at hpart
          exact absurd rfl hpart
      | plus => exact absurd hsigncase hsign
      | minus => rfl
    rw [hminus] at h hlength
    have hoffset : s.bufoff + 2 ≤ buffer.length := by
      change s.bufoff + 3 = _ at hlength
      omega
    have hdrop : ∀ more, (buffer ++ more).drop (s.bufoff + 2) = ascii '-' :: more :=
      fun more => drop_two_of_drop (drop_append_of_drop h (List.cons_ne_nil _ _) more)
    refine ⟨{ s with bufoff := s.bufoff + 2 }, s, ?_, hoffset, rfl, fun more hmore =>
      ⟨check_append (s := { s with bufoff := s.bufoff + 2 }) hexplen hoffset hmore, ?_⟩⟩
    · have hdrop' : buffer.drop (s.bufoff + 2) = [ascii '-'] := drop_two_of_drop h
      rw [step_hash hexplen h, labelHash_digit h, if_pos (by decide)]
      simp only [labelSign, hdrop', heofok, Bool.false_eq_true, if_false]
    · have hbuffer := drop_append_of_drop h (List.cons_ne_nil _ _) more
      rw [step_hash hexplen hbuffer, labelHash_digit hbuffer, if_pos (by decide), step,
        if_neg (by change ¬0 < s.explen; omega), dispatch, hdrop more]
      rfl
  · obtain ⟨s', hstep, hle', hmore⟩ := step_digits_part literal.sign hexplen hnumclass heofok hnil
      (fun c hc => literal.digits.digits c (by rw [hds]; exact List.mem_append_left _ hc)) h
    exact ⟨s', { s with numstage := .contInt }, hstep, hle', rfl, hmore⟩

end Literal

end SexpParser

end OpenScap
