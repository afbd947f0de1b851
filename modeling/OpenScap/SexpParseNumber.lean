import OpenScap.SexpNumber
import OpenScap.Strto

/-!
# Numbers in the text of S-expressions

The states of the parser that read a number, the printing of numbers, and what the getters
return for a number that was read. The text that is left in the buffer is passed along; a
buffer that ends in the middle of a number is taken up again at the same state, so that only
the whole text matters. A number without a sign is stored by the smallest unsigned type it fits
into, and one with a sign by a signed type, for which only the negative limits are looked at.

Numbers with a fraction or an exponent are left to a parameter.

## Main results

* `parseNumber_literal` — what is stored for a decimal literal;
* `parseNumber_of_ends` — a literal is read up to its end;
* `parseHash_sbprintf` — a number that is printed and parsed is the same integer;
* `getters_exact_iff` — when a getter returns the integer that was constructed or written.
-/

namespace OpenScap

open CInteger

/-! ### The states of the parser -/

/-- `isnextexp`: white space, quotation marks, `#`, and all brackets and bars. -/
def isnextexp (c : UInt8) : Bool :=
  [7, 9, 10, 13, 32, 34, 35, 39, 40, 41, 91, 93, 123, 124, 125].contains c

/-- `SEXP_NUMCLASS_INT` and the other classes of numbers. -/
inductive NumClass
  | int
  | uint
  | flt
  | exp
  deriving DecidableEq, Repr

/-- Where the first states lead, with the class and the length of the number. -/
inductive NumberScan
  | stage3 (cls : NumClass) (explen : ℕ)
  | invalid
  | unfinished
  | char
  deriving DecidableEq, Repr

/-- `L_NUMBER_final_exp2`, with the character in front. -/
def finalExp2 (eofok : Bool) (explen : ℕ) (prev : UInt8) (rest : List UInt8) : NumberScan :=
  let digits := rest.takeWhile isdigit
  if rest.dropWhile isdigit = [] then
    if eofok then .stage3 .exp (explen + digits.length) else .unfinished
  else if isdigit (digits.getLast?.getD prev) then .stage3 .exp (explen + digits.length)
  else .invalid

/-- `L_NUMBER_final_exp`, with the character in front. -/
def finalExp (eofok : Bool) (explen : ℕ) (prev : UInt8) : List UInt8 → NumberScan
  | [] => if eofok then .invalid else .unfinished
  | c :: rest =>
      if c = ascii '+' ∨ c = ascii '-' then finalExp2 eofok (explen + 1) c rest
      else finalExp2 eofok explen prev (c :: rest)

/-- `L_NUMBER_final_flt`. -/
def finalFlt (eofok : Bool) (explen : ℕ) (rest : List UInt8) : NumberScan :=
  let explen := explen + (rest.takeWhile isdigit).length
  match rest.dropWhile isdigit with
  | [] => if eofok then .stage3 .flt explen else .unfinished
  | c :: rest =>
      if isnextexp c then .stage3 .flt explen
      else if c = ascii 'e' ∨ c = ascii 'E' then finalExp eofok (explen + 1) c rest
      else .invalid

/-- `L_NUMBER_stage2`, at a character that is no digit. -/
def stage2 (eofok : Bool) (cls : NumClass) (explen : ℕ) (c : UInt8) (rest : List UInt8) :
    NumberScan :=
  if c = ascii '.' then finalFlt eofok (explen + 1) rest
  else if c = ascii 'e' ∨ c = ascii 'E' then finalExp eofok (explen + 1) c rest
  else .stage3 cls explen

/-- `L_NUMBER_cont_int`. -/
def contInt (eofok : Bool) (cls : NumClass) (explen : ℕ) (rest : List UInt8) : NumberScan :=
  let explen := explen + (rest.takeWhile isdigit).length
  match rest.dropWhile isdigit with
  | [] => if eofok then .stage3 cls explen else .unfinished
  | c :: rest => stage2 eofok cls explen c rest

/-- `L_PLUS`, `L_MINUS`: what follows decides. -/
def scanSign (eofok : Bool) : List UInt8 → NumberScan
  | [] => if eofok then .char else .unfinished
  | c :: rest =>
      if isdigit c then contInt eofok .int 1 (c :: rest)
      else if c = ascii '.' then
        match rest with
        | [] => if eofok then .char else .unfinished
        | d :: _ => if isdigit d then finalFlt eofok 2 rest else .char
      else .char

/-- `L_DOT`. -/
def scanDot (eofok : Bool) : List UInt8 → NumberScan
  | [] => if eofok then .char else .unfinished
  | c :: rest => if isdigit c then finalFlt eofok 1 (c :: rest) else .char

/-- The label of the first character, and the states from there. -/
def scanNumber (eofok : Bool) : List UInt8 → NumberScan
  | [] => .unfinished
  | c :: rest =>
      if c = ascii '+' ∨ c = ascii '-' then scanSign eofok rest
      else if c = ascii '.' then scanDot eofok rest
      else if isdigit c then contInt eofok .uint 1 rest
      else .char

/-- What is stored for a number of class `SEXP_NUMCLASS_INT`. -/
def narrowInt (number : Int64) : SexpNumber :=
  if number < -0x8000 then
    if number < -0x80000000 then .int64 number.toUInt64 else .int32 number.toInt32.toUInt32
  else if number < -0x80 then .int16 number.toInt16.toUInt16
  else .int8 number.toInt8.toUInt8

/-- What is stored for a number of class `SEXP_NUMCLASS_UINT`. -/
def narrowUint (number : UInt64) : SexpNumber :=
  if 0xffff < number then
    if 0xffffffff < number then .uint64 number else .uint32 number.toUInt32
  else if 0xff < number then .uint16 number.toUInt16
  else .uint8 number.toUInt8

/-- What the parser does at a number: a number and the text behind it, or the expression that
a number is the length of, at the character behind it. -/
inductive NumberParse
  | number (number : SexpNumber) (rest : List UInt8)
  | lengthPrefix (length : UInt64) (rest : List UInt8)
  | invalid
  | unfinished
  | char

/-- A conversion that may have failed. -/
def storeNumber {N : Type} (narrow : N → SexpNumber) (rest : List UInt8) :
    N × Option Errno → NumberParse
  | (number, none) => .number (narrow number) rest
  | (_, some _) => .invalid

section Parser

variable (strtoDouble : List UInt8 → UInt64 × Option Errno)

/-- The conversion of a number by its class. -/
def convertNumber (cls : NumClass) (nbuffer rest : List UInt8) : NumberParse :=
  match cls with
  | .int => storeNumber narrowInt rest (strtoInt64Dec nbuffer)
  | .uint => storeNumber narrowUint rest (strtoUint64Dec nbuffer)
  | .flt | .exp => storeNumber SexpNumber.double rest (strtoDouble nbuffer)

/-- The characters between a length and the expression that is so long: `:`, `|`, `[` and the
opening brace. -/
def numberPrefixes : List UInt8 := [58, 124, 91, 123]

/-- `L_NUMBER_stage3`. -/
def stage3 (cls : NumClass) (explen : ℕ) (buf : List UInt8) : NumberParse :=
  let nbuffer := buf.take explen
  let rest := buf.drop explen
  if cls = .uint ∧ (strtoUint64Dec nbuffer).1 = 0 ∧ (strtoUint64Dec nbuffer).2.isSome then .invalid
  else if cls = .uint ∧ rest.head?.any numberPrefixes.contains then
    .lengthPrefix (strtoUint64Dec nbuffer).1 rest
  else if rest.head?.any (!isnextexp ·) then .invalid
  else convertNumber strtoDouble cls nbuffer rest

/-- The states of the parser from the first character of a number on. -/
def parseNumber (eofok : Bool) (buf : List UInt8) : NumberParse :=
  match scanNumber eofok buf with
  | .stage3 cls explen => stage3 strtoDouble cls explen buf
  | .invalid => .invalid
  | .unfinished => .unfinished
  | .char => .char

/-- `L_HASH`, behind the `#`. The base that is named does not matter for the number. -/
def parseHash (eofok : Bool) : List UInt8 → NumberParse
  | [] => .unfinished
  | c :: rest =>
      if c = ascii 'T' then .number (.bool 1) rest
      else if c = ascii 'F' then .number (.bool 0) rest
      else if [ascii 'b', ascii 'd', ascii 'x', ascii 'o'].contains c then
        match rest with
        | [] => .unfinished
        | d :: _ =>
            if d = ascii '+' ∨ d = ascii '-' ∨ d = ascii '.' ∨ isdigit d then
              parseNumber strtoDouble eofok rest
            else .invalid
      else .invalid

end Parser

/-! ### Types -/

/-- An unsigned number is stored by a type that it fits into. -/
theorem integer_narrowUint (n : UInt64) : (narrowUint n).integer = some (n.toNat : ℤ) := by
  have h16 : (0xffff : UInt64).toNat = 0xffff := rfl
  have h32 : (0xffffffff : UInt64).toNat = 0xffffffff := rfl
  have h8 : (0xff : UInt64).toNat = 0xff := rfl
  simp only [narrowUint, UInt64.lt_iff_toNat_lt, h16, h32, h8]
  split
  · split
    · rfl
    · rw [SexpNumber.integer, UInt64.toNat_toUInt32, Nat.mod_eq_of_lt (by omega)]
  · split
    · rw [SexpNumber.integer, UInt64.toNat_toUInt16, Nat.mod_eq_of_lt (by omega)]
    · rw [SexpNumber.integer, UInt64.toNat_toUInt8, Nat.mod_eq_of_lt (by omega)]

/-- The types by which signed numbers are stored: only the lower limits are looked at. -/
theorem narrowInt_cases (n : Int64) :
    (n.toInt < -2 ^ 31 ∧ narrowInt n = .int64 n.toUInt64) ∨
    (-2 ^ 31 ≤ n.toInt ∧ n.toInt < -2 ^ 15 ∧ narrowInt n = .int32 n.toInt32.toUInt32) ∨
    (-2 ^ 15 ≤ n.toInt ∧ n.toInt < -2 ^ 7 ∧ narrowInt n = .int16 n.toInt16.toUInt16) ∨
    (-2 ^ 7 ≤ n.toInt ∧ narrowInt n = .int8 n.toInt8.toUInt8) := by
  have h16 : (-0x8000 : Int64).toInt = -2 ^ 15 := by decide
  have h32 : (-0x80000000 : Int64).toInt = -2 ^ 31 := by decide
  have h8 : (-0x80 : Int64).toInt = -2 ^ 7 := by decide
  simp only [narrowInt, Int64.lt_iff_toInt_lt, h16, h32, h8]
  split
  · split
    · exact .inl ⟨‹_›, rfl⟩
    · exact .inr (.inl ⟨by omega, ‹_›, rfl⟩)
  · split
    · exact .inr (.inr (.inl ⟨by omega, ‹_›, rfl⟩))
    · exact .inr (.inr (.inr ⟨by omega, rfl⟩))

/-- A signed number is stored by a type that it fits into, unless it is too large for 8 bits. -/
theorem integer_narrowInt {n : Int64} (h : n.toInt < 2 ^ 7) :
    (narrowInt n).integer = some n.toInt := by
  rcases narrowInt_cases n with ⟨-, hn⟩ | ⟨hle, hlt, hn⟩ | ⟨hle, hlt, hn⟩ | ⟨hle, hn⟩
  · rw [hn]
    rfl
  · rw [hn]
    change some n.toInt32.toInt = _
    rw [Int64.toInt_toInt32, Int.bmod_eq_of_le_mul_two (by omega) (by omega)]
  · rw [hn]
    change some n.toInt16.toInt = _
    rw [Int64.toInt_toInt16, Int.bmod_eq_of_le_mul_two (by omega) (by omega)]
  · rw [hn]
    change some n.toInt8.toInt = _
    rw [Int64.toInt_toInt8, Int.bmod_eq_of_le_mul_two (by omega) (by omega)]

/-- A number with a sign that is too large for 8 bits is cut off. -/
theorem narrowInt_of_ge {n : Int64} (h : 2 ^ 7 ≤ n.toInt) :
    (narrowInt n).type = .int8 ∧ ((narrowInt n).raw : ℤ) = n.toInt % 2 ^ 8 := by
  rcases narrowInt_cases n with ⟨hlt, -⟩ | ⟨-, hlt, -⟩ | ⟨-, hlt, -⟩ | ⟨-, hn⟩
  · omega
  · omega
  · omega
  · rw [hn]
    refine ⟨rfl, ?_⟩
    change (n.toInt8.toUInt8.toNat : ℤ) = _
    rw [toNat_toUInt8, Int64.toInt_toInt8]
    exact Int.bmod_emod

/-! ### Literals -/

/-- The sign of a literal. -/
inductive LiteralSign
  | none
  | plus
  | minus
  deriving DecidableEq, Repr

/-- A decimal literal of an integer. -/
structure DecimalLiteral where
  sign : LiteralSign
  digits : Decimal

/-- The characters of a sign. -/
def LiteralSign.text : LiteralSign → List UInt8
  | .none => []
  | .plus => [ascii '+']
  | .minus => [ascii '-']

/-- The text of a literal. -/
def DecimalLiteral.text (literal : DecimalLiteral) : List UInt8 :=
  literal.sign.text ++ literal.digits.text

/-- The integer that a literal writes. -/
def DecimalLiteral.value (literal : DecimalLiteral) : ℤ :=
  match literal.sign with
  | .minus => -literal.digits.value
  | .none | .plus => literal.digits.value

/-- The class of numbers with a sign or without one. -/
def LiteralSign.cls : LiteralSign → NumClass
  | .none => .uint
  | .plus | .minus => .int

/-- Digits, and what follows them. -/
theorem length_takeWhile_add (p : UInt8 → Bool) (rest : List UInt8) :
    (rest.takeWhile p).length + (rest.dropWhile p).length = rest.length := by
  rw [← List.length_append, List.takeWhile_append_dropWhile]

/-- The exponent only adds to a number. -/
theorem finalExp2_stage3 {eofok : Bool} {explen n : ℕ} {prev : UInt8} {rest : List UInt8}
    {cls : NumClass} (h : finalExp2 eofok explen prev rest = .stage3 cls n) :
    explen ≤ n ∧ n ≤ explen + rest.length := by
  have hlength := length_takeWhile_add isdigit rest
  have hn : n = explen + (rest.takeWhile isdigit).length := by
    simp only [finalExp2] at h
    split at h <;> split at h <;>
      first | exact (NumberScan.stage3.inj h).2.symm | exact NumberScan.noConfusion h
  omega

/-- The exponent only adds to a number. -/
theorem finalExp_stage3 {eofok : Bool} {explen n : ℕ} {prev : UInt8} {rest : List UInt8}
    {cls : NumClass} (h : finalExp eofok explen prev rest = .stage3 cls n) :
    explen ≤ n ∧ n ≤ explen + rest.length := by
  cases rest with
  | nil =>
      rw [finalExp] at h
      split at h <;> exact NumberScan.noConfusion h
  | cons c rest =>
      rw [finalExp] at h
      rw [List.length_cons]
      split at h
      · obtain ⟨hle, hge⟩ := finalExp2_stage3 h
        omega
      · obtain ⟨hle, hge⟩ := finalExp2_stage3 h
        rw [List.length_cons] at hge
        omega

/-- The fraction only adds to a number. -/
theorem finalFlt_stage3 {eofok : Bool} {explen n : ℕ} {rest : List UInt8} {cls : NumClass}
    (h : finalFlt eofok explen rest = .stage3 cls n) :
    explen ≤ n ∧ n ≤ explen + rest.length := by
  have hlength := length_takeWhile_add isdigit rest
  simp only [finalFlt] at h
  split at h
  · split at h
    · obtain ⟨-, rfl⟩ := NumberScan.stage3.inj h
      omega
    · exact NumberScan.noConfusion h
  · rename_i c tail hdrop
    rw [hdrop, List.length_cons] at hlength
    split at h
    · obtain ⟨-, rfl⟩ := NumberScan.stage3.inj h
      omega
    · split at h
      · obtain ⟨hle, hge⟩ := finalExp_stage3 h
        omega
      · exact NumberScan.noConfusion h

/-- A number has all the digits that follow, and if it has no more, its class is kept. -/
theorem contInt_stage3 {eofok : Bool} {explen n : ℕ} {rest : List UInt8} {cls cls' : NumClass}
    (h : contInt eofok cls explen rest = .stage3 cls' n) :
    explen + (rest.takeWhile isdigit).length ≤ n ∧ n ≤ explen + rest.length ∧
      (n = explen + (rest.takeWhile isdigit).length → cls' = cls) := by
  have hlength := length_takeWhile_add isdigit rest
  simp only [contInt] at h
  split at h
  · split at h
    · obtain ⟨rfl, rfl⟩ := NumberScan.stage3.inj h
      exact ⟨Nat.le_refl _, by omega, fun _ => rfl⟩
    · exact NumberScan.noConfusion h
  · rename_i c tail hdrop
    rw [hdrop, List.length_cons] at hlength
    rw [stage2] at h
    split at h
    · obtain ⟨hle, hge⟩ := finalFlt_stage3 h
      exact ⟨by omega, by omega, fun hn => by omega⟩
    · split at h
      · obtain ⟨hle, hge⟩ := finalExp_stage3 h
        exact ⟨by omega, by omega, fun hn => by omega⟩
      · obtain ⟨rfl, rfl⟩ := NumberScan.stage3.inj h
        exact ⟨Nat.le_refl _, by omega, fun _ => rfl⟩

/-- A digit behind a sign. -/
theorem scanSign_digit {eofok : Bool} {c : UInt8} {rest : List UInt8} (hc : isdigit c = true) :
    scanSign eofok (c :: rest) = contInt eofok .int 1 (c :: rest) := by
  simp only [scanSign]
  exact if_pos hc

/-- The states go to the digits of a literal. -/
theorem scanNumber_literal (eofok : Bool) (literal : DecimalLiteral) (rest : List UInt8) :
    ∃ digits, scanNumber eofok (literal.text ++ rest) =
        contInt eofok literal.sign.cls 1 (digits ++ rest) ∧
      (∀ c ∈ digits, isdigit c = true) ∧ digits.length + 1 = literal.text.length := by
  obtain ⟨sign, digits⟩ := literal
  obtain ⟨c, cs, htext⟩ := List.exists_cons_of_ne_nil digits.ne_nil
  have hc : isdigit c = true := digits.digits c (by rw [htext]; exact List.mem_cons_self ..)
  obtain ⟨-, hminus, hplus⟩ := isdigit_plain hc
  have hdot : c ≠ ascii '.' := by
    rintro rfl
    exact absurd hc (by decide)
  cases sign with
  | none =>
      refine ⟨cs, ?_, fun d hd => digits.digits d (by rw [htext]; exact List.mem_cons_of_mem _ hd),
        by rw [DecimalLiteral.text, LiteralSign.text, htext]; rfl⟩
      rw [DecimalLiteral.text, LiteralSign.text, List.nil_append, htext, List.cons_append,
        scanNumber, if_neg (not_or.mpr ⟨hplus, hminus⟩), if_neg hdot, if_pos hc]
      rfl
  | plus | minus =>
      refine ⟨digits.text, ?_, digits.digits, ?_⟩
      on_goal 2 =>
        rw [DecimalLiteral.text, List.length_append, Nat.add_comm]
        rfl
      rw [DecimalLiteral.text, LiteralSign.text, List.cons_append, List.nil_append,
        List.cons_append, scanNumber, if_pos (by decide), htext, List.cons_append,
        scanSign_digit hc]
      rfl

section Parse

variable {strtoDouble : List UInt8 → UInt64 × Option Errno} {eofok : Bool} {number : SexpNumber}
  {rest : List UInt8}

/-- A conversion leaves the text behind the number. -/
theorem storeNumber_eq_number {N : Type} {narrow : N → SexpNumber} {rest' : List UInt8}
    {result : N × Option Errno} (h : storeNumber narrow rest' result = .number number rest) :
    ∃ n, result = (n, none) ∧ narrow n = number ∧ rest' = rest := by
  obtain ⟨n, _ | errno⟩ := result
  · obtain ⟨hnumber, hrest⟩ := NumberParse.number.inj h
    exact ⟨n, rfl, hnumber, hrest⟩
  · exact NumberParse.noConfusion h

/-- A conversion leaves the text behind the number. -/
theorem rest_of_convertNumber {cls : NumClass} {nbuffer rest' : List UInt8}
    (h : convertNumber strtoDouble cls nbuffer rest' = .number number rest) : rest' = rest := by
  cases cls with
  | int | uint | flt | exp =>
      obtain ⟨-, -, -, hrest⟩ := storeNumber_eq_number h
      exact hrest

/-- What the last state stores is a conversion. -/
theorem stage3_eq_number {cls : NumClass} {explen : ℕ} {buf : List UInt8}
    (h : stage3 strtoDouble cls explen buf = .number number rest) :
    convertNumber strtoDouble cls (buf.take explen) (buf.drop explen) = .number number rest := by
  simp only [stage3] at h
  split at h
  · exact NumberParse.noConfusion h
  · split at h
    · exact NumberParse.noConfusion h
    · split at h
      · exact NumberParse.noConfusion h
      · exact h

/-- **What is stored for a literal, if the number ends where the literal does.** -/
theorem parseNumber_literal {literal : DecimalLiteral}
    (h : parseNumber strtoDouble eofok (literal.text ++ rest) = .number number rest) :
    convertNumber strtoDouble literal.sign.cls literal.text rest = .number number rest := by
  obtain ⟨digits, hscan, hdigits, hlength⟩ := scanNumber_literal eofok literal rest
  rw [parseNumber, hscan] at h
  cases hcont : contInt eofok literal.sign.cls 1 (digits ++ rest) with
  | stage3 cls n =>
      rw [hcont] at h
      obtain ⟨hle, hge, hcls⟩ := contInt_stage3 hcont
      rw [List.takeWhile_append_of_pos hdigits, List.length_append] at hle hcls
      rw [List.length_append] at hge
      have hconvert := stage3_eq_number h
      have hdrop := congrArg List.length (rest_of_convertNumber hconvert)
      rw [List.length_drop, List.length_append] at hdrop
      have hn : n = literal.text.length := by omega
      rw [hcls (by omega), hn, List.take_left, List.drop_left] at hconvert
      exact hconvert
  | invalid | unfinished | char =>
      rw [hcont] at h
      exact NumberParse.noConfusion h

/-- A literal without a sign is stored as it is. -/
theorem integer_of_unsigned {digits : Decimal} (hlt : digits.value < 2 ^ 64)
    (h : convertNumber strtoDouble .uint digits.text rest = .number number rest) :
    number.integer = some (digits.value : ℤ) := by
  obtain ⟨n, hn, rfl, -⟩ := storeNumber_eq_number h
  obtain ⟨r, hr, hvalue⟩ := strtoUint64Dec_digits digits hlt
  obtain ⟨rfl, -⟩ := Prod.mk.inj (hr.symm.trans hn)
  rw [integer_narrowUint, hvalue]

/-- What is stored for a literal with a minus sign. -/
theorem narrowInt_of_minus {digits : Decimal} (hlt : digits.value ≤ 2 ^ 63)
    (h : convertNumber strtoDouble .int (ascii '-' :: digits.text) rest = .number number rest) :
    ∃ n : Int64, number = narrowInt n ∧ n.toInt = -digits.value := by
  obtain ⟨n, hn, rfl, -⟩ := storeNumber_eq_number h
  refine ⟨n, rfl, ?_⟩
  rcases Nat.lt_or_eq_of_le hlt with hlt | heq
  · obtain ⟨r, hr, hvalue⟩ := strtoInt64Dec_minus digits hlt
    obtain ⟨rfl, -⟩ := Prod.mk.inj (hr.symm.trans hn)
    exact hvalue
  · rw [strtoInt64Dec_minus_overflow heq hn, heq]
    rfl

/-- What is stored for a literal with a plus sign. -/
theorem narrowInt_of_plus {digits : Decimal} (hlt : digits.value < 2 ^ 64)
    (h : convertNumber strtoDouble .int (ascii '+' :: digits.text) rest = .number number rest) :
    ∃ n : Int64, number = narrowInt n ∧
      (n.toInt = digits.value ∨ digits.value = 2 ^ 63 ∧ n.toInt = -2 ^ 63) := by
  obtain ⟨n, hn, rfl, -⟩ := storeNumber_eq_number h
  refine ⟨n, rfl, ?_⟩
  rcases Nat.lt_or_ge digits.value (2 ^ 63) with hlt' | hge
  · obtain ⟨r, hr, hvalue⟩ := strtoInt64Dec_plus digits hlt'
    obtain ⟨rfl, -⟩ := Prod.mk.inj (hr.symm.trans hn)
    exact .inl hvalue
  · exact .inr (strtoInt64Dec_plus_overflow hge hlt hn)

/-- A text in front of which a number ends that is no length of an expression. -/
def NumberEnds (eofok : Bool) : List UInt8 → Prop
  | [] => eofok = true
  | c :: _ => isnextexp c = true ∧ numberPrefixes.contains c = false

/-- A character behind a number belongs to no number. -/
theorem isnextexp_plain {c : UInt8} (h : isnextexp c = true) :
    isdigit c = false ∧ c ≠ ascii '.' ∧ c ≠ ascii 'e' ∧ c ≠ ascii 'E' := by
  revert h
  exact forall_byte (p := fun c => isnextexp c = true → isdigit c = false ∧ c ≠ ascii '.' ∧
    c ≠ ascii 'e' ∧ c ≠ ascii 'E') (by decide +kernel) c

/-- Digits are read up to the end of the number. -/
theorem contInt_of_ends {digits : List UInt8} {explen : ℕ} {cls : NumClass}
    (hdigits : ∀ c ∈ digits, isdigit c = true) (h : NumberEnds eofok rest) :
    contInt eofok cls explen (digits ++ rest) = .stage3 cls (explen + digits.length) := by
  have hhead : rest.head?.any isdigit = false := by
    cases rest with
    | nil => rfl
    | cons c rest => simpa using (isnextexp_plain h.1).1
  simp only [contInt, takeWhile_digits hdigits hhead, dropWhile_digits hdigits hhead]
  cases rest with
  | nil => exact if_pos h
  | cons c rest =>
      obtain ⟨-, hdot, hexp, hexp'⟩ := isnextexp_plain h.1
      simp only [stage2, if_neg hdot, if_neg (not_or.mpr ⟨hexp, hexp'⟩)]

/-- **A literal is read up to the end of the number.** -/
theorem parseNumber_of_ends {literal : DecimalLiteral} (h : NumberEnds eofok rest) :
    parseNumber strtoDouble eofok (literal.text ++ rest) =
      convertNumber strtoDouble literal.sign.cls literal.text rest := by
  obtain ⟨digits, hscan, hdigits, hlength⟩ := scanNumber_literal eofok literal rest
  have hprefix : rest.head?.any numberPrefixes.contains = false := by
    cases rest with
    | nil => rfl
    | cons c rest => simpa using h.2
  have hnext : rest.head?.any (!isnextexp ·) = false := by
    cases rest with
    | nil => rfl
    | cons c rest => simpa using h.1
  rw [parseNumber, hscan, contInt_of_ends hdigits h, Nat.add_comm, hlength]
  simp only [stage3, List.take_left, List.drop_left, hprefix, hnext, Bool.false_eq_true, and_false,
    if_false]
  split
  · rename_i herror
    obtain ⟨hcls, -, herrno⟩ := herror
    obtain ⟨errno, herrno⟩ := Option.isSome_iff_exists.mp herrno
    rw [hcls, convertNumber, ← Prod.eta (strtoUint64Dec literal.text), herrno]
    rfl
  · rfl

end Parse

/-! ### Printing -/

/-- `%ld` and the other formats of signed integers. -/
def formatLd (n : ℤ) : List UInt8 :=
  if n < 0 then ascii '-' :: formatLu n.natAbs else formatLu n.natAbs

/-- `SEXP_sbprintf_t` at a number, where `%g` is left open. -/
def sbprintfNumber (formatG : UInt64 → List UInt8) : SexpNumber → List UInt8
  | .bool n => [ascii '#', if n ≠ 0 then ascii 'T' else ascii 'F']
  | .int8 n => ascii '#' :: ascii 'd' :: formatLd n.toInt8.toInt
  | .uint8 n => ascii '#' :: ascii 'd' :: formatLu n.toNat
  | .int16 n => ascii '#' :: ascii 'd' :: formatLd n.toInt16.toInt
  | .uint16 n => ascii '#' :: ascii 'd' :: formatLu n.toNat
  | .int32 n => ascii '#' :: ascii 'd' :: formatLd n.toInt32.toInt
  | .uint32 n => ascii '#' :: ascii 'd' :: formatLu n.toNat
  | .int64 n => ascii '#' :: ascii 'd' :: formatLd n.toInt64.toInt
  | .uint64 n => ascii '#' :: ascii 'd' :: formatLu n.toNat
  | .double n => ascii '#' :: ascii 'd' :: formatG n

/-- The digits that are printed of a number. -/
def printedDigits (n : ℕ) : Decimal where
  text := formatLu n
  ne_nil := by
    by_cases h : n < 10
    · rw [formatLu_of_lt h]
      exact List.cons_ne_nil _ _
    · rw [formatLu_of_le (by omega)]
      exact List.append_ne_nil_of_right_ne_nil _ (List.cons_ne_nil _ _)
  digits := (formatLu_spec n).1

/-- The literal that is printed of an integer. -/
def printedLiteral (n : ℤ) : DecimalLiteral where
  sign := if n < 0 then .minus else .none
  digits := printedDigits n.natAbs

/-- The digits of the number. -/
theorem value_printedDigits (n : ℕ) : (printedDigits n).value = n := (formatLu_spec n).2

/-- The text of a literal is what is printed. -/
theorem text_printedLiteral (n : ℤ) : (printedLiteral n).text = formatLd n := by
  rw [DecimalLiteral.text, printedLiteral, formatLd]
  split <;> rfl

/-- What is printed of an integer that is not negative. -/
theorem formatLd_natCast (n : ℕ) : formatLd n = formatLu n := by
  rw [formatLd, if_neg (Int.not_lt.mpr (Int.natCast_nonneg n)), Int.natAbs_natCast]

/-- What is printed of a number behind `#`: a letter of a truth value, or `d` and a literal. -/
theorem sbprintfNumber_integer (formatG : UInt64 → List UInt8) {number : SexpNumber} {n : ℤ}
    (h : number.integer = some n) (htype : number.type ≠ .bool) :
    sbprintfNumber formatG number = ascii '#' :: ascii 'd' :: (printedLiteral n).text := by
  rw [text_printedLiteral]
  cases number with
  | bool m => exact absurd rfl htype
  | double m => exact absurd h (by simp [SexpNumber.integer])
  | int8 m | int16 m | int32 m | int64 m =>
      obtain rfl := Option.some.inj h
      rfl
  | uint8 m | uint16 m | uint32 m | uint64 m =>
      obtain rfl := Option.some.inj h
      rw [sbprintfNumber, formatLd_natCast]

/-- The integers that have a type. -/
theorem SexpNumber.integer_bounds {number : SexpNumber} {n : ℤ} (h : number.integer = some n) :
    -2 ^ 63 ≤ n ∧ n < 2 ^ 64 := by
  cases number with
  | double m => exact absurd h (by simp [SexpNumber.integer])
  | bool m | uint8 m | uint16 m | uint32 m | uint64 m =>
      obtain rfl := Option.some.inj h
      have hlt := m.toNat_lt
      omega
  | int8 m =>
      obtain rfl := Option.some.inj h
      have hle := m.toInt8.le_toInt
      have hlt := m.toInt8.toInt_lt
      omega
  | int16 m =>
      obtain rfl := Option.some.inj h
      have hle := m.toInt16.le_toInt
      have hlt := m.toInt16.toInt_lt
      omega
  | int32 m =>
      obtain rfl := Option.some.inj h
      have hle := m.toInt32.le_toInt
      have hlt := m.toInt32.toInt_lt
      omega
  | int64 m =>
      obtain rfl := Option.some.inj h
      have hle := m.toInt64.le_toInt
      have hlt := m.toInt64.toInt_lt
      omega

/-- A literal that is printed is stored as the integer that it writes. -/
theorem convertNumber_printed (strtoDouble : List UInt8 → UInt64 × Option Errno) {n : ℤ}
    (hmin : -2 ^ 63 ≤ n) (hmax : n < 2 ^ 64) (rest : List UInt8) :
    ∃ number, convertNumber strtoDouble (printedLiteral n).sign.cls (printedLiteral n).text rest =
        .number number rest ∧ number.integer = some n := by
  have hvalue := value_printedDigits n.natAbs
  rw [printedLiteral]
  split
  · rcases hmin.lt_or_eq with hlt | rfl
    · obtain ⟨r, hr, hrn⟩ := strtoInt64Dec_minus (printedDigits n.natAbs) (by omega)
      refine ⟨narrowInt r, ?_, ?_⟩
      · change storeNumber narrowInt rest
          (strtoInt64Dec (ascii '-' :: (printedDigits n.natAbs).text)) = _
        rw [hr]
        rfl
      · rw [integer_narrowInt (by omega), hrn]
        congr 1
        omega
    · refine ⟨.int64 0x8000000000000000, ?_, by decide⟩
      have hread : strtoInt64Dec (ascii '-' :: formatLu (2 ^ 63)) = (Int64.minValue, none) := by
        decide +kernel
      change storeNumber narrowInt rest (strtoInt64Dec (ascii '-' :: formatLu (2 ^ 63))) = _
      rw [hread]
      rfl
  · obtain ⟨r, hr, hrn⟩ := strtoUint64Dec_digits (printedDigits n.natAbs) (by omega)
    refine ⟨narrowUint r, ?_, ?_⟩
    · change storeNumber narrowUint rest (strtoUint64Dec (printedDigits n.natAbs).text) = _
      rw [hr]
      rfl
    · rw [integer_narrowUint, hrn]
      congr 1
      omega

/-- The text behind `#d` is read as a number. -/
theorem parseHash_literal (strtoDouble : List UInt8 → UInt64 × Option Errno) (eofok : Bool)
    (literal : DecimalLiteral) (rest : List UInt8) :
    parseHash strtoDouble eofok (ascii 'd' :: (literal.text ++ rest)) =
      parseNumber strtoDouble eofok (literal.text ++ rest) := by
  have hd : [ascii 'b', ascii 'd', ascii 'x', ascii 'o'].contains (ascii 'd') = true := by decide
  have hT : ascii 'd' ≠ ascii 'T' := by decide
  have hF : ascii 'd' ≠ ascii 'F' := by decide
  simp only [parseHash, if_neg hT, if_neg hF, if_pos hd]
  obtain ⟨sign, digits⟩ := literal
  obtain ⟨c, cs, htext⟩ := List.exists_cons_of_ne_nil digits.ne_nil
  have hc : isdigit c = true := digits.digits c (by rw [htext]; exact List.mem_cons_self ..)
  cases sign with
  | none =>
      rw [DecimalLiteral.text, LiteralSign.text, List.nil_append, htext, List.cons_append]
      exact if_pos (.inr (.inr (.inr hc)))
  | plus => exact if_pos (.inl rfl)
  | minus => exact if_pos (.inr (.inl rfl))

/-- **A number that is printed and parsed is the same integer**, by whatever type it was stored
and is stored then. -/
theorem parseHash_sbprintf (strtoDouble : List UInt8 → UInt64 × Option Errno)
    (formatG : UInt64 → List UInt8) {eofok : Bool} {number : SexpNumber} {n : ℤ}
    {rest : List UInt8} (h : number.integer = some n) (hbool : number.type = .bool → n ≤ 1)
    (hends : NumberEnds eofok rest) :
    ∃ number', parseHash strtoDouble eofok ((sbprintfNumber formatG number).tail ++ rest) =
        .number number' rest ∧ number'.integer = some n := by
  by_cases htype : number.type = .bool
  · cases number with
    | bool m =>
        obtain rfl := Option.some.inj h
        have hle := hbool rfl
        by_cases hm : m = 0
        · subst hm
          exact ⟨.bool 0, rfl, rfl⟩
        · have hone : m = 1 := by
            refine UInt8.toNat.inj ?_
            have : m.toNat ≠ 0 := fun hzero => hm (UInt8.toNat.inj hzero)
            change m.toNat = 1
            omega
          subst hone
          exact ⟨.bool 1, rfl, rfl⟩
    | _ m => exact SexpNumtype.noConfusion htype
  · obtain ⟨hmin, hmax⟩ := number.integer_bounds h
    obtain ⟨number', hconvert, hinteger⟩ := convertNumber_printed strtoDouble hmin hmax rest
    refine ⟨number', ?_, hinteger⟩
    rw [sbprintfNumber_integer formatG h htype, List.tail_cons, List.cons_append,
      parseHash_literal, parseNumber_of_ends hends, hconvert]

/-! ### What the getters return -/

/-- The literals that a getter returns another integer for. -/
def DecimalLiteral.MisreadBy (literal : DecimalLiteral) (getter : NumberGetter) : Prop :=
  match literal.sign, getter with
  | .none, _ => False
  | .plus, .geti64 => 2 ^ 7 ≤ literal.value
  | .plus, .getu64 => 2 ^ 8 ≤ literal.value ∧ literal.value ≠ 2 ^ 63
  | .plus, _ => 2 ^ 8 ≤ literal.value
  | .minus, .geti32 => -2 ^ 15 ≤ literal.value ∧ literal.value < 0
  | .minus, .geti64 => -2 ^ 15 ≤ literal.value ∧ literal.value < -2 ^ 7
  | .minus, _ => False

/-- What a number comes from: a constructor, or a decimal literal in a text. -/
inductive NumberSource
  | constructed (c : NumberConstructor)
  | written (literal : DecimalLiteral)

/-- The integer that is meant. -/
def NumberSource.integer : NumberSource → ℤ
  | .constructed c => c.integer
  | .written literal => literal.value

/-- A number may be what is stored. -/
def NumberSource.Stores (strtoDouble : List UInt8 → UInt64 × Option Errno) (source : NumberSource)
    (number : SexpNumber) : Prop :=
  match source with
  | .constructed c => number = c.number
  | .written literal => ∃ eofok rest,
      parseNumber strtoDouble eofok (literal.text ++ rest) = .number number rest

/-- A getter returns another integer: of a negative integer whose type it takes for an unsigned
one, or of a literal. -/
def NumberSource.MisreadBy (source : NumberSource) (getter : NumberGetter) : Prop :=
  match source with
  | .constructed c => c.integer < 0 ∧ getter.readsUnsigned c.number.type = true
  | .written literal => literal.MisreadBy getter

/-- A number of 8 bits is read as an unsigned one, except by one getter. -/
theorem get_int8 {getter : NumberGetter} {number : SexpNumber} (htype : number.type = .int8) :
    getter.get number = if getter = .geti64 then signedOf 8 number.raw else number.raw := by
  have htakes : getter.Takes number := by
    rw [NumberGetter.Takes, htype]
    cases getter <;> decide
  have hraw := number.raw_lt
  rw [htype] at hraw
  cases getter with
  | geti32 =>
      have hlt : (number.raw : ℤ) < 2 ^ (32 - 1) := by
        have := Int.ofNat_lt.mpr hraw
        simp only [SexpNumtype.bits] at this
        omega
      rw [NumberGetter.get, toInt_geti32 htakes, signedOf_of_lt hlt]
      rfl
  | geti64 =>
      rw [NumberGetter.get, toInt_geti64 htakes, htype]
      rfl
  | getu8 => rw [NumberGetter.get, toNat_getu8 htakes]; rfl
  | getu16 => rw [NumberGetter.get, toNat_getu16 htakes]; rfl
  | getu32 => rw [NumberGetter.get, toNat_getu32 htakes]; rfl
  | getu64 =>
      rw [NumberGetter.get, toNat_getu64 htakes, htype]
      rfl

/-- A literal with a plus sign that is cut off to 8 bits. -/
theorem get_cutOff_iff {getter : NumberGetter} {n : Int64} (h : 2 ^ 7 ≤ n.toInt) :
    getter.get (narrowInt n) = n.toInt ↔ getter ≠ .geti64 ∧ n.toInt < 2 ^ 8 := by
  obtain ⟨htype, hraw⟩ := narrowInt_of_ge h
  have hlt := (narrowInt n).raw_lt
  rw [htype] at hlt
  rw [get_int8 htype]
  split
  · have hmax : signedOf 8 (narrowInt n).raw < 2 ^ 7 := by
      rw [signedOf]
      simp only [SexpNumtype.bits] at hlt
      split <;> omega
    exact iff_of_false (by omega) (fun hne => hne.1 ‹_›)
  · rw [hraw]
    simp only [ne_eq, ‹¬ getter = _›, not_false_eq_true, true_and]
    omega

/-- The first literal with a plus sign that is too large is read as the least integer, whose
bits are those of the literal. -/
theorem get_minValue_iff {getter : NumberGetter}
    (htakes : getter.Takes (narrowInt Int64.minValue)) (hrep : getter.Represents (2 ^ 63)) :
    getter = .getu64 ∧ getter.get (narrowInt Int64.minValue) = 2 ^ 63 := by
  cases getter with
  | getu64 => exact ⟨rfl, by decide⟩
  | geti64 => exact absurd hrep.2 (by decide)
  | _ => exact absurd htakes (by unfold NumberGetter.Takes; decide)

/-- A literal with a plus sign that is not too large for a signed integer. -/
theorem misreadBy_plus_iff {getter : NumberGetter} {digits : Decimal}
    (hlt : digits.value < 2 ^ 63) :
    (DecimalLiteral.mk .plus digits).MisreadBy getter ↔
      2 ^ 7 ≤ digits.value ∧ ¬ (getter ≠ .geti64 ∧ (digits.value : ℤ) < 2 ^ 8) := by
  cases getter <;> simp only [DecimalLiteral.MisreadBy, DecimalLiteral.value] <;> grind

/-- **Literals with a plus sign.** -/
theorem get_plus_iff {getter : NumberGetter} {number : SexpNumber} {digits : Decimal} {n : Int64}
    (hnumber : number = narrowInt n)
    (hn : n.toInt = digits.value ∨ digits.value = 2 ^ 63 ∧ n.toInt = -2 ^ 63)
    (htakes : getter.Takes number) (hrep : getter.Represents digits.value) :
    getter.get number = digits.value ↔ ¬ (DecimalLiteral.mk .plus digits).MisreadBy getter := by
  subst hnumber
  rcases hn with hn | ⟨hvalue, hn⟩
  · have hmax := n.toInt_lt
    rw [misreadBy_plus_iff (by omega)]
    rcases lt_or_ge n.toInt (2 ^ 7) with hlt | hge
    · rw [NumberGetter.get_eq_iff (by rw [integer_narrowInt hlt, hn]) htakes hrep]
      exact iff_of_true (fun hneg => by omega) (fun hge => by omega)
    · rw [← hn, get_cutOff_iff hge]
      constructor
      · exact fun hcut hmis => hmis.2 hcut
      · intro hmis
        by_contra hcut
        exact hmis ⟨by omega, hcut⟩
  · have hmin : n = Int64.minValue := Int64.toInt.inj (hn.trans Int64.toInt_minValue.symm)
    subst hmin
    rw [hvalue] at hrep
    obtain ⟨rfl, hget⟩ := get_minValue_iff htakes hrep
    rw [hget]
    refine iff_of_true (by rw [hvalue]; rfl) fun hmis => hmis.2 ?_
    rw [DecimalLiteral.value, hvalue]
    rfl

/-- **Literals with a minus sign.** -/
theorem get_minus_iff {getter : NumberGetter} {number : SexpNumber} {digits : Decimal} {n : Int64}
    (hnumber : number = narrowInt n) (hn : n.toInt = -digits.value)
    (htakes : getter.Takes number) (hrep : getter.Represents (-digits.value)) :
    getter.get number = -digits.value ↔
      ¬ (DecimalLiteral.mk .minus digits).MisreadBy getter := by
  subst hnumber
  rw [NumberGetter.get_eq_iff (by rw [integer_narrowInt (by omega), hn]) htakes hrep, not_iff_not]
  rcases narrowInt_cases n with ⟨hlt, heq⟩ | ⟨hle, hlt, heq⟩ | ⟨hle, hlt, heq⟩ | ⟨hle, heq⟩ <;>
    rw [heq] <;> cases getter <;>
    simp only [SexpNumber.type, NumberGetter.readsUnsigned, DecimalLiteral.MisreadBy,
      DecimalLiteral.value, and_true, Bool.false_eq_true, and_false, false_iff] <;>
    omega

/-- The integers of all result types together. -/
theorem NumberGetter.Represents.bounds {getter : NumberGetter} {n : ℤ}
    (h : getter.Represents n) : -2 ^ 63 ≤ n ∧ n < 2 ^ 64 := by
  obtain ⟨hmin, hmax⟩ := h
  cases getter <;> simp only [NumberGetter.minimum, NumberGetter.maximum] at hmin hmax <;> omega

/-- **When a getter returns the integer that a number was constructed of or written as**: of
every number that may be stored for it by a type that the getter takes, if the integer is one of
the result type. -/
theorem getters_exact_iff (strtoDouble : List UInt8 → UInt64 × Option Errno)
    (source : NumberSource) (number : SexpNumber) (getter : NumberGetter)
    (hstores : source.Stores strtoDouble number) (htakes : getter.Takes number)
    (hrep : getter.Represents source.integer) :
    getter.get number = source.integer ↔ ¬ source.MisreadBy getter := by
  cases source with
  | constructed c =>
      obtain rfl : number = c.number := hstores
      exact NumberGetter.get_eq_iff c.integer_number htakes hrep
  | written literal =>
      obtain ⟨eofok, rest, hparse⟩ := hstores
      have hconvert := parseNumber_literal hparse
      obtain ⟨hmin, hmax⟩ := hrep.bounds
      obtain ⟨sign, digits⟩ := literal
      cases sign with
      | none =>
          change (digits.value : ℤ) < 2 ^ 64 at hmax
          have hlt : digits.value < 2 ^ 64 := by omega
          have hinteger := integer_of_unsigned hlt hconvert
          refine iff_of_true ?_ id
          change getter.get number = (digits.value : ℤ)
          rw [NumberGetter.get_eq_iff hinteger htakes hrep]
          exact fun hneg => absurd hneg.1 (Int.not_lt.mpr (Int.natCast_nonneg _))
      | plus =>
          change (digits.value : ℤ) < 2 ^ 64 at hmax
          have hlt : digits.value < 2 ^ 64 := by omega
          obtain ⟨n, hnumber, hn⟩ := narrowInt_of_plus hlt hconvert
          exact get_plus_iff hnumber hn htakes hrep
      | minus =>
          change -2 ^ 63 ≤ -(digits.value : ℤ) at hmin
          have hle : digits.value ≤ 2 ^ 63 := by omega
          obtain ⟨n, hnumber, hn⟩ := narrowInt_of_minus hle hconvert
          exact get_minus_iff hnumber hn htakes hrep

/-- `-5`, read as an integer of 64 bits. -/
theorem getters_exact_iff_negative :
    NumberGetter.geti64.get (.int8 0xfb) = -5 ↔
      ¬ (NumberSource.written ⟨.minus, printedDigits 5⟩).MisreadBy .geti64 :=
  getters_exact_iff (fun _ => (0, some .einval))
    (.written ⟨.minus, printedDigits 5⟩) (.int8 0xfb) .geti64
    ⟨false, [ascii ')'], rfl⟩ (by decide) (by decide)

/-- The number -1 of 8 bits is 255 as an integer of 32 bits. -/
theorem not_getters_exact :
    ¬ ∀ (strtoDouble : List UInt8 → UInt64 × Option Errno) (source : NumberSource)
      (number : SexpNumber) (getter : NumberGetter), source.Stores strtoDouble number →
      getter.Takes number → getter.Represents source.integer →
      getter.get number = source.integer := by
  intro h
  have hget := h (fun _ => (0, some .einval)) (.constructed (.newi8 (-1))) _ .geti32 rfl
    (by decide) (by decide)
  exact absurd hget (by decide)

end OpenScap
