import Mathlib.Data.List.Induction
import OpenScap.ChunkedReader
import OpenScap.SexpParseNumber
import OpenScap.Xbase64

/-!
# The parser of S-expressions

`SEXP_parse` as it is called with one buffer after another. What it keeps between the calls is all
of its state: the offset in the buffers, how much of the expression at hand was looked at and the
label where to go on with it, the class and the stage of a number, the datatype that was read for
the next expression, and the lists that are open. Inside of a list the end of a buffer is not the
end of an expression.

Assertions are compiled in. Memory can be allocated, and the buffers together are shorter than
2^64 octets. Numbers with a fraction or an exponent are left to a parameter.

## Main results

* `numberContInt_erase` — the states of a number with what is kept of them are those without;
* `step_next_lt` — every turn of the loop moves on, whatever the buffer contains, so that the
  loop ends;
* `sexpParseAll_eq_run` — the calls with one buffer after another are a run of the reader.
-/

namespace OpenScap

open ChunkedReader

/-! ### S-expressions -/

/-- `SEXP_t` with the name of its datatype. -/
inductive TypedSexp
  | number (type : Option (List UInt8)) (n : SexpNumber)
  | string (type : Option (List UInt8)) (s : List UInt8)
  | list (type : Option (List UInt8)) (members : List TypedSexp)

namespace SexpParser

/-! ### The state -/

/-- `p_label`, where it is set. -/
inductive Label
  | none
  | char
  | charFixed
  | number
  | dtype
  | dtypeFixed
  | b64s
  | b64sFixed
  | hash
  deriving DecidableEq

/-- `p_numstage`, where it is set. -/
inductive NumStage
  | none
  | contInt
  | finalExp
  | finalExp2
  | finalFlt
  deriving DecidableEq

/-- A list that is open, with its datatype and the members so far. -/
structure Frame where
  type : Option (List UInt8)
  members : List TypedSexp

/-- `SEXP_pstate_t` without the buffer. `done` is whether the parser returns successfully where
the buffer is used up, `type` is the datatype of the expression at hand, and `list` and `stack`
are the list at the bottom of the list stack and the others, the innermost one first. -/
structure PState where
  bufoff : ℕ
  explen : ℕ
  eofok : Bool
  eofok0 : Bool
  label : Label
  numclass : Option NumClass
  numstage : NumStage
  type : Option (List UInt8)
  done : Bool
  list : List TypedSexp
  stack : List Frame

/-- `SEXP_pstate_new`, with the flags of the parser's settings. -/
def fresh (eofok : Bool) : PState where
  bufoff := 0
  explen := 0
  eofok := eofok
  eofok0 := false
  label := .none
  numclass := none
  numstage := .none
  type := none
  done := true
  list := []
  stack := []

/-- How the parser fails: an error, a failed assertion or an octet it denies, or memory that it
does not own. -/
inductive Failure
  | einval
  | eundef
  | abort
  | undefined
  deriving DecidableEq

/-- What a part of the parser comes to. -/
abbrev Parsing := Reading PState Failure

/-- A member more of the innermost list that is open, if there is one. -/
def putStack (x : TypedSexp) : List Frame → List Frame
  | [] => []
  | f :: fs => { f with members := f.members ++ [x] } :: fs

/-- `SEXP_list_add` to the list at the top of the stack. -/
def PState.put (s : PState) (x : TypedSexp) : PState :=
  { s with
    list := if s.stack.isEmpty then s.list ++ [x] else s.list
    stack := putStack x s.stack }

/-- `L_SEXP_ADD`. -/
def PState.add (s : PState) (x : TypedSexp) : PState :=
  { s.put x with
    type := none
    bufoff := s.bufoff + s.explen
    explen := 0
    numclass := none
    numstage := .none
    done := true }

/-- How much of an expression was looked at, its first octet counted. -/
def PState.start (s : PState) : ℕ := if s.explen = 0 then 1 else s.explen

theorem PState.start_pos (s : PState) : 0 < s.start := by
  rw [PState.start]
  split <;> omega

/-! ### Strings and datatypes -/

/-- `L_CHAR`, `SEXP_parse_ul_string_si`. -/
def labelChar (t : List UInt8) (s : PState) : Parsing :=
    let explen := s.start + ((t.drop s.start).takeWhile (!isnextexp ·)).length
  if (t.drop s.start).any isnextexp || s.eofok then
    .next ({ s with label := .char, explen := explen }.add (.string s.type (t.take explen)))
  else .wait { s with label := .char, explen := explen }

/-- `L_CHAR_FIXEDLEN`, `SEXP_parse_kl_string`. Octets cannot be picked from the end of the
buffer on, also where they are none. -/
def labelCharFixed (buffer : List UInt8) (s : PState) : Parsing :=
  let t := buffer.drop s.bufoff
  let s := { s with label := .charFixed }
  if 2 ^ 64 ≤ s.bufoff + s.explen then .fail .undefined
  else if buffer.length < s.bufoff + s.explen then .wait s
  else if t = [] then .fail .eundef
  else .next (s.add (.string s.type (t.take s.explen)))

/-- The octet that an escaped one stands for. -/
def escapedOctet (c : UInt8) : UInt8 :=
  if c = ascii 'n' then 10
  else if c = ascii 't' then 9
  else if c = ascii 'r' then 13
  else if c = ascii '0' then 0
  else if c = ascii 'a' then 7
  else if c = ascii 'b' then 8
  else if c = ascii 'v' then 11
  else if c = ascii 'f' then 12
  else c

/-- What is found behind a double quote. -/
inductive QuotedScan
  | found (value : List UInt8) (explen : ℕ)
  | unfinished (explen : ℕ)
  | abort

/-- The loop of `SEXP_parse_ul_string_dq`. -/
def scanQuoted (value : List UInt8) (explen : ℕ) : List UInt8 → QuotedScan
  | [] => .unfinished explen
  | [c] => if c = 34 then .found value (explen + 1)
      else .unfinished (if c = 92 then explen else explen + 1)
  | c :: d :: rest =>
      if c = 34 then .found value (explen + 1)
      else if c = 92 then
        if d = ascii 'x' then .abort else scanQuoted (value ++ [escapedOctet d]) (explen + 2) rest
      else scanQuoted (value ++ [c]) (explen + 1) (d :: rest)

/-- `L_DQUOTE`, `SEXP_parse_ul_string_dq`, at the quote. The label is not set. -/
def labelDquote (t : List UInt8) (s : PState) : Parsing :=
  match scanQuoted [] 1 (t.drop 1) with
  | .found value explen => .next ({ s with explen := explen }.add (.string s.type value))
  | .unfinished explen => .wait { s with explen := explen }
  | .abort => .fail .abort

/-- `L_SQUOTE`, `SEXP_parse_ul_string_sq`, at the quote. The label is not set. -/
def labelSquote (t : List UInt8) (s : PState) : Parsing :=
  let explen := 1 + ((t.drop 1).takeWhile (· ≠ 39)).length
  if (t.drop 1).contains 39 then
    .next ({ s with explen := explen + 1 }.add (.string s.type ((t.drop 1).take (explen - 1))))
  else .wait { s with explen := explen }

/-- The name of a datatype, as a C string. -/
def datatypeName (octets : List UInt8) : List UInt8 := octets.takeWhile (· ≠ 0)

/-- `L_BRACKETOPEN`, `SEXP_parse_ul_datatype`. -/
def labelBracketopen (t : List UInt8) (s : PState) : Parsing :=
    let explen := s.start + ((t.drop s.start).takeWhile (· ≠ 93)).length
  if s.type.isSome then .fail .abort
  else if (t.drop s.start).contains 93 then
    .next { s with
      label := .dtype
      type := some (datatypeName ((t.drop 1).take (explen - 1)))
      bufoff := s.bufoff + (explen + 1)
      explen := 0
      done := false }
  else .wait { s with label := .dtype, explen := explen }

/-- `L_BRACKETOPEN_FIXEDLEN`, `SEXP_parse_kl_datatype`. The closing bracket is not looked at. -/
def labelBracketopenFixed (buffer : List UInt8) (s : PState) : Parsing :=
  let t := buffer.drop s.bufoff
  let s := { s with label := .dtypeFixed }
  if 2 ^ 64 ≤ s.bufoff + s.explen + 2 then .fail .undefined
  else if buffer.length < s.bufoff + s.explen + 2 then .wait s
  else
    .next { s with
      type := some (datatypeName ((t.drop 1).take s.explen))
      bufoff := s.bufoff + (s.explen + 2)
      explen := 0
      done := false }

/-- The octets of base64. -/
def isbase64 (c : UInt8) : Bool := isalnum c || [ascii '=', ascii '+', ascii '/'].contains c

/-- What was encoded, if it is anything. -/
def addBase64 (encoded : List UInt8) (explen : ℕ) (s : PState) : Parsing :=
  match base64Decode encoded with
  | none => .fail .undefined
  | some [] => .fail .einval
  | some (b :: bs) => .next ({ s with explen := explen }.add (.string s.type (b :: bs)))

/-- `L_VERTBAR`, `SEXP_parse_ul_string_b64`. -/
def labelVertbar (t : List UInt8) (s : PState) : Parsing :=
    let explen := s.start + ((t.drop s.start).takeWhile isbase64).length
  let s := { s with label := .b64s }
  match t.drop explen with
  | [] => .wait { s with explen := explen }
  | c :: _ =>
      if c = 124 then addBase64 ((t.drop 1).take (explen - 1)) (explen + 1) s else .fail .einval

/-- `L_VERTBAR_FIXEDLEN`, `SEXP_parse_kl_string_b64`. The closing bar is not looked at, and may be
missing yet. -/
def labelVertbarFixed (t : List UInt8) (s : PState) : Parsing :=
  let s := { s with label := .b64sFixed }
  if t.drop 1 = [] ∨ (t.drop 1).length < s.explen then .fail .eundef
  else addBase64 ((t.drop 1).take s.explen) (s.explen + 2) s

/-! ### Numbers -/

/-- Where the states of a number lead, with its class and how much of it was looked at. -/
inductive NumberStop
  | stage3 (cls : NumClass) (explen : ℕ)
  | invalid
  | unfinished (cls : NumClass) (stage : NumStage) (explen : ℕ)

/-- `L_NUMBER_final_exp2`, with the character in front. -/
def numberFinalExp2 (eofok : Bool) (explen : ℕ) (prev : UInt8) (rest : List UInt8) : NumberStop :=
  let digits := rest.takeWhile isdigit
  if rest.dropWhile isdigit = [] then
    if eofok then .stage3 .exp (explen + digits.length)
    else .unfinished .exp .finalExp2 (explen + digits.length)
  else if isdigit (digits.getLast?.getD prev) then .stage3 .exp (explen + digits.length)
  else .invalid

/-- `L_NUMBER_final_exp`, with the character in front. -/
def numberFinalExp (eofok : Bool) (explen : ℕ) (prev : UInt8) : List UInt8 → NumberStop
  | [] => if eofok then .invalid else .unfinished .exp .finalExp explen
  | c :: rest =>
      if c = ascii '+' ∨ c = ascii '-' then numberFinalExp2 eofok (explen + 1) c rest
      else numberFinalExp2 eofok explen prev (c :: rest)

/-- `L_NUMBER_final_flt`. -/
def numberFinalFlt (eofok : Bool) (explen : ℕ) (rest : List UInt8) : NumberStop :=
  let explen := explen + (rest.takeWhile isdigit).length
  match rest.dropWhile isdigit with
  | [] => if eofok then .stage3 .flt explen else .unfinished .flt .finalFlt explen
  | c :: rest =>
      if isnextexp c then .stage3 .flt explen
      else if c = ascii 'e' ∨ c = ascii 'E' then numberFinalExp eofok (explen + 1) c rest
      else .invalid

/-- `L_NUMBER_stage2`, at a character that is no digit. -/
def numberStage2 (eofok : Bool) (cls : NumClass) (explen : ℕ) (c : UInt8) (rest : List UInt8) :
    NumberStop :=
  if c = ascii '.' then numberFinalFlt eofok (explen + 1) rest
  else if c = ascii 'e' ∨ c = ascii 'E' then numberFinalExp eofok (explen + 1) c rest
  else .stage3 cls explen

/-- `L_NUMBER_cont_int`. -/
def numberContInt (eofok : Bool) (cls : NumClass) (explen : ℕ) (rest : List UInt8) : NumberStop :=
  let explen := explen + (rest.takeWhile isdigit).length
  match rest.dropWhile isdigit with
  | [] => if eofok then .stage3 cls explen else .unfinished cls .contInt explen
  | c :: rest => numberStage2 eofok cls explen c rest

/-- The labels that the assertion on the offset leaves out. -/
def Label.fixed : Label → Bool
  | .charFixed | .dtypeFixed | .b64sFixed => true
  | _ => false

/-- What is checked of the state at the beginning: an assertion, and an offset behind the end,
where nothing was looked at, is an error without a name. -/
def check (buffer : List UInt8) (s : PState) : Option Failure :=
  if s.label.fixed = false ∧ buffer.length ≤ s.bufoff + s.explen then some .abort
  else if s.explen = 0 ∧ buffer.length ≤ s.bufoff then some .eundef
  else none

section Parser

variable (strtoDouble : List UInt8 → UInt64 × Option Errno)

/-- `L_NUMBER_stage3`: a number, or the length of the expression behind it. -/
def labelNumberStage3 (buffer : List UInt8) (cls : NumClass) (explen : ℕ) (s : PState) : Parsing :=
  match stage3 strtoDouble cls explen (buffer.drop s.bufoff) with
  | .number n _ => .next ({ s with explen := explen }.add (.number s.type n))
  | .lengthPrefix length (c :: _) =>
      let s := { s with bufoff := s.bufoff + explen, explen := length.toNat, numclass := none }
      if c = ascii ':' then labelCharFixed buffer { s with bufoff := s.bufoff + 1 }
      else if c = 124 then labelVertbarFixed (buffer.drop s.bufoff) s
      else if c = 91 then labelBracketopenFixed buffer s
      else .fail .einval
  | .lengthPrefix _ [] | .invalid | .unfinished | .char => .fail .einval

/-- What follows the states of a number. -/
def numberStop (buffer : List UInt8) (s : PState) : NumberStop → Parsing
  | .stage3 cls explen => labelNumberStage3 strtoDouble buffer cls explen s
  | .invalid => .fail .einval
  | .unfinished cls stage explen =>
      .wait { s with numclass := some cls, numstage := stage, explen := explen }

/-- `L_NUMBER`. -/
def labelNumber (buffer : List UInt8) (s : PState) : Parsing :=
  let t := buffer.drop s.bufoff
  let s := { s with label := .number }
  if 0 < s.explen then
    let prev := (t.drop (s.explen - 1)).headD 0
    match s.numstage, s.numclass with
    | .contInt, some cls =>
        numberStop strtoDouble buffer s (numberContInt s.eofok cls s.explen (t.drop s.explen))
    | .finalExp, some _ =>
        numberStop strtoDouble buffer s (numberFinalExp s.eofok s.explen prev (t.drop s.explen))
    | .finalExp2, some _ =>
        numberStop strtoDouble buffer s (numberFinalExp2 s.eofok s.explen prev (t.drop s.explen))
    | .finalFlt, some _ =>
        numberStop strtoDouble buffer s (numberFinalFlt s.eofok s.explen (t.drop s.explen))
    | _, _ => .fail .abort
  else if isdigit (t.headD 0) then
    let cls := if s.numclass = some .int then .int else .uint
    numberStop strtoDouble buffer s (numberContInt s.eofok cls 1 (t.drop 1))
  else .fail .einval

/-- `L_PLUS`, `L_MINUS`. -/
def labelSign (buffer : List UInt8) (s : PState) : Parsing :=
  let t := buffer.drop s.bufoff
  match t with
  | _ :: d :: rest =>
      if isdigit d then
        numberStop strtoDouble buffer { s with label := .number }
          (numberContInt s.eofok .int (s.explen + 1) (t.drop (s.explen + 1)))
      else if d = ascii '.' then
        match rest with
        | e :: _ =>
            if isdigit e then
              numberStop strtoDouble buffer { s with label := .number }
                (numberFinalFlt s.eofok (s.explen + 2) (t.drop (s.explen + 2)))
            else labelChar t { s with explen := s.explen + 2 }
        | [] => if s.eofok then labelChar t { s with explen := s.explen + 2 } else .wait s
      else labelChar t { s with explen := s.explen + 1 }
  | _ => if s.eofok then labelChar t { s with explen := s.explen + 1 } else .wait s

/-- `L_DOT`. -/
def labelDot (buffer : List UInt8) (s : PState) : Parsing :=
  let t := buffer.drop s.bufoff
  match t with
  | _ :: _ :: _ =>
      if (t.drop (s.explen + 1)).head?.any isdigit then
        numberStop strtoDouble buffer { s with label := .number }
          (numberFinalFlt s.eofok (s.explen + 1) (t.drop (s.explen + 1)))
      else labelChar t { s with explen := s.explen + 1 }
  | _ => if s.eofok then labelChar t s else .wait s

/-- `L_HASH`. The base that is named does not matter for the number. -/
def labelHash (buffer : List UInt8) (s : PState) : Parsing :=
  match buffer.drop s.bufoff with
  | _ :: c :: rest =>
      if c = ascii 'T' then
        .next ({ s with bufoff := s.bufoff + 1, explen := 1 }.add (.number s.type (.bool 1)))
      else if c = ascii 'F' then
        .next ({ s with bufoff := s.bufoff + 1, explen := 1 }.add (.number s.type (.bool 0)))
      else if [ascii 'b', ascii 'd', ascii 'x', ascii 'o'].contains c then
        match rest with
        | [] => .wait { s with label := .hash }
        | d :: _ =>
            let s := { s with bufoff := s.bufoff + 2 }
            if d = ascii '+' ∨ d = ascii '-' then labelSign strtoDouble buffer s
            else if d = ascii '.' then labelDot strtoDouble buffer s
            else if isdigit d then labelNumber strtoDouble buffer s
            else .fail .einval
      else .fail .einval
  | _ => .wait { s with label := .hash }

/-! ### The loop -/

/-- `L_WHITESPACE`. -/
def labelWhitespace (t : List UInt8) (s : PState) : Parsing :=
  .next { s with bufoff := s.bufoff + (t.takeWhile isspace).length, done := true }

/-- `L_PAROPEN`. Inside of the outermost list the end of the buffer is not the end of an
expression. -/
def labelParopen (s : PState) : Parsing :=
  .next { s with
    stack := ⟨s.type, []⟩ :: s.stack
    type := none
    eofok0 := if s.stack.isEmpty then s.eofok else s.eofok0
    eofok := if s.stack.isEmpty then false else s.eofok
    bufoff := s.bufoff + 1
    done := false }

/-- `L_PARCLOSE`. -/
def labelParclose (s : PState) : Parsing :=
  if s.type.isSome then .fail .einval
  else
    match s.stack with
    | [] => .fail .einval
    | f :: fs =>
        .next { { s with stack := fs }.put (.list f.type f.members) with
          eofok := if fs.isEmpty then s.eofok0 else s.eofok
          bufoff := s.bufoff + 1
          done := true }

/-- The octets at which a string begins that has no quotes. -/
def isLChar (c : UInt8) : Bool :=
  isalpha c || [33, 36, 37, 38, 42, 47, 58, 59, 60, 61, 62, 63, 64, 92, 94, 95, 96, 126].contains c

/-- The label of the first octet of an expression. -/
def jump (buffer : List UInt8) (s : PState) (c : UInt8) (t : List UInt8) : Parsing :=
  if isspace c then labelWhitespace t s
  else if c = 40 then labelParopen s
  else if c = 41 then labelParclose s
  else if c = 35 then labelHash strtoDouble buffer s
  else if c = 34 then labelDquote t s
  else if c = 39 then labelSquote t s
  else if isdigit c then labelNumber strtoDouble buffer s
  else if c = ascii '+' ∨ c = ascii '-' then labelSign strtoDouble buffer s
  else if c = ascii '.' then labelDot strtoDouble buffer s
  else if c = 91 then labelBracketopen t s
  else if c = 124 then labelVertbar t s
  else if c = 123 then .fail .einval
  else if isLChar c then labelChar t s
  else .fail .abort

/-- The jump by the first octet of the next expression. -/
def dispatch (buffer : List UInt8) (s : PState) : Parsing :=
  match buffer.drop s.bufoff with
  | [] => .next s
  | c :: rest => jump strtoDouble buffer s c (c :: rest)

/-- A turn of the loop, or what an expression is taken up with of which something was looked at:
the jump by the label. -/
def step (buffer : List UInt8) (s : PState) : Parsing :=
  if 0 < s.explen then
    match s.label with
    | .none => .fail .abort
    | .char => labelChar (buffer.drop s.bufoff) s
    | .charFixed => labelCharFixed buffer s
    | .number => labelNumber strtoDouble buffer s
    | .dtype => labelBracketopen (buffer.drop s.bufoff) s
    | .dtypeFixed => labelBracketopenFixed buffer s
    | .b64s => labelVertbar (buffer.drop s.bufoff) s
    | .b64sFixed => labelVertbarFixed (buffer.drop s.bufoff) s
    | .hash => labelHash strtoDouble buffer s
  else dispatch strtoDouble buffer s

/-- The parser as a reader of buffers: where they are used up and no list is open, it delivers
what it has read. -/
def reader (eofok : Bool) : Reader PState UInt8 Failure TypedSexp where
  check := check
  step := step strtoDouble
  offset := PState.bufoff
  fresh := fresh eofok
  deliver s := if s.done && s.stack.isEmpty then some s.list else none

/-- What `SEXP_parse` returns: a list, no list and the state with all the buffers, or no list and
an error in the state. -/
inductive ParseResult
  | list (xs : List TypedSexp)
  | unfinished (s : PState) (buffer : List UInt8)
  | error (e : Failure)

/-- `SEXP_parse` with the state of the last call, if there is one, and the buffers so far. -/
def sexpParse (eofok : Bool) (pstate : Option (PState × List UInt8)) (buffer : List UInt8) :
    ParseResult :=
  let (s, held) := pstate.getD (fresh eofok, [])
  let text := held ++ buffer
  if text = [] then .list []
  else
    match (reader strtoDouble eofok).arrive text s with
    | .fail e => .error e
    | .wait s => .unfinished s text
    | .next s =>
        match (reader strtoDouble eofok).deliver s with
        | some xs => .list xs
        | none => .unfinished s text

/-- Calls with one buffer after another, as long as there is no error. The lists that are returned
are listed. -/
def sexpParseAll (eofok : Bool) :
    Option (PState × List UInt8) → List (List UInt8) → Except Failure (List (List TypedSexp))
  | _, [] => .ok []
  | pstate, buffer :: buffers =>
      match sexpParse strtoDouble eofok pstate buffer with
      | .list xs => (sexpParseAll eofok none buffers).map (xs :: ·)
      | .unfinished s held => sexpParseAll eofok (some (s, held)) buffers
      | .error e => .error e

end Parser

/-! ### What is kept of a number -/

/-- Where the states lead, without what is kept. -/
def NumberStop.erase : NumberStop → NumberScan
  | .stage3 cls explen => .stage3 cls explen
  | .invalid => .invalid
  | .unfinished _ _ _ => .unfinished

theorem numberFinalExp2_erase (eofok : Bool) (explen : ℕ) (prev : UInt8) (rest : List UInt8) :
    (numberFinalExp2 eofok explen prev rest).erase = finalExp2 eofok explen prev rest := by
  simp only [numberFinalExp2, finalExp2]
  split
  · split <;> rfl
  · split <;> rfl

theorem numberFinalExp_erase (eofok : Bool) (explen : ℕ) (prev : UInt8) (rest : List UInt8) :
    (numberFinalExp eofok explen prev rest).erase = finalExp eofok explen prev rest := by
  cases rest with
  | nil =>
      rw [numberFinalExp, finalExp]
      split <;> rfl
  | cons c rest =>
      rw [numberFinalExp, finalExp]
      split <;> exact numberFinalExp2_erase ..

theorem numberFinalFlt_erase (eofok : Bool) (explen : ℕ) (rest : List UInt8) :
    (numberFinalFlt eofok explen rest).erase = finalFlt eofok explen rest := by
  simp only [numberFinalFlt, finalFlt]
  cases rest.dropWhile isdigit with
  | nil =>
      simp only
      split <;> rfl
  | cons c rest =>
      simp only
      split
      · rfl
      · split
        · exact numberFinalExp_erase ..
        · rfl

/-- The states of a number with what is kept of them lead where they lead without. -/
theorem numberContInt_erase (eofok : Bool) (cls : NumClass) (explen : ℕ) (rest : List UInt8) :
    (numberContInt eofok cls explen rest).erase = contInt eofok cls explen rest := by
  simp only [numberContInt, contInt]
  cases rest.dropWhile isdigit with
  | nil =>
      simp only
      split <;> rfl
  | cons c rest =>
      simp only [numberStage2, stage2]
      split
      · exact numberFinalFlt_erase ..
      · split
        · exact numberFinalExp_erase ..
        · rfl

/-! ### The loop ends -/

section Progress

variable {strtoDouble : List UInt8 → UInt64 × Option Errno} {buffer : List UInt8} {s s' : PState}

/-- A part of the parser goes on behind an offset. -/
def Advances (n : ℕ) (parsing : Parsing) : Prop := ∀ s', parsing = .next s' → n < s'.bufoff

theorem Advances.wait {n : ℕ} (s : PState) : Advances n (.wait s) := by
  rintro s' h
  cases h

theorem Advances.fail {n : ℕ} (e : Failure) : Advances n (.fail e) := by
  rintro s' h
  cases h

theorem Advances.next {n : ℕ} {s : PState} (h : n < s.bufoff) : Advances n (.next s) := by
  rintro s' heq
  cases heq
  exact h

theorem Advances.ite {n : ℕ} {p : Prop} [Decidable p] {x y : Parsing} (hx : p → Advances n x)
    (hy : Advances n y) : Advances n (if p then x else y) := by
  split
  · exact hx ‹p›
  · exact hy

/-- An expression that was added is behind the offset. -/
theorem Advances.add {n : ℕ} {s : PState} (x : TypedSexp) (h : n < s.bufoff + s.explen) :
    Advances n (.next (s.add x)) :=
  Advances.next h

theorem labelChar_advances {n : ℕ} (t : List UInt8) (h : n ≤ s.bufoff) :
    Advances n (labelChar t s) := by
  rw [labelChar]
  split
  · refine .add _ ?_
    change n < s.bufoff + (s.start + _)
    have := s.start_pos
    omega
  · exact .wait _

theorem labelCharFixed_advances {n : ℕ} (h : n < s.bufoff + s.explen) :
    Advances n (labelCharFixed buffer s) := by
  rw [labelCharFixed]
  split
  · exact .fail _
  · split
    · exact .wait _
    · split
      · exact .fail _
      · exact .add _ h

theorem labelBracketopen_advances {n : ℕ} (t : List UInt8) (h : n ≤ s.bufoff) :
    Advances n (labelBracketopen t s) := by
  rw [labelBracketopen]
  split
  · exact .fail _
  · split
    · refine .next ?_
      change n < s.bufoff + (_ + 1)
      omega
    · exact .wait _

theorem labelBracketopenFixed_advances {n : ℕ} (h : n ≤ s.bufoff) :
    Advances n (labelBracketopenFixed buffer s) := by
  rw [labelBracketopenFixed]
  split
  · exact .fail _
  · split
    · exact .wait _
    · refine .next ?_
      change n < s.bufoff + (s.explen + 2)
      omega

theorem addBase64_advances {n explen : ℕ} (encoded : List UInt8) (h : n < s.bufoff + explen) :
    Advances n (addBase64 encoded explen s) := by
  rw [addBase64]
  split
  · exact .fail _
  · exact .fail _
  · exact .add _ h

theorem labelVertbar_advances {n : ℕ} (t : List UInt8) (h : n ≤ s.bufoff) :
    Advances n (labelVertbar t s) := by
  simp only [labelVertbar]
  split
  · exact .wait _
  · split
    · exact addBase64_advances _ (by change n < s.bufoff + (_ + 1); omega)
    · exact .fail _

theorem labelVertbarFixed_advances {n : ℕ} (t : List UInt8) (h : n ≤ s.bufoff) :
    Advances n (labelVertbarFixed t s) := by
  simp only [labelVertbarFixed]
  split
  · exact .fail _
  · exact addBase64_advances _ (by change n < s.bufoff + (s.explen + 2); omega)

/-- A number has at least one character. -/
def NumberStop.Pos : NumberStop → Prop
  | .stage3 _ explen => 0 < explen
  | .invalid | .unfinished _ _ _ => True

theorem pos_of_erase {stop : NumberStop}
    (h : ∀ cls n, stop.erase = .stage3 cls n → 0 < n) : stop.Pos := by
  cases stop with
  | stage3 cls n => exact h cls n rfl
  | invalid | unfinished => trivial

theorem numberStop_advances {n : ℕ} {stop : NumberStop} (hstop : stop.Pos) (h : n ≤ s.bufoff) :
    Advances n (numberStop strtoDouble buffer s stop) := by
  cases stop with
  | invalid => exact .fail _
  | unfinished cls stage explen => exact .wait _
  | stage3 cls explen =>
      have hpos : 0 < explen := hstop
      rw [numberStop, labelNumberStage3]
      split
      · exact .add _ (by change n < s.bufoff + explen; omega)
      · split
        · exact labelCharFixed_advances (by change n < s.bufoff + explen + 1 + _; omega)
        · split
          · exact labelVertbarFixed_advances _ (by change n ≤ s.bufoff + explen; omega)
          · split
            · exact labelBracketopenFixed_advances (by change n ≤ s.bufoff + explen; omega)
            · exact .fail _
      all_goals exact .fail _

theorem numberContInt_pos (eofok : Bool) (cls : NumClass) {explen : ℕ} (rest : List UInt8)
    (h : 0 < explen) : (numberContInt eofok cls explen rest).Pos := by
  refine pos_of_erase fun cls' n hn => ?_
  rw [numberContInt_erase] at hn
  have := (contInt_stage3 hn).1
  omega

theorem numberFinalFlt_pos (eofok : Bool) {explen : ℕ} (rest : List UInt8)
    (h : 0 < explen) : (numberFinalFlt eofok explen rest).Pos := by
  refine pos_of_erase fun cls n hn => ?_
  rw [numberFinalFlt_erase] at hn
  have := (finalFlt_stage3 hn).1
  omega

theorem labelNumber_advances {n : ℕ} (h : n ≤ s.bufoff) :
    Advances n (labelNumber strtoDouble buffer s) := by
  simp only [labelNumber]
  split
  · rename_i hexplen
    split
    · exact numberStop_advances (numberContInt_pos _ _ _ hexplen) h
    · refine numberStop_advances (pos_of_erase fun cls m hm => ?_) h
      rw [numberFinalExp_erase] at hm
      have := (finalExp_stage3 hm).1
      omega
    · refine numberStop_advances (pos_of_erase fun cls m hm => ?_) h
      rw [numberFinalExp2_erase] at hm
      have := (finalExp2_stage3 hm).1
      omega
    · exact numberStop_advances (numberFinalFlt_pos _ _ hexplen) h
    · exact .fail _
  · split
    · exact numberStop_advances (numberContInt_pos _ _ _ Nat.one_pos) h
    · exact .fail _

theorem labelSign_advances {n : ℕ} (h : n ≤ s.bufoff) :
    Advances n (labelSign strtoDouble buffer s) := by
  simp only [labelSign]
  split
  · split
    · exact numberStop_advances (numberContInt_pos _ _ _ (Nat.succ_pos _)) h
    · split
      · split
        · split
          · exact numberStop_advances (numberFinalFlt_pos _ _ (Nat.succ_pos _)) h
          · exact labelChar_advances _ h
        · split
          · exact labelChar_advances _ h
          · exact .wait _
      · exact labelChar_advances _ h
  · split
    · exact labelChar_advances _ h
    · exact .wait _

theorem labelDot_advances {n : ℕ} (h : n ≤ s.bufoff) :
    Advances n (labelDot strtoDouble buffer s) := by
  simp only [labelDot]
  split
  · split
    · exact numberStop_advances (numberFinalFlt_pos _ _ (Nat.succ_pos _)) h
    · exact labelChar_advances _ h
  · split
    · exact labelChar_advances _ h
    · exact .wait _

theorem labelHash_advances {n : ℕ} (h : n ≤ s.bufoff) :
    Advances n (labelHash strtoDouble buffer s) := by
  rw [labelHash]
  split
  · split
    · exact .add _ (by change n < s.bufoff + 1 + 1; omega)
    · split
      · exact .add _ (by change n < s.bufoff + 1 + 1; omega)
      · split
        · split
          · exact .wait _
          · simp only
            split
            · exact labelSign_advances (Nat.le_add_right_of_le h)
            · split
              · exact labelDot_advances (Nat.le_add_right_of_le h)
              · split
                · exact labelNumber_advances (Nat.le_add_right_of_le h)
                · exact .fail _
        · exact .fail _
  · exact .wait _

/-- A quoted string has at least its quotes. -/
theorem scanQuoted_found {value' : List UInt8} {n : ℕ} (t : List UInt8) :
    ∀ {value : List UInt8} {explen : ℕ}, scanQuoted value explen t = .found value' n →
      explen < n := by
  induction t using List.twoStepInduction with
  | nil =>
      intro value explen h
      cases h
  | singleton c =>
      intro value explen h
      rw [scanQuoted] at h
      split at h
      · obtain ⟨-, rfl⟩ := QuotedScan.found.inj h
        exact Nat.lt_succ_self _
      · cases h
  | cons_cons c d rest ih ih' =>
      intro value explen h
      rw [scanQuoted] at h
      split at h
      · obtain ⟨-, rfl⟩ := QuotedScan.found.inj h
        exact Nat.lt_succ_self _
      · split at h
        · split at h
          · cases h
          · have := ih h
            omega
        · have := ih' _ h
          omega

theorem labelDquote_advances {n : ℕ} (t : List UInt8) (h : n ≤ s.bufoff) :
    Advances n (labelDquote t s) := by
  rw [labelDquote]
  split
  · rename_i value explen hscan
    have := scanQuoted_found _ hscan
    exact .add _ (by change n < s.bufoff + explen; omega)
  · exact .wait _
  · exact .fail _

theorem labelSquote_advances {n : ℕ} (t : List UInt8) (h : n ≤ s.bufoff) :
    Advances n (labelSquote t s) := by
  rw [labelSquote]
  split
  · exact .add _ (by change n < s.bufoff + (_ + 1); omega)
  · exact .wait _

theorem labelParclose_advances {n : ℕ} (h : n ≤ s.bufoff) : Advances n (labelParclose s) := by
  rw [labelParclose]
  split
  · exact .fail _
  · split
    · exact .fail _
    · exact .next (Nat.lt_succ_of_le h)

theorem dispatch_advances (h : s.bufoff < buffer.length) :
    Advances s.bufoff (dispatch strtoDouble buffer s) := by
  obtain ⟨c, rest, ht⟩ : ∃ c rest, buffer.drop s.bufoff = c :: rest :=
    List.exists_cons_of_ne_nil fun hnil => absurd (List.drop_eq_nil_iff.mp hnil) (by omega)
  rw [dispatch, ht]
  change Advances s.bufoff (jump strtoDouble buffer s c (c :: rest))
  rw [jump]
  refine .ite (fun hspace => .next ?_) <| .ite (fun _ => .next (Nat.lt_succ_self _)) <|
    .ite (fun _ => labelParclose_advances (Nat.le_refl _)) <|
    .ite (fun _ => labelHash_advances (Nat.le_refl _)) <|
    .ite (fun _ => labelDquote_advances _ (Nat.le_refl _)) <|
    .ite (fun _ => labelSquote_advances _ (Nat.le_refl _)) <|
    .ite (fun _ => labelNumber_advances (Nat.le_refl _)) <|
    .ite (fun _ => labelSign_advances (Nat.le_refl _)) <|
    .ite (fun _ => labelDot_advances (Nat.le_refl _)) <|
    .ite (fun _ => labelBracketopen_advances _ (Nat.le_refl _)) <|
    .ite (fun _ => labelVertbar_advances _ (Nat.le_refl _)) <|
    .ite (fun _ => .fail _) <|
    .ite (fun _ => labelChar_advances _ (Nat.le_refl _)) (.fail _)
  change s.bufoff < s.bufoff + ((c :: rest).takeWhile isspace).length
  rw [List.takeWhile_cons_of_pos hspace, List.length_cons]
  omega

/-- **Every turn of the loop moves on**, whatever the buffer contains. -/
theorem step_next_lt (h : s.bufoff < buffer.length)
    (hstep : step strtoDouble buffer s = .next s') : s.bufoff < s'.bufoff := by
  suffices Advances s.bufoff (step strtoDouble buffer s) from this s' hstep
  rw [step]
  split
  · split
    · exact .fail _
    · exact labelChar_advances _ (Nat.le_refl _)
    · exact labelCharFixed_advances (by omega)
    · exact labelNumber_advances (Nat.le_refl _)
    · exact labelBracketopen_advances _ (Nat.le_refl _)
    · exact labelBracketopenFixed_advances (Nat.le_refl _)
    · exact labelVertbar_advances _ (Nat.le_refl _)
    · exact labelVertbarFixed_advances _ (Nat.le_refl _)
    · exact labelHash_advances (Nat.le_refl _)
  · exact dispatch_advances h

/-- The loop does not depend on how many turns it is given, if they are more than the octets that
are left. -/
theorem drain_eq {eofok : Bool} {fuel : ℕ} (h : buffer.length - s.bufoff < fuel) :
    (reader strtoDouble eofok).drain buffer fuel s =
      (reader strtoDouble eofok).drain buffer (buffer.length + 1) s :=
  Reader.drain_fuel (fun _ _ => step_next_lt) h (by change buffer.length - s.bufoff < _; omega)

end Progress

/-! ### Calls -/

/-- **Calls with one buffer after another are a run of the reader.** -/
theorem sexpParseAll_eq_run (strtoDouble : List UInt8 → UInt64 × Option Errno) (eofok : Bool)
    (buffers : List (List UInt8)) (hne : ∀ b ∈ buffers, b ≠ [])
    (pstate : Option (PState × List UInt8)) :
    sexpParseAll strtoDouble eofok pstate buffers =
      (reader strtoDouble eofok).run (pstate.getD (fresh eofok, [])).1
        (pstate.getD (fresh eofok, [])).2 buffers := by
  induction buffers generalizing pstate with
  | nil => rfl
  | cons buffer buffers ih =>
      have hbuffer : (pstate.getD (fresh eofok, [])).2 ++ buffer ≠ [] :=
        List.append_ne_nil_of_right_ne_nil _ (hne buffer (List.mem_cons_self ..))
      have ih' := ih fun b hb => hne b (List.mem_cons_of_mem _ hb)
      simp only [sexpParseAll, sexpParse, Reader.run, if_neg hbuffer]
      cases (reader strtoDouble eofok).arrive ((pstate.getD (fresh eofok, [])).2 ++ buffer)
          (pstate.getD (fresh eofok, [])).1 with
      | fail e => rfl
      | wait s => exact ih' (some (s, _))
      | next s =>
          simp only
          cases (reader strtoDouble eofok).deliver s with
          | none => exact ih' (some (s, _))
          | some xs =>
              simp only
              rw [ih' none]
              rfl

end SexpParser

end OpenScap
