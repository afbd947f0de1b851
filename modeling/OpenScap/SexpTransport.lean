import Mathlib.Data.List.TakeWhile
import OpenScap.SexpParseLiteral

/-!
# S-expressions from one end to the other

What `SEXP_sbprintf_t` prints and `SEXP_parse` reads, when the text comes in buffers that begin and
end anywhere. A number is stored by another type than before, but is the same integer. The parser
waits where a buffer ends inside of an expression, and takes it up again with the next one; only
when a buffer ends just behind the length of an empty string it fails, because it picks no octets
from behind the end.

The tokens of a printed text are its parentheses, and its numbers, strings and datatypes with the
number signs in front of them.

## Main results

* `readsToken` — each token is read, wherever the buffers end;
* `transport_iff` — printed lists arrive as they were, in order, exactly when no buffer ends behind
  the length of an empty string.
-/

namespace OpenScap

open ChunkedReader

/-! ### Printing -/

/-- A number sign, a letter and digits in front of a character. -/
def sbprintfLength (length : ℕ) (c : UInt8) : List UInt8 :=
  ascii '#' :: ascii 'd' :: (formatLu length ++ [c])

/-- `SEXP_sbprintf_t`, the datatype. The buffer has 65 characters. -/
def sbprintfType : Option (List UInt8) → Option (List UInt8)
  | none => some []
  | some name =>
      let text := sbprintfLength name.length 91 ++ name ++ [93]
      if text.length < 65 then some text else none

/-- `SEXP_sbprintf_t` at a string. The buffer for its length has 21 characters. -/
def sbprintfString (s : List UInt8) : Option (List UInt8) :=
  let text := sbprintfLength s.length (ascii ':')
  if text.length < 21 then some (text ++ s) else none

section Print

variable (formatG : UInt64 → List UInt8)

mutual

/-- `SEXP_sbprintf_t`, unless an assertion fails. -/
def sbprintf : TypedSexp → Option (List UInt8)
  | .number type n => do
      let prefixed ← sbprintfType type
      return prefixed ++ sbprintfNumber formatG n
  | .string type s => do
      let prefixed ← sbprintfType type
      let text ← sbprintfString s
      return prefixed ++ text
  | .list type xs => do
      let prefixed ← sbprintfType type
      let text ← sbprintfMembers xs
      return prefixed ++ 40 :: text ++ [41]

/-- `SEXP_sbprintf_t` at the members of a list, with nothing between them. -/
def sbprintfMembers : List TypedSexp → Option (List UInt8)
  | [] => some []
  | x :: xs => do
      let text ← sbprintf x
      let rest ← sbprintfMembers xs
      return text ++ rest

end

end Print

mutual

/-- What is stored for a printed S-expression. -/
def TypedSexp.reread : TypedSexp → TypedSexp
  | .number type n => .number type n.reread
  | .string type s => .string type s
  | .list type xs => .list type (rereadMembers xs)

/-- What is stored for the members of a printed list. -/
def rereadMembers : List TypedSexp → List TypedSexp
  | [] => []
  | x :: xs => x.reread :: rereadMembers xs

end

/-- What an S-expression says, whatever its numbers are stored by. -/
inductive Datum
  | number (type : Option (List UInt8)) (integer : Option ℤ)
  | string (type : Option (List UInt8)) (s : List UInt8)
  | list (type : Option (List UInt8)) (members : List Datum)

mutual

/-- What an S-expression says. -/
def TypedSexp.datum : TypedSexp → Datum
  | .number type n => .number type n.integer
  | .string type s => .string type s
  | .list type xs => .list type (datumMembers xs)

/-- What the members of a list say. -/
def datumMembers : List TypedSexp → List Datum
  | [] => []
  | x :: xs => x.datum :: datumMembers xs

end

mutual

/-- **What is stored for a printed S-expression says the same.** -/
theorem TypedSexp.datum_reread (x : TypedSexp) : x.reread.datum = x.datum := by
  cases x with
  | number type n => rw [TypedSexp.reread, TypedSexp.datum, TypedSexp.datum, n.integer_reread]
  | string type s => rw [TypedSexp.reread]
  | list type xs => rw [TypedSexp.reread, TypedSexp.datum, TypedSexp.datum, datumMembers_reread xs]

/-- What is stored for the members of a printed list says the same. -/
theorem datumMembers_reread (xs : List TypedSexp) :
    datumMembers (rereadMembers xs) = datumMembers xs := by
  cases xs with
  | nil => rw [rereadMembers]
  | cons x xs => rw [rereadMembers, datumMembers, datumMembers, x.datum_reread, datumMembers_reread xs]

end

/-- The name of a datatype, as the library makes it. -/
def TypeNamed : Option (List UInt8) → Prop
  | none => True
  | some name => name ≠ [] ∧ 0 ∉ name

mutual

/-- An S-expression of integers, truth values, strings and lists, whose datatypes have names. -/
def TypedSexp.Plain : TypedSexp → Prop
  | .number type n => TypeNamed type ∧ n.integer.isSome ∧ (∀ b, n = .bool b → b ≤ 1)
  | .string type _ => TypeNamed type
  | .list type xs => TypeNamed type ∧ PlainMembers xs

/-- The members of a list are plain. -/
def PlainMembers : List TypedSexp → Prop
  | [] => True
  | x :: xs => x.Plain ∧ PlainMembers xs

end

namespace SexpParser

/-! ### Tokens -/

/-- The parts of a printed text. -/
inductive Token
  | datatype (name : List UInt8)
  | number (n : SexpNumber)
  | string (s : List UInt8)
  | paropen
  | parclose

/-- The text of a token. -/
def Token.text (formatG : UInt64 → List UInt8) : Token → List UInt8
  | .datatype name => sbprintfLength name.length 91 ++ name ++ [93]
  | .number n => sbprintfNumber formatG n
  | .string s => sbprintfLength s.length (ascii ':') ++ s
  | .paropen => [40]
  | .parclose => [41]

/-- The token of a datatype, if there is one. -/
def typeTokens : Option (List UInt8) → List Token
  | none => []
  | some name => [.datatype name]

mutual

/-- The tokens of a printed S-expression. -/
def exprTokens : TypedSexp → List Token
  | .number type n => typeTokens type ++ [.number n]
  | .string type s => typeTokens type ++ [.string s]
  | .list type xs => typeTokens type ++ .paropen :: (membersTokens xs ++ [.parclose])

/-- The tokens of the members of a printed list. -/
def membersTokens : List TypedSexp → List Token
  | [] => []
  | x :: xs => exprTokens x ++ membersTokens xs

end

/-- What the parser does where a token ends with the buffer. -/
def Token.closing : Token → Closing
  | .number (.bool _) => .closed
  | .number _ => .opened
  | .string [] => .brittle
  | .datatype _ | .string _ | .paropen | .parclose => .closed

/-- Where the parser stands: the datatype for the next expression, the open lists, and how many
octets there may be in the buffers from here on. -/
structure Standing where
  type : Option (List UInt8)
  stack : List Frame
  room : ℕ

/-- What was read when an expression has come to its end. -/
def Standing.completed (stack : List Frame) (x : TypedSexp) : List TypedSexp :=
  if stack.isEmpty then [x] else []

/-- The state behind a token. -/
def Standing.next (formatG : UInt64 → List UInt8) (k : Standing) (t : Token) : Standing :=
  let room := k.room - (t.text formatG).length
  match t with
  | .datatype name => ⟨some name, k.stack, room⟩
  | .number n => ⟨none, putStack (.number k.type n.reread) k.stack, room⟩
  | .string s => ⟨none, putStack (.string k.type s) k.stack, room⟩
  | .paropen => ⟨none, ⟨k.type, []⟩ :: k.stack, room⟩
  | .parclose =>
      match k.stack with
      | [] => ⟨none, [], room⟩
      | f :: fs => ⟨none, putStack (.list f.type f.members) fs, room⟩

/-- The expression that a token completes outside of all lists. -/
def Standing.emit (k : Standing) (t : Token) : List TypedSexp :=
  match t with
  | .datatype _ | .paropen => []
  | .number n => completed k.stack (.number k.type n.reread)
  | .string s => completed k.stack (.string k.type s)
  | .parclose =>
      match k.stack with
      | [] => []
      | f :: fs => completed fs (.list f.type f.members)

/-- The tokens of printed texts. In front of each of them there is a number sign or a
parenthesis. -/
def tokens (formatG : UInt64 → List UInt8) : Tokens Standing Token UInt8 TypedSexp where
  text := Token.text formatG
  closing := Token.closing
  follow _ c := [35, 40, 41].contains c = true
  next := Standing.next formatG
  emit := Standing.emit
  idle k := k.type = none ∧ k.stack = []

/-- A state of the parser that stands there. -/
structure At (flag : Bool) (k : Standing) (out : List TypedSexp) (s : PState) : Prop where
  explen : s.explen = 0
  numclass : s.numclass = none
  type : s.type = k.type
  stack : s.stack = k.stack
  list : s.list = out
  eofok : s.eofok = if k.stack.isEmpty then flag else false
  eofok0 : k.stack ≠ [] → s.eofok0 = flag
  done : k.stack = [] → s.done = k.type.isNone
  room : s.bufoff + k.room < 2 ^ 64

section Reads

variable {strtoDouble : List UInt8 → UInt64 × Option Errno} {formatG : UInt64 → List UInt8}
  {flag : Bool} {k : Standing} {out : List TypedSexp} {s s' : PState} {buffer : List UInt8}

theorem isEmpty_putStack (x : TypedSexp) (stack : List Frame) :
    (putStack x stack).isEmpty = stack.isEmpty := by
  cases stack with
  | nil => rfl
  | cons f fs => rfl

/-- An expression was added. -/
theorem At.add {n : ℕ} (h : At flag k out s) (s' : PState) (x : TypedSexp) (hlist : s'.list = s.list)
    (hstack : s'.stack = s.stack) (heofok : s'.eofok = s.eofok) (heofok0 : s'.eofok0 = s.eofok0)
    (hoffset : s'.bufoff + s'.explen = s.bufoff + n) (hn : n ≤ k.room) :
    At flag ⟨none, putStack x k.stack, k.room - n⟩ (out ++ Standing.completed k.stack x)
      (s'.add x) := by
  refine ⟨rfl, rfl, rfl, ?_, ?_, ?_, ?_, fun _ => rfl, ?_⟩
  · change putStack x s'.stack = _
    rw [hstack, h.stack]
  · change (if s'.stack.isEmpty then s'.list ++ [x] else s'.list) = _
    rw [hstack, hlist, h.stack, h.list, Standing.completed]
    split
    · rfl
    · exact (List.append_nil _).symm
  · change s'.eofok = _
    rw [heofok, h.eofok, isEmpty_putStack]
  · intro hne
    change s'.eofok0 = _
    rw [heofok0]
    refine h.eofok0 fun hnil => hne ?_
    rw [hnil]
    rfl
  · change s'.bufoff + s'.explen + (k.room - n) < 2 ^ 64
    have := h.room
    omega

/-- Inside of a list the end of the buffer is not the end of an expression. -/
theorem At.inside (h : At flag k out s) (hstack : k.stack ≠ []) : s.eofok = false := by
  rw [h.eofok, if_neg (by rwa [List.isEmpty_iff])]

/-- The label and the stage do not matter where the parser stands. -/
theorem At.of_eq {s₀ : PState} (h : At flag k out s)
    (heq : s₀ = { s with label := s₀.label, numstage := s₀.numstage }) : At flag k out s₀ := by
  rw [heq]
  exact ⟨h.explen, h.numclass, h.type, h.stack, h.list, h.eofok, h.eofok0, h.done, h.room⟩

/-- A turn of the loop at an octet. -/
theorem step_jump {c : UInt8} {t : List UInt8} (hexplen : s.explen = 0)
    (h : buffer.drop s.bufoff = c :: t) :
    step strtoDouble buffer s = jump strtoDouble buffer s c (c :: t) := by
  rw [step, if_neg (by omega), dispatch, h]

/-- A token without a middle, that is closed. -/
theorem readsToken_singleton {t : Token} {c : UInt8} (htext : t.text formatG = [c])
    (hclosing : t.closing = .closed)
    (hnext : ∀ {s out buffer rest}, At flag k out s → buffer.drop s.bufoff = c :: rest →
      ∃ s', step strtoDouble buffer s = .next s' ∧
        At flag (k.next formatG t) (out ++ k.emit t) s' ∧ s'.bufoff = s.bufoff + 1) :
    ReadsToken (reader strtoDouble flag) (tokens formatG) (At flag) k t where
  ne_nil := by
    change t.text formatG ≠ []
    rw [htext]
    exact List.cons_ne_nil _ _
  next hat hdrop _ _ := by
    change _ = t.text formatG ++ _ at hdrop
    rw [htext] at hdrop
    obtain ⟨s', hstep, hat', hoffset⟩ := hnext hat hdrop
    refine ⟨s', hstep, hat', ?_⟩
    change s'.bufoff = _ + (t.text formatG).length
    rw [htext, hoffset]
    rfl
  wait _ _ hne hpart hopened := by
    change t.text formatG = _ at hpart
    rw [htext] at hpart
    rename_i part rest _ _
    obtain _ | ⟨d, part⟩ := part
    · exact absurd rfl hne
    · have hrest := List.append_eq_nil_iff.mp (List.cons.inj hpart).2.symm
      have hclosed := hopened hrest.2
      change t.closing = .opened at hclosed
      rw [hclosing] at hclosed
      cases hclosed
  fail _ _ hbrittle := by
    change t.closing = .brittle at hbrittle
    rw [hclosing] at hbrittle
    cases hbrittle

/-- An opening parenthesis. -/
theorem reads_paropen (hroom : 1 ≤ k.room) :
    ReadsToken (reader strtoDouble flag) (tokens formatG) (At flag) k .paropen := by
  refine readsToken_singleton rfl rfl fun {s out buffer rest} hat hdrop => ?_
  refine ⟨_, (step_jump hat.explen hdrop).trans rfl, ?_, rfl⟩
  refine ⟨hat.explen, hat.numclass, rfl, ?_, ?_, ?_, ?_, ?_, ?_⟩
  · change ⟨s.type, []⟩ :: s.stack = ⟨k.type, []⟩ :: k.stack
    rw [hat.type, hat.stack]
  · change s.list = out ++ []
    rw [hat.list, List.append_nil]
  · change (if s.stack.isEmpty then false else s.eofok) = false
    rw [hat.stack, hat.eofok]
    split <;> rfl
  · intro _
    change (if s.stack.isEmpty then s.eofok else s.eofok0) = flag
    rw [hat.stack]
    split
    · rename_i hempty
      rw [hat.eofok, if_pos hempty]
    · rename_i hnonempty
      exact hat.eofok0 fun hnil => hnonempty (by rw [hnil]; rfl)
  · exact fun hnil => absurd hnil (List.cons_ne_nil _ _)
  · change s.bufoff + 1 + (k.room - 1) < 2 ^ 64
    have := hat.room
    omega

/-- A closing parenthesis. -/
theorem reads_parclose (hstack : k.stack ≠ []) (htype : k.type = none) (hroom : 1 ≤ k.room) :
    ReadsToken (reader strtoDouble flag) (tokens formatG) (At flag) k .parclose := by
  obtain ⟨f, fs, hstack⟩ := List.exists_cons_of_ne_nil hstack
  have hne : k.stack ≠ [] := by
    rw [hstack]
    exact List.cons_ne_nil _ _
  have hnext : k.next formatG .parclose =
      ⟨none, putStack (.list f.type f.members) fs, k.room - 1⟩ := by
    simp only [Standing.next, hstack]
    rfl
  have hemit : k.emit .parclose = Standing.completed fs (.list f.type f.members) := by
    simp only [Standing.emit, hstack]
  refine readsToken_singleton rfl rfl fun {s out buffer rest} hat hdrop => ?_
  have hstack' : s.stack = f :: fs := hat.stack.trans hstack
  refine ⟨{ { s with stack := fs }.put (.list f.type f.members) with
    eofok := if fs.isEmpty then s.eofok0 else s.eofok, bufoff := s.bufoff + 1, done := true },
    ?_, ?_, rfl⟩
  · refine (step_jump hat.explen hdrop).trans ?_
    change labelParclose s = _
    simp only [labelParclose, hat.type, htype, hstack', Option.isSome_none, Bool.false_eq_true,
      if_false]
  · rw [hnext, hemit]
    refine ⟨hat.explen, hat.numclass, hat.type.trans htype, rfl, ?_, ?_, ?_, fun _ => rfl, ?_⟩
    · change (if fs.isEmpty then s.list ++ [_] else s.list) = _
      rw [hat.list, Standing.completed]
      split
      · rfl
      · exact (List.append_nil _).symm
    · change (if fs.isEmpty then s.eofok0 else s.eofok) = _
      rw [isEmpty_putStack]
      split
      · exact hat.eofok0 hne
      · exact hat.inside hne
    · exact fun _ => hat.eofok0 hne
    · change s.bufoff + 1 + (k.room - 1) < 2 ^ 64
      have := hat.room
      omega

/-! ### Numbers, strings and datatypes -/

/-- What follows a token may follow a number. -/
theorem numberEnds_of_follow {c : UInt8} {rest : List UInt8}
    (h : [35, 40, 41].contains c = true) : NumberEnds flag (c :: rest) := by
  revert h
  exact forall_byte (p := fun c => [35, 40, 41].contains c = true →
    isnextexp c = true ∧ numberPrefixes.contains c = false) (by decide +kernel) c

variable (formatG) in
/-- The octets that a truth value is written by. -/
theorem step_bool {b : UInt8} {rest : List UInt8} (hb : b ≤ 1) (hexplen : s.explen = 0)
    (h : buffer.drop s.bufoff = sbprintfNumber formatG (.bool b) ++ rest) :
    step strtoDouble buffer s =
      .next ({ s with bufoff := s.bufoff + 1, explen := 1 }.add (.number s.type (.bool b))) := by
  have hcases : b = 0 ∨ b = 1 := by
    rw [UInt8.le_iff_toNat_le] at hb
    change b.toNat ≤ 1 at hb
    rcases Nat.le_one_iff_eq_zero_or_eq_one.mp hb with h | h
    · exact .inl (UInt8.toNat.inj h)
    · exact .inr (UInt8.toNat.inj h)
  rcases hcases with rfl | rfl
  · change _ = ascii '#' :: ascii 'F' :: rest at h
    rw [step_hash hexplen h, labelHash, h]
    rfl
  · change _ = ascii '#' :: ascii 'T' :: rest at h
    rw [step_hash hexplen h, labelHash, h]
    rfl

/-- A truth value. -/
theorem reads_bool {b : UInt8} (hb : b ≤ 1) (hroom : 2 ≤ k.room) :
    ReadsToken (reader strtoDouble flag) (tokens formatG) (At flag) k (.number (.bool b)) where
  ne_nil := List.cons_ne_nil _ _
  next hat hdrop _ _ := by
    refine ⟨_, step_bool formatG hb hat.explen hdrop, ?_, rfl⟩
    rw [hat.type]
    exact hat.add _ _ rfl rfl rfl rfl rfl hroom
  wait hat hdrop hne hpart hopened := by
    rename_i s out buffer part rest
    change [ascii '#', if b ≠ 0 then ascii 'T' else ascii 'F'] = _ at hpart
    have hle : s.bufoff ≤ buffer.length := by
      have := offset_lt_of_drop hdrop hne
      change s.bufoff + _ = _ at this
      omega
    obtain _ | ⟨c, _ | ⟨d, part⟩⟩ := part
    · exact absurd rfl hne
    · obtain ⟨hc, -⟩ := List.cons.inj hpart
      subst c
      refine ⟨{ s with label := .hash }, { s with label := .hash }, ?_, hle, hat.of_eq rfl, rfl,
        fun more hmore => ⟨check_append (s := { s with label := .hash }) hat.explen hle hmore, rfl⟩⟩
      change step strtoDouble buffer s = _
      rw [step_hash hat.explen hdrop, labelHash, show buffer.drop s.bufoff = [ascii '#'] from hdrop]
    · have hrest := List.append_eq_nil_iff.mp (List.cons.inj (List.cons.inj hpart).2).2.symm
      exact Closing.noConfusion (hopened hrest.2)
  fail _ _ hbrittle := Closing.noConfusion hbrittle

/-- What a token is read from that begins with a literal: behind the literal it has a tail. -/
theorem reads_literal (literal : DecimalLiteral) {t : Token} {tail : List UInt8}
    (htext : t.text formatG = ascii '#' :: ascii 'd' :: (literal.text ++ tail))
    (hsign : literal.sign ≠ .plus) (hstack : k.stack ≠ [])
    (hnext : ∀ {s out buffer rest}, At flag k out s →
      buffer.drop s.bufoff = t.text formatG ++ rest → (rest = [] → t.closing = .closed) →
      (∀ c ∈ rest.head?, [35, 40, 41].contains c = true) →
      ∃ s', step strtoDouble buffer s = .next s' ∧
        At flag (k.next formatG t) (out ++ k.emit t) s' ∧
        s'.bufoff = s.bufoff + (t.text formatG).length)
    (hwait : ∀ {s out buffer part rest}, At flag k out s →
      buffer.drop s.bufoff = ascii '#' :: ascii 'd' :: (literal.text ++ part) → part ≠ [] →
      tail = part ++ rest → (rest = [] → t.closing = .opened) →
      ∃ s', step strtoDouble buffer s = .wait s' ∧ s'.bufoff ≤ buffer.length ∧ ∀ more, more ≠ [] →
        check (buffer ++ more) s' = none ∧
          step strtoDouble (buffer ++ more) s' = step strtoDouble (buffer ++ more) s)
    (hfail : ∀ {s out buffer}, At flag k out s → buffer.drop s.bufoff = t.text formatG →
      t.closing = .brittle → ∃ e, step strtoDouble buffer s = .fail e) :
    ReadsToken (reader strtoDouble flag) (tokens formatG) (At flag) k t where
  ne_nil := by
    change t.text formatG ≠ []
    rw [htext]
    exact List.cons_ne_nil _ _
  next := hnext
  wait hat hdrop hne hpart hopened := by
    rename_i s out buffer part rest
    change t.text formatG = _ at hpart
    rw [htext] at hpart
    rcases append_eq_cases (show (ascii '#' :: ascii 'd' :: literal.text) ++ tail = part ++ rest
      from hpart) with ⟨part', hne', rfl, htail⟩ | hrest
    · obtain ⟨s', hstep, hle, hmore⟩ := hwait hat hdrop hne' htail hopened
      exact ⟨s', s, hstep, hle, hat, rfl, hmore⟩
    · obtain ⟨rest', htext'⟩ : ∃ rest', ascii '#' :: ascii 'd' :: literal.text = part ++ rest' := by
        rcases hrest with ⟨rfl, -⟩ | ⟨rest', -, htext'⟩
        · exact ⟨[], (List.append_nil _).symm⟩
        · exact ⟨rest', htext'⟩
      obtain ⟨s', s₀, hstep, hle, heq, hmore⟩ := step_literal_part literal hsign hat.explen
        hat.numclass (hat.inside hstack) hdrop hne htext'
      exact ⟨s', s₀, hstep, hle, hat.of_eq heq, by rw [heq]; rfl, hmore⟩
  fail := hfail

/-- An integer. -/
theorem reads_integer {n : SexpNumber} {m : ℤ} (hstack : k.stack ≠ [])
    (hinteger : n.integer = some m) (htype : n.type ≠ .bool)
    (hroom : ((Token.number n).text formatG).length ≤ k.room) :
    ReadsToken (reader strtoDouble flag) (tokens formatG) (At flag) k (.number n) := by
  have htext : (Token.number n).text formatG =
      ascii '#' :: ascii 'd' :: ((printedLiteral m).text ++ []) := by
    rw [List.append_nil]
    exact sbprintfNumber_integer formatG hinteger htype
  obtain ⟨hmin, hmax⟩ := n.integer_bounds hinteger
  have hopen : (Token.number n).closing = .opened := by
    cases n with
    | bool b => exact absurd rfl htype
    | _ b => rfl
  have hreread : n.reread = printedNumber m := by
    cases n with
    | bool b => exact absurd rfl htype
    | double b => exact Option.noConfusion rfl (heq_of_eq hinteger)
    | _ b =>
        obtain rfl := Option.some.inj hinteger
        rfl
  have hsign : (printedLiteral m).sign ≠ .plus := by
    rw [printedLiteral]
    split <;> exact LiteralSign.noConfusion
  refine reads_literal (printedLiteral m) htext hsign hstack ?_ ?_ ?_
  · intro s out buffer rest hat hdrop hclosed hfollow
    obtain ⟨c, rest, rfl⟩ : ∃ c rest', rest = c :: rest' := by
      refine List.exists_cons_of_ne_nil fun hnil => ?_
      have := hclosed hnil
      rw [hopen] at this
      cases this
    have hends : NumberEnds flag (c :: rest) := numberEnds_of_follow (hfollow c rfl)
    obtain ⟨hdigit, hdot, hexp, hexp'⟩ := isnextexp_plain hends.1
    have hdrop' : buffer.drop s.bufoff = ascii '#' :: ascii 'd' ::
        ((printedLiteral m).sign.text ++ ((printedLiteral m).digits.text ++ c :: rest)) := by
      rw [hdrop, htext, List.append_nil, DecimalLiteral.text, List.cons_append, List.cons_append,
        List.append_assoc]
    have hlength : (printedLiteral m).sign.text.length + (printedLiteral m).digits.text.length =
        (printedLiteral m).text.length := by
      rw [DecimalLiteral.text, List.length_append]
    have htextlen : ((Token.number n).text formatG).length = (printedLiteral m).text.length + 2 := by
      rw [htext, List.append_nil]
      rfl
    rw [htextlen] at hroom
    refine ⟨{ s with
      bufoff := s.bufoff + 2, label := .number, explen := (printedLiteral m).text.length }.add
        (.number s.type (printedNumber m)), ?_, ?_, ?_⟩
    · rw [step_literal _ hat.explen hat.numclass (hat.inside hstack)
        (printedLiteral m).digits.ne_nil (printedLiteral m).digits.digits hdrop', hlength,
        numberContInt_cons _ _ _ hdigit hdot hexp hexp', numberStop, labelNumberStage3]
      have hbehind : buffer.drop (s.bufoff + 2) = (printedLiteral m).text ++ c :: rest := by
        rw [drop_two_of_drop hdrop', DecimalLiteral.text, List.append_assoc]
      simp only [hbehind, stage3_literal strtoDouble hends,
        convertNumber_printedLiteral strtoDouble hmin hmax]
    · rw [hat.type]
      have hadd := hat.add { s with
        bufoff := s.bufoff + 2, label := .number, explen := (printedLiteral m).text.length }
        (.number k.type (printedNumber m)) rfl rfl rfl rfl
        (show _ = s.bufoff + ((printedLiteral m).text.length + 2) by
          change s.bufoff + 2 + (printedLiteral m).text.length = _
          omega) hroom
      rw [← hreread, ← htextlen] at hadd
      rw [← hreread]
      exact hadd
    · change s.bufoff + 2 + (printedLiteral m).text.length = _
      rw [htextlen]
      omega
  · intro s out buffer part rest _ _ hne htail
    exact absurd (List.append_eq_nil_iff.mp htail.symm).1 hne
  · intro s out buffer _ _ hbrittle
    rw [hopen] at hbrittle
    cases hbrittle

/-- The literal of a length. -/
def lengthLiteral (length : ℕ) : DecimalLiteral := ⟨.none, printedDigits length⟩

/-- What follows a length. -/
theorem labelNumberStage3_leading {cls : NumClass} {n : ℕ} {length : UInt64} {c : UInt8}
    {rest : List UInt8}
    (h : stage3 strtoDouble cls n (buffer.drop s.bufoff) = .lengthPrefix length (c :: rest)) :
    labelNumberStage3 strtoDouble buffer cls n s =
      if c = ascii ':' then
        labelCharFixed buffer { s with
          bufoff := s.bufoff + n + 1, explen := length.toNat, numclass := none }
      else if c = 124 then
        labelVertbarFixed (buffer.drop (s.bufoff + n)) { s with
          bufoff := s.bufoff + n, explen := length.toNat, numclass := none }
      else if c = 91 then
        labelBracketopenFixed buffer { s with
          bufoff := s.bufoff + n, explen := length.toNat, numclass := none }
      else .fail .einval := by
  rw [labelNumberStage3, h]

/-- A length in front of an expression of that length. -/
theorem step_length {length : ℕ} {c : UInt8} {rest : List UInt8} (hat : At flag k out s)
    (hstack : k.stack ≠ []) (hlength : length < 2 ^ 64) (hc : [ascii ':', 91].contains c = true)
    (h : buffer.drop s.bufoff = sbprintfLength length c ++ rest) :
    step strtoDouble buffer s =
      if c = ascii ':' then
        labelCharFixed buffer { s with
          bufoff := s.bufoff + 2 + (formatLu length).length + 1, label := .number
          explen := length, numclass := none }
      else
        labelBracketopenFixed buffer { s with
          bufoff := s.bufoff + 2 + (formatLu length).length, label := .number
          explen := length, numclass := none } := by
  have hdrop : buffer.drop s.bufoff =
      ascii '#' :: ascii 'd' :: (LiteralSign.none.text ++ (formatLu length ++ c :: rest)) := by
    rw [h, sbprintfLength]
    change _ :: _ :: ((formatLu length ++ [c]) ++ rest) = _
    rw [List.append_assoc]
    rfl
  have hbehind : buffer.drop (s.bufoff + 2) = formatLu length ++ c :: rest := drop_two_of_drop hdrop
  have hplain : isdigit c = false ∧ c ≠ ascii '.' ∧ c ≠ ascii 'e' ∧ c ≠ ascii 'E' ∧
      numberPrefixes.contains c = true ∧ (c = ascii ':' ∨ c = 91) := by
    revert hc
    exact forall_byte (p := fun c => [ascii ':', 91].contains c = true → isdigit c = false ∧
      c ≠ ascii '.' ∧ c ≠ ascii 'e' ∧ c ≠ ascii 'E' ∧ numberPrefixes.contains c = true ∧
      (c = ascii ':' ∨ c = 91)) (by decide +kernel) c
  obtain ⟨hdigit, hdot, hexp, hexp', hprefix, hcases⟩ := hplain
  obtain ⟨r, hread, hr⟩ := strtoUint64Dec_digits (printedDigits length)
    (by rw [value_printedDigits]; exact hlength)
  rw [value_printedDigits] at hr
  change strtoUint64Dec (formatLu length) = (r, none) at hread
  have hstage : stage3 strtoDouble .uint (formatLu length).length (formatLu length ++ c :: rest) =
      .lengthPrefix r (c :: rest) := by
    simp only [stage3, List.take_left, List.drop_left, hread, Option.isSome_none,
      Bool.false_eq_true, and_false, if_false, List.head?_cons, Option.any_some, hprefix, and_self,
      if_true]
  rw [step_literal .none hat.explen hat.numclass (hat.inside hstack) (printedDigits length).ne_nil
    (printedDigits length).digits hdrop, numberContInt_cons _ _ _ hdigit hdot hexp hexp']
  have hcount : LiteralSign.none.text.length + (printedDigits length).text.length =
      (formatLu length).length := Nat.zero_add _
  rw [hcount, numberStop]
  refine (labelNumberStage3_leading (s := { s with bufoff := s.bufoff + 2, label := .number })
    (by rw [← hstage]; exact congrArg _ hbehind)).trans ?_
  rw [hr]
  rcases hcases with rfl | rfl
  · rw [if_pos rfl, if_pos rfl]
  · rfl

/-- The text of a length and of what follows it. -/
theorem sbprintfLength_append (length : ℕ) (c : UInt8) (rest : List UInt8) :
    sbprintfLength length c ++ rest =
      ascii '#' :: ascii 'd' :: ((lengthLiteral length).text ++ c :: rest) := by
  rw [sbprintfLength, List.cons_append, List.cons_append, List.append_assoc]
  rfl

/-- The place behind a length. -/
theorem drop_length {length : ℕ} {c : UInt8} {n : ℕ} {rest : List UInt8}
    (h : buffer.drop n = sbprintfLength length c ++ rest) :
    buffer.drop (n + 2 + (formatLu length).length) = c :: rest := by
  rw [sbprintfLength_append] at h
  rw [← List.drop_drop, drop_two_of_drop h]
  exact List.drop_left

theorem length_sbprintfLength (length : ℕ) (c : UInt8) :
    (sbprintfLength length c).length = (formatLu length).length + 3 := by
  rw [sbprintfLength, List.length_cons, List.length_cons, List.length_append, List.length_singleton]

/-- A string. -/
theorem reads_string {str : List UInt8} (hstack : k.stack ≠ [])
    (hroom : ((Token.string str).text formatG).length ≤ k.room) :
    ReadsToken (reader strtoDouble flag) (tokens formatG) (At flag) k (.string str) := by
  have htext : (Token.string str).text formatG = sbprintfLength str.length (ascii ':') ++ str := rfl
  have hlen : ((Token.string str).text formatG).length =
      (formatLu str.length).length + 3 + str.length := by
    rw [htext, List.length_append, length_sbprintfLength]
  rw [hlen] at hroom
  have hclosing : (Token.string str).closing ≠ .opened := by
    cases str with
    | nil => exact Closing.noConfusion
    | cons c cs => exact Closing.noConfusion
  have hbound : ∀ {s out}, At flag k out s → s.bufoff + (formatLu str.length).length + 3 +
      str.length < 2 ^ 64 := by
    intro s out hat
    have := hat.room
    omega
  have hshort : ∀ {s out}, At flag k out s → str.length < 2 ^ 64 := by
    intro s out hat
    have := hbound hat
    omega
  refine reads_literal (lengthLiteral str.length) (htext.trans
    (sbprintfLength_append ..)) LiteralSign.noConfusion hstack ?_ ?_ ?_
  · intro s out buffer rest hat hdrop hclosed _
    rw [htext, List.append_assoc] at hdrop
    have hbehind := drop_length hdrop
    have hbehind' : buffer.drop (s.bufoff + 2 + (formatLu str.length).length + 1) = str ++ rest := by
      rw [← List.drop_drop, hbehind]
      rfl
    have hlength := offset_lt_of_drop hbehind (List.cons_ne_nil _ _)
    rw [List.length_cons, List.length_append] at hlength
    have hne : str ++ rest ≠ [] := by
      intro hnil
      obtain ⟨rfl, hrest⟩ := List.append_eq_nil_iff.mp hnil
      exact Closing.noConfusion (hclosed hrest)
    refine ⟨{ s with
      bufoff := s.bufoff + 2 + (formatLu str.length).length + 1, label := .charFixed
      explen := str.length, numclass := none }.add (.string s.type str), ?_, ?_, ?_⟩
    · have := hbound hat
      rw [step_length hat hstack (hshort hat) (by decide) hdrop, if_pos rfl]
      simp only [labelCharFixed, hbehind', if_neg hne, List.take_left]
      rw [if_neg (by omega), if_neg (by omega)]
    · rw [hat.type]
      have hadd := hat.add { s with
        bufoff := s.bufoff + 2 + (formatLu str.length).length + 1, label := .charFixed
        explen := str.length, numclass := none } (n := (formatLu str.length).length + 3 + str.length)
        (.string k.type str) rfl rfl rfl rfl (by
          change s.bufoff + 2 + (formatLu str.length).length + 1 + str.length = _
          omega) hroom
      rw [← hlen] at hadd
      exact hadd
    · change s.bufoff + 2 + (formatLu str.length).length + 1 + str.length = _
      rw [hlen]
      omega
  · intro s out buffer part rest hat hdrop hne hpart hopened
    obtain ⟨c, part, rfl⟩ := List.exists_cons_of_ne_nil hne
    obtain ⟨rfl, hstr⟩ := List.cons.inj hpart
    have hrest : rest ≠ [] := fun hnil => hclosing (hopened hnil)
    have hdrop' : buffer.drop s.bufoff = sbprintfLength str.length (ascii ':') ++ part := by
      rw [sbprintfLength_append]
      exact hdrop
    have hlength := offset_lt_of_drop (drop_length hdrop') (List.cons_ne_nil _ _)
    have hstrlen : str.length = part.length + rest.length :=
      (congrArg List.length hstr).trans (List.length_append ..)
    rw [List.length_cons] at hlength
    have hrestlen := List.length_pos_iff.mpr hrest
    have := hbound hat
    refine ⟨{ s with
      bufoff := s.bufoff + 2 + (formatLu str.length).length + 1, label := .charFixed
      explen := str.length, numclass := none }, ?_, ?_, fun more hmore => ⟨?_, ?_⟩⟩
    · rw [step_length hat hstack (hshort hat) (by decide) hdrop', if_pos rfl]
      simp only [labelCharFixed]
      rw [if_neg (by omega), if_pos (by omega)]
    · change s.bufoff + 2 + (formatLu str.length).length + 1 ≤ buffer.length
      omega
    · rw [check, if_neg (fun h => Bool.noConfusion h.1), if_neg]
      rintro ⟨hzero, -⟩
      change str.length = 0 at hzero
      omega
    · have hmore' : (buffer ++ more).drop s.bufoff =
          sbprintfLength str.length (ascii ':') ++ (part ++ more) := by
        rw [drop_append_of_drop hdrop' (List.cons_ne_nil _ _), List.append_assoc]
      rw [step_length hat hstack (hshort hat) (by decide) hmore', if_pos rfl, step,
        if_pos (by change 0 < str.length; omega)]
      rfl
  · intro s out buffer hat hdrop hbrittle
    have hnil : str = [] := by
      cases str with
      | nil => rfl
      | cons c cs => exact Closing.noConfusion hbrittle
    subst hnil
    have hdrop' : buffer.drop s.bufoff =
        sbprintfLength ([] : List UInt8).length (ascii ':') ++ [] := hdrop
    have hbehind := drop_length hdrop'
    have hbehind' : buffer.drop (s.bufoff + 2 + (formatLu ([] : List UInt8).length).length + 1) =
        [] := by
      rw [← List.drop_drop, hbehind]
      rfl
    have hlength := offset_lt_of_drop hbehind (List.cons_ne_nil _ _)
    have := hbound hat
    refine ⟨.eundef, ?_⟩
    rw [step_length hat hstack (hshort hat) (by decide) hdrop', if_pos rfl]
    simp only [labelCharFixed]
    rw [List.length_singleton] at hlength
    rw [if_neg (by omega), if_neg ?_, if_pos hbehind']
    change ¬buffer.length < s.bufoff + 2 + (formatLu ([] : List UInt8).length).length + 1 + 0
    omega

/-- A datatype. -/
theorem reads_datatype {name : List UInt8} (hstack : k.stack ≠ []) (hname : name ≠ [] ∧ 0 ∉ name)
    (hroom : ((Token.datatype name).text formatG).length ≤ k.room) :
    ReadsToken (reader strtoDouble flag) (tokens formatG) (At flag) k (.datatype name) := by
  have htext : (Token.datatype name).text formatG =
      sbprintfLength name.length 91 ++ (name ++ [93]) := List.append_assoc ..
  have hlen : ((Token.datatype name).text formatG).length =
      (formatLu name.length).length + 3 + (name.length + 1) := by
    rw [htext, List.length_append, length_sbprintfLength, List.length_append, List.length_singleton]
  rw [hlen] at hroom
  have hpos := List.length_pos_iff.mpr hname.1
  have hcstr : datatypeName name = name := by
    rw [datatypeName, List.takeWhile_eq_self_iff]
    intro c hc
    exact decide_eq_true fun hzero : c = 0 => hname.2 (hzero ▸ hc)
  have hbound : ∀ {s out}, At flag k out s → s.bufoff + (formatLu name.length).length +
      name.length + 4 < 2 ^ 64 := by
    intro s out hat
    have := hat.room
    omega
  have hshort : ∀ {s out}, At flag k out s → name.length < 2 ^ 64 := by
    intro s out hat
    have := hbound hat
    omega
  refine reads_literal (lengthLiteral name.length) (htext.trans
    (sbprintfLength_append ..)) LiteralSign.noConfusion hstack ?_ ?_ ?_
  · intro s out buffer rest hat hdrop _ _
    rw [htext, List.append_assoc] at hdrop
    have hbehind := drop_length hdrop
    have hlength := offset_lt_of_drop hbehind (List.cons_ne_nil _ _)
    rw [List.length_cons, List.length_append, List.length_append, List.length_singleton] at hlength
    have := hbound hat
    refine ⟨{ s with
      bufoff := s.bufoff + 2 + (formatLu name.length).length + (name.length + 2)
      label := .dtypeFixed, explen := 0, numclass := none, type := some name, done := false },
      ?_, ?_, ?_⟩
    · rw [step_length hat hstack (hshort hat) (by decide) hdrop, if_neg (by decide)]
      simp only [labelBracketopenFixed, hbehind, List.drop_succ_cons, List.drop_zero]
      rw [if_neg (by omega), if_neg (by omega), List.append_assoc, List.take_left, hcstr]
    · refine ⟨rfl, rfl, rfl, hat.stack, ?_, hat.eofok, hat.eofok0, fun _ => rfl, ?_⟩
      · rw [show k.emit (.datatype name) = [] from rfl, List.append_nil]
        exact hat.list
      · change s.bufoff + 2 + (formatLu name.length).length + (name.length + 2) +
          (k.room - ((Token.datatype name).text formatG).length) < 2 ^ 64
        have := hat.room
        omega
    · change s.bufoff + 2 + (formatLu name.length).length + (name.length + 2) = _
      rw [hlen]
      omega
  · intro s out buffer part rest hat hdrop hne hpart hopened
    obtain ⟨c, part, rfl⟩ := List.exists_cons_of_ne_nil hne
    obtain ⟨rfl, hend⟩ := List.cons.inj hpart
    have hrest : rest ≠ [] := fun hnil => Closing.noConfusion (hopened hnil)
    have hdrop' : buffer.drop s.bufoff = sbprintfLength name.length 91 ++ part := by
      rw [sbprintfLength_append]
      exact hdrop
    have hlength := offset_lt_of_drop (drop_length hdrop') (List.cons_ne_nil _ _)
    have hendlen : name.length + 1 = part.length + rest.length := by
      have := congrArg List.length hend
      rw [List.length_append, List.length_singleton] at this
      exact this.trans (List.length_append ..)
    rw [List.length_cons] at hlength
    have hrestlen := List.length_pos_iff.mpr hrest
    have := hbound hat
    refine ⟨{ s with
      bufoff := s.bufoff + 2 + (formatLu name.length).length, label := .dtypeFixed
      explen := name.length, numclass := none }, ?_, ?_, fun more hmore => ⟨?_, ?_⟩⟩
    · rw [step_length hat hstack (hshort hat) (by decide) hdrop', if_neg (by decide)]
      simp only [labelBracketopenFixed]
      rw [if_neg (by omega), if_pos (by omega)]
    · change s.bufoff + 2 + (formatLu name.length).length ≤ buffer.length
      omega
    · rw [check, if_neg (fun h => Bool.noConfusion h.1), if_neg]
      rintro ⟨hzero, -⟩
      change name.length = 0 at hzero
      omega
    · have hmore' : (buffer ++ more).drop s.bufoff =
          sbprintfLength name.length 91 ++ (part ++ more) := by
        rw [drop_append_of_drop hdrop' (List.cons_ne_nil _ _), List.append_assoc]
      rw [step_length hat hstack (hshort hat) (by decide) hmore', if_neg (by decide), step,
        if_pos (by change 0 < name.length; omega)]
      rfl
  · intro s out buffer _ _ hbrittle
    cases hbrittle

/-- A token that can be read where the parser stands. -/
def Valid (formatG : UInt64 → List UInt8) (k : Standing) (t : Token) : Prop :=
  (t.text formatG).length ≤ k.room ∧
    match t with
    | .datatype name => k.stack ≠ [] ∧ name ≠ [] ∧ 0 ∉ name
    | .number n => k.stack ≠ [] ∧ n.integer.isSome ∧ ∀ b, n = .bool b → b ≤ 1
    | .string _ => k.stack ≠ []
    | .paropen => True
    | .parclose => k.stack ≠ [] ∧ k.type = none

/-- **A token is read**, wherever the buffers end. -/
theorem readsToken {t : Token} (h : Valid formatG k t) :
    ReadsToken (reader strtoDouble flag) (tokens formatG) (At flag) k t := by
  obtain ⟨hroom, hvalid⟩ := h
  cases t with
  | datatype name => exact reads_datatype hvalid.1 hvalid.2 hroom
  | string str => exact reads_string hvalid hroom
  | paropen => exact reads_paropen hroom
  | parclose => exact reads_parclose hvalid.1 hvalid.2 hroom
  | number n =>
      obtain ⟨m, hinteger⟩ := Option.isSome_iff_exists.mp hvalid.2.1
      by_cases htype : n.type = .bool
      · cases n with
        | bool b => exact reads_bool (hvalid.2.2 b rfl) hroom
        | _ b => exact SexpNumtype.noConfusion htype
      · exact reads_integer hvalid.1 hinteger htype hroom

/-- The parser returns what it has read where no list is open. -/
theorem delivers : Delivers (reader strtoDouble flag) (tokens formatG) (At flag) where
  check hat hlt := check_of_lt hat.explen hlt
  idle := by
    rintro k out s hat ⟨htype, hstack⟩
    change (if s.done && s.stack.isEmpty then some s.list else none) = some out
    rw [hat.done hstack, hat.stack, hstack, htype, hat.list]
    rfl
  busy := by
    rintro k out s hat hbusy
    change (if s.done && s.stack.isEmpty then some s.list else none) = none
    refine if_neg fun hidle => hbusy ?_
    rw [Bool.and_eq_true, hat.stack, List.isEmpty_iff] at hidle
    rw [hat.done hidle.2, Option.isNone_iff_eq_none] at hidle
    exact hidle
  fresh := by
    rintro k out s hat ⟨htype, hstack⟩
    refine ⟨rfl, rfl, htype.symm, hstack.symm, rfl, ?_, fun hne => absurd hstack hne, ?_, ?_⟩
    · rw [hstack]
      rfl
    · intro _
      rw [htype]
      rfl
    · change 0 + k.room < 2 ^ 64
      have := hat.room
      omega
  offset_fresh := rfl

/-! ### S-expressions as tokens -/

/-- Tokens that can be read one after another. -/
def ValidAll (formatG : UInt64 → List UInt8) : Standing → List Token → Prop
  | _, [] => True
  | k, t :: ts => Valid formatG k t ∧ ValidAll formatG (k.next formatG t) ts

theorem validAll_append {ts₁ ts₂ : List Token} (h₁ : ValidAll formatG k ts₁)
    (h₂ : ValidAll formatG ((tokens formatG).after k ts₁) ts₂) :
    ValidAll formatG k (ts₁ ++ ts₂) := by
  induction ts₁ generalizing k with
  | nil => exact h₂
  | cons t ts₁ ih => exact ⟨h₁.1, ih h₁.2 h₂⟩

/-- In front of every token there is a number sign or a parenthesis. -/
theorem head_text {t : Token} (h : Valid formatG k t) (rest : List UInt8) :
    ∀ c ∈ (t.text formatG ++ rest).head?, [35, 40, 41].contains c = true := by
  intro c hc
  cases t with
  | datatype name | string s | paropen | parclose =>
      obtain rfl := Option.some.inj hc
      decide
  | number n =>
      cases n with
      | _ m =>
          obtain rfl := Option.some.inj hc
          decide

/-- Tokens that can be read are read, the last of them being closed. -/
theorem readable_of_valid {ts : List Token} (h : ValidAll formatG k ts)
    (hlast : ∀ t ∈ ts.getLast?, t.closing = .closed) :
    Readable (reader strtoDouble flag) (tokens formatG) (At flag) k ts := by
  induction ts generalizing k with
  | nil => trivial
  | cons t ts ih =>
      refine ⟨readsToken h.1, ?_, ?_, ih h.2 fun t' ht' => hlast t' ?_⟩
      · rintro rfl
        exact hlast t rfl
      · intro c hc
        cases ts with
        | nil => cases hc
        | cons t' ts' =>
            rw [Tokens.texts_cons] at hc
            exact head_text h.2.1 _ c hc
      · cases ts with
        | nil => cases ht'
        | cons t'' ts' => rwa [List.getLast?_cons_cons]

variable (formatG) in
/-- The state behind a datatype. -/
theorem after_typeTokens (htype : k.type = none) (type : Option (List UInt8)) :
    (tokens formatG).after k (typeTokens type) =
        ⟨type, k.stack, k.room - ((tokens formatG).texts (typeTokens type)).length⟩ ∧
      (tokens formatG).emits k (typeTokens type) = [] := by
  cases type with
  | none =>
      obtain ⟨type', stack, room⟩ := k
      obtain rfl : type' = none := htype
      exact ⟨rfl, rfl⟩
  | some name =>
      refine ⟨?_, rfl⟩
      rw [typeTokens, Tokens.texts_cons, List.length_append]
      rfl

section After

variable (formatG)

mutual

/-- **The state behind a printed S-expression**: it was added to the innermost list that is open,
as it is stored. -/
theorem after_exprTokens (x : TypedSexp) {k : Standing} (htype : k.type = none) :
    (tokens formatG).after k (exprTokens x) = ⟨none, putStack x.reread k.stack,
        k.room - ((tokens formatG).texts (exprTokens x)).length⟩ ∧
      (tokens formatG).emits k (exprTokens x) = Standing.completed k.stack x.reread := by
  cases x with
  | number type n =>
      obtain ⟨hafter, hemits⟩ := after_typeTokens formatG htype type
      rw [exprTokens, Tokens.after_append, Tokens.emits_append, Tokens.texts_append, hafter, hemits,
        List.length_append, ← Nat.sub_sub]
      exact ⟨by rw [Tokens.texts_cons, List.length_append]; rfl, List.append_nil _⟩
  | string type s =>
      obtain ⟨hafter, hemits⟩ := after_typeTokens formatG htype type
      rw [exprTokens, Tokens.after_append, Tokens.emits_append, Tokens.texts_append, hafter, hemits,
        List.length_append, ← Nat.sub_sub]
      exact ⟨by rw [Tokens.texts_cons, List.length_append]; rfl, List.append_nil _⟩
  | list type xs =>
      obtain ⟨hafter, hemits⟩ := after_typeTokens formatG htype type
      obtain ⟨hmembers, hnone⟩ := after_membersTokens xs ⟨type, []⟩ k.stack
        (k.room - ((tokens formatG).texts (typeTokens type)).length - 1)
      have hopen : (tokens formatG).next ⟨type, k.stack,
          k.room - ((tokens formatG).texts (typeTokens type)).length⟩ .paropen =
          ⟨none, ⟨type, []⟩ :: k.stack,
            k.room - ((tokens formatG).texts (typeTokens type)).length - 1⟩ := rfl
      rw [exprTokens, Tokens.after_append, Tokens.emits_append, Tokens.texts_append, hafter, hemits,
        List.length_append, ← Nat.sub_sub, Tokens.after_cons, Tokens.emits, hopen,
        Tokens.after_append, Tokens.emits_append, hmembers, hnone, Tokens.texts_cons,
        Tokens.texts_append, List.length_append, List.length_append, ← Nat.sub_sub, ← Nat.sub_sub]
      exact ⟨rfl, List.append_nil _⟩

/-- The state behind the members of a list. -/
theorem after_membersTokens (xs : List TypedSexp) (f : Frame) (fs : List Frame) (room : ℕ) :
    (tokens formatG).after ⟨none, f :: fs, room⟩ (membersTokens xs) =
        ⟨none, { f with members := f.members ++ rereadMembers xs } :: fs,
          room - ((tokens formatG).texts (membersTokens xs)).length⟩ ∧
      (tokens formatG).emits ⟨none, f :: fs, room⟩ (membersTokens xs) = [] := by
  cases xs with
  | nil =>
      rw [membersTokens, rereadMembers, List.append_nil]
      exact ⟨rfl, rfl⟩
  | cons x xs =>
      obtain ⟨hafter, hemits⟩ := after_exprTokens x (k := ⟨none, f :: fs, room⟩) rfl
      obtain ⟨hmembers, hnone⟩ := after_membersTokens xs
        { f with members := f.members ++ [x.reread] } fs (room - ((tokens formatG).texts (exprTokens x)).length)
      have hput : putStack x.reread (f :: fs) = { f with members := f.members ++ [x.reread] } :: fs :=
        rfl
      rw [membersTokens, Tokens.after_append, Tokens.emits_append, Tokens.texts_append, hafter,
        hemits, hput, hmembers, hnone, List.length_append, ← Nat.sub_sub, List.append_assoc]
      exact ⟨rfl, rfl⟩

end

end After

/-! ### The text of the tokens -/

/-- The text of a datatype. -/
theorem texts_typeTokens {type : Option (List UInt8)} {text : List UInt8}
    (h : sbprintfType type = some text) : (tokens formatG).texts (typeTokens type) = text := by
  cases type with
  | none => exact Option.some.inj h
  | some name =>
      simp only [sbprintfType, Option.ite_none_right_eq_some] at h
      rw [typeTokens, Tokens.texts_cons]
      exact (List.append_nil _).trans (Option.some.inj h.2)

/-- The text of a string. -/
theorem texts_string {s text : List UInt8} (h : sbprintfString s = some text) :
    (tokens formatG).text (.string s) = text := by
  simp only [sbprintfString, Option.ite_none_right_eq_some] at h
  exact Option.some.inj h.2

mutual

/-- **What is printed is the text of the tokens.** -/
theorem texts_exprTokens (x : TypedSexp) {text : List UInt8} (h : sbprintf formatG x = some text) :
    (tokens formatG).texts (exprTokens x) = text := by
  cases x with
  | number type n =>
      simp only [sbprintf, Option.bind_eq_bind, Option.bind_eq_some_iff, Option.pure_def,
        Option.some.injEq] at h
      obtain ⟨prefixed, htype, rfl⟩ := h
      rw [exprTokens, Tokens.texts_append, texts_typeTokens htype, Tokens.texts_cons]
      exact congrArg (prefixed ++ ·) (List.append_nil _)
  | string type s =>
      simp only [sbprintf, Option.bind_eq_bind, Option.bind_eq_some_iff, Option.pure_def,
        Option.some.injEq] at h
      obtain ⟨prefixed, htype, text, hstring, rfl⟩ := h
      rw [exprTokens, Tokens.texts_append, texts_typeTokens htype, Tokens.texts_cons,
        texts_string hstring]
      exact congrArg (prefixed ++ ·) (List.append_nil _)
  | list type xs =>
      simp only [sbprintf, Option.bind_eq_bind, Option.bind_eq_some_iff, Option.pure_def,
        Option.some.injEq] at h
      obtain ⟨prefixed, htype, text, hmembers, rfl⟩ := h
      rw [exprTokens, Tokens.texts_append, texts_typeTokens htype, Tokens.texts_cons,
        Tokens.texts_append, texts_membersTokens xs hmembers, List.append_assoc]
      rfl

/-- What is printed of the members of a list. -/
theorem texts_membersTokens (xs : List TypedSexp) {text : List UInt8}
    (h : sbprintfMembers formatG xs = some text) :
    (tokens formatG).texts (membersTokens xs) = text := by
  cases xs with
  | nil => exact Option.some.inj h
  | cons x xs =>
      simp only [sbprintfMembers, Option.bind_eq_bind, Option.bind_eq_some_iff, Option.pure_def,
        Option.some.injEq] at h
      obtain ⟨text, hx, rest, hxs, rfl⟩ := h
      rw [membersTokens, Tokens.texts_append, texts_exprTokens x hx, texts_membersTokens xs hxs]

end

/-! ### Plain S-expressions can be read -/

/-- The datatype of a member can be read. -/
theorem validAll_typeTokens {type : Option (List UInt8)} (hnamed : TypeNamed type)
    (hstack : type ≠ none → k.stack ≠ [])
    (hroom : ((tokens formatG).texts (typeTokens type)).length ≤ k.room) :
    ValidAll formatG k (typeTokens type) := by
  cases type with
  | none => trivial
  | some name =>
      rw [typeTokens, Tokens.texts_cons, List.length_append] at hroom
      exact ⟨⟨(Nat.le_add_right _ _).trans hroom, hstack (Option.some_ne_none name), hnamed⟩,
        trivial⟩

mutual

/-- **A plain S-expression can be read** where a list is open, and a list without a datatype can
be read outside of all lists. -/
theorem validAll_exprTokens (x : TypedSexp) {k : Standing} (hplain : x.Plain)
    (htype : k.type = none) (hstack : k.stack ≠ [] ∨ ∃ xs, x = .list none xs)
    (hroom : ((tokens formatG).texts (exprTokens x)).length ≤ k.room) :
    ValidAll formatG k (exprTokens x) := by
  cases x with
  | number type n =>
      have hopen : k.stack ≠ [] := hstack.resolve_right (by rintro ⟨xs, hxs⟩; cases hxs)
      rw [exprTokens, Tokens.texts_append, List.length_append] at hroom
      refine validAll_append (validAll_typeTokens hplain.1 (fun _ => hopen) (by omega)) ?_
      rw [(after_typeTokens formatG htype type).1]
      refine ⟨⟨?_, hopen, hplain.2⟩, trivial⟩
      rw [Tokens.texts_cons, List.length_append] at hroom
      change ((tokens formatG).text (.number n)).length ≤
        k.room - ((tokens formatG).texts (typeTokens type)).length
      omega
  | string type s =>
      have hopen : k.stack ≠ [] := hstack.resolve_right (by rintro ⟨xs, hxs⟩; cases hxs)
      rw [exprTokens, Tokens.texts_append, List.length_append] at hroom
      refine validAll_append (validAll_typeTokens hplain (fun _ => hopen) (by omega)) ?_
      rw [(after_typeTokens formatG htype type).1]
      refine ⟨⟨?_, hopen⟩, trivial⟩
      rw [Tokens.texts_cons, List.length_append] at hroom
      change ((tokens formatG).text (.string s)).length ≤
        k.room - ((tokens formatG).texts (typeTokens type)).length
      omega
  | list type xs =>
      have hopen : type ≠ none → k.stack ≠ [] := by
        intro hne
        refine hstack.resolve_right ?_
        rintro ⟨ys, hys⟩
        exact hne (TypedSexp.list.inj hys).1
      rw [exprTokens, Tokens.texts_append, Tokens.texts_cons, Tokens.texts_append,
        List.length_append, List.length_append, List.length_append] at hroom
      refine validAll_append (validAll_typeTokens hplain.1 hopen (by omega)) ?_
      rw [(after_typeTokens formatG htype type).1]
      have hparopen : ((tokens formatG).text .paropen).length = 1 := rfl
      have hparclose : ((tokens formatG).texts [.parclose]).length = 1 := rfl
      rw [hparopen, hparclose] at hroom
      refine ⟨⟨?_, trivial⟩, validAll_append ?_ ?_⟩
      · change 1 ≤ k.room - _
        omega
      · refine validAll_membersTokens xs hplain.2 ?_
        change _ ≤ k.room - _ - 1
        omega
      · have hafter := after_membersTokens formatG xs ⟨type, []⟩ k.stack
          (k.room - ((tokens formatG).texts (typeTokens type)).length - 1)
        change ValidAll formatG ((tokens formatG).after ⟨none, ⟨type, []⟩ :: k.stack,
          k.room - ((tokens formatG).texts (typeTokens type)).length - 1⟩ (membersTokens xs)) _
        rw [hafter.1]
        refine ⟨⟨?_, List.cons_ne_nil _ _, rfl⟩, trivial⟩
        change 1 ≤ k.room - _ - 1 - _
        omega

/-- Plain members of a list can be read. -/
theorem validAll_membersTokens (xs : List TypedSexp) {f : Frame} {fs : List Frame} {room : ℕ}
    (hplain : PlainMembers xs)
    (hroom : ((tokens formatG).texts (membersTokens xs)).length ≤ room) :
    ValidAll formatG ⟨none, f :: fs, room⟩ (membersTokens xs) := by
  cases xs with
  | nil => trivial
  | cons x xs =>
      rw [membersTokens, Tokens.texts_append, List.length_append] at hroom
      refine validAll_append (validAll_exprTokens x hplain.1 rfl (.inl (List.cons_ne_nil _ _)) ?_) ?_
      · change _ ≤ room
        omega
      · rw [(after_exprTokens formatG x rfl).1]
        refine validAll_membersTokens xs hplain.2 ?_
        change _ ≤ room - ((tokens formatG).texts (exprTokens x)).length
        omega

end

/-! ### Lists from one end to the other -/

/-- A list without a datatype, of plain members. -/
def Packet (x : TypedSexp) : Prop :=
  ∃ xs, x = .list none xs ∧ PlainMembers xs

/-- Lists can be read one after another. -/
theorem validAll_packets {packets : List TypedSexp} (hpackets : ∀ x ∈ packets, Packet x) {room : ℕ}
    (hroom : ((tokens formatG).texts (packets.flatMap exprTokens)).length ≤ room) :
    ValidAll formatG ⟨none, [], room⟩ (packets.flatMap exprTokens) := by
  induction packets generalizing room with
  | nil => trivial
  | cons x packets ih =>
      obtain ⟨xs, rfl, hxs⟩ := hpackets x (List.mem_cons_self ..)
      rw [List.flatMap_cons, Tokens.texts_append, List.length_append] at hroom
      refine validAll_append (validAll_exprTokens _ ⟨trivial, hxs⟩ rfl (.inr ⟨xs, rfl⟩) ?_) ?_
      · change _ ≤ room
        omega
      · rw [(after_exprTokens formatG _ rfl).1]
        refine ih (fun y hy => hpackets y (List.mem_cons_of_mem _ hy)) ?_
        change _ ≤ room - ((tokens formatG).texts (exprTokens (.list none xs))).length
        omega

variable (formatG) in
/-- Behind the lists no list is open, and they were read as they are stored. -/
theorem after_packets (packets : List TypedSexp) (room : ℕ) :
    (tokens formatG).after ⟨none, [], room⟩ (packets.flatMap exprTokens) = ⟨none, [],
        room - ((tokens formatG).texts (packets.flatMap exprTokens)).length⟩ ∧
      (tokens formatG).emits ⟨none, [], room⟩ (packets.flatMap exprTokens) =
        packets.map TypedSexp.reread := by
  induction packets generalizing room with
  | nil => exact ⟨rfl, rfl⟩
  | cons x packets ih =>
      obtain ⟨hafter, hemits⟩ := after_exprTokens formatG x (k := ⟨none, [], room⟩) rfl
      obtain ⟨hafter', hemits'⟩ := ih (room - ((tokens formatG).texts (exprTokens x)).length)
      have hput : putStack x.reread [] = [] := rfl
      rw [List.flatMap_cons, Tokens.after_append, Tokens.emits_append, Tokens.texts_append, hafter,
        hemits, hput, hafter', hemits', List.length_append, ← Nat.sub_sub]
      exact ⟨rfl, rfl⟩

/-- The text of printed lists. -/
theorem texts_packets {packets : List TypedSexp} {texts : List (List UInt8)}
    (h : packets.mapM (sbprintf formatG) = some texts) :
    (tokens formatG).texts (packets.flatMap exprTokens) = texts.flatten := by
  induction packets generalizing texts with
  | nil =>
      obtain rfl := Option.some.inj h
      rfl
  | cons x packets ih =>
      simp only [List.mapM_cons, Option.bind_eq_bind, Option.bind_eq_some_iff, Option.pure_def,
        Option.some.injEq] at h
      obtain ⟨text, hx, texts, hpackets, rfl⟩ := h
      rw [List.flatMap_cons, Tokens.texts_append, texts_exprTokens x hx, ih hpackets,
        List.flatten_cons]

/-- The last token of lists is a closing parenthesis. -/
theorem getLast_packets {packets : List TypedSexp} (hpackets : ∀ x ∈ packets, Packet x) :
    ∀ t ∈ (packets.flatMap exprTokens).getLast?, t.closing = .closed := by
  intro t ht
  obtain rfl | ⟨front, x, rfl⟩ := packets.eq_nil_or_concat'
  · cases ht
  · obtain ⟨xs, rfl, -⟩ := hpackets x (by simp)
    have hlast : ((front ++ [TypedSexp.list none xs]).flatMap exprTokens).getLast? =
        some .parclose := by
      rw [List.flatMap_append, List.flatMap_singleton, exprTokens, ← List.cons_append,
        ← List.append_assoc, ← List.append_assoc, List.getLast?_concat]
    obtain rfl : Token.parclose = t := Option.some.inj (hlast.symm.trans ht)
    rfl

end Reads

/-- A buffer ends just behind the length of an empty string. -/
def EndsBehindEmpty (formatG : UInt64 → List UInt8) (packets : List TypedSexp)
    (buffers : List (List UInt8)) : Prop :=
  ∃ n, EndsAt buffers n ∧ (tokens formatG).BreaksAt (packets.flatMap exprTokens) n

/-- A list with a string and a number. -/
def pairPacket : TypedSexp := .list none [.string none [97, 98], .number (some [116]) (.int32 7)]

end SexpParser

end OpenScap
