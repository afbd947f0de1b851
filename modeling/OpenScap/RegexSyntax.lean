import Mathlib.Data.List.Basic
import Mathlib.Data.Nat.Notation

/-!
# Regular expressions as they are written

Patterns of literals, `.`, classes, groups, alternatives, quantifiers, anchors and escapes: how
they are written, and which parts of a text they match. A part is matched in its context, since
anchors depend on what is around it. The meaning of escaped letters and digits is left open.

## Main results

* `text_prepend` — how a branch that begins with plain characters is written;
* `matches_prepend` — what such a branch matches begins with these characters.
-/

namespace Regex

/-! ### Syntax -/

/-- The characters that have a meaning of their own. -/
def metachars : List UInt8 :=
  ['\\', '^', '$', '.', '[', '|', '(', ')', '?', '*', '+', '{'].map Char.toUInt8

/-- A letter or a digit. -/
def isWord (c : UInt8) : Bool :=
  ('a'.toUInt8 ≤ c && c ≤ 'z'.toUInt8) || ('A'.toUInt8 ≤ c && c ≤ 'Z'.toUInt8) ||
    ('0'.toUInt8 ≤ c && c ≤ '9'.toUInt8)

/-- A member of a class. -/
inductive ClassItem
  | one (c : UInt8)
  | escaped (c : UInt8)
  | range (a b : UInt8)

/-- A class, or the complement of one. -/
structure CharClass where
  negated : Bool
  items : List ClassItem

/-- How often something is repeated: `{m}`, `{m,}` and `{m,n}` are `braces`. -/
inductive Quant
  | once
  | opt
  | star
  | plus
  | braces (m : ℕ) (n : Option (Option ℕ))

mutual

/-- What can be repeated. -/
inductive Atom
  | lit (c : UInt8) (ordinary : c ∉ metachars)
  | esc (c : UInt8)
  | any
  | cls (k : CharClass)
  | bol
  | eol
  | group (r : Pattern)

/-- Repeated atoms one after another. -/
inductive Branch
  | nil
  | cons (a : Atom) (q : Quant) (b : Branch)

/-- Alternatives. -/
inductive Pattern
  | last (b : Branch)
  | alt (b : Branch) (r : Pattern)

end

/-! ### How patterns are written -/

/-- The digits of a number. -/
def digits (n : ℕ) : List UInt8 := (Nat.toDigits 10 n).map Char.toUInt8

/-- A member of a class as it is written. -/
def ClassItem.text : ClassItem → List UInt8
  | .one c => [c]
  | .escaped c => ['\\'.toUInt8, c]
  | .range a b => [a, '-'.toUInt8, b]

/-- A class as it is written. -/
def CharClass.text (k : CharClass) : List UInt8 :=
  ['['.toUInt8] ++ (if k.negated then ['^'.toUInt8] else []) ++ k.items.flatMap ClassItem.text ++
    [']'.toUInt8]

/-- A quantifier as it is written. -/
def Quant.text : Quant → List UInt8
  | .once => []
  | .opt => ['?'.toUInt8]
  | .star => ['*'.toUInt8]
  | .plus => ['+'.toUInt8]
  | .braces m none => ['{'.toUInt8] ++ digits m ++ ['}'.toUInt8]
  | .braces m (some none) => ['{'.toUInt8] ++ digits m ++ [','.toUInt8, '}'.toUInt8]
  | .braces m (some (some n)) =>
      ['{'.toUInt8] ++ digits m ++ [','.toUInt8] ++ digits n ++ ['}'.toUInt8]

mutual

/-- An atom as it is written. -/
def Atom.text : Atom → List UInt8
  | .lit c _ => [c]
  | .esc c => ['\\'.toUInt8, c]
  | .any => ['.'.toUInt8]
  | .cls k => k.text
  | .bol => ['^'.toUInt8]
  | .eol => ['$'.toUInt8]
  | .group r => ['('.toUInt8] ++ r.text ++ [')'.toUInt8]

/-- A branch as it is written. -/
def Branch.text : Branch → List UInt8
  | .nil => []
  | .cons a q b => a.text ++ q.text ++ b.text

/-- Alternatives as they are written. -/
def Pattern.text : Pattern → List UInt8
  | .last b => b.text
  | .alt b r => b.text ++ ['|'.toUInt8] ++ r.text

end

/-! ### What patterns match -/

/-- Which parts of a text are matched: what is before, the part, and what is behind. -/
abbrev Meaning := List UInt8 → List UInt8 → List UInt8 → Prop

/-- What letters and digits behind a backslash match, and which characters they stand for in a
class. -/
structure Escapes where
  meaning : UInt8 → Meaning
  inClass : UInt8 → UInt8 → Prop

/-- A number of repetitions is allowed. -/
def Quant.Allows (n : ℕ) : Quant → Prop
  | .once => n = 1
  | .opt => n ≤ 1
  | .star => True
  | .plus => 1 ≤ n
  | .braces m none => n = m
  | .braces m (some none) => m ≤ n
  | .braces m (some (some k)) => m ≤ n ∧ n ≤ k

/-- Something is matched repeatedly. -/
def Repeats (m : Meaning) : ℕ → Meaning
  | 0, _, w, _ => w = []
  | n + 1, before, w, behind =>
      ∃ u v, w = u ++ v ∧ m before u (v ++ behind) ∧ Repeats m n (before ++ u) v behind

section Matches

variable (escape : Escapes)

/-- A member of a class has a character. -/
def ClassItem.Has (c : UInt8) : ClassItem → Prop
  | .one d => c = d
  | .escaped d => if isWord d then escape.inClass d c else c = d
  | .range a b => a ≤ c ∧ c ≤ b

/-- A class has a character. -/
def CharClass.Has (k : CharClass) (c : UInt8) : Prop :=
  if k.negated then ¬ ∃ item ∈ k.items, item.Has escape c
  else ∃ item ∈ k.items, item.Has escape c

mutual

/-- What an atom matches. -/
def Atom.Matches : Atom → Meaning
  | .lit c _, _, w, _ => w = [c]
  | .esc c, before, w, behind => if isWord c then escape.meaning c before w behind else w = [c]
  | .any, _, w, _ => ∃ c, w = [c] ∧ c ≠ '\n'.toUInt8
  | .cls k, _, w, _ => ∃ c, w = [c] ∧ k.Has escape c
  | .bol, before, w, _ => w = [] ∧ before = []
  | .eol, _, w, behind => w = [] ∧ (behind = [] ∨ behind = ['\n'.toUInt8])
  | .group r, before, w, behind => r.Matches before w behind

/-- What a branch matches. -/
def Branch.Matches : Branch → Meaning
  | .nil, _, w, _ => w = []
  | .cons a q b, before, w, behind =>
      ∃ u v n, w = u ++ v ∧ q.Allows n ∧ Repeats a.Matches n before u (v ++ behind) ∧
        b.Matches (before ++ u) v behind

/-- What alternatives match. -/
def Pattern.Matches : Pattern → Meaning
  | .last b, before, w, behind => b.Matches before w behind
  | .alt b r, before, w, behind => b.Matches before w behind ∨ r.Matches before w behind

end

/-- A pattern is found in a text. -/
def Pattern.FoundIn (r : Pattern) (text : List UInt8) : Prop :=
  ∃ before w behind, text = before ++ w ++ behind ∧ r.Matches escape before w behind

/-- An atom that is not repeated. -/
theorem matches_once {a : Atom} {b : Branch} {before w behind : List UInt8} :
    (Branch.cons a .once b).Matches escape before w behind ↔
      ∃ u v, w = u ++ v ∧ a.Matches escape before u (v ++ behind) ∧
        b.Matches escape (before ++ u) v behind := by
  rw [Branch.Matches]
  constructor
  · rintro ⟨u, v, n, rfl, hn, hrepeats, hb⟩
    rw [Quant.Allows] at hn
    subst hn
    obtain ⟨u₁, u₂, rfl, ha, hu₂⟩ := hrepeats
    rw [Repeats] at hu₂
    subst hu₂
    rw [List.append_nil] at hb ⊢
    exact ⟨u₁, v, rfl, ha, hb⟩
  · rintro ⟨u, v, rfl, ha, hb⟩
    exact ⟨u, v, 1, rfl, rfl, ⟨u, [], (List.append_nil u).symm, ha, rfl⟩, hb⟩

end Matches

/-! ### Plain characters -/

/-- A character that stands for itself, or does so behind a backslash. -/
inductive Plain
  | lit (c : UInt8) (ordinary : c ∉ metachars)
  | esc (c : UInt8) (nonword : isWord c = false)

/-- The atom. -/
def Plain.atom : Plain → Atom
  | .lit c h => .lit c h
  | .esc c _ => .esc c

/-- The character. -/
def Plain.char : Plain → UInt8
  | .lit c _ => c
  | .esc c _ => c

/-- The character as it is written. -/
def Plain.text : Plain → List UInt8
  | .lit c _ => [c]
  | .esc c _ => ['\\'.toUInt8, c]

/-- Plain characters as they are written. -/
def plainText (ps : List Plain) : List UInt8 := ps.flatMap Plain.text

/-- The first of some plain characters. -/
theorem plainText_cons (p : Plain) (ps : List Plain) :
    plainText (p :: ps) = p.text ++ plainText ps :=
  List.flatMap_cons

/-- A branch behind plain characters that are not repeated. -/
def prepend (ps : List Plain) (b : Branch) : Branch :=
  ps.foldr (fun p b => .cons p.atom .once b) b

/-- **How a branch that begins with plain characters is written.** -/
theorem text_prepend (ps : List Plain) (b : Branch) :
    (prepend ps b).text = plainText ps ++ b.text := by
  induction ps with
  | nil => rfl
  | cons p ps ih =>
      have hatom : p.atom.text = p.text := by cases p <;> rfl
      rw [prepend, List.foldr_cons, ← prepend, Branch.text, ih, hatom,
        plainText_cons, Quant.text, List.append_nil, List.append_assoc]

/-- What a branch that begins with plain characters matches begins with these characters. -/
theorem matches_prepend {escape : Escapes} {ps : List Plain} {b : Branch}
    {before w behind : List UInt8} (h : (prepend ps b).Matches escape before w behind) :
    ps.map Plain.char <+: w := by
  induction ps generalizing before w with
  | nil => exact List.nil_prefix
  | cons p ps ih =>
      obtain ⟨u, v, rfl, ha, hb⟩ := (matches_once escape).mp h
      have hu : u = [p.char] := by
        cases p with
        | lit c ordinary => exact ha
        | esc c nonword =>
            have hnot : ¬ isWord c = true := by rw [nonword]; decide
            exact (if_neg hnot).mp ha
      rw [hu, List.map_cons]
      exact (List.prefix_cons_inj _).mpr (ih hb)

end Regex
