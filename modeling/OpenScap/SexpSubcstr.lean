import Mathlib.Data.List.Basic
import Mathlib.Tactic.SplitIfs
import OpenScap.Sexp

/-!
# Substrings of S-expression strings

`SEXP_string_subcstr` makes a C string of a part of a string. It limits the length to what is
behind `beg` and to `len`, and then takes the length of the whole string again: so many bytes are
copied from `beg` on, whatever `len` is. The only caller passes a `len` of 0 for a substring that
reaches to the end, which is taken for a limit.

## Main results

* `subcstr_reads` — which bytes are read;
* `sexpStringSubcstr_refines` — the copy agrees with the model of strings without memory;
* `subcstr_iff` — when the substring is returned, and no other byte is read.
-/

namespace OpenScap.Subcstr

/-! ### Strings in memory -/

/-- `SEXP_valtype_t`. -/
inductive SexpValtype
  | empty
  | number
  | string
  | list
  deriving DecidableEq, Repr

/-- `SEXP_val_t`: the type, the size that the header has, and the bytes from `mem` on, those of
the value and those behind it. -/
structure SexpVal where
  type : SexpValtype
  size : ℕ
  mem : ℕ → UInt8

/-- The string that is stored. -/
def SexpVal.chars (v : SexpVal) : List UInt8 := (List.range v.size).map v.mem

@[simp] theorem SexpVal.length_chars (v : SexpVal) : v.chars.length = v.size := by
  simp [SexpVal.chars]

/-- What a call comes to: the memory that the returned pointer points to, unless it is null, the
`errno` if it is set, and the offsets from `mem` of the bytes that are read. -/
structure Copied where
  ret : Option (List UInt8)
  errno : Option Errno
  reads : List ℕ

/-- `SEXP_string_subcstr`. -/
def sexpStringSubcstr : Option SexpVal → ℕ → ℕ → Copied
  | none, _, _ => ⟨none, some .efault, []⟩
  | some v_dsc, beg, len =>
      if v_dsc.type ≠ .string then ⟨none, some .einval, []⟩
      else
        let s_len := v_dsc.size
        if beg > s_len then ⟨none, some .einval, []⟩
        else
          let s_len := s_len - beg
          let s_len := if s_len > len then len else s_len
          if s_len > 0 then
            -- the length that was limited is forgotten here
            let s_len := v_dsc.size
            let reads := List.range' beg s_len
            ⟨some (reads.map v_dsc.mem ++ [0]), none, reads⟩
          else ⟨none, none, []⟩

/-- A string that is stored. -/
structure SexpString where
  val : SexpVal
  /-- The value is a string. -/
  string : val.type = .string

variable (s : SexpString) (beg len : ℕ)

/-- The call on a string. -/
def SexpString.subcstr : Copied := sexpStringSubcstr (some s.val) beg len

/-- The substring that is asked for: `len` bytes from `beg` on, or all of them if `len` is 0. -/
def SexpString.substring : List UInt8 :=
  if len = 0 then s.val.chars.drop beg else (s.val.chars.drop beg).take len

/-- No byte outside the string is read. -/
def SexpString.InBounds : Prop := ∀ i ∈ (s.subcstr beg len).reads, i < s.val.size

/-- The substring is returned, with its terminator, and no byte outside the string is read. -/
def SexpString.Returned : Prop :=
  (s.subcstr beg len).ret = some (s.substring beg len ++ [0]) ∧ s.InBounds beg len

/-- The substring is returned, or the null pointer in place of an empty one, and no byte outside
the string is read. -/
def SexpString.ReturnedOrNull : Prop :=
  ((s.subcstr beg len).ret = some (s.substring beg len ++ [0]) ∨
    (s.subcstr beg len).ret = none ∧ s.substring beg len = []) ∧ s.InBounds beg len

/-! ### What is copied -/

/-- The whole length is copied, or nothing. -/
theorem SexpString.subcstr_cases :
    (beg < s.val.size ∧ 0 < len ∧
      s.subcstr beg len = ⟨some ((List.range' beg s.val.size).map s.val.mem ++ [0]), none,
        List.range' beg s.val.size⟩) ∨
    ((s.val.size ≤ beg ∨ len = 0) ∧ (s.subcstr beg len).ret = none ∧
      (s.subcstr beg len).reads = []) := by
  rw [SexpString.subcstr, sexpStringSubcstr, if_neg (not_not.mpr s.string)]
  simp only
  by_cases hbeg : beg > s.val.size
  · rw [if_pos hbeg]
    exact .inr ⟨.inl (by omega), rfl, rfl⟩
  · rw [if_neg hbeg]
    by_cases hlen : 0 < (if s.val.size - beg > len then len else s.val.size - beg)
    · rw [if_pos hlen]
      refine .inl ⟨?_, ?_, rfl⟩ <;> split_ifs at hlen <;> omega
    · rw [if_neg hlen]
      refine .inr ⟨?_, rfl, rfl⟩
      split_ifs at hlen <;> omega

/-- **The bytes that are read**: none, or as many as the string has from `beg` on. -/
theorem subcstr_reads : s.InBounds beg len ↔ beg = 0 ∨ s.val.size ≤ beg ∨ len = 0 := by
  unfold SexpString.InBounds
  rcases s.subcstr_cases beg len with ⟨hbeg, hlen, heq⟩ | ⟨hnone, -, hreads⟩
  · rw [heq]
    simp only [List.mem_range'_1]
    constructor
    · intro h
      have hlast := h (beg + (s.val.size - 1)) (by omega)
      omega
    · intro h i hi
      omega
  · rw [hreads]
    exact iff_of_true (fun i hi => nomatch hi) (.inr hnone)

/-- From the beginning on, the copy is the whole string. -/
theorem chars_eq_range' : s.val.chars = (List.range' 0 s.val.size).map s.val.mem := by
  rw [SexpVal.chars, List.range_eq_range']

/-- The substring is empty only at the end of the string. -/
theorem substring_eq_nil_iff : s.substring beg len = [] ↔ s.val.size ≤ beg := by
  unfold SexpString.substring
  split_ifs with hlen
  · rw [List.drop_eq_nil_iff, SexpVal.length_chars]
  · rw [List.take_eq_nil_iff, or_iff_right hlen, List.drop_eq_nil_iff, SexpVal.length_chars]

/-- A C string ends at its terminator at the latest. -/
theorem takeWhile_terminated (text : List UInt8) :
    (text ++ [0]).takeWhile (· ≠ 0) = text.takeWhile (· ≠ 0) := by
  rw [List.takeWhile_append]
  split_ifs with h
  · rw [(List.takeWhile_prefix _).eq_of_length h]
    exact List.append_nil text
  · rfl

/-- The copy agrees with the model of strings that has no memory: it is undefined there when a
byte outside the string is read. -/
theorem sexpStringSubcstr_refines : (Sexp.string s.val.chars).subcstr beg len =
    if 0 < beg ∧ beg < s.val.size ∧ 0 < len then .undefined
    else .ok ((s.subcstr beg len).ret.map fun text => text.takeWhile (· ≠ 0)) := by
  rw [Sexp.subcstr, SexpVal.length_chars]
  rcases s.subcstr_cases beg len with ⟨hbeg, hlen, heq⟩ | ⟨hnone, hret, -⟩
  · rw [if_neg (by omega), if_pos (by omega), heq]
    by_cases h0 : beg = 0
    · subst h0
      rw [if_pos rfl, if_neg (by omega), ← chars_eq_range', Option.map_some,
        takeWhile_terminated]
    · rw [if_neg h0, if_pos (by omega)]
  · rw [hret, if_neg (by omega : ¬ (0 < beg ∧ beg < s.val.size ∧ 0 < len))]
    split_ifs with h₁ h₂
    · rfl
    · omega
    · omega
    · rfl

/-- **When the substring is returned.** Only the whole string, from the beginning on with a
length that is not too small; the null pointer stands for the empty substring at the end. -/
theorem subcstr_iff :
    (s.Returned beg len ↔ beg = 0 ∧ 0 < s.val.size ∧ s.val.size ≤ len) ∧
    (s.ReturnedOrNull beg len ↔ s.val.size ≤ beg ∨ beg = 0 ∧ s.val.size ≤ len) := by
  have hreturned : s.Returned beg len ↔ beg = 0 ∧ 0 < s.val.size ∧ s.val.size ≤ len := by
    unfold SexpString.Returned
    rw [subcstr_reads]
    rcases s.subcstr_cases beg len with ⟨hbeg, hlen, heq⟩ | ⟨hnone, hret, -⟩
    · rw [heq, Option.some.injEq, List.append_cancel_right_eq]
      constructor
      · rintro ⟨hcopy, hread⟩
        obtain rfl : beg = 0 := by omega
        refine ⟨rfl, hbeg, ?_⟩
        -- what is copied is no longer than what is asked for
        have hlength := congrArg List.length hcopy
        rw [SexpString.substring, if_neg (by omega), List.length_map, List.length_range',
          List.length_take, List.drop_zero, SexpVal.length_chars] at hlength
        omega
      · rintro ⟨rfl, -, hle⟩
        refine ⟨?_, .inl rfl⟩
        rw [SexpString.substring, if_neg (by omega), List.drop_zero,
          List.take_of_length_le (by rw [SexpVal.length_chars]; exact hle), chars_eq_range']
    · rw [hret]
      exact iff_of_false (fun h => nomatch h.1) (by omega)
  refine ⟨hreturned, ?_⟩
  unfold SexpString.ReturnedOrNull
  rw [or_and_right]
  change s.Returned beg len ∨ _ ↔ _
  rw [hreturned, substring_eq_nil_iff, subcstr_reads]
  rcases s.subcstr_cases beg len with ⟨hbeg, hlen, heq⟩ | ⟨hnone, hret, -⟩
  · rw [heq]
    simp only [reduceCtorEq, false_and, or_false]
    omega
  · rw [hret]
    simp only [true_and]
    omega

/-- A string of two bytes. -/
def twoBytes : SexpString := ⟨⟨.string, 2, fun _ => ascii 'a'⟩, rfl⟩

/-- From the second byte on, nothing is returned for a length of 0, and a byte behind the string
is read for a length of 1. -/
theorem not_returnedOrNull : ¬ (∀ (s : SexpString) (beg len : ℕ), s.ReturnedOrNull beg len) ∧
    ¬ twoBytes.ReturnedOrNull 1 0 ∧ ¬ twoBytes.InBounds 1 1 := by
  have hnull : ¬ twoBytes.ReturnedOrNull 1 0 := by
    rintro ⟨h | ⟨-, h⟩, -⟩
    · exact nomatch h
    · exact nomatch h
  refine ⟨fun h => hnull (h twoBytes 1 0), hnull, fun h => ?_⟩
  exact absurd (h 2 (by decide)) (by decide)

end OpenScap.Subcstr
