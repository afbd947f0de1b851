import OpenScap.RegexSyntax

/-!
# Where the traversal of a path pattern begins

`OVAL/probes/oval_fts.c` walks the file system from a directory that it reads off the pattern:
`__regex_locate` looks for the first character with a meaning of its own, the text is cut at the
slash before it, and `__string_unescape` drops the backslashes. The scanner does not know `+`, `{`
and `|`, takes a quantifier behind the slash for something after it, and knows no escaped letters.

## Main results

* `path_prefix_right` — a path that is found lies below the directory when every slash the cut may
  fall on is among the characters with which the pattern plainly begins;
* `not_path_prefix_right` — `^/a+/b$` is found in `/a/b`, which is not below `/a+`.
-/

open Regex

namespace OpenScap.OvalFts

/-- The character `/`. -/
def slash : UInt8 := '/'.toUInt8

/-- The character `^`. -/
def caret : UInt8 := '^'.toUInt8

/-- The character `\`. -/
def backslash : UInt8 := '\\'.toUInt8

/-! ### The prefix of a text -/

/-- The characters at which `__regex_locate` stops. -/
def regexSch : List UInt8 := ['^', '*', '?', '$', '.', '(', '['].map Char.toUInt8

/-- `__regex_locate`: how many characters are before the one it returns. -/
def regexLocate (escaped : Bool) : List UInt8 → ℕ
  | [] => 0
  | c :: str =>
      if c = backslash then regexLocate (!escaped) str + 1
      else if c ∈ regexSch then if escaped then regexLocate false str + 1 else 0
      -- an escaped character that is none of these leaves the flag set
      else regexLocate escaped str + 1

/-- The loop of `__string_unescape`, with the characters that are left to read. -/
def unescapeLoop : List UInt8 → ℕ → Option (List UInt8)
  | _, 0 => some []
  | [], _ + 1 => some []
  | c :: str, n + 1 =>
      if c = backslash then
        match str with
        | [] => none
        | d :: str => (unescapeLoop str (n - 1)).map (d :: ·)
      else (unescapeLoop str n).map (c :: ·)

/-- `__string_unescape`. -/
def stringUnescape (str : List UInt8) (len : ℕ) : Option (List UInt8) :=
  if len = 0 then none else unescapeLoop str len

/-- The loop of `extract_fixed_path_prefix`: back to a slash, but not to the first two places. -/
def cutLoop (path : List UInt8) : ℕ → ℕ
  | 0 => 0
  | s + 1 => if 1 < s + 1 ∧ path[s + 1]? ≠ some slash then cutLoop path s else s + 1

/-- A pattern without the caret it begins with. -/
def skipCaret (path : List UInt8) : List UInt8 :=
  if path.head? = some caret then path.tail else path

/-- Where `extract_fixed_path_prefix` cuts the pattern without its caret. -/
def cutPlace (path : List UInt8) : ℕ :=
  let s := regexLocate false path
  if s < path.length then cutLoop path (s - 1) else s

/-- `extract_fixed_path_prefix`. -/
def extractFixedPathPrefix (path : List UInt8) : List UInt8 :=
  let path := skipCaret path
  if 1 < cutPlace path then
    match stringUnescape path (cutPlace path) with
    | some s => if s.head? = some slash then s else [slash]
    | none => [slash]
  else [slash]

/-! ### What it is for -/

/-- A path is a directory or lies below it. -/
def Below (dir path : List UInt8) : Prop :=
  path = dir ∨ (dir.getLast? = some slash ∧ dir <+: path) ∨ dir ++ [slash] <+: path

/-- A pattern with a caret written before it. -/
def addCaret : Pattern → Pattern
  | .last b => .last (.cons .bol .once b)
  | .alt b r => .alt (.cons .bol .once b) r

/-- The pattern that `process_pattern_match` compiles: it begins with a caret. -/
def anchored (r : Pattern) : Pattern := if r.text.head? = some caret then r else addCaret r

/-- Every absolute path that is found lies below the directory the traversal begins in. -/
def PathPrefixRight (escape : Escapes) (r : Pattern) : Prop :=
  ∀ path, path.head? = some slash → (anchored r).FoundIn escape path →
    Below (extractFixedPathPrefix r.text) path

/-- The caret is written before the text. -/
theorem text_addCaret (r : Pattern) : (addCaret r).text = caret :: r.text := by
  cases r <;> rfl

/-- Without the caret, the text is that of the compiled pattern without its caret. -/
theorem text_anchored (r : Pattern) : (anchored r).text = caret :: skipCaret r.text := by
  rw [anchored, skipCaret]
  by_cases hcaret : r.text.head? = some caret
  · rw [if_pos hcaret, if_pos hcaret]
    exact (List.cons_head?_tail hcaret).symm
  · rw [if_neg hcaret, if_neg hcaret, text_addCaret]

/-- Every absolute path is below the root. -/
theorem below_root {path : List UInt8} (h : path.head? = some slash) : Below [slash] path := by
  refine .inr (.inl ⟨rfl, path.tail, ?_⟩)
  exact List.cons_head?_tail h

/-! ### The scanner -/

/-- The loop ends at a slash, unless it ends at the first two places. -/
theorem cutLoop_spec {path : List UInt8} {s : ℕ} (h : 1 < cutLoop path s) :
    path[cutLoop path s]? = some slash ∧ cutLoop path s ≤ s := by
  induction s with
  | zero => exact absurd h (Nat.not_lt_zero 1)
  | succ s ih =>
      rw [cutLoop] at h ⊢
      split_ifs at h ⊢ with hcut
      · exact ⟨(ih h).1, Nat.le_succ_of_le (ih h).2⟩
      · exact ⟨by_contra fun hne => hcut ⟨h, hne⟩, Nat.le_refl _⟩

/-- What is found is in the text or at its end. -/
theorem regexLocate_le (escaped : Bool) (str : List UInt8) :
    regexLocate escaped str ≤ str.length := by
  induction str generalizing escaped with
  | nil => exact Nat.le_refl 0
  | cons c str ih =>
      rw [regexLocate, List.length_cons]
      split_ifs
      · exact Nat.succ_le_succ (ih _)
      · exact Nat.succ_le_succ (ih _)
      · exact Nat.zero_le _
      · exact Nat.succ_le_succ (ih _)

/-- The text is cut at a slash before what is found, unless nothing is found. -/
theorem cutPlace_spec {path : List UInt8} (hcut : 1 < cutPlace path)
    (hfound : regexLocate false path < path.length) :
    path[cutPlace path]? = some slash ∧ cutPlace path < regexLocate false path := by
  have hplace : cutPlace path = cutLoop path (regexLocate false path - 1) := if_pos hfound
  rw [hplace] at hcut ⊢
  obtain ⟨hslash, hle⟩ := cutLoop_spec hcut
  exact ⟨hslash, by omega⟩

/-- Nothing is left to read. -/
theorem unescapeLoop_zero (str : List UInt8) : unescapeLoop str 0 = some [] := by
  cases str <;> rfl

/-- A character that is no backslash is kept. -/
theorem unescapeLoop_cons {c : UInt8} (hc : c ≠ backslash) (str : List UInt8) (n : ℕ) :
    unescapeLoop (c :: str) (n + 1) = (unescapeLoop str n).map (c :: ·) := by
  rw [unescapeLoop.eq_def]
  exact if_neg hc

/-- A backslash is dropped, and the character behind it kept. -/
theorem unescapeLoop_escaped (c : UInt8) (str : List UInt8) (n : ℕ) :
    unescapeLoop (backslash :: c :: str) (n + 1) = (unescapeLoop str (n - 1)).map (c :: ·) := by
  rw [unescapeLoop.eq_def]
  exact if_pos rfl

/-- The backslashes of plain characters are dropped. -/
theorem unescapeLoop_plainText (ps : List Plain) (rest : List UInt8) (n : ℕ) :
    unescapeLoop (plainText ps ++ rest) ((plainText ps).length + n) =
      (unescapeLoop rest n).map (ps.map Plain.char ++ ·) := by
  induction ps with
  | nil =>
      have hid : (([] : List Plain).map Plain.char ++ · : List UInt8 → List UInt8) = id := rfl
      rw [hid, Option.map_id, id, plainText, List.flatMap_nil, List.nil_append, List.length_nil,
        Nat.zero_add]
  | cons p ps ih =>
      rw [plainText_cons, List.append_assoc]
      cases p with
      | lit c ordinary =>
          have hc : c ≠ backslash := fun h => ordinary (h ▸ by decide)
          have hlen : (Plain.text (.lit c ordinary) ++ plainText ps).length + n =
              (plainText ps).length + n + 1 := by
            rw [List.length_append, Plain.text, List.length_singleton]
            omega
          rw [hlen, Plain.text, List.singleton_append, unescapeLoop_cons hc, ih, Option.map_map]
          rfl
      | esc c nonword =>
          have hlen : (Plain.text (.esc c nonword) ++ plainText ps).length + n =
              (plainText ps).length + n + 1 + 1 := by
            rw [List.length_append, Plain.text, List.length_cons, List.length_singleton]
            omega
          have htext : Plain.text (.esc c nonword) ++ (plainText ps ++ rest) =
              backslash :: c :: (plainText ps ++ rest) := rfl
          rw [hlen, htext, unescapeLoop_escaped, Nat.add_sub_cancel, ih, Option.map_map]
          rfl

/-- Where a slash is written in plain characters: alone or behind a backslash. -/
theorem plainText_slash {ps : List Plain} {i : ℕ} (h : (plainText ps)[i]? = some slash) :
    ∃ ps₁ p ps₂, ps = ps₁ ++ p :: ps₂ ∧ p.char = slash ∧
      i + 1 = (plainText ps₁).length + p.text.length := by
  induction ps generalizing i with
  | nil => exact absurd h (by rw [plainText, List.flatMap_nil, List.getElem?_nil]; exact nofun)
  | cons p ps ih =>
      rw [plainText_cons] at h
      by_cases hlt : i < p.text.length
      · refine ⟨[], p, ps, rfl, ?_⟩
        rw [List.getElem?_append_left hlt] at h
        cases p with
        | lit c ordinary =>
            obtain rfl : i = 0 := Nat.lt_one_iff.mp hlt
            exact ⟨Option.some.inj h, rfl⟩
        | esc c nonword =>
            obtain rfl | rfl : i = 0 ∨ i = 1 := by
              have htwo : i < 2 := hlt
              omega
            · exact absurd (Option.some.inj h) (by decide)
            · exact ⟨Option.some.inj h, rfl⟩
      · rw [List.getElem?_append_right (Nat.le_of_not_lt hlt)] at h
        obtain ⟨ps₁, q, ps₂, rfl, hchar, hplace⟩ := ih h
        refine ⟨p :: ps₁, q, ps₂, rfl, hchar, ?_⟩
        rw [plainText_cons, List.length_append]
        omega

/-! ### The condition -/

/-- The cut falls on the root, or what is left does not begin with a slash. -/
def CutAtRoot (path : List UInt8) : Prop :=
  (path.head? ≠ some slash ∧ ¬ [backslash, slash] <+: path) ∨
    ((∀ i < regexLocate false path, 2 ≤ i → path[i]? ≠ some slash) ∧
      (regexLocate false path < path.length ∨ path.length ≤ 1))

/-- Every slash on which the cut may fall is among the characters with which the pattern plainly
begins; when nothing but these is written, they end with a slash. -/
def CutInPlain (r : Pattern) : Prop :=
  ∃ ps b, anchored r = .last (.cons .bol .once (prepend ps b)) ∧
    (∀ i < regexLocate false (skipCaret r.text), 2 ≤ i →
      (skipCaret r.text)[i]? = some slash → i < (plainText ps).length) ∧
    (regexLocate false (skipCaret r.text) < (skipCaret r.text).length ∨
      (b = .nil ∧ (ps.map Plain.char).getLast? = some slash))

/-- An unescaped text begins with a slash only when the text does, or a backslash and a slash. -/
theorem head_unescapeLoop {str s : List UInt8} {n : ℕ} (h : unescapeLoop str n = some s)
    (hhead : s.head? = some slash) : str.head? = some slash ∨ [backslash, slash] <+: str := by
  cases n with
  | zero =>
      rw [unescapeLoop_zero] at h
      obtain rfl := Option.some.inj h
      exact absurd hhead nofun
  | succ n =>
      cases str with
      | nil =>
          obtain rfl := Option.some.inj h
          exact absurd hhead nofun
      | cons c str =>
          by_cases hc : c = backslash
          · subst hc
            cases str with
            | nil => exact absurd h nofun
            | cons d str =>
                rw [unescapeLoop_escaped] at h
                obtain ⟨t, -, rfl⟩ := Option.map_eq_some_iff.mp h
                obtain rfl : d = slash := Option.some.inj hhead
                exact .inr ⟨str, rfl⟩
          · rw [unescapeLoop_cons hc] at h
            obtain ⟨t, -, rfl⟩ := Option.map_eq_some_iff.mp h
            exact .inl hhead

/-- The traversal begins at the root. -/
theorem extract_of_cutAtRoot {path : List UInt8} (h : CutAtRoot (skipCaret path)) :
    extractFixedPathPrefix path = [slash] := by
  rw [extractFixedPathPrefix]
  split_ifs with hcut
  · obtain hhead | ⟨hno, hend⟩ := h
    · cases hs : stringUnescape (skipCaret path) (cutPlace (skipCaret path)) with
      | none => rfl
      | some s =>
          rw [stringUnescape, if_neg (Nat.ne_of_gt (Nat.lt_of_succ_lt hcut))] at hs
          have hno : s.head? ≠ some slash := by
            intro hs'
            obtain hfirst | hfirst := head_unescapeLoop hs hs'
            · exact hhead.1 hfirst
            · exact hhead.2 hfirst
          exact if_neg hno
    · exfalso
      by_cases hfound : regexLocate false (skipCaret path) < (skipCaret path).length
      · obtain ⟨hslash, hlt⟩ := cutPlace_spec hcut hfound
        exact hno _ hlt hcut hslash
      · have hplace : cutPlace (skipCaret path) = regexLocate false (skipCaret path) :=
          if_neg hfound
        have hle := regexLocate_le false (skipCaret path)
        omega
  · rfl

/-- What is found in an anchored branch that begins with plain characters begins with these. -/
theorem prefix_of_foundIn {escape : Escapes} {ps : List Plain} {b : Branch}
    {path : List UInt8}
    (h : (Pattern.last (.cons .bol .once (prepend ps b))).FoundIn escape path) :
    ps.map Plain.char <+: path := by
  obtain ⟨before, w, behind, rfl, hmatch⟩ := h
  obtain ⟨u, v, rfl, ⟨rfl, rfl⟩, hrest⟩ := (matches_once escape).mp hmatch
  have hv : ps.map Plain.char <+: v := matches_prepend hrest
  exact hv.trans ⟨behind, rfl⟩

/-- A text that was cut and unescaped is returned when it begins with a slash. -/
theorem below_extract {path found s : List UInt8} (hcut : 1 < cutPlace (skipCaret path))
    (hs : unescapeLoop (skipCaret path) (cutPlace (skipCaret path)) = some s)
    (hbelow : Below s found) (hroot : Below [slash] found) :
    Below (extractFixedPathPrefix path) found := by
  have hne : cutPlace (skipCaret path) ≠ 0 := Nat.ne_of_gt (Nat.lt_of_succ_lt hcut)
  rw [extractFixedPathPrefix, if_pos hcut, stringUnescape, if_neg hne, hs]
  by_cases hhead : s.head? = some slash
  · exact (congrArg (Below · found) (if_pos hhead)).mpr hbelow
  · exact (congrArg (Below · found) (if_neg hhead)).mpr hroot

/-- Plain characters that are cut at a slash leave a directory above what is found. -/
theorem below_plain {path found : List UInt8} {ps : List Plain} {b : Branch}
    (htext : skipCaret path = plainText ps ++ b.text) (hfound : ps.map Plain.char <+: found)
    (hroot : Below [slash] found) (hcut : 1 < cutPlace (skipCaret path))
    (hslash : (plainText ps)[cutPlace (skipCaret path)]? = some slash) :
    Below (extractFixedPathPrefix path) found := by
  obtain ⟨ps₁, p, ps₂, rfl, hchar, hplace⟩ := plainText_slash hslash
  have hsplit : skipCaret path = plainText ps₁ ++ (p.text ++ (plainText ps₂ ++ b.text)) := by
    rw [htext, plainText, List.flatMap_append, List.flatMap_cons, List.append_assoc,
      List.append_assoc]
    rfl
  have hdir : ps₁.map Plain.char ++ [slash] <+: found := by
    refine List.IsPrefix.trans ⟨ps₂.map Plain.char, ?_⟩ hfound
    rw [List.map_append, List.map_cons, hchar, List.append_assoc]
    rfl
  have hcutEq : cutPlace (skipCaret path) = (plainText ps₁).length + (p.text.length - 1) := by
    have hpos : 0 < p.text.length := by cases p <;> exact Nat.succ_pos _
    omega
  have hloop := unescapeLoop_plainText ps₁ (p.text ++ (plainText ps₂ ++ b.text))
    (p.text.length - 1)
  rw [← hsplit, ← hcutEq] at hloop
  cases p with
  | lit c ordinary =>
      have hs : unescapeLoop (skipCaret path) (cutPlace (skipCaret path)) =
          some (ps₁.map Plain.char) := by
        rw [hloop, Plain.text, List.length_singleton, Nat.sub_self, unescapeLoop_zero]
        exact congrArg some (List.append_nil _)
      exact below_extract hcut hs (.inr (.inr hdir)) hroot
  | esc c nonword =>
      -- the loop reads the slash behind the backslash, where the text is cut
      have hs : unescapeLoop (skipCaret path) (cutPlace (skipCaret path)) =
          some (ps₁.map Plain.char ++ [slash]) := by
        obtain rfl : c = slash := hchar
        have htwo : (Plain.text (.esc slash nonword)).length - 1 = 0 + 1 := rfl
        have hcons : Plain.text (.esc slash nonword) ++ (plainText ps₂ ++ b.text) =
            backslash :: slash :: (plainText ps₂ ++ b.text) := rfl
        rw [hloop, htwo, hcons, unescapeLoop_escaped, unescapeLoop_zero]
        rfl
      exact below_extract hcut hs (.inr (.inl ⟨List.getLast?_concat, hdir⟩)) hroot

/-- The cut falls on plain characters. -/
theorem below_of_cutInPlain {escape : Escapes} {r : Pattern} {found : List UInt8}
    (h : CutInPlain r) (hroot : Below [slash] found)
    (hfound : (anchored r).FoundIn escape found) : Below (extractFixedPathPrefix r.text) found := by
  obtain ⟨ps, b, hshape, hslashes, hend⟩ := h
  have htext : skipCaret r.text = plainText ps ++ b.text := by
    have hcons := (text_anchored r).symm
    rw [hshape] at hcons
    have hb : (Pattern.last (.cons .bol .once (prepend ps b))).text =
        caret :: (prepend ps b).text := rfl
    rw [hb, text_prepend] at hcons
    exact (List.cons.inj hcons).2
  rw [hshape] at hfound
  have hplain := prefix_of_foundIn hfound
  by_cases hcut : 1 < cutPlace (skipCaret r.text)
  · by_cases hspecial : regexLocate false (skipCaret r.text) < (skipCaret r.text).length
    · obtain ⟨hslash, hlt⟩ := cutPlace_spec hcut hspecial
      have hin := hslashes _ hlt hcut hslash
      refine below_plain htext hplain hroot hcut ?_
      have happend : (plainText ps ++ b.text)[cutPlace (skipCaret r.text)]? =
          (plainText ps)[cutPlace (skipCaret r.text)]? := List.getElem?_append_left hin
      rw [← htext, hslash] at happend
      exact happend.symm
    · obtain ⟨rfl, hlast⟩ := hend.resolve_left hspecial
      have hplace : cutPlace (skipCaret r.text) = (plainText ps).length + 0 := by
        have hlen : regexLocate false (skipCaret r.text) = (skipCaret r.text).length :=
          Nat.le_antisymm (regexLocate_le _ _) (Nat.le_of_not_lt hspecial)
        rw [cutPlace, if_neg hspecial, hlen, htext, Branch.text, List.append_nil, Nat.add_zero]
      have hs : unescapeLoop (skipCaret r.text) (cutPlace (skipCaret r.text)) =
          some (ps.map Plain.char) := by
        rw [hplace, htext, unescapeLoop_plainText, unescapeLoop_zero]
        exact congrArg some (List.append_nil _)
      exact below_extract hcut hs (.inr (.inl ⟨hlast, hplain⟩)) hroot
  · rw [extractFixedPathPrefix, if_neg hcut]
    exact hroot

/-- **The traversal misses nothing when it begins at the root, or the cut falls on characters with
which the pattern plainly begins.** -/
theorem path_prefix_right (escape : Escapes) (r : Pattern)
    (h : CutAtRoot (skipCaret r.text) ∨ CutInPlain r) : PathPrefixRight escape r := by
  intro path hpath hfound
  obtain hcut | hcut := h
  · rw [extract_of_cutAtRoot hcut]
    exact below_root hpath
  · exact below_of_cutInPlain hcut (below_root hpath) hfound

/-- The plain characters `/usr/`. -/
def usr : List Plain :=
  [.lit slash (by decide), .lit 'u'.toUInt8 (by decide), .lit 's'.toUInt8 (by decide),
    .lit 'r'.toUInt8 (by decide), .lit slash (by decide)]

/-- `^/usr/.*` is searched from `/usr`, where no escape matches. -/
theorem path_prefix_right_usr :
    PathPrefixRight ⟨fun _ _ _ _ => False, fun _ _ => False⟩
      (.last (.cons .bol .once (prepend usr (.cons .any .star .nil)))) := by
  refine path_prefix_right _ _ (.inr ⟨usr, .cons .any .star .nil, rfl, ?_, .inl ?_⟩)
  · decide
  · decide

/-! ### A character that is repeated before the cut -/

/-- The pattern `^/a+/b$`. -/
def repeated : Pattern :=
  .last (.cons .bol .once (.cons (.lit slash (by decide)) .once
    (.cons (.lit 'a'.toUInt8 (by decide)) .plus (.cons (.lit slash (by decide)) .once
      (.cons (.lit 'b'.toUInt8 (by decide)) .once (.cons .eol .once .nil))))))

/-- The path `/a/b`. -/
def single : List UInt8 := ['/', 'a', '/', 'b'].map Char.toUInt8

/-- The pattern is found in the path. -/
theorem repeated_foundIn (escape : Escapes) : (anchored repeated).FoundIn escape single := by
  refine ⟨[], single, [], rfl, ?_⟩
  refine (matches_once escape).mpr ⟨[], single, rfl, ⟨rfl, rfl⟩, ?_⟩
  refine (matches_once escape).mpr ⟨[slash], single.tail, rfl, rfl, ?_⟩
  refine ⟨['a'.toUInt8], [slash, 'b'.toUInt8], 1, rfl, Nat.le_refl 1,
    ⟨['a'.toUInt8], [], rfl, rfl, rfl⟩, ?_⟩
  refine (matches_once escape).mpr ⟨[slash], ['b'.toUInt8], rfl, rfl, ?_⟩
  refine (matches_once escape).mpr ⟨['b'.toUInt8], [], rfl, rfl, ?_⟩
  exact (matches_once escape).mpr ⟨[], [], rfl, ⟨rfl, .inl rfl⟩, rfl⟩

/-- The traversal begins in `/a+`. -/
theorem extract_repeated :
    extractFixedPathPrefix repeated.text = ['/', 'a', '+'].map Char.toUInt8 := by
  decide

/-- **A file is missed**: `/a/b` is not below `/a+`. -/
theorem not_path_prefix_right :
    ¬ ∀ (escape : Escapes) (r : Pattern), PathPrefixRight escape r := by
  intro h
  have hbelow := h ⟨fun _ _ _ _ => False, fun _ _ => False⟩ repeated single rfl (repeated_foundIn _)
  rw [extract_repeated] at hbelow
  obtain heq | ⟨hlast, -⟩ | hdir := hbelow
  · exact absurd heq (by decide)
  · exact absurd hlast (by decide)
  · exact absurd hdir (by decide)

end OpenScap.OvalFts
