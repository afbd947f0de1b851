import Mathlib.Data.List.Infix
import Mathlib.Data.List.ReduceOption
import OpenScap.FallibleLoop
import OpenScap.Odometer
import OpenScap.OvalTimedif
import OpenScap.SubstringSearch

/-!
# The functions that put texts together and split them

`concat` makes a value of every choice of one text from each component; the number of the choices is
an `int`. `split` cuts the texts of its first component at a delimiter, whose length is an `int`,
too; without a delimiter the characters are counted by one. Components are given by the flag and the
values of their evaluation. Texts have no NUL in them, so that the part of a buffer up to the place
where the text is terminated is a text again.

## Main results

* `concat_correct_iff` — when there is one value for every choice;
* `splitLoop_spec` — the pieces of a text are joined to the text again, and have no delimiter in
  them;
* `split_correct_iff` — for which delimiters and texts the function does this.
-/

open FallibleLoop Odometer SubstringSearch

namespace OpenScap.TextFunctions

/-! ### Components -/

/-- The number of a flag. -/
def flagCode : SyscharFlag → ℕ
  | .unknown => 0
  | .error => 1
  | .complete => 2
  | .incomplete => 3
  | .doesNotExist => 4
  | .notCollected => 5
  | .notApplicable => 6

/-- `_flag_agg_map`. -/
def flagAggMap : List (List SyscharFlag) :=
  [[.unknown, .error, .complete, .incomplete, .doesNotExist, .notCollected, .notApplicable],
    [.error, .error, .error, .error, .error, .error, .error],
    [.complete, .error, .complete, .incomplete, .doesNotExist, .notCollected, .notApplicable],
    [.incomplete, .error, .incomplete, .incomplete, .doesNotExist, .notCollected, .notApplicable],
    [.doesNotExist, .error, .doesNotExist, .doesNotExist, .doesNotExist, .notCollected,
      .notApplicable],
    [.notCollected, .error, .notCollected, .notCollected, .notCollected, .notCollected,
      .notApplicable],
    [.notApplicable, .error, .notApplicable, .notApplicable, .notApplicable, .notApplicable,
      .notApplicable]]

/-- `_AGG_FLAG`. -/
def aggFlag (f1 f2 : SyscharFlag) : SyscharFlag :=
  (flagAggMap.getD (flagCode f2) []).getD (flagCode f1) .unknown

/-- `_HAS_VALUES`. -/
def hasValues (flag : SyscharFlag) : Bool := flag = .complete || flag = .incomplete

/-- What the evaluation of a component returns and collects. -/
abbrev ComponentResult := SyscharFlag × List ComponentValue

/-- The texts of the values of a component. -/
def ComponentResult.texts (component : ComponentResult) : List (List UInt8) :=
  component.2.map ComponentValue.text

/-- The flag of a function of components. -/
def aggFlags (components : List ComponentResult) : SyscharFlag :=
  components.foldl (fun flag component => aggFlag flag component.1) .unknown

/-! ### The function `concat` -/

/-- The number of values of a component. -/
def countOf (component : ComponentResult) : ℤ := toInt32 component.2.length

/-- The number of values that are made. -/
def catnumOf (components : List ComponentResult) : ℤ :=
  components.foldl (fun catnum component =>
    if countOf component = 0 then catnum else toInt32 (catnum * countOf component)) 1

/-- The iterator over the texts of a component, at the first one. -/
def iteratorOf (component : ComponentResult) : Option (Wheel (List UInt8)) :=
  if countOf component = 0 then none else start component.texts

/-- The value of the texts that the iterators are at. -/
def concatValue (iterators : List (Option (Wheel (List UInt8)))) : ComponentValue :=
  ⟨.string, (iterators.map fun it => (it.map Wheel.current).getD []).flatten⟩

/-- The loop that goes on to the next texts. -/
def rotateTexts : List (Option (Wheel (List UInt8))) → List (Option (Wheel (List UInt8)))
  | [] => []
  | none :: iterators => none :: rotateTexts iterators
  | some it :: iterators =>
      match it.rest with
      | text :: rest => some ⟨it.values, text, rest⟩ :: iterators
      | [] => some it.reset :: rotateTexts iterators

/-- The loop that makes the values, so many. -/
def concatLoop : ℕ → List (Option (Wheel (List UInt8))) → List ComponentValue
  | 0, _ => []
  | passes + 1, iterators =>
      concatValue iterators ::
        concatLoop passes (if passes = 0 then iterators else rotateTexts iterators)

/-- `_oval_component_evaluate_CONCAT`. -/
def evaluateConcat (components : List ComponentResult) : ComponentResult :=
  let flag := aggFlags components
  if 0 < components.length ∧ hasValues flag then
    (flag, concatLoop (catnumOf components).toNat (components.map iteratorOf))
  else (flag, [])

/-- One value for each choice of a text from every component, the first component the fastest. -/
def ConcatCorrect (components : List ComponentResult) : Prop :=
  (evaluateConcat components).2 =
    (components.map ComponentResult.texts).sections.map fun texts => ⟨.string, texts.flatten⟩

/-! ### The values that `concat` makes -/

/-- The texts that the iterators are at. -/
theorem concatValue_eq (iterators : List (Option (Wheel (List UInt8)))) :
    concatValue iterators = ⟨.string, (choice iterators.reduceOption).flatten⟩ := by
  induction iterators with
  | nil => rfl
  | cons it iterators ih =>
      rw [concatValue, ComponentValue.mk.injEq] at ih
      cases it with
      | none => simpa [concatValue] using ih.2
      | some it => simpa [concatValue, choice] using ih.2

/-- A step of the iterators. -/
theorem reduceOption_rotateTexts (iterators : List (Option (Wheel (List UInt8)))) :
    (rotateTexts iterators).reduceOption = rotate iterators.reduceOption := by
  induction iterators with
  | nil => rfl
  | cons it iterators ih =>
      cases it with
      | none => simpa [rotateTexts] using ih
      | some it =>
          obtain ⟨values, current, rest⟩ := it
          cases rest with
          | nil => simp [rotateTexts, rotate, ih]
          | cons text rest => simp [rotateTexts, rotate]

/-- The values are those of a run of the iterators. -/
theorem concatLoop_eq (passes : ℕ) (iterators : List (Option (Wheel (List UInt8)))) :
    concatLoop passes iterators =
      (run passes iterators.reduceOption).map fun texts => ⟨.string, texts.flatten⟩ := by
  induction passes generalizing iterators with
  | zero => rfl
  | succ passes ih =>
      rw [concatLoop, run, List.map_cons, concatValue_eq]
      cases passes with
      | zero => rfl
      | succ passes =>
          rw [if_neg (Nat.succ_ne_zero _), ih, reduceOption_rotateTexts]

/-- There are as many values as passes. -/
theorem length_concatLoop (passes : ℕ) (iterators : List (Option (Wheel (List UInt8)))) :
    (concatLoop passes iterators).length = passes := by
  induction passes generalizing iterators with
  | zero => rfl
  | succ passes ih => rw [concatLoop, List.length_cons, ih]

/-- The number of choices. -/
def choices (components : List ComponentResult) : ℕ :=
  (components.map fun component => component.2.length).prod

/-- An `int` is below 2³¹. -/
theorem toInt32_lt (z : ℤ) : toInt32 z < 2 ^ 31 := by
  have := Int.bmod_lt (x := z) (m := 2 ^ 32) (by decide)
  rw [toInt32]
  omega

/-- A small number is kept. -/
theorem toInt32_of_lt {n : ℕ} (h : n < 2 ^ 31) : toInt32 n = n :=
  Int.bmod_eq_of_le (by omega) (by omega)

/-- The number of values that are made is below 2³¹. -/
theorem catnumOf_lt (components : List ComponentResult) : catnumOf components < 2 ^ 31 := by
  have hfold : ∀ catnum : ℤ, catnum < 2 ^ 31 →
      components.foldl (fun catnum component =>
        if countOf component = 0 then catnum else toInt32 (catnum * countOf component)) catnum <
          2 ^ 31 := by
    induction components with
    | nil => exact fun catnum h => h
    | cons component components ih =>
        intro catnum hcatnum
        rw [List.foldl_cons]
        refine ih _ ?_
        split
        · exact hcatnum
        · exact toInt32_lt _
  exact hfold 1 (by decide)

/-- Components with values have choices. -/
theorem choices_pos {components : List ComponentResult} (hne : ∀ c ∈ components, c.2 ≠ []) :
    0 < choices components := by
  induction components with
  | nil => exact Nat.one_pos
  | cons component components ih =>
      obtain ⟨hfirst, hrest⟩ := List.forall_mem_cons.mp hne
      exact Nat.mul_pos (List.length_pos_iff.mpr hfirst) (ih hrest)

/-- The number of values that are made is that of the choices, if this is below 2³¹. -/
theorem catnumOf_eq {components : List ComponentResult} (hne : ∀ c ∈ components, c.2 ≠ [])
    (h : choices components < 2 ^ 31) : catnumOf components = choices components := by
  have hfold : ∀ catnum : ℕ, 0 < catnum → catnum * choices components < 2 ^ 31 →
      components.foldl (fun (catnum : ℤ) component =>
        if countOf component = 0 then catnum else toInt32 (catnum * countOf component)) catnum =
          ((catnum * choices components : ℕ) : ℤ) := by
    clear h
    induction components with
    | nil => simp [choices]
    | cons component components ih =>
        obtain ⟨hfirst, hrest⟩ := List.forall_mem_cons.mp hne
        intro catnum hcatnum hlt
        have hsplit : choices (component :: components) = component.2.length * choices components :=
          rfl
        have hlength := List.length_pos_iff.mpr hfirst
        rw [hsplit, ← Nat.mul_assoc] at hlt ⊢
        have hle : catnum * component.2.length < 2 ^ 31 :=
          Nat.lt_of_le_of_lt (Nat.le_mul_of_pos_right _ (choices_pos hrest)) hlt
        have hcount : countOf component = component.2.length :=
          toInt32_of_lt (Nat.lt_of_le_of_lt (Nat.le_mul_of_pos_left _ hcatnum) hle)
        rw [List.foldl_cons, hcount, if_neg (by omega), ← Nat.cast_mul, toInt32_of_lt hle]
        exact ih hrest _ (Nat.mul_pos hcatnum hlength) hlt
  rw [catnumOf, ← Nat.cast_one, hfold 1 Nat.one_pos (by rwa [Nat.one_mul]), Nat.one_mul]

/-- A component that is counted right has an iterator at its first value. -/
theorem iteratorOf_eq {component : ComponentResult} (h : countOf component = component.2.length) :
    iteratorOf component = start component.texts := by
  obtain ⟨flag, values⟩ := component
  cases values with
  | nil =>
      have hzero : countOf (flag, []) = 0 := h
      rw [iteratorOf, if_pos hzero]
      rfl
  | cons value values =>
      have hpos : countOf (flag, value :: values) ≠ 0 := by
        rw [h]
        exact Int.natCast_ne_zero.mpr (Nat.succ_ne_zero values.length)
      rw [iteratorOf, if_neg hpos]

/-- The iterators of components that are counted right. -/
theorem iterators_eq {components : List ComponentResult}
    (h : ∀ c ∈ components, countOf c = c.2.length) :
    (components.map iteratorOf).reduceOption =
      (components.map ComponentResult.texts).filterMap start := by
  induction components with
  | nil => simp
  | cons component components ih =>
      obtain ⟨hfirst, hrest⟩ := List.forall_mem_cons.mp h
      rw [List.map_cons, List.map_cons, List.filterMap_cons, iteratorOf_eq hfirst]
      cases start component.texts with
      | none => rw [List.reduceOption_cons_of_none, ih hrest]
      | some it => rw [List.reduceOption_cons_of_some, ih hrest]

/-- No component has more values than there are choices. -/
theorem length_le_choices {components : List ComponentResult} (hne : ∀ c ∈ components, c.2 ≠ []) :
    ∀ c ∈ components, c.2.length ≤ choices components := by
  induction components with
  | nil => exact fun c hc => absurd hc List.not_mem_nil
  | cons component components ih =>
      obtain ⟨hfirst, hrest⟩ := List.forall_mem_cons.mp hne
      refine List.forall_mem_cons.mpr ⟨?_, fun c hc => (ih hrest c hc).trans ?_⟩
      · exact Nat.le_mul_of_pos_right _ (choices_pos hrest)
      · exact Nat.le_mul_of_pos_left _ (List.length_pos_iff.mpr hfirst)

/-- There are as many choices as their number says. -/
theorem length_sections_texts (components : List ComponentResult) :
    (components.map ComponentResult.texts).sections.length = choices components := by
  rw [length_sections, List.map_map, choices]
  congr 1
  refine List.map_congr_left fun component _ => ?_
  exact List.length_map _

/-- Where the values are those of the choices, these are few enough. -/
theorem lt_of_concatCorrect {components : List ComponentResult} (hne : ∀ c ∈ components, c.2 ≠ [])
    (hcorrect : ConcatCorrect components) :
    components ≠ [] ∧ hasValues (aggFlags components) ∧ choices components < 2 ^ 31 := by
  have hsame : (evaluateConcat components).2.length = choices components := by
    rw [hcorrect, List.length_map, length_sections_texts]
  by_cases hguard : 0 < components.length ∧ hasValues (aggFlags components)
  · rw [evaluateConcat, if_pos hguard, length_concatLoop] at hsame
    have := catnumOf_lt components
    exact ⟨List.length_pos_iff.mp hguard.1, hguard.2, by omega⟩
  · rw [evaluateConcat, if_neg hguard] at hsame
    exact absurd hsame (choices_pos hne).ne

/-- Where there are few enough choices, each one makes a value. -/
theorem concatCorrect_of_lt {components : List ComponentResult} (hne : ∀ c ∈ components, c.2 ≠ [])
    (hcomponents : components ≠ []) (hflag : hasValues (aggFlags components))
    (hlt : choices components < 2 ^ 31) : ConcatCorrect components := by
  have hall : (components.map ComponentResult.texts).filter (fun l => !l.isEmpty) =
      components.map ComponentResult.texts := by
    refine List.filter_eq_self.mpr fun l hl => ?_
    obtain ⟨c, hc, rfl⟩ := List.mem_map.mp hl
    simpa [ComponentResult.texts] using hne c hc
  have hcount : ∀ c ∈ components, countOf c = c.2.length := fun c hc =>
    toInt32_of_lt (Nat.lt_of_le_of_lt (length_le_choices hne c hc) hlt)
  have hahead := ahead_start (components.map ComponentResult.texts)
  have hlength := length_sections_texts components
  rw [hall] at hahead
  rw [ConcatCorrect, evaluateConcat, if_pos ⟨List.length_pos_iff.mpr hcomponents, hflag⟩,
    concatLoop_eq, iterators_eq hcount, catnumOf_eq hne hlt, Int.toNat_natCast,
    run_eq_take (values_start _) (by rw [hahead, hlength]), hahead, ← hlength, List.take_length]

/-- `len_delim`. -/
def lenDelim (delimiter : List UInt8) : ℤ := toInt32 delimiter.length

/-- `split1 + len_delim`, where the text in front of `split1` has been terminated there; there is no
result in front of the buffer. -/
def advance (lenDelim : ℤ) (terminated split1 : List UInt8) : Option (List UInt8) :=
  if 0 ≤ lenDelim then some (split1.drop lenDelim.toNat)
  else if (-lenDelim).toNat ≤ terminated.length then
    some (terminated.drop (terminated.length - (-lenDelim).toNat))
  else none

/-- The loop over the occurrences of a delimiter, `split0` being the text from there. -/
def splitLoop (delimiter : List UInt8) : ℕ → List UInt8 → Option (List ComponentValue)
  | 0, _ => none
  | fuel + 1, split0 =>
      match search delimiter split0 with
      | some (terminated, split1) => do
          let split0 ← advance (lenDelim delimiter) terminated split1
          let values ← splitLoop delimiter fuel split0
          some (⟨.string, terminated⟩ :: values)
      | none => some [⟨.string, split0⟩]

/-- The loop over the characters of a text; there is no result where `idx` is no `int`. -/
def splitCharacters (idx : ℕ) : List UInt8 → Option (List ComponentValue)
  | [] => some []
  | c :: text =>
      if idx + 1 < 2 ^ 31 then do
        let values ← splitCharacters (idx + 1) text
        some (⟨.string, [c]⟩ :: values)
      else none

/-- The values of one text. -/
def splitText (fuel : ℕ) (delimiter text : List UInt8) : Option (List ComponentValue) :=
  if lenDelim delimiter ≠ 0 then splitLoop delimiter fuel text else splitCharacters 0 text

/-- `_oval_component_evaluate_SPLIT`: only the first component is considered. -/
def evaluateSplit (fuel : ℕ) (delimiter : List UInt8) :
    List ComponentResult → Option ComponentResult
  | [] => some (.unknown, [])
  | (flag, values) :: _ => do
      let pieces ← values.mapM fun value => splitText fuel delimiter value.text
      some (flag, pieces.flatten)

/-- What the pieces of a text are. -/
def PiecesOf (delimiter text : List UInt8) (pieces : List (List UInt8)) : Prop :=
  (delimiter ≠ [] →
    delimiter.intercalate pieces = text ∧ ∀ piece ∈ pieces, ¬ delimiter <:+: piece) ∧
  (delimiter = [] → pieces = text.map ([·]))

/-- The text is split right. -/
def SplitsText (delimiter text : List UInt8) : Prop :=
  ∃ pieces, PiecesOf delimiter text pieces ∧
    ∃ n, ∀ fuel ≥ n, splitText fuel delimiter text = some (pieces.map (⟨.string, ·⟩))

/-- The function splits the texts of the first component right, one after the other. -/
def SplitCorrect (delimiter : List UInt8) (values : List ComponentValue) : Prop :=
  ∃ pieces : List (List (List UInt8)),
    List.Forall₂ (fun value ps => PiecesOf delimiter value.text ps) values pieces ∧
    ∃ n, ∀ fuel ≥ n, ∀ flag others, evaluateSplit fuel delimiter ((flag, values) :: others) =
      some (flag, pieces.flatten.map (⟨.string, ·⟩))

/-! ### The pieces of a text -/

/-- The length of a short delimiter. -/
theorem lenDelim_of_lt {delimiter : List UInt8} (h : delimiter.length < 2 ^ 31) :
    lenDelim delimiter = delimiter.length := toInt32_of_lt h

/-- The characters of a short text. -/
theorem splitCharacters_eq {idx : ℕ} {text : List UInt8} (h : idx + text.length < 2 ^ 31) :
    splitCharacters idx text = some ((text.map ([·])).map (⟨.string, ·⟩)) := by
  induction text generalizing idx with
  | nil => rfl
  | cons c text ih =>
      rw [List.length_cons] at h
      rw [splitCharacters, if_pos (by omega), ih (by omega)]
      rfl

/-- The index becomes too large in a long text. -/
theorem splitCharacters_eq_none {idx : ℕ} {text : List UInt8} (hidx : idx < 2 ^ 31)
    (h : 2 ^ 31 ≤ idx + text.length) : splitCharacters idx text = none := by
  induction text generalizing idx with
  | nil => exact absurd h (by simpa using hidx)
  | cons c text ih =>
      rw [List.length_cons] at h
      rw [splitCharacters]
      split
      · rename_i hnext
        rw [ih hnext (by omega)]
        rfl
      · rfl

/-- **The loop gives the pieces of the text**, by induction on its length: what is searched next is
shorter by the delimiter at least. -/
theorem splitLoop_spec {delimiter : List UInt8} (hne : delimiter ≠ [])
    (h : lenDelim delimiter = delimiter.length) {size : ℕ} {split0 : List UInt8}
    (hsize : split0.length < size) :
    ∃ pieces, pieces ≠ [] ∧ PiecesOf delimiter split0 pieces ∧
      ∀ fuel ≥ size, splitLoop delimiter fuel split0 = some (pieces.map (⟨.string, ·⟩)) := by
  induction size generalizing split0 with
  | zero => exact absurd hsize (Nat.not_lt_zero _)
  | succ size ih =>
      cases hsearch : search delimiter split0 with
      | none =>
          refine ⟨[split0], List.cons_ne_nil _ _, ⟨fun _ => ⟨?_, ?_⟩, fun hnil => absurd hnil hne⟩,
            fun fuel hfuel => ?_⟩
          · exact List.intercalate_singleton
          · simpa using not_infix_of_search_eq_none hsearch
          · obtain ⟨fuel, rfl⟩ : ∃ n, fuel = n + 1 := ⟨fuel - 1, by omega⟩
            rw [splitLoop, hsearch]
            rfl
      | some found =>
          obtain ⟨terminated, split1⟩ := found
          obtain ⟨rfl, rest, rfl⟩ := search_eq_some hsearch
          have hpos := List.length_pos_iff.mpr hne
          have hadvance : advance (lenDelim delimiter) terminated (delimiter ++ rest) =
              some rest := by
            rw [advance, h, if_pos (Int.natCast_nonneg _), Int.toNat_natCast, List.drop_left]
          have hshorter : rest.length < size := by
            simp only [List.length_append] at hsize
            omega
          obtain ⟨pieces, hpieces, hof, hrun⟩ := ih hshorter
          obtain ⟨hjoin, hnone⟩ := hof.1 hne
          refine ⟨terminated :: pieces, List.cons_ne_nil _ _,
            ⟨fun _ => ⟨?_, List.forall_mem_cons.mpr ⟨not_infix_of_search hne hsearch, hnone⟩⟩,
              fun hnil => absurd hnil hne⟩, fun fuel hfuel => ?_⟩
          · rw [List.intercalate_cons_of_ne_nil hpieces, hjoin, List.append_assoc]
          · obtain ⟨fuel, rfl⟩ : ∃ n, fuel = n + 1 := ⟨fuel - 1, by omega⟩
            rw [splitLoop, hsearch]
            change (do
              let split0 ← advance (lenDelim delimiter) terminated (delimiter ++ rest)
              let values ← splitLoop delimiter fuel split0
              some ((⟨.string, terminated⟩ : ComponentValue) :: values)) = _
            rw [hadvance]
            change (splitLoop delimiter fuel rest).bind _ = _
            rw [hrun fuel (by omega)]
            rfl

/-- A text is split right at a short delimiter. -/
theorem splitsText_of_lt {delimiter : List UInt8} (hne : delimiter ≠ [])
    (h : delimiter.length < 2 ^ 31) (text : List UInt8) : SplitsText delimiter text := by
  have hlen := lenDelim_of_lt h
  obtain ⟨pieces, -, hof, hrun⟩ := splitLoop_spec hne hlen (Nat.lt_succ_self text.length)
  refine ⟨pieces, hof, text.length + 1, fun fuel hfuel => ?_⟩
  have hnonzero : lenDelim delimiter ≠ 0 := by
    rw [hlen]
    exact Int.natCast_ne_zero.mpr (List.length_pos_iff.mpr hne).ne'
  rw [splitText, if_pos hnonzero, hrun fuel hfuel]

/-- Without a delimiter, a short text is split right. -/
theorem splitsText_nil {text : List UInt8} (h : text.length < 2 ^ 31) : SplitsText [] text := by
  refine ⟨text.map ([·]), ⟨fun hne => absurd rfl hne, fun _ => rfl⟩, 0, fun fuel _ => ?_⟩
  rw [splitText, if_neg (by decide), splitCharacters_eq (by omega)]

/-! ### Delimiters that are too long -/

/-- Two pieces or more make a text that is longer by the delimiter at least. -/
theorem length_intercalate_ge (delimiter : List UInt8) (pieces : List (List UInt8)) :
    pieces.flatten.length + (if 2 ≤ pieces.length then delimiter.length else 0) ≤
      (delimiter.intercalate pieces).length := by
  induction pieces with
  | nil => exact le_rfl
  | cons piece pieces ih =>
      cases pieces with
      | nil => simp
      | cons piece' pieces =>
          rw [if_pos (by simp), List.flatten_cons, List.intercalate_cons_cons]
          simp only [List.length_append] at ih ⊢
          omega

/-- A delimiter whose length is taken as 0 cuts the text into its characters. -/
theorem not_splitsText_of_zero {delimiter text : List UInt8} (hne : delimiter ≠ [])
    (hzero : lenDelim delimiter = 0) (htext : 2 ≤ text.length) : ¬ SplitsText delimiter text := by
  rintro ⟨pieces, hof, n, hrun⟩
  have hsome := hrun n le_rfl
  rw [splitText, if_neg (not_not.mpr hzero)] at hsome
  rcases Nat.lt_or_ge text.length (2 ^ 31) with hlt | hge
  · rw [splitCharacters_eq (by omega)] at hsome
    have hpieces : text.map ([·]) = pieces :=
      List.map_injective_iff.mpr (fun a b h => (ComponentValue.mk.inj h).2) (Option.some.inj hsome)
    have hlength := length_intercalate_ge delimiter pieces
    rw [(hof.1 hne).1, ← hpieces, if_pos (by rwa [List.length_map]), ← List.flatMap_def,
      List.flatMap_singleton'] at hlength
    have := List.length_pos_iff.mpr hne
    omega
  · rw [splitCharacters_eq_none (by decide) (by omega)] at hsome
    exact absurd hsome (by simp)

/-- A delimiter whose length is no `int` is not split right itself. -/
theorem not_splitsText_self {delimiter : List UInt8} (hlong : 2 ^ 31 ≤ delimiter.length) :
    ¬ SplitsText delimiter delimiter := by
  have hpos : 0 < delimiter.length := by omega
  have hne := List.length_pos_iff.mp hpos
  have hlt : lenDelim delimiter < 2 ^ 31 := toInt32_lt _
  rcases lt_trichotomy (lenDelim delimiter) 0 with hneg | hzero | hgt
  · -- the loop goes on in front of the buffer
    rintro ⟨pieces, -, n, hrun⟩
    have hadvance : advance (lenDelim delimiter) [] delimiter = none := by
      rw [advance, if_neg (by omega), if_neg (by simp; omega)]
    have hsome := hrun (n + 1) (Nat.le_succ n)
    rw [splitText, if_pos hneg.ne, splitLoop, search_self] at hsome
    change (advance (lenDelim delimiter) [] delimiter).bind _ = _ at hsome
    rw [hadvance] at hsome
    exact absurd hsome (by simp)
  · exact not_splitsText_of_zero hne hzero (by omega)
  · -- the loop goes on within the delimiter
    rintro ⟨pieces, hof, n, hrun⟩
    have hadvance : advance (lenDelim delimiter) [] delimiter =
        some (delimiter.drop (lenDelim delimiter).toNat) := if_pos hgt.le
    have hshort : (delimiter.drop (lenDelim delimiter).toNat).length < delimiter.length := by
      rw [List.length_drop]
      omega
    have hsome := hrun (n + 1 + 1) (by omega)
    rw [splitText, if_pos hgt.ne', splitLoop, search_self] at hsome
    change (advance (lenDelim delimiter) [] delimiter).bind _ = _ at hsome
    rw [hadvance, Option.bind_some, splitLoop, search_of_length_lt hshort] at hsome
    have hpieces : [[], delimiter.drop (lenDelim delimiter).toNat] = pieces :=
      List.map_injective_iff.mpr (fun a b h => (ComponentValue.mk.inj h).2) (Option.some.inj hsome)
    have hjoin := congrArg List.length (hof.1 hne).1
    rw [← hpieces, List.intercalate_cons_cons, List.intercalate_singleton] at hjoin
    simp only [List.length_append, List.length_drop, List.length_nil] at hjoin
    omega

/-! ### The values that `split` makes -/

/-- The function splits the texts that are split right. -/
theorem splitCorrect_of_splitsText {delimiter : List UInt8} {values : List ComponentValue}
    (hall : ∀ value ∈ values, SplitsText delimiter value.text) : SplitCorrect delimiter values := by
  have hpieces : ∃ pieces : List (List (List UInt8)),
      List.Forall₂ (fun value ps => PiecesOf delimiter value.text ps) values pieces ∧
      ∃ n, ∀ fuel ≥ n, values.mapM (fun value => splitText fuel delimiter value.text) =
        some (pieces.map (List.map (⟨.string, ·⟩))) := by
    induction values with
    | nil => exact ⟨[], .nil, 0, fun fuel _ => rfl⟩
    | cons value values ih =>
        obtain ⟨hfirst, hrest⟩ := List.forall_mem_cons.mp hall
        obtain ⟨ps, hps, n, hrun⟩ := hfirst
        obtain ⟨pieces, hpieces, m, hruns⟩ := ih hrest
        refine ⟨ps :: pieces, .cons hps hpieces, max n m, fun fuel hfuel => ?_⟩
        rw [List.mapM_cons, hrun fuel (by omega), hruns fuel (by omega)]
        rfl
  obtain ⟨pieces, hof, n, hrun⟩ := hpieces
  refine ⟨pieces, hof, n, fun fuel hfuel flag others => ?_⟩
  rw [evaluateSplit, hrun fuel hfuel, List.map_flatten]
  rfl

/-- A text that the function splits right alone is split right. -/
theorem splitsText_of_splitCorrect {delimiter : List UInt8} {value : ComponentValue}
    (h : SplitCorrect delimiter [value]) : SplitsText delimiter value.text := by
  obtain ⟨pieces, hof, n, hrun⟩ := h
  obtain ⟨ps, _, hps, hnil, rfl⟩ := List.forall₂_cons_left_iff.mp hof
  obtain rfl := List.forall₂_nil_left_iff.mp hnil
  refine ⟨ps, hps, n, fun fuel hfuel => ?_⟩
  have hsome := hrun fuel hfuel .complete []
  rw [evaluateSplit, List.mapM_cons] at hsome
  cases htext : splitText fuel delimiter value.text with
  | none =>
      rw [htext] at hsome
      exact absurd hsome (by simp)
  | some table =>
      rw [htext] at hsome
      simpa using hsome

/-- The function splits no text that is too long into its characters. -/
theorem length_lt_of_splitCorrect_nil {values : List ComponentValue} (h : SplitCorrect [] values) :
    ∀ value ∈ values, value.text.length < 2 ^ 31 := by
  obtain ⟨pieces, -, n, hrun⟩ := h
  have hsome := hrun n le_rfl .complete []
  rw [evaluateSplit] at hsome
  obtain ⟨tables, htables, -⟩ := Option.bind_eq_some_iff.mp hsome
  intro value hvalue
  obtain ⟨table, htable⟩ := (exists_mapM_eq_some_iff values).mp ⟨tables, htables⟩ value hvalue
  by_contra hlong
  have hzero : ¬ lenDelim [] ≠ 0 := by decide
  rw [splitText, if_neg hzero, splitCharacters_eq_none (by decide) (by omega)] at htable
  exact absurd htable (by simp)

/-- **The pieces of every text are joined to it again and have no delimiter in them** exactly if
the delimiter is shorter than 2³¹; without a delimiter, the pieces are the characters exactly for
texts that are shorter than 2³¹. -/
theorem split_correct_iff (delimiter : List UInt8) (values : List ComponentValue) :
    (delimiter ≠ [] →
      ((∀ values, SplitCorrect delimiter values) ↔ delimiter.length < 2 ^ 31)) ∧
    (SplitCorrect [] values ↔ ∀ value ∈ values, value.text.length < 2 ^ 31) := by
  refine ⟨fun hne => ⟨fun hall => ?_, fun h values => ?_⟩, ?_, ?_⟩
  · by_contra hlong
    have hself := splitsText_of_splitCorrect (hall [⟨.string, delimiter⟩])
    exact not_splitsText_self (by omega) hself
  · exact splitCorrect_of_splitsText fun value _ => splitsText_of_lt hne h value.text
  · exact length_lt_of_splitCorrect_nil
  · intro h
    exact splitCorrect_of_splitsText fun value hvalue => splitsText_nil (h value hvalue)

/-- The delimiters whose length is taken as 0. -/
theorem lenDelim_eq_zero {delimiter : List UInt8} (h : delimiter.length = 2 ^ 32) :
    lenDelim delimiter = 0 := by
  rw [lenDelim, h]
  decide

/-- A delimiter of 2³² characters cuts a text into its characters. -/
theorem not_splitCorrect_wrapped :
    ¬ SplitCorrect (List.replicate (2 ^ 32) 97) [⟨.string, [98, 99]⟩] := by
  have hlength : (List.replicate (2 ^ 32) (97 : UInt8)).length = 2 ^ 32 := List.length_replicate
  generalize List.replicate (2 ^ 32) (97 : UInt8) = delimiter at hlength ⊢
  intro hcorrect
  have hne : delimiter ≠ [] := List.length_pos_iff.mp (by omega)
  exact not_splitsText_of_zero hne (lenDelim_eq_zero hlength) le_rfl
    (splitsText_of_splitCorrect hcorrect)

end OpenScap.TextFunctions
