import OpenScap.OvalResult

/-!
# Combining OVAL results in a probe

A probe combines results itself when it filters an item against a state: it gets them as
an S-expression list of numbers, counts them (`results_parser`), and reads the final result
off the counters (`probe_ent_result_bychk`, `probe_ent_result_byopr`). The library has its
own pair of functions for the same tables (`OpenScap.OvalResult`), and a test of the same
state goes through those.

## Main results

* `resultsParser_codes` — the probe's counters hold the counts that the library's tally holds;
* `probe_ent_result_agrees_iff` — the two sides read the same result off every list for every
  check and operator, except `at least one` on the lists of `FalseAmongUndecided`.
-/

namespace OpenScap

/-! ### The counters of a probe -/

/-- The number that stands for a result in an S-expression. -/
def OvalResult.code : OvalResult → Int
  | .true => 1
  | .false => 2
  | .unknown => 4
  | .error => 8
  | .notEvaluated => 16
  | .notApplicable => 32

/-- The `switch` of `results_parser` on one number; `none` is its default branch. -/
def resultsParserStep (ores : Oresults) (r : Int) : Option Oresults :=
  if r = 1 then some { ores with trueCnt := ores.trueCnt + 1 }
  else if r = 2 then some { ores with falseCnt := ores.falseCnt + 1 }
  else if r = 4 then some { ores with unknownCnt := ores.unknownCnt + 1 }
  else if r = 8 then some { ores with errorCnt := ores.errorCnt + 1 }
  else if r = 16 then some { ores with notevalCnt := ores.notevalCnt + 1 }
  else if r = 32 then some { ores with notapplCnt := ores.notapplCnt + 1 }
  else none

/-- `results_parser`: the counters of a list of numbers, or `none` for the return value -1. -/
def resultsParser (resLst : List Int) : Option Oresults :=
  resLst.foldlM resultsParserStep ⟨0, 0, 0, 0, 0, 0⟩

/-- Both functions of the probe begin alike: an empty list reads UNKNOWN, one with a number
that is no result reads ERROR, one of not-applicable results only reads NOT_APPLICABLE; any
other is left to the `switch`. -/
def probeEntResultGuarded (resLst : List Int) (switch : Oresults → OvalResult) : OvalResult :=
  if resLst.length = 0 then .unknown
  else
    match resultsParser resLst with
    | none => .error
    | some ores =>
      if 0 < ores.notapplCnt ∧ ores.notevalCnt = 0 ∧ ores.falseCnt = 0 ∧
          ores.errorCnt = 0 ∧ ores.unknownCnt = 0 ∧ ores.trueCnt = 0 then .notApplicable
      else switch ores

/-- `probe_ent_result_bychk`. -/
def probeEntResultBychk (resLst : List Int) (check : OvalCheck) : OvalResult :=
  probeEntResultGuarded resLst fun ores =>
    match check with
    | .all =>
      if 0 < ores.trueCnt ∧ ores.falseCnt = 0 ∧ ores.errorCnt = 0 ∧ ores.unknownCnt = 0 ∧
          ores.notevalCnt = 0 then .true
      else if 0 < ores.falseCnt then .false
      else if ores.falseCnt = 0 ∧ 0 < ores.errorCnt then .error
      else if ores.falseCnt = 0 ∧ ores.errorCnt = 0 ∧ 0 < ores.unknownCnt then .unknown
      else if ores.falseCnt = 0 ∧ ores.errorCnt = 0 ∧ ores.unknownCnt = 0 ∧
          0 < ores.notevalCnt then .notEvaluated
      else .unknown
    | .atLeastOne =>
      if 0 < ores.trueCnt then .true
      else if 0 < ores.falseCnt ∧ ores.trueCnt = 0 ∧ ores.unknownCnt = 0 ∧
          ores.errorCnt = 0 ∧ ores.notevalCnt = 0 then .false
      else if ores.trueCnt = 0 ∧ 0 < ores.errorCnt then .error
      else if ores.falseCnt = 0 ∧ ores.errorCnt = 0 ∧ 0 < ores.unknownCnt then .unknown
      else if ores.falseCnt = 0 ∧ ores.errorCnt = 0 ∧ ores.unknownCnt = 0 ∧
          0 < ores.notevalCnt then .notEvaluated
      else .unknown
    | .noneExist | .noneSatisfy =>
      if 0 < ores.trueCnt then .false
      else if ores.trueCnt = 0 ∧ 0 < ores.errorCnt then .error
      else if ores.trueCnt = 0 ∧ ores.errorCnt = 0 ∧ 0 < ores.unknownCnt then .unknown
      else if ores.trueCnt = 0 ∧ ores.errorCnt = 0 ∧ ores.unknownCnt = 0 ∧
          0 < ores.notevalCnt then .notEvaluated
      else if 0 < ores.falseCnt ∧ ores.errorCnt = 0 ∧ ores.unknownCnt = 0 ∧
          ores.notevalCnt = 0 ∧ ores.trueCnt = 0 then .true
      else .unknown
    | .onlyOne =>
      if ores.trueCnt = 1 ∧ ores.errorCnt = 0 ∧ ores.unknownCnt = 0 ∧
          ores.notevalCnt = 0 then .true
      else if 1 < ores.trueCnt then .false
      else if ores.trueCnt < 2 ∧ 0 < ores.errorCnt then .error
      else if ores.trueCnt < 2 ∧ ores.errorCnt = 0 ∧ 0 < ores.unknownCnt then .unknown
      else if ores.trueCnt < 2 ∧ ores.errorCnt = 0 ∧ ores.unknownCnt = 0 ∧
          0 < ores.notevalCnt then .notEvaluated
      else if ores.trueCnt ≠ 1 ∧ 0 < ores.falseCnt then .false
      else .unknown
    | .unknown => .unknown

/-- `probe_ent_result_byopr`. -/
def probeEntResultByopr (resLst : List Int) (op : OvalOperator) : OvalResult :=
  probeEntResultGuarded resLst fun ores =>
    match op with
    | .and =>
      if 0 < ores.trueCnt ∧ ores.falseCnt = 0 ∧ ores.errorCnt = 0 ∧ ores.unknownCnt = 0 ∧
          ores.notevalCnt = 0 then .true
      else if 0 < ores.falseCnt then .false
      else if ores.falseCnt = 0 ∧ 0 < ores.errorCnt then .error
      else if ores.falseCnt = 0 ∧ ores.errorCnt = 0 ∧ 0 < ores.unknownCnt then .unknown
      else if ores.falseCnt = 0 ∧ ores.errorCnt = 0 ∧ ores.unknownCnt = 0 ∧
          0 < ores.notevalCnt then .notEvaluated
      else .unknown
    | .one =>
      -- the source also asks for counters `>= 0`, which is no condition on a count
      if ores.trueCnt = 1 ∧ ores.errorCnt = 0 ∧ ores.unknownCnt = 0 ∧
          ores.notevalCnt = 0 then .true
      else if 2 ≤ ores.trueCnt then .false
      else if ores.trueCnt = 0 ∧ ores.errorCnt = 0 ∧ ores.unknownCnt = 0 ∧
          ores.notevalCnt = 0 then .false
      else if ores.trueCnt < 2 ∧ 0 < ores.errorCnt then .error
      else if ores.trueCnt < 2 ∧ ores.errorCnt = 0 ∧ 1 ≤ ores.unknownCnt then .unknown
      else if ores.trueCnt < 2 ∧ ores.errorCnt = 0 ∧ ores.unknownCnt = 0 ∧
          0 < ores.notevalCnt then .notEvaluated
      else .unknown
    | .or =>
      if 0 < ores.trueCnt then .true
      else if ores.trueCnt = 0 ∧ 0 < ores.falseCnt ∧ ores.errorCnt = 0 ∧
          ores.unknownCnt = 0 ∧ ores.notevalCnt = 0 then .false
      else if ores.trueCnt = 0 ∧ 0 < ores.errorCnt then .error
      else if ores.trueCnt = 0 ∧ ores.errorCnt = 0 ∧ 0 < ores.unknownCnt then .unknown
      else if ores.trueCnt = 0 ∧ ores.errorCnt = 0 ∧ ores.unknownCnt = 0 ∧
          0 < ores.notevalCnt then .notEvaluated
      else .unknown
    | .xor =>
      if ores.trueCnt % 2 = 1 ∧ ores.errorCnt = 0 ∧ ores.unknownCnt = 0 ∧
          ores.notevalCnt = 0 then .true
      else if ores.trueCnt % 2 = 0 ∧ ores.errorCnt = 0 ∧ ores.unknownCnt = 0 ∧
          ores.notevalCnt = 0 then .false
      else if 0 < ores.errorCnt then .error
      else if ores.errorCnt = 0 ∧ 0 < ores.unknownCnt then .unknown
      else if ores.errorCnt = 0 ∧ ores.unknownCnt = 0 ∧ 0 < ores.notevalCnt then
        .notEvaluated
      else .unknown
    | .unknown => .unknown

/-! ### The probe against the library -/

/-- Every number of a result is counted, and as the library counts it. -/
theorem resultsParserStep_code (ores : Oresults) (r : OvalResult) :
    resultsParserStep ores r.code = some (oresAddRes ores r) := by
  cases r <;> simp [resultsParserStep, OvalResult.code, oresAddRes]

/-- **The probe's counters of a list are the library's tally of it.** -/
theorem resultsParser_codes (results : List OvalResult) :
    resultsParser (results.map OvalResult.code) = some (oresOfList results) := by
  have loop : ∀ (rs : List OvalResult) (ores : Oresults),
      (rs.map OvalResult.code).foldlM resultsParserStep ores = some (rs.foldl oresAddRes ores) := by
    intro rs
    induction rs with
    | nil => intro ores; rfl
    | cons r rs ih =>
        intro ores
        rw [List.map_cons, List.foldlM_cons, resultsParserStep_code]
        exact ih (oresAddRes ores r)
  exact loop results oresClear

/-- A list of results is read alike on both sides when the two switches agree on its tally,
which need only be so where some result is not NOT_APPLICABLE. -/
theorem probeEntResultGuarded_eq {results : List OvalResult} {result : OvalResult}
    {switch : Oresults → OvalResult}
    (h : 0 < (oresOfList results).trueCnt ∨ 0 < (oresOfList results).falseCnt ∨
      0 < (oresOfList results).errorCnt ∨ 0 < (oresOfList results).unknownCnt ∨
      0 < (oresOfList results).notevalCnt → switch (oresOfList results) = result) :
    probeEntResultGuarded (results.map OvalResult.code) switch =
      oresGetResultGuarded (oresOfList results) result := by
  rw [probeEntResultGuarded, oresGetResultGuarded, resultsParser_codes]
  have hnil := results_eq_nil_iff results
  rw [List.length_map]
  simp only [List.length_eq_zero_iff]
  generalize oresOfList results = ores at h hnil
  obtain ⟨t, f, u, e, ne, na⟩ := ores
  simp only at h hnil ⊢
  by_cases hempty : results = []
  · have hall := hnil.mp hempty
    rw [if_pos hempty, if_pos ⟨hall.1, hall.2.1, hall.2.2.1, hall.2.2.2.1, hall.2.2.2.2.2,
      hall.2.2.2.2.1⟩]
  · have hsome : ¬ (t = 0 ∧ f = 0 ∧ e = 0 ∧ u = 0 ∧ na = 0 ∧ ne = 0) := by
      intro hall
      exact hempty (hnil.mpr ⟨hall.1, hall.2.1, hall.2.2.1, hall.2.2.2.1, hall.2.2.2.2.2,
        hall.2.2.2.2.1⟩)
    rw [if_neg hempty, if_neg hsome]
    split_ifs with hna
    · rfl
    · exact h (by omega)

/-- `all`: the default results, UNKNOWN and ERROR, are read off no tally. -/
theorem probe_bychk_all (results : List OvalResult) :
    probeEntResultBychk (results.map OvalResult.code) .all =
      oresGetResultBychk (oresOfList results) .all := by
  unfold probeEntResultBychk oresGetResultBychk
  apply probeEntResultGuarded_eq
  generalize oresOfList results = ores
  intro h
  dsimp only
  split_ifs <;> first | rfl | omega

/-- `only one`, likewise. -/
theorem probe_bychk_onlyOne (results : List OvalResult) :
    probeEntResultBychk (results.map OvalResult.code) .onlyOne =
      oresGetResultBychk (oresOfList results) .onlyOne := by
  unfold probeEntResultBychk oresGetResultBychk
  apply probeEntResultGuarded_eq
  generalize oresOfList results = ores
  intro h
  dsimp only
  split_ifs <;> first | rfl | omega

/-- `none satisfy`, likewise. -/
theorem probe_bychk_noneSatisfy (results : List OvalResult) :
    probeEntResultBychk (results.map OvalResult.code) .noneSatisfy =
      oresGetResultBychk (oresOfList results) .noneSatisfy := by
  unfold probeEntResultBychk oresGetResultBychk
  apply probeEntResultGuarded_eq
  generalize oresOfList results = ores
  intro h
  dsimp only
  split_ifs <;> first | rfl | omega

/-- The operators, likewise. -/
theorem probe_byopr (results : List OvalResult) {op : OvalOperator} (hop : op ≠ .unknown) :
    probeEntResultByopr (results.map OvalResult.code) op =
      oresGetResultByopr (oresOfList results) op := by
  unfold probeEntResultByopr oresGetResultByopr
  apply probeEntResultGuarded_eq
  generalize oresOfList results = ores
  intro h
  cases op with
  | unknown => exact absurd rfl hop
  | and | one | or | xor =>
      dsimp only
      split_ifs <;> first | rfl | omega

/-- `at least one` falls to the default on the lists of `FalseAmongUndecided`: the probe
reads UNKNOWN and the library ERROR. -/
theorem probe_bychk_atLeastOne_iff (results : List OvalResult) :
    probeEntResultBychk (results.map OvalResult.code) .atLeastOne =
      oresGetResultBychk (oresOfList results) .atLeastOne ↔ ¬ FalseAmongUndecided results := by
  constructor
  · intro h hf
    rw [falseAmongUndecided_iff] at hf
    have hne : results.map OvalResult.code ≠ [] := by
      rintro hnil
      rw [List.map_eq_nil_iff] at hnil
      subst hnil
      simp [oresOfList, oresClear] at hf
    unfold probeEntResultBychk oresGetResultBychk probeEntResultGuarded oresGetResultGuarded at h
    rw [resultsParser_codes, if_neg (by simpa using hne)] at h
    generalize oresOfList results = ores at h hf
    obtain ⟨t, f, u, e, ne, na⟩ := ores
    obtain ⟨hf, rfl, rfl, hopen⟩ := hf
    dsimp only at h hf hopen
    split_ifs at h <;> omega
  · intro hf
    rw [falseAmongUndecided_iff] at hf
    unfold probeEntResultBychk oresGetResultBychk
    apply probeEntResultGuarded_eq
    generalize oresOfList results = ores at hf ⊢
    intro h
    dsimp only
    split_ifs <;> first | rfl | omega

/-- **Probe and library read the same results** off a list of results, by every check and every
operator, exactly when the list is none of `FalseAmongUndecided`. -/
theorem probe_ent_result_agrees_iff (results : List OvalResult) :
    ((∀ check ∈ [OvalCheck.all, .atLeastOne, .onlyOne, .noneSatisfy],
        probeEntResultBychk (results.map OvalResult.code) check =
          oresGetResultBychk (oresOfList results) check) ∧
      ∀ op ∈ [OvalOperator.and, .or, .one, .xor],
        probeEntResultByopr (results.map OvalResult.code) op =
          oresGetResultByopr (oresOfList results) op) ↔
    ¬ FalseAmongUndecided results := by
  constructor
  · rintro ⟨hcheck, -⟩
    exact (probe_bychk_atLeastOne_iff results).mp (hcheck .atLeastOne (by simp))
  · intro hf
    refine ⟨fun check hcheck => ?_, fun op hop => ?_⟩
    · cases check with
      | unknown | noneExist => simp at hcheck
      | all => exact probe_bychk_all results
      | atLeastOne => exact (probe_bychk_atLeastOne_iff results).mpr hf
      | onlyOne => exact probe_bychk_onlyOne results
      | noneSatisfy => exact probe_bychk_noneSatisfy results
    · refine probe_byopr results ?_
      rintro rfl
      simp at hop

/-- One false and one unknown result: `at least one` reads UNKNOWN in a probe and ERROR in
the library. -/
theorem not_probe_ent_result_agrees :
    ¬ ∀ results : List OvalResult, ∀ check ∈ [OvalCheck.all, .atLeastOne, .onlyOne, .noneSatisfy],
      probeEntResultBychk (results.map OvalResult.code) check =
        oresGetResultBychk (oresOfList results) check := by
  intro h
  have hdiff := h [.false, .unknown] .atLeastOne (by simp)
  revert hdiff
  decide

end OpenScap
