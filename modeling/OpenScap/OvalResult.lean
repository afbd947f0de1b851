import OpenScap.CountTable

/-!
# Combining OVAL results

The evaluation of OVAL definitions combines individual results at every level: the
values of a variable, the entities of a state, the states of a test, the items of an
object, the subnodes of a criteria. Each level tallies the individual results
(`ores_add_res`) and reads the final one off the tally, by a check attribute
(`ores_get_result_bychk`) or by an operator (`ores_get_result_byopr`). This module
models the tally and both readings, and compares them with the tables of
`CheckEnumeration` and `OperatorEnumeration` in the OVAL common schema, which are
transcribed as `checkTable` and `operatorTable`.

The counters are natural numbers: the source counts in `int`, whose overflow C leaves
undefined.

## Main results

* `oresOfList_cnt` — the tally of a list holds the counts of its results;
* `ores_get_result_agrees_iff` — which readings are the tables' on which lists: all of
  them, except `at least one` on a list with some false, no true and no error result
  and an unknown or not-evaluated one, and XOR on the empty list.
-/

open CountTable

namespace OpenScap

/-- `oval_result_t`. -/
inductive OvalResult
  | true
  | false
  | unknown
  | error
  | notEvaluated
  | notApplicable
  deriving DecidableEq, Repr

/-- `oval_check_t`. -/
inductive OvalCheck
  | unknown
  | all
  | atLeastOne
  | noneExist
  | noneSatisfy
  | onlyOne
  deriving DecidableEq, Repr

/-- `oval_operator_t`. -/
inductive OvalOperator
  | unknown
  | and
  | one
  | or
  | xor
  deriving DecidableEq, Repr

/-! ### The tally -/

/-- `struct oresults`: how many individual results of each kind have been seen. -/
structure Oresults where
  trueCnt : ℕ
  falseCnt : ℕ
  unknownCnt : ℕ
  errorCnt : ℕ
  notevalCnt : ℕ
  notapplCnt : ℕ
  deriving DecidableEq, Repr

/-- `ores_clear`. -/
def oresClear : Oresults := ⟨0, 0, 0, 0, 0, 0⟩

/-- `ores_add_res`: count one more individual result. -/
def oresAddRes (ores : Oresults) : OvalResult → Oresults
  | .true => { ores with trueCnt := ores.trueCnt + 1 }
  | .false => { ores with falseCnt := ores.falseCnt + 1 }
  | .unknown => { ores with unknownCnt := ores.unknownCnt + 1 }
  | .error => { ores with errorCnt := ores.errorCnt + 1 }
  | .notEvaluated => { ores with notevalCnt := ores.notevalCnt + 1 }
  | .notApplicable => { ores with notapplCnt := ores.notapplCnt + 1 }

/-- The tally of a list of results, added one after another to a cleared one. -/
def oresOfList (results : List OvalResult) : Oresults :=
  results.foldl oresAddRes oresClear

/-- The counter of one kind of result. -/
def Oresults.cnt (ores : Oresults) : OvalResult → ℕ
  | .true => ores.trueCnt
  | .false => ores.falseCnt
  | .unknown => ores.unknownCnt
  | .error => ores.errorCnt
  | .notEvaluated => ores.notevalCnt
  | .notApplicable => ores.notapplCnt

theorem cnt_oresAddRes (ores : Oresults) (r s : OvalResult) :
    (oresAddRes ores r).cnt s = ores.cnt s + if r = s then 1 else 0 := by
  cases r <;> cases s <;> rfl

/-- Adding a list of results to a tally adds the list's counts. -/
theorem foldl_oresAddRes_cnt (results : List OvalResult) (ores : Oresults) (s : OvalResult) :
    (results.foldl oresAddRes ores).cnt s = ores.cnt s + results.count s := by
  induction results generalizing ores with
  | nil => rfl
  | cons r results ih =>
      rw [List.foldl_cons, ih, cnt_oresAddRes, List.count_cons]
      simp only [beq_iff_eq]
      omega

/-- **The tally of a list holds the counts of its results.** -/
theorem oresOfList_cnt (results : List OvalResult) (s : OvalResult) :
    (oresOfList results).cnt s = results.count s := by
  rw [oresOfList, foldl_oresAddRes_cnt]
  cases s <;> simp [oresClear, Oresults.cnt]

/-- The tally of a list, written out. -/
theorem oresOfList_eq (results : List OvalResult) :
    oresOfList results =
      ⟨results.count .true, results.count .false, results.count .unknown,
        results.count .error, results.count .notEvaluated, results.count .notApplicable⟩ := by
  simp only [← oresOfList_cnt, Oresults.cnt]

/-- The tally does not depend on the order of the results. -/
theorem oresOfList_perm {results results' : List OvalResult} (h : results.Perm results') :
    oresOfList results = oresOfList results' := by
  simp only [oresOfList_eq, h.count_eq]

/-! ### Reading the tally -/

/-- Both readings begin alike: an empty tally reads UNKNOWN, one of not-applicable
results only reads NOT_APPLICABLE; any other is left to the `switch`. -/
def oresGetResultGuarded (ores : Oresults) (result : OvalResult) : OvalResult :=
  if ores.trueCnt = 0 ∧ ores.falseCnt = 0 ∧ ores.errorCnt = 0 ∧ ores.unknownCnt = 0 ∧
      ores.notapplCnt = 0 ∧ ores.notevalCnt = 0 then .unknown
  else if 0 < ores.notapplCnt ∧ ores.notevalCnt = 0 ∧ ores.falseCnt = 0 ∧
      ores.errorCnt = 0 ∧ ores.unknownCnt = 0 ∧ ores.trueCnt = 0 then .notApplicable
  else result

/-- `ores_get_result_bychk`. -/
def oresGetResultBychk (ores : Oresults) (check : OvalCheck) : OvalResult :=
  oresGetResultGuarded ores <|
    match check with
    | .all =>
      if 0 < ores.trueCnt ∧ ores.falseCnt = 0 ∧ ores.errorCnt = 0 ∧ ores.unknownCnt = 0 ∧
          ores.notevalCnt = 0 then .true
      else if 0 < ores.falseCnt then .false
      else if ores.falseCnt = 0 ∧ 0 < ores.errorCnt then .error
      else if ores.falseCnt = 0 ∧ ores.errorCnt = 0 ∧ 0 < ores.unknownCnt then .unknown
      else if ores.falseCnt = 0 ∧ ores.errorCnt = 0 ∧ ores.unknownCnt = 0 ∧
          0 < ores.notevalCnt then .notEvaluated
      else .error
    | .atLeastOne =>
      if 0 < ores.trueCnt then .true
      else if 0 < ores.falseCnt ∧ ores.trueCnt = 0 ∧ ores.unknownCnt = 0 ∧
          ores.errorCnt = 0 ∧ ores.notevalCnt = 0 then .false
      else if ores.trueCnt = 0 ∧ 0 < ores.errorCnt then .error
      else if ores.falseCnt = 0 ∧ ores.errorCnt = 0 ∧ 0 < ores.unknownCnt then .unknown
      else if ores.falseCnt = 0 ∧ ores.errorCnt = 0 ∧ ores.unknownCnt = 0 ∧
          0 < ores.notevalCnt then .notEvaluated
      else .error
    | .noneExist | .noneSatisfy =>
      if 0 < ores.trueCnt then .false
      else if ores.trueCnt = 0 ∧ 0 < ores.errorCnt then .error
      else if ores.trueCnt = 0 ∧ ores.errorCnt = 0 ∧ 0 < ores.unknownCnt then .unknown
      else if ores.trueCnt = 0 ∧ ores.errorCnt = 0 ∧ ores.unknownCnt = 0 ∧
          0 < ores.notevalCnt then .notEvaluated
      else if 0 < ores.falseCnt ∧ ores.errorCnt = 0 ∧ ores.unknownCnt = 0 ∧
          ores.notevalCnt = 0 ∧ ores.trueCnt = 0 then .true
      else .error
    | .onlyOne =>
      if ores.trueCnt = 1 ∧ ores.errorCnt = 0 ∧ ores.unknownCnt = 0 ∧
          ores.notevalCnt = 0 then .true
      else if 1 < ores.trueCnt then .false
      else if ores.trueCnt < 2 ∧ 0 < ores.errorCnt then .error
      else if ores.trueCnt < 2 ∧ ores.errorCnt = 0 ∧ 0 < ores.unknownCnt then .unknown
      else if ores.trueCnt < 2 ∧ ores.errorCnt = 0 ∧ ores.unknownCnt = 0 ∧
          0 < ores.notevalCnt then .notEvaluated
      else if ores.trueCnt ≠ 1 ∧ 0 < ores.falseCnt then .false
      else .error
    | .unknown => .error

/-- `ores_get_result_byopr`. -/
def oresGetResultByopr (ores : Oresults) (op : OvalOperator) : OvalResult :=
  oresGetResultGuarded ores <|
    match op with
    | .and =>
      if 0 < ores.trueCnt ∧ ores.falseCnt = 0 ∧ ores.errorCnt = 0 ∧ ores.unknownCnt = 0 ∧
          ores.notevalCnt = 0 then .true
      else if 0 < ores.falseCnt then .false
      else if ores.falseCnt = 0 ∧ 0 < ores.errorCnt then .error
      else if ores.falseCnt = 0 ∧ ores.errorCnt = 0 ∧ 0 < ores.unknownCnt then .unknown
      else if ores.falseCnt = 0 ∧ ores.errorCnt = 0 ∧ ores.unknownCnt = 0 ∧
          0 < ores.notevalCnt then .notEvaluated
      else .error
    | .one =>
      -- the source also asks for counters `>= 0`, which is no condition on a count
      if ores.trueCnt = 1 ∧ ores.errorCnt = 0 ∧ ores.unknownCnt = 0 ∧
          ores.notevalCnt = 0 then .true
      else if 2 ≤ ores.trueCnt then .false
      else if ores.trueCnt = 0 ∧ ores.errorCnt = 0 ∧ ores.unknownCnt = 0 ∧
          ores.notevalCnt = 0 then .false
      else if ores.trueCnt < 2 ∧ 0 < ores.errorCnt then .error
      else if ores.trueCnt < 2 ∧ ores.errorCnt = 0 ∧ 1 ≤ ores.unknownCnt then .unknown
      else if ores.trueCnt < 2 ∧ ores.errorCnt = 0 ∧ ores.unknownCnt = 0 ∧
          0 < ores.notevalCnt then .notEvaluated
      else .error
    | .or =>
      if 0 < ores.trueCnt then .true
      else if ores.trueCnt = 0 ∧ 0 < ores.falseCnt ∧ ores.errorCnt = 0 ∧
          ores.unknownCnt = 0 ∧ ores.notevalCnt = 0 then .false
      else if ores.trueCnt = 0 ∧ 0 < ores.errorCnt then .error
      else if ores.trueCnt = 0 ∧ ores.errorCnt = 0 ∧ 0 < ores.unknownCnt then .unknown
      else if ores.trueCnt = 0 ∧ ores.errorCnt = 0 ∧ ores.unknownCnt = 0 ∧
          0 < ores.notevalCnt then .notEvaluated
      else .error
    | .xor =>
      if ores.trueCnt % 2 = 1 ∧ ores.errorCnt = 0 ∧ ores.unknownCnt = 0 ∧
          ores.notevalCnt = 0 then .true
      else if ores.trueCnt % 2 = 0 ∧ ores.errorCnt = 0 ∧ ores.unknownCnt = 0 ∧
          ores.notevalCnt = 0 then .false
      else if 0 < ores.errorCnt then .error
      else if ores.errorCnt = 0 ∧ 0 < ores.unknownCnt then .unknown
      else if ores.errorCnt = 0 ∧ ores.unknownCnt = 0 ∧ 0 < ores.notevalCnt then
        .notEvaluated
      else .error
    | .unknown => .error

/-! ### The tables of the common schema -/

/-- A row of a table, its entries in the order of the columns T, F, E, U, NE, NA. -/
def tableRow (t f e u ne na : Cell) (result : OvalResult) : Row OvalResult OvalResult where
  cells
    | .true => t
    | .false => f
    | .error => e
    | .unknown => u
    | .notEvaluated => ne
    | .notApplicable => na
  result := result

@[simp] theorem tableRow_result (t f e u ne na : Cell) (result : OvalResult) :
    (tableRow t f e u ne na result).result = result := rfl

/-- A row corresponds to a list when its six entries admit the counters of its tally. -/
theorem tableRow_matches (t f e u ne na : Cell) (result : OvalResult)
    (results : List OvalResult) :
    (tableRow t f e u ne na result).Matches results ↔
      t.Admits (oresOfList results).trueCnt ∧ f.Admits (oresOfList results).falseCnt ∧
      e.Admits (oresOfList results).errorCnt ∧ u.Admits (oresOfList results).unknownCnt ∧
      ne.Admits (oresOfList results).notevalCnt ∧
      na.Admits (oresOfList results).notapplCnt := by
  simp only [oresOfList_eq]
  constructor
  · intro h
    exact ⟨h .true, h .false, h .error, h .unknown, h .notEvaluated, h .notApplicable⟩
  · rintro ⟨ht, hf, he, hu, hne, hna⟩ r
    cases r <;> assumption

/-- The rows of `all` in `CheckEnumeration`, and of AND in `OperatorEnumeration`. -/
def tableAll : List (Row OvalResult OvalResult) :=
  [tableRow (.atLeast 1) (.exactly 0) (.exactly 0) (.exactly 0) (.exactly 0) (.atLeast 0) .true,
   tableRow (.atLeast 0) (.atLeast 1) (.atLeast 0) (.atLeast 0) (.atLeast 0) (.atLeast 0) .false,
   tableRow (.atLeast 0) (.exactly 0) (.atLeast 1) (.atLeast 0) (.atLeast 0) (.atLeast 0) .error,
   tableRow (.atLeast 0) (.exactly 0) (.exactly 0) (.atLeast 1) (.atLeast 0) (.atLeast 0) .unknown,
   tableRow (.atLeast 0) (.exactly 0) (.exactly 0) (.exactly 0) (.atLeast 1) (.atLeast 0)
    .notEvaluated,
   tableRow (.exactly 0) (.exactly 0) (.exactly 0) (.exactly 0) (.exactly 0) (.atLeast 1)
    .notApplicable]

/-- The rows of `at least one`, and of OR. -/
def tableAtLeastOne : List (Row OvalResult OvalResult) :=
  [tableRow (.atLeast 1) (.atLeast 0) (.atLeast 0) (.atLeast 0) (.atLeast 0) (.atLeast 0) .true,
   tableRow (.exactly 0) (.atLeast 1) (.exactly 0) (.exactly 0) (.exactly 0) (.atLeast 0) .false,
   tableRow (.exactly 0) (.atLeast 0) (.atLeast 1) (.atLeast 0) (.atLeast 0) (.atLeast 0) .error,
   tableRow (.exactly 0) (.atLeast 0) (.exactly 0) (.atLeast 1) (.atLeast 0) (.atLeast 0) .unknown,
   tableRow (.exactly 0) (.atLeast 0) (.exactly 0) (.exactly 0) (.atLeast 1) (.atLeast 0)
    .notEvaluated,
   tableRow (.exactly 0) (.exactly 0) (.exactly 0) (.exactly 0) (.exactly 0) (.atLeast 1)
    .notApplicable]

/-- The rows of `only one`, and of ONE. -/
def tableOnlyOne : List (Row OvalResult OvalResult) :=
  [tableRow (.exactly 1) (.atLeast 0) (.exactly 0) (.exactly 0) (.exactly 0) (.atLeast 0) .true,
   tableRow (.atLeast 2) (.atLeast 0) (.atLeast 0) (.atLeast 0) (.atLeast 0) (.atLeast 0) .false,
   tableRow (.exactly 0) (.atLeast 1) (.exactly 0) (.exactly 0) (.exactly 0) (.atLeast 0) .false,
   tableRow (.upTo 1) (.atLeast 0) (.atLeast 1) (.atLeast 0) (.atLeast 0) (.atLeast 0) .error,
   tableRow (.upTo 1) (.atLeast 0) (.exactly 0) (.atLeast 1) (.atLeast 0) (.atLeast 0) .unknown,
   tableRow (.upTo 1) (.atLeast 0) (.exactly 0) (.exactly 0) (.atLeast 1) (.atLeast 0)
    .notEvaluated,
   tableRow (.exactly 0) (.exactly 0) (.exactly 0) (.exactly 0) (.exactly 0) (.atLeast 1)
    .notApplicable]

/-- The rows of `none satisfy`. -/
def tableNoneSatisfy : List (Row OvalResult OvalResult) :=
  [tableRow (.exactly 0) (.atLeast 1) (.exactly 0) (.exactly 0) (.exactly 0) (.atLeast 0) .true,
   tableRow (.atLeast 1) (.atLeast 0) (.atLeast 0) (.atLeast 0) (.atLeast 0) (.atLeast 0) .false,
   tableRow (.exactly 0) (.atLeast 0) (.atLeast 1) (.atLeast 0) (.atLeast 0) (.atLeast 0) .error,
   tableRow (.exactly 0) (.atLeast 0) (.exactly 0) (.atLeast 1) (.atLeast 0) (.atLeast 0) .unknown,
   tableRow (.exactly 0) (.atLeast 0) (.exactly 0) (.exactly 0) (.atLeast 1) (.atLeast 0)
    .notEvaluated,
   tableRow (.exactly 0) (.exactly 0) (.exactly 0) (.exactly 0) (.exactly 0) (.atLeast 1)
    .notApplicable]

/-- The rows of XOR. -/
def tableXor : List (Row OvalResult OvalResult) :=
  [tableRow .odd (.atLeast 0) (.exactly 0) (.exactly 0) (.exactly 0) (.atLeast 0) .true,
   tableRow .even (.atLeast 0) (.exactly 0) (.exactly 0) (.exactly 0) (.atLeast 0) .false,
   tableRow (.atLeast 0) (.atLeast 0) (.atLeast 1) (.atLeast 0) (.atLeast 0) (.atLeast 0) .error,
   tableRow (.atLeast 0) (.atLeast 0) (.exactly 0) (.atLeast 1) (.atLeast 0) (.atLeast 0) .unknown,
   tableRow (.atLeast 0) (.atLeast 0) (.exactly 0) (.exactly 0) (.atLeast 1) (.atLeast 0)
    .notEvaluated,
   tableRow (.exactly 0) (.exactly 0) (.exactly 0) (.exactly 0) (.exactly 0) (.atLeast 1)
    .notApplicable]

/-- The table of a check value. `none exist` is deprecated in favour of `none satisfy`
and has no table of its own; the invalid value has no rows. -/
def checkTable : OvalCheck → List (Row OvalResult OvalResult)
  | .all => tableAll
  | .atLeastOne => tableAtLeastOne
  | .noneExist | .noneSatisfy => tableNoneSatisfy
  | .onlyOne => tableOnlyOne
  | .unknown => []

/-- The table of an operator; the invalid value has no rows. -/
def operatorTable : OvalOperator → List (Row OvalResult OvalResult)
  | .and => tableAll
  | .or => tableAtLeastOne
  | .one => tableOnlyOne
  | .xor => tableXor
  | .unknown => []

/-! ### The readings against the tables -/

/-- A list is empty when its tally is. -/
theorem results_eq_nil_iff (results : List OvalResult) :
    results = [] ↔ (oresOfList results).trueCnt = 0 ∧ (oresOfList results).falseCnt = 0 ∧
      (oresOfList results).errorCnt = 0 ∧ (oresOfList results).unknownCnt = 0 ∧
      (oresOfList results).notevalCnt = 0 ∧ (oresOfList results).notapplCnt = 0 := by
  constructor
  · rintro rfl
    simp [oresOfList, oresClear]
  · simp only [oresOfList_eq, List.count_eq_zero]
    rintro ⟨ht, hf, he, hu, hne, hna⟩
    apply List.eq_nil_iff_forall_not_mem.mpr
    intro r
    cases r <;> assumption

/-- The check `all` and the operator AND are read off the tally alike. -/
theorem bychk_all_eq_byopr_and (ores : Oresults) :
    oresGetResultBychk ores .all = oresGetResultByopr ores .and := rfl

/-- So are the check `only one` and the operator ONE. -/
theorem bychk_onlyOne_eq_byopr_one (ores : Oresults) :
    oresGetResultBychk ores .onlyOne = oresGetResultByopr ores .one := by
  obtain ⟨t, f, u, e, ne, na⟩ := ores
  simp only [oresGetResultBychk, oresGetResultByopr, oresGetResultGuarded]
  rcases (by omega : t = 0 ∨ t = 1 ∨ 2 ≤ t) with rfl | rfl | ht
  · rcases Nat.eq_zero_or_pos e with rfl | he
    · split_ifs <;> first | rfl | omega
    · simp [he, Nat.ne_of_gt he]
  · simp [Nat.one_le_iff_ne_zero, Nat.pos_iff_ne_zero]
  · have h0 : t ≠ 0 := by omega
    have h1 : t ≠ 1 := by omega
    have h2 : 1 < t := by omega
    simp [h0, h1, h2, ht]

/-- The lists that `at least one` gets wrong: a false result together with an unknown or
a not-evaluated one, and neither a true nor an error result. The guards of the two
undecided branches ask for `false_cnt == 0`, and the reading falls to its default. -/
def FalseAmongUndecided (results : List OvalResult) : Prop :=
  .false ∈ results ∧ .true ∉ results ∧ .error ∉ results ∧
    (.unknown ∈ results ∨ .notEvaluated ∈ results)

theorem falseAmongUndecided_iff (results : List OvalResult) :
    FalseAmongUndecided results ↔
      0 < (oresOfList results).falseCnt ∧ (oresOfList results).trueCnt = 0 ∧
        (oresOfList results).errorCnt = 0 ∧
        (0 < (oresOfList results).unknownCnt ∨ 0 < (oresOfList results).notevalCnt) := by
  simp only [FalseAmongUndecided, oresOfList_eq, List.count_pos_iff, List.count_eq_zero]

/-- The check `at least one` and the operator OR part on exactly those lists. -/
theorem bychk_atLeastOne_eq_byopr_or_iff (results : List OvalResult) :
    oresGetResultBychk (oresOfList results) .atLeastOne =
      oresGetResultByopr (oresOfList results) .or ↔ ¬ FalseAmongUndecided results := by
  rw [falseAmongUndecided_iff]
  obtain ⟨t, f, u, e, ne, na⟩ := oresOfList results
  simp only [oresGetResultBychk, oresGetResultByopr, oresGetResultGuarded]
  rcases Nat.eq_zero_or_pos t with rfl | ht
  · rcases Nat.eq_zero_or_pos e with rfl | he
    · rcases Nat.eq_zero_or_pos f with rfl | hf
      · simp
      · split_ifs <;> simp only [true_iff, false_iff, not_not, true_and] <;> omega
    · simp [he, Nat.ne_of_gt he]
  · simp [ht, Nat.ne_of_gt ht]

/-- AND: a list that is not empty has a row, with the result that is read. -/
theorem byopr_and_row {results : List OvalResult} (h : results ≠ []) :
    ∃ row ∈ tableAll, row.Matches results ∧
      row.result = oresGetResultByopr (oresOfList results) .and := by
  rw [ne_eq, results_eq_nil_iff] at h
  simp only [tableAll, List.mem_cons, List.not_mem_nil, or_false, exists_eq_or_imp,
    exists_eq_left, tableRow_matches, tableRow_result]
  generalize oresOfList results = ores at h ⊢
  obtain ⟨t, f, u, e, ne, na⟩ := ores
  simp only [Cell.admits_exactly, Cell.admits_atLeast, oresGetResultByopr,
    oresGetResultGuarded] at h ⊢
  split_ifs <;> simp only [and_false, and_true, false_or, or_false] <;> omega

/-- OR, likewise. -/
theorem byopr_or_row {results : List OvalResult} (h : results ≠ []) :
    ∃ row ∈ tableAtLeastOne, row.Matches results ∧
      row.result = oresGetResultByopr (oresOfList results) .or := by
  rw [ne_eq, results_eq_nil_iff] at h
  simp only [tableAtLeastOne, List.mem_cons, List.not_mem_nil, or_false, exists_eq_or_imp,
    exists_eq_left, tableRow_matches, tableRow_result]
  generalize oresOfList results = ores at h ⊢
  obtain ⟨t, f, u, e, ne, na⟩ := ores
  simp only [Cell.admits_exactly, Cell.admits_atLeast, oresGetResultByopr,
    oresGetResultGuarded] at h ⊢
  split_ifs <;> simp only [and_false, and_true, false_or, or_false] <;> omega

/-- ONE, likewise. -/
theorem byopr_one_row {results : List OvalResult} (h : results ≠ []) :
    ∃ row ∈ tableOnlyOne, row.Matches results ∧
      row.result = oresGetResultByopr (oresOfList results) .one := by
  rw [ne_eq, results_eq_nil_iff] at h
  simp only [tableOnlyOne, List.mem_cons, List.not_mem_nil, or_false, exists_eq_or_imp,
    exists_eq_left, tableRow_matches, tableRow_result]
  generalize oresOfList results = ores at h ⊢
  obtain ⟨t, f, u, e, ne, na⟩ := ores
  simp only [Cell.admits_exactly, Cell.admits_atLeast, Cell.admits_upTo, oresGetResultByopr,
    oresGetResultGuarded] at h ⊢
  split_ifs <;> simp only [and_false, and_true, false_or, or_false] <;> omega

/-- XOR, likewise. -/
theorem byopr_xor_row {results : List OvalResult} (h : results ≠ []) :
    ∃ row ∈ tableXor, row.Matches results ∧
      row.result = oresGetResultByopr (oresOfList results) .xor := by
  rw [ne_eq, results_eq_nil_iff] at h
  simp only [tableXor, List.mem_cons, List.not_mem_nil, or_false, exists_eq_or_imp,
    exists_eq_left, tableRow_matches, tableRow_result]
  generalize oresOfList results = ores at h ⊢
  obtain ⟨t, f, u, e, ne, na⟩ := ores
  simp only [Cell.admits_exactly, Cell.admits_atLeast, Cell.admits_odd, Cell.admits_even,
    oresGetResultByopr,
    oresGetResultGuarded] at h ⊢
  split_ifs <;> simp only [and_false, and_true, false_or, or_false] <;> omega

/-- The check `none satisfy`, likewise. -/
theorem bychk_noneSatisfy_row {results : List OvalResult} (h : results ≠ []) :
    ∃ row ∈ tableNoneSatisfy, row.Matches results ∧
      row.result = oresGetResultBychk (oresOfList results) .noneSatisfy := by
  rw [ne_eq, results_eq_nil_iff] at h
  simp only [tableNoneSatisfy, List.mem_cons, List.not_mem_nil, or_false, exists_eq_or_imp,
    exists_eq_left, tableRow_matches, tableRow_result]
  generalize oresOfList results = ores at h ⊢
  obtain ⟨t, f, u, e, ne, na⟩ := ores
  simp only [Cell.admits_exactly, Cell.admits_atLeast, oresGetResultBychk,
    oresGetResultGuarded] at h ⊢
  split_ifs <;> simp only [and_false, and_true, false_or, or_false] <;> omega

/-- No row of a table corresponds to the empty list, XOR's apart. -/
theorem not_matches_nil {row : Row OvalResult OvalResult}
    (h : row ∈ tableAll ++ tableAtLeastOne ++ tableOnlyOne ++ tableNoneSatisfy) :
    ¬ row.Matches [] := by
  simp only [tableAll, tableAtLeastOne, tableOnlyOne, tableNoneSatisfy, List.mem_append,
    List.mem_cons, List.not_mem_nil, or_false] at h
  rcases h with ((h | h) | h) | h <;>
    rcases h with rfl | rfl | rfl | rfl | rfl | rfl | rfl <;>
      simp [tableRow_matches, oresOfList, oresClear]

/-- The readings that name a row for every list but the empty one are the tables'. -/
theorem agrees_of_row {table : List (Row OvalResult OvalResult)} {results : List OvalResult}
    {r : OvalResult}
    (hsub : table ⊆ tableAll ++ tableAtLeastOne ++ tableOnlyOne ++ tableNoneSatisfy)
    (hrow : results ≠ [] → ∃ row ∈ table, row.Matches results ∧ row.result = r) :
    Agrees table results r := by
  rcases eq_or_ne results [] with rfl | h
  · exact agrees_of_matches (.inr fun row hmem => not_matches_nil (hsub hmem))
  · exact agrees_of_matches (.inl (hrow h))

theorem byopr_and_agrees (results : List OvalResult) :
    Agrees tableAll results (oresGetResultByopr (oresOfList results) .and) :=
  agrees_of_row (by simp) byopr_and_row

theorem byopr_or_agrees (results : List OvalResult) :
    Agrees tableAtLeastOne results (oresGetResultByopr (oresOfList results) .or) :=
  agrees_of_row (by simp) byopr_or_row

theorem byopr_one_agrees (results : List OvalResult) :
    Agrees tableOnlyOne results (oresGetResultByopr (oresOfList results) .one) :=
  agrees_of_row (fun _ h => by simp [h]) byopr_one_row

theorem bychk_noneSatisfy_agrees (results : List OvalResult) :
    Agrees tableNoneSatisfy results (oresGetResultBychk (oresOfList results) .noneSatisfy) :=
  agrees_of_row (fun _ h => by simp [h]) bychk_noneSatisfy_row

/-- On the empty list the first guard of the reading answers UNKNOWN, where the count of
true results is even; on every other list XOR is read as its table says. -/
theorem byopr_xor_agrees_iff (results : List OvalResult) :
    Agrees tableXor results (oresGetResultByopr (oresOfList results) .xor) ↔
      results ≠ [] := by
  constructor
  · rintro h rfl
    simp [Agrees, tableXor, tableRow_matches, oresOfList, oresClear, oresGetResultByopr,
      oresGetResultGuarded] at h
  · intro h
    exact agrees_of_matches (.inl (byopr_xor_row h))

/-- On a list of `FalseAmongUndecided` the row of the operator's result is the only one
to correspond, and the check reads ERROR. -/
theorem bychk_atLeastOne_agrees_iff (results : List OvalResult) :
    Agrees tableAtLeastOne results (oresGetResultBychk (oresOfList results) .atLeastOne) ↔
      ¬ FalseAmongUndecided results := by
  constructor
  · intro h hf
    rw [falseAmongUndecided_iff] at hf
    simp only [Agrees, tableAtLeastOne, List.mem_cons, List.not_mem_nil, or_false,
      exists_eq_or_imp, exists_eq_left, tableRow_matches, tableRow_result] at h
    generalize oresOfList results = ores at h hf
    obtain ⟨t, f, u, e, ne, na⟩ := ores
    obtain ⟨hf, rfl, rfl, hopen⟩ := hf
    simp only at hf hopen
    have hfalse : ¬ (0 < f ∧ u = 0 ∧ ne = 0) := by omega
    simp [oresGetResultBychk, oresGetResultGuarded, Nat.ne_of_gt hf, hfalse] at h
    omega
  · intro h
    rw [(bychk_atLeastOne_eq_byopr_or_iff results).mpr h]
    exact byopr_or_agrees results

/-- **The readings are the tables'**, for every check value and every operator on every
list of results, except `at least one` on the lists of `FalseAmongUndecided` and XOR on
the empty list; and the check values read as the operators of the same tables, with the
same exception. -/
theorem ores_get_result_agrees_iff (results : List OvalResult) :
    (∀ check, Agrees (checkTable check) results
        (oresGetResultBychk (oresOfList results) check) ↔
      ¬ (check = .atLeastOne ∧ FalseAmongUndecided results)) ∧
    (∀ op, Agrees (operatorTable op) results
        (oresGetResultByopr (oresOfList results) op) ↔
      ¬ (op = .xor ∧ results = [])) ∧
    oresGetResultBychk (oresOfList results) .all =
      oresGetResultByopr (oresOfList results) .and ∧
    (oresGetResultBychk (oresOfList results) .atLeastOne =
      oresGetResultByopr (oresOfList results) .or ↔ ¬ FalseAmongUndecided results) ∧
    oresGetResultBychk (oresOfList results) .onlyOne =
      oresGetResultByopr (oresOfList results) .one := by
  refine ⟨fun check => ?_, fun op => ?_, bychk_all_eq_byopr_and _,
    bychk_atLeastOne_eq_byopr_or_iff results, bychk_onlyOne_eq_byopr_one _⟩
  · cases check with
    | unknown => simp [checkTable]
    | all => simpa [checkTable, bychk_all_eq_byopr_and] using byopr_and_agrees results
    | atLeastOne => simpa [checkTable] using bychk_atLeastOne_agrees_iff results
    | noneExist | noneSatisfy =>
        exact iff_of_true (bychk_noneSatisfy_agrees results) (by simp)
    | onlyOne =>
        simpa [checkTable, bychk_onlyOne_eq_byopr_one] using byopr_one_agrees results
  · cases op with
    | unknown => simp [operatorTable]
    | and => simpa [operatorTable] using byopr_and_agrees results
    | one => simpa [operatorTable] using byopr_one_agrees results
    | or => simpa [operatorTable] using byopr_or_agrees results
    | xor => simpa [operatorTable] using byopr_xor_agrees_iff results

/-- One false and one unknown result read ERROR under `at least one`, where the table's
row says UNKNOWN. -/
theorem ores_get_result_false_unknown :
    ¬ ∀ (check : OvalCheck) (results : List OvalResult),
      Agrees (checkTable check) results (oresGetResultBychk (oresOfList results) check) := by
  intro h
  have hrow := h .atLeastOne [.false, .unknown]
  simp [Agrees, checkTable, tableAtLeastOne, tableRow_matches, oresOfList, oresAddRes,
    oresClear, oresGetResultBychk, oresGetResultGuarded] at hrow

end OpenScap
