import OpenScap.OvalTest

/-!
# The existence piece of a test against the tables of the schema

For a completely collected object a test first looks at how many items exist
(`eval_check_existence`) and compares items with states only when that piece is TRUE. The
common schema specifies the piece by five tables over the counts of four item statuses,
the annotations of `ExistenceEnumeration`. The code counts two of them: items that exist
and items with an error.

## Main results

* `itemLoop_existsCnt`, `itemLoop_errorCnt` — the two counts that the loop over the
  collected items leaves;
* `existence_agrees_iff` — the collected items for which the piece is the one of the
  tables (`CountsSuffice`).
-/

open CountTable

namespace OpenScap

/-! ### The counts of the loop -/

section Counts

variable (sysmod : SyscharModel)

/-- The consumer of an item leaves the counts alone. -/
@[simp] theorem ovalTestItemConsumer_existsCnt (ritem : ResultItem) (l : ItemLoop) :
    (ovalTestItemConsumer ritem l).existsCnt = l.existsCnt := by
  rw [ovalTestItemConsumer]
  split_ifs <;> rfl

@[simp] theorem ovalTestItemConsumer_errorCnt (ritem : ResultItem) (l : ItemLoop) :
    (ovalTestItemConsumer ritem l).errorCnt = l.errorCnt := by
  rw [ovalTestItemConsumer]
  split_ifs <;> rfl

/-- One turn of the loop counts the item when it exists. -/
theorem itemLoopStep_existsCnt (l : ItemLoop) (item : Sysitem) :
    (itemLoopStep sysmod l item).existsCnt =
      l.existsCnt + if item.status = .exists_ then 1 else 0 := by
  rw [itemLoopStep, ovalTestItemConsumer_existsCnt]

/-- One turn of the loop counts the item when it has an error. -/
theorem itemLoopStep_errorCnt (l : ItemLoop) (item : Sysitem) :
    (itemLoopStep sysmod l item).errorCnt =
      l.errorCnt + if item.status = .error then 1 else 0 := by
  rw [itemLoopStep, ovalTestItemConsumer_errorCnt]

/-- A count that every turn of a loop raises for the items of one status ends at the
number of such items above its start. -/
theorem foldl_count_status (cnt : ItemLoop → ℕ) (status : SyscharStatus)
    (hstep : ∀ l item, cnt (itemLoopStep sysmod l item) =
      cnt l + if item.status = status then 1 else 0)
    (collected : List Sysitem) (l : ItemLoop) :
    cnt (collected.foldl (itemLoopStep sysmod) l) =
      cnt l + (collected.map Sysitem.status).count status := by
  induction collected generalizing l with
  | nil => simp
  | cons item rest ih =>
      rw [List.foldl_cons, ih, hstep, List.map_cons, List.count_cons]
      simp only [beq_iff_eq]
      omega

/-- The first count is the number of collected items that exist. -/
theorem itemLoop_existsCnt (items : List ResultItem) (collected : List Sysitem) :
    (itemLoop sysmod items collected).existsCnt =
      (collected.map Sysitem.status).count .exists_ := by
  have h := foldl_count_status sysmod ItemLoop.existsCnt .exists_
    (itemLoopStep_existsCnt sysmod) collected ⟨0, 0, [], items⟩
  rw [itemLoop, h, Nat.zero_add]

/-- The second count is the number of collected items with an error. -/
theorem itemLoop_errorCnt (items : List ResultItem) (collected : List Sysitem) :
    (itemLoop sysmod items collected).errorCnt =
      (collected.map Sysitem.status).count .error := by
  have h := foldl_count_status sysmod ItemLoop.errorCnt .error
    (itemLoopStep_errorCnt sysmod) collected ⟨0, 0, [], items⟩
  rw [itemLoop, h, Nat.zero_add]

/-- The piece as the evaluator calls for it, from the counts of its own loop. -/
def existencePiece (existence : OvalExistence) (items : List ResultItem)
    (collected : List Sysitem) : OvalResult :=
  let l := itemLoop sysmod items collected
  evalCheckExistence existence l.existsCnt l.errorCnt

end Counts

/-! ### The tables of the common schema -/

/-- A row of a table, its entries in the order of the columns EX, DE, ER, NC. The tables
have no column for an item of unknown status. -/
def existenceRow (ex de er nc : Cell) (result : OvalResult) : Row SyscharStatus OvalResult where
  cells
    | .exists_ => ex
    | .doesNotExist => de
    | .error => er
    | .notCollected => nc
    | .unknown => .atLeast 0
  result := result

@[simp] theorem existenceRow_result (ex de er nc : Cell) (result : OvalResult) :
    (existenceRow ex de er nc result).result = result := rfl

/-- A row corresponds to the collected statuses when its four entries admit their
counts. -/
theorem existenceRow_matches (ex de er nc : Cell) (result : OvalResult)
    (statuses : List SyscharStatus) :
    (existenceRow ex de er nc result).Matches statuses ↔
      ex.Admits (statuses.count .exists_) ∧ de.Admits (statuses.count .doesNotExist) ∧
      er.Admits (statuses.count .error) ∧ nc.Admits (statuses.count .notCollected) := by
  constructor
  · intro h
    exact ⟨h .exists_, h .doesNotExist, h .error, h .notCollected⟩
  · rintro ⟨hex, hde, her, hnc⟩ status
    cases status with
    | unknown => exact Nat.zero_le _
    | _ => assumption

/-- The rows of each value of `ExistenceEnumeration`; the invalid value has no rows. -/
def existenceTable : OvalExistence → List (Row SyscharStatus OvalResult)
  | .allExist =>
    [existenceRow (.atLeast 1) (.exactly 0) (.exactly 0) (.exactly 0) .true,
     existenceRow (.exactly 0) (.exactly 0) (.exactly 0) (.exactly 0) .false,
     existenceRow (.atLeast 0) (.atLeast 1) (.atLeast 0) (.atLeast 0) .false,
     existenceRow (.atLeast 0) (.exactly 0) (.atLeast 1) (.atLeast 0) .error,
     existenceRow (.atLeast 0) (.exactly 0) (.exactly 0) (.atLeast 1) .unknown]
  | .anyExist =>
    [existenceRow (.atLeast 0) (.atLeast 0) (.exactly 0) (.atLeast 0) .true,
     existenceRow (.atLeast 1) (.atLeast 0) (.atLeast 1) (.atLeast 0) .true,
     existenceRow (.exactly 0) (.atLeast 0) (.atLeast 1) (.atLeast 0) .error]
  | .atLeastOneExists =>
    [existenceRow (.atLeast 1) (.atLeast 0) (.atLeast 0) (.atLeast 0) .true,
     existenceRow (.exactly 0) (.atLeast 1) (.exactly 0) (.exactly 0) .false,
     existenceRow (.exactly 0) (.atLeast 0) (.atLeast 1) (.atLeast 0) .error,
     existenceRow (.exactly 0) (.atLeast 0) (.exactly 0) (.atLeast 1) .unknown]
  | .noneExist =>
    [existenceRow (.exactly 0) (.atLeast 0) (.exactly 0) (.exactly 0) .true,
     existenceRow (.atLeast 1) (.atLeast 0) (.atLeast 0) (.atLeast 0) .false,
     existenceRow (.exactly 0) (.atLeast 0) (.atLeast 1) (.atLeast 0) .error,
     existenceRow (.exactly 0) (.atLeast 0) (.exactly 0) (.atLeast 1) .unknown]
  | .onlyOneExists =>
    [existenceRow (.exactly 1) (.atLeast 0) (.exactly 0) (.exactly 0) .true,
     existenceRow (.atLeast 2) (.atLeast 0) (.atLeast 0) (.atLeast 0) .false,
     existenceRow (.exactly 0) (.atLeast 0) (.exactly 0) (.exactly 0) .false,
     existenceRow (.upTo 1) (.atLeast 0) (.atLeast 1) (.atLeast 0) .error,
     existenceRow (.upTo 1) (.atLeast 0) (.exactly 0) (.atLeast 1) .unknown]
  | .unknown => []

/-! ### Where the two counts are enough -/

/-- The collected statuses for which the counts of existing items and of errors tell the
row. Under `all_exist` an item that does not exist decides, unless only such and
uncollected items are there; under the other values but `any_exist` an uncollected item
makes the piece unknown where nothing else decides; and under `none_exist` the
evaluation has no branch for existing items together with errors. -/
def CountsSuffice (existence : OvalExistence) (statuses : List SyscharStatus) : Prop :=
  match existence with
  | .allExist =>
    if .doesNotExist ∈ statuses then .exists_ ∉ statuses ∧ .error ∉ statuses
    else .notCollected ∈ statuses → .error ∈ statuses
  | .atLeastOneExists =>
    .notCollected ∈ statuses → .exists_ ∈ statuses ∨ .error ∈ statuses
  | .noneExist =>
    (.exists_ ∈ statuses → .error ∉ statuses) ∧
      (.notCollected ∈ statuses → .exists_ ∈ statuses ∨ .error ∈ statuses)
  | .onlyOneExists =>
    .notCollected ∈ statuses → 2 ≤ statuses.count .exists_ ∨ .error ∈ statuses
  | .anyExist | .unknown => True

/-- `CountsSuffice` in terms of the counts. -/
theorem countsSuffice_iff (existence : OvalExistence) (statuses : List SyscharStatus) :
    CountsSuffice existence statuses ↔
      match existence with
      | .allExist =>
        if 0 < statuses.count .doesNotExist then
          statuses.count .exists_ = 0 ∧ statuses.count .error = 0
        else 0 < statuses.count .notCollected → 0 < statuses.count .error
      | .atLeastOneExists =>
        0 < statuses.count .notCollected →
          0 < statuses.count .exists_ ∨ 0 < statuses.count .error
      | .noneExist =>
        (0 < statuses.count .exists_ → statuses.count .error = 0) ∧
          (0 < statuses.count .notCollected →
            0 < statuses.count .exists_ ∨ 0 < statuses.count .error)
      | .onlyOneExists =>
        0 < statuses.count .notCollected →
          2 ≤ statuses.count .exists_ ∨ 0 < statuses.count .error
      | .anyExist | .unknown => True := by
  cases existence <;>
    simp only [CountsSuffice, List.count_pos_iff, List.count_eq_zero]

/-- **The existence piece is the one of the tables** exactly where the two counts are
enough, for every list of collected items and every value. -/
theorem existence_agrees_iff (sysmod : SyscharModel) (existence : OvalExistence)
    (items : List ResultItem) (collected : List Sysitem) :
    Agrees (existenceTable existence) (collected.map Sysitem.status)
        (existencePiece sysmod existence items collected) ↔
      CountsSuffice existence (collected.map Sysitem.status) := by
  simp only [existencePiece, itemLoop_existsCnt, itemLoop_errorCnt, countsSuffice_iff]
  generalize collected.map Sysitem.status = statuses
  cases existence with
  | unknown => simp [existenceTable]
  | anyExist =>
      simp only [Agrees, existenceTable, List.mem_cons, List.not_mem_nil, or_false,
        exists_eq_or_imp, exists_eq_left, existenceRow_matches, existenceRow_result,
        Cell.admits_exactly, Cell.admits_atLeast, evalCheckExistence, iff_true]
      intro _
      split_ifs <;> simp only [and_false, and_true, false_or, or_false] <;> omega
  | allExist | atLeastOneExists | noneExist | onlyOneExists =>
      simp only [Agrees, existenceTable, List.mem_cons, List.not_mem_nil, or_false,
        exists_eq_or_imp, exists_eq_left, existenceRow_matches, existenceRow_result,
        Cell.admits_exactly, Cell.admits_atLeast, Cell.admits_upTo, evalCheckExistence]
      split_ifs <;> simp only [and_false, and_true, false_or, or_false] <;> omega

/-- An existing item together with an item in error: `none_exist` is ERROR, where the
table's row says False. -/
theorem not_existence_agrees :
    ¬ ∀ (sysmod : SyscharModel) (existence : OvalExistence) (collected : List Sysitem),
      Agrees (existenceTable existence) (collected.map Sysitem.status)
        (existencePiece sysmod existence [] collected) := by
  intro h
  have hrow := h ⟨fun _ => none, fun _ => none, fun _ => none⟩ .noneExist
    [⟨"1", .exists_, []⟩, ⟨"2", .error, []⟩]
  simp only [existencePiece, itemLoop_existsCnt, itemLoop_errorCnt] at hrow
  simp [Agrees, existenceTable, existenceRow_matches, evalCheckExistence] at hrow

end OpenScap
