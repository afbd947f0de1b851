import Mathlib.Algebra.Group.Nat.Defs
import OpenScap.OvalResult

/-!
# Evaluating an OVAL test

A test compares the items collected for its object with its states. The evaluator
(`oval_result_test_eval`) memoizes by the result itself: a test whose result is
NOT_EVALUATED counts as not evaluated yet. Its first evaluation appends the collected
items to the result test, one for each item id, through a map that lives for that
evaluation only.

The comparison of one entity value with one item value depends on the datatype. The
comparators of the supported datatypes are a parameter `cmp` here, so every statement
holds for all of them; the dispatch over the datatypes is `ovalEntCmpStr`.

Masks, messages and variable bindings of a result test are written for the report only;
no result depends on them, and they are left out.

## Main results

* `ovalResultTestEval_of_evaluated` — a test with any other result than NOT_EVALUATED is
  left alone;
* `ovalResultTestEval_new_eq_notEvaluated_iff` — when a first evaluation yields
  NOT_EVALUATED, in terms of the collected object and the states (`ReEnters`);
* `ovalResultTestEval_reEnters` — such a test is entered again, and its items are
  appended once more.
-/

namespace OpenScap

/-! ### System characteristics -/

/-- `oval_syschar_status_t`. -/
inductive SyscharStatus
  | unknown
  | error
  | exists_
  | doesNotExist
  | notCollected
  deriving DecidableEq, Repr

/-- `oval_syschar_collection_flag_t`. -/
inductive SyscharFlag
  | unknown
  | error
  | complete
  | incomplete
  | doesNotExist
  | notCollected
  | notApplicable
  deriving DecidableEq, Repr

/-- `oval_datatype_t`. -/
inductive OvalDatatype
  | unknown
  | binary
  | boolean
  | evrString
  | filesetRevision
  | float
  | integer
  | iosVersion
  | ipv4addr
  | ipv6addr
  | record
  | sexp
  | string
  | stringM
  | version
  deriving DecidableEq, Repr

/-- `oval_operation_t`. -/
inductive OvalOperation
  | unknown
  | bitwiseAnd
  | bitwiseOr
  | caseInsensitiveEquals
  | caseInsensitiveNotEqual
  | equals
  | greaterThan
  | greaterThanOrEqual
  | lessThan
  | lessThanOrEqual
  | notEqual
  | patternMatch
  | subsetOf
  | supersetOf
  deriving DecidableEq, Repr

/-- `oval_existence_t`. -/
inductive OvalExistence
  | unknown
  | allExist
  | anyExist
  | atLeastOneExists
  | noneExist
  | onlyOneExists
  deriving DecidableEq, Repr

/-- `struct oval_sysent`: an entity of a collected item. -/
structure Sysent where
  name : String
  status : SyscharStatus
  value : String
  deriving DecidableEq, Repr

/-- `struct oval_sysitem`: a collected item. -/
structure Sysitem where
  id : String
  status : SyscharStatus
  sysents : List Sysent
  deriving DecidableEq, Repr

/-- `struct oval_syschar`: a collected object. -/
structure Syschar where
  flag : SyscharFlag
  sysitems : List Sysitem
  deriving DecidableEq, Repr

/-- `struct oval_value`; a text may be missing. -/
structure OvalValue where
  text : Option String
  datatype : OvalDatatype
  deriving DecidableEq, Repr

/-- The part of `struct oval_syschar_model` that an evaluation reads: the collected
objects and items by id, and the variables. A computed variable is its flag and its
values; `none` is the failure of `oval_syschar_model_compute_variable`. -/
structure SyscharModel where
  syscharMap : String → Option Syschar
  sysitemMap : String → Option Sysitem
  computeVariable : String → Option (SyscharFlag × List OvalValue)

/-- `oval_syschar_model_get_new_sysitem`: the item of that id, created when missing. -/
def SyscharModel.getNewSysitem (sysmod : SyscharModel) (id : String) : Sysitem :=
  (sysmod.sysitemMap id).getD ⟨id, .unknown, []⟩

/-! ### States and tests -/

/-- `struct oval_entity` of a state. -/
structure StateEntity where
  name : Option String
  /-- The entity refers to a variable (`OVAL_ENTITY_VARREF_ATTRIBUTE`). -/
  varref : Bool
  variableId : Option String
  value : Option OvalValue
  operation : OvalOperation
  deriving DecidableEq, Repr

/-- `struct oval_state_content`. -/
structure StateContent where
  entity : Option StateEntity
  entCheck : OvalCheck
  varCheck : OvalCheck
  deriving DecidableEq, Repr

/-- `struct oval_state`. Subtypes are numbered; a schema version is packed into 32 bits. -/
structure OvalState where
  subtype : ℕ
  schemaVersion : ℕ
  operator : OvalOperator
  contents : List StateContent
  deriving DecidableEq, Repr

/-- `struct oval_test`. -/
structure OvalTest where
  subtype : ℕ
  objectId : String
  states : List OvalState
  check : OvalCheck
  existence : OvalExistence
  stateOperator : OvalOperator
  deriving DecidableEq, Repr

/-- `OVAL_INDEPENDENT_TEXT_FILE_CONTENT`. -/
def ovalIndependentTextFileContent : ℕ := 7007

/-- `OVAL_INDEPENDENT_UNKNOWN`. -/
def ovalIndependentUnknown : ℕ := 7008

/-- `OVAL_VERSION(5.4)`. -/
def ovalVersion54 : ℕ := 5 * 2 ^ 24 + 4 * 2 ^ 16

/-! ### Comparing an item with a state -/

/-- The comparators of the supported datatypes: state text, system text, operation. -/
abbrev EntCmp := OvalDatatype → String → String → OvalOperation → OvalResult

/-- `oval_ent_cmp_str`. -/
def ovalEntCmpStr (cmp : EntCmp) (stateData : String) (stateDataType : OvalDatatype)
    (sysent : Sysent) (operation : OvalOperation) : OvalResult :=
  match stateDataType with
  | .string | .integer | .float | .boolean | .binary | .evrString | .version
  | .ipv4addr | .ipv6addr => cmp stateDataType stateData sysent.value operation
  | .filesetRevision | .iosVersion => .notEvaluated
  | .unknown | .record | .sexp | .stringM => .error

section Evaluation

variable (cmp : EntCmp) (sysmod : SyscharModel)

/-- The loop over the values of a variable: a missing text counts as an error and ends
the loop. -/
def varOres (itemEntity : Sysent) (operation : OvalOperation) :
    List OvalValue → Oresults → Oresults
  | [], ores => ores
  | val :: vals, ores =>
    match val.text with
    | none => oresAddRes ores .error
    | some text =>
      varOres itemEntity operation vals
        (oresAddRes ores (ovalEntCmpStr cmp text val.datatype itemEntity operation))

/-- `_evaluate_sysent_with_variable`; `none` is the internal error `-1`. -/
def evaluateSysentWithVariable (stateEntity : StateEntity) (itemEntity : Sysent)
    (content : StateContent) : Option OvalResult := do
  let var ← stateEntity.variableId
  let (flag, values) ← sysmod.computeVariable var
  match flag with
  | .complete | .incomplete =>
    return oresGetResultBychk (varOres cmp itemEntity stateEntity.operation values oresClear)
      content.varCheck
  | .error | .doesNotExist | .notCollected | .notApplicable => return .error
  | .unknown => none

/-- `_evaluate_sysent`. -/
def evaluateSysent (itemEntity : Sysent) (stateEntity : StateEntity)
    (content : StateContent) : Option OvalResult :=
  if itemEntity.status = .doesNotExist then some .false
  else if stateEntity.varref then
    evaluateSysentWithVariable cmp sysmod stateEntity itemEntity content
  else do
    let val ← stateEntity.value
    let text ← val.text
    return ovalEntCmpStr cmp text val.datatype itemEntity stateEntity.operation

/-- The name under which the item entities of a state entity are looked up. -/
def stateEntityName (state : OvalState) (name : String) : String :=
  -- textfilecontent_state/line is compared with textfilecontent_item/text from 5.4 on
  if name = "line" ∧ state.subtype = ovalIndependentTextFileContent ∧
      ovalVersion54 ≤ state.schemaVersion then "text"
  else name

/-- The loop over the entities of the item, for one entity of the state. -/
def entOres (stateEntity : StateEntity) (name : String) (content : StateContent) :
    List Sysent → Oresults → Option Oresults
  | [], ores => some ores
  | itemEntity :: rest, ores =>
    if itemEntity.name ≠ name then entOres stateEntity name content rest ores
    else do
      let res ← evaluateSysent cmp sysmod itemEntity stateEntity content
      entOres stateEntity name content rest (oresAddRes ores res)

/-- The loop over the contents of the state. -/
def steOres (item : Sysitem) (state : OvalState) :
    List StateContent → Oresults → Option Oresults
  | [], ores => some ores
  | content :: rest, ores => do
    let stateEntity ← content.entity
    let name ← stateEntity.name
    let entRes ← entOres cmp sysmod stateEntity (stateEntityName state name) content
      item.sysents oresClear
    steOres item state rest (oresAddRes ores (oresGetResultBychk entRes content.entCheck))

/-- `eval_item`: an internal error is the result ERROR. -/
def evalItem (item : Sysitem) (state : OvalState) : OvalResult :=
  match steOres cmp sysmod item state state.contents oresClear with
  | some ores => oresGetResultByopr ores state.operator
  | none => .error

/-! ### Evaluating the test -/

/-- `struct oval_result_item`. -/
structure ResultItem where
  sysitem : Sysitem
  result : OvalResult
  deriving DecidableEq, Repr

/-- The result of one item, as the loop of `eval_check_state` computes it. -/
def itemResult (test : OvalTest) (item : Sysitem) : OvalResult :=
  match item.status with
  | .error | .notCollected => .error
  | .doesNotExist => .false
  | .unknown | .exists_ =>
    oresGetResultByopr (oresOfList (test.states.map (evalItem cmp sysmod item)))
      test.stateOperator

/-- `eval_check_state`: the items of the result test get their results, which are
combined by the check. -/
def evalCheckState (test : OvalTest) (items : List ResultItem) :
    OvalResult × List ResultItem :=
  let items' := items.map fun ritem =>
    { ritem with result := itemResult cmp sysmod test ritem.sysitem }
  (oresGetResultBychk (oresOfList (items'.map ResultItem.result)) test.check, items')

end Evaluation

/-- `eval_check_existence`. -/
def evalCheckExistence (checkExistence : OvalExistence) (existsCnt errorCnt : ℕ) :
    OvalResult :=
  match checkExistence with
  | .allExist =>
    if 1 ≤ existsCnt ∧ errorCnt = 0 then .true
    else if existsCnt = 0 ∧ errorCnt = 0 then .false
    else .error
  | .anyExist =>
    if errorCnt = 0 then .true
    else if 1 ≤ existsCnt ∧ 1 ≤ errorCnt then .true
    else .error
  | .atLeastOneExists =>
    if 1 ≤ existsCnt then .true
    else if existsCnt = 0 ∧ errorCnt = 0 then .false
    else .error
  | .noneExist =>
    if existsCnt = 0 ∧ errorCnt = 0 then .true
    else if 1 ≤ existsCnt ∧ errorCnt = 0 then .false
    else .error
  | .onlyOneExists =>
    if existsCnt = 1 ∧ errorCnt = 0 then .true
    else if 2 ≤ existsCnt then .false
    else if existsCnt = 0 ∧ errorCnt = 0 then .false
    else .error
  | .unknown => .error

/-- `struct oval_result_test`. -/
structure ResultTest where
  test : OvalTest
  result : OvalResult
  items : List ResultItem
  deriving DecidableEq, Repr

/-- `oval_result_test_new`. -/
def ovalResultTestNew (test : OvalTest) : ResultTest := ⟨test, .notEvaluated, []⟩

/-- What the loop over the collected items carries: the two counts, the ids in the
temporary map and the items of the result test. -/
structure ItemLoop where
  existsCnt : ℕ
  errorCnt : ℕ
  itemMap : List String
  items : List ResultItem
  deriving DecidableEq, Repr

/-- `_oval_test_item_consumer`: the first item of an id is kept. -/
def ovalTestItemConsumer (ritem : ResultItem) (l : ItemLoop) : ItemLoop :=
  if ritem.sysitem.id ∈ l.itemMap then l
  else { l with itemMap := ritem.sysitem.id :: l.itemMap, items := l.items ++ [ritem] }

section Evaluation

variable (cmp : EntCmp) (sysmod : SyscharModel)

/-- One turn of the loop over the collected items. -/
def itemLoopStep (l : ItemLoop) (item : Sysitem) : ItemLoop :=
  let l := { l with
    existsCnt := l.existsCnt + if item.status = .exists_ then 1 else 0
    errorCnt := l.errorCnt + if item.status = .error then 1 else 0 }
  ovalTestItemConsumer ⟨sysmod.getNewSysitem item.id, .notEvaluated⟩ l

/-- The loop over the collected items, with a map of its own. -/
def itemLoop (items : List ResultItem) (collected : List Sysitem) : ItemLoop :=
  collected.foldl (itemLoopStep sysmod) ⟨0, 0, [], items⟩

/-- `_oval_result_test_evaluate_items`: the result, and the items of the result test. -/
def ovalResultTestEvaluateItems (test : OvalTest) (syschar : Syschar)
    (items : List ResultItem) : OvalResult × List ResultItem :=
  let l := itemLoop sysmod items syschar.sysitems
  let hasstate := !test.states.isEmpty
  let unlessAny (result : OvalResult) : OvalResult :=
    if test.existence = .anyExist ∧ hasstate = false then .true else result
  match syschar.flag with
  | .error => (unlessAny .error, l.items)
  | .notCollected => (unlessAny .unknown, l.items)
  | .notApplicable => (unlessAny .notApplicable, l.items)
  | .doesNotExist =>
    (if test.existence = .noneExist ∨ test.existence = .anyExist then .true else .false,
      l.items)
  | .complete =>
    let result := evalCheckExistence test.existence l.existsCnt l.errorCnt
    if result = .true ∧ hasstate then evalCheckState cmp sysmod test l.items
    else (result, l.items)
  | .incomplete =>
    let result : OvalResult :=
      if test.existence = .anyExist then .true
      else if test.existence = .atLeastOneExists ∧ 0 < l.existsCnt then .true
      else if test.existence = .noneExist ∧ 0 < l.existsCnt then .false
      else if test.existence = .onlyOneExists ∧ 1 < l.existsCnt then .false
      else .unknown
    if result = .true ∧ hasstate then
      let (result, items) := evalCheckState cmp sysmod test l.items
      if result = .true then
        (if test.check ≠ .atLeastOne then .unknown else .true, items)
      else if result ≠ .false then (.unknown, items)
      else (.false, items)
    else (result, l.items)
  | .unknown => (.error, l.items)

/-- `_oval_result_test_result`. -/
def ovalResultTestResult (rtest : ResultTest) : OvalResult × List ResultItem :=
  if rtest.result ≠ .notEvaluated then (rtest.result, rtest.items)
  else match sysmod.syscharMap rtest.test.objectId with
    | none => (.unknown, rtest.items)
    | some syschar => ovalResultTestEvaluateItems cmp sysmod rtest.test syschar rtest.items

/-- `oval_result_test_eval`: the result, and the result test after the call. -/
def ovalResultTestEval (rtest : ResultTest) : OvalResult × ResultTest :=
  if rtest.result = .notEvaluated then
    if rtest.test.subtype ≠ ovalIndependentUnknown then
      let (result, items) := ovalResultTestResult cmp sysmod rtest
      (result, { rtest with result := result, items := items })
    else (.unknown, { rtest with result := .unknown })
  else (rtest.result, rtest)

/-! ### The memo -/

/-- An evaluation returns the result that it leaves in the result test. -/
theorem ovalResultTestEval_result (rtest : ResultTest) :
    (ovalResultTestEval cmp sysmod rtest).2.result =
      (ovalResultTestEval cmp sysmod rtest).1 := by
  unfold ovalResultTestEval
  split_ifs <;> rfl

/-- An evaluation does not change which test is evaluated. -/
@[simp] theorem ovalResultTestEval_test (rtest : ResultTest) :
    (ovalResultTestEval cmp sysmod rtest).2.test = rtest.test := by
  unfold ovalResultTestEval
  split_ifs <;> rfl

/-- **A test with any other result than NOT_EVALUATED is left alone.** -/
theorem ovalResultTestEval_of_evaluated {rtest : ResultTest}
    (h : rtest.result ≠ .notEvaluated) :
    ovalResultTestEval cmp sysmod rtest = (rtest.result, rtest) := by
  simp [ovalResultTestEval, h]

/-! ### When a first evaluation yields NOT_EVALUATED -/

/-- The results for which the combination by a check is NOT_EVALUATED. -/
def LeavesNotEvaluated (check : OvalCheck) (results : List OvalResult) : Prop :=
  .notEvaluated ∈ results ∧ .error ∉ results ∧ .unknown ∉ results ∧
    match check with
    | .all => .false ∉ results
    | .atLeastOne => .true ∉ results ∧ .false ∉ results
    | .onlyOne => results.count .true < 2
    | .noneExist | .noneSatisfy => .true ∉ results
    | .unknown => False

instance (check : OvalCheck) (results : List OvalResult) :
    Decidable (LeavesNotEvaluated check results) := by
  unfold LeavesNotEvaluated
  cases check <;> infer_instance

theorem bychk_eq_notEvaluated_iff (check : OvalCheck) (results : List OvalResult) :
    oresGetResultBychk (oresOfList results) check = .notEvaluated ↔
      LeavesNotEvaluated check results := by
  simp only [LeavesNotEvaluated, ← List.count_pos_iff, ← oresOfList_cnt, Oresults.cnt,
    Nat.not_lt, Nat.le_zero]
  obtain ⟨t, f, u, e, ne, na⟩ := oresOfList results
  cases check <;> simp only [oresGetResultBychk, oresGetResultGuarded] <;> split_ifs <;>
    simp only [true_iff, false_iff, and_false] <;> omega

theorem evalCheckExistence_ne_notEvaluated (checkExistence : OvalExistence) (m n : ℕ) :
    evalCheckExistence checkExistence m n ≠ .notEvaluated := by
  cases checkExistence with
  | unknown => simp [evalCheckExistence]
  | allExist | anyExist | atLeastOneExists | noneExist | onlyOneExists =>
      simp only [evalCheckExistence]
      split_ifs <;> simp

/-- The items a result test has already play no part in the loop: what the loop appends
is what it would append to none. -/
theorem itemLoop_append (items : List ResultItem) (collected : List Sysitem) :
    itemLoop sysmod items collected =
      { itemLoop sysmod [] collected with
        items := items ++ (itemLoop sysmod [] collected).items } := by
  have step (l : ItemLoop) : collected.foldl (itemLoopStep sysmod)
      { l with items := items ++ l.items } =
        { collected.foldl (itemLoopStep sysmod) l with
          items := items ++ (collected.foldl (itemLoopStep sysmod) l).items } := by
    induction collected generalizing l with
    | nil => rfl
    | cons item collected ih =>
        have hone : itemLoopStep sysmod { l with items := items ++ l.items } item =
            { itemLoopStep sysmod l item with
              items := items ++ (itemLoopStep sysmod l item).items } := by
          simp only [itemLoopStep, ovalTestItemConsumer]
          split_ifs <;> simp
        rw [List.foldl_cons, hone, ih, List.foldl_cons]
  have h := step ⟨0, 0, [], []⟩
  simpa [itemLoop] using h

/-- The results of the distinct items of a collected object. -/
def itemResults (test : OvalTest) (syschar : Syschar) : List OvalResult :=
  (itemLoop sysmod [] syschar.sysitems).items.map fun ritem =>
    itemResult cmp sysmod test ritem.sysitem

/-- The tests whose first evaluation leaves them as if not evaluated: the object was
collected completely, enough of its items exist, there are states, and the results of
the items combine to NOT_EVALUATED. -/
def ReEnters (test : OvalTest) : Prop :=
  test.subtype ≠ ovalIndependentUnknown ∧ test.states ≠ [] ∧
    ∃ syschar, sysmod.syscharMap test.objectId = some syschar ∧ syschar.flag = .complete ∧
      evalCheckExistence test.existence (itemLoop sysmod [] syschar.sysitems).existsCnt
        (itemLoop sysmod [] syschar.sysitems).errorCnt = .true ∧
      LeavesNotEvaluated test.check (itemResults cmp sysmod test syschar)

/-- Only a complete collection with the wanted existence and with states can leave its
items' combination as the result. -/
theorem evaluateItems_eq_notEvaluated_iff (test : OvalTest) (syschar : Syschar)
    (items : List ResultItem) :
    (ovalResultTestEvaluateItems cmp sysmod test syschar items).1 = .notEvaluated ↔
      test.states ≠ [] ∧ syschar.flag = .complete ∧
        evalCheckExistence test.existence (itemLoop sysmod items syschar.sysitems).existsCnt
          (itemLoop sysmod items syschar.sysitems).errorCnt = .true ∧
        (evalCheckState cmp sysmod test (itemLoop sysmod items syschar.sysitems).items).1 =
          .notEvaluated := by
  have hexist := evalCheckExistence_ne_notEvaluated test.existence
    (itemLoop sysmod items syschar.sysitems).existsCnt
    (itemLoop sysmod items syschar.sysitems).errorCnt
  cases hflag : syschar.flag with
  | complete =>
      by_cases hstates : test.states = []
      · simp [ovalResultTestEvaluateItems, hflag, hstates, hexist]
      · simp only [ovalResultTestEvaluateItems, hflag]
        split_ifs with h
        · simp_all
        · simp_all
  | unknown => simp [ovalResultTestEvaluateItems, hflag]
  | doesNotExist | error | notCollected | notApplicable | incomplete =>
      simp only [ovalResultTestEvaluateItems, hflag]
      split_ifs <;> simp_all

/-- **When a first evaluation yields NOT_EVALUATED.** -/
theorem ovalResultTestEval_new_eq_notEvaluated_iff (test : OvalTest) :
    (ovalResultTestEval cmp sysmod (ovalResultTestNew test)).1 = .notEvaluated ↔
      ReEnters cmp sysmod test := by
  by_cases hsub : test.subtype = ovalIndependentUnknown
  · simp [ovalResultTestEval, ovalResultTestNew, ReEnters, hsub]
  · cases hsys : sysmod.syscharMap test.objectId with
    | none => simp [ovalResultTestEval, ovalResultTestResult, ovalResultTestNew, ReEnters,
        hsub, hsys]
    | some syschar =>
        have hbychk := bychk_eq_notEvaluated_iff test.check (itemResults cmp sysmod test syschar)
        have hitems := evaluateItems_eq_notEvaluated_iff cmp sysmod test syschar []
        simp only [evalCheckState, List.map_map, Function.comp_def] at hitems
        simp only [itemResults] at hbychk
        simp [ovalResultTestEval, ovalResultTestResult, ovalResultTestNew, ReEnters, hsub,
          hsys, hitems, hbychk, itemResults]

/-- Whatever items it has already, a test that re-enters appends as many again, and at
least one, each time it is found not evaluated. -/
theorem ovalResultTestEval_reEnters {test : OvalTest} (h : ReEnters cmp sysmod test) :
    ∃ n, 0 < n ∧ ∀ items,
      (ovalResultTestEval cmp sysmod ⟨test, .notEvaluated, items⟩).2.items.length =
        items.length + n := by
  obtain ⟨hsub, hstates, syschar, hsys, hflag, hexist, hleaves⟩ := h
  refine ⟨(itemLoop sysmod [] syschar.sysitems).items.length, ?_, fun items => ?_⟩
  · have hmem := List.length_pos_of_mem hleaves.1
    simpa [itemResults] using hmem
  · have happend := itemLoop_append sysmod items syschar.sysitems
    simp [ovalResultTestEval, ovalResultTestResult, ovalResultTestEvaluateItems, hsub, hsys,
      hflag, happend, hexist, hstates, evalCheckState]

end Evaluation

end OpenScap
