import OpenScap.XccdfResult

/-!
# Evaluating an XCCDF check

A check of an XCCDF rule is simple, with alternative contents for the checking engines,
or complex: a tree of checks combined by AND and OR with optional negations
(`xccdf_policy_check_evaluate`). The evaluation ends with an error as soon as an engine
reports one.

`tableEvaluate` evaluates the tree by the documented tables instead of the fold of the
code. The conditions below are on its values, which depend on the leaves only.

## Main results

* `childrenEvaluate_eq` — a complex check folds the results of its children;
* `obeysTables_iff_regularTree` — every complex check of a tree obeys the tables exactly
  when the values of the tables for its children are regular at each of them;
* `RegularTree.evaluate_eq` — such a tree evaluates to the value of the tables.
-/

namespace OpenScap

/-! ### Checks and their evaluation -/

/-- `struct xccdf_check_content_ref`. -/
structure CheckContentRef where
  name : Option String
  href : Option String
  deriving DecidableEq, Repr

/-- `struct xccdf_check_export`. -/
structure CheckExport where
  name : String
  value : String
  deriving DecidableEq, Repr

/-- `struct xccdf_check`: complex when it has an operator. -/
inductive XccdfCheck where
  | complex (oper : XccdfBoolOperator) (negate : Bool) (children : List XccdfCheck)
  | simple (negate : Bool) (system : Option String) (exports : List CheckExport)
      (contentRefs : List CheckContentRef)

/-- `struct xccdf_policy_engine`, over the type `β` of value bindings. The answer `none`
is the error `-1`. -/
structure PolicyEngine (β : Type) where
  system : Option String
  eval : Option String → Option String → β → Option XccdfTestResult

/-- The part of `struct xccdf_policy` that the evaluation of a check reads: the registered
engines, and `xccdf_policy_check_get_value_bindings`, which fails for a value that is not
in the benchmark. -/
structure XccdfPolicy (β : Type) where
  engines : List (PolicyEngine β)
  valueBindings : List CheckExport → Option β

section Evaluation

variable {β : Type} (policy : XccdfPolicy β)

/-- `xccdf_policy_evaluate_cb`: the engines of the system in turn, until one of them has
checked. -/
def xccdfPolicyEvaluateCb (system content href : Option String) (bindings : β) :
    List (PolicyEngine β) → Option XccdfTestResult
  | [] => some .notChecked
  | engine :: engines =>
    if engine.system = system then
      let retval := engine.eval content href bindings
      if retval ≠ some .notChecked then retval
      else xccdfPolicyEvaluateCb system content href bindings engines
    else xccdfPolicyEvaluateCb system content href bindings engines

/-- The loop over the content references: they are alternatives, and the first that is
checked decides. The result is `ret` when there is none. -/
def contentRefsEvaluate (system : Option String) (bindings : β) :
    List CheckContentRef → XccdfTestResult → Option XccdfTestResult
  | [], ret => some ret
  | content :: contents, _ => do
    let ret ← xccdfPolicyEvaluateCb system content.name content.href bindings policy.engines
    if ret ≠ .notChecked then return ret
    else contentRefsEvaluate system bindings contents ret

/-- A simple check, its negation included. -/
def simpleCheckEvaluate (negate : Bool) (system : Option String) (exports : List CheckExport)
    (contentRefs : List CheckContentRef) : Option XccdfTestResult :=
  match policy.valueBindings exports with
  | none => some .unknown
  | some bindings => do
    let ret ← contentRefsEvaluate policy system bindings contentRefs .unset
    return resolveNegate ret negate

mutual

/-- `xccdf_policy_check_evaluate`; `none` is the error `-1`, which ends the evaluation. -/
def xccdfPolicyCheckEvaluate : XccdfCheck → Option XccdfTestResult
  | .complex oper negate children => do
    let ret ← childrenEvaluate oper children .unset
    return resolveNegate ret negate
  | .simple negate system exports contentRefs =>
    simpleCheckEvaluate policy negate system exports contentRefs

/-- The loop over the children of a complex check. -/
def childrenEvaluate (oper : XccdfBoolOperator) :
    List XccdfCheck → XccdfTestResult → Option XccdfTestResult
  | [], ret => some ret
  | child :: children, ret => do
    let ret2 ← xccdfPolicyCheckEvaluate child
    childrenEvaluate oper children (resolveStep oper ret ret2)

end

end Evaluation

/-! ### The tree -/

section Tree

variable {β : Type} (policy : XccdfPolicy β)

/-- The results of the children of a complex check, unless one of them is an error. -/
def childrenResults : List XccdfCheck → Option (List XccdfTestResult)
  | [] => some []
  | child :: children => do
    let ret ← xccdfPolicyCheckEvaluate policy child
    let rets ← childrenResults children
    return ret :: rets

/-- **A complex check folds the results of its children.** -/
theorem childrenEvaluate_eq (oper : XccdfBoolOperator) (children : List XccdfCheck)
    (ret : XccdfTestResult) :
    childrenEvaluate policy oper children ret =
      (childrenResults policy children).map fun rets =>
        rets.foldl (resolveStep oper) ret := by
  induction children generalizing ret with
  | nil => rfl
  | cons child children ih =>
      rw [childrenEvaluate, childrenResults]
      cases xccdfPolicyCheckEvaluate policy child with
      | none => rfl
      | some ret2 =>
          simp only [Option.bind_eq_bind, Option.bind_some, ih]
          cases childrenResults policy children <;> rfl

mutual

/-- The evaluation by the documented tables. -/
def tableEvaluate : XccdfCheck → Option XccdfTestResult
  | .complex oper negate children => do
    let rets ← childrenTable children
    return resolveNegate (tableValue oper rets) negate
  | .simple negate system exports contentRefs =>
    simpleCheckEvaluate policy negate system exports contentRefs

/-- The values of the tables for the children of a complex check. -/
def childrenTable : List XccdfCheck → Option (List XccdfTestResult)
  | [] => some []
  | child :: children => do
    let ret ← tableEvaluate child
    let rets ← childrenTable children
    return ret :: rets

end

mutual

/-- Every complex check of the tree obeys the tables on the results of its children. -/
def ObeysTables : XccdfCheck → Prop
  | .complex oper _ children =>
    (∀ rets, childrenResults policy children = some rets → Obeys oper rets) ∧
      ChildrenObey children
  | .simple _ _ _ _ => True

/-- So does every complex check below the children. -/
def ChildrenObey : List XccdfCheck → Prop
  | [] => True
  | child :: children => ObeysTables child ∧ ChildrenObey children

end

mutual

/-- At every complex check of the tree, the values of the tables for its children are
regular. -/
def RegularTree : XccdfCheck → Prop
  | .complex oper _ children =>
    (∀ rets, childrenTable policy children = some rets → Regular oper rets) ∧
      ChildrenRegular children
  | .simple _ _ _ _ => True

/-- So it is at every complex check below the children. -/
def ChildrenRegular : List XccdfCheck → Prop
  | [] => True
  | child :: children => RegularTree child ∧ ChildrenRegular children

end

/-- A regular list of results is combined to the value of the tables. -/
theorem combine_of_regular {oper : XccdfBoolOperator} {rets : List XccdfTestResult}
    (h : Regular oper rets) : combine oper rets = tableValue oper rets :=
  (obeys_iff_regular oper rets).mpr h rets (List.Perm.refl _)

mutual

/-- A regular tree evaluates to the value of the tables. -/
theorem RegularTree.evaluate_eq : ∀ {check : XccdfCheck}, RegularTree policy check →
    xccdfPolicyCheckEvaluate policy check = tableEvaluate policy check
  | .complex oper negate children, h => by
      rw [RegularTree] at h
      have hchildren := ChildrenRegular.results_eq h.2
      rw [xccdfPolicyCheckEvaluate, tableEvaluate, childrenEvaluate_eq, hchildren]
      cases hrets : childrenTable policy children with
      | none => rfl
      | some rets =>
          have hcombine := combine_of_regular (h.1 rets hrets)
          simp only [Option.map_some, Option.bind_eq_bind, Option.bind_some, ← hcombine]
          rfl
  | .simple _ _ _ _, _ => by rw [xccdfPolicyCheckEvaluate, tableEvaluate]

theorem ChildrenRegular.results_eq : ∀ {children : List XccdfCheck},
    ChildrenRegular policy children →
      childrenResults policy children = childrenTable policy children
  | [], _ => by rw [childrenResults, childrenTable]
  | child :: children, h => by
      rw [ChildrenRegular] at h
      rw [childrenResults, childrenTable, h.1.evaluate_eq, ChildrenRegular.results_eq h.2]

end

mutual

/-- Obeying the tables at the results and being regular at the values come to the same,
from the leaves upwards. -/
theorem obeysTables_iff_regularTree : ∀ check : XccdfCheck,
    ObeysTables policy check ↔ RegularTree policy check
  | .complex oper negate children => by
      rw [ObeysTables, RegularTree, childrenObey_iff_childrenRegular children]
      refine and_congr_left fun hchildren => ?_
      simp only [ChildrenRegular.results_eq policy hchildren, obeys_iff_regular]
  | .simple _ _ _ _ => by rw [ObeysTables, RegularTree]

theorem childrenObey_iff_childrenRegular : ∀ children : List XccdfCheck,
    ChildrenObey policy children ↔ ChildrenRegular policy children
  | [] => by rw [ChildrenObey, ChildrenRegular]
  | child :: children => by
      rw [ChildrenObey, ChildrenRegular, obeysTables_iff_regularTree child,
        childrenObey_iff_childrenRegular children]

end

/-- **When a complex check evaluates by the tables.** The result of every complex check
of the tree is the value of the tables for its children's results, in whatever order they
come, exactly when the values of the tables for the children are regular at each of them;
the tree then evaluates to the value of the tables. -/
theorem xccdfPolicyCheckEvaluate_obeys_iff (check : XccdfCheck) :
    (ObeysTables policy check ↔ RegularTree policy check) ∧
    (RegularTree policy check →
      xccdfPolicyCheckEvaluate policy check = tableEvaluate policy check) :=
  ⟨obeysTables_iff_regularTree policy check, RegularTree.evaluate_eq policy⟩

end Tree

/-- A policy with one engine, which finds that every content fails. -/
def failingPolicy : XccdfPolicy Unit where
  engines := [⟨some "oval", fun _ _ _ => some .fail⟩]
  valueBindings _ := some ()

/-- An AND of a check that fails and a check without content. -/
def failThenEmpty : XccdfCheck :=
  .complex .and false
    [.simple false (some "oval") [] [⟨none, some "oval.xml"⟩], .simple false (some "oval") [] []]

/-- The check without content erases the FAIL before it: the AND has no result. -/
theorem not_obeysTables_failThenEmpty :
    xccdfPolicyCheckEvaluate failingPolicy failThenEmpty = some .unset ∧
    ¬ ∀ check, ObeysTables failingPolicy check := by
  refine ⟨by decide, fun h => ?_⟩
  have hnode := h failThenEmpty
  rw [failThenEmpty, ObeysTables] at hnode
  have hobeys := hnode.1 [.fail, .unset] (by decide) _ (List.Perm.refl _)
  exact absurd hobeys (by decide)

end OpenScap
