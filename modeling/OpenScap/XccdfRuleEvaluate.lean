import Mathlib.Data.Int.Notation
import OpenScap.XccdfCheck

/-!
# Evaluating an XCCDF rule

`_xccdf_policy_rule_evaluate` evaluates a simple check of a rule by itself, to handle
`@multi-check`, and repeats what `xccdf_policy_check_evaluate` does for a check within a complex
one. It first looks for a check of the rule that has the selector and whose engine is registered,
and its loop over the content references starts from NOT CHECKED where the other one starts
from 0.

## Main results

* `ruleEvaluate_simple` — what is recorded for a rule whose only check is simple;
* `ruleEvaluate_agrees_iff` — when that is the result of the same check in a complex check.
-/

namespace OpenScap

/-! ### The code -/

/-- What `xccdf_policy_report_cb` is told. -/
inductive ReportEvent
  | start
  | finish (result : XccdfTestResult) (message : Option String)

/-- A policy with the reporters, and `_xccdf_policy_get_namesfor_href`. -/
structure XccdfRulePolicy (β : Type) extends XccdfPolicy β where
  report : ReportEvent → ℤ
  namesForHref : Option String → Option String → Option (List String)

/-- A check of a rule, with its selector and `@multi-check`. -/
structure RuleCheck where
  selector : Option String
  multiCheck : Bool
  check : XccdfCheck

/-- What evaluation reads of a rule: whether it is selected and applicable, the selector of its
refine-rule, and its checks. -/
structure EvaluatedRule where
  selected : Bool
  applicable : Bool
  refineSelector : Option String
  checks : List RuleCheck

/-- The rule results that are recorded, with their messages, and the value returned. -/
structure RuleOutcome where
  recorded : List (XccdfTestResult × Option String)
  ret : ℤ

section Code

variable {β : Type} (policy : XccdfRulePolicy β)

/-- `_xccdf_policy_report_rule_result`. -/
def xccdfPolicyReportRuleResult (res : Option XccdfTestResult) (message : Option String) :
    RuleOutcome :=
  match res with
  | none => ⟨[], -1⟩
  | some res => ⟨[(res, message)], policy.report (.finish res message)⟩

/-- `xccdf_check_get_complex`. -/
def xccdfCheckGetComplex : XccdfCheck → Bool
  | .complex _ _ _ => true
  | .simple _ _ _ _ => false

/-- `xccdf_check_get_system`. -/
def xccdfCheckGetSystem : XccdfCheck → Option String
  | .complex _ _ _ => none
  | .simple _ system _ _ => system

/-- `xccdf_rule_get_checks_filtered`: `oscap_strcmp` takes no selector for an empty one. -/
def xccdfRuleGetChecksFiltered (rule : EvaluatedRule) (selector : Option String) :
    List RuleCheck :=
  rule.checks.filter fun check => check.selector.getD "" = selector.getD ""

/-- `_xccdf_policy_is_engine_registered`. -/
def xccdfPolicyIsEngineRegistered (system : Option String) : Bool :=
  policy.engines.any fun engine => engine.system = system

/-- `_xccdf_policy_rule_get_applicable_check`: the first complex check, or else the last of the
candidates whose engine is registered. -/
def xccdfPolicyRuleGetApplicableCheck (rule : EvaluatedRule) : Option RuleCheck :=
  match rule.checks.find? fun check => xccdfCheckGetComplex check.check with
  | some check => some check
  | none =>
      let candidates := xccdfRuleGetChecksFiltered rule rule.refineSelector
      let candidates :=
        if rule.refineSelector.isSome ∧ candidates = [] then xccdfRuleGetChecksFiltered rule none
        else candidates
      candidates.foldl (fun result check =>
        if xccdfPolicyIsEngineRegistered policy (xccdfCheckGetSystem check.check) then some check
        else result) none

/-- The loop over the names of a multi-check. Each is evaluated as a check of its own, which has
the content reference with that name only. -/
def multiCheckEvaluate (negate : Bool) (system : Option String) (exports : List CheckExport)
    (href : Option String) : List String → RuleOutcome
  | [] => ⟨[], 0⟩
  | name :: names =>
      match simpleCheckEvaluate policy.toXccdfPolicy negate system exports
          [⟨some name, href⟩] with
      | none => ⟨[], -1⟩
      | some res =>
          let reported := xccdfPolicyReportRuleResult policy (some res) none
          if reported.ret ≠ 0 ∨ names = [] then reported
          else if policy.report .start ≠ 0 then ⟨reported.recorded, policy.report .start⟩
          else
            let rest := multiCheckEvaluate negate system exports href names
            ⟨reported.recorded ++ rest.recorded, rest.ret⟩

/-- How the loop over the content references ends: with rule results of its own, or with the
result and the message for the one rule result. -/
inductive ContentOutcome
  | multi (outcome : RuleOutcome)
  | single (ret : Option XccdfTestResult) (message : Option String)

/-- The loop over the content references. -/
def ruleContentRefs (multiCheck negate : Bool) (system : Option String)
    (exports : List CheckExport) (bindings : β) :
    List CheckContentRef → XccdfTestResult → Option String → ContentOutcome
  | [], ret, message => .single (some ret) message
  | content :: contents, _, _ =>
      let evaluate (message : Option String) : ContentOutcome :=
        match xccdfPolicyEvaluateCb system content.name content.href bindings policy.engines with
        | none => .single none message
        | some ret =>
            if ret ≠ .notChecked then .single (some ret) message
            else ruleContentRefs multiCheck negate system exports bindings contents ret message
      if content.name = none ∧ multiCheck then
        match policy.namesForHref system content.href with
        | some [] =>
            .multi (xccdfPolicyReportRuleResult policy (some .unknown)
              (some "No definitions found for @multi-check."))
        | some names =>
            .multi (multiCheckEvaluate policy negate system exports content.href names)
        | none =>
            evaluate (some
              "Checking engine does not support multi-check; falling back to multi-check='false'")
      else evaluate none

/-- `_xccdf_policy_rule_evaluate`, with a result to record to. -/
def xccdfPolicyRuleEvaluate (rule : EvaluatedRule) : RuleOutcome :=
  if policy.report .start ≠ 0 then ⟨[], policy.report .start⟩
  else if !rule.selected then xccdfPolicyReportRuleResult policy (some .notSelected) none
  else if !rule.applicable then xccdfPolicyReportRuleResult policy (some .notApplicable) none
  else
    match xccdfPolicyRuleGetApplicableCheck policy rule with
    | none =>
        xccdfPolicyReportRuleResult policy (some .notChecked)
          (some "No candidate or applicable check found.")
    | some ⟨_, multiCheck, check⟩ =>
        match check with
        | .complex oper negate children =>
            xccdfPolicyReportRuleResult policy
              (xccdfPolicyCheckEvaluate policy.toXccdfPolicy (.complex oper negate children)) none
        | .simple negate system exports contentRefs =>
            match policy.valueBindings exports with
            | none =>
                xccdfPolicyReportRuleResult policy (some .unknown)
                  (some "Value bindings not found.")
            | some bindings =>
                match ruleContentRefs policy multiCheck negate system exports bindings
                    contentRefs .notChecked none with
                | .multi outcome => outcome
                | .single ret message =>
                    let message :=
                      if ret = some .notChecked then
                        some "None of the check-content-ref elements was resolvable."
                      else message
                    xccdfPolicyReportRuleResult policy
                      (ret.map fun ret => resolveNegate ret negate) message

end Code

/-! ### The two loops -/

section Agreement

variable {β : Type} {policy : XccdfRulePolicy β} {negate : Bool} {system : Option String}
  {exports : List CheckExport} {bindings : β} {contentRefs : List CheckContentRef}

/-- Without `@multi-check` the loop over the content references is that of a check within a
complex check, from its own start. -/
theorem ruleContentRefs_single (policy : XccdfRulePolicy β) (negate : Bool)
    (system : Option String) (exports : List CheckExport) (bindings : β)
    (contentRefs : List CheckContentRef) (ret : XccdfTestResult) (message : Option String) :
    ∃ message', ruleContentRefs policy false negate system exports bindings contentRefs ret
      message = .single (contentRefsEvaluate policy.toXccdfPolicy system bindings contentRefs ret)
        message' := by
  induction contentRefs generalizing ret message with
  | nil => exact ⟨message, rfl⟩
  | cons content contents ih =>
      rw [ruleContentRefs, contentRefsEvaluate]
      simp only [Bool.false_eq_true, and_false, if_false]
      cases xccdfPolicyEvaluateCb system content.name content.href bindings policy.engines with
      | none => exact ⟨none, rfl⟩
      | some ret =>
          by_cases hret : ret = .notChecked
          · subst hret
            simpa using ih .notChecked none
          · exact ⟨none, by simp [hret]⟩

/-- Where the loop starts matters only without content references. -/
theorem contentRefsEvaluate_start (hne : contentRefs ≠ []) (ret ret' : XccdfTestResult) :
    contentRefsEvaluate policy.toXccdfPolicy system bindings contentRefs ret =
      contentRefsEvaluate policy.toXccdfPolicy system bindings contentRefs ret' := by
  obtain ⟨content, contents, rfl⟩ := List.exists_cons_of_ne_nil hne
  rfl

/-- No engine of the system checks the content. -/
def NoEngineChecks (policy : XccdfRulePolicy β) (system : Option String) (bindings : β)
    (content : CheckContentRef) : Prop :=
  ∀ engine ∈ policy.engines, engine.system = system →
    engine.eval content.name content.href bindings = some .notChecked

/-- The engines leave a content unchecked exactly if each of them does. -/
theorem evaluateCb_notChecked_iff (content : CheckContentRef)
    (engines : List (PolicyEngine β)) :
    xccdfPolicyEvaluateCb system content.name content.href bindings engines = some .notChecked ↔
      ∀ engine ∈ engines, engine.system = system →
        engine.eval content.name content.href bindings = some .notChecked := by
  induction engines with
  | nil => simp [xccdfPolicyEvaluateCb]
  | cons engine engines ih =>
      rw [xccdfPolicyEvaluateCb]
      simp only [List.forall_mem_cons]
      by_cases hsystem : engine.system = system
      · rw [if_pos hsystem]
        by_cases hret : engine.eval content.name content.href bindings = some .notChecked
        · rw [if_neg (not_not_intro hret), ih]
          exact ⟨fun h => ⟨fun _ => hret, h⟩, fun h => h.2⟩
        · rw [if_pos hret]
          exact ⟨fun h => absurd h hret, fun h => absurd (h.1 hsystem) hret⟩
      · rw [if_neg hsystem, ih]
        exact ⟨fun h => ⟨fun heq => absurd heq hsystem, h⟩, fun h => h.2⟩

/-- The content references are left unchecked exactly if each of them is. -/
theorem contentRefsEvaluate_notChecked_iff :
    contentRefsEvaluate policy.toXccdfPolicy system bindings contentRefs .notChecked =
        some .notChecked ↔
      ∀ content ∈ contentRefs, NoEngineChecks policy system bindings content := by
  induction contentRefs with
  | nil => simp [contentRefsEvaluate]
  | cons content contents ih =>
      rw [contentRefsEvaluate, List.forall_mem_cons, NoEngineChecks,
        ← evaluateCb_notChecked_iff content policy.engines]
      cases hret : xccdfPolicyEvaluateCb system content.name content.href bindings
          policy.engines with
      | none => simp
      | some ret =>
          by_cases hchecked : ret = .notChecked
          · subst hchecked
            simpa using ih
          · simp [hchecked]

/-! ### A rule with one simple check -/

/-- The check has no selector or the refined one, and an engine of its system is registered. -/
def IsCandidate (policy : XccdfRulePolicy β) (refineSelector selector system : Option String) :
    Prop :=
  (selector.getD "" = refineSelector.getD "" ∨ selector.getD "" = "") ∧
    ∃ engine ∈ policy.engines, engine.system = system

/-- The only check of a rule is evaluated if it is a candidate. -/
theorem getApplicableCheck_single (policy : XccdfRulePolicy β) {rule : EvaluatedRule}
    {selector : Option String}
    (hchecks : rule.checks = [⟨selector, false, .simple negate system exports contentRefs⟩]) :
    (IsCandidate policy rule.refineSelector selector system →
      xccdfPolicyRuleGetApplicableCheck policy rule =
        some ⟨selector, false, .simple negate system exports contentRefs⟩) ∧
    (¬ IsCandidate policy rule.refineSelector selector system →
      xccdfPolicyRuleGetApplicableCheck policy rule = none) := by
  have hregistered : xccdfPolicyIsEngineRegistered policy system = true ↔
      ∃ engine ∈ policy.engines, engine.system = system := by
    simp [xccdfPolicyIsEngineRegistered]
  have hnone : (none : Option String).getD "" = "" := rfl
  rw [xccdfPolicyRuleGetApplicableCheck, IsCandidate, ← hregistered]
  simp only [xccdfRuleGetChecksFiltered, hchecks, List.find?_singleton, xccdfCheckGetComplex,
    Bool.false_eq_true, if_false, List.filter_singleton, hnone]
  by_cases hsame : selector.getD "" = rule.refineSelector.getD ""
  · cases hengine : xccdfPolicyIsEngineRegistered policy system <;>
      simp [hsame, hengine, xccdfCheckGetSystem]
  · cases hrefine : rule.refineSelector with
    | none =>
        rw [hrefine, hnone] at hsame
        simp [hsame]
    | some refine =>
        rw [hrefine, Option.getD_some] at hsame
        by_cases hempty : selector.getD "" = ""
        · have hother : ¬ refine = "" := fun h => hsame (hempty.trans h.symm)
          cases hengine : xccdfPolicyIsEngineRegistered policy system <;>
            simp [hother, hempty, hengine, xccdfCheckGetSystem]
        · simp [hsame, hempty]

/-- **What is recorded** for a selected and applicable rule whose only check is simple. -/
theorem ruleEvaluate_simple {rule : EvaluatedRule} {selector : Option String}
    (hchecks : rule.checks = [⟨selector, false, .simple negate system exports contentRefs⟩])
    (hselected : rule.selected = true) (happlicable : rule.applicable = true)
    (hstart : policy.report .start = 0) :
    (IsCandidate policy rule.refineSelector selector system →
      (xccdfPolicyRuleEvaluate policy rule).recorded.map Prod.fst =
        (match policy.valueBindings exports with
          | none => some XccdfTestResult.unknown
          | some bindings =>
              (contentRefsEvaluate policy.toXccdfPolicy system bindings contentRefs
                .notChecked).map fun ret => resolveNegate ret negate).toList) ∧
    (¬ IsCandidate policy rule.refineSelector selector system →
      (xccdfPolicyRuleEvaluate policy rule).recorded.map Prod.fst = [.notChecked]) := by
  have hrecorded : ∀ res message,
      (xccdfPolicyReportRuleResult policy res message).recorded.map Prod.fst = res.toList := by
    intro res message
    cases res <;> rfl
  obtain ⟨hyes, hno⟩ := getApplicableCheck_single policy hchecks
  rw [xccdfPolicyRuleEvaluate, if_neg (not_not_intro hstart)]
  simp only [hselected, happlicable, Bool.not_true, Bool.false_eq_true, if_false]
  constructor
  · intro hcandidate
    rw [hyes hcandidate]
    cases hbindings : policy.valueBindings exports with
    | none =>
        simp only [hbindings]
        exact hrecorded _ _
    | some bindings =>
        simp only [hbindings]
        obtain ⟨message, hloop⟩ := ruleContentRefs_single policy negate system exports bindings
          contentRefs .notChecked none
        rw [hloop]
        exact hrecorded _ _
  · intro hcandidate
    rw [hno hcandidate]
    exact hrecorded _ _

/-- A complex check with one child has the result of that child. -/
theorem checkEvaluate_onlyChild (oper : XccdfBoolOperator) (check : XccdfCheck) :
    xccdfPolicyCheckEvaluate policy.toXccdfPolicy (.complex oper false [check]) =
      xccdfPolicyCheckEvaluate policy.toXccdfPolicy check := by
  rw [xccdfPolicyCheckEvaluate, childrenEvaluate_eq, childrenResults, childrenResults]
  cases xccdfPolicyCheckEvaluate policy.toXccdfPolicy check <;> rfl

/-- A negated result is NOT CHECKED exactly if the result is. -/
theorem resolveNegate_eq_notChecked {ret : XccdfTestResult} {negate : Bool} :
    resolveNegate ret negate = .notChecked ↔ ret = .notChecked := by
  cases ret <;> cases negate <;> decide

/-- Where the two evaluations agree: a candidate has its values or a content reference, and
another check has both and is left unchecked by the engines. -/
def EvaluatedAlike (policy : XccdfRulePolicy β) (rule : EvaluatedRule)
    (selector system : Option String) (exports : List CheckExport)
    (contentRefs : List CheckContentRef) : Prop :=
  (IsCandidate policy rule.refineSelector selector system ∧
    (policy.valueBindings exports = none ∨ contentRefs ≠ [])) ∨
  (¬ IsCandidate policy rule.refineSelector selector system ∧
    ∃ bindings, policy.valueBindings exports = some bindings ∧ contentRefs ≠ [] ∧
      ∀ content ∈ contentRefs, NoEngineChecks policy system bindings content)

/-- **The result recorded for the rule is that of the same check in a complex check** exactly
where the two are evaluated alike. -/
theorem ruleEvaluate_agrees_iff (policy : XccdfRulePolicy β) (rule : EvaluatedRule)
    (selector : Option String) (negate : Bool) (system : Option String)
    (exports : List CheckExport) (contentRefs : List CheckContentRef) (oper : XccdfBoolOperator)
    (hchecks : rule.checks = [⟨selector, false, .simple negate system exports contentRefs⟩])
    (hselected : rule.selected = true) (happlicable : rule.applicable = true)
    (hstart : policy.report .start = 0) :
    (xccdfPolicyRuleEvaluate policy rule).recorded.map Prod.fst =
        (xccdfPolicyCheckEvaluate policy.toXccdfPolicy
          (.complex oper false [.simple negate system exports contentRefs])).toList ↔
      EvaluatedAlike policy rule selector system exports contentRefs := by
  obtain ⟨hyes, hno⟩ := ruleEvaluate_simple hchecks hselected happlicable hstart
  rw [checkEvaluate_onlyChild, xccdfPolicyCheckEvaluate, simpleCheckEvaluate, EvaluatedAlike]
  by_cases hcandidate : IsCandidate policy rule.refineSelector selector system
  · rw [hyes hcandidate]
    simp only [hcandidate, true_and, not_true_eq_false, false_and, or_false]
    cases hbindings : policy.valueBindings exports with
    | none => simp
    | some bindings =>
        simp only [reduceCtorEq, false_or]
        by_cases hempty : contentRefs = []
        · subst hempty
          cases negate <;> simp [contentRefsEvaluate, resolveNegate, XccdfTestResult.negated]
        · rw [contentRefsEvaluate_start hempty .unset .notChecked]
          refine iff_of_true ?_ hempty
          cases contentRefsEvaluate policy.toXccdfPolicy system bindings contentRefs
            .notChecked <;> rfl
  · rw [hno hcandidate]
    simp only [hcandidate, false_and, not_false_eq_true, true_and, false_or]
    cases hbindings : policy.valueBindings exports with
    | none => simp
    | some bindings =>
        simp only [Option.some.injEq, exists_eq_left']
        by_cases hempty : contentRefs = []
        · subst hempty
          cases negate <;> simp [contentRefsEvaluate, resolveNegate, XccdfTestResult.negated]
        · rw [contentRefsEvaluate_start hempty .unset .notChecked,
            ← contentRefsEvaluate_notChecked_iff]
          cases hret : contentRefsEvaluate policy.toXccdfPolicy system bindings contentRefs
              .notChecked with
          | none => simp
          | some ret =>
              have heq : XccdfTestResult.notChecked = resolveNegate ret negate ↔
                  ret = .notChecked := eq_comm.trans resolveNegate_eq_notChecked
              simp [hempty, heq]

end Agreement

/-- A policy with an engine for which every content passes. -/
def passingPolicy : XccdfRulePolicy Unit where
  engines := [⟨some "oval", fun _ _ _ => some .pass⟩]
  valueBindings _ := some ()
  report _ := 0
  namesForHref _ _ := none

/-- A rule with one simple check, which has these content references. -/
def ruleWith (contentRefs : List CheckContentRef) : EvaluatedRule :=
  ⟨true, true, none, [⟨none, false, .simple true (some "oval") [] contentRefs⟩]⟩

/-- A negated check of a content that passes. -/
theorem ruleEvaluate_agrees_iff_passing :
    (xccdfPolicyRuleEvaluate passingPolicy (ruleWith [⟨none, some "oval.xml"⟩])).recorded.map
        Prod.fst =
      (xccdfPolicyCheckEvaluate passingPolicy.toXccdfPolicy
        (.complex .and false
          [.simple true (some "oval") [] [⟨none, some "oval.xml"⟩]])).toList ↔
      EvaluatedAlike passingPolicy (ruleWith [⟨none, some "oval.xml"⟩]) none (some "oval") []
        [⟨none, some "oval.xml"⟩] :=
  ruleEvaluate_agrees_iff passingPolicy _ none true (some "oval") [] _ .and rfl rfl rfl rfl

/-- A check without content references: NOT CHECKED in the rule, and no result at all in a
complex check. -/
theorem not_ruleEvaluate_agrees :
    (xccdfPolicyRuleEvaluate passingPolicy (ruleWith [])).recorded.map Prod.fst =
        [.notChecked] ∧
      ¬ ∀ (policy : XccdfRulePolicy Unit) (rule : EvaluatedRule) (negate : Bool)
        (system : Option String) (exports : List CheckExport)
        (contentRefs : List CheckContentRef) (oper : XccdfBoolOperator),
        rule.checks = [⟨none, false, .simple negate system exports contentRefs⟩] →
        rule.selected = true → rule.applicable = true → policy.report .start = 0 →
        (xccdfPolicyRuleEvaluate policy rule).recorded.map Prod.fst =
          (xccdfPolicyCheckEvaluate policy.toXccdfPolicy
            (.complex oper false [.simple negate system exports contentRefs])).toList := by
  have hrule : (xccdfPolicyRuleEvaluate passingPolicy (ruleWith [])).recorded.map Prod.fst =
      [.notChecked] := by decide
  refine ⟨hrule, fun h => ?_⟩
  have hagree := h passingPolicy (ruleWith []) true (some "oval") [] [] .and rfl rfl rfl rfl
  rw [hrule] at hagree
  exact absurd hagree (by decide)

end OpenScap
