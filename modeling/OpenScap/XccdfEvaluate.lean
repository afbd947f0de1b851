import OpenScap.TracedCalls
import OpenScap.XccdfRuleEvaluate

/-!
# Evaluating an XCCDF policy

`xccdf_policy_evaluate` goes over the items of a benchmark from the top down. For each rule it
calls the start callbacks, finds out whether the rule is selected and applicable, asks the checking
engines, records a rule result and hands it to the output callbacks. Callbacks and engines have a
state of their own, and any of them can stop the evaluation. Here they are functions that take
their state along, and the calls are traced.

A check that is evaluated keeps only the content that was checked.

## Main results

* `itemWalk_eq_each` — a walk over a tree of groups is a loop over the rules;
* `policyEvaluate_trace` — what is reported and asked, rule by rule, in the order of the document;
* `policyEvaluate_results` — the results that are recorded are those that are reported.
-/

namespace OpenScap.XccdfEvaluate

open TracedCalls

/-! ### The code -/

/-- A rule: what else of it goes to its results is `info`. -/
structure PolicyRule (ι : Type) where
  id : String
  info : ι
  platforms : List String
  checks : List RuleCheck

/-- A rule or a group. -/
inductive PolicyItem (ι : Type)
  | rule (rule : PolicyRule ι)
  | group (platforms : List String) (content : List (PolicyItem ι))

/-- `struct xccdf_rule_result`. -/
structure RuleResult (ι : Type) where
  idref : String
  info : ι
  result : XccdfTestResult
  checks : List RuleCheck
  message : Option String

/-- What is seen from outside: the start of a rule is reported, an engine is asked for names or for
a result, a rule result is reported, a fix is run by an interpreter, or written out. -/
inductive PolicyEvent (ι : Type)
  | start (id : String)
  | query (system href : Option String)
  | asked (system name href : Option String)
  | finish (result : RuleResult ι)
  | executed (interpret text : String)
  | written (text : String)

/-- `struct xccdf_policy_engine`, with the state `ω` of what is outside. -/
structure Engine (β ω : Type) where
  system : Option String
  eval : Option String → Option String → β → ω → Option XccdfTestResult × ω
  query : Option String → ω → Option (List String) × ω

/-- What the evaluation uses of a policy and its model. A platform is looked up in the language
models and in the dictionaries, the embedded ones first. -/
structure Policy (ι β ω : Type) where
  engines : List (Engine β ω)
  starters : List (PolicyRule ι → ω → ℤ × ω)
  outputs : List (RuleResult ι → ω → ℤ × ω)
  valueBindings : List CheckExport → Option β
  isItemSelected : String → Bool
  refineSelector : String → Option String
  langModels : List (String → Bool)
  dicts : List (String → Bool)
  cpeNameCheck : String → Bool

/-- What changes: the state of what is outside, the platforms that were found applicable, and the
results that were recorded. -/
structure State (ι ω : Type) where
  outside : ω
  platforms : List String
  results : List (RuleResult ι)

variable {ι β ω : Type}

/-- The state outside changes. -/
def State.setOutside (s : State ι ω) (outside : ω) : State ι ω := { s with outside := outside }

/-- `xccdf_result_add_rule_result`. -/
def State.addRuleResult (s : State ι ω) (r : RuleResult ι) : State ι ω :=
  { s with results := s.results ++ [r] }

/-- A platform is entered unless it is there. -/
def State.addPlatform (s : State ι ω) (platform : String) : State ι ω :=
  if platform ∈ s.platforms then s else { s with platforms := s.platforms ++ [platform] }

/-- The systems are the same for `oscap_strcmp`, which takes none for an empty one. -/
def SameSystem (system system' : Option String) : Prop := system.getD "" = system'.getD ""

instance (system system' : Option String) : Decidable (SameSystem system system') :=
  inferInstanceAs (Decidable (_ = _))

/-- What calls return and report. -/
abbrev Call (ι ω ρ : Type) := Effects ρ (State ι ω) (PolicyEvent ι)

/-- `xccdf_policy_report_cb`. -/
def reportCb {α : Type} (callbacks : List (α → ω → ℤ × ω)) (x : α) (s : State ι ω) : Call ι ω ℤ :=
  each (fun callback s => ⟨(callback x s.outside).1, s.setOutside (callback x s.outside).2, []⟩)
    callbacks s

mutual

/-- A call for each rule of an item, up to the first that does not return 0. The call is told the
platforms of the items around the rule, the innermost first. -/
def itemWalk (act : List (List String) × PolicyRule ι → State ι ω → Call ι ω ℤ)
    (parents : List (List String)) : PolicyItem ι → State ι ω → Call ι ω ℤ
  | .rule rule, s => act (parents, rule) s
  | .group platforms content, s => contentWalk act (platforms :: parents) content s

/-- The loop over the items of a group, or of the benchmark. -/
def contentWalk (act : List (List String) × PolicyRule ι → State ι ω → Call ι ω ℤ)
    (parents : List (List String)) : List (PolicyItem ι) → State ι ω → Call ι ω ℤ
  | [], s => ⟨0, s, []⟩
  | item :: items, s =>
      (itemWalk act parents item s).bind fun ret s =>
        if ret ≠ 0 then ⟨ret, s, []⟩ else contentWalk act parents items s

end

section Code

variable (policy : Policy ι β ω)

/-- The start callbacks. -/
def reportStart (rule : PolicyRule ι) (s : State ι ω) : Call ι ω ℤ :=
  (reportCb policy.starters rule s).after [.start rule.id]

/-- The output callbacks. -/
def reportOutput (r : RuleResult ι) (s : State ι ω) : Call ι ω ℤ :=
  (reportCb policy.outputs r s).after [.finish r]

/-! ### Platforms -/

/-- `xccdf_policy_model_platforms_are_applicable_lang_model`, with a test for a platform, and the
one for a dictionary. -/
def platformsHold (holds : String → Bool) (platforms : List String) (s : State ι ω) :
    Bool × State ι ω :=
  platforms.foldl (fun (ret, s) platform =>
    if holds platform then (true, s.addPlatform platform) else (ret, s)) (false, s)

/-- A platform of a language model may be written with a `#` in front. -/
def langModelHolds (model : String → Bool) (platform : String) : Bool :=
  match platform.toList with
  | '#' :: cs => model (String.ofList cs)
  | _ => model platform

/-- A platform of a dictionary is a name. -/
def dictHolds (dict : String → Bool) (platform : String) : Bool :=
  policy.cpeNameCheck platform && dict platform

/-- Where a platform is looked up. -/
def lookups : List (String → Bool) :=
  policy.langModels.map langModelHolds ++ policy.dicts.map (dictHolds policy)

/-- `xccdf_policy_model_platforms_are_applicable`. -/
def platformsAreApplicable (platforms : List String) (s : State ι ω) : Bool × State ι ω :=
  if platforms = [] then (true, s)
  else (lookups policy).foldl (fun (ret, s) holds =>
    let (held, s) := platformsHold holds platforms s
    (ret || held, s)) (false, s)

/-- `xccdf_policy_model_item_is_applicable`, with the platforms of an item and of the items around
it, the innermost first. -/
def itemIsApplicable : List (List String) → State ι ω → Bool × State ι ω
  | [], s => (true, s)
  | platforms :: parents, s =>
      let (applicable, s) := itemIsApplicable parents s
      if applicable then platformsAreApplicable policy platforms s else (false, s)

/-! ### Checks -/

/-- `xccdf_policy_evaluate_cb`. -/
def evaluateCb (system name href : Option String) (bindings : β) :
    List (Engine β ω) → State ι ω → Call ι ω (Option XccdfTestResult)
  | [], s => ⟨some .notChecked, s, []⟩
  | engine :: engines, s =>
      if SameSystem engine.system system then
        let (ret, outside) := engine.eval name href bindings s.outside
        if ret ≠ some .notChecked then ⟨ret, s.setOutside outside, [.asked system name href]⟩
        else (evaluateCb system name href bindings engines (s.setOutside outside)).after
          [.asked system name href]
      else evaluateCb system name href bindings engines s

/-- `_xccdf_policy_get_namesfor_href`. -/
def namesForHref (system href : Option String) :
    List (Engine β ω) → State ι ω → Call ι ω (Option (List String))
  | [], s => ⟨none, s, []⟩
  | engine :: engines, s =>
      if SameSystem engine.system system then
        match engine.query href s.outside with
        | (some names, outside) => ⟨some names, s.setOutside outside, [.query system href]⟩
        | (none, outside) =>
            (namesForHref system href engines (s.setOutside outside)).after [.query system href]
      else namesForHref system href engines s

/-- The loop over the content references of a check, and the one that was checked. -/
def contentRefsEvaluate (system : Option String) (bindings : β) :
    List CheckContentRef → XccdfTestResult → State ι ω →
      Call ι ω (Option XccdfTestResult × Option CheckContentRef)
  | [], ret, s => ⟨(some ret, none), s, []⟩
  | content :: contents, _, s =>
      (evaluateCb system content.name content.href bindings policy.engines s).bind fun ret s =>
        if ret ≠ some .notChecked then ⟨(ret, some content), s, []⟩
        else contentRefsEvaluate system bindings contents .notChecked s

/-- `xccdf_check_inject_content_ref` with a content reference that was checked. -/
def injectContentRef (contentRefs : List CheckContentRef) :
    Option CheckContentRef → List CheckContentRef
  | some content => [content]
  | none => contentRefs

/-- A simple check, and what it becomes. -/
def simpleEvaluate (negate : Bool) (system : Option String) (exports : List CheckExport)
    (contentRefs : List CheckContentRef) (s : State ι ω) :
    Call ι ω (Option XccdfTestResult × XccdfCheck) :=
  match policy.valueBindings exports with
  | none => ⟨(some .unknown, .simple negate system exports contentRefs), s, []⟩
  | some bindings =>
      (contentRefsEvaluate policy system bindings contentRefs .unset s).bind fun ret s =>
        ⟨(ret.1.map (resolveNegate · negate),
          .simple negate system exports (injectContentRef contentRefs ret.2)), s, []⟩

mutual

/-- `xccdf_policy_check_evaluate`: the result, and what the check becomes. -/
def checkEvaluate : XccdfCheck → State ι ω → Call ι ω (Option XccdfTestResult × XccdfCheck)
  | .complex oper negate children, s =>
      (childrenEvaluate oper children .unset s).bind fun ret s =>
        ⟨(ret.1.map (resolveNegate · negate), .complex oper negate ret.2), s, []⟩
  | .simple negate system exports contentRefs, s =>
      simpleEvaluate policy negate system exports contentRefs s

/-- The loop over the children of a complex check. -/
def childrenEvaluate (oper : XccdfBoolOperator) :
    List XccdfCheck → XccdfTestResult → State ι ω →
      Call ι ω (Option XccdfTestResult × List XccdfCheck)
  | [], ret, s => ⟨(some ret, []), s, []⟩
  | child :: children, ret, s =>
      (checkEvaluate child s).bind fun ret2 s =>
        match ret2.1 with
        | none => ⟨(none, ret2.2 :: children), s, []⟩
        | some res =>
            (childrenEvaluate oper children (resolveStep oper ret res) s).bind fun rets s =>
              ⟨(rets.1, ret2.2 :: rets.2), s, []⟩

end

/-! ### Rules -/

/-- `_xccdf_rule_result_new_from_rule`: a rule result without a check has those of the rule. -/
def ruleResultNewFromRule (rule : PolicyRule ι) (check : Option RuleCheck)
    (result : XccdfTestResult) (message : Option String) : RuleResult ι :=
  ⟨rule.id, rule.info, result, (check.map fun check => [check]).getD rule.checks, message⟩

/-- `_xccdf_policy_report_rule_result`. -/
def reportRuleResult (rule : PolicyRule ι) (check : Option RuleCheck)
    (result : Option XccdfTestResult) (message : Option String) (s : State ι ω) : Call ι ω ℤ :=
  match result with
  | none => ⟨-1, s, []⟩
  | some result =>
      let r := ruleResultNewFromRule rule check result message
      reportOutput policy r (s.addRuleResult r)

/-- `xccdf_rule_get_checks_filtered`. -/
def getChecksFiltered (rule : PolicyRule ι) (selector : Option String) : List RuleCheck :=
  rule.checks.filter fun check => check.selector.getD "" = selector.getD ""

/-- `_xccdf_policy_rule_get_applicable_check`. -/
def getApplicableCheck (rule : PolicyRule ι) : Option RuleCheck :=
  match rule.checks.find? fun check => xccdfCheckGetComplex check.check with
  | some check => some check
  | none =>
      let selector := policy.refineSelector rule.id
      let candidates := getChecksFiltered rule selector
      let candidates :=
        if selector.isSome ∧ candidates = [] then getChecksFiltered rule none else candidates
      candidates.foldl (fun result check =>
        if policy.engines.any fun engine =>
            SameSystem engine.system (xccdfCheckGetSystem check.check) then some check
        else result) none

/-- The loop over the names of a multi-check. -/
def multiCheckEvaluate (rule : PolicyRule ι) (selector : Option String) (negate : Bool)
    (system : Option String) (exports : List CheckExport) (href : Option String) :
    List String → State ι ω → Call ι ω ℤ
  | [], s => ⟨0, s, []⟩
  | name :: names, s =>
      (simpleEvaluate policy negate system exports [⟨some name, href⟩] s).bind fun ret s =>
        (reportRuleResult policy rule (some ⟨selector, true, ret.2⟩) ret.1 none s).bind
          fun report s =>
            if report ≠ 0 ∨ names = [] then ⟨report, s, []⟩
            else (reportStart policy rule s).bind fun report s =>
              if report ≠ 0 then ⟨report, s, []⟩
              else multiCheckEvaluate rule selector negate system exports href names s

/-- The loop over the content references of the check of a rule, and how it ends. -/
def ruleContentRefs (rule : PolicyRule ι) (selector : Option String) (multiCheck negate : Bool)
    (system : Option String) (exports : List CheckExport) (contentRefs : List CheckContentRef)
    (bindings : β) : List CheckContentRef → XccdfTestResult → Option String → State ι ω → Call ι ω ℤ
  | [], ret, message, s =>
      reportRuleResult policy rule
        (some ⟨selector, multiCheck, .simple negate system exports contentRefs⟩)
        (some (resolveNegate ret negate))
        (if ret = .notChecked then some "None of the check-content-ref elements was resolvable."
          else message) s
  | content :: contents, _, _, s =>
      let evaluate (message : Option String) (s : State ι ω) : Call ι ω ℤ :=
        (evaluateCb system content.name content.href bindings policy.engines s).bind fun ret s =>
          if ret ≠ some .notChecked then
            reportRuleResult policy rule
              (some ⟨selector, multiCheck, .simple negate system exports [content]⟩)
              (ret.map (resolveNegate · negate)) message s
          else
            ruleContentRefs rule selector multiCheck negate system exports contentRefs bindings
              contents .notChecked message s
      if content.name = none ∧ multiCheck then
        (namesForHref system content.href policy.engines s).bind fun names s =>
          match names with
          | some [] =>
              reportRuleResult policy rule
                (some ⟨selector, multiCheck, .simple negate system exports contentRefs⟩)
                (some .unknown) (some "No definitions found for @multi-check.") s
          | some names =>
              multiCheckEvaluate policy rule selector negate system exports content.href names s
          | none =>
              evaluate (some
                "Checking engine does not support multi-check; falling back to multi-check='false'")
                s
      else evaluate none s

/-- The part of `_xccdf_policy_rule_evaluate` for the check of the rule. -/
def ruleCheckEvaluate (rule : PolicyRule ι) (s : State ι ω) : Call ι ω ℤ :=
  match getApplicableCheck policy rule with
  | none =>
      reportRuleResult policy rule none (some .notChecked)
        (some "No candidate or applicable check found.") s
  | some ⟨selector, multiCheck, .complex oper negate children⟩ =>
      (checkEvaluate policy (.complex oper negate children) s).bind fun ret s =>
        reportRuleResult policy rule (some ⟨selector, multiCheck, ret.2⟩) ret.1 none s
  | some ⟨selector, multiCheck, .simple negate system exports contentRefs⟩ =>
      match policy.valueBindings exports with
      | none =>
          reportRuleResult policy rule
            (some ⟨selector, multiCheck, .simple negate system exports contentRefs⟩)
            (some .unknown) (some "Value bindings not found.") s
      | some bindings =>
          ruleContentRefs policy rule selector multiCheck negate system exports contentRefs bindings
            contentRefs .notChecked none s

/-- `_xccdf_policy_rule_evaluate`, with the platforms of the items around the rule. -/
def ruleEvaluate (parents : List (List String)) (rule : PolicyRule ι) (s : State ι ω) :
    Call ι ω ℤ :=
  (reportStart policy rule s).bind fun report s =>
    if report ≠ 0 then ⟨report, s, []⟩
    else if !policy.isItemSelected rule.id then
      reportRuleResult policy rule none (some .notSelected) none s
    else
      match itemIsApplicable policy (rule.platforms :: parents) s with
      | (false, s) => reportRuleResult policy rule none (some .notApplicable) none s
      | (true, s) => ruleCheckEvaluate policy rule s

/-- The evaluation of a rule, with the platforms of the items around it. -/
def evaluatePlaced (x : List (List String) × PolicyRule ι) (s : State ι ω) : Call ι ω ℤ :=
  ruleEvaluate policy x.1 x.2 s

/-- `xccdf_policy_item_evaluate`. -/
def itemEvaluate (parents : List (List String)) (item : PolicyItem ι) (s : State ι ω) :
    Call ι ω ℤ :=
  itemWalk (evaluatePlaced policy) parents item s

/-- The loop over the items of the benchmark. -/
def contentEvaluate (parents : List (List String)) (items : List (PolicyItem ι)) (s : State ι ω) :
    Call ι ω ℤ :=
  contentWalk (evaluatePlaced policy) parents items s

/-- `xccdf_policy_evaluate`: the rule results of a benchmark and the platforms of the model that are
applicable, unless there is an error. -/
def policyEvaluate (platforms : List String) (content : List (PolicyItem ι)) (outside : ω)
    (applicable : List String) : Call ι ω (Option (List (RuleResult ι) × List String)) :=
  (contentEvaluate policy [platforms] content ⟨outside, applicable, []⟩).bind fun ret s =>
    ⟨if ret = -1 then none else some (s.results, s.platforms), s, []⟩

end Code

/-! ### Asking -/

/-- An engine is asked. -/
def PolicyEvent.Asks : PolicyEvent ι → Prop
  | .query _ _ | .asked _ _ _ => True
  | .start _ | .finish _ | .executed _ _ | .written _ => False

/-- The rule result that is reported. -/
def PolicyEvent.finished? : PolicyEvent ι → Option (RuleResult ι)
  | .finish r => some r
  | .start _ | .query _ _ | .asked _ _ _ | .executed _ _ | .written _ => none

/-- Engines are asked, and of the state only what is outside changes. -/
def Asking (s : State ι ω) (events : List (PolicyEvent ι)) (t : State ι ω) : Prop :=
  t.results = s.results ∧ t.platforms = s.platforms ∧ ∀ e ∈ events, e.Asks

theorem keeping_asking :
    Keeping (Asking : State ι ω → List (PolicyEvent ι) → State ι ω → Prop) where
  refl s := ⟨rfl, rfl, fun e he => absurd he List.not_mem_nil⟩
  trans := by
    intro s t u events rest hst htu
    refine ⟨htu.1.trans hst.1, htu.2.1.trans hst.2.1, fun e he => ?_⟩
    rcases List.mem_append.mp he with he | he
    · exact hst.2.2 e he
    · exact htu.2.2 e he

/-- One engine is asked. -/
theorem asking_outside (s : State ι ω) (outside : ω) {e : PolicyEvent ι} (he : e.Asks) :
    Asking s [e] (s.setOutside outside) :=
  ⟨rfl, rfl, fun _ h => List.mem_singleton.mp h ▸ he⟩

variable {policy : Policy ι β ω}

theorem evaluateCb_asks (system name href : Option String) (bindings : β)
    (engines : List (Engine β ω)) (s : State ι ω) :
    (evaluateCb system name href bindings engines s).Keeps Asking s := by
  induction engines generalizing s with
  | nil => exact keeping_asking.refl s
  | cons engine engines ih =>
      rw [evaluateCb]
      split
      · dsimp only
        split
        · exact asking_outside s _ trivial
        · exact keeping_asking.trans (asking_outside s _ trivial) (ih _)
      · exact ih s

theorem namesForHref_asks (system href : Option String) (engines : List (Engine β ω))
    (s : State ι ω) : (namesForHref system href engines s).Keeps Asking s := by
  induction engines generalizing s with
  | nil => exact keeping_asking.refl s
  | cons engine engines ih =>
      rw [namesForHref]
      split
      · split
        · exact asking_outside s _ trivial
        · exact keeping_asking.trans (asking_outside s _ trivial) (ih _)
      · exact ih s

theorem contentRefsEvaluate_asks (system : Option String) (bindings : β)
    (contents : List CheckContentRef) (ret : XccdfTestResult) (s : State ι ω) :
    (contentRefsEvaluate policy system bindings contents ret s).Keeps Asking s := by
  induction contents generalizing ret s with
  | nil => exact keeping_asking.refl s
  | cons content contents ih =>
      rw [contentRefsEvaluate]
      refine keeping_asking.bind (evaluateCb_asks ..) ?_
      split
      · exact keeping_asking.refl _
      · exact ih ..

theorem simpleEvaluate_asks (negate : Bool) (system : Option String) (exports : List CheckExport)
    (contentRefs : List CheckContentRef) (s : State ι ω) :
    (simpleEvaluate policy negate system exports contentRefs s).Keeps Asking s := by
  rw [simpleEvaluate]
  split
  · exact keeping_asking.refl s
  · exact keeping_asking.bind (contentRefsEvaluate_asks ..) (keeping_asking.refl _)

mutual

/-- The evaluation of a check asks engines, and nothing else. -/
theorem checkEvaluate_asks : ∀ (check : XccdfCheck) (s : State ι ω),
    (checkEvaluate policy check s).Keeps Asking s
  | .complex oper negate children, s => by
      rw [checkEvaluate]
      exact keeping_asking.bind (childrenEvaluate_asks oper children _ s) (keeping_asking.refl _)
  | .simple negate system exports contentRefs, s => by
      rw [checkEvaluate]
      exact simpleEvaluate_asks ..

theorem childrenEvaluate_asks (oper : XccdfBoolOperator) :
    ∀ (children : List XccdfCheck) (ret : XccdfTestResult) (s : State ι ω),
    (childrenEvaluate policy oper children ret s).Keeps Asking s
  | [], ret, s => by
      rw [childrenEvaluate]
      exact keeping_asking.refl s
  | child :: children, ret, s => by
      rw [childrenEvaluate]
      refine keeping_asking.bind (checkEvaluate_asks child s) ?_
      split
      · exact keeping_asking.refl _
      · exact keeping_asking.bind (childrenEvaluate_asks oper children _ _) (keeping_asking.refl _)

end

/-- No callback stops the evaluation, and no engine fails. -/
structure Policy.Quiet (policy : Policy ι β ω) : Prop where
  starters : ∀ callback ∈ policy.starters, ∀ rule s, (callback rule s).1 = 0
  outputs : ∀ callback ∈ policy.outputs, ∀ r s, (callback r s).1 = 0
  engines : ∀ engine ∈ policy.engines, ∀ name href bindings s,
    (engine.eval name href bindings s).1.isSome

theorem evaluateCb_quiet (hquiet : policy.Quiet) (system name href : Option String)
    (bindings : β) (s : State ι ω) :
    (evaluateCb system name href bindings policy.engines s).ret.isSome := by
  have hengines := hquiet.engines
  generalize policy.engines = engines at hengines
  induction engines generalizing s with
  | nil => rfl
  | cons engine engines ih =>
      have hrest := fun s => ih s fun engine h => hengines engine (List.mem_cons_of_mem _ h)
      rw [evaluateCb]
      split
      · dsimp only
        split
        · exact hengines engine List.mem_cons_self ..
        · exact hrest _
      · exact hrest s

theorem contentRefsEvaluate_quiet (hquiet : policy.Quiet) (system : Option String) (bindings : β)
    (contents : List CheckContentRef) (ret : XccdfTestResult) (s : State ι ω) :
    (contentRefsEvaluate policy system bindings contents ret s).ret.1.isSome := by
  induction contents generalizing ret s with
  | nil => rfl
  | cons content contents ih =>
      rw [contentRefsEvaluate, bind_ret]
      split
      · exact evaluateCb_quiet hquiet ..
      · exact ih ..

theorem simpleEvaluate_quiet (hquiet : policy.Quiet) (negate : Bool) (system : Option String)
    (exports : List CheckExport) (contentRefs : List CheckContentRef) (s : State ι ω) :
    (simpleEvaluate policy negate system exports contentRefs s).ret.1.isSome := by
  rw [simpleEvaluate]
  split
  · rfl
  · exact Option.isSome_map.trans (contentRefsEvaluate_quiet hquiet ..)

mutual

/-- A check has a result. -/
theorem checkEvaluate_quiet (hquiet : policy.Quiet) : ∀ (check : XccdfCheck) (s : State ι ω),
    (checkEvaluate policy check s).ret.1.isSome
  | .complex oper negate children, s => by
      rw [checkEvaluate]
      exact Option.isSome_map.trans (childrenEvaluate_quiet hquiet oper children _ s)
  | .simple negate system exports contentRefs, s => by
      rw [checkEvaluate]
      exact simpleEvaluate_quiet hquiet ..

theorem childrenEvaluate_quiet (hquiet : policy.Quiet) (oper : XccdfBoolOperator) :
    ∀ (children : List XccdfCheck) (ret : XccdfTestResult) (s : State ι ω),
    (childrenEvaluate policy oper children ret s).ret.1.isSome
  | [], ret, s => by
      rw [childrenEvaluate]
      rfl
  | child :: children, ret, s => by
      rw [childrenEvaluate, bind_ret]
      split
      · rename_i hnone
        have hsome := checkEvaluate_quiet hquiet child s
        rw [hnone] at hsome
        cases hsome
      · exact childrenEvaluate_quiet hquiet oper children _ _

end

/-! ### Rounds -/

/-- The events behind the start of a rule: engines are asked and a result of the rule is reported,
and each time that the rule starts again. -/
inductive Rounds (rule : PolicyRule ι) : List (PolicyEvent ι) → Prop
  | last {body : List (PolicyEvent ι)} {r : RuleResult ι} (hbody : ∀ e ∈ body, e.Asks)
      (hr : r.idref = rule.id) : Rounds rule (body ++ [.finish r])
  | again {body rest : List (PolicyEvent ι)} {r : RuleResult ι} (hbody : ∀ e ∈ body, e.Asks)
      (hr : r.idref = rule.id) (h : Rounds rule rest) :
      Rounds rule (body ++ .finish r :: .start rule.id :: rest)

/-- The same when it is cut off: by an engine that fails, by an output callback, or by a start
callback. -/
inductive CutRounds (rule : PolicyRule ι) : List (PolicyEvent ι) → Prop
  | engine {body : List (PolicyEvent ι)} (hbody : ∀ e ∈ body, e.Asks) : CutRounds rule body
  | output {body : List (PolicyEvent ι)} {r : RuleResult ι} (hbody : ∀ e ∈ body, e.Asks)
      (hr : r.idref = rule.id) : CutRounds rule (body ++ [.finish r])
  | start {body : List (PolicyEvent ι)} {r : RuleResult ι} (hbody : ∀ e ∈ body, e.Asks)
      (hr : r.idref = rule.id) : CutRounds rule (body ++ [.finish r, .start rule.id])
  | again {body rest : List (PolicyEvent ι)} {r : RuleResult ι} (hbody : ∀ e ∈ body, e.Asks)
      (hr : r.idref = rule.id) (h : CutRounds rule rest) :
      CutRounds rule (body ++ .finish r :: .start rule.id :: rest)

/-- The results that are reported are recorded. -/
def Recording (s : State ι ω) (events : List (PolicyEvent ι)) (t : State ι ω) : Prop :=
  t.results = s.results ++ events.filterMap PolicyEvent.finished?

/-- How the calls for the check of a rule end. -/
structure Ends (policy : Policy ι β ω) (rule : PolicyRule ι) (s : State ι ω) (o : Call ι ω ℤ) :
    Prop where
  complete : o.ret = 0 → Rounds rule o.events
  cut : o.ret ≠ 0 → CutRounds rule o.events
  quiet : policy.Quiet → o.ret = 0
  recording : o.Keeps Recording s
  platforms : o.state.platforms = s.platforms

/-- What comes behind a report: nothing, or the rule starts again. -/
structure Resumes (policy : Policy ι β ω) (rule : PolicyRule ι) (s : State ι ω) (report : ℤ)
    (o : Call ι ω ℤ) : Prop where
  events : o.events = [] ∧ o.ret = report ∨
    report = 0 ∧ ∃ events, o.events = .start rule.id :: events ∧
      (o.ret = 0 → Rounds rule events) ∧ (o.ret ≠ 0 → events = [] ∨ CutRounds rule events)
  quiet : policy.Quiet → report = 0 → o.ret = 0
  recording : o.Keeps Recording s
  platforms : o.state.platforms = s.platforms

section Rounds

variable {rule : PolicyRule ι} {body events : List (PolicyEvent ι)}

theorem asks_append {body' : List (PolicyEvent ι)} (h : ∀ e ∈ body, e.Asks)
    (h' : ∀ e ∈ body', e.Asks) : ∀ e ∈ body ++ body', e.Asks := by
  intro e he
  rcases List.mem_append.mp he with he | he
  · exact h e he
  · exact h' e he

/-- Engines may be asked first. -/
theorem Rounds.asks (hbody : ∀ e ∈ body, e.Asks) (h : Rounds rule events) :
    Rounds rule (body ++ events) := by
  cases h with
  | last hbody' hr =>
      rw [← List.append_assoc]
      exact .last (asks_append hbody hbody') hr
  | again hbody' hr h =>
      rw [← List.append_assoc]
      exact .again (asks_append hbody hbody') hr h

theorem CutRounds.asks (hbody : ∀ e ∈ body, e.Asks) (h : CutRounds rule events) :
    CutRounds rule (body ++ events) := by
  cases h with
  | engine hbody' => exact .engine (asks_append hbody hbody')
  | output hbody' hr =>
      rw [← List.append_assoc]
      exact .output (asks_append hbody hbody') hr
  | start hbody' hr =>
      rw [← List.append_assoc]
      exact .start (asks_append hbody hbody') hr
  | again hbody' hr h =>
      rw [← List.append_assoc]
      exact .again (asks_append hbody hbody') hr h

theorem keeping_recording :
    Keeping (Recording : State ι ω → List (PolicyEvent ι) → State ι ω → Prop) where
  refl s := (List.append_nil _).symm
  trans := by
    intro s t u events rest hst htu
    rw [Recording] at hst htu ⊢
    rw [htu, hst, List.filterMap_append, List.append_assoc]

/-- No result is reported when engines are asked. -/
theorem Asking.recording {s t : State ι ω} (h : Asking s events t) : Recording s events t := by
  have hnone : events.filterMap PolicyEvent.finished? = [] := by
    refine List.filterMap_eq_nil_iff.mpr fun e he => ?_
    have hasks := h.2.2 e he
    cases e with
    | query | asked => rfl
    | start | finish | executed | written => exact hasks.elim
  rw [Recording, hnone, List.append_nil, h.1]

/-- Engines are asked, and then the calls end. -/
theorem Ends.asks {ρ : Type} {s : State ι ω} {o : Call ι ω ρ} {f : ρ → State ι ω → Call ι ω ℤ}
    (ho : o.Keeps Asking s) (h : Ends policy rule o.state (f o.ret o.state)) :
    Ends policy rule s (o.bind f) where
  complete hret := (h.complete hret).asks ho.2.2
  cut hret := (h.cut hret).asks ho.2.2
  quiet := h.quiet
  recording := keeping_recording.bind ho.recording h.recording
  platforms := h.platforms.trans ho.2.1

/-- Callbacks change what is outside. -/
theorem reportCb_outside {α : Type} (callbacks : List (α → ω → ℤ × ω)) (x : α) (s : State ι ω) :
    (reportCb callbacks x s).events = [] ∧ (reportCb callbacks x s).state.results = s.results ∧
      (reportCb callbacks x s).state.platforms = s.platforms := by
  refine each_keeps (R := fun s events t =>
    events = [] ∧ t.results = s.results ∧ t.platforms = s.platforms) ?_ ?_ callbacks s
  · refine ⟨fun s => ⟨rfl, rfl, rfl⟩, ?_⟩
    rintro s t u events rest ⟨rfl, ht, ht'⟩ ⟨rfl, hu, hu'⟩
    exact ⟨rfl, hu.trans ht, hu'.trans ht'⟩
  · exact fun callback s => ⟨rfl, rfl, rfl⟩

/-- The start of a rule is reported. -/
theorem reportStart_spec (policy : Policy ι β ω) (rule : PolicyRule ι) (s : State ι ω) :
    (reportStart policy rule s).events = [.start rule.id] ∧
      (reportStart policy rule s).Keeps Recording s ∧
      (reportStart policy rule s).state.platforms = s.platforms ∧
      (policy.Quiet → (reportStart policy rule s).ret = 0) := by
  obtain ⟨hevents, hresults, hplatforms⟩ := reportCb_outside policy.starters rule s
  have hall : (reportStart policy rule s).events = [.start rule.id] := by
    rw [reportStart, after_events, hevents]
    rfl
  refine ⟨hall, ?_, hplatforms, fun hquiet =>
    each_ret (fun callback h s => hquiet.starters callback h ..) s⟩
  rw [Effects.Keeps, Recording, hall]
  exact hresults.trans (List.append_nil _).symm

theorem not_mem_asks : ∀ e ∈ ([] : List (PolicyEvent ι)), e.Asks := fun _ he =>
  absurd he List.not_mem_nil

/-- A rule result is recorded and reported. -/
theorem reportRuleResult_some (policy : Policy ι β ω) (rule : PolicyRule ι)
    (check : Option RuleCheck) (result : XccdfTestResult) (message : Option String)
    (s : State ι ω) :
    (reportRuleResult policy rule check (some result) message s).events =
        [.finish (ruleResultNewFromRule rule check result message)] ∧
      (reportRuleResult policy rule check (some result) message s).Keeps Recording s ∧
      (reportRuleResult policy rule check (some result) message s).state.platforms = s.platforms ∧
      (policy.Quiet →
        (reportRuleResult policy rule check (some result) message s).ret = 0) := by
  generalize hr : ruleResultNewFromRule rule check result message = r
  have heq : reportRuleResult policy rule check (some result) message s =
      reportOutput policy r (s.addRuleResult r) := by
    rw [← hr]
    rfl
  obtain ⟨hevents, hresults, hplatforms⟩ := reportCb_outside policy.outputs r (s.addRuleResult r)
  have hall : (reportOutput policy r (s.addRuleResult r)).events = [.finish r] := by
    rw [reportOutput, after_events, hevents]
    rfl
  rw [heq]
  refine ⟨hall, ?_, hplatforms, fun hquiet =>
    each_ret (fun callback h s => hquiet.outputs callback h ..) _⟩
  rw [Effects.Keeps, Recording, hall]
  exact hresults

/-- A result is recorded and reported, and the rule may start again. -/
theorem Resumes.ends {check : Option RuleCheck} {result : Option XccdfTestResult}
    {message : Option String} {s : State ι ω} {f : ℤ → State ι ω → Call ι ω ℤ}
    (hresult : policy.Quiet → result.isSome)
    (hf : ∀ report t, Resumes policy rule t report (f report t)) :
    Ends policy rule s ((reportRuleResult policy rule check result message s).bind f) := by
  cases result with
  | none =>
      obtain ⟨⟨hevents, hret⟩ | ⟨h, -⟩, -, hrecording, hplatforms⟩ := hf (-1) s
      · refine ⟨fun h => ?_, fun _ => ?_, fun h => ?_, hrecording, hplatforms⟩
        · cases hret.symm.trans h
        · exact CutRounds.engine (hevents ▸ not_mem_asks)
        · cases hresult h
      · cases h
  | some result =>
      obtain ⟨hevents, hrecording, hplatforms, hquiet⟩ :=
        reportRuleResult_some policy rule check result message s
      generalize reportRuleResult policy rule check (some result) message s = o at *
      have hr : (ruleResultNewFromRule rule check result message).idref = rule.id := rfl
      obtain ⟨hnext, hquiet', hrecording', hplatforms'⟩ := hf o.ret o.state
      refine ⟨fun hret => ?_, fun hret => ?_, fun h => hquiet' h (hquiet h),
        keeping_recording.bind hrecording hrecording', hplatforms'.trans hplatforms⟩
      · rw [bind_events, hevents]
        rcases hnext with ⟨hnone, -⟩ | ⟨-, rest, hrest, hcomplete, -⟩
        · rw [hnone]
          exact .last not_mem_asks hr
        · rw [hrest]
          exact Rounds.again not_mem_asks hr (hcomplete hret)
      · rw [bind_events, hevents]
        rcases hnext with ⟨hnone, -⟩ | ⟨-, rest, hrest, -, hcut⟩
        · rw [hnone]
          exact .output not_mem_asks hr
        · rw [hrest]
          rcases hcut hret with rfl | hcut
          · exact CutRounds.start not_mem_asks hr
          · exact CutRounds.again not_mem_asks hr hcut

/-- A result is recorded and reported. -/
theorem reportRuleResult_ends {check : Option RuleCheck} {result : Option XccdfTestResult}
    {message : Option String} {s : State ι ω} (hresult : policy.Quiet → result.isSome) :
    Ends policy rule s (reportRuleResult policy rule check result message s) := by
  have hends : Ends policy rule s ((reportRuleResult policy rule check result message s).bind
      fun report t => ⟨report, t, []⟩) :=
    Resumes.ends hresult fun report t =>
      ⟨.inl ⟨rfl, rfl⟩, fun _ h => h, keeping_recording.refl t, rfl⟩
  rwa [Effects.bind, Effects.after, List.append_nil] at hends

/-- Each name of a multi-check is a round. -/
theorem multiCheckEvaluate_ends (selector : Option String) (negate : Bool)
    (system : Option String) (exports : List CheckExport) (href : Option String)
    {names : List String} (hnames : names ≠ []) (s : State ι ω) :
    Ends policy rule s
      (multiCheckEvaluate policy rule selector negate system exports href names s) := by
  induction names generalizing s with
  | nil => exact absurd rfl hnames
  | cons name names ih =>
      rw [multiCheckEvaluate]
      refine Ends.asks (simpleEvaluate_asks ..)
        (Resumes.ends (fun hquiet => simpleEvaluate_quiet hquiet ..) fun report t => ?_)
      split
      · exact ⟨.inl ⟨rfl, rfl⟩, fun _ h => h, keeping_recording.refl t, rfl⟩
      · rename_i hgo
        obtain ⟨hreport, hnext⟩ := not_or.mp hgo
        obtain ⟨hstart, hrecording, hplatforms, hquiet⟩ :=
          reportStart_spec policy rule t
        generalize reportStart policy rule t = o at *
        have hends := ih hnext o.state
        refine ⟨.inr ⟨not_not.mp hreport, ?_⟩, fun h _ => ?_, ?_, ?_⟩
        · refine ⟨_, by rw [bind_events, hstart]; rfl, ?_⟩
          rw [bind_ret]
          split
          · rename_i hstop
            exact ⟨fun h => absurd h hstop, fun _ => .inl rfl⟩
          · exact ⟨hends.complete, fun h => .inr (hends.cut h)⟩
        · rw [bind_ret, if_neg (not_not.mpr (hquiet h))]
          exact hends.quiet h
        · refine keeping_recording.bind hrecording ?_
          split
          · exact keeping_recording.refl _
          · exact hends.recording
        · rw [bind_state]
          split
          · exact hplatforms
          · exact hends.platforms.trans hplatforms

/-- The loop over the content references. -/
theorem ruleContentRefs_ends (selector : Option String) (multiCheck negate : Bool)
    (system : Option String) (exports : List CheckExport) (contentRefs : List CheckContentRef)
    (bindings : β) (contents : List CheckContentRef) (ret : XccdfTestResult)
    (message : Option String) (s : State ι ω) :
    Ends policy rule s (ruleContentRefs policy rule selector multiCheck negate system exports
      contentRefs bindings contents ret message s) := by
  induction contents generalizing ret message s with
  | nil => exact reportRuleResult_ends fun _ => rfl
  | cons content contents ih =>
      have hevaluate : ∀ (message : Option String) (s : State ι ω), Ends policy rule s
          ((evaluateCb system content.name content.href bindings policy.engines s).bind fun ret s =>
            if ret ≠ some .notChecked then
              reportRuleResult policy rule
                (some ⟨selector, multiCheck, .simple negate system exports [content]⟩)
                (ret.map (resolveNegate · negate)) message s
            else
              ruleContentRefs policy rule selector multiCheck negate system exports contentRefs
                bindings contents .notChecked message s) := by
        intro message s
        refine Ends.asks (evaluateCb_asks ..) ?_
        split
        · exact reportRuleResult_ends fun hquiet =>
            Option.isSome_map.trans (evaluateCb_quiet hquiet ..)
        · exact ih ..
      rw [ruleContentRefs]
      dsimp only
      split
      · refine Ends.asks (namesForHref_asks ..) ?_
        split
        · exact reportRuleResult_ends fun _ => rfl
        · exact multiCheckEvaluate_ends _ _ _ _ _ (by assumption) _
        · exact hevaluate ..
      · exact hevaluate ..

/-- The check of a rule is evaluated in rounds. -/
theorem ruleCheckEvaluate_ends (policy : Policy ι β ω) (rule : PolicyRule ι) (s : State ι ω) :
    Ends policy rule s (ruleCheckEvaluate policy rule s) := by
  rw [ruleCheckEvaluate]
  split
  · exact reportRuleResult_ends fun _ => rfl
  · exact Ends.asks (checkEvaluate_asks ..)
      (reportRuleResult_ends fun hquiet => checkEvaluate_quiet hquiet ..)
  · split
    · exact reportRuleResult_ends fun _ => rfl
    · exact ruleContentRefs_ends ..

end Rounds

/-! ### Applicability -/

/-- A platform holds in a language model or in a dictionary. -/
def HoldsSomewhere (policy : Policy ι β ω) (platform : String) : Prop :=
  ∃ holds ∈ lookups policy, holds platform = true

/-- An item is applicable: it and each item around it have no platforms, or one that holds. -/
def Applicable (policy : Policy ι β ω) (chain : List (List String)) : Prop :=
  ∀ platforms ∈ chain, platforms = [] ∨ ∃ platform ∈ platforms, HoldsSomewhere policy platform

/-- A platform is found: it is one of an item whose parent is applicable, and it holds. -/
def Found (policy : Policy ι β ω) : List (List String) → String → Prop
  | [], _ => False
  | platforms :: parents, platform =>
      Found policy parents platform ∨
        Applicable policy parents ∧ platform ∈ platforms ∧ HoldsSomewhere policy platform

/-- Platforms are entered. -/
structure Adds (s t : State ι ω) (new : String → Prop) : Prop where
  results : t.results = s.results
  platforms : ∀ platform, platform ∈ t.platforms ↔ platform ∈ s.platforms ∨ new platform

section Platforms

variable {s t u : State ι ω} {new new' : String → Prop}

theorem Adds.refl (h : ∀ platform, ¬new platform) : Adds s s new :=
  ⟨rfl, fun platform => by simp [h platform]⟩

theorem Adds.trans (h : Adds s t new) (h' : Adds t u new') :
    Adds s u fun platform => new platform ∨ new' platform :=
  ⟨h'.results.trans h.results, fun platform => by rw [h'.platforms, h.platforms, or_assoc]⟩

theorem Adds.congr (h : Adds s t new) (hnew : ∀ platform, new platform ↔ new' platform) :
    Adds s t new' :=
  ⟨h.results, fun platform => by rw [h.platforms, hnew]⟩

theorem adds_addPlatform (s : State ι ω) (platform : String) :
    Adds s (s.addPlatform platform) (· = platform) := by
  rw [State.addPlatform]
  split
  · rename_i hmem
    refine ⟨rfl, fun p => ⟨.inl, ?_⟩⟩
    rintro (h | rfl)
    · exact h
    · exact hmem
  · exact ⟨rfl, fun p => by simp⟩

/-- The platforms that hold in one place. -/
theorem platformsHold_spec (holds : String → Bool) (platforms : List String) (s : State ι ω) :
    ((platformsHold holds platforms s).1 = true ↔ ∃ platform ∈ platforms, holds platform = true) ∧
      Adds s (platformsHold holds platforms s).2 fun platform =>
        platform ∈ platforms ∧ holds platform = true := by
  suffices h : ∀ (b : Bool) (s : State ι ω),
      ((platforms.foldl (fun (r : Bool × State ι ω) platform =>
          if holds platform then (true, r.2.addPlatform platform) else (r.1, r.2)) (b, s)).1 =
        true ↔ b = true ∨ ∃ platform ∈ platforms, holds platform = true) ∧
      Adds s (platforms.foldl (fun (r : Bool × State ι ω) platform =>
          if holds platform then (true, r.2.addPlatform platform) else (r.1, r.2)) (b, s)).2
        fun platform => platform ∈ platforms ∧ holds platform = true by
    obtain ⟨hret, hadds⟩ := h false s
    exact ⟨hret.trans (by simp), hadds⟩
  induction platforms with
  | nil => exact fun b s => ⟨by simp, .refl (by simp)⟩
  | cons platform platforms ih =>
      intro b s
      rw [List.foldl_cons]
      split
      · rename_i hholds
        obtain ⟨hret, hadds⟩ := ih true (s.addPlatform platform)
        refine ⟨hret.trans (by simp [hholds]), ((adds_addPlatform s platform).trans hadds).congr ?_⟩
        intro p
        have hp : p = platform → holds p = true := by
          rintro rfl
          exact hholds
        rw [List.mem_cons, or_and_right, and_iff_left_of_imp hp]
      · rename_i hholds
        obtain ⟨hret, hadds⟩ := ih b s
        refine ⟨hret.trans (by simp [hholds]), hadds.congr fun p => ?_⟩
        rw [List.mem_cons, or_and_right, or_iff_right]
        rintro ⟨rfl, hp⟩
        exact hholds hp

/-- The platforms of an item. -/
theorem platformsAreApplicable_spec (policy : Policy ι β ω) (platforms : List String)
    (s : State ι ω) :
    ((platformsAreApplicable policy platforms s).1 = true ↔
        platforms = [] ∨ ∃ platform ∈ platforms, HoldsSomewhere policy platform) ∧
      Adds s (platformsAreApplicable policy platforms s).2 fun platform =>
        platform ∈ platforms ∧ HoldsSomewhere policy platform := by
  rw [platformsAreApplicable]
  split
  · rename_i hplatforms
    subst hplatforms
    exact ⟨by simp, .refl (by simp)⟩
  · rename_i hplatforms
    suffices h : ∀ (lookups : List (String → Bool)) (b : Bool) (s : State ι ω),
        ((lookups.foldl (fun (r : Bool × State ι ω) holds =>
            (r.1 || (platformsHold holds platforms r.2).1, (platformsHold holds platforms r.2).2))
            (b, s)).1 = true ↔
          b = true ∨ ∃ platform ∈ platforms, ∃ holds ∈ lookups, holds platform = true) ∧
        Adds s (lookups.foldl (fun (r : Bool × State ι ω) holds =>
            (r.1 || (platformsHold holds platforms r.2).1, (platformsHold holds platforms r.2).2))
            (b, s)).2
          fun platform => platform ∈ platforms ∧ ∃ holds ∈ lookups, holds platform = true by
      obtain ⟨hret, hadds⟩ := h (lookups policy) false s
      exact ⟨hret.trans (by simp [hplatforms, HoldsSomewhere]), hadds⟩
    intro lookups
    induction lookups with
    | nil => exact fun b s => ⟨by simp, .refl (by simp)⟩
    | cons holds lookups ih =>
        intro b s
        obtain ⟨hheld, hone⟩ := platformsHold_spec holds platforms s
        obtain ⟨hret, hadds⟩ := ih (b || (platformsHold holds platforms s).1)
          (platformsHold holds platforms s).2
        rw [List.foldl_cons]
        refine ⟨hret.trans ?_, (hone.trans hadds).congr fun p => ?_⟩
        · rw [Bool.or_eq_true, hheld, or_assoc, ← exists_or]
          simp only [List.exists_mem_cons_iff, ← and_or_left]
        · rw [← and_or_left, List.exists_mem_cons_iff]

/-- **An item is applicable** if it and the items around it are, and what is found is entered. -/
theorem itemIsApplicable_spec (policy : Policy ι β ω) (chain : List (List String))
    (s : State ι ω) :
    ((itemIsApplicable policy chain s).1 = true ↔ Applicable policy chain) ∧
      Adds s (itemIsApplicable policy chain s).2 (Found policy chain) := by
  induction chain generalizing s with
  | nil =>
      exact ⟨iff_of_true rfl fun platforms h => absurd h List.not_mem_nil, .refl fun _ h => h⟩
  | cons platforms parents ih =>
      obtain ⟨hparents, hadds⟩ := ih s
      rw [itemIsApplicable]
      dsimp only
      split
      · rename_i happlicable
        obtain ⟨hown, hadds'⟩ :=
          platformsAreApplicable_spec policy platforms (itemIsApplicable policy parents s).2
        refine ⟨hown.trans ?_, (hadds.trans hadds').congr fun p => ?_⟩
        · rw [Applicable, List.forall_mem_cons, and_iff_left]
          exact hparents.mp happlicable
        · rw [Found, and_iff_right (hparents.mp happlicable)]
      · rename_i hnot
        refine ⟨iff_of_false Bool.false_ne_true fun h => hnot ?_, hadds.congr fun p => ?_⟩
        · exact hparents.mpr fun platforms hmem => h platforms (List.mem_cons_of_mem _ hmem)
        · rw [Found, or_iff_left]
          exact fun h => hnot (hparents.mpr h.1)

end Platforms

/-! ### The benchmark -/

mutual

/-- The rules of an item, with the platforms of the items around them. -/
def itemRules (parents : List (List String)) :
    PolicyItem ι → List (List (List String) × PolicyRule ι)
  | .rule rule => [(parents, rule)]
  | .group platforms content => contentRules (platforms :: parents) content

/-- The rules of some items, in the order of the document. -/
def contentRules (parents : List (List String)) :
    List (PolicyItem ι) → List (List (List String) × PolicyRule ι)
  | [] => []
  | item :: items => itemRules parents item ++ contentRules parents items

end

/-- A loop that stops where an item does not return 0. -/
theorem bind_stop (o : Call ι ω ℤ) (f : State ι ω → Call ι ω ℤ) :
    (o.bind fun ret s => if ret ≠ 0 then ⟨ret, s, []⟩ else f s) =
      if o.ret ≠ 0 then o else (f o.state).after o.events := by
  rw [Effects.bind]
  split
  · rw [Effects.after, List.append_nil]
  · rfl

mutual

/-- **A walk over a tree of groups is a loop over the rules.** -/
theorem itemWalk_eq_each (act : List (List String) × PolicyRule ι → State ι ω → Call ι ω ℤ) :
    ∀ (parents : List (List String)) (item : PolicyItem ι) (s : State ι ω),
    itemWalk act parents item s = each act (itemRules parents item) s
  | parents, .rule rule, s => by
      rw [itemWalk, itemRules, each, each]
      split
      · rfl
      · rename_i hret
        rw [Effects.after, List.append_nil, ← not_not.mp hret]
  | parents, .group platforms content, s => by
      rw [itemWalk, itemRules]
      exact contentWalk_eq_each act (platforms :: parents) content s

theorem contentWalk_eq_each (act : List (List String) × PolicyRule ι → State ι ω → Call ι ω ℤ) :
    ∀ (parents : List (List String)) (items : List (PolicyItem ι)) (s : State ι ω),
    contentWalk act parents items s = each act (contentRules parents items) s
  | parents, [], s => by
      rw [contentWalk, contentRules, each]
  | parents, item :: items, s => by
      rw [contentWalk, contentRules, each_append, bind_stop, itemWalk_eq_each act parents item s,
        contentWalk_eq_each act parents items]

end

/-- The events of a rule: its start is reported, and one result if it is not selected or not
applicable; otherwise engines are asked, in rounds. -/
inductive RuleTrace (policy : Policy ι β ω) (x : List (List String) × PolicyRule ι) :
    List (PolicyEvent ι) → Prop
  | notSelected (hselected : policy.isItemSelected x.2.id = false) :
      RuleTrace policy x
        [.start x.2.id, .finish (ruleResultNewFromRule x.2 none .notSelected none)]
  | notApplicable (hselected : policy.isItemSelected x.2.id = true)
      (hnot : ¬Applicable policy (x.2.platforms :: x.1)) :
      RuleTrace policy x
        [.start x.2.id, .finish (ruleResultNewFromRule x.2 none .notApplicable none)]
  | evaluated {events : List (PolicyEvent ι)} (hselected : policy.isItemSelected x.2.id = true)
      (happlicable : Applicable policy (x.2.platforms :: x.1)) (h : Rounds x.2 events) :
      RuleTrace policy x (.start x.2.id :: events)

/-- The same when it is cut off. -/
inductive RuleCut (policy : Policy ι β ω) (x : List (List String) × PolicyRule ι) :
    List (PolicyEvent ι) → Prop
  | start : RuleCut policy x [.start x.2.id]
  | output {events : List (PolicyEvent ι)} (h : RuleTrace policy x events) :
      RuleCut policy x events
  | evaluated {events : List (PolicyEvent ι)} (hselected : policy.isItemSelected x.2.id = true)
      (happlicable : Applicable policy (x.2.platforms :: x.1)) (h : CutRounds x.2 events) :
      RuleCut policy x (.start x.2.id :: events)

/-- What the evaluation of a rule does. -/
structure RuleEvaluated (policy : Policy ι β ω) (x : List (List String) × PolicyRule ι)
    (s : State ι ω) (o : Call ι ω ℤ) : Prop where
  complete : o.ret = 0 → RuleTrace policy x o.events
  cut : o.ret ≠ 0 → RuleCut policy x o.events
  quiet : policy.Quiet → o.ret = 0
  recording : o.Keeps Recording s
  platforms : policy.Quiet → ∀ platform, platform ∈ o.state.platforms ↔ platform ∈ s.platforms ∨
    policy.isItemSelected x.2.id = true ∧ Found policy (x.2.platforms :: x.1) platform

/-- What comes behind the start of a rule. -/
theorem RuleEvaluated.behind {x : List (List String) × PolicyRule ι} {s : State ι ω}
    {o o' : Call ι ω ℤ} (hevents : o.events = [.start x.2.id]) (hrecording : o.Keeps Recording s)
    (hplatforms : o.state.platforms = s.platforms)
    (hcomplete : o'.ret = 0 → RuleTrace policy x (.start x.2.id :: o'.events))
    (hcut : o'.ret ≠ 0 → RuleCut policy x (.start x.2.id :: o'.events))
    (hquiet : policy.Quiet → o'.ret = 0) (hrecording' : o'.Keeps Recording o.state)
    (hplatforms' : policy.Quiet → ∀ platform,
      platform ∈ o'.state.platforms ↔ platform ∈ o.state.platforms ∨
        policy.isItemSelected x.2.id = true ∧ Found policy (x.2.platforms :: x.1) platform) :
    RuleEvaluated policy x s (o'.after o.events) := by
  refine ⟨fun hret => ?_, fun hret => ?_, hquiet, keeping_recording.trans hrecording hrecording',
    fun h => hplatforms ▸ hplatforms' h⟩
  · rw [after_events, hevents]
    exact hcomplete hret
  · rw [after_events, hevents]
    exact hcut hret

/-- Platforms are found first. -/
theorem keeps_recording_of_results {ρ : Type} {s t : State ι ω} {o : Call ι ω ρ}
    (ht : t.results = s.results) (h : o.Keeps Recording t) : o.Keeps Recording s := by
  rw [Effects.Keeps, Recording] at h ⊢
  rw [h, ht]

/-- **What the evaluation of a rule does.** -/
theorem evaluatePlaced_spec (policy : Policy ι β ω) (x : List (List String) × PolicyRule ι)
    (s : State ι ω) : RuleEvaluated policy x s (evaluatePlaced policy x s) := by
  obtain ⟨hstart, hrecording, hplatforms, hquiet⟩ :=
    reportStart_spec policy x.2 s
  rw [evaluatePlaced, ruleEvaluate, bind_stop]
  generalize reportStart policy x.2 s = o at *
  split
  · rename_i hret
    refine ⟨fun h => absurd h hret, fun _ => ?_, fun h => absurd (hquiet h) hret, hrecording,
      fun h => absurd (hquiet h) hret⟩
    rw [hstart]
    exact .start
  · split
    · rename_i hselected
      rw [Bool.not_eq_true'] at hselected
      obtain ⟨hevents, hresult, hsame, hreport⟩ :=
        reportRuleResult_some policy x.2 none .notSelected none o.state
      refine .behind hstart hrecording hplatforms (fun _ => ?_) (fun _ => ?_) hreport hresult
        fun _ platform => ?_
      · rw [hevents]
        exact .notSelected hselected
      · rw [hevents]
        exact .output (.notSelected hselected)
      · rw [hsame, hselected]
        simp
    · rename_i hselected
      rw [Bool.not_eq_true', Bool.not_eq_false] at hselected
      obtain ⟨happlicable, hadds⟩ :=
        itemIsApplicable_spec policy (x.2.platforms :: x.1) o.state
      have hresults := hadds.results
      have hfound := hadds.platforms
      generalize itemIsApplicable policy (x.2.platforms :: x.1) o.state = found at *
      obtain ⟨found, t⟩ := found
      cases found with
      | false =>
          have hnot := happlicable.not.mp Bool.false_ne_true
          obtain ⟨hevents, hresult, hsame, hreport⟩ :=
            reportRuleResult_some policy x.2 none .notApplicable none t
          refine .behind hstart hrecording hplatforms (fun _ => ?_) (fun _ => ?_) hreport
            (keeps_recording_of_results hresults hresult) fun _ platform => ?_
          · rw [hevents]
            exact .notApplicable hselected hnot
          · rw [hevents]
            exact .output (.notApplicable hselected hnot)
          · rw [hsame, hfound, and_iff_right hselected]
      | true =>
          have happlicable := happlicable.mp rfl
          have hends := ruleCheckEvaluate_ends policy x.2 t
          refine .behind hstart hrecording hplatforms
            (fun hret => .evaluated hselected happlicable (hends.complete hret))
            (fun hret => .evaluated hselected happlicable (hends.cut hret)) hends.quiet
            (keeps_recording_of_results hresults hends.recording) fun _ platform => ?_
          rw [hends.platforms, hfound, and_iff_right hselected]

section Benchmark

variable (policy : Policy ι β ω) (platforms : List String) (content : List (PolicyItem ι))
  (outside : ω) (applicable : List String)

/-- The state before the first item. -/
def policyStart (outside : ω) (applicable : List String) : State ι ω := ⟨outside, applicable, []⟩

/-- A benchmark is evaluated like the list of its rules. -/
theorem policyEvaluate_eq : policyEvaluate policy platforms content outside applicable =
    (each (evaluatePlaced policy) (contentRules [platforms] content)
      (policyStart outside applicable)).bind fun ret s =>
        ⟨if ret = -1 then none else some (s.results, s.platforms), s, []⟩ := by
  rw [policyEvaluate, contentEvaluate, contentWalk_eq_each, policyStart]

/-- **The results that are recorded are those that are reported**, in this order. -/
theorem policyEvaluate_results {results : List (RuleResult ι)} {found : List String}
    (h : (policyEvaluate policy platforms content outside applicable).ret = some (results, found)) :
    results = (policyEvaluate policy platforms content outside applicable).events.filterMap
      PolicyEvent.finished? := by
  rw [policyEvaluate_eq] at h ⊢
  rw [bind_ret] at h
  rw [bind_events, List.append_nil]
  split at h
  · cases h
  · have hrecording := each_keeps keeping_recording
      (fun x s => (evaluatePlaced_spec policy x s).recording) (contentRules [platforms] content)
      (policyStart outside applicable)
    obtain ⟨rfl, -⟩ := Prod.mk.inj (Option.some.inj h)
    exact hrecording

/-- **The platforms of a result** were known before, or are those of rules that are selected, and of
the items around them up to the outermost that is not applicable. -/
theorem policyEvaluate_platforms (hquiet : policy.Quiet) {results : List (RuleResult ι)}
    {found : List String}
    (h : (policyEvaluate policy platforms content outside applicable).ret = some (results, found))
    (platform : String) :
    platform ∈ found ↔ platform ∈ applicable ∨
      ∃ x ∈ contentRules [platforms] content, policy.isItemSelected x.2.id = true ∧
        Found policy (x.2.platforms :: x.1) platform := by
  rw [policyEvaluate_eq, bind_ret] at h
  split at h
  · cases h
  · obtain ⟨-, rfl⟩ := Prod.mk.inj (Option.some.inj h)
    exact each_collects (P := fun (s : State ι ω) platform => platform ∈ s.platforms)
      (fun x s => (evaluatePlaced_spec policy x s).quiet hquiet)
      (fun x s => (evaluatePlaced_spec policy x s).platforms hquiet)
      (contentRules [platforms] content) (policyStart outside applicable) platform

end Benchmark

/-- A policy with an engine that lets everything pass and counts how often it is asked, and a
dictionary. -/
def countingPolicy : Policy Unit Unit ℕ where
  engines := [⟨some "oval", fun _ _ _ n => (some .pass, n + 1), fun _ n => (none, n)⟩]
  starters := []
  outputs := []
  valueBindings := fun _ => some ()
  isItemSelected := fun _ => true
  refineSelector := fun _ => none
  langModels := []
  dicts := [fun platform => platform = "cpe:/o:a"]
  cpeNameCheck := fun _ => true

/-- A group for a platform, with a rule. -/
def platformGroup : List (PolicyItem Unit) :=
  [.group ["cpe:/o:a"]
    [.rule ⟨"r", (), [], [⟨none, false, .simple false (some "oval") [] [⟨none, some "x"⟩]⟩]⟩]]

/-- The result of the rule. -/
def passed : RuleResult Unit :=
  ⟨"r", (), .pass, [⟨none, false, .simple false (some "oval") [] [⟨none, some "x"⟩]⟩], none⟩

theorem policyEvaluate_counting : (policyEvaluate countingPolicy [] platformGroup 0 []).ret =
    some ([passed], ["cpe:/o:a"]) := rfl

theorem policyEvaluate_results_counting :
    [passed] = (policyEvaluate countingPolicy [] platformGroup 0 []).events.filterMap
      PolicyEvent.finished? :=
  policyEvaluate_results countingPolicy [] platformGroup 0 [] policyEvaluate_counting

theorem quiet_counting : countingPolicy.Quiet where
  starters callback h := absurd h List.not_mem_nil
  outputs callback h := absurd h List.not_mem_nil
  engines engine h := by
    obtain rfl := List.mem_singleton.mp h
    exact fun _ _ _ _ => rfl

theorem policyEvaluate_platforms_counting :
    "cpe:/o:a" ∈ ["cpe:/o:a"] ↔ "cpe:/o:a" ∈ [] ∨
      ∃ x ∈ contentRules [[]] platformGroup, countingPolicy.isItemSelected x.2.id = true ∧
        Found countingPolicy (x.2.platforms :: x.1) "cpe:/o:a" :=
  policyEvaluate_platforms countingPolicy [] platformGroup 0 [] quiet_counting
    policyEvaluate_counting "cpe:/o:a"

end OpenScap.XccdfEvaluate
