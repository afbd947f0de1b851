import Mathlib.Data.List.Induction
import OpenScap.XccdfEvaluate
import OpenScap.XccdfResolve

/-!
# Remediation

`xccdf_policy_remediate` goes over the rule results of a test result. For each one that failed it
looks for a suitable fix, has it run by an interpreter, and evaluates the check of the rule result
again. What a fix does to the system is a change of the state outside.

A check that was evaluated has kept only the content that was checked, so it is that content which
decides again.

## Main results

* `findSuitableFix_spec` — which fix is taken;
* `generateFix_trace` — a script of fixes, rule by rule;
* `remediate_spec` — what becomes of each rule result, with what is seen of it;
* `checkEvaluate_again` — a check that was evaluated asks for the same content again.
-/

namespace OpenScap.XccdfEvaluate

open TracedCalls

/-! ### The code -/

/-- `struct xccdf_fix`. -/
structure Fix where
  reboot : Bool
  disruption : XccdfLevel
  content : Option String
  system : Option String
  platform : Option String

/-- A rule result with what remediation adds to it: messages, and fixes. -/
structure Remediated (ι : Type) where
  result : RuleResult ι
  messages : List String
  fixes : List Fix

/-- What remediation uses besides the policy: the rules of the benchmark with the platforms around
them, their fixes, the files, the text substitution, the decoding of XML, an interpreter that runs
a text, and the output. -/
structure Remedies (ι ω : Type) where
  getItem : String → Option (List (List String) × PolicyRule ι)
  getFixes : PolicyRule ι → List Fix
  fileExists : String → Bool
  resolveFixSubstitution : Option String → ℤ × Option String
  decodeXml : String → Option String
  execute : String → String → ω → (Bool × List String) × ω
  write : String → ω → Bool × ω

variable {ι β ω : Type}

/-- `_rule_add_info_message`. -/
def Remediated.addMessage (x : Remediated ι) (text : String) : Remediated ι :=
  ⟨x.result, x.messages ++ [text], x.fixes⟩

/-- `xccdf_rule_result_add_fix`. -/
def Remediated.addFix (x : Remediated ι) (fix : Fix) : Remediated ι :=
  ⟨x.result, x.messages, x.fixes ++ [fix]⟩

/-- `xccdf_rule_result_set_result`. -/
def Remediated.setResult (x : Remediated ι) (result : XccdfTestResult) : Remediated ι :=
  ⟨⟨x.result.idref, x.result.info, result, x.result.checks, x.result.message⟩, x.messages, x.fixes⟩

/-- The last check of a rule result becomes another one. -/
def Remediated.setCheck (x : Remediated ι) (check : RuleCheck) : Remediated ι :=
  ⟨⟨x.result.idref, x.result.info, x.result.result, x.result.checks.dropLast ++ [check],
    x.result.message⟩, x.messages, x.fixes⟩

/-- The interpreters that are supported. -/
def supportedInterprets : List (String × String) :=
  [("urn:xccdf:fix:commands", "/bin/bash"),
    ("urn:xccdf:fix:script:sh", "/bin/bash"),
    ("urn:xccdf:fix:script:perl", "/usr/bin/perl"),
    ("urn:xccdf:fix:script:python", "/usr/bin/python"),
    ("urn:xccdf:fix:script:csh", "/bin/csh"),
    ("urn:xccdf:fix:script:tclsh", "/usr/bin/tclsh"),
    ("urn:xccdf:fix:script:javascript", "/usr/bin/js")]

section Fixes

variable (policy : Policy ι β ω) (remedies : Remedies ι ω)

/-- `_get_supported_interpret`. -/
def getSupportedInterpret (system : Option String) : Option String :=
  ((supportedInterprets.find? fun entry => entry.1 = system.getD "").map Prod.snd).filter
    remedies.fileExists

/-- `_is_platform_applicable`. -/
def isPlatformApplicable (platform : Option String) (s : State ι ω) : Bool × State ι ω :=
  if platform.getD "" = "" then (true, s)
  else platformsAreApplicable policy [platform.getD ""] s

/-- The loop over the fixes of a rule that is applicable. -/
def filterApplicable : List Fix → State ι ω → List Fix × State ι ω
  | [], s => ([], s)
  | fix :: fixes, s =>
      let (applicable, s) := isPlatformApplicable policy fix.platform s
      let (result, s) := filterApplicable fixes s
      (if applicable then fix :: result else result, s)

/-- `_filter_fixes_by_applicability`. -/
def filterFixesByApplicability (x : List (List String) × PolicyRule ι) (s : State ι ω) :
    List Fix × State ι ω :=
  match itemIsApplicable policy (x.2.platforms :: x.1) s with
  | (false, s) => ([], s)
  | (true, s) => filterApplicable policy (remedies.getFixes x.2) s

/-- `_filter_fixes_by_distruption_and_reboot`. -/
def filterFixesByDisruptionAndReboot (fixes : List Fix) : List Fix :=
  let reboot := fixes.all fun fix => fix.reboot
  let kept := fixes.filter fun fix => reboot || !fix.reboot
  let disruption := kept.foldl (fun disruption fix =>
    if fix.disruption = .medium ∨ fix.disruption = .low then fix.disruption else disruption) .high
  if disruption = .medium ∨ disruption = .low then
    kept.filter fun fix => fix.disruption = disruption
  else kept

/-- `_find_suitable_fix`. -/
def findSuitableFix (r : RuleResult ι) (s : State ι ω) : Option Fix × State ι ω :=
  match remedies.getItem r.idref with
  | none => (none, s)
  | some x =>
      let (fixes, s) := filterFixesByApplicability policy remedies x s
      let fixes := fixes.filter fun fix => (getSupportedInterpret remedies fix.system).isSome
      ((filterFixesByDisruptionAndReboot fixes).head?, s)

/-- `_xccdf_fix_execute`: whether the fix was run, and what becomes of the rule result. -/
def fixExecute (x : Remediated ι) (fix : Fix) (s : State ι ω) : Call ι ω (Bool × Remediated ι) :=
  if fix.content.getD "" = "" then ⟨(false, x), s, []⟩
  else
    match getSupportedInterpret remedies fix.system with
    | none =>
        ⟨(false, x.addMessage ("Not supported xccdf:fix/@system='" ++ fix.system.getD "" ++
          "' or missing interpreter.")), s, []⟩
    | some interpret =>
        match remedies.decodeXml (fix.content.getD "") with
        | none =>
            ⟨(false, x.addMessage "Fix element contains unresolved child elements."), s, []⟩
        | some text =>
            let ((done, messages), outside) := remedies.execute interpret text s.outside
            ⟨(done, messages.foldl Remediated.addMessage x), s.setOutside outside,
              [.executed interpret text]⟩

/-- What `xccdf_test_result_type_get_text` returns. -/
def resultText : XccdfTestResult → String
  | .unset => ""
  | .pass => "pass"
  | .fail => "fail"
  | .error => "error"
  | .unknown => "unknown"
  | .notApplicable => "notapplicable"
  | .notChecked => "notchecked"
  | .notSelected => "notselected"
  | .informational => "informational"
  | .fixed => "fixed"

/-- The check of a rule result is evaluated again, in `xccdf_policy_rule_result_remediate`. -/
def verifyFix (x : Remediated ι) (s : State ι ω) : Call ι ω (Remediated ι) :=
  match x.result.checks.getLast? with
  | none =>
      ⟨(x.setResult .error).addMessage "Failed to verify applied fix: Missing xccdf:check.", s, []⟩
  | some check =>
      (checkEvaluate policy check.check s).bind fun ret s =>
        let x := x.setCheck ⟨check.selector, check.multiCheck, ret.2⟩
        if ret.1 = some .pass then ⟨x.setResult .fixed, s, []⟩
        else
          ⟨(x.setResult .error).addMessage
            ("Failed to verify applied fix: Checking engine returns: " ++
              match ret.1 with
              | none | some .unset => "internal error"
              | some result => resultText result), s, []⟩

/-- `xccdf_policy_rule_result_remediate` behind the text substitution. -/
def applyFix (x : Remediated ι) (fix : Fix) (s : State ι ω) : Call ι ω (ℤ × Remediated ι) :=
  (fixExecute remedies x fix s).bind fun ret s =>
    if !ret.1 then ⟨(1, ret.2.addMessage "Fix was not executed. Execution was aborted."), s, []⟩
    else
      match remedies.getItem x.result.idref with
      | none => (verifyFix policy ret.2 s).bind fun x s => ⟨(0, x), s, []⟩
      | some rule =>
          (reportStart policy rule.2 s).bind fun report s =>
            if report ≠ 0 then ⟨(report, ret.2), s, []⟩
            else (verifyFix policy ret.2 s).bind fun x s =>
              (reportOutput policy x.result s).bind fun report s => ⟨(report, x), s, []⟩

/-- `xccdf_policy_rule_result_remediate`: the number returned, and what becomes of the rule
result. -/
def ruleResultRemediate (x : Remediated ι) (fix : Option Fix) (s : State ι ω) :
    Call ι ω (ℤ × Remediated ι) :=
  if x.result.result ≠ .fail then ⟨(0, x), s, []⟩
  else
    let (fix, s) :=
      match fix with
      | some fix => (some fix, s)
      | none => findSuitableFix policy remedies x.result s
    match fix with
    | none => ⟨(0, x), s, []⟩
    | some fix =>
        if x.result.checks.getLast?.any fun check => check.multiCheck then ⟨(0, x), s, []⟩
        else
          let (res, content) := remedies.resolveFixSubstitution fix.content
          if res ≠ 0 then
            ⟨(res, (x.addFix fix).addMessage
              "Fix execution was aborted: Text substitution failed."), s, []⟩
          else
            let fix := ⟨fix.reboot, fix.disruption, content, fix.system, fix.platform⟩
            applyFix policy remedies (x.addFix fix) fix s

/-- `xccdf_policy_remediate`: each rule result in turn, whatever the others return. -/
def remediate : List (Remediated ι) → State ι ω → Call ι ω (List (Remediated ι))
  | [], s => ⟨[], s, []⟩
  | x :: xs, s =>
      (ruleResultRemediate policy remedies x none s).bind fun ret s =>
        (remediate xs s).bind fun rets s => ⟨ret.2 :: rets, s, []⟩

/-! ### Fixes for a template -/

/-- `_find_fix_for_template`. -/
def findFixForTemplate (template : Option String) (x : List (List String) × PolicyRule ι)
    (s : State ι ω) : Option Fix × State ι ω :=
  let (fixes, s) := filterFixesByApplicability policy remedies x s
  let fixes := fixes.filter fun fix => template = some (fix.system.getD "")
  ((filterFixesByDisruptionAndReboot fixes).head?, s)

/-- `_xccdf_policy_rule_generate_fix`. -/
def ruleGenerateFix (template : Option String) (x : List (List String) × PolicyRule ι)
    (s : State ι ω) : Call ι ω ℤ :=
  if !policy.isItemSelected x.2.id then ⟨0, s, []⟩
  else
    match itemIsApplicable policy (x.2.platforms :: x.1) s with
    | (false, s) => ⟨0, s, []⟩
    | (true, s) =>
        match findFixForTemplate policy remedies template x s with
        | (none, s) => ⟨0, s, []⟩
        | (some fix, s) =>
            let (res, content) := remedies.resolveFixSubstitution fix.content
            if res ≠ 0 then ⟨if res = 1 then 1 else 0, s, []⟩
            else
              match remedies.decodeXml (content.getD "") with
              | none => ⟨1, s, []⟩
              | some text =>
                  let (failed, outside) := remedies.write text s.outside
                  ⟨if failed then 1 else 0, s.setOutside outside, [.written text]⟩

/-- `xccdf_policy_generate_fix`, without a result. -/
def generateFix (template : Option String) (platforms : List String)
    (content : List (PolicyItem ι)) (s : State ι ω) : Call ι ω ℤ :=
  contentWalk (ruleGenerateFix policy remedies template) [platforms] content s

end Fixes

/-! ### The fix that is taken -/

/-- The fix can be taken for a rule result: the rule and what is around it are applicable, the fix
has no platform or one that holds, and an interpreter. -/
def Candidate (policy : Policy ι β ω) (remedies : Remedies ι ω) (r : RuleResult ι) (fix : Fix) :
    Prop :=
  ∃ x, remedies.getItem r.idref = some x ∧ Applicable policy (x.2.platforms :: x.1) ∧
    fix ∈ remedies.getFixes x.2 ∧
      (fix.platform.getD "" = "" ∨ HoldsSomewhere policy (fix.platform.getD "")) ∧
        (getSupportedInterpret remedies fix.system).isSome

/-- The disruption is low or medium. -/
def Fix.Mild (fix : Fix) : Prop := fix.disruption = .medium ∨ fix.disruption = .low

instance (fix : Fix) : Decidable fix.Mild := inferInstanceAs (Decidable (_ ∨ _))

/-- The fixes without a reboot, or all if there are none. -/
def keptFixes (fixes : List Fix) : List Fix :=
  fixes.filter fun fix => (fixes.all fun fix => fix.reboot) || !fix.reboot

section Choice

variable {fixes : List Fix} {fix : Fix}

theorem mem_keptFixes : fix ∈ keptFixes fixes ↔
    fix ∈ fixes ∧ ((∃ other ∈ fixes, other.reboot = false) → fix.reboot = false) := by
  rw [keptFixes, List.mem_filter, Bool.or_eq_true, List.all_eq_true, Bool.not_eq_true',
    or_iff_not_imp_left]
  refine and_congr_right fun _ => imp_congr_left ?_
  simp

theorem keptFixes_eq_nil : keptFixes fixes = [] ↔ fixes = [] := by
  refine ⟨fun h => ?_, fun h => by rw [h]; rfl⟩
  by_contra hne
  by_cases hall : ∃ other ∈ fixes, other.reboot = false
  · obtain ⟨other, hmem, hreboot⟩ := hall
    exact List.not_mem_nil (h ▸ mem_keptFixes.mpr ⟨hmem, fun _ => hreboot⟩)
  · obtain ⟨other, hmem⟩ := List.exists_mem_of_ne_nil fixes hne
    exact List.not_mem_nil (h ▸ mem_keptFixes.mpr ⟨hmem, fun h => absurd h hall⟩)

/-- The loop finds the disruption of the last fix that is mild. -/
theorem foldl_disruption (fixes : List Fix) (start : XccdfLevel) :
    fixes.foldl (fun disruption fix =>
        if fix.disruption = .medium ∨ fix.disruption = .low then fix.disruption else disruption)
      start = (((fixes.filter fun fix => fix.Mild).getLast?).map Fix.disruption).getD start := by
  induction fixes using List.reverseRec with
  | nil => rfl
  | append_singleton fixes fix ih =>
      rw [List.foldl_append, List.foldl_cons, List.foldl_nil, List.filter_append]
      by_cases hmild : fix.Mild
      · have hif : fix.disruption = .medium ∨ fix.disruption = .low := hmild
        rw [if_pos hif, List.filter_cons_of_pos (by simpa using hmild), List.filter_nil,
          List.getLast?_concat]
        rfl
      · have hif : ¬(fix.disruption = .medium ∨ fix.disruption = .low) := hmild
        rw [if_neg hif, List.filter_cons_of_neg (by simpa using hmild), List.filter_nil,
          List.append_nil, ih]

/-- The fixes of the last mild disruption are kept, or all. -/
theorem filterFixes_eq (fixes : List Fix) : filterFixesByDisruptionAndReboot fixes =
    match ((keptFixes fixes).filter fun fix => fix.Mild).getLast? with
    | some last => (keptFixes fixes).filter fun fix => fix.disruption = last.disruption
    | none => keptFixes fixes := by
  rw [filterFixesByDisruptionAndReboot]
  change (if _ then _ else keptFixes fixes) = _
  rw [show (fixes.filter fun fix => (fixes.all fun fix => fix.reboot) || !fix.reboot) =
    keptFixes fixes from rfl, foldl_disruption]
  cases hlast : ((keptFixes fixes).filter fun fix => fix.Mild).getLast? with
  | none => rfl
  | some last =>
      have hmild : last.Mild := by
        simpa using (List.mem_filter.mp (List.mem_of_getLast? hlast)).2
      exact if_pos hmild

/-- A fix that is left. -/
theorem mem_filterFixes (h : fix ∈ filterFixesByDisruptionAndReboot fixes) :
    fix ∈ keptFixes fixes ∧ ((∃ other ∈ keptFixes fixes, other.Mild) → fix.Mild) := by
  rw [filterFixes_eq] at h
  split at h
  · rename_i last hlast
    have hmild : last.Mild := by
      simpa using (List.mem_filter.mp (List.mem_of_getLast? hlast)).2
    obtain ⟨hmem, hsame⟩ := List.mem_filter.mp h
    refine ⟨hmem, fun _ => ?_⟩
    rw [Fix.Mild, of_decide_eq_true hsame]
    exact hmild
  · rename_i hnone
    refine ⟨h, fun ⟨other, hmem, hmild⟩ => ?_⟩
    have hempty := List.getLast?_eq_none_iff.mp hnone
    exact absurd (List.mem_filter.mpr ⟨hmem, decide_eq_true hmild⟩)
      (hempty ▸ List.not_mem_nil)

theorem filterFixes_eq_nil : filterFixesByDisruptionAndReboot fixes = [] ↔ fixes = [] := by
  refine Iff.trans ?_ keptFixes_eq_nil
  rw [filterFixes_eq]
  split
  · rename_i last hlast
    have hmem := (List.mem_filter.mp (List.mem_of_getLast? hlast)).1
    refine iff_of_false (fun h => ?_) fun h => List.not_mem_nil (h ▸ hmem)
    exact List.filter_eq_nil_iff.mp h last hmem (decide_eq_true rfl)
  · rfl

/-- The platform of a fix. -/
theorem isPlatformApplicable_iff (policy : Policy ι β ω) (platform : Option String)
    (s : State ι ω) : (isPlatformApplicable policy platform s).1 = true ↔
      platform.getD "" = "" ∨ HoldsSomewhere policy (platform.getD "") := by
  rw [isPlatformApplicable]
  split
  · rename_i hnone
    exact iff_of_true rfl (.inl hnone)
  · rename_i hsome
    rw [(platformsAreApplicable_spec policy _ s).1, or_iff_right hsome]
    simp

theorem mem_filterApplicable (policy : Policy ι β ω) (fixes : List Fix) (s : State ι ω)
    (fix : Fix) : fix ∈ (filterApplicable policy fixes s).1 ↔ fix ∈ fixes ∧
      (fix.platform.getD "" = "" ∨ HoldsSomewhere policy (fix.platform.getD "")) := by
  induction fixes generalizing s with
  | nil => simp [filterApplicable]
  | cons other fixes ih =>
      have hown := isPlatformApplicable_iff policy other.platform s
      rw [filterApplicable]
      dsimp only
      split
      · rename_i htrue
        rw [List.mem_cons, ih, List.mem_cons, or_and_right]
        refine or_congr_left (and_iff_left_of_imp ?_).symm
        rintro rfl
        exact hown.mp htrue
      · rename_i hfalse
        rw [ih, List.mem_cons, or_and_right]
        refine (or_iff_right ?_).symm
        rintro ⟨rfl, hholds⟩
        exact hfalse (hown.mpr hholds)

/-- The fixes of a rule that are applicable. -/
theorem mem_filterFixesByApplicability (policy : Policy ι β ω) (remedies : Remedies ι ω)
    (x : List (List String) × PolicyRule ι) (s : State ι ω) (fix : Fix) :
    fix ∈ (filterFixesByApplicability policy remedies x s).1 ↔
      Applicable policy (x.2.platforms :: x.1) ∧ fix ∈ remedies.getFixes x.2 ∧
        (fix.platform.getD "" = "" ∨ HoldsSomewhere policy (fix.platform.getD "")) := by
  have happlicable := (itemIsApplicable_spec policy (x.2.platforms :: x.1) s).1
  rw [filterFixesByApplicability]
  split
  · rename_i heq
    rw [heq] at happlicable
    exact iff_of_false List.not_mem_nil fun h => Bool.false_ne_true (happlicable.mpr h.1)
  · rename_i heq
    rw [heq] at happlicable
    rw [mem_filterApplicable, and_iff_right (happlicable.mp rfl)]

/-- The disruption and the reboot decide. -/
def Preferred (candidate : Fix → Prop) (fix : Fix) : Prop :=
  candidate fix ∧ (∀ other, candidate other → other.reboot = false → fix.reboot = false) ∧
    ∀ other, candidate other → other.reboot = fix.reboot → other.Mild → fix.Mild

/-- The choice among fixes. -/
theorem choice_spec {candidate : Fix → Prop} (hmem : ∀ fix, fix ∈ fixes ↔ candidate fix) :
    ((filterFixesByDisruptionAndReboot fixes).head? = none ↔ ∀ fix, ¬candidate fix) ∧
      ∀ fix, (filterFixesByDisruptionAndReboot fixes).head? = some fix →
        Preferred candidate fix := by
  refine ⟨?_, fun fix hfix => ?_⟩
  · rw [List.head?_eq_none_iff, filterFixes_eq_nil, List.eq_nil_iff_forall_not_mem]
    exact forall_congr' fun fix => not_congr (hmem fix)
  · obtain ⟨hkept, hmild⟩ := mem_filterFixes (List.mem_of_head? hfix)
    obtain ⟨hfixes, hreboot⟩ := mem_keptFixes.mp hkept
    refine ⟨(hmem fix).mp hfixes, fun other hother h =>
      hreboot ⟨other, (hmem other).mpr hother, h⟩, fun other hother hsame h => hmild ?_⟩
    refine ⟨other, mem_keptFixes.mpr ⟨(hmem other).mpr hother, fun hany => ?_⟩, h⟩
    rw [hsame]
    exact hreboot hany

/-- **The fix that is taken** for a rule result can be taken. It needs no reboot if any such fix
does without, and among those its disruption is low or medium if that of any is. There is one
whenever a fix can be taken. -/
theorem findSuitableFix_spec (policy : Policy ι β ω) (remedies : Remedies ι ω) (r : RuleResult ι)
    (s : State ι ω) :
    ((findSuitableFix policy remedies r s).1 = none ↔
        ∀ fix, ¬Candidate policy remedies r fix) ∧
      ∀ fix, (findSuitableFix policy remedies r s).1 = some fix →
        Preferred (Candidate policy remedies r) fix := by
  rw [findSuitableFix]
  cases hitem : remedies.getItem r.idref with
  | none =>
      refine ⟨iff_of_true rfl fun fix h => ?_, fun fix h => by cases h⟩
      obtain ⟨x, hx, -⟩ := h
      cases hitem.symm.trans hx
  | some x =>
      refine choice_spec fun fix => ?_
      rw [List.mem_filter, mem_filterFixesByApplicability, Candidate]
      simp only [hitem, Option.some.injEq, exists_eq_left', and_assoc]

/-- The fix can be taken for a template. -/
def TemplateCandidate (policy : Policy ι β ω) (remedies : Remedies ι ω) (template : Option String)
    (x : List (List String) × PolicyRule ι) (fix : Fix) : Prop :=
  Applicable policy (x.2.platforms :: x.1) ∧ fix ∈ remedies.getFixes x.2 ∧
    (fix.platform.getD "" = "" ∨ HoldsSomewhere policy (fix.platform.getD "")) ∧
      template = some (fix.system.getD "")

theorem findFixForTemplate_spec (policy : Policy ι β ω) (remedies : Remedies ι ω)
    (template : Option String) (x : List (List String) × PolicyRule ι) (s : State ι ω) :
    ((findFixForTemplate policy remedies template x s).1 = none ↔
        ∀ fix, ¬TemplateCandidate policy remedies template x fix) ∧
      ∀ fix, (findFixForTemplate policy remedies template x s).1 = some fix →
        Preferred (TemplateCandidate policy remedies template x) fix := by
  rw [findFixForTemplate]
  refine choice_spec fun fix => ?_
  rw [List.mem_filter, mem_filterFixesByApplicability, TemplateCandidate, decide_eq_true_eq]
  simp only [and_assoc]

end Choice

/-! ### The script -/

section Script

variable (policy : Policy ι β ω) (remedies : Remedies ι ω) (template : Option String)

/-- What a rule adds to the script: nothing if it is not selected or no fix can be taken, or if the
text substitution has warned; otherwise the text of the fix that is taken. -/
inductive Generated (x : List (List String) × PolicyRule ι) : List (PolicyEvent ι) → Prop
  | nothing (h : policy.isItemSelected x.2.id = true →
      ∀ fix, ¬TemplateCandidate policy remedies template x fix) : Generated x []
  | warned {fix : Fix} (hselected : policy.isItemSelected x.2.id = true)
      (hfix : Preferred (TemplateCandidate policy remedies template x) fix)
      (hzero : (remedies.resolveFixSubstitution fix.content).1 ≠ 0)
      (hone : (remedies.resolveFixSubstitution fix.content).1 ≠ 1) : Generated x []
  | written {fix : Fix} {text : String} (hselected : policy.isItemSelected x.2.id = true)
      (hfix : Preferred (TemplateCandidate policy remedies template x) fix)
      (hzero : (remedies.resolveFixSubstitution fix.content).1 = 0)
      (htext : remedies.decodeXml ((remedies.resolveFixSubstitution fix.content).2.getD "") =
        some text) : Generated x [.written text]

/-- What a rule adds where the script ends: a fix that cannot be resolved, or not be written. -/
inductive GeneratedCut (x : List (List String) × PolicyRule ι) : List (PolicyEvent ι) → Prop
  | unresolved {fix : Fix} (hselected : policy.isItemSelected x.2.id = true)
      (hfix : Preferred (TemplateCandidate policy remedies template x) fix)
      (h : (remedies.resolveFixSubstitution fix.content).1 = 1 ∨
        (remedies.resolveFixSubstitution fix.content).1 = 0 ∧
          remedies.decodeXml ((remedies.resolveFixSubstitution fix.content).2.getD "") = none) :
      GeneratedCut x []
  | unwritten {text : String} (h : Generated policy remedies template x [.written text]) :
      GeneratedCut x [.written text]

variable {policy remedies template}

/-- The fix of a rule. -/
theorem ruleGenerateFix_spec (x : List (List String) × PolicyRule ι) (s : State ι ω) :
    ((ruleGenerateFix policy remedies template x s).ret = 0 → Generated policy remedies template x
        (ruleGenerateFix policy remedies template x s).events) ∧
      ((ruleGenerateFix policy remedies template x s).ret ≠ 0 →
        GeneratedCut policy remedies template x
          (ruleGenerateFix policy remedies template x s).events) := by
  rw [ruleGenerateFix]
  split
  · rename_i hnot
    refine ⟨fun _ => .nothing fun h => ?_, fun h => absurd rfl h⟩
    rw [h] at hnot
    cases hnot
  · rename_i hselected
    rw [Bool.not_eq_true', Bool.not_eq_false] at hselected
    have happlicable := (itemIsApplicable_spec policy (x.2.platforms :: x.1) s).1
    split
    · rename_i t heq
      rw [heq] at happlicable
      refine ⟨fun _ => .nothing fun _ fix h => ?_, fun h => absurd rfl h⟩
      exact Bool.false_ne_true (happlicable.mpr h.1)
    · rename_i t heq
      obtain ⟨hnone, hsome⟩ := findFixForTemplate_spec policy remedies template x t
      split
      · rename_i u hfind
        rw [hfind] at hnone
        exact ⟨fun _ => .nothing fun _ => hnone.mp rfl, fun h => absurd rfl h⟩
      · rename_i fix u hfind
        rw [hfind] at hsome
        have hfix := hsome fix rfl
        dsimp only
        split
        · rename_i hzero
          by_cases hone : (remedies.resolveFixSubstitution fix.content).1 = 1
          · rw [if_pos hone]
            exact ⟨fun h => (by cases h), fun _ => .unresolved hselected hfix (.inl hone)⟩
          · rw [if_neg hone]
            exact ⟨fun _ => .warned hselected hfix hzero hone, fun h => absurd rfl h⟩
        · rename_i hzero
          have hzero := not_not.mp hzero
          split
          · rename_i htext
            exact ⟨fun h => (by cases h), fun _ => .unresolved hselected hfix (.inr ⟨hzero, htext⟩)⟩
          · rename_i text htext
            have hwritten := Generated.written hselected hfix hzero htext
            exact ⟨fun _ => hwritten, fun _ => .unwritten hwritten⟩

end Script

/-! ### What becomes of the rule results -/

/-- A rule result whose check was evaluated again, behind a fix. -/
def Verified (policy : Policy ι β ω) (r r' : RuleResult ι) : Prop :=
  r'.idref = r.idref ∧ r'.info = r.info ∧ r'.message = r.message ∧
    match r.checks.getLast? with
    | none => r'.result = .error ∧ r'.checks = r.checks
    | some check => ∃ s : State ι ω,
        r'.checks = r.checks.dropLast ++
            [⟨check.selector, check.multiCheck, (checkEvaluate policy check.check s).ret.2⟩] ∧
          r'.result = if (checkEvaluate policy check.check s).ret.1 = some .pass then .fixed
            else .error

/-- What becomes of a rule result, and what is seen of it. Only one that failed is touched; a fix is
run first, and if it was run, the rule is reported around the evaluation of the check. -/
inductive Remedied (policy : Policy ι β ω) (remedies : Remedies ι ω) (x x' : Remediated ι) :
    List (PolicyEvent ι) → Prop
  | kept (hsame : x'.result = x.result) (hother : x.result.result ≠ .fail → x' = x) :
      Remedied policy remedies x x' []
  | notRun {interpret text : String} (hfail : x.result.result = .fail)
      (hsame : x'.result = x.result) : Remedied policy remedies x x' [.executed interpret text]
  | stopped {interpret text : String} {rule : List (List String) × PolicyRule ι}
      (hfail : x.result.result = .fail) (hrule : remedies.getItem x.result.idref = some rule)
      (hsame : x'.result = x.result) :
      Remedied policy remedies x x' [.executed interpret text, .start rule.2.id]
  | verified {interpret text : String} {rule : List (List String) × PolicyRule ι}
      {body : List (PolicyEvent ι)} (hfail : x.result.result = .fail)
      (hrule : remedies.getItem x.result.idref = some rule) (hbody : ∀ e ∈ body, e.Asks)
      (h : Verified policy x.result x'.result) :
      Remedied policy remedies x x'
        (.executed interpret text :: .start rule.2.id :: body ++ [.finish x'.result])
  | unreported {interpret text : String} {body : List (PolicyEvent ι)}
      (hfail : x.result.result = .fail) (hrule : remedies.getItem x.result.idref = none)
      (hbody : ∀ e ∈ body, e.Asks) (h : Verified policy x.result x'.result) :
      Remedied policy remedies x x' (.executed interpret text :: body)

section Results

variable {policy : Policy ι β ω} {remedies : Remedies ι ω} {x : Remediated ι}

theorem foldl_addMessage_result (messages : List String) (x : Remediated ι) :
    (messages.foldl Remediated.addMessage x).result = x.result := by
  induction messages generalizing x with
  | nil => rfl
  | cons message messages ih => exact ih _

/-- A fix is run, or not. -/
theorem fixExecute_spec (remedies : Remedies ι ω) (x : Remediated ι) (fix : Fix)
    (s : State ι ω) :
    (fixExecute remedies x fix s).ret.2.result = x.result ∧
      ((fixExecute remedies x fix s).ret.1 = false ∧ (fixExecute remedies x fix s).events = [] ∨
        ∃ interpret text,
          (fixExecute remedies x fix s).events = [.executed interpret text]) := by
  rw [fixExecute]
  split
  · exact ⟨rfl, .inl ⟨rfl, rfl⟩⟩
  · split
    · exact ⟨rfl, .inl ⟨rfl, rfl⟩⟩
    · split
      · exact ⟨rfl, .inl ⟨rfl, rfl⟩⟩
      · exact ⟨foldl_addMessage_result _ _, .inr ⟨_, _, rfl⟩⟩

/-- The check is evaluated again. -/
theorem verifyFix_spec (policy : Policy ι β ω) (x : Remediated ι) (s : State ι ω) :
    Verified policy x.result (verifyFix policy x s).ret.result ∧
      ∀ e ∈ (verifyFix policy x s).events, e.Asks := by
  rw [verifyFix, Verified]
  split
  · exact ⟨⟨rfl, rfl, rfl, rfl, rfl⟩, not_mem_asks⟩
  · rename_i check hcheck
    refine ⟨⟨?_, ?_, ?_, s, ?_, ?_⟩, ?_⟩
    · rw [bind_ret]
      split <;> rfl
    · rw [bind_ret]
      split <;> rfl
    · rw [bind_ret]
      split <;> rfl
    · rw [bind_ret]
      split <;> rfl
    · rw [bind_ret]
      split <;> rfl
    · rw [bind_events]
      refine asks_append (checkEvaluate_asks check.check s).2.2 ?_
      split <;> exact not_mem_asks

theorem reportOutput_events (policy : Policy ι β ω) (r : RuleResult ι) (s : State ι ω) :
    (reportOutput policy r s).events = [.finish r] := by
  rw [reportOutput, after_events, (reportCb_outside ..).1]
  rfl

/-- A fix is applied. -/
theorem applyFix_spec (policy : Policy ι β ω) (remedies : Remedies ι ω) {x y : Remediated ι}
    (hfail : x.result.result = .fail) (hy : y.result = x.result) (fix : Fix) (s : State ι ω) :
    Remedied policy remedies x (applyFix policy remedies y fix s).ret.2
      (applyFix policy remedies y fix s).events := by
  obtain ⟨hresult, hevents⟩ := fixExecute_spec remedies y fix s
  rw [applyFix, bind_ret, bind_events, hy]
  generalize fixExecute remedies y fix s = o at *
  have hsame := hresult.trans hy
  split
  · rcases hevents with ⟨-, hevents⟩ | ⟨interpret, text, hevents⟩
    · rw [hevents]
      exact .kept hsame fun h => absurd hfail h
    · rw [hevents]
      exact .notRun hfail hsame
  · rename_i hran
    rcases hevents with ⟨hnot, -⟩ | ⟨interpret, text, hevents⟩
    · rw [hnot] at hran
      exact absurd rfl hran
    rw [hevents]
    split
    · rename_i hrule
      obtain ⟨hverified, hasks⟩ := verifyFix_spec policy o.ret.2 o.state
      rw [hsame] at hverified
      rw [bind_ret, bind_events, List.append_nil]
      exact .unreported hfail hrule hasks hverified
    · rename_i rule hrule
      rw [bind_ret, bind_events, (reportStart_spec policy rule.2 o.state).1]
      generalize reportStart policy rule.2 o.state = started
      split
      · exact .stopped hfail hrule hsame
      · obtain ⟨hverified, hasks⟩ := verifyFix_spec policy o.ret.2 started.state
        rw [hsame] at hverified
        rw [bind_ret, bind_events, bind_ret, bind_events, reportOutput_events, List.append_nil]
        exact .verified hfail hrule hasks hverified

/-- **What becomes of a rule result**, and what is seen of it. -/
theorem ruleResultRemediate_spec (policy : Policy ι β ω) (remedies : Remedies ι ω)
    (x : Remediated ι) (fix : Option Fix) (s : State ι ω) :
    Remedied policy remedies x (ruleResultRemediate policy remedies x fix s).ret.2
      (ruleResultRemediate policy remedies x fix s).events := by
  unfold ruleResultRemediate
  split
  · exact .kept rfl fun _ => rfl
  · rename_i hfail
    have hfail := not_not.mp hfail
    have hkept : Remedied policy remedies x x [] := .kept rfl fun _ => rfl
    dsimp only
    split
    · exact hkept
    · split
      · exact hkept
      · split
        · exact .kept rfl fun h => absurd hfail h
        · exact applyFix_spec (y := x.addFix _) policy remedies hfail rfl _ _

end Results

/-! ### Evaluating a check again -/

/-- The engines give the same results in every state. -/
def Policy.Steady (policy : Policy ι β ω) : Prop :=
  ∀ engine ∈ policy.engines, ∀ name href bindings s t,
    (engine.eval name href bindings s).1 = (engine.eval name href bindings t).1

section Again

variable {policy : Policy ι β ω}

theorem evaluateCb_steady (h : policy.Steady) (system name href : Option String) (bindings : β)
    (s t : State ι ω) :
    (evaluateCb system name href bindings policy.engines s).ret =
      (evaluateCb system name href bindings policy.engines t).ret := by
  rw [Policy.Steady] at h
  generalize policy.engines = engines at h
  induction engines generalizing s t with
  | nil => rfl
  | cons engine engines ih =>
      have hrest := fun s t => ih s t fun engine hmem => h engine (List.mem_cons_of_mem _ hmem)
      have hengine := h engine List.mem_cons_self name href bindings s.outside t.outside
      rw [evaluateCb, evaluateCb]
      split
      · dsimp only
        rw [hengine]
        split
        · rfl
        · exact hrest _ _
      · exact hrest s t

theorem contentRefsEvaluate_steady (h : policy.Steady) (system : Option String) (bindings : β)
    (contents : List CheckContentRef) (ret : XccdfTestResult) (s t : State ι ω) :
    (contentRefsEvaluate policy system bindings contents ret s).ret =
      (contentRefsEvaluate policy system bindings contents ret t).ret := by
  induction contents generalizing ret s t with
  | nil => rfl
  | cons content contents ih =>
      rw [contentRefsEvaluate, contentRefsEvaluate, bind_ret, bind_ret,
        evaluateCb_steady h system content.name content.href bindings s t]
      split
      · rfl
      · exact ih ..

/-- One content reference, and the others. -/
theorem contentRefsEvaluate_cons (system : Option String) (bindings : β)
    (content : CheckContentRef) (contents : List CheckContentRef) (ret : XccdfTestResult)
    (s : State ι ω) :
    (contentRefsEvaluate policy system bindings (content :: contents) ret s).ret =
      if (evaluateCb system content.name content.href bindings policy.engines s).ret ≠
          some .notChecked then
        ((evaluateCb system content.name content.href bindings policy.engines s).ret, some content)
      else (contentRefsEvaluate policy system bindings contents .notChecked
        (evaluateCb system content.name content.href bindings policy.engines s).state).ret := by
  rw [contentRefsEvaluate, bind_ret]
  split <;> rfl

/-- The content that was checked decides alone. -/
theorem contentRefsEvaluate_checked (h : policy.Steady) (system : Option String) (bindings : β)
    {contents : List CheckContentRef} {ret : XccdfTestResult} {s : State ι ω}
    {content : CheckContentRef}
    (hchecked : (contentRefsEvaluate policy system bindings contents ret s).ret.2 = some content)
    (ret' : XccdfTestResult) (t : State ι ω) :
    (contentRefsEvaluate policy system bindings [content] ret' t).ret =
      (contentRefsEvaluate policy system bindings contents ret s).ret := by
  induction contents generalizing ret s with
  | nil => cases hchecked
  | cons other contents ih =>
      rw [contentRefsEvaluate_cons _ _ other contents] at hchecked ⊢
      split at hchecked
      · rename_i hret
        obtain rfl := Option.some.inj hchecked
        rw [contentRefsEvaluate_cons,
          evaluateCb_steady h system other.name other.href bindings t s, if_pos hret, if_pos hret]
      · rename_i hret
        rw [if_neg hret]
        exact ih hchecked

theorem simpleEvaluate_again (h : policy.Steady) (negate : Bool) (system : Option String)
    (exports : List CheckExport) (contentRefs : List CheckContentRef) (s t : State ι ω) :
    (checkEvaluate policy (simpleEvaluate policy negate system exports contentRefs s).ret.2 t).ret =
      (simpleEvaluate policy negate system exports contentRefs s).ret := by
  unfold simpleEvaluate
  cases hbindings : policy.valueBindings exports with
  | none =>
      dsimp only
      rw [checkEvaluate, simpleEvaluate, hbindings]
  | some bindings =>
      dsimp only
      rw [bind_ret, checkEvaluate, simpleEvaluate, hbindings]
      dsimp only
      rw [bind_ret]
      cases hchecked : (contentRefsEvaluate policy system bindings contentRefs .unset s).ret.2 with
      | none =>
          rw [injectContentRef,
            contentRefsEvaluate_steady h system bindings contentRefs .unset t s, hchecked]
          rfl
      | some content =>
          rw [injectContentRef, contentRefsEvaluate_checked h system bindings hchecked .unset t,
            hchecked]
          rfl

mutual

/-- **A check that was evaluated gives the same result again**, and stays as it is. -/
theorem checkEvaluate_again (h : policy.Steady) : ∀ (check : XccdfCheck) (s t : State ι ω),
    (checkEvaluate policy (checkEvaluate policy check s).ret.2 t).ret =
      (checkEvaluate policy check s).ret
  | .complex oper negate children, s, t => by
      have hagain := childrenEvaluate_again h oper children .unset s t
      rw [checkEvaluate, bind_ret]
      rw [checkEvaluate, bind_ret, hagain]
  | .simple negate system exports contentRefs, s, t => by
      rw [checkEvaluate]
      exact simpleEvaluate_again h negate system exports contentRefs s t

theorem childrenEvaluate_again (h : policy.Steady) (oper : XccdfBoolOperator) :
    ∀ (children : List XccdfCheck) (ret : XccdfTestResult) (s t : State ι ω),
    (childrenEvaluate policy oper (childrenEvaluate policy oper children ret s).ret.2 ret t).ret =
      (childrenEvaluate policy oper children ret s).ret
  | [], ret, s, t => by
      rw [childrenEvaluate, childrenEvaluate]
  | child :: children, ret, s, t => by
      have hchild := checkEvaluate_again h child s t
      rw [childrenEvaluate, bind_ret]
      generalize checkEvaluate policy child s = o at hchild ⊢
      split
      · rename_i hnone
        rw [childrenEvaluate, bind_ret, hchild, hnone]
      · rename_i res hsome
        have hrest := childrenEvaluate_again h oper children (resolveStep oper ret res) o.state
          (checkEvaluate policy o.ret.2 t).state
        rw [bind_ret, childrenEvaluate, bind_ret, hchild, hsome]
        dsimp only
        rw [bind_ret, hrest]

end

end Again

theorem steady_counting : countingPolicy.Steady := by
  intro engine h
  obtain rfl := List.mem_singleton.mp h
  exact fun _ _ _ _ _ => rfl

/-- A negated check with two contents. -/
def twoContents : XccdfCheck :=
  .complex .and true [.simple false (some "oval") [] [⟨some "x", none⟩, ⟨some "y", none⟩]]

theorem checkEvaluate_again_counting :
    (checkEvaluate countingPolicy
        (checkEvaluate countingPolicy twoContents (policyStart 0 [])).ret.2
        (policyStart 7 [])).ret =
      (checkEvaluate countingPolicy twoContents (policyStart 0 [])).ret :=
  checkEvaluate_again steady_counting twoContents (policyStart 0 []) (policyStart 7 [])

end OpenScap.XccdfEvaluate
