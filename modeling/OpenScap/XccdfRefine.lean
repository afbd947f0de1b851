import OpenScap.XccdfResolve

/-!
# Refine-rules

A profile changes weight, role and severity of rules and groups by its refine-rules.
`xccdf_policy_resolve` writes the changes into the items of the benchmark, all refine-rules
one after another; `xccdf_policy_tailor_item` makes a changed copy of one item, by the first
refine-rule for it.

A weight that is not given is the not-a-number (`none`).

## Main results

* `xccdfPolicyResolve_spec` — what the loop over all refine-rules leaves in an item;
* `tailored_keepsUnmentioned` — the copy keeps what no refine-rule mentions;
* `refineRule_alike_iff` — when the item in the benchmark becomes like the copy.
-/

open KeyedMerge

namespace OpenScap

/-! ### Items -/

/-- What refine-rules are about in an item of a benchmark: a rule, with the selectors of its
checks, a group, or a value. -/
inductive XccdfRefinable
  | rule (weight : Option Rat) (role : XccdfRole) (severity : XccdfLevel)
    (checkSelectors : List (Option String))
  | group (weight : Option Rat)
  | value
  deriving DecidableEq

namespace XccdfRefinable

/-- The weight of a rule or group. -/
def weight : XccdfRefinable → Option Rat
  | rule weight _ _ _ => weight
  | group weight => weight
  | value => none

/-- The role of a rule. -/
def role : XccdfRefinable → XccdfRole
  | rule _ role _ _ => role
  | _ => .unset

/-- The severity of a rule. -/
def severity : XccdfRefinable → XccdfLevel
  | rule _ _ severity _ => severity
  | _ => .notDefined

/-- The selectors of a rule's checks. -/
def checkSelectors : XccdfRefinable → List (Option String)
  | rule _ _ _ selectors => selectors
  | _ => []

/-- Whether an item is a group. -/
def isGroup : XccdfRefinable → Bool
  | group _ => true
  | _ => false

end XccdfRefinable

namespace XccdfRefineRule

/-- The role that a refine-rule gives. -/
def givenRole (r : XccdfRefineRule) : Option XccdfRole :=
  if r.role = .unset then none else some r.role

/-- The severity that a refine-rule gives. -/
def givenSeverity (r : XccdfRefineRule) : Option XccdfLevel :=
  if r.severity = .notDefined then none else some r.severity

/-- `xccdf_refine_rule_weight_defined`. -/
def weightDefined (r : XccdfRefineRule) : Bool := r.weight.isSome

end XccdfRefineRule

/-! ### The two ways -/

/-- `xccdf_policy_resolve`: the items by their ids; the loop ends at a refine-rule of an unknown
id and at one that gives the weight of a group. -/
def xccdfPolicyResolve :
    List XccdfRefineRule → (String → Option XccdfRefinable) →
      Bool × (String → Option XccdfRefinable)
  | [], items => (true, items)
  | r :: refineRules, items =>
      match items r.item with
      | some (.group _) =>
          if r.weightDefined then (false, items)
          else xccdfPolicyResolve refineRules
            (Function.update items r.item (some (.group r.weight)))
      | some (.rule weight role severity selectors) =>
          let role := if r.role ≠ .unset then r.role else role
          let severity := if r.severity ≠ .notDefined then r.severity else severity
          xccdfPolicyResolve refineRules
            (Function.update items r.item (some (.rule weight role severity selectors)))
      | some .value => xccdfPolicyResolve refineRules items
      | none => (false, items)

/-- `xccdf_policy_get_refine_rules_by_rule`. -/
def xccdfPolicyGetRefineRulesByRule (refineRules : List XccdfRefineRule) (id : String) :
    Option XccdfRefineRule :=
  refineRules.find? fun r => r.item = id

/-- `xccdf_policy_tailor_item`, for rules and groups. -/
def xccdfPolicyTailorItem (refineRules : List XccdfRefineRule) (id : String)
    (item : XccdfRefinable) : XccdfRefinable :=
  match item with
  | .rule weight role severity selectors =>
      match xccdfPolicyGetRefineRulesByRule refineRules id with
      | none => item
      | some r =>
          let role := if r.role ≠ .unset then r.role else role
          let severity := if r.severity ≠ .notDefined then r.severity else severity
          let weight := if r.weightDefined then r.weight else weight
          .rule weight role severity selectors
  | .group _ =>
      match xccdfPolicyGetRefineRulesByRule refineRules id with
      | none => item
      | some r => if r.weightDefined then .group r.weight else item
  | .value => item

/-! ### What the loop leaves -/

/-- What one refine-rule writes into an item. -/
def refineItem : XccdfRefinable → XccdfRefineRule → XccdfRefinable
  | .rule weight role severity selectors, r =>
      .rule weight (r.givenRole.getD role) (r.givenSeverity.getD severity) selectors
  | .group _, r => .group r.weight
  | .value, _ => .value

/-- Whether the loop ends at a refine-rule. -/
def stopsAt (items : String → Option XccdfRefinable) (r : XccdfRefineRule) : Bool :=
  match items r.item with
  | none => true
  | some item => item.isGroup && r.weightDefined

/-- The refine-rules that the loop applies. -/
def appliedRules (refineRules : List XccdfRefineRule) (items : String → Option XccdfRefinable) :
    List XccdfRefineRule :=
  refineRules.takeWhile fun r => !stopsAt items r

/-- A refine-rule does not change what an item is. -/
@[simp]
theorem refineItem_isGroup (item : XccdfRefinable) (r : XccdfRefineRule) :
    (refineItem item r).isGroup = item.isGroup := by
  cases item <;> rfl

/-- A role is set where one is given. -/
theorem role_eq_givenRole (r : XccdfRefineRule) (role : XccdfRole) :
    (if r.role ≠ .unset then r.role else role) = r.givenRole.getD role := by
  rw [XccdfRefineRule.givenRole]
  by_cases h : r.role = .unset <;> simp [h]

/-- A severity is set where one is given. -/
theorem severity_eq_givenSeverity (r : XccdfRefineRule) (severity : XccdfLevel) :
    (if r.severity ≠ .notDefined then r.severity else severity) =
      r.givenSeverity.getD severity := by
  rw [XccdfRefineRule.givenSeverity]
  by_cases h : r.severity = .notDefined <;> simp [h]

/-- One step of the loop. -/
theorem xccdfPolicyResolve_cons (r : XccdfRefineRule) (refineRules : List XccdfRefineRule)
    (items : String → Option XccdfRefinable) :
    xccdfPolicyResolve (r :: refineRules) items =
      if stopsAt items r then (false, items)
      else xccdfPolicyResolve refineRules
        (Function.update items r.item ((items r.item).map (refineItem · r))) := by
  rw [xccdfPolicyResolve, stopsAt]
  cases hitem : items r.item with
  | none => rfl
  | some item =>
      cases item with
      | group weight =>
          cases r.weightDefined <;> rfl
      | rule weight role severity selectors =>
          simp only [role_eq_givenRole, severity_eq_givenSeverity]
          rfl
      | value =>
          have hsame : Function.update items r.item (some .value) = items := by
            rw [← hitem, Function.update_eq_self]
          simp only [Option.map_some, refineItem, hsame]
          rfl

/-- A step of the loop does not change where it ends. -/
theorem stopsAt_update (items : String → Option XccdfRefinable) (r : XccdfRefineRule) :
    stopsAt (Function.update items r.item ((items r.item).map (refineItem · r))) =
      stopsAt items := by
  funext other
  rw [stopsAt, stopsAt]
  by_cases h : other.item = r.item
  · rw [h, Function.update_self]
    cases items r.item with
    | none => rfl
    | some item =>
        change ((refineItem item r).isGroup && other.weightDefined) = _
        rw [refineItem_isGroup]
  · rw [Function.update_of_ne h]

/-- **What the loop leaves**: every item is changed by the refine-rules for it before the one
at which the loop ends, and nothing is wrong when there is none. -/
theorem xccdfPolicyResolve_spec (refineRules : List XccdfRefineRule)
    (items : String → Option XccdfRefinable) :
    xccdfPolicyResolve refineRules items = (refineRules.all fun r => !stopsAt items r,
      fun id => (items id).map
        (((appliedRules refineRules items).filter fun r => r.item = id).foldl refineItem)) := by
  induction refineRules generalizing items with
  | nil =>
      rw [xccdfPolicyResolve, appliedRules]
      simp
  | cons r refineRules ih =>
      rw [xccdfPolicyResolve_cons, appliedRules, List.takeWhile_cons, List.all_cons]
      cases hstop : stopsAt items r with
      | true => simp
      | false =>
          rw [if_neg Bool.false_ne_true, ih, appliedRules, stopsAt_update]
          refine Prod.ext rfl (funext fun id => ?_)
          simp only [Bool.not_false, if_true, List.filter_cons, decide_eq_true_eq]
          by_cases hid : r.item = id
          · subst hid
            rw [if_pos rfl, Function.update_self, Option.map_map]
            rfl
          · rw [if_neg hid, Function.update_of_ne (Ne.symm hid)]

/-- Refine-rules leave in a rule the last role and the last severity that they give. -/
theorem foldl_refineItem_rule (l : List XccdfRefineRule) (weight : Option Rat)
    (role : XccdfRole) (severity : XccdfLevel) (selectors : List (Option String)) :
    l.foldl refineItem (.rule weight role severity selectors) =
      .rule weight ((l.filterMap XccdfRefineRule.givenRole).getLast?.getD role)
        ((l.filterMap XccdfRefineRule.givenSeverity).getLast?.getD severity) selectors := by
  rw [← foldl_last_given, ← foldl_last_given]
  induction l generalizing role severity with
  | nil => rfl
  | cons r l ih => rw [List.foldl_cons, List.foldl_cons, List.foldl_cons, refineItem, ih]

/-- Refine-rules that give no weight leave a group without one. -/
theorem foldl_refineItem_group {l : List XccdfRefineRule} (hl : ∀ r ∈ l, r.weight = none)
    (weight : Option Rat) :
    l.foldl refineItem (.group weight) = .group (if l = [] then weight else none) := by
  induction l generalizing weight with
  | nil => rfl
  | cons r l ih =>
      have hr := hl r List.mem_cons_self
      rw [List.foldl_cons, refineItem, ih fun x hx => hl x (List.mem_cons_of_mem r hx), hr,
        ite_self, if_neg (List.cons_ne_nil r l)]

/-- The refine-rules that are applied to a group give no weight. -/
theorem weight_of_appliedRules {refineRules : List XccdfRefineRule}
    {items : String → Option XccdfRefinable} {id : String} {weight : Option Rat}
    (hitem : items id = some (.group weight)) :
    ∀ r ∈ (appliedRules refineRules items).filter fun r => r.item = id, r.weight = none := by
  intro r hr
  obtain ⟨happlied, hid⟩ := List.mem_filter.mp hr
  have hgo := List.all_eq_true.mp List.all_takeWhile r happlied
  rw [stopsAt, of_decide_eq_true hid, hitem] at hgo
  simpa [XccdfRefinable.isGroup, XccdfRefineRule.weightDefined] using hgo

/-! ### Both ways alike -/

/-- Whether an attribute that no refine-rule for an item mentions is the item's own. -/
structure KeepsUnmentioned (refineRules : List XccdfRefineRule) (id : String)
    (own item : XccdfRefinable) : Prop where
  weight : (∀ r ∈ refineRules, r.item = id → r.weightDefined = false) → item.weight = own.weight
  role : (∀ r ∈ refineRules, r.item = id → r.role = .unset) → item.role = own.role
  severity : (∀ r ∈ refineRules, r.item = id → r.severity = .notDefined) →
    item.severity = own.severity
  checkSelectors : (∀ r ∈ refineRules, r.item = id → r.selector = none) →
    item.checkSelectors = own.checkSelectors

/-- Whether an item of the benchmark becomes like its tailored copy, and both keep what no
refine-rule mentions. -/
def RefinedAlike (refineRules : List XccdfRefineRule) (items : String → Option XccdfRefinable)
    (id : String) (item : XccdfRefinable) : Prop :=
  ∃ resolved, (xccdfPolicyResolve refineRules items).2 id = some resolved ∧
    resolved.weight = (xccdfPolicyTailorItem refineRules id item).weight ∧
    resolved.role = (xccdfPolicyTailorItem refineRules id item).role ∧
    resolved.severity = (xccdfPolicyTailorItem refineRules id item).severity ∧
    resolved.checkSelectors = (xccdfPolicyTailorItem refineRules id item).checkSelectors ∧
    KeepsUnmentioned refineRules id item resolved ∧
    KeepsUnmentioned refineRules id item (xccdfPolicyTailorItem refineRules id item)

/-- When the two ways agree: on the first refine-rule for the item, and on the last ones that
give a role and a severity before the loop ends. -/
def RefinesOnce (refineRules : List XccdfRefineRule) (items : String → Option XccdfRefinable)
    (id : String) (item : XccdfRefinable) : Prop :=
  let first := refineRules.find? fun r => r.item = id
  let applied := (appliedRules refineRules items).filter fun r => r.item = id
  match item with
  | .rule weight role severity _ =>
      (∀ r ∈ first, r.weight = none ∨ r.weight = weight) ∧
        (applied.filterMap XccdfRefineRule.givenRole).getLast?.getD role =
          (first.bind XccdfRefineRule.givenRole).getD role ∧
        (applied.filterMap XccdfRefineRule.givenSeverity).getLast?.getD severity =
          (first.bind XccdfRefineRule.givenSeverity).getD severity
  | .group weight => ∀ r ∈ first, r.weight = weight ∨ r.weight = none ∧ applied = []
  | .value => True

/-- The copy of a rule. -/
theorem xccdfPolicyTailorItem_rule (refineRules : List XccdfRefineRule) (id : String)
    (weight : Option Rat) (role : XccdfRole) (severity : XccdfLevel)
    (selectors : List (Option String)) :
    xccdfPolicyTailorItem refineRules id (.rule weight role severity selectors) =
      let first := refineRules.find? fun r => r.item = id
      .rule ((first.bind XccdfRefineRule.weight).or weight)
        ((first.bind XccdfRefineRule.givenRole).getD role)
        ((first.bind XccdfRefineRule.givenSeverity).getD severity) selectors := by
  rw [xccdfPolicyTailorItem, xccdfPolicyGetRefineRulesByRule]
  cases refineRules.find? fun r => r.item = id with
  | none => rfl
  | some r =>
      have hweight : (if r.weightDefined then r.weight else weight) = r.weight.or weight := by
        rw [XccdfRefineRule.weightDefined]
        cases r.weight <;> rfl
      simp only [role_eq_givenRole, severity_eq_givenSeverity, hweight]
      rfl

/-- The copy of a group. -/
theorem xccdfPolicyTailorItem_group (refineRules : List XccdfRefineRule) (id : String)
    (weight : Option Rat) :
    xccdfPolicyTailorItem refineRules id (.group weight) =
      .group (((refineRules.find? fun r => r.item = id).bind XccdfRefineRule.weight).or
        weight) := by
  rw [xccdfPolicyTailorItem, xccdfPolicyGetRefineRulesByRule]
  cases refineRules.find? fun r => r.item = id with
  | none => rfl
  | some r =>
      obtain ⟨idref, selector, role, severity, given⟩ := r
      cases given <;> rfl

/-- **The copy keeps what no refine-rule mentions.** -/
theorem tailored_keepsUnmentioned (refineRules : List XccdfRefineRule) (id : String)
    (item : XccdfRefinable) :
    KeepsUnmentioned refineRules id item (xccdfPolicyTailorItem refineRules id item) := by
  have hfirst : ∀ r, (refineRules.find? fun r => r.item = id) = some r →
      r ∈ refineRules ∧ r.item = id := fun r hr =>
    ⟨List.mem_of_find?_eq_some hr, by simpa using List.find?_some hr⟩
  cases item with
  | value => exact ⟨fun _ => rfl, fun _ => rfl, fun _ => rfl, fun _ => rfl⟩
  | group weight =>
      rw [xccdfPolicyTailorItem_group]
      cases hf : refineRules.find? fun r => r.item = id with
      | none => exact ⟨fun _ => rfl, fun _ => rfl, fun _ => rfl, fun _ => rfl⟩
      | some r =>
          obtain ⟨hmem, hid⟩ := hfirst r hf
          refine ⟨fun h => ?_, fun _ => rfl, fun _ => rfl, fun _ => rfl⟩
          have hnone : r.weight = none := by
            simpa [XccdfRefineRule.weightDefined] using h r hmem hid
          simp [XccdfRefinable.weight, hnone]
  | rule weight role severity selectors =>
      rw [xccdfPolicyTailorItem_rule]
      cases hf : refineRules.find? fun r => r.item = id with
      | none => exact ⟨fun _ => rfl, fun _ => rfl, fun _ => rfl, fun _ => rfl⟩
      | some r =>
          obtain ⟨hmem, hid⟩ := hfirst r hf
          refine ⟨fun h => ?_, fun h => ?_, fun h => ?_, fun _ => rfl⟩
          · have hnone : r.weight = none := by
              simpa [XccdfRefineRule.weightDefined] using h r hmem hid
            simp [XccdfRefinable.weight, hnone]
          · simp [XccdfRefinable.role, XccdfRefineRule.givenRole, h r hmem hid]
          · simp [XccdfRefinable.severity, XccdfRefineRule.givenSeverity, h r hmem hid]

/-- A group's weight is the same in both ways. -/
theorem group_weight_alike_iff {refineRules : List XccdfRefineRule}
    {items : String → Option XccdfRefinable} {id : String} {weight : Option Rat}
    (hitem : items id = some (.group weight)) :
    (if ((appliedRules refineRules items).filter fun r => r.item = id) = [] then weight
      else none) =
        ((refineRules.find? fun r => r.item = id).bind XccdfRefineRule.weight).or weight ↔
      RefinesOnce refineRules items id (.group weight) := by
  rw [RefinesOnce]
  have hprefix : ((appliedRules refineRules items).filter fun r => r.item = id) <+:
      refineRules.filter fun r => r.item = id :=
    (List.takeWhile_prefix _).filter _
  have hnone : ∀ r ∈ (appliedRules refineRules items).filter fun r => r.item = id,
      r.weight = none := weight_of_appliedRules hitem
  rw [← List.head?_filter]
  generalize ((appliedRules refineRules items).filter fun r => r.item = id) = applied at *
  generalize (refineRules.filter fun r => r.item = id) = own at *
  cases own with
  | nil =>
      rw [List.prefix_nil.mp hprefix]
      simp
  | cons r own =>
      simp only [List.head?_cons, Option.bind_some, Option.mem_def, Option.some.injEq,
        forall_eq']
      cases applied with
      | nil =>
          rw [if_pos rfl]
          cases r.weight <;> simp [eq_comm]
      | cons s applied =>
          obtain ⟨rfl, -⟩ := List.cons_prefix_cons.mp hprefix
          rw [if_neg (List.cons_ne_nil _ _), hnone s List.mem_cons_self]
          simp

/-- Items are refined alike when all attributes are the same: what no refine-rule mentions is
then kept as the copy keeps it. -/
theorem refinedAlike_iff {refineRules : List XccdfRefineRule}
    {items : String → Option XccdfRefinable} {id : String} {item : XccdfRefinable}
    (hitem : items id = some item) :
    RefinedAlike refineRules items id item ↔
      let resolved := ((appliedRules refineRules items).filter fun r => r.item = id).foldl
        refineItem item
      let tailored := xccdfPolicyTailorItem refineRules id item
      resolved.weight = tailored.weight ∧ resolved.role = tailored.role ∧
        resolved.severity = tailored.severity ∧
        resolved.checkSelectors = tailored.checkSelectors := by
  rw [RefinedAlike, xccdfPolicyResolve_spec]
  simp only [hitem, Option.map_some, Option.some.injEq, exists_eq_left']
  have hkeeps := tailored_keepsUnmentioned refineRules id item
  constructor
  · rintro ⟨hweight, hrole, hseverity, hselectors, -⟩
    exact ⟨hweight, hrole, hseverity, hselectors⟩
  · rintro ⟨hweight, hrole, hseverity, hselectors⟩
    exact ⟨hweight, hrole, hseverity, hselectors,
      ⟨fun h => hweight.trans (hkeeps.weight h), fun h => hrole.trans (hkeeps.role h),
        fun h => hseverity.trans (hkeeps.severity h),
        fun h => hselectors.trans (hkeeps.checkSelectors h)⟩, hkeeps⟩

/-- **Refine-rules change the item in the benchmark and its copy alike** exactly when the first
refine-rule for it says what all of them do. -/
theorem refineRule_alike_iff (refineRules : List XccdfRefineRule)
    (items : String → Option XccdfRefinable) (id : String) (item : XccdfRefinable)
    (hitem : items id = some item) :
    RefinedAlike refineRules items id item ↔ RefinesOnce refineRules items id item := by
  rw [refinedAlike_iff hitem]
  cases item with
  | value =>
      have hfold : ∀ l : List XccdfRefineRule, l.foldl refineItem .value = .value := by
        intro l
        induction l with
        | nil => rfl
        | cons r l ih => rw [List.foldl_cons, refineItem, ih]
      exact iff_of_true ⟨congrArg _ (hfold _), congrArg _ (hfold _), congrArg _ (hfold _),
        congrArg _ (hfold _)⟩ trivial
  | group weight =>
      rw [← group_weight_alike_iff hitem,
        foldl_refineItem_group (weight_of_appliedRules hitem) weight, xccdfPolicyTailorItem_group]
      exact and_iff_left ⟨rfl, rfl, rfl⟩
  | rule weight role severity selectors =>
      rw [foldl_refineItem_rule, xccdfPolicyTailorItem_rule]
      simp only [XccdfRefinable.weight, XccdfRefinable.role, XccdfRefinable.severity,
        XccdfRefinable.checkSelectors, and_true, RefinesOnce]
      refine and_congr_left fun _ => ?_
      cases refineRules.find? fun r => r.item = id with
      | none => simp
      | some r =>
          obtain ⟨idref, selector, _, _, given⟩ := r
          cases given <;> simp [eq_comm]

/-- A benchmark that consists of a group. -/
def oneGroup : String → Option XccdfRefinable :=
  Function.update (fun _ => none) "g" (some (.group (some 1)))

/-- A refine-rule for a group that gives no weight takes the group's own one away, and the copy
keeps it. -/
theorem not_refinedAlike :
    ¬ ∀ (refineRules : List XccdfRefineRule) (items : String → Option XccdfRefinable)
      (id : String) (item : XccdfRefinable), items id = some item →
        RefinedAlike refineRules items id item := by
  intro h
  obtain ⟨resolved, hresolved, hweight, -⟩ :=
    h [⟨"g", some "s", .unset, .notDefined, none⟩] oneGroup "g" (.group (some 1)) (by decide)
  obtain rfl : XccdfRefinable.group none = resolved :=
    Option.some.inj ((by decide : (some (XccdfRefinable.group none)) = _).trans hresolved)
  exact absurd hweight (by decide)

/-- Without refine-rules they are alike. -/
theorem refineRule_alike_iff_none :
    RefinedAlike [] oneGroup "g" (.group (some 1)) :=
  (refineRule_alike_iff [] oneGroup "g" (.group (some 1)) (by decide)).mpr (by
    intro r hr
    cases hr)

end OpenScap
