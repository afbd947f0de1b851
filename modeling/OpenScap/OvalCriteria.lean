import OpenScap.InfoOrder
import OpenScap.OvalTest

/-!
# Evaluating OVAL definitions

A definition holds a criteria: a tree whose inner nodes combine their subnodes by an
operator, and whose leaves name a test or extend another definition, each with an
optional negation. Nodes and definitions memoize their results like the tests do: the
result NOT_EVALUATED means that there is none yet.
-/

open InfoOrder

namespace OpenScap

/-! ### Criteria -/

mutual

/-- `struct oval_result_criteria_node`, over the type `τ` of test references. A criterion
or extend_definition node holds what it refers to; a definition extended in several
places is repeated there. -/
inductive CriteriaNode (τ : Type) where
  | criteria (result : OvalResult) (negate : Bool) (operator : OvalOperator)
      (subnodes : List (CriteriaNode τ))
  | criterion (result : OvalResult) (negate : Bool) (test : τ)
  | extenddef (result : OvalResult) (negate : Bool) (extends_ : ResultDefinition τ)

/-- `struct oval_result_definition`; a definition may lack a criteria. -/
inductive ResultDefinition (τ : Type) where
  | mk (result : OvalResult) (criteria : Option (CriteriaNode τ))

end

/-- `_oval_result_negate`. -/
def ovalResultNegate (negate : Bool) (result : OvalResult) : OvalResult :=
  if negate ∧ result = .true then .false
  else if negate ∧ result = .false then .true
  else result

section Evaluation

variable {τ σ : Type} (testEval : τ → σ → OvalResult × σ)

mutual

/-- `oval_result_criteria_node_eval`, with `_oval_result_criteria_node_result` inlined:
the result, the node after the call, and the state of the tests. -/
def ovalResultCriteriaNodeEval : CriteriaNode τ → σ → OvalResult × CriteriaNode τ × σ
  | .criteria result negate operator subnodes, s =>
      if result = .notEvaluated then
        let (ores, subnodes', s') := subnodesEval subnodes oresClear s
        let result' := ovalResultNegate negate (oresGetResultByopr ores operator)
        (result', .criteria result' negate operator subnodes', s')
      else (result, .criteria result negate operator subnodes, s)
  | .criterion result negate test, s =>
      if result = .notEvaluated then
        let (subres, s') := testEval test s
        let result' := ovalResultNegate negate subres
        (result', .criterion result' negate test, s')
      else (result, .criterion result negate test, s)
  | .extenddef result negate extends_, s =>
      if result = .notEvaluated then
        let (subres, extends', s') := ovalResultDefinitionEval extends_ s
        let result' := ovalResultNegate negate subres
        (result', .extenddef result' negate extends', s')
      else (result, .extenddef result negate extends_, s)

/-- The loop over the subnodes of a criteria. -/
def subnodesEval : List (CriteriaNode τ) → Oresults → σ →
    Oresults × List (CriteriaNode τ) × σ
  | [], ores, s => (ores, [], s)
  | node :: nodes, ores, s =>
      let (subres, node', s') := ovalResultCriteriaNodeEval node s
      let (ores', nodes', s'') := subnodesEval nodes (oresAddRes ores subres) s'
      (ores', node' :: nodes', s'')

/-- `oval_result_definition_eval`. -/
def ovalResultDefinitionEval : ResultDefinition τ → σ →
    OvalResult × ResultDefinition τ × σ
  | .mk result none, s =>
      if result = .notEvaluated then (.error, .mk .error none, s)
      else (result, .mk result none, s)
  | .mk result (some criteria), s =>
      if result = .notEvaluated then
        let (result', criteria', s') := ovalResultCriteriaNodeEval criteria s
        (result', .mk result' (some criteria'), s')
      else (result, .mk result (some criteria), s)

end

end Evaluation

/-! ### The value of a tree -/

section Value

variable {τ σ : Type} (assign : τ → OvalResult)

mutual

/-- What a node evaluates to when each test has the result that `assign` gives it: the
evaluation without its memos. -/
def CriteriaNode.value : CriteriaNode τ → OvalResult
  | .criteria _ negate operator subnodes =>
      ovalResultNegate negate (oresGetResultByopr (oresOfList (values subnodes)) operator)
  | .criterion _ negate test => ovalResultNegate negate (assign test)
  | .extenddef _ negate extends_ => ovalResultNegate negate extends_.value

/-- The values of the subnodes of a criteria. -/
def values : List (CriteriaNode τ) → List OvalResult
  | [] => []
  | node :: nodes => node.value :: values nodes

/-- What a definition evaluates to. -/
def ResultDefinition.value : ResultDefinition τ → OvalResult
  | .mk _ none => .error
  | .mk _ (some criteria) => criteria.value

end

mutual

/-- Every memo below the node is the value of its node, or there is none yet. -/
def CriteriaNode.Consistent : CriteriaNode τ → Prop
  | .criteria result negate operator subnodes =>
      (result = .notEvaluated ∨
        result = (CriteriaNode.criteria result negate operator subnodes).value assign) ∧
      ConsistentList subnodes
  | .criterion result negate test =>
      result = .notEvaluated ∨
        result = (CriteriaNode.criterion result negate test).value assign
  | .extenddef result negate extends_ =>
      (result = .notEvaluated ∨
        result = (CriteriaNode.extenddef result negate extends_).value assign) ∧
      extends_.Consistent

/-- Every memo below the nodes is right. -/
def ConsistentList : List (CriteriaNode τ) → Prop
  | [] => True
  | node :: nodes => node.Consistent ∧ ConsistentList nodes

/-- Every memo of the definition is right. -/
def ResultDefinition.Consistent : ResultDefinition τ → Prop
  | .mk result none =>
      result = .notEvaluated ∨
        result = (ResultDefinition.mk result none : ResultDefinition τ).value assign
  | .mk result (some criteria) =>
      (result = .notEvaluated ∨
        result = (ResultDefinition.mk result (some criteria)).value assign) ∧
      criteria.Consistent

end

mutual

/-- A tree as it is built: no node and no definition has a result yet. -/
def CriteriaNode.Fresh : CriteriaNode τ → Prop
  | .criteria result _ _ subnodes => result = .notEvaluated ∧ FreshList subnodes
  | .criterion result _ _ => result = .notEvaluated
  | .extenddef result _ extends_ => result = .notEvaluated ∧ extends_.Fresh

/-- No node below the nodes has a result yet. -/
def FreshList : List (CriteriaNode τ) → Prop
  | [] => True
  | node :: nodes => node.Fresh ∧ FreshList nodes

/-- A definition as it is built. -/
def ResultDefinition.Fresh : ResultDefinition τ → Prop
  | .mk result none => result = .notEvaluated
  | .mk result (some criteria) => result = .notEvaluated ∧ criteria.Fresh

end

mutual

/-- A fresh tree has no wrong memo, whatever the results of the tests. -/
theorem CriteriaNode.Fresh.consistent : ∀ {node : CriteriaNode τ},
    node.Fresh → node.Consistent assign
  | .criteria _ _ _ _, h => by
      simp only [CriteriaNode.Fresh] at h
      simp only [CriteriaNode.Consistent]
      exact ⟨Or.inl h.1, FreshList.consistent h.2⟩
  | .criterion _ _ _, h => by
      simp only [CriteriaNode.Fresh] at h
      simp only [CriteriaNode.Consistent]
      exact Or.inl h
  | .extenddef _ _ _, h => by
      simp only [CriteriaNode.Fresh] at h
      simp only [CriteriaNode.Consistent]
      exact ⟨Or.inl h.1, ResultDefinition.Fresh.consistent h.2⟩

theorem FreshList.consistent : ∀ {nodes : List (CriteriaNode τ)},
    FreshList nodes → ConsistentList assign nodes
  | [], _ => by simp only [ConsistentList]
  | _ :: _, h => by
      simp only [FreshList] at h
      simp only [ConsistentList]
      exact ⟨h.1.consistent, FreshList.consistent h.2⟩

theorem ResultDefinition.Fresh.consistent : ∀ {definition : ResultDefinition τ},
    definition.Fresh → definition.Consistent assign
  | .mk _ none, h => by
      simp only [ResultDefinition.Fresh] at h
      simp only [ResultDefinition.Consistent]
      exact Or.inl h
  | .mk _ (some _), h => by
      simp only [ResultDefinition.Fresh] at h
      simp only [ResultDefinition.Consistent]
      exact ⟨Or.inl h.1, h.2.consistent⟩

end

end Value

/-! ### Evaluation yields the value -/

section Correct

variable {τ σ : Type} {testEval : τ → σ → OvalResult × σ} {assign : τ → OvalResult}
  {Inv : σ → Prop}

/-- The tests answer as `assign` says, in every state of `Inv` and without leaving it. -/
def Answers (testEval : τ → σ → OvalResult × σ) (assign : τ → OvalResult)
    (Inv : σ → Prop) : Prop :=
  ∀ t s, Inv s → (testEval t s).1 = assign t ∧ Inv (testEval t s).2

mutual

/-- **Evaluation yields the value of a node**, and leaves a node of the same value whose
memos are right, so that the next evaluation yields it again. -/
theorem nodeEval_value (h : Answers testEval assign Inv) : ∀ {node : CriteriaNode τ} {s : σ},
    node.Consistent assign → Inv s →
      (ovalResultCriteriaNodeEval testEval node s).1 = node.value assign ∧
      (ovalResultCriteriaNodeEval testEval node s).2.1.value assign = node.value assign ∧
      (ovalResultCriteriaNodeEval testEval node s).2.1.Consistent assign ∧
      Inv (ovalResultCriteriaNodeEval testEval node s).2.2
  | .criteria result negate operator subnodes, s, hc, hs => by
      simp only [CriteriaNode.Consistent] at hc
      obtain ⟨hmemo, hsub⟩ := hc
      by_cases hres : result = .notEvaluated
      · obtain ⟨hores, hvalues, hcons, hinv⟩ := subnodesEval_value h oresClear hsub hs
        simp only [ovalResultCriteriaNodeEval, hres, if_true, CriteriaNode.value,
          CriteriaNode.Consistent, hores, hvalues, oresOfList, or_true, true_and]
        exact ⟨hcons, hinv⟩
      · have hvalue := hmemo.resolve_left hres
        simp only [ovalResultCriteriaNodeEval, hres, if_false, CriteriaNode.Consistent]
        exact ⟨hvalue, trivial, ⟨Or.inr hvalue, hsub⟩, hs⟩
  | .criterion result negate test, s, hc, hs => by
      simp only [CriteriaNode.Consistent] at hc
      by_cases hres : result = .notEvaluated
      · obtain ⟨htest, hinv⟩ := h test s hs
        simp only [ovalResultCriteriaNodeEval, hres, if_true, CriteriaNode.value,
          CriteriaNode.Consistent, htest, or_true, true_and]
        exact hinv
      · have hvalue := hc.resolve_left hres
        simp only [ovalResultCriteriaNodeEval, hres, if_false, CriteriaNode.Consistent]
        exact ⟨hvalue, trivial, Or.inr hvalue, hs⟩
  | .extenddef result negate extends_, s, hc, hs => by
      simp only [CriteriaNode.Consistent] at hc
      obtain ⟨hmemo, hext⟩ := hc
      by_cases hres : result = .notEvaluated
      · obtain ⟨hdef, hvalue, hcons, hinv⟩ := definitionEval_value h hext hs
        simp only [ovalResultCriteriaNodeEval, hres, if_true, CriteriaNode.value,
          CriteriaNode.Consistent, hdef, hvalue, or_true, true_and]
        exact ⟨hcons, hinv⟩
      · have hvalue := hmemo.resolve_left hres
        simp only [ovalResultCriteriaNodeEval, hres, if_false, CriteriaNode.Consistent]
        exact ⟨hvalue, trivial, ⟨Or.inr hvalue, hext⟩, hs⟩

theorem subnodesEval_value (h : Answers testEval assign Inv) :
    ∀ {nodes : List (CriteriaNode τ)} (ores : Oresults) {s : σ},
    ConsistentList assign nodes → Inv s →
      (subnodesEval testEval nodes ores s).1 = (values assign nodes).foldl oresAddRes ores ∧
      values assign (subnodesEval testEval nodes ores s).2.1 = values assign nodes ∧
      ConsistentList assign (subnodesEval testEval nodes ores s).2.1 ∧
      Inv (subnodesEval testEval nodes ores s).2.2
  | [], ores, s, hc, hs => by
      simp only [subnodesEval, values, ConsistentList, List.foldl_nil, true_and]
      exact hs
  | node :: nodes, ores, s, hc, hs => by
      simp only [ConsistentList] at hc
      obtain ⟨hres, hvalue, hcons, hinv⟩ := nodeEval_value h hc.1 hs
      obtain ⟨hores', hvalues', hcons', hinv'⟩ := subnodesEval_value h
        (oresAddRes ores (node.value assign)) hc.2 hinv
      simp only [subnodesEval, values, ConsistentList, List.foldl_cons, hres, hvalue,
        hores', hvalues', true_and]
      exact ⟨⟨hcons, hcons'⟩, hinv'⟩

theorem definitionEval_value (h : Answers testEval assign Inv) :
    ∀ {definition : ResultDefinition τ} {s : σ},
    definition.Consistent assign → Inv s →
      (ovalResultDefinitionEval testEval definition s).1 = definition.value assign ∧
      (ovalResultDefinitionEval testEval definition s).2.1.value assign =
        definition.value assign ∧
      (ovalResultDefinitionEval testEval definition s).2.1.Consistent assign ∧
      Inv (ovalResultDefinitionEval testEval definition s).2.2
  | .mk result none, s, hc, hs => by
      simp only [ResultDefinition.Consistent, ResultDefinition.value] at hc
      by_cases hres : result = .notEvaluated
      · simp only [ovalResultDefinitionEval, hres, if_true, ResultDefinition.value,
          ResultDefinition.Consistent, or_true, true_and]
        exact hs
      · have hvalue := hc.resolve_left hres
        simp only [ovalResultDefinitionEval, hres, if_false, ResultDefinition.value,
          ResultDefinition.Consistent, true_and]
        exact ⟨hvalue, Or.inr hvalue, hs⟩
  | .mk result (some criteria), s, hc, hs => by
      simp only [ResultDefinition.Consistent] at hc
      obtain ⟨hmemo, hcrit⟩ := hc
      by_cases hres : result = .notEvaluated
      · obtain ⟨hnode, hvalue, hcons, hinv⟩ := nodeEval_value h hcrit hs
        simp only [ovalResultDefinitionEval, hres, if_true, ResultDefinition.value,
          ResultDefinition.Consistent, hnode, hvalue, or_true, true_and]
        exact ⟨hcons, hinv⟩
      · have hvalue := hmemo.resolve_left hres
        simp only [ovalResultDefinitionEval, hres, if_false, ResultDefinition.Consistent]
        exact ⟨hvalue, trivial, ⟨Or.inr hvalue, hcrit⟩, hs⟩

end

end Correct

/-! ### Undetermined results -/

/-- The results that may still become another one when more is known. -/
def Undetermined (result : OvalResult) : Prop :=
  result = .error ∨ result = .unknown ∨ result = .notEvaluated

instance (result : OvalResult) : Decidable (Undetermined result) := by
  unfold Undetermined
  infer_instance

/-- The information order on results. A test that was applicable stays so: an
undetermined result never becomes NOT_APPLICABLE. -/
abbrev ResultRefines : OvalResult → OvalResult → Prop :=
  Refines Undetermined (· = .notApplicable)

/-- A negation keeps the order. -/
theorem ovalResultNegate_refines {a b : OvalResult} (negate : Bool) (h : ResultRefines a b) :
    ResultRefines (ovalResultNegate negate a) (ovalResultNegate negate b) := by
  rcases h with rfl | ⟨hopen, hfixed⟩
  · exact Refines.refl _
  · refine Or.inr ⟨?_, ?_⟩
    · rcases hopen with rfl | rfl | rfl <;> cases negate <;> decide
    · cases b <;> cases negate <;> simp_all [ovalResultNegate]

/-- An operator reads NOT_APPLICABLE when nothing but not-applicable results was
counted. -/
theorem byopr_eq_notApplicable_iff (operator : OvalOperator) (ores : Oresults) :
    oresGetResultByopr ores operator = .notApplicable ↔
      0 < ores.notapplCnt ∧ ores.trueCnt = 0 ∧ ores.falseCnt = 0 ∧ ores.errorCnt = 0 ∧
        ores.unknownCnt = 0 ∧ ores.notevalCnt = 0 := by
  obtain ⟨t, f, u, e, ne, na⟩ := ores
  cases operator <;> simp only [oresGetResultByopr, oresGetResultGuarded] <;> split_ifs <;>
    simp only [true_iff, false_iff] <;> omega

/-- When an operator reads TRUE or FALSE in spite of undetermined results, one false
result has decided AND, one true result OR, or two true results ONE. -/
theorem byopr_settled_cases {operator : OvalOperator} {ores : Oresults}
    (h : oresGetResultByopr ores operator = .true ∨ oresGetResultByopr ores operator = .false) :
    (ores.errorCnt = 0 ∧ ores.unknownCnt = 0 ∧ ores.notevalCnt = 0) ∨
      operator = .and ∧ 0 < ores.falseCnt ∨ operator = .or ∧ 0 < ores.trueCnt ∨
      operator = .one ∧ 2 ≤ ores.trueCnt := by
  obtain ⟨t, f, u, e, ne, na⟩ := ores
  revert h
  cases operator <;> simp only [oresGetResultByopr, oresGetResultGuarded] <;> split_ifs <;>
    simp (disch := omega) <;> omega

/-- A false result decides AND. -/
theorem byopr_and_of_false {ores : Oresults} (h : 0 < ores.falseCnt) :
    oresGetResultByopr ores .and = .false := by
  simp [oresGetResultByopr, oresGetResultGuarded, h, Nat.ne_of_gt h]

/-- A true result decides OR. -/
theorem byopr_or_of_true {ores : Oresults} (h : 0 < ores.trueCnt) :
    oresGetResultByopr ores .or = .true := by
  simp [oresGetResultByopr, oresGetResultGuarded, h, Nat.ne_of_gt h]

/-- Two true results decide ONE. -/
theorem byopr_one_of_two_true {ores : Oresults} (h : 2 ≤ ores.trueCnt) :
    oresGetResultByopr ores .one = .false := by
  have h0 : ores.trueCnt ≠ 0 := by omega
  have h1 : ores.trueCnt ≠ 1 := by omega
  simp [oresGetResultByopr, oresGetResultGuarded, h, h0, h1]

/-- **The operators are monotone in the information order.** -/
theorem byopr_refines {results results' : List OvalResult}
    (h : List.Forall₂ ResultRefines results results') (operator : OvalOperator) :
    ResultRefines (oresGetResultByopr (oresOfList results) operator)
      (oresGetResultByopr (oresOfList results') operator) := by
  have settled_eq (ho : (oresOfList results).errorCnt = 0 ∧
      (oresOfList results).unknownCnt = 0 ∧ (oresOfList results).notevalCnt = 0) :
      results = results' := by
    simp only [oresOfList_eq, List.count_eq_zero] at ho
    obtain ⟨he, hu, hne⟩ := ho
    apply eq_of_not_open h
    rintro r hr (rfl | rfl | rfl)
    · exact he hr
    · exact hu hr
    · exact hne hr
  have count_true_le : (oresOfList results).trueCnt ≤ (oresOfList results').trueCnt := by
    simp only [oresOfList_eq]
    exact count_le h (by decide)
  have count_false_le : (oresOfList results).falseCnt ≤ (oresOfList results').falseCnt := by
    simp only [oresOfList_eq]
    exact count_le h (by decide)
  by_cases hsettled : oresGetResultByopr (oresOfList results) operator = .true ∨
      oresGetResultByopr (oresOfList results) operator = .false
  · left
    rcases byopr_settled_cases hsettled with ho | ⟨rfl, hf⟩ | ⟨rfl, ht⟩ | ⟨rfl, ht⟩
    · rw [settled_eq ho]
    · rw [byopr_and_of_false hf, byopr_and_of_false (Nat.lt_of_lt_of_le hf count_false_le)]
    · rw [byopr_or_of_true ht, byopr_or_of_true (Nat.lt_of_lt_of_le ht count_true_le)]
    · rw [byopr_one_of_two_true ht, byopr_one_of_two_true (Nat.le_trans ht count_true_le)]
  · by_cases hna : oresGetResultByopr (oresOfList results) operator = .notApplicable
    · left
      have htally := (byopr_eq_notApplicable_iff operator _).mp hna
      rw [settled_eq ⟨htally.2.2.2.1, htally.2.2.2.2.1, htally.2.2.2.2.2⟩]
    · by_cases hna' : oresGetResultByopr (oresOfList results') operator = .notApplicable
      · left
        have htally := (byopr_eq_notApplicable_iff operator _).mp hna'
        simp only [oresOfList_eq, List.count_eq_zero] at htally
        obtain ⟨-, ht, hf, he, hu, hne⟩ := htally
        have hfixed : ∀ r ∈ results', r = .notApplicable := by
          intro r hr
          cases r with
          | notApplicable => rfl
          | true => exact absurd hr ht
          | false => exact absurd hr hf
          | error => exact absurd hr he
          | unknown => exact absurd hr hu
          | notEvaluated => exact absurd hr hne
        rw [eq_of_fixed h hfixed]
      · right
        refine ⟨?_, hna'⟩
        unfold Undetermined
        cases hres : oresGetResultByopr (oresOfList results) operator <;> simp_all

section Kleene

variable {τ : Type} {assign assign' : τ → OvalResult}

mutual

/-- **The value of a tree is monotone in the results of its tests.** -/
theorem CriteriaNode.value_refines (h : ∀ t, ResultRefines (assign t) (assign' t)) :
    ∀ node : CriteriaNode τ, ResultRefines (node.value assign) (node.value assign')
  | .criteria _ negate operator subnodes => by
      simp only [CriteriaNode.value]
      exact ovalResultNegate_refines negate (byopr_refines (values_refine h subnodes) operator)
  | .criterion _ negate test => by
      simp only [CriteriaNode.value]
      exact ovalResultNegate_refines negate (h test)
  | .extenddef _ negate extends_ => by
      simp only [CriteriaNode.value]
      exact ovalResultNegate_refines negate (extends_.value_refines h)

theorem values_refine (h : ∀ t, ResultRefines (assign t) (assign' t)) :
    ∀ nodes : List (CriteriaNode τ),
      List.Forall₂ ResultRefines (values assign nodes) (values assign' nodes)
  | [] => by
      simp only [values]
      exact List.Forall₂.nil
  | node :: nodes => by
      simp only [values]
      exact List.Forall₂.cons (node.value_refines h) (values_refine h nodes)

theorem ResultDefinition.value_refines (h : ∀ t, ResultRefines (assign t) (assign' t)) :
    ∀ definition : ResultDefinition τ,
      ResultRefines (definition.value assign) (definition.value assign')
  | .mk _ none => by
      simp only [ResultDefinition.value]
      exact Refines.refl _
  | .mk _ (some criteria) => by
      simp only [ResultDefinition.value]
      exact criteria.value_refines h

end

/-- The evaluation of a definition whose tests have the results of `assign`. -/
def evalUnder (assign : τ → OvalResult) (definition : ResultDefinition τ) : OvalResult :=
  (ovalResultDefinitionEval (fun t s => (assign t, s)) definition ()).1

/-- Evaluating a fresh definition under an assignment yields its value. -/
theorem evalUnder_eq_value {definition : ResultDefinition τ} (hfresh : definition.Fresh) :
    evalUnder assign definition = definition.value assign := by
  have hanswers : Answers (fun t s => (assign t, s)) assign (fun _ : Unit => True) :=
    fun _ _ _ => ⟨rfl, trivial⟩
  exact (definitionEval_value hanswers (hfresh.consistent assign) trivial).1

/-- **Kleene soundness.** When a definition evaluates to TRUE or FALSE, giving TRUE or
FALSE to any of its undetermined tests, in any way, does not change the result. The
references of `τ` may be as many as the tree has leaves. -/
theorem evalUnder_kleene_sound {definition : ResultDefinition τ} (hfresh : definition.Fresh)
    (hleaf : ∀ t, assign' t = assign t ∨
      Undetermined (assign t) ∧ (assign' t = .true ∨ assign' t = .false))
    (hsettled : evalUnder assign definition = .true ∨ evalUnder assign definition = .false) :
    evalUnder assign' definition = evalUnder assign definition := by
  have hrefines (t : τ) : ResultRefines (assign t) (assign' t) := by
    rcases hleaf t with h | ⟨hopen, h⟩
    · exact Or.inl h.symm
    · refine Or.inr ⟨hopen, ?_⟩
      rcases h with h | h <;> simp [h]
  rw [evalUnder_eq_value hfresh] at hsettled
  rw [evalUnder_eq_value hfresh, evalUnder_eq_value hfresh]
  refine ((definition.value_refines hrefines).eq_of_not_open ?_).symm
  rcases hsettled with h | h <;> rw [h] <;> decide

/-- A false criterion decides an AND whose other criterion, negated, is unknown. -/
theorem evalUnder_kleene_sound_and :
    evalUnder (fun t => bif t then .true else .false)
        (.mk .notEvaluated (some (.criteria .notEvaluated false .and
          [.criterion .notEvaluated false false, .criterion .notEvaluated true true]))) =
      evalUnder (fun t => bif t then .unknown else .false)
        (.mk .notEvaluated (some (.criteria .notEvaluated false .and
          [.criterion .notEvaluated false false, .criterion .notEvaluated true true]))) :=
  evalUnder_kleene_sound
    (by simp [ResultDefinition.Fresh, CriteriaNode.Fresh, FreshList])
    (by decide) (Or.inr rfl)

end Kleene

/-! ### Tests shared by many criteria -/

section Shared

variable (cmp : EntCmp) (sysmod : SyscharModel) {ι : Type} [DecidableEq ι]

/-- The result tests of a system: each is evaluated in place. -/
def testsEval (i : ι) (s : ι → ResultTest) : OvalResult × (ι → ResultTest) :=
  let (result, rtest) := ovalResultTestEval cmp sysmod (s i)
  (result, Function.update s i rtest)

/-- The result tests as they are built. -/
def testsNew (tests : ι → OvalTest) (i : ι) : ResultTest := ovalResultTestNew (tests i)

/-- A run of evaluations, made by any criteria in any order: what was returned for which
test, and the tests after the run. -/
def testsRun : List ι → (ι → ResultTest) → List (ι × OvalResult) × (ι → ResultTest)
  | [], s => ([], s)
  | i :: run, s =>
      let (result, s') := testsEval cmp sysmod i s
      let (results, s'') := testsRun run s'
      ((i, result) :: results, s'')

/-- The first evaluation of a test, as it is built. -/
def firstEval (test : OvalTest) : OvalResult × ResultTest :=
  ovalResultTestEval cmp sysmod (ovalResultTestNew test)

/-- A test is as it was built or as its first evaluation has left it. -/
def AtMostOnce (test : OvalTest) (rtest : ResultTest) : Prop :=
  rtest = ovalResultTestNew test ∨ rtest = (firstEval cmp sysmod test).2

omit [DecidableEq ι] in
theorem testsNew_atMostOnce (tests : ι → OvalTest) (i : ι) :
    AtMostOnce cmp sysmod (tests i) (testsNew tests i) := Or.inl rfl

/-- A test that does not re-enter is left alone after its first evaluation. -/
theorem AtMostOnce.eval {test : OvalTest} {rtest : ResultTest}
    (h : AtMostOnce cmp sysmod test rtest) (hnot : ¬ ReEnters cmp sysmod test) :
    ovalResultTestEval cmp sysmod rtest = firstEval cmp sysmod test := by
  rcases h with rfl | rfl
  · rfl
  · have hne : (firstEval cmp sysmod test).1 ≠ .notEvaluated := fun h =>
      hnot ((ovalResultTestEval_new_eq_notEvaluated_iff cmp sysmod test).mp h)
    have hres : (firstEval cmp sysmod test).2.result = (firstEval cmp sysmod test).1 :=
      ovalResultTestEval_result cmp sysmod _
    rw [ovalResultTestEval_of_evaluated cmp sysmod (hres ▸ hne), hres]

/-- In a run, a test that does not re-enter returns its first result at each of its
evaluations, and has its first items as soon as the run has evaluated it. -/
theorem testsRun_spec {tests : ι → OvalTest} {i : ι}
    (hnot : ¬ ReEnters cmp sysmod (tests i)) (run : List ι) {s : ι → ResultTest}
    (hs : AtMostOnce cmp sysmod (tests i) (s i)) :
    (∀ p ∈ (testsRun cmp sysmod run s).1, p.1 = i →
        p.2 = (firstEval cmp sysmod (tests i)).1) ∧
      AtMostOnce cmp sysmod (tests i) ((testsRun cmp sysmod run s).2 i) ∧
      (i ∈ run ∨ s i = (firstEval cmp sysmod (tests i)).2 →
        (testsRun cmp sysmod run s).2 i = (firstEval cmp sysmod (tests i)).2) := by
  induction run generalizing s with
  | nil => exact ⟨by simp [testsRun], hs, fun h => by simpa [testsRun] using h⟩
  | cons j run ih =>
      have heval := hs.eval cmp sysmod hnot
      by_cases hij : i = j
      · subst hij
        have hself : (testsEval cmp sysmod i s).2 i = (firstEval cmp sysmod (tests i)).2 := by
          simp [testsEval, heval]
        obtain ⟨hres, honce, hlast⟩ := ih (Or.inr hself : AtMostOnce cmp sysmod (tests i) _)
        refine ⟨?_, honce, fun _ => hlast (Or.inr hself)⟩
        simp only [testsRun, List.mem_cons]
        rintro p (rfl | hp) hpi
        · simp [testsEval, heval]
        · exact hres p hp hpi
      · have hother : (testsEval cmp sysmod j s).2 i = s i := by
          simp [testsEval, Function.update_of_ne hij]
        obtain ⟨hres, honce, hlast⟩ := ih (hother ▸ hs : AtMostOnce cmp sysmod (tests i) _)
        refine ⟨?_, honce, ?_⟩
        · simp only [testsRun, List.mem_cons]
          rintro p (rfl | hp) hpi
          · exact absurd hpi (Ne.symm hij)
          · exact hres p hp hpi
        · rintro (hi | hi)
          · exact hlast (Or.inl ((List.mem_cons.mp hi).resolve_left hij))
          · exact hlast (Or.inr (hother.trans hi))

/-- Evaluating a test is idempotent: in every run, each evaluation of the test returns
what its first one does, and once the run has evaluated it, its items are those of the
first evaluation. -/
def EvalIdempotent (tests : ι → OvalTest) (i : ι) : Prop :=
  ∀ run : List ι,
    (∀ p ∈ (testsRun cmp sysmod run (testsNew tests)).1, p.1 = i →
      p.2 = (firstEval cmp sysmod (tests i)).1) ∧
    (i ∈ run → ((testsRun cmp sysmod run (testsNew tests)).2 i).items =
      (firstEval cmp sysmod (tests i)).2.items)

/-- A test that re-enters has its items twice after a second evaluation. -/
theorem not_evalIdempotent_of_reEnters {tests : ι → OvalTest} {i : ι}
    (h : ReEnters cmp sysmod (tests i)) : ¬ EvalIdempotent cmp sysmod tests i := by
  intro hidem
  obtain ⟨n, hn, hlength⟩ := ovalResultTestEval_reEnters cmp sysmod h
  have htest : (firstEval cmp sysmod (tests i)).2.test = tests i :=
    ovalResultTestEval_test cmp sysmod _
  have hres : (firstEval cmp sysmod (tests i)).2.result = .notEvaluated :=
    (ovalResultTestEval_result cmp sysmod _).trans
      ((ovalResultTestEval_new_eq_notEvaluated_iff cmp sysmod (tests i)).mpr h)
  have hfirst : (firstEval cmp sysmod (tests i)).2 =
      ⟨tests i, .notEvaluated, (firstEval cmp sysmod (tests i)).2.items⟩ := by
    cases hr : (firstEval cmp sysmod (tests i)).2 with
    | mk test result items =>
        rw [hr] at htest hres
        simp only at htest hres
        rw [htest, hres]
  have hitems := (hidem [i, i]).2 (by simp)
  simp only [testsRun, testsEval, Function.update_self] at hitems
  have hsecond := hlength (firstEval cmp sysmod (tests i)).2.items
  rw [← hfirst] at hsecond
  have hcongr := congrArg List.length hitems
  simp only [testsNew, firstEval] at hcongr hsecond
  omega

/-- **Evaluating a test is idempotent exactly when it does not re-enter**; and when no
test does, a definition evaluates to its value under the first results of the tests, no
matter which criteria have evaluated which tests before, how often and in which order. -/
theorem evalIdempotent_iff (tests : ι → OvalTest) :
    (∀ i, EvalIdempotent cmp sysmod tests i ↔ ¬ ReEnters cmp sysmod (tests i)) ∧
    ((∀ i, ¬ ReEnters cmp sysmod (tests i)) →
      ∀ (run : List ι) (definition : ResultDefinition ι), definition.Fresh →
        (ovalResultDefinitionEval (testsEval cmp sysmod) definition
          (testsRun cmp sysmod run (testsNew tests)).2).1 =
            definition.value fun i => (firstEval cmp sysmod (tests i)).1) := by
  refine ⟨fun i => ⟨fun h hre => not_evalIdempotent_of_reEnters cmp sysmod hre h,
    fun hnot run => ?_⟩, fun hnot run definition hfresh => ?_⟩
  · obtain ⟨hres, -, hlast⟩ := testsRun_spec cmp sysmod hnot run
      (testsNew_atMostOnce cmp sysmod tests i)
    exact ⟨hres, fun hi => by rw [hlast (Or.inl hi)]⟩
  · have hanswers : Answers (testsEval cmp sysmod)
        (fun i => (firstEval cmp sysmod (tests i)).1)
        (fun s : ι → ResultTest => ∀ i, AtMostOnce cmp sysmod (tests i) (s i)) := by
      intro i s hs
      have heval := (hs i).eval cmp sysmod (hnot i)
      refine ⟨by simp [testsEval, heval], fun j => ?_⟩
      by_cases hji : j = i
      · subst hji
        exact Or.inr (by simp [testsEval, heval])
      · simpa [testsEval, Function.update_of_ne hji] using hs j
    have honce (i : ι) := (testsRun_spec cmp sysmod (hnot i) run
      (testsNew_atMostOnce cmp sysmod tests i)).2.1
    exact (definitionEval_value hanswers (hfresh.consistent _) honce).1

end Shared

/-- Two items of one object: in the first the entity `version` does not exist. -/
def versionItems : List Sysitem :=
  [⟨"1", .exists_, [⟨"version", .doesNotExist, ""⟩]⟩,
   ⟨"2", .exists_, [⟨"version", .exists_, "12.4(1)"⟩]⟩]

/-- The system characteristics with these two items. -/
def versionModel : SyscharModel where
  syscharMap _ := some ⟨.complete, versionItems⟩
  sysitemMap id := versionItems.find? fun item => item.id = id
  computeVariable _ := none

/-- Exactly one item must have no entity `version` of a given IOS version. -/
def versionTest : OvalTest where
  subtype := 7001
  objectId := "oval:x:obj:1"
  states := [⟨7001, 0, .and, [⟨some ⟨some "version", false, none,
    some ⟨some "12.4(1)", .iosVersion⟩, .equals⟩, .noneSatisfy, .all⟩]⟩]
  check := .onlyOne
  existence := .atLeastOneExists
  stateOperator := .and

/-- An IOS version is not compared, so the test above is NOT_EVALUATED at first; its
second evaluation finds each item twice, hence two true results, and is FALSE. -/
theorem not_evalIdempotent_versionTest :
    ¬ ∀ (cmp : EntCmp) (sysmod : SyscharModel) (tests : Unit → OvalTest),
      EvalIdempotent cmp sysmod tests () := by
  intro h
  have hrun := (h (fun _ _ _ _ => .error) versionModel fun _ => versionTest) [(), ()]
  revert hrun
  decide

end OpenScap
