import Mathlib.Data.Int.Notation
import OpenScap.AppendStore
import OpenScap.GuardedRun
import OpenScap.OvalResult

/-!
# The results of a system

A result system holds results of tests and of definitions. A test or definition can have several
results, one for each variable instance that it was evaluated with; they are asked for by
`oval_result_system_get_new_test` and `oval_result_system_get_new_definition`, which make what
is missing. Both look at the latest result of an id only.

A result is known by its place in the system, and definitions hold each other by these places.

## Main results

* `getNewTest_unique`, `getNewDefinition_unique` — what one call keeps;
* `evalDefinition_eq` — evaluating a definition asks for it without a variable instance;
* `instances_unique` — in a run whose calls meet the condition all results are different.
-/

open AppendStore

namespace OpenScap.ResultSystem

/-! ### Definitions -/

mutual

/-- `struct oval_criteria_node`; a node holds the definition that it extends. -/
inductive OvalCriteriaNode where
  | criteria (negate applicabilityCheck : Bool) (operator : OvalOperator)
      (subnodes : List OvalCriteriaNode)
  | criterion (negate applicabilityCheck : Bool) (test : String)
  | extenddef (negate applicabilityCheck : Bool) (definition : OvalDefinition)

/-- `struct oval_definition`. -/
inductive OvalDefinition where
  | mk (id : String) (criteria : Option OvalCriteriaNode)

end

/-- `oval_definition_get_id`. -/
def OvalDefinition.id : OvalDefinition → String
  | .mk id _ => id

/-- `oval_definition_get_criteria`. -/
def OvalDefinition.criteria : OvalDefinition → Option OvalCriteriaNode
  | .mk _ criteria => criteria

mutual

/-- The ids of the definitions that a node extends, and that these extend. -/
def OvalCriteriaNode.ids : OvalCriteriaNode → List String
  | .criteria _ _ _ subnodes => subnodeIds subnodes
  | .criterion _ _ _ => []
  | .extenddef _ _ definition => definition.ids

/-- The same for the subnodes of a criteria. -/
def subnodeIds : List OvalCriteriaNode → List String
  | [] => []
  | node :: nodes => node.ids ++ subnodeIds nodes

/-- The same for a criteria that may be missing. -/
def criteriaIds : Option OvalCriteriaNode → List String
  | none => []
  | some node => node.ids

/-- The ids of a definition and of those that it extends. -/
def OvalDefinition.ids : OvalDefinition → List String
  | .mk id criteria => id :: criteriaIds criteria

end

mutual

/-- No definition below a node extends itself. -/
def OvalCriteriaNode.Acyclic : OvalCriteriaNode → Prop
  | .criteria _ _ _ subnodes => SubnodesAcyclic subnodes
  | .criterion _ _ _ => True
  | .extenddef _ _ definition => definition.Acyclic

/-- The same for the subnodes of a criteria. -/
def SubnodesAcyclic : List OvalCriteriaNode → Prop
  | [] => True
  | node :: nodes => node.Acyclic ∧ SubnodesAcyclic nodes

/-- The same for a criteria that may be missing. -/
def CriteriaAcyclic : Option OvalCriteriaNode → Prop
  | none => True
  | some node => node.Acyclic

/-- Neither the definition nor one that it extends has the id of one above it. -/
def OvalDefinition.Acyclic : OvalDefinition → Prop
  | .mk id criteria => id ∉ criteriaIds criteria ∧ CriteriaAcyclic criteria

end

/-! ### Results -/

/-- `struct oval_result_criteria_node`: a node holds the place of the result that it links. -/
inductive OvalResultCriteriaNode where
  | criteria (result : OvalResult) (negate applicabilityCheck : Bool) (operator : OvalOperator)
      (subnodes : List OvalResultCriteriaNode)
  | criterion (result : OvalResult) (negate applicabilityCheck : Bool) (test : ℕ)
      (variableInstance : ℤ)
  | extenddef (result : OvalResult) (negate applicabilityCheck : Bool) (extends_ : ℕ)
      (variableInstance : ℤ)

/-- `struct oval_result_test`. -/
structure OvalResultTest where
  id : String
  result : OvalResult
  instance_ : ℤ

/-- `struct oval_result_definition`. -/
structure OvalResultDefinition where
  id : String
  result : OvalResult
  criteria : Option OvalResultCriteriaNode
  instance_ : ℤ
  variableInstanceHint : ℤ

/-- `struct oval_result_system`: the results in the order in which they are added. -/
structure OvalResultSystem where
  definitions : List OvalResultDefinition
  tests : List OvalResultTest

namespace OvalResultSystem

/-- `oval_result_system_new`. -/
def new : OvalResultSystem := ⟨[], []⟩

/-- The ids and variable instances of the results of tests. -/
def testInstances (sys : OvalResultSystem) : List (String × ℤ) :=
  sys.tests.map fun test => (test.id, test.instance_)

/-- The ids and variable instances of the results of definitions. -/
def definitionInstances (sys : OvalResultSystem) : List (String × ℤ) :=
  sys.definitions.map fun definition => (definition.id, definition.instance_)

/-- `oval_result_system_get_test`: the latest result of a test. -/
def getTest (sys : OvalResultSystem) (id : String) : Option (ℕ × OvalResultTest) :=
  lastOf (fun test => test.id = id) sys.tests

/-- `oval_result_system_get_definition`: the latest result of a definition. -/
def getDefinition (sys : OvalResultSystem) (id : String) : Option (ℕ × OvalResultDefinition) :=
  lastOf (fun definition => definition.id = id) sys.definitions

/-- `oval_result_system_add_test`, and the place of the test. -/
def addTest (sys : OvalResultSystem) (test : OvalResultTest) : OvalResultSystem × ℕ :=
  (⟨sys.definitions, sys.tests ++ [test]⟩, sys.tests.length)

/-- `oval_result_system_add_definition`, and the place of the definition. -/
def addDefinition (sys : OvalResultSystem) (definition : OvalResultDefinition) :
    OvalResultSystem × ℕ :=
  (⟨sys.definitions ++ [definition], sys.tests⟩, sys.definitions.length)

end OvalResultSystem

/-- `make_result_test_from_oval_test`. -/
def makeResultTestFromOvalTest (test : String) (variableInstance : ℤ) : OvalResultTest :=
  ⟨test, .notEvaluated, variableInstance⟩

/-- `oval_result_system_get_new_test`. -/
def ovalResultSystemGetNewTest (sys : OvalResultSystem) (test : String)
    (variableInstance : ℤ) : OvalResultSystem × ℕ :=
  match sys.getTest test with
  | none => sys.addTest (makeResultTestFromOvalTest test variableInstance)
  | some (place, rsltTest) =>
      if variableInstance ≠ 0 ∧ rsltTest.instance_ ≠ variableInstance then
        sys.addTest (makeResultTestFromOvalTest test variableInstance)
      else (sys, place)

mutual

/-- `make_result_criteria_node_from_oval_criteria_node`. -/
def makeResultCriteriaNode :
    OvalCriteriaNode → ℤ → OvalResultSystem → OvalResultSystem × OvalResultCriteriaNode
  | .criteria negate applicabilityCheck operator subnodes, variableInstance, sys =>
      let (sys, rsltSubnodes) := makeSubnodes subnodes variableInstance sys
      (sys, .criteria .notEvaluated negate applicabilityCheck operator rsltSubnodes)
  | .criterion negate applicabilityCheck test, variableInstance, sys =>
      let (sys, rsltTest) := ovalResultSystemGetNewTest sys test variableInstance
      (sys, .criterion .notEvaluated negate applicabilityCheck rsltTest 1)
  | .extenddef negate applicabilityCheck definition, variableInstance, sys =>
      let (sys, rsltDefinition) := ovalResultSystemGetNewDefinition definition variableInstance sys
      (sys, .extenddef .notEvaluated negate applicabilityCheck rsltDefinition 1)

/-- The loop over the subnodes of a criteria. -/
def makeSubnodes :
    List OvalCriteriaNode → ℤ → OvalResultSystem →
      OvalResultSystem × List OvalResultCriteriaNode
  | [], _, sys => (sys, [])
  | node :: nodes, variableInstance, sys =>
      let (sys, rsltNode) := makeResultCriteriaNode node variableInstance sys
      let (sys, rsltNodes) := makeSubnodes nodes variableInstance sys
      (sys, rsltNode :: rsltNodes)

/-- `make_result_criteria_node_from_oval_criteria_node`, of a node that may be missing. -/
def makeCriteria :
    Option OvalCriteriaNode → ℤ → OvalResultSystem →
      OvalResultSystem × Option OvalResultCriteriaNode
  | none, _, sys => (sys, none)
  | some node, variableInstance, sys =>
      let (sys, rsltNode) := makeResultCriteriaNode node variableInstance sys
      (sys, some rsltNode)

/-- `oval_result_system_get_new_definition`, with
`make_result_definition_from_oval_definition` written out. -/
def ovalResultSystemGetNewDefinition :
    OvalDefinition → ℤ → OvalResultSystem → OvalResultSystem × ℕ
  | .mk id criteria, variableInstance, sys =>
      match sys.getDefinition id with
      | none =>
          let instance_ := if variableInstance ≠ 0 then variableInstance else 1
          let (sys, rsltCriteria) := makeCriteria criteria instance_ sys
          sys.addDefinition ⟨id, .notEvaluated, rsltCriteria, instance_, instance_⟩
      | some (place, rsltDefinition) =>
          if rsltDefinition.variableInstanceHint ≠ rsltDefinition.instance_ then
            let hint := rsltDefinition.variableInstanceHint
            let (sys, rsltCriteria) := makeCriteria criteria hint sys
            sys.addDefinition ⟨id, .notEvaluated, rsltCriteria, hint, hint⟩
          else (sys, place)

end

/-- `make_result_definition_from_oval_definition`. -/
def makeResultDefinitionFromOvalDefinition (definition : OvalDefinition) (variableInstance : ℤ)
    (sys : OvalResultSystem) : OvalResultSystem × OvalResultDefinition :=
  let (sys, rsltCriteria) := makeCriteria definition.criteria variableInstance sys
  (sys, ⟨definition.id, .notEvaluated, rsltCriteria, variableInstance, variableInstance⟩)

/-- A new result of a definition, added to the system. -/
def addNewDefinition (definition : OvalDefinition) (variableInstance : ℤ)
    (sys : OvalResultSystem) : OvalResultSystem × ℕ :=
  let (sys, rsltDefinition) :=
    makeResultDefinitionFromOvalDefinition definition variableInstance sys
  sys.addDefinition rsltDefinition

/-- What `oval_result_system_eval_definition` looks for, before it evaluates it. -/
def ovalResultSystemEvalDefinition (definition : OvalDefinition) (sys : OvalResultSystem) :
    OvalResultSystem × ℕ :=
  match sys.getDefinition definition.id with
  | none => addNewDefinition definition 1 sys
  | some (place, rsltDefinition) =>
      if rsltDefinition.variableInstanceHint ≠ rsltDefinition.instance_ then
        addNewDefinition definition rsltDefinition.variableInstanceHint sys
      else (sys, place)

/-- A call for a definition makes a new result when there is none, or when the latest one has a
hint, and then with the hint. -/
theorem getNewDefinition_eq (definition : OvalDefinition) (variableInstance : ℤ)
    (sys : OvalResultSystem) :
    ovalResultSystemGetNewDefinition definition variableInstance sys =
      match sys.getDefinition definition.id with
      | none =>
          addNewDefinition definition (if variableInstance ≠ 0 then variableInstance else 1) sys
      | some (place, rsltDefinition) =>
          if rsltDefinition.variableInstanceHint ≠ rsltDefinition.instance_ then
            addNewDefinition definition rsltDefinition.variableInstanceHint sys
          else (sys, place) := by
  obtain ⟨id, criteria⟩ := definition
  rw [ovalResultSystemGetNewDefinition]
  rfl

/-- **Evaluating a definition** asks for it without a variable instance. -/
theorem evalDefinition_eq (definition : OvalDefinition) (sys : OvalResultSystem) :
    ovalResultSystemEvalDefinition definition sys =
      ovalResultSystemGetNewDefinition definition 0 sys := by
  rw [ovalResultSystemEvalDefinition, getNewDefinition_eq]
  rfl

/-- `oval_result_definition_set_variable_instance_hint`, for the latest result of a definition:
what `oval_agent` does when a variable gets other values. -/
def setVariableInstanceHint (sys : OvalResultSystem) (id : String) (newHintValue : ℤ) :
    OvalResultSystem :=
  match sys.getDefinition id with
  | none => sys
  | some (place, _) =>
      ⟨sys.definitions.modify place fun definition =>
        { definition with variableInstanceHint := newHintValue }, sys.tests⟩

/-! ### What a call adds -/

/-- A system that has grown: what it had keeps its place, and the new results of definitions
have these ids. -/
structure Extends (ids : List String) (sys sys' : OvalResultSystem) : Prop where
  tests : sys.testInstances <+: sys'.testInstances
  definitions : sys.definitionInstances <+: sys'.definitionInstances
  new_ids : ∀ d ∈ sys'.definitionInstances, d ∈ sys.definitionInstances ∨ d.1 ∈ ids

namespace Extends

variable {ids ids' : List String} {sys sys' sys'' : OvalResultSystem}

theorem refl : Extends ids sys sys :=
  ⟨List.prefix_rfl, List.prefix_rfl, fun _ h => .inl h⟩

theorem trans (h : Extends ids sys sys') (h' : Extends ids' sys' sys'') :
    Extends (ids ++ ids') sys sys'' := by
  refine ⟨h.tests.trans h'.tests, h.definitions.trans h'.definitions, fun d hd => ?_⟩
  rcases h'.new_ids d hd with hold | hnew
  · exact (h.new_ids d hold).imp_right (List.mem_append_left ids')
  · exact .inr (List.mem_append_right ids hnew)

end Extends

namespace OvalResultSystem

variable (sys : OvalResultSystem)

@[simp]
theorem testInstances_addTest (test : OvalResultTest) :
    (sys.addTest test).1.testInstances = sys.testInstances ++ [(test.id, test.instance_)] := by
  simp [addTest, testInstances]

@[simp]
theorem definitionInstances_addTest (test : OvalResultTest) :
    (sys.addTest test).1.definitionInstances = sys.definitionInstances := rfl

@[simp]
theorem testInstances_addDefinition (definition : OvalResultDefinition) :
    (sys.addDefinition definition).1.testInstances = sys.testInstances := rfl

@[simp]
theorem definitionInstances_addDefinition (definition : OvalResultDefinition) :
    (sys.addDefinition definition).1.definitionInstances =
      sys.definitionInstances ++ [(definition.id, definition.instance_)] := by
  simp [addDefinition, definitionInstances]

variable {sys}

/-- The latest result of a test stands at its place. -/
theorem getTest_some {id : String} {place : ℕ} {test : OvalResultTest}
    (h : sys.getTest id = some (place, test)) :
    sys.testInstances[place]? = some (id, test.instance_) := by
  obtain ⟨hplace, hid⟩ := lastOf_some h
  rw [testInstances, List.getElem?_map, hplace, Option.map_some]
  rw [decide_eq_true_eq] at hid
  rw [hid]

/-- The latest result of a definition stands at its place. -/
theorem getDefinition_some {id : String} {place : ℕ} {definition : OvalResultDefinition}
    (h : sys.getDefinition id = some (place, definition)) :
    sys.definitionInstances[place]? = some (id, definition.instance_) := by
  obtain ⟨hplace, hid⟩ := lastOf_some h
  rw [definitionInstances, List.getElem?_map, hplace, Option.map_some]
  rw [decide_eq_true_eq] at hid
  rw [hid]

/-- A test without result. -/
theorem getTest_none {id : String} (h : sys.getTest id = none) (instance_ : ℤ) :
    (id, instance_) ∉ sys.testInstances := by
  rw [getTest, lastOf_eq_none_iff] at h
  intro hmem
  obtain ⟨test, htest, heq⟩ := List.mem_map.mp hmem
  exact absurd (congrArg Prod.fst heq) (by simpa using h test htest)

/-- A definition without result. -/
theorem getDefinition_none {id : String} (h : sys.getDefinition id = none) (instance_ : ℤ) :
    (id, instance_) ∉ sys.definitionInstances := by
  rw [getDefinition, lastOf_eq_none_iff] at h
  intro hmem
  obtain ⟨definition, hdefinition, heq⟩ := List.mem_map.mp hmem
  exact absurd (congrArg Prod.fst heq) (by simpa using h definition hdefinition)

end OvalResultSystem

@[simp]
theorem definitionInstances_addNewDefinition (definition : OvalDefinition)
    (variableInstance : ℤ) (sys : OvalResultSystem) :
    (addNewDefinition definition variableInstance sys).1.definitionInstances =
      (makeCriteria definition.criteria variableInstance sys).1.definitionInstances ++
        [(definition.id, variableInstance)] := by
  rw [addNewDefinition, makeResultDefinitionFromOvalDefinition]
  exact OvalResultSystem.definitionInstances_addDefinition _ _

@[simp]
theorem testInstances_addNewDefinition (definition : OvalDefinition) (variableInstance : ℤ)
    (sys : OvalResultSystem) :
    (addNewDefinition definition variableInstance sys).1.testInstances =
      (makeCriteria definition.criteria variableInstance sys).1.testInstances := rfl

/-- A call for a test adds at most the result of a test. -/
theorem getNewTest_extends (sys : OvalResultSystem) (test : String) (variableInstance : ℤ) :
    Extends [] sys (ovalResultSystemGetNewTest sys test variableInstance).1 := by
  have hadd : ∀ added : OvalResultTest, Extends [] sys (sys.addTest added).1 := fun added => by
    refine ⟨?_, ?_, ?_⟩
    · rw [OvalResultSystem.testInstances_addTest]
      exact List.prefix_append _ _
    · exact List.prefix_rfl
    · exact fun d hd => .inl hd
  rw [ovalResultSystemGetNewTest]
  cases sys.getTest test with
  | none => exact hadd _
  | some found =>
      obtain ⟨place, rsltTest⟩ := found
      dsimp only
      split
      · exact hadd _
      · exact .refl

/-- A new result of a definition adds itself and what its criteria adds. -/
theorem addNewDefinition_extends {definition : OvalDefinition} {variableInstance : ℤ}
    {sys : OvalResultSystem}
    (h : Extends (criteriaIds definition.criteria) sys
      (makeCriteria definition.criteria variableInstance sys).1) :
    Extends definition.ids sys (addNewDefinition definition variableInstance sys).1 := by
  obtain ⟨id, criteria⟩ := definition
  rw [OvalDefinition.ids]
  refine ⟨h.tests, ?_, fun d hd => ?_⟩
  · rw [definitionInstances_addNewDefinition]
    exact h.definitions.trans (List.prefix_append _ _)
  · rw [definitionInstances_addNewDefinition, List.mem_append, List.mem_singleton] at hd
    rcases hd with hold | rfl
    · exact (h.new_ids d hold).imp_right (List.mem_cons_of_mem _)
    · exact .inr List.mem_cons_self

mutual

/-- Making a node adds results of the definitions that it extends only. -/
theorem makeResultCriteriaNode_extends (node : OvalCriteriaNode) (variableInstance : ℤ)
    (sys : OvalResultSystem) :
    Extends node.ids sys (makeResultCriteriaNode node variableInstance sys).1 := by
  cases node with
  | criteria negate applicabilityCheck operator subnodes =>
      rw [makeResultCriteriaNode, OvalCriteriaNode.ids]
      exact makeSubnodes_extends subnodes variableInstance sys
  | criterion negate applicabilityCheck test =>
      rw [makeResultCriteriaNode, OvalCriteriaNode.ids]
      exact getNewTest_extends sys test variableInstance
  | extenddef negate applicabilityCheck definition =>
      rw [makeResultCriteriaNode, OvalCriteriaNode.ids]
      exact getNewDefinition_extends definition variableInstance sys

/-- So does making the subnodes. -/
theorem makeSubnodes_extends (nodes : List OvalCriteriaNode) (variableInstance : ℤ)
    (sys : OvalResultSystem) :
    Extends (subnodeIds nodes) sys (makeSubnodes nodes variableInstance sys).1 := by
  cases nodes with
  | nil =>
      rw [makeSubnodes]
      exact .refl
  | cons node nodes =>
      rw [makeSubnodes, subnodeIds]
      exact (makeResultCriteriaNode_extends node variableInstance sys).trans
        (makeSubnodes_extends nodes variableInstance _)

/-- So does making a criteria. -/
theorem makeCriteria_extends (criteria : Option OvalCriteriaNode) (variableInstance : ℤ)
    (sys : OvalResultSystem) :
    Extends (criteriaIds criteria) sys (makeCriteria criteria variableInstance sys).1 := by
  cases criteria with
  | none =>
      rw [makeCriteria]
      exact .refl
  | some node =>
      rw [makeCriteria, criteriaIds]
      exact makeResultCriteriaNode_extends node variableInstance sys

/-- A call for a definition adds results of it and of those that it extends only. -/
theorem getNewDefinition_extends (definition : OvalDefinition) (variableInstance : ℤ)
    (sys : OvalResultSystem) :
    Extends definition.ids sys
      (ovalResultSystemGetNewDefinition definition variableInstance sys).1 := by
  cases definition with
  | mk id criteria =>
      have hadd : ∀ instance_ : ℤ, Extends (OvalDefinition.mk id criteria).ids sys
          (addNewDefinition (.mk id criteria) instance_ sys).1 := fun instance_ =>
        addNewDefinition_extends (makeCriteria_extends criteria instance_ sys)
      rw [getNewDefinition_eq]
      cases sys.getDefinition (OvalDefinition.mk id criteria).id with
      | none => exact hadd _
      | some found =>
          obtain ⟨place, rsltDefinition⟩ := found
          dsimp only
          split
          · exact hadd _
          · exact .refl

end

/-! ### The condition on calls -/

/-- Whether a call for a test finds what it asks for: any result will do, or there is none with
the variable instance, or the latest one has it. -/
def TestMeets (sys : OvalResultSystem) (test : String) (variableInstance : ℤ) : Prop :=
  variableInstance = 0 ∨ (test, variableInstance) ∉ sys.testInstances ∨
    ∃ place rsltTest, sys.getTest test = some (place, rsltTest) ∧
      rsltTest.instance_ = variableInstance

mutual

/-- Whether every call that is made for a node meets the condition, each in the system that it
is made in. -/
def NodeMeets : OvalCriteriaNode → ℤ → OvalResultSystem → Prop
  | .criteria _ _ _ subnodes, variableInstance, sys => SubnodesMeet subnodes variableInstance sys
  | .criterion _ _ test, variableInstance, sys => TestMeets sys test variableInstance
  | .extenddef _ _ definition, variableInstance, sys =>
      DefinitionMeets definition variableInstance sys

/-- The same for the subnodes of a criteria. -/
def SubnodesMeet : List OvalCriteriaNode → ℤ → OvalResultSystem → Prop
  | [], _, _ => True
  | node :: nodes, variableInstance, sys =>
      NodeMeets node variableInstance sys ∧
        SubnodesMeet nodes variableInstance (makeResultCriteriaNode node variableInstance sys).1

/-- The same for a criteria that may be missing. -/
def CriteriaMeets : Option OvalCriteriaNode → ℤ → OvalResultSystem → Prop
  | none, _, _ => True
  | some node, variableInstance, sys => NodeMeets node variableInstance sys

/-- Whether a call for a definition finds what it asks for, and so do the calls that it makes:
there is no result, or the latest one has no hint and the variable instance, or it has the
variable instance as a hint that no result has. -/
def DefinitionMeets : OvalDefinition → ℤ → OvalResultSystem → Prop
  | .mk id criteria, variableInstance, sys =>
      match sys.getDefinition id with
      | none =>
          CriteriaMeets criteria (if variableInstance ≠ 0 then variableInstance else 1) sys
      | some (_, rsltDefinition) =>
          let hint := rsltDefinition.variableInstanceHint
          if hint ≠ rsltDefinition.instance_ then
            (variableInstance = 0 ∨ variableInstance = hint) ∧
              (id, hint) ∉ sys.definitionInstances ∧ CriteriaMeets criteria hint sys
          else variableInstance = 0 ∨ variableInstance = rsltDefinition.instance_

end

/-! ### What a call keeps -/

/-- All results of a system are different. -/
structure OvalResultSystem.Unique (sys : OvalResultSystem) : Prop where
  tests : sys.testInstances.Nodup
  definitions : sys.definitionInstances.Nodup

/-- Whether a place is that of a result with the id and the variable instance asked for; 0 asks
for any. -/
def Replies (instances : List (String × ℤ)) (id : String) (variableInstance : ℤ) (place : ℕ) :
    Prop :=
  ∃ instance_, instances[place]? = some (id, instance_) ∧
    (variableInstance ≠ 0 → instance_ = variableInstance)

/-- A reply stays right when the system grows. -/
theorem Replies.mono {instances instances' : List (String × ℤ)} {id : String}
    {variableInstance : ℤ} {place : ℕ} (h : Replies instances id variableInstance place)
    (hgrown : instances <+: instances') : Replies instances' id variableInstance place := by
  obtain ⟨instance_, hplace, hinstance⟩ := h
  exact ⟨instance_, getElem?_mono hgrown hplace, hinstance⟩

/-- Two right replies to the same request are the same where all results are different. -/
theorem Replies.eq {instances : List (String × ℤ)} (hnodup : instances.Nodup) {id : String}
    {variableInstance : ℤ} (hne : variableInstance ≠ 0) {place place' : ℕ}
    (h : Replies instances id variableInstance place)
    (h' : Replies instances id variableInstance place') : place = place' := by
  obtain ⟨instance_, hplace, hinstance⟩ := h
  obtain ⟨instance', hplace', hinstance'⟩ := h'
  obtain rfl := hinstance hne
  obtain rfl := hinstance' hne
  exact eq_of_getElem? hnodup hplace hplace'

/-- **A call for a test** keeps the results different and finds what it asks for exactly when it
meets the condition. -/
theorem getNewTest_unique {sys : OvalResultSystem} (h : sys.Unique) (test : String)
    (variableInstance : ℤ) :
    let reply := ovalResultSystemGetNewTest sys test variableInstance
    (reply.1.Unique ∧ Replies reply.1.testInstances test variableInstance reply.2) ↔
      TestMeets sys test variableInstance := by
  have hadd : ∀ added : OvalResultTest, added = ⟨test, .notEvaluated, variableInstance⟩ →
      (((sys.addTest added).1.Unique ∧
        Replies (sys.addTest added).1.testInstances test variableInstance
          (sys.addTest added).2) ↔ (test, variableInstance) ∉ sys.testInstances) := by
    rintro added rfl
    have hplace : Replies (sys.addTest ⟨test, .notEvaluated, variableInstance⟩).1.testInstances
        test variableInstance sys.tests.length :=
      ⟨variableInstance, by simp [OvalResultSystem.testInstances, OvalResultSystem.addTest],
        fun _ => rfl⟩
    constructor
    · rintro ⟨hunique, -⟩ hmem
      have hnodup := hunique.tests
      rw [OvalResultSystem.testInstances_addTest, List.nodup_append] at hnodup
      exact hnodup.2.2 _ hmem _ (List.mem_singleton.mpr rfl) rfl
    · intro hmem
      refine ⟨⟨?_, h.definitions⟩, hplace⟩
      rw [OvalResultSystem.testInstances_addTest]
      exact nodup_append_singleton h.tests hmem
  rw [ovalResultSystemGetNewTest, TestMeets]
  cases hget : sys.getTest test with
  | none =>
      have hmem := OvalResultSystem.getTest_none hget variableInstance
      exact ((hadd _ rfl).trans (iff_of_true hmem (.inr (.inl hmem))))
  | some found =>
      obtain ⟨place, rsltTest⟩ := found
      by_cases hnew : variableInstance ≠ 0 ∧ rsltTest.instance_ ≠ variableInstance
      · simp only [if_pos hnew]
        refine (hadd _ rfl).trans ⟨fun hmem => .inr (.inl hmem), ?_⟩
        rintro (hzero | hmem | ⟨_, _, heq, hinstance⟩)
        · exact absurd hzero hnew.1
        · exact hmem
        · obtain ⟨-, rfl⟩ := Prod.mk.inj (Option.some.inj heq)
          exact absurd hinstance hnew.2
      · simp only [if_neg hnew]
        have hlatest : variableInstance ≠ 0 → rsltTest.instance_ = variableInstance := by
          intro hne
          by_contra hother
          exact hnew ⟨hne, hother⟩
        refine iff_of_true ⟨h, _, OvalResultSystem.getTest_some hget, hlatest⟩ ?_
        by_cases hzero : variableInstance = 0
        · exact .inl hzero
        · exact .inr (.inr ⟨place, rsltTest, rfl, hlatest hzero⟩)

/-- A new result of a definition is different from the others when its criteria adds none of
its id. -/
theorem addNewDefinition_unique {definition : OvalDefinition} {variableInstance : ℤ}
    {sys : OvalResultSystem} (hacyclic : definition.id ∉ criteriaIds definition.criteria)
    (hmem : (definition.id, variableInstance) ∉ sys.definitionInstances)
    (h : (makeCriteria definition.criteria variableInstance sys).1.Unique) :
    (addNewDefinition definition variableInstance sys).1.Unique := by
  refine ⟨h.tests, ?_⟩
  rw [definitionInstances_addNewDefinition]
  refine nodup_append_singleton h.definitions fun hin => ?_
  rcases (makeCriteria_extends definition.criteria variableInstance sys).new_ids _ hin with
    hold | hnew
  · exact hmem hold
  · exact hacyclic hnew

mutual

/-- Making a node keeps the results different. -/
theorem makeResultCriteriaNode_unique (node : OvalCriteriaNode) (variableInstance : ℤ)
    (sys : OvalResultSystem) (hacyclic : node.Acyclic) (h : sys.Unique)
    (hmeets : NodeMeets node variableInstance sys) :
    (makeResultCriteriaNode node variableInstance sys).1.Unique := by
  cases node with
  | criteria negate applicabilityCheck operator subnodes =>
      rw [makeResultCriteriaNode]
      rw [OvalCriteriaNode.Acyclic] at hacyclic
      rw [NodeMeets] at hmeets
      exact makeSubnodes_unique subnodes variableInstance sys hacyclic h hmeets
  | criterion negate applicabilityCheck test =>
      rw [makeResultCriteriaNode]
      rw [NodeMeets] at hmeets
      exact ((getNewTest_unique h test variableInstance).mpr hmeets).1
  | extenddef negate applicabilityCheck definition =>
      rw [makeResultCriteriaNode]
      rw [OvalCriteriaNode.Acyclic] at hacyclic
      rw [NodeMeets] at hmeets
      exact getNewDefinition_unique definition variableInstance sys hacyclic h hmeets

/-- So does making the subnodes. -/
theorem makeSubnodes_unique (nodes : List OvalCriteriaNode) (variableInstance : ℤ)
    (sys : OvalResultSystem) (hacyclic : SubnodesAcyclic nodes) (h : sys.Unique)
    (hmeets : SubnodesMeet nodes variableInstance sys) :
    (makeSubnodes nodes variableInstance sys).1.Unique := by
  cases nodes with
  | nil =>
      rw [makeSubnodes]
      exact h
  | cons node nodes =>
      rw [makeSubnodes]
      rw [SubnodesAcyclic] at hacyclic
      rw [SubnodesMeet] at hmeets
      exact makeSubnodes_unique nodes variableInstance _ hacyclic.2
        (makeResultCriteriaNode_unique node variableInstance sys hacyclic.1 h hmeets.1) hmeets.2

/-- So does making a criteria. -/
theorem makeCriteria_unique (criteria : Option OvalCriteriaNode) (variableInstance : ℤ)
    (sys : OvalResultSystem) (hacyclic : CriteriaAcyclic criteria) (h : sys.Unique)
    (hmeets : CriteriaMeets criteria variableInstance sys) :
    (makeCriteria criteria variableInstance sys).1.Unique := by
  cases criteria with
  | none =>
      rw [makeCriteria]
      exact h
  | some node =>
      rw [makeCriteria]
      rw [CriteriaAcyclic] at hacyclic
      rw [CriteriaMeets] at hmeets
      exact makeResultCriteriaNode_unique node variableInstance sys hacyclic h hmeets

/-- **A call for a definition** that meets the condition keeps the results different. -/
theorem getNewDefinition_unique (definition : OvalDefinition) (variableInstance : ℤ)
    (sys : OvalResultSystem) (hacyclic : definition.Acyclic) (h : sys.Unique)
    (hmeets : DefinitionMeets definition variableInstance sys) :
    (ovalResultSystemGetNewDefinition definition variableInstance sys).1.Unique := by
  cases definition with
  | mk id criteria =>
      rw [OvalDefinition.Acyclic] at hacyclic
      rw [DefinitionMeets] at hmeets
      rw [getNewDefinition_eq, OvalDefinition.id]
      cases hget : sys.getDefinition id with
      | none =>
          rw [hget] at hmeets
          exact addNewDefinition_unique hacyclic.1
            (OvalResultSystem.getDefinition_none hget _)
            (makeCriteria_unique criteria _ sys hacyclic.2 h hmeets)
      | some found =>
          obtain ⟨place, rsltDefinition⟩ := found
          rw [hget] at hmeets
          by_cases hhint : rsltDefinition.variableInstanceHint ≠ rsltDefinition.instance_
          · simp only [if_pos hhint] at hmeets ⊢
            exact addNewDefinition_unique hacyclic.1 hmeets.2.1
              (makeCriteria_unique criteria _ sys hacyclic.2 h hmeets.2.2)
          · simp only [if_neg hhint]
            exact h

end

/-- A new result of a definition stands at its place. -/
theorem addNewDefinition_replies (definition : OvalDefinition) (variableInstance : ℤ)
    (sys : OvalResultSystem) :
    (addNewDefinition definition variableInstance sys).1.definitionInstances[
        (addNewDefinition definition variableInstance sys).2]? =
      some (definition.id, variableInstance) := by
  rw [definitionInstances_addNewDefinition]
  have hplace : (addNewDefinition definition variableInstance sys).2 =
      (makeCriteria definition.criteria variableInstance sys).1.definitionInstances.length := by
    rw [OvalResultSystem.definitionInstances, List.length_map]
    rfl
  rw [hplace, List.getElem?_concat_length]

/-- **A call for a definition** that meets the condition finds what it asks for. -/
theorem getNewDefinition_replies {definition : OvalDefinition} {variableInstance : ℤ}
    {sys : OvalResultSystem} (hmeets : DefinitionMeets definition variableInstance sys) :
    Replies (ovalResultSystemGetNewDefinition definition variableInstance sys).1.definitionInstances
      definition.id variableInstance
      (ovalResultSystemGetNewDefinition definition variableInstance sys).2 := by
  obtain ⟨id, criteria⟩ := definition
  rw [DefinitionMeets] at hmeets
  rw [getNewDefinition_eq, OvalDefinition.id]
  cases hget : sys.getDefinition id with
  | none => exact ⟨_, addNewDefinition_replies _ _ _, fun hne => if_pos hne⟩
  | some found =>
      obtain ⟨place, rsltDefinition⟩ := found
      rw [hget] at hmeets
      by_cases hhint : rsltDefinition.variableInstanceHint ≠ rsltDefinition.instance_
      · simp only [if_pos hhint] at hmeets ⊢
        exact ⟨_, addNewDefinition_replies _ _ _, fun hne => (hmeets.1.resolve_left hne).symm⟩
      · simp only [if_neg hhint] at hmeets ⊢
        exact ⟨_, OvalResultSystem.getDefinition_some hget,
          fun hne => (hmeets.resolve_left hne).symm⟩

/-! ### Runs -/

/-- A definition that does not extend itself: definitions are found by their ids, and the
results of one that does are never finished. -/
structure AcyclicDefinition where
  definition : OvalDefinition
  acyclic : definition.Acyclic

/-- What is called on a result system. -/
inductive ResultCall
  /-- `oval_result_system_get_new_test`. -/
  | newTest (test : String) (variableInstance : ℤ)
  /-- `oval_result_system_get_new_definition`. -/
  | newDefinition (definition : AcyclicDefinition) (variableInstance : ℤ)
  /-- `oval_result_system_eval_definition`. -/
  | evalDefinition (definition : AcyclicDefinition)
  /-- `oval_result_definition_set_variable_instance_hint`. -/
  | setHint (id : String) (newHintValue : ℤ)

/-- A result system, and the calls that it has answered: the id and variable instance asked for
and the place of the result. -/
structure ResultSession where
  sys : OvalResultSystem
  testReplies : List (String × ℤ × ℕ)
  definitionReplies : List (String × ℤ × ℕ)

namespace ResultSession

/-- A new system. -/
def new : ResultSession := ⟨.new, [], []⟩

/-- One call. -/
def call (s : ResultSession) : ResultCall → Option ResultSession
  | .newTest test variableInstance =>
      let (sys, place) := ovalResultSystemGetNewTest s.sys test variableInstance
      some ⟨sys, s.testReplies ++ [(test, variableInstance, place)], s.definitionReplies⟩
  | .newDefinition ⟨definition, _⟩ variableInstance =>
      let (sys, place) := ovalResultSystemGetNewDefinition definition variableInstance s.sys
      some ⟨sys, s.testReplies,
        s.definitionReplies ++ [(definition.id, variableInstance, place)]⟩
  | .evalDefinition ⟨definition, _⟩ =>
      let (sys, place) := ovalResultSystemEvalDefinition definition s.sys
      some ⟨sys, s.testReplies, s.definitionReplies ++ [(definition.id, 0, place)]⟩
  | .setHint id newHintValue =>
      some ⟨setVariableInstanceHint s.sys id newHintValue, s.testReplies, s.definitionReplies⟩

/-- The condition on a call and on those that it makes. -/
def Meets (s : ResultSession) : ResultCall → Prop
  | .newTest test variableInstance => TestMeets s.sys test variableInstance
  | .newDefinition ⟨definition, _⟩ variableInstance =>
      DefinitionMeets definition variableInstance s.sys
  | .evalDefinition ⟨definition, _⟩ => DefinitionMeets definition 0 s.sys
  | .setHint _ _ => True

/-- **Instances are unique**: no two results have the same id and variable instance, every reply
is a result with the id and variable instance asked for, and the same request has always had
the same reply. -/
structure InstancesUnique (s : ResultSession) : Prop where
  unique : s.sys.Unique
  test_replies : ∀ id variableInstance place, (id, variableInstance, place) ∈ s.testReplies →
    Replies s.sys.testInstances id variableInstance place
  definition_replies : ∀ id variableInstance place,
    (id, variableInstance, place) ∈ s.definitionReplies →
      Replies s.sys.definitionInstances id variableInstance place
  same_test : ∀ id variableInstance place place', variableInstance ≠ 0 →
    (id, variableInstance, place) ∈ s.testReplies →
      (id, variableInstance, place') ∈ s.testReplies → place = place'
  same_definition : ∀ id variableInstance place place', variableInstance ≠ 0 →
    (id, variableInstance, place) ∈ s.definitionReplies →
      (id, variableInstance, place') ∈ s.definitionReplies → place = place'

/-- Right replies of a system whose results are different are the same for the same request. -/
theorem InstancesUnique.of_replies {s : ResultSession} (hunique : s.sys.Unique)
    (htests : ∀ id variableInstance place, (id, variableInstance, place) ∈ s.testReplies →
      Replies s.sys.testInstances id variableInstance place)
    (hdefinitions : ∀ id variableInstance place,
      (id, variableInstance, place) ∈ s.definitionReplies →
        Replies s.sys.definitionInstances id variableInstance place) :
    s.InstancesUnique :=
  ⟨hunique, htests, hdefinitions,
    fun id variableInstance place place' hne h h' =>
      (htests id variableInstance place h).eq hunique.tests hne
        (htests id variableInstance place' h'),
    fun id variableInstance place place' hne h h' =>
      (hdefinitions id variableInstance place h).eq hunique.definitions hne
        (hdefinitions id variableInstance place' h')⟩

end ResultSession

/-- Setting a hint changes no id and no variable instance. -/
theorem definitionInstances_setVariableInstanceHint (sys : OvalResultSystem) (id : String)
    (newHintValue : ℤ) :
    (setVariableInstanceHint sys id newHintValue).definitionInstances =
      sys.definitionInstances := by
  rw [setVariableInstanceHint]
  cases sys.getDefinition id with
  | none => rfl
  | some found =>
      refine List.ext_getElem? fun i => ?_
      simp only [OvalResultSystem.definitionInstances, List.getElem?_map, List.getElem?_modify]
      cases sys.definitions[i]? with
      | none => rfl
      | some definition =>
          by_cases hi : found.1 = i <;> simp [hi]

/-- Setting a hint changes no result of a test. -/
theorem testInstances_setVariableInstanceHint (sys : OvalResultSystem) (id : String)
    (newHintValue : ℤ) :
    (setVariableInstanceHint sys id newHintValue).testInstances = sys.testInstances := by
  rw [setVariableInstanceHint]
  cases sys.getDefinition id <;> rfl

namespace ResultSession

/-- A call that replies, in a system that grows. -/
theorem InstancesUnique.grow {s : ResultSession} (h : s.InstancesUnique) {ids : List String}
    {sys : OvalResultSystem} (hgrown : Extends ids s.sys sys) (hunique : sys.Unique) :
    (⟨sys, s.testReplies, s.definitionReplies⟩ : ResultSession).InstancesUnique :=
  .of_replies hunique
    (fun id variableInstance place hin =>
      (h.test_replies id variableInstance place hin).mono hgrown.tests)
    (fun id variableInstance place hin =>
      (h.definition_replies id variableInstance place hin).mono hgrown.definitions)

/-- A right reply to a call for a definition is added. -/
theorem InstancesUnique.reply {s : ResultSession} (h : s.InstancesUnique) {id : String}
    {variableInstance : ℤ} {place : ℕ}
    (hreply : Replies s.sys.definitionInstances id variableInstance place) :
    (⟨s.sys, s.testReplies, s.definitionReplies ++ [(id, variableInstance, place)]⟩ :
      ResultSession).InstancesUnique := by
  refine .of_replies h.unique h.test_replies fun id' variableInstance' place' hin => ?_
  rcases List.mem_append.mp hin with hold | hnew
  · exact h.definition_replies id' variableInstance' place' hold
  · obtain ⟨rfl, hrest⟩ := Prod.mk.inj (List.mem_singleton.mp hnew)
    obtain ⟨rfl, rfl⟩ := Prod.mk.inj hrest
    exact hreply

/-- A right reply to a call for a test is added. -/
theorem InstancesUnique.testReply {s : ResultSession} (h : s.InstancesUnique) {id : String}
    {variableInstance : ℤ} {place : ℕ}
    (hreply : Replies s.sys.testInstances id variableInstance place) :
    (⟨s.sys, s.testReplies ++ [(id, variableInstance, place)], s.definitionReplies⟩ :
      ResultSession).InstancesUnique := by
  refine .of_replies h.unique (fun id' variableInstance' place' hin => ?_) h.definition_replies
  rcases List.mem_append.mp hin with hold | hnew
  · exact h.test_replies id' variableInstance' place' hold
  · obtain ⟨rfl, hrest⟩ := Prod.mk.inj (List.mem_singleton.mp hnew)
    obtain ⟨rfl, rfl⟩ := Prod.mk.inj hrest
    exact hreply

/-- A call that meets the condition keeps the instances unique. -/
theorem InstancesUnique.call {s t : ResultSession} {c : ResultCall} (h : s.InstancesUnique)
    (hmeets : s.Meets c) (hstep : s.call c = some t) : t.InstancesUnique := by
  cases c with
  | newTest test variableInstance =>
      obtain rfl := Option.some.inj hstep
      obtain ⟨hunique, hreply⟩ := (getNewTest_unique h.unique test variableInstance).mpr hmeets
      exact (h.grow (getNewTest_extends s.sys test variableInstance) hunique).testReply hreply
  | newDefinition definition variableInstance =>
      obtain ⟨definition, hacyclic⟩ := definition
      obtain rfl := Option.some.inj hstep
      have hunique := getNewDefinition_unique definition variableInstance s.sys hacyclic h.unique
        hmeets
      exact (h.grow (getNewDefinition_extends definition variableInstance s.sys) hunique).reply
        (getNewDefinition_replies hmeets)
  | evalDefinition definition =>
      obtain ⟨definition, hacyclic⟩ := definition
      rw [ResultSession.call, evalDefinition_eq] at hstep
      obtain rfl := Option.some.inj hstep
      have hunique := getNewDefinition_unique definition 0 s.sys hacyclic h.unique hmeets
      exact (h.grow (getNewDefinition_extends definition 0 s.sys) hunique).reply
        (getNewDefinition_replies hmeets)
  | setHint id newHintValue =>
      obtain rfl := Option.some.inj hstep
      have htests := testInstances_setVariableInstanceHint s.sys id newHintValue
      have hdefinitions := definitionInstances_setVariableInstanceHint s.sys id newHintValue
      refine .of_replies ⟨?_, ?_⟩ ?_ ?_
      · rw [htests]
        exact h.unique.tests
      · rw [hdefinitions]
        exact h.unique.definitions
      · rw [htests]
        exact h.test_replies
      · rw [hdefinitions]
        exact h.definition_replies

end ResultSession

/-- **Instances are unique in every run whose calls meet the condition.** -/
theorem instances_unique {s : ResultSession}
    (h : GuardedRun ResultSession.call ResultSession.Meets .new s) : s.InstancesUnique := by
  refine h.invariant (.of_replies ⟨List.nodup_nil, List.nodup_nil⟩ ?_ ?_)
    (fun hinv hmeets hstep => hinv.call hmeets hstep)
  · intro id variableInstance place hin
    cases hin
  · intro id variableInstance place hin
    cases hin

/-- A session after calls for one test. -/
def testSession (variableInstances : List ℤ) : Option ResultSession :=
  GuardedRun.replay ResultSession.call (fun _ _ => True) .new
    (variableInstances.map fun variableInstance => .newTest "t" variableInstance)

/-- The variable instances 1, 2 and 1 of a test make three results, two of them for 1. -/
theorem not_instances_unique :
    ¬ ∀ s : ResultSession, GuardedRun ResultSession.call (fun _ _ => True) .new s →
      s.InstancesUnique := by
  intro h
  have hrun : ∀ s : ResultSession, testSession [1, 2, 1] = some s → s.InstancesUnique :=
    fun s hs => h s (GuardedRun.of_replay hs)
  have hnodup := (hrun _ rfl).unique.tests
  exact absurd hnodup (by decide)

/-- The variable instances 1 and 2 make a result each. -/
theorem instances_unique_two :
    ∃ s : ResultSession, s.sys.testInstances = [("t", 1), ("t", 2)] ∧ s.InstancesUnique := by
  have hfirst : GuardedRun ResultSession.call ResultSession.Meets .new
      ⟨⟨[], [⟨"t", .notEvaluated, 1⟩]⟩, [("t", 1, 0)], []⟩ :=
    GuardedRun.refl.tail (e := .newTest "t" 1) (.inr (.inl (by decide))) rfl
  have hsecond : GuardedRun ResultSession.call ResultSession.Meets .new
      ⟨⟨[], [⟨"t", .notEvaluated, 1⟩, ⟨"t", .notEvaluated, 2⟩]⟩,
        [("t", 1, 0), ("t", 2, 1)], []⟩ :=
    hfirst.tail (e := .newTest "t" 2) (.inr (.inl (by decide))) rfl
  exact ⟨_, rfl, instances_unique hsecond⟩

end OpenScap.ResultSystem
