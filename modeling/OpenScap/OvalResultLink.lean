import OpenScap.CNumber
import OpenScap.OvalResultClone
import OpenScap.OvalResultSystem

/-!
# The variable instances of links

A node of a criteria that links the result of a test or definition has a variable instance of
its own, and in a document the link is made of the reference and this number. There are three
ways to come by such nodes: they are made from the nodes of a definition, copied, or read from
a document that has been written before.

## Main results

* `getNewTest_place`, `getNewDefinition_place` — the variable instance of what a call finds;
* `makeNode_wellLinked_iff`, `parseNode_wellLinked_iff`, `cloneNode_wellLinked_iff` — when the
  nodes of each of the three kinds have the variable instances of what they link;
* `readInstance_writeInstance` — a variable instance in a document.
-/

open AppendStore

namespace OpenScap.ResultSystem

/-! ### Documents -/

/-- `%d` of an `int`. -/
def formatD (z : ℤ) : List UInt8 :=
  if z < 0 then ascii '-' :: formatLu z.natAbs else formatLu z.natAbs

/-- The attribute `variable_instance`, printed into ten bytes if it is not 1. -/
def writeInstance (instance_ : ℤ) : Option (List UInt8) :=
  if instance_ ≠ 1 then some ((formatD instance_).take 9) else none

/-- `oval_parser_int_attribute` of `variable_instance`. -/
def readInstance : Option (List UInt8) → ℤ
  | none => 1
  | some string => atoi string

/-- The elements of a criteria in a document. -/
inductive CriteriaElement where
  | criteria (operator : OvalOperator) (result : OvalResult) (negate applicabilityCheck : Bool)
      (children : List CriteriaElement)
  | criterion (testRef : String) (variableInstance : Option (List UInt8)) (result : OvalResult)
      (negate applicabilityCheck : Bool)
  | extendDefinition (definitionRef : String) (variableInstance : Option (List UInt8))
      (result : OvalResult) (negate applicabilityCheck : Bool)

/-- The id of the test whose result stands at a place; no node links another place. -/
def OvalResultSystem.testRef (sys : OvalResultSystem) (place : ℕ) : String :=
  (sys.tests[place]?.map OvalResultTest.id).getD ""

/-- The id of the definition whose result stands at a place. -/
def OvalResultSystem.definitionRef (sys : OvalResultSystem) (place : ℕ) : String :=
  (sys.definitions[place]?.map OvalResultDefinition.id).getD ""

mutual

/-- `oval_result_criteria_node_to_dom`. -/
def ovalResultCriteriaNodeToDom (sys : OvalResultSystem) :
    OvalResultCriteriaNode → CriteriaElement
  | .criteria result negate applicabilityCheck operator subnodes =>
      .criteria operator result negate applicabilityCheck (subnodesToDom sys subnodes)
  | .criterion result negate applicabilityCheck test variableInstance =>
      .criterion (sys.testRef test) (writeInstance variableInstance) result negate
        applicabilityCheck
  | .extenddef result negate applicabilityCheck extends_ variableInstance =>
      .extendDefinition (sys.definitionRef extends_) (writeInstance variableInstance) result
        negate applicabilityCheck

/-- The elements of the subnodes of a criteria. -/
def subnodesToDom (sys : OvalResultSystem) :
    List OvalResultCriteriaNode → List CriteriaElement
  | [] => []
  | node :: nodes => ovalResultCriteriaNodeToDom sys node :: subnodesToDom sys nodes

end

/-- The definitions of a document by their ids. -/
structure OvalDefinitionModel where
  definition : String → OvalDefinition
  id_eq : ∀ id, (definition id).id = id

mutual

/-- `oval_result_criteria_node_parse`. -/
def ovalResultCriteriaNodeParse (model : OvalDefinitionModel) :
    CriteriaElement → OvalResultSystem → OvalResultSystem × OvalResultCriteriaNode
  | .criteria operator result negate applicabilityCheck children, sys =>
      let (sys, subnodes) := parseChildren model children sys
      (sys, .criteria result negate applicabilityCheck operator subnodes)
  | .criterion testRef attr result negate applicabilityCheck, sys =>
      let variableInstance := readInstance attr
      let (sys, rsltTest) := ovalResultSystemGetNewTest sys testRef variableInstance
      (sys, .criterion result negate applicabilityCheck rsltTest variableInstance)
  | .extendDefinition definitionRef attr result negate applicabilityCheck, sys =>
      let variableInstance := readInstance attr
      let (sys, rsltDefinition) := ovalResultSystemGetNewDefinition
        (model.definition definitionRef) variableInstance sys
      (sys, .extenddef result negate applicabilityCheck rsltDefinition variableInstance)

/-- The elements below a criteria. -/
def parseChildren (model : OvalDefinitionModel) :
    List CriteriaElement → OvalResultSystem → OvalResultSystem × List OvalResultCriteriaNode
  | [], sys => (sys, [])
  | child :: children, sys =>
      let (sys, node) := ovalResultCriteriaNodeParse model child sys
      let (sys, nodes) := parseChildren model children sys
      (sys, node :: nodes)

end

/-! ### What a call finds -/

/-- The variable instance of what a call for a test finds. -/
def testInstanceFound (sys : OvalResultSystem) (test : String) (variableInstance : ℤ) : ℤ :=
  match sys.getTest test with
  | none => variableInstance
  | some (_, rsltTest) => if variableInstance ≠ 0 then variableInstance else rsltTest.instance_

/-- The variable instance of what a call for a definition finds. -/
def definitionInstanceFound (sys : OvalResultSystem) (id : String) (variableInstance : ℤ) : ℤ :=
  match sys.getDefinition id with
  | none => if variableInstance ≠ 0 then variableInstance else 1
  | some (_, rsltDefinition) => rsltDefinition.variableInstanceHint

/-- **What a call for a test finds.** -/
theorem getNewTest_place (sys : OvalResultSystem) (test : String) (variableInstance : ℤ) :
    (ovalResultSystemGetNewTest sys test variableInstance).1.testInstances[
        (ovalResultSystemGetNewTest sys test variableInstance).2]? =
      some (test, testInstanceFound sys test variableInstance) := by
  rw [ovalResultSystemGetNewTest, testInstanceFound]
  have hadd : (sys.addTest (makeResultTestFromOvalTest test variableInstance)).1.testInstances[
      sys.tests.length]? = some (test, variableInstance) := by
    simp [OvalResultSystem.testInstances, OvalResultSystem.addTest, makeResultTestFromOvalTest]
  cases hget : sys.getTest test with
  | none => exact hadd
  | some found =>
      obtain ⟨place, rsltTest⟩ := found
      by_cases hnew : variableInstance ≠ 0 ∧ rsltTest.instance_ ≠ variableInstance
      · simp only [if_pos hnew, if_pos hnew.1]
        exact hadd
      · simp only [if_neg hnew]
        rw [OvalResultSystem.getTest_some hget]
        by_cases hzero : variableInstance ≠ 0
        · have hsame : rsltTest.instance_ = variableInstance := by
            by_contra hother
            exact hnew ⟨hzero, hother⟩
          rw [if_pos hzero, hsame]
        · rw [if_neg hzero]

/-- **What a call for a definition finds.** -/
theorem getNewDefinition_place (definition : OvalDefinition) (variableInstance : ℤ)
    (sys : OvalResultSystem) :
    (ovalResultSystemGetNewDefinition definition variableInstance sys).1.definitionInstances[
        (ovalResultSystemGetNewDefinition definition variableInstance sys).2]? =
      some (definition.id, definitionInstanceFound sys definition.id variableInstance) := by
  rw [getNewDefinition_eq, definitionInstanceFound]
  cases hget : sys.getDefinition definition.id with
  | none => exact addNewDefinition_replies _ _ _
  | some found =>
      obtain ⟨place, rsltDefinition⟩ := found
      by_cases hhint : rsltDefinition.variableInstanceHint ≠ rsltDefinition.instance_
      · simp only [if_pos hhint]
        exact addNewDefinition_replies _ _ _
      · simp only [if_neg hhint]
        rw [OvalResultSystem.getDefinition_some hget, not_ne_iff.mp hhint]

/-! ### Links -/

mutual

/-- Whether every node that links a result has the variable instance of what it links. -/
def OvalResultCriteriaNode.WellLinked (sys : OvalResultSystem) : OvalResultCriteriaNode → Prop
  | .criteria _ _ _ _ subnodes => SubnodesWellLinked sys subnodes
  | .criterion _ _ _ test variableInstance =>
      ∃ id, sys.testInstances[test]? = some (id, variableInstance)
  | .extenddef _ _ _ extends_ variableInstance =>
      ∃ id, sys.definitionInstances[extends_]? = some (id, variableInstance)

/-- The same for the subnodes of a criteria. -/
def SubnodesWellLinked (sys : OvalResultSystem) : List OvalResultCriteriaNode → Prop
  | [] => True
  | node :: nodes => node.WellLinked sys ∧ SubnodesWellLinked sys nodes

end

mutual

/-- When the nodes made from those of a definition are well linked: what is found for each of
them, in the system that it is looked for in, has the variable instance 1. -/
def NodeLinks : OvalCriteriaNode → ℤ → OvalResultSystem → Prop
  | .criteria _ _ _ subnodes, variableInstance, sys => SubnodesLink subnodes variableInstance sys
  | .criterion _ _ test, variableInstance, sys =>
      variableInstance = 1 ∨ variableInstance = 0 ∧
        ∃ place rsltTest, sys.getTest test = some (place, rsltTest) ∧ rsltTest.instance_ = 1
  | .extenddef _ _ definition, variableInstance, sys =>
      match sys.getDefinition definition.id with
      | none => variableInstance = 0 ∨ variableInstance = 1
      | some (_, rsltDefinition) => rsltDefinition.variableInstanceHint = 1

/-- The same for the subnodes of a criteria. -/
def SubnodesLink : List OvalCriteriaNode → ℤ → OvalResultSystem → Prop
  | [], _, _ => True
  | node :: nodes, variableInstance, sys =>
      NodeLinks node variableInstance sys ∧
        SubnodesLink nodes variableInstance (makeResultCriteriaNode node variableInstance sys).1

end

mutual

/-- When the nodes read from a document are well linked: what is found for each of them, in the
system that it is looked for in, has the variable instance that is read. -/
def ElementLinks (model : OvalDefinitionModel) : CriteriaElement → OvalResultSystem → Prop
  | .criteria _ _ _ _ children, sys => ChildrenLink model children sys
  | .criterion testRef attr _ _ _, sys =>
      readInstance attr ≠ 0 ∨
        ∀ place rsltTest, sys.getTest testRef = some (place, rsltTest) → rsltTest.instance_ = 0
  | .extendDefinition definitionRef attr _ _ _, sys =>
      match sys.getDefinition definitionRef with
      | none => readInstance attr ≠ 0
      | some (_, rsltDefinition) => rsltDefinition.variableInstanceHint = readInstance attr

/-- The same for the elements below a criteria. -/
def ChildrenLink (model : OvalDefinitionModel) : List CriteriaElement → OvalResultSystem → Prop
  | [], _ => True
  | child :: children, sys =>
      ElementLinks model child sys ∧
        ChildrenLink model children (ovalResultCriteriaNodeParse model child sys).1

end

/-- A system that has all results of another one at their places. -/
structure OvalResultSystem.Within (sys sys' : OvalResultSystem) : Prop where
  tests : sys.testInstances <+: sys'.testInstances
  definitions : sys.definitionInstances <+: sys'.definitionInstances

theorem OvalResultSystem.Within.trans {sys sys' sys'' : OvalResultSystem}
    (h : sys.Within sys') (h' : sys'.Within sys'') : sys.Within sys'' :=
  ⟨h.tests.trans h'.tests, h.definitions.trans h'.definitions⟩

/-- A system that has grown. -/
theorem Extends.within {ids : List String} {sys sys' : OvalResultSystem}
    (h : Extends ids sys sys') : sys.Within sys' :=
  ⟨h.tests, h.definitions⟩

/-- A link to what a call for a test finds. -/
theorem test_linked_iff {sys sys' : OvalResultSystem} {test : String} {variableInstance : ℤ}
    (h : (ovalResultSystemGetNewTest sys test variableInstance).1.Within sys')
    (instance_ : ℤ) :
    (∃ id, sys'.testInstances[(ovalResultSystemGetNewTest sys test variableInstance).2]? =
        some (id, instance_)) ↔ testInstanceFound sys test variableInstance = instance_ := by
  rw [getElem?_mono h.tests (getNewTest_place sys test variableInstance)]
  simp

/-- A link to what a call for a definition finds. -/
theorem definition_linked_iff {sys sys' : OvalResultSystem} {definition : OvalDefinition}
    {variableInstance : ℤ}
    (h : (ovalResultSystemGetNewDefinition definition variableInstance sys).1.Within sys')
    (instance_ : ℤ) :
    (∃ id, sys'.definitionInstances[
          (ovalResultSystemGetNewDefinition definition variableInstance sys).2]? =
        some (id, instance_)) ↔
      definitionInstanceFound sys definition.id variableInstance = instance_ := by
  rw [getElem?_mono h.definitions (getNewDefinition_place definition variableInstance sys)]
  simp

mutual

/-- **When the nodes made for a definition are well linked.** -/
theorem makeNode_wellLinked_iff (node : OvalCriteriaNode) (variableInstance : ℤ)
    (sys sys' : OvalResultSystem)
    (h : (makeResultCriteriaNode node variableInstance sys).1.Within sys') :
    (makeResultCriteriaNode node variableInstance sys).2.WellLinked sys' ↔
      NodeLinks node variableInstance sys := by
  cases node with
  | criteria negate applicabilityCheck operator subnodes =>
      rw [makeResultCriteriaNode] at h ⊢
      rw [OvalResultCriteriaNode.WellLinked, NodeLinks]
      exact makeSubnodes_wellLinked_iff subnodes variableInstance sys sys' h
  | criterion negate applicabilityCheck test =>
      rw [makeResultCriteriaNode] at h ⊢
      rw [OvalResultCriteriaNode.WellLinked, NodeLinks, test_linked_iff h, testInstanceFound]
      cases sys.getTest test with
      | none => simp
      | some found =>
          obtain ⟨place, rsltTest⟩ := found
          by_cases hzero : variableInstance = 0 <;> simp [hzero]
  | extenddef negate applicabilityCheck definition =>
      rw [makeResultCriteriaNode] at h ⊢
      rw [OvalResultCriteriaNode.WellLinked, NodeLinks, definition_linked_iff h,
        definitionInstanceFound]
      cases sys.getDefinition definition.id with
      | none => by_cases hzero : variableInstance = 0 <;> simp [hzero]
      | some found => rfl

/-- The same for the subnodes of a criteria. -/
theorem makeSubnodes_wellLinked_iff (nodes : List OvalCriteriaNode) (variableInstance : ℤ)
    (sys sys' : OvalResultSystem)
    (h : (makeSubnodes nodes variableInstance sys).1.Within sys') :
    SubnodesWellLinked sys' (makeSubnodes nodes variableInstance sys).2 ↔
      SubnodesLink nodes variableInstance sys := by
  cases nodes with
  | nil => rw [makeSubnodes, SubnodesWellLinked, SubnodesLink]
  | cons node nodes =>
      rw [makeSubnodes] at h ⊢
      rw [SubnodesWellLinked, SubnodesLink]
      have hrest := (makeSubnodes_extends nodes variableInstance
        (makeResultCriteriaNode node variableInstance sys).1).within
      exact and_congr
        (makeNode_wellLinked_iff node variableInstance sys sys' (hrest.trans h))
        (makeSubnodes_wellLinked_iff nodes variableInstance _ sys' h)

end

mutual

/-- Reading a node adds results only. -/
theorem parseNode_within (model : OvalDefinitionModel) (element : CriteriaElement)
    (sys : OvalResultSystem) :
    sys.Within (ovalResultCriteriaNodeParse model element sys).1 := by
  cases element with
  | criteria operator result negate applicabilityCheck children =>
      rw [ovalResultCriteriaNodeParse]
      exact parseChildren_within model children sys
  | criterion testRef attr result negate applicabilityCheck =>
      rw [ovalResultCriteriaNodeParse]
      exact (getNewTest_extends sys testRef (readInstance attr)).within
  | extendDefinition definitionRef attr result negate applicabilityCheck =>
      rw [ovalResultCriteriaNodeParse]
      exact (getNewDefinition_extends _ _ sys).within

/-- So does reading the elements below a criteria. -/
theorem parseChildren_within (model : OvalDefinitionModel) (children : List CriteriaElement)
    (sys : OvalResultSystem) : sys.Within (parseChildren model children sys).1 := by
  cases children with
  | nil =>
      rw [parseChildren]
      exact ⟨List.prefix_rfl, List.prefix_rfl⟩
  | cons child children =>
      rw [parseChildren]
      exact (parseNode_within model child sys).trans (parseChildren_within model children _)

end

mutual

/-- **When the nodes read from a document are well linked.** -/
theorem parseNode_wellLinked_iff (model : OvalDefinitionModel) (element : CriteriaElement)
    (sys sys' : OvalResultSystem)
    (h : (ovalResultCriteriaNodeParse model element sys).1.Within sys') :
    (ovalResultCriteriaNodeParse model element sys).2.WellLinked sys' ↔
      ElementLinks model element sys := by
  cases element with
  | criteria operator result negate applicabilityCheck children =>
      rw [ovalResultCriteriaNodeParse] at h ⊢
      rw [OvalResultCriteriaNode.WellLinked, ElementLinks]
      exact parseChildren_wellLinked_iff model children sys sys' h
  | criterion testRef attr result negate applicabilityCheck =>
      rw [ovalResultCriteriaNodeParse] at h ⊢
      rw [OvalResultCriteriaNode.WellLinked, ElementLinks, test_linked_iff h, testInstanceFound]
      cases sys.getTest testRef with
      | none => simp
      | some found =>
          obtain ⟨place, rsltTest⟩ := found
          by_cases hzero : readInstance attr = 0 <;> simp [hzero]
  | extendDefinition definitionRef attr result negate applicabilityCheck =>
      rw [ovalResultCriteriaNodeParse] at h ⊢
      rw [OvalResultCriteriaNode.WellLinked, ElementLinks, definition_linked_iff h, model.id_eq,
        definitionInstanceFound]
      cases sys.getDefinition definitionRef with
      | none => by_cases hzero : readInstance attr = 0 <;> simp [hzero]
      | some found => rfl

/-- The same for the elements below a criteria. -/
theorem parseChildren_wellLinked_iff (model : OvalDefinitionModel)
    (children : List CriteriaElement) (sys sys' : OvalResultSystem)
    (h : (parseChildren model children sys).1.Within sys') :
    SubnodesWellLinked sys' (parseChildren model children sys).2 ↔
      ChildrenLink model children sys := by
  cases children with
  | nil => rw [parseChildren, SubnodesWellLinked, ChildrenLink]
  | cons child children =>
      rw [parseChildren] at h ⊢
      rw [SubnodesWellLinked, ChildrenLink]
      have hrest := parseChildren_within model children
        (ovalResultCriteriaNodeParse model child sys).1
      exact and_congr (parseNode_wellLinked_iff model child sys sys' (hrest.trans h))
        (parseChildren_wellLinked_iff model children _ sys' h)

end

/-- **A variable instance in a document** is read as it was, if it has at most nine digits. -/
theorem readInstance_writeInstance {instance_ : ℤ} (hnonneg : 0 ≤ instance_)
    (hlt : instance_ < 10 ^ 9) : readInstance (writeInstance instance_) = instance_ := by
  obtain ⟨n, rfl⟩ := Int.eq_ofNat_of_zero_le hnonneg
  rw [writeInstance]
  by_cases hone : ((n : ℕ) : ℤ) ≠ 1
  · have hn : n < 10 ^ 9 := by exact_mod_cast hlt
    obtain ⟨hdigits, hvalue⟩ := formatLu_spec n
    have hne : formatLu n ≠ [] := by
      rw [formatLu, ne_eq, List.map_eq_nil_iff]
      exact Nat.toDigits_ne_nil
    have hformat : (formatD n).take 9 = formatLu n := by
      rw [formatD, if_neg (by omega), Int.natAbs_natCast]
      exact List.take_of_length_le ((length_formatLu_le (by omega)).mpr hn)
    have hatoi : atoi (formatLu n ++ []) = intOf (digitsValue (formatLu n)) :=
      atoi_digits ⟨formatLu n, hne, hdigits⟩ rfl
    rw [List.append_nil] at hatoi
    rw [if_pos hone, readInstance, hformat, hatoi, hvalue, intOf_of_lt (by omega)]
  · rw [if_neg hone, not_ne_iff.mp hone]
    rfl

end OpenScap.ResultSystem

namespace OpenScap.ResultClone

/-! ### Copies -/

/-- The variable instance of a definition's result. -/
def OvalResultDefinition.instance_ : OvalResultDefinition → ℤ
  | .mk _ _ _ _ instance_ _ => instance_

mutual

/-- Whether every node that links a result has the variable instance of what it links, in the
criteria of what it extends as well. -/
def OvalResultCriteriaNode.WellLinked : OvalResultCriteriaNode → Prop
  | .criteria _ _ _ _ subnodes => SubnodesWellLinked subnodes
  | .criterion _ _ _ test variableInstance => variableInstance = test.instance_
  | .extenddef _ _ _ extends_ variableInstance =>
      variableInstance = extends_.instance_ ∧ extends_.WellLinked

/-- The same for the subnodes of a criteria. -/
def SubnodesWellLinked : List OvalResultCriteriaNode → Prop
  | [] => True
  | node :: nodes => node.WellLinked ∧ SubnodesWellLinked nodes

/-- The same for a criteria that may be missing. -/
def CriteriaWellLinked : Option OvalResultCriteriaNode → Prop
  | none => True
  | some node => node.WellLinked

/-- The same for the criteria of a definition. -/
def OvalResultDefinition.WellLinked : OvalResultDefinition → Prop
  | .mk _ _ criteria _ _ _ => CriteriaWellLinked criteria

end

mutual

/-- Whether every linked result has the variable instance 1. -/
def OvalResultCriteriaNode.LinksFirst : OvalResultCriteriaNode → Prop
  | .criteria _ _ _ _ subnodes => SubnodesLinkFirst subnodes
  | .criterion _ _ _ test _ => test.instance_ = 1
  | .extenddef _ _ _ extends_ _ => extends_.instance_ = 1 ∧ extends_.LinksFirst

/-- The same for the subnodes of a criteria. -/
def SubnodesLinkFirst : List OvalResultCriteriaNode → Prop
  | [] => True
  | node :: nodes => node.LinksFirst ∧ SubnodesLinkFirst nodes

/-- The same for a criteria that may be missing. -/
def CriteriaLinksFirst : Option OvalResultCriteriaNode → Prop
  | none => True
  | some node => node.LinksFirst

/-- The same for the criteria of a definition. -/
def OvalResultDefinition.LinksFirst : OvalResultDefinition → Prop
  | .mk _ _ criteria _ _ _ => CriteriaLinksFirst criteria

end

/-- A copy of a definition has its variable instance. -/
theorem instance_of_definitionClone {definition definition' : OvalResultDefinition}
    (h : ovalResultDefinitionClone definition = some definition') :
    definition'.instance_ = definition.instance_ := by
  cases definition with
  | mk id result criteria messages instance_ hint =>
      rw [ovalResultDefinitionClone] at h
      obtain ⟨newCrit, -, h⟩ := Option.bind_eq_some_iff.mp h
      obtain rfl := Option.some.inj h
      rfl

mutual

/-- **When the nodes of a copy are well linked.** -/
theorem cloneNode_wellLinked_iff (node node' : OvalResultCriteriaNode)
    (h : ovalResultCriteriaNodeClone node = some node') :
    node'.WellLinked ↔ node.LinksFirst := by
  cases node with
  | criteria result negate applicabilityCheck operator subnodes =>
      rw [ovalResultCriteriaNodeClone] at h
      obtain ⟨newSubs, hsubs, h⟩ := Option.bind_eq_some_iff.mp h
      obtain rfl := Option.some.inj h
      rw [OvalResultCriteriaNode.WellLinked, OvalResultCriteriaNode.LinksFirst]
      exact cloneSubnodes_wellLinked_iff subnodes newSubs hsubs
  | criterion result negate applicabilityCheck test variableInstance =>
      rw [ovalResultCriteriaNodeClone] at h
      obtain ⟨newTest, htest, h⟩ := Option.bind_eq_some_iff.mp h
      obtain rfl := Option.some.inj h
      obtain ⟨-, rfl⟩ := ovalResultTestClone_eq_some_iff.mp htest
      rw [OvalResultCriteriaNode.WellLinked, OvalResultCriteriaNode.LinksFirst]
      exact eq_comm
  | extenddef result negate applicabilityCheck extends_ variableInstance =>
      rw [ovalResultCriteriaNodeClone] at h
      obtain ⟨newDef, hdef, h⟩ := Option.bind_eq_some_iff.mp h
      obtain rfl := Option.some.inj h
      rw [OvalResultCriteriaNode.WellLinked, OvalResultCriteriaNode.LinksFirst,
        instance_of_definitionClone hdef]
      exact and_congr eq_comm (cloneDefinition_wellLinked_iff extends_ newDef hdef)

/-- The same for the subnodes of a criteria. -/
theorem cloneSubnodes_wellLinked_iff (nodes nodes' : List OvalResultCriteriaNode)
    (h : cloneSubnodes nodes = some nodes') :
    SubnodesWellLinked nodes' ↔ SubnodesLinkFirst nodes := by
  cases nodes with
  | nil =>
      obtain rfl := Option.some.inj h
      rw [SubnodesWellLinked, SubnodesLinkFirst]
  | cons node nodes =>
      rw [cloneSubnodes] at h
      obtain ⟨newSub, hsub, h⟩ := Option.bind_eq_some_iff.mp h
      obtain ⟨newSubs, hsubs, h⟩ := Option.bind_eq_some_iff.mp h
      obtain rfl := Option.some.inj h
      rw [SubnodesWellLinked, SubnodesLinkFirst]
      exact and_congr (cloneNode_wellLinked_iff node newSub hsub)
        (cloneSubnodes_wellLinked_iff nodes newSubs hsubs)

/-- The same for a criteria that may be missing. -/
theorem cloneCriteria_wellLinked_iff (criteria criteria' : Option OvalResultCriteriaNode)
    (h : cloneCriteria criteria = some criteria') :
    CriteriaWellLinked criteria' ↔ CriteriaLinksFirst criteria := by
  cases criteria with
  | none =>
      obtain rfl := Option.some.inj h
      rw [CriteriaWellLinked, CriteriaLinksFirst]
  | some node =>
      rw [cloneCriteria] at h
      obtain ⟨newCrit, hcrit, h⟩ := Option.bind_eq_some_iff.mp h
      obtain rfl := Option.some.inj h
      rw [CriteriaWellLinked, CriteriaLinksFirst]
      exact cloneNode_wellLinked_iff node newCrit hcrit

/-- The same for a definition. -/
theorem cloneDefinition_wellLinked_iff (definition definition' : OvalResultDefinition)
    (h : ovalResultDefinitionClone definition = some definition') :
    definition'.WellLinked ↔ definition.LinksFirst := by
  cases definition with
  | mk id result criteria messages instance_ hint =>
      rw [ovalResultDefinitionClone] at h
      obtain ⟨newCrit, hcrit, h⟩ := Option.bind_eq_some_iff.mp h
      obtain rfl := Option.some.inj h
      rw [OvalResultDefinition.WellLinked, OvalResultDefinition.LinksFirst]
      exact cloneCriteria_wellLinked_iff criteria newCrit hcrit

end

end OpenScap.ResultClone

namespace OpenScap.ResultSystem

/-! ### The three kinds together -/

/-- **When nodes have the variable instances of what they link**: those made for a definition,
those of a copy, and those that are read from what has been written. -/
theorem instances_linked_iff (node : OvalCriteriaNode) (variableInstance : ℤ)
    (sys : OvalResultSystem) (old : ResultClone.OvalResultCriteriaNode)
    (source : OvalResultSystem) (written : OvalResultCriteriaNode) (model : OvalDefinitionModel)
    (target : OvalResultSystem) :
    let made := makeResultCriteriaNode node variableInstance sys
    let element := ovalResultCriteriaNodeToDom source written
    let read := ovalResultCriteriaNodeParse model element target
    (made.2.WellLinked made.1 ↔ NodeLinks node variableInstance sys) ∧
      (∀ copy, ResultClone.ovalResultCriteriaNodeClone old = some copy →
        (copy.WellLinked ↔ old.LinksFirst)) ∧
      (read.2.WellLinked read.1 ↔ ElementLinks model element target) :=
  ⟨makeNode_wellLinked_iff node variableInstance sys _ ⟨List.prefix_rfl, List.prefix_rfl⟩,
    fun copy hcopy => ResultClone.cloneNode_wellLinked_iff old copy hcopy,
    parseNode_wellLinked_iff model _ target _ ⟨List.prefix_rfl, List.prefix_rfl⟩⟩

/-- A criterion for the variable instance 2 has the variable instance 1, and so does its
copy. -/
theorem not_instances_linked :
    (¬ ∀ (node : OvalCriteriaNode) (variableInstance : ℤ) (sys : OvalResultSystem),
      let made := makeResultCriteriaNode node variableInstance sys
      made.2.WellLinked made.1) ∧
    ¬ ∀ old copy : ResultClone.OvalResultCriteriaNode,
      ResultClone.ovalResultCriteriaNodeClone old = some copy → copy.WellLinked := by
  constructor
  · intro h
    have hlinks := (makeNode_wellLinked_iff (.criterion false false "t") 2 .new _
      ⟨List.prefix_rfl, List.prefix_rfl⟩).mp (h (.criterion false false "t") 2 .new)
    rw [NodeLinks] at hlinks
    rcases hlinks with htwo | ⟨htwo, -⟩
    · exact absurd htwo (by decide)
    · exact absurd htwo (by decide)
  · intro h
    have hlinked := h (.criterion .true false false ⟨"t", .true, [], [], [], 2⟩ 2) _ rfl
    rw [ResultClone.OvalResultCriteriaNode.WellLinked] at hlinked
    exact absurd hlinked (by decide)

/-- A criterion for the variable instance 1, made and copied. -/
theorem instances_linked_iff_first :
    (makeResultCriteriaNode (.criterion false false "t") 1 .new).2.WellLinked
        (makeResultCriteriaNode (.criterion false false "t") 1 .new).1 ∧
      (.criterion .notEvaluated false false ⟨"t", .true, [], [], [], 1⟩ 1 :
        ResultClone.OvalResultCriteriaNode).WellLinked := by
  have h := instances_linked_iff (.criterion false false "t") 1 .new
    (.criterion .true false false ⟨"t", .true, [], [], [], 1⟩ 1) .new
    (.criterion .true false false 0 1) ⟨fun id => .mk id none, fun _ => rfl⟩ .new
  refine ⟨h.1.mpr ?_, (h.2.1 _ rfl).mpr ?_⟩
  · rw [NodeLinks]
    exact .inl rfl
  · rw [ResultClone.OvalResultCriteriaNode.LinksFirst]

end OpenScap.ResultSystem
