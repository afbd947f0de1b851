import Mathlib.Data.Int.Notation
import OpenScap.FallibleLoop
import OpenScap.OvalResult

/-!
# Copying results

`oval_result_system_clone` copies the results of definitions and tests of a system. Here a node
holds the result that it links itself, so that a system is what can be seen of it through all
links. A copy may fail on an assertion (`none`): the variables of a test are looked up in a
definition model that is a null pointer.

## Main results

* `systemClone_eq_self_iff` — when a copy is like the original;
* `fresh_of_systemClone` — every copy is of this kind;
* `clone_preserves_iff` — so a copy of a copy is like the copy.
-/

open FallibleLoop

namespace OpenScap.ResultClone

/-! ### Results -/

/-- `oval_message_level_t`. -/
inductive OvalMessageLevel
  | none
  | debug
  | info
  | warning
  | error
  | fatal

/-- `struct oval_message`. -/
structure OvalMessage where
  text : Option String
  level : OvalMessageLevel

/-- `struct oval_result_item`; the item of the system characteristics by its id. -/
structure OvalResultItem where
  sysitem : String
  result : OvalResult
  messages : List OvalMessage

/-- `struct oval_variable_binding`; the variable by its id. -/
structure OvalVariableBinding where
  variable_ : Option String
  values : List String

/-- `struct oval_result_test`; the test by its id. -/
structure OvalResultTest where
  test : String
  result : OvalResult
  messages : List OvalMessage
  items : List OvalResultItem
  bindings : List OvalVariableBinding
  instance_ : ℤ

mutual

/-- `struct oval_result_criteria_node`. -/
inductive OvalResultCriteriaNode where
  | criteria (result : OvalResult) (negate applicabilityCheck : Bool) (operator : OvalOperator)
      (subnodes : List OvalResultCriteriaNode)
  | criterion (result : OvalResult) (negate applicabilityCheck : Bool) (test : OvalResultTest)
      (variableInstance : ℤ)
  | extenddef (result : OvalResult) (negate applicabilityCheck : Bool)
      (extends_ : OvalResultDefinition) (variableInstance : ℤ)

/-- `struct oval_result_definition`; the definition by its id. -/
inductive OvalResultDefinition where
  | mk (definition : String) (result : OvalResult) (criteria : Option OvalResultCriteriaNode)
      (messages : List OvalMessage) (instance_ variableInstanceHint : ℤ)

end

/-- `struct oval_smc`: some entries for each key. -/
abbrev OvalSmc (α : Type) := List (String × List α)

/-- `struct oval_result_system`. -/
@[ext]
structure OvalResultSystem where
  definitions : OvalSmc OvalResultDefinition
  tests : OvalSmc OvalResultTest

/-! ### Copies -/

/-- `oval_message_clone`. -/
def ovalMessageClone (oldMessage : OvalMessage) : OvalMessage :=
  ⟨oldMessage.text, oldMessage.level⟩

/-- `oval_result_item_new`. -/
def ovalResultItemNew (itemId : String) : OvalResultItem := ⟨itemId, .notEvaluated, []⟩

/-- `oval_result_item_clone`. -/
def ovalResultItemClone (oldItem : OvalResultItem) : OvalResultItem :=
  -- the result is set again, but on the old item
  { ovalResultItemNew oldItem.sysitem with messages := oldItem.messages.map ovalMessageClone }

/-- `oval_variable_binding_clone`, with the ids of the variables of a definition model. -/
def ovalVariableBindingClone (oldBinding : OvalVariableBinding) (defModel : Option (List String)) :
    Option OvalVariableBinding :=
  defModel.map fun varids =>
    ⟨varids.find? fun varid => oldBinding.variable_ = some varid, oldBinding.values⟩

/-- `oval_result_test_clone`. -/
def ovalResultTestClone (oldTest : OvalResultTest) : Option OvalResultTest := do
  let bindings ← oldTest.bindings.mapM fun binding => ovalVariableBindingClone binding none
  return ⟨oldTest.test, oldTest.result, oldTest.messages.map ovalMessageClone,
    oldTest.items.map ovalResultItemClone, bindings, oldTest.instance_⟩

mutual

/-- `oval_result_criteria_node_clone`. -/
def ovalResultCriteriaNodeClone : OvalResultCriteriaNode → Option OvalResultCriteriaNode
  -- as for items, the result is set on the old node
  | .criteria _ negate applicabilityCheck operator oldSubs => do
      let newSubs ← cloneSubnodes oldSubs
      return .criteria .notEvaluated negate applicabilityCheck operator newSubs
  | .criterion _ negate applicabilityCheck oldTest _ => do
      let newTest ← ovalResultTestClone oldTest
      return .criterion .notEvaluated negate applicabilityCheck newTest 1
  | .extenddef _ negate applicabilityCheck oldDef _ => do
      let newDef ← ovalResultDefinitionClone oldDef
      return .extenddef .notEvaluated negate applicabilityCheck newDef 1

/-- The loop over the subnodes of a criteria. -/
def cloneSubnodes : List OvalResultCriteriaNode → Option (List OvalResultCriteriaNode)
  | [] => some []
  | oldSub :: oldSubs => do
      let newSub ← ovalResultCriteriaNodeClone oldSub
      let newSubs ← cloneSubnodes oldSubs
      return newSub :: newSubs

/-- The copy of a criteria that may be missing. -/
def cloneCriteria : Option OvalResultCriteriaNode → Option (Option OvalResultCriteriaNode)
  | none => some none
  | some oldCrit => do
      let newCrit ← ovalResultCriteriaNodeClone oldCrit
      return some newCrit

/-- `oval_result_definition_clone`. -/
def ovalResultDefinitionClone : OvalResultDefinition → Option OvalResultDefinition
  | .mk id result oldCrit messages instance_ hint => do
      let newCrit ← cloneCriteria oldCrit
      return .mk id result newCrit (messages.map ovalMessageClone) instance_ hint

end

/-- `oval_smc_clone_user`. -/
def ovalSmcCloneUser {α : Type} (oldmap : OvalSmc α) (cloner : α → Option α) :
    Option (OvalSmc α) :=
  oldmap.mapM fun entry => (entry.2.mapM cloner).map (Prod.mk entry.1)

/-- `oval_result_system_clone`. -/
def ovalResultSystemClone (oldSystem : OvalResultSystem) : Option OvalResultSystem := do
  let definitions ← ovalSmcCloneUser oldSystem.definitions ovalResultDefinitionClone
  let tests ← ovalSmcCloneUser oldSystem.tests ovalResultTestClone
  return ⟨definitions, tests⟩

/-! ### What a copy is like -/

/-- A test as its copies are: no item has a result, and there are no variables. -/
structure OvalResultTest.Fresh (test : OvalResultTest) : Prop where
  items : ∀ item ∈ test.items, item.result = .notEvaluated
  bindings : test.bindings = []

mutual

/-- A node as its copies are: neither it nor one below has a result, and the nodes that link a
result have the variable instance 1. -/
def OvalResultCriteriaNode.Fresh : OvalResultCriteriaNode → Prop
  | .criteria result _ _ _ subnodes => result = .notEvaluated ∧ SubnodesFresh subnodes
  | .criterion result _ _ test variableInstance =>
      result = .notEvaluated ∧ variableInstance = 1 ∧ test.Fresh
  | .extenddef result _ _ extends_ variableInstance =>
      result = .notEvaluated ∧ variableInstance = 1 ∧ extends_.Fresh

/-- The same for the subnodes of a criteria. -/
def SubnodesFresh : List OvalResultCriteriaNode → Prop
  | [] => True
  | node :: nodes => node.Fresh ∧ SubnodesFresh nodes

/-- The same for a criteria that may be missing. -/
def CriteriaFresh : Option OvalResultCriteriaNode → Prop
  | none => True
  | some node => node.Fresh

/-- A definition with such a criteria. -/
def OvalResultDefinition.Fresh : OvalResultDefinition → Prop
  | .mk _ _ criteria _ _ _ => CriteriaFresh criteria

end

/-- A system as its copies are. -/
structure OvalResultSystem.Fresh (sys : OvalResultSystem) : Prop where
  definitions : ∀ entry ∈ sys.definitions, ∀ definition ∈ entry.2, definition.Fresh
  tests : ∀ entry ∈ sys.tests, ∀ test ∈ entry.2, test.Fresh

/-- A copy of a message is like it. -/
@[simp]
theorem map_ovalMessageClone (messages : List OvalMessage) :
    messages.map ovalMessageClone = messages :=
  List.map_id messages

/-- A copy of an item is like it when the item has no result. -/
theorem ovalResultItemClone_eq_self_iff (item : OvalResultItem) :
    ovalResultItemClone item = item ↔ item.result = .notEvaluated := by
  obtain ⟨sysitem, result, messages⟩ := item
  simp [ovalResultItemClone, ovalResultItemNew, eq_comm]

/-- Variables cannot be copied. -/
theorem mapM_bindingClone_eq_some_iff {bindings bindings' : List OvalVariableBinding} :
    (bindings.mapM fun binding => ovalVariableBindingClone binding none) = some bindings' ↔
      bindings = [] ∧ bindings' = [] := by
  cases bindings with
  | nil => simp [eq_comm]
  | cons binding bindings => simp [ovalVariableBindingClone]

/-- What a copy of a test is. -/
theorem ovalResultTestClone_eq_some_iff {test test' : OvalResultTest} :
    ovalResultTestClone test = some test' ↔
      test.bindings = [] ∧ test' = ⟨test.test, test.result, test.messages,
        test.items.map ovalResultItemClone, [], test.instance_⟩ := by
  rw [ovalResultTestClone, Option.bind_eq_bind, Option.bind_eq_some_iff]
  simp only [mapM_bindingClone_eq_some_iff, map_ovalMessageClone]
  constructor
  · rintro ⟨bindings, ⟨hnone, rfl⟩, heq⟩
    exact ⟨hnone, (Option.some.inj heq).symm⟩
  · rintro ⟨hnone, rfl⟩
    exact ⟨[], ⟨hnone, rfl⟩, rfl⟩

/-- A copy of a test is like it when the test is as copies are. -/
theorem testClone_eq_self_iff (test : OvalResultTest) :
    ovalResultTestClone test = some test ↔ test.Fresh := by
  rw [ovalResultTestClone_eq_some_iff]
  obtain ⟨id, result, messages, items, bindings, instance_⟩ := test
  have hitems : items.map ovalResultItemClone = items ↔
      ∀ item ∈ items, item.result = .notEvaluated := by
    induction items with
    | nil => simp
    | cons item items ih =>
        rw [List.map_cons, List.cons.injEq, ovalResultItemClone_eq_self_iff, ih,
          List.forall_mem_cons]
  constructor
  · rintro ⟨hnone, heq⟩
    rw [OvalResultTest.mk.injEq] at heq
    exact ⟨hitems.mp heq.2.2.2.1.symm, hnone⟩
  · rintro ⟨hfresh, hnone⟩
    obtain rfl : bindings = [] := hnone
    exact ⟨rfl, by rw [hitems.mpr hfresh]⟩

/-- Copies of tests are as copies are. -/
theorem fresh_of_testClone {test test' : OvalResultTest}
    (h : ovalResultTestClone test = some test') : test'.Fresh := by
  obtain ⟨-, rfl⟩ := ovalResultTestClone_eq_some_iff.mp h
  refine ⟨fun item hitem => ?_, rfl⟩
  obtain ⟨old, -, rfl⟩ := List.mem_map.mp hitem
  rfl

mutual

/-- A copy of a node is like it when the node is as copies are. -/
theorem nodeClone_eq_self_iff (node : OvalResultCriteriaNode) :
    ovalResultCriteriaNodeClone node = some node ↔ node.Fresh := by
  cases node with
  | criteria result negate applicabilityCheck operator subnodes =>
      rw [OvalResultCriteriaNode.Fresh, ← subnodesClone_eq_self_iff subnodes,
        ovalResultCriteriaNodeClone]
      cases cloneSubnodes subnodes <;> simp [eq_comm]
  | criterion result negate applicabilityCheck test variableInstance =>
      rw [OvalResultCriteriaNode.Fresh, ← testClone_eq_self_iff, ovalResultCriteriaNodeClone]
      cases ovalResultTestClone test <;> simp [eq_comm, and_comm]
  | extenddef result negate applicabilityCheck extends_ variableInstance =>
      rw [OvalResultCriteriaNode.Fresh, ← definitionClone_eq_self_iff extends_,
        ovalResultCriteriaNodeClone]
      cases ovalResultDefinitionClone extends_ <;> simp [eq_comm, and_comm]

/-- So are the copies of the subnodes. -/
theorem subnodesClone_eq_self_iff (nodes : List OvalResultCriteriaNode) :
    cloneSubnodes nodes = some nodes ↔ SubnodesFresh nodes := by
  cases nodes with
  | nil => simp [cloneSubnodes, SubnodesFresh]
  | cons node nodes =>
      rw [SubnodesFresh, ← nodeClone_eq_self_iff node, ← subnodesClone_eq_self_iff nodes,
        cloneSubnodes]
      cases ovalResultCriteriaNodeClone node <;> cases cloneSubnodes nodes <;> simp

/-- So is the copy of a criteria. -/
theorem criteriaClone_eq_self_iff (criteria : Option OvalResultCriteriaNode) :
    cloneCriteria criteria = some criteria ↔ CriteriaFresh criteria := by
  cases criteria with
  | none => simp [cloneCriteria, CriteriaFresh]
  | some node =>
      rw [CriteriaFresh, ← nodeClone_eq_self_iff node, cloneCriteria]
      cases ovalResultCriteriaNodeClone node <;> simp

/-- So is the copy of a definition. -/
theorem definitionClone_eq_self_iff (definition : OvalResultDefinition) :
    ovalResultDefinitionClone definition = some definition ↔ definition.Fresh := by
  cases definition with
  | mk id result criteria messages instance_ hint =>
      rw [OvalResultDefinition.Fresh, ← criteriaClone_eq_self_iff criteria,
        ovalResultDefinitionClone]
      cases cloneCriteria criteria <;> simp

end

mutual

/-- Copies of nodes are as copies are. -/
theorem fresh_of_nodeClone (node node' : OvalResultCriteriaNode)
    (h : ovalResultCriteriaNodeClone node = some node') : node'.Fresh := by
  cases node with
  | criteria result negate applicabilityCheck operator subnodes =>
      rw [ovalResultCriteriaNodeClone] at h
      obtain ⟨newSubs, hsubs, h⟩ := Option.bind_eq_some_iff.mp h
      obtain rfl := Option.some.inj h
      rw [OvalResultCriteriaNode.Fresh]
      exact ⟨rfl, fresh_of_subnodesClone subnodes newSubs hsubs⟩
  | criterion result negate applicabilityCheck test variableInstance =>
      rw [ovalResultCriteriaNodeClone] at h
      obtain ⟨newTest, htest, h⟩ := Option.bind_eq_some_iff.mp h
      obtain rfl := Option.some.inj h
      rw [OvalResultCriteriaNode.Fresh]
      exact ⟨rfl, rfl, fresh_of_testClone htest⟩
  | extenddef result negate applicabilityCheck extends_ variableInstance =>
      rw [ovalResultCriteriaNodeClone] at h
      obtain ⟨newDef, hdef, h⟩ := Option.bind_eq_some_iff.mp h
      obtain rfl := Option.some.inj h
      rw [OvalResultCriteriaNode.Fresh]
      exact ⟨rfl, rfl, fresh_of_definitionClone extends_ newDef hdef⟩

/-- So are the copies of subnodes. -/
theorem fresh_of_subnodesClone (nodes nodes' : List OvalResultCriteriaNode)
    (h : cloneSubnodes nodes = some nodes') : SubnodesFresh nodes' := by
  cases nodes with
  | nil =>
      obtain rfl := Option.some.inj h
      trivial
  | cons node nodes =>
      rw [cloneSubnodes] at h
      obtain ⟨newSub, hsub, h⟩ := Option.bind_eq_some_iff.mp h
      obtain ⟨newSubs, hsubs, h⟩ := Option.bind_eq_some_iff.mp h
      obtain rfl := Option.some.inj h
      rw [SubnodesFresh]
      exact ⟨fresh_of_nodeClone node newSub hsub, fresh_of_subnodesClone nodes newSubs hsubs⟩

/-- So are the copies of criteria. -/
theorem fresh_of_criteriaClone (criteria criteria' : Option OvalResultCriteriaNode)
    (h : cloneCriteria criteria = some criteria') : CriteriaFresh criteria' := by
  cases criteria with
  | none =>
      obtain rfl := Option.some.inj h
      trivial
  | some node =>
      rw [cloneCriteria] at h
      obtain ⟨newCrit, hcrit, h⟩ := Option.bind_eq_some_iff.mp h
      obtain rfl := Option.some.inj h
      rw [CriteriaFresh]
      exact fresh_of_nodeClone node newCrit hcrit

/-- So are the copies of definitions. -/
theorem fresh_of_definitionClone (definition definition' : OvalResultDefinition)
    (h : ovalResultDefinitionClone definition = some definition') : definition'.Fresh := by
  cases definition with
  | mk id result criteria messages instance_ hint =>
      rw [ovalResultDefinitionClone] at h
      obtain ⟨newCrit, hcrit, h⟩ := Option.bind_eq_some_iff.mp h
      obtain rfl := Option.some.inj h
      rw [OvalResultDefinition.Fresh]
      exact fresh_of_criteriaClone criteria newCrit hcrit

end

/-! ### Systems -/

/-- A loop gives back a list when every step gives back its entry. -/
theorem mapM_eq_self_iff {α : Type} {f : α → Option α} (l : List α) :
    l.mapM f = some l ↔ ∀ x ∈ l, f x = some x := by
  rw [mapM_eq_some_iff, List.map_inj_left]

/-- The copy of a map is like it when those of its entries are. -/
theorem smcClone_eq_self_iff {α : Type} (oldmap : OvalSmc α) (cloner : α → Option α) :
    ovalSmcCloneUser oldmap cloner = some oldmap ↔
      ∀ entry ∈ oldmap, ∀ x ∈ entry.2, cloner x = some x := by
  rw [ovalSmcCloneUser, mapM_eq_self_iff]
  refine forall₂_congr fun entry _ => ?_
  rw [← mapM_eq_self_iff]
  cases entry.2.mapM cloner <;> simp [Prod.ext_iff]

/-- The entries of a copy of a map are copies. -/
theorem clone_of_smcClone {α : Type} {oldmap newmap : OvalSmc α} {cloner : α → Option α}
    (h : ovalSmcCloneUser oldmap cloner = some newmap) :
    ∀ entry ∈ newmap, ∀ y ∈ entry.2, ∃ x, cloner x = some y := by
  intro entry hentry y hy
  obtain ⟨old, -, hold⟩ := (mem_of_mapM_eq_some h entry).mp hentry
  obtain ⟨cloned, hcloned, rfl⟩ := Option.map_eq_some_iff.mp hold
  obtain ⟨x, -, hx⟩ := (mem_of_mapM_eq_some hcloned y).mp hy
  exact ⟨x, hx⟩

/-- **A copy of a system is like it** exactly when the system is as copies are. -/
theorem systemClone_eq_self_iff (sys : OvalResultSystem) :
    ovalResultSystemClone sys = some sys ↔ sys.Fresh := by
  have hclone : ovalResultSystemClone sys = some sys ↔
      ovalSmcCloneUser sys.definitions ovalResultDefinitionClone = some sys.definitions ∧
        ovalSmcCloneUser sys.tests ovalResultTestClone = some sys.tests := by
    rw [ovalResultSystemClone]
    cases ovalSmcCloneUser sys.definitions ovalResultDefinitionClone <;>
      cases ovalSmcCloneUser sys.tests ovalResultTestClone <;>
        simp [OvalResultSystem.ext_iff]
  rw [hclone, smcClone_eq_self_iff, smcClone_eq_self_iff]
  simp only [definitionClone_eq_self_iff, testClone_eq_self_iff]
  exact ⟨fun h => ⟨h.1, h.2⟩, fun h => ⟨h.definitions, h.tests⟩⟩

/-- **Every copy of a system** is as copies are. -/
theorem fresh_of_systemClone {sys sys' : OvalResultSystem}
    (h : ovalResultSystemClone sys = some sys') : sys'.Fresh := by
  rw [ovalResultSystemClone] at h
  obtain ⟨definitions, hdefinitions, h⟩ := Option.bind_eq_some_iff.mp h
  obtain ⟨tests, htests, h⟩ := Option.bind_eq_some_iff.mp h
  obtain rfl := Option.some.inj h
  constructor
  · intro entry hentry definition hdefinition
    obtain ⟨old, hold⟩ := clone_of_smcClone hdefinitions entry hentry definition hdefinition
    exact fresh_of_definitionClone old definition hold
  · intro entry hentry test htest
    obtain ⟨old, hold⟩ := clone_of_smcClone htests entry hentry test htest
    exact fresh_of_testClone hold

/-- **Copying preserves a system** and copying twice is copying once, exactly when no node, of
all definitions, and no item has a result, every link has the variable instance 1, and no test
has variables. -/
theorem clone_preserves_iff (sys : OvalResultSystem) :
    (ovalResultSystemClone sys = some sys ∧
      ∀ sys', ovalResultSystemClone sys = some sys' →
        ovalResultSystemClone sys' = some sys') ↔ sys.Fresh := by
  rw [systemClone_eq_self_iff]
  refine and_iff_left_of_imp fun _ sys' hsys' => ?_
  exact (systemClone_eq_self_iff sys').mpr (fresh_of_systemClone hsys')

/-- A system with an evaluated definition. -/
def evaluatedSystem : OvalResultSystem :=
  ⟨[("d", [.mk "d" .true (some (.criteria .true false false .and [])) [] 1 1])], []⟩

/-- The criteria of its copy is not evaluated. -/
theorem not_clone_preserves :
    ovalResultSystemClone evaluatedSystem = some
        ⟨[("d", [.mk "d" .true (some (.criteria .notEvaluated false false .and [])) [] 1 1])],
          []⟩ ∧
      ovalResultSystemClone evaluatedSystem ≠ some evaluatedSystem := by
  refine ⟨rfl, fun h => ?_⟩
  have hfresh := ((systemClone_eq_self_iff _).mp h).definitions _ List.mem_cons_self _
    List.mem_cons_self
  simp [OvalResultDefinition.Fresh, CriteriaFresh, OvalResultCriteriaNode.Fresh] at hfresh

end OpenScap.ResultClone
