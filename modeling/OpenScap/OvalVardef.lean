import Mathlib.Data.List.Nodup
import Mathlib.Logic.Function.Basic
import OpenScap.RecursiveWalk

/-!
# Which definitions depend on a variable

Before an external variable gets other values, the agent has to know which definitions
were evaluated with the old ones. `buildVardefMapping` computes this table: it follows the
references of every definition and lists the definition under each variable that it meets.
`objCollectVarRefs`, which collects the variables of an object for its probe, follows the
references of an object in the same way, but more of them: it also follows the filters of
an object and the components of a local variable.

Both are families of procedures that call each other. They walk the graph of references
(`RecursiveWalk`), the former along `followed`, the latter along `references`.

## Main results

* `fillsAsWalk`, `collectsAsWalk` — the procedures are walks;
* `mem_objCollectVarRefs` — the collector finds every variable that an object reads;
* `listed_buildVardefMapping` — the mapping lists a definition under the variables that it
  reads directly;
* `mappingComplete_iff` — when that is what the mapping is for.
-/

open Relation RecursiveWalk

namespace OpenScap

/-! ### Definition models -/

/-- How an entity refers to a variable. -/
inductive EntityVarrefType
  | none
  | attribute
  | element
  deriving DecidableEq, Repr

/-- An entity of an object or of a state. -/
structure OvalEntity where
  varrefType : EntityVarrefType
  var : Option String
  deriving DecidableEq, Repr

/-- A set of an object: of subsets, or of objects with filters, which are states. -/
inductive OvalSetobject where
  | aggregate (subsets : List OvalSetobject)
  | collective (objects : List String) (filters : List String)

/-- A part of an object. A filter is a state. -/
inductive OvalObjectContent where
  | entity (entity : OvalEntity)
  | set (set : OvalSetobject)
  | filter (state : String)

/-- A component of a local variable. -/
inductive OvalComponent where
  | literal
  | objectref (object : String)
  | varref (var : String)
  | function (components : List OvalComponent)

/-- A variable: an external one has its values from outside, a local one from its
component. -/
inductive OvalVariable where
  | external
  | constant
  | local_ (component : OvalComponent)

/-- A test: its object and its states. -/
structure OvalTestRefs where
  object : Option String
  states : List String
  deriving DecidableEq, Repr

/-- A node of the criteria of a definition. -/
inductive OvalCriteriaNode where
  | criterion (test : Option String)
  | criteria (subnodes : List OvalCriteriaNode)
  | extenddef (definition : Option String)

/-- A definition model: its definitions with their criteria, and the tests, objects,
states and variables that they refer to, by id. A state is the list of its entities. -/
structure OvalDefinitionModel where
  definitions : List (String × Option OvalCriteriaNode)
  tests : List (String × OvalTestRefs)
  objects : List (String × List OvalObjectContent)
  states : List (String × List OvalEntity)
  vars : List (String × OvalVariable)
  definitions_nodup : (definitions.map Prod.fst).Nodup

namespace OvalDefinitionModel

/-- The criteria of a definition. -/
def criteriaOf (model : OvalDefinitionModel) (id : String) : Option OvalCriteriaNode :=
  (model.definitions.lookup id).join

/-- The object of a test. -/
def testObject (model : OvalDefinitionModel) (id : String) : Option String :=
  (model.tests.lookup id).bind OvalTestRefs.object

/-- The states of a test. -/
def testStates (model : OvalDefinitionModel) (id : String) : List String :=
  ((model.tests.lookup id).map OvalTestRefs.states).getD []

/-- The contents of an object. -/
def objectContents (model : OvalDefinitionModel) (id : String) : List OvalObjectContent :=
  (model.objects.lookup id).getD []

/-- The entities of a state. -/
def stateEntities (model : OvalDefinitionModel) (id : String) : List OvalEntity :=
  (model.states.lookup id).getD []

/-- The component of a local variable. -/
def localComponent (model : OvalDefinitionModel) (id : String) : Option OvalComponent :=
  match model.vars.lookup id with
  | some (.local_ component) => some component
  | _ => none

/-- A variable that has its values from outside. -/
def IsExternal (model : OvalDefinitionModel) (id : String) : Prop :=
  match model.vars.lookup id with
  | some .external => True
  | _ => False

end OvalDefinitionModel

/-- The variable that an entity refers to. -/
def OvalEntity.reads (entity : OvalEntity) : Option String :=
  if entity.varrefType = .attribute ∨ entity.varrefType = .element then entity.var else none

/-! ### The mapping -/

/-- The table: the definitions under each variable. -/
abbrev Vardef := String → Option (List String)

/-- `_vardef_insert` -/
def vardefInsert (vardef : Vardef) (definition var : String) : Vardef :=
  let defList := (vardef var).getD []
  Function.update vardef var
    (some (if definition ∈ defList then defList else definition :: defList))

/-- A definition is listed under a variable. -/
def Listed (vardef : Vardef) (var definition : String) : Prop :=
  ∃ defList, vardef var = some defList ∧ definition ∈ defList

/-- `_oval_entity_fill_vardef` -/
def entityFillVardef (entity : OvalEntity) (vardef : Vardef) (definition : String) : Vardef :=
  if entity.varrefType = .attribute ∨ entity.varrefType = .element then
    match entity.var with
    | some var => vardefInsert vardef definition var
    | none => vardef
  else vardef

section Fill

variable (model : OvalDefinitionModel) (definition : String)

/-! The procedures call each other to a depth of at most `fuel`. -/

mutual

/-- `_oval_criteria_fill_vardef` -/
def criteriaFillVardef : ℕ → OvalCriteriaNode → Vardef → Option Vardef
  | 0, _, _ => none
  | fuel + 1, .criterion test, vardef =>
      match test with
      | some test => testFillVardef fuel test vardef
      | none => some vardef
  | fuel + 1, .criteria subnodes, vardef =>
      subnodes.foldlM (fun vardef node => criteriaFillVardef fuel node vardef) vardef
  | fuel + 1, .extenddef extended, vardef =>
      match extended with
      | some extended =>
          match model.criteriaOf extended with
          | some node => criteriaFillVardef fuel node vardef
          | none => some vardef
      | none => some vardef

/-- `_oval_test_fill_vardef` -/
def testFillVardef : ℕ → String → Vardef → Option Vardef
  | 0, _, _ => none
  | fuel + 1, test, vardef => do
      let vardef ← (match model.testObject test with
        | some object => objectFillVardef fuel object vardef
        | none => some vardef)
      (model.testStates test).foldlM (fun vardef state => stateFillVardef fuel state vardef) vardef

/-- `_oval_object_fill_vardef`: a filter is none of the cases. -/
def objectFillVardef : ℕ → String → Vardef → Option Vardef
  | 0, _, _ => none
  | fuel + 1, object, vardef =>
      (model.objectContents object).foldlM (fun vardef content =>
        match content with
        | .entity entity => entityFill fuel entity vardef
        | .set set => setobjectFillVardef fuel set vardef
        | .filter _ => some vardef) vardef

/-- `_oval_setobject_fill_vardef` -/
def setobjectFillVardef : ℕ → OvalSetobject → Vardef → Option Vardef
  | 0, _, _ => none
  | fuel + 1, .aggregate subsets, vardef =>
      subsets.foldlM (fun vardef subset => setobjectFillVardef fuel subset vardef) vardef
  | fuel + 1, .collective objects filters, vardef => do
      let vardef ← objects.foldlM
        (fun vardef object => objectFillVardef fuel object vardef) vardef
      filters.foldlM (fun vardef state => stateFillVardef fuel state vardef) vardef

/-- `_oval_state_fill_vardef` -/
def stateFillVardef : ℕ → String → Vardef → Option Vardef
  | 0, _, _ => none
  | fuel + 1, state, vardef =>
      (model.stateEntities state).foldlM
        (fun vardef entity => entityFill fuel entity vardef) vardef

/-- A call of `_oval_entity_fill_vardef`. -/
def entityFill : ℕ → OvalEntity → Vardef → Option Vardef
  | 0, _, _ => none
  | _ + 1, entity, vardef => some (entityFillVardef entity vardef definition)

end

/-- `_oval_definition_fill_vardef` -/
def definitionFillVardef (fuel : ℕ) (criteria : Option OvalCriteriaNode) (vardef : Vardef) :
    Option Vardef :=
  match criteria with
  | some cnode => criteriaFillVardef model definition fuel cnode vardef
  | none => some vardef

end Fill

/-- `oval_definition_model_build_vardef_mapping` -/
def buildVardefMapping (model : OvalDefinitionModel) (fuel : ℕ) : Option Vardef :=
  model.definitions.foldlM
    (fun vardef definition =>
      definitionFillVardef model definition.1 fuel definition.2 vardef) fun _ => none

/-! ### The collector -/

section Collect

variable (model : OvalDefinitionModel)

/-- Put a variable in the map of collected variables. -/
def putVariable (vm : List String) (var : String) : List String :=
  if var ∈ vm then vm else var :: vm

mutual

/-- `_comp_collect_var_refs` -/
def compCollectVarRefs : ℕ → OvalComponent → List String → Option (List String)
  | 0, _, _ => none
  | _ + 1, .literal, vm => some vm
  | fuel + 1, .objectref object, vm => objCollectVarRefs fuel object vm
  | fuel + 1, .varref var, vm => varCollectVarRefs fuel var vm
  | fuel + 1, .function components, vm =>
      components.foldlM (fun vm component => compCollectVarRefs fuel component vm) vm

/-- `_var_collect_var_refs` -/
def varCollectVarRefs : ℕ → String → List String → Option (List String)
  | 0, _, _ => none
  | fuel + 1, var, vm =>
      match model.localComponent var with
      | some component => compCollectVarRefs fuel component (putVariable vm var)
      | none => some (putVariable vm var)

/-- `_ent_collect_var_refs` -/
def entCollectVarRefs : ℕ → OvalEntity → List String → Option (List String)
  | 0, _, _ => none
  | fuel + 1, entity, vm =>
      match entity.reads with
      | some var => varCollectVarRefs fuel var vm
      | none => some vm

/-- `oval_ste_collect_var_refs` -/
def steCollectVarRefs : ℕ → String → List String → Option (List String)
  | 0, _, _ => none
  | fuel + 1, state, vm =>
      (model.stateEntities state).foldlM (fun vm entity => entCollectVarRefs fuel entity vm) vm

/-- `_set_collect_var_refs` -/
def setCollectVarRefs : ℕ → OvalSetobject → List String → Option (List String)
  | 0, _, _ => none
  | fuel + 1, .aggregate subsets, vm =>
      subsets.foldlM (fun vm subset => setCollectVarRefs fuel subset vm) vm
  | fuel + 1, .collective objects filters, vm => do
      let vm ← objects.foldlM (fun vm object => objCollectVarRefs fuel object vm) vm
      filters.foldlM (fun vm state => steCollectVarRefs fuel state vm) vm

/-- `oval_obj_collect_var_refs` -/
def objCollectVarRefs : ℕ → String → List String → Option (List String)
  | 0, _, _ => none
  | fuel + 1, object, vm =>
      (model.objectContents object).foldlM (fun vm content =>
        match content with
        | .entity entity => entCollectVarRefs fuel entity vm
        | .set set => setCollectVarRefs fuel set vm
        | .filter state => steCollectVarRefs fuel state vm) vm

end

end Collect

/-! ### The graph of references -/

/-- What a definition model refers to. -/
inductive RefNode where
  | criteria (node : OvalCriteriaNode)
  | test (id : String)
  | object (id : String)
  | set (set : OvalSetobject)
  | state (id : String)
  | entity (entity : OvalEntity)
  | var (id : String)
  | component (component : OvalComponent)

/-- The part of an object. -/
def OvalObjectContent.node : OvalObjectContent → RefNode
  | .entity ent => .entity ent
  | .set setobject => .set setobject
  | .filter state => .state state

/-- What is read to evaluate a node. -/
def references (model : OvalDefinitionModel) : RefNode → List RefNode
  | .criteria (.criterion test) => test.toList.map .test
  | .criteria (.criteria subnodes) => subnodes.map .criteria
  | .criteria (.extenddef extended) => (extended.bind model.criteriaOf).toList.map .criteria
  | .test test =>
      (model.testObject test).toList.map .object ++ (model.testStates test).map .state
  | .object object => (model.objectContents object).map OvalObjectContent.node
  | .set (.aggregate subsets) => subsets.map .set
  | .set (.collective objects filters) => objects.map .object ++ filters.map .state
  | .state state => (model.stateEntities state).map .entity
  | .entity entity => entity.reads.toList.map .var
  | .var id => (model.localComponent id).toList.map .component
  | .component .literal => []
  | .component (.objectref object) => [.object object]
  | .component (.varref id) => [.var id]
  | .component (.function components) => components.map .component

/-- A part of an object that is not a filter. -/
def OvalObjectContent.isFilter : OvalObjectContent → Bool
  | .filter _ => true
  | _ => false

/-- What the mapping follows: it leaves out the filters of an object, and stops at the
entities. -/
def followed (model : OvalDefinitionModel) : RefNode → List RefNode
  | .object object =>
      ((model.objectContents object).filter fun content => !content.isFilter).map
        OvalObjectContent.node
  | .entity _ => []
  | .var _ => []
  | .component _ => []
  | node => references model node

/-- The mapping lists a definition when it comes to an entity. -/
def emitEntity (definition : String) : RefNode → Vardef → Vardef
  | .entity entity, vardef => entityFillVardef entity vardef definition
  | _, vardef => vardef

/-- The collector puts a variable when it comes to it. -/
def emitVariable : RefNode → List String → List String
  | .var id, vm => putVariable vm id
  | _, vm => vm

/-! ### The procedures are walks -/

section Walks

variable (model : OvalDefinitionModel) (definition : String)

/-- At a depth of calls, every procedure of the mapping walks along `followed`. -/
structure FillsAsWalk (fuel : ℕ) : Prop where
  criteria : ∀ node vardef, criteriaFillVardef model definition fuel node vardef =
    walk (followed model) (emitEntity definition) fuel (.criteria node) vardef
  test : ∀ test vardef, testFillVardef model definition fuel test vardef =
    walk (followed model) (emitEntity definition) fuel (.test test) vardef
  object : ∀ object vardef, objectFillVardef model definition fuel object vardef =
    walk (followed model) (emitEntity definition) fuel (.object object) vardef
  set : ∀ set vardef, setobjectFillVardef model definition fuel set vardef =
    walk (followed model) (emitEntity definition) fuel (.set set) vardef
  state : ∀ state vardef, stateFillVardef model definition fuel state vardef =
    walk (followed model) (emitEntity definition) fuel (.state state) vardef
  entity : ∀ entity vardef, entityFill model definition fuel entity vardef =
    walk (followed model) (emitEntity definition) fuel (.entity entity) vardef

/-- The references that are followed from the criteria are those that are read. -/
theorem followed_criteria (node : OvalCriteriaNode) :
    followed model (.criteria node) = references model (.criteria node) := by
  cases node <;> rfl

/-- Every set reference is followed. -/
theorem followed_set (set : OvalSetobject) :
    followed model (.set set) = references model (.set set) := by
  cases set <;> rfl

/-- **The procedures of the mapping walk along `followed`.** -/
theorem fillsAsWalk (fuel : ℕ) : FillsAsWalk model definition fuel := by
  induction fuel with
  | zero =>
      refine ⟨?_, ?_, ?_, ?_, ?_, ?_⟩
      all_goals intro node vardef
      · rw [criteriaFillVardef, walk]
      · rw [testFillVardef, walk]
      · rw [objectFillVardef, walk]
      · rw [setobjectFillVardef, walk]
      · rw [stateFillVardef, walk]
      · rw [entityFill, walk]
  | succ fuel ih =>
      refine ⟨fun node vardef => ?_, fun test vardef => ?_, fun object vardef => ?_,
        fun set vardef => ?_, fun state vardef => ?_, fun entity vardef => ?_⟩
      · simp only [walk, emitEntity, followed_criteria]
        cases node with
        | criterion test =>
            cases test with
            | none => rfl
            | some test =>
                simp only [criteriaFillVardef, references, ih.test, Option.toList_some,
                  List.map_singleton, List.foldlM_cons, List.foldlM_nil, bind_pure]
        | criteria subnodes =>
            simp only [criteriaFillVardef, references, List.foldlM_map, ih.criteria]
        | extenddef extended =>
            cases extended with
            | none => rfl
            | some extended =>
                simp only [criteriaFillVardef, references, Option.bind_some]
                cases model.criteriaOf extended with
                | none => rfl
                | some node =>
                    simp only [ih.criteria, Option.toList_some, List.map_singleton,
                      List.foldlM_cons, List.foldlM_nil, bind_pure]
      · simp only [walk, emitEntity, followed, references, List.foldlM_append, List.foldlM_map,
          testFillVardef, ih.state]
        cases model.testObject test with
        | none => rfl
        | some object =>
            simp only [ih.object, Option.toList_some, List.foldlM_cons, List.foldlM_nil,
              bind_pure]
      · simp only [walk, emitEntity, followed, List.foldlM_map, List.foldlM_filter,
          objectFillVardef]
        refine congrArg (fun f => List.foldlM f vardef _) (funext₂ fun vardef content => ?_)
        cases content with
        | entity entity => exact ih.entity entity vardef
        | set set => exact ih.set set vardef
        | filter state => rfl
      · simp only [walk, emitEntity, followed_set]
        cases set with
        | aggregate subsets =>
            simp only [setobjectFillVardef, references, List.foldlM_map, ih.set]
        | collective objects filters =>
            simp only [setobjectFillVardef, references, List.foldlM_append, List.foldlM_map,
              ih.object, ih.state]
      · simp only [walk, emitEntity, followed, references, stateFillVardef, List.foldlM_map,
          ih.entity]
      · simp only [walk, emitEntity, followed, entityFill, List.foldlM_nil]
        rfl

/-- At a depth of calls, every procedure of the collector walks along `references`. -/
structure CollectsAsWalk (fuel : ℕ) : Prop where
  component : ∀ component vm, compCollectVarRefs model fuel component vm =
    walk (references model) emitVariable fuel (.component component) vm
  var : ∀ var vm, varCollectVarRefs model fuel var vm =
    walk (references model) emitVariable fuel (.var var) vm
  entity : ∀ entity vm, entCollectVarRefs model fuel entity vm =
    walk (references model) emitVariable fuel (.entity entity) vm
  state : ∀ state vm, steCollectVarRefs model fuel state vm =
    walk (references model) emitVariable fuel (.state state) vm
  set : ∀ set vm, setCollectVarRefs model fuel set vm =
    walk (references model) emitVariable fuel (.set set) vm
  object : ∀ object vm, objCollectVarRefs model fuel object vm =
    walk (references model) emitVariable fuel (.object object) vm

/-- **The procedures of the collector walk along `references`.** -/
theorem collectsAsWalk (fuel : ℕ) : CollectsAsWalk model fuel := by
  induction fuel with
  | zero =>
      refine ⟨?_, ?_, ?_, ?_, ?_, ?_⟩
      all_goals intro node vm
      · rw [compCollectVarRefs, walk]
      · rw [varCollectVarRefs, walk]
      · rw [entCollectVarRefs, walk]
      · rw [steCollectVarRefs, walk]
      · rw [setCollectVarRefs, walk]
      · rw [objCollectVarRefs, walk]
  | succ fuel ih =>
      refine ⟨fun component vm => ?_, fun var vm => ?_, fun entity vm => ?_,
        fun state vm => ?_, fun set vm => ?_, fun object vm => ?_⟩
      · simp only [walk, emitVariable]
        cases component with
        | literal => rfl
        | objectref object =>
            rw [compCollectVarRefs, references, ih.object, List.foldlM_cons]
            exact (bind_pure _).symm
        | varref var =>
            rw [compCollectVarRefs, references, ih.var, List.foldlM_cons]
            exact (bind_pure _).symm
        | function components =>
            simp only [compCollectVarRefs, references, List.foldlM_map, ih.component]
      · rw [walk, emitVariable, references, varCollectVarRefs]
        cases model.localComponent var with
        | none => rfl
        | some component =>
            simp only [ih.component, Option.toList_some, List.map_singleton, List.foldlM_cons]
            exact (bind_pure _).symm
      · simp only [walk, emitVariable, references, entCollectVarRefs]
        cases entity.reads with
        | none => rfl
        | some var =>
            simp only [ih.var, Option.toList_some, List.map_singleton, List.foldlM_cons]
            exact (bind_pure _).symm
      · simp only [walk, emitVariable, references, steCollectVarRefs, List.foldlM_map, ih.entity]
      · simp only [walk, emitVariable]
        cases set with
        | aggregate subsets =>
            simp only [setCollectVarRefs, references, List.foldlM_map, ih.set]
        | collective objects filters =>
            simp only [setCollectVarRefs, references, List.foldlM_append, List.foldlM_map,
              ih.object, ih.state]
      · simp only [walk, emitVariable, references, List.foldlM_map, objCollectVarRefs]
        refine congrArg (fun f => List.foldlM f vm _) (funext₂ fun vm content => ?_)
        cases content with
        | entity entity => exact ih.entity entity vm
        | set set => exact ih.set set vm
        | filter state => exact ih.state state vm

end Walks

/-! ### What the procedures find -/

section Find

variable (model : OvalDefinitionModel)

/-- The collector has put a variable after it was put, or before. -/
theorem mem_putVariable (vm : List String) (var v : String) :
    v ∈ putVariable vm var ↔ v ∈ vm ∨ var = v := by
  rw [putVariable]
  by_cases hmem : var ∈ vm
  · rw [if_pos hmem]
    refine ⟨Or.inl, ?_⟩
    rintro (h | rfl)
    · exact h
    · exact hmem
  · rw [if_neg hmem, List.mem_cons, or_comm, eq_comm]

/-- **The collector finds exactly the variables that an object reads.** -/
theorem mem_objCollectVarRefs {fuel : ℕ} {object : String} {vm vm' : List String}
    (h : objCollectVarRefs model fuel object vm = some vm') (v : String) :
    v ∈ vm' ↔ v ∈ vm ∨ Reaches (references model) (.object object) (.var v) := by
  rw [(collectsAsWalk model fuel).object] at h
  have hemit (node : RefNode) (vm : List String) :
      v ∈ emitVariable node vm ↔ v ∈ vm ∨ node = .var v := by
    cases node with
    | var id =>
        rw [emitVariable, mem_putVariable, RefNode.var.injEq]
    | _ => simp only [emitVariable, reduceCtorEq, or_false]
  rw [walk_iff_of_emit (references model) emitVariable (fun vm => v ∈ vm) _ hemit h]
  simp only [exists_eq_right]

/-- Inserting a definition under a variable lists it there. -/
theorem listed_vardefInsert (vardef : Vardef) (definition var v d : String) :
    Listed (vardefInsert vardef definition var) v d ↔
      Listed vardef v d ∨ definition = d ∧ var = v := by
  rw [Listed, vardefInsert]
  by_cases hv : v = var
  · subst hv
    simp only [Function.update_self, Option.some.injEq, exists_eq_left', and_true, Listed]
    cases hlist : vardef v with
    | none =>
        simp only [Option.getD_none, List.not_mem_nil, if_false, List.mem_singleton,
          reduceCtorEq, false_and, exists_false, false_or]
        exact eq_comm
    | some defList =>
        simp only [Option.getD_some, Option.some.injEq, exists_eq_left']
        by_cases hmem : definition ∈ defList
        · rw [if_pos hmem]
          refine ⟨Or.inl, ?_⟩
          rintro (h | rfl)
          · exact h
          · exact hmem
        · rw [if_neg hmem, List.mem_cons, or_comm, @eq_comm _ d]
  · simp only [Function.update_of_ne hv, Listed, Ne.symm hv, and_false, or_false]

/-- The mapping lists the definition under the variable of an entity. -/
theorem listed_entityFillVardef (entity : OvalEntity) (vardef : Vardef)
    (definition v d : String) : Listed (entityFillVardef entity vardef definition) v d ↔
      Listed vardef v d ∨ definition = d ∧ entity.reads = some v := by
  rw [entityFillVardef, OvalEntity.reads]
  by_cases href : entity.varrefType = .attribute ∨ entity.varrefType = .element
  · rw [if_pos href, if_pos href]
    cases entity.var with
    | none => simp only [reduceCtorEq, and_false, or_false]
    | some var => simp only [listed_vardefInsert, Option.some.injEq]
  · rw [if_neg href, if_neg href]
    simp only [reduceCtorEq, and_false, or_false]

/-- What the mapping finds from a node for a definition. -/
theorem listed_walk {definition : String} {fuel : ℕ} {node : RefNode} {vardef vardef' : Vardef}
    (h : walk (followed model) (emitEntity definition) fuel node vardef = some vardef')
    (v d : String) : Listed vardef' v d ↔ Listed vardef v d ∨
      definition = d ∧ ∃ entity, Reaches (followed model) node (.entity entity) ∧
        entity.reads = some v := by
  have hemit (node : RefNode) (vardef : Vardef) : Listed (emitEntity definition node vardef) v d ↔
      Listed vardef v d ∨
        definition = d ∧ ∃ entity, node = .entity entity ∧ entity.reads = some v := by
    cases node with
    | entity entity =>
        simp only [emitEntity, listed_entityFillVardef, RefNode.entity.injEq, exists_eq_left']
    | _ => simp only [emitEntity, reduceCtorEq, false_and, exists_false, and_false, or_false]
  rw [walk_iff_of_emit (followed model) (emitEntity definition) (fun vardef => Listed vardef v d)
    _ hemit h]
  refine or_congr_right ⟨?_, ?_⟩
  · rintro ⟨_, hreach, hd, entity, rfl, hreads⟩
    exact ⟨hd, entity, hreach, hreads⟩
  · rintro ⟨hd, entity, hreach, hreads⟩
    exact ⟨_, hreach, hd, entity, rfl, hreads⟩

/-- A definition reads a variable when it has a chain of references to it. -/
def ReadsVar (definition v : String) : Prop :=
  ∃ cnode, model.criteriaOf definition = some cnode ∧
    Reaches (references model) (.criteria cnode) (.var v)

/-- A definition reads a variable directly when an entity to which a chain of references
leads, without filters of an object and components of a local variable, refers to it. -/
def ReadsDirectly (definition v : String) : Prop :=
  ∃ cnode, model.criteriaOf definition = some cnode ∧
    ∃ entity, Reaches (followed model) (.criteria cnode) (.entity entity) ∧
      entity.reads = some v

/-- What is followed is a reference. -/
theorem mem_references_of_followed {a b : RefNode} (h : b ∈ followed model a) :
    b ∈ references model a := by
  cases a with
  | criteria node => exact followed_criteria model node ▸ h
  | set set => exact followed_set model set ▸ h
  | object object =>
      rw [followed, List.mem_map] at h
      obtain ⟨content, hcontent, rfl⟩ := h
      exact List.mem_map_of_mem (List.mem_of_mem_filter hcontent)
  | test test => exact h
  | state state => exact h
  | entity entity => exact absurd h List.not_mem_nil
  | var id => exact absurd h List.not_mem_nil
  | component component => exact absurd h List.not_mem_nil

/-- What is read directly is read. -/
theorem ReadsDirectly.readsVar {definition v : String} (h : ReadsDirectly model definition v) :
    ReadsVar model definition v := by
  obtain ⟨cnode, hcnode, entity, hreach, hreads⟩ := h
  have hvar : RefNode.var v ∈ references model (.entity entity) := by
    rw [references, hreads]
    exact List.mem_singleton_self _
  have hmono := Reaches.mono (fun _ _ => mem_references_of_followed model) hreach
  exact ⟨cnode, hcnode, ReflTransGen.tail hmono hvar⟩

/-- In a list of pairs with different first components, a pair is what looking up its
first component gives. -/
theorem lookup_eq_some_iff {α β : Type} [DecidableEq α] {pairs : List (α × β)}
    (hnodup : (pairs.map Prod.fst).Nodup) (a : α) (b : β) :
    pairs.lookup a = some b ↔ (a, b) ∈ pairs := by
  induction pairs with
  | nil => simp only [List.lookup_nil, reduceCtorEq, List.not_mem_nil]
  | cons pair pairs ih =>
      obtain ⟨a', b'⟩ := pair
      rw [List.map_cons, List.nodup_cons] at hnodup
      rw [List.mem_cons, Prod.mk.injEq]
      by_cases ha : a = a'
      · subst ha
        have hb : (a, b) ∉ pairs := fun h =>
          hnodup.1 (List.mem_map.mpr ⟨(a, b), h, rfl⟩)
        rw [List.lookup_cons_self, Option.some.injEq, eq_comm]
        simp only [true_and, hb, or_false]
      · rw [List.lookup_cons, beq_false_of_ne ha]
        simp only [ih hnodup.2, ha, false_and, false_or]

/-- The criteria of a definition are those that the model lists for it. -/
theorem criteriaOf_eq_some_iff (definition : String) (cnode : OvalCriteriaNode) :
    model.criteriaOf definition = some cnode ↔
      (definition, some cnode) ∈ model.definitions := by
  rw [OvalDefinitionModel.criteriaOf, Option.join_eq_some_iff]
  exact lookup_eq_some_iff model.definitions_nodup _ _

/-- **The mapping lists a definition under the variables that it reads directly.** -/
theorem listed_buildVardefMapping {fuel : ℕ} {vardef : Vardef}
    (h : buildVardefMapping model fuel = some vardef) (v d : String) :
    Listed vardef v d ↔ ReadsDirectly model d v := by
  have hstep (definition : String × Option OvalCriteriaNode) (s s' : Vardef)
      (hfill : definitionFillVardef model definition.1 fuel definition.2 s = some s') :
      Listed s' v d ↔ Listed s v d ∨ definition.1 = d ∧ ∃ cnode, definition.2 = some cnode ∧
        ∃ entity, Reaches (followed model) (.criteria cnode) (.entity entity) ∧
          entity.reads = some v := by
    obtain ⟨id, _ | cnode⟩ := definition
    · obtain rfl := Option.some.inj hfill
      simp only [reduceCtorEq, false_and, exists_false, and_false, or_false]
    · simp only [Option.some.injEq, exists_eq_left']
      rw [definitionFillVardef, (fillsAsWalk model id fuel).criteria] at hfill
      exact listed_walk model hfill v d
  rw [buildVardefMapping] at h
  have hempty : ¬ Listed (fun _ => none) v d := by
    rintro ⟨defList, hnone, -⟩
    cases hnone
  rw [foldlM_iff (fun vardef => Listed vardef v d) hstep model.definitions h]
  simp only [hempty, false_or, ReadsDirectly, criteriaOf_eq_some_iff]
  constructor
  · rintro ⟨⟨id, criteria⟩, hmem, rfl, cnode, rfl, hreads⟩
    exact ⟨cnode, hmem, hreads⟩
  · rintro ⟨cnode, hmem, hreads⟩
    exact ⟨_, hmem, rfl, cnode, rfl, hreads⟩

/-- The criteria of every definition are grounded: no chain of `extend_definition` nodes
and of sets of objects goes on for ever. -/
def DefinitionsGrounded : Prop :=
  ∀ definition cnode, model.criteriaOf definition = some cnode →
    Grounded (followed model) (.criteria cnode)

/-- **The mapping is built exactly when the definitions are grounded.** -/
theorem buildVardefMapping_isSome_iff :
    (∃ fuel, (buildVardefMapping model fuel).isSome) ↔ DefinitionsGrounded model := by
  constructor
  · rintro ⟨fuel, h⟩ definition cnode hcnode
    rw [criteriaOf_eq_some_iff] at hcnode
    obtain ⟨vardef, hfill⟩ := exists_step_of_foldlM h _ hcnode
    rw [definitionFillVardef, (fillsAsWalk model definition fuel).criteria] at hfill
    exact grounded_of_walk _ _ hfill
  · intro h
    have hbound : ∀ definition ∈ model.definitions, ∃ k, ∀ fuel, k ≤ fuel → ∀ vardef,
        (definitionFillVardef model definition.1 fuel definition.2 vardef).isSome := by
      rintro ⟨id, _ | cnode⟩ hmem
      · exact ⟨0, fun _ _ _ => rfl⟩
      · have hgrounded := h id cnode ((criteriaOf_eq_some_iff model id cnode).mpr hmem)
        obtain ⟨k, hk⟩ := Grounded.exists_fuel _ (emitEntity id) hgrounded
        refine ⟨k, fun fuel hfuel vardef => ?_⟩
        rw [definitionFillVardef, (fillsAsWalk model id fuel).criteria]
        exact hk fuel hfuel vardef
    obtain ⟨k, hk⟩ := exists_bound (fun k l definition hkl hdefinition fuel hfuel =>
      hdefinition fuel (Nat.le_trans hkl hfuel)) model.definitions hbound
    exact ⟨k, foldlM_isSome _ (fun definition hmem => hk definition hmem k (Nat.le_refl k)) _⟩

/-- What the mapping is for: it is built, and it lists exactly the definitions that read
an external variable. -/
def MappingComplete : Prop :=
  (∃ fuel, (buildVardefMapping model fuel).isSome) ∧
    ∀ fuel vardef, buildVardefMapping model fuel = some vardef →
      ∀ definition v, model.IsExternal v →
        (Listed vardef v definition ↔ ReadsVar model definition v)

/-- **When the mapping does what it is for**: the definitions are grounded, and an external
variable that a definition reads through a filter of an object or a local variable it also
reads directly. -/
theorem mappingComplete_iff : MappingComplete model ↔ DefinitionsGrounded model ∧
    ∀ definition v, model.IsExternal v → ReadsVar model definition v →
      ReadsDirectly model definition v := by
  rw [MappingComplete, buildVardefMapping_isSome_iff]
  refine and_congr_right fun hgrounded => ?_
  constructor
  · intro h definition v hexternal hreads
    obtain ⟨fuel, hsome⟩ := (buildVardefMapping_isSome_iff model).mpr hgrounded
    obtain ⟨vardef, hbuild⟩ := Option.isSome_iff_exists.mp hsome
    rw [← listed_buildVardefMapping model hbuild]
    exact (h fuel vardef hbuild definition v hexternal).mpr hreads
  · intro h fuel vardef hbuild definition v hexternal
    rw [listed_buildVardefMapping model hbuild]
    exact ⟨ReadsDirectly.readsVar model, h definition v hexternal⟩

end Find

/-! ### A filter that is not followed -/

/-- A definition whose test has an object with a filter, the state of which refers to the
external variable `v`. -/
def filterModel : OvalDefinitionModel where
  definitions := [("d", some (.criterion (some "t")))]
  tests := [("t", ⟨some "o", []⟩)]
  objects := [("o", [.filter "s"])]
  states := [("s", [⟨.attribute, some "v"⟩])]
  vars := [("v", .external)]
  definitions_nodup := by decide

/-- The mapping does not list the definition under `v`, although evaluating it reads `v`
and the collector finds `v` from the object. -/
theorem not_mappingComplete_filterModel :
    (∃ vardef, buildVardefMapping filterModel 3 = some vardef ∧ vardef "v" = none) ∧
    filterModel.IsExternal "v" ∧ ReadsVar filterModel "d" "v" ∧
    objCollectVarRefs filterModel 4 "o" [] = some ["v"] ∧ ¬ MappingComplete filterModel := by
  have hbuild : ∃ vardef, buildVardefMapping filterModel 3 = some vardef ∧ vardef "v" = none :=
    ⟨_, rfl, rfl⟩
  have hreads : ReadsVar filterModel "d" "v" := by
    refine ⟨.criterion (some "t"), rfl, ?_⟩
    have htest : RefNode.test "t" ∈ references filterModel (.criteria (.criterion (some "t"))) :=
      List.mem_singleton_self _
    have hobject : RefNode.object "o" ∈ references filterModel (.test "t") :=
      List.mem_singleton_self _
    have hstate : RefNode.state "s" ∈ references filterModel (.object "o") :=
      List.mem_singleton_self _
    have hentity : RefNode.entity ⟨.attribute, some "v"⟩ ∈ references filterModel (.state "s") :=
      List.mem_singleton_self _
    have hvar : RefNode.var "v" ∈ references filterModel (.entity ⟨.attribute, some "v"⟩) :=
      List.mem_singleton_self _
    exact ((((ReflTransGen.single htest).tail hobject).tail hstate).tail hentity).tail hvar
  refine ⟨hbuild, trivial, hreads, rfl, fun h => ?_⟩
  obtain ⟨vardef, hvardef, hnone⟩ := hbuild
  obtain ⟨defList, hsome, -⟩ := (h.2 3 vardef hvardef "d" "v" trivial).mpr hreads
  rw [hnone] at hsome
  cases hsome

end OpenScap
