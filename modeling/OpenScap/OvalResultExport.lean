import Mathlib.Data.List.Sort
import Mathlib.Data.String.Basic
import OpenScap.MarkedWalk
import OpenScap.OvalTest
import OpenScap.OvalVardef

/-!
# The system characteristics of exported results

Results are exported with the objects that were collected for the reported tests, and the items of
these objects. `oval_result_system_to_dom` looks for the objects: it follows the references of the
tests through objects, sets, states, variables and components, with a map for each kind of thing
that is visited, and a map of the objects to be written.

Two kinds of references are not followed, those of the filters directly on an object and those of
the record fields of a state. Also, the object of a test is only followed when there is a collected
object for it.

## Main results

* `visit_eq` — the five functions walk a graph with marks;
* `mem_collectedObjects_iff` — what is written;
* `resultsClosed_iff` — when that contains everything that can be reached from the tests.
-/

open Relation RecursiveWalk

namespace OpenScap.ResultExport

/-! ### Definitions -/

/-- `struct oval_state_content`: its entity, and the variables that its record fields refer to. -/
structure OvalStateContent where
  entity : Option OvalEntity
  recordFields : List (Option String)

/-- `struct oval_object`: its contents, and the object that it is an internal copy of. -/
structure OvalObject where
  contents : List OvalObjectContent
  baseObjRef : Option String

/-- `struct oval_definition_model`: objects, states and variables by id. -/
structure OvalDefinitionModel where
  objects : List (String × OvalObject)
  states : List (String × List OvalStateContent)
  vars : List (String × OvalVariable)

namespace OvalDefinitionModel

/-- `oval_object_get_object_contents`. -/
def objectContents (model : OvalDefinitionModel) (id : String) : List OvalObjectContent :=
  ((model.objects.lookup id).map OvalObject.contents).getD []

/-- `oval_object_get_base_obj`. -/
def baseObj (model : OvalDefinitionModel) (id : String) : Option String :=
  (model.objects.lookup id).bind OvalObject.baseObjRef

/-- `oval_state_get_contents`. -/
def stateContents (model : OvalDefinitionModel) (id : String) : List OvalStateContent :=
  (model.states.lookup id).getD []

/-- `oval_variable_get_component`. -/
def component (model : OvalDefinitionModel) (id : String) : Option OvalComponent :=
  match model.vars.lookup id with
  | some (.local_ component) => some component
  | _ => none

end OvalDefinitionModel

/-! ### Collected objects -/

/-- `struct oval_syschar`: the flag, and the ids of the items. -/
structure Syschar where
  flag : SyscharFlag
  sysitem : List String
  deriving DecidableEq

/-- `struct oval_syschar_model`: the collected objects by the id of the object. There are several
for one object when it is collected with several values of its variables. -/
structure SyscharModel where
  syscharMap : List (String × List Syschar)
  keys_nodup : (syscharMap.map Prod.fst).Nodup

namespace SyscharModel

/-- `oval_syschar_model_get_syschar`. -/
def getSyschar (sysmod : SyscharModel) (id : String) : Option Syschar :=
  (sysmod.syscharMap.lookup id).bind List.getLast?

/-- `oval_syschar_model_get_syschars`. -/
def syschars (sysmod : SyscharModel) : List (String × Syschar) :=
  sysmod.syscharMap.flatMap fun (id, all) => all.map fun syschar => (id, syschar)

end SyscharModel

/-! ### The scan -/

/-- `oval_string_map_put`, for a map from ids to the things with these ids. -/
def stringMapPut (map : List String) (key : String) : List String :=
  if key ∈ map then map else map.orderedInsert (· ≤ ·) key

/-- The maps of the scan: the visited objects, states and variables, and the objects that are to
be written. -/
structure Maps where
  objmap : List String
  sttmap : List String
  varmap : List String
  sysmap : List String

/-- What is visited. -/
inductive Reference
  | object (id : String)
  | state (id : String)
  | var (id : String)
  deriving DecidableEq, Repr

namespace Maps

/-- `oval_string_map_new`, four times. -/
def new : Maps := ⟨[], [], [], []⟩

/-- `oval_string_map_get_value` on the map for a reference. -/
def has (maps : Maps) : Reference → Bool
  | .object id => decide (id ∈ maps.objmap)
  | .state id => decide (id ∈ maps.sttmap)
  | .var id => decide (id ∈ maps.varmap)

/-- `oval_string_map_put` on the map for a reference. -/
def put (maps : Maps) : Reference → Maps
  | .object id => { maps with objmap := stringMapPut maps.objmap id }
  | .state id => { maps with sttmap := stringMapPut maps.sttmap id }
  | .var id => { maps with varmap := stringMapPut maps.varmap id }

end Maps

section Scan

/-! How a reference is visited is a parameter of the functions. -/

variable (model : OvalDefinitionModel) (sysmod : SyscharModel)
  (visit : Reference → Maps → Option Maps)

mutual

/-- `_oval_result_system_scan_component_for_references`. -/
def scanComponent : OvalComponent → Maps → Option Maps
  | .literal, maps => some maps
  | .objectref object, maps => visit (.object object) maps
  | .varref var, maps => visit (.var var) maps
  | .function components, maps => scanComponents components maps

/-- Its loop over the components of a function. -/
def scanComponents : List OvalComponent → Maps → Option Maps
  | [], maps => some maps
  | component :: components, maps => do
      let maps ← scanComponent component maps
      scanComponents components maps

end

/-- `_oval_result_system_scan_entity_for_references`. -/
def scanEntity (entity : OvalEntity) (maps : Maps) : Option Maps :=
  match entity.var with
  | some var => visit (.var var) maps
  | none => some maps

mutual

/-- `_oval_result_system_scan_set_for_references`. -/
def scanSet : OvalSetobject → Maps → Option Maps
  | .collective objects filters, maps => do
      let maps ← objects.foldlM (fun maps object => visit (.object object) maps) maps
      filters.foldlM (fun maps state => visit (.state state) maps) maps
  | .aggregate subsets, maps => scanSubsets subsets maps

/-- Its loop over the subsets. -/
def scanSubsets : List OvalSetobject → Maps → Option Maps
  | [], maps => some maps
  | subset :: subsets, maps => do
      let maps ← scanSet subset maps
      scanSubsets subsets maps

end

/-- `_oval_result_system_scan_state_for_references`. -/
def scanState (state : String) (maps : Maps) : Option Maps :=
  (model.stateContents state).foldlM (fun maps content =>
    match content.entity with
    | some entity => scanEntity visit entity maps
    | none => some maps) maps

/-- `_oval_result_system_scan_object_for_references`: a content that is neither an entity nor a
set is passed over. -/
def scanObject (object : String) (maps : Maps) : Option Maps :=
  let maps := if (sysmod.getSyschar object).isSome then
    { maps with sysmap := stringMapPut maps.sysmap object } else maps
  (model.objectContents object).foldlM (fun maps content =>
    match content with
    | .entity entity => scanEntity visit entity maps
    | .set set => scanSet visit set maps
    | .filter _ => some maps) maps

/-- The scan of what is visited. -/
def scan (reference : Reference) (maps : Maps) : Option Maps :=
  match reference with
  | .object object => scanObject model sysmod visit object maps
  | .state state => scanState model visit state maps
  | .var var =>
      match model.component var with
      | some component => scanComponent visit component maps
      | none => some maps

end Scan

section Export

variable (model : OvalDefinitionModel) (sysmod : SyscharModel)

/-- How the functions visit a reference: what is not yet in its map is put there and scanned. -/
def visit : ℕ → Reference → Maps → Option Maps
  | 0, _, _ => none
  | fuel + 1, reference, maps =>
      if maps.has reference then some maps
      else scan model sysmod (visit fuel) reference (maps.put reference)

/-- The scan of a reported test, in `oval_result_system_to_dom`. -/
def scanTest (fuel : ℕ) (maps : Maps) (test : OvalTestRefs) : Option Maps := do
  let maps ← (match test.object with
    | some object =>
        if maps.has (.object object) then some maps
        else if (sysmod.getSyschar object).isSome then
          scanObject model sysmod (visit model sysmod fuel) object (maps.put (.object object))
        else some maps
    | none => some maps)
  test.states.foldlM (fun maps state =>
    if maps.has (.state state) then some maps
    else scanState model (visit model sysmod fuel) state (maps.put (.state state))) maps

/-- What the results contain of the system characteristics. -/
structure SystemCharacteristics where
  collectedObjects : List (String × Syschar)
  systemData : List String

/-- `oval_syschar_model_to_dom`, with the map for `_oval_result_system_resolve_syschar`. It skips
collected objects with an unknown flag and those of internal objects. -/
def syscharModelToDom (sysmap : List String) : SystemCharacteristics :=
  let resolved := sysmod.syschars.filter fun (id, _) => id ∈ sysmap
  let written := resolved.filter fun (id, syschar) =>
    !(syschar.flag = .unknown || (model.baseObj id).isSome)
  { collectedObjects := written
    systemData := (written.flatMap fun (_, syschar) => syschar.sysitem).foldl stringMapPut [] }

/-- `oval_result_system_to_dom`, from the reported tests on. -/
def resultSystemToDom (tests : List OvalTestRefs) (fuel : ℕ) : Option SystemCharacteristics := do
  let maps ← tests.foldlM (scanTest model sysmod fuel) .new
  some (syscharModelToDom model sysmod maps.sysmap)

end Export

/-! ### References -/

mutual

/-- The references of a component. -/
def componentReferences : OvalComponent → List Reference
  | .literal => []
  | .objectref object => [.object object]
  | .varref var => [.var var]
  | .function components => componentsReferences components

/-- The references of some components. -/
def componentsReferences : List OvalComponent → List Reference
  | [] => []
  | component :: components => componentReferences component ++ componentsReferences components

end

mutual

/-- The references of a set: its objects, and the states of its filters. -/
def setReferences : OvalSetobject → List Reference
  | .collective objects filters => objects.map .object ++ filters.map .state
  | .aggregate subsets => subsetsReferences subsets

/-- The references of some sets. -/
def subsetsReferences : List OvalSetobject → List Reference
  | [] => []
  | subset :: subsets => setReferences subset ++ subsetsReferences subsets

end

/-- The reference of an entity. -/
def entityReferences (entity : OvalEntity) : List Reference := entity.var.toList.map .var

section References

variable (model : OvalDefinitionModel)

/-- The references of the entities, sets and components of what is referred to. -/
def scanned : Reference → List Reference
  | .object id => (model.objectContents id).flatMap fun content =>
      match content with
      | .entity entity => entityReferences entity
      | .set set => setReferences set
      | .filter _ => []
  | .state id => (model.stateContents id).flatMap fun content =>
      content.entity.toList.flatMap entityReferences
  | .var id => (model.component id).toList.flatMap componentReferences

/-- The references of the filters directly on an object, and of the record fields of a state. -/
def skipped : Reference → List Reference
  | .object id => (model.objectContents id).flatMap fun content =>
      match content with
      | .filter state => [.state state]
      | _ => []
  | .state id => (model.stateContents id).flatMap fun content =>
      content.recordFields.flatMap fun var => var.toList.map .var
  | .var _ => []

/-- All references. -/
def references (reference : Reference) : List Reference :=
  scanned model reference ++ skipped model reference

end References

/-- The references of a test. -/
def testReferences (test : OvalTestRefs) : List Reference :=
  test.object.toList.map .object ++ test.states.map .state

/-- The references of a test that the scan starts from: the object only when there is a collected
object for it. -/
def testScanned (sysmod : SyscharModel) (test : OvalTestRefs) : List Reference :=
  (test.object.toList.filter fun object => (sysmod.getSyschar object).isSome).map .object ++
    test.states.map .state

/-! ### What the results are to contain -/

section Spec

variable (model : OvalDefinitionModel) (sysmod : SyscharModel) (tests : List OvalTestRefs)

/-- Something can be reached from the tests. -/
def Reachable (r : Reference) : Prop :=
  ∃ test ∈ tests, ∃ a ∈ testReferences test, Reaches (references model) a r

/-- Something can be reached from the tests by references that are scanned. -/
def ScanReaches (r : Reference) : Prop :=
  ∃ test ∈ tests, ∃ a ∈ testScanned sysmod test, Reaches (scanned model) a r

/-- An object has been collected, and is not an internal copy. -/
def Collected (id : String) (syschar : Syschar) : Prop :=
  (id, syschar) ∈ sysmod.syschars ∧ syschar.flag ≠ .unknown ∧ model.baseObj id = none

/-- The collected objects of everything that can be reached are written, and so are their items,
each once. -/
structure Closed (written : SystemCharacteristics) : Prop where
  objects : ∀ id syschar, Reachable model tests (.object id) → Collected model sysmod id syschar →
    (id, syschar) ∈ written.collectedObjects
  items : ∀ id syschar, Reachable model tests (.object id) → Collected model sysmod id syschar →
    ∀ item ∈ syschar.sysitem, item ∈ written.systemData
  objects_once : written.collectedObjects.Sublist sysmod.syschars
  items_once : written.systemData.Nodup

/-- **The export comes to its end with what the results are to contain.** -/
def ResultsClosed : Prop :=
  ∃ n, ∀ fuel ≥ n, ∃ written, resultSystemToDom model sysmod tests fuel = some written ∧
    Closed model sysmod tests written

/-- What can be reached from a reference that is not scanned, and is collected, is reached by
others. -/
def ReachedOtherwise (b : Reference) : Prop :=
  ∀ id syschar, Reaches (references model) b (.object id) → Collected model sysmod id syschar →
    ScanReaches model sysmod tests (.object id)

/-- What is reached from a filter directly on an object, from a record field, or from the object
of a test that is not collected itself, is reached in another way, if it is collected. -/
structure Covered : Prop where
  skipped : ∀ a, ScanReaches model sysmod tests a → ∀ b ∈ skipped model a,
    ReachedOtherwise model sysmod tests b
  uncollected : ∀ test ∈ tests, ∀ object, test.object = some object →
    sysmod.getSyschar object = none → ReachedOtherwise model sysmod tests (.object object)

end Spec

/-! ### The functions walk along what is scanned -/

/-- What a map has after something is put. -/
theorem mem_stringMapPut {map : List String} {key k : String} :
    k ∈ stringMapPut map key ↔ k = key ∨ k ∈ map := by
  rw [stringMapPut]
  split
  · rename_i hmem
    constructor
    · exact .inr
    · rintro (rfl | hk)
      · exact hmem
      · exact hk
  · rw [List.mem_orderedInsert]

/-- A map has a key once. -/
theorem nodup_stringMapPut {map : List String} (h : map.Nodup) (key : String) :
    (stringMapPut map key).Nodup := by
  rw [stringMapPut]
  split
  · exact h
  · rename_i hmem
    exact (List.perm_orderedInsert _ key map).nodup_iff.mpr (List.nodup_cons.mpr ⟨hmem, h⟩)

namespace Maps

/-- An object that is collected is to be written. -/
def note (sysmod : SyscharModel) (maps : Maps) : Reference → Maps
  | .object id =>
      if (sysmod.getSyschar id).isSome then { maps with sysmap := stringMapPut maps.sysmap id }
      else maps
  | _ => maps

/-- What is noted does not change what has been visited. -/
@[simp] theorem has_note (sysmod : SyscharModel) (maps : Maps) (r m : Reference) :
    (maps.note sysmod r).has m = maps.has m := by
  cases r <;> simp only [note]
  split <;> cases m <;> rfl

/-- What has been visited after something is put. -/
theorem has_put (maps : Maps) (r m : Reference) :
    (maps.put r).has m = true ↔ m = r ∨ maps.has m = true := by
  cases r <;> cases m <;> simp only [put, has, decide_eq_true_eq, mem_stringMapPut, reduceCtorEq,
    false_or, Reference.object.injEq, Reference.state.injEq, Reference.var.injEq]
  all_goals exact decide_eq_true_iff

/-- The marks of the scan. -/
def marking (sysmod : SyscharModel) : Marking Reference Maps where
  marked := has
  mark r maps := (maps.put r).note sysmod r
  marked_mark r maps m := by rw [has_note, has_put]

end Maps

section Walk

variable {model : OvalDefinitionModel} {sysmod : SyscharModel}
  (visit : Reference → Maps → Option Maps)

mutual

/-- The references of a component are visited. -/
theorem scanComponent_eq : ∀ (component : OvalComponent) (maps : Maps),
    scanComponent visit component maps =
      (componentReferences component).foldlM (fun maps r => visit r maps) maps
  | .literal, maps => by rw [scanComponent, componentReferences]; rfl
  | .objectref object, maps => by
      rw [scanComponent, componentReferences, List.foldlM_cons]
      exact (bind_pure _).symm
  | .varref var, maps => by
      rw [scanComponent, componentReferences, List.foldlM_cons]
      exact (bind_pure _).symm
  | .function components, maps => by
      rw [scanComponent, componentReferences, scanComponents_eq components]

/-- The references of some components are visited. -/
theorem scanComponents_eq : ∀ (components : List OvalComponent) (maps : Maps),
    scanComponents visit components maps =
      (componentsReferences components).foldlM (fun maps r => visit r maps) maps
  | [], maps => by rw [scanComponents, componentsReferences]; rfl
  | component :: components, maps => by
      rw [scanComponents, componentsReferences, List.foldlM_append,
        scanComponent_eq component maps]
      exact congrArg _ (funext fun maps => scanComponents_eq components maps)

end

/-- The variable of an entity is visited. -/
theorem scanEntity_eq (entity : OvalEntity) (maps : Maps) :
    scanEntity visit entity maps =
      (entityReferences entity).foldlM (fun maps r => visit r maps) maps := by
  rw [scanEntity, entityReferences]
  cases entity.var with
  | none => rfl
  | some var => exact (bind_pure _).symm

mutual

/-- The references of a set are visited. -/
theorem scanSet_eq : ∀ (set : OvalSetobject) (maps : Maps),
    scanSet visit set maps = (setReferences set).foldlM (fun maps r => visit r maps) maps
  | .collective objects filters, maps => by
      rw [scanSet, setReferences, List.foldlM_append, List.foldlM_map]
      refine congrArg _ (funext fun maps => ?_)
      rw [List.foldlM_map]
  | .aggregate subsets, maps => by
      rw [scanSet, setReferences, scanSubsets_eq subsets]

/-- The references of some sets are visited. -/
theorem scanSubsets_eq : ∀ (subsets : List OvalSetobject) (maps : Maps),
    scanSubsets visit subsets maps =
      (subsetsReferences subsets).foldlM (fun maps r => visit r maps) maps
  | [], maps => by rw [scanSubsets, subsetsReferences]; rfl
  | subset :: subsets, maps => by
      rw [scanSubsets, subsetsReferences, List.foldlM_append, scanSet_eq subset maps]
      exact congrArg _ (funext fun maps => scanSubsets_eq subsets maps)

end

/-- **The functions visit the references that are scanned**, in order. -/
theorem scan_eq (r : Reference) (maps : Maps) :
    scan model sysmod visit r maps =
      (scanned model r).foldlM (fun maps r => visit r maps) (maps.note sysmod r) := by
  cases r with
  | object object =>
      rw [scan, scanObject, scanned, Marking.foldlM_flatMap]
      refine congrArg (fun f => List.foldlM f _ _) (funext₂ fun maps content => ?_)
      cases content with
      | entity entity => exact scanEntity_eq visit entity maps
      | set set => exact scanSet_eq visit set maps
      | filter state => rfl
  | state state =>
      rw [scan, scanState, scanned, Marking.foldlM_flatMap]
      refine congrArg (fun f => List.foldlM f _ _) (funext₂ fun maps content => ?_)
      cases content.entity with
      | none => rfl
      | some entity =>
          simp only [scanEntity_eq, Option.toList_some, List.flatMap_cons, List.flatMap_nil,
            List.append_nil]
  | var var =>
      simp only [scan, scanned]
      cases model.component var with
      | none => rfl
      | some component =>
          simp only [scanComponent_eq, Option.toList_some, List.flatMap_cons, List.flatMap_nil,
            List.append_nil]
          rfl

/-- **The five functions walk the graph of what is scanned**, with marks. -/
theorem visit_eq (fuel : ℕ) :
    ResultExport.visit model sysmod fuel =
      (Maps.marking sysmod).visit (scanned model) fuel := by
  induction fuel with
  | zero => rfl
  | succ fuel ih =>
      funext r maps
      rw [ResultExport.visit, Marking.visit, ih, scan_eq]
      rfl

end Walk

/-! ### The scan of the tests -/

section Tests

variable {model : OvalDefinitionModel} {sysmod : SyscharModel}

/-- A test is scanned by visits of its references. -/
theorem scanTest_eq (fuel : ℕ) (maps : Maps) (test : OvalTestRefs) :
    scanTest model sysmod fuel maps test =
      (Maps.marking sysmod).visitAll (scanned model) (fuel + 1) (testScanned sysmod test) maps := by
  have hvisit : ∀ r maps, (Maps.marking sysmod).visit (scanned model) (fuel + 1) r maps =
      if maps.has r then some maps
      else scan model sysmod (visit model sysmod fuel) r (maps.put r) := by
    intro r maps
    rw [← visit_eq, visit]
  rw [scanTest, testScanned, Marking.visitAll, List.foldlM_append, List.foldlM_map]
  cases test.object with
  | none =>
      simp only [Option.toList_none, List.filter_nil, List.foldlM_nil, List.foldlM_map, hvisit]
      rfl
  | some object =>
      by_cases hsyschar : (sysmod.getSyschar object).isSome = true
      · simp only [Option.toList_some, List.filter_cons, hsyschar, List.filter_nil, if_true,
          List.foldlM_cons, List.foldlM_nil, List.foldlM_map, hvisit, scan, bind_pure]
      · simp only [Option.toList_some, List.filter_cons, hsyschar, List.filter_nil,
          List.foldlM_nil, List.foldlM_map, hvisit, scan, Bool.false_eq_true, if_false, ite_self]
        rfl

/-- The tests are scanned by visits of their references. -/
theorem scanTests_eq (fuel : ℕ) (tests : List OvalTestRefs) (maps : Maps) :
    tests.foldlM (scanTest model sysmod fuel) maps =
      (Maps.marking sysmod).visitAll (scanned model) (fuel + 1)
        (tests.flatMap (testScanned sysmod)) maps := by
  rw [Marking.visitAll, Marking.foldlM_flatMap]
  exact congrArg (fun f => List.foldlM f _ _)
    (funext₂ fun maps test => scanTest_eq fuel maps test)

/-- The objects that are to be written are the visited ones that are collected. -/
def Noted (sysmod : SyscharModel) (maps : Maps) : Prop :=
  ∀ id, id ∈ maps.sysmap ↔ maps.has (.object id) = true ∧ (sysmod.getSyschar id).isSome = true

/-- What is visited is noted. -/
theorem noted_mark (r : Reference) (maps : Maps) (h : Noted sysmod maps) :
    Noted sysmod ((Maps.marking sysmod).mark r maps) := by
  intro id
  change id ∈ ((maps.put r).note sysmod r).sysmap ↔
    ((maps.put r).note sysmod r).has (.object id) = true ∧ _
  rw [Maps.has_note, Maps.has_put, or_and_right, ← h id]
  cases r with
  | object object =>
      rw [Maps.note]
      split
      · rename_i hsyschar
        simp only [Maps.put, mem_stringMapPut, Reference.object.injEq]
        constructor
        · rintro (rfl | hmem)
          · exact .inl ⟨rfl, hsyschar⟩
          · exact .inr hmem
        · rintro (⟨rfl, -⟩ | hmem)
          · exact .inl rfl
          · exact .inr hmem
      · rename_i hsyschar
        simp only [Maps.put, Reference.object.injEq]
        constructor
        · exact .inr
        · rintro (⟨rfl, hsome⟩ | hmem)
          · exact absurd hsome hsyschar
          · exact hmem
  | state state => simp [Maps.note, Maps.put]
  | var var => simp [Maps.note, Maps.put]

end Tests

/-! ### What is written -/

section Written

variable {model : OvalDefinitionModel} {sysmod : SyscharModel} {tests : List OvalTestRefs}

/-- The things of the definition model. -/
def OvalDefinitionModel.all (model : OvalDefinitionModel) : List Reference :=
  model.objects.map (fun object => .object object.1) ++
    model.states.map (fun state => .state state.1) ++ model.vars.map (fun var => .var var.1)

/-- What is looked up with success is in the list. -/
theorem mem_of_lookup {α : Type} {pairs : List (String × α)} {id : String}
    (f : String → Reference) (h : pairs.lookup id ≠ none) :
    f id ∈ pairs.map fun pair => f pair.1 := by
  obtain ⟨a, ha⟩ := Option.ne_none_iff_exists'.mp h
  obtain ⟨xs, ys, rfl, -⟩ := List.lookup_eq_some_iff.mp ha
  simp

/-- Only the things of the model have references. -/
theorem mem_all_of_scanned {r : Reference} (h : scanned model r ≠ []) : r ∈ model.all := by
  rw [OvalDefinitionModel.all, List.mem_append, List.mem_append]
  cases r with
  | object id =>
      refine .inl (.inl (mem_of_lookup .object fun hnone => h ?_))
      rw [scanned, OvalDefinitionModel.objectContents, hnone]
      rfl
  | state id =>
      refine .inl (.inr (mem_of_lookup .state fun hnone => h ?_))
      rw [scanned, OvalDefinitionModel.stateContents, hnone]
      rfl
  | var id =>
      refine .inr (mem_of_lookup .var fun hnone => h ?_)
      rw [scanned, OvalDefinitionModel.component, hnone]
      rfl

/-- **The scan comes to its end**, and has visited what it reaches. -/
theorem exists_maps (sysmod : SyscharModel) (tests : List OvalTestRefs) {fuel : ℕ}
    (hfuel : model.all.length < fuel) :
    ∃ maps, tests.foldlM (scanTest model sysmod fuel) .new = some maps ∧ Noted sysmod maps ∧
      ∀ r, maps.has r = true ↔ ScanReaches model sysmod tests r := by
  have hsome : (tests.foldlM (scanTest model sysmod fuel) .new).isSome := by
    rw [scanTests_eq]
    exact Marking.visitAll_isSome (fun r hr => mem_all_of_scanned hr) _ (by omega)
  obtain ⟨maps, hmaps⟩ := Option.isSome_iff_exists.mp hsome
  have hwalk := hmaps
  rw [scanTests_eq] at hwalk
  refine ⟨maps, hmaps, ?_, fun r => ?_⟩
  · exact Marking.visitAll_invariant noted_mark (fun id => by simp [Maps.new, Maps.has]) hwalk
  · have hnew : ∀ m, (Maps.marking sysmod).marked .new m ≠ true := by
      intro m
      cases m <;> simp [Maps.marking, Maps.new, Maps.has]
    have hiff := (Marking.walked_visitAll hwalk).marked_iff (fun n hn => absurd hn (hnew n)) r
    refine hiff.trans ⟨?_, ?_⟩
    · rintro (hmarked | ⟨a, ha, hreach⟩)
      · exact absurd hmarked (hnew r)
      · obtain ⟨test, htest, ha⟩ := List.mem_flatMap.mp ha
        exact ⟨test, htest, a, ha, hreach⟩
    · rintro ⟨test, htest, a, ha, hreach⟩
      exact .inr ⟨a, List.mem_flatMap.mpr ⟨test, htest, ha⟩, hreach⟩

/-- A collected object is found in the model. -/
theorem isSome_getSyschar {id : String} {syschar : Syschar} (h : (id, syschar) ∈ sysmod.syschars) :
    (sysmod.getSyschar id).isSome = true := by
  obtain ⟨⟨id', all⟩, hentry, hmem⟩ := List.mem_flatMap.mp h
  obtain ⟨syschar', hsyschar, heq⟩ := List.mem_map.mp hmem
  cases heq
  rw [SyscharModel.getSyschar, (lookup_eq_some_iff sysmod.keys_nodup id all).mpr hentry,
    Option.bind_some, List.getLast?_isSome]
  exact List.ne_nil_of_mem hsyschar

/-- **What is written**: the collected objects that the scan reaches. -/
theorem mem_collectedObjects_iff {maps : Maps} (hnoted : Noted sysmod maps)
    (hhas : ∀ r, maps.has r = true ↔ ScanReaches model sysmod tests r) {id : String}
    {syschar : Syschar} :
    (id, syschar) ∈ (syscharModelToDom model sysmod maps.sysmap).collectedObjects ↔
      Collected model sysmod id syschar ∧ ScanReaches model sysmod tests (.object id) := by
  rw [syscharModelToDom, List.mem_filter, List.mem_filter, decide_eq_true_iff, hnoted id, hhas,
    Collected, Bool.not_eq_true', Bool.or_eq_false_iff, decide_eq_false_iff_not,
    Option.isSome_eq_false_iff, Option.isNone_iff_eq_none]
  constructor
  · rintro ⟨⟨hmem, hreach, -⟩, hflag, hbase⟩
    exact ⟨⟨hmem, hflag, hbase⟩, hreach⟩
  · rintro ⟨⟨hmem, hflag, hbase⟩, hreach⟩
    exact ⟨⟨hmem, hreach, isSome_getSyschar hmem⟩, hflag, hbase⟩

/-- Putting some items. -/
theorem mem_foldl_stringMapPut (items : List String) {map : List String} {k : String} :
    k ∈ items.foldl stringMapPut map ↔ k ∈ items ∨ k ∈ map := by
  induction items generalizing map with
  | nil => simp
  | cons item items ih => rw [List.foldl_cons, ih, mem_stringMapPut, List.mem_cons, or_left_comm,
      or_assoc]

/-- Items are put once. -/
theorem nodup_foldl_stringMapPut (items : List String) {map : List String} (h : map.Nodup) :
    (items.foldl stringMapPut map).Nodup := by
  induction items generalizing map with
  | nil => exact h
  | cons item items ih => exact ih (nodup_stringMapPut h item)

/-- What is written contains everything exactly when what is collected and can be reached is
reached by the scan. -/
theorem closed_iff {maps : Maps} (hnoted : Noted sysmod maps)
    (hhas : ∀ r, maps.has r = true ↔ ScanReaches model sysmod tests r) :
    Closed model sysmod tests (syscharModelToDom model sysmod maps.sysmap) ↔
      ∀ id syschar, Reachable model tests (.object id) → Collected model sysmod id syschar →
        ScanReaches model sysmod tests (.object id) := by
  constructor
  · intro h id syschar hreach hcollected
    exact ((mem_collectedObjects_iff hnoted hhas).mp (h.objects id syschar hreach hcollected)).2
  · intro h
    have hobjects : ∀ id syschar, Reachable model tests (.object id) →
        Collected model sysmod id syschar →
        (id, syschar) ∈ (syscharModelToDom model sysmod maps.sysmap).collectedObjects :=
      fun id syschar hreach hcollected => (mem_collectedObjects_iff hnoted hhas).mpr
        ⟨hcollected, h id syschar hreach hcollected⟩
    refine ⟨hobjects, fun id syschar hreach hcollected item hitem => ?_, ?_, ?_⟩
    · exact (mem_foldl_stringMapPut _).mpr (.inl (List.mem_flatMap.mpr
        ⟨(id, syschar), hobjects id syschar hreach hcollected, hitem⟩))
    · exact List.filter_sublist.trans List.filter_sublist
    · exact nodup_foldl_stringMapPut _ List.nodup_nil

/-! ### When everything is written -/

/-- What the scan reaches can be reached. -/
theorem ScanReaches.reachable {r : Reference} (h : ScanReaches model sysmod tests r) :
    Reachable model tests r := by
  obtain ⟨test, htest, a, ha, hreach⟩ := h
  refine ⟨test, htest, a, ?_, hreach.mono fun _ _ hb => List.mem_append_left _ hb⟩
  rw [testScanned, List.mem_append] at ha
  rw [testReferences, List.mem_append]
  refine ha.imp_left fun ha => ?_
  obtain ⟨object, hobject, rfl⟩ := List.mem_map.mp ha
  exact List.mem_map_of_mem (List.mem_of_mem_filter hobject)

/-- What can be reached is reached by the scan, or from what it leaves out. -/
theorem Reachable.cases {r : Reference} (h : Reachable model tests r) :
    ScanReaches model sysmod tests r ∨
      (∃ a, ScanReaches model sysmod tests a ∧ ∃ b ∈ skipped model a,
        Reaches (references model) b r) ∨
      ∃ test ∈ tests, ∃ object, test.object = some object ∧ sysmod.getSyschar object = none ∧
        Reaches (references model) (.object object) r := by
  obtain ⟨test, htest, a, ha, hreach⟩ := h
  by_cases hscanned : a ∈ testScanned sysmod test
  · rcases Marking.reaches_or_leaves (fun _ _ hb => List.mem_append.mp hb) hreach with
      hkept | ⟨c, hkept, b, hb, hleft⟩
    · exact .inl ⟨test, htest, a, hscanned, hkept⟩
    · exact .inr (.inl ⟨c, ⟨test, htest, a, hscanned, hkept⟩, b, hb, hleft⟩)
  · -- only the object of the test may be left out
    rw [testReferences, List.mem_append] at ha
    rw [testScanned, List.mem_append, not_or] at hscanned
    obtain ⟨object, hobject, rfl⟩ := List.mem_map.mp (ha.resolve_right hscanned.2)
    refine .inr (.inr ⟨test, htest, object, Option.mem_toList.mp hobject, ?_, hreach⟩)
    by_contra hsyschar
    exact hscanned.1 (List.mem_map_of_mem (List.mem_filter.mpr
      ⟨hobject, Option.isSome_iff_ne_none.mpr hsyschar⟩))

/-- All that is collected and can be reached is reached by the scan exactly when what it leaves
out is reached in another way. -/
theorem covered_iff : Covered model sysmod tests ↔
    ∀ id syschar, Reachable model tests (.object id) → Collected model sysmod id syschar →
      ScanReaches model sysmod tests (.object id) := by
  constructor
  · intro h id syschar hreachable hcollected
    rcases hreachable.cases with hscan | ⟨a, ha, b, hb, hreach⟩ |
      ⟨test, htest, object, hobject, hnone, hreach⟩
    · exact hscan
    · exact h.skipped a ha b hb id syschar hreach hcollected
    · exact h.uncollected test htest object hobject hnone id syschar hreach hcollected
  · intro h
    refine ⟨fun a ha b hb id syschar hreach hcollected => ?_,
      fun test htest object hobject _ id syschar hreach hcollected => ?_⟩
    · obtain ⟨test, htest, a₀, ha₀, hreach₀⟩ := ha.reachable
      refine h id syschar ⟨test, htest, a₀, ha₀, ?_⟩ hcollected
      exact (hreach₀.tail (List.mem_append_right _ hb)).trans hreach
    · refine h id syschar ⟨test, htest, .object object, ?_, hreach⟩ hcollected
      rw [testReferences, hobject]
      exact List.mem_append_left _ (List.mem_singleton_self _)

end Written

/-- **The results contain what can be reached from the reported tests exactly when what the scan
leaves out is reached in another way.** -/
theorem resultsClosed_iff (model : OvalDefinitionModel) (sysmod : SyscharModel)
    (tests : List OvalTestRefs) :
    ResultsClosed model sysmod tests ↔ Covered model sysmod tests := by
  rw [covered_iff]
  constructor
  · rintro ⟨n, hn⟩
    obtain ⟨written, hwritten, hclosed⟩ := hn (max n (model.all.length + 1)) (le_max_left _ _)
    obtain ⟨maps, hmaps, hnoted, hhas⟩ :=
      exists_maps sysmod tests (Nat.lt_of_succ_le (le_max_right n (model.all.length + 1)))
    rw [resultSystemToDom, hmaps] at hwritten
    cases hwritten
    exact (closed_iff hnoted hhas).mp hclosed
  · intro h
    refine ⟨model.all.length + 1, fun fuel hfuel => ?_⟩
    obtain ⟨maps, hmaps, hnoted, hhas⟩ :=
      exists_maps sysmod tests (Nat.lt_of_succ_le hfuel)
    refine ⟨syscharModelToDom model sysmod maps.sysmap, ?_, (closed_iff hnoted hhas).mpr h⟩
    rw [resultSystemToDom, hmaps]
    rfl

/-- An object with a filter, whose state refers to another object by a variable. -/
def filteredModel : OvalDefinitionModel :=
  ⟨[("object", ⟨[.filter "state"], none⟩), ("other", ⟨[], none⟩)],
    [("state", [⟨some ⟨.attribute, some "variable"⟩, []⟩])],
    [("variable", .local_ (.objectref "other"))]⟩

/-- Both objects are collected. -/
def filteredSyschars : SyscharModel :=
  ⟨[("object", [⟨.complete, []⟩]), ("other", [⟨.complete, ["item"]⟩])], by decide⟩

/-- The object that the filter refers to is not written. -/
theorem not_resultsClosed : ¬ ∀ model sysmod tests, ResultsClosed model sysmod tests := by
  intro h
  obtain ⟨n, hn⟩ := h filteredModel filteredSyschars [⟨some "object", []⟩]
  obtain ⟨written, hwritten, hclosed⟩ := hn (n + 1) (Nat.le_succ n)
  have hreach : Reachable filteredModel [⟨some "object", []⟩] (.object "other") := by
    refine ⟨_, List.mem_singleton_self _, .object "object", by decide, ?_⟩
    have hstate : Refers (references filteredModel) (.object "object") (.state "state") := by
      simp [Refers, references, scanned, skipped, OvalDefinitionModel.objectContents,
        filteredModel]
    have hvar : Refers (references filteredModel) (.state "state") (.var "variable") := by
      simp [Refers, references, scanned, skipped, OvalDefinitionModel.stateContents,
        filteredModel, entityReferences]
    have hother : Refers (references filteredModel) (.var "variable") (.object "other") := by
      simp [Refers, references, scanned, skipped, OvalDefinitionModel.component,
        filteredModel, componentReferences]
    exact .head hstate (.head hvar (.single hother))
  have hmem := hclosed.objects "other" ⟨.complete, ["item"]⟩ hreach ⟨by decide, by decide, rfl⟩
  cases hwritten
  exact absurd hmem (by decide)

end OpenScap.ResultExport
