import OpenScap.FallibleLoop
import OpenScap.XccdfResolve

/-!
# The values that checks receive and results report

A profile chooses the value of a `Value` item: by a set-value, or else by a refine-value whose
selector names one of the item's instances. `xccdf_policy_check_get_value_bindings` looks for
the last set-value and the last refine-value of the item; `xccdf_policy_get_value_of_item`,
which the reported set-values come from, looks for the last set-value and the first
refine-value, and only where there is no set-value.

A read through a null pointer is an outcome (`none`).

## Main results

* `bindExport_spec` — what is bound for one exported value;
* `finalSetvalues_eq` — the reported set-values are those of all values of the benchmark;
* `bindings_agree_iff` — when every bound value is the value of the item and the reported one.
-/

open FallibleLoop KeyedMerge

namespace OpenScap

/-! ### Values -/

/-- `struct xccdf_value_instance`: the selector, empty when there is none, and the value. -/
structure XccdfValueInstance where
  selector : String
  value : Option String
  deriving DecidableEq

/-- `xccdf_value_type_t`. -/
inductive XccdfValueType
  | number
  | string
  | boolean
  deriving DecidableEq, Repr

/-- A `Value` item. -/
structure XccdfValueItem where
  id : String
  type : XccdfValueType
  oper : XccdfOperator
  instances : List XccdfValueInstance
  deriving DecidableEq

/-- A group, with its values and its content, or a rule; the benchmark itself is like a
group. -/
inductive XccdfValueTree
  | rule
  | group (values : List XccdfValueItem) (content : List XccdfValueTree)

mutual

/-- The values of a group and of the groups below it. -/
def XccdfValueTree.values : XccdfValueTree → List XccdfValueItem
  | .rule => []
  | .group values content => values ++ contentValueItems content

/-- The values of the groups of a list. -/
def contentValueItems : List XccdfValueTree → List XccdfValueItem
  | [] => []
  | item :: items => item.values ++ contentValueItems items

end

/-- A benchmark whose values have ids of their own. -/
structure XccdfValueBenchmark where
  root : XccdfValueTree
  ids_nodup : (root.values.map XccdfValueItem.id).Nodup

/-- `xccdf_benchmark_get_item`, among the values. -/
def XccdfValueBenchmark.getItem (benchmark : XccdfValueBenchmark) (id : String) :
    Option XccdfValueItem :=
  benchmark.root.values.find? fun value => value.id = id

/-- `xccdf_value_get_instance_by_selector`: without a selector, the first instance stands in
for one without selector. -/
def xccdfValueGetInstanceBySelector (value : XccdfValueItem) (selector : Option String) :
    Option XccdfValueInstance :=
  let sel := selector.getD ""
  let val := value.instances.find? fun inst => oscapStreq inst.selector sel
  if val = none ∧ oscapStreq sel "" then value.instances.head? else val

/-! ### The value of an item -/

/-- The set-value that the loops of the source end with. -/
def lastSetvalue (profile : XccdfProfileLists) (id : String) : Option XccdfSetvalue :=
  profile.setvalues.foldl (fun final s => if s.item = id then some s else final) none

/-- `xccdf_policy_get_setvalue`. -/
def xccdfPolicyGetSetvalue (profile : Option XccdfProfileLists) (id : String) :
    Option XccdfSetvalue :=
  profile.bind fun profile => lastSetvalue profile id

/-- `xccdf_policy_get_refine_value`. -/
def xccdfPolicyGetRefineValue (profile : Option XccdfProfileLists) (id : String) :
    Option XccdfRefineValue :=
  profile.bind fun profile =>
    profile.refineValues.foldl (fun final r => if r.item = id then some r else final) none

/-- `xccdf_policy_get_value_of_item`; the value itself may be null. -/
def xccdfPolicyGetValueOfItem (profile : Option XccdfProfileLists) (item : XccdfValueItem) :
    Option (Option String) :=
  match profile with
  | none => (xccdfValueGetInstanceBySelector item none).map XccdfValueInstance.value
  | some profile =>
      match lastSetvalue profile item.id with
      | some s => some (some s.value)
      | none =>
          let selector := (profile.refineValues.find? fun r => r.item = item.id).bind
            XccdfRefineValue.selector
          (xccdfValueGetInstanceBySelector item selector).map XccdfValueInstance.value

/-! ### The bindings of a check -/

/-- `struct xccdf_check_export`. -/
structure XccdfCheckExport where
  value : String
  name : String
  deriving DecidableEq

/-- `struct xccdf_value_binding`. -/
structure XccdfValueBinding where
  name : String
  type : XccdfValueType
  value : Option String
  setvalue : Option String
  operator : XccdfOperator
  deriving DecidableEq

/-- The body of the loop of `xccdf_policy_check_get_value_bindings`; an error has its text. -/
def bindExport (benchmark : XccdfValueBenchmark) (profile : Option XccdfProfileLists)
    (check : XccdfCheckExport) : Except String XccdfValueBinding :=
  match benchmark.getItem check.value with
  | none => .error ("Value \"" ++ check.value ++ "\" does not exist in benchmark")
  | some value =>
      let rValue := xccdfPolicyGetRefineValue profile value.id
      let selector := rValue.bind XccdfRefineValue.selector
      let operator :=
        match rValue with
        | some r => if r.oper ≠ .unset then r.oper else value.oper
        | none => value.oper
      match xccdfValueGetInstanceBySelector value selector with
      | none =>
          .error ("Attempt to get non-existent selector \"" ++ selector.getD "(null)" ++
            "\" from variable \"" ++ value.id ++ "\"")
      | some val =>
          .ok ⟨check.name, value.type, val.value,
            (xccdfPolicyGetSetvalue profile value.id).map XccdfSetvalue.value, operator⟩

/-- `xccdf_policy_check_get_value_bindings`. -/
def xccdfPolicyCheckGetValueBindings (benchmark : XccdfValueBenchmark)
    (profile : Option XccdfProfileLists) (checks : List XccdfCheckExport) :
    Except String (List XccdfValueBinding) :=
  checks.mapM (bindExport benchmark profile)

/-- The value that `oval_agent_resolve_variables` takes from a binding: the set-value, or else
the value. -/
def XccdfValueBinding.bound (binding : XccdfValueBinding) : Option String :=
  binding.setvalue.or binding.value

/-! ### The reported set-values -/

/-- A set-value of a `TestResult`. -/
structure XccdfFinalSetvalue where
  item : String
  value : Option String
  deriving DecidableEq

/-- `xccdf_policy_add_final_setvalue`. -/
def xccdfPolicyAddFinalSetvalue (profile : Option XccdfProfileLists)
    (result : List XccdfFinalSetvalue) (value : XccdfValueItem) :
    Option (List XccdfFinalSetvalue) := do
  let content ← xccdfPolicyGetValueOfItem profile value
  return result ++ [⟨value.id, content⟩]

mutual

/-- `xccdf_policy_add_final_setvalues`. -/
def xccdfPolicyAddFinalSetvalues (profile : Option XccdfProfileLists) :
    XccdfValueTree → List XccdfFinalSetvalue → Option (List XccdfFinalSetvalue)
  | .rule, result => some result
  | .group values content, result => do
      let result ← values.foldlM (xccdfPolicyAddFinalSetvalue profile) result
      addContentSetvalues profile content result

/-- The loop over the content of a group. -/
def addContentSetvalues (profile : Option XccdfProfileLists) :
    List XccdfValueTree → List XccdfFinalSetvalue → Option (List XccdfFinalSetvalue)
  | [], result => some result
  | item :: items, result => do
      let result ← xccdfPolicyAddFinalSetvalues profile item result
      addContentSetvalues profile items result

end

/-- The set-values that the evaluation of a policy reports. -/
def finalSetvalues (benchmark : XccdfValueBenchmark) (profile : Option XccdfProfileLists) :
    Option (List XccdfFinalSetvalue) :=
  xccdfPolicyAddFinalSetvalues profile benchmark.root []

/-! ### What the searches find -/

/-- The refine-values of the profile for an item, in their order. -/
def refineValuesOf (profile : Option XccdfProfileLists) (id : String) : List XccdfRefineValue :=
  match profile with
  | none => []
  | some profile => profile.refineValues.filter fun r => r.item = id

/-- The bindings use the last refine-value. -/
theorem xccdfPolicyGetRefineValue_eq (profile : Option XccdfProfileLists) (id : String) :
    xccdfPolicyGetRefineValue profile id = (refineValuesOf profile id).getLast? := by
  cases profile with
  | none => rfl
  | some profile =>
      have h := foldl_last_match (fun r : XccdfRefineValue => decide (r.item = id))
        profile.refineValues
      simp only [decide_eq_true_eq] at h
      rw [xccdfPolicyGetRefineValue, Option.bind_some, h, refineValuesOf, List.getLast?_filter]

/-- The value of an item comes from a set-value, or else from the first refine-value. -/
theorem xccdfPolicyGetValueOfItem_eq (profile : Option XccdfProfileLists)
    (item : XccdfValueItem) :
    xccdfPolicyGetValueOfItem profile item =
      match xccdfPolicyGetSetvalue profile item.id with
      | some s => some (some s.value)
      | none => (xccdfValueGetInstanceBySelector item
          ((refineValuesOf profile item.id).head?.bind XccdfRefineValue.selector)).map
            XccdfValueInstance.value := by
  cases profile with
  | none => rfl
  | some profile =>
      rw [xccdfPolicyGetValueOfItem, xccdfPolicyGetSetvalue, Option.bind_some, refineValuesOf,
        List.head?_filter]

/-- What an item is reported to be: a set-value, or the instance for a refine-value. -/
def HasReported (profile : Option XccdfProfileLists) (value : XccdfValueItem) : Prop :=
  xccdfPolicyGetSetvalue profile value.id = none → ∃ inst,
    xccdfValueGetInstanceBySelector value
      ((refineValuesOf profile value.id).head?.bind XccdfRefineValue.selector) = some inst

/-- An item has a value unless a null pointer is read. -/
theorem isSome_xccdfPolicyGetValueOfItem_iff (profile : Option XccdfProfileLists)
    (value : XccdfValueItem) :
    (xccdfPolicyGetValueOfItem profile value).isSome ↔ HasReported profile value := by
  rw [xccdfPolicyGetValueOfItem_eq, HasReported]
  cases xccdfPolicyGetSetvalue profile value.id with
  | some s => simp
  | none =>
      rw [Option.isSome_map, Option.isSome_iff_exists]
      exact ⟨fun h _ => h, fun h => h rfl⟩

/-! ### One exported value -/

/-- Whether the value bound for an item is the one reported: the selector of the last
refine-value names an instance and, without a set-value, so does that of the first one, with
the same value. -/
def BindsAlike (profile : Option XccdfProfileLists) (value : XccdfValueItem) : Prop :=
  ∃ inst, xccdfValueGetInstanceBySelector value
      ((refineValuesOf profile value.id).getLast?.bind XccdfRefineValue.selector) = some inst ∧
    (xccdfPolicyGetSetvalue profile value.id = none → ∃ first,
      xccdfValueGetInstanceBySelector value
        ((refineValuesOf profile value.id).head?.bind XccdfRefineValue.selector) = some first ∧
      inst.value = first.value)

/-- **What is bound for an exported value**: there is a binding when the last refine-value
names an instance, and it has the set-value, or else the instance's value. -/
theorem bindExport_spec {benchmark : XccdfValueBenchmark} {profile : Option XccdfProfileLists}
    {check : XccdfCheckExport} {value : XccdfValueItem}
    (hvalue : benchmark.getItem check.value = some value) (bound : Option String) :
    (∃ binding, bindExport benchmark profile check = .ok binding ∧ binding.bound = bound) ↔
      ∃ inst, xccdfValueGetInstanceBySelector value
          ((refineValuesOf profile value.id).getLast?.bind XccdfRefineValue.selector) =
            some inst ∧
        bound = ((xccdfPolicyGetSetvalue profile value.id).map XccdfSetvalue.value).or
          inst.value := by
  simp only [bindExport, hvalue, xccdfPolicyGetRefineValue_eq]
  cases xccdfValueGetInstanceBySelector value
      ((refineValuesOf profile value.id).getLast?.bind XccdfRefineValue.selector) with
  | none => simp
  | some inst => simp [XccdfValueBinding.bound, eq_comm]

/-- The bound value is the value of the item when the choices agree. -/
theorem bindExport_agrees_iff {benchmark : XccdfValueBenchmark}
    {profile : Option XccdfProfileLists} {check : XccdfCheckExport} {value : XccdfValueItem}
    (hvalue : benchmark.getItem check.value = some value) :
    (∃ binding, bindExport benchmark profile check = .ok binding ∧
      xccdfPolicyGetValueOfItem profile value = some binding.bound) ↔
      BindsAlike profile value := by
  have hspec := @bindExport_spec benchmark profile check value hvalue
  have hcomm : (∃ binding, bindExport benchmark profile check = .ok binding ∧
      xccdfPolicyGetValueOfItem profile value = some binding.bound) ↔
      ∃ bound, (∃ binding, bindExport benchmark profile check = .ok binding ∧
        binding.bound = bound) ∧ xccdfPolicyGetValueOfItem profile value = some bound :=
    ⟨fun ⟨binding, h, hb⟩ => ⟨_, ⟨binding, h, rfl⟩, hb⟩,
      fun ⟨_, ⟨binding, h, hb⟩, hv⟩ => ⟨binding, h, hb ▸ hv⟩⟩
  rw [hcomm, BindsAlike]
  simp only [hspec, xccdfPolicyGetValueOfItem_eq]
  cases xccdfPolicyGetSetvalue profile value.id with
  | some s => simp
  | none => simp [eq_comm]

/-! ### All values of the benchmark -/

/-- The entry reported for a value. -/
def finalSetvalue (profile : Option XccdfProfileLists) (value : XccdfValueItem) :
    Option XccdfFinalSetvalue :=
  (xccdfPolicyGetValueOfItem profile value).map fun content => ⟨value.id, content⟩

/-- The values of a group are reported one after another. -/
theorem foldlM_addFinalSetvalue (profile : Option XccdfProfileLists)
    (values : List XccdfValueItem) (result : List XccdfFinalSetvalue) :
    values.foldlM (xccdfPolicyAddFinalSetvalue profile) result =
      (values.mapM (finalSetvalue profile)).map (result ++ ·) := by
  have hstep : xccdfPolicyAddFinalSetvalue profile = (fun result value => do
      let entry ← finalSetvalue profile value
      some (result ++ [entry])) := by
    funext result value
    rw [xccdfPolicyAddFinalSetvalue, finalSetvalue]
    cases xccdfPolicyGetValueOfItem profile value <;> rfl
  rw [hstep, foldlM_collect]

mutual

/-- The set-values of a group are those of its values. -/
theorem xccdfPolicyAddFinalSetvalues_eq (profile : Option XccdfProfileLists)
    (item : XccdfValueTree) (result : List XccdfFinalSetvalue) :
    xccdfPolicyAddFinalSetvalues profile item result =
      (item.values.mapM (finalSetvalue profile)).map (result ++ ·) := by
  cases item with
  | rule => simp [xccdfPolicyAddFinalSetvalues, XccdfValueTree.values]
  | group values content =>
      rw [xccdfPolicyAddFinalSetvalues, XccdfValueTree.values, foldlM_addFinalSetvalue,
        List.mapM_append]
      cases values.mapM (finalSetvalue profile) with
      | none => rfl
      | some own =>
          change addContentSetvalues profile content (result ++ own) = _
          rw [addContentSetvalues_eq profile content]
          cases (contentValueItems content).mapM (finalSetvalue profile) <;> simp

/-- So are those of a list of items. -/
theorem addContentSetvalues_eq (profile : Option XccdfProfileLists)
    (items : List XccdfValueTree) (result : List XccdfFinalSetvalue) :
    addContentSetvalues profile items result =
      ((contentValueItems items).mapM (finalSetvalue profile)).map (result ++ ·) := by
  cases items with
  | nil => simp [addContentSetvalues, contentValueItems]
  | cons item items =>
      rw [addContentSetvalues, contentValueItems, xccdfPolicyAddFinalSetvalues_eq profile item,
        List.mapM_append]
      cases item.values.mapM (finalSetvalue profile) with
      | none => rfl
      | some own =>
          change addContentSetvalues profile items (result ++ own) = _
          rw [addContentSetvalues_eq profile items]
          cases (contentValueItems items).mapM (finalSetvalue profile) <;> simp

end

/-- **The reported set-values** are those of all values of the benchmark, in their order. -/
theorem finalSetvalues_eq (benchmark : XccdfValueBenchmark)
    (profile : Option XccdfProfileLists) :
    finalSetvalues benchmark profile =
      benchmark.root.values.mapM (finalSetvalue profile) := by
  rw [finalSetvalues, xccdfPolicyAddFinalSetvalues_eq]
  simp

/-- Whether there is a `TestResult`, and every entry that it has for an item has this value. -/
def IsReported (benchmark : XccdfValueBenchmark) (profile : Option XccdfProfileLists)
    (id : String) (content : Option String) : Prop :=
  ∃ reported, finalSetvalues benchmark profile = some reported ∧
    ⟨id, content⟩ ∈ reported ∧ ∀ entry ∈ reported, entry.item = id → entry.value = content

/-- **The reported value of an item** is its value, if all values can be read. -/
theorem isReported_iff (benchmark : XccdfValueBenchmark) (profile : Option XccdfProfileLists)
    {value : XccdfValueItem} (hmem : value ∈ benchmark.root.values)
    {content : Option String}
    (hcontent : xccdfPolicyGetValueOfItem profile value = some content) :
    IsReported benchmark profile value.id content ↔
      ∀ other ∈ benchmark.root.values, HasReported profile other := by
  have hsome : (∃ reported, finalSetvalues benchmark profile = some reported) ↔
      ∀ other ∈ benchmark.root.values, HasReported profile other := by
    rw [finalSetvalues_eq, exists_mapM_eq_some_iff]
    refine forall₂_congr fun other _ => ?_
    rw [← isSome_xccdfPolicyGetValueOfItem_iff, finalSetvalue, ← Option.isSome_iff_exists,
      Option.isSome_map]
  rw [← hsome, IsReported]
  refine exists_congr fun reported => and_iff_left_of_imp fun hreported => ?_
  rw [finalSetvalues_eq] at hreported
  have hentry : finalSetvalue profile value = some ⟨value.id, content⟩ := by
    rw [finalSetvalue, hcontent]
    rfl
  refine ⟨(mem_of_mapM_eq_some hreported _).mpr ⟨value, hmem, hentry⟩, ?_⟩
  intro entry hin hid
  obtain ⟨other, hother, heq⟩ := (mem_of_mapM_eq_some hreported _).mp hin
  have hitem : other.id = entry.item := by
    obtain ⟨_, _, rfl⟩ := Option.map_eq_some_iff.mp heq
    rfl
  have hsame : other = value :=
    List.inj_on_of_nodup_map benchmark.ids_nodup hother hmem (hitem.trans hid)
  rw [hsame, hentry] at heq
  exact (congrArg XccdfFinalSetvalue.value (Option.some.inj heq)).symm

/-! ### All exports of a check -/

/-- Whether a check gets, for every value that it exports, the value that the item has and
that is reported. -/
def ReceivesReported (benchmark : XccdfValueBenchmark) (profile : Option XccdfProfileLists)
    (checks : List XccdfCheckExport) : Prop :=
  ∃ bindings, xccdfPolicyCheckGetValueBindings benchmark profile checks = .ok bindings ∧
    List.Forall₂ (fun check binding => ∀ value, benchmark.getItem check.value = some value →
      xccdfPolicyGetValueOfItem profile value = some binding.bound ∧
        IsReported benchmark profile value.id binding.bound) checks bindings

/-- **Bound, current and reported values agree** exactly when, for every exported value, the
last refine-value names an instance and, without a set-value, the first one names an instance
of the same value, and no value of the benchmark lacks the instance that it is reported by. -/
theorem bindings_agree_iff (benchmark : XccdfValueBenchmark)
    (profile : Option XccdfProfileLists) (checks : List XccdfCheckExport)
    (hchecks : ∀ check ∈ checks, ∃ value, benchmark.getItem check.value = some value) :
    ReceivesReported benchmark profile checks ↔
      ∀ check ∈ checks, ∀ value, benchmark.getItem check.value = some value →
        BindsAlike profile value ∧
          ∀ other ∈ benchmark.root.values, HasReported profile other := by
  rw [ReceivesReported, xccdfPolicyCheckGetValueBindings, mapM_ok_forall₂_iff]
  refine forall₂_congr fun check hcheck => ?_
  obtain ⟨value, hvalue⟩ := hchecks check hcheck
  have hmem : value ∈ benchmark.root.values := List.mem_of_find?_eq_some hvalue
  simp only [hvalue, Option.some.injEq, forall_eq']
  rw [← bindExport_agrees_iff hvalue]
  constructor
  · rintro ⟨binding, hbinding, hcontent, hreported⟩
    exact ⟨⟨binding, hbinding, hcontent⟩,
      (isReported_iff benchmark profile hmem hcontent).mp hreported⟩
  · rintro ⟨⟨binding, hbinding, hcontent⟩, hall⟩
    exact ⟨binding, hbinding, hcontent,
      (isReported_iff benchmark profile hmem hcontent).mpr hall⟩

/-- A benchmark with one value, which has a default and an instance with a selector. -/
def twoInstances : XccdfValueBenchmark :=
  ⟨.group [⟨"v", .string, .equals, [⟨"", some "a"⟩, ⟨"s", some "b"⟩]⟩] [], by decide⟩

/-- With refine-values for the selector and then for the default, the check gets the default
and the instance with the selector is reported. -/
theorem not_receivesReported :
    ¬ ∀ (benchmark : XccdfValueBenchmark) (profile : Option XccdfProfileLists)
      (checks : List XccdfCheckExport),
      (∀ check ∈ checks, ∃ value, benchmark.getItem check.value = some value) →
        ReceivesReported benchmark profile checks := by
  intro h
  have hone := h twoInstances
    (some ⟨[], [], [], [⟨"v", some "s", .unset⟩, ⟨"v", none, .unset⟩]⟩) [⟨"v", "x"⟩]
    (fun check hcheck => by
      rw [List.mem_singleton.mp hcheck]
      exact ⟨_, rfl⟩)
  rw [ReceivesReported, xccdfPolicyCheckGetValueBindings, mapM_ok_forall₂_iff] at hone
  obtain ⟨binding, hbinding, hagree⟩ := hone _ List.mem_cons_self
  have hvalue := (hagree _ rfl).1
  obtain rfl : (⟨"x", .string, some "a", none, .equals⟩ : XccdfValueBinding) = binding :=
    Except.ok.inj hbinding
  exact absurd hvalue (by decide)

/-- With the default alone, both have it. -/
theorem bindings_agree_iff_default :
    ReceivesReported twoInstances none [⟨"v", "x"⟩] :=
  (bindings_agree_iff twoInstances none [⟨"v", "x"⟩] (fun check hcheck => by
      rw [List.mem_singleton.mp hcheck]
      exact ⟨_, rfl⟩)).mpr (fun check hcheck value hvalue => by
    rw [List.mem_singleton.mp hcheck] at hvalue
    obtain rfl := Option.some.inj hvalue
    refine ⟨⟨_, rfl, fun _ => ⟨_, rfl, rfl⟩⟩, fun other hother _ => ?_⟩
    rw [List.mem_singleton.mp hother]
    exact ⟨_, rfl⟩)

end OpenScap
