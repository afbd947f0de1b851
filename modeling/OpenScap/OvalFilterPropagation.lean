import Mathlib.Data.List.AList
import OpenScap.CString
import OpenScap.FallibleLoop
import OpenScap.OvalResult
import OpenScap.ProbeSet

/-!
# Filter propagation

Before a definition model is evaluated, `oval_definition_model_optimize_by_filter_propagation`
lets the probes apply the filters of a set to the objects that the set refers to: each object
that is not a set itself is replaced, in the set, by an internal copy that carries the filters
of the set as filters of its own. The identifier of a copy is made of that of the object and of
the number at the end of the identifier of the set object.

What an object denotes is the set of its items: an ordinary object denotes the items that are
collected for it and that its filters let through, a set object what its set expression denotes.

## Main results

* `propagationCorrect_iff` — the pass keeps what every object denotes, and makes different
  copies for different filters, exactly when no two sets with different filters share the
  object and the number.
* `not_propagationCorrect` — two subsets of one set object that filter the same object
  differently share a copy, which gets the filters of both.
-/

open FallibleLoop

namespace OpenScap.FilterPropagation

/-! ### The definition model -/

/-- The identifier of an object. -/
abbrev ObjId := List UInt8

/-- `oval_filter_action_t`. -/
inductive FilterAction
  | exclude
  | include
  deriving DecidableEq, Repr

/-- `oval_filter`: a state, and what becomes of the items that match it. -/
structure OvalFilter (σ : Type) where
  state : σ
  action : FilterAction

/-- `oval_setobject`: objects with filters (`OVAL_SET_COLLECTIVE`), or subsets
(`OVAL_SET_AGGREGATE`). -/
inductive OvalSetobject (σ : Type)
  | collective (op : SetOperation) (objects : List ObjId) (filters : List (OvalFilter σ))
  | aggregate (op : SetOperation) (subsets : List (OvalSetobject σ))

/-- `oval_object_content`. What an entity asks for is part of `OvalObject.query`. -/
inductive ObjectContent (σ : Type)
  | entity
  | set (set : OvalSetobject σ)
  | filter (filter : OvalFilter σ)

/-- `oval_object`. The subtype, the behaviors and the entities decide what is collected for an
object; they are its `query`, of which the pass makes nothing but copies. -/
structure OvalObject (κ σ : Type) where
  id : ObjId
  comment : Option (List UInt8)
  deprecated : Bool
  version : Int
  notes : List (List UInt8)
  query : κ
  contents : List (ObjectContent σ)
  baseObjRef : Option ObjId

namespace OvalObject

variable {κ σ : Type}

/-- The object has contents, the first of which is not a set. -/
def ordinary (obj : OvalObject κ σ) : Bool :=
  match obj.contents with
  | [] | .set _ :: _ => false
  | _ => true

/-- The object with its set changed in place. -/
def withSet (obj : OvalObject κ σ) (set : OvalSetobject σ) : OvalObject κ σ :=
  { obj with contents := .set set :: obj.contents.tail }

/-- The filters among the contents. -/
def filters (obj : OvalObject κ σ) : List (OvalFilter σ) :=
  obj.contents.filterMap fun
    | .filter f => some f
    | _ => none

end OvalObject

/-- `oval_definition_model`, as far as its objects go: the map from identifiers to objects. -/
structure OvalDefinitionModel (κ σ : Type) where
  objectMap : AList fun _ : ObjId => OvalObject κ σ
  id_eq : ∀ id obj, objectMap.lookup id = some obj → obj.id = id

namespace OvalDefinitionModel

variable {κ σ : Type}

/-- `oval_definition_model_get_object`. -/
def getObject (model : OvalDefinitionModel κ σ) (id : ObjId) : Option (OvalObject κ σ) :=
  model.objectMap.lookup id

/-- The objects of the model are found. -/
theorem isSome_getObject {model : OvalDefinitionModel κ σ} {id : ObjId} :
    (model.getObject id).isSome ↔ id ∈ model.objectMap :=
  AList.lookup_isSome

/-- Storing an object: a new one, or a changed one in the place of the old. -/
def putObject (model : OvalDefinitionModel κ σ) (obj : OvalObject κ σ) :
    OvalDefinitionModel κ σ where
  objectMap := model.objectMap.insert obj.id obj
  id_eq id obj' h := by
    rcases eq_or_ne id obj.id with rfl | hne
    · rw [AList.lookup_insert] at h
      exact (Option.some.inj h) ▸ rfl
    · rw [AList.lookup_insert_ne hne] at h
      exact model.id_eq id obj' h

/-- The stored object is found. -/
@[simp] theorem getObject_putObject_self (model : OvalDefinitionModel κ σ)
    (obj : OvalObject κ σ) : (model.putObject obj).getObject obj.id = some obj :=
  AList.lookup_insert model.objectMap

/-- The other objects are as before. -/
theorem getObject_putObject_of_ne (model : OvalDefinitionModel κ σ) {obj : OvalObject κ σ}
    {id : ObjId} (h : id ≠ obj.id) : (model.putObject obj).getObject id = model.getObject id :=
  AList.lookup_insert_ne h

/-- What is found after an object is stored. -/
theorem getObject_putObject (model : OvalDefinitionModel κ σ) (obj : OvalObject κ σ)
    (id : ObjId) : (model.putObject obj).getObject id =
      if id = obj.id then some obj else model.getObject id := by
  split
  · rename_i heq
    rw [heq, getObject_putObject_self]
  · rename_i hne
    exact getObject_putObject_of_ne model hne

/-- The model with the objects. -/
def ofObjects (objects : List (OvalObject κ σ)) : OvalDefinitionModel κ σ :=
  objects.foldl putObject ⟨∅, fun _ _ h => by cases h⟩

/-! ### The pass -/

/-- The identifier that `oval_object_create_internal` makes. It takes for granted that there is
a colon in the identifier of the set object. -/
def internalId (id setId : ObjId) : Option ObjId :=
  (strrchr (ascii ':') setId).map fun parts => id ++ ascii 'i' :: parts.2

/-- `oval_object_clone2`, within one model: the object with the new identifier, which is made
from the old object unless there is one already. -/
def objectClone2 (model : OvalDefinitionModel κ σ) (obj : OvalObject κ σ) (newId : ObjId) :
    OvalObject κ σ :=
  (model.getObject newId).getD { obj with id := newId, baseObjRef := none }

/-- `oval_object_create_internal`, for the identifier that it makes, and the adding of the filters
of a set to the internal object. -/
def internalObject (model : OvalDefinitionModel κ σ) (obj : OvalObject κ σ) (newId : ObjId)
    (filters : List (OvalFilter σ)) : OvalObject κ σ :=
  let newObj := model.objectClone2 obj newId
  { newObj with
    id := newId
    baseObjRef := some obj.id
    contents := newObj.contents ++ filters.map .filter }

/-- One turn of the loop of `oval_set_propagate_filters`: an object without contents and a set
object stay in the set; any other is replaced by its internal object. -/
def propagateObject (setId : ObjId) (filters : List (OvalFilter σ))
    (model : OvalDefinitionModel κ σ) (id : ObjId) : Option (OvalDefinitionModel κ σ × ObjId) :=
  match model.getObject id with
  | none => some (model, id)
  | some obj =>
    if obj.ordinary then do
      let newId ← internalId obj.id setId
      some (model.putObject (model.internalObject obj newId filters), newId)
    else some (model, id)

/-- The loop of `oval_set_propagate_filters`. -/
def propagateObjects (setId : ObjId) (filters : List (OvalFilter σ)) :
    OvalDefinitionModel κ σ → List ObjId → Option (OvalDefinitionModel κ σ × List ObjId)
  | model, [] => some (model, [])
  | model, id :: ids => do
    let (model, newId) ← propagateObject setId filters model id
    let (model, newIds) ← propagateObjects setId filters model ids
    some (model, newId :: newIds)

mutual

/-- `oval_set_propagate_filters` on a collective set, `_fp_set_recurse` on an aggregate. -/
def fpSetRecurse (setId : ObjId) (model : OvalDefinitionModel κ σ) :
    OvalSetobject σ → Option (OvalDefinitionModel κ σ × OvalSetobject σ)
  | .collective op objects filters => do
    let (model, newObjects) ← propagateObjects setId filters model objects
    some (model, .collective op newObjects filters)
  | .aggregate op subsets => do
    let (model, newSubsets) ← fpSubsets setId model subsets
    some (model, .aggregate op newSubsets)

/-- The loop of `_fp_set_recurse`. -/
def fpSubsets (setId : ObjId) (model : OvalDefinitionModel κ σ) :
    List (OvalSetobject σ) → Option (OvalDefinitionModel κ σ × List (OvalSetobject σ))
  | [] => some (model, [])
  | set :: sets => do
    let (model, newSet) ← fpSetRecurse setId model set
    let (model, newSets) ← fpSubsets setId model sets
    some (model, newSet :: newSets)

end

end OvalDefinitionModel

/-- The pass leaves a collective set without filters alone, when it is not a subset. -/
def OvalSetobject.propagates {σ : Type} : OvalSetobject σ → Bool
  | .collective _ _ filters => !filters.isEmpty
  | .aggregate _ _ => true

namespace OvalDefinitionModel

variable {κ σ : Type}

/-- One turn of the loop of `oval_definition_model_optimize_by_filter_propagation`. The set is
changed in place. -/
def optimizeObject (model : OvalDefinitionModel κ σ) (id : ObjId) :
    Option (OvalDefinitionModel κ σ) :=
  match model.getObject id with
  | none => some model
  | some obj =>
    match obj.contents with
    | .set set :: _ =>
      if set.propagates then do
        let (model, newSet) ← model.fpSetRecurse id set
        let obj ← model.getObject id
        some (model.putObject (obj.withSet newSet))
      else some model
    | _ => some model

/-- `oval_definition_model_optimize_by_filter_propagation`: the loop is over the objects that
the model has at the start. -/
def optimizeByFilterPropagation (model : OvalDefinitionModel κ σ) :
    Option (OvalDefinitionModel κ σ) :=
  model.objectMap.keys.foldlM optimizeObject model

end OvalDefinitionModel

/-! ### What objects denote -/

section Denotation

variable {κ σ α : Type}

/-- `probe_item_filtered`, for one filter: `truth` is the result of a state on an item. -/
def OvalFilter.Rejects (truth : σ → α → OvalResult) (f : OvalFilter σ) (x : α) : Prop :=
  (truth f.state x = .true ∧ f.action = .exclude) ∨
    (truth f.state x = .false ∧ f.action = .include)

/-- The items of a set that no filter rejects. -/
def restrict (truth : σ → α → OvalResult) (filters : List (OvalFilter σ)) (items : α → Prop)
    (x : α) : Prop :=
  items x ∧ ∀ f ∈ filters, ¬ f.Rejects truth x

/-- The operation of a set on the sets of its operands. -/
def combineItems (op : SetOperation) : List (α → Prop) → α → Prop
  | [] => fun _ => False
  | items :: rest => rest.foldl (fun a b x => setOperation op (a x) (b x)) items

mutual

/-- What a set denotes, when objects denote `den`. -/
def OvalSetobject.denote (truth : σ → α → OvalResult) (den : ObjId → Option (α → Prop)) :
    OvalSetobject σ → Option (α → Prop)
  | .collective op objects filters =>
    (objects.mapM fun id => (den id).map (restrict truth filters)).map (combineItems op)
  | .aggregate op subsets => (denoteSubsets truth den subsets).map (combineItems op)

/-- What the subsets of a set denote. -/
def denoteSubsets (truth : σ → α → OvalResult) (den : ObjId → Option (α → Prop)) :
    List (OvalSetobject σ) → Option (List (α → Prop))
  | [] => some []
  | set :: sets => do
    let items ← set.denote truth den
    let rest ← denoteSubsets truth den sets
    some (items :: rest)

end

namespace OvalDefinitionModel

/-- What an object denotes, when its set objects are nested less than `n` deep. -/
def denote (collects : κ → α → Prop) (truth : σ → α → OvalResult)
    (model : OvalDefinitionModel κ σ) : ℕ → ObjId → Option (α → Prop)
  | 0, _ => none
  | n + 1, id =>
    (model.getObject id).bind fun obj =>
      match obj.contents with
      | .set set :: _ => set.denote truth (model.denote collects truth n)
      | _ => some (restrict truth obj.filters (collects obj.query))

/-- The object denotes the set of items. -/
def Denotes (collects : κ → α → Prop) (truth : σ → α → OvalResult)
    (model : OvalDefinitionModel κ σ) (id : ObjId) (items : α → Prop) : Prop :=
  ∃ n, model.denote collects truth n id = some items

end OvalDefinitionModel

end Denotation

/-! ### Where filters are propagated -/

mutual

/-- The collective sets of a set expression: their objects and their filters. -/
def OvalSetobject.collectives {σ : Type} :
    OvalSetobject σ → List (List ObjId × List (OvalFilter σ))
  | .collective _ objects filters => [(objects, filters)]
  | .aggregate _ subsets => subsetsCollectives subsets

/-- The collective sets of the subsets of a set. -/
def subsetsCollectives {σ : Type} :
    List (OvalSetobject σ) → List (List ObjId × List (OvalFilter σ))
  | [] => []
  | set :: sets => set.collectives ++ subsetsCollectives sets

end

namespace OvalDefinitionModel

variable {κ σ : Type}

/-- The set expression of a set object. -/
def setobjectOf (model : OvalDefinitionModel κ σ) (setId : ObjId) : Option (OvalSetobject σ) :=
  (model.getObject setId).bind fun obj =>
    match obj.contents with
    | .set set :: _ => some set
    | _ => none

/-- A set of the set object refers to the ordinary object, and the pass propagates its filters
to it. -/
structure PropagatesTo (model : OvalDefinitionModel κ σ) (setId id : ObjId)
    (filters : List (OvalFilter σ)) : Prop where
  set : ∃ set, model.setobjectOf setId = some set ∧ set.propagates = true ∧
    ∃ objects, (objects, filters) ∈ set.collectives ∧ id ∈ objects
  ordinary : ∃ obj, model.getObject id = some obj ∧ obj.ordinary = true

/-- Every object that a set refers to is an object of the model: the references are pointers. -/
def Closed (model : OvalDefinitionModel κ σ) : Prop :=
  ∀ setId set, model.setobjectOf setId = some set →
    ∀ c ∈ set.collectives, ∀ id ∈ c.1, (model.getObject id).isSome

/-- The two lists have the same filters. -/
def SameFilters (filters filters' : List (OvalFilter σ)) : Prop :=
  ∀ f, f ∈ filters ↔ f ∈ filters'

/-- **Filter propagation is correct for the model**: the pass succeeds, every object denotes
what it denoted before, whatever is collected for the objects and whatever the states say of
the items, and sets with different filters get different internal objects. -/
def PropagationCorrect (model : OvalDefinitionModel κ σ) : Prop :=
  ∃ model', model.optimizeByFilterPropagation = some model' ∧
    (∀ (α : Type) (collects : κ → α → Prop) (truth : σ → α → OvalResult) (id : ObjId),
      id ∈ model.objectMap → ∀ items,
        model'.Denotes collects truth id items ↔ model.Denotes collects truth id items) ∧
    ∀ setId id filters setId' id' filters', model.PropagatesTo setId id filters →
      model.PropagatesTo setId' id' filters' → ¬ SameFilters filters filters' →
        internalId id setId ≠ internalId id' setId'

/-- The number at the end of an identifier. -/
def idNumber (id : ObjId) : Option ObjId := (strrchr (ascii ':') id).map Prod.snd

/-- The condition: identifiers of internal objects can be made, and are new, and different for
different objects; and sets with different filters do not share both the object and the number
of the set object. -/
structure PropagationSafe (model : OvalDefinitionModel κ σ) : Prop where
  numbered : ∀ {setId id filters}, model.PropagatesTo setId id filters →
    (idNumber setId).isSome
  fresh : ∀ {setId id filters newId}, model.PropagatesTo setId id filters →
    internalId id setId = some newId → newId ∉ model.objectMap
  apart : ∀ {setId id filters setId' id' filters'}, model.PropagatesTo setId id filters →
    model.PropagatesTo setId' id' filters' → internalId id setId = internalId id' setId' →
      id = id'
  sameFilters : ∀ {setId id filters setId' filters'}, model.PropagatesTo setId id filters →
    model.PropagatesTo setId' id filters' → idNumber setId = idNumber setId' →
      SameFilters filters filters'

/-- The pattern for identifiers of objects in the OVAL schemas:
`oval:[A-Za-z0-9_\-\.]+:obj:[1-9][0-9]*`. -/
def IsObjectId (id : ObjId) : Prop :=
  ∃ space number, id = bytes ['o', 'v', 'a', 'l', ':'] ++ space ++
      bytes [':', 'o', 'b', 'j', ':'] ++ number ∧
    space ≠ [] ∧ (∀ c ∈ space, isalnum c ∨ c ∈ bytes ['_', '-', '.']) ∧
    (∃ d ds, number = d :: ds ∧ d ≠ ascii '0') ∧ ∀ c ∈ number, isdigit c

/-- Every object of the model has an identifier of the form the schemas demand. -/
def IdsWellFormed (model : OvalDefinitionModel κ σ) : Prop :=
  ∀ id ∈ model.objectMap, IsObjectId id

end OvalDefinitionModel

/-! ### Replacing the objects of a set -/

section Replaced

variable {κ σ α : Type}

mutual

/-- The second set is the first one with some of its objects replaced; `R` says by what an object
of a collective set with the filters may be replaced. -/
inductive SetReplaced (R : List (OvalFilter σ) → ObjId → ObjId → Prop) :
    OvalSetobject σ → OvalSetobject σ → Prop
  | collective {op objects objects' filters} (h : List.Forall₂ (R filters) objects objects') :
      SetReplaced R (.collective op objects filters) (.collective op objects' filters)
  | aggregate {op subsets subsets'} (h : SubsetsReplaced R subsets subsets') :
      SetReplaced R (.aggregate op subsets) (.aggregate op subsets')

/-- The same for the subsets of a set. -/
inductive SubsetsReplaced (R : List (OvalFilter σ) → ObjId → ObjId → Prop) :
    List (OvalSetobject σ) → List (OvalSetobject σ) → Prop
  | nil : SubsetsReplaced R [] []
  | cons {set set' sets sets'} (h : SetReplaced R set set') (hs : SubsetsReplaced R sets sets') :
      SubsetsReplaced R (set :: sets) (set' :: sets')

end

variable {R R' : List (OvalFilter σ) → ObjId → ObjId → Prop} {truth : σ → α → OvalResult}
  {den den' : ObjId → Option (α → Prop)}

mutual

/-- **A set with replaced objects denotes the same**, when the replacement denotes the same as
the object up to the items that the filters of the set reject. -/
theorem SetReplaced.denote_eq
    (hden : ∀ filters id id', R filters id id' →
      (den id).map (restrict truth filters) = (den' id').map (restrict truth filters)) :
    ∀ {set set' : OvalSetobject σ}, SetReplaced R set set' →
      set.denote truth den = set'.denote truth den'
  | _, _, .collective h => by
      rw [OvalSetobject.denote, OvalSetobject.denote,
        mapM_eq_of_forall₂ (h.imp fun id id' hid => hden _ id id' hid)]
  | _, _, .aggregate h => by
      rw [OvalSetobject.denote, OvalSetobject.denote, SubsetsReplaced.denote_eq hden h]

/-- The same for the subsets of a set. -/
theorem SubsetsReplaced.denote_eq
    (hden : ∀ filters id id', R filters id id' →
      (den id).map (restrict truth filters) = (den' id').map (restrict truth filters)) :
    ∀ {sets sets' : List (OvalSetobject σ)}, SubsetsReplaced R sets sets' →
      denoteSubsets truth den sets = denoteSubsets truth den' sets'
  | _, _, .nil => rfl
  | _, _, .cons h hs => by
      rw [denoteSubsets, denoteSubsets, SetReplaced.denote_eq hden h,
        SubsetsReplaced.denote_eq hden hs]

end

mutual

/-- Weakening the relation. -/
theorem SetReplaced.imp (hR : ∀ filters id id', R filters id id' → R' filters id id') :
    ∀ {set set' : OvalSetobject σ}, SetReplaced R set set' → SetReplaced R' set set'
  | _, _, .collective h => .collective (h.imp fun id id' hid => hR _ id id' hid)
  | _, _, .aggregate h => .aggregate (SubsetsReplaced.imp hR h)

/-- The same for the subsets of a set. -/
theorem SubsetsReplaced.imp (hR : ∀ filters id id', R filters id id' → R' filters id id') :
    ∀ {sets sets' : List (OvalSetobject σ)}, SubsetsReplaced R sets sets' →
      SubsetsReplaced R' sets sets'
  | _, _, .nil => .nil
  | _, _, .cons h hs => .cons (SetReplaced.imp hR h) (SubsetsReplaced.imp hR hs)

end

mutual

/-- A set is itself with every object replaced by itself. -/
theorem SetReplaced.refl : ∀ {set : OvalSetobject σ},
    (∀ c ∈ set.collectives, ∀ id ∈ c.1, R c.2 id id) → SetReplaced R set set
  | .collective op objects filters, h => by
      rw [OvalSetobject.collectives] at h
      exact .collective (List.forall₂_same.mpr (h _ List.mem_cons_self))
  | .aggregate op subsets, h => by
      rw [OvalSetobject.collectives] at h
      exact .aggregate (SubsetsReplaced.refl h)

/-- The same for the subsets of a set. -/
theorem SubsetsReplaced.refl : ∀ {sets : List (OvalSetobject σ)},
    (∀ c ∈ subsetsCollectives sets, ∀ id ∈ c.1, R c.2 id id) → SubsetsReplaced R sets sets
  | [], _ => .nil
  | set :: sets, h => by
      rw [subsetsCollectives] at h
      exact .cons (SetReplaced.refl fun c hc => h c (List.mem_append_left _ hc))
        (SubsetsReplaced.refl fun c hc => h c (List.mem_append_right _ hc))

end

end Replaced

namespace OvalDefinitionModel

variable {κ σ : Type} {model cur cur' : OvalDefinitionModel κ σ}

/-! ### The models on the way -/

/-- An internal object: a copy of an ordinary object of the model, with filters of a set that
the pass propagates to it. -/
def CopyOf (model : OvalDefinitionModel κ σ) (newId : ObjId) (newObj : OvalObject κ σ) : Prop :=
  ∃ setId id filters obj, ∃ added : List (OvalFilter σ), model.PropagatesTo setId id filters ∧
    internalId id setId = some newId ∧ model.getObject id = some obj ∧
    newObj.query = obj.query ∧ newObj.contents = obj.contents ++ added.map .filter ∧
    ∀ f ∈ added, f ∈ filters

/-- What may stand in a set with the filters for one of its objects: the object, or its internal
object. -/
def StandsFor (model cur : OvalDefinitionModel κ σ) (setId : ObjId)
    (filters : List (OvalFilter σ)) (id newId : ObjId) : Prop :=
  (model.getObject id).isSome ∧
    (newId = id ∨ (model.PropagatesTo setId id filters ∧ internalId id setId = some newId ∧
      (cur.getObject newId).isSome))

/-- A model on the way: the objects are as they were, except that sets that are not to be done
yet may have replaced objects; and all other objects are copies. -/
structure Tracks (model cur : OvalDefinitionModel κ σ) (todo : List ObjId) : Prop where
  kept : ∀ {id obj}, model.getObject id = some obj → ∃ obj', cur.getObject id = some obj' ∧
    (obj' = obj ∨ ∃ set set' rest, obj.contents = .set set :: rest ∧
      obj'.contents = .set set' :: rest ∧ SetReplaced (StandsFor model cur id) set set')
  copies : ∀ {newId newObj}, model.getObject newId = none → cur.getObject newId = some newObj →
    model.CopyOf newId newObj
  todo : ∀ id ∈ todo, cur.getObject id = model.getObject id

/-- A step that adds and changes only internal objects. -/
structure Extends (model cur cur' : OvalDefinitionModel κ σ) : Prop where
  old : ∀ id, (model.getObject id).isSome → cur'.getObject id = cur.getObject id
  new : ∀ id, (cur.getObject id).isSome → (cur'.getObject id).isSome
  copies : ∀ {newId newObj}, model.getObject newId = none → cur'.getObject newId = some newObj →
    model.CopyOf newId newObj

/-- Two steps. -/
theorem Extends.trans {cur'' : OvalDefinitionModel κ σ} (h : Extends model cur cur')
    (h' : Extends model cur' cur'') : Extends model cur cur'' where
  old id hid := (h'.old id hid).trans (h.old id hid)
  new id hid := h'.new id (h.new id hid)
  copies := h'.copies

/-- What stands for an object still does so after a step. -/
theorem StandsFor.extend {setId id newId : ObjId} {filters : List (OvalFilter σ)}
    (h : StandsFor model cur setId filters id newId) (hext : Extends model cur cur') :
    StandsFor model cur' setId filters id newId :=
  h.imp_right fun h => h.imp_right fun ⟨huse, hid, hsome⟩ => ⟨huse, hid, hext.new _ hsome⟩

/-- A step that adds and changes only internal objects keeps the invariant. -/
theorem Tracks.extend {todo : List ObjId} (h : Tracks model cur todo)
    (hext : Extends model cur cur') (htodo : ∀ id ∈ todo, id ∈ model.objectMap) :
    Tracks model cur' todo where
  kept := by
    intro id obj hobj
    obtain ⟨obj', hobj', hkept⟩ := h.kept hobj
    refine ⟨obj', (hext.old id (by rw [hobj]; rfl)).trans hobj', hkept.imp_right ?_⟩
    rintro ⟨set, set', rest, hset, hset', hreplaced⟩
    exact ⟨set, set', rest, hset, hset', hreplaced.imp fun _ _ _ hid => hid.extend hext⟩
  copies := hext.copies
  todo id hid := (hext.old id (isSome_getObject.mpr (htodo id hid))).trans (h.todo id hid)

/-- Nothing done yet. -/
theorem Tracks.start (model : OvalDefinitionModel κ σ) (todo : List ObjId) :
    Tracks model model todo where
  kept hobj := ⟨_, hobj, .inl rfl⟩
  copies hnone hsome := by
    rw [hnone] at hsome
    cases hsome
  todo _ _ := rfl

/-- An object is ordinary on the way when it was at the start. -/
theorem Tracks.ordinary {todo : List ObjId} (h : Tracks model cur todo) {id : ObjId}
    {obj : OvalObject κ σ} (hobj : model.getObject id = some obj) :
    (obj.ordinary = true ∧ cur.getObject id = some obj) ∨
      (obj.ordinary = false ∧ ∃ obj', cur.getObject id = some obj' ∧ obj'.ordinary = false) := by
  obtain ⟨obj', hobj', rfl | ⟨set, set', rest, hset, hset', -⟩⟩ := h.kept hobj
  · cases hord : obj'.ordinary with
    | true => exact .inl ⟨rfl, hobj'⟩
    | false => exact .inr ⟨rfl, obj', hobj', hord⟩
  · refine .inr ⟨?_, obj', hobj', ?_⟩
    · rw [OvalObject.ordinary, hset]
    · rw [OvalObject.ordinary, hset']

/-- The filters of two sets that share an internal object are the same. -/
theorem PropagationSafe.shared (hsafe : model.PropagationSafe) {setId id setId' id' newId : ObjId}
    {filters filters' : List (OvalFilter σ)} (huse : model.PropagatesTo setId id filters)
    (huse' : model.PropagatesTo setId' id' filters') (hid : internalId id setId = some newId)
    (hid' : internalId id' setId' = some newId) : id = id' ∧ SameFilters filters filters' := by
  obtain rfl := hsafe.apart huse huse' (hid.trans hid'.symm)
  refine ⟨rfl, hsafe.sameFilters huse huse' ?_⟩
  obtain ⟨parts, hparts, heq⟩ := Option.map_eq_some_iff.mp hid
  obtain ⟨parts', hparts', heq'⟩ := Option.map_eq_some_iff.mp hid'
  have hnumber := List.append_cancel_left (heq.trans heq'.symm)
  rw [idNumber, idNumber, hparts, hparts', Option.map_some, Option.map_some]
  exact congrArg some (List.cons.inj hnumber).2

/-- The identifier of an internal object can be made. -/
theorem PropagationSafe.exists_internalId (hsafe : model.PropagationSafe) {setId id : ObjId}
    {filters : List (OvalFilter σ)} (huse : model.PropagatesTo setId id filters) :
    ∃ newId, internalId id setId = some newId := by
  have hnumbered := hsafe.numbered huse
  rw [idNumber, Option.isSome_map] at hnumbered
  obtain ⟨parts, hparts⟩ := Option.isSome_iff_exists.mp hnumbered
  exact ⟨_, by rw [internalId, hparts]; rfl⟩

/-- **One object of a set.** -/
theorem propagateObject_spec (hsafe : model.PropagationSafe) {todo : List ObjId}
    (h : Tracks model cur todo) {setId id : ObjId} {filters : List (OvalFilter σ)}
    (hid : (model.getObject id).isSome)
    (huse : (∃ obj, model.getObject id = some obj ∧ obj.ordinary = true) →
      model.PropagatesTo setId id filters) :
    ∃ cur' newId, propagateObject setId filters cur id = some (cur', newId) ∧
      Extends model cur cur' ∧ StandsFor model cur' setId filters id newId := by
  obtain ⟨obj, hobj⟩ := Option.isSome_iff_exists.mp hid
  rcases h.ordinary hobj with ⟨hord, hcur⟩ | ⟨-, obj', hcur, hord⟩
  · have hprop := huse ⟨obj, hobj, hord⟩
    have hobjId : obj.id = id := model.id_eq id obj hobj
    obtain ⟨newId, hnewId⟩ := hsafe.exists_internalId hprop
    have hnew : model.getObject newId = none :=
      AList.lookup_eq_none.mpr (hsafe.fresh hprop hnewId)
    -- the copy before the filters are added
    have hclone : ∃ added : List (OvalFilter σ),
        (cur.objectClone2 obj newId).query = obj.query ∧
        (cur.objectClone2 obj newId).contents = obj.contents ++ added.map .filter ∧
        ∀ f ∈ added, f ∈ filters := by
      rw [objectClone2]
      cases hold : cur.getObject newId with
      | none => exact ⟨[], rfl, (List.append_nil _).symm, nofun⟩
      | some newObj =>
          obtain ⟨setId', id', filters', obj', added, hprop', hnewId', hobj', hquery, hcontents,
            hadded⟩ := h.copies hnew hold
          obtain ⟨rfl, hsame⟩ := hsafe.shared hprop hprop' hnewId hnewId'
          obtain rfl := Option.some.inj (hobj.symm.trans hobj')
          exact ⟨added, hquery, hcontents, fun f hf => (hsame f).mpr (hadded f hf)⟩
    obtain ⟨added, hquery, hcontents, hadded⟩ := hclone
    have hself : (cur.putObject (cur.internalObject obj newId filters)).getObject newId =
        some (cur.internalObject obj newId filters) := getObject_putObject_self cur _
    have hother : ∀ k ≠ newId, (cur.putObject (cur.internalObject obj newId filters)).getObject k =
        cur.getObject k := fun k hk => getObject_putObject_of_ne cur hk
    refine ⟨cur.putObject (cur.internalObject obj newId filters), newId, ?_, ⟨?_, ?_, ?_⟩, hid,
      .inr ⟨hprop, hnewId, by rw [hself]; rfl⟩⟩
    · rw [propagateObject, hcur]
      simp only [hord, if_true, hobjId, hnewId]
      rfl
    · intro k hk
      refine hother k fun heq => ?_
      rw [heq, hnew] at hk
      cases hk
    · intro k hk
      rcases eq_or_ne k newId with rfl | hne
      · rw [hself]
        rfl
      · rwa [hother k hne]
    · intro k kObj hk hkObj
      rcases eq_or_ne k newId with rfl | hne
      · obtain rfl := Option.some.inj (hself.symm.trans hkObj)
        refine ⟨setId, id, filters, obj, added ++ filters, hprop, hnewId, hobj, hquery, ?_, ?_⟩
        · rw [internalObject, List.map_append, ← List.append_assoc, ← hcontents]
        · intro f hf
          rcases List.mem_append.mp hf with hf | hf
          · exact hadded f hf
          · exact hf
      · rw [hother k hne] at hkObj
        exact h.copies hk hkObj
  · refine ⟨cur, id, ?_, ⟨fun _ _ => rfl, fun _ hk => hk, h.copies⟩, hid, .inl rfl⟩
    rw [propagateObject, hcur]
    simp only [hord]
    rfl

/-- What the pass needs to know of a collective set: its objects are objects of the model, and
its filters are propagated to the ordinary ones. -/
def Propagating (model : OvalDefinitionModel κ σ) (setId : ObjId)
    (c : List ObjId × List (OvalFilter σ)) : Prop :=
  ∀ id ∈ c.1, (model.getObject id).isSome ∧
    ((∃ obj, model.getObject id = some obj ∧ obj.ordinary = true) →
      model.PropagatesTo setId id c.2)

/-- **The objects of a set.** -/
theorem propagateObjects_spec (hsafe : model.PropagationSafe) {todo : List ObjId}
    (htodo : ∀ id ∈ todo, id ∈ model.objectMap) {setId : ObjId} {filters : List (OvalFilter σ)}
    {ids : List ObjId} (h : Tracks model cur todo) (hids : model.Propagating setId (ids, filters)) :
    ∃ cur' newIds, propagateObjects setId filters cur ids = some (cur', newIds) ∧
      Extends model cur cur' ∧
      List.Forall₂ (StandsFor model cur' setId filters) ids newIds := by
  induction ids generalizing cur with
  | nil =>
      exact ⟨cur, [], rfl, ⟨fun _ _ => rfl, fun _ hk => hk, h.copies⟩, .nil⟩
  | cons id ids ih =>
      obtain ⟨hid, huse⟩ := hids id List.mem_cons_self
      obtain ⟨cur₁, newId, hrun, hext, hstands⟩ := propagateObject_spec hsafe h hid huse
      obtain ⟨cur₂, newIds, hrun', hext', hstands'⟩ := ih (h.extend hext htodo)
        fun id' hid' => hids id' (List.mem_cons_of_mem _ hid')
      refine ⟨cur₂, newId :: newIds, ?_, hext.trans hext', .cons (hstands.extend hext') hstands'⟩
      rw [propagateObjects, hrun]
      change (propagateObjects setId filters cur₁ ids).bind _ = _
      rw [hrun']
      rfl

mutual

/-- **A set expression.** -/
theorem fpSetRecurse_spec (hsafe : model.PropagationSafe) {todo : List ObjId}
    (htodo : ∀ id ∈ todo, id ∈ model.objectMap) {setId : ObjId} :
    ∀ {cur : OvalDefinitionModel κ σ} {set : OvalSetobject σ}, Tracks model cur todo →
      (∀ c ∈ set.collectives, model.Propagating setId c) →
      ∃ cur' set', fpSetRecurse setId cur set = some (cur', set') ∧ Extends model cur cur' ∧
        SetReplaced (StandsFor model cur' setId) set set'
  | cur, .collective op objects filters, h, hset => by
      rw [OvalSetobject.collectives] at hset
      obtain ⟨cur', newObjects, hrun, hext, hstands⟩ :=
        propagateObjects_spec hsafe htodo h (hset _ List.mem_cons_self)
      refine ⟨cur', .collective op newObjects filters, ?_, hext, .collective hstands⟩
      rw [fpSetRecurse, hrun]
      rfl
  | cur, .aggregate op subsets, h, hset => by
      rw [OvalSetobject.collectives] at hset
      obtain ⟨cur', newSubsets, hrun, hext, hreplaced⟩ := fpSubsets_spec hsafe htodo h hset
      refine ⟨cur', .aggregate op newSubsets, ?_, hext, .aggregate hreplaced⟩
      rw [fpSetRecurse, hrun]
      rfl

/-- The subsets of a set. -/
theorem fpSubsets_spec (hsafe : model.PropagationSafe) {todo : List ObjId}
    (htodo : ∀ id ∈ todo, id ∈ model.objectMap) {setId : ObjId} :
    ∀ {cur : OvalDefinitionModel κ σ} {sets : List (OvalSetobject σ)}, Tracks model cur todo →
      (∀ c ∈ subsetsCollectives sets, model.Propagating setId c) →
      ∃ cur' sets', fpSubsets setId cur sets = some (cur', sets') ∧ Extends model cur cur' ∧
        SubsetsReplaced (StandsFor model cur' setId) sets sets'
  | cur, [], h, _ => ⟨cur, [], rfl, ⟨fun _ _ => rfl, fun _ hk => hk, h.copies⟩, .nil⟩
  | cur, set :: sets, h, hsets => by
      rw [subsetsCollectives] at hsets
      obtain ⟨cur₁, set', hrun, hext, hreplaced⟩ :=
        fpSetRecurse_spec hsafe htodo h fun c hc => hsets c (List.mem_append_left _ hc)
      obtain ⟨cur₂, sets', hrun', hext', hreplaced'⟩ :=
        fpSubsets_spec hsafe htodo (h.extend hext htodo) fun c hc =>
          hsets c (List.mem_append_right _ hc)
      refine ⟨cur₂, set' :: sets', ?_, hext.trans hext',
        .cons (hreplaced.imp fun _ _ _ hid => hid.extend hext') hreplaced'⟩
      rw [fpSubsets, hrun]
      change (fpSubsets setId cur₁ sets).bind _ = _
      rw [hrun']
      rfl

end

/-- The sets of the model meet what the pass needs to know. -/
theorem propagating_of_closed (hclosed : model.Closed) {setId : ObjId} {set : OvalSetobject σ}
    (hset : model.setobjectOf setId = some set) (hprop : set.propagates = true) :
    ∀ c ∈ set.collectives, model.Propagating setId c :=
  fun c hc id hid => ⟨hclosed setId set hset c hc id hid,
    fun hord => ⟨⟨set, hset, hprop, c.1, hc, hid⟩, hord⟩⟩

/-- **One object of the model.** -/
theorem optimizeObject_spec (hsafe : model.PropagationSafe) (hclosed : model.Closed) {id : ObjId}
    {todo : List ObjId} (hnotin : id ∉ todo) (hid : id ∈ model.objectMap)
    (htodo : ∀ id ∈ todo, id ∈ model.objectMap) (h : Tracks model cur (id :: todo)) :
    ∃ cur', optimizeObject cur id = some cur' ∧ Tracks model cur' todo := by
  have hsame : Tracks model cur todo :=
    { h with todo := fun k hk => h.todo k (List.mem_cons_of_mem _ hk) }
  obtain ⟨obj, hobj⟩ := Option.isSome_iff_exists.mp (isSome_getObject.mpr hid)
  obtain rfl := model.id_eq id obj hobj
  have hcur : cur.getObject obj.id = some obj := (h.todo obj.id List.mem_cons_self).trans hobj
  rw [optimizeObject, hcur]
  dsimp only
  split
  · rename_i set rest hcontents
    split
    · rename_i hprop
      have hset : model.setobjectOf obj.id = some set := by
        rw [setobjectOf, hobj, Option.bind_some, hcontents]
      have htodo' : ∀ k ∈ obj.id :: todo, k ∈ model.objectMap := fun k hk =>
        (List.mem_cons.mp hk).elim (fun heq => heq ▸ hid) (htodo k)
      obtain ⟨cur₁, newSet, hrun, hext, hreplaced⟩ :=
        fpSetRecurse_spec hsafe htodo' h (propagating_of_closed hclosed hset hprop)
      have h₁ := h.extend hext htodo'
      have hcur₁ : cur₁.getObject obj.id = some obj :=
        (h₁.todo obj.id List.mem_cons_self).trans hobj
      have hself : (cur₁.putObject (obj.withSet newSet)).getObject obj.id =
          some (obj.withSet newSet) := getObject_putObject_self cur₁ (obj.withSet newSet)
      have hother : ∀ k ≠ obj.id, (cur₁.putObject (obj.withSet newSet)).getObject k =
          cur₁.getObject k := fun k hk => getObject_putObject_of_ne cur₁ hk
      have hmono : ∀ k, (cur₁.getObject k).isSome →
          ((cur₁.putObject (obj.withSet newSet)).getObject k).isSome := by
        intro k hk
        rcases eq_or_ne k obj.id with rfl | hne
        · rw [hself]
          rfl
        · rwa [hother k hne]
      have hstands : ∀ {setId filters k newId}, StandsFor model cur₁ setId filters k newId →
          StandsFor model (cur₁.putObject (obj.withSet newSet)) setId filters k newId :=
        fun hk => hk.imp_right fun hk => hk.imp_right fun ⟨huse, hk, hsome⟩ =>
          ⟨huse, hk, hmono _ hsome⟩
      refine ⟨cur₁.putObject (obj.withSet newSet), ?_, ?_, ?_, ?_⟩
      · rw [hrun]
        change (cur₁.getObject obj.id).bind _ = _
        rw [hcur₁]
        rfl
      · intro k kObj hk
        rcases eq_or_ne k obj.id with rfl | hne
        · obtain rfl := Option.some.inj (hobj.symm.trans hk)
          refine ⟨_, hself, .inr ⟨set, newSet, rest, hcontents, ?_, ?_⟩⟩
          · rw [OvalObject.withSet, hcontents, List.tail_cons]
          · exact hreplaced.imp fun _ _ _ => hstands
        · obtain ⟨kObj', hkObj', hkept⟩ := h₁.kept hk
          refine ⟨kObj', (hother k hne).trans hkObj', hkept.imp_right ?_⟩
          rintro ⟨kSet, kSet', kRest, hkSet, hkSet', hkReplaced⟩
          exact ⟨kSet, kSet', kRest, hkSet, hkSet', hkReplaced.imp fun _ _ _ => hstands⟩
      · intro k kObj hk hkObj
        rcases eq_or_ne k obj.id with rfl | hne
        · cases hobj.symm.trans hk
        · exact h₁.copies hk ((hother k hne).symm.trans hkObj)
      · intro k hk
        have hne : k ≠ obj.id := fun heq => hnotin (heq ▸ hk)
        exact (hother k hne).trans (h₁.todo k (List.mem_cons_of_mem _ hk))
    · exact ⟨cur, rfl, hsame⟩
  · exact ⟨cur, rfl, hsame⟩

/-- **The pass.** -/
theorem optimize_spec (hsafe : model.PropagationSafe) (hclosed : model.Closed) :
    ∃ model', model.optimizeByFilterPropagation = some model' ∧ Tracks model model' [] := by
  have hloop : ∀ (ids : List ObjId) (cur : OvalDefinitionModel κ σ), ids.Nodup →
      (∀ id ∈ ids, id ∈ model.objectMap) → Tracks model cur ids →
      ∃ model', ids.foldlM optimizeObject cur = some model' ∧ Tracks model model' [] := by
    intro ids
    induction ids with
    | nil => exact fun cur _ _ h => ⟨cur, rfl, h⟩
    | cons id ids ih =>
        intro cur hnodup hids h
        obtain ⟨hnotin, hnodup⟩ := List.nodup_cons.mp hnodup
        obtain ⟨hid, hids⟩ := List.forall_mem_cons.mp hids
        obtain ⟨cur', hrun, h'⟩ := optimizeObject_spec hsafe hclosed hnotin hid hids h
        obtain ⟨model', hrun', h''⟩ := ih cur' hnodup hids h'
        exact ⟨model', by rw [List.foldlM_cons, hrun]; exact hrun', h''⟩
  exact hloop _ model model.objectMap.keys_nodup (fun id => AList.mem_keys.mpr)
    (Tracks.start model _)

/-! ### The meaning of the models on the way -/

section Meaning

variable {α : Type} (collects : κ → α → Prop) (truth : σ → α → OvalResult)

/-- What an ordinary object denotes. -/
theorem denote_ordinary {n : ℕ} {id : ObjId} {obj : OvalObject κ σ}
    (hobj : model.getObject id = some obj) (hord : obj.ordinary = true) :
    model.denote collects truth (n + 1) id =
      some (restrict truth obj.filters (collects obj.query)) := by
  rw [denote, hobj, Option.bind_some]
  split
  · rename_i set rest hcontents
    rw [OvalObject.ordinary, hcontents] at hord
    cases hord
  · rfl

/-- **A copy denotes, in a set with its filters, what the object denotes there.** -/
theorem restrict_copy {n : ℕ} {setId id newId : ObjId} {filters : List (OvalFilter σ)}
    {newObj : OvalObject κ σ} (hsafe : model.PropagationSafe)
    (huse : model.PropagatesTo setId id filters) (hid : internalId id setId = some newId)
    (hcopy : model.CopyOf newId newObj) (hnew : cur.getObject newId = some newObj) :
    (model.denote collects truth n id).map (restrict truth filters) =
      (cur.denote collects truth n newId).map (restrict truth filters) := by
  obtain ⟨setId', id', filters', obj, added, huse', hid', hobj, hquery, hcontents, hadded⟩ := hcopy
  obtain ⟨rfl, hsame⟩ := hsafe.shared huse huse' hid hid'
  cases n with
  | zero => rfl
  | succ n =>
      obtain ⟨obj', hobj', hord⟩ := huse.ordinary
      obtain rfl := Option.some.inj (hobj.symm.trans hobj')
      have hord' : newObj.ordinary = true := by
        rw [OvalObject.ordinary] at hord ⊢
        rw [hcontents]
        cases hc : obj.contents with
        | nil =>
            rw [hc] at hord
            cases hord
        | cons c cs =>
            rw [hc] at hord
            cases c with
            | set set => cases hord
            | entity => rfl
            | filter f => rfl
      have hfilters : newObj.filters = obj.filters ++ added := by
        rw [OvalObject.filters, hcontents, List.filterMap_append, List.filterMap_map]
        congr 1
        exact List.filterMap_some
      rw [denote_ordinary collects truth hobj hord, denote_ordinary collects truth hnew hord',
        hquery, hfilters, Option.map_some, Option.map_some]
      refine congrArg some (funext fun x => propext ?_)
      constructor
      · rintro ⟨⟨hx, hown⟩, hpass⟩
        refine ⟨⟨hx, fun f hf => ?_⟩, hpass⟩
        rcases List.mem_append.mp hf with hf | hf
        · exact hown f hf
        · exact hpass f ((hsame f).mpr (hadded f hf))
      · rintro ⟨⟨hx, hown⟩, hpass⟩
        exact ⟨⟨hx, fun f hf => hown f (List.mem_append_left _ hf)⟩, hpass⟩

/-- **Every object denotes on the way what it denoted at the start.** -/
theorem Tracks.denote_eq (hsafe : model.PropagationSafe) (hclosed : model.Closed)
    (h : Tracks model cur []) {n : ℕ} {id : ObjId} (hid : (model.getObject id).isSome) :
    cur.denote collects truth n id = model.denote collects truth n id := by
  induction n generalizing id with
  | zero => rfl
  | succ n ih =>
      obtain ⟨obj, hobj⟩ := Option.isSome_iff_exists.mp hid
      -- a set denotes the same when objects are replaced by what stands for them
      have hset : ∀ {set set' : OvalSetobject σ}, SetReplaced (StandsFor model cur id) set set' →
          set.denote truth (model.denote collects truth n) =
            set'.denote truth (cur.denote collects truth n) := by
        refine fun hreplaced => hreplaced.denote_eq ?_
        rintro filters k newId ⟨hk, rfl | ⟨huse, hnewId, hsome⟩⟩
        · rw [ih hk]
        · obtain ⟨newObj, hnew⟩ := Option.isSome_iff_exists.mp hsome
          have hcopy := h.copies (AList.lookup_eq_none.mpr (hsafe.fresh huse hnewId)) hnew
          exact restrict_copy collects truth hsafe huse hnewId hcopy hnew
      obtain ⟨obj', hobj', rfl | ⟨set, set', rest, hcontents, hcontents', hreplaced⟩⟩ :=
        h.kept hobj
      · rw [denote, denote, hobj, hobj', Option.bind_some, Option.bind_some]
        split
        · rename_i set rest hcontents
          refine (hset (SetReplaced.refl fun c hc k hk => ⟨?_, .inl rfl⟩)).symm
          have hsetobject : model.setobjectOf id = some set := by
            rw [setobjectOf, hobj, Option.bind_some, hcontents]
          exact hclosed id set hsetobject c hc k hk
        · rfl
      · rw [denote, denote, hobj, hobj', Option.bind_some, Option.bind_some, hcontents, hcontents']
        exact (hset hreplaced).symm

end Meaning

/-- **The condition is enough.** -/
theorem propagationCorrect_of_safe (hclosed : model.Closed) (hsafe : model.PropagationSafe) :
    model.PropagationCorrect := by
  obtain ⟨model', hrun, h⟩ := optimize_spec hsafe hclosed
  refine ⟨model', hrun, ?_, ?_⟩
  · intro α collects truth id hid items
    have heq := fun n => h.denote_eq collects truth hsafe hclosed (n := n)
      (isSome_getObject.mpr hid)
    exact exists_congr fun n => by rw [heq n]
  · intro setId id filters setId' id' filters' huse huse' hdiff heq
    obtain ⟨newId, hnewId⟩ := hsafe.exists_internalId huse
    exact hdiff (hsafe.shared huse huse' hnewId (heq ▸ hnewId)).2

/-! ### Identifiers of the form that the schemas demand -/

/-- The last part of an identifier is a number. -/
theorem IsObjectId.parts {id : ObjId} (h : IsObjectId id) : ∃ before number,
    id = before ++ ascii ':' :: number ∧ (∀ c ∈ number, isdigit c) ∧
      strrchr (ascii ':') id = some (before, number) := by
  obtain ⟨space, number, rfl, -, -, -, hdigits⟩ := h
  have hcolon : ascii ':' ∉ number := fun hmem => by
    have hfalse := hdigits _ hmem
    revert hfalse
    decide
  have hsplit : bytes ['o', 'v', 'a', 'l', ':'] ++ space ++ bytes [':', 'o', 'b', 'j', ':'] ++
      number = (bytes ['o', 'v', 'a', 'l', ':'] ++ space ++ bytes [':', 'o', 'b', 'j']) ++
        ascii ':' :: number := by
    rw [show bytes [':', 'o', 'b', 'j', ':'] = bytes [':', 'o', 'b', 'j'] ++ [ascii ':'] from rfl]
    simp only [List.append_assoc, List.singleton_append]
  exact ⟨_, number, hsplit, hdigits, by rw [hsplit, strrchr_append _ hcolon]⟩

/-- The letter of the internal identifiers is no digit. -/
theorem not_isdigit_i : ¬ isdigit (ascii 'i') := by decide

/-- The set object of a use is an object of the model. -/
theorem PropagatesTo.mem_setId {setId id : ObjId} {filters : List (OvalFilter σ)}
    (huse : model.PropagatesTo setId id filters) : setId ∈ model.objectMap := by
  obtain ⟨set, hset, -⟩ := huse.set
  obtain ⟨obj, hobj, -⟩ := Option.bind_eq_some_iff.mp hset
  exact isSome_getObject.mp (by rw [hobj]; rfl)

/-- The object of a use is an object of the model. -/
theorem PropagatesTo.mem_id {setId id : ObjId} {filters : List (OvalFilter σ)}
    (huse : model.PropagatesTo setId id filters) : id ∈ model.objectMap := by
  obtain ⟨obj, hobj, -⟩ := huse.ordinary
  exact isSome_getObject.mp (by rw [hobj]; rfl)

/-- The identifier of an internal object, when identifiers are well-formed. -/
theorem internalId_eq (hids : model.IdsWellFormed) {setId id newId : ObjId}
    {filters : List (OvalFilter σ)} (huse : model.PropagatesTo setId id filters)
    (hid : internalId id setId = some newId) : ∃ number, idNumber setId = some number ∧
      (∀ c ∈ number, isdigit c) ∧ newId = id ++ ascii 'i' :: number := by
  obtain ⟨before, number, -, hdigits, hsplit⟩ := (hids setId huse.mem_setId).parts
  rw [internalId, hsplit] at hid
  exact ⟨number, by rw [idNumber, hsplit]; rfl, hdigits, (Option.some.inj hid).symm⟩

/-- **The condition is necessary** when the identifiers are well-formed. -/
theorem safe_of_propagationCorrect (hids : model.IdsWellFormed) (h : model.PropagationCorrect) :
    model.PropagationSafe := by
  obtain ⟨-, -, -, hdistinct⟩ := h
  refine ⟨?_, ?_, ?_, ?_⟩
  · intro setId id filters huse
    obtain ⟨before, number, -, -, hsplit⟩ := (hids setId huse.mem_setId).parts
    rw [idNumber, hsplit]
    rfl
  · intro setId id filters newId huse hnewId hmem
    obtain ⟨number, -, hdigits, rfl⟩ := internalId_eq hids huse hnewId
    obtain ⟨before, last, rfl, hlast, -⟩ := (hids id huse.mem_id).parts
    obtain ⟨before', last', -, hlast', hsplit⟩ := (hids _ hmem).parts
    -- the part after the last colon would be a number with the letter in it
    have hcolon : ascii ':' ∉ last ++ ascii 'i' :: number := by
      intro hc
      have hcolonDigit : ¬ isdigit (ascii ':') := by decide
      rcases List.mem_append.mp hc with hc | hc
      · exact hcolonDigit (hlast _ hc)
      · rcases List.mem_cons.mp hc with hc | hc
        · revert hc
          decide
        · exact hcolonDigit (hdigits _ hc)
    rw [List.append_assoc, List.cons_append, strrchr_append _ hcolon] at hsplit
    obtain ⟨-, rfl⟩ := Prod.mk.inj (Option.some.inj hsplit)
    exact not_isdigit_i (hlast' _ (List.mem_append_right _ List.mem_cons_self))
  · intro setId id filters setId' id' filters' huse huse' heq
    obtain ⟨before, number, -, hdigits, hsplit⟩ := (hids setId huse.mem_setId).parts
    have hid : internalId id setId = some (id ++ ascii 'i' :: number) := by
      rw [internalId, hsplit]
      rfl
    obtain ⟨number', -, hdigits', hsame⟩ := internalId_eq hids huse' (heq.symm.trans hid)
    have hparts := strrchr_append id fun hmem => not_isdigit_i (hdigits _ hmem)
    rw [hsame, strrchr_append id' fun hmem => not_isdigit_i (hdigits' _ hmem)] at hparts
    exact (Prod.mk.inj (Option.some.inj hparts)).1.symm
  · intro setId id filters setId' filters' huse huse' hnumber
    by_contra hdiff
    refine hdistinct setId id filters setId' id filters' huse huse' hdiff ?_
    rw [idNumber, idNumber] at hnumber
    have hmap := congrArg (Option.map fun number => id ++ ascii 'i' :: number) hnumber
    rwa [Option.map_map, Option.map_map] at hmap

end OvalDefinitionModel

open FilterPropagation.OvalDefinitionModel

/-! ### The pass over every model -/

/-- **Filter propagation.** The condition is enough for the pass to be correct, and in models
whose identifiers have the form that the schemas demand it is also necessary. -/
theorem propagationCorrect_iff {κ σ : Type} (model : OvalDefinitionModel κ σ)
    (hclosed : model.Closed) : (model.PropagationSafe → model.PropagationCorrect) ∧
      (model.IdsWellFormed → (model.PropagationCorrect ↔ model.PropagationSafe)) :=
  ⟨propagationCorrect_of_safe hclosed, fun hids =>
    ⟨safe_of_propagationCorrect hids, propagationCorrect_of_safe hclosed⟩⟩

/-- An object without comment and notes. -/
def plainObject (id : ObjId) (contents : List (ObjectContent ℕ)) : OvalObject ObjId ℕ where
  id := id
  comment := none
  deprecated := false
  version := 1
  notes := []
  query := id
  contents := contents
  baseObjRef := none

/-- The identifier of an ordinary object. -/
def fileId : ObjId := bytes ['o', 'v', 'a', 'l', ':', 'x', ':', 'o', 'b', 'j', ':', '1']

/-- The identifier of a set object. -/
def setId : ObjId := bytes ['o', 'v', 'a', 'l', ':', 'x', ':', 'o', 'b', 'j', ':', '2']

/-- A set object with a filter on an ordinary object. -/
def singleSetModel : OvalDefinitionModel ObjId ℕ :=
  ofObjects [plainObject fileId [.entity],
    plainObject setId [.set (.collective .union [fileId] [⟨0, .exclude⟩])]]

/-- The only set of the model. -/
theorem setobjectOf_singleSetModel {id : ObjId} {set : OvalSetobject ℕ}
    (h : singleSetModel.setobjectOf id = some set) :
    id = setId ∧ set = .collective .union [fileId] [⟨0, .exclude⟩] := by
  rw [setobjectOf, singleSetModel, ofObjects, List.foldl_cons, List.foldl_cons, List.foldl_nil,
    getObject_putObject, getObject_putObject] at h
  split at h
  · rename_i heq
    exact ⟨heq, (Option.some.inj h).symm⟩
  · split at h <;> cases h

/-- The only use of a filter in the model. -/
theorem uses_singleSetModel {id id' : ObjId} {filters : List (OvalFilter ℕ)}
    (h : singleSetModel.PropagatesTo id id' filters) :
    id = setId ∧ id' = fileId ∧ filters = [⟨0, .exclude⟩] := by
  obtain ⟨set, hset, -, objects, hc, hmem⟩ := h.set
  obtain ⟨rfl, rfl⟩ := setobjectOf_singleSetModel hset
  rw [OvalSetobject.collectives] at hc
  obtain ⟨rfl, rfl⟩ := Prod.mk.inj (List.mem_singleton.mp hc)
  exact ⟨rfl, List.mem_singleton.mp hmem, rfl⟩

/-- The filter of the single set is propagated. -/
theorem propagationCorrect_singleSetModel : singleSetModel.PropagationCorrect := by
  have hclosed : singleSetModel.Closed := by
    intro id set hset c hc id' hid'
    obtain ⟨rfl, rfl⟩ := setobjectOf_singleSetModel hset
    rw [OvalSetobject.collectives] at hc
    obtain rfl := List.mem_singleton.mp hc
    obtain rfl := List.mem_singleton.mp hid'
    decide +kernel
  refine (propagationCorrect_iff singleSetModel hclosed).1 ⟨?_, ?_, ?_, ?_⟩
  · intro id id' filters huse
    obtain ⟨rfl, -, -⟩ := uses_singleSetModel huse
    decide +kernel
  · intro id id' filters newId huse hnewId
    obtain ⟨rfl, rfl, -⟩ := uses_singleSetModel huse
    obtain rfl := Option.some.inj hnewId
    decide +kernel
  · intro id id' filters id₂ id₂' filters' huse huse' _
    rw [(uses_singleSetModel huse).2.1, (uses_singleSetModel huse').2.1]
  · intro id id' filters id₂ filters' huse huse' _ f
    rw [(uses_singleSetModel huse).2.2, (uses_singleSetModel huse').2.2]

/-- A set object that is the union of two subsets, which filter the same object differently. -/
def sharedObjectModel : OvalDefinitionModel ObjId ℕ :=
  ofObjects [plainObject fileId [.entity],
    plainObject setId [.set (.aggregate .union
      [.collective .union [fileId] [⟨0, .exclude⟩], .collective .union [fileId] [⟨1, .exclude⟩]])]]

/-- The identifier of the copy that the two subsets share. -/
def sharedId : ObjId := fileId ++ [ascii 'i', ascii '2']

/-- **The pass is not correct for every model.** An item that only the first of two filters
rejects is in the union before the pass, but the copy that both subsets share has both
filters. -/
theorem not_propagationCorrect :
    ¬ ∀ model : OvalDefinitionModel ObjId ℕ, model.Closed → model.PropagationCorrect := by
  intro hall
  have hclosed : sharedObjectModel.Closed := by
    intro id set hset c hc id' hid'
    rw [setobjectOf, sharedObjectModel, ofObjects, List.foldl_cons, List.foldl_cons,
      List.foldl_nil, getObject_putObject, getObject_putObject] at hset
    split at hset
    · obtain rfl := Option.some.inj hset
      have hid : id' = fileId := by
        simp only [OvalSetobject.collectives, subsetsCollectives, List.append_nil,
          List.cons_append, List.nil_append, List.mem_cons, List.not_mem_nil, or_false] at hc
        rcases hc with rfl | rfl <;> exact List.mem_singleton.mp hid'
      rw [hid]
      decide +kernel
    · split at hset <;> cases hset
  obtain ⟨model', hrun, hden, -⟩ := hall sharedObjectModel hclosed
  have hset : (sharedObjectModel.optimizeByFilterPropagation.bind fun m =>
      m.setobjectOf setId) = some (.aggregate .union
        [.collective .union [sharedId] [⟨0, .exclude⟩],
          .collective .union [sharedId] [⟨1, .exclude⟩]]) := by
    rfl
  have hcopy : (sharedObjectModel.optimizeByFilterPropagation.bind fun m =>
      (m.getObject sharedId).map OvalObject.contents) =
        some [.entity, .filter ⟨0, .exclude⟩, .filter ⟨1, .exclude⟩] := by
    rfl
  rw [hrun, Option.bind_some] at hset hcopy
  -- the item matches the first state, and not the second
  have hbefore : ∃ items, sharedObjectModel.Denotes (fun _ _ => True)
      (fun state (_ : Unit) => if state = 0 then .true else .false) setId items ∧ items () := by
    refine ⟨_, ⟨2, rfl⟩, .inr ⟨⟨trivial, nofun⟩, fun f hf => ?_⟩⟩
    obtain rfl := List.mem_singleton.mp hf
    rintro (⟨h, -⟩ | ⟨-, h⟩) <;> cases h
  obtain ⟨items, hitems, hmem⟩ := hbefore
  obtain ⟨n, hn⟩ := (hden Unit (fun _ _ => True) _ setId (by decide +kernel) items).mpr hitems
  obtain ⟨setObj, hsetObj, hsetContents⟩ := Option.bind_eq_some_iff.mp hset
  obtain ⟨copy, hcopyObj, hcopyContents⟩ := Option.map_eq_some_iff.mp hcopy
  have hcontents : ∃ rest, setObj.contents = .set (.aggregate .union
      [.collective .union [sharedId] [⟨0, .exclude⟩],
        .collective .union [sharedId] [⟨1, .exclude⟩]]) :: rest := by
    split at hsetContents
    · rename_i set rest heq
      rw [Option.some.inj hsetContents] at heq
      exact ⟨rest, heq⟩
    · cases hsetContents
  obtain ⟨rest, hcontents⟩ := hcontents
  match n, hn with
  | 1, hn =>
      rw [denote, hsetObj, Option.bind_some, hcontents] at hn
      cases hn
  | n + 2, hn =>
      have hord : copy.ordinary = true := by rw [OvalObject.ordinary, hcopyContents]
      have hfilters : copy.filters = [⟨0, .exclude⟩, ⟨1, .exclude⟩] := by
        rw [OvalObject.filters, hcopyContents]
        rfl
      rw [denote, hsetObj, Option.bind_some, hcontents] at hn
      simp only [OvalSetobject.denote, denoteSubsets, List.mapM_cons, List.mapM_nil,
        denote_ordinary _ _ hcopyObj hord, hfilters] at hn
      obtain rfl := Option.some.inj hn
      rcases hmem with ⟨⟨-, hpass⟩, -⟩ | ⟨⟨-, hpass⟩, -⟩
      · exact hpass ⟨0, .exclude⟩ List.mem_cons_self (.inl ⟨rfl, rfl⟩)
      · exact hpass ⟨0, .exclude⟩ List.mem_cons_self (.inl ⟨rfl, rfl⟩)

end OpenScap.FilterPropagation
