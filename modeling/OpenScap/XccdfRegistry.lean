import Mathlib.Data.List.Range
import OpenScap.ChainedTable
import OpenScap.GuardedRun
import OpenScap.PointerForest

/-!
# The registry of the items of an XCCDF benchmark

The items of a benchmark form a tree of child lists and parent pointers. Next to it the
benchmark keeps the dictionary `items_dict` from ids to items and, in `clusters_dict`, a
dictionary for each cluster id from the ids of its items to the items. Adding an item to a
parent registers it with all that lies below it, `set_id` enters it anew, and freeing it takes
it out with all that lies below it.

An entry of a cluster dictionary is taken out under the id of the cluster, not of the item, a
renamed item is entered in its cluster under the old id, the outcome of registering what lies
below an item is ignored, and adding to a parent outside a benchmark does nothing and succeeds.

## Main results

* `registry_correct` — when no step runs into one of these, tree and dictionaries agree in
  every state that is reached, and items that are added hang from their parent.
* `not_hangs_outside` — adding a root to a parent outside the benchmark succeeds and leaves it a
  root.
-/

open PointerForest

namespace OpenScap.XccdfRegistry

/-! ### Items and dictionaries -/

/-- The types of the items in the tree. -/
inductive XccdfType
  | benchmark | group | rule | value
  deriving DecidableEq

/-- The fields of an item that the registry reads: `content` and `values` are the lists of a
group or a benchmark. -/
structure XccdfItem where
  type : XccdfType
  id : Option String
  clusterId : Option String
  parent : Option ℕ
  content : List ℕ
  values : List ℕ
  deriving DecidableEq

/-- The cluster of an item. No cluster id counts as the empty one. -/
def XccdfItem.cluster (item : XccdfItem) : String := item.clusterId.getD ""

/-- The children of an item. -/
def XccdfItem.children (item : XccdfItem) : List ℕ :=
  match item.type with
  | .benchmark | .group => item.content ++ item.values
  | .rule | .value => []

/-- The items by their addresses. -/
abbrev Heap := ℕ → Option XccdfItem

/-- The children of the item at an address. -/
def kids (heap : Heap) (x : ℕ) : List ℕ := ((heap x).map XccdfItem.children).getD []

/-- The parent of the item at an address. -/
def up (heap : Heap) (x : ℕ) : Option ℕ := (heap x).bind XccdfItem.parent

/-- The id of the item at an address. -/
def idOf (heap : Heap) (x : ℕ) : Option String := (heap x).bind XccdfItem.id

/-- The cluster of the item at an address. -/
def clusterOf (heap : Heap) (x : ℕ) : String := ((heap x).map XccdfItem.cluster).getD ""

/-- `OSCAP_DEFAULT_HSIZE`. -/
def defaultHsize : ℕ := 389

/-- `oscap_htable_hash` with the default size. -/
def oscapHtableHash (str : String) : ℕ :=
  str.toUTF8.toList.foldl (fun h p => (97 * h + p.toNat) % 2 ^ 32) 0 % defaultHsize

/-- The hash tables of items by id. -/
abbrev ItemTable := ChainedTable String ℕ oscapHtableHash

/-- The dictionaries of a benchmark. `clusters` has the tables that `clusters_dict` refers
to. -/
structure Dicts where
  items : ItemTable
  clusters : String → Option ItemTable

/-- The entry of an id in the table of a cluster. -/
def Dicts.inCluster (dicts : Dicts) (cluster id : String) : Option ℕ :=
  (dicts.clusters cluster).bind fun table => table.lookup id

/-- The program: the items, the first address that is not used yet, the benchmark and its
dictionaries. -/
structure State where
  heap : Heap
  next : ℕ
  benchmark : ℕ
  dicts : Dicts

/-- `xccdf_item_get_benchmark`. -/
def xccdfItemGetBenchmark (heap : Heap) (next x : ℕ) : Option ℕ :=
  (topmost (up heap) (next + 1) x).filter fun root =>
    (heap root).any fun item => item.type = .benchmark

/-! ### Registration -/

/-- `_register_item_to_cluster` for an item with this id. -/
def registerItemToCluster (dicts : Dicts) (x : ℕ) (id : String) (item : XccdfItem) :
    Dicts × Bool :=
  if item.cluster = "" then (dicts, true)
  else
    let (table, added) := ((dicts.clusters item.cluster).getD ChainedTable.empty).add id x
    ({ dicts with clusters := Function.update dicts.clusters item.cluster (some table) }, added)

/-- The end of `xccdf_benchmark_register_item`. -/
def enter (dicts : Dicts) (x : ℕ) (id : String) (item : XccdfItem) : Dicts × Bool :=
  let (table, added) := dicts.items.add id x
  if added then registerItemToCluster { dicts with items := table } x id item
  else ({ dicts with items := table }, false)

/-- `xccdf_benchmark_register_item`, with recursive calls at most `fuel` deep. -/
def xccdfBenchmarkRegisterItem (heap : Heap) : ℕ → Dicts → ℕ → Dicts × Bool
  | 0, dicts, _ => (dicts, false)
  | fuel + 1, dicts, x =>
      match heap x with
      | none => (dicts, false)
      | some item =>
          match item.id with
          | none => (dicts, false)
          | some id =>
              match dicts.items.lookup id with
              | some found => (dicts, found = x)
              | none =>
                  let dicts :=
                    if item.type = .group then
                      (item.content ++ item.values).foldl
                        (fun dicts y => (xccdfBenchmarkRegisterItem heap fuel dicts y).1) dicts
                    else dicts
                  enter dicts x id item

/-- `_unregister_item_from_cluster`. The key is the id of the cluster. -/
def unregisterItemFromCluster (dicts : Dicts) (item : XccdfItem) : Dicts × Bool :=
  if item.cluster = "" then (dicts, true)
  else
    match dicts.clusters item.cluster with
    | none => (dicts, false)
    | some table =>
        let clusters :=
          Function.update dicts.clusters item.cluster (some (table.detach item.cluster))
        ({ dicts with clusters := clusters }, (table.lookup item.cluster).isSome)

/-- What `xccdf_benchmark_unregister_item` does to the dictionaries of the benchmark. -/
def leave (dicts : Dicts) (item : XccdfItem) : Dicts × Bool :=
  match item.id with
  | none => (dicts, false)
  | some id =>
      if (dicts.items.lookup id).isSome then
        unregisterItemFromCluster { dicts with items := dicts.items.detach id } item
      else (dicts, false)

/-- `xccdf_benchmark_unregister_item`. -/
def xccdfBenchmarkUnregisterItem (s : State) (x : ℕ) : Dicts × Bool :=
  match s.heap x, xccdfItemGetBenchmark s.heap s.next x with
  | some item, some _ => leave s.dicts item
  | _, _ => (s.dicts, false)

/-! ### The operations -/

/-- The number in the format `%03d`. -/
def threeDigits (i : ℕ) : List Char :=
  let digits := (toString i).toList
  List.replicate (3 - digits.length) '0' ++ digits

/-- The stem of the generated ids of a type. -/
def XccdfType.stem : XccdfType → String
  | .group => "group-"
  | .value => "value-"
  | .rule | .benchmark => "rule-"

/-- `xccdf_benchmark_gen_id`. The buffer has room for three digits, and the loop ends when the
number has five. -/
def xccdfBenchmarkGenId (dicts : Dicts) (stem : String) : Option String :=
  (List.range 9999).findSome? fun i =>
    let buff := String.ofList ((stem.toList ++ threeDigits (i + 1)).take (stem.length + 3))
    if (dicts.items.lookup buff).isNone then some buff else none

/-- The items after an item without id is given one. -/
def withId (s : State) (x : ℕ) : Heap :=
  match s.heap x with
  | some item =>
      match item.id with
      | none =>
          Function.update s.heap x
            (some { item with id := xccdfBenchmarkGenId s.dicts item.type.stem })
      | some _ => s.heap
  | none => s.heap

/-- The parent with an item at the end of the list for its type. -/
def XccdfItem.addMember (parent : XccdfItem) (type : XccdfType) (x : ℕ) : XccdfItem :=
  match type with
  | .value => { parent with values := parent.values ++ [x] }
  | _ => { parent with content := parent.content ++ [x] }

/-- Set the parent of an item and add the item to the list of the parent. -/
def link (heap : Heap) (p x : ℕ) : Heap :=
  let heap := Function.update heap x ((heap x).map fun item => { item with parent := some p })
  Function.update heap p
    ((heap p).map fun parent => parent.addMember (((heap x).map XccdfItem.type).getD .rule) x)

/-- `xccdf_add_item` to the list of a benchmark or group for the type of the item. -/
def xccdfAddItem (s : State) (p x : ℕ) : State × Bool :=
  match xccdfItemGetBenchmark s.heap s.next p with
  | none => (s, true)
  | some _ =>
      let heap := withId s x
      let (dicts, registered) := xccdfBenchmarkRegisterItem heap (s.next + 1) s.dicts x
      if registered then ({ s with heap := link heap p x, dicts := dicts }, true)
      else ({ s with heap := heap, dicts := dicts }, false)

/-- Replace the id of an item. -/
def replaceId (heap : Heap) (x : ℕ) (newid : Option String) : Heap :=
  Function.update heap x ((heap x).map fun item => { item with id := newid })

/-- `xccdf_benchmark_rename_item`, called by `set_id`. There is no next state when the program
ends with an entry of a cluster dictionary for a null id. -/
def xccdfBenchmarkRenameItem (s : State) (x : ℕ) (newid : Option String) :
    Option (State × Bool) :=
  match s.heap x, xccdfItemGetBenchmark s.heap s.next x with
  | some item, some _ =>
      if newid.any fun id => (s.dicts.items.lookup id).isSome then some (s, false)
      else
        let dicts :=
          if item.id.isSome then (xccdfBenchmarkUnregisterItem s x).1 else s.dicts
        match newid with
        | none => some ({ s with heap := replaceId s.heap x none, dicts := dicts }, true)
        | some id =>
            let dicts := { dicts with items := (dicts.items.add id x).1 }
            match item.id with
            | none =>
                if item.cluster = "" then
                  some ({ s with heap := replaceId s.heap x newid, dicts := dicts }, true)
                else none
            | some oldid =>
                let dicts := (registerItemToCluster dicts x oldid item).1
                some ({ s with heap := replaceId s.heap x newid, dicts := dicts }, true)
  | _, _ => some ({ s with heap := replaceId s.heap x newid }, true)

/-- `xccdf_item_release`. -/
def xccdfItemRelease (s : State) (x : ℕ) : State :=
  { s with
    heap := Function.update s.heap x none
    dicts := (xccdfBenchmarkUnregisterItem s x).1 }

/-- `xccdf_item_free` of a group, rule or value, with recursive calls at most `fuel` deep. -/
def xccdfItemFree : ℕ → State → ℕ → State
  | 0, s, _ => s
  | fuel + 1, s, x =>
      match s.heap x with
      | none => s
      | some item =>
          match item.type with
          | .group =>
              xccdfItemRelease ((item.content ++ item.values).foldl (xccdfItemFree fuel) s) x
          | .rule | .value => xccdfItemRelease s x
          | .benchmark => s

/-- The parent without an item in its lists. -/
def XccdfItem.detachMember (parent : XccdfItem) (x : ℕ) : XccdfItem :=
  { parent with content := parent.content.erase x, values := parent.values.erase x }

/-- The items after `oscap_iterator_detach` takes one out of the list of its parent. -/
def detached (heap : Heap) (x : ℕ) : Heap :=
  match up heap x with
  | none => heap
  | some p => Function.update heap p ((heap p).map fun parent => parent.detachMember x)

/-- Remove an item: `iterator_remove` takes it out of the list of its parent and frees it. -/
def xccdfItemRemove (s : State) (x : ℕ) : State :=
  xccdfItemFree (s.next + 1) { s with heap := detached s.heap x } x

/-- The calls of the program. -/
inductive Op
  | new (type : XccdfType) (id clusterId : Option String)
  | add (p x : ℕ)
  | setId (x : ℕ) (newid : Option String)
  | remove (x : ℕ)

/-- A new item without parent and children. -/
def xccdfItemNew (s : State) (type : XccdfType) (id clusterId : Option String) : State :=
  { s with
    heap := Function.update s.heap s.next
      (some { type, id, clusterId, parent := none, content := [], values := [] })
    next := s.next + 1 }

/-- One call. -/
def step (s : State) : Op → Option State
  | .new type id clusterId => some (xccdfItemNew s type id clusterId)
  | .add p x => some (xccdfAddItem s p x).1
  | .setId x newid => (xccdfBenchmarkRenameItem s x newid).map Prod.fst
  | .remove x => some (xccdfItemRemove s x)

/-! ### The lookups -/

/-- `xccdf_benchmark_get_item`. -/
def xccdfBenchmarkGetItem (s : State) (id : String) : Option ℕ := s.dicts.items.lookup id

/-- The nodes that the iterator of `xccdf_benchmark_get_cluster_items` goes through. The users
of the iterator skip the nodes without key and value. -/
def xccdfBenchmarkGetClusterItems (s : State) (cluster : String) : List (String × ℕ) :=
  ((s.dicts.clusters cluster).map fun table => (table.entries defaultHsize).reduceOption).getD []

/-! ### The entries of the dictionaries -/

/-- The table of a cluster, which is made when it is needed. -/
theorem lookup_getD_clusters (dicts : Dicts) (c i : String) :
    ((dicts.clusters c).getD ChainedTable.empty).lookup i = dicts.inCluster c i := by
  unfold Dicts.inCluster
  cases dicts.clusters c <;> rfl

/-- Registering an item to its cluster when the id is free there. -/
theorem registerItemToCluster_spec (dicts : Dicts) {id : String} {item : XccdfItem} (x : ℕ)
    (hfree : item.cluster ≠ "" → dicts.inCluster item.cluster id = none) :
    (registerItemToCluster dicts x id item).2 = true ∧
      (registerItemToCluster dicts x id item).1.items = dicts.items ∧
      ∀ c i, c ≠ "" → (registerItemToCluster dicts x id item).1.inCluster c i =
        if c = item.cluster ∧ i = id then some x else dicts.inCluster c i := by
  unfold registerItemToCluster
  by_cases hc : item.cluster = ""
  · rw [if_pos hc]
    refine ⟨rfl, rfl, fun c i hne => ?_⟩
    rw [if_neg]
    rintro ⟨rfl, -⟩
    exact hne hc
  · rw [if_neg hc]
    have hnone := (lookup_getD_clusters dicts item.cluster id).trans (hfree hc)
    refine ⟨ChainedTable.add_snd hnone x, rfl, fun c i _ => ?_⟩
    unfold Dicts.inCluster
    rcases eq_or_ne c item.cluster with rfl | hne
    · dsimp only
      rw [Function.update_self, Option.bind_some, ChainedTable.lookup_add hnone,
        lookup_getD_clusters]
      simp only [true_and]
      rfl
    · dsimp only
      rw [Function.update_of_ne hne, if_neg fun h => hne h.1]

/-- Entering an item when its id is free. -/
theorem enter_spec {dicts : Dicts} {id : String} (item : XccdfItem) (x : ℕ)
    (hid : dicts.items.lookup id = none)
    (hfree : item.cluster ≠ "" → dicts.inCluster item.cluster id = none) :
    (enter dicts x id item).2 = true ∧
      (∀ i, (enter dicts x id item).1.items.lookup i =
        if i = id then some x else dicts.items.lookup i) ∧
      ∀ c i, c ≠ "" → (enter dicts x id item).1.inCluster c i =
        if c = item.cluster ∧ i = id then some x else dicts.inCluster c i := by
  obtain ⟨hsnd, hitems, hclusters⟩ := registerItemToCluster_spec
    { dicts with items := (dicts.items.add id x).1 } x hfree
  have henter : enter dicts x id item =
      registerItemToCluster { dicts with items := (dicts.items.add id x).1 } x id item := by
    unfold enter
    dsimp only
    rw [if_pos (ChainedTable.add_snd hid x)]
  rw [henter]
  refine ⟨hsnd, fun i => ?_, hclusters⟩
  rw [hitems, ChainedTable.lookup_add hid]

/-- Taking an item out whose key in its cluster is the id of the cluster. -/
theorem leave_spec {dicts : Dicts} {id : String} {item : XccdfItem} (hid : item.id = some id)
    (hin : dicts.items.lookup id ≠ none) (hkey : item.cluster = "" ∨ item.cluster = id) :
    (∀ i, (leave dicts item).1.items.lookup i =
        if i = id then none else dicts.items.lookup i) ∧
      ∀ c i, c ≠ "" → (leave dicts item).1.inCluster c i =
        if c = item.cluster ∧ i = id then none else dicts.inCluster c i := by
  have hleave : leave dicts item =
      unregisterItemFromCluster { dicts with items := dicts.items.detach id } item := by
    unfold leave
    rw [hid]
    exact if_pos (Option.isSome_iff_ne_none.mpr hin)
  rw [hleave]
  unfold unregisterItemFromCluster
  by_cases hc : item.cluster = ""
  · rw [if_pos hc]
    refine ⟨fun i => ChainedTable.lookup_detach .., fun c i hne => ?_⟩
    rw [if_neg]
    · rfl
    · rintro ⟨rfl, -⟩
      exact hne hc
  · obtain rfl : item.cluster = id := hkey.resolve_left hc
    rw [if_neg hc]
    dsimp only
    cases htable : dicts.clusters item.cluster with
    | none =>
        refine ⟨fun i => ChainedTable.lookup_detach .., fun c i _ => ?_⟩
        have hsame : Dicts.inCluster { dicts with items := dicts.items.detach item.cluster } c i =
          dicts.inCluster c i := rfl
        dsimp only
        rw [hsame]
        split
        · rename_i h
          rw [h.1, Dicts.inCluster, htable, Option.bind_none]
        · rfl
    | some table =>
        refine ⟨fun i => ChainedTable.lookup_detach .., fun c i _ => ?_⟩
        unfold Dicts.inCluster
        rcases eq_or_ne c item.cluster with rfl | hne
        · dsimp only
          rw [Function.update_self, Option.bind_some, ChainedTable.lookup_detach, htable]
          simp only [true_and]
          rfl
        · dsimp only
          rw [Function.update_of_ne hne, if_neg fun h => hne h.1]

/-- The entries after the items of a list are entered. -/
structure Enters (heap : Heap) (l : List ℕ) (dicts dicts' : Dicts) : Prop where
  items : ∀ i y, dicts'.items.lookup i = some y ↔
    dicts.items.lookup i = some y ∨ y ∈ l ∧ idOf heap y = some i
  clusters : ∀ c i y, c ≠ "" → (dicts'.inCluster c i = some y ↔
    dicts.inCluster c i = some y ∨ y ∈ l ∧ idOf heap y = some i ∧ clusterOf heap y = c)

/-- The items of a list have different ids, and these are free. -/
structure Fresh (heap : Heap) (l : List ℕ) (dicts : Dicts) : Prop where
  items : ∀ y ∈ l, ∀ i, idOf heap y = some i → dicts.items.lookup i = none
  clusters : ∀ y ∈ l, ∀ i, idOf heap y = some i → ∀ c, c ≠ "" → dicts.inCluster c i = none
  nodup : (l.filterMap (idOf heap)).Nodup

section Lists

variable {heap : Heap} {l m : List ℕ} {dicts dicts' dicts'' : Dicts} {x : ℕ}

/-- No items are entered. -/
theorem Enters.refl (hl : ∀ y ∈ l, idOf heap y = none) : Enters heap l dicts dicts := by
  constructor
  · intro i y
    refine ⟨Or.inl, fun h => h.resolve_right ?_⟩
    rintro ⟨hy, hid⟩
    rw [hl y hy] at hid
    cases hid
  · intro c i y _
    refine ⟨Or.inl, fun h => h.resolve_right ?_⟩
    rintro ⟨hy, hid, -⟩
    rw [hl y hy] at hid
    cases hid

/-- Entering one list and then another. -/
theorem Enters.append (h : Enters heap l dicts dicts') (h' : Enters heap m dicts' dicts'') :
    Enters heap (l ++ m) dicts dicts'' := by
  constructor
  · intro i y
    rw [h'.items, h.items, List.mem_append, or_and_right, or_assoc]
  · intro c i y hc
    rw [h'.clusters c i y hc, h.clusters c i y hc, List.mem_append, or_and_right, or_assoc]

/-- What is free stays free when other items are entered. -/
theorem Fresh.after (h : Fresh heap (l ++ m) dicts) (henters : Enters heap l dicts dicts') :
    Fresh heap m dicts' := by
  have hmem : ∀ y ∈ m, y ∈ l ++ m := fun y hy => List.mem_append_right l hy
  have hnodup := h.nodup
  rw [List.filterMap_append, List.nodup_append] at hnodup
  have hother : ∀ y ∈ m, ∀ i, idOf heap y = some i → ∀ z ∈ l, idOf heap z ≠ some i := by
    intro y hy i hi z hz hzi
    exact hnodup.2.2 i (List.mem_filterMap.mpr ⟨z, hz, hzi⟩) i
      (List.mem_filterMap.mpr ⟨y, hy, hi⟩) rfl
  refine ⟨fun y hy i hi => ?_, fun y hy i hi c hc => ?_, hnodup.2.1⟩
  · rw [Option.eq_none_iff_forall_ne_some]
    intro z hz
    rcases (henters.items i z).mp hz with hz | ⟨hzl, hzi⟩
    · rw [h.items y (hmem y hy) i hi] at hz
      cases hz
    · exact hother y hy i hi z hzl hzi
  · rw [Option.eq_none_iff_forall_ne_some]
    intro z hz
    rcases (henters.clusters c i z hc).mp hz with hz | ⟨hzl, hzi, -⟩
    · rw [h.clusters y (hmem y hy) i hi c hc] at hz
      cases hz
    · exact hother y hy i hi z hzl hzi

/-- The first items of a list of free ones are free. -/
theorem Fresh.left (h : Fresh heap (l ++ m) dicts) : Fresh heap l dicts := by
  have hnodup := h.nodup
  rw [List.filterMap_append, List.nodup_append] at hnodup
  exact ⟨fun y hy => h.items y (List.mem_append_left m hy),
    fun y hy => h.clusters y (List.mem_append_left m hy), hnodup.1⟩

/-- One free item is entered. -/
theorem enters_enter {item : XccdfItem} {id : String} (hx : heap x = some item)
    (hid : item.id = some id) (h : Fresh heap [x] dicts) :
    (enter dicts x id item).2 = true ∧ Enters heap [x] dicts (enter dicts x id item).1 := by
  have hidOf : idOf heap x = some id := by rw [idOf, hx, Option.bind_some, hid]
  have hcluster : clusterOf heap x = item.cluster := by rw [clusterOf, hx]; rfl
  have hfree := h.items x (List.mem_singleton_self x) id hidOf
  obtain ⟨hsnd, hitems, hclusters⟩ := enter_spec item x hfree
    (h.clusters x (List.mem_singleton_self x) id hidOf item.cluster)
  refine ⟨hsnd, fun i y => ?_, fun c i y hc => ?_⟩
  · rw [hitems, List.mem_singleton]
    split
    · rename_i heq
      subst heq
      rw [hfree]
      simp only [reduceCtorEq, false_or, Option.some.injEq]
      exact ⟨fun hxy => ⟨hxy.symm, hxy ▸ hidOf⟩, fun hyx => hyx.1.symm⟩
    · rename_i hne
      refine ⟨Or.inl, fun hor => hor.resolve_right ?_⟩
      rintro ⟨rfl, hyi⟩
      exact hne (Option.some.inj (hyi.symm.trans hidOf))
  · rw [hclusters c i hc, List.mem_singleton]
    split
    · rename_i heq
      obtain ⟨rfl, rfl⟩ := heq
      rw [h.clusters x (List.mem_singleton_self x) i hidOf _ hc]
      simp only [reduceCtorEq, false_or, Option.some.injEq]
      exact ⟨fun hxy => ⟨hxy.symm, hxy ▸ hidOf, hxy ▸ hcluster⟩, fun hyx => hyx.1.symm⟩
    · rename_i hne
      refine ⟨Or.inl, fun hor => hor.resolve_right ?_⟩
      rintro ⟨rfl, hyi, hyc⟩
      exact hne ⟨hyc.symm.trans hcluster, Option.some.inj (hyi.symm.trans hidOf)⟩

/-! ### Registering a tree -/

/-- The children of an item other than the benchmark. -/
theorem kids_eq {item : XccdfItem} (hx : heap x = some item) (htype : item.type ≠ .benchmark) :
    kids heap x = if item.type = .group then item.content ++ item.values else [] := by
  rw [kids, hx, Option.map_some, Option.getD_some, XccdfItem.children]
  cases htypeOf : item.type with
  | benchmark => exact absurd htypeOf htype
  | group => rfl
  | rule => rfl
  | value => rfl

/-- Items without id that have no children with id have nothing with id below them. -/
theorem idOf_eq_none_of_visits {xs : List ℕ} (hl : Visits (kids heap) xs l)
    (hbelow : ∀ y ∈ l, idOf heap y = none → ∀ c ∈ kids heap y, idOf heap c = none)
    (hxs : ∀ y ∈ xs, idOf heap y = none) : ∀ y ∈ l, idOf heap y = none := by
  induction hl with
  | nil => simp
  | @cons x xs l₁ l₂ _ _ ih₁ ih₂ =>
      have hx := hxs x List.mem_cons_self
      intro y hy
      rcases List.mem_append.mp hy with hy | hy
      · exact ih₁ (fun z hz => hbelow z (by simp [hz])) (hbelow x (by simp) hx) y hy
      · rcases List.mem_cons.mp hy with rfl | hy
        · exact hx
        · exact ih₂ (fun z hz => hbelow z (by simp [hz])) (fun z hz => hxs z (by simp [hz])) y hy

/-- Registering a free item after its children. -/
theorem register_node {item : XccdfItem} {id : String} {fuel : ℕ} (hx : heap x = some item)
    (htype : item.type ≠ .benchmark) (hid : item.id = some id)
    (hfresh : Fresh heap (l ++ [x]) dicts)
    (hkids : Enters heap l dicts ((kids heap x).foldl
      (fun dicts y => (xccdfBenchmarkRegisterItem heap fuel dicts y).1) dicts)) :
    (xccdfBenchmarkRegisterItem heap (fuel + 1) dicts x).2 = true ∧
      Enters heap (l ++ [x]) dicts (xccdfBenchmarkRegisterItem heap (fuel + 1) dicts x).1 := by
  have hidOf : idOf heap x = some id := by rw [idOf, hx, Option.bind_some, hid]
  have hlookup := hfresh.items x (by simp) id hidOf
  have heq : xccdfBenchmarkRegisterItem heap (fuel + 1) dicts x =
      enter ((kids heap x).foldl
        (fun dicts y => (xccdfBenchmarkRegisterItem heap fuel dicts y).1) dicts) x id item := by
    rw [xccdfBenchmarkRegisterItem, hx, kids_eq hx htype]
    dsimp only
    rw [hid]
    dsimp only
    rw [hlookup]
    dsimp only
    by_cases hgroup : item.type = .group
    · rw [if_pos hgroup, if_pos hgroup]
    · rw [if_neg hgroup, if_neg hgroup, List.foldl_nil]
  obtain ⟨hsnd, henter⟩ := enters_enter hx hid (hfresh.after hkids)
  rw [heq]
  exact ⟨hsnd, hkids.append henter⟩

/-- **Registering trees of free items enters every item with an id.** -/
theorem register_spec {xs : List ℕ} (hl : Visits (kids heap) xs l)
    (halloc : ∀ y ∈ l, ∃ item, heap y = some item ∧ item.type ≠ .benchmark)
    (hnone : ∀ y ∈ l, idOf heap y = none → ∀ c ∈ kids heap y, idOf heap c = none)
    {fuel : ℕ} (hfuel : l.length ≤ fuel) (hfresh : Fresh heap l dicts) :
    Enters heap l dicts
      (xs.foldl (fun dicts y => (xccdfBenchmarkRegisterItem heap fuel dicts y).1) dicts) := by
  induction hl generalizing fuel dicts with
  | nil => exact .refl (by simp)
  | @cons x xs l₁ l₂ below _ ih₁ ih₂ =>
      rw [List.length_append, List.length_cons] at hfuel
      obtain ⟨n, rfl⟩ : ∃ n, fuel = n + 1 := ⟨fuel - 1, by omega⟩
      obtain ⟨item, hx, htype⟩ := halloc x (by simp)
      rw [List.append_cons] at hfresh
      have hnode : Enters heap (l₁ ++ [x]) dicts
          (xccdfBenchmarkRegisterItem heap (n + 1) dicts x).1 := by
        cases hid : item.id with
        | none =>
            have hidOf : idOf heap x = none := by rw [idOf, hx, Option.bind_some, hid]
            have hbelow : ∀ y ∈ l₁, idOf heap y = none :=
              idOf_eq_none_of_visits below (fun y hy => hnone y (by simp [hy]))
                (hnone x (by simp) hidOf)
            rw [xccdfBenchmarkRegisterItem, hx]
            dsimp only
            rw [hid]
            refine .refl fun y hy => ?_
            rcases List.mem_append.mp hy with hy | hy
            · exact hbelow y hy
            · rw [List.mem_singleton.mp hy, hidOf]
        | some id =>
            refine (register_node hx htype hid hfresh.left ?_).2
            exact ih₁ (fun y hy => halloc y (by simp [hy])) (fun y hy => hnone y (by simp [hy]))
              (by omega) hfresh.left.left
      rw [List.foldl_cons, List.append_cons]
      exact hnode.append (ih₂ (fun y hy => halloc y (by simp [hy]))
        (fun y hy => hnone y (by simp [hy])) (by omega) (hfresh.after hnode))

/-- Registering one tree of free items succeeds. -/
theorem register_tree (hl : Visits (kids heap) [x] l)
    (halloc : ∀ y ∈ l, ∃ item, heap y = some item ∧ item.type ≠ .benchmark)
    (hnone : ∀ y ∈ l, idOf heap y = none → ∀ c ∈ kids heap y, idOf heap c = none)
    {fuel : ℕ} (hfuel : l.length ≤ fuel) (hfresh : Fresh heap l dicts)
    (hid : idOf heap x ≠ none) :
    (xccdfBenchmarkRegisterItem heap fuel dicts x).2 = true ∧
      Enters heap l dicts (xccdfBenchmarkRegisterItem heap fuel dicts x).1 := by
  obtain ⟨l₁, rfl, below⟩ := hl.of_singleton
  rw [List.length_append, List.length_singleton] at hfuel
  obtain ⟨n, rfl⟩ : ∃ n, fuel = n + 1 := ⟨fuel - 1, by omega⟩
  obtain ⟨item, hx, htype⟩ := halloc x (by simp)
  obtain ⟨id, hid⟩ := Option.ne_none_iff_exists'.mp hid
  rw [idOf, hx, Option.bind_some] at hid
  refine register_node hx htype hid hfresh ?_
  exact register_spec below (fun y hy => halloc y (by simp [hy]))
    (fun y hy => hnone y (by simp [hy])) (by omega) hfresh.left

/-! ### Freeing a tree -/

/-- The entries after the items of a list are taken out. -/
structure Leaves (heap : Heap) (l : List ℕ) (dicts dicts' : Dicts) : Prop where
  items : ∀ i y, dicts'.items.lookup i = some y ↔
    dicts.items.lookup i = some y ∧ ∀ z ∈ l, idOf heap z ≠ some i
  clusters : ∀ c i y, c ≠ "" → (dicts'.inCluster c i = some y ↔
    dicts.inCluster c i = some y ∧ ∀ z ∈ l, ¬ (idOf heap z = some i ∧ clusterOf heap z = c))

/-- Take the item at an address out of the dictionaries. -/
def leaveAt (heap : Heap) (dicts : Dicts) (x : ℕ) : Dicts :=
  ((heap x).map fun item => (leave dicts item).1).getD dicts

/-- One item is taken out. -/
theorem leaves_leaveAt (hin : ∀ i, idOf heap x = some i → dicts.items.lookup i ≠ none)
    (hkey : clusterOf heap x = "" ∨ idOf heap x = some (clusterOf heap x)) :
    Leaves heap [x] dicts (leaveAt heap dicts x) := by
  cases hid : idOf heap x with
  | none =>
      have hsame : leaveAt heap dicts x = dicts := by
        unfold leaveAt
        cases hx : heap x with
        | none => rfl
        | some item =>
            rw [idOf, hx, Option.bind_some] at hid
            rw [Option.map_some, Option.getD_some, leave, hid]
      rw [hsame]
      constructor
      · simp [hid]
      · simp [hid]
  | some id =>
      obtain ⟨item, hx, hitem⟩ := Option.bind_eq_some_iff.mp hid
      have hcluster : clusterOf heap x = item.cluster := by rw [clusterOf, hx]; rfl
      rw [hid, hcluster, Option.some.injEq, eq_comm (a := id)] at hkey
      obtain ⟨hitems, hclusters⟩ := leave_spec hitem (hin id hid) hkey
      have heq : leaveAt heap dicts x = (leave dicts item).1 := by rw [leaveAt, hx]; rfl
      rw [heq]
      refine ⟨fun i y => ?_, fun c i y hc => ?_⟩
      · rw [hitems]
        split
        · rename_i hi
          simp [hid, hi]
        · rename_i hi
          simp [hid, Ne.symm hi]
      · rw [hclusters c i hc]
        split
        · rename_i hi
          simp [hid, hcluster, hi]
        · rename_i hi
          simp only [List.mem_singleton, forall_eq, hid, hcluster, Option.some.injEq]
          refine (and_iff_left ?_).symm
          rintro ⟨rfl, rfl⟩
          exact hi ⟨rfl, rfl⟩

/-- **Taking the items of a list out one after another.** -/
theorem leaves_foldl (hin : ∀ x ∈ l, ∀ i, idOf heap x = some i → dicts.items.lookup i ≠ none)
    (hkey : ∀ x ∈ l, clusterOf heap x = "" ∨ idOf heap x = some (clusterOf heap x))
    (hnodup : (l.filterMap (idOf heap)).Nodup) :
    Leaves heap l dicts (l.foldl (leaveAt heap) dicts) := by
  induction l generalizing dicts with
  | nil => exact ⟨by simp, by simp⟩
  | cons x l ih =>
      have hx := leaves_leaveAt (hin x List.mem_cons_self) (hkey x List.mem_cons_self)
      have hother : ∀ y ∈ l, ∀ i, idOf heap y = some i → idOf heap x ≠ some i := by
        intro y hy i hi hxi
        rw [List.filterMap_cons_some hxi, List.nodup_cons] at hnodup
        exact hnodup.1 (List.mem_filterMap.mpr ⟨y, hy, hi⟩)
      have hl := @ih (leaveAt heap dicts x) (fun y hy i hi => by
          obtain ⟨z, hz⟩ := Option.ne_none_iff_exists'.mp
            (hin y (List.mem_cons_of_mem _ hy) i hi)
          rw [(hx.items i z).mpr ⟨hz, by simpa using hother y hy i hi⟩]
          simp)
        (fun y hy => hkey y (List.mem_cons_of_mem _ hy))
        (hnodup.sublist (List.Sublist.filterMap _ (List.sublist_cons_self x l)))
      constructor
      · intro i y
        rw [List.foldl_cons, hl.items, hx.items, and_assoc]
        simp
      · intro c i y hc
        rw [List.foldl_cons, hl.clusters c i y hc, hx.clusters c i y hc, and_assoc]
        simp

end Lists

/-- The benchmark of an item depends on the items above it. -/
theorem getBenchmark_congr {heap heap' : Heap} {y : ℕ} (n : ℕ)
    (h : ∀ a, Under (up heap) y a → heap' a = heap a) :
    xccdfItemGetBenchmark heap' n y = xccdfItemGetBenchmark heap n y := by
  have htop : topmost (up heap') (n + 1) y = topmost (up heap) (n + 1) y :=
    topmost_congr (fun a ha => by rw [up, up, h a ha]) _
  unfold xccdfItemGetBenchmark
  rw [htop]
  cases hroot : topmost (up heap) (n + 1) y with
  | none => rfl
  | some root =>
      rw [Option.filter_some, Option.filter_some, h root (under_of_topmost hroot)]

/-- The dictionaries after one item is released. -/
theorem release_dicts (s : State) (x : ℕ) : (xccdfItemRelease s x).dicts =
    if (xccdfItemGetBenchmark s.heap s.next x).isSome then leaveAt s.heap s.dicts x
    else s.dicts := by
  change (xccdfBenchmarkUnregisterItem s x).1 = _
  unfold xccdfBenchmarkUnregisterItem leaveAt
  cases s.heap x with
  | none => simp
  | some item => cases xccdfItemGetBenchmark s.heap s.next x <;> rfl

/-- **Releasing items, none after an item that lies above it.** -/
theorem foldl_release {s : State} {l : List ℕ} {bench : Option ℕ}
    (hpost : l.Pairwise fun a c => ¬ Under (up s.heap) c a)
    (hbench : ∀ y ∈ l, xccdfItemGetBenchmark s.heap s.next y = bench) (s' : State)
    (hnext : s'.next = s.next)
    (hheap : ∀ y ∈ l, ∀ a, Under (up s.heap) y a → s'.heap a = s.heap a) :
    l.foldl xccdfItemRelease s' =
      { s' with
        heap := fun y => if y ∈ l then none else s'.heap y
        dicts := if bench.isSome then l.foldl (leaveAt s.heap) s'.dicts else s'.dicts } := by
  induction l generalizing s' with
  | nil => simp
  | cons x l ih =>
      obtain ⟨hx, hl⟩ := List.pairwise_cons.mp hpost
      have hxs := hheap x List.mem_cons_self
      have hdicts : (xccdfItemRelease s' x).dicts =
          if bench.isSome then leaveAt s.heap s'.dicts x else s'.dicts := by
        rw [release_dicts, hnext, getBenchmark_congr s.next hxs, hbench x List.mem_cons_self]
        unfold leaveAt
        rw [hxs x (Under.refl _ _)]
      rw [List.foldl_cons, ih hl (fun y hy => hbench y (List.mem_cons_of_mem _ hy))
        (xccdfItemRelease s' x) hnext ?_, hdicts]
      · congr 1
        · funext y
          change (if y ∈ l then none else Function.update s'.heap x none y) = _
          rcases eq_or_ne y x with rfl | hne
          · simp
          · simp [hne]
        · split <;> rfl
      · intro y hy a ha
        change Function.update s'.heap x none a = _
        rw [Function.update_of_ne, hheap y (List.mem_cons_of_mem _ hy) a ha]
        rintro rfl
        exact hx y hy ha

/-- Freeing an item frees its children and releases the item. -/
theorem free_node {s : State} {x fuel : ℕ} {item : XccdfItem} (hx : s.heap x = some item)
    (htype : item.type ≠ .benchmark) : xccdfItemFree (fuel + 1) s x =
      xccdfItemRelease ((if item.type = .group then item.content ++ item.values else []).foldl
        (xccdfItemFree fuel) s) x := by
  rw [xccdfItemFree, hx]
  dsimp only
  cases htypeOf : item.type with
  | benchmark => exact absurd htypeOf htype
  | group => rfl
  | rule => rfl
  | value => rfl

/-- Items that are not released are kept. -/
theorem foldl_release_of_not_mem {y : ℕ} {l : List ℕ} (hy : y ∉ l) (s : State) :
    (l.foldl xccdfItemRelease s).heap y = s.heap y := by
  induction l generalizing s with
  | nil => rfl
  | cons x l ih =>
      rw [List.mem_cons, not_or] at hy
      obtain ⟨hne, hy⟩ := hy
      rw [List.foldl_cons, ih hy]
      exact Function.update_of_ne hne _ _

/-- **Freeing trees releases the items that a walk visits.** -/
theorem free_eq {s : State} {xs l : List ℕ} (hl : Visits (kids s.heap) xs l)
    (halloc : ∀ y ∈ l, ∃ item, s.heap y = some item ∧ item.type ≠ .benchmark) (hnodup : l.Nodup)
    (s' : State) (hheap : ∀ y ∈ l, s'.heap y = s.heap y) {fuel : ℕ} (hfuel : l.length ≤ fuel) :
    xs.foldl (xccdfItemFree fuel) s' = l.foldl xccdfItemRelease s' := by
  induction hl generalizing fuel s' with
  | nil => rfl
  | @cons x xs l₁ l₂ _ _ ih₁ ih₂ =>
      rw [List.length_append, List.length_cons] at hfuel
      obtain ⟨n, rfl⟩ : ∃ n, fuel = n + 1 := ⟨fuel - 1, by omega⟩
      obtain ⟨hnodup₁, hnodup₂, hdisjoint⟩ := List.nodup_append.mp hnodup
      obtain ⟨hx, hnodup₂⟩ := List.nodup_cons.mp hnodup₂
      obtain ⟨item, hitem, htype⟩ := halloc x (by simp)
      have hfirst : (kids s.heap x).foldl (xccdfItemFree n) s' = l₁.foldl xccdfItemRelease s' :=
        ih₁ (fun y hy => halloc y (by simp [hy])) hnodup₁ s'
          (fun y hy => hheap y (by simp [hy])) (by omega)
      have hnode : xccdfItemFree (n + 1) s' x =
          xccdfItemRelease (l₁.foldl xccdfItemRelease s') x := by
        rw [free_node ((hheap x (by simp)).trans hitem) htype, ← kids_eq hitem htype, hfirst]
      rw [List.foldl_cons, hnode, List.foldl_append, List.foldl_cons]
      refine ih₂ (fun y hy => halloc y (by simp [hy])) hnodup₂ _ (fun y hy => ?_) (by omega)
      change Function.update (l₁.foldl xccdfItemRelease s').heap x none y = _
      rw [Function.update_of_ne, foldl_release_of_not_mem, hheap y (by simp [hy])]
      · exact fun hy₁ => hdisjoint y hy₁ y (List.mem_cons_of_mem _ hy) rfl
      · rintro rfl
        exact hx hy

/-! ### The invariant -/

/-- The item is in the tree of the benchmark: following its parents leads there. -/
def Live (s : State) (x : ℕ) : Prop :=
  x ≠ s.benchmark ∧ Under (up s.heap) x s.benchmark

/-- The items form a forest, and the only benchmark is a root of it. -/
structure Consistent (s : State) : Prop where
  forest : Forest (kids s.heap) (up s.heap)
  next : ∀ x item, s.heap x = some item → x < s.next
  root : ∃ item, s.heap s.benchmark = some item ∧ item.type = .benchmark ∧ item.parent = none
  unique : ∀ x item, s.heap x = some item → item.type = .benchmark → x = s.benchmark

/-- The dictionaries have the items in the tree. -/
structure Registered (s : State) : Prop where
  items : ∀ i x, s.dicts.items.lookup i = some x ↔ Live s x ∧ idOf s.heap x = some i
  clusters : ∀ c i x, c ≠ "" → (s.dicts.inCluster c i = some x ↔
    Live s x ∧ idOf s.heap x = some i ∧ clusterOf s.heap x = c)
  clustered : ∀ x, Live s x → clusterOf s.heap x ≠ "" → idOf s.heap x ≠ none

/-- The invariant of the registry. -/
structure Inv (s : State) : Prop where
  consistent : Consistent s
  registered : Registered s

/-- An item in the tree is not a root. -/
theorem not_live_of_root {s : State} {x : ℕ} (hroot : up s.heap x = none) : ¬ Live s x := by
  rintro ⟨hne, hx⟩
  exact hne (hx.eq_of_root hroot)

namespace Consistent

variable {s : State} {x y p : ℕ} {l : List ℕ} (h : Consistent s)

include h

/-- The benchmark has no parent. -/
theorem up_benchmark : up s.heap s.benchmark = none := by
  obtain ⟨item, hitem, -, hparent⟩ := h.root
  rw [up, hitem, Option.bind_some, hparent]

/-- An item with a parent is allocated, and so is the parent. -/
theorem alloc_of_up (hup : up s.heap x = some p) :
    (∃ item, s.heap x = some item ∧ item.parent = some p) ∧ ∃ item, s.heap p = some item := by
  refine ⟨Option.bind_eq_some_iff.mp hup, ?_⟩
  have hmem := h.forest.mem_kids.mpr hup
  cases hp : s.heap p with
  | none =>
      rw [kids, hp] at hmem
      cases hmem
  | some item => exact ⟨item, rfl⟩

/-- What lies below an allocated item is allocated. -/
theorem alloc_of_under (hx : ∃ item, s.heap x = some item) (hy : Under (up s.heap) y x) :
    ∃ item, s.heap y = some item := by
  rcases Relation.ReflTransGen.cases_head hy with rfl | ⟨q, hq, -⟩
  · exact hx
  · obtain ⟨⟨item, hitem, -⟩, -⟩ := h.alloc_of_up hq
    exact ⟨item, hitem⟩

/-- **The benchmark is found for the items of its tree.** -/
theorem getBenchmark_eq :
    xccdfItemGetBenchmark s.heap s.next x = some p ↔
      p = s.benchmark ∧ Under (up s.heap) x s.benchmark := by
  unfold xccdfItemGetBenchmark
  constructor
  · intro hp
    obtain ⟨htop, htype⟩ := Option.filter_eq_some_iff.mp hp
    cases hitem : s.heap p with
    | none =>
        rw [hitem] at htype
        cases htype
    | some item =>
        rw [hitem, Option.any_some, decide_eq_true_eq] at htype
        obtain rfl := h.unique p item hitem htype
        exact ⟨rfl, under_of_topmost htop⟩
  · rintro ⟨rfl, hx⟩
    obtain ⟨item, hitem, htype, -⟩ := h.root
    have htop := h.forest.topmost_eq (List.range s.next) (fun y q hq => by
      obtain ⟨⟨item, hitem, -⟩, -⟩ := h.alloc_of_up hq
      exact List.mem_range.mpr (h.next y item hitem)) hx h.up_benchmark
    rw [List.length_range] at htop
    rw [htop, Option.filter_some, if_pos]
    rw [hitem]
    simp [htype]

/-- No benchmark is found for the other items. -/
theorem getBenchmark_eq_none (hx : ¬ Under (up s.heap) x s.benchmark) :
    xccdfItemGetBenchmark s.heap s.next x = none := by
  rw [Option.eq_none_iff_forall_ne_some]
  intro p hp
  exact hx (h.getBenchmark_eq.mp hp).2

/-- No other item is a benchmark. -/
theorem type_ne_benchmark {item : XccdfItem} (hx : s.heap x = some item)
    (hne : x ≠ s.benchmark) : item.type ≠ .benchmark :=
  fun htype => hne (h.unique x item hx htype)

/-- The items below an item other than the benchmark, in the order of a walk. -/
theorem exists_walk (hx : ∃ item, s.heap x = some item) (hne : x ≠ s.benchmark) :
    ∃ l, Visits (kids s.heap) [x] l ∧ (∀ y, y ∈ l ↔ Under (up s.heap) y x) ∧ l.Nodup ∧
      l.length ≤ s.next ∧ ∀ y ∈ l, ∃ item, s.heap y = some item ∧ item.type ≠ .benchmark := by
  obtain ⟨l, hl⟩ := h.forest.exists_visits [x]
  have hmem : ∀ y, y ∈ l ↔ Under (up s.heap) y x := fun y => h.forest.mem_visits_singleton hl
  have halloc : ∀ y ∈ l, ∃ item, s.heap y = some item ∧ item.type ≠ .benchmark := by
    intro y hy
    have hyx := (hmem y).mp hy
    obtain ⟨item, hitem⟩ := h.alloc_of_under hx hyx
    refine ⟨item, hitem, h.type_ne_benchmark hitem ?_⟩
    rintro rfl
    exact hne (hyx.eq_of_root h.up_benchmark).symm
  have hnodup := h.forest.nodup_visits hl
  refine ⟨l, hl, hmem, hnodup, ?_, halloc⟩
  have hsub : l ⊆ List.range s.next := by
    intro y hy
    obtain ⟨item, hitem, -⟩ := halloc y hy
    exact List.mem_range.mpr (h.next y item hitem)
  simpa using (List.subperm_of_subset hnodup hsub).length_le

end Consistent

/-! ### Steps that change ids -/

section Updates

variable {heap heap' : Heap} {x : ℕ}

/-- Items that differ in their ids only. -/
def SameTree (heap heap' : Heap) : Prop :=
  ∀ y, (heap' y).map (fun item => { item with id := none }) =
    (heap y).map fun item => { item with id := none }

/-- The tree of items that differ in their ids. -/
theorem SameTree.eq (h : SameTree heap heap') :
    kids heap' = kids heap ∧ up heap' = up heap ∧ clusterOf heap' = clusterOf heap := by
  refine ⟨funext fun y => ?_, funext fun y => ?_, funext fun y => ?_⟩
  · have := congrArg (fun o => (o.map XccdfItem.children).getD []) (h y)
    rw [Option.map_map, Option.map_map] at this
    exact this
  · have := congrArg (fun o => o.bind XccdfItem.parent) (h y)
    rw [Option.bind_map, Option.bind_map] at this
    exact this
  · have := congrArg (fun o => (o.map XccdfItem.cluster).getD "") (h y)
    rw [Option.map_map, Option.map_map] at this
    exact this

/-- An item that differs in its id. -/
theorem SameTree.exists_iff (h : SameTree heap heap') {y : ℕ} {item' : XccdfItem}
    (hy : heap' y = some item') :
    ∃ item, heap y = some item ∧ item.type = item'.type ∧ item.parent = item'.parent := by
  have := h y
  rw [hy, Option.map_some] at this
  obtain ⟨item, hitem, heq⟩ := Option.map_eq_some_iff.mp this.symm
  obtain ⟨htype, -, -, hparent, -⟩ := XccdfItem.mk.inj heq
  exact ⟨item, hitem, htype, hparent⟩

/-- Replacing an id keeps the tree. -/
theorem sameTree_replaceId (newid : Option String) : SameTree heap (replaceId heap x newid) := by
  intro y
  unfold replaceId
  rcases eq_or_ne y x with rfl | hne
  · rw [Function.update_self]
    cases heap y <;> rfl
  · rw [Function.update_of_ne hne]

/-- The ids after one is replaced. -/
theorem idOf_replaceId (newid : Option String) (y : ℕ) : idOf (replaceId heap x newid) y =
    if y = x ∧ (heap x).isSome then newid else idOf heap y := by
  unfold replaceId idOf
  rcases eq_or_ne y x with rfl | hne
  · rw [Function.update_self]
    cases heap y <;> simp
  · rw [Function.update_of_ne hne, if_neg fun h => hne h.1]

/-- Giving an item an id keeps the tree and the other ids. -/
theorem withId_spec (s : State) (x : ℕ) :
    SameTree s.heap (withId s x) ∧ ∀ y, y ≠ x → idOf (withId s x) y = idOf s.heap y := by
  have hsame : SameTree s.heap s.heap := fun _ => rfl
  unfold withId
  cases hx : s.heap x with
  | none => exact ⟨hsame, fun _ _ => rfl⟩
  | some item =>
      dsimp only
      cases hid : item.id with
      | some id => exact ⟨hsame, fun _ _ => rfl⟩
      | none =>
          dsimp only
          refine ⟨fun y => ?_, fun y hne => ?_⟩
          · rcases eq_or_ne y x with rfl | hne
            · simp only [Function.update_self, hx, Option.map_some]
            · rw [Function.update_of_ne hne]
          · rw [idOf, Function.update_of_ne hne, idOf]

end Updates

/-- Being in the tree does not depend on the ids. -/
theorem live_congr {s : State} {heap' : Heap} (dicts' : Dicts) (h : SameTree s.heap heap')
    (x : ℕ) : Live { s with heap := heap', dicts := dicts' } x ↔ Live s x := by
  unfold Live
  rw [h.eq.2.1]

/-- The forest does not depend on the ids. -/
theorem Consistent.of_sameTree {s : State} {heap' : Heap} (hs : Consistent s) (dicts' : Dicts)
    (h : SameTree s.heap heap') : Consistent { s with heap := heap', dicts := dicts' } := by
  obtain ⟨hkids, hup, -⟩ := h.eq
  constructor
  · change Forest (kids heap') (up heap')
    rw [hkids, hup]
    exact hs.forest
  · intro x item' hx
    obtain ⟨item, hitem, -, -⟩ := h.exists_iff hx
    exact hs.next x item hitem
  · obtain ⟨item, hitem, htype, hparent⟩ := hs.root
    have hback := h s.benchmark
    rw [hitem, Option.map_some] at hback
    obtain ⟨item', hitem', heq⟩ := Option.map_eq_some_iff.mp hback
    obtain ⟨htype', -, -, hparent', -⟩ := XccdfItem.mk.inj heq
    exact ⟨item', hitem', htype'.trans htype, hparent'.trans hparent⟩
  · intro x item' hx htype'
    obtain ⟨item, hitem, htype, -⟩ := h.exists_iff hx
    exact hs.unique x item hitem (htype.trans htype')

/-- Changing the id of an item outside the tree. -/
theorem Inv.of_outside {s : State} {heap' : Heap} {x : ℕ} (hs : Inv s)
    (h : SameTree s.heap heap') (hid : ∀ y, y ≠ x → idOf heap' y = idOf s.heap y)
    (hx : ¬ Live s x) : Inv { s with heap := heap' } := by
  have hlive : ∀ y, Live s y → idOf heap' y = idOf s.heap y := by
    intro y hy
    refine hid y ?_
    rintro rfl
    exact hx hy
  have hsame : ∀ y, Live { s with heap := heap' } y ↔ Live s y := live_congr s.dicts h
  refine ⟨hs.consistent.of_sameTree s.dicts h, fun i y => ?_, fun c i y hc => ?_, fun y hy => ?_⟩
  · rw [hsame, hs.registered.items]
    exact and_congr_right fun hy => by rw [hlive y hy]
  · rw [hsame, hs.registered.clusters c i y hc]
    refine and_congr_right fun hy => ?_
    rw [hlive y hy]
    change _ ↔ _ ∧ clusterOf heap' y = c
    rw [h.eq.2.2]
  · have hy := (hsame y).mp hy
    change clusterOf heap' y ≠ "" → idOf heap' y ≠ none
    rw [hlive y hy, h.eq.2.2]
    exact hs.registered.clustered y hy

/-! ### The calls that meet the condition -/

/-- An item with all that lies below it. -/
def subtree (s : State) (x : ℕ) : List ℕ := visit (kids s.heap) s.next [x]

/-- The items of a tree can be entered: their ids are free and different, and what has no id
has no cluster and nothing with an id below it. -/
def TreeFree (s : State) (heap : Heap) (x : ℕ) : Prop :=
  (∀ y ∈ subtree s x, (idOf heap y).all fun id => (s.dicts.items.lookup id).isNone) ∧
    ((subtree s x).filterMap (idOf heap)).Nodup ∧
      ∀ y ∈ subtree s x, idOf heap y = none →
        clusterOf heap y = "" ∧ ∀ c ∈ kids heap y, idOf heap c = none

instance (s : State) (heap : Heap) (x : ℕ) : Decidable (TreeFree s heap x) :=
  inferInstanceAs (Decidable (_ ∧ _ ∧ _))

/-- **The calls that run into none of the defects.** An item is added while it is a root, to a
group in the benchmark or the benchmark itself, and with it nothing that is registered already;
an item in a cluster is not renamed in the benchmark, nor freed there unless its id is that of
the cluster. A call that fails because of a taken id does no harm. -/
def Allowed (s : State) : Op → Prop
  | .new type _ _ => type ≠ .benchmark
  | .add p x =>
      xccdfItemGetBenchmark s.heap s.next p = some s.benchmark ∧
        (s.heap p).any (fun parent => parent.type = .benchmark || parent.type = .group) ∧
        (s.heap x).isSome ∧ up s.heap x = none ∧ x ≠ s.benchmark ∧
        (idOf (withId s x) x = none ∨
          (idOf (withId s x) x).any (fun id => (s.dicts.items.lookup id).isSome) ∨
          TreeFree s (withId s x) x)
  | .setId x newid =>
      (s.heap x).isSome ∧ x ≠ s.benchmark ∧
        (xccdfItemGetBenchmark s.heap s.next x = none ∨ clusterOf s.heap x = "" ∨
          newid.any fun id => (s.dicts.items.lookup id).isSome)
  | .remove x =>
      (s.heap x).isSome ∧ x ≠ s.benchmark ∧
        (xccdfItemGetBenchmark s.heap s.next x = none ∨
          ∀ y ∈ subtree s x,
            clusterOf s.heap y = "" ∨ idOf s.heap y = some (clusterOf s.heap y))

instance (s : State) (op : Op) : Decidable (Allowed s op) :=
  match op with
  | .new _ _ _ => inferInstanceAs (Decidable (_ ≠ _))
  | .add _ _ => inferInstanceAs (Decidable (_ ∧ _ ∧ _ ∧ _ ∧ _ ∧ _))
  | .setId _ _ => inferInstanceAs (Decidable (_ ∧ _ ∧ _))
  | .remove _ => inferInstanceAs (Decidable (_ ∧ _ ∧ _))

/-- The subtree of an item is what a walk visits. -/
theorem subtree_eq {s : State} {x : ℕ} {l : List ℕ} (hl : Visits (kids s.heap) [x] l)
    (hle : l.length ≤ s.next) : subtree s x = l :=
  hl.visit_eq hle

/-! ### New items -/

/-- **A new item keeps the invariant.** -/
theorem inv_new {s : State} (hs : Inv s) {type : XccdfType} (htype : type ≠ .benchmark)
    (id clusterId : Option String) : Inv (xccdfItemNew s type id clusterId) := by
  have hfree : s.heap s.next = none := by
    cases hnext : s.heap s.next with
    | none => rfl
    | some item => exact absurd (hs.consistent.next _ item hnext) (Nat.lt_irrefl _)
  set heap' := (xccdfItemNew s type id clusterId).heap with hheap'
  have hnew : heap' s.next = some ⟨type, id, clusterId, none, [], []⟩ := Function.update_self ..
  have hold : ∀ y, y ≠ s.next → heap' y = s.heap y := fun y hy => Function.update_of_ne hy _ _
  have hkids : kids heap' = kids s.heap := by
    funext y
    rcases eq_or_ne y s.next with rfl | hne
    · rw [kids, kids, hnew, hfree]
      cases type <;> rfl
    · rw [kids, kids, hold y hne]
  have hup : up heap' = up s.heap := by
    funext y
    rcases eq_or_ne y s.next with rfl | hne
    · rw [up, up, hnew, hfree]
      rfl
    · rw [up, up, hold y hne]
  have hne : ∀ y, Live s y → y ≠ s.next := by
    rintro y hy rfl
    refine not_live_of_root ?_ hy
    rw [up, hfree, Option.bind_none]
  have hlive : ∀ y, Live (xccdfItemNew s type id clusterId) y ↔ Live s y := by
    intro y
    unfold Live
    rw [← hheap', hup]
    rfl
  obtain ⟨root, hroot, hrootType, hrootParent⟩ := hs.consistent.root
  have hrootNe : s.benchmark ≠ s.next := by
    intro heq
    rw [heq, hfree] at hroot
    cases hroot
  constructor
  · constructor
    · rw [← hheap', hkids, hup]
      exact hs.consistent.forest
    · intro x item hx
      rcases eq_or_ne x s.next with rfl | hxne
      · exact Nat.lt_succ_self _
      · rw [← hheap', hold x hxne] at hx
        exact Nat.lt_succ_of_lt (hs.consistent.next x item hx)
    · exact ⟨root, (hold _ hrootNe).trans hroot, hrootType, hrootParent⟩
    · intro x item hx hbench
      rcases eq_or_ne x s.next with rfl | hxne
      · rw [← hheap', hnew] at hx
        obtain rfl := Option.some.inj hx
        exact absurd hbench htype
      · rw [← hheap', hold x hxne] at hx
        exact hs.consistent.unique x item hx hbench
  · constructor
    · intro i x
      rw [hlive, ← hheap']
      refine (hs.registered.items i x).trans (and_congr_right fun hx => ?_)
      rw [idOf, idOf, hold x (hne x hx)]
    · intro c i x hc
      rw [hlive, ← hheap']
      refine (hs.registered.clusters c i x hc).trans (and_congr_right fun hx => ?_)
      rw [idOf, idOf, clusterOf, clusterOf, hold x (hne x hx)]
    · intro x hx
      have hx := (hlive x).mp hx
      rw [← hheap', clusterOf, idOf, hold x (hne x hx)]
      exact hs.registered.clustered x hx

/-! ### Renaming -/

/-- The dictionaries after an item of the tree outside the clusters is unregistered. -/
theorem unregister_live {s : State} (hs : Inv s) {x : ℕ} (hlive : Live s x) {item : XccdfItem}
    (hx : s.heap x = some item) (hcluster : item.cluster = "") :
    (∀ i y, (if item.id.isSome then (xccdfBenchmarkUnregisterItem s x).1
        else s.dicts).items.lookup i = some y ↔ s.dicts.items.lookup i = some y ∧ y ≠ x) ∧
      ∀ c i, c ≠ "" → (if item.id.isSome then (xccdfBenchmarkUnregisterItem s x).1
        else s.dicts).inCluster c i = s.dicts.inCluster c i := by
  have hidOf : idOf s.heap x = item.id := by rw [idOf, hx, Option.bind_some]
  cases hid : item.id with
  | none =>
      refine ⟨fun i y => (and_iff_left_of_imp ?_).symm, fun _ _ _ => rfl⟩
      rintro hy rfl
      have := ((hs.registered.items i y).mp hy).2
      rw [hidOf, hid] at this
      cases this
  | some id =>
      have hin := (hs.registered.items id x).mpr ⟨hlive, hidOf.trans hid⟩
      have hleave : xccdfBenchmarkUnregisterItem s x = leave s.dicts item := by
        rw [xccdfBenchmarkUnregisterItem, hx, hs.consistent.getBenchmark_eq.mpr ⟨rfl, hlive.2⟩]
      obtain ⟨hitems, hclusters⟩ := leave_spec hid (by rw [hin]; simp) (Or.inl hcluster)
      rw [if_pos Option.isSome_some, hleave]
      refine ⟨fun i y => ?_, fun c i hc => ?_⟩
      · rw [hitems]
        split
        · rename_i heq
          subst heq
          rw [hin]
          simp [eq_comm]
        · rename_i hne
          refine (and_iff_left_of_imp ?_).symm
          rintro hy rfl
          have := ((hs.registered.items i y).mp hy).2
          rw [hidOf, hid, Option.some.injEq] at this
          exact hne this.symm
      · rw [hclusters c i hc, if_neg]
        rintro ⟨rfl, -⟩
        exact hc hcluster

/-- The invariant after an item of the tree outside the clusters has its new id. -/
theorem Inv.renamed {s : State} (hs : Inv s) {x : ℕ} (hlive : Live s x)
    (hcluster : clusterOf s.heap x = "") (hsome : (s.heap x).isSome) {newid : Option String}
    {dicts : Dicts}
    (hitems : ∀ i y, dicts.items.lookup i = some y ↔
      s.dicts.items.lookup i = some y ∧ y ≠ x ∨ y = x ∧ newid = some i)
    (hclusters : ∀ c i, c ≠ "" → dicts.inCluster c i = s.dicts.inCluster c i) :
    Inv { s with heap := replaceId s.heap x newid, dicts := dicts } := by
  have htree : SameTree s.heap (replaceId s.heap x newid) := sameTree_replaceId newid
  have hlive' : ∀ y, Live { s with heap := replaceId s.heap x newid, dicts := dicts } y ↔
      Live s y := live_congr dicts htree
  have hother : ∀ y, y ≠ x → idOf (replaceId s.heap x newid) y = idOf s.heap y := by
    intro y hy
    rw [idOf_replaceId, if_neg fun h => hy h.1]
  have hself : idOf (replaceId s.heap x newid) x = newid := by
    rw [idOf_replaceId, if_pos ⟨rfl, hsome⟩]
  refine ⟨hs.consistent.of_sameTree dicts htree, fun i y => ?_, fun c i y hc => ?_,
    fun y hy => ?_⟩
  · rw [hlive']
    refine (hitems i y).trans ?_
    rcases eq_or_ne y x with rfl | hne
    · change _ ↔ _ ∧ idOf (replaceId s.heap y newid) y = some i
      rw [hself]
      simp [hlive]
    · change _ ↔ _ ∧ idOf (replaceId s.heap x newid) y = some i
      rw [hother y hne, hs.registered.items]
      simp [hne]
  · rw [hlive']
    change dicts.inCluster c i = some y ↔ _ ∧ idOf (replaceId s.heap x newid) y = some i ∧
      clusterOf (replaceId s.heap x newid) y = c
    rw [hclusters c i hc, hs.registered.clusters c i y hc, htree.eq.2.2]
    rcases eq_or_ne y x with rfl | hne
    · rw [hcluster]
      simp [hc.symm]
    · rw [hother y hne]
  · have hy := (hlive' y).mp hy
    change clusterOf (replaceId s.heap x newid) y ≠ "" →
      idOf (replaceId s.heap x newid) y ≠ none
    rw [htree.eq.2.2]
    intro hc
    rw [hother]
    · exact hs.registered.clustered y hy hc
    · rintro rfl
      exact hc hcluster

/-- **Renaming an item keeps the invariant.** -/
theorem inv_rename {s : State} (hs : Inv s) {x : ℕ} {newid : Option String}
    (hallowed : Allowed s (.setId x newid)) {s' : State} {b : Bool}
    (hstep : xccdfBenchmarkRenameItem s x newid = some (s', b)) : Inv s' := by
  obtain ⟨hsome, hne, hcond⟩ := hallowed
  obtain ⟨item, hx⟩ := Option.isSome_iff_exists.mp hsome
  rw [xccdfBenchmarkRenameItem, hx] at hstep
  by_cases hunder : Under (up s.heap) x s.benchmark
  · have hlive : Live s x := ⟨hne, hunder⟩
    have hbench := hs.consistent.getBenchmark_eq.mpr ⟨rfl, hunder⟩
    rw [hbench] at hstep hcond
    dsimp only at hstep
    split at hstep
    · obtain ⟨rfl, -⟩ := Prod.mk.inj (Option.some.inj hstep)
      exact hs
    · rename_i hfree
      have hclusterOf : clusterOf s.heap x = item.cluster := by rw [clusterOf, hx]; rfl
      have hcluster : clusterOf s.heap x = "" := by
        rcases hcond with h | h | h
        · cases h
        · exact h
        · exact absurd h hfree
      have hitemCluster := hclusterOf.symm.trans hcluster
      obtain ⟨hitems, hclusters⟩ := unregister_live hs hlive hx hitemCluster
      set dicts := if item.id.isSome then (xccdfBenchmarkUnregisterItem s x).1 else s.dicts
      cases newid with
      | none =>
          obtain ⟨rfl, -⟩ := Prod.mk.inj (Option.some.inj hstep)
          exact hs.renamed hlive hcluster hsome (by simpa using hitems) hclusters
      | some id =>
          have hnone : dicts.items.lookup id = none := by
            rw [Option.eq_none_iff_forall_ne_some]
            intro y hy
            refine hfree ?_
            rw [Option.any_some, ((hitems id y).mp hy).1]
            rfl
          have hadded : ∀ i y, (dicts.items.add id x).1.lookup i = some y ↔
              s.dicts.items.lookup i = some y ∧ y ≠ x ∨ y = x ∧ some id = some i := by
            intro i y
            rw [ChainedTable.lookup_add hnone]
            split
            · rename_i heq
              subst heq
              rw [← hitems, hnone]
              simp [eq_comm]
            · rename_i hi
              rw [hitems]
              simp [Ne.symm hi]
          have hregister : ∀ oldid, (registerItemToCluster
              { dicts with items := (dicts.items.add id x).1 } x oldid item).1 =
              { dicts with items := (dicts.items.add id x).1 } := by
            intro oldid
            rw [registerItemToCluster, if_pos hitemCluster]
          have hend : Inv { s with
              heap := replaceId s.heap x (some id)
              dicts := { dicts with items := (dicts.items.add id x).1 } } :=
            hs.renamed hlive hcluster hsome hadded hclusters
          cases hid : item.id with
          | none =>
              rw [hid] at hstep
              dsimp only at hstep
              rw [if_pos hitemCluster] at hstep
              obtain ⟨rfl, -⟩ := Prod.mk.inj (Option.some.inj hstep)
              exact hend
          | some oldid =>
              rw [hid] at hstep
              dsimp only at hstep
              rw [hregister] at hstep
              obtain ⟨rfl, -⟩ := Prod.mk.inj (Option.some.inj hstep)
              exact hend
  · rw [hs.consistent.getBenchmark_eq_none hunder] at hstep
    obtain ⟨rfl, -⟩ := Prod.mk.inj (Option.some.inj hstep)
    refine hs.of_outside (sameTree_replaceId newid) (fun y hy => ?_) (fun hlive => hunder hlive.2)
    rw [idOf_replaceId, if_neg fun h => hy h.1]

/-! ### Adding -/

/-- The item hangs from the parent: it has that parent and is in the lists of the parent once. -/
def Hangs (s : State) (p x : ℕ) : Prop :=
  up s.heap x = some p ∧ (kids s.heap p).count x = 1

/-- A new member keeps the other fields of the parent. -/
theorem addMember_fields (parent : XccdfItem) (type : XccdfType) (x : ℕ) :
    (parent.addMember type x).type = parent.type ∧ (parent.addMember type x).id = parent.id ∧
      (parent.addMember type x).cluster = parent.cluster ∧
      (parent.addMember type x).parent = parent.parent := by
  cases type <;> exact ⟨rfl, rfl, rfl, rfl⟩

/-- A new member is one more child. -/
theorem children_addMember {parent : XccdfItem}
    (h : parent.type = .benchmark ∨ parent.type = .group) (type : XccdfType) (x : ℕ) :
    (parent.addMember type x).children.Perm (x :: parent.children) := by
  have hchildren : ∀ item : XccdfItem, item.type = .benchmark ∨ item.type = .group →
      item.children = item.content ++ item.values := by
    rintro item (htype | htype) <;> rw [XccdfItem.children, htype]
  rw [hchildren parent h, hchildren _ (by rw [(addMember_fields parent type x).1]; exact h)]
  cases type with
  | value =>
      change (parent.content ++ (parent.values ++ [x])).Perm _
      rw [← List.append_assoc]
      exact List.perm_append_singleton x _
  | benchmark =>
      change (parent.content ++ [x] ++ parent.values).Perm _
      rw [List.append_assoc, List.singleton_append]
      exact List.perm_middle
  | group =>
      change (parent.content ++ [x] ++ parent.values).Perm _
      rw [List.append_assoc, List.singleton_append]
      exact List.perm_middle
  | rule =>
      change (parent.content ++ [x] ++ parent.values).Perm _
      rw [List.append_assoc, List.singleton_append]
      exact List.perm_middle

section Link

variable {heap : Heap} {p x : ℕ} (hne : p ≠ x)

include hne

/-- The items after one is linked to a parent. -/
theorem link_spec (y : ℕ) : link heap p x y =
    if y = p then (heap p).map fun parent =>
      parent.addMember (((heap x).map XccdfItem.type).getD .rule) x
    else if y = x then (heap x).map fun item => { item with parent := some p }
    else heap y := by
  unfold link
  rcases eq_or_ne y p with rfl | hyp
  · rw [Function.update_self, if_pos rfl, Function.update_of_ne hne, Function.update_self,
      Option.map_map]
    rfl
  · rw [Function.update_of_ne hyp, if_neg hyp]
    rcases eq_or_ne y x with rfl | hyx
    · rw [Function.update_self, if_pos rfl]
    · rw [Function.update_of_ne hyx, if_neg hyx]

/-- The ids and clusters after an item is linked to a parent. -/
theorem idOf_link : idOf (link heap p x) = idOf heap ∧
    clusterOf (link heap p x) = clusterOf heap := by
  refine ⟨funext fun y => ?_, funext fun y => ?_⟩
  · rw [idOf, link_spec hne, idOf]
    split
    · rename_i heq
      rw [heq]
      cases heap p with
      | none => rfl
      | some parent => exact (addMember_fields parent _ x).2.1
    · split
      · rename_i heq
        rw [heq]
        cases heap x <;> rfl
      · rfl
  · rw [clusterOf, link_spec hne, clusterOf]
    split
    · rename_i heq
      rw [heq]
      cases heap p with
      | none => rfl
      | some parent => exact (addMember_fields parent _ x).2.2.1
    · split
      · rename_i heq
        rw [heq]
        cases heap x <;> rfl
      · rfl

/-- The parents after an item is linked to a parent. -/
theorem up_link (hx : (heap x).isSome) :
    up (link heap p x) = Function.update (up heap) x (some p) := by
  funext y
  rw [up, link_spec hne]
  obtain ⟨item, hx⟩ := Option.isSome_iff_exists.mp hx
  split
  · rename_i heq
    rw [heq, Function.update_of_ne hne, up]
    cases heap p with
    | none => rfl
    | some parent => exact (addMember_fields parent _ x).2.2.2
  · split
    · rename_i heq
      rw [heq, Function.update_self, hx]
      rfl
    · rename_i hyx
      rw [Function.update_of_ne hyx, up]

/-- The children after an item is linked to a parent. -/
theorem kids_link {parent : XccdfItem} (hp : heap p = some parent)
    (htype : parent.type = .benchmark ∨ parent.type = .group) :
    (∀ z, z ≠ p → kids (link heap p x) z = kids heap z) ∧
      (kids (link heap p x) p).Perm (x :: kids heap p) := by
  constructor
  · intro z hz
    rw [kids, link_spec hne, if_neg hz, kids]
    split
    · rename_i heq
      rw [heq]
      cases heap x <;> rfl
    · rfl
  · rw [kids, link_spec hne, if_pos rfl, kids, hp]
    exact children_addMember htype _ x

/-- The types of items do not change when one is linked to a parent. -/
theorem link_type {y : ℕ} {item' : XccdfItem} (hy : link heap p x y = some item') :
    ∃ item, heap y = some item ∧ item.type = item'.type := by
  rw [link_spec hne] at hy
  split at hy
  · rename_i heq
    obtain ⟨item, hitem, rfl⟩ := Option.map_eq_some_iff.mp hy
    exact ⟨item, heq ▸ hitem, (addMember_fields item _ x).1.symm⟩
  · split at hy
    · rename_i heq
      obtain ⟨item, hitem, rfl⟩ := Option.map_eq_some_iff.mp hy
      exact ⟨item, heq ▸ hitem, rfl⟩
    · exact ⟨item', hy, rfl⟩

/-- Items other than the new member keep their type and parent. -/
theorem link_of_ne {y : ℕ} (hy : y ≠ x) {item : XccdfItem} (hitem : heap y = some item) :
    ∃ item', link heap p x y = some item' ∧ item'.type = item.type ∧
      item'.parent = item.parent := by
  rw [link_spec hne, if_neg hy]
  split
  · rename_i heq
    rw [← heq, hitem]
    obtain ⟨htype, -, -, hparent⟩ :=
      addMember_fields item (((heap x).map XccdfItem.type).getD .rule) x
    exact ⟨_, rfl, htype, hparent⟩
  · exact ⟨item, hitem, rfl, rfl⟩

end Link

/-- The forest after a root is linked to an item of the benchmark. -/
theorem Consistent.linked {s : State} (hs : Consistent s) {p x : ℕ} {parent : XccdfItem}
    (hp : s.heap p = some parent) (htype : parent.type = .benchmark ∨ parent.type = .group)
    (hunder : Under (up s.heap) p s.benchmark) (hx : (s.heap x).isSome)
    (hroot : up s.heap x = none) (hne : x ≠ s.benchmark) (dicts : Dicts) :
    Consistent { s with heap := link s.heap p x, dicts := dicts } ∧
      Hangs { s with heap := link s.heap p x, dicts := dicts } p x ∧
      ∀ y, Live { s with heap := link s.heap p x, dicts := dicts } y ↔
        Live s y ∨ Under (up s.heap) y x := by
  have hpx : ¬ Under (up s.heap) p x := by
    intro h
    rcases under_total h hunder with h' | h'
    · exact hne (h'.eq_of_root hroot)
    · exact hne (h'.eq_of_root hs.up_benchmark).symm
  have hpne : p ≠ x := fun h => hpx (h ▸ Under.refl _ _)
  obtain ⟨hkids, hperm⟩ := kids_link hpne hp htype
  have hforest := hs.forest.attach hroot hpx hkids hperm
  rw [← up_link hpne hx] at hforest
  obtain ⟨root, hrootItem, hrootType, hrootParent⟩ := hs.root
  obtain ⟨root', hroot', hrootType', hrootParent'⟩ := link_of_ne hpne hne.symm hrootItem
  refine ⟨⟨hforest, ?_, ⟨root', hroot', hrootType'.trans hrootType,
    hrootParent'.trans hrootParent⟩, ?_⟩, ⟨?_, ?_⟩, fun y => ?_⟩
  · intro y item' hy
    obtain ⟨item, hitem, -⟩ := link_type hpne hy
    exact hs.next y item hitem
  · intro y item' hy hbench
    obtain ⟨item, hitem, htypeEq⟩ := link_type hpne hy
    exact hs.unique y item hitem (htypeEq.trans hbench)
  · change up (link s.heap p x) x = some p
    rw [up_link hpne hx, Function.update_self]
  · change (kids (link s.heap p x) p).count x = 1
    rw [hforest.count_eq, up_link hpne hx, Function.update_self, if_pos rfl]
  · change y ≠ s.benchmark ∧ Under (up (link s.heap p x)) y s.benchmark ↔ _
    rw [up_link hpne hx, under_attach hroot hpx]
    constructor
    · rintro ⟨hy, h | ⟨h, -⟩⟩
      · exact Or.inl ⟨hy, h⟩
      · exact Or.inr h
    · rintro (h | h)
      · exact ⟨h.1, Or.inl h.2⟩
      · refine ⟨?_, Or.inr ⟨h, hunder⟩⟩
        rintro rfl
        exact hne (h.eq_of_root hs.up_benchmark).symm

/-- Registering an item without id, or whose id is taken by another one, does nothing. -/
theorem register_fails {heap : Heap} {dicts : Dicts} {x : ℕ} (hx : (heap x).isSome)
    (hother : ∀ i, dicts.items.lookup i ≠ some x)
    (h : idOf heap x = none ∨ (idOf heap x).any fun id => (dicts.items.lookup id).isSome)
    (fuel : ℕ) : xccdfBenchmarkRegisterItem heap (fuel + 1) dicts x = (dicts, false) := by
  obtain ⟨item, hx⟩ := Option.isSome_iff_exists.mp hx
  have hidOf : idOf heap x = item.id := by rw [idOf, hx, Option.bind_some]
  rw [xccdfBenchmarkRegisterItem, hx]
  dsimp only
  cases hid : item.id with
  | none => rfl
  | some id =>
      rw [hidOf, hid, Option.any_some] at h
      obtain ⟨found, hfound⟩ := Option.isSome_iff_exists.mp (h.resolve_left (by simp))
      dsimp only
      rw [hfound]
      refine Prod.ext rfl (decide_eq_false ?_)
      rintro rfl
      exact hother id hfound

/-- Items of a tree that can be entered are free. -/
theorem TreeFree.fresh {s : State} (hs : Inv s) {heap : Heap} {x : ℕ} (h : TreeFree s heap x) :
    Fresh heap (subtree s x) s.dicts := by
  obtain ⟨hitems, hnodup, -⟩ := h
  have hnone : ∀ y ∈ subtree s x, ∀ i, idOf heap y = some i → s.dicts.items.lookup i = none := by
    intro y hy i hi
    have hfree := hitems y hy
    rw [hi, Option.all_some, Option.isNone_iff_eq_none] at hfree
    exact hfree
  refine ⟨hnone, fun y hy i hi c hc => ?_, hnodup⟩
  rw [Option.eq_none_iff_forall_ne_some]
  intro z hz
  obtain ⟨hlive, hzi, -⟩ := (hs.registered.clusters c i z hc).mp hz
  have := (hs.registered.items i z).mpr ⟨hlive, hzi⟩
  rw [hnone y hy i hi] at this
  cases this

/-- **Adding an item keeps the invariant, and an item that was added hangs from its parent.** -/
theorem add_spec {s : State} (hs : Inv s) {p x : ℕ} (hallowed : Allowed s (.add p x)) :
    Inv (xccdfAddItem s p x).1 ∧
      ((xccdfAddItem s p x).2 = true → Hangs (xccdfAddItem s p x).1 p x) := by
  obtain ⟨hbench, hcontainer, hx, hroot, hne, hids⟩ := hallowed
  obtain ⟨hsame, hother⟩ := withId_spec s x
  have hnotLive : ¬ Live s x := not_live_of_root hroot
  have hs₁ := hs.of_outside hsame hother hnotLive
  obtain ⟨hkids, hup, hclusterOf⟩ := hsame.eq
  have hx₁ : (withId s x x).isSome := by
    have := congrArg Option.isSome (hsame x)
    rw [Option.isSome_map, Option.isSome_map] at this
    rw [this, hx]
  have hunder := (hs.consistent.getBenchmark_eq.mp hbench).2
  unfold xccdfAddItem
  rw [hbench]
  dsimp only
  rw [← or_assoc] at hids
  rcases hids with hfails | hfree
  · rw [register_fails hx₁ (fun i hi => hnotLive ((hs.registered.items i x).mp hi).1) hfails]
    exact ⟨hs₁, fun h => absurd h (by simp)⟩
  · rcases eq_or_ne (idOf (withId s x) x) none with hid | hid
    · rw [register_fails hx₁ (fun i hi => hnotLive ((hs.registered.items i x).mp hi).1)
        (Or.inl hid)]
      exact ⟨hs₁, fun h => absurd h (by simp)⟩
    obtain ⟨l, hl, hmem, -, hle, halloc⟩ := hs₁.consistent.exists_walk
      (Option.isSome_iff_exists.mp hx₁) hne
    have hsub : subtree s x = l := by
      rw [subtree, ← hkids]
      exact hl.visit_eq hle
    have hfresh := hfree.fresh hs
    obtain ⟨-, -, hnone⟩ := hfree
    rw [hsub] at hfresh hnone
    obtain ⟨hsnd, henters⟩ := register_tree hl halloc (fun y hy hyid => (hnone y hy hyid).2)
      (show l.length ≤ s.next + 1 from Nat.le_succ_of_le hle) hfresh hid
    rw [if_pos hsnd]
    set dicts := (xccdfBenchmarkRegisterItem (withId s x) (s.next + 1) s.dicts x).1
    obtain ⟨parent, hp, hptype⟩ : ∃ parent, withId s x p = some parent ∧
        (parent.type = .benchmark ∨ parent.type = .group) := by
      have hback := hsame p
      cases hp : s.heap p with
      | none =>
          rw [hp] at hcontainer
          cases hcontainer
      | some parent =>
          rw [hp, Option.map_some] at hback
          obtain ⟨parent', hp', heq⟩ := Option.map_eq_some_iff.mp hback
          obtain ⟨htype, -⟩ := XccdfItem.mk.inj heq
          rw [hp] at hcontainer
          simp only [Option.any_some, Bool.or_eq_true, decide_eq_true_eq] at hcontainer
          exact ⟨parent', hp', htype ▸ hcontainer⟩
    have hpne : p ≠ x := by
      rintro rfl
      exact hne (hunder.eq_of_root hroot)
    obtain ⟨hconsistent, hhangs, hlive⟩ := hs₁.consistent.linked hp hptype (by rwa [hup]) hx₁
      (by rwa [hup]) hne dicts
    refine ⟨⟨hconsistent, ?_⟩, fun _ => hhangs⟩
    obtain ⟨hidOf, hcluster⟩ : idOf (link (withId s x) p x) = idOf (withId s x) ∧
        clusterOf (link (withId s x) p x) = clusterOf (withId s x) := idOf_link hpne
    refine ⟨fun i y => ?_, fun c i y hc => ?_, fun y hy => ?_⟩
    · rw [hlive y]
      change dicts.items.lookup i = some y ↔ _ ∧ idOf (link (withId s x) p x) y = some i
      rw [henters.items, hidOf, hmem, or_and_right]
      exact or_congr_left (hs₁.registered.items i y)
    · rw [hlive y]
      change dicts.inCluster c i = some y ↔ _ ∧ idOf (link (withId s x) p x) y = some i ∧
        clusterOf (link (withId s x) p x) y = c
      rw [henters.clusters c i y hc, hidOf, hcluster, hmem, or_and_right]
      exact or_congr_left (hs₁.registered.clusters c i y hc)
    · change clusterOf (link (withId s x) p x) y ≠ "" → idOf (link (withId s x) p x) y ≠ none
      rw [hidOf, hcluster]
      rcases (hlive y).mp hy with hy | hy
      · exact hs₁.registered.clustered y hy
      · intro hc hyid
        exact hc (hnone y ((hmem y).mpr hy) hyid).1

/-- **Adding a root to a parent outside the benchmark succeeds and leaves it a root.** -/
theorem not_hangs_outside {s : State} (hs : Consistent s) {p x : ℕ}
    (hp : ¬ Under (up s.heap) p s.benchmark) (hx : up s.heap x = none) :
    (xccdfAddItem s p x).2 = true ∧ ¬ Hangs (xccdfAddItem s p x).1 p x := by
  have hadd : xccdfAddItem s p x = (s, true) := by
    rw [xccdfAddItem, hs.getBenchmark_eq_none hp]
  rw [hadd]
  refine ⟨rfl, fun h => ?_⟩
  rw [Hangs, hx] at h
  cases h.1

/-! ### Removing -/

/-- An item that is detached from a list changes no other field. -/
theorem detached_map (heap : Heap) {α : Type} (f : XccdfItem → α)
    (hf : ∀ parent x, f (parent.detachMember x) = f parent) (x y : ℕ) :
    (detached heap x y).map f = (heap y).map f := by
  unfold detached
  cases up heap x with
  | none => rfl
  | some p =>
      dsimp only
      rcases eq_or_ne y p with rfl | hne
      · rw [Function.update_self, Option.map_map]
        exact Option.map_congr fun parent _ => hf parent x
      · rw [Function.update_of_ne hne]

/-- The parents, ids, clusters and benchmarks after an item is detached from a list. -/
theorem detached_spec (heap : Heap) (x : ℕ) :
    up (detached heap x) = up heap ∧ idOf (detached heap x) = idOf heap ∧
      clusterOf (detached heap x) = clusterOf heap ∧
      ∀ n y, xccdfItemGetBenchmark (detached heap x) n y = xccdfItemGetBenchmark heap n y := by
  have hup : up (detached heap x) = up heap := by
    funext y
    have := congrArg (Option.bind · id)
      (detached_map heap XccdfItem.parent (fun _ _ => rfl) x y)
    rw [Option.bind_map, Option.bind_map] at this
    exact this
  refine ⟨hup, funext fun y => ?_, funext fun y => ?_, fun n y => ?_⟩
  · have := congrArg (Option.bind · id)
      (detached_map heap XccdfItem.id (fun _ _ => rfl) x y)
    rw [Option.bind_map, Option.bind_map] at this
    exact this
  · exact congrArg (Option.getD · "")
      (detached_map heap XccdfItem.cluster (fun _ _ => rfl) x y)
  · unfold xccdfItemGetBenchmark
    rw [hup]
    cases topmost (up heap) (n + 1) y with
    | none => rfl
    | some root =>
        have := congrArg (Option.any fun type => type = .benchmark)
          (detached_map heap XccdfItem.type (fun _ _ => rfl) x root)
        rw [Option.any_map, Option.any_map] at this
        rw [Option.filter_some, Option.filter_some]
        exact if_congr (by rw [this]) rfl rfl

/-- Erasing from one of two lists is erasing from both. -/
theorem erase_append {x : ℕ} {l m : List ℕ} (h : (l ++ m).count x = 1) :
    l.erase x ++ m.erase x = (l ++ m).erase x := by
  by_cases hx : x ∈ l
  · have hpos := List.count_pos_iff.mpr hx
    rw [List.count_append] at h
    have hm : x ∉ m := List.count_eq_zero.mp (by omega)
    rw [List.erase_append_left _ hx, List.erase_of_not_mem hm]
  · rw [List.erase_append_right _ hx, List.erase_of_not_mem hx]

/-- The children after an item is detached from the list of its parent. -/
theorem kids_detached {heap : Heap} (h : Forest (kids heap) (up heap)) (x y : ℕ) :
    kids (detached heap x) y = (kids heap y).erase x := by
  have hother : up heap x ≠ some y → (kids heap y).erase x = kids heap y :=
    fun hne => List.erase_of_not_mem fun hmem => hne (h.mem_kids.mp hmem)
  unfold detached
  cases hup : up heap x with
  | none => rw [hother (by simp [hup])]
  | some p =>
      dsimp only
      rcases eq_or_ne y p with rfl | hne
      · have hcount := h.count_eq x y
        unfold kids at hcount ⊢
        rw [Function.update_self]
        cases hy : heap y with
        | none => rfl
        | some parent =>
            rw [hy, if_pos hup] at hcount
            simp only [Option.map_some, Option.getD_some] at hcount ⊢
            unfold XccdfItem.children at hcount ⊢
            unfold XccdfItem.detachMember
            cases htype : parent.type with
            | rule => rfl
            | value => rfl
            | benchmark =>
                rw [htype] at hcount
                exact erase_append hcount
            | group =>
                rw [htype] at hcount
                exact erase_append hcount
      · rw [hother (by rw [hup]; exact fun heq => hne (Option.some.inj heq).symm), kids,
          Function.update_of_ne hne, kids]

/-- The items below an item are with it in the tree or outside. -/
theorem Consistent.live_iff_of_under {s : State} (hs : Consistent s) {x y : ℕ}
    (hne : x ≠ s.benchmark) (hyx : Under (up s.heap) y x) :
    Under (up s.heap) y s.benchmark ↔ Under (up s.heap) x s.benchmark := by
  constructor
  · intro hy
    rcases under_total hyx hy with h | h
    · exact h
    · exact absurd (h.eq_of_root hs.up_benchmark).symm hne
  · exact hyx.trans

/-- The items without those of a list. -/
def without (heap : Heap) (l : List ℕ) : Heap := fun y => if y ∈ l then none else heap y

section Remove

variable {s : State} (hs : Inv s) {x : ℕ} {l : List ℕ} (hne : x ≠ s.benchmark)
  (hl : Visits (kids s.heap) [x] l) (hle : l.length ≤ s.next)
  (halloc : ∀ y ∈ l, ∃ item, s.heap y = some item ∧ item.type ≠ .benchmark)

include hs hne hl hle halloc in
/-- **Removing an item frees it with all that lies below it.** -/
theorem remove_eq : xccdfItemRemove s x =
    { s with
      heap := without (detached s.heap x) l
      dicts := if (xccdfItemGetBenchmark s.heap s.next x).isSome
        then l.foldl (leaveAt (detached s.heap x)) s.dicts else s.dicts } := by
  obtain ⟨hup, -, -, hbenchEq⟩ := detached_spec s.heap x
  have hforest := hs.consistent.forest
  have hmem : ∀ y, y ∈ l ↔ Under (up s.heap) y x := fun y => hforest.mem_visits_singleton hl
  have hwalk : Visits (kids (detached s.heap x)) [x] l := hl.congr fun y hy => by
    rw [kids_detached hforest, List.erase_of_not_mem]
    exact fun hxy => hforest.not_under_of_up (hforest.mem_kids.mp hxy) ((hmem y).mp hy)
  have halloc' : ∀ y ∈ l, ∃ item, detached s.heap x y = some item ∧ item.type ≠ .benchmark := by
    intro y hy
    obtain ⟨item, hitem, htype⟩ := halloc y hy
    have hsame := detached_map s.heap XccdfItem.type (fun _ _ => rfl) x y
    rw [hitem, Option.map_some] at hsame
    obtain ⟨item', hitem', htype'⟩ := Option.map_eq_some_iff.mp hsame
    exact ⟨item', hitem', htype' ▸ htype⟩
  have hbench : ∀ y ∈ l, xccdfItemGetBenchmark (detached s.heap x) s.next y =
      xccdfItemGetBenchmark s.heap s.next x := by
    intro y hy
    have hiff := hs.consistent.live_iff_of_under hne ((hmem y).mp hy)
    rw [hbenchEq]
    by_cases hxb : Under (up s.heap) x s.benchmark
    · rw [hs.consistent.getBenchmark_eq.mpr ⟨rfl, hxb⟩,
        hs.consistent.getBenchmark_eq.mpr ⟨rfl, hiff.mpr hxb⟩]
    · rw [hs.consistent.getBenchmark_eq_none hxb,
        hs.consistent.getBenchmark_eq_none fun hy => hxb (hiff.mp hy)]
  have hfree := free_eq (s := { s with heap := detached s.heap x }) hwalk halloc'
    (hforest.nodup_visits hl) { s with heap := detached s.heap x } (fun _ _ => rfl)
    (show l.length ≤ s.next + 1 from Nat.le_succ_of_le hle)
  rw [foldl_release (s := { s with heap := detached s.heap x })
    (by rw [hup]; exact hforest.postorder_singleton hl) hbench _ rfl fun _ _ _ _ => rfl] at hfree
  exact hfree

variable (dicts' : Dicts)

include hs hne hl in
/-- **The forest and the tree of the benchmark after a subtree is taken out.** -/
theorem Consistent.removed : Consistent { s with
      heap := without (detached s.heap x) l, dicts := dicts' } ∧
    ∀ y, Live { s with heap := without (detached s.heap x) l, dicts := dicts' } y ↔
      Live s y ∧ y ∉ l := by
  obtain ⟨hup, -, -, -⟩ := detached_spec s.heap x
  have hforest := hs.consistent.forest
  have hmem : ∀ y, y ∈ l ↔ Under (up s.heap) y x := fun y => hforest.mem_visits_singleton hl
  set heap' := without (detached s.heap x) l with hheap'
  have hgone : ∀ y, Under (up s.heap) y x → heap' y = none :=
    fun y hy => if_pos ((hmem y).mpr hy)
  have hkept : ∀ y, ¬ Under (up s.heap) y x → heap' y = detached s.heap x y :=
    fun y hy => if_neg fun hmem' => hy ((hmem y).mp hmem')
  have hold : ∀ y item', heap' y = some item' → ∃ item, s.heap y = some item ∧
      item.type = item'.type := by
    intro y item' hy
    have hy' : detached s.heap x y = some item' := by
      rw [hheap', without] at hy
      split at hy
      · cases hy
      · exact hy
    have hsame := detached_map s.heap XccdfItem.type (fun _ _ => rfl) x y
    rw [hy', Option.map_some] at hsame
    exact Option.map_eq_some_iff.mp hsame.symm
  have hroot : ¬ Under (up s.heap) s.benchmark x :=
    fun h => hne (h.eq_of_root hs.consistent.up_benchmark).symm
  have hupGone : ∀ y, Under (up s.heap) y x → up heap' y = none := by
    intro y hy
    rw [up, hgone y hy, Option.bind_none]
  have hupKept : ∀ y, ¬ Under (up s.heap) y x → up heap' y = up s.heap y := by
    intro y hy
    rw [up, hkept y hy, ← up, hup]
  refine ⟨⟨?_, ?_, ?_, ?_⟩, fun y => ?_⟩
  · refine hforest.prune hupGone hupKept (fun z hz => ?_) (fun z hz => ?_)
    · change kids heap' z = []
      rw [kids, hgone z hz]
      rfl
    · change kids heap' z = _
      rw [kids, hkept z hz, ← kids, kids_detached hforest]
  · intro y item' hy
    obtain ⟨item, hitem, -⟩ := hold y item' hy
    exact hs.consistent.next y item hitem
  · obtain ⟨root, hrootItem, hrootType, -⟩ := hs.consistent.root
    have htype := detached_map s.heap XccdfItem.type (fun _ _ => rfl) x s.benchmark
    rw [hrootItem, Option.map_some] at htype
    obtain ⟨root', hroot', htype'⟩ := Option.map_eq_some_iff.mp htype
    refine ⟨root', (hkept _ hroot).trans hroot', htype'.trans hrootType, ?_⟩
    have hparent := hs.consistent.up_benchmark
    rw [← hup, up, hroot', Option.bind_some] at hparent
    exact hparent
  · intro y item' hy hbenchType
    obtain ⟨item, hitem, htype⟩ := hold y item' hy
    exact hs.consistent.unique y item hitem (htype.trans hbenchType)
  · change y ≠ s.benchmark ∧ Under (up heap') y s.benchmark ↔ _
    rw [hmem]
    by_cases hy : Under (up s.heap) y x
    · refine iff_of_false ?_ (fun h => h.2 hy)
      rintro ⟨hyne, h⟩
      exact hyne (h.eq_of_root (hupGone y hy))
    · rw [under_prune hupGone hupKept hy]
      exact (and_iff_left hy).symm

variable {dicts'}

include hs hl in
/-- **The dictionaries after the items below an item of the benchmark are taken out.** -/
theorem dicts_removed (hlive : Under (up s.heap) x s.benchmark) (hne : x ≠ s.benchmark)
    (hkey : ∀ y ∈ l, clusterOf s.heap y = "" ∨ idOf s.heap y = some (clusterOf s.heap y))
    (hdicts : dicts' = l.foldl (leaveAt (detached s.heap x)) s.dicts) :
    (∀ i y, dicts'.items.lookup i = some y ↔ s.dicts.items.lookup i = some y ∧ y ∉ l) ∧
      ∀ c i y, c ≠ "" →
        (dicts'.inCluster c i = some y ↔ s.dicts.inCluster c i = some y ∧ y ∉ l) := by
  obtain ⟨-, hidOf, hclusterOf, -⟩ := detached_spec s.heap x
  have hforest := hs.consistent.forest
  have hin : ∀ y ∈ l, ∀ i, idOf s.heap y = some i → s.dicts.items.lookup i = some y := by
    intro y hy i hi
    have hyx := (hforest.mem_visits_singleton hl).mp hy
    refine (hs.registered.items i y).mpr ⟨⟨?_, hyx.trans hlive⟩, hi⟩
    rintro rfl
    exact hne (hyx.eq_of_root hs.consistent.up_benchmark).symm
  have hunique : ∀ y ∈ l, ∀ i z, idOf s.heap y = some i → s.dicts.items.lookup i = some z →
      y = z := by
    intro y hy i z hi hz
    exact Option.some.inj ((hin y hy i hi).symm.trans hz)
  have hleaves : Leaves (detached s.heap x) l s.dicts
      (l.foldl (leaveAt (detached s.heap x)) s.dicts) := leaves_foldl
    (by rw [hidOf]; exact fun y hy i hi h => by rw [hin y hy i hi] at h; cases h)
    (by rw [hidOf, hclusterOf]; exact hkey)
    (by
      rw [hidOf]
      refine List.pairwise_filterMap.mpr ((hforest.nodup_visits hl).imp_of_mem ?_)
      rintro y z hy hz hyz i hi _ hi' rfl
      exact hyz (hunique y hy i z hi (hin z hz i hi')))
  rw [← hdicts] at hleaves
  refine ⟨fun i y => ?_, fun c i y hc => ?_⟩
  · rw [hleaves.items, hidOf]
    refine and_congr_right fun hy => ⟨fun h hyl => ?_, fun h z hz hzi => ?_⟩
    · exact h y hyl ((hs.registered.items i y).mp hy).2
    · exact h (hunique z hz i y hzi hy ▸ hz)
  · rw [hleaves.clusters c i y hc, hidOf, hclusterOf]
    refine and_congr_right fun hy => ?_
    obtain ⟨hylive, hyi, hyc⟩ := (hs.registered.clusters c i y hc).mp hy
    refine ⟨fun h hyl => h y hyl ⟨hyi, hyc⟩, fun h z hz hzi => ?_⟩
    exact h (hunique z hz i y hzi.1 ((hs.registered.items i y).mpr ⟨hylive, hyi⟩) ▸ hz)

end Remove

/-- **Removing an item keeps the invariant.** -/
theorem inv_remove {s : State} (hs : Inv s) {x : ℕ} (hallowed : Allowed s (.remove x)) :
    Inv (xccdfItemRemove s x) := by
  obtain ⟨hx, hne, hcond⟩ := hallowed
  obtain ⟨l, hl, hmem, hnodup, hle, halloc⟩ :=
    hs.consistent.exists_walk (Option.isSome_iff_exists.mp hx) hne
  obtain ⟨-, hidOf, hclusterOf, -⟩ := detached_spec s.heap x
  rw [remove_eq hs hne hl hle halloc]
  obtain ⟨hconsistent, hlive⟩ := Consistent.removed hs hne hl
    (if (xccdfItemGetBenchmark s.heap s.next x).isSome
      then l.foldl (leaveAt (detached s.heap x)) s.dicts else s.dicts)
  set dicts' := if (xccdfItemGetBenchmark s.heap s.next x).isSome
    then l.foldl (leaveAt (detached s.heap x)) s.dicts else s.dicts with hdicts'
  have hdicts : (∀ i y, dicts'.items.lookup i = some y ↔
        s.dicts.items.lookup i = some y ∧ y ∉ l) ∧
      ∀ c i y, c ≠ "" →
        (dicts'.inCluster c i = some y ↔ s.dicts.inCluster c i = some y ∧ y ∉ l) := by
    by_cases hxb : Under (up s.heap) x s.benchmark
    · have hbench := hs.consistent.getBenchmark_eq.mpr ⟨rfl, hxb⟩
      rw [hbench, subtree_eq hl hle] at hcond
      rw [hbench] at hdicts'
      exact dicts_removed hs hl hxb hne (hcond.resolve_left (by simp)) hdicts'
    · have hbench := hs.consistent.getBenchmark_eq_none hxb
      rw [hbench] at hdicts'
      have hout : ∀ y, Live s y → y ∉ l := by
        rintro y ⟨-, hy⟩ hyl
        exact hxb ((hs.consistent.live_iff_of_under hne ((hmem y).mp hyl)).mp hy)
      rw [hdicts']
      refine ⟨fun i y => (and_iff_left_of_imp fun hy => ?_).symm,
        fun c i y hc => (and_iff_left_of_imp fun hy => ?_).symm⟩
      · exact hout y ((hs.registered.items i y).mp hy).1
      · exact hout y ((hs.registered.clusters c i y hc).mp hy).1
  have hkept : ∀ y, y ∉ l → idOf (without (detached s.heap x) l) y = idOf s.heap y ∧
      clusterOf (without (detached s.heap x) l) y = clusterOf s.heap y := by
    intro y hy
    have heq : without (detached s.heap x) l y = detached s.heap x y := if_neg hy
    rw [← hidOf, ← hclusterOf, idOf, clusterOf, heq]
    exact ⟨rfl, rfl⟩
  refine ⟨hconsistent, fun i y => ?_, fun c i y hc => ?_, fun y hy => ?_⟩
  · rw [hlive]
    refine (hdicts.1 i y).trans ?_
    rw [hs.registered.items, and_right_comm]
    refine and_congr_right fun hy => ?_
    change _ ↔ idOf (without (detached s.heap x) l) y = some i
    rw [(hkept y hy.2).1]
  · rw [hlive]
    refine (hdicts.2 c i y hc).trans ?_
    rw [hs.registered.clusters c i y hc, and_right_comm]
    refine and_congr_right fun hy => ?_
    change _ ↔ idOf (without (detached s.heap x) l) y = some i ∧
      clusterOf (without (detached s.heap x) l) y = c
    rw [(hkept y hy.2).1, (hkept y hy.2).2]
  · obtain ⟨hylive, hyl⟩ := (hlive y).mp hy
    change clusterOf (without (detached s.heap x) l) y ≠ "" →
      idOf (without (detached s.heap x) l) y ≠ none
    rw [(hkept y hyl).1, (hkept y hyl).2]
    exact hs.registered.clustered y hylive

/-! ### Runs -/

/-- An empty benchmark next to items that do not belong to it yet. -/
structure Initial (s : State) : Prop where
  consistent : Consistent s
  empty : kids s.heap s.benchmark = []
  dicts : s.dicts = ⟨ChainedTable.empty, fun _ => none⟩

/-- Nothing is in the tree of an empty benchmark. -/
theorem Initial.inv {s : State} (hs : Initial s) : Inv s := by
  have hlive : ∀ x, ¬ Live s x := by
    rintro x ⟨hne, hx⟩
    obtain ⟨c, -, hc⟩ := (Relation.ReflTransGen.cases_tail hx).resolve_left (Ne.symm hne)
    have hmem := hs.consistent.forest.mem_kids.mpr hc
    rw [hs.empty] at hmem
    cases hmem
  refine ⟨hs.consistent, fun i x => ?_, fun c i x _ => ?_, fun x hx => absurd hx (hlive x)⟩
  · rw [hs.dicts]
    refine iff_of_false ?_ fun h => hlive x h.1
    simp
  · rw [hs.dicts]
    refine iff_of_false ?_ fun h => hlive x h.1
    simp [Dicts.inCluster]

/-- A call that meets the condition keeps the invariant. -/
theorem inv_step {s s' : State} {op : Op} (hs : Inv s) (hallowed : Allowed s op)
    (hstep : step s op = some s') : Inv s' := by
  cases op with
  | new type id clusterId =>
      obtain rfl := Option.some.inj hstep
      exact inv_new hs hallowed id clusterId
  | add p x =>
      obtain rfl := Option.some.inj hstep
      exact (add_spec hs hallowed).1
  | setId x newid =>
      obtain ⟨⟨t, b⟩, hrename, rfl⟩ := Option.map_eq_some_iff.mp hstep
      exact inv_rename hs hallowed hrename
  | remove x =>
      obtain rfl := Option.some.inj hstep
      exact inv_remove hs hallowed

/-- What the lookups should say of the tree: an id finds the item of the tree that has it, two
items of the tree have different ids, and going through a cluster meets, under their ids, the
items of the tree that have this cluster id, each once. -/
structure Correct (s : State) : Prop where
  getItem : ∀ id x, xccdfBenchmarkGetItem s id = some x ↔
    Live s x ∧ idOf s.heap x = some id
  unique : ∀ id x y, Live s x → Live s y → idOf s.heap x = some id → idOf s.heap y = some id →
    x = y
  cluster : ∀ c x, c ≠ "" → Live s x → clusterOf s.heap x = c →
    ((xccdfBenchmarkGetClusterItems s c).map Prod.snd).count x = 1
  clusterOnly : ∀ c id x, c ≠ "" → (id, x) ∈ xccdfBenchmarkGetClusterItems s c →
    Live s x ∧ clusterOf s.heap x = c ∧ idOf s.heap x = some id

/-- How often an entry of a cluster is met. -/
theorem count_getClusterItems (s : State) (c id : String) (x : ℕ) :
    (xccdfBenchmarkGetClusterItems s c).count (id, x) =
      if s.dicts.inCluster c id = some x then 1 else 0 := by
  have hsize : ∀ k, oscapHtableHash k < defaultHsize := fun k => Nat.mod_lt _ (by decide)
  unfold xccdfBenchmarkGetClusterItems Dicts.inCluster
  cases s.dicts.clusters c with
  | none => simp
  | some table =>
      rw [Option.map_some, Option.getD_some, Option.bind_some,
        ← ChainedTable.count_entries hsize, ChainedTable.count_reduceOption]

/-- The entries of a cluster. -/
theorem mem_getClusterItems {s : State} {c id : String} {x : ℕ} :
    (id, x) ∈ xccdfBenchmarkGetClusterItems s c ↔ s.dicts.inCluster c id = some x := by
  rw [← List.count_pos_iff, count_getClusterItems]
  split <;> simp_all

/-- No entry of a cluster is met twice. -/
theorem nodup_getClusterItems (s : State) (c : String) :
    (xccdfBenchmarkGetClusterItems s c).Nodup := by
  rw [List.nodup_iff_count_le_one]
  rintro ⟨id, x⟩
  rw [count_getClusterItems]
  split <;> omega

/-- **The invariant makes the lookups right.** -/
theorem Inv.correct {s : State} (hs : Inv s) : Correct s := by
  have hentry : ∀ c id x, c ≠ "" → ((id, x) ∈ xccdfBenchmarkGetClusterItems s c ↔
      Live s x ∧ idOf s.heap x = some id ∧ clusterOf s.heap x = c) := by
    intro c id x hc
    rw [mem_getClusterItems, hs.registered.clusters c id x hc]
  refine ⟨hs.registered.items, fun id x y hx hy hxid hyid => ?_, fun c x hc hx hxc => ?_,
    fun c id x hc hmem => ?_⟩
  · have hfound := (hs.registered.items id x).mpr ⟨hx, hxid⟩
    rw [(hs.registered.items id y).mpr ⟨hy, hyid⟩] at hfound
    exact (Option.some.inj hfound).symm
  · obtain ⟨id, hid⟩ := Option.ne_none_iff_exists'.mp
      (hs.registered.clustered x hx (hxc ▸ hc))
    have hmem := (hentry c id x hc).mpr ⟨hx, hid, hxc⟩
    refine List.count_eq_one_of_mem ?_ (List.mem_map_of_mem hmem)
    refine (nodup_getClusterItems s c).map_on ?_
    rintro ⟨i, y⟩ hy ⟨j, z⟩ hz (rfl : y = z)
    have hi := ((hentry c i y hc).mp hy).2.1
    have hj := ((hentry c j y hc).mp hz).2.1
    rw [hi] at hj
    rw [Option.some.inj hj]
  · obtain ⟨hx, hid, hxc⟩ := (hentry c id x hc).mp hmem
    exact ⟨hx, hxc, hid⟩

/-- **The registry of a benchmark.** In every run of calls that meet the condition, tree and
lookups agree in every state that is reached, and an item that is added hangs from its
parent. -/
theorem registry_correct {s t : State} (hs : Initial s)
    (hrun : GuardedRun step Allowed s t) :
    Correct t ∧ ∀ p x, Allowed t (.add p x) → (xccdfAddItem t p x).2 = true →
      Hangs (xccdfAddItem t p x).1 p x := by
  have ht : Inv t := hrun.invariant hs.inv inv_step
  exact ⟨ht.correct, fun p x hallowed => (add_spec ht hallowed).2⟩

/-- A benchmark without items, and nothing else. -/
def emptyBenchmark : State where
  heap := Function.update (fun _ => none) 0 (some ⟨.benchmark, some "b", none, none, [], []⟩)
  next := 1
  benchmark := 0
  dicts := ⟨ChainedTable.empty, fun _ => none⟩

/-- The empty benchmark is a start. -/
theorem initial_emptyBenchmark : Initial emptyBenchmark := by
  have hheap : ∀ x item, emptyBenchmark.heap x = some item →
      x = 0 ∧ item = ⟨.benchmark, some "b", none, none, [], []⟩ := by
    intro x item hx
    rcases eq_or_ne x 0 with rfl | hne
    · exact ⟨rfl, (Option.some.inj hx).symm⟩
    · rw [emptyBenchmark] at hx
      dsimp only at hx
      rw [Function.update_of_ne hne] at hx
      cases hx
  have hkids : ∀ x, kids emptyBenchmark.heap x = [] := by
    intro x
    cases hx : emptyBenchmark.heap x with
    | none => rw [kids, hx]; rfl
    | some item =>
        obtain ⟨-, rfl⟩ := hheap x item hx
        rw [kids, hx]
        rfl
  have hup : ∀ x, up emptyBenchmark.heap x = none := by
    intro x
    cases hx : emptyBenchmark.heap x with
    | none => rw [up, hx]; rfl
    | some item =>
        obtain ⟨-, rfl⟩ := hheap x item hx
        rw [up, hx]
        rfl
  refine ⟨⟨⟨fun x p => ?_, fun _ => 0, fun x p hp => ?_⟩, fun x item hx => ?_,
    ⟨_, rfl, rfl, rfl⟩, fun x item hx _ => (hheap x item hx).1⟩, hkids _, rfl⟩
  · rw [hkids, hup]
    rfl
  · rw [hup] at hp
    cases hp
  · rw [(hheap x item hx).1]
    exact Nat.zero_lt_one

/-- A group with a rule of a cluster and a value that is named and removed. -/
def sampleCalls : List Op :=
  [.new .group (some "g") none, .add 0 1, .new .rule (some "r") (some "c"), .add 1 2,
    .new .value none none, .add 1 3, .setId 3 (some "v"), .remove 3]

/-- The calls lead to a benchmark in which the rule is found. -/
theorem registry_correct_sampleCalls : ∃ t : State, xccdfBenchmarkGetItem t "r" = some 2 ∧
    xccdfBenchmarkGetItem t "v" = none ∧
    xccdfBenchmarkGetClusterItems t "c" = [("r", 2)] ∧ Correct t := by
  have hrun : ((GuardedRun.replay step Allowed emptyBenchmark sampleCalls).map fun t =>
      (xccdfBenchmarkGetItem t "r", xccdfBenchmarkGetItem t "v",
        xccdfBenchmarkGetClusterItems t "c")) = some (some 2, none, [("r", 2)]) := by
    decide +kernel
  obtain ⟨t, ht, hend⟩ := Option.map_eq_some_iff.mp hrun
  obtain ⟨hr, hend⟩ := Prod.mk.inj hend
  obtain ⟨hv, hc⟩ := Prod.mk.inj hend
  exact ⟨t, hr, hv, hc, (registry_correct initial_emptyBenchmark (GuardedRun.of_replay ht)).1⟩

/-- A rule of a cluster is added and removed. -/
def staleCalls : List Op :=
  [.new .rule (some "r") (some "c"), .add 0 1, .remove 1]

/-- **The registry is not right in every run**: the cluster still has the rule that was
freed. -/
theorem not_registry_correct : ¬ ∀ s t : State, Initial s →
    GuardedRun step (fun _ _ => True) s t →
    Correct t ∧ ∀ p x, (xccdfAddItem t p x).2 = true → Hangs (xccdfAddItem t p x).1 p x := by
  intro hall
  have hrun : ((GuardedRun.replay step (fun _ _ => True) emptyBenchmark staleCalls).map fun t =>
      (xccdfBenchmarkGetClusterItems t "c", t.heap 1)) = some ([("r", 1)], none) := by
    decide +kernel
  obtain ⟨t, ht, hend⟩ := Option.map_eq_some_iff.mp hrun
  obtain ⟨hcluster, hheap⟩ := Prod.mk.inj hend
  obtain ⟨hcorrect, -⟩ := hall emptyBenchmark t initial_emptyBenchmark (GuardedRun.of_replay ht)
  obtain ⟨-, -, hid⟩ := hcorrect.clusterOnly "c" "r" 1 (by decide) (by rw [hcluster]; simp)
  rw [idOf, hheap] at hid
  cases hid

end OpenScap.XccdfRegistry
