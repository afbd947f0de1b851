import OpenScap.AssertedRun
import OpenScap.XccdfCleanup
import OpenScap.XccdfGenId

/-!
# The resolution of a benchmark

`xccdf_benchmark_resolve` sorts the items and profiles of a benchmark by what they contain and
extend, completes each by the one that it extends, and removes the abstract ones. A group gets
copies of what the group that it extends contains, under new ids, which are registered.

Items are known by their addresses, and those from `next` on are not in use. The assertions of
the source end a run, and so does a recursion deeper than the bound.

## Main definitions

* `xccdfBenchmarkRegisterItem`, `xccdfItemClone`, `xccdfAddItem` — the copies of a group's
  members;
* `resolveItem`, `xccdfBenchmarkResolve` — the resolution of an item and of a benchmark.
-/

open AssertedRun

namespace OpenScap.XccdfResolution

/-! ### The code -/

/-- The dictionaries of a benchmark, by id; those of the clusters by cluster and id. -/
structure Dicts where
  items : String → Option ℕ
  profiles : String → Option ℕ
  clusters : String → String → Option ℕ

/-- A benchmark: its address, the comparison of its schema's version with 1.2, the items, the
first address that is not in use, the dictionaries, and the flag that it is resolved. -/
structure Benchmark where
  benchmark : ℕ
  versionCmp : ℤ
  items : Items
  next : ℕ
  dicts : Dicts
  resolved : Bool

/-- `xccdf_benchmark_get_member`. -/
def Dicts.getMember (dicts : Dicts) (type : ResolveType) : String → Option ℕ :=
  if type = .profile then dicts.profiles else dicts.items

/-- `oscap_htable_add`. -/
def tableAdd (table : String → Option ℕ) (key : String) (x : ℕ) : (String → Option ℕ) × Bool :=
  match table key with
  | some _ => (table, false)
  | none => (Function.update table key (some x), true)

/-- `oscap_htable_add` to the table of the type. -/
def Dicts.add (dicts : Dicts) (type : ResolveType) (id : String) (x : ℕ) : Dicts × Bool :=
  let r := tableAdd (dicts.getMember type) id x
  (if type = .profile then { dicts with profiles := r.1 } else { dicts with items := r.1 }, r.2)

/-- `_register_item_to_cluster`. -/
def registerItemToCluster (dicts : Dicts) (item : Item) (id : String) (x : ℕ) : Dicts × Bool :=
  let cluster := item.clusterId.getD ""
  if cluster = "" then (dicts, true)
  else
    let r := tableAdd (dicts.clusters cluster) id x
    ({ dicts with clusters := Function.update dicts.clusters cluster r.1 }, r.2)

/-- `xccdf_benchmark_register_item`, for items other than profiles. What becomes of the members
of a group is ignored. -/
def xccdfBenchmarkRegisterItem : ℕ → Items → Dicts → ℕ → Except Stop (Dicts × Bool)
  | 0, _, _, _ => .error .depth
  | depth + 1, items, dicts, x =>
      let item := items x
      match item.id with
      | none => .ok (dicts, false)
      | some id =>
          match dicts.getMember item.type id with
          | some found => .ok (dicts, found = x)
          | none => do
              let members := if item.type = .group then item.content ++ item.values else []
              let dicts ← members.foldlM (fun dicts y =>
                (xccdfBenchmarkRegisterItem depth items dicts y).map Prod.fst) dicts
              let r := dicts.add item.type id x
              .ok (if r.2 then registerItemToCluster r.1 item id x else r)

namespace Benchmark

/-- An item is replaced. -/
def set (s : Benchmark) (x : ℕ) (item : Item) : Benchmark :=
  { s with items := Function.update s.items x item }

/-- A new item. -/
def alloc (s : Benchmark) (item : Item) : Benchmark × ℕ :=
  ({ s with items := Function.update s.items s.next item, next := s.next + 1 }, s.next)

theorem items_set_self (s : Benchmark) (x : ℕ) (item : Item) : (s.set x item).items x = item :=
  Function.update_self _ _ _

theorem items_set_of_ne (s : Benchmark) {x y : ℕ} (item : Item) (h : y ≠ x) :
    (s.set x item).items y = s.items y :=
  Function.update_of_ne h _ _

/-- `oscap_list_clone`. -/
def cloneList (clone : Benchmark → ℕ → Except Stop (Benchmark × ℕ)) :
    Benchmark → List ℕ → Except Stop (Benchmark × List ℕ)
  | s, [] => .ok (s, [])
  | s, x :: xs => do
      let (s, c) ← clone s x
      let (s, cs) ← cloneList clone s xs
      .ok (s, c :: cs)

/-- `xccdf_item_clone`, for items other than benchmarks. The clone has no parent yet, so that
nothing is registered. -/
def xccdfItemClone : ℕ → Benchmark → ℕ → Except Stop (Benchmark × ℕ)
  | 0, _, _ => .error .depth
  | depth + 1, s, oldItem =>
      let item := s.items oldItem
      if item.type = .group then do
        let (s, values) ← cloneList (xccdfItemClone depth) s item.values
        let (s, content) ← cloneList (xccdfItemClone depth) s item.content
        .ok (s.alloc { item with content := content, values := values })
      else .ok (s.alloc item)

/-- `xccdf_benchmark_gen_id`. -/
def genId (s : Benchmark) (type : ResolveType) (pre : String) : Option String :=
  XccdfResults.xccdfBenchmarkGenId (fun id => (s.dicts.getMember type id).isSome) pre

/-- The prefix of the ids of copies. -/
def inheritedPrefix : ResolveType → Option String
  | .rule => some "inherited-rule-"
  | .group => some "inherited-group-"
  | .value => some "inherited-value-"
  | .benchmark | .profile => none

/-- `xccdf_resolve_copy_item`. The copy is in no benchmark yet, so that `xccdf_item_set_id` only
replaces its id. -/
def xccdfResolveCopyItem (depth : ℕ) (s : Benchmark) (src : ℕ) :
    Except Stop (Benchmark × ℕ) :=
  match inheritedPrefix (s.items src).type with
  | none => .error .assertion
  | some pre => do
      let newid := s.genId (s.items src).type pre
      let (s, clone) ← s.xccdfItemClone depth src
      .ok (s.set clone { s.items clone with id := newid }, clone)

/-- `xccdf_add_item`, where `append` adds to the list of the parent. -/
def xccdfAddItem (depth : ℕ) (append : Item → ℕ → Item) (pre : String) (s : Benchmark)
    (parent item : ℕ) : Except Stop Benchmark := do
  let s :=
    if (s.items item).id = none then
      s.set item { s.items item with id := s.genId (s.items item).type pre }
    else s
  let (dicts, registered) ← xccdfBenchmarkRegisterItem depth s.items s.dicts item
  let s := { s with dicts := dicts }
  if registered then .ok (s.set parent (append (s.items parent) item)) else .error .assertion

end Benchmark

/-- `oscap_list_add` to the content. -/
def Item.addContent (item : Item) (x : ℕ) : Item := { item with content := item.content ++ [x] }

/-- `oscap_list_add` to the values. -/
def Item.addValue (item : Item) (x : ℕ) : Item := { item with values := item.values ++ [x] }

namespace Benchmark

/-- `xccdf_group_add_value`. -/
def xccdfGroupAddValue (depth : ℕ) (s : Benchmark) (group item : ℕ) : Except Stop Benchmark :=
  s.xccdfAddItem depth Item.addValue "value-" group item

/-- `xccdf_group_add_content`. -/
def xccdfGroupAddContent (depth : ℕ) (s : Benchmark) (group item : ℕ) :
    Except Stop Benchmark :=
  match (s.items item).type with
  | .rule => s.xccdfAddItem depth Item.addContent "rule-" group item
  | .group => s.xccdfAddItem depth Item.addContent "group-" group item
  | .value => s.xccdfGroupAddValue depth group item
  | .benchmark | .profile => .ok s

/-- The loops of `xccdf_resolve_group`. -/
def xccdfResolveGroup (depth : ℕ) (s : Benchmark) (child parent : ℕ) : Except Stop Benchmark := do
  let s ← (s.items parent).content.foldlM (fun s item => do
    let (s, clone) ← s.xccdfResolveCopyItem depth item
    s.xccdfGroupAddContent depth child clone) s
  (s.items parent).values.foldlM (fun s val => do
    let (s, clone) ← s.xccdfResolveCopyItem depth val
    s.xccdfGroupAddValue depth child clone) s

/-- What the part of `xccdf_resolve_item` that is specific to a type does beside merging. -/
def resolveMembers (depth : ℕ) (s : Benchmark) (x parent : ℕ) : Except Stop Benchmark :=
  match (s.items x).type with
  | .group => s.xccdfResolveGroup depth x parent
  | _ => .ok s

/-- The end of `xccdf_resolve_item`, which completes an item by the one that it extends. -/
def complete (depth : ℕ) (s : Benchmark) (x parent : ℕ) : Except Stop Benchmark := do
  let item := s.items x
  let s := s.set x
    { item with data := xccdfResolveItem s.versionCmp item.data (s.items parent).data }
  let s ← s.resolveMembers depth x parent
  .ok (s.set x { s.items x with extends_ := none })

/-- `xccdf_resolve_item`. -/
def resolveItem (depth : ℕ) (s : Benchmark) (x : ℕ) : Except Stop Benchmark :=
  let item := s.items x
  if item.type = .benchmark then .ok { s with resolved := true }
  else
    match item.extends_.bind (s.dicts.getMember item.type) with
    | none => .ok s
    | some parent =>
        if item.type ≠ (s.items parent).type then .ok s
        else if item.type = .group ∧ s.versionCmp ≥ 0 then .ok s
        else s.complete depth x parent

/-- What the dependencies are read off. -/
def graph (s : Benchmark) : ResolveBenchmark where
  benchmark := s.benchmark
  item x := ⟨(s.items x).type, (s.items x).extends_, (s.items x).content, (s.items x).values,
    (s.items x).profiles⟩
  getMember := s.dicts.getMember

/-- `xccdf_benchmark_resolve`. To look up what a benchmark extends fails an assertion. -/
def xccdfBenchmarkResolve (depth : ℕ) (s : Benchmark) : Except Stop (Bool × Benchmark) :=
  if (s.items s.benchmark).extends_.isSome then .error .assertion
  else
    match s.graph.resolve depth with
    | none => .error .depth
    | some (ret, resolveOrder) => do
        let s ← resolveOrder.foldlM (resolveItem depth) s
        match xccdfResolveCleanup depth s.items s.benchmark with
        | none => .error .depth
        | some items => .ok (ret, { s with items := items })

end Benchmark

end OpenScap.XccdfResolution
