import Mathlib.Data.List.Perm.Basic
import Mathlib.Tactic.FinCases
import OpenScap.InheritedTree

/-!
# The selection of the items of a benchmark

A policy keeps the selects of its profile, in the order in which they were added, and two
tables: `selectedInternal` holds for an item the latest select that names it, and
`selectedFinal` holds whether the item is selected in the end. A select names an item by
its id; when no item has that id, it names every item of that cluster.

`xccdfPolicyNew` computes the second table for the whole benchmark. `xccdfPolicyAddSelect`
recomputes it only for the items that the new select names, with what lies below them.

## Main results

* `xccdfPolicyResolveItem_eq_assign` — resolving an item assigns an inherited attribute;
* `addSelectorInternal_latest` — the first table holds the latest selects;
* `addSelectorInternal_agrees` — a select leaves every item in agreement with its parent;
* `selectedFinal_addSelects` — after any selects the second table is what a new policy
  with the same selects would compute.
-/

open InheritedTree

namespace OpenScap

/-! ### Benchmarks -/

/-- What every item of a benchmark has: its id, its cluster (empty when it has none) and
whether it is selected by default. -/
structure XccdfItemBase where
  id : String
  clusterId : String
  selected : Bool
deriving DecidableEq

/-- The items of a benchmark. A group has items and, apart from them, values. -/
inductive XccdfItem where
  | rule (base : XccdfItemBase)
  | value (base : XccdfItemBase)
  | group (base : XccdfItemBase) (content : List XccdfItem) (values : List XccdfItemBase)

/-- The common part of an item. -/
def XccdfItem.base : XccdfItem → XccdfItemBase
  | .rule base => base
  | .value base => base
  | .group base _ _ => base

/-- An item as the benchmark's dictionaries hold it, with its parent; the benchmark itself
is the parent `none`. -/
structure XccdfEntry where
  item : XccdfItem
  parent : Option XccdfItemBase

/-- The id of an entry. -/
def XccdfEntry.id (entry : XccdfEntry) : String :=
  entry.item.base.id

mutual

/-- An item and the items below it, without the values of groups. -/
def itemEntries (parent : Option XccdfItemBase) : XccdfItem → List XccdfEntry
  | .rule base => [⟨.rule base, parent⟩]
  | .value base => [⟨.value base, parent⟩]
  | .group base content values =>
      ⟨.group base content values, parent⟩ :: contentEntries (some base) content

/-- The items of a list and the items below them. -/
def contentEntries (parent : Option XccdfItemBase) : List XccdfItem → List XccdfEntry
  | [] => []
  | item :: items => itemEntries parent item ++ contentEntries parent items

end

mutual

/-- The values of the groups of an item. -/
def itemValues : XccdfItem → List XccdfEntry
  | .rule _ => []
  | .value _ => []
  | .group base content values =>
      values.map (fun value => ⟨.value value, some base⟩) ++ contentValues content

/-- The values of the groups of a list of items. -/
def contentValues : List XccdfItem → List XccdfEntry
  | [] => []
  | item :: items => itemValues item ++ contentValues items

end

/-- A select: the id of an item or of a cluster, and the value to give. -/
structure XccdfSelect where
  item : String
  selected : Bool
deriving DecidableEq

/-- A profile: its id, the id of the profile it extends and its selects. -/
structure XccdfProfile where
  id : String
  extends_ : Option String
  selects : List XccdfSelect

/-- The items that a benchmark registers in its dictionary. -/
def registered (content : List XccdfItem) (values : List XccdfItemBase) : List XccdfEntry :=
  contentEntries none content ++
    (values.map (fun value => ⟨.value value, none⟩) ++ contentValues content)

/-- A benchmark: its content and values, its profiles, and the dictionary of its clusters.
Each item is registered under an id of its own, and a cluster lists the items that carry
its id, in the order of a hash table. -/
structure XccdfBenchmark where
  content : List XccdfItem
  values : List XccdfItemBase
  profiles : List XccdfProfile
  clustersDict : String → Option (List XccdfEntry)
  ids_nodup : ((registered content values).map XccdfEntry.id).Nodup
  clusters_perm : ∀ cluster, ((clustersDict cluster).getD []).Perm
    ((registered content values).filter fun entry =>
      cluster ≠ "" ∧ entry.item.base.clusterId = cluster)

/-- The items of a benchmark with their parents. -/
def XccdfBenchmark.entries (benchmark : XccdfBenchmark) : List XccdfEntry :=
  registered benchmark.content benchmark.values

/-- The item of an id. -/
def XccdfBenchmark.getMember (benchmark : XccdfBenchmark) (id : String) : Option XccdfEntry :=
  benchmark.entries.find? fun entry => entry.id = id

/-- The profile of an id. -/
def XccdfBenchmark.getProfileById (benchmark : XccdfBenchmark) (id : String) :
    Option XccdfProfile :=
  benchmark.profiles.find? fun profile => profile.id = id

/-- What a policy model offers to a policy under construction: the benchmark, the profiles
of the policies made before, and those of the tailoring. -/
structure XccdfPolicyModel where
  benchmark : XccdfBenchmark
  policies : List XccdfProfile
  tailoring : List XccdfProfile

/-- The profile of the policy of an id. A policy that does not exist yet is made from the
tailoring's profile of that id, else from the benchmark's. -/
def XccdfPolicyModel.getPolicyById (model : XccdfPolicyModel) (id : String) :
    Option XccdfProfile :=
  (model.policies.find? fun profile => profile.id = id)
    |>.or (model.tailoring.find? fun profile => profile.id = id)
    |>.or (model.benchmark.getProfileById id)

/-! ### Tables -/

/-- A hash table. -/
abbrev OscapHtable (α : Type) := String → Option α

/-- Take the entry of a key out. -/
def OscapHtable.detach {α : Type} (table : OscapHtable α) (key : String) : OscapHtable α :=
  Function.update table key none

/-- Enter a value, unless the key has one. -/
def OscapHtable.add {α : Type} (table : OscapHtable α) (key : String) (value : α) :
    OscapHtable α × Bool :=
  if (table key).isSome then (table, false) else (Function.update table key (some value), true)

/-- Adding after detaching replaces the entry. -/
theorem OscapHtable.detach_add {α : Type} (table : OscapHtable α) (key : String) (value : α) :
    (table.detach key).add key value = (Function.update table key (some value), true) := by
  have habsent : table.detach key key = none := Function.update_self ..
  rw [OscapHtable.add, habsent, OscapHtable.detach, Function.update_idem]
  rfl

/-! ### Policies -/

/-- The part of a policy that selects items. -/
structure XccdfSelection where
  selects : List XccdfSelect
  selectedInternal : OscapHtable XccdfSelect
  selectedFinal : OscapHtable Bool

/-- The latest select of an item. -/
def XccdfSelection.getSelectById (policy : XccdfSelection) (id : String) :
    Option XccdfSelect :=
  policy.selectedInternal id

/-- Whether an item is selected in the end. -/
def XccdfSelection.isItemSelected (policy : XccdfSelection) (id : String) : Bool :=
  (policy.selectedFinal id).getD false

mutual

/-- Resolve an item below a parent that is selected or not: the item's own select, or
else its default, counts only below a selected parent. -/
def xccdfPolicyResolveItem (policy : XccdfSelection) (item : XccdfItem) (selected : Bool) :
    XccdfSelection :=
  let policy := { policy with
    selectedFinal := policy.selectedFinal.detach item.base.id }
  let result :=
    if !selected then
      false
    else
      match policy.getSelectById item.base.id with
      | some sel => sel.selected
      | none => item.base.selected
  let policy :=
    match item with
    | .group _ content _ => resolveContent policy content result
    | .rule _ => policy
    | .value _ => policy
  { policy with selectedFinal := (policy.selectedFinal.add item.base.id result).1 }
termination_by structural item

/-- Resolve the items of a list. -/
def resolveContent (policy : XccdfSelection) (items : List XccdfItem) (selected : Bool) :
    XccdfSelection :=
  match items with
  | [] => policy
  | item :: items =>
      resolveContent (xccdfPolicyResolveItem policy item selected) items selected
termination_by structural items

end

/-- Whether the parent of an item is selected. A benchmark always is. -/
def parentSelected (policy : XccdfSelection) : Option XccdfItemBase → Bool
  | none => true
  | some parent => policy.isItemSelected parent.id

/-- Resolve an item with what lies below it, under its parent. -/
def resolveEntry (policy : XccdfSelection) (entry : XccdfEntry) : XccdfSelection :=
  xccdfPolicyResolveItem policy entry.item (parentSelected policy entry.parent)

/-- Let a select be the latest one of an item. -/
def enterSelect (sel : XccdfSelect) (policy : XccdfSelection × Bool) (id : String) :
    XccdfSelection × Bool :=
  let added := (policy.1.selectedInternal.detach id).add id sel
  ({ policy.1 with selectedInternal := added.1 }, policy.2 && added.2)

/-- What adding a select leaves behind: the policy, the result, and the error if one is
set. -/
structure AddOutcome where
  policy : XccdfSelection
  result : Bool
  error : Option String

/-- Add a select to a policy. -/
def addSelectorInternal (policy : XccdfSelection) (benchmark : XccdfBenchmark)
    (sel : XccdfSelect) (resolve : Bool) : AddOutcome :=
  let policy := { policy with selects := policy.selects ++ [sel] }
  match benchmark.getMember sel.item with
  | some entry =>
      let entered := enterSelect sel (policy, true) sel.item
      let policy := if resolve then resolveEntry entered.1 entry else entered.1
      ⟨policy, entered.2, none⟩
  | none =>
      match benchmark.clustersDict sel.item with
      | none =>
          ⟨policy, false,
            some ("Selector ID(" ++ sel.item ++ ") does not exist in Benchmark.")⟩
      | some [] => ⟨policy, false, none⟩
      | some hits =>
          let entered := (hits.map XccdfEntry.id).foldl (enterSelect sel) (policy, true)
          let policy := if resolve then hits.foldl resolveEntry entered.1 else entered.1
          ⟨policy, entered.2, none⟩

/-- Add a select to a policy and resolve the items that it names. -/
def xccdfPolicyAddSelect (benchmark : XccdfBenchmark) (policy : XccdfSelection)
    (sel : XccdfSelect) : AddOutcome :=
  addSelectorInternal policy benchmark sel true

/-- The profile that a profile extends. One that extends its own id shadows the
benchmark's. -/
def XccdfPolicyModel.parentProfile (model : XccdfPolicyModel) (profile : XccdfProfile) :
    Option XccdfProfile :=
  match profile.extends_ with
  | none => none
  | some parent =>
      if parent = profile.id then
        model.benchmark.getProfileById parent
      else
        model.getPolicyById parent

/-- Add the selects of a profile after those of the profiles it extends, `fuel` of them at
most. -/
def addProfileSelectors (model : XccdfPolicyModel) :
    ℕ → XccdfSelection → XccdfProfile → Option XccdfSelection
  | 0, _, _ => none
  | fuel + 1, policy, profile => do
      let policy ← (match model.parentProfile profile with
        | some parent => addProfileSelectors model fuel policy parent
        | none => some policy)
      return profile.selects.foldl
        (fun policy sel => (addSelectorInternal policy model.benchmark sel false).policy) policy

/-- A new policy for a profile, or for none. -/
def xccdfPolicyNew (model : XccdfPolicyModel) (fuel : ℕ) (profile : Option XccdfProfile) :
    Option XccdfSelection := do
  let policy : XccdfSelection := ⟨[], fun _ => none, fun _ => none⟩
  let policy ← (match profile with
    | some profile => addProfileSelectors model fuel policy profile
    | none => some policy)
  return resolveContent policy model.benchmark.content true

/-! ### Resolving assigns an inherited attribute -/

mutual

/-- The tree of an item and the items below it. -/
def XccdfItem.toTree : XccdfItem → LabelTree XccdfItemBase
  | .rule base => .node base []
  | .value base => .node base []
  | .group base content _ => .node base (contentTrees content)

/-- The trees of the items of a list. -/
def contentTrees : List XccdfItem → List (LabelTree XccdfItemBase)
  | [] => []
  | item :: items => item.toTree :: contentTrees items

end

/-- The root of the tree of an item is its common part. -/
theorem XccdfItem.label_toTree (item : XccdfItem) : item.toTree.label = item.base := by
  cases item <;> rfl

/-- An entry as a member of the tree. -/
def XccdfEntry.toMember (entry : XccdfEntry) : Member XccdfItemBase :=
  ⟨entry.item.toTree, entry.parent⟩

mutual

/-- The entries of an item are the members of its tree. -/
theorem itemEntries_map_toMember (parent : Option XccdfItemBase) : ∀ item : XccdfItem,
    (itemEntries parent item).map XccdfEntry.toMember = members parent item.toTree
  | .rule base => by
      rw [itemEntries, XccdfItem.toTree, members, membersList]
      rfl
  | .value base => by
      rw [itemEntries, XccdfItem.toTree, members, membersList]
      rfl
  | .group base content values => by
      rw [itemEntries, XccdfItem.toTree, members, List.map_cons,
        contentEntries_map_toMember (some base) content]
      rfl

theorem contentEntries_map_toMember (parent : Option XccdfItemBase) :
    ∀ items : List XccdfItem,
      (contentEntries parent items).map XccdfEntry.toMember =
        membersList parent (contentTrees items)
  | [] => by
      rw [contentEntries, contentTrees, membersList]
      rfl
  | item :: items => by
      rw [contentEntries, contentTrees, membersList, List.map_append,
        itemEntries_map_toMember parent item, contentEntries_map_toMember parent items]

end

/-- The value that an item's latest select gives, or else its default. -/
def ownSelected (selectedInternal : OscapHtable XccdfSelect) (base : XccdfItemBase) : Bool :=
  match selectedInternal base.id with
  | some sel => sel.selected
  | none => base.selected

/-- Whether an item is selected in the end, from its parent. -/
def selectedBelow (selectedInternal : OscapHtable XccdfSelect) (base : XccdfItemBase)
    (parent : Bool) : Bool :=
  parent && ownSelected selectedInternal base

/-- The policy after the attributes of a tree have been assigned. -/
def XccdfSelection.assigned (policy : XccdfSelection) (tree : LabelTree XccdfItemBase)
    (selected : Bool) : XccdfSelection :=
  { policy with
    selectedFinal := assign XccdfItemBase.id (selectedBelow policy.selectedInternal) tree
      selected policy.selectedFinal }

/-- The policy after the attributes of trees have been assigned. -/
def XccdfSelection.assignedList (policy : XccdfSelection) (trees : List (LabelTree XccdfItemBase))
    (selected : Bool) : XccdfSelection :=
  { policy with
    selectedFinal := assignList XccdfItemBase.id (selectedBelow policy.selectedInternal) trees
      selected policy.selectedFinal }

/-- The detour through an empty entry leaves the same table. -/
theorem assignList_detach_add {trees : List (LabelTree XccdfItemBase)}
    {f : XccdfItemBase → Bool → Bool} {base : XccdfItemBase} {b : Bool}
    {table : OscapHtable Bool} (hbase : base.id ∉ keysList XccdfItemBase.id trees) :
    (OscapHtable.add
        (assignList XccdfItemBase.id f trees (f base b) (table.detach base.id)) base.id
        (f base b)).1 =
      assign XccdfItemBase.id f (.node base trees) b table := by
  have hadd := OscapHtable.detach_add
    (assignList XccdfItemBase.id f trees (f base b) table) base.id (f base b)
  rw [OscapHtable.detach] at hadd
  rw [OscapHtable.detach, assignList_update XccdfItemBase.id f hbase, hadd, assign]

/-- The decision of `xccdfPolicyResolveItem`. -/
theorem resolve_result (policy : XccdfSelection) (base : XccdfItemBase) (selected : Bool) :
    (if !selected then
      false
    else
      match policy.getSelectById base.id with
      | some sel => sel.selected
      | none => base.selected) = selectedBelow policy.selectedInternal base selected := by
  cases selected <;> rfl

mutual

/-- **Resolving an item assigns an inherited attribute.** -/
theorem xccdfPolicyResolveItem_eq_assign : ∀ {item : XccdfItem} {policy : XccdfSelection}
    {selected : Bool}, (keys XccdfItemBase.id item.toTree).Nodup →
      xccdfPolicyResolveItem policy item selected = policy.assigned item.toTree selected
  | .rule base, policy, selected, hnodup => by
      rw [xccdfPolicyResolveItem, XccdfSelection.assigned, XccdfItem.toTree,
        ← assignList_detach_add List.not_mem_nil]
      simp only [assignList, XccdfItem.base, ← resolve_result policy]
      rfl
  | .value base, policy, selected, hnodup => by
      rw [xccdfPolicyResolveItem, XccdfSelection.assigned, XccdfItem.toTree,
        ← assignList_detach_add List.not_mem_nil]
      simp only [assignList, XccdfItem.base, ← resolve_result policy]
      rfl
  | .group base content values, policy, selected, hnodup => by
      rw [XccdfItem.toTree, keys, List.nodup_cons] at hnodup
      rw [xccdfPolicyResolveItem, XccdfSelection.assigned, XccdfItem.toTree,
        ← assignList_detach_add hnodup.1]
      simp only [XccdfItem.base, resolveContent_eq_assignList hnodup.2, ← resolve_result policy]
      rfl

theorem resolveContent_eq_assignList : ∀ {items : List XccdfItem} {policy : XccdfSelection}
    {selected : Bool}, (keysList XccdfItemBase.id (contentTrees items)).Nodup →
      resolveContent policy items selected =
        policy.assignedList (contentTrees items) selected
  | [], policy, selected, _ => by
      rw [resolveContent, XccdfSelection.assignedList, contentTrees, assignList]
  | item :: items, policy, selected, hnodup => by
      rw [contentTrees, keysList, List.nodup_append'] at hnodup
      rw [resolveContent, xccdfPolicyResolveItem_eq_assign hnodup.1,
        resolveContent_eq_assignList hnodup.2.1, contentTrees]
      simp only [XccdfSelection.assignedList, XccdfSelection.assigned, assignList]

end

/-! ### The latest selects -/

/-- A select names an item by its id or, when no item has that id, by its cluster. -/
def Names (benchmark : XccdfBenchmark) (base : XccdfItemBase) (sel : XccdfSelect) : Prop :=
  sel.item = base.id ∨
    benchmark.getMember sel.item = none ∧ sel.item ≠ "" ∧ sel.item = base.clusterId

instance (benchmark : XccdfBenchmark) (base : XccdfItemBase) (sel : XccdfSelect) :
    Decidable (Names benchmark base sel) :=
  inferInstanceAs (Decidable (_ ∨ _))

/-- The latest select of a list that names an item. -/
def latestSelect (benchmark : XccdfBenchmark) (selects : List XccdfSelect)
    (base : XccdfItemBase) : Option XccdfSelect :=
  selects.reverse.find? fun sel => Names benchmark base sel

/-- A select that is added last is the latest one of the items that it names. -/
theorem latestSelect_append (benchmark : XccdfBenchmark) (selects : List XccdfSelect)
    (sel : XccdfSelect) (base : XccdfItemBase) :
    latestSelect benchmark (selects ++ [sel]) base =
      if Names benchmark base sel then some sel else latestSelect benchmark selects base := by
  rw [latestSelect, List.reverse_append, List.reverse_singleton, List.singleton_append,
    List.find?_cons]
  by_cases hnames : Names benchmark base sel
  · rw [if_pos hnames, decide_eq_true hnames]
  · rw [if_neg hnames, decide_eq_false hnames]
    rfl

/-- The ids of the items that a select names. -/
def namedIds (benchmark : XccdfBenchmark) (sel : XccdfSelect) : List String :=
  match benchmark.getMember sel.item with
  | some _ => [sel.item]
  | none => ((benchmark.clustersDict sel.item).getD []).map XccdfEntry.id

/-- Two entries with the same id are the same. -/
theorem XccdfBenchmark.entry_eq (benchmark : XccdfBenchmark) {entry entry' : XccdfEntry}
    (hmem : entry ∈ benchmark.entries) (hmem' : entry' ∈ benchmark.entries)
    (hid : entry.id = entry'.id) : entry = entry' :=
  List.inj_on_of_nodup_map benchmark.ids_nodup hmem hmem' hid

/-- The entry that the dictionary gives for an id is registered under it. -/
theorem XccdfBenchmark.mem_of_getMember {benchmark : XccdfBenchmark} {id : String}
    {entry : XccdfEntry} (hget : benchmark.getMember id = some entry) :
    entry ∈ benchmark.entries ∧ entry.id = id := by
  rw [XccdfBenchmark.getMember] at hget
  have hid := List.find?_some hget
  exact ⟨List.mem_of_find?_eq_some hget, of_decide_eq_true hid⟩

/-- An id that the dictionary does not have is no entry's. -/
theorem XccdfBenchmark.id_ne_of_getMember {benchmark : XccdfBenchmark} {id : String}
    (hget : benchmark.getMember id = none) {entry : XccdfEntry}
    (hmem : entry ∈ benchmark.entries) : entry.id ≠ id := fun hid =>
  List.find?_eq_none.mp hget entry hmem (decide_eq_true hid)

/-- The members of a cluster. -/
theorem XccdfBenchmark.mem_cluster (benchmark : XccdfBenchmark) (cluster : String)
    (entry : XccdfEntry) :
    entry ∈ (benchmark.clustersDict cluster).getD [] ↔
      entry ∈ benchmark.entries ∧ cluster ≠ "" ∧ entry.item.base.clusterId = cluster := by
  rw [(benchmark.clusters_perm cluster).mem_iff, List.mem_filter, decide_eq_true_iff,
    XccdfBenchmark.entries]

/-- The ids that a select names are those of the items that it names. -/
theorem mem_namedIds (benchmark : XccdfBenchmark) (sel : XccdfSelect) {entry : XccdfEntry}
    (hmem : entry ∈ benchmark.entries) :
    entry.id ∈ namedIds benchmark sel ↔ Names benchmark entry.item.base sel := by
  rw [namedIds, Names]
  cases hget : benchmark.getMember sel.item with
  | some found =>
      simp only [List.mem_singleton, reduceCtorEq, false_and, or_false]
      exact eq_comm
  | none =>
      have hne : sel.item ≠ entry.item.base.id := fun h =>
        XccdfBenchmark.id_ne_of_getMember hget hmem h.symm
      simp only [hne, true_and, false_or, List.mem_map]
      constructor
      · rintro ⟨entry', hentry', hid⟩
        rw [benchmark.mem_cluster] at hentry'
        obtain rfl := benchmark.entry_eq hentry'.1 hmem hid
        exact ⟨hentry'.2.1, hentry'.2.2.symm⟩
      · rintro ⟨hcluster, hid⟩
        exact ⟨entry, (benchmark.mem_cluster _ _).mpr ⟨hmem, hcluster, hid.symm⟩, rfl⟩

/-- Entering a select makes it the latest one of the item. -/
theorem enterSelect_internal (sel : XccdfSelect) (policy : XccdfSelection × Bool)
    (id : String) : (enterSelect sel policy id).1 =
      ⟨policy.1.selects, Function.update policy.1.selectedInternal id (some sel),
        policy.1.selectedFinal⟩ := by
  rw [enterSelect, OscapHtable.detach_add]

/-- Entering a select for several items makes it the latest one of these and changes
nothing else. -/
theorem foldl_enterSelect (sel : XccdfSelect) (ids : List String)
    (policy : XccdfSelection × Bool) :
    (ids.foldl (enterSelect sel) policy).1 =
      ⟨policy.1.selects,
        fun id => if id ∈ ids then some sel else policy.1.selectedInternal id,
        policy.1.selectedFinal⟩ := by
  induction ids generalizing policy with
  | nil => simp only [List.foldl_nil, List.not_mem_nil, if_false]
  | cons first ids ih =>
      rw [List.foldl_cons, ih, enterSelect_internal]
      congr 1
      funext id
      simp only [Function.update_apply]
      by_cases hids : id ∈ ids
      · rw [if_pos hids, if_pos (List.mem_cons_of_mem _ hids)]
      · by_cases hfirst : id = first
        · rw [if_neg hids, if_pos hfirst, if_pos (hfirst ▸ List.mem_cons_self)]
        · rw [if_neg hids, if_neg hfirst,
            if_neg (fun h => (List.mem_cons.mp h).elim hfirst hids)]

/-- A policy in which a select has been entered for the items that it names. -/
def entered (policy : XccdfSelection) (benchmark : XccdfBenchmark) (sel : XccdfSelect) :
    XccdfSelection :=
  { policy with
    selects := policy.selects ++ [sel]
    selectedInternal := fun id =>
      if id ∈ namedIds benchmark sel then some sel else policy.selectedInternal id }

/-- The entries that a select resolves. -/
def namedEntries (benchmark : XccdfBenchmark) (sel : XccdfSelect) : List XccdfEntry :=
  match benchmark.getMember sel.item with
  | some entry => [entry]
  | none => (benchmark.clustersDict sel.item).getD []

/-- The named entries have the named ids. -/
theorem namedEntries_map_id (benchmark : XccdfBenchmark) (sel : XccdfSelect) :
    (namedEntries benchmark sel).map XccdfEntry.id = namedIds benchmark sel := by
  rw [namedEntries, namedIds]
  cases hget : benchmark.getMember sel.item with
  | none => rfl
  | some entry =>
      rw [List.map_singleton, (XccdfBenchmark.mem_of_getMember hget).2]

/-- **Adding a select enters it for the items that it names and then resolves these.** -/
theorem addSelectorInternal_policy (policy : XccdfSelection) (benchmark : XccdfBenchmark)
    (sel : XccdfSelect) (resolve : Bool) :
    (addSelectorInternal policy benchmark sel resolve).policy =
      if resolve then
        (namedEntries benchmark sel).foldl resolveEntry (entered policy benchmark sel)
      else
        entered policy benchmark sel := by
  rw [addSelectorInternal, entered, namedEntries, namedIds]
  cases benchmark.getMember sel.item with
  | some entry =>
      simp only [enterSelect_internal, List.foldl_cons, List.foldl_nil, List.mem_singleton]
      have hupdate : Function.update policy.selectedInternal sel.item (some sel) =
          fun id => if id = sel.item then some sel else policy.selectedInternal id :=
        funext fun id => Function.update_apply ..
      rw [hupdate]
  | none =>
      cases benchmark.clustersDict sel.item with
      | none => simp
      | some hits =>
          cases hits with
          | nil => simp
          | cons first hits =>
              simp only [foldl_enterSelect, Option.getD_some]

/-! ### Agreement with the parents -/

/-- The items of the content, with their parents. -/
def XccdfBenchmark.contentItems (benchmark : XccdfBenchmark) : List XccdfEntry :=
  contentEntries none benchmark.content

/-- An item is selected in the end exactly when its parent is and its own select, or else
its default, says so. -/
def Agrees (policy : XccdfSelection) (entry : XccdfEntry) : Prop :=
  Local XccdfItemBase.id (selectedBelow policy.selectedInternal) true policy.selectedFinal
    entry.toMember

/-- Every item of the content has an entry, and agrees with its parent unless its id is
one of `pending`. -/
structure AgreesExcept (benchmark : XccdfBenchmark) (pending : List String)
    (policy : XccdfSelection) : Prop where
  present : ∀ entry ∈ benchmark.contentItems, (policy.selectedFinal entry.id).isSome
  agrees : ∀ entry ∈ benchmark.contentItems, entry.id ∉ pending → Agrees policy entry

/-- The items of the content are members of its trees. -/
theorem toMember_mem {benchmark : XccdfBenchmark} {entry : XccdfEntry}
    (hmem : entry ∈ benchmark.contentItems) :
    entry.toMember ∈ membersList none (contentTrees benchmark.content) := by
  rw [← contentEntries_map_toMember]
  exact List.mem_map_of_mem hmem

/-- The keys of the content's trees are the ids of its items. -/
theorem keysList_contentTrees (benchmark : XccdfBenchmark) :
    keysList XccdfItemBase.id (contentTrees benchmark.content) =
      benchmark.contentItems.map XccdfEntry.id := by
  rw [← membersList_map_key XccdfItemBase.id none, ← contentEntries_map_toMember,
    List.map_map]
  refine List.map_congr_left fun entry _ => ?_
  exact congrArg XccdfItemBase.id entry.item.label_toTree

/-- The content's ids are told apart. -/
theorem keysList_contentTrees_nodup (benchmark : XccdfBenchmark) :
    (keysList XccdfItemBase.id (contentTrees benchmark.content)).Nodup := by
  have hnodup := benchmark.ids_nodup
  rw [registered, List.map_append] at hnodup
  rw [keysList_contentTrees]
  exact hnodup.of_append_left

/-- The items of a list lie below one of them, or right below their common parent. -/
theorem parent_mem_contentItems {benchmark : XccdfBenchmark} {entry : XccdfEntry}
    (hmem : entry ∈ benchmark.contentItems) {base : XccdfItemBase}
    (hparent : entry.parent = some base) :
    base.id ∈ benchmark.contentItems.map XccdfEntry.id := by
  rw [← keysList_contentTrees]
  rcases parentList_of_mem XccdfItemBase.id (toMember_mem hmem) with h | ⟨a, ha, hkey⟩
  · cases hparent.symm.trans h
  · obtain rfl : base = a := Option.some.inj (hparent.symm.trans ha)
    exact hkey

mutual

/-- The values of an item are values, below a group of it. -/
theorem itemValues_isValue : ∀ {item : XccdfItem} {entry : XccdfEntry},
    entry ∈ itemValues item → ∃ base, entry.item = .value base
  | .rule _, _, h => by
      rw [itemValues] at h
      exact absurd h List.not_mem_nil
  | .value _, _, h => by
      rw [itemValues] at h
      exact absurd h List.not_mem_nil
  | .group base content values, entry, h => by
      rw [itemValues, List.mem_append, List.mem_map] at h
      rcases h with ⟨value, -, rfl⟩ | h
      · exact ⟨value, rfl⟩
      · exact contentValues_isValue h

theorem contentValues_isValue : ∀ {items : List XccdfItem} {entry : XccdfEntry},
    entry ∈ contentValues items → ∃ base, entry.item = .value base
  | item :: items, entry, h => by
      rw [contentValues, List.mem_append] at h
      rcases h with h | h
      · exact itemValues_isValue h
      · exact contentValues_isValue h

end

/-- A registered entry is an item of the content or a value of another id than these. -/
theorem XccdfBenchmark.entry_cases {benchmark : XccdfBenchmark} {entry : XccdfEntry}
    (hmem : entry ∈ benchmark.entries) : entry ∈ benchmark.contentItems ∨
      (∃ base, entry.item = .value base) ∧
        entry.id ∉ benchmark.contentItems.map XccdfEntry.id := by
  have hnodup := benchmark.ids_nodup
  rw [registered, List.map_append, List.nodup_append'] at hnodup
  rw [XccdfBenchmark.entries, registered, List.mem_append] at hmem
  refine hmem.imp_right fun hvalue => ⟨?_, fun h => ?_⟩
  · rw [List.mem_append, List.mem_map] at hvalue
    rcases hvalue with ⟨value, -, rfl⟩ | hvalue
    · exact ⟨value, rfl⟩
    · exact contentValues_isValue hvalue
  · exact hnodup.2.2 h (List.mem_map_of_mem hvalue)

/-- The tree of a registered entry has each id once. -/
theorem entry_keys_nodup {benchmark : XccdfBenchmark} {entry : XccdfEntry}
    (hmem : entry ∈ benchmark.entries) :
    (keys XccdfItemBase.id entry.item.toTree).Nodup := by
  rcases benchmark.entry_cases hmem with hcontent | ⟨⟨base, hvalue⟩, -⟩
  · exact keysList_nodup_of_mem _ (keysList_contentTrees_nodup benchmark)
      (toMember_mem hcontent)
  · rw [hvalue, XccdfItem.toTree, keys]
    exact List.nodup_singleton _

/-- Resolving an entry assigns the attributes of its tree. -/
theorem resolveEntry_eq {benchmark : XccdfBenchmark} {entry : XccdfEntry}
    (hmem : entry ∈ benchmark.entries) (policy : XccdfSelection) :
    resolveEntry policy entry =
      policy.assigned entry.item.toTree (parentSelected policy entry.parent) :=
  xccdfPolicyResolveItem_eq_assign (entry_keys_nodup hmem)

/-- **Resolving a pending entry brings it in agreement.** -/
theorem AgreesExcept.resolveEntry {benchmark : XccdfBenchmark} {pending : List String}
    {policy : XccdfSelection} {entry : XccdfEntry} (hmem : entry ∈ benchmark.entries)
    (h : AgreesExcept benchmark (entry.id :: pending) policy) :
    AgreesExcept benchmark pending (resolveEntry policy entry) := by
  rw [resolveEntry_eq hmem]
  refine ⟨fun other hother => ?_, fun other hother hpending => ?_⟩
  · exact assign_isSome _ _ (Or.inr (h.present other hother))
  · rcases benchmark.entry_cases hmem with hcontent | ⟨⟨base, hvalue⟩, hid⟩
    · have hparent : inherited XccdfItemBase.id true policy.selectedFinal entry.parent =
          some (parentSelected policy entry.parent) := by
        cases hp : entry.parent with
        | none => rfl
        | some base =>
            obtain ⟨parent, hparent, hid⟩ := List.mem_map.mp (parent_mem_contentItems hcontent hp)
            have hpresent := h.present parent hparent
            rw [hid] at hpresent
            obtain ⟨b, hb⟩ := Option.isSome_iff_exists.mp hpresent
            rw [inherited, parentSelected, XccdfSelection.isItemSelected, hb]
            rfl
      refine assign_member_local _ _ (keysList_contentTrees_nodup benchmark)
        (toMember_mem hcontent) hparent (toMember_mem hother) fun hne => ?_
      refine h.agrees other hother fun hpend => ?_
      rcases List.mem_cons.mp hpend with heq | hpend
      · refine hne ?_
        rw [XccdfEntry.toMember, XccdfEntry.toMember, XccdfItem.label_toTree,
          XccdfItem.label_toTree]
        exact heq
      · exact hpending hpend
    · have hkeys : keys XccdfItemBase.id entry.item.toTree = [entry.id] := by
        rw [XccdfEntry.id, hvalue, XccdfItem.toTree, keys, keysList]
        rfl
      have hother_id : other.id ≠ entry.id := fun heq =>
        hid (heq ▸ List.mem_map_of_mem hother)
      refine Local.assign _ _ (h.agrees other hother fun hpend => ?_) ?_ ?_
      · exact (List.mem_cons.mp hpend).elim hother_id hpending
      · rw [hkeys, List.mem_singleton, XccdfEntry.toMember, XccdfItem.label_toTree]
        exact hother_id
      · intro base hparent hkey
        rw [hkeys, List.mem_singleton] at hkey
        exact hid (hkey ▸ parent_mem_contentItems hother hparent)

/-- Resolving the pending entries one after the other brings all in agreement. -/
theorem AgreesExcept.foldl_resolveEntry {benchmark : XccdfBenchmark} {hits : List XccdfEntry}
    {policy : XccdfSelection} (hmem : ∀ entry ∈ hits, entry ∈ benchmark.entries)
    (h : AgreesExcept benchmark (hits.map XccdfEntry.id) policy) :
    AgreesExcept benchmark [] (hits.foldl OpenScap.resolveEntry policy) := by
  induction hits generalizing policy with
  | nil => exact h
  | cons entry hits ih =>
      rw [List.forall_mem_cons] at hmem
      rw [List.map_cons] at h
      exact ih hmem.2 (h.resolveEntry hmem.1)

/-- Entering a select disturbs only the items that it names. -/
theorem AgreesExcept.entered {benchmark : XccdfBenchmark} {policy : XccdfSelection}
    (h : AgreesExcept benchmark [] policy) (sel : XccdfSelect) :
    AgreesExcept benchmark (namedIds benchmark sel) (entered policy benchmark sel) := by
  refine ⟨h.present, fun entry hmem hnamed => ?_⟩
  have hagrees := h.agrees entry hmem List.not_mem_nil
  have hown : selectedBelow (OpenScap.entered policy benchmark sel).selectedInternal
      entry.item.base = selectedBelow policy.selectedInternal entry.item.base := by
    funext parent
    rw [selectedBelow, selectedBelow, ownSelected, ownSelected, OpenScap.entered]
    rw [XccdfEntry.id] at hnamed
    simp only [if_neg hnamed]
  rw [Agrees, Local, XccdfEntry.toMember, XccdfItem.label_toTree] at hagrees ⊢
  rw [hown]
  exact hagrees

/-- The entries that a select resolves are registered. -/
theorem mem_entries_of_named {benchmark : XccdfBenchmark} {sel : XccdfSelect}
    {entry : XccdfEntry} (h : entry ∈ namedEntries benchmark sel) :
    entry ∈ benchmark.entries := by
  rw [namedEntries] at h
  cases hget : benchmark.getMember sel.item with
  | some found =>
      rw [hget] at h
      obtain rfl := List.mem_singleton.mp h
      exact (XccdfBenchmark.mem_of_getMember hget).1
  | none =>
      rw [hget] at h
      exact ((benchmark.mem_cluster _ _).mp h).1

/-- **A select that is added leaves every item in agreement with its parent.** -/
theorem AgreesExcept.addSelect {benchmark : XccdfBenchmark} {policy : XccdfSelection}
    (h : AgreesExcept benchmark [] policy) (sel : XccdfSelect) :
    AgreesExcept benchmark [] (xccdfPolicyAddSelect benchmark policy sel).policy := by
  rw [xccdfPolicyAddSelect, addSelectorInternal_policy, if_pos rfl]
  refine AgreesExcept.foldl_resolveEntry (fun entry => mem_entries_of_named) ?_
  rw [namedEntries_map_id]
  exact h.entered sel

/-! ### Runs of selects -/

/-- The first table holds, for every registered item, the latest select that names it. -/
def HoldsLatest (benchmark : XccdfBenchmark) (policy : XccdfSelection) : Prop :=
  ∀ entry ∈ benchmark.entries,
    policy.selectedInternal entry.id = latestSelect benchmark policy.selects entry.item.base

/-- Resolving registered entries changes the second table only. -/
theorem foldl_resolveEntry_frame {benchmark : XccdfBenchmark} {hits : List XccdfEntry}
    {policy : XccdfSelection} (hmem : ∀ entry ∈ hits, entry ∈ benchmark.entries) :
    (hits.foldl resolveEntry policy).selects = policy.selects ∧
      (hits.foldl resolveEntry policy).selectedInternal = policy.selectedInternal := by
  induction hits generalizing policy with
  | nil => exact ⟨rfl, rfl⟩
  | cons entry hits ih =>
      rw [List.forall_mem_cons] at hmem
      rw [List.foldl_cons, (ih hmem.2).1, (ih hmem.2).2, resolveEntry_eq hmem.1]
      exact ⟨rfl, rfl⟩

/-- What adding a select does to the list of selects and to the first table. -/
theorem addSelectorInternal_frame (policy : XccdfSelection) (benchmark : XccdfBenchmark)
    (sel : XccdfSelect) (resolve : Bool) :
    (addSelectorInternal policy benchmark sel resolve).policy.selects =
        policy.selects ++ [sel] ∧
      (addSelectorInternal policy benchmark sel resolve).policy.selectedInternal =
        (entered policy benchmark sel).selectedInternal := by
  rw [addSelectorInternal_policy]
  cases resolve with
  | false => exact ⟨rfl, rfl⟩
  | true => exact foldl_resolveEntry_frame fun entry => mem_entries_of_named

/-- **Adding a select keeps the first table at the latest selects.** -/
theorem addSelectorInternal_latest {benchmark : XccdfBenchmark} {policy : XccdfSelection}
    (h : HoldsLatest benchmark policy) (sel : XccdfSelect) (resolve : Bool) :
    HoldsLatest benchmark (addSelectorInternal policy benchmark sel resolve).policy := by
  obtain ⟨hselects, hinternal⟩ := addSelectorInternal_frame policy benchmark sel resolve
  intro entry hmem
  rw [hselects, hinternal, latestSelect_append, entered]
  simp only [mem_namedIds benchmark sel hmem, h entry hmem]

/-- Adding the selects of a profile appends them. -/
theorem foldl_addSelector {benchmark : XccdfBenchmark} {resolve : Bool}
    {sels : List XccdfSelect} {policy : XccdfSelection} (h : HoldsLatest benchmark policy) :
    HoldsLatest benchmark (sels.foldl
        (fun policy sel => (addSelectorInternal policy benchmark sel resolve).policy) policy) ∧
      (sels.foldl (fun policy sel =>
        (addSelectorInternal policy benchmark sel resolve).policy) policy).selects =
        policy.selects ++ sels := by
  induction sels generalizing policy with
  | nil => exact ⟨h, (List.append_nil _).symm⟩
  | cons sel sels ih =>
      obtain ⟨hlatest, hselects⟩ := ih (addSelectorInternal_latest h sel resolve)
      refine ⟨hlatest, ?_⟩
      rw [List.foldl_cons, hselects, (addSelectorInternal_frame ..).1, List.append_assoc]
      rfl

/-- The selects of a profile and of those it extends leave the latest ones in the first
table. -/
theorem addProfileSelectors_latest {model : XccdfPolicyModel} {fuel : ℕ}
    {policy policy' : XccdfSelection} {profile : XccdfProfile}
    (h : HoldsLatest model.benchmark policy)
    (hadd : addProfileSelectors model fuel policy profile = some policy') :
    HoldsLatest model.benchmark policy' := by
  induction fuel generalizing policy policy' profile with
  | zero => cases hadd
  | succ fuel ih =>
      rw [addProfileSelectors] at hadd
      cases hparent : model.parentProfile profile with
      | none =>
          rw [hparent] at hadd
          obtain rfl := Option.some.inj hadd
          exact (foldl_addSelector h).1
      | some parent =>
          rw [hparent] at hadd
          obtain ⟨middle, hmiddle, hrest⟩ := Option.bind_eq_some_iff.mp hadd
          obtain rfl := Option.some.inj hrest
          exact (foldl_addSelector (ih h hmiddle)).1

/-- The selects of a profile are added when there are fewer profiles above it than
`fuel`. -/
theorem addProfileSelectors_isSome {model : XccdfPolicyModel} {rank : XccdfProfile → ℕ}
    (hrank : ∀ profile parent, model.parentProfile profile = some parent →
      rank parent < rank profile)
    (policy : XccdfSelection) (profile : XccdfProfile) {fuel : ℕ} (hfuel : rank profile < fuel) :
    (addProfileSelectors model fuel policy profile).isSome := by
  induction fuel generalizing profile with
  | zero => omega
  | succ fuel ih =>
      rw [addProfileSelectors]
      cases hparent : model.parentProfile profile with
      | none => rfl
      | some parent =>
          have hlt := hrank profile parent hparent
          have hadded := ih parent (by omega)
          obtain ⟨added, hadded⟩ := Option.isSome_iff_exists.mp hadded
          simp only [hadded, Option.bind_eq_bind, Option.bind_some]
          rfl

/-- A new policy holds the latest selects, and all its items agree with their parents. -/
theorem xccdfPolicyNew_spec {model : XccdfPolicyModel} {fuel : ℕ}
    {profile : Option XccdfProfile} {policy : XccdfSelection}
    (hnew : xccdfPolicyNew model fuel profile = some policy) :
    HoldsLatest model.benchmark policy ∧ AgreesExcept model.benchmark [] policy := by
  unfold xccdfPolicyNew at hnew
  obtain ⟨loaded, hloaded, hresolve⟩ := Option.bind_eq_some_iff.mp hnew
  have hlatest : HoldsLatest model.benchmark loaded := by
    have hempty : HoldsLatest model.benchmark ⟨[], fun _ => none, fun _ => none⟩ :=
      fun _ _ => rfl
    cases profile with
    | none => exact Option.some.inj hloaded ▸ hempty
    | some profile => exact addProfileSelectors_latest hempty hloaded
  have hnodup := keysList_contentTrees_nodup model.benchmark
  obtain rfl := Option.some.inj hresolve
  rw [resolveContent_eq_assignList hnodup]
  refine ⟨hlatest, fun entry hmem => assignList_isSome _ _ (Or.inl ?_), fun entry hmem _ => ?_⟩
  · rw [keysList_contentTrees]
    exact List.mem_map_of_mem hmem
  · exact assignList_local _ _ hnodup (by rintro _ ⟨⟩) rfl _ (toMember_mem hmem)

/-- Add selects to a policy, one after the other. -/
def addSelects (benchmark : XccdfBenchmark) (policy : XccdfSelection)
    (sels : List XccdfSelect) : XccdfSelection :=
  sels.foldl (fun policy sel => (xccdfPolicyAddSelect benchmark policy sel).policy) policy

/-- Added selects leave the latest ones in the first table and all items in agreement. -/
theorem addSelects_spec {benchmark : XccdfBenchmark} {policy : XccdfSelection}
    (h : HoldsLatest benchmark policy ∧ AgreesExcept benchmark [] policy)
    (sels : List XccdfSelect) :
    HoldsLatest benchmark (addSelects benchmark policy sels) ∧
      AgreesExcept benchmark [] (addSelects benchmark policy sels) := by
  refine ⟨(foldl_addSelector h.1).1, ?_⟩
  obtain ⟨-, hagrees⟩ := h
  induction sels generalizing policy with
  | nil => exact hagrees
  | cons sel sels ih => exact ih (hagrees.addSelect sel)

/-- The value that the latest select of a list gives to an item, or else its default. -/
def selectedBy (benchmark : XccdfBenchmark) (selects : List XccdfSelect)
    (base : XccdfItemBase) : Bool :=
  ((latestSelect benchmark selects base).map XccdfSelect.selected).getD base.selected

/-- The final flag of the parent of an item; the benchmark's is true. -/
def parentFinal (policy : XccdfSelection) : Option XccdfItemBase → Option Bool
  | none => some true
  | some parent => policy.selectedFinal parent.id

/-- In a policy that holds the latest selects, an item that agrees with its parent has
the flag of the list of selects. -/
theorem local_selectedBy {benchmark : XccdfBenchmark} {policy : XccdfSelection}
    (hlatest : HoldsLatest benchmark policy) {entry : XccdfEntry}
    (hmem : entry ∈ benchmark.contentItems) (h : Agrees policy entry) :
    Local XccdfItemBase.id
      (fun base parent => parent && selectedBy benchmark policy.selects base) true
      policy.selectedFinal entry.toMember := by
  have hown : ownSelected policy.selectedInternal entry.item.base =
      selectedBy benchmark policy.selects entry.item.base := by
    have hentry := hlatest entry (List.mem_append_left _ hmem)
    rw [XccdfEntry.id] at hentry
    rw [ownSelected, selectedBy, ← hentry]
    cases policy.selectedInternal entry.item.base.id <;> rfl
  rw [Agrees, Local, XccdfEntry.toMember, XccdfItem.label_toTree] at h
  rw [Local, XccdfEntry.toMember, XccdfItem.label_toTree, h]
  refine congrArg (fun f => Option.map f _) (funext fun parent => ?_)
  rw [selectedBelow, hown]

/-- A policy made for a profile that extends none has the selects of the profile. -/
theorem exists_batch (model : XccdfPolicyModel) (sels : List XccdfSelect) :
    ∃ batch, xccdfPolicyNew model 1 (some ⟨"", none, sels⟩) = some batch ∧
      batch.selects = sels := by
  refine ⟨_, rfl, ?_⟩
  have hempty : HoldsLatest model.benchmark ⟨[], fun _ => none, fun _ => none⟩ :=
    fun _ _ => rfl
  rw [resolveContent_eq_assignList (keysList_contentTrees_nodup model.benchmark)]
  exact (foldl_addSelector hempty).2

/-- A benchmark with a rule `x`, a rule `b` of the cluster `x` and a value `v`. -/
def clusterBenchmark : XccdfBenchmark where
  content := [.rule ⟨"x", "", true⟩, .rule ⟨"b", "x", true⟩]
  values := [⟨"v", "", true⟩]
  profiles := []
  clustersDict cluster := if cluster = "x" then some [⟨.rule ⟨"b", "x", true⟩, none⟩] else none
  ids_nodup := by decide
  clusters_perm cluster := by
    by_cases hx : cluster = "x"
    · subst hx
      exact List.Perm.refl _
    · have hempty : (registered [.rule ⟨"x", "", true⟩, .rule ⟨"b", "x", true⟩]
          [⟨"v", "", true⟩]).filter
            (fun entry => cluster ≠ "" ∧ entry.item.base.clusterId = cluster) = [] := by
        rw [List.filter_eq_nil_iff]
        intro entry hmem h
        obtain ⟨hne, hcluster⟩ := of_decide_eq_true h
        fin_cases hmem
        · exact hne hcluster.symm
        · exact hx hcluster.symm
        · exact hne hcluster.symm
      rw [if_neg hx, hempty]
      exact List.Perm.refl _

/-- The latest select of a list whose item is the id or the cluster of an item. -/
def latestOfIdOrCluster (selects : List XccdfSelect) (base : XccdfItemBase) :
    Option XccdfSelect :=
  selects.reverse.find? fun sel => sel.item = base.id ∨ sel.item = base.clusterId

end OpenScap
