import OpenScap.XccdfResolve

/-!
# Resolved profiles and the selection

`xccdf_benchmark_resolve` resolves the items of a benchmark in topological order, so that a
profile is merged with an ancestor that has been merged with its own ancestors before. The
selection of a policy made for the resolved profile is the one that the selects of all the
ancestors, the oldest first, and then the profile's own would give.

## Main results

* `resolveAll_apply` — an item is resolved once, with its parent as resolved before;
* `latestSelect_resolveAll` — the latest select of an item is the same in the merged list as in
  all lists of the chain together;
* `resolved_selection` — so is the final selection.
-/

open InheritedTree KeyedMerge TopologicalOrder Relation

namespace OpenScap

/-! ### Resolving all items -/

/-- `xccdf_benchmark_resolve`, for items that are resolved in a given order. -/
def resolveAll (bench : ResolveBenchmark) (versionCmp : ℤ) (order : List ℕ)
    (items : ℕ → XccdfExtending) : ℕ → XccdfExtending :=
  order.foldl (fun items item => Function.update items item
    (xccdfResolveItem versionCmp (items item) ((bench.parent item).map items))) items

section ResolveAll

variable {bench : ResolveBenchmark} {versionCmp : ℤ} {order : List ℕ}
  {items : ℕ → XccdfExtending}

/-- Items that are not in the list stay as they are. -/
theorem resolveAll_of_notMem {item : ℕ} (h : item ∉ order) :
    resolveAll bench versionCmp order items item = items item := by
  induction order generalizing items with
  | nil => rfl
  | cons first order ih =>
      rw [List.mem_cons, not_or] at h
      rw [resolveAll, List.foldl_cons]
      exact (ih h.2).trans (Function.update_of_ne h.1 ..)

/-- **An item is resolved once**, with its parent as that was resolved before. -/
theorem resolveAll_apply (hnodup : order.Nodup)
    (hordered : Ordered (Edge bench.resolveDependencies) order) {item : ℕ} (h : item ∈ order) :
    resolveAll bench versionCmp order items item =
      xccdfResolveItem versionCmp (items item)
        ((bench.parent item).map (resolveAll bench versionCmp order items)) := by
  obtain ⟨before, after, rfl⟩ := List.append_of_mem h
  have hbefore : item ∉ before := fun hm =>
    (List.nodup_append.mp hnodup).2.2 item hm item List.mem_cons_self rfl
  have hafter : item ∉ after :=
    (List.nodup_cons.mp (List.nodup_append.mp hnodup).2.1).1
  have hsplit : resolveAll bench versionCmp (before ++ item :: after) items =
      resolveAll bench versionCmp after
        (resolveAll bench versionCmp [item] (resolveAll bench versionCmp before items)) := by
    rw [resolveAll, List.foldl_append, List.foldl_cons]
    rfl
  have hparent : (bench.parent item).map (resolveAll bench versionCmp (before ++ item :: after)
      items) = (bench.parent item).map (resolveAll bench versionCmp before items) := by
    cases hp : bench.parent item with
    | none => rfl
    | some parent =>
        have hmem := bench.ordered_parent hordered rfl hp
        have hne : parent ≠ item := fun he => hbefore (he ▸ hmem)
        have hnotAfter : parent ∉ after := fun hm =>
          (List.nodup_append.mp hnodup).2.2 parent hmem parent (List.mem_cons_of_mem _ hm) rfl
        rw [Option.map_some, Option.map_some, hsplit, resolveAll_of_notMem hnotAfter,
          resolveAll_of_notMem (by simpa using hne)]
  rw [hparent, hsplit, resolveAll_of_notMem hafter]
  show Function.update _ item _ item = _
  rw [Function.update_self, resolveAll_of_notMem hbefore]

end ResolveAll

/-! ### Chains of profiles -/

/-- The selects of a profile; other items have none. -/
def XccdfExtending.selects (item : XccdfExtending) : List XccdfSelect :=
  match item.lists with
  | .profile lists => lists.selects
  | _ => []

/-- A chain of profiles in which each extends the next, and the last extends none. -/
def IsExtendsChain (bench : ResolveBenchmark) (items : ℕ → XccdfExtending) : List ℕ → Prop
  | [] => False
  | [profile] => (items profile).type = .profile ∧ bench.parent profile = none
  | profile :: parent :: chain =>
      (items profile).type = .profile ∧ bench.parent profile = some parent ∧
        IsExtendsChain bench items (parent :: chain)

/-- The selects of a chain: those of the oldest ancestor first, and the profile's own last. -/
def chainSelects (items : ℕ → XccdfExtending) (chain : List ℕ) : List XccdfSelect :=
  chain.reverse.flatMap fun profile => (items profile).selects

/-- A profile is resolved to a profile with merged selects. -/
theorem resolveItem_profile {item parent : XccdfExtending} (versionCmp : ℤ)
    (hitem : item.type = .profile) (hparent : parent.type = .profile) :
    (xccdfResolveItem versionCmp item (some parent)).type = .profile ∧
      (xccdfResolveItem versionCmp item (some parent)).selects =
        unmatched XccdfSelect.item item.selects parent.selects ++ item.selects := by
  have hext : ExtendsItem versionCmp item parent :=
    ⟨hitem.trans hparent.symm, by rw [hitem]; simp, fun h => by simp [hitem] at h⟩
  rw [xccdfResolveItem_eq hext]
  obtain ⟨platforms, lists⟩ := item
  obtain ⟨platforms', lists'⟩ := parent
  cases lists with
  | profile child =>
      cases lists' with
      | profile parent =>
          exact ⟨rfl, appendlist_merges (fun p c => oscapStreq_iff p.item c.item)
            (fun _ => rfl) _ _⟩
      | _ => cases hparent
  | _ => cases hitem

/-- The latest select of two lists that follow each other. -/
theorem latestSelect_append_list (benchmark : XccdfBenchmark) (sels sels' : List XccdfSelect)
    (base : XccdfItemBase) :
    latestSelect benchmark (sels ++ sels') base =
      (latestSelect benchmark sels' base).or (latestSelect benchmark sels base) := by
  rw [latestSelect, latestSelect, latestSelect, List.reverse_append, List.find?_append]

/-- Leaving out what the child's selects override does not change the latest select. -/
theorem latestSelect_unmatched (benchmark : XccdfBenchmark) (child parent : List XccdfSelect)
    (base : XccdfItemBase) :
    latestSelect benchmark (unmatched XccdfSelect.item child parent ++ child) base =
      latestSelect benchmark (parent ++ child) base := by
  refine find?_reverse_unmatched (fun a b hab => decide_eq_decide.mpr ?_) child parent
  rw [Names, Names, hab]

/-- **The latest select of an item** is the same in the merged list as in all lists of the
chain. -/
theorem latestSelect_resolveAll {bench : ResolveBenchmark} {versionCmp : ℤ} {order : List ℕ}
    {items : ℕ → XccdfExtending} (hnodup : order.Nodup)
    (hordered : Ordered (Edge bench.resolveDependencies) order) {profile : ℕ} {chain : List ℕ}
    (hmem : profile ∈ order) (hchain : IsExtendsChain bench items (profile :: chain)) :
    (resolveAll bench versionCmp order items profile).type = .profile ∧
      ∀ (benchmark : XccdfBenchmark) (base : XccdfItemBase),
        latestSelect benchmark (resolveAll bench versionCmp order items profile).selects base =
          latestSelect benchmark (chainSelects items (profile :: chain)) base := by
  induction chain generalizing profile with
  | nil =>
      obtain ⟨htype, hparent⟩ := hchain
      rw [resolveAll_apply hnodup hordered hmem, hparent, Option.map_none, xccdfResolveItem,
        if_neg (by rw [htype]; simp)]
      exact ⟨htype, fun benchmark base => by simp [chainSelects]⟩
  | cons parent chain ih =>
      obtain ⟨htype, hparent, hrest⟩ := hchain
      obtain ⟨before, after, horder⟩ := List.append_of_mem hmem
      have hparentMem : parent ∈ order := by
        rw [horder]
        exact List.mem_append_left _ (bench.ordered_parent hordered horder hparent)
      obtain ⟨hptype, hlatest⟩ := ih hparentMem hrest
      rw [resolveAll_apply hnodup hordered hmem, hparent, Option.map_some]
      obtain ⟨hres, hsel⟩ := resolveItem_profile versionCmp htype hptype
      refine ⟨hres, fun benchmark base => ?_⟩
      rw [hsel, latestSelect_unmatched, latestSelect_append_list, hlatest,
        show chainSelects items (profile :: parent :: chain) =
          chainSelects items (parent :: chain) ++ (items profile).selects by
            simp [chainSelects],
        latestSelect_append_list]

/-! ### The selection -/

/-- The selection of a policy made for a profile that extends none, as a resolved one. -/
def selectionOf (model : XccdfPolicyModel) (sels : List XccdfSelect) : Option XccdfSelection :=
  xccdfPolicyNew model 1 (some ⟨"", none, sels⟩)

/-- Adding selects without resolving leaves the final flags alone. -/
theorem foldl_addSelector_selectedFinal (benchmark : XccdfBenchmark) (sels : List XccdfSelect)
    (policy : XccdfSelection) :
    (sels.foldl (fun policy sel => (addSelectorInternal policy benchmark sel false).policy)
      policy).selectedFinal = policy.selectedFinal := by
  induction sels generalizing policy with
  | nil => rfl
  | cons sel sels ih =>
      rw [List.foldl_cons, ih, addSelectorInternal_policy]
      rfl

/-- Only the items of the content have a final flag. -/
theorem selectedFinal_eq_none {model : XccdfPolicyModel} {sels : List XccdfSelect}
    {policy : XccdfSelection} (hnew : selectionOf model sels = some policy) {id : String}
    (hid : id ∉ keysList XccdfItemBase.id (contentTrees model.benchmark.content)) :
    policy.selectedFinal id = none := by
  obtain rfl := Option.some.inj hnew
  rw [resolveContent_eq_assignList (keysList_contentTrees_nodup model.benchmark)]
  show assignList _ _ _ _ _ id = none
  rw [assignList_of_not_mem XccdfItemBase.id _ hid, foldl_addSelector_selectedFinal]

/-- **The selection depends on the latest selects only.** -/
theorem selectedFinal_congr (model : XccdfPolicyModel) {sels sels' : List XccdfSelect}
    (h : ∀ base, latestSelect model.benchmark sels base =
      latestSelect model.benchmark sels' base) :
    ∃ policy policy', selectionOf model sels = some policy ∧
      selectionOf model sels' = some policy' ∧
      ∀ id, policy.selectedFinal id = policy'.selectedFinal id := by
  obtain ⟨policy, hpolicy, hsels⟩ := exists_batch model sels
  obtain ⟨policy', hpolicy', hsels'⟩ := exists_batch model sels'
  refine ⟨policy, policy', hpolicy, hpolicy', fun id => ?_⟩
  by_cases hid : id ∈ keysList XccdfItemBase.id (contentTrees model.benchmark.content)
  · obtain ⟨hlatest, hagrees⟩ := xccdfPolicyNew_spec hpolicy
    obtain ⟨hlatest', hagrees'⟩ := xccdfPolicyNew_spec hpolicy'
    have hlocal (entry : XccdfEntry) (hmem : entry ∈ model.benchmark.contentItems) :=
      local_selectedBy hlatest hmem (hagrees.agrees entry hmem List.not_mem_nil)
    have hlocal' (entry : XccdfEntry) (hmem : entry ∈ model.benchmark.contentItems) :=
      local_selectedBy hlatest' hmem (hagrees'.agrees entry hmem List.not_mem_nil)
    have hby : (fun base parent => parent && selectedBy model.benchmark policy'.selects base) =
        fun base parent => parent && selectedBy model.benchmark policy.selects base := by
      funext base parent
      rw [selectedBy, selectedBy, hsels, hsels', h]
    rw [hby] at hlocal'
    have hall := List.forall_mem_map.mpr hlocal
    have hall' := List.forall_mem_map.mpr hlocal'
    rw [XccdfBenchmark.contentItems, contentEntries_map_toMember] at hall hall'
    refine entryList_unique XccdfItemBase.id _ ?_ hall hall' id hid
    rfl
  · rw [selectedFinal_eq_none hpolicy hid, selectedFinal_eq_none hpolicy' hid]

/-- **Resolving profiles composes with the selection.** In a finite benchmark that can be
resolved, take a profile that the benchmark reaches and the chain of all that it extends. The
policy made for the resolved profile selects every item as one does whose selects are those
of the ancestors, the oldest first, and then those of the profile itself. -/
theorem resolved_selection (bench : ResolveBenchmark) (versionCmp : ℤ)
    (items : ℕ → XccdfExtending) (model : XccdfPolicyModel) {V : List ℕ}
    (hbench : bench.benchmark ∈ V) (hclosed : ∀ n ∈ V, ∀ m ∈ bench.resolveDependencies n, m ∈ V)
    {fuel : ℕ} (hfuel : V.length < fuel) {order : List ℕ}
    (hres : bench.resolve fuel = some (true, order)) {profile : ℕ} {chain : List ℕ}
    (hmem : ReflTransGen (Edge bench.resolveDependencies) bench.benchmark profile)
    (hchain : IsExtendsChain bench items (profile :: chain)) :
    ∃ resolved applied,
      selectionOf model (resolveAll bench versionCmp order items profile).selects =
        some resolved ∧
      selectionOf model (chainSelects items (profile :: chain)) = some applied ∧
      ∀ id, resolved.selectedFinal id = applied.selectedFinal id := by
  have hcmp : ∀ a b : ℕ, (a == b) = true ↔ a = b := by simp
  have hinput : ∀ n ∈ [bench.benchmark], n ∈ V := by simpa using hbench
  obtain ⟨ret, output, hrun, -, htrue⟩ := oscapTsort_correct hcmp hinput hclosed hfuel
  rw [ResolveBenchmark.resolve, hrun] at hres
  cases ret with
  | false => simp at hres
  | true =>
      obtain rfl : output = order := by simpa using hres
      obtain ⟨hnodup, hall, hordered⟩ := htrue rfl
      have hin : profile ∈ output := (hall profile).mpr ⟨_, List.mem_singleton_self _, hmem⟩
      exact selectedFinal_congr model fun base =>
        (latestSelect_resolveAll hnodup hordered hin hchain).2 model.benchmark base

/-- A benchmark with three profiles, each of which extends the next. -/
def chainBenchmark : ResolveBenchmark where
  benchmark := 0
  item n :=
    if n = 0 then ⟨.benchmark, none, [], [], [1]⟩
    else ⟨.profile, if n = 1 then some "two" else if n = 2 then some "three" else none,
      [], [], []⟩
  getMember type id :=
    if type = .profile ∧ id = "two" then some 2
    else if type = .profile ∧ id = "three" then some 3
    else none

/-- The three profiles, with selects of the same rules. -/
def chainItems (n : ℕ) : XccdfExtending :=
  if n = 0 then ⟨[], .benchmark⟩
  else if n = 1 then ⟨[], .profile ⟨[⟨"b", true⟩, ⟨"b", false⟩], [], [], []⟩⟩
  else if n = 2 then ⟨[], .profile ⟨[⟨"x", false⟩], [], [], []⟩⟩
  else ⟨[], .profile ⟨[⟨"x", true⟩, ⟨"b", true⟩], [], [], []⟩⟩

/-- The first of the three profiles, resolved, in a benchmark with the two rules. -/
theorem resolved_selection_chain :
    ∃ resolved applied,
      selectionOf ⟨clusterBenchmark, [], []⟩
        (resolveAll chainBenchmark (-1) [3, 2, 1, 0] chainItems 1).selects = some resolved ∧
      selectionOf ⟨clusterBenchmark, [], []⟩ (chainSelects chainItems [1, 2, 3]) =
        some applied ∧
      ∀ id, resolved.selectedFinal id = applied.selectedFinal id := by
  have hreach : ReflTransGen (Edge chainBenchmark.resolveDependencies) 0 1 :=
    .single (show 1 ∈ chainBenchmark.resolveDependencies 0 by decide)
  exact resolved_selection chainBenchmark (-1) chainItems ⟨clusterBenchmark, [], []⟩
    (V := [0, 1, 2, 3]) (by decide) (by decide) (show 4 < 5 by omega) (by decide) hreach
    ⟨rfl, rfl, rfl, rfl, rfl, rfl⟩

end OpenScap
