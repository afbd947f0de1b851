import OpenScap.TopologicalOrder

/-!
# Topological sorting

`oscap_tsort` sorts the nodes that can be reached from a list of nodes so that every node
comes after the nodes that its edges point to. It searches depth first and keeps three
lists: the nodes visited so far, the path to the current node, and the sorted nodes.
`xccdf_benchmark_resolve` has it sort a benchmark's items and profiles by what they
contain and extend, and resolves them in that order.

The recursion of `oscap_tsort_visit` has a bound on its depth (`fuel`), which a finite graph
does not reach.

## Main results

* `tsortVisit_spec` — what a visit does to the lists, or which cycle it met;
* `oscapTsort_correct` — the sort ends, fails exactly when a cycle can be reached, and
  otherwise lists the reachable nodes once each in topological order;
* `benchmarkResolve_order` — an item is resolved after the item that it extends.
-/

open Relation TopologicalOrder

namespace OpenScap

/-! ### The sort -/

/-- `struct oscap_tsort_context`: the three lists. -/
structure TsortContext (α : Type*) where
  visited : List α
  curStack : List α
  result : List α

section Tsort

variable {α : Type*} (edgeFunc : α → List α) (cmpFunc : α → α → Bool)

/-- `oscap_list_contains`. -/
def oscapListContains (list : List α) (what : α) : Bool :=
  list.any fun item => cmpFunc item what

/-- `oscap_tsort_visit_all`, with the visit of one node as a parameter. -/
def tsortVisitAll (visit : α → TsortContext α → Option (Bool × TsortContext α)) :
    List α → TsortContext α → Option (Bool × TsortContext α)
  | [], ctx => some (true, ctx)
  | node :: nodes, ctx =>
      match visit node ctx with
      | none => none
      | some (false, ctx) => some (false, ctx)
      | some (true, ctx) => tsortVisitAll visit nodes ctx

/-- `oscap_tsort_visit`. -/
def tsortVisit : Nat → α → TsortContext α → Option (Bool × TsortContext α)
  | 0, _, _ => none
  | fuel + 1, node, ctx =>
      if oscapListContains cmpFunc ctx.curStack node then some (false, ctx)
      else if oscapListContains cmpFunc ctx.visited node then some (true, ctx)
      else
        match tsortVisitAll (tsortVisit fuel) (edgeFunc node)
          { ctx with visited := ctx.visited ++ [node], curStack := ctx.curStack ++ [node] } with
        | none => none
        | some (ret, ctx) =>
            let curStack := if ret then ctx.curStack.dropLast else ctx.curStack
            some (ret, { ctx with curStack := curStack, result := ctx.result ++ [node] })

/-- `oscap_tsort`: the return value and the output list, which holds the path with the cycle
if the sort fails. -/
def oscapTsort (fuel : Nat) (input : List α) : Option (Bool × List α) :=
  match tsortVisitAll (tsortVisit edgeFunc cmpFunc fuel) input ⟨[], [], []⟩ with
  | none => none
  | some (true, ctx) => some (true, ctx.result)
  | some (false, ctx) => some (false, ctx.curStack)

/-! ### What a visit does -/

/-- There is an edge. -/
def Edge (a b : α) : Prop := b ∈ edgeFunc a

/-- The lists of a search that has met no cycle: a visited node is on the path or sorted, not
both, and the sorted nodes are in topological order. -/
structure TsortContext.Inv (ctx : TsortContext α) : Prop where
  visited_iff : ∀ v, v ∈ ctx.visited ↔ v ∈ ctx.curStack ∨ v ∈ ctx.result
  disjoint : ∀ v ∈ ctx.curStack, v ∉ ctx.result
  nodup : ctx.result.Nodup
  ordered : Ordered (Edge edgeFunc) ctx.result

/-- What a search from `nodes` that meets no cycle does to the lists. -/
structure TsortContext.Done (nodes : List α) (ctx ctx' : TsortContext α) : Prop where
  inv : ctx'.Inv edgeFunc
  curStack_eq : ctx'.curStack = ctx.curStack
  result_subset : ∀ v ∈ ctx.result, v ∈ ctx'.result
  sorted : ∀ v ∈ nodes, v ∈ ctx'.result
  reached : ∀ v ∈ ctx'.result, v ∈ ctx.result ∨ ∃ n ∈ nodes, ReflTransGen (Edge edgeFunc) n v

variable {edgeFunc cmpFunc}

/-- A search only adds to the visited nodes. -/
theorem TsortContext.Done.visited_subset {nodes : List α} {ctx ctx' : TsortContext α}
    (h : ctx.Done edgeFunc nodes ctx') (hinv : ctx.Inv edgeFunc) :
    ∀ v ∈ ctx.visited, v ∈ ctx'.visited := by
  intro v hv
  rw [h.inv.visited_iff, h.curStack_eq]
  exact ((hinv.visited_iff v).mp hv).imp_right (h.result_subset v)

/-- The nodes of `nodes` that are not in `visited`. -/
def unvisited (cmpFunc : α → α → Bool) (nodes visited : List α) : List α :=
  nodes.filter fun v => !oscapListContains cmpFunc visited v

section Compare

variable (hcmp : ∀ a b, cmpFunc a b = true ↔ a = b)

include hcmp

theorem oscapListContains_iff (list : List α) (what : α) :
    oscapListContains cmpFunc list what = true ↔ what ∈ list := by
  simp only [oscapListContains, List.any_eq_true, hcmp]
  exact ⟨fun ⟨a, ha, h⟩ => h ▸ ha, fun h => ⟨what, h, rfl⟩⟩

theorem not_oscapListContains_iff (list : List α) (what : α) :
    (!oscapListContains cmpFunc list what) = true ↔ what ∉ list := by
  rw [Bool.not_eq_true', Bool.eq_false_iff, ne_eq, oscapListContains_iff hcmp]

/-- Visiting more nodes leaves no more unvisited. -/
theorem length_unvisited_le {nodes visited visited' : List α}
    (hsub : ∀ v ∈ visited, v ∈ visited') :
    (unvisited cmpFunc nodes visited').length ≤ (unvisited cmpFunc nodes visited).length := by
  apply List.Sublist.length_le
  apply List.monotone_filter_right
  intro v hv
  have hout := (not_oscapListContains_iff hcmp visited' v).mp hv
  exact (not_oscapListContains_iff hcmp visited v).mpr fun h => hout (hsub v h)

/-- Visiting a node of the graph leaves one less. -/
theorem length_unvisited_lt {nodes visited : List α} {node : α} (hnode : node ∈ nodes)
    (hnew : node ∉ visited) :
    (unvisited cmpFunc nodes (visited ++ [node])).length <
      (unvisited cmpFunc nodes visited).length := by
  induction nodes with
  | nil => cases hnode
  | cons n nodes ih =>
      have hle : (unvisited cmpFunc nodes (visited ++ [node])).length ≤
          (unvisited cmpFunc nodes visited).length :=
        length_unvisited_le hcmp fun v hv => List.mem_append_left _ hv
      unfold unvisited at ih hle ⊢
      rw [List.filter_cons, List.filter_cons]
      have hiff := not_oscapListContains_iff hcmp
      by_cases hn : n = node
      · subst hn
        rw [if_neg (by simp [hiff]), if_pos ((hiff _ _).mpr hnew), List.length_cons]
        omega
      · have hlt := ih ((List.mem_cons.mp hnode).resolve_left fun h => hn h.symm)
        by_cases hv : n ∈ visited
        · rw [if_neg (by simp [hiff, hv]), if_neg (by simp [hiff, hv])]
          exact hlt
        · rw [if_pos ((hiff _ _).mpr (by simp [hv, hn])), if_pos ((hiff _ _).mpr hv),
            List.length_cons, List.length_cons]
          omega

omit hcmp in
/-- What a visit of one node gives for the nodes of a list, `tsortVisitAll` gives for the
list. `room` is what a visit needs of the lists to have enough of its bound left. -/
theorem tsortVisitAll_spec (visit : α → TsortContext α → Option (Bool × TsortContext α))
    (stack : List α) (room : TsortContext α → Prop) (nodes : List α)
    (hroom : ∀ nodes ctx ctx', ctx.Inv edgeFunc → ctx.Done edgeFunc nodes ctx' → room ctx →
      room ctx') (hvisit : ∀ n ∈ nodes, ∀ ctx : TsortContext α,
      ctx.Inv edgeFunc → ctx.curStack = stack → room ctx →
      ∃ ret ctx', visit n ctx = some (ret, ctx') ∧
        (ret = true → ctx.Done edgeFunc [n] ctx') ∧
        (ret = false → ReachesCycle (Edge edgeFunc) n))
    {ctx : TsortContext α} (hinv : ctx.Inv edgeFunc) (hstack : ctx.curStack = stack)
    (hctx : room ctx) :
    ∃ ret ctx', tsortVisitAll visit nodes ctx = some (ret, ctx') ∧
      (ret = true → ctx.Done edgeFunc nodes ctx') ∧
      (ret = false → ∃ n ∈ nodes, ReachesCycle (Edge edgeFunc) n) := by
  induction nodes generalizing ctx with
  | nil =>
      refine ⟨true, ctx, rfl, fun _ => ?_, fun h => by cases h⟩
      exact ⟨hinv, rfl, fun _ h => h, (fun _ h => by cases h), fun _ h => .inl h⟩
  | cons n nodes ih =>
      obtain ⟨ret, ctx₁, hrun, htrue, hfalse⟩ := hvisit n (by simp) ctx hinv hstack hctx
      cases ret with
      | false =>
          exact ⟨false, ctx₁, by simp [tsortVisitAll, hrun], (fun h => by cases h),
            fun _ => ⟨n, by simp, hfalse rfl⟩⟩
      | true =>
          have h₁ := htrue rfl
          obtain ⟨ret, ctx₂, hrun₂, htrue₂, hfalse₂⟩ :=
            ih (fun m hm => hvisit m (by simp [hm])) h₁.inv (h₁.curStack_eq.trans hstack)
              (hroom _ _ _ hinv h₁ hctx)
          refine ⟨ret, ctx₂, by simp [tsortVisitAll, hrun, hrun₂], fun h => ?_, fun h => ?_⟩
          · have h₂ := htrue₂ h
            refine ⟨h₂.inv, h₂.curStack_eq.trans h₁.curStack_eq,
              fun v hv => h₂.result_subset v (h₁.result_subset v hv), fun v hv => ?_,
              fun v hv => ?_⟩
            · rcases List.mem_cons.mp hv with rfl | hv
              · exact h₂.result_subset v (h₁.sorted v (by simp))
              · exact h₂.sorted v hv
            · rcases h₂.reached v hv with hv | ⟨m, hm, hmv⟩
              · rcases h₁.reached v hv with hv | ⟨m, hm, hmv⟩
                · exact .inl hv
                · rw [List.mem_singleton] at hm
                  exact .inr ⟨m, by simp [hm], hmv⟩
              · exact .inr ⟨m, by simp [hm], hmv⟩
          · obtain ⟨m, hm, hcycle⟩ := hfalse₂ h
            exact ⟨m, by simp [hm], hcycle⟩

/-- **What a visit does.** In a finite graph whose nodes are `V`, with a path that leads to the
node, a visit ends; it sorts the node and what it reaches, or the node reaches a cycle. -/
theorem tsortVisit_spec {V : List α} (hclosed : ∀ n ∈ V, ∀ m ∈ edgeFunc n, m ∈ V) {fuel : Nat}
    {node : α} (hnode : node ∈ V) {ctx : TsortContext α} (hinv : ctx.Inv edgeFunc)
    (hpath : ∀ s ∈ ctx.curStack, TransGen (Edge edgeFunc) s node)
    (hfuel : (unvisited cmpFunc V ctx.visited).length < fuel) :
    ∃ ret ctx', tsortVisit edgeFunc cmpFunc fuel node ctx = some (ret, ctx') ∧
      (ret = true → ctx.Done edgeFunc [node] ctx') ∧
      (ret = false → ReachesCycle (Edge edgeFunc) node) := by
  induction fuel generalizing node ctx with
  | zero => omega
  | succ fuel ih =>
      rw [tsortVisit]
      by_cases hon : node ∈ ctx.curStack
      · rw [if_pos ((oscapListContains_iff hcmp _ _).mpr hon)]
        exact ⟨false, ctx, rfl, (fun h => by cases h),
          fun _ => ⟨node, ReflTransGen.refl, hpath node hon⟩⟩
      rw [if_neg (by rwa [oscapListContains_iff hcmp])]
      by_cases hseen : node ∈ ctx.visited
      · rw [if_pos ((oscapListContains_iff hcmp _ _).mpr hseen)]
        have hres := ((hinv.visited_iff node).mp hseen).resolve_left hon
        refine ⟨true, ctx, rfl, fun _ => ?_, fun h => by cases h⟩
        refine ⟨hinv, rfl, fun _ h => h, fun v hv => ?_, fun _ h => .inl h⟩
        rw [List.mem_singleton] at hv
        exact hv ▸ hres
      rw [if_neg (by rwa [oscapListContains_iff hcmp])]
      have hnew : node ∉ ctx.result := fun h => hseen ((hinv.visited_iff node).mpr (.inr h))
      -- the lists when the search goes on to the node's edges
      have hinv₁ : TsortContext.Inv edgeFunc
          { ctx with visited := ctx.visited ++ [node], curStack := ctx.curStack ++ [node] } := by
        refine ⟨fun v => ?_, fun v hv => ?_, hinv.nodup, hinv.ordered⟩
        · simp only [List.mem_append, List.mem_singleton, hinv.visited_iff v]
          tauto
        · rcases List.mem_append.mp hv with hv | hv
          · exact hinv.disjoint v hv
          · rw [List.mem_singleton] at hv
            exact hv ▸ hnew
      have hlt := length_unvisited_lt hcmp hnode hseen
      obtain ⟨ret, ctx₂, hrun, htrue, hfalse⟩ := tsortVisitAll_spec
        (tsortVisit edgeFunc cmpFunc fuel) (ctx.curStack ++ [node])
        (fun c => (unvisited cmpFunc V c.visited).length < fuel) (edgeFunc node)
        (fun nodes c c' hc hd hr =>
          Nat.lt_of_le_of_lt (length_unvisited_le hcmp (hd.visited_subset hc)) hr)
        (fun n hn c hc hstack hr => by
          refine ih (hclosed node hnode n hn) hc (fun s hs => ?_) hr
          rw [hstack] at hs
          rcases List.mem_append.mp hs with hs | hs
          · exact TransGen.tail (hpath s hs) hn
          · rw [List.mem_singleton] at hs
            exact hs ▸ TransGen.single hn)
        hinv₁ rfl (by simp only; omega)
      rw [hrun]
      refine ⟨ret, _, rfl, fun hret => ?_, fun hret => ?_⟩
      · subst hret
        have hd := htrue rfl
        have hout : node ∉ ctx₂.result := by
          refine hd.inv.disjoint node ?_
          rw [hd.curStack_eq]
          simp
        refine ⟨⟨fun v => ?_, fun v hv => ?_, ?_, ?_⟩, ?_, fun v hv => ?_, fun v hv => ?_,
          fun v hv => ?_⟩
        · have hvis := hd.inv.visited_iff v
          rw [hd.curStack_eq] at hvis ⊢
          simp only [List.mem_append, List.mem_singleton, if_true, List.dropLast_concat] at hvis ⊢
          rw [hvis]
          tauto
        · rw [hd.curStack_eq] at hv
          simp only [if_true, List.dropLast_concat] at hv
          simp only [List.mem_append, List.mem_singleton, not_or]
          refine ⟨hd.inv.disjoint v ?_, ?_⟩
          · rw [hd.curStack_eq]
            simp [hv]
          · rintro rfl
            exact hon hv
        · refine List.Nodup.append hd.inv.nodup (by simp) ?_
          simpa using hout
        · exact hd.inv.ordered.snoc fun w hw => hd.sorted w hw
        · rw [hd.curStack_eq]
          simp
        · exact List.mem_append_left _ (hd.result_subset v hv)
        · exact List.mem_append_right _ hv
        · rcases List.mem_append.mp hv with hv | hv
          · rcases hd.reached v hv with hv | ⟨n, hn, hnv⟩
            · exact .inl hv
            · exact .inr ⟨node, by simp, ReflTransGen.head hn hnv⟩
          · rw [List.mem_singleton] at hv
            exact .inr ⟨node, by simp, hv ▸ ReflTransGen.refl⟩
      · obtain ⟨n, hn, hcycle⟩ := hfalse hret
        exact hcycle.head hn

/-- **The sort of a finite graph.** It ends; it fails exactly when a cycle can be reached from
the given nodes; otherwise its output has every node that can be reached once, after all the
nodes that its edges point to. -/
theorem oscapTsort_correct {V : List α} {input : List α} (hinput : ∀ n ∈ input, n ∈ V)
    (hclosed : ∀ n ∈ V, ∀ m ∈ edgeFunc n, m ∈ V) {fuel : Nat} (hfuel : V.length < fuel) :
    ∃ ret output, oscapTsort edgeFunc cmpFunc fuel input = some (ret, output) ∧
      (ret = true ↔ ¬ ∃ s ∈ input, ReachesCycle (Edge edgeFunc) s) ∧
      (ret = true → output.Nodup ∧
        (∀ v, v ∈ output ↔ ∃ s ∈ input, ReflTransGen (Edge edgeFunc) s v) ∧
        Ordered (Edge edgeFunc) output) := by
  have hempty : TsortContext.Inv edgeFunc (⟨[], [], []⟩ : TsortContext α) :=
    ⟨fun v => by simp, (fun v hv => by cases hv), List.nodup_nil, ordered_nil⟩
  obtain ⟨ret, ctx, hrun, htrue, hfalse⟩ := tsortVisitAll_spec
    (tsortVisit edgeFunc cmpFunc fuel) []
    (fun c => (unvisited cmpFunc V c.visited).length < fuel) input
    (fun nodes c c' hc hd hr =>
      Nat.lt_of_le_of_lt (length_unvisited_le hcmp (hd.visited_subset hc)) hr)
    (fun n hn c hc hstack hr => by
      refine tsortVisit_spec hcmp hclosed (hinput n hn) hc (fun s hs => ?_) hr
      rw [hstack] at hs
      cases hs)
    hempty rfl (Nat.lt_of_le_of_lt (List.length_filter_le _ _) hfuel)
  cases ret with
  | false =>
      refine ⟨false, ctx.curStack, by simp [oscapTsort, hrun], ?_, fun h => by cases h⟩
      simpa using hfalse rfl
  | true =>
      have hd := htrue rfl
      refine ⟨true, ctx.result, by simp [oscapTsort, hrun], ?_, fun _ => ⟨hd.inv.nodup, ?_,
        hd.inv.ordered⟩⟩
      · refine iff_of_true rfl ?_
        rintro ⟨s, hs, hcycle⟩
        exact hd.inv.ordered.not_reachesCycle hd.inv.nodup (hd.sorted s hs) hcycle
      · intro v
        constructor
        · intro hv
          exact (hd.reached v hv).resolve_left (by simp)
        · rintro ⟨s, hs, hsv⟩
          exact hd.inv.ordered.mem_of_reaches (hd.sorted s hs) hsv

end Compare

end Tsort

/-! ### Resolving a benchmark -/

/-- `xccdf_type_t`, as far as dependencies tell the types apart. -/
inductive ResolveType
  | benchmark
  | profile
  | group
  | rule
  | value
  deriving DecidableEq, Repr

/-- What the dependencies of an item are read off. Items are named by their addresses. -/
structure ResolveItem where
  type : ResolveType
  extends_ : Option String
  content : List Nat
  values : List Nat
  profiles : List Nat
  deriving DecidableEq, Repr

/-- A benchmark: its items, and `xccdf_benchmark_get_member`. -/
structure ResolveBenchmark where
  benchmark : Nat
  item : Nat → ResolveItem
  getMember : ResolveType → String → Option Nat

namespace ResolveBenchmark

variable (bench : ResolveBenchmark)

/-- The item that an item extends. -/
def parent (item : Nat) : Option Nat :=
  (bench.item item).extends_.bind (bench.getMember (bench.item item).type)

/-- `xccdf_benchmark_resolve_dependencies`. -/
def resolveDependencies (item : Nat) : List Nat :=
  (bench.parent item).toList ++
    (match (bench.item item).type with
      | .benchmark => (bench.item item).profiles
      | _ => []) ++
    (match (bench.item item).type with
      | .benchmark | .group => (bench.item item).content
      | _ => []) ++
    (match (bench.item item).type with
      | .benchmark | .group => (bench.item item).values
      | _ => [])

/-- `xccdf_benchmark_resolve`: the return value, and the items in the order in which
`xccdf_resolve_item` is called on them. -/
def resolve (fuel : Nat) : Option (Bool × List Nat) :=
  match oscapTsort bench.resolveDependencies (fun a b => a == b) fuel [bench.benchmark] with
  | none => none
  | some (true, resolveOrder) => some (true, resolveOrder)
  | some (false, _) => some (false, [])

/-- An item is resolved after the item that it extends. -/
theorem ordered_parent {order : List Nat} (h : Ordered (Edge bench.resolveDependencies) order)
    {before after : List Nat} {item parent : Nat} (horder : order = before ++ item :: after)
    (hparent : bench.parent item = some parent) : parent ∈ before := by
  refine h before item after horder parent ?_
  simp [Edge, resolveDependencies, hparent]

end ResolveBenchmark

/-- **Topological sorting, and resolving a benchmark by it.** In a finite graph, with a
comparison that tells nodes apart, the sort ends, fails exactly when a cycle can be reached,
and otherwise lists the nodes that can be reached once each in topological order. So
`xccdf_benchmark_resolve` resolves every item that the benchmark contains or that is extended
there, each once and after the item that it extends, unless there is a cycle. -/
theorem oscapTsort_resolve :
    (∀ {α : Type} (edgeFunc : α → List α) (cmpFunc : α → α → Bool),
      (∀ a b, cmpFunc a b = true ↔ a = b) →
      ∀ (V input : List α), (∀ n ∈ input, n ∈ V) → (∀ n ∈ V, ∀ m ∈ edgeFunc n, m ∈ V) →
      ∀ fuel, V.length < fuel →
      ∃ ret output, oscapTsort edgeFunc cmpFunc fuel input = some (ret, output) ∧
        (ret = true ↔ ¬ ∃ s ∈ input, ReachesCycle (Edge edgeFunc) s) ∧
        (ret = true → output.Nodup ∧
          (∀ v, v ∈ output ↔ ∃ s ∈ input, ReflTransGen (Edge edgeFunc) s v) ∧
          Ordered (Edge edgeFunc) output)) ∧
    ∀ (bench : ResolveBenchmark) (V : List Nat), bench.benchmark ∈ V →
      (∀ n ∈ V, ∀ m ∈ bench.resolveDependencies n, m ∈ V) →
      ∀ fuel, V.length < fuel →
      ∃ ret order, bench.resolve fuel = some (ret, order) ∧
        (ret = true ↔ ¬ ReachesCycle (Edge bench.resolveDependencies) bench.benchmark) ∧
        (ret = true → order.Nodup ∧
          (∀ item, item ∈ order ↔
            ReflTransGen (Edge bench.resolveDependencies) bench.benchmark item) ∧
          ∀ before item after, order = before ++ item :: after →
            ∀ parent, bench.parent item = some parent → parent ∈ before) := by
  refine ⟨fun edgeFunc cmpFunc hcmp V input hinput hclosed fuel hfuel =>
    oscapTsort_correct hcmp hinput hclosed hfuel, fun bench V hbench hclosed fuel hfuel => ?_⟩
  have hcmp : ∀ a b : Nat, (a == b) = true ↔ a = b := by simp
  have hinput : ∀ n ∈ [bench.benchmark], n ∈ V := by simpa using hbench
  obtain ⟨ret, output, hrun, hret, htrue⟩ := oscapTsort_correct hcmp hinput hclosed hfuel
  simp only [List.mem_singleton, exists_eq_left] at hret htrue
  cases ret with
  | false => exact ⟨false, [], by simp [ResolveBenchmark.resolve, hrun], hret, fun h => by cases h⟩
  | true =>
      obtain ⟨hnodup, hmem, hordered⟩ := htrue rfl
      exact ⟨true, output, by simp [ResolveBenchmark.resolve, hrun], hret, fun _ =>
        ⟨hnodup, hmem, fun before item after horder parent hparent =>
          bench.ordered_parent hordered horder hparent⟩⟩

/-- A benchmark with two profiles, the first of which extends the second. -/
def extendingProfile : ResolveBenchmark where
  benchmark := 0
  item n :=
    if n = 0 then ⟨.benchmark, none, [], [], [1, 2]⟩
    else ⟨.profile, if n = 1 then some "base" else none, [], [], []⟩
  getMember type id := if type = .profile ∧ id = "base" then some 2 else none

/-- The sort on a graph with a shared node, and the resolving of the two profiles. -/
theorem oscapTsort_resolve_extendingProfile :
    (∃ ret output, oscapTsort extendingProfile.resolveDependencies (fun a b => a == b) 4 [1, 2] =
        some (ret, output) ∧
      (ret = true ↔ ¬ ∃ s ∈ [1, 2],
        ReachesCycle (Edge extendingProfile.resolveDependencies) s) ∧
      (ret = true → output.Nodup ∧
        (∀ v, v ∈ output ↔ ∃ s ∈ [1, 2],
          ReflTransGen (Edge extendingProfile.resolveDependencies) s v) ∧
        Ordered (Edge extendingProfile.resolveDependencies) output)) ∧
    ∃ ret order, extendingProfile.resolve 4 = some (ret, order) ∧
      (ret = true ↔ ¬ ReachesCycle (Edge extendingProfile.resolveDependencies) 0) ∧
      (ret = true → order.Nodup ∧
        (∀ item, item ∈ order ↔
          ReflTransGen (Edge extendingProfile.resolveDependencies) 0 item) ∧
        ∀ before item after, order = before ++ item :: after →
          ∀ parent, extendingProfile.parent item = some parent → parent ∈ before) :=
  ⟨oscapTsort_resolve.1 _ _ (by simp) [0, 1, 2] [1, 2] (by decide) (by decide) 4 (by decide),
    oscapTsort_resolve.2 extendingProfile [0, 1, 2] (by decide) (by decide) 4 (by decide)⟩

/-- The second profile comes first. -/
example : extendingProfile.resolve 4 = some (true, [2, 1, 0]) := by decide

end OpenScap
