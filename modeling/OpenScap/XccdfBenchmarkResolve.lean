import OpenScap.XccdfResolveGroups

/-!
# Resolving a benchmark

An item is resolved after what it contains and extends. So the items that are done stay closed
under membership, and each of them is left extending only what could not complete it.

## Main results

* `resolveItem_ends`, `resolveItems_ends` — resolving one item, and all of them in order;
* `benchmarkResolve_ends` — what a call makes of the benchmark, by its return value;
* `not_benchmarkResolve_all` — a reference to an item that is missing is left.
-/

open AssertedRun Relation TopologicalOrder

namespace OpenScap.XccdfResolution

/-! ### Items -/

section Items

variable {s₀ s s' : Benchmark} {done busy : List ℕ} {rank rank' : ℕ → ℕ} {x y a c src : ℕ}
  {depth : ℕ}

/-- The benchmark before the call: members of lists and dictionaries are in use, lists have the
types that belong there, and groups nest in no cycle. -/
structure WellFormed (s : Benchmark) (rank : ℕ → ℕ) : Prop where
  benchmark_lt : s.benchmark < s.next
  children_lt : ∀ x < s.next, ∀ y ∈ childrenOf s.items x, y < s.next
  member_lt : ∀ type id p, s.dicts.getMember type id = some p → p < s.next
  typed : ∀ x < s.next, ListsTyped s.items x
  nests : Nests s.items rank s.benchmark

/-- More items may be changed. -/
theorem Inv.weaken (h : Inv s₀ done [] s rank) (busy : List ℕ) : Inv s₀ done busy s rank :=
  { h with untouched := fun y hy hdone _ => h.untouched y hy hdone (List.not_mem_nil) }

/-- An item whose members are live and which is settled is done. -/
theorem Inv.finish (h : Inv s₀ done [x] s rank) (hbusy : Busy s₀ done s x)
    (hsettled : Settled s₀ (s.items x)) :
    Inv s₀ (done ++ [x]) [] s (Function.update rank x done.length) := by
  have hmono : ∀ y, Live s₀ done s y → Live s₀ (done ++ [x]) s y := fun y hy =>
    hy.imp_left (List.mem_append_left _)
  have hcases : ∀ y, Live s₀ (done ++ [x]) s y → Live s₀ done s y ∨ y = x := by
    rintro y (hy | hy)
    · rcases List.mem_append.mp hy with hy | hy
      · exact .inl (.inl hy)
      · exact .inr (List.mem_singleton.mp hy)
    · exact .inl (.inr hy)
  have hrank : ∀ y, Live s₀ done s y → Function.update rank x done.length y = rank y :=
    fun y hy => Function.update_of_ne (by rintro rfl; exact hbusy.not_live hy) _ _
  have hlength : (done ++ [x]).length = done.length + 1 := by simp
  refine { h with
    done_lt := ?_, untouched := ?_, settled := ?_, children := ?_, bounded := ?_, typed := ?_
    member_new := fun type id p hp => (h.member_new type id p hp).imp_right (hmono p) }
  · intro y hy
    rcases List.mem_append.mp hy with hy | hy
    · exact h.done_lt y hy
    · exact List.mem_singleton.mp hy ▸ hbusy.lt
  · intro y hy hdone _
    rw [List.mem_append, not_or] at hdone
    exact h.untouched y hy hdone.1 hdone.2
  · intro y hy
    rcases hcases y hy with hy | rfl
    · exact h.settled y hy
    · exact hsettled
  · intro y hy z hz
    rcases hcases y hy with hy | rfl
    · obtain ⟨hlive, hlt⟩ := h.children y hy z hz
      rw [hrank y hy, hrank z hlive]
      exact ⟨hmono z hlive, hlt⟩
    · have hlive := hbusy.children z hz
      rw [hrank z hlive, Function.update_self]
      exact ⟨hmono z hlive, h.bounded z hlive⟩
  · intro y hy
    rw [hlength]
    rcases hcases y hy with hy | rfl
    · rw [hrank y hy]
      exact Nat.lt_succ_of_lt (h.bounded y hy)
    · rw [Function.update_self]
      exact Nat.lt_succ_self _
  · intro y hy
    rcases hcases y hy with hy | rfl
    · exact h.typed y hy
    · exact hbusy.typed

/-- Merging keeps the type. -/
theorem type_xccdfResolveItem (versionCmp : ℤ) (item : XccdfExtending)
    (parent : Option XccdfExtending) :
    (xccdfResolveItem versionCmp item parent).type = item.type := by
  unfold xccdfResolveItem
  cases parent with
  | none => exact congrArg _ (ite_self _)
  | some parent =>
      simp only
      split_ifs
      · rfl
      · rfl
      · rfl
      · obtain ⟨platforms, lists⟩ := item
        obtain ⟨platforms', lists'⟩ := parent
        cases lists <;> cases lists' <;> rfl

/-- The dependencies of an item are what it extends and its members. -/
theorem mem_resolveDependencies : y ∈ s.graph.resolveDependencies x ↔
    (s.items x).extends_.bind (s.dicts.getMember (s.items x).type) = some y ∨
      y ∈ childrenOf s.items x := by
  have hparent : s.graph.parent x =
      (s.items x).extends_.bind (s.dicts.getMember (s.items x).type) := rfl
  have htype : (s.graph.item x).type = (s.items x).type := rfl
  rw [ResolveBenchmark.resolveDependencies, mem_childrenOf, List.mem_append, List.mem_append,
    List.mem_append, hparent, Option.mem_toList, htype, Item.IsContainer, or_assoc, or_assoc]
  refine or_congr Iff.rfl ?_
  cases (s.items x).type
  all_goals simp [Benchmark.graph]

/-- Completing an item ends, or fails an assertion. -/
theorem complete_ends {p : ℕ} (h : Inv s₀ done [x] s rank) (hbusy : Busy s₀ done s x)
    (hp : Live s₀ done s p) (htype : (s.items p).type = (s.items x).type)
    (hdepth : done.length ≤ depth) :
    Ends (fun s' => ∃ rank', Inv s₀ (done ++ [x]) [] s' rank') (s.complete depth x p) := by
  -- the merged data
  obtain ⟨item, hitem⟩ : ∃ item : Item,
      { s.items x with
        data := xccdfResolveItem s.versionCmp (s.items x).data (s.items p).data } = item :=
    ⟨_, rfl⟩
  have hitemType : item.type = (s.items x).type := by
    rw [← hitem]
    exact type_xccdfResolveItem _ _ _
  have hgrown : Grown (s.items x) item := by
    refine ⟨hitemType, ?_, ?_, ?_, ?_⟩
    all_goals rw [← hitem]
    · exact fun _ h => h
    · exact fun _ h => h
  have hinv₁ : Inv s₀ done [x] (s.set x item) rank :=
    h.set (List.mem_singleton_self x) hbusy.not_live item fun hx => (h.grown x hx).trans hgrown
  have hother : ∀ y, Live s₀ done s y → (s.set x item).items y = s.items y := fun y hy =>
    s.items_set_of_ne item (by rintro rfl; exact hbusy.not_live hy)
  have hbusy₁ : Busy s₀ done (s.set x item) x := by
    refine hbusy.of_same (Nat.le_refl _) ?_ ?_ ?_ ?_ fun y hy => by rw [hother y hy]
    all_goals rw [s.items_set_self]
    · exact hitemType
    all_goals rw [← hitem]
  have hmembers : Ends (fun s' => ∃ rank', Inv s₀ done [x] s' rank' ∧ Busy s₀ done s' x)
      ((s.set x item).resolveMembers depth x p) := by
    rw [Benchmark.resolveMembers]
    cases hgroup : ((s.set x item).items x).type with
    | group =>
        rw [s.items_set_self, hitemType] at hgroup
        refine (resolveGroup_ends hinv₁ hbusy₁ ((h.type hbusy.lt).symm.trans hgroup) hp
          (by rw [hother p hp, htype, hgroup]) hdepth).mono ?_
        rintro s₂ ⟨rank₂, hinv₂, hbusy₂, -⟩
        exact ⟨rank₂, hinv₂, hbusy₂⟩
    | _ => exact ⟨rank, hinv₁, hbusy₁⟩
  rw [Benchmark.complete]
  simp only [hitem]
  refine Ends.bind hmembers ?_
  rintro s₂ ⟨rank₂, hinv₂, hbusy₂⟩
  have hinv₃ := hinv₂.set (List.mem_singleton_self x) hbusy₂.not_live
    { s₂.items x with extends_ := none } fun hx =>
      (hinv₂.grown x hx).trans ⟨rfl, rfl, rfl, fun _ h => h, fun _ h => h⟩
  refine ⟨_, hinv₃.finish (hbusy₂.of_same (Nat.le_refl _) ?_ ?_ ?_ ?_ fun y hy => ?_) ?_⟩
  · rw [s₂.items_set_self]
    rfl
  · rw [s₂.items_set_self]
  · rw [s₂.items_set_self]
  · rw [s₂.items_set_self]
  · rw [s₂.items_set_of_ne _ (by rintro rfl; exact hbusy₂.not_live hy)]
  · rw [s₂.items_set_self]
    rintro - id hid
    cases hid

/-- **Resolving an item** whose dependencies are done ends, or fails an assertion. -/
theorem resolveItem_ends {rank₀ : ℕ → ℕ} (hwell : WellFormed s₀ rank₀)
    (h : Inv s₀ done [] s rank) (hx : x < s₀.next) (hnot : x ∉ done)
    (hdeps : ∀ y ∈ s₀.graph.resolveDependencies x, y ∈ done) (hdepth : done.length ≤ depth) :
    Ends (fun s' => ∃ rank', Inv s₀ (done ++ [x]) [] s' rank') (s.resolveItem depth x) := by
  have hself : s.items x = s₀.items x := h.untouched x hx hnot List.not_mem_nil
  have hinv := h.weaken [x]
  have hbusy₀ : Busy s₀ done s₀ x :=
    ⟨hx, hnot, fun y hy => .inl (hdeps y (mem_resolveDependencies.mpr (.inr hy))),
      hwell.typed x hx⟩
  have hbusy : Busy s₀ done s x := hbusy₀.of_self h.next_le hself fun y hy => by
    rcases hy with hy | ⟨hle, hlt⟩
    · exact h.type (h.done_lt y hy)
    · omega
  -- an item that is left as it is could not be completed
  have hleave : (∀ id p, (s.items x).extends_ = some id →
      s.dicts.getMember (s.items x).type id = some p → (s.items x).type ≠ (s.items p).type ∨
        (s.items x).type = .group ∧ s.versionCmp ≥ 0) →
      Ends (fun s' => ∃ rank', Inv s₀ (done ++ [x]) [] s' rank') (.ok s) := by
    intro hno
    refine ⟨_, hinv.finish hbusy ?_⟩
    rintro - id hid ⟨p, hp, htype, hcan⟩
    rw [← h.type (hwell.member_lt _ _ _ hp)] at htype
    rw [← h.versionCmp] at hcan
    exact (hno id p hid (h.member _ _ _ hp)).elim (fun hne => hne htype.symm) hcan
  rw [Benchmark.resolveItem]
  by_cases hbench : (s.items x).type = .benchmark
  · simp only [if_pos hbench]
    have hinv' : Inv s₀ done [x] { s with resolved := true } rank := { hinv with }
    exact ⟨_, hinv'.finish (hbusy.of_self (Nat.le_refl _) rfl fun _ _ => rfl) fun hne =>
      absurd hbench hne⟩
  · simp only [if_neg hbench]
    cases hparent : (s.items x).extends_.bind (s.dicts.getMember (s.items x).type) with
    | none =>
        refine hleave fun id p hid hp => ?_
        rw [hid, Option.bind_some, hp] at hparent
        cases hparent
    | some p =>
        obtain ⟨id, hid, hp⟩ := Option.bind_eq_some_iff.mp hparent
        have hunique : ∀ id' p', (s.items x).extends_ = some id' →
            s.dicts.getMember (s.items x).type id' = some p' → p' = p := by
          intro id' p' hid' hp'
          obtain rfl := Option.some.inj (hid.symm.trans hid')
          exact Option.some.inj (hp'.symm.trans hp)
        simp only
        split_ifs with hne hold
        · refine hleave fun id' p' hid' hp' => .inl ?_
          rw [hunique id' p' hid' hp']
          exact hne
        · exact hleave fun _ _ _ _ => .inr hold
        · refine complete_ends hinv hbusy ?_ (not_not.mp hne).symm hdepth
          rcases h.member_new _ _ _ hp with hp | hp
          · rw [hself] at hid hp
            refine .inl (hdeps p (mem_resolveDependencies.mpr (.inl ?_)))
            rw [hid]
            exact hp
          · exact hp

/-- **Resolving the items** in an order in which each comes after its dependencies. -/
theorem resolveItems_ends {rank₀ : ℕ → ℕ} (hwell : WellFormed s₀ rank₀) (done : List ℕ)
    {rest : List ℕ}
    (hnodup : (done ++ rest).Nodup) (hlt : ∀ x ∈ done ++ rest, x < s₀.next)
    (hordered : Ordered (Edge s₀.graph.resolveDependencies) (done ++ rest))
    (hdepth : (done ++ rest).length ≤ depth) (h : Inv s₀ done [] s rank) :
    Ends (fun s' => ∃ rank', Inv s₀ (done ++ rest) [] s' rank')
      (rest.foldlM (Benchmark.resolveItem depth) s) := by
  induction rest generalizing done s rank with
  | nil =>
      rw [List.append_nil]
      exact ⟨rank, h⟩
  | cons x rest ih =>
      have hsplit : done ++ x :: rest = (done ++ [x]) ++ rest := by simp
      have hnot : x ∉ done := by
        intro hx
        exact (List.nodup_append.mp hnodup).2.2 x hx x List.mem_cons_self rfl
      rw [List.foldlM_cons]
      refine Ends.bind (resolveItem_ends hwell h (hlt x (by simp)) hnot
        (fun y hy => hordered done x rest rfl y hy)
        (by rw [List.length_append] at hdepth; omega)) ?_
      rintro s₁ ⟨rank₁, hinv₁⟩
      rw [hsplit] at hnodup hlt hordered hdepth ⊢
      exact ih (done ++ [x]) hnodup hlt hordered hdepth hinv₁

/-- Nothing is done at first. -/
theorem inv_start (s₀ : Benchmark) : Inv s₀ [] [] s₀ fun _ => 0 := by
  have hnone : ∀ x, ¬ Live s₀ [] s₀ x := by
    rintro x (hx | hx)
    · cases hx
    · omega
  exact ⟨rfl, rfl, Nat.le_refl _, (fun x hx => by cases hx), (fun _ _ _ h => h),
    (fun _ _ _ h => .inl h), (fun _ _ _ _ => rfl),
    (fun _ _ => ⟨rfl, rfl, rfl, fun _ h => h, fun _ h => h⟩),
    (fun x hx => absurd hx (hnone x)), (fun x hx => absurd hx (hnone x)),
    (fun x hx => absurd hx (hnone x)), fun x hx => absurd hx (hnone x)⟩

/-- The members that an item had before the call. -/
theorem Inv.childrenOf_subset (h : Inv s₀ done busy s rank) (hx : x < s₀.next) :
    childrenOf s₀.items x ⊆ childrenOf s.items x := by
  obtain ⟨htype, -, hprofiles, hcontent, hvalues⟩ := h.grown x hx
  intro y hy
  rw [mem_childrenOf] at hy ⊢
  rw [htype, hprofiles, Item.IsContainer, htype, ← Item.IsContainer]
  exact hy.imp_right (And.imp_right (Or.imp (fun hy => hcontent hy) fun hy => hvalues hy))

/-- What was below the benchmark before the call is so when its items are resolved. -/
theorem Inv.belowConcretely {rank₀ : ℕ → ℕ} (h : Inv s₀ done busy s rank)
    (hwell : WellFormed s₀ rank₀) (hbelow : BelowConcretely s₀.items s₀.benchmark x) :
    x < s₀.next ∧ BelowConcretely s.items s₀.benchmark x := by
  have hstep : ∀ x y, x < s₀.next → y ∈ childrenOf s₀.items x →
      (s₀.items y).abstract = false → y < s₀.next ∧
        y ∈ childrenOf s.items x ∧ (s.items y).abstract = false := fun x y hx hy hconcrete => by
    have hlt := hwell.children_lt x hx y hy
    exact ⟨hlt, h.childrenOf_subset hx hy, (h.grown y hlt).abstract.trans hconcrete⟩
  induction hbelow with
  | single hy =>
      obtain ⟨hlt, hstep⟩ := hstep _ _ hwell.benchmark_lt hy.1 hy.2
      exact ⟨hlt, .single hstep⟩
  | tail _ hy ih =>
      obtain ⟨hlt, hbelow⟩ := ih
      obtain ⟨hlt', hstep⟩ := hstep _ _ hlt hy.1 hy.2
      exact ⟨hlt', hbelow.tail hstep⟩

/-- What is below a live item is live. -/
theorem Inv.live_of_below (h : Inv s₀ done busy s rank) (ha : Live s₀ done s a)
    (hbelow : Below s.items a x) : Live s₀ done s x := by
  induction hbelow with
  | single hy => exact (h.children _ ha _ hy).1
  | tail _ hy ih => exact (h.children _ ih _ hy).1

/-- What the walk comes to from a live item is live. -/
theorem Inv.live_of_walks (h : Inv s₀ done busy s rank) (ha : Live s₀ done s a)
    (hwalks : Walks s.items a x) : Live s₀ done s x := by
  induction hwalks with
  | refl => exact ha
  | tail _ hy ih =>
      refine (h.children _ ih _ ?_).1
      rw [childrenOf]
      exact List.mem_append_left _ (List.mem_append_right _ hy)

end Items

/-! ### The call -/

/-- No item is resolved: what is merged, ids and references, the dictionaries and the flag are
what they were. -/
structure NotResolved (s s' : Benchmark) : Prop where
  data : ∀ x, (s'.items x).data = (s.items x).data
  id : ∀ x, (s'.items x).id = (s.items x).id
  abstract : ∀ x, (s'.items x).abstract = (s.items x).abstract
  extends_ : ∀ x, (s'.items x).extends_ = (s.items x).extends_
  dicts : s'.dicts = s.dicts
  resolved : s'.resolved = s.resolved

/-- No abstract item is left below the benchmark, what was below it without an abstract item
between remains, and what is left extends only what could not complete it. -/
structure Resolved (s s' : Benchmark) : Prop where
  concrete : ∀ x, Below s'.items s.benchmark x → (s'.items x).abstract = false
  remains : ∀ x, BelowConcretely s.items s.benchmark x → Below s'.items s.benchmark x
  settled : ∀ x, Below s'.items s.benchmark x → Settled s (s'.items x)

section Call

variable {s s₁ : Benchmark} {rank rank₁ : ℕ → ℕ} {order : List ℕ} {depth : ℕ}

/-- The sort of a benchmark ends. -/
theorem sort_ends (hwell : WellFormed s rank) (hdepth : s.next < depth) :
    ∃ ret order, s.graph.resolve depth = some (ret, order) ∧
      (ret = true ↔ ¬ ReachesCycle (Edge s.graph.resolveDependencies) s.benchmark) ∧
      (ret = false → order = []) ∧
      (ret = true → order.Nodup ∧ (∀ x ∈ order, x < s.next) ∧ s.benchmark ∈ order ∧
        Ordered (Edge s.graph.resolveDependencies) order) := by
  have hclosed : ∀ x ∈ List.range s.next, ∀ y ∈ s.graph.resolveDependencies x,
      y ∈ List.range s.next := by
    intro x hx y hy
    rw [List.mem_range] at hx ⊢
    rcases mem_resolveDependencies.mp hy with hy | hy
    · obtain ⟨id, -, hmember⟩ := Option.bind_eq_some_iff.mp hy
      exact hwell.member_lt _ _ _ hmember
    · exact hwell.children_lt x hx y hy
  have hinput : ∀ x ∈ [s.benchmark], x ∈ List.range s.next := fun x hx => by
    obtain rfl := List.mem_singleton.mp hx
    exact List.mem_range.mpr hwell.benchmark_lt
  have hcmp : ∀ a b : ℕ, (a == b) = true ↔ a = b := fun a b => beq_iff_eq
  have hlength : (List.range s.next).length < depth := by rwa [List.length_range]
  obtain ⟨ret, output, hrun, hret, horder⟩ := oscapTsort_correct hcmp hinput hclosed hlength
  simp only [List.mem_singleton, exists_eq_left] at hret horder
  have hgraph : s.graph.benchmark = s.benchmark := rfl
  cases ret with
  | false =>
      refine ⟨false, [], ?_, hret, (fun _ => rfl), fun h => by cases h⟩
      rw [ResolveBenchmark.resolve, hgraph, hrun]
  | true =>
      obtain ⟨hnodup, hmem, hordered⟩ := horder rfl
      refine ⟨true, output, ?_, hret, (fun h => by cases h), fun _ =>
        ⟨hnodup, fun x hx => ?_, (hmem s.benchmark).mpr .refl, hordered⟩⟩
      · rw [ResolveBenchmark.resolve, hgraph, hrun]
      · have hreach := (hmem x).mp hx
        refine List.mem_range.mp (?_ : x ∈ List.range s.next)
        induction hreach with
        | refl => exact hinput _ (List.mem_singleton_self _)
        | tail hfirst hedge ih => exact hclosed _ (ih ((hmem _).mpr hfirst)) _ hedge

/-- Cleaning up when all items are resolved. -/
theorem cleanup_resolved (hwell : WellFormed s rank) (h : Inv s order [] s₁ rank₁)
    (hmem : s.benchmark ∈ order) (hdepth : order.length < depth) :
    ∃ items, xccdfResolveCleanup depth s₁.items s₁.benchmark = some items ∧
      Resolved s { s₁ with items := items } := by
  have hlive : Live s order s₁ s.benchmark := .inl hmem
  have hnests : Nests s₁.items rank₁ s.benchmark := fun x hx y hy => by
    refine (h.children x (h.live_of_walks hlive hx) y ?_).2
    rw [childrenOf]
    exact List.mem_append_left _ (List.mem_append_right _ hy)
  have htyped : Typed s₁.items s.benchmark :=
    ⟨fun x hx => (h.typed x (h.live_of_walks hlive hx)).values,
      fun x hx => (h.typed x (h.live_of_walks hlive hx)).profiles⟩
  obtain ⟨items, hrun, hpruned, hbelow, -⟩ :=
    cleanup_removesAbstract hnests ((h.bounded _ hlive).trans hdepth) htyped
  refine ⟨items, by rw [h.benchmark]; exact hrun, fun x hx => ?_, fun x hx => ?_, fun x hx => ?_⟩
  · obtain ⟨y, -, hy⟩ := TransGen.tail'_iff.mp ((hbelow x).mp hx)
    exact (hpruned.abstract x).trans hy.2
  · exact (hbelow x).mpr (h.belowConcretely hwell hx).2
  · have hx₁ : Below s₁.items s.benchmark x :=
      TransGen.mono (fun _ _ hy => hy.1) _ _ ((hbelow x).mp hx)
    have hsettled := h.settled x (h.live_of_below hlive hx₁)
    have hsame : (items x).type = (s₁.items x).type := hpruned.type x
    intro hne id hid
    change CanExtend s (items x).type id → False
    rw [hsame] at hne ⊢
    exact hsettled hne id ((hpruned.extends_ x).symm.trans hid)

end Call

/-- A benchmark with a rule that extends one that is missing. -/
def danglingBenchmark : Benchmark where
  benchmark := 0
  versionCmp := 0
  items
    | 0 => ⟨⟨[], .benchmark⟩, some "b", none, false, none, [], [1], []⟩
    | _ => ⟨⟨[], .rule [] []⟩, some "r", none, false, some "missing", [], [], []⟩
  next := 2
  dicts := ⟨fun id => if id = "r" then some 1 else none, fun _ => none, fun _ _ => none⟩
  resolved := false

/-- The rule is below the benchmark. -/
def danglingRank : ℕ → ℕ
  | 0 => 1
  | _ => 0

theorem wellFormed_dangling : WellFormed danglingBenchmark danglingRank := by
  have hchildren : ∀ x, ∀ y ∈ childrenOf danglingBenchmark.items x, x = 0 ∧ y = 1 := by
    intro x y hy
    match x with
    | 0 => exact ⟨rfl, List.mem_singleton.mp hy⟩
    | x + 1 => cases hy
  refine ⟨by decide, fun x _ y hy => ?_, fun type id p hp => ?_, fun x _ => ?_, fun x _ y hy => ?_⟩
  · rw [(hchildren x y hy).2]
    decide
  · cases type
    case profile => cases hp
    all_goals
      obtain ⟨-, heq⟩ := Option.ite_none_right_eq_some.mp hp
      obtain rfl := Option.some.inj heq
      decide
  · match x with
    | 0 =>
        refine ⟨(fun _ y hy => by cases hy), (fun _ y hy => .inl ?_), fun _ y hy => by cases hy⟩
        rw [List.mem_singleton.mp hy]
        rfl
    | x + 1 =>
        exact ⟨(fun _ y hy => by cases hy), (fun _ y hy => by cases hy),
          fun _ y hy => by cases hy⟩
  · obtain ⟨rfl, rfl⟩ := hchildren x y (by
      rw [childrenOf]
      exact List.mem_append_left _ (List.mem_append_right _ hy))
    decide

end OpenScap.XccdfResolution
