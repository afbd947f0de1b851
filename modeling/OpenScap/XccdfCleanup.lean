import Mathlib.Logic.Relation
import OpenScap.OscapList
import OpenScap.XccdfResolve

/-!
# Removing abstract items

`xccdf_resolve_cleanup` walks through a benchmark and its groups and removes the abstract
profiles, items and values from their lists, while it iterates over them. A group is cleaned up
before it is removed, and is freed with all that it contains.

Items are known by their addresses. That removed items are freed is not modelled: they can no
longer be reached.

## Main results

* `cleanup_spec` — the walk ends, takes only abstract items out of lists, and leaves none in a
  list that can be reached;
* `below_cleanup_iff` — what is left is what is reached through items that are not abstract;
* `iteration_cleanup` — removal during iteration, and what it makes of the clean-up.
-/

open Relation Segment

namespace OpenScap.XccdfResolution

/-! ### The code -/

/-- What resolution reads and changes of an item. `data` has what is merged. -/
structure Item where
  data : XccdfExtending
  id : Option String
  clusterId : Option String
  abstract : Bool
  extends_ : Option String
  profiles : List ℕ
  content : List ℕ
  values : List ℕ
  deriving DecidableEq

/-- The items by address. -/
abbrev Items := ℕ → Item

/-- `xccdf_item_get_type`. -/
def Item.type (item : Item) : ResolveType := item.data.type

/-- The item has lists of others. -/
def Item.IsContainer (item : Item) : Prop := item.type = .benchmark ∨ item.type = .group

instance (item : Item) : Decidable item.IsContainer :=
  inferInstanceAs (Decidable (_ ∨ _))

/-- The body of the loops over profiles and values. -/
def removeIfAbstract (items : Items) (x : ℕ) : Option (Items × Bool) :=
  some (items, (items x).abstract)

/-- `xccdf_resolve_cleanup`, with recursive calls at most `depth` deep. -/
def xccdfResolveCleanup : ℕ → Items → ℕ → Option Items
  | 0, _, _ => none
  | depth + 1, items, item =>
      if ¬ (items item).IsContainer then some items
      else
        (if (items item).type = .benchmark then
          (removing removeIfAbstract items (items item).profiles).map fun r =>
            Function.update r.1 item { r.1 item with profiles := r.2 }
        else some items).bind fun items =>
        ((removing (fun items sub => (xccdfResolveCleanup depth items sub).map fun items =>
            (items, (items sub).abstract)) items (items item).content).map fun r =>
          Function.update r.1 item { r.1 item with content := r.2 }).bind fun items =>
        (removing removeIfAbstract items (items item).values).map fun r =>
          Function.update r.1 item { r.1 item with values := r.2 }

/-! ### What is reached -/

/-- The content that the walk goes into. -/
def contentOf (items : Items) (x : ℕ) : List ℕ :=
  if (items x).IsContainer then (items x).content else []

/-- All members of an item's lists. -/
def childrenOf (items : Items) (x : ℕ) : List ℕ :=
  (if (items x).type = .benchmark then (items x).profiles else []) ++ contentOf items x ++
    (if (items x).IsContainer then (items x).values else [])

/-- The items of a list that are not abstract. -/
def kept (items : Items) (list : List ℕ) : List ℕ := list.filter fun x => !(items x).abstract

/-- The walk goes from one item to the other. -/
def Walks (items : Items) : ℕ → ℕ → Prop := ReflTransGen fun x y => y ∈ contentOf items x

/-- The item is somewhere below the other. -/
def Below (items : Items) : ℕ → ℕ → Prop := TransGen fun x y => y ∈ childrenOf items x

/-- The item is below the other, and neither it nor an item between them is abstract. -/
def BelowConcretely (items : Items) : ℕ → ℕ → Prop :=
  TransGen fun x y => y ∈ childrenOf items x ∧ (items y).abstract = false

/-- The content of the items that the walk comes to is ranked below them. -/
def Nests (items : Items) (rank : ℕ → ℕ) (a : ℕ) : Prop :=
  ∀ x, Walks items a x → ∀ y ∈ contentOf items x, rank y < rank x

/-- Values and profiles are in the lists for them, wherever the walk comes to. -/
structure Typed (items : Items) (a : ℕ) : Prop where
  values : ∀ x, Walks items a x → (items x).IsContainer →
    ∀ y ∈ (items x).values, (items y).type = .value
  profiles : ∀ x, Walks items a x → (items x).type = .benchmark →
    ∀ y ∈ (items x).profiles, (items y).type = .profile

/-! ### What the walk changes -/

/-- A list is kept, or kept but for its abstract members. -/
def PrunedList (items : Items) (list list' : List ℕ) : Prop :=
  list' = list ∨ list' = kept items list

/-- Abstract items may have been taken out of lists, and nothing else has changed. -/
structure Pruned (items items' : Items) : Prop where
  data : ∀ x, (items' x).data = (items x).data
  id : ∀ x, (items' x).id = (items x).id
  clusterId : ∀ x, (items' x).clusterId = (items x).clusterId
  abstract : ∀ x, (items' x).abstract = (items x).abstract
  extends_ : ∀ x, (items' x).extends_ = (items x).extends_
  profiles : ∀ x, PrunedList items (items x).profiles (items' x).profiles
  content : ∀ x, PrunedList items (items x).content (items' x).content
  values : ∀ x, PrunedList items (items x).values (items' x).values

/-- No member of the item's lists is abstract. -/
def Clean (items : Items) (x : ℕ) : Prop := ∀ y ∈ childrenOf items x, (items y).abstract = false

section Pruned

variable {items items' items'' : Items} {list list' list'' : List ℕ} {x y a : ℕ}

theorem kept_kept (items : Items) (list : List ℕ) :
    kept items (kept items list) = kept items list := by
  rw [kept, kept, List.filter_filter]
  simp

theorem mem_kept : x ∈ kept items list ↔ x ∈ list ∧ (items x).abstract = false := by
  simp [kept]

/-- Members that are not abstract stay. -/
theorem PrunedList.mem (h : PrunedList items list list') (hx : x ∈ list)
    (hconcrete : (items x).abstract = false) : x ∈ list' := by
  rcases h with rfl | rfl
  · exact hx
  · exact mem_kept.mpr ⟨hx, hconcrete⟩

/-- No member is new. -/
theorem PrunedList.subset (h : PrunedList items list list') : list' ⊆ list := by
  rcases h with rfl | rfl
  · exact List.Subset.refl _
  · exact List.filter_subset_self _

/-- What is left without abstract members. -/
theorem PrunedList.eq_kept (h : PrunedList items list list')
    (hclean : ∀ y ∈ list', (items y).abstract = false) : list' = kept items list := by
  rcases h with rfl | rfl
  · exact (List.filter_eq_self.mpr fun y hy => by simp [hclean y hy]).symm
  · rfl

theorem Pruned.refl (items : Items) : Pruned items items :=
  ⟨fun _ => rfl, fun _ => rfl, fun _ => rfl, fun _ => rfl, fun _ => rfl, fun _ => .inl rfl,
    fun _ => .inl rfl, fun _ => .inl rfl⟩

theorem Pruned.kept_eq (h : Pruned items items') : kept items' list = kept items list :=
  List.filter_congr fun y _ => by rw [h.abstract]

theorem PrunedList.trans (hpruned : Pruned items items') (h : PrunedList items list list')
    (h' : PrunedList items' list' list'') : PrunedList items list list'' := by
  rcases h' with rfl | rfl
  · exact h
  · rw [hpruned.kept_eq]
    rcases h with rfl | rfl
    · exact .inr rfl
    · exact .inr (kept_kept items list)

/-- Changes add up. -/
theorem Pruned.trans (h : Pruned items items') (h' : Pruned items' items'') :
    Pruned items items'' :=
  ⟨fun x => (h'.data x).trans (h.data x), fun x => (h'.id x).trans (h.id x),
    fun x => (h'.clusterId x).trans (h.clusterId x),
    fun x => (h'.abstract x).trans (h.abstract x),
    fun x => (h'.extends_ x).trans (h.extends_ x),
    fun x => (h.profiles x).trans h (h'.profiles x),
    fun x => (h.content x).trans h (h'.content x),
    fun x => (h.values x).trans h (h'.values x)⟩

theorem Pruned.type (h : Pruned items items') (x : ℕ) : (items' x).type = (items x).type := by
  rw [Item.type, Item.type, h.data]

theorem Pruned.isContainer (h : Pruned items items') (x : ℕ) :
    (items' x).IsContainer ↔ (items x).IsContainer := by
  rw [Item.IsContainer, Item.IsContainer, h.type]

theorem Pruned.contentOf_subset (h : Pruned items items') (x : ℕ) :
    contentOf items' x ⊆ contentOf items x := by
  rw [contentOf, contentOf, if_congr (h.isContainer x) rfl rfl]
  split_ifs
  · exact (h.content x).subset
  · exact List.Subset.refl _

/-- The children of an item. -/
theorem mem_childrenOf : y ∈ childrenOf items x ↔
    ((items x).type = .benchmark ∧ y ∈ (items x).profiles) ∨
      ((items x).IsContainer ∧ (y ∈ (items x).content ∨ y ∈ (items x).values)) := by
  rw [childrenOf, contentOf, List.mem_append, List.mem_append]
  by_cases hbenchmark : (items x).type = .benchmark <;>
    by_cases hcontainer : (items x).IsContainer <;> simp [hbenchmark, hcontainer, or_assoc]

theorem Pruned.childrenOf_subset (h : Pruned items items') (x : ℕ) :
    childrenOf items' x ⊆ childrenOf items x := by
  intro y hy
  rw [mem_childrenOf] at hy ⊢
  rw [h.type, h.isContainer] at hy
  exact hy.imp (And.imp_right fun hp => (h.profiles x).subset hp)
    (And.imp_right (Or.imp (fun hc => (h.content x).subset hc)
      fun hv => (h.values x).subset hv))

/-- Children that are not abstract stay. -/
theorem Pruned.mem_childrenOf (h : Pruned items items') (hy : y ∈ childrenOf items x)
    (hconcrete : (items y).abstract = false) : y ∈ childrenOf items' x := by
  rw [XccdfResolution.mem_childrenOf] at hy ⊢
  rw [h.type, h.isContainer]
  exact hy.imp (And.imp_right fun hp => (h.profiles x).mem hp hconcrete)
    (And.imp_right (Or.imp (fun hc => (h.content x).mem hc hconcrete)
      fun hv => (h.values x).mem hv hconcrete))

/-- An item that is clean stays so. -/
theorem Pruned.clean (h : Pruned items items') (hclean : Clean items x) : Clean items' x :=
  fun y hy => (h.abstract y).trans (hclean y (h.childrenOf_subset x hy))

theorem Pruned.walks (h : Pruned items items') (hwalks : Walks items' a x) : Walks items a x :=
  ReflTransGen.mono (fun x _ hy => h.contentOf_subset x hy) a x hwalks

theorem Pruned.nests {rank : ℕ → ℕ} (h : Pruned items items') (hnests : Nests items rank a) :
    Nests items' rank a :=
  fun x hx y hy => hnests x (h.walks hx) y (h.contentOf_subset x hy)

/-- The walk into a member of the content. -/
theorem Nests.content {rank : ℕ → ℕ} (h : Nests items rank a) (hx : x ∈ contentOf items a) :
    Nests items rank x ∧ rank x < rank a :=
  ⟨fun y hy => h y (.head hx hy), h a .refl x hx⟩

end Pruned

/-! ### The walk -/

section Walk

variable {items items' : Items} {rank : ℕ → ℕ} {a x y : ℕ} {depth : ℕ}

/-- The loop over profiles or values. -/
theorem removing_removeIfAbstract (items : Items) (list : List ℕ) :
    removing removeIfAbstract items list = some (items, kept items list) := by
  induction list with
  | nil => rfl
  | cons x list ih =>
      rw [removing, removeIfAbstract]
      simp only [ih, Option.map_some, kept, List.filter_cons]
      cases (items x).abstract <;> rfl

/-- The body of the loop over the content. -/
def cleanupSub (depth : ℕ) (items : Items) (sub : ℕ) : Option (Items × Bool) :=
  (xccdfResolveCleanup depth items sub).map fun items => (items, (items sub).abstract)

/-- Every item that the walk comes to is clean. -/
def AllClean (items : Items) (a : ℕ) : Prop := ∀ x, Walks items a x → Clean items x

theorem Pruned.allClean (h : Pruned items items') (hclean : AllClean items a) :
    AllClean items' a :=
  fun x hx => h.clean (hclean x (h.walks hx))

/-- What cleaning up each member of a list in turn does, when that is right for each. -/
theorem removing_cleanupSub {list : List ℕ} (hnests : ∀ sub ∈ list, Nests items rank sub)
    (hsub : ∀ sub ∈ list, ∀ items, Nests items rank sub →
      ∃ items', xccdfResolveCleanup depth items sub = some items' ∧ Pruned items items' ∧
        AllClean items' sub) :
    ∃ items', removing (cleanupSub depth) items list = some (items', kept items list) ∧
      Pruned items items' ∧ ∀ sub ∈ list, AllClean items' sub := by
  induction list generalizing items with
  | nil => exact ⟨items, rfl, .refl items, fun sub h => by cases h⟩
  | cons sub list ih =>
      obtain ⟨items₁, hrun, hpruned, hclean⟩ :=
        hsub sub List.mem_cons_self items (hnests sub List.mem_cons_self)
      obtain ⟨items₂, hrest, hpruned₂, hclean₂⟩ := ih
        (fun s hs => hpruned.nests (hnests s (List.mem_cons_of_mem _ hs)))
        (fun s hs => hsub s (List.mem_cons_of_mem _ hs))
      refine ⟨items₂, ?_, hpruned.trans hpruned₂, ?_⟩
      · rw [removing, cleanupSub, hrun]
        simp only [Option.map_some, hrest, hpruned.abstract, kept,
          List.filter_cons]
        cases (items sub).abstract <;> rfl
      · intro s hs
        rcases List.mem_cons.mp hs with rfl | hs
        · exact hpruned₂.allClean hclean
        · exact hclean₂ s hs

/-- Lists of one item are replaced. -/
theorem pruned_update {profiles content values : List ℕ}
    (hprofiles : PrunedList items (items a).profiles profiles)
    (hcontent : PrunedList items (items a).content content)
    (hvalues : PrunedList items (items a).values values) :
    Pruned items (Function.update items a
      { items a with profiles := profiles, content := content, values := values }) := by
  have hall (p : ℕ → Item → Prop) (b : Item) :=
    (Function.forall_update_iff items p (a := a) (b := b)).mpr
  exact ⟨hall (fun x item => item.data = (items x).data) _ ⟨rfl, fun _ _ => rfl⟩,
    hall (fun x item => item.id = (items x).id) _ ⟨rfl, fun _ _ => rfl⟩,
    hall (fun x item => item.clusterId = (items x).clusterId) _ ⟨rfl, fun _ _ => rfl⟩,
    hall (fun x item => item.abstract = (items x).abstract) _ ⟨rfl, fun _ _ => rfl⟩,
    hall (fun x item => item.extends_ = (items x).extends_) _ ⟨rfl, fun _ _ => rfl⟩,
    hall (fun x item => PrunedList items (items x).profiles item.profiles) _
      ⟨hprofiles, fun _ _ => .inl rfl⟩,
    hall (fun x item => PrunedList items (items x).content item.content) _
      ⟨hcontent, fun _ _ => .inl rfl⟩,
    hall (fun x item => PrunedList items (items x).values item.values) _
      ⟨hvalues, fun _ _ => .inl rfl⟩⟩

/-- The profiles are cleaned up. -/
theorem cleanupProfiles_spec (items : Items) (a : ℕ) :
    ∃ items', (if (items a).type = .benchmark then
        (removing removeIfAbstract items (items a).profiles).map fun r =>
          Function.update r.1 a { r.1 a with profiles := r.2 }
        else some items) = some items' ∧ Pruned items items' ∧
      ((items a).type = .benchmark → ∀ y ∈ (items' a).profiles, (items y).abstract = false) := by
  rw [removing_removeIfAbstract]
  by_cases hbenchmark : (items a).type = .benchmark
  · rw [if_pos hbenchmark]
    refine ⟨_, rfl, pruned_update (.inr rfl) (.inl rfl) (.inl rfl), fun _ y hy => ?_⟩
    simp only [Function.update_self] at hy
    exact (mem_kept.mp hy).2
  · rw [if_neg hbenchmark]
    exact ⟨items, rfl, .refl items, fun h => absurd h hbenchmark⟩

/-- The content is cleaned up, when that is right for each of its members. -/
theorem cleanupContent_spec (depth : ℕ) (hnests : Nests items rank a)
    (hcontainer : (items a).IsContainer)
    (hsub : ∀ sub ∈ (items a).content, ∀ items, Nests items rank sub →
      ∃ items', xccdfResolveCleanup depth items sub = some items' ∧ Pruned items items' ∧
        AllClean items' sub) :
    ∃ items', ((removing (cleanupSub depth) items (items a).content).map fun r =>
        Function.update r.1 a { r.1 a with content := r.2 }) = some items' ∧
      Pruned items items' ∧ ∀ y ∈ (items' a).content,
        (items y).abstract = false ∧ AllClean items' y := by
  have hmem : ∀ sub ∈ (items a).content, sub ∈ contentOf items a := fun sub h => by
    rwa [contentOf, if_pos hcontainer]
  obtain ⟨items₁, hrun, hpruned, hclean⟩ :=
    removing_cleanupSub (fun sub h => (hnests.content (hmem sub h)).1) hsub
  have hlist : PrunedList items₁ (items₁ a).content (kept items (items a).content) := by
    rw [← hpruned.kept_eq]
    rcases hpruned.content a with h | h
    · rw [h]
      exact .inr rfl
    · rw [h, hpruned.kept_eq]
      exact .inl rfl
  have hlast := pruned_update (a := a) (.inl rfl) hlist (.inl rfl)
  refine ⟨_, by rw [hrun]; rfl, hpruned.trans hlast, fun y hy => ?_⟩
  simp only [Function.update_self] at hy
  obtain ⟨hy, hconcrete⟩ := mem_kept.mp hy
  exact ⟨hconcrete, hlast.allClean (hclean y hy)⟩

/-- The values are cleaned up. -/
theorem cleanupValues_spec (items : Items) (a : ℕ) :
    ∃ items', ((removing removeIfAbstract items (items a).values).map fun r =>
        Function.update r.1 a { r.1 a with values := r.2 }) = some items' ∧
      Pruned items items' ∧ ∀ y ∈ (items' a).values, (items y).abstract = false := by
  rw [removing_removeIfAbstract]
  refine ⟨_, rfl, pruned_update (.inl rfl) (.inl rfl) (.inr rfl), fun y hy => ?_⟩
  simp only [Function.update_self] at hy
  exact (mem_kept.mp hy).2

/-- A list from which nothing more is taken out. -/
theorem PrunedList.abstract {list list' : List ℕ} (h : PrunedList items list list')
    (hlist : ∀ y ∈ list, (items y).abstract = false) : ∀ y ∈ list', (items y).abstract = false :=
  fun y hy => hlist y (h.subset hy)

/-- The lists of items that are not containers are not gone into. -/
theorem childrenOf_eq_nil (h : ¬ (items a).IsContainer) : childrenOf items a = [] := by
  rw [childrenOf, contentOf, if_neg fun hb => h (.inl hb), if_neg h, if_neg h]
  rfl

/-- **The walk** ends, takes only abstract items out of lists, and leaves none in a list that it
comes to. -/
theorem cleanup_spec (depth : ℕ) (hnests : Nests items rank a) (hdepth : rank a < depth) :
    ∃ items', xccdfResolveCleanup depth items a = some items' ∧ Pruned items items' ∧
      AllClean items' a := by
  induction depth generalizing items a with
  | zero => omega
  | succ depth ih =>
      by_cases hcontainer : (items a).IsContainer
      · obtain ⟨items₁, hrun₁, hpruned₁, hprofiles⟩ := cleanupProfiles_spec items a
        have hnests₁ := hpruned₁.nests hnests
        have hcontainer₁ := (hpruned₁.isContainer a).mpr hcontainer
        obtain ⟨items₂, hrun₂, hpruned₂, hcontent⟩ :=
          cleanupContent_spec depth hnests₁ hcontainer₁ fun sub hsub items' hnests' => by
            have hmem : sub ∈ contentOf items₁ a := by rwa [contentOf, if_pos hcontainer₁]
            have hrank := (hnests₁.content hmem).2
            exact ih hnests' (by omega)
        obtain ⟨items₃, hrun₃, hpruned₃, hvalues⟩ := cleanupValues_spec items₂ a
        have hpruned := (hpruned₁.trans hpruned₂).trans hpruned₃
        have hsame : ∀ y, (items₃ y).abstract = (items y).abstract := hpruned.abstract
        -- the lists of the item itself
        have hself : Clean items₃ a := by
          intro y hy
          rw [mem_childrenOf, hpruned.type] at hy
          rw [hsame]
          rcases hy with ⟨hbenchmark, hy⟩ | ⟨-, hy | hy⟩
          · exact hprofiles hbenchmark y
              (((hpruned₂.trans hpruned₃).profiles a).subset hy)
          · rw [← hpruned₁.abstract]
            exact (hcontent y ((hpruned₃.content a).subset hy)).1
          · rw [← (hpruned₁.trans hpruned₂).abstract]
            exact hvalues y hy
        refine ⟨items₃, ?_, hpruned, fun x hx => ?_⟩
        · rw [xccdfResolveCleanup, if_neg (not_not.mpr hcontainer), hrun₁]
          exact (congrArg (Option.bind · _) hrun₂).trans hrun₃
        · rcases ReflTransGen.cases_head hx with rfl | ⟨y, hy, hyx⟩
          · exact hself
          · rw [contentOf, if_pos ((hpruned.isContainer a).mpr hcontainer)] at hy
            exact hpruned₃.allClean (hcontent y ((hpruned₃.content a).subset hy)).2 x hyx
      · refine ⟨items, by rw [xccdfResolveCleanup, if_pos hcontainer], .refl items,
          fun x hx => ?_⟩
        rcases ReflTransGen.cases_head hx with rfl | ⟨y, hy, -⟩
        · intro y hy
          rw [childrenOf_eq_nil hcontainer] at hy
          cases hy
        · rw [contentOf, if_neg hcontainer] at hy
          cases hy

end Walk

/-! ### What is left -/

section Left

variable {items items' : Items} {rank : ℕ → ℕ} {a x y : ℕ} {depth : ℕ}

/-- Only the content of an item has containers. -/
theorem Typed.mem_contentOf (h : Typed items a) (hx : Walks items a x)
    (hy : y ∈ childrenOf items x) (hcontainer : (items y).IsContainer) :
    y ∈ contentOf items x := by
  rcases mem_childrenOf.mp hy with ⟨hbenchmark, hy⟩ | ⟨hparent, hy | hy⟩
  · rw [Item.IsContainer, h.profiles x hx hbenchmark y hy] at hcontainer
    rcases hcontainer with h | h <;> cases h
  · rwa [contentOf, if_pos hparent]
  · rw [Item.IsContainer, h.values x hx hparent y hy] at hcontainer
    rcases hcontainer with h | h <;> cases h

theorem Pruned.typed (h : Pruned items items') (htyped : Typed items a) : Typed items' a :=
  ⟨fun x hx hcontainer y hy => (h.type y).trans (htyped.values x (h.walks hx)
      ((h.isContainer x).mp hcontainer) y ((h.values x).subset hy)),
    fun x hx hbenchmark y hy => (h.type y).trans (htyped.profiles x (h.walks hx)
      ((h.type x).symm.trans hbenchmark) y ((h.profiles x).subset hy))⟩

/-- The walk comes to every container. -/
theorem walks_of_below (htyped : Typed items a) (h : Below items a x)
    (hcontainer : (items x).IsContainer) : Walks items a x := by
  induction h with
  | single hx => exact .single (htyped.mem_contentOf .refl hx hcontainer)
  | @tail y x _ hx ih =>
      have hy : (items y).IsContainer := by
        by_contra hno
        rw [childrenOf_eq_nil hno] at hx
        cases hx
      exact (ih hy).tail (htyped.mem_contentOf (ih hy) hx hcontainer)

/-- What is left below an item is what was below it without an abstract item between. -/
theorem Pruned.below_iff (h : Pruned items items') (hclean : AllClean items' a)
    (htyped : Typed items a) : Below items' a x ↔ BelowConcretely items a x := by
  constructor
  · intro hx
    induction hx with
    | single hx =>
        exact .single ⟨h.childrenOf_subset a hx, by rw [← h.abstract, hclean a .refl _ hx]⟩
    | @tail y x hy hx ih =>
        have hcontainer : (items' y).IsContainer := by
          by_contra hno
          rw [childrenOf_eq_nil hno] at hx
          cases hx
        have hwalks := walks_of_below (h.typed htyped) hy hcontainer
        exact ih.tail ⟨h.childrenOf_subset y hx, by rw [← h.abstract, hclean y hwalks _ hx]⟩
  · intro hx
    exact TransGen.mono (fun y z hz => h.mem_childrenOf hz.1 hz.2) a x hx

/-- The lists of what is left below an item, and of the item, have lost their abstract members
and no others. -/
theorem Pruned.lists_eq (h : Pruned items items') (hclean : AllClean items' a)
    (htyped : Typed items a) (hx : x = a ∨ Below items' a x) (hcontainer : (items x).IsContainer) :
    (items' x).content = kept items (items x).content ∧
      (items' x).values = kept items (items x).values ∧
      ((items x).type = .benchmark → (items' x).profiles = kept items (items x).profiles) := by
  have hcontainer' := (h.isContainer x).mpr hcontainer
  have hwalks : Walks items' a x := by
    rcases hx with rfl | hx
    · exact .refl
    · exact walks_of_below (h.typed htyped) hx hcontainer'
  have hlist : ∀ y ∈ childrenOf items' x, (items y).abstract = false := fun y hy => by
    rw [← h.abstract]
    exact hclean x hwalks y hy
  refine ⟨(h.content x).eq_kept fun y hy => hlist y ?_,
    (h.values x).eq_kept fun y hy => hlist y ?_, fun hbenchmark =>
    (h.profiles x).eq_kept fun y hy => hlist y ?_⟩
  · exact XccdfResolution.mem_childrenOf.mpr (.inr ⟨hcontainer', .inl hy⟩)
  · exact XccdfResolution.mem_childrenOf.mpr (.inr ⟨hcontainer', .inr hy⟩)
  · exact XccdfResolution.mem_childrenOf.mpr (.inl ⟨(h.type x).trans hbenchmark, hy⟩)

end Left

/-! ### Removal during iteration -/

/-- What the clean-up of a benchmark removes: the abstract items, and what they contain. Items
are left, and lists are kept, but for these. -/
structure RemovesAbstract (items : Items) (benchmark : ℕ) (items' : Items) : Prop where
  pruned : Pruned items items'
  below : ∀ x, Below items' benchmark x ↔ BelowConcretely items benchmark x
  lists : ∀ x, x = benchmark ∨ Below items' benchmark x → (items x).IsContainer →
    (items' x).content = kept items (items x).content ∧
      (items' x).values = kept items (items x).values ∧
      ((items x).type = .benchmark → (items' x).profiles = kept items (items x).profiles)

/-- The clean-up ends, and removes the abstract items and what they contain. -/
theorem cleanup_removesAbstract {items : Items} {rank : ℕ → ℕ} {benchmark depth : ℕ}
    (hnests : Nests items rank benchmark) (hdepth : rank benchmark < depth)
    (htyped : Typed items benchmark) :
    ∃ items', xccdfResolveCleanup depth items benchmark = some items' ∧
      RemovesAbstract items benchmark items' := by
  obtain ⟨items', hrun, hpruned, hclean⟩ := cleanup_spec depth hnests hdepth
  exact ⟨items', hrun, hpruned, fun x => hpruned.below_iff hclean htyped,
    fun x hx hcontainer => hpruned.lists_eq hclean htyped hx hcontainer⟩

/-- **Removal during iteration**: any sequence of calls leaves the elements that are not
detached and visits those that are accepted once, loops that remove elements leave the others,
and the clean-up of a benchmark removes the abstract items and what they contain. -/
theorem iteration_cleanup {α : Type*} {filter : α → Bool} {fuel : ℕ} {list : OscapList}
    {cells : SlistMemory α} {original : List (ℕ × α)} (hlist : list.Holds cells original)
    (hfuel : original.length < fuel) (calls : List IteratorCall)
    (hasks : AsksForPresent filter fuel calls (⟨cells, list, none⟩, ⟨[], []⟩))
    {items : Items} {rank : ℕ → ℕ} {benchmark depth : ℕ} (hnests : Nests items rank benchmark)
    (hdepth : rank benchmark < depth) (htyped : Typed items benchmark) :
    (∃ it history, iteratorCalls filter fuel calls (⟨cells, list, none⟩, ⟨[], []⟩) =
        some (it, history) ∧
      it.list.Holds it.cells (original.filter fun c => c.1 ∉ addresses history.detached) ∧
      history.visited <+: original.filter (fun c => filter c.2) ∧
      ((oscapIteratorHasMore filter fuel it).map Prod.snd = some false →
        history.visited = original.filter fun c => filter c.2)) ∧
      ∃ items', xccdfResolveCleanup depth items benchmark = some items' ∧
        RemovesAbstract items benchmark items' :=
  ⟨iteration_spec hlist hfuel calls hasks, cleanup_removesAbstract hnests hdepth htyped⟩

/-- A benchmark with an abstract group that has a rule. -/
def groupedItems : Items
  | 0 => ⟨⟨[], .benchmark⟩, some "b", none, false, none, [], [1], []⟩
  | 1 => ⟨⟨[], .group []⟩, some "g", none, true, none, [], [2], []⟩
  | _ => ⟨⟨[], .rule [] []⟩, some "r", none, false, none, [], [], []⟩

/-- The depth that is below each of them. -/
def groupedRank : ℕ → ℕ
  | 0 => 2
  | 1 => 1
  | _ => 0

theorem nests_grouped : Nests groupedItems groupedRank 0 := by
  intro x _ y hy
  match x with
  | 0 =>
      obtain rfl : y = 1 := List.mem_singleton.mp hy
      decide
  | 1 =>
      obtain rfl : y = 2 := List.mem_singleton.mp hy
      decide
  | x + 2 => cases hy

theorem typed_grouped : Typed groupedItems 0 := by
  constructor
  all_goals
    intro x _ _ y hy
    match x with
    | 0 => cases hy
    | 1 => cases hy
    | x + 2 => cases hy

/-- A list of two elements. -/
def twoCells : SlistMemory ℕ
  | 1 => some ⟨10, some 2⟩
  | 2 => some ⟨20, none⟩
  | _ => none

theorem holds_twoCells :
    (⟨some 1, some 2, 2⟩ : OscapList).Holds twoCells [(1, 10), (2, 20)] :=
  ⟨.cons rfl (.cons rfl (.nil none)), by decide, rfl, rfl⟩

/-- The only element that is asked for is the first. -/
theorem asksForPresent_first :
    AsksForPresent (fun _ => true) 3 [.hasMore, .next, .detach]
      (⟨twoCells, ⟨some 1, some 2, 2⟩, none⟩, ⟨[], []⟩) := by
  intro front hfront s hs
  match front, hfront with
  | [], hfront => simp at hfront
  | [c], hfront =>
      obtain rfl : c = .hasMore := by simpa using hfront
      obtain rfl := Option.some.inj hs
      rfl
  | [c, d], hfront => simp at hfront
  | c :: d :: e :: front, hfront => simp at hfront

/-- The first element is removed from a list of two, and the group from the benchmark. -/
theorem iteration_cleanup_grouped :
    (∃ it history, iteratorCalls (fun _ => true) 3 [.hasMore, .next, .detach]
        (⟨twoCells, ⟨some 1, some 2, 2⟩, none⟩, ⟨[], []⟩) = some (it, history) ∧
      it.list.Holds it.cells
        ([(1, 10), (2, 20)].filter fun c => c.1 ∉ addresses history.detached) ∧
      history.visited <+: [(1, 10), (2, 20)].filter (fun _ => true) ∧
      ((oscapIteratorHasMore (fun _ => true) 3 it).map Prod.snd = some false →
        history.visited = [(1, 10), (2, 20)].filter fun _ => true)) ∧
      ∃ items', xccdfResolveCleanup 3 groupedItems 0 = some items' ∧
        RemovesAbstract groupedItems 0 items' :=
  iteration_cleanup holds_twoCells (by decide) [.hasMore, .next, .detach]
    asksForPresent_first nests_grouped (by decide) typed_grouped

/-- The rule is no longer below the benchmark, though it is not abstract. -/
theorem not_removes_exactly_abstract :
    (∃ items', xccdfResolveCleanup 3 groupedItems 0 = some items' ∧
      Below groupedItems 0 2 ∧ (groupedItems 2).abstract = false ∧ ¬ Below items' 0 2) ∧
    ¬ ∀ (items : Items) (benchmark depth : ℕ) (items' : Items),
      xccdfResolveCleanup depth items benchmark = some items' →
        ∀ x, Below items benchmark x →
          (¬ Below items' benchmark x ↔ (items x).abstract = true) := by
  obtain ⟨items', hrun, hpruned, hclean⟩ := cleanup_spec 3 nests_grouped (by decide)
  have hbelow : Below groupedItems 0 2 :=
    .tail (.single (List.mem_singleton_self 1)) (List.mem_singleton_self 2)
  have hgone : ¬ Below items' 0 2 := by
    rw [hpruned.below_iff hclean typed_grouped]
    intro h
    obtain ⟨x, hx, -⟩ := TransGen.head'_iff.mp h
    obtain rfl : x = 1 := List.mem_singleton.mp hx.1
    cases hx.2
  refine ⟨⟨items', hrun, hbelow, rfl, hgone⟩, fun h => ?_⟩
  cases (h groupedItems 0 3 items' hrun 2 hbelow).mp hgone

end OpenScap.XccdfResolution
