import OpenScap.XccdfResolveCopies

/-!
# Groups that extend groups

A group that extends another gets copies of its content and its values. The group is not done
while they are added, but its members are.

## Main results

* `addItem_ends` — adding one copy;
* `resolveGroup_ends` — the loops over content and values.
-/

open AssertedRun

namespace OpenScap.XccdfResolution

section Groups

variable {s₀ s s' : Benchmark} {done busy : List ℕ} {rank rank' : ℕ → ℕ} {x y a c src : ℕ}
  {depth : ℕ}

/-- An item that is resolved next: it is not live yet, but its members are. -/
structure Busy (s₀ : Benchmark) (done : List ℕ) (s : Benchmark) (x : ℕ) : Prop where
  lt : x < s₀.next
  not_done : x ∉ done
  children : ∀ y ∈ childrenOf s.items x, Live s₀ done s y
  typed : ListsTyped s.items x

theorem Busy.not_live (h : Busy s₀ done s x) : ¬ Live s₀ done s x := by
  rintro (hx | ⟨hle, -⟩)
  · exact h.not_done hx
  · exact absurd h.lt (by omega)

/-- The item stays what it is while others are added and changed. -/
theorem Busy.of_same (h : Busy s₀ done s x) (hle : s.next ≤ s'.next)
    (htype : (s'.items x).type = (s.items x).type)
    (hprofiles : (s'.items x).profiles = (s.items x).profiles)
    (hcontent : (s'.items x).content = (s.items x).content)
    (hvalues : (s'.items x).values = (s.items x).values)
    (hlive : ∀ y, Live s₀ done s y → (s'.items y).type = (s.items y).type) :
    Busy s₀ done s' x := by
  have hsame : ∀ y ∈ childrenOf s.items x, (s'.items y).type = (s.items y).type :=
    fun y hy => hlive y (h.children y hy)
  have hcontainer : (s'.items x).IsContainer ↔ (s.items x).IsContainer := by
    rw [Item.IsContainer, Item.IsContainer, htype]
  refine ⟨h.lt, h.not_done, fun y hy => ?_,
    ⟨fun hb y hy => ?_, fun hc y hy => ?_, fun hc y hy => ?_⟩⟩
  · refine (h.children y ?_).mono hle
    rw [mem_childrenOf, htype, hprofiles, hcontainer, hcontent, hvalues] at hy
    exact mem_childrenOf.mpr hy
  · rw [htype] at hb
    rw [hprofiles] at hy
    rw [hsame y (mem_childrenOf.mpr (.inl ⟨hb, hy⟩))]
    exact h.typed.profiles hb y hy
  · rw [hcontainer] at hc
    rw [hcontent] at hy
    rw [hsame y (mem_childrenOf.mpr (.inr ⟨hc, .inl hy⟩))]
    exact h.typed.content hc y hy
  · rw [hcontainer] at hc
    rw [hvalues] at hy
    rw [hsame y (mem_childrenOf.mpr (.inr ⟨hc, .inr hy⟩))]
    exact h.typed.values hc y hy

/-- The same when the item is not changed at all. -/
theorem Busy.of_self (h : Busy s₀ done s x) (hle : s.next ≤ s'.next)
    (hself : s'.items x = s.items x)
    (hlive : ∀ y, Live s₀ done s y → (s'.items y).type = (s.items y).type) :
    Busy s₀ done s' x :=
  h.of_same hle (by rw [hself]) (by rw [hself]) (by rw [hself]) (by rw [hself]) hlive

/-- The list of a group is that for the type of an item. -/
def AppendsTyped (append : Item → ℕ → Item) (type : ResolveType) : Prop :=
  (append = Item.addContent ∧ (type = .rule ∨ type = .group)) ∨
    (append = Item.addValue ∧ type = .value)

theorem AppendsTyped.grown {append : Item → ℕ → Item} {type : ResolveType}
    (h : AppendsTyped append type) (item : Item) (c : ℕ) : Grown item (append item c) := by
  rcases h with ⟨rfl, -⟩ | ⟨rfl, -⟩
  · exact ⟨rfl, rfl, rfl, List.subset_append_left _ _, fun _ h => h⟩
  · exact ⟨rfl, rfl, rfl, fun _ h => h, List.subset_append_left _ _⟩

theorem Grown.trans {item item' item'' : Item} (h : Grown item item') (h' : Grown item' item'') :
    Grown item item'' :=
  ⟨h'.type.trans h.type, h'.abstract.trans h.abstract, h'.profiles.trans h.profiles,
    fun _ hx => h'.content (h.content hx), fun _ hx => h'.values (h.values hx)⟩

/-- A live item is appended to the lists of a group. -/
theorem Busy.append (h : Busy s₀ done s x) (hgroup : (s.items x).type = .group)
    (hc : Live s₀ done s c) {append : Item → ℕ → Item}
    (happend : AppendsTyped append (s.items c).type) :
    Busy s₀ done (s.set x (append (s.items x) c)) x := by
  have hself : (s.set x (append (s.items x) c)).items x = append (s.items x) c :=
    s.items_set_self _ _
  have hother : ∀ y, Live s₀ done s y → (s.set x (append (s.items x) c)).items y = s.items y :=
    fun y hy => s.items_set_of_ne _ (by rintro rfl; exact h.not_live hy)
  have hgroup' : ((s.set x (append (s.items x) c)).items x).type = .group := by
    rw [hself, (happend.grown _ _).type]
    exact hgroup
  have hcontainer : (s.items x).IsContainer := .inr hgroup
  have hcontent : ∀ y ∈ (append (s.items x) c).content, Live s₀ done s y ∧
      ((s.items y).type = .rule ∨ (s.items y).type = .group) := by
    intro y hy
    have hold : y ∈ (s.items x).content → _ := fun hy =>
      And.intro (h.children y (mem_childrenOf.mpr (.inr ⟨hcontainer, .inl hy⟩)))
        (h.typed.content hcontainer y hy)
    rcases happend with ⟨rfl, htype⟩ | ⟨rfl, htype⟩
    · rcases List.mem_append.mp hy with hy | hy
      · exact hold hy
      · obtain rfl := List.mem_singleton.mp hy
        exact ⟨hc, htype⟩
    · exact hold hy
  have hvalues : ∀ y ∈ (append (s.items x) c).values, Live s₀ done s y ∧
      (s.items y).type = .value := by
    intro y hy
    have hold : y ∈ (s.items x).values → _ := fun hy =>
      And.intro (h.children y (mem_childrenOf.mpr (.inr ⟨hcontainer, .inr hy⟩)))
        (h.typed.values hcontainer y hy)
    rcases happend with ⟨rfl, htype⟩ | ⟨rfl, htype⟩
    · exact hold hy
    · rcases List.mem_append.mp hy with hy | hy
      · exact hold hy
      · obtain rfl := List.mem_singleton.mp hy
        exact ⟨hc, htype⟩
  refine ⟨h.lt, h.not_done, fun y hy => ?_, ⟨fun hb => ?_, fun _ y hy => ?_,
    fun _ y hy => ?_⟩⟩
  · rcases mem_childrenOf.mp hy with ⟨hb, -⟩ | ⟨-, hy | hy⟩
    · rw [hgroup'] at hb
      cases hb
    · rw [hself] at hy
      exact (hcontent y hy).1
    · rw [hself] at hy
      exact (hvalues y hy).1
  · rw [hgroup'] at hb
    cases hb
  · rw [hself] at hy
    rw [hother y (hcontent y hy).1]
    exact (hcontent y hy).2
  · rw [hself] at hy
    rw [hother y (hvalues y hy).1]
    exact (hvalues y hy).2

/-- The type of an item that was there before the call. -/
theorem Inv.type (h : Inv s₀ done busy s rank) (hx : x < s₀.next) :
    (s.items x).type = (s₀.items x).type := (h.grown x hx).type

/-- What adding a copy to a group does. -/
def AddsTo (s₀ : Benchmark) (done : List ℕ) (s : Benchmark) (rank : ℕ → ℕ) (x c : ℕ)
    (s' : Benchmark) : Prop :=
  Inv s₀ done [x] s' rank ∧ Busy s₀ done s' x ∧ s'.next = s.next ∧
    ∀ y, y ≠ c → y ≠ x → s'.items y = s.items y

/-- Adding a copy to a group ends, or fails the assertion that the copy is registered. -/
theorem addItem_ends (h : Inv s₀ done [x] s rank) (hbusy : Busy s₀ done s x)
    (hgroup : (s₀.items x).type = .group) (hle : s₀.next ≤ c) (hlt : c < s.next)
    (hdepth : rank c < depth) {append : Item → ℕ → Item}
    (happend : AppendsTyped append (s.items c).type) (pre : String) :
    Ends (AddsTo s₀ done s rank x c) (s.xccdfAddItem depth append pre x c) := by
  have hne : x ≠ c := by
    rintro rfl
    exact absurd hbusy.lt (by omega)
  -- the id is given first
  obtain ⟨s₁, hs₁, hinv₁, hnext₁, hother₁, htype₁⟩ : ∃ s₁, (if (s.items c).id = none then
      s.set c { s.items c with id := s.genId (s.items c).type pre } else s) = s₁ ∧
      Inv s₀ done [x] s₁ rank ∧ s₁.next = s.next ∧ (∀ y, y ≠ c → s₁.items y = s.items y) ∧
      (s₁.items c).type = (s.items c).type := by
    refine ⟨_, rfl, ?_⟩
    split_ifs
    · refine ⟨h.setId hle _, rfl, fun y hy => s.items_set_of_ne _ hy, ?_⟩
      rw [Benchmark.items_set_self]
      rfl
    · exact ⟨h, rfl, fun _ _ => rfl, rfl⟩
  have hlive₁ : Live s₀ done s₁ c := .inr ⟨hle, hnext₁ ▸ hlt⟩
  have hbusy₁ : Busy s₀ done s₁ x :=
    hbusy.of_self (Nat.le_of_eq hnext₁.symm) (hother₁ x hne) fun y _ => by
      rcases eq_or_ne y c with rfl | hy
      · exact htype₁
      · rw [hother₁ y hy]
  rw [Benchmark.xccdfAddItem]
  simp only [hs₁]
  refine Ends.bind (register_ends hinv₁.children s₁.dicts hlive₁ hdepth) ?_
  rintro ⟨dicts, registered⟩ hadds
  have hinv₂ := hinv₁.dicts hadds
  have hbusy₂ : Busy s₀ done { s₁ with dicts := dicts } x :=
    hbusy₁.of_self (Nat.le_refl _) rfl fun _ _ => rfl
  cases registered with
  | false => trivial
  | true =>
      rw [← htype₁] at happend
      refine ⟨hinv₂.set (List.mem_singleton_self x) hbusy₂.not_live _ fun hx =>
          (hinv₂.grown x hx).trans (happend.grown _ _),
        hbusy₂.append ((hinv₂.type hbusy.lt).trans hgroup) hlive₁ happend, hnext₁,
        fun y hyc hyx => ?_⟩
      exact (Benchmark.items_set_of_ne _ _ hyx).trans (hother₁ y hyc)

/-- Nothing that was in use has changed but for one item. -/
structure LaterBut (x : ℕ) (s s' : Benchmark) (rank rank' : ℕ → ℕ) : Prop where
  next_le : s.next ≤ s'.next
  same : ∀ y < s.next, y ≠ x → s'.items y = s.items y
  rank : ∀ y < s.next, rank' y = rank y

/-- What adding copies to a group does. -/
def AddsCopies (s₀ : Benchmark) (done : List ℕ) (s : Benchmark) (rank : ℕ → ℕ) (x : ℕ)
    (s' : Benchmark) : Prop :=
  ∃ rank', Inv s₀ done [x] s' rank' ∧ Busy s₀ done s' x ∧ LaterBut x s s' rank rank'

/-- A loop that copies the members of a list and adds the copies. -/
theorem copyLoop_ends (add : Benchmark → ℕ → Except Stop Benchmark) (P : ResolveType → Prop)
    {list : List ℕ}
    (hadd : ∀ s rank c, Inv s₀ done [x] s rank → Busy s₀ done s x → s₀.next ≤ c → c < s.next →
      rank c < depth → P (s.items c).type → Ends (AddsTo s₀ done s rank x c) (add s c))
    (h : Inv s₀ done [x] s rank) (hbusy : Busy s₀ done s x)
    (hlist : ∀ y ∈ list, Live s₀ done s y ∧ rank y < depth ∧ P (s.items y).type) :
    Ends (AddsCopies s₀ done s rank x)
      (list.foldlM (fun s item => do
        let (s, clone) ← s.xccdfResolveCopyItem depth item
        add s clone) s) := by
  refine Ends.foldlM (AddsCopies s₀ done s rank x) ?_
    ⟨rank, h, hbusy, Nat.le_refl _, fun _ _ _ => rfl, fun _ _ => rfl⟩
  rintro src hsrc s₁ ⟨rank₁, hinv₁, hbusy₁, hlater₁⟩
  obtain ⟨hlive, hdepth, htype⟩ := hlist src hsrc
  have hlt := hlive.lt h
  have hne : src ≠ x := by
    rintro rfl
    exact hbusy.not_live hlive
  rw [← hlater₁.rank src hlt] at hdepth
  rw [← hlater₁.same src hlt hne] at htype
  refine Ends.bind (copyItem_ends hinv₁ (hlive.mono hlater₁.next_le) hdepth) ?_
  rintro ⟨s₂, c⟩ ⟨rank₂, hinv₂, hlater₂, hcopied⟩
  have hx : x < s₁.next := Nat.lt_of_lt_of_le hbusy.lt hinv₁.next_le
  have hbusy₂ : Busy s₀ done s₂ x :=
    hbusy₁.of_self hlater₂.next_le (hlater₂.same x hx) fun y hy => by
      rw [hlater₂.same y (hy.lt hinv₁)]
  refine (hadd s₂ rank₂ c hinv₂ hbusy₂ (hinv₁.next_le.trans hcopied.fresh) hcopied.lt
    (by rw [hcopied.rank]; exact hdepth) (by rw [hcopied.type]; exact htype)).mono ?_
  rintro s₃ ⟨hinv₃, hbusy₃, hnext₃, hother₃⟩
  have hfresh : s₁.next ≤ c := hcopied.fresh
  have hle₁ := hlater₁.next_le
  have hle₂ : s₁.next ≤ s₂.next := hlater₂.next_le
  refine ⟨rank₂, hinv₃, hbusy₃, by rw [hnext₃]; omega, fun y hy hyx => ?_, fun y hy => ?_⟩
  · rw [hother₃ y (by omega) hyx, hlater₂.same y (by omega), hlater₁.same y hy hyx]
  · rw [hlater₂.rank y (by omega), hlater₁.rank y hy]

/-- **Extending a group** ends, or fails an assertion. -/
theorem resolveGroup_ends {p : ℕ} (h : Inv s₀ done [x] s rank) (hbusy : Busy s₀ done s x)
    (hgroup : (s₀.items x).type = .group) (hp : Live s₀ done s p)
    (hparent : (s.items p).type = .group) (hdepth : done.length ≤ depth) :
    Ends (AddsCopies s₀ done s rank x) (s.xccdfResolveGroup depth x p) := by
  have hcontainer : (s.items p).IsContainer := .inr hparent
  have hlist : ∀ y ∈ childrenOf s.items p, Live s₀ done s y ∧ rank y < depth := fun y hy => by
    obtain ⟨hlive, hrank⟩ := h.children p hp y hy
    have hbound := h.bounded p hp
    exact ⟨hlive, by omega⟩
  have hlt := hp.lt h
  have hne : p ≠ x := by
    rintro rfl
    exact hbusy.not_live hp
  rw [Benchmark.xccdfResolveGroup]
  refine Ends.bind (copyLoop_ends (fun s c => s.xccdfGroupAddContent depth x c)
    (fun type => type = .rule ∨ type = .group) ?_ h hbusy
    fun y hy => ?_) ?_
  · intro s rank c hinv hbusy hle hlt hrank htype
    rw [Benchmark.xccdfGroupAddContent]
    rcases htype with htype | htype
    all_goals
      rw [htype]
      exact addItem_ends hinv hbusy hgroup hle hlt hrank (.inl ⟨rfl, by simp [htype]⟩) _
  · obtain ⟨hlive, hrank⟩ := hlist y (mem_childrenOf.mpr (.inr ⟨hcontainer, .inl hy⟩))
    exact ⟨hlive, hrank, (h.typed p hp).content hcontainer y hy⟩
  · rintro s₁ ⟨rank₁, hinv₁, hbusy₁, hlater₁⟩
    refine (copyLoop_ends (fun s c => s.xccdfGroupAddValue depth x c)
      (fun type => type = .value) ?_ hinv₁ hbusy₁ fun y hy => ?_).mono ?_
    · intro s rank c hinv hbusy hle hlt hrank htype
      exact addItem_ends hinv hbusy hgroup hle hlt hrank (.inr ⟨rfl, htype⟩) _
    · rw [hlater₁.same p hlt hne] at hy
      obtain ⟨hlive, hrank⟩ := hlist y (mem_childrenOf.mpr (.inr ⟨hcontainer, .inr hy⟩))
      have hyx : y ≠ x := by
        rintro rfl
        exact hbusy.not_live hlive
      rw [hlater₁.rank y (hlive.lt h), hlater₁.same y (hlive.lt h) hyx]
      exact ⟨hlive.mono hlater₁.next_le, hrank, (h.typed p hp).values hcontainer y hy⟩
    · rintro s₂ ⟨rank₂, hinv₂, hbusy₂, hlater₂⟩
      have hle := hlater₁.next_le
      refine ⟨rank₂, hinv₂, hbusy₂, hlater₁.next_le.trans hlater₂.next_le,
        fun y hy hyx => ?_, fun y hy => ?_⟩
      · rw [hlater₂.same y (by omega) hyx, hlater₁.same y hy hyx]
      · rw [hlater₂.rank y (by omega), hlater₁.rank y hy]

end Groups

end OpenScap.XccdfResolution
