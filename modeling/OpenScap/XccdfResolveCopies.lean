import OpenScap.XccdfBenchmark

/-!
# Copies of items

While a benchmark is resolved, its addresses fall into the items that are done, the copies, and
the items that are still to come. The first two are closed under membership and ranked, so that
the recursions over them end; cloning and registering keep them so.

## Main results

* `register_ends` — registration adds the item and members below it;
* `itemClone_ends`, `copyItem_ends` — a copy has the type and the rank of its original, and
  nothing that was in use has changed.
-/

open AssertedRun

namespace OpenScap.XccdfResolution

/-! ### What resolution keeps -/

/-- An item of the type that extends the id can be completed: the id is that of an item of the
same type, which is not a group of a schema from 1.2 on. -/
def CanExtend (s : Benchmark) (type : ResolveType) (id : String) : Prop :=
  ∃ p, s.dicts.getMember type id = some p ∧ (s.items p).type = type ∧
    ¬ (type = .group ∧ s.versionCmp ≥ 0)

/-- What the item extends, if anything, could not complete it before the call. -/
def Settled (s₀ : Benchmark) (item : Item) : Prop :=
  item.type ≠ .benchmark → ∀ id, item.extends_ = some id → ¬ CanExtend s₀ item.type id

/-- Only what lists have behind their old members, what is merged, the id and the reference to
another item may differ. -/
structure Grown (item item' : Item) : Prop where
  type : item'.type = item.type
  abstract : item'.abstract = item.abstract
  profiles : item'.profiles = item.profiles
  content : item.content ⊆ item'.content
  values : item.values ⊆ item'.values

/-- The members of an item's lists have the types that belong there. -/
structure ListsTyped (items : Items) (x : ℕ) : Prop where
  profiles : (items x).type = .benchmark → ∀ y ∈ (items x).profiles, (items y).type = .profile
  content : (items x).IsContainer →
    ∀ y ∈ (items x).content, (items y).type = .rule ∨ (items y).type = .group
  values : (items x).IsContainer → ∀ y ∈ (items x).values, (items y).type = .value

/-- The item is one of those that are done, or a copy. -/
def Live (s₀ : Benchmark) (done : List ℕ) (s : Benchmark) (x : ℕ) : Prop :=
  x ∈ done ∨ s₀.next ≤ x ∧ x < s.next

/-- What holds of the benchmark when the items `done` are resolved and `busy` may be changed.
Items that are done and copies have such items below them, of smaller rank. -/
structure Inv (s₀ : Benchmark) (done busy : List ℕ) (s : Benchmark) (rank : ℕ → ℕ) : Prop where
  benchmark : s.benchmark = s₀.benchmark
  versionCmp : s.versionCmp = s₀.versionCmp
  next_le : s₀.next ≤ s.next
  done_lt : ∀ x ∈ done, x < s₀.next
  member : ∀ type id p, s₀.dicts.getMember type id = some p →
    s.dicts.getMember type id = some p
  member_new : ∀ type id p, s.dicts.getMember type id = some p →
    s₀.dicts.getMember type id = some p ∨ Live s₀ done s p
  untouched : ∀ x < s₀.next, x ∉ done → x ∉ busy → s.items x = s₀.items x
  grown : ∀ x < s₀.next, Grown (s₀.items x) (s.items x)
  settled : ∀ x, Live s₀ done s x → Settled s₀ (s.items x)
  children : ∀ x, Live s₀ done s x → ∀ y ∈ childrenOf s.items x,
    Live s₀ done s y ∧ rank y < rank x
  bounded : ∀ x, Live s₀ done s x → rank x < done.length
  typed : ∀ x, Live s₀ done s x → ListsTyped s.items x

section Keep

variable {s₀ s s' : Benchmark} {done busy : List ℕ} {rank rank' : ℕ → ℕ} {x y a c src : ℕ}
  {depth : ℕ}

theorem Live.lt (hx : Live s₀ done s x) (h : Inv s₀ done busy s rank) : x < s.next := by
  rcases hx with hx | hx
  · exact Nat.lt_of_lt_of_le (h.done_lt x hx) h.next_le
  · exact hx.2

theorem Live.mono (hx : Live s₀ done s x) (hle : s.next ≤ s'.next) : Live s₀ done s' x :=
  hx.imp_right fun h => ⟨h.1, Nat.lt_of_lt_of_le h.2 hle⟩

theorem childrenOf_congr {items items' : Items} (h : items' x = items y) :
    childrenOf items' x = childrenOf items y := by
  rw [childrenOf, childrenOf, contentOf, contentOf, h]

/-- A change of the dictionaries that only adds items that are live. -/
structure Adds (P : ℕ → Prop) (dicts dicts' : Dicts) : Prop where
  member : ∀ type id p, dicts.getMember type id = some p → dicts'.getMember type id = some p
  member_new : ∀ type id p, dicts'.getMember type id = some p →
    dicts.getMember type id = some p ∨ P p

theorem Adds.refl {P : ℕ → Prop} (dicts : Dicts) : Adds P dicts dicts :=
  ⟨fun _ _ _ h => h, fun _ _ _ h => .inl h⟩

theorem Adds.trans {P : ℕ → Prop} {dicts dicts' dicts'' : Dicts} (h : Adds P dicts dicts')
    (h' : Adds P dicts' dicts'') : Adds P dicts dicts'' :=
  ⟨fun type id p hp => h'.member type id p (h.member type id p hp), fun type id p hp =>
    (h'.member_new type id p hp).elim (h.member_new type id p) .inr⟩

/-- The entry of one more item. -/
theorem adds_add {P : ℕ → Prop} (dicts : Dicts) (type : ResolveType) (id : String) (hx : P x) :
    Adds P dicts (dicts.add type id x).1 := by
  rw [Dicts.add, tableAdd]
  cases hfound : dicts.getMember type id with
  | some found =>
      constructor
      all_goals
        intro type' id' p
        by_cases htype : type = .profile <;> by_cases htype' : type' = .profile <;>
          simp_all [Dicts.getMember]
  | none =>
      constructor
      all_goals
        intro type' id' p
        by_cases htype : type = .profile <;> by_cases htype' : type' = .profile <;>
          simp_all [Dicts.getMember, Function.update_apply] <;> grind

theorem adds_cluster {P : ℕ → Prop} {dicts dicts' : Dicts} (h : Adds P dicts dicts')
    (item : Item) (id : String) (x : ℕ) :
    Adds P dicts (registerItemToCluster dicts' item id x).1 := by
  rw [registerItemToCluster]
  split_ifs
  · exact h
  · exact ⟨h.member, h.member_new⟩

/-- **Registration** ends, and adds the item and members of groups below it. -/
theorem register_ends {P : ℕ → Prop} {items : Items}
    (hchildren : ∀ x, P x → ∀ y ∈ childrenOf items x, P y ∧ rank y < rank x) (dicts : Dicts)
    (hx : P x) (hdepth : rank x < depth) :
    Ends (fun r => Adds P dicts r.1) (xccdfBenchmarkRegisterItem depth items dicts x) := by
  induction depth generalizing dicts x with
  | zero => omega
  | succ depth ih =>
      rw [xccdfBenchmarkRegisterItem]
      cases hid : (items x).id with
      | none => exact .refl dicts
      | some id =>
          simp only
          cases hfound : dicts.getMember (items x).type id with
          | some found => exact .refl dicts
          | none =>
              refine Ends.bind (Ends.foldlM (Adds P dicts) (fun y hy dicts' hdicts' => ?_)
                (Adds.refl dicts)) fun dicts' hdicts' => ?_
              · split_ifs at hy with hgroup
                · have hmem : y ∈ childrenOf items x :=
                    mem_childrenOf.mpr (.inr ⟨.inr hgroup, List.mem_append.mp hy⟩)
                  obtain ⟨hy, hrank⟩ := hchildren x hx y hmem
                  exact (ih dicts' hy (by omega)).map fun r hr => hdicts'.trans hr
                · cases hy
              · have hadd := hdicts'.trans (adds_add dicts' (items x).type id hx)
                change Adds P dicts (if _ then _ else _ : Dicts × Bool).1
                split_ifs
                · exact adds_cluster hadd _ _ _
                · exact hadd

/-- The dictionaries are replaced. -/
theorem Inv.dicts (h : Inv s₀ done busy s rank) {dicts : Dicts}
    (hadds : Adds (Live s₀ done s) s.dicts dicts) :
    Inv s₀ done busy { s with dicts := dicts } rank :=
  { h with
    member := fun type id p hp => hadds.member type id p (h.member type id p hp)
    member_new := fun type id p hp =>
      (hadds.member_new type id p hp).elim (h.member_new type id p) .inr }

/-- A live item keeps its type, its lists and what it extends when another item is changed. -/
theorem Inv.listsTyped_of_same (h : Inv s₀ done busy s rank) {items' : Items}
    (hx : Live s₀ done s x) (hself : items' x = s.items x)
    (htype : ∀ y, Live s₀ done s y → (items' y).type = (s.items y).type) :
    ListsTyped items' x := by
  have hlive : ∀ y ∈ childrenOf s.items x, (items' y).type = (s.items y).type :=
    fun y hy => htype y (h.children x hx y hy).1
  obtain ⟨hprofiles, hcontent, hvalues⟩ := h.typed x hx
  refine ⟨fun hb y hy => ?_, fun hc y hy => ?_, fun hc y hy => ?_⟩
  all_goals rw [hself] at hy
  · rw [hself] at hb
    rw [hlive y (mem_childrenOf.mpr (.inl ⟨hb, hy⟩))]
    exact hprofiles hb y hy
  · rw [Item.IsContainer, hself] at hc
    rw [hlive y (mem_childrenOf.mpr (.inr ⟨hc, .inl hy⟩))]
    exact hcontent hc y hy
  · rw [Item.IsContainer, hself] at hc
    rw [hlive y (mem_childrenOf.mpr (.inr ⟨hc, .inr hy⟩))]
    exact hvalues hc y hy

/-- An item that is not live is changed. -/
theorem Inv.set (h : Inv s₀ done busy s rank) (hx : x ∈ busy) (hnot : ¬ Live s₀ done s x)
    (item : Item) (hgrown : x < s₀.next → Grown (s₀.items x) item) :
    Inv s₀ done busy (s.set x item) rank := by
  have hother : ∀ y, Live s₀ done s y → (s.set x item).items y = s.items y := fun y hy =>
    s.items_set_of_ne item (by rintro rfl; exact hnot hy)
  refine { h with untouched := ?_, grown := ?_, settled := ?_, children := ?_, typed := ?_ }
  · intro y hy hdone hbusy
    refine (s.items_set_of_ne item ?_).trans (h.untouched y hy hdone hbusy)
    rintro rfl
    exact hbusy hx
  · intro y hy
    rcases eq_or_ne y x with rfl | hne
    · rw [Benchmark.items_set_self]
      exact hgrown hy
    · rw [Benchmark.items_set_of_ne s item hne]
      exact h.grown y hy
  · intro y hy
    rw [hother y hy]
    exact h.settled y hy
  · intro y hy z hz
    rw [childrenOf_congr (hother y hy)] at hz
    exact h.children y hy z hz
  · intro y hy
    exact h.listsTyped_of_same hy (hother y hy) fun z hz => by rw [hother z hz]

/-- Whether a copy is right does not depend on its id. -/
theorem Inv.setId (h : Inv s₀ done busy s rank) (hc : s₀.next ≤ c) (id : Option String) :
    Inv s₀ done busy (s.set c { s.items c with id := id }) rank := by
  have hsame : ∀ y, ∃ id', (s.set c { s.items c with id := id }).items y =
      { s.items y with id := id' } := by
    intro y
    rcases eq_or_ne y c with rfl | hne
    · exact ⟨id, s.items_set_self _ _⟩
    · exact ⟨(s.items y).id, s.items_set_of_ne _ hne⟩
  have hchildren : ∀ y, childrenOf (s.set c { s.items c with id := id }).items y =
      childrenOf s.items y := by
    intro y
    obtain ⟨id', heq⟩ := hsame y
    rw [childrenOf, childrenOf, contentOf, contentOf, heq]
    rfl
  have htype : ∀ y, ((s.set c { s.items c with id := id }).items y).type =
      (s.items y).type := by
    intro y
    obtain ⟨id', heq⟩ := hsame y
    rw [heq]
    rfl
  refine { h with untouched := ?_, grown := ?_, settled := ?_, children := ?_, typed := ?_ }
  · intro y hy hdone hbusy
    exact (s.items_set_of_ne _ (by omega)).trans (h.untouched y hy hdone hbusy)
  · intro y hy
    rw [s.items_set_of_ne _ (by omega)]
    exact h.grown y hy
  · intro y hy
    obtain ⟨id', heq⟩ := hsame y
    rw [heq]
    exact h.settled y hy
  · intro y hy z hz
    rw [hchildren] at hz
    exact h.children y hy z hz
  · intro y hy
    obtain ⟨hprofiles, hcontent, hvalues⟩ := h.typed y hy
    obtain ⟨id', heq⟩ := hsame y
    refine ⟨fun hb z hz => ?_, fun hcont z hz => ?_, fun hcont z hz => ?_⟩
    all_goals
      rw [heq] at hz
      rw [htype]
    · exact hprofiles ((htype y).symm.trans hb) z hz
    · exact hcontent (by rwa [Item.IsContainer, htype] at hcont) z hz
    · exact hvalues (by rwa [Item.IsContainer, htype] at hcont) z hz

/-- Nothing that was in use has changed, nor its rank. -/
structure Later (s s' : Benchmark) (rank rank' : ℕ → ℕ) : Prop where
  next_le : s.next ≤ s'.next
  same : ∀ y < s.next, s'.items y = s.items y
  rank : ∀ y < s.next, rank' y = rank y

theorem Later.refl (s : Benchmark) (rank : ℕ → ℕ) : Later s s rank rank :=
  ⟨Nat.le_refl _, fun _ _ => rfl, fun _ _ => rfl⟩

theorem Later.trans {s'' : Benchmark} {rank'' : ℕ → ℕ} (h : Later s s' rank rank')
    (h' : Later s' s'' rank' rank'') : Later s s'' rank rank'' :=
  ⟨h.next_le.trans h'.next_le,
    fun y hy => (h'.same y (Nat.lt_of_lt_of_le hy h.next_le)).trans (h.same y hy),
    fun y hy => (h'.rank y (Nat.lt_of_lt_of_le hy h.next_le)).trans (h.rank y hy)⟩

/-- An item that is like another but for its lists. -/
structure Copies (item item' : Item) : Prop where
  type : item'.type = item.type
  extends_ : item'.extends_ = item.extends_
  profiles : item'.profiles = item.profiles

/-- A copy of a live item, with live members of smaller rank and the right types. -/
theorem Inv.alloc (h : Inv s₀ done busy s rank) (hsrc : Live s₀ done s src) {item : Item}
    (hcopies : Copies (s.items src) item)
    (hchildren : ∀ y ∈ childrenOf (fun _ => item) 0, Live s₀ done s y ∧ rank y < rank src)
    (hcontent : item.IsContainer →
      ∀ y ∈ item.content, (s.items y).type = .rule ∨ (s.items y).type = .group)
    (hvalues : item.IsContainer → ∀ y ∈ item.values, (s.items y).type = .value) :
    Inv s₀ done busy (s.alloc item).1 (Function.update rank s.next (rank src)) ∧
      Later s (s.alloc item).1 rank (Function.update rank s.next (rank src)) := by
  have hold : ∀ y < s.next, (s.alloc item).1.items y = s.items y := fun y hy =>
    Function.update_of_ne (by omega) _ _
  have hnew : (s.alloc item).1.items s.next = item := Function.update_self _ _ _
  have hrank : ∀ y < s.next, Function.update rank s.next (rank src) y = rank y := fun y hy =>
    Function.update_of_ne (by omega) _ _
  have hnext : (s.alloc item).1.next = s.next + 1 := rfl
  have hmono : ∀ y, Live s₀ done s y → Live s₀ done (s.alloc item).1 y := fun y hy =>
    hy.mono (Nat.le_succ _)
  have hcases : ∀ y, Live s₀ done (s.alloc item).1 y → Live s₀ done s y ∨ y = s.next := by
    rintro y (hy | ⟨hle, hlt⟩)
    · exact .inl (.inl hy)
    · rw [hnext] at hlt
      rcases Nat.lt_succ_iff_lt_or_eq.mp hlt with hlt | rfl
      · exact .inl (.inr ⟨hle, hlt⟩)
      · exact .inr rfl
  refine ⟨?_, ⟨Nat.le_succ _, hold, hrank⟩⟩
  have hle := h.next_le
  refine { h with
    next_le := by rw [hnext]; omega
    member_new := fun type id p hp => (h.member_new type id p hp).imp_right (hmono p)
    untouched := ?_, grown := ?_, settled := ?_, children := ?_, bounded := ?_, typed := ?_ }
  · intro y hy hdone hbusy
    exact (hold y (by omega)).trans (h.untouched y hy hdone hbusy)
  · intro y hy
    rw [hold y (by omega)]
    exact h.grown y hy
  · intro y hy
    rcases hcases y hy with hy | rfl
    · rw [hold y (hy.lt h)]
      exact h.settled y hy
    · rw [hnew, Settled, hcopies.type, hcopies.extends_]
      exact h.settled src hsrc
  · intro y hy z hz
    rcases hcases y hy with hy | rfl
    · rw [childrenOf_congr (hold y (hy.lt h))] at hz
      obtain ⟨hlive, hlt⟩ := h.children y hy z hz
      rw [hrank y (hy.lt h), hrank z (hlive.lt h)]
      exact ⟨hmono z hlive, hlt⟩
    · have hsame : childrenOf (s.alloc item).1.items s.next = childrenOf (fun _ => item) 0 :=
        childrenOf_congr hnew
      rw [hsame] at hz
      obtain ⟨hlive, hlt⟩ := hchildren z hz
      rw [hrank z (hlive.lt h), Function.update_self]
      exact ⟨hmono z hlive, hlt⟩
  · intro y hy
    rcases hcases y hy with hy | rfl
    · rw [hrank y (hy.lt h)]
      exact h.bounded y hy
    · rw [Function.update_self]
      exact h.bounded src hsrc
  · intro y hy
    have hkeep : ∀ z, Live s₀ done s z → ((s.alloc item).1.items z).type = (s.items z).type :=
      fun z hz => by rw [hold z (hz.lt h)]
    rcases hcases y hy with hy | rfl
    · exact h.listsTyped_of_same hy (hold y (hy.lt h)) hkeep
    · refine ⟨fun hb z hz => ?_, fun hc z hz => ?_, fun hc z hz => ?_⟩
      all_goals rw [hnew] at hz
      · rw [hnew, Item.type, ← Item.type, hcopies.type] at hb
        rw [hcopies.profiles] at hz
        rw [hkeep z (h.children src hsrc z (mem_childrenOf.mpr (.inl ⟨hb, hz⟩))).1]
        exact (h.typed src hsrc).profiles hb z hz
      · rw [Item.IsContainer, hnew] at hc
        rw [hkeep z (hchildren z (mem_childrenOf.mpr (.inr ⟨hc, .inl hz⟩))).1]
        exact hcontent hc z hz
      · rw [Item.IsContainer, hnew] at hc
        rw [hkeep z (hchildren z (mem_childrenOf.mpr (.inr ⟨hc, .inr hz⟩))).1]
        exact hvalues hc z hz

/-- A new item with the type and the rank of another. -/
structure Copied (s : Benchmark) (rank : ℕ → ℕ) (s' : Benchmark) (rank' : ℕ → ℕ) (src c : ℕ) :
    Prop where
  fresh : s.next ≤ c
  lt : c < s'.next
  type : (s'.items c).type = (s.items src).type
  rank : rank' c = rank src

theorem Copied.later {s'' : Benchmark} {rank'' : ℕ → ℕ} (h : Copied s rank s' rank' src c)
    (hlater : Later s' s'' rank' rank'') : Copied s rank s'' rank'' src c :=
  ⟨h.fresh, Nat.lt_of_lt_of_le h.lt hlater.next_le, by rw [hlater.same c h.lt, h.type],
    by rw [hlater.rank c h.lt, h.rank]⟩

theorem Copied.earlier {s'' : Benchmark} {rank'' : ℕ → ℕ} (h : Copied s' rank' s'' rank'' src c)
    (hlater : Later s s' rank rank') (hsrc : src < s.next) : Copied s rank s'' rank'' src c :=
  ⟨hlater.next_le.trans h.fresh, h.lt, by rw [h.type, hlater.same src hsrc],
    by rw [h.rank, hlater.rank src hsrc]⟩

/-- A copy is live. -/
theorem Copied.live (h : Copied s rank s' rank' src c) (hle : s₀.next ≤ s.next) :
    Live s₀ done s' c := .inr ⟨hle.trans h.fresh, h.lt⟩

/-- What cloning an item does. -/
def ClonesTo (s₀ : Benchmark) (done busy : List ℕ) (s : Benchmark) (rank : ℕ → ℕ) (src : ℕ)
    (r : Benchmark × ℕ) : Prop :=
  ∃ rank', Inv s₀ done busy r.1 rank' ∧ Later s r.1 rank rank' ∧ Copied s rank r.1 rank' src r.2

/-- Cloning a list clones each of its members. -/
theorem cloneList_ends {clone : Benchmark → ℕ → Except Stop (Benchmark × ℕ)} {list : List ℕ}
    (hclone : ∀ src ∈ list, ∀ s rank, Inv s₀ done busy s rank → Live s₀ done s src →
      rank src < depth → Ends (ClonesTo s₀ done busy s rank src) (clone s src))
    (h : Inv s₀ done busy s rank)
    (hlist : ∀ src ∈ list, Live s₀ done s src ∧ rank src < depth) :
    Ends (fun r => ∃ rank', Inv s₀ done busy r.1 rank' ∧ Later s r.1 rank rank' ∧
      ∀ c ∈ r.2, ∃ src ∈ list, Copied s rank r.1 rank' src c)
      (Benchmark.cloneList clone s list) := by
  induction list generalizing s rank with
  | nil => exact ⟨rank, h, .refl s rank, fun c hc => by cases hc⟩
  | cons x list ih =>
      rw [Benchmark.cloneList]
      obtain ⟨hx, hdepth⟩ := hlist x List.mem_cons_self
      refine Ends.bind (hclone x List.mem_cons_self s rank h hx hdepth) ?_
      rintro ⟨s₁, c⟩ ⟨rank₁, hinv₁, hlater₁, hcopied⟩
      refine Ends.bind (ih (fun src hsrc => hclone src (List.mem_cons_of_mem _ hsrc)) hinv₁
        fun src hsrc => ?_) ?_
      · obtain ⟨hlive, hrank⟩ := hlist src (List.mem_cons_of_mem _ hsrc)
        rw [hlater₁.rank src (hlive.lt h)]
        exact ⟨hlive.mono hlater₁.next_le, hrank⟩
      · rintro ⟨s₂, cs⟩ ⟨rank₂, hinv₂, hlater₂, hcs⟩
        refine ⟨rank₂, hinv₂, hlater₁.trans hlater₂, fun d hd => ?_⟩
        rcases List.mem_cons.mp hd with rfl | hd
        · exact ⟨x, List.mem_cons_self, hcopied.later hlater₂⟩
        · obtain ⟨src, hsrc, hcopy⟩ := hcs d hd
          have hlt := (hlist src (List.mem_cons_of_mem _ hsrc)).1.lt h
          exact ⟨src, List.mem_cons_of_mem _ hsrc, hcopy.earlier hlater₁ hlt⟩

/-- A new item is a copy. -/
theorem copied_alloc (s : Benchmark) (rank : ℕ → ℕ) {item : Item}
    (hcopies : Copies (s.items src) item) :
    Copied s rank (s.alloc item).1 (Function.update rank s.next (rank src)) src
      (s.alloc item).2 := by
  refine ⟨Nat.le_refl _, Nat.lt_succ_self _, ?_, Function.update_self _ _ _⟩
  rw [← hcopies.type]
  exact congrArg Item.type (Function.update_self _ _ _)

/-- **Cloning** a live item ends, with a copy that is live. -/
theorem itemClone_ends (depth : ℕ) (h : Inv s₀ done busy s rank) (hsrc : Live s₀ done s src)
    (hdepth : rank src < depth) :
    Ends (ClonesTo s₀ done busy s rank src) (s.xccdfItemClone depth src) := by
  induction depth generalizing s rank src with
  | zero => omega
  | succ depth ih =>
      rw [Benchmark.xccdfItemClone]
      simp only
      split_ifs with hgroup
      · have hcontainer : (s.items src).IsContainer := .inr hgroup
        have hlist : ∀ y ∈ childrenOf s.items src, Live s₀ done s y ∧ rank y < depth :=
          fun y hy => by
            obtain ⟨hlive, hrank⟩ := h.children src hsrc y hy
            exact ⟨hlive, by omega⟩
        have hclone : ∀ src s rank, Inv s₀ done busy s rank → Live s₀ done s src →
            rank src < depth → Ends (ClonesTo s₀ done busy s rank src)
              (s.xccdfItemClone depth src) := fun src s rank h hsrc hdepth => ih h hsrc hdepth
        refine Ends.bind (cloneList_ends (fun src _ => hclone src) h fun y hy =>
          hlist y (mem_childrenOf.mpr (.inr ⟨hcontainer, .inr hy⟩))) ?_
        rintro ⟨s₁, values⟩ ⟨rank₁, hinv₁, hlater₁, hvalues⟩
        refine Ends.bind (cloneList_ends (fun src _ => hclone src) hinv₁ fun y hy => ?_) ?_
        · obtain ⟨hlive, hrank⟩ :=
            hlist y (mem_childrenOf.mpr (.inr ⟨hcontainer, .inl hy⟩))
          rw [hlater₁.rank y (hlive.lt h)]
          exact ⟨hlive.mono hlater₁.next_le, hrank⟩
        · rintro ⟨s₂, content⟩ ⟨rank₂, hinv₂, hlater₂, hcontent⟩
          have hlater := hlater₁.trans hlater₂
          have hlt := hsrc.lt h
          -- the members of the copy
          have hvalues₂ : ∀ y ∈ values, ∃ src' ∈ (s.items src).values,
              Copied s rank s₂ rank₂ src' y := fun y hy => by
            obtain ⟨src', hmem, hcopy⟩ := hvalues y hy
            exact ⟨src', hmem, hcopy.later hlater₂⟩
          have hcontent₂ : ∀ y ∈ content, ∃ src' ∈ (s.items src).content,
              Copied s rank s₂ rank₂ src' y := fun y hy => by
            obtain ⟨src', hmem, hcopy⟩ := hcontent y hy
            have hlive := (hlist src' (mem_childrenOf.mpr (.inr ⟨hcontainer, .inl hmem⟩))).1
            exact ⟨src', hmem, hcopy.earlier hlater₁ (hlive.lt h)⟩
          have hlive : ∀ src' ∈ childrenOf s.items src, ∀ y, Copied s rank s₂ rank₂ src' y →
              Live s₀ done s₂ y ∧ rank₂ y < rank₂ src := fun src' hmem y hcopy => by
            rw [hcopy.rank, hlater.rank src hlt]
            exact ⟨hcopy.live h.next_le, (h.children src hsrc src' hmem).2⟩
          have hcopies : Copies (s₂.items src)
              { s.items src with content := content, values := values } := by
            rw [hlater.same src hlt]
            exact ⟨rfl, rfl, rfl⟩
          obtain ⟨hinv, hlater₃⟩ := hinv₂.alloc (hsrc.mono hlater.next_le) hcopies
            (fun y hy => by
              rcases mem_childrenOf.mp hy with ⟨hb, -⟩ | ⟨-, hy | hy⟩
              · have hboth : (s.items src).type = .benchmark := hb
                rw [hgroup] at hboth
                cases hboth
              · obtain ⟨src', hmem, hcopy⟩ := hcontent₂ y hy
                exact hlive src' (mem_childrenOf.mpr (.inr ⟨hcontainer, .inl hmem⟩)) y hcopy
              · obtain ⟨src', hmem, hcopy⟩ := hvalues₂ y hy
                exact hlive src' (mem_childrenOf.mpr (.inr ⟨hcontainer, .inr hmem⟩)) y hcopy)
            (fun _ y hy => by
              obtain ⟨src', hmem, hcopy⟩ := hcontent₂ y hy
              rw [hcopy.type]
              exact (h.typed src hsrc).content hcontainer src' hmem)
            (fun _ y hy => by
              obtain ⟨src', hmem, hcopy⟩ := hvalues₂ y hy
              rw [hcopy.type]
              exact (h.typed src hsrc).values hcontainer src' hmem)
          exact ⟨_, hinv, hlater.trans hlater₃,
            (copied_alloc s₂ rank₂ hcopies).earlier hlater hlt⟩
      · have hcopies : Copies (s.items src) (s.items src) := ⟨rfl, rfl, rfl⟩
        obtain ⟨hinv, hlater⟩ := h.alloc hsrc hcopies
          (fun y hy => h.children src hsrc y hy)
          (h.typed src hsrc).content (h.typed src hsrc).values
        exact ⟨_, hinv, hlater, copied_alloc s rank hcopies⟩

/-- Copying an item ends, or fails the assertion on its type. -/
theorem copyItem_ends (h : Inv s₀ done busy s rank) (hsrc : Live s₀ done s src)
    (hdepth : rank src < depth) :
    Ends (ClonesTo s₀ done busy s rank src) (s.xccdfResolveCopyItem depth src) := by
  rw [Benchmark.xccdfResolveCopyItem]
  cases Benchmark.inheritedPrefix (s.items src).type with
  | none => trivial
  | some pre =>
      refine Ends.bind (itemClone_ends depth h hsrc hdepth) ?_
      rintro ⟨s₁, c⟩ ⟨rank₁, hinv, hlater, hcopied⟩
      have hle := h.next_le.trans hcopied.fresh
      refine ⟨rank₁, hinv.setId hle _, ⟨hlater.next_le, fun y hy => ?_, hlater.rank⟩,
        ⟨hcopied.fresh, hcopied.lt, ?_, hcopied.rank⟩⟩
      · have hne : y ≠ c := by
          rintro rfl
          exact absurd hcopied.fresh (by omega)
        exact (s₁.items_set_of_ne _ hne).trans (hlater.same y hy)
      · rw [Benchmark.items_set_self]
        exact hcopied.type

end Keep

end OpenScap.XccdfResolution
