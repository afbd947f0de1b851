import OpenScap.RbtI32Add
import OpenScap.RbtI32Del
import OpenScap.RbtWalk
import OpenScap.RedBlackSpine
import OpenScap.SortedListing

/-!
# The tree of 32-bit keys as a finite map

Sequences of `rbt_i32_add`, `rbt_i32_del` and `rbt_i32_get` from the empty tree, next to the
same sequences on a finite map. Every operation keeps a red-black search tree and answers as
the map does. `rbt_walk_inorder` lists the map where its stack of 48 nodes is large enough,
and a balanced tree of many keys can be deeper: when the keys are inserted in descending
order, the walk of 67108862 keys needs 50 nodes.

## Main results

* `rbtStep_spec`, `rbtRun_spec` — an operation, and a whole sequence, on the tree and on the
  map;
* `rbt_finite_map_iff` — the tree is the finite map exactly when the stack is large enough;
* `descending_run`, `not_rbt_finite_map` — descending keys, and a tree that is too deep.
-/

namespace OpenScap.Rbt

open RedBlack RedBlack.ColorTree

variable {V : Type}

/-! ### Sequences of operations -/

/-- A call of an operation. -/
inductive RbtOp (V : Type)
  | add (key : I32) (data : V) (coll : Bool)
  | del (key : I32) (n : Bool)
  | get (key : I32)

/-- A call on the tree. -/
def rbtStep (rbt : RbtT V) : RbtOp V → Option (RbtT V × Reply V)
  | .add key data coll => rbtI32Add rbt key data coll
  | .del key n => rbtI32Del rbt key n
  | .get key => (rbtI32Get rbt key).map fun reply => (rbt, reply)

/-- A sequence of calls, with the replies. -/
def rbtRun : RbtT V → List (RbtOp V) → Option (RbtT V × List (Reply V))
  | rbt, [] => some (rbt, [])
  | rbt, op :: ops => do
      let (rbt, reply) ← rbtStep rbt op
      let (rbt, replies) ← rbtRun rbt ops
      return (rbt, reply :: replies)

/-! ### The finite map -/

/-- What a call does to a finite map, and the reply that it deserves. -/
def mapStep (m : I32 → Option V) : RbtOp V → (I32 → Option V) × Reply V
  | .add key data coll =>
      match m key with
      | none => (Function.update m key (some data), ⟨0, none⟩)
      | some old =>
          if coll then (Function.update m key (some data), ⟨0, some old⟩) else (m, ⟨1, none⟩)
  | .del key n =>
      match m key with
      | none => (m, ⟨1, none⟩)
      | some old => (Function.update m key none, ⟨0, if n then some old else none⟩)
  | .get key =>
      match m key with
      | none => (m, ⟨-1, none⟩)
      | some data => (m, ⟨0, some data⟩)

/-- A sequence of calls on a finite map. -/
def mapRun : (I32 → Option V) → List (RbtOp V) → (I32 → Option V) × List (Reply V)
  | m, [] => (m, [])
  | m, op :: ops =>
      ((mapRun (mapStep m op).1 ops).1, (mapStep m op).2 :: (mapRun (mapStep m op).1 ops).2)

/-- The live keys with their data, in ascending order. -/
abbrev Lists (m : I32 → Option V) (es : List (RbtI32Node V)) : Prop :=
  Listing RbtI32Node.key RbtI32Node.data m es

/-- The objects that `rbt_walk_inorder` hands to a function that returns 0, in order. -/
def walked (rbt : RbtT V) : Option (List (RbtI32Node V) × ℤ) :=
  rbtWalkInorder rbt.heap rbt.root rbt.size (fun seen e => (seen ++ [e], 0)) []

/-- **The tree is a balanced finite map** after a sequence of calls: the replies are the
map's, the tree is a red-black search tree, its size is the number of live keys, and the walk
visits each of them once in ascending order. -/
def IsFiniteMap (ops : List (RbtOp V)) : Prop :=
  ∃ rbt t es, rbtRun rbtI32New ops = some (rbt, (mapRun (fun _ => none) ops).2) ∧
    Represents rbt t ∧ IsRbt t ∧ Lists (mapRun (fun _ => none) ops).1 es ∧
    rbt.size = es.length ∧ walked rbt = some (es, 0)

/-- The stack of the walk is large enough for the tree that the calls built: no node has 48
or more left turns above it. -/
def WalkFits (ops : List (RbtOp V)) : Prop :=
  ∀ rbt replies t, rbtRun rbtI32New ops = some (rbt, replies) → Represents rbt t →
    stackNeed t ≤ walkStack

/-! ### One call -/

/-- The entries of a tree, in order. -/
def entries (t : ColorTree (Cell (RbtI32Node V))) : List (RbtI32Node V) := t.elems.map Cell.entry

/-- A tree in memory that stands for a finite map. -/
structure Stands (m : I32 → Option V) (rbt : RbtT V) (t : ColorTree (Cell (RbtI32Node V))) :
    Prop where
  represents : Represents rbt t
  black : t.color = .black
  balanced : ∃ n, RB t n
  lists : Lists m (entries t)

variable {m : I32 → Option V} {rbt : RbtT V} {t : ColorTree (Cell (RbtI32Node V))}

theorem Stands.isRbt (h : Stands m rbt t) : IsRbt t :=
  by
  have hasc := h.lists.ascending
  rw [entries, List.pairwise_map] at hasc
  exact ⟨h.black, h.balanced, hasc⟩

/-- The size is the number of live keys. -/
theorem Stands.size (h : Stands m rbt t) : rbt.size = (entries t).length := by
  rw [h.represents.size, entries, List.length_map, length_elems]

/-- The empty tree stands for the empty map. -/
theorem stands_new : Stands (fun _ => none) (rbtI32New : RbtT V) nil :=
  ⟨represents_new, rfl, ⟨0, .empty⟩, listing_nil⟩

/-- Entries whose places the order decides. -/
theorem entries_between {xs ys : List (Cell (RbtI32Node V))} {k : I32}
    (hx : ∀ x ∈ xs, cellKey x < k) (hy : ∀ y ∈ ys, k < cellKey y) :
    (∀ x ∈ xs.map Cell.entry, x.key < k) ∧ ∀ y ∈ ys.map Cell.entry, k < y.key := by
  constructor
  · rintro _ h
    obtain ⟨x, hxm, rfl⟩ := List.mem_map.mp h
    exact hx x hxm
  · rintro _ h
    obtain ⟨y, hym, rfl⟩ := List.mem_map.mp h
    exact hy y hym

/-- The call of the insertion. -/
theorem Stands.add (h : Stands m rbt t) (key : I32) (data : V) (coll : Bool) :
    ∃ rbt' t', rbtI32Add rbt key data coll = some (rbt', (mapStep m (.add key data coll)).2) ∧
      Stands (mapStep m (.add key data coll)).1 rbt' t' := by
  obtain ⟨b, res, hloop, hnew, hold⟩ := rbtI32Add_run h.represents h.isRbt key data coll
  obtain ⟨n, inv⟩ := h.isRbt.insertInv key
  have hw : t.size < rbt.size + 1 := by
    rw [h.represents.size]
    exact Nat.lt_succ_self _
  obtain ⟨res', hloop', hend⟩ := insertLoop_spec inv hw (⟨b, ⟨key, data⟩⟩ : Cell _)
  obtain rfl : res' = res := Option.some.inj (hloop'.symm.trans hloop)
  obtain ⟨isNew, p, t'⟩ := res'
  cases isNew with
  | true =>
      obtain ⟨rbt', he, hr'⟩ := hnew rfl
      obtain ⟨⟨m', hm'⟩, xs, ys, hxy, hxs, hys, hel⟩ := hend
      obtain ⟨hxs', hys'⟩ := entries_between hxs hys
      have hl : Lists m (xs.map Cell.entry ++ (none : Option (RbtI32Node V)).toList ++
          ys.map Cell.entry) := by
        have hl := h.lists
        rw [entries, show t.elems = xs ++ ys from hxy] at hl
        simpa using hl
      have hnone : m key = none := by
        refine h.lists.eq_none fun x hx => ?_
        rw [entries, show t.elems = xs ++ ys from hxy, List.map_append] at hx
        obtain hx | hx := List.mem_append.mp hx
        · exact ne_of_lt (hxs' x hx)
        · exact ne_of_gt (hys' x hx)
      have hl' := hl.splice hxs' hys' (by simp) (b := some ⟨key, data⟩) (by simp)
      refine ⟨rbt', _, ?_, hr', color_setBlack _, hm'.setBlack, ?_⟩
      · rw [he, mapStep, hnone]
      · rw [mapStep, hnone, entries, elems_setColor, hel]
        simpa using hl'
  | false =>
      obtain ⟨⟨m', hm'⟩, hel, c, l, x, r, rfl, hkey⟩ := hend
      obtain ⟨rbt', he, hr'⟩ := hold c l x r rfl rfl
      have hes : entries t = (before p ++ l.elems).map Cell.entry ++
          (some x.entry).toList ++ (r.elems ++ after p).map Cell.entry := by
        rw [entries, ← show (plug p (node c l x r)).elems = t.elems from hel, elems_plug]
        simp
      have hl := h.lists
      rw [hes] at hl
      have hsome : m key = some x.entry.data := by
        rw [← hkey]
        exact h.lists.eq_some (by rw [hes]; simp)
      have hplace := Listing.place (show Lists m ((before p ++ l.elems).map Cell.entry ++
        x.entry :: (r.elems ++ after p).map Cell.entry) by simpa using hl)
      rw [show x.entry.key = key from hkey] at hplace
      have hk : x.entry.key = key := hkey
      have hl' := hl.splice hplace.1 hplace.2 (by simpa using hk)
        (b := some ⟨x.entry.key, data⟩) (by simpa using hk)
      refine ⟨rbt', _, ?_, hr', color_setBlack _, ?_, ?_⟩
      · rw [he, mapStep, hsome]
        cases coll <;> rfl
      · have hc : ∀ y, (node c l y r).color = (node c l x r).color := fun _ => rfl
        exact RB.setBlack ((rb_plug_congr (hc _) (fun n => rb_node_elem n) p m').mpr hm')
      · rw [entries, elems_setColor, elems_plug]
        cases coll with
        | true =>
            rw [mapStep, hsome]
            simpa using hl'
        | false =>
            rw [mapStep, hsome]
            simpa using hl

/-- The call of the deletion. -/
theorem Stands.del (h : Stands m rbt t) (key : I32) (n : Bool) :
    ∃ rbt' t', rbtI32Del rbt key n = some (rbt', (mapStep m (.del key n)).2) ∧
      Stands (mapStep m (.del key n)).1 rbt' t' := by
  obtain ⟨rbt', rep, t', he, hr', hb, hrb, hcase⟩ := rbtI32Del_run h.represents h.isRbt key n
  obtain ⟨rfl, hel, habs⟩ | ⟨xs, v, ys, hel, hkey, hents, rfl⟩ := hcase
  · have hnone : m key = none := by
      refine h.lists.eq_none fun x hx => ?_
      obtain ⟨y, hy, rfl⟩ := List.mem_map.mp hx
      exact habs y hy
    refine ⟨rbt', t', ?_, hr', hb, hrb, ?_⟩
    · rw [he, mapStep, hnone]
    · rw [mapStep, hnone, entries, hel]
      exact h.lists
  · have hl := h.lists
    rw [entries, hel] at hl
    have hsome : m key = some v.entry.data := by
      rw [← hkey]
      exact hl.eq_some (by simp)
    have hplace := Listing.place (show Lists m (xs.map Cell.entry ++
      v.entry :: ys.map Cell.entry) by simpa using hl)
    rw [show v.entry.key = key from hkey] at hplace
    have hl' : Lists m (xs.map Cell.entry ++ (some v.entry).toList ++ ys.map Cell.entry) := by
      simpa using hl
    have hk : v.entry.key = key := hkey
    have hl'' := hl'.splice hplace.1 hplace.2 (by simpa using hk) (b := none) (by simp)
    refine ⟨rbt', t', ?_, hr', hb, hrb, ?_⟩
    · rw [he, mapStep, hsome]
    · rw [mapStep, hsome, entries, hents]
      simpa using hl''

/-- The call of the search. -/
theorem Stands.get (h : Stands m rbt t) (key : I32) :
    rbtI32Get rbt key = some (mapStep m (.get key)).2 ∧ (mapStep m (.get key)).1 = m := by
  have hspec := rbtI32Get_spec h.represents h.isRbt key
  rw [getReply] at hspec
  cases hf : t.elems.find? fun x => cellKey x = key with
  | none =>
      have hnone : m key = none := by
        refine h.lists.eq_none fun x hx => ?_
        obtain ⟨y, hy, rfl⟩ := List.mem_map.mp hx
        have hne := List.find?_eq_none.mp hf y hy
        rw [decide_eq_true_iff] at hne
        exact hne
      rw [hspec, hf, mapStep, hnone]
      exact ⟨rfl, rfl⟩
  | some x =>
      have hkey : cellKey x = key := by simpa using List.find?_some hf
      have hsome : m key = some x.entry.data := by
        rw [← hkey]
        exact h.lists.eq_some (List.mem_map_of_mem (List.mem_of_find?_eq_some hf))
      rw [hspec, hf, mapStep, hsome]
      exact ⟨rfl, rfl⟩

/-- **A call on the tree** is the call on the map. -/
theorem rbtStep_spec (h : Stands m rbt t) (op : RbtOp V) :
    ∃ rbt' t', rbtStep rbt op = some (rbt', (mapStep m op).2) ∧
      Stands (mapStep m op).1 rbt' t' := by
  cases op with
  | add key data coll => exact h.add key data coll
  | del key n => exact h.del key n
  | get key =>
      obtain ⟨he, hm⟩ := h.get key
      exact ⟨rbt, t, by rw [rbtStep, he, Option.map_some], by rwa [hm]⟩

/-- **A sequence of calls on the tree** is the sequence on the map. -/
theorem rbtRun_spec (h : Stands m rbt t) (ops : List (RbtOp V)) :
    ∃ rbt' t', rbtRun rbt ops = some (rbt', (mapRun m ops).2) ∧
      Stands (mapRun m ops).1 rbt' t' := by
  induction ops generalizing m rbt t with
  | nil => exact ⟨rbt, t, rfl, h⟩
  | cons op ops ih =>
      obtain ⟨rbt₁, t₁, he₁, h₁⟩ := rbtStep_spec h op
      obtain ⟨rbt₂, t₂, he₂, h₂⟩ := ih h₁
      refine ⟨rbt₂, t₂, ?_, h₂⟩
      simp only [rbtRun, he₁, he₂, Option.bind_eq_bind, Option.bind_some, Option.pure_def,
        mapRun]

/-! ### The walk -/

/-- Collecting the entries one by one. -/
theorem foldl_append_singleton {α : Type*} (xs acc : List α) :
    xs.foldl (fun seen e => seen ++ [e]) acc = acc ++ xs := by
  induction xs generalizing acc with
  | nil => simp
  | cons x xs ih => simp [ih]

/-- **The walk** lists the entries exactly when its stack is large enough. -/
theorem walked_eq (hr : Represents rbt t) :
    walked rbt = if stackNeed t ≤ walkStack then some (entries t, 0) else none := by
  rw [walked, rbtWalkInorder, hr.root, hr.size]
  by_cases hnil : t = nil
  · subst hnil
    simp [stackNeed, entries]
  · have h0 : 0 ∉ addrs t := fun h0 => by
      have := (hr.range _ h0).1
      omega
    have hp0 : ptr t ≠ 0 := fun h => h0 (h ▸ ptr_mem_addrs hnil)
    have hvisit := visit_continue (fun seen e => seen ++ [e]) walkStack t
      ([] : List (RbtI32Node V))
    rw [if_pos hp0, walkLoop_spec hr.linked hr.entries h0 hnil (by simp [walkStack]) 1,
      List.length_nil, Nat.sub_zero, hvisit, foldl_append_singleton, List.nil_append]
    by_cases hfit : stackNeed t ≤ walkStack
    · rw [if_pos hfit, if_pos hfit]
      rfl
    · rw [if_neg hfit, if_neg hfit]
      rfl

/-- Where the walk lists the map, its stack was large enough. -/
theorem IsFiniteMap.walkFits {ops : List (RbtOp V)} (h : IsFiniteMap ops) : WalkFits ops := by
  obtain ⟨rbt, t, es, hrun, -, -, -, -, hwalk⟩ := h
  intro rbt' replies t' hrun' hr'
  rw [hrun] at hrun'
  obtain ⟨rfl, -⟩ : rbt = rbt' ∧ _ = replies := by simpa using hrun'
  rw [walked_eq hr'] at hwalk
  by_contra hfit
  rw [if_neg hfit] at hwalk
  cases hwalk

/-- Everything but the walk holds after every sequence of calls, and the walk where its stack
is large enough. -/
theorem WalkFits.isFiniteMap {ops : List (RbtOp V)} (hfit : WalkFits ops) :
    IsFiniteMap ops := by
  obtain ⟨rbt, t, hrun, h⟩ := rbtRun_spec (stands_new (V := V)) ops
  refine ⟨rbt, t, entries t, hrun, h.represents, h.isRbt, h.lists, h.size, ?_⟩
  rw [walked_eq h.represents, if_pos (hfit _ _ _ hrun h.represents)]

/-- **The tree of 32-bit keys is a balanced finite map exactly when the walk's stack is large
enough.** -/
theorem rbt_finite_map_iff (ops : List (RbtOp V)) : IsFiniteMap ops ↔ WalkFits ops :=
  ⟨IsFiniteMap.walkFits, WalkFits.isFiniteMap⟩

/-- **Few keys**: with fewer than `2 ^ 25 - 1` live keys at the end, the stack is always large
enough. -/
theorem isFiniteMap_of_size {ops : List (RbtOp V)} {replies : List (Reply V)}
    (hrun : rbtRun rbtI32New ops = some (rbt, replies)) (hs : rbt.size + 1 < 2 ^ 25) :
    IsFiniteMap ops := by
  refine WalkFits.isFiniteMap fun rbt' replies' t hrun' hr' => ?_
  rw [hrun] at hrun'
  obtain ⟨rfl, -⟩ : rbt = rbt' ∧ replies = replies' := by simpa using hrun'
  obtain ⟨rbt₁, t₁, hrun₁, h⟩ := rbtRun_spec (stands_new (V := V)) ops
  rw [hrun] at hrun₁
  obtain ⟨rfl, -⟩ : rbt = rbt₁ ∧ _ := by simpa using hrun₁
  obtain ⟨n, hn⟩ := h.balanced
  have hlow := hn.two_pow_le_size
  rw [← h.represents.size] at hlow
  have hn24 : n ≤ 24 := by
    by_contra hgt
    have := Nat.pow_le_pow_right (show 0 < 2 by omega) (show 25 ≤ n by omega)
    omega
  have hneed : stackNeed t₁ ≤ walkStack := by
    have := hn.stackNeed_le.2 h.black
    rw [walkStack]
    omega
  have hwalk := walked_eq h.represents
  rw [if_pos hneed, walked_eq hr'] at hwalk
  by_contra hfit
  rw [if_neg hfit] at hwalk
  cases hwalk

/-! ### Descending keys -/

/-- The keys 0, -1, -2 and so on. -/
def descKey (i : ℕ) : I32 := ⟨-((i % 2147483648 : ℕ) : ℤ), by omega⟩

/-- The insertion of `count` descending keys, from the one of `i` on. -/
def descendingOps (i count : ℕ) : List (RbtOp Unit) :=
  (List.range' i count).map fun i => .add (descKey i) () false

theorem descKey_lt {i j : ℕ} (hij : i < j) (hj : j < 2147483648) : descKey j < descKey i := by
  show -((j % 2147483648 : ℕ) : ℤ) < -((i % 2147483648 : ℕ) : ℤ)
  omega

/-- A tree of the first `i` descending keys. -/
structure Descended (i : ℕ) (rbt : RbtT Unit) (t : ColorTree (Cell (RbtI32Node Unit))) : Prop where
  represents : Represents rbt t
  isRbt : IsRbt t
  spine : ∃ n, Spine n t
  size : t.size = i
  keys : ∀ x ∈ t.elems, ∃ j < i, cellKey x = descKey j

theorem descended_new : Descended 0 rbtI32New nil :=
  ⟨represents_new, ⟨rfl, ⟨0, .empty⟩, .nil⟩, ⟨0, .nil⟩, rfl, by simp⟩

/-- One more descending key. -/
theorem Descended.add {i : ℕ} {rbt : RbtT Unit} {t : ColorTree (Cell (RbtI32Node Unit))}
    (h : Descended i rbt t) (hi : i < 2147483648) :
    ∃ reply rbt' t', rbtI32Add rbt (descKey i) () false = some (rbt', reply) ∧
      Descended (i + 1) rbt' t' := by
  have hbelow : ∀ x ∈ t.elems, descKey i < cellKey x := by
    intro x hx
    obtain ⟨j, hj, he⟩ := h.keys x hx
    rw [he]
    exact descKey_lt hj hi
  have hw : t.size < rbt.size + 1 := by
    rw [h.represents.size]
    exact Nat.lt_succ_self _
  obtain ⟨b, res, hloop, hnew, -⟩ :=
    rbtI32Add_run h.represents h.isRbt (descKey i) () false
  -- the pass keeps the shape of the spine, and puts the key before all others
  obtain ⟨n, hn⟩ := h.spine
  obtain ⟨p, t', hloop', hn'⟩ :=
    hn.insertLoop .root hbelow hw (⟨b, ⟨descKey i, ()⟩⟩ : Cell _)
  obtain ⟨k, inv⟩ := h.isRbt.insertInv (descKey i)
  obtain ⟨res', hloop'', hend⟩ := insertLoop_spec inv hw (⟨b, ⟨descKey i, ()⟩⟩ : Cell _)
  obtain rfl : res = (true, p, t') := Option.some.inj (hloop.symm.trans hloop')
  obtain rfl : res' = (true, p, t') := Option.some.inj (hloop''.symm.trans hloop')
  obtain ⟨⟨m, hm⟩, xs, ys, hxy, hxs, -, hel⟩ := hend
  rw [plug_nil] at hxy
  have hnil : xs = [] := by
    cases xs with
    | nil => rfl
    | cons x xs =>
        have hx := hxs x List.mem_cons_self
        exact absurd (hbelow x (by rw [hxy]; simp)) (lt_asymm hx)
  rw [hnil, List.nil_append] at hel hxy
  obtain ⟨rbt', he, hr'⟩ := hnew rfl
  refine ⟨_, rbt', _, he, hr', ⟨color_setBlack _, hm.setBlack, ?_⟩, hn', ?_, ?_⟩
  · rw [Ordered, elems_setColor, hel, ← hxy]
    exact List.pairwise_cons.mpr ⟨hbelow, h.isRbt.ordered⟩
  · rw [size_setColor, ← length_elems, hel, List.length_cons, ← hxy, length_elems, h.size]
  · intro x hx
    rw [elems_setColor, hel, ← hxy] at hx
    obtain rfl | hx := List.mem_cons.mp hx
    · exact ⟨i, Nat.lt_succ_self i, rfl⟩
    · obtain ⟨j, hj, hkey⟩ := h.keys x hx
      exact ⟨j, Nat.lt_succ_of_lt hj, hkey⟩

/-- **The insertion of descending keys** builds the tree with the long spine. -/
theorem descending_run {i count : ℕ} {rbt : RbtT Unit} {t : ColorTree (Cell (RbtI32Node Unit))}
    (h : Descended i rbt t) (hi : i + count ≤ 2147483648) :
    ∃ rbt' t' replies, rbtRun rbt (descendingOps i count) = some (rbt', replies) ∧
      Descended (i + count) rbt' t' := by
  induction count generalizing i rbt t with
  | zero => exact ⟨rbt, t, [], rfl, h⟩
  | succ count ih =>
      obtain ⟨reply, rbt₁, t₁, he₁, h₁⟩ := h.add (by omega)
      obtain ⟨rbt₂, t₂, replies, he₂, h₂⟩ := ih h₁ (by omega)
      refine ⟨rbt₂, t₂, reply :: replies, ?_, ?_⟩
      · rw [descendingOps] at he₂ ⊢
        rw [List.range'_succ, List.map_cons]
        simp only [rbtRun, rbtStep, he₁, he₂, Option.bind_eq_bind, Option.bind_some,
          Option.pure_def]
      · rwa [show i + (count + 1) = i + 1 + count by omega]

/-- The walk needs 50 nodes on its stack after the insertion of 67108862 descending keys. -/
theorem not_rbt_finite_map : ¬ IsFiniteMap (descendingOps 0 67108862) := by
  intro hmap
  obtain ⟨rbt, t, replies, hrun, h⟩ :=
    descending_run descended_new (show 0 + 67108862 ≤ 2147483648 by omega)
  obtain ⟨n, hn⟩ := h.spine
  obtain ⟨hlow, hhigh⟩ := hn.size
  have hsize : t.size = 67108862 := by
    rw [h.size]
  rw [hsize] at hlow hhigh
  have hle : n ≤ 25 := by
    by_contra hgt
    have := Nat.pow_le_pow_right (show 0 < 2 by omega) (show 26 ≤ n by omega)
    omega
  have hge : 25 ≤ n := by
    by_contra hlt
    have := Nat.pow_le_pow_right (show 0 < 2 by omega) (show n ≤ 24 by omega)
    omega
  obtain rfl : n = 25 := Nat.le_antisymm hle hge
  have hneed := hn.stackNeed_ge (by omega)
  have hfit := hmap.walkFits _ _ _ hrun h.represents
  rw [walkStack] at hfit
  omega

end OpenScap.Rbt
