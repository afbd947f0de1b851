import OpenScap.RbtI32
import OpenScap.TopDownInsert

/-!
# Insertion into the tree of 32-bit keys

The loop of `rbt_i32_add` makes the pass of the top-down insertion in the tree that the
memory holds. The history of the last three nodes is stale after a rotation; the phases of
the pass say which part of it is right, and that no more than this part is used.

## Main results

* `redfix_spec` — the red fix at the remembered nodes is the repair of the tree;
* `addLoop_sim` — the loop of the code makes the pass in the tree;
* `rbtI32Add_run` — the insertion of the code, from a tree at rest to a tree at rest.
-/

namespace OpenScap.Rbt

open RedBlack RedBlack.ColorTree

variable {V : Type}

section Sim

variable {h : Heap (RbtI32Node V)} {hist : Hist} {dvec : ℕ} {p : Path (Cell (RbtI32Node V))}

/-- The nearest `k` of the last three words passed are as remembered. -/
structure Remembers (k : ℕ) (hist : Hist) (dvec : ℕ) (p : Path (Cell (RbtI32Node V))) :
    Prop where
  one : 1 ≤ k → slot p = (hist.h1, sideOf dvec)
  two : 2 ≤ k → ∀ f q, p = f :: q → slot q = (hist.h2, sideOf (dvec / 2))
  three : 3 ≤ k → ∀ f g q, p = f :: g :: q → slot q = (hist.h3, sideOf (dvec / 4))

theorem Remembers.mono {k k' : ℕ} (hr : Remembers k hist dvec p) (hk : k' ≤ k) :
    Remembers k' hist dvec p :=
  ⟨fun h => hr.one (by omega), fun h => hr.two (by omega), fun h => hr.three (by omega)⟩

/-- A step down is remembered. -/
theorem Remembers.push {k : ℕ} (hr : Remembers k hist dvec p)
    {x : Cell (RbtI32Node V)} (hx : hist.h0 = x.addr) (s : Side) (c : Color)
    (u : ColorTree (Cell (RbtI32Node V))) (a : ℕ) :
    Remembers (k + 1) (hist.push a) (dpush dvec s) (⟨s, c, x, u⟩ :: p) := by
  refine ⟨fun _ => ?_, fun hk f q he => ?_, fun hk f g q he => ?_⟩
  · rw [sideOf_dpush, Hist.push, hx]
    rfl
  · cases he
    rw [sideOf_dpush_half]
    exact hr.one (by omega)
  · cases he
    rw [sideOf_dpush_quarter]
    exact hr.two (by omega) _ _ rfl

/-- **The red fix** is the repair of the tree. -/
theorem redfix_spec {f g : Frame (Cell (RbtI32Node V))} {c : Color}
    {l r : ColorTree (Cell (RbtI32Node V))} {x : Cell (RbtI32Node V)}
    (hh : Holds h (plug (f :: g :: p) (node c l x r)))
    (hr : Remembers 3 hist dvec (f :: g :: p)) :
    ∃ h', rbtRedfix h hist dvec = some h' ∧
      Holds h' (plug (repair (f :: g :: p) (node c l x r)).1
        (repair (f :: g :: p) (node c l x r)).2) := by
  obtain ⟨s₁, c₁, y, u⟩ := f
  obtain ⟨s₀, c₀, z, v⟩ := g
  have h₁ := hr.one (by omega)
  have h₂ := hr.two (by omega) _ _ rfl
  have h₃ := hr.three (by omega) _ _ _ rfl
  simp only [slot, Prod.mk.injEq] at h₁ h₂
  obtain ⟨-, hs₁⟩ := h₁
  obtain ⟨hz, hs₀⟩ := h₂
  rw [repair]
  have hsingle : s₁ = s₀ → ∃ h' h'', rotateSingle s₀ h hist.h2 = some (h', y.addr) ∧
      rbtNodeSetptr h' hist.h3 (sideOf (dvec / 4)) y.addr = some h'' ∧
      Holds h'' (plug (⟨s₁, .black, y, join s₁ .red u z v⟩ :: p) (node c l x r)) := by
    rintro rfl
    have := Holds.rotateSingle (s := s₁) (a := node c l x r) (b := u) (x := z) (y := y)
      (d := v) hh
    rw [h₃, hz] at this
    exact this
  have hdouble : ∀ {put₁ put₂ : Heap (RbtI32Node V) → ℕ → Side → Word →
      Option (Heap (RbtI32Node V))}, PutSpec put₁ → PutSpec put₂ → s₁ = s₀.other →
      ∃ h' h'', rotateDouble put₁ put₂ s₀ h hist.h2 = some (h', x.addr) ∧
      rbtNodeSetptr h' hist.h3 (sideOf (dvec / 4)) x.addr = some h'' ∧
      Holds h'' (plug p (join s₀ .black (join s₀ .red u y ((node c l x r).child s₀)) x
        (join s₀ .red ((node c l x r).child s₀.other) z v))) := by
    rintro put₁ put₂ hp₁ hp₂ rfl
    rw [← join_children s₀ c l x r] at hh
    have := Holds.rotateDouble hp₁ hp₂ (s := s₀) (x := z) (y := y) (d := v) (e := u) hh
    rw [h₃, hz] at this
    exact this
  cases s₀ with
  | left =>
      rw [eq_comm, sideOf_eq_left] at hs₀
      cases s₁ with
      | left =>
          rw [eq_comm, sideOf_eq_left] at hs₁
          obtain ⟨h', h'', e, e', hh''⟩ := hsingle rfl
          refine ⟨h'', ?_, hh''⟩
          rw [rbtRedfix, if_pos (by omega), if_pos (by omega), rbtNodeRotateR, e]
          exact e'
      | right =>
          rw [eq_comm, sideOf_eq_right] at hs₁
          obtain ⟨h', h'', e, e', hh''⟩ := hdouble write_put putPtr_put rfl
          refine ⟨h'', ?_, hh''⟩
          rw [rbtRedfix, if_pos (by omega), if_neg (by omega), rbtNodeRotateRL, e]
          exact e'
  | right =>
      rw [eq_comm, sideOf_eq_right] at hs₀
      cases s₁ with
      | left =>
          rw [eq_comm, sideOf_eq_left] at hs₁
          obtain ⟨h', h'', e, e', hh''⟩ := hdouble putPtr_put write_put rfl
          refine ⟨h'', ?_, hh''⟩
          rw [rbtRedfix, if_neg (by omega), if_pos (by omega), rbtNodeRotateLR, e]
          exact e'
      | right =>
          rw [eq_comm, sideOf_eq_right] at hs₁
          obtain ⟨h', h'', e, e', hh''⟩ := hsingle rfl
          refine ⟨h'', ?_, hh''⟩
          rw [rbtRedfix, if_neg (by omega), if_neg (by omega), rbtNodeRotateL, e]
          exact e'

/-- How many words of the history a phase of the insertion relies on. -/
def depth : Phase → ℕ
  | .full => 3
  | .settled => 2
  | .turned => 1

variable {c : Color} {l r : ColorTree (Cell (RbtI32Node V))} {x : Cell (RbtI32Node V)}

/-- Where nothing is to be done, nothing is done. -/
theorem addSwitch_keep (hh : Holds h (plug p (node c l x r))) (h0 : hist.h0 = x.addr)
    (h1 : (slot p).1 = hist.h1) (hlr : l.color = .black ∨ r.color = .black)
    (hc : c = .red → topColor p = .black) : addSwitch h hist dvec = some h := by
  have hcl := hh.getcolor_child .left
  have hcr := hh.getcolor_child .right
  have hx : rbtNodeGetcolor h x.addr = some c := hh.getcolor
  have htop := hh.getcolor_slot
  rw [h1] at htop
  have hboth : ¬ (l.color = .red ∧ r.color = .red) := by
    rintro ⟨hl, hr⟩
    simp [hl, hr] at hlr
  have hno : ¬ (c = .red ∧ topColor p = .red) := by
    rintro ⟨hc', hp⟩
    simp [hc hc'] at hp
  simp only [child_left, child_right] at hcl hcr
  simp only [addSwitch, h0, hh.chldPtr .left, hh.chldPtr .right, child_left, child_right, hcl,
    hcr, hx, htop, Option.bind_eq_bind, Option.bind_some, if_neg hboth, if_neg hno,
    Option.pure_def]

/-- The colour switch, before the repair. -/
theorem addSwitch_switch (dvec : ℕ) (hh : Holds h (plug p (node .black l x r)))
    (h0 : hist.h0 = x.addr) (h1 : (slot p).1 = hist.h1) (hl : l.color = .red)
    (hr : r.color = .red) :
    ∃ h', Holds h' (plug p (node .red (l.setColor .black) x (r.setColor .black))) ∧
      addSwitch h hist dvec =
        if topColor p = .red then rbtRedfix h' hist dvec else some h' := by
  have hcl := hh.getcolor_child .left
  have hcr := hh.getcolor_child .right
  simp only [child_left, child_right] at hcl hcr
  have hhl := hh.chldPtr .left
  have hhr := hh.chldPtr .right
  obtain ⟨h₁, e₁, hh₁⟩ := hh.setcolor .red
  rw [setColor_node] at hh₁
  obtain ⟨h₂, h₃, hh₁l, e₂, hh₂r, e₃, hh₃⟩ := hh₁.blacken
  have htop := hh₃.getcolor_slot
  rw [h1] at htop
  simp only [ptr_node, child_left, child_right] at e₁ hhl hhr
  refine ⟨h₃, hh₃, ?_⟩
  simp only [addSwitch, h0, hhl, hhr, hcl, hcr, hl, hr, hh₁l, hh₂r, e₁, e₂, e₃, htop,
    Option.bind_eq_bind, Option.bind_some, and_self, if_true, Option.pure_def]

/-- **What the code does at a node** is what is done in the tree, and the rest of the
history stays right. -/
theorem addSwitch_spec {k : I32} {ph ph' : Phase} {p' : Path (Cell (RbtI32Node V))}
    {t t' : ColorTree (Cell (RbtI32Node V))} {n w : ℕ} (inv : InsertInv cellKey k ph p t n w)
    (hs : Settles ph p t ph' p' t') (hh : Holds h (plug p t)) (h0 : hist.h0 = ptr t)
    (hr : Remembers (depth ph) hist dvec p) :
    ∃ h', addSwitch h hist dvec = some h' ∧ Holds h' (plug p' t') ∧ hist.h0 = ptr t' ∧
      Remembers (depth ph' - 1) hist dvec p' := by
  have h1 : (slot p).1 = hist.h1 := by
    rw [hr.one (by cases ph <;> simp [depth])]
  cases hs with
  | keep hlr =>
      exact ⟨h, addSwitch_keep hh h0 h1 hlr inv.red_top, hh, h0, hr.mono (by simp [depth])⟩
  | pass hlr =>
      exact ⟨h, addSwitch_keep hh h0 h1 hlr inv.red_top, hh, h0, hr.mono (by simp [depth])⟩
  | turn hlr =>
      exact ⟨h, addSwitch_keep hh h0 h1 hlr inv.red_top, hh, h0, hr.mono (by simp [depth])⟩
  | switch hl hr' hp =>
      obtain ⟨h', hh', e⟩ := addSwitch_switch dvec hh h0 h1 hl hr'
      rw [hp] at e
      exact ⟨h', e, hh', h0, hr.mono (by simp [depth])⟩
  | @single s y z u v q l r x hl hr' =>
      obtain ⟨h', hh', e⟩ := addSwitch_switch dvec hh h0 h1 hl hr'
      obtain ⟨h'', e', hh''⟩ := redfix_spec hh' hr
      rw [repair, if_pos rfl] at hh''
      refine ⟨h'', e.trans e', hh'', h0, ⟨fun _ => hr.one (by simp [depth]),
        fun h => absurd h (by simp [depth]), fun h => absurd h (by simp [depth])⟩⟩
  | @double s y z u v q l r x hl hr' =>
      obtain ⟨h', hh', e⟩ := addSwitch_switch dvec hh h0 h1 hl hr'
      obtain ⟨h'', e', hh''⟩ := redfix_spec hh' hr
      rw [repair, if_neg (by cases s <;> simp)] at hh''
      refine ⟨h'', e.trans e', hh'', by rw [ptr_join]; exact h0,
        ⟨fun h => absurd h (by simp [depth]), fun h => absurd h (by simp [depth]),
          fun h => absurd h (by simp [depth])⟩⟩

/-- **The new node** is put in and the red fix done. -/
theorem addNode_spec {k : I32} {ph : Phase} {n w : ℕ} (inv : InsertInv cellKey k ph p nil n w)
    (hh : Holds h (plug p nil)) (hr : Remembers (depth ph) hist dvec p) (data : V) :
    ∃ h', addNode k data h hist dvec = some h' ∧
      Holds h' (plug (insertNew ⟨h.brk, ⟨k, data⟩⟩ p).1 (insertNew ⟨h.brk, ⟨k, data⟩⟩ p).2) := by
  obtain ⟨rfl, rfl⟩ := inv.of_nil
  have h1 := hr.one (by simp [depth])
  obtain ⟨h₁, e₁, hh₁⟩ := hh.alloc ⟨k, data⟩
  obtain ⟨h₂, e₂, hh₂⟩ := hh₁.setcolor .red
  rw [setColor_node] at hh₂
  have htop := hh₂.getcolor_slot
  simp only [h1, ptr_node] at e₁ e₂ htop
  have hstep : addNode k data h hist dvec = if topColor p = .red then
      rbtRedfix h₂ { hist with h0 := h.brk } dvec else some h₂ := by
    simp only [addNode, alloc_snd, e₁, e₂, htop, Option.bind_eq_bind, Option.bind_some,
      Option.pure_def]
  rw [hstep, insertNew]
  cases hp : topColor p with
  | black =>
      simp only [reduceCtorEq, if_false]
      exact ⟨h₂, rfl, hh₂⟩
  | red =>
      obtain ⟨f, g, q, rfl, -⟩ := inv.phase.2.2 hp
      simp only [if_true]
      exact redfix_spec hh₂ ⟨hr.one, hr.two, hr.three⟩

/-- **The loop of the code makes the pass in the tree.** -/
theorem addLoop_sim {k : I32} {ph : Phase} {t : ColorTree (Cell (RbtI32Node V))} {n w fuel : ℕ}
    (inv : InsertInv cellKey k ph p t n w) (hh : Holds h (plug p t)) (h0 : hist.h0 = ptr t)
    (hr : Remembers (depth ph) hist dvec p) (hw : w < fuel) (data : V) :
    ∃ h' b res, insertLoop cellKey k ⟨b, ⟨k, data⟩⟩ fuel p t = some res ∧
      Holds h' (plug res.2.1 res.2.2) ∧
      addLoop k data fuel h hist dvec =
        some (h', if res.1 then none else some (ptr res.2.2)) := by
  induction fuel generalizing h hist dvec ph p t n w with
  | zero => omega
  | succ fuel ih =>
      cases t with
      | nil =>
          obtain ⟨h', e, hh'⟩ := addNode_spec inv hh hr data
          refine ⟨h', h.brk, _, rfl, hh', ?_⟩
          rw [addLoop, if_pos (show hist.h0 = 0 from h0), e]
          rfl
      | node c l x r =>
          obtain ⟨ph', p', t', hs, he⟩ := exists_settles inv
          obtain ⟨c', l', x', r', rfl⟩ := hs.exists_node
          obtain ⟨h₁, e₁, hh₁, h0₁, hr₁⟩ := addSwitch_spec inv hs hh h0 hr
          have hent := hh₁.entries x' (by simp [elems_plug])
          have hne : hist.h0 ≠ 0 := by
            rw [h0₁]
            exact hh₁.ne_zero (mem_addrs_plug.mpr (.inl (by simp)))
          have hgo : ∀ s, OnSide cellKey k s x' → ∃ h' b res,
              insertLoop cellKey k ⟨b, ⟨k, data⟩⟩ fuel (down s c' l' x' r' :: p')
                ((node c' l' x' r').child s) = some res ∧
              Holds h' (plug res.2.1 res.2.2) ∧
              addLoop k data fuel h₁ (hist.push (ptr ((node c' l' x' r').child s)))
                (dpush dvec s) = some (h', if res.1 then none else some (ptr res.2.2)) := by
            intro s hside
            obtain ⟨n', w', hw', inv'⟩ := hs.descend inv hside
            refine ih inv' (hh₁.down s) rfl ((hr₁.push h0₁ s _ _ _).mono ?_) (by omega)
            cases ph' <;> simp [depth]
          have h0' : hist.h0 = x'.addr := h0₁
          have hl := hh₁.chldPtr .left
          have hr' := hh₁.chldPtr .right
          simp only [child_left, child_right] at hl hr'
          have hstep : addLoop k data (fuel + 1) h hist dvec =
              if k < cellKey x' then
                addLoop k data fuel h₁ (hist.push (ptr l')) (dpush dvec .left)
              else if cellKey x' < k then
                addLoop k data fuel h₁ (hist.push (ptr r')) (dpush dvec .right)
              else some (h₁, some x'.addr) := by
            rw [addLoop, if_neg hne, e₁]
            simp only [h0', hent, hl, hr', Option.bind_eq_bind, Option.bind_some,
              Option.pure_def]
            rfl
          simp only [hstep, insertLoop, he]
          obtain hlt | heq | hgt := lt_trichotomy k (cellKey x')
          · simpa only [if_pos hlt, child_left] using hgo .left hlt
          · refine ⟨h₁, 0, (false, p', node c' l' x' r'), ?_, hh₁, ?_⟩
            · simp only [heq, lt_irrefl, if_false]
            · simp only [heq, lt_irrefl, if_false, ptr_node, Bool.false_eq_true]
          · simpa only [if_neg (lt_asymm hgt), if_pos hgt, child_right] using hgo .right hgt

end Sim

variable {rbt : RbtT V} {t : ColorTree (Cell (RbtI32Node V))}

/-- The pass of the insertion can start at the root of a red-black search tree. -/
theorem IsRbt.insertInv (ht : IsRbt t) (k : I32) :
    ∃ n, InsertInv cellKey k .full [] t n t.size := by
  obtain ⟨n, hn⟩ := ht.balanced
  refine ⟨n, guides_nil, ht.ordered, .root, hn, fun _ => rfl, Nat.le_refl _, fun h => ?_,
    fun h => ?_⟩
  · rw [ht.black] at h
    cases h
  · cases h

/-- The history at the start of an insertion. -/
theorem remembers_start (root : ℕ) :
    Remembers 3 ⟨root, fakeAddr, 0, 0⟩ 1 ([] : Path (Cell (RbtI32Node V))) :=
  ⟨fun _ => rfl, fun _ _ _ h => (by cases h), fun _ _ _ _ h => (by cases h)⟩

/-- **The insertion of the code is the pass in the tree.** -/
theorem rbtI32Add_run (hr : Represents rbt t) (ht : IsRbt t) (key : I32) (data : V)
    (coll : Bool) :
    ∃ b res, insertLoop cellKey key ⟨b, ⟨key, data⟩⟩ (rbt.size + 1) [] t = some res ∧
      ((res.1 = true → ∃ rbt', rbtI32Add rbt key data coll = some (rbt', ⟨0, none⟩) ∧
        Represents rbt' ((plug res.2.1 res.2.2).setColor .black)) ∧
      (∀ c l x r, res.1 = false → res.2.2 = node c l x r →
        ∃ rbt', rbtI32Add rbt key data coll =
            some (rbt', if coll then ⟨0, some x.entry.data⟩ else ⟨1, none⟩) ∧
          Represents rbt' ((plug res.2.1 (node c l
            ⟨x.addr, if coll then ⟨x.entry.key, data⟩ else x.entry⟩ r)).setColor .black))) := by
  obtain ⟨n, inv⟩ := ht.insertInv key
  have hw : t.size < rbt.size + 1 := by
    rw [hr.size]
    exact Nat.lt_succ_self _
  obtain ⟨h', b, res, hloop, hh', hcode⟩ := addLoop_sim (p := []) inv hr.enter hr.root
    (remembers_start rbt.root) hw data
  obtain ⟨res', hloop', hend⟩ := insertLoop_spec inv hw (⟨b, ⟨key, data⟩⟩ : Cell _)
  obtain rfl : res' = res := Option.some.inj (hloop'.symm.trans hloop)
  refine ⟨b, res', hloop, fun hb => ?_, fun c l x r hb ht' => ?_⟩
  · obtain ⟨new, p, t'⟩ := res'
    obtain rfl : new = true := hb
    obtain ⟨-, xs, ys, hxy, -, -, hnew⟩ := hend
    have hsize : rbt.size + 1 = (plug p t').size := by
      rw [hr.size, ← length_elems, ← length_elems, hnew, show t.elems = xs ++ ys from hxy]
      simp only [List.length_append, List.length_cons]
      omega
    obtain ⟨rbt', e, hr'⟩ := leave_spec hh' hsize
    refine ⟨rbt', ?_, hr'⟩
    simp only [rbtI32Add, hcode, Option.bind_eq_bind, Option.bind_some, if_true, e,
      Option.pure_def]
  · obtain ⟨new, p, t'⟩ := res'
    obtain rfl : new = false := hb
    obtain rfl : t' = node c l x r := ht'
    obtain ⟨-, he, -⟩ := hend
    have hent : h'.entry x.addr = some x.entry := hh'.entries x (by simp [elems_plug])
    have hsize : ∀ y : Cell (RbtI32Node V), rbt.size = (plug p (node c l y r)).size := by
      intro y
      rw [hr.size, ← length_elems, ← length_elems, ← show _ = t.elems from he]
      simp [elems_plug]
    cases coll with
    | true =>
        obtain ⟨rbt', e, hr'⟩ := leave_spec (hh'.setEntry ⟨x.entry.key, data⟩) (hsize _)
        refine ⟨rbt', ?_, hr'⟩
        simp only [rbtI32Add, hcode, hent, Option.bind_eq_bind, Option.bind_some, if_true, e,
          Option.pure_def, Bool.false_eq_true, if_false, ptr_node]
    | false =>
        obtain ⟨rbt', e, hr'⟩ := leave_spec hh' (hsize _)
        refine ⟨rbt', ?_, hr'⟩
        simp only [rbtI32Add, hcode, Option.bind_eq_bind, Option.bind_some, e,
          Option.pure_def, Bool.false_eq_true, if_false]

end OpenScap.Rbt
