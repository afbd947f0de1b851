import OpenScap.RbtI32
import OpenScap.TopDownDelete

/-!
# Deletion from the tree of 32-bit keys

The loop of `rbt_i32_del` makes the pass of the top-down deletion in the tree that the
memory holds, and the end of the function takes the last node out, after its contents went
to the node to delete.

## Main results

* `delBalance_spec` — what the code does at a node is what is done in the tree;
* `delLoop_sim` — the loop of the code makes the pass in the tree;
* `rbtI32Del_run` — the deletion of the code, from a tree at rest to a tree at rest.
-/

namespace OpenScap.Rbt

open RedBlack RedBlack.ColorTree

variable {V : Type}

section Del

variable {h : Heap (RbtI32Node V)} {hist : Hist} {dvec : ℕ} {p : Path (Cell (RbtI32Node V))}
  {s e : Side} {near far : ColorTree (Cell (RbtI32Node V))} {x y z w : Cell (RbtI32Node V)}

/-- The colours after a rotation at the parent. -/
theorem delRecolor_spec {c₁ c₂ : Color} {a b : ColorTree (Cell (RbtI32Node V))}
    (hh : Holds h (plug p (join e c₂ (join e c₁ (join s .black near x far) z a) w b)))
    (h0 : hist.h0 = x.addr) (h2 : (slot p).1 = hist.h2) :
    ∃ h', delRecolor h hist (slot p).2 = some h' ∧
      Holds h' (plug (⟨s, .red, x, far⟩ :: ⟨e, .black, z, a⟩ ::
        ⟨e, .red, w, b.setColor .black⟩ :: p) near) := by
  have hs := hh.chldPtr_slot
  rw [ptr_join, h2] at hs
  have hx : Holds h (plug (⟨e, c₁, z, a⟩ :: ⟨e, c₂, w, b⟩ :: p) (join s .black near x far)) :=
    hh
  obtain ⟨h₁, e₁, hh₁⟩ := hx.setcolor .red
  rw [setColor_join] at hh₁
  have hw : Holds h₁ (plug p (join e c₂ (join e c₁ (join s .red near x far) z a) w b)) := hh₁
  obtain ⟨h₂, e₂, hh₂⟩ := hw.setcolor .red
  rw [setColor_join] at hh₂
  rw [ptr_join] at e₁ e₂
  obtain ⟨h₃, h₄, l, r, hl, e₃, hr, e₄, hh₄⟩ : ∃ h₃ h₄ : Heap (RbtI32Node V), ∃ l r,
      chldPtr h₂ w.addr .left = some l ∧ rbtNodeSetcolor h₂ l .black = some h₃ ∧
      chldPtr h₃ w.addr .right = some r ∧ rbtNodeSetcolor h₃ r .black = some h₄ ∧
      Holds h₄ (plug p (join e .red (join e .black (join s .red near x far) z a) w
        (b.setColor .black))) := by
    cases e with
    | left =>
        obtain ⟨h₃, h₄, hl, e₃, hr, e₄, hh₄⟩ := hh₂.blacken
        exact ⟨h₃, h₄, _, _, hl, e₃, hr, e₄, hh₄⟩
    | right =>
        obtain ⟨h₃, h₄, hl, e₃, hr, e₄, hh₄⟩ := hh₂.blacken
        exact ⟨h₃, h₄, _, _, hl, e₃, hr, e₄, hh₄⟩
  refine ⟨h₄, ?_, hh₄⟩
  simp only [delRecolor, hs, h0, e₁, e₂, hl, e₃, hr, e₄, Option.bind_eq_bind,
    Option.bind_some]

theorem delRotate_eq (d : Side) (h : Heap (RbtI32Node V)) (r : ℕ) :
    delRotate d h r = rotateSingle d.other h r := by
  cases d <;> rfl

/-- A red far child: the rotation at the node. -/
theorem delBalance_turn {l r : ColorTree (Cell (RbtI32Node V))}
    (hh : Holds h (plug p (join s .black near x (node .red l y r)))) (h0 : hist.h0 = x.addr)
    (h1 : slot p = (hist.h1, sideOf (dvec / 2))) (hd : sideOf dvec = s) :
    ∃ h', delBalance h hist dvec = some (h', { hist with h1 := y.addr }) ∧
      Holds h' (plug (⟨s, .red, x, (node .red l y r).child s⟩ ::
        ⟨s, .black, y, (node .red l y r).child s.other⟩ :: p) near) := by
  have hfar : Holds h (plug (⟨s.other, .black, x, near⟩ :: p) (node .red l y r)) :=
    Holds.sibling (s := s) (c := .black) (u := node .red l y r) (t := near) hh
  have hptr := hfar.chldPtr_slot
  have hcol := hfar.getcolor
  have hrot : Holds h (plug p (join s.other .black
      (join s.other .red ((node .red l y r).child s.other) y ((node .red l y r).child s)) x
      near)) := by
    rw [join_other, join_other, join_children]
    exact hh
  obtain ⟨h', h'', e₁, e₂, hh''⟩ := hrot.rotateSingle
  rw [join_other, join_other] at hh''
  have hnew := hh''.chldPtr_slot
  rw [← delRotate_eq] at e₁
  simp only [ptr_node, color_node, h1, ptr_join] at hcol e₂ hnew
  refine ⟨h'', ?_, hh''⟩
  have hptr' : chldPtr h x.addr s.other = some y.addr := hptr
  simp only [delBalance, hd, h0, hptr', hcol, e₁, e₂, hnew, Option.bind_eq_bind,
    Option.bind_some, if_true, Option.pure_def]

/-- The root has no sibling: nothing is done. -/
theorem delBalance_root (hh : Holds h (join s .black near x far)) (h0 : hist.h0 = x.addr)
    (h1 : hist.h1 = fakeAddr) (hlast : sideOf (dvec / 2) = .right) (hd : sideOf dvec = s)
    (hf : far.color = .black) : delBalance h hist dvec = some (h, hist) := by
  have hfar : Holds h (plug [⟨s.other, .black, x, near⟩] far) :=
    Holds.sibling (p := []) (s := s) (c := .black) (u := far) (t := near) hh
  have hptr := hfar.chldPtr_slot
  have hcol := hfar.getcolor
  have hs : chldPtr h fakeAddr Side.right.other = some 0 :=
    (isNode_other.mpr hh.root).chldPtr
  simp only [slot, hf] at hptr hcol
  simp only [delBalance, hd, hlast, h0, h1, hptr, hcol, hs, Option.bind_eq_bind,
    Option.bind_some, reduceCtorEq, if_false, if_true, Option.pure_def]

theorem delRotate2_eq (d : Side) : ∃ put₁ put₂ : Heap (RbtI32Node V) → ℕ → Side → Word →
    Option (Heap (RbtI32Node V)), PutSpec put₁ ∧ PutSpec put₂ ∧
      ∀ h r, delRotate2 d h r = rotateDouble put₁ put₂ d.other h r := by
  cases d with
  | left => exact ⟨_, _, putPtr_put, write_put, fun _ _ => rfl⟩
  | right => exact ⟨_, _, write_put, putPtr_put, fun _ _ => rfl⟩

/-- The colours of the children of a join, by sides of the code. -/
theorem getcolor_children {c : Color} {a b : ColorTree (Cell (RbtI32Node V))}
    (hh : Holds h (plug p (join e c a y b))) :
    ∃ l r cl cr, chldPtr h y.addr .left = some l ∧ chldPtr h y.addr .right = some r ∧
      rbtNodeGetcolor h l = some cl ∧ rbtNodeGetcolor h r = some cr ∧
      (cl = .black ∧ cr = .black ↔ a.color = .black ∧ b.color = .black) := by
  cases e with
  | left =>
      exact ⟨_, _, _, _, Holds.chldPtr hh .left, Holds.chldPtr hh .right,
        Holds.getcolor_child hh .left, Holds.getcolor_child hh .right, Iff.rfl⟩
  | right =>
      exact ⟨_, _, _, _, Holds.chldPtr hh .left, Holds.chldPtr hh .right,
        Holds.getcolor_child hh .left, Holds.getcolor_child hh .right, and_comm⟩

/-- The far child at a place. -/
theorem far_spec {c : Color} (hh : Holds h (plug p (join s c near x far))) :
    chldPtr h x.addr s.other = some (ptr far) ∧
      rbtNodeGetcolor h (ptr far) = some far.color := by
  have hfar : Holds h (plug (⟨s.other, c, x, near⟩ :: p) far) :=
    Holds.sibling (s := s) (c := c) (u := far) (t := near) hh
  exact ⟨hfar.chldPtr_slot, hfar.getcolor⟩

/-- What the code knows at a node with a sibling. -/
structure AtNode (h : Heap (RbtI32Node V)) (hist : Hist) (dvec : ℕ)
    (p : Path (Cell (RbtI32Node V))) (s e : Side) (c : Color)
    (near : ColorTree (Cell (RbtI32Node V))) (x : Cell (RbtI32Node V))
    (far : ColorTree (Cell (RbtI32Node V))) (z : Cell (RbtI32Node V))
    (sib : ColorTree (Cell (RbtI32Node V))) : Prop where
  holds : Holds h (plug (⟨e, c, z, sib⟩ :: p) (join s .black near x far))
  h0 : hist.h0 = x.addr
  h1 : hist.h1 = z.addr
  h2 : (slot p).1 = hist.h2
  dir : sideOf dvec = s
  last : sideOf (dvec / 2) = e
  far_black : far.color = .black

/-- The sibling's children are black: the colour switch. -/
theorem delBalance_switch {c : Color} {l r : ColorTree (Cell (RbtI32Node V))}
    (ha : AtNode h hist dvec p s e c near x far z (node .black l y r))
    (hl : l.color = .black) (hr : r.color = .black) :
    ∃ h', delBalance h hist dvec = some (h', hist) ∧
      Holds h' (plug (⟨s, .red, x, far⟩ :: ⟨e, .black, z, node .red l y r⟩ :: p) near) := by
  have hh := ha.holds
  obtain ⟨hptr, hcol⟩ := far_spec hh
  rw [ha.far_black] at hcol
  have hsib := hh.chldPtr_sibling
  have hy0 : y.addr ≠ 0 := hh.sibling.ne_zero (mem_addrs_plug.mpr (.inl (by simp)))
  have hcl := hh.sibling.getcolor_child .left
  have hcr := hh.sibling.getcolor_child .right
  have hpl := hh.sibling.chldPtr .left
  have hpr := hh.sibling.chldPtr .right
  obtain ⟨h₁, e₁, hh₁⟩ := hh.setcolor .red
  rw [setColor_join] at hh₁
  have hz : Holds h₁ (plug p (join e c (join s .red near x far) z (node .black l y r))) := hh₁
  obtain ⟨h₂, e₂, hh₂⟩ := hz.setcolor .black
  rw [setColor_join] at hh₂
  have hs : Holds h₂ (plug (⟨e, .black, z, node .black l y r⟩ :: p)
      (join s .red near x far)) := hh₂
  obtain ⟨h₃, e₃, hh₃⟩ := hs.sibling.setcolor .red
  have hres := hh₃.sibling
  rw [Side.other_other] at hres
  rw [ptr_join] at e₁ e₂
  simp only [ptr_node, child_left, child_right, hl, hr] at hsib hcl hcr hpl hpr e₃
  refine ⟨h₃, ?_, hres⟩
  simp only [delBalance, ha.dir, ha.last, ha.h0, ha.h1, hptr, hcol, hsib, hy0, hpl, hpr, hcl,
    hcr, e₁, e₂, e₃, Option.bind_eq_bind, Option.bind_some, reduceCtorEq, if_false, and_self,
    if_true, Option.pure_def]

/-- The sibling has a red child: what the code does is a rotation at the parent, linked to
the grandparent, and the colours. -/
theorem delBalance_rotate {c cs : Color} {inner outer : ColorTree (Cell (RbtI32Node V))}
    (ha : AtNode h hist dvec p s e c near x far z (join e cs inner y outer))
    (hred : inner.color = .red ∨ inner.color = .black ∧ outer.color = .red)
    {h₁ h₂ h₃ : Heap (RbtI32Node V)} {n : ℕ}
    (e₁ : (if inner.color = .red then delRotate2 e h z.addr else delRotate e h z.addr) =
      some (h₁, n))
    (e₂ : rbtNodeSetptr h₁ (slot p).1 (slot p).2 n = some h₂)
    (e₃ : delRecolor h₂ hist (slot p).2 = some h₃) :
    delBalance h hist dvec = some (h₃, hist) := by
  have hh := ha.holds
  obtain ⟨hptr, hcol⟩ := far_spec hh
  rw [ha.far_black] at hcol
  have hsib := hh.chldPtr_sibling
  have hys := hh.sibling
  have hy0 : y.addr ≠ 0 :=
    hys.ne_zero (mem_addrs_plug.mpr (.inl (by cases e <;> simp)))
  obtain ⟨l, r, cl, cr, hl, hr, hcl, hcr, hiff⟩ := getcolor_children hys
  obtain ⟨hout, hcout⟩ := far_spec hys
  have hin : Holds h (plug (⟨e, cs, y, outer⟩ ::
      ⟨e.other, c, z, join s .black near x far⟩ :: p) inner) := hys
  have hinp := hin.chldPtr_slot
  have hinc := hin.getcolor
  have hboth : ¬ (cl = .black ∧ cr = .black) := by
    rw [hiff]
    rintro ⟨h₁, h₂⟩
    simp [h₁, h₂] at hred
  have hz : Holds h (plug p (join e c (join s .black near x far) z
    (join e cs inner y outer))) := hh
  obtain ⟨a, hgp, hside⟩ := hz.slot_right (by cases e <;> simp)
  rw [ha.h2] at hgp e₂
  rw [ptr_join] at hside hsib
  have hinp' : chldPtr h y.addr e = some (ptr inner) := hinp
  obtain hi | ⟨hi, ho⟩ := hred
  · simp only [hi, if_true] at e₁ hinc
    simp only [delBalance, delRotateParent, ha.dir, ha.last, ha.h0, ha.h1, hptr, hcol, hsib,
      hy0, hl, hr, hcl, hcr, hboth, hgp, hside, hinp', hinc, e₁, e₂, e₃, Option.bind_eq_bind,
      Option.bind_some, reduceCtorEq, if_false, if_true, Option.pure_def]
  · simp only [hi, reduceCtorEq, if_false] at e₁ hinc
    simp only [ho] at hcout
    simp only [delBalance, delRotateParent, ha.dir, ha.last, ha.h0, ha.h1, hptr, hcol, hsib,
      hy0, hl, hr, hcl, hcr, hboth, hgp, hside, hinp', hinc, hout, hcout, e₁, e₂, e₃,
      Option.bind_eq_bind, Option.bind_some, reduceCtorEq, if_false, if_true, Option.pure_def]

/-- The sibling's inner child is red: the double rotation. -/
theorem delBalance_double {c : Color} {il ir outer : ColorTree (Cell (RbtI32Node V))}
    (ha : AtNode h hist dvec p s e c near x far z
      (join e .black (node .red il w ir) y outer)) :
    ∃ h', delBalance h hist dvec = some (h', hist) ∧
      Holds h' (plug (⟨s, .red, x, far⟩ :: ⟨e, .black, z, (node .red il w ir).child e⟩ ::
        ⟨e, .red, w, join e .black ((node .red il w ir).child e.other) y outer⟩ :: p)
        near) := by
  obtain ⟨put₁, put₂, hp₁, hp₂, hrot⟩ := delRotate2_eq (V := V) e
  have hz : Holds h (plug p (join e.other c (join e.other.other .black
      (join e.other .red ((node .red il w ir).child e.other) w ((node .red il w ir).child e))
      y outer) z (join s .black near x far))) := by
    rw [Side.other_other, join_other, join_other, join_children]
    exact ha.holds
  obtain ⟨h₁, h₂, e₁, e₂, hh₂⟩ := hz.rotateDouble hp₁ hp₂
  rw [join_other, join_other, join_other] at hh₂
  obtain ⟨h₃, e₃, hh₃⟩ := delRecolor_spec hh₂ ha.h0 ha.h2
  refine ⟨h₃, delBalance_rotate ha (.inl rfl) ?_ e₂ e₃, ?_⟩
  · simp only [color_node, if_true, hrot]
    exact e₁
  · rw [setColor_join] at hh₃
    exact hh₃

/-- Only the sibling's outer child is red: the single rotation. -/
theorem delBalance_single {c : Color} {inner ol or : ColorTree (Cell (RbtI32Node V))}
    (ha : AtNode h hist dvec p s e c near x far z
      (join e .black inner y (node .red ol w or))) (hi : inner.color = .black) :
    ∃ h', delBalance h hist dvec = some (h', hist) ∧
      Holds h' (plug (⟨s, .red, x, far⟩ :: ⟨e, .black, z, inner⟩ ::
        ⟨e, .red, y, node .black ol w or⟩ :: p) near) := by
  have hz : Holds h (plug p (join e.other c (join e.other .black (node .red ol w or) y inner)
      z (join s .black near x far))) := by
    rw [join_other, join_other]
    exact ha.holds
  obtain ⟨h₁, h₂, e₁, e₂, hh₂⟩ := hz.rotateSingle
  rw [join_other, join_other] at hh₂
  obtain ⟨h₃, e₃, hh₃⟩ := delRecolor_spec hh₂ ha.h0 ha.h2
  refine ⟨h₃, delBalance_rotate ha (.inr ⟨hi, rfl⟩) ?_ e₂ e₃, hh₃⟩
  simp only [hi, reduceCtorEq, if_false, delRotate_eq]
  exact e₁

/-- What the history says where the next node is looked for. -/
structure DelHist (hist : Hist) (dvec : ℕ) (p : Path (Cell (RbtI32Node V))) : Prop where
  next : slot p = (hist.h0, sideOf dvec)
  above : ∀ f q, p = f :: q → (slot q).1 = hist.h1

/-- The node to delete is the first one after the place, once it was met. -/
def SaveOk (found : Bool) (save : ℕ) (p : Path (Cell (RbtI32Node V))) : Prop :=
  if found then ∃ v ys, after p = v :: ys ∧ save = v.addr else save = 0

/-- **What the code does at a node** is what is done in the tree. -/
theorem delBalance_spec {k : I32} {found : Bool} {c : Color} {n : ℕ}
    {p' : Path (Cell (RbtI32Node V))}
    (inv : DeleteInv cellKey k found p (join s c near x far) n)
    (hp : Pushes p s c near x far p') (hh : Holds h (plug p (join s c near x far)))
    (h0 : hist.h0 = x.addr) (h1 : slot p = (hist.h1, sideOf (dvec / 2)))
    (h2 : ∀ f q, p = f :: q → (slot q).1 = hist.h2) (hd : sideOf dvec = s) :
    ∃ h' hist', (if c = .black ∧ near.color = .black then delBalance h hist dvec
        else some (h, hist)) = some (h', hist') ∧
      Holds h' (plug p' near) ∧ DelHist hist' dvec p' := by
  cases hp with
  | keep hno =>
      refine ⟨h, hist, if_neg ?_, hh, ⟨?_, ?_⟩⟩
      · rintro ⟨rfl, hb⟩
        simp [hb] at hno
      · rw [h0, hd]
        rfl
      · rintro f q he
        cases he
        rw [h1]
  | turn hn =>
      obtain ⟨h', e', hh'⟩ := delBalance_turn hh h0 h1 hd
      refine ⟨h', _, (if_pos ⟨rfl, hn⟩).trans e', hh', ⟨?_, ?_⟩⟩
      · rw [hd, h0]
        rfl
      · rintro f q he
        cases he
        rfl
  | root hn hf =>
      obtain ⟨ha, hl⟩ := Prod.mk.inj h1
      refine ⟨h, hist, (if_pos ⟨rfl, hn⟩).trans (delBalance_root hh h0 ha.symm hl.symm hd hf),
        hh, ⟨?_, ?_⟩⟩
      · rw [hd, h0]
        rfl
      · rintro f q he
        cases he
        exact ha
  | @switch q s e c near far l r x y z hn hf hl hr =>
      obtain ⟨ha, hlast⟩ := Prod.mk.inj h1
      obtain ⟨h', e', hh'⟩ := delBalance_switch
        ⟨hh, h0, ha.symm, h2 _ _ rfl, hd, hlast.symm, hf⟩ hl hr
      refine ⟨h', _, (if_pos ⟨rfl, hn⟩).trans e', hh', ⟨?_, ?_⟩⟩
      · rw [hd, h0]
        rfl
      · rintro f q he
        cases he
        exact ha
  | double hn hf =>
      obtain ⟨ha, hlast⟩ := Prod.mk.inj h1
      obtain ⟨h', e', hh'⟩ := delBalance_double
        ⟨hh, h0, ha.symm, h2 _ _ rfl, hd, hlast.symm, hf⟩
      refine ⟨h', _, (if_pos ⟨rfl, hn⟩).trans e', hh', ⟨?_, ?_⟩⟩
      · rw [hd, h0]
        rfl
      · rintro f q he
        cases he
        exact ha
  | single hn hf hi =>
      obtain ⟨ha, hlast⟩ := Prod.mk.inj h1
      obtain ⟨h', e', hh'⟩ := delBalance_single
        ⟨hh, h0, ha.symm, h2 _ _ rfl, hd, hlast.symm, hf⟩ hi
      refine ⟨h', _, (if_pos ⟨rfl, hn⟩).trans e', hh', ⟨?_, ?_⟩⟩
      · rw [hd, h0]
        rfl
      · rintro f q he
        cases he
        exact ha

/-- The node to delete after a step down. -/
theorem SaveOk.step {k : I32} {found : Bool} {save n : ℕ} {c : Color}
    {l r : ColorTree (Cell (RbtI32Node V))} (inv : DeleteInv cellKey k found p (node c l x r) n)
    (hs : SaveOk found save p) :
    SaveOk (found || cellKey x = k) (if k = x.entry.key then x.addr else save)
      (down (nextSide cellKey k x) c l x r :: p) := by
  by_cases hk : cellKey x = k
  · rw [nextSide_of_eq hk, if_pos (show k = x.entry.key from hk.symm)]
    simp only [hk, decide_true, Bool.or_true, SaveOk, if_true]
    exact ⟨x, _, rfl, rfl⟩
  · rw [if_neg (show ¬ k = x.entry.key from fun h => hk h.symm)]
    simp only [hk, decide_false, Bool.or_false]
    cases found with
    | false => exact hs
    | true =>
        rw [nextSide_of_gt inv.lt_of_found]
        exact hs

/-- **The loop of the code makes the pass in the tree.** -/
theorem delLoop_sim {k : I32} {found : Bool} {t : ColorTree (Cell (RbtI32Node V))}
    {n fuel save : ℕ} (inv : DeleteInv cellKey k found p t n) (hh : Holds h (plug p t))
    (hd : DelHist hist dvec p) (hs : SaveOk found save p) (hne : p ≠ [] ∨ t ≠ nil)
    (hw : t.size < fuel) :
    ∃ h' hist' save' found' f q,
      deleteLoop cellKey k fuel found p t = some (found', f :: q) ∧
      delLoop k fuel h hist dvec save = some (h', hist', save') ∧
      Holds h' (plug (f :: q) nil) ∧ hist'.h0 = f.elem.addr ∧ hist'.h1 = (slot q).1 ∧
      SaveOk found' save' (f :: q) := by
  induction fuel generalizing h hist dvec found p t n save with
  | zero => omega
  | succ fuel ih =>
      have hnext := hh.chldPtr_slot
      rw [hd.next] at hnext
      cases t with
      | nil =>
          cases p with
          | nil => simp at hne
          | cons f q =>
              refine ⟨h, hist, save, found, f, q, rfl, ?_, hh, ?_, (hd.above _ _ rfl).symm, hs⟩
              · simp only [delLoop, hnext, ptr_nil, Option.bind_eq_bind, Option.bind_some,
                  if_true, Option.pure_def]
              · exact (congrArg Prod.fst hd.next).symm
      | node c l x r =>
          have hj := join_children (nextSide cellKey k x) c l x r
          have inv' : DeleteInv cellKey k found p (join (nextSide cellKey k x) c
              ((node c l x r).child (nextSide cellKey k x)) x
              ((node c l x r).child (nextSide cellKey k x).other)) n := hj.symm ▸ inv
          have hp := exists_pushes inv'
          have hx0 : x.addr ≠ 0 := hh.ne_zero (mem_addrs_plug.mpr (.inl (by simp)))
          have hent := hh.entries x (by simp [elems_plug])
          have hcx : rbtNodeGetcolor h x.addr = some c := hh.getcolor
          have hchild := hh.chldPtr (nextSide cellKey k x)
          have hcol := hh.getcolor_child (nextSide cellKey k x)
          have hslot : slot p = ((hist.push x.addr).h1,
              sideOf (dpush dvec (nextSide cellKey k x) / 2)) := by
            rw [sideOf_dpush_half]
            exact hd.next
          obtain ⟨h₁, hist₁, e₁, hh₁, hd₁⟩ :=
            delBalance_spec inv' hp (hj.symm ▸ hh) rfl hslot hd.above (sideOf_dpush _ _)
          obtain ⟨m, inv₁⟩ := inv.step
          have hs₁ : SaveOk (found || cellKey x = k) (if k = x.entry.key then x.addr else save)
              (pushDown p (nextSide cellKey k x) c ((node c l x r).child (nextSide cellKey k x))
                x ((node c l x r).child (nextSide cellKey k x).other)) := by
            have := hs.step inv
            rw [SaveOk, hp.after]
            exact this
          have hsz := size_child_add (nextSide cellKey k x) c l x r
          obtain ⟨h', hist', save', found', f, q, hloop, hcode, hrest⟩ :=
            ih inv₁ hh₁ hd₁ hs₁ (.inl (pushDown_ne_nil _ _ _ _ _ _)) (by omega)
          refine ⟨h', hist', save', found', f, q, hloop, ?_, hrest⟩
          have hside : delSide k x.entry.key = nextSide cellKey k x := rfl
          rw [← hcode]
          simp only [delLoop, hnext, ptr_node, Option.bind_eq_bind, Option.bind_some, hx0,
            if_false, Hist.push, hent, hcx, hside, sideOf_dpush, hchild, hcol]
          rw [Hist.push] at e₁
          split at e₁
          · rename_i hb
            rw [if_pos hb, e₁]
            rfl
          · rename_i hb
            rw [if_neg hb]
            obtain ⟨rfl, rfl⟩ := Prod.mk.inj (Option.some.inj e₁)
            rfl

/-- The contents of the last node at the node to delete: a path to the same place. -/
theorem setEntry_save {f : Frame (Cell (RbtI32Node V))} {v : Cell (RbtI32Node V)}
    {ys : List (Cell (RbtI32Node V))} (hh : Holds h (plug (f :: p) nil))
    (hf : f.sibling = nil) (hafter : after (f :: p) = v :: ys) :
    ∃ p' c zs, Holds (h.setEntry v.addr f.elem.entry) (plug p' (node c nil f.elem nil)) ∧
      slot p' = slot p ∧ (∀ n, RB (plug p' nil) n ↔ RB (plug p nil) n) ∧
      (plug p' nil).elems = zs ∧
      zs.map Cell.entry = (before (f :: p)).map Cell.entry ++ ys.map Cell.entry := by
  obtain ⟨s, c, x, u⟩ := f
  obtain rfl : u = nil := hf
  cases s with
  | left =>
      obtain ⟨rfl, rfl⟩ : x = v ∧ after p = ys := by simpa using hafter
      exact ⟨p, c, _, Holds.setEntry (c := c) (l := nil) (r := nil) hh x.entry, rfl,
        fun _ => Iff.rfl, rfl, by simp [elems_plug]⟩
  | right =>
      obtain ⟨p₁, cv, u, p₂, rfl, hel⟩ := exists_left_of_after (show after p = v :: ys from hafter)
      have hv : Holds h (plug p₂ (node cv (plug p₁ (node c nil x nil)) v u)) := by
        rw [plug_cons, plug_append] at hh
        exact hh
      refine ⟨p₁ ++ ⟨.left, cv, ⟨v.addr, x.entry⟩, u⟩ :: p₂, c, _, ?_, ?_, fun n => ?_,
        hel _ _, by simp⟩
      · rw [plug_append]
        exact hv.setEntry x.entry
      · cases p₁ <;> rfl
      · simp only [plug_append, plug_cons, Frame.fill, join_left]
        refine rb_plug_congr ?_ (fun n => rb_node_elem n) p₂ n
        rfl

/-- **The last node is taken out**, with its contents at the node to delete. -/
theorem delFinish_spec {f : Frame (Cell (RbtI32Node V))} {v : Cell (RbtI32Node V)}
    {ys : List (Cell (RbtI32Node V))} (hh : Holds h (plug (f :: p) nil))
    (hf : f.sibling = nil) (hafter : after (f :: p) = v :: ys) (h0 : hist.h0 = f.elem.addr)
    (h1 : hist.h1 = (slot p).1) :
    ∃ h' t', delFinish h hist v.addr = some (h', v.entry.data) ∧ Holds h' t' ∧
      (∀ n, RB t' n ↔ RB (plug p nil) n) ∧
      t'.elems.map Cell.entry = (before (f :: p)).map Cell.entry ++ ys.map Cell.entry := by
  obtain ⟨p', c, zs, hh', hslot, hrb, hel, hzs⟩ := setEntry_save hh hf hafter
  have hmem : ∀ y, y = v ∨ y = f.elem → y ∈ (plug (f :: p) nil).elems := by
    rintro y (rfl | rfl)
    · rw [elems_plug, hafter]
      simp
    · obtain ⟨s, c, x, u⟩ := f
      cases s <;> simp [elems_plug, Frame.fill]
  have hv := hh.entries v (hmem v (.inl rfl))
  have hx := hh.entries f.elem (hmem f.elem (.inr rfl))
  obtain ⟨a, hgp, hside⟩ := hh'.slot_right (by simp)
  obtain ⟨h', hset, hrem⟩ := hh'.remove
  have hl := hh'.chldPtr .left
  have hr := hh'.chldPtr .right
  rw [hslot, ← h1] at hgp hset
  rw [hslot] at hside
  rw [ptr_node] at hside
  simp only [child_left, child_right, ptr_nil] at hl hr
  refine ⟨h'.free f.elem.addr, plug p' nil, ?_, hrem, hrb, by rw [hel, hzs]⟩
  simp only [delFinish, h0, hv, hx, hgp, hl, hr, hside, hset, Option.bind_eq_bind,
    Option.bind_some, if_true, Option.pure_def]

end Del

variable {rbt : RbtT V} {t : ColorTree (Cell (RbtI32Node V))}

/-- **The deletion of the code**: the key's element is taken out, or there is none. -/
theorem rbtI32Del_run (hr : Represents rbt t) (ht : IsRbt t) (key : I32) (n : Bool) :
    ∃ rbt' rep t', rbtI32Del rbt key n = some (rbt', rep) ∧ Represents rbt' t' ∧
      t'.color = .black ∧ (∃ m, RB t' m) ∧
      ((rep = ⟨1, none⟩ ∧ t'.elems = t.elems ∧ ∀ x ∈ t.elems, cellKey x ≠ key) ∨
        ∃ xs v ys, t.elems = xs ++ v :: ys ∧ cellKey v = key ∧
          t'.elems.map Cell.entry = xs.map Cell.entry ++ ys.map Cell.entry ∧
          rep = ⟨0, if n then some v.entry.data else none⟩) := by
  by_cases h0 : rbt.size = 0
  · have hnil : t = nil := by
      cases t with
      | nil => rfl
      | node => simp [hr.size] at h0
    subst hnil
    exact ⟨rbt, ⟨1, none⟩, nil, by rw [rbtI32Del, if_pos h0]; rfl, hr, rfl, ⟨0, .empty⟩,
      .inl ⟨rfl, rfl, by simp⟩⟩
  · have hne : t ≠ nil := by
      rintro rfl
      exact h0 hr.size
    obtain ⟨m₀, hm₀⟩ := ht.balanced
    have inv : DeleteInv cellKey key false [] t m₀ :=
      ⟨ht.ordered, .root, hm₀, fun _ => rfl, .inl rfl, by simp, by simp, by simp⟩
    have hw : t.size < rbt.size + 1 := by
      rw [hr.size]
      exact Nat.lt_succ_self _
    have hstart : DelHist ⟨fakeAddr, 0, 0, 0⟩ 1 ([] : Path (Cell (RbtI32Node V))) :=
      ⟨rfl, fun _ _ he => (by cases he)⟩
    obtain ⟨h', hist', save', found', f, q, hloop, hcode, hh', hh0, hh1, hsave⟩ :=
      delLoop_sim inv hr.enter hstart rfl (.inr hne) hw
    obtain ⟨found'', f', q', m, hloop', hend, hel⟩ := deleteLoop_spec inv (.inr hne) hw
    rw [hloop] at hloop'
    obtain ⟨rfl, rfl, rfl⟩ : found' = found'' ∧ f = f' ∧ q = q' := by simpa using hloop'
    obtain ⟨hsib, m', hrb⟩ := hend.end_nil
    have hlen : rbt.size = (plug (f :: q) nil).size := by
      rw [hr.size, ← length_elems, ← length_elems, hel, plug_nil]
    rw [plug_nil] at hel
    rw [elems_plug] at hel
    cases found' with
    | false =>
        obtain rfl : save' = 0 := hsave
        obtain ⟨rbt', hleave, hr'⟩ := leave_spec hh' hlen
        obtain ⟨m'', hm''⟩ := hend.fits.plug hend.rb hend.red_top
        refine ⟨rbt', ⟨1, none⟩, _, ?_, hr', color_setBlack _, hm''.setBlack,
          .inl ⟨rfl, ?_, ?_⟩⟩
        · simp only [rbtI32Del, h0, hcode, hleave, Option.bind_eq_bind, Option.bind_some,
            if_false, ne_eq, not_true_eq_false, Option.pure_def]
        · rw [elems_setColor, elems_plug, hel]
        · intro x hx
          rw [← hel, elems_nil, List.append_nil, List.mem_append] at hx
          obtain hx | hx := hx
          · exact ne_of_lt (hend.before_lt x hx)
          · exact ne_of_gt (hend.lt_after rfl x hx)
    | true =>
        obtain ⟨v, ys, hafter, rfl⟩ := hsave
        obtain ⟨z, ys', hz, hkey⟩ := hend.found_next rfl
        obtain ⟨rfl, rfl⟩ : v = z ∧ ys = ys' := by simpa [hafter] using hz
        obtain ⟨h'', t', hfin, hh'', hrb', hents⟩ := delFinish_spec hh' hsib hafter hh0 hh1
        have hlen' : rbt.size - 1 = t'.size := by
          have h₁ := congrArg List.length hents
          have h₂ := congrArg List.length hel
          rw [hafter] at h₂
          simp only [List.length_map, List.length_append, List.length_cons, elems_nil,
            List.length_nil, length_elems] at h₁ h₂
          rw [hr.size]
          omega
        obtain ⟨rbt', hleave, hr'⟩ := leave_spec hh'' hlen'
        have hv0 : v.addr ≠ 0 := hh'.ne_zero (List.mem_map_of_mem (by
          rw [elems_plug, hafter]
          simp))
        refine ⟨rbt', _, _, ?_, hr', color_setBlack _, ((hrb' _).mpr hrb).setBlack,
          .inr ⟨before (f :: q), v, ys, ?_, hkey, ?_, rfl⟩⟩
        · simp only [rbtI32Del, h0, hcode, hfin, hleave, hv0, Option.bind_eq_bind,
            Option.bind_some, if_false, ne_eq, not_false_eq_true, if_true, Option.pure_def]
        · rw [← hel, hafter, elems_nil, List.append_nil]
        · rw [elems_setColor, hents]

end OpenScap.Rbt
