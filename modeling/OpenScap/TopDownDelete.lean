import OpenScap.RedBlackTree

/-!
# Deletion from a red-black tree in one pass from the root down

The pass makes sure that the node it stands on is red whenever it and its next child would
both be black: then the node that is finally taken out is red, or the root, and has no
children. Redness comes from the far child, by a rotation at the node, or from the sibling,
by a colour switch or a rotation at the parent. The element to delete is met on the way
down; the pass goes on to the element right before it, which takes its place.

## Main results

* `exists_pushes` — what happens at a node, case by case;
* `Pushes.elems`, `DeleteInv.step` — the elements stay in order and the invariant holds
  after the step;
* `deleteLoop_spec` — the whole pass: it ends at a node without children, and the key's
  element is the next one after it in order, or is that node's own.
-/

namespace RedBlack

open ColorTree

variable {α : Type*}

/-- The sibling gives the node below `z` its redness: the frames above the node after the
colour switch or the rotation at the parent `z`. -/
def relax (e : Side) (z : α) : ColorTree α → Path α
  | nil => []
  | node c l y r =>
      if l.color = .black ∧ r.color = .black then [⟨e, .black, z, node .red l y r⟩]
      else
        match (node c l y r).child e with
        | node .red il w ir =>
            [⟨e, .black, z, (node .red il w ir).child e⟩,
              ⟨e, .red, w, join e .black ((node .red il w ir).child e.other) y
                ((node c l y r).child e.other)⟩]
        | inner =>
            [⟨e, .black, z, inner⟩,
              ⟨e, .red, y, ((node c l y r).child e.other).setColor .black⟩]

/-- What is done at a black node `x` before the step to its black child on the side `s`,
where `far` is the other child: the path after that step. -/
def lend (p : Path α) (s : Side) (x : α) (far : ColorTree α) : Path α :=
  match far, p with
  | node .red l y r, p =>
      ⟨s, .red, x, (node .red l y r).child s⟩ ::
        ⟨s, .black, y, (node .red l y r).child s.other⟩ :: p
  | far, ⟨e, _, z, node cs l y r⟩ :: p =>
      ⟨s, .red, x, far⟩ :: (relax e z (node cs l y r) ++ p)
  | far, p => ⟨s, .black, x, far⟩ :: p

/-- What is done at the node `join s c near x far` before the step to its side `s`, and the
path after that step. -/
def pushDown (p : Path α) (s : Side) (c : Color) (near : ColorTree α) (x : α) (far : ColorTree α) :
    Path α :=
  if c = .black ∧ near.color = .black then lend p s x far else ⟨s, c, x, far⟩ :: p

/-- What happens at a node on the way down, case by case. -/
inductive Pushes : Path α → Side → Color → ColorTree α → α → ColorTree α → Path α → Prop
  /-- The node or its next child is red: nothing is done. -/
  | keep {p : Path α} {s : Side} {c : Color} {near far : ColorTree α} {x : α}
      (h : c = .red ∨ near.color = .red) : Pushes p s c near x far (⟨s, c, x, far⟩ :: p)
  /-- The far child is red: a rotation at the node. -/
  | turn {p : Path α} {s : Side} {near : ColorTree α} {x y : α} {l r : ColorTree α}
      (h : near.color = .black) :
      Pushes p s .black near x (node .red l y r)
        (⟨s, .red, x, (node .red l y r).child s⟩ ::
          ⟨s, .black, y, (node .red l y r).child s.other⟩ :: p)
  /-- The root has no sibling. -/
  | root {s : Side} {near far : ColorTree α} {x : α} (h : near.color = .black)
      (hf : far.color = .black) : Pushes [] s .black near x far [⟨s, .black, x, far⟩]
  /-- The sibling's children are black: a colour switch. -/
  | switch {p : Path α} {s e : Side} {c : Color} {near far l r : ColorTree α} {x y z : α}
      (h : near.color = .black) (hf : far.color = .black) (hl : l.color = .black)
      (hr : r.color = .black) :
      Pushes (⟨e, c, z, node .black l y r⟩ :: p) s .black near x far
        (⟨s, .red, x, far⟩ :: ⟨e, .black, z, node .red l y r⟩ :: p)
  /-- The sibling's child on the inner side is red: a double rotation at the parent. -/
  | double {p : Path α} {s e : Side} {c : Color} {near far il ir outer : ColorTree α} {x y z w : α}
      (h : near.color = .black) (hf : far.color = .black) :
      Pushes (⟨e, c, z, join e .black (node .red il w ir) y outer⟩ :: p) s .black near x far
        (⟨s, .red, x, far⟩ :: ⟨e, .black, z, (node .red il w ir).child e⟩ ::
          ⟨e, .red, w, join e .black ((node .red il w ir).child e.other) y outer⟩ :: p)
  /-- Only its child on the outer side is: a single rotation at the parent. -/
  | single {p : Path α} {s e : Side} {c : Color} {near far inner ol or : ColorTree α} {x y z w : α}
      (h : near.color = .black) (hf : far.color = .black) (hi : inner.color = .black) :
      Pushes (⟨e, c, z, join e .black inner y (node .red ol w or)⟩ :: p) s .black near x far
        (⟨s, .red, x, far⟩ :: ⟨e, .black, z, inner⟩ ::
          ⟨e, .red, y, node .black ol w or⟩ :: p)

/-- What is done at a node keeps what is before the place. -/
theorem Pushes.before {p p' : Path α} {s : Side} {c : Color} {near far : ColorTree α} {x : α}
    (h : Pushes p s c near x far p') :
    before p' = before (⟨s, c, x, far⟩ :: p) := by
  cases h with
  | keep | root => rfl
  | turn => cases s <;> simp
  | @switch _ _ e | @double _ _ e | @single _ _ e => cases s <;> cases e <;> simp

/-- What is done at a node keeps what is after the place. -/
theorem Pushes.after {p p' : Path α} {s : Side} {c : Color} {near far : ColorTree α} {x : α}
    (h : Pushes p s c near x far p') :
    after p' = after (⟨s, c, x, far⟩ :: p) := by
  cases h with
  | keep | root => rfl
  | turn => cases s <;> simp
  | @switch _ _ e | @double _ _ e | @single _ _ e => cases s <;> cases e <;> simp

/-- **What is done at a node keeps the elements and their order.** -/
theorem Pushes.elems {p p' : Path α} {s : Side} {c : Color} {near far : ColorTree α} {x : α}
    (h : Pushes p s c near x far p') :
    (plug p' near).elems = (plug p (join s c near x far)).elems := by
  rw [elems_plug, h.before, h.after, ← elems_plug]
  rfl

section Loop

variable {κ : Type*} [LinearOrder κ] (key : α → κ) (k : κ)

/-- The side on which the pass goes on at an element: left at the key's own. -/
def nextSide (x : α) : Side :=
  if k < key x then .left else if key x < k then .right else .left

/-- The pass from the root down: whether the key was met, and the path at the end. -/
def deleteLoop : ℕ → Bool → Path α → ColorTree α → Option (Bool × Path α)
  | 0, _, _, _ => none
  | _ + 1, found, p, nil => some (found, p)
  | fuel + 1, found, p, node c l x r =>
      deleteLoop fuel (found || key x = k)
        (pushDown p (nextSide key k x) c ((node c l x r).child (nextSide key k x)) x
          ((node c l x r).child (nextSide key k x).other))
        ((node c l x r).child (nextSide key k x))

/-- Redness is at hand: the parent or the tree is red, or the parent is the root with a
black sibling, or there is none. -/
def Slack (p : Path α) (t : ColorTree α) : Prop :=
  p = [] ∨ topColor p = .red ∨ t.color = .red ∨ ∃ f, p = [f] ∧ f.sibling.color = .black

/-- The invariant of the pass. -/
structure DeleteInv (found : Bool) (p : Path α) (t : ColorTree α) (n : ℕ) : Prop where
  ordered : Ordered key (plug p t)
  fits : Fits p n
  rb : RB t n
  red_top : t.color = .red → topColor p = .black
  slack : Slack p t
  before_lt : ∀ x ∈ before p, key x < k
  lt_after : found = false → ∀ y ∈ after p, k < key y
  found_next : found = true → ∃ x ys, after p = x :: ys ∧ key x = k

variable {key k}

/-- Above a black node the parent's other child is black, and the parent may be made red. -/
theorem DeleteInv.parent {found : Bool} {f : Frame α} {p : Path α} {t : ColorTree α} {n : ℕ}
    (h : DeleteInv key k found (f :: p) t n) (hc : t.color = .black) :
    RB f.sibling n ∧ f.sibling.color = .black ∧ Fits p n ∧ topColor p = .black := by
  have hf := h.fits
  obtain ⟨s, c, z, u⟩ := f
  obtain hs | hs | hs | ⟨f', hf', hu⟩ := h.slack
  · cases hs
  · obtain rfl : c = .red := hs
    cases hf with
    | red hu hcu hp hcp => exact ⟨hu, hcu, hp, hcp⟩
  · rw [hc] at hs
    cases hs
  · cases hf'
    cases hf with
    | red hu' hcu hp hcp => exact ⟨hu', hcu, hp, hcp⟩
    | black hu' _ => exact ⟨hu', hu, .root, rfl⟩

/-- A black tree of positive black height is a node with balanced children. -/
theorem RB.exists_node {t : ColorTree α} {n : ℕ} (h : RB t (n + 1)) (hc : t.color = .black) :
    ∃ l x r, t = node .black l x r ∧ RB l n ∧ RB r n := by
  cases h with
  | red => cases hc
  | black hl hr => exact ⟨_, _, _, rfl, hl, hr⟩

/-- What balance says about a black join. -/
theorem RB.of_join_black {s : Side} {t u : ColorTree α} {x : α} {n : ℕ}
    (h : RB (join s .black t x u) n) : ∃ m, n = m + 1 ∧ RB t m ∧ RB u m := by
  cases s with
  | left =>
      obtain ⟨m, rfl, hs⟩ := RB.of_black h
      exact ⟨m, rfl, hs .left, hs .right⟩
  | right =>
      obtain ⟨m, rfl, hs⟩ := RB.of_black h
      exact ⟨m, rfl, hs .right, hs .left⟩

/-- What the sibling gives is one of three cases. -/
theorem pushes_relax {p : Path α} {s e : Side} {c : Color} {near far l r : ColorTree α}
    {x y z : α} (hn : near.color = .black) (hf : far.color = .black) :
    Pushes (⟨e, c, z, node .black l y r⟩ :: p) s .black near x far
      (⟨s, .red, x, far⟩ :: (relax e z (node .black l y r) ++ p)) := by
  by_cases hb : l.color = .black ∧ r.color = .black
  · rw [relax, if_pos hb]
    exact .switch hn hf hb.1 hb.2
  · rw [relax, if_neg hb, ← join_children e .black l y r]
    generalize hi : (node .black l y r).child e = inner
    generalize ho : (node .black l y r).child e.other = outer
    have hio : ¬ (inner.color = .black ∧ outer.color = .black) := by
      rintro ⟨h₁, h₂⟩
      subst hi ho
      cases e
      · exact hb ⟨h₁, h₂⟩
      · exact hb ⟨h₂, h₁⟩
    simp only [child_join, child_other_join]
    cases inner with
    | nil =>
        cases outer with
        | nil => exact absurd ⟨rfl, rfl⟩ hio
        | node co ol w or =>
            cases co with
            | black => exact absurd ⟨rfl, rfl⟩ hio
            | red => exact .single hn hf rfl
    | node ci il w ir =>
        cases ci with
        | red => exact .double hn hf
        | black =>
            cases outer with
            | nil => exact absurd ⟨rfl, rfl⟩ hio
            | node co ol w or =>
                cases co with
                | black => exact absurd ⟨rfl, rfl⟩ hio
                | red => exact .single hn hf rfl

/-- **What happens at a node** on the way down is one of the cases. -/
theorem exists_pushes {found : Bool} {p : Path α} {s : Side} {c : Color} {near far : ColorTree α}
    {x : α} {n : ℕ} (h : DeleteInv key k found p (join s c near x far) n) :
    Pushes p s c near x far (pushDown p s c near x far) := by
  by_cases hb : c = .black ∧ near.color = .black
  · obtain ⟨rfl, hn⟩ := hb
    rw [pushDown, if_pos ⟨rfl, hn⟩]
    cases hfar : far.color with
    | red =>
        cases far with
        | nil => cases hfar
        | node cf l y r =>
            obtain rfl : cf = .red := hfar
            exact .turn hn
    | black =>
        cases p with
        | nil =>
            have he : lend [] s x far = [⟨s, .black, x, far⟩] := by
              cases far with
              | nil => rfl
              | node cf l y r =>
                  obtain rfl : cf = .black := hfar
                  rfl
            rw [he]
            exact .root hn hfar
        | cons f p =>
            obtain ⟨m, rfl, -, -⟩ := h.rb.of_join_black
            obtain ⟨hu, hcu, -, -⟩ := h.parent (color_join _ _ _ _ _)
            obtain ⟨l, y, r, hsib, -, -⟩ := hu.exists_node hcu
            obtain ⟨e, cp, z, u⟩ := f
            obtain rfl : u = node .black l y r := hsib
            have he : lend (⟨e, cp, z, node .black l y r⟩ :: p) s x far =
                ⟨s, .red, x, far⟩ :: (relax e z (node .black l y r) ++ p) := by
              cases far with
              | nil => rfl
              | node cf fl fx fr =>
                  obtain rfl : cf = .black := hfar
                  rfl
            rw [he]
            exact pushes_relax hn hfar
  · rw [pushDown, if_neg hb]
    refine .keep ?_
    cases hc : c with
    | red => exact .inl rfl
    | black =>
        cases hn : near.color with
        | red => exact .inr rfl
        | black => exact absurd ⟨hc, hn⟩ hb

/-- **What is done at a node keeps the balance and the redness at hand.** -/
theorem Pushes.balanced {found : Bool} {p p' : Path α} {s : Side} {c : Color}
    {near far : ColorTree α} {x : α} {n : ℕ} (h : Pushes p s c near x far p')
    (inv : DeleteInv key k found p (join s c near x far) n) :
    ∃ m, Fits p' m ∧ RB near m ∧ (near.color = .red → topColor p' = .black) ∧
      Slack p' near := by
  have ht := inv.rb
  cases h with
  | keep h =>
      obtain ⟨m, hf, hn, hc⟩ := inv.fits.push ht (by simpa using inv.red_top)
      exact ⟨m, hf, hn, hc, .inr (h.imp id .inl)⟩
  | root h hf =>
      obtain ⟨m, hf', hn, hc⟩ := inv.fits.push ht (by simp)
      exact ⟨m, hf', hn, hc, .inr (.inr (.inr ⟨_, rfl, hf⟩))⟩
  | turn h =>
      obtain ⟨m, rfl, hn, hfar⟩ := ht.of_join_black
      obtain ⟨h₁, hc₁⟩ := hfar.of_red s
      obtain ⟨h₂, -⟩ := hfar.of_red s.other
      exact ⟨m, .red h₁ hc₁ (.black h₂ inv.fits) rfl, hn, by simp [h], .inr (.inl rfl)⟩
  | switch h hf hl hr =>
      obtain ⟨m, rfl, hn, hfar⟩ := ht.of_join_black
      obtain ⟨hu, -, hp, hcp⟩ := inv.parent (color_join _ _ _ _ _)
      cases hu with
      | black hl' hr' =>
          exact ⟨m, .red hfar hf (.black (.red hl' hr' hl hr) hp) rfl, hn, by simp [h],
            .inr (.inl rfl)⟩
  | @double _ _ e _ _ _ _ _ _ _ _ _ _ h hf =>
      obtain ⟨m, rfl, hn, hfar⟩ := ht.of_join_black
      obtain ⟨hu, -, hp, hcp⟩ := inv.parent (color_join _ _ _ _ _)
      obtain ⟨m', hm, hi, ho⟩ := hu.of_join_black
      obtain rfl : m = m' := by omega
      obtain ⟨h₁, -⟩ := hi.of_red e
      obtain ⟨h₂, -⟩ := hi.of_red e.other
      exact ⟨m, .red hfar hf (.black h₁ (.red (h₂.join_black ho _ _) (by simp) hp hcp)) rfl,
        hn, by simp [h], .inr (.inl rfl)⟩
  | single h hf hi =>
      obtain ⟨m, rfl, hn, hfar⟩ := ht.of_join_black
      obtain ⟨hu, -, hp, hcp⟩ := inv.parent (color_join _ _ _ _ _)
      obtain ⟨m', hm, hi', ho⟩ := hu.of_join_black
      obtain rfl : m = m' := by omega
      exact ⟨m, .red hfar hf (.black hi' (.red (ho.setBlack_of_red rfl) rfl hp hcp)) rfl, hn,
        by simp [h], .inr (.inl rfl)⟩

/-- An element below the place of an element that was met is before it. -/
theorem DeleteInv.lt_of_found {p : Path α} {c : Color} {l r : ColorTree α} {x : α} {n : ℕ}
    (h : DeleteInv key k true p (node c l x r) n) : key x < k := by
  obtain ⟨z, ys, hz, rfl⟩ := h.found_next rfl
  have ho := h.ordered
  rw [Ordered, elems_plug, hz, List.append_assoc, List.pairwise_append,
    List.pairwise_append] at ho
  exact ho.2.1.2.2 x (by simp) z (by simp)

theorem nextSide_of_lt {x : α} (h : k < key x) : nextSide key k x = .left := by
  rw [nextSide, if_pos h]

theorem nextSide_of_gt {x : α} (h : key x < k) : nextSide key k x = .right := by
  rw [nextSide, if_neg (lt_asymm h), if_pos h]

theorem nextSide_of_eq {x : α} (h : key x = k) : nextSide key k x = .left := by
  rw [nextSide, h, if_neg (lt_irrefl k), if_neg (lt_irrefl k)]

/-- **What the step down keeps of the search**: smaller keys before the place, and after it
larger ones, or the key's element first. -/
theorem DeleteInv.search {found : Bool} {p : Path α} {c : Color} {l r : ColorTree α} {x : α}
    {n : ℕ} (h : DeleteInv key k found p (node c l x r) n) :
    (∀ y ∈ before (down (nextSide key k x) c l x r :: p), key y < k) ∧
    ((found || key x = k) = false →
      ∀ y ∈ after (down (nextSide key k x) c l x r :: p), k < key y) ∧
    ((found || key x = k) = true →
      ∃ z ys, after (down (nextSide key k x) c l x r :: p) = z :: ys ∧ key z = k) := by
  obtain ⟨-, -, hlx, hxr⟩ := ordered_node.mp h.ordered.of_plug
  obtain hlt | heq | hgt := lt_trichotomy k (key x)
  · rw [nextSide_of_lt hlt]
    cases found with
    | true => exact absurd h.lt_of_found (lt_asymm hlt)
    | false =>
        refine ⟨h.before_lt, fun _ y hy => ?_, fun hf => ?_⟩
        · simp only [down, after_left, List.cons_append, List.mem_cons,
            List.mem_append] at hy
          obtain rfl | hy | hy := hy
          · exact hlt
          · exact lt_trans hlt (hxr y hy)
          · exact h.lt_after rfl y hy
        · simp [ne_of_gt hlt] at hf
  · rw [nextSide_of_eq heq.symm]
    refine ⟨h.before_lt, fun hf => ?_, fun _ => ⟨x, _, rfl, heq.symm⟩⟩
    simp [heq] at hf
  · rw [nextSide_of_gt hgt]
    refine ⟨fun y hy => ?_, fun hf => ?_, fun hf => ?_⟩
    · simp only [down, before_right, List.mem_append, List.mem_singleton] at hy
      obtain hy | hy | rfl := hy
      · exact h.before_lt y hy
      · exact lt_trans (hlx y hy) hgt
      · exact hgt
    · exact h.lt_after (by simpa [ne_of_lt hgt] using hf)
    · exact h.found_next (by simpa [ne_of_lt hgt] using hf)

/-- **The invariant holds after the step down.** -/
theorem DeleteInv.step {found : Bool} {p : Path α} {c : Color} {l r : ColorTree α} {x : α} {n : ℕ}
    (h : DeleteInv key k found p (node c l x r) n) :
    ∃ m, DeleteInv key k (found || key x = k)
      (pushDown p (nextSide key k x) c ((node c l x r).child (nextSide key k x)) x
        ((node c l x r).child (nextSide key k x).other))
      ((node c l x r).child (nextSide key k x)) m := by
  obtain ⟨hbefore, hafter, hnext⟩ := h.search
  have hj := join_children (nextSide key k x) c l x r
  have inv : DeleteInv key k found p (join (nextSide key k x) c
      ((node c l x r).child (nextSide key k x)) x
      ((node c l x r).child (nextSide key k x).other)) n := hj.symm ▸ h
  have hp := exists_pushes inv
  obtain ⟨m, hf, hn, hc, hs⟩ := hp.balanced inv
  have he := hp.elems
  rw [hj] at he
  refine ⟨m, h.ordered.congr he, hf, hn, hc, hs, ?_, ?_, ?_⟩
  · rw [hp.before]
    exact hbefore
  · rw [hp.after]
    exact hafter
  · rw [hp.after]
    exact hnext

/-- The path after a step is not empty. -/
theorem pushDown_ne_nil (p : Path α) (s : Side) (c : Color) (near : ColorTree α) (x : α)
    (far : ColorTree α) : pushDown p s c near x far ≠ [] := by
  rw [pushDown]
  split
  · rw [lend.eq_def]
    split <;> simp
  · simp

/-- **The end of the pass**: the node above the place has no other child, and may be taken
out. -/
theorem DeleteInv.end_nil {found : Bool} {f : Frame α} {p : Path α} {n : ℕ}
    (h : DeleteInv key k found (f :: p) nil n) :
    f.sibling = nil ∧ ∃ m, RB (plug p nil) m := by
  obtain rfl := rb_nil.mp h.rb
  obtain ⟨hu, hcu, -, -⟩ := h.parent rfl
  have hf := h.fits
  obtain ⟨s, c, z, u⟩ := f
  refine ⟨hu.eq_nil hcu, ?_⟩
  cases hf with
  | red _ _ hp hcp => exact hp.plug .empty (fun h => by cases h)
  | black _ hp =>
      obtain hs | hs | hs | ⟨f', hf', -⟩ := h.slack
      · cases hs
      · cases hs
      · cases hs
      · cases hf'
        exact ⟨0, .empty⟩

/-- **The whole pass**: it ends, and at its end the invariant holds at an empty place. -/
theorem deleteLoop_spec {found : Bool} {p : Path α} {t : ColorTree α} {n fuel : ℕ}
    (h : DeleteInv key k found p t n) (hne : p ≠ [] ∨ t ≠ nil) (hw : t.size < fuel) :
    ∃ found' f q m, deleteLoop key k fuel found p t = some (found', f :: q) ∧
      DeleteInv key k found' (f :: q) nil m ∧
      (plug (f :: q) nil).elems = (plug p t).elems := by
  induction fuel generalizing found p t n with
  | zero => omega
  | succ fuel ih =>
      cases t with
      | nil =>
          cases p with
          | nil => simp at hne
          | cons f q => exact ⟨found, f, q, n, rfl, h, rfl⟩
      | node c l x r =>
          obtain ⟨m, inv⟩ := h.step
          have hsz := size_child_add (nextSide key k x) c l x r
          obtain ⟨found', f, q, m', hres, hend, he⟩ :=
            ih inv (.inl (pushDown_ne_nil _ _ _ _ _ _)) (by omega)
          refine ⟨found', f, q, m', hres, hend, he.trans ?_⟩
          have hj := join_children (nextSide key k x) c l x r
          have hp := (exists_pushes (hj.symm ▸ h)).elems
          rwa [hj] at hp

end Loop

end RedBlack
