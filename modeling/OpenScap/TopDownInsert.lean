import OpenScap.RedBlackTree

/-!
# Insertion into a red-black tree in one pass from the root down

On the way down a black node with two red children becomes red and its children black, so
that the new node can be red at the end. Where this puts a red node under a red one, a
single or a double rotation at the grandparent repairs it at once.

A rotation changes who the ancestors of the place are. What an algorithm that remembers the
last three of them still knows is one of three phases: all of them are as remembered, the
nearest two are, or only the parent is. The phases also say why no further repair is needed
before the memory is right again: the children of a node that has just been recoloured are
black, and were red, so that they do not have two red children.

## Main results

* `exists_settles` — what happens at a node, case by case;
* `Settles.descend` — the invariant survives one step down, which uses up some of the tree;
* `insertLoop_spec` — the whole pass: it ends, the tree stays balanced, and the key's element
  is found or the new one is put where it belongs.
-/

namespace RedBlack

open ColorTree

variable {α : Type*}

/-- The rotation at the grandparent that repairs a red node `t` under a red one: a single
one when both steps down went to the same side, and else a double one. -/
def repair : Path α → ColorTree α → Path α × ColorTree α
  | f :: g :: p, node c l x r =>
      if f.side = g.side then
        (⟨f.side, .black, f.elem, join f.side .red f.sibling g.elem g.sibling⟩ :: p,
          node c l x r)
      else
        (p, join g.side .black
          (join g.side .red f.sibling f.elem ((node c l x r).child g.side)) x
          (join g.side .red ((node c l x r).child g.side.other) g.elem g.sibling))
  | p, t => (p, t)

/-- What is done at a node on the way down: the colour switch and the repair. -/
def settle (p : Path α) : ColorTree α → Path α × ColorTree α
  | nil => (p, nil)
  | node c l x r =>
      if l.color = .red ∧ r.color = .red then
        let t := node .red (l.setColor .black) x (r.setColor .black)
        if topColor p = .red then repair p t else (p, t)
      else if c = .red ∧ topColor p = .red then repair p (node c l x r)
      else (p, node c l x r)

/-- A repair keeps the elements and their order. -/
theorem elems_repair (p : Path α) (t : ColorTree α) :
    (plug (repair p t).1 (repair p t).2).elems = (plug p t).elems := by
  match p, t with
  | [], _ => rfl
  | [_], _ => rfl
  | _ :: _ :: _, nil => rfl
  | ⟨s, c, y, u⟩ :: ⟨s', c', z, v⟩ :: p, node _ _ _ _ =>
      rw [repair]
      cases s <;> cases s' <;> simp [elems_plug, Frame.fill]

/-- A single rotation keeps the balance above the place. -/
theorem Fits.single {s : Side} {y z : α} {u v : ColorTree α} {p : Path α} {n : ℕ}
    (h : Fits (⟨s, .red, y, u⟩ :: ⟨s, .black, z, v⟩ :: p) n) (hv : v.color = .black) :
    Fits (⟨s, .black, y, join s .red u z v⟩ :: p) n := by
  cases h with
  | red hu hcu hg _ =>
      cases hg with
      | black hv' hp => exact .black (hu.join_red hv' hcu hv _ _) hp

/-- A double rotation makes a balanced tree out of the place and the two nodes above. -/
theorem Fits.double {s : Side} {y z : α} {u v : ColorTree α} {p : Path α} {n : ℕ}
    (h : Fits (⟨s.other, .red, y, u⟩ :: ⟨s, .black, z, v⟩ :: p) n) (hv : v.color = .black)
    {l r : ColorTree α} {x : α} (ht : RB (node .red l x r) n) :
    Fits p (n + 1) ∧ RB (join s .black (join s .red u y ((node .red l x r).child s)) x
      (join s .red ((node .red l x r).child s.other) z v)) (n + 1) := by
  cases h with
  | red hu hcu hg _ =>
      cases hg with
      | black hv' hp =>
          obtain ⟨h₁, hc₁⟩ := ht.of_red s
          obtain ⟨h₂, hc₂⟩ := ht.of_red s.other
          exact ⟨hp, (hu.join_red h₁ hcu hc₁ _ _).join_black (h₂.join_red hv' hc₂ hv _ _) _ _⟩

/-- **A repair under a black uncle restores the balance.** -/
theorem repair_balanced {f g : Frame α} {p : Path α} {l r : ColorTree α} {x : α} {n : ℕ}
    (h : Fits (f :: g :: p) n) (hf : f.color = .red) (hv : g.sibling.color = .black)
    (ht : RB (node .red l x r) n) :
    ∃ m, RB (plug (repair (f :: g :: p) (node .red l x r)).1
      (repair (f :: g :: p) (node .red l x r)).2) m := by
  obtain ⟨s, c, y, u⟩ := f
  obtain ⟨s', c', z, v⟩ := g
  obtain rfl : c = .red := hf
  obtain rfl : c' = .black := by
    cases h with
    | red _ _ _ hcp => exact hcp
  obtain rfl | rfl := Side.eq_or_eq_other s' s
  · rw [repair, if_pos rfl]
    exact (h.single hv).plug ht (fun _ => rfl)
  · rw [repair, if_neg (by cases s' <;> simp)]
    obtain ⟨hp, ht'⟩ := h.double hv ht
    exact hp.plug ht' (by simp)

/-- The new element at an empty place, as a red node, and the repair. -/
def insertNew (new : α) (p : Path α) : Path α × ColorTree α :=
  if topColor p = .red then repair p (node .red nil new nil) else (p, node .red nil new nil)

section Loop

variable {κ : Type*} [LinearOrder κ] (key : α → κ) (k : κ)

/-- The pass from the root down: the place where it ends, and whether the new element `new`
was put there. -/
def insertLoop (new : α) : ℕ → Path α → ColorTree α → Option (Bool × Path α × ColorTree α)
  | 0, _, _ => none
  | _ + 1, p, nil => some (true, insertNew new p)
  | fuel + 1, p, node c l x r =>
      match settle p (node c l x r) with
      | (_, nil) => none
      | (p, node c l x r) =>
          if k < key x then insertLoop new fuel (down .left c l x r :: p) l
          else if key x < k then insertLoop new fuel (down .right c l x r :: p) r
          else some (false, p, node c l x r)

/-- How many of the last three ancestors are as remembered. -/
inductive Phase
  /-- All three. -/
  | full
  /-- The nearest two; the node has just lost its red colour. -/
  | settled
  /-- The nearest one; the node was turned aside by a double rotation. -/
  | turned
  deriving DecidableEq, Repr

/-- A black node without two red children: nothing is done there. -/
def Plain (t : ColorTree α) : Prop :=
  ∃ l x r, t = node .black l x r ∧ (l.color = .black ∨ r.color = .black)

/-- What a phase says about the place: where a repair can still be needed, the uncle is
black. `w` bounds the steps that are left. -/
def PhaseOk : Phase → Path α → ColorTree α → ℕ → Prop
  | .full, p, t, w => t.size ≤ w ∧
      (t.color = .red → ∃ f q, p = f :: q ∧ f.sibling.color = .black) ∧
      (topColor p = .red → ∃ f g q, p = f :: g :: q ∧ g.sibling.color = .black)
  | .settled, _, t, w => t.size ≤ w ∧ Plain t
  | .turned, _, t, w => ∃ s l x r, t = node .red l x r ∧ OnSide key k s x ∧
      Plain ((node .red l x r).child s) ∧ ((node .red l x r).child s).size + 1 ≤ w

/-- The invariant of the pass. -/
structure InsertInv (ph : Phase) (p : Path α) (t : ColorTree α) (n w : ℕ) : Prop where
  guides : Guides key k p
  ordered : Ordered key (plug p t)
  fits : Fits p n
  rb : RB t n
  red_top : t.color = .red → topColor p = .black
  phase : PhaseOk key k ph p t w

/-- What happens at a node on the way down, by phases: the place before, and the place
after. -/
inductive Settles : Phase → Path α → ColorTree α → Phase → Path α → ColorTree α → Prop
  /-- Nothing is done at a node without two red children. -/
  | keep {p : Path α} {c : Color} {l r : ColorTree α} {x : α}
      (h : l.color = .black ∨ r.color = .black) :
      Settles .full p (node c l x r) .full p (node c l x r)
  /-- Nor at one that has just been recoloured. -/
  | pass {p : Path α} {l r : ColorTree α} {x : α} (h : l.color = .black ∨ r.color = .black) :
      Settles .settled p (node .black l x r) .full p (node .black l x r)
  /-- Nor at one that was turned aside. -/
  | turn {p : Path α} {l r : ColorTree α} {x : α} (h : l.color = .black ∨ r.color = .black) :
      Settles .turned p (node .red l x r) .settled p (node .red l x r)
  /-- The colour switch under a black node. -/
  | switch {p : Path α} {l r : ColorTree α} {x : α} (hl : l.color = .red) (hr : r.color = .red)
      (hp : topColor p = .black) :
      Settles .full p (node .black l x r) .settled p
        (node .red (l.setColor .black) x (r.setColor .black))
  /-- The colour switch with a single rotation. -/
  | single {s : Side} {y z : α} {u v : ColorTree α} {p : Path α} {l r : ColorTree α} {x : α}
      (hl : l.color = .red) (hr : r.color = .red) :
      Settles .full (⟨s, .red, y, u⟩ :: ⟨s, .black, z, v⟩ :: p) (node .black l x r) .settled
        (⟨s, .black, y, join s .red u z v⟩ :: p)
        (node .red (l.setColor .black) x (r.setColor .black))
  /-- The colour switch with a double rotation. -/
  | double {s : Side} {y z : α} {u v : ColorTree α} {p : Path α} {l r : ColorTree α} {x : α}
      (hl : l.color = .red) (hr : r.color = .red) :
      Settles .full (⟨s.other, .red, y, u⟩ :: ⟨s, .black, z, v⟩ :: p) (node .black l x r)
        .turned p
        (join s .black
          (join s .red u y ((node .red (l.setColor .black) x (r.setColor .black)).child s)) x
          (join s .red ((node .red (l.setColor .black) x (r.setColor .black)).child s.other)
            z v))

variable {key k}

theorem settle_of_not_both {p : Path α} {c : Color} {l r : ColorTree α} {x : α}
    (h : l.color = .black ∨ r.color = .black) (hc : c = .red → topColor p = .black) :
    settle p (node c l x r) = (p, node c l x r) := by
  have h₁ : ¬ (l.color = .red ∧ r.color = .red) := by
    rintro ⟨hl, hr⟩
    rw [hl, hr] at h
    simp at h
  have h₂ : ¬ (c = .red ∧ topColor p = .red) := by
    rintro ⟨hc', hp⟩
    rw [hc hc'] at hp
    cases hp
  rw [settle, if_neg h₁, if_neg h₂]

theorem settle_of_both {p : Path α} {c : Color} {l r : ColorTree α} {x : α} (hl : l.color = .red)
    (hr : r.color = .red) :
    settle p (node c l x r) =
      if topColor p = .red then repair p (node .red (l.setColor .black) x (r.setColor .black))
      else (p, node .red (l.setColor .black) x (r.setColor .black)) := by
  rw [settle, if_pos ⟨hl, hr⟩]

/-- Two colours that are not both red. -/
theorem not_both_red {c d : Color} (h : ¬ (c = .red ∧ d = .red)) : c = .black ∨ d = .black := by
  cases c <;> cases d <;> simp_all

/-- **What happens at a node** on the way down is one of the cases. -/
theorem exists_settles {ph : Phase} {p : Path α} {c : Color} {l r : ColorTree α} {x : α} {n w : ℕ}
    (h : InsertInv key k ph p (node c l x r) n w) :
    ∃ ph' p' t', Settles ph p (node c l x r) ph' p' t' ∧ settle p (node c l x r) = (p', t') := by
  by_cases hb : l.color = .red ∧ r.color = .red
  · obtain ⟨hl, hr⟩ := hb
    have hc : c = .black := by
      cases c with
      | black => rfl
      | red => exact absurd hl (by rw [show l.color = .black from (h.rb.of_red .left).2]; simp)
    subst hc
    rw [settle_of_both hl hr]
    cases ph with
    | full =>
        cases hp : topColor p with
        | black => exact ⟨_, _, _, .switch hl hr hp, by simp⟩
        | red =>
            obtain ⟨f, g, q, rfl, -⟩ := h.phase.2.2 hp
            obtain ⟨s, cf, y, u⟩ := f
            obtain ⟨s', cg, z, v⟩ := g
            obtain rfl : cf = .red := hp
            obtain rfl : cg = .black := by
              cases h.fits with
              | red _ _ _ hcp => exact hcp
            rw [if_pos rfl]
            obtain rfl | rfl := Side.eq_or_eq_other s' s
            · exact ⟨_, _, _, .single hl hr, by simp [repair]⟩
            · refine ⟨_, _, _, .double hl hr, ?_⟩
              cases s' <;> simp [repair]
    | settled =>
        obtain ⟨-, l', x', r', he, hlr⟩ := h.phase
        simp only [node.injEq, true_and] at he
        obtain ⟨rfl, rfl, rfl⟩ := he
        simp [hl, hr] at hlr
    | turned =>
        obtain ⟨s, l', x', r', he, -⟩ := h.phase
        simp at he
  · have hlr := not_both_red hb
    rw [settle_of_not_both hlr (show c = .red → topColor p = .black from h.red_top)]
    cases ph with
    | full => exact ⟨_, _, _, .keep hlr, rfl⟩
    | settled =>
        obtain ⟨-, l', x', r', he, hlr⟩ := h.phase
        rw [he]
        exact ⟨_, _, _, .pass hlr, rfl⟩
    | turned =>
        obtain ⟨s, l', x', r', he, -⟩ := h.phase
        rw [he]
        simp only [node.injEq] at he
        obtain ⟨-, rfl, rfl, rfl⟩ := he
        exact ⟨_, _, _, .turn hlr, rfl⟩

/-- What is done at a node keeps the elements and their order. -/
theorem Settles.elems {ph ph' : Phase} {p p' : Path α} {t t' : ColorTree α}
    (h : Settles ph p t ph' p' t') : (plug p' t').elems = (plug p t).elems := by
  cases h with
  | keep | pass | turn => rfl
  | switch => simp [elems_plug]
  | @single s => cases s <;> simp [elems_plug, Frame.fill]
  | @double s => cases s <;> simp [elems_plug, Frame.fill]

/-- The place after it is a node. -/
theorem Settles.exists_node {ph ph' : Phase} {p p' : Path α} {t t' : ColorTree α}
    (h : Settles ph p t ph' p' t') : ∃ c l x r, t' = node c l x r := by
  cases h with
  | @double s => cases s <;> exact ⟨_, _, _, _, rfl⟩
  | _ => exact ⟨_, _, _, _, rfl⟩

/-- The recoloured child of a recoloured node is plain. -/
theorem plain_setBlack {t : ColorTree α} {n : ℕ} (h : RB t n) (hc : t.color = .red) :
    Plain (t.setColor .black) := by
  cases h with
  | empty => simp at hc
  | red hl hr hcl hcr => exact ⟨_, _, _, rfl, .inl hcl⟩
  | black => simp at hc

/-- The colour switch keeps the balance. -/
theorem RB.switch {l r : ColorTree α} {x : α} {n : ℕ} (h : RB (node .black l x r) n)
    (hl : l.color = .red) (hr : r.color = .red) :
    RB (node .red (l.setColor .black) x (r.setColor .black)) n := by
  obtain ⟨m, rfl, hs⟩ := h.of_black
  refine .red ((hs .left).setBlack_of_red hl) ((hs .right).setBlack_of_red hr) ?_ ?_
  · cases l <;> rfl
  · cases r <;> rfl

/-- **What is done at a node keeps the balance**: the tree fits its new place. -/
theorem Settles.balanced {ph ph' : Phase} {p p' : Path α} {t t' : ColorTree α} {n w : ℕ}
    (h : Settles ph p t ph' p' t') (inv : InsertInv key k ph p t n w) :
    ∃ m, Fits p' m ∧ RB t' m ∧ (t'.color = .red → topColor p' = .black) := by
  have hf := inv.fits
  have ht := inv.rb
  cases h with
  | keep | pass | turn => exact ⟨n, hf, ht, inv.red_top⟩
  | switch hl hr hp => exact ⟨n, hf, ht.switch hl hr, fun _ => hp⟩
  | single hl hr =>
      obtain ⟨f, g, q, he, hv⟩ := inv.phase.2.2 rfl
      obtain ⟨rfl, rfl, rfl⟩ := he
      exact ⟨n, hf.single hv, ht.switch hl hr, fun _ => rfl⟩
  | double hl hr =>
      obtain ⟨f, g, q, he, hv⟩ := inv.phase.2.2 rfl
      obtain ⟨rfl, rfl, rfl⟩ := he
      obtain ⟨hq, ht'⟩ := hf.double hv (ht.switch hl hr)
      exact ⟨n + 1, hq, ht', by simp⟩

/-- What is done at a node does not lead away from where the key belongs. -/
theorem Settles.guides {ph ph' : Phase} {p p' : Path α} {t t' : ColorTree α}
    (h : Settles ph p t ph' p' t') (hg : Guides key k p) : Guides key k p' := by
  cases h with
  | keep | pass | turn | switch => exact hg
  | @single s y z u v =>
      obtain ⟨hy, hu, hg⟩ := guides_cons.mp hg
      obtain ⟨hz, hv, hp⟩ := guides_cons.mp hg
      refine guides_cons.mpr ⟨hy, fun e he => ?_, hp⟩
      have he' : e ∈ u.elems ∨ e = z ∨ e ∈ v.elems := by
        cases s
        · simpa using he
        · simpa [or_comm, or_assoc, or_left_comm] using he
      obtain he | rfl | he := he'
      · exact hu e he
      · exact hz
      · exact hv e he
  | double => exact (guides_cons.mp (guides_cons.mp hg).2.2).2.2

/-- A node that was turned aside. -/
theorem phaseOk_turned {s : Side} {t u : ColorTree α} {y : α} {p : Path α} {w : ℕ}
    (hs : OnSide key k s y) (ht : Plain t) (hw : t.size + 1 ≤ w) :
    PhaseOk key k .turned p (join s .red t y u) w := by
  cases s
  · exact ⟨.left, _, _, _, rfl, hs, ht, hw⟩
  · exact ⟨.right, _, _, _, rfl, hs, ht, hw⟩

/-- The children of a node whose colours were switched are plain and smaller. -/
theorem plain_child_switch {l r : ColorTree α} {x : α} {n : ℕ} (h : RB (node .black l x r) n)
    (hl : l.color = .red) (hr : r.color = .red) (s : Side) :
    Plain ((node .red (l.setColor .black) x (r.setColor .black)).child s) ∧
      ((node .red (l.setColor .black) x (r.setColor .black)).child s).size + 1 <
        (node .black l x r).size := by
  obtain ⟨m, -, hs⟩ := h.of_black
  have hsl : 0 < l.size := by
    cases l with
    | nil => simp at hl
    | node => simp
  have hsr : 0 < r.size := by
    cases r with
    | nil => simp at hr
    | node => simp
  cases s
  · refine ⟨plain_setBlack (hs .left) hl, ?_⟩
    simp only [child_left, size_setColor, size_node]
    omega
  · refine ⟨plain_setBlack (hs .right) hr, ?_⟩
    simp only [child_right, size_setColor, size_node]
    omega

/-- The sibling of a red child is black where not both are red. -/
theorem sibling_black {c : Color} {l r : ColorTree α} {x : α}
    (h : l.color = .black ∨ r.color = .black) {s : Side}
    (hs : ((node c l x r).child s).color = .red) :
    ((node c l x r).child s.other).color = .black := by
  cases s
  · exact h.resolve_left (by simp [show l.color = .red from hs])
  · exact h.resolve_right (by simp [show r.color = .red from hs])

/-- **The phase after a step down.** -/
theorem Settles.phase {ph ph' : Phase} {p p' : Path α} {t t' : ColorTree α} {c : Color}
    {l r : ColorTree α} {x : α} {n w : ℕ} (h : Settles ph p t ph' p' t')
    (inv : InsertInv key k ph p t n w) (he : t' = node c l x r) {s : Side}
    (hs : OnSide key k s x) :
    ∃ w' < w, PhaseOk key k ph' (down s c l x r :: p') ((node c l x r).child s) w' := by
  have hph := inv.phase
  have hrb := inv.rb
  cases h with
  | keep h =>
      cases he
      obtain ⟨hw, hred, -⟩ := hph
      have hsz := size_child_add s c l x r
      refine ⟨((node c l x r).child s).size, by omega, Nat.le_refl _,
        fun hu => ⟨_, _, rfl, sibling_black h hu⟩, fun hc => ?_⟩
      obtain ⟨f, q, rfl, hf⟩ := hred hc
      exact ⟨_, _, _, rfl, hf⟩
  | pass h =>
      cases he
      obtain ⟨hw, -⟩ := hph
      have hsz := size_child_add s .black l x r
      exact ⟨((node .black l x r).child s).size, by omega, Nat.le_refl _,
        fun hu => ⟨_, _, rfl, sibling_black h hu⟩, fun hc => by cases hc⟩
  | turn =>
      cases he
      obtain ⟨s', l', x', r', he, hs', hpl, hw⟩ := hph
      cases he
      obtain rfl := hs.unique hs'
      exact ⟨((node .red l x r).child s).size, by omega, Nat.le_refl _, hpl⟩
  | switch hl hr | single hl hr =>
      cases he
      obtain ⟨hw, -⟩ := hph
      obtain ⟨hpl, hsz⟩ := plain_child_switch hrb hl hr s
      refine ⟨_, ?_, Nat.le_refl _, hpl⟩
      omega
  | @double s' y z u v q l₀ r₀ x₀ hl hr =>
      obtain ⟨hw, -⟩ := hph
      obtain ⟨hy, -, hg⟩ := guides_cons.mp inv.guides
      obtain ⟨hz, -, -⟩ := guides_cons.mp hg
      rw [← he]
      obtain rfl | rfl := Side.eq_or_eq_other s' s
      · obtain ⟨hpl, hsz⟩ := plain_child_switch hrb hl hr s
        rw [child_join, ← join_other]
        refine ⟨_, ?_, phaseOk_turned hy hpl (Nat.le_refl _)⟩
        omega
      · obtain ⟨hpl, hsz⟩ := plain_child_switch hrb hl hr s'.other
        rw [child_other_join]
        refine ⟨_, ?_, phaseOk_turned hz hpl (Nat.le_refl _)⟩
        omega

/-- **The invariant survives one step down.** -/
theorem Settles.descend {ph ph' : Phase} {p p' : Path α} {t : ColorTree α} {c : Color}
    {l r : ColorTree α} {x : α} {n w : ℕ} (h : Settles ph p t ph' p' (node c l x r))
    (inv : InsertInv key k ph p t n w) {s : Side} (hs : OnSide key k s x) :
    ∃ n' w', w' < w ∧
      InsertInv key k ph' (down s c l x r :: p') ((node c l x r).child s) n' w' := by
  obtain ⟨m, hf, ht, hc⟩ := h.balanced inv
  obtain ⟨n', hf', ht', hc'⟩ := hf.down ht hc s
  obtain ⟨w', hw', hph⟩ := h.phase inv rfl hs
  have ho : Ordered key (plug p' (node c l x r)) := inv.ordered.congr h.elems
  exact ⟨n', w', hw', (h.guides inv.guides).down ho.of_plug hs, by rwa [plug_down], hf', ht',
    hc', hph⟩

/-- Only where all ancestors are as remembered can the place be empty. -/
theorem InsertInv.of_nil {ph : Phase} {p : Path α} {n w : ℕ}
    (h : InsertInv key k ph p nil n w) : ph = .full ∧ n = 0 := by
  refine ⟨?_, rb_nil.mp h.rb⟩
  cases ph with
  | full => rfl
  | settled =>
      obtain ⟨-, l, x, r, he, -⟩ := h.phase
      cases he
  | turned =>
      obtain ⟨s, l, x, r, he, -⟩ := h.phase
      cases he

/-- What the pass ends with, from a tree with the elements `es`: the new element where it
belongs, or the key's element. -/
def InsertEnd (key : α → κ) (k : κ) (new : α) (es : List α) : Bool × Path α × ColorTree α → Prop
  | (true, p, t) =>
      (∃ m, RB (plug p t) m) ∧ ∃ xs ys, es = xs ++ ys ∧
        (∀ x ∈ xs, key x < k) ∧ (∀ y ∈ ys, k < key y) ∧ (plug p t).elems = xs ++ new :: ys
  | (false, p, t) =>
      (∃ m, RB (plug p t) m) ∧ (plug p t).elems = es ∧
        ∃ c l x r, t = node c l x r ∧ key x = k

/-- The end of the pass at an empty place. -/
theorem InsertInv.end_nil {ph : Phase} {p : Path α} {n w : ℕ}
    (h : InsertInv key k ph p nil n w) (new : α) :
    InsertEnd key k new (plug p nil).elems (true, insertNew new p) := by
  obtain ⟨rfl, rfl⟩ := h.of_nil
  rw [insertNew]
  have ht : RB (node .red nil new nil) 0 := .red .empty .empty rfl rfl
  have he : (plug p (node .red nil new nil)).elems = before p ++ new :: after p := by
    simp [elems_plug]
  have he₀ : (plug p nil).elems = before p ++ after p := by
    simp [elems_plug]
  cases hp : topColor p with
  | black =>
      simp only [reduceCtorEq, if_false]
      exact ⟨h.fits.plug ht (fun _ => hp), _, _, he₀, h.guides.before_lt, h.guides.lt_after, he⟩
  | red =>
      obtain ⟨f, g, q, rfl, hv⟩ := h.phase.2.2 hp
      simp only [if_true]
      exact ⟨repair_balanced h.fits hp hv ht, _, _, he₀, h.guides.before_lt,
        h.guides.lt_after, (elems_repair _ _).trans he⟩

/-- **The whole pass**: it ends, the tree stays balanced, and the key's element is found or
the new one is put where it belongs. -/
theorem insertLoop_spec {ph : Phase} {p : Path α} {t : ColorTree α} {n w fuel : ℕ}
    (h : InsertInv key k ph p t n w) (hw : w < fuel) (new : α) :
    ∃ res, insertLoop key k new fuel p t = some res ∧ InsertEnd key k new (plug p t).elems res := by
  induction fuel generalizing ph p t n w with
  | zero => omega
  | succ fuel ih =>
      cases t with
      | nil => exact ⟨_, rfl, h.end_nil new⟩
      | node c l x r =>
          obtain ⟨ph', p', t', hs, he⟩ := exists_settles h
          obtain ⟨c', l', x', r', rfl⟩ := hs.exists_node
          have hgo : ∀ s, OnSide key k s x' → ∃ res,
              insertLoop key k new fuel (down s c' l' x' r' :: p')
                ((node c' l' x' r').child s) = some res ∧
              InsertEnd key k new (plug p (node c l x r)).elems res := by
            intro s hside
            obtain ⟨n', w', hw', inv⟩ := hs.descend h hside
            obtain ⟨res, hres, hend⟩ := ih inv (by omega)
            rw [plug_down, hs.elems] at hend
            exact ⟨res, hres, hend⟩
          rw [insertLoop, he]
          obtain hlt | heq | hlt := lt_trichotomy k (key x')
          · simpa only [if_pos hlt, child_left] using hgo .left hlt
          · obtain ⟨m, hf, ht, hc⟩ := hs.balanced h
            refine ⟨(false, p', node c' l' x' r'), ?_, hf.plug ht hc, hs.elems, ?_⟩
            · simp only [heq, lt_irrefl, if_false]
            · exact ⟨_, _, _, _, rfl, heq.symm⟩
          · simpa only [if_neg (lt_asymm hlt), if_pos hlt, child_right] using hgo .right hlt

end Loop

end RedBlack
