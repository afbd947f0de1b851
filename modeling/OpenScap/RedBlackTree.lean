import Mathlib.Algebra.Order.Ring.Nat
import Mathlib.Data.List.Basic
import Mathlib.Order.Defs.LinearOrder

/-!
# Red-black trees and the paths into them

Binary trees with a colour at every node, the balance of red-black trees, and the paths by
which an algorithm that works from the root down holds its place: a list of frames, one for
each node passed, with the side that was taken, the node's colour and element and the
subtree on the other side. Plugging a tree into a path gives back the whole tree.

The two sides are one parameter wherever they mirror each other: `join s c t x u` is the
node with the subtree `t` on the side `s`.

## Main results

* `elems_plug` — the elements in order: those before the hole, the plugged tree's, those
  after the hole;
* `Fits.plug` — a balanced tree in the hole of a path that fits it makes a balanced tree;
* `Fits.down`, `Guides.down` — going down to the key's side keeps the balance and the order;
* `RB.two_pow_le_size`, `RB.stackNeed_le` — a balanced tree has exponentially many elements in
  its black height, and an in-order walk needs a stack of twice that height.
-/

namespace RedBlack

/-- The colour of a node. -/
inductive Color
  | black
  | red
  deriving DecidableEq, Repr

/-- The side of a child. -/
inductive Side
  | left
  | right
  deriving DecidableEq, Repr

/-- The opposite side. -/
def Side.other : Side → Side
  | left => right
  | right => left

@[simp] theorem Side.other_left : Side.left.other = .right := rfl
@[simp] theorem Side.other_right : Side.right.other = .left := rfl

@[simp] theorem Side.other_other (s : Side) : s.other.other = s := by
  cases s <;> rfl

theorem Side.eq_or_eq_other (s s' : Side) : s' = s ∨ s' = s.other := by
  cases s <;> cases s' <;> simp

/-- A binary tree with coloured nodes. -/
inductive ColorTree (α : Type*)
  | nil
  | node (c : Color) (l : ColorTree α) (x : α) (r : ColorTree α)
  deriving DecidableEq, Repr

variable {α : Type*}

namespace ColorTree

/-- The colour of the root; an empty tree is black. -/
def color : ColorTree α → Color
  | nil => .black
  | node c _ _ _ => c

/-- The tree with its root recoloured. -/
def setColor (c : Color) : ColorTree α → ColorTree α
  | nil => nil
  | node _ l x r => node c l x r

/-- The child on a side. -/
def child : Side → ColorTree α → ColorTree α
  | _, nil => nil
  | .left, node _ l _ _ => l
  | .right, node _ _ _ r => r

/-- The node with the subtree `t` on the side `s` and `u` on the other. -/
def join (s : Side) (c : Color) (t : ColorTree α) (x : α) (u : ColorTree α) : ColorTree α :=
  match s with
  | .left => node c t x u
  | .right => node c u x t

/-- The elements in order. -/
def elems : ColorTree α → List α
  | nil => []
  | node _ l x r => l.elems ++ x :: r.elems

/-- The number of elements. -/
def size : ColorTree α → ℕ
  | nil => 0
  | node _ l _ r => l.size + r.size + 1

@[simp] theorem color_nil : (nil : ColorTree α).color = .black := rfl
@[simp] theorem color_node (c : Color) (l : ColorTree α) (x : α) (r : ColorTree α) :
    (node c l x r).color = c := rfl
@[simp] theorem setColor_nil (c : Color) : (nil : ColorTree α).setColor c = nil := rfl
@[simp] theorem setColor_node (c c' : Color) (l : ColorTree α) (x : α) (r : ColorTree α) :
    (node c l x r).setColor c' = node c' l x r := rfl
@[simp] theorem child_nil (s : Side) : (nil : ColorTree α).child s = nil := by
  cases s <;> rfl
@[simp] theorem child_left (c : Color) (l : ColorTree α) (x : α) (r : ColorTree α) :
    (node c l x r).child .left = l := rfl
@[simp] theorem child_right (c : Color) (l : ColorTree α) (x : α) (r : ColorTree α) :
    (node c l x r).child .right = r := rfl
@[simp] theorem join_left (c : Color) (t : ColorTree α) (x : α) (u : ColorTree α) :
    join .left c t x u = node c t x u := rfl
@[simp] theorem join_right (c : Color) (t : ColorTree α) (x : α) (u : ColorTree α) :
    join .right c t x u = node c u x t := rfl
@[simp] theorem elems_nil : (nil : ColorTree α).elems = [] := rfl
@[simp] theorem elems_node (c : Color) (l : ColorTree α) (x : α) (r : ColorTree α) :
    (node c l x r).elems = l.elems ++ x :: r.elems := rfl
@[simp] theorem size_nil : (nil : ColorTree α).size = 0 := rfl
@[simp] theorem size_node (c : Color) (l : ColorTree α) (x : α) (r : ColorTree α) :
    (node c l x r).size = l.size + r.size + 1 := rfl

@[simp] theorem color_join (s : Side) (c : Color) (t : ColorTree α) (x : α) (u : ColorTree α) :
    (join s c t x u).color = c := by
  cases s <;> rfl

@[simp] theorem size_join (s : Side) (c : Color) (t : ColorTree α) (x : α) (u : ColorTree α) :
    (join s c t x u).size = t.size + u.size + 1 := by
  cases s
  · rfl
  · simp [Nat.add_comm]

@[simp] theorem child_join (s : Side) (c : Color) (t : ColorTree α) (x : α) (u : ColorTree α) :
    (join s c t x u).child s = t := by
  cases s <;> rfl

@[simp] theorem child_other_join (s : Side) (c : Color) (t : ColorTree α) (x : α)
    (u : ColorTree α) :
    (join s c t x u).child s.other = u := by
  cases s <;> rfl

@[simp] theorem setColor_join (s : Side) (c c' : Color) (t : ColorTree α) (x : α)
    (u : ColorTree α) :
    (join s c t x u).setColor c' = join s c' t x u := by
  cases s <;> rfl

/-- The sides of a join can be named the other way round. -/
theorem join_other (s : Side) (c : Color) (t : ColorTree α) (x : α) (u : ColorTree α) :
    join s.other c t x u = join s c u x t := by
  cases s <;> rfl

/-- A node is the join of its children. -/
theorem join_children (s : Side) (c : Color) (l : ColorTree α) (x : α) (r : ColorTree α) :
    join s c ((node c l x r).child s) x ((node c l x r).child s.other) = node c l x r := by
  cases s <;> rfl

@[simp] theorem elems_setColor (c : Color) (t : ColorTree α) : (t.setColor c).elems = t.elems := by
  cases t <;> rfl

@[simp] theorem size_setColor (c : Color) (t : ColorTree α) : (t.setColor c).size = t.size := by
  cases t <;> rfl

@[simp] theorem color_setBlack (t : ColorTree α) : (t.setColor .black).color = .black := by
  cases t <;> rfl

theorem setColor_color (t : ColorTree α) : t.setColor t.color = t := by
  cases t <;> rfl

/-- The size is the number of elements. -/
theorem length_elems (t : ColorTree α) : t.elems.length = t.size := by
  induction t with
  | nil => rfl
  | node c l x r ihl ihr => simp [ihl, ihr]; omega

/-- The size of a node, by sides. -/
theorem size_child_add (s : Side) (c : Color) (l : ColorTree α) (x : α) (r : ColorTree α) :
    ((node c l x r).child s).size + ((node c l x r).child s.other).size + 1 =
      (node c l x r).size := by
  cases s
  · rfl
  · simp [Nat.add_comm]

end ColorTree

open ColorTree

/-! ### Paths -/

/-- A node passed on the way down: the side taken, the node's colour and element, and the
subtree on the other side. -/
structure Frame (α : Type*) where
  side : Side
  color : Color
  elem : α
  sibling : ColorTree α
  deriving DecidableEq, Repr

/-- The way from a hole up to the root. -/
abbrev Path (α : Type*) := List (Frame α)

/-- The frame's node over a tree. -/
def Frame.fill (f : Frame α) (t : ColorTree α) : ColorTree α :=
  join f.side f.color t f.elem f.sibling

/-- The whole tree with `t` in the hole. -/
def plug : Path α → ColorTree α → ColorTree α
  | [], t => t
  | f :: p, t => plug p (f.fill t)

/-- The colour of the node above the hole; above the root it is black. -/
def topColor : Path α → Color
  | [] => .black
  | f :: _ => f.color

/-- The elements before the hole. -/
def before : Path α → List α
  | [] => []
  | ⟨.left, _, _, _⟩ :: p => before p
  | ⟨.right, _, x, u⟩ :: p => before p ++ (u.elems ++ [x])

/-- The elements after the hole. -/
def after : Path α → List α
  | [] => []
  | ⟨.left, _, x, u⟩ :: p => (x :: u.elems) ++ after p
  | ⟨.right, _, _, _⟩ :: p => after p

@[simp] theorem plug_nil (t : ColorTree α) : plug [] t = t := rfl
@[simp] theorem plug_cons (f : Frame α) (p : Path α) (t : ColorTree α) :
    plug (f :: p) t = plug p (f.fill t) := rfl
@[simp] theorem topColor_nil : topColor ([] : Path α) = .black := rfl
@[simp] theorem topColor_cons (f : Frame α) (p : Path α) : topColor (f :: p) = f.color := rfl
@[simp] theorem before_nil : before ([] : Path α) = [] := rfl
@[simp] theorem after_nil : after ([] : Path α) = [] := rfl
@[simp] theorem before_left (c : Color) (x : α) (u : ColorTree α) (p : Path α) :
    before (⟨.left, c, x, u⟩ :: p) = before p := rfl
@[simp] theorem before_right (c : Color) (x : α) (u : ColorTree α) (p : Path α) :
    before (⟨.right, c, x, u⟩ :: p) = before p ++ (u.elems ++ [x]) := rfl
@[simp] theorem after_left (c : Color) (x : α) (u : ColorTree α) (p : Path α) :
    after (⟨.left, c, x, u⟩ :: p) = (x :: u.elems) ++ after p := rfl
@[simp] theorem after_right (c : Color) (x : α) (u : ColorTree α) (p : Path α) :
    after (⟨.right, c, x, u⟩ :: p) = after p := rfl

/-- **The elements in order**: those before the hole, the plugged tree's, those after it. -/
theorem elems_plug (p : Path α) (t : ColorTree α) :
    (plug p t).elems = before p ++ t.elems ++ after p := by
  induction p generalizing t with
  | nil => simp
  | cons f p ih =>
      obtain ⟨s, c, x, u⟩ := f
      rw [plug_cons, ih]
      cases s <;> simp [Frame.fill]

/-- A path in two parts. -/
theorem plug_append (p q : Path α) (t : ColorTree α) : plug (p ++ q) t = plug q (plug p t) := by
  induction p generalizing t with
  | nil => rfl
  | cons f p ih => exact ih _

/-- The first element after the hole is at the last step to the left, and may be replaced
there. -/
theorem exists_left_of_after {p : Path α} {x : α} {xs : List α} (h : after p = x :: xs) :
    ∃ p₁ c u p₂, p = p₁ ++ ⟨.left, c, x, u⟩ :: p₂ ∧
      ∀ y t, (plug (p₁ ++ ⟨.left, c, y, u⟩ :: p₂) t).elems = before p ++ t.elems ++ y :: xs := by
  induction p with
  | nil => simp at h
  | cons f p ih =>
      obtain ⟨s, c, y, u⟩ := f
      cases s with
      | left =>
          rw [after_left, List.cons_append, List.cons.injEq] at h
          obtain ⟨rfl, rfl⟩ := h
          exact ⟨[], c, u, p, rfl, fun z t => by simp [elems_plug, Frame.fill]⟩
      | right =>
          obtain ⟨p₁, c', u', p₂, rfl, hel⟩ := ih h
          refine ⟨⟨.right, c, y, u⟩ :: p₁, c', u', p₂, rfl, fun z t => ?_⟩
          rw [List.cons_append, plug_cons, hel, Frame.fill]
          simp

/-! ### Balance -/

/-- `RB t n`: no red node of `t` has a red child, and every way down passes `n` black nodes. -/
inductive RB : ColorTree α → ℕ → Prop
  | empty : RB nil 0
  | red {l r : ColorTree α} {x : α} {n : ℕ} (hl : RB l n) (hr : RB r n)
      (hcl : l.color = .black) (hcr : r.color = .black) : RB (node .red l x r) n
  | black {l r : ColorTree α} {x : α} {n : ℕ} (hl : RB l n) (hr : RB r n) :
      RB (node .black l x r) (n + 1)

/-- `Fits p n`: with a tree of black height `n` in its hole the path is balanced, but for the
colours of the hole and of the node above it. -/
inductive Fits : Path α → ℕ → Prop
  | root {n : ℕ} : Fits [] n
  | red {s : Side} {x : α} {u : ColorTree α} {p : Path α} {n : ℕ} (hu : RB u n)
      (hcu : u.color = .black) (hp : Fits p n) (hcp : topColor p = .black) :
      Fits (⟨s, .red, x, u⟩ :: p) n
  | black {s : Side} {x : α} {u : ColorTree α} {p : Path α} {n : ℕ} (hu : RB u n)
      (hp : Fits p (n + 1)) : Fits (⟨s, .black, x, u⟩ :: p) n

/-- A red join is balanced. -/
theorem RB.join_red {t u : ColorTree α} {n : ℕ} (ht : RB t n) (hu : RB u n)
    (hct : t.color = .black) (hcu : u.color = .black) (s : Side) (x : α) :
    RB (join s .red t x u) n := by
  cases s
  · exact .red ht hu hct hcu
  · exact .red hu ht hcu hct

/-- A black join is balanced. -/
theorem RB.join_black {t u : ColorTree α} {n : ℕ} (ht : RB t n) (hu : RB u n) (s : Side) (x : α) :
    RB (join s .black t x u) (n + 1) := by
  cases s
  · exact .black ht hu
  · exact .black hu ht

/-- What balance says about the children of a red node. -/
theorem RB.of_red {l r : ColorTree α} {x : α} {n : ℕ} (h : RB (node .red l x r) n) (s : Side) :
    RB ((node .red l x r).child s) n ∧ ((node .red l x r).child s).color = .black := by
  cases h with
  | red hl hr hcl hcr => cases s <;> simp [*]

/-- What balance says about the children of a black node. -/
theorem RB.of_black {l r : ColorTree α} {x : α} {n : ℕ} (h : RB (node .black l x r) n) :
    ∃ m, n = m + 1 ∧ ∀ s, RB ((node .black l x r).child s) m := by
  cases h with
  | black hl hr =>
      refine ⟨_, rfl, fun s => ?_⟩
      cases s <;> simp [*]

/-- A red root that becomes black is counted. -/
theorem RB.setBlack_of_red {t : ColorTree α} {n : ℕ} (h : RB t n) (hc : t.color = .red) :
    RB (t.setColor .black) (n + 1) := by
  cases h with
  | empty => simp at hc
  | red hl hr _ _ => exact .black hl hr
  | black => simp at hc

/-- A balanced tree stays balanced when its root becomes black. -/
theorem RB.setBlack {t : ColorTree α} {n : ℕ} (h : RB t n) : ∃ m, RB (t.setColor .black) m := by
  cases h with
  | empty => exact ⟨0, .empty⟩
  | red hl hr _ _ => exact ⟨_, .black hl hr⟩
  | black hl hr => exact ⟨_, .black hl hr⟩

/-- A tree of black height 0 with a black root is empty. -/
theorem RB.eq_nil {t : ColorTree α} (h : RB t 0) (hc : t.color = .black) : t = nil := by
  cases h with
  | empty => rfl
  | red => simp at hc

/-- The empty tree has black height 0. -/
@[simp] theorem rb_nil {n : ℕ} : RB (nil : ColorTree α) n ↔ n = 0 :=
  ⟨fun h => by cases h; rfl, fun h => h ▸ .empty⟩

/-- **A balanced tree in a hole that fits it** makes a balanced tree. -/
theorem Fits.plug {p : Path α} {n : ℕ} (hp : Fits p n) {t : ColorTree α} (ht : RB t n)
    (hc : t.color = .red → topColor p = .black) : ∃ m, RB (plug p t) m := by
  induction hp generalizing t with
  | root => exact ⟨_, ht⟩
  | red hu hcu hp hcp ih =>
      have hct : t.color = .black := by
        cases h : t.color with
        | black => rfl
        | red => exact absurd (hc h) (by simp)
      exact ih (ht.join_red hu hct hcu _ _) (fun _ => hcp)
  | black hu hp ih => exact ih (ht.join_black hu _ _) (by simp [Frame.fill])

/-- Balance is about shape and colour: it is kept when a subtree is replaced by one that is
balanced alike. -/
theorem rb_plug_congr {t t' : ColorTree α} (hc : t'.color = t.color) (h : ∀ n, RB t' n ↔ RB t n)
    (p : Path α) (n : ℕ) : RB (plug p t') n ↔ RB (plug p t) n := by
  induction p generalizing t t' n with
  | nil => exact h n
  | cons f p ih =>
      obtain ⟨s, c, x, u⟩ := f
      refine ih (by simp [Frame.fill]) (fun n => ?_) n
      have hmp : ∀ {t t' : ColorTree α}, t'.color = t.color → (∀ n, RB t' n ↔ RB t n) →
          RB (join s c t x u) n → RB (join s c t' x u) n := by
        intro t t' hc h hj
        cases s with
        | left =>
            cases hj with
            | red hl hr hcl hcr => exact .red ((h _).mpr hl) hr (hc.trans hcl) hcr
            | black hl hr => exact .black ((h _).mpr hl) hr
        | right =>
            cases hj with
            | red hl hr hcl hcr => exact .red hl ((h _).mpr hr) hcl (hc.trans hcr)
            | black hl hr => exact .black hl ((h _).mpr hr)
      exact ⟨hmp hc.symm fun n => (h n).symm, hmp hc h⟩

/-- The element of a node does not matter for its balance. -/
theorem rb_node_elem {c : Color} {l r : ColorTree α} {x y : α} (n : ℕ) :
    RB (node c l x r) n ↔ RB (node c l y r) n := by
  have hmp : ∀ {x y : α}, RB (node c l x r) n → RB (node c l y r) n := by
    intro x y h
    cases h with
    | red hl hr hcl hcr => exact .red hl hr hcl hcr
    | black hl hr => exact .black hl hr
  exact ⟨hmp, hmp⟩

/-- **A balanced tree is full down to its black height.** -/
theorem RB.two_pow_le_size {t : ColorTree α} {n : ℕ} (h : RB t n) : 2 ^ n ≤ t.size + 1 := by
  induction h with
  | empty => simp
  | red hl hr _ _ ihl ihr => simp only [size_node]; omega
  | black hl hr ihl ihr => simp only [size_node, Nat.pow_succ]; omega

/-- How many nodes an in-order walk keeps on its stack at most: one more than the largest
number of left turns on a way down. -/
def stackNeed : ColorTree α → ℕ
  | nil => 0
  | node _ l _ r => max (stackNeed l + 1) (stackNeed r)

/-- **A balanced tree needs little stack**: twice its black height, and one more below a red
root. -/
theorem RB.stackNeed_le {t : ColorTree α} {n : ℕ} (h : RB t n) :
    stackNeed t ≤ 2 * n + 1 ∧ (t.color = .black → stackNeed t ≤ 2 * n) := by
  induction h with
  | empty => simp [stackNeed]
  | red hl hr hcl hcr ihl ihr =>
      have hl' := ihl.2 hcl
      have hr' := ihr.2 hcr
      refine ⟨?_, fun h => by cases h⟩
      rw [stackNeed]
      omega
  | black hl hr ihl ihr =>
      have hl' := ihl.1
      have hr' := ihr.1
      refine ⟨?_, fun _ => ?_⟩
      · rw [stackNeed]
        omega
      · rw [stackNeed]
        omega

/-! ### Going down -/

/-- The frame that the step from a node to its child on a side leaves behind. -/
def down (s : Side) (c : Color) (l : ColorTree α) (x : α) (r : ColorTree α) : Frame α :=
  ⟨s, c, x, (node c l x r).child s.other⟩

@[simp] theorem down_fill (s : Side) (c : Color) (l : ColorTree α) (x : α) (r : ColorTree α) :
    (down s c l x r).fill ((node c l x r).child s) = node c l x r :=
  join_children s c l x r

/-- Going down does not change the tree. -/
theorem plug_down (s : Side) (c : Color) (l : ColorTree α) (x : α) (r : ColorTree α) (p : Path α) :
    plug (down s c l x r :: p) ((node c l x r).child s) = plug p (node c l x r) := by
  rw [plug_cons, down_fill]

/-- **Going down keeps the balance.** -/
theorem Fits.down {p : Path α} {n : ℕ} (hp : Fits p n) {c : Color} {l r : ColorTree α} {x : α}
    (ht : RB (node c l x r) n) (hc : c = .red → topColor p = .black) (s : Side) :
    ∃ m, Fits (down s c l x r :: p) m ∧ RB ((node c l x r).child s) m ∧
      (((node c l x r).child s).color = .red → c = .black) := by
  cases c with
  | red =>
      obtain ⟨hu, hcu⟩ := ht.of_red s.other
      obtain ⟨hs, hcs⟩ := ht.of_red s
      exact ⟨n, .red hu hcu hp (hc rfl), hs, fun h => absurd h (by simp [hcs])⟩
  | black =>
      obtain ⟨m, rfl, h⟩ := ht.of_black
      exact ⟨m, .black (h _) hp, h _, fun _ => rfl⟩

/-- Going down keeps the balance, for a join. -/
theorem Fits.push {p : Path α} {n : ℕ} (hp : Fits p n) {s : Side} {c : Color} {t u : ColorTree α}
    {x : α} (ht : RB (join s c t x u) n) (hc : c = .red → topColor p = .black) :
    ∃ m, Fits (⟨s, c, x, u⟩ :: p) m ∧ RB t m ∧ (t.color = .red → c = .black) := by
  cases s with
  | left => exact hp.down ht hc .left
  | right => exact hp.down ht hc .right

section Search

variable {κ : Type*} [LinearOrder κ] (key : α → κ) (k : κ)

/-- The key `k` belongs to the side `s` of the element `x`. -/
def OnSide : Side → α → Prop
  | .left, x => k < key x
  | .right, x => key x < k

/-- The elements in order have ascending keys. -/
def Ordered (t : ColorTree α) : Prop := t.elems.Pairwise fun x y => key x < key y

/-- The path leads to where the key belongs. -/
def Guides (p : Path α) : Prop :=
  ∀ f ∈ p, ∀ y ∈ f.elem :: f.sibling.elems, OnSide key k f.side y

variable {key k}

/-- A key belongs to one side of an element at most. -/
theorem OnSide.unique {s s' : Side} {x : α} (h : OnSide key k s x) (h' : OnSide key k s' x) :
    s = s' := by
  cases s <;> cases s' <;> first | rfl | exact absurd h (lt_asymm h')

/-- A key that belongs to a side of an element is not the element's. -/
theorem OnSide.ne {s : Side} {x : α} (h : OnSide key k s x) : key x ≠ k := by
  cases s
  · exact ne_of_gt h
  · exact ne_of_lt h

theorem guides_nil : Guides key k ([] : Path α) := by
  simp [Guides]

theorem guides_cons {f : Frame α} {p : Path α} :
    Guides key k (f :: p) ↔
      OnSide key k f.side f.elem ∧ (∀ y ∈ f.sibling.elems, OnSide key k f.side y) ∧
        Guides key k p := by
  simp [Guides, and_assoc]

/-- The keys before the hole are smaller. -/
theorem Guides.before_lt {p : Path α} (h : Guides key k p) : ∀ x ∈ before p, key x < k := by
  induction p with
  | nil => simp
  | cons f p ih =>
      obtain ⟨s, c, x, u⟩ := f
      obtain ⟨hx, hu, hp⟩ := guides_cons.mp h
      cases s with
      | left => exact ih hp
      | right =>
          intro y hy
          simp only [before_right, List.mem_append, List.mem_singleton] at hy
          obtain hy | hy | rfl := hy
          · exact ih hp y hy
          · exact hu y hy
          · exact hx

/-- The keys after the hole are larger. -/
theorem Guides.lt_after {p : Path α} (h : Guides key k p) : ∀ x ∈ after p, k < key x := by
  induction p with
  | nil => simp
  | cons f p ih =>
      obtain ⟨s, c, x, u⟩ := f
      obtain ⟨hx, hu, hp⟩ := guides_cons.mp h
      cases s with
      | left =>
          intro y hy
          simp only [after_left, List.cons_append, List.mem_cons, List.mem_append] at hy
          obtain rfl | hy | hy := hy
          · exact hx
          · exact hu y hy
          · exact ih hp y hy
      | right => exact ih hp

/-- A subtree of an ordered tree is ordered. -/
theorem Ordered.of_plug {p : Path α} {t : ColorTree α} (h : Ordered key (plug p t)) :
    Ordered key t := by
  rw [Ordered, elems_plug, List.append_assoc, List.pairwise_append] at h
  exact (List.pairwise_append.mp h.2.1).1

/-- Trees with the same elements in order are ordered alike. -/
theorem Ordered.congr {t u : ColorTree α} (h : Ordered key t) (he : u.elems = t.elems) :
    Ordered key u := by
  rw [Ordered, he]
  exact h

/-- What order says about a node. -/
theorem ordered_node {c : Color} {l r : ColorTree α} {x : α} :
    Ordered key (node c l x r) ↔ Ordered key l ∧ Ordered key r ∧
      (∀ y ∈ l.elems, key y < key x) ∧ (∀ y ∈ r.elems, key x < key y) := by
  simp only [Ordered, elems_node, List.pairwise_append, List.pairwise_cons, List.mem_cons,
    forall_eq_or_imp]
  refine ⟨fun ⟨hl, ⟨hx, hr⟩, h⟩ => ⟨hl, hr, fun y hy => (h y hy).1, hx⟩,
    fun ⟨hl, hr, h, hx⟩ => ⟨hl, ⟨hx, hr⟩, fun y hy => ⟨h y hy, fun z hz => ?_⟩⟩⟩
  exact lt_trans (h y hy) (hx z hz)

/-- **Going down to the key's side** still leads to where the key belongs. -/
theorem Guides.down {p : Path α} (h : Guides key k p) {c : Color} {l r : ColorTree α} {x : α}
    (ho : Ordered key (node c l x r)) {s : Side} (hs : OnSide key k s x) :
    Guides key k (down s c l x r :: p) := by
  obtain ⟨-, -, hlx, hxr⟩ := ordered_node.mp ho
  refine guides_cons.mpr ⟨hs, fun y hy => ?_, h⟩
  cases s with
  | left => exact lt_trans hs (hxr y hy)
  | right => exact lt_trans (hlx y hy) hs

end Search

end RedBlack
