import OpenScap.TopDownInsert

/-!
# The tree that descending insertion builds

When every new key is smaller than the keys before it, insertion only works on the left spine
of the tree. The spine is a counter: at every black level it has one, two or three elements
beside perfect black subtrees, a level of three gives one up to the level above on the way
down, and the last level takes the new element. So the shape depends on the number of
elements alone, and where every level has two the spine is twice as long as the tree is
deep in black nodes.

## Main results

* `Spine.insert` — the pass from the root down keeps this shape;
* `Spine.stackNeed_ge` — with `2 ^ (n + 1) - 2` elements an in-order walk keeps at least `2 n`
  nodes on its stack.
-/

namespace RedBlack

open ColorTree

variable {α : Type*}

/-- All nodes are black, and every way down passes `n` of them. -/
inductive Perfect : ℕ → ColorTree α → Prop
  | nil : Perfect 0 nil
  | node {n : ℕ} {l r : ColorTree α} (x : α) (hl : Perfect n l) (hr : Perfect n r) :
      Perfect (n + 1) (node .black l x r)

/-- A tree with one, two or three elements at every level of its left spine. -/
inductive Spine : ℕ → ColorTree α → Prop
  | nil : Spine 0 nil
  | one {n : ℕ} {l r : ColorTree α} (x : α) (hl : Spine n l) (hr : Perfect n r) :
      Spine (n + 1) (node .black l x r)
  | two {n : ℕ} {l u r : ColorTree α} (y x : α) (hl : Spine n l) (hu : Perfect n u)
      (hr : Perfect n r) : Spine (n + 1) (node .black (node .red l y u) x r)
  | three {n : ℕ} {l u a b : ColorTree α} (y x z : α) (hl : Spine n l) (hu : Perfect n u)
      (ha : Perfect n a) (hb : Perfect n b) :
      Spine (n + 1) (node .black (node .red l y u) x (node .red a z b))

/-- The left spine above a place, by levels; a root whose colours were just switched is
still red. -/
inductive SpinePath : ℕ → Path α → Prop
  | root {n : ℕ} : SpinePath n []
  | redRoot {n : ℕ} {r : ColorTree α} (x : α) (hr : Perfect n r) :
      SpinePath n [⟨.left, .red, x, r⟩]
  | one {n : ℕ} {p : Path α} {r : ColorTree α} (x : α) (hp : SpinePath (n + 1) p)
      (hr : Perfect n r) : SpinePath n (⟨.left, .black, x, r⟩ :: p)
  | two {n : ℕ} {p : Path α} {u r : ColorTree α} (y x : α) (hp : SpinePath (n + 1) p)
      (hu : Perfect n u) (hr : Perfect n r) :
      SpinePath n (⟨.left, .red, y, u⟩ :: ⟨.left, .black, x, r⟩ :: p)
  | three {n : ℕ} {p : Path α} {u a b : ColorTree α} (y x z : α) (hp : SpinePath (n + 1) p)
      (hu : Perfect n u) (ha : Perfect n a) (hb : Perfect n b) :
      SpinePath n (⟨.left, .red, y, u⟩ :: ⟨.left, .black, x, node .red a z b⟩ :: p)

/-- The level above a place has room for one more element. -/
inductive Roomy : ℕ → Path α → Prop
  | root {n : ℕ} : Roomy n []
  | one {n : ℕ} {p : Path α} {r : ColorTree α} (x : α) (hp : SpinePath (n + 1) p)
      (hr : Perfect n r) : Roomy n (⟨.left, .black, x, r⟩ :: p)
  | two {n : ℕ} {p : Path α} {u r : ColorTree α} (y x : α) (hp : SpinePath (n + 1) p)
      (hu : Perfect n u) (hr : Perfect n r) :
      Roomy n (⟨.left, .red, y, u⟩ :: ⟨.left, .black, x, r⟩ :: p)

theorem Perfect.color {n : ℕ} {t : ColorTree α} (h : Perfect n t) : t.color = .black := by
  cases h <;> rfl

theorem Spine.color {n : ℕ} {t : ColorTree α} (h : Spine n t) : t.color = .black := by
  cases h <;> rfl

theorem Perfect.size {n : ℕ} {t : ColorTree α} (h : Perfect n t) : t.size + 1 = 2 ^ n := by
  induction h with
  | nil => rfl
  | node x hl hr ihl ihr => rw [size_node, Nat.pow_succ]; omega

/-- The number of elements that `n` levels hold. -/
theorem Spine.size {n : ℕ} {t : ColorTree α} (h : Spine n t) :
    2 ^ n ≤ t.size + 1 ∧ t.size + 3 ≤ 3 * 2 ^ n := by
  induction h with
  | nil => simp
  | one x hl hr ih =>
      have hr := hr.size
      simp only [size_node, Nat.pow_succ]
      omega
  | two y x hl hu hr ih =>
      have hu := hu.size
      have hr := hr.size
      simp only [size_node, Nat.pow_succ]
      omega
  | three y x z hl hu ha hb ih =>
      have hu := hu.size
      have ha := ha.size
      have hb := hb.size
      simp only [size_node, Nat.pow_succ]
      omega

/-- **A long spine**: the number of elements leaves every level with two, so that the walk
goes left twice at each. -/
theorem Spine.stackNeed_ge {n : ℕ} {t : ColorTree α} (h : Spine n t)
    (hs : t.size + 2 = 2 ^ (n + 1)) : 2 * n ≤ stackNeed t := by
  induction h with
  | nil => simp
  | one x hl hr ih =>
      have hr := hr.size
      have hl := hl.size
      simp only [size_node, Nat.pow_succ] at hs
      omega
  | two y x hl hu hr ih =>
      have hu := hu.size
      have hr := hr.size
      simp only [size_node, Nat.pow_succ] at hs
      have hl := ih (by rw [Nat.pow_succ]; omega)
      simp only [stackNeed]
      omega
  | three y x z hl hu ha hb ih =>
      have hu := hu.size
      have ha := ha.size
      have hb := hb.size
      have hl := hl.size
      simp only [size_node, Nat.pow_succ] at hs
      omega

theorem Roomy.spinePath {n : ℕ} {p : Path α} (h : Roomy n p) : SpinePath n p := by
  cases h with
  | root => exact .root
  | one x hp hr => exact .one x hp hr
  | two y x hp hu hr => exact .two y x hp hu hr

/-- A spine below a spine, once its root is black. -/
theorem SpinePath.plug {n : ℕ} {p : Path α} (hp : SpinePath n p) {t : ColorTree α}
    (ht : Spine n t) : ∃ m, Spine m ((plug p t).setColor .black) := by
  induction hp generalizing t with
  | root =>
      have hb : t.setColor .black = t := by
        rw [← ht.color, setColor_color]
      exact ⟨_, by rwa [plug_nil, hb]⟩
  | redRoot x hr => exact ⟨_, .one x ht hr⟩
  | one x hp hr ih => exact ih (.one x ht hr)
  | two y x hp hu hr ih => exact ih (.two y x ht hu hr)
  | three y x z hp hu ha hb ih => exact ih (.three y x z ht hu ha hb)

/-- The new element goes to the last level. -/
theorem Roomy.insertNew {p : Path α} (hp : Roomy 0 p) (new : α) :
    ∃ m, Spine m ((RedBlack.plug (insertNew new p).1 (insertNew new p).2).setColor .black) := by
  cases hp with
  | root => exact ⟨1, .one new .nil .nil⟩
  | one x hp hr => exact hp.plug (.two new x .nil .nil hr)
  | two y x hp hu hr => exact hp.plug (.three new y x .nil .nil hu hr)

section Insert

variable {κ : Type*} [LinearOrder κ] {key : α → κ} {k : κ}

/-- The pass goes left at a node where nothing is done. -/
theorem insertLoop_left {new : α} {fuel : ℕ} {p p' : Path α} {c c' : Color}
    {l l' r r' : ColorTree α} {x x' : α}
    (hs : settle p (node c l x r) = (p', node c' l' x' r')) (hk : k < key x') :
    insertLoop key k new (fuel + 1) p (node c l x r) =
      insertLoop key k new fuel (⟨.left, c', x', r'⟩ :: p') l' := by
  rw [insertLoop, hs]
  exact if_pos hk

/-- A level of three, whose middle element goes up to the level above: the pass goes on below
a level of one. -/
theorem Roomy.split {n : ℕ} {p : Path α} (hp : Roomy (n + 1) p) {l u a b : ColorTree α} {y x z : α}
    (hl : Spine n l) (hu : Perfect n u) (ha : Perfect n a) (hb : Perfect n b)
    (hy : k < key y) (hx : k < key x) (new : α) (fuel : ℕ) :
    ∃ q, Roomy n q ∧
      insertLoop key k new (fuel + 2) p
          (node .black (node .red l y u) x (node .red a z b)) =
        insertLoop key k new fuel q l := by
  have hR : Perfect (n + 1) (node .black a z b) := .node z ha hb
  -- below the switched node nothing is done
  have hgo : ∀ q, SpinePath (n + 1) (⟨.left, .red, x, node .black a z b⟩ :: q) →
      settle p (node .black (node .red l y u) x (node .red a z b)) =
        (q, node .red (node .black l y u) x (node .black a z b)) →
      ∃ q, Roomy n q ∧
        insertLoop key k new (fuel + 2) p
            (node .black (node .red l y u) x (node .red a z b)) =
          insertLoop key k new fuel q l := by
    intro q hq hs
    refine ⟨_, .one y hq hu, ?_⟩
    rw [insertLoop_left hs hx]
    exact insertLoop_left (settle_of_not_both (.inl hl.color) (by simp)) hy
  cases hp with
  | root => exact hgo _ (.redRoot x hR) rfl
  | one w hp hr => exact hgo _ (.two x w hp hR hr) rfl
  | two v w hp hv hw => exact hgo _ (.three x v w hp hR hv hw) rfl

/-- **The pass keeps the shape**: below all keys, it ends with the new element on the last
level. -/
theorem Spine.insertLoop {n : ℕ} {t : ColorTree α} (ht : Spine n t) {p : Path α}
    (hp : Roomy n p) (hk : ∀ y ∈ t.elems, k < key y) {fuel : ℕ} (hf : t.size < fuel)
    (new : α) :
    ∃ p' t', RedBlack.insertLoop key k new fuel p t = some (true, p', t') ∧
      ∃ m, Spine m ((plug p' t').setColor .black) := by
  induction ht generalizing p fuel with
  | nil =>
      obtain ⟨fuel, rfl⟩ := Nat.exists_eq_succ_of_ne_zero (Nat.ne_zero_of_lt hf)
      exact ⟨_, _, rfl, hp.insertNew new⟩
  | one x hl hr ih =>
      simp only [elems_node, List.mem_append, List.mem_cons] at hk
      rw [size_node] at hf
      obtain ⟨fuel, rfl⟩ := Nat.exists_eq_succ_of_ne_zero (Nat.ne_zero_of_lt hf)
      rw [insertLoop_left (settle_of_not_both (.inr hr.color) (by simp))
        (hk x (.inr (.inl rfl)))]
      exact ih (.one x hp.spinePath hr) (fun y hy => hk y (.inl hy)) (by omega)
  | @two _ l u r y x hl hu hr ih =>
      simp only [elems_node, List.mem_append, List.mem_cons] at hk
      simp only [size_node] at hf
      obtain ⟨fuel, rfl⟩ : ∃ f, fuel = f + 1 + 1 := ⟨fuel - 2, by omega⟩
      rw [insertLoop_left (settle_of_not_both (.inr hr.color) (by simp))
        (hk x (.inr (.inl rfl))),
        insertLoop_left (settle_of_not_both (.inr hu.color) (fun _ => rfl))
        (hk y (.inl (.inr (.inl rfl))))]
      exact ih (.two y x hp.spinePath hu hr) (fun z hz => hk z (.inl (.inl hz))) (by omega)
  | @three _ l u a b y x z hl hu ha hb ih =>
      simp only [elems_node, List.mem_append, List.mem_cons] at hk
      simp only [size_node] at hf
      obtain ⟨fuel, rfl⟩ : ∃ f, fuel = f + 2 := ⟨fuel - 2, by omega⟩
      obtain ⟨q, hq, he⟩ := hp.split hl hu ha hb (hk y (.inl (.inr (.inl rfl))))
        (hk x (.inr (.inl rfl))) new fuel
      rw [he]
      exact ih hq (fun z hz => hk z (.inl (.inl hz))) (by omega)

end Insert

end RedBlack
