import OpenScap.RedBlackTree
import Mathlib.Logic.Function.Basic

/-!
# The nodes of red-black trees in memory

The nodes of `rbt_common.h` in a memory, with the operations and rotations of
`rbt_common.c`. A pointer word is the address of an aligned object with a lowest bit; the
lowest bit of a node's left child pointer is the node's colour, and that of its right child
pointer is left over from earlier copies and never read. A dereferenced NULL or dangling
pointer is an outcome (`none`), not a precondition.

A tree of cells is held by a memory when every node's words are the addresses of its
children and its colour. The functions on nodes are then operations on trees at the place
that a path leads to.

## Main results

* `Holds.getcolor`, `Holds.setcolor` — reading and writing colours;
* `Holds.splice` — a subtree that was changed in place, and linked to the node above;
* `rotateL_spec`, `rotateR_spec`, `rotateLR_spec`, `rotateRL_spec` — the rotations.
-/

namespace OpenScap.Rbt

open RedBlack RedBlack.ColorTree

/-! ### Words, nodes and memory -/

/-- A pointer word: the address that `rbt_node_ptr` yields, 0 for NULL, and the lowest bit. -/
structure Word where
  addr : ℕ
  bit : Color
  deriving DecidableEq, Repr

/-- `struct rbt_node`: the words of `_chld`. -/
structure RbtNode where
  left : Word
  right : Word
  deriving DecidableEq, Repr

/-- `_chld[s]`. -/
def RbtNode.chld (n : RbtNode) : Side → Word
  | .left => n.left
  | .right => n.right

/-- The node with a new word in `_chld[s]`. -/
def RbtNode.setChld (n : RbtNode) (s : Side) (w : Word) : RbtNode :=
  match s with
  | .left => { n with left := w }
  | .right => { n with right := w }

/-- The memory: the nodes, what the containing objects hold behind them, and the next
address of the allocator. -/
structure Heap (E : Type) where
  node : ℕ → Option RbtNode
  entry : ℕ → Option E
  brk : ℕ

/-- The address of the fake node on the stack of the function that runs. -/
def fakeAddr : ℕ := 1

variable {E : Type}

/-- A node on the stack or of the allocator: no children yet. -/
def Heap.newNode (h : Heap E) (a : ℕ) (n : RbtNode) : Heap E :=
  { h with node := Function.update h.node a (some n) }

/-- `posix_memalign` for a node with its object, which is assigned at once: an address that
was not handed out before. -/
def Heap.alloc (h : Heap E) (e : E) : Heap E × ℕ :=
  ({ h.newNode h.brk ⟨⟨0, .black⟩, ⟨0, .black⟩⟩ with
      entry := Function.update h.entry h.brk (some e), brk := h.brk + 1 }, h.brk)

@[simp] theorem alloc_snd (h : Heap E) (e : E) : (h.alloc e).2 = h.brk := rfl

/-- `sm_free`. -/
def Heap.free (h : Heap E) (a : ℕ) : Heap E :=
  { h with node := Function.update h.node a none, entry := Function.update h.entry a none }

/-- The assignment to the object behind a node. -/
def Heap.setEntry (h : Heap E) (a : ℕ) (e : E) : Heap E :=
  { h with entry := Function.update h.entry a (some e) }

/-- The assignment `_chld[s] = w` at a node. -/
def Heap.write (h : Heap E) (a : ℕ) (s : Side) (w : Word) : Option (Heap E) := do
  let n ← h.node a
  return { h with node := Function.update h.node a (some (n.setChld s w)) }

/-- `rbt_node_setptr` on `_chld[s]` of a node: the lowest bit stays. -/
def rbtNodeSetptr (h : Heap E) (a : ℕ) (s : Side) (src : ℕ) : Option (Heap E) := do
  let n ← h.node a
  h.write a s ⟨src, (n.chld s).bit⟩

/-- `rbt_node_setcolor`. -/
def rbtNodeSetcolor (h : Heap E) (np : ℕ) (cb : Color) : Option (Heap E) :=
  if np = 0 then some h
  else do
    let n ← h.node np
    h.write np .left ⟨n.left.addr, cb⟩

/-- `rbt_node_getcolor`. -/
def rbtNodeGetcolor (h : Heap E) (np : ℕ) : Option Color :=
  if np = 0 then some .black
  else do
    let n ← h.node np
    return n.left.bit

/-- `rbt_node_ptr(np->_chld[s])`. -/
def chldPtr (h : Heap E) (np : ℕ) (s : Side) : Option ℕ := do
  let n ← h.node np
  return (n.chld s).addr

/-! ### Rotations -/

/-- The single rotation that lifts the child `n` on the side `s` over `o`. -/
def rotateSingle (s : Side) (h : Heap E) (o : ℕ) : Option (Heap E × ℕ) := do
  let n ← chldPtr h o s
  let nn ← h.node n
  let h ← h.write o s (nn.chld s.other)
  let h ← h.write n s.other ⟨o, .black⟩
  let h ← rbtNodeSetcolor h n .black
  let h ← rbtNodeSetcolor h o .red
  return (h, n)

/-- `rbt_node_rotate_L`. -/
def rbtNodeRotateL (h : Heap E) (r : ℕ) : Option (Heap E × ℕ) := rotateSingle .right h r

/-- `rbt_node_rotate_R`. -/
def rbtNodeRotateR (h : Heap E) (r : ℕ) : Option (Heap E × ℕ) := rotateSingle .left h r

/-- An assignment to a child pointer by `rbt_node_setptr`, for a word. -/
def putPtr (h : Heap E) (a : ℕ) (s : Side) (w : Word) : Option (Heap E) :=
  rbtNodeSetptr h a s w.addr

/-- The last lines of a double rotation: red children below a black node. -/
def recolorTop (h : Heap E) (n : ℕ) : Option (Heap E) := do
  let h ← rbtNodeSetcolor h (← chldPtr h n .right) .red
  let h ← rbtNodeSetcolor h (← chldPtr h n .left) .red
  rbtNodeSetcolor h n .black

/-- The double rotation that lifts the inner grandchild `n` on the side `s` over its parent
`c` and over `o`. Two of its assignments are plain ones in one direction and keep the lowest
bit in the other. -/
def rotateDouble (put₁ put₂ : Heap E → ℕ → Side → Word → Option (Heap E)) (s : Side)
    (h : Heap E) (o : ℕ) : Option (Heap E × ℕ) := do
  let c ← chldPtr h o s
  let n ← chldPtr h c s.other
  let nn ← h.node n
  let h ← put₁ h c s.other (nn.chld s)
  let no ← h.node o
  let h ← h.write n s (no.chld s)
  let nn ← h.node n
  let h ← put₂ h o s (nn.chld s.other)
  let h ← h.write n s.other ⟨o, .black⟩
  let h ← recolorTop h n
  return (h, n)

/-- `rbt_node_rotate_LR`. -/
def rbtNodeRotateLR (h : Heap E) (r : ℕ) : Option (Heap E × ℕ) :=
  rotateDouble putPtr Heap.write .right h r

/-- `rbt_node_rotate_RL`. -/
def rbtNodeRotateRL (h : Heap E) (r : ℕ) : Option (Heap E × ℕ) :=
  rotateDouble Heap.write putPtr .left h r

/-! ### Trees in memory -/

/-- An element of a tree in memory: the node's address and what the object holds. -/
structure Cell (E : Type) where
  addr : ℕ
  entry : E
  deriving DecidableEq, Repr

/-- The address of a tree's root, 0 for the empty tree. -/
def ptr : ColorTree (Cell E) → ℕ
  | nil => 0
  | node _ _ x _ => x.addr

/-- The addresses of a tree's nodes, in order. -/
def addrs (t : ColorTree (Cell E)) : List ℕ := t.elems.map Cell.addr

@[simp] theorem ptr_nil : ptr (nil : ColorTree (Cell E)) = 0 := rfl
@[simp] theorem ptr_node (c : Color) (l : ColorTree (Cell E)) (x : Cell E)
    (r : ColorTree (Cell E)) :
    ptr (node c l x r) = x.addr := rfl
@[simp] theorem addrs_nil : addrs (nil : ColorTree (Cell E)) = [] := rfl
@[simp] theorem addrs_node (c : Color) (l : ColorTree (Cell E)) (x : Cell E)
    (r : ColorTree (Cell E)) :
    addrs (node c l x r) = addrs l ++ x.addr :: addrs r := by
  simp [addrs]

@[simp] theorem ptr_setColor (c : Color) (t : ColorTree (Cell E)) : ptr (t.setColor c) = ptr t := by
  cases t <;> rfl

@[simp] theorem ptr_join (s : Side) (c : Color) (t : ColorTree (Cell E)) (x : Cell E)
    (u : ColorTree (Cell E)) : ptr (join s c t x u) = x.addr := by
  cases s <;> rfl

/-- A node with the colour `c`, the child `a` on the side `s` and `b` on the other. -/
def IsNode (nodes : ℕ → Option RbtNode) (at' : ℕ) (s : Side) (c : Color) (a b : ℕ) : Prop :=
  ∃ n, nodes at' = some n ∧ n.left.bit = c ∧ (n.chld s).addr = a ∧ (n.chld s.other).addr = b

/-- The nodes of a tree are linked in memory. -/
def Linked (nodes : ℕ → Option RbtNode) : ColorTree (Cell E) → Prop
  | nil => True
  | node c l x r =>
      IsNode nodes x.addr .left c (ptr l) (ptr r) ∧ Linked nodes l ∧ Linked nodes r

/-- The nodes of a path are linked in memory, from the child `a` at its end up to the fake
node above the root. -/
def LinkedPath (nodes : ℕ → Option RbtNode) : Path (Cell E) → ℕ → Prop
  | [], a => IsNode nodes fakeAddr .right .black a 0
  | f :: p, a =>
      IsNode nodes f.elem.addr f.side f.color a (ptr f.sibling) ∧ Linked nodes f.sibling ∧
        LinkedPath nodes p f.elem.addr

/-- The sides of a node can be named the other way round. -/
theorem isNode_other {nodes : ℕ → Option RbtNode} {at' : ℕ} {s : Side} {c : Color} {a b : ℕ} :
    IsNode nodes at' s.other c a b ↔ IsNode nodes at' s c b a := by
  simp only [IsNode, Side.other_other]
  refine ⟨?_, ?_⟩ <;> rintro ⟨n, hn, hc, h₁, h₂⟩ <;> exact ⟨n, hn, hc, h₂, h₁⟩

/-- A linked join. -/
theorem linked_join {nodes : ℕ → Option RbtNode} {s : Side} {c : Color} {t u : ColorTree (Cell E)}
    {x : Cell E} :
    Linked nodes (join s c t x u) ↔
      IsNode nodes x.addr s c (ptr t) (ptr u) ∧ Linked nodes t ∧ Linked nodes u := by
  cases s with
  | left => rfl
  | right =>
      rw [show Side.right = Side.left.other from rfl, isNode_other]
      exact and_congr_right fun _ => and_comm

/-- **A linked tree, by its path and the tree at its end.** -/
theorem linked_plug {nodes : ℕ → Option RbtNode} {p : Path (Cell E)} {t : ColorTree (Cell E)} :
    Linked nodes (plug p t) ∧ LinkedPath nodes ([] : Path (Cell E)) (ptr (plug p t)) ↔
      Linked nodes t ∧ LinkedPath nodes p (ptr t) := by
  induction p generalizing t with
  | nil => rfl
  | cons f p ih =>
      rw [plug_cons, ih, Frame.fill, linked_join, ptr_join, LinkedPath]
      constructor
      · rintro ⟨⟨h₁, h₂, h₃⟩, h₄⟩
        exact ⟨h₂, h₁, h₃, h₄⟩
      · rintro ⟨h₂, h₁, h₃, h₄⟩
        exact ⟨⟨h₁, h₂, h₃⟩, h₄⟩

theorem IsNode.congr {nodes nodes' : ℕ → Option RbtNode} {at' : ℕ} {s : Side} {c : Color}
    {a b : ℕ} (h : IsNode nodes at' s c a b) (he : nodes' at' = nodes at') :
    IsNode nodes' at' s c a b := by
  obtain ⟨n, hn, h⟩ := h
  exact ⟨n, he.trans hn, h⟩

/-- A tree whose nodes did not change is still linked. -/
theorem Linked.congr {nodes nodes' : ℕ → Option RbtNode} {t : ColorTree (Cell E)}
    (h : Linked nodes t) (he : ∀ a ∈ addrs t, nodes' a = nodes a) : Linked nodes' t := by
  induction t with
  | nil => trivial
  | node c l x r ihl ihr =>
      obtain ⟨h, hl, hr⟩ := h
      refine ⟨h.congr (he _ (by simp)), ihl hl fun a ha => he a ?_, ihr hr fun a ha => he a ?_⟩
      · simp [ha]
      · simp [ha]

/-- The addresses of the nodes that a path passes or leaves aside. -/
def pathAddrs (p : Path (Cell E)) : List ℕ := (before p ++ after p).map Cell.addr

/-- A path whose nodes did not change is still linked. -/
theorem LinkedPath.congr {nodes nodes' : ℕ → Option RbtNode} {p : Path (Cell E)} {a : ℕ}
    (h : LinkedPath nodes p a) (hf : nodes' fakeAddr = nodes fakeAddr)
    (he : ∀ b ∈ pathAddrs p, nodes' b = nodes b) : LinkedPath nodes' p a := by
  induction p generalizing a with
  | nil => exact IsNode.congr h hf
  | cons f p ih =>
      obtain ⟨s, c, x, u⟩ := f
      obtain ⟨h, hu, hp⟩ := h
      have hmem : ∀ b, b = x.addr ∨ b ∈ addrs u ∨ b ∈ pathAddrs p →
          b ∈ pathAddrs (⟨s, c, x, u⟩ :: p) := by
        intro b hb
        cases s <;> simp only [pathAddrs, addrs, before_left, after_left, before_right,
          after_right, List.map_append, List.map_cons, List.mem_append, List.mem_cons,
          List.map_nil, List.cons_append] at hb ⊢ <;> tauto
      exact ⟨h.congr (he _ (hmem _ (.inl rfl))),
        hu.congr fun b hb => he b (hmem b (.inr (.inl hb))),
        ih hp fun b hb => he b (hmem b (.inr (.inr hb)))⟩

/-- A memory holds a tree: its nodes are linked below the fake node, and the objects are
distinct, allocated and hold the tree's elements. -/
structure Holds (h : Heap E) (t : ColorTree (Cell E)) : Prop where
  linked : Linked h.node t
  root : LinkedPath h.node ([] : Path (Cell E)) (ptr t)
  nodup : (addrs t).Nodup
  entries : ∀ x ∈ t.elems, h.entry x.addr = some x.entry
  range : ∀ a ∈ addrs t, fakeAddr < a ∧ a < h.brk
  fake_lt : fakeAddr < h.brk

/-! ### Changes in place -/

/-- Only the nodes of `S` may differ. -/
structure ChangedOn (S : List ℕ) (h h' : Heap E) : Prop where
  node : ∀ a, a ∉ S → h'.node a = h.node a
  entry : h'.entry = h.entry
  brk : h'.brk = h.brk

theorem ChangedOn.refl (S : List ℕ) (h : Heap E) : ChangedOn S h h := ⟨fun _ _ => rfl, rfl, rfl⟩

theorem ChangedOn.trans {S : List ℕ} {h h' h'' : Heap E} (h₁ : ChangedOn S h h')
    (h₂ : ChangedOn S h' h'') : ChangedOn S h h'' :=
  ⟨fun a ha => (h₂.node a ha).trans (h₁.node a ha), h₂.entry.trans h₁.entry,
    h₂.brk.trans h₁.brk⟩

theorem ChangedOn.mono {S T : List ℕ} {h h' : Heap E} (hc : ChangedOn S h h') (hST : S ⊆ T) :
    ChangedOn T h h' :=
  ⟨fun a ha => hc.node a fun hS => ha (hST hS), hc.entry, hc.brk⟩

/-- A write changes one word of one node. -/
theorem write_spec {h : Heap E} {a : ℕ} {n : RbtNode} (hn : h.node a = some n) (s : Side)
    (w : Word) : ∃ h', h.write a s w = some h' ∧ h'.node a = some (n.setChld s w) ∧
      ChangedOn [a] h h' := by
  refine ⟨{ h with node := Function.update h.node a (some (n.setChld s w)) }, ?_, ?_, ?_⟩
  · rw [Heap.write, hn]
    rfl
  · exact Function.update_self ..
  · refine ⟨fun b hb => ?_, rfl, rfl⟩
    exact Function.update_of_ne (by simpa using hb) ..

/-- **Setting a child pointer** keeps the colour and the other child. -/
theorem setptr_spec {h : Heap E} {at' : ℕ} {s : Side} {c : Color} {a b : ℕ}
    (hn : IsNode h.node at' s c a b) (src : ℕ) :
    ∃ h', rbtNodeSetptr h at' s src = some h' ∧ IsNode h'.node at' s c src b ∧
      ChangedOn [at'] h h' := by
  obtain ⟨n, hn, hc, -, hb⟩ := hn
  obtain ⟨h', hw, hn', hch⟩ := write_spec hn s ⟨src, (n.chld s).bit⟩
  refine ⟨h', ?_, ⟨_, hn', ?_⟩, hch⟩
  · rw [rbtNodeSetptr, hn]
    exact hw
  · cases s
    · exact ⟨hc, rfl, hb⟩
    · exact ⟨hc, rfl, hb⟩

/-- **Setting a colour** keeps the children. -/
theorem setcolor_spec {h : Heap E} {at' : ℕ} {s : Side} {c : Color} {a b : ℕ}
    (hn : IsNode h.node at' s c a b) (h0 : at' ≠ 0) (cb : Color) :
    ∃ h', rbtNodeSetcolor h at' cb = some h' ∧ IsNode h'.node at' s cb a b ∧
      ChangedOn [at'] h h' := by
  obtain ⟨n, hn, -, ha, hb⟩ := hn
  obtain ⟨h', hw, hn', hch⟩ := write_spec hn .left ⟨n.left.addr, cb⟩
  refine ⟨h', ?_, ⟨_, hn', ?_⟩, hch⟩
  · rw [rbtNodeSetcolor, if_neg h0, hn]
    exact hw
  · cases s
    · exact ⟨rfl, ha, hb⟩
    · exact ⟨rfl, ha, hb⟩

/-- Reading a child pointer. -/
theorem IsNode.chldPtr {h : Heap E} {at' : ℕ} {s : Side} {c : Color} {a b : ℕ}
    (hn : IsNode h.node at' s c a b) : chldPtr h at' s = some a := by
  obtain ⟨n, hn, -, rfl, -⟩ := hn
  rw [Rbt.chldPtr, hn]
  rfl

/-- Reading a colour. -/
theorem IsNode.getcolor {h : Heap E} {at' : ℕ} {s : Side} {c : Color} {a b : ℕ}
    (hn : IsNode h.node at' s c a b) (h0 : at' ≠ 0) : rbtNodeGetcolor h at' = some c := by
  obtain ⟨n, hn, rfl, -, -⟩ := hn
  rw [rbtNodeGetcolor, if_neg h0, hn]
  rfl

/-! ### The place in a tree that is held -/

/-- The addresses of a tree are those of the tree at the place and those of the path. -/
theorem addrs_plug_perm (p : Path (Cell E)) (t : ColorTree (Cell E)) :
    (addrs (plug p t)).Perm (addrs t ++ pathAddrs p) := by
  rw [addrs, elems_plug, addrs, pathAddrs, ← List.map_append, ← List.append_assoc]
  exact (List.perm_append_comm.append_right _).map _

/-- The addresses of a path are those of the node above the place, of its other child and of
the rest. -/
theorem pathAddrs_cons_perm (f : Frame (Cell E)) (p : Path (Cell E)) :
    (pathAddrs (f :: p)).Perm (f.elem.addr :: (addrs f.sibling ++ pathAddrs p)) := by
  obtain ⟨s, c, x, u⟩ := f
  have h : (before (⟨s, c, x, u⟩ :: p) ++ after (⟨s, c, x, u⟩ :: p)).Perm
      (x :: u.elems ++ (before p ++ after p)) := by
    rw [← List.append_assoc (x :: u.elems)]
    cases s with
    | left =>
        rw [before_left, after_left, ← List.append_assoc]
        exact List.perm_append_comm.append_right _
    | right =>
        rw [before_right, after_right]
        exact (List.perm_append_comm.trans
          ((List.perm_append_singleton x u.elems).append_right _)).append_right _
  simpa [pathAddrs, addrs] using h.map Cell.addr

theorem mem_addrs_plug {p : Path (Cell E)} {t : ColorTree (Cell E)} {a : ℕ} :
    a ∈ addrs (plug p t) ↔ a ∈ addrs t ∨ a ∈ pathAddrs p := by
  rw [(addrs_plug_perm p t).mem_iff, List.mem_append]

/-- The nodes of the tree at the place and those of the path are different. -/
theorem nodup_addrs_plug {p : Path (Cell E)} {t : ColorTree (Cell E)} :
    (addrs (plug p t)).Nodup ↔
      (addrs t).Nodup ∧ (pathAddrs p).Nodup ∧ ∀ a ∈ addrs t, a ∉ pathAddrs p := by
  rw [(addrs_plug_perm p t).nodup_iff, List.nodup_append]
  exact and_congr_right fun _ => and_congr_right fun _ =>
    ⟨fun h a ha hp => h a ha a hp rfl, fun h a ha b hb he => h a ha (he ▸ hb)⟩

/-- The word that points to the place: in the node above it, or in the fake node. -/
def slot : Path (Cell E) → ℕ × Side
  | [] => (fakeAddr, .right)
  | f :: _ => (f.elem.addr, f.side)

/-- The node above the place is one of the path's, or the fake node. -/
theorem slot_mem (p : Path (Cell E)) : (slot p).1 = fakeAddr ∨ (slot p).1 ∈ pathAddrs p := by
  cases p with
  | nil => exact .inl rfl
  | cons f p =>
      refine .inr ?_
      rw [(pathAddrs_cons_perm f p).mem_iff]
      exact List.mem_cons_self

/-- **The pointer to the place is replaced.** -/
theorem LinkedPath.setptr {h : Heap E} {p : Path (Cell E)} {a : ℕ}
    (hp : LinkedPath h.node p a) (hnd : (pathAddrs p).Nodup)
    (hfake : fakeAddr ∉ pathAddrs p) (b : ℕ) :
    ∃ h', rbtNodeSetptr h (slot p).1 (slot p).2 b = some h' ∧ LinkedPath h'.node p b ∧
      ChangedOn [(slot p).1] h h' := by
  cases p with
  | nil =>
      obtain ⟨h', he, hn, hc⟩ := setptr_spec hp b
      exact ⟨h', he, hn, hc⟩
  | cons f p =>
      obtain ⟨hn, hu, hp⟩ := hp
      obtain ⟨h', he, hn', hc⟩ := setptr_spec hn b
      rw [(pathAddrs_cons_perm f p).nodup_iff, List.nodup_cons, List.mem_append] at hnd
      rw [(pathAddrs_cons_perm f p).mem_iff, List.mem_cons, List.mem_append] at hfake
      simp only [not_or] at hnd hfake
      refine ⟨h', he, ⟨hn', hu.congr fun a ha => hc.node a ?_, hp.congr (hc.node _ ?_)
        fun a ha => hc.node a ?_⟩, hc⟩
      · rintro hm
        obtain rfl : a = f.elem.addr := by simpa using hm
        exact hnd.1.1 ha
      · simpa using hfake.1
      · rintro hm
        obtain rfl : a = f.elem.addr := by simpa using hm
        exact hnd.1.2 ha

section Place

variable {h : Heap E} {p : Path (Cell E)} {t : ColorTree (Cell E)}

/-- The tree at the place and the path are linked. -/
theorem Holds.place (hh : Holds h (plug p t)) :
    Linked h.node t ∧ LinkedPath h.node p (ptr t) :=
  linked_plug.mp ⟨hh.linked, hh.root⟩

theorem Holds.fake_notMem (hh : Holds h t) : fakeAddr ∉ addrs t := fun ha =>
  Nat.lt_irrefl _ (hh.range _ ha).1

theorem Holds.ne_zero (hh : Holds h t) {a : ℕ} (ha : a ∈ addrs t) : a ≠ 0 := by
  have := (hh.range a ha).1
  omega

/-- **A subtree that was changed in place**, under the same root. -/
theorem Holds.splice {h' : Heap E} {t' : ColorTree (Cell E)} (hh : Holds h (plug p t))
    (ht : Linked h'.node t') (hptr : ptr t' = ptr t) (he : t'.elems = t.elems)
    (hc : ChangedOn (addrs t) h h') : Holds h' (plug p t') := by
  obtain ⟨-, hp⟩ := hh.place
  obtain ⟨-, -, hdis⟩ := nodup_addrs_plug.mp hh.nodup
  have hes : (plug p t').elems = (plug p t).elems := by
    rw [elems_plug, elems_plug, he]
  have hfake : fakeAddr ∉ addrs t := fun ha => hh.fake_notMem (mem_addrs_plug.mpr (.inl ha))
  have hp' : LinkedPath h'.node p (ptr t') := hptr ▸ hp.congr (hc.node _ hfake)
    fun a ha => hc.node a fun hm => hdis a hm ha
  obtain ⟨hl, hr⟩ := linked_plug.mpr ⟨ht, hp'⟩
  refine ⟨hl, hr, ?_, fun x hx => ?_, fun a ha => ?_, hc.brk ▸ hh.fake_lt⟩
  · rw [addrs, hes]
    exact hh.nodup
  · rw [hc.entry]
    exact hh.entries x (hes ▸ hx)
  · rw [addrs, hes] at ha
    rw [hc.brk]
    exact hh.range a ha

/-- **A subtree that was changed in place**, under a new root that is linked to the node
above. Elements may be gone. -/
theorem Holds.splice_setptr {h' : Heap E} {t' : ColorTree (Cell E)} (hh : Holds h (plug p t))
    (ht : Linked h'.node t') (he : t'.elems.Sublist t.elems)
    (hc : ChangedOn (addrs t) h h') :
    ∃ h'', rbtNodeSetptr h' (slot p).1 (slot p).2 (ptr t') = some h'' ∧
      Holds h'' (plug p t') := by
  obtain ⟨-, hp⟩ := hh.place
  obtain ⟨-, hnd, hdis⟩ := nodup_addrs_plug.mp hh.nodup
  have hes : (plug p t').elems.Sublist (plug p t).elems := by
    rw [elems_plug, elems_plug]
    exact (he.append_left _).append_right _
  have hfake : ∀ a, a ∈ addrs t ∨ a ∈ pathAddrs p → fakeAddr ≠ a := fun a ha he =>
    hh.fake_notMem (mem_addrs_plug.mpr (he ▸ ha))
  obtain ⟨h'', hs, hp'', hc'⟩ := (hp.congr (hc.node _ fun ha => hfake _ (.inl ha) rfl)
    fun a ha => hc.node a fun hm => hdis a hm ha).setptr hnd
    (fun ha => hfake _ (.inr ha) rfl) (ptr t')
  have ht'' : Linked h''.node t' := ht.congr fun a ha => hc'.node a fun hm => by
    have ha' : a ∈ addrs t := (he.map _).subset ha
    obtain rfl : a = (slot p).1 := by simpa using hm
    obtain hf | hs := slot_mem p
    · exact hfake _ (.inl ha') hf.symm
    · exact hdis _ ha' hs
  obtain ⟨hl, hr⟩ := linked_plug.mpr ⟨ht'', hp''⟩
  have hbrk : h''.brk = h.brk := hc'.brk.trans hc.brk
  refine ⟨h'', hs, hl, hr, hh.nodup.sublist (hes.map _), fun x hx => ?_, fun a ha => ?_,
    hbrk ▸ hh.fake_lt⟩
  · rw [hc'.entry, hc.entry]
    exact hh.entries x (hes.subset hx)
  · rw [hbrk]
    exact hh.range a ((hes.map _).subset ha)

/-- The colour of the tree at the place. -/
theorem Holds.getcolor (hh : Holds h (plug p t)) : rbtNodeGetcolor h (ptr t) = some t.color := by
  obtain ⟨ht, -⟩ := hh.place
  cases t with
  | nil => rfl
  | node c l x r => exact ht.1.getcolor (hh.ne_zero (mem_addrs_plug.mpr (.inl (by simp))))

/-- The colour of the node above the place. -/
theorem Holds.getcolor_slot (hh : Holds h (plug p t)) :
    rbtNodeGetcolor h (slot p).1 = some (topColor p) := by
  cases p with
  | nil => exact hh.root.getcolor (by simp [fakeAddr])
  | cons f p =>
      have h' : Holds h (plug p (f.fill t)) := hh
      simpa [Frame.fill, slot] using h'.getcolor

/-- The word that points to the place. -/
theorem Holds.chldPtr_slot (hh : Holds h (plug p t)) :
    chldPtr h (slot p).1 (slot p).2 = some (ptr t) := by
  obtain ⟨-, hp⟩ := hh.place
  cases p with
  | nil => exact hp.chldPtr
  | cons f p => exact hp.1.chldPtr

/-- A linked node, seen from either side. -/
theorem Linked.side {nodes : ℕ → Option RbtNode} {c : Color} {l r : ColorTree (Cell E)} {x : Cell E}
    (hl : Linked nodes (node c l x r)) (s : Side) :
    IsNode nodes x.addr s c (ptr ((node c l x r).child s)) (ptr ((node c l x r).child s.other)) ∧
      Linked nodes ((node c l x r).child s) := by
  obtain ⟨hn, h₁, h₂⟩ := hl
  cases s with
  | left => exact ⟨hn, h₁⟩
  | right => exact ⟨isNode_other.mpr hn, h₂⟩

/-- A child pointer of the node at the place. -/
theorem Holds.chldPtr {c : Color} {l r : ColorTree (Cell E)} {x : Cell E}
    (hh : Holds h (plug p (node c l x r))) (s : Side) :
    chldPtr h x.addr s = some (ptr ((node c l x r).child s)) :=
  (hh.place.1.side s).1.chldPtr

/-- The place one step further down. -/
theorem Holds.down {c : Color} {l r : ColorTree (Cell E)} {x : Cell E} {h : Heap E}
    {p : Path (Cell E)} (hh : Holds h (plug p (node c l x r))) (s : Side) :
    Holds h (plug (down s c l x r :: p) ((node c l x r).child s)) := by
  rwa [plug_down]

/-- The colour of a child. -/
theorem Holds.getcolor_child {c : Color} {l r : ColorTree (Cell E)} {x : Cell E} {h : Heap E}
    {p : Path (Cell E)} (hh : Holds h (plug p (node c l x r))) (s : Side) :
    rbtNodeGetcolor h (ptr ((node c l x r).child s)) = some ((node c l x r).child s).color := by
  exact (hh.down s).getcolor

/-- **The root of the tree at the place gets a colour.** -/
theorem Holds.setcolor (hh : Holds h (plug p t)) (c : Color) :
    ∃ h', rbtNodeSetcolor h (ptr t) c = some h' ∧ Holds h' (plug p (t.setColor c)) := by
  obtain ⟨ht, -⟩ := hh.place
  obtain ⟨hnd, -, -⟩ := nodup_addrs_plug.mp hh.nodup
  cases t with
  | nil => exact ⟨h, rfl, hh⟩
  | node c₀ l x r =>
      obtain ⟨hn, hl, hr⟩ := ht
      obtain ⟨h', he, hn', hc⟩ := setcolor_spec hn
        (hh.ne_zero (mem_addrs_plug.mpr (.inl (by simp)))) c
      simp only [addrs_node, List.nodup_append, List.nodup_cons, List.mem_cons] at hnd
      refine ⟨h', he, hh.splice ⟨hn', hl.congr fun a ha => hc.node a ?_,
        hr.congr fun a ha => hc.node a ?_⟩ rfl rfl (hc.mono (by simp))⟩
      · simpa using hnd.2.2 a ha x.addr (.inl rfl)
      · rintro hm
        obtain rfl : a = x.addr := by simpa using hm
        exact hnd.2.1.1 ha

end Place

/-- **Both children become black**, the left one first. -/
theorem Holds.blacken {c : Color} {l r : ColorTree (Cell E)} {x : Cell E} {h : Heap E}
    {p : Path (Cell E)} (hh : Holds h (plug p (node c l x r))) :
    ∃ h₁ h₂, Rbt.chldPtr h x.addr .left = some (ptr l) ∧
      rbtNodeSetcolor h (ptr l) .black = some h₁ ∧
      Rbt.chldPtr h₁ x.addr .right = some (ptr r) ∧
      rbtNodeSetcolor h₁ (ptr r) .black = some h₂ ∧
      Holds h₂ (plug p (node c (l.setColor .black) x (r.setColor .black))) := by
  obtain ⟨h₁, e₁, hh₁⟩ := (hh.down .left).setcolor .black
  have hh₁' : Holds h₁ (plug p (node c (l.setColor .black) x r)) := hh₁
  obtain ⟨h₂, e₂, hh₂⟩ := (hh₁'.down .right).setcolor .black
  exact ⟨h₁, h₂, hh.chldPtr .left, e₁, hh₁'.chldPtr .right, e₂, hh₂⟩

/-! ### The rotations -/

/-- A plain assignment to a child pointer; the colour may be lost with it. -/
theorem write_isNode {h : Heap E} {at' : ℕ} {s : Side} {c : Color} {a b : ℕ}
    (hn : IsNode h.node at' s c a b) (w : Word) :
    ∃ h' c', h.write at' s w = some h' ∧ IsNode h'.node at' s c' w.addr b ∧
      ChangedOn [at'] h h' := by
  obtain ⟨n, hn, -, -, hb⟩ := hn
  obtain ⟨h', hw, hn', hch⟩ := write_spec hn s w
  refine ⟨h', _, hw, ⟨_, hn', rfl, ?_⟩, hch⟩
  cases s
  · exact ⟨rfl, hb⟩
  · exact ⟨rfl, hb⟩


/-- The addresses of a join. -/
theorem addrs_join_perm (s : Side) (c : Color) (t : ColorTree (Cell E)) (x : Cell E)
    (u : ColorTree (Cell E)) :
    (addrs (join s c t x u)).Perm (x.addr :: (addrs t ++ addrs u)) := by
  cases s with
  | left =>
      rw [join_left, addrs_node]
      exact List.perm_middle
  | right =>
      rw [join_right, addrs_node]
      exact List.perm_middle.trans (List.perm_append_comm.cons _)

/-- Two nodes changed, and the trees below them did not. -/
theorem Linked.congr_off {nodes nodes' : ℕ → Option RbtNode} {t : ColorTree (Cell E)} {S : List ℕ}
    (h : Linked nodes t) (hc : ∀ a, a ∉ S → nodes' a = nodes a)
    (hS : ∀ b ∈ S, b ∉ addrs t) : Linked nodes' t :=
  h.congr fun a ha => hc a fun hm => hS a hm ha

/-- **A single rotation** lifts the child on the side `s` and makes it black, and its old
parent red. -/
theorem rotateSingle_spec {h : Heap E} {s : Side} {c cn : Color} {x y : Cell E}
    {a b d : ColorTree (Cell E)} (hl : Linked h.node (join s c (join s cn a y b) x d))
    (hnd : (addrs (join s c (join s cn a y b) x d)).Nodup)
    (h0 : 0 ∉ addrs (join s c (join s cn a y b) x d)) :
    ∃ h', rotateSingle s h x.addr = some (h', y.addr) ∧
      Linked h'.node (join s .black a y (join s .red b x d)) ∧
      ChangedOn (addrs (join s c (join s cn a y b) x d)) h h' := by
  have hperm : (addrs (join s c (join s cn a y b) x d)).Perm
      (x.addr :: y.addr :: (addrs a ++ addrs b ++ addrs d)) :=
    (addrs_join_perm ..).trans (((addrs_join_perm ..).append_right _).cons _)
  rw [hperm.nodup_iff] at hnd
  rw [hperm.mem_iff] at h0
  simp only [List.nodup_cons, List.mem_cons, List.mem_append, not_or] at hnd h0
  obtain ⟨⟨hxy, ⟨hxa, hxb⟩, hxd⟩, ⟨⟨hya, hyb⟩, hyd⟩, -⟩ := hnd
  obtain ⟨hx0, hy0, -⟩ := h0
  obtain ⟨hx, hin, hd⟩ := linked_join.mp hl
  obtain ⟨hy, ha, hb⟩ := linked_join.mp hin
  rw [ptr_join] at hx
  have hry := hy
  obtain ⟨ny, hny, -, -, hnb⟩ := hry
  obtain ⟨h₁, c₁, e₁, hx₁, k₁⟩ := write_isNode hx (ny.chld s.other)
  rw [hnb] at hx₁
  have hy₁ := hy.congr (k₁.node y.addr (by simpa using Ne.symm hxy))
  obtain ⟨h₂, c₂, e₂, hy₂, k₂⟩ := write_isNode (isNode_other.mpr hy₁) ⟨x.addr, .black⟩
  have hx₂ := hx₁.congr (k₂.node x.addr (by simpa using hxy))
  obtain ⟨h₃, e₃, hy₃, k₃⟩ := setcolor_spec (isNode_other.mp hy₂) (Ne.symm hy0) .black
  have hx₃ := hx₂.congr (k₃.node x.addr (by simpa using hxy))
  obtain ⟨h₄, e₄, hx₄, k₄⟩ := setcolor_spec hx₃ (Ne.symm hx0) .red
  have hy₄ := hy₃.congr (k₄.node y.addr (by simpa using Ne.symm hxy))
  have hk : ChangedOn [x.addr, y.addr] h h₄ :=
    (((k₁.mono (by simp)).trans (k₂.mono (by simp))).trans (k₃.mono (by simp))).trans
      (k₄.mono (by simp))
  have hoff : ∀ {t : ColorTree (Cell E)}, Linked h.node t → x.addr ∉ addrs t → y.addr ∉ addrs t →
      Linked h₄.node t := fun ht h₁ h₂ => ht.congr_off hk.node (by simp [h₁, h₂])
  refine ⟨h₄, ?_, linked_join.mpr ⟨?_, hoff ha hxa hya, linked_join.mpr ⟨hx₄, hoff hb hxb hyb,
    hoff hd hxd hyd⟩⟩, hk.mono fun q hq => ?_⟩
  · simp only [rotateSingle, hx.chldPtr, hny, e₁, e₂, e₃, e₄, Option.bind_eq_bind,
      Option.bind_some, Option.pure_def]
  · rw [ptr_join]
    exact hy₄
  · rw [hperm.mem_iff]
    obtain rfl | rfl := by simpa using hq
    · simp
    · simp

/-- What the assignments of a double rotation have in common. -/
def PutSpec (put : Heap E → ℕ → Side → Word → Option (Heap E)) : Prop :=
  ∀ {h : Heap E} {at' : ℕ} {s : Side} {c : Color} {a b : ℕ}, IsNode h.node at' s c a b →
    ∀ w : Word, ∃ h' c', put h at' s w = some h' ∧ IsNode h'.node at' s c' w.addr b ∧
      ChangedOn [at'] h h'

theorem write_put : PutSpec (E := E) Heap.write := fun hn w => write_isNode hn w

theorem putPtr_put : PutSpec (E := E) putPtr := fun hn w => by
  obtain ⟨h', he, hn', hc⟩ := setptr_spec hn w.addr
  exact ⟨h', _, he, hn', hc⟩

/-- The children of a node are made red, and the node black. -/
theorem recolorTop_spec {h : Heap E} {n a b a₁ a₂ b₁ b₂ : ℕ} {c ca cb : Color} {sa sb : Side}
    (hn : IsNode h.node n .left c a b) (ha : IsNode h.node a sa ca a₁ a₂)
    (hb : IsNode h.node b sb cb b₁ b₂) (hna : n ≠ a) (hnb : n ≠ b) (hab : a ≠ b)
    (h0 : n ≠ 0 ∧ a ≠ 0 ∧ b ≠ 0) :
    ∃ h', recolorTop h n = some h' ∧ IsNode h'.node n .left .black a b ∧
      IsNode h'.node a sa .red a₁ a₂ ∧ IsNode h'.node b sb .red b₁ b₂ ∧
      ChangedOn [n, a, b] h h' := by
  have hr : IsNode h.node n .right c b a := isNode_other.mpr hn
  obtain ⟨h₁, e₁, hb₁, k₁⟩ := setcolor_spec hb h0.2.2 .red
  have hn₁ := hn.congr (k₁.node n (by simpa using hnb))
  have ha₁ := ha.congr (k₁.node a (by simpa using hab))
  obtain ⟨h₂, e₂, ha₂, k₂⟩ := setcolor_spec ha₁ h0.2.1 .red
  have hn₂ := hn₁.congr (k₂.node n (by simpa using hna))
  have hb₂ := hb₁.congr (k₂.node b (by simpa using hab.symm))
  obtain ⟨h₃, e₃, hn₃, k₃⟩ := setcolor_spec hn₂ h0.1 .black
  refine ⟨h₃, ?_, hn₃, ha₂.congr (k₃.node a (by simpa using hna.symm)),
    hb₂.congr (k₃.node b (by simpa using hnb.symm)),
    ((k₁.mono (by simp)).trans (k₂.mono (by simp))).trans (k₃.mono (by simp))⟩
  simp only [recolorTop, hr.chldPtr, hn₁.chldPtr, e₁, e₂, e₃, Option.bind_eq_bind, Option.bind_some]

/-- **A double rotation** lifts the inner grandchild and makes it black, and the two nodes
that were above it red. -/
theorem rotateDouble_spec {put₁ put₂ : Heap E → ℕ → Side → Word → Option (Heap E)}
    (hput₁ : PutSpec put₁) (hput₂ : PutSpec put₂) {h : Heap E} {s : Side} {co cc cn : Color}
    {x y w : Cell E} {a b d e : ColorTree (Cell E)}
    (hl : Linked h.node (join s co (join s.other cc (join s cn a w b) y e) x d))
    (hnd : (addrs (join s co (join s.other cc (join s cn a w b) y e) x d)).Nodup)
    (h0 : 0 ∉ addrs (join s co (join s.other cc (join s cn a w b) y e) x d)) :
    ∃ h', rotateDouble put₁ put₂ s h x.addr = some (h', w.addr) ∧
      Linked h'.node (join s .black (join s .red e y a) w (join s .red b x d)) ∧
      ChangedOn (addrs (join s co (join s.other cc (join s cn a w b) y e) x d)) h h' := by
  have hperm : (addrs (join s co (join s.other cc (join s cn a w b) y e) x d)).Perm
      (x.addr :: y.addr :: w.addr :: (addrs a ++ addrs b ++ addrs e ++ addrs d)) :=
    (addrs_join_perm ..).trans (((addrs_join_perm ..).trans
      (((addrs_join_perm ..).append_right _).cons _) |>.append_right _).cons _)
  rw [hperm.nodup_iff] at hnd
  rw [hperm.mem_iff] at h0
  simp only [List.nodup_cons, List.mem_cons, List.mem_append, not_or] at hnd h0
  obtain ⟨⟨hxy, hxw, ⟨⟨hxa, hxb⟩, hxe⟩, hxd⟩, ⟨hyw, ⟨⟨hya, hyb⟩, hye⟩, hyd⟩,
    ⟨⟨⟨hwa, hwb⟩, hwe⟩, hwd⟩, -⟩ := hnd
  obtain ⟨hx0, hy0, hw0, -⟩ := h0
  obtain ⟨hx, hin, hd⟩ := linked_join.mp hl
  obtain ⟨hy, hin, he⟩ := linked_join.mp hin
  obtain ⟨hw, ha, hb⟩ := linked_join.mp hin
  rw [ptr_join] at hx hy
  have hrw := hw
  obtain ⟨nw, hnw, -, hnwa, -⟩ := hrw
  -- the grandchild's subtree on the side of its parent
  obtain ⟨h₁, c₁, e₁, hy₁, k₁⟩ := hput₁ hy (nw.chld s)
  rw [hnwa] at hy₁
  have hx₁ := hx.congr (k₁.node x.addr (by simpa using hxy))
  have hw₁ := hw.congr (k₁.node w.addr (by simpa using Ne.symm hyw))
  have hrx := hx₁
  obtain ⟨nx, hnx, -, hnxy, -⟩ := hrx
  -- the parent below the grandchild
  obtain ⟨h₂, c₂, e₂, hw₂, k₂⟩ := write_isNode hw₁ (nx.chld s)
  rw [hnxy] at hw₂
  have hx₂ := hx₁.congr (k₂.node x.addr (by simpa using hxw))
  have hy₂ := hy₁.congr (k₂.node y.addr (by simpa using hyw))
  have hrw₂ := hw₂
  obtain ⟨nw₂, hnw₂, -, -, hnwb⟩ := hrw₂
  -- the grandchild's other subtree
  obtain ⟨h₃, c₃, e₃, hx₃, k₃⟩ := hput₂ hx₂ (nw₂.chld s.other)
  rw [hnwb] at hx₃
  have hy₃ := hy₂.congr (k₃.node y.addr (by simpa using Ne.symm hxy))
  have hw₃ := hw₂.congr (k₃.node w.addr (by simpa using Ne.symm hxw))
  -- the grandparent below the grandchild
  obtain ⟨h₄, c₄, e₄, hw₄, k₄⟩ := write_isNode (isNode_other.mpr hw₃) ⟨x.addr, .black⟩
  have hx₄ := hx₃.congr (k₄.node x.addr (by simpa using hxw))
  have hy₄ := hy₃.congr (k₄.node y.addr (by simpa using hyw))
  obtain ⟨h₅, e₅, hw₅, hx₅, hy₅, k₅⟩ : ∃ h', recolorTop h₄ w.addr = some h' ∧
      IsNode h'.node w.addr s .black y.addr x.addr ∧
      IsNode h'.node x.addr s .red (ptr b) (ptr d) ∧
      IsNode h'.node y.addr s.other .red (ptr a) (ptr e) ∧
      ChangedOn [x.addr, y.addr, w.addr] h₄ h' := by
    cases s with
    | left =>
        obtain ⟨h₅, e₅, hw₅, hy₅, hx₅, k₅⟩ := recolorTop_spec (isNode_other.mp hw₄) hy₄ hx₄
          (Ne.symm hyw) (Ne.symm hxw) (Ne.symm hxy) ⟨Ne.symm hw0, Ne.symm hy0, Ne.symm hx0⟩
        exact ⟨h₅, e₅, hw₅, hx₅, hy₅, k₅.mono (by simp)⟩
    | right =>
        obtain ⟨h₅, e₅, hw₅, hx₅, hy₅, k₅⟩ := recolorTop_spec hw₄ hx₄ hy₄
          (Ne.symm hxw) (Ne.symm hyw) hxy ⟨Ne.symm hw0, Ne.symm hx0, Ne.symm hy0⟩
        exact ⟨h₅, e₅, isNode_other.mp hw₅, hx₅, hy₅, k₅.mono (by simp)⟩
  have hk : ChangedOn [x.addr, y.addr, w.addr] h h₅ :=
    ((((k₁.mono (by simp)).trans (k₂.mono (by simp))).trans (k₃.mono (by simp))).trans
      (k₄.mono (by simp))).trans k₅
  have hoff : ∀ {t : ColorTree (Cell E)}, Linked h.node t → x.addr ∉ addrs t → y.addr ∉ addrs t →
      w.addr ∉ addrs t → Linked h₅.node t :=
    fun ht h₁ h₂ h₃ => ht.congr_off hk.node (by simp [h₁, h₂, h₃])
  refine ⟨h₅, ?_, linked_join.mpr ⟨?_, linked_join.mpr ⟨isNode_other.mp hy₅,
    hoff he hxe hye hwe, hoff ha hxa hya hwa⟩, linked_join.mpr ⟨hx₅, hoff hb hxb hyb hwb,
    hoff hd hxd hyd hwd⟩⟩, hk.mono fun q hq => ?_⟩
  · simp only [rotateDouble, hx.chldPtr, hy.chldPtr, hnw, hnx, hnw₂, e₁, e₂, e₃, e₄, e₅,
      Option.bind_eq_bind, Option.bind_some, Option.pure_def]
  · rw [ptr_join, ptr_join]
    exact hw₅
  · rw [hperm.mem_iff]
    obtain rfl | rfl | rfl := by simpa using hq
    · simp
    · simp
    · simp

section Place

variable {h : Heap E} {p : Path (Cell E)}

/-- **A single rotation at the place**, linked to the node above. -/
theorem Holds.rotateSingle {s : Side} {c cn : Color} {x y : Cell E} {a b d : ColorTree (Cell E)}
    (hh : Holds h (plug p (join s c (join s cn a y b) x d))) :
    ∃ h' h'', Rbt.rotateSingle s h x.addr = some (h', y.addr) ∧
      rbtNodeSetptr h' (slot p).1 (slot p).2 y.addr = some h'' ∧
      Holds h'' (plug p (join s .black a y (join s .red b x d))) := by
  obtain ⟨hnd, -, -⟩ := nodup_addrs_plug.mp hh.nodup
  obtain ⟨h', he, hl, hc⟩ := rotateSingle_spec hh.place.1 hnd
    fun h0 => hh.ne_zero (mem_addrs_plug.mpr (.inl h0)) rfl
  obtain ⟨h'', hs, hh''⟩ := hh.splice_setptr hl (by cases s <;> simp) hc
  rw [ptr_join] at hs
  exact ⟨h', h'', he, hs, hh''⟩

/-- **A double rotation at the place**, linked to the node above. -/
theorem Holds.rotateDouble {put₁ put₂ : Heap E → ℕ → Side → Word → Option (Heap E)}
    (hput₁ : PutSpec put₁) (hput₂ : PutSpec put₂) {s : Side} {co cc cn : Color}
    {x y w : Cell E} {a b d e : ColorTree (Cell E)}
    (hh : Holds h (plug p (join s co (join s.other cc (join s cn a w b) y e) x d))) :
    ∃ h' h'', Rbt.rotateDouble put₁ put₂ s h x.addr = some (h', w.addr) ∧
      rbtNodeSetptr h' (slot p).1 (slot p).2 w.addr = some h'' ∧
      Holds h'' (plug p (join s .black (join s .red e y a) w (join s .red b x d))) := by
  obtain ⟨hnd, -, -⟩ := nodup_addrs_plug.mp hh.nodup
  obtain ⟨h', he, hl, hc⟩ := rotateDouble_spec hput₁ hput₂ hh.place.1 hnd
    fun h0 => hh.ne_zero (mem_addrs_plug.mpr (.inl h0)) rfl
  obtain ⟨h'', hs, hh''⟩ := hh.splice_setptr hl (by cases s <;> simp) hc
  rw [ptr_join] at hs
  exact ⟨h', h'', he, hs, hh''⟩

end Place

/-! ### The node above the place and its other child -/

section Above

variable {h : Heap E} {p : Path (Cell E)} {t : ColorTree (Cell E)}

/-- The place of the sibling. -/
theorem Holds.sibling {s : Side} {c : Color} {x : Cell E} {u : ColorTree (Cell E)}
    (hh : Holds h (plug (⟨s, c, x, u⟩ :: p) t)) :
    Holds h (plug (⟨s.other, c, x, t⟩ :: p) u) := by
  rw [plug_cons, Frame.fill, join_other]
  exact hh

/-- The pointer to the sibling. -/
theorem Holds.chldPtr_sibling {s : Side} {c : Color} {x : Cell E} {u : ColorTree (Cell E)}
    (hh : Holds h (plug (⟨s, c, x, u⟩ :: p) t)) :
    Rbt.chldPtr h x.addr s.other = some (ptr u) :=
  hh.sibling.chldPtr_slot

/-- The root of a tree that is not empty has an address of the tree. -/
theorem ptr_mem_addrs (ht : t ≠ nil) : ptr t ∈ addrs t := by
  cases t with
  | nil => exact absurd rfl ht
  | node => simp

/-- **Which side the place is on** shows in the right child pointer of the node above. -/
theorem Holds.slot_right (hh : Holds h (plug p t)) (ht : t ≠ nil) :
    ∃ a, Rbt.chldPtr h (slot p).1 .right = some a ∧
      (if a = ptr t then .right else .left) = (slot p).2 := by
  cases p with
  | nil => exact ⟨_, hh.chldPtr_slot, if_pos rfl⟩
  | cons f p =>
      obtain ⟨s, c, x, u⟩ := f
      cases s with
      | right => exact ⟨_, hh.chldPtr_slot, if_pos rfl⟩
      | left =>
          refine ⟨_, hh.chldPtr_sibling, if_neg fun he => ?_⟩
          obtain ⟨-, -, hdis⟩ := nodup_addrs_plug.mp hh.nodup
          have hpt := ptr_mem_addrs ht
          cases u with
          | nil => exact hh.ne_zero (mem_addrs_plug.mpr (.inl hpt)) he.symm
          | node cu l y r =>
              refine hdis _ hpt ?_
              rw [(pathAddrs_cons_perm _ p).mem_iff, ← he]
              simp

end Above

/-! ### Objects put in, changed and taken out -/

section Objects

variable {h : Heap E} {p : Path (Cell E)}

/-- **A new node** is put into an empty place. -/
theorem Holds.alloc (hh : Holds h (plug p nil)) (e : E) :
    ∃ h', rbtNodeSetptr (h.alloc e).1 (slot p).1 (slot p).2 h.brk = some h' ∧
      Holds h' (plug p (node .black nil ⟨h.brk, e⟩ nil)) := by
  obtain ⟨-, hp⟩ := hh.place
  obtain ⟨-, hnd, -⟩ := nodup_addrs_plug.mp hh.nodup
  have hlt : ∀ a ∈ pathAddrs p, fakeAddr < a ∧ a < h.brk :=
    fun a ha => hh.range a (mem_addrs_plug.mpr (.inr ha))
  have hne : ∀ a, a ≠ h.brk → (h.alloc e).1.node a = h.node a :=
    fun a ha => Function.update_of_ne ha ..
  have hp' : LinkedPath (h.alloc e).1.node p 0 := hp.congr
    (hne _ (Nat.ne_of_lt hh.fake_lt)) fun a ha => hne a (Nat.ne_of_lt (hlt a ha).2)
  obtain ⟨h', hs, hp'', hc⟩ := hp'.setptr hnd
    (fun hf => Nat.lt_irrefl _ (hlt _ hf).1) h.brk
  have hslot : h.brk ∉ [(slot p).1] := by
    rw [List.mem_singleton]
    obtain hf | hm := slot_mem p
    · rw [hf]
      exact (Nat.ne_of_lt hh.fake_lt).symm
    · exact (Nat.ne_of_lt (hlt _ hm).2).symm
  have hn : IsNode h'.node h.brk .left .black 0 0 := by
    refine ⟨⟨⟨0, .black⟩, ⟨0, .black⟩⟩, ?_, rfl, rfl, rfl⟩
    rw [hc.node _ hslot]
    exact Function.update_self ..
  have ht : Linked h'.node (node .black nil ⟨h.brk, e⟩ nil) := ⟨hn, trivial, trivial⟩
  obtain ⟨hl, hr⟩ := linked_plug.mpr ⟨ht, (hp'' : LinkedPath h'.node p h.brk)⟩
  have hbrk : h'.brk = h.brk + 1 := hc.brk
  refine ⟨h', hs, hl, hr, nodup_addrs_plug.mpr ⟨by simp, hnd, ?_⟩, fun x hx => ?_,
    fun a ha => ?_, by rw [hbrk]; exact Nat.lt_succ_of_lt hh.fake_lt⟩
  · intro a ha hm
    obtain rfl : a = h.brk := by simpa using ha
    exact Nat.lt_irrefl _ (hlt _ hm).2
  · rw [hc.entry]
    simp only [elems_plug, elems_node, elems_nil, List.nil_append, List.mem_append,
      List.mem_singleton] at hx
    have hold : ∀ y ∈ (plug p nil).elems, (h.alloc e).1.entry y.addr = some y.entry := by
      intro y hy
      have hb := (hh.range _ (List.mem_map_of_mem hy)).2
      rw [← hh.entries y hy]
      exact Function.update_of_ne (Nat.ne_of_lt hb) ..
    obtain (hx | rfl) | hx := hx
    · exact hold x (by simp [elems_plug, hx])
    · exact Function.update_self ..
    · exact hold x (by simp [elems_plug, hx])
  · rw [hbrk]
    obtain ha | ha := mem_addrs_plug.mp ha
    · obtain rfl : a = h.brk := by simpa using ha
      exact ⟨hh.fake_lt, Nat.lt_succ_self _⟩
    · exact ⟨(hlt a ha).1, Nat.lt_succ_of_lt (hlt a ha).2⟩

/-- **The object behind a node** is changed. -/
theorem Holds.setEntry {c : Color} {l r : ColorTree (Cell E)} {x : Cell E}
    (hh : Holds h (plug p (node c l x r))) (e : E) :
    Holds (h.setEntry x.addr e) (plug p (node c l ⟨x.addr, e⟩ r)) := by
  obtain ⟨ht, hp⟩ := hh.place
  have ht' : Linked h.node (node c l ⟨x.addr, e⟩ r) := ht
  obtain ⟨hl, hr⟩ := linked_plug.mpr ⟨ht', (hp : LinkedPath h.node p x.addr)⟩
  have haddrs : addrs (plug p (node c l ⟨x.addr, e⟩ r)) = addrs (plug p (node c l x r)) := by
    simp [addrs, elems_plug]
  refine ⟨hl, hr, haddrs ▸ hh.nodup, fun y hy => ?_, haddrs ▸ hh.range, hh.fake_lt⟩
  obtain ⟨hnd, -, hdis⟩ := nodup_addrs_plug.mp hh.nodup
  simp only [addrs_node, List.nodup_append, List.nodup_cons, List.mem_cons] at hnd
  have hpath : x.addr ∉ pathAddrs p := hdis _ (by simp)
  have hold : ∀ z ∈ (plug p (node c l x r)).elems, z.addr ≠ x.addr →
      (h.setEntry x.addr e).entry z.addr = some z.entry := by
    intro z hz hne
    rw [← hh.entries z hz]
    exact Function.update_of_ne hne ..
  have hne : ∀ z, z ∈ before p ∨ z ∈ l.elems ∨ z ∈ r.elems ∨ z ∈ after p →
      z.addr ≠ x.addr := by
    rintro z (hz | hz | hz | hz) he
    · exact hpath (he ▸ List.mem_map_of_mem (List.mem_append_left _ hz))
    · exact hnd.2.2 z.addr (List.mem_map_of_mem hz) x.addr (.inl rfl) he
    · exact hnd.2.1.1 (he ▸ List.mem_map_of_mem hz)
    · exact hpath (he ▸ List.mem_map_of_mem (List.mem_append_right _ hz))
  simp only [elems_plug, elems_node, List.mem_append, List.mem_cons] at hy hold
  obtain (hy | hy | rfl | hy) | hy := hy
  · exact hold y (.inl (.inl hy)) (hne y (.inl hy))
  · exact hold y (.inl (.inr (.inl hy))) (hne y (.inr (.inl hy)))
  · exact Function.update_self ..
  · exact hold y (.inl (.inr (.inr (.inr hy)))) (hne y (.inr (.inr (.inl hy))))
  · exact hold y (.inr hy) (hne y (.inr (.inr (.inr hy))))

/-- Freeing an object that is not in the tree. -/
theorem Holds.free {t : ColorTree (Cell E)} (hh : Holds h t) {a : ℕ} (ha : a ∉ addrs t)
    (hf : a ≠ fakeAddr) : Holds (h.free a) t := by
  have hnode : ∀ b, b ≠ a → (h.free a).node b = h.node b :=
    fun b hb => Function.update_of_ne hb ..
  refine ⟨hh.linked.congr fun b hb => hnode b fun he => ha (he ▸ hb),
    IsNode.congr hh.root (hnode _ hf.symm), hh.nodup, fun x hx => ?_, hh.range, hh.fake_lt⟩
  rw [← hh.entries x hx]
  exact Function.update_of_ne (fun he : x.addr = a => ha (he ▸ List.mem_map_of_mem hx)) ..

/-- **A leaf is taken out.** -/
theorem Holds.remove {c : Color} {x : Cell E} (hh : Holds h (plug p (node c nil x nil))) :
    ∃ h', rbtNodeSetptr h (slot p).1 (slot p).2 0 = some h' ∧
      Holds (h'.free x.addr) (plug p nil) := by
  have hnil : Linked h.node (nil : ColorTree (Cell E)) := trivial
  obtain ⟨h', hs, hh'⟩ := hh.splice_setptr hnil (List.nil_sublist _) (.refl _ h)
  obtain ⟨-, -, hdis⟩ := nodup_addrs_plug.mp hh.nodup
  have hx : x.addr ∈ addrs (plug p (node c nil x nil)) := mem_addrs_plug.mpr (.inl (by simp))
  refine ⟨h', hs, hh'.free (fun ha => ?_) fun he => hh.fake_notMem (he ▸ hx)⟩
  obtain ha | ha := mem_addrs_plug.mp ha
  · simp at ha
  · exact hdis x.addr (by simp) ha

end Objects

end OpenScap.Rbt
