import OpenScap.RbtCommon
import Mathlib.Data.Int.Order.Basic
import Mathlib.Order.Basic

/-!
# The tree of 32-bit keys

`rbt_i32.c`: insertion, deletion and search in a red-black tree whose keys are 32-bit
integers, over the memory of `rbt_common.h`. The history `h` of the last nodes passed holds
their addresses; the direction vector `dvec` is eight bits, of which the lowest three are
read. The locks are left out: every operation holds its lock throughout.

A loop of the source has a bound on its steps here, which is one more than the number of
nodes; that the bound is never reached is part of what is proved about each operation.

## Main results

* `Represents.enter`, `leave_spec` — an operation starts with the fake node above the root
  and ends with a black root;
* `rbtI32Get_spec` — the search finds the key's element.
-/

namespace OpenScap.Rbt

open RedBlack RedBlack.ColorTree

/-! ### The operations -/

/-- `int32_t`. -/
structure I32 where
  val : ℤ
  property : -2147483648 ≤ val ∧ val ≤ 2147483647

theorem I32.val_injective : Function.Injective I32.val := by
  rintro ⟨a, ha⟩ ⟨b, hb⟩ h
  cases h
  rfl

instance : LinearOrder I32 := @LinearOrder.lift' I32 ℤ Int.instLinearOrder I32.val I32.val_injective

/-- `struct rbt_i32_node`. -/
structure RbtI32Node (V : Type) where
  key : I32
  data : V
  deriving DecidableEq

/-- `struct rbt`, with the memory that holds its nodes; the lowest bit of the root pointer
is never read. -/
structure RbtT (V : Type) where
  heap : Heap (RbtI32Node V)
  root : ℕ
  size : ℕ

variable {V : Type}

/-- `rbt_i32_new`. -/
def rbtI32New : RbtT V := ⟨⟨fun _ => none, fun _ => none, fakeAddr + 1⟩, 0, 0⟩

/-- The history of the nodes passed. -/
structure Hist where
  h0 : ℕ
  h1 : ℕ
  h2 : ℕ
  h3 : ℕ

/-- `rbt_hpush4`. -/
def Hist.push (h : Hist) (p : ℕ) : Hist := ⟨p, h.h0, h.h1, h.h2⟩

/-- `RBT_NODE_SL` and `RBT_NODE_SR`, from the lowest bit. -/
def sideOf (d : ℕ) : Side := if d % 2 = 0 then .left else .right

/-- `(dvec << 1) | RBT_NODE_SL` and `(dvec << 1) | RBT_NODE_SR` for an `uint8_t`. -/
def dpush (dvec : ℕ) : Side → ℕ
  | .left => dvec * 2 % 256
  | .right => (dvec * 2 + 1) % 256

/-- What an operation answers: its return value, and what it stored through its pointer
argument. -/
structure Reply (V : Type) where
  ret : ℤ
  out : Option V
  deriving DecidableEq

/-- The start of an operation: the fake node above the root. -/
def enter (rbt : RbtT V) : Heap (RbtI32Node V) :=
  rbt.heap.newNode fakeAddr ⟨⟨0, .black⟩, ⟨rbt.root, .black⟩⟩

/-- The end of an operation: the root is read from the fake node and made black. -/
def leave (h : Heap (RbtI32Node V)) (size : ℕ) : Option (RbtT V) := do
  let root ← chldPtr h fakeAddr .right
  let h ← rbtNodeSetcolor h root .black
  return ⟨{ h with node := Function.update h.node fakeAddr none }, root, size⟩

/-- `rbt_redfix`, for the pointer `_chld[(dvec >> 2) & 1]` of the third node back. -/
def rbtRedfix (h : Heap (RbtI32Node V)) (hist : Hist) (dvec : ℕ) :
    Option (Heap (RbtI32Node V)) := do
  let (h, n) ←
    if dvec % 4 < 2 then
      if dvec % 4 = 0 then rbtNodeRotateR h hist.h2 else rbtNodeRotateRL h hist.h2
    else
      if dvec % 4 = 2 then rbtNodeRotateLR h hist.h2 else rbtNodeRotateL h hist.h2
  rbtNodeSetptr h hist.h3 (sideOf (dvec / 4)) n

/-- The color switch of `rbt_i32_add` at a node, and the red fixes. -/
def addSwitch (h : Heap (RbtI32Node V)) (hist : Hist) (dvec : ℕ) :
    Option (Heap (RbtI32Node V)) := do
  let c0 ← rbtNodeGetcolor h (← chldPtr h hist.h0 .left)
  let c1 ← rbtNodeGetcolor h (← chldPtr h hist.h0 .right)
  if c0 = .red ∧ c1 = .red then
    let h ← rbtNodeSetcolor h hist.h0 .red
    let h ← rbtNodeSetcolor h (← chldPtr h hist.h0 .left) .black
    let h ← rbtNodeSetcolor h (← chldPtr h hist.h0 .right) .black
    if (← rbtNodeGetcolor h hist.h1) = .red then rbtRedfix h hist dvec else return h
  else if (← rbtNodeGetcolor h hist.h0) = .red ∧ (← rbtNodeGetcolor h hist.h1) = .red then
    rbtRedfix h hist dvec
  else return h

/-- The new node of `rbt_i32_add` below the last node passed. -/
def addNode (key : I32) (data : V) (h : Heap (RbtI32Node V)) (hist : Hist) (dvec : ℕ) :
    Option (Heap (RbtI32Node V)) := do
  let n := (h.alloc ⟨key, data⟩).2
  let h ← rbtNodeSetptr (h.alloc ⟨key, data⟩).1 hist.h1 (sideOf dvec) n
  let h ← rbtNodeSetcolor h n .red
  if (← rbtNodeGetcolor h hist.h1) = .red then rbtRedfix h { hist with h0 := n } dvec
  else return h

/-- The loop of `rbt_i32_add`: the memory, and the address of a node with the same key. -/
def addLoop (key : I32) (data : V) :
    ℕ → Heap (RbtI32Node V) → Hist → ℕ → Option (Heap (RbtI32Node V) × Option ℕ)
  | 0, _, _, _ => none
  | fuel + 1, h, hist, dvec =>
      if hist.h0 = 0 then do
        let h ← addNode key data h hist dvec
        return (h, none)
      else do
        let h ← addSwitch h hist dvec
        let n ← h.entry hist.h0
        if key < n.key then
          addLoop key data fuel h (hist.push (← chldPtr h hist.h0 .left)) (dpush dvec .left)
        else if n.key < key then
          addLoop key data fuel h (hist.push (← chldPtr h hist.h0 .right)) (dpush dvec .right)
        else return (h, some hist.h0)

/-- `rbt_i32_add`; `coll` says whether the collision pointer is given. The loop makes one
step more than there are nodes at most. -/
def rbtI32Add (rbt : RbtT V) (key : I32) (data : V) (coll : Bool) :
    Option (RbtT V × Reply V) := do
  match ← addLoop key data (rbt.size + 1) (enter rbt) ⟨rbt.root, fakeAddr, 0, 0⟩ 1 with
  | (h, none) => return (← leave h (rbt.size + 1), ⟨0, none⟩)
  | (h, some a) =>
      if coll then
        let n ← h.entry a
        return (← leave (h.setEntry a ⟨n.key, data⟩) rbt.size, ⟨0, some n.data⟩)
      else return (← leave h rbt.size, ⟨1, none⟩)

/-- The colours after a rotation at the parent, whose new root is `_chld[e]` of the
grandparent. -/
def delRecolor (h : Heap (RbtI32Node V)) (hist : Hist) (e : Side) :
    Option (Heap (RbtI32Node V)) := do
  let s ← chldPtr h hist.h2 e
  let h ← rbtNodeSetcolor h hist.h0 .red
  let h ← rbtNodeSetcolor h s .red
  let h ← rbtNodeSetcolor h (← chldPtr h s .left) .black
  rbtNodeSetcolor h (← chldPtr h s .right) .black

/-- The single rotation towards a side. -/
def delRotate (d : Side) (h : Heap (RbtI32Node V)) (r : ℕ) :
    Option (Heap (RbtI32Node V) × ℕ) :=
  match d with
  | .right => rbtNodeRotateR h r
  | .left => rbtNodeRotateL h r

/-- The double rotation towards a side. -/
def delRotate2 (d : Side) (h : Heap (RbtI32Node V)) (r : ℕ) :
    Option (Heap (RbtI32Node V) × ℕ) :=
  match d with
  | .right => rbtNodeRotateRL h r
  | .left => rbtNodeRotateLR h r

/-- The rotation at the parent, by which of the children of the sibling `s` is red. -/
def delRotateParent (h : Heap (RbtI32Node V)) (hist : Hist) (last e : Side) (s : ℕ) :
    Option (Heap (RbtI32Node V)) := do
  if (← rbtNodeGetcolor h (← chldPtr h s last)) = .red then
    let (h, n) ← delRotate2 last h hist.h1
    rbtNodeSetptr h hist.h2 e n
  else if (← rbtNodeGetcolor h (← chldPtr h s last.other)) = .red then
    let (h, n) ← delRotate last h hist.h1
    rbtNodeSetptr h hist.h2 e n
  else return h

/-- The work of `rbt_i32_del` at a black node whose next child is black: redness comes from
the other child or from the sibling. -/
def delBalance (h : Heap (RbtI32Node V)) (hist : Hist) (dvec : ℕ) :
    Option (Heap (RbtI32Node V) × Hist) := do
  let d := sideOf dvec
  let last := sideOf (dvec / 2)
  if (← rbtNodeGetcolor h (← chldPtr h hist.h0 d.other)) = .red then
    let (h, n) ← delRotate d h hist.h0
    let h ← rbtNodeSetptr h hist.h1 last n
    return (h, { hist with h1 := ← chldPtr h hist.h1 last })
  else
    let s ← chldPtr h hist.h1 last.other
    if s = 0 then return (h, hist)
    else if (← rbtNodeGetcolor h (← chldPtr h s .left)) = .black ∧
        (← rbtNodeGetcolor h (← chldPtr h s .right)) = .black then
      let h ← rbtNodeSetcolor h hist.h0 .red
      let h ← rbtNodeSetcolor h hist.h1 .black
      let h ← rbtNodeSetcolor h s .red
      return (h, hist)
    else
      let e : Side := if (← chldPtr h hist.h2 .right) = hist.h1 then .right else .left
      let h ← delRotateParent h hist last e s
      return (← delRecolor h hist e, hist)

/-- The direction in which `rbt_i32_del` goes on at a node: left at the key's own. -/
def delSide (key n_key : I32) : Side :=
  if key < n_key then .left else if n_key < key then .right else .left

/-- The loop of `rbt_i32_del`: the memory, the history and the node to delete, 0 for none. -/
def delLoop (key : I32) :
    ℕ → Heap (RbtI32Node V) → Hist → ℕ → ℕ → Option (Heap (RbtI32Node V) × Hist × ℕ)
  | 0, _, _, _, _ => none
  | fuel + 1, h, hist, dvec, save => do
      let next ← chldPtr h hist.h0 (sideOf dvec)
      if next = 0 then return (h, hist, save)
      else
        let hist := hist.push next
        let n ← h.entry hist.h0
        let save := if key = n.key then hist.h0 else save
        let dvec := dpush dvec (delSide key n.key)
        if (← rbtNodeGetcolor h hist.h0) = .black ∧
            (← rbtNodeGetcolor h (← chldPtr h hist.h0 (sideOf dvec))) = .black then
          let (h, hist) ← delBalance h hist dvec
          delLoop key fuel h hist dvec save
        else delLoop key fuel h hist dvec save

/-- The end of `rbt_i32_del`: the last node's contents go to the node to delete, and the
last node is taken out and freed. -/
def delFinish (h : Heap (RbtI32Node V)) (hist : Hist) (save : ℕ) :
    Option (Heap (RbtI32Node V) × V) := do
  let n ← h.entry save
  let last ← h.entry hist.h0
  let h := h.setEntry save last
  let e : Side := if (← chldPtr h hist.h1 .right) = hist.h0 then .right else .left
  let sl ← chldPtr h hist.h0 .left
  let sr ← chldPtr h hist.h0 .right
  let h ← rbtNodeSetptr h hist.h1 e (if sr = 0 then sl else sr)
  return (h.free hist.h0, n.data)

/-- `rbt_i32_del`; `n` says whether the pointer for the data is given. -/
def rbtI32Del (rbt : RbtT V) (key : I32) (n : Bool) : Option (RbtT V × Reply V) := do
  if rbt.size = 0 then return (rbt, ⟨1, none⟩)
  else
    let (h, hist, save) ← delLoop key (rbt.size + 1) (enter rbt) ⟨fakeAddr, 0, 0, 0⟩ 1 0
    if save ≠ 0 then
      let (h, data) ← delFinish h hist save
      return (← leave h (rbt.size - 1), ⟨0, if n then some data else none⟩)
    else return (← leave h rbt.size, ⟨1, none⟩)

/-- The loop of `rbt_i32_get`. -/
def getLoop (key : I32) (h : Heap (RbtI32Node V)) : ℕ → ℕ → Option (Reply V)
  | 0, _ => none
  | fuel + 1, n =>
      if n = 0 then some ⟨-1, none⟩
      else do
        let e ← h.entry n
        if key < e.key then getLoop key h fuel (← chldPtr h n .left)
        else if e.key < key then getLoop key h fuel (← chldPtr h n .right)
        else return ⟨0, some e.data⟩

/-- `rbt_i32_get`. -/
def rbtI32Get (rbt : RbtT V) (key : I32) : Option (Reply V) :=
  getLoop key rbt.heap (rbt.size + 1) rbt.root

/-! ### The history and the direction vector -/

theorem sideOf_eq_left {d : ℕ} : sideOf d = .left ↔ d % 2 = 0 := by
  rw [sideOf]
  split <;> simp [*]

theorem sideOf_eq_right {d : ℕ} : sideOf d = .right ↔ d % 2 = 1 := by
  rw [sideOf]
  split <;> simp <;> omega

theorem sideOf_dpush (d : ℕ) (s : Side) : sideOf (dpush d s) = s := by
  cases s with
  | left => rw [sideOf_eq_left, dpush]; omega
  | right => rw [sideOf_eq_right, dpush]; omega

theorem sideOf_congr {d d' : ℕ} (h : d % 2 = d' % 2) : sideOf d = sideOf d' := by
  rw [sideOf, sideOf, h]

theorem sideOf_dpush_half (d : ℕ) (s : Side) : sideOf (dpush d s / 2) = sideOf d := by
  apply sideOf_congr
  cases s with
  | left => rw [dpush]; omega
  | right => rw [dpush]; omega

theorem sideOf_dpush_quarter (d : ℕ) (s : Side) :
    sideOf (dpush d s / 4) = sideOf (d / 2) := by
  apply sideOf_congr
  cases s with
  | left => rw [dpush]; omega
  | right => rw [dpush]; omega

/-! ### The tree at rest -/

/-- The tree that the memory at rest holds, without the fake node. -/
structure Represents (rbt : RbtT V) (t : ColorTree (Cell (RbtI32Node V))) : Prop where
  linked : Linked rbt.heap.node t
  nodup : (addrs t).Nodup
  entries : ∀ x ∈ t.elems, rbt.heap.entry x.addr = some x.entry
  range : ∀ a ∈ addrs t, fakeAddr < a ∧ a < rbt.heap.brk
  fake_lt : fakeAddr < rbt.heap.brk
  root : rbt.root = ptr t
  size : rbt.size = t.size

/-- The key of a cell. -/
def cellKey (x : Cell (RbtI32Node V)) : I32 := x.entry.key

/-- **A red-black search tree**: a black root, balance, and ascending keys. -/
structure IsRbt (t : ColorTree (Cell (RbtI32Node V))) : Prop where
  black : t.color = .black
  balanced : ∃ n, RB t n
  ordered : Ordered cellKey t

variable {rbt : RbtT V} {t : ColorTree (Cell (RbtI32Node V))}

theorem represents_new : Represents (rbtI32New : RbtT V) nil :=
  ⟨trivial, by simp, by simp, by simp, by simp [rbtI32New], rfl, rfl⟩

/-- The start of an operation puts the fake node above the root. -/
theorem Represents.enter (hr : Represents rbt t) : Holds (enter rbt) t := by
  have hne : ∀ a ∈ addrs t, a ≠ fakeAddr := fun a ha he =>
    Nat.lt_irrefl _ (he ▸ (hr.range a ha).1)
  refine ⟨hr.linked.congr fun a ha => Function.update_of_ne (hne a ha) .., ?_, hr.nodup,
    hr.entries, hr.range, hr.fake_lt⟩
  exact ⟨⟨⟨0, .black⟩, ⟨rbt.root, .black⟩⟩, by simp [Rbt.enter, Heap.newNode], rfl,
    hr.root, rfl⟩

/-- The end of an operation reads the root and makes it black. -/
theorem leave_spec {h : Heap (RbtI32Node V)} (hh : Holds h t) {size : ℕ}
    (hs : size = t.size) :
    ∃ rbt', leave h size = some rbt' ∧ Represents rbt' (t.setColor .black) := by
  have hroot : chldPtr h fakeAddr .right = some (ptr t) := Holds.chldPtr_slot (p := []) hh
  obtain ⟨h', e, hh'⟩ := Holds.setcolor (p := []) hh .black
  rw [plug_nil] at hh'
  have hne : ∀ a ∈ addrs (t.setColor .black), a ≠ fakeAddr := fun a ha he =>
    Nat.lt_irrefl _ (he ▸ (hh'.range a ha).1)
  refine ⟨⟨{ h' with node := Function.update h'.node fakeAddr none }, ptr t, size⟩, ?_,
    hh'.linked.congr fun a ha => Function.update_of_ne (hne a ha) .., hh'.nodup, hh'.entries,
    hh'.range, hh'.fake_lt, (ptr_setColor _ _).symm, hs.trans (size_setColor _ _).symm⟩
  rw [leave, hroot]
  simp only [Option.bind_eq_bind, Option.bind_some, e, Option.pure_def]

/-! ### The search -/

/-- What the search answers for the elements of a tree. -/
def getReply (key : I32) (es : List (Cell (RbtI32Node V))) : Reply V :=
  match es.find? fun x => cellKey x = key with
  | none => ⟨-1, none⟩
  | some x => ⟨0, some x.entry.data⟩

/-- Elements with other keys do not matter to the search, before or after the key's place. -/
theorem getReply_append {key : I32} {xs ys : List (Cell (RbtI32Node V))}
    (h : ∀ y ∈ ys, cellKey y ≠ key) : getReply key (xs ++ ys) = getReply key xs := by
  have hnone : (ys.find? fun x => cellKey x = key) = none := by
    simpa using h
  rw [getReply, getReply, List.find?_append, hnone, Option.or_none]

theorem getReply_append_right {key : I32} {xs ys : List (Cell (RbtI32Node V))}
    (h : ∀ y ∈ xs, cellKey y ≠ key) : getReply key (xs ++ ys) = getReply key ys := by
  have hnone : (xs.find? fun x => cellKey x = key) = none := by
    simpa using h
  rw [getReply, getReply, List.find?_append, hnone, Option.none_or]

/-- **The loop of the search** finds the key's element. -/
theorem getLoop_spec {key : I32} {h : Heap (RbtI32Node V)} {fuel : ℕ}
    (hl : Linked h.node t) (he : ∀ x ∈ t.elems, h.entry x.addr = some x.entry)
    (h0 : 0 ∉ addrs t) (ho : Ordered cellKey t) (hw : t.size < fuel) :
    getLoop key h fuel (ptr t) = some (getReply key t.elems) := by
  induction t generalizing fuel with
  | nil =>
      cases fuel with
      | zero => omega
      | succ fuel => rfl
  | node c l x r ihl ihr =>
      cases fuel with
      | zero => omega
      | succ fuel =>
          obtain ⟨hn, hll, hlr⟩ := hl
          obtain ⟨hol, hor, hlx, hxr⟩ := ordered_node.mp ho
          simp only [addrs_node, List.mem_append, List.mem_cons, not_or] at h0
          simp only [elems_node, List.mem_append, List.mem_cons] at he
          simp only [size_node] at hw
          have hx : h.entry x.addr = some x.entry := he x (.inr (.inl rfl))
          have hstep : getLoop key h (fuel + 1) x.addr =
              if key < cellKey x then getLoop key h fuel (ptr l)
              else if cellKey x < key then getLoop key h fuel (ptr r)
              else some ⟨0, some x.entry.data⟩ := by
            have hr' : chldPtr h x.addr .right = some (ptr r) := (isNode_other.mpr hn).chldPtr
            rw [getLoop, if_neg (Ne.symm h0.2.1), hx]
            simp only [hn.chldPtr, hr', Option.bind_eq_bind, Option.bind_some, Option.pure_def]
            rfl
          rw [ptr_node, hstep, elems_node]
          obtain hlt | heq | hgt := lt_trichotomy key (cellKey x)
          · rw [if_pos hlt, ihl hll (fun y hy => he y (.inl hy)) h0.1 hol (by omega),
              getReply_append]
            intro y hy
            obtain rfl | hy := List.mem_cons.mp hy
            · exact ne_of_gt hlt
            · exact ne_of_gt (lt_trans hlt (hxr y hy))
          · rw [if_neg (by rw [heq]; exact lt_irrefl _), if_neg (by rw [heq]; exact lt_irrefl _),
              getReply_append_right fun y hy => by rw [heq]; exact ne_of_lt (hlx y hy)]
            simp [getReply, heq]
          · rw [if_neg (lt_asymm hgt), if_pos hgt,
              ihr hlr (fun y hy => he y (.inr (.inr hy))) h0.2.2 hor (by omega),
              show x :: r.elems = [x] ++ r.elems from rfl, ← List.append_assoc,
              getReply_append_right]
            intro y hy
            obtain hy | hy := List.mem_append.mp hy
            · exact ne_of_lt (lt_trans (hlx y hy) hgt)
            · obtain rfl := List.mem_singleton.mp hy
              exact ne_of_lt hgt

/-- **The search of the code.** -/
theorem rbtI32Get_spec (hr : Represents rbt t) (ht : IsRbt t) (key : I32) :
    rbtI32Get rbt key = some (getReply key t.elems) := by
  rw [rbtI32Get, hr.root]
  refine getLoop_spec hr.linked hr.entries (fun h0 => ?_) ht.ordered ?_
  · have := (hr.range _ h0).1
    omega
  · rw [hr.size]
    exact Nat.lt_succ_self _

end OpenScap.Rbt
