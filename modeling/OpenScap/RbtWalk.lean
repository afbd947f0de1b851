import OpenScap.RbtCommon
import Mathlib.Data.Int.Notation

/-!
# The in-order walk

`rbt_walk_inorder` walks a tree with a stack of 48 nodes and calls a function on every
object; a value other than 0 from it ends the walk. A push onto the full stack writes past
its end, which is an outcome (`none`).

## Main results

* `walkLoop_spec` — the loop with its stack is the recursive walk with what is left of the
  stack;
* `visit_continue` — when the function never ends the walk, every object is visited once in
  order exactly when the stack is large enough.
-/

namespace OpenScap.Rbt

open RedBlack RedBlack.ColorTree

variable {E σ : Type}

/-- The size of the array `stack`. -/
def walkStack : ℕ := 48

/-- The loop of `rbt_walk_inorder`, with the topmost entry of the stack first: at the head of
the loop (`false`), or at the label `__in`. -/
def walkLoop (h : Heap E) (callback : σ → E → σ × ℤ) :
    ℕ → Bool → List ℕ → σ → Option (σ × ℤ)
  | 0, _, _, _ => none
  | _ + 1, _, [], st => some (st, 0)
  | fuel + 1, false, top :: stack, st => do
      let n ← chldPtr h top .left
      if n ≠ 0 then
        if (top :: stack).length < walkStack then
          walkLoop h callback fuel false (n :: top :: stack) st
        else none
      else walkLoop h callback fuel true (top :: stack) st
  | fuel + 1, true, top :: stack, st => do
      let e ← h.entry top
      if (callback st e).2 ≠ 0 then return callback st e
      else
        let n ← chldPtr h top .right
        if n ≠ 0 then walkLoop h callback fuel false (n :: stack) (callback st e).1
        else walkLoop h callback fuel true stack (callback st e).1

/-- `rbt_walk_inorder` on the tree below a root; the loop makes two steps at every node. -/
def rbtWalkInorder (h : Heap E) (root size : ℕ) (callback : σ → E → σ × ℤ) (st : σ) :
    Option (σ × ℤ) :=
  if root ≠ 0 then walkLoop h callback (2 * size + 1) false [root] st else some (st, 0)

/-- The walk by recursion, with room for `cap` more nodes on the stack. -/
def visit (callback : σ → E → σ × ℤ) : ℕ → ColorTree (Cell E) → σ → Option (σ × ℤ)
  | _, nil, st => some (st, 0)
  | cap, node _ l x r, st =>
      if cap = 0 then none
      else do
        let a ← visit callback (cap - 1) l st
        if a.2 ≠ 0 then return a
        else if (callback a.1 x.entry).2 ≠ 0 then return callback a.1 x.entry
        else visit callback cap r (callback a.1 x.entry).1

/-- What the loop goes on with after a subtree. -/
def walkOn (h : Heap E) (callback : σ → E → σ × ℤ) (fuel : ℕ) (stack : List ℕ) :
    Option (σ × ℤ) → Option (σ × ℤ)
  | none => none
  | some a => if a.2 ≠ 0 then some a else walkLoop h callback fuel true stack a.1

/-- **The loop with its stack is the recursive walk.** -/
theorem walkLoop_spec {h : Heap E} {callback : σ → E → σ × ℤ} {t : ColorTree (Cell E)}
    (hl : Linked h.node t) (he : ∀ x ∈ t.elems, h.entry x.addr = some x.entry)
    (h0 : 0 ∉ addrs t) (hne : t ≠ nil) {stack : List ℕ} (hs : stack.length < walkStack)
    (fuel : ℕ) (st : σ) :
    walkLoop h callback (2 * t.size + fuel) false (ptr t :: stack) st =
      walkOn h callback fuel stack (visit callback (walkStack - stack.length) t st) := by
  induction t generalizing stack fuel st with
  | nil => exact absurd rfl hne
  | node c l x r ihl ihr =>
      obtain ⟨hn, hll, hlr⟩ := hl
      simp only [addrs_node, List.mem_append, List.mem_cons, not_or] at h0
      simp only [elems_node, List.mem_append, List.mem_cons] at he
      have hx : h.entry x.addr = some x.entry := he x (.inr (.inl rfl))
      have hr' : chldPtr h x.addr .right = some (ptr r) := (isNode_other.mpr hn).chldPtr
      -- the part after the left subtree
      have hin : ∀ st, walkLoop h callback (2 * r.size + fuel + 1) true (x.addr :: stack) st =
          walkOn h callback fuel stack
            (if (callback st x.entry).2 ≠ 0 then some (callback st x.entry)
              else visit callback (walkStack - stack.length) r (callback st x.entry).1) := by
        intro st
        rw [walkLoop, hx]
        simp only [hr', Option.bind_eq_bind, Option.bind_some, Option.pure_def]
        by_cases hcb : (callback st x.entry).2 ≠ 0
        · simp [hcb, walkOn]
        · simp only [hcb, if_false]
          by_cases hr : r = nil
          · subst hr
            simp [visit, walkOn]
          · have hr0 : ptr r ≠ 0 := fun h => h0.2.2 (h ▸ ptr_mem_addrs hr)
            rw [if_pos hr0]
            exact ihr hlr (fun y hy => he y (.inr (.inr hy))) h0.2.2 hr hs fuel _
      have hcap : walkStack - stack.length ≠ 0 := by omega
      rw [size_node, ptr_node,
        show 2 * (l.size + r.size + 1) + fuel = 2 * l.size + (2 * r.size + fuel + 1) + 1 by omega,
        walkLoop, hn.chldPtr, visit, if_neg hcap]
      simp only [Option.bind_eq_bind, Option.bind_some]
      by_cases hlnil : l = nil
      · subst hlnil
        simp only [ptr_nil, ne_eq, not_true_eq_false, if_false, size_nil, Nat.mul_zero,
          Nat.zero_add, visit, Option.bind_some, Option.pure_def]
        exact hin st
      · have hl0 : ptr l ≠ 0 := fun h => h0.1 (h ▸ ptr_mem_addrs hlnil)
        rw [if_pos hl0]
        by_cases hroom : (x.addr :: stack).length < walkStack
        · have hrec := ihl hll (fun y hy => he y (.inl hy)) h0.1 hlnil hroom
            (2 * r.size + fuel + 1) st
          rw [List.length_cons, Nat.sub_add_eq] at hrec
          rw [if_pos hroom, hrec]
          cases visit callback (walkStack - stack.length - 1) l st with
          | none => rfl
          | some a =>
              by_cases ha : a.2 ≠ 0
              · simp [walkOn, ha]
              · simp only [walkOn, ha, if_false, Option.bind_some]
                exact hin a.1
        · have hone : walkStack - stack.length - 1 = 0 := by
            rw [List.length_cons] at hroom
            omega
          rw [if_neg hroom, hone]
          cases l with
          | nil => exact absurd rfl hlnil
          | node => rfl

/-- **A walk that is never ended** visits every object once in order exactly when the stack
is large enough. -/
theorem visit_continue (f : σ → E → σ) (cap : ℕ) (t : ColorTree (Cell E)) (st : σ) :
    visit (fun st e => (f st e, 0)) cap t st =
      if stackNeed t ≤ cap then some ((t.elems.map Cell.entry).foldl f st, 0) else none := by
  induction t generalizing cap st with
  | nil => rfl
  | node c l x r ihl ihr =>
      rw [visit, stackNeed]
      by_cases h0 : cap = 0
      · rw [if_pos h0, if_neg (by omega)]
      · rw [if_neg h0, ihl]
        by_cases hl : stackNeed l ≤ cap - 1
        · have hmax : max (stackNeed l + 1) (stackNeed r) ≤ cap ↔ stackNeed r ≤ cap := by
            omega
          rw [if_pos hl]
          simp only [Option.bind_eq_bind, Option.bind_some, ne_eq, not_true_eq_false, if_false,
            ihr, hmax, elems_node, List.map_append, List.map_cons, List.foldl_append,
            List.foldl_cons]
        · rw [if_neg hl, if_neg (by omega)]
          rfl

end OpenScap.Rbt
