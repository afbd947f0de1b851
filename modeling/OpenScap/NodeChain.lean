import OpenScap.AppendStore

/-!
# Chains of nodes in a store

A store is a list of nodes, and a node may name the place of another one. A chain is followed
from a place to a node that names none. A chain that is built at the end of the store stands in
a row: every node but the last one names the place behind its own.

## Main results

* `Chain.mono` — a chain stays when nodes are added to the store;
* `Chain.unique` — a place is the start of at most one chain;
* `Row.chain` — nodes in a row are a chain;
* `Row.set_last`, `Row.grow` — the last node is changed, and another one is added behind it.
-/

namespace NodeChain

variable {α : Type*} (next : α → Option ℕ)

/-- The nodes from a place on, to a node that names no other one. -/
inductive Chain (store : List α) : Option ℕ → List α → Prop
  | nil : Chain store none []
  | cons {place : ℕ} {x : α} {xs : List α} (hx : store[place]? = some x)
      (hxs : Chain store (next x) xs) : Chain store (some place) (x :: xs)

/-- Nodes that stand in a row from a place on, the last one apart. -/
structure Row (base : ℕ) (front : List α) (last : α) : Prop where
  /-- Every node names the place behind its own. -/
  next_front : ∀ i x, front[i]? = some x → next x = some (base + i + 1)
  /-- The last node names no other one. -/
  next_last : next last = none

variable {next}

/-- A node is changed at its place. -/
theorem modify_append_cons (xs : List α) (x : α) (ys : List α) (f : α → α) :
    (xs ++ x :: ys).modify xs.length f = xs ++ f x :: ys := by
  induction xs with
  | nil => rfl
  | cons y xs ih => rw [List.cons_append, List.length_cons, List.modify_succ_cons, ih,
      List.cons_append]

/-- **A chain stays when nodes are added to the store.** -/
theorem Chain.mono {store store' : List α} (h : store <+: store') {start : Option ℕ}
    {xs : List α} (hchain : Chain next store start xs) : Chain next store' start xs := by
  induction hchain with
  | nil => exact .nil
  | cons hx _ ih => exact .cons (AppendStore.getElem?_mono h hx) ih

/-- **A place is the start of at most one chain.** -/
theorem Chain.unique {store : List α} {start : Option ℕ} {xs ys : List α}
    (hxs : Chain next store start xs) (hys : Chain next store start ys) : xs = ys := by
  induction hxs generalizing ys with
  | nil =>
      cases hys
      rfl
  | cons hx _ ih =>
      cases hys with
      | cons hy hys =>
          obtain rfl := Option.some.inj (hx.symm.trans hy)
          rw [ih hys]

/-- A chain starts nowhere exactly if it has no node. -/
theorem Chain.nil_iff {store : List α} {start : Option ℕ} {xs : List α}
    (h : Chain next store start xs) : xs = [] ↔ start = none := by
  cases h with
  | nil => simp
  | cons hx hxs => simp

/-- **Nodes in a row are a chain.** -/
theorem Row.chain {old front : List α} {last : α} (h : Row next old.length front last) :
    Chain next (old ++ front ++ [last]) (some old.length) (front ++ [last]) := by
  induction front generalizing old with
  | nil =>
      refine .cons (x := last) ?_ ?_
      · rw [List.append_nil, List.getElem?_append_right (Nat.le_refl _), Nat.sub_self]
        rfl
      · rw [h.next_last]
        exact .nil
  | cons x front ih =>
      have hrow : Row next (old ++ [x]).length front last := by
        refine ⟨fun i y hy => ?_, h.next_last⟩
        rw [List.length_append, List.length_singleton, Nat.add_assoc old.length,
          Nat.add_comm 1 i]
        exact h.next_front (i + 1) y hy
      have hchain := ih hrow
      rw [List.append_assoc old, List.singleton_append] at hchain
      refine .cons (x := x) ?_ ?_
      · rw [List.append_assoc, List.getElem?_append_right (Nat.le_refl _), Nat.sub_self]
        rfl
      · rw [h.next_front 0 x rfl]
        rw [List.length_append, List.length_singleton] at hchain
        exact hchain

/-- The last node is changed. -/
theorem Row.set_last {base : ℕ} {front : List α} {last last' : α} (h : Row next base front last)
    (hnext : next last' = none) : Row next base front last' :=
  ⟨h.next_front, hnext⟩

/-- **Another node is added behind the last one.** -/
theorem Row.grow {base : ℕ} {front : List α} {last last' new : α} (h : Row next base front last)
    (hlast : next last' = some (base + front.length + 1)) (hnew : next new = none) :
    Row next base (front ++ [last']) new := by
  refine ⟨fun i x hx => ?_, hnew⟩
  rcases Nat.lt_or_ge i front.length with hlt | hge
  · rw [List.getElem?_append_left hlt] at hx
    exact h.next_front i x hx
  · rw [List.getElem?_append_right hge, List.getElem?_singleton] at hx
    split at hx
    · obtain rfl := Option.some.inj hx
      rw [hlast, show i = front.length by omega]
    · exact absurd hx (by simp)

end NodeChain
