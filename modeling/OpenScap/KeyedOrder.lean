import Mathlib.Logic.Basic

/-!
# Comparison functions that compare keys

A C comparison function returns a negative number, zero or a positive number. One that maps
its arguments to keys and compares the keys by a lawful comparison is a total preorder.

## Main results

* `IsTotalPreorder.of_key` — a function that compares keys is a total preorder.
-/

open Std

namespace KeyedOrder

variable {α β : Type*}

/-- The number that a comparison function returns for an ordering. -/
def sign : Ordering → Int
  | .lt => -1
  | .eq => 0
  | .gt => 1

@[simp] theorem sign_lt : sign .lt = -1 := rfl

@[simp] theorem sign_eq : sign .eq = 0 := rfl

@[simp] theorem sign_gt : sign .gt = 1 := rfl

theorem sign_swap (o : Ordering) : sign o.swap = -sign o := by
  cases o <;> rfl

theorem sign_nonpos_iff (o : Ordering) : sign o ≤ 0 ↔ o.isLE = true := by
  cases o <;> decide

theorem sign_neg_iff (o : Ordering) : sign o < 0 ↔ o = .lt := by
  cases o <;> decide

theorem sign_pos_iff (o : Ordering) : 0 < sign o ↔ o = .gt := by
  cases o <;> decide

theorem sign_eq_zero_iff (o : Ordering) : sign o = 0 ↔ o = .eq := by
  cases o <;> decide

/-- A decided first comparison is the lexicographic one. -/
theorem sign_then_of_ne {o o' : Ordering} (h : sign o ≠ 0) : sign (o.then o') = sign o := by
  cases o with
  | eq => exact absurd rfl h
  | lt | gt => rfl

/-- An undecided first comparison leaves it to the second. -/
theorem sign_then_of_eq {o o' : Ordering} (h : sign o = 0) : sign (o.then o') = sign o' := by
  rw [(sign_eq_zero_iff o).mp h]
  rfl

/-- A comparison function with the values -1, 0 and 1 that is a total preorder. -/
structure IsTotalPreorder (cmp : α → α → Int) : Prop where
  /-- It returns -1, 0 or 1. -/
  values : ∀ a b, cmp a b = -1 ∨ cmp a b = 0 ∨ cmp a b = 1
  /-- It returns 0 on equal arguments. -/
  refl : ∀ a, cmp a a = 0
  /-- Exchanging the arguments exchanges the sign. -/
  swap : ∀ a b, cmp b a = -cmp a b
  /-- It is transitive. -/
  trans : ∀ a b c, cmp a b ≤ 0 → cmp b c ≤ 0 → cmp a c ≤ 0

/-- **A function that compares keys is a total preorder.** -/
theorem IsTotalPreorder.of_key {cmp : α → α → Int} {key : α → β} {cmpKey : β → β → Ordering}
    [TransCmp cmpKey] (h : ∀ a b, cmp a b = sign (cmpKey (key a) (key b))) :
    IsTotalPreorder cmp where
  values a b := by
    rw [h]
    cases cmpKey (key a) (key b) <;> simp
  refl a := by
    have heq : cmpKey (key a) (key a) = .eq := ReflCmp.compare_self
    rw [h, heq]
    rfl
  swap a b := by
    have hswap : cmpKey (key b) (key a) = (cmpKey (key a) (key b)).swap := OrientedCmp.eq_swap
    rw [h, h, hswap, sign_swap]
  trans a b c hab hbc := by
    rw [h, sign_nonpos_iff] at hab hbc ⊢
    exact TransCmp.isLE_trans hab hbc

end KeyedOrder
