import Mathlib.Data.List.Count
import Mathlib.Data.List.Forall2

/-!
# Refining undetermined values

Some values of a type `α` are *open*: they stand for an outcome that is not known yet
and may still become another one. The others are settled. `Refines Open Fixed a b` says
that `b` is what has become of `a`: a settled value stays as it is, and an open one
becomes anything but a value of `Fixed`, which only ever was there from the start.

A list refines another one element by element (`List.Forall₂`). The lemmas below tell
what such a refinement keeps.

## Main results

* `eq_of_not_open`, `eq_of_fixed` — a list without open values is not changed, nor one
  that turns into values of `Fixed`;
* `count_le` — settled values do not get fewer.
-/

namespace InfoOrder

variable {α : Type*} {Open Fixed : α → Prop}

/-- `b` is what has become of `a`. -/
def Refines (Open Fixed : α → Prop) (a b : α) : Prop :=
  a = b ∨ Open a ∧ ¬ Fixed b

/-- A value may stay as it is. -/
theorem Refines.refl (a : α) : Refines Open Fixed a a := Or.inl rfl

/-- A settled value stays as it is. -/
theorem Refines.eq_of_not_open {a b : α} (h : Refines Open Fixed a b) (ha : ¬ Open a) :
    a = b := by
  rcases h with h | ⟨hopen, -⟩
  · exact h
  · exact absurd hopen ha

/-- A value of `Fixed` was there from the start. -/
theorem Refines.eq_of_fixed {a b : α} (h : Refines Open Fixed a b) (hb : Fixed b) :
    a = b := by
  rcases h with h | ⟨-, hfixed⟩
  · exact h
  · exact absurd hb hfixed

/-- A list without open values is not changed. -/
theorem eq_of_not_open {xs ys : List α} (h : List.Forall₂ (Refines Open Fixed) xs ys)
    (hx : ∀ a ∈ xs, ¬ Open a) : xs = ys := by
  induction h with
  | nil => rfl
  | cons hab _ ih =>
      rw [hab.eq_of_not_open (hx _ List.mem_cons_self),
        ih fun a ha => hx a (List.mem_cons_of_mem _ ha)]

/-- A list that turns into values of `Fixed` only is not changed. -/
theorem eq_of_fixed {xs ys : List α} (h : List.Forall₂ (Refines Open Fixed) xs ys)
    (hy : ∀ b ∈ ys, Fixed b) : xs = ys := by
  induction h with
  | nil => rfl
  | cons hab _ ih =>
      rw [hab.eq_of_fixed (hy _ List.mem_cons_self),
        ih fun b hb => hy b (List.mem_cons_of_mem _ hb)]

/-- Settled values do not get fewer. -/
theorem count_le [DecidableEq α] {xs ys : List α}
    (h : List.Forall₂ (Refines Open Fixed) xs ys) {a : α} (ha : ¬ Open a) :
    xs.count a ≤ ys.count a := by
  induction h with
  | nil => exact Nat.le_refl _
  | @cons x y xs ys hxy _ ih =>
      rw [List.count_cons, List.count_cons]
      by_cases hx : x = a
      · have hy : y = a := by
          subst hx
          exact (hxy.eq_of_not_open ha).symm
        simp only [hx, hy]
        omega
      · have hx' : (x == a) = false := beq_eq_false_iff_ne.mpr hx
        simp only [hx', Bool.false_eq_true, if_false, Nat.add_zero]
        exact Nat.le_trans ih (Nat.le_add_right _ _)

end InfoOrder
