import Mathlib.Data.List.Find
import Mathlib.Order.Compare
import Mathlib.Order.Nat
import OpenScap.KeyedOrder

/-!
# Comparing lists padded with zeros

Two lists of numbers are compared position by position, the shorter one continued by zeros.
On lists padded to a common length this is the lexicographic order, so the laws of that order
carry over.

## Main results

* `paddedCompare_eq_compare` — the comparison is the lexicographic one of the padded lists, to
  whichever common length;
* `paddedCompare_totalPreorder`, `paddedCompare_eq_iff` — it is a total preorder, and lists
  that compare equal are equal when padded;
* `paddedCompare_map` — after a conversion of the numbers, the first converted pair that
  differs decides.
-/

open Std KeyedOrder

namespace PaddedOrder

variable {α β : Type*} [Zero α] [Zero β]

/-! ### Padded lists -/

/-- A list continued by zeros to `n` positions. -/
def padTo (n : ℕ) (xs : List α) : List α := xs ++ List.replicate (n - xs.length) 0

/-- Padded by one more position, a list starts with its first number or zero. -/
theorem padTo_succ (n : ℕ) (xs : List α) :
    padTo (n + 1) xs = xs.headD 0 :: padTo n xs.tail := by
  cases xs with
  | nil => simp [padTo, List.replicate_succ]
  | cons x xs => simp [padTo]

/-- The numbers that stand in the same position of the padded lists. -/
def paddedPairs : List α → List α → List (α × α)
  | [], ys => ys.map fun y => (0, y)
  | x :: xs, [] => (x, 0) :: paddedPairs xs []
  | x :: xs, y :: ys => (x, y) :: paddedPairs xs ys

/-- The first numbers of two lists, and the rest. -/
theorem paddedPairs_head_tail {xs ys : List α} (h : ¬ (xs = [] ∧ ys = [])) :
    paddedPairs xs ys = (xs.headD 0, ys.headD 0) :: paddedPairs xs.tail ys.tail := by
  match xs, ys with
  | [], [] => exact absurd ⟨rfl, rfl⟩ h
  | [], y :: ys => rfl
  | x :: xs, [] => rfl
  | x :: xs, y :: ys => rfl

/-- The numbers in a position are numbers of the lists, or zero. -/
theorem mem_paddedPairs {xs ys : List α} {p : α × α} (h : p ∈ paddedPairs xs ys) :
    p.1 ∈ 0 :: xs ∧ p.2 ∈ 0 :: ys := by
  induction xs, ys using paddedPairs.induct with
  | case1 ys =>
      obtain ⟨y, hy, rfl⟩ := List.mem_map.mp h
      exact ⟨List.mem_cons_self .., List.mem_cons_of_mem 0 hy⟩
  | case2 x xs ih | case3 x xs y ys ih =>
      rw [paddedPairs, List.mem_cons] at h
      grind

/-- A conversion that keeps zero converts position by position. -/
theorem paddedPairs_map {f : α → β} (hzero : f 0 = 0) (xs ys : List α) :
    paddedPairs (xs.map f) (ys.map f) = (paddedPairs xs ys).map (Prod.map f f) := by
  induction xs, ys using paddedPairs.induct with
  | case1 ys => simp [paddedPairs, hzero, Function.comp_def]
  | case2 x xs ih =>
      rw [List.map_nil] at ih
      simp [paddedPairs, ih, hzero]
  | case3 x xs y ys ih => simp [paddedPairs, ih]

/-! ### The comparison -/

variable [LinearOrder α] [LinearOrder β]

/-- The first pair that differs decides. -/
def comparePairs : List (α × α) → Ordering
  | [] => .eq
  | (x, y) :: pairs => (compare x y).then (comparePairs pairs)

/-- Position by position, the shorter list continued by zeros. -/
def paddedCompare (xs ys : List α) : Ordering := comparePairs (paddedPairs xs ys)

@[simp] theorem paddedCompare_nil : paddedCompare ([] : List α) [] = .eq := rfl

/-- The first position decides, or else the rest. -/
theorem paddedCompare_head_tail {xs ys : List α} (h : ¬ (xs = [] ∧ ys = [])) :
    paddedCompare xs ys =
      (compare (xs.headD 0) (ys.headD 0)).then (paddedCompare xs.tail ys.tail) := by
  rw [paddedCompare, paddedPairs_head_tail h]
  rfl

/-- **The comparison is the lexicographic one of the padded lists.** -/
theorem paddedCompare_eq_compare {n : ℕ} {xs ys : List α} (hx : xs.length ≤ n)
    (hy : ys.length ≤ n) : paddedCompare xs ys = compare (padTo n xs) (padTo n ys) := by
  induction n generalizing xs ys with
  | zero =>
      obtain rfl := List.eq_nil_of_length_eq_zero (Nat.le_zero.mp hx)
      obtain rfl := List.eq_nil_of_length_eq_zero (Nat.le_zero.mp hy)
      rw [paddedCompare_nil, Std.compare_self]
  | succ n ih =>
      have hrest := ih (by rw [List.length_tail]; omega : xs.tail.length ≤ n)
        (by rw [List.length_tail]; omega : ys.tail.length ≤ n)
      rw [padTo_succ, padTo_succ, List.compare_cons_cons, ← hrest]
      by_cases h : xs = [] ∧ ys = []
      · rw [h.1, h.2]
        simp [Std.compare_self]
      · exact paddedCompare_head_tail h

/-- **It is a total preorder.** -/
theorem paddedCompare_totalPreorder :
    IsTotalPreorder fun xs ys : List α => sign (paddedCompare xs ys) where
  values a b := by
    cases paddedCompare a b <;> simp
  refl a := by
    rw [paddedCompare_eq_compare (Nat.le_refl _) (Nat.le_refl _), Std.compare_self]
    rfl
  swap a b := by
    have ha : a.length ≤ max a.length b.length := le_max_left ..
    have hb : b.length ≤ max a.length b.length := le_max_right ..
    have hswap : compare (padTo (max a.length b.length) b) (padTo (max a.length b.length) a) =
        (compare (padTo (max a.length b.length) a) (padTo (max a.length b.length) b)).swap :=
      OrientedCmp.eq_swap
    rw [paddedCompare_eq_compare hb ha, paddedCompare_eq_compare ha hb, hswap, sign_swap]
  trans a b c hab hbc := by
    have ha : a.length ≤ max a.length (max b.length c.length) := le_max_left ..
    have hb : b.length ≤ max a.length (max b.length c.length) := by omega
    have hc : c.length ≤ max a.length (max b.length c.length) := by omega
    rw [paddedCompare_eq_compare ha hb, sign_nonpos_iff] at hab
    rw [paddedCompare_eq_compare hb hc, sign_nonpos_iff] at hbc
    rw [paddedCompare_eq_compare ha hc, sign_nonpos_iff]
    exact TransCmp.isLE_trans hab hbc

/-- Lists that compare equal are equal when padded. -/
theorem paddedCompare_eq_iff (xs ys : List α) :
    paddedCompare xs ys = .eq ↔
      padTo (max xs.length ys.length) xs = padTo (max xs.length ys.length) ys := by
  rw [paddedCompare_eq_compare (le_max_left ..) (le_max_right ..)]
  exact Std.compare_eq_iff_eq

/-! ### Converted numbers -/

omit [LinearOrder α] [Zero β] in
/-- The first two numbers that stand in one position of the padded lists and differ after a
conversion. -/
def firstDifference (f : α → β) (xs ys : List α) : Option (α × α) :=
  (paddedPairs xs ys).find? fun p => f p.1 ≠ f p.2

omit [LinearOrder α] [Zero β] in
/-- The pair that is found differs. -/
theorem firstDifference_ne {f : α → β} {xs ys : List α} {x y : α}
    (h : firstDifference f xs ys = some (x, y)) : f x ≠ f y := by
  simpa using List.find?_some h

omit [Zero β] in
/-- Where no numbers differ, none differ when converted. -/
theorem firstDifference_of_id {f : α → β} {xs ys : List α}
    (h : firstDifference id xs ys = none) : firstDifference f xs ys = none := by
  simp only [firstDifference, List.find?_eq_none, decide_eq_true_eq, not_not] at h ⊢
  exact fun p hp => congrArg f (h p hp)

omit [Zero β] in
/-- A conversion that keeps the numbers of the lists and zero apart finds the first numbers
that differ. -/
theorem firstDifference_eq_id {f : α → β} {xs ys : List α}
    (h : ∀ x ∈ 0 :: xs, ∀ y ∈ 0 :: ys, f x = f y → x = y) :
    firstDifference f xs ys = firstDifference id xs ys := by
  refine List.find?_congr fun p hp => ?_
  obtain ⟨hx, hy⟩ := mem_paddedPairs hp
  have hiff : f p.1 = f p.2 ↔ id p.1 = id p.2 := ⟨h _ hx _ hy, congrArg f⟩
  simp only [ne_eq, hiff]

/-- The ordering of two numbers after a conversion, where there are two. -/
def pairOrdering (f : α → β) : Option (α × α) → Ordering
  | none => .eq
  | some (x, y) => compare (f x) (f y)

omit [Zero α] [LinearOrder α] [Zero β] in
/-- The first converted pair that differs decides. -/
theorem comparePairs_map (f : α → β) (pairs : List (α × α)) :
    comparePairs (pairs.map (Prod.map f f)) =
      pairOrdering f (pairs.find? fun p => f p.1 ≠ f p.2) := by
  induction pairs with
  | nil => rfl
  | cons pair pairs ih =>
      obtain ⟨x, y⟩ := pair
      rw [List.map_cons, Prod.map_apply, comparePairs, ih]
      by_cases h : f x = f y
      · rw [List.find?_cons_of_neg (by simp [h]), h, Std.compare_self]
        rfl
      · have hne : compare (f x) (f y) ≠ .eq := fun heq => h (Std.compare_eq_iff_eq.mp heq)
        rw [List.find?_cons_of_pos (by simpa using h), pairOrdering]
        cases hcmp : compare (f x) (f y) with
        | eq => exact absurd hcmp hne
        | lt | gt => rfl

omit [LinearOrder α] in
/-- **After a conversion that keeps zero, the first converted pair that differs decides.** -/
theorem paddedCompare_map {f : α → β} (hzero : f 0 = 0) (xs ys : List α) :
    paddedCompare (xs.map f) (ys.map f) = pairOrdering f (firstDifference f xs ys) := by
  rw [paddedCompare, paddedPairs_map hzero, comparePairs_map, firstDifference]

end PaddedOrder
