import Mathlib.Algebra.Order.Field.Basic
import Mathlib.Algebra.Order.BigOperators.Group.List

/-!
# Weighted means

The weighted mean of values is the sum of the values times their weights, by the sum of the
weights. Without any weight it is zero.

## Main results

* `mean_mem` — means of values up to a bound are up to this bound;
* `mean_eq_iff` — the mean is the bound exactly if there is a weight and every value with a weight
  is the bound.
-/

namespace WeightedMean

variable {K : Type*} [Field K] [LinearOrder K] [IsStrictOrderedRing K]

/-- The sum of the weights. -/
def total (items : List (K × K)) : K := (items.map Prod.fst).sum

/-- The sum of the values times their weights. -/
def weightedSum (items : List (K × K)) : K := (items.map fun item => item.2 * item.1).sum

/-- The weighted mean of values. -/
def mean (items : List (K × K)) : K :=
  if total items = 0 then 0 else weightedSum items / total items

variable {items : List (K × K)} {bound : K}

/-- Items with a weight that is not negative, and a value up to a bound. -/
def Bounded (bound : K) (items : List (K × K)) : Prop :=
  ∀ item ∈ items, 0 ≤ item.1 ∧ 0 ≤ item.2 ∧ item.2 ≤ bound

omit [IsStrictOrderedRing K] in
/-- The first item and the others are bounded. -/
theorem bounded_cons {item : K × K} :
    Bounded bound (item :: items) ↔
      (0 ≤ item.1 ∧ 0 ≤ item.2 ∧ item.2 ≤ bound) ∧ Bounded bound items :=
  List.forall_mem_cons

/-- The weights of bounded items are not negative in sum. -/
theorem Bounded.total_nonneg (h : Bounded bound items) : 0 ≤ total items :=
  List.sum_nonneg fun weight hweight => by
    obtain ⟨item, hitem, rfl⟩ := List.mem_map.mp hweight
    exact (h item hitem).1

/-- The sum over bounded items is not negative. -/
theorem Bounded.weightedSum_nonneg (h : Bounded bound items) : 0 ≤ weightedSum items :=
  List.sum_nonneg fun value hvalue => by
    obtain ⟨item, hitem, rfl⟩ := List.mem_map.mp hvalue
    exact mul_nonneg (h item hitem).2.1 (h item hitem).1

/-- The sum over bounded items is at most the bound times the weights. -/
theorem Bounded.weightedSum_le (h : Bounded bound items) :
    weightedSum items ≤ bound * total items := by
  induction items with
  | nil => simp [weightedSum, total]
  | cons item items ih =>
      obtain ⟨⟨hweight, -, hvalue⟩, h⟩ := bounded_cons.mp h
      have hfirst := mul_le_mul_of_nonneg_right hvalue hweight
      rw [weightedSum, total, List.map_cons, List.map_cons, List.sum_cons, List.sum_cons, mul_add]
      exact add_le_add hfirst (ih h)

/-- The sum over bounded items is the bound times the weights exactly if every value with a
weight is the bound. -/
theorem Bounded.weightedSum_eq_iff (h : Bounded bound items) :
    weightedSum items = bound * total items ↔ ∀ item ∈ items, 0 < item.1 → item.2 = bound := by
  induction items with
  | nil => simp [weightedSum, total]
  | cons item items ih =>
      obtain ⟨⟨hweight, -, hvalue⟩, h⟩ := bounded_cons.mp h
      have hfirst := mul_le_mul_of_nonneg_right hvalue hweight
      have hrest := h.weightedSum_le
      rw [List.forall_mem_cons, ← ih h]
      rw [weightedSum, total, List.map_cons, List.map_cons, List.sum_cons, List.sum_cons, mul_add]
      change item.2 * item.1 + weightedSum items = bound * item.1 + bound * total items ↔ _
      constructor
      · intro hsum
        have hsplit := (add_eq_add_iff_eq_and_eq hfirst hrest).mp hsum
        exact ⟨fun hpos => mul_right_cancel₀ (ne_of_gt hpos) hsplit.1, hsplit.2⟩
      · rintro ⟨hitem, hsum⟩
        rw [hsum]
        rcases hweight.eq_or_lt with hzero | hpos
        · rw [← hzero, mul_zero, mul_zero]
        · rw [hitem hpos]

/-- **A mean of values up to a bound is up to this bound.** -/
theorem Bounded.mean_mem (h : Bounded bound items) (hbound : 0 ≤ bound) :
    0 ≤ mean items ∧ mean items ≤ bound := by
  rw [mean]
  split
  · exact ⟨le_refl _, hbound⟩
  · next hne =>
      have hpos := h.total_nonneg.lt_of_ne' hne
      exact ⟨div_nonneg h.weightedSum_nonneg hpos.le, (div_le_iff₀ hpos).mpr h.weightedSum_le⟩

/-- There is a weight in sum exactly if some item has one. -/
theorem Bounded.total_pos_iff (h : Bounded bound items) :
    0 < total items ↔ ∃ item ∈ items, 0 < item.1 := by
  induction items with
  | nil => simp [total]
  | cons item items ih =>
      obtain ⟨⟨hweight, -, -⟩, h⟩ := bounded_cons.mp h
      have hrest := h.total_nonneg
      rw [List.exists_mem_cons_iff, ← ih h]
      rw [total, List.map_cons, List.sum_cons]
      change 0 < item.1 + total items ↔ _
      constructor
      · intro hsum
        by_contra hnot
        rw [not_or, not_lt, not_lt] at hnot
        exact absurd (add_nonpos hnot.1 hnot.2) (not_le.mpr hsum)
      · rintro (hpos | hpos)
        · exact add_pos_of_pos_of_nonneg hpos hrest
        · exact add_pos_of_nonneg_of_pos hweight hpos

/-- **The mean is the bound exactly if there is a weight, and every value with a weight is the
bound.** -/
theorem Bounded.mean_eq_iff (h : Bounded bound items) (hbound : 0 < bound) :
    mean items = bound ↔
      (∃ item ∈ items, 0 < item.1) ∧ ∀ item ∈ items, 0 < item.1 → item.2 = bound := by
  rw [← h.total_pos_iff, ← h.weightedSum_eq_iff, mean]
  split
  · next hzero => exact iff_of_false (ne_of_lt hbound) fun hpos => ne_of_gt hpos.1 hzero
  · next hne =>
      have hpos := h.total_nonneg.lt_of_ne' hne
      rw [div_eq_iff hne]
      exact ⟨fun heq => ⟨hpos, heq⟩, fun heq => heq.2⟩

end WeightedMean
