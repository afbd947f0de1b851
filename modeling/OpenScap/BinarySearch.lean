import Mathlib.Data.Int.Notation
import Mathlib.Order.Basic

/-!
# Binary search

The search for a key in a sorted row, given by the signs of the comparisons of the key with the
places of the row. It tells a place that is equal to the key, or else the place where the key
belongs.

## Main results

* `search_answers` — what the search tells is right in a sorted row.
-/

namespace BinarySearch

/-- The search among `w` places from `s` on: on the left the place of an equal one, on the right
the place where the key belongs. -/
def search (cmp : ℕ → ℤ) : ℕ → ℕ → ℕ → ℕ ⊕ ℕ
  | 0, _, s => .inr s
  | fuel + 1, w, s =>
      if w = 0 then .inr s
      else if 0 < cmp (s + w / 2) then search cmp fuel (w - w / 2 - 1) (s + w / 2 + 1)
      else if cmp (s + w / 2) < 0 then search cmp fuel (w / 2) s
      else .inl (s + w / 2)

/-- A row of `n` places is sorted, as the key sees it. -/
structure Sorted (cmp : ℕ → ℤ) (n : ℕ) : Prop where
  above : ∀ i j, i ≤ j → j < n → 0 < cmp j → 0 < cmp i
  below : ∀ i j, i ≤ j → j < n → cmp i < 0 → cmp j < 0

/-- An answer is right. -/
def Answers (cmp : ℕ → ℤ) (n : ℕ) : ℕ ⊕ ℕ → Prop
  | .inl i => i < n ∧ cmp i = 0
  | .inr d => d ≤ n ∧ (∀ i < d, 0 < cmp i) ∧ ∀ i, d ≤ i → i < n → cmp i < 0

/-- **The search is right in a sorted row.** All places in front of those that are searched are
below the key, and all behind them are above it. -/
theorem search_answers {cmp : ℕ → ℤ} {n fuel w s : ℕ} (hsorted : Sorted cmp n) (hfuel : w ≤ fuel)
    (hn : s + w ≤ n) (hfront : ∀ i < s, 0 < cmp i)
    (hback : ∀ i, s + w ≤ i → i < n → cmp i < 0) : Answers cmp n (search cmp fuel w s) := by
  induction fuel generalizing w s with
  | zero =>
      obtain rfl : w = 0 := by omega
      exact ⟨hn, hfront, hback⟩
  | succ fuel ih =>
      rw [search]
      split
      · rename_i hw
        subst hw
        exact ⟨hn, hfront, hback⟩
      · rename_i hw
        split
        · rename_i hgreater
          refine ih (by omega) (by omega) (fun i hi => ?_) fun i hi hin => hback i (by omega) hin
          exact hsorted.above i (s + w / 2) (by omega) (by omega) hgreater
        · split
          · rename_i hless
            refine ih (by omega) (by omega) hfront fun i hi hin => ?_
            exact hsorted.below (s + w / 2) i (by omega) hin hless
          · rename_i hless hgreater
            exact ⟨by omega, by omega⟩

end BinarySearch
