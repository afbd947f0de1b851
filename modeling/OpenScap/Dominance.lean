import Mathlib.Data.List.Basic
import Mathlib.Data.List.Perm.Basic

/-!
# Dominance among values

Many tables that combine two values are dominance tables: the values are ranked, and of
two values the one of higher rank is the result. `dominant rank xs` is the value of
highest rank that occurs in `xs`.

## Main results

* `dominant_perm` — the dominant value does not depend on the order;
* `foldl_eq_dominant` — folding a list by an operation that is a dominance table on the
  values of the list yields its dominant value;
* `dominant_map` — an injective renaming of values renames the dominant value.
-/

namespace Dominance

variable {α β : Type*} [DecidableEq α] [DecidableEq β]

/-- The value of highest rank that occurs in the list. -/
def dominant (rank xs : List α) : Option α :=
  rank.find? fun a => decide (a ∈ xs)

@[simp] theorem dominant_nil_rank (xs : List α) : dominant [] xs = none := rfl

theorem dominant_cons (a : α) (rank xs : List α) :
    dominant (a :: rank) xs = if a ∈ xs then some a else dominant rank xs := by
  simp only [dominant, List.find?_cons]
  by_cases h : a ∈ xs <;> simp [h]

/-- The dominant value occurs in the list. -/
theorem mem_of_dominant {rank xs : List α} {a : α} (h : dominant rank xs = some a) :
    a ∈ xs := by
  have := List.find?_some h
  simpa using this

/-- The dominant value is ranked. -/
theorem mem_rank_of_dominant {rank xs : List α} {a : α} (h : dominant rank xs = some a) :
    a ∈ rank :=
  List.mem_of_find?_eq_some h

/-- Where a ranked value occurs, there is a dominant one. -/
theorem exists_dominant {rank xs : List α} {a : α} (hrank : a ∈ rank) (ha : a ∈ xs) :
    ∃ b, dominant rank xs = some b := by
  have hsome : (dominant rank xs).isSome := by
    rw [dominant, List.find?_isSome]
    exact ⟨a, hrank, by simpa using ha⟩
  exact Option.isSome_iff_exists.mp hsome

/-- Where a value of higher rank occurs, the lower ranks play no part. -/
theorem dominant_append_rank {rank xs : List α} {a : α} (h : dominant rank xs = some a)
    (rank' : List α) : dominant (rank ++ rank') xs = some a := by
  rw [dominant, List.find?_append]
  simp only [dominant] at h
  rw [h, Option.some_or]

/-- Only which values occur matters. -/
theorem dominant_congr {rank xs ys : List α} (h : ∀ a, a ∈ xs ↔ a ∈ ys) :
    dominant rank xs = dominant rank ys := by
  simp only [dominant, h]

/-- The order of the values does not matter. -/
theorem dominant_perm {rank xs ys : List α} (h : xs.Perm ys) :
    dominant rank xs = dominant rank ys :=
  dominant_congr fun _ => h.mem_iff

/-- A part of the list may be replaced by its dominant value. -/
theorem dominant_append {rank xs ys : List α} {a : α} (h : dominant rank xs = some a) :
    dominant rank (xs ++ ys) = dominant rank (a :: ys) := by
  induction rank with
  | nil => rfl
  | cons b rank ih =>
      rw [dominant_cons] at h
      rw [dominant_cons, dominant_cons]
      by_cases hb : b ∈ xs
      · rw [if_pos hb] at h
        obtain rfl : b = a := Option.some.inj h
        rw [if_pos (List.mem_append_left _ hb), if_pos List.mem_cons_self]
      · rw [if_neg hb] at h
        have hba : b ≠ a := fun hba => hb (hba ▸ mem_of_dominant h)
        have hiff : b ∈ xs ++ ys ↔ b ∈ a :: ys := by simp [hb, hba]
        rw [ih h]
        simp only [hiff]

/-- **Folding by a dominance table.** On a set `P` of values that the operation keeps and
where it is a dominance table, a fold yields the dominant value. -/
theorem foldl_eq_dominant {rank : List α} {op : α → α → α} {P : α → Prop}
    (hop : ∀ a b, P a → P b → dominant rank [a, b] = some (op a b)) :
    ∀ (xs : List α) {a : α}, P a → (∀ x ∈ xs, P x) →
      dominant rank (a :: xs) = some (xs.foldl op a)
  | [], a, ha, _ => by
      have haa := hop a a ha ha
      have hmem : op a a = a := by simpa using mem_of_dominant haa
      have hpair : dominant rank [a] = dominant rank [a, a] := dominant_congr (by simp)
      rw [List.foldl_nil, hpair, haa, hmem]
  | x :: xs, a, ha, hxs => by
      have hx := hxs x List.mem_cons_self
      have hax := hop a x ha hx
      have hP : P (op a x) := by
        rcases List.mem_pair.mp (mem_of_dominant hax) with h | h <;> rw [h] <;> assumption
      have happend : a :: x :: xs = [a, x] ++ xs := rfl
      rw [happend, dominant_append hax, List.foldl_cons]
      exact foldl_eq_dominant hop xs hP fun y hy => hxs y (List.mem_cons_of_mem _ hy)

/-- Renaming the values renames the dominant one. -/
theorem dominant_map {f : α → β} (hf : Function.Injective f) (rank xs : List α) :
    dominant (rank.map f) (xs.map f) = (dominant rank xs).map f := by
  induction rank with
  | nil => rfl
  | cons a rank ih =>
      rw [List.map_cons, dominant_cons, dominant_cons, ih]
      simp only [List.mem_map_of_injective hf]
      split_ifs <;> rfl

end Dominance
