import Mathlib.Data.List.Count

/-!
# Decision tables over counts

A specification in tabular form tells the outcome of a bag of individual values from
how many of them there are of each kind: a row constrains the count of every kind and
names a result. This module fixes the meaning of such tables for an arbitrary type `α`
of kinds and an arbitrary type `ρ` of results.

* `Cell` — one entry of a row (`1`, `1+`, `0,1`, `odd`, `even`);
* `Row.Matches` — the row corresponds to a list of individual values;
* `Agrees` — a result is one that the table allows for the list.
-/

namespace CountTable

/-- One entry of a row: what a table admits for the count of one kind. -/
inductive Cell
  | exactly (n : ℕ)
  | atLeast (n : ℕ)
  | upTo (n : ℕ)
  | odd
  | even
  deriving DecidableEq, Repr

/-- The counts that an entry admits. -/
def Cell.Admits : Cell → ℕ → Prop
  | .exactly n, k => k = n
  | .atLeast n, k => n ≤ k
  | .upTo n, k => k ≤ n
  | .odd, k => k % 2 = 1
  | .even, k => k % 2 = 0

@[simp] theorem Cell.admits_exactly (n k : ℕ) : (Cell.exactly n).Admits k ↔ k = n := Iff.rfl

@[simp] theorem Cell.admits_atLeast (n k : ℕ) : (Cell.atLeast n).Admits k ↔ n ≤ k := Iff.rfl

@[simp] theorem Cell.admits_upTo (n k : ℕ) : (Cell.upTo n).Admits k ↔ k ≤ n := Iff.rfl

@[simp] theorem Cell.admits_odd (k : ℕ) : Cell.odd.Admits k ↔ k % 2 = 1 := Iff.rfl

@[simp] theorem Cell.admits_even (k : ℕ) : Cell.even.Admits k ↔ k % 2 = 0 := Iff.rfl

/-- A row: an entry for every kind, and the result the row stands for. -/
structure Row (α ρ : Type*) where
  /-- What the row admits for the count of each kind. -/
  cells : α → Cell
  /-- The result of a list that the row corresponds to. -/
  result : ρ

variable {α ρ : Type*} [DecidableEq α]

/-- The row corresponds to the list: every kind occurs as often as its entry admits. -/
def Row.Matches (row : Row α ρ) (xs : List α) : Prop :=
  ∀ a, (row.cells a).Admits (xs.count a)

/-- The result is one the table gives for the list: where some row corresponds to the
list, one of the corresponding rows has that result. -/
def Agrees (table : List (Row α ρ)) (xs : List α) (r : ρ) : Prop :=
  (∃ row ∈ table, row.Matches xs) → ∃ row ∈ table, row.Matches xs ∧ row.result = r

/-- A table of no rows allows every result. -/
@[simp] theorem agrees_nil (xs : List α) (r : ρ) : Agrees [] xs r := by
  rintro ⟨row, hmem, -⟩
  simp at hmem

/-- A result is the table's where a corresponding row has it, and where no row
corresponds. -/
theorem agrees_of_matches {table : List (Row α ρ)} {xs : List α} {r : ρ}
    (h : (∃ row ∈ table, row.Matches xs ∧ row.result = r) ∨
      ∀ row ∈ table, ¬ row.Matches xs) : Agrees table xs r := by
  rintro ⟨row, hmem, hrow⟩
  rcases h with h | h
  · exact h
  · exact absurd hrow (h row hmem)

end CountTable
