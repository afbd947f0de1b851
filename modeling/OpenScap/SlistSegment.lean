import Mathlib.Data.List.Basic
import Mathlib.Logic.Function.Basic

/-!
# Segments of singly linked lists

Cells of a memory that name the cell behind them. A segment is a run of cells from one link to
another; it is given by the addresses of its cells together with their data.

## Main results

* `Segment.append_iff` — segments compose at the link between them;
* `Segment.update` — cells outside a segment do not matter for it;
* `Segment.relink`, `Segment.unlink` — its last cell is linked to another one, and a cell within
  it is passed over.
-/

/-- A cell with the address of the one behind it. -/
structure SlistCell (α : Type*) where
  data : α
  next : Option ℕ
  deriving DecidableEq, Repr

/-- The cells in use, by address. -/
abbrev SlistMemory (α : Type*) := ℕ → Option (SlistCell α)

/-- The cells from the link `start` on, up to the link `stop`. -/
inductive Segment {α : Type*} (cells : SlistMemory α) :
    Option ℕ → List (ℕ × α) → Option ℕ → Prop
  | nil (stop : Option ℕ) : Segment cells stop [] stop
  | cons {a : ℕ} {x : α} {next stop : Option ℕ} {rest : List (ℕ × α)}
      (hcell : cells a = some ⟨x, next⟩) (hrest : Segment cells next rest stop) :
      Segment cells (some a) ((a, x) :: rest) stop

namespace Segment

variable {α : Type*} {cells : SlistMemory α} {start mid stop stop' : Option ℕ}
  {xs ys : List (ℕ × α)} {a : ℕ} {x : α}

/-- The addresses of cells. -/
def addresses (xs : List (ℕ × α)) : List ℕ := xs.map Prod.fst

@[simp] theorem addresses_nil : addresses ([] : List (ℕ × α)) = [] := rfl

@[simp] theorem addresses_cons : addresses ((a, x) :: xs) = a :: addresses xs := rfl

@[simp] theorem addresses_append : addresses (xs ++ ys) = addresses xs ++ addresses ys :=
  List.map_append

/-- The address of a cell. -/
theorem mem_addresses (h : (a, x) ∈ xs) : a ∈ addresses xs := List.mem_map_of_mem h

theorem nil_iff : Segment cells start [] stop ↔ start = stop := by
  constructor
  · intro h
    cases h
    rfl
  · rintro rfl
    exact .nil start

/-- The first cell of a segment. -/
theorem cons_iff : Segment cells start ((a, x) :: xs) stop ↔
    start = some a ∧ ∃ next, cells a = some ⟨x, next⟩ ∧ Segment cells next xs stop := by
  constructor
  · intro h
    cases h with
    | cons hcell hrest => exact ⟨rfl, _, hcell, hrest⟩
  · rintro ⟨rfl, next, hcell, hrest⟩
    exact .cons hcell hrest

/-- **Segments compose** at the link between them. -/
theorem append_iff : Segment cells start (xs ++ ys) stop ↔
    ∃ mid, Segment cells start xs mid ∧ Segment cells mid ys stop := by
  induction xs generalizing start with
  | nil => simp [nil_iff]
  | cons c xs ih =>
      obtain ⟨a, x⟩ := c
      rw [List.cons_append, cons_iff]
      simp only [cons_iff, ih]
      constructor
      · rintro ⟨hstart, next, hcell, mid, hxs, hys⟩
        exact ⟨mid, ⟨hstart, next, hcell, hxs⟩, hys⟩
      · rintro ⟨mid, ⟨hstart, next, hcell, hxs⟩, hys⟩
        exact ⟨hstart, next, hcell, mid, hxs, hys⟩

/-- A segment with a last cell. -/
theorem concat_iff : Segment cells start (xs ++ [(a, x)]) stop ↔
    Segment cells start xs (some a) ∧ cells a = some ⟨x, stop⟩ := by
  rw [append_iff]
  constructor
  · rintro ⟨mid, hxs, hlast⟩
    obtain ⟨rfl, next, hcell, hnil⟩ := cons_iff.mp hlast
    obtain rfl := nil_iff.mp hnil
    exact ⟨hxs, hcell⟩
  · rintro ⟨hxs, hcell⟩
    exact ⟨some a, hxs, .cons hcell (.nil stop)⟩

/-- A segment with cells starts at the first of them. -/
theorem start_eq (h : Segment cells start ((a, x) :: xs) stop) : start = some a :=
  (cons_iff.mp h).1

/-- Where a segment starts from the first of its cells, or else from its end. -/
theorem start_eq_head (h : Segment cells start xs none) :
    start = xs.head?.map Prod.fst := by
  cases h with
  | nil => rfl
  | cons => rfl

/-- The cells of a segment are in use. -/
theorem cell_of_mem (h : Segment cells start xs stop) (hmem : (a, x) ∈ xs) :
    ∃ next, cells a = some ⟨x, next⟩ := by
  induction h with
  | nil => cases hmem
  | cons hcell _ ih =>
      obtain heq | hmem := List.mem_cons.mp hmem
      · obtain ⟨rfl, rfl⟩ := Prod.mk.inj heq
        exact ⟨_, hcell⟩
      · exact ih hmem

/-- Memories that agree on the cells of a segment both have it. -/
theorem congr {cells' : SlistMemory α} (h : Segment cells start xs stop)
    (hagree : ∀ b ∈ addresses xs, cells' b = cells b) : Segment cells' start xs stop := by
  induction h with
  | nil stop => exact .nil stop
  | cons hcell _ ih =>
      refine .cons ((hagree _ (by simp)).trans hcell) (ih fun b hb => hagree b ?_)
      exact List.mem_cons_of_mem _ hb

/-- **Cells outside a segment** do not matter for it. -/
theorem update (h : Segment cells start xs stop) (ha : a ∉ addresses xs)
    (cell : Option (SlistCell α)) : Segment (Function.update cells a cell) start xs stop := by
  refine h.congr fun b hb => Function.update_of_ne ?_ _ _
  rintro rfl
  exact ha hb

/-- **The last cell is linked to another one.** -/
theorem relink (h : Segment cells start (xs ++ [(a, x)]) stop) (ha : a ∉ addresses xs)
    (stop' : Option ℕ) :
    Segment (Function.update cells a (some ⟨x, stop'⟩)) start (xs ++ [(a, x)]) stop' := by
  obtain ⟨hxs, -⟩ := concat_iff.mp h
  exact concat_iff.mpr ⟨hxs.update ha _, Function.update_self ..⟩

/-- **A cell within a segment is passed over.** -/
theorem unlink {b : ℕ} {y : α} {next : Option ℕ}
    (h : Segment cells start (xs ++ (a, x) :: (b, y) :: ys) stop)
    (hnodup : (addresses (xs ++ (a, x) :: (b, y) :: ys)).Nodup)
    (hcell : cells b = some ⟨y, next⟩) :
    Segment (Function.update cells a (some ⟨x, next⟩)) start (xs ++ (a, x) :: ys) stop := by
  have hsplit : xs ++ (a, x) :: (b, y) :: ys = (xs ++ [(a, x)]) ++ (b, y) :: ys := by simp
  rw [hsplit, append_iff] at h
  obtain ⟨mid, hfront, hback⟩ := h
  obtain ⟨-, next', hcell', hys⟩ := cons_iff.mp hback
  obtain rfl : next' = next := by
    rw [hcell] at hcell'
    cases hcell'
    rfl
  simp only [addresses_append, addresses_cons, List.nodup_append, List.nodup_cons] at hnodup
  have hxs : a ∉ addresses xs := fun hmem => hnodup.2.2 a hmem a (by simp) rfl
  have hays : a ∉ addresses ys := fun hmem => hnodup.2.1.1 (List.mem_cons_of_mem _ hmem)
  have hjoined : Segment (Function.update cells a (some ⟨x, next'⟩)) start
      ((xs ++ [(a, x)]) ++ ys) stop :=
    append_iff.mpr ⟨next', hfront.relink hxs next', hys.update hays _⟩
  rwa [List.append_assoc, List.singleton_append] at hjoined

end Segment
