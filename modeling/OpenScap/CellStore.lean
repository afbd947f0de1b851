import Mathlib.Data.List.Basic
import Mathlib.Data.Set.Basic
import Mathlib.Order.Interval.Set.Defs

/-!
# Stores of cells

A store is a list of cells, and an address is a place in it. New cells are added at the end, a
cell may be changed, and a cell that is freed is read no more. What a store began with is kept as
long as only cells behind it are changed or freed.

## Main results

* `prefix_modify`, `prefix_free` — changing and freeing newer cells keeps the older ones;
* `read_of_kept` — cells that are kept are read as before;
* `read_modify_self`, `read_modify_of_ne`, `read_append_length` — what is read after a change.
-/

namespace CellStore

variable {α : Type*}

/-- The cell at an address, unless it was freed. -/
def readCell (store : List (Option α)) (a : ℕ) : Option α := store[a]?.join

/-- Changes the cell at an address. -/
def modifyCell (f : α → α) (store : List (Option α)) (a : ℕ) : List (Option α) :=
  store.modify a (Option.map f)

/-- Frees the cell at an address. -/
def freeCell (store : List (Option α)) (a : ℕ) : List (Option α) := store.set a none

variable {base store store' : List (Option α)} {a b : ℕ} {x : α} {f : α → α}

/-- A cell is read within the store. -/
theorem lt_length_of_read (h : readCell store a = some x) : a < store.length := by
  by_contra hge
  rw [readCell, List.getElem?_eq_none (by omega)] at h
  cases h

/-- A cell of the beginning is read in the whole store. -/
theorem read_of_kept (h : store <+: store') (hx : readCell store a = some x) :
    readCell store' a = some x := by
  obtain ⟨added, rfl⟩ := h
  rw [readCell, List.getElem?_append_left (lt_length_of_read hx)]
  exact hx

/-- The new cell is read at the old end of the store. -/
theorem read_append_length (store : List (Option α)) (x : α) :
    readCell (store ++ [some x]) store.length = some x := by
  simp [readCell]

/-- What a changed cell was before. -/
theorem read_modify (f : α → α) (store : List (Option α)) (a : ℕ) :
    readCell (modifyCell f store a) a = (readCell store a).map f := by
  rw [readCell, modifyCell, List.getElem?_modify_eq, readCell]
  cases store[a]? <;> rfl

/-- The changed cell is read where it was. -/
theorem read_modify_self (h : readCell store a = some x) :
    readCell (modifyCell f store a) a = some (f x) := by
  rw [read_modify, h]
  rfl

/-- Other cells are read as before a change. -/
theorem read_modify_of_ne (h : b ≠ a) : readCell (modifyCell f store a) b = readCell store b := by
  rw [readCell, modifyCell, List.getElem?_modify_ne _ _ (Ne.symm h), readCell]

/-- Other cells are read as before one is freed. -/
theorem read_free_of_ne (h : b ≠ a) : readCell (freeCell store a) b = readCell store b := by
  rw [readCell, freeCell, List.getElem?_set_ne (Ne.symm h), readCell]

/-- A freed cell is not read. -/
theorem read_free_self : readCell (freeCell store a) a = none := by
  rw [readCell, freeCell, List.getElem?_set_self']
  cases store[a]? <;> rfl

/-- The new cell is changed at the old end of the store. -/
theorem modify_append_length (f : α → α) (store : List (Option α)) (x : α) :
    modifyCell f (store ++ [some x]) store.length = store ++ [some (f x)] := by
  induction store with
  | nil => rfl
  | cons c store ih => exact congrArg (c :: ·) ih

/-- A change keeps the number of cells. -/
@[simp] theorem length_modify (f : α → α) (store : List (Option α)) (a : ℕ) :
    (modifyCell f store a).length = store.length := by
  simp [modifyCell]

/-- **Changing a newer cell keeps the older ones.** -/
theorem prefix_modify (h : base <+: store) (ha : base.length ≤ a) :
    base <+: modifyCell f store a := by
  rw [List.prefix_iff_eq_take] at h ⊢
  rw [modifyCell, List.take_modify, ← h, List.modify_eq_self ha]

/-- A change of a cell of the beginning is one of the whole store. -/
theorem modify_prefix_modify (h : store <+: store') :
    modifyCell f store a <+: modifyCell f store' a := by
  rw [List.prefix_iff_eq_take] at h ⊢
  rw [length_modify, modifyCell, modifyCell, List.take_modify, ← h]

/-- **Freeing a newer cell keeps the older ones.** -/
theorem prefix_free (h : base <+: store) (ha : base.length ≤ a) : base <+: freeCell store a := by
  obtain ⟨added, rfl⟩ := h
  rw [freeCell, List.set_append_right _ _ ha]
  exact List.prefix_append _ _

/-- A change that leaves the cell as it is leaves the store as it is. -/
theorem modify_eq_self (h : readCell store a = some x) (hf : f x = x) :
    modifyCell f store a = store := by
  rw [readCell, Option.join_eq_some_iff] at h
  refine List.ext_getElem? fun b => ?_
  by_cases hb : b = a
  · rw [hb]
    simp [modifyCell, h, hf]
  · rw [modifyCell, List.getElem?_modify_ne _ _ (Ne.symm hb)]

end CellStore
