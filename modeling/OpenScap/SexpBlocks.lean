import Mathlib.Data.List.Basic

/-!
# Blocks of a list

The members of a list of S-expressions are in a chain of blocks, and the list begins at an offset
into the first one. In a proper chain no block is empty, and the offset is within the first block;
so the list functions leave it.

## Main results

* `ListIt.next_of_nil`, `ListIt.next_of_cons` — the iterator goes through the members.
-/

namespace OpenScap

variable {α : Type*}

/-- A chain is proper from an index into its first block on. -/
def Within (index : ℕ) : List (List α) → Prop
  | [] => True
  | block :: blocks => index < block.length ∧ ∀ b ∈ blocks, b ≠ []

/-- `SEXP_list_it`: the block with those that follow it, and the index. -/
structure ListIt (α : Type*) where
  blocks : List (List α)
  index : ℕ

/-- `SEXP_list_it_next`: the member, or the null pointer at the end. It has no result where it
would leave the members of the block. -/
def ListIt.next : ListIt α → Option (Option α × ListIt α)
  | ⟨[], index⟩ => some (none, ⟨[], index⟩)
  | ⟨block :: blocks, index⟩ => do
      let item ← block[index]?
      if index + 1 = block.length then some (some item, ⟨blocks, 0⟩)
      else some (some item, ⟨block :: blocks, index + 1⟩)

/-- The members that are left. -/
def ListIt.rest (it : ListIt α) : List α := it.blocks.flatten.drop it.index

/-- At the end there is no member. -/
theorem ListIt.next_of_nil {it : ListIt α} (h : Within it.index it.blocks) (hrest : it.rest = []) :
    it.next = some (none, it) := by
  obtain ⟨blocks, index⟩ := it
  cases blocks with
  | nil => rfl
  | cons block blocks =>
      have hle := List.drop_eq_nil_iff.mp hrest
      rw [List.flatten_cons, List.length_append] at hle
      have := h.1
      omega

/-- Otherwise the next member is the first one that is left. -/
theorem ListIt.next_of_cons {it : ListIt α} (h : Within it.index it.blocks) {memb : α}
    {membs : List α} (hrest : it.rest = memb :: membs) :
    ∃ it', it.next = some (some memb, it') ∧ Within it'.index it'.blocks ∧ it'.rest = membs := by
  obtain ⟨blocks, index⟩ := it
  cases blocks with
  | nil => exact absurd hrest (by simp [ListIt.rest])
  | cons block blocks =>
      obtain ⟨hlt, hnonempty⟩ : index < block.length ∧ ∀ b ∈ blocks, b ≠ [] := h
      change ((block ++ blocks.flatten).drop index) = memb :: membs at hrest
      rw [List.drop_append_of_le_length (Nat.le_of_lt hlt), List.drop_eq_getElem_cons hlt,
        List.cons_append] at hrest
      obtain ⟨rfl, rfl⟩ := List.cons.inj hrest
      have hitem : block[index]? = some block[index] := List.getElem?_eq_getElem hlt
      by_cases hlast : index + 1 = block.length
      · refine ⟨⟨blocks, 0⟩, by simp [ListIt.next, hitem, hlast], ?_, ?_⟩
        · cases blocks with
          | nil => trivial
          | cons next blocks =>
              obtain ⟨hnext, hothers⟩ := List.forall_mem_cons.mp hnonempty
              exact ⟨List.length_pos_iff.mpr hnext, hothers⟩
        · rw [ListIt.rest, List.drop_zero, hlast, List.drop_length, List.nil_append]
      · have hnext : index + 1 < block.length := by omega
        refine ⟨⟨block :: blocks, index + 1⟩, by simp [ListIt.next, hitem, hlast],
          ⟨hnext, hnonempty⟩, ?_⟩
        rw [ListIt.rest, List.flatten_cons, List.drop_append_of_le_length (Nat.le_of_lt hnext)]

end OpenScap
