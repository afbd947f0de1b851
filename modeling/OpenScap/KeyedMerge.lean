import Mathlib.Data.List.Perm.Basic

/-!
# Merging the entries of a child with those of its parent

An entry is known by its key. Where the child has entries of a key, they stand for all of the
parent's; the other entries of the parent are kept.

## Main results

* `isMerge_filter_append_iff`, `isMerge_append_filter_iff` — which entries of the parent a
  merge keeps, whether it puts them before or behind the child's;
* `find?_reverse_unmatched` — the last entry that satisfies a condition on keys is the same in
  the merge as in the whole of both lists;
* `foldl_last_match` — a loop that remembers the last match finds the first from behind;
* `foldl_last_given` — a loop that overwrites what it has with what is given ends with the last.
-/

namespace KeyedMerge

variable {α κ : Type*} [DecidableEq κ] (key : α → κ)

/-- The entries of the parent whose key no entry of the child has. -/
def unmatched (child parent : List α) : List α :=
  parent.filter fun p => ∀ c ∈ child, key c ≠ key p

/-- A merge: the entries of the child, and those of the parent whose key no entry of the child
has, each once and in their order, and nothing else. -/
structure IsMerge (child parent merged : List α) : Prop where
  perm : merged.Perm (child ++ unmatched key child parent)
  child_order : child.Sublist merged
  parent_order : (unmatched key child parent).Sublist merged

variable {key}

/-- Two selections from a list have the same entries only when they select alike. -/
theorem filter_perm_filter_iff {q r : α → Bool} {l : List α} :
    (l.filter q).Perm (l.filter r) ↔ ∀ x ∈ l, q x = r x := by
  constructor
  · intro h x hx
    have hmem := h.mem_iff (a := x)
    rw [List.mem_filter, List.mem_filter] at hmem
    simp only [hx, true_and] at hmem
    exact Bool.eq_iff_iff.mpr hmem
  · intro h
    rw [List.filter_congr h]

/-- A selection from the parent selects what is not matched, or its entries differ from
what a merge keeps. -/
theorem filter_perm_unmatched_iff {q : α → Bool} {child parent : List α} :
    (parent.filter q).Perm (unmatched key child parent) ↔
      ∀ p ∈ parent, q p = true ↔ ∀ c ∈ child, key c ≠ key p := by
  rw [unmatched, filter_perm_filter_iff]
  refine forall₂_congr fun p _ => ?_
  rw [Bool.eq_iff_iff, decide_eq_true_iff]

/-- What is not matched and the child's entries, in either order. -/
theorem isMerge_unmatched (child parent : List α) :
    IsMerge key child parent (unmatched key child parent ++ child) ∧
      IsMerge key child parent (child ++ unmatched key child parent) :=
  ⟨⟨List.perm_append_comm, List.sublist_append_right _ _, List.sublist_append_left _ _⟩,
    ⟨.refl _, List.sublist_append_left _ _, List.sublist_append_right _ _⟩⟩

/-- A selection from the parent put before the child is a merge when it selects what is not
matched. -/
theorem isMerge_filter_append_iff {q : α → Bool} {child parent : List α} :
    IsMerge key child parent (parent.filter q ++ child) ↔
      ∀ p ∈ parent, q p = true ↔ ∀ c ∈ child, key c ≠ key p := by
  rw [← filter_perm_unmatched_iff]
  constructor
  · intro h
    exact (List.perm_append_left_iff child).mp (List.perm_append_comm.trans h.perm)
  · intro h
    have hkept : parent.filter q = unmatched key child parent :=
      List.filter_congr (filter_perm_filter_iff.mp h)
    rw [hkept]
    exact (isMerge_unmatched child parent).1

/-- So is one put behind the child. -/
theorem isMerge_append_filter_iff {q : α → Bool} {child parent : List α} :
    IsMerge key child parent (child ++ parent.filter q) ↔
      ∀ p ∈ parent, q p = true ↔ ∀ c ∈ child, key c ≠ key p := by
  rw [← filter_perm_unmatched_iff]
  constructor
  · intro h
    exact (List.perm_append_left_iff child).mp h.perm
  · intro h
    have hkept : parent.filter q = unmatched key child parent :=
      List.filter_congr (filter_perm_filter_iff.mp h)
    rw [hkept]
    exact (isMerge_unmatched child parent).2

/-- **The last entry that satisfies a condition on keys** is the same whether the entries of
the parent that are matched are left out or not. -/
theorem find?_reverse_unmatched {p : α → Bool} (hp : ∀ a b, key a = key b → p a = p b)
    (child parent : List α) :
    (unmatched key child parent ++ child).reverse.find? p =
      (parent ++ child).reverse.find? p := by
  rw [List.reverse_append, List.reverse_append, List.find?_append, List.find?_append]
  cases hchild : child.reverse.find? p with
  | some x => rfl
  | none =>
      have hnone : ∀ c ∈ child, p c = false := by
        simpa using hchild
      rw [Option.none_or, Option.none_or, unmatched, ← List.filter_reverse, List.find?_filter]
      congr 1
      funext x
      by_cases hx : p x = true
      · have hfree : ∀ c ∈ child, key c ≠ key x := fun c hc he => by
          have := hp c x he
          rw [hnone c hc, hx] at this
          cases this
        simp only [hx, decide_eq_true_iff]
        exact ⟨hfree, trivial⟩
      · simp [hx]

/-- A loop that remembers the last entry that matches. -/
theorem foldl_last_match (p : α → Bool) (l : List α) :
    l.foldl (fun final x => if p x then some x else final) none = l.reverse.find? p := by
  have hgen : ∀ final : Option α, l.foldl (fun final x => if p x then some x else final) final =
      (l.reverse.find? p).or final := by
    induction l with
    | nil => intro final; rfl
    | cons x xs ih =>
        intro final
        rw [List.foldl_cons, ih, List.reverse_cons, List.find?_append, Option.or_assoc]
        by_cases hx : p x = true <;> simp [hx]
  rw [hgen, Option.or_none]

/-- A loop that overwrites what it has with what an entry gives. -/
theorem foldl_last_given {β : Type*} (given : α → Option β) (l : List α) (own : β) :
    l.foldl (fun current x => (given x).getD current) own =
      (l.filterMap given).getLast?.getD own := by
  induction l generalizing own with
  | nil => rfl
  | cons x xs ih =>
      rw [List.foldl_cons, ih]
      cases hx : given x with
      | none => rw [List.filterMap_cons_none hx, Option.getD_none]
      | some y =>
          rw [List.filterMap_cons_some hx, Option.getD_some, List.getLast?_cons]
          cases (xs.filterMap given).getLast? <;> rfl

end KeyedMerge
