import Mathlib.Data.List.Infix

/-!
# Search for a substring

The first occurrence of a list in a list, as what is before it and what is from there.

## Main results

* `search_eq_some`, `not_infix_of_search` — what is found is the first occurrence;
* `not_infix_of_search_eq_none` — nothing is missed.
-/

namespace SubstringSearch

variable {α : Type*} [DecidableEq α]

/-- What is before the first occurrence of the needle, and what is from there. -/
def search (needle : List α) : List α → Option (List α × List α)
  | [] => if needle = [] then some ([], []) else none
  | a :: as =>
      if needle.isPrefixOf (a :: as) then some ([], a :: as)
      else (search needle as).map fun p => (a :: p.1, p.2)

/-- The list is divided at an occurrence. -/
theorem search_eq_some {needle l before rest : List α}
    (h : search needle l = some (before, rest)) : l = before ++ rest ∧ needle <+: rest := by
  induction l generalizing before with
  | nil =>
      rw [search] at h
      split at h
      · rename_i hneedle
        obtain ⟨rfl, rfl⟩ := Prod.mk.inj (Option.some.inj h)
        exact ⟨rfl, hneedle ▸ List.nil_prefix⟩
      · exact absurd h (by simp)
  | cons a as ih =>
      rw [search] at h
      split at h
      · rename_i hstart
        obtain ⟨rfl, rfl⟩ := Prod.mk.inj (Option.some.inj h)
        exact ⟨rfl, List.isPrefixOf_iff_prefix.mp hstart⟩
      · obtain ⟨⟨before', rest'⟩, hsearch, heq⟩ := Option.map_eq_some_iff.mp h
        obtain ⟨rfl, rfl⟩ := Prod.mk.inj heq
        obtain ⟨rfl, hneedle⟩ := ih hsearch
        exact ⟨rfl, hneedle⟩

/-- **It is the first one.** -/
theorem not_infix_of_search {needle l before rest : List α} (hneedle : needle ≠ [])
    (h : search needle l = some (before, rest)) : ¬ needle <:+: before := by
  induction l generalizing before with
  | nil =>
      rw [search, if_neg hneedle] at h
      exact absurd h (by simp)
  | cons a as ih =>
      rw [search] at h
      split at h
      · obtain ⟨rfl, rfl⟩ := Prod.mk.inj (Option.some.inj h)
        simpa using hneedle
      · rename_i hstart
        obtain ⟨⟨before', rest'⟩, hsearch, heq⟩ := Option.map_eq_some_iff.mp h
        obtain ⟨rfl, rfl⟩ := Prod.mk.inj heq
        rw [List.infix_cons_iff]
        rintro (hfirst | hlater)
        · have hgrown := hfirst.trans (List.prefix_append (a :: before') rest')
          rw [List.cons_append, ← (search_eq_some hsearch).1] at hgrown
          exact hstart (List.isPrefixOf_iff_prefix.mpr hgrown)
        · exact ih hsearch hlater

/-- **Nothing is missed.** -/
theorem not_infix_of_search_eq_none {needle l : List α} (h : search needle l = none) :
    ¬ needle <:+: l := by
  induction l with
  | nil =>
      rw [search] at h
      split at h
      · exact absurd h (by simp)
      · rename_i hneedle
        simpa using hneedle
  | cons a as ih =>
      rw [search] at h
      split at h
      · exact absurd h (by simp)
      · rename_i hstart
        rw [List.infix_cons_iff]
        rintro (hfirst | hlater)
        · exact hstart (List.isPrefixOf_iff_prefix.mpr hfirst)
        · exact ih (Option.map_eq_none_iff.mp h) hlater

/-- A list is found in itself at once. -/
theorem search_self (needle : List α) : search needle needle = some ([], needle) := by
  cases needle with
  | nil => rfl
  | cons a as => rw [search, if_pos (List.isPrefixOf_iff_prefix.mpr List.prefix_rfl)]

/-- Nothing is found in a shorter list. -/
theorem search_of_length_lt {needle l : List α} (h : l.length < needle.length) :
    search needle l = none := by
  rw [Option.eq_none_iff_forall_ne_some]
  rintro ⟨before, rest⟩ hsearch
  obtain ⟨rfl, hneedle⟩ := search_eq_some hsearch
  have := hneedle.length_le
  rw [List.length_append] at h
  omega

end SubstringSearch
