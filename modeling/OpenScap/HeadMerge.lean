import Mathlib.Data.List.Lex
import Mathlib.Data.List.Nodup
import Mathlib.Data.List.TakeWhile
import Mathlib.Order.Basic
import Mathlib.Order.Lattice

/-!
# Merging lists by their heads

The union, the intersection and the difference of two sorted lists can be computed in one
sweep that compares the heads of the lists. `mergeUnion`, `mergeInter` and `mergeDiff` are
these sweeps, for arbitrary lists over a linear order.

On strictly increasing lists they compute the set operations. On other lists
`mergeUnion` still keeps every element, but it may keep an element of both lists twice.
Whether it does depends on what precedes the element: the *ladder* of an occurrence is the
list of the elements before it that are not exceeded by a later one of these, as far as
they are not below the element. A sweep keeps the ladders.

## Main results

* `pairwise_mergeUnion`, `mem_mergeInter`, `mem_mergeDiff` — the sweeps on strictly
  increasing lists;
* `mem_ladders_mergeUnion` — the occurrences of a union, with their ladders, are those of
  the two lists;
* `nodup_filter_iff_ladders` — a list has no duplicates exactly when equal elements have
  equal ladders.
-/

namespace HeadMerge

variable {α : Type*} [LinearOrder α]

/-- The union by one sweep: equal heads are taken once. -/
def mergeUnion : List α → List α → List α
  | [], bs => bs
  | a :: as, [] => a :: as
  | a :: as, b :: bs =>
      if a < b then a :: mergeUnion as (b :: bs)
      else if b < a then b :: mergeUnion (a :: as) bs
      else a :: mergeUnion as bs
termination_by as bs => as.length + bs.length

/-- The intersection by one sweep: equal heads are taken. -/
def mergeInter : List α → List α → List α
  | [], _ => []
  | _ :: _, [] => []
  | a :: as, b :: bs =>
      if a < b then mergeInter as (b :: bs)
      else if b < a then mergeInter (a :: as) bs
      else a :: mergeInter as bs
termination_by as bs => as.length + bs.length

/-- The difference by one sweep: the smaller heads of the first list are taken. -/
def mergeDiff : List α → List α → List α
  | [], _ => []
  | a :: as, [] => a :: as
  | a :: as, b :: bs =>
      if a < b then a :: mergeDiff as (b :: bs)
      else if b < a then mergeDiff (a :: as) bs
      else mergeDiff as bs
termination_by as bs => as.length + bs.length

/-! ### What the sweeps keep -/

/-- **A union keeps every element**, whether the lists are sorted or not. -/
theorem mem_mergeUnion (as bs : List α) (x : α) : x ∈ mergeUnion as bs ↔ x ∈ as ∨ x ∈ bs := by
  induction as, bs using mergeUnion.induct with
  | case1 bs => simp only [mergeUnion, List.not_mem_nil, false_or]
  | case2 a as => simp only [mergeUnion, List.not_mem_nil, or_false]
  | case3 a as b bs hab ih =>
      rw [mergeUnion, if_pos hab]
      simp only [List.mem_cons, ih, or_assoc]
  | case4 a as b bs hab hba ih =>
      rw [mergeUnion, if_neg hab, if_pos hba]
      simp only [List.mem_cons, ih]
      exact or_left_comm
  | case5 a as b bs hab hba ih =>
      obtain rfl : a = b := le_antisymm (not_lt.mp hba) (not_lt.mp hab)
      rw [mergeUnion, if_neg hab, if_neg hba]
      simp only [List.mem_cons, ih]
      exact or_or_distrib_left

/-- An intersection takes elements of the first list, in their order. -/
theorem mergeInter_sublist (as bs : List α) : (mergeInter as bs).Sublist as := by
  induction as, bs using mergeInter.induct with
  | case1 bs => rw [mergeInter]
  | case2 a as => simp only [mergeInter, List.nil_sublist]
  | case3 a as b bs hab ih =>
      rw [mergeInter, if_pos hab]
      exact ih.cons a
  | case4 a as b bs hab hba ih =>
      rw [mergeInter, if_neg hab, if_pos hba]
      exact ih
  | case5 a as b bs hab hba ih =>
      rw [mergeInter, if_neg hab, if_neg hba]
      exact ih.cons_cons a

/-- A difference takes elements of the first list, in their order. -/
theorem mergeDiff_sublist (as bs : List α) : (mergeDiff as bs).Sublist as := by
  induction as, bs using mergeDiff.induct with
  | case1 bs => rw [mergeDiff]
  | case2 a as => rw [mergeDiff]
  | case3 a as b bs hab ih =>
      rw [mergeDiff, if_pos hab]
      exact ih.cons_cons a
  | case4 a as b bs hab hba ih =>
      rw [mergeDiff, if_neg hab, if_pos hba]
      exact ih
  | case5 a as b bs hab hba ih =>
      rw [mergeDiff, if_neg hab, if_neg hba]
      exact ih.cons a

/-! ### The sweeps on strictly increasing lists -/

/-- An element below the head of a strictly increasing list is not in it. -/
theorem not_mem_of_lt_head {x b : α} {bs : List α} (h : (b :: bs).Pairwise (· < ·))
    (hx : x < b) : x ∉ b :: bs := by
  intro hmem
  rcases List.mem_cons.mp hmem with rfl | hmem
  · exact lt_irrefl _ hx
  · exact lt_asymm hx (List.rel_of_pairwise_cons h hmem)

/-- **The union of strictly increasing lists is strictly increasing.** -/
theorem pairwise_mergeUnion {as bs : List α} (has : as.Pairwise (· < ·))
    (hbs : bs.Pairwise (· < ·)) : (mergeUnion as bs).Pairwise (· < ·) := by
  induction as, bs using mergeUnion.induct with
  | case1 bs => rw [mergeUnion]; exact hbs
  | case2 a as => rw [mergeUnion]; exact has
  | case3 a as b bs hab ih =>
      rw [mergeUnion, if_pos hab]
      refine List.Pairwise.cons (fun x hx => ?_) (ih has.of_cons hbs)
      rcases (mem_mergeUnion _ _ x).mp hx with hx | hx
      · exact List.rel_of_pairwise_cons has hx
      · rcases List.mem_cons.mp hx with rfl | hx
        · exact hab
        · exact lt_trans hab (List.rel_of_pairwise_cons hbs hx)
  | case4 a as b bs hab hba ih =>
      rw [mergeUnion, if_neg hab, if_pos hba]
      refine List.Pairwise.cons (fun x hx => ?_) (ih has hbs.of_cons)
      rcases (mem_mergeUnion _ _ x).mp hx with hx | hx
      · rcases List.mem_cons.mp hx with rfl | hx
        · exact hba
        · exact lt_trans hba (List.rel_of_pairwise_cons has hx)
      · exact List.rel_of_pairwise_cons hbs hx
  | case5 a as b bs hab hba ih =>
      obtain rfl : a = b := le_antisymm (not_lt.mp hba) (not_lt.mp hab)
      rw [mergeUnion, if_neg hab, if_neg hba]
      refine List.Pairwise.cons (fun x hx => ?_) (ih has.of_cons hbs.of_cons)
      rcases (mem_mergeUnion _ _ x).mp hx with hx | hx
      · exact List.rel_of_pairwise_cons has hx
      · exact List.rel_of_pairwise_cons hbs hx

/-- **The intersection of strictly increasing lists** has the elements of both. -/
theorem mem_mergeInter {as bs : List α} (has : as.Pairwise (· < ·))
    (hbs : bs.Pairwise (· < ·)) (x : α) : x ∈ mergeInter as bs ↔ x ∈ as ∧ x ∈ bs := by
  induction as, bs using mergeInter.induct with
  | case1 bs => simp only [mergeInter, List.not_mem_nil, false_and]
  | case2 a as => simp only [mergeInter, List.not_mem_nil, and_false]
  | case3 a as b bs hab ih =>
      rw [mergeInter, if_pos hab, ih has.of_cons hbs, @List.mem_cons _ a as]
      refine and_congr_left fun hx => (or_iff_right ?_).symm
      rintro rfl
      exact not_mem_of_lt_head hbs hab hx
  | case4 a as b bs hab hba ih =>
      rw [mergeInter, if_neg hab, if_pos hba, ih has hbs.of_cons, @List.mem_cons _ b bs]
      refine and_congr_right fun hx => (or_iff_right ?_).symm
      rintro rfl
      exact not_mem_of_lt_head has hba hx
  | case5 a as b bs hab hba ih =>
      obtain rfl : a = b := le_antisymm (not_lt.mp hba) (not_lt.mp hab)
      rw [mergeInter, if_neg hab, if_neg hba, List.mem_cons, ih has.of_cons hbs.of_cons,
        List.mem_cons, List.mem_cons, or_and_left]

/-- **The difference of strictly increasing lists** has the elements of the first that are
not in the second. -/
theorem mem_mergeDiff {as bs : List α} (has : as.Pairwise (· < ·))
    (hbs : bs.Pairwise (· < ·)) (x : α) : x ∈ mergeDiff as bs ↔ x ∈ as ∧ x ∉ bs := by
  induction as, bs using mergeDiff.induct with
  | case1 bs => simp only [mergeDiff, List.not_mem_nil, false_and]
  | case2 a as => simp only [mergeDiff, List.not_mem_nil, not_false_eq_true, and_true]
  | case3 a as b bs hab ih =>
      rw [mergeDiff, if_pos hab, List.mem_cons, ih has.of_cons hbs, @List.mem_cons _ a as,
        or_and_right]
      refine or_congr_left (iff_self_and.mpr ?_)
      rintro rfl
      exact not_mem_of_lt_head hbs hab
  | case4 a as b bs hab hba ih =>
      rw [mergeDiff, if_neg hab, if_pos hba, ih has hbs.of_cons, @List.mem_cons _ b bs,
        not_or]
      refine and_congr_right fun hx => (and_iff_right ?_).symm
      rintro rfl
      exact not_mem_of_lt_head has hba hx
  | case5 a as b bs hab hba ih =>
      obtain rfl : a = b := le_antisymm (not_lt.mp hba) (not_lt.mp hab)
      rw [mergeDiff, if_neg hab, if_neg hba, ih has.of_cons hbs.of_cons, List.mem_cons,
        List.mem_cons, not_or]
      constructor
      · rintro ⟨hx, hnot⟩
        exact ⟨Or.inr hx, (List.rel_of_pairwise_cons has hx).ne', hnot⟩
      · rintro ⟨hx, hne, hnot⟩
        exact ⟨hx.resolve_left hne, hnot⟩

/-! ### Ladders -/

/-- The occurrences of a list that follows the ladder `s`, each with its ladder. -/
def ladders : List α → List α → List (α × List α)
  | _, [] => []
  | s, a :: as =>
      (a, s.dropWhile (· < a)) :: ladders (a :: s.dropWhile (· < a)) as

/-- The occurrences are the elements. -/
theorem ladders_map_fst (s as : List α) : (ladders s as).map Prod.fst = as := by
  induction as generalizing s with
  | nil => rfl
  | cons a as ih => rw [ladders, List.map_cons, ih]

/-- Dropping what is below a bound and then what is below a greater one. -/
theorem dropWhile_dropWhile_lt {a b : α} (hab : a ≤ b) (s : List α) :
    (s.dropWhile (· < a)).dropWhile (· < b) = s.dropWhile (· < b) := by
  induction s with
  | nil => rfl
  | cons c s ih =>
      by_cases hca : c < a
      · have hcb : c < b := lt_of_lt_of_le hca hab
        simp only [List.dropWhile_cons, hca, hcb, decide_true, if_true, ih]
      · simp only [List.dropWhile_cons, hca, decide_false, Bool.false_eq_true, if_false]

/-- Lists with a common beginning are compared by what follows. -/
theorem append_lt_append (l : List α) {u v : List α} (h : u < v) : l ++ u < l ++ v := by
  induction l with
  | nil => exact h
  | cons a l ih => exact List.cons_lt_cons_iff.mpr (Or.inr ⟨rfl, ih⟩)

/-- An element with its ladder, read from the bottom, comes after the ladder of what is
before it. -/
theorem reverse_lt_reverse_ladder (s : List α) (a : α) :
    s.reverse < (a :: s.dropWhile (· < a)).reverse := by
  have hsplit : s.reverse = (s.dropWhile (· < a)).reverse ++ (s.takeWhile (· < a)).reverse := by
    rw [← List.reverse_append, List.takeWhile_append_dropWhile]
  rw [List.reverse_cons, hsplit]
  refine append_lt_append _ ?_
  cases hdropped : (s.takeWhile (· < a)).reverse with
  | nil => exact List.nil_lt_cons ..
  | cons c rest =>
      have hmem : c ∈ s.takeWhile (· < a) := by
        rw [← List.mem_reverse, hdropped]
        exact List.mem_cons_self
      have hlt := List.mem_takeWhile_imp hmem
      exact List.cons_lt_cons_iff.mpr (Or.inl (of_decide_eq_true hlt))

/-- The ladders of later occurrences come after the ladder of what is before them. -/
theorem reverse_lt_of_mem_ladders {s as : List α} {p : α × List α} (h : p ∈ ladders s as) :
    s.reverse < (p.1 :: p.2).reverse := by
  induction as generalizing s with
  | nil => exact absurd h List.not_mem_nil
  | cons a as ih =>
      rw [ladders, List.mem_cons] at h
      rcases h with rfl | h
      · exact reverse_lt_reverse_ladder s a
      · exact lt_trans (reverse_lt_reverse_ladder s a) (ih h)

/-- Different occurrences differ in the element or in the ladder. -/
theorem ladders_nodup (s as : List α) : (ladders s as).Nodup := by
  induction as generalizing s with
  | nil => exact List.nodup_nil
  | cons a as ih =>
      rw [ladders, List.nodup_cons]
      exact ⟨fun h => lt_irrefl _ (reverse_lt_of_mem_ladders h), ih _⟩

/-- **A list has no duplicates exactly when equal elements have equal ladders**, also for
a part of the elements. -/
theorem nodup_filter_iff_ladders (f : α → Bool) (as : List α) : (as.filter f).Nodup ↔
    ∀ p ∈ ladders [] as, ∀ q ∈ ladders [] as, f p.1 → p.1 = q.1 → p.2 = q.2 := by
  have hfilter : as.filter f =
      ((ladders [] as).filter (fun p => f p.1)).map Prod.fst := by
    rw [← ladders_map_fst [] as, List.filter_map, ladders_map_fst]
    rfl
  rw [hfilter, List.nodup_map_iff_inj_on ((ladders_nodup [] as).filter _)]
  simp only [List.mem_filter]
  constructor
  · intro h p hp q hq hf heq
    rw [h p ⟨hp, hf⟩ q ⟨hq, heq ▸ hf⟩ heq]
  · rintro h p ⟨hp, hf⟩ q ⟨hq, -⟩ heq
    exact Prod.ext heq (h p hp q hq hf heq)

/-- Two ladders that agree for the next element of a list. -/
def AgreeFor (s u : List α) (as : List α) : Prop :=
  ∀ a ∈ as.head?, s.dropWhile (· < a) = u.dropWhile (· < a)

/-- Ladders that agree for the next element give the same occurrences. -/
theorem ladders_eq_of_agreeFor {s u as : List α} (h : AgreeFor s u as) :
    ladders s as = ladders u as := by
  cases as with
  | nil => rfl
  | cons a as => rw [ladders, ladders, h a rfl]

/-- Ladders that agree for an element also agree after a smaller one has been put on. -/
theorem AgreeFor.put {s u : List α} {a b : α} {bs : List α} (h : AgreeFor s u (b :: bs))
    (hab : a < b) : AgreeFor s (a :: u.dropWhile (· < a)) (b :: bs) := by
  intro c hc
  obtain rfl : b = c := Option.some.inj hc
  simp only [List.dropWhile_cons, hab, decide_true, if_true, dropWhile_dropWhile_lt hab.le]
  exact h b rfl

/-- Ladders that have become equal agree. -/
theorem agreeFor_of_eq {s u : List α} (h : s = u) (as : List α) : AgreeFor s u as :=
  fun _ _ => by rw [h]

/-- **A union has the occurrences of the two lists, with their ladders.** -/
theorem mem_ladders_mergeUnion {s t u as bs : List α} (hs : AgreeFor s u as)
    (ht : AgreeFor t u bs) (p : α × List α) :
    p ∈ ladders u (mergeUnion as bs) ↔ p ∈ ladders s as ∨ p ∈ ladders t bs := by
  induction as, bs using mergeUnion.induct generalizing s t u with
  | case1 bs =>
      rw [mergeUnion, ladders_eq_of_agreeFor ht]
      simp only [ladders, List.not_mem_nil, false_or]
  | case2 a as =>
      rw [mergeUnion, ladders_eq_of_agreeFor hs]
      simp only [ladders, List.not_mem_nil, or_false]
  | case3 a as b bs hab ih =>
      have hdrop := hs a rfl
      rw [mergeUnion, if_pos hab, ladders, ladders, List.mem_cons, List.mem_cons, hdrop,
        ih (agreeFor_of_eq rfl as) (ht.put hab), or_assoc]
  | case4 a as b bs hab hba ih =>
      have hdrop := ht b rfl
      rw [mergeUnion, if_neg hab, if_pos hba, ladders, List.mem_cons,
        ih (hs.put hba) (agreeFor_of_eq rfl bs), ← hdrop]
      simp only [ladders, List.mem_cons]
      exact or_left_comm
  | case5 a as b bs hab hba ih =>
      obtain rfl : a = b := le_antisymm (not_lt.mp hba) (not_lt.mp hab)
      have hdrop := hs a rfl
      have hdrop' := ht a rfl
      rw [mergeUnion, if_neg hab, if_neg hba, ladders, ladders, ladders, hdrop, hdrop',
        List.mem_cons, ih (agreeFor_of_eq rfl as) (agreeFor_of_eq rfl bs), List.mem_cons,
        List.mem_cons]
      exact or_or_distrib_left

/-- The occurrences of the union of several lists. -/
theorem mem_ladders_foldl (as : List α) (ls : List (List α)) (p : α × List α) :
    p ∈ ladders [] (ls.foldl mergeUnion as) ↔ ∃ l ∈ as :: ls, p ∈ ladders [] l := by
  induction ls generalizing as with
  | nil => simp only [List.foldl_nil, List.mem_singleton, exists_eq_left]
  | cons l ls ih =>
      rw [List.foldl_cons, ih]
      simp only [List.mem_cons, or_and_right, exists_or, exists_eq_left, or_assoc,
        mem_ladders_mergeUnion (agreeFor_of_eq rfl as) (agreeFor_of_eq rfl l)]

end HeadMerge
