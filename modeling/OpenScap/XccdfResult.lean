import OpenScap.Dominance

/-!
# Combining XCCDF results

A complex check of an XCCDF rule folds the results of its children through a table
(`_resolve_operation`), beginning with 0, which is no result. This module models the
tables and the fold, and compares them with the tables in the documentation of
`_resolve_operation`. These are dominance tables: for AND, FAIL comes before UNKNOWN,
ERROR, PASS and the results that tell nothing; for OR, PASS and FAIL change places. Their
value for any number of results is `tableValue`.

In the code the rows of ERROR and UNKNOWN stand in each other's place, a child without
result resets the fold, and FIXED has no row. So the order of the children matters, save
for the lists of `Regular`.

## Main results

* `obeys_iff_regular` — the fold yields the value of the tables in whatever order the
  results come exactly on the lists of `Regular`;
* `Regular.combine_eq`, `Obeys.regular` — its two halves for AND, from which OR follows
  by negation (`obeys_or`, `regular_or`).
-/

open Dominance

namespace OpenScap

/-- `xccdf_test_result_type_t`, with the 0 that stands for no result. -/
inductive XccdfTestResult
  | unset
  | pass
  | fail
  | error
  | unknown
  | notApplicable
  | notChecked
  | notSelected
  | informational
  | fixed
  deriving DecidableEq, Repr

/-- The number of a result. -/
def XccdfTestResult.code : XccdfTestResult → ℕ
  | .unset => 0
  | .pass => 1
  | .fail => 2
  | .error => 3
  | .unknown => 4
  | .notApplicable => 5
  | .notChecked => 6
  | .notSelected => 7
  | .informational => 8
  | .fixed => 9

/-- The result of a number. -/
def XccdfTestResult.ofCode : ℕ → XccdfTestResult
  | 1 => .pass
  | 2 => .fail
  | 3 => .error
  | 4 => .unknown
  | 5 => .notApplicable
  | 6 => .notChecked
  | 7 => .notSelected
  | 8 => .informational
  | 9 => .fixed
  | _ => .unset

/-- `xccdf_bool_operator_t`. -/
inductive XccdfBoolOperator
  | and
  | or
  deriving DecidableEq, Repr

/-! ### The tables -/

/-- `RESULT_TABLE_AND`. -/
def resultTableAnd : List (List ℕ) :=
  [[0, 0, 0, 0, 0, 0, 0, 0, 0],
   [0, 1, 2, 3, 4, 1, 1, 1, 1],
   [0, 2, 2, 2, 2, 2, 2, 2, 2],
   [0, 4, 2, 4, 4, 4, 4, 4, 4],
   [0, 3, 2, 3, 4, 3, 3, 3, 3],
   [0, 1, 2, 3, 4, 5, 5, 5, 5],
   [0, 1, 2, 3, 4, 5, 6, 6, 6],
   [0, 1, 2, 3, 4, 5, 6, 7, 7],
   [0, 1, 2, 3, 4, 5, 6, 7, 8]]

/-- `RESULT_TABLE_OR`. -/
def resultTableOr : List (List ℕ) :=
  [[0, 0, 0, 0, 0, 0, 0, 0, 0],
   [0, 1, 1, 1, 1, 1, 1, 1, 1],
   [0, 1, 2, 3, 4, 2, 2, 2, 2],
   [0, 1, 4, 4, 4, 4, 4, 4, 4],
   [0, 1, 3, 3, 4, 3, 3, 3, 3],
   [0, 1, 2, 3, 4, 5, 5, 5, 5],
   [0, 1, 2, 3, 4, 5, 6, 6, 6],
   [0, 1, 2, 3, 4, 5, 6, 7, 7],
   [0, 1, 2, 3, 4, 5, 6, 7, 8]]

/-- `_resolve_operation`: 0 and results beyond INFORMATIONAL are bad operands. -/
def resolveOperation (a b : XccdfTestResult) (oper : XccdfBoolOperator) : XccdfTestResult :=
  if a = .unset ∨ b = .unset ∨ XccdfTestResult.informational.code < a.code ∨
      XccdfTestResult.informational.code < b.code then .unset
  else
    let table := match oper with
      | .and => resultTableAnd
      | .or => resultTableOr
    .ofCode ((table.getD a.code []).getD b.code 0)

/-- What `_resolve_negate` does to the result of a negated check. -/
def XccdfTestResult.negated : XccdfTestResult → XccdfTestResult
  | .pass => .fail
  | .fail => .pass
  | value => value

/-- `_resolve_negate`. -/
def resolveNegate (value : XccdfTestResult) (negate : Bool) : XccdfTestResult :=
  if negate then value.negated else value

/-! ### The fold over the children -/

/-- One turn of the loop over the children of a complex check. -/
def resolveStep (oper : XccdfBoolOperator) (ret ret2 : XccdfTestResult) : XccdfTestResult :=
  if ret = .unset then ret2 else resolveOperation ret ret2 oper

/-- The result of a complex check whose children have the given results. -/
def combine (oper : XccdfBoolOperator) (rets : List XccdfTestResult) : XccdfTestResult :=
  rets.foldl (resolveStep oper) .unset

/-! ### The documented tables -/

/-- The ranks of the results under AND, and under OR. The results that are not in the
documented tables are listed last, in the order of the enumeration. -/
def rank : XccdfBoolOperator → List XccdfTestResult
  | .and => [.fail, .unknown, .error, .pass, .notApplicable, .notChecked, .notSelected,
      .informational, .fixed]
  | .or => [.pass, .unknown, .error, .fail, .notApplicable, .notChecked, .notSelected,
      .informational, .fixed]

/-- The value of the tables for the results of the children: the dominant one. A child
without result does not count. -/
def tableValue (oper : XccdfBoolOperator) (rets : List XccdfTestResult) : XccdfTestResult :=
  (dominant (rank oper) rets).getD .unset

/-- A complex check obeys the tables on the results of its children: in whatever order
they come, its result is the value of the tables. -/
def Obeys (oper : XccdfBoolOperator) (rets : List XccdfTestResult) : Prop :=
  ∀ rets', rets'.Perm rets → combine oper rets' = tableValue oper rets

/-- The result that decides an operator alone. -/
def decisive : XccdfBoolOperator → XccdfTestResult
  | .and => .fail
  | .or => .pass

/-- The results of children on which the tables are obeyed: either no child has a result,
or every child has; FIXED comes alone, an odd number of times; and where UNKNOWN or ERROR
is not overruled by the deciding result, either all the children are UNKNOWN or an odd
number of them is ERROR. -/
def Regular (oper : XccdfBoolOperator) (rets : List XccdfTestResult) : Prop :=
  (∀ r ∈ rets, r = .unset) ∨
  .unset ∉ rets ∧
    (.fixed ∉ rets ∨ (∀ r ∈ rets, r = .fixed) ∧ rets.length % 2 = 1) ∧
    (decisive oper ∈ rets ∨ (.unknown ∉ rets ∧ .error ∉ rets) ∨ (∀ r ∈ rets, r = .unknown) ∨
      (∀ r ∈ rets, r = .error) ∧ rets.length % 2 = 1)

instance (oper : XccdfBoolOperator) (rets : List XccdfTestResult) :
    Decidable (Regular oper rets) := by
  unfold Regular
  infer_instance

/-! ### OR is the dual of AND -/

@[simp] theorem negated_negated (r : XccdfTestResult) : r.negated.negated = r := by
  cases r <;> rfl

theorem negated_injective : Function.Injective XccdfTestResult.negated :=
  Function.LeftInverse.injective negated_negated

@[simp] theorem map_negated_negated (rets : List XccdfTestResult) :
    (rets.map XccdfTestResult.negated).map XccdfTestResult.negated = rets := by
  rw [List.map_map, Function.LeftInverse.id negated_negated, List.map_id]

theorem resolveStep_or (a b : XccdfTestResult) :
    resolveStep .or a b = (resolveStep .and a.negated b.negated).negated := by
  cases a <;> cases b <;> rfl

/-- The fold of OR is the fold of AND on the negated results. -/
theorem combine_or (rets : List XccdfTestResult) :
    combine .or rets = (combine .and (rets.map .negated)).negated := by
  have step (ret : XccdfTestResult) : rets.foldl (resolveStep .or) ret =
      ((rets.map .negated).foldl (resolveStep .and) ret.negated).negated := by
    induction rets generalizing ret with
    | nil => simp
    | cons r rets ih =>
        rw [List.foldl_cons, List.map_cons, List.foldl_cons, ih, resolveStep_or,
          negated_negated]
  exact step .unset

/-- The same for the values of the tables. -/
theorem tableValue_or (rets : List XccdfTestResult) :
    tableValue .or rets = (tableValue .and (rets.map .negated)).negated := by
  have hrank : rank .and = (rank .or).map .negated := rfl
  rw [tableValue, tableValue, hrank, dominant_map negated_injective]
  cases dominant (rank .or) rets with
  | none => rfl
  | some r => simp

/-- A complex check with OR obeys the tables where one with AND does on the negated
results. -/
theorem obeys_or (rets : List XccdfTestResult) :
    Obeys .or rets ↔ Obeys .and (rets.map .negated) := by
  constructor
  · intro h rets' hperm
    have hmap := hperm.map XccdfTestResult.negated
    rw [map_negated_negated] at hmap
    have hor := h _ hmap
    rw [combine_or, tableValue_or, map_negated_negated] at hor
    exact negated_injective hor
  · intro h rets' hperm
    rw [combine_or, tableValue_or, h _ (hperm.map XccdfTestResult.negated)]

theorem forall_map_negated {rets : List XccdfTestResult} {a : XccdfTestResult} :
    (∀ r ∈ rets.map .negated, r = a) ↔ ∀ r ∈ rets, r = a.negated := by
  rw [List.forall_mem_map]
  exact forall₂_congr fun r _ => ⟨fun h => by simp [← h], fun h => by simp [h]⟩

theorem mem_map_negated {rets : List XccdfTestResult} {a : XccdfTestResult} :
    a ∈ rets.map .negated ↔ a.negated ∈ rets := by
  rw [← List.mem_map_of_injective negated_injective, map_negated_negated]

theorem regular_or (rets : List XccdfTestResult) :
    Regular .or rets ↔ Regular .and (rets.map .negated) := by
  simp only [Regular, forall_map_negated]
  simp only [mem_map_negated, decisive, List.length_map, XccdfTestResult.negated]

/-! ### AND on results of children -/

theorem combine_append (oper : XccdfBoolOperator) (rets : List XccdfTestResult)
    (r : XccdfTestResult) :
    combine oper (rets ++ [r]) = resolveStep oper (combine oper rets) r := by
  rw [combine, List.foldl_append, List.foldl_cons, List.foldl_nil, combine]

/-- The tables know a value for every list with a result in it. -/
theorem exists_tableValue {rets : List XccdfTestResult} {r : XccdfTestResult} (hr : r ∈ rets)
    (hne : r ≠ .unset) :
    ∃ a, dominant (rank .and) rets = some a ∧ tableValue .and rets = a := by
  have hrank : r ∈ rank .and := by
    cases r <;> simp_all [rank]
  obtain ⟨a, ha⟩ := exists_dominant hrank hr
  exact ⟨a, ha, by rw [tableValue, ha, Option.getD_some]⟩

theorem tableValue_ne_unset {rets : List XccdfTestResult} {r : XccdfTestResult}
    (hr : r ∈ rets) (hne : r ≠ .unset) : tableValue .and rets ≠ .unset := by
  obtain ⟨a, ha, hvalue⟩ := exists_tableValue hr hne
  have hrank := mem_rank_of_dominant ha
  rw [hvalue]
  rintro rfl
  simp [rank] at hrank

/-- FIXED is the value of the tables only when there is no other result. -/
theorem tableValue_ne_fixed {rets : List XccdfTestResult} {r : XccdfTestResult}
    (hr : r ∈ rets) (hne : r ≠ .unset) (hfixed : r ≠ .fixed) :
    tableValue .and rets ≠ .fixed := by
  have hsplit : rank .and = (rank .and).dropLast ++ [.fixed] := rfl
  have hrank : r ∈ (rank .and).dropLast := by
    revert hne hfixed
    cases r <;> decide
  obtain ⟨a, ha⟩ := exists_dominant hrank hr
  have hmem := mem_rank_of_dominant ha
  rw [tableValue, hsplit, dominant_append_rank ha, Option.getD_some]
  rintro rfl
  exact absurd hmem (by decide)

theorem combine_replicate_fixed (n : ℕ) :
    combine .and (List.replicate n .fixed) = if n % 2 = 1 then .fixed else .unset := by
  induction n with
  | zero => rfl
  | succ n ih =>
      rw [List.replicate_succ', combine_append, ih]
      rcases Nat.mod_two_eq_zero_or_one n with hn | hn
      · have hsucc : (n + 1) % 2 = 1 := by omega
        rw [hn, hsucc]
        rfl
      · have hsucc : (n + 1) % 2 = 0 := by omega
        rw [hn, hsucc]
        rfl

/-- ERROR with ERROR gives UNKNOWN, and UNKNOWN with ERROR gives ERROR. -/
theorem combine_replicate_error (n : ℕ) :
    combine .and (List.replicate (n + 1) .error) =
      if (n + 1) % 2 = 1 then .error else .unknown := by
  induction n with
  | zero => rfl
  | succ n ih =>
      rw [List.replicate_succ', combine_append, ih]
      rcases Nat.mod_two_eq_zero_or_one n with hn | hn
      · have hsucc : (n + 1) % 2 = 1 := by omega
        have hsucc' : (n + 1 + 1) % 2 = 0 := by omega
        rw [hsucc, hsucc']
        rfl
      · have hsucc : (n + 1) % 2 = 0 := by omega
        have hsucc' : (n + 1 + 1) % 2 = 1 := by omega
        rw [hsucc, hsucc']
        rfl

theorem combine_replicate_unknown (n : ℕ) :
    combine .and (List.replicate (n + 1) .unknown) = .unknown := by
  induction n with
  | zero => rfl
  | succ n ih =>
      rw [List.replicate_succ', combine_append, ih]
      rfl

/-- No step yields FIXED out of other results, and FAIL decides a step. -/
theorem resolveStep_of_fail {a b : XccdfTestResult} (ha : a ≠ .fixed) (hunset : .unset ≠ b)
    (hfixed : .fixed ≠ b) :
    resolveStep .and a b ≠ .fixed ∧
      (a = .fail ∨ .fail = b → resolveStep .and a b = .fail) := by
  revert ha hunset hfixed
  cases a <;> cases b <;> decide

/-- FAIL decides, whenever it comes, as long as no child is without result or FIXED. -/
theorem foldl_of_fail {rets : List XccdfTestResult} {ret : XccdfTestResult}
    (hunset : .unset ∉ rets) (hfixed : .fixed ∉ rets) (hret : ret ≠ .fixed)
    (hfail : ret = .fail ∨ .fail ∈ rets) :
    rets.foldl (resolveStep .and) ret = .fail := by
  induction rets generalizing ret with
  | nil => simpa using hfail
  | cons r rets ih =>
      rw [List.mem_cons, not_or] at hunset hfixed
      obtain ⟨hne, hstep⟩ := resolveStep_of_fail hret hunset.1 hfixed.1
      rw [List.foldl_cons]
      refine ih hunset.2 hfixed.2 hne ?_
      rw [List.mem_cons, ← or_assoc] at hfail
      exact hfail.imp hstep id

/-- The results on which the table of AND is a dominance table. -/
def certain : List XccdfTestResult :=
  [.pass, .fail, .notApplicable, .notChecked, .notSelected, .informational]

theorem resolveStep_certain {a b : XccdfTestResult} (ha : a ∈ certain) (hb : b ∈ certain) :
    dominant (rank .and) [a, b] = some (resolveStep .and a b) := by
  simp only [certain, List.mem_cons, List.not_mem_nil, or_false] at ha hb
  rcases ha with rfl | rfl | rfl | rfl | rfl | rfl <;>
    rcases hb with rfl | rfl | rfl | rfl | rfl | rfl <;> rfl

theorem combine_of_certain {rets : List XccdfTestResult} (h : ∀ r ∈ rets, r ∈ certain) :
    combine .and rets = tableValue .and rets := by
  cases rets with
  | nil => rfl
  | cons r rets =>
      rw [List.forall_mem_cons] at h
      have hfold := foldl_eq_dominant (fun _ _ => resolveStep_certain) rets h.1 h.2
      rw [tableValue, hfold, Option.getD_some]
      rfl

/-- UNKNOWN and ERROR change places at every result but FAIL and UNKNOWN. -/
theorem resolveStep_swap {r : XccdfTestResult}
    (h : r ≠ .unset ∧ r ≠ .fixed ∧ r ≠ .fail ∧ r ≠ .unknown) :
    resolveStep .and .unknown r = .error ∧ resolveStep .and .error r = .unknown := by
  revert h
  cases r <;> decide

/-- Hence two folds that begin with the one and the other end differently. -/
theorem foldl_unknown_ne_foldl_error {rets : List XccdfTestResult}
    (h : ∀ r ∈ rets, r ≠ .unset ∧ r ≠ .fixed ∧ r ≠ .fail ∧ r ≠ .unknown) :
    rets.foldl (resolveStep .and) .unknown ≠ rets.foldl (resolveStep .and) .error := by
  induction rets with
  | nil => decide
  | cons r rets ih =>
      rw [List.forall_mem_cons] at h
      obtain ⟨hunknown, herror⟩ := resolveStep_swap h.1
      rw [List.foldl_cons, List.foldl_cons, hunknown, herror]
      exact (ih h.2).symm

theorem resolveStep_ne_fail {a b : XccdfTestResult} (ha : a ≠ .fixed ∧ a ≠ .fail)
    (hb : b ≠ .fixed ∧ b ≠ .fail) :
    resolveStep .and a b ≠ .fixed ∧ resolveStep .and a b ≠ .fail := by
  revert ha hb
  cases a <;> cases b <;> decide

/-- Without FAIL and FIXED among the results, neither comes out. -/
theorem foldl_ne_fail {rets : List XccdfTestResult} {ret : XccdfTestResult}
    (h : ∀ r ∈ rets, r ≠ .fixed ∧ r ≠ .fail) (hret : ret ≠ .fixed ∧ ret ≠ .fail) :
    rets.foldl (resolveStep .and) ret ≠ .fixed ∧
      rets.foldl (resolveStep .and) ret ≠ .fail := by
  induction rets generalizing ret with
  | nil => exact hret
  | cons r rets ih =>
      rw [List.forall_mem_cons] at h
      exact ih h.2 (resolveStep_ne_fail hret h.1)

/-- Bringing one result to the end. -/
theorem perm_erase_append {rets : List XccdfTestResult} {r : XccdfTestResult} (hr : r ∈ rets) :
    (rets.erase r ++ [r]).Perm rets :=
  (List.perm_append_singleton _ _).trans (List.perm_cons_erase hr).symm

/-- A child without result, brought to the end, erases what has been accumulated. -/
theorem Obeys.unset_not_mem {rets : List XccdfTestResult} (h : Obeys .and rets)
    {r : XccdfTestResult} (hr : r ∈ rets) (hne : r ≠ .unset) : .unset ∉ rets := by
  intro hmem
  have hlast := h _ (perm_erase_append hmem)
  have hvalue := tableValue_ne_unset hr hne
  rw [combine_append] at hlast
  apply hvalue
  rw [← hlast]
  cases combine .and (rets.erase .unset) <;> rfl

/-- FIXED, brought to the end, erases the other results or is the result. -/
theorem Obeys.fixed_alone {rets : List XccdfTestResult} (h : Obeys .and rets)
    (hunset : .unset ∉ rets) (hmem : .fixed ∈ rets) :
    (∀ r ∈ rets, r = .fixed) ∧ rets.length % 2 = 1 := by
  have hvalue := tableValue_ne_unset hmem (by decide)
  have hone : ∀ r ∈ rets, r = .fixed := by
    by_contra hother
    push Not at hother
    obtain ⟨x, hx, hxne⟩ := hother
    have hlast := h _ (perm_erase_append hmem)
    have hxunset : x ≠ .unset := fun heq => hunset (heq ▸ hx)
    have hvalue' := tableValue_ne_fixed hx hxunset hxne
    rw [combine_append] at hlast
    rw [← hlast] at hvalue hvalue'
    revert hvalue hvalue'
    cases combine .and (rets.erase .fixed) <;> decide
  refine ⟨hone, ?_⟩
  have hself := h rets (List.Perm.refl _)
  have hcombine := combine_replicate_fixed rets.length
  rw [← List.eq_replicate_of_mem hone] at hcombine
  by_contra hodd
  rw [if_neg hodd] at hcombine
  exact hvalue (hself ▸ hcombine)

/-- The values of a list of results that obeys the tables and holds neither FIXED nor a
child without result. -/
theorem forall_clean {rets : List XccdfTestResult} (hunset : .unset ∉ rets)
    (hfixed : .fixed ∉ rets) (hfail : .fail ∉ rets) {r : XccdfTestResult} (hr : r ∈ rets) :
    r ≠ .unset ∧ r ≠ .fixed ∧ r ≠ .fail :=
  ⟨fun h => hunset (h ▸ hr), fun h => hfixed (h ▸ hr), fun h => hfail (h ▸ hr)⟩

/-- UNKNOWN becomes ERROR under another result that follows it. -/
theorem Obeys.all_unknown {rets : List XccdfTestResult} (h : Obeys .and rets)
    (hunset : .unset ∉ rets) (hfixed : .fixed ∉ rets) (hfail : .fail ∉ rets)
    (hmem : .unknown ∈ rets) : ∀ r ∈ rets, r = .unknown := by
  by_contra hother
  push Not at hother
  obtain ⟨x, hx, hxne⟩ := hother
  have hclean := @forall_clean rets hunset hfixed hfail
  have hx' : x ∈ rets.erase .unknown := (List.mem_erase_of_ne hxne).mpr hx
  have hperm : ((rets.erase .unknown).erase x ++ [.unknown, x]).Perm rets :=
    List.perm_append_comm.trans
      (((List.perm_cons_erase hx').symm.cons _).trans (List.perm_cons_erase hmem).symm)
  have hlast := h _ hperm
  have hrest : combine .and ((rets.erase .unknown).erase x) ≠ .fixed ∧
      combine .and ((rets.erase .unknown).erase x) ≠ .fail :=
    foldl_ne_fail (fun r hr =>
      (hclean (List.mem_of_mem_erase (List.mem_of_mem_erase hr))).2) (by decide)
  have hunknown : resolveStep .and (combine .and ((rets.erase .unknown).erase x)) .unknown =
      .unknown := by
    revert hrest
    cases combine .and ((rets.erase .unknown).erase x) <;> decide
  have hswap := (resolveStep_swap
    ⟨(hclean hx).1, (hclean hx).2.1, (hclean hx).2.2, hxne⟩).1
  have hvalue : tableValue .and rets = .unknown := by
    simp [tableValue, rank, dominant_cons, hfail, hmem]
  rw [hvalue, List.append_cons, combine_append, combine_append, hunknown, hswap] at hlast
  exact absurd hlast (by decide)

/-- Without UNKNOWN, every other result that follows ERROR changes it, so that the order
of ERROR and another result at the beginning shows at the end. -/
theorem Obeys.all_error {rets : List XccdfTestResult} (h : Obeys .and rets)
    (hunset : .unset ∉ rets) (hfixed : .fixed ∉ rets) (hfail : .fail ∉ rets)
    (hunknown : .unknown ∉ rets) (hmem : .error ∈ rets) :
    (∀ r ∈ rets, r = .error) ∧ rets.length % 2 = 1 := by
  have hclean := @forall_clean rets hunset hfixed hfail
  have hone : ∀ r ∈ rets, r = .error := by
    by_contra hother
    push Not at hother
    obtain ⟨x, hx, hxne⟩ := hother
    have hx' : x ∈ rets.erase .error := (List.mem_erase_of_ne hxne).mpr hx
    have hperm : (.error :: x :: (rets.erase .error).erase x).Perm rets :=
      ((List.perm_cons_erase hx').symm.cons _).trans (List.perm_cons_erase hmem).symm
    have hfirst := h _ hperm
    have hsecond := h _ ((List.Perm.swap _ _ _).trans hperm)
    have hstep : resolveStep .and .error x = .unknown ∧ resolveStep .and x .error = .error := by
      have hxclean := hclean hx
      have hxunknown : x ≠ .unknown := fun heq => hunknown (heq ▸ hx)
      revert hxclean hxunknown hxne
      cases x <;> decide
    have hstart (r : XccdfTestResult) : resolveStep .and .unset r = r := rfl
    rw [combine, List.foldl_cons, List.foldl_cons, hstart, hstep.1] at hfirst
    rw [combine, List.foldl_cons, List.foldl_cons, hstart, hstep.2] at hsecond
    refine foldl_unknown_ne_foldl_error (fun r hr => ?_) (hfirst.trans hsecond.symm)
    have hr' := List.mem_of_mem_erase (List.mem_of_mem_erase hr)
    exact ⟨(hclean hr').1, (hclean hr').2.1, (hclean hr').2.2,
      fun heq => hunknown (heq ▸ hr')⟩
  refine ⟨hone, ?_⟩
  have hself := h rets (List.Perm.refl _)
  have hvalue : tableValue .and rets = .error := by
    simp [tableValue, rank, dominant_cons, hfail, hunknown, hmem]
  obtain ⟨n, hn⟩ := Nat.exists_eq_add_of_lt (List.length_pos_of_mem hmem)
  have hcombine := combine_replicate_error n
  rw [Nat.zero_add] at hn
  rw [← hn, ← List.eq_replicate_of_mem hone, hself, hvalue] at hcombine
  by_contra hodd
  rw [if_neg hodd] at hcombine
  exact absurd hcombine (by decide)

/-- A list of results that obeys the tables is regular. -/
theorem Obeys.regular {rets : List XccdfTestResult} (h : Obeys .and rets) :
    Regular .and rets := by
  by_cases hall : ∀ r ∈ rets, r = .unset
  · exact Or.inl hall
  · right
    push Not at hall
    obtain ⟨r, hr, hne⟩ := hall
    have hunset := h.unset_not_mem hr hne
    by_cases hfixed : .fixed ∈ rets
    · have halone := h.fixed_alone hunset hfixed
      refine ⟨hunset, Or.inr halone, Or.inr (Or.inl ⟨fun hmem => ?_, fun hmem => ?_⟩)⟩
      · exact absurd (halone.1 _ hmem) (by decide)
      · exact absurd (halone.1 _ hmem) (by decide)
    · refine ⟨hunset, Or.inl hfixed, ?_⟩
      by_cases hfail : .fail ∈ rets
      · exact Or.inl hfail
      · by_cases hunknown : .unknown ∈ rets
        · exact Or.inr (Or.inr (Or.inl (h.all_unknown hunset hfixed hfail hunknown)))
        · by_cases herror : .error ∈ rets
          · exact Or.inr (Or.inr (Or.inr
              (h.all_error hunset hfixed hfail hunknown herror)))
          · exact Or.inr (Or.inl ⟨hunknown, herror⟩)

/-- Children without result leave the tables without value. -/
theorem tableValue_of_unset {rets : List XccdfTestResult} (h : ∀ r ∈ rets, r = .unset) :
    tableValue .and rets = .unset := by
  cases hdom : dominant (rank .and) rets with
  | none => rw [tableValue, hdom, Option.getD_none]
  | some a => rw [tableValue, hdom, Option.getD_some, h a (mem_of_dominant hdom)]

theorem combine_of_unset {rets : List XccdfTestResult} (h : ∀ r ∈ rets, r = .unset) :
    combine .and rets = .unset := by
  rw [combine]
  induction rets with
  | nil => rfl
  | cons r rets ih =>
      rw [List.forall_mem_cons] at h
      rw [List.foldl_cons, h.1]
      exact ih h.2

/-- On a regular list of results, the fold yields the value of the tables. -/
theorem Regular.combine_eq {rets : List XccdfTestResult} (h : Regular .and rets) :
    combine .and rets = tableValue .and rets := by
  rcases h with hall | ⟨hunset, hfixed, hthird⟩
  · rw [combine_of_unset hall, tableValue_of_unset hall]
  · by_cases hmem : .fixed ∈ rets
    · obtain ⟨hone, hodd⟩ := hfixed.resolve_left (not_not.mpr hmem)
      have hcombine := combine_replicate_fixed rets.length
      have hne (a : XccdfTestResult) (ha : a ≠ .fixed) : a ∉ rets := fun h => ha (hone a h)
      rw [← List.eq_replicate_of_mem hone, if_pos hodd] at hcombine
      rw [hcombine]
      simp [tableValue, rank, dominant_cons, hmem, hne]
    · have hclean (r : XccdfTestResult) (hr : r ∈ rets) : r ≠ .unset ∧ r ≠ .fixed :=
        ⟨fun heq => hunset (heq ▸ hr), fun heq => hmem (heq ▸ hr)⟩
      rcases hthird with hfail | ⟨hunknown, herror⟩ | hone | ⟨hone, hodd⟩
      · rw [combine, foldl_of_fail hunset hmem (by decide) (Or.inr hfail)]
        simp only [decisive] at hfail
        simp [tableValue, rank, dominant_cons, hfail]
      · refine combine_of_certain fun r hr => ?_
        have hr' := hclean r hr
        have hunknown' : r ≠ .unknown := fun heq => hunknown (heq ▸ hr)
        have herror' : r ≠ .error := fun heq => herror (heq ▸ hr)
        revert hr' hunknown' herror'
        cases r <;> decide
      · cases hrets : rets with
        | nil => rfl
        | cons r rest =>
            have hcombine := combine_replicate_unknown rest.length
            have hlength : rets.length = rest.length + 1 := by rw [hrets, List.length_cons]
            rw [← hlength, ← List.eq_replicate_of_mem hone] at hcombine
            have hne (a : XccdfTestResult) (ha : a ≠ .unknown) : a ∉ rets :=
              fun h => ha (hone a h)
            have hmem' : .unknown ∈ rets := by
              rw [hrets, ← hone r (hrets ▸ List.mem_cons_self)]
              exact List.mem_cons_self
            rw [← hrets, hcombine]
            simp [tableValue, rank, dominant_cons, hmem', hne]
      · obtain ⟨n, hn⟩ : ∃ n, rets.length = n + 1 := ⟨rets.length - 1, by omega⟩
        have hcombine := combine_replicate_error n
        rw [← hn, ← List.eq_replicate_of_mem hone, if_pos hodd] at hcombine
        have hne (a : XccdfTestResult) (ha : a ≠ .error) : a ∉ rets := fun h => ha (hone a h)
        have hmem' : .error ∈ rets := by
          rw [List.eq_replicate_of_mem hone, hn]
          exact List.mem_cons_self
        rw [hcombine]
        simp [tableValue, rank, dominant_cons, hmem', hne]

/-- Being regular does not depend on the order. -/
theorem Regular.perm {rets rets' : List XccdfTestResult} (h : Regular .and rets)
    (hperm : rets'.Perm rets) : Regular .and rets' := by
  simpa only [Regular, hperm.mem_iff, hperm.length_eq] using h

/-- **Which results of children obey the tables.** -/
theorem obeys_iff_regular (oper : XccdfBoolOperator) (rets : List XccdfTestResult) :
    Obeys oper rets ↔ Regular oper rets := by
  have hand (rets : List XccdfTestResult) : Obeys .and rets ↔ Regular .and rets := by
    refine ⟨Obeys.regular, fun h rets' hperm => ?_⟩
    rw [(h.perm hperm).combine_eq, tableValue, tableValue, dominant_perm hperm]
  cases oper with
  | and => exact hand rets
  | or => rw [obeys_or, regular_or, hand]

end OpenScap
