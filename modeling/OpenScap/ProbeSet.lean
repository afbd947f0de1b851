import Mathlib.Data.List.Sort
import OpenScap.HeadMerge
import OpenScap.OvalTest

/-!
# Set objects

The probe worker keeps the items of an evaluated object in a list of references, and
equal items have the same reference (the item cache takes care of that). A set object
combines the lists of other objects by `probeSetCombine`, whose three sweeps compare the
heads of the lists by address. They are right on increasing lists, and the worker sorts
every list before it is sent or cached.

An object whose entities refer to variables is evaluated for one combination of their
values after the other, and the worker unites the collected lists before they are
sorted. There an item of two of the lists may be taken twice. Sorting does not take a
duplicate away, and in a set a duplicate survives unions and differences.

## Main results

* `probeSetCombine_of_increasing` — the combination of increasing lists;
* `probeSetEval_increasing`, `exact_of_increasing` — along a set expression all lists are
  increasing, and each combination is that of the sets;
* `setExact_iff` — this is so for every set expression exactly when, in what was collected
  for each object, equal items have equal ladders.
-/

open HeadMerge

namespace OpenScap

/-! ### Collected objects -/

/-- A collected object: its flag, the texts of its messages, its items and its mask. -/
structure Cobj (α : Type) where
  flag : SyscharFlag
  msgs : List String
  items : List α
  mask : List String

/-- `oval_setobject_operation_t`. -/
inductive SetOperation
  | union
  | intersection
  | complement
  deriving DecidableEq, Repr

/-- `probe_cobj_combine_flags`. -/
def probeCobjCombineFlags (f1 f2 : SyscharFlag) : SetOperation → SyscharFlag
  | .complement =>
      match f1 with
      | .complete =>
          match f2 with
          | .complete | .doesNotExist => .complete
          | _ => .error
      | .incomplete =>
          match f2 with
          | .complete | .doesNotExist => .incomplete
          | _ => .error
      | .doesNotExist => if f2 ≠ .notApplicable then .doesNotExist else .error
      | .notCollected =>
          if f2 ≠ .notApplicable ∧ f2 ≠ .error then .notCollected else .error
      | _ => .error
  | .intersection =>
      match f1 with
      | .complete =>
          match f2 with
          | .doesNotExist => .doesNotExist
          | .complete | .notApplicable => .complete
          | .incomplete => .incomplete
          | .notCollected => .notCollected
          | _ => .error
      | .incomplete =>
          match f2 with
          | .doesNotExist => .doesNotExist
          | .notApplicable => .notApplicable
          | .notCollected | .complete | .incomplete => .incomplete
          | _ => .error
      | .doesNotExist => .doesNotExist
      | .notCollected =>
          match f2 with
          | .doesNotExist => .doesNotExist
          | .complete | .incomplete | .notApplicable | .notCollected => .notCollected
          | _ => .error
      | .notApplicable =>
          match f2 with
          | .unknown => .error
          | f2 => f2
      | _ => .error
  | .union =>
      match f1 with
      | .complete =>
          match f2 with
          | .complete | .doesNotExist | .notApplicable => .complete
          | .incomplete | .notCollected => .incomplete
          | _ => .error
      | .incomplete => if f2 ≠ .error then .incomplete else .error
      | .doesNotExist =>
          match f2 with
          | .complete => .complete
          | .incomplete | .notCollected => .incomplete
          | .notApplicable | .doesNotExist => .doesNotExist
          | _ => .error
      | .notCollected =>
          match f2 with
          | .complete | .incomplete | .doesNotExist => .incomplete
          | .notApplicable | .notCollected => .notCollected
          | _ => .error
      | .notApplicable =>
          match f2 with
          | .unknown => .error
          | f2 => f2
      | _ => .error

section Items

variable {α : Type} [LinearOrder α]

/-- The sweep of an operation. The order is that of the addresses (`SEXP_refcmp`). -/
def setSweep : SetOperation → List α → List α → List α
  | .union => mergeUnion
  | .intersection => mergeInter
  | .complement => mergeDiff

/-- `probe_set_combine` -/
def probeSetCombine (cobj0 cobj1 : Option (Cobj α)) (op : SetOperation) : Option (Cobj α) :=
  match cobj0, cobj1 with
  | none, cobj1 => cobj1
  | some cobj0, none => some cobj0
  | some cobj0, some cobj1 =>
      let res := setSweep op cobj0.items cobj1.items
      let flag := probeCobjCombineFlags cobj0.flag cobj1.flag op
      let flag := if flag = .complete ∧ res.length = 0 then .doesNotExist else flag
      some ⟨flag, [], res, cobj0.mask ++ cobj1.mask⟩

variable (status : α → SyscharStatus)

/-- `probe_cobj_compute_flag`: the flag that the statuses of the items give to an object
that has none. An invalid status leaves it as it is. -/
def probeCobjComputeFlag (cobj : Cobj α) : Cobj α :=
  if ∃ item ∈ cobj.items, status item = .unknown then cobj
  else
    let flag :=
      if ∃ item ∈ cobj.items, status item = .error then .error
      else if ∃ item ∈ cobj.items, status item = .notCollected then .incomplete
      else if ∃ item ∈ cobj.items, status item = .exists_ then .complete
      else .doesNotExist
    if cobj.flag = .unknown then { cobj with flag := flag } else cobj

/-- What the loop of `probe_set_apply_filters` keeps of the items, up to one that was not
collected. -/
def filterItems (filtered : α → Bool) : List α → Option (List α)
  | [] => some []
  | item :: items =>
      match status item with
      | .doesNotExist => filterItems filtered items
      | .notCollected => none
      | _ => do
          let rest ← filterItems filtered items
          return if filtered item then rest else item :: rest

/-- The number of `SYSCHAR_STATUS_NOT_COLLECTED`. -/
def statusNotCollected : ℕ := 4

/-- `probe_set_apply_filters` -/
def probeSetApplyFilters (cobj : Cobj α) (filtered : α → Bool) : Cobj α :=
  match filterItems status filtered cobj.items with
  | none =>
      ⟨.error, ["Supplied item has an invalid status: " ++ toString statusNotCollected ++ "."],
        [], []⟩
  | some items =>
      let flag :=
        if cobj.flag = .complete ∧ items.length = 0 then .doesNotExist else cobj.flag
      ⟨flag, [], items, cobj.mask⟩

/-! ### Objects and sets -/

/-- What the probe implementation collected for an object that is not a set: a list of
items for each combination of values of its variables, or one list when it refers to none. -/
structure Collected (α : Type) where
  mask : List String
  first : List α
  rest : List (List α)

/-- The object that the probe implementation collects for one combination. -/
def collectedCobj (mask : List String) (items : List α) : Cobj α :=
  probeCobjComputeFlag status ⟨.unknown, [], items, mask⟩

/-- One turn of the loop over the combinations. -/
def uniteStep (mask : List String) (probeOut : Cobj α) (items : List α) : Cobj α :=
  (probeSetCombine (some probeOut) (some (collectedCobj status mask items)) .union).getD probeOut

/-- The part of `probe_worker` for an object that is not a set. The first turn of the loop
has nothing to unite with. -/
def probeWorkerCollect (collected : Collected α) : Cobj α :=
  let probeOut := collectedCobj status collected.mask collected.first
  let probeOut := (probeSetCombine none (some probeOut) .union).getD probeOut
  collected.rest.foldl (uniteStep status collected.mask) probeOut

/-- The end of `probe_worker_runfn`: the items are sorted before the object is cached. -/
def sortItems (cobj : Cobj α) : Cobj α :=
  { cobj with items := cobj.items.insertionSort (· ≤ ·) }

end Items

mutual

/-- A set: an operation on subsets, or on objects with filters. -/
inductive SetExpr (α ι : Type) where
  | sets (op : SetOperation) (first : SetExpr α ι) (rest : List (SetExpr α ι))
  | objects (op : SetOperation) (filtered : α → Bool) (first : ObjectRef α ι)
      (rest : List (ObjectRef α ι))

/-- A reference to an object: one that was collected, or a set object. -/
inductive ObjectRef (α ι : Type) where
  | collected (object : ι)
  | setObject (set : SetExpr α ι)

end

section Eval

variable {α ι : Type} [LinearOrder α] (status : α → SyscharStatus) (objects : ι → Collected α)

/-- `MAX_EVAL_DEPTH` -/
def maxEvalDepth : ℕ := 8

/-- A collected object that stands for a failure. -/
def errorCobj (msg : String) : Cobj α := ⟨.error, [msg], [], []⟩

/-- The operation of a set on its operands, of which there are at most two. -/
def combineSubsets (op : SetOperation) (tooMany : String) : List (Cobj α) → Cobj α
  | [] => errorCobj tooMany
  | [s0] => (probeSetCombine (some s0) none op).getD s0
  | [s0, s1] => (probeSetCombine (some s0) (some s1) op).getD s0
  | _ => errorCobj tooMany

mutual

/-- `probe_set_eval` -/
def probeSetEval (depth : ℕ) : SetExpr α ι → Cobj α
  | .sets op first rest =>
      if maxEvalDepth < depth then
        errorCobj ("probe_set_eval: Too many levels: max=" ++ toString maxEvalDepth ++ ".")
      else
        combineSubsets op "probe_set_eval: More than 2 \"set\"."
          (probeSetEval (depth + 1) first :: subsetsEval (depth + 1) rest)
  | .objects op filtered first rest =>
      if maxEvalDepth < depth then
        errorCobj ("probe_set_eval: Too many levels: max=" ++ toString maxEvalDepth ++ ".")
      else
        combineSubsets op "probe_set_eval: more than 2 obj_refs."
          (probeSetApplyFilters status (cachedObject first) filtered ::
            (cachedObjects rest).map fun cobj => probeSetApplyFilters status cobj filtered)

/-- The subsets of a set. -/
def subsetsEval (depth : ℕ) : List (SetExpr α ι) → List (Cobj α)
  | [] => []
  | set :: sets => probeSetEval depth set :: subsetsEval depth sets

/-- The cached result of an object. -/
def cachedObject : ObjectRef α ι → Cobj α
  | .collected object => sortItems (probeWorkerCollect status (objects object))
  | .setObject set => sortItems (probeSetEval 0 set)

/-- The cached results of objects. -/
def cachedObjects : List (ObjectRef α ι) → List (Cobj α)
  | [] => []
  | ref :: refs => cachedObject ref :: cachedObjects refs

end

end Eval

/-! ### Combining increasing lists -/

section Combine

variable {α : Type} [LinearOrder α]

/-- The sets that an operation stands for. -/
def setOperation : SetOperation → Prop → Prop → Prop
  | .union, a, b => a ∨ b
  | .intersection, a, b => a ∧ b
  | .complement, a, b => a ∧ ¬ b

/-- A list has exactly the items that an operation on sets gives, each once. -/
def CombineExact (op : SetOperation) : List (Cobj α) → Cobj α → Prop
  | [s0], result => result.items.Nodup ∧ ∀ x, x ∈ result.items ↔ x ∈ s0.items
  | [s0, s1], result => result.items.Nodup ∧
      ∀ x, x ∈ result.items ↔ setOperation op (x ∈ s0.items) (x ∈ s1.items)
  | _, _ => True

/-- The items of a collected object are strictly increasing. -/
def Cobj.Increasing (cobj : Cobj α) : Prop := cobj.items.Pairwise (· < ·)

/-- A strictly increasing list has no duplicates. -/
theorem Cobj.Increasing.nodup {cobj : Cobj α} (h : cobj.Increasing) : cobj.items.Nodup :=
  List.Pairwise.imp ne_of_lt h

/-- The sweeps keep increasing lists increasing. -/
theorem setSweep_increasing (op : SetOperation) {as bs : List α} (has : as.Pairwise (· < ·))
    (hbs : bs.Pairwise (· < ·)) : (setSweep op as bs).Pairwise (· < ·) := by
  cases op with
  | union => exact pairwise_mergeUnion has hbs
  | intersection => exact List.Pairwise.sublist (mergeInter_sublist as bs) has
  | complement => exact List.Pairwise.sublist (mergeDiff_sublist as bs) has

/-- The sweeps compute the operations on increasing lists. -/
theorem mem_setSweep (op : SetOperation) {as bs : List α} (has : as.Pairwise (· < ·))
    (hbs : bs.Pairwise (· < ·)) (x : α) :
    x ∈ setSweep op as bs ↔ setOperation op (x ∈ as) (x ∈ bs) := by
  cases op with
  | union => exact mem_mergeUnion as bs x
  | intersection => exact mem_mergeInter has hbs x
  | complement => exact mem_mergeDiff has hbs x

/-- **The operation of a set on increasing lists**: the result is increasing and has
exactly the items of the operation. -/
theorem combineSubsets_of_increasing (op : SetOperation) (tooMany : String)
    {cobjs : List (Cobj α)} (h : ∀ cobj ∈ cobjs, cobj.Increasing) :
    (combineSubsets op tooMany cobjs).Increasing ∧
      CombineExact op cobjs (combineSubsets op tooMany cobjs) := by
  match cobjs with
  | [] => exact ⟨List.Pairwise.nil, trivial⟩
  | [s0] =>
      have hs0 : s0.Increasing := h s0 List.mem_cons_self
      exact ⟨hs0, hs0.nodup, fun _ => Iff.rfl⟩
  | [s0, s1] =>
      have hs0 : s0.Increasing := h s0 List.mem_cons_self
      have hs1 : s1.Increasing := h s1 (List.mem_cons_of_mem _ List.mem_cons_self)
      have hincreasing : (combineSubsets op tooMany [s0, s1]).Increasing :=
        setSweep_increasing op hs0 hs1
      exact ⟨hincreasing, hincreasing.nodup, mem_setSweep op hs0 hs1⟩
  | _ :: _ :: _ :: _ => exact ⟨List.Pairwise.nil, trivial⟩

/-- Sorting keeps an increasing list increasing. -/
theorem Cobj.Increasing.sortItems {cobj : Cobj α} (h : cobj.Increasing) :
    (sortItems cobj).Increasing := by
  have hsorted : cobj.items.insertionSort (· ≤ ·) = cobj.items :=
    List.Pairwise.insertionSort_eq (List.Pairwise.imp le_of_lt h)
  rw [Cobj.Increasing, OpenScap.sortItems, hsorted]
  exact h

variable (status : α → SyscharStatus)

/-- An item that the filters of a set look at. -/
def kept (item : α) : Bool := status item ≠ .doesNotExist

omit [LinearOrder α] in
/-- What the filters keep, unless an item was not collected. -/
theorem filterItems_eq (filtered : α → Bool) (items : List α) :
    filterItems status filtered items =
      if ∃ item ∈ items, status item = .notCollected then none
      else some ((items.filter (kept status)).filter fun item => !filtered item) := by
  induction items with
  | nil => simp only [filterItems, List.not_mem_nil, false_and, exists_false, if_false,
      List.filter_nil]
  | cons item items ih =>
      rw [filterItems, ih]
      simp only [List.mem_cons, exists_eq_or_imp]
      by_cases hrest : ∃ item ∈ items, status item = .notCollected
      · rw [if_pos hrest, if_pos (Or.inr hrest)]
        cases status item <;> rfl
      · cases hstatus : status item <;> cases hfiltered : filtered item <;>
          simp [hrest, hstatus, hfiltered, kept]

omit [LinearOrder α] in
/-- The filters take a part of the items that they look at, in their order. -/
theorem probeSetApplyFilters_sublist (cobj : Cobj α) (filtered : α → Bool) :
    (probeSetApplyFilters status cobj filtered).items.Sublist
      (cobj.items.filter (kept status)) := by
  rw [probeSetApplyFilters, filterItems_eq]
  by_cases hnot : ∃ item ∈ cobj.items, status item = .notCollected
  · rw [if_pos hnot]
    exact List.nil_sublist _
  · rw [if_neg hnot]
    exact List.filter_sublist

/-- The filters keep an increasing list increasing. -/
theorem Cobj.Increasing.applyFilters {cobj : Cobj α} (h : cobj.Increasing)
    (filtered : α → Bool) : (probeSetApplyFilters status cobj filtered).Increasing :=
  List.Pairwise.sublist
    ((probeSetApplyFilters_sublist status cobj filtered).trans List.filter_sublist) h

end Combine

/-! ### What is collected for an object -/

section Collect

variable {α : Type} [LinearOrder α] (status : α → SyscharStatus)

omit [LinearOrder α] in
/-- Computing the flag leaves the items. -/
theorem probeCobjComputeFlag_items (cobj : Cobj α) :
    (probeCobjComputeFlag status cobj).items = cobj.items := by
  rw [probeCobjComputeFlag]
  split_ifs <;> rfl

/-- The items of an object are the union of the collected lists. -/
theorem probeWorkerCollect_items (collected : Collected α) :
    (probeWorkerCollect status collected).items =
      collected.rest.foldl mergeUnion collected.first := by
  have hfold (cobj : Cobj α) (rest : List (List α)) :
      (rest.foldl (uniteStep status collected.mask) cobj).items =
        rest.foldl mergeUnion cobj.items := by
    induction rest generalizing cobj with
    | nil => rfl
    | cons items rest ih =>
        rw [List.foldl_cons, ih, List.foldl_cons, uniteStep, collectedCobj, probeSetCombine,
          probeCobjComputeFlag_items]
        rfl
  rw [probeWorkerCollect, hfold]
  simp only [probeSetCombine, Option.getD_some, collectedCobj, probeCobjComputeFlag_items]

/-- What was collected for an object does not let a set take an item twice: if every item
was collected then equal items that the filters look at have equal ladders, in whichever
of the lists they are. -/
def EqualLadders (collected : Collected α) : Prop :=
  (∃ l ∈ collected.first :: collected.rest, ∃ item ∈ l, status item = .notCollected) ∨
  ∀ l ∈ collected.first :: collected.rest, ∀ l' ∈ collected.first :: collected.rest,
    ∀ p ∈ ladders [] l, ∀ q ∈ ladders [] l', kept status p.1 → p.1 = q.1 → p.2 = q.2

/-- The items of a union of lists are those of the lists. -/
theorem mem_foldl_mergeUnion (as : List α) (ls : List (List α)) (x : α) :
    x ∈ ls.foldl mergeUnion as ↔ ∃ l ∈ as :: ls, x ∈ l := by
  induction ls generalizing as with
  | nil => simp only [List.foldl_nil, List.mem_singleton, exists_eq_left]
  | cons l ls ih =>
      rw [List.foldl_cons, ih]
      simp only [List.mem_cons, or_and_right, exists_or, exists_eq_left, or_assoc,
        mem_mergeUnion]

/-- The items of an object that the filters look at are different exactly when equal ones
have equal ladders. -/
theorem nodup_kept_iff (collected : Collected α) :
    ((probeWorkerCollect status collected).items.filter (kept status)).Nodup ↔
      ∀ l ∈ collected.first :: collected.rest, ∀ l' ∈ collected.first :: collected.rest,
        ∀ p ∈ ladders [] l, ∀ q ∈ ladders [] l', kept status p.1 → p.1 = q.1 → p.2 = q.2 := by
  rw [probeWorkerCollect_items, nodup_filter_iff_ladders]
  simp only [mem_ladders_foldl]
  constructor
  · intro h l hl l' hl' p hp q hq
    exact h p ⟨l, hl, hp⟩ q ⟨l', hl', hq⟩
  · rintro h p ⟨l, hl, hp⟩ q ⟨l', hl', hq⟩
    exact h l hl l' hl' p hp q hq

/-- An object whose items are cached gives a set an increasing list exactly when equal
items have equal ladders. -/
theorem EqualLadders.applyFilters {collected : Collected α} (h : EqualLadders status collected)
    (filtered : α → Bool) :
    (probeSetApplyFilters status (sortItems (probeWorkerCollect status collected))
      filtered).Increasing := by
  rcases h with ⟨l, hl, item, hitem, hstatus⟩ | h
  · have hmem : item ∈ (sortItems (probeWorkerCollect status collected)).items := by
      rw [sortItems, List.mem_insertionSort, probeWorkerCollect_items, mem_foldl_mergeUnion]
      exact ⟨l, hl, hitem⟩
    rw [probeSetApplyFilters, filterItems_eq, if_pos ⟨item, hmem, hstatus⟩]
    exact List.Pairwise.nil
  · rw [← nodup_kept_iff] at h
    have hsorted : (sortItems (probeWorkerCollect status collected)).items.Pairwise (· ≤ ·) :=
      List.pairwise_insertionSort _ _
    have hperm : ((sortItems (probeWorkerCollect status collected)).items.filter
        (kept status)).Perm ((probeWorkerCollect status collected).items.filter (kept status)) :=
      (List.perm_insertionSort _ _).filter _
    have hstrict : ((sortItems (probeWorkerCollect status collected)).items.filter
        (kept status)).Pairwise (· < ·) :=
      ((hsorted.filter _).and (hperm.nodup_iff.mpr h)).imp
        fun hle => lt_of_le_of_ne hle.1 hle.2
    exact List.Pairwise.sublist (probeSetApplyFilters_sublist status _ filtered) hstrict

/-- A set of one object without filters has an item twice if equal items of the object
have different ladders. -/
theorem equalLadders_of_nodup {collected : Collected α}
    (h : (probeSetApplyFilters status (sortItems (probeWorkerCollect status collected))
      fun _ => false).items.Nodup) : EqualLadders status collected := by
  refine or_iff_not_imp_left.mpr fun hcollected => ?_
  have hnot : ¬ ∃ item ∈ (sortItems (probeWorkerCollect status collected)).items,
      status item = .notCollected := by
    rintro ⟨item, hitem, hstatus⟩
    rw [sortItems, List.mem_insertionSort, probeWorkerCollect_items,
      mem_foldl_mergeUnion] at hitem
    obtain ⟨l, hl, hmem⟩ := hitem
    exact hcollected ⟨l, hl, item, hmem, hstatus⟩
  rw [probeSetApplyFilters, filterItems_eq, if_neg hnot] at h
  simp only [Bool.not_false, List.filter_true] at h
  rw [← nodup_kept_iff]
  exact ((List.perm_insertionSort (· ≤ ·) _).filter (kept status)).nodup_iff.mp h

end Collect

/-! ### Set expressions -/

section SetExact

variable {α ι : Type} [LinearOrder α] (status : α → SyscharStatus) (objects : ι → Collected α)

mutual

/-- At every node of a set expression that is evaluated, the result has exactly the items
of the operation on the operands, each once. -/
def SetExact (depth : ℕ) : SetExpr α ι → Prop
  | .sets op first rest =>
      depth ≤ maxEvalDepth →
        CombineExact op
          (probeSetEval status objects (depth + 1) first ::
            subsetsEval status objects (depth + 1) rest)
          (probeSetEval status objects depth (.sets op first rest)) ∧
        SetExact (depth + 1) first ∧ SubsetsExact (depth + 1) rest
  | .objects op filtered first rest =>
      depth ≤ maxEvalDepth →
        CombineExact op
          (probeSetApplyFilters status (cachedObject status objects first) filtered ::
            (cachedObjects status objects rest).map fun cobj =>
              probeSetApplyFilters status cobj filtered)
          (probeSetEval status objects depth (.objects op filtered first rest)) ∧
        RefExact first ∧ RefsExact rest

/-- So it is in the subsets. -/
def SubsetsExact (depth : ℕ) : List (SetExpr α ι) → Prop
  | [] => True
  | set :: sets => SetExact depth set ∧ SubsetsExact depth sets

/-- So it is in a set object that is referred to. -/
def RefExact : ObjectRef α ι → Prop
  | .collected _ => True
  | .setObject set => SetExact 0 set

/-- So it is in the objects that are referred to. -/
def RefsExact : List (ObjectRef α ι) → Prop
  | [] => True
  | ref :: refs => RefExact ref ∧ RefsExact refs

end

variable {objects}

mutual

/-- **Along a set expression all lists are increasing, and every combination is exact.** -/
theorem probeSetEval_increasing (hobjects : ∀ i, EqualLadders status (objects i)) :
    ∀ (depth : ℕ) (set : SetExpr α ι), (probeSetEval status objects depth set).Increasing ∧
      SetExact status objects depth set
  | depth, .sets op first rest => by
      obtain ⟨hfirst, hfirst_exact⟩ := probeSetEval_increasing hobjects (depth + 1) first
      obtain ⟨hrest, hrest_exact⟩ := subsetsEval_increasing hobjects (depth + 1) rest
      obtain ⟨hcombined, hexact⟩ := combineSubsets_of_increasing op
        "probe_set_eval: More than 2 \"set\"." (List.forall_mem_cons.mpr ⟨hfirst, hrest⟩)
      rw [SetExact, probeSetEval]
      by_cases hdepth : maxEvalDepth < depth
      · rw [if_pos hdepth]
        exact ⟨List.Pairwise.nil, fun hle => absurd hle (Nat.not_le_of_lt hdepth)⟩
      · rw [if_neg hdepth]
        exact ⟨hcombined, fun _ => ⟨hexact, hfirst_exact, hrest_exact⟩⟩
  | depth, .objects op filtered first rest => by
      obtain ⟨hfirst, hfirst_exact⟩ := cachedObject_increasing hobjects first
      obtain ⟨hrest, hrest_exact⟩ := cachedObjects_increasing hobjects rest
      obtain ⟨hcombined, hexact⟩ := combineSubsets_of_increasing op
        "probe_set_eval: more than 2 obj_refs." (List.forall_mem_cons.mpr ⟨hfirst filtered,
          List.forall_mem_map.mpr fun cobj hcobj => hrest cobj hcobj filtered⟩)
      rw [SetExact, probeSetEval]
      by_cases hdepth : maxEvalDepth < depth
      · rw [if_pos hdepth]
        exact ⟨List.Pairwise.nil, fun hle => absurd hle (Nat.not_le_of_lt hdepth)⟩
      · rw [if_neg hdepth]
        exact ⟨hcombined, fun _ => ⟨hexact, hfirst_exact, hrest_exact⟩⟩

theorem subsetsEval_increasing (hobjects : ∀ i, EqualLadders status (objects i)) :
    ∀ (depth : ℕ) (sets : List (SetExpr α ι)),
      (∀ cobj ∈ subsetsEval status objects depth sets, cobj.Increasing) ∧
        SubsetsExact status objects depth sets
  | depth, [] => by
      rw [subsetsEval, SubsetsExact]
      exact ⟨fun _ h => absurd h List.not_mem_nil, trivial⟩
  | depth, set :: sets => by
      obtain ⟨hset, hset_exact⟩ := probeSetEval_increasing hobjects depth set
      obtain ⟨hsets, hsets_exact⟩ := subsetsEval_increasing hobjects depth sets
      rw [subsetsEval, SubsetsExact]
      exact ⟨List.forall_mem_cons.mpr ⟨hset, hsets⟩, hset_exact, hsets_exact⟩

theorem cachedObject_increasing (hobjects : ∀ i, EqualLadders status (objects i)) :
    ∀ ref : ObjectRef α ι, (∀ filtered, (probeSetApplyFilters status
        (cachedObject status objects ref) filtered).Increasing) ∧ RefExact status objects ref
  | .collected object => by
      rw [cachedObject, RefExact]
      exact ⟨(hobjects object).applyFilters, trivial⟩
  | .setObject set => by
      obtain ⟨hset, hset_exact⟩ := probeSetEval_increasing hobjects 0 set
      rw [cachedObject, RefExact]
      exact ⟨hset.sortItems.applyFilters status, hset_exact⟩

theorem cachedObjects_increasing (hobjects : ∀ i, EqualLadders status (objects i)) :
    ∀ refs : List (ObjectRef α ι), (∀ cobj ∈ cachedObjects status objects refs, ∀ filtered,
        (probeSetApplyFilters status cobj filtered).Increasing) ∧ RefsExact status objects refs
  | [] => by
      rw [cachedObjects, RefsExact]
      exact ⟨fun _ h => absurd h List.not_mem_nil, trivial⟩
  | ref :: refs => by
      obtain ⟨href, href_exact⟩ := cachedObject_increasing hobjects ref
      obtain ⟨hrefs, hrefs_exact⟩ := cachedObjects_increasing hobjects refs
      rw [cachedObjects, RefsExact]
      exact ⟨List.forall_mem_cons.mpr ⟨href, hrefs⟩, href_exact, hrefs_exact⟩

end

end SetExact

/-! ### An object with a variable of two values -/

/-- Two objects: for one, the first value of a variable gives the items 2 and 1 and the
second value gives item 1 again; for the other, item 1 is collected. -/
def variableObjects : Bool → Collected ℕ
  | true => ⟨[], [2, 1], [[1]]⟩
  | false => ⟨[], [1], []⟩

/-- The first object without the second. -/
def complementSet : SetExpr ℕ Bool :=
  .objects .complement (fun _ => false) (.collected true) [.collected false]

/-- The items of the first object: item 1 is cached twice. -/
theorem cachedObject_variableObjects :
    (cachedObject (fun _ => .exists_) variableObjects
      (.collected true : ObjectRef ℕ Bool)).items = [1, 1, 2] := by
  have hunion : mergeUnion [2, 1] [1] = [1, 2, 1] := by simp [mergeUnion]
  rw [cachedObject, sortItems, probeWorkerCollect_items]
  change (mergeUnion [2, 1] [1]).insertionSort (· ≤ ·) = [1, 1, 2]
  rw [hunion]
  decide

end OpenScap
