import OpenScap.CNumber
import OpenScap.OvalTest
import OpenScap.PaddedOrder

/-!
# Comparing OVAL versions

A value of the datatype `version` is a list of integers separated by single characters. The
schema prescribes the lexicographic comparison of the lists, the shorter one padded with
zeros. `oval_versiontype_cmp` walks over both strings at once and reads the next integer of
each with `atoi`, so that an integer arrives as an `int`.

## Main results

* `ovalVersiontypeCmp_eq` — the function compares the integers as `int`s, padded with zeros;
* `versiontype_cmp_iff` — for which versions this is the comparison of the integers
  (`DecidedAlike`), and that the latter is a total order;
* `decidedAlike_of_lt` — integers below 2³¹ are enough.
-/

open PaddedOrder KeyedOrder

namespace OpenScap

/-! ### The comparison -/

/-- What the loop of `oval_versiontype_cmp` returns for the current fields, if anything. -/
def versionField (tmpStateInt tmpSysInt : ℤ) (operation : OvalOperation) : Option OvalResult :=
  match operation with
  | .equals => if tmpStateInt ≠ tmpSysInt then some .false else none
  | .notEqual => if tmpStateInt ≠ tmpSysInt then some .true else none
  | .greaterThan | .greaterThanOrEqual =>
    if tmpSysInt > tmpStateInt then some .true
    else if tmpSysInt < tmpStateInt then some .false
    else none
  | .lessThan | .lessThanOrEqual =>
    if tmpSysInt < tmpStateInt then some .true
    else if tmpSysInt > tmpStateInt then some .false
    else none
  | _ => some .error

/-- The move to the next field: over one character, the digits behind it and one more
character. -/
def nextField (s : List UInt8) : List UInt8 := (s.tail.dropWhile isdigit).tail

/-- A move shortens a string that is not empty. -/
theorem nextField_length (s : List UInt8) : (nextField s).length ≤ s.length - 1 := by
  have h : (s.tail.dropWhile isdigit).length ≤ s.tail.length :=
    (List.dropWhile_sublist _).length_le
  rw [List.length_tail] at h
  rw [nextField, List.length_tail]
  omega

/-- The loop of `oval_versiontype_cmp`; `none` when it ends without a return. -/
def versiontypeLoop (state syschar : List UInt8) (operation : OvalOperation) :
    Option OvalResult :=
  if _hend : state = [] ∧ syschar = [] then none
  else
    match versionField (atoi state) (atoi syschar) operation with
    | some result => some result
    | none => versiontypeLoop (nextField state) (nextField syschar) operation
termination_by state.length + syschar.length
decreasing_by
  have hstate := nextField_length state
  have hsyschar := nextField_length syschar
  have hpos : 0 < state.length ∨ 0 < syschar.length := by
    by_contra hlen
    exact _hend ⟨List.eq_nil_of_length_eq_zero (by omega), List.eq_nil_of_length_eq_zero (by omega)⟩
  omega

/-- What is returned behind the loop. For the other operations the source asserts that it does
not get here. -/
def versionEnd : OvalOperation → OvalResult
  | .equals => .true
  | .notEqual => .false
  | .greaterThan => .false
  | .greaterThanOrEqual => .true
  | .lessThan => .false
  | .lessThanOrEqual => .true
  | _ => .error

/-- `oval_versiontype_cmp`. -/
def ovalVersiontypeCmp (state syschar : List UInt8) (operation : OvalOperation) : OvalResult :=
  (versiontypeLoop state syschar operation).getD (versionEnd operation)

/-! ### Version strings -/

/-- A separator. -/
abbrev Separator := { c : UInt8 // isdigit c = false }

/-- The version strings: integers separated by single characters that are no digits. -/
inductive VersionString
  | empty
  | parts (first : Decimal) (rest : List (Separator × Decimal))

namespace VersionString

/-- The characters behind the first integer. -/
def restText (rest : List (Separator × Decimal)) : List UInt8 :=
  rest.flatMap fun part => part.1.val :: part.2.text

/-- The characters. -/
def text : VersionString → List UInt8
  | empty => []
  | parts first rest => first.text ++ restText rest

/-- The integers. -/
def components : VersionString → List ℕ
  | empty => []
  | parts first rest => first.value :: rest.map fun part => part.2.value

/-- The version behind the first separator. -/
def tail : VersionString → VersionString
  | empty => empty
  | parts _ [] => empty
  | parts _ ((_, d) :: rest) => parts d rest

/-- Behind an integer no digit follows. -/
theorem restText_head (rest : List (Separator × Decimal)) :
    (restText rest).head?.any isdigit = false := by
  cases rest with
  | nil => rfl
  | cons part rest => simpa [restText] using part.1.property

theorem components_tail (v : VersionString) : v.tail.components = v.components.tail := by
  match v with
  | empty => rfl
  | parts _ [] => rfl
  | parts _ ((_, d) :: rest) => rfl

theorem text_eq_nil_iff (v : VersionString) : v.text = [] ↔ v.components = [] := by
  cases v with
  | empty => simp [text, components]
  | parts first rest => simp [text, components, first.ne_nil]

/-- `atoi` reads the first integer, or zero at the end. -/
theorem atoi_text (v : VersionString) : atoi v.text = intOf (v.components.headD 0) := by
  cases v with
  | empty =>
      rw [components, List.headD_nil, intOf_zero]
      rfl
  | parts first rest => exact atoi_digits first (restText_head rest)

/-- A move goes to the text behind the separator. -/
theorem nextField_text (v : VersionString) : nextField v.text = v.tail.text := by
  match v with
  | empty => rfl
  | parts first rest =>
      obtain ⟨digits, hne, hdigits⟩ := first
      obtain ⟨c, cs, rfl⟩ := List.exists_cons_of_ne_nil hne
      have hcs : ∀ x ∈ cs, isdigit x = true := fun x hx => hdigits x (List.mem_cons_of_mem c hx)
      have hdrop : (cs ++ restText rest).dropWhile isdigit = restText rest := by
        rw [List.dropWhile_append_of_pos hcs]
        cases rest with
        | nil => rfl
        | cons part rest => simp [restText, part.1.property]
      rw [nextField, text, List.cons_append, List.tail_cons, hdrop]
      match rest with
      | [] => rfl
      | (sep, d) :: rest => rfl

end VersionString

/-! ### What the operations mean -/

/-- The operations of the datatype. -/
def versionOperations : List OvalOperation :=
  [.equals, .notEqual, .greaterThan, .greaterThanOrEqual, .lessThan, .lessThanOrEqual]

/-- The result of an operation, from how the system's value compares with the state's. -/
def operationResult (operation : OvalOperation) (sysToState : Ordering) : OvalResult :=
  match operation with
  | .equals => if sysToState = .eq then .true else .false
  | .notEqual => if sysToState = .eq then .false else .true
  | .greaterThan => if sysToState = .gt then .true else .false
  | .greaterThanOrEqual => if sysToState = .lt then .false else .true
  | .lessThan => if sysToState = .lt then .true else .false
  | .lessThanOrEqual => if sysToState = .gt then .false else .true
  | _ => .error

/-- An ordering is known from the results of the operations. -/
theorem operationResult_injective {o o' : Ordering}
    (h : ∀ op ∈ versionOperations, operationResult op o = operationResult op o') : o = o' := by
  have heq := h .equals (by decide)
  have hlt := h .lessThan (by decide)
  cases o <;> cases o' <;> first | rfl | simp [operationResult] at heq hlt

/-- The first integer, converted. -/
theorem headD_map_intOf (xs : List ℕ) : (xs.map intOf).headD 0 = intOf (xs.headD 0) := by
  cases xs with
  | nil => simp
  | cons x xs => rfl

/-- Equal integers are left behind, different ones decide. -/
theorem versionField_eq {op : OvalOperation} (hop : op ∈ versionOperations) (a b : ℤ)
    (o : Ordering) :
    (versionField a b op).getD (operationResult op o) =
      operationResult op ((compare b a).then o) := by
  simp only [versionOperations, List.mem_cons, List.not_mem_nil, or_false] at hop
  rcases lt_trichotomy b a with hlt | rfl | hgt
  · rw [compare_lt_iff_lt.mpr hlt]
    rcases hop with rfl | rfl | rfl | rfl | rfl | rfl <;>
      simp [versionField, operationResult, hlt, hlt.ne', hlt.not_gt, Ordering.then]
  · rw [compare_eq_iff_eq.mpr rfl]
    rcases hop with rfl | rfl | rfl | rfl | rfl | rfl <;> simp [versionField, Ordering.then]
  · rw [compare_gt_iff_gt.mpr hgt]
    rcases hop with rfl | rfl | rfl | rfl | rfl | rfl <;>
      simp [versionField, operationResult, hgt, hgt.ne, hgt.not_gt, Ordering.then]

/-- Behind the loop the versions are equal. -/
theorem versionEnd_eq {op : OvalOperation} (hop : op ∈ versionOperations) :
    versionEnd op = operationResult op .eq := by
  simp only [versionOperations, List.mem_cons, List.not_mem_nil, or_false] at hop
  rcases hop with rfl | rfl | rfl | rfl | rfl | rfl <;> rfl

/-- The loop and what is behind it compare the integers as `int`s. The induction is on the
number of integers that are left. -/
theorem versiontypeLoop_eq {op : OvalOperation} (hop : op ∈ versionOperations) (n : ℕ)
    (state sys : VersionString) (hn : state.components.length + sys.components.length ≤ n) :
    (versiontypeLoop state.text sys.text op).getD (versionEnd op) =
      operationResult op
        (paddedCompare (sys.components.map intOf) (state.components.map intOf)) := by
  induction n generalizing state sys with
  | zero =>
      have hstate : state.components = [] := List.eq_nil_of_length_eq_zero (by omega)
      have hsys : sys.components = [] := List.eq_nil_of_length_eq_zero (by omega)
      have hend : state.text = [] ∧ sys.text = [] :=
        ⟨state.text_eq_nil_iff.mpr hstate, sys.text_eq_nil_iff.mpr hsys⟩
      rw [versiontypeLoop, dif_pos hend, hstate, hsys, List.map_nil, paddedCompare_nil]
      exact versionEnd_eq hop
  | succ n ih =>
      by_cases hend : state.components = [] ∧ sys.components = []
      · have htext : state.text = [] ∧ sys.text = [] :=
          ⟨state.text_eq_nil_iff.mpr hend.1, sys.text_eq_nil_iff.mpr hend.2⟩
        rw [versiontypeLoop, dif_pos htext, hend.1, hend.2, List.map_nil, paddedCompare_nil]
        exact versionEnd_eq hop
      · have htext : ¬ (state.text = [] ∧ sys.text = []) := fun h =>
          hend ⟨state.text_eq_nil_iff.mp h.1, sys.text_eq_nil_iff.mp h.2⟩
        have hmap : ¬ (sys.components.map intOf = [] ∧ state.components.map intOf = []) :=
          fun h => hend ⟨List.map_eq_nil_iff.mp h.2, List.map_eq_nil_iff.mp h.1⟩
        have hlen : state.tail.components.length + sys.tail.components.length ≤ n := by
          have hpos : 0 < state.components.length ∨ 0 < sys.components.length := by
            simp only [List.length_pos_iff]
            exact not_and_or.mp hend
          rw [state.components_tail, sys.components_tail, List.length_tail, List.length_tail]
          omega
        have hrest := ih state.tail sys.tail hlen
        rw [paddedCompare_head_tail hmap, ← versionField_eq hop, versiontypeLoop, dif_neg htext,
          state.atoi_text, sys.atoi_text, state.nextField_text, sys.nextField_text]
        rw [state.components_tail, sys.components_tail, List.map_tail, List.map_tail] at hrest
        rw [← headD_map_intOf, ← headD_map_intOf]
        cases versionField ((state.components.map intOf).headD 0)
            ((sys.components.map intOf).headD 0) op with
        | some result => rfl
        | none => exact hrest

/-- **The function compares the integers as `int`s**, the shorter list padded with zeros. -/
theorem ovalVersiontypeCmp_eq {op : OvalOperation} (hop : op ∈ versionOperations)
    (state sys : VersionString) :
    ovalVersiontypeCmp state.text sys.text op =
      operationResult op
        (paddedCompare (sys.components.map intOf) (state.components.map intOf)) :=
  versiontypeLoop_eq hop _ state sys le_rfl

/-! ### Where this is the comparison of the integers -/

/-- The first integers that differ and the first that differ as `int`s are ordered alike;
where no integers differ there is nothing to ask. -/
def DecidedAlike (xs ys : List ℕ) : Prop :=
  match firstDifference id xs ys with
  | none => True
  | some (x, y) =>
    match firstDifference intOf xs ys with
    | none => False
    | some (x', y') => x < y ↔ intOf x' < intOf y'

/-- The comparison of the integers, by the first that differ. -/
theorem paddedCompare_eq_pairOrdering (xs ys : List ℕ) :
    paddedCompare xs ys = pairOrdering id (firstDifference id xs ys) := by
  have h := paddedCompare_map (α := ℕ) (f := id) rfl xs ys
  rwa [List.map_id, List.map_id] at h

/-- Two pairs of different numbers compare alike when their orders are the same. -/
theorem compare_eq_compare_iff {x y : ℕ} {a b : ℤ} (hxy : x ≠ y) (hab : a ≠ b) :
    compare a b = compare x y ↔ (x < y ↔ a < b) := by
  rcases Nat.lt_or_gt_of_ne hxy with hlt | hgt
  · rw [compare_lt_iff_lt.mpr hlt, compare_lt_iff_lt]
    simp [hlt]
  · rw [compare_gt_iff_gt.mpr hgt, compare_gt_iff_gt]
    omega

/-- `DecidedAlike` says that the two comparisons are the same. -/
theorem decidedAlike_iff (xs ys : List ℕ) :
    DecidedAlike xs ys ↔
      paddedCompare (xs.map intOf) (ys.map intOf) = paddedCompare xs ys := by
  rw [paddedCompare_map intOf_zero, paddedCompare_eq_pairOrdering, DecidedAlike]
  cases hid : firstDifference id xs ys with
  | none =>
      rw [firstDifference_of_id hid]
      simp [pairOrdering]
  | some pair =>
      obtain ⟨x, y⟩ := pair
      have hxy : x ≠ y := firstDifference_ne hid
      cases hint : firstDifference intOf xs ys with
      | none =>
          have hne : Ordering.eq ≠ compare x y := fun h => hxy (compare_eq_iff_eq.mp h.symm)
          simpa [pairOrdering] using hne
      | some pair' =>
          obtain ⟨x', y'⟩ := pair'
          exact (compare_eq_compare_iff hxy (firstDifference_ne hint)).symm

/-- Integers below 2³¹ are enough. -/
theorem decidedAlike_of_lt {xs ys : List ℕ} (hxs : ∀ x ∈ xs, x < 2 ^ 31)
    (hys : ∀ y ∈ ys, y < 2 ^ 31) : DecidedAlike xs ys := by
  have hkeep : ∀ zs : List ℕ, (∀ z ∈ zs, z < 2 ^ 31) → ∀ z ∈ 0 :: zs, intOf z = z := by
    intro zs hzs z hz
    rcases List.mem_cons.mp hz with rfl | hz
    · exact intOf_zero
    · exact intOf_of_lt (hzs z hz)
  have hmap : ∀ zs : List ℕ, (∀ z ∈ zs, z < 2 ^ 31) → zs.map intOf = zs.map Nat.cast :=
    fun zs hzs => List.map_congr_left fun z hz => hkeep zs hzs z (List.mem_cons_of_mem 0 hz)
  rw [decidedAlike_iff, hmap xs hxs, hmap ys hys, paddedCompare_map Nat.cast_zero,
    paddedCompare_eq_pairOrdering,
    firstDifference_eq_id fun x _ y _ h => Nat.cast_injective h]
  cases hid : firstDifference id xs ys with
  | none => rfl
  | some pair =>
      obtain ⟨x, y⟩ := pair
      have hxy : x ≠ y := firstDifference_ne hid
      exact (compare_eq_compare_iff hxy (by exact_mod_cast hxy)).mpr (by simp)

/-- **`oval_versiontype_cmp` is the comparison of the lists of integers**, the shorter one
padded with zeros, exactly for the versions that are decided alike as `int`s; and that
comparison is a total order on the padded lists. -/
theorem versiontype_cmp_iff (state sys : VersionString) :
    ((∀ op ∈ versionOperations, ovalVersiontypeCmp state.text sys.text op =
        operationResult op (paddedCompare sys.components state.components)) ↔
      DecidedAlike sys.components state.components) ∧
    IsTotalPreorder (fun xs ys : List ℕ => sign (paddedCompare xs ys)) ∧
    ∀ xs ys : List ℕ, paddedCompare xs ys = .eq ↔
      padTo (max xs.length ys.length) xs = padTo (max xs.length ys.length) ys := by
  refine ⟨?_, paddedCompare_totalPreorder, paddedCompare_eq_iff⟩
  rw [decidedAlike_iff]
  constructor
  · intro h
    refine operationResult_injective fun op hop => ?_
    rw [← ovalVersiontypeCmp_eq hop, h op hop]
  · intro h op hop
    rw [ovalVersiontypeCmp_eq hop, h]

/-- A version of one integer. -/
def VersionString.single (d : Decimal) : VersionString := .parts d []

/-- 2³² is read as zero: the versions `4294967296` and `0` are equal. -/
theorem not_versiontype_cmp :
    ¬ ∀ (state sys : VersionString), ∀ op ∈ versionOperations,
      ovalVersiontypeCmp state.text sys.text op =
        operationResult op (paddedCompare sys.components state.components) := by
  intro h
  have hequal := h (.single ⟨bytes ['4', '2', '9', '4', '9', '6', '7', '2', '9', '6'],
    by decide, forall_mem_of_all (by decide)⟩)
    (.single ⟨bytes ['0'], by decide, forall_mem_of_all (by decide)⟩) .equals (by decide)
  rw [ovalVersiontypeCmp_eq (by decide)] at hequal
  revert hequal
  decide +kernel

end OpenScap
