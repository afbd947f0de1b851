import Mathlib
import OpenScap.BinarySearch
import OpenScap.SexpBlocks

/-!
# Sorting a list of S-expressions

`SEXP_list_sort` sorts every block and then fills the blocks one after the other: the least of the
next members of all blocks changes places with the next member of the block that is filled, and
that one is put into the block from which the least one came, at the place that a binary search
tells. Where the search finds an equal member it tells no place, and the first one is taken.

The first block is sorted with the members in front of the offset. `qsort` is a parameter.

## Main results

* `fillStep_spec`, `fillBlock_spec`, `mergeBlocks_spec` — what a step does, the filling of a block,
  and the whole of them;
* `listSort_right_iff` — for which members every list is sorted right.
-/

namespace OpenScap.ListSort

variable {α : Type*} (compare : α → α → ℤ) (qsort : List α → List α)

/-! ### The procedure -/

/-- The search for the minimal member, over the later blocks from the iterator `j` on: with the
number of its iterator. A block without a member has no result. -/
def searchMin : α → ℕ → ℕ → List (List α) → Option (α × ℕ)
  | min_v, min_i, _, [] => some (min_v, min_i)
  | _, _, _, [] :: _ => none
  | min_v, min_i, j, (memb :: _) :: later =>
      if compare memb min_v < 0 then searchMin memb j (j + 1) later
      else searchMin min_v min_i (j + 1) later

/-- The comparison of an old value with the members, as the search sees it. -/
def cmpAt (tmp_v : α) (membs : List α) (i : ℕ) : ℤ := (membs[i]?.map (compare tmp_v)).getD 0

/-- `dst_i`, the place for an old value among the members behind the minimal one. It is only
saved when no member is equal. -/
def dstOf (tmp_v : α) (membs : List α) : ℕ :=
  match BinarySearch.search (cmpAt compare tmp_v membs) membs.length membs.length 0 with
  | .inl _ => 0
  | .inr save => save

/-- The block of the minimal member, with the old value instead. -/
def replaceMin (tmp_v : α) : List α → List α
  | [] => []
  | _ :: membs =>
      let dst_i := dstOf compare tmp_v membs
      membs.take dst_i ++ tmp_v :: membs.drop dst_i

/-- The body of the loop that fills a block: the minimal member, and the later blocks. -/
def fillStep (first_v : α) (later : List (List α)) : Option (α × List (List α)) := do
  let (min_v, min_i) ← searchMin compare first_v 0 1 later
  some (min_v, if min_i = 0 then later else later.modify (min_i - 1) (replaceMin compare first_v))

/-- The loop that fills the rest of a block. -/
def fillBlock : List α → List (List α) → Option (List α × List (List α))
  | [], later => some ([], later)
  | first_v :: membs, later => do
      let (min_v, later) ← fillStep compare first_v later
      let (filled, later) ← fillBlock membs later
      some (min_v :: filled, later)

/-- The loop over the blocks, of so many passes. -/
def mergeBlocks : ℕ → ℕ → List (List α) → Option (List (List α))
  | 0, _, blocks => some blocks
  | _ + 1, _, [] => some []
  | passes + 1, index, block :: later => do
      let (filled, later) ← fillBlock compare (block.drop index) later
      let later ← mergeBlocks passes 0 later
      some ((block.take index ++ filled) :: later)

/-- A list, in a proper chain. -/
structure SexpList (α : Type*) where
  offset : ℕ
  blocks : List (List α)
  within : Within offset blocks

/-- The members of a list. -/
def SexpList.membs (list : SexpList α) : List α := list.blocks.flatten.drop list.offset

/-- `SEXP_list_sort`, with the blocks that it leaves. -/
def sexpListSort (list : SexpList α) : Option (List (List α)) :=
  mergeBlocks compare (list.blocks.length - 1) list.offset (list.blocks.map qsort)

/-! ### What is asked for -/

/-- A comparator that is a total preorder. -/
structure TotalPreorder : Prop where
  swap : ∀ a b, compare a b < 0 ↔ 0 < compare b a
  trans : ∀ a b c, compare a b ≤ 0 → compare b c ≤ 0 → compare a c ≤ 0

/-- What `qsort` does. -/
structure Qsorts : Prop where
  perm : ∀ membs, (qsort membs).Perm membs
  sorted : ∀ membs, (qsort membs).Pairwise (compare · · ≤ 0)

/-- The list is sorted: it has the same members, in order. -/
def SortsRight (list : SexpList α) : Prop :=
  ∃ blocks, sexpListSort compare qsort list = some blocks ∧
    (blocks.flatten.drop list.offset).Perm list.membs ∧
    (blocks.flatten.drop list.offset).Pairwise (compare · · ≤ 0)

/-- The members in front of the offset are the first ones of the sorted block. -/
def SkipsFirst (list : SexpList α) : Prop :=
  ∀ block later, list.blocks = block :: later →
    ((qsort block).take list.offset).Perm (block.take list.offset)

/-- If several members are equal, then at most one is less. -/
def FewLess (membs : List α) : Prop :=
  ∀ b ∈ membs, 2 ≤ membs.countP (fun a => compare b a = 0) →
    membs.countP (fun a => compare a b < 0) ≤ 1

/-! ### Order -/

section Order

variable {compare} (hcompare : TotalPreorder compare)

include hcompare

/-- A member that is not less is greater or equal. -/
theorem le_of_not_lt {a b : α} (h : ¬ compare a b < 0) : compare b a ≤ 0 := by
  rw [hcompare.swap] at h
  omega

/-- A member that is less is not greater or equal. -/
theorem not_le_of_lt {a b : α} (h : compare a b < 0) : ¬ compare b a ≤ 0 := by
  rw [hcompare.swap] at h
  omega

/-- Less than something that is not greater. -/
theorem lt_of_lt_of_le {a b c : α} (hab : compare a b < 0) (hbc : compare b c ≤ 0) :
    compare a c < 0 := by
  by_contra hac
  exact not_le_of_lt hcompare hab (hcompare.trans _ _ _ hbc (le_of_not_lt hcompare hac))

/-- Not greater than something less. -/
theorem lt_of_le_of_lt {a b c : α} (hab : compare a b ≤ 0) (hbc : compare b c < 0) :
    compare a c < 0 := by
  by_contra hac
  exact not_le_of_lt hcompare hbc (hcompare.trans _ _ _ (le_of_not_lt hcompare hac) hab)

/-- Equal members. -/
theorem compare_self (a : α) : compare a a = 0 := by
  have := hcompare.swap a a
  omega

end Order

/-! ### A step -/

section Step

variable {compare}

/-- **What the search finds:** a member that is not greater than the first one and the first members
of the blocks, and that is the first one or less. -/
theorem searchMin_spec (hcompare : TotalPreorder compare) {later : List (List α)}
    (hne : ∀ block ∈ later, block ≠ []) (min_v : α) (min_i j : ℕ) :
    ∃ m i, searchMin compare min_v min_i j later = some (m, i) ∧ compare m min_v ≤ 0 ∧
      (∀ block ∈ later, ∀ memb ∈ block.head?, compare m memb ≤ 0) ∧
      ((m = min_v ∧ i = min_i) ∨
        ∃ k membs, later[k]? = some (m :: membs) ∧ i = j + k ∧ compare m min_v < 0) := by
  induction later generalizing min_v min_i j with
  | nil =>
      refine ⟨min_v, min_i, rfl, (compare_self hcompare min_v).le, ?_, .inl ⟨rfl, rfl⟩⟩
      exact fun block hblock => absurd hblock List.not_mem_nil
  | cons block later ih =>
      obtain ⟨hblock, hrest⟩ := List.forall_mem_cons.mp hne
      cases block with
      | nil => exact absurd rfl hblock
      | cons memb membs =>
          rw [searchMin]
          split
          · rename_i hless
            obtain ⟨m, i, hsearch, hle, hheads, hwhere⟩ := ih hrest memb j (j + 1)
            refine ⟨m, i, hsearch, ?_, List.forall_mem_cons.mpr ⟨?_, hheads⟩, .inr ?_⟩
            · exact hcompare.trans _ _ _ hle hless.le
            · simpa using hle
            · rcases hwhere with ⟨rfl, rfl⟩ | ⟨k, membs', hk, rfl, -⟩
              · exact ⟨0, membs, rfl, rfl, hless⟩
              · exact ⟨k + 1, membs', hk, by omega, lt_of_le_of_lt hcompare hle hless⟩
          · rename_i hless
            obtain ⟨m, i, hsearch, hle, hheads, hwhere⟩ := ih hrest min_v min_i (j + 1)
            refine ⟨m, i, hsearch, hle, List.forall_mem_cons.mpr ⟨?_, hheads⟩, ?_⟩
            · have := hcompare.trans _ _ _ hle (le_of_not_lt hcompare hless)
              simpa using this
            · rcases hwhere with hfirst | ⟨k, membs', hk, rfl, hlt⟩
              · exact .inl hfirst
              · exact .inr ⟨k + 1, membs', hk, by omega, hlt⟩

/-- The old value takes the place of the minimal one. -/
theorem replaceMin_perm (tmp_v m : α) (membs : List α) :
    (replaceMin compare tmp_v (m :: membs)).Perm (tmp_v :: membs) := by
  refine List.perm_middle.trans ?_
  rw [List.take_append_drop]

/-- At a place there is the comparison with its member. -/
theorem cmpAt_eq (tmp_v : α) {membs : List α} {i : ℕ} (hi : i < membs.length) :
    cmpAt compare tmp_v membs i = compare tmp_v membs[i] := by
  simp [cmpAt, List.getElem?_eq_getElem hi]

/-- The search is right in sorted members. -/
theorem search_membs (hcompare : TotalPreorder compare) (tmp_v : α) {membs : List α}
    (hsorted : membs.Pairwise (compare · · ≤ 0)) :
    BinarySearch.Answers (cmpAt compare tmp_v membs) membs.length
      (BinarySearch.search (cmpAt compare tmp_v membs) membs.length membs.length 0) := by
  have hle : ∀ i j (hi : i < membs.length) (hj : j < membs.length), i ≤ j →
      compare membs[i] membs[j] ≤ 0 := by
    intro i j hi hj hij
    rcases Nat.lt_or_eq_of_le hij with hlt | rfl
    · exact List.pairwise_iff_getElem.mp hsorted i j hi hj hlt
    · exact (compare_self hcompare _).le
  refine BinarySearch.search_answers ⟨?_, ?_⟩ le_rfl (by omega)
    (fun i hi => absurd hi (Nat.not_lt_zero i)) fun i hi hin => by omega
  · intro i j hij hj hgreater
    rw [cmpAt_eq tmp_v hj, ← hcompare.swap] at hgreater
    rw [cmpAt_eq tmp_v (by omega), ← hcompare.swap]
    exact lt_of_le_of_lt hcompare (hle i j (by omega) hj hij) hgreater
  · intro i j hij hj hless
    rw [cmpAt_eq tmp_v (by omega)] at hless
    rw [cmpAt_eq tmp_v hj]
    exact lt_of_lt_of_le hcompare hless (hle i j (by omega) hj hij)

/-- Where a member is equal, the first place is taken. -/
theorem dstOf_eq_zero (hcompare : TotalPreorder compare) {tmp_v : α} {membs : List α}
    (hsorted : membs.Pairwise (compare · · ≤ 0)) (hequal : ∃ memb ∈ membs, compare tmp_v memb = 0) :
    dstOf compare tmp_v membs = 0 := by
  have hanswer := search_membs hcompare tmp_v hsorted
  rw [dstOf]
  cases hsearch : BinarySearch.search (cmpAt compare tmp_v membs) membs.length
      membs.length 0 with
  | inl i => rfl
  | inr d =>
      rw [hsearch] at hanswer
      obtain ⟨-, hfront, hback⟩ := hanswer
      obtain ⟨memb, hmemb, hzero⟩ := hequal
      obtain ⟨i, hi, rfl⟩ := List.getElem_of_mem hmemb
      have hcmp : cmpAt compare tmp_v membs i = 0 := (cmpAt_eq tmp_v hi).trans hzero
      rcases Nat.lt_or_ge i d with hlt | hge
      · have := hfront i hlt
        omega
      · have := hback i hge hi
        omega

/-- **The block stays sorted** if the old value, when it is equal to a member, is not greater than
any. -/
theorem replaceMin_sorted (hcompare : TotalPreorder compare) {tmp_v m : α} {membs : List α}
    (hsorted : membs.Pairwise (compare · · ≤ 0))
    (hequal : (∃ memb ∈ membs, compare tmp_v memb = 0) → ∀ memb ∈ membs, compare tmp_v memb ≤ 0) :
    (replaceMin compare tmp_v (m :: membs)).Pairwise (compare · · ≤ 0) := by
  have hanswer := search_membs hcompare tmp_v hsorted
  change (membs.take (dstOf compare tmp_v membs) ++
    tmp_v :: membs.drop (dstOf compare tmp_v membs)).Pairwise _
  by_cases hexists : ∃ memb ∈ membs, compare tmp_v memb = 0
  · rw [dstOf_eq_zero hcompare hsorted hexists]
    exact List.pairwise_cons.mpr ⟨hequal hexists, hsorted⟩
  · have hdst : BinarySearch.search (cmpAt compare tmp_v membs) membs.length
        membs.length 0 = .inr (dstOf compare tmp_v membs) := by
      rw [dstOf]
      cases hsearch : BinarySearch.search (cmpAt compare tmp_v membs) membs.length
          membs.length 0 with
      | inl i =>
          rw [hsearch] at hanswer
          obtain ⟨hi, hzero⟩ := hanswer
          rw [cmpAt_eq tmp_v hi] at hzero
          exact absurd ⟨_, List.getElem_mem hi, hzero⟩ hexists
      | inr d => rfl
    rw [hdst] at hanswer
    generalize dstOf compare tmp_v membs = d at hanswer
    obtain ⟨hd, hfront, hback⟩ := hanswer
    have hfront' : ∀ memb ∈ membs.take d, compare memb tmp_v ≤ 0 := by
      intro memb hmemb
      obtain ⟨i, hi, rfl⟩ := List.getElem_of_mem hmemb
      rw [List.length_take] at hi
      have hgreater := hfront i (by omega)
      rw [cmpAt_eq tmp_v (by omega), ← hcompare.swap] at hgreater
      simpa using hgreater.le
    have hback' : ∀ memb ∈ membs.drop d, compare tmp_v memb ≤ 0 := by
      intro memb hmemb
      obtain ⟨i, hi, rfl⟩ := List.getElem_of_mem hmemb
      rw [List.length_drop] at hi
      have hless := hback (d + i) (by omega) (by omega)
      rw [cmpAt_eq tmp_v (by omega)] at hless
      simpa using hless.le
    refine List.pairwise_append.mpr ⟨hsorted.take, List.pairwise_cons.mpr ⟨hback', hsorted.drop⟩,
      fun a ha b hb => ?_⟩
    rcases List.mem_cons.mp hb with rfl | hb
    · exact hfront' a ha
    · exact hcompare.trans _ _ _ (hfront' a ha) (hback' b hb)

/-- A block is changed: what holds of all blocks and of the new one holds of all then. -/
theorem forall_mem_modify {later : List (List α)} {k : ℕ} {block : List α}
    {f : List α → List α} {P : List α → Prop} (hk : later[k]? = some block)
    (hall : ∀ b ∈ later, P b) (hnew : P (f block)) : ∀ b ∈ later.modify k f, P b := by
  induction later generalizing k with
  | nil => exact absurd hk (by simp)
  | cons b later ih =>
      obtain ⟨hfirst, hrest⟩ := List.forall_mem_cons.mp hall
      cases k with
      | zero =>
          obtain rfl := Option.some.inj hk
          exact List.forall_mem_cons.mpr ⟨hnew, hrest⟩
      | succ k => exact List.forall_mem_cons.mpr ⟨hfirst, ih hk hrest⟩

/-- The minimal member changes places with the old value. -/
theorem modify_perm {later : List (List α)} {k : ℕ} {m tmp_v : α} {membs : List α}
    {f : List α → List α} (hk : later[k]? = some (m :: membs))
    (hf : (f (m :: membs)).Perm (tmp_v :: membs)) :
    (m :: (later.modify k f).flatten).Perm (tmp_v :: later.flatten) := by
  induction later generalizing k with
  | nil => exact absurd hk (by simp)
  | cons block later ih =>
      cases k with
      | zero =>
          obtain rfl := Option.some.inj hk
          exact ((hf.append_right later.flatten).cons m).trans (.swap _ _ _)
      | succ k =>
          have hlater := (ih hk).append_left block
          exact List.perm_middle.symm.trans (hlater.trans List.perm_middle)

/-- If few members are less, then the old value is not greater than the members of a block that has
an equal one behind the minimal one. -/
theorem le_of_fewLess (hcompare : TotalPreorder compare) {tmp_v m : α}
    {membs others : List α} (hfew : FewLess compare (tmp_v :: others))
    (hsub : (m :: membs).Sublist others) (hless : compare m tmp_v < 0)
    (hequal : ∃ memb ∈ membs, compare tmp_v memb = 0) :
    ∀ memb ∈ membs, compare tmp_v memb ≤ 0 := by
  intro memb hmemb
  by_contra hgreater
  have hlow : compare memb tmp_v < 0 := by
    by_contra hnot
    exact hgreater (le_of_not_lt hcompare hnot)
  have hself := compare_self hcompare tmp_v
  have hequals : 1 ≤ membs.countP (fun a => compare tmp_v a = 0) := by
    obtain ⟨memb', hmemb', hzero⟩ := hequal
    exact List.countP_pos_iff.mpr ⟨memb', hmemb', by simpa using hzero⟩
  have hlows : 1 ≤ membs.countP (fun a => compare a tmp_v < 0) :=
    List.countP_pos_iff.mpr ⟨memb, hmemb, by simpa using hlow⟩
  have htwo : 2 ≤ (tmp_v :: others).countP (fun a => compare tmp_v a = 0) := by
    have hle := hsub.countP_le (p := fun a => compare tmp_v a = 0)
    rw [List.countP_cons] at hle
    rw [List.countP_cons, if_pos (by simpa using hself)]
    omega
  have hone := hfew tmp_v List.mem_cons_self htwo
  have hle := hsub.countP_le (p := fun a => compare a tmp_v < 0)
  rw [List.countP_cons, if_pos (by simpa using hless)] at hle
  rw [List.countP_cons] at hone
  omega

/-- **A step**: the minimal member changes places with the first one. It is not greater than any
member, if the blocks are sorted; and they stay so, if few members are less. -/
theorem fillStep_spec (hcompare : TotalPreorder compare) {later : List (List α)}
    (hne : ∀ block ∈ later, block ≠ []) (first_v : α) :
    ∃ m later', fillStep compare first_v later = some (m, later') ∧
      (m :: later'.flatten).Perm (first_v :: later.flatten) ∧
      (∀ block ∈ later', block ≠ []) ∧ later'.length = later.length ∧ compare m first_v ≤ 0 ∧
      ((∀ block ∈ later, block.Pairwise (compare · · ≤ 0)) →
        (∀ memb ∈ later.flatten, compare m memb ≤ 0) ∧
        ∀ others, FewLess compare (first_v :: others) → later.flatten.Sublist others →
          ∀ block ∈ later', block.Pairwise (compare · · ≤ 0)) := by
  obtain ⟨m, i, hsearch, hle, hheads, hwhere⟩ := searchMin_spec hcompare hne first_v 0 1
  have hall : (∀ block ∈ later, block.Pairwise (compare · · ≤ 0)) →
      ∀ memb ∈ later.flatten, compare m memb ≤ 0 := by
    intro hsorted memb hmemb
    obtain ⟨block, hblock, hmemb⟩ := List.mem_flatten.mp hmemb
    have hhead := hheads block hblock
    have hblocksorted := hsorted block hblock
    cases block with
    | nil => exact absurd hmemb List.not_mem_nil
    | cons head membs =>
        have hm : compare m head ≤ 0 := hhead head rfl
        rcases List.mem_cons.mp hmemb with rfl | hmemb
        · exact hm
        · exact hcompare.trans _ _ _ hm ((List.pairwise_cons.mp hblocksorted).1 memb hmemb)
  rcases hwhere with ⟨rfl, rfl⟩ | ⟨k, membs, hk, rfl, hless⟩
  · exact ⟨m, later, by simp [fillStep, hsearch], .refl _, hne, rfl, hle,
      fun hsorted => ⟨hall hsorted, fun _ _ _ => hsorted⟩⟩
  · have hpred : 1 + k - 1 = k := by omega
    refine ⟨m, later.modify k (replaceMin compare first_v), by simp [fillStep, hsearch],
      modify_perm hk (replaceMin_perm first_v m membs), ?_, List.length_modify _ _ _, hle,
      fun hsorted => ⟨hall hsorted, fun others hfew hsub => ?_⟩⟩
    · refine forall_mem_modify hk hne fun hnil => ?_
      have hperm : (replaceMin compare first_v (m :: membs)).length = (first_v :: membs).length :=
        (replaceMin_perm first_v m membs).length_eq
      rw [hnil] at hperm
      exact absurd hperm (by simp)
    · have hblock := List.mem_of_getElem? hk
      refine forall_mem_modify hk hsorted (replaceMin_sorted hcompare
        (List.pairwise_cons.mp (hsorted _ hblock)).2 ?_)
      exact le_of_fewLess hcompare hfew ((List.sublist_flatten_of_mem hblock).trans hsub) hless

end Step

/-! ### The filling of a block -/

section Fill

variable {compare}

/-- The order of the members does not matter. -/
theorem FewLess.perm {membs membs' : List α} (h : FewLess compare membs)
    (hperm : membs.Perm membs') : FewLess compare membs' := by
  intro b hb
  rw [← hperm.countP_eq, ← hperm.countP_eq]
  exact h b (hperm.mem_iff.mpr hb)

/-- A member may be left out. -/
theorem FewLess.of_cons {m : α} {membs : List α} (h : FewLess compare (m :: membs)) :
    FewLess compare membs := by
  intro b hb htwo
  have hone := h b (List.mem_cons_of_mem m hb)
    (htwo.trans ((List.sublist_cons_self m membs).countP_le))
  exact ((List.sublist_cons_self m membs).countP_le).trans hone

/-- Members in front may be left out. -/
theorem fewLess_of_append {front membs : List α} (h : FewLess compare (front ++ membs)) :
    FewLess compare membs := by
  induction front with
  | nil => exact h
  | cons m front ih => exact ih h.of_cons

/-- **The filling of a block** keeps the members. Sorted blocks and a sorted rest of the block that
is filled give members in order that are not greater than those of the later blocks, which stay
sorted, if few members are less. -/
theorem fillBlock_spec (hcompare : TotalPreorder compare) (membs : List α)
    {later : List (List α)} (hne : ∀ block ∈ later, block ≠ []) :
    ∃ filled later', fillBlock compare membs later = some (filled, later') ∧
      (filled ++ later'.flatten).Perm (membs ++ later.flatten) ∧
      (∀ block ∈ later', block ≠ []) ∧ later'.length = later.length ∧
      (membs.Pairwise (compare · · ≤ 0) → (∀ block ∈ later, block.Pairwise (compare · · ≤ 0)) →
        FewLess compare (membs ++ later.flatten) →
        filled.Pairwise (compare · · ≤ 0) ∧
        (∀ a ∈ filled, ∀ b ∈ later'.flatten, compare a b ≤ 0) ∧
        ∀ block ∈ later', block.Pairwise (compare · · ≤ 0)) := by
  induction membs generalizing later with
  | nil =>
      refine ⟨[], later, rfl, .refl _, hne, rfl, fun _ hlater _ => ⟨.nil, ?_, hlater⟩⟩
      exact fun a ha => absurd ha List.not_mem_nil
  | cons first_v membs ih =>
      obtain ⟨m, later1, hstep, hperm1, hne1, hlength1, hle, hsorted1⟩ :=
        fillStep_spec hcompare hne first_v
      obtain ⟨filled, later2, hfill, hperm2, hne2, hlength2, hsorted2⟩ := ih hne1
      have hmoved : (m :: (membs ++ later1.flatten)).Perm (first_v :: membs ++ later.flatten) :=
        List.perm_middle.symm.trans ((hperm1.append_left membs).trans List.perm_middle)
      refine ⟨m :: filled, later2, by simp [fillBlock, hstep, hfill], (hperm2.cons m).trans hmoved,
        hne2, hlength2.trans hlength1, fun hmembs hlater hfew => ?_⟩
      obtain ⟨hfirst, hrest⟩ := List.pairwise_cons.mp hmembs
      obtain ⟨hblocks, hstays⟩ := hsorted1 hlater
      obtain ⟨hfilled, hbefore, hlater2⟩ := hsorted2 hrest
        (hstays _ hfew (List.sublist_append_right membs later.flatten))
        (hfew.perm hmoved.symm).of_cons
      have hleast : ∀ memb ∈ filled ++ later2.flatten, compare m memb ≤ 0 := by
        intro memb hmemb
        have hmemb := hmoved.mem_iff.mp (List.mem_cons_of_mem m (hperm2.mem_iff.mp hmemb))
        rcases List.mem_append.mp hmemb with hmemb | hmemb
        · rcases List.mem_cons.mp hmemb with rfl | hmemb
          · exact hle
          · exact hcompare.trans _ _ _ hle (hfirst memb hmemb)
        · exact hblocks memb hmemb
      refine ⟨List.pairwise_cons.mpr ⟨fun a ha => hleast a (List.mem_append_left _ ha), hfilled⟩,
        List.forall_mem_cons.mpr ⟨fun b hb => hleast b (List.mem_append_right _ hb), hbefore⟩,
        hlater2⟩

/-- **The filling of all blocks**, from an index into the first one on. -/
theorem mergeBlocks_spec (hcompare : TotalPreorder compare) {passes index : ℕ} {block : List α}
    {later : List (List α)} (hlength : later.length = passes) (hindex : index ≤ block.length)
    (hne : ∀ b ∈ later, b ≠ []) :
    ∃ blocks, mergeBlocks compare passes index (block :: later) = some blocks ∧
      (blocks.flatten.drop index).Perm (block.drop index ++ later.flatten) ∧
      (block.Pairwise (compare · · ≤ 0) → (∀ b ∈ later, b.Pairwise (compare · · ≤ 0)) →
        FewLess compare (block.drop index ++ later.flatten) →
        (blocks.flatten.drop index).Pairwise (compare · · ≤ 0)) := by
  induction passes generalizing index block later with
  | zero =>
      obtain rfl := List.length_eq_zero_iff.mp hlength
      refine ⟨[block], rfl, by simp, fun hblock _ _ => ?_⟩
      simpa using hblock.drop
  | succ passes ih =>
      obtain ⟨filled, later1, hfill, hperm1, hne1, hlength1, hsorted1⟩ :=
        fillBlock_spec hcompare (block.drop index) hne
      cases later1 with
      | nil => exact absurd (hlength1.trans hlength) (by simp)
      | cons next later1 =>
          obtain ⟨hnext, hothers⟩ := List.forall_mem_cons.mp hne1
          have hlength2 : later1.length = passes := by simpa [hlength] using hlength1
          obtain ⟨blocks, hmerge, hperm2, hsorted2⟩ :=
            ih hlength2 (Nat.zero_le next.length) hothers
          rw [List.drop_zero, List.drop_zero, ← List.flatten_cons] at hperm2
          rw [List.drop_zero, List.drop_zero, ← List.flatten_cons] at hsorted2
          have hdrop : ((block.take index ++ filled) :: blocks).flatten.drop index =
              filled ++ blocks.flatten := by
            have htake : (block.take index).length = index := List.length_take_of_le hindex
            rw [List.flatten_cons, List.append_assoc, List.drop_append_of_le_length htake.ge,
              List.drop_eq_nil_of_le htake.le, List.nil_append]
          refine ⟨(block.take index ++ filled) :: blocks, by simp [mergeBlocks, hfill, hmerge], ?_,
            fun hblock hlater hfew => ?_⟩
          · rw [hdrop]
            exact (hperm2.append_left filled).trans hperm1
          · obtain ⟨hfilled, hbefore, hlater1⟩ := hsorted1 hblock.drop hlater hfew
            obtain ⟨hnextsorted, hothersorted⟩ := List.forall_mem_cons.mp hlater1
            have hfew1 := hfew.perm hperm1.symm
            rw [hdrop]
            refine List.pairwise_append.mpr ⟨hfilled, hsorted2 hnextsorted hothersorted ?_,
              fun a ha b hb => hbefore a ha b (hperm2.mem_iff.mp hb)⟩
            exact fewLess_of_append hfew1

end Fill

/-! ### The whole list -/

section Whole

variable {compare qsort}

/-- Two parts of the same members: the first ones have the same members if the second ones do. -/
theorem perm_parts {front back front' back' : List α}
    (h : (front ++ back).Perm (front' ++ back')) : front.Perm front' ↔ back.Perm back' := by
  constructor
  · intro hfront
    exact (List.perm_append_left_iff front').mp ((hfront.append_right back).symm.trans h)
  · intro hback
    exact (List.perm_append_right_iff back').mp ((hback.append_left front).symm.trans h)

/-- Blocks that are sorted have the same members. -/
theorem flatten_map_qsort_perm (hqsort : Qsorts compare qsort) (blocks : List (List α)) :
    (blocks.map qsort).flatten.Perm blocks.flatten := by
  induction blocks with
  | nil => exact .refl _
  | cons block blocks ih => exact (hqsort.perm block).append ih

/-- **With few members less, the list is sorted exactly if it skips the first ones.** -/
theorem sortsRight_iff (hcompare : TotalPreorder compare) (hqsort : Qsorts compare qsort)
    {list : SexpList α} (hfew : FewLess compare list.membs) :
    SortsRight compare qsort list ↔ SkipsFirst qsort list := by
  obtain ⟨offset, blocks, hwithin⟩ := list
  cases blocks with
  | nil =>
      refine iff_of_true ⟨[], rfl, ?_, ?_⟩ fun block later h => absurd h (by simp)
      · exact .refl _
      · simp
  | cons block later =>
      have hlt : offset < block.length := hwithin.1
      have hne : ∀ b ∈ later, b ≠ [] := hwithin.2
      have hmembs : (SexpList.mk offset (block :: later) hwithin).membs =
          block.drop offset ++ later.flatten := by
        rw [SexpList.membs, List.flatten_cons, List.drop_append_of_le_length hlt.le]
      have hskips : SkipsFirst qsort ⟨offset, block :: later, hwithin⟩ ↔
          ((qsort block).take offset).Perm (block.take offset) := by
        constructor
        · exact fun h => h block later rfl
        · rintro h block' later' heq
          obtain ⟨rfl, rfl⟩ := List.cons.inj heq
          exact h
      have hparts : ((qsort block).take offset).Perm (block.take offset) ↔
          ((qsort block).drop offset).Perm (block.drop offset) := by
        refine perm_parts ?_
        rw [List.take_append_drop, List.take_append_drop]
        exact hqsort.perm block
      have hlater := flatten_map_qsort_perm hqsort later
      have hnesorted : ∀ b ∈ later.map qsort, b ≠ [] := by
        intro b hb
        obtain ⟨b, hmem, rfl⟩ := List.mem_map.mp hb
        exact fun hnil => hne b hmem (List.Perm.eq_nil (hnil ▸ hqsort.perm b).symm)
      have hlength : (later.map qsort).length = later.length := List.length_map qsort
      obtain ⟨blocks, hmerge, hperm, hsorted⟩ := mergeBlocks_spec hcompare hlength
        (hlt.le.trans (hqsort.perm block).length_eq.ge) hnesorted
      have hsort : sexpListSort compare qsort ⟨offset, block :: later, hwithin⟩ = some blocks :=
        hmerge
      rw [hskips, hparts]
      constructor
      · rintro ⟨blocks', hsort', hperm', -⟩
        obtain rfl := Option.some.inj (hsort.symm.trans hsort')
        rw [hmembs] at hperm'
        have hboth := (hperm.symm.trans hperm').trans (hlater.symm.append_left _)
        exact (List.perm_append_right_iff _).mp hboth
      · intro hdrop
        have hall : ((qsort block).drop offset ++ (later.map qsort).flatten).Perm
            (block.drop offset ++ later.flatten) := hdrop.append hlater
        rw [hmembs] at hfew
        refine ⟨blocks, hsort, ?_, hsorted (hqsort.sorted block) ?_ (hfew.perm hall.symm)⟩
        · rw [hmembs]
          exact hperm.trans hall
        · intro b hb
          obtain ⟨b, -, rfl⟩ := List.mem_map.mp hb
          exact hqsort.sorted b

/-- A block of one member, and the others in a second one. -/
def twoBlocks (b : α) {others : List α} (hne : others ≠ []) : SexpList α :=
  ⟨0, [[b], others], Nat.one_pos, by simpa using hne⟩

/-- **If several members are equal and more than one is less, then some list is not sorted:** the
first member is put in front of one that is less. -/
theorem not_sortsRight_twoBlocks (hcompare : TotalPreorder compare) (hqsort : Qsorts compare qsort)
    {b : α} {others : List α} (hne : others ≠ [])
    (hequal : 1 ≤ others.countP (fun a => compare b a = 0))
    (hless : 2 ≤ others.countP (fun a => compare a b < 0)) :
    ¬ SortsRight compare qsort (twoBlocks b hne) := by
  rintro ⟨blocks, hsort, -, hsorted⟩
  have hperm := hqsort.perm others
  have hothers := hqsort.sorted others
  have hsingle : qsort [b] = [b] := List.perm_singleton.mp (hqsort.perm [b])
  rw [← hperm.countP_eq] at hequal hless
  change mergeBlocks compare 1 0 [qsort [b], qsort others] = some blocks at hsort
  rw [hsingle] at hsort
  cases hcase : qsort others with
  | nil =>
      rw [hcase] at hequal
      exact absurd hequal (by simp)
  | cons m membs =>
      rw [hcase] at hsort hequal hless hothers
      obtain ⟨hfirst, hrest⟩ := List.pairwise_cons.mp hothers
      -- the first member of the second block is the least one
      have hm : compare m b < 0 := by
        obtain ⟨memb, hmemb, hlow⟩ :=
          List.countP_pos_iff.mp (Nat.lt_of_lt_of_le Nat.zero_lt_two hless)
        rcases List.mem_cons.mp hmemb with rfl | hmemb
        · simpa using hlow
        · exact lt_of_le_of_lt hcompare (hfirst memb hmemb) (by simpa using hlow)
      have hmgreater : compare b m ≠ 0 := by
        rw [hcompare.swap] at hm
        exact hm.ne'
      rw [List.countP_cons, if_neg (by simpa using hmgreater)] at hequal
      rw [List.countP_cons, if_pos (by simpa using hm)] at hless
      have hdst : dstOf compare b membs = 0 := by
        obtain ⟨memb, hmemb, hzero⟩ := List.countP_pos_iff.mp (Nat.lt_of_succ_le hequal)
        exact dstOf_eq_zero hcompare hrest ⟨memb, hmemb, by simpa using hzero⟩
      have hblocks : blocks = [[m], b :: membs] := by
        have hsome : some [[m], b :: membs] = some blocks := by
          rw [← hsort]
          simp [mergeBlocks, fillBlock, fillStep, searchMin, hm, replaceMin, hdst]
        exact (Option.some.inj hsome).symm
      obtain ⟨memb, hmemb, hlow⟩ :=
        List.countP_pos_iff.mp (Nat.lt_of_succ_le (Nat.le_of_succ_le_succ hless))
      have hpairs : (m :: b :: membs).Pairwise (compare · · ≤ 0) := by
        rw [hblocks] at hsorted
        simpa [twoBlocks] using hsorted
      have hle := (List.pairwise_cons.mp (List.pairwise_cons.mp hpairs).2).1 memb hmemb
      exact not_le_of_lt hcompare (by simpa using hlow) hle

end Whole

/-- **All lists of these members are sorted right**, if they skip the first members of their first
block, and only then, exactly if several equal members have at most one that is less. -/
theorem listSort_right_iff (hcompare : TotalPreorder compare) (hqsort : Qsorts compare qsort)
    (membs : List α) :
    (∀ list : SexpList α, list.membs.Perm membs →
      (SortsRight compare qsort list ↔ SkipsFirst qsort list)) ↔ FewLess compare membs := by
  constructor
  · intro hall b hb htwo
    by_contra hless
    obtain ⟨front, back, rfl⟩ := List.append_of_mem hb
    have hperm : (front ++ b :: back).Perm (b :: (front ++ back)) := List.perm_middle
    rw [hperm.countP_eq, List.countP_cons, if_pos (by simp [compare_self hcompare])] at htwo
    rw [hperm.countP_eq, List.countP_cons,
      if_neg (by simp [compare_self hcompare])] at hless
    have hne : front ++ back ≠ [] := by
      intro hnil
      rw [hnil] at htwo
      exact absurd htwo (by simp)
    refine not_sortsRight_twoBlocks hcompare hqsort hne (by omega) (by omega)
      ((hall (twoBlocks b hne) ?_).mpr ?_)
    · simpa [SexpList.membs, twoBlocks] using hperm.symm
    · rintro block later -
      exact .refl _
  · intro hfew list hperm
    exact sortsRight_iff hcompare hqsort (hfew.perm hperm.symm)

/-! ### Integers -/

/-- The comparison of integers. -/
theorem totalPreorder_sub : TotalPreorder (fun a b : ℤ => a - b) :=
  ⟨fun a b => by omega, fun a b c hab hbc => by omega⟩

/-- Sorting by insertion. -/
theorem qsorts_insertionSort :
    Qsorts (fun a b : ℤ => a - b) (List.insertionSort (· ≤ ·)) :=
  ⟨List.perm_insertionSort _, fun membs =>
    (List.pairwise_insertionSort (· ≤ ·) membs).imp fun h => Int.sub_nonpos_of_le h⟩

/-- The members 1, 2, 2. -/
theorem listSort_right_iff_three :
    TotalPreorder (fun a b : ℤ => a - b) ∧
    Qsorts (fun a b : ℤ => a - b) (List.insertionSort (· ≤ ·)) ∧
    ∀ list : SexpList ℤ, list.membs.Perm [1, 2, 2] →
      (SortsRight (fun a b : ℤ => a - b) (List.insertionSort (· ≤ ·)) list ↔
        SkipsFirst (List.insertionSort (· ≤ ·)) list) :=
  ⟨totalPreorder_sub, qsorts_insertionSort,
    (listSort_right_iff _ _ totalPreorder_sub qsorts_insertionSort [1, 2, 2]).mpr
      (by unfold FewLess; decide)⟩

/-- The members 3 and 1, 2, 3 of two blocks are not sorted, and neither is the member 1 behind an
offset over the member 2. -/
theorem not_sortsRight :
    ¬ SortsRight (fun a b : ℤ => a - b) (List.insertionSort (· ≤ ·))
        ⟨0, [[3], [1, 2, 3]], by simp [Within]⟩ ∧
      ¬ SortsRight (fun a b : ℤ => a - b) (List.insertionSort (· ≤ ·))
        ⟨1, [[2, 1]], by simp [Within]⟩ := by
  constructor
  · rintro ⟨blocks, hsort, -, hsorted⟩
    obtain rfl : [[1], [3, 2, 3]] = blocks := Option.some.inj (hsort.symm.trans (by decide)).symm
    exact absurd hsorted (by decide)
  · rintro ⟨blocks, hsort, hperm, -⟩
    obtain rfl : [[1, 2]] = blocks := Option.some.inj (hsort.symm.trans (by decide)).symm
    exact absurd hperm (by decide)

end OpenScap.ListSort
