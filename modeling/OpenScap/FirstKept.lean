import Mathlib.Data.List.Pairwise
import Mathlib.Data.Nat.Notation
import Mathlib.Logic.Relation
import Mathlib.Order.Basic

/-!
# Keeping the first of each kind

A table keeps items one after another. An item for which the table finds one that it keeps is
given the place of that one, and any other item is kept. What is found is a matter of a test, and
what should be found of an equivalence; the table sorts the items by the equivalence if the test
tells, of the first items of each kind, the right one first.

## Main results

* `lookup_right_iff` — when an item is given the right place;
* `sorts_iff` — when all items are;
* `keepAll_eq_kinds` — what is kept then.
-/

namespace FirstKept

variable {ι : Type*}

/-! ### The table -/

section Table

variable (found : ι → ι → Bool)

/-- What is found for an item, with its place. -/
def lookup (kept : List ι) (x : ι) : Option (ι × ℕ) := kept.zipIdx.find? fun p => found x p.1

/-- The place of an item. -/
def place (kept : List ι) (x : ι) : ℕ := ((lookup found kept x).map Prod.snd).getD kept.length

/-- What is kept with an item. -/
def keep (kept : List ι) (x : ι) : List ι :=
  if (lookup found kept x).isSome then kept else kept ++ [x]

/-- The places of items. -/
def places (kept : List ι) : List ι → List ℕ
  | [] => []
  | x :: xs => place found kept x :: places (keep found kept x) xs

/-- What is kept with items. -/
def keepAll (kept : List ι) (xs : List ι) : List ι := xs.foldl (keep found) kept

/-- An item for which one is found is not kept. -/
theorem keep_of_some {kept : List ι} {x : ι} {p : ι × ℕ} (h : lookup found kept x = some p) :
    keep found kept x = kept ∧ place found kept x = p.2 := by
  rw [keep, place, h]
  exact ⟨rfl, rfl⟩

/-- An item for which none is found is kept behind the others. -/
theorem keep_of_none {kept : List ι} {x : ι} (h : lookup found kept x = none) :
    keep found kept x = kept ++ [x] ∧ place found kept x = kept.length := by
  rw [keep, place, h]
  exact ⟨rfl, rfl⟩

/-- Everything stays in its place. -/
theorem isPrefix_keep (kept : List ι) (x : ι) : kept <+: keep found kept x := by
  rw [keep]
  split
  · exact List.prefix_rfl
  · exact List.prefix_append kept [x]

/-- Everything stays in its place. -/
theorem isPrefix_keepAll (kept xs : List ι) : kept <+: keepAll found kept xs := by
  induction xs generalizing kept with
  | nil => exact List.prefix_rfl
  | cons x xs ih => exact (isPrefix_keep found kept x).trans (ih _)

/-- What is kept are some of the items. -/
theorem keepAll_sublist (kept xs : List ι) :
    (keepAll found kept xs).Sublist (kept ++ xs) := by
  induction xs generalizing kept with
  | nil => rw [List.append_nil]; exact List.Sublist.refl kept
  | cons x xs ih =>
      refine (ih (keep found kept x)).trans ?_
      rw [keep]
      split
      · exact List.Sublist.append_left (List.sublist_cons_self x xs) kept
      · rw [List.append_assoc]
        exact List.Sublist.refl _

/-- What is found is kept, and is found by the test. -/
theorem mem_of_lookup {kept : List ι} {x c : ι} {k : ℕ} (h : lookup found kept x = some (c, k)) :
    kept[k]? = some c ∧ found x c = true := by
  have hmem := List.mem_of_find?_eq_some h
  exact ⟨List.mem_zipIdx_iff_getElem?.mp hmem, (List.find?_eq_some_iff_append.mp h).1⟩

/-- What an item is given is kept in its place. -/
theorem getElem?_place (kept : List ι) (x : ι) :
    ∃ c, (keep found kept x)[place found kept x]? = some c ∧ (c = x ∨ found x c = true) := by
  cases h : lookup found kept x with
  | none =>
      obtain ⟨hkeep, hplace⟩ := keep_of_none found h
      rw [hkeep, hplace]
      exact ⟨x, by simp, .inl rfl⟩
  | some p =>
      obtain ⟨hkeep, hplace⟩ := keep_of_some found h
      obtain ⟨hmem, hfound⟩ := mem_of_lookup found h
      rw [hkeep, hplace]
      exact ⟨p.1, hmem, .inr hfound⟩

/-- A place is the place of something that is kept. -/
theorem place_lt (kept : List ι) (x : ι) :
    place found kept x < (keep found kept x).length := by
  obtain ⟨c, hc, -⟩ := getElem?_place found kept x
  exact (List.getElem?_eq_some_iff.mp hc).1

/-- All places are places of what is kept at last. -/
theorem places_lt {kept xs : List ι} {k : ℕ} (h : k ∈ places found kept xs) :
    k < (keepAll found kept xs).length := by
  induction xs generalizing kept with
  | nil => cases h
  | cons x xs ih =>
      rcases List.mem_cons.mp h with rfl | h
      · exact Nat.lt_of_lt_of_le (place_lt found kept x)
          (isPrefix_keepAll found _ xs).length_le
      · exact ih h

/-- Everything that is kept in addition is kept for some item. -/
theorem mem_places {kept xs : List ι} {k : ℕ} (hge : kept.length ≤ k)
    (hlt : k < (keepAll found kept xs).length) : k ∈ places found kept xs := by
  induction xs generalizing kept with
  | nil => exact absurd hlt (by simpa [keepAll] using hge)
  | cons x xs ih =>
      rw [places, List.mem_cons]
      rw [keepAll, List.foldl_cons, ← keepAll] at hlt
      rcases Nat.lt_or_ge k (keep found kept x).length with hk | hk
      · left
        cases h : lookup found kept x with
        | none =>
            obtain ⟨hkeep, hplace⟩ := keep_of_none found h
            rw [hkeep, List.length_append, List.length_singleton] at hk
            omega
        | some p =>
            rw [(keep_of_some found h).1] at hk
            omega
      · exact .inr (ih hk hlt)

/-- There is a place for each item. -/
@[simp]
theorem length_places (kept xs : List ι) : (places found kept xs).length = xs.length := by
  induction xs generalizing kept with
  | nil => rfl
  | cons x xs ih => rw [places, List.length_cons, ih, List.length_cons]

end Table

/-! ### Kinds -/

section Kinds

variable (same : ι → ι → Prop)

open Classical in
/-- The first items of each kind, with one more. -/
noncomputable def addKind (kinds : List ι) (x : ι) : List ι :=
  if ∃ c ∈ kinds, same c x then kinds else kinds ++ [x]

/-- The first items of each kind. -/
noncomputable def kinds (xs : List ι) : List ι := xs.foldl (addKind same) []

/-- Items of different kinds. -/
def Apart (kept : List ι) : Prop := kept.Pairwise fun a b => ¬ same a b

/-- With one more item they are still of different kinds. -/
theorem Apart.addKind {kept : List ι} (h : Apart same kept) (x : ι) :
    Apart same (addKind same kept x) := by
  rw [FirstKept.addKind]
  split
  · exact h
  · rename_i hnew
    refine List.pairwise_append.mpr ⟨h, List.pairwise_singleton _ _, fun a ha b hb => ?_⟩
    rw [List.mem_singleton.mp hb]
    exact fun hsame => hnew ⟨a, ha, hsame⟩

end Kinds

/-! ### When the table sorts the items -/

section Sorting

variable (found : ι → ι → Bool) (same : ι → ι → Prop)

/-- The test tells an item among the first ones of their kinds: it finds the one of its kind, and
no other one in front of that, or none at all if there is none of its kind. -/
def Told (kinds : List ι) (x : ι) : Prop :=
  ∀ before c after, kinds = before ++ c :: after →
    (same c x → found x c = true) ∧
    (¬ same c x → found x c = true → ∃ b ∈ before, same b x)

/-- An item is given the right place. -/
def LookupRight (kept : List ι) (x : ι) : Prop :=
  match lookup found kept x with
  | some p => same p.1 x
  | none => ∀ c ∈ kept, ¬ same c x

variable {same}

/-- Of different kinds only one is that of an item. -/
theorem Apart.eq_of_same (heq : Equivalence same) {kept : List ι} (h : Apart same kept)
    {i j : ℕ} {a b x : ι} (ha : kept[i]? = some a) (hb : kept[j]? = some b) (hax : same a x)
    (hbx : same b x) : i = j := by
  obtain ⟨hi, rfl⟩ := List.getElem?_eq_some_iff.mp ha
  obtain ⟨hj, rfl⟩ := List.getElem?_eq_some_iff.mp hb
  have hpair := List.pairwise_iff_getElem.mp h
  rcases Nat.lt_trichotomy i j with hij | hij | hij
  · exact absurd (heq.trans hax (heq.symm hbx)) (hpair i j hi hj hij)
  · exact hij
  · exact absurd (heq.trans hbx (heq.symm hax)) (hpair j i hj hi hij)

/-- **When an item is given the right place.** -/
theorem lookup_right_iff (heq : Equivalence same) {kept : List ι} (hapart : Apart same kept)
    (x : ι) : LookupRight found same kept x ↔ Told found same kept x := by
  rw [LookupRight]
  cases h : lookup found kept x with
  | none =>
      have hnone : ∀ c ∈ kept, ¬ found x c = true := by
        intro c hc
        obtain ⟨i, hi, rfl⟩ := List.getElem_of_mem hc
        exact List.find?_eq_none.mp h (kept[i], i)
          (List.mem_zipIdx_iff_getElem?.mpr (List.getElem?_eq_getElem hi))
      constructor
      · rintro hright before c after rfl
        have hc : c ∈ before ++ c :: after := by simp
        exact ⟨fun hsame => absurd hsame (hright c hc), fun _ hfound => absurd hfound (hnone c hc)⟩
      · intro htold c hc hsame
        obtain ⟨before, after, rfl⟩ := List.append_of_mem hc
        exact hnone c hc ((htold before c after rfl).1 hsame)
  | some p =>
      obtain ⟨c, k⟩ := p
      obtain ⟨hplace, hfound⟩ := mem_of_lookup found h
      obtain ⟨-, front, back, hzip, hfront⟩ := List.find?_eq_some_iff_append.mp h
      -- what stands in front of the item that is found is not found
      have hbefore : ∀ i b, kept[i]? = some b → i < k → ¬ found x b = true := by
        intro i b hb hik hfb
        have hk := (List.getElem?_eq_some_iff.mp hplace).1
        have hlen : front.length = k := by
          have hget : kept.zipIdx[front.length]? = some (c, k) := by
            rw [hzip]
            simp
          rw [List.getElem?_zipIdx] at hget
          obtain ⟨d, -, hd⟩ := Option.map_eq_some_iff.mp hget
          simpa using congrArg Prod.snd hd
        have hget : kept.zipIdx[i]? = some (b, i) := by
          rw [List.getElem?_zipIdx, hb]
          simp
        rw [hzip, List.getElem?_append_left (by omega)] at hget
        have hno := hfront _ (List.mem_of_getElem? hget)
        simp [hfb] at hno
      constructor
      · rintro hright before d after rfl
        have hd : (before ++ d :: after)[before.length]? = some d := by simp
        constructor
        · intro hsame
          have hsamePlace := hapart.eq_of_same heq hd hplace hsame hright
          rw [hsamePlace, hplace] at hd
          rwa [← Option.some.inj hd]
        · intro hdiffers hfd
          rcases Nat.lt_trichotomy before.length k with hlt | heqk | hgt
          · exact absurd hfd (hbefore _ d hd hlt)
          · rw [heqk, hplace] at hd
            rw [← Option.some.inj hd] at hdiffers
            exact absurd hright hdiffers
          · rw [List.getElem?_append_left hgt] at hplace
            exact ⟨c, List.mem_of_getElem? hplace, hright⟩
      · intro htold
        by_contra hdiffers
        obtain ⟨hk, hc⟩ := List.getElem?_eq_some_iff.mp hplace
        have hsplit : kept = kept.take k ++ c :: kept.drop (k + 1) := by
          rw [← hc, List.getElem_cons_drop, List.take_append_drop]
        obtain ⟨b, hb, hsame⟩ := (htold _ c _ hsplit).2 hdiffers hfound
        obtain ⟨i, hi, rfl⟩ := List.getElem_of_mem hb
        rw [List.length_take] at hi
        have hget : kept[i]? = some (kept.take k)[i] := by
          rw [List.getElem_take, List.getElem?_eq_getElem (by omega)]
        have hsplit' : kept = kept.take i ++ (kept.take k)[i] :: kept.drop (i + 1) := by
          rw [List.getElem_take, List.getElem_cons_drop, List.take_append_drop]
        exact hbefore i _ hget (by omega) ((htold _ _ _ hsplit').1 hsame)

/-- If an item is given the right place, it is kept exactly if it is the first of its kind. -/
theorem keep_eq_addKind {kept : List ι} {x : ι} (h : LookupRight found same kept x) :
    keep found kept x = addKind same kept x := by
  rw [LookupRight] at h
  rw [addKind]
  cases hlookup : lookup found kept x with
  | none =>
      rw [hlookup] at h
      rw [(keep_of_none found hlookup).1, if_neg fun ⟨c, hc, hsame⟩ => h c hc hsame]
  | some p =>
      rw [hlookup] at h
      have hmem := List.mem_of_getElem? (mem_of_lookup found hlookup).1
      rw [(keep_of_some found hlookup).1, if_pos ⟨p.1, hmem, h⟩]

/-- Two items with their places are sorted. -/
def Related (same : ι → ι → Prop) (p q : ι × ℕ) : Prop := p.2 = q.2 ↔ same p.1 q.1

/-- What is kept, and items with the places that they are given, are sorted. -/
def Sorts (same : ι → ι → Prop) (kept xs : List ι) : Prop :=
  (kept.zipIdx ++ xs.zip (places found kept xs)).Pairwise (Related same)

/-- What is kept is sorted if it is of different kinds. -/
theorem Apart.related {kept : List ι} (h : Apart same kept) :
    kept.zipIdx.Pairwise (Related same) := by
  refine List.pairwise_iff_getElem.mpr fun i j hi hj hij => ?_
  rw [List.length_zipIdx] at hi hj
  rw [List.getElem_zipIdx, List.getElem_zipIdx]
  exact iff_of_false (by simp only; omega) (List.pairwise_iff_getElem.mp h i j hi hj hij)

/-- The place of an item is right as to what is kept, exactly if it is right. -/
theorem related_place_iff (heq : Equivalence same) {kept : List ι} (hapart : Apart same kept)
    (x : ι) : (∀ p ∈ kept.zipIdx, Related same p (x, place found kept x)) ↔
      LookupRight found same kept x := by
  rw [LookupRight, place]
  cases h : lookup found kept x with
  | none =>
      constructor
      · intro hall c hc hsame
        obtain ⟨i, hi, rfl⟩ := List.getElem_of_mem hc
        have hrelated := hall (kept[i], i)
          (List.mem_zipIdx_iff_getElem?.mpr (List.getElem?_eq_getElem hi))
        exact absurd (hrelated.mpr hsame) (Nat.ne_of_lt hi)
      · rintro hnone ⟨c, i⟩ hp
        have hget := List.mem_zipIdx_iff_getElem?.mp hp
        have hi := (List.getElem?_eq_some_iff.mp hget).1
        exact iff_of_false (Nat.ne_of_lt hi) (hnone c (List.mem_of_getElem? hget))
  | some p =>
      obtain ⟨c, k⟩ := p
      have hplace := (mem_of_lookup found h).1
      constructor
      · intro hall
        exact (hall (c, k) (List.mem_zipIdx_iff_getElem?.mpr hplace)).mp rfl
      · rintro hright ⟨d, i⟩ hp
        have hget := List.mem_zipIdx_iff_getElem?.mp hp
        constructor
        · rintro rfl
          rw [hplace] at hget
          rwa [← Option.some.inj hget]
        · exact fun hsame => hapart.eq_of_same heq hget hplace hsame hright

/-- Items are sorted if the first one is given the right place and the others are sorted. -/
theorem sorts_cons (heq : Equivalence same) {kept : List ι} (hapart : Apart same kept) (x : ι)
    (xs : List ι) : Sorts found same kept (x :: xs) ↔
      LookupRight found same kept x ∧ Sorts found same (addKind same kept x) xs := by
  rw [Sorts, places, List.zip_cons_cons]
  constructor
  · intro h
    have hright : LookupRight found same kept x :=
      (related_place_iff found heq hapart x).mp fun p hp =>
        (List.pairwise_append.mp h).2.2 p hp _ List.mem_cons_self
    refine ⟨hright, ?_⟩
    rw [← keep_eq_addKind found hright, Sorts]
    cases hlookup : lookup found kept x with
    | none =>
        obtain ⟨hkeep, hplace⟩ := keep_of_none found hlookup
        rw [hkeep, hplace] at h
        rw [hkeep, List.zipIdx_append]
        simpa using h
    | some p =>
        obtain ⟨hkeep, -⟩ := keep_of_some found hlookup
        rw [hkeep] at h ⊢
        exact h.sublist (List.Sublist.append_left (List.sublist_cons_self _ _) _)
  · rintro ⟨hright, h⟩
    have hall := (related_place_iff found heq hapart x).mpr hright
    rw [← keep_eq_addKind found hright, Sorts] at h
    cases hlookup : lookup found kept x with
    | none =>
        obtain ⟨hkeep, hplace⟩ := keep_of_none found hlookup
        rw [hkeep, List.zipIdx_append] at h
        rw [hkeep, hplace]
        simpa using h
    | some p =>
        obtain ⟨c, k⟩ := p
        obtain ⟨hkeep, hk⟩ := keep_of_some found hlookup
        rw [LookupRight, hlookup] at hright
        rw [hkeep] at h ⊢
        have hc : (c, k) ∈ kept.zipIdx := List.mem_of_find?_eq_some hlookup
        obtain ⟨hkept, hrest, hcross⟩ := List.pairwise_append.mp h
        refine List.pairwise_append.mpr ⟨hkept, List.pairwise_cons.mpr ⟨fun q hq => ?_, hrest⟩,
          fun p hp q hq => ?_⟩
        · -- the item has the place of one that is kept, and is of its kind
          have hrelated := hcross _ hc q hq
          rw [hk]
          exact ⟨fun hkq => heq.trans (heq.symm hright) (hrelated.mp hkq),
            fun hsame => hrelated.mpr (heq.trans hright hsame)⟩
        · rcases List.mem_cons.mp hq with rfl | hq
          · exact hall p hp
          · exact hcross p hp q hq

/-- **When all items are given the right places.** -/
theorem sorts_iff (heq : Equivalence same) {kept : List ι} (hapart : Apart same kept)
    (xs : List ι) : Sorts found same kept xs ↔
      ∀ front x after, xs = front ++ x :: after →
        Told found same (front.foldl (addKind same) kept) x := by
  induction xs generalizing kept with
  | nil =>
      refine iff_of_true ?_ fun front x after h => by simp at h
      rw [Sorts, places, List.zip_nil_left, List.append_nil]
      exact hapart.related
  | cons x xs ih =>
      rw [sorts_cons found heq hapart, lookup_right_iff found heq hapart,
        ih (hapart.addKind same x)]
      constructor
      · rintro ⟨hfirst, hrest⟩ front y after h
        cases front with
        | nil =>
            obtain ⟨rfl, rfl⟩ := List.cons.inj h
            exact hfirst
        | cons z front =>
            obtain ⟨rfl, rfl⟩ := List.cons.inj h
            exact hrest front y after rfl
      · intro h
        exact ⟨h [] x xs rfl, fun front y after hxs => h (x :: front) y after (by rw [hxs]; rfl)⟩

/-- **What is kept if all items are given the right places**: the first ones of each kind. -/
theorem keepAll_eq (heq : Equivalence same) {kept : List ι} (hapart : Apart same kept)
    {xs : List ι} (h : Sorts found same kept xs) :
    keepAll found kept xs = xs.foldl (addKind same) kept := by
  induction xs generalizing kept with
  | nil => rfl
  | cons x xs ih =>
      obtain ⟨hfirst, hrest⟩ := (sorts_cons found heq hapart x xs).mp h
      rw [keepAll, List.foldl_cons, List.foldl_cons, keep_eq_addKind found hfirst]
      exact ih (hapart.addKind same x) hrest

end Sorting

end FirstKept
