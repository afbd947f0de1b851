import Mathlib.Data.List.Induction
import Mathlib.Data.List.TakeWhile
import OpenScap.SlistSegment

/-!
# Lists and their iterators

An `oscap_list` is a singly linked list with links to its first and last cell and a count. An
iterator keeps a link to a cell, the one it has returned last or, when it looks for more, the
last one that its filter rejects. Detaching unlinks that cell and moves the iterator back to the
cell before it.

The loops take at most `fuel` turns in the model; that they end is part of the results.

## Main results

* `hasMore_spec`, `next_spec`, `detach_spec` — each operation on what an iterator shows: the
  elements up to its cell and those behind it;
* `iteration_spec` — any sequence of calls that asks for no element where there is none leaves
  the elements that are not detached, and visits those that the filter accepts once and in order;
* `removingLoop_spec` — a loop that removes elements leaves the others.
-/

open Segment

namespace OpenScap

/-! ### The code -/

/-- `struct oscap_list`. -/
structure OscapList where
  first : Option ℕ
  last : Option ℕ
  itemcount : ℕ
  deriving DecidableEq, Repr

/-- `struct oscap_iterator` on a list, with the memory that the list lies in. -/
structure OscapIteration (α : Type*) where
  cells : SlistMemory α
  list : OscapList
  cur : Option ℕ

section Operations

variable {α : Type*} (filter : α → Bool) (fuel : ℕ)

/-- `it->cur ? it->cur->next : it->list->first`. -/
def OscapIteration.following (it : OscapIteration α) : Option (Option ℕ) :=
  match it.cur with
  | none => some it.list.first
  | some cur => (it.cells cur).map SlistCell.next

/-- `_oscap_iterator_has_more_internal`. -/
def oscapIteratorHasMoreInternal (it : OscapIteration α) : Option Bool :=
  it.following.map Option.isSome

/-- `oscap_iterator_find_nearest`. -/
def oscapIteratorFindNearest : ℕ → OscapIteration α → Option (OscapIteration α)
  | 0, _ => none
  | fuel + 1, it =>
      match it.following with
      | none => none
      | some none => some { it with cur := none }
      | some (some cur) =>
          match it.cells cur with
          | none => none
          | some cell =>
              if filter cell.data then some { it with cur := some cur }
              else
                match oscapIteratorHasMoreInternal { it with cur := some cur } with
                | none => none
                | some false => some { it with cur := some cur }
                | some true => oscapIteratorFindNearest fuel { it with cur := some cur }

/-- `oscap_iterator_next`. There is none when the iterator is left without a cell. -/
def oscapIteratorNext (it : OscapIteration α) : Option (OscapIteration α × α) :=
  match oscapIteratorFindNearest filter fuel it with
  | none => none
  | some it =>
      match it.cur with
      | none => none
      | some cur => (it.cells cur).map fun cell => (it, cell.data)

/-- The loop of `oscap_iterator_has_more`, to the last of the elements that are rejected. -/
def skipRejected : ℕ → OscapIteration α → Option (OscapIteration α)
  | 0, _ => none
  | fuel + 1, it =>
      match it.following with
      | none => none
      | some none => some it
      | some (some next) =>
          match it.cells next with
          | none => none
          | some cell =>
              if filter cell.data then some it else skipRejected fuel { it with cur := some next }

/-- The end of `oscap_iterator_has_more`. -/
def hasMoreBehind (it : OscapIteration α) : Option (OscapIteration α × Bool) :=
  match skipRejected filter fuel it with
  | none => none
  | some it => it.following.map fun next => (it, next.isSome)

/-- `oscap_iterator_has_more`. -/
def oscapIteratorHasMore (it : OscapIteration α) : Option (OscapIteration α × Bool) :=
  match it.list.first with
  | none => some (it, false)
  | some first =>
      match it.cur with
      | none =>
          match it.cells first with
          | none => none
          | some cell =>
              if filter cell.data then some (it, true)
              else hasMoreBehind filter fuel { it with cur := some first }
      | some _ => hasMoreBehind filter fuel it

/-- The loop of `oscap_iterator_detach`, from the cell `cur` to the one before `item`. -/
def findPrevious (cells : SlistMemory α) (item : ℕ) : ℕ → ℕ → Option ℕ
  | 0, _ => none
  | fuel + 1, cur =>
      match cells cur with
      | none => none
      | some cell =>
          if cell.next = some item then some cur
          else
            match cell.next with
            | none => none
            | some next => findPrevious cells item fuel next

/-- `oscap_iterator_detach`. There is no result when an assertion fails. -/
def oscapIteratorDetach (it : OscapIteration α) : Option (OscapIteration α × Option α) :=
  match it.cur with
  | none => some (it, none)
  | some item =>
      match it.cells item, it.list.first, it.list.last with
      | some cell, some first, some last =>
          let count := it.list.itemcount - 1
          if first = last then
            if first = item then
              some (⟨Function.update it.cells item none, ⟨none, none, count⟩, none⟩,
                some cell.data)
            else none
          else if item = first then
            if cell.next.isSome then
              some (⟨Function.update it.cells item none, ⟨cell.next, last, count⟩, none⟩,
                some cell.data)
            else none
          else
            match findPrevious it.cells item fuel first with
            | none => none
            | some cur =>
                (it.cells cur).map fun previous =>
                  let cells := Function.update it.cells cur (some ⟨previous.data, cell.next⟩)
                  (⟨Function.update cells item none,
                    ⟨first, if item = last then cur else last, count⟩, cur⟩, some cell.data)
      | _, _, _ => none

end Operations

/-! ### What a list holds and an iterator shows -/

section Shows

variable {α : Type*}

/-- The list has these cells, each once, and its links and its count are right. -/
structure OscapList.Holds (cells : SlistMemory α) (list : OscapList) (xs : List (ℕ × α)) :
    Prop where
  segment : Segment cells list.first xs none
  nodup : (addresses xs).Nodup
  last : list.last = xs.getLast?.map Prod.fst
  itemcount : list.itemcount = xs.length

/-- The iterator is at the last of the cells `kept`, and `rest` is behind it. -/
structure OscapIteration.Shows (it : OscapIteration α) (kept rest : List (ℕ × α)) : Prop where
  holds : it.list.Holds it.cells (kept ++ rest)
  cur : it.cur = kept.getLast?.map Prod.fst

variable (filter : α → Bool) {fuel : ℕ} {it : OscapIteration α} {kept rest : List (ℕ × α)}
  {a : ℕ} {x : α}

/-- The first cell of a list. -/
theorem OscapList.Holds.first {cells : SlistMemory α} {list : OscapList} {xs : List (ℕ × α)}
    (h : list.Holds cells xs) : list.first = xs.head?.map Prod.fst := h.segment.start_eq_head

namespace OscapIteration.Shows

/-- The cell that the iterator is at. -/
theorem cell (h : it.Shows (kept ++ [(a, x)]) rest) :
    it.cells a = some ⟨x, rest.head?.map Prod.fst⟩ := by
  obtain ⟨mid, hkept, hrest⟩ := append_iff.mp h.holds.segment
  rw [(concat_iff.mp hkept).2, hrest.start_eq_head]

/-- What follows is the first cell of the rest. -/
theorem following (h : it.Shows kept rest) :
    it.following = some (rest.head?.map Prod.fst) := by
  induction kept using List.reverseRecOn with
  | nil =>
      have hcur : it.cur = none := h.cur
      rw [OscapIteration.following, hcur]
      exact congrArg some h.holds.first
  | append_singleton kept c _ =>
      obtain ⟨a, x⟩ := c
      have hcur : it.cur = some a := by simpa using h.cur
      rw [OscapIteration.following, hcur]
      simp only [h.cell, Option.map_some]

/-- The iterator moves on by one cell. -/
theorem advance (h : it.Shows kept ((a, x) :: rest)) :
    ({ it with cur := some a } : OscapIteration α).Shows (kept ++ [(a, x)]) rest :=
  ⟨by simpa using h.holds, by simp⟩

/-- The cell behind the iterator. -/
theorem cell_next (h : it.Shows kept ((a, x) :: rest)) :
    it.cells a = some ⟨x, rest.head?.map Prod.fst⟩ := h.advance.cell

end OscapIteration.Shows

/-! ### Looking for more -/

/-- The loop stops before the first element that is accepted, or at the end. -/
theorem skipRejected_spec (h : it.Shows kept rest) (hfuel : rest.length < fuel) :
    ∃ it', skipRejected filter fuel it = some it' ∧
      it'.cells = it.cells ∧ it'.list = it.list ∧
      it'.Shows (kept ++ rest.takeWhile fun c => !filter c.2)
        (rest.dropWhile fun c => !filter c.2) := by
  induction rest generalizing kept it fuel with
  | nil =>
      obtain ⟨fuel, rfl⟩ := Nat.exists_eq_add_one.mpr hfuel
      refine ⟨it, ?_, rfl, rfl, by simpa using h⟩
      rw [skipRejected, h.following]
      rfl
  | cons c rest ih =>
      obtain ⟨a, x⟩ := c
      obtain ⟨fuel, rfl⟩ := Nat.exists_eq_add_one.mpr (Nat.zero_lt_of_lt hfuel)
      have hstep : skipRejected filter (fuel + 1) it =
          if filter x then some it else skipRejected filter fuel { it with cur := some a } := by
        rw [skipRejected, h.following]
        simp only [List.head?_cons, Option.map_some, h.cell_next]
      by_cases hx : filter x = true
      · exact ⟨it, by rw [hstep, if_pos hx], rfl, rfl, by simpa [hx] using h⟩
      · obtain ⟨it', hrun, hcells, hlist, hshows⟩ :=
          ih h.advance (Nat.lt_of_succ_lt_succ hfuel)
        refine ⟨it', by rw [hstep, if_neg hx, hrun], hcells, hlist, ?_⟩
        simpa [hx] using hshows

/-- An element is accepted exactly if the elements do not end before one is. -/
theorem isSome_head_dropWhile (rest : List (ℕ × α)) :
    ((rest.dropWhile fun c => !filter c.2).head?.map Prod.fst).isSome =
      rest.any fun c => filter c.2 := by
  induction rest with
  | nil => rfl
  | cons c rest ih =>
      by_cases hc : filter c.2 = true
      · simp [hc]
      · rw [List.dropWhile_cons_of_pos (by simpa using hc), ih]
        simp [hc]

theorem hasMoreBehind_spec (h : it.Shows kept rest) (hfuel : rest.length < fuel) :
    ∃ it', hasMoreBehind filter fuel it = some (it', rest.any fun c => filter c.2) ∧
      it'.Shows (kept ++ rest.takeWhile fun c => !filter c.2)
        (rest.dropWhile fun c => !filter c.2) := by
  obtain ⟨it', hrun, -, -, hshows⟩ := skipRejected_spec filter h hfuel
  refine ⟨it', ?_, hshows⟩
  rw [hasMoreBehind, hrun]
  simp only [hshows.following, Option.map_some]
  rw [isSome_head_dropWhile]

/-- **`has_more`** tells whether an element that is accepted follows, and moves the iterator to
the last cell before it. -/
theorem hasMore_spec (h : it.Shows kept rest) (hfuel : rest.length < fuel) :
    ∃ it', oscapIteratorHasMore filter fuel it = some (it', rest.any fun c => filter c.2) ∧
      it'.Shows (kept ++ rest.takeWhile fun c => !filter c.2)
        (rest.dropWhile fun c => !filter c.2) := by
  have hfirst := h.holds.first
  rw [oscapIteratorHasMore]
  cases hall : kept ++ rest with
  | nil =>
      obtain ⟨rfl, rfl⟩ := List.append_eq_nil_iff.mp hall
      rw [hall] at hfirst
      rw [hfirst]
      exact ⟨it, rfl, h⟩
  | cons c all =>
      obtain ⟨b, y⟩ := c
      rw [hall] at hfirst
      simp only [hfirst, List.head?_cons, Option.map_some]
      cases kept with
      | cons c kept =>
          obtain ⟨cur, hcur⟩ : ∃ cur, it.cur = some cur := by
            rw [h.cur, List.getLast?_cons]
            exact ⟨_, rfl⟩
          rw [hcur]
          exact hasMoreBehind_spec filter h hfuel
      | nil =>
          obtain rfl : rest = (b, y) :: all := hall
          have hcur : it.cur = none := h.cur
          simp only [hcur, h.cell_next]
          by_cases hy : filter y = true
          · rw [if_pos hy]
            exact ⟨it, by simp [hy], by simpa [hy] using h⟩
          · rw [if_neg hy]
            obtain ⟨it', hrun, hshows⟩ := hasMoreBehind_spec filter h.advance
              (Nat.lt_of_succ_lt hfuel)
            exact ⟨it', by simpa [hy] using hrun, by simpa [hy] using hshows⟩

/-- **`next`** visits the first element that is accepted. -/
theorem next_spec {skipped : List (ℕ × α)} (h : it.Shows kept (skipped ++ (a, x) :: rest))
    (hskipped : ∀ c ∈ skipped, filter c.2 = false) (hx : filter x = true)
    (hfuel : skipped.length < fuel) :
    oscapIteratorNext filter fuel it = some ({ it with cur := some a }, x) ∧
      ({ it with cur := some a } : OscapIteration α).Shows (kept ++ skipped ++ [(a, x)])
        rest := by
  have hrun : oscapIteratorFindNearest filter fuel it = some { it with cur := some a } := by
    induction skipped generalizing kept it fuel with
    | nil =>
        obtain ⟨fuel, rfl⟩ := Nat.exists_eq_add_one.mpr hfuel
        rw [List.nil_append] at h
        rw [oscapIteratorFindNearest, h.following]
        simp only [List.head?_cons, Option.map_some, h.cell_next]
        rw [if_pos hx]
    | cons c skipped ih =>
        obtain ⟨b, y⟩ := c
        obtain ⟨fuel, rfl⟩ := Nat.exists_eq_add_one.mpr (Nat.zero_lt_of_lt hfuel)
        rw [List.cons_append] at h
        have hy : filter y = false := hskipped (b, y) List.mem_cons_self
        have hmore : oscapIteratorHasMoreInternal { it with cur := some b } = some true := by
          rw [oscapIteratorHasMoreInternal, h.advance.following]
          cases skipped <;> rfl
        have hrest := ih h.advance (fun c hc => hskipped c (List.mem_cons_of_mem _ hc))
          (Nat.lt_of_succ_lt_succ hfuel)
        rw [oscapIteratorFindNearest, h.following]
        simp only [List.head?_cons, Option.map_some, h.cell_next]
        rw [if_neg (by rw [hy]; exact Bool.false_ne_true), hmore]
        exact hrest
  have hshows : ({ it with cur := some a } : OscapIteration α).Shows
      (kept ++ skipped ++ [(a, x)]) rest := ⟨by simpa using h.holds, by simp⟩
  have hcell : it.cells a = some ⟨x, rest.head?.map Prod.fst⟩ := hshows.cell
  refine ⟨?_, hshows⟩
  rw [oscapIteratorNext, hrun]
  simp only [hcell, Option.map_some]

/-- `next` visits the element behind the iterator, if that is accepted. -/
theorem next_visits (h : it.Shows kept ((a, x) :: rest)) (hx : filter x = true)
    (hfuel : 0 < fuel) :
    oscapIteratorNext filter fuel it = some ({ it with cur := some a }, x) ∧
      ({ it with cur := some a } : OscapIteration α).Shows (kept ++ [(a, x)]) rest := by
  have hvisit := next_spec filter (show it.Shows kept ([] ++ (a, x) :: rest) from h)
    (fun c hc => by cases hc) hx hfuel
  rwa [List.append_nil] at hvisit

/-! ### Detaching -/

/-- The cell before one that is not the first. -/
theorem findPrevious_spec {cells : SlistMemory α} {start stop : Option ℕ}
    {front : List (ℕ × α)} {p item : ℕ} {y : α}
    (h : Segment cells start (front ++ (p, y) :: (item, x) :: rest) stop)
    (hnodup : (addresses (front ++ (p, y) :: (item, x) :: rest)).Nodup)
    (hfuel : front.length < fuel) :
    ∃ first, start = some first ∧ findPrevious cells item fuel first = some p := by
  induction front generalizing start fuel with
  | nil =>
      obtain ⟨fuel, rfl⟩ := Nat.exists_eq_add_one.mpr hfuel
      obtain ⟨rfl, next, hcell, hrest⟩ := cons_iff.mp h
      refine ⟨p, rfl, ?_⟩
      rw [findPrevious, hcell]
      exact if_pos hrest.start_eq
  | cons c front ih =>
      obtain ⟨b, z⟩ := c
      obtain ⟨fuel, rfl⟩ := Nat.exists_eq_add_one.mpr (Nat.zero_lt_of_lt hfuel)
      obtain ⟨rfl, next, hcell, hrest⟩ := cons_iff.mp h
      obtain ⟨first, hfirst, hfind⟩ := ih hrest (List.nodup_cons.mp hnodup).2
        (Nat.lt_of_succ_lt_succ hfuel)
      -- what stands behind `b` is not `item`, which comes later
      have hne : ¬ some first = some item := by
        rw [← hfirst]
        rintro rfl
        simp only [addresses_append, addresses_cons, List.cons_append, List.nodup_cons,
          List.mem_append, List.mem_cons] at hnodup
        cases front with
        | nil =>
            obtain rfl : item = p := Option.some.inj hrest.start_eq
            simp at hnodup
        | cons d front =>
            obtain ⟨d, w⟩ := d
            obtain rfl : item = d := Option.some.inj hrest.start_eq
            simp at hnodup
      refine ⟨b, rfl, ?_⟩
      rw [findPrevious, hcell]
      simp only [hfirst]
      rw [if_neg hne]
      exact hfind

/-- The cells of a list are told apart by where they stand. -/
theorem ne_of_mem_append {xs ys : List (ℕ × α)} (h : (addresses (xs ++ ys)).Nodup) {b c : ℕ}
    (hb : b ∈ addresses xs) (hc : c ∈ addresses ys) : b ≠ c := by
  rw [addresses_append, List.nodup_append] at h
  exact h.2.2 b hb c hc

/-- The link to the last cell, after the cell `item` behind `p` is taken out. -/
theorem last_behind {front : List (ℕ × α)} {p item last : ℕ} {y : α}
    (hnodup : (addresses (front ++ (p, y) :: (item, x) :: rest)).Nodup)
    (hlast : some last = (front ++ (p, y) :: (item, x) :: rest).getLast?.map Prod.fst) :
    some (if item = last then p else last) =
      (front ++ (p, y) :: rest).getLast?.map Prod.fst := by
  cases hback : rest.getLast? with
  | none =>
      obtain rfl := List.getLast?_eq_none_iff.mp hback
      obtain rfl : last = item := by simpa using hlast
      simp
  | some c =>
      obtain ⟨b, z⟩ := c
      have hmem : b ∈ addresses rest := mem_addresses (List.mem_of_getLast? hback)
      obtain rfl : last = b := by simpa [List.getLast?_cons, hback] using hlast
      have hne : item ≠ last := by
        rintro rfl
        simp [List.nodup_append, hmem] at hnodup
      rw [if_neg hne]
      simp [List.getLast?_cons, hback]

/-- A cell is taken out from behind another one. -/
theorem detach_behind {front : List (ℕ × α)} {p item : ℕ} {y : α}
    (h : it.Shows (front ++ [(p, y), (item, x)]) rest) (hfuel : front.length < fuel) :
    ∃ it', oscapIteratorDetach fuel it = some (it', some x) ∧
      it'.Shows (front ++ [(p, y)]) rest := by
  have hsplit : front ++ [(p, y), (item, x)] ++ rest =
      front ++ (p, y) :: (item, x) :: rest := by simp
  have hcur : it.cur = some item := by simpa using h.cur
  obtain ⟨hsegment, hnodup, hlast, hcount⟩ := h.holds
  rw [hsplit] at hsegment hnodup hlast hcount
  -- the two cells
  have hitem : it.cells item = some ⟨x, rest.head?.map Prod.fst⟩ := by
    have hshows : it.Shows ((front ++ [(p, y)]) ++ [(item, x)]) rest := by simpa using h
    exact hshows.cell
  obtain ⟨first, hfirst, hfind⟩ := findPrevious_spec hsegment hnodup hfuel
  have hmem : (p, y) ∈ front ++ (p, y) :: (item, x) :: rest := by simp
  obtain ⟨next, hp⟩ := hsegment.cell_of_mem hmem
  -- the item is neither the first cell nor the only one
  have hfront : first ∈ addresses (front ++ [(p, y)]) := by
    have hhead := hsegment.start_eq_head
    rw [hfirst] at hhead
    cases front with
    | nil => simpa using hhead
    | cons c front =>
        obtain ⟨c, z⟩ := c
        obtain rfl : first = c := by simpa using hhead
        simp
  have hapart : (addresses ((front ++ [(p, y)]) ++ (item, x) :: rest)).Nodup := by
    simpa using hnodup
  have hne : item ≠ first := (ne_of_mem_append hapart hfront (by simp)).symm
  obtain ⟨c, hc⟩ : ∃ c, ((item, x) :: rest).getLast? = some c :=
    ⟨_, List.getLast?_eq_some_getLast (by simp)⟩
  have hlast' : it.list.last = some c.1 := by
    rw [hlast, List.getLast?_append, List.getLast?_cons_cons, hc]
    rfl
  have hne' : first ≠ c.1 :=
    ne_of_mem_append hapart hfront (mem_addresses (List.mem_of_getLast? hc))
  have hout : item ∉ addresses (front ++ (p, y) :: rest) := by
    have hperm : (addresses (front ++ (p, y) :: (item, x) :: rest)).Perm
        (item :: addresses (front ++ (p, y) :: rest)) := by
      simp only [addresses_append, addresses_cons]
      have hmid : ((addresses front ++ [p]) ++ item :: addresses rest).Perm
          (item :: ((addresses front ++ [p]) ++ addresses rest)) := List.perm_middle
      simpa using hmid
    exact (List.nodup_cons.mp (hperm.nodup_iff.mp hnodup)).1
  refine ⟨⟨Function.update (Function.update it.cells p (some ⟨y, rest.head?.map Prod.fst⟩)) item
      none, ⟨some first, some (if item = c.1 then p else c.1), it.list.itemcount - 1⟩, some p⟩,
    ?_, ⟨⟨?_, ?_, ?_, ?_⟩, ?_⟩⟩
  · rw [oscapIteratorDetach, hcur]
    simp only [hitem, hfirst, hlast', if_neg hne', if_neg hne, hfind, hp, Option.map_some]
    split_ifs <;> rfl
  · have hjoined := (hsegment.unlink hnodup hitem).update hout none
    rw [hfirst] at hjoined
    simpa using hjoined
  · refine List.Nodup.sublist ?_ hnodup
    simp only [addresses_append, addresses_cons, List.append_assoc, List.singleton_append]
    exact (List.Sublist.refl _).append ((List.sublist_cons_self item _).cons_cons p)
  · have hend := last_behind hnodup (hlast'.symm.trans hlast)
    simpa using hend
  · rw [hcount]
    simp only [List.length_append, List.length_cons, List.length_nil]
    omega
  · simp

/-- **`detach`** takes out the element that the iterator is at, and moves the iterator back. -/
theorem detach_spec (h : it.Shows (kept ++ [(a, x)]) rest) (hfuel : kept.length < fuel) :
    ∃ it', oscapIteratorDetach fuel it = some (it', some x) ∧ it'.Shows kept rest := by
  have hcur : it.cur = some a := by simpa using h.cur
  have hfirst := h.holds.first
  have hlast := h.holds.last
  have hcount := h.holds.itemcount
  have hnodup := h.holds.nodup
  have hsegment := h.holds.segment
  cases kept using List.reverseRecOn with
  | nil =>
      rw [List.nil_append] at hfirst hlast hcount hnodup hsegment h
      rw [List.singleton_append] at hfirst hlast hcount hnodup hsegment
      obtain ⟨-, next, hcell, hrest⟩ := cons_iff.mp hsegment
      have hfree := hrest.update (List.nodup_cons.mp hnodup).1 none
      have hfirst' : it.list.first = some a := hfirst
      cases hback : rest.getLast? with
      | none =>
          obtain rfl := List.getLast?_eq_none_iff.mp hback
          have hlast' : it.list.last = some a := hlast
          refine ⟨⟨Function.update it.cells a none, ⟨none, none, 0⟩, none⟩, ?_, ?_, rfl⟩
          · rw [oscapIteratorDetach, hcur]
            simp only [hcell, hfirst', hlast', if_true, hcount]
            rfl
          · exact ⟨.nil none, List.nodup_nil, rfl, rfl⟩
      | some c =>
          obtain ⟨b, y⟩ := c
          have hmem : (b, y) ∈ rest := List.mem_of_getLast? hback
          have hlast' : it.list.last = some b := by rw [hlast, List.getLast?_cons, hback]; rfl
          have hne : a ≠ b := by
            rintro rfl
            exact (List.nodup_cons.mp hnodup).1 (mem_addresses hmem)
          have hsome : next.isSome = true := by
            cases rest with
            | nil => cases hmem
            | cons c rest =>
                obtain ⟨c, z⟩ := c
                rw [hrest.start_eq]
                rfl
          refine ⟨⟨Function.update it.cells a none, ⟨next, some b, rest.length⟩, none⟩, ?_, ?_, rfl⟩
          · rw [oscapIteratorDetach, hcur]
            simp only [hcell, hfirst', hlast', if_neg hne, hcount, if_true, hsome]
            rfl
          · exact ⟨hfree, (List.nodup_cons.mp hnodup).2, by rw [List.nil_append, hback]; rfl, rfl⟩
  | append_singleton front c _ =>
      obtain ⟨p, y⟩ := c
      rw [List.append_assoc] at h
      exact detach_behind h (by simp at hfuel; omega)

end Shows

/-! ### Runs -/

/-- The calls on an iterator. -/
inductive IteratorCall
  | hasMore
  | next
  | detach
  deriving DecidableEq, Repr

/-- The cells that were visited and those that were detached, in the order of the calls. -/
structure IteratorHistory (α : Type*) where
  visited : List (ℕ × α)
  detached : List (ℕ × α)

section Runs

variable {α : Type*} (filter : α → Bool) (fuel : ℕ)

/-- One call. -/
def iteratorCall (s : OscapIteration α × IteratorHistory α) :
    IteratorCall → Option (OscapIteration α × IteratorHistory α)
  | .hasMore => (oscapIteratorHasMore filter fuel s.1).map fun r => (r.1, s.2)
  | .next =>
      (oscapIteratorNext filter fuel s.1).map fun r =>
        (r.1, ⟨s.2.visited ++ (r.1.cur.map fun cur => (cur, r.2)).toList, s.2.detached⟩)
  | .detach =>
      (oscapIteratorDetach fuel s.1).map fun r =>
        (r.1, ⟨s.2.visited, s.2.detached ++ (s.1.cur.bind fun cur => r.2.map (cur, ·)).toList⟩)

/-- A sequence of calls. -/
def iteratorCalls (calls : List IteratorCall) (s : OscapIteration α × IteratorHistory α) :
    Option (OscapIteration α × IteratorHistory α) :=
  calls.foldlM (iteratorCall filter fuel) s

/-- The calls ask for an element only where `has_more` finds one. -/
def AsksForPresent (calls : List IteratorCall) (s : OscapIteration α × IteratorHistory α) :
    Prop :=
  ∀ front, front ++ [.next] <+: calls → ∀ s', iteratorCalls filter fuel front s = some s' →
    (oscapIteratorHasMore filter fuel s'.1).map Prod.snd = some true

/-- What an iteration of a list has done: the cells `passed` were gone through and `rest` is
left; those that were not detached are still there. -/
structure Iterated (original : List (ℕ × α)) (s : OscapIteration α × IteratorHistory α)
    (passed rest : List (ℕ × α)) : Prop where
  original : original = passed ++ rest
  shows : s.1.Shows (passed.filter fun c => c.1 ∉ addresses s.2.detached) rest
  visited : s.2.visited = passed.filter fun c => filter c.2
  detached : ∀ c ∈ s.2.detached, c ∈ passed

variable {filter fuel} {original passed rest : List (ℕ × α)}
  {s : OscapIteration α × IteratorHistory α}

/-- Behind cells that are rejected, nothing more is visited. -/
theorem filter_skipped {skipped : List (ℕ × α)} (h : ∀ c ∈ skipped, filter c.2 = false) :
    skipped.filter (fun c => filter c.2) = [] :=
  List.filter_eq_nil_iff.mpr fun c hc => by simp [h c hc]

/-- Cells that were not passed are not detached. -/
theorem Iterated.not_detached (h : Iterated filter original s passed rest)
    (hnodup : (addresses original).Nodup) {c : ℕ × α} (hc : c ∈ rest) :
    c.1 ∉ addresses s.2.detached := by
  intro hmem
  obtain ⟨d, hd, heq⟩ := List.mem_map.mp hmem
  rw [h.original] at hnodup
  exact ne_of_mem_append hnodup (mem_addresses (h.detached d hd)) (mem_addresses hc) heq

/-- The cells that are passed next are kept. -/
theorem Iterated.filter_append (h : Iterated filter original s passed rest)
    (hnodup : (addresses original).Nodup) {more : List (ℕ × α)} (hmore : ∀ c ∈ more, c ∈ rest) :
    (passed ++ more).filter (fun c => c.1 ∉ addresses s.2.detached) =
      passed.filter (fun c => c.1 ∉ addresses s.2.detached) ++ more := by
  rw [List.filter_append]
  congr 1
  refine List.filter_eq_self.mpr fun c hc => ?_
  simpa using h.not_detached hnodup (hmore c hc)

/-- `has_more` passes the cells that are rejected. -/
theorem Iterated.hasMore (h : Iterated filter original s passed rest)
    (hnodup : (addresses original).Nodup) (hfuel : original.length < fuel) :
    ∃ s', iteratorCall filter fuel s .hasMore = some s' ∧
      Iterated filter original s' (passed ++ rest.takeWhile fun c => !filter c.2)
        (rest.dropWhile fun c => !filter c.2) := by
  have hlen : rest.length < fuel := by
    rw [h.original, List.length_append] at hfuel
    omega
  obtain ⟨it', hrun, hshows⟩ := hasMore_spec filter h.shows hlen
  have hsub : ∀ c ∈ rest.takeWhile (fun c => !filter c.2), c ∈ rest := fun c hc =>
    (List.takeWhile_prefix _).subset hc
  have hrejected : ∀ c ∈ rest.takeWhile (fun c => !filter c.2), filter c.2 = false :=
    fun c hc => by simpa using List.mem_takeWhile_imp hc
  refine ⟨(it', s.2), by rw [iteratorCall, hrun]; rfl, ?_, ?_, ?_, fun c hc => ?_⟩
  · rw [List.append_assoc, List.takeWhile_append_dropWhile]
    exact h.original
  · rw [h.filter_append hnodup hsub]
    exact hshows
  · rw [List.filter_append, filter_skipped hrejected, List.append_nil]
    exact h.visited
  · exact List.mem_append_left _ (h.detached c hc)

/-- `next` visits the first of the cells that are accepted. -/
theorem Iterated.next (h : Iterated filter original s passed rest)
    (hnodup : (addresses original).Nodup) (hfuel : original.length < fuel)
    (hmore : rest.any (fun c => filter c.2) = true) :
    ∃ s' passed' rest', iteratorCall filter fuel s .next = some s' ∧
      Iterated filter original s' passed' rest' := by
  have hsplit := List.takeWhile_append_dropWhile (p := fun c => !filter c.2) (l := rest)
  have hrejected : ∀ c ∈ rest.takeWhile (fun c => !filter c.2), filter c.2 = false :=
    fun c hc => by simpa using List.mem_takeWhile_imp hc
  generalize rest.takeWhile (fun c => !filter c.2) = skipped at hsplit hrejected
  cases hback : rest.dropWhile fun c => !filter c.2 with
  | nil =>
      rw [hback, List.append_nil] at hsplit
      obtain ⟨c, hc, hacc⟩ := List.any_eq_true.mp hmore
      rw [hrejected c (hsplit ▸ hc)] at hacc
      cases hacc
  | cons c rest' =>
      obtain ⟨a, x⟩ := c
      have hx : filter x = true := by
        have hhead := List.head_dropWhile_not (p := fun c => !filter c.2) (l := rest)
          (by rw [hback]; simp)
        simpa [hback] using hhead
      rw [hback] at hsplit
      subst hsplit
      have hlen : skipped.length < fuel := by
        rw [h.original] at hfuel
        simp only [List.length_append, List.length_cons] at hfuel
        omega
      obtain ⟨hrun, hshows⟩ := next_spec filter h.shows hrejected hx hlen
      refine ⟨_, passed ++ (skipped ++ [(a, x)]), rest', by rw [iteratorCall, hrun]; rfl,
        ?_, ?_, ?_, fun c hc => ?_⟩
      · simpa using h.original
      · rw [h.filter_append hnodup fun c hc => ?_]
        · rw [← List.append_assoc]
          exact hshows
        · simp only [List.mem_append, List.mem_cons, List.not_mem_nil, or_false] at hc ⊢
          exact hc.imp_right Or.inl
      · rw [List.filter_append, List.filter_append, filter_skipped hrejected, ← h.visited]
        simp [hx]
      · exact List.mem_append_left _ (h.detached c hc)

/-- `detach` takes out the last of the cells that are kept. -/
theorem Iterated.detach (h : Iterated filter original s passed rest)
    (hfuel : original.length < fuel) :
    ∃ s', iteratorCall filter fuel s .detach = some s' ∧
      Iterated filter original s' passed rest := by
  obtain ⟨horiginal, hshows, hvisited, hdetached⟩ := h
  rcases List.eq_nil_or_concat (passed.filter fun c => c.1 ∉ addresses s.2.detached) with
    hkept | ⟨kept, ⟨a, x⟩, hkept⟩
  · have hcur : s.1.cur = none := by rw [hshows.cur, hkept]; rfl
    refine ⟨s, ?_, horiginal, hshows, hvisited, hdetached⟩
    rw [iteratorCall, oscapIteratorDetach, hcur]
    simp
  · rw [List.concat_eq_append] at hkept
    rw [hkept] at hshows
    have hlen : kept.length < fuel := by
      have hle := List.length_filter_le (fun c => c.1 ∉ addresses s.2.detached) passed
      rw [hkept] at hle
      rw [horiginal] at hfuel
      simp only [List.length_append, List.length_cons, List.length_nil] at hle hfuel
      omega
    obtain ⟨it', hrun, hshows'⟩ := detach_spec hshows hlen
    have hcur : s.1.cur = some a := by simpa using hshows.cur
    have hmem : (a, x) ∈ passed :=
      List.mem_of_mem_filter (hkept ▸ List.mem_concat_self : (a, x) ∈ _)
    -- the cells that are kept but for the last one
    have hleft : passed.filter (fun c => c.1 ∉ addresses (s.2.detached ++ [(a, x)])) = kept := by
      have hsub : (addresses (kept ++ [(a, x)])).Nodup := by
        have hall := hshows.holds.nodup
        rw [addresses_append] at hall
        exact (List.nodup_append.mp hall).1
      have htwice : passed.filter (fun c => c.1 ∉ addresses (s.2.detached ++ [(a, x)])) =
          (kept ++ [(a, x)]).filter fun c => c.1 ≠ a := by
        rw [← hkept, List.filter_filter]
        refine List.filter_congr fun c _ => ?_
        simp [and_comm]
      rw [htwice, List.filter_append]
      have hout : ∀ c ∈ kept, c.1 ≠ a := fun c hc =>
        ne_of_mem_append hsub (mem_addresses hc) (by simp)
      rw [List.filter_eq_self.mpr fun c hc => by simpa using hout c hc]
      simp
    refine ⟨(it', ⟨s.2.visited, s.2.detached ++ [(a, x)]⟩), ?_, horiginal, ?_, hvisited,
      fun c hc => ?_⟩
    · rw [iteratorCall, hrun, hcur]
      rfl
    · rw [hleft]
      exact hshows'
    · rcases List.mem_append.mp hc with hc | hc
      · exact hdetached c hc
      · rw [List.mem_singleton.mp hc]
        exact hmem

/-- A run has gone through a part of the list. -/
theorem iterated_calls (hnodup : (addresses original).Nodup) (hfuel : original.length < fuel)
    (h : Iterated filter original s [] original) (calls : List IteratorCall)
    (hasks : AsksForPresent filter fuel calls s) :
    ∃ s' passed rest, iteratorCalls filter fuel calls s = some s' ∧
      Iterated filter original s' passed rest := by
  induction calls using List.reverseRecOn with
  | nil => exact ⟨s, [], original, rfl, h⟩
  | append_singleton calls call ih =>
      obtain ⟨s', passed, rest, hrun, hdone⟩ := ih fun front hfront =>
        hasks front (hfront.trans (List.prefix_append _ _))
      have hsplit : iteratorCalls filter fuel (calls ++ [call]) s =
          iteratorCall filter fuel s' call := by
        rw [iteratorCalls, List.foldlM_append]
        rw [iteratorCalls] at hrun
        rw [hrun, Option.bind_eq_bind, Option.bind_some, List.foldlM_cons]
        cases iteratorCall filter fuel s' call <;> rfl
      rw [hsplit]
      cases call with
      | hasMore =>
          obtain ⟨s'', hcall, hdone'⟩ := hdone.hasMore hnodup hfuel
          exact ⟨s'', _, _, hcall, hdone'⟩
      | next =>
          have hlen : rest.length < fuel := by
            rw [hdone.original, List.length_append] at hfuel
            omega
          obtain ⟨it', hmore, -⟩ := hasMore_spec filter hdone.shows hlen
          have hpresent := hasks calls (List.prefix_refl _) s' hrun
          rw [hmore] at hpresent
          exact hdone.next hnodup hfuel (Option.some.inj hpresent)
      | detach =>
          obtain ⟨s'', hcall, hdone'⟩ := hdone.detach hfuel
          exact ⟨s'', _, _, hcall, hdone'⟩

/-- **Any sequence of calls leaves the elements that are not detached**, in their order, with
links and count that are right. It visits the elements that the filter accepts once and in
order, up to where it has come, and all of them when no more are left. -/
theorem iteration_spec {list : OscapList} {cells : SlistMemory α}
    (hlist : list.Holds cells original) (hfuel : original.length < fuel)
    (calls : List IteratorCall)
    (hasks : AsksForPresent filter fuel calls (⟨cells, list, none⟩, ⟨[], []⟩)) :
    ∃ it history, iteratorCalls filter fuel calls (⟨cells, list, none⟩, ⟨[], []⟩) =
        some (it, history) ∧
      it.list.Holds it.cells (original.filter fun c => c.1 ∉ addresses history.detached) ∧
      history.visited <+: original.filter (fun c => filter c.2) ∧
      ((oscapIteratorHasMore filter fuel it).map Prod.snd = some false →
        history.visited = original.filter fun c => filter c.2) := by
  have hstart : Iterated filter original (⟨cells, list, none⟩, ⟨[], []⟩) [] original :=
    ⟨rfl, ⟨hlist, rfl⟩, rfl, fun c hc => by cases hc⟩
  obtain ⟨⟨it, history⟩, passed, rest, hrun, hdone⟩ :=
    iterated_calls hlist.nodup hfuel hstart calls hasks
  have hsplit : original.filter (fun c => filter c.2) =
      history.visited ++ rest.filter fun c => filter c.2 := by
    rw [hdone.original, List.filter_append, hdone.visited]
  have hleft : original.filter (fun c => c.1 ∉ addresses history.detached) =
      passed.filter (fun c => c.1 ∉ addresses history.detached) ++ rest := by
    rw [hdone.original]
    exact hdone.filter_append hlist.nodup fun c hc => hc
  refine ⟨it, history, hrun, ?_, ?_, fun hno => ?_⟩
  · rw [hleft]
    exact hdone.shows.holds
  · rw [hsplit]
    exact List.prefix_append _ _
  · have hlen : rest.length < fuel := by
      rw [hdone.original, List.length_append] at hfuel
      omega
    obtain ⟨it', hmore, -⟩ := hasMore_spec filter hdone.shows hlen
    rw [hmore] at hno
    have hnone : rest.any (fun c => filter c.2) = false := Option.some.inj hno
    have hempty : rest.filter (fun c => filter c.2) = [] := by
      refine List.filter_eq_nil_iff.mpr fun c hc hacc => ?_
      have htrue : rest.any (fun c => filter c.2) = true := List.any_eq_true.mpr ⟨c, hc, hacc⟩
      rw [hnone] at htrue
      cases htrue
    rw [hsplit, hempty, List.append_nil]

end Runs

/-! ### Loops that remove elements -/

section Removing

variable {α σ : Type*}

/-- `OSCAP_FOR` over a list, for a body that may change what the elements refer to and says
whether `iterator_remove` is called on the element. -/
def removingLoop (body : σ → α → Option (σ × Bool)) (fuel : ℕ) :
    ℕ → σ → OscapIteration α → Option (σ × OscapIteration α)
  | 0, _, _ => none
  | turns + 1, state, it =>
      match oscapIteratorHasMore (fun _ => true) fuel it with
      | none => none
      | some (it, false) => some (state, it)
      | some (it, true) =>
          match oscapIteratorNext (fun _ => true) fuel it with
          | none => none
          | some (it, x) =>
              match body state x with
              | none => none
              | some (state, false) => removingLoop body fuel turns state it
              | some (state, true) =>
                  match oscapIteratorDetach fuel it with
                  | none => none
                  | some (it, _) => removingLoop body fuel turns state it

/-- The same on the list of the elements. -/
def removing (body : σ → α → Option (σ × Bool)) : σ → List α → Option (σ × List α)
  | state, [] => some (state, [])
  | state, x :: xs =>
      match body state x with
      | none => none
      | some (state, remove) =>
          (removing body state xs).map fun r => (r.1, if remove then r.2 else x :: r.2)

/-- What an iterator shows is not changed by looking for more without a filter. -/
theorem OscapIteration.Shows.hasMore_all {fuel : ℕ} {it : OscapIteration α}
    {kept rest : List (ℕ × α)} (h : it.Shows kept rest) (hfuel : rest.length < fuel) :
    ∃ it', oscapIteratorHasMore (fun _ => true) fuel it = some (it', !rest.isEmpty) ∧
      it'.Shows kept rest := by
  obtain ⟨it', hrun, hshows⟩ := hasMore_spec (fun _ => true) h hfuel
  cases rest with
  | nil => exact ⟨it', hrun, by simpa using hshows⟩
  | cons c rest => exact ⟨it', hrun, by simpa using hshows⟩

theorem removingLoop_shows {body : σ → α → Option (σ × Bool)} {fuel turns : ℕ}
    {it : OscapIteration α} {kept rest : List (ℕ × α)} (h : it.Shows kept rest)
    (hfuel : (kept ++ rest).length < fuel) (hturns : rest.length < turns) {state state' : σ}
    {left : List α} (hleft : removing body state (rest.map Prod.snd) = some (state', left)) :
    ∃ it' rest', removingLoop body fuel turns state it = some (state', it') ∧
      it'.list.Holds it'.cells (kept ++ rest') ∧ rest'.map Prod.snd = left := by
  rw [List.length_append] at hfuel
  induction rest generalizing it kept turns state left with
  | nil =>
      obtain ⟨turns, rfl⟩ := Nat.exists_eq_add_one.mpr hturns
      obtain ⟨rfl, rfl⟩ := Prod.mk.inj (Option.some.inj hleft)
      have hlen : ([] : List (ℕ × α)).length < fuel := by
        rw [List.length_nil] at hfuel ⊢
        omega
      obtain ⟨it', hmore, hshows⟩ := h.hasMore_all hlen
      refine ⟨it', [], ?_, hshows.holds, rfl⟩
      rw [removingLoop, hmore]
      rfl
  | cons c rest ih =>
      obtain ⟨a, x⟩ := c
      obtain ⟨turns, rfl⟩ := Nat.exists_eq_add_one.mpr (Nat.zero_lt_of_lt hturns)
      rw [List.length_cons] at hfuel hturns
      have hturns' : rest.length < turns := by omega
      have hlen : ((a, x) :: rest).length < fuel := by
        rw [List.length_cons]
        omega
      have hpos : 0 < fuel := by omega
      obtain ⟨it₁, hmore, hshows₁⟩ := h.hasMore_all hlen
      obtain ⟨hnext, hshows₂⟩ := next_visits (fun _ => true) hshows₁ rfl hpos
      rw [List.map_cons, removing] at hleft
      rw [removingLoop, hmore]
      simp only [List.isEmpty_cons, Bool.not_false, hnext]
      cases hbody : body state x with
      | none => rw [hbody] at hleft; cases hleft
      | some r =>
          obtain ⟨state₁, remove⟩ := r
          rw [hbody] at hleft
          obtain ⟨⟨state₂, left₁⟩, hrest, heq⟩ := Option.map_eq_some_iff.mp hleft
          obtain ⟨rfl, rfl⟩ := Prod.mk.inj heq
          cases remove with
          | false =>
              obtain ⟨it', rest', hrun, hholds, hdata⟩ := ih hshows₂
                (by simp only [List.length_append, List.length_singleton]; omega) hturns' hrest
              refine ⟨it', (a, x) :: rest', hrun, ?_, by simp [hdata]⟩
              rwa [List.append_assoc, List.singleton_append] at hholds
          | true =>
              have hkept : kept.length < fuel := by omega
              obtain ⟨it₃, hdetach, hshows₃⟩ := detach_spec hshows₂ hkept
              obtain ⟨it', rest', hrun, hholds, hdata⟩ := ih hshows₃ (by omega) hturns' hrest
              refine ⟨it', rest', ?_, hholds, by simp [hdata]⟩
              simp only [hdetach]
              exact hrun

/-- **A loop that removes elements leaves the others.** -/
theorem removingLoop_spec {body : σ → α → Option (σ × Bool)} {fuel : ℕ} {list : OscapList}
    {cells : SlistMemory α} {xs : List (ℕ × α)} (h : list.Holds cells xs)
    (hfuel : xs.length < fuel) {state state' : σ} {left : List α}
    (hleft : removing body state (xs.map Prod.snd) = some (state', left)) :
    ∃ it xs', removingLoop body fuel fuel state ⟨cells, list, none⟩ = some (state', it) ∧
      it.list.Holds it.cells xs' ∧ xs'.map Prod.snd = left := by
  have hshows : (⟨cells, list, none⟩ : OscapIteration α).Shows [] xs := ⟨h, rfl⟩
  exact removingLoop_shows hshows hfuel hfuel hleft

end Removing

end OpenScap
