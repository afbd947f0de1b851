import Mathlib.Data.List.Basic
import Mathlib.Logic.Function.Basic
import Mathlib.Order.Defs.LinearOrder
import Mathlib.Order.Lattice

/-!
# Listings of finite maps

A finite map from ordered keys, and the list of its entries with ascending keys. An update
of the map at a key is a change of the list at the key's place.

## Main results

* `Listing.eq_none`, `Listing.eq_some` — what the map has at a key;
* `Listing.splice` — the listing of the updated map.
-/

variable {α κ V : Type*} [LinearOrder κ] {key : α → κ} {val : α → V}

/-- The entries of a map, in ascending order of their keys. -/
structure Listing (key : α → κ) (val : α → V) (m : κ → Option V) (es : List α) : Prop where
  ascending : es.Pairwise fun x y => key x < key y
  apply_iff : ∀ k d, m k = some d ↔ ∃ x ∈ es, key x = k ∧ val x = d

/-- The empty map. -/
theorem listing_nil : Listing key val (fun _ => none) [] :=
  ⟨.nil, by simp⟩

/-- A map has nothing at a key that is not listed. -/
theorem Listing.eq_none {m : κ → Option V} {es : List α} (h : Listing key val m es) {k : κ}
    (hk : ∀ x ∈ es, key x ≠ k) : m k = none := by
  cases he : m k with
  | none => rfl
  | some d =>
      obtain ⟨x, hx, hxk, -⟩ := (h.apply_iff k d).mp he
      exact absurd hxk (hk x hx)

/-- A listed entry. -/
theorem Listing.eq_some {m : κ → Option V} {es : List α} (h : Listing key val m es) {x : α}
    (hx : x ∈ es) : m (key x) = some (val x) :=
  (h.apply_iff _ _).mpr ⟨x, hx, rfl, rfl⟩

/-- The keys before an entry are smaller and those after it larger. -/
theorem Listing.place {m : κ → Option V} {xs ys : List α} {x : α}
    (h : Listing key val m (xs ++ x :: ys)) :
    (∀ y ∈ xs, key y < key x) ∧ ∀ y ∈ ys, key x < key y := by
  obtain ⟨-, hr, hxs⟩ := List.pairwise_append.mp h.ascending
  exact ⟨fun y hy => hxs y hy x List.mem_cons_self, (List.pairwise_cons.mp hr).1⟩

/-- **An update of the map** is a change of the list at the key's place. -/
theorem Listing.splice [DecidableEq κ] {m : κ → Option V} {k : κ} {xs ys : List α}
    (hx : ∀ x ∈ xs, key x < k) (hy : ∀ y ∈ ys, k < key y) {a b : Option α}
    (ha : ∀ x ∈ a, key x = k) (hb : ∀ x ∈ b, key x = k)
    (h : Listing key val m (xs ++ a.toList ++ ys)) :
    Listing key val (Function.update m k (b.map val)) (xs ++ b.toList ++ ys) := by
  have hasc := h.ascending
  rw [List.append_assoc, List.pairwise_append, List.pairwise_append] at hasc
  obtain ⟨hxs, ⟨-, hys, -⟩, hxys⟩ := hasc
  refine ⟨?_, fun k' d => ?_⟩
  · rw [List.append_assoc, List.pairwise_append, List.pairwise_append]
    refine ⟨hxs, ⟨?_, hys, fun z hz y hy' => ?_⟩, fun x hx' y hy' => ?_⟩
    · cases b <;> simp
    · rw [hb z (Option.mem_toList.mp hz)]
      exact hy y hy'
    · obtain hz | hz := List.mem_append.mp hy'
      · rw [hb y (Option.mem_toList.mp hz)]
        exact hx x hx'
      · exact hxys x hx' y (List.mem_append_right _ hz)
  · by_cases hk : k' = k
    · subst hk
      have hne : ∀ x, x ∈ xs ∨ x ∈ ys → key x ≠ k' := by
        rintro x (hx' | hy')
        · exact ne_of_lt (hx x hx')
        · exact ne_of_gt (hy x hy')
      rw [Function.update_self, Option.map_eq_some_iff]
      constructor
      · rintro ⟨x, hxb, rfl⟩
        exact ⟨x, by simp [hxb], hb x hxb, rfl⟩
      · rintro ⟨x, hxm, hxk, rfl⟩
        simp only [List.mem_append, Option.mem_toList] at hxm
        obtain (hxm | hxm) | hxm := hxm
        · exact absurd hxk (hne x (.inl hxm))
        · exact ⟨x, hxm, rfl⟩
        · exact absurd hxk (hne x (.inr hxm))
    · have hmid : ∀ {c : Option α}, (∀ x ∈ c, key x = k) →
          ((∃ x ∈ xs ++ c.toList ++ ys, key x = k' ∧ val x = d) ↔
            ∃ x, (x ∈ xs ∨ x ∈ ys) ∧ key x = k' ∧ val x = d) := by
        intro c hc
        constructor
        · rintro ⟨x, hxm, hxk, hxd⟩
          simp only [List.mem_append, Option.mem_toList] at hxm
          obtain (hxm | hxm) | hxm := hxm
          · exact ⟨x, .inl hxm, hxk, hxd⟩
          · exact absurd (hxk.symm.trans (hc x hxm)) hk
          · exact ⟨x, .inr hxm, hxk, hxd⟩
        · rintro ⟨x, hxm, hxk, hxd⟩
          refine ⟨x, ?_, hxk, hxd⟩
          simp only [List.mem_append]
          exact hxm.elim (fun h => .inl (.inl h)) .inr
      rw [Function.update_of_ne hk, h.apply_iff, hmid ha, hmid hb]
