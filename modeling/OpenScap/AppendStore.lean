import Mathlib.Data.List.Nodup

/-!
# Stores that only grow at the end

A store is a list, and an entry is known by its place. Entries are added at the end, so a place
once given stays that of the same entry.

## Main results

* `lastOf_some`, `lastOf_eq_none_iff` — what the last entry of a kind is;
* `getElem?_mono` — places last;
* `nodup_append_singleton`, `eq_of_getElem?` — entries that differ.
-/

namespace AppendStore

variable {α : Type*}

/-- The last entry of a kind, with its place. -/
def lastOf (p : α → Bool) : List α → Option (ℕ × α)
  | [] => none
  | x :: xs =>
      match lastOf p xs with
      | some (i, y) => some (i + 1, y)
      | none => if p x then some (0, x) else none

/-- The last entry of a kind stands at its place and is of the kind. -/
theorem lastOf_some {p : α → Bool} {l : List α} {i : ℕ} {x : α}
    (h : lastOf p l = some (i, x)) : l[i]? = some x ∧ p x = true := by
  induction l generalizing i with
  | nil => cases h
  | cons y l ih =>
      rw [lastOf] at h
      cases hlast : lastOf p l with
      | some found =>
          rw [hlast] at h
          obtain ⟨rfl, rfl⟩ := Prod.mk.inj (Option.some.inj h)
          obtain ⟨hplace, hkind⟩ := ih hlast
          exact ⟨hplace, hkind⟩
      | none =>
          rw [hlast] at h
          by_cases hy : p y = true
          · simp only [hy, if_true, Option.some.injEq, Prod.mk.injEq] at h
            obtain ⟨rfl, rfl⟩ := h
            exact ⟨rfl, hy⟩
          · simp [hy] at h

/-- There is no last entry of a kind when there is none at all. -/
theorem lastOf_eq_none_iff {p : α → Bool} {l : List α} :
    lastOf p l = none ↔ ∀ x ∈ l, p x = false := by
  induction l with
  | nil => simp [lastOf]
  | cons y l ih =>
      rw [lastOf, List.forall_mem_cons, ← ih]
      cases hlast : lastOf p l with
      | some found => simp
      | none => cases hy : p y <;> simp

/-- An entry keeps its place when the store grows. -/
theorem getElem?_mono {l l' : List α} (h : l <+: l') {i : ℕ} {x : α}
    (hx : l[i]? = some x) : l'[i]? = some x := by
  obtain ⟨added, rfl⟩ := h
  rw [List.getElem?_append_left (List.getElem?_eq_some_iff.mp hx).1, hx]

/-- A new entry that is not yet there. -/
theorem nodup_append_singleton {l : List α} {x : α} (h : l.Nodup) (hx : x ∉ l) :
    (l ++ [x]).Nodup := by
  rw [List.nodup_append]
  refine ⟨h, List.nodup_singleton x, fun a ha b hb => ?_⟩
  rw [List.mem_singleton.mp hb]
  exact fun he => hx (he ▸ ha)

/-- Where all entries differ, an entry has one place. -/
theorem eq_of_getElem? {l : List α} (h : l.Nodup) {i j : ℕ} {x : α} (hi : l[i]? = some x)
    (hj : l[j]? = some x) : i = j :=
  (List.getElem?_inj (List.getElem?_eq_some_iff.mp hi).1 h).mp (hi.trans hj.symm)

end AppendStore
