import Mathlib.Data.List.Basic
import Mathlib.Data.Nat.Notation

/-!
# A row in pieces

A row that is kept in pieces: where a place of the row lies, what a window takes of each piece,
and what is left when whole pieces are taken away from the front.

## Main results

* `drop_eq` — the row from a place on is the end of a piece and the pieces behind it;
* `locate_unique` — the piece where a place lies is known by the lengths in front of it;
* `flatten_cut` — what a window takes of the pieces is the window;
* `flatten_dropCovered` — the pieces that are covered are taken away, and nothing else.
-/

namespace Pieces

variable {α : Type*}

/-! ### Where a place lies -/

/-- The piece where a place of the row lies; the number of pieces if the row is shorter. -/
def locate : List (List α) → ℕ → ℕ
  | [], _ => 0
  | p :: ps, i => if i < p.length then 0 else locate ps (i - p.length) + 1

/-- A place lies in the first piece or among the others. -/
theorem locate_cons (p : List α) (ps : List (List α)) (i : ℕ) :
    locate (p :: ps) i = if i < p.length then 0 else locate ps (i - p.length) + 1 := rfl

/-- The length of the first pieces. -/
def offset (ps : List (List α)) (k : ℕ) : ℕ := (ps.take k).flatten.length

@[simp]
theorem offset_zero (ps : List (List α)) : offset ps 0 = 0 := rfl

@[simp]
theorem offset_cons_succ (p : List α) (ps : List (List α)) (k : ℕ) :
    offset (p :: ps) (k + 1) = p.length + offset ps k := by
  simp [offset]

/-- All pieces. -/
theorem offset_length (ps : List (List α)) : offset ps ps.length = ps.flatten.length := by
  rw [offset, List.take_length]

/-- One piece more. -/
theorem offset_succ {ps : List (List α)} {k : ℕ} {p : List α} (h : ps[k]? = some p) :
    offset ps (k + 1) = offset ps k + p.length := by
  rw [offset, offset, List.take_add_one, h, List.flatten_append, List.length_append]
  simp

/-- More pieces are longer. -/
theorem offset_mono (ps : List (List α)) {j k : ℕ} (h : j ≤ k) : offset ps j ≤ offset ps k := by
  have htake : ps.take j = (ps.take k).take j := by rw [List.take_take, Nat.min_eq_left h]
  rw [offset, offset, htake, ← List.take_append_drop j (ps.take k), List.flatten_append,
    List.length_append, List.take_append_drop]
  exact Nat.le_add_right _ _

/-- No piece ends behind the row. -/
theorem offset_le (ps : List (List α)) (k : ℕ) :
    offset ps k ≤ ps.flatten.length := by
  rcases Nat.le_total k ps.length with hk | hk
  · rw [← offset_length]
    exact offset_mono ps hk
  · exact Nat.le_of_eq (by rw [offset, List.take_of_length_le hk])

/-- A place behind the row lies in no piece. -/
theorem locate_of_le {ps : List (List α)} {i : ℕ} (h : ps.flatten.length ≤ i) :
    locate ps i = ps.length := by
  induction ps generalizing i with
  | nil => rfl
  | cons p ps ih =>
      rw [List.flatten_cons, List.length_append] at h
      rw [locate_cons, if_neg (by omega), ih (by omega), List.length_cons]

/-- A place of the row lies in a piece. -/
theorem locate_lt {ps : List (List α)} {i : ℕ} (h : i < ps.flatten.length) :
    locate ps i < ps.length := by
  induction ps generalizing i with
  | nil => exact absurd h (by simp)
  | cons p ps ih =>
      rw [List.flatten_cons, List.length_append] at h
      rw [locate_cons]
      split
      · exact Nat.zero_lt_succ _
      · exact Nat.succ_lt_succ (ih (by omega))

/-- A place lies in a piece, or behind the last one. -/
theorem locate_le (ps : List (List α)) (i : ℕ) : locate ps i ≤ ps.length := by
  rcases Nat.lt_or_ge i ps.flatten.length with h | h
  · exact Nat.le_of_lt (locate_lt h)
  · exact Nat.le_of_eq (locate_of_le h)

/-- **The piece where a place lies is known by the lengths in front of it.** -/
theorem locate_unique {ps : List (List α)} {i k : ℕ} (hk : k ≤ ps.length)
    (hfront : ∀ j < k, offset ps (j + 1) ≤ i) (hback : k < ps.length → i < offset ps (k + 1)) :
    locate ps i = k := by
  induction ps generalizing i k with
  | nil => exact (Nat.le_zero.mp hk).symm
  | cons p ps ih =>
      rw [locate_cons]
      cases k with
      | zero =>
          have hlt := hback (Nat.zero_lt_succ _)
          rw [offset_cons_succ, offset_zero] at hlt
          rw [if_pos (by omega)]
      | succ k =>
          have hle := hfront 0 (Nat.zero_lt_succ _)
          rw [offset_cons_succ, offset_zero] at hle
          rw [if_neg (by omega), ih (Nat.le_of_succ_le_succ hk)]
          · intro j hj
            have hnext := hfront (j + 1) (Nat.succ_lt_succ hj)
            rw [offset_cons_succ] at hnext
            omega
          · intro hlt
            have hnext := hback (Nat.succ_lt_succ hlt)
            rw [offset_cons_succ] at hnext
            omega

/-- The piece where a place lies ends behind it. -/
theorem lt_offset_succ {ps : List (List α)} {i : ℕ} (h : locate ps i < ps.length) :
    i < offset ps (locate ps i + 1) := by
  induction ps generalizing i with
  | nil => exact absurd h (Nat.not_lt_zero _)
  | cons p ps ih =>
      rw [locate_cons] at h ⊢
      split
      · rw [offset_cons_succ, offset_zero]
        omega
      · rename_i hge
        rw [if_neg hge] at h
        have hlt := ih (Nat.lt_of_succ_lt_succ h)
        rw [offset_cons_succ]
        omega

/-- **The row from a place on** is the end of the piece where it lies and the pieces behind. -/
theorem drop_eq {ps : List (List α)} {i : ℕ} (h : i < ps.flatten.length) :
    ∃ p, ps[locate ps i]? = some p ∧ offset ps (locate ps i) ≤ i ∧
      i - offset ps (locate ps i) < p.length ∧
      ps.flatten.drop i =
        p.drop (i - offset ps (locate ps i)) ++ (ps.drop (locate ps i + 1)).flatten := by
  induction ps generalizing i with
  | nil => exact absurd h (by simp)
  | cons p ps ih =>
      rw [List.flatten_cons, List.length_append] at h
      rw [locate_cons]
      split
      · rename_i hlt
        refine ⟨p, rfl, Nat.zero_le _, hlt, ?_⟩
        rw [List.flatten_cons, List.drop_append_of_le_length (Nat.le_of_lt hlt)]
        rfl
      · rename_i hge
        obtain ⟨q, hq, hle, hlt, hdrop⟩ := ih (i := i - p.length) (by omega)
        rw [offset_cons_succ, Nat.sub_add_eq]
        refine ⟨q, hq, by omega, hlt, ?_⟩
        rw [List.flatten_cons, List.drop_append, List.drop_eq_nil_of_le (by omega), hdrop]
        rfl

/-! ### Windows -/

/-- What a window of `n` places takes of each piece. -/
def cut : List (List α) → ℕ → List (List α)
  | [], _ => []
  | p :: ps, n => if n = 0 then [] else p.take n :: cut ps (n - p.length)

/-- **What a window takes of the pieces is the window.** -/
theorem flatten_cut (ps : List (List α)) (n : ℕ) : (cut ps n).flatten = ps.flatten.take n := by
  induction ps generalizing n with
  | nil => rw [cut, List.flatten_nil, List.take_nil]
  | cons p ps ih =>
      rw [cut]
      split
      · rename_i hn
        rw [hn, List.take_zero, List.flatten_nil]
      · rw [List.flatten_cons, List.flatten_cons, ih, List.take_append]

/-! ### Pieces taken away -/

/-- The pieces that are not covered by the first `n` places. -/
def dropCovered (ps : List (List α)) (n : ℕ) : List (List α) := ps.drop (locate ps n)

/-- The length of the pieces that are covered. -/
def coveredLength (ps : List (List α)) (n : ℕ) : ℕ := offset ps (locate ps n)

/-- The pieces that are covered are whole pieces of the first `n` places. -/
theorem coveredLength_le (ps : List (List α)) (n : ℕ) : coveredLength ps n ≤ n := by
  rcases Nat.lt_or_ge n ps.flatten.length with h | h
  · obtain ⟨p, -, hle, -⟩ := drop_eq h
    exact hle
  · rw [coveredLength, locate_of_le h, offset_length]
    exact h

/-- The pieces behind the first ones. -/
theorem flatten_drop (ps : List (List α)) (k : ℕ) :
    (ps.drop k).flatten = ps.flatten.drop (offset ps k) := by
  have hsplit : ps.flatten = (ps.take k).flatten ++ (ps.drop k).flatten := by
    rw [← List.flatten_append, List.take_append_drop]
  rw [hsplit]
  exact (List.drop_left' rfl).symm

/-- **The pieces that are covered are taken away, and nothing else.** -/
theorem flatten_dropCovered (ps : List (List α)) (n : ℕ) :
    (dropCovered ps n).flatten = ps.flatten.drop (coveredLength ps n) :=
  flatten_drop ps (locate ps n)

end Pieces
