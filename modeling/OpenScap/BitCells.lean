import Mathlib.Data.Int.Notation
import Mathlib.Data.List.Basic
import Mathlib.Data.Nat.Notation
import Mathlib.Tactic.Cases

/-!
# Numbered bits in a list of cells

A list of cells of `w` bits holds the bits `0, 1, …`, the bit `n` being bit `n % w` of the cell
`n / w`. Bits beyond the last cell read as clear.

## Main results

* `bit_setBit`, `bit_clearBit`, `bit_grow`, `bit_trim` — what each change does to every bit;
* `findFree_some`, `findFree_none` — the search for the first clear bit;
* `trim_isSome` — cells that are not all zero have a last one that is not zero.
-/

namespace BitCells

variable {w : ℕ}

/-! ### Reading and writing -/

/-- The bit of a number. -/
def bit (cells : List (BitVec w)) (n : ℕ) : Bool := (cells[n / w]?.getD 0).getLsbD (n % w)

/-- Setting the bit of a number. -/
def setBit (cells : List (BitVec w)) (n : ℕ) : List (BitVec w) :=
  cells.modify (n / w) fun cell => cell ||| (1 : BitVec w) <<< (n % w)

/-- Clearing the bit of a number. -/
def clearBit (cells : List (BitVec w)) (n : ℕ) : List (BitVec w) :=
  cells.modify (n / w) fun cell => cell &&& ~~~((1 : BitVec w) <<< (n % w))

/-- A mask with one bit. -/
theorem getLsbD_mask {i j : ℕ} (hi : i < w) :
    ((1 : BitVec w) <<< j).getLsbD i = decide (i = j) := by
  rw [BitVec.getLsbD_shiftLeft]
  have hw : 0 < w := by omega
  by_cases h : i = j
  · simp [h, hw, show j < w by omega]
  · by_cases hlt : i < j
    · simp [h, hlt]
    · simp [h, show i - j ≠ 0 by omega]

/-- Numbers in the same cell with the same place are the same. -/
theorem eq_of_place {n k : ℕ} (hdiv : n / w = k / w) (hmod : n % w = k % w) : n = k := by
  rw [← Nat.div_add_mod n w, ← Nat.div_add_mod k w, hdiv, hmod]

/-- A number whose bit is set has a cell. -/
theorem lt_of_bit {cells : List (BitVec w)} {n : ℕ} (h : bit cells n = true) :
    n / w < cells.length := by
  by_contra hlt
  rw [bit, List.getElem?_eq_none (by omega)] at h
  simp at h

/-- Setting a bit sets that bit only. -/
theorem bit_setBit {cells : List (BitVec w)} {n : ℕ} (hw : 0 < w) (hn : n / w < cells.length)
    (k : ℕ) : bit (setBit cells n) k = (bit cells k || decide (k = n)) := by
  rw [bit, bit, setBit, List.getElem?_modify]
  have hmod := Nat.mod_lt k hw
  by_cases hdiv : n / w = k / w
  · rw [hdiv] at hn
    rw [List.getElem?_eq_getElem hn]
    simp only [Option.map_eq_map, if_pos hdiv, Option.map_some, Option.getD_some,
      BitVec.getLsbD_or, getLsbD_mask hmod]
    congr 1
    rw [decide_eq_decide]
    exact ⟨fun hm => eq_of_place hdiv.symm hm, fun h => by rw [h]⟩
  · have hne : k ≠ n := fun h => hdiv (by rw [h])
    simp [hdiv, hne]

/-- Clearing a bit clears that bit only. -/
theorem bit_clearBit {cells : List (BitVec w)} {n : ℕ} (hw : 0 < w) (k : ℕ) :
    bit (clearBit cells n) k = (bit cells k && !decide (k = n)) := by
  rw [bit, bit, clearBit, List.getElem?_modify]
  have hmod := Nat.mod_lt k hw
  by_cases hdiv : n / w = k / w
  · cases hcell : cells[k / w]? with
    | none => simp
    | some cell =>
        have heq : (k % w = n % w) = (k = n) := propext
          ⟨fun hm => eq_of_place hdiv.symm hm, fun h => by rw [h]⟩
        simp only [hdiv, Option.map_eq_map, Option.map_some, if_true, Option.getD_some,
          BitVec.getLsbD_and, BitVec.getLsbD_not, getLsbD_mask hmod, hmod, decide_true,
          Bool.true_and, heq]
  · have hne : k ≠ n := fun h => hdiv (by rw [h])
    simp [hdiv, hne]

/-! ### Growing and shrinking -/

/-- Clear cells at the end change no bit. -/
theorem bit_grow (cells : List (BitVec w)) (count k : ℕ) :
    bit (cells ++ List.replicate count 0) k = bit cells k := by
  rw [bit, bit]
  congr 1
  by_cases hk : k / w < cells.length
  · rw [List.getElem?_append_left hk]
  · rw [List.getElem?_append_right (by omega), List.getElem?_eq_none (l := cells) (by omega),
      List.getElem?_replicate]
    split <;> rfl

/-- Dropping the zero cells at the end of a list given from its end; `none` when there is no
other cell to stop at. -/
def trimLoop : List (BitVec w) → Option (List (BitVec w))
  | [] => none
  | cell :: rest => if cell = 0 then trimLoop rest else some (cell :: rest)

/-- Dropping the zero cells at the end. -/
def trim (cells : List (BitVec w)) : Option (List (BitVec w)) :=
  (trimLoop cells.reverse).map List.reverse

/-- What is left is the rest after zero cells. -/
theorem trimLoop_spec {cells rest : List (BitVec w)} (h : trimLoop cells = some rest) :
    ∃ count, cells = List.replicate count 0 ++ rest := by
  induction cells with
  | nil => cases h
  | cons cell cells ih =>
      rw [trimLoop] at h
      split at h
      · rename_i hzero
        obtain ⟨count, rfl⟩ := ih h
        exact ⟨count + 1, by rw [hzero, List.replicate_succ, List.cons_append]⟩
      · obtain rfl := Option.some.inj h
        exact ⟨0, rfl⟩

/-- The list is what is left and zero cells. -/
theorem trim_spec {cells rest : List (BitVec w)} (h : trim cells = some rest) :
    ∃ count, cells = rest ++ List.replicate count 0 := by
  obtain ⟨rev, hrev, rfl⟩ := Option.map_eq_some_iff.mp h
  obtain ⟨count, hcells⟩ := trimLoop_spec hrev
  refine ⟨count, ?_⟩
  rw [← List.reverse_reverse cells, hcells, List.reverse_append, List.reverse_replicate]

/-- Dropping zero cells changes no bit. -/
theorem bit_trim {cells rest : List (BitVec w)} (h : trim cells = some rest) (k : ℕ) :
    bit rest k = bit cells k := by
  obtain ⟨count, rfl⟩ := trim_spec h
  rw [bit_grow]

/-- A cell that is not zero ends the dropping. -/
theorem trimLoop_isSome {cells : List (BitVec w)} {cell : BitVec w} (hmem : cell ∈ cells)
    (hcell : cell ≠ 0) : (trimLoop cells).isSome := by
  induction cells with
  | nil => cases hmem
  | cons c cells ih =>
      rw [trimLoop]
      split
      · rename_i hzero
        refine ih ((List.mem_cons.mp hmem).resolve_left ?_)
        rintro rfl
        exact hcell hzero
      · rfl

/-- **A set bit ends the dropping.** -/
theorem trim_isSome {cells : List (BitVec w)} {n : ℕ} (h : bit cells n = true) :
    (trim cells).isSome := by
  have hlt := lt_of_bit h
  rw [bit, List.getElem?_eq_getElem hlt, Option.getD_some] at h
  rw [trim, Option.isSome_map]
  refine trimLoop_isSome (List.mem_reverse.mpr (List.getElem_mem hlt)) fun hzero => ?_
  rw [hzero] at h
  simp at h

/-! ### The first clear bit -/

/-- The first clear bit of a cell. -/
def freeBit (cell : BitVec w) : Option ℕ := (List.range w).find? fun j => !cell.getLsbD j

/-- The first clear bit, as the number of its cell and its place there. -/
def findFree : List (BitVec w) → ℕ → Option (ℕ × ℕ)
  | [], _ => none
  | cell :: rest, i =>
      if cell ≠ ~~~(0 : BitVec w) then
        match freeBit cell with
        | some j => some (i, j)
        | none => findFree rest (i + 1)
      else findFree rest (i + 1)

/-- What the search in a cell finds. -/
theorem freeBit_some {cell : BitVec w} {j : ℕ} (h : freeBit cell = some j) :
    j < w ∧ cell.getLsbD j = false := by
  have hmem := List.mem_of_find?_eq_some h
  have hclear := List.find?_some h
  exact ⟨List.mem_range.mp hmem, by simpa using hclear⟩

/-- A cell with no clear bit is all ones. -/
theorem freeBit_none {cell : BitVec w} (h : freeBit cell = none) : cell = ~~~(0 : BitVec w) := by
  refine BitVec.eq_of_getLsbD_eq fun i hi => ?_
  have hset := List.find?_eq_none.mp h i (List.mem_range.mpr hi)
  simpa [hi] using hset

/-- **What the search finds**: a clear bit in one of the cells. -/
theorem findFree_some {cells : List (BitVec w)} {i c j : ℕ}
    (h : findFree cells i = some (c, j)) :
    i ≤ c ∧ c - i < cells.length ∧ j < w ∧ (cells[c - i]?.getD 0).getLsbD j = false := by
  induction cells generalizing i with
  | nil => cases h
  | cons cell cells ih =>
      have hrest (h : findFree cells (i + 1) = some (c, j)) :
          i ≤ c ∧ c - i < (cell :: cells).length ∧ j < w ∧
            ((cell :: cells)[c - i]?.getD 0).getLsbD j = false := by
        obtain ⟨hle, hlt, hj, hbit⟩ := ih h
        obtain ⟨d, rfl⟩ : ∃ d, c = i + (d + 1) := ⟨c - i - 1, by omega⟩
        refine ⟨by omega, by simp only [List.length_cons]; omega, hj, ?_⟩
        rw [show i + (d + 1) - (i + 1) = d by omega] at hbit
        rw [show i + (d + 1) - i = d + 1 by omega, List.getElem?_cons_succ]
        exact hbit
      rw [findFree] at h
      split at h
      · cases hfree : freeBit cell with
        | some b =>
            rw [hfree] at h
            obtain ⟨rfl, rfl⟩ := Prod.mk.inj (Option.some.inj h)
            obtain ⟨hb, hclear⟩ := freeBit_some hfree
            refine ⟨Nat.le_refl _, by simp, hb, ?_⟩
            simpa using hclear
        | none =>
            rw [hfree] at h
            exact hrest h
      · exact hrest h

/-- **When the search finds nothing** all cells are all ones. -/
theorem findFree_none {cells : List (BitVec w)} {i : ℕ} (h : findFree cells i = none) :
    ∀ cell ∈ cells, cell = ~~~(0 : BitVec w) := by
  induction cells generalizing i with
  | nil => simp
  | cons cell cells ih =>
      rw [findFree] at h
      rw [List.forall_mem_cons]
      split at h
      · rename_i hne
        cases hfree : freeBit cell with
        | some b =>
            rw [hfree] at h
            cases h
        | none => exact absurd (freeBit_none hfree) hne
      · rename_i heq
        exact ⟨not_not.mp heq, ih h⟩

/-- **The number found**: it has a cell, and its bit is clear. -/
theorem bit_of_findFree {cells : List (BitVec w)} {c j : ℕ} (h : findFree cells 0 = some (c, j)) :
    c < cells.length ∧ (c * w + j) / w = c ∧ (c * w + j) % w = j ∧
      bit cells (c * w + j) = false := by
  obtain ⟨-, hlt, hj, hbit⟩ := findFree_some h
  have hdiv : (c * w + j) / w = c := by
    rw [Nat.mul_comm, Nat.mul_add_div (by omega), Nat.div_eq_of_lt hj, Nat.add_zero]
  have hmod : (c * w + j) % w = j := by
    rw [Nat.mul_comm, Nat.mul_add_mod, Nat.mod_eq_of_lt hj]
  rw [Nat.sub_zero] at hlt hbit
  exact ⟨hlt, hdiv, hmod, by rw [bit, hdiv, hmod, hbit]⟩

/-- When the search finds nothing, all bits of the cells are set. -/
theorem bit_of_findFree_none {cells : List (BitVec w)} (hw : 0 < w)
    (h : findFree cells 0 = none) {n : ℕ} (hn : n / w < cells.length) : bit cells n = true := by
  rw [bit, List.getElem?_eq_getElem hn, Option.getD_some,
    findFree_none h _ (List.getElem_mem hn)]
  simp [Nat.mod_lt n hw]

end BitCells
