import Mathlib.Data.List.DropRight
import Mathlib.Data.List.GetD

/-!
# Delimited text

Texts joined by a delimiter, and the text split at it: `List.intercalate` and `List.splitOn`.

## Main results

* `length_splitOn`, `not_mem_of_mem_splitOn` — how many pieces there are, and what is in them;
* `splitOn_flatMap` — a coding of characters that respects the delimiter commutes with splitting;
* `rdropWhile_intercalate` — trimming delimiters at the end drops empty pieces there.
-/

namespace DelimitedText

variable {α : Type*} {d : α}

theorem intercalate_cons (p : List α) (ps : List (List α)) :
    [d].intercalate (p :: ps) = p ++ ps.flatMap (d :: ·) := by
  induction ps generalizing p with
  | nil => simp
  | cons q ps ih =>
      rw [List.intercalate_cons_cons, ih, List.flatMap_cons]
      simp

theorem intercalate_concat {ps : List (List α)} (h : ps ≠ []) (p : List α) :
    [d].intercalate (ps ++ [p]) = [d].intercalate ps ++ d :: p := by
  cases ps with
  | nil => exact absurd rfl h
  | cons q ps => simp [intercalate_cons]

/-- What is in one of the texts is in the joined text. -/
theorem mem_intercalate {ps : List (List α)} {p : List α} (hp : p ∈ ps) {c : α} (hc : c ∈ p) :
    c ∈ [d].intercalate ps := by
  cases ps with
  | nil => cases hp
  | cons q ps =>
      rw [intercalate_cons]
      rcases List.mem_cons.mp hp with rfl | hp
      · exact List.mem_append_left _ hc
      · exact List.mem_append_right _ (List.mem_flatMap.mpr ⟨p, hp, List.mem_cons_of_mem _ hc⟩)

/-- A coding of characters that keeps the delimiter commutes with joining. -/
theorem flatMap_intercalate {f : α → List α} (hd : f d = [d]) (ps : List (List α)) :
    ([d].intercalate ps).flatMap f = [d].intercalate (ps.map (·.flatMap f)) := by
  induction ps with
  | nil => rfl
  | cons p ps ih =>
      cases ps with
      | nil => simp
      | cons q ps =>
          rw [List.map_cons] at ih
          rw [List.intercalate_cons_cons, List.flatMap_append, List.flatMap_append, ih,
            List.map_cons, List.map_cons, List.intercalate_cons_cons, List.flatMap_singleton, hd]

variable [DecidableEq α]

theorem splitOn_cons_self (l : List α) : (d :: l).splitOn d = [] :: l.splitOn d := by
  simp [List.splitOn_cons_eq_if_modifyHead]

theorem splitOn_cons_of_ne {c : α} (h : c ≠ d) (l : List α) :
    (c :: l).splitOn d = (l.splitOn d).modifyHead (c :: ·) := by
  simp [List.splitOn_cons_eq_if_modifyHead, h]

/-- There is one piece more than delimiters. -/
theorem length_splitOn (l : List α) : (l.splitOn d).length = l.count d + 1 := by
  induction l with
  | nil => simp
  | cons c l ih =>
      by_cases h : c = d
      · rw [h, splitOn_cons_self, List.length_cons, ih, List.count_cons_self]
      · rw [splitOn_cons_of_ne h, List.length_modifyHead, ih, List.count_cons_of_ne h]

/-- No piece has a delimiter. -/
theorem not_mem_of_mem_splitOn {l p : List α} (h : p ∈ l.splitOn d) : d ∉ p := by
  induction l generalizing p with
  | nil =>
      rw [List.splitOn_nil, List.mem_singleton] at h
      simp [h]
  | cons c l ih =>
      by_cases hc : c = d
      · rw [hc, splitOn_cons_self] at h
        rcases List.mem_cons.mp h with rfl | h
        · simp
        · exact ih h
      · rw [splitOn_cons_of_ne hc] at h
        cases hs : l.splitOn d with
        | nil => exact absurd hs (List.splitOn_ne_nil _ _)
        | cons q qs =>
            rw [hs, List.modifyHead_cons] at h
            rcases List.mem_cons.mp h with rfl | h
            · have hq := ih (hs ▸ List.mem_cons_self)
              rw [List.mem_cons, not_or]
              exact ⟨fun h => hc h.symm, hq⟩
            · exact ih (hs ▸ List.mem_cons_of_mem _ h)

/-- What is in a piece is in the text. -/
theorem mem_of_mem_splitOn {l p : List α} (h : p ∈ l.splitOn d) {c : α} (hc : c ∈ p) :
    c ∈ l := by
  have hmem : c ∈ [d].intercalate (l.splitOn d) := mem_intercalate h hc
  rwa [List.intercalate_splitOn] at hmem

/-- A coding of characters that keeps the delimiter, and makes no other, commutes with
splitting. -/
theorem splitOn_flatMap {f : α → List α} (hd : f d = [d]) (hf : ∀ c, c ≠ d → d ∉ f c)
    (l : List α) : (l.flatMap f).splitOn d = (l.splitOn d).map (·.flatMap f) := by
  have hl : l.flatMap f = [d].intercalate ((l.splitOn d).map (·.flatMap f)) := by
    rw [← flatMap_intercalate hd, List.intercalate_splitOn]
  rw [hl, List.splitOn_intercalate]
  · intro q hq hdq
    obtain ⟨p, hp, rfl⟩ := List.mem_map.mp hq
    obtain ⟨c, hc, hdc⟩ := List.mem_flatMap.mp hdq
    refine hf c (fun h => ?_) hdc
    exact not_mem_of_mem_splitOn hp (h ▸ hc)
  · simp [List.splitOn_ne_nil]

/-- Trimming delimiters at the end of joined texts drops empty texts there, but for the first. -/
theorem rdropWhile_intercalate {front : List α} (hfront : front ≠ [])
    (hlast : front.getLast hfront ≠ d) {ps : List (List α)} (hps : ps ≠ [])
    (hd : ∀ p ∈ ps, d ∉ p) :
    ∃ qs, qs ≠ [] ∧ qs <+: ps ∧ (∀ j, qs.getD j [] = ps.getD j []) ∧
      (front ++ [d].intercalate ps).rdropWhile (· == d) = front ++ [d].intercalate qs := by
  induction ps using List.reverseRecOn with
  | nil => exact absurd rfl hps
  | append_singleton ps p ih =>
      -- a text that does not end in a delimiter is not trimmed
      have keep : ∀ t : List α, p ≠ [] → (t ++ p).rdropWhile (· == d) = t ++ p := by
        intro t hp
        rw [List.rdropWhile_eq_self_iff]
        intro hne
        rw [List.getLast_append_of_ne_nil hne hp, beq_iff_eq]
        exact fun h => hd p (by simp) (h ▸ List.getLast_mem hp)
      by_cases hp : p = []
      · subst hp
        by_cases hps' : ps = []
        · subst hps'
          refine ⟨[[]], by simp, by simp, fun _ => rfl, ?_⟩
          simp only [List.nil_append, List.intercalate_singleton, List.append_nil]
          rw [List.rdropWhile_eq_self_iff]
          intro hne
          simpa using hlast
        · obtain ⟨qs, hqs, hpre, hget, htrim⟩ := ih hps' fun q hq => hd q (by simp [hq])
          refine ⟨qs, hqs, hpre.trans (List.prefix_append _ _), fun j => ?_, ?_⟩
          · rw [hget]
            rcases Nat.lt_or_ge j ps.length with hj | hj
            · rw [List.getD_append _ _ _ _ hj]
            · rw [List.getD_append_right _ _ _ _ hj, List.getD_eq_default _ _ hj]
              cases j - ps.length <;> rfl
          · rw [intercalate_concat hps', ← List.append_assoc,
              List.rdropWhile_concat_pos _ _ _ (by simp)]
            exact htrim
      · refine ⟨ps ++ [p], by simp, List.prefix_refl _, fun _ => rfl, ?_⟩
        by_cases hps' : ps = []
        · subst hps'
          rw [List.nil_append, List.intercalate_singleton]
          exact keep front hp
        · rw [intercalate_concat hps', List.append_cons, ← List.append_assoc]
          exact keep _ hp

end DelimitedText
