import OpenScap.CpeUri

/-!
# Matching CPE names

`cpe_name_match_one` compares the fields that the first name has with those of the second,
whatever the case of the letters; the second must reach as far as the first. Names that no match
distinguishes have the same fields up to case.

## Main results

* `matchOne_iff` — when a name matches another;
* `interchangeable_iff` — which names no match distinguishes.
-/

namespace OpenScap

/-! ### Matching -/

/-- The loop of `cpe_fields_num`, after some of its turns. -/
def maxnumAfter (cpe : CpeName) : ℕ → ℕ
  | 0 => 0
  | i + 1 => if (cpeGetField cpe i).isSome then i + 1 else maxnumAfter cpe i

/-- `cpe_fields_num`. -/
def cpeFieldsNum (cpe : CpeName) : ℕ := maxnumAfter cpe 11

/-- `cpe_name_match_one`. -/
def cpeNameMatchOne : Option CpeName → Option CpeName → Bool
  | some cpe, some against =>
      if cpeFieldsNum against < cpeFieldsNum cpe then false
      else (List.range (cpeFieldsNum cpe)).all fun i =>
        match cpeGetField cpe i with
        | none => true
        | some cpefield => strcasecmp cpefield (asStr (cpeGetField against i)) = 0
  | _, _ => false

/-- No match distinguishes the names, with any third name on either side. -/
def CpeName.Interchangeable (a b : CpeName) : Prop :=
  ∀ t, cpeNameMatchOne (some a) t = cpeNameMatchOne (some b) t ∧
    cpeNameMatchOne t (some a) = cpeNameMatchOne t (some b)

/-- The fields of the names are the same up to case. -/
def CpeName.Alike (a b : CpeName) : Prop :=
  ∀ i < 11, (cpeGetField a i).map (List.map tolower) = (cpeGetField b i).map (List.map tolower)

/-- The same attributes are alike. -/
theorem CpeName.SameAttributes.alike {a b : CpeName} (h : a.SameAttributes b) : a.Alike b :=
  fun i hi => congrArg _ (h i hi)

/-! ### The number of fields -/

/-- The fields that were passed are below the number, and the last one is there. -/
theorem maxnumAfter_spec (cpe : CpeName) (n : ℕ) :
    (∀ i < n, (cpeGetField cpe i).isSome → i < maxnumAfter cpe n) ∧
      (maxnumAfter cpe n = 0 ∨
        ∃ i < n, (cpeGetField cpe i).isSome ∧ maxnumAfter cpe n = i + 1) := by
  induction n with
  | zero => exact ⟨fun i hi => absurd hi (Nat.not_lt_zero i), .inl rfl⟩
  | succ n ih =>
      obtain ⟨hbelow, hlast⟩ := ih
      rw [maxnumAfter]
      split_ifs with hn
      · exact ⟨fun i hi _ => hi, .inr ⟨n, Nat.lt_succ_self n, hn, rfl⟩⟩
      · refine ⟨fun i hi hsome => ?_, ?_⟩
        · have hne : i ≠ n := fun h => hn (h ▸ hsome)
          exact hbelow i (by omega) hsome
        · rcases hlast with h | ⟨i, hi, hsome, heq⟩
          · exact .inl h
          · exact .inr ⟨i, by omega, hsome, heq⟩

/-- Every field of a name is below the number of its fields. -/
theorem lt_cpeFieldsNum {cpe : CpeName} {i : ℕ} (hi : i < 11) (h : (cpeGetField cpe i).isSome) :
    i < cpeFieldsNum cpe := (maxnumAfter_spec cpe 11).1 i hi h

/-- There are no more than eleven fields. -/
theorem cpeFieldsNum_le (cpe : CpeName) : cpeFieldsNum cpe ≤ 11 := by
  rcases (maxnumAfter_spec cpe 11).2 with h | ⟨i, hi, -, h⟩
  · exact h.le.trans (Nat.zero_le _)
  · exact h.le.trans hi

/-- A name that has the fields of another reaches as far. -/
theorem cpeFieldsNum_mono {a b : CpeName}
    (h : ∀ i < 11, (cpeGetField a i).isSome → (cpeGetField b i).isSome) :
    cpeFieldsNum a ≤ cpeFieldsNum b := by
  rcases (maxnumAfter_spec a 11).2 with ha | ⟨i, hi, hsome, ha⟩
  · exact ha.le.trans (Nat.zero_le _)
  · exact ha.le.trans (lt_cpeFieldsNum hi (h i hi hsome))

/-- **A name matches another** if the other reaches as far and has its fields up to case. -/
theorem matchOne_iff {a b : CpeName} : cpeNameMatchOne (some a) (some b) = true ↔
    cpeFieldsNum a ≤ cpeFieldsNum b ∧ ∀ i < 11, ∀ cpefield ∈ cpeGetField a i,
      cpefield.map tolower = (asStr (cpeGetField b i)).map tolower := by
  have hfield : ∀ i, (match cpeGetField a i with
      | none => true
      | some cpefield => decide (strcasecmp cpefield (asStr (cpeGetField b i)) = 0)) = true ↔
        ∀ cpefield ∈ cpeGetField a i,
          cpefield.map tolower = (asStr (cpeGetField b i)).map tolower := by
    intro i
    cases cpeGetField a i with
    | none => simp
    | some cpefield => simp [strcasecmp_eq_zero]
  rw [cpeNameMatchOne]
  split_ifs with hlt
  · exact iff_of_false (by simp) fun h => absurd h.1 (Nat.not_le.mpr hlt)
  · rw [and_iff_right (Nat.not_lt.mp hlt), List.all_eq_true]
    simp only [List.mem_range, hfield]
    constructor
    · intro h i hi cpefield hcpefield
      exact h i (lt_cpeFieldsNum hi (Option.isSome_of_mem hcpefield)) cpefield hcpefield
    · exact fun h i hi => h i (hi.trans_le (cpeFieldsNum_le a))

/-! ### Names that no match distinguishes -/

/-- Names that are alike have the same number of fields. -/
theorem CpeName.Alike.isSome_eq {a b : CpeName} (h : a.Alike b) {i : ℕ} (hi : i < 11) :
    (cpeGetField a i).isSome = (cpeGetField b i).isSome := by
  have hmap := congrArg Option.isSome (h i hi)
  rwa [Option.isSome_map, Option.isSome_map] at hmap

theorem CpeName.Alike.fieldsNum_eq {a b : CpeName} (h : a.Alike b) :
    cpeFieldsNum a = cpeFieldsNum b :=
  Nat.le_antisymm (cpeFieldsNum_mono fun _ hi hsome => h.isSome_eq hi ▸ hsome)
    (cpeFieldsNum_mono fun _ hi hsome => (h.isSome_eq hi).symm ▸ hsome)

theorem CpeName.Alike.asStr_eq {a b : CpeName} (h : a.Alike b) {i : ℕ} (hi : i < 11) :
    (asStr (cpeGetField a i)).map tolower = (asStr (cpeGetField b i)).map tolower := by
  have hmap := h i hi
  cases ha : cpeGetField a i <;> cases hb : cpeGetField b i <;> rw [ha, hb] at hmap
  · exact nomatch hmap
  · exact nomatch hmap
  · exact Option.some.inj hmap

/-- No field of a stored name is an empty text. -/
theorem CpeName.Stored.ne_some_nil {cpe : CpeName} (h : cpe.Stored) {i : ℕ} (hi : i < 11) :
    cpeGetField cpe i ≠ some [] := by
  obtain ⟨text, -, hget⟩ := h i hi
  rw [hget]
  unfold storedText cpeFieldText
  split_ifs with h0 hnil
  · cases cpePartOfString text <;> simp [cpePartToString, bytes]
  · simp
  · simpa using hnil

/-- Names that match each other are alike. -/
theorem alike_of_match {a b : CpeName} (ha : a.Stored) (hb : b.Stored)
    (hab : cpeNameMatchOne (some a) (some b) = true)
    (hba : cpeNameMatchOne (some b) (some a) = true) : a.Alike b := by
  intro i hi
  have h := (matchOne_iff.mp hab).2 i hi
  have h' := (matchOne_iff.mp hba).2 i hi
  cases hfa : cpeGetField a i with
  | none =>
      cases hfb : cpeGetField b i with
      | none => rfl
      | some text =>
          have hnil := h' text hfb
          rw [hfa] at hnil
          exact absurd (hfb.trans (congrArg some (List.map_eq_nil_iff.mp hnil))) (hb.ne_some_nil hi)
  | some text =>
      have htext := h text hfa
      cases hfb : cpeGetField b i with
      | none =>
          rw [hfb] at htext
          exact absurd (hfa.trans (congrArg some (List.map_eq_nil_iff.mp htext)))
            (ha.ne_some_nil hi)
      | some text' =>
          rw [hfb] at htext
          exact congrArg some htext

/-- Names that are alike match the same names and are matched by the same. -/
theorem CpeName.Alike.interchangeable {a b : CpeName} (h : a.Alike b) : a.Interchangeable b := by
  intro t
  cases t with
  | none => exact ⟨rfl, rfl⟩
  | some t =>
      constructor
      · rw [Bool.eq_iff_iff, matchOne_iff, matchOne_iff, h.fieldsNum_eq]
        refine and_congr_right fun _ => forall₂_congr fun i hi => ?_
        have hmap := h i hi
        cases ha : cpeGetField a i <;> cases hb : cpeGetField b i <;> rw [ha, hb] at hmap
        · exact nomatch hmap
        · exact nomatch hmap
        · simp only [Option.mem_def, Option.some.injEq, forall_eq']
          rw [Option.some.inj hmap]
      · rw [Bool.eq_iff_iff, matchOne_iff, matchOne_iff, h.fieldsNum_eq]
        refine and_congr_right fun _ => forall₂_congr fun i hi => ?_
        rw [h.asStr_eq hi]

/-- **No match distinguishes stored names** if and only if their fields are the same up to
case. -/
theorem interchangeable_iff {a b : CpeName} (ha : a.Stored) (hb : b.Stored) :
    a.Interchangeable b ↔ a.Alike b := by
  refine ⟨fun h => ?_, CpeName.Alike.interchangeable⟩
  have hself : ∀ c : CpeName, cpeNameMatchOne (some c) (some c) = true := by
    intro c
    refine matchOne_iff.mpr ⟨Nat.le_refl _, fun i _ text htext => ?_⟩
    rw [Option.mem_def.mp htext]
    rfl
  exact alike_of_match ha hb ((h (some b)).1.trans (hself b)) ((h (some a)).1.symm.trans (hself a))

end OpenScap
