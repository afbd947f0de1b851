import OpenScap.XccdfRegistry

/-!
# Generated ids and test results

`xccdf_benchmark_gen_id` appends a growing number to a prefix until the id is not taken. The
buffer has room for three digits. A number of four digits is written without its last one and so
repeats an id that was found taken before, and at five digits the function gives up.

`xccdf_benchmark_add_result` gives a result a new id when its own belongs to another one.

## Main results

* `genIdLoop_spec` — the loop ends, with the first id of `prefix001` to `prefix999` that is not
  taken, or without one;
* `genId_addResults_iff` — the id is fresh exactly if one of these is not taken, and the results
  that are added can be retrieved exactly if each call finds one.
-/

open OpenScap.XccdfRegistry

namespace OpenScap.XccdfResults

/-! ### Generating an id -/

/-- The buffer after `snprintf` of the prefix and a number with the format `%s%03d`. -/
def genIdBuffer (pre : String) (i : ℕ) : String :=
  String.ofList ((pre.toList ++ threeDigits i).take (pre.length + 3))

/-- The loop of `xccdf_benchmark_gen_id`, which ends without an id when `snprintf` returns more
than the length of the buffer. -/
def genIdLoop (taken : String → Bool) (pre : String) : ℕ → ℕ → Option (Option String)
  | 0, _ => none
  | fuel + 1, i =>
      let length := pre.length + 4
      let ret := pre.length + (threeDigits (i + 1)).length
      if length < ret then some none
      else if taken (genIdBuffer pre (i + 1)) then genIdLoop taken pre fuel (i + 1)
      else some (some (genIdBuffer pre (i + 1)))

/-- `xccdf_benchmark_gen_id`, where `taken` tells whether `xccdf_benchmark_get_member` finds an
item. -/
def xccdfBenchmarkGenId (taken : String → Bool) (pre : String) : Option String :=
  (genIdLoop taken pre 10000 0).join

/-- The ids that are tried. -/
def candidate (pre : String) (i : ℕ) : String := String.ofList (pre.toList ++ threeDigits i)

/-- One of the ids with three digits is not taken. -/
def HasFree (taken : String → Bool) (pre : String) : Prop :=
  ∃ i, 1 ≤ i ∧ i < 1000 ∧ taken (candidate pre i) = false

/-! ### Numbers in the buffer -/

/-- How many characters a number takes. -/
theorem length_threeDigits_le {i k : ℕ} (hk : 3 ≤ k) :
    (threeDigits i).length ≤ k ↔ i < 10 ^ k := by
  have hdigits : (toString i).toList = Nat.toDigits 10 i := Nat.toList_repr
  rw [← Nat.length_toDigits_le_iff (b := 10) (by omega) (by omega : 0 < k), threeDigits]
  simp only [hdigits, List.length_append, List.length_replicate]
  omega

/-- A number of three digits or fewer is written whole. -/
theorem genIdBuffer_of_lt {pre : String} {i : ℕ} (hi : i < 1000) :
    genIdBuffer pre i = candidate pre i := by
  have hlen : (threeDigits i).length ≤ 3 := (length_threeDigits_le (by omega)).mpr hi
  rw [genIdBuffer, candidate, List.take_of_length_le]
  rw [List.length_append, String.length_toList]
  omega

/-- A number of four digits is written without the last one. -/
theorem genIdBuffer_of_le {pre : String} {i : ℕ} (hle : 1000 ≤ i) (hlt : i < 10000) :
    genIdBuffer pre i = candidate pre (i / 10) := by
  have hdigits : ∀ n : ℕ, (toString n).toList = Nat.toDigits 10 n := fun n => Nat.toList_repr
  have hshort : (Nat.toDigits 10 (i / 10)).length ≤ 3 :=
    (Nat.length_toDigits_le_iff (by omega) (by omega)).mpr (by omega)
  have hlong : ¬ (Nat.toDigits 10 (i / 10)).length ≤ 2 :=
    fun h => absurd ((Nat.length_toDigits_le_iff (by omega) (by omega)).mp h) (by omega)
  have hlength : (Nat.toDigits 10 (i / 10)).length = 3 := by omega
  have hsplit : Nat.toDigits 10 i = Nat.toDigits 10 (i / 10) ++ [(i % 10).digitChar] :=
    Nat.toDigits_of_base_le (by omega) (by omega)
  rw [genIdBuffer, candidate, threeDigits, threeDigits]
  simp only [hdigits, hsplit, List.length_append, hlength, List.length_singleton]
  have hpre : pre.toList.take (pre.length + 3) = pre.toList :=
    List.take_of_length_le (by rw [String.length_toList]; omega)
  rw [List.take_append, String.length_toList, hpre]
  simp [hlength]

/-! ### The loop -/

section Loop

variable {taken : String → Bool} {pre : String}

theorem genIdLoop_succ {fuel i : ℕ} (hi : i + 1 < 10000) :
    genIdLoop taken pre (fuel + 1) i =
      if taken (genIdBuffer pre (i + 1)) then genIdLoop taken pre fuel (i + 1)
      else some (some (genIdBuffer pre (i + 1))) := by
  have hlen : (threeDigits (i + 1)).length ≤ 4 := (length_threeDigits_le (by omega)).mpr hi
  rw [genIdLoop]
  exact if_neg (by omega)

/-- When all ids of three digits are taken, the loop runs through those of four and gives up. -/
theorem genIdLoop_taken (h : ¬ HasFree taken pre) {fuel i : ℕ} (hle : 999 ≤ i) (hlt : i < 10000)
    (hfuel : 10000 ≤ fuel + i) : genIdLoop taken pre fuel i = some none := by
  induction fuel generalizing i with
  | zero => omega
  | succ fuel ih =>
      by_cases hi : i + 1 < 10000
      · have htaken : taken (genIdBuffer pre (i + 1)) = true := by
          rw [genIdBuffer_of_le (by omega) hi, ← Bool.not_eq_false]
          exact fun hfree => h ⟨(i + 1) / 10, by omega, by omega, hfree⟩
        rw [genIdLoop_succ hi, if_pos htaken]
        exact ih (by omega) hi (by omega)
      · have hlen : ¬ (threeDigits (i + 1)).length ≤ 4 :=
          fun hle => absurd ((length_threeDigits_le (by omega)).mp hle) (by omega)
        rw [genIdLoop]
        exact if_pos (by omega)

/-- From a number of three digits on, with all ids before it taken. -/
theorem genIdLoop_from {fuel i k : ℕ} (hk : i + k = 999) (hfuel : 10000 ≤ fuel + i)
    (htaken : ∀ j, 1 ≤ j → j ≤ i → taken (candidate pre j) = true) :
    genIdLoop taken pre fuel i =
      some (((List.range' (i + 1) k).find? fun j => !taken (candidate pre j)).map
        (candidate pre)) := by
  induction k generalizing fuel i with
  | zero =>
      refine genIdLoop_taken ?_ (by omega) (by omega) hfuel
      rintro ⟨j, hone, hj, hfree⟩
      rw [htaken j hone (by omega)] at hfree
      cases hfree
  | succ k ih =>
      obtain ⟨fuel, rfl⟩ : ∃ n, fuel = n + 1 := ⟨fuel - 1, by omega⟩
      rw [genIdLoop_succ (by omega), genIdBuffer_of_lt (by omega), List.range'_succ,
        List.find?_cons]
      cases hnext : taken (candidate pre (i + 1)) with
      | true =>
          rw [if_pos rfl]
          refine ih (by omega) (by omega) fun j hone hj => ?_
          rcases Nat.eq_or_lt_of_le hj with rfl | hlt
          · exact hnext
          · exact htaken j hone (Nat.lt_succ_iff.mp hlt)
      | false => rfl

/-- **The loop ends** with the first id of three digits that is not taken, or without one. -/
theorem genIdLoop_spec {fuel : ℕ} (hfuel : 10000 ≤ fuel) :
    genIdLoop taken pre fuel 0 =
      some (((List.range' 1 999).find? fun j => !taken (candidate pre j)).map
        (candidate pre)) :=
  genIdLoop_from rfl hfuel fun j hone hj => by omega

theorem xccdfBenchmarkGenId_eq :
    xccdfBenchmarkGenId taken pre =
      ((List.range' 1 999).find? fun j => !taken (candidate pre j)).map (candidate pre) := by
  rw [xccdfBenchmarkGenId, genIdLoop_spec (Nat.le_refl _)]
  rfl

/-- An id that is returned is not taken. -/
theorem not_taken_of_genId {id : String} (h : xccdfBenchmarkGenId taken pre = some id) :
    taken id = false := by
  rw [xccdfBenchmarkGenId_eq] at h
  obtain ⟨i, hfind, rfl⟩ := Option.map_eq_some_iff.mp h
  simpa using List.find?_some hfind

/-- An id is returned exactly if one of three digits is not taken. -/
theorem isSome_genId : (xccdfBenchmarkGenId taken pre).isSome = true ↔ HasFree taken pre := by
  rw [xccdfBenchmarkGenId_eq, Option.isSome_map, List.find?_isSome]
  constructor
  · rintro ⟨i, hi, hfree⟩
    rw [List.mem_range'_1] at hi
    exact ⟨i, hi.1, by omega, by simpa using hfree⟩
  · rintro ⟨i, hone, hi, hfree⟩
    exact ⟨i, List.mem_range'_1.mpr ⟨hone, by omega⟩, by simpa using hfree⟩

end Loop

/-- The registry of items generates its ids so. -/
theorem registry_genId (dicts : Dicts) (stem : String) :
    XccdfRegistry.xccdfBenchmarkGenId dicts stem =
      xccdfBenchmarkGenId (fun id => (dicts.items.lookup id).isSome) stem := by
  have hloop : ∀ k i, i + k = 9999 →
      genIdLoop (fun id => (dicts.items.lookup id).isSome) stem (k + 1) i =
        some ((List.range' i k).findSome? fun i =>
          if (dicts.items.lookup (genIdBuffer stem (i + 1))).isNone then
            some (genIdBuffer stem (i + 1)) else none) := by
    intro k
    induction k with
    | zero =>
        rintro i rfl
        have hlen : ¬ (threeDigits (9999 + 1)).length ≤ 4 :=
          fun hle => absurd ((length_threeDigits_le (by omega)).mp hle) (by omega)
        rw [genIdLoop]
        exact if_pos (by omega)
    | succ k ih =>
        intro i hi
        rw [genIdLoop_succ (by omega), List.range'_succ, List.findSome?_cons, ih (i + 1) (by omega)]
        cases dicts.items.lookup (genIdBuffer stem (i + 1)) <;> rfl
  rw [xccdfBenchmarkGenId, hloop 9999 0 (Nat.zero_add _), XccdfRegistry.xccdfBenchmarkGenId,
    List.range_eq_range', Option.join_some]
  generalize List.range' 0 9999 = numbers
  rfl

/-! ### Adding results -/

/-- The results of a benchmark: the ids of all results by address, the dictionary and the
list. -/
structure Results where
  id : ℕ → Option String
  dict : String → Option ℕ
  list : List ℕ

/-- The id is in the dictionary. -/
def Results.taken (s : Results) (id : String) : Bool := (s.dict id).isSome

/-- `xccdf_add_item` for a result. There is no next state when the assertion fails. -/
def xccdfAddItem (s : Results) (item : ℕ) : Option Results :=
  let id := (s.id item).or (xccdfBenchmarkGenId s.taken "result-")
  match id with
  | none => none
  | some newId =>
      match s.dict newId with
      | some found =>
          if found = item then some { s with list := s.list ++ [item] } else none
      | none =>
          some ⟨Function.update s.id item id, Function.update s.dict newId (some item),
            s.list ++ [item]⟩

/-- `xccdf_benchmark_add_result`. A result with the id of another one is in no benchmark yet, so
that `xccdf_result_set_id` only replaces its id. -/
def xccdfBenchmarkAddResult (s : Results) (item : ℕ) : Option Results :=
  match s.id item with
  | none => xccdfAddItem s item
  | some id =>
      match s.dict id with
      | none => xccdfAddItem s item
      | some found =>
          if found = item then some s
          else
            xccdfAddItem
              { s with id := Function.update s.id item (xccdfBenchmarkGenId s.taken id) } item

/-- A sequence of calls. -/
def addResults (items : List ℕ) (s : Results) : Option Results :=
  items.foldlM xccdfBenchmarkAddResult s

/-- The dictionary has the results of the list under their ids. -/
def Results.Consistent (s : Results) : Prop :=
  ∀ id r, s.dict id = some r ↔ r ∈ s.list ∧ s.id r = some id

/-- Every result of the list has an id and is found under it, and no two share one. -/
def Results.Retrievable (s : Results) : Prop :=
  (∀ r ∈ s.list, ∃ id, s.id r = some id ∧ s.dict id = some r) ∧
    ∀ r ∈ s.list, ∀ r' ∈ s.list, s.id r = s.id r' → r = r'

/-- The call finds an id for the result: its own, or a generated one. -/
def FindsId (s : Results) (item : ℕ) : Prop :=
  match s.id item with
  | none => HasFree s.taken "result-"
  | some id =>
      s.dict id = none ∨ s.dict id = some item ∨ HasFree s.taken id ∨ HasFree s.taken "result-"

/-- Every call of a sequence finds an id. -/
def AllFindIds (items : List ℕ) (s : Results) : Prop :=
  ∀ front item, front ++ [item] <+: items → ∀ s', addResults front s = some s' → FindsId s' item

/-! ### What is added -/

section Adding

variable {s s' : Results} {item : ℕ} {items : List ℕ}

/-- Results that are in the dictionary under their ids are told apart by them. -/
theorem Results.Consistent.retrievable (h : s.Consistent) (hids : ∀ r ∈ s.list, (s.id r).isSome) :
    s.Retrievable := by
  have hfound : ∀ r ∈ s.list, ∃ id, s.id r = some id ∧ s.dict id = some r := by
    intro r hr
    obtain ⟨id, hid⟩ := Option.isSome_iff_exists.mp (hids r hr)
    exact ⟨id, hid, (h id r).mpr ⟨hr, hid⟩⟩
  refine ⟨hfound, fun r hr r' hr' heq => ?_⟩
  obtain ⟨id, hid, hdict⟩ := hfound r hr
  have hdict' : s.dict id = some r' := (h id r').mpr ⟨hr', heq ▸ hid⟩
  exact Option.some.inj (hdict.symm.trans hdict')

/-- A result outside the list is added under an id that is not taken. -/
theorem addItem_fresh (h : s.Consistent) (hout : item ∉ s.list) {id : String}
    (hfree : s.dict id = none) :
    Results.Consistent ⟨Function.update s.id item (some id),
      Function.update s.dict id (some item), s.list ++ [item]⟩ := by
  intro id' r
  have hmem : r ∈ s.list ++ [item] ↔ r ∈ s.list ∨ r = item := by simp
  simp only [hmem]
  by_cases hr : r = item
  · subst hr
    rw [Function.update_self]
    by_cases hid : id' = id
    · subst hid
      simp
    · rw [Function.update_of_ne hid, h id' r]
      simp [hout, Ne.symm hid]
  · rw [Function.update_of_ne hr]
    by_cases hid : id' = id
    · subst hid
      rw [Function.update_self]
      have hnot : ¬ (r ∈ s.list ∧ s.id r = some id') := fun hin => by
        rw [(h id' r).mpr hin] at hfree
        cases hfree
      simp only [Option.some.injEq, hr, or_false]
      exact iff_of_false (Ne.symm hr) hnot
    · rw [Function.update_of_ne hid, h id' r]
      simp [hr]

/-- A state in which the dictionary is right and every result has an id. -/
structure Results.Good (s : Results) : Prop where
  consistent : s.Consistent
  ids : ∀ r ∈ s.list, (s.id r).isSome

/-- Adding a result under an id that is not taken. -/
theorem Results.Good.fresh (h : s.Good) (hout : item ∉ s.list) {id : String}
    (hfree : s.dict id = none) :
    Results.Good ⟨Function.update s.id item (some id),
      Function.update s.dict id (some item), s.list ++ [item]⟩ := by
  refine ⟨addItem_fresh h.consistent hout hfree, fun r hr => ?_⟩
  by_cases heq : r = item
  · subst heq
    simp only [Function.update_self, Option.isSome_some]
  · simp only [Function.update_of_ne heq]
    refine h.ids r ?_
    simpa [heq] using hr

/-- The ids of results outside the list do not matter. -/
theorem Results.Good.setId (h : s.Good) (hout : item ∉ s.list) (id : Option String) :
    Results.Good { s with id := Function.update s.id item id } := by
  have hsame : ∀ r ∈ s.list, Function.update s.id item id r = s.id r := by
    intro r hr
    refine Function.update_of_ne ?_ _ _
    rintro rfl
    exact hout hr
  refine ⟨fun id' r => ?_, fun r hr => ?_⟩
  · rw [h.consistent id' r]
    exact and_congr_right fun hr => by simp only [hsame r hr]
  · show (Function.update s.id item id r).isSome = true
    rw [hsame r hr]
    exact h.ids r hr

/-- A generated id is not in the dictionary. -/
theorem Results.dict_of_genId {pre id : String} (h : xccdfBenchmarkGenId s.taken pre = some id) :
    s.dict id = none := by
  have hfree := not_taken_of_genId h
  simpa [Results.taken] using hfree

/-- `xccdf_add_item` of a result that is not in the list and whose id is not taken: it is added
exactly if it has an id or one is generated. -/
theorem addItem_spec (h : s.Good) (hout : item ∉ s.list)
    (hfree : ∀ id, s.id item = some id → s.dict id = none) :
    ((s.id item).isSome = true ∨ HasFree s.taken "result-" →
      ∃ s', xccdfAddItem s item = some s' ∧ s'.Good ∧ s'.list = s.list ++ [item]) ∧
    (¬ ((s.id item).isSome = true ∨ HasFree s.taken "result-") → xccdfAddItem s item = none) := by
  rw [← isSome_genId]
  cases hid : (s.id item).or (xccdfBenchmarkGenId s.taken "result-") with
  | none =>
      obtain ⟨hnone, hgen⟩ := Option.or_eq_none_iff.mp hid
      refine ⟨fun hsome => ?_, fun _ => ?_⟩
      · rw [hnone, hgen] at hsome
        simp at hsome
      · simp only [xccdfAddItem, hid]
  | some id =>
      have hdict : s.dict id = none := by
        cases hown : s.id item with
        | some own =>
            rw [hown] at hid
            obtain rfl : own = id := Option.some.inj hid
            exact hfree own hown
        | none =>
            rw [hown] at hid
            exact s.dict_of_genId hid
      refine ⟨fun _ => ⟨_, ?_, h.fresh hout hdict, rfl⟩, fun hno => absurd ?_ hno⟩
      · simp only [xccdfAddItem, hid, hdict]
      · cases hown : s.id item with
        | some own => exact .inl rfl
        | none =>
            rw [hown, Option.none_or] at hid
            exact .inr (by rw [hid]; rfl)

/-- The result is in the list after the call, and so is what was there before. -/
def Added (s : Results) (item : ℕ) (after : Option Results) : Prop :=
  ∃ s', after = some s' ∧ s'.Good ∧ item ∈ s'.list ∧ s.list ⊆ s'.list

/-- A result of the list is found under its id. -/
theorem Results.Good.found (h : s.Good) (hmem : item ∈ s.list) :
    ∃ id, s.id item = some id ∧ s.dict id = some item := by
  obtain ⟨id, hid⟩ := Option.isSome_iff_exists.mp (h.ids item hmem)
  exact ⟨id, hid, (h.consistent id item).mpr ⟨hmem, hid⟩⟩

/-- What `xccdf_add_item` adds to the list is added. -/
theorem Added.of_addItem {t : Results} (ht : t.list = s.list)
    (h : ∃ s', xccdfAddItem t item = some s' ∧ s'.Good ∧ s'.list = t.list ++ [item]) :
    Added s item (xccdfAddItem t item) := by
  obtain ⟨s', hrun, hgood, hlist⟩ := h
  rw [ht] at hlist
  refine ⟨s', hrun, hgood, ?_, fun r hr => ?_⟩
  · rw [hlist]
    exact List.mem_append_right _ (List.mem_singleton_self item)
  · rw [hlist]
    exact List.mem_append_left _ hr

/-- A result without id, or with an id that no other result has, is added as it is. -/
theorem addResult_own (h : s.Good) (hfree : ∀ id, s.id item = some id → s.dict id = none) :
    xccdfBenchmarkAddResult s item = xccdfAddItem s item ∧ item ∉ s.list := by
  refine ⟨?_, fun hmem => ?_⟩
  · rw [xccdfBenchmarkAddResult]
    cases hid : s.id item with
    | none => rfl
    | some id => simp only [hfree id hid]
  · obtain ⟨id, hid, hdict⟩ := h.found hmem
    rw [hfree id hid] at hdict
    cases hdict

/-- A result with the id of another one is added under a generated id. -/
theorem addResult_conflict (h : s.Good) {id : String} {found : ℕ} (hid : s.id item = some id)
    (hdict : s.dict id = some found) (hne : found ≠ item) :
    xccdfBenchmarkAddResult s item = xccdfAddItem
      { s with id := Function.update s.id item (xccdfBenchmarkGenId s.taken id) } item ∧
      item ∉ s.list := by
  refine ⟨?_, fun hmem => ?_⟩
  · simp only [xccdfBenchmarkAddResult, hid, hdict, if_neg hne]
  · obtain ⟨id', hid', hdict'⟩ := h.found hmem
    obtain rfl := Option.some.inj (hid.symm.trans hid')
    exact hne (Option.some.inj (hdict.symm.trans hdict'))

/-- **One call** adds the result exactly if it finds an id for it. -/
theorem addResult_spec (h : s.Good) (item : ℕ) :
    (FindsId s item → Added s item (xccdfBenchmarkAddResult s item)) ∧
    (¬ FindsId s item → xccdfBenchmarkAddResult s item = none) := by
  cases hid : s.id item with
  | none =>
      have hfree : ∀ id, s.id item = some id → s.dict id = none := fun id hsome => by
        rw [hid] at hsome
        cases hsome
      obtain ⟨hrun, hout⟩ := addResult_own h hfree
      obtain ⟨hadds, hnot⟩ := addItem_spec h hout hfree
      simp only [hid, Option.isSome_none, Bool.false_eq_true, false_or] at hadds hnot
      simp only [FindsId, hid, hrun]
      exact ⟨fun hfinds => .of_addItem rfl (hadds hfinds), hnot⟩
  | some id =>
      cases hdict : s.dict id with
      | none =>
          have hfree : ∀ id, s.id item = some id → s.dict id = none := fun id' hsome => by
            obtain rfl := Option.some.inj (hid.symm.trans hsome)
            exact hdict
          obtain ⟨hrun, hout⟩ := addResult_own h hfree
          obtain ⟨hadds, -⟩ := addItem_spec h hout hfree
          simp only [FindsId, hid, hdict, true_or, not_true_eq_false, false_imp_iff, and_true]
          rw [hrun]
          exact fun _ => .of_addItem rfl (hadds (.inl (by rw [hid]; rfl)))
      | some found =>
          by_cases hfound : found = item
          · subst hfound
            have hmem := ((h.consistent id found).mp hdict).1
            simp only [FindsId, hid, hdict, true_or, or_true, not_true_eq_false, false_imp_iff,
              and_true]
            refine fun _ => ⟨s, ?_, h, hmem, fun r hr => hr⟩
            simp only [xccdfBenchmarkAddResult, hid, hdict, if_true]
          · obtain ⟨hrun, hout⟩ := addResult_conflict h hid hdict hfound
            obtain ⟨hadds, hnot⟩ := addItem_spec
              (h.setId hout (xccdfBenchmarkGenId s.taken id)) hout fun id' hsome => by
                simp only [Function.update_self] at hsome
                exact s.dict_of_genId hsome
            simp only [Function.update_self, isSome_genId] at hadds hnot
            simp only [FindsId, hid, hdict, hrun, Option.some.injEq, hfound, false_or, reduceCtorEq]
            exact ⟨fun hfinds => .of_addItem rfl (hadds hfinds), hnot⟩

/-- **A sequence of calls** adds all results exactly if every call finds an id. -/
theorem addResults_spec (h : s.Good) (items : List ℕ) :
    (AllFindIds items s → ∃ s', addResults items s = some s' ∧ s'.Good ∧
      (∀ r ∈ items, r ∈ s'.list) ∧ s.list ⊆ s'.list) ∧
    (¬ AllFindIds items s → addResults items s = none) := by
  induction items using List.reverseRecOn with
  | nil =>
      refine ⟨fun _ => ⟨s, rfl, h, (fun r hr => by cases hr), fun r hr => hr⟩, fun hno => ?_⟩
      refine absurd (fun front item hbegins => ?_) hno
      simp at hbegins
  | append_singleton items item ih =>
      have hsplit : addResults (items ++ [item]) s =
          (addResults items s).bind fun s' => xccdfBenchmarkAddResult s' item := by
        rw [addResults, List.foldlM_append]
        exact congrArg (Option.bind _) (funext fun s' => by simp)
      -- all calls find an id if those before do, and the last one does after them
      have hall : AllFindIds (items ++ [item]) s ↔
          AllFindIds items s ∧ ∀ s', addResults items s = some s' → FindsId s' item := by
        constructor
        · intro hids
          exact ⟨fun front r hbegins => hids front r (hbegins.trans (List.prefix_append _ _)),
            hids items item (List.prefix_refl _)⟩
        · rintro ⟨hids, hlast⟩ front r hbegins
          rcases List.prefix_concat_iff.mp hbegins with heq | hbegins
          · obtain ⟨rfl, hr⟩ := List.append_inj' heq rfl
            obtain rfl := List.singleton_inj.mp hr
            exact hlast
          · exact hids front r hbegins
      rw [hall, hsplit]
      by_cases hids : AllFindIds items s
      · obtain ⟨s', hrun, hgood, hadded, hsub⟩ := ih.1 hids
        obtain ⟨hadds, hnot⟩ := addResult_spec hgood item
        rw [hrun]
        constructor
        · rintro ⟨-, hlast⟩
          obtain ⟨s'', hcall, hgood', hitem, hsub'⟩ := hadds (hlast s' rfl)
          refine ⟨s'', hcall, hgood', fun r hr => ?_, fun r hr => hsub' (hsub hr)⟩
          rcases List.mem_append.mp hr with hr | hr
          · exact hsub' (hadded r hr)
          · rw [List.mem_singleton.mp hr]
            exact hitem
        · intro hno
          refine hnot fun hfinds => hno ⟨hids, fun t ht => ?_⟩
          obtain rfl := Option.some.inj ht
          exact hfinds
      · rw [ih.2 hids]
        exact ⟨fun hyes => absurd hyes.1 hids, fun _ => rfl⟩

end Adding

/-- **A generated id is fresh, and the results that are added can be retrieved**, exactly if one
of the ids with three digits is not taken, and every call finds one. The loop always ends. -/
theorem genId_addResults_iff (taken : String → Bool) (pre : String) (s : Results) (h : s.Good)
    (items : List ℕ) :
    ((∀ fuel, 10000 ≤ fuel →
        genIdLoop taken pre fuel 0 = some (xccdfBenchmarkGenId taken pre)) ∧
      ((∃ id, xccdfBenchmarkGenId taken pre = some id ∧ taken id = false) ↔
        HasFree taken pre)) ∧
    ((∃ s', addResults items s = some s' ∧ s'.Retrievable ∧ (∀ r ∈ items, r ∈ s'.list) ∧
      s.list ⊆ s'.list) ↔ AllFindIds items s) := by
  refine ⟨⟨fun fuel hfuel => ?_, ?_⟩, ?_⟩
  · rw [genIdLoop_spec hfuel, xccdfBenchmarkGenId_eq]
  · rw [← isSome_genId, Option.isSome_iff_exists]
    exact exists_congr fun id => and_iff_left_of_imp not_taken_of_genId
  · obtain ⟨hadds, hnot⟩ := addResults_spec h items
    constructor
    · rintro ⟨s', hrun, -⟩
      by_contra hno
      rw [hnot hno] at hrun
      cases hrun
    · intro hids
      obtain ⟨s', hrun, hgood, hitems, hsub⟩ := hadds hids
      exact ⟨s', hrun, hgood.consistent.retrievable hgood.ids, hitems, hsub⟩

/-- A benchmark without results, and results that all have the id `r`. -/
def sameIds : Results := ⟨fun _ => some "r", fun _ => none, []⟩

theorem sameIds_good : sameIds.Good := by
  refine ⟨fun id r => ⟨fun h => ?_, fun h => ?_⟩, fun r hr => ?_⟩
  · cases h
  · cases h.1
  · cases hr

/-- Two results with the same id are added. -/
theorem genId_addResults_iff_sameIds :
    (∃ s', addResults [0, 1] sameIds = some s' ∧ s'.Retrievable ∧
      (∀ r ∈ [0, 1], r ∈ s'.list) ∧ sameIds.list ⊆ s'.list) ↔ AllFindIds [0, 1] sameIds :=
  (genId_addResults_iff (fun _ => false) "r" sameIds sameIds_good [0, 1]).2

/-- The second one is given the id `r001`. -/
example : (addResults [0, 1] sameIds).map (fun s => s.id 1) = some (some "r001") := by
  decide +kernel

/-- The ids `r001` to `r999` are taken. -/
def allTaken (id : String) : Bool := (List.range' 1 999).any fun i => id = candidate "r" i

/-- No id is returned when `r001` to `r999` are taken. -/
theorem not_genId_fresh :
    ¬ ∀ (taken : String → Bool) (pre : String),
      ∃ id, xccdfBenchmarkGenId taken pre = some id ∧ taken id = false := by
  intro h
  obtain ⟨id, hid, -⟩ := h allTaken "r"
  have hsome : (xccdfBenchmarkGenId allTaken "r").isSome = true := by rw [hid]; rfl
  obtain ⟨i, hone, hi, hfree⟩ := isSome_genId.mp hsome
  rw [allTaken, List.any_eq_false] at hfree
  exact hfree i (List.mem_range'_1.mpr ⟨hone, by omega⟩) (by simp)

end OpenScap.XccdfResults
