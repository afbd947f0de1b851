import OpenScap.CpeUri

/-!
# The fields that `cpe_name_new` sets

The calls of `cpe_set_field` that `cpe_name_new` makes, in their order, also where it gives up
later. The fields of a URI have the indexes up to 6, the packed attributes those from 7 on; of these
the loop takes five, although there are only four.

## Main results

* `cpeNameNew_eq` — the name is that of the calls;
* `nodup_calls` — no field is set twice;
* `setsAttributes_iff` — for which strings only attributes are set.
-/

namespace OpenScap

/-! ### Calls -/

/-- A call of `cpe_set_field`: the index and the text. -/
abbrev SetCall := ℕ × List UInt8

/-- The calls of a loop, and whether it gets to its end. -/
abbrev SetCalls := List SetCall × Bool

/-- The calls of a loop that decodes fields and sets them, from an index on. -/
def fieldCalls (decode : List UInt8 → Option (List UInt8)) (i : ℕ) : List (List UInt8) → SetCalls
  | [] => ([], true)
  | field :: fields =>
      match decode field with
      | none => ([], false)
      | some newval =>
          let later := fieldCalls decode (i + 1) fields
          ((i, newval) :: later.1, later.2)

/-- The calls of the loop over the fields of a URI. -/
def uriFieldCalls (i : ℕ) : List (List UInt8) → SetCalls
  | [] => ([], true)
  | field :: fields =>
      if i = 5 then
        let (edition, extendedAttribs) := unpackEdition field
        let packed := fieldCalls cpeUrldecode 7 (extendedAttribs.take 5)
        if packed.2 then
          match cpeUrldecode edition with
          | none => (packed.1, false)
          | some newval =>
              let later := uriFieldCalls (i + 1) fields
              (packed.1 ++ (i, newval) :: later.1, later.2)
        else (packed.1, false)
      else
        match cpeUrldecode field with
        | none => ([], false)
        | some newval =>
            let later := uriFieldCalls (i + 1) fields
            ((i, newval) :: later.1, later.2)

/-- The calls of `cpe_name_new`, and whether it makes a name. -/
def cpeNameNewCalls : Option (List UInt8) → SetCalls
  | none => ([], true)
  | some cpestr =>
      match cpeNameGetFormatOfStr cpestr with
      | .unknown => ([], false)
      | .uri => uriFieldCalls 0 (oscapSplit (cpestr.drop 5) (ascii ':'))
      | .string =>
          fieldCalls cpestringCompDecode 0 ((oscapSplit (cpestr.drop 8) (ascii ':')).take 11)
      | .wfn => ([], true)

/-- The calls of an accepted URI. -/
theorem cpeNameNewCalls_of_uri {s : List UInt8} (h : cpeNameGetFormatOfStr s = .uri) :
    cpeNameNewCalls (some s) = uriFieldCalls 0 (oscapSplit (s.drop 5) (ascii ':')) := by
  rw [cpeNameNewCalls, h]

/-- The name after some calls. -/
def applyCalls (cpe : CpeName) (calls : List SetCall) : CpeName :=
  calls.foldl (fun cpe call => cpeSetField cpe call.1 call.2) cpe

/-- What a loop leaves. -/
def resultOf (cpe : CpeName) (calls : SetCalls) : Option CpeName :=
  if calls.2 then some (applyCalls cpe calls.1) else none

/-- Only the eleven attributes are set, and none to two texts. -/
def SetsAttributes (cpestr : List UInt8) : Prop :=
  (∀ call ∈ (cpeNameNewCalls (some cpestr)).1, call.1 < 11) ∧
    ∀ call ∈ (cpeNameNewCalls (some cpestr)).1, ∀ call' ∈ (cpeNameNewCalls (some cpestr)).1,
      call.1 = call'.1 → call.2 = call'.2

/-- A fifth packed attribute is reached: the string is a URI, the edition field has five packed
attributes or more, and these and the fields before them are decoded. -/
def SetsFifthPacked (cpestr : List UInt8) : Prop :=
  let fields := oscapSplit (cpestr.drop 5) (ascii ':')
  let extendedAttribs := (unpackEdition (fields.getD 5 [])).2
  cpeNameGetFormatOfStr cpestr = .uri ∧ 5 ≤ extendedAttribs.length ∧
    (∀ field ∈ fields.take 5, cpeUrldecode field ≠ none) ∧
    ∀ attrib ∈ extendedAttribs.take 5, cpeUrldecode attrib ≠ none

/-! ### The calls make the name -/

/-- Two loops, one after the other. -/
theorem resultOf_append (cpe : CpeName) (calls : List SetCall) (later : SetCalls) :
    resultOf cpe (calls ++ later.1, later.2) = resultOf (applyCalls cpe calls) later := by
  rw [resultOf, resultOf, applyCalls, List.foldl_append]
  rfl

/-- The loop over fields. -/
theorem setFields_eq (decode : List UInt8 → Option (List UInt8)) (cpe : CpeName) (i : ℕ)
    (fields : List (List UInt8)) :
    setFields decode cpe i fields = resultOf cpe (fieldCalls decode i fields) := by
  induction fields generalizing cpe i with
  | nil => rfl
  | cons field fields ih =>
      rw [setFields_cons, fieldCalls]
      cases decode field with
      | none => rfl
      | some newval => exact ih _ _

/-- The loop over the fields of a URI. -/
theorem setUriFields_eq (cpe : CpeName) (i : ℕ) (fields : List (List UInt8)) :
    setUriFields cpe i fields = resultOf cpe (uriFieldCalls i fields) := by
  induction fields generalizing cpe i with
  | nil => rfl
  | cons field fields ih =>
      rcases eq_or_ne i 5 with rfl | hi
      · rw [uriFieldCalls, if_pos rfl, setUriFields_edition, setFields_eq]
        obtain ⟨edition, extendedAttribs⟩ := unpackEdition field
        dsimp only
        generalize fieldCalls cpeUrldecode 7 (extendedAttribs.take 5) = packed
        obtain ⟨calls, done⟩ := packed
        cases done with
        | false => rfl
        | true =>
            cases cpeUrldecode edition with
            | none => rfl
            | some newval =>
                have hlater := resultOf_append cpe calls
                  ((5, newval) :: (uriFieldCalls 6 fields).1, (uriFieldCalls 6 fields).2)
                exact (ih _ _).trans hlater.symm
      · rw [uriFieldCalls, if_neg hi, setUriFields_cons hi]
        cases cpeUrldecode field with
        | none => rfl
        | some newval => exact ih _ _

/-- **The name is that of the calls.** -/
theorem cpeNameNew_eq (cpestr : List UInt8) :
    cpeNameNew (some cpestr) =
      resultOf (.empty (cpeNameGetFormatOfStr cpestr)) (cpeNameNewCalls (some cpestr)) := by
  rw [cpeNameNew, cpeNameNewCalls]
  cases cpeNameGetFormatOfStr cpestr with
  | unknown => rfl
  | uri => exact setUriFields_eq _ _ _
  | string => exact setFields_eq _ _ _ _
  | wfn => rfl

/-! ### The indexes of the calls -/

/-- The indexes go up one by one, and a field that is not decoded ends them. -/
theorem indexes_fieldCalls (decode : List UInt8 → Option (List UInt8)) (i : ℕ)
    (fields : List (List UInt8)) :
    (fieldCalls decode i fields).1.map Prod.fst =
      List.range' i (fields.takeWhile fun field => (decode field).isSome).length := by
  induction fields generalizing i with
  | nil => rfl
  | cons field fields ih =>
      rw [fieldCalls, List.takeWhile_cons]
      cases decode field with
      | none => rfl
      | some newval => simp [ih, List.range'_succ]

/-- Where the indexes of the calls for fields are. -/
theorem mem_indexes_fieldCalls {decode : List UInt8 → Option (List UInt8)} {i j : ℕ}
    {fields : List (List UInt8)} (h : j ∈ (fieldCalls decode i fields).1.map Prod.fst) :
    i ≤ j ∧ j < i + fields.length := by
  rw [indexes_fieldCalls, List.mem_range'_1] at h
  have hle := (List.takeWhile_prefix (fun field => (decode field).isSome) (l := fields)).length_le
  omega

/-- The calls for the packed attributes of a field. -/
def packedCalls (field : List UInt8) : SetCalls :=
  fieldCalls cpeUrldecode 7 ((unpackEdition field).2.take 5)

/-- The calls for the edition field and those after it: the packed attributes come first. -/
theorem uriFieldCalls_edition (field : List UInt8) (fields : List (List UInt8)) :
    (uriFieldCalls 5 (field :: fields)).1 = (packedCalls field).1 ∨
      ∃ newval, (uriFieldCalls 5 (field :: fields)).1 =
        (packedCalls field).1 ++ (5, newval) :: (uriFieldCalls 6 fields).1 := by
  rw [uriFieldCalls, if_pos rfl, packedCalls]
  obtain ⟨edition, extendedAttribs⟩ := unpackEdition field
  dsimp only
  generalize fieldCalls cpeUrldecode 7 (extendedAttribs.take 5) = packed
  obtain ⟨calls, done⟩ := packed
  cases done with
  | false => exact .inl rfl
  | true =>
      cases cpeUrldecode edition with
      | none => exact .inl rfl
      | some newval => exact .inr ⟨newval, rfl⟩

/-- The calls for another field and those after it. -/
theorem uriFieldCalls_cons {i : ℕ} (hi : i ≠ 5) (field : List UInt8) (fields : List (List UInt8)) :
    (uriFieldCalls i (field :: fields)).1 =
      match cpeUrldecode field with
      | none => []
      | some newval => (i, newval) :: (uriFieldCalls (i + 1) fields).1 := by
  rw [uriFieldCalls, if_neg hi]
  cases cpeUrldecode field <;> rfl

/-- Where the indexes of the calls for packed attributes are. -/
theorem mem_indexes_packedCalls {j : ℕ} {field : List UInt8}
    (h : j ∈ (packedCalls field).1.map Prod.fst) : 7 ≤ j ∧ j < 12 := by
  have hbounds := mem_indexes_fieldCalls h
  have := List.length_take_le 5 (unpackEdition field).2
  omega

/-- Where the indexes of the calls for the fields of a URI are. -/
theorem mem_indexes_uriFieldCalls {i j : ℕ} {fields : List (List UInt8)}
    (h : j ∈ (uriFieldCalls i fields).1.map Prod.fst) :
    i ≤ j ∧ j < i + fields.length ∨ i ≤ 5 ∧ 7 ≤ j ∧ j < 12 := by
  induction fields generalizing i with
  | nil => exact absurd h List.not_mem_nil
  | cons field fields ih =>
      rw [List.length_cons]
      by_cases hi : i = 5
      · subst hi
        rcases uriFieldCalls_edition field fields with hcalls | ⟨newval, hcalls⟩
        · rw [hcalls] at h
          exact .inr ⟨le_rfl, mem_indexes_packedCalls h⟩
        · rw [hcalls, List.map_append, List.mem_append, List.map_cons, List.mem_cons] at h
          rcases h with hpacked | rfl | hlater
          · exact .inr ⟨le_rfl, mem_indexes_packedCalls hpacked⟩
          · exact .inl ⟨le_rfl, by omega⟩
          · have := ih hlater
            omega
      · rw [uriFieldCalls_cons hi] at h
        cases hdecode : cpeUrldecode field with
        | none => exact absurd h (by simp [hdecode])
        | some newval =>
            simp only [hdecode, List.map_cons, List.mem_cons] at h
            rcases h with rfl | hlater
            · exact .inl ⟨le_rfl, by omega⟩
            · have := ih hlater
              omega

/-- **No field of a URI is set twice**: the packed attributes are behind the fields. -/
theorem nodup_uriFieldCalls {i : ℕ} {fields : List (List UInt8)} (h : i + fields.length ≤ 7) :
    ((uriFieldCalls i fields).1.map Prod.fst).Nodup := by
  induction fields generalizing i with
  | nil => exact List.nodup_nil
  | cons field fields ih =>
      rw [List.length_cons] at h
      by_cases hi : i = 5
      · subst hi
        have hpacked : ((packedCalls field).1.map Prod.fst).Nodup := by
          rw [packedCalls, indexes_fieldCalls]
          exact List.nodup_range'
        rcases uriFieldCalls_edition field fields with hcalls | ⟨newval, hcalls⟩
        · rwa [hcalls]
        · rw [hcalls, List.map_append, List.map_cons, List.nodup_append, List.nodup_cons]
          refine ⟨hpacked, ⟨fun hmem => ?_, ih (by omega)⟩, fun j hj k hk hjk => ?_⟩
          · have := mem_indexes_uriFieldCalls hmem
            omega
          · have hbounds := mem_indexes_packedCalls hj
            rcases List.mem_cons.mp hk with rfl | hlater
            · omega
            · have := mem_indexes_uriFieldCalls hlater
              omega
      · rw [uriFieldCalls_cons hi]
        cases cpeUrldecode field with
        | none => exact List.nodup_nil
        | some newval =>
            refine List.nodup_cons.mpr ⟨fun hmem => ?_, ih (by omega)⟩
            have := mem_indexes_uriFieldCalls hmem
            omega

/-- A fifth packed attribute is set if there is one and the five are decoded. -/
theorem eleven_mem_packedCalls (field : List UInt8) :
    11 ∈ (packedCalls field).1.map Prod.fst ↔
      5 ≤ (unpackEdition field).2.length ∧
        ∀ attrib ∈ (unpackEdition field).2.take 5, cpeUrldecode attrib ≠ none := by
  rw [packedCalls, indexes_fieldCalls, List.mem_range'_1]
  generalize (unpackEdition field).2 = extendedAttribs
  have hgrown := List.takeWhile_prefix (fun field => (cpeUrldecode field).isSome)
    (l := extendedAttribs.take 5)
  have hle := hgrown.length_le
  have hall := List.takeWhile_eq_self_iff (p := fun field => (cpeUrldecode field).isSome)
    (l := extendedAttribs.take 5)
  simp only [← Option.ne_none_iff_isSome] at hall
  rw [← hall]
  have hlength := List.length_take (i := 5) (l := extendedAttribs)
  constructor
  · rintro ⟨-, hlt⟩
    exact ⟨by omega, hgrown.eq_of_length (by omega)⟩
  · rintro ⟨hfive, hself⟩
    rw [hself]
    omega

/-- **When a field behind the attributes is set.** -/
theorem eleven_mem_uriFieldCalls {i : ℕ} {fields : List (List UInt8)} (hi : i ≤ 5)
    (h : i + fields.length ≤ 7) :
    11 ∈ (uriFieldCalls i fields).1.map Prod.fst ↔
      5 ≤ (unpackEdition (fields.getD (5 - i) [])).2.length ∧
        (∀ field ∈ fields.take (5 - i), cpeUrldecode field ≠ none) ∧
        ∀ attrib ∈ (unpackEdition (fields.getD (5 - i) [])).2.take 5,
          cpeUrldecode attrib ≠ none := by
  induction fields generalizing i with
  | nil => simp [uriFieldCalls, unpackEdition]
  | cons field fields ih =>
      rw [List.length_cons] at h
      by_cases hedition : i = 5
      · subst hedition
        have hlater : 11 ∉ (uriFieldCalls 6 fields).1.map Prod.fst := by
          intro hmem
          have := mem_indexes_uriFieldCalls hmem
          omega
        have hfirst := eleven_mem_packedCalls field
        rcases uriFieldCalls_edition field fields with hcalls | ⟨newval, hcalls⟩
        · rw [hcalls, hfirst]
          simp
        · rw [hcalls, List.map_append, List.mem_append, hfirst, List.map_cons, List.mem_cons]
          simp [hlater]
      · obtain ⟨k, hk⟩ : ∃ k, 5 - i = k + 1 := ⟨5 - (i + 1), by omega⟩
        have hnext : 5 - (i + 1) = k := by omega
        have hrest := ih (i := i + 1) (by omega) (by omega)
        rw [hnext] at hrest
        rw [uriFieldCalls_cons hedition, hk, List.take_succ_cons, List.getD_cons_succ,
          List.forall_mem_cons]
        cases cpeUrldecode field with
        | none => simp
        | some newval =>
            have hne : 11 ≠ i := by omega
            simp [hrest, hne]

/-! ### The calls of a string -/

/-- **The calls of no string set a field twice.** -/
theorem nodup_calls (cpestr : List UInt8) :
    ((cpeNameNewCalls (some cpestr)).1.map Prod.fst).Nodup := by
  rw [cpeNameNewCalls]
  cases hformat : cpeNameGetFormatOfStr cpestr with
  | unknown => exact List.nodup_nil
  | uri =>
      have := (uri_fields hformat).1
      exact nodup_uriFieldCalls (by omega)
  | string =>
      dsimp only
      rw [indexes_fieldCalls]
      exact List.nodup_range'
  | wfn => exact List.nodup_nil

/-- The calls of a string that is no URI set attributes only. -/
theorem lt_of_not_uri {cpestr : List UInt8} (hformat : cpeNameGetFormatOfStr cpestr ≠ .uri) {j : ℕ}
    (h : j ∈ (cpeNameNewCalls (some cpestr)).1.map Prod.fst) : j < 11 := by
  rw [cpeNameNewCalls] at h
  cases hcase : cpeNameGetFormatOfStr cpestr with
  | unknown => exact absurd h (by simp [hcase])
  | uri => exact absurd hcase hformat
  | string =>
      rw [hcase] at h
      have hbounds := mem_indexes_fieldCalls h
      have := List.length_take_le 11 (oscapSplit (cpestr.drop 8) (ascii ':'))
      omega
  | wfn => exact absurd h (by simp [hcase])

/-- The calls of a URI set attributes only, or the field behind them. -/
theorem lt_of_uri {cpestr : List UInt8} (hformat : cpeNameGetFormatOfStr cpestr = .uri) {j : ℕ}
    (h : j ∈ (cpeNameNewCalls (some cpestr)).1.map Prod.fst) : j < 12 := by
  rw [cpeNameNewCalls_of_uri hformat] at h
  have hindex := mem_indexes_uriFieldCalls h
  have := (uri_fields hformat).1
  omega

/-- When the calls of a URI set the field behind the attributes. -/
theorem eleven_mem_calls {cpestr : List UInt8} (hformat : cpeNameGetFormatOfStr cpestr = .uri) :
    11 ∈ (cpeNameNewCalls (some cpestr)).1.map Prod.fst ↔ SetsFifthPacked cpestr := by
  have hlength := (uri_fields hformat).1
  rw [cpeNameNewCalls_of_uri hformat]
  refine (eleven_mem_uriFieldCalls (Nat.zero_le 5) (by omega)).trans ?_
  rw [SetsFifthPacked, and_iff_right hformat]

/-- **Only attributes are set, each to one text,** exactly if no fifth packed attribute is
reached. -/
theorem setsAttributes_iff (cpestr : List UInt8) :
    SetsAttributes cpestr ↔ ¬ SetsFifthPacked cpestr := by
  have hsame : ∀ call ∈ (cpeNameNewCalls (some cpestr)).1,
      ∀ call' ∈ (cpeNameNewCalls (some cpestr)).1, call.1 = call'.1 → call.2 = call'.2 := by
    intro call hcall call' hcall' heq
    rw [List.inj_on_of_nodup_map (nodup_calls cpestr) hcall hcall' heq]
  have hindexes : SetsAttributes cpestr ↔
      ∀ j ∈ (cpeNameNewCalls (some cpestr)).1.map Prod.fst, j < 11 := by
    rw [SetsAttributes, and_iff_left hsame, List.forall_mem_map]
  rw [hindexes]
  by_cases hformat : cpeNameGetFormatOfStr cpestr = .uri
  · rw [← eleven_mem_calls hformat]
    constructor
    · intro hall heleven
      exact absurd (hall 11 heleven) (by decide)
    · intro hnot j hj
      have hlt := lt_of_uri hformat hj
      have hne : j ≠ 11 := fun heq => hnot (heq ▸ hj)
      omega
  · constructor
    · exact fun _ hset => hformat hset.1
    · exact fun _ j hj => lt_of_not_uri hformat hj

/-- A URI whose edition field has six parts. -/
def sixPartsUri : List UInt8 :=
  bytes ['c', 'p', 'e', ':', '/', 'a', ':', ':', ':', ':', ':', '~', 'a', '~', 'b', '~', 'c', '~',
    'd', '~', 'e', '~', 'f']

/-- The sixth part is set as a twelfth field. -/
theorem not_setsAttributes_sixParts : ¬ SetsAttributes sixPartsUri := by
  have hformat : cpeNameGetFormatOfStr sixPartsUri = .uri :=
    @format_uriScheme (bytes ['a']) [[], [], [], [],
        bytes ['~', 'a', '~', 'b', '~', 'c', '~', 'd', '~', 'e', '~', 'f']]
      (.inr ⟨ascii 'a', by decide, rfl⟩) (by decide) (by decide +kernel)
  have hcall : (11, bytes ['f']) ∈ (cpeNameNewCalls (some sixPartsUri)).1 := by
    rw [cpeNameNewCalls_of_uri hformat]
    decide +kernel
  intro hset
  exact absurd (hset.1 _ hcall) (by decide)

end OpenScap
