import OpenScap.CpeUrlcode

/-!
# CPE URIs

Printing a name that was read from a CPE URI and reading it again. A byte of an attribute is
lost in two ways: `cpe_urlencode` prints a byte above 127 as `%FF`, because the byte is a
negative `char`; and it prints a tilde as it is, also in the edition field, where a tilde
separates the packed attributes.

## Main results

* `setUriFields_spec`, `printed_uri` — what reading and printing give, attribute by attribute;
* `roundTrips_uri_iff` — the names that survive printing and reading;
* `uri_roundTrips_iff` — the URIs whose names do, by the text of the URI.
-/

open RegularExpression TextPattern DelimitedText

namespace OpenScap

/-! ### Acceptance -/

theorem endOfText_iff {x : List UInt8} :
    x ∈ endOfText.matches' ↔ x = [] ∨ x = [ascii '\n'] := by
  unfold endOfText
  rw [mem_optional, matches'_char]
  rfl

/-- What is accepted as a URI: after the scheme a part and at most six fields. -/
theorem format_uri_iff {s : List UInt8} :
    cpeNameGetFormatOfStr s = .uri ↔
      ∃ c ∈ bytes ['c', 'C'], ∃ p ∈ bytes ['p', 'P'], ∃ e ∈ bytes ['e', 'E'],
      ∃ part fields tail, (part = [] ∨ ∃ x ∈ bytes ['A', 'H', 'O', 'a', 'h', 'o'], part = [x]) ∧
        fields.length ≤ 6 ∧ (∀ field ∈ fields, ∀ c ∈ field, c ∈ uriFieldChars) ∧
        (tail = [] ∨ tail = [ascii '\n']) ∧
        s = c :: p :: e :: ascii ':' :: ascii '/' ::
          ([ascii ':'].intercalate (part :: fields) ++ tail) := by
  have hpattern : cpeNameGetFormatOfStr s = .uri ↔ s ∈ uriPattern.matches' := by
    rw [← rmatch_iff_matches', cpeNameGetFormatOfStr]
    split_ifs with h <;> simp [h]
  rw [hpattern]
  unfold uriPattern
  simp only [mem_mul, mem_oneOf, mem_word, mem_optional, mem_optional_prefixed_pow, mem_many,
    endOfText_iff, intercalate_cons]
  constructor
  · rintro ⟨_, ⟨c, hc, rfl⟩, _, ⟨_, ⟨p, hp, rfl⟩, _, ⟨_, ⟨e, he, rfl⟩, _, ⟨_, rfl, _,
      ⟨part, hpart, _, ⟨_, ⟨fields, rfl, hlen, hfields⟩, tail, htail, rfl⟩, rfl⟩, rfl⟩, rfl⟩,
      rfl⟩, rfl⟩
    refine ⟨c, hc, p, hp, e, he, part, fields, tail, hpart, hlen, hfields, htail, ?_⟩
    simp [bytes]
  · rintro ⟨c, hc, p, hp, e, he, part, fields, tail, hpart, hlen, hfields, htail, rfl⟩
    refine ⟨_, ⟨c, hc, rfl⟩, _, ⟨_, ⟨p, hp, rfl⟩, _, ⟨_, ⟨e, he, rfl⟩, _, ⟨_, rfl, _,
      ⟨part, hpart, _, ⟨_, ⟨fields, rfl, hlen, hfields⟩, tail, htail, rfl⟩, rfl⟩, rfl⟩, rfl⟩,
      rfl⟩, ?_⟩
    simp [bytes]

/-- The scheme as it is printed. -/
def uriScheme : List UInt8 := bytes ['c', 'p', 'e', ':', '/']

/-- A part and at most six fields are accepted behind the scheme. -/
theorem format_uriScheme {part : List UInt8} {fields : List (List UInt8)}
    (hpart : part = [] ∨ ∃ x ∈ bytes ['A', 'H', 'O', 'a', 'h', 'o'], part = [x])
    (hlen : fields.length ≤ 6) (hfields : ∀ field ∈ fields, ∀ c ∈ field, c ∈ uriFieldChars) :
    cpeNameGetFormatOfStr (uriScheme ++ [ascii ':'].intercalate (part :: fields)) = .uri := by
  refine format_uri_iff.mpr ⟨ascii 'c', by decide, ascii 'p', by decide, ascii 'e', by decide,
    part, fields, [], hpart, hlen, hfields, .inl rfl, ?_⟩
  rw [List.append_nil]
  rfl

theorem colon_notMem_of_uriFieldChars {field : List UInt8}
    (h : ∀ c ∈ field, c ∈ uriFieldChars) : ascii ':' ∉ field := by
  intro hmem
  rcases mem_uriFieldChars.mp (h _ hmem) with h | h
  · exact absurd h (by decide)
  · exact absurd h (by decide)

/-- An accepted URI has at most seven fields, of ASCII characters. -/
theorem uri_fields {s : List UInt8} (h : cpeNameGetFormatOfStr s = .uri) :
    (oscapSplit (s.drop 5) (ascii ':')).length ≤ 7 ∧ ∀ c ∈ s.drop 5, c ≠ 0 ∧ c < 128 := by
  obtain ⟨c, -, p, -, e, -, part, fields, tail, hpart, hlen, hfields, htail, rfl⟩ :=
    format_uri_iff.mp h
  have hdrop : (c :: p :: e :: ascii ':' :: ascii '/' ::
      ([ascii ':'].intercalate (part :: fields) ++ tail)).drop 5 =
      [ascii ':'].intercalate (part :: fields) ++ tail := rfl
  have hothers : ∀ b ∈ bytes ['.', '_', '-', '~', '%'], b ≠ 0 ∧ b < 128 :=
    forall_mem_of_all (by decide)
  have halnum : ∀ b : UInt8,
      (isalnum b ∨ b ∈ bytes ['.', '_', '-', '~', '%']) → b ≠ 0 ∧ b < 128 := by
    rintro b (hb | hb)
    · exact ⟨fun h0 => absurd (h0 ▸ hb) (by decide), isalnum_lt hb⟩
    · exact hothers b hb
  have hpartChars : ∀ b ∈ part, b ∈ uriFieldChars := by
    rcases hpart with rfl | ⟨x, hx, rfl⟩
    · intro b hb
      cases hb
    · have hx' : ∀ y ∈ bytes ['A', 'H', 'O', 'a', 'h', 'o'], isalnum y = true :=
        forall_mem_of_all (by decide)
      intro b hb
      rw [List.mem_singleton.mp hb, mem_uriFieldChars]
      exact .inl (hx' x hx)
  have hall : ∀ field ∈ part :: fields, ∀ b ∈ field, b ∈ uriFieldChars := by
    intro field hfield
    rcases List.mem_cons.mp hfield with rfl | hfield
    · exact hpartChars
    · exact hfields field hfield
  rw [hdrop]
  constructor
  · have hcount : ([ascii ':'].intercalate (part :: fields)).count (ascii ':') =
        fields.length := by
      have hsplit := List.splitOn_intercalate (ascii ':')
        (fun field hfield => colon_notMem_of_uriFieldChars (hall field hfield))
        (List.cons_ne_nil part fields)
      have hlength := length_splitOn (d := ascii ':')
        ([ascii ':'].intercalate (part :: fields))
      rw [hsplit, List.length_cons] at hlength
      omega
    have htail0 : tail.count (ascii ':') = 0 := by
      rcases htail with rfl | rfl
      · rfl
      · decide
    unfold oscapSplit
    rw [length_splitOn, List.count_append, hcount, htail0]
    omega
  · intro b hb
    rcases List.mem_append.mp hb with hb | hb
    · rw [intercalate_cons] at hb
      rcases List.mem_append.mp hb with hb | hb
      · exact halnum b (mem_uriFieldChars.mp (hpartChars b hb))
      · obtain ⟨field, hfield, hb⟩ := List.mem_flatMap.mp hb
        rcases List.mem_cons.mp hb with rfl | hb
        · decide
        · exact halnum b (mem_uriFieldChars.mp (hfields field hfield b hb))
    · rcases htail with rfl | rfl
      · cases hb
      · rw [List.mem_singleton.mp hb]
        decide

/-! ### The fields of a URI -/

/-- The text of an attribute in the fields of a URI. -/
def uriText (fields : List (List UInt8)) (idx : Nat) : List UInt8 :=
  if idx = 5 then (unpackEdition (fields.getD 5 [])).1
  else if idx < 7 then fields.getD idx []
  else (unpackEdition (fields.getD 5 [])).2.getD (idx - 7) []

theorem setUriFields_eq_setFields {cpe : CpeName} {i : Nat} {fields : List (List UInt8)}
    (h : i + fields.length ≤ 5 ∨ 5 < i) :
    setUriFields cpe i fields = setFields cpeUrldecode cpe i fields := by
  induction fields generalizing cpe i with
  | nil => rfl
  | cons field fields ih =>
      rw [List.length_cons] at h
      rw [setUriFields_cons (by omega), setFields_cons]
      exact Option.bind_congr fun newval _ => ih (by omega)

/-- The loop up to the edition field. -/
theorem setUriFields_append {cpe : CpeName} {i : Nat} {front fields : List (List UInt8)}
    (h : i + front.length ≤ 5) :
    setUriFields cpe i (front ++ fields) =
      (setFields cpeUrldecode cpe i front).bind fun cpe =>
        setUriFields cpe (i + front.length) fields := by
  induction front generalizing cpe i with
  | nil => rfl
  | cons field front ih =>
      rw [List.length_cons] at h
      rw [List.cons_append, setUriFields_cons (by omega), setFields_cons, Option.bind_assoc]
      refine Option.bind_congr fun newval _ => ?_
      rw [ih (by omega), List.length_cons, Nat.add_right_comm, Nat.add_assoc]

/-- **What reading a URI gives:** every attribute is the decoded text of the attribute. -/
theorem setUriFields_spec {format : CpeFormat} {cpe : CpeName} {fields : List (List UInt8)}
    (hlen : fields.length ≤ 7) (h : setUriFields (.empty format) 0 fields = some cpe) :
    ∀ idx < 11, ∃ newval, cpeUrldecode (uriText fields idx) = some newval ∧
      cpeGetField cpe idx = storedText idx newval := by
  intro idx hidx
  have hnil : cpeUrldecode [] = some [] := rfl
  rcases Nat.lt_or_ge 5 fields.length with hlong | hshort
  · -- the edition field is there: the fields before it, the field, and the rest
    obtain ⟨front, e, rest, hfront, rfl⟩ : ∃ front e rest, front.length = 5 ∧
        fields = front ++ e :: rest :=
      ⟨fields.take 5, fields[5], fields.drop 6, by simp; omega,
        by rw [List.cons_getElem_drop_succ, List.take_append_drop]⟩
    rw [List.length_append, List.length_cons, hfront] at hlen
    rw [setUriFields_append (by omega), Option.bind_eq_some_iff] at h
    obtain ⟨cpe₁, hcpe₁, h⟩ := h
    rw [Nat.zero_add, hfront, setUriFields_edition, Option.bind_eq_some_iff] at h
    obtain ⟨cpe₂, hcpe₂, h⟩ := h
    obtain ⟨newval, hed, h⟩ := Option.bind_eq_some_iff.mp h
    rw [setUriFields_eq_setFields (.inr (by omega))] at h
    have hframe₁ := (setFields_spec hcpe₁).2
    have hframe₂ := (setFields_spec hcpe₂).2
    have hframe := (setFields_spec h).2
    have he : (front ++ e :: rest).getD 5 [] = e := by
      rw [List.getD_append_right _ _ _ _ (by omega), hfront]
      rfl
    unfold uriText
    rw [he]
    split_ifs with h5 h7
    · subst h5
      refine ⟨newval, hed, ?_⟩
      rw [hframe _ (.inl (by omega)), cpeGetField_set_self _ (by omega)]
    · rcases Nat.lt_or_ge idx 5 with h4 | h6
      · rw [List.getD_append _ _ _ _ (by omega), hframe _ (.inl (by omega)),
          cpeGetField_set_ne _ h5, hframe₂ _ (.inl (by omega))]
        have hget := setFields_getD hnil hcpe₁ (k := idx) (by omega) (by simp)
        rwa [Nat.zero_add] at hget
      · obtain rfl : idx = 6 := by omega
        rw [List.getD_append_right _ _ _ _ (by omega), hfront]
        refine setFields_getD hnil h (k := 0) (by omega) ?_
        rw [Nat.add_zero, cpeGetField_set_ne _ (by omega), hframe₂ _ (.inl (by omega)),
          hframe₁ _ (.inr (by omega)), cpeGetField_empty]
    · have hget := setFields_getD hnil hcpe₂ (k := idx - 7) (by omega) (by
        rw [hframe₁ _ (.inr (by omega)), cpeGetField_empty])
      rw [show 7 + (idx - 7) = idx by omega] at hget
      rw [hframe _ (.inr (by omega)), cpeGetField_set_ne _ h5]
      obtain ⟨newval', hdec, hget⟩ := hget
      refine ⟨newval', ?_, hget⟩
      rw [← hdec]
      congr 1
      simp only [List.getD_eq_getElem?_getD, List.getElem?_take]
      rw [if_pos (by omega)]
  · rw [setUriFields_eq_setFields (.inl (by omega))] at h
    have htext : uriText fields idx = fields.getD idx [] := by
      have h5 : fields.getD 5 [] = [] := List.getD_eq_default _ _ hshort
      unfold uriText
      split_ifs with h5' h7
      · rw [h5, h5', h5]
        rfl
      · rfl
      · rw [h5, List.getD_eq_default fields _ (by omega)]
        rfl
    have hget := setFields_getD hnil h (k := idx) (by omega) (by simp)
    rw [Nat.zero_add] at hget
    rwa [htext]

/-- Reading a URI succeeds when everything in it decodes. -/
theorem exists_setUriFields (cpe : CpeName) (i : Nat) {fields : List (List UInt8)}
    (h : ∀ field ∈ fields, (∃ newval, cpeUrldecode field = some newval) ∧
      (∃ newval, cpeUrldecode (unpackEdition field).1 = some newval) ∧
      ∀ attrib ∈ (unpackEdition field).2, ∃ newval, cpeUrldecode attrib = some newval) :
    ∃ cpe', setUriFields cpe i fields = some cpe' := by
  induction fields generalizing cpe i with
  | nil => exact ⟨cpe, rfl⟩
  | cons field fields ih =>
      have hrest := fun cpe => ih cpe (i + 1) fun f hf => h f (List.mem_cons_of_mem _ hf)
      obtain ⟨⟨newval, hdec⟩, ⟨edition, hedition⟩, hattribs⟩ := h field List.mem_cons_self
      rcases eq_or_ne i 5 with rfl | hi
      · rw [setUriFields_edition]
        obtain ⟨cpe₂, hcpe₂⟩ : ∃ cpe₂, setFields cpeUrldecode cpe 7
            ((unpackEdition field).2.take 5) = some cpe₂ :=
          exists_setFields cpe 7
            fun attrib hattrib => hattribs attrib (List.mem_of_mem_take hattrib)
        rw [hcpe₂, Option.bind_some, hedition]
        exact hrest _
      · rw [setUriFields_cons hi, hdec]
        exact hrest _

theorem uriText_congr {fields fields' : List (List UInt8)}
    (h : ∀ j, fields.getD j [] = fields'.getD j []) (idx : Nat) :
    uriText fields idx = uriText fields' idx := by
  unfold uriText
  rw [h 5, h idx]

/-- Encoding a text with a tilde in front, and only such a text, puts a tilde in front. -/
theorem unpackEdition_urlencode (u : List UInt8) :
    unpackEdition (cpeUrlencode u) =
      (cpeUrlencode (unpackEdition u).1, (unpackEdition u).2.map cpeUrlencode) := by
  cases u with
  | nil => rfl
  | cons c u =>
      by_cases hc : c = ascii '~'
      · subst hc
        have hcons : cpeUrlencode (ascii '~' :: u) = ascii '~' :: cpeUrlencode u := by
          rw [cpeUrlencode_cons, if_pos (by decide)]
          rfl
        cases u with
        | nil => decide
        | cons d u =>
            have hne : 0 < (cpeUrlencode (d :: u)).length := by
              rw [cpeUrlencode_cons]
              split_ifs
              · simp
              · obtain ⟨a, b, heq, -⟩ := cpeEscape_eq d
                simp [heq]
            unfold unpackEdition
            rw [hcons, if_pos ⟨Nat.succ_le_succ hne, rfl⟩, if_pos ⟨by simp, rfl⟩]
            simp only [List.tail_cons]
            rw [oscapSplit_urlencode]
            cases hs : oscapSplit (d :: u) (ascii '~') with
            | nil => exact absurd hs (List.splitOn_ne_nil _ _)
            | cons p ps => rfl
      · have hhead : (cpeUrlencode (c :: u)).head? ≠ some (ascii '~') := by
          rw [cpeUrlencode_cons]
          split_ifs with hlit
          · simpa using hc
          · obtain ⟨a, b, heq, -⟩ := cpeEscape_eq c
            rw [heq]
            intro h
            exact absurd (Option.some.inj h) (by decide)
        unfold unpackEdition
        rw [if_neg fun h => hhead h.2, if_neg fun h => hc (Option.some.inj h.2)]
        rfl

theorem uriText_urlencode (fields : List (List UInt8)) (idx : Nat) :
    uriText (fields.map cpeUrlencode) idx = cpeUrlencode (uriText fields idx) := by
  have hgetD : ∀ (l : List (List UInt8)) (j : Nat),
      (l.map cpeUrlencode).getD j [] = cpeUrlencode (l.getD j []) := by
    intro l j
    rw [List.getD_eq_getElem?_getD, List.getD_eq_getElem?_getD, List.getElem?_map]
    cases l[j]? <;> rfl
  unfold uriText
  rw [hgetD, hgetD, unpackEdition_urlencode]
  split_ifs
  · rfl
  · rfl
  · exact hgetD _ _

/-! ### Printing and reading -/

/-- What a part of a URI encodes. -/
def uriPlain (cpe : CpeName) (i : Nat) : List UInt8 :=
  if i = 5 ∧ cpeHasExtendedAttributes cpe then
    [cpe.edition, cpe.swEdition, cpe.targetSw, cpe.targetHw, cpe.other].flatMap fun attrib =>
      ascii '~' :: asStr attrib
  else asStr (cpeGetField cpe i)

theorem cpeUrlencode_append (u v : List UInt8) :
    cpeUrlencode (u ++ v) = cpeUrlencode u ++ cpeUrlencode v := List.flatMap_append

theorem uriPart_eq (cpe : CpeName) (i : Nat) :
    uriPart cpe i = cpeUrlencode (uriPlain cpe i) := by
  unfold uriPart uriPlain
  split_ifs
  · have htilde : ∀ u, cpeUrlencode (ascii '~' :: u) = ascii '~' :: cpeUrlencode u := by
      intro u
      rw [cpeUrlencode_cons, if_pos (by decide)]
      rfl
    simp only [cpePackExtendedAttributes, List.flatMap_cons, List.flatMap_nil,
      cpeUrlencode_append, htilde]
    rfl
  · rfl

/-- The fields are as `cpe_set_field` leaves them. -/
def CpeName.Stored (cpe : CpeName) : Prop :=
  ∀ idx < 11, ∃ text, 0 ∉ text ∧ cpeGetField cpe idx = storedText idx text

theorem asStr_cpeFieldText (text : List UInt8) : asStr (cpeFieldText text) = text := by
  unfold cpeFieldText
  split_ifs with h
  · rw [h]
    rfl
  · rfl

theorem cpePartOfString_toString (part : CpePart) :
    cpePartOfString (asStr (cpePartToString part)) = part := by
  cases part <;> decide

theorem asStr_cpePartToString (part : CpePart) :
    asStr (cpePartToString part) = [] ∨
      ∃ x ∈ bytes ['h', 'o', 'a'], asStr (cpePartToString part) = [x] := by
  cases part
  · exact .inl rfl
  · exact .inr ⟨ascii 'h', by decide, rfl⟩
  · exact .inr ⟨ascii 'o', by decide, rfl⟩
  · exact .inr ⟨ascii 'a', by decide, rfl⟩

/-- A stored field is what its own text is stored as. -/
theorem CpeName.Stored.storedText_asStr {cpe : CpeName} (h : cpe.Stored) {idx : Nat}
    (hidx : idx < 11) : storedText idx (asStr (cpeGetField cpe idx)) = cpeGetField cpe idx := by
  obtain ⟨text, -, hget⟩ := h idx hidx
  rw [hget]
  unfold storedText
  split_ifs
  · rw [cpePartOfString_toString]
  · rw [asStr_cpeFieldText]

theorem CpeName.Stored.zero_notMem {cpe : CpeName} (h : cpe.Stored) {idx : Nat}
    (hidx : idx < 11) : 0 ∉ asStr (cpeGetField cpe idx) := by
  obtain ⟨text, hzero, hget⟩ := h idx hidx
  rw [hget]
  unfold storedText
  split_ifs
  · rcases asStr_cpePartToString (cpePartOfString text) with h | ⟨x, hx, h⟩
    · simp [h]
    · rw [h, List.mem_singleton]
      rintro rfl
      exact absurd hx (by decide)
  · rwa [asStr_cpeFieldText]

/-- Texts are stored alike only if they are equal, but for the part. -/
theorem storedText_inj {idx : Nat} (h : idx ≠ 0) {text text' : List UInt8} :
    storedText idx text = storedText idx text' ↔ text = text' := by
  refine ⟨fun heq => ?_, fun heq => by rw [heq]⟩
  rw [storedText_of_pos (by omega), storedText_of_pos (by omega)] at heq
  rw [← asStr_cpeFieldText text, heq, asStr_cpeFieldText]

/-- What is printed as a URI is accepted; its fields are the encoded parts. -/
theorem printed_uri (cpe : CpeName) :
    ∃ str fields, cpeNameGetAsFormat cpe .uri = some str ∧ cpeNameGetFormatOfStr str = .uri ∧
      cpeNameNew (some str) = setUriFields (.empty .uri) 0 fields ∧ fields.length ≤ 7 ∧
      (∀ field ∈ fields, field ∈ (List.range 7).map (uriPart cpe)) ∧
      ∀ j, fields.getD j [] = ((List.range 7).map (uriPart cpe)).getD j [] := by
  have hchars : ∀ part ∈ (List.range 7).map (uriPart cpe), ∀ c ∈ part, c ∈ uriFieldChars := by
    intro part hpart c hc
    obtain ⟨i, -, rfl⟩ := List.mem_map.mp hpart
    rw [uriPart_eq] at hc
    exact mem_cpeUrlencode hc
  obtain ⟨fields, hne, hpre, hgetD, htrim⟩ := rdropWhile_intercalate
    (by decide : uriScheme ≠ []) (by decide : uriScheme.getLast _ ≠ ascii ':')
    (by simp) fun part hpart => colon_notMem_of_uriFieldChars (hchars part hpart)
  have hmem : ∀ field ∈ fields, field ∈ (List.range 7).map (uriPart cpe) :=
    fun field hfield => hpre.subset hfield
  have hlen : fields.length ≤ 7 := by
    have := hpre.length_le
    rwa [List.length_map, List.length_range] at this
  -- the first field is the part
  obtain ⟨part, rest, rfl⟩ := List.exists_cons_of_ne_nil hne
  have hpart : part = asStr (cpePartToString cpe.part) := by
    have h0 := hgetD 0
    simp only [List.getD_cons_zero, List.range_succ_eq_map, List.map_cons] at h0
    rw [h0, uriPart, if_neg (by omega)]
    change cpeUrlencode (asStr (cpePartToString cpe.part)) = asStr (cpePartToString cpe.part)
    cases cpe.part <;> decide
  have hformat : cpeNameGetFormatOfStr (uriScheme ++ [ascii ':'].intercalate (part :: rest)) =
      .uri := by
    refine format_uriScheme ?_ (by rw [List.length_cons] at hlen; omega) fun field hfield => ?_
    · rcases asStr_cpePartToString cpe.part with h | ⟨x, hx, h⟩
      · exact .inl (hpart.trans h)
      · refine .inr ⟨x, ?_, hpart.trans h⟩
        have hsub : ∀ y ∈ bytes ['h', 'o', 'a'], y ∈ bytes ['A', 'H', 'O', 'a', 'h', 'o'] :=
          forall_mem_of_all (by decide)
        exact hsub x hx
    · exact hchars field (hmem field (List.mem_cons_of_mem _ hfield))
  refine ⟨uriScheme ++ [ascii ':'].intercalate (part :: rest), part :: rest, ?_, hformat, ?_,
    hlen, hmem, hgetD⟩
  · exact congrArg some htrim
  · rw [cpeNameNew_of_uri hformat]
    have hdrop : (uriScheme ++ [ascii ':'].intercalate (part :: rest)).drop 5 =
        [ascii ':'].intercalate (part :: rest) := rfl
    rw [hdrop, oscapSplit, List.splitOn_intercalate _ _ hne]
    intro field hfield
    exact colon_notMem_of_uriFieldChars (hchars field (hmem field hfield))

/-- What the parts of a printed URI encode. -/
def uriPlains (cpe : CpeName) : List (List UInt8) := (List.range 7).map (uriPlain cpe)

theorem mem_unpackEdition {field : List UInt8} {b : UInt8} :
    (b ∈ (unpackEdition field).1 → b ∈ field) ∧
      ∀ attrib ∈ (unpackEdition field).2, b ∈ attrib → b ∈ field := by
  unfold unpackEdition
  split_ifs with h
  · cases hs : oscapSplit field.tail (ascii '~') with
    | nil => exact absurd hs (List.splitOn_ne_nil _ _)
    | cons p ps =>
        have hmem : ∀ q ∈ p :: ps, b ∈ q → b ∈ field := fun q hq hb =>
          List.mem_of_mem_tail (mem_of_mem_splitOn (hs ▸ hq) hb)
        exact ⟨hmem p List.mem_cons_self, fun q hq => hmem q (List.mem_cons_of_mem _ hq)⟩
  · exact ⟨id, fun attrib h => by cases h⟩

theorem getD_eq_nil_or_mem (l : List (List UInt8)) (j : Nat) :
    l.getD j [] = [] ∨ l.getD j [] ∈ l := by
  rcases Nat.lt_or_ge j l.length with h | h
  · rw [List.getD_eq_getElem _ _ h]
    exact .inr (List.getElem_mem h)
  · exact .inl (List.getD_eq_default _ _ h)

theorem mem_uriText {fields : List (List UInt8)} {idx : Nat} {b : UInt8}
    (h : b ∈ uriText fields idx) : ∃ field ∈ fields, b ∈ field := by
  have hgetD : ∀ {l : List (List UInt8)} {j : Nat}, b ∈ l.getD j [] → ∃ p ∈ l, b ∈ p := by
    intro l j hb
    rcases getD_eq_nil_or_mem l j with hnil | hmem
    · rw [hnil] at hb
      cases hb
    · exact ⟨_, hmem, hb⟩
  unfold uriText at h
  split_ifs at h
  · exact hgetD (mem_unpackEdition.1 h)
  · exact hgetD h
  · obtain ⟨attrib, hattrib, hb⟩ := hgetD h
    exact hgetD (mem_unpackEdition.2 attrib hattrib hb)

theorem CpeName.Stored.zero_notMem_uriPlain {cpe : CpeName} (h : cpe.Stored) :
    ∀ u ∈ uriPlains cpe, 0 ∉ u := by
  intro u hu hmem
  obtain ⟨i, hi, rfl⟩ := List.mem_map.mp hu
  have hi' := List.mem_range.mp hi
  unfold uriPlain at hmem
  split_ifs at hmem
  · obtain ⟨attrib, hattrib, hmem⟩ := List.mem_flatMap.mp hmem
    rcases List.mem_cons.mp hmem with h0 | hmem
    · exact absurd h0 (by decide)
    · simp only [List.mem_cons, List.not_mem_nil, or_false] at hattrib
      rcases hattrib with rfl | rfl | rfl | rfl | rfl
      · exact h.zero_notMem (by omega : 5 < 11) hmem
      · exact h.zero_notMem (by omega : 7 < 11) hmem
      · exact h.zero_notMem (by omega : 8 < 11) hmem
      · exact h.zero_notMem (by omega : 9 < 11) hmem
      · exact h.zero_notMem (by omega : 10 < 11) hmem
  · exact h.zero_notMem (by omega) hmem

/-- What is printed as a URI is read, and every attribute is what is read back of its text. -/
theorem exists_printed_uri {cpe : CpeName} (h : cpe.Stored) :
    ∃ str cpe', cpeNameGetAsFormat cpe .uri = some str ∧ cpeNameGetFormatOfStr str = .uri ∧
      cpeNameNew (some str) = some cpe' ∧ ∀ idx < 11,
        cpeGetField cpe' idx = storedText idx ((uriText (uriPlains cpe) idx).map readBack) := by
  obtain ⟨str, fields, hprint, hformat, hnew, hlen, hmem, hgetD⟩ := printed_uri cpe
  have hparts : (List.range 7).map (uriPart cpe) = (uriPlains cpe).map cpeUrlencode := by
    rw [uriPlains, List.map_map]
    exact List.map_congr_left fun i _ => uriPart_eq cpe i
  rw [hparts] at hmem hgetD
  have hzero := h.zero_notMem_uriPlain
  have hdecode : ∀ idx, cpeUrldecode (uriText fields idx) =
      some ((uriText (uriPlains cpe) idx).map readBack) := by
    intro idx
    rw [uriText_congr hgetD, uriText_urlencode, cpeUrldecode_urlencode]
    intro hmem
    obtain ⟨u, hu, h0⟩ := mem_uriText hmem
    exact hzero u hu h0
  have hu : ∀ u, 0 ∉ u → ∃ newval, cpeUrldecode (cpeUrlencode u) = some newval :=
    fun u hu => ⟨_, cpeUrldecode_urlencode hu⟩
  obtain ⟨cpe', hcpe'⟩ : ∃ cpe', setUriFields (.empty .uri) 0 fields = some cpe' := by
    refine exists_setUriFields _ _ fun field hfield => ?_
    obtain ⟨u, hu', rfl⟩ := List.mem_map.mp (hmem field hfield)
    have hu0 := hzero u hu'
    rw [unpackEdition_urlencode]
    refine ⟨hu u hu0, hu _ fun h0 => hu0 (mem_unpackEdition.1 h0), fun attrib hattrib => ?_⟩
    obtain ⟨p, hp, rfl⟩ := List.mem_map.mp hattrib
    exact hu p fun h0 => hu0 (mem_unpackEdition.2 p hp h0)
  refine ⟨str, cpe', hprint, hformat, hnew.trans hcpe', fun idx hidx => ?_⟩
  obtain ⟨newval, hdec, hget⟩ := setUriFields_spec hlen hcpe' idx hidx
  rw [hdecode, Option.some.injEq] at hdec
  rw [hget, hdec]

/-- A name survives when every attribute is what is read back of its text. -/
theorem roundTrips_uri_iff_readBack {cpe : CpeName} (h : cpe.Stored) :
    cpe.RoundTrips .uri ↔ ∀ idx < 11, idx ≠ 0 →
      (uriText (uriPlains cpe) idx).map readBack = asStr (cpeGetField cpe idx) := by
  obtain ⟨str, cpe', hprint, hformat, hnew, hget⟩ := exists_printed_uri h
  constructor
  · rintro ⟨str', cpe'', hprint', -, hnew', hsame⟩ idx hidx hne
    obtain rfl : str = str' := Option.some.inj (hprint.symm.trans hprint')
    obtain rfl : cpe' = cpe'' := Option.some.inj (hnew.symm.trans hnew')
    have hs := hsame idx hidx
    rw [hget idx hidx, ← h.storedText_asStr hidx] at hs
    exact ((storedText_inj hne).mp hs).symm
  · intro hread
    refine ⟨str, cpe', hprint, hformat, hnew, fun idx hidx => ?_⟩
    rw [hget idx hidx, ← h.storedText_asStr hidx]
    by_cases hne : idx = 0
    · subst hne
      have htext : uriText (uriPlains cpe) 0 = asStr (cpeGetField cpe 0) := rfl
      rw [htext]
      change storedText 0 (asStr (cpePartToString cpe.part)) =
        storedText 0 ((asStr (cpePartToString cpe.part)).map readBack)
      cases cpe.part <;> rfl
    · rw [hread idx hidx hne]

theorem readBack_eq_tilde {b : UInt8} : readBack b = ascii '~' → b = ascii '~' := by
  rw [readBack]
  split
  · exact id
  · exact fun h => absurd h (by decide)

/-- A byte that is read back as itself. -/
theorem readBack_eq_self {b : UInt8} : readBack b = b ↔ b < 128 ∨ b = 255 := by
  rw [readBack]
  by_cases hb : b < 128
  · rw [if_pos hb]
    exact iff_of_true rfl (.inl hb)
  · rw [if_neg hb, or_iff_right hb]
    exact eq_comm

theorem map_readBack_eq_self {text : List UInt8} :
    text.map readBack = text ↔ ∀ b ∈ text, b < 128 ∨ b = 255 := by
  induction text with
  | nil => simp
  | cons b text ih =>
      rw [List.map_cons, List.cons.injEq, ih, readBack_eq_self, List.forall_mem_cons]

/-- A text that starts with a tilde and has more to it. -/
def startsWithTilde (text : List UInt8) : Prop :=
  2 ≤ text.length ∧ text.head? = some (ascii '~')

instance (text : List UInt8) : Decidable (startsWithTilde text) :=
  inferInstanceAs (Decidable (_ ∧ _))

/-- The pieces of an edition field that is taken apart have no tilde. -/
theorem tilde_notMem_unpackEdition {field : List UInt8} (h : startsWithTilde field) :
    ascii '~' ∉ (unpackEdition field).1 ∧
      ∀ attrib ∈ (unpackEdition field).2, ascii '~' ∉ attrib := by
  unfold unpackEdition
  rw [if_pos (show 2 ≤ field.length ∧ field.head? = some (ascii '~') from h)]
  cases hs : oscapSplit field.tail (ascii '~') with
  | nil => exact absurd hs (List.splitOn_ne_nil _ _)
  | cons p ps =>
      have hmem : ∀ q ∈ p :: ps, ascii '~' ∉ q := fun q hq => not_mem_of_mem_splitOn (hs ▸ hq)
      exact ⟨hmem p List.mem_cons_self, fun q hq => hmem q (List.mem_cons_of_mem _ hq)⟩

/-- No tilde of an attribute is taken for a separator. -/
def CpeName.TildeSafe (cpe : CpeName) : Prop :=
  if cpeHasExtendedAttributes cpe then
    ∀ idx ∈ [5, 7, 8, 9, 10], ascii '~' ∉ asStr (cpeGetField cpe idx)
  else ¬ startsWithTilde (asStr cpe.edition)

theorem uriPlains_getD {cpe : CpeName} {i : Nat} (h : i < 7) :
    (uriPlains cpe).getD i [] = uriPlain cpe i := by
  rw [uriPlains, List.getD_eq_getElem _ _ (by simpa using h)]
  simp

theorem hasExtendedAttributes_eq_false {cpe : CpeName}
    (h : ¬ cpeHasExtendedAttributes cpe = true) {idx : Nat} (hidx : 7 ≤ idx) :
    asStr (cpeGetField cpe idx) = [] := by
  simp only [cpeHasExtendedAttributes, ne_eq, Bool.or_eq_true, decide_eq_true_eq, not_or,
    not_not] at h
  obtain ⟨⟨⟨h7, h8⟩, h9⟩, h10⟩ := h
  unfold cpeGetField
  split
  all_goals first | assumption | rfl | omega

/-- The parts of a name whose tildes are safe encode its attributes. -/
theorem uriText_uriPlains {cpe : CpeName} (h : cpe.TildeSafe) {idx : Nat} (hidx : idx < 11) :
    uriText (uriPlains cpe) idx = asStr (cpeGetField cpe idx) := by
  unfold CpeName.TildeSafe at h
  have hplain : ∀ i, ¬ (i = 5 ∧ cpeHasExtendedAttributes cpe) →
      uriPlain cpe i = asStr (cpeGetField cpe i) := fun i hi => if_neg hi
  split_ifs at h with hext
  · have hpack : unpackEdition (uriPlain cpe 5) = (asStr cpe.edition,
        [asStr cpe.swEdition, asStr cpe.targetSw, asStr cpe.targetHw, asStr cpe.other]) := by
      have hu : uriPlain cpe 5 = ascii '~' :: [ascii '~'].intercalate [asStr cpe.edition,
          asStr cpe.swEdition, asStr cpe.targetSw, asStr cpe.targetHw, asStr cpe.other] := by
        rw [uriPlain, if_pos ⟨rfl, hext⟩, intercalate_cons]
        simp
      have hsplit : oscapSplit (uriPlain cpe 5).tail (ascii '~') = [asStr cpe.edition,
          asStr cpe.swEdition, asStr cpe.targetSw, asStr cpe.targetHw, asStr cpe.other] := by
        rw [hu, List.tail_cons, oscapSplit, List.splitOn_intercalate _ _ (by simp)]
        intro attrib hattrib
        simp only [List.mem_cons, List.not_mem_nil, or_false] at hattrib
        rcases hattrib with rfl | rfl | rfl | rfl | rfl
        · exact h 5 (by simp)
        · exact h 7 (by simp)
        · exact h 8 (by simp)
        · exact h 9 (by simp)
        · exact h 10 (by simp)
      unfold unpackEdition
      rw [if_pos, hsplit]
      · rfl
      · rw [hu, intercalate_cons]
        refine ⟨?_, rfl⟩
        simp
        omega
    unfold uriText
    rw [uriPlains_getD (by omega), hpack]
    split_ifs with h5 h7
    · rw [h5]
      rfl
    · rw [uriPlains_getD h7, hplain idx fun h => h5 h.1]
    · obtain rfl | rfl | rfl | rfl : idx = 7 ∨ idx = 8 ∨ idx = 9 ∨ idx = 10 := by omega
      all_goals rfl
  · have hunpack : unpackEdition (asStr cpe.edition) = (asStr cpe.edition, []) := if_neg h
    have h5' : uriPlain cpe 5 = asStr cpe.edition := hplain 5 fun h => hext h.2
    unfold uriText
    rw [uriPlains_getD (by omega), h5', hunpack]
    split_ifs with h5 h7
    · rw [h5]
      rfl
    · rw [uriPlains_getD h7, hplain idx fun h => h5 h.1]
    · rw [hasExtendedAttributes_eq_false hext (by omega)]
      rfl

theorem tolower_eq_tilde {b : UInt8} : tolower b = ascii '~' → b = ascii '~' := by
  rw [tolower]
  split
  · rename_i hletter
    intro heq
    have hb : b = ascii '~' - 32 := by rw [← heq, UInt8.add_sub_cancel]
    exact absurd (hb ▸ hletter.2) (by decide)
  · exact id

/-- A byte that is read back as itself up to case is read back as itself. -/
theorem tolower_readBack {b : UInt8} :
    tolower (readBack b) = tolower b ↔ b < 128 ∨ b = 255 := by
  rw [← readBack_eq_self]
  refine ⟨fun h => ?_, congrArg tolower⟩
  by_cases hb : b < 128
  · exact if_pos hb
  · have hback : readBack b = 255 := if_neg hb
    rw [hback, tolower_of_not_lt hb, tolower_of_not_lt (by decide)] at h
    rw [hback, h]

/-- A text that is read back as itself up to case. -/
theorem map_tolower_readBack {text : List UInt8} :
    (text.map readBack).map tolower = text.map tolower ↔ ∀ b ∈ text, b < 128 ∨ b = 255 := by
  induction text with
  | nil => simp
  | cons b text ih =>
      rw [List.map_cons, List.map_cons, List.map_cons, List.cons.injEq, ih, tolower_readBack,
        List.forall_mem_cons]

/-- A name whose attributes are read back, be it up to case, has safe tildes and bytes. -/
theorem safe_of_readBack {cpe : CpeName} (hread : ∀ idx < 11, idx ≠ 0 →
    ((uriText (uriPlains cpe) idx).map readBack).map tolower =
      (asStr (cpeGetField cpe idx)).map tolower) :
    (∀ idx < 11, ∀ b ∈ asStr (cpeGetField cpe idx), b < 128 ∨ b = 255) ∧ cpe.TildeSafe := by
  have hsafe : cpe.TildeSafe := by
    -- a piece has no tilde, so no attribute that is read back from one
    have hpiece : startsWithTilde (uriPlain cpe 5) → ∀ idx ∈ [5, 7, 8, 9, 10],
        ascii '~' ∉ asStr (cpeGetField cpe idx) := by
      intro hstart idx hidx hmem
      have hlt : idx < 11 ∧ idx ≠ 0 ∧ (idx = 5 ∨ 7 ≤ idx) := by
        simp only [List.mem_cons, List.not_mem_nil, or_false] at hidx
        omega
      have hlower : ascii '~' ∈ (asStr (cpeGetField cpe idx)).map tolower :=
        List.mem_map.mpr ⟨_, hmem, by decide⟩
      rw [← hread idx hlt.1 hlt.2.1] at hlower
      obtain ⟨c, hc, hct⟩ := List.mem_map.mp hlower
      rw [tolower_eq_tilde hct] at hc
      obtain ⟨b, hb, hbt⟩ := List.mem_map.mp hc
      rw [readBack_eq_tilde hbt] at hb
      obtain ⟨hedition, hattribs⟩ := tilde_notMem_unpackEdition hstart
      unfold uriText at hb
      rw [uriPlains_getD (by omega)] at hb
      split_ifs at hb with h5 h7
      · exact hedition hb
      · omega
      · rcases getD_eq_nil_or_mem (unpackEdition (uriPlain cpe 5)).2 (idx - 7) with h | h
        · rw [h] at hb
          cases hb
        · exact hattribs _ h hb
    unfold CpeName.TildeSafe
    split_ifs with hext
    · refine hpiece ?_
      rw [uriPlain, if_pos ⟨rfl, hext⟩]
      refine ⟨?_, rfl⟩
      simp
      omega
    · intro hstart
      have h5 : uriPlain cpe 5 = asStr cpe.edition := if_neg fun h => hext h.2
      refine hpiece (h5 ▸ hstart) 5 (by simp) ?_
      exact List.mem_of_mem_head? hstart.2
  refine ⟨fun idx hidx => ?_, hsafe⟩
  by_cases hne : idx = 0
  · subst hne
    change ∀ b ∈ asStr (cpePartToString cpe.part), b < 128 ∨ b = 255
    exact forall_mem_of_all (by cases cpe.part <;> decide)
  · have hself := hread idx hidx hne
    rw [uriText_uriPlains hsafe hidx] at hself
    exact map_tolower_readBack.mp hself

/-- **The names that survive printing as a URI and reading.** -/
theorem roundTrips_uri_iff {cpe : CpeName} (h : cpe.Stored) :
    cpe.RoundTrips .uri ↔
      (∀ idx < 11, ∀ b ∈ asStr (cpeGetField cpe idx), b < 128 ∨ b = 255) ∧ cpe.TildeSafe := by
  rw [roundTrips_uri_iff_readBack h]
  constructor
  · exact fun hread => safe_of_readBack fun idx hidx hne => by rw [hread idx hidx hne]
  · rintro ⟨hbytes, hsafe⟩ idx hidx -
    rw [uriText_uriPlains hsafe hidx]
    exact map_readBack_eq_self.mpr (hbytes idx hidx)

/-! ### The URIs that survive -/

/-- The escapes of the attributes are of bytes that are read back, and no escape of a tilde
stands where a tilde is taken for a separator: in none of the packed attributes if one of the
extended ones is given, and not at the start of an edition that has more to it otherwise. -/
def UriRoundTrips (s : List UInt8) : Prop :=
  let text := uriText (oscapSplit (s.drop 5) (ascii ':'))
  (∀ idx < 11, idx ≠ 0 → ∀ b ∈ escapes (text idx), b < 128 ∨ b = 255) ∧
  if [7, 8, 9, 10].any fun idx => text idx ≠ [] then
    ∀ idx ∈ [5, 7, 8, 9, 10], ascii '~' ∉ escapes (text idx)
  else
    ∀ h l rest, text 5 = ascii '%' :: h :: l :: rest → scanHex h l = ascii '~' → rest = []

theorem not_startsWithTilde_unpackEdition (field : List UInt8) :
    ¬ startsWithTilde (unpackEdition field).1 := by
  by_cases h : startsWithTilde field
  · intro hstart
    exact (tilde_notMem_unpackEdition h).1 (List.mem_of_mem_head? hstart.2)
  · have hunpack : unpackEdition field = (field, []) := if_neg h
    rwa [hunpack]

/-- What is decoded starts with a tilde when an escape of a tilde is in front. -/
theorem UrlDecodes.startsWithTilde_iff {t v : List UInt8} (h : UrlDecodes t v)
    (ht : ¬ startsWithTilde t) :
    startsWithTilde v ↔
      ∃ a b rest, t = ascii '%' :: a :: b :: rest ∧ scanHex a b = ascii '~' ∧ rest ≠ [] := by
  cases h with
  | nil => simp [startsWithTilde]
  | @literal c t v hc hrest =>
      refine iff_of_false (fun hv => ht ?_) ?_
      · have hne : v ≠ [] := by
          rintro rfl
          exact absurd hv.1 (by simp)
        have ht' : t ≠ [] := fun h => hne (hrest.eq_nil_iff.mpr h)
        exact ⟨Nat.succ_le_succ (List.length_pos_iff.mpr ht'), hv.2⟩
      · rintro ⟨a, b, rest, heq, -⟩
        exact hc (List.cons.inj heq).1
  | @escape a b t v hx hne hrest =>
      have hlen : 2 ≤ (scanHex a b :: v).length ↔ t ≠ [] := by
        rw [ne_eq, ← hrest.eq_nil_iff, List.length_cons, ← List.length_eq_zero_iff]
        omega
      constructor
      · intro hv
        exact ⟨a, b, t, rfl, Option.some.inj hv.2, hlen.mp hv.1⟩
      · rintro ⟨a', b', rest, heq, hval, hne'⟩
        obtain ⟨rfl, rfl, rfl⟩ : a = a' ∧ b = b' ∧ t = rest := by simpa using heq
        exact ⟨hlen.mpr hne', by rw [List.head?_cons, hval]⟩

/-- **The URI round trip.** The name that is read from a URI survives printing and reading if
and only if its escapes are of bytes that survive and none of them is a tilde at a place where
a tilde separates. -/
theorem uri_roundTrips_iff {s : List UInt8} {cpe : CpeName}
    (hformat : cpeNameGetFormatOfStr s = .uri) (hnew : cpeNameNew (some s) = some cpe) :
    cpe.RoundTrips .uri ↔ UriRoundTrips s := by
  obtain ⟨hlen, hchars⟩ := uri_fields hformat
  rw [cpeNameNew_of_uri hformat] at hnew
  have hspec := setUriFields_spec hlen hnew
  unfold UriRoundTrips
  simp only
  generalize hfields : oscapSplit (s.drop 5) (ascii ':') = fields at hspec hlen hnew
  have hmem : ∀ idx, ∀ b ∈ uriText fields idx, b ≠ 0 ∧ b < 128 := by
    intro idx b hb
    obtain ⟨field, hfield, hb⟩ := mem_uriText hb
    exact hchars b (mem_of_mem_splitOn (hfields ▸ hfield) hb)
  -- every attribute but the part is what its text decodes to
  have hdecodes : ∀ idx < 11, idx ≠ 0 →
      UrlDecodes (uriText fields idx) (asStr (cpeGetField cpe idx)) := by
    intro idx hidx hne
    obtain ⟨newval, hdec, hget⟩ := hspec idx hidx
    rw [hget, storedText_of_pos (by omega), asStr_cpeFieldText]
    exact cpeUrldecode_iff.mp hdec
  have hstored : cpe.Stored := by
    intro idx hidx
    obtain ⟨newval, hdec, hget⟩ := hspec idx hidx
    exact ⟨newval, (cpeUrldecode_iff.mp hdec).zero_notMem fun h => (hmem idx 0 h).1 rfl, hget⟩
  rw [roundTrips_uri_iff hstored]
  refine and_congr ?_ ?_
  · constructor
    · intro h idx hidx hne b hb
      exact h idx hidx b ((hdecodes idx hidx hne).mem_of_mem_escapes hb)
    · intro h idx hidx b hb
      by_cases hne : idx = 0
      · subst hne
        change b ∈ asStr (cpePartToString cpe.part) at hb
        have hpart : ∀ x ∈ asStr (cpePartToString cpe.part), x < 128 ∨ x = 255 :=
          forall_mem_of_all (by cases cpe.part <;> decide)
        exact hpart b hb
      · rcases (hdecodes idx hidx hne).mem_or hb with hb | hb
        · exact .inl (hmem idx b hb).2
        · exact h idx hidx hne b hb
  · have hext : cpeHasExtendedAttributes cpe = true ↔
        ∃ idx ∈ [7, 8, 9, 10], uriText fields idx ≠ [] := by
      have hnil : ∀ idx ∈ [7, 8, 9, 10],
          uriText fields idx ≠ [] ↔ asStr (cpeGetField cpe idx) ≠ [] := by
        intro idx hidx
        have hlt : idx < 11 ∧ idx ≠ 0 := by
          simp only [List.mem_cons, List.not_mem_nil, or_false] at hidx
          omega
        exact (hdecodes idx hlt.1 hlt.2).eq_nil_iff.not.symm
      rw [exists_congr fun idx => and_congr_right (hnil idx)]
      simp [cpeHasExtendedAttributes, cpeGetField, or_assoc]
    have hany : ([7, 8, 9, 10].any fun idx => uriText fields idx ≠ []) = true ↔
        ∃ idx ∈ [7, 8, 9, 10], uriText fields idx ≠ [] := by
      simp only [List.any_eq_true, decide_eq_true_eq]
    unfold CpeName.TildeSafe
    by_cases hx : cpeHasExtendedAttributes cpe = true
    · rw [if_pos hx, if_pos (hany.mpr (hext.mp hx))]
      -- an extended attribute is given, so the field was taken apart
      have hstart : startsWithTilde (fields.getD 5 []) := by
        by_contra hstart
        obtain ⟨idx, hidx, hne⟩ := hext.mp hx
        have hunpack : unpackEdition (fields.getD 5 []) = (fields.getD 5 [], []) := if_neg hstart
        simp only [List.mem_cons, List.not_mem_nil, or_false] at hidx
        refine hne ?_
        unfold uriText
        rw [if_neg (by omega), if_neg (by omega), hunpack]
        rfl
      obtain ⟨hedition, hattribs⟩ := tilde_notMem_unpackEdition hstart
      refine forall₂_congr fun idx hidx => not_congr ?_
      have hlt : idx < 11 ∧ idx ≠ 0 ∧ (idx = 5 ∨ 7 ≤ idx) := by
        simp only [List.mem_cons, List.not_mem_nil, or_false] at hidx
        omega
      have htilde : ascii '~' ∉ uriText fields idx := by
        intro hb
        unfold uriText at hb
        split_ifs at hb with h5 h7
        · exact hedition hb
        · omega
        · rcases getD_eq_nil_or_mem (unpackEdition (fields.getD 5 [])).2 (idx - 7) with h | h
          · rw [h] at hb
            cases hb
          · exact hattribs _ h hb
      have hd := hdecodes idx hlt.1 hlt.2.1
      exact ⟨fun hb => (hd.mem_or hb).resolve_left htilde, fun hb => hd.mem_of_mem_escapes hb⟩
    · rw [if_neg hx, if_neg fun h => hx (hext.mpr (hany.mp h))]
      have hd := hdecodes 5 (by omega) (by omega)
      have hstart := hd.startsWithTilde_iff (not_startsWithTilde_unpackEdition _)
      change ¬ startsWithTilde (asStr (cpeGetField cpe 5)) ↔ _
      rw [hstart]
      constructor
      · intro h a b rest heq hval
        by_contra hne
        exact h ⟨a, b, rest, heq, hval, hne⟩
      · rintro h ⟨a, b, rest, heq, hval, hne⟩
        exact hne (h a b rest heq hval)

/-- A URI with every escape in a safe place, and its edition field packed. -/
def packedUri : List UInt8 :=
  bytes ['c', 'p', 'e', ':', '/', ':', '%', '3', 'a', ':', ':', ':', ':', '~', '~', 's']

theorem uri_roundTrips_iff_packedUri :
    ({ CpeName.empty .uri with
        vendor := some (bytes [':']), swEdition := some (bytes ['s']) } : CpeName).RoundTrips
      .uri := by
  have hformat : cpeNameGetFormatOfStr packedUri = .uri :=
    @format_uriScheme [] [bytes ['%', '3', 'a'], [], [], [], bytes ['~', '~', 's']] (.inl rfl)
      (by decide) (by decide +kernel)
  refine (uri_roundTrips_iff hformat ?_).mpr ?_
  · rw [cpeNameNew_of_uri hformat]
    decide +kernel
  refine ⟨by decide +kernel, ?_⟩
  rw [if_pos (by decide +kernel)]
  decide +kernel

/-- A URI whose edition is a tilde and a letter. -/
def tildeUri : List UInt8 :=
  bytes ['c', 'p', 'e', ':', '/', 'a', ':', ':', ':', ':', ':', '%', '7', 'E', 'x']

/-- The URI is printed with the tilde as it is, and read back without it. -/
theorem not_uri_roundTrips : ¬ ∀ s cpe, cpeNameGetFormatOfStr s = .uri →
    cpeNameNew (some s) = some cpe → cpe.RoundTrips .uri := by
  intro h
  have hformat : cpeNameGetFormatOfStr tildeUri = .uri :=
    @format_uriScheme (bytes ['a']) [[], [], [], [], bytes ['%', '7', 'E', 'x']]
      (.inr ⟨ascii 'a', by decide, rfl⟩) (by decide) (by decide +kernel)
  have hname : cpeNameNew (some tildeUri) =
      some { CpeName.empty .uri with part := .app, edition := some (bytes ['~', 'x']) } := by
    rw [cpeNameNew_of_uri hformat]
    decide +kernel
  obtain ⟨str, cpe', hprint, hformat', hnew, hsame⟩ := h tildeUri _ hformat hname
  have hstr : str = bytes ['c', 'p', 'e', ':', '/', 'a', ':', ':', ':', ':', ':', '~', 'x'] :=
    (Option.some.inj hprint).symm.trans (by decide +kernel)
  have hread : cpeNameNew (some str) =
      some { CpeName.empty .uri with part := .app, edition := some (bytes ['x']) } := by
    rw [cpeNameNew_of_uri hformat', hstr]
    decide +kernel
  rw [hread, Option.some.injEq] at hnew
  have hedition := hsame 5 (by omega)
  rw [← hnew] at hedition
  exact absurd hedition (by decide +kernel)

end OpenScap
