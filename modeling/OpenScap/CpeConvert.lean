import OpenScap.CpeMatch
import OpenScap.CpeString

/-!
# Converting CPE names between formats

A name is printed in the other format, accepted in that format and read again. What is lost in
the round trips within a format is lost here too. Beyond that, a formatted string has no way to
say that an attribute is absent: `cpe_name_get_as_format` prints nothing for it, and nothing is
not accepted.

## Main results

* `stored_of_cpeNameNew` — the fields of a name that is read are as they are stored;
* `converts_uri_iff`, `converts_string_iff` — the names that can be converted;
* `conversion_iff` — the strings whose names can be, by their components;
* `not_conversion` — a URI without a vendor cannot be converted.
-/

open RegularExpression TextPattern DelimitedText FallibleLoop

namespace OpenScap

/-- The name, printed in a format, is accepted in that format, and the name that is read from it
is not distinguished by any match. -/
def CpeName.Converts (cpe : CpeName) (format : CpeFormat) : Prop :=
  ∃ str cpe', cpeNameGetAsFormat cpe format = some str ∧ cpeNameGetFormatOfStr str = format ∧
    cpeNameNew (some str) = some cpe' ∧ cpe.Interchangeable cpe'

/-! ### Names that are read -/

/-- No accepted formatted string has a byte 0. -/
theorem zero_notMem_of_string {s : List UInt8} (h : cpeNameGetFormatOfStr s = .string) :
    0 ∉ s := by
  obtain ⟨part, hpart, tss, -, htss, rfl⟩ := exists_bodyTokens h
  have hparts : ∀ c ∈ bytes ['a', 'h', 'o', '*', '-'], 0 ≠ c := forall_mem_of_all (by decide)
  have hplain := @forall_byte (fun c => (isalnum c ∨ c ∈ bytes ['-', '.', '_']) ∨
    c ∈ bytes ['?', '*', '\n'] → 0 ≠ c) (by decide +kernel)
  have hquoted : ∀ c ∈ quotedChars, 0 ≠ c := forall_mem_of_all (by decide)
  rw [List.mem_append, not_or]
  refine ⟨by decide, fun hmem => ?_⟩
  obtain ⟨t, ht, hmem⟩ := List.mem_flatMap.mp hmem
  have hbody : t = .plain part ∨ t = .plain (ascii ':') ∨ IsBodyToken t := by
    rcases mem_bodyTokens.mp ht with rfl | ⟨ts, hts, rfl | ht⟩
    · exact .inl rfl
    · exact .inr (.inl rfl)
    · exact .inr (.inr (htss ts hts t ht))
  rcases hbody with rfl | rfl | hbody
  · exact hparts part hpart (List.mem_singleton.mp hmem)
  · exact absurd (List.mem_singleton.mp hmem) (by decide)
  · cases t with
    | plain c => exact hplain c (hbody.imp_left mem_unreservedChars.mp) (List.mem_singleton.mp hmem)
    | quoted c =>
        rcases List.mem_cons.mp hmem with h | h
        · exact absurd h (by decide)
        · exact hquoted c hbody (List.mem_singleton.mp h)

/-- The decoded components of a URI. -/
def UriComponents (s : List UInt8) (v : ℕ → List UInt8) : Prop :=
  ∀ idx < 11, cpeUrldecode (uriText (oscapSplit (s.drop 5) (ascii ':')) idx) = some (v idx)

/-- The decoded components of a formatted string. -/
def StringComponents (s : List UInt8) (v : ℕ → List UInt8) : Prop :=
  ∀ idx < 11, cpestringCompDecode ((oscapSplit (s.drop 8) (ascii ':')).getD idx []) = some (v idx)

/-- The fields of a name are stored components. -/
def CpeName.HasComponents (cpe : CpeName) (v : ℕ → List UInt8) : Prop :=
  ∀ idx < 11, 0 ∉ v idx ∧ cpeGetField cpe idx = storedText idx (v idx)

/-- What is read from a URI has its components. -/
theorem exists_uriComponents {s : List UInt8} {cpe : CpeName}
    (hformat : cpeNameGetFormatOfStr s = .uri) (hnew : cpeNameNew (some s) = some cpe) :
    ∃ v, UriComponents s v ∧ cpe.HasComponents v := by
  obtain ⟨hlen, hchars⟩ := uri_fields hformat
  rw [cpeNameNew_of_uri hformat] at hnew
  choose! v hdec hget using setUriFields_spec hlen hnew
  refine ⟨v, hdec, fun idx hidx => ⟨?_, hget idx hidx⟩⟩
  refine (cpeUrldecode_iff.mp (hdec idx hidx)).zero_notMem fun hmem => ?_
  obtain ⟨field, hfield, hmem⟩ := mem_uriText hmem
  exact (hchars 0 (mem_of_mem_splitOn hfield hmem)).1 rfl

/-- What is read from a formatted string has its components. -/
theorem exists_stringComponents {s : List UInt8} {cpe : CpeName}
    (hformat : cpeNameGetFormatOfStr s = .string) (hnew : cpeNameNew (some s) = some cpe) :
    ∃ v, StringComponents s v ∧ cpe.HasComponents v := by
  have hzero := zero_notMem_of_string hformat
  obtain ⟨part, hpart, tss, -, -, rfl⟩ := exists_bodyTokens hformat
  have hread := fun idx (hidx : idx < 11) =>
    @cpeNameNew_stringOf part tss cpe hformat hnew idx hidx
  choose! v hdec hget using hread
  have hdrop : (stringScheme ++ cpeText (bodyTokens part tss)).drop 8 =
      cpeText (bodyTokens part tss) := rfl
  have hpiece : ∀ idx, ∀ b ∈ (oscapSplit (cpeText (bodyTokens part tss)) (ascii ':')).getD idx [],
      b ≠ ascii ':' ∧ b ∈ cpeText (bodyTokens part tss) := by
    intro idx b hb
    rcases getD_eq_nil_or_mem (oscapSplit (cpeText (bodyTokens part tss)) (ascii ':')) idx with
      h | h
    · rw [h] at hb
      cases hb
    · exact ⟨fun heq => not_mem_of_mem_splitOn h (heq ▸ hb), mem_of_mem_splitOn h hb⟩
  refine ⟨v, fun idx hidx => ?_, fun idx hidx => ⟨?_, hget idx hidx⟩⟩
  · rw [hdrop, cpestringCompDecode_eq fun h => (hpiece idx _ h).1 rfl]
    exact (hdec idx hidx).cpeUrldecode_eq
  · exact (hdec idx hidx).zero_notMem fun h =>
      hzero (List.mem_append_right _ (hpiece idx 0 h).2)

/-- A name with components is stored. -/
theorem CpeName.HasComponents.stored {cpe : CpeName} {v : ℕ → List UInt8}
    (h : cpe.HasComponents v) : cpe.Stored :=
  fun idx hidx => ⟨v idx, (h idx hidx).1, (h idx hidx).2⟩

/-- **The fields of a name that is read are as they are stored.** -/
theorem stored_of_cpeNameNew {s : List UInt8} {cpe : CpeName}
    (hnew : cpeNameNew (some s) = some cpe) : cpe.Stored := by
  cases hformat : cpeNameGetFormatOfStr s with
  | unknown =>
      rw [cpeNameNew, hformat] at hnew
      cases hnew
  | uri =>
      obtain ⟨v, -, hv⟩ := exists_uriComponents hformat hnew
      exact hv.stored
  | string =>
      obtain ⟨v, -, hv⟩ := exists_stringComponents hformat hnew
      exact hv.stored
  | wfn =>
      rw [cpeNameNew, hformat] at hnew
      obtain rfl := Option.some.inj hnew
      refine fun idx _ => ⟨[], List.not_mem_nil, ?_⟩
      rw [cpeGetField_empty, storedText_nil]

/-! ### Conversion to a URI -/

/-- **The names that can be converted to a URI.** -/
theorem converts_uri_iff {cpe : CpeName} (h : cpe.Stored) : cpe.Converts .uri ↔
    (∀ idx < 11, ∀ b ∈ asStr (cpeGetField cpe idx), b < 128 ∨ b = 255) ∧ cpe.TildeSafe := by
  constructor
  · rintro ⟨str, cpe', hprint, -, hnew, hmatch⟩
    obtain ⟨str', cpe'', hprint', -, hnew', hget⟩ := exists_printed_uri h
    obtain rfl : str' = str := Option.some.inj (hprint'.symm.trans hprint)
    obtain rfl : cpe'' = cpe' := Option.some.inj (hnew'.symm.trans hnew)
    have halike := (interchangeable_iff h (stored_of_cpeNameNew hnew)).mp hmatch
    refine safe_of_readBack fun idx hidx hne => ?_
    rw [halike.asStr_eq hidx, hget idx hidx, storedText_of_pos (by omega), asStr_cpeFieldText]
  · intro hsafe
    obtain ⟨str, cpe', hprint, hformat, hnew, hsame⟩ := (roundTrips_uri_iff h).mpr hsafe
    exact ⟨str, cpe', hprint, hformat, hnew, hsame.alike.interchangeable⟩

/-! ### Conversion to a formatted string -/

/-- A text that is read from a formatted string as it is printed: its tokens are those of an
attribute, or its characters those of a language, and none of them is coded. -/
def StringSafe (idx : ℕ) (text : List UInt8) : Prop :=
  ∃ ts, text = cpeText ts ∧ CleanTokens ts ∧
    if idx = 6 then text ∈ languagePattern.matches' else AttributeTokens ts

/-- The tokens of texts between colons, none of which has a plain colon. -/
theorem bodyTokens_inj {part part' : UInt8} {tss uss : List (List CpeToken)}
    (htss : ∀ ts ∈ tss, .plain (ascii ':') ∉ ts) (huss : ∀ us ∈ uss, .plain (ascii ':') ∉ us)
    (h : bodyTokens part tss = bodyTokens part' uss) : tss = uss := by
  have hsplit : ∀ {vss : List (List CpeToken)}, (∀ vs ∈ vss, .plain (ascii ':') ∉ vs) →
      (vss.flatMap fun vs => .plain (ascii ':') :: vs).splitOn (.plain (ascii ':')) =
        [] :: vss := by
    intro vss hvss
    have hjoin := List.splitOn_intercalate (CpeToken.plain (ascii ':'))
      (show ∀ vs ∈ [] :: vss, CpeToken.plain (ascii ':') ∉ vs by simpa using hvss) (by simp)
    rwa [intercalate_cons, List.nil_append] at hjoin
  have htail := (List.cons.inj h).2
  exact (List.cons.inj ((hsplit htss).symm.trans ((congrArg _ htail).trans (hsplit huss)))).2

/-- What is accepted has attributes between its colons. -/
theorem attributes_of_accepted {part : UInt8} {tss : List (List CpeToken)}
    (hpart : part ∈ bytes ['a', 'h', 'o', '*', '-'])
    (hback : ∀ ts ∈ tss, .plain (ascii '\\') ∉ ts) (hcolon : ∀ ts ∈ tss, .plain (ascii ':') ∉ ts)
    (hline : ∀ ts ∈ tss, .plain (ascii '\n') ∉ ts)
    (hformat : cpeNameGetFormatOfStr (stringOf part tss) = .string) :
    tss.length = 10 ∧ (∀ ts ∈ tss, ∀ t ∈ ts, IsBodyToken t) ∧
      ∀ i < 10, if i = 5 then cpeText (tss.getD i []) ∈ languagePattern.matches'
        else AttributeTokens (tss.getD i []) := by
  obtain ⟨part', hpart', front, lang, back, tail, hlen, hfront, hlang, hlen', hback', htail, hs⟩ :=
    format_string_iff.mp hformat
  have hlangTokens : ∀ t ∈ lang.map CpeToken.plain, IsBodyToken t := by
    intro t ht
    obtain ⟨c, hc, rfl⟩ := List.mem_map.mp ht
    rcases mem_of_mem_languagePattern hlang c hc with h | rfl
    · exact .inl h
    · exact .inr (by decide)
  have huss : ∀ us ∈ front ++ lang.map .plain :: back, ∀ t ∈ us, IsBodyToken t := by
    intro us hus
    rcases List.mem_append.mp hus with hus | hus
    · exact (hfront us hus).isBodyToken
    · rcases List.mem_cons.mp hus with rfl | hus
      · exact hlangTokens
      · exact (hback' us hus).isBodyToken
  have hfields : front.map cpeText ++ lang :: back.map cpeText =
      (front ++ lang.map .plain :: back).map cpeText := by
    simp [cpeText_map_plain]
  have hpart'' : ∀ ts ∈ front ++ lang.map .plain :: back, .plain (ascii '\\') ∉ ts :=
    fun us hus => (plain_notMem_of_isBodyToken (huss us hus)).1
  have htokens : bodyTokens part tss =
      bodyTokens part' (front ++ lang.map .plain :: back) ++ tail.map .plain := by
    refine cpeText_inj (backslash_notMem_bodyTokens hpart hback) ?_ ?_
    · rw [List.mem_append, not_or]
      refine ⟨backslash_notMem_bodyTokens hpart' hpart'', ?_⟩
      rcases htail with rfl | rfl <;> decide
    · rw [hfields, ← cpeText_bodyTokens] at hs
      rw [cpeText_append, cpeText_map_plain]
      exact List.append_cancel_left hs
  -- a newline at the end would be among the tokens
  obtain rfl : tail = [] := by
    rcases htail with rfl | rfl
    · rfl
    · exfalso
      have hparts : ∀ c ∈ bytes ['a', 'h', 'o', '*', '-'], ascii '\n' ≠ c :=
        forall_mem_of_all (by decide)
      have hmem : .plain (ascii '\n') ∈ bodyTokens part tss := by
        rw [htokens]
        simp
      rcases mem_bodyTokens.mp hmem with h | ⟨ts, hts, h | h⟩
      · exact hparts part hpart (CpeToken.plain.inj h)
      · exact absurd h (by decide)
      · exact hline ts hts h
  rw [List.map_nil, List.append_nil] at htokens
  obtain rfl := bodyTokens_inj hcolon
    (fun us hus => (plain_notMem_of_isBodyToken (huss us hus)).2.2) htokens
  refine ⟨?_, huss, fun i hi => ?_⟩
  · simp only [List.length_append, List.length_cons]
    omega
  · rcases Nat.lt_trichotomy i 5 with h | rfl | h
    · rw [if_neg (by omega), List.getD_append _ _ _ _ (by omega),
        List.getD_eq_getElem _ _ (by omega)]
      exact hfront _ (List.getElem_mem _)
    · rw [if_pos rfl, List.getD_append_right _ _ _ _ (by omega), hlen, Nat.sub_self,
        List.getD_cons_zero, cpeText_map_plain]
      exact hlang
    · rw [if_neg (by omega), List.getD_append_right _ _ _ _ (by omega), hlen,
        show i - 5 = i - 6 + 1 by omega, List.getD_cons_succ,
        List.getD_eq_getElem _ _ (by omega)]
      exact hback' _ (List.getElem_mem _)

/-- Decoding shortens a text with a quoted percent sign. -/
theorem TokenDecodes.text_length {ts us : List CpeToken} (h : TokenDecodes ts us) :
    (cpeText us).length ≤ (cpeText ts).length ∧
      (.quoted (ascii '%') ∈ ts → (cpeText us).length < (cpeText ts).length) := by
  induction h with
  | nil => exact ⟨Nat.le_refl _, fun h => nomatch h⟩
  | @keep t ts us ht _ ih =>
      have hcons : ∀ vs, (cpeText (t :: vs)).length = t.text.length + (cpeText vs).length :=
        fun vs => by simp [cpeText]
      rw [hcons, hcons]
      refine ⟨by omega, fun h => ?_⟩
      have := ih.2 ((List.mem_cons.mp h).resolve_left fun h => ht h.symm)
      omega
  | escape _ _ _ ih =>
      simp only [cpeText_quoted, cpeText_plain, List.length_cons]
      exact ⟨by omega, fun _ => by omega⟩

/-- A printed newline is coded. -/
theorem newline_notMem_encode (ts : List CpeToken) :
    .plain (ascii '\n') ∉ ts.flatMap encodeToken := by
  intro hmem
  obtain ⟨t, -, hmem⟩ := List.mem_flatMap.mp hmem
  rcases plain_mem_encodeToken hmem with h | h
  · exact absurd h (by decide)
  · exact absurd h (by decide)

/-- A printed colon is quoted. -/
theorem colon_notMem_encode (ts : List CpeToken) : .plain (ascii ':') ∉ ts.flatMap encodeToken := by
  intro hmem
  obtain ⟨t, -, hmem⟩ := List.mem_flatMap.mp hmem
  rcases plain_mem_encodeToken hmem with h | h
  · exact (isKept_ne h).2 rfl
  · exact absurd h (by decide)

/-- Every text that can be encoded is made of tokens, none of which is a backslash that quotes
nothing. -/
theorem exists_tokens_of_encode {text : List UInt8} (h : cpestringCompEncode text ≠ none) :
    ∃ ts, .plain (ascii '\\') ∉ ts ∧ text = cpeText ts := by
  induction text using cpeTokens.induct with
  | case1 => exact ⟨[], List.not_mem_nil, rfl⟩
  | case2 d rest ih =>
      rw [cpestringCompEncode_quoted] at h
      obtain ⟨ts, hts, rfl⟩ := ih fun hnone => h (by rw [hnone]; rfl)
      exact ⟨.quoted d :: ts, by simpa using hts, rfl⟩
  | case3 => exact absurd rfl h
  | case4 c rest hc ih =>
      rw [cpestringCompEncode_plain hc] at h
      obtain ⟨ts, hts, rfl⟩ := ih fun hnone => h (by rw [hnone]; rfl)
      exact ⟨.plain c :: ts, by simpa [Ne.symm hc] using hts, rfl⟩

/-- Whether a text can be encoded does not depend on the case of its letters. -/
theorem encode_ne_none_of_map_tolower {text text' : List UInt8}
    (hmap : text.map tolower = text'.map tolower) (h : cpestringCompEncode text ≠ none) :
    cpestringCompEncode text' ≠ none := by
  have hback : ∀ {c c'}, tolower c = tolower c' → (c' = ascii '\\' ↔ c = ascii '\\') := by
    have hall : ∀ c : UInt8, tolower c = ascii '\\' ↔ c = ascii '\\' :=
      forall_byte (by decide +kernel)
    intro c c' hcc
    rw [← hall c, hcc, hall c']
  induction text using cpeTokens.induct generalizing text' with
  | case1 =>
      obtain rfl := List.map_eq_nil_iff.mp hmap.symm
      exact h
  | case2 d rest ih =>
      obtain ⟨c', text', rfl⟩ : ∃ c' rest', text' = c' :: rest' :=
        List.exists_cons_of_ne_nil (by rintro rfl; exact nomatch hmap)
      obtain ⟨hc, htail⟩ := List.cons.inj hmap
      obtain rfl := (hback hc).mpr rfl
      obtain ⟨d', rest', rfl⟩ : ∃ d' rest', text' = d' :: rest' :=
        List.exists_cons_of_ne_nil (by rintro rfl; exact nomatch htail)
      rw [cpestringCompEncode_quoted, ne_eq, Option.map_eq_none_iff] at h ⊢
      exact ih (List.cons.inj htail).2 h
  | case3 => exact absurd rfl h
  | case4 c rest hc ih =>
      obtain ⟨c', rest', rfl⟩ : ∃ c' rest', text' = c' :: rest' :=
        List.exists_cons_of_ne_nil (by rintro rfl; exact nomatch hmap)
      obtain ⟨hcc, htail⟩ := List.cons.inj hmap
      have hc' : c' ≠ ascii '\\' := fun h => hc ((hback hcc).mp h)
      rw [cpestringCompEncode_plain hc, ne_eq, Option.map_eq_none_iff] at h
      rw [cpestringCompEncode_plain hc', ne_eq, Option.map_eq_none_iff]
      exact ih htail h

/-- A stored name has a part of the formatted strings; one that is not known stands for none. -/
theorem CpeName.Stored.exists_part {cpe : CpeName} (h : cpe.Stored) :
    ∃ part ∈ bytes ['a', 'h', 'o', '*', '-'], cpeGetField cpe 0 = storedText 0 [part] := by
  rcases asStr_cpePartToString cpe.part with hnil | ⟨x, hx, heq⟩
  · refine ⟨ascii '*', by decide, ?_⟩
    rw [← h.storedText_asStr (by omega), show asStr (cpeGetField cpe 0) = [] from hnil]
    decide
  · have hall : ∀ c ∈ bytes ['h', 'o', 'a'], c ∈ bytes ['a', 'h', 'o', '*', '-'] :=
      forall_mem_of_all (by decide)
    refine ⟨x, hall x hx, ?_⟩
    rw [← h.storedText_asStr (by omega), show asStr (cpeGetField cpe 0) = [x] from heq]

/-- The texts of a name that is printed are made of tokens. -/
theorem CpeName.Stored.exists_attributes {cpe : CpeName} {str : List UInt8} (h : cpe.Stored)
    (hprint : cpeNameGetAsFormat cpe .string = some str) :
    (∀ idx < 11, cpestringCompEncode (asStr (cpeGetField cpe idx)) ≠ none) ∧
      ∃ part ∈ bytes ['a', 'h', 'o', '*', '-'], ∃ u, cpe.HasAttributes part u ∧
        ∀ i < 10, .plain (ascii '\\') ∉ u i := by
  have hencode : ∀ idx < 11, cpestringCompEncode (asStr (cpeGetField cpe idx)) ≠ none := by
    obtain ⟨parts, hparts, -⟩ := getAsFormat_string_iff.mp hprint
    intro idx hidx
    rw [(getD_of_map_eq (d := []) hparts).2 idx hidx]
    exact Option.some_ne_none _
  have htokens := fun i (hi : i < 10) => exists_tokens_of_encode (hencode (i + 1) (by omega))
  choose! u hu htext using htokens
  obtain ⟨part, hpart, hget⟩ := h.exists_part
  refine ⟨hencode, part, hpart, u, ⟨hget, fun i hi => ?_⟩, hu⟩
  rw [← htext i hi, h.storedText_asStr (by omega)]

/-- The texts of the attributes of a name that converts are safe. -/
theorem stringSafe_of_converts {cpe : CpeName} (h : cpe.Stored) (hconverts : cpe.Converts .string) :
    (∃ c ∈ knownParts, asStr (cpeGetField cpe 0) = [c]) ∧
      ∀ idx < 11, idx ≠ 0 → StringSafe idx (asStr (cpeGetField cpe idx)) := by
  obtain ⟨str, cpe', hprint, hformat, hnew, hmatch⟩ := hconverts
  have halike := (interchangeable_iff h (stored_of_cpeNameNew hnew)).mp hmatch
  obtain ⟨hencode, part, hpart, u, hattributes, hback⟩ := h.exists_attributes hprint
  have htext : ∀ i < 10, asStr (cpeGetField cpe (i + 1)) = cpeText (u i) := by
    intro i hi
    rw [hattributes.rest i hi, storedText_of_pos (by omega), asStr_cpeFieldText]
  obtain ⟨hknown, rfl⟩ := printed_eq_stringOf hpart hattributes hback hprint hformat
  have hmem : ∀ {i}, i < 10 → (u i).flatMap encodeToken ∈ encodedAttributes u := fun hi =>
    List.mem_map.mpr ⟨_, List.mem_range.mpr hi, rfl⟩
  have hall : ∀ {P : List CpeToken → Prop}, (∀ i, P ((u i).flatMap encodeToken)) →
      ∀ ts ∈ encodedAttributes u, P ts := by
    intro P hP ts hts
    obtain ⟨i, -, rfl⟩ := List.mem_map.mp hts
    exact hP i
  obtain ⟨hlen, hbody, hattribute⟩ := attributes_of_accepted hpart
    (backslash_notMem_encodedAttributes u) (hall fun i => colon_notMem_encode (u i))
    (hall fun i => newline_notMem_encode (u i)) hformat
  have hquoted := quotedColon_notMem hpart hlen hbody hformat hnew fun idx hidx =>
    encode_ne_none_of_map_tolower (halike.asStr_eq hidx) (hencode idx hidx)
  -- a plain colon would be printed as a quoted one
  have hcolon : ∀ i < 10, .plain (ascii ':') ∉ u i := fun i hi h =>
    hquoted _ (hmem hi) (List.mem_flatMap.mpr ⟨_, h, by decide⟩)
  have hkept := kept_of_accepted hpart hcolon hformat
  have hself : ∀ i < 10, (u i).flatMap encodeToken = u i :=
    fun i hi => flatMap_encodeToken (hkept i hi).1
  have hgetD : ∀ i < 10, (encodedAttributes u).getD i [] = u i := by
    intro i hi
    rw [encodedAttributes, getD_map_range _ hi, hself i hi]
  refine ⟨⟨part, hknown, ?_⟩, fun idx hidx hne => ?_⟩
  · rw [hattributes.part, storedText_part part hpart, if_pos hknown]
  · obtain ⟨i, rfl⟩ := Nat.exists_eq_succ_of_ne_zero hne
    have hi : i < 10 := by omega
    rw [Nat.succ_eq_add_one, htext i hi]
    obtain ⟨us, hus, hget⟩ :=
      (attributes_stringOf hpart hbody hquoted hformat hnew).2 i hi
    rw [hgetD i hi] at hus
    -- the text that is read is as long as the text that is printed
    have hlength := congrArg List.length (halike.asStr_eq hidx)
    rw [Nat.succ_eq_add_one, htext i hi, hget, storedText_of_pos (by omega), asStr_cpeFieldText,
      List.length_map, List.length_map] at hlength
    refine ⟨u i, rfl, ⟨fun t ht => ?_, (hkept i hi).1, fun h => ?_, fun h => ?_⟩, ?_⟩
    · exact hbody _ (hmem hi) t (by rwa [hself i hi])
    · exact hquoted _ (hmem hi) (by rwa [hself i hi])
    · have := hus.text_length.2 h
      omega
    · have hattr := hattribute i hi
      rw [hgetD i hi] at hattr
      simpa using hattr

/-- Names with the same attributes are printed alike. -/
theorem CpeName.SameAttributes.getAsFormat_string_eq {a b : CpeName} (h : a.SameAttributes b) :
    cpeNameGetAsFormat a .string = cpeNameGetAsFormat b .string := by
  have hparts : ∀ i ∈ List.range 11, cpestringCompEncode (asStr (cpeGetField a i)) =
      cpestringCompEncode (asStr (cpeGetField b i)) := fun i hi => by
    rw [h i (List.mem_range.mp hi)]
  refine Option.ext fun str => ?_
  rw [getAsFormat_string_iff, getAsFormat_string_iff, List.map_congr_left hparts]

/-- A name whose attributes are safe converts. -/
theorem converts_of_stringSafe {cpe : CpeName} (h : cpe.Stored) {part : UInt8}
    (hpart : part ∈ knownParts) (hget0 : asStr (cpeGetField cpe 0) = [part])
    (hsafe : ∀ idx < 11, idx ≠ 0 → StringSafe idx (asStr (cpeGetField cpe idx))) :
    cpe.Converts .string := by
  have hpart' : part ∈ bytes ['a', 'h', 'o', '*', '-'] := by
    have hall : ∀ c ∈ knownParts, c ∈ bytes ['a', 'h', 'o', '*', '-'] :=
      forall_mem_of_all (by decide)
    exact hall part hpart
  have hu := fun i (hi : i < 10) => hsafe (i + 1) (by omega) (by omega)
  choose! u htext hclean hpattern using hu
  have hrange : (List.range 10).map u = [u 0, u 1, u 2, u 3, u 4] ++ u 5 :: [u 6, u 7, u 8, u 9] :=
    rfl
  have hmem : ∀ ts ∈ (List.range 10).map u, CleanTokens ts := by
    intro ts hts
    obtain ⟨i, hi, rfl⟩ := List.mem_map.mp hts
    exact hclean i (List.mem_range.mp hi)
  have hformat : cpeNameGetFormatOfStr (stringOf part ((List.range 10).map u)) = .string := by
    have hattribute : ∀ i < 10, i ≠ 5 → AttributeTokens (u i) := by
      intro i hi hne
      have := hpattern i hi
      rwa [if_neg (by omega)] at this
    have hlang := hpattern 5 (by omega)
    rw [if_pos rfl, htext 5 (by omega)] at hlang
    refine format_string_iff.mpr ⟨part, hpart', [u 0, u 1, u 2, u 3, u 4], cpeText (u 5),
      [u 6, u 7, u 8, u 9], [], rfl, ?_, hlang, rfl, ?_, .inl rfl, ?_⟩
    · simp [hattribute]
    · simp [hattribute]
    · rw [stringOf, cpeText_bodyTokens, hrange, List.append_nil, List.map_append,
        @List.map_cons _ _ cpeText (u 5)]
  obtain ⟨cpe₀, hnew, str, cpe', hprint, hformat', hnew', hsame⟩ :=
    @roundTrips_of_clean part ((List.range 10).map u) id hpart (by simp)
      (fun ts hts => (hmem ts hts).body) (fun ts hts => (hmem ts hts).colon) hformat
      (fun ts hts => tokenDecodes_self (hmem ts hts).percent) hmem (by rwa [List.map_id])
  -- the name that is read has the attributes of the name
  have hattributes : cpe.SameAttributes cpe₀ := by
    obtain ⟨hpart₀, hrest⟩ := attributes_stringOf hpart' (fun ts hts => (hmem ts hts).body)
      (fun ts hts => (hmem ts hts).colon) hformat hnew
    intro idx hidx
    rw [← h.storedText_asStr hidx]
    cases idx with
    | zero => rw [hget0, hpart₀]
    | succ i =>
        obtain ⟨us, hus, hget⟩ := hrest i (by omega)
        rw [getD_map_range u (by omega)] at hus
        rw [hget, hus.eq_of_notMem (hclean i (by omega)).percent, htext i (by omega)]
  refine ⟨str, cpe', hattributes.getAsFormat_string_eq.trans hprint, hformat', hnew', ?_⟩
  exact CpeName.Alike.interchangeable fun i hi =>
    (hattributes.alike i hi).trans (hsame.alike i hi)

/-- **The names that can be converted to a formatted string.** -/
theorem converts_string_iff {cpe : CpeName} (h : cpe.Stored) : cpe.Converts .string ↔
    (∃ c ∈ knownParts, asStr (cpeGetField cpe 0) = [c]) ∧
      ∀ idx < 11, idx ≠ 0 → StringSafe idx (asStr (cpeGetField cpe idx)) := by
  refine ⟨stringSafe_of_converts h, ?_⟩
  rintro ⟨⟨c, hc, hget⟩, hsafe⟩
  exact converts_of_stringSafe h hc hget hsafe

/-! ### The strings whose names can be converted -/

/-- Components that a URI keeps: no byte above 127 but 255, and no tilde where one separates. -/
def UriSafe (v : ℕ → List UInt8) : Prop :=
  (∀ idx < 11, idx ≠ 0 → ∀ b ∈ v idx, b < 128 ∨ b = 255) ∧
  if [7, 8, 9, 10].any fun idx => v idx ≠ [] then ∀ idx ∈ [5, 7, 8, 9, 10], ascii '~' ∉ v idx
  else ¬ startsWithTilde (v 5)

/-- Components that a formatted string keeps: a part that is known, and safe texts. -/
def StringComponentsSafe (v : ℕ → List UInt8) : Prop :=
  (∃ c ∈ knownParts, v 0 = [c]) ∧ ∀ idx < 11, idx ≠ 0 → StringSafe idx (v idx)

theorem CpeName.HasComponents.congr {cpe : CpeName} {v w : ℕ → List UInt8}
    (h : cpe.HasComponents v) (hvw : ∀ idx < 11, v idx = w idx) : cpe.HasComponents w := by
  intro idx hidx
  rw [← hvw idx hidx]
  exact h idx hidx

theorem CpeName.HasComponents.asStr_eq {cpe : CpeName} {v : ℕ → List UInt8}
    (h : cpe.HasComponents v) {idx : ℕ} (hidx : idx < 11) (hne : idx ≠ 0) :
    asStr (cpeGetField cpe idx) = v idx := by
  rw [(h idx hidx).2, storedText_of_pos (by omega), asStr_cpeFieldText]

/-- The part is a known one exactly if its component is. -/
theorem asStr_storedText_zero_iff {text : List UInt8} {c : UInt8} (hc : c ∈ knownParts) :
    asStr (storedText 0 text) = [c] ↔ text = [c] := by
  have hknown : ∀ d ∈ knownParts, asStr (storedText 0 [d]) = [d] := forall_mem_of_all (by decide)
  constructor
  · intro h
    have hparts : ∀ part : CpePart, asStr (cpePartToString part) = [c] →
        part = cpePartOfString [c] := by
      intro part hpart
      rw [← hpart, cpePartOfString_toString]
    have heq : cpePartOfString text = cpePartOfString [c] := hparts _ h
    unfold cpePartOfString at heq
    have hc' : c = ascii 'a' ∨ c = ascii 'h' ∨ c = ascii 'o' := by
      simpa [knownParts, bytes] using hc
    split_ifs at heq <;> simp_all [bytes]
  · rintro rfl
    exact hknown c hc

/-- A name converts to a formatted string when its components are safe. -/
theorem CpeName.HasComponents.converts_string_iff {cpe : CpeName} {v : ℕ → List UInt8}
    (h : cpe.HasComponents v) : cpe.Converts .string ↔ StringComponentsSafe v := by
  rw [OpenScap.converts_string_iff h.stored]
  refine and_congr ?_ ?_
  · refine exists_congr fun c => and_congr_right fun hc => ?_
    rw [(h 0 (by omega)).2]
    exact asStr_storedText_zero_iff hc
  · refine forall₂_congr fun idx hidx => forall_congr' fun hne => ?_
    rw [h.asStr_eq hidx hne]

/-- A name converts to a URI when its components are safe. -/
theorem CpeName.HasComponents.converts_uri_iff {cpe : CpeName} {v : ℕ → List UInt8}
    (h : cpe.HasComponents v) : cpe.Converts .uri ↔ UriSafe v := by
  rw [OpenScap.converts_uri_iff h.stored]
  have hext : cpeHasExtendedAttributes cpe = ([7, 8, 9, 10].any fun idx => v idx ≠ []) := by
    have h7 := h.asStr_eq (by omega : 7 < 11) (by omega)
    have h8 := h.asStr_eq (by omega : 8 < 11) (by omega)
    have h9 := h.asStr_eq (by omega : 9 < 11) (by omega)
    have h10 := h.asStr_eq (by omega : 10 < 11) (by omega)
    simp only [List.any_cons, List.any_nil, ← h7, ← h8, ← h9, ← h10]
    simp [cpeHasExtendedAttributes, cpeGetField, Bool.or_assoc]
  refine and_congr ?_ ?_
  · constructor
    · intro hbytes idx hidx hne
      rw [← h.asStr_eq hidx hne]
      exact hbytes idx hidx
    · intro hbytes idx hidx
      by_cases hne : idx = 0
      · subst hne
        have hpart : ∀ x ∈ asStr (cpePartToString cpe.part), x < 128 ∨ x = 255 :=
          forall_mem_of_all (by cases cpe.part <;> decide)
        exact hpart
      · rw [h.asStr_eq hidx hne]
        exact hbytes idx hidx hne
  · unfold CpeName.TildeSafe
    rw [hext]
    have hedition : asStr cpe.edition = v 5 := h.asStr_eq (by omega : 5 < 11) (by omega)
    split_ifs
    · refine forall₂_congr fun idx hidx => ?_
      have hlt : idx < 11 ∧ idx ≠ 0 := by
        simp only [List.mem_cons, List.not_mem_nil, or_false] at hidx
        omega
      rw [h.asStr_eq hlt.1 hlt.2]
    · rw [hedition]

/-- **The conversion of CPE names.** The name that is read from a URI is converted to a formatted
string, and the one that is read from a formatted string to a URI, if and only if the decoded
components of the string are safe in the other format. -/
theorem conversion_iff {s : List UInt8} {cpe : CpeName} (hnew : cpeNameNew (some s) = some cpe) :
    (cpeNameGetFormatOfStr s = .uri →
      (cpe.Converts .string ↔ ∃ v, UriComponents s v ∧ StringComponentsSafe v)) ∧
    (cpeNameGetFormatOfStr s = .string →
      (cpe.Converts .uri ↔ ∃ v, StringComponents s v ∧ UriSafe v)) := by
  constructor
  · intro hformat
    obtain ⟨v, hdec, hv⟩ := exists_uriComponents hformat hnew
    constructor
    · exact fun h => ⟨v, hdec, hv.converts_string_iff.mp h⟩
    · rintro ⟨w, hdec', hsafe⟩
      have hvw : ∀ idx < 11, v idx = w idx := fun idx hidx =>
        Option.some.inj ((hdec idx hidx).symm.trans (hdec' idx hidx))
      exact (hv.congr hvw).converts_string_iff.mpr hsafe
  · intro hformat
    obtain ⟨v, hdec, hv⟩ := exists_stringComponents hformat hnew
    constructor
    · exact fun h => ⟨v, hdec, hv.converts_uri_iff.mp h⟩
    · rintro ⟨w, hdec', hsafe⟩
      have hvw : ∀ idx < 11, v idx = w idx := fun idx hidx =>
        Option.some.inj ((hdec idx hidx).symm.trans (hdec' idx hidx))
      exact (hv.congr hvw).converts_uri_iff.mpr hsafe

/-- A URI that gives every component. -/
def fullUri : List UInt8 :=
  bytes ['c', 'p', 'e', ':', '/', 'a', ':', 'b', ':', 'c', ':', '1', ':', '2', ':', '~', 'e', '~',
    'w', '~', 's', '~', 'h', '~', 'o', ':', 'e', 'n']

theorem conversion_iff_fullUri :
    (cpeNameGetFormatOfStr fullUri = .uri ∧ cpeNameNew (some fullUri) =
      some ⟨.uri, .app, some (bytes ['b']), some (bytes ['c']), some (bytes ['1']),
        some (bytes ['2']), some (bytes ['e']), some (bytes ['e', 'n']), some (bytes ['w']),
        some (bytes ['s']), some (bytes ['h']), some (bytes ['o'])⟩) ∧
    (CpeName.Converts ⟨.uri, .app, some (bytes ['b']), some (bytes ['c']), some (bytes ['1']),
        some (bytes ['2']), some (bytes ['e']), some (bytes ['e', 'n']), some (bytes ['w']),
        some (bytes ['s']), some (bytes ['h']), some (bytes ['o'])⟩ .string ↔
      ∃ v, UriComponents fullUri v ∧ StringComponentsSafe v) := by
  have hformat : cpeNameGetFormatOfStr fullUri = .uri :=
    @format_uriScheme (bytes ['a']) [bytes ['b'], bytes ['c'], bytes ['1'], bytes ['2'],
        bytes ['~', 'e', '~', 'w', '~', 's', '~', 'h', '~', 'o'], bytes ['e', 'n']]
      (.inr ⟨ascii 'a', by decide, rfl⟩) (by decide) (by decide +kernel)
  have hnew : cpeNameNew (some fullUri) =
      some ⟨.uri, .app, some (bytes ['b']), some (bytes ['c']), some (bytes ['1']),
        some (bytes ['2']), some (bytes ['e']), some (bytes ['e', 'n']), some (bytes ['w']),
        some (bytes ['s']), some (bytes ['h']), some (bytes ['o'])⟩ := by
    rw [cpeNameNew_of_uri hformat]
    decide +kernel
  exact ⟨⟨hformat, hnew⟩, (conversion_iff hnew).1 hformat⟩

/-- A URI that gives nothing but the part. -/
def partUri : List UInt8 := bytes ['c', 'p', 'e', ':', '/', 'a']

/-- The absent components are printed as nothing, which is not accepted. -/
theorem not_conversion : ¬ ∀ s cpe, cpeNameGetFormatOfStr s = .uri →
    cpeNameNew (some s) = some cpe → cpe.Converts .string := by
  intro h
  have hformat : cpeNameGetFormatOfStr partUri = .uri :=
    @format_uriScheme (bytes ['a']) [] (.inr ⟨ascii 'a', by decide, rfl⟩) (by decide)
      (by decide +kernel)
  have hnew : cpeNameNew (some partUri) = some { CpeName.empty .uri with part := .app } := by
    rw [cpeNameNew_of_uri hformat]
    decide +kernel
  obtain ⟨str, cpe', hprint, hformat', -⟩ := h partUri _ hformat hnew
  have hstr : str = bytes ['c', 'p', 'e', ':', '2', '.', '3', ':', 'a', ':', ':', ':', ':', ':',
      ':', ':', ':', ':', ':'] := (Option.some.inj hprint).symm.trans (by decide +kernel)
  rw [hstr] at hformat'
  exact absurd hformat' (by decide +kernel)

end OpenScap
