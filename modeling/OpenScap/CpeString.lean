import OpenScap.CpeToken
import OpenScap.CpeUri
import OpenScap.FallibleLoop

/-!
# CPE formatted strings

Printing a name that was read from a CPE 2.3 formatted string and reading it again. The
attributes keep the backslashes of the string, but `cpe_name_new` cuts the string at colons
whether they are quoted or not, decodes `%HH` though a percent sign can only stand there quoted,
and `cpestring_comp_encode` prints an unquoted question mark as `%3F`, which is not accepted.

## Main results

* `format_string_iff` — what is accepted;
* `safe_of_roundTrips`, `roundTrips_of_clean` — what survives;
* `string_roundTrips_iff` — the accepted strings whose names are read and survive, by their text.
-/

open RegularExpression TextPattern DelimitedText FallibleLoop

namespace OpenScap

/-! ### Acceptance -/

/-- A character that an attribute may have between its wildcards. -/
def IsCoreToken : CpeToken → Prop
  | .plain c => c ∈ unreservedChars
  | .quoted c => c ∈ quotedChars

/-- What may stand at either end of an attribute. -/
def IsWildcard (ts : List CpeToken) : Prop :=
  (∀ t ∈ ts, t = .plain (ascii '?')) ∨ ts = [.plain (ascii '*')]

/-- The tokens of an attribute. -/
def AttributeTokens (ts : List CpeToken) : Prop :=
  (∃ front core back, IsWildcard front ∧ core ≠ [] ∧ (∀ t ∈ core, IsCoreToken t) ∧
    IsWildcard back ∧ ts = front ++ core ++ back) ∨
  ts = [.plain (ascii '*')] ∨ ts = [.plain (ascii '-')]

theorem mem_wildcardPattern {x : List UInt8} :
    x ∈ wildcardPattern.matches' ↔ ∃ ts, IsWildcard ts ∧ x = cpeText ts := by
  unfold wildcardPattern
  rw [mem_add, mem_many, mem_optional, matches'_char]
  constructor
  · rintro (h | rfl | h)
    · refine ⟨x.map .plain, .inl fun t ht => ?_, (cpeText_map_plain x).symm⟩
      obtain ⟨c, hc, rfl⟩ := List.mem_map.mp ht
      exact congrArg CpeToken.plain (List.mem_singleton.mp (h c hc))
    · exact ⟨[], .inl (fun t ht => by cases ht), rfl⟩
    · exact ⟨[.plain (ascii '*')], .inr rfl, h⟩
  · rintro ⟨ts, h | rfl, rfl⟩
    · left
      intro c hc
      obtain ⟨t, ht, hc⟩ := List.mem_flatMap.mp hc
      rw [h t ht] at hc
      exact hc
    · exact .inr (.inr rfl)

theorem mem_attributeCharPattern {x : List UInt8} :
    x ∈ attributeCharPattern.matches' ↔ ∃ t, IsCoreToken t ∧ x = t.text := by
  unfold attributeCharPattern
  simp only [mem_add, mem_char_mul, mem_oneOf]
  constructor
  · rintro (⟨c, hc, rfl⟩ | ⟨_, ⟨c, hc, rfl⟩, rfl⟩)
    · exact ⟨.plain c, hc, rfl⟩
    · exact ⟨.quoted c, hc, rfl⟩
  · rintro ⟨t, ht, rfl⟩
    cases t with
    | plain c => exact .inl ⟨c, ht, rfl⟩
    | quoted c => exact .inr ⟨[c], ⟨c, ht, rfl⟩, rfl⟩

/-- What is accepted as an attribute. -/
theorem mem_attributePattern {x : List UInt8} :
    x ∈ attributePattern.matches' ↔ ∃ ts, AttributeTokens ts ∧ x = cpeText ts := by
  unfold attributePattern logicalPattern
  simp only [mem_add, mem_mul, mem_oneOf, mem_wildcardPattern, mem_attributeCharPattern,
    mem_star_tokens fun y => mem_attributeCharPattern]
  constructor
  · rintro (⟨_, ⟨front, hfront, rfl⟩, _, ⟨_, ⟨_, ⟨t, ht, rfl⟩, _, ⟨core, hcore, rfl⟩, rfl⟩, _,
      ⟨back, hback, rfl⟩, rfl⟩, rfl⟩ | ⟨c, hc, rfl⟩)
    · refine ⟨front ++ (t :: core) ++ back, .inl ⟨front, t :: core, back, hfront, by simp,
        List.forall_mem_cons.mpr ⟨ht, hcore⟩, hback, rfl⟩, ?_⟩
      simp [cpeText]
    · have hc' : c = ascii '*' ∨ c = ascii '-' := by simpa [bytes] using hc
      rcases hc' with rfl | rfl
      · exact ⟨_, .inr (.inl rfl), rfl⟩
      · exact ⟨_, .inr (.inr rfl), rfl⟩
  · rintro ⟨ts, ⟨front, core, back, hfront, hne, hcore, hback, rfl⟩ | rfl | rfl, rfl⟩
    · obtain ⟨t, core, rfl⟩ := List.exists_cons_of_ne_nil hne
      obtain ⟨ht, hcore⟩ := List.forall_mem_cons.mp hcore
      refine .inl ⟨_, ⟨front, hfront, rfl⟩, _, ⟨_, ⟨_, ⟨t, ht, rfl⟩, _, ⟨core, hcore, rfl⟩, rfl⟩, _,
        ⟨back, hback, rfl⟩, rfl⟩, ?_⟩
      simp [cpeText]
    · exact .inr ⟨ascii '*', by decide, rfl⟩
    · exact .inr ⟨ascii '-', by decide, rfl⟩

theorem mem_unreservedChars {c : UInt8} :
    c ∈ unreservedChars ↔ isalnum c ∨ c ∈ bytes ['-', '.', '_'] := by
  rw [unreservedChars, List.mem_append, alphanumeric, mem_byteClass]

/-- The characters of a language. -/
theorem mem_of_mem_languagePattern {x : List UInt8} (h : x ∈ languagePattern.matches') :
    ∀ c ∈ x, c ∈ unreservedChars ∨ c = ascii '*' := by
  have hletter : ∀ c ∈ letters, c ∈ unreservedChars := by
    intro c hc
    rw [letters, mem_byteClass] at hc
    exact mem_unreservedChars.mpr (.inl (by simp [isalnum, hc]))
  have hdigit : ∀ c ∈ digits, c ∈ unreservedChars := by
    intro c hc
    rw [digits, mem_byteClass] at hc
    exact mem_unreservedChars.mpr (.inl (by simp [isalnum, hc]))
  have hpow : ∀ {cs y n}, (∀ c ∈ cs, c ∈ unreservedChars) → y ∈ (oneOf cs ^ n).matches' →
      ∀ c ∈ y, c ∈ unreservedChars := by
    intro cs y n hcs hy c hc
    obtain ⟨parts, rfl, -, hparts⟩ := mem_pow.mp hy
    obtain ⟨p, hp, hc⟩ := List.mem_flatten.mp hc
    obtain ⟨d, hd, rfl⟩ := mem_oneOf.mp (hparts p hp)
    rw [List.mem_singleton.mp hc]
    exact hcs d hd
  unfold languagePattern logicalPattern at h
  simp only [mem_add, mem_mul, mem_optional, mem_char] at h
  rcases h with ⟨_, ⟨a, ha, b, hb, rfl⟩, d, hd, rfl⟩ | h
  · intro c hc
    left
    rcases List.mem_append.mp hc with hc | hc
    · rcases List.mem_append.mp hc with hc | hc
      · exact hpow hletter ha c hc
      · rcases hb with rfl | hb
        · cases hc
        · obtain ⟨e, he, rfl⟩ := mem_oneOf.mp hb
          rw [List.mem_singleton.mp hc]
          exact hletter e he
    · rcases hd with rfl | ⟨_, rfl, f, hf, rfl⟩
      · cases hc
      · rcases List.mem_cons.mp hc with rfl | hc
        · exact mem_unreservedChars.mpr (.inr (by decide))
        · rcases hf with hf | hf
          · exact hpow hletter hf c hc
          · exact hpow hdigit hf c hc
  · obtain ⟨c, hc, rfl⟩ := mem_oneOf.mp h
    have hc' : c = ascii '*' ∨ c = ascii '-' := by simpa [bytes] using hc
    intro d hd
    rw [List.mem_singleton.mp hd]
    rcases hc' with rfl | rfl
    · exact .inr rfl
    · exact .inl (mem_unreservedChars.mpr (.inr (by decide)))

/-- The scheme of the formatted strings. -/
def stringScheme : List UInt8 := bytes ['c', 'p', 'e', ':', '2', '.', '3', ':']

/-- What is accepted as a formatted string. -/
theorem format_string_iff {s : List UInt8} :
    cpeNameGetFormatOfStr s = .string ↔
      ∃ part ∈ bytes ['a', 'h', 'o', '*', '-'],
      ∃ (front : List (List CpeToken)) (lang : List UInt8) (back : List (List CpeToken))
        (tail : List UInt8), front.length = 5 ∧ (∀ ts ∈ front, AttributeTokens ts) ∧
        lang ∈ languagePattern.matches' ∧
        back.length = 4 ∧ (∀ ts ∈ back, AttributeTokens ts) ∧
        (tail = [] ∨ tail = [ascii '\n']) ∧
        s = stringScheme ++ ([ascii ':'].intercalate
          ([part] :: (front.map cpeText ++ lang :: back.map cpeText)) ++ tail) := by
  have hnot : s ∈ stringPattern.matches' → cpeNameGetFormatOfStr s ≠ .uri := by
    intro h huri
    obtain ⟨c, -, p, -, e, -, part, fields, tail, -, -, -, -, rfl⟩ := format_uri_iff.mp huri
    unfold stringPattern at h
    rw [mem_mul] at h
    obtain ⟨a, ha, b, -, heq⟩ := h
    rw [mem_word.mp ha] at heq
    have h4 := congrArg (fun l : List UInt8 => l[4]?) heq
    exact absurd h4 (by simp [bytes]; decide)
  have hpattern : cpeNameGetFormatOfStr s = .string ↔ s ∈ stringPattern.matches' := by
    constructor
    · intro h
      rw [← rmatch_iff_matches']
      unfold cpeNameGetFormatOfStr at h
      split_ifs at h with h₁ h₂
      all_goals simp_all
    · intro h
      have hne := hnot h
      rw [← rmatch_iff_matches'] at h
      unfold cpeNameGetFormatOfStr at hne ⊢
      split_ifs at hne ⊢
      all_goals simp_all
  have hfields : ∀ {n} {parts : List (List UInt8)},
      (parts.length = n ∧ ∀ p ∈ parts, p ∈ attributePattern.matches') ↔
        ∃ tss : List (List CpeToken), tss.length = n ∧ (∀ ts ∈ tss, AttributeTokens ts) ∧
          parts = tss.map cpeText := by
    intro n parts
    simp only [mem_attributePattern]
    rw [forall_mem_exists_eq]
    constructor
    · rintro ⟨hlen, tss, htss, rfl⟩
      exact ⟨tss, by simpa using hlen, htss, rfl⟩
    · rintro ⟨tss, hlen, htss, rfl⟩
      exact ⟨by simpa using hlen, tss, htss, rfl⟩
  rw [hpattern]
  unfold stringPattern
  simp only [mem_mul, mem_oneOf, mem_word, mem_prefixed_pow, mem_char, endOfText_iff, hfields,
    intercalate_cons, List.flatMap_append, List.flatMap_cons]
  constructor
  · rintro ⟨_, rfl, _, ⟨_, ⟨part, hpart, rfl⟩, _, ⟨_, ⟨_, rfl, front, hlen, hfront, rfl⟩, _,
      ⟨_, ⟨_, rfl, lang, hlang, rfl⟩, _, ⟨_, ⟨_, rfl, back, hlen', hback, rfl⟩, tail, htail, rfl⟩,
      rfl⟩, rfl⟩, rfl⟩, rfl⟩
    refine ⟨part, hpart, front, lang, back, tail, hlen, hfront, hlang, hlen', hback, htail, ?_⟩
    simp [stringScheme]
  · rintro ⟨part, hpart, front, lang, back, tail, hlen, hfront, hlang, hlen', hback, htail, rfl⟩
    refine ⟨_, rfl, _, ⟨_, ⟨part, hpart, rfl⟩, _, ⟨_, ⟨_, rfl, front, hlen, hfront, rfl⟩, _,
      ⟨_, ⟨_, rfl, lang, hlang, rfl⟩, _, ⟨_, ⟨_, rfl, back, hlen', hback, rfl⟩, tail, htail, rfl⟩,
      rfl⟩, rfl⟩, rfl⟩, ?_⟩
    simp [stringScheme]

/-! ### The tokens of a formatted string -/

/-- The tokens of a part and attributes, with colons between them. -/
def bodyTokens (part : UInt8) (tss : List (List CpeToken)) : List CpeToken :=
  .plain part :: tss.flatMap fun ts => .plain (ascii ':') :: ts

/-- A character of an accepted attribute, or a newline at the end. -/
def IsBodyToken : CpeToken → Prop
  | .plain c => c ∈ unreservedChars ∨ c ∈ bytes ['?', '*', '\n']
  | .quoted c => c ∈ quotedChars

theorem cpeText_bodyTokens (part : UInt8) (tss : List (List CpeToken)) :
    cpeText (bodyTokens part tss) = [ascii ':'].intercalate ([part] :: tss.map cpeText) := by
  rw [intercalate_cons, bodyTokens, cpeText_plain, List.singleton_append]
  congr 1
  induction tss with
  | nil => rfl
  | cons ts tss ih =>
      rw [List.flatMap_cons, cpeText_append, ih, cpeText_plain]
      rfl

theorem IsCoreToken.isBodyToken {t : CpeToken} (h : IsCoreToken t) : IsBodyToken t := by
  cases t with
  | plain c => exact .inl h
  | quoted c => exact h

theorem IsWildcard.isBodyToken {ts : List CpeToken} (h : IsWildcard ts) :
    ∀ t ∈ ts, IsBodyToken t := by
  intro t ht
  rcases h with h | rfl
  · rw [h t ht]
    exact .inr (by decide)
  · rw [List.mem_singleton.mp ht]
    exact .inr (by decide)

theorem AttributeTokens.isBodyToken {ts : List CpeToken} (h : AttributeTokens ts) :
    ∀ t ∈ ts, IsBodyToken t := by
  intro t ht
  rcases h with ⟨front, core, back, hfront, -, hcore, hback, rfl⟩ | rfl | rfl
  · rcases List.mem_append.mp ht with ht | ht
    · rcases List.mem_append.mp ht with ht | ht
      · exact hfront.isBodyToken t ht
      · exact (hcore t ht).isBodyToken
    · exact hback.isBodyToken t ht
  · rw [List.mem_singleton.mp ht]
    exact .inr (by decide)
  · rw [List.mem_singleton.mp ht]
    exact .inl (mem_unreservedChars.mpr (.inr (by decide)))

theorem isBodyToken_plain_ne {c : UInt8} (h : IsBodyToken (.plain c)) :
    c ≠ ascii '\\' ∧ c ≠ ascii '%' ∧ c ≠ ascii ':' := by
  have hall := @forall_byte (fun c => (isalnum c ∨ c ∈ bytes ['-', '.', '_']) ∨
    c ∈ bytes ['?', '*', '\n'] → c ≠ ascii '\\' ∧ c ≠ ascii '%' ∧ c ≠ ascii ':')
    (by decide +kernel) c
  exact hall (h.imp_left mem_unreservedChars.mp)

/-- An accepted formatted string is made of ten attributes after the part. -/
theorem exists_bodyTokens {s : List UInt8} (h : cpeNameGetFormatOfStr s = .string) :
    ∃ part ∈ bytes ['a', 'h', 'o', '*', '-'], ∃ tss : List (List CpeToken), tss.length = 10 ∧
      (∀ ts ∈ tss, ∀ t ∈ ts, IsBodyToken t) ∧
      s = stringScheme ++ cpeText (bodyTokens part tss) := by
  obtain ⟨part, hpart, front, lang, back, tail, hlen, hfront, hlang, hlen', hback, htail, rfl⟩ :=
    format_string_iff.mp h
  have hlangTokens : ∀ t ∈ lang.map CpeToken.plain, IsBodyToken t := by
    intro t ht
    obtain ⟨c, hc, rfl⟩ := List.mem_map.mp ht
    rcases mem_of_mem_languagePattern hlang c hc with h | rfl
    · exact .inl h
    · exact .inr (by decide)
  -- a newline at the end belongs to the last attribute
  obtain ⟨init, last, rfl⟩ : ∃ init last, back = init ++ [last] := by
    have hne : back ≠ [] := by
      rintro rfl
      cases hlen'
    exact ⟨back.dropLast, back.getLast hne, (List.dropLast_append_getLast hne).symm⟩
  have htailTokens : ∀ t ∈ tail.map CpeToken.plain, IsBodyToken t := by
    intro t ht
    rcases htail with rfl | rfl
    · cases ht
    · rw [List.mem_singleton.mp ht]
      exact .inr (by decide)
  refine ⟨part, hpart, front ++ lang.map .plain :: (init ++ [last ++ tail.map .plain]), ?_, ?_, ?_⟩
  · simp only [List.length_append, List.length_cons, List.length_nil] at hlen' ⊢
    omega
  · intro ts hts
    simp only [List.mem_append, List.mem_cons, List.not_mem_nil, or_false] at hts
    rcases hts with hts | rfl | hts | rfl
    · exact (hfront ts hts).isBodyToken
    · exact hlangTokens
    · exact (hback ts (List.mem_append_left _ hts)).isBodyToken
    · intro t ht
      rcases List.mem_append.mp ht with ht | ht
      · exact (hback last (by simp)).isBodyToken t ht
      · exact htailTokens t ht
  · rw [cpeText_bodyTokens]
    congr 1
    simp only [intercalate_cons, List.map_append, List.map_cons, List.map_nil,
      List.flatMap_append, List.flatMap_cons, List.flatMap_nil, cpeText_map_plain, cpeText_append]
    simp

/-- No token of the body is a backslash that quotes nothing, or a plain percent sign. -/
theorem plain_notMem_of_isBodyToken {ts : List CpeToken} (h : ∀ t ∈ ts, IsBodyToken t) :
    .plain (ascii '\\') ∉ ts ∧ .plain (ascii '%') ∉ ts ∧ .plain (ascii ':') ∉ ts :=
  ⟨fun hmem => (isBodyToken_plain_ne (h _ hmem)).1 rfl,
    fun hmem => (isBodyToken_plain_ne (h _ hmem)).2.1 rfl,
    fun hmem => (isBodyToken_plain_ne (h _ hmem)).2.2 rfl⟩

theorem mem_bodyTokens {part : UInt8} {tss : List (List CpeToken)} {t : CpeToken} :
    t ∈ bodyTokens part tss ↔
      t = .plain part ∨ ∃ ts ∈ tss, t = .plain (ascii ':') ∨ t ∈ ts := by
  simp [bodyTokens]

theorem backslash_notMem_bodyTokens {part : UInt8} {tss : List (List CpeToken)}
    (hpart : part ∈ bytes ['a', 'h', 'o', '*', '-'])
    (htss : ∀ ts ∈ tss, .plain (ascii '\\') ∉ ts) :
    .plain (ascii '\\') ∉ bodyTokens part tss := by
  have hparts : ∀ c ∈ bytes ['a', 'h', 'o', '*', '-'], ascii '\\' ≠ c :=
    forall_mem_of_all (by decide)
  intro hmem
  rcases mem_bodyTokens.mp hmem with h | ⟨ts, hts, h | h⟩
  · exact hparts part hpart (CpeToken.plain.inj h)
  · exact absurd h (by decide)
  · exact htss ts hts h

/-- The tokens of a formatted string. -/
theorem cpeTokens_string {ts : List CpeToken} (hts : .plain (ascii '\\') ∉ ts) :
    cpeTokens (stringScheme ++ cpeText ts) = stringScheme.map .plain ++ ts := by
  have hscheme : stringScheme = cpeText (stringScheme.map .plain) :=
    (cpeText_map_plain stringScheme).symm
  rw [hscheme, ← cpeText_append, cpeTokens_cpeText, ← hscheme]
  rw [List.mem_append, not_or]
  exact ⟨by decide, hts⟩

/-- The body is safe when its attributes are. -/
theorem percentSafe_bodyTokens (part : UInt8) (tss : List (List CpeToken)) :
    PercentSafe (bodyTokens part tss) ↔ ∀ ts ∈ tss, PercentSafe ts := by
  have hfields : PercentSafe (tss.flatMap fun ts => .plain (ascii ':') :: ts) ↔
      ∀ ts ∈ tss, PercentSafe ts := by
    induction tss with
    | nil => simp [PercentSafe]
    | cons ts tss ih =>
        rw [List.flatMap_cons, percentSafe_append, ih, List.forall_mem_cons, PercentSafe]
        · simp
        · intro c hc
          cases tss with
          | nil => cases hc
          | cons us tss =>
              have hcolon : ascii ':' = c := CpeToken.plain.inj (Option.some.inj hc)
              rw [← hcolon]
              decide
  rw [bodyTokens, PercentSafe, hfields]
  simp

/-! ### Reading -/

/-- In a field, which has no colon, the decoders of the two formats agree. -/
theorem cpestringCompDecode_eq {t : List UInt8} (h : ascii ':' ∉ t) :
    cpestringCompDecode t = cpeUrldecode t := by
  have hbranch : ∀ {c : UInt8} {rest : List UInt8}, ascii ':' ∉ rest →
      ¬ (c = ascii '\\' ∧ rest.head? = some (ascii ':')) :=
    fun hrest hc => hrest (List.mem_of_mem_head? hc.2)
  induction t using cpeUrldecode.induct with
  | case1 => rfl
  | case2 a b rest hx hzero =>
      rw [cpeUrldecode_escape hx, if_pos hzero, cpestringCompDecode.eq_def]
      simp only
      rw [if_neg (hbranch fun hmem => h (List.mem_cons_of_mem _ hmem)), if_pos trivial, if_pos hx,
        if_pos hzero]
  | case3 a b rest hx hne ih =>
      simp only [List.mem_cons, not_or] at h
      rw [cpeUrldecode_escape hx, if_neg hne, cpestringCompDecode.eq_def]
      simp only
      rw [if_neg (hbranch (by simp [h])), if_pos trivial, if_pos hx, if_neg hne, ih h.2.2.2]
  | case4 a b rest hx =>
      rw [cpeUrldecode.eq_def, cpestringCompDecode.eq_def]
      simp only
      rw [if_neg (hbranch fun hmem => h (List.mem_cons_of_mem _ hmem)), if_pos trivial,
        if_neg hx, if_pos trivial, if_neg hx]
  | case5 rest hrest =>
      obtain _ | ⟨c, _ | ⟨d, rest⟩⟩ := rest
      · decide
      · rw [cpeUrldecode.eq_def, cpestringCompDecode.eq_def]
        simp only
        rw [if_neg (hbranch fun hmem => h (List.mem_cons_of_mem _ hmem)), if_pos trivial,
          if_pos trivial]
      · exact absurd rfl (hrest c d rest)
  | case6 c rest hc ih =>
      rw [List.mem_cons, not_or] at h
      rw [cpeUrldecode_literal hc, cpestringCompDecode.eq_def]
      simp only
      rw [if_neg (hbranch h.2), if_neg hc, ih h.2]

/-- A quoted colon leaves a field that ends in a backslash which quotes nothing. -/
theorem exists_open_piece {ts : List CpeToken}
    (hts : ∀ t ∈ ts, IsBodyToken t ∨ t = .plain (ascii ':')) (h : .quoted (ascii ':') ∈ ts) :
    ∃ k ≤ ts.count (.plain (ascii ':')), ∃ ts', (∀ t ∈ ts', IsBodyToken t) ∧
      (oscapSplit (cpeText ts) (ascii ':')).getD k [] =
        cpeText (ts' ++ [.plain (ascii '\\')]) := by
  induction ts with
  | nil => cases h
  | cons t ts ih =>
      obtain ⟨ht, hts⟩ := List.forall_mem_cons.mp hts
      obtain ⟨p, ps, hsplit⟩ := List.exists_cons_of_ne_nil
        (List.splitOn_ne_nil (ascii ':') (cpeText ts))
      -- a token that is no colon goes to the first field
      have hfirst : t ≠ .quoted (ascii ':') → t ≠ .plain (ascii ':') →
          oscapSplit (cpeText (t :: ts)) (ascii ':') = (t.text ++ p) :: ps := by
        intro hq hp
        cases t with
        | plain c =>
            have hc : c ≠ ascii ':' := fun h => hp (congrArg _ h)
            rw [cpeText_plain, oscapSplit, splitOn_cons_of_ne hc, hsplit]
            rfl
        | quoted c =>
            have hc : c ≠ ascii ':' := fun h => hq (congrArg _ h)
            rw [cpeText_quoted, oscapSplit, splitOn_cons_of_ne (by decide),
              splitOn_cons_of_ne hc, hsplit]
            rfl
      by_cases hq : t = .quoted (ascii ':')
      · subst hq
        refine ⟨0, Nat.zero_le _, [], (fun t ht => by cases ht), ?_⟩
        rw [cpeText_quoted, oscapSplit, splitOn_cons_of_ne (by decide), splitOn_cons_self]
        rfl
      obtain ⟨k, hk, ts', hts', hget⟩ := ih hts ((List.mem_cons.mp h).resolve_left (Ne.symm hq))
      by_cases hp : t = .plain (ascii ':')
      · subst hp
        refine ⟨k + 1, by rw [List.count_cons_self]; omega, ts', hts', ?_⟩
        rw [cpeText_plain, oscapSplit, splitOn_cons_self, List.getD_cons_succ]
        exact hget
      · rw [oscapSplit, hsplit] at hget
        rw [List.count_cons_of_ne hp, hfirst hq hp]
        cases k with
        | zero =>
            refine ⟨0, Nat.zero_le _, t :: ts',
              List.forall_mem_cons.mpr ⟨ht.resolve_right hp, hts'⟩, ?_⟩
            rw [List.getD_cons_zero] at hget
            rw [List.getD_cons_zero, hget]
            rfl
        | succ k => exact ⟨k + 1, hk, ts', hts', hget⟩

/-- The string of a part and ten attributes. -/
def stringOf (part : UInt8) (tss : List (List CpeToken)) : List UInt8 :=
  stringScheme ++ cpeText (bodyTokens part tss)

/-- What reading an accepted string gives: each attribute is a decoded field. -/
theorem cpeNameNew_stringOf {part : UInt8} {tss : List (List CpeToken)} {cpe : CpeName}
    (hformat : cpeNameGetFormatOfStr (stringOf part tss) = .string)
    (hnew : cpeNameNew (some (stringOf part tss)) = some cpe) {idx : Nat} (hidx : idx < 11) :
    ∃ newval, UrlDecodes ((oscapSplit (cpeText (bodyTokens part tss)) (ascii ':')).getD idx [])
      newval ∧ cpeGetField cpe idx = storedText idx newval := by
  rw [cpeNameNew_of_string hformat] at hnew
  have hdrop : (stringOf part tss).drop 8 = cpeText (bodyTokens part tss) := rfl
  rw [hdrop] at hnew
  have hnil : cpestringCompDecode [] = some [] := rfl
  obtain ⟨newval, hdec, hget⟩ := setFields_getD hnil hnew (k := idx) (by omega) (by simp)
  rw [Nat.zero_add] at hget
  refine ⟨newval, ?_, hget⟩
  have htake : ((oscapSplit (cpeText (bodyTokens part tss)) (ascii ':')).take 11).getD idx [] =
      (oscapSplit (cpeText (bodyTokens part tss)) (ascii ':')).getD idx [] := by
    simp only [List.getD_eq_getElem?_getD, List.getElem?_take]
    rw [if_pos hidx]
  rw [htake, cpestringCompDecode_eq, cpeUrldecode_iff] at hdec
  · exact hdec
  · rcases getD_eq_nil_or_mem (oscapSplit (cpeText (bodyTokens part tss)) (ascii ':')) idx with
      h | h
    · rw [h]
      exact List.not_mem_nil
    · exact not_mem_of_mem_splitOn h

theorem count_fields (tss : List (List CpeToken))
    (htss : ∀ ts ∈ tss, ∀ t ∈ ts, IsBodyToken t) :
    (tss.flatMap fun ts => .plain (ascii ':') :: ts).count (.plain (ascii ':')) = tss.length := by
  induction tss with
  | nil => rfl
  | cons ts tss ih =>
      obtain ⟨hts, htss⟩ := List.forall_mem_cons.mp htss
      rw [List.flatMap_cons, List.count_append, List.count_cons_self, ih htss,
        List.count_eq_zero.mpr (plain_notMem_of_isBodyToken hts).2.2, List.length_cons]
      omega

/-- A name all of whose attributes can be encoded was read from a string without a quoted
colon. -/
theorem quotedColon_notMem {part : UInt8} {tss : List (List CpeToken)} {cpe : CpeName}
    (hpart : part ∈ bytes ['a', 'h', 'o', '*', '-']) (hlen : tss.length = 10)
    (htss : ∀ ts ∈ tss, ∀ t ∈ ts, IsBodyToken t)
    (hformat : cpeNameGetFormatOfStr (stringOf part tss) = .string)
    (hnew : cpeNameNew (some (stringOf part tss)) = some cpe)
    (hencode : ∀ idx < 11, cpestringCompEncode (asStr (cpeGetField cpe idx)) ≠ none) :
    ∀ ts ∈ tss, .quoted (ascii ':') ∉ ts := by
  intro ts hts hmem
  have hparts : ∀ c ∈ bytes ['a', 'h', 'o', '*', '-'], c ≠ ascii ':' :=
    forall_mem_of_all (by decide)
  obtain ⟨k, hk, ts', hts', hget⟩ :=
    @exists_open_piece (tss.flatMap fun ts => .plain (ascii ':') :: ts)
      (fun t ht => by
        obtain ⟨us, hus, ht⟩ := List.mem_flatMap.mp ht
        rcases List.mem_cons.mp ht with rfl | ht
        · exact .inr rfl
        · exact .inl (htss us hus t ht))
      (List.mem_flatMap.mpr ⟨ts, hts, List.mem_cons_of_mem _ hmem⟩)
  rw [count_fields tss htss, hlen] at hk
  -- the field is not the part
  obtain ⟨us, tss', rfl⟩ : ∃ us tss', tss = us :: tss' :=
    List.exists_cons_of_ne_nil (by rintro rfl; cases hts)
  have hsplit : oscapSplit (cpeText (bodyTokens part (us :: tss'))) (ascii ':') =
      [part] :: oscapSplit (cpeText (us ++ tss'.flatMap fun ts => .plain (ascii ':') :: ts))
        (ascii ':') := by
    rw [bodyTokens, cpeText_plain, List.flatMap_cons, List.cons_append, cpeText_plain, oscapSplit,
      splitOn_cons_of_ne (hparts part hpart), splitOn_cons_self]
    rfl
  rw [List.flatMap_cons, List.cons_append, cpeText_plain, oscapSplit, splitOn_cons_self] at hget
  cases k with
  | zero => simp at hget
  | succ k =>
      obtain ⟨newval, hdec, hfield⟩ := cpeNameNew_stringOf hformat hnew (show k + 1 < 11 by omega)
      rw [hsplit, List.getD_cons_succ] at hdec
      rw [List.getD_cons_succ] at hget
      unfold oscapSplit at hdec
      rw [hget] at hdec
      have hplain := plain_notMem_of_isBodyToken hts'
      obtain ⟨vs, hvs, rfl⟩ := hdec.exists_tokenDecodes (by
        rw [List.mem_append, not_or]
        exact ⟨hplain.2.1, by decide⟩)
      obtain ⟨vs', rfl, hvs'⟩ := hvs.of_concat (by decide)
      refine hencode (k + 1) (by omega) ?_
      rw [hfield, storedText_of_pos (by omega), asStr_cpeFieldText]
      exact cpestringCompEncode_eq_none fun h => hplain.1 (hvs'.plain_mem h)

/-- The parts that `cpe_name_new` knows. -/
def knownParts : List UInt8 := bytes ['a', 'h', 'o']

/-- The fields of a string without a quoted colon are its attributes. -/
theorem oscapSplit_bodyTokens {part : UInt8} {tss : List (List CpeToken)}
    (hpart : part ∈ bytes ['a', 'h', 'o', '*', '-'])
    (htss : ∀ ts ∈ tss, ∀ t ∈ ts, IsBodyToken t) (hcolon : ∀ ts ∈ tss, .quoted (ascii ':') ∉ ts) :
    oscapSplit (cpeText (bodyTokens part tss)) (ascii ':') = [part] :: tss.map cpeText := by
  have hparts : ∀ c ∈ bytes ['a', 'h', 'o', '*', '-'], c ≠ ascii ':' :=
    forall_mem_of_all (by decide)
  rw [cpeText_bodyTokens, oscapSplit, List.splitOn_intercalate _ _ (by simp)]
  intro field hfield
  rcases List.mem_cons.mp hfield with rfl | hfield
  · rw [List.mem_singleton]
    exact fun h => hparts part hpart h.symm
  · obtain ⟨ts, hts, rfl⟩ := List.mem_map.mp hfield
    intro hmem
    obtain ⟨t, ht, hmem⟩ := List.mem_flatMap.mp hmem
    cases t with
    | plain c =>
        obtain rfl : ascii ':' = c := List.mem_singleton.mp hmem
        exact (plain_notMem_of_isBodyToken (htss ts hts)).2.2 ht
    | quoted c =>
        simp only [CpeToken.text, List.mem_cons, List.not_mem_nil, or_false] at hmem
        rcases hmem with h | rfl
        · exact absurd h (by decide)
        · exact hcolon ts hts ht

theorem getD_map_cpeText (tss : List (List CpeToken)) (i : Nat) :
    (tss.map cpeText).getD i [] = cpeText (tss.getD i []) := by
  rw [List.getD_eq_getElem?_getD, List.getD_eq_getElem?_getD, List.getElem?_map]
  cases tss[i]? <;> rfl

/-- The attributes of a name read from a string without a quoted colon. -/
theorem attributes_stringOf {part : UInt8} {tss : List (List CpeToken)} {cpe : CpeName}
    (hpart : part ∈ bytes ['a', 'h', 'o', '*', '-'])
    (htss : ∀ ts ∈ tss, ∀ t ∈ ts, IsBodyToken t) (hcolon : ∀ ts ∈ tss, .quoted (ascii ':') ∉ ts)
    (hformat : cpeNameGetFormatOfStr (stringOf part tss) = .string)
    (hnew : cpeNameNew (some (stringOf part tss)) = some cpe) :
    cpeGetField cpe 0 = storedText 0 [part] ∧
      ∀ i < 10, ∃ us, TokenDecodes (tss.getD i []) us ∧
        cpeGetField cpe (i + 1) = storedText (i + 1) (cpeText us) := by
  have hsplit := oscapSplit_bodyTokens hpart htss hcolon
  constructor
  · obtain ⟨newval, hdec, hget⟩ := cpeNameNew_stringOf hformat hnew (show 0 < 11 by omega)
    rw [hsplit, List.getD_cons_zero] at hdec
    have hparts : ∀ c ∈ bytes ['a', 'h', 'o', '*', '-'], c ≠ ascii '%' :=
      forall_mem_of_all (by decide)
    obtain ⟨w, rfl, hw⟩ := hdec.of_literal (hparts part hpart)
    cases hw
    exact hget
  · intro i hi
    obtain ⟨newval, hdec, hget⟩ := cpeNameNew_stringOf hformat hnew (show i + 1 < 11 by omega)
    rw [hsplit, List.getD_cons_succ, getD_map_cpeText] at hdec
    have hpercent : CpeToken.plain (ascii '%') ∉ tss.getD i [] := by
      rcases Nat.lt_or_ge i tss.length with h | h
      · rw [List.getD_eq_getElem _ _ h]
        exact (plain_notMem_of_isBodyToken (htss _ (List.getElem_mem h))).2.1
      · rw [List.getD_eq_default _ _ h]
        exact List.not_mem_nil
    obtain ⟨us, hus, rfl⟩ := hdec.exists_tokenDecodes hpercent
    exact ⟨us, hus, hget⟩

/-- A string without a quoted colon is read when its percent signs are decoded. -/
theorem exists_cpeNameNew_stringOf {part : UInt8} {tss : List (List CpeToken)}
    (hpart : part ∈ bytes ['a', 'h', 'o', '*', '-'])
    (htss : ∀ ts ∈ tss, ∀ t ∈ ts, IsBodyToken t) (hcolon : ∀ ts ∈ tss, .quoted (ascii ':') ∉ ts)
    (hformat : cpeNameGetFormatOfStr (stringOf part tss) = .string)
    (hdecodes : ∀ ts ∈ tss, ∃ us, TokenDecodes ts us) :
    ∃ cpe, cpeNameNew (some (stringOf part tss)) = some cpe := by
  have hsplit := oscapSplit_bodyTokens hpart htss hcolon
  have hdrop : (stringOf part tss).drop 8 = cpeText (bodyTokens part tss) := rfl
  rw [cpeNameNew_of_string hformat, hdrop]
  refine exists_setFields _ _ fun field hfield => ?_
  have hmem := List.mem_of_mem_take hfield
  have hnocolon : ascii ':' ∉ field := not_mem_of_mem_splitOn hmem
  rw [cpestringCompDecode_eq hnocolon]
  rw [hsplit] at hmem
  rcases List.mem_cons.mp hmem with rfl | hmem
  · have hparts : ∀ c ∈ bytes ['a', 'h', 'o', '*', '-'], c ≠ ascii '%' :=
      forall_mem_of_all (by decide)
    exact ⟨_, (UrlDecodes.literal (hparts part hpart) .nil).cpeUrldecode_eq⟩
  · obtain ⟨ts, hts, rfl⟩ := List.mem_map.mp hmem
    obtain ⟨us, hus⟩ := hdecodes ts hts
    exact ⟨_, (hus.urlDecodes (plain_notMem_of_isBodyToken (htss ts hts)).2.1).cpeUrldecode_eq⟩

/-! ### Printing -/

/-- What is printed as a formatted string: the encoded attributes between colons. -/
theorem getAsFormat_string_iff {cpe : CpeName} {str : List UInt8} :
    cpeNameGetAsFormat cpe .string = some str ↔
      ∃ parts : List (List UInt8),
        (List.range 11).map (fun i => cpestringCompEncode (asStr (cpeGetField cpe i))) =
          parts.map some ∧
        str = stringScheme ++ [ascii ':'].intercalate parts := by
  unfold cpeNameGetAsFormat
  simp only [Option.bind_eq_bind, Option.bind_eq_some_iff, Option.pure_def, Option.some.injEq,
    mapM_eq_some_iff]
  exact exists_congr fun parts => and_congr_right fun _ => eq_comm

/-- The tokens of a text that is accepted. -/
theorem isBodyToken_of_accepted {ts : List CpeToken} (hts : .plain (ascii '\\') ∉ ts)
    (h : cpeNameGetFormatOfStr (stringScheme ++ cpeText ts) = .string) {t : CpeToken}
    (ht : t ∈ ts) :
    (∃ part ∈ bytes ['a', 'h', 'o', '*', '-'], t = .plain part) ∨ t = .plain (ascii ':') ∨
      IsBodyToken t := by
  obtain ⟨part, hpart, tss, -, htss, heq⟩ := exists_bodyTokens h
  have hbody := backslash_notMem_bodyTokens hpart
    fun us hus => (plain_notMem_of_isBodyToken (htss us hus)).1
  rw [cpeText_inj hts hbody (List.append_cancel_left heq)] at ht
  rcases mem_bodyTokens.mp ht with rfl | ⟨us, hus, rfl | ht⟩
  · exact .inl ⟨part, hpart, rfl⟩
  · exact .inr (.inl rfl)
  · exact .inr (.inr (htss us hus t ht))

/-- The encoded attributes of a name that is printed. -/
theorem getD_of_map_eq {α : Type} {f : Nat → Option α} {n : Nat} {parts : List α} {d : α}
    (h : (List.range n).map f = parts.map some) :
    parts.length = n ∧ ∀ i < n, f i = some (parts.getD i d) := by
  have hlen : parts.length = n := by
    have := congrArg List.length h
    simpa using this.symm
  refine ⟨hlen, fun i hi => ?_⟩
  have hget := congrArg (fun l : List (Option α) => l[i]?) h
  simp only [List.getElem?_map, List.getElem?_range hi, Option.map_some] at hget
  rw [List.getElem?_eq_getElem (by omega), Option.map_some, Option.some.injEq] at hget
  rw [hget, List.getD_eq_getElem _ _ (by omega)]

theorem getD_map_range {α : Type} (f : Nat → α) {n i : Nat} (h : i < n) (d : α) :
    ((List.range n).map f).getD i d = f i := by
  rw [List.getD_eq_getElem _ _ (by simpa using h), List.getElem_map, List.getElem_range]

theorem storedText_part (part : UInt8) (hpart : part ∈ bytes ['a', 'h', 'o', '*', '-']) :
    asStr (storedText 0 [part]) = if part ∈ knownParts then [part] else [] := by
  have hall : ∀ c ∈ bytes ['a', 'h', 'o', '*', '-'],
      asStr (storedText 0 [c]) = if c ∈ knownParts then [c] else [] := forall_mem_of_all (by decide)
  exact hall part hpart

/-- A name has a part and the texts of ten token lists as its attributes. -/
structure CpeName.HasAttributes (cpe : CpeName) (part : UInt8) (u : Nat → List CpeToken) :
    Prop where
  part : cpeGetField cpe 0 = storedText 0 [part]
  rest : ∀ i < 10, cpeGetField cpe (i + 1) = storedText (i + 1) (cpeText (u i))

/-- The encoded attributes. -/
def encodedAttributes (u : Nat → List CpeToken) : List (List CpeToken) :=
  (List.range 10).map fun i => (u i).flatMap encodeToken

theorem backslash_notMem_encodedAttributes (u : Nat → List CpeToken) :
    ∀ ts ∈ encodedAttributes u, .plain (ascii '\\') ∉ ts := by
  intro ts hts
  obtain ⟨i, -, rfl⟩ := List.mem_map.mp hts
  exact plain_notMem_encode (u i)

/-- Nothing is accepted that starts with a colon after the scheme. -/
theorem not_accepted_colon (text : List UInt8) :
    cpeNameGetFormatOfStr (stringScheme ++ ascii ':' :: text) ≠ .string := by
  intro h
  obtain ⟨part, hpart, tss, -, -, heq⟩ := exists_bodyTokens h
  have hparts : ∀ c ∈ bytes ['a', 'h', 'o', '*', '-'], ascii ':' ≠ c :=
    forall_mem_of_all (by decide)
  exact hparts part hpart (List.cons.inj (List.append_cancel_left heq)).1

/-- What is printed and accepted has a known part, and the encoded attributes. -/
theorem printed_eq_stringOf {part : UInt8} {u : Nat → List CpeToken} {cpe : CpeName}
    {str : List UInt8} (hpart : part ∈ bytes ['a', 'h', 'o', '*', '-'])
    (hattributes : cpe.HasAttributes part u) (hback : ∀ i < 10, .plain (ascii '\\') ∉ u i)
    (hprint : cpeNameGetAsFormat cpe .string = some str)
    (hformat : cpeNameGetFormatOfStr str = .string) :
    part ∈ knownParts ∧ str = stringOf part (encodedAttributes u) := by
  obtain ⟨parts, hparts, rfl⟩ := getAsFormat_string_iff.mp hprint
  obtain ⟨hlength, hencode⟩ := getD_of_map_eq (d := []) hparts
  obtain ⟨p, rest, rfl⟩ : ∃ p rest, parts = p :: rest :=
    List.exists_cons_of_ne_nil (by rintro rfl; cases hlength)
  have hrest : rest = (encodedAttributes u).map cpeText := by
    rw [List.length_cons] at hlength
    refine List.ext_getElem (by simp [encodedAttributes]; omega) fun i hi _ => ?_
    have henc := hencode (i + 1) (by omega)
    rw [hattributes.rest i (by omega), storedText_of_pos (by omega), asStr_cpeFieldText,
      cpestringCompEncode_cpeText (hback i (by omega)), Option.some.injEq, List.getD_cons_succ,
      List.getD_eq_getElem _ _ hi] at henc
    rw [← henc]
    simp [encodedAttributes]
  have hp : cpestringCompEncode (if part ∈ knownParts then [part] else []) = some p := by
    have h0 := hencode 0 (by omega)
    rwa [hattributes.part, storedText_part part hpart, List.getD_cons_zero] at h0
  -- an unknown part is printed as nothing, which is not accepted
  have hknown : part ∈ knownParts := by
    by_contra hunknown
    rw [if_neg hunknown] at hp
    obtain rfl : [] = p := Option.some.inj hp
    obtain ⟨q, qs, rfl⟩ : ∃ q qs, rest = q :: qs :=
      List.exists_cons_of_ne_nil (by rintro rfl; cases hlength)
    rw [intercalate_cons] at hformat
    exact not_accepted_colon _ hformat
  refine ⟨hknown, ?_⟩
  rw [if_pos hknown] at hp
  have hknown' : ∀ c ∈ knownParts, cpestringCompEncode [c] = some [c] :=
    forall_mem_of_all (by decide)
  obtain rfl : [part] = p := Option.some.inj ((hknown' part hknown).symm.trans hp)
  rw [stringOf, cpeText_bodyTokens, hrest]

/-- Encoded attributes that are accepted were not changed by encoding. -/
theorem kept_of_accepted {part : UInt8} {u : Nat → List CpeToken}
    (hpart : part ∈ bytes ['a', 'h', 'o', '*', '-'])
    (hcolon : ∀ i < 10, .plain (ascii ':') ∉ u i)
    (hformat : cpeNameGetFormatOfStr (stringOf part (encodedAttributes u)) = .string) :
    ∀ i < 10, (∀ c, .plain c ∈ u i → isKept c) ∧ ∀ c, .quoted c ∈ u i → c ∈ quotedChars := by
  intro i hi
  have haccepted : ∀ t ∈ (u i).flatMap encodeToken,
      (∃ part ∈ bytes ['a', 'h', 'o', '*', '-'], t = .plain part) ∨ t = .plain (ascii ':') ∨
        IsBodyToken t := by
    intro t ht
    refine isBodyToken_of_accepted (backslash_notMem_bodyTokens hpart
      (backslash_notMem_encodedAttributes u)) hformat (mem_bodyTokens.mpr (.inr ⟨_, ?_, .inr ht⟩))
    exact List.mem_map.mpr ⟨i, List.mem_range.mpr hi, rfl⟩
  constructor
  · -- a character that is not kept makes a percent sign, which is not accepted plain
    intro c hc
    by_contra hnot
    have hparts : ∀ c ∈ bytes ['a', 'h', 'o', '*', '-'], ascii '%' ≠ c :=
      forall_mem_of_all (by decide)
    have hcolon' : c ≠ ascii ':' := fun h => hcolon i hi (h ▸ hc)
    rcases haccepted _ (percent_mem_encode hc hnot hcolon') with ⟨q, hq, h⟩ | h | h
    · exact hparts q hq (CpeToken.plain.inj h)
    · exact absurd h (by decide)
    · exact (isBodyToken_plain_ne h).2.1 rfl
  · intro c hc
    have hmem : .quoted c ∈ (u i).flatMap encodeToken :=
      List.mem_flatMap.mpr ⟨_, hc, List.mem_cons_self⟩
    rcases haccepted _ hmem with ⟨q, hq, h⟩ | h | h
    · cases h
    · cases h
    · exact h

/-- **What a name that survives tells about its string.** -/
theorem safe_of_roundTrips {part : UInt8} {tss : List (List CpeToken)} {cpe : CpeName}
    (hpart : part ∈ bytes ['a', 'h', 'o', '*', '-']) (hlen : tss.length = 10)
    (htss : ∀ ts ∈ tss, ∀ t ∈ ts, IsBodyToken t)
    (hformat : cpeNameGetFormatOfStr (stringOf part tss) = .string)
    (hnew : cpeNameNew (some (stringOf part tss)) = some cpe) (h : cpe.RoundTrips .string) :
    part ∈ knownParts ∧ ∀ ts ∈ tss, .quoted (ascii ':') ∉ ts ∧
      (∀ c, .plain c ∈ ts → isxdigit c = false → isKept c) ∧ PercentSafe ts := by
  obtain ⟨str, cpe', hprint, hformat', hnew', hsame⟩ := h
  have hencode : ∀ idx < 11, cpestringCompEncode (asStr (cpeGetField cpe idx)) ≠ none := by
    obtain ⟨parts, hparts, -⟩ := getAsFormat_string_iff.mp hprint
    intro idx hidx
    rw [(getD_of_map_eq (d := []) hparts).2 idx hidx]
    exact Option.some_ne_none _
  have hcolon := quotedColon_notMem hpart hlen htss hformat hnew hencode
  obtain ⟨hget0, hgets⟩ := attributes_stringOf hpart htss hcolon hformat hnew
  choose! u hu hgetu using hgets
  have hplain : ∀ i < 10, ∀ c, .plain c ∈ u i → IsBodyToken (.plain c) := by
    intro i hi c hc
    refine htss (tss.getD i []) ?_ _ ((hu i hi).plain_mem hc)
    rw [List.getD_eq_getElem _ _ (by omega)]
    exact List.getElem_mem _
  have hback : ∀ i < 10, .plain (ascii '\\') ∉ u i :=
    fun i hi h => (isBodyToken_plain_ne (hplain i hi _ h)).1 rfl
  obtain ⟨hknown, rfl⟩ := printed_eq_stringOf hpart ⟨hget0, hgetu⟩ hback hprint hformat'
  have hkept := kept_of_accepted hpart
    (fun i hi h => (isBodyToken_plain_ne (hplain i hi _ h)).2.2 rfl) hformat'
  have hbody : ∀ i < 10, ∀ t ∈ u i, IsBodyToken t := by
    intro i hi t ht
    cases t with
    | plain c => exact hplain i hi c ht
    | quoted c => exact (hkept i hi).2 c ht
  -- the printed attributes are the attributes
  have hself : encodedAttributes u = (List.range 10).map u :=
    List.map_congr_left fun i hi => flatMap_encodeToken (hkept i (List.mem_range.mp hi)).1
  rw [hself] at hformat' hnew'
  have huBody : ∀ ts ∈ (List.range 10).map u, ∀ t ∈ ts, IsBodyToken t := by
    intro ts hts
    obtain ⟨i, hi, rfl⟩ := List.mem_map.mp hts
    exact hbody i (List.mem_range.mp hi)
  have hcolon' := quotedColon_notMem hpart (by simp) huBody hformat' hnew' fun idx hidx => by
    rw [← hsame idx hidx]
    exact hencode idx hidx
  have hpercent : ∀ i < 10, .quoted (ascii '%') ∉ u i := by
    intro i hi hmem
    obtain ⟨us, hus, hgetus⟩ := (attributes_stringOf hpart huBody hcolon' hformat' hnew').2 i hi
    rw [getD_map_range u hi] at hus
    have hsame' := hsame (i + 1) (by omega)
    rw [hgetu i hi, hgetus, storedText_inj (by omega)] at hsame'
    have husBack : .plain (ascii '\\') ∉ us := fun h => hback i hi (hus.plain_mem h)
    rw [← cpeText_inj (hback i hi) husBack hsame'] at hus
    exact absurd (hus.length_le.2 hmem) (lt_irrefl _)
  refine ⟨hknown, fun ts hts => ⟨hcolon ts hts, ?_, ?_⟩⟩
  all_goals
    obtain ⟨i, hi, rfl⟩ := List.getElem_of_mem hts
    have hi' : i < 10 := by omega
    have hdec := hu i hi'
    rw [List.getD_eq_getElem _ _ hi] at hdec
  · intro c hc hx
    refine (hkept i hi').1 c (hdec.mem_of_mem hc (by simp) fun d hd => ?_)
    rw [← CpeToken.plain.inj hd]
    exact hx
  · refine hdec.percentSafe fun b hb => ⟨hbody i hi' _ hb, ?_, ?_⟩
    · rintro rfl
      exact hcolon' (u i) (List.mem_map.mpr ⟨i, List.mem_range.mpr hi', rfl⟩) hb
    · rintro rfl
      exact hpercent i hi' hb

/-- Safe attributes are decoded to attributes. -/
theorem AttributeTokens.exists_tokenDecodes {ts : List CpeToken} (h : AttributeTokens ts)
    (hsafe : PercentSafe ts) (hquestion : .plain (ascii '?') ∉ ts) :
    ∃ us, TokenDecodes ts us ∧ AttributeTokens us ∧
      ∀ t ∈ us, (t ∈ ts ∧ t ≠ .quoted (ascii '%')) ∨
        ∃ b ∈ quotedChars, b ≠ ascii ':' ∧ b ≠ ascii '%' ∧ t = .quoted b := by
  have hlogical : ∀ c, c ≠ ascii '?' → AttributeTokens [.plain c] → ∃ us,
      TokenDecodes [.plain c] us ∧ AttributeTokens us ∧
      ∀ t ∈ us, (t ∈ [CpeToken.plain c] ∧ t ≠ .quoted (ascii '%')) ∨
        ∃ b ∈ quotedChars, b ≠ ascii ':' ∧ b ≠ ascii '%' ∧ t = .quoted b := by
    intro c _ hc
    refine ⟨[.plain c], tokenDecodes_self (by simp), hc, fun t ht => .inl ⟨ht, ?_⟩⟩
    rw [List.mem_singleton.mp ht]
    exact CpeToken.noConfusion
  have hfull := h
  rcases h with ⟨front, core, back, hfront, hne, hcore, hback, rfl⟩ | rfl | rfl
  · simp only [List.mem_append, not_or] at hquestion
    -- without question marks the wildcards are nothing or an asterisk
    have hwild : ∀ {ws : List CpeToken}, IsWildcard ws → .plain (ascii '?') ∉ ws →
        (∀ t ∈ ws, t = .plain (ascii '*')) := by
      intro ws hws hnot t ht
      rcases hws with h | rfl
      · exact absurd (h t ht ▸ ht) hnot
      · exact List.mem_singleton.mp ht
    have hfront' := hwild hfront hquestion.1.1
    have hback' := hwild hback hquestion.2
    have hstar : ∀ {ws : List CpeToken}, (∀ t ∈ ws, t = .plain (ascii '*')) →
        .quoted (ascii '%') ∉ ws := by
      intro ws hws hmem
      cases hws _ hmem
    have hhead : ∀ {ws : List CpeToken}, (∀ t ∈ ws, t = .plain (ascii '*')) →
        ∀ c, ws.head? = some (.plain c) → isxdigit c = false := by
      intro ws hws c hc
      rw [CpeToken.plain.inj (hws _ (List.mem_of_mem_head? hc))]
      decide
    rw [percentSafe_append (hhead hback')] at hsafe
    have hsafeCore := (percentSafe_append_left (hstar hfront')).mp hsafe.1
    obtain ⟨us, hus, hne', hmem⟩ := hsafeCore.exists_tokenDecodes
    refine ⟨front ++ us ++ back,
      ((tokenDecodes_self (hstar hfront')).append hus).append (tokenDecodes_self (hstar hback')),
      .inl ⟨front, us, back, hfront, hne' hne, fun t ht => ?_, hback, rfl⟩, fun t ht => ?_⟩
    · rcases hmem t ht with h | ⟨b, hb, -, -, rfl⟩
      · exact hcore t h.1
      · exact hb
    · rcases List.mem_append.mp ht with ht | ht
      · rcases List.mem_append.mp ht with ht | ht
        · exact .inl ⟨by simp [ht], fun h => hstar hfront' (h ▸ ht)⟩
        · exact (hmem t ht).imp_left fun h => ⟨by simp [h.1], h.2⟩
      · exact .inl ⟨by simp [ht], fun h => hstar hback' (h ▸ ht)⟩
  · exact hlogical _ (by decide) hfull
  · exact hlogical _ (by decide) hfull

/-- Attributes that are read and printed as they are. -/
structure CleanTokens (ts : List CpeToken) : Prop where
  body : ∀ t ∈ ts, IsBodyToken t
  kept : ∀ c, .plain c ∈ ts → isKept c
  colon : .quoted (ascii ':') ∉ ts
  percent : .quoted (ascii '%') ∉ ts

theorem getD_map_of_lt {α β : Type} (f : α → β) (l : List α) {i : Nat} (h : i < l.length) (a : α)
    (b : β) : (l.map f).getD i b = f (l.getD i a) := by
  rw [List.getD_eq_getElem _ _ (by rwa [List.length_map]), List.getElem_map,
    List.getD_eq_getElem _ _ h]

/-- **A string whose attributes decode to clean ones is read, and its name survives.** -/
theorem roundTrips_of_clean {part : UInt8} {tss : List (List CpeToken)}
    {f : List CpeToken → List CpeToken} (hpart : part ∈ knownParts) (hlen : tss.length = 10)
    (htss : ∀ ts ∈ tss, ∀ t ∈ ts, IsBodyToken t) (hcolon : ∀ ts ∈ tss, .quoted (ascii ':') ∉ ts)
    (hformat : cpeNameGetFormatOfStr (stringOf part tss) = .string)
    (hdecodes : ∀ ts ∈ tss, TokenDecodes ts (f ts)) (hclean : ∀ ts ∈ tss, CleanTokens (f ts))
    (hformat' : cpeNameGetFormatOfStr (stringOf part (tss.map f)) = .string) :
    ∃ cpe, cpeNameNew (some (stringOf part tss)) = some cpe ∧ cpe.RoundTrips .string := by
  have hpart' : part ∈ bytes ['a', 'h', 'o', '*', '-'] := by
    have hall : ∀ c ∈ knownParts, c ∈ bytes ['a', 'h', 'o', '*', '-'] :=
      forall_mem_of_all (by decide)
    exact hall part hpart
  have hclean' : ∀ us ∈ tss.map f, CleanTokens us := by
    intro us hus
    obtain ⟨ts, hts, rfl⟩ := List.mem_map.mp hus
    exact hclean ts hts
  have hmem : ∀ i < 10, tss.getD i [] ∈ tss := by
    intro i hi
    rw [List.getD_eq_getElem _ _ (by omega)]
    exact List.getElem_mem _
  have hgetD : ∀ i < 10, (tss.map f).getD i [] = f (tss.getD i []) := fun i hi =>
    getD_map_of_lt f tss (by omega) [] []
  obtain ⟨cpe, hnew⟩ := exists_cpeNameNew_stringOf hpart' htss hcolon hformat
    fun ts hts => ⟨f ts, hdecodes ts hts⟩
  obtain ⟨cpe', hnew'⟩ := exists_cpeNameNew_stringOf hpart' (fun us hus => (hclean' us hus).body)
    (fun us hus => (hclean' us hus).colon) hformat'
    fun us hus => ⟨us, tokenDecodes_self (hclean' us hus).percent⟩
  obtain ⟨hget0, hgets⟩ := attributes_stringOf hpart' htss hcolon hformat hnew
  obtain ⟨hget0', hgets'⟩ := attributes_stringOf hpart' (fun us hus => (hclean' us hus).body)
    (fun us hus => (hclean' us hus).colon) hformat' hnew'
  have hfield : ∀ i < 10, cpeGetField cpe (i + 1) =
      storedText (i + 1) (cpeText (f (tss.getD i []))) := by
    intro i hi
    obtain ⟨us, hus, hget⟩ := hgets i hi
    have hpercent := (plain_notMem_of_isBodyToken (htss _ (hmem i hi))).2.1
    have h₁ := (hus.urlDecodes hpercent).cpeUrldecode_eq
    have h₂ := ((hdecodes _ (hmem i hi)).urlDecodes hpercent).cpeUrldecode_eq
    rw [hget, Option.some.inj (h₁.symm.trans h₂)]
  have hfield' : ∀ i < 10, cpeGetField cpe' (i + 1) =
      storedText (i + 1) (cpeText (f (tss.getD i []))) := by
    intro i hi
    obtain ⟨us, hus, hget⟩ := hgets' i hi
    rw [hgetD i hi] at hus
    rw [hget, hus.eq_of_notMem (hclean _ (hmem i hi)).percent]
  refine ⟨cpe, hnew, stringOf part (tss.map f), cpe', ?_, hformat', hnew', fun idx hidx => ?_⟩
  · refine getAsFormat_string_iff.mpr ⟨[part] :: (tss.map f).map cpeText, ?_, ?_⟩
    · refine List.ext_getElem (by simp [hlen]) fun i hi _ => ?_
      rw [List.length_map, List.length_range] at hi
      rw [List.getElem_map, List.getElem_range, List.getElem_map]
      cases i with
      | zero =>
          have hknown : ∀ c ∈ knownParts, cpestringCompEncode [c] = some [c] :=
            forall_mem_of_all (by decide)
          rw [hget0, storedText_part part hpart', if_pos hpart, hknown part hpart]
          rfl
      | succ i =>
          have hi' : i < 10 := by omega
          have hc := hclean _ (hmem i hi')
          rw [hfield i hi', storedText_of_pos (by omega), asStr_cpeFieldText,
            cpestringCompEncode_cpeText (plain_notMem_of_isBodyToken hc.body).1,
            flatMap_encodeToken hc.kept, List.getElem_cons_succ, List.getElem_map,
            List.getElem_map, List.getD_eq_getElem _ _ (by omega)]
    · rw [stringOf, cpeText_bodyTokens]
  · cases idx with
    | zero => rw [hget0, hget0']
    | succ i => rw [hfield i (by omega), hfield' i (by omega)]

/-! ### The strings that survive -/

/-- The part is known, no colon is quoted, no question mark stands unquoted, no newline is at
the end, and a quoted percent sign is followed by the digits of a character that may be quoted
and is neither a colon nor a percent sign. -/
structure StringRoundTrips (s : List UInt8) : Prop where
  part : ∃ c ∈ knownParts, s[8]? = some c
  colon : .quoted (ascii ':') ∉ cpeTokens s
  question : .plain (ascii '?') ∉ cpeTokens s
  newline : .plain (ascii '\n') ∉ cpeTokens s
  percent : PercentSafe (cpeTokens s)

theorem stringRoundTrips_iff {part : UInt8} {tss : List (List CpeToken)}
    (hpart : part ∈ bytes ['a', 'h', 'o', '*', '-'])
    (htss : ∀ ts ∈ tss, ∀ t ∈ ts, IsBodyToken t) :
    StringRoundTrips (stringOf part tss) ↔ part ∈ knownParts ∧ ∀ ts ∈ tss,
      .quoted (ascii ':') ∉ ts ∧ .plain (ascii '?') ∉ ts ∧ .plain (ascii '\n') ∉ ts ∧
        PercentSafe ts := by
  have htokens : cpeTokens (stringOf part tss) =
      stringScheme.map .plain ++ bodyTokens part tss :=
    cpeTokens_string (backslash_notMem_bodyTokens hpart fun ts hts =>
      (plain_notMem_of_isBodyToken (htss ts hts)).1)
  have h8 : (stringOf part tss)[8]? = some part := rfl
  have hmem : ∀ t, t ∉ stringScheme.map CpeToken.plain → t ≠ .plain part →
      t ≠ .plain (ascii ':') → (t ∈ cpeTokens (stringOf part tss) ↔ ∃ ts ∈ tss, t ∈ ts) := by
    intro t hscheme hp hc
    rw [htokens, List.mem_append, or_iff_right hscheme, mem_bodyTokens, or_iff_right hp]
    exact exists_congr fun ts => and_congr_right fun _ => or_iff_right hc
  have hparts : ∀ c ∈ bytes ['a', 'h', 'o', '*', '-'], ascii '?' ≠ c ∧ ascii '\n' ≠ c :=
    forall_mem_of_all (by decide)
  have hcolon := hmem (.quoted (ascii ':')) (by decide) (by simp) (by simp)
  have hquestion := hmem (.plain (ascii '?')) (by decide)
    (fun h => (hparts part hpart).1 (CpeToken.plain.inj h)) (by decide)
  have hnewline := hmem (.plain (ascii '\n')) (by decide)
    (fun h => (hparts part hpart).2 (CpeToken.plain.inj h)) (by decide)
  have hpercent : PercentSafe (cpeTokens (stringOf part tss)) ↔ ∀ ts ∈ tss, PercentSafe ts := by
    rw [htokens, percentSafe_append_left (by decide), percentSafe_bodyTokens]
  constructor
  · rintro ⟨⟨c, hc, h⟩, h₁, h₂, h₃, h₄⟩
    rw [h8, Option.some.injEq] at h
    rw [hcolon] at h₁
    rw [hquestion] at h₂
    rw [hnewline] at h₃
    exact ⟨h ▸ hc, fun ts hts => ⟨fun h => h₁ ⟨ts, hts, h⟩, fun h => h₂ ⟨ts, hts, h⟩,
      fun h => h₃ ⟨ts, hts, h⟩, hpercent.mp h₄ ts hts⟩⟩
  · rintro ⟨hknown, h⟩
    refine ⟨⟨part, hknown, h8⟩, ?_, ?_, ?_, hpercent.mpr fun ts hts => (h ts hts).2.2.2⟩
    · rw [hcolon]
      rintro ⟨ts, hts, hmem⟩
      exact (h ts hts).1 hmem
    · rw [hquestion]
      rintro ⟨ts, hts, hmem⟩
      exact (h ts hts).2.1 hmem
    · rw [hnewline]
      rintro ⟨ts, hts, hmem⟩
      exact (h ts hts).2.2.1 hmem

/-- The decoded tokens of a safe attribute are clean. -/
theorem cleanTokens_of_decoded {ts us : List CpeToken} (hts : ∀ t ∈ ts, IsBodyToken t)
    (hcolon : .quoted (ascii ':') ∉ ts) (hquestion : .plain (ascii '?') ∉ ts)
    (hnewline : .plain (ascii '\n') ∉ ts)
    (hus : ∀ t ∈ us, (t ∈ ts ∧ t ≠ .quoted (ascii '%')) ∨
      ∃ b ∈ quotedChars, b ≠ ascii ':' ∧ b ≠ ascii '%' ∧ t = .quoted b) : CleanTokens us where
  body t ht := by
    rcases hus t ht with h | ⟨b, hb, -, -, rfl⟩
    · exact hts t h.1
    · exact hb
  kept c hc := by
    have hall := @forall_byte (fun c => (isalnum c ∨ c ∈ bytes ['-', '.', '_']) ∨
      c ∈ bytes ['?', '*', '\n'] → c ≠ ascii '?' → c ≠ ascii '\n' → isKept c)
      (by decide +kernel) c
    rcases hus _ hc with h | ⟨b, -, -, -, h⟩
    · have hbody : IsBodyToken (.plain c) := hts _ h.1
      refine hall (hbody.imp_left mem_unreservedChars.mp) ?_ ?_
      · rintro rfl
        exact hquestion h.1
      · rintro rfl
        exact hnewline h.1
    · cases h
  colon hmem := by
    rcases hus _ hmem with h | ⟨b, -, hb, -, h⟩
    · exact hcolon h.1
    · exact hb (CpeToken.quoted.inj h).symm
  percent hmem := by
    rcases hus _ hmem with h | ⟨b, -, -, hb, h⟩
    · exact h.2 rfl
    · exact hb (CpeToken.quoted.inj h).symm

/-- **The formatted-string round trip.** An accepted string is read, and its name survives
printing and reading, if and only if its part is known and its quoted characters, question
marks and percent signs are as the encoder and the decoder expect. -/
theorem string_roundTrips_iff {s : List UInt8} (hformat : cpeNameGetFormatOfStr s = .string) :
    (∃ cpe, cpeNameNew (some s) = some cpe ∧ cpe.RoundTrips .string) ↔ StringRoundTrips s := by
  constructor
  · rintro ⟨cpe, hnew, h⟩
    obtain ⟨part, hpart, tss, hlen, htss, rfl⟩ := exists_bodyTokens hformat
    obtain ⟨hknown, hsafe⟩ := safe_of_roundTrips hpart hlen htss hformat hnew h
    refine (stringRoundTrips_iff hpart htss).mpr ⟨hknown, fun ts hts => ?_⟩
    obtain ⟨hcolon, hkept, hpercent⟩ := hsafe ts hts
    exact ⟨hcolon, fun h => absurd (hkept _ h (by decide)) (by decide),
      fun h => absurd (hkept _ h (by decide)) (by decide), hpercent⟩
  · intro h
    obtain ⟨part, hpart, front, lang, back, tail, hlen, hfront, hlang, hlen', hback, htail, rfl⟩ :=
      format_string_iff.mp hformat
    have hlangChars := mem_of_mem_languagePattern hlang
    have hlangTokens : ∀ t ∈ lang.map CpeToken.plain, IsBodyToken t := by
      intro t ht
      obtain ⟨c, hc, rfl⟩ := List.mem_map.mp ht
      rcases hlangChars c hc with h | rfl
      · exact .inl h
      · exact .inr (by decide)
    let tss := front ++ lang.map .plain :: back
    have htssLen : tss.length = 10 := by
      simp only [tss, List.length_append, List.length_cons]
      omega
    have hattribute : ∀ ts ∈ tss, AttributeTokens ts ∨ ts = lang.map .plain := by
      intro ts hts
      rcases List.mem_append.mp hts with hts | hts
      · exact .inl (hfront ts hts)
      · rcases List.mem_cons.mp hts with rfl | hts
        · exact .inr rfl
        · exact .inl (hback ts hts)
    have htss : ∀ ts ∈ tss, ∀ t ∈ ts, IsBodyToken t := by
      intro ts hts
      rcases hattribute ts hts with h | rfl
      · exact h.isBodyToken
      · exact hlangTokens
    have hfields : front.map cpeText ++ lang :: back.map cpeText = tss.map cpeText := by
      simp [tss, cpeText_map_plain]
    rw [hfields, ← cpeText_bodyTokens] at hformat h ⊢
    -- a newline at the end would be among the tokens
    obtain rfl : tail = [] := by
      rcases htail with rfl | rfl
      · rfl
      · exfalso
        have htokens := @cpeTokens_string (bodyTokens part tss ++ [.plain (ascii '\n')]) (by
          rw [List.mem_append, not_or]
          exact ⟨backslash_notMem_bodyTokens hpart fun ts hts =>
            (plain_notMem_of_isBodyToken (htss ts hts)).1, by decide⟩)
        rw [cpeText_append] at htokens
        have hnewline := h.newline
        rw [show [ascii '\n'] = cpeText [.plain (ascii '\n')] from rfl, htokens] at hnewline
        exact hnewline (by simp)
    rw [List.append_nil] at hformat h ⊢
    obtain ⟨hknown, hsafe⟩ := (stringRoundTrips_iff hpart htss).mp h
    have hdecoded : ∀ ts ∈ tss, ∃ us, TokenDecodes ts us ∧ CleanTokens us ∧
        (AttributeTokens ts → AttributeTokens us) := by
      intro ts hts
      obtain ⟨hcolon, hquestion, hnewline, hpercent⟩ := hsafe ts hts
      have hclean := fun us => @cleanTokens_of_decoded ts us (htss ts hts) hcolon hquestion
        hnewline
      rcases hattribute ts hts with hattr | rfl
      · obtain ⟨us, hus, hattr', hmem⟩ := hattr.exists_tokenDecodes hpercent hquestion
        exact ⟨us, hus, hclean us hmem, fun _ => hattr'⟩
      · refine ⟨_, tokenDecodes_self (by simp), hclean _ fun t ht => .inl ⟨ht, ?_⟩, id⟩
        obtain ⟨c, -, rfl⟩ := List.mem_map.mp ht
        exact CpeToken.noConfusion
    choose! f hf using hdecoded
    have hflang : f (lang.map .plain) = lang.map .plain :=
      (hf _ (by simp [tss])).1.eq_of_notMem (by simp)
    refine roundTrips_of_clean (f := f) hknown htssLen htss (fun ts hts => (hsafe ts hts).1) hformat
      (fun ts hts => (hf ts hts).1) (fun ts hts => (hf ts hts).2.1) ?_
    refine format_string_iff.mpr ⟨part, hpart, front.map f, lang, back.map f, [],
      by simpa using hlen, ?_, hlang, by simpa using hlen', ?_, .inl rfl, ?_⟩
    · intro us hus
      obtain ⟨ts, hts, rfl⟩ := List.mem_map.mp hus
      exact (hf ts (List.mem_append_left _ hts)).2.2 (hfront ts hts)
    · intro us hus
      obtain ⟨ts, hts, rfl⟩ := List.mem_map.mp hus
      refine (hf ts (List.mem_append_right _ (List.mem_cons_of_mem _ hts))).2.2 (hback ts hts)
    · rw [stringOf, cpeText_bodyTokens, List.append_nil]
      simp only [tss, List.map_append, List.map_cons, hflang, cpeText_map_plain]

/-- A string with a quoted character. -/
def quotedString : List UInt8 :=
  bytes ['c', 'p', 'e', ':', '2', '.', '3', ':', 'a', ':', '\\', '!', ':', '*', ':', '*', ':', '*',
    ':', '-', ':', '*', ':', '*', ':', '*', ':', '*', ':', '*']

/-- A string is accepted whose first attribute is a core and what may stand at its end, and whose
others are logical values. -/
theorem format_firstAttribute {front : List (List CpeToken)} {core back : List CpeToken}
    (hcore : core ≠ []) (htokens : ∀ t ∈ core, IsCoreToken t) (hback : IsWildcard back)
    (hlen : front.length = 4)
    (hfront : ∀ ts ∈ front, ts = [.plain (ascii '*')] ∨ ts = [.plain (ascii '-')]) :
    cpeNameGetFormatOfStr (stringOf (ascii 'a') ((core ++ back) :: (front ++
      List.replicate 5 [.plain (ascii '*')]))) = .string := by
  refine format_string_iff.mpr ⟨ascii 'a', by decide, (core ++ back) :: front, [ascii '*'],
    List.replicate 4 [.plain (ascii '*')], [], by rw [List.length_cons, hlen], ?_,
    (rmatch_iff_matches' _ _).mp (by decide +kernel), rfl, ?_, .inl rfl, ?_⟩
  · intro ts hts
    rcases List.mem_cons.mp hts with rfl | hts
    · exact .inl ⟨[], core, back, .inl (by simp), hcore, htokens, hback, rfl⟩
    · exact .inr (hfront ts hts)
  · intro ts hts
    exact .inr (.inl (List.eq_of_mem_replicate hts))
  · rw [stringOf, cpeText_bodyTokens, List.append_nil, List.map_cons, List.map_append,
      List.map_cons]
    rfl

theorem string_roundTrips_iff_quotedString :
    ∃ cpe, cpeNameNew (some quotedString) = some cpe ∧ cpe.RoundTrips .string := by
  have hformat : cpeNameGetFormatOfStr quotedString = .string :=
    @format_firstAttribute [[.plain (ascii '*')], [.plain (ascii '*')], [.plain (ascii '*')],
        [.plain (ascii '-')]] [.quoted (ascii '!')] [] (by simp)
      (fun t ht => List.mem_singleton.mp ht ▸ (by decide : ascii '!' ∈ quotedChars))
      (.inl (by simp)) rfl (by simp)
  refine (string_roundTrips_iff hformat).mpr
    ⟨⟨ascii 'a', by decide, rfl⟩, by decide +kernel, by decide +kernel, by decide +kernel, ?_⟩
  rw [← List.append_nil (cpeTokens quotedString), percentSafe_append_left (by decide +kernel)]
  trivial

/-- A string with an unquoted question mark. -/
def questionString : List UInt8 :=
  bytes ['c', 'p', 'e', ':', '2', '.', '3', ':', 'a', ':', 'x', '?', ':', '*', ':', '*', ':', '*',
    ':', '*', ':', '*', ':', '*', ':', '*', ':', '*', ':', '*']

/-- The question mark is printed as `%3F`, which is not accepted. -/
theorem not_string_roundTrips : ¬ ∀ s cpe, cpeNameGetFormatOfStr s = .string →
    cpeNameNew (some s) = some cpe → cpe.RoundTrips .string := by
  intro h
  have hformat : cpeNameGetFormatOfStr questionString = .string :=
    @format_firstAttribute (List.replicate 4 [.plain (ascii '*')]) [.plain (ascii 'x')]
      [.plain (ascii '?')] (by simp)
      (fun t ht => List.mem_singleton.mp ht ▸ (by decide +kernel : ascii 'x' ∈ unreservedChars))
      (.inl (by simp)) rfl (by simp)
  obtain ⟨str, cpe', hprint, hformat', -⟩ := h questionString
    ⟨.string, .app, some (bytes ['x', '?']), some (bytes ['*']), some (bytes ['*']),
      some (bytes ['*']), some (bytes ['*']), some (bytes ['*']), some (bytes ['*']),
      some (bytes ['*']), some (bytes ['*']), some (bytes ['*'])⟩ hformat (by
    rw [cpeNameNew_of_string hformat]
    decide +kernel)
  have hstr : str = bytes ['c', 'p', 'e', ':', '2', '.', '3', ':', 'a', ':', 'x', '%', '3', 'F',
      ':', '*', ':', '*', ':', '*', ':', '*', ':', '*', ':', '*', ':', '*', ':', '*', ':', '*'] :=
    (Option.some.inj hprint).symm.trans (by decide +kernel)
  rw [hstr] at hformat'
  exact absurd hformat' (by decide +kernel)

end OpenScap
