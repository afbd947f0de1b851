import OpenScap.CpeUrlcode

/-!
# Tokens of CPE formatted strings

A character of a formatted string may be quoted by a backslash. Decoding and encoding go token
by token, which is how the texts of the attributes are compared.

## Main results

* `UrlDecodes.exists_tokenDecodes`, `TokenDecodes.urlDecodes` — decoding, as a relation on tokens;
* `cpestringCompEncode_cpeText` — encoding, token by token;
* `PercentSafe.exists_tokenDecodes` — when percent signs are decoded.
-/

namespace OpenScap

/-! ### Tokens -/

/-- A character of a formatted string, quoted by a backslash or not. -/
inductive CpeToken
  | plain (c : UInt8)
  | quoted (c : UInt8)
  deriving DecidableEq, Repr

/-- The text of a token. -/
def CpeToken.text : CpeToken → List UInt8
  | .plain c => [c]
  | .quoted c => [ascii '\\', c]

/-- The text of tokens. -/
def cpeText (ts : List CpeToken) : List UInt8 := ts.flatMap CpeToken.text

/-- The tokens of a text; a backslash at the end quotes nothing. -/
def cpeTokens : List UInt8 → List CpeToken
  | [] => []
  | c :: rest =>
      if c = ascii '\\' then
        match rest with
        | d :: rest => .quoted d :: cpeTokens rest
        | [] => [.plain c]
      else .plain c :: cpeTokens rest

@[simp] theorem cpeText_nil : cpeText [] = [] := rfl

@[simp] theorem cpeText_plain (c : UInt8) (ts : List CpeToken) :
    cpeText (.plain c :: ts) = c :: cpeText ts := rfl

@[simp] theorem cpeText_quoted (c : UInt8) (ts : List CpeToken) :
    cpeText (.quoted c :: ts) = ascii '\\' :: c :: cpeText ts := rfl

@[simp] theorem cpeText_append (ts us : List CpeToken) :
    cpeText (ts ++ us) = cpeText ts ++ cpeText us := List.flatMap_append

theorem cpeText_map_plain (text : List UInt8) : cpeText (text.map .plain) = text := by
  induction text with
  | nil => rfl
  | cons c text ih => rw [List.map_cons, cpeText_plain, ih]

/-- The tokens of the text of tokens, none of which is a backslash that quotes nothing. -/
theorem cpeTokens_cpeText {ts : List CpeToken} (h : .plain (ascii '\\') ∉ ts) :
    cpeTokens (cpeText ts) = ts := by
  induction ts with
  | nil => rfl
  | cons t ts ih =>
      rw [List.mem_cons, not_or] at h
      cases t with
      | plain c =>
          have hc : c ≠ ascii '\\' := fun hc => h.1 (hc ▸ rfl)
          rw [cpeText_plain, cpeTokens.eq_def]
          simp only
          rw [if_neg hc, ih h.2]
      | quoted c =>
          rw [cpeText_quoted, cpeTokens.eq_def]
          simp only
          rw [if_pos trivial, ih h.2]

/-- What decoding does to tokens: a quoted percent sign takes two digits. -/
inductive TokenDecodes : List CpeToken → List CpeToken → Prop
  | nil : TokenDecodes [] []
  | keep {t : CpeToken} {ts us : List CpeToken} (ht : t ≠ .quoted (ascii '%'))
      (rest : TokenDecodes ts us) : TokenDecodes (t :: ts) (t :: us)
  | escape {h l : UInt8} {ts us : List CpeToken} (hx : isxdigit h ∧ isxdigit l)
      (hne : scanHex h l ≠ 0) (rest : TokenDecodes ts us) :
      TokenDecodes (.quoted (ascii '%') :: .plain h :: .plain l :: ts)
        (.quoted (scanHex h l) :: us)

theorem isxdigit_ne {c : UInt8} (h : isxdigit c = true) : c ≠ ascii '\\' ∧ c ≠ ascii '%' :=
  ⟨fun heq => absurd (heq ▸ h) (by decide), fun heq => absurd (heq ▸ h) (by decide)⟩

/-- Tokens that start with a hexadecimal digit. -/
theorem exists_plain_of_cpeText {ts : List CpeToken} {c : UInt8} {text : List UInt8}
    (hc : isxdigit c = true) (h : cpeText ts = c :: text) :
    ∃ ts', ts = .plain c :: ts' ∧ cpeText ts' = text := by
  cases ts with
  | nil => cases h
  | cons t ts =>
      cases t with
      | plain d =>
          obtain ⟨rfl, rfl⟩ := List.cons.inj h
          exact ⟨ts, rfl, rfl⟩
      | quoted d =>
          obtain ⟨rfl, -⟩ := List.cons.inj h
          exact absurd rfl (isxdigit_ne hc).1

/-- Texts whose percent signs are quoted are decoded token by token. -/
theorem UrlDecodes.exists_tokenDecodes {ts : List CpeToken} {v : List UInt8}
    (hts : .plain (ascii '%') ∉ ts) (h : UrlDecodes (cpeText ts) v) :
    ∃ us, TokenDecodes ts us ∧ v = cpeText us := by
  induction hn : ts.length using Nat.strongRecOn generalizing ts v with
  | ind n ih =>
      cases ts with
      | nil =>
          cases h
          exact ⟨[], .nil, rfl⟩
      | cons t ts =>
          rw [List.length_cons] at hn
          rw [List.mem_cons, not_or] at hts
          cases t with
          | plain c =>
              have hc : c ≠ ascii '%' := fun hc => hts.1 (hc ▸ rfl)
              rw [cpeText_plain] at h
              obtain ⟨w, rfl, hrest⟩ := h.of_literal hc
              obtain ⟨us, hus, rfl⟩ := ih ts.length (by omega) hts.2 hrest rfl
              exact ⟨.plain c :: us, .keep (by simp) hus, rfl⟩
          | quoted c =>
              rw [cpeText_quoted] at h
              obtain ⟨w, rfl, hrest⟩ := h.of_literal (by decide)
              by_cases hc : c = ascii '%'
              · subst hc
                obtain ⟨a, b, text, w, htext, rfl, hx, hne, hrest⟩ := hrest.of_escape
                obtain ⟨ts₁, rfl, h₁⟩ := exists_plain_of_cpeText hx.1 htext
                obtain ⟨ts₂, rfl, rfl⟩ := exists_plain_of_cpeText hx.2 h₁
                simp only [List.length_cons, List.mem_cons, not_or] at hn hts
                obtain ⟨us, hus, rfl⟩ := ih ts₂.length (by omega) hts.2.2.2 hrest rfl
                exact ⟨.quoted (scanHex a b) :: us, .escape hx hne hus, rfl⟩
              · obtain ⟨w, rfl, hrest'⟩ := hrest.of_literal hc
                obtain ⟨us, hus, rfl⟩ := ih ts.length (by omega) hts.2 hrest' rfl
                exact ⟨.quoted c :: us, .keep (fun h => hc (CpeToken.quoted.inj h)) hus, rfl⟩

theorem TokenDecodes.urlDecodes {ts us : List CpeToken} (h : TokenDecodes ts us)
    (hts : .plain (ascii '%') ∉ ts) : UrlDecodes (cpeText ts) (cpeText us) := by
  induction h with
  | nil => exact .nil
  | @keep t ts us ht _ ih =>
      rw [List.mem_cons, not_or] at hts
      cases t with
      | plain c => exact .literal (fun hc => hts.1 (hc ▸ rfl)) (ih hts.2)
      | quoted c =>
          exact .literal (by decide) (.literal (fun hc => ht (hc ▸ rfl)) (ih hts.2))
  | escape hx hne _ ih =>
      simp only [List.mem_cons, not_or] at hts
      exact .literal (by decide) (.escape hx hne (ih hts.2.2.2))

/-- A token that is no hexadecimal digit and no quoted percent sign is kept. -/
theorem TokenDecodes.mem_of_mem {ts us : List CpeToken} (h : TokenDecodes ts us) {t : CpeToken}
    (ht : t ∈ ts) (hq : t ≠ .quoted (ascii '%')) (hx : ∀ c, t = .plain c → isxdigit c = false) :
    t ∈ us := by
  induction h with
  | nil => cases ht
  | keep _ _ ih =>
      rcases List.mem_cons.mp ht with rfl | ht
      · exact List.mem_cons_self
      · exact List.mem_cons_of_mem _ (ih ht)
  | @escape h l ts us hhl _ _ ih =>
      simp only [List.mem_cons] at ht
      rcases ht with rfl | rfl | rfl | ht
      · exact absurd rfl hq
      · exact absurd (hx h rfl) (by simp [hhl.1])
      · exact absurd (hx l rfl) (by simp [hhl.2])
      · exact List.mem_cons_of_mem _ (ih ht)

/-- A plain token was there before. -/
theorem TokenDecodes.plain_mem {ts us : List CpeToken} (h : TokenDecodes ts us) {c : UInt8}
    (hc : .plain c ∈ us) : .plain c ∈ ts := by
  induction h with
  | nil => cases hc
  | keep _ _ ih =>
      rcases List.mem_cons.mp hc with rfl | hc
      · exact List.mem_cons_self
      · exact List.mem_cons_of_mem _ (ih hc)
  | escape _ _ _ ih =>
      rcases List.mem_cons.mp hc with h | hc
      · cases h
      · simp [ih hc]

theorem TokenDecodes.append {ts us ts' us' : List CpeToken} (h : TokenDecodes ts us)
    (h' : TokenDecodes ts' us') : TokenDecodes (ts ++ ts') (us ++ us') := by
  induction h with
  | nil => exact h'
  | keep ht _ ih => exact .keep ht ih
  | escape hx hne _ ih => exact .escape hx hne ih

/-- Tokens with no quoted percent sign stay as they are. -/
theorem tokenDecodes_self {ts : List CpeToken} (h : .quoted (ascii '%') ∉ ts) :
    TokenDecodes ts ts := by
  induction ts with
  | nil => exact .nil
  | cons t ts ih =>
      rw [List.mem_cons, not_or] at h
      exact .keep (Ne.symm h.1) (ih h.2)

/-! ### Encoding -/

/-- A character that `cpestring_comp_encode` leaves as it is. -/
def isKept (c : UInt8) : Prop := isalnum c ∨ c ∈ bytes ['.', '_', '~', '*', '-']

instance (c : UInt8) : Decidable (isKept c) := inferInstanceAs (Decidable (_ ∨ _))

/-- What a token is encoded as. -/
def encodeToken : CpeToken → List CpeToken
  | .quoted c => [.quoted c]
  | .plain c =>
      if isKept c then [.plain c]
      else if c = ascii ':' then [.quoted c]
      else (cpeEscape c).map .plain

theorem encodeToken_plain (c : UInt8) : encodeToken (.plain c) =
    if isKept c then [.plain c]
    else if c = ascii ':' then [.quoted c]
    else (cpeEscape c).map .plain := rfl

theorem isKept_ne {c : UInt8} (h : isKept c) : c ≠ ascii '\\' ∧ c ≠ ascii ':' :=
  ⟨fun heq => absurd (heq ▸ h) (by decide), fun heq => absurd (heq ▸ h) (by decide)⟩

theorem cpestringCompEncode_plain {c : UInt8} (hc : c ≠ ascii '\\') (rest : List UInt8) :
    cpestringCompEncode (c :: rest) =
      (cpestringCompEncode rest).map (cpeText (encodeToken (.plain c)) ++ ·) := by
  have hkept : isKept c ↔ (isalnum c ∨ c ∈ bytes ['.', '_', '~']) ∨ c = ascii '*' ∨
      c = ascii '-' := by
    simp only [isKept, bytes, List.map_cons, List.map_nil, List.mem_cons, List.not_mem_nil,
      or_false]
    tauto
  rw [cpestringCompEncode.eq_def]
  simp only
  rw [encodeToken_plain]
  by_cases hlit : isalnum c ∨ c ∈ bytes ['.', '_', '~']
  · rw [if_pos hlit, if_pos (hkept.mpr (.inl hlit))]
    rfl
  rw [if_neg hlit, if_neg hc]
  by_cases hcolon : c = ascii ':'
  · rw [if_pos hcolon, if_pos hcolon, if_neg fun h => (isKept_ne h).2 hcolon]
    rfl
  rw [if_neg hcolon, if_neg hcolon]
  by_cases hstar : c = ascii '*'
  · rw [if_pos hstar, if_pos (hkept.mpr (.inr (.inl hstar)))]
    rfl
  rw [if_neg hstar]
  by_cases hminus : c = ascii '-'
  · rw [if_pos hminus, if_pos (hkept.mpr (.inr (.inr hminus)))]
    rfl
  rw [if_neg hminus, if_neg fun h => ?_, cpeText_map_plain]
  rcases hkept.mp h with h | h | h
  · exact hlit h
  · exact hstar h
  · exact hminus h

theorem cpestringCompEncode_quoted (d : UInt8) (rest : List UInt8) :
    cpestringCompEncode (ascii '\\' :: d :: rest) =
      (cpestringCompEncode rest).map (cpeText (encodeToken (.quoted d)) ++ ·) := by
  rw [cpestringCompEncode.eq_def]
  simp only
  rw [if_neg (by decide), if_pos trivial]
  rfl

/-- Encoding goes token by token while every backslash quotes something. -/
theorem cpestringCompEncode_append {ts : List CpeToken} (h : .plain (ascii '\\') ∉ ts)
    (text : List UInt8) :
    cpestringCompEncode (cpeText ts ++ text) =
      (cpestringCompEncode text).map (cpeText (ts.flatMap encodeToken) ++ ·) := by
  induction ts with
  | nil => simp
  | cons t ts ih =>
      rw [List.mem_cons, not_or] at h
      rw [List.flatMap_cons, cpeText_append]
      cases t with
      | plain c =>
          have hc : c ≠ ascii '\\' := fun hc => h.1 (hc ▸ rfl)
          rw [cpeText_plain, List.cons_append, cpestringCompEncode_plain hc, ih h.2,
            Option.map_map]
          congr 1
          funext rest
          simp
      | quoted c =>
          rw [cpeText_quoted, List.cons_append, List.cons_append, cpestringCompEncode_quoted,
            ih h.2, Option.map_map]
          rfl

/-- The text of tokens is encoded token by token. -/
theorem cpestringCompEncode_cpeText {ts : List CpeToken} (h : .plain (ascii '\\') ∉ ts) :
    cpestringCompEncode (cpeText ts) = some (cpeText (ts.flatMap encodeToken)) := by
  have happend := cpestringCompEncode_append h []
  rw [List.append_nil] at happend
  rw [happend]
  simp [cpestringCompEncode]

/-- A backslash that quotes nothing at the end of a text makes encoding read on. -/
theorem cpestringCompEncode_eq_none {ts : List CpeToken} (h : .plain (ascii '\\') ∉ ts) :
    cpestringCompEncode (cpeText (ts ++ [.plain (ascii '\\')])) = none := by
  rw [cpeText_append, cpestringCompEncode_append h]
  rfl

theorem cpeText_inj {ts us : List CpeToken} (hts : .plain (ascii '\\') ∉ ts)
    (hus : .plain (ascii '\\') ∉ us) (h : cpeText ts = cpeText us) : ts = us := by
  rw [← cpeTokens_cpeText hts, h, cpeTokens_cpeText hus]

/-- The plain characters that encoding makes are kept ones and percent signs. -/
theorem plain_mem_encodeToken {t : CpeToken} {c : UInt8} (h : .plain c ∈ encodeToken t) :
    isKept c ∨ c = ascii '%' := by
  cases t with
  | quoted d => simp [encodeToken] at h
  | plain d =>
      rw [encodeToken_plain] at h
      split_ifs at h with hkept hcolon
      · rw [CpeToken.plain.inj (List.mem_singleton.mp h)]
        exact .inl hkept
      · simp at h
      · obtain ⟨b, hb, heq⟩ := List.mem_map.mp h
        rw [← CpeToken.plain.inj heq]
        exact (mem_cpeEscape hb).imp_left .inl

theorem plain_notMem_encode (ts : List CpeToken) :
    .plain (ascii '\\') ∉ ts.flatMap encodeToken := by
  intro hmem
  obtain ⟨t, -, hmem⟩ := List.mem_flatMap.mp hmem
  rcases plain_mem_encodeToken hmem with h | h
  · exact (isKept_ne h).1 rfl
  · exact absurd h (by decide)

/-- A plain character that is neither kept nor a colon makes a plain percent sign. -/
theorem percent_mem_encode {ts : List CpeToken} {c : UInt8} (hc : .plain c ∈ ts)
    (hkept : ¬ isKept c) (hcolon : c ≠ ascii ':') :
    .plain (ascii '%') ∈ ts.flatMap encodeToken := by
  refine List.mem_flatMap.mpr ⟨_, hc, ?_⟩
  obtain ⟨a, b, heq, -⟩ := cpeEscape_eq c
  rw [encodeToken_plain, if_neg hkept, if_neg hcolon, heq]
  exact List.mem_cons_self

/-- Tokens whose plain characters are kept are encoded as they are. -/
theorem flatMap_encodeToken {ts : List CpeToken} (h : ∀ c, .plain c ∈ ts → isKept c) :
    ts.flatMap encodeToken = ts := by
  induction ts with
  | nil => rfl
  | cons t ts ih =>
      rw [List.flatMap_cons, ih fun c hc => h c (List.mem_cons_of_mem _ hc)]
      cases t with
      | plain c =>
          rw [encodeToken_plain, if_pos (h c List.mem_cons_self)]
          rfl
      | quoted c => rfl

/-! ### Percent signs -/

/-- The tokens start with two hexadecimal digits of a character that may stand quoted, and is
neither a colon nor a percent sign. -/
def StartsWithEscape : List CpeToken → Prop
  | .plain h :: .plain l :: _ => (isxdigit h ∧ isxdigit l) ∧ scanHex h l ∈ quotedChars ∧
      scanHex h l ≠ ascii ':' ∧ scanHex h l ≠ ascii '%'
  | _ => False

/-- Every quoted percent sign is followed by such digits. -/
def PercentSafe : List CpeToken → Prop
  | [] => True
  | t :: ts => (t = .quoted (ascii '%') → StartsWithEscape ts) ∧ PercentSafe ts

theorem startsWithEscape_append {ts us : List CpeToken}
    (h : ∀ c, us.head? = some (.plain c) → isxdigit c = false) :
    StartsWithEscape (ts ++ us) ↔ StartsWithEscape ts := by
  have hdigit : ∀ c vs, us = .plain c :: vs → ¬ isxdigit c = true := by
    rintro c vs rfl
    simp [h c rfl]
  match ts with
  | [] =>
      refine iff_of_false (fun hus => ?_) id
      match us, hus with
      | .plain c :: .plain d :: vs, hus => exact hdigit c _ rfl hus.1.1
  | [.plain c] =>
      refine iff_of_false (fun hus => ?_) id
      match us, hus with
      | .plain d :: vs, hus => exact hdigit d _ rfl hus.1.2
  | [.quoted c] => exact Iff.rfl
  | .plain _ :: .plain _ :: _ => exact Iff.rfl
  | .plain _ :: .quoted _ :: _ => exact Iff.rfl
  | .quoted _ :: _ :: _ => exact Iff.rfl

theorem percentSafe_append {ts us : List CpeToken}
    (h : ∀ c, us.head? = some (.plain c) → isxdigit c = false) :
    PercentSafe (ts ++ us) ↔ PercentSafe ts ∧ PercentSafe us := by
  induction ts with
  | nil => simp [PercentSafe]
  | cons t ts ih =>
      rw [List.cons_append, PercentSafe, PercentSafe, ih, startsWithEscape_append h, and_assoc]

/-- Nothing is asked of tokens without a quoted percent sign. -/
theorem percentSafe_append_left {ts us : List CpeToken} (h : .quoted (ascii '%') ∉ ts) :
    PercentSafe (ts ++ us) ↔ PercentSafe us := by
  induction ts with
  | nil => rfl
  | cons t ts ih =>
      rw [List.mem_cons, not_or] at h
      rw [List.cons_append, PercentSafe, ih h.2]
      exact and_iff_right fun ht => absurd ht.symm h.1

/-- What is decoded to characters that may stand quoted was safe. -/
theorem TokenDecodes.percentSafe {ts us : List CpeToken} (h : TokenDecodes ts us)
    (hus : ∀ b, .quoted b ∈ us → b ∈ quotedChars ∧ b ≠ ascii ':' ∧ b ≠ ascii '%') :
    PercentSafe ts := by
  induction h with
  | nil => trivial
  | keep ht _ ih =>
      exact ⟨fun h => absurd h ht, ih fun b hb => hus b (List.mem_cons_of_mem _ hb)⟩
  | escape hx _ _ ih =>
      refine ⟨fun _ => ⟨hx, hus _ List.mem_cons_self⟩, (fun h => by cases h), (fun h => by cases h),
        ih fun b hb => hus b (List.mem_cons_of_mem _ hb)⟩

/-- Safe tokens are decoded, to kept tokens and quoted characters. -/
theorem PercentSafe.exists_tokenDecodes {ts : List CpeToken} (h : PercentSafe ts) :
    ∃ us, TokenDecodes ts us ∧ (ts ≠ [] → us ≠ []) ∧ ∀ t ∈ us, (t ∈ ts ∧ t ≠ .quoted (ascii '%')) ∨
      ∃ b ∈ quotedChars, b ≠ ascii ':' ∧ b ≠ ascii '%' ∧ t = .quoted b := by
  induction hn : ts.length using Nat.strongRecOn generalizing ts with
  | ind n ih =>
      cases ts with
      | nil => exact ⟨[], .nil, fun h => absurd rfl h, fun t ht => by cases ht⟩
      | cons t ts =>
          rw [List.length_cons] at hn
          by_cases ht : t = .quoted (ascii '%')
          · subst ht
            have hstart := h.1 rfl
            match ts, hstart with
            | .plain a :: .plain b :: ts, hstart =>
                obtain ⟨hx, hmem, hcolon, hpercent⟩ := hstart
                have hne : scanHex a b ≠ 0 := by
                  intro h0
                  rw [h0] at hmem
                  exact absurd hmem (by decide)
                obtain ⟨us, hus, -, hmemus⟩ := ih ts.length
                  (by simp only [List.length_cons] at hn; omega) h.2.2.2 rfl
                refine ⟨.quoted (scanHex a b) :: us, .escape hx hne hus, by simp, fun t ht => ?_⟩
                rcases List.mem_cons.mp ht with rfl | ht
                · exact .inr ⟨_, hmem, hcolon, hpercent, rfl⟩
                · exact (hmemus t ht).imp_left fun h => ⟨by simp [h.1], h.2⟩
          · obtain ⟨us, hus, -, hmemus⟩ := ih ts.length (by omega) h.2 rfl
            refine ⟨t :: us, .keep ht hus, by simp, fun t' ht' => ?_⟩
            rcases List.mem_cons.mp ht' with rfl | ht'
            · exact .inl ⟨List.mem_cons_self, ht⟩
            · exact (hmemus t' ht').imp_left fun h => ⟨List.mem_cons_of_mem _ h.1, h.2⟩

/-- A last character that is no hexadecimal digit is kept. -/
theorem TokenDecodes.of_concat {ts us : List CpeToken} {c : UInt8} (hc : isxdigit c = false)
    (h : TokenDecodes (ts ++ [.plain c]) us) :
    ∃ us', us = us' ++ [.plain c] ∧ TokenDecodes ts us' := by
  generalize hl : ts ++ [CpeToken.plain c] = l at h
  induction h generalizing ts with
  | nil => simp at hl
  | @keep t l us ht hrest ih =>
      cases ts with
      | nil =>
          obtain ⟨rfl, rfl⟩ := List.cons.inj hl
          cases hrest
          exact ⟨[], rfl, .nil⟩
      | cons t' ts =>
          obtain ⟨rfl, hl'⟩ := List.cons.inj hl
          obtain ⟨us', rfl, hus'⟩ := ih hl'
          exact ⟨_ :: us', rfl, .keep ht hus'⟩
  | @escape a b l us hx hne hrest ih =>
      match ts, hl with
      | [], hl => cases hl
      | [_], hl =>
          obtain ⟨-, hl⟩ := List.cons.inj hl
          obtain ⟨h, -⟩ := List.cons.inj hl
          rw [CpeToken.plain.inj h, hx.1] at hc
          cases hc
      | [_, _], hl =>
          obtain ⟨-, hl⟩ := List.cons.inj hl
          obtain ⟨-, hl⟩ := List.cons.inj hl
          obtain ⟨h, -⟩ := List.cons.inj hl
          rw [CpeToken.plain.inj h, hx.2] at hc
          cases hc
      | _ :: _ :: _ :: ts, hl =>
          simp only [List.cons_append, List.cons.injEq] at hl
          obtain ⟨rfl, rfl, rfl, hl'⟩ := hl
          obtain ⟨us', rfl, hus'⟩ := ih hl'
          exact ⟨_ :: us', rfl, .escape hx hne hus'⟩

/-- Decoding shortens tokens with a quoted percent sign. -/
theorem TokenDecodes.length_le {ts us : List CpeToken} (h : TokenDecodes ts us) :
    us.length ≤ ts.length ∧ (.quoted (ascii '%') ∈ ts → us.length < ts.length) := by
  induction h with
  | nil => exact ⟨le_refl _, fun h => by cases h⟩
  | keep ht _ ih =>
      simp only [List.length_cons, List.mem_cons]
      refine ⟨by omega, ?_⟩
      rintro (h | h)
      · exact absurd h.symm ht
      · have := ih.2 h
        omega
  | escape _ _ _ ih =>
      simp only [List.length_cons]
      exact ⟨by omega, fun _ => by omega⟩

/-- Without a quoted percent sign nothing changes. -/
theorem TokenDecodes.eq_of_notMem {ts us : List CpeToken} (h : TokenDecodes ts us)
    (hts : .quoted (ascii '%') ∉ ts) : us = ts := by
  induction h with
  | nil => rfl
  | keep _ _ ih =>
      rw [List.mem_cons, not_or] at hts
      rw [ih hts.2]
  | escape => exact absurd List.mem_cons_self hts

end OpenScap
