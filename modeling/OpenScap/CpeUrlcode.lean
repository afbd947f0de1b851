import OpenScap.CpeName
import OpenScap.DelimitedText

/-!
# Percent-encoding of CPE attributes

What `cpe_urldecode` and `cpe_urlencode` do, byte by byte. A byte above 127 is a negative
`char`, of which `snprintf` prints `%FFFFFFxx`, cut to `%FF`.

## Main results

* `cpeUrldecode_iff` — the texts that are decoded, as a relation;
* `cpeUrldecode_urlencode` — what is read back of an encoded text;
* `oscapSplit_urlencode` — encoding leaves tildes alone.
-/

open DelimitedText

namespace OpenScap

/-! ### Percent-encoding -/

theorem cpeUrldecode_literal {c : UInt8} (hc : c ≠ ascii '%') (t : List UInt8) :
    cpeUrldecode (c :: t) = (cpeUrldecode t).map (c :: ·) := by
  rw [cpeUrldecode.eq_def]
  simp only
  rw [if_neg hc]

theorem cpeUrldecode_escape {h l : UInt8} (hx : isxdigit h ∧ isxdigit l) (t : List UInt8) :
    cpeUrldecode (ascii '%' :: h :: l :: t) =
      if scanHex h l = 0 then none else (cpeUrldecode t).map (scanHex h l :: ·) := by
  rw [cpeUrldecode.eq_def]
  simp only
  rw [if_pos trivial, if_pos hx]

/-- The texts that `cpe_urldecode` decodes, with what it makes of them. -/
inductive UrlDecodes : List UInt8 → List UInt8 → Prop
  | nil : UrlDecodes [] []
  | literal {c : UInt8} {t v : List UInt8} (hc : c ≠ ascii '%') (rest : UrlDecodes t v) :
      UrlDecodes (c :: t) (c :: v)
  | escape {h l : UInt8} {t v : List UInt8} (hx : isxdigit h ∧ isxdigit l)
      (hne : scanHex h l ≠ 0) (rest : UrlDecodes t v) :
      UrlDecodes (ascii '%' :: h :: l :: t) (scanHex h l :: v)

theorem UrlDecodes.cpeUrldecode_eq {t v : List UInt8} (h : UrlDecodes t v) :
    cpeUrldecode t = some v := by
  induction h with
  | nil => rfl
  | literal hc _ ih => rw [cpeUrldecode_literal hc, ih, Option.map_some]
  | escape hx hne _ ih => rw [cpeUrldecode_escape hx, if_neg hne, ih, Option.map_some]

/-- `cpe_urldecode` decodes these texts and no others. -/
theorem cpeUrldecode_iff {t v : List UInt8} : cpeUrldecode t = some v ↔ UrlDecodes t v := by
  refine ⟨fun h => ?_, UrlDecodes.cpeUrldecode_eq⟩
  induction t using cpeUrldecode.induct generalizing v with
  | case1 =>
      cases h
      exact .nil
  | case2 _ _ _ hx hzero =>
      rw [cpeUrldecode_escape hx, if_pos hzero] at h
      cases h
  | case3 _ _ _ hx hne ih =>
      rw [cpeUrldecode_escape hx, if_neg hne, Option.map_eq_some_iff] at h
      obtain ⟨w, hw, rfl⟩ := h
      exact .escape hx hne (ih hw)
  | case4 _ _ _ hx =>
      rw [cpeUrldecode.eq_def] at h
      simp only at h
      rw [if_pos trivial, if_neg hx] at h
      cases h
  | case5 rest hrest =>
      match rest, hrest with
      | [], _ => cases h
      | [_], _ => cases h
      | a :: b :: rest, hrest => exact absurd rfl (hrest a b rest)
  | case6 _ _ hc ih =>
      rw [cpeUrldecode_literal hc, Option.map_eq_some_iff] at h
      obtain ⟨w, hw, rfl⟩ := h
      exact .literal hc (ih hw)

theorem UrlDecodes.of_literal {c : UInt8} {t v : List UInt8} (h : UrlDecodes (c :: t) v)
    (hc : c ≠ ascii '%') : ∃ w, v = c :: w ∧ UrlDecodes t w := by
  cases h with
  | literal _ rest => exact ⟨_, rfl, rest⟩
  | escape => exact absurd rfl hc

theorem UrlDecodes.of_escape {t v : List UInt8} (h : UrlDecodes (ascii '%' :: t) v) :
    ∃ a b t' w, t = a :: b :: t' ∧ v = scanHex a b :: w ∧ (isxdigit a ∧ isxdigit b) ∧
      scanHex a b ≠ 0 ∧ UrlDecodes t' w := by
  cases h with
  | literal hc => exact absurd rfl hc
  | escape hx hne rest => exact ⟨_, _, _, _, rfl, rfl, hx, hne, rest⟩

/-- The values of the escapes of a text. -/
def escapes : List UInt8 → List UInt8
  | [] => []
  | c :: rest =>
      if c = ascii '%' then
        match rest with
        | h :: l :: rest => scanHex h l :: escapes rest
        | _ => []
      else escapes rest

theorem escapes_literal {c : UInt8} (hc : c ≠ ascii '%') (t : List UInt8) :
    escapes (c :: t) = escapes t := by
  rw [escapes.eq_def]
  simp only
  rw [if_neg hc]

theorem escapes_escape (h l : UInt8) (t : List UInt8) :
    escapes (ascii '%' :: h :: l :: t) = scanHex h l :: escapes t := by
  rw [escapes.eq_def]
  simp only
  rw [if_pos trivial]

/-- What is decoded stands in the text or is the value of an escape. -/
theorem UrlDecodes.mem_or {t v : List UInt8} (h : UrlDecodes t v) {b : UInt8} (hb : b ∈ v) :
    b ∈ t ∨ b ∈ escapes t := by
  induction h with
  | nil => cases hb
  | @literal c t v hc _ ih =>
      rw [escapes_literal hc]
      rcases List.mem_cons.mp hb with rfl | hb
      · exact .inl List.mem_cons_self
      · exact (ih hb).imp_left (List.mem_cons_of_mem _)
  | @escape h l t v _ _ _ ih =>
      rw [escapes_escape]
      rcases List.mem_cons.mp hb with rfl | hb
      · exact .inr List.mem_cons_self
      · rcases ih hb with hb | hb
        · exact .inl (by simp [hb])
        · exact .inr (List.mem_cons_of_mem _ hb)

/-- The value of an escape is decoded. -/
theorem UrlDecodes.mem_of_mem_escapes {t v : List UInt8} (h : UrlDecodes t v) {b : UInt8}
    (hb : b ∈ escapes t) : b ∈ v := by
  induction h with
  | nil => cases hb
  | literal hc _ ih =>
      rw [escapes_literal hc] at hb
      exact List.mem_cons_of_mem _ (ih hb)
  | escape _ _ _ ih =>
      rw [escapes_escape] at hb
      rcases List.mem_cons.mp hb with rfl | hb
      · exact List.mem_cons_self
      · exact List.mem_cons_of_mem _ (ih hb)

/-- No terminator is decoded. -/
theorem UrlDecodes.zero_notMem {t v : List UInt8} (h : UrlDecodes t v) (ht : 0 ∉ t) : 0 ∉ v := by
  induction h with
  | nil => exact ht
  | literal _ _ ih =>
      rw [List.mem_cons, not_or] at ht ⊢
      exact ⟨ht.1, ih ht.2⟩
  | escape _ hne _ ih =>
      simp only [List.mem_cons, not_or] at ht ⊢
      exact ⟨fun h => hne h.symm, ih ht.2.2.2⟩

theorem UrlDecodes.eq_nil_iff {t v : List UInt8} (h : UrlDecodes t v) : v = [] ↔ t = [] := by
  cases h <;> simp

/-- What is read back of a byte. -/
def readBack (c : UInt8) : UInt8 := if c < 128 then c else 255

/-- A byte that `cpe_urlencode` leaves as it is. -/
def isLiteral (c : UInt8) : Prop := isalnum c ∨ c ∈ bytes ['-', '.', '_', '~']

instance (c : UInt8) : Decidable (isLiteral c) := inferInstanceAs (Decidable (_ ∨ _))

theorem isLiteral_ne {c : UInt8} (h : isLiteral c) : c ≠ ascii '%' ∧ c ≠ ascii ':' ∧ c < 128 := by
  have hothers : ∀ b ∈ bytes ['-', '.', '_', '~'], b < 128 := forall_mem_of_all (by decide)
  exact ⟨fun heq => absurd (heq ▸ h) (by decide), fun heq => absurd (heq ▸ h) (by decide),
    h.elim isalnum_lt (hothers c)⟩

/-- The value of an escape, if the text is one. -/
def escapeValue : List UInt8 → Option UInt8
  | [p, h, l] => if p = ascii '%' ∧ isxdigit h ∧ isxdigit l then some (scanHex h l) else none
  | _ => none

/-- An escape is printed for every byte; it need not be the one of the byte. -/
theorem cpeEscape_eq (c : UInt8) : ∃ h l, cpeEscape c = [ascii '%', h, l] ∧
    (isxdigit h ∧ isxdigit l) ∧ scanHex h l = readBack c := by
  have hval := @forall_byte (fun c => escapeValue (cpeEscape c) = some (readBack c))
    (by decide +kernel) c
  unfold escapeValue at hval
  split at hval
  case h_1 p h l heq =>
    split_ifs at hval with hx
    obtain ⟨rfl, hx⟩ := hx
    exact ⟨h, l, heq, hx, Option.some.inj hval⟩
  case h_2 => cases hval

/-- The characters of an escape are letters, digits and the percent sign. -/
theorem mem_cpeEscape {c b : UInt8} (hb : b ∈ cpeEscape c) : isalnum b ∨ b = ascii '%' := by
  obtain ⟨h, l, heq, ⟨hh, hl⟩, -⟩ := cpeEscape_eq c
  rw [heq] at hb
  simp only [List.mem_cons, List.not_mem_nil, or_false] at hb
  rcases hb with rfl | rfl | rfl
  · exact .inr rfl
  · exact .inl (isalnum_of_isxdigit hh)
  · exact .inl (isalnum_of_isxdigit hl)

theorem cpeUrlencode_cons (c : UInt8) (v : List UInt8) :
    cpeUrlencode (c :: v) = (if isLiteral c then [c] else cpeEscape c) ++ cpeUrlencode v := rfl

/-- **What is read back of an encoded text.** -/
theorem cpeUrldecode_urlencode {v : List UInt8} (h : 0 ∉ v) :
    cpeUrldecode (cpeUrlencode v) = some (v.map readBack) := by
  induction v with
  | nil => rfl
  | cons c v ih =>
      rw [List.mem_cons, not_or] at h
      have hrest := ih h.2
      rw [cpeUrlencode_cons]
      split_ifs with hlit
      · obtain ⟨hne, -, hlt⟩ := isLiteral_ne hlit
        rw [List.singleton_append, cpeUrldecode_literal hne, hrest]
        simp [readBack, hlt]
      · obtain ⟨a, b, heq, hx, hval⟩ := cpeEscape_eq c
        have hne : readBack c ≠ 0 := by
          unfold readBack
          split_ifs
          · exact fun h0 => h.1 h0.symm
          · decide
        rw [heq]
        simp only [List.cons_append, List.nil_append]
        rw [cpeUrldecode_escape hx, hval, if_neg hne, hrest]
        rfl

theorem mem_uriFieldChars {c : UInt8} :
    c ∈ uriFieldChars ↔ isalnum c ∨ c ∈ bytes ['.', '_', '-', '~', '%'] := by
  rw [uriFieldChars, List.mem_append, alphanumeric, mem_byteClass]

/-- Only some characters are printed. -/
theorem mem_cpeUrlencode {v : List UInt8} {b : UInt8} (hb : b ∈ cpeUrlencode v) :
    b ∈ uriFieldChars := by
  obtain ⟨c, -, hb⟩ := List.mem_flatMap.mp hb
  rw [mem_uriFieldChars]
  split_ifs at hb with hlit
  · rw [List.mem_singleton.mp hb]
    refine hlit.imp_right fun h => ?_
    simp only [bytes, List.map_cons, List.map_nil, List.mem_cons, List.not_mem_nil, or_false] at h ⊢
    tauto
  · refine (mem_cpeEscape hb).imp_right fun h => ?_
    rw [h]
    decide

/-- Encoding commutes with splitting at tildes. -/
theorem oscapSplit_urlencode (v : List UInt8) :
    oscapSplit (cpeUrlencode v) (ascii '~') = (oscapSplit v (ascii '~')).map cpeUrlencode := by
  refine splitOn_flatMap (by decide) (fun c hc hmem => ?_) v
  split_ifs at hmem with hlit
  · exact hc (List.mem_singleton.mp hmem).symm
  · rcases mem_cpeEscape hmem with h | h
    · exact absurd h (by decide)
    · exact absurd h (by decide)

end OpenScap
