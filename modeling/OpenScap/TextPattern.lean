import Mathlib.Computability.RegularExpressions

/-!
# Regular expressions of text formats

The forms that patterns of text formats use beyond those of `RegularExpression`: classes of
characters, words, optional parts and bounded repetition, each with the language it matches.

## Main results

* `mem_oneOf`, `mem_word`, `mem_optional` — what the forms match;
* `mem_optional_pow` — a part repeated at most `n` times matches at most `n` parts in a row;
* `mem_many` — a class repeated matches the texts over the class;
* `mem_prefixed_pow`, `mem_optional_prefixed_pow` — repeated parts with a character in front.
-/

open RegularExpression

namespace TextPattern

variable {α : Type*}

/-- One character of a class. -/
def oneOf (cs : List α) : RegularExpression α := cs.foldr (fun c r => char c + r) 0

/-- A fixed text. -/
def word (cs : List α) : RegularExpression α := cs.foldr (fun c r => char c * r) 1

/-- An optional part. -/
def optional (r : RegularExpression α) : RegularExpression α := 1 + r

/-- Any number of characters of a class. -/
def many (cs : List α) : RegularExpression α := (oneOf cs).star

theorem mem_oneOf {cs x : List α} : x ∈ (oneOf cs).matches' ↔ ∃ c ∈ cs, x = [c] := by
  induction cs with
  | nil => simp [oneOf, Language.notMem_zero]
  | cons c cs ih =>
      have hcons : oneOf (c :: cs) = char c + oneOf cs := rfl
      have hc : x ∈ ({[c]} : Language α) ↔ x = [c] := Iff.rfl
      rw [hcons, matches'_add, Language.mem_add, ih, matches'_char, hc]
      simp

theorem mem_word {cs x : List α} : x ∈ (word cs).matches' ↔ x = cs := by
  induction cs generalizing x with
  | nil =>
      have hnil : word ([] : List α) = 1 := rfl
      rw [hnil, matches'_epsilon, Language.mem_one]
  | cons c cs ih =>
      have hcons : word (c :: cs) = char c * word cs := rfl
      rw [hcons, matches'_mul, Language.mem_mul, matches'_char]
      constructor
      · rintro ⟨a, ha, b, hb, rfl⟩
        rw [ih.mp hb, Set.mem_singleton_iff.mp ha]
        rfl
      · rintro rfl
        exact ⟨[c], rfl, cs, ih.mpr rfl, rfl⟩

theorem mem_optional {r : RegularExpression α} {x : List α} :
    x ∈ (optional r).matches' ↔ x = [] ∨ x ∈ r.matches' := by
  unfold optional
  rw [matches'_add, Language.mem_add, matches'_epsilon, Language.mem_one]

theorem mem_mul {r r' : RegularExpression α} {x : List α} :
    x ∈ (r * r').matches' ↔ ∃ a ∈ r.matches', ∃ b ∈ r'.matches', a ++ b = x := by
  rw [matches'_mul, Language.mem_mul]

theorem mem_add {r r' : RegularExpression α} {x : List α} :
    x ∈ (r + r').matches' ↔ x ∈ r.matches' ∨ x ∈ r'.matches' := by
  rw [matches'_add, Language.mem_add]

theorem mem_pow {r : RegularExpression α} {x : List α} {n : Nat} :
    x ∈ (r ^ n).matches' ↔
      ∃ parts : List (List α), x = parts.flatten ∧ parts.length = n ∧
        ∀ p ∈ parts, p ∈ r.matches' := by
  rw [matches'_pow, Language.mem_pow]

/-- A part repeated at most `n` times. -/
theorem mem_optional_pow {r : RegularExpression α} {x : List α} {n : Nat} :
    x ∈ (optional r ^ n).matches' ↔
      ∃ parts : List (List α), x = parts.flatten ∧ parts.length ≤ n ∧
        ∀ p ∈ parts, p ∈ r.matches' := by
  classical
  rw [mem_pow]
  constructor
  · rintro ⟨parts, rfl, rfl, hparts⟩
    refine ⟨parts.filter (· ≠ []), ?_, List.length_filter_le _ _, fun p hp => ?_⟩
    · induction parts with
      | nil => rfl
      | cons p parts ih =>
          have hrest := ih fun q hq => hparts q (List.mem_cons_of_mem _ hq)
          by_cases hp : p = []
          · simp [hp, hrest]
          · rw [List.flatten_cons, hrest, List.filter_cons_of_pos (by simpa using hp),
              List.flatten_cons]
    · obtain ⟨hp, hne⟩ := List.mem_filter.mp hp
      exact (mem_optional.mp (hparts p hp)).resolve_left (by simpa using hne)
  · rintro ⟨parts, rfl, hlen, hparts⟩
    refine ⟨parts ++ List.replicate (n - parts.length) [], ?_, ?_, fun p hp => ?_⟩
    · simp
    · rw [List.length_append, List.length_replicate]
      omega
    · rcases List.mem_append.mp hp with hp | hp
      · exact mem_optional.mpr (.inr (hparts p hp))
      · exact mem_optional.mpr (.inl (List.eq_of_mem_replicate hp))

/-- Repeating a class gives the texts over the class. -/
theorem mem_many {cs x : List α} : x ∈ (many cs).matches' ↔ ∀ c ∈ x, c ∈ cs := by
  unfold many
  rw [matches'_star, Language.mem_kstar]
  constructor
  · rintro ⟨parts, rfl, hparts⟩ c hc
    obtain ⟨p, hp, hcp⟩ := List.mem_flatten.mp hc
    obtain ⟨d, hd, rfl⟩ := mem_oneOf.mp (hparts p hp)
    rw [List.mem_singleton.mp hcp]
    exact hd
  · intro h
    have hx : x = (x.map fun c => [c]).flatten := by
      induction x with
      | nil => rfl
      | cons c cs ih =>
          rw [List.map_cons, List.flatten_cons, ← ih fun d hd => h d (.tail _ hd)]
          rfl
    refine ⟨x.map fun c => [c], hx, fun p hp => ?_⟩
    obtain ⟨c, hc, rfl⟩ := List.mem_map.mp hp
    exact mem_oneOf.mpr ⟨c, h c hc, rfl⟩

theorem mem_char {d : α} {x : List α} : x ∈ (char d).matches' ↔ x = [d] := by
  rw [matches'_char]
  rfl

theorem mem_char_mul {d : α} {r : RegularExpression α} {x : List α} :
    x ∈ (char d * r).matches' ↔ ∃ f ∈ r.matches', x = d :: f := by
  rw [mem_mul, matches'_char]
  constructor
  · rintro ⟨a, ha, f, hf, rfl⟩
    rw [Set.mem_singleton_iff.mp ha]
    exact ⟨f, hf, rfl⟩
  · rintro ⟨f, hf, rfl⟩
    exact ⟨[d], rfl, f, hf, rfl⟩

/-- Texts that are all images are the images of a list. -/
theorem forall_mem_exists_eq {β γ : Type*} {g : β → γ} {q : β → Prop} {parts : List γ} :
    (∀ p ∈ parts, ∃ t, q t ∧ p = g t) ↔
      ∃ ts : List β, (∀ t ∈ ts, q t) ∧ parts = ts.map g := by
  constructor
  · intro h
    induction parts with
    | nil => exact ⟨[], (fun t ht => by cases ht), rfl⟩
    | cons p parts ih =>
        obtain ⟨t, ht, rfl⟩ := h p List.mem_cons_self
        obtain ⟨ts, hts, rfl⟩ := ih fun q hq => h q (List.mem_cons_of_mem _ hq)
        exact ⟨t :: ts, List.forall_mem_cons.mpr ⟨ht, hts⟩, rfl⟩
  · rintro ⟨ts, hts, rfl⟩ p hp
    obtain ⟨t, ht, rfl⟩ := List.mem_map.mp hp
    exact ⟨t, hts t ht, rfl⟩

/-- Repeating a pattern of tokens gives the texts of token lists. -/
theorem mem_star_tokens {β : Type*} {r : RegularExpression α} {g : β → List α} {q : β → Prop}
    (hr : ∀ y, y ∈ r.matches' ↔ ∃ t, q t ∧ y = g t) {x : List α} :
    x ∈ r.star.matches' ↔ ∃ ts : List β, (∀ t ∈ ts, q t) ∧ x = ts.flatMap g := by
  rw [matches'_star, Language.mem_kstar]
  constructor
  · rintro ⟨parts, rfl, hparts⟩
    obtain ⟨ts, hts, rfl⟩ := forall_mem_exists_eq.mp fun p hp => (hr p).mp (hparts p hp)
    exact ⟨ts, hts, List.flatMap_def.symm⟩
  · rintro ⟨ts, hts, rfl⟩
    refine ⟨ts.map g, List.flatMap_def, fun p hp => ?_⟩
    obtain ⟨t, ht, rfl⟩ := List.mem_map.mp hp
    exact (hr _).mpr ⟨t, hts t ht, rfl⟩

/-- Parts with a character in front are fields. -/
theorem forall_mem_char_mul {d : α} {r : RegularExpression α} {parts : List (List α)} :
    (∀ p ∈ parts, p ∈ (char d * r).matches') ↔
      ∃ fields : List (List α), (∀ f ∈ fields, f ∈ r.matches') ∧ parts = fields.map (d :: ·) := by
  rw [← forall_mem_exists_eq]
  exact forall₂_congr fun p _ => mem_char_mul

/-- A part with a character in front, repeated `n` times. -/
theorem mem_prefixed_pow {d : α} {r : RegularExpression α} {x : List α} {n : Nat} :
    x ∈ ((char d * r) ^ n).matches' ↔
      ∃ fields : List (List α), x = fields.flatMap (d :: ·) ∧ fields.length = n ∧
        ∀ f ∈ fields, f ∈ r.matches' := by
  rw [mem_pow]
  constructor
  · rintro ⟨parts, rfl, rfl, hparts⟩
    obtain ⟨fields, hfields, rfl⟩ := forall_mem_char_mul.mp hparts
    exact ⟨fields, List.flatMap_def.symm, by rw [List.length_map], hfields⟩
  · rintro ⟨fields, rfl, rfl, hfields⟩
    exact ⟨fields.map (d :: ·), List.flatMap_def, by rw [List.length_map],
      forall_mem_char_mul.mpr ⟨fields, hfields, rfl⟩⟩

/-- A part with a character in front, repeated at most `n` times. -/
theorem mem_optional_prefixed_pow {d : α} {r : RegularExpression α} {x : List α} {n : Nat} :
    x ∈ (optional (char d * r) ^ n).matches' ↔
      ∃ fields : List (List α), x = fields.flatMap (d :: ·) ∧ fields.length ≤ n ∧
        ∀ f ∈ fields, f ∈ r.matches' := by
  rw [mem_optional_pow]
  constructor
  · rintro ⟨parts, rfl, hlen, hparts⟩
    obtain ⟨fields, hfields, rfl⟩ := forall_mem_char_mul.mp hparts
    exact ⟨fields, List.flatMap_def.symm, by rwa [List.length_map] at hlen, hfields⟩
  · rintro ⟨fields, rfl, hlen, hfields⟩
    exact ⟨fields.map (d :: ·), List.flatMap_def, by rwa [List.length_map],
      forall_mem_char_mul.mpr ⟨fields, hfields, rfl⟩⟩

end TextPattern
