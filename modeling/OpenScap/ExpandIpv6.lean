import OpenScap.CString
import OpenScap.DelimitedText

/-!
# Expanding IPv6 addresses

`oscap_expand_ipv6` counts the components of an address in one loop and writes them in another,
with as many zeros for `::` as are missing to eight. The first loop counts a component behind
every colon but a leading one, so that an address that ends in `::` has one more than it
writes.

## Main results

* `oscapExpandIpv6_text` — what is written for every valid address, within the buffer;
* `expands_iff` — the expansion has eight groups and denotes the same address exactly if the
  text does not end in `::`.
-/

namespace OpenScap

/-! ### The code -/

/-- The first loop of `oscap_expand_ipv6`, at the start of the input or behind it. The character
behind a colon is skipped; where that is the terminator, the loop runs out of the input. -/
def componentCount : Bool → ℕ → List UInt8 → Option ℕ
  | _, n, [] => some n
  | start, n, c :: s =>
      if c = ascii ':' then
        match s with
        | [] => none
        | _ :: s => componentCount false (if start then n else (n + 1) % 2 ^ 16) s
      else componentCount false n s

/-- Characters are written behind those that are in the buffer of 40 already. -/
def writeChars (out s : List UInt8) : Option (List UInt8) :=
  if out.length + s.length ≤ 40 then some (out ++ s) else none

/-- The loop that writes zero components, without a leading separator. -/
def zeroComponents : ℕ → List UInt8 → Option (List UInt8)
  | 0, out => some out
  | k + 1, out =>
      ((if out = [] then some out else writeChars out [ascii ':']).bind
        (writeChars · [ascii '0'])).bind (zeroComponents k)

/-- The separator behind a component, "if this was not the last char of the input". -/
def separator (closedComponent : Bool) (input out : List UInt8) : Option (List UInt8) :=
  if closedComponent ∧ input ≠ [] then writeChars out [ascii ':'] else some out

/-- The second loop, which ends with the terminator. -/
def expandLoop (count : ℕ) : List UInt8 → List UInt8 → Option (List UInt8)
  | [], out => (writeChars out [0]).map fun _ => out
  | c :: s, out =>
      if c = ascii ':' then
        match s with
        | [] => expandLoop count [] out
        | d :: s' =>
            if d = ascii ':' then
              ((zeroComponents (8 - count) out).bind (separator (count < 8) s')).bind
                (expandLoop count s')
            else
              (separator true (d :: s') out).bind (expandLoop count (d :: s'))
      else (writeChars out [c]).bind (expandLoop count s)

/-- `oscap_expand_ipv6`: the string returned, unless the input is left or the buffer
overrun. -/
def oscapExpandIpv6 (input : List UInt8) : Option (List UInt8) :=
  (componentCount true 1 input).bind fun count => expandLoop count input []

/-! ### Addresses -/

/-- A group of an address: one to four hexadecimal digits. -/
structure Ipv6Group where
  text : List UInt8
  /-- There is a digit. -/
  ne_nil : text ≠ []
  /-- There are at most four. -/
  length_le : text.length ≤ 4
  /-- There is nothing else. -/
  digits : ∀ c ∈ text, isxdigit c = true

/-- The number that a group writes. -/
def Ipv6Group.value (g : Ipv6Group) : ℕ :=
  g.text.foldl (fun n c => 16 * n + (xdigitValue c).toNat) 0

/-- A group of one digit. -/
def Ipv6Group.digit (c : UInt8) (h : isxdigit c = true) : Ipv6Group :=
  ⟨[c], by simp, by simp, fun _ hd => List.mem_singleton.mp hd ▸ h⟩

/-- The group `0`. -/
def Ipv6Group.zero : Ipv6Group := .digit (ascii '0') rfl

/-- Groups with colons between them. -/
def joinGroups (gs : List Ipv6Group) : List UInt8 := [ascii ':'].intercalate (gs.map (·.text))

/-- A textual address: eight groups, or groups around `::`, which stands for the others. -/
inductive Ipv6Address
  | full (groups : List Ipv6Group) (h : groups.length = 8)
  | gap (front back : List Ipv6Group) (h : front.length + back.length < 8)

namespace Ipv6Address

/-- The text of an address. -/
def text : Ipv6Address → List UInt8
  | full groups _ => joinGroups groups
  | gap front back _ => joinGroups front ++ ascii ':' :: ascii ':' :: joinGroups back

/-- The eight numbers of an address. -/
def values : Ipv6Address → List ℕ
  | full groups _ => groups.map Ipv6Group.value
  | gap front back _ =>
      front.map Ipv6Group.value ++ List.replicate (8 - (front.length + back.length)) 0 ++
        back.map Ipv6Group.value

/-- The 128 bits of an address. -/
def bits (a : Ipv6Address) : ℕ := a.values.foldl (fun n v => 2 ^ 16 * n + v) 0

end Ipv6Address

/-- The text has eight groups and denotes the address. -/
def IsExpansion (a : Ipv6Address) (out : List UInt8) : Prop :=
  ∃ groups h, out = (Ipv6Address.full groups h).text ∧
    (Ipv6Address.full groups h).bits = a.bits

/-! ### Texts of groups -/

/-- A hexadecimal digit is no colon. -/
theorem isxdigit_ne_colon {c : UInt8} (h : isxdigit c = true) : c ≠ ascii ':' := by
  rintro rfl
  exact absurd h (by decide)

theorem Ipv6Group.ne_colon (g : Ipv6Group) : ∀ c ∈ g.text, c ≠ ascii ':' :=
  fun c hc => isxdigit_ne_colon (g.digits c hc)

@[simp] theorem joinGroups_nil : joinGroups [] = [] := rfl

/-- The first group and the others, each behind a colon. -/
theorem joinGroups_cons (g : Ipv6Group) (gs : List Ipv6Group) :
    joinGroups (g :: gs) = g.text ++ gs.flatMap fun g => ascii ':' :: g.text := by
  rw [joinGroups, List.map_cons, DelimitedText.intercalate_cons, List.flatMap_map]

theorem joinGroups_eq_nil {gs : List Ipv6Group} : joinGroups gs = [] ↔ gs = [] := by
  cases gs with
  | nil => simp
  | cons g gs => simp [joinGroups_cons, g.ne_nil]

/-- Groups behind others. -/
theorem joinGroups_append {gs hs : List Ipv6Group} (hgs : gs ≠ []) (hhs : hs ≠ []) :
    joinGroups (gs ++ hs) = joinGroups gs ++ ascii ':' :: joinGroups hs := by
  obtain ⟨g, gs, rfl⟩ := List.exists_cons_of_ne_nil hgs
  obtain ⟨h, hs, rfl⟩ := List.exists_cons_of_ne_nil hhs
  simp [joinGroups_cons]

/-- A group takes five characters at most, and the first one four. -/
theorem length_joinGroups (gs : List Ipv6Group) : (joinGroups gs).length ≤ 5 * gs.length - 1 := by
  cases gs with
  | nil => simp
  | cons g gs =>
      have htail : (gs.flatMap fun g => ascii ':' :: g.text).length ≤ 5 * gs.length := by
        induction gs with
        | nil => simp
        | cons h hs ih =>
            have hlen := h.length_le
            rw [List.flatMap_cons, List.length_append, List.length_cons, List.length_cons]
            omega
      have hlen := g.length_le
      rw [joinGroups_cons, List.length_append, List.length_cons]
      omega

/-- The groups of a text are as many as its pieces between colons. -/
theorem length_splitOn_joinGroups {gs : List Ipv6Group} (h : gs ≠ []) :
    ((joinGroups gs).splitOn (ascii ':')).length = gs.length := by
  rw [joinGroups, List.splitOn_intercalate, List.length_map]
  · intro t ht hmem
    obtain ⟨g, -, rfl⟩ := List.mem_map.mp ht
    exact g.ne_colon _ hmem rfl
  · simpa using h

/-! ### Counting -/

theorem componentCount_of_ne {start : Bool} {n : ℕ} {c : UInt8} {s : List UInt8}
    (h : c ≠ ascii ':') : componentCount start n (c :: s) = componentCount false n s := by
  rw [componentCount.eq_def]
  exact if_neg h

theorem componentCount_colon {start : Bool} {n : ℕ} {c : UInt8} {s : List UInt8} :
    componentCount start n (ascii ':' :: c :: s) =
      componentCount false (if start then n else (n + 1) % 2 ^ 16) s := by
  rw [componentCount.eq_def]
  exact if_pos rfl

/-- No component is counted within a group. -/
theorem componentCount_group {g : List UInt8} (h : ∀ c ∈ g, c ≠ ascii ':') (start : Bool)
    (n : ℕ) (s : List UInt8) :
    componentCount start n (g ++ s) = componentCount (start && g.isEmpty) n s := by
  induction g generalizing start with
  | nil => simp
  | cons c g ih =>
      rw [List.cons_append, componentCount_of_ne (h c (by simp)),
        ih (fun d hd => h d (List.mem_cons_of_mem _ hd))]
      simp

/-- One component is counted for every group behind a colon. -/
theorem componentCount_groups (gs : List Ipv6Group) {n : ℕ} (h : n + gs.length < 2 ^ 16)
    (s : List UInt8) :
    componentCount false n ((gs.flatMap fun g => ascii ':' :: g.text) ++ s) =
      componentCount false (n + gs.length) s := by
  induction gs generalizing n with
  | nil => rfl
  | cons g gs ih =>
      obtain ⟨c, t, hg⟩ := List.exists_cons_of_ne_nil g.ne_nil
      have hcolon : ∀ d ∈ t, d ≠ ascii ':' := fun d hd =>
        g.ne_colon d (hg ▸ List.mem_cons_of_mem _ hd)
      rw [List.length_cons] at h
      have hmod : (n + 1) % 2 ^ 16 = n + 1 := Nat.mod_eq_of_lt (by omega)
      rw [List.flatMap_cons, hg, List.cons_append, List.cons_append, List.cons_append,
        List.cons_append, componentCount_colon, if_neg Bool.false_ne_true, hmod,
        List.append_assoc, componentCount_group hcolon, Bool.false_and, ih (by omega),
        List.length_cons, Nat.add_assoc, Nat.add_comm 1]

/-- The components of joined groups, the first of which is counted already. -/
theorem componentCount_joinGroups {gs : List Ipv6Group} (hne : gs ≠ []) (start : Bool) {n : ℕ}
    (h : n + gs.length < 2 ^ 16) (s : List UInt8) :
    componentCount start n (joinGroups gs ++ s) =
      componentCount false (n + (gs.length - 1)) s := by
  obtain ⟨g, gs, rfl⟩ := List.exists_cons_of_ne_nil hne
  have hempty : g.text.isEmpty = false := by simpa using g.ne_nil
  rw [joinGroups_cons, List.append_assoc, componentCount_group g.ne_colon, hempty,
    Bool.and_false, componentCount_groups gs (by simp at h; omega)]
  rfl

/-- The components of an address, with one for an empty end. -/
def Ipv6Address.counted : Ipv6Address → ℕ
  | .full _ _ => 8
  | .gap front back _ => front.length + max 1 back.length

/-- **What the first loop counts**: all groups, and one for an empty end. -/
theorem componentCount_text (a : Ipv6Address) :
    componentCount true 1 a.text = some a.counted := by
  -- what is counted behind `::`
  have hback : ∀ (back : List Ipv6Group) (n : ℕ), n + back.length < 2 ^ 16 →
      componentCount false n (joinGroups back) = some (n + (back.length - 1)) := by
    intro back n h
    by_cases hne : back = []
    · subst hne
      rfl
    · have hcount := componentCount_joinGroups hne false h []
      rwa [List.append_nil] at hcount
  cases a with
  | full groups h =>
      have hne : groups ≠ [] := by
        rintro rfl
        simp at h
      have hcount := componentCount_joinGroups hne true (n := 1) (by omega) []
      rw [List.append_nil, h] at hcount
      exact hcount
  | gap front back h =>
      rw [Ipv6Address.text, Ipv6Address.counted]
      by_cases hne : front = []
      · subst hne
        rw [joinGroups_nil, List.nil_append, componentCount_colon, if_pos rfl,
          hback back 1 (by omega)]
        simp only [List.length_nil]
        congr 1
        omega
      · have hpos := List.length_pos_iff.mpr hne
        have hmod : (1 + (front.length - 1) + 1) % 2 ^ 16 = front.length + 1 := by omega
        rw [componentCount_joinGroups hne true (by omega), componentCount_colon,
          if_neg Bool.false_ne_true, hmod, hback back _ (by omega)]
        congr 1
        omega

/-! ### Writing -/

theorem writeChars_of_le {out s : List UInt8} (h : out.length + s.length ≤ 40) :
    writeChars out s = some (out ++ s) := if_pos h

/-- A group is copied. -/
theorem expandLoop_group {count : ℕ} {g : List UInt8} (hg : ∀ c ∈ g, c ≠ ascii ':')
    {out : List UInt8} (h : out.length + g.length ≤ 40) (s : List UInt8) :
    expandLoop count (g ++ s) out = expandLoop count s (out ++ g) := by
  induction g generalizing out with
  | nil => rw [List.nil_append, List.append_nil]
  | cons c g ih =>
      rw [List.length_cons] at h
      rw [List.cons_append, expandLoop.eq_def]
      simp only [if_neg (hg c (by simp))]
      rw [writeChars_of_le (by simp; omega), Option.bind_some,
        ih (fun d hd => hg d (List.mem_cons_of_mem _ hd)) (by simp; omega), List.append_assoc]
      rfl

/-- Groups behind colons are copied. -/
theorem expandLoop_groups {count : ℕ} (gs : List Ipv6Group) {out : List UInt8}
    (h : out.length + (gs.flatMap fun g => ascii ':' :: g.text).length ≤ 40) (s : List UInt8) :
    expandLoop count ((gs.flatMap fun g => ascii ':' :: g.text) ++ s) out =
      expandLoop count s (out ++ gs.flatMap fun g => ascii ':' :: g.text) := by
  induction gs generalizing out with
  | nil => rw [List.flatMap_nil, List.nil_append, List.append_nil]
  | cons g gs ih =>
      obtain ⟨c, t, hg⟩ := List.exists_cons_of_ne_nil g.ne_nil
      have hc : c ≠ ascii ':' := g.ne_colon c (hg ▸ List.mem_cons_self)
      have hcolon : ∀ d ∈ c :: t, d ≠ ascii ':' := hg ▸ g.ne_colon
      rw [List.flatMap_cons, List.length_append, List.length_cons, hg] at h
      have hstep : expandLoop count (ascii ':' :: (c :: t) ++
            ((gs.flatMap fun g => ascii ':' :: g.text) ++ s)) out =
          expandLoop count ((c :: t) ++ ((gs.flatMap fun g => ascii ':' :: g.text) ++ s))
            (out ++ [ascii ':']) := by
        rw [List.cons_append, List.cons_append, expandLoop.eq_def]
        simp only [if_true, if_neg hc]
        rw [separator, if_pos (by simp), writeChars_of_le (by simp; omega)]
        rfl
      rw [List.flatMap_cons, hg, List.append_assoc, hstep,
        expandLoop_group hcolon (by rw [List.length_append, List.length_singleton]; omega),
        ih (by rw [List.length_append, List.length_append, List.length_singleton]; omega)]
      simp

/-- Joined groups are copied. -/
theorem expandLoop_joinGroups {count : ℕ} (gs : List Ipv6Group) {out : List UInt8}
    (h : out.length + (joinGroups gs).length ≤ 40) (s : List UInt8) :
    expandLoop count (joinGroups gs ++ s) out = expandLoop count s (out ++ joinGroups gs) := by
  cases gs with
  | nil => rw [joinGroups_nil, List.nil_append, List.append_nil]
  | cons g gs =>
      rw [joinGroups_cons, List.length_append] at h
      rw [joinGroups_cons, List.append_assoc, expandLoop_group g.ne_colon (by omega),
        expandLoop_groups gs (by rw [List.length_append]; omega), List.append_assoc]

/-- The zeros continue the groups written before. -/
theorem zeroComponents_joinGroups (k : ℕ) {gs : List Ipv6Group} (h : gs.length + k ≤ 8) :
    zeroComponents k (joinGroups gs) =
      some (joinGroups (gs ++ List.replicate k Ipv6Group.zero)) := by
  induction k generalizing gs with
  | zero => simp [zeroComponents]
  | succ k ih =>
      have hstep : (if joinGroups gs = [] then some (joinGroups gs)
            else writeChars (joinGroups gs) [ascii ':']).bind (writeChars · [ascii '0']) =
          some (joinGroups (gs ++ [Ipv6Group.zero])) := by
        by_cases hne : gs = []
        · subst hne
          rfl
        · have hpos := List.length_pos_iff.mpr hne
          have hlen := length_joinGroups gs
          rw [if_neg (mt joinGroups_eq_nil.mp hne), writeChars_of_le (by simp; omega),
            Option.bind_some, writeChars_of_le (by simp; omega),
            joinGroups_append hne (by simp), List.append_assoc]
          rfl
      have hroom : (gs ++ [Ipv6Group.zero]).length + k ≤ 8 := by simp; omega
      have hrest := ih hroom
      rw [List.append_assoc, List.singleton_append, ← List.replicate_succ] at hrest
      rw [← hrest, zeroComponents, hstep, Option.bind_some]

/-! ### The expansion -/

/-- The groups written for an address. -/
def Ipv6Address.written : Ipv6Address → List Ipv6Group
  | .full groups _ => groups
  | .gap front back _ =>
      front ++ List.replicate (8 - (front.length + max 1 back.length)) Ipv6Group.zero ++ back

/-- The terminator is written behind eight groups or fewer. -/
theorem expandLoop_nil {count : ℕ} {gs : List Ipv6Group} (h : gs.length ≤ 8) :
    expandLoop count [] (joinGroups gs) = some (joinGroups gs) := by
  have hlen := length_joinGroups gs
  rw [expandLoop, writeChars_of_le (by simp; omega)]
  rfl

/-- **What is written for a valid address**: never past the buffer, and nothing else is read. -/
theorem oscapExpandIpv6_text (a : Ipv6Address) :
    oscapExpandIpv6 a.text = some (joinGroups a.written) := by
  rw [oscapExpandIpv6, componentCount_text, Option.bind_some]
  cases a with
  | full groups h =>
      have hlen := length_joinGroups groups
      have hroom : ([] : List UInt8).length + (joinGroups groups).length ≤ 40 := by simp; omega
      have hcopy : expandLoop 8 (joinGroups groups ++ []) [] = _ :=
        expandLoop_joinGroups groups hroom []
      rw [List.append_nil, List.nil_append] at hcopy
      exact hcopy.trans (expandLoop_nil (by omega))
  | gap front back h =>
      have hlen := length_joinGroups front
      simp only [Ipv6Address.text, Ipv6Address.written, Ipv6Address.counted]
      rw [expandLoop_joinGroups front (by simp; omega), List.nil_append, expandLoop.eq_def]
      simp only [if_true]
      rw [zeroComponents_joinGroups _ (by omega), Option.bind_some]
      set zeros := List.replicate (8 - (front.length + max 1 back.length)) Ipv6Group.zero
        with hzeros
      have hcount : (front ++ zeros).length ≤ 8 := by simp [hzeros]; omega
      by_cases hback : back = []
      · subst hback
        rw [joinGroups_nil, separator, if_neg (by simp), Option.bind_some,
          List.append_nil]
        exact expandLoop_nil hcount
      · have hpos := List.length_pos_iff.mpr hback
        have hne : front ++ zeros ≠ [] := by
          intro hnil
          have hzero : (front ++ zeros).length = 0 := by rw [hnil]; rfl
          simp [hzeros] at hzero
          omega
        have height : (front ++ zeros ++ back).length ≤ 8 := by simp [hzeros]; omega
        have hall := length_joinGroups (front ++ zeros ++ back)
        have hjoin := joinGroups_append hne hback
        have hlength := congrArg List.length hjoin
        rw [List.length_append, List.length_cons] at hlength
        have hroom : (joinGroups (front ++ zeros) ++ [ascii ':']).length +
            (joinGroups back).length ≤ 40 := by simp; omega
        have hcopy : expandLoop (front.length + max 1 back.length) (joinGroups back ++ []) _ = _ :=
          expandLoop_joinGroups back hroom []
        rw [List.append_nil, List.append_assoc, List.singleton_append, ← hjoin] at hcopy
        rw [separator, if_pos ⟨by simp; omega, mt joinGroups_eq_nil.mp hback⟩,
          writeChars_of_le (by simp; omega), Option.bind_some]
        exact hcopy.trans (expandLoop_nil height)

/-- The numbers written are those of the address, unless it ends in `::`. -/
theorem values_written {a : Ipv6Address} (h : ∀ front h, a ≠ .gap front [] h) :
    a.written.length = 8 ∧ a.written.map Ipv6Group.value = a.values := by
  cases a with
  | full groups hlen => exact ⟨hlen, rfl⟩
  | gap front back hlen =>
      have hpos : 0 < back.length := by
        refine List.length_pos_iff.mpr fun hnil => ?_
        subst hnil
        exact h front hlen rfl
      have hmax : max 1 back.length = back.length := by omega
      constructor
      · simp [Ipv6Address.written, hmax]
        omega
      · simp [Ipv6Address.written, Ipv6Address.values, hmax, show Ipv6Group.zero.value = 0 from rfl]

/-- Behind `::` at the end one group is missing. -/
theorem length_written_gap {front : List Ipv6Group} (h : front.length + 0 < 8) :
    (Ipv6Address.gap front [] h).written.length = 7 := by
  simp [Ipv6Address.written]
  omega

/-- Joined groups do not end in a colon. -/
theorem getLast_joinGroups (gs : List Ipv6Group) :
    (joinGroups gs).getLast? ≠ some (ascii ':') := by
  induction gs using List.reverseRecOn with
  | nil => simp
  | append_singleton gs g _ =>
      have hlast : (joinGroups (gs ++ [g])).getLast? = g.text.getLast? := by
        have hsome : g.text.getLast? = some (g.text.getLast g.ne_nil) :=
          List.getLast?_eq_some_getLast g.ne_nil
        cases gs with
        | nil => simp [joinGroups]
        | cons f fs => simp [joinGroups_cons, List.getLast?_cons, hsome]
      rw [hlast]
      exact fun hcolon => g.ne_colon _ (List.mem_of_getLast? hcolon) rfl

/-- The text of an address ends in `::` exactly if nothing stands behind its gap. -/
theorem colons_suffix_iff {a : Ipv6Address} :
    bytes [':', ':'] <:+ a.text ↔ ∃ front h, a = .gap front [] h := by
  have hlast : bytes [':', ':'] <:+ a.text → a.text.getLast? = some (ascii ':') := by
    rintro ⟨s, hs⟩
    rw [← hs]
    simp [bytes]
  constructor
  · intro h
    cases a with
    | full groups hlen => exact absurd (hlast h) (getLast_joinGroups groups)
    | gap front back hlen =>
        by_cases hback : back = []
        · subst hback
          exact ⟨front, hlen, rfl⟩
        · refine absurd (hlast h) ?_
          have hne : joinGroups back ≠ [] := mt joinGroups_eq_nil.mp hback
          have hend : (Ipv6Address.gap front back hlen).text.getLast? =
              (joinGroups back).getLast? := by
            rw [Ipv6Address.text, List.getLast?_append, List.getLast?_cons_cons,
              List.getLast?_cons, List.getLast?_eq_some_getLast hne]
            rfl
          rw [hend]
          exact getLast_joinGroups back
  · rintro ⟨front, h, rfl⟩
    exact ⟨joinGroups front, rfl⟩

/-- **The expansion has eight groups and denotes the same address exactly if the text does not
end in `::`.** -/
theorem expands_iff (a : Ipv6Address) :
    (∃ out, oscapExpandIpv6 a.text = some out ∧ IsExpansion a out) ↔
      ¬ bytes [':', ':'] <:+ a.text := by
  rw [oscapExpandIpv6_text, colons_suffix_iff]
  constructor
  · rintro ⟨out, hout, groups, hlen, heq, -⟩ ⟨front, h, rfl⟩
    obtain rfl := Option.some.inj hout
    have hne : (Ipv6Address.gap front [] h).written ≠ [] := by
      intro hnil
      have hseven := length_written_gap h
      rw [hnil] at hseven
      cases hseven
    have hne' : groups ≠ [] := by
      rintro rfl
      cases hlen
    have hcount := congrArg (fun t => (t.splitOn (ascii ':')).length) heq
    simp only [Ipv6Address.text] at hcount
    rw [length_splitOn_joinGroups hne, length_splitOn_joinGroups hne', length_written_gap h,
      hlen] at hcount
    omega
  · intro h
    obtain ⟨hlen, hvalues⟩ := values_written fun front hfront heq => h ⟨front, hfront, heq⟩
    refine ⟨_, rfl, a.written, hlen, rfl, ?_⟩
    rw [Ipv6Address.bits, Ipv6Address.values, hvalues]
    rfl

/-- The group `1`. -/
def Ipv6Group.one : Ipv6Group := .digit (ascii '1') rfl

/-- `1::` is expanded to seven groups. -/
theorem not_expands :
    ¬ ∀ a : Ipv6Address, ∃ out, oscapExpandIpv6 a.text = some out ∧ IsExpansion a out := by
  intro h
  obtain ⟨out, hout, groups, hlen, heq, -⟩ := h (.gap [.one] [] (by decide))
  have hne : groups ≠ [] := by
    rintro rfl
    cases hlen
  have hseven : oscapExpandIpv6 (bytes ['1', ':', ':']) =
      some (joinGroups (.one :: List.replicate 6 .zero)) := by decide +kernel
  obtain rfl : joinGroups (.one :: List.replicate 6 .zero) = out :=
    Option.some.inj (hseven.symm.trans hout)
  have hcount := congrArg (fun t => (t.splitOn (ascii ':')).length) heq
  simp only [Ipv6Address.text] at hcount
  rw [length_splitOn_joinGroups (by simp), length_splitOn_joinGroups hne, hlen] at hcount
  cases hcount

end OpenScap
