import OpenScap.LeafTree
import OpenScap.SexpBlocks
import OpenScap.SexpNumber

/-!
# The comparison of S-expressions

An S-expression as it is stored: a list is a chain of blocks with an offset into the first one.
Lists are compared by two iterators, strings as C strings, and integers by their 64 bits as
`SEXP_number_getu_64` gives them. Whether two doubles are equal is a parameter.

## Main results

* `deepcmp_spec` — the comparison comes to an end, and finds out whether the leaves at the same
  places are equal for it;
* `deepcmp_structural_iff` — when it tells whether the values are equal.
-/

namespace OpenScap.Deepcmp

open LeafTree

/-! ### Stored S-expressions -/

/-- What is not a list. -/
inductive Atom
  | string (s : List UInt8)
  | number (n : SexpNumber)

/-- An S-expression as it is stored. -/
inductive StoredSexp
  | atom (a : Atom)
  | list (offset : ℕ) (blocks : List (List StoredSexp))

mutual

/-- An S-expression without its blocks. -/
def StoredSexp.content : StoredSexp → LeafTree Atom
  | .atom a => .leaf a
  | .list offset blocks => .node ((blocksContent blocks).drop offset)

/-- The members of blocks. -/
def blocksContent : List (List StoredSexp) → List (LeafTree Atom)
  | [] => []
  | block :: blocks => blockContent block ++ blocksContent blocks

/-- The members of a block. -/
def blockContent : List StoredSexp → List (LeafTree Atom)
  | [] => []
  | memb :: membs => memb.content :: blockContent membs

end

/-- The lists of an S-expression are proper. -/
inductive Proper : StoredSexp → Prop
  | atom (a : Atom) : Proper (.atom a)
  | list (offset : ℕ) (blocks : List (List StoredSexp)) (hwithin : Within offset blocks)
      (hmembs : ∀ memb ∈ blocks.flatten, Proper memb) : Proper (.list offset blocks)

/-! ### The comparison -/

/-- The comparison of numbers. -/
def numberCmp (doubleEq : UInt64 → UInt64 → Bool) : SexpNumber → SexpNumber → Bool
  | .double m, .double n => doubleEq m n
  | .double _, _ => false
  | a, b => a.getu64 = b.getu64

/-- `SEXP_deepcmp` of simple objects; that of strings is `SEXP_string_cmp`. -/
def atomCmp (doubleEq : UInt64 → UInt64 → Bool) : Atom → Atom → Bool
  | .string s, .string t => s.takeWhile (· ≠ 0) = t.takeWhile (· ≠ 0)
  | .number m, .number n => numberCmp doubleEq m n
  | .string _, .number _ => false
  | .number _, .string _ => false

mutual

/-- `SEXP_deepcmp`. -/
def deepcmp (doubleEq : UInt64 → UInt64 → Bool) : ℕ → StoredSexp → StoredSexp → Option Bool
  | 0, _, _ => none
  | _ + 1, .atom a, .atom b => some (atomCmp doubleEq a b)
  | fuel + 1, .list offset_a blocks_a, .list offset_b blocks_b =>
      compareLists doubleEq fuel ⟨blocks_a, offset_a⟩ ⟨blocks_b, offset_b⟩
  | _ + 1, .atom _, .list _ _ => some false
  | _ + 1, .list _ _, .atom _ => some false

/-- The loop over the members of lists. -/
def compareLists (doubleEq : UInt64 → UInt64 → Bool) :
    ℕ → ListIt StoredSexp → ListIt StoredSexp → Option Bool
  | 0, _, _ => none
  | fuel + 1, it_a, it_b =>
      match it_a.next, it_b.next with
      | some (some ia, it_a), some (some ib, it_b) =>
          match deepcmp doubleEq fuel ia ib with
          | some true => compareLists doubleEq fuel it_a it_b
          | ret => ret
      | some (none, _), some (none, _) => some true
      | some (some _, _), some (none, _) => some false
      | some (none, _), some (some _, _) => some false
      | _, _ => none

end

/-! ### What the comparison finds out -/

/-- The members of blocks, one after the other. -/
theorem blockContent_eq (membs : List StoredSexp) :
    blockContent membs = membs.map StoredSexp.content := by
  induction membs with
  | nil => rfl
  | cons memb membs ih => rw [blockContent, ih, List.map_cons]

/-- The members of a list. -/
theorem content_list (offset : ℕ) (blocks : List (List StoredSexp)) :
    (StoredSexp.list offset blocks).content =
      .node ((ListIt.rest ⟨blocks, offset⟩).map StoredSexp.content) := by
  have hblocks : blocksContent blocks = blocks.flatten.map StoredSexp.content := by
    induction blocks with
    | nil => rfl
    | cons block blocks ih =>
        rw [blocksContent, ih, blockContent_eq, List.flatten_cons, List.map_append]
  rw [StoredSexp.content, hblocks, ListIt.rest, List.map_drop]

section Spec

variable (doubleEq : UInt64 → UInt64 → Bool)

/-- The comparison comes to an end and tells whether the S-expressions are the same for it. -/
def Settles (x y : StoredSexp) : Prop :=
  ∃ n, ∀ fuel ≥ n, deepcmp doubleEq fuel x y =
    some (sameBy (atomCmp doubleEq) x.content y.content)

/-- The loop compares member by member. -/
theorem compareLists_spec {membs_a : List StoredSexp} {it_a it_b : ListIt StoredSexp}
    (hwithin_a : Within it_a.index it_a.blocks) (hwithin_b : Within it_b.index it_b.blocks)
    (ha : it_a.rest = membs_a)
    (hmembs : ∀ x ∈ membs_a, ∀ y ∈ it_b.rest, Settles doubleEq x y) :
    ∃ n, ∀ fuel ≥ n, compareLists doubleEq fuel it_a it_b =
      some (sameListBy (atomCmp doubleEq) (membs_a.map StoredSexp.content)
        (it_b.rest.map StoredSexp.content)) := by
  induction membs_a generalizing it_a it_b with
  | nil =>
      have hnext_a := ListIt.next_of_nil hwithin_a ha
      refine ⟨1, fun fuel hfuel => ?_⟩
      obtain ⟨fuel, rfl⟩ : ∃ n, fuel = n + 1 := ⟨fuel - 1, by omega⟩
      cases hb : it_b.rest with
      | nil =>
          rw [compareLists, hnext_a, ListIt.next_of_nil hwithin_b hb]
          rfl
      | cons y ys =>
          obtain ⟨it_b', hnext_b, -, -⟩ := ListIt.next_of_cons hwithin_b hb
          rw [compareLists, hnext_a, hnext_b]
          rfl
  | cons x xs ih =>
      obtain ⟨it_a', hnext_a, hwithin_a', ha'⟩ := ListIt.next_of_cons hwithin_a ha
      cases hb : it_b.rest with
      | nil =>
          refine ⟨1, fun fuel hfuel => ?_⟩
          obtain ⟨fuel, rfl⟩ : ∃ n, fuel = n + 1 := ⟨fuel - 1, by omega⟩
          rw [compareLists, hnext_a, ListIt.next_of_nil hwithin_b hb]
          rfl
      | cons y ys =>
          obtain ⟨it_b', hnext_b, hwithin_b', hb'⟩ := ListIt.next_of_cons hwithin_b hb
          rw [hb] at hmembs
          obtain ⟨n, hfirst⟩ := hmembs x List.mem_cons_self y List.mem_cons_self
          obtain ⟨m, hrest⟩ := ih hwithin_a' hwithin_b' ha' fun x' hx' y' hy' =>
            hmembs x' (List.mem_cons_of_mem _ hx') y' (List.mem_cons_of_mem _ (hb' ▸ hy'))
          refine ⟨n + m + 1, fun fuel hfuel => ?_⟩
          obtain ⟨fuel, rfl⟩ : ∃ k, fuel = k + 1 := ⟨fuel - 1, by omega⟩
          rw [compareLists, hnext_a, hnext_b, List.map_cons, List.map_cons, sameListBy_cons]
          simp only [hfirst fuel (by omega)]
          cases sameBy (atomCmp doubleEq) x.content y.content with
          | false => rfl
          | true => simpa [hb'] using hrest fuel (by omega)

/-- **The comparison comes to an end, and finds out whether the leaves at the same places are equal
for it.** -/
theorem deepcmp_spec {x y : StoredSexp} (hx : Proper x) (hy : Proper y) : Settles doubleEq x y := by
  induction hx generalizing y with
  | atom a =>
      refine ⟨1, fun fuel hfuel => ?_⟩
      obtain ⟨fuel, rfl⟩ : ∃ n, fuel = n + 1 := ⟨fuel - 1, by omega⟩
      cases hy with
      | atom b => simp [deepcmp, StoredSexp.content, sameBy, pairs, allRelated]
      | list offset blocks hwithin hmembs => rfl
  | list offset blocks hwithin hmembs ih =>
      cases hy with
      | atom b =>
          refine ⟨1, fun fuel hfuel => ?_⟩
          obtain ⟨fuel, rfl⟩ : ∃ n, fuel = n + 1 := ⟨fuel - 1, by omega⟩
          rfl
      | list offset' blocks' hwithin' hmembs' =>
          obtain ⟨n, hloop⟩ := @compareLists_spec doubleEq _ ⟨blocks, offset⟩ ⟨blocks', offset'⟩
            hwithin hwithin' rfl fun x hx y hy =>
              ih x (List.mem_of_mem_drop hx) (hmembs' y (List.mem_of_mem_drop hy))
          refine ⟨n + 1, fun fuel hfuel => ?_⟩
          obtain ⟨fuel, rfl⟩ : ∃ k, fuel = k + 1 := ⟨fuel - 1, by omega⟩
          rw [deepcmp, hloop fuel (by omega), content_list, content_list, sameBy_node]

end Spec

/-! ### Values -/

/-- What an atom denotes: a text, an integer or a truth value (or the bits of a double). -/
inductive AtomValue
  | text (s : List UInt8)
  | integer (n : ℤ)
  | truth (b : Bool)
  | double (n : UInt64)
  deriving DecidableEq

/-- The value of a number. -/
def numberValue : SexpNumber → AtomValue
  | .bool n => .truth (n ≠ 0)
  | .double n => .double n
  | n => .integer (n.integer.getD 0)

/-- The value of an atom. -/
def Atom.value : Atom → AtomValue
  | .string s => .text s
  | .number n => numberValue n

/-- What the comparison takes an atom for: a C string, or 64 bits. -/
def Atom.seen : Atom → List UInt8 ⊕ UInt64
  | .string s => .inl (s.takeWhile (· ≠ 0))
  | .number n => .inr n.getu64

/-- An atom that is a string, an integer or a boolean. -/
def Atom.Plain : Atom → Prop
  | .number (.double _) => False
  | _ => True

/-- An S-expression of strings, integers, booleans and lists. -/
structure PlainSexp where
  sexp : StoredSexp
  proper : Proper sexp
  plain : ∀ a ∈ sexp.content.leaves, a.Plain

/-- What an S-expression denotes. -/
def PlainSexp.value (x : PlainSexp) : LeafTree AtomValue := x.sexp.content.map Atom.value

/-- The comparison ends, and with this result. -/
def Returns (doubleEq : UInt64 → UInt64 → Bool) (x y : PlainSexp) (ret : Bool) : Prop :=
  ∃ n, ∀ fuel ≥ n, deepcmp doubleEq fuel x.sexp y.sexp = some ret

/-- The comparison tells whether the values are equal. -/
def TellsEqual (doubleEq : UInt64 → UInt64 → Bool) (x y : PlainSexp) : Prop :=
  ∃ ret, Returns doubleEq x y ret ∧ (ret = true ↔ x.value = y.value)

/-- If the S-expressions have one shape, then some atoms at the same place are taken for different
ones exactly if some are different. -/
def DifferencesSeen (x y : PlainSexp) : Prop :=
  ∀ ps, pairs x.sexp.content y.sexp.content = some ps →
    ((∃ p ∈ ps, p.1.seen ≠ p.2.seen) ↔ ∃ p ∈ ps, p.1.value ≠ p.2.value)

/-- The comparison of plain atoms. -/
theorem atomCmp_eq (doubleEq : UInt64 → UInt64 → Bool) {a b : Atom} (ha : a.Plain) (hb : b.Plain) :
    atomCmp doubleEq a b = decide (a.seen = b.seen) := by
  cases a with
  | string s =>
      cases b with
      | string t => simp [atomCmp, Atom.seen]
      | number n => simp [atomCmp, Atom.seen]
  | number m =>
      cases b with
      | string t => simp [atomCmp, Atom.seen]
      | number n =>
          cases m with
          | double m => exact ha.elim
          | _ => simp [atomCmp, numberCmp, Atom.seen]

/-- **What the comparison returns** is whether the S-expressions look the same. -/
theorem returns_iff (doubleEq : UInt64 → UInt64 → Bool) (x y : PlainSexp) (ret : Bool) :
    Returns doubleEq x y ret ↔
      (ret = true ↔ x.sexp.content.map Atom.seen = y.sexp.content.map Atom.seen) := by
  obtain ⟨n, hspec⟩ := deepcmp_spec doubleEq x.proper y.proper
  rw [sameBy_congr fun a ha b hb => atomCmp_eq doubleEq (x.plain a ha) (y.plain b hb)] at hspec
  rw [map_eq_map_iff, ← Bool.eq_iff_iff]
  constructor
  · rintro ⟨m, hreturn⟩
    have hboth := (hreturn (n + m) (by omega)).symm.trans (hspec (n + m) (by omega))
    exact Option.some.inj hboth
  · rintro rfl
    exact ⟨n, hspec⟩

/-- The comparison tells whether the values are equal if looking the same does. -/
theorem tellsEqual_iff (doubleEq : UInt64 → UInt64 → Bool) (x y : PlainSexp) :
    TellsEqual doubleEq x y ↔
      (x.sexp.content.map Atom.seen = y.sexp.content.map Atom.seen ↔ x.value = y.value) := by
  constructor
  · rintro ⟨ret, hreturn, hvalue⟩
    exact ((returns_iff doubleEq x y ret).mp hreturn).symm.trans hvalue
  · intro h
    obtain ⟨n, hspec⟩ := deepcmp_spec doubleEq x.proper y.proper
    have hreturn : Returns doubleEq x y _ := ⟨n, hspec⟩
    exact ⟨_, hreturn, ((returns_iff doubleEq x y _).mp hreturn).trans h⟩

/-- Trees look different if they have another shape, or leaves that do. -/
theorem map_ne_map_iff {γ : Type} [DecidableEq γ] (f : Atom → γ) (t u : LeafTree Atom) :
    t.map f ≠ u.map f ↔ ∀ ps, pairs t u = some ps → ∃ p ∈ ps, f p.1 ≠ f p.2 := by
  rw [Ne, map_eq_map_iff, sameBy_iff]
  simp only [not_exists, not_and, not_forall, decide_eq_true_eq, exists_prop, ne_eq]

/-- **The comparison tells whether the values are equal** exactly if, in S-expressions of one shape,
it sees a difference where there is one and none where there is none; it is an equivalence in any
case. -/
theorem deepcmp_structural_iff (doubleEq : UInt64 → UInt64 → Bool) :
    (∀ x y, TellsEqual doubleEq x y ↔ DifferencesSeen x y) ∧
      Equivalence fun x y => Returns doubleEq x y true := by
  constructor
  · intro x y
    refine (tellsEqual_iff doubleEq x y).trans (not_iff_not.symm.trans ?_)
    rw [PlainSexp.value, PlainSexp.value]
    refine (iff_congr (map_ne_map_iff _ _ _) (map_ne_map_iff _ _ _)).trans ?_
    rw [DifferencesSeen]
    cases pairs x.sexp.content y.sexp.content with
    | none => simp
    | some ps => simp
  · simp only [returns_iff, true_iff]
    exact ⟨fun _ => rfl, Eq.symm, Eq.trans⟩

/-- An atom alone. -/
def PlainSexp.ofAtom (a : Atom) (h : a.Plain) : PlainSexp :=
  ⟨.atom a, .atom a, by simpa [StoredSexp.content, leaves] using h⟩

/-- Atoms alone are told apart right if they look the same exactly when they are. -/
theorem tellsEqual_ofAtom (doubleEq : UInt64 → UInt64 → Bool) {a b : Atom} (ha : a.Plain)
    (hb : b.Plain) : TellsEqual doubleEq (.ofAtom a ha) (.ofAtom b hb) ↔
      (a.seen = b.seen ↔ a.value = b.value) := by
  rw [tellsEqual_iff]
  simp only [PlainSexp.value, PlainSexp.ofAtom, StoredSexp.content, map, leaf.injEq]

/-- The integer -1 of 8 bits is taken for 255, and not for the integer -1 of 32 bits; strings are
the same if they are so up to a NUL. -/
theorem not_tellsEqual :
    ¬ TellsEqual (· == ·) (.ofAtom (.number (.int8 255)) trivial)
        (.ofAtom (.number (.uint8 255)) trivial) ∧
      ¬ TellsEqual (· == ·) (.ofAtom (.number (.int8 255)) trivial)
        (.ofAtom (.number (.int32 0xffffffff)) trivial) ∧
      ¬ TellsEqual (· == ·) (.ofAtom (.string [97, 0, 98]) trivial)
        (.ofAtom (.string [97, 0, 99]) trivial) := by
  refine ⟨fun h => ?_, fun h => ?_, fun h => ?_⟩
  · exact absurd ((tellsEqual_ofAtom _ _ _).mp h) (by decide)
  · exact absurd ((tellsEqual_ofAtom _ _ _).mp h) (by decide)
  · exact absurd ((tellsEqual_ofAtom _ _ _).mp h) (by decide)

end OpenScap.Deepcmp
