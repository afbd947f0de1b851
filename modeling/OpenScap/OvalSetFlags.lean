import OpenScap.OperationTree
import OpenScap.ProbeSet

/-!
# The flags of set objects

The flag of a set object is combined from the flags of the objects that it refers to, operation by
operation. The tables of the schema are symmetric; in the code the first operand decides some pairs.

## Main results

* `flagsIndependent_of_tame` — sets of objects do not depend on the order and the grouping where
  the operations are commutative and associative on flags that they do not leave;
* `flagsIndependent_iff` — for which flags of the objects no set depends on the order and the
  grouping of its operands.
-/

open OperationTree

namespace OpenScap.SetFlags

/-! ### Sets of objects -/

/-- A set object, as far as its flag goes: operations over the flags of objects. -/
abbrev SetTree := Tree SetOperation SyscharFlag

/-- The combination of flags, as an operation. -/
def combineFlags (op : SetOperation) (f1 f2 : SyscharFlag) : SyscharFlag :=
  probeCobjCombineFlags f1 f2 op

/-- The flag of a set object. -/
def flagOf (t : SetTree) : SyscharFlag := t.value combineFlags

/-- The set is made by these operations of objects with these flags. -/
def MadeOf (ops : List SetOperation) (flags : Set SyscharFlag) (t : SetTree) : Prop :=
  t.Over {op | op ∈ ops} flags

/-- No such set has another flag when its operands change places or are grouped in another way. -/
def FlagsIndependent (ops : List SetOperation) (flags : Set SyscharFlag) : Prop :=
  ∀ t t' : SetTree, MadeOf ops flags t → Rearranged t t' → flagOf t = flagOf t'

/-- Two flags do not come together. -/
def Apart (flags : Set SyscharFlag) (f1 f2 : SyscharFlag) : Prop := ¬ (f1 ∈ flags ∧ f2 ∈ flags)

/-- What does not come together in unions. -/
def UnionFlags (flags : Set SyscharFlag) : Prop :=
  .unknown ∈ flags → .incomplete ∉ flags ∧ Apart flags .notCollected .complete ∧
    Apart flags .notCollected .doesNotExist

/-- What does not come together in intersections. -/
def IntersectionFlags (flags : Set SyscharFlag) : Prop :=
  Apart flags .doesNotExist .error ∧ Apart flags .doesNotExist .unknown ∧
    Apart flags .incomplete .notCollected ∧ Apart flags .incomplete .notApplicable

/-- What does not come together in sets of both. -/
def MixedFlags (flags : Set SyscharFlag) : Prop :=
  IntersectionFlags flags ∧ Apart flags .incomplete .unknown ∧
    Apart flags .notCollected .complete ∧ Apart flags .notCollected .doesNotExist

/-! ### Flags on which the operations are tame -/

/-- The operations are tame on these flags, as a test. -/
def TameOn (ops : List SetOperation) (flags : List SyscharFlag) : Prop :=
  (∀ op ∈ ops, ∀ a ∈ flags, ∀ b ∈ flags,
    combineFlags op a b ∈ flags ∧ combineFlags op a b = combineFlags op b a) ∧
  ∀ op ∈ ops, ∀ a ∈ flags, ∀ b ∈ flags, ∀ c ∈ flags,
    combineFlags op (combineFlags op a b) c = combineFlags op a (combineFlags op b c)

instance (ops : List SetOperation) (flags : List SyscharFlag) : Decidable (TameOn ops flags) :=
  inferInstanceAs (Decidable (_ ∧ _))

/-- **Sets of objects with tame flags do not depend on the order and the grouping.** -/
theorem flagsIndependent_of_tame {ops : List SetOperation} (tame : List SyscharFlag)
    {flags : Set SyscharFlag} (h : TameOn ops tame) (hsub : ∀ f ∈ flags, f ∈ tame) :
    FlagsIndependent ops flags := by
  intro t t' hmade hrearranged
  have htame : Tame combineFlags {op | op ∈ ops} {f | f ∈ tame} :=
    ⟨fun op hop a ha b hb => (h.1 op hop a ha b hb).1,
      fun op hop a ha b hb => (h.1 op hop a ha b hb).2, h.2⟩
  exact value_eq_of_rearranged htame (hmade.mono hsub) hrearranged

/-! ### Flags that depend on the order -/

section Dependent

variable {ops : List SetOperation} {flags : Set SyscharFlag}

/-- Two sets may change places. -/
theorem combineFlags_comm (h : FlagsIndependent ops flags) (op : SetOperation) (hop : op ∈ ops)
    {a b : SetTree} (ha : MadeOf ops flags a) (hb : MadeOf ops flags b) :
    combineFlags op (flagOf a) (flagOf b) = combineFlags op (flagOf b) (flagOf a) :=
  h (.combine op a b) (.combine op b a) ⟨hop, ha, hb⟩ (.swap op a b)

/-- Flags that are combined differently in the two orders do not come together. -/
theorem apart_of_ne (h : FlagsIndependent ops flags) (op : SetOperation) (hop : op ∈ ops)
    {f1 f2 : SyscharFlag} (hne : combineFlags op f1 f2 ≠ combineFlags op f2 f1) :
    Apart flags f1 f2 := fun hboth =>
  hne (combineFlags_comm h op hop (a := .operand f1) (b := .operand f2) hboth.1 hboth.2)

/-- Neither do two flags and a third one, if those two give a flag that is combined differently with
this one in the two orders. -/
theorem apart_of_combine_ne (h : FlagsIndependent ops flags) (op op' : SetOperation)
    (hop : op ∈ ops) (hop' : op' ∈ ops) {f1 f2 f3 : SyscharFlag} (hf3 : f3 ∈ flags)
    (hne : combineFlags op' (combineFlags op f1 f2) f3 ≠
      combineFlags op' f3 (combineFlags op f1 f2)) : Apart flags f1 f2 := fun hboth =>
  hne (combineFlags_comm h op' hop' (a := .combine op (.operand f1) (.operand f2))
    (b := .operand f3) ⟨hop, hboth.1, hboth.2⟩ hf3)

/-- The pairs that intersections combine differently in the two orders do not come together. -/
theorem intersectionFlags_of_independent (hop : .intersection ∈ ops)
    (h : FlagsIndependent ops flags) : IntersectionFlags flags :=
  ⟨apart_of_ne h _ hop (by decide), apart_of_ne h _ hop (by decide),
    apart_of_ne h _ hop (by decide), apart_of_ne h _ hop (by decide)⟩

end Dependent

/-! ### The flags of sets -/

/-- Unions. -/
theorem flagsIndependent_union_iff (flags : Set SyscharFlag) :
    FlagsIndependent [.union] flags ↔ UnionFlags flags := by
  constructor
  · intro h hunknown
    have hincomplete : Apart flags .incomplete .unknown :=
      apart_of_ne h .union (by decide) (by decide)
    refine ⟨fun hmem => hincomplete ⟨hmem, hunknown⟩, ?_, ?_⟩
    · exact apart_of_combine_ne h .union .union (by decide) (by decide) hunknown
        (by decide)
    · exact apart_of_combine_ne h .union .union (by decide) (by decide) hunknown
        (by decide)
  · intro h
    by_cases hunknown : .unknown ∈ flags
    · obtain ⟨hincomplete, hcomplete, hdne⟩ := h hunknown
      by_cases hnc : .notCollected ∈ flags
      · refine flagsIndependent_of_tame
          [.error, .notCollected, .notApplicable, .unknown] (by decide) fun f hf => ?_
        cases f with
        | complete => exact absurd ⟨hnc, hf⟩ hcomplete
        | doesNotExist => exact absurd ⟨hnc, hf⟩ hdne
        | incomplete => exact absurd hf hincomplete
        | _ => decide
      · refine flagsIndependent_of_tame
          [.complete, .doesNotExist, .error, .notApplicable, .unknown] (by decide)
          fun f hf => ?_
        cases f with
        | notCollected => exact absurd hf hnc
        | incomplete => exact absurd hf hincomplete
        | _ => decide
    · refine flagsIndependent_of_tame
        [.complete, .error, .incomplete, .doesNotExist, .notCollected, .notApplicable]
        (by decide) fun f hf => ?_
      cases f with
      | unknown => exact absurd hf hunknown
      | _ => decide

/-- Intersections. -/
theorem flagsIndependent_intersection_iff (flags : Set SyscharFlag) :
    FlagsIndependent [.intersection] flags ↔ IntersectionFlags flags := by
  constructor
  · exact intersectionFlags_of_independent (by decide)
  · rintro ⟨herror, hunknown, hnc, hna⟩
    by_cases hdne : .doesNotExist ∈ flags
    · by_cases hincomplete : .incomplete ∈ flags
      · refine flagsIndependent_of_tame [.complete, .doesNotExist, .incomplete]
          (by decide) fun f hf => ?_
        cases f with
        | error => exact absurd ⟨hdne, hf⟩ herror
        | unknown => exact absurd ⟨hdne, hf⟩ hunknown
        | notCollected => exact absurd ⟨hincomplete, hf⟩ hnc
        | notApplicable => exact absurd ⟨hincomplete, hf⟩ hna
        | _ => decide
      · refine flagsIndependent_of_tame
          [.complete, .doesNotExist, .notCollected, .notApplicable] (by decide)
          fun f hf => ?_
        cases f with
        | error => exact absurd ⟨hdne, hf⟩ herror
        | unknown => exact absurd ⟨hdne, hf⟩ hunknown
        | incomplete => exact absurd hf hincomplete
        | _ => decide
    · by_cases hincomplete : .incomplete ∈ flags
      · refine flagsIndependent_of_tame [.complete, .error, .incomplete, .unknown]
          (by decide) fun f hf => ?_
        cases f with
        | doesNotExist => exact absurd hf hdne
        | notCollected => exact absurd ⟨hincomplete, hf⟩ hnc
        | notApplicable => exact absurd ⟨hincomplete, hf⟩ hna
        | _ => decide
      · refine flagsIndependent_of_tame
          [.complete, .error, .notCollected, .notApplicable, .unknown] (by decide)
          fun f hf => ?_
        cases f with
        | doesNotExist => exact absurd hf hdne
        | incomplete => exact absurd hf hincomplete
        | _ => decide

/-- Unions and intersections. -/
theorem flagsIndependent_mixed_iff (flags : Set SyscharFlag) :
    FlagsIndependent [.union, .intersection] flags ↔ MixedFlags flags := by
  constructor
  · intro h
    have hinter := intersectionFlags_of_independent (by decide) h
    -- with a third object of the flag `notCollected`, which a union makes incomplete
    have hagain : ∀ f2, combineFlags .union .notCollected f2 = .incomplete →
        Apart flags .notCollected f2 := by
      intro f2 hcombine hboth
      refine apart_of_combine_ne h .union .intersection (by decide) (by decide)
        hboth.1 ?_ hboth
      rw [hcombine]
      decide
    exact ⟨hinter, apart_of_ne h .union (by decide) (by decide), hagain _ rfl,
      hagain _ rfl⟩
  · rintro ⟨⟨herror, hunknown, hnc, hna⟩, hiu, hcomplete, hexists⟩
    by_cases hincomplete : .incomplete ∈ flags
    · by_cases hdne : .doesNotExist ∈ flags
      · refine flagsIndependent_of_tame [.complete, .doesNotExist, .incomplete]
          (by decide) fun f hf => ?_
        cases f with
        | error => exact absurd ⟨hdne, hf⟩ herror
        | unknown => exact absurd ⟨hdne, hf⟩ hunknown
        | notCollected => exact absurd ⟨hincomplete, hf⟩ hnc
        | notApplicable => exact absurd ⟨hincomplete, hf⟩ hna
        | _ => decide
      · refine flagsIndependent_of_tame [.complete, .error, .incomplete] (by decide)
          fun f hf => ?_
        cases f with
        | doesNotExist => exact absurd hf hdne
        | unknown => exact absurd ⟨hincomplete, hf⟩ hiu
        | notCollected => exact absurd ⟨hincomplete, hf⟩ hnc
        | notApplicable => exact absurd ⟨hincomplete, hf⟩ hna
        | _ => decide
    · by_cases hdne : .doesNotExist ∈ flags
      · refine flagsIndependent_of_tame [.complete, .doesNotExist, .notApplicable]
          (by decide) fun f hf => ?_
        cases f with
        | error => exact absurd ⟨hdne, hf⟩ herror
        | unknown => exact absurd ⟨hdne, hf⟩ hunknown
        | notCollected => exact absurd ⟨hf, hdne⟩ hexists
        | incomplete => exact absurd hf hincomplete
        | _ => decide
      · by_cases hcollected : .notCollected ∈ flags
        · refine flagsIndependent_of_tame
            [.error, .notCollected, .notApplicable, .unknown] (by decide) fun f hf => ?_
          cases f with
          | complete => exact absurd ⟨hcollected, hf⟩ hcomplete
          | doesNotExist => exact absurd hf hdne
          | incomplete => exact absurd hf hincomplete
          | _ => decide
        · refine flagsIndependent_of_tame
            [.complete, .error, .notApplicable, .unknown] (by decide) fun f hf => ?_
          cases f with
          | notCollected => exact absurd hf hcollected
          | doesNotExist => exact absurd hf hdne
          | incomplete => exact absurd hf hincomplete
          | _ => decide

/-- **When the flags of sets do not depend on the order and the grouping of the operands**, in sets
of unions and intersections, of unions alone, and of intersections alone. -/
theorem flagsIndependent_iff (flags : Set SyscharFlag) :
    (FlagsIndependent [.union, .intersection] flags ↔ MixedFlags flags) ∧
      (FlagsIndependent [.union] flags ↔ UnionFlags flags) ∧
      (FlagsIndependent [.intersection] flags ↔ IntersectionFlags flags) :=
  ⟨flagsIndependent_mixed_iff flags, flagsIndependent_union_iff flags,
    flagsIndependent_intersection_iff flags⟩

/-- The intersection of an incomplete object with one that is not applicable. -/
theorem not_flagsIndependent_intersection :
    ¬ FlagsIndependent [.intersection] {.incomplete, .notApplicable} := by
  intro h
  have hcomm := combineFlags_comm h .intersection (by decide)
    (a := .operand .incomplete) (b := .operand .notApplicable) (.inl rfl) (.inr rfl)
  exact absurd hcomm (by decide)

end OpenScap.SetFlags
