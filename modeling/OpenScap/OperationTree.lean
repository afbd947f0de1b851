import Mathlib.Data.Set.Basic
import Mathlib.Tactic.Tauto

/-!
# Trees of operations

Trees of operands that binary operations combine, and what becomes of their value when operands
change places or are grouped in another way.

## Main results

* `value_mem` — the value of a tree is in a set that has the operands and is closed;
* `value_eq_of_rearranged` — it does not depend on order and grouping where the operations are
  commutative and associative on such a set.
-/

namespace OperationTree

variable {ω α : Type*}

/-- A tree of operations over operands. -/
inductive Tree (ω α : Type*)
  | operand (a : α)
  | combine (op : ω) (left right : Tree ω α)

/-- The value of a tree. -/
def Tree.value (apply : ω → α → α → α) : Tree ω α → α
  | .operand a => a
  | .combine op left right => apply op (left.value apply) (right.value apply)

/-- The tree has operations and operands of these sets. -/
def Tree.Over (ops : Set ω) (operands : Set α) : Tree ω α → Prop
  | .operand a => a ∈ operands
  | .combine op left right => op ∈ ops ∧ left.Over ops operands ∧ right.Over ops operands

/-- Trees that differ in the order and the grouping of the operands of an operation. -/
inductive Rearranged : Tree ω α → Tree ω α → Prop
  | refl (t : Tree ω α) : Rearranged t t
  | symm {t u : Tree ω α} (h : Rearranged t u) : Rearranged u t
  | trans {t u v : Tree ω α} (h : Rearranged t u) (h' : Rearranged u v) : Rearranged t v
  | swap (op : ω) (a b : Tree ω α) : Rearranged (.combine op a b) (.combine op b a)
  | regroup (op : ω) (a b c : Tree ω α) :
      Rearranged (.combine op (.combine op a b) c) (.combine op a (.combine op b c))
  | within (op : ω) {a a' b b' : Tree ω α} (h : Rearranged a a') (h' : Rearranged b b') :
      Rearranged (.combine op a b) (.combine op a' b')

/-- A set on which operations stay, and are commutative and associative. -/
structure Tame (apply : ω → α → α → α) (ops : Set ω) (values : Set α) : Prop where
  closed : ∀ op ∈ ops, ∀ a ∈ values, ∀ b ∈ values, apply op a b ∈ values
  comm : ∀ op ∈ ops, ∀ a ∈ values, ∀ b ∈ values, apply op a b = apply op b a
  assoc : ∀ op ∈ ops, ∀ a ∈ values, ∀ b ∈ values, ∀ c ∈ values,
    apply op (apply op a b) c = apply op a (apply op b c)

variable {apply : ω → α → α → α} {ops : Set ω} {operands : Set α}

/-- The same operands stand in a rearranged tree. -/
theorem over_iff_of_rearranged {t u : Tree ω α} (h : Rearranged t u) :
    t.Over ops operands ↔ u.Over ops operands := by
  induction h with
  | refl => exact Iff.rfl
  | symm _ ih => exact ih.symm
  | trans _ _ ih ih' => exact ih.trans ih'
  | swap op a b => exact and_congr_right fun _ => and_comm
  | regroup op a b c =>
      simp only [Tree.Over]
      tauto
  | within op _ _ ih ih' => exact and_congr_right fun _ => and_congr ih ih'

/-- A tree is over larger sets, too. -/
theorem Tree.Over.mono {operands' : Set α} (hsub : operands ⊆ operands') {t : Tree ω α}
    (h : t.Over ops operands) : t.Over ops operands' := by
  induction t with
  | operand a => exact hsub h
  | combine op left right ihl ihr => exact ⟨h.1, ihl h.2.1, ihr h.2.2⟩

/-- The value of a tree stays in a closed set. -/
theorem value_mem {values : Set α} (htame : Tame apply ops values) {t : Tree ω α}
    (h : t.Over ops values) : t.value apply ∈ values := by
  induction t with
  | operand a => exact h
  | combine op left right ihl ihr => exact htame.closed op h.1 _ (ihl h.2.1) _ (ihr h.2.2)

/-- **Order and grouping do not matter** where the operations are commutative and associative. -/
theorem value_eq_of_rearranged {values : Set α} (htame : Tame apply ops values) {t u : Tree ω α}
    (hover : t.Over ops values) (h : Rearranged t u) : t.value apply = u.value apply := by
  induction h with
  | refl => rfl
  | symm h ih => exact (ih ((over_iff_of_rearranged h).mpr hover)).symm
  | trans h _ ih ih' => exact (ih hover).trans (ih' ((over_iff_of_rearranged h).mp hover))
  | swap op a b =>
      exact htame.comm op hover.1 _ (value_mem htame hover.2.1) _ (value_mem htame hover.2.2)
  | regroup op a b c =>
      obtain ⟨hop, ⟨-, ha, hb⟩, hc⟩ := hover
      exact htame.assoc op hop _ (value_mem htame ha) _ (value_mem htame hb) _
        (value_mem htame hc)
  | within op _ _ ih ih' => exact congrArg₂ (apply op) (ih hover.2.1) (ih' hover.2.2)

end OperationTree
