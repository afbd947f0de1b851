import Mathlib.Data.List.Basic

/-!
# Loops that end at what they refuse

A loop over a list ends at the first member that it refuses. It goes wrong when it reaches a
member at which it fails, which may depend on the members before it.

## Main results

* `safe_cons` — the first member of a list that is safe, and the others.
-/

namespace RefusingLoop

variable {α : Type*}

/-- No member is reached at which the loop fails: if it fails at one, one before it is refused. -/
def Safe (fails : List α → α → Prop) (refuses : α → Prop) (xs : List α) : Prop :=
  ∀ before x after, xs = before ++ x :: after → (∀ y ∈ before, ¬ refuses y) → ¬ fails before x

variable {fails : List α → α → Prop} {refuses : α → Prop}

/-- There is no member. -/
theorem safe_nil : Safe fails refuses [] := by
  intro before x after h
  exact absurd h.symm (List.append_ne_nil_of_right_ne_nil _ (List.cons_ne_nil _ _))

/-- **The first member and the others.** -/
theorem safe_cons {x : α} {xs : List α} :
    Safe fails refuses (x :: xs) ↔
      ¬ fails [] x ∧ (¬ refuses x → Safe (fun before => fails (x :: before)) refuses xs) := by
  constructor
  · intro h
    refine ⟨h [] x xs rfl nofun, fun hx before y after heq hbefore => ?_⟩
    refine h (x :: before) y after (congrArg (x :: ·) heq) ?_
    exact List.forall_mem_cons.mpr ⟨hx, hbefore⟩
  · rintro ⟨hfirst, hrest⟩ before y after heq hbefore
    cases before with
    | nil =>
        obtain ⟨rfl, rfl⟩ := List.cons.inj heq
        exact hfirst
    | cons z before =>
        obtain ⟨rfl, rfl⟩ := List.cons.inj heq
        rw [List.forall_mem_cons] at hbefore
        exact hrest hbefore.1 before y after rfl hbefore.2

/-- Failures that are the same at every place. -/
theorem safe_congr {fails' : List α → α → Prop} {xs : List α}
    (h : ∀ before x, fails before x ↔ fails' before x) :
    Safe fails refuses xs ↔ Safe fails' refuses xs := by
  have hfails : fails = fails' := funext fun before => funext fun x => propext (h before x)
  rw [hfails]

end RefusingLoop
