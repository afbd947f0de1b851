import Mathlib.Data.List.Forall2

/-!
# Loops that may fail

A loop that makes one result for each entry of a list, and none at all when one of its steps
fails. The results are those of the steps, in order.

## Main results

* `mapM_eq_some_iff`, `mem_of_mapM_eq_some` — the results are those of the steps;
* `mapM_forall₂_iff`, `mapM_ok_forall₂_iff` — a loop has results of a kind exactly when every
  step has one, without or with an error that is told;
* `mapM_eq_of_forall₂` — steps with equal results make equal loops;
* `foldlM_collect` — a loop that adds one result each time.
-/

namespace FallibleLoop

variable {α β γ ε : Type*}

/-- A loop has exactly the results of its steps. -/
theorem mapM_eq_some_iff {f : α → Option β} {l : List α} {l' : List β} :
    l.mapM f = some l' ↔ l.map f = l'.map some := by
  induction l generalizing l' with
  | nil => cases l' <;> simp
  | cons a l ih =>
      rw [List.mapM_cons, List.map_cons]
      simp only [Option.bind_eq_bind, Option.bind_eq_some_iff, Option.pure_def,
        Option.some.injEq, ih]
      constructor
      · rintro ⟨b, hb, bs, hbs, rfl⟩
        rw [hb, hbs]
        rfl
      · intro h
        cases l' with
        | nil => cases h
        | cons b bs =>
            obtain ⟨hb, hbs⟩ := List.cons.inj h
            exact ⟨b, hb, bs, hbs, rfl⟩

/-- Every result is that of a step. -/
theorem mem_of_mapM_eq_some {f : α → Option β} {l : List α} {l' : List β}
    (h : l.mapM f = some l') (b : β) : b ∈ l' ↔ ∃ a ∈ l, f a = some b := by
  have hmap := mapM_eq_some_iff.mp h
  have hmem : b ∈ l' ↔ some b ∈ l'.map some := by
    simp
  rw [hmem, ← hmap, List.mem_map]

/-- A loop has results of a kind exactly when every step has one. -/
theorem mapM_forall₂_iff {f : α → Option β} {R : α → β → Prop} (xs : List α) :
    (∃ ys, xs.mapM f = some ys ∧ List.Forall₂ R xs ys) ↔
      ∀ x ∈ xs, ∃ y, f x = some y ∧ R x y := by
  induction xs with
  | nil => simp
  | cons x xs ih =>
      rw [List.forall_mem_cons, ← ih]
      constructor
      · rintro ⟨ys, hys, hR⟩
        rw [List.mapM_cons] at hys
        obtain ⟨y, hy, hys⟩ := Option.bind_eq_some_iff.1 hys
        obtain ⟨zs, hzs, hys⟩ := Option.bind_eq_some_iff.1 hys
        obtain rfl := Option.some.inj hys
        obtain ⟨hxy, hrest⟩ := List.forall₂_cons.1 hR
        exact ⟨⟨y, hy, hxy⟩, zs, hzs, hrest⟩
      · rintro ⟨⟨y, hy, hxy⟩, ys, hys, hR⟩
        refine ⟨y :: ys, ?_, List.Forall₂.cons hxy hR⟩
        rw [List.mapM_cons, hy, hys]
        rfl

/-- A loop has results exactly when every step has one. -/
theorem exists_mapM_eq_some_iff {f : α → Option β} (xs : List α) :
    (∃ ys, xs.mapM f = some ys) ↔ ∀ x ∈ xs, ∃ y, f x = some y := by
  induction xs with
  | nil => simp
  | cons x xs ih =>
      rw [List.forall_mem_cons, ← ih, List.mapM_cons]
      cases hx : f x with
      | none => simp
      | some y =>
          cases hxs : xs.mapM f with
          | none => simp
          | some ys => simp

/-- The same for a loop whose steps tell their errors. -/
theorem mapM_ok_forall₂_iff {f : α → Except ε β} {R : α → β → Prop} (xs : List α) :
    (∃ ys, xs.mapM f = .ok ys ∧ List.Forall₂ R xs ys) ↔
      ∀ x ∈ xs, ∃ y, f x = .ok y ∧ R x y := by
  induction xs with
  | nil => simp [pure, Except.pure]
  | cons x xs ih =>
      rw [List.forall_mem_cons, ← ih, List.mapM_cons]
      cases hx : f x with
      | error e => simp [bind, Except.bind]
      | ok y =>
          cases hxs : xs.mapM f with
          | error e => simp [bind, Except.bind]
          | ok zs => simp [bind, Except.bind, pure, Except.pure]

/-- Steps with equal results make equal loops. -/
theorem mapM_eq_of_forall₂ {f : α → Option γ} {g : β → Option γ} {xs : List α} {ys : List β}
    (h : List.Forall₂ (fun x y => f x = g y) xs ys) : xs.mapM f = ys.mapM g := by
  induction h with
  | nil => rfl
  | cons hxy _ ih => rw [List.mapM_cons, List.mapM_cons, hxy, ih]

/-- A loop that adds one result each time. -/
theorem foldlM_collect (f : α → Option β) (xs : List α) (acc : List β) :
    (xs.foldlM (fun acc x => do
      let y ← f x
      some (acc ++ [y])) acc) = (xs.mapM f).map (acc ++ ·) := by
  induction xs generalizing acc with
  | nil => simp
  | cons x xs ih =>
      rw [List.foldlM_cons, List.mapM_cons]
      cases f x with
      | none => rfl
      | some y =>
          have hstep := ih (acc ++ [y])
          cases hxs : xs.mapM f with
          | none =>
              rw [hxs] at hstep
              exact hstep
          | some ys =>
              rw [hxs] at hstep
              simpa using hstep

end FallibleLoop
