import Mathlib.Data.List.Basic

/-!
# Guarded runs of an executable step function

A transition system given by an executable step function `step : σ → ε → Option σ`: the event
`e` can happen in the state `s` when `step s e` is `some` state. `GuardedRun step guard s t`
says that some sequence of events leads from `s` to `t` in which every event satisfies the
guard in the state it happens in. The guard `fun _ _ => True` gives the reachable states.

## Main results

* `GuardedRun.invariant` — what holds at the start and is kept by every guarded step holds in
  every state a guarded run reaches.
* `GuardedRun.of_replay` — a replayed list of events whose guards are checked on the way is a
  guarded run.
-/

variable {σ ε : Type*}

/-- The states that guarded steps lead to from `s`. -/
inductive GuardedRun (step : σ → ε → Option σ) (guard : σ → ε → Prop) (s : σ) : σ → Prop
  /-- No step. -/
  | refl : GuardedRun step guard s s
  /-- One more step, whose guard holds. -/
  | tail {t u : σ} {e : ε} (run : GuardedRun step guard s t) (hguard : guard t e)
      (hstep : step t e = some u) : GuardedRun step guard s u

namespace GuardedRun

variable {step : σ → ε → Option σ} {guard guard' : σ → ε → Prop} {s t u : σ}

/-- **The invariant rule.** -/
theorem invariant {Inv : σ → Prop} (h : GuardedRun step guard s t) (hinit : Inv s)
    (hstep : ∀ {t u e}, Inv t → guard t e → step t e = some u → Inv u) : Inv t := by
  induction h with
  | refl => exact hinit
  | tail _ hguard hu ih => exact hstep ih hguard hu

/-- A run followed by a run. -/
theorem trans (h : GuardedRun step guard s t) (h' : GuardedRun step guard t u) :
    GuardedRun step guard s u := by
  induction h' with
  | refl => exact h
  | tail _ hguard hstep ih => exact ih.tail hguard hstep

/-- Replaying a list of events, each of which must satisfy the guard. -/
def replay (step : σ → ε → Option σ) (guard : σ → ε → Prop) [∀ s e, Decidable (guard s e)] :
    σ → List ε → Option σ
  | s, [] => some s
  | s, e :: es => if guard s e then (step s e).bind fun t => replay step guard t es else none

/-- **What a replay reaches is reached.** -/
theorem of_replay [∀ s e, Decidable (guard s e)] {es : List ε}
    (h : replay step guard s es = some t) : GuardedRun step guard s t := by
  induction es generalizing s with
  | nil =>
      obtain rfl : s = t := Option.some.inj h
      exact .refl
  | cons e es ih =>
      rw [replay] at h
      split at h
      · rename_i hguard
        obtain ⟨u, hu, h⟩ := Option.bind_eq_some_iff.mp h
        exact (refl.tail hguard hu).trans (ih h)
      · cases h

end GuardedRun
