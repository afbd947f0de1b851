import Mathlib.Data.Nat.Notation
import Mathlib.Logic.Basic

/-!
# Runs that an assertion may end

A run of a program with assertions ends with a result or at an assertion that fails; in a model
whose recursions are bounded it may also stop at the bound, which it must not. `Ends` says that
it does not, and what holds of a result.

## Main results

* `Ends.bind`, `Ends.map` — runs after one another;
* `Ends.foldlM` — a loop keeps what each of its turns keeps;
* `Yields.bind`, `Extends.bind` — the same for what holds of every result, and for runs with a
  higher bound;
* `Settles.bind` — runs after one another settle on what the second settles on.
-/

namespace AssertedRun

/-- Where a run stops without a result. -/
inductive Stop
  | depth
  | assertion
  deriving DecidableEq

/-- The run ends, at an assertion or with a result of which `post` holds. -/
def Ends {α : Type} (post : α → Prop) : Except Stop α → Prop
  | .ok a => post a
  | .error .assertion => True
  | .error .depth => False

section Ends

variable {α β : Type} {post : α → Prop} {post' : β → Prop} {run : Except Stop α}

theorem Ends.mono (h : Ends post run) {post' : α → Prop} (himp : ∀ a, post a → post' a) :
    Ends post' run := by
  match run, h with
  | .ok a, h => exact himp a h
  | .error .assertion, _ => trivial

/-- One run after the other. -/
theorem Ends.bind (h : Ends post run) {next : α → Except Stop β}
    (hnext : ∀ a, post a → Ends post' (next a)) : Ends post' (run >>= next) := by
  match run, h with
  | .ok a, h => exact hnext a h
  | .error .assertion, _ => trivial

theorem Ends.map (h : Ends post run) {f : α → β} (himp : ∀ a, post a → post' (f a)) :
    Ends post' (run.map f) := by
  match run, h with
  | .ok a, h => exact himp a h
  | .error .assertion, _ => trivial

/-- A loop keeps what each of its turns keeps. -/
theorem Ends.foldlM (inv : α → Prop) {body : α → β → Except Stop α} {xs : List β}
    (hbody : ∀ x ∈ xs, ∀ a, inv a → Ends inv (body a x)) {a : α} (ha : inv a) :
    Ends inv (xs.foldlM body a) := by
  induction xs generalizing a with
  | nil => exact ha
  | cons x xs ih =>
      rw [List.foldlM_cons]
      exact Ends.bind (hbody x List.mem_cons_self a ha) fun b hb =>
        ih (fun y hy => hbody y (List.mem_cons_of_mem _ hy)) hb

end Ends

section Yields

variable {α β : Type} {run run' run'' : Except Stop α}

/-- Every result of the run, if it has one, is as `post` says. -/
def Yields (post : α → Prop) (run : Except Stop α) : Prop := ∀ a, run = .ok a → post a

theorem Yields.ok {post : α → Prop} {a : α} (h : post a) : Yields post (.ok a) :=
  fun _ heq => Except.ok.inj heq ▸ h

theorem Yields.error {post : α → Prop} (stop : Stop) : Yields post (.error stop) :=
  fun _ heq => nomatch heq

/-- One run after the other. -/
theorem Yields.bind {post : α → Prop} {post' : β → Prop} (h : Yields post run)
    {next : α → Except Stop β} (hnext : ∀ a, post a → Yields post' (next a)) :
    Yields post' (run >>= next) := by
  match run, h with
  | .ok a, h => exact hnext a (h a rfl)
  | .error _, _ => exact Yields.error _

/-- The second run has the result of the first, if that has one. -/
def Extends (run run' : Except Stop α) : Prop := ∀ a, run = .ok a → run' = .ok a

theorem Extends.refl (run : Except Stop α) : Extends run run := fun _ h => h

theorem Extends.trans (h : Extends run run') (h' : Extends run' run'') : Extends run run'' :=
  fun a heq => h' a (h a heq)

theorem Extends.error (stop : Stop) : Extends (.error stop) run := fun _ h => nomatch h

/-- One run after the other. -/
theorem Extends.bind (h : Extends run run') {next next' : α → Except Stop β}
    (hnext : ∀ a, Extends (next a) (next' a)) : Extends (run >>= next) (run' >>= next') := by
  match run, h with
  | .ok a, h =>
      rw [h a rfl]
      exact hnext a
  | .error stop, _ => exact Extends.error stop

/-- What each step up of a bound keeps, any higher bound keeps. -/
theorem Extends.mono {runs : ℕ → Except Stop α} (h : ∀ n, Extends (runs n) (runs (n + 1)))
    {n m : ℕ} (hle : n ≤ m) : Extends (runs n) (runs m) := by
  induction hle with
  | refl => exact Extends.refl _
  | step _ ih => exact ih.trans (h _)

end Yields

section Settles

variable {α β : Type} {runs : ℕ → Except Stop α} {outcome : Option α}

/-- Bounded runs settle on an outcome: a higher bound keeps a result, and within some bound there
is a result if and only if it is this one. Without an outcome there is none within any bound. -/
structure Settles (runs : ℕ → Except Stop α) (outcome : Option α) : Prop where
  mono : ∀ n, Extends (runs n) (runs (n + 1))
  iff : ∀ a, (∃ n, runs n = .ok a) ↔ outcome = some a

theorem Settles.ok (a : α) : Settles (fun _ => .ok a) (some a) where
  mono _ := Extends.refl _
  iff b := by simp

/-- What does not depend on the bound. -/
theorem Settles.of_eq {runs' : ℕ → Except Stop α} (h : Settles runs outcome)
    (heq : ∀ n, runs' n = runs n) : Settles runs' outcome := by
  obtain rfl : runs' = runs := funext heq
  exact h

/-- Runs that start a bound later. -/
theorem Settles.of_succ (hzero : ∀ a, runs 0 ≠ .ok a)
    (h : Settles (fun n => runs (n + 1)) outcome) : Settles runs outcome where
  mono n := by
    cases n with
    | zero => exact fun a heq => absurd heq (hzero a)
    | succ n => exact h.mono n
  iff a := by
    rw [← h.iff a]
    constructor
    · rintro ⟨n, hn⟩
      cases n with
      | zero => exact absurd hn (hzero a)
      | succ n => exact ⟨n, hn⟩
    · rintro ⟨n, hn⟩
      exact ⟨n + 1, hn⟩

/-- Runs between those with one bound and those with the next. -/
theorem Settles.of_between {runs' : ℕ → Except Stop α} (h : Settles runs outcome)
    (hlower : ∀ n, Extends (runs n) (runs' n)) (hupper : ∀ n, Extends (runs' n) (runs (n + 1))) :
    Settles runs' outcome where
  mono n := (hupper n).trans (hlower (n + 1))
  iff a := by
    rw [← h.iff a]
    constructor
    · rintro ⟨n, hn⟩
      exact ⟨n + 1, hupper n a hn⟩
    · rintro ⟨n, hn⟩
      exact ⟨n, hlower n a hn⟩

/-- Runs without a result within any bound. -/
theorem Settles.never (h : ∀ n a, runs n ≠ .ok a) : Settles runs none where
  mono n a heq := absurd heq (h n a)
  iff a := by
    constructor
    · rintro ⟨n, hn⟩
      exact absurd hn (h n a)
    · exact fun h => nomatch h

/-- Results are found within one bound together. -/
theorem Settles.exists_le (h : Settles runs outcome) {a : α} (ha : outcome = some a) (m : ℕ) :
    ∃ n, m ≤ n ∧ runs n = .ok a := by
  obtain ⟨n, hn⟩ := (h.iff a).mpr ha
  exact ⟨max m n, Nat.le_max_left m n, Extends.mono h.mono (Nat.le_max_right m n) a hn⟩

/-- **One run after the other settles** on what the second settles on, behind the outcome of the
first. -/
theorem Settles.bind (h : Settles runs outcome) {next : ℕ → α → Except Stop β}
    {outcome' : Option β} (hmono : ∀ n a, Extends (next n a) (next (n + 1) a))
    (hnone : outcome = none → outcome' = none)
    (hnext : ∀ a, outcome = some a → Settles (fun n => next n a) outcome') :
    Settles (fun n => runs n >>= next n) outcome' where
  mono n := (h.mono n).bind (hmono n)
  iff b := by
    constructor
    · rintro ⟨n, hn⟩
      cases hrun : runs n with
      | error stop =>
          rw [hrun] at hn
          exact nomatch hn
      | ok a =>
          rw [hrun] at hn
          exact ((hnext a ((h.iff a).mp ⟨n, hrun⟩)).iff b).mp ⟨n, hn⟩
    · intro hb
      cases ha : outcome with
      | none =>
          rw [hnone ha] at hb
          exact nomatch hb
      | some a =>
          obtain ⟨n, hn⟩ := (h.iff a).mpr ha
          obtain ⟨m, hle, hm⟩ := (hnext a ha).exists_le hb n
          refine ⟨m, ?_⟩
          rw [Extends.mono h.mono hle a hn]
          exact hm

end Settles

end AssertedRun
