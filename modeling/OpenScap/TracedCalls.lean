import Mathlib.Data.Int.Notation
import Mathlib.Data.List.Basic

/-!
# Calls that report events

A call takes a state along, reports events, and returns a value. A loop of calls that return
numbers stops at the first one that is not zero, like the calls of a program that hands an error up.
What is reported is what the calls report, one after the other.

## Main results

* `each_append` — a loop over two lists;
* `each_trace` — the events of a loop are those of complete calls, up to the last one;
* `each_keeps` — what every call keeps, the loop keeps.
-/

namespace TracedCalls

variable {ρ τ σ ε ι : Type*}

/-- What a call returns, the state behind it, and the events. -/
structure Effects (ρ σ ε : Type*) where
  ret : ρ
  state : σ
  events : List ε

/-- Events that are reported first. -/
def Effects.after (o : Effects ρ σ ε) (events : List ε) : Effects ρ σ ε :=
  ⟨o.ret, o.state, events ++ o.events⟩

/-- A call, and another one that uses what it returns. -/
def Effects.bind (o : Effects ρ σ ε) (f : ρ → σ → Effects τ σ ε) : Effects τ σ ε :=
  (f o.ret o.state).after o.events

@[simp]
theorem after_ret (o : Effects ρ σ ε) (events : List ε) : (o.after events).ret = o.ret := rfl

@[simp]
theorem after_state (o : Effects ρ σ ε) (events : List ε) : (o.after events).state = o.state := rfl

@[simp]
theorem after_events (o : Effects ρ σ ε) (events : List ε) :
    (o.after events).events = events ++ o.events := rfl

@[simp]
theorem after_nil (o : Effects ρ σ ε) : o.after [] = o := rfl

theorem after_append (o : Effects ρ σ ε) (events rest : List ε) :
    o.after (events ++ rest) = (o.after rest).after events := by
  simp only [Effects.after, List.append_assoc]

@[simp]
theorem bind_ret (o : Effects ρ σ ε) (f : ρ → σ → Effects τ σ ε) :
    (o.bind f).ret = (f o.ret o.state).ret := rfl

@[simp]
theorem bind_state (o : Effects ρ σ ε) (f : ρ → σ → Effects τ σ ε) :
    (o.bind f).state = (f o.ret o.state).state := rfl

@[simp]
theorem bind_events (o : Effects ρ σ ε) (f : ρ → σ → Effects τ σ ε) :
    (o.bind f).events = o.events ++ (f o.ret o.state).events := rfl

/-! ### Loops -/

/-- A call for each member of a list, up to the first that does not return 0. -/
def each (act : ι → σ → Effects ℤ σ ε) : List ι → σ → Effects ℤ σ ε
  | [], s => ⟨0, s, []⟩
  | x :: xs, s =>
      if (act x s).ret ≠ 0 then act x s
      else (each act xs (act x s).state).after (act x s).events

/-- The calls for the first list, and those for the second one where none has stopped the loop. -/
theorem each_append (act : ι → σ → Effects ℤ σ ε) (xs ys : List ι) (s : σ) :
    each act (xs ++ ys) s =
      if (each act xs s).ret ≠ 0 then each act xs s
      else (each act ys (each act xs s).state).after (each act xs s).events := by
  induction xs generalizing s with
  | nil => simp [each]
  | cons x xs ih =>
      rw [List.cons_append, each, each]
      by_cases hret : (act x s).ret = 0
      · rw [if_neg (not_not.mpr hret), if_neg (not_not.mpr hret), ih, after_ret, after_state,
          after_events]
        split
        · rfl
        · rw [after_append]
      · rw [if_pos hret, if_pos hret, if_pos hret]

/-- A loop whose calls all return 0. -/
theorem each_ret {act : ι → σ → Effects ℤ σ ε} {xs : List ι}
    (h : ∀ x ∈ xs, ∀ s, (act x s).ret = 0) (s : σ) : (each act xs s).ret = 0 := by
  induction xs generalizing s with
  | nil => rfl
  | cons x xs ih =>
      rw [each, if_neg (not_not.mpr (h x List.mem_cons_self s)), after_ret]
      exact ih (fun y hy => h y (List.mem_cons_of_mem x hy)) _

/-- What calls that all return 0 bring into the state. -/
theorem each_collects {κ : Type*} {act : ι → σ → Effects ℤ σ ε} {P : σ → κ → Prop}
    {new : ι → κ → Prop} (hret : ∀ x s, (act x s).ret = 0)
    (hact : ∀ x s k, P (act x s).state k ↔ P s k ∨ new x k) (xs : List ι) (s : σ) (k : κ) :
    P (each act xs s).state k ↔ P s k ∨ ∃ x ∈ xs, new x k := by
  induction xs generalizing s with
  | nil => simp [each]
  | cons x xs ih =>
      rw [each, if_neg (not_not.mpr (hret x s)), after_state, ih, hact, or_assoc,
        List.exists_mem_cons_iff]

/-! ### Traces -/

/-- The events of complete calls, one after the other. -/
inductive Sequence (Complete : ι → List ε → Prop) : List ι → List ε → Prop
  | nil : Sequence Complete [] []
  | cons {x : ι} {xs : List ι} {events rest : List ε} (h : Complete x events)
      (hs : Sequence Complete xs rest) : Sequence Complete (x :: xs) (events ++ rest)

/-- The events of complete calls, and of one that was cut off. -/
inductive Stopped (Complete Cut : ι → List ε → Prop) : List ι → List ε → Prop
  | here {x : ι} {xs : List ι} {events : List ε} (h : Cut x events) :
      Stopped Complete Cut (x :: xs) events
  | later {x : ι} {xs : List ι} {events rest : List ε} (h : Complete x events)
      (hs : Stopped Complete Cut xs rest) : Stopped Complete Cut (x :: xs) (events ++ rest)

/-- **The events of a loop**: complete calls for all members, or up to the one that stopped it. -/
theorem each_trace {act : ι → σ → Effects ℤ σ ε} {Complete Cut : ι → List ε → Prop}
    (hcomplete : ∀ x s, (act x s).ret = 0 → Complete x (act x s).events)
    (hcut : ∀ x s, (act x s).ret ≠ 0 → Cut x (act x s).events) (xs : List ι) (s : σ) :
    ((each act xs s).ret = 0 → Sequence Complete xs (each act xs s).events) ∧
      ((each act xs s).ret ≠ 0 → Stopped Complete Cut xs (each act xs s).events) := by
  induction xs generalizing s with
  | nil => exact ⟨fun _ => .nil, fun h => absurd rfl h⟩
  | cons x xs ih =>
      rw [each]
      split
      · rename_i hret
        exact ⟨fun h => absurd h hret, fun _ => .here (hcut x s hret)⟩
      · rename_i hret
        have hx := hcomplete x s (not_not.mp hret)
        obtain ⟨hall, hstop⟩ := ih (act x s).state
        exact ⟨fun h => .cons hx (hall h), fun h => .later hx (hstop h)⟩

/-- A relation between a state, the events and the next state that calls keep one after the
other. -/
structure Keeping (R : σ → List ε → σ → Prop) : Prop where
  refl : ∀ s, R s [] s
  trans : ∀ {s t u events rest}, R s events t → R t rest u → R s (events ++ rest) u

/-- The relation holds of a call. -/
def Effects.Keeps (R : σ → List ε → σ → Prop) (s : σ) (o : Effects ρ σ ε) : Prop :=
  R s o.events o.state

theorem Keeping.bind {R : σ → List ε → σ → Prop} (hR : Keeping R) {s : σ} {o : Effects ρ σ ε}
    {f : ρ → σ → Effects τ σ ε} (ho : o.Keeps R s) (hf : (f o.ret o.state).Keeps R o.state) :
    (o.bind f).Keeps R s :=
  hR.trans ho hf

/-- **What every call keeps**, the loop keeps. -/
theorem each_keeps {R : σ → List ε → σ → Prop} (hR : Keeping R) {act : ι → σ → Effects ℤ σ ε}
    (hact : ∀ x s, (act x s).Keeps R s) (xs : List ι) (s : σ) : (each act xs s).Keeps R s := by
  induction xs generalizing s with
  | nil => exact hR.refl s
  | cons x xs ih =>
      rw [each]
      split
      · exact hact x s
      · exact hR.trans (hact x s) (ih _)

end TracedCalls
