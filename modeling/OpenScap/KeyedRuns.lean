import Mathlib.Data.List.Basic
import Mathlib.Logic.Function.Basic

/-!
# Runs whose events follow phases, key by key

A system reports events while it runs. Each event may be about a key, and a relation between
phases says which events about one key may follow each other, and with which data. When every
step of the system takes the phases of all keys along, the events of every run are a path at every
key.

## Main results

* `run_invariant` — what every allowed step preserves holds in the end;
* `run_events` — what holds of every event from then on holds of all of them in the end;
* `Follows.traces` — the events of a run, key by key.
-/

namespace KeyedRuns

variable {σ α ε κ Q : Type*}

/-- What an action does to a state, and the events that are reported, where the action is
possible. -/
abbrev System (σ α ε : Type*) := σ → α → Option (σ × List ε)

/-- One action after another, with all events. -/
def run (step : System σ α ε) : σ → List α → Option (σ × List ε)
  | s, [] => some (s, [])
  | s, a :: as => do
      let (s, events) ← step s a
      let (s, trace) ← run step s as
      return (s, events ++ trace)

/-- The first action, and the others. -/
theorem run_cons {step : System σ α ε} {s s' : σ} {a : α} {as : List α} {trace : List ε}
    (h : run step s (a :: as) = some (s', trace)) :
    ∃ t events rest, step s a = some (t, events) ∧ run step t as = some (s', rest) ∧
      trace = events ++ rest := by
  simp only [run, Option.bind_eq_bind, Option.bind_eq_some_iff, Option.pure_def, Option.some.injEq,
    Prod.exists, Prod.mk.injEq] at h
  obtain ⟨t, events, hstep, t', rest, hrun, rfl, rfl⟩ := h
  exact ⟨t, events, rest, hstep, hrun, rfl⟩

/-- Every action of a run is allowed in the state where it happens. -/
def Throughout (step : System σ α ε) (allowed : σ → α → Prop) : σ → List α → Prop
  | _, [] => True
  | s, a :: as => allowed s a ∧ ∀ s' events, step s a = some (s', events) →
      Throughout step allowed s' as

/-- The first action is allowed, and so are the others behind it. -/
theorem Throughout.cons {step : System σ α ε} {allowed : σ → α → Prop} {s t : σ} {a : α}
    {as : List α} {events : List ε} (ha : allowed s a) (hstep : step s a = some (t, events))
    (has : Throughout step allowed t as) : Throughout step allowed s (a :: as) := by
  refine ⟨ha, fun t' events' hstep' => ?_⟩
  obtain ⟨rfl, rfl⟩ := Prod.mk.inj (Option.some.inj (hstep.symm.trans hstep'))
  exact has

/-- **What every allowed step preserves** holds after a run of allowed actions. -/
theorem run_invariant {step : System σ α ε} {P : σ → Prop} {allowed : σ → α → Prop}
    (hstep : ∀ {s s' a events}, allowed s a → P s → step s a = some (s', events) → P s')
    {as : List α} {s s' : σ} {trace : List ε} (has : Throughout step allowed s as) (hs : P s)
    (h : run step s as = some (s', trace)) : P s' := by
  induction as generalizing s trace with
  | nil =>
      obtain ⟨rfl, rfl⟩ := Prod.mk.inj (Option.some.inj h)
      exact hs
  | cons a as ih =>
      obtain ⟨t, events, rest, ha, hrun, rfl⟩ := run_cons h
      exact ih (has.2 t events ha) (hstep has.1 hs ha) hrun

/-- **What holds of an event when it is reported, and ever after**, holds in the end of all
events. -/
theorem run_events {step : System σ α ε} {P : σ → Prop} {E : σ → ε → Prop}
    (hstep : ∀ {s s' a events}, P s → step s a = some (s', events) →
      P s' ∧ (∀ e, E s e → E s' e) ∧ ∀ e ∈ events, E s' e)
    {as : List α} {s s' : σ} {trace : List ε} (hs : P s)
    (h : run step s as = some (s', trace)) : P s' ∧ (∀ e, E s e → E s' e) ∧ ∀ e ∈ trace, E s' e := by
  induction as generalizing s trace with
  | nil =>
      obtain ⟨rfl, rfl⟩ := Prod.mk.inj (Option.some.inj h)
      exact ⟨hs, fun _ he => he, fun e he => absurd he List.not_mem_nil⟩
  | cons a as ih =>
      obtain ⟨t, events, rest, ha, hrun, rfl⟩ := run_cons h
      obtain ⟨ht, hkeep, hnew⟩ := hstep hs ha
      obtain ⟨hs', hkeep', hnew'⟩ := ih ht hrun
      refine ⟨hs', fun e he => hkeep' e (hkeep e he), fun e he => ?_⟩
      rcases List.mem_append.mp he with he | he
      · exact hkeep' e (hnew e he)
      · exact hnew' e he

/-! ### Phases -/

/-- A path of events from one phase to another. -/
inductive Path (next : Q → ε → Q → Prop) : Q → List ε → Q → Prop
  | nil (q : Q) : Path next q [] q
  | cons {q q' q'' : Q} {e : ε} {events : List ε} (h : next q e q')
      (hpath : Path next q' events q'') : Path next q (e :: events) q''

theorem Path.append {next : Q → ε → Q → Prop} {q q' q'' : Q} {events rest : List ε}
    (h : Path next q events q') (h' : Path next q' rest q'') :
    Path next q (events ++ rest) q'' := by
  induction h with
  | nil q => exact h'
  | cons hnext _ ih => exact .cons hnext (ih h')

variable [DecidableEq κ]

/-- The events about a key. -/
def about (key : ε → Option κ) (k : κ) (events : List ε) : List ε :=
  events.filter fun e => key e = some k

/-- The events about each key take its phase along. -/
def Traces (next : Q → ε → Q → Prop) (key : ε → Option κ) (φ φ' : κ → Q) (events : List ε) : Prop :=
  ∀ k, Path next (φ k) (about key k events) (φ' k)

section Traces

variable {next : Q → ε → Q → Prop} {key : ε → Option κ} {φ φ' φ'' : κ → Q} {e : ε}

/-- No event. -/
theorem Traces.nil (h : φ' = φ) : Traces next key φ φ' [] := by
  subst h
  exact fun _ => .nil _

/-- An event about no key. -/
theorem Traces.other (h : φ' = φ) (hkey : key e = none) : Traces next key φ φ' [e] := by
  subst h
  intro k
  rw [about, List.filter_cons_of_neg (by rw [hkey]; simp)]
  exact .nil _

/-- An event about a key. -/
theorem Traces.single {k : κ} {q : Q} (h : φ' = Function.update φ k q) (hkey : key e = some k)
    (hnext : next (φ k) e q) : Traces next key φ φ' [e] := by
  subst h
  intro k'
  by_cases hk : k' = k
  · subst hk
    rw [Function.update_self, about, List.filter_cons_of_pos (by rw [hkey]; simp)]
    exact .cons hnext (.nil _)
  · rw [Function.update_of_ne hk, about, List.filter_cons_of_neg ?_]
    · exact .nil _
    · rw [hkey]
      simpa using Ne.symm hk

theorem Traces.append {events rest : List ε} (h : Traces next key φ φ' events)
    (h' : Traces next key φ' φ'' rest) : Traces next key φ φ'' (events ++ rest) := by
  intro k
  rw [about, List.filter_append]
  exact (h k).append (h' k)

end Traces

/-- Every allowed step from a related state takes the phases along. -/
def Follows (step : System σ α ε) (allowed : α → Prop) (next : Q → ε → Q → Prop)
    (key : ε → Option κ) (R : σ → (κ → Q) → Prop) : Prop :=
  ∀ {s s' a events φ}, allowed a → R s φ → step s a = some (s', events) →
    ∃ φ', R s' φ' ∧ Traces next key φ φ' events

/-- **The events of a run are a path** at every key. -/
theorem Follows.traces {step : System σ α ε} {allowed : α → Prop} {next : Q → ε → Q → Prop}
    {key : ε → Option κ} {R : σ → (κ → Q) → Prop} (h : Follows step allowed next key R) {as : List α}
    (has : ∀ a ∈ as, allowed a) {s s' : σ} {φ : κ → Q} {trace : List ε} (hs : R s φ)
    (hrun : run step s as = some (s', trace)) : ∃ φ', R s' φ' ∧ Traces next key φ φ' trace := by
  induction as generalizing s φ trace with
  | nil =>
      obtain ⟨rfl, rfl⟩ := Prod.mk.inj (Option.some.inj hrun)
      exact ⟨φ, hs, .nil rfl⟩
  | cons a as ih =>
      obtain ⟨t, events, rest, ha, hrun', rfl⟩ := run_cons hrun
      obtain ⟨φ₁, ht, htraces⟩ := h (has a (List.mem_cons_self ..)) hs ha
      obtain ⟨φ₂, hs', hrest⟩ := ih (fun b hb => has b (List.mem_cons_of_mem _ hb)) ht hrun'
      exact ⟨φ₂, hs', htraces.append hrest⟩

end KeyedRuns
