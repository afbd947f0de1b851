import Mathlib.Data.List.Nodup
import Mathlib.Data.List.Sections
import Mathlib.Algebra.BigOperators.Group.List.Basic

/-!
# Odometers

A wheel goes through the values of a list, again and again. In a row of wheels the first one goes
on at every step, and a wheel that comes back to its first value takes the next one with it. The
values that the wheels are at are a choice of one value from every list.

## Main results

* `ahead_rotate` — a step goes on to the next choice;
* `run_eq_take` — a run goes through the choices that are ahead;
* `ahead_start` — from the start, all choices are ahead, each once and the first value the
  fastest;
* `length_sections`, `nodup_sections` — how many choices there are, all different.
-/

namespace Odometer

variable {α : Type*}

/-- A wheel: its values, the one that it is at, and those behind it. -/
structure Wheel (α : Type*) where
  values : List α
  current : α
  rest : List α

/-- A wheel at the first value of a list. -/
def start : List α → Option (Wheel α)
  | [] => none
  | a :: as => some ⟨a :: as, a, as⟩

/-- A wheel back at its first value. -/
def Wheel.reset (w : Wheel α) : Wheel α :=
  match w.values with
  | [] => w
  | a :: as => ⟨a :: as, a, as⟩

/-- A step. -/
def rotate : List (Wheel α) → List (Wheel α)
  | [] => []
  | w :: ws =>
      match w.rest with
      | a :: rest => ⟨w.values, a, rest⟩ :: ws
      | [] => w.reset :: rotate ws

/-- The choice that the wheels are at. -/
def choice (ws : List (Wheel α)) : List α := ws.map Wheel.current

/-- The choices of a run of so many steps. -/
def run : ℕ → List (Wheel α) → List (List α)
  | 0, _ => []
  | n + 1, ws => choice ws :: run n (rotate ws)

/-- The choices that are ahead, from the one that the wheels are at. -/
def ahead : List (Wheel α) → List (List α)
  | [] => [[]]
  | w :: ws =>
      (w.current :: w.rest).map (· :: choice ws) ++
        (ahead ws).tail.flatMap fun t => w.values.map (· :: t)

/-- The first choice ahead is the one that the wheels are at. -/
theorem ahead_eq_cons (ws : List (Wheel α)) : ahead ws = choice ws :: (ahead ws).tail := by
  cases ws <;> rfl

/-- The choices of a row of wheels at the start of the first one. -/
theorem ahead_cons_reset {w : Wheel α} (hw : w.values ≠ []) (ws : List (Wheel α)) :
    ahead (w.reset :: ws) = (ahead ws).flatMap fun t => w.values.map (· :: t) := by
  obtain ⟨values, current, rest⟩ := w
  cases values with
  | nil => exact absurd rfl hw
  | cons a as => rw [ahead_eq_cons ws, List.flatMap_cons, Wheel.reset, ahead]

/-- A wheel at its last value has the choices of the next wheels ahead. -/
theorem tail_ahead_of_rest_nil {w : Wheel α} (h : w.rest = []) (ws : List (Wheel α)) :
    (ahead (w :: ws)).tail = (ahead ws).tail.flatMap fun t => w.values.map (· :: t) := by
  rw [ahead, h]
  rfl

/-- A wheel at its last value is at the end with the next wheels. -/
theorem tail_ahead_eq_nil_iff {w : Wheel α} (hw : w.values ≠ []) (h : w.rest = [])
    (ws : List (Wheel α)) : (ahead (w :: ws)).tail = [] ↔ (ahead ws).tail = [] := by
  rw [tail_ahead_of_rest_nil h, List.flatMap_eq_nil_iff]
  constructor
  · intro hnil
    exact List.eq_nil_iff_forall_not_mem.mpr fun t ht => hw (List.map_eq_nil_iff.mp (hnil t ht))
  · intro hnil t ht
    rw [hnil] at ht
    exact nomatch ht

/-- A row of wheels is no empty row after a step. -/
theorem rotate_ne_nil {ws : List (Wheel α)} (h : ws ≠ []) : rotate ws ≠ [] := by
  cases ws with
  | nil => exact absurd rfl h
  | cons w ws =>
      rw [rotate]
      split
      · exact List.cons_ne_nil _ _
      · exact List.cons_ne_nil _ _

/-- **A step goes on to the next choice.** -/
theorem ahead_rotate {ws : List (Wheel α)} (hws : ∀ w ∈ ws, w.values ≠ [])
    (hne : (ahead ws).tail ≠ []) : ahead (rotate ws) = (ahead ws).tail := by
  induction ws with
  | nil => exact absurd rfl hne
  | cons w ws ih =>
      obtain ⟨hw, hrest⟩ := List.forall_mem_cons.mp hws
      obtain ⟨values, current, rest⟩ := w
      cases rest with
      | cons a rest => rfl
      | nil =>
          change (ahead ws).tail.flatMap _ ≠ [] at hne
          have htail : (ahead ws).tail ≠ [] := by
            intro hnil
            rw [hnil] at hne
            exact hne rfl
          rw [rotate, ahead_cons_reset hw, ih hrest htail]
          rfl

/-- A step keeps the values of the wheels. -/
theorem values_rotate {ws : List (Wheel α)} (hws : ∀ w ∈ ws, w.values ≠ []) :
    ∀ w ∈ rotate ws, w.values ≠ [] := by
  induction ws with
  | nil => exact hws
  | cons w ws ih =>
      obtain ⟨hw, hrest⟩ := List.forall_mem_cons.mp hws
      obtain ⟨values, current, rest⟩ := w
      cases rest with
      | cons a rest => exact List.forall_mem_cons.mpr ⟨hw, hrest⟩
      | nil =>
          refine List.forall_mem_cons.mpr ⟨?_, ih hrest⟩
          cases values with
          | nil => exact hw
          | cons a as => exact hw

/-- **A run goes through the choices that are ahead.** -/
theorem run_eq_take {ws : List (Wheel α)} (hws : ∀ w ∈ ws, w.values ≠ []) {n : ℕ}
    (hn : n ≤ (ahead ws).length) : run n ws = (ahead ws).take n := by
  induction n generalizing ws with
  | zero => rfl
  | succ n ih =>
      rw [ahead_eq_cons, List.length_cons] at hn
      rw [run, ahead_eq_cons ws, List.take_succ_cons]
      cases n with
      | zero => rfl
      | succ n =>
          have hne : (ahead ws).tail ≠ [] := by
            intro hnil
            rw [hnil] at hn
            exact absurd hn (by simp)
          have hrotate := ahead_rotate hws hne
          rw [ih (values_rotate hws) (by rw [hrotate]; exact Nat.le_of_succ_le_succ hn), hrotate]

/-- **From the start, all choices are ahead**, each once and the first value the fastest. Lists
without a value have no wheel. -/
theorem ahead_start (lists : List (List α)) :
    ahead (lists.filterMap start) = (lists.filter fun l => !l.isEmpty).sections := by
  induction lists with
  | nil => rfl
  | cons l lists ih =>
      cases l with
      | nil => exact ih
      | cons a as =>
          have hreset := @ahead_cons_reset _ ⟨a :: as, a, as⟩ (List.cons_ne_nil a as)
            (lists.filterMap start)
          refine hreset.trans ?_
          rw [ih]
          rfl

/-- The wheels of lists have values. -/
theorem values_start (lists : List (List α)) :
    ∀ w ∈ lists.filterMap start, w.values ≠ [] := by
  intro w hw
  obtain ⟨l, -, hl⟩ := List.mem_filterMap.mp hw
  cases l with
  | nil => exact absurd hl (by simp [start])
  | cons a as =>
      obtain rfl := Option.some.inj hl
      exact List.cons_ne_nil a as

/-- There are as many choices as the product of the numbers of values. -/
theorem length_sections (lists : List (List α)) :
    lists.sections.length = (lists.map List.length).prod := by
  induction lists with
  | nil => rfl
  | cons l lists ih =>
      rw [List.sections, List.length_flatMap]
      simp [ih, Nat.mul_comm]

/-- No choice is there twice if no value is. -/
theorem nodup_sections {lists : List (List α)} (h : ∀ l ∈ lists, l.Nodup) :
    lists.sections.Nodup := by
  induction lists with
  | nil => exact List.nodup_singleton []
  | cons l lists ih =>
      obtain ⟨hl, hrest⟩ := List.forall_mem_cons.mp h
      rw [List.sections, List.nodup_flatMap]
      refine ⟨fun t _ => hl.map fun a b hab => (List.cons.inj hab).1, ?_⟩
      refine (ih hrest).imp fun {t u} htu => ?_
      intro f hft hfu
      obtain ⟨a, -, rfl⟩ := List.mem_map.mp hft
      obtain ⟨b, -, hb⟩ := List.mem_map.mp hfu
      exact htu (List.cons.inj hb).2.symm

end Odometer
