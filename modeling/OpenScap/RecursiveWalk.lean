import Mathlib.Logic.Relation
import Mathlib.Order.WellFounded

/-!
# Walking a graph by recursion

A family of mutually recursive procedures that follow the references of a heterogeneous
graph, each node of which is handled by one procedure, walks the graph depth first. Such
procedures keep no record of the nodes that they have visited. `walk` is the walk of a
graph: `fuel` bounds the depth of the calls, and `emit` is what a node does to the state
before its references are followed.

## Main results

* `walk_iff_of_emit` — a walk adds to the state exactly what the reachable nodes emit;
* `walk_isSome_iff_acc` — a walk comes to its end exactly when no infinite path leads
  away from the node.
-/

open Relation

namespace RecursiveWalk

variable {ν σ : Type*} (succ : ν → List ν) (emit : ν → σ → σ)

/-- `b` is a reference of `a`. -/
def Refers (a b : ν) : Prop := b ∈ succ a

/-- `b` can be reached from `a` by references. -/
def Reaches : ν → ν → Prop := ReflTransGen (Refers succ)

/-- No infinite path of references leads away from a node. -/
def Grounded : ν → Prop := Acc fun b a => Refers succ a b

/-- Walk the graph from a node. -/
def walk : ℕ → ν → σ → Option σ
  | 0, _, _ => none
  | fuel + 1, n, s => (succ n).foldlM (fun s m => walk fuel m s) (emit n s)

/-- What can be reached from a node is the node itself or can be reached from a reference. -/
theorem reaches_iff (a b : ν) : Reaches succ a b ↔ a = b ∨ ∃ c ∈ succ a, Reaches succ c b :=
  ReflTransGen.cases_head_iff

variable {succ} in
/-- With more references, no less can be reached. -/
theorem Reaches.mono {succ' : ν → List ν} (hsub : ∀ a b, b ∈ succ a → b ∈ succ' a) {a b : ν}
    (h : Reaches succ a b) : Reaches succ' a b := by
  induction h with
  | refl => exact ReflTransGen.refl
  | tail _ hbc ih => exact ReflTransGen.tail ih (hsub _ _ hbc)

/-! ### What a walk adds -/

section Emit

variable (holds : σ → Prop) (emits : ν → Prop)

/-- What the steps of a loop add, the loop adds. -/
theorem foldlM_iff {step : ν → σ → Option σ} {adds : ν → Prop}
    (hstep : ∀ n s s', step n s = some s' → (holds s' ↔ holds s ∨ adds n)) (ns : List ν)
    {s s' : σ} (h : ns.foldlM (fun s n => step n s) s = some s') :
    holds s' ↔ holds s ∨ ∃ n ∈ ns, adds n := by
  induction ns generalizing s with
  | nil =>
      obtain rfl := Option.some.inj h
      simp only [List.not_mem_nil, false_and, exists_false, or_false]
  | cons n ns ih =>
      rw [List.foldlM_cons] at h
      obtain ⟨middle, hmiddle, hrest⟩ := Option.bind_eq_some_iff.mp h
      rw [ih hrest, hstep n s middle hmiddle, or_assoc]
      simp only [List.mem_cons, or_and_right, exists_or, exists_eq_left]

/-- **A walk adds to the state what the reachable nodes emit.** -/
theorem walk_iff_of_emit (hemit : ∀ n s, holds (emit n s) ↔ holds s ∨ emits n) {fuel : ℕ}
    {n : ν} {s s' : σ} (h : walk succ emit fuel n s = some s') :
    holds s' ↔ holds s ∨ ∃ m, Reaches succ n m ∧ emits m := by
  induction fuel generalizing n s s' with
  | zero => cases h
  | succ fuel ih =>
      rw [walk] at h
      have hstep (m : ν) (s s' : σ) (hwalk : walk succ emit fuel m s = some s') :
          holds s' ↔ holds s ∨ ∃ l, Reaches succ m l ∧ emits l := ih hwalk
      rw [foldlM_iff holds hstep (succ n) h, hemit, or_assoc]
      refine or_congr_right ?_
      constructor
      · rintro (hn | ⟨m, hm, l, hl, hemits⟩)
        · exact ⟨n, ReflTransGen.refl, hn⟩
        · exact ⟨l, ReflTransGen.head hm hl, hemits⟩
      · rintro ⟨l, hl, hemits⟩
        rcases (reaches_iff succ n l).mp hl with rfl | ⟨m, hm, hml⟩
        · exact Or.inl hemits
        · exact Or.inr ⟨m, hm, l, hml, hemits⟩

end Emit

/-! ### Whether a walk comes to its end -/

/-- A loop comes to its end when its steps do. -/
theorem foldlM_isSome {step : ν → σ → Option σ} (ns : List ν)
    (hstep : ∀ n ∈ ns, ∀ s, (step n s).isSome) (s : σ) :
    (ns.foldlM (fun s n => step n s) s).isSome := by
  induction ns generalizing s with
  | nil => rfl
  | cons n ns ih =>
      rw [List.forall_mem_cons] at hstep
      obtain ⟨middle, hmiddle⟩ := Option.isSome_iff_exists.mp (hstep.1 s)
      rw [List.foldlM_cons, hmiddle]
      exact ih hstep.2 middle

/-- The steps of a loop that comes to its end do so. -/
theorem exists_step_of_foldlM {step : ν → σ → Option σ} {ns : List ν} {s : σ}
    (h : (ns.foldlM (fun s n => step n s) s).isSome) :
    ∀ n ∈ ns, ∃ s, (step n s).isSome := by
  induction ns generalizing s with
  | nil => exact fun n hn => absurd hn List.not_mem_nil
  | cons n ns ih =>
      rw [List.foldlM_cons] at h
      cases hstep : step n s with
      | none =>
          rw [hstep] at h
          cases h
      | some middle =>
          rw [hstep] at h
          rw [List.forall_mem_cons]
          exact ⟨⟨s, by rw [hstep]; rfl⟩, ih h⟩

/-- A walk that comes to its end starts at a grounded node. -/
theorem grounded_of_walk {fuel : ℕ} {n : ν} {s : σ} (h : (walk succ emit fuel n s).isSome) :
    Grounded succ n := by
  induction fuel generalizing n s with
  | zero => cases h
  | succ fuel ih =>
      rw [walk] at h
      refine Acc.intro n fun m hm => ?_
      obtain ⟨s', hs'⟩ := exists_step_of_foldlM h m hm
      exact ih hs'

/-- A bound that suffices for each element of a list, for an upward closed property. -/
theorem exists_bound {P : ℕ → ν → Prop} (hmono : ∀ k l n, k ≤ l → P k n → P l n)
    (ns : List ν) (h : ∀ n ∈ ns, ∃ k, P k n) : ∃ k, ∀ n ∈ ns, P k n := by
  induction ns with
  | nil => exact ⟨0, fun n hn => absurd hn List.not_mem_nil⟩
  | cons n ns ih =>
      rw [List.forall_mem_cons] at h
      obtain ⟨⟨k, hk⟩, hrest⟩ := h
      obtain ⟨l, hl⟩ := ih hrest
      refine ⟨k + l, List.forall_mem_cons.mpr ⟨hmono k _ n (by omega) hk, fun m hm => ?_⟩⟩
      exact hmono l _ m (by omega) (hl m hm)

/-- From a grounded node, every walk with enough fuel comes to its end. -/
theorem Grounded.exists_fuel {n : ν} (h : Grounded succ n) :
    ∃ k, ∀ fuel, k ≤ fuel → ∀ s, (walk succ emit fuel n s).isSome := by
  induction h with
  | intro n _ ih =>
      obtain ⟨k, hk⟩ := exists_bound
        (P := fun k m => ∀ fuel, k ≤ fuel → ∀ s, (walk succ emit fuel m s).isSome)
        (fun k l m hkl hm fuel hfuel => hm fuel (by omega)) (succ n) ih
      refine ⟨k + 1, fun fuel hfuel s => ?_⟩
      obtain ⟨fuel, rfl⟩ : ∃ fuel', fuel = fuel' + 1 := ⟨fuel - 1, by omega⟩
      rw [walk]
      exact foldlM_isSome _ (fun m hm s => hk m hm fuel (by omega) s) _

/-- **A walk comes to its end exactly from a grounded node.** -/
theorem walk_isSome_iff_acc (n : ν) (s : σ) :
    (∃ fuel, (walk succ emit fuel n s).isSome) ↔ Grounded succ n := by
  constructor
  · rintro ⟨fuel, h⟩
    exact grounded_of_walk succ emit h
  · intro h
    obtain ⟨k, hk⟩ := Grounded.exists_fuel succ emit h
    exact ⟨k, hk k (Nat.le_refl k) s⟩

end RecursiveWalk
