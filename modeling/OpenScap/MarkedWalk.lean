import Mathlib.Data.List.Basic
import OpenScap.RecursiveWalk

/-!
# Walking a graph with marks

A family of mutually recursive procedures that follow the references of a graph may mark the nodes
that it comes to, and leave marked nodes alone. Then the walk comes to its end on every finite
graph, whether or not its nodes refer to each other in circles, and visits every node once.

The marks are part of a state (`Marking`). `visit` is the walk from one node and `visitAll` from
some nodes, one after the other; `fuel` bounds the depth of the calls.

## Main results

* `visitAll_isSome` — with more fuel than there are nodes to mark, a walk comes to its end;
* `marked_visitAll_iff` — a walk marks exactly what can be reached from where it starts.
-/

open Relation RecursiveWalk

/-- Marks of nodes in a state. -/
structure Marking (ν σ : Type*) where
  marked : σ → ν → Bool
  mark : ν → σ → σ
  marked_mark : ∀ n s m, marked (mark n s) m = true ↔ m = n ∨ marked s m = true

namespace Marking

variable {ν σ : Type*} (M : Marking ν σ) (succ : ν → List ν)

/-- Walk the graph from a node, if it is not marked. -/
def visit : ℕ → ν → σ → Option σ
  | 0, _, _ => none
  | fuel + 1, n, s =>
      if M.marked s n then some s
      else (succ n).foldlM (fun s m => visit fuel m s) (M.mark n s)

/-- Walk the graph from some nodes. -/
def visitAll (fuel : ℕ) (ns : List ν) (s : σ) : Option σ :=
  ns.foldlM (fun s n => M.visit succ fuel n s) s

/-- A loop over the elements of lists. -/
theorem foldlM_flatMap {α β : Type*} {step : σ → β → Option σ} (f : α → List β)
    (as : List α) (s : σ) : (as.flatMap f).foldlM step s =
      as.foldlM (fun s a => (f a).foldlM step s) s := by
  induction as generalizing s with
  | nil => rfl
  | cons a as ih =>
      rw [List.flatMap_cons, List.foldlM_append, List.foldlM_cons]
      exact congrArg _ (funext ih)

/-- What a walk from some nodes with marks does to a state. -/
structure Walked (ns : List ν) (s s' : σ) : Prop where
  marked_mono : ∀ m, M.marked s m = true → M.marked s' m = true
  starts : ∀ n ∈ ns, M.marked s' n = true
  /-- The references of what is marked anew are marked. -/
  followed : ∀ n, M.marked s' n = true → M.marked s n = true ∨
    ∀ m ∈ succ n, M.marked s' m = true
  reached : ∀ m, M.marked s' m = true → M.marked s m = true ∨ ∃ n ∈ ns, Reaches succ n m

variable {M succ}

/-- No walk. -/
theorem Walked.nil (s : σ) : Walked M succ [] s s :=
  ⟨fun _ h => h, by simp, fun _ h => .inl h, fun _ h => .inl h⟩

/-- One walk after another. -/
theorem Walked.cons {n : ν} {ns : List ν} {s₁ s₂ s₃ : σ} (h₁₂ : Walked M succ [n] s₁ s₂)
    (h₂₃ : Walked M succ ns s₂ s₃) : Walked M succ (n :: ns) s₁ s₃ := by
  refine ⟨fun m h => h₂₃.marked_mono m (h₁₂.marked_mono m h), ?_, fun m h => ?_, fun m h => ?_⟩
  · rw [List.forall_mem_cons]
    exact ⟨h₂₃.marked_mono n (h₁₂.starts n (List.mem_singleton_self n)), h₂₃.starts⟩
  · rcases h₂₃.followed m h with h₂ | hfollowed
    · rcases h₁₂.followed m h₂ with h₁ | hfollowed
      · exact .inl h₁
      · exact .inr fun l hl => h₂₃.marked_mono l (hfollowed l hl)
    · exact .inr hfollowed
  · rcases h₂₃.reached m h with h₂ | ⟨l, hl, hreach⟩
    · rcases h₁₂.reached m h₂ with h₁ | ⟨l, hl, hreach⟩
      · exact .inl h₁
      · exact .inr ⟨l, List.mem_cons.mpr (.inl (List.mem_singleton.mp hl)), hreach⟩
    · exact .inr ⟨l, List.mem_cons_of_mem n hl, hreach⟩

/-- Marking a node and then walking from its references. -/
theorem Walked.of_mark {n : ν} {s s' : σ} (h : Walked M succ (succ n) (M.mark n s) s') :
    Walked M succ [n] s s' := by
  have hn : M.marked s' n = true := h.marked_mono n ((M.marked_mark n s n).mpr (.inl rfl))
  refine ⟨fun m hm => h.marked_mono m ((M.marked_mark n s m).mpr (.inr hm)), ?_,
    fun m hm => ?_, fun m hm => ?_⟩
  · rintro m hm
    rw [List.mem_singleton.mp hm]
    exact hn
  · rcases h.followed m hm with hmark | hfollowed
    · rcases (M.marked_mark n s m).mp hmark with rfl | hs
      · exact .inr h.starts
      · exact .inl hs
    · exact .inr hfollowed
  · rcases h.reached m hm with hmark | ⟨l, hl, hreach⟩
    · rcases (M.marked_mark n s m).mp hmark with rfl | hs
      · exact .inr ⟨m, List.mem_singleton_self m, ReflTransGen.refl⟩
      · exact .inl hs
    · exact .inr ⟨n, List.mem_singleton_self n, ReflTransGen.head hl hreach⟩

/-- A loop of walks. -/
theorem walked_foldlM {step : ν → σ → Option σ}
    (hstep : ∀ n s s', step n s = some s' → Walked M succ [n] s s') (ns : List ν) {s s' : σ}
    (h : ns.foldlM (fun s n => step n s) s = some s') : Walked M succ ns s s' := by
  induction ns generalizing s with
  | nil =>
      cases h
      exact .nil _
  | cons n ns ih =>
      rw [List.foldlM_cons] at h
      obtain ⟨middle, hmiddle, hrest⟩ := Option.bind_eq_some_iff.mp h
      exact .cons (hstep n s middle hmiddle) (ih hrest)

/-- **What a visit does**, by induction on its depth. -/
theorem walked_visit {fuel : ℕ} {n : ν} {s s' : σ} (h : M.visit succ fuel n s = some s') :
    Walked M succ [n] s s' := by
  induction fuel generalizing n s s' with
  | zero => cases h
  | succ fuel ih =>
      rw [visit] at h
      split at h
      · rename_i hmarked
        cases h
        refine ⟨fun m hm => hm, fun m hm => ?_, fun m hm => .inl hm, fun m hm => .inl hm⟩
        rw [List.mem_singleton.mp hm]
        exact hmarked
      · exact .of_mark (walked_foldlM (fun m s s' hm => ih hm) (succ n) h)

/-- What some visits do. -/
theorem walked_visitAll {fuel : ℕ} {ns : List ν} {s s' : σ}
    (h : M.visitAll succ fuel ns s = some s') : Walked M succ ns s s' :=
  walked_foldlM (fun _ _ _ hstep => walked_visit hstep) ns h

/-- The references of all marked nodes are marked. -/
def Closed (M : Marking ν σ) (succ : ν → List ν) (s : σ) : Prop :=
  ∀ n, M.marked s n = true → ∀ m ∈ succ n, M.marked s m = true

/-- A walk leaves closed marks closed. -/
theorem Walked.closed {ns : List ν} {s s' : σ} (h : Walked M succ ns s s')
    (hs : Closed M succ s) : Closed M succ s' := by
  intro n hn m hm
  rcases h.followed n hn with hmarked | hfollowed
  · exact h.marked_mono m (hs n hmarked m hm)
  · exact hfollowed m hm

/-- What can be reached from a marked node is marked, where marks are closed. -/
theorem Closed.marked_of_reaches {s : σ} (hs : Closed M succ s) {n m : ν}
    (hreach : Reaches succ n m) (hn : M.marked s n = true) : M.marked s m = true := by
  induction hreach with
  | refl => exact hn
  | tail _ hbc ih => exact hs _ ih _ hbc

/-- **A walk marks exactly what can be reached**, in addition to closed marks. -/
theorem Walked.marked_iff {ns : List ν} {s s' : σ} (h : Walked M succ ns s s')
    (hs : Closed M succ s) (m : ν) :
    M.marked s' m = true ↔ M.marked s m = true ∨ ∃ n ∈ ns, Reaches succ n m := by
  refine ⟨h.reached m, ?_⟩
  rintro (hm | ⟨n, hn, hreach⟩)
  · exact h.marked_mono m hm
  · exact (h.closed hs).marked_of_reaches hreach (h.starts n hn)

/-- What the steps of a loop keep, the loop keeps. -/
theorem foldlM_invariant {Inv : σ → Prop} {step : ν → σ → Option σ}
    (hstep : ∀ n s s', Inv s → step n s = some s' → Inv s') (ns : List ν) {s s' : σ} (hs : Inv s)
    (h : ns.foldlM (fun s n => step n s) s = some s') : Inv s' := by
  induction ns generalizing s with
  | nil =>
      cases h
      exact hs
  | cons n ns ih =>
      rw [List.foldlM_cons] at h
      obtain ⟨middle, hmiddle, hrest⟩ := Option.bind_eq_some_iff.mp h
      exact ih (hstep n s middle hs hmiddle) hrest

/-- What marking keeps, a visit keeps. -/
theorem visit_invariant {Inv : σ → Prop} (hmark : ∀ n s, Inv s → Inv (M.mark n s)) {fuel : ℕ}
    {n : ν} {s s' : σ} (hs : Inv s) (h : M.visit succ fuel n s = some s') : Inv s' := by
  induction fuel generalizing n s s' with
  | zero => cases h
  | succ fuel ih =>
      rw [visit] at h
      split at h
      · cases h
        exact hs
      · exact foldlM_invariant (fun m s s' hs hm => ih hs hm) (succ n) (hmark n s hs) h

/-- What marking keeps, some visits keep. -/
theorem visitAll_invariant {Inv : σ → Prop} (hmark : ∀ n s, Inv s → Inv (M.mark n s)) {fuel : ℕ}
    {ns : List ν} {s s' : σ} (hs : Inv s) (h : M.visitAll succ fuel ns s = some s') : Inv s' :=
  foldlM_invariant (fun _ _ _ hs hn => visit_invariant hmark hs hn) ns hs h

/-! ### The end of a walk -/

/-- The nodes of a list that are not marked. -/
def unmarked (M : Marking ν σ) (ns : List ν) (s : σ) : ℕ := ns.countP fun n => !M.marked s n

/-- More marks leave fewer nodes without. -/
theorem unmarked_le {ns : List ν} {s s' : σ}
    (h : ∀ m, M.marked s m = true → M.marked s' m = true) :
    unmarked M ns s' ≤ unmarked M ns s := by
  refine List.countP_mono_left fun n _ hn => ?_
  simp only [Bool.not_eq_true', Bool.eq_false_iff, ne_eq] at hn ⊢
  exact fun hmarked => hn (h n hmarked)

/-- Marking a node of the list leaves fewer without. -/
theorem unmarked_mark_lt {ns : List ν} {n : ν} (hn : n ∈ ns) {s : σ}
    (hmarked : M.marked s n = false) : unmarked M ns (M.mark n s) < unmarked M ns s := by
  have hself : M.marked (M.mark n s) n = true := (M.marked_mark n s n).mpr (.inl rfl)
  have hmono : ∀ m, M.marked s m = true → M.marked (M.mark n s) m = true :=
    fun m hm => (M.marked_mark n s m).mpr (.inr hm)
  obtain ⟨xs, ys, rfl⟩ := List.append_of_mem hn
  have hxs : unmarked M xs (M.mark n s) ≤ unmarked M xs s := unmarked_le hmono
  have hys : unmarked M ys (M.mark n s) ≤ unmarked M ys s := unmarked_le hmono
  simp only [unmarked, List.countP_append, List.countP_cons, hself, hmarked] at hxs hys ⊢
  simp only [Bool.not_true, Bool.not_false, if_true, Bool.false_eq_true, if_false]
  omega

/-- A loop of walks comes to its end when each of them does in the states of the loop. -/
theorem foldlM_isSome_of_walked {step : ν → σ → Option σ} {k : ℕ} {L : List ν}
    (hwalked : ∀ n s s', step n s = some s' → Walked M succ [n] s s')
    (hstep : ∀ n s, unmarked M L s ≤ k → (step n s).isSome) (ns : List ν) {s : σ}
    (hs : unmarked M L s ≤ k) : (ns.foldlM (fun s n => step n s) s).isSome := by
  induction ns generalizing s with
  | nil => rfl
  | cons n ns ih =>
      obtain ⟨middle, hmiddle⟩ := Option.isSome_iff_exists.mp (hstep n s hs)
      rw [List.foldlM_cons, hmiddle]
      exact ih ((unmarked_le (hwalked n s middle hmiddle).marked_mono).trans hs)

/-- **A visit comes to its end** when its fuel exceeds the number of nodes with references that
are not marked. -/
theorem visit_isSome {L : List ν} (hL : ∀ n, succ n ≠ [] → n ∈ L) {fuel : ℕ} {n : ν} {s : σ}
    (hfuel : unmarked M L s + 2 ≤ fuel) : (M.visit succ fuel n s).isSome := by
  induction fuel generalizing n s with
  | zero => omega
  | succ fuel ih =>
      rw [visit]
      split
      · rfl
      · rename_i hmarked
        rw [Bool.not_eq_true] at hmarked
        by_cases hsucc : succ n = []
        · rw [hsucc]
          rfl
        · -- marking the node makes up for the call
          have hlt := unmarked_mark_lt (hL n hsucc) hmarked
          exact foldlM_isSome_of_walked (L := L) (fun m s s' h => walked_visit h)
            (fun m s' hs' => ih (by omega)) (succ n) (Nat.le_refl _)

/-- Some visits come to their end. -/
theorem visitAll_isSome {L : List ν} (hL : ∀ n, succ n ≠ [] → n ∈ L) {fuel : ℕ} (ns : List ν)
    {s : σ} (hfuel : L.length + 2 ≤ fuel) : (M.visitAll succ fuel ns s).isSome :=
  foldlM_isSome_of_walked (k := L.length) (L := L) (fun _ _ _ h => walked_visit h)
    (fun _ _ hs => visit_isSome hL (by omega)) ns List.countP_le_length

/-- A path either keeps to some of the references or leaves them at some node. -/
theorem reaches_or_leaves {kept left : ν → List ν}
    (hsucc : ∀ n, ∀ m ∈ succ n, m ∈ kept n ∨ m ∈ left n) {n m : ν} (h : Reaches succ n m) :
    Reaches kept n m ∨ ∃ a, Reaches kept n a ∧ ∃ b ∈ left a, Reaches succ b m := by
  induction h using ReflTransGen.head_induction_on with
  | refl => exact .inl ReflTransGen.refl
  | head hstep hrest ih =>
      rcases hsucc _ _ hstep with hkept | hleft
      · rcases ih with hreach | ⟨a, hreach, hleaves⟩
        · exact .inl (ReflTransGen.head hkept hreach)
        · exact .inr ⟨a, ReflTransGen.head hkept hreach, hleaves⟩
      · exact .inr ⟨_, ReflTransGen.refl, _, hleft, hrest⟩

end Marking
