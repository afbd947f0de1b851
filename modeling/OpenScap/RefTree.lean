import Mathlib.Order.Basic

/-!
# Trees with references

The leaves of a tree refer to things, and its inner nodes combine the results of some of their
subtrees, from the first one on. A tree is read when the results of its references are known; it is
run in a state, where visiting a reference may change the state and may have no result.

## Main results

* `run_of_meaning` — a tree with a meaning is run with that result, and keeps an invariant that all
  visits keep;
* `meaning_of_run` — the result of a run is the meaning, when those of the visits are;
* `meaning_mono` — knowing more references changes no meaning.
-/

/-- A tree with references of a type and inner nodes of a type. -/
inductive RefTree (X F : Type*)
  | ref (x : X)
  | node (f : F) (subs : List (RefTree X F))

namespace RefTree

variable {X F : Type*} {R σ : Type}

/-- How inner nodes combine results: of how many of the subtrees, and to what. -/
structure Combination (F : Type*) (R : Type) where
  takes : F → ℕ → ℕ
  combine : F → ℕ → List R → Option R

variable (C : Combination F R)

mutual

/-- The result of a tree whose references are known. -/
def meaning (read : X → Option R) : RefTree X F → Option R
  | ref x => read x
  | node f subs => do
      let results ← meanings read (C.takes f subs.length) subs
      C.combine f subs.length results

/-- The results of the first trees of a list. -/
def meanings (read : X → Option R) : ℕ → List (RefTree X F) → Option (List R)
  | 0, _ => some []
  | _, [] => some []
  | n + 1, sub :: subs => do
      let result ← meaning read sub
      let results ← meanings read n subs
      some (result :: results)

end

mutual

/-- Runs a tree in a state. -/
def run (visit : σ → X → Option (σ × R)) : RefTree X F → σ → Option (σ × R)
  | ref x, st => visit st x
  | node f subs, st => do
      let (st, results) ← runs visit (C.takes f subs.length) subs st
      let result ← C.combine f subs.length results
      some (st, result)

/-- Runs the first trees of a list, one after the other. -/
def runs (visit : σ → X → Option (σ × R)) : ℕ → List (RefTree X F) → σ → Option (σ × List R)
  | 0, _, st => some (st, [])
  | _, [], st => some (st, [])
  | n + 1, sub :: subs, st => do
      let (st, result) ← run visit sub st
      let (st, results) ← runs visit n subs st
      some (st, result :: results)

end

/-- No subtree is read. -/
@[simp] theorem meanings_zero (read : X → Option R) (subs : List (RefTree X F)) :
    meanings C read 0 subs = some [] := by
  rw [meanings]

/-- There is no subtree. -/
@[simp] theorem meanings_nil (read : X → Option R) (n : ℕ) :
    meanings C read n ([] : List (RefTree X F)) = some [] := by
  cases n <;> simp [meanings]

/-- No subtree is run. -/
@[simp] theorem runs_zero (visit : σ → X → Option (σ × R)) (subs : List (RefTree X F)) (st : σ) :
    runs C visit 0 subs st = some (st, []) := by
  rw [runs]

/-- There is no subtree. -/
@[simp] theorem runs_nil (visit : σ → X → Option (σ × R)) (n : ℕ) (st : σ) :
    runs C visit n ([] : List (RefTree X F)) st = some (st, []) := by
  cases n <;> simp [runs]

section Mono

variable {C} {read read' : X → Option R}

mutual

/-- **Knowing more references changes no meaning.** -/
theorem meaning_mono (hread : ∀ x r, read x = some r → read' x = some r) :
    ∀ {t : RefTree X F} {r : R}, meaning C read t = some r → meaning C read' t = some r
  | ref x, r, h => by
      rw [meaning] at h ⊢
      exact hread x r h
  | node f subs, r, h => by
      rw [meaning, Option.bind_eq_bind, Option.bind_eq_some_iff] at h ⊢
      obtain ⟨results, hresults, hr⟩ := h
      exact ⟨results, meanings_mono hread hresults, hr⟩

/-- Knowing more references changes no meaning in a list. -/
theorem meanings_mono (hread : ∀ x r, read x = some r → read' x = some r) :
    ∀ {n : ℕ} {subs : List (RefTree X F)} {rs : List R},
    meanings C read n subs = some rs → meanings C read' n subs = some rs
  | 0, _, _, h => by
      rw [meanings_zero] at h ⊢
      exact h
  | _ + 1, [], _, h => by
      rw [meanings_nil] at h ⊢
      exact h
  | n + 1, sub :: subs, rs, h => by
      simp only [meanings, Option.bind_eq_bind, Option.bind_eq_some_iff] at h ⊢
      obtain ⟨r, hr, rs', hrs, heq⟩ := h
      exact ⟨r, meaning_mono hread hr, rs', meanings_mono hread hrs, heq⟩

end

end Mono

section Run

variable {C} {read : X → Option R} {visit : σ → X → Option (σ × R)} {Inv : σ → Prop}

mutual

/-- **A tree with a meaning is run with that result.** -/
theorem run_of_meaning (hvisit : ∀ st x r, Inv st → read x = some r →
    ∃ st', visit st x = some (st', r) ∧ Inv st') :
    ∀ {t : RefTree X F} {r : R} {st : σ}, Inv st →
    meaning C read t = some r → ∃ st', run C visit t st = some (st', r) ∧ Inv st'
  | ref x, r, st, hst, h => by
      rw [meaning] at h
      obtain ⟨st', hrun, hst'⟩ := hvisit st x r hst h
      exact ⟨st', by rw [run, hrun], hst'⟩
  | node f subs, r, st, hst, h => by
      rw [meaning, Option.bind_eq_bind, Option.bind_eq_some_iff] at h
      obtain ⟨results, hresults, hr⟩ := h
      obtain ⟨st', hruns, hst'⟩ := runs_of_meanings hvisit hst hresults
      exact ⟨st', by simp [run, hruns, hr], hst'⟩

/-- Trees with meanings are run with these results. -/
theorem runs_of_meanings (hvisit : ∀ st x r, Inv st → read x = some r →
    ∃ st', visit st x = some (st', r) ∧ Inv st') :
    ∀ {n : ℕ} {subs : List (RefTree X F)} {rs : List R} {st : σ}, Inv st →
    meanings C read n subs = some rs → ∃ st', runs C visit n subs st = some (st', rs) ∧ Inv st'
  | 0, subs, rs, st, hst, h => by
      cases (meanings_zero C read subs).symm.trans h
      exact ⟨st, runs_zero C visit subs st, hst⟩
  | n + 1, [], rs, st, hst, h => by
      cases (meanings_nil C read (n + 1)).symm.trans h
      exact ⟨st, runs_nil C visit (n + 1) st, hst⟩
  | n + 1, sub :: subs, rs, st, hst, h => by
      simp only [meanings, Option.bind_eq_bind, Option.bind_eq_some_iff] at h
      obtain ⟨r, hr, rs', hrs, heq⟩ := h
      obtain ⟨st₁, hrun, hst₁⟩ := run_of_meaning hvisit hst hr
      obtain ⟨st₂, hruns, hst₂⟩ := runs_of_meanings hvisit hst₁ hrs
      cases heq
      exact ⟨st₂, by simp [runs, hrun, hruns], hst₂⟩

end

end Run

section Meaning

variable {C} {read : ℕ → X → Option R} {visit : σ → X → Option (σ × R)} {Inv : σ → Prop}

mutual

/-- **The result of a run is the meaning, when enough is known.** -/
theorem meaning_of_run
    (hmono : ∀ n n' x r, n ≤ n' → read n x = some r → read n' x = some r)
    (hvisit : ∀ st x st' r, Inv st → visit st x = some (st', r) →
      Inv st' ∧ ∃ n, read n x = some r) :
    ∀ {t : RefTree X F} {r : R} {st st' : σ}, Inv st →
    run C visit t st = some (st', r) → Inv st' ∧ ∃ n, meaning C (read n) t = some r
  | ref x, r, st, st', hst, h => by
      rw [run] at h
      obtain ⟨hst', n, hn⟩ := hvisit st x st' r hst h
      exact ⟨hst', n, by rw [meaning, hn]⟩
  | node f subs, r, st, st', hst, h => by
      simp only [run, Option.bind_eq_bind, Option.bind_eq_some_iff] at h
      obtain ⟨⟨st₁, results⟩, hruns, r', hr, heq⟩ := h
      obtain ⟨hst₁, n, hn⟩ := meanings_of_runs hmono hvisit hst hruns
      cases heq
      exact ⟨hst₁, n, by simp [meaning, hn, hr]⟩

/-- The results of runs are the meanings, when enough is known. -/
theorem meanings_of_runs
    (hmono : ∀ n n' x r, n ≤ n' → read n x = some r → read n' x = some r)
    (hvisit : ∀ st x st' r, Inv st → visit st x = some (st', r) →
      Inv st' ∧ ∃ n, read n x = some r) :
    ∀ {k : ℕ} {subs : List (RefTree X F)} {rs : List R} {st st' : σ},
    Inv st → runs C visit k subs st = some (st', rs) →
      Inv st' ∧ ∃ n, meanings C (read n) k subs = some rs
  | 0, subs, rs, st, st', hst, h => by
      cases (runs_zero C visit subs st).symm.trans h
      exact ⟨hst, 0, meanings_zero C (read 0) subs⟩
  | k + 1, [], rs, st, st', hst, h => by
      cases (runs_nil C visit (k + 1) st).symm.trans h
      exact ⟨hst, 0, meanings_nil C (read 0) (k + 1)⟩
  | k + 1, sub :: subs, rs, st, st', hst, h => by
      simp only [runs, Option.bind_eq_bind, Option.bind_eq_some_iff] at h
      obtain ⟨⟨st₁, r⟩, hrun, ⟨st₂, rs'⟩, hruns, heq⟩ := h
      obtain ⟨hst₁, n₁, hn₁⟩ := meaning_of_run hmono hvisit hst hrun
      obtain ⟨hst₂, n₂, hn₂⟩ := meanings_of_runs hmono hvisit hst₁ hruns
      cases heq
      -- what is known after the more demanding of the two
      have hr := meaning_mono (fun x r => hmono n₁ (max n₁ n₂) x r (Nat.le_max_left _ _)) hn₁
      have hrs := meanings_mono (fun x r => hmono n₂ (max n₁ n₂) x r (Nat.le_max_right _ _)) hn₂
      exact ⟨hst₂, max n₁ n₂, by simp [meanings, hr, hrs]⟩

end

end Meaning

end RefTree
