import Mathlib.Algebra.Order.Group.Nat
import Mathlib.Data.List.Count
import Mathlib.Data.List.Nodup
import Mathlib.Logic.Function.Basic
import Mathlib.Logic.Relation

/-!
# Forests of child lists and parent pointers

The nodes of a forest have a list of children and a pointer to a parent. `Forest` says that
the two agree, every child standing once in the list of its parent, and that the parent
pointers do not lead in a circle. `Visits` is the walk that visits the nodes of a subtree, each
after its children.

## Main results

* `Forest.mem_visits`, `Forest.postorder` — a walk visits what lies below its starting nodes,
  each node once and before the nodes it lies below;
* `Forest.attach`, `under_attach` — a tree that is hung below a node of another tree;
* `Forest.prune`, `under_prune` — a subtree that is taken out;
* `Forest.topmost_eq` — following the parent pointers finds the root.
-/

open Relation

namespace PointerForest

variable {ι : Type*}

/-- Walking the nodes of a list with all that lies below them, children first. -/
inductive Visits (kids : ι → List ι) : List ι → List ι → Prop
  /-- Nothing to walk. -/
  | nil : Visits kids [] []
  /-- The children of the first node, the node, and the other nodes. -/
  | cons {x : ι} {xs l₁ l₂ : List ι} (below : Visits kids (kids x) l₁)
      (rest : Visits kids xs l₂) : Visits kids (x :: xs) (l₁ ++ x :: l₂)

/-- The nodes of a list with all that lies below them, at most `fuel` levels deep. -/
def visit (kids : ι → List ι) : ℕ → List ι → List ι
  | 0, _ => []
  | fuel + 1, xs => xs.flatMap fun x => visit kids fuel (kids x) ++ [x]

/-- `x` is `y` or lies below it. -/
def Under (up : ι → Option ι) : ι → ι → Prop := ReflTransGen fun x p => up x = some p

/-- Following the parent pointers for at most `fuel` nodes. -/
def topmost (up : ι → Option ι) : ℕ → ι → Option ι
  | 0, _ => none
  | fuel + 1, x =>
      match up x with
      | none => some x
      | some p => topmost up fuel p

/-- The child lists agree with the parent pointers, which lead upwards. -/
structure Forest [DecidableEq ι] (kids : ι → List ι) (up : ι → Option ι) : Prop where
  count_eq : ∀ x p, (kids p).count x = if up x = some p then 1 else 0
  ranked : ∃ rank : ι → ℕ, ∀ x p, up x = some p → rank x < rank p

variable {kids : ι → List ι} {up : ι → Option ι} {x y z p b : ι} {xs l : List ι}

/-- **With enough fuel, the nodes are those of the walk.** -/
theorem Visits.visit_eq (h : Visits kids xs l) {fuel : ℕ} (hfuel : l.length ≤ fuel) :
    visit kids fuel xs = l := by
  induction h generalizing fuel with
  | nil => cases fuel <;> rfl
  | @cons x xs l₁ l₂ _ _ ih₁ ih₂ =>
      rw [List.length_append, List.length_cons] at hfuel
      obtain ⟨n, rfl⟩ : ∃ n, fuel = n + 1 := ⟨fuel - 1, by omega⟩
      have hrest : visit kids (n + 1) xs = l₂ := ih₂ (by omega)
      rw [visit] at hrest
      rw [visit, List.flatMap_cons, ih₁ (by omega), hrest, List.append_assoc,
        List.singleton_append]

/-- A walk of two lists is a walk of each. -/
theorem Visits.of_append {ys : List ι} (h : Visits kids (xs ++ ys) l) :
    ∃ l₁ l₂, l = l₁ ++ l₂ ∧ Visits kids xs l₁ ∧ Visits kids ys l₂ := by
  induction xs generalizing l with
  | nil => exact ⟨[], l, rfl, .nil, h⟩
  | cons x xs ih =>
      cases h with
      | cons below rest =>
          obtain ⟨l₁, l₂, rfl, h₁, h₂⟩ := ih rest
          exact ⟨_ ++ x :: l₁, l₂, by simp, .cons below h₁, h₂⟩

/-- The walk of one tree ends with its root. -/
theorem Visits.of_singleton (h : Visits kids [x] l) :
    ∃ l₁, l = l₁ ++ [x] ∧ Visits kids (kids x) l₁ := by
  cases h with
  | cons below rest =>
      cases rest
      exact ⟨_, rfl, below⟩

/-- A walk depends on the child lists of the nodes that it visits. -/
theorem Visits.congr {kids' : ι → List ι} (h : Visits kids xs l)
    (heq : ∀ y ∈ l, kids' y = kids y) : Visits kids' xs l := by
  induction h with
  | nil => exact .nil
  | @cons x xs l₁ l₂ _ _ ih₁ ih₂ =>
      refine .cons ?_ (ih₂ fun y hy => heq y (by simp [hy]))
      rw [heq x (by simp)]
      exact ih₁ fun y hy => heq y (by simp [hy])

/-! ### The order of a forest -/

/-- A node is counted as lying below itself. -/
theorem Under.refl (up : ι → Option ι) (x : ι) : Under up x x := ReflTransGen.refl

/-- A child lies below its parent. -/
theorem Under.of_up (h : up x = some p) : Under up x p := ReflTransGen.single h

/-- What lies below what lies below a node lies below the node. -/
theorem Under.trans (h : Under up x y) (h' : Under up y z) : Under up x z :=
  ReflTransGen.trans h h'

/-- What lies below a node without parent is reached from no other node. -/
theorem Under.eq_of_root (h : Under up x y) (hroot : up x = none) : x = y := by
  rcases ReflTransGen.cases_head h with rfl | ⟨q, hq, -⟩
  · rfl
  · rw [hroot] at hq
    cases hq

/-- Of two nodes that a node lies below, one lies below the other. -/
theorem under_total (hx : Under up y x) (hz : Under up y z) : Under up x z ∨ Under up z x :=
  ReflTransGen.total_of_right_unique
    (fun _ _ _ h h' => Option.some.inj (h.symm.trans h')) hx hz

namespace Forest

variable [DecidableEq ι]

/-- The child list of a node has the nodes with that parent. -/
theorem mem_kids (h : Forest kids up) : x ∈ kids p ↔ up x = some p := by
  rw [← List.count_pos_iff, h.count_eq]
  split <;> simp_all

/-- A node lies below its child never. -/
theorem not_under_of_up (h : Forest kids up) (hp : up x = some p) : ¬ Under up p x := by
  obtain ⟨rank, hrank⟩ := h.ranked
  have hmono : ∀ {a c}, Under up a c → rank a ≤ rank c := by
    intro a c hac
    induction hac with
    | refl => exact Nat.le_refl _
    | tail _ hstep ih => exact ih.trans (hrank _ _ hstep).le
  intro hpx
  have := hmono hpx
  have := hrank x p hp
  omega

/-- Of two nodes with the same parent, neither lies below the other. -/
theorem eq_of_siblings (h : Forest kids up) (hup : up x = up y) (hxy : Under up x y) :
    x = y := by
  rcases ReflTransGen.cases_head hxy with rfl | ⟨q, hq, hqy⟩
  · rfl
  · exact absurd hqy (h.not_under_of_up (hup.symm.trans hq))

/-! ### The walk -/

/-- Every subtree can be walked. -/
theorem exists_visits (h : Forest kids up) (xs : List ι) : ∃ l, Visits kids xs l := by
  obtain ⟨rank, hrank⟩ := h.ranked
  have hbelow : ∀ n, ∀ xs : List ι, (∀ x ∈ xs, rank x < n) → ∃ l, Visits kids xs l := by
    intro n
    induction n with
    | zero =>
        intro xs hxs
        cases xs with
        | nil => exact ⟨[], .nil⟩
        | cons x xs => exact absurd (hxs x List.mem_cons_self) (Nat.not_lt_zero _)
    | succ n ihn =>
        intro xs hxs
        induction xs with
        | nil => exact ⟨[], .nil⟩
        | cons x xs ihxs =>
            obtain ⟨l₂, hrest⟩ := ihxs fun y hy => hxs y (List.mem_cons_of_mem _ hy)
            obtain ⟨l₁, hkids⟩ := ihn (kids x) fun y hy => by
              have := hrank y x (h.mem_kids.mp hy)
              have := hxs x List.mem_cons_self
              omega
            exact ⟨l₁ ++ x :: l₂, .cons hkids hrest⟩
  obtain ⟨n, hn⟩ : ∃ n, ∀ x ∈ xs, rank x < n := by
    induction xs with
    | nil => exact ⟨0, by simp⟩
    | cons x xs ih =>
        obtain ⟨n, hn⟩ := ih
        refine ⟨max n (rank x + 1), fun y hy => ?_⟩
        rcases List.mem_cons.mp hy with rfl | hy
        · omega
        · have := hn y hy
          omega
  exact hbelow n xs hn

/-- **A walk visits what lies below its starting nodes.** -/
theorem mem_visits (h : Forest kids up) (hl : Visits kids xs l) :
    y ∈ l ↔ ∃ x ∈ xs, Under up y x := by
  induction hl with
  | nil => simp
  | @cons x xs l₁ l₂ _ _ ih₁ ih₂ =>
      have hx : Under up y x ↔ x = y ∨ ∃ c ∈ kids x, Under up y c := by
        unfold Under
        rw [ReflTransGen.cases_tail_iff]
        constructor
        · rintro (rfl | ⟨c, hc, hup⟩)
          · exact Or.inl rfl
          · exact Or.inr ⟨c, h.mem_kids.mpr hup, hc⟩
        · rintro (rfl | ⟨c, hmem, hc⟩)
          · exact Or.inl rfl
          · exact Or.inr ⟨c, hc, h.mem_kids.mp hmem⟩
      rw [List.mem_append, List.mem_cons, ih₁, ih₂, List.exists_mem_cons_iff, hx, or_assoc,
        eq_comm, or_left_comm]

/-- The children of a node stand in its list once. -/
theorem nodup_kids (h : Forest kids up) (p : ι) : (kids p).Nodup := by
  rw [List.nodup_iff_count_le_one]
  intro x
  rw [h.count_eq]
  split <;> omega

/-- **A walk visits no node after a node that it lies below.** -/
theorem postorder (h : Forest kids up) (hl : Visits kids xs l) (hxs : xs.Nodup)
    (hup : ∀ x ∈ xs, ∀ y ∈ xs, up x = up y) : l.Pairwise fun a c => ¬ Under up c a := by
  induction hl with
  | nil => exact List.Pairwise.nil
  | @cons x xs l₁ l₂ below rest ih₁ ih₂ =>
      obtain ⟨hx, hxs⟩ := List.nodup_cons.mp hxs
      have hl₁ := ih₁ (h.nodup_kids x) fun y hy z hz => by
        rw [h.mem_kids.mp hy, h.mem_kids.mp hz]
      have hl₂ := ih₂ hxs fun y hy z hz =>
        hup y (List.mem_cons_of_mem _ hy) z (List.mem_cons_of_mem _ hz)
      -- nothing of the later trees lies below `x`
      have hout : ∀ c ∈ l₂, ¬ Under up c x := by
        intro c hc hcx
        obtain ⟨x', hx', hcx'⟩ := (h.mem_visits rest).mp hc
        have heq := hup x List.mem_cons_self x' (List.mem_cons_of_mem _ hx')
        have hxx' : x = x' := by
          rcases under_total hcx hcx' with hle | hle
          · exact h.eq_of_siblings heq hle
          · exact (h.eq_of_siblings heq.symm hle).symm
        exact hx (hxx' ▸ hx')
      have hin : ∀ a ∈ l₁, ∃ c, up c = some x ∧ Under up a c := by
        intro a ha
        obtain ⟨c, hc, hac⟩ := (h.mem_visits below).mp ha
        exact ⟨c, h.mem_kids.mp hc, hac⟩
      refine List.pairwise_append.mpr ⟨hl₁, List.pairwise_cons.mpr ⟨hout, hl₂⟩, ?_⟩
      intro a ha c hc hca
      obtain ⟨d, hd, had⟩ := hin a ha
      rcases List.mem_cons.mp hc with rfl | hc
      · exact h.not_under_of_up hd (hca.trans had)
      · exact hout c hc ((hca.trans had).trans (Under.of_up hd))

/-- The walk of one subtree. -/
theorem postorder_singleton (h : Forest kids up) (hl : Visits kids [x] l) :
    l.Pairwise fun a c => ¬ Under up c a := by
  refine h.postorder hl (List.nodup_singleton x) ?_
  intro y hy z hz
  rw [List.mem_singleton.mp hy, List.mem_singleton.mp hz]

/-- What the walk of a subtree visits. -/
theorem mem_visits_singleton (h : Forest kids up) (hl : Visits kids [x] l) :
    y ∈ l ↔ Under up y x := by
  rw [h.mem_visits hl]
  simp

/-- The walk of a subtree visits no node twice. -/
theorem nodup_visits (h : Forest kids up) (hl : Visits kids [x] l) : l.Nodup :=
  (h.postorder_singleton hl).imp fun {a c} (hac : ¬ Under up c a) (heq : a = c) =>
    hac (heq ▸ ReflTransGen.refl)

/-! ### Following the parent pointers -/

/-- **Following the parent pointers finds the root**, in fewer steps than there are nodes. -/
theorem topmost_eq (h : Forest kids up) (nodes : List ι)
    (hnodes : ∀ x p, up x = some p → x ∈ nodes) (hy : Under up y b) (hb : up b = none) :
    topmost up (nodes.length + 1) y = some b := by
  have hchain : ∃ as : List ι, as.Nodup ∧ (∀ a ∈ as, Under up y a ∧ a ∈ nodes) ∧
      ∀ n, as.length < n → topmost up n y = some b := by
    induction hy using ReflTransGen.head_induction_on with
    | refl =>
        refine ⟨[], List.nodup_nil, by simp, fun n hn => ?_⟩
        obtain ⟨m, rfl⟩ : ∃ m, n = m + 1 := ⟨n - 1, by simp at hn; omega⟩
        rw [topmost, hb]
    | @head y c hc _ ih =>
        obtain ⟨as, hnodup, has, hn⟩ := ih
        refine ⟨y :: as, List.nodup_cons.mpr ⟨?_, hnodup⟩, ?_, fun n hlt => ?_⟩
        · exact fun hmem => h.not_under_of_up hc (has y hmem).1
        · intro a ha
          rcases List.mem_cons.mp ha with rfl | ha
          · exact ⟨ReflTransGen.refl, hnodes _ c hc⟩
          · exact ⟨ReflTransGen.head hc (has a ha).1, (has a ha).2⟩
        · rw [List.length_cons] at hlt
          obtain ⟨m, rfl⟩ : ∃ m, n = m + 1 := ⟨n - 1, by omega⟩
          rw [topmost, hc]
          exact hn m (by omega)
  obtain ⟨as, hnodup, has, hn⟩ := hchain
  have hle : as.length ≤ nodes.length :=
    (List.subperm_of_subset hnodup fun a ha => (has a ha).2).length_le
  exact hn _ (by omega)

end Forest

/-- Only the pointers above a node are followed. -/
theorem topmost_congr {up' : ι → Option ι} (h : ∀ a, Under up y a → up' a = up a) (n : ℕ) :
    topmost up' n y = topmost up n y := by
  induction n generalizing y with
  | zero => rfl
  | succ n ih =>
      rw [topmost, topmost, h y ReflTransGen.refl]
      cases hp : up y with
      | none => rfl
      | some p => exact ih fun a ha => h a (ReflTransGen.head hp ha)

/-- What the parent pointers lead to lies above. -/
theorem under_of_topmost {n : ℕ} (h : topmost up n y = some b) : Under up y b := by
  induction n generalizing y with
  | zero => cases h
  | succ n ih =>
      rw [topmost] at h
      split at h
      · obtain rfl : y = b := Option.some.inj h
        exact ReflTransGen.refl
      · rename_i p hp
        exact ReflTransGen.head hp (ih h)

/-! ### Hanging a tree below a node -/

section Attach

variable [DecidableEq ι]

/-- **What lies below a node after a tree is hung below `p`.** -/
theorem under_attach (hroot : up x = none) (hp : ¬ Under up p x) :
    Under (Function.update up x (some p)) y b ↔
      Under up y b ∨ Under up y x ∧ Under up p b := by
  have hmono : ∀ {a c}, Under up a c → Under (Function.update up x (some p)) a c := by
    intro a c hac
    induction hac with
    | refl => exact ReflTransGen.refl
    | @tail c d _ hstep ih =>
        refine ih.tail ?_
        rw [Function.update_of_ne]
        · exact hstep
        · rintro rfl
          rw [hroot] at hstep
          cases hstep
  constructor
  · intro h
    induction h using ReflTransGen.head_induction_on with
    | refl => exact Or.inl ReflTransGen.refl
    | @head y c hstep _ ih =>
        rcases eq_or_ne y x with rfl | hne
        · rw [Function.update_self] at hstep
          obtain rfl := Option.some.inj hstep
          rcases ih with ih | ⟨hpx, -⟩
          · exact Or.inr ⟨ReflTransGen.refl, ih⟩
          · exact absurd hpx hp
        · rw [Function.update_of_ne hne] at hstep
          rcases ih with ih | ⟨hcx, hpb⟩
          · exact Or.inl (ReflTransGen.head hstep ih)
          · exact Or.inr ⟨ReflTransGen.head hstep hcx, hpb⟩
  · rintro (h | ⟨hyx, hpb⟩)
    · exact hmono h
    · exact ((hmono hyx).tail (Function.update_self ..)).trans (hmono hpb)

/-- **Hanging a tree below a node of another tree gives a forest.** -/
theorem Forest.attach (h : Forest kids up) {kids' : ι → List ι} (hroot : up x = none)
    (hp : ¬ Under up p x) (hkids : ∀ z, z ≠ p → kids' z = kids z)
    (hperm : (kids' p).Perm (x :: kids p)) :
    Forest kids' (Function.update up x (some p)) := by
  classical
  obtain ⟨rank, hrank⟩ := h.ranked
  constructor
  · intro y z
    have hcount : (kids' z).count y = (kids z).count y + if z = p ∧ y = x then 1 else 0 := by
      rcases eq_or_ne z p with rfl | hne
      · rw [hperm.count_eq, List.count_cons]
        exact congrArg _ (if_congr (by rw [beq_iff_eq, and_iff_right rfl, eq_comm]) rfl rfl)
      · rw [hkids z hne, if_neg fun h => hne h.1, Nat.add_zero]
    rw [hcount, h.count_eq]
    rcases eq_or_ne y x with rfl | hne
    · rw [Function.update_self, hroot]
      simp only [reduceCtorEq, if_false, Nat.zero_add, and_true, Option.some.injEq]
      exact if_congr eq_comm rfl rfl
    · rw [Function.update_of_ne hne]
      simp only [hne, and_false, if_false, Nat.add_zero]
  · refine ⟨fun y => if Under up p y then rank y + rank x + 1 else rank y, fun y z hstep => ?_⟩
    dsimp only
    rcases eq_or_ne y x with rfl | hne
    · rw [Function.update_self] at hstep
      obtain rfl := Option.some.inj hstep
      rw [if_neg hp, if_pos (Under.refl up p)]
      omega
    · rw [Function.update_of_ne hne] at hstep
      have := hrank y z hstep
      by_cases hy : Under up p y
      · rw [if_pos hy, if_pos (hy.trans (Under.of_up hstep))]
        omega
      · rw [if_neg hy]
        split <;> omega

end Attach

/-! ### Taking a subtree out -/

section Prune

variable {up' : ι → Option ι} (hin : ∀ z, Under up z x → up' z = none)
  (hout : ∀ z, ¬ Under up z x → up' z = up z)

include hin hout in
/-- **What lies below a node after the subtree of `x` is taken out.** -/
theorem under_prune (hy : ¬ Under up y x) : Under up' y b ↔ Under up y b := by
  constructor
  · intro h
    induction h with
    | refl => exact ReflTransGen.refl
    | @tail c d _ hstep ih =>
        refine ih.tail ?_
        by_cases hc : Under up c x
        · rw [hin c hc] at hstep
          cases hstep
        · rwa [hout c hc] at hstep
  · intro h
    induction h using ReflTransGen.head_induction_on with
    | refl => exact ReflTransGen.refl
    | @head y c hstep _ ih =>
        refine ReflTransGen.head ((hout y hy).trans hstep) (ih fun hcx => hy ?_)
        exact ReflTransGen.head hstep hcx

include hin hout in
/-- **Taking a subtree out gives a forest.** -/
theorem Forest.prune [DecidableEq ι] (h : Forest kids up) {kids' : ι → List ι}
    (hnone : ∀ z, Under up z x → kids' z = [])
    (herase : ∀ z, ¬ Under up z x → kids' z = (kids z).erase x) : Forest kids' up' := by
  classical
  obtain ⟨rank, hrank⟩ := h.ranked
  have hstep : ∀ y z, up' y = some z → ¬ Under up y x ∧ up y = some z := by
    intro y z hyz
    by_cases hy : Under up y x
    · rw [hin y hy] at hyz
      cases hyz
    · exact ⟨hy, (hout y hy).symm.trans hyz⟩
  refine ⟨fun y z => ?_, rank, fun y z hyz => hrank y z (hstep y z hyz).2⟩
  by_cases hz : Under up z x
  · rw [hnone z hz, List.count_nil, if_neg]
    intro hyz
    obtain ⟨hy, hup⟩ := hstep y z hyz
    exact hy (ReflTransGen.head hup hz)
  · rw [herase z hz, List.count_erase, h.count_eq]
    rcases eq_or_ne y x with rfl | hne
    · rw [hin y ReflTransGen.refl]
      simp
      split <;> omega
    · by_cases hy : Under up y x
      · obtain ⟨q, hq, hqx⟩ := (ReflTransGen.cases_head hy).resolve_left hne
        have hqz : up y ≠ some z := by
          rw [hq]
          rintro heq
          exact hz (Option.some.inj heq ▸ hqx)
        rw [hin y hy, if_neg hqz]
        simp
      · rw [hout y hy]
        simp [hne.symm]

end Prune

end PointerForest
