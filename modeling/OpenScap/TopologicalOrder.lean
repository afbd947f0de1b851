import Mathlib.Data.List.Nodup
import Mathlib.Logic.Relation

/-!
# Topological orders of directed graphs

A list of nodes is in topological order when every edge that leaves a node of the list leads
to a node that stands before it. This module collects what such a list says about the graph:
it is closed under the edges, and no cycle goes through its nodes.

## Main results

* `Ordered.mem_of_reaches` — what can be reached from a listed node is listed;
* `Ordered.acyclic` — no listed node lies on a cycle;
* `Ordered.snoc` — how such a list grows.
-/

open Relation

namespace TopologicalOrder

variable {α : Type*} {edge : α → α → Prop}

/-- Every edge from a listed node leads to one that stands before it. -/
def Ordered (edge : α → α → Prop) (nodes : List α) : Prop :=
  ∀ before v after, nodes = before ++ v :: after → ∀ w, edge v w → w ∈ before

/-- From `a` a cycle can be reached. -/
def ReachesCycle (edge : α → α → Prop) (a : α) : Prop :=
  ∃ c, ReflTransGen edge a c ∧ TransGen edge c c

/-- A cycle that a successor reaches is reached. -/
theorem ReachesCycle.head {a b : α} (hab : edge a b) (h : ReachesCycle edge b) :
    ReachesCycle edge a := by
  obtain ⟨c, hbc, hc⟩ := h
  exact ⟨c, ReflTransGen.head hab hbc, hc⟩

theorem ordered_nil : Ordered edge [] := by
  intro before v after h
  simp at h

/-- A node may follow when its successors are listed. -/
theorem Ordered.snoc {nodes : List α} (h : Ordered edge nodes) {v : α}
    (hv : ∀ w, edge v w → w ∈ nodes) : Ordered edge (nodes ++ [v]) := by
  intro before u after heq w huw
  rcases List.append_eq_append_iff.mp heq with ⟨mid, rfl, hmid⟩ | ⟨mid, rfl, hmid⟩
  · cases mid with
    | nil =>
        obtain ⟨rfl, -⟩ := List.cons_eq_cons.mp hmid
        simpa using hv w huw
    | cons m mid => simp at hmid
  · cases mid with
    | nil =>
        obtain ⟨rfl, -⟩ := List.cons_eq_cons.mp hmid
        simpa using hv w huw
    | cons m mid =>
        obtain ⟨rfl, -⟩ := List.cons_eq_cons.mp hmid
        exact h before u mid rfl w huw

/-- A first part of the list is in topological order. -/
theorem Ordered.left {xs ys : List α} (h : Ordered edge (xs ++ ys)) : Ordered edge xs := by
  rintro before v after rfl w hvw
  exact h before v (after ++ ys) (by simp) w hvw

/-- Successors of listed nodes are listed. -/
theorem Ordered.mem_of_edge {nodes : List α} (h : Ordered edge nodes) {v w : α}
    (hv : v ∈ nodes) (hvw : edge v w) : w ∈ nodes := by
  obtain ⟨before, after, rfl⟩ := List.append_of_mem hv
  exact List.mem_append_left _ (h before v after rfl w hvw)

/-- What can be reached from a listed node is listed. -/
theorem Ordered.mem_of_reaches {nodes : List α} (h : Ordered edge nodes) {v w : α}
    (hv : v ∈ nodes) (hvw : ReflTransGen edge v w) : w ∈ nodes := by
  induction hvw with
  | refl => exact hv
  | tail _ hbc ih => exact h.mem_of_edge ih hbc

/-- What a path from a listed node leads to stands before it. -/
theorem Ordered.mem_before {before after : List α} {v w : α}
    (h : Ordered edge (before ++ v :: after)) (hvw : TransGen edge v w) : w ∈ before := by
  induction hvw with
  | single hvb => exact h before v after rfl _ hvb
  | tail _ hbc ih => exact h.left.mem_of_edge ih hbc

/-- **No listed node lies on a cycle.** -/
theorem Ordered.acyclic {nodes : List α} (h : Ordered edge nodes) (hnodup : nodes.Nodup) {v : α}
    (hv : v ∈ nodes) : ¬ TransGen edge v v := by
  intro hcycle
  obtain ⟨before, after, rfl⟩ := List.append_of_mem hv
  have hbefore := h.mem_before hcycle
  have hdisj := (List.nodup_append.mp hnodup).2.2
  exact hdisj v hbefore v (by simp) rfl

/-- From a listed node no cycle can be reached. -/
theorem Ordered.not_reachesCycle {nodes : List α} (h : Ordered edge nodes)
    (hnodup : nodes.Nodup) {v : α} (hv : v ∈ nodes) : ¬ ReachesCycle edge v := by
  rintro ⟨c, hvc, hcycle⟩
  exact h.acyclic hnodup (h.mem_of_reaches hv hvc) hcycle

end TopologicalOrder
