import Mathlib.Data.List.Forall2
import Mathlib.Data.Option.Basic

/-!
# Trees with values at their leaves

Trees whose nodes have any number of children, and the comparison of two of them place by place.

## Main results

* `sameBy_iff` — two trees are the same by a relation if they have one shape and their leaves at
  the same places are related;
* `map_eq_map_iff` — two trees have the same image if they are the same by the images of their
  leaves.
-/

/-- A tree with values at its leaves. -/
inductive LeafTree (α : Type)
  | leaf (a : α)
  | node (children : List (LeafTree α))

namespace LeafTree

variable {α β : Type}

/-- Induction over trees. -/
theorem induction {P : LeafTree α → Prop} (leaf : ∀ a, P (.leaf a))
    (node : ∀ children : List (LeafTree α), (∀ t ∈ children, P t) → P (.node children)) :
    ∀ t, P t
  | .leaf a => leaf a
  | .node children => node children fun t _ => induction leaf node t

mutual

/-- The image of a tree. -/
def map (f : α → β) : LeafTree α → LeafTree β
  | .leaf a => .leaf (f a)
  | .node children => .node (mapList f children)

/-- The images of trees. -/
def mapList (f : α → β) : List (LeafTree α) → List (LeafTree β)
  | [] => []
  | t :: ts => map f t :: mapList f ts

end

mutual

/-- The leaves at the same places of two trees, if they have one shape. -/
def pairs : LeafTree α → LeafTree β → Option (List (α × β))
  | .leaf a, .leaf b => some [(a, b)]
  | .node ts, .node us => listPairs ts us
  | .leaf _, .node _ => none
  | .node _, .leaf _ => none

/-- The leaves at the same places of the trees of two lists. -/
def listPairs : List (LeafTree α) → List (LeafTree β) → Option (List (α × β))
  | [], [] => some []
  | t :: ts, u :: us => do
      let ps ← pairs t u
      let qs ← listPairs ts us
      some (ps ++ qs)
  | [], _ :: _ => none
  | _ :: _, [] => none

end

mutual

/-- The leaves of a tree. -/
def leaves : LeafTree α → List α
  | .leaf a => [a]
  | .node children => listLeaves children

/-- The leaves of trees. -/
def listLeaves : List (LeafTree α) → List α
  | [] => []
  | t :: ts => leaves t ++ listLeaves ts

end

/-- The leaves of the trees of two lists. -/
theorem listLeaves_append (ts us : List (LeafTree α)) :
    listLeaves (ts ++ us) = listLeaves ts ++ listLeaves us := by
  induction ts with
  | nil => rfl
  | cons t ts ih => rw [List.cons_append, listLeaves, ih, listLeaves, List.append_assoc]

/-- Pairs, if there are any, are all related. -/
def allRelated (r : α → β → Bool) (ps : Option (List (α × β))) : Bool :=
  match ps with
  | none => false
  | some ps => ps.all fun p => r p.1 p.2

/-- Two trees are the same by a relation. -/
def sameBy (r : α → β → Bool) (t : LeafTree α) (u : LeafTree β) : Bool := allRelated r (pairs t u)

/-- The trees of two lists are the same by a relation. -/
def sameListBy (r : α → β → Bool) (ts : List (LeafTree α)) (us : List (LeafTree β)) : Bool :=
  allRelated r (listPairs ts us)

theorem sameBy_node (r : α → β → Bool) (ts : List (LeafTree α)) (us : List (LeafTree β)) :
    sameBy r (.node ts) (.node us) = sameListBy r ts us := rfl

/-- Lists are the same if their first trees are and the others. -/
theorem sameListBy_cons (r : α → β → Bool) (t : LeafTree α) (ts : List (LeafTree α))
    (u : LeafTree β) (us : List (LeafTree β)) :
    sameListBy r (t :: ts) (u :: us) = (sameBy r t u && sameListBy r ts us) := by
  rw [sameListBy, sameListBy, sameBy, listPairs]
  cases pairs t u with
  | none => rfl
  | some ps =>
      cases listPairs ts us with
      | none => simp [allRelated]
      | some qs => simp [allRelated]

/-- **Lists are the same** if they are equally long and their trees at the same places are. -/
theorem sameListBy_iff (r : α → β → Bool) (ts : List (LeafTree α)) (us : List (LeafTree β)) :
    sameListBy r ts us = true ↔ List.Forall₂ (fun t u => sameBy r t u = true) ts us := by
  induction ts generalizing us with
  | nil =>
      cases us with
      | nil => simp [sameListBy, listPairs, allRelated]
      | cons u us => simp [sameListBy, listPairs, allRelated]
  | cons t ts ih =>
      cases us with
      | nil => simp [sameListBy, listPairs, allRelated]
      | cons u us => rw [sameListBy_cons, Bool.and_eq_true, ih, List.forall₂_cons]

/-- Relations that agree on the leaves of two trees. -/
theorem sameBy_congr {r r' : α → β → Bool} {t : LeafTree α} {u : LeafTree β}
    (h : ∀ a ∈ t.leaves, ∀ b ∈ u.leaves, r a b = r' a b) : sameBy r t u = sameBy r' t u := by
  induction t using induction generalizing u with
  | leaf a =>
      cases u with
      | leaf b => simp [sameBy, pairs, allRelated, h a (by simp [leaves]) b (by simp [leaves])]
      | node us => rfl
  | node ts ih =>
      cases u with
      | leaf b => rfl
      | node us =>
          rw [sameBy_node, sameBy_node]
          simp only [leaves] at h
          induction ts generalizing us with
          | nil => cases us <;> rfl
          | cons t ts ihts =>
              cases us with
              | nil => rfl
              | cons u us =>
                  obtain ⟨hfirst, hrest⟩ := List.forall_mem_cons.mp ih
                  simp only [listLeaves, List.mem_append] at h
                  rw [sameListBy_cons, sameListBy_cons,
                    hfirst fun a ha b hb => h a (.inl ha) b (.inl hb),
                    ihts hrest us fun a ha b hb => h a (.inr ha) b (.inr hb)]

/-- **Trees are the same by a relation** if their leaves at the same places are related. -/
theorem sameBy_iff (r : α → β → Bool) (t : LeafTree α) (u : LeafTree β) :
    sameBy r t u = true ↔ ∃ ps, pairs t u = some ps ∧ ∀ p ∈ ps, r p.1 p.2 = true := by
  rw [sameBy]
  cases pairs t u with
  | none => simp [allRelated]
  | some ps => simp [allRelated, List.all_eq_true]

/-- **Trees have the same image** if they are the same by the images of their leaves. -/
theorem map_eq_map_iff {γ : Type} [DecidableEq γ] (f : α → γ) (g : β → γ) (t : LeafTree α)
    (u : LeafTree β) : t.map f = u.map g ↔ sameBy (fun a b => f a = g b) t u = true := by
  induction t using induction generalizing u with
  | leaf a =>
      cases u with
      | leaf b => simp [map, sameBy, pairs, allRelated]
      | node us => simp [map, sameBy, pairs, allRelated]
  | node ts ih =>
      cases u with
      | leaf b => simp [map, sameBy, pairs, allRelated]
      | node us =>
          rw [map, map, node.injEq, sameBy_node]
          induction ts generalizing us with
          | nil =>
              cases us with
              | nil => simp [mapList, sameListBy, listPairs, allRelated]
              | cons u us => simp [mapList, sameListBy, listPairs, allRelated]
          | cons t ts ihts =>
              cases us with
              | nil => simp [mapList, sameListBy, listPairs, allRelated]
              | cons u us =>
                  obtain ⟨hfirst, hrest⟩ := List.forall_mem_cons.mp ih
                  rw [mapList, mapList, List.cons.injEq, sameListBy_cons, Bool.and_eq_true,
                    hfirst u, ihts hrest us]

end LeafTree
