import Mathlib.Data.List.Basic
import Mathlib.Data.Nat.Notation

/-!
# The events of element trees

An element tree is read event by event, in document order. An element is met at its start and,
unless it is closed in its start tag, at its end; what is between lies deeper.

The names of elements, the names of attributes and the texts are of any types.
-/

namespace XmlEvents

/-! ### Trees -/

/-- An element tree. An element without nodes may be closed in its start tag or not. -/
inductive Xml (ν α σ : Type)
  | text (value : σ)
  | empty (name : ν) (attrs : List (α × σ))
  | elem (name : ν) (attrs : List (α × σ)) (nodes : List (Xml ν α σ))

variable {ν α σ : Type}

/-- What a writer makes of an element: without nodes it is closed in its start tag. -/
def Xml.written (name : ν) (attrs : List (α × σ)) : List (Xml ν α σ) → Xml ν α σ
  | [] => .empty name attrs
  | x :: xs => .elem name attrs (x :: xs)

/-- What is known at the start of an element but for its name and attributes: whether it is
closed in its start tag, its nodes, and the attributes of the elements around it, the innermost
first. -/
structure Content (ν α σ : Type) where
  isEmpty : Bool
  nodes : List (Xml ν α σ)
  scope : List (α × σ)

/-- What a reader is at: the start of an element, a text, or the end of an element. -/
inductive Event (ν α σ : Type)
  | start (depth : ℕ) (name : ν) (attrs : List (α × σ)) (content : Content ν α σ)
  | text (depth : ℕ) (value : σ)
  | finish (depth : ℕ) (name : ν)

/-- The depth of a node. -/
def Event.depth : Event ν α σ → ℕ
  | .start depth .. => depth
  | .text depth _ => depth
  | .finish depth _ => depth

/-- The start of an element. -/
def Event.isStart : Event ν α σ → Bool
  | .start .. => true
  | _ => false

mutual

/-- The events of a node in a scope. -/
def Xml.events (depth : ℕ) (scope : List (α × σ)) : Xml ν α σ → List (Event ν α σ)
  | .text value => [.text depth value]
  | .empty name attrs => [.start depth name attrs ⟨true, [], scope⟩]
  | .elem name attrs nodes =>
      .start depth name attrs ⟨false, nodes, scope⟩ ::
        (nodesEvents (depth + 1) (attrs ++ scope) nodes ++ [.finish depth name])

/-- The events of nodes, one after another. -/
def nodesEvents (depth : ℕ) (scope : List (α × σ)) : List (Xml ν α σ) → List (Event ν α σ)
  | [] => []
  | x :: xs => x.events depth scope ++ nodesEvents depth scope xs

end

/-- The depth of what comes next; at the end of the document it is 0. -/
def depthAt (events : List (Event ν α σ)) : ℕ := (events.head?.map Event.depth).getD 0

@[simp] theorem depthAt_cons (event : Event ν α σ) (events : List (Event ν α σ)) :
    depthAt (event :: events) = event.depth := rfl

@[simp] theorem depth_start {depth : ℕ} {name : ν} {attrs : List (α × σ)}
    {content : Content ν α σ} : (Event.start depth name attrs content).depth = depth := rfl

@[simp] theorem depth_text {depth : ℕ} {value : σ} :
    (Event.text depth value : Event ν α σ).depth = depth := rfl

@[simp] theorem depth_finish {depth : ℕ} {name : ν} :
    (Event.finish depth name : Event ν α σ).depth = depth := rfl

/-! ### The events of a node -/

@[simp] theorem nodesEvents_nil (depth : ℕ) (scope : List (α × σ)) :
    nodesEvents depth scope ([] : List (Xml ν α σ)) = [] := by
  rw [nodesEvents]

@[simp] theorem nodesEvents_cons (depth : ℕ) (scope : List (α × σ)) (x : Xml ν α σ)
    (xs : List (Xml ν α σ)) :
    nodesEvents depth scope (x :: xs) = x.events depth scope ++ nodesEvents depth scope xs := by
  rw [nodesEvents]

/-- The events of an element that a writer made. -/
theorem Xml.events_written (depth : ℕ) (scope : List (α × σ)) (name : ν) (attrs : List (α × σ))
    {xs : List (Xml ν α σ)} (h : xs ≠ []) :
    (Xml.written name attrs xs).events depth scope =
      .start depth name attrs ⟨false, xs, scope⟩ ::
        (nodesEvents (depth + 1) (attrs ++ scope) xs ++ [.finish depth name]) := by
  cases xs with
  | nil => exact absurd rfl h
  | cons x xs => rw [Xml.written, Xml.events]

end XmlEvents
