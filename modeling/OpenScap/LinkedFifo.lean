import Mathlib.Data.Int.Notation
import Mathlib.Data.List.Basic
import Mathlib.Logic.Function.Basic

/-!
# First-in first-out queues and doubly linked chains

What a queue is for, said over the calls that were made and what they answered: a list of
calls with their answers is a history of a first-in first-out queue when replaying it on a
list of elements gives the same answers. An answer carries the number of elements that are
left, and −1 for a removal from the empty queue.

A doubly linked chain of cells in a memory holds such a list: every cell names its
neighbours, the first one has none before it and the last one none behind.

## Main results

* `fifoReplay_append` — histories compose;
* `puts_eq_gets_append` — what was put is what was obtained, in that order, followed by what
  is still queued;
* `DlistChain.last_cell` — the last cell of a chain has no cell behind it.
-/

/-- A call on a queue with its answer. -/
inductive FifoCall (α : Type*)
  /-- An element was put, and `count` elements were reported. -/
  | put (x : α) (count : ℤ)
  /-- An element or nothing was obtained, and `count` elements were reported. -/
  | get (x : Option α) (count : ℤ)
  deriving DecidableEq, Repr

variable {α : Type*}

/-- The element that a call put. -/
def FifoCall.putElement : FifoCall α → Option α
  | .put x _ => some x
  | .get _ _ => none

/-- The element that a call obtained. -/
def FifoCall.getElement : FifoCall α → Option α
  | .put _ _ => none
  | .get x _ => x

section Replay

variable [DecidableEq α]

/-- One call on the elements of a first-in first-out queue, when its answer is right. -/
def fifoStep : List α → FifoCall α → Option (List α)
  | xs, .put x count => if count = xs.length + 1 then some (xs ++ [x]) else none
  | [], .get x count => if x = none ∧ count = -1 then some [] else none
  | y :: ys, .get x count => if x = some y ∧ count = ys.length then some ys else none

/-- A history of calls, when all its answers are right. -/
def fifoReplay (xs : List α) (calls : List (FifoCall α)) : Option (List α) :=
  calls.foldlM fifoStep xs

@[simp] theorem fifoReplay_nil (xs : List α) : fifoReplay xs [] = some xs := rfl

/-- **Histories compose.** -/
theorem fifoReplay_append (xs : List α) (calls calls' : List (FifoCall α)) :
    fifoReplay xs (calls ++ calls') =
      (fifoReplay xs calls).bind fun ys => fifoReplay ys calls' := by
  rw [fifoReplay, List.foldlM_append]
  rfl

/-- A history with one more call. -/
theorem fifoReplay_concat {xs ys : List α} {calls : List (FifoCall α)}
    (h : fifoReplay xs calls = some ys) (call : FifoCall α) :
    fifoReplay xs (calls ++ [call]) = fifoStep ys call := by
  rw [fifoReplay_append, h, Option.bind_some, fifoReplay, List.foldlM_cons]
  cases fifoStep ys call <;> rfl

/-- One right call: what was queued and what it puts is what it obtains and what is queued
after it. -/
theorem fifoStep_elements {xs ys : List α} {call : FifoCall α}
    (h : fifoStep xs call = some ys) :
    xs ++ call.putElement.toList = call.getElement.toList ++ ys := by
  cases call with
  | put x count =>
      rw [fifoStep] at h
      split at h
      · obtain rfl : xs ++ [x] = ys := Option.some.inj h
        rfl
      · cases h
  | get x count =>
      cases xs with
      | nil =>
          rw [fifoStep] at h
          split at h
          · rename_i hanswer
            obtain rfl : [] = ys := Option.some.inj h
            rw [hanswer.1]
            rfl
          · cases h
      | cons y rest =>
          rw [fifoStep] at h
          split at h
          · rename_i hanswer
            obtain rfl : rest = ys := Option.some.inj h
            rw [hanswer.1]
            simp [FifoCall.putElement, FifoCall.getElement]
          · cases h

/-- **What was put is what was obtained, in that order, followed by what is still queued.** -/
theorem puts_eq_gets_append {xs ys : List α} {calls : List (FifoCall α)}
    (h : fifoReplay xs calls = some ys) :
    xs ++ calls.filterMap FifoCall.putElement =
      calls.filterMap FifoCall.getElement ++ ys := by
  induction calls generalizing xs with
  | nil =>
      obtain rfl : xs = ys := Option.some.inj h
      simp
  | cons call rest ih =>
      rw [fifoReplay, List.foldlM_cons] at h
      obtain ⟨zs, hstep, hrest⟩ := Option.bind_eq_some_iff.mp h
      have hhead := fifoStep_elements hstep
      have htail := ih hrest
      calc xs ++ (call :: rest).filterMap FifoCall.putElement
          = (xs ++ call.putElement.toList) ++ rest.filterMap FifoCall.putElement := by
            cases hput : call.putElement <;> simp [hput]
        _ = call.getElement.toList ++ (zs ++ rest.filterMap FifoCall.putElement) := by
            rw [hhead, List.append_assoc]
        _ = (call :: rest).filterMap FifoCall.getElement ++ ys := by
            rw [htail]
            cases hget : call.getElement <;> simp [hget]

end Replay

/-! ### Doubly linked chains -/

/-- A cell with its neighbours. -/
structure DlistCell (α : Type*) where
  next : Option ℕ
  prev : Option ℕ
  element : α
  deriving DecidableEq, Repr

/-- The chain that starts at `first`, behind the cell `prev`, holds the elements and ends at
`last`. -/
inductive DlistChain (cells : ℕ → Option (DlistCell α)) :
    Option ℕ → Option ℕ → List α → Option ℕ → Prop
  /-- No cell: the chain ends at the cell it stands behind. -/
  | nil (prev : Option ℕ) : DlistChain cells prev none [] prev
  /-- A cell and the chain behind it. -/
  | cons {prev next last : Option ℕ} {a : ℕ} {x : α} {xs : List α}
      (hcell : cells a = some ⟨next, prev, x⟩)
      (htail : DlistChain cells (some a) next xs last) :
      DlistChain cells prev (some a) (x :: xs) last

namespace DlistChain

variable {cells : ℕ → Option (DlistCell α)} {prev first last : Option ℕ} {xs : List α}

/-- A chain without elements has no first cell. -/
theorem eq_nil_iff (h : DlistChain cells prev first xs last) : xs = [] ↔ first = none := by
  cases h with
  | nil => simp
  | cons => simp

/-- A chain without elements ends where it starts. -/
theorem last_of_nil (h : DlistChain cells prev first [] last) : last = prev := by
  cases h
  rfl

/-- A cell behind which nothing stands is a chain. -/
theorem singleton {a : ℕ} {x : α} (h : cells a = some ⟨none, prev, x⟩) :
    DlistChain cells prev (some a) [x] (some a) :=
  .cons h (.nil (some a))

/-- **The last cell of a chain has no cell behind it.** -/
theorem last_cell (h : DlistChain cells prev first xs last) (hne : xs ≠ []) :
    ∃ a cell, last = some a ∧ cells a = some cell ∧ cell.next = none := by
  induction h with
  | nil => exact absurd rfl hne
  | cons hcell htail ih =>
      cases htail with
      | nil => exact ⟨_, _, rfl, hcell, rfl⟩
      | cons hcell' htail' => exact ih (by simp)

end DlistChain
