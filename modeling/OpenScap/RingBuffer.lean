import Mathlib.Logic.Function.Basic
import Mathlib.Data.List.Basic

/-!
# Bounded rings with a begin index, an end index and a count

`RingHolds slots front back count capacity contents` says what a ring of `capacity` slots
holds: `contents` stands in the `count` slots from `front` on, wrapping from the last slot to
slot zero, and `back` is the slot behind them. The redundant indices are the price of telling a
full ring from an empty one without counting.

## Main results

* `RingHolds.push` — writing at `back` and advancing it appends to the contents.
* `RingHolds.pop` — the slot at `front` is the head of the contents, and advancing `front`
  leaves their tail.
* `RingHolds.back_eq_front_iff` — the indices meet exactly when the ring is empty or full.
-/

variable {α : Type*}

/-- The slot `k` places behind `front`. -/
def ringIndex (front k capacity : ℕ) : ℕ :=
  if front + k < capacity then front + k else front + k - capacity

/-- The slot behind slot `i`. -/
def ringNext (i capacity : ℕ) : ℕ := if i + 1 = capacity then 0 else i + 1

/-- The ring holds `contents`. -/
structure RingHolds (slots : ℕ → α) (front back count capacity : ℕ) (contents : List α) :
    Prop where
  /-- The begin index is a slot. -/
  front_lt : front < capacity
  /-- The count is the number of elements. -/
  length_eq : contents.length = count
  /-- There are no more elements than slots. -/
  count_le : count ≤ capacity
  /-- The end index is the slot behind the last element. -/
  back_eq : back = ringIndex front count capacity
  /-- Every element stands in its slot. -/
  slot_eq : ∀ k < count, contents[k]? = some (slots (ringIndex front k capacity))

namespace RingHolds

variable {slots : ℕ → α} {front back count capacity : ℕ} {contents : List α} {x : α}

/-- The empty ring. -/
theorem empty (slots : ℕ → α) (h : 0 < capacity) : RingHolds slots 0 0 0 capacity [] where
  front_lt := h
  length_eq := rfl
  count_le := Nat.zero_le capacity
  back_eq := by rw [ringIndex, if_pos (by omega)]
  slot_eq k hk := absurd hk (Nat.not_lt_zero k)

/-- The end index is a slot. -/
theorem back_lt (h : RingHolds slots front back count capacity contents) : back < capacity := by
  have hfront := h.front_lt
  have hcount := h.count_le
  rw [h.back_eq, ringIndex]
  split <;> omega

/-- Different places of a ring are different slots. -/
theorem ringIndex_ne (front : ℕ) {j k : ℕ} (hjk : j < k) (hk : k < capacity) :
    ringIndex front j capacity ≠ ringIndex front k capacity := by
  rw [ringIndex, ringIndex]
  split <;> split <;> omega

/-- **Writing at the end index appends.** -/
theorem push (h : RingHolds slots front back count capacity contents) (hroom : count < capacity) :
    RingHolds (Function.update slots back x) front (ringNext back capacity) (count + 1) capacity
      (contents ++ [x]) where
  front_lt := h.front_lt
  length_eq := by rw [List.length_append, h.length_eq, List.length_singleton]
  count_le := hroom
  back_eq := by
    have hfront := h.front_lt
    rw [h.back_eq, ringNext, ringIndex, ringIndex]
    split <;> split <;> split <;> omega
  slot_eq k hk := by
    rcases Nat.lt_succ_iff_lt_or_eq.mp hk with hlt | rfl
    · -- the slot written is not one of those in use
      have hne := ringIndex_ne front hlt hroom
      rw [List.getElem?_append_left (by rw [h.length_eq]; exact hlt), h.slot_eq k hlt,
        Function.update_of_ne (by rw [h.back_eq]; exact hne)]
    · rw [← h.back_eq, Function.update_self, ← h.length_eq, List.getElem?_concat_length]

/-- **The slot at the begin index is the oldest element.** -/
theorem head (h : RingHolds slots front back count capacity (x :: contents)) :
    slots front = x := by
  have hcount : 0 < count := by
    rw [← h.length_eq]
    exact Nat.succ_pos _
  have hslot := h.slot_eq 0 hcount
  rw [ringIndex, if_pos (by have := h.front_lt; omega), List.getElem?_cons_zero] at hslot
  exact (Option.some.inj hslot).symm

/-- **Advancing the begin index takes the oldest element away.** -/
theorem pop (h : RingHolds slots front back count capacity (x :: contents)) :
    RingHolds slots (ringNext front capacity) back (count - 1) capacity contents := by
  have hfront := h.front_lt
  have hle := h.count_le
  have hlen := h.length_eq
  rw [List.length_cons] at hlen
  have hindex : ∀ k < count, ringIndex (ringNext front capacity) k capacity =
      ringIndex front (k + 1) capacity := by
    intro k hk
    rw [ringNext, ringIndex, ringIndex]
    split <;> split <;> split <;> omega
  refine ⟨?_, by omega, by omega, ?_, fun k hk => ?_⟩
  · rw [ringNext]
    split <;> omega
  · rw [h.back_eq, hindex (count - 1) (by omega), Nat.sub_add_cancel (by omega)]
  · rw [hindex k (by omega), ← h.slot_eq (k + 1) (by omega), List.getElem?_cons_succ]

/-- **The indices meet exactly when the ring is empty or full.** -/
theorem back_eq_front_iff (h : RingHolds slots front back count capacity contents) :
    back = front ↔ count = 0 ∨ count = capacity := by
  have hfront := h.front_lt
  have hle := h.count_le
  rw [h.back_eq, ringIndex]
  split <;> omega

end RingHolds
