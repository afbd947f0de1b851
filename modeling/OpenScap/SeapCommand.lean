import OpenScap.RbtMap
import OpenScap.SeapPacket

/-!
# Tables of commands

The tables of a context and of its descriptors: what is called when a command arrives, and what
waits for the reply to a command. A table is a tree of 32-bit keys that is made at the first
entry. An entry is never replaced.

## Main results

* `seapCmdtblAdd_spec`, `seapCmdtblDel_spec`, `seapCmdtblGet_spec` — the table as a finite map;
* `execLookup_spec` — where a command is looked up, and in which order.
-/

namespace OpenScap.Seap

open Rbt

variable {H : Type}

/-! ### Tables -/

/-- `SEAP_cmdrec_t`. The handler is the function and its argument. -/
structure SeapCmdrec (H : Type) where
  code : UInt16
  handler : H

/-- `SEAP_cmdtbl_t`. -/
structure SeapCmdtbl (H : Type) where
  table : Option (RbtT (SeapCmdrec H))

/-- `SEAP_cmdtbl_new`. -/
def seapCmdtblNew : SeapCmdtbl H := ⟨none⟩

/-- The bounds of a code as an `int32_t`. -/
theorem codeKey_bounds (code : UInt16) :
    -2147483648 ≤ (code.toNat : ℤ) ∧ (code.toNat : ℤ) ≤ 2147483647 := by
  have := code.toNat_lt
  omega

/-- The key of a code. -/
def codeKey (code : UInt16) : I32 := ⟨code.toNat, codeKey_bounds code⟩

/-- `SEAP_cmdtbl_add`. -/
def seapCmdtblAdd (t : SeapCmdtbl H) (r : SeapCmdrec H) : Option (SeapCmdtbl H × ℤ) := do
  let (table, reply) ← rbtI32Add (t.table.getD rbtI32New) (codeKey r.code) r false
  return (⟨some table⟩, reply.ret)

/-- `SEAP_cmdtbl_del`, where the table is made. -/
def seapCmdtblDel (t : SeapCmdtbl H) (r : SeapCmdrec H) : Option (SeapCmdtbl H × ℤ) := do
  let table ← t.table
  let (table, reply) ← rbtI32Del table (codeKey r.code) true
  return (⟨some table⟩, if reply.ret ≠ 0 then -1 else 0)

/-- `SEAP_cmdtbl_get`, perhaps a null pointer. -/
def seapCmdtblGet (t : SeapCmdtbl H) (code : UInt16) : Option (Option (SeapCmdrec H)) :=
  match t.table with
  | none => some none
  | some table => (rbtI32Get table (codeKey code)).map Reply.out

/-! ### Looking up -/

/-- The loop over the tables of `SEAP_cmd_exec`. -/
def execLookup (code : UInt16) : List (SeapCmdtbl H) → Option (Option (SeapCmdrec H))
  | [] => some none
  | t :: tables => do
      match ← seapCmdtblGet t code with
      | some r => return some r
      | none => execLookup code tables

/-- `SEAP_EXEC_LONLY`. -/
def execLonly : UInt32 := 0x02

/-- `SEAP_EXEC_GFIRST`. -/
def execGfirst : UInt32 := 0x04

/-- The tables that `SEAP_cmd_exec` looks into for a local command, in order. -/
def execTables (flags : UInt32) (dsc ctx : SeapCmdtbl H) : List (SeapCmdtbl H) :=
  if flags &&& execLonly ≠ 0 then [dsc]
  else if flags &&& execGfirst ≠ 0 then [ctx, dsc]
  else [dsc, ctx]

/-! ### Tables as finite maps -/

/-- A table that stands for a finite map. -/
def TableStands (m : UInt16 → Option (SeapCmdrec H)) (t : SeapCmdtbl H) : Prop :=
  (t.table = none ∧ m = fun _ => none) ∨
    ∃ table tree keys, t.table = some table ∧ Stands keys table tree ∧ ∀ c, keys (codeKey c) = m c

variable {m : UInt16 → Option (SeapCmdrec H)} {t : SeapCmdtbl H}

theorem codeKey_injective : Function.Injective codeKey := by
  intro a b h
  have hval : (a.toNat : ℤ) = b.toNat := congrArg I32.val h
  exact UInt16.toNat.inj (by omega)

/-- The new table stands for the empty map. -/
theorem tableStands_new : TableStands (fun _ => none) (seapCmdtblNew : SeapCmdtbl H) :=
  .inl ⟨rfl, rfl⟩

/-- The tree of a table, made where there is none. -/
theorem TableStands.tree (h : TableStands m t) : ∃ tree keys,
    Stands keys (t.table.getD rbtI32New) tree ∧ ∀ c, keys (codeKey c) = m c := by
  obtain ⟨hnone, rfl⟩ | ⟨table, tree, keys, hsome, hstands, hkeys⟩ := h
  · rw [hnone]
    exact ⟨_, _, stands_new, fun _ => rfl⟩
  · rw [hsome]
    exact ⟨tree, keys, hstands, hkeys⟩

/-- The keys of the codes, after a change at one of them. -/
theorem update_codeKey {keys : I32 → Option (SeapCmdrec H)} (hkeys : ∀ c, keys (codeKey c) = m c)
    (code : UInt16) (r : Option (SeapCmdrec H)) (c : UInt16) :
    Function.update keys (codeKey code) r (codeKey c) = Function.update m code r c := by
  by_cases hc : c = code
  · subst hc
    rw [Function.update_self, Function.update_self]
  · rw [Function.update_of_ne hc, Function.update_of_ne fun h => hc (codeKey_injective h), hkeys]

/-- **An entry is added where there is none**, and 1 is returned where there is one. -/
theorem seapCmdtblAdd_spec (h : TableStands m t) (r : SeapCmdrec H) :
    ∃ t', TableStands (if (m r.code).isSome then m else Function.update m r.code (some r)) t' ∧
      seapCmdtblAdd t r = some (t', if (m r.code).isSome then 1 else 0) := by
  obtain ⟨tree, keys, hstands, hkeys⟩ := h.tree
  obtain ⟨table', tree', hadd, hstands'⟩ := hstands.add (codeKey r.code) r false
  refine ⟨⟨some table'⟩, .inr ⟨table', tree', _, rfl, hstands', ?_⟩, ?_⟩
  · intro c
    rw [mapStep, hkeys]
    cases m r.code with
    | none => exact update_codeKey hkeys _ _ _
    | some old => exact hkeys c
  · rw [seapCmdtblAdd, hadd, mapStep, hkeys]
    cases m r.code with
    | none => rfl
    | some old => rfl

/-- **An entry is deleted**, where there is one. -/
theorem seapCmdtblDel_spec (h : TableStands m t) {r : SeapCmdrec H} (hr : (m r.code).isSome) :
    ∃ t', TableStands (Function.update m r.code none) t' ∧ seapCmdtblDel t r = some (t', 0) := by
  obtain ⟨old, hold⟩ := Option.isSome_iff_exists.mp hr
  obtain ⟨-, rfl⟩ | ⟨table, tree, keys, hsome, hstands, hkeys⟩ := h
  · cases hold
  · obtain ⟨table', tree', hdel, hstands'⟩ := hstands.del (codeKey r.code) true
    rw [mapStep, hkeys, hold] at hdel hstands'
    refine ⟨⟨some table'⟩, .inr ⟨table', tree', _, rfl, hstands', update_codeKey hkeys _ _⟩, ?_⟩
    simp only [seapCmdtblDel, hsome, Option.bind_eq_bind, Option.bind_some, hdel]
    rfl

/-- **An entry is found.** -/
theorem seapCmdtblGet_spec (h : TableStands m t) (code : UInt16) :
    seapCmdtblGet t code = some (m code) := by
  obtain ⟨hnone, rfl⟩ | ⟨table, tree, keys, hsome, hstands, hkeys⟩ := h
  · rw [seapCmdtblGet, hnone]
  · have hget := (hstands.get (codeKey code)).1
    rw [mapStep, hkeys] at hget
    rw [seapCmdtblGet, hsome]
    change (rbtI32Get table (codeKey code)).map Reply.out = _
    rw [hget]
    cases m code with
    | none => rfl
    | some r => rfl

/-- **A command is looked up** in the tables one after another. -/
theorem execLookup_spec {tables : List (SeapCmdtbl H)}
    {ms : List (UInt16 → Option (SeapCmdrec H))} (h : List.Forall₂ TableStands ms tables)
    (code : UInt16) : execLookup code tables = some (ms.findSome? fun m => m code) := by
  induction h with
  | nil => rfl
  | @cons m t ms tables hstands _ ih =>
      rw [execLookup, seapCmdtblGet_spec hstands, List.findSome?_cons]
      cases m code with
      | none => exact ih
      | some r => rfl

end OpenScap.Seap
