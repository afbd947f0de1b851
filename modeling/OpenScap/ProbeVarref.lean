import Mathlib.Data.List.Nodup
import Mathlib.Data.List.Range
import Mathlib.Data.Nat.Notation
import Mathlib.Tactic.SplitIfs
import OpenScap.Odometer
import OpenScap.Sexp

/-!
# Combinations of variable values in a probe

An entity of an object may refer to a variable that has several values. The probe gets a list of
values for every such entity, and evaluates the object once for every combination: the worker
keeps the index of a value in the name of each entity (`:val_idx`), and
`probe_varref_iterate_ctx` goes on to the next combination, the index of the first entity first.

The names of the entities are lists that nothing else refers to, so that a soft reference to one
is its place in the object.

## Main results

* `iterateLoop_spec` — a call turns the odometer whose wheels are the counters;
* `visits_eq` — the loop of the worker goes through the combinations that are ahead;
* `varref_iteration` — from a new context it goes through all of them, each once.
-/

open Odometer

namespace OpenScap.Varref

/-! ### Lists of S-expressions -/

/-- `SEXP_list_nth`; positions are counted from 1. -/
def sexpListNth : Sexp → ℕ → Option Sexp
  | .list xs, n + 1 => xs[n]?
  | _, _ => none

/-- What `SEXP_list_replace` leaves of the list; positions are counted from 1. Behind the end
nothing is replaced. -/
def sexpListReplace : Sexp → ℕ → Sexp → Sexp
  | .list xs, n + 1, nVal => .list (xs.set n nVal)
  | x, _, _ => x

/-- `SEXP_number_newu`. -/
def sexpNumberNewu (n : UInt32) : Sexp := .number (.uint32 n)

/-- `SEXP_number_getu_32`, whose `errno` is not looked at. -/
def sexpNumberGetu32 : Option Sexp → Outcome UInt32
  | none => .ok 0xffffffff
  | some x => (x.getu32 .other).bind fun n => .ok n.1

/-- `attr_name` is a colon and the name. -/
def isAttr (name : List UInt8) : List UInt8 → Bool
  | c :: rest => c = ascii ':' && rest.takeWhile (· ≠ 0) = name
  | [] => false

/-- The loop of `probe_ent_getattrval` over the attributes of an entity, with what the buffer
`attr_name` has. A string that is too long for the buffer is not copied, and what the buffer has
is compared again. -/
def probeEntGetattrval (name : List UInt8) :
    Option (List UInt8) → List Sexp → Outcome (Option Sexp)
  | _, [] => .ok none
  | attrName, .string s :: attrs =>
      if 32 < s.length then
        match attrName with
        | none => .undefined
        | some kept =>
            if isAttr name kept then .ok attrs.head?
            else probeEntGetattrval name (some kept) attrs
      else if 2 < s.length ∧ isAttr name s then .ok attrs.head?
      else probeEntGetattrval name (some s) attrs
  | attrName, _ :: attrs => probeEntGetattrval name attrName attrs

/-- The attribute that is looked for. -/
theorem probeEntGetattrval_of_isAttr {name s : List UInt8} (hlen : 2 < s.length ∧ s.length ≤ 32)
    (h : isAttr name s = true) (attrName : Option (List UInt8)) (attrs : List Sexp) :
    probeEntGetattrval name attrName (.string s :: attrs) = .ok attrs.head? := by
  rw [probeEntGetattrval.eq_def]
  simp only
  rw [if_neg (by omega), if_pos ⟨hlen.1, h⟩]

/-- Another attribute. -/
theorem probeEntGetattrval_of_not_isAttr {name s : List UInt8} (hlen : s.length ≤ 32)
    (h : isAttr name s = false) (attrName : Option (List UInt8)) (attrs : List Sexp) :
    probeEntGetattrval name attrName (.string s :: attrs) =
      probeEntGetattrval name (some s) attrs := by
  rw [probeEntGetattrval.eq_def]
  simp only
  rw [if_neg (by omega), if_neg (by simp [h])]

/-! ### The context -/

/-- `struct probe_varref_ctx_ent`. The soft reference to the name of the entity is the place of
the entity in the object. -/
structure VarrefCtxEnt where
  entNameSref : ℕ
  valCnt : UInt32
  nextValIdx : UInt32

/-- `struct probe_varref_ctx`. -/
structure VarrefCtx where
  pi2 : Sexp
  entLst : List VarrefCtxEnt

/-- The loop over `varrefs` for the variable with an id. -/
def findVarref (vid : Option Sexp) : List Sexp → Outcome Sexp
  | [] => .error (-1)
  | varref :: varrefs =>
      match vid with
      | none => .error (-1)
      | some vid =>
          match vid.cstr, (sexpListNth varref 1).bind Sexp.cstr with
          | some a, some b => if a = b then .ok varref else findVarref (some vid) varrefs
          | _, _ => .undefined

/-- `:val_idx`. -/
def vidxName : Sexp := .string (bytes [':', 'v', 'a', 'l', '_', 'i', 'd', 'x'])

/-- The loop body of `probe_varref_create_ctx`. It is not said what becomes of an entity whose
name is no list. -/
def createEnt (varrefs : List Sexp) (pi2 : Sexp) (i : ℕ) : Outcome (Sexp × VarrefCtxEnt) :=
  match sexpListNth pi2 (i + 2) with
  | some (.list (.list (name :: attrs) :: _)) =>
      (probeEntGetattrval (bytes ['v', 'a', 'r', '_', 'r', 'e', 'f']) none attrs).bind fun vid =>
      (findVarref vid (varrefs.drop 3)).bind fun varref =>
      (sexpNumberGetu32 (sexpListNth varref 2)).bind fun valCnt =>
        let entName := .list (name :: vidxName :: sexpNumberNewu 0 :: attrs)
        let ent := .list (entName :: (sexpListNth varref 3).toList)
        .ok (sexpListReplace pi2 (i + 2) ent, ⟨i + 2, valCnt, 0⟩)
  | _ => .undefined

/-- The loop of `probe_varref_create_ctx`, with the number of turns that are left. -/
def createLoop (varrefs : List Sexp) : ℕ → ℕ → Sexp → Outcome (Sexp × List VarrefCtxEnt)
  | 0, _, pi2 => .ok (pi2, [])
  | left + 1, i, pi2 =>
      (createEnt varrefs pi2 i).bind fun (pi2, ent) =>
      (createLoop varrefs left (i + 1) pi2).bind fun (pi2, entLst) => .ok (pi2, ent :: entLst)

/-- `probe_varref_create_ctx`. -/
def probeVarrefCreateCtx (probeIn varrefs : Sexp) : Outcome VarrefCtx :=
  match varrefs with
  | .list xs =>
      (sexpNumberGetu32 xs[2]?).bind fun entCnt =>
      (createLoop xs entCnt.toNat 0 probeIn).bind fun (pi2, entLst) => .ok ⟨pi2, entLst⟩
  | _ => .undefined

/-! ### The iteration -/

/-- `SEXP_list_replace` of the third member of the name of an entity, which is in the object. -/
def setValIdx (pi2 : Sexp) (entNameSref : ℕ) (n : UInt32) : Sexp :=
  match sexpListNth pi2 entNameSref with
  | some (.list (entName :: ent)) =>
      sexpListReplace pi2 entNameSref (.list (sexpListReplace entName 3 (sexpNumberNewu n) :: ent))
  | _ => pi2

/-- The loop of `probe_varref_iterate_ctx`, from an entity on: the value that is returned, the
object and the entities. It has no result where an entity is read behind the last one. -/
def iterateLoop (pi2 : Sexp) : List VarrefCtxEnt → Option (Bool × Sexp × List VarrefCtxEnt)
  | [] => none
  | ent :: entLst =>
      let nextValIdx := ent.nextValIdx + 1
      if nextValIdx ≥ ent.valCnt then
        match entLst with
        | [] => some (false, pi2, [{ ent with nextValIdx }])
        | _ :: _ => do
            let (ret, pi2, entLst) ← iterateLoop (setValIdx pi2 ent.entNameSref 0) entLst
            some (ret, pi2, { ent with nextValIdx := 0 } :: entLst)
      else some (true, setValIdx pi2 ent.entNameSref nextValIdx, { ent with nextValIdx } :: entLst)

/-- `probe_varref_iterate_ctx`. -/
def probeVarrefIterateCtx (ctx : VarrefCtx) : Option (Bool × VarrefCtx) := do
  let (ret, pi2, entLst) ← iterateLoop ctx.pi2 ctx.entLst
  some (ret, ⟨pi2, entLst⟩)

/-- The index that a probe finds in an entity: `probe_ent_getattrval` of `val_idx`. -/
def valIdx (pi2 : Sexp) (i : ℕ) : Option ℕ :=
  match sexpListNth pi2 i with
  | some (.list (.list (_ :: attrs) :: _)) =>
      match probeEntGetattrval (bytes ['v', 'a', 'l', '_', 'i', 'd', 'x']) none attrs with
      | .ok (some (.number (.uint32 n))) => some n.toNat
      | _ => none
  | _ => none

/-- The combination that `probe_main` is called with. -/
def VarrefCtx.combination (ctx : VarrefCtx) : Option (List ℕ) :=
  ctx.entLst.mapM fun ent => valIdx ctx.pi2 ent.entNameSref

/-- The loop of `probe_worker` while `probe_main` succeeds: the combinations that it is called
with, if the end is reported within so many calls of `probe_varref_iterate_ctx`. -/
def visits : ℕ → VarrefCtx → Option (List (List ℕ))
  | 0, _ => none
  | calls + 1, ctx => do
      let seen ← ctx.combination
      let (more, ctx) ← probeVarrefIterateCtx ctx
      if more then (visits calls ctx).map (seen :: ·) else some [seen]

/-- The numbers of values. -/
def VarrefCtx.sizes (ctx : VarrefCtx) : List ℕ := ctx.entLst.map fun ent => ent.valCnt.toNat

/-! ### The indices in the object -/

/-- An entity of the object has an index. -/
def HasIdx (pi2 : Sexp) (i : ℕ) (n : UInt32) : Prop :=
  ∃ name attrs rest, sexpListNth pi2 i =
    some (.list (.list (name :: vidxName :: sexpNumberNewu n :: attrs) :: rest))

/-- The probe finds the index. -/
theorem HasIdx.valIdx_eq {pi2 : Sexp} {i : ℕ} {n : UInt32} (h : HasIdx pi2 i n) :
    valIdx pi2 i = some n.toNat := by
  obtain ⟨name, attrs, rest, hnth⟩ := h
  have hattr : isAttr (bytes ['v', 'a', 'l', '_', 'i', 'd', 'x'])
      (bytes [':', 'v', 'a', 'l', '_', 'i', 'd', 'x']) = true := by decide
  rw [valIdx, hnth]
  simp only [vidxName, probeEntGetattrval_of_isAttr (by decide) hattr]
  rfl

/-- Another place of a list. -/
theorem sexpListNth_replace_ne (x : Sexp) {i j : ℕ} (h : j ≠ i) (nVal : Sexp) :
    sexpListNth (sexpListReplace x i nVal) j = sexpListNth x j := by
  cases x with
  | list xs =>
      cases i with
      | zero => rfl
      | succ i =>
          cases j with
          | zero => rfl
          | succ j => exact List.getElem?_set_ne (by omega)
  | _ => cases i <;> rfl

/-- The place that is replaced. -/
theorem sexpListNth_replace_self {x y : Sexp} {i : ℕ} (h : sexpListNth x i = some y)
    (nVal : Sexp) : sexpListNth (sexpListReplace x i nVal) i = some nVal := by
  cases x with
  | list xs =>
      cases i with
      | zero => exact nomatch h
      | succ i => exact List.getElem?_set_self (List.getElem?_eq_some_iff.mp h).1
  | _ => exact nomatch h

/-- The index that is set. -/
theorem HasIdx.setValIdx {pi2 : Sexp} {i : ℕ} {n : UInt32} (h : HasIdx pi2 i n) (m : UInt32) :
    HasIdx (setValIdx pi2 i m) i m := by
  obtain ⟨name, attrs, rest, hnth⟩ := h
  refine ⟨name, attrs, rest, ?_⟩
  rw [Varref.setValIdx, hnth]
  exact sexpListNth_replace_self hnth _

/-- The index of another entity. -/
theorem HasIdx.setValIdx_ne {pi2 : Sexp} {i j : ℕ} {n : UInt32} (h : HasIdx pi2 j n) (hne : j ≠ i)
    (m : UInt32) : HasIdx (Varref.setValIdx pi2 i m) j n := by
  obtain ⟨name, attrs, rest, hnth⟩ := h
  refine ⟨name, attrs, rest, ?_⟩
  unfold Varref.setValIdx
  split
  · rw [sexpListNth_replace_ne _ hne, hnth]
  · exact hnth

/-! ### Counters as wheels -/

/-- The wheel of a counter. -/
def VarrefCtxEnt.wheel (ent : VarrefCtxEnt) : Wheel ℕ :=
  ⟨List.range ent.valCnt.toNat, ent.nextValIdx.toNat,
    List.range' (ent.nextValIdx.toNat + 1) (ent.valCnt.toNat - (ent.nextValIdx.toNat + 1))⟩

/-- The entities count below their numbers of values, each at a place of its own where the
object has its index. -/
structure Counting (pi2 : Sexp) (entLst : List VarrefCtxEnt) : Prop where
  lt : ∀ ent ∈ entLst, ent.nextValIdx < ent.valCnt
  idx : ∀ ent ∈ entLst, HasIdx pi2 ent.entNameSref ent.nextValIdx
  nodup : (entLst.map VarrefCtxEnt.entNameSref).Nodup

theorem toNat_succ {ent : VarrefCtxEnt} (h : ent.nextValIdx < ent.valCnt) :
    (ent.nextValIdx + 1).toNat = ent.nextValIdx.toNat + 1 := by
  have hlt := UInt32.lt_iff_toNat_lt.mp h
  have hmax := ent.valCnt.toNat_lt
  rw [UInt32.toNat_add]
  exact Nat.mod_eq_of_lt (by simp; omega)

theorem Counting.values_ne {pi2 : Sexp} {entLst : List VarrefCtxEnt} (h : Counting pi2 entLst) :
    ∀ w ∈ entLst.map VarrefCtxEnt.wheel, w.values ≠ [] := by
  intro w hw
  obtain ⟨ent, hent, rfl⟩ := List.mem_map.mp hw
  have hlt := UInt32.lt_iff_toNat_lt.mp (h.lt ent hent)
  rw [VarrefCtxEnt.wheel, ne_eq, List.range_eq_nil]
  omega

/-- The combination in the object is the one that the wheels are at. -/
theorem Counting.combination_eq {ctx : VarrefCtx} (h : Counting ctx.pi2 ctx.entLst) :
    ctx.combination = some (choice (ctx.entLst.map VarrefCtxEnt.wheel)) := by
  have hidx := fun ent hent => (h.idx ent hent).valIdx_eq
  rw [VarrefCtx.combination, choice, List.map_map]
  generalize ctx.entLst = entLst at hidx
  induction entLst with
  | nil => rfl
  | cons ent entLst ih =>
      obtain ⟨hent, hrest⟩ := List.forall_mem_cons.mp hidx
      rw [List.mapM_cons, hent, ih hrest]
      rfl

/-- The values of a counter begin with 0. -/
theorem range_eq_cons {n : ℕ} (h : 0 < n) : List.range n = 0 :: List.range' 1 (n - 1) := by
  obtain ⟨n, rfl⟩ := Nat.exists_eq_succ_of_ne_zero h.ne'
  rw [List.range_eq_range', List.range'_succ]
  rfl

/-- A counter back at 0. -/
theorem wheel_reset {ent : VarrefCtxEnt} (h : 0 < ent.valCnt.toNat) :
    ent.wheel.reset = VarrefCtxEnt.wheel { ent with nextValIdx := 0 } := by
  have hzero : (0 : UInt32).toNat = 0 := rfl
  simp only [Wheel.reset, VarrefCtxEnt.wheel, range_eq_cons h, hzero]

/-- A counter at its last value. -/
theorem wheel_rest_eq_nil {ent : VarrefCtxEnt}
    (h : ent.valCnt.toNat = ent.nextValIdx.toNat + 1) : ent.wheel.rest = [] := by
  rw [VarrefCtxEnt.wheel, h, Nat.sub_self]
  rfl

/-- A counter with values ahead. -/
theorem wheel_rest_eq_cons {ent : VarrefCtxEnt}
    (h : ent.nextValIdx.toNat + 1 < ent.valCnt.toNat) :
    ent.wheel.rest = (ent.nextValIdx.toNat + 1) :: List.range' (ent.nextValIdx.toNat + 2)
      (ent.valCnt.toNat - (ent.nextValIdx.toNat + 2)) := by
  rw [VarrefCtxEnt.wheel, show ent.valCnt.toNat - (ent.nextValIdx.toNat + 1) =
    (ent.valCnt.toNat - (ent.nextValIdx.toNat + 2)) + 1 by omega, List.range'_succ]

/-- Another index of an entity leaves the others as they are. -/
theorem Counting.setValIdx {pi2 : Sexp} {entLst : List VarrefCtxEnt} (h : Counting pi2 entLst)
    {i : ℕ} (hi : i ∉ entLst.map VarrefCtxEnt.entNameSref) (n : UInt32) :
    Counting (setValIdx pi2 i n) entLst where
  lt := h.lt
  idx ent hent := (h.idx ent hent).setValIdx_ne
    (fun heq => hi (List.mem_map.mpr ⟨ent, hent, heq⟩)) n
  nodup := h.nodup

/-- **A call turns the odometer**, or reports the end when no combination is ahead. -/
theorem iterateLoop_spec {pi2 : Sexp} {entLst : List VarrefCtxEnt} (h : Counting pi2 entLst)
    (hne : entLst ≠ []) :
    ((ahead (entLst.map VarrefCtxEnt.wheel)).tail = [] →
      ∃ pi2' entLst', iterateLoop pi2 entLst = some (false, pi2', entLst')) ∧
    ((ahead (entLst.map VarrefCtxEnt.wheel)).tail ≠ [] →
      ∃ pi2' entLst', iterateLoop pi2 entLst = some (true, pi2', entLst') ∧
        Counting pi2' entLst' ∧
        entLst'.map VarrefCtxEnt.wheel = rotate (entLst.map VarrefCtxEnt.wheel) ∧
        entLst'.map VarrefCtxEnt.entNameSref = entLst.map VarrefCtxEnt.entNameSref ∧
        ∀ i ∉ entLst.map VarrefCtxEnt.entNameSref, ∀ n, HasIdx pi2 i n → HasIdx pi2' i n) := by
  induction entLst generalizing pi2 with
  | nil => exact absurd rfl hne
  | cons ent entLst ih =>
      obtain ⟨hlt, hlts⟩ := List.forall_mem_cons.mp h.lt
      obtain ⟨hidx, hidxs⟩ := List.forall_mem_cons.mp h.idx
      obtain ⟨hplace, hnodup⟩ := List.nodup_cons.mp h.nodup
      have hothers : Counting pi2 entLst := ⟨hlts, hidxs, hnodup⟩
      have hsucc := toNat_succ hlt
      have hltNat := UInt32.lt_iff_toNat_lt.mp hlt
      rw [List.map_cons]
      by_cases hlast : ent.valCnt ≤ ent.nextValIdx + 1
      · -- the counter is at its last value, and takes the next one with it
        have hrest := @wheel_rest_eq_nil ent (by
          have := UInt32.le_iff_toNat_le.mp hlast
          omega)
        have hvalues : ent.wheel.values ≠ [] :=
          h.values_ne _ (List.mem_map_of_mem List.mem_cons_self)
        rw [ne_eq, tail_ahead_eq_nil_iff hvalues hrest]
        cases entLst with
        | nil =>
            refine ⟨fun _ => ⟨pi2, [{ ent with nextValIdx := ent.nextValIdx + 1 }], ?_⟩,
              fun hnot => absurd (by rfl) hnot⟩
            rw [iterateLoop, if_pos hlast]
        | cons ent' entLst =>
            obtain ⟨hend, hmore⟩ := ih (hothers.setValIdx hplace 0) (List.cons_ne_nil _ _)
            have hloop : iterateLoop pi2 (ent :: ent' :: entLst) =
                (iterateLoop (setValIdx pi2 ent.entNameSref 0) (ent' :: entLst)).map
                  fun r => (r.1, r.2.1, { ent with nextValIdx := 0 } :: r.2.2) := by
              rw [iterateLoop]
              simp only
              rw [if_pos hlast]
              cases iterateLoop (setValIdx pi2 ent.entNameSref 0) (ent' :: entLst) <;> rfl
            refine ⟨fun hnil => ?_, fun hne => ?_⟩
            · obtain ⟨pi2', entLst', hret⟩ := hend hnil
              exact ⟨pi2', _, by rw [hloop, hret]; rfl⟩
            · obtain ⟨pi2', entLst', hret, hcounting, hwheels, hplaces, hframe⟩ := hmore hne
              refine ⟨pi2', { ent with nextValIdx := 0 } :: entLst', by rw [hloop, hret]; rfl,
                ⟨?_, ?_, ?_⟩, ?_, ?_, ?_⟩
              · refine List.forall_mem_cons.mpr ⟨UInt32.lt_iff_toNat_lt.mpr ?_, hcounting.lt⟩
                exact Nat.zero_lt_of_lt hltNat
              · exact List.forall_mem_cons.mpr
                  ⟨hframe _ hplace 0 (hidx.setValIdx 0), hcounting.idx⟩
              · rw [List.map_cons, hplaces]
                exact h.nodup
              · rw [List.map_cons, hwheels, rotate, hrest,
                  wheel_reset (Nat.zero_lt_of_lt hltNat)]
              · rw [List.map_cons, hplaces]
                rfl
              · intro i hi n hn
                rw [List.map_cons, List.mem_cons, not_or] at hi
                exact hframe i hi.2 n (hn.setValIdx_ne hi.1 0)
      · -- the counter has a value ahead
        have hrest := @wheel_rest_eq_cons ent (by
          have := UInt32.lt_iff_toNat_lt.mp (UInt32.not_le.mp hlast)
          omega)
        refine ⟨fun hnil => ?_, fun _ => ⟨setValIdx pi2 ent.entNameSref (ent.nextValIdx + 1),
          { ent with nextValIdx := ent.nextValIdx + 1 } :: entLst, ?_, ⟨?_, ?_, ?_⟩, ?_, ?_, ?_⟩⟩
        · rw [ahead, hrest] at hnil
          cases hnil
        · rw [iterateLoop.eq_def]
          simp only
          rw [if_neg hlast]
        · exact List.forall_mem_cons.mpr ⟨UInt32.not_le.mp hlast, hlts⟩
        · exact List.forall_mem_cons.mpr
            ⟨hidx.setValIdx _, (hothers.setValIdx hplace _).idx⟩
        · exact h.nodup
        · rw [List.map_cons, rotate, hrest]
          simp only [VarrefCtxEnt.wheel, hsucc]
        · rfl
        · intro i hi n hn
          rw [List.map_cons, List.mem_cons, not_or] at hi
          exact hn.setValIdx_ne hi.1 _

/-- **The loop of the worker goes through the combinations that are ahead**, and calls
`probe_varref_iterate_ctx` once for each. -/
theorem visits_eq (calls : ℕ) {ctx : VarrefCtx} (h : Counting ctx.pi2 ctx.entLst)
    (hne : ctx.entLst ≠ []) : visits calls ctx =
      if (ahead (ctx.entLst.map VarrefCtxEnt.wheel)).length ≤ calls
      then some (ahead (ctx.entLst.map VarrefCtxEnt.wheel)) else none := by
  induction calls generalizing ctx with
  | zero =>
      rw [ahead_eq_cons]
      rfl
  | succ calls ih =>
      obtain ⟨hend, hmore⟩ := iterateLoop_spec h hne
      rw [visits, h.combination_eq, probeVarrefIterateCtx]
      simp only [Option.bind_eq_bind, Option.bind_some]
      by_cases htail : (ahead (ctx.entLst.map VarrefCtxEnt.wheel)).tail = []
      · obtain ⟨pi2', entLst', hret⟩ := hend htail
        rw [hret, ahead_eq_cons, htail]
        simp
      · obtain ⟨pi2', entLst', hret, hcounting, hwheels, -, -⟩ := hmore htail
        have hne' : entLst' ≠ [] := by
          intro hnil
          rw [hnil] at hwheels
          exact rotate_ne_nil (by simpa using hne) hwheels.symm
        have hahead := ahead_rotate h.values_ne htail
        rw [← hwheels] at hahead
        rw [hret]
        simp only [Option.bind_some, if_true]
        have hcons := ahead_eq_cons (ctx.entLst.map VarrefCtxEnt.wheel)
        have hlength := congrArg List.length hcons
        rw [List.length_cons] at hlength
        rw [ih hcounting hne', hahead]
        by_cases hle : (ahead (ctx.entLst.map VarrefCtxEnt.wheel)).tail.length ≤ calls
        · rw [if_pos hle, if_pos (by omega)]
          exact congrArg some hcons.symm
        · rw [if_neg hle, if_neg (by omega)]
          rfl

/-! ### New contexts -/

/-- An entity that is set up begins at index 0, and the others stay. -/
theorem createEnt_spec {varrefs : List Sexp} {pi2 pi2' : Sexp} {i : ℕ} {ent : VarrefCtxEnt}
    (h : createEnt varrefs pi2 i = .ok (pi2', ent)) :
    ent.entNameSref = i + 2 ∧ ent.nextValIdx = 0 ∧ HasIdx pi2' (i + 2) 0 ∧
      ∀ j ≠ i + 2, ∀ n, HasIdx pi2 j n → HasIdx pi2' j n := by
  unfold createEnt at h
  split at h
  case h_1 name attrs rest hnth =>
    obtain ⟨vid, -, h⟩ := Outcome.bind_eq_ok h
    obtain ⟨varref, -, h⟩ := Outcome.bind_eq_ok h
    obtain ⟨valCnt, -, h⟩ := Outcome.bind_eq_ok h
    obtain ⟨rfl, rfl⟩ := Prod.mk.inj (Outcome.ok.inj h)
    refine ⟨rfl, rfl, ⟨name, attrs, _, sexpListNth_replace_self hnth _⟩, ?_⟩
    rintro j hj n ⟨name', attrs', rest', hnth'⟩
    exact ⟨name', attrs', rest', (sexpListNth_replace_ne _ hj _).trans hnth'⟩
  case h_2 => exact nomatch h

/-- The entities that are set up one after another. -/
theorem createLoop_spec {varrefs : List Sexp} {left i : ℕ} {pi2 pi2' : Sexp}
    {entLst : List VarrefCtxEnt} (h : createLoop varrefs left i pi2 = .ok (pi2', entLst)) :
    entLst.map VarrefCtxEnt.entNameSref = List.range' (i + 2) left ∧
      (∀ ent ∈ entLst, ent.nextValIdx = 0 ∧ HasIdx pi2' ent.entNameSref 0) ∧
      ∀ j < i + 2, ∀ n, HasIdx pi2 j n → HasIdx pi2' j n := by
  induction left generalizing i pi2 entLst with
  | zero =>
      obtain ⟨rfl, rfl⟩ := Prod.mk.inj (Outcome.ok.inj h)
      exact ⟨rfl, (fun ent hent => nomatch hent), fun _ _ _ hn => hn⟩
  | succ left ih =>
      rw [createLoop] at h
      obtain ⟨⟨pi2₁, ent⟩, hent, h⟩ := Outcome.bind_eq_ok h
      obtain ⟨⟨pi2₂, ents⟩, hents, h⟩ := Outcome.bind_eq_ok h
      obtain ⟨rfl, rfl⟩ := Prod.mk.inj (Outcome.ok.inj h)
      obtain ⟨hplace, hzero, hidx, hframe⟩ := createEnt_spec hent
      obtain ⟨hplaces, hinit, hframes⟩ := ih hents
      refine ⟨?_, List.forall_mem_cons.mpr ⟨⟨hzero, ?_⟩, hinit⟩, fun j hj n hn => ?_⟩
      · rw [List.map_cons, hplace, hplaces, List.range'_succ]
      · rw [hplace]
        exact hframes _ (by omega) 0 hidx
      · exact hframes j (by omega) n (hframe j (by omega) n hn)

/-- A new context counts from 0 on. -/
theorem counting_of_create {probeIn varrefs : Sexp} {ctx : VarrefCtx}
    (h : probeVarrefCreateCtx probeIn varrefs = .ok ctx)
    (hpos : ∀ ent ∈ ctx.entLst, 0 < ent.valCnt) :
    Counting ctx.pi2 ctx.entLst ∧ ∀ ent ∈ ctx.entLst, ent.nextValIdx = 0 := by
  cases varrefs with
  | list xs =>
      rw [probeVarrefCreateCtx] at h
      obtain ⟨entCnt, -, h⟩ := Outcome.bind_eq_ok h
      obtain ⟨⟨pi2, entLst⟩, hloop, h⟩ := Outcome.bind_eq_ok h
      obtain rfl := Outcome.ok.inj h
      obtain ⟨hplaces, hinit, -⟩ := createLoop_spec hloop
      refine ⟨⟨fun ent hent => ?_, fun ent hent => ?_, ?_⟩, fun ent hent => (hinit ent hent).1⟩
      · rw [(hinit ent hent).1]
        exact hpos ent hent
      · rw [(hinit ent hent).1]
        exact (hinit ent hent).2
      · rw [hplaces]
        exact List.nodup_range'
  | _ => exact nomatch h

/-- All combinations are ahead of counters at 0. -/
theorem ahead_eq_sections {entLst : List VarrefCtxEnt} (hzero : ∀ ent ∈ entLst, ent.nextValIdx = 0)
    (hpos : ∀ ent ∈ entLst, 0 < ent.valCnt) : ahead (entLst.map VarrefCtxEnt.wheel) =
      (entLst.map fun ent => List.range ent.valCnt.toNat).sections := by
  have hrange : ∀ ent ∈ entLst, start (List.range ent.valCnt.toNat) = some ent.wheel := by
    intro ent hent
    have hlt := UInt32.lt_iff_toNat_lt.mp (hpos ent hent)
    rw [VarrefCtxEnt.wheel, hzero ent hent, range_eq_cons hlt]
    rfl
  have hwheels : (entLst.map fun ent => List.range ent.valCnt.toNat).filterMap start =
      entLst.map VarrefCtxEnt.wheel := by
    rw [List.filterMap_map, ← List.filterMap_eq_map]
    exact List.filterMap_congr hrange
  rw [← hwheels, ahead_start, List.filter_eq_self.mpr]
  intro l hl
  obtain ⟨ent, hent, rfl⟩ := List.mem_map.mp hl
  have hlt := UInt32.lt_iff_toNat_lt.mp (hpos ent hent)
  rw [range_eq_cons hlt]
  rfl

/-- **The iteration over the combinations.** From a new context whose references all have values,
the end is reported by the call whose number is the product of the numbers of values; before
each call the object has another combination of indices, and each combination is there once. -/
theorem varref_iteration {probeIn varrefs : Sexp} {ctx : VarrefCtx}
    (h : probeVarrefCreateCtx probeIn varrefs = .ok ctx) (hne : ctx.entLst ≠ [])
    (hpos : ∀ ent ∈ ctx.entLst, 0 < ent.valCnt) :
    ∃ visited, (∀ calls, visits calls ctx = if ctx.sizes.prod ≤ calls then some visited else none) ∧
      visited.length = ctx.sizes.prod ∧ visited.Nodup ∧
      ∀ combination, combination ∈ visited ↔ List.Forall₂ (· < ·) combination ctx.sizes := by
  obtain ⟨hcounting, hzero⟩ := counting_of_create h hpos
  have hahead := ahead_eq_sections hzero hpos
  have hlength : (ahead (ctx.entLst.map VarrefCtxEnt.wheel)).length = ctx.sizes.prod := by
    rw [hahead, length_sections, List.map_map, VarrefCtx.sizes]
    congr 1
    exact List.map_congr_left fun ent _ => List.length_range
  refine ⟨_, fun calls => ?_, hlength, ?_, fun combination => ?_⟩
  · rw [visits_eq calls hcounting hne, hlength]
  · rw [hahead]
    refine nodup_sections fun l hl => ?_
    obtain ⟨ent, -, rfl⟩ := List.mem_map.mp hl
    exact List.nodup_range
  · rw [hahead, List.mem_sections, VarrefCtx.sizes, List.forall₂_map_right_iff,
      List.forall₂_map_right_iff]
    simp only [List.mem_range]

/-- `:var_ref`. -/
def varRefName : Sexp := .string (bytes [':', 'v', 'a', 'r', '_', 'r', 'e', 'f'])

/-- An object with two entities that refer to variables. -/
def pairObject : Sexp :=
  .list [.string (bytes ['o']),
    .list [.list [.string (bytes ['a']), varRefName, .string (bytes ['v'])]],
    .list [.list [.string (bytes ['b']), varRefName, .string (bytes ['w'])]]]

/-- The variables of the two entities, with two values and three. -/
def pairVarrefs : Sexp :=
  .list [.string (bytes ['v', 'a', 'r', 'r', 'e', 'f', 's']), sexpNumberNewu 2, sexpNumberNewu 2,
    .list [.string (bytes ['v']), sexpNumberNewu 2,
      .list [.string (bytes ['x']), .string (bytes ['y'])]],
    .list [.string (bytes ['w']), sexpNumberNewu 3,
      .list [.string (bytes ['x']), .string (bytes ['y']), .string (bytes ['z'])]]]

theorem varref_iteration_pair : ∃ ctx, probeVarrefCreateCtx pairObject pairVarrefs = .ok ctx ∧
    ctx.sizes = [2, 3] ∧ ∃ visited,
      (∀ calls, visits calls ctx = if ctx.sizes.prod ≤ calls then some visited else none) ∧
      visited.length = ctx.sizes.prod ∧ visited.Nodup ∧
      ∀ combination, combination ∈ visited ↔ List.Forall₂ (· < ·) combination ctx.sizes := by
  have hcreate : probeVarrefCreateCtx pairObject pairVarrefs = .ok
      ⟨.list [.string (bytes ['o']),
        .list [.list [.string (bytes ['a']), vidxName, sexpNumberNewu 0, varRefName,
          .string (bytes ['v'])], .list [.string (bytes ['x']), .string (bytes ['y'])]],
        .list [.list [.string (bytes ['b']), vidxName, sexpNumberNewu 0, varRefName,
          .string (bytes ['w'])],
          .list [.string (bytes ['x']), .string (bytes ['y']), .string (bytes ['z'])]]],
      [⟨2, 2, 0⟩, ⟨3, 3, 0⟩]⟩ := rfl
  exact ⟨_, hcreate, rfl, varref_iteration hcreate (by simp) (by simp)⟩

end OpenScap.Varref
