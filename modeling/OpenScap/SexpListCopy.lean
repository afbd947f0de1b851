import Mathlib.Algebra.Group.Nat.Defs
import Mathlib.Logic.Function.Basic
import OpenScap.NodeChain

/-!
# The copy of a list of S-expressions

A list is a chain of blocks and an offset into the first one. A block has room for a power of
two of members, whose exponent is kept in four bits. Members are appended to the last block, or
to a new one; the copy of a list puts the members into new blocks, beginning with the smallest
size. The references to values are counted, and a reference to a value whose counter is zero
becomes an empty one.

The counters of blocks are left out, since a copy shares none. No result is a failed assertion
or a reference to no value, and a loop is given a number of rounds that it may take.

## Main results

* `exists_listOf` — members are appended for ever;
* `CopyState.copyLoop_spec`, `CopyState.exists_copyLoop` — when the loop of the copy comes to an
  end, and with what;
* `listCopy_faithful_iff` — when a copy has the members of the list.
-/

namespace OpenScap.SexpList

open NodeChain

/-! ### Memory -/

/-- `SEXP_t`: its datatype, and its value if it has one. -/
structure SexpMemb where
  s_type : ℕ
  s_valp : Option ℕ
  deriving DecidableEq, Repr

/-- `struct SEXP_val_lblk`: the two halves of `nxsz`, and the members, `real` many. -/
structure Lblk where
  next : Option ℕ
  sz : ℕ
  memb : List SexpMemb
  deriving Repr

/-- The blocks by their places, and the counters of values. -/
structure Memory where
  blocks : List Lblk
  refs : ℕ → UInt32

/-- `struct SEXP_val_list`. -/
structure SexpValList where
  b_addr : Option ℕ
  offset : ℕ

/-- `SEXP_rawval_incref`. -/
def rawvalIncref (refs : ℕ → UInt32) : Option ℕ → Option ((ℕ → UInt32) × Option ℕ)
  | none => none
  | some valp =>
      some (Function.update refs valp (refs valp + 1), if 0 < refs valp then some valp else none)

/-- `SEXP_rawval_lblk_new`. -/
def lblkNew (m : Memory) (sz : ℕ) : Option (Memory × ℕ) :=
  if sz < 16 then some ({ m with blocks := m.blocks ++ [⟨none, sz, []⟩] }, m.blocks.length)
  else none

/-- A block with one member more, which is a reference of its own. -/
def pushMemb (m : Memory) (lblk : ℕ) (s_exp : SexpMemb) : Option Memory := do
  let (refs, valp) ← rawvalIncref m.refs s_exp.s_valp
  let memb := { s_exp with s_valp := valp }
  some ⟨m.blocks.modify lblk fun l => { l with memb := l.memb ++ [memb] }, refs⟩

/-- `lblk->nxsz`, with another block to follow and the same size. -/
def setNext (m : Memory) (lblk next : ℕ) : Memory :=
  { m with blocks := m.blocks.modify lblk fun l => { l with next := some next } }

/-- `SEXP_rawval_lblk_add1`, with the block that is the last one then. -/
def lblkAdd1 (m : Memory) (lblkp : ℕ) (s_exp : SexpMemb) : Option (Memory × ℕ) := do
  let lblk ← m.blocks[lblkp]?
  if lblk.memb.length < 2 ^ lblk.sz then
    let m ← pushMemb m lblkp s_exp
    some (m, lblkp)
  else
    let new_sz := if lblk.sz = 15 then 6 else lblk.sz + 1
    let (m, new_lb) ← lblkNew m new_sz
    let m ← pushMemb (setNext m lblkp new_lb) new_lb s_exp
    some (m, new_lb)

/-- Members are appended one after another to the list that a block is the last one of. -/
def appendMembs : Memory → ℕ → List SexpMemb → Option (Memory × ℕ)
  | m, lblkp, [] => some (m, lblkp)
  | m, lblkp, s_exp :: s_exps => do
      let (m, lblkp) ← lblkAdd1 m lblkp s_exp
      appendMembs m lblkp s_exps

/-- `SEXP_rawval_lblk_add` for each member of a list that is empty at first, and that has its
blocks for itself: with the first block, and the last one. -/
def listOf (m : Memory) (s_exps : List SexpMemb) : Option (Memory × ℕ × ℕ) := do
  let (m, lb_head) ← lblkNew m 1
  let (m, lb_last) ← appendMembs m lb_head s_exps
  some (m, lb_head, lb_last)

/-! ### The copy -/

/-- The inner loop of `SEXP_rawval_lblk_copy`, over the members of the old block that are left:
with their number. `off_n` is the number of members of the new block. -/
def copyItems (lb_new cur_sz : ℕ) : Memory → ℕ → List SexpMemb → Option (Memory × ℕ)
  | m, _, [] => some (m, 0)
  | m, off_n, x :: xs =>
      if off_n < 2 ^ cur_sz then do
        let m ← pushMemb m lb_new x
        let (m, n) ← copyItems lb_new cur_sz m (off_n + 1) xs
        some (m, n + 1)
      else some (m, 0)

/-- A new block, when the last one is full. -/
def growNew (m : Memory) (lb_new cur_sz : ℕ) : Option (Memory × ℕ × ℕ) := do
  let new ← m.blocks[lb_new]?
  if 2 ^ cur_sz ≤ new.memb.length then
    let (m, lb_next) ← lblkNew m (cur_sz + 1)
    some (setNext m lb_new lb_next, lb_next, cur_sz + 1)
  else some (m, lb_new, cur_sz)

/-- The end of the outer loop's body: the new block and the members of the old one. -/
def copyRound (m : Memory) (lb_old off_o lb_new cur_sz : ℕ) : Option (Memory × ℕ × ℕ × ℕ) := do
  let (m, lb_new, cur_sz) ← growNew m lb_new cur_sz
  let old ← m.blocks[lb_old]?
  let new ← m.blocks[lb_new]?
  let (m, n) ← copyItems lb_new cur_sz m new.memb.length (old.memb.drop off_o)
  some (m, off_o + n, lb_new, cur_sz)

/-- The outer loop of `SEXP_rawval_lblk_copy`. -/
def copyLoop : ℕ → Memory → ℕ → ℕ → ℕ → ℕ → Option Memory
  | 0, _, _, _, _, _ => none
  | fuel + 1, m, lb_old, off_o, lb_new, cur_sz => do
      let old ← m.blocks[lb_old]?
      if old.memb.length = off_o then
        match old.next with
        | none => some m
        | some lb_old => do
            let (m, off_o, lb_new, cur_sz) ← copyRound m lb_old 0 lb_new cur_sz
            copyLoop fuel m lb_old off_o lb_new cur_sz
      else
        let (m, off_o, lb_new, cur_sz) ← copyRound m lb_old off_o lb_new cur_sz
        copyLoop fuel m lb_old off_o lb_new cur_sz

/-- `SEXP_rawval_lblk_copy`. -/
def lblkCopy (fuel : ℕ) (m : Memory) (lblkp : Option ℕ) (n_skip : ℕ) :
    Option (Memory × Option ℕ) :=
  match lblkp with
  | none => some (m, none)
  | some lb_old => do
      let (m, lb_new) ← lblkNew m 0
      let m ← copyLoop fuel m lb_old n_skip lb_new 0
      some (m, some lb_new)

/-- `SEXP_rawval_list_copy`. -/
def listCopy (fuel : ℕ) (m : Memory) (list : SexpValList) : Option (Memory × SexpValList) := do
  let (m, b_addr) ← lblkCopy fuel m list.b_addr list.offset
  some (m, ⟨b_addr, 0⟩)

/-! ### References to values -/

/-- References to the values of members, one after another. -/
def increfMembs : (ℕ → UInt32) → List SexpMemb → Option ((ℕ → UInt32) × List SexpMemb)
  | refs, [] => some (refs, [])
  | refs, x :: xs => do
      let (refs, valp) ← rawvalIncref refs x.s_valp
      let (refs, ys) ← increfMembs refs xs
      some (refs, { x with s_valp := valp } :: ys)

/-- References to some members, and then to others. -/
theorem increfMembs_append (refs : ℕ → UInt32) (xs ys : List SexpMemb) :
    increfMembs refs (xs ++ ys) = (increfMembs refs xs).bind fun r =>
      (increfMembs r.1 ys).map fun s => (s.1, r.2 ++ s.2) := by
  induction xs generalizing refs with
  | nil => simp [increfMembs]
  | cons x xs ih =>
      rw [List.cons_append, increfMembs, increfMembs]
      cases rawvalIncref refs x.s_valp with
      | none => rfl
      | some r =>
          simp only [Option.bind_eq_bind, Option.bind_some, ih]
          cases increfMembs r.1 xs with
          | none => rfl
          | some s =>
              simp only [Option.bind_some]
              cases increfMembs s.1 ys with
              | none => rfl
              | some t => rfl

/-- There are as many references as members. -/
theorem length_increfMembs {refs refs' : ℕ → UInt32} {xs ys : List SexpMemb}
    (h : increfMembs refs xs = some (refs', ys)) : ys.length = xs.length := by
  induction xs generalizing refs ys with
  | nil =>
      obtain ⟨-, rfl⟩ := Prod.mk.inj (Option.some.inj h)
      rfl
  | cons x xs ih =>
      rw [increfMembs, Option.bind_eq_bind, Option.bind_eq_some_iff] at h
      obtain ⟨r, -, h⟩ := h
      rw [Option.bind_eq_bind, Option.bind_eq_some_iff] at h
      obtain ⟨s, hs, h⟩ := h
      obtain ⟨rfl, rfl⟩ := Prod.mk.inj (Option.some.inj h)
      rw [List.length_cons, List.length_cons, ih hs]

/-! ### The last block -/

/-- The blocks behind those that were there before are a row that `lb` is the last one of, and
none has more members than its size allows. -/
structure Tail (old : List Lblk) (m : Memory) (front : List Lblk) (last : Lblk) (lb : ℕ) :
    Prop where
  blocks : m.blocks = old ++ front ++ [last]
  place : lb = (old ++ front).length
  row : Row Lblk.next old.length front last
  sizes : ∀ b ∈ front ++ [last], b.sz < 16 ∧ b.memb.length ≤ 2 ^ b.sz

section Tail

variable {old : List Lblk} {m : Memory} {front : List Lblk} {last : Lblk} {lb : ℕ}

/-- The last block. -/
theorem Tail.getElem? (h : Tail old m front last lb) : m.blocks[lb]? = some last := by
  rw [h.blocks, h.place, List.getElem?_append_right (Nat.le_refl _), Nat.sub_self]
  rfl

/-- The blocks that were there before are still there. -/
theorem Tail.isPrefix (h : Tail old m front last lb) : old <+: m.blocks := by
  rw [h.blocks, List.append_assoc]
  exact List.prefix_append ..

/-- A member more in the last block. -/
theorem Tail.push (h : Tail old m front last lb) (hfree : last.memb.length < 2 ^ last.sz)
    {x : SexpMemb} {refs : ℕ → UInt32} {valp : Option ℕ}
    (hincref : rawvalIncref m.refs x.s_valp = some (refs, valp)) :
    ∃ m', pushMemb m lb x = some m' ∧ m'.refs = refs ∧
      Tail old m' front { last with memb := last.memb ++ [{ x with s_valp := valp }] } lb := by
  refine ⟨_, by rw [pushMemb, hincref]; rfl, rfl, ?_, h.place, h.row.set_last h.row.next_last, ?_⟩
  · change m.blocks.modify lb _ = _
    rw [h.blocks, h.place, modify_append_cons]
  · intro b hb
    rcases List.mem_append.1 hb with hb | hb
    · exact h.sizes b (List.mem_append_left _ hb)
    · obtain rfl := List.mem_singleton.1 hb
      obtain ⟨hsz, -⟩ := h.sizes last (List.mem_append_right _ (List.mem_singleton_self _))
      refine ⟨hsz, ?_⟩
      rw [List.length_append, List.length_singleton]
      exact hfree

/-- A new block behind the last one. -/
theorem Tail.grow (h : Tail old m front last lb) {sz : ℕ} (hsz : sz < 16) :
    ∃ m' lb' last', lblkNew m sz = some (m', lb') ∧ (setNext m' lb lb').refs = m.refs ∧
      last'.memb = last.memb ∧
      Tail old (setNext m' lb lb') (front ++ [last']) ⟨none, sz, []⟩ lb' := by
  have hlength : m.blocks.length = old.length + front.length + 1 := by
    rw [h.blocks, List.length_append, List.length_append, List.length_singleton]
  refine ⟨⟨m.blocks ++ [⟨none, sz, []⟩], m.refs⟩, m.blocks.length,
    { last with next := some m.blocks.length }, by rw [lblkNew, if_pos hsz], rfl, rfl, ?_, ?_,
    h.row.grow (by rw [hlength]) rfl, ?_⟩
  · change (m.blocks ++ [_]).modify lb _ = _
    rw [h.blocks, h.place, List.append_assoc (old ++ front), List.singleton_append,
      modify_append_cons]
    simp only [List.append_assoc, List.cons_append, List.nil_append]
  · rw [hlength, List.length_append, List.length_append, List.length_singleton, Nat.add_assoc]
  · intro b hb
    rcases List.mem_append.1 hb with hb | hb
    · rcases List.mem_append.1 hb with hb | hb
      · exact h.sizes b (List.mem_append_left _ hb)
      · obtain rfl := List.mem_singleton.1 hb
        exact h.sizes last (List.mem_append_right _ (List.mem_singleton_self _))
    · obtain rfl := List.mem_singleton.1 hb
      exact ⟨hsz, Nat.zero_le _⟩

/-- The members that the inner loop copies, as many as there is room for. -/
theorem Tail.copyItems_spec (h : Tail old m front last lb) {xs : List SexpMemb} {off_n : ℕ}
    (hoff : off_n = last.memb.length) {k : ℕ} (hk : k = min (2 ^ last.sz - off_n) xs.length) :
    (increfMembs m.refs (xs.take k) = none → copyItems lb last.sz m off_n xs = none) ∧
    ∀ refs ys, increfMembs m.refs (xs.take k) = some (refs, ys) →
      ∃ m', copyItems lb last.sz m off_n xs = some (m', k) ∧ m'.refs = refs ∧
        Tail old m' front { last with memb := last.memb ++ ys } lb := by
  induction xs generalizing m last off_n k with
  | nil =>
      rw [List.take_nil]
      refine ⟨fun hnone => absurd hnone (by simp [increfMembs]), ?_⟩
      rintro refs ys hsome
      obtain ⟨rfl, rfl⟩ := Prod.mk.inj (Option.some.inj hsome)
      refine ⟨m, by rw [hk, List.length_nil, Nat.min_zero]; rfl, rfl, ?_⟩
      rwa [List.append_nil]
  | cons x xs ih =>
      by_cases hfree : off_n < 2 ^ last.sz
      · obtain ⟨k, rfl⟩ : ∃ j, k = j + 1 := by
          refine ⟨k - 1, ?_⟩
          rw [List.length_cons] at hk
          omega
        rw [List.length_cons] at hk
        rw [List.take_succ_cons, increfMembs, copyItems, if_pos hfree]
        cases hincref : rawvalIncref m.refs x.s_valp with
        | none =>
            refine ⟨fun _ => by rw [pushMemb, hincref]; rfl, fun refs ys hsome => ?_⟩
            exact absurd hsome (by simp)
        | some r =>
            obtain ⟨m', hpush, hrefs, htail⟩ := h.push (hoff ▸ hfree) hincref
            obtain ⟨hnone, hsome⟩ := ih htail
              (show off_n + 1 = _ by rw [hoff, List.length_append]; rfl)
              (show k = min (2 ^ last.sz - (off_n + 1)) xs.length by omega)
            rw [hrefs] at hnone hsome
            simp only [hpush, Option.bind_eq_bind, Option.bind_some]
            cases hrest : increfMembs r.1 (xs.take k) with
            | none =>
                refine ⟨fun _ => by rw [hnone hrest]; rfl, fun refs ys hsome => ?_⟩
                exact absurd hsome (by simp)
            | some s =>
                refine ⟨fun hnone => absurd hnone (by simp), fun refs ys hys => ?_⟩
                obtain ⟨rfl, rfl⟩ := Prod.mk.inj (Option.some.inj hys)
                obtain ⟨m'', hitems, hrefs', htail'⟩ := hsome _ _ hrest
                refine ⟨m'', by rw [hitems]; rfl, hrefs', ?_⟩
                rw [List.append_assoc, List.singleton_append] at htail'
                exact htail'
      · have hzero : k = 0 := by omega
        subst hzero
        refine ⟨fun hnone => absurd hnone (by simp [increfMembs]), fun refs ys hsome => ?_⟩
        obtain ⟨rfl, rfl⟩ := Prod.mk.inj (Option.some.inj hsome)
        refine ⟨m, by rw [copyItems, if_neg hfree], rfl, ?_⟩
        rwa [List.append_nil]

/-- **A member is appended**, to the last block or to a new one. -/
theorem Tail.lblkAdd1_spec (h : Tail old m front last lb) {x : SexpMemb} {refs : ℕ → UInt32}
    {valp : Option ℕ} (hincref : rawvalIncref m.refs x.s_valp = some (refs, valp)) :
    ∃ m' front' last' lb', lblkAdd1 m lb x = some (m', lb') ∧ m'.refs = refs ∧
      Tail old m' front' last' lb' ∧ (front' ++ [last']).flatMap Lblk.memb =
        (front ++ [last]).flatMap Lblk.memb ++ [{ x with s_valp := valp }] := by
  obtain ⟨hsz, -⟩ := h.sizes last (List.mem_append_right _ (List.mem_singleton_self _))
  rw [lblkAdd1, h.getElem?]
  simp only [Option.bind_eq_bind, Option.bind_some]
  by_cases hfree : last.memb.length < 2 ^ last.sz
  · obtain ⟨m', hpush, hrefs, htail⟩ := h.push hfree hincref
    refine ⟨m', front, _, lb, by rw [if_pos hfree, hpush]; rfl, hrefs, htail, ?_⟩
    simp
  · -- the size after the largest one is not the next one
    have hnew : (if last.sz = 15 then 6 else last.sz + 1) < 16 := by
      split <;> omega
    obtain ⟨m', lb', last', hlblk, hrefs, hmemb, htail⟩ := h.grow hnew
    rw [← hrefs] at hincref
    obtain ⟨m'', hpush, hrefs', htail'⟩ := htail.push (Nat.two_pow_pos _) hincref
    refine ⟨m'', front ++ [last'], _, lb',
      by rw [if_neg hfree, hlblk, Option.bind_some, hpush]; rfl, hrefs', htail', ?_⟩
    simp [hmemb]

/-- **Members are appended, however many.** -/
theorem Tail.appendMembs_spec (h : Tail old m front last lb) {xs ys : List SexpMemb}
    {refs : ℕ → UInt32} (hincref : increfMembs m.refs xs = some (refs, ys)) :
    ∃ m' front' last' lb', appendMembs m lb xs = some (m', lb') ∧
      Tail old m' front' last' lb' ∧
      (front' ++ [last']).flatMap Lblk.memb = (front ++ [last]).flatMap Lblk.memb ++ ys := by
  induction xs generalizing m front last lb ys with
  | nil =>
      obtain ⟨-, rfl⟩ := Prod.mk.inj (Option.some.inj hincref)
      exact ⟨m, front, last, lb, rfl, h, (List.append_nil _).symm⟩
  | cons x xs ih =>
      rw [increfMembs, Option.bind_eq_bind, Option.bind_eq_some_iff] at hincref
      obtain ⟨r, hr, hincref⟩ := hincref
      rw [Option.bind_eq_bind, Option.bind_eq_some_iff] at hincref
      obtain ⟨s, hs, hincref⟩ := hincref
      obtain ⟨rfl, rfl⟩ := Prod.mk.inj (Option.some.inj hincref)
      obtain ⟨m', front', last', lb', hadd, hrefs, htail, hitems⟩ := h.lblkAdd1_spec hr
      rw [← hrefs] at hs
      obtain ⟨m'', front'', last'', lb'', happend, htail', hitems'⟩ := ih htail hs
      refine ⟨m'', front'', last'', lb'', by rw [appendMembs, hadd]; exact happend, htail', ?_⟩
      rw [hitems', hitems, List.append_assoc, List.singleton_append]

end Tail

/-! ### A round of the copy -/

/-- The new blocks hold some items, and there is room for so many more, up to the largest
size. -/
def CopyState (old : List Lblk) (m : Memory) (lb_new cur_sz : ℕ) (items : List SexpMemb)
    (free : ℕ) : Prop :=
  ∃ front last, Tail old m front last lb_new ∧ last.sz = cur_sz ∧
    (front ++ [last]).flatMap Lblk.memb = items ∧
    free + 2 ^ cur_sz + last.memb.length = 2 ^ 16

/-- The sizes up to the largest one. -/
theorem two_pow_succ_le {sz : ℕ} (h : sz < 16) : 2 ^ sz + 2 ^ sz ≤ 2 ^ 16 := by
  rw [← Nat.two_mul, ← Nat.pow_succ']
  exact Nat.pow_le_pow_right (by omega) h

section Round

variable {old : List Lblk} {m : Memory} {lb_new cur_sz free : ℕ} {items : List SexpMemb}

/-- There is a new block with room, unless the last one is full and of the largest size. -/
theorem CopyState.growNew_spec (h : CopyState old m lb_new cur_sz items free) :
    (free = 0 → growNew m lb_new cur_sz = none) ∧
    (0 < free → ∃ m' lb' front' last', growNew m lb_new cur_sz = some (m', lb', last'.sz) ∧
      m'.refs = m.refs ∧ Tail old m' front' last' lb' ∧
      (front' ++ [last']).flatMap Lblk.memb = items ∧
      free + 2 ^ last'.sz + last'.memb.length = 2 ^ 16 ∧ last'.memb.length < 2 ^ last'.sz) := by
  obtain ⟨front, last, htail, rfl, hitems, hfree⟩ := h
  obtain ⟨hsz, hlength⟩ := htail.sizes last (List.mem_append_right _ (List.mem_singleton_self _))
  have hpow := two_pow_succ_le hsz
  rw [growNew, htail.getElem?]
  simp only [Option.bind_eq_bind, Option.bind_some]
  by_cases hfull : 2 ^ last.sz ≤ last.memb.length
  · rw [if_pos hfull]
    refine ⟨fun hzero => ?_, fun hpos => ?_⟩
    · have hlarge : ¬ last.sz + 1 < 16 := by
        intro hlt
        have := two_pow_succ_le hlt
        rw [Nat.pow_succ] at this
        omega
      rw [lblkNew, if_neg hlarge]
      rfl
    · have hlt : last.sz + 1 < 16 := by
        by_contra hlarge
        have hmax : last.sz = 15 := by omega
        rw [hmax] at hfree hfull
        omega
      obtain ⟨m', lb', last', hnew, hrefs, hmemb, htail'⟩ := htail.grow hlt
      refine ⟨setNext m' lb_new lb', lb', front ++ [last'], ⟨none, last.sz + 1, []⟩,
        by rw [hnew]; rfl, hrefs, htail', ?_, ?_, Nat.two_pow_pos _⟩
      · rw [← hitems]
        simp [hmemb]
      · change free + 2 ^ (last.sz + 1) + 0 = 2 ^ 16
        rw [Nat.pow_succ]
        omega
  · rw [if_neg hfull]
    refine ⟨fun hzero => by omega, fun hpos => ?_⟩
    exact ⟨m, lb_new, front, last, rfl, rfl, htail, hitems, hfree, by omega⟩

/-- What a round copies: nothing if there is no room, and else some of the members that are
left of the old block, if there is one left. -/
theorem CopyState.copyRound_spec (h : CopyState old m lb_new cur_sz items free) {lb_old : ℕ}
    {cur : Lblk} (hcur : old[lb_old]? = some cur) (off_o : ℕ) :
    (free = 0 → copyRound m lb_old off_o lb_new cur_sz = none) ∧
    (0 < free → ∃ k, k ≤ free ∧ k ≤ (cur.memb.drop off_o).length ∧
      (cur.memb.drop off_o ≠ [] → 0 < k) ∧
      (increfMembs m.refs ((cur.memb.drop off_o).take k) = none →
        copyRound m lb_old off_o lb_new cur_sz = none) ∧
      ∀ refs ys, increfMembs m.refs ((cur.memb.drop off_o).take k) = some (refs, ys) →
        ∃ m' lb' sz', copyRound m lb_old off_o lb_new cur_sz = some (m', off_o + k, lb', sz') ∧
          m'.refs = refs ∧ CopyState old m' lb' sz' (items ++ ys) (free - k)) := by
  obtain ⟨hnone, hsome⟩ := h.growNew_spec
  rw [copyRound]
  refine ⟨fun hzero => by rw [hnone hzero]; rfl, fun hpos => ?_⟩
  obtain ⟨m', lb', front', last', hgrow, hrefs, htail, hitems, hfree, hroom⟩ := hsome hpos
  have hold : m'.blocks[lb_old]? = some cur := AppendStore.getElem?_mono htail.isPrefix hcur
  simp only [hgrow, hold, htail.getElem?, Option.bind_eq_bind, Option.bind_some]
  obtain ⟨hitemsNone, hitemsSome⟩ := @Tail.copyItems_spec _ _ _ _ _ htail
    (cur.memb.drop off_o) _ rfl _ rfl
  rw [hrefs] at hitemsNone hitemsSome
  have hroom' := two_pow_succ_le
    (htail.sizes last' (List.mem_append_right _ (List.mem_singleton_self _))).1
  refine ⟨min (2 ^ last'.sz - last'.memb.length) (cur.memb.drop off_o).length, by omega,
    Nat.min_le_right .., fun hne => ?_, fun hincref => ?_, fun refs ys hincref => ?_⟩
  · have := List.length_pos_iff.mpr hne
    omega
  · rw [hitemsNone hincref]
    rfl
  · obtain ⟨m'', hcopy, hrefs', htail'⟩ := hitemsSome refs ys hincref
    have hlength := length_increfMembs hincref
    rw [List.length_take] at hlength
    refine ⟨m'', lb', last'.sz, by rw [hcopy]; rfl, hrefs', front', _, htail', rfl, ?_, ?_⟩
    · rw [← hitems]
      simp
    · rw [List.length_append]
      omega

end Round

/-! ### The loop of the copy -/

/-- The members that are left of the old blocks. -/
def remaining (cur : Lblk) (off_o : ℕ) (rest : List Lblk) : List SexpMemb :=
  cur.memb.drop off_o ++ rest.flatMap Lblk.memb

/-- The members that are left fit into the room that is left: there is more room, or just as
much, and no block behind the last member. -/
def Fits (free n : ℕ) (rest : List Lblk) : Prop :=
  n < free ∨ n = free ∧ ∀ b ∈ rest.getLast?, b.memb ≠ []

/-- A round is at the same old block, of which there is something left, or at the next one. -/
def Advances (rest : List Lblk) (cur : Lblk) (off_o : ℕ) (rest' : List Lblk) : Prop :=
  rest = rest' ∧ cur.memb.drop off_o ≠ [] ∨ rest = cur :: rest' ∧ off_o = 0

/-- What is left after some members of a block. -/
theorem remaining_add (cur : Lblk) (off_o k : ℕ) (rest : List Lblk) :
    remaining cur off_o rest =
      (cur.memb.drop off_o).take k ++ remaining cur (off_o + k) rest := by
  rw [remaining, remaining, ← List.append_assoc, ← List.drop_drop, List.take_append_drop]

/-- Without any room, nothing fits. -/
theorem not_fits_zero {rest rest' : List Lblk} {cur : Lblk} {off_o : ℕ}
    (h : Advances rest cur off_o rest') : ¬ Fits 0 (remaining cur off_o rest').length rest := by
  rintro (hlt | ⟨hzero, hlast⟩)
  · exact absurd hlt (Nat.not_lt_zero _)
  · have hnil := List.eq_nil_of_length_eq_zero hzero
    obtain ⟨hdrop, hrest⟩ := List.append_eq_nil_iff.mp hnil
    rcases h with ⟨-, hne⟩ | ⟨rfl, rfl⟩
    · exact hne hdrop
    · refine hlast _ (List.getLast?_eq_getLast_of_ne_nil (List.cons_ne_nil cur rest')) ?_
      have hall : ∀ b ∈ cur :: rest', b.memb = [] := by
        rw [List.forall_mem_cons]
        exact ⟨hdrop, List.flatMap_eq_nil_iff.mp hrest⟩
      exact hall _ (List.getLast_mem _)

/-- A round takes as much of the room as of the members. -/
theorem fits_round {rest rest' : List Lblk} {cur : Lblk} {off_o free k : ℕ}
    (h : Advances rest cur off_o rest') (hfree : 0 < free) (hk : k ≤ free)
    (hk' : k ≤ (cur.memb.drop off_o).length) :
    Fits free (remaining cur off_o rest').length rest ↔
      Fits (free - k) (remaining cur (off_o + k) rest').length rest' := by
  have hlength : (remaining cur off_o rest').length =
      k + (remaining cur (off_o + k) rest').length := by
    rw [remaining_add cur off_o k, List.length_append, List.length_take, Nat.min_eq_left hk']
  have hlast : (remaining cur off_o rest').length = free →
      ((∀ b ∈ rest.getLast?, b.memb ≠ []) ↔ ∀ b ∈ rest'.getLast?, b.memb ≠ []) := by
    intro heq
    rcases h with ⟨rfl, -⟩ | ⟨rfl, rfl⟩
    · rfl
    · cases rest' with
      | nil =>
          have hne : cur.memb ≠ [] := by
            rintro hnil
            rw [remaining, hnil] at heq
            exact (Nat.ne_of_lt hfree) heq
          simpa using hne
      | cons b rest' => rw [List.getLast?_cons_cons]
  have hsub := Nat.sub_add_cancel hk
  rw [Fits, Fits]
  constructor
  · rintro (hlt | ⟨heq, hne⟩)
    · exact .inl (by omega)
    · exact .inr ⟨by omega, (hlast heq).1 hne⟩
  · rintro (hlt | ⟨heq, hne⟩)
    · exact .inl (by omega)
    · exact .inr ⟨by omega, (hlast (by omega)).2 hne⟩

section Loop

variable {old : List Lblk} {m : Memory} {lb_new cur_sz free : ℕ} {items : List SexpMemb}

/-- A round of the loop: the end, or members of the same old block, or of the next one. -/
theorem copyLoop_succ {lb_old off_o : ℕ} {cur : Lblk} {rest : List Lblk}
    (hgrown : old <+: m.blocks) (hcur : old[lb_old]? = some cur)
    (hrest : Chain Lblk.next old cur.next rest) (hoff : off_o ≤ cur.memb.length) :
    (remaining cur off_o rest = [] ∧ rest = [] ∧
      ∀ fuel, copyLoop (fuel + 1) m lb_old off_o lb_new cur_sz = some m) ∨
    ∃ lb_old' cur' off_o' rest', old[lb_old']? = some cur' ∧
      Chain Lblk.next old cur'.next rest' ∧ off_o' ≤ cur'.memb.length ∧
      remaining cur' off_o' rest' = remaining cur off_o rest ∧ Advances rest cur' off_o' rest' ∧
      ∀ fuel, copyLoop (fuel + 1) m lb_old off_o lb_new cur_sz =
        (copyRound m lb_old' off_o' lb_new cur_sz).bind fun r =>
          copyLoop fuel r.1 lb_old' r.2.1 r.2.2.1 r.2.2.2 := by
  have hold := AppendStore.getElem?_mono hgrown hcur
  simp only [copyLoop, hold, Option.bind_eq_bind, Option.bind_some]
  by_cases hend : cur.memb.length = off_o
  · simp only [if_pos hend]
    have hdrop : cur.memb.drop off_o = [] := by rw [← hend, List.drop_length]
    cases hnext : cur.next with
    | none =>
        rw [hnext] at hrest
        cases hrest
        exact .inl ⟨by rw [remaining, hdrop]; rfl, rfl, fun _ => rfl⟩
    | some b =>
        rw [hnext] at hrest
        cases hrest with
        | cons hb hrest =>
            refine .inr ⟨b, _, 0, _, hb, hrest, Nat.zero_le _, ?_, .inr ⟨rfl, rfl⟩, fun _ => rfl⟩
            rw [remaining, remaining, hdrop, List.drop_zero, List.nil_append, List.flatMap_cons]
  · simp only [if_neg hend]
    refine .inr ⟨lb_old, cur, off_o, rest, hcur, hrest, hoff, rfl, .inl ⟨rfl, ?_⟩, fun _ => rfl⟩
    intro hnil
    rw [List.drop_eq_nil_iff] at hnil
    omega

/-- **What the loop has copied when it comes to an end**: all that was left, which did fit. -/
theorem CopyState.copyLoop_spec {fuel : ℕ} {lb_old off_o : ℕ} {cur : Lblk} {rest : List Lblk}
    {m' : Memory} (hstate : CopyState old m lb_new cur_sz items free)
    (hcur : old[lb_old]? = some cur) (hrest : Chain Lblk.next old cur.next rest)
    (hoff : off_o ≤ cur.memb.length)
    (hloop : copyLoop fuel m lb_old off_o lb_new cur_sz = some m') :
    Fits free (remaining cur off_o rest).length rest ∧
      ∃ refs ys lb' sz' free', increfMembs m.refs (remaining cur off_o rest) = some (refs, ys) ∧
        m'.refs = refs ∧ CopyState old m' lb' sz' (items ++ ys) free' := by
  induction fuel generalizing m lb_old off_o cur rest lb_new cur_sz items free with
  | zero => exact absurd hloop (by simp [copyLoop])
  | succ fuel ih =>
      obtain ⟨front, last, htail, -⟩ := id hstate
      rcases copyLoop_succ htail.isPrefix hcur hrest hoff with ⟨hnil, rfl, hend⟩ |
        ⟨lb_old', cur', off_o', rest', hcur', hrest', hoff', hremaining, hadvance, hround⟩
      · obtain rfl := Option.some.inj ((hend fuel).symm.trans hloop)
        rw [hnil]
        refine ⟨?_, m.refs, [], lb_new, cur_sz, free, rfl, rfl, by rwa [List.append_nil]⟩
        rcases Nat.eq_zero_or_pos free with rfl | hpos
        · exact .inr ⟨rfl, by simp⟩
        · exact .inl hpos
      · rw [← hremaining]
        rw [hround, Option.bind_eq_some_iff] at hloop
        obtain ⟨r, hr, hloop⟩ := hloop
        obtain ⟨hfull, hfree⟩ := hstate.copyRound_spec hcur' off_o'
        have hpos : 0 < free := by
          rw [Nat.pos_iff_ne_zero]
          intro hzero
          rw [hfull hzero] at hr
          exact absurd hr (by simp)
        obtain ⟨k, hk, hk', -, hnone, hsome⟩ := hfree hpos
        cases hincref : increfMembs m.refs ((cur'.memb.drop off_o').take k) with
        | none =>
            rw [hnone hincref] at hr
            exact absurd hr (by simp)
        | some s =>
            obtain ⟨m'', lb', sz', hcopy, hrefs, hstate'⟩ := hsome _ _ hincref
            obtain rfl := Option.some.inj (hcopy.symm.trans hr)
            have hoff'' : off_o' + k ≤ cur'.memb.length := by
              rw [List.length_drop] at hk'
              omega
            obtain ⟨hfits, refs, ys, lb'', sz'', free', hrest'', hrefs', hfinal⟩ :=
              ih hstate' hcur' hrest' hoff'' hloop
            refine ⟨(fits_round hadvance hpos hk hk').mpr hfits, refs, s.2 ++ ys, lb'', sz'', free',
              ?_, hrefs', by rwa [← List.append_assoc]⟩
            rw [hrefs] at hrest''
            rw [remaining_add cur' off_o' k, increfMembs_append, hincref, Option.bind_some, hrest'']
            rfl

/-- **The loop comes to an end if all that is left fits.** -/
theorem CopyState.exists_copyLoop {lb_old off_o : ℕ} {cur : Lblk} {rest : List Lblk}
    (hstate : CopyState old m lb_new cur_sz items free)
    (hcur : old[lb_old]? = some cur) (hrest : Chain Lblk.next old cur.next rest)
    (hoff : off_o ≤ cur.memb.length)
    (hfits : Fits free (remaining cur off_o rest).length rest)
    (hincref : (increfMembs m.refs (remaining cur off_o rest)).isSome) :
    ∃ fuel m', copyLoop fuel m lb_old off_o lb_new cur_sz = some m' := by
  -- every round copies a member or goes on to the next block
  induction hn : (remaining cur off_o rest).length + rest.length using Nat.strongRecOn
    generalizing m lb_old off_o cur rest lb_new cur_sz items free with
  | ind n ih =>
      obtain ⟨front, last, htail, -⟩ := id hstate
      rcases copyLoop_succ htail.isPrefix hcur hrest hoff with ⟨-, -, hend⟩ |
        ⟨lb_old', cur', off_o', rest', hcur', hrest', hoff', hremaining, hadvance, hround⟩
      · exact ⟨1, m, hend 0⟩
      · rw [← hremaining] at hfits hincref hn
        obtain ⟨-, hfree⟩ := hstate.copyRound_spec hcur' off_o'
        have hpos : 0 < free := by
          rw [Nat.pos_iff_ne_zero]
          rintro rfl
          exact not_fits_zero hadvance hfits
        obtain ⟨k, hk, hk', hpos', -, hsome⟩ := hfree hpos
        have hdrop : off_o' + k ≤ cur'.memb.length := by
          rw [List.length_drop] at hk'
          omega
        have hsplit := remaining_add cur' off_o' k rest'
        rw [hsplit, increfMembs_append] at hincref
        cases hhead : increfMembs m.refs ((cur'.memb.drop off_o').take k) with
        | none =>
            rw [hhead] at hincref
            exact absurd hincref (by simp)
        | some s =>
            obtain ⟨m', lb', sz', hcopy, hrefs, hstate'⟩ := hsome _ _ hhead
            rw [hhead, Option.bind_some, Option.isSome_map, ← hrefs] at hincref
            have hless : (remaining cur' (off_o' + k) rest').length + rest'.length < n := by
              rw [hsplit, List.length_append, List.length_take, Nat.min_eq_left hk'] at hn
              rcases hadvance with ⟨rfl, hne⟩ | ⟨rfl, -⟩
              · have := hpos' hne
                omega
              · rw [List.length_cons] at hn
                omega
            obtain ⟨fuel, m'', hloop⟩ := ih _ hless hstate' hcur' hrest' hdrop
              ((fits_round hadvance hpos hk hk').mp hfits) hincref rfl
            exact ⟨fuel + 1, m'', by rw [hround, hcopy]; exact hloop⟩

/-- A first offset behind the members of the first block keeps the loop there. -/
theorem CopyState.copyLoop_stuck {lb_old off_o : ℕ} {cur : Lblk}
    (htail : Tail old m [] ⟨none, 0, []⟩ lb_new) (hcur : old[lb_old]? = some cur)
    (hoff : cur.memb.length < off_o) (fuel : ℕ) :
    copyLoop fuel m lb_old off_o lb_new 0 = none := by
  have hold := AppendStore.getElem?_mono htail.isPrefix hcur
  have hdrop : cur.memb.drop off_o = [] := List.drop_eq_nil_of_le (Nat.le_of_lt hoff)
  induction fuel with
  | zero => rfl
  | succ fuel ih =>
      simp only [copyLoop, hold, Option.bind_eq_bind, Option.bind_some, if_neg (Nat.ne_of_lt hoff)]
      simp [copyRound, growNew, htail.getElem?, hold, hdrop, copyItems, ih]

end Loop

/-! ### Counters -/

/-- How many members refer to a value. -/
def uses (valp : ℕ) (xs : List SexpMemb) : ℕ := xs.countP fun x => x.s_valp = some valp

/-- Every member has a value, and the counter of the value, which is not zero, has room for the
references that are added. -/
def Counted (refs : ℕ → UInt32) (xs : List SexpMemb) : Prop :=
  ∀ x ∈ xs, ∃ valp, x.s_valp = some valp ∧ 0 < refs valp ∧
    (refs valp).toNat + uses valp xs ≤ 2 ^ 32

/-- A value that a member refers to is used. -/
theorem uses_pos {x : SexpMemb} {xs : List SexpMemb} {valp : ℕ} (hx : x ∈ xs)
    (hvalp : x.s_valp = some valp) : 0 < uses valp xs :=
  List.countP_pos_iff.mpr ⟨x, hx, by simpa using hvalp⟩

/-- One reference more to a value, which has a counter with room for it. -/
theorem toNat_incref {n : UInt32} (h : 0 < n + 1) : (n + 1).toNat = n.toNat + 1 := by
  rw [UInt32.lt_iff_toNat_lt, UInt32.toNat_add] at h
  rw [UInt32.toNat_add]
  have hone : (1 : UInt32).toNat = 1 := rfl
  have hzero : (0 : UInt32).toNat = 0 := rfl
  have hlt := n.toNat_lt
  rw [hone] at h ⊢
  rw [hzero] at h
  omega

/-- One reference more, which there is room for. -/
theorem toNat_add_one {n : UInt32} (h : n.toNat + 1 < 2 ^ 32) : (n + 1).toNat = n.toNat + 1 := by
  rw [UInt32.toNat_add]
  exact Nat.mod_eq_of_lt h

/-- The counters have room for the first member and for the others. -/
theorem counted_cons_iff {refs : ℕ → UInt32} {s_type valp : ℕ} {xs : List SexpMemb} :
    Counted refs (⟨s_type, some valp⟩ :: xs) ↔
      0 < refs valp ∧ Counted (Function.update refs valp (refs valp + 1)) xs := by
  have huses : ∀ p, uses p (⟨s_type, some valp⟩ :: xs) = uses p xs + if valp = p then 1 else 0 := by
    intro p
    rw [uses, List.countP_cons]
    simp [uses]
  constructor
  · intro h
    obtain ⟨p, hp, hpos, hroom⟩ := h _ (List.mem_cons_self ..)
    obtain rfl := Option.some.inj hp
    refine ⟨hpos, fun x hx => ?_⟩
    obtain ⟨q, hq, hqpos, hqroom⟩ := h x (List.mem_cons_of_mem _ hx)
    have hused := uses_pos hx hq
    refine ⟨q, hq, ?_⟩
    rw [huses] at hqroom
    by_cases heq : valp = q
    · subst heq
      rw [if_pos rfl] at hqroom
      have hadd := toNat_add_one (n := refs valp) (by omega)
      rw [Function.update_self, UInt32.lt_iff_toNat_lt, hadd]
      exact ⟨Nat.succ_pos _, by omega⟩
    · rw [if_neg heq] at hqroom
      rw [Function.update_of_ne (Ne.symm heq)]
      exact ⟨hqpos, hqroom⟩
  · rintro ⟨hpos, h⟩
    have hvalue : (refs valp).toNat + (uses valp xs + 1) ≤ 2 ^ 32 := by
      rcases Nat.eq_zero_or_pos (uses valp xs) with hzero | hused
      · have := (refs valp).toNat_lt
        omega
      · obtain ⟨y, hy, hyvalp⟩ := List.countP_pos_iff.mp hused
        obtain ⟨q, hq, hqpos, hqroom⟩ := h y hy
        obtain rfl : valp = q := Option.some.inj ((of_decide_eq_true hyvalp).symm.trans hq)
        rw [Function.update_self] at hqpos hqroom
        rw [toNat_incref hqpos] at hqroom
        omega
    refine List.forall_mem_cons.mpr ⟨⟨valp, rfl, hpos, by rwa [huses, if_pos rfl]⟩, fun x hx => ?_⟩
    obtain ⟨q, hq, hqpos, hqroom⟩ := h x hx
    refine ⟨q, hq, ?_⟩
    rw [huses]
    by_cases heq : valp = q
    · subst heq
      exact ⟨hpos, by rwa [if_pos rfl]⟩
    · rw [Function.update_of_ne (Ne.symm heq)] at hqpos hqroom
      exact ⟨hqpos, by rwa [if_neg heq]⟩

/-- The references are the members themselves if the counters have room for them. -/
theorem increfMembs_self_iff (refs : ℕ → UInt32) (xs : List SexpMemb) :
    (∃ refs', increfMembs refs xs = some (refs', xs)) ↔ Counted refs xs := by
  induction xs generalizing refs with
  | nil => exact iff_of_true ⟨refs, rfl⟩ (by simp [Counted])
  | cons x xs ih =>
      obtain ⟨s_type, _ | valp⟩ := x
      · refine iff_of_false ?_ ?_
        · rintro ⟨refs', h⟩
          exact absurd h (by simp [increfMembs, rawvalIncref])
        · intro h
          obtain ⟨valp, hvalp, -⟩ := h _ (List.mem_cons_self ..)
          exact absurd hvalp (by simp)
      · rw [counted_cons_iff, ← ih, increfMembs, rawvalIncref]
        simp only [Option.bind_eq_bind, Option.bind_some]
        constructor
        · rintro ⟨refs', h⟩
          obtain ⟨r, hr, h⟩ := Option.bind_eq_some_iff.mp h
          obtain ⟨rfl, hmemb⟩ := Prod.mk.inj (Option.some.inj h)
          obtain ⟨hhead, htail⟩ := List.cons.inj hmemb
          have hpos : 0 < refs valp := by
            by_contra hzero
            rw [if_neg hzero] at hhead
            exact absurd (congrArg SexpMemb.s_valp hhead) (by simp)
          exact ⟨hpos, r.1, by rw [hr, ← htail]⟩
        · rintro ⟨hpos, refs', h⟩
          exact ⟨refs', by rw [h, if_pos hpos]; rfl⟩

/-! ### Lists -/

/-- A list in memory, with its blocks. -/
structure SexpListValue (m : Memory) where
  list : SexpValList
  blocks : List Lblk
  /-- The blocks are those from the first one on. -/
  chain : Chain Lblk.next m.blocks list.b_addr blocks

/-- The members of a list, those in front of the offset apart. -/
def SexpListValue.members {m : Memory} (v : SexpListValue m) : List SexpMemb :=
  (v.blocks.flatMap Lblk.memb).drop v.list.offset

/-- The copy of a list comes to an end. It has the same members, in blocks whose sizes are kept
in four bits and that have no more members than that; the blocks of the list are the same as
before. -/
def SexpListValue.CopiedFaithfully {m : Memory} (v : SexpListValue m) : Prop :=
  ∃ (fuel : ℕ) (m' : Memory) (copy : SexpListValue m'),
    listCopy fuel m v.list = some (m', copy.list) ∧ copy.members = v.members ∧
    (∀ b ∈ copy.blocks, b.sz < 16 ∧ b.memb.length ≤ 2 ^ b.sz) ∧
    Chain Lblk.next m'.blocks v.list.b_addr v.blocks

/-- The lists whose copy is faithful: the offset is not behind the first block, there are at
most 65535 members, and if there are so many, then the last block is not empty; and the counters
of the values have room for the new references. -/
def SexpListValue.Copyable {m : Memory} (v : SexpListValue m) : Prop :=
  v.blocks = [] ∨
    (∀ b ∈ v.blocks.head?, v.list.offset ≤ b.memb.length) ∧
    Fits 65535 v.members.length v.blocks ∧ Counted m.refs v.members

/-- The first block of a list that is built. -/
theorem tail_start (m : Memory) {sz : ℕ} (hsz : sz < 16) :
    lblkNew m sz = some (⟨m.blocks ++ [⟨none, sz, []⟩], m.refs⟩, m.blocks.length) ∧
      Tail m.blocks ⟨m.blocks ++ [⟨none, sz, []⟩], m.refs⟩ [] ⟨none, sz, []⟩ m.blocks.length := by
  refine ⟨by rw [lblkNew, if_pos hsz], by rw [List.append_nil], by rw [List.append_nil],
    ⟨by simp, rfl⟩, ?_⟩
  intro b hb
  obtain rfl := List.mem_singleton.1 hb
  exact ⟨hsz, Nat.zero_le _⟩

/-- The members of a list whose offset is in the first block. -/
theorem members_eq_remaining {off_o : ℕ} {cur : Lblk} (hoff : off_o ≤ cur.memb.length)
    (rest : List Lblk) :
    ((cur :: rest).flatMap Lblk.memb).drop off_o = remaining cur off_o rest := by
  rw [List.flatMap_cons, List.drop_append_of_le_length hoff, remaining]

/-- All the room there is in a copy is not none. -/
theorem fits_cons_iff {n free : ℕ} {cur : Lblk} {off_o : ℕ} {rest : List Lblk} (hfree : 0 < free)
    (hn : n = (remaining cur off_o rest).length) :
    Fits free n (cur :: rest) ↔ Fits free n rest := by
  cases rest with
  | nil =>
      have hne : n = free → cur.memb ≠ [] := by
        rintro rfl hnil
        rw [hn, remaining, hnil] at hfree
        simp at hfree
      constructor
      · rintro (hlt | ⟨heq, -⟩)
        · exact .inl hlt
        · exact .inr ⟨heq, by simp⟩
      · rintro (hlt | ⟨heq, -⟩)
        · exact .inl hlt
        · refine .inr ⟨heq, fun b hb => ?_⟩
          obtain rfl := Option.some.inj hb
          exact hne heq
  | cons b rest => rw [Fits, Fits, List.getLast?_cons_cons]

/-- The blocks of a copy, which are those of a list. -/
theorem CopyState.exists_value {m m' : Memory} {lb sz free : ℕ} {ys : List SexpMemb}
    (h : CopyState m.blocks m' lb sz ys free) :
    ∃ blocks, Chain Lblk.next m'.blocks (some m.blocks.length) blocks ∧
      blocks.flatMap Lblk.memb = ys ∧ (∀ b ∈ blocks, b.sz < 16 ∧ b.memb.length ≤ 2 ^ b.sz) ∧
      m.blocks <+: m'.blocks := by
  obtain ⟨front, last, htail, -, hitems, -⟩ := h
  refine ⟨front ++ [last], ?_, hitems, htail.sizes, htail.isPrefix⟩
  rw [htail.blocks]
  exact htail.row.chain

/-- **What a copy that comes to an end has**: the references to the members, which did fit. -/
theorem listCopy_spec {m : Memory} (v : SexpListValue m) {fuel : ℕ} {m' : Memory}
    {list : SexpValList} (hne : v.blocks ≠ []) (hcopy : listCopy fuel m v.list = some (m', list)) :
    (∀ b ∈ v.blocks.head?, v.list.offset ≤ b.memb.length) ∧
      Fits 65535 v.members.length v.blocks ∧
      ∃ refs ys lb sz free, increfMembs m.refs v.members = some (refs, ys) ∧
        list = ⟨some m.blocks.length, 0⟩ ∧ CopyState m.blocks m' lb sz ys free := by
  obtain ⟨⟨b_addr, offset⟩, blocks, hchain⟩ := v
  cases hchain with
  | nil => exact absurd rfl hne
  | @cons place cur rest hcur hrest =>
      obtain ⟨hnew, htail⟩ := tail_start m (Nat.succ_pos 15)
      rw [listCopy, lblkCopy] at hcopy
      simp only [hnew, Option.bind_eq_bind, Option.bind_some] at hcopy
      obtain ⟨r, hr, hend⟩ := Option.bind_eq_some_iff.mp hcopy
      obtain ⟨m'', hloop, hhead⟩ := Option.bind_eq_some_iff.mp hr
      obtain rfl := Option.some.inj hhead
      obtain ⟨rfl, rfl⟩ := Prod.mk.inj (Option.some.inj hend)
      rcases Nat.lt_or_ge cur.memb.length offset with hlt | hoff
      · rw [CopyState.copyLoop_stuck htail hcur hlt] at hloop
        exact absurd hloop (by simp)
      · have hmembers := members_eq_remaining hoff rest
        have hstate : CopyState m.blocks _ m.blocks.length 0 [] 65535 :=
          ⟨[], _, htail, rfl, rfl, rfl⟩
        obtain ⟨hfits, refs, ys, lb, sz, free, hincref, hrefs, hfinal⟩ :=
          hstate.copyLoop_spec hcur hrest hoff hloop
        rw [SexpListValue.members, hmembers]
        refine ⟨fun b hb => ?_, (fits_cons_iff (by decide) rfl).mpr hfits, refs, ys, lb, sz, free,
          hincref, rfl, hfinal⟩
        obtain rfl := Option.some.inj hb
        exact hoff

/-- **A copy comes to an end if the members fit.** -/
theorem exists_listCopy {m : Memory} (v : SexpListValue m) (hne : v.blocks ≠ [])
    (hoffset : ∀ b ∈ v.blocks.head?, v.list.offset ≤ b.memb.length)
    (hfits : Fits 65535 v.members.length v.blocks)
    (hincref : (increfMembs m.refs v.members).isSome) :
    ∃ fuel m' list, listCopy fuel m v.list = some (m', list) := by
  obtain ⟨⟨b_addr, offset⟩, blocks, hchain⟩ := v
  cases hchain with
  | nil => exact absurd rfl hne
  | @cons place cur rest hcur hrest =>
      obtain ⟨hnew, htail⟩ := tail_start m (Nat.succ_pos 15)
      have hoff := hoffset cur rfl
      have hmembers := members_eq_remaining hoff rest
      rw [SexpListValue.members, hmembers] at hfits hincref
      have hstate : CopyState m.blocks _ m.blocks.length 0 [] 65535 :=
        ⟨[], _, htail, rfl, rfl, rfl⟩
      obtain ⟨fuel, m', hloop⟩ := hstate.exists_copyLoop hcur hrest hoff
        ((fits_cons_iff (by decide) rfl).mp hfits) hincref
      refine ⟨fuel, m', ⟨some m.blocks.length, 0⟩, ?_⟩
      rw [listCopy, lblkCopy]
      simp only [hnew, Option.bind_eq_bind, Option.bind_some, hloop]

/-- A list with a copy has no more members than the blocks of all the sizes have room for. -/
theorem SexpListValue.CopiedFaithfully.length_le {m : Memory} {v : SexpListValue m}
    (h : v.CopiedFaithfully) : v.members.length ≤ 65535 := by
  by_cases hne : v.blocks = []
  · rw [SexpListValue.members, hne, List.flatMap_nil, List.drop_nil]
    exact Nat.zero_le _
  · obtain ⟨fuel, m', copy, hcopy, -⟩ := h
    obtain ⟨-, hlt | ⟨heq, -⟩, -⟩ := listCopy_spec v hne hcopy
    · exact Nat.le_of_lt hlt
    · exact Nat.le_of_eq heq

/-- **There is a list of any members**, whose values have counters with room for them. -/
theorem exists_listOf (m : Memory) {xs : List SexpMemb} (h : Counted m.refs xs) :
    ∃ m' lb_head lb_last, listOf m xs = some (m', lb_head, lb_last) ∧
      ∃ v : SexpListValue m', v.list = ⟨some lb_head, 0⟩ ∧ v.members = xs := by
  obtain ⟨refs, hincref⟩ := (increfMembs_self_iff ..).mpr h
  obtain ⟨hnew, htail⟩ := tail_start m (show 1 < 16 by decide)
  obtain ⟨m', front, last, lb, happend, htail', hitems⟩ := htail.appendMembs_spec hincref
  have hchain := htail'.row.chain
  rw [← htail'.blocks] at hchain
  refine ⟨m', m.blocks.length, lb, ?_, ⟨⟨some m.blocks.length, 0⟩, front ++ [last], hchain⟩, rfl,
    ?_⟩
  · rw [listOf]
    simp only [hnew, Option.bind_eq_bind, Option.bind_some, happend]
  · exact hitems

/-- **A copy is faithful exactly for the lists that are copyable.** -/
theorem listCopy_faithful_iff {m : Memory} (v : SexpListValue m) :
    v.CopiedFaithfully ↔ v.Copyable := by
  by_cases hne : v.blocks = []
  · refine iff_of_true ?_ (.inl hne)
    have hnone := v.chain.nil_iff.mp hne
    have hnil : v.members = [] := by rw [SexpListValue.members, hne]; exact List.drop_nil
    exact ⟨0, m, ⟨⟨none, 0⟩, [], .nil⟩, by rw [listCopy, hnone]; rfl, hnil.symm,
      by simp, v.chain⟩
  · constructor
    · rintro ⟨fuel, m', copy, hcopy, hmembers, -⟩
      obtain ⟨hoffset, hfits, refs, ys, lb, sz, free, hincref, hlist, hstate⟩ :=
        listCopy_spec v hne hcopy
      obtain ⟨blocks, hchain, hys, -⟩ := hstate.exists_value
      have hblocks : copy.blocks = blocks := by
        have := copy.chain
        rw [hlist] at this
        exact this.unique hchain
      have hself : ys = v.members := by
        rw [← hmembers, SexpListValue.members, hblocks, hys, hlist]
        rfl
      rw [hself] at hincref
      exact .inr ⟨hoffset, hfits, (increfMembs_self_iff ..).mp ⟨refs, hincref⟩⟩
    · rintro (hnil | ⟨hoffset, hfits, hcounted⟩)
      · exact absurd hnil hne
      · obtain ⟨refs, hincref⟩ := (increfMembs_self_iff ..).mpr hcounted
        obtain ⟨fuel, m', list, hcopy⟩ :=
          exists_listCopy v hne hoffset hfits (by rw [hincref]; rfl)
        obtain ⟨-, -, refs', ys, lb, sz, free, hincref', rfl, hstate⟩ := listCopy_spec v hne hcopy
        obtain ⟨-, rfl⟩ := Prod.mk.inj (Option.some.inj (hincref.symm.trans hincref'))
        obtain ⟨blocks, hchain, hys, hsizes, hgrown⟩ := hstate.exists_value
        exact ⟨fuel, m', ⟨⟨some m.blocks.length, 0⟩, blocks, hchain⟩, hcopy, hys, hsizes,
          v.chain.mono hgrown⟩

/-- A list of 65536 members is built, and has no faithful copy. -/
theorem not_listCopy_faithful :
    ∃ m lb_head lb_last,
      listOf ⟨[], fun _ => 1⟩ (List.replicate 65536 ⟨0, some 0⟩) = some (m, lb_head, lb_last) ∧
        ∃ v : SexpListValue m, v.list = ⟨some lb_head, 0⟩ ∧ ¬ v.CopiedFaithfully := by
  have hcounted : Counted (fun _ => 1) (List.replicate 65536 (⟨0, some 0⟩ : SexpMemb)) := by
    intro x hx
    obtain rfl := List.eq_of_mem_replicate hx
    refine ⟨0, rfl, by decide, ?_⟩
    rw [uses, List.countP_replicate]
    decide
  obtain ⟨m, lb_head, lb_last, hlist, v, hv, hmembers⟩ :=
    exists_listOf ⟨[], fun _ => 1⟩ hcounted
  refine ⟨m, lb_head, lb_last, hlist, v, hv, fun hcopy => ?_⟩
  have hle := hcopy.length_le
  rw [hmembers, List.length_replicate] at hle
  exact absurd hle (by decide)

end OpenScap.SexpList
