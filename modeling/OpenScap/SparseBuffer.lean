import Mathlib.Data.List.Basic
import Mathlib.Data.Nat.Notation
import Mathlib.Data.Int.Notation
import OpenScap.BinarySearch
import OpenScap.Pieces
import OpenScap.Sexp

/-!
# The sparse buffer

A buffer of the parser is a row of pieces of memory. Each piece has the place of its last byte in
the row, and a place of the row is found by a search among them. The search keeps the size of the
row in 32 bits.

## Main results

* `spbBindex_spec` — where a place of the row is found;
* `spbPickCb_spec`, `spbOctet_spec`, `spbDirect_spec` — what is read;
* `Shows.add`, `Shows.dropHead` — the pieces after a call;
* `sparse_buffer_right` — what is read after any calls.
-/

namespace OpenScap.SparseBuffer

open Pieces

/-! ### The buffer -/

/-- A piece: the memory from `base` on, and the place of its last byte in the row. -/
structure SpbItem where
  base : List UInt8
  gend : UInt64
deriving DecidableEq

/-- A sparse buffer: the slots that are used, and the number of slots. -/
structure Spb where
  buffer : List SpbItem
  balloc : ℕ
deriving DecidableEq

/-- The number of slots that are used. -/
def Spb.btotal (spb : Spb) : ℕ := spb.buffer.length

/-- `SPB_DEFAULT_BALLOC`. -/
def spbDefaultBalloc : ℕ := 32

/-- `SPB_BALLOC_HIGHTRESH`. -/
def spbBallocHightresh : ℕ := 512

/-- `SPB_BALLOC_ADD`. -/
def spbBallocAdd : ℕ := 32

/-- `spb_new`; no buffer is the NULL pointer. -/
def spbNew (buffer : Option (List UInt8)) (balloc : UInt32) : Spb where
  balloc := if balloc = 0 then spbDefaultBalloc else balloc.toNat
  buffer :=
    match buffer with
    | some base => if base.length > 0 then [⟨base, UInt64.ofNat (base.length - 1)⟩] else []
    | none => []

/-- `spb_size`. -/
def spbSize (spb : Spb) : UInt64 :=
  match spb.buffer.getLast? with
  | some item => item.gend + 1
  | none => 0

/-- The loop of `spb_bindex`; no result is a slot that is read and not used. -/
def bindexLoop (buffer : List SpbItem) (idx : UInt64) : ℕ → ℕ → ℕ → Option ℕ
  | 0, _, s => some s
  | fuel + 1, w, s =>
      if w = 0 then some s
      else
        match buffer[s + w / 2]? with
        | none => none
        | some item =>
            if idx > item.gend then bindexLoop buffer idx fuel (w - w / 2 - 1) (s + w / 2 + 1)
            else bindexLoop buffer idx fuel (w / 2) s

/-- `spb_bindex`; the size is kept in the `uint32_t` of the result. -/
def spbBindex (spb : Spb) (idx : UInt64) : Option ℕ :=
  let s := (spbSize spb).toUInt32
  if idx < s.toUInt64 then bindexLoop spb.buffer idx spb.btotal spb.btotal 0
  else some spb.btotal

/-- The new number of slots, in the `uint32_t` of `balloc`. -/
def growBalloc (balloc : ℕ) : ℕ :=
  if balloc < spbBallocHightresh then balloc * 2 % 2 ^ 32 else (balloc + spbBallocAdd) % 2 ^ 32

/-- `spb_add`; no result is a write behind the slots. -/
def spbAdd (spb : Spb) (base : List UInt8) : Option Spb :=
  let balloc := if spb.btotal ≥ spb.balloc then growBalloc spb.balloc else spb.balloc
  let gend :=
    match spb.buffer.getLast? with
    | some item => item.gend + UInt64.ofNat base.length
    | none => UInt64.ofNat base.length - 1
  if spb.btotal < balloc then some ⟨spb.buffer ++ [⟨base, gend⟩], balloc⟩ else none

/-- `memcpy` from a piece; no result is a read behind it. -/
def readMem (base : List UInt8) (off len : ℕ) : Option (List UInt8) :=
  if off + len ≤ base.length then some ((base.drop off).take len) else none

/-- The offset in the piece. -/
def localOffset (spb : Spb) (b_idx : ℕ) (start : UInt64) : Option UInt64 :=
  if b_idx > 0 then (spb.buffer[b_idx - 1]?).map fun prev => start - prev.gend - 1
  else some start

/-- The length of the piece behind the offset. -/
def localLength (spb : Spb) (b_idx : ℕ) (item : SpbItem) (l_off : UInt64) : Option UInt64 :=
  if b_idx > 0 then (spb.buffer[b_idx - 1]?).map fun prev => item.gend - prev.gend - l_off
  else some (item.gend + 1 - l_off)

/-- What `spb_pick` and `spb_pick_cb` leave: the value they return, the `errno` that is set, and
what came of the bytes. -/
structure Picked (κ : Type) where
  ret : ℤ
  errno : Option Errno
  cbarg : κ
deriving DecidableEq

/-- The loop of `spb_pick` and of `spb_pick_cb` on the pieces behind one that ends at `gend`. -/
def pickLoop {κ : Type} (cb : κ → List UInt8 → κ) :
    List SpbItem → UInt64 → UInt64 → κ → Option (UInt64 × κ)
  | [], _, size, cbarg => some (size, cbarg)
  | item :: items, gend, size, cbarg =>
      if size > 0 then
        let l_len := item.gend - gend
        let l_len := if size < l_len then size else l_len
        match readMem item.base 0 l_len.toNat with
        | none => none
        | some src => pickLoop cb items item.gend (size - l_len) (cb cbarg src)
      else some (size, cbarg)

/-- `spb_pick_cb`. -/
def spbPickCb {κ : Type} (spb : Spb) (start size : UInt64) (cb : κ → List UInt8 → κ)
    (cbarg : κ) : Option (Picked κ) := do
  let b_idx ← spbBindex spb start
  match spb.buffer[b_idx]? with
  | none => some ⟨-1, some .erange, cbarg⟩
  | some item =>
      let l_off ← localOffset spb b_idx start
      let l_len ← localLength spb b_idx item l_off
      let l_len := if size < l_len then size else l_len
      let src ← readMem item.base l_off.toNat l_len.toNat
      let (size, cbarg) ←
        pickLoop cb (spb.buffer.drop (b_idx + 1)) item.gend (size - l_len) (cb cbarg src)
      some ⟨if size > 0 then 1 else 0, none, cbarg⟩

/-- `spb_pick`: the bytes are copied one piece behind the other. -/
def spbPick (spb : Spb) (start size : UInt64) : Option (Picked (List UInt8)) :=
  spbPickCb spb start size (fun dst src => dst ++ src) []

/-- `spb_drop_head`, with the size of what was removed. -/
def spbDropHead (spb : Spb) (size : UInt64) : Option (UInt64 × Spb) := do
  let b_idx ← spbBindex spb size
  if b_idx > 0 then
    if b_idx ≥ spb.btotal then
      let item ← spb.buffer.getLast?
      some (item.gend + 1, ⟨[], spbDefaultBalloc⟩)
    else
      let item ← spb.buffer[b_idx - 1]?
      let e_sub := item.gend + 1
      let buffer := spb.buffer.drop b_idx
      let balloc := if spb.balloc / 2 > buffer.length then spb.balloc / 2 else spb.balloc
      some (e_sub, ⟨buffer.map fun item => { item with gend := item.gend - e_sub }, balloc⟩)
  else some (0, spb)

/-- `spb_octet`, with the `errno` that is set. -/
def spbOctet (spb : Spb) (idx : UInt64) : Option (UInt8 × Option Errno) := do
  let b_idx ← spbBindex spb idx
  match spb.buffer[b_idx]? with
  | none => some (-1, some .erange)
  | some item =>
      let l_off ← localOffset spb b_idx idx
      let octet ← item.base[l_off.toNat]?
      some (octet, none)

/-- `spb_direct`: the bytes from the pointer to the end of the piece, or NULL, with the `errno`
that is set. -/
def spbDirect (spb : Spb) (start size : UInt64) : Option (Option (List UInt8) × Option Errno) := do
  let b_idx ← spbBindex spb start
  match spb.buffer[b_idx]? with
  | none => some (none, some .erange)
  | some item =>
      if start + size - 1 ≤ item.gend then
        let l_off ← localOffset spb b_idx start
        some (some (item.base.drop l_off.toNat), none)
      else some (none, none)

/-! ### Calls -/

/-- A call that changes the buffer. -/
inductive SpbCall
  | add (piece : List UInt8) (nonempty : piece ≠ [])
  | dropHead (size : UInt64)

/-- One call. -/
def spbStep (spb : Spb) : SpbCall → Option Spb
  | .add piece _ => spbAdd spb piece
  | .dropHead size => (spbDropHead spb size).map Prod.snd

/-- Calls one after another. -/
def spbRun (spb : Spb) (calls : List SpbCall) : Option Spb := calls.foldlM spbStep spb

/-- The pieces after a call. -/
def piecesStep (pieces : List (List UInt8)) : SpbCall → List (List UInt8)
  | .add piece _ => pieces ++ [piece]
  | .dropHead size => dropCovered pieces size.toNat

/-- The pieces after calls. -/
def piecesRun (pieces : List (List UInt8)) (calls : List SpbCall) : List (List UInt8) :=
  calls.foldl piecesStep pieces

/-! ### The pieces that a buffer shows -/

/-- The slots of pieces from a place on. -/
def itemsFrom : ℕ → List (List UInt8) → List SpbItem
  | _, [] => []
  | o, p :: ps => ⟨p, UInt64.ofNat (o + p.length - 1)⟩ :: itemsFrom (o + p.length) ps

/-- **The buffer shows pieces**: each slot has its piece and the place where it ends. -/
structure Shows (spb : Spb) (pieces : List (List UInt8)) : Prop where
  buffer : spb.buffer = itemsFrom 0 pieces
  nonempty : ∀ p ∈ pieces, p ≠ []
  total : pieces.flatten.length < 2 ^ 64
  btotal_le : pieces.length ≤ spb.balloc
  balloc_lt : spb.balloc < 2 ^ 32
  balloc_pos : 0 < spb.balloc

/-- A slot for each piece. -/
@[simp]
theorem length_itemsFrom (o : ℕ) (ps : List (List UInt8)) :
    (itemsFrom o ps).length = ps.length := by
  induction ps generalizing o with
  | nil => rfl
  | cons p ps ih => rw [itemsFrom, List.length_cons, ih, List.length_cons]

/-- A slot has its piece and the place where it ends. -/
theorem itemsFrom_getElem? (o : ℕ) (ps : List (List UInt8)) (k : ℕ) :
    (itemsFrom o ps)[k]? =
      ps[k]?.map fun p => ⟨p, UInt64.ofNat (o + offset ps (k + 1) - 1)⟩ := by
  induction ps generalizing o k with
  | nil => rfl
  | cons p ps ih =>
      cases k with
      | zero =>
          rw [offset_cons_succ, offset_zero]
          rfl
      | succ k =>
          rw [itemsFrom, List.getElem?_cons_succ, ih, List.getElem?_cons_succ,
            offset_cons_succ p ps (k + 1), Nat.add_assoc]

/-- The slots of pieces behind others. -/
theorem itemsFrom_append (o : ℕ) (ps qs : List (List UInt8)) :
    itemsFrom o (ps ++ qs) = itemsFrom o ps ++ itemsFrom (o + ps.flatten.length) qs := by
  induction ps generalizing o with
  | nil => rfl
  | cons p ps ih =>
      rw [List.cons_append, itemsFrom, ih, List.flatten_cons, List.length_append, ← Nat.add_assoc]
      rfl

/-- The slots behind the first ones. -/
theorem itemsFrom_drop (o : ℕ) (ps : List (List UInt8)) (k : ℕ) :
    (itemsFrom o ps).drop k = itemsFrom (o + offset ps k) (ps.drop k) := by
  induction ps generalizing o k with
  | nil => rw [List.drop_nil]; simp [itemsFrom]
  | cons p ps ih =>
      cases k with
      | zero => rfl
      | succ k =>
          rw [itemsFrom, List.drop_succ_cons, ih, List.drop_succ_cons, offset_cons_succ,
            Nat.add_assoc]

/-- The slots when what is in front of them is taken away. -/
theorem itemsFrom_rebase (o e : ℕ) {ps : List (List UInt8)} (h : ∀ p ∈ ps, p ≠ []) :
    ((itemsFrom (o + e) ps).map fun item =>
      { item with gend := item.gend - UInt64.ofNat e }) = itemsFrom o ps := by
  induction ps generalizing o with
  | nil => rfl
  | cons p ps ih =>
      have hpos := List.length_pos_iff.mpr (h p List.mem_cons_self)
      have hend : o + p.length + e - 1 = o + p.length - 1 + e := by omega
      have hnext : o + e + p.length = o + p.length + e := by omega
      rw [itemsFrom, List.map_cons, hnext, ih _ fun q hq => h q (List.mem_cons_of_mem _ hq),
        itemsFrom]
      simp only [hend, UInt64.ofNat_add, UInt64.add_sub_cancel]

/-! ### Where a place is found -/

/-- The comparison in the search. -/
def bindexCmp (buffer : List SpbItem) (idx : UInt64) (i : ℕ) : ℤ :=
  match buffer[i]? with
  | some item => if item.gend < idx then 1 else -1
  | none => -1

/-- The slot that the search tells. -/
def slotOf : ℕ ⊕ ℕ → ℕ
  | .inl i => i
  | .inr i => i

/-- The loop is the search. -/
theorem bindexLoop_eq (buffer : List SpbItem) (idx : UInt64) {fuel w s : ℕ}
    (h : s + w ≤ buffer.length) :
    bindexLoop buffer idx fuel w s =
      some (slotOf (BinarySearch.search (bindexCmp buffer idx) fuel w s)) := by
  induction fuel generalizing w s with
  | zero => rfl
  | succ fuel ih =>
      rw [bindexLoop, BinarySearch.search]
      by_cases hw : w = 0
      · rw [if_pos hw, if_pos hw]
        rfl
      · have hslot : buffer[s + w / 2]? = some buffer[s + w / 2] :=
          List.getElem?_eq_getElem (by omega)
        rw [if_neg hw, if_neg hw, bindexCmp, hslot]
        by_cases hlt : buffer[s + w / 2].gend < idx
        · simp only [gt_iff_lt, hlt, if_true, Int.zero_lt_one]
          exact ih (by omega)
        · simp only [gt_iff_lt, hlt, if_false, show ¬ (0 : ℤ) < -1 by decide,
            show (-1 : ℤ) < 0 by decide, if_true]
          exact ih (by omega)

/-- A slot of the buffer. -/
theorem Shows.getElem? {spb : Spb} {pieces : List (List UInt8)} (h : Shows spb pieces) (k : ℕ) :
    spb.buffer[k]? = pieces[k]?.map fun p => ⟨p, UInt64.ofNat (offset pieces (k + 1) - 1)⟩ := by
  rw [h.buffer, itemsFrom_getElem?, Nat.zero_add]

/-- As many slots as pieces. -/
theorem Shows.btotal {spb : Spb} {pieces : List (List UInt8)} (h : Shows spb pieces) :
    spb.btotal = pieces.length := by
  rw [Spb.btotal, h.buffer, length_itemsFrom]

/-- A place of the row as an integer of 64 bits. -/
theorem Shows.toNat_ofNat {spb : Spb} {pieces : List (List UInt8)} (h : Shows spb pieces) {n : ℕ}
    (hn : n ≤ pieces.flatten.length) : (UInt64.ofNat n).toNat = n :=
  UInt64.toNat_ofNat_of_lt' (Nat.lt_of_le_of_lt hn h.total)

/-- A piece that ends before the place. -/
theorem Shows.offset_pos {spb : Spb} {pieces : List (List UInt8)} (h : Shows spb pieces) {k : ℕ}
    {p : List UInt8} (hp : pieces[k]? = some p) : 0 < offset pieces (k + 1) := by
  have hpos := List.length_pos_iff.mpr (h.nonempty p (List.mem_of_getElem? hp))
  rw [offset_succ hp]
  omega

/-- A slot ends before a place. -/
theorem Shows.gend_lt_iff {spb : Spb} {pieces : List (List UInt8)} (h : Shows spb pieces) {k : ℕ}
    {p : List UInt8} (hp : pieces[k]? = some p) (idx : UInt64) :
    UInt64.ofNat (offset pieces (k + 1) - 1) < idx ↔ offset pieces (k + 1) ≤ idx.toNat := by
  have hle := offset_le pieces (k + 1)
  have hpos := h.offset_pos hp
  rw [UInt64.lt_iff_toNat_lt, h.toNat_ofNat (by omega)]
  omega

/-- The last slot ends where the row does. -/
theorem Shows.gend_getLast {spb : Spb} {pieces : List (List UInt8)} (h : Shows spb pieces)
    {item : SpbItem} (hlast : spb.buffer.getLast? = some item) :
    0 < pieces.flatten.length ∧ item.gend = UInt64.ofNat (pieces.flatten.length - 1) := by
  have hlen : spb.buffer.length = pieces.length := h.btotal
  rw [List.getLast?_eq_getElem?, h.getElem?, hlen] at hlast
  obtain ⟨p, hp, rfl⟩ := Option.map_eq_some_iff.mp hlast
  have hlt := (List.getElem?_eq_some_iff.mp hp).1
  have hpos := h.offset_pos hp
  rw [Nat.sub_add_cancel (by omega), offset_length] at hpos ⊢
  exact ⟨hpos, rfl⟩

/-- There is no last slot only if there is no piece. -/
theorem Shows.eq_nil {spb : Spb} {pieces : List (List UInt8)} (h : Shows spb pieces)
    (hlast : spb.buffer.getLast? = none) : pieces = [] := by
  have hlen : spb.buffer.length = pieces.length := h.btotal
  rw [List.getLast?_eq_none_iff.mp hlast] at hlen
  exact List.length_eq_zero_iff.mp hlen.symm

/-- An integer of 64 bits and one. -/
theorem ofNat_add_one {n : ℕ} (h : 0 < n) : UInt64.ofNat (n - 1) + 1 = UInt64.ofNat n := by
  conv_rhs => rw [← Nat.sub_add_cancel h, UInt64.ofNat_add]
  rfl

/-- **The size is the number of bytes.** -/
theorem Shows.spbSize {spb : Spb} {pieces : List (List UInt8)} (h : Shows spb pieces) :
    spbSize spb = UInt64.ofNat pieces.flatten.length := by
  rw [SparseBuffer.spbSize]
  cases hlast : spb.buffer.getLast? with
  | none =>
      rw [h.eq_nil hlast]
      rfl
  | some item =>
      obtain ⟨hpos, hgend⟩ := h.gend_getLast hlast
      simp only [hgend]
      exact ofNat_add_one hpos

/-- The signs of the comparisons with the slots. -/
theorem Shows.bindexCmp_sign {spb : Spb} {pieces : List (List UInt8)} (h : Shows spb pieces)
    (idx : UInt64) {i : ℕ} (hi : i < pieces.length) :
    (0 < bindexCmp spb.buffer idx i ↔ offset pieces (i + 1) ≤ idx.toNat) ∧
      (bindexCmp spb.buffer idx i < 0 ↔ idx.toNat < offset pieces (i + 1)) := by
  have hp : pieces[i]? = some pieces[i] := List.getElem?_eq_getElem hi
  rw [bindexCmp, h.getElem?, hp]
  simp only [Option.map_some, h.gend_lt_iff hp]
  split <;> constructor <;> constructor <;> intro <;> omega

/-- The search finds the piece where a place lies. -/
theorem Shows.bindexLoop {spb : Spb} {pieces : List (List UInt8)} (h : Shows spb pieces)
    (idx : UInt64) :
    bindexLoop spb.buffer idx pieces.length pieces.length 0 =
      some (locate pieces idx.toNat) := by
  have hright : BinarySearch.Answers (bindexCmp spb.buffer idx) pieces.length
      (BinarySearch.search (bindexCmp spb.buffer idx) pieces.length pieces.length 0) := by
    refine BinarySearch.search_answers ⟨fun i j hij hj hgt => ?_, fun i j hij hj hless => ?_⟩
      (Nat.le_refl _) (by omega) (fun i hi => absurd hi (Nat.not_lt_zero i))
      (fun i hi hin => by omega)
    · rw [(h.bindexCmp_sign idx (by omega)).1] at hgt ⊢
      exact Nat.le_trans (offset_mono pieces (Nat.succ_le_succ hij)) hgt
    · rw [(h.bindexCmp_sign idx (by omega)).2] at hless ⊢
      exact Nat.lt_of_lt_of_le hless (offset_mono pieces (Nat.succ_le_succ hij))
  rw [bindexLoop_eq _ _ (by rw [Nat.zero_add]; exact Nat.le_of_eq h.btotal.symm)]
  cases hsearch : BinarySearch.search (bindexCmp spb.buffer idx) pieces.length
    pieces.length 0 with
  | inl i =>
      rw [hsearch] at hright
      obtain ⟨hi, hzero⟩ := hright
      have hsign := h.bindexCmp_sign idx hi
      omega
  | inr d =>
      rw [hsearch] at hright
      obtain ⟨hd, hfront, hback⟩ := hright
      refine congrArg some (locate_unique hd (fun j hj => ?_) fun hd => ?_).symm
      · exact (h.bindexCmp_sign idx (by omega)).1.mp (hfront j hj)
      · exact (h.bindexCmp_sign idx hd).2.mp (hback d (Nat.le_refl d) hd)

/-- A place that the search finds although the size is kept in 32 bits, or that lies behind the
row. -/
def Located (total idx : ℕ) : Prop := idx < total % 2 ^ 32 ∨ total ≤ idx

/-- The size in 32 bits. -/
theorem toNat_spbSize {spb : Spb} {pieces : List (List UInt8)} (h : Shows spb pieces) :
    (spbSize spb).toUInt32.toUInt64.toNat = pieces.flatten.length % 2 ^ 32 := by
  rw [UInt32.toNat_toUInt64, UInt64.toNat_toUInt32, h.spbSize, h.toNat_ofNat (Nat.le_refl _)]

/-- **Where a place is found**: in the piece where it lies. -/
theorem spbBindex_spec {spb : Spb} {pieces : List (List UInt8)} (h : Shows spb pieces)
    {idx : UInt64} (hidx : Located pieces.flatten.length idx.toNat) :
    spbBindex spb idx = some (locate pieces idx.toNat) := by
  rw [spbBindex]
  simp only [UInt64.lt_iff_toNat_lt, toNat_spbSize h, h.btotal]
  rcases hidx with hlt | hge
  · rw [if_pos hlt, h.bindexLoop]
  · have hmod := Nat.mod_le pieces.flatten.length (2 ^ 32)
    rw [if_neg (by omega), locate_of_le hge]

/-! ### What is read -/

/-- A read inside of a piece. -/
theorem readMem_of_le {base : List UInt8} {off len : ℕ} (h : off + len ≤ base.length) :
    readMem base off len = some ((base.drop off).take len) := if_pos h

/-- A difference of integers of 64 bits. -/
theorem ofNat_sub_eq {a b c : ℕ} (h : a = b + c) :
    UInt64.ofNat a - UInt64.ofNat b = UInt64.ofNat c := by
  rw [h, Nat.add_comm, UInt64.ofNat_add, UInt64.add_sub_cancel]

/-- A place of the row in its piece: at which offset, and with how much behind it. -/
theorem Shows.inPiece {spb : Spb} {pieces : List (List UInt8)} (h : Shows spb pieces)
    {start : UInt64} (hlt : start.toNat < pieces.flatten.length) :
    ∃ p d, pieces[locate pieces start.toNat]? = some p ∧ d < p.length ∧
      start.toNat = offset pieces (locate pieces start.toNat) + d ∧
      pieces.flatten.drop start.toNat =
        p.drop d ++ (pieces.drop (locate pieces start.toNat + 1)).flatten ∧
      localOffset spb (locate pieces start.toNat) start = some (UInt64.ofNat d) ∧
      localLength spb (locate pieces start.toNat)
        ⟨p, UInt64.ofNat (offset pieces (locate pieces start.toNat + 1) - 1)⟩
        (UInt64.ofNat d) = some (UInt64.ofNat (p.length - d)) := by
  obtain ⟨p, hp, hle, hd, hdrop⟩ := drop_eq hlt
  generalize locate pieces start.toNat = k at hp hle hd hdrop ⊢
  have hstart : start = UInt64.ofNat start.toNat := UInt64.ofNat_toNat.symm
  have hnext := offset_succ hp
  refine ⟨p, start.toNat - offset pieces k, hp, hd, by omega, hdrop, ?_, ?_⟩
  · rw [localOffset]
    cases k with
    | zero =>
        rw [if_neg (Nat.lt_irrefl 0), offset_zero, Nat.sub_zero, UInt64.ofNat_toNat]
    | succ k =>
        have hk : k < pieces.length := Nat.lt_of_succ_lt (List.getElem?_eq_some_iff.mp hp).1
        have hq : pieces[k]? = some pieces[k] := List.getElem?_eq_getElem hk
        have hpos := h.offset_pos hq
        rw [if_pos (Nat.zero_lt_succ k), Nat.add_sub_cancel, h.getElem?, hq, Option.map_some]
        change some (start - UInt64.ofNat (offset pieces (k + 1) - 1) - UInt64.ofNat 1) = _
        conv_lhs => rw [hstart]
        rw [ofNat_sub_eq (c := start.toNat - offset pieces (k + 1) + 1) (by omega),
          ofNat_sub_eq (c := start.toNat - offset pieces (k + 1)) (by omega)]
  · rw [localLength]
    cases k with
    | zero =>
        have hnext : offset pieces (0 + 1) = p.length := by
          rw [offset_succ hp, offset_zero, Nat.zero_add]
        rw [offset_zero, Nat.sub_zero] at hd
        have hend : p.length - 1 + 1 = start.toNat + (p.length - start.toNat) := by omega
        rw [if_neg (Nat.lt_irrefl 0), offset_zero, Nat.sub_zero, hnext]
        change some (UInt64.ofNat (p.length - 1) + UInt64.ofNat 1 - _) = _
        rw [← UInt64.ofNat_add, ofNat_sub_eq hend]
    | succ k =>
        have hk : k < pieces.length := Nat.lt_of_succ_lt (List.getElem?_eq_some_iff.mp hp).1
        have hq : pieces[k]? = some pieces[k] := List.getElem?_eq_getElem hk
        have hpos := h.offset_pos hq
        rw [if_pos (Nat.zero_lt_succ k), Nat.add_sub_cancel, h.getElem?, hq]
        change some (UInt64.ofNat (offset pieces (k + 1 + 1) - 1) -
          UInt64.ofNat (offset pieces (k + 1) - 1) - _) = _
        rw [ofNat_sub_eq (c := p.length) (by omega),
          ofNat_sub_eq (c := p.length - (start.toNat - offset pieces (k + 1))) (by omega)]

/-- The smaller of two lengths. -/
theorem toNat_min {size len : UInt64} :
    (if size < len then size else len).toNat = min size.toNat len.toNat := by
  split
  · rename_i hlt
    rw [UInt64.lt_iff_toNat_lt] at hlt
    omega
  · rename_i hge
    rw [UInt64.lt_iff_toNat_lt] at hge
    omega

/-- What is left of a size. -/
theorem toNat_sub_min {size len : UInt64} :
    (size - if size < len then size else len).toNat = size.toNat - len.toNat := by
  have hle : (if size < len then size else len) ≤ size := by
    rw [UInt64.le_iff_toNat_le, toNat_min]
    exact Nat.min_le_left _ _
  rw [UInt64.toNat_sub_of_le _ _ hle, toNat_min]
  omega

/-- **What the loop takes of the pieces.** -/
theorem pickLoop_spec {κ : Type} (cb : κ → List UInt8 → κ) {ps : List (List UInt8)} {o : ℕ}
    (ho : 0 < o) (htotal : ps.flatten.length < 2 ^ 64) (size : UInt64) (cbarg : κ) :
    pickLoop cb (itemsFrom o ps) (UInt64.ofNat (o - 1)) size cbarg =
      some (UInt64.ofNat (size.toNat - ps.flatten.length),
        (cut ps size.toNat).foldl cb cbarg) := by
  induction ps generalizing o size cbarg with
  | nil => simp [itemsFrom, pickLoop, cut]
  | cons p ps ih =>
      rw [List.flatten_cons, List.length_append] at htotal
      rw [itemsFrom, pickLoop, cut, List.flatten_cons, List.length_append]
      by_cases hsize : size.toNat = 0
      · have hzero : size = 0 := UInt64.toNat_inj.mp hsize
        rw [if_neg (by rw [hzero]; decide), if_pos hsize, hsize, Nat.zero_sub, hzero]
        rfl
      · have hpos : size > 0 := UInt64.lt_iff_toNat_lt.mpr (Nat.pos_of_ne_zero hsize)
        have hlen : UInt64.ofNat (o + p.length - 1) - UInt64.ofNat (o - 1) =
            UInt64.ofNat p.length := ofNat_sub_eq (by omega)
        have hlenNat : (UInt64.ofNat p.length).toNat = p.length :=
          UInt64.toNat_ofNat_of_lt' (show p.length < 2 ^ 64 by omega)
        rw [if_pos hpos, if_neg hsize]
        simp only [hlen]
        rw [readMem_of_le (by rw [toNat_min, hlenNat]; omega), toNat_min, hlenNat,
          List.drop_zero]
        have htake : p.take (min size.toNat p.length) = p.take size.toNat := by
          rw [← List.take_take, List.take_length]
        simp only [htake]
        rw [ih (by omega) (by omega), toNat_sub_min, hlenNat, Nat.sub_sub]
        rfl

/-- The bytes of a window. -/
def window (pieces : List (List UInt8)) (start size : UInt64) : List UInt8 :=
  (pieces.flatten.drop start.toNat).take size.toNat

/-- **What the callback is given**: the bytes of the window in some parts, and the value says
whether there were as many as were asked for. -/
theorem spbPickCb_spec {spb : Spb} {pieces : List (List UInt8)} (h : Shows spb pieces)
    {start : UInt64} (hstart : start.toNat < pieces.flatten.length % 2 ^ 32) (size : UInt64) :
    ∃ parts : List (List UInt8), parts.flatten = window pieces start size ∧
      ∀ {κ : Type} (cb : κ → List UInt8 → κ) (cbarg : κ),
        spbPickCb spb start size cb cbarg =
          some ⟨if start.toNat + size.toNat ≤ pieces.flatten.length then 0 else 1, none,
            parts.foldl cb cbarg⟩ := by
  have hlt : start.toNat < pieces.flatten.length := Nat.lt_of_lt_of_le hstart (Nat.mod_le _ _)
  obtain ⟨p, d, hp, hd, hplace, hdrop, hoff, hlen⟩ := h.inPiece hlt
  have hbindex := spbBindex_spec h (.inl hstart)
  generalize locate pieces start.toNat = k at hp hplace hdrop hoff hlen hbindex
  have htotal : offset pieces k + p.length + (pieces.drop (k + 1)).flatten.length =
      pieces.flatten.length := by
    have hsum := congrArg List.length hdrop
    rw [List.length_append, List.length_drop, List.length_drop] at hsum
    omega
  have hbound := h.total
  have hlenNat : (UInt64.ofNat (p.length - d)).toNat = p.length - d :=
    UInt64.toNat_ofNat_of_lt' (show p.length - d < 2 ^ 64 by omega)
  have hoffNat : (UInt64.ofNat d).toNat = d :=
    UInt64.toNat_ofNat_of_lt' (show d < 2 ^ 64 by omega)
  refine ⟨(p.drop d).take size.toNat ::
    cut (pieces.drop (k + 1)) (size.toNat - (p.length - d)), ?_, fun cb cbarg => ?_⟩
  · rw [List.flatten_cons, flatten_cut, window, hdrop, List.take_append, List.length_drop]
  · have hmin : (p.drop d).take (min size.toNat (p.length - d)) =
        (p.drop d).take size.toNat := by
      rw [← List.take_take, ← List.length_drop, List.take_length]
    have hrest : spb.buffer.drop (k + 1) =
        itemsFrom (offset pieces (k + 1)) (pieces.drop (k + 1)) := by
      rw [h.buffer, itemsFrom_drop, Nat.zero_add]
    rw [spbPickCb, hbindex]
    simp only [Option.bind_eq_bind, Option.bind_some, h.getElem?, hp, Option.map_some, hoff, hlen]
    rw [readMem_of_le (by rw [toNat_min, hlenNat, hoffNat]; omega), Option.bind_some, toNat_min,
      hlenNat, hoffNat, hmin, hrest,
      pickLoop_spec _ (h.offset_pos hp) (by omega), toNat_sub_min, hlenNat, Option.bind_some]
    have hleft : UInt64.ofNat (size.toNat - (p.length - d) -
        (pieces.drop (k + 1)).flatten.length) > 0 ↔
          ¬ start.toNat + size.toNat ≤ pieces.flatten.length := by
      have hsize := size.toNat_lt
      rw [gt_iff_lt, UInt64.lt_iff_toNat_lt,
        UInt64.toNat_ofNat_of_lt' (show _ < 2 ^ 64 by omega), UInt64.toNat_zero]
      omega
    simp only [hleft, ite_not, List.foldl_cons]

/-- **The bytes of a window are copied.** -/
theorem spbPick_spec {spb : Spb} {pieces : List (List UInt8)} (h : Shows spb pieces)
    {start : UInt64} (hstart : start.toNat < pieces.flatten.length % 2 ^ 32) (size : UInt64) :
    spbPick spb start size =
      some ⟨if start.toNat + size.toNat ≤ pieces.flatten.length then 0 else 1, none,
        window pieces start size⟩ := by
  obtain ⟨parts, hparts, hpick⟩ := spbPickCb_spec h hstart size
  have hfold : ∀ dst : List UInt8,
      parts.foldl (fun dst src => dst ++ src) dst = dst ++ parts.flatten := by
    intro dst
    rw [List.foldl_append_eq_append, List.map_id']
  rw [spbPick, hpick, hfold, hparts, List.nil_append]

/-- **An octet is read.** -/
theorem spbOctet_spec {spb : Spb} {pieces : List (List UInt8)} (h : Shows spb pieces)
    {start : UInt64} (hstart : start.toNat < pieces.flatten.length % 2 ^ 32) :
    ∃ octet, pieces.flatten[start.toNat]? = some octet ∧
      spbOctet spb start = some (octet, none) := by
  have hlt : start.toNat < pieces.flatten.length := Nat.lt_of_lt_of_le hstart (Nat.mod_le _ _)
  obtain ⟨p, d, hp, hd, hplace, hdrop, hoff, -⟩ := h.inPiece hlt
  have hbound := h.total
  have hoffNat : (UInt64.ofNat d).toNat = d :=
    UInt64.toNat_ofNat_of_lt' (show d < 2 ^ 64 by omega)
  have hoctet : p[d]? = some p[d] := List.getElem?_eq_getElem hd
  refine ⟨p[d], ?_, ?_⟩
  · have hhead := congrArg List.head? hdrop
    rw [List.head?_drop, List.head?_append, List.head?_drop, hoctet] at hhead
    exact hhead
  · rw [spbOctet, spbBindex_spec h (.inl hstart)]
    simp only [Option.bind_eq_bind, Option.bind_some, h.getElem?, hp, Option.map_some, hoff,
      hoffNat, hoctet]

/-- In a row of 2^32 bytes or more, the places from the size modulo 2^32 on are taken for places
behind the row. -/
theorem spbOctet_wrapped {spb : Spb} {pieces : List (List UInt8)} (h : Shows spb pieces)
    {start : UInt64} (hge : pieces.flatten.length % 2 ^ 32 ≤ start.toNat) :
    spbOctet spb start = some (-1, some .erange) := by
  have hbindex : spbBindex spb start = some pieces.length := by
    rw [spbBindex]
    simp only [UInt64.lt_iff_toNat_lt, toNat_spbSize h, h.btotal]
    exact if_neg (Nat.not_lt.mpr hge)
  rw [spbOctet, hbindex]
  simp only [Option.bind_eq_bind, Option.bind_some, h.getElem?,
    List.getElem?_eq_none (Nat.le_refl _), Option.map_none]

/-- A window ends in the piece where it starts. -/
def EndsInPiece (pieces : List (List UInt8)) (start size : UInt64) : Prop :=
  start.toNat + size.toNat ≤ offset pieces (locate pieces start.toNat + 1)

/-- **A pointer into the buffer**: there is one if the window ends in the piece where it starts,
and is not the empty window at the start of the row. -/
theorem spbDirect_spec {spb : Spb} {pieces : List (List UInt8)} (h : Shows spb pieces)
    {start size : UInt64} (hstart : start.toNat < pieces.flatten.length % 2 ^ 32)
    (hsize : start.toNat + size.toNat ≤ pieces.flatten.length) :
    (EndsInPiece pieces start size ∧ 0 < start.toNat + size.toNat →
      ∃ bytes, spbDirect spb start size = some (some bytes, none) ∧
        bytes.take size.toNat = window pieces start size) ∧
    (¬ (EndsInPiece pieces start size ∧ 0 < start.toNat + size.toNat) →
      spbDirect spb start size = some (none, none)) := by
  have hlt : start.toNat < pieces.flatten.length := Nat.lt_of_lt_of_le hstart (Nat.mod_le _ _)
  obtain ⟨p, d, hp, hd, hplace, hdrop, hoff, -⟩ := h.inPiece hlt
  have hbindex := spbBindex_spec h (.inl hstart)
  rw [EndsInPiece]
  generalize locate pieces start.toNat = k at hp hplace hdrop hoff hbindex
  have hbound := h.total
  have hoffNat : (UInt64.ofNat d).toNat = d :=
    UInt64.toNat_ofNat_of_lt' (show d < 2 ^ 64 by omega)
  have hnext := offset_succ hp
  have hend := offset_le pieces (k + 1)
  have hgend := h.toNat_ofNat (n := offset pieces (k + 1) - 1) (by omega)
  have htest : start + size - 1 ≤ UInt64.ofNat (offset pieces (k + 1) - 1) ↔
      start.toNat + size.toNat ≤ offset pieces (k + 1) ∧ 0 < start.toNat + size.toNat := by
    rw [UInt64.le_iff_toNat_le, hgend, UInt64.toNat_sub, UInt64.toNat_add, UInt64.toNat_one]
    omega
  rw [spbDirect, hbindex]
  simp only [Option.bind_eq_bind, Option.bind_some, h.getElem?, hp, Option.map_some, hoff,
    htest, hoffNat]
  refine ⟨fun hin => ⟨p.drop d, by rw [if_pos hin], ?_⟩, fun hout => by rw [if_neg hout]⟩
  rw [window, hdrop, List.take_append_of_le_length]
  rw [List.length_drop]
  omega

/-! ### The pieces after a call -/

/-- A new buffer shows its first piece, if it is given one. -/
def firstPieces (buffer : Option (List UInt8)) : List (List UInt8) :=
  match buffer with
  | some base => if base.length > 0 then [base] else []
  | none => []

/-- A number of slots of a new buffer. -/
theorem spbNew_balloc (buffer : Option (List UInt8)) (balloc : UInt32) :
    0 < (spbNew buffer balloc).balloc ∧ (spbNew buffer balloc).balloc < 2 ^ 32 := by
  have hlt := balloc.toNat_lt
  change 0 < (if balloc = 0 then spbDefaultBalloc else balloc.toNat) ∧
    (if balloc = 0 then spbDefaultBalloc else balloc.toNat) < 2 ^ 32
  split
  · exact ⟨by decide, by decide⟩
  · rename_i hne
    have hpos : balloc.toNat ≠ 0 := fun h => hne (UInt32.toNat_inj.mp h)
    exact ⟨Nat.pos_of_ne_zero hpos, hlt⟩

/-- **A new buffer.** -/
theorem shows_spbNew (buffer : Option (List UInt8)) (balloc : UInt32)
    (h : (firstPieces buffer).flatten.length < 2 ^ 64) :
    Shows (spbNew buffer balloc) (firstPieces buffer) := by
  obtain ⟨hpos, hlt⟩ := spbNew_balloc buffer balloc
  cases buffer with
  | none => exact ⟨rfl, fun p hp => absurd hp List.not_mem_nil, h, Nat.zero_le _, hlt, hpos⟩
  | some base =>
      by_cases hbase : base.length > 0
      · have hpieces : firstPieces (some base) = [base] := if_pos hbase
        rw [hpieces] at h ⊢
        refine ⟨?_, fun p hp => ?_, h, hpos, hlt, hpos⟩
        · simp only [spbNew, hbase, if_true, itemsFrom, Nat.zero_add]
        · rw [List.mem_singleton.mp hp]
          exact List.length_pos_iff.mp hbase
      · have hpieces : firstPieces (some base) = [] := if_neg hbase
        rw [hpieces] at h ⊢
        refine ⟨?_, fun p hp => absurd hp List.not_mem_nil, h, Nat.zero_le _, hlt, hpos⟩
        simp only [spbNew, hbase, if_false, itemsFrom]

/-- There is a slot for one piece more, and the number of slots is still one of 32 bits. -/
theorem growBalloc_spec {balloc n : ℕ} (hle : n ≤ balloc) (hlt : balloc < 2 ^ 32)
    (hpos : 0 < balloc) (hn : n < 2 ^ 32 - spbBallocAdd) :
    n < (if n ≥ balloc then growBalloc balloc else balloc) ∧
      (if n ≥ balloc then growBalloc balloc else balloc) < 2 ^ 32 := by
  rw [growBalloc, spbBallocHightresh, spbBallocAdd] at *
  split
  · split
    · rw [Nat.mod_eq_of_lt (by omega)]
      omega
    · rw [Nat.mod_eq_of_lt (by omega)]
      omega
  · omega

/-- **A piece is added.** -/
theorem Shows.add {spb : Spb} {pieces : List (List UInt8)} (h : Shows spb pieces)
    {base : List UInt8} (hbase : base ≠ []) (hn : pieces.length < 2 ^ 32 - spbBallocAdd)
    (htotal : pieces.flatten.length + base.length < 2 ^ 64) :
    ∃ spb', spbAdd spb base = some spb' ∧ Shows spb' (pieces ++ [base]) := by
  have hpos := List.length_pos_iff.mpr hbase
  obtain ⟨hslot, hlt⟩ := growBalloc_spec h.btotal_le h.balloc_lt h.balloc_pos hn
  have hgend : (match spb.buffer.getLast? with
      | some item => item.gend + UInt64.ofNat base.length
      | none => UInt64.ofNat base.length - 1) =
        UInt64.ofNat (pieces.flatten.length + base.length - 1) := by
    cases hlast : spb.buffer.getLast? with
    | none =>
        rw [h.eq_nil hlast]
        exact ofNat_sub_eq (by simp only [List.flatten_nil, List.length_nil]; omega)
    | some item =>
        obtain ⟨htotal, hitem⟩ := h.gend_getLast hlast
        simp only [hitem]
        rw [← UInt64.ofNat_add]
        congr 1
        omega
  rw [spbAdd, h.btotal]
  simp only [hgend]
  rw [if_pos hslot]
  refine ⟨_, rfl, ?_, fun p hp => ?_, ?_, ?_, hlt, ?_⟩
  · rw [h.buffer, itemsFrom_append, Nat.zero_add]
    rfl
  · rcases List.mem_append.mp hp with hp | hp
    · exact h.nonempty p hp
    · rw [List.mem_singleton.mp hp]
      exact hbase
  · rw [List.flatten_append, List.length_append, List.flatten_singleton]
    exact htotal
  · rw [List.length_append]
    exact hslot
  · exact Nat.lt_of_le_of_lt (Nat.zero_le _) hslot

/-- There are slots for the pieces that are left. -/
theorem shrink_spec {balloc n : ℕ} (hle : n ≤ balloc) (hlt : balloc < 2 ^ 32)
    (hpos : 0 < balloc) :
    n ≤ (if balloc / 2 > n then balloc / 2 else balloc) ∧
      (if balloc / 2 > n then balloc / 2 else balloc) < 2 ^ 32 ∧
      0 < (if balloc / 2 > n then balloc / 2 else balloc) := by
  split <;> omega

/-- **The pieces that are covered are dropped**, and their length is returned. -/
theorem Shows.dropHead {spb : Spb} {pieces : List (List UInt8)} (h : Shows spb pieces)
    {size : UInt64} (hsize : Located pieces.flatten.length size.toNat) :
    ∃ spb', spbDropHead spb size =
        some (UInt64.ofNat (coveredLength pieces size.toNat), spb') ∧
      Shows spb' (dropCovered pieces size.toNat) := by
  rw [spbDropHead, spbBindex_spec h hsize]
  simp only [Option.bind_eq_bind, Option.bind_some, h.btotal]
  rw [coveredLength, dropCovered]
  generalize hk : locate pieces size.toNat = k
  by_cases hpos : k > 0
  · rw [if_pos hpos]
    by_cases hall : k ≥ pieces.length
    · have hlen : k = pieces.length :=
        Nat.le_antisymm (hk ▸ locate_le pieces size.toNat) hall
      subst hlen
      cases hlast : spb.buffer.getLast? with
      | none =>
          rw [h.eq_nil hlast] at hpos
          exact absurd hpos (Nat.lt_irrefl 0)
      | some item =>
          obtain ⟨htotal, hgend⟩ := h.gend_getLast hlast
          rw [if_pos hall, Option.bind_some, hgend, ofNat_add_one htotal, offset_length,
            List.drop_length]
          exact ⟨_, rfl, rfl, fun p hp => absurd hp List.not_mem_nil, by decide, by decide,
            by decide, by decide⟩
    · have hq : pieces[k - 1]? = some pieces[k - 1] := List.getElem?_eq_getElem (by omega)
      have hend := h.offset_pos hq
      rw [Nat.sub_add_cancel hpos] at hend
      have hrest : spb.buffer.drop k = itemsFrom (0 + offset pieces k) (pieces.drop k) := by
        rw [h.buffer, itemsFrom_drop]
      have hnonempty : ∀ p ∈ pieces.drop k, p ≠ [] :=
        fun p hp => h.nonempty p (List.mem_of_mem_drop hp)
      rw [if_neg hall, h.getElem?, hq, Nat.sub_add_cancel hpos, Option.map_some, Option.bind_some]
      simp only [ofNat_add_one hend, hrest, itemsFrom_rebase 0 _ hnonempty, length_itemsFrom]
      have hle : (pieces.drop k).length ≤ spb.balloc := by
        rw [List.length_drop]
        exact Nat.le_trans (Nat.sub_le _ _) h.btotal_le
      obtain ⟨hslots, hlt, hballoc⟩ := shrink_spec hle h.balloc_lt h.balloc_pos
      refine ⟨_, rfl, rfl, hnonempty, ?_, hslots, hlt, hballoc⟩
      rw [flatten_drop, List.length_drop]
      exact Nat.lt_of_le_of_lt (Nat.sub_le _ _) h.total
  · obtain rfl : k = 0 := by omega
    rw [if_neg hpos]
    exact ⟨spb, rfl, h⟩

/-- The sizes that calls lead to: an added piece leaves fewer than 2^64 bytes in fewer than 2^32
slots, and the size of what is dropped is a place that is found, or not in the row. -/
def Sized : List (List UInt8) → List SpbCall → Prop
  | _, [] => True
  | pieces, .add piece nonempty :: calls =>
      pieces.length < 2 ^ 32 - spbBallocAdd ∧ pieces.flatten.length + piece.length < 2 ^ 64 ∧
        Sized (piecesStep pieces (.add piece nonempty)) calls
  | pieces, .dropHead size :: calls =>
      Located pieces.flatten.length size.toNat ∧ Sized (piecesStep pieces (.dropHead size)) calls

/-- **The pieces after any calls.** -/
theorem Shows.run {spb : Spb} {pieces : List (List UInt8)} (h : Shows spb pieces)
    {calls : List SpbCall} (hcalls : Sized pieces calls) :
    ∃ spb', spbRun spb calls = some spb' ∧ Shows spb' (piecesRun pieces calls) := by
  induction calls generalizing spb pieces with
  | nil => exact ⟨spb, rfl, h⟩
  | cons call calls ih =>
      rw [spbRun, List.foldlM_cons]
      cases call with
      | add piece nonempty =>
          obtain ⟨hn, htotal, hrest⟩ := hcalls
          obtain ⟨next, hadd, hnext⟩ := h.add nonempty hn htotal
          rw [spbStep, hadd]
          exact ih hnext hrest
      | dropHead size =>
          obtain ⟨hsize, hrest⟩ := hcalls
          obtain ⟨next, hdrop, hnext⟩ := h.dropHead hsize
          rw [spbStep, hdrop]
          exact ih hnext hrest

/-! ### The claim -/

/-- The window is read right: `spb_pick` and `spb_pick_cb` deliver its bytes, and `spb_octet` the
first of them. -/
structure ReadsRight (spb : Spb) (pieces : List (List UInt8)) (start size : UInt64) : Prop where
  pick : spbPick spb start size = some ⟨0, none, window pieces start size⟩
  pickCb : ∃ parts : List (List UInt8), parts.flatten = window pieces start size ∧
    ∀ {κ : Type} (cb : κ → List UInt8 → κ) (cbarg : κ),
      spbPickCb spb start size cb cbarg = some ⟨0, none, parts.foldl cb cbarg⟩
  octet : ∃ octet, pieces.flatten[start.toNat]? = some octet ∧
    spbOctet spb start = some (octet, none)

/-- `spb_direct` delivers a pointer to the bytes of the window. -/
def DirectRight (spb : Spb) (pieces : List (List UInt8)) (start size : UInt64) : Prop :=
  ∃ bytes, spbDirect spb start size = some (some bytes, none) ∧
    bytes.take size.toNat = window pieces start size

/-- `spb_drop_head` drops the leading pieces that lie in the first `size` bytes, all of them and
whole, and returns how many bytes they have. -/
def DropsRight (spb : Spb) (pieces : List (List UInt8)) (size : UInt64) : Prop :=
  ∃ k ≤ pieces.length, offset pieces k ≤ size.toNat ∧
    (k < pieces.length → size.toNat < offset pieces (k + 1)) ∧
    ∃ spb', spbDropHead spb size = some (UInt64.ofNat (offset pieces k), spb') ∧
      Shows spb' (pieces.drop k) ∧
      ∀ i, (pieces.drop k).flatten[i]? = pieces.flatten[offset pieces k + i]?

/-- **The buffer reads as its pieces one behind the other.** -/
structure ReadsAs (spb : Spb) (pieces : List (List UInt8)) : Prop where
  size : (spbSize spb).toNat = pieces.flatten.length
  reads : ∀ start size : UInt64, start.toNat < pieces.flatten.length % 2 ^ 32 →
    start.toNat + size.toNat ≤ pieces.flatten.length → ReadsRight spb pieces start size
  direct : ∀ start size : UInt64, start.toNat < pieces.flatten.length % 2 ^ 32 →
    start.toNat + size.toNat ≤ pieces.flatten.length →
      (EndsInPiece pieces start size ∧ 0 < start.toNat + size.toNat →
        DirectRight spb pieces start size) ∧
      (¬ (EndsInPiece pieces start size ∧ 0 < start.toNat + size.toNat) →
        spbDirect spb start size = some (none, none))
  drops : ∀ size : UInt64, Located pieces.flatten.length size.toNat → DropsRight spb pieces size

/-- What is read of a buffer that shows pieces. -/
theorem Shows.readsAs {spb : Spb} {pieces : List (List UInt8)} (h : Shows spb pieces) :
    ReadsAs spb pieces where
  size := by rw [h.spbSize, h.toNat_ofNat (Nat.le_refl _)]
  reads start size hstart hsize := by
    obtain ⟨parts, hparts, hpick⟩ := spbPickCb_spec h hstart size
    refine ⟨?_, ⟨parts, hparts, fun cb cbarg => ?_⟩, spbOctet_spec h hstart⟩
    · rw [spbPick_spec h hstart, if_pos hsize]
    · rw [hpick, if_pos hsize]
  direct _ _ hstart hsize := spbDirect_spec h hstart hsize
  drops size hsize := by
    obtain ⟨spb', hdrop, hshows⟩ := h.dropHead hsize
    refine ⟨locate pieces size.toNat, locate_le pieces size.toNat, coveredLength_le pieces _,
      fun hk => lt_offset_succ hk, spb', hdrop, hshows, fun i => ?_⟩
    rw [flatten_drop, List.getElem?_drop]

/-- **The sparse buffer reads as its pieces**, after any calls. -/
theorem sparse_buffer_right (buffer : Option (List UInt8)) (balloc : UInt32)
    (calls : List SpbCall) (hfirst : (firstPieces buffer).flatten.length < 2 ^ 64)
    (hcalls : Sized (firstPieces buffer) calls) :
    ∃ spb, spbRun (spbNew buffer balloc) calls = some spb ∧
      ReadsAs spb (piecesRun (firstPieces buffer) calls) := by
  obtain ⟨spb, hrun, hshows⟩ := (shows_spbNew buffer balloc hfirst).run hcalls
  exact ⟨spb, hrun, hshows.readsAs⟩

/-- Two pieces are added, and the first one is dropped. -/
theorem sparse_buffer_right_example :
    ∃ spb, spbRun (spbNew none 0)
        [.add [1, 2] (by decide), .add [3] (by decide), .dropHead 2] = some spb ∧
      ReadsAs spb (piecesRun (firstPieces none)
        [.add [1, 2] (by decide), .add [3] (by decide), .dropHead 2]) :=
  sparse_buffer_right none 0 _ (by decide)
    ⟨by decide, by decide, by decide, by decide, .inl (by decide), trivial⟩

/-- **A window across two pieces has no pointer.** -/
theorem not_direct_right :
    ¬ ∀ (balloc : UInt32) (calls : List SpbCall) (spb : Spb),
      spbRun (spbNew none balloc) calls = some spb → ∀ start size : UInt64,
        start.toNat < (piecesRun [] calls).flatten.length →
        start.toNat + size.toNat ≤ (piecesRun [] calls).flatten.length →
          ReadsRight spb (piecesRun [] calls) start size ∧
            DirectRight spb (piecesRun [] calls) start size := by
  intro h
  have hright := h 0 [.add [1] (by decide), .add [2] (by decide)]
    ⟨[⟨[1], 0⟩, ⟨[2], 1⟩], 32⟩ (by decide) 0 2 (by decide) (by decide)
  obtain ⟨-, bytes, hdirect, -⟩ := hright
  have hnull : spbDirect ⟨[⟨[1], 0⟩, ⟨[2], 1⟩], 32⟩ 0 2 = some (none, none) := by decide
  rw [hnull] at hdirect
  cases hdirect

end OpenScap.SparseBuffer
