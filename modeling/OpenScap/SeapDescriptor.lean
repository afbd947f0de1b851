import OpenScap.BitCells
import OpenScap.RbtMap

/-!
# Descriptor numbers

A SEAP descriptor table is a tree of descriptors by number and a bitmap from which the numbers
are taken (`seap-descriptor.c`, `generic/bitmap.c`). The bitmap grows cell by cell when all of
its bits are set, and shrinks when its last cell becomes zero.

When `bitmap_setfree` has to grow, it evaluates `realsize * BITMAP_CELLSIZE` after `bitmap_set`
has already increased `realsize`: it sets the first bit of the new cell and returns the number
of the first bit behind it. The first descriptor is 32 while bit 0 is the one that is set.

## Main results

* `bitmapSet_spec`, `bitmapUnset_spec`, `bitmapSetfree_spec` — the operations bit by bit;
* `TableInv.add`, `TableInv.del`, `tableInv_of_run` — what a table keeps in every run that does
  not release the number 160;
* `everyStateCorrect_iff` — the table is right throughout exactly in the sequences that add no
  descriptor.
-/

namespace OpenScap.Seap

open BitCells OpenScap.Rbt

/-! ### The bitmap -/

/-- `BITMAP_CELLSIZE`. -/
def bitmapCellsize : ℕ := 32

/-- `bitmap_t`; `realsize` is the number of cells. -/
structure Bitmap where
  size : ℕ
  cells : List (BitVec 32)
  count : ℤ
  deriving DecidableEq

/-- `realsize`. -/
def Bitmap.realsize (bitmap : Bitmap) : ℕ := bitmap.cells.length

/-- `bitmap_new`. -/
def bitmapNew (size : ℕ) : Bitmap := ⟨size / bitmapCellsize + 1, [], 0⟩

/-- `bitmap_set`: the bitmap and the value returned; `none` when the assertion fails. -/
def bitmapSet (bitmap : Bitmap) (bitn : ℕ) : Option (Bitmap × ℕ) :=
  if bitn < bitmap.size * bitmapCellsize then
    let i := bitn / bitmapCellsize + 1
    if i > bitmap.realsize then
      if i ≤ bitmap.size then
        let cells := bitmap.cells ++ List.replicate (i - bitmap.realsize) 0
        some (⟨bitmap.size, setBit cells bitn, bitmap.count + 1⟩, 0)
      else some (bitmap, 1)
    else some (⟨bitmap.size, setBit bitmap.cells bitn, bitmap.count + 1⟩, 0)
  else none

/-- `bitmap_unset`; `none` when the assertion fails, or when the loop reads below the first
cell. -/
def bitmapUnset (bitmap : Bitmap) (bitn : ℕ) : Option (Bitmap × ℕ) :=
  if bitn < bitmap.size * bitmapCellsize then
    let i := bitn / bitmapCellsize + 1
    if i ≤ bitmap.realsize then
      let cells := clearBit bitmap.cells bitn
      if bitmap.realsize - i = 0 then
        (trim cells).map fun cells => (⟨bitmap.size, cells, bitmap.count - 1⟩, 0)
      else some (⟨bitmap.size, cells, bitmap.count - 1⟩, 0)
    else some (bitmap, 0)
  else none

/-- `bitmap_setfree`: the bitmap and the number returned. -/
def bitmapSetfree (bitmap : Bitmap) : Option (Bitmap × ℤ) :=
  match findFree bitmap.cells 0 with
  | some (i, j) =>
      let n := i * bitmapCellsize + j
      some ({ bitmap with cells := setBit bitmap.cells n }, n)
  | none =>
      if bitmap.realsize < bitmap.size then do
        let (bitmap, failed) ← bitmapSet bitmap (bitmapCellsize * bitmap.realsize)
        -- `realsize` is that of the bitmap after `bitmap_set`
        return (bitmap, if failed ≠ 0 then -1 else bitmap.realsize * bitmapCellsize)
      else some (bitmap, -1)

/-! ### The table -/

/-- The fields of `SEAP_desc_t` that a new descriptor gets from its caller, and its counters. -/
structure SeapDesc (P D : Type) where
  nextId : ℕ
  pstate : P
  scheme : ℕ
  schemeData : D
  nextCid : ℕ

/-- `SEAP_desctable_t`. -/
structure SeapDesctable (P D : Type) where
  tree : Option (RbtT (SeapDesc P D))
  bmap : Option Bitmap

variable {P D : Type}

/-- `SEAP_desctable_new`. -/
def seapDesctableNew : SeapDesctable P D := ⟨none, none⟩

/-- A number that fits in an `int32_t`. -/
def toI32 (n : ℤ) : I32 :=
  if h : -2147483648 ≤ n ∧ n ≤ 2147483647 then ⟨n, h⟩ else ⟨0, by decide⟩

/-- `SEAP_desc_add`: the table and the value returned. -/
def seapDescAdd (table : SeapDesctable P D) (pstate : P) (scheme : ℕ) (schemeData : D) :
    Option (SeapDesctable P D × ℤ) := do
  let bmap := table.bmap.getD (bitmapNew 128)
  let (bmap, sd) ← bitmapSetfree bmap
  if 0 ≤ sd then
    let tree := table.tree.getD rbtI32New
    let (tree, reply) ← rbtI32Add tree (toI32 sd) ⟨0, pstate, scheme, schemeData, 0⟩ false
    return (⟨some tree, some bmap⟩, if reply.ret ≠ 0 then -1 else sd)
  else return (⟨table.tree, some bmap⟩, -1)

/-- `SEAP_desc_del`. -/
def seapDescDel (table : SeapDesctable P D) (sd : I32) : Option (SeapDesctable P D × ℤ) :=
  if sd.val < 0 then some (table, -1)
  else
    match table.tree with
    | none => some (table, -1)
    | some tree => do
        let (tree, reply) ← rbtI32Del tree sd true
        if reply.ret ≠ 0 then return (⟨some tree, table.bmap⟩, -1)
        else
          let bmap ← table.bmap
          let (bmap, _) ← bitmapUnset bmap sd.val.toNat
          return (⟨some tree, some bmap⟩, 0)

/-- A call. -/
inductive DescOp (P D : Type)
  | add (pstate : P) (scheme : ℕ) (schemeData : D)
  | del (sd : I32)

/-- A call on the table. -/
def descStep (table : SeapDesctable P D) : DescOp P D → Option (SeapDesctable P D × ℤ)
  | .add pstate scheme schemeData => seapDescAdd table pstate scheme schemeData
  | .del sd => seapDescDel table sd

/-- A sequence of calls, with the values returned. -/
def descRun : SeapDesctable P D → List (DescOp P D) → Option (SeapDesctable P D × List ℤ)
  | table, [] => some (table, [])
  | table, op :: ops => do
      let (table, ret) ← descStep table op
      let (table, rets) ← descRun table ops
      return (table, ret :: rets)

/-! ### What is claimed of a table -/

/-- The descriptor of a number is live. -/
def Live (table : SeapDesctable P D) (sd : I32) : Prop :=
  ∃ tree desc, table.tree = some tree ∧ rbtI32Get tree sd = some ⟨0, some desc⟩

/-- The bit of a number is set. -/
def bitIsSet (table : SeapDesctable P D) (n : ℕ) : Bool :=
  match table.bmap with
  | some bmap => bit bmap.cells n
  | none => false

/-- The limit of a table: the bits of a bitmap for 128 numbers. -/
def descLimit : ℕ := (bitmapNew 128).size * bitmapCellsize

/-- **The numbers of a table are right.** -/
structure NumbersCorrect (table : SeapDesctable P D) : Prop where
  /-- Live numbers are below the limit. -/
  below : ∀ sd, Live table sd → 0 ≤ sd.val ∧ sd.val < descLimit
  /-- A bit is set when and only when its descriptor is live. -/
  bits : ∀ n, bitIsSet table n = true ↔ ∃ sd, Live table sd ∧ sd.val = n
  /-- A number handed out is not live already. -/
  fresh : ∀ pstate scheme schemeData table' n,
    seapDescAdd table pstate scheme schemeData = some (table', n) → 0 ≤ n →
      ¬ Live table (toI32 n)
  /-- A number that is released can be handed out again. -/
  reused : ∀ sd table', seapDescDel table sd = some (table', 0) →
    ∃ adds table'' rets, (∀ op ∈ adds, ∃ p s d, op = DescOp.add p s d) ∧
      descRun table' adds = some (table'', rets) ∧ sd.val ∈ rets

/-- **The table is right throughout a sequence of calls**: every call returns, with all cell
indices in range, and the numbers are right before the first call and after each one. -/
def EveryStateCorrect (ops : List (DescOp P D)) : Prop :=
  ∀ count ≤ ops.length, ∃ table rets,
    descRun seapDesctableNew (ops.take count) = some (table, rets) ∧ NumbersCorrect table

/-- A call that adds a descriptor. -/
def DescOp.isAdd : DescOp P D → Bool
  | .add .. => true
  | .del _ => false

/-! ### The bitmap, bit by bit -/

/-- The effect of `bitmap_set` below the limit. -/
theorem bitmapSet_spec {bitmap : Bitmap} {n : ℕ} (hn : n < bitmap.size * bitmapCellsize) :
    ∃ bitmap', bitmapSet bitmap n = some (bitmap', 0) ∧ bitmap'.size = bitmap.size ∧
      bitmap'.realsize = max bitmap.realsize (n / 32 + 1) ∧
      ∀ k, bit bitmap'.cells k = (bit bitmap.cells k || decide (k = n)) := by
  have hi : n / bitmapCellsize + 1 ≤ bitmap.size :=
    Nat.div_lt_of_lt_mul (by rwa [Nat.mul_comm])
  rw [bitmapSet, if_pos hn]
  by_cases hgrow : n / bitmapCellsize + 1 > bitmap.realsize
  · simp only [if_pos hgrow, if_pos hi]
    refine ⟨_, rfl, rfl, ?_, fun k => ?_⟩
    · simp only [Bitmap.realsize, setBit, bitmapCellsize, List.length_modify, List.length_append,
        List.length_replicate] at hgrow ⊢
      omega
    · rw [bit_setBit (by decide), bit_grow]
      simp only [Bitmap.realsize, bitmapCellsize, List.length_append,
        List.length_replicate] at hgrow ⊢
      omega
  · simp only [if_neg hgrow]
    refine ⟨_, rfl, rfl, ?_, fun k => ?_⟩
    · simp only [Bitmap.realsize, setBit, bitmapCellsize, List.length_modify] at hgrow ⊢
      omega
    · rw [bit_setBit (by decide)]
      simp only [Bitmap.realsize, bitmapCellsize] at hgrow
      omega

/-- The effect of `bitmap_unset` below the limit, when another bit is set as well. -/
theorem bitmapUnset_spec {bitmap : Bitmap} {n m : ℕ} (hn : n < bitmap.size * bitmapCellsize)
    (hm : bit bitmap.cells m = true) (hne : m ≠ n) :
    ∃ bitmap', bitmapUnset bitmap n = some (bitmap', 0) ∧ bitmap'.size = bitmap.size ∧
      bitmap'.realsize ≤ bitmap.realsize ∧
      ∀ k, bit bitmap'.cells k = (bit bitmap.cells k && !decide (k = n)) := by
  have hlen : (clearBit bitmap.cells n).length = bitmap.realsize := by
    rw [clearBit, List.length_modify, Bitmap.realsize]
  rw [bitmapUnset, if_pos hn]
  by_cases hcell : n / bitmapCellsize + 1 ≤ bitmap.realsize
  · simp only [if_pos hcell]
    by_cases hlast : bitmap.realsize - (n / bitmapCellsize + 1) = 0
    · rw [if_pos hlast]
      have hm' : bit (clearBit bitmap.cells n) m = true := by
        rw [bit_clearBit (by decide), hm]
        simp [hne]
      obtain ⟨rest, hrest⟩ := Option.isSome_iff_exists.mp (trim_isSome hm')
      refine ⟨⟨bitmap.size, rest, bitmap.count - 1⟩, by rw [hrest]; rfl, rfl, ?_, fun k => ?_⟩
      · obtain ⟨dropped, hcells⟩ := trim_spec hrest
        have := congrArg List.length hcells
        rw [hlen, List.length_append] at this
        show rest.length ≤ _
        omega
      · rw [bit_trim hrest, bit_clearBit (by decide)]
    · rw [if_neg hlast]
      exact ⟨_, rfl, rfl, hlen.le, fun k => bit_clearBit (by decide) k⟩
  · simp only [if_neg hcell]
    refine ⟨bitmap, rfl, rfl, le_refl _, fun k => ?_⟩
    by_cases hk : k = n
    · subst hk
      cases hb : bit bitmap.cells k with
      | false => rfl
      | true => exact absurd (lt_of_bit hb) hcell
    · simp [hk]

/-- What `bitmap_setfree` can do. -/
inductive Setfree (bitmap bitmap' : Bitmap) : ℤ → Prop
  /-- A clear bit of a cell is set, and its number returned. -/
  | found (n : ℕ) (hn : n < bitmap.realsize * 32) (hclear : bit bitmap.cells n = false)
      (hbit : bit bitmap'.cells n = true) (hreal : bitmap'.realsize = bitmap.realsize) :
      Setfree bitmap bitmap' n
  /-- A cell is added and its first bit set; the number returned is that of the first bit of
  the next one. -/
  | grown (hfull : ∀ n < bitmap.realsize * 32, bit bitmap.cells n = true)
      (hroom : bitmap.realsize < bitmap.size)
      (hbit : bit bitmap'.cells (bitmap.realsize * 32) = true)
      (hreal : bitmap'.realsize = bitmap.realsize + 1) :
      Setfree bitmap bitmap' ((bitmap.realsize + 1) * 32 : ℕ)
  /-- There is no room. -/
  | full (hnone : ¬ bitmap.realsize < bitmap.size) (hsame : bitmap' = bitmap) :
      Setfree bitmap bitmap' (-1)

/-- The effect of `bitmap_setfree`: bits that are set stay so. -/
theorem bitmapSetfree_spec (bitmap : Bitmap) :
    ∃ bitmap' n, bitmapSetfree bitmap = some (bitmap', n) ∧ bitmap'.size = bitmap.size ∧
      (∀ k, bit bitmap.cells k = true → bit bitmap'.cells k = true) ∧
      Setfree bitmap bitmap' n := by
  rw [bitmapSetfree]
  cases hfree : findFree bitmap.cells 0 with
  | some place =>
      obtain ⟨i, j⟩ := place
      obtain ⟨hlt, hdiv, hmod, hclear⟩ := bit_of_findFree hfree
      have hj : j < 32 := by omega
      have hset (k : ℕ) : bit (setBit bitmap.cells (i * 32 + j)) k =
          (bit bitmap.cells k || decide (k = i * 32 + j)) :=
        bit_setBit (by decide) (by omega) k
      refine ⟨_, _, rfl, rfl, fun k hk => ?_, .found _ ?_ hclear ?_ ?_⟩
      · show bit (setBit _ (i * 32 + j)) k = true
        rw [hset, hk, Bool.true_or]
      · show i * 32 + j < bitmap.cells.length * 32
        omega
      · show bit (setBit _ (i * 32 + j)) (i * 32 + j) = true
        simp [hset]
      · exact List.length_modify ..
  | none =>
      have hall (n : ℕ) (hn : n < bitmap.realsize * 32) : bit bitmap.cells n = true :=
        bit_of_findFree_none (by decide) hfree (Nat.div_lt_of_lt_mul (by
          rw [Bitmap.realsize] at hn
          omega))
      by_cases hroom : bitmap.realsize < bitmap.size
      · obtain ⟨bitmap', hset, hsize, hreal, hbits⟩ :=
          bitmapSet_spec (show bitmapCellsize * bitmap.realsize < bitmap.size * bitmapCellsize by
            simp only [bitmapCellsize]
            omega)
        have hreal' : bitmap'.realsize = bitmap.realsize + 1 := by
          rw [hreal, bitmapCellsize, Nat.mul_div_cancel_left _ (by decide)]
          omega
        refine ⟨bitmap', ((bitmap.realsize + 1) * 32 : ℕ), ?_, hsize, fun k hk => ?_,
          .grown hall hroom ?_ hreal'⟩
        · simp only [if_pos hroom, hset, Option.bind_eq_bind, Option.bind_some, hreal']
          rfl
        · rw [hbits, hk, Bool.true_or]
        · rw [hbits, bitmapCellsize]
          simp [Nat.mul_comm]
      · exact ⟨bitmap, -1, by simp [hroom], rfl, fun _ => id, .full hroom rfl⟩

/-! ### What a table keeps -/

/-- The number of a bit as a key. -/
theorem val_toI32 {n : ℤ} (h : -2147483648 ≤ n ∧ n ≤ 2147483647) : (toI32 n).val = n := by
  rw [toI32, dif_pos h]

/-- What holds of a bitmap and the live descriptors once a descriptor was added. -/
structure BitmapInv (bmap : Bitmap) (m : I32 → Option (SeapDesc P D)) : Prop where
  size : bmap.size = 5
  fits : bmap.realsize ≤ 5
  /-- The first bit is never cleared, since no descriptor has the number 0. -/
  first : bit bmap.cells 0 = true
  range : ∀ k, m k ≠ none → 1 ≤ k.val ∧ k.val ≤ 160
  /-- A live number within the cells has its bit set. -/
  within : ∀ k, m k ≠ none → k.val < 32 * bmap.realsize → bit bmap.cells k.val.toNat = true
  /-- A live number behind the cells came from growing. -/
  beyond : ∀ k, m k ≠ none → 32 * bmap.realsize ≤ k.val → k.val % 32 = 0

/-- **What a table keeps.** -/
inductive TableInv : SeapDesctable P D → (I32 → Option (SeapDesc P D)) → Prop
  /-- No descriptor was ever added. -/
  | start : TableInv seapDesctableNew fun _ => none
  /-- The tree stands for the live descriptors. -/
  | used {tree : RbtT (SeapDesc P D)} {bmap : Bitmap} {m : I32 → Option (SeapDesc P D)}
      {t : RedBlack.ColorTree (Cell (RbtI32Node (SeapDesc P D)))} (stands : Stands m tree t)
      (inv : BitmapInv bmap m) : TableInv ⟨some tree, some bmap⟩ m

/-- The live descriptors are those of the map. -/
theorem TableInv.live_iff {table : SeapDesctable P D} {m : I32 → Option (SeapDesc P D)}
    (h : TableInv table m) (sd : I32) : Live table sd ↔ m sd ≠ none := by
  cases h with
  | start => simp [Live, seapDesctableNew]
  | used stands =>
      obtain ⟨hget, -⟩ := stands.get sd
      rw [mapStep] at hget
      cases hm : m sd with
      | none =>
          rw [hm] at hget
          simp [Live, hget]
      | some desc =>
          rw [hm] at hget
          simp [Live, hget]

variable {m : I32 → Option (SeapDesc P D)} {bmap bmap' : Bitmap}

/-- Setting a free bit keeps what a table keeps of the descriptors that are live already. -/
theorem BitmapInv.setfree (h : BitmapInv bmap m) {n : ℤ} (hsize : bmap'.size = bmap.size)
    (hmono : ∀ k, bit bmap.cells k = true → bit bmap'.cells k = true)
    (hset : Setfree bmap bmap' n) : BitmapInv bmap' m := by
  have hfits := h.fits
  have hsize5 := h.size
  cases hset with
  | found i _ _ _ hreal =>
      refine ⟨hsize.trans h.size, hreal ▸ h.fits, hmono _ h.first, h.range, fun k hk hlt => ?_,
        fun k hk hle => h.beyond k hk (hreal ▸ hle)⟩
      exact hmono _ (h.within k hk (hreal ▸ hlt))
  | grown _ hroom hbit hreal =>
      refine ⟨hsize.trans h.size, by omega, hmono _ h.first, h.range, fun k hk hlt => ?_,
        fun k hk hle => h.beyond k hk (by omega)⟩
      by_cases hin : k.val < 32 * bmap.realsize
      · exact hmono _ (h.within k hk hin)
      · -- of the new cell only the first number can be live
        have hmod := h.beyond k hk (by omega)
        rw [show k.val.toNat = bmap.realsize * 32 by omega]
        exact hbit
  | full _ hsame => exact hsame ▸ h

/-- A new descriptor with a number that the bitmap gave. -/
theorem BitmapInv.insert (h : BitmapInv bmap' m) {n : ℤ} (hset : Setfree bmap bmap' n)
    (hfits : bmap.realsize ≤ 5) (hfirst : bit bmap.cells 0 = true ∨ bmap.realsize = 0)
    (hsize : bmap.size = 5) (hn : 0 ≤ n) (desc : SeapDesc P D) :
    BitmapInv bmap' (Function.update m (toI32 n) (some desc)) := by
  have hrange : 1 ≤ n ∧ n ≤ 160 := by
    cases hset with
    | found i hi hclear =>
        have hi0 : i ≠ 0 := by
          rintro rfl
          rcases hfirst with hfirst | hfirst
          · rw [hclear] at hfirst
            cases hfirst
          · omega
        omega
    | grown => omega
    | full => omega
  have hval : (toI32 n).val = n := val_toI32 (by omega)
  have hcase (k : I32) (hk : Function.update m (toI32 n) (some desc) k ≠ none) :
      k.val = n ∨ m k ≠ none := by
    by_cases hkn : k = toI32 n
    · exact .inl (hkn ▸ hval)
    · rw [Function.update_of_ne hkn] at hk
      exact .inr hk
  refine ⟨h.size, h.fits, h.first, fun k hk => ?_, fun k hk hlt => ?_, fun k hk hle => ?_⟩
  · rcases hcase k hk with hkn | hk
    · omega
    · exact h.range k hk
  · rcases hcase k hk with hkn | hk
    · cases hset with
      | found i hi hclear hbit => exact hkn ▸ hbit
      | grown => omega
      | full => omega
    · exact h.within k hk hlt
  · rcases hcase k hk with hkn | hk
    · cases hset with
      | found => omega
      | grown => omega
      | full => omega
    · exact h.beyond k hk hle

/-- Clearing the bit of a live descriptor that is removed. -/
theorem BitmapInv.unset (h : BitmapInv bmap m) {sd : I32}
    (hsize : bmap'.size = bmap.size) (hreal : bmap'.realsize ≤ bmap.realsize)
    (hbits : ∀ k, bit bmap'.cells k = (bit bmap.cells k && !decide (k = sd.val.toNat)))
    (hlive : m sd ≠ none) : BitmapInv bmap' (Function.update m sd none) := by
  have hfits := h.fits
  have hsd := h.range sd hlive
  have hcase (k : I32) (hk : Function.update m sd none k ≠ none) :
      m k ≠ none ∧ (bit bmap.cells k.val.toNat = true → bit bmap'.cells k.val.toNat = true) := by
    have hne : k ≠ sd := by
      rintro rfl
      exact hk (Function.update_self ..)
    rw [Function.update_of_ne hne] at hk
    refine ⟨hk, fun hset => ?_⟩
    have hk1 := h.range k hk
    have hval : k.val ≠ sd.val := fun he => hne (I32.val_injective he)
    rw [hbits, hset]
    simp
    omega
  refine ⟨hsize.trans h.size, by omega, ?_, fun k hk => h.range k (hcase k hk).1,
    fun k hk hlt => ?_, fun k hk hle => ?_⟩
  · rw [hbits, h.first]
    simp
    omega
  · obtain ⟨hk, hbit⟩ := hcase k hk
    exact hbit (h.within k hk (by omega))
  · obtain ⟨hk, hbit⟩ := hcase k hk
    by_cases hin : k.val < 32 * bmap.realsize
    · -- its bit is still set, so its cell is still there
      have hcell := lt_of_bit (hbit (h.within k hk hin))
      rw [← Bitmap.realsize] at hcell
      omega
    · exact h.beyond k hk (by omega)

/-! ### The calls -/

/-- Adding a descriptor, once the bitmap gave a number. -/
theorem seapDescAdd_spec {table : SeapDesctable P D} {tree : RbtT (SeapDesc P D)}
    {t : RedBlack.ColorTree (Cell (RbtI32Node (SeapDesc P D)))} {n : ℤ} (pstate : P) (scheme : ℕ)
    (schemeData : D) (hfree : bitmapSetfree (table.bmap.getD (bitmapNew 128)) = some (bmap', n))
    (htree : table.tree.getD rbtI32New = tree) (hstands : Stands m tree t) (hn : 0 ≤ n)
    (hold : BitmapInv bmap' m)
    (hnew : BitmapInv bmap'
      (Function.update m (toI32 n) (some ⟨0, pstate, scheme, schemeData, 0⟩))) :
    ∃ table' n' m', seapDescAdd table pstate scheme schemeData = some (table', n') ∧
      TableInv table' m' ∧ (n' < 0 ∧ m' = m ∨ n' = n ∧ m (toI32 n) = none ∧
        m' = Function.update m (toI32 n) (some ⟨0, pstate, scheme, schemeData, 0⟩)) := by
  obtain ⟨tree', t', hadd, hstands'⟩ :=
    hstands.add (toI32 n) (⟨0, pstate, scheme, schemeData, 0⟩ : SeapDesc P D) false
  rw [mapStep] at hadd hstands'
  rw [seapDescAdd, hfree]
  cases hm : m (toI32 n) with
  | none =>
      rw [hm] at hadd hstands'
      refine ⟨_, n, _, ?_, .used hstands' hnew, .inr ⟨rfl, rfl, rfl⟩⟩
      simp [hn, htree, hadd]
  | some old =>
      rw [hm] at hadd hstands'
      refine ⟨_, -1, _, ?_, .used hstands' hold, .inl ⟨by omega, rfl⟩⟩
      simp [hn, htree, hadd]

/-- **Adding a descriptor**: the call returns, and a number that it hands out is that of no
live descriptor. -/
theorem TableInv.add {table : SeapDesctable P D} (h : TableInv table m) (pstate : P) (scheme : ℕ)
    (schemeData : D) :
    ∃ table' n m', seapDescAdd table pstate scheme schemeData = some (table', n) ∧
      TableInv table' m' ∧ (n < 0 ∧ m' = m ∨ 0 ≤ n ∧ m (toI32 n) = none ∧
        m' = Function.update m (toI32 n) (some ⟨0, pstate, scheme, schemeData, 0⟩)) := by
  have hwiden {n : ℤ} (hn : 0 ≤ n) (hspec : ∃ table' n' m',
      seapDescAdd table pstate scheme schemeData = some (table', n') ∧ TableInv table' m' ∧
        (n' < 0 ∧ m' = m ∨ n' = n ∧ m (toI32 n) = none ∧
          m' = Function.update m (toI32 n) (some ⟨0, pstate, scheme, schemeData, 0⟩))) :
      ∃ table' n m', seapDescAdd table pstate scheme schemeData = some (table', n) ∧
        TableInv table' m' ∧ (n < 0 ∧ m' = m ∨ 0 ≤ n ∧ m (toI32 n) = none ∧
          m' = Function.update m (toI32 n) (some ⟨0, pstate, scheme, schemeData, 0⟩)) := by
    obtain ⟨table', n', m', hadd, hinv, hcase⟩ := hspec
    refine ⟨table', n', m', hadd, hinv, hcase.imp_right ?_⟩
    rintro ⟨rfl, hrest⟩
    exact ⟨hn, hrest⟩
  obtain ⟨bmap', n, hfree, hsize, hmono, hset⟩ :=
    bitmapSetfree_spec (table.bmap.getD (bitmapNew 128))
  cases h with
  | start =>
      have hroom : (bitmapNew 128).realsize < (bitmapNew 128).size := by decide
      have hn : 0 ≤ n := by
        cases hset with
        | found => omega
        | grown => omega
        | full hnone => exact absurd hroom hnone
      have hold : BitmapInv bmap' (fun _ : I32 => (none : Option (SeapDesc P D))) := by
        cases hset with
        | found i hi => exact absurd hi (by simp [seapDesctableNew, bitmapNew, Bitmap.realsize])
        | grown _ _ hbit hreal =>
            have hreal' : bmap'.realsize = 1 := hreal
            exact ⟨hsize, by omega, hbit, by simp, by simp, by simp⟩
        | full hnone => exact absurd hroom hnone
      exact hwiden hn (seapDescAdd_spec pstate scheme schemeData hfree rfl stands_new hn hold
        (hold.insert hset (Nat.zero_le 5) (.inr rfl) rfl hn _))
  | @used tree bmap _ t stands inv =>
      have hold := inv.setfree hsize hmono hset
      by_cases hn : 0 ≤ n
      · exact hwiden hn (seapDescAdd_spec pstate scheme schemeData hfree rfl stands hn hold
          (hold.insert hset inv.fits (.inl inv.first) inv.size hn _))
      · refine ⟨⟨some tree, some bmap'⟩, -1, m, ?_, .used stands hold, .inl ⟨by omega, rfl⟩⟩
        rw [seapDescAdd, hfree]
        simp [hn]

/-- **Removing a descriptor**: the call returns unless it releases the number 160, which is
beyond the bitmap. -/
theorem TableInv.del {table : SeapDesctable P D} (h : TableInv table m) {sd : I32}
    (hsd : sd.val ≠ 160) :
    ∃ table' n m', seapDescDel table sd = some (table', n) ∧ TableInv table' m' ∧
      (n < 0 ∧ m' = m ∨ n = 0 ∧ m sd ≠ none ∧ m' = Function.update m sd none) := by
  rw [seapDescDel]
  by_cases hneg : sd.val < 0
  · rw [if_pos hneg]
    exact ⟨table, -1, m, rfl, h, .inl ⟨by omega, rfl⟩⟩
  · rw [if_neg hneg]
    cases h with
    | start => exact ⟨_, -1, _, rfl, .start, .inl ⟨by omega, rfl⟩⟩
    | @used tree bmap _ t stands inv =>
        obtain ⟨tree', t', hdel, hstands'⟩ := stands.del sd true
        rw [mapStep] at hdel hstands'
        cases hm : m sd with
        | none =>
            rw [hm] at hdel hstands'
            refine ⟨_, -1, m, ?_, .used hstands' inv, .inl ⟨by omega, rfl⟩⟩
            simp [hdel]
        | some old =>
            rw [hm] at hdel hstands'
            have hlive : m sd ≠ none := by simp [hm]
            have hrange := inv.range sd hlive
            obtain ⟨bmap', hunset, hsize, hreal, hbits⟩ :=
              bitmapUnset_spec (show sd.val.toNat < bmap.size * bitmapCellsize by
                rw [inv.size, bitmapCellsize]
                omega) inv.first (by omega)
            refine ⟨_, 0, _, ?_, .used hstands' (inv.unset hsize hreal hbits hlive),
              .inr ⟨rfl, by simp, rfl⟩⟩
            simp [hdel, hunset]

/-- **Every run that never releases the number 160** returns from all its calls, and the
numbers of the live descriptors are from 1 to 160. -/
theorem tableInv_of_run {table : SeapDesctable P D} (h : TableInv table m)
    {ops : List (DescOp P D)} (hops : ∀ sd, DescOp.del sd ∈ ops → sd.val ≠ 160) :
    ∃ table' rets m', descRun table ops = some (table', rets) ∧ TableInv table' m' := by
  induction ops generalizing table m with
  | nil => exact ⟨table, [], m, rfl, h⟩
  | cons op ops ih =>
      have hstep : ∃ table' n m', descStep table op = some (table', n) ∧ TableInv table' m' := by
        cases op with
        | add pstate scheme schemeData =>
            obtain ⟨table', n, m', hadd, hinv, -⟩ := h.add pstate scheme schemeData
            exact ⟨table', n, m', hadd, hinv⟩
        | del sd =>
            obtain ⟨table', n, m', hdel, hinv, -⟩ := h.del (hops sd List.mem_cons_self)
            exact ⟨table', n, m', hdel, hinv⟩
      obtain ⟨table', n, m', hstep, hinv⟩ := hstep
      obtain ⟨table'', rets, m'', hrun, hinv'⟩ :=
        ih hinv fun sd hsd => hops sd (List.mem_cons_of_mem _ hsd)
      exact ⟨table'', n :: rets, m'', by simp [descRun, hstep, hrun], hinv'⟩

/-! ### When the numbers are right -/

/-- Without an addition nothing happens. -/
theorem descRun_of_noAdd {ops : List (DescOp P D)} (h : ∀ op ∈ ops, op.isAdd = false) :
    ∃ rets, descRun (seapDesctableNew : SeapDesctable P D) ops =
      some (seapDesctableNew, rets) := by
  induction ops with
  | nil => exact ⟨[], rfl⟩
  | cons op ops ih =>
      obtain ⟨hop, hops⟩ := List.forall_mem_cons.mp h
      obtain ⟨rets, hrun⟩ := ih hops
      cases op with
      | add => cases hop
      | del sd =>
          refine ⟨-1 :: rets, ?_⟩
          have hdel : seapDescDel (seapDesctableNew : SeapDesctable P D) sd =
              some (seapDesctableNew, -1) := by
            rw [seapDescDel]
            split <;> rfl
          simp [descRun, descStep, hdel, hrun]

/-- The table without descriptors is right. -/
theorem numbersCorrect_new : NumbersCorrect (seapDesctableNew : SeapDesctable P D) := by
  have hlive (sd : I32) : ¬ Live (seapDesctableNew : SeapDesctable P D) sd := by
    simp [Live, seapDesctableNew]
  refine ⟨fun sd h => absurd h (hlive sd), fun n => ⟨fun h => ?_, ?_⟩,
    fun _ _ _ _ _ _ _ => hlive _, fun sd table' h => ?_⟩
  · cases h
  · rintro ⟨sd, h, -⟩
    exact absurd h (hlive sd)
  · rw [seapDescDel] at h
    split at h <;> cases h

/-- After the first addition bit 0 is set, and the descriptor 32 is the live one. -/
theorem seapDescAdd_new (pstate : P) (scheme : ℕ) (schemeData : D) :
    ∃ table, seapDescAdd seapDesctableNew pstate scheme schemeData = some (table, 32) ∧
      ¬ NumbersCorrect table := by
  obtain ⟨tree, t, hadd, hstands⟩ := (stands_new (V := SeapDesc P D)).add (toI32 32)
    ⟨0, pstate, scheme, schemeData, 0⟩ false
  have hbmap : bitmapSetfree (bitmapNew 128) = some (⟨5, [1], 1⟩, 32) := by decide
  refine ⟨⟨some tree, some ⟨5, [1], 1⟩⟩, ?_, fun h => ?_⟩
  · rw [seapDescAdd]
    simp only [seapDesctableNew, Option.getD_none, hbmap, Option.bind_eq_bind, Option.bind_some,
      hadd]
    rfl
  · obtain ⟨sd, ⟨tree', desc, htree, hget⟩, hsd⟩ := (h.bits 0).mp rfl
    obtain rfl := Option.some.inj htree
    obtain ⟨hspec, -⟩ := hstands.get sd
    have hne : sd ≠ toI32 32 := by
      rintro rfl
      exact absurd hsd (by decide)
    rw [hget] at hspec
    simp [mapStep, hne] at hspec

/-- A sequence after a sequence. -/
theorem descRun_append {table table' : SeapDesctable P D} {xs : List (DescOp P D)} {rets : List ℤ}
    (h : descRun table xs = some (table', rets)) (ys : List (DescOp P D)) :
    descRun table (xs ++ ys) = (descRun table' ys).map fun r => (r.1, rets ++ r.2) := by
  induction xs generalizing table rets with
  | nil =>
      obtain ⟨rfl, rfl⟩ := Prod.mk.inj (Option.some.inj h)
      simp
  | cons op xs ih =>
      simp only [descRun, Option.bind_eq_bind, Option.pure_def] at h
      obtain ⟨⟨mid, ret⟩, hstep, h⟩ := Option.bind_eq_some_iff.mp h
      obtain ⟨⟨last, rets'⟩, hrun, h⟩ := Option.bind_eq_some_iff.mp h
      obtain ⟨rfl, rfl⟩ := Prod.mk.inj (Option.some.inj h)
      rw [List.cons_append, descRun, hstep]
      simp only [ih hrun, Option.bind_eq_bind, Option.bind_some, Option.pure_def]
      cases descRun last ys <;> rfl

/-- **An addition goes wrong.** -/
theorem not_everyStateCorrect_of_add {ops : List (DescOp P D)} {op : DescOp P D} (hop : op ∈ ops)
    (hadd : op.isAdd = true) : ¬ EveryStateCorrect ops := by
  intro h
  -- the first addition of the sequence
  obtain ⟨before, first, after, hops, hfirst, hbefore⟩ :
      ∃ before first after, ops = before ++ first :: after ∧ first.isAdd = true ∧
        ∀ op ∈ before, op.isAdd = false := by
    obtain ⟨first, hfind⟩ := Option.isSome_iff_exists.mp
      (List.find?_isSome.mpr ⟨op, hop, hadd⟩)
    obtain ⟨hfirst, before, after, hsplit, hbefore⟩ := List.find?_eq_some_iff_append.mp hfind
    exact ⟨before, first, after, hsplit, hfirst, by simpa using hbefore⟩
  obtain ⟨table, rets, hrun, hcorrect⟩ := h (before.length + 1) (by
    rw [hops, List.length_append, List.length_cons]
    omega)
  have htake : ops.take (before.length + 1) = before ++ [first] := by
    rw [hops, List.take_append, List.take_of_length_le (Nat.le_succ _)]
    simp
  obtain ⟨rets', hstart⟩ := descRun_of_noAdd hbefore
  rw [htake, descRun_append hstart] at hrun
  cases first with
  | del => cases hfirst
  | add pstate scheme schemeData =>
      obtain ⟨wrong, hwrong, hnot⟩ := seapDescAdd_new pstate scheme schemeData
      simp only [descRun, descStep, hwrong, Option.bind_eq_bind, Option.bind_some,
        Option.pure_def, Option.map_some, Option.some.injEq, Prod.mk.injEq] at hrun
      exact hnot (hrun.1 ▸ hcorrect)

/-- **The numbers are right throughout exactly in the sequences that add no descriptor.** -/
theorem everyStateCorrect_iff (ops : List (DescOp P D)) :
    EveryStateCorrect ops ↔ ∀ op ∈ ops, op.isAdd = false := by
  constructor
  · intro h op hop
    by_contra hadd
    exact not_everyStateCorrect_of_add hop (by simpa using hadd) h
  · intro h count _
    obtain ⟨rets, hrun⟩ := descRun_of_noAdd fun op hop => h op (List.mem_of_mem_take hop)
    exact ⟨_, rets, hrun, numbersCorrect_new⟩

/-- One descriptor added to an empty table: it has the number 32, and bit 0 is set. -/
theorem not_everyStateCorrect :
    ¬ EveryStateCorrect [(DescOp.add () 0 () : DescOp Unit Unit)] :=
  not_everyStateCorrect_of_add List.mem_cons_self rfl

end OpenScap.Seap
