import Mathlib.Data.List.Forall2
import OpenScap.SexpDeepcmp

/-!
# Hashes of S-expressions

`SEXP_ID_v` goes through an S-expression as it is stored: it takes the hash of the bytes of each
atom, seeded by the hash so far, and at the end of a list the hash of one byte of the hash so far,
seeded by it and the offset of the list. The hash function is any function of bytes and seed.

## Main results

* `idCallback_eq` — what the hash depends on: the bytes of the atoms and the offsets of the lists,
  in their order;
* `congruent_iff` — when equal S-expressions have equal hashes.
-/

namespace OpenScap.SexpId

open Deepcmp LeafTree

/-- The first part of what `MurmurHash3_x86_128` gives for bytes and a seed. -/
abbrev Murmur := List UInt8 → UInt32 → UInt64

/-! ### The memory of atoms -/

/-- The bytes of an integer, the least one first. -/
def littleEndian (count n : ℕ) : List UInt8 :=
  (List.range count).map fun i => UInt8.ofNat (n / 256 ^ i)

/-- The memory of an atom: the characters of a string, or the integer and its type. -/
def Atom.mem : Atom → List UInt8
  | .string s => s
  | .number n => littleEndian (n.type.bits / 8) n.raw ++ [UInt8.ofNat n.type.code]

/-! ### The hash -/

/-- The seed that `SEXP_ID_hash` makes of the hash so far. -/
def idSeed (seed : UInt64) : UInt32 := (((0x7C0FFEE7 : UInt64) ^^^ seed) ^^^ (seed >>> 32)).toUInt32

mutual

/-- `SEXP_ID_v_callback`. -/
def idCallback (murmur : Murmur) : StoredSexp → UInt64 → UInt64
  | .atom a, hash => murmur (Atom.mem a) (idSeed hash)
  | .list offset blocks, hash =>
      let hash := lblkCb murmur blocks (offset + 1) hash
      murmur [hash.toUInt8] (idSeed (hash + UInt64.ofNat offset))

/-- `SEXP_rawval_lblk_cb` with this callback: the search for the block with the first member. -/
def lblkCb (murmur : Murmur) : List (List StoredSexp) → ℕ → UInt64 → UInt64
  | [], _, hash => hash
  | block :: blocks, n, hash =>
      if block.length ≥ n then blocksCb murmur blocks (membsCb murmur block (n - 1) hash)
      else lblkCb murmur blocks (n - block.length) hash

/-- The blocks behind the first one. -/
def blocksCb (murmur : Murmur) : List (List StoredSexp) → UInt64 → UInt64
  | [], hash => hash
  | block :: blocks, hash => blocksCb murmur blocks (membsCb murmur block 0 hash)

/-- The members of a block, from one of them on. -/
def membsCb (murmur : Murmur) : List StoredSexp → ℕ → UInt64 → UInt64
  | [], _, hash => hash
  | memb :: membs, 0, hash => membsCb murmur membs 0 (idCallback murmur memb hash)
  | _ :: membs, bi + 1, hash => membsCb murmur membs bi hash

end

/-- The hash at first. -/
def idInit : UInt64 := 0xAD30917100C0FFEE

/-- `SEXP_ID_v`. -/
def sexpIdV (murmur : Murmur) (s : StoredSexp) : UInt64 := idCallback murmur s idInit

/-! ### What the hash depends on -/

mutual

/-- An S-expression as the hash sees it: the bytes of the atoms, and at the end of each list its
offset. -/
def raw : StoredSexp → LeafTree (List UInt8 ⊕ ℕ)
  | .atom a => .leaf (.inl (Atom.mem a))
  | .list offset blocks => .node ((rawBlocks blocks).drop offset ++ [.leaf (.inr offset)])

/-- The members of blocks. -/
def rawBlocks : List (List StoredSexp) → List (LeafTree (List UInt8 ⊕ ℕ))
  | [] => []
  | block :: blocks => rawBlock block ++ rawBlocks blocks

/-- The members of a block. -/
def rawBlock : List StoredSexp → List (LeafTree (List UInt8 ⊕ ℕ))
  | [] => []
  | memb :: membs => raw memb :: rawBlock membs

end

/-- The members of a list. -/
def members (offset : ℕ) (blocks : List (List StoredSexp)) : List StoredSexp :=
  blocks.flatten.drop offset

/-- A list as the hash sees it. -/
theorem raw_list (offset : ℕ) (blocks : List (List StoredSexp)) :
    raw (.list offset blocks) =
      .node ((members offset blocks).map raw ++ [.leaf (.inr offset)]) := by
  have hblock : ∀ membs, rawBlock membs = membs.map raw := by
    intro membs
    induction membs with
    | nil => rfl
    | cons memb membs ih => rw [rawBlock, ih, List.map_cons]
  have hblocks : rawBlocks blocks = blocks.flatten.map raw := by
    induction blocks with
    | nil => rfl
    | cons block blocks ih => rw [rawBlocks, ih, hblock, List.flatten_cons, List.map_append]
  rw [raw, hblocks, members, List.map_drop]

/-- One step of the hash. -/
def idStep (murmur : Murmur) (hash : UInt64) : List UInt8 ⊕ ℕ → UInt64
  | .inl bytes => murmur bytes (idSeed hash)
  | .inr offset => murmur [hash.toUInt8] (idSeed (hash + UInt64.ofNat offset))

section Callback

variable (murmur : Murmur)

/-- The members of a block from one of them on. -/
theorem membsCb_eq (membs : List StoredSexp) (bi : ℕ) (hash : UInt64) :
    membsCb murmur membs bi hash =
      (membs.drop bi).foldl (fun hash memb => idCallback murmur memb hash) hash := by
  induction membs generalizing bi hash with
  | nil => rw [membsCb, List.drop_nil, List.foldl_nil]
  | cons memb membs ih =>
      cases bi with
      | zero => rw [membsCb, ih, List.drop_zero, List.drop_zero, List.foldl_cons]
      | succ bi => rw [membsCb, ih, List.drop_succ_cons]

/-- The members of blocks. -/
theorem blocksCb_eq (blocks : List (List StoredSexp)) (hash : UInt64) :
    blocksCb murmur blocks hash =
      blocks.flatten.foldl (fun hash memb => idCallback murmur memb hash) hash := by
  induction blocks generalizing hash with
  | nil => rfl
  | cons block blocks ih =>
      rw [blocksCb, ih, membsCb_eq, List.drop_zero, List.flatten_cons, List.foldl_append]

/-- **The callback is called for the members of the list.** -/
theorem lblkCb_eq (blocks : List (List StoredSexp)) (n : ℕ) (hash : UInt64) :
    lblkCb murmur blocks (n + 1) hash =
      (members n blocks).foldl (fun hash memb => idCallback murmur memb hash) hash := by
  induction blocks generalizing n with
  | nil => simp [lblkCb, members]
  | cons block blocks ih =>
      rw [lblkCb, members, List.flatten_cons]
      by_cases hn : block.length ≥ n + 1
      · rw [if_pos hn, blocksCb_eq, membsCb_eq, Nat.add_sub_cancel,
          List.drop_append_of_le_length (by omega), List.foldl_append]
      · rw [if_neg hn, show n + 1 - block.length = n - block.length + 1 by omega, ih,
          List.drop_append, List.drop_eq_nil_of_le (by omega)]
        rfl

/-- **What the hash depends on.** -/
theorem idCallback_eq {x : StoredSexp} (hx : Proper x) (hash : UInt64) :
    idCallback murmur x hash = (raw x).leaves.foldl (idStep murmur) hash := by
  induction hx generalizing hash with
  | atom a => rfl
  | list offset blocks hwithin hmembs ih =>
      have hfold : ∀ membs : List StoredSexp, (∀ memb ∈ membs, ∀ hash,
          idCallback murmur memb hash = (raw memb).leaves.foldl (idStep murmur) hash) →
          ∀ hash, membs.foldl (fun hash memb => idCallback murmur memb hash) hash =
            (listLeaves (membs.map raw)).foldl (idStep murmur) hash := by
        intro membs
        induction membs with
        | nil => intro _ hash; rfl
        | cons memb membs ihm =>
            intro hall hash
            rw [List.foldl_cons, hall memb List.mem_cons_self, List.map_cons, listLeaves,
              List.foldl_append, ihm fun m hm => hall m (List.mem_cons_of_mem _ hm)]
      rw [idCallback, lblkCb_eq,
        hfold (members offset blocks) fun memb hmemb => ih memb (List.mem_of_mem_drop hmemb),
        raw_list, leaves, listLeaves_append, List.foldl_append]
      rfl

end Callback

/-! ### Equal S-expressions -/

/-- S-expressions at the same place of two S-expressions. -/
inductive AtSamePlace (x y : StoredSexp) : StoredSexp → StoredSexp → Prop
  | top : AtSamePlace x y x y
  | memb {offset offset' : ℕ} {blocks blocks' : List (List StoredSexp)} {i : ℕ}
      {x' y' : StoredSexp} (hlists : AtSamePlace x y (.list offset blocks) (.list offset' blocks'))
      (hx : (members offset blocks)[i]? = some x') (hy : (members offset' blocks')[i]? = some y') :
      AtSamePlace x y x' y'

/-- A place of a place. -/
theorem AtSamePlace.trans {x y x' y' a b : StoredSexp} (h : AtSamePlace x y x' y')
    (h' : AtSamePlace x' y' a b) : AtSamePlace x y a b := by
  induction h' with
  | top => exact h
  | memb _ ha hb ih => exact .memb ih ha hb

/-- **The hashes are equal at every place**, whatever the hash function. -/
def Congruent (x y : StoredSexp) : Prop :=
  ∀ x' y', AtSamePlace x y x' y' → ∀ murmur, sexpIdV murmur x' = sexpIdV murmur y'

/-- Members at the same place have equal hashes at every place. -/
theorem Congruent.memb {offset offset' : ℕ} {blocks blocks' : List (List StoredSexp)}
    (h : Congruent (.list offset blocks) (.list offset' blocks')) {i : ℕ} {x y : StoredSexp}
    (hx : (members offset blocks)[i]? = some x) (hy : (members offset' blocks')[i]? = some y) :
    Congruent x y :=
  fun x' y' hplace => h x' y' ((AtSamePlace.memb .top hx hy).trans hplace)

/-- Places of proper S-expressions that are stored alike are stored alike. -/
theorem AtSamePlace.raw_eq {x y x' y' : StoredSexp} (h : AtSamePlace x y x' y')
    (hx : Proper x) (hy : Proper y) (hraw : raw x = raw y) :
    Proper x' ∧ Proper y' ∧ raw x' = raw y' := by
  induction h with
  | top => exact ⟨hx, hy, hraw⟩
  | @memb offset offset' blocks blocks' i x' y' _ hmemb_x hmemb_y ih =>
      obtain ⟨hpx, hpy, hlists⟩ := ih
      cases hpx with
      | list _ _ _ hmembs =>
          cases hpy with
          | list _ _ _ hmembs' =>
              rw [raw_list, raw_list] at hlists
              obtain ⟨hmaps, -⟩ := List.append_inj' (node.inj hlists) rfl
              refine ⟨hmembs _ (List.mem_of_mem_drop (List.mem_of_getElem? hmemb_x)),
                hmembs' _ (List.mem_of_mem_drop (List.mem_of_getElem? hmemb_y)), ?_⟩
              have hget : ((members offset blocks).map raw)[i]? =
                  ((members offset' blocks').map raw)[i]? := by rw [hmaps]
              rw [List.getElem?_map, List.getElem?_map, hmemb_x, hmemb_y] at hget
              exact Option.some.inj hget

/-- S-expressions that are stored alike have equal hashes at every place. -/
theorem congruent_of_raw_eq {x y : StoredSexp} (hx : Proper x) (hy : Proper y)
    (hraw : raw x = raw y) : Congruent x y := by
  intro x' y' hplace murmur
  obtain ⟨hx', hy', hraw'⟩ := hplace.raw_eq hx hy hraw
  rw [sexpIdV, sexpIdV, idCallback_eq murmur hx', idCallback_eq murmur hy', hraw']

/-! ### Hash functions that tell S-expressions apart -/

/-- A hash function that tells bytes from others. -/
def tellsBytes (bytes : List UInt8) : Murmur := fun b _ => if b = bytes then 1 else 0

/-- Atoms with equal hashes have equal bytes. -/
theorem mem_eq_of_congruent {a b : Atom} (h : Congruent (.atom a) (.atom b)) :
    Atom.mem a = Atom.mem b := by
  have hhash := h _ _ .top (tellsBytes (Atom.mem a))
  by_contra hne
  have hother : (if Atom.mem b = Atom.mem a then (1 : UInt64) else 0) = 0 := if_neg (Ne.symm hne)
  have hsame : (if Atom.mem a = Atom.mem a then (1 : UInt64) else 0) = 1 := if_pos rfl
  change (if Atom.mem a = Atom.mem a then (1 : UInt64) else 0) =
    if Atom.mem b = Atom.mem a then 1 else 0 at hhash
  rw [hother, hsame] at hhash
  exact absurd hhash (by decide)

/-- A hash function that gives back 16 bits of what the seed was made of. -/
def tellsSeed : Murmur := fun _ seed => (seed ^^^ 0x7C0FFEE7).toUInt16.toUInt64

/-- The bits that it gives back. -/
theorem tellsSeed_idSeed (bytes : List UInt8) (seed : UInt64) :
    tellsSeed bytes (idSeed seed) = (seed.toUInt16 ^^^ (seed >>> 32).toUInt16).toUInt64 := by
  have hconst : (0x7C0FFEE7 : UInt64).toUInt16 = (0x7C0FFEE7 : UInt32).toUInt16 := by decide
  rw [tellsSeed, idSeed, UInt32.toUInt16_xor, UInt64.toUInt16_toUInt32, UInt64.toUInt16_xor,
    UInt64.toUInt16_xor, hconst]
  congr 1
  rw [UInt16.xor_assoc _ seed.toUInt16, UInt16.xor_comm, ← UInt16.xor_assoc, UInt16.xor_self,
    UInt16.zero_xor]

/-- The hash so far is the one at first, or has 16 bits. -/
theorem foldl_tellsSeed (ops : List (List UInt8 ⊕ ℕ)) :
    ops.foldl (idStep tellsSeed) idInit = idInit ∨
      ∃ n : UInt16, ops.foldl (idStep tellsSeed) idInit = n.toUInt64 := by
  rcases List.eq_nil_or_concat ops with rfl | ⟨ops, op, rfl⟩
  · exact .inl rfl
  · rw [List.concat_eq_append, List.foldl_append]
    cases op with
    | inl bytes => exact .inr ⟨_, rfl⟩
    | inr offset => exact .inr ⟨_, rfl⟩

/-- Offsets make a difference, whatever comes before. -/
theorem offset_eq_of_idStep {hash : UInt64}
    (hhash : hash = idInit ∨ ∃ n : UInt16, hash = n.toUInt64)
    {o o' : ℕ} (ho : o < 2 ^ 16) (ho' : o' < 2 ^ 16)
    (h : idStep tellsSeed hash (.inr o) = idStep tellsSeed hash (.inr o')) : o = o' := by
  have hnat : ∀ {p : ℕ}, p < 2 ^ 16 → (UInt64.ofNat p).toNat = p := fun hp =>
    UInt64.toNat_ofNat_of_lt' (show _ < 2 ^ 64 by omega)
  have hlarge : hash.toNat % 2 ^ 32 < 2 ^ 32 - 2 ^ 16 ∧ hash.toNat < 2 ^ 64 - 2 ^ 32 := by
    rcases hhash with rfl | ⟨n, rfl⟩
    · decide
    · have hn := n.toNat_lt
      rw [UInt16.toNat_toUInt64]
      omega
  have hsum : ∀ {p : ℕ}, p < 2 ^ 16 → (hash + UInt64.ofNat p).toNat = hash.toNat + p := by
    intro p hp
    rw [UInt64.toNat_add, hnat hp]
    omega
  have hhigh : (hash + UInt64.ofNat o) >>> 32 = (hash + UInt64.ofNat o') >>> 32 := by
    refine UInt64.toNat_inj.mp ?_
    rw [UInt64.toNat_shiftRight, UInt64.toNat_shiftRight, hsum ho, hsum ho',
      show (32 : UInt64).toNat % 64 = 32 from rfl, Nat.shiftRight_eq_div_pow,
      Nat.shiftRight_eq_div_pow]
    omega
  rw [idStep, idStep, tellsSeed_idSeed, tellsSeed_idSeed, hhigh] at h
  have hlow : (hash + UInt64.ofNat o).toUInt16 = (hash + UInt64.ofNat o').toUInt16 := by
    have hxor := congrArg UInt64.toUInt16 h
    rw [UInt16.toUInt16_toUInt64, UInt16.toUInt16_toUInt64] at hxor
    exact (UInt16.xor_left_inj _).mp hxor
  have hmod := congrArg UInt16.toNat hlow
  rw [UInt64.toNat_toUInt16, UInt64.toNat_toUInt16, hsum ho, hsum ho'] at hmod
  omega

/-! ### The claim -/

/-- The offsets of the lists, which are `uint16_t`. -/
inductive Short : StoredSexp → Prop
  | atom (a : Atom) : Short (.atom a)
  | list (offset : ℕ) (blocks : List (List StoredSexp)) (hoffset : offset < 2 ^ 16)
      (hmembs : ∀ memb ∈ blocks.flatten, Short memb) : Short (.list offset blocks)

/-- The offset of a list, and those of its members. -/
theorem Short.of_list {offset : ℕ} {blocks : List (List StoredSexp)}
    (h : Short (.list offset blocks)) :
    offset < 2 ^ 16 ∧ ∀ memb ∈ blocks.flatten, Short memb := by
  cases h with
  | list _ _ hoffset hmembs => exact ⟨hoffset, hmembs⟩

/-- An S-expression as the list functions leave it. -/
structure HashedSexp where
  sexp : StoredSexp
  proper : Proper sexp
  short : Short sexp

/-- The hash of a list. -/
theorem sexpIdV_list (murmur : Murmur) {offset : ℕ} {blocks : List (List StoredSexp)}
    (h : Proper (.list offset blocks)) :
    sexpIdV murmur (.list offset blocks) =
      idStep murmur ((listLeaves ((members offset blocks).map raw)).foldl (idStep murmur) idInit)
        (.inr offset) := by
  rw [sexpIdV, idCallback_eq murmur h, raw_list, leaves, listLeaves_append, List.foldl_append]
  rfl

/-- What the comparison takes for equal is stored alike, if the hashes are equal at every place. -/
theorem raw_eq_of_congruent (doubleEq : UInt64 → UInt64 → Bool) {x y : StoredSexp}
    (hx : Proper x) (hy : Proper y) (hsx : Short x) (hsy : Short y)
    (hsame : sameBy (atomCmp doubleEq) x.content y.content = true) (h : Congruent x y) :
    raw x = raw y := by
  induction hx generalizing y with
  | atom a =>
      cases hy with
      | atom b => rw [raw, raw, mem_eq_of_congruent h]
      | list offset blocks _ _ => rw [content_list] at hsame; cases hsame
  | list offset blocks hwithin hmembs ih =>
      cases hy with
      | atom b => rw [content_list] at hsame; cases hsame
      | list offset' blocks' hwithin' hmembs' =>
          obtain ⟨hoffset, hshort⟩ := hsx.of_list
          obtain ⟨hoffset', hshort'⟩ := hsy.of_list
          rw [content_list, content_list, sameBy_node, sameListBy_iff, List.forall₂_map_left_iff,
            List.forall₂_map_right_iff, List.forall₂_iff_get] at hsame
          obtain ⟨hlen, hmemb⟩ := hsame
          have hraws : (members offset blocks).map raw = (members offset' blocks').map raw := by
            refine List.ext_getElem ?_ fun i hi hi' => ?_
            · rw [List.length_map, List.length_map]
              exact hlen
            rw [List.length_map] at hi hi'
            rw [List.getElem_map, List.getElem_map]
            have hxi := List.mem_of_mem_drop (List.getElem_mem hi)
            have hyi := List.mem_of_mem_drop (List.getElem_mem hi')
            exact ih _ hxi (hmembs' _ hyi) (hshort _ hxi) (hshort' _ hyi) (hmemb i hi hi')
              (h.memb (List.getElem?_eq_getElem hi) (List.getElem?_eq_getElem hi'))
          have hhash := h _ _ .top tellsSeed
          rw [sexpIdV_list tellsSeed (.list offset blocks hwithin hmembs),
            sexpIdV_list tellsSeed (.list offset' blocks' hwithin' hmembs'), hraws] at hhash
          have hoffsets := offset_eq_of_idStep (foldl_tellsSeed _) hoffset hoffset' hhash
          rw [raw_list, raw_list, hraws, hoffsets]

/-- The comparison declares two S-expressions equal. -/
def DeclaredEqual (doubleEq : UInt64 → UInt64 → Bool) (x y : HashedSexp) : Prop :=
  ∃ n, ∀ fuel ≥ n, deepcmp doubleEq fuel x.sexp y.sexp = some true

/-- What the comparison declares equal. -/
theorem declaredEqual_iff (doubleEq : UInt64 → UInt64 → Bool) (x y : HashedSexp) :
    DeclaredEqual doubleEq x y ↔
      sameBy (atomCmp doubleEq) x.sexp.content y.sexp.content = true := by
  obtain ⟨n, hspec⟩ := deepcmp_spec doubleEq x.proper y.proper
  constructor
  · rintro ⟨m, h⟩
    exact Option.some.inj ((hspec (n + m) (by omega)).symm.trans (h (n + m) (by omega)))
  · intro h
    exact ⟨n, fun fuel hfuel => by rw [hspec fuel hfuel, h]⟩

/-- **Equal S-expressions have equal hashes**, whatever the hash function and at every place of
them, exactly if they are stored alike: with the same bytes of the atoms and the same offsets of
the lists. -/
theorem congruent_iff (doubleEq : UInt64 → UInt64 → Bool) (x y : HashedSexp) :
    (DeclaredEqual doubleEq x y → Congruent x.sexp y.sexp) ↔
      (DeclaredEqual doubleEq x y → raw x.sexp = raw y.sexp) := by
  refine forall_congr' fun hequal => ⟨fun h => ?_, congruent_of_raw_eq x.proper y.proper⟩
  exact raw_eq_of_congruent doubleEq x.proper y.proper x.short y.short
    ((declaredEqual_iff doubleEq x y).mp hequal) h

/-- The list of a string, behind the given number of members that were taken away. -/
def listBehind (n : ℕ) (h : n < 2 ^ 16) : HashedSexp where
  sexp := .list n [List.replicate (n + 1) (.atom (.string [ascii 'a']))]
  proper := .list n _ ⟨by simp, by simp⟩ fun memb hmemb => by
    rw [List.flatten_singleton] at hmemb
    rw [List.eq_of_mem_replicate hmemb]
    exact .atom _
  short := .list n _ h fun memb hmemb => by
    rw [List.flatten_singleton] at hmemb
    rw [List.eq_of_mem_replicate hmemb]
    exact .atom _

/-- **A list from which a member was taken away** has another hash than the list of the members
that are left. -/
theorem not_congruent :
    DeclaredEqual (· == ·) (listBehind 0 (by decide)) (listBehind 1 (by decide)) ∧
      ¬ ∀ (doubleEq : UInt64 → UInt64 → Bool) (x y : HashedSexp), DeclaredEqual doubleEq x y →
        ∀ murmur, sexpIdV murmur x.sexp = sexpIdV murmur y.sexp := by
  have hequal : DeclaredEqual (· == ·) (listBehind 0 (by decide)) (listBehind 1 (by decide)) :=
    (declaredEqual_iff _ _ _).mpr (by decide)
  refine ⟨hequal, fun h => ?_⟩
  exact absurd (h _ _ _ hequal tellsSeed) (by decide)

end OpenScap.SexpId
