import Mathlib.Data.List.Forall2
import OpenScap.FirstKept
import OpenScap.OvalItemId
import OpenScap.ProbeIcache
import OpenScap.SexpDeepcmp

/-!
# Items that the cache shares

The cache worker keeps the items that it has seen in buckets by their hash. It compares an item
with those of its bucket, but only the entities, which are the rest of the list behind the name
and the attributes. An item that is not found is kept and given an id; for one that is found the
kept one is used. The hash is taken of the whole item, and is any function here.

## Main results

* `runWorker_spec` — what the worker makes of any items;
* `deduplicated_iff` — when exactly the equal items share one.
-/

namespace OpenScap.IcacheWorker

open Deepcmp FirstKept ItemId LeafTree

/-! ### Items -/

/-- An item `((name :id "id" attrs) entities)`: the list of the name, the id and the other
attributes, and the rest of the list, which has the entities. -/
structure Item where
  name : StoredSexp
  id : List UInt8
  attrs : List StoredSexp
  rest : StoredSexp
  /-- The lists of the rest are as the list functions leave them. -/
  proper : Proper rest

/-- An item at an address. -/
structure Handed where
  ptr : ℕ
  item : Item

/-- Items that are handed to the worker, each at an address of its own. -/
structure History where
  items : List Handed
  distinct : (items.map Handed.ptr).Nodup

/-- The value of an S-expression. -/
def sexpValue (x : StoredSexp) : LeafTree AtomValue := x.content.map Atom.value

/-- The items have the same name, the same attributes apart from the id, and equal entities. -/
def Same (x y : Handed) : Prop :=
  sexpValue x.item.name = sexpValue y.item.name ∧
    x.item.attrs.map sexpValue = y.item.attrs.map sexpValue ∧
    sexpValue x.item.rest = sexpValue y.item.rest

/-- Being the same is an equivalence. -/
theorem same_equivalence : Equivalence Same where
  refl _ := ⟨rfl, rfl, rfl⟩
  symm h := ⟨h.1.symm, h.2.1.symm, h.2.2.symm⟩
  trans h h' := ⟨h.1.trans h'.1, h.2.1.trans h'.2.1, h.2.2.trans h'.2.2⟩

section Worker

variable (doubleEq : UInt64 → UInt64 → Bool) (hash : Item → UInt64) (pid : ℕ)

/-! ### The worker -/

/-- What `SEXP_deepcmp` tells of the rests of two items. -/
def restDeepcmp (x c : Item) : Bool := sameBy (atomCmp doubleEq) x.rest.content c.rest.content

/-- The comparison comes to an end with it. -/
theorem deepcmp_rest (x c : Item) :
    ∃ n, ∀ fuel ≥ n, deepcmp doubleEq fuel x.rest c.rest = some (restDeepcmp doubleEq x c) :=
  deepcmp_spec doubleEq x.proper c.proper

/-- What the worker does to items. -/
def itemOps : ItemOps Handed where
  sexpID x := hash x.item
  restDeepcmp x c := restDeepcmp doubleEq x.item c.item
  setID x nextID :=
    { x with item := { x.item with id := (probeIcacheItemSetID pid nextID).2 } }
  itemOptimize x := x

/-- The handling of a cache request. No result is a write outside of the bucket: its `uint16_t`
count is zero again. -/
def handleRequest (ops : ItemOps Handed) (tree : UInt64 → Option (List Handed)) (nextID : UInt32)
    (item : Handed) : Option ((UInt64 → Option (List Handed)) × UInt32 × Handed) :=
  match tree (ops.sexpID item) with
  | some cached =>
      if (cached.find? (ops.restDeepcmp item)).isNone ∧ (cached.length + 1) % 2 ^ 16 = 0 then none
      else some (ops.cacheRequest tree nextID item)
  | none => some (ops.cacheRequest tree nextID item)

/-- `probe_icache_worker` on items one after another: what it adds to the collected objects. -/
def runWorker (ops : ItemOps Handed) (tree : UInt64 → Option (List Handed)) (nextID : UInt32) :
    List Handed → Option (List Handed)
  | [] => some []
  | item :: items =>
      match handleRequest ops tree nextID item with
      | none => none
      | some (tree, nextID, added) =>
          (runWorker ops tree nextID items).map fun results => added :: results

/-- **Exactly the equal items share one S-expression and one id.** -/
def Deduplicated (items : List Handed) : Prop :=
  ∃ results, runWorker (itemOps doubleEq hash pid) (fun _ => none) 0 items = some results ∧
    (items.zip results).Pairwise fun p q =>
      (p.2.ptr = q.2.ptr ↔ Same p.1 q.1) ∧ (p.2.item.id = q.2.item.id ↔ Same p.1 q.1)

/-! ### What the worker makes of items -/

/-- The test by which an item is found. -/
def found (x c : Handed) : Bool :=
  hash c.item = hash x.item && restDeepcmp doubleEq x.item c.item

/-- A kept item, with the id that it is given. -/
def stored (p : Handed × ℕ) : Handed :=
  { p.1 with item := { p.1.item with id := itemId pid p.2 } }

/-- The bucket of a hash. -/
def bucket (kept : List Handed) (h : UInt64) : List Handed :=
  (kept.zipIdx.filter fun p => hash p.1.item = h).map (stored pid)

/-- The buckets of kept items, and the number of them. -/
structure Holds (kept : List Handed) (tree : UInt64 → Option (List Handed)) (nextID : UInt32) :
    Prop where
  tree : ∀ h, tree h = if bucket hash pid kept h = [] then none else some (bucket hash pid kept h)
  nextID : nextID = UInt32.ofNat kept.length
  small : ∀ h, (bucket hash pid kept h).length < 2 ^ 16

/-- A bucket has the kept items with its hash. -/
theorem length_bucket (kept : List Handed) (h : UInt64) :
    (bucket hash pid kept h).length = (kept.filter fun x => hash x.item = h).length := by
  have hmap : kept.filter (fun x => hash x.item = h) =
      (kept.zipIdx.filter fun p => hash p.1.item = h).map Prod.fst := by
    conv_lhs => rw [← List.zipIdx_map_fst 0 kept, List.filter_map]
    rfl
  rw [hmap, bucket, List.length_map, List.length_map]

/-- What is found in the bucket is what is found among all kept items. -/
theorem find_bucket (kept : List Handed) (x : Handed) :
    (bucket hash pid kept (hash x.item)).find? ((itemOps doubleEq hash pid).restDeepcmp x) =
      (lookup (found doubleEq hash) kept x).map (stored pid) := by
  have htest : (fun p : Handed × ℕ => decide (decide (hash p.1.item = hash x.item) = true ∧
      ((itemOps doubleEq hash pid).restDeepcmp x ∘ stored pid) p = true)) =
        fun p => found doubleEq hash x p.1 := by
    funext p
    simp [found, itemOps, stored, restDeepcmp]
  rw [bucket, List.find?_map, List.find?_filter, htest, lookup]

/-- The bucket of a kept item has it at its end, and the other buckets are as before. -/
theorem bucket_append (kept : List Handed) (x : Handed) (h : UInt64) :
    bucket hash pid (kept ++ [x]) h = bucket hash pid kept h ++
      if hash x.item = h then [stored pid (x, kept.length)] else [] := by
  rw [bucket, List.zipIdx_append, List.filter_append, List.map_append, bucket]
  congr 1
  by_cases hx : hash x.item = h
  · simp [hx]
  · simp [hx]

/-- A bucket is empty exactly if it is not in the tree. -/
theorem Holds.tree_eq {kept : List Handed} {tree : UInt64 → Option (List Handed)}
    {nextID : UInt32} (h : Holds hash pid kept tree nextID) (key : UInt64) :
    (tree key).getD [] = bucket hash pid kept key := by
  rw [h.tree]
  split
  · rename_i hnil
    exact hnil.symm
  · rfl

/-- **An item for which one is found**: the kept one is used. -/
theorem Holds.hit {kept : List Handed} {tree : UInt64 → Option (List Handed)} {nextID : UInt32}
    (h : Holds hash pid kept tree nextID) {x : Handed} {p : Handed × ℕ}
    (hlookup : lookup (found doubleEq hash) kept x = some p) :
    handleRequest (itemOps doubleEq hash pid) tree nextID x =
      some (tree, nextID, stored pid p) := by
  have hfind := find_bucket doubleEq hash pid kept x
  rw [hlookup] at hfind
  have hne : bucket hash pid kept (hash x.item) ≠ [] := by
    intro hnil
    rw [hnil] at hfind
    cases hfind
  have htree : tree ((itemOps doubleEq hash pid).sexpID x) =
      some (bucket hash pid kept (hash x.item)) := by
    rw [show (itemOps doubleEq hash pid).sexpID x = hash x.item from rfl, h.tree, if_neg hne]
  rw [handleRequest, htree]
  simp only [hfind, Option.map_some, Option.isNone_some, Bool.false_eq_true, false_and, if_false]
  rw [ItemOps.cacheRequest]
  simp only [htree, hfind, Option.map_some]

/-- The id of the next item. -/
theorem Holds.setID {kept : List Handed} {tree : UInt64 → Option (List Handed)} {nextID : UInt32}
    (h : Holds hash pid kept tree nextID) (x : Handed) :
    (itemOps doubleEq hash pid).setID x nextID = stored pid (x, kept.length) := by
  have hnext : (nextID + 1).toNat = localNumber kept.length := by
    rw [h.nextID, UInt32.toNat_add, UInt32.toNat_ofNat', localNumber, UInt32.toNat_one,
      Nat.mod_add_mod]
  simp only [itemOps, stored, probeIcacheItemSetID, itemId, hnext]

/-- **An item for which none is found** is kept, if there is room in its bucket. -/
theorem Holds.miss {kept : List Handed} {tree : UInt64 → Option (List Handed)} {nextID : UInt32}
    (h : Holds hash pid kept tree nextID) {x : Handed}
    (hlookup : lookup (found doubleEq hash) kept x = none) :
    ((bucket hash pid kept (hash x.item)).length + 1 = 2 ^ 16 →
      handleRequest (itemOps doubleEq hash pid) tree nextID x = none) ∧
    ((bucket hash pid kept (hash x.item)).length + 1 ≠ 2 ^ 16 → ∃ tree',
      handleRequest (itemOps doubleEq hash pid) tree nextID x =
        some (tree', nextID + 1, stored pid (x, kept.length)) ∧
      Holds hash pid (kept ++ [x]) tree' (nextID + 1)) := by
  have hfind := find_bucket doubleEq hash pid kept x
  rw [hlookup] at hfind
  have hsmall := h.small (hash x.item)
  have hkey : (itemOps doubleEq hash pid).sexpID x = hash x.item := rfl
  have hnextID : nextID + 1 = UInt32.ofNat (kept ++ [x]).length := by
    rw [h.nextID, List.length_append, UInt32.ofNat_add]
    rfl
  have hholds : (bucket hash pid kept (hash x.item)).length + 1 ≠ 2 ^ 16 →
      Holds hash pid (kept ++ [x]) (Function.update tree (hash x.item)
        (some (bucket hash pid kept (hash x.item) ++ [stored pid (x, kept.length)])))
        (nextID + 1) := by
    intro hroom
    refine ⟨fun key => ?_, hnextID, fun key => ?_⟩
    · rw [bucket_append]
      by_cases hx : hash x.item = key
      · subst hx
        rw [Function.update_self, if_pos rfl, if_neg (by simp)]
      · rw [Function.update_of_ne (Ne.symm hx), h.tree, if_neg hx, List.append_nil]
    · rw [bucket_append, List.length_append]
      have hle := h.small key
      by_cases hx : hash x.item = key
      · subst hx
        rw [if_pos rfl, List.length_singleton]
        omega
      · rw [if_neg hx, List.length_nil]
        omega
  rw [handleRequest, ItemOps.cacheRequest, hkey]
  by_cases hnil : bucket hash pid kept (hash x.item) = []
  · have htree : tree (hash x.item) = none := by rw [h.tree, if_pos hnil]
    rw [htree, hnil]
    rw [hnil] at hholds
    simp only [h.setID]
    exact ⟨fun hfull => absurd hfull (by decide), fun hroom => ⟨_, rfl, hholds hroom⟩⟩
  · have htree : tree (hash x.item) = some (bucket hash pid kept (hash x.item)) := by
      rw [h.tree, if_neg hnil]
    rw [htree]
    simp only [hfind, Option.map_none, Option.isNone_none, true_and, h.setID]
    constructor
    · intro hfull
      rw [if_pos (by omega)]
    · intro hroom
      rw [if_neg (by omega)]
      exact ⟨_, rfl, hholds hroom⟩

/-- **What the worker makes of an item**: there is no room for it, or it becomes the kept item in
its place. -/
theorem Holds.step {kept : List Handed} {tree : UInt64 → Option (List Handed)} {nextID : UInt32}
    (h : Holds hash pid kept tree nextID) (x : Handed) :
    (handleRequest (itemOps doubleEq hash pid) tree nextID x = none ∧
      2 ^ 16 ≤ (bucket hash pid (keep (found doubleEq hash) kept x) (hash x.item)).length) ∨
    ∃ tree' nextID' c, handleRequest (itemOps doubleEq hash pid) tree nextID x =
        some (tree', nextID', stored pid (c, place (found doubleEq hash) kept x)) ∧
      (keep (found doubleEq hash) kept x)[place (found doubleEq hash) kept x]? = some c ∧
      Holds hash pid (keep (found doubleEq hash) kept x) tree' nextID' := by
  cases hlookup : lookup (found doubleEq hash) kept x with
  | none =>
      obtain ⟨hkeep, hplace⟩ := keep_of_none (found doubleEq hash) hlookup
      obtain ⟨hfull, hroom⟩ := h.miss doubleEq hash pid hlookup
      rw [hkeep, hplace]
      by_cases hlen : (bucket hash pid kept (hash x.item)).length + 1 = 2 ^ 16
      · refine .inl ⟨hfull hlen, ?_⟩
        rw [bucket_append, if_pos rfl, List.length_append, List.length_singleton]
        exact hlen.ge
      · obtain ⟨tree', hhandle, hholds⟩ := hroom hlen
        exact .inr ⟨tree', _, x, hhandle, by simp, hholds⟩
  | some p =>
      obtain ⟨hkeep, hplace⟩ := keep_of_some (found doubleEq hash) hlookup
      rw [hkeep, hplace]
      exact .inr ⟨tree, nextID, p.1, h.hit doubleEq hash pid hlookup,
        (mem_of_lookup _ hlookup).1, h⟩

/-- More items are more in a bucket. -/
theorem length_bucket_le {kept more : List Handed} (h : kept <+: more) (key : UInt64) :
    (bucket hash pid kept key).length ≤ (bucket hash pid more key).length := by
  rw [length_bucket, length_bucket]
  exact (h.sublist.filter _).length_le

/-- **What the worker makes of items**: a bucket gets too full, or each item becomes the kept item
in its place. -/
theorem runWorker_spec {kept : List Handed} {tree : UInt64 → Option (List Handed)}
    {nextID : UInt32} (h : Holds hash pid kept tree nextID) (items : List Handed) :
    (runWorker (itemOps doubleEq hash pid) tree nextID items = none ∧
      ∃ key, 2 ^ 16 ≤ (bucket hash pid (keepAll (found doubleEq hash) kept items) key).length) ∨
    ∃ results, runWorker (itemOps doubleEq hash pid) tree nextID items = some results ∧
      (∀ key, (bucket hash pid (keepAll (found doubleEq hash) kept items) key).length < 2 ^ 16) ∧
      List.Forall₂ (fun k added => ∃ c,
        (keepAll (found doubleEq hash) kept items)[k]? = some c ∧ added = stored pid (c, k))
        (places (found doubleEq hash) kept items) results := by
  induction items generalizing kept tree nextID with
  | nil => exact .inr ⟨[], rfl, h.small, .nil⟩
  | cons x items ih =>
      have hmore := isPrefix_keepAll (found doubleEq hash) (keep (found doubleEq hash) kept x) items
      rw [runWorker]
      rcases h.step doubleEq hash pid x with ⟨hnone, hfull⟩ | ⟨tree', nextID', c, hsome, hc, hnext⟩
      · rw [hnone]
        exact .inl ⟨rfl, _, hfull.trans (length_bucket_le hash pid hmore _)⟩
      · rw [hsome]
        rcases ih hnext with ⟨hrun, hfull⟩ | ⟨results, hrun, hsmall, hresults⟩
        · simp only [hrun]
          exact .inl ⟨rfl, hfull⟩
        · simp only [hrun]
          refine .inr ⟨_, rfl, hsmall, .cons ⟨c, ?_, rfl⟩ hresults⟩
          obtain ⟨behind, hbehind⟩ := hmore
          rw [keepAll, List.foldl_cons, ← keepAll, ← hbehind,
            List.getElem?_append_left (place_lt _ kept x), hc]

/-! ### When the items are shared right -/

/-- **The comparison tells the items apart, and the counters suffice.** The comparison among the
first items of each kind is by the hash and the entities; a bucket has room for less than 2^16
kinds, and there are ids for 2^32. -/
structure Separated (items : List Handed) : Prop where
  told : ∀ front x after, items = front ++ x :: after →
    Told (found doubleEq hash) Same (kinds Same front) x
  small : ∀ key, ((kinds Same items).filter fun x => hash x.item = key).length < 2 ^ 16
  few : (kinds Same items).length ≤ 2 ^ 32

/-- Nothing is kept at first. -/
theorem holds_nil : Holds hash pid [] (fun _ => none) 0 :=
  ⟨fun _ => rfl, rfl, fun _ => by simp [bucket]⟩

/-- Items with their places: those of one place, and those of one id, are the same ones. -/
def Sorted (p q : Handed × ℕ) : Prop :=
  (p.2 = q.2 ↔ Same p.1 q.1) ∧ (localNumber p.2 = localNumber q.2 ↔ Same p.1 q.1)

/-- The order of two items does not matter. -/
instance : Std.Symm Sorted where
  symm p q h := by
    have hsame : Same p.1 q.1 ↔ Same q.1 p.1 := ⟨same_equivalence.symm, same_equivalence.symm⟩
    exact ⟨eq_comm.trans (h.1.trans hsame), eq_comm.trans (h.2.trans hsame)⟩

/-- What is kept of items at different addresses is at different addresses. -/
theorem ptr_inj {items kept : List Handed} (hitems : (items.map Handed.ptr).Nodup)
    (hkept : kept.Sublist items) {k l : ℕ} {c d : Handed} (hc : kept[k]? = some c)
    (hd : kept[l]? = some d) : c.ptr = d.ptr ↔ k = l := by
  have hnodup : (kept.map Handed.ptr).Nodup := (hkept.map _).nodup hitems
  have hck : (kept.map Handed.ptr)[k]? = some c.ptr := by rw [List.getElem?_map, hc]; rfl
  have hdl : (kept.map Handed.ptr)[l]? = some d.ptr := by rw [List.getElem?_map, hd]; rfl
  obtain ⟨hk, hck⟩ := List.getElem?_eq_some_iff.mp hck
  obtain ⟨hl, hdl⟩ := List.getElem?_eq_some_iff.mp hdl
  rw [← hck, ← hdl, hnodup.getElem_inj_iff]

/-- What is added is shared as the places are. -/
theorem pairwise_results_iff {items kept results : List Handed} {ks : List ℕ}
    (hitems : (items.map Handed.ptr).Nodup) (hkept : kept.Sublist items)
    (hresults : List.Forall₂ (fun k added => ∃ c, kept[k]? = some c ∧ added = stored pid (c, k))
      ks results) :
    ((items.zip results).Pairwise fun p q =>
      (p.2.ptr = q.2.ptr ↔ Same p.1 q.1) ∧ (p.2.item.id = q.2.item.id ↔ Same p.1 q.1)) ↔
      (items.zip ks).Pairwise Sorted := by
  obtain ⟨hlen, hget⟩ := List.forall₂_iff_get.mp hresults
  have hpair : ∀ i j (hi : i < (items.zip ks).length) (hj : j < (items.zip ks).length)
      (hi' : i < (items.zip results).length) (hj' : j < (items.zip results).length),
      (((items.zip results)[i].2.ptr = (items.zip results)[j].2.ptr ↔
          Same (items.zip results)[i].1 (items.zip results)[j].1) ∧
        ((items.zip results)[i].2.item.id = (items.zip results)[j].2.item.id ↔
          Same (items.zip results)[i].1 (items.zip results)[j].1)) ↔
        Sorted (items.zip ks)[i] (items.zip ks)[j] := by
    intro i j hi hj hi' hj'
    rw [List.length_zip] at hi hj hi' hj'
    obtain ⟨c, hc, hci⟩ := hget i (by omega) (by omega)
    obtain ⟨d, hd, hdj⟩ := hget j (by omega) (by omega)
    simp only [List.get_eq_getElem] at hc hci hd hdj
    simp only [List.getElem_zip, Sorted, hci, hdj, stored, ptr_inj hitems hkept hc hd, itemId_inj]
  have hzip : (items.zip results).length = (items.zip ks).length := by
    rw [List.length_zip, List.length_zip, hlen]
  rw [List.pairwise_iff_getElem, List.pairwise_iff_getElem]
  constructor
  · exact fun h i j hi hj hij => (hpair i j hi hj (hzip ▸ hi) (hzip ▸ hj)).mp
      (h i j (hzip ▸ hi) (hzip ▸ hj) hij)
  · exact fun h i j hi hj hij => (hpair i j (hzip ▸ hi) (hzip ▸ hj) hi hj).mpr
      (h i j (hzip ▸ hi) (hzip ▸ hj) hij)

/-- **The places are shared right**, and so are the ids, if the table sorts the items and there
are enough ids. -/
theorem pairwise_sorted_iff (f : Handed → Handed → Bool) (items : List Handed) :
    (items.zip (places f [] items)).Pairwise Sorted ↔
      Sorts f Same [] items ∧ (keepAll f [] items).length ≤ 2 ^ 32 := by
  constructor
  · intro h
    refine ⟨h.imp fun hsorted => hsorted.1, ?_⟩
    by_contra hmany
    have hmem : ∀ k < (keepAll f [] items).length, ∃ x, (x, k) ∈ items.zip (places f [] items) := by
      intro k hk
      obtain ⟨i, hi, hik⟩ := List.getElem_of_mem (mem_places f (Nat.zero_le k) hk)
      have hi' : i < items.length := by rwa [length_places] at hi
      refine ⟨items[i], ?_⟩
      rw [← hik, ← List.getElem_zip (h := by rw [List.length_zip]; omega)]
      exact List.getElem_mem _
    obtain ⟨x, hx⟩ := hmem 0 (by omega)
    obtain ⟨y, hy⟩ := hmem (2 ^ 32) (by omega)
    have hsorted := h.forall hx hy (by simp)
    have hsame := hsorted.2.mp (show localNumber 0 = localNumber (2 ^ 32) by decide)
    exact absurd (hsorted.1.mpr hsame) (show (0 : ℕ) ≠ 2 ^ 32 by decide)
  · rintro ⟨hsorts, hfew⟩
    refine List.Pairwise.imp_of_mem (fun {p q} hp hq hrelated => ⟨hrelated, ?_⟩) hsorts
    have hpk := places_lt f (List.of_mem_zip hp).2
    have hqk := places_lt f (List.of_mem_zip hq).2
    rw [← hrelated, localNumber, localNumber]
    omega

/-- **When exactly the equal items share one**: when the comparison tells the items apart, and the
counters suffice. -/
theorem deduplicated_iff (history : History) :
    Deduplicated doubleEq hash pid history.items ↔ Separated doubleEq hash history.items := by
  have hsorts := sorts_iff (found doubleEq hash) same_equivalence (List.Pairwise.nil)
    history.items
  have hbucket : ∀ kept key, (bucket hash pid kept key).length =
      (kept.filter fun x => hash x.item = key).length := length_bucket hash pid
  have hkinds : Sorts (found doubleEq hash) Same [] history.items →
      keepAll (found doubleEq hash) [] history.items = kinds Same history.items :=
    keepAll_eq (found doubleEq hash) same_equivalence List.Pairwise.nil
  have hsublist := keepAll_sublist (found doubleEq hash) [] history.items
  rcases runWorker_spec doubleEq hash pid (holds_nil hash pid) history.items with
    ⟨hrun, key, hfull⟩ | ⟨results, hrun, hsmall, hresults⟩
  · refine iff_of_false (fun ⟨results, hsome, _⟩ => ?_) fun hsep => ?_
    · rw [hrun] at hsome
      cases hsome
    · have hlt := hsep.small key
      rw [hkinds (hsorts.mpr hsep.told), hbucket] at hfull
      omega
  · have hpairs := (pairwise_results_iff pid history.distinct hsublist hresults).trans
      (pairwise_sorted_iff (found doubleEq hash) history.items)
    constructor
    · rintro ⟨results', hsome, hshared⟩
      obtain rfl := Option.some.inj (hrun.symm.trans hsome)
      obtain ⟨hsorted, hfew⟩ := hpairs.mp hshared
      refine ⟨hsorts.mp hsorted, fun key => ?_, ?_⟩
      · rw [← hkinds hsorted, ← hbucket]
        exact hsmall key
      · rwa [← hkinds hsorted]
    · intro hsep
      have hsorted := hsorts.mpr hsep.told
      refine ⟨results, hrun, hpairs.mpr ⟨hsorted, ?_⟩⟩
      rw [hkinds hsorted]
      exact hsep.few

end Worker

/-! ### Items that share one wrongly -/

/-- An item with a name, and one string for its entities. -/
def namedItem (name : List UInt8) : Item where
  name := .atom (.string name)
  id := []
  attrs := []
  rest := .list 0 [[.atom (.string [ascii 'x'])]]
  proper := .list 0 [[.atom (.string [ascii 'x'])]] ⟨by decide, by decide⟩ fun memb h => by
    rw [List.mem_singleton.mp h]
    exact .atom _

/-- Two items of different names. -/
def twoNames : History where
  items := [⟨0, namedItem [ascii 'a']⟩, ⟨1, namedItem [ascii 'b']⟩]
  distinct := by decide

/-- **Items of different names are merged** if their hashes collide. -/
theorem not_deduplicated :
    ¬ ∀ (doubleEq : UInt64 → UInt64 → Bool) (hash : Item → UInt64) (pid : ℕ) (history : History),
      Deduplicated doubleEq hash pid history.items := by
  intro h
  obtain ⟨results, hrun, hshared⟩ := h (· == ·) (fun _ => 0) 1 twoNames
  have hptrs : (runWorker (itemOps (· == ·) (fun _ => 0) 1) (fun _ => none) 0
      twoNames.items).map (List.map Handed.ptr) = some [0, 0] := by rfl
  rw [hrun] at hptrs
  match results, hptrs with
  | [first, second], hptrs =>
      obtain ⟨hfirst, hsecond⟩ := List.cons.inj (Option.some.inj hptrs)
      have hmerged := ((List.pairwise_cons.mp hshared).1 _ List.mem_cons_self).1.mp
        (hfirst.trans (List.cons.inj hsecond).1.symm)
      have hnames : [ascii 'a'] = [ascii 'b'] := AtomValue.text.inj (leaf.inj hmerged.1)
      exact absurd hnames (by decide)

end OpenScap.IcacheWorker
