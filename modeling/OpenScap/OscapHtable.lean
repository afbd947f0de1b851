import Mathlib.Data.Int.Notation
import Mathlib.Data.PNat.Basic
import OpenScap.ChainedTable
import OpenScap.CString

/-!
# The hash table

`oscap_htable` of `common/list.c`: chains of items under the hash of their keys. An entry that
is detached loses its key and its value, but its item stays in the chain. Lookups pass over such
an item; an iterator stops at it, and `oscap_htable_clone` hashes its key, which is `NULL`.

## Main results

* `HtableStands.add`, `HtableStands.detach`, `HtableStands.get` — the operations are those of a
  finite map;
* `htableRun_spec` — so are sequences of them;
* `enumerate_new` — an iterator goes through all items, one chain after the other;
* `htable_right_iff` — the table is a finite map for all three readers exactly when no entry was
  detached.
-/

namespace OpenScap.OscapHtable

variable {V : Type}

/-! ### The table -/

/-- `struct oscap_htable_item`; the pointers are `none` for `NULL`. The next item is the one
behind it in its chain. -/
structure HtableItem (V : Type) where
  key : Option (List UInt8)
  value : Option V

/-- `struct oscap_htable` with the comparison of `oscap_htable_new`. -/
structure Htable (V : Type) where
  hsize : ℕ+
  table : ℕ → List (HtableItem V)
  itemcount : ℤ

/-- `OSCAP_DEFAULT_HSIZE`. -/
def oscapDefaultHsize : ℕ+ := 389

/-- `oscap_htable_hash`. -/
def oscapHtableHash (str : List UInt8) (htableSize : ℕ) : ℕ :=
  (str.foldl (fun (h : UInt32) p => 97 * h + p.toUInt32) 0).toNat % htableSize

/-- `oscap_htable_cmp`, for a second key that is not `NULL`. -/
def oscapHtableCmp : Option (List UInt8) → List UInt8 → ℤ
  | none, _ => -1
  | some s1, s2 => strcmp s1 s2

/-- `oscap_htable_new1`. -/
def oscapHtableNew1 (hsize : ℕ+) : Htable V := ⟨hsize, fun _ => [], 0⟩

/-- `oscap_htable_lookup`. -/
def oscapHtableLookup (htable : Htable V) (key : List UInt8) : Option (HtableItem V) :=
  (htable.table (oscapHtableHash key htable.hsize)).find? fun htitem =>
    oscapHtableCmp htitem.key key = 0

/-- `oscap_htable_add`; `none` for the key `NULL`, which is not found but hashed. -/
def oscapHtableAdd (htable : Htable V) (key : Option (List UInt8)) (item : Option V) :
    Option (Htable V × Bool) := do
  let key ← key
  if (oscapHtableLookup htable key).isSome then return (htable, false)
  else
    let hashcode := oscapHtableHash key htable.hsize
    return ({ htable with
      table := Function.update htable.table hashcode (⟨some key, item⟩ :: htable.table hashcode)
      itemcount := htable.itemcount + 1 }, true)

/-- Taking the key and the value from the first item that was found. -/
def emptyFirst (key : List UInt8) : List (HtableItem V) → List (HtableItem V)
  | [] => []
  | htitem :: rest =>
      if oscapHtableCmp htitem.key key = 0 then ⟨none, none⟩ :: rest
      else htitem :: emptyFirst key rest

/-- `oscap_htable_detach`. -/
def oscapHtableDetach (htable : Htable V) (key : List UInt8) : Htable V × Option V :=
  match oscapHtableLookup htable key with
  | some htitem =>
      let hashcode := oscapHtableHash key htable.hsize
      ({ htable with
        table := Function.update htable.table hashcode (emptyFirst key (htable.table hashcode))
        itemcount := htable.itemcount - 1 }, htitem.value)
  | none => (htable, none)

/-- `oscap_htable_get`. -/
def oscapHtableGet (htable : Htable V) (key : List UInt8) : Option V :=
  (oscapHtableLookup htable key).bind HtableItem.value

/-- All items, one chain after the other. -/
def allItems (htable : Htable V) : List (HtableItem V) :=
  (List.range htable.hsize).flatMap htable.table

/-- The loops of `oscap_htable_clone`; `none` when a key is `NULL`. -/
def cloneLoop (cloner : Option V → Option V) :
    Htable V → List (HtableItem V) → Option (Htable V)
  | t, [] => some t
  | t, item :: items => do
      let (t, _) ← oscapHtableAdd t item.key (cloner item.value)
      cloneLoop cloner t items

/-- `oscap_htable_clone`. -/
def oscapHtableClone (table : Htable V) (cloner : Option V → Option V) : Option (Htable V) :=
  cloneLoop cloner (oscapHtableNew1 oscapDefaultHsize) (allItems table)

/-! ### The iterator -/

/-- `struct oscap_htable_iterator`: the current item, with the items behind it in its chain, and
the line that the iterator is on. -/
structure HtableIterator (V : Type) where
  htable : Htable V
  cur : Option (HtableItem V × List (HtableItem V))
  hpos : ℕ

/-- `oscap_htable_iterator_new`. -/
def oscapHtableIteratorNew (htable : Htable V) : HtableIterator V := ⟨htable, none, 0⟩

/-- The first line from `i` on that has an item. -/
def firstUsed (htable : Htable V) (i : ℕ) : Option ℕ :=
  (List.range' i (htable.hsize - i)).find? fun j => !(htable.table j).isEmpty

/-- The loop of `oscap_htable_iterator_has_more`. -/
def hasMoreFrom (hit : HtableIterator V) (i : ℕ) : Bool × HtableIterator V :=
  match firstUsed hit.htable i with
  | some j => (true, if j ≠ hit.hpos then { hit with hpos := j - 1 } else hit)
  | none => (false, { hit with hpos := max i hit.htable.hsize })

/-- `oscap_htable_iterator_has_more`. -/
def oscapHtableIteratorHasMore (hit : HtableIterator V) : Bool × HtableIterator V :=
  match hit.cur with
  | some (_, _ :: _) => (true, hit)
  | some (_, []) =>
      if hit.hpos + 1 ≥ hit.htable.hsize then (false, hit) else hasMoreFrom hit (hit.hpos + 1)
  | none => hasMoreFrom hit hit.hpos

/-- The loop of `oscap_htable_iterator_next`; `none` when the assertion behind it fails. -/
def nextFrom (hit : HtableIterator V) (i : ℕ) : Option (HtableItem V × HtableIterator V) := do
  let j ← firstUsed hit.htable i
  match hit.htable.table j with
  | [] => none
  | item :: rest => some (item, { hit with cur := some (item, rest), hpos := j })

/-- `oscap_htable_iterator_next`. -/
def oscapHtableIteratorNext (hit : HtableIterator V) :
    Option (HtableItem V × HtableIterator V) :=
  match hit.cur with
  | some (_, item :: rest) => some (item, { hit with cur := some (item, rest) })
  | some (_, []) => if hit.hpos + 1 ≥ hit.htable.hsize then none else nextFrom hit (hit.hpos + 1)
  | none => nextFrom hit hit.hpos

/-- Going on while there is more, for so many items; `none` when these are not enough, or when
an assertion fails. -/
def enumerate : ℕ → HtableIterator V → Option (List (HtableItem V))
  | 0, _ => none
  | fuel + 1, hit =>
      match oscapHtableIteratorHasMore hit with
      | (false, _) => some []
      | (true, hit) => do
          let (item, hit) ← oscapHtableIteratorNext hit
          let items ← enumerate fuel hit
          return item :: items

/-! ### What is claimed -/

/-- A call. -/
inductive HtableOp (V : Type)
  | add (key : List UInt8) (item : Option V)
  | get (key : List UInt8)
  | detach (key : List UInt8)

/-- What a call returns. -/
inductive HtableReply (V : Type)
  | added (ok : Bool)
  | value (item : Option V)
  deriving DecidableEq

/-- A call on the table. -/
def htableStep (htable : Htable V) : HtableOp V → Option (Htable V × HtableReply V)
  | .add key item => (oscapHtableAdd htable (some key) item).map fun (t, ok) => (t, .added ok)
  | .get key => some (htable, .value (oscapHtableGet htable key))
  | .detach key =>
      let (t, value) := oscapHtableDetach htable key
      some (t, .value value)

/-- A sequence of calls, with the replies. -/
def htableRun : Htable V → List (HtableOp V) → Option (Htable V × List (HtableReply V))
  | htable, [] => some (htable, [])
  | htable, op :: ops => do
      let (htable, reply) ← htableStep htable op
      let (htable, replies) ← htableRun htable ops
      return (htable, reply :: replies)

/-- The live entries: the value of the latest `add` for every key. -/
abbrev FiniteMap (V : Type) : Type := List UInt8 → Option (Option V)

/-- A call on a finite map. -/
def mapStep (m : FiniteMap V) : HtableOp V → FiniteMap V × HtableReply V
  | .add key item =>
      match m key with
      | none => (Function.update m key (some item), .added true)
      | some _ => (m, .added false)
  | .get key => (m, .value (m key).join)
  | .detach key => (Function.update m key none, .value (m key).join)

/-- A sequence of calls on a finite map. -/
def mapRun : FiniteMap V → List (HtableOp V) → FiniteMap V × List (HtableReply V)
  | m, [] => (m, [])
  | m, op :: ops =>
      ((mapRun (mapStep m op).1 ops).1, (mapStep m op).2 :: (mapRun (mapStep m op).1 ops).2)

/-- The map without entries. -/
def noEntries : FiniteMap V := fun _ => none

/-- The items that an iterator has to go through: each live entry once, and no other item. -/
structure Enumerates (m : FiniteMap V) (items : List (HtableItem V)) : Prop where
  once : items.Nodup
  live : ∀ item, item ∈ items ↔ ∃ key, item.key = some key ∧ m key = some item.value

/-- The table has the live entries of the map. -/
def HasEntries (htable : Htable V) (m : FiniteMap V) : Prop :=
  ∀ key, (oscapHtableLookup htable key).map HtableItem.value = m key

/-- **The table is a finite map** after a sequence of calls: the calls return what the map
gives, an iterator enumerates the live entries, and a clone has them. -/
def IsFiniteMap (hsize : ℕ+) (cloner : Option V → Option V) (ops : List (HtableOp V)) : Prop :=
  ∃ htable fuel items copy,
    htableRun (oscapHtableNew1 hsize) ops = some (htable, (mapRun noEntries ops).2) ∧
    enumerate fuel (oscapHtableIteratorNew htable) = some items ∧
    Enumerates (mapRun noEntries ops).1 items ∧
    oscapHtableClone htable cloner = some copy ∧
    HasEntries copy fun key => ((mapRun noEntries ops).1 key).map cloner

/-- No call detaches an entry that is live. -/
def NothingDetached : FiniteMap V → List (HtableOp V) → Prop
  | _, [] => True
  | m, op :: ops =>
      (∀ key, op = .detach key → m key = none) ∧ NothingDetached (mapStep m op).1 ops

/-! ### The operations -/

/-- An item has the key that is compared with. -/
theorem oscapHtableCmp_eq_zero {key : Option (List UInt8)} {s2 : List UInt8} :
    oscapHtableCmp key s2 = 0 ↔ key = some s2 := by
  cases key with
  | none => simp [oscapHtableCmp]
  | some s1 => rw [oscapHtableCmp, strcmp_eq_zero, Option.some.injEq]

/-- The hash that selects the chains of a table. -/
abbrev hashOf (hsize : ℕ+) (key : List UInt8) : ℕ := oscapHtableHash key hsize

/-- The chains of a table, as chains of entries. -/
abbrev EntryTable (V : Type) (hsize : ℕ+) : Type :=
  ChainedTable (List UInt8) (Option V) (hashOf hsize)

/-- The item of a node. -/
def itemOf : Option (List UInt8 × Option V) → HtableItem V
  | none => ⟨none, none⟩
  | some (key, value) => ⟨some key, value⟩

/-- A table in which the nodes of a table of entries stand. -/
structure HtableStands {hsize : ℕ+} (htable : Htable V) (t : EntryTable V hsize) : Prop where
  hsize : htable.hsize = hsize
  table : ∀ i, htable.table i = (t.chain i).map itemOf

variable {hsize : ℕ+} {htable : Htable V} {t : EntryTable V hsize}

/-- A hash is the number of a chain. -/
theorem hashOf_lt (hsize : ℕ+) (key : List UInt8) : hashOf hsize key < hsize :=
  Nat.mod_lt _ hsize.pos

/-- The new table. -/
theorem htableStands_new (hsize : ℕ+) :
    HtableStands (oscapHtableNew1 hsize : Htable V) (ChainedTable.empty : EntryTable V hsize) :=
  ⟨rfl, fun _ => rfl⟩

/-- The first item of a chain that has a key. -/
theorem find_map_itemOf (nodes : List (Option (List UInt8 × Option V))) (key : List UInt8) :
    (nodes.map itemOf).find? (fun htitem => oscapHtableCmp htitem.key key = 0) =
      (nodes.findSome? fun node => node.bind fun p => if p.1 = key then some p.2 else none).map
        fun value => ⟨some key, value⟩ := by
  induction nodes with
  | nil => rfl
  | cons node nodes ih =>
      rw [List.map_cons, List.find?_cons, List.findSome?_cons]
      cases node with
      | none => exact ih
      | some p =>
          obtain ⟨k, v⟩ := p
          by_cases hk : k = key
          · subst hk
            simp [itemOf, oscapHtableCmp_eq_zero]
          · have hcmp : oscapHtableCmp (some k) key ≠ 0 := by
              simpa [oscapHtableCmp_eq_zero] using hk
            simp only [itemOf, hcmp, decide_false, Option.bind_some, hk, if_false]
            exact ih

/-- **A lookup finds the entry of a key.** -/
theorem HtableStands.lookup (h : HtableStands htable t) (key : List UInt8) :
    oscapHtableLookup htable key = (t.lookup key).map fun value => ⟨some key, value⟩ := by
  rw [oscapHtableLookup, h.table, h.hsize, find_map_itemOf]
  rfl

/-- **Adding an entry.** -/
theorem HtableStands.add (h : HtableStands htable t) (key : List UInt8) (item : Option V) :
    ∃ htable', oscapHtableAdd htable (some key) item =
        some (htable', (t.lookup key).isNone) ∧ HtableStands htable' (t.add key item).1 := by
  rw [oscapHtableAdd]
  simp only [Option.bind_eq_bind, Option.bind_some, h.lookup, Option.isSome_map]
  cases hkey : t.lookup key with
  | some value =>
      refine ⟨htable, rfl, ?_⟩
      rw [ChainedTable.add, dif_neg (by simp [hkey])]
      exact h
  | none =>
      refine ⟨_, rfl, h.hsize, fun i => ?_⟩
      rw [ChainedTable.add, dif_pos hkey]
      dsimp only
      rw [h.hsize, h.table]
      by_cases hi : i = hashOf hsize key
      · subst hi
        rw [Function.update_self, Function.update_self]
        rfl
      · rw [Function.update_of_ne hi, Function.update_of_ne hi, h.table]

/-- Emptying the first node of a key empties all, where there is only one. -/
theorem emptyFirst_map {nodes : List (Option (List UInt8 × Option V))} (key : List UInt8)
    (hnodup : (nodes.reduceOption.map Prod.fst).Nodup) :
    emptyFirst key (nodes.map itemOf) =
      (nodes.map fun node => node.filter fun p => p.1 ≠ key).map itemOf := by
  induction nodes with
  | nil => rfl
  | cons node nodes ih =>
      cases node with
      | none =>
          rw [List.reduceOption_cons_of_none] at hnodup
          rw [List.map_cons, emptyFirst, if_neg (by simp [itemOf, oscapHtableCmp]), ih hnodup]
          rfl
      | some p =>
          obtain ⟨k, v⟩ := p
          rw [List.reduceOption_cons_of_some, List.map_cons, List.nodup_cons] at hnodup
          rw [List.map_cons, emptyFirst]
          by_cases hk : k = key
          · subst hk
            have hrest : (nodes.map fun node => node.filter fun p => p.1 ≠ k) = nodes := by
              refine List.map_congr_left (fun node hnode => ?_) |>.trans (List.map_id _)
              cases node with
              | none => rfl
              | some p =>
                  have hne : p.1 ≠ k := by
                    rintro rfl
                    exact hnodup.1 (List.mem_map.mpr ⟨p, List.reduceOption_mem_iff.mpr hnode, rfl⟩)
                  simp [Option.filter_some, hne]
            rw [if_pos (by simp [itemOf, oscapHtableCmp_eq_zero]), List.map_cons, hrest]
            simp [Option.filter_some, itemOf]
          · rw [if_neg (by simp [itemOf, oscapHtableCmp_eq_zero, hk]), ih hnodup.2]
            simp [Option.filter_some, hk]

/-- **Detaching an entry.** -/
theorem HtableStands.detach (h : HtableStands htable t) (key : List UInt8) :
    (oscapHtableDetach htable key).2 = (t.lookup key).join ∧
      HtableStands (oscapHtableDetach htable key).1 (t.detach key) := by
  have hother (i : ℕ) (hi : i ≠ hashOf hsize key ∨ t.lookup key = none) :
      ((t.detach key).chain i).map itemOf = htable.table i := by
    rw [h.table]
    refine congrArg _ (List.map_congr_left (fun node hnode => ?_) |>.trans (List.map_id _))
    cases node with
    | none => rfl
    | some p =>
        have hne : p.1 ≠ key := by
          rintro rfl
          rcases hi with hi | hi
          · exact hi (t.hash_eq i p hnode).symm
          · rw [← t.hash_eq i p hnode] at hnode
            rw [ChainedTable.lookup_eq_some_iff.mpr hnode] at hi
            cases hi
        simp [Option.filter_some, hne]
  rw [oscapHtableDetach, h.lookup]
  cases hkey : t.lookup key with
  | none => exact ⟨rfl, h.hsize, fun i => (hother i (.inr hkey)).symm⟩
  | some value =>
      refine ⟨rfl, h.hsize, fun i => ?_⟩
      simp only [Option.map_some]
      rw [h.hsize, h.table]
      by_cases hi : i = hashOf hsize key
      · subst hi
        rw [Function.update_self, emptyFirst_map key (t.nodup _)]
        rfl
      · rw [Function.update_of_ne hi, ← hother i (.inl hi)]

/-- **Getting an entry.** -/
theorem HtableStands.get (h : HtableStands htable t) (key : List UInt8) :
    oscapHtableGet htable key = (t.lookup key).join := by
  rw [oscapHtableGet, h.lookup]
  cases t.lookup key <;> rfl

/-- **A call is the call on the map.** -/
theorem htableStep_spec (h : HtableStands htable t) (op : HtableOp V) :
    ∃ htable' t', htableStep htable op = some (htable', (mapStep t.lookup op).2) ∧
      HtableStands htable' (t' : EntryTable V hsize) ∧ t'.lookup = (mapStep t.lookup op).1 ∧
      (t'.Clean hsize ↔ t.Clean hsize ∧ ∀ key, op = .detach key → t.lookup key = none) := by
  cases op with
  | add key item =>
      obtain ⟨htable', hadd, hstands⟩ := h.add key item
      refine ⟨htable', _, ?_, hstands, ?_, by simp [ChainedTable.clean_add]⟩
      · rw [htableStep, hadd, mapStep]
        cases t.lookup key <;> rfl
      · rw [mapStep]
        cases hkey : t.lookup key with
        | none =>
            funext k
            rw [ChainedTable.lookup_add hkey]
            exact (Function.update_apply ..).symm
        | some value => rw [ChainedTable.add, dif_neg (by simp [hkey])]
  | get key => exact ⟨htable, t, by rw [htableStep, h.get, mapStep], h, rfl, by simp⟩
  | detach key =>
      obtain ⟨hvalue, hstands⟩ := h.detach key
      refine ⟨_, t.detach key, by rw [mapStep, ← hvalue]; rfl, hstands, ?_, ?_⟩
      · funext k
        rw [ChainedTable.lookup_detach, mapStep]
        exact (Function.update_apply ..).symm
      · rw [ChainedTable.clean_detach t (hashOf_lt hsize key)]
        simp

/-- **A sequence of calls is the sequence on the map.** -/
theorem htableRun_spec (h : HtableStands htable t) (ops : List (HtableOp V)) :
    ∃ htable' t', htableRun htable ops = some (htable', (mapRun t.lookup ops).2) ∧
      HtableStands htable' (t' : EntryTable V hsize) ∧ t'.lookup = (mapRun t.lookup ops).1 ∧
      (t'.Clean hsize ↔ t.Clean hsize ∧ NothingDetached t.lookup ops) := by
  induction ops generalizing htable t with
  | nil => exact ⟨htable, t, rfl, h, rfl, by simp [NothingDetached]⟩
  | cons op ops ih =>
      obtain ⟨htable₁, t₁, hstep, hstands₁, hlookup₁, hclean₁⟩ := htableStep_spec h op
      obtain ⟨htable₂, t₂, hrun, hstands₂, hlookup₂, hclean₂⟩ := ih hstands₁
      rw [hlookup₁] at hrun hlookup₂ hclean₂
      refine ⟨htable₂, t₂, by simp [htableRun, hstep, hrun, mapRun], hstands₂, hlookup₂, ?_⟩
      rw [hclean₂, hclean₁, NothingDetached, and_assoc]

/-! ### The iterator -/

/-- The items of the lines from `i` on. -/
def linesFrom (htable : Htable V) (i : ℕ) : List (HtableItem V) :=
  (List.range' i (htable.hsize - i)).flatMap htable.table

/-- The items that an iterator has not come to. -/
def ahead (hit : HtableIterator V) : List (HtableItem V) :=
  match hit.cur with
  | some (_, rest) => rest ++ linesFrom hit.htable (hit.hpos + 1)
  | none => linesFrom hit.htable hit.hpos

/-- A line and the lines behind it. -/
theorem linesFrom_eq {i : ℕ} (hi : i < htable.hsize) :
    linesFrom htable i = htable.table i ++ linesFrom htable (i + 1) := by
  obtain ⟨n, hn⟩ : ∃ n, (htable.hsize : ℕ) - i = n + 1 := ⟨htable.hsize - i - 1, by omega⟩
  rw [linesFrom, linesFrom, hn, List.range'_succ, List.flatMap_cons,
    show (htable.hsize : ℕ) - (i + 1) = n by omega]

/-- There are no lines behind the last one. -/
theorem linesFrom_of_le {i : ℕ} (hi : htable.hsize ≤ i) : linesFrom htable i = [] := by
  rw [linesFrom, Nat.sub_eq_zero_of_le hi]
  rfl

/-- The first line that has an item, as a search line by line. -/
theorem firstUsed_eq {i : ℕ} (hi : i < htable.hsize) :
    firstUsed htable i = if htable.table i = [] then firstUsed htable (i + 1) else some i := by
  obtain ⟨n, hn⟩ : ∃ n, (htable.hsize : ℕ) - i = n + 1 := ⟨htable.hsize - i - 1, by omega⟩
  rw [firstUsed, firstUsed, hn, List.range'_succ, List.find?_cons,
    show (htable.hsize : ℕ) - (i + 1) = n by omega]
  cases htable.table i <;> rfl

/-- When no line has an item, there is none ahead. -/
theorem linesFrom_of_none {i : ℕ} (h : firstUsed htable i = none) : linesFrom htable i = [] := by
  rw [linesFrom, List.flatMap_eq_nil_iff]
  intro j hj
  simpa using List.find?_eq_none.mp h j hj

/-- **The first line that has an item**: there are no items on the lines before it. -/
theorem firstUsed_spec {i j : ℕ} (h : firstUsed htable i = some j) :
    i ≤ j ∧ j < htable.hsize ∧ htable.table j ≠ [] ∧
      ∀ k, i ≤ k → k ≤ j → linesFrom htable k = linesFrom htable j := by
  generalize hn : (htable.hsize : ℕ) - i = n
  induction n generalizing i with
  | zero =>
      rw [firstUsed, hn] at h
      cases h
  | succ n ih =>
      have hi : i < htable.hsize := by omega
      rw [firstUsed_eq hi] at h
      split at h
      · rename_i hempty
        obtain ⟨hle, hlt, hne, hlines⟩ := ih h (by omega)
        refine ⟨by omega, hlt, hne, fun k hk hkj => ?_⟩
        rcases Nat.eq_or_lt_of_le hk with rfl | hk
        · rw [linesFrom_eq hi, hempty, List.nil_append]
          exact hlines (i + 1) (Nat.le_refl _) hle
        · exact hlines k hk hkj
      · rename_i hne
        obtain rfl := Option.some.inj h
        refine ⟨Nat.le_refl _, hi, hne, fun k hk hkj => ?_⟩
        rw [Nat.le_antisymm hkj hk]

/-- The search for another line: nothing is skipped when the iterator is set before the line
that was found. -/
theorem hasMoreFrom_spec {hit : HtableIterator V} {i : ℕ}
    (hback : ∀ j, i ≤ j → j ≠ hit.hpos →
      (∀ k, i ≤ k → k ≤ j → linesFrom hit.htable k = linesFrom hit.htable j) →
      ahead { hit with hpos := j - 1 } = linesFrom hit.htable j)
    (hsame : ahead hit = linesFrom hit.htable i) :
    ∃ hit', hasMoreFrom hit i = (!(ahead hit).isEmpty, hit') ∧
      (ahead hit ≠ [] → ahead hit' = ahead hit) := by
  rw [hasMoreFrom, hsame]
  cases hused : firstUsed hit.htable i with
  | none =>
      rw [linesFrom_of_none hused]
      exact ⟨_, rfl, fun h => absurd rfl h⟩
  | some j =>
      obtain ⟨hij, hlt, hne, hlines⟩ := firstUsed_spec hused
      have hsome : (linesFrom hit.htable i).isEmpty = false := by
        rw [hlines i (Nat.le_refl _) hij, linesFrom_eq hlt]
        cases hline : hit.htable.table j with
        | nil => exact absurd hline hne
        | cons => rfl
      refine ⟨_, by rw [hsome]; rfl, fun _ => ?_⟩
      by_cases hj : j = hit.hpos
      · simp only [hj, ne_eq, not_true_eq_false, if_false]
        exact hsame
      · simp only [hj, ne_eq, not_false_eq_true, if_true]
        rw [hback j hij hj hlines, hlines i (Nat.le_refl _) hij]

/-- **`oscap_htable_iterator_has_more` tells whether an item is ahead.** -/
theorem hasMore_spec (hit : HtableIterator V) :
    ∃ hit', oscapHtableIteratorHasMore hit = (!(ahead hit).isEmpty, hit') ∧
      (ahead hit ≠ [] → ahead hit' = ahead hit) := by
  obtain ⟨htable, cur, hpos⟩ := hit
  rw [oscapHtableIteratorHasMore]
  match cur with
  | some (item, next :: rest) => exact ⟨_, rfl, fun _ => rfl⟩
  | some (item, []) =>
      dsimp only
      by_cases hend : hpos + 1 ≥ htable.hsize
      · have hahead : ahead ⟨htable, some (item, []), hpos⟩ = [] := linesFrom_of_le hend
        rw [if_pos hend, hahead]
        exact ⟨_, rfl, fun h => absurd rfl h⟩
      · rw [if_neg hend]
        refine hasMoreFrom_spec (fun j hj _ _ => ?_) rfl
        have hj : hpos + 1 ≤ j := hj
        show linesFrom htable (j - 1 + 1) = linesFrom htable j
        rw [show j - 1 + 1 = j by omega]
  | none =>
      refine hasMoreFrom_spec (fun j hj hne hlines => ?_) rfl
      have hj : hpos ≤ j := hj
      have hne : j ≠ hpos := hne
      exact hlines (j - 1) (by simp only; omega) (by omega)

/-- Going to the next line that has an item. -/
theorem nextFrom_spec {hit : HtableIterator V} {i : ℕ} {item : HtableItem V}
    {items : List (HtableItem V)} (h : linesFrom hit.htable i = item :: items) :
    ∃ hit', nextFrom hit i = some (item, hit') ∧ ahead hit' = items := by
  rw [nextFrom]
  cases hused : firstUsed hit.htable i with
  | none =>
      rw [linesFrom_of_none hused] at h
      cases h
  | some j =>
      obtain ⟨hij, hlt, hne, hlines⟩ := firstUsed_spec hused
      rw [hlines i (Nat.le_refl _) hij, linesFrom_eq hlt] at h
      simp only [Option.bind_eq_bind, Option.bind_some]
      cases hline : hit.htable.table j with
      | nil => exact absurd hline hne
      | cons first rest =>
          rw [hline] at h
          obtain ⟨rfl, rfl⟩ := List.cons.inj h
          exact ⟨_, rfl, rfl⟩

/-- **`oscap_htable_iterator_next` gives the first item ahead.** -/
theorem next_spec {hit : HtableIterator V} {item : HtableItem V} {items : List (HtableItem V)}
    (h : ahead hit = item :: items) :
    ∃ hit', oscapHtableIteratorNext hit = some (item, hit') ∧ ahead hit' = items := by
  obtain ⟨htable, cur, hpos⟩ := hit
  rw [oscapHtableIteratorNext]
  match cur with
  | some (_, next :: rest) =>
      obtain ⟨rfl, rfl⟩ := List.cons.inj h
      exact ⟨_, rfl, rfl⟩
  | some (_, []) =>
      have hlines : linesFrom htable (hpos + 1) = item :: items := h
      have hend : ¬ hpos + 1 ≥ htable.hsize := by
        intro hend
        rw [linesFrom_of_le hend] at hlines
        cases hlines
      dsimp only
      rw [if_neg hend]
      exact nextFrom_spec hlines
  | none => exact nextFrom_spec h

/-- An iterator goes through the items ahead. -/
theorem enumerate_eq {fuel : ℕ} {hit : HtableIterator V} (h : (ahead hit).length < fuel) :
    enumerate fuel hit = some (ahead hit) := by
  induction fuel generalizing hit with
  | zero => omega
  | succ fuel ih =>
      obtain ⟨hit', hmore, hahead⟩ := hasMore_spec hit
      rw [enumerate, hmore]
      cases hitems : ahead hit with
      | nil => rfl
      | cons item items =>
          rw [hitems] at hahead h
          obtain ⟨hit'', hnext, hrest⟩ := next_spec (hahead (by simp))
          have hlen : (ahead hit'').length < fuel := by
            rw [hrest]
            exact Nat.lt_of_succ_lt_succ h
          simp [hnext, ih hlen, hrest]

/-- With too few steps the iterator does not come to an end with other items. -/
theorem enumerate_some {fuel : ℕ} {hit : HtableIterator V} {items : List (HtableItem V)}
    (h : enumerate fuel hit = some items) : items = ahead hit := by
  induction fuel generalizing hit items with
  | zero => cases h
  | succ fuel ih =>
      obtain ⟨hit', hmore, hahead⟩ := hasMore_spec hit
      rw [enumerate, hmore] at h
      cases hitems : ahead hit with
      | nil =>
          rw [hitems] at h
          exact (Option.some.inj h).symm
      | cons item rest =>
          rw [hitems] at h hahead
          obtain ⟨hit'', hnext, hrest⟩ := next_spec (hahead (by simp))
          simp only [List.isEmpty_cons, Bool.not_false, hnext, Option.bind_eq_bind,
            Option.bind_some, Option.pure_def] at h
          obtain ⟨items', hrun, hcons⟩ := Option.bind_eq_some_iff.mp h
          rw [← Option.some.inj hcons, ih hrun, hrest]

/-- **An iterator goes through all items.** -/
theorem enumerate_new (htable : Htable V) (items : List (HtableItem V)) :
    (∃ fuel, enumerate fuel (oscapHtableIteratorNew htable) = some items) ↔
      items = allItems htable := by
  have hahead : ahead (oscapHtableIteratorNew htable) = allItems htable := by
    show linesFrom htable 0 = _
    rw [linesFrom, allItems, List.range_eq_range', Nat.sub_zero]
  constructor
  · rintro ⟨fuel, hrun⟩
    rw [enumerate_some hrun, hahead]
  · rintro rfl
    exact ⟨_, hahead ▸ enumerate_eq (Nat.lt_succ_self _)⟩

/-! ### The three readers -/

/-- All items stand for the entries. -/
theorem HtableStands.allItems (h : HtableStands htable t) :
    allItems htable = (t.entries hsize).map itemOf := by
  rw [OscapHtable.allItems, ChainedTable.entries, List.map_flatMap, h.hsize]
  exact List.flatMap_congr fun i _ => h.table i

/-- Nodes that are not empty, as entries. -/
theorem eq_map_some {nodes : List (Option (List UInt8 × Option V))} (h : none ∉ nodes) :
    nodes = nodes.reduceOption.map some := by
  induction nodes with
  | nil => rfl
  | cons node nodes ih =>
      obtain ⟨hnode, hnodes⟩ := List.ne_and_not_mem_of_not_mem_cons h
      cases node with
      | none => exact absurd rfl hnode
      | some p => rw [List.reduceOption_cons_of_some, List.map_cons, ← ih hnodes]

/-- **The iterator enumerates the live entries exactly when no node is empty.** -/
theorem HtableStands.enumerates_iff (h : HtableStands htable t) :
    Enumerates t.lookup (OscapHtable.allItems htable) ↔ t.Clean hsize := by
  rw [h.allItems]
  constructor
  · rintro ⟨-, hlive⟩ hempty
    obtain ⟨key, hkey, -⟩ := (hlive ⟨none, none⟩).mp (List.mem_map_of_mem hempty)
    cases hkey
  · intro hclean
    rw [eq_map_some hclean, List.map_map]
    have hkeys := ChainedTable.nodup_entries (hashOf_lt hsize) t
    refine ⟨?_, fun item => ?_⟩
    · refine (hkeys.of_map Prod.fst).map fun p q hpq => ?_
      obtain ⟨hkey, hvalue⟩ := HtableItem.mk.inj hpq
      exact Prod.ext (Option.some.inj hkey) hvalue
    · rw [List.mem_map]
      constructor
      · rintro ⟨⟨key, value⟩, hp, rfl⟩
        exact ⟨key, rfl, (ChainedTable.mem_entries (hashOf_lt hsize)).mp hp⟩
      · rintro ⟨key, hkey, hvalue⟩
        refine ⟨(key, item.value), (ChainedTable.mem_entries (hashOf_lt hsize)).mpr hvalue, ?_⟩
        obtain ⟨k, v⟩ := item
        obtain rfl : k = some key := hkey
        rfl

/-- Cloning entries adds them one by one. -/
theorem cloneLoop_entries {hsize : ℕ+} {copy : Htable V} {t : EntryTable V hsize}
    (h : HtableStands copy t) (cloner : Option V → Option V)
    (entries : List (List UInt8 × Option V)) :
    ∃ copy', cloneLoop cloner copy (entries.map fun p => itemOf (some p)) = some copy' ∧
      HtableStands copy'
        (entries.foldl (fun copy p => (copy.add p.1 (cloner p.2)).1) t : EntryTable V hsize) := by
  induction entries generalizing copy t with
  | nil => exact ⟨copy, rfl, h⟩
  | cons p entries ih =>
      obtain ⟨copy₁, hadd, hstands⟩ := h.add p.1 (cloner p.2)
      obtain ⟨copy₂, hrun, hstands₂⟩ := ih hstands
      refine ⟨copy₂, ?_, hstands₂⟩
      obtain ⟨k, v⟩ := p
      simp only [List.map_cons, cloneLoop, itemOf, Option.bind_eq_bind]
      rw [hadd]
      exact hrun

/-- **A table without empty nodes is cloned with its entries.** -/
theorem HtableStands.clone (h : HtableStands htable t) (hclean : t.Clean hsize)
    (cloner : Option V → Option V) :
    ∃ copy, oscapHtableClone htable cloner = some copy ∧
      HasEntries copy fun key => (t.lookup key).map cloner := by
  obtain ⟨copy, hrun, hstands⟩ := cloneLoop_entries (htableStands_new oscapDefaultHsize) cloner
    (t.entries hsize).reduceOption
  refine ⟨copy, ?_, fun key => ?_⟩
  · rw [oscapHtableClone, h.allItems, eq_map_some hclean, List.map_map]
    exact hrun
  · rw [hstands.lookup, Option.map_map, show HtableItem.value ∘ (fun value : Option V =>
      (⟨some key, value⟩ : HtableItem V)) = id from rfl, Option.map_id]
    ext value
    rw [id, ChainedTable.lookup_foldl_add cloner (ChainedTable.nodup_entries (hashOf_lt hsize) t)
      (fun _ _ => rfl)]
    simp [ChainedTable.mem_entries (hashOf_lt hsize), Option.map_eq_some_iff]

/-- The table after a sequence of calls, and when it has no empty node. -/
theorem run_clean_iff (hsize : ℕ+) (ops : List (HtableOp V)) :
    ∃ htable t, htableRun (oscapHtableNew1 hsize) ops = some (htable, (mapRun noEntries ops).2) ∧
      HtableStands htable (t : EntryTable V hsize) ∧ t.lookup = (mapRun noEntries ops).1 ∧
      (t.Clean hsize ↔ NothingDetached noEntries ops) := by
  obtain ⟨htable, t, hrun, hstands, hlookup, hclean⟩ :=
    htableRun_spec (htableStands_new hsize) ops
  have hempty : (ChainedTable.empty : EntryTable V hsize).Clean hsize := by
    rw [ChainedTable.clean_iff]
    exact fun _ _ h => nomatch h
  rw [and_iff_right hempty] at hclean
  exact ⟨htable, t, hrun, hstands, hlookup, hclean⟩

/-- An iterator that enumerates the live entries has met no empty node. -/
theorem nothingDetached_of_isFiniteMap {cloner : Option V → Option V} {ops : List (HtableOp V)}
    (h : IsFiniteMap hsize cloner ops) : NothingDetached noEntries ops := by
  obtain ⟨htable, fuel, items, copy, hrun, hitems, henum, -⟩ := h
  obtain ⟨htable', t, hrun', hstands, hlookup, hclean⟩ := run_clean_iff hsize ops
  obtain ⟨rfl, -⟩ := Prod.mk.inj (Option.some.inj (hrun'.symm.trans hrun))
  rw [(enumerate_new _ items).mp ⟨fuel, hitems⟩, ← hlookup] at henum
  exact hclean.mp (hstands.enumerates_iff.mp henum)

/-- **The table is a finite map for all its readers exactly when no live entry was detached.** -/
theorem htable_right_iff (hsize : ℕ+) (cloner : Option V → Option V) (ops : List (HtableOp V)) :
    IsFiniteMap hsize cloner ops ↔ NothingDetached noEntries ops := by
  constructor
  · exact nothingDetached_of_isFiniteMap
  · intro h
    obtain ⟨htable, t, hrun, hstands, hlookup, hclean⟩ := run_clean_iff hsize ops
    have hno := hclean.mpr h
    obtain ⟨fuel, hitems⟩ := (enumerate_new htable _).mpr rfl
    obtain ⟨copy, hcopy, hentries⟩ := hstands.clone hno cloner
    rw [hlookup] at hentries
    exact ⟨htable, fuel, _, copy, hrun, hitems, hlookup ▸ hstands.enumerates_iff.mpr hno, hcopy,
      hentries⟩

/-- An entry that is added and detached again: its item is still enumerated. -/
theorem not_htable_right :
    ¬ IsFiniteMap oscapDefaultHsize id
      [.add (bytes ['a']) (some ()), .detach (bytes ['a'])] := by
  intro h
  obtain ⟨-, hdetach, -⟩ := nothingDetached_of_isFiniteMap h
  have hnone := hdetach _ rfl
  simp [mapStep, noEntries] at hnone

end OpenScap.OscapHtable
