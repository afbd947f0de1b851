import Mathlib.Data.List.Nodup
import Mathlib.Data.List.ReduceOption
import Mathlib.Logic.Function.Basic

/-!
# Hash tables with chains

A table has a chain of nodes for each value of a hash function. A node is a key with its value,
or empty: an entry is taken out by emptying its node, which stays in the chain. The keys of a
chain are different and have its hash value; both are part of the type.

## Main results

* `ChainedTable.lookup_add`, `ChainedTable.lookup_detach` — the table as a partial map.
* `ChainedTable.count_entries` — going through the chains meets every entry of the map once.
* `ChainedTable.clean_detach` — a value that is taken out leaves an empty node.
* `ChainedTable.lookup_clone` — the table that has the entries of another one.
-/

variable {κ α : Type*}

/-- A table whose chains are selected by `hash`. -/
structure ChainedTable (κ α : Type*) (hash : κ → ℕ) where
  chain : ℕ → List (Option (κ × α))
  nodup : ∀ i, ((chain i).reduceOption.map Prod.fst).Nodup
  hash_eq : ∀ i p, some p ∈ chain i → hash p.1 = i

namespace ChainedTable

variable {hash : κ → ℕ}

/-- The table without nodes. -/
def empty : ChainedTable κ α hash where
  chain _ := []
  nodup _ := List.nodup_nil
  hash_eq _ _ h := by cases h

/-- A chain has at most one value for a key. -/
theorem eq_of_mem_chain {t : ChainedTable κ α hash} {i : ℕ} {k : κ} {v w : α}
    (hv : some (k, v) ∈ t.chain i) (hw : some (k, w) ∈ t.chain i) : v = w := by
  have hinj := List.inj_on_of_nodup_map (t.nodup i) (List.reduceOption_mem_iff.mpr hv)
    (List.reduceOption_mem_iff.mpr hw) rfl
  exact (Prod.mk.inj hinj).2

variable [DecidableEq κ]

/-- The value of the first node that has the key. -/
def lookup (t : ChainedTable κ α hash) (k : κ) : Option α :=
  (t.chain (hash k)).findSome? fun node =>
    node.bind fun p => if p.1 = k then some p.2 else none

/-- **The value of a key is that of its node.** -/
theorem lookup_eq_some_iff {t : ChainedTable κ α hash} {k : κ} {v : α} :
    t.lookup k = some v ↔ some (k, v) ∈ t.chain (hash k) := by
  constructor
  · intro h
    obtain ⟨node, hnode, hv⟩ := List.exists_of_findSome?_eq_some h
    obtain ⟨⟨k', w⟩, rfl, hp⟩ := Option.bind_eq_some_iff.mp hv
    split at hp
    · rename_i hk
      obtain rfl : k' = k := hk
      obtain rfl : w = v := Option.some.inj hp
      exact hnode
    · cases hp
  · intro h
    cases hv : t.lookup k with
    | none =>
        have hnone := List.findSome?_eq_none_iff.mp hv _ h
        simp at hnone
    | some w =>
        obtain ⟨node, hnode, hw⟩ := List.exists_of_findSome?_eq_some hv
        obtain ⟨p, rfl, hp⟩ := Option.bind_eq_some_iff.mp hw
        split at hp
        · rename_i hk
          obtain rfl := Option.some.inj hp
          obtain ⟨k', w⟩ := p
          obtain rfl : k' = k := hk
          exact congrArg some (eq_of_mem_chain hnode h)
        · cases hp

/-- The empty table has no values. -/
@[simp] theorem lookup_empty (k : κ) : (empty : ChainedTable κ α hash).lookup k = none := rfl

/-- Enter a value in front of its chain, unless the key has one. -/
def add (t : ChainedTable κ α hash) (k : κ) (v : α) : ChainedTable κ α hash × Bool :=
  if h : t.lookup k = none then
    ({ chain := Function.update t.chain (hash k) (some (k, v) :: t.chain (hash k))
       nodup := by
         intro i
         rcases eq_or_ne i (hash k) with rfl | hne
         · rw [Function.update_self, List.reduceOption_cons_of_some, List.map_cons,
             List.nodup_cons]
           refine ⟨fun hmem => ?_, t.nodup (hash k)⟩
           obtain ⟨⟨k', w⟩, hw, rfl⟩ := List.mem_map.mp hmem
           rw [lookup_eq_some_iff.mpr (List.reduceOption_mem_iff.mp hw)] at h
           cases h
         · rw [Function.update_of_ne hne]
           exact t.nodup i
       hash_eq := by
         intro i p hp
         rcases eq_or_ne i (hash k) with rfl | hne
         · rw [Function.update_self] at hp
           rcases List.mem_cons.mp hp with heq | hp
           · rw [Option.some.inj heq]
           · exact t.hash_eq (hash k) p hp
         · rw [Function.update_of_ne hne] at hp
           exact t.hash_eq i p hp }, true)
  else (t, false)

/-- Adding to a key without a value succeeds. -/
theorem add_snd {t : ChainedTable κ α hash} {k : κ} (h : t.lookup k = none) (v : α) :
    (t.add k v).2 = true := by
  rw [add, dif_pos h]

/-- **The table after a value is entered.** -/
theorem lookup_add {t : ChainedTable κ α hash} {k : κ} (h : t.lookup k = none) (v : α) (k' : κ) :
    (t.add k v).1.lookup k' = if k' = k then some v else t.lookup k' := by
  rw [add, dif_pos h]
  ext w
  rw [lookup_eq_some_iff]
  dsimp only
  rcases eq_or_ne k' k with rfl | hne
  · rw [if_pos rfl, Function.update_self, List.mem_cons, ← lookup_eq_some_iff, h]
    simp [eq_comm]
  · rw [if_neg hne, lookup_eq_some_iff]
    rcases eq_or_ne (hash k') (hash k) with heq | hne'
    · rw [heq, Function.update_self, List.mem_cons]
      simp [hne]
    · rw [Function.update_of_ne hne']

/-- Empty the node of a key. There is at most one. -/
def detach (t : ChainedTable κ α hash) (k : κ) : ChainedTable κ α hash where
  chain i := (t.chain i).map fun node => node.filter fun p => p.1 ≠ k
  nodup i := by
    have hsub : ((t.chain i).map fun node => node.filter fun p => p.1 ≠ k).reduceOption =
        (t.chain i).reduceOption.filter fun p => p.1 ≠ k := by
      induction t.chain i with
      | nil => rfl
      | cons node nodes ih =>
          cases node with
          | none => simpa using ih
          | some p =>
              by_cases hp : p.1 = k
              · simpa [Option.filter_some, hp, List.reduceOption_cons_of_none,
                  List.reduceOption_cons_of_some] using ih
              · simpa [Option.filter_some, hp, List.reduceOption_cons_of_some] using ih
    rw [hsub]
    exact (t.nodup i).sublist (List.filter_sublist.map Prod.fst)
  hash_eq i p h := by
    obtain ⟨node, hnode, heq⟩ := List.mem_map.mp h
    obtain ⟨rfl, -⟩ := Option.filter_eq_some_iff.mp heq
    exact t.hash_eq i p hnode

/-- **The table after the value of a key is taken out.** -/
theorem lookup_detach (t : ChainedTable κ α hash) (k k' : κ) :
    (t.detach k).lookup k' = if k' = k then none else t.lookup k' := by
  ext w
  rw [lookup_eq_some_iff]
  change some (k', w) ∈ (t.chain (hash k')).map _ ↔ _
  rw [List.mem_map]
  constructor
  · rintro ⟨node, hnode, heq⟩
    obtain ⟨rfl, hne⟩ := Option.filter_eq_some_iff.mp heq
    rw [if_neg (of_decide_eq_true hne), lookup_eq_some_iff]
    exact hnode
  · intro h
    split at h
    · cases h
    · rename_i hne
      exact ⟨_, lookup_eq_some_iff.mp h, by simp [hne]⟩

/-- Going through the chains. -/
def entries (t : ChainedTable κ α hash) (size : ℕ) : List (Option (κ × α)) :=
  (List.range size).flatMap t.chain

/-- Skipping the empty nodes keeps the count of the others. -/
theorem count_reduceOption {β : Type*} [BEq β] [LawfulBEq β] [BEq (Option β)]
    [LawfulBEq (Option β)] (l : List (Option β)) (b : β) :
    l.reduceOption.count b = l.count (some b) := by
  induction l with
  | nil => rfl
  | cons node nodes ih =>
      cases node with
      | none => simpa using ih
      | some p =>
          rw [List.reduceOption_cons_of_some, List.count_cons, List.count_cons, ih]
          exact congrArg _ (if_congr (by rw [beq_iff_eq, beq_iff_eq, Option.some.injEq]) rfl rfl)

/-- **Going through the chains meets every entry once.** -/
theorem count_entries [DecidableEq α] {size : ℕ} (hsize : ∀ k, hash k < size)
    (t : ChainedTable κ α hash) (k : κ) (v : α) :
    (t.entries size).count (some (k, v)) = if t.lookup k = some v then 1 else 0 := by
  have hchain : ∀ i, (t.chain i).count (some (k, v)) ≤ 1 := by
    intro i
    have hnodup : (t.chain i).reduceOption.Nodup := (t.nodup i).of_map Prod.fst
    rw [← count_reduceOption]
    exact List.nodup_iff_count_le_one.mp hnodup (k, v)
  have hother : ∀ i, i ≠ hash k → (t.chain i).count (some (k, v)) = 0 := by
    intro i hi
    exact List.count_eq_zero.mpr fun hmem => hi (t.hash_eq i _ hmem).symm
  have hsum : ∀ n, ((List.range n).flatMap t.chain).count (some (k, v)) =
      if hash k < n then (t.chain (hash k)).count (some (k, v)) else 0 := by
    intro n
    induction n with
    | zero => rfl
    | succ n ih =>
        rw [List.range_succ, List.flatMap_append, List.count_append, ih, List.flatMap_singleton]
        rcases Nat.lt_trichotomy (hash k) n with hlt | heq | hgt
        · rw [if_pos hlt, if_pos (by omega), hother n (by omega), Nat.add_zero]
        · rw [if_neg (by omega), if_pos (by omega), heq, Nat.zero_add]
        · rw [if_neg (by omega), if_neg (by omega), hother n (by omega)]
  rw [entries, hsum, if_pos (hsize k)]
  split
  · rename_i hlookup
    have hpos := List.count_pos_iff.mpr (lookup_eq_some_iff.mp hlookup)
    have hle := hchain (hash k)
    omega
  · rename_i hlookup
    exact List.count_eq_zero.mpr fun hmem => hlookup (lookup_eq_some_iff.mpr hmem)

/-! ### Empty nodes -/

/-- No node among the first chains is empty. -/
def Clean (t : ChainedTable κ α hash) (size : ℕ) : Prop := none ∉ t.entries size

omit [DecidableEq κ] in
/-- An empty node is in one of the chains. -/
theorem clean_iff {t : ChainedTable κ α hash} {size : ℕ} :
    t.Clean size ↔ ∀ i < size, none ∉ t.chain i := by
  simp [Clean, entries]

/-- Entering a value empties no node. -/
theorem clean_add (t : ChainedTable κ α hash) (k : κ) (v : α) (size : ℕ) :
    (t.add k v).1.Clean size ↔ t.Clean size := by
  rw [clean_iff, clean_iff, add]
  split
  · refine forall₂_congr fun i _ => not_congr ?_
    dsimp only
    rcases eq_or_ne i (hash k) with rfl | hne
    · rw [Function.update_self, List.mem_cons]
      simp
    · rw [Function.update_of_ne hne]
  · rfl

/-- **Taking a value out leaves an empty node.** -/
theorem clean_detach (t : ChainedTable κ α hash) {k : κ} {size : ℕ} (hsize : hash k < size) :
    (t.detach k).Clean size ↔ t.Clean size ∧ t.lookup k = none := by
  have hmem (i : ℕ) : none ∈ (t.detach k).chain i ↔
      none ∈ t.chain i ∨ ∃ v, some (k, v) ∈ t.chain i := by
    change none ∈ (t.chain i).map _ ↔ _
    rw [List.mem_map]
    constructor
    · rintro ⟨node, hnode, hempty⟩
      cases node with
      | none => exact .inl hnode
      | some p =>
          obtain ⟨k', v⟩ := p
          obtain rfl : k' = k := by simpa [Option.filter_some] using hempty
          exact .inr ⟨v, hnode⟩
    · rintro (hnode | ⟨v, hnode⟩)
      · exact ⟨none, hnode, rfl⟩
      · exact ⟨_, hnode, by simp [Option.filter_some]⟩
  rw [clean_iff, clean_iff]
  constructor
  · intro h
    refine ⟨fun i hi hnode => h i hi ((hmem i).mpr (.inl hnode)), ?_⟩
    cases hkey : t.lookup k with
    | none => rfl
    | some v =>
        exact absurd ((hmem _).mpr (.inr ⟨v, lookup_eq_some_iff.mp hkey⟩)) (h _ hsize)
  · rintro ⟨h, hkey⟩ i hi hnode
    rcases (hmem i).mp hnode with hnode | ⟨v, hnode⟩
    · exact h i hi hnode
    · rw [← t.hash_eq i _ hnode] at hnode
      rw [lookup_eq_some_iff.mpr hnode] at hkey
      cases hkey

section Clone

variable {size : ℕ} (hsize : ∀ k, hash k < size)

include hsize in
/-- The entries that going through the chains meets. -/
theorem mem_entries {t : ChainedTable κ α hash} {k : κ} {v : α} :
    (k, v) ∈ (t.entries size).reduceOption ↔ t.lookup k = some v := by
  classical
  rw [← List.count_pos_iff, count_reduceOption, count_entries hsize]
  split <;> simp_all

include hsize in
/-- Going through the chains meets no key twice. -/
theorem nodup_entries (t : ChainedTable κ α hash) :
    ((t.entries size).reduceOption.map Prod.fst).Nodup := by
  classical
  have hnodup : (t.entries size).reduceOption.Nodup := by
    rw [List.nodup_iff_count_le_one]
    rintro ⟨k, v⟩
    rw [count_reduceOption, count_entries hsize]
    split <;> omega
  refine hnodup.map_on ?_
  rintro ⟨k, v⟩ hv ⟨k', w⟩ hw (rfl : k = k')
  rw [mem_entries hsize] at hv hw
  rw [Option.some.inj (hv.symm.trans hw)]

/-- A new table with the entries of a table, in which each value is cloned. -/
def clone (t : ChainedTable κ α hash) (size : ℕ) (cloner : α → α) : ChainedTable κ α hash :=
  (t.entries size).reduceOption.foldl (fun copy p => (copy.add p.1 (cloner p.2)).1) empty

/-- Entering entries with different keys that are free. -/
theorem lookup_foldl_add (cloner : α → α) {ps : List (κ × α)} (hps : (ps.map Prod.fst).Nodup)
    {t : ChainedTable κ α hash} (hfree : ∀ p ∈ ps, t.lookup p.1 = none) (k : κ) (w : α) :
    (ps.foldl (fun copy p => (copy.add p.1 (cloner p.2)).1) t).lookup k = some w ↔
      t.lookup k = some w ∨ ∃ v, (k, v) ∈ ps ∧ cloner v = w := by
  induction ps generalizing t with
  | nil => simp
  | cons p ps ih =>
      obtain ⟨k₀, v₀⟩ := p
      rw [List.map_cons, List.nodup_cons] at hps
      have hfirst := hfree (k₀, v₀) List.mem_cons_self
      have hlookup := lookup_add hfirst (cloner v₀)
      have hrest : ∀ p ∈ ps, (t.add k₀ (cloner v₀)).1.lookup p.1 = none := by
        intro p hp
        rw [hlookup, if_neg, hfree p (List.mem_cons_of_mem _ hp)]
        rintro heq
        exact hps.1 (heq ▸ List.mem_map_of_mem hp)
      rw [List.foldl_cons, ih hps.2 hrest, hlookup]
      constructor
      · rintro (h | ⟨v, hv, rfl⟩)
        · split at h
          · rename_i heq
            exact Or.inr ⟨v₀, heq ▸ List.mem_cons_self, Option.some.inj h⟩
          · exact Or.inl h
        · exact Or.inr ⟨v, List.mem_cons_of_mem _ hv, rfl⟩
      · rintro (h | ⟨v, hv, rfl⟩)
        · rw [if_neg]
          · exact Or.inl h
          · rintro rfl
            rw [hfirst] at h
            cases h
        · rcases List.mem_cons.mp hv with heq | hv
          · obtain ⟨rfl, rfl⟩ := Prod.mk.inj heq
            exact Or.inl (if_pos rfl)
          · exact Or.inr ⟨v, hv, rfl⟩

include hsize in
/-- **A cloned table finds the cloned values.** -/
theorem lookup_clone (t : ChainedTable κ α hash) (cloner : α → α) (k : κ) :
    (t.clone size cloner).lookup k = (t.lookup k).map cloner := by
  ext w
  rw [clone, lookup_foldl_add cloner (nodup_entries hsize t) (fun _ _ => lookup_empty _),
    lookup_empty, Option.map_eq_some_iff]
  simp only [reduceCtorEq, false_or, mem_entries hsize]

end Clone

end ChainedTable
