import Mathlib.Data.List.Nodup
import Mathlib.Data.List.Pairwise
import OpenScap.PaddedDecimal

/-!
# Item ids

Every probe process gives an id to each item that it stores (`probe_icache_item_setID`): a `1`,
the process id with at least five digits and the number of the item, with nothing in between.
The library reads the items of all probes (`oval_sexp_to_sysitem`) and takes a system item that
has the id already for the same item.

The ids of two processes are the same text when the process id of the one continues that of the
other, as 123456 continues 12345: item 67 of 12345 and item 7 of 123456 are both
`11234567`.

## Main results

* `mem_assignedIDs`, `assignedIDs_nodup_iff` — the ids that one process gives;
* `ids_nodup_iff` — when the ids of all processes differ;
* `substitution_of_same_id`, `noSubstitution_of_nodup` — what the library makes of them;
* `ids_unique_iff` — the ids are unique, and no item takes the place of another, exactly when
  no process gave out so many ids that it reached those of a process whose id continues its
  own.
-/

namespace OpenScap.ItemId

/-! ### The ids that a probe gives -/

/-- `probe_icache_item_setID`: the new `next_ID`, and the id. -/
def probeIcacheItemSetID (pid : ℕ) (nextID : UInt32) : UInt32 × List UInt8 :=
  let localID := nextID + 1
  (localID, ascii '1' :: (formatPadded 5 pid ++ formatLu localID.toNat))

/-- The ids of the items that a process stores, one after the other. -/
def assignedIDs (pid : ℕ) (nextID : UInt32) : ℕ → List (List UInt8)
  | 0 => []
  | count + 1 =>
      let (nextID, id) := probeIcacheItemSetID pid nextID
      id :: assignedIDs pid nextID count

/-- A probe process, and how many items it stored. -/
structure Probe where
  pid : ℕ
  count : ℕ

/-- The probe processes of a collection. -/
structure Collection where
  probes : List Probe
  /-- The processes have distinct ids. -/
  distinct : (probes.map Probe.pid).Nodup

/-- All ids of a collection. -/
def Collection.ids (c : Collection) : List (List UInt8) :=
  c.probes.flatMap fun p => assignedIDs p.pid 0 p.count

/-- The number of an item, counted by a `uint32_t` from 1 on. -/
def localNumber (i : ℕ) : ℕ := (i + 1) % 2 ^ 32

/-- The id of an item. -/
def itemId (pid i : ℕ) : List UInt8 :=
  ascii '1' :: (formatPadded 5 pid ++ formatLu (localNumber i))

/-- The least number that is given out. -/
def leastNumber (count : ℕ) : ℕ := if count = 2 ^ 32 then 0 else 1

/-- **No process reaches the ids of another.** A process that stored items, whose id continues
that of `p` by the digits of `r`, shares ids with `p` from the number `10 * r` on. -/
structure Collection.Apart (c : Collection) : Prop where
  counts : ∀ p ∈ c.probes, p.count ≤ 2 ^ 32
  apart : ∀ p ∈ c.probes, ∀ q ∈ c.probes, 0 < q.count → ∀ r, Continues 5 p.pid q.pid r →
    p.count < 10 * r + leastNumber q.count

/-! ### What the library makes of the ids -/

/-- `oval_string_map`: a list of entries, the largest key first. -/
abbrev StringMap (V : Type) : Type := List (List UInt8 × V)

/-- `oval_string_map_get_value`. -/
def ovalStringMapGetValue {V : Type} (map : StringMap V) (key : List UInt8) : Option V :=
  (map.find? fun entry => strcmp key entry.1 = 0).map Prod.snd

/-- `oval_string_map_put`. -/
def ovalStringMapPut {V : Type} (map : StringMap V) (key : List UInt8) (item : V) : StringMap V :=
  match map with
  | [] => [(key, item)]
  | (k, v) :: rest =>
      if strcmp key k < 0 then (k, v) :: ovalStringMapPut rest key item
      else if strcmp key k = 0 then (key, item) :: rest
      else (key, item) :: (k, v) :: rest

/-- What a probe collected: the name of the item, its status and its entities. -/
structure ItemBody (E : Type) where
  name : List UInt8
  status : ℕ
  entities : List E

/-- `struct oval_sysitem`. -/
structure Sysitem (S : Type) where
  id : List UInt8
  subtype : ℕ
  status : ℕ
  sysents : List S

/-- What `oval_sexp_to_sysitem` calls: `oval_str_to_subtype`, and `oval_sexp_to_sysent`, which
leaves out what it cannot read and marks what the mask map of the object names. -/
structure SysentOps (E S M : Type) where
  strToSubtype : List UInt8 → ℕ
  sexpToSysent : M → E → Option S

variable {E S M : Type}

/-- The system item that is made of an item, whose name is `kind` and `_item`. -/
def sysitemOf (ops : SysentOps E S M) (mask : M) (id kind : List UInt8) (body : ItemBody E) :
    Sysitem S :=
  ⟨id, ops.strToSubtype kind, body.status, body.entities.filterMap (ops.sexpToSysent mask)⟩

/-- `oval_sexp_to_sysitem`: the map of the system items, and the system item. It is `none` when
the name of a new item has no underscore, where `strcmp` would read through `NULL`. -/
def ovalSexpToSysitem (ops : SysentOps E S M) (sysitemMap : StringMap (Sysitem S)) (mask : M)
    (id : List UInt8) (body : ItemBody E) : Option (StringMap (Sysitem S) × Option (Sysitem S)) :=
  match ovalStringMapGetValue sysitemMap id with
  | some sysitem => some (sysitemMap, some sysitem)
  | none =>
    match strrchr (ascii '_') body.name with
    | none => none
    | some (kind, suffix) =>
        if suffix ≠ bytes ['i', 't', 'e', 'm'] then some (sysitemMap, none)
        else
          let sysitem := sysitemOf ops mask id kind body
          some (ovalStringMapPut sysitemMap id sysitem, some sysitem)

/-- An item in the answer of a probe, for an object with a mask. The same item can be in several
answers. -/
structure Delivery (M : Type) where
  pid : ℕ
  number : ℕ
  mask : M

/-- The item was stored by one of the probes. -/
def Collection.Produced (c : Collection) (d : Delivery M) : Prop :=
  ∃ p ∈ c.probes, p.pid = d.pid ∧ d.number < p.count

/-- Items read one after the other, with the system item that each of them gets. -/
def deliver (ops : SysentOps E S M) (body : ℕ → ℕ → ItemBody E) :
    StringMap (Sysitem S) → List (Delivery M) →
      Option (StringMap (Sysitem S) × List (Option (Sysitem S)))
  | map, [] => some (map, [])
  | map, d :: ds => do
      let (map, sysitem) ←
        ovalSexpToSysitem ops map d.mask (itemId d.pid d.number) (body d.pid d.number)
      let (map, sysitems) ← deliver ops body map ds
      return (map, sysitem :: sysitems)

/-- A system item that was made of a delivered item, for an object that the item is in. -/
def MadeOf (ops : SysentOps E S M) (body : ℕ → ℕ → ItemBody E) (d : Delivery M)
    (sysitem : Sysitem S) : Prop :=
  ∃ mask kind, sysitem = sysitemOf ops mask (itemId d.pid d.number) kind (body d.pid d.number) ∧
    strrchr (ascii '_') (body d.pid d.number).name = some (kind, bytes ['i', 't', 'e', 'm'])

/-- **No item takes the place of another**: whatever the probes collected and in whichever order
it is read, every item gets a system item that was made of it. -/
def Collection.NoSubstitution (ops : SysentOps E S M) (c : Collection) : Prop :=
  ∀ (body : ℕ → ℕ → ItemBody E) (deliveries : List (Delivery M)),
    (∀ d ∈ deliveries, c.Produced d) →
    ∀ map sysitems, deliver ops body [] deliveries = some (map, sysitems) →
      ∀ (i : ℕ) (d : Delivery M) (sysitem : Sysitem S), deliveries[i]? = some d →
        sysitems[i]? = some (some sysitem) → MadeOf ops body d sysitem

/-! ### The ids of one probe -/

/-- The ids, from any number on. -/
theorem assignedIDs_eq (pid start count : ℕ) :
    assignedIDs pid (UInt32.ofNat start) count =
      (List.range count).map fun i => itemId pid (start + i) := by
  induction count generalizing start with
  | zero => rfl
  | succ count ih =>
      have hnext : UInt32.ofNat start + 1 = UInt32.ofNat (start + 1) := by
        rw [UInt32.ofNat_add]
        rfl
      rw [assignedIDs, List.range_succ_eq_map, List.map_cons, List.map_map]
      simp only [probeIcacheItemSetID, hnext, ih]
      congr 1
      refine List.map_congr_left fun i _ => ?_
      rw [Function.comp, Nat.succ_eq_add_one, Nat.add_assoc, Nat.add_comm 1 i]

/-- **The ids that a process gives.** -/
theorem mem_assignedIDs {pid count : ℕ} {id : List UInt8} :
    id ∈ assignedIDs pid 0 count ↔ ∃ i < count, itemId pid i = id := by
  rw [show (0 : UInt32) = UInt32.ofNat 0 from rfl, assignedIDs_eq]
  simp

/-- Two ids are the same text. -/
theorem itemId_eq_iff {p q i j : ℕ} :
    itemId p i = itemId q j ↔
      (p = q ∧ localNumber i = localNumber j) ∨
      (∃ r, Continues 5 p q r ∧
        localNumber i = r * 10 ^ (formatLu (localNumber j)).length + localNumber j) ∨
      ∃ r, Continues 5 q p r ∧
        localNumber j = r * 10 ^ (formatLu (localNumber i)).length + localNumber i := by
  rw [itemId, itemId, List.cons.injEq, and_iff_right rfl, concat_eq_iff (by decide)]

/-- The ids of one process differ as far as its numbers do. -/
theorem itemId_inj {pid i j : ℕ} : itemId pid i = itemId pid j ↔ localNumber i = localNumber j := by
  rw [itemId_eq_iff]
  constructor
  · rintro (⟨-, h⟩ | ⟨r, h, -⟩ | ⟨r, h, -⟩)
    · exact h
    · exact absurd h.lt (Nat.lt_irrefl _)
    · exact absurd h.lt (Nat.lt_irrefl _)
  · exact fun h => .inl ⟨rfl, h⟩

/-- **The ids that one process gives differ** until its counter has gone round. -/
theorem assignedIDs_nodup_iff {pid count : ℕ} :
    (assignedIDs pid 0 count).Nodup ↔ count ≤ 2 ^ 32 := by
  rw [show (0 : UInt32) = UInt32.ofNat 0 from rfl, assignedIDs_eq, List.nodup_map_iff_inj_on
    List.nodup_range]
  simp only [List.mem_range, Nat.zero_add, itemId_inj, localNumber]
  constructor
  · intro h
    by_contra hmany
    have := h 0 (by omega) (2 ^ 32) (by omega) (by omega)
    omega
  · intro hle i hi j hj h
    omega

/-! ### The ids of all probes -/

/-- The numbers that are given out. -/
theorem localNumber_bounds {i count : ℕ} (hi : i < count) (hcount : count ≤ 2 ^ 32) :
    leastNumber count ≤ localNumber i ∧ localNumber i ≤ count := by
  rw [leastNumber, localNumber]
  split <;> omega

/-- The least number is given out. -/
theorem exists_leastNumber {count : ℕ} (hpos : 0 < count) :
    ∃ i < count, localNumber i = leastNumber count ∧ leastNumber count < 10 := by
  rw [leastNumber]
  split
  · exact ⟨2 ^ 32 - 1, by omega, by decide, by decide⟩
  · exact ⟨0, hpos, by decide, by decide⟩

/-- Where no process reaches the ids of another, a number that continues another process's is
never given out. -/
theorem Collection.Apart.not_reached {c : Collection} (h : c.Apart) {p q : Probe}
    (hp : p ∈ c.probes) (hq : q ∈ c.probes) {i j r : ℕ} (hi : i < p.count) (hj : j < q.count)
    (hr : Continues 5 p.pid q.pid r) :
    localNumber i ≠ r * 10 ^ (formatLu (localNumber j)).length + localNumber j := by
  intro he
  have hlt := h.apart p hp q hq (by omega) r hr
  have hip := localNumber_bounds hi (h.counts p hp)
  have hjq := localNumber_bounds hj (h.counts q hq)
  have hlen : 0 < (formatLu (localNumber j)).length := lt_length_formatLu.mpr (.inl rfl)
  have hten : r * 10 ≤ r * 10 ^ (formatLu (localNumber j)).length :=
    Nat.mul_le_mul_left _ (Nat.le_self_pow (by omega) 10)
  omega

/-- A process that reaches the ids of another shares one with it. -/
theorem exists_shared {p q : Probe} {r : ℕ} (hr : Continues 5 p.pid q.pid r)
    (hp : p.count ≤ 2 ^ 32) (hpos : 0 < q.count)
    (hreach : 10 * r + leastNumber q.count ≤ p.count) :
    ∃ i < p.count, ∃ j < q.count, itemId p.pid i = itemId q.pid j := by
  obtain ⟨j, hj, hnumber, hten⟩ := exists_leastNumber hpos
  have hrpos := hr.positive
  have hleast : leastNumber q.count ≤ 1 := by
    rw [leastNumber]
    split <;> omega
  have hi : localNumber (10 * r + leastNumber q.count - 1) = 10 * r + leastNumber q.count := by
    rw [localNumber]
    omega
  have hlen : (formatLu (leastNumber q.count)).length = 1 := by
    rw [formatLu_of_lt hten]
    rfl
  refine ⟨10 * r + leastNumber q.count - 1, by omega, j, hj, ?_⟩
  refine itemId_eq_iff.mpr (.inr (.inl ⟨r, hr, ?_⟩))
  rw [hi, hnumber, hlen]
  omega

/-- Where no process reaches the ids of another, an id tells the process and the number. -/
theorem Collection.Apart.itemId_inj {c : Collection} (h : c.Apart) {p q : Probe}
    (hp : p ∈ c.probes) (hq : q ∈ c.probes) {i j : ℕ} (hi : i < p.count) (hj : j < q.count)
    (heq : itemId p.pid i = itemId q.pid j) : p.pid = q.pid ∧ localNumber i = localNumber j := by
  rcases itemId_eq_iff.mp heq with hsame | ⟨r, hr, he⟩ | ⟨r, hr, he⟩
  · exact hsame
  · exact absurd he (h.not_reached hp hq hi hj hr)
  · exact absurd he (h.not_reached hq hp hj hi hr)

/-- **When the ids of all processes differ.** -/
theorem ids_nodup_iff (c : Collection) : c.ids.Nodup ↔ c.Apart := by
  have hpids := List.pairwise_map.mp c.distinct
  rw [Collection.ids, List.nodup_flatMap]
  constructor
  · rintro ⟨hown, hdisjoint⟩
    have hcounts (p : Probe) (hp : p ∈ c.probes) : p.count ≤ 2 ^ 32 :=
      assignedIDs_nodup_iff.mp (hown p hp)
    refine ⟨hcounts, fun p hp q hq hpos r hr => ?_⟩
    by_contra hreach
    obtain ⟨i, hi, j, hj, heq⟩ :=
      exists_shared hr (hcounts p hp) hpos (not_lt.mp hreach)
    have hne : p ≠ q := fun he => absurd hr.lt (he ▸ Nat.lt_irrefl _)
    have : Std.Symm (Function.onFun List.Disjoint fun p : Probe => assignedIDs p.pid 0 p.count) :=
      ⟨fun _ _ h => List.disjoint_symm h⟩
    have hshared := hdisjoint.forall hp hq hne
    exact hshared (mem_assignedIDs.mpr ⟨i, hi, rfl⟩) (mem_assignedIDs.mpr ⟨j, hj, heq.symm⟩)
  · intro h
    refine ⟨fun p hp => assignedIDs_nodup_iff.mpr (h.counts p hp), ?_⟩
    refine hpids.imp_of_mem fun {p q} hp hq hne id hidp hidq => ?_
    obtain ⟨i, hi, rfl⟩ := mem_assignedIDs.mp hidp
    obtain ⟨j, hj, heq⟩ := mem_assignedIDs.mp hidq
    exact hne (h.itemId_inj hq hp hj hi heq).1.symm

/-! ### What the library makes of them -/

/-- An entry of the map after an insertion. -/
theorem mem_ovalStringMapPut {V : Type} {map : StringMap V} {key : List UInt8} {item : V}
    {entry : List UInt8 × V} (h : entry ∈ ovalStringMapPut map key item) :
    entry = (key, item) ∨ entry ∈ map := by
  induction map with
  | nil => exact .inl (List.mem_singleton.mp h)
  | cons first rest ih =>
      rw [ovalStringMapPut] at h
      split at h
      · rcases List.mem_cons.mp h with rfl | h
        · exact .inr List.mem_cons_self
        · exact (ih h).imp_right (List.mem_cons_of_mem _)
      · split at h
        · exact (List.mem_cons.mp h).imp_right (List.mem_cons_of_mem _)
        · exact List.mem_cons.mp h

/-- What is found is an entry. -/
theorem mem_of_ovalStringMapGetValue {V : Type} {map : StringMap V} {key : List UInt8} {item : V}
    (h : ovalStringMapGetValue map key = some item) : (key, item) ∈ map := by
  obtain ⟨⟨k, v⟩, hfind, rfl⟩ := Option.map_eq_some_iff.mp h
  have hkey := List.find?_some hfind
  rw [decide_eq_true_iff, strcmp_eq_zero] at hkey
  have hmem := List.mem_of_find?_eq_some hfind
  rwa [hkey]

/-- The entries of the map of system items: each was made of an item that a probe stored. -/
def MapMade (ops : SysentOps E S M) (c : Collection) (body : ℕ → ℕ → ItemBody E)
    (map : StringMap (Sysitem S)) : Prop :=
  ∀ entry ∈ map, ∃ d : Delivery M, c.Produced d ∧ entry.1 = itemId d.pid d.number ∧
    MadeOf ops body d entry.2

/-- Reading one item, where an id tells the item: the system item was made of it. -/
theorem ovalSexpToSysitem_spec {ops : SysentOps E S M} {c : Collection} (h : c.ids.Nodup)
    {body : ℕ → ℕ → ItemBody E} {map map' : StringMap (Sysitem S)} (hmap : MapMade ops c body map)
    {d : Delivery M} (hd : c.Produced d) {result : Option (Sysitem S)}
    (hread : ovalSexpToSysitem ops map d.mask (itemId d.pid d.number) (body d.pid d.number) =
      some (map', result)) :
    MapMade ops c body map' ∧ ∀ sysitem, result = some sysitem → MadeOf ops body d sysitem := by
  rw [ovalSexpToSysitem] at hread
  cases hget : ovalStringMapGetValue map (itemId d.pid d.number) with
  | some found =>
      rw [hget] at hread
      obtain ⟨rfl, rfl⟩ := Prod.mk.inj (Option.some.inj hread)
      refine ⟨hmap, fun sysitem he => ?_⟩
      obtain rfl := Option.some.inj he
      obtain ⟨d', hd', hid, hmade⟩ := hmap _ (mem_of_ovalStringMapGetValue hget)
      -- the item that it was made of has the same id, so it is the same item
      obtain ⟨p, hp, hpid, hnum⟩ := hd
      obtain ⟨q, hq, hqid, hnum'⟩ := hd'
      have hapart := (ids_nodup_iff c).mp h
      rw [← hpid, ← hqid] at hid
      obtain ⟨hsame, hlocal⟩ := hapart.itemId_inj hp hq hnum hnum' hid
      have hpq : p = q := List.inj_on_of_nodup_map c.distinct hp hq hsame
      have hnumber : d.number = d'.number := by
        have hcount := hapart.counts p hp
        subst hpq
        rw [localNumber, localNumber] at hlocal
        omega
      rw [MadeOf, ← hnumber, show d'.pid = d.pid by rw [← hqid, ← hpid, hsame]] at hmade
      exact hmade
  | none =>
      rw [hget] at hread
      cases hname : strrchr (ascii '_') (body d.pid d.number).name with
      | none =>
          rw [hname] at hread
          cases hread
      | some parts =>
          obtain ⟨kind, suffix⟩ := parts
          rw [hname] at hread
          dsimp only at hread
          split at hread
          · obtain ⟨rfl, rfl⟩ := Prod.mk.inj (Option.some.inj hread)
            exact ⟨hmap, fun _ he => nomatch he⟩
          · rename_i hsuffix
            obtain ⟨rfl, rfl⟩ := Prod.mk.inj (Option.some.inj hread)
            have hmade : MadeOf ops body d (sysitemOf ops d.mask (itemId d.pid d.number) kind
                (body d.pid d.number)) := by
              refine ⟨d.mask, kind, rfl, ?_⟩
              rw [hname, not_not.mp hsuffix]
            refine ⟨fun entry he => ?_, fun sysitem he => Option.some.inj he ▸ hmade⟩
            rcases mem_ovalStringMapPut he with rfl | he
            · exact ⟨d, hd, rfl, hmade⟩
            · exact hmap entry he

/-- **Where all ids differ no item takes the place of another.** -/
theorem noSubstitution_of_nodup (ops : SysentOps E S M) {c : Collection} (h : c.ids.Nodup) :
    c.NoSubstitution ops := by
  intro body deliveries
  suffices hall : ∀ map, MapMade ops c body map → (∀ d ∈ deliveries, c.Produced d) →
      ∀ map' sysitems, deliver ops body map deliveries = some (map', sysitems) →
        ∀ (i : ℕ) (d : Delivery M) (sysitem : Sysitem S), deliveries[i]? = some d →
          sysitems[i]? = some (some sysitem) → MadeOf ops body d sysitem from
    hall [] (fun _ h => nomatch h)
  induction deliveries with
  | nil =>
      intro map _ _ map' sysitems _ i d sysitem hi
      cases hi
  | cons first rest ih =>
      intro map hmap hproduced map' sysitems hrun i d sysitem hi hs
      simp only [deliver, Option.bind_eq_bind, Option.pure_def] at hrun
      obtain ⟨⟨map₁, result⟩, hread, hrun⟩ := Option.bind_eq_some_iff.mp hrun
      obtain ⟨⟨map₂, results⟩, hrest, hrun⟩ := Option.bind_eq_some_iff.mp hrun
      obtain ⟨rfl, rfl⟩ := Prod.mk.inj (Option.some.inj hrun)
      obtain ⟨hfirst, hrestp⟩ := List.forall_mem_cons.mp hproduced
      obtain ⟨hmap₁, hmade⟩ := ovalSexpToSysitem_spec h hmap hfirst hread
      cases i with
      | zero =>
          obtain rfl := Option.some.inj hi
          exact hmade sysitem (Option.some.inj hs)
      | succ i => exact ih map₁ hmap₁ hrestp map₂ results hrest i d sysitem hi hs

/-- **The ids are unique, and no item takes the place of another, exactly when no process
reaches the ids of another.** -/
theorem ids_unique_iff (ops : SysentOps E S M) (c : Collection) :
    (c.ids.Nodup ∧ c.NoSubstitution ops) ↔ c.Apart := by
  rw [← ids_nodup_iff]
  exact ⟨fun h => h.1, fun h => ⟨h, noSubstitution_of_nodup ops h⟩⟩

/-- The processes 12345, with 67 items, and 123456, with 7. -/
def collidingProbes : Collection := ⟨[⟨12345, 67⟩, ⟨123456, 7⟩], by decide⟩

/-- Item 67 of process 12345 and item 7 of process 123456 have the same id: where the second is
read after the first, it gets the system item that was made of the first. -/
theorem not_ids_unique :
    ¬ (collidingProbes.ids.Nodup ∧ collidingProbes.NoSubstitution
      (⟨fun _ => 0, fun _ e => some e⟩ : SysentOps Unit Unit Unit)) := by
  rintro ⟨-, h⟩
  -- the items differ in their status
  have hmade := h (fun pid _ => ⟨bytes ['x', '_', 'i', 't', 'e', 'm'], pid, []⟩)
    [⟨12345, 66, ()⟩, ⟨123456, 6, ()⟩] (by
      intro d hd
      rcases List.mem_pair.mp hd with rfl | rfl
      · exact ⟨⟨12345, 67⟩, List.mem_cons_self, rfl, by decide⟩
      · exact ⟨⟨123456, 7⟩, List.mem_cons_of_mem _ List.mem_cons_self, rfl, by decide⟩)
    _ _ rfl 1 _ _ rfl rfl
  obtain ⟨mask, kind, he, -⟩ := hmade
  have hstatus : 12345 = 123456 := congrArg Sysitem.status he
  omega

end OpenScap.ItemId
