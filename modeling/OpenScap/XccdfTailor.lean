import Mathlib.Data.List.Find
import Mathlib.Order.Interval.Set.Basic
import OpenScap.CellStore
import OpenScap.XccdfRefine
import OpenScap.XccdfValue

/-!
# Tailored items

`xccdf_policy_tailor_item` makes a copy of an item of the benchmark and changes it as the profile
says. Items and the instances of values are cells of one memory, that point to each other by their
addresses; the parts of an item that are copied and otherwise not used are one value of any type.

A copy of a group and its children lies in no benchmark, so that nothing is entered under their
ids.

## Main results

* `clones_itemClone` — a copy keeps all cells that were there, and reads as the original;
* `tailorItem_spec` — what the call returns, and what it leaves;
* `tailorsPurely_iff` — when it leaves the benchmark as it was.
-/

open CellStore

namespace OpenScap.Tailor

/-! ### Items in memory -/

/-- `struct xccdf_value_instance`. -/
structure ValueInstance (ρ : Type) where
  selector : Option String
  value : Option String
  defval : Option String
  /-- `flags.defval_given`. -/
  defvalGiven : Bool
  rest : ρ
  deriving DecidableEq

/-- `struct xccdf_item_base`, without the parent. -/
structure ItemBase (ρ : Type) where
  id : String
  /-- The weight, unless it is the not-a-number. -/
  weight : Option Rat
  rest : ρ
  deriving DecidableEq

/-- What items of the different types have of their own; benchmarks, profiles and results are
`other`. -/
inductive Sub
  | rule (impactMetric : Option String) (role : XccdfRole) (severity : XccdfLevel)
  | group (values content : List ℕ)
  | value (oper : XccdfOperator) (instances : List ℕ)
  | other
  deriving DecidableEq

/-- `struct xccdf_item`. -/
structure Item (ρ : Type) where
  base : ItemBase ρ
  parent : Option ℕ
  sub : Sub
  deriving DecidableEq

/-- A cell of the memory. -/
inductive Cell (ρ : Type)
  | item (item : Item ρ)
  | valueInstance (inst : ValueInstance ρ)
  deriving DecidableEq

/-- The memory; a cell that was freed is `none`. -/
abbrev Heap (ρ : Type) := List (Option (Cell ρ))

variable {ρ : Type}

/-- The item of a cell. -/
def Cell.item? : Cell ρ → Option (Item ρ)
  | .item x => some x
  | .valueInstance _ => none

/-- The instance of a cell. -/
def Cell.instance? : Cell ρ → Option (ValueInstance ρ)
  | .item _ => none
  | .valueInstance x => some x

/-- The item at an address. -/
def itemAt (h : Heap ρ) (a : ℕ) : Option (Item ρ) := (readCell h a).bind Cell.item?

/-- The instance at an address. -/
def instanceAt (h : Heap ρ) (a : ℕ) : Option (ValueInstance ρ) := (readCell h a).bind Cell.instance?

/-- Changes the item of a cell. -/
def Cell.mapItem (f : Item ρ → Item ρ) : Cell ρ → Cell ρ
  | .item x => .item (f x)
  | .valueInstance x => .valueInstance x

/-- Changes the instance of a cell. -/
def Cell.mapInstance (f : ValueInstance ρ → ValueInstance ρ) : Cell ρ → Cell ρ
  | .item x => .item x
  | .valueInstance x => .valueInstance (f x)

/-- `oscap_streq`, where the null pointer counts as the empty string. -/
def streq (s1 s2 : Option String) : Bool := oscapStreq (s1.getD "") (s2.getD "")

/-! ### Setters -/

/-- `xccdf_rule_set_role`. -/
def xccdfRuleSetRole (h : Heap ρ) (a : ℕ) (role : XccdfRole) : Heap ρ :=
  modifyCell (Cell.mapItem fun item =>
    match item.sub with
    | .rule impactMetric _ severity => { item with sub := .rule impactMetric role severity }
    | _ => item) h a

/-- `xccdf_rule_set_severity`. -/
def xccdfRuleSetSeverity (h : Heap ρ) (a : ℕ) (severity : XccdfLevel) : Heap ρ :=
  modifyCell (Cell.mapItem fun item =>
    match item.sub with
    | .rule impactMetric role _ => { item with sub := .rule impactMetric role severity }
    | _ => item) h a

/-- `xccdf_rule_set_weight` and `xccdf_group_set_weight`. -/
def xccdfItemSetWeight (h : Heap ρ) (a : ℕ) (weight : Option Rat) : Heap ρ :=
  modifyCell (Cell.mapItem fun item =>
    { item with base := { item.base with weight := weight } }) h a

/-- `xccdf_value_set_oper`. -/
def xccdfValueSetOper (h : Heap ρ) (a : ℕ) (oper : XccdfOperator) : Heap ρ :=
  modifyCell (Cell.mapItem fun item =>
    match item.sub with
    | .value _ instances => { item with sub := .value oper instances }
    | _ => item) h a

/-- `xccdf_value_instance_set_defval_string`. -/
def xccdfValueInstanceSetDefvalString (h : Heap ρ) (a : ℕ) (newval : String) : Heap ρ :=
  modifyCell (Cell.mapInstance fun inst =>
    { inst with defval := some newval, defvalGiven := true }) h a

/-- Sets what an item has of its own. -/
def setSub (h : Heap ρ) (a : ℕ) (sub : Sub) : Heap ρ :=
  modifyCell (Cell.mapItem fun item => { item with sub := sub }) h a

/-- `xccdf_reparent_item`. -/
def xccdfReparentItem (parent : ℕ) (h : Heap ρ) (a : ℕ) : Heap ρ :=
  modifyCell (Cell.mapItem fun item => { item with parent := some parent }) h a

/-! ### Copies -/

/-- `oscap_list_clone`. -/
def oscapListClone (cloner : Heap ρ → ℕ → Option (Heap ρ × ℕ)) :
    Heap ρ → List ℕ → Option (Heap ρ × List ℕ)
  | h, [] => some (h, [])
  | h, a :: as => do
      let (h, b) ← cloner h a
      let (h, bs) ← oscapListClone cloner h as
      some (h, b :: bs)

/-- `xccdf_value_instance_clone`. -/
def xccdfValueInstanceClone (h : Heap ρ) (a : ℕ) : Option (Heap ρ × ℕ) := do
  let val ← instanceAt h a
  some (h ++ [some (.valueInstance val)], h.length)

/-- `xccdf_rule_clone`: `xccdf_rule_item_clone` leaves the impact metric out. -/
def xccdfRuleClone (h : Heap ρ) (a : ℕ) : Option (Heap ρ × ℕ) := do
  let old ← itemAt h a
  match old.sub with
  | .rule _ role severity =>
      some (h ++ [some (.item ⟨old.base, none, .rule none role severity⟩)], h.length)
  | _ => none

/-- `xccdf_value_clone`. -/
def xccdfValueClone (h : Heap ρ) (a : ℕ) : Option (Heap ρ × ℕ) := do
  let old ← itemAt h a
  match old.sub with
  | .value oper instances =>
      let new := h.length
      let h := h ++ [some (.item ⟨old.base, none, .value oper []⟩)]
      let (h, instances) ← oscapListClone xccdfValueInstanceClone h instances
      some (setSub h new (.value oper instances), new)
  | _ => none

/-- `xccdf_group_clone`, with the function that copies the content. -/
def xccdfGroupClone (itemClone : Heap ρ → ℕ → Option (Heap ρ × ℕ)) (h : Heap ρ) (a : ℕ) :
    Option (Heap ρ × ℕ) := do
  let old ← itemAt h a
  match old.sub with
  | .group values content =>
      let new := h.length
      let h := h ++ [some (.item ⟨old.base, none, .group [] []⟩)]
      let (h, values) ← oscapListClone xccdfValueClone h values
      let h := values.foldl (xccdfReparentItem new) (setSub h new (.group values []))
      let (h, content) ← oscapListClone itemClone h content
      some (content.foldl (xccdfReparentItem new) (setSub h new (.group values content)), new)
  | _ => none

/-- `xccdf_item_clone`, at most `fuel` levels deep; all that other items have is in their base. -/
def xccdfItemClone : ℕ → Heap ρ → ℕ → Option (Heap ρ × ℕ)
  | 0, _, _ => none
  | fuel + 1, h, a => do
      let old ← itemAt h a
      match old.sub with
      | .rule _ _ _ => xccdfRuleClone h a
      | .group _ _ => xccdfGroupClone (xccdfItemClone fuel) h a
      | .value _ _ => xccdfValueClone h a
      | .other => some (h ++ [some (.item ⟨old.base, none, .other⟩)], h.length)

/-- `xccdf_value_free`. -/
def xccdfValueFree (h : Heap ρ) (a : ℕ) : Heap ρ :=
  match itemAt h a with
  | some ⟨_, _, .value _ instances⟩ => freeCell (instances.foldl freeCell h) a
  | _ => freeCell h a

/-- `xccdf_item_free`, at most `fuel` levels deep, and `xccdf_group_free` for groups. -/
def xccdfItemFree : ℕ → Heap ρ → ℕ → Heap ρ
  | 0, h, _ => h
  | fuel + 1, h, a =>
      match itemAt h a with
      | some ⟨_, _, .group values content⟩ =>
          freeCell (values.foldl xccdfValueFree (content.foldl (xccdfItemFree fuel) h)) a
      | some ⟨_, _, .value _ _⟩ => xccdfValueFree h a
      | _ => freeCell h a

/-! ### Tailoring -/

/-- `xccdf_value_get_instance_by_selector`. -/
def xccdfValueGetInstanceBySelector (h : Heap ρ) (instances : List ℕ) (selector : Option String) :
    Option ℕ :=
  let val := instances.find? fun a => (instanceAt h a).any fun inst => streq inst.selector selector
  if val = none ∧ streq selector (some "") then instances.head? else val

/-- The first refine-value for an id. -/
def refineValueOf (profile : Option XccdfProfileLists) (id : String) : Option XccdfRefineValue :=
  profile.bind fun profile => profile.refineValues.find? fun r => r.item = id

/-- `xccdf_policy_get_value_of_item`; it has no result where it follows a null pointer. -/
def xccdfPolicyGetValueOfItem (profile : Option XccdfProfileLists) (h : Heap ρ) (id : String)
    (instances : List ℕ) : Option (Option String) :=
  match xccdfPolicyGetSetvalue profile id with
  | some s => some (some s.value)
  | none => do
      let selector := (refineValueOf profile id).bind XccdfRefineValue.selector
      let inst ← xccdfValueGetInstanceBySelector h instances selector
      let inst ← instanceAt h inst
      some inst.value

/-- `xccdf_policy_get_refine_value_oper`, where `none` is the −1. -/
def xccdfPolicyGetRefineValueOper (profile : Option XccdfProfileLists) (id : String) :
    Option XccdfOperator :=
  (refineValueOf profile id).map XccdfRefineValue.oper

/-- The selector of the last instance with a value. -/
def selectorOfValue (h : Heap ρ) (value : String) (instances : List ℕ) : Option String :=
  instances.foldl (fun selector a =>
    match instanceAt h a with
    | some inst => if streq inst.value (some value) then inst.selector else selector
    | none => selector) none

/-- `xccdf_value_get_instances`. -/
def xccdfValueGetInstances (h : Heap ρ) (a : ℕ) : List ℕ :=
  match itemAt h a with
  | some ⟨_, _, .value _ instances⟩ => instances
  | _ => []

/-- `xccdf_value_instance_iterator_remove`. -/
def xccdfValueInstanceIteratorRemove (h : Heap ρ) (value inst : ℕ) : Heap ρ :=
  freeCell (modifyCell (Cell.mapItem fun item =>
    match item.sub with
    | .value oper instances => { item with sub := .value oper (instances.erase inst) }
    | _ => item) h value) inst

/-- The loop that removes the instances with another selector. -/
def removeOthers (value : ℕ) (selector : Option String) (h : Heap ρ) (inst : ℕ) : Heap ρ :=
  match instanceAt h inst with
  | some x =>
      if streq x.selector selector then h else xccdfValueInstanceIteratorRemove h value inst
  | none => h

/-- `xccdf_policy_tailor_item`: the memory and the address that is returned, `none` for the null
pointer. The call itself has no result where it follows a null pointer. -/
def xccdfPolicyTailorItem (fuel : ℕ) (profile : Option XccdfProfileLists) (h : Heap ρ) (a : ℕ) :
    Option (Heap ρ × Option ℕ) := do
  let item ← itemAt h a
  let refineRule := profile.bind fun profile =>
    xccdfPolicyGetRefineRulesByRule profile.refineRules item.base.id
  match item.sub with
  | .rule _ _ _ =>
      match refineRule with
      | none => some (h, some a)
      | some r =>
          let (h, new) ← xccdfRuleClone h a
          let h := if r.role ≠ .unset then xccdfRuleSetRole h new r.role else h
          let h := if r.severity ≠ .notDefined then xccdfRuleSetSeverity h new r.severity else h
          let h := if r.weightDefined then xccdfItemSetWeight h new r.weight else h
          some (h, some new)
  | .group _ _ =>
      match refineRule with
      | none => some (h, some a)
      | some r =>
          let (h, new) ← xccdfGroupClone (xccdfItemClone fuel) h a
          if r.weightDefined then some (xccdfItemSetWeight h new r.weight, some new)
          else some (xccdfItemFree (fuel + 1) h new, some a)
  | .value _ instances =>
      match ← xccdfPolicyGetValueOfItem profile h item.base.id instances with
      | none => some (h, none)
      | some value =>
          let (h, new) ← xccdfValueClone h a
          let instances := xccdfValueGetInstances h new
          let selector := selectorOfValue h value instances
          let h := instances.foldl (removeOthers new selector) h
          let h ←
            if selector = none then do
              let inst ← xccdfValueGetInstanceBySelector h (xccdfValueGetInstances h new) none
              some (xccdfValueInstanceSetDefvalString h inst value)
            else some h
          match xccdfPolicyGetRefineValueOper profile item.base.id with
          | none => some (h, some new)
          -- the operator is set in the original
          | some oper => some (xccdfValueSetOper h a oper, some new)
  | .other => some (h, none)

/-! ### What is in memory -/

/-- An item with all that belongs to it. -/
inductive Tree (ρ : Type)
  | rule (base : ItemBase ρ) (impactMetric : Option String) (role : XccdfRole)
    (severity : XccdfLevel)
  | group (base : ItemBase ρ) (values content : List (Tree ρ))
  | value (base : ItemBase ρ) (oper : XccdfOperator) (instances : List (ValueInstance ρ))
  | other (base : ItemBase ρ)

namespace Tree

/-- The levels of an item. -/
def depth : Tree ρ → ℕ
  | rule _ _ _ _ => 1
  | group _ _ content => depths content + 1
  | value _ _ _ => 1
  | other _ => 1
where
  /-- The levels of the items of a list. -/
  depths : List (Tree ρ) → ℕ
    | [] => 0
    | item :: items => max item.depth (depths items)

/-- What a copy of an item has: the impact metrics of rules are left out. -/
def clone : Tree ρ → Tree ρ
  | rule base _ role severity => rule base none role severity
  | group base values content => group base (clones values) (clones content)
  | value base oper instances => value base oper instances
  | other base => other base
where
  /-- The copies of the items of a list. -/
  clones : List (Tree ρ) → List (Tree ρ)
    | [] => []
    | item :: items => item.clone :: clones items

/-- Whether an item is a value. -/
def isValue : Tree ρ → Bool
  | value _ _ _ => true
  | _ => false

end Tree

mutual

/-- The item at an address with what belongs to it, all of it in cells of a set. -/
inductive Reads (h : Heap ρ) : Set ℕ → Option ℕ → ℕ → Tree ρ → Prop
  | rule {s parent a base impactMetric role severity} (mem : a ∈ s)
      (at_a : readCell h a = some (.item ⟨base, parent, .rule impactMetric role severity⟩)) :
      Reads h s parent a (.rule base impactMetric role severity)
  | group {s parent a base values content values' content'} (mem : a ∈ s)
      (at_a : readCell h a = some (.item ⟨base, parent, .group values content⟩))
      (values_reads : ReadsAll h (s \ {a}) (some a) values values')
      (content_reads : ReadsAll h (s \ {a}) (some a) content content')
      (values_isValue : ∀ v ∈ values', v.isValue = true) :
      Reads h s parent a (.group base values' content')
  | value {s parent a base oper} {cells : List (ℕ × ValueInstance ρ)} {instances} (mem : a ∈ s)
      (at_a : readCell h a = some (.item ⟨base, parent, .value oper (cells.map Prod.fst)⟩))
      (cells_read : ∀ c ∈ cells, c.1 ∈ s ∧ readCell h c.1 = some (.valueInstance c.2))
      (instances_eq : instances = cells.map Prod.snd) :
      Reads h s parent a (.value base oper instances)
  | other {s parent a base} (mem : a ∈ s)
      (at_a : readCell h a = some (.item ⟨base, parent, .other⟩)) :
      Reads h s parent a (.other base)

/-- The items of a list, children of the same item. -/
inductive ReadsAll (h : Heap ρ) : Set ℕ → Option ℕ → List ℕ → List (Tree ρ) → Prop
  | nil {s parent} : ReadsAll h s parent [] []
  | cons {s parent a as item items} (head : Reads h s parent a item)
      (tail : ReadsAll h s parent as items) : ReadsAll h s parent (a :: as) (item :: items)

end

mutual

/-- What is kept is read as before. -/
theorem Reads.mono {h h' : Heap ρ} {s s' : Set ℕ} {parent : Option ℕ} {a : ℕ} {item : Tree ρ}
    (hreads : Reads h s parent a item) (hs : s ⊆ s')
    (hkept : ∀ k ∈ s, ∀ x, readCell h k = some x → readCell h' k = some x) :
    Reads h' s' parent a item := by
  cases hreads with
  | rule mem at_a => exact .rule (hs mem) (hkept _ mem _ at_a)
  | group mem at_a values_reads content_reads values_isValue =>
      have hs' := Set.sdiff_subset_sdiff_left (t := {a}) hs
      exact .group (hs mem) (hkept _ mem _ at_a)
        (values_reads.mono hs' fun k hk => hkept k hk.1)
        (content_reads.mono hs' fun k hk => hkept k hk.1) values_isValue
  | value mem at_a cells_read instances_eq =>
      exact .value (hs mem) (hkept _ mem _ at_a)
        (fun c hc => ⟨hs (cells_read c hc).1, hkept _ (cells_read c hc).1 _ (cells_read c hc).2⟩)
        instances_eq
  | other mem at_a => exact .other (hs mem) (hkept _ mem _ at_a)

/-- What is kept is read as before, in a list of items. -/
theorem ReadsAll.mono {h h' : Heap ρ} {s s' : Set ℕ} {parent : Option ℕ} {as : List ℕ}
    {items : List (Tree ρ)} (hreads : ReadsAll h s parent as items) (hs : s ⊆ s')
    (hkept : ∀ k ∈ s, ∀ x, readCell h k = some x → readCell h' k = some x) :
    ReadsAll h' s' parent as items := by
  cases hreads with
  | nil => exact .nil
  | cons head tail => exact .cons (head.mono hs hkept) (tail.mono hs hkept)

end

/-- An item stands in the set that it is read in. -/
theorem Reads.mem {h : Heap ρ} {s : Set ℕ} {parent : Option ℕ} {a : ℕ} {item : Tree ρ}
    (hreads : Reads h s parent a item) : a ∈ s := by
  cases hreads <;> assumption

/-! ### Growing memory -/

/-- The cells that an item points to. -/
def Sub.cells : Sub → List ℕ
  | .rule _ _ _ => []
  | .group values content => values ++ content
  | .value _ instances => instances
  | .other => []

/-- Items from an address on point to cells from there on. -/
def Closed (n : ℕ) (h : Heap ρ) : Prop :=
  ∀ a item, n ≤ a → readCell h a = some (.item item) → ∀ k ∈ item.sub.cells, n ≤ k

/-- The memory has become larger, and new items do not point to old cells. -/
structure Grows (h h' : Heap ρ) : Prop where
  isPrefix : h <+: h'
  closed : ∀ n ≤ h.length, Closed n h → Closed n h'

/-- Memory as it was. -/
theorem Grows.refl (h : Heap ρ) : Grows h h := ⟨List.prefix_refl h, fun _ _ hc => hc⟩

/-- Memory grows in steps. -/
theorem Grows.trans {h₁ h₂ h₃ : Heap ρ} (h₁₂ : Grows h₁ h₂) (h₂₃ : Grows h₂ h₃) : Grows h₁ h₃ :=
  ⟨h₁₂.isPrefix.trans h₂₃.isPrefix, fun n hn hc =>
    h₂₃.closed n (hn.trans h₁₂.isPrefix.length_le) (h₁₂.closed n hn hc)⟩

/-- Grown memory is not shorter. -/
theorem Grows.length_le {h h' : Heap ρ} (hg : Grows h h') : h.length ≤ h'.length :=
  hg.isPrefix.length_le

/-- The end of the memory has no items that point to old cells. -/
theorem closed_length (h : Heap ρ) : Closed h.length h := fun _ _ ha hread =>
  absurd (lt_length_of_read hread) (Nat.not_lt.mpr ha)

/-- A new cell that points to no other. -/
theorem Grows.append {h : Heap ρ} {cell : Cell ρ}
    (hcell : ∀ item, cell = .item item → item.sub.cells = []) : Grows h (h ++ [some cell]) := by
  refine ⟨List.prefix_append _ _, fun n hn hc a item ha hread k hk => ?_⟩
  rcases Nat.lt_trichotomy a h.length with hlt | rfl | hgt
  · rw [readCell, List.getElem?_append_left hlt] at hread
    exact hc a item ha hread k hk
  · rw [read_append_length, Option.some.injEq] at hread
    rw [hcell item hread] at hk
    exact absurd hk List.not_mem_nil
  · have := lt_length_of_read hread
    rw [List.length_append, List.length_singleton] at this
    omega

/-- Items are read in grown memory as before. -/
theorem Reads.grows {h h' : Heap ρ} {s : Set ℕ} {parent : Option ℕ} {a : ℕ} {item : Tree ρ}
    (hreads : Reads h s parent a item) (hg : h <+: h') : Reads h' s parent a item :=
  hreads.mono subset_rfl fun _ _ _ hx => read_of_kept hg hx

/-- Lists of items are read in grown memory as before. -/
theorem ReadsAll.grows {h h' : Heap ρ} {s : Set ℕ} {parent : Option ℕ} {as : List ℕ}
    {items : List (Tree ρ)} (hreads : ReadsAll h s parent as items) (hg : h <+: h') :
    ReadsAll h' s parent as items :=
  hreads.mono subset_rfl fun _ _ _ hx => read_of_kept hg hx

/-! ### Copies -/

/-- Items of a list that have no parent, each in a piece of memory of its own. -/
inductive Row (h : Heap ρ) : ℕ → ℕ → List ℕ → List (Tree ρ) → Prop
  | nil {lo} : Row h lo lo [] []
  | cons {lo mid hi a as item items} (lo_le : lo ≤ mid)
      (head : Reads h (Set.Ico lo mid) none a item) (tail : Row h mid hi as items) :
      Row h lo hi (a :: as) (item :: items)

/-- The function copies every item of a kind into new memory. -/
def Clones (cloner : Heap ρ → ℕ → Option (Heap ρ × ℕ)) (p : Tree ρ → Prop) : Prop :=
  ∀ h parent a item, p item → Reads h Set.univ parent a item → ∃ h' b,
    cloner h a = some (h', b) ∧ Grows h h' ∧
      Reads h' (Set.Ico h.length h'.length) none b item.clone

/-- A row has a beginning and an end. -/
theorem Row.le {h : Heap ρ} {lo hi : ℕ} {as : List ℕ} {items : List (Tree ρ)}
    (hrow : Row h lo hi as items) : lo ≤ hi := by
  induction hrow with
  | nil => exact Nat.le_refl _
  | cons lo_le _ _ ih => exact lo_le.trans ih

/-- A row has its items from its beginning on. -/
theorem Row.lo_le {h : Heap ρ} {lo hi : ℕ} {as : List ℕ} {items : List (Tree ρ)}
    (hrow : Row h lo hi as items) : ∀ a ∈ as, lo ≤ a := by
  induction hrow with
  | nil => exact fun a ha => absurd ha List.not_mem_nil
  | cons lo_le head _ ih =>
      rintro a (_ | ⟨_, ha⟩)
      · exact head.mem.1
      · exact lo_le.trans (ih a ha)

/-- A row is read as before where its cells are kept. -/
theorem Row.mono {h h' : Heap ρ} {lo hi : ℕ} {as : List ℕ} {items : List (Tree ρ)}
    (hrow : Row h lo hi as items)
    (hkept : ∀ k ∈ Set.Ico lo hi, ∀ x, readCell h k = some x → readCell h' k = some x) :
    Row h' lo hi as items := by
  induction hrow with
  | nil => exact .nil
  | @cons lo mid hi a as item items lo_le head tail ih =>
      refine .cons lo_le (head.mono subset_rfl fun k hk => ?_) (ih fun k hk => ?_)
      · exact hkept k ⟨hk.1, lt_of_lt_of_le hk.2 tail.le⟩
      · exact hkept k ⟨lo_le.trans hk.1, hk.2⟩

/-- **A list is copied item by item.** -/
theorem clones_list {cloner : Heap ρ → ℕ → Option (Heap ρ × ℕ)} {p : Tree ρ → Prop}
    (hcloner : Clones cloner p) {items : List (Tree ρ)} (hp : ∀ item ∈ items, p item)
    {h : Heap ρ} {parent : Option ℕ} {as : List ℕ}
    (hreads : ReadsAll h Set.univ parent as items) : ∃ h' bs,
      oscapListClone cloner h as = some (h', bs) ∧ Grows h h' ∧
        Row h' h.length h'.length bs (Tree.clone.clones items) := by
  induction items generalizing h as with
  | nil =>
      cases hreads
      exact ⟨h, [], rfl, Grows.refl h, .nil⟩
  | cons item items ih =>
      cases hreads with
      | cons head tail =>
          obtain ⟨hitem, hitems⟩ := List.forall_mem_cons.mp hp
          obtain ⟨h₁, b, hb, hg₁, hread⟩ := hcloner _ _ _ _ hitem head
          obtain ⟨h₂, bs, hbs, hg₂, hrow⟩ := ih hitems (tail.grows hg₁.isPrefix)
          refine ⟨h₂, b :: bs, ?_, hg₁.trans hg₂,
            .cons hg₁.length_le (hread.grows hg₂.isPrefix) hrow⟩
          simp [oscapListClone, hb, hbs]

/-! ### Changing new cells -/

variable {old h : Heap ρ} {a : ℕ} {f : Item ρ → Item ρ}

/-- A new item may be changed when it still points to no old cells. -/
theorem Grows.mapItem (hg : Grows old h) (ha : old.length ≤ a)
    (hf : ∀ n ≤ old.length, ∀ item : Item ρ, (∀ k ∈ item.sub.cells, n ≤ k) →
      ∀ k ∈ (f item).sub.cells, n ≤ k) :
    Grows old (modifyCell (Cell.mapItem f) h a) := by
  refine ⟨prefix_modify hg.isPrefix ha, fun n hn hc b item hb hread => ?_⟩
  by_cases hba : b = a
  · rw [hba, read_modify, Option.map_eq_some_iff] at hread
    obtain ⟨cell, hcell, hitem⟩ := hread
    cases cell with
    | item x =>
        rw [← Cell.item.inj hitem]
        exact hf n hn x (hg.closed n hn hc a x (hba ▸ hb) hcell)
    | valueInstance x => cases hitem
  · rw [read_modify_of_ne hba] at hread
    exact hg.closed n hn hc b item hb hread

/-- A new instance may be changed. -/
theorem Grows.mapInstance {f : ValueInstance ρ → ValueInstance ρ} (hg : Grows old h)
    (ha : old.length ≤ a) : Grows old (modifyCell (Cell.mapInstance f) h a) := by
  refine ⟨prefix_modify hg.isPrefix ha, fun n hn hc b item hb hread => ?_⟩
  by_cases hba : b = a
  · rw [hba, read_modify, Option.map_eq_some_iff] at hread
    obtain ⟨cell, hcell, hitem⟩ := hread
    cases cell with
    | item x =>
        cases hitem
        exact hg.closed n hn hc a _ (hba ▸ hb) hcell
    | valueInstance x => cases hitem
  · rw [read_modify_of_ne hba] at hread
    exact hg.closed n hn hc b item hb hread

/-- A new cell may be freed. -/
theorem Grows.freeCell (hg : Grows old h) (ha : old.length ≤ a) : Grows old (freeCell h a) := by
  refine ⟨prefix_free hg.isPrefix ha, fun n hn hc b item hb hread => ?_⟩
  by_cases hba : b = a
  · rw [hba, read_free_self] at hread
    cases hread
  · rw [read_free_of_ne hba] at hread
    exact hg.closed n hn hc b item hb hread

/-- A new item points to new cells. -/
theorem Grows.le_of_mem_cells {item : Item ρ} (hg : Grows old h) (ha : old.length ≤ a)
    (hread : itemAt h a = some item) : ∀ k ∈ item.sub.cells, old.length ≤ k := by
  rw [itemAt, Option.bind_eq_some_iff] at hread
  obtain ⟨cell, hcell, hitem⟩ := hread
  cases cell with
  | item x =>
      cases hitem
      exact hg.closed old.length le_rfl (closed_length old) a _ ha hcell
  | valueInstance x => cases hitem

/-- New cells of a list may be changed or freed one by one. -/
theorem Grows.foldl {step : Heap ρ → ℕ → Heap ρ} {as : List ℕ}
    (hstep : ∀ h a, Grows old h → old.length ≤ a → Grows old (step h a)) (hg : Grows old h)
    (has : ∀ a ∈ as, old.length ≤ a) : Grows old (as.foldl step h) :=
  List.foldlRecOn as step hg fun h hg a ha => hstep h a hg (has a ha)

/-- A new item may get another parent. -/
theorem Grows.reparent {new : ℕ} (hg : Grows old h) (ha : old.length ≤ a) :
    Grows old (xccdfReparentItem new h a) :=
  hg.mapItem ha fun _ _ _ hcells => hcells

/-- What a new item has of its own may be set. -/
theorem Grows.setSub {sub : Sub} (hg : Grows old h) (ha : old.length ≤ a)
    (hsub : ∀ k ∈ sub.cells, old.length ≤ k) : Grows old (setSub h a sub) :=
  hg.mapItem ha fun _ hn _ _ k hk => hn.trans (hsub k hk)

/-- A new value may be freed. -/
theorem Grows.valueFree (hg : Grows old h) (ha : old.length ≤ a) :
    Grows old (xccdfValueFree h a) := by
  rw [xccdfValueFree]
  split
  case h_1 base parent oper instances hitem =>
      exact (hg.foldl (fun _ _ hg ha => hg.freeCell ha) (hg.le_of_mem_cells ha hitem)).freeCell ha
  case h_2 => exact hg.freeCell ha

/-- A new item may be freed with all that belongs to it. -/
theorem Grows.itemFree (fuel : ℕ) (hg : Grows old h) (ha : old.length ≤ a) :
    Grows old (xccdfItemFree fuel h a) := by
  induction fuel generalizing h a with
  | zero => exact hg
  | succ fuel ih =>
      rw [xccdfItemFree]
      split
      case h_1 base parent values content hitem =>
          have hcells := hg.le_of_mem_cells ha hitem
          refine Grows.freeCell (Grows.foldl (fun _ _ hg ha => hg.valueFree ha)
            (Grows.foldl (fun _ _ hg ha => ih hg ha) hg fun k hk => ?_) fun k hk => ?_) ha
          · exact hcells k (List.mem_append_right _ hk)
          · exact hcells k (List.mem_append_left _ hk)
      case h_2 => exact hg.valueFree ha
      case h_3 => exact hg.freeCell ha

/-! ### What a copy is read as -/

/-- An item is read as before when it gets another parent. -/
theorem Reads.reparent {s : Set ℕ} {parent : Option ℕ} {item : Tree ρ}
    (hreads : Reads h s parent a item) (new : ℕ) :
    Reads (xccdfReparentItem new h a) s (some new) a item := by
  have hother : ∀ k, k ≠ a → ∀ x, readCell h k = some x →
      readCell (xccdfReparentItem new h a) k = some x := fun k hk x hx => by
    rw [xccdfReparentItem, read_modify_of_ne hk, hx]
  cases hreads with
  | rule mem at_a => exact .rule mem (read_modify_self at_a)
  | group mem at_a values_reads content_reads values_isValue =>
      exact .group mem (read_modify_self at_a)
        (values_reads.mono subset_rfl fun k hk => hother k hk.2)
        (content_reads.mono subset_rfl fun k hk => hother k hk.2) values_isValue
  | value mem at_a cells_read instances_eq =>
      refine .value mem (read_modify_self at_a) (fun c hc => ?_) instances_eq
      obtain ⟨hmem, hread⟩ := cells_read c hc
      refine ⟨hmem, hother c.1 (fun heq => ?_) _ hread⟩
      rw [heq, at_a] at hread
      cases hread
  | other mem at_a => exact .other mem (read_modify_self at_a)

/-- Giving parents keeps the number of cells. -/
theorem length_reparent (new : ℕ) (as : List ℕ) (h : Heap ρ) :
    (as.foldl (xccdfReparentItem new) h).length = h.length := by
  induction as generalizing h with
  | nil => rfl
  | cons a as ih => rw [List.foldl_cons, ih, xccdfReparentItem, length_modify]

/-- **The items of a row become children of an item, and other cells are kept.** -/
theorem Row.reparent {lo hi : ℕ} {as : List ℕ} {items : List (Tree ρ)} (new : ℕ)
    (hrow : Row h lo hi as items) :
    ReadsAll (as.foldl (xccdfReparentItem new) h) (Set.Ico lo hi) (some new) as items ∧
      ∀ k ∉ Set.Ico lo hi, readCell (as.foldl (xccdfReparentItem new) h) k = readCell h k := by
  induction as generalizing h lo items with
  | nil =>
      cases hrow
      exact ⟨.nil, fun _ _ => rfl⟩
  | cons a as ih =>
      cases hrow with
      | @cons _ mid _ _ _ item items lo_le head tail =>
          have ha := head.mem
          have hne : ∀ k, k ∉ Set.Ico lo mid → k ≠ a := fun k hk heq => hk (heq ▸ ha)
          have hkept : ∀ k, k ∉ Set.Ico lo mid →
              readCell (xccdfReparentItem new h a) k = readCell h k := fun k hk =>
            read_modify_of_ne (hne k hk)
          have htail : Row (xccdfReparentItem new h a) mid hi as items :=
            tail.mono fun k hk x hx => by
              rw [hkept k fun hk' => absurd hk.1 (Nat.not_le.mpr hk'.2), hx]
          obtain ⟨hall, hrest⟩ := ih htail
          have hmid := tail.le
          refine ⟨.cons ((head.reparent new).mono (Set.Ico_subset_Ico_right hmid) ?_)
            (hall.mono (Set.Ico_subset_Ico_left lo_le) fun _ _ _ hx => hx), fun k hk => ?_⟩
          · intro k hk x hx
            rw [List.foldl_cons, hrest k fun hk' => absurd hk'.1 (Nat.not_le.mpr hk.2), hx]
          · rw [List.foldl_cons, hrest k fun hk' => hk ⟨lo_le.trans hk'.1, hk'.2⟩,
              hkept k fun hk' => hk ⟨hk'.1, lt_of_lt_of_le hk'.2 hmid⟩]

/-- **An item gets children.** -/
theorem attach {new lo hi : ℕ} {base : ItemBase ρ} {sub : Sub} {as : List ℕ}
    {items : List (Tree ρ)} (sub' : Sub) (hg : Grows old h) (hold : old.length ≤ new)
    (at_new : readCell h new = some (.item ⟨base, none, sub⟩)) (hlo : new < lo)
    (hrow : Row h lo hi as items) (hsub : ∀ k ∈ sub'.cells, old.length ≤ k) :
    Grows old (as.foldl (xccdfReparentItem new) (setSub h new sub')) ∧
      readCell (as.foldl (xccdfReparentItem new) (setSub h new sub')) new =
        some (.item ⟨base, none, sub'⟩) ∧
      ReadsAll (as.foldl (xccdfReparentItem new) (setSub h new sub')) (Set.Ico lo hi) (some new)
        as items ∧
      ∀ k, k ≠ new → k ∉ Set.Ico lo hi →
        readCell (as.foldl (xccdfReparentItem new) (setSub h new sub')) k = readCell h k := by
  have hkept : ∀ k, k ≠ new → readCell (setSub h new sub') k = readCell h k := fun k hk =>
    read_modify_of_ne hk
  have hnew : new ∉ Set.Ico lo hi := fun hk => absurd hk.1 (Nat.not_le.mpr hlo)
  have hrow' : Row (setSub h new sub') lo hi as items := hrow.mono fun k hk x hx => by
    rw [hkept k fun heq => hnew (heq ▸ hk), hx]
  obtain ⟨hall, hrest⟩ := hrow'.reparent new
  refine ⟨Grows.foldl (fun _ _ hg ha => hg.reparent ha) (hg.setSub hold hsub) fun k hk => ?_,
    ?_, hall, fun k hk hk' => ?_⟩
  · exact hold.trans (hlo.le.trans (hrow.lo_le k hk))
  · rw [hrest new hnew]
    exact read_modify_self at_new
  · rw [hrest k hk', hkept k hk]

/-- **Instances are copied one by one.** -/
theorem instances_clone (h : Heap ρ) (cells : List (ℕ × ValueInstance ρ))
    (hcells : ∀ c ∈ cells, readCell h c.1 = some (.valueInstance c.2)) :
    ∃ (h' : Heap ρ) (cells' : List (ℕ × ValueInstance ρ)),
      oscapListClone xccdfValueInstanceClone h (cells.map Prod.fst) =
        some (h', cells'.map Prod.fst) ∧
      Grows h h' ∧ cells'.map Prod.snd = cells.map Prod.snd ∧ (cells'.map Prod.fst).Nodup ∧
      ∀ c ∈ cells', c.1 ∈ Set.Ico h.length h'.length ∧
        readCell h' c.1 = some (.valueInstance c.2) := by
  induction cells generalizing h with
  | nil => exact ⟨h, [], rfl, Grows.refl h, rfl, List.nodup_nil, by simp⟩
  | cons c cells ih =>
      obtain ⟨hc, hcs⟩ := List.forall_mem_cons.mp hcells
      have hg₁ : Grows h (h ++ [some (.valueInstance c.2)]) :=
        Grows.append fun _ heq => by cases heq
      obtain ⟨h', cells', hclone, hg', hsnd, hnodup, hread⟩ := ih _ fun d hd =>
        read_of_kept hg₁.isPrefix (hcs d hd)
      have hlen : h.length < h'.length := by
        have := hg'.length_le
        rw [List.length_append, List.length_singleton] at this
        omega
      refine ⟨h', (h.length, c.2) :: cells', ?_, hg₁.trans hg', by simp [hsnd], ?_, ?_⟩
      · simp [oscapListClone, xccdfValueInstanceClone, instanceAt, hc, Cell.instance?, hclone]
      · refine List.nodup_cons.mpr ⟨fun hmem => ?_, hnodup⟩
        obtain ⟨d, hd, hd'⟩ := List.mem_map.mp hmem
        have := (hread d hd).1.1
        rw [List.length_append, List.length_singleton] at this
        omega
      · refine List.forall_mem_cons.mpr ⟨⟨⟨le_rfl, hlen⟩, ?_⟩, fun d hd => ?_⟩
        · exact read_of_kept hg'.isPrefix (read_append_length h _)
        · obtain ⟨⟨hlo, hhi⟩, hd'⟩ := hread d hd
          exact ⟨⟨hg₁.length_le.trans hlo, hhi⟩, hd'⟩

/-- **A value is copied with its instances.** -/
theorem valueClone_spec {parent : Option ℕ} {base : ItemBase ρ} {oper : XccdfOperator}
    {cells : List (ℕ × ValueInstance ρ)}
    (at_a : readCell h a = some (.item ⟨base, parent, .value oper (cells.map Prod.fst)⟩))
    (hcells : ∀ c ∈ cells, readCell h c.1 = some (.valueInstance c.2)) :
    ∃ (h' : Heap ρ) (cells' : List (ℕ × ValueInstance ρ)),
      xccdfValueClone h a = some (h', h.length) ∧ Grows h h' ∧ h.length < h'.length ∧
      readCell h' h.length = some (.item ⟨base, none, .value oper (cells'.map Prod.fst)⟩) ∧
      cells'.map Prod.snd = cells.map Prod.snd ∧ (cells'.map Prod.fst).Nodup ∧
      ∀ c ∈ cells', c.1 ∈ Set.Ico h.length h'.length ∧ c.1 ≠ h.length ∧
        readCell h' c.1 = some (.valueInstance c.2) := by
  have hg₀ : Grows h (h ++ [some (.item ⟨base, none, .value oper []⟩)]) :=
    Grows.append fun _ heq => by
      rw [← Cell.item.inj heq]
      rfl
  obtain ⟨h₁, cells', hclone, hg₁, hsnd, hnodup, hread⟩ :=
    instances_clone _ cells fun c hc => read_of_kept hg₀.isPrefix (hcells c hc)
  have hlt : ∀ c ∈ cells', h.length < c.1 ∧ c.1 < h₁.length := fun c hc => by
    have := (hread c hc).1.1
    rw [List.length_append, List.length_singleton] at this
    exact ⟨by omega, (hread c hc).1.2⟩
  have hlen : h.length < h₁.length := by
    have := hg₁.length_le
    rw [List.length_append, List.length_singleton] at this
    omega
  refine ⟨setSub h₁ h.length (.value oper (cells'.map Prod.fst)), cells', ?_, ?_, ?_, ?_, hsnd,
    hnodup, fun c hc => ⟨⟨(hlt c hc).1.le, ?_⟩, (hlt c hc).1.ne', ?_⟩⟩
  · simp [xccdfValueClone, itemAt, at_a, Cell.item?, hclone]
  · refine (hg₀.trans hg₁).setSub le_rfl fun k hk => ?_
    obtain ⟨c, hc, rfl⟩ := List.mem_map.mp hk
    exact (hlt c hc).1.le
  · rw [setSub, length_modify]
    exact hlen
  · exact read_modify_self (read_of_kept hg₁.isPrefix (read_append_length h _))
  · rw [setSub, length_modify]
    exact (hlt c hc).2
  · rw [setSub, read_modify_of_ne (hlt c hc).1.ne']
    exact (hread c hc).2

/-- Values are copied. -/
theorem clones_valueClone : Clones (ρ := ρ) xccdfValueClone fun item => item.isValue = true := by
  intro h parent a item hvalue hreads
  cases hreads with
  | rule => cases hvalue
  | group => cases hvalue
  | other => cases hvalue
  | value mem at_a cells_read instances_eq =>
      obtain ⟨h', cells', hclone, hg, hlen, at_new, hsnd, -, hread⟩ :=
        valueClone_spec at_a fun c hc => (cells_read c hc).2
      exact ⟨h', h.length, hclone, hg, .value ⟨le_rfl, hlen⟩ at_new
        (fun c hc => ⟨(hread c hc).1, (hread c hc).2.2⟩) (instances_eq.trans hsnd.symm)⟩

/-- The copies of the items of a list are values when the items are. -/
theorem clones_isValue {items : List (Tree ρ)} (hitems : ∀ v ∈ items, v.isValue = true) :
    ∀ v ∈ Tree.clone.clones items, v.isValue = true := by
  induction items with
  | nil => exact hitems
  | cons item items ih =>
      obtain ⟨hitem, hitems'⟩ := List.forall_mem_cons.mp hitems
      refine List.forall_mem_cons.mpr ⟨?_, ih hitems'⟩
      cases item <;> first | rfl | cases hitem

/-- **A group is copied with its values and its content.** -/
theorem groupClone_spec {itemClone : Heap ρ → ℕ → Option (Heap ρ × ℕ)} {p : Tree ρ → Prop}
    (hclones : Clones itemClone p) {parent : Option ℕ} {base : ItemBase ρ}
    {values content : List (Tree ρ)} (hp : ∀ item ∈ content, p item)
    (hreads : Reads h Set.univ parent a (.group base values content)) : ∃ h',
      xccdfGroupClone itemClone h a = some (h', h.length) ∧ Grows h h' ∧
        Reads h' (Set.Ico h.length h'.length) none h.length
          (Tree.group base values content).clone := by
  cases hreads with
  | @group _ _ _ _ vs cs _ _ mem at_a values_reads content_reads values_isValue =>
      have huniv := Set.subset_univ (Set.univ \ {a})
      have hg₀ : Grows h (h ++ [some (.item ⟨base, none, .group [] []⟩)]) :=
        Grows.append fun _ heq => by
          rw [← Cell.item.inj heq]
          rfl
      -- the values
      obtain ⟨h₁, vs', hvs, hg₁, hrow₁⟩ := clones_list clones_valueClone values_isValue
        ((values_reads.grows hg₀.isPrefix).mono huniv fun _ _ _ hx => hx)
      rw [List.length_append, List.length_singleton] at hrow₁
      have at₁ := read_of_kept hg₁.isPrefix (read_append_length h _)
      have hvs_new : ∀ k ∈ vs', h.length ≤ k := fun k hk =>
        (Nat.le_succ _).trans (hrow₁.lo_le k hk)
      obtain ⟨hg₃, at₃, hvs₃, -⟩ := attach (.group vs' []) (hg₀.trans hg₁) le_rfl at₁
        (Nat.lt_succ_self _) hrow₁ fun k hk => hvs_new k (by simpa [Sub.cells] using hk)
      have hlen₃ : (vs'.foldl (xccdfReparentItem h.length)
          (setSub h₁ h.length (.group vs' []))).length = h₁.length := by
        rw [length_reparent, setSub, length_modify]
      -- the content
      obtain ⟨h₄, cs', hcs, hg₄, hrow₄⟩ := clones_list hclones hp
        ((content_reads.grows hg₃.isPrefix).mono huniv fun _ _ _ hx => hx)
      rw [hlen₃] at hrow₄
      have at₄ := read_of_kept hg₄.isPrefix at₃
      have hlt : h.length < h₁.length := Nat.lt_of_succ_le hrow₁.le
      have hcs_new : ∀ k ∈ cs', h.length ≤ k := fun k hk => hlt.le.trans (hrow₄.lo_le k hk)
      obtain ⟨hg₆, at₆, hcs₆, hkept₆⟩ := attach (.group vs' cs') (hg₃.trans hg₄) le_rfl at₄ hlt
        hrow₄ fun k hk => (List.mem_append.mp hk).elim (hvs_new k) (hcs_new k)
      have hlen₆ : (cs'.foldl (xccdfReparentItem h.length)
          (setSub h₄ h.length (.group vs' cs'))).length = h₄.length := by
        rw [length_reparent, setSub, length_modify]
      refine ⟨_, ?_, hg₆, .group ?_ at₆ (hvs₃.mono ?_ fun k hk x hx => ?_)
        (hcs₆.mono ?_ fun _ _ _ hx => hx) (clones_isValue values_isValue)⟩
      · simp [xccdfGroupClone, itemAt, at_a, Cell.item?, hvs, hcs]
      · rw [hlen₆]
        exact ⟨le_rfl, hlt.trans_le hrow₄.le⟩
      · rw [hlen₆]
        exact fun k hk => ⟨⟨(Nat.le_succ _).trans hk.1, hk.2.trans_le hrow₄.le⟩,
          (Nat.lt_of_succ_le hk.1).ne'⟩
      · rw [hkept₆ k (Nat.lt_of_succ_le hk.1).ne' fun hk' => absurd hk.2 (Nat.not_lt.mpr hk'.1)]
        exact read_of_kept hg₄.isPrefix hx
      · rw [hlen₆]
        exact fun k hk => ⟨⟨hlt.le.trans hk.1, hk.2⟩, (hlt.trans_le hk.1).ne'⟩

/-- A new item that points to no other is read in the cell that it was given. -/
theorem reads_append {item : Item ρ} {t : Tree ρ} (hsub : item.sub.cells = [])
    (hreads : ∀ {h' : Heap ρ} {s a}, a ∈ s → readCell h' a = some (.item item) →
      Reads h' s none a t) :
    Grows h (h ++ [some (.item item)]) ∧
      Reads (h ++ [some (.item item)]) (Set.Ico h.length (h ++ [some (Cell.item item)]).length)
        none h.length t := by
  refine ⟨Grows.append fun x heq => ?_, hreads ?_ (read_append_length h _)⟩
  · rw [← Cell.item.inj heq, hsub]
  · simp

/-- **A rule is copied.** -/
theorem ruleClone_spec {parent : Option ℕ} {base : ItemBase ρ} {impactMetric : Option String}
    {role : XccdfRole} {severity : XccdfLevel}
    (at_a : readCell h a = some (.item ⟨base, parent, .rule impactMetric role severity⟩)) :
    xccdfRuleClone h a =
      some (h ++ [some (.item ⟨base, none, .rule none role severity⟩)], h.length) := by
  simp [xccdfRuleClone, itemAt, at_a, Cell.item?]

/-- The items of a list have at most its levels. -/
theorem depth_le_depths {items : List (Tree ρ)} :
    ∀ item ∈ items, item.depth ≤ Tree.depth.depths items := by
  induction items with
  | nil => exact fun _ h => absurd h List.not_mem_nil
  | cons item items ih =>
      rintro x (_ | ⟨_, hx⟩)
      · exact Nat.le_max_left _ _
      · exact (ih x hx).trans (Nat.le_max_right _ _)

/-- **Items are copied into new memory, and read there as the originals.** -/
theorem clones_itemClone (fuel : ℕ) :
    Clones (ρ := ρ) (xccdfItemClone fuel) fun item => item.depth ≤ fuel := by
  induction fuel with
  | zero =>
      intro h parent a item hdepth
      cases item <;> cases hdepth
  | succ fuel ih =>
      intro h parent a item hdepth hreads
      cases hreads with
      | rule mem at_a =>
          obtain ⟨hg, hread⟩ := reads_append (h := h) rfl .rule
          exact ⟨_, _, by simp [xccdfItemClone, itemAt, at_a, Cell.item?, ruleClone_spec at_a],
            hg, hread⟩
      | other mem at_a =>
          obtain ⟨hg, hread⟩ := reads_append (h := h) rfl .other
          exact ⟨_, _, by simp [xccdfItemClone, itemAt, at_a, Cell.item?], hg, hread⟩
      | value mem at_a cells_read instances_eq =>
          obtain ⟨h', b, hclone, hg, hread⟩ := clones_valueClone h parent a _ rfl
            (.value mem at_a cells_read instances_eq)
          exact ⟨h', b, by simp [xccdfItemClone, itemAt, at_a, Cell.item?, hclone], hg, hread⟩
      | group mem at_a values_reads content_reads values_isValue =>
          rw [Tree.depth, Nat.succ_le_succ_iff] at hdepth
          obtain ⟨h', hclone, hg, hread⟩ := groupClone_spec ih
            (fun item hitem => (depth_le_depths item hitem).trans hdepth)
            (.group mem at_a values_reads content_reads values_isValue)
          exact ⟨h', _, by simp [xccdfItemClone, itemAt, at_a, Cell.item?, hclone], hg, hread⟩

/-! ### The outcome -/

/-- `xccdf_value_get_instance_by_selector`, among instances. -/
def instanceBySelector (instances : List (ValueInstance ρ)) (selector : Option String) :
    Option (ValueInstance ρ) :=
  let val := instances.find? fun inst => streq inst.selector selector
  if val.isNone ∧ streq selector (some "") then instances.head? else val

/-- The value that a profile gives to an item with some instances; there is none when it asks for
an instance that is not there. -/
def valueOf (profile : Option XccdfProfileLists) (id : String)
    (instances : List (ValueInstance ρ)) : Option (Option String) :=
  match xccdfPolicyGetSetvalue profile id with
  | some s => some (some s.value)
  | none =>
      (instanceBySelector instances ((refineValueOf profile id).bind
        XccdfRefineValue.selector)).map ValueInstance.value

/-- The selector of the last instance with a value. -/
def lastSelector (value : String) (instances : List (ValueInstance ρ)) : Option String :=
  instances.foldl (fun selector inst =>
    if streq inst.value (some value) then inst.selector else selector) none

/-- The instances of a copy; without selector there has to be an instance for the default. -/
def tailoredInstances (value : String) (instances : List (ValueInstance ρ)) :
    Option (List (ValueInstance ρ)) :=
  let selector := lastSelector value instances
  let kept := instances.filter fun inst => streq inst.selector selector
  match selector, kept with
  | some _, kept => some kept
  | none, [] => none
  | none, inst :: kept => some ({ inst with defval := some value, defvalGiven := true } :: kept)

/-- What a call returns: the original, a copy or the null pointer. -/
inductive Outcome (ρ : Type)
  | original
  | copy (item : Tree ρ)
  | null

/-- The refine-rule for an id. -/
def refineRuleOf (profile : Option XccdfProfileLists) (id : String) : Option XccdfRefineRule :=
  profile.bind fun profile => xccdfPolicyGetRefineRulesByRule profile.refineRules id

/-- The weight that a refine-rule gives. -/
def ItemBase.reweigh (base : ItemBase ρ) (r : XccdfRefineRule) : ItemBase ρ :=
  if r.weightDefined then { base with weight := r.weight } else base

/-- The outcome of tailoring an item; there is none when a null pointer is followed. -/
def tailored (profile : Option XccdfProfileLists) : Tree ρ → Option (Outcome ρ)
  | .rule base _ role severity =>
      match refineRuleOf profile base.id with
      | none => some .original
      | some r => some (.copy (.rule (base.reweigh r) none (r.givenRole.getD role)
          (r.givenSeverity.getD severity)))
  | .group base values content =>
      match refineRuleOf profile base.id with
      | none => some .original
      | some r =>
          if r.weightDefined then
            some (.copy (Tree.group (base.reweigh r) values content).clone)
          else some .original
  | .value base oper instances =>
      match valueOf profile base.id instances with
      | none => none
      | some none => some .null
      | some (some value) =>
          (tailoredInstances value instances).map fun kept => .copy (.value base oper kept)
  | .other _ => some .null

/-- The operator that a call sets in the original. -/
def operSet (profile : Option XccdfProfileLists) : Tree ρ → Option XccdfOperator
  | .value base _ instances =>
      (valueOf profile base.id instances).bind fun value => value.bind fun _ =>
        xccdfPolicyGetRefineValueOper profile base.id
  | _ => none

/-- What a call leaves of the memory that was there. -/
def leaves (profile : Option XccdfProfileLists) (h : Heap ρ) (a : ℕ) (item : Tree ρ) : Heap ρ :=
  match operSet profile item with
  | none => h
  | some oper => xccdfValueSetOper h a oper

/-- The address that is returned shows an outcome. -/
def Outcome.Shows (h : Heap ρ) (a : ℕ) (r : Option ℕ) : Outcome ρ → Prop
  | original => r = some a
  | copy item => ∃ b, r = some b ∧ Reads h Set.univ none b item
  | null => r = none

/-! ### Rules and groups -/

/-- An item is read in any larger set. -/
theorem Reads.univ {s : Set ℕ} {parent : Option ℕ} {item : Tree ρ}
    (hreads : Reads h s parent a item) : Reads h Set.univ parent a item :=
  hreads.mono (Set.subset_univ s) fun _ _ _ hx => hx

/-- The weight of a group is set. -/
theorem Reads.setWeight {s : Set ℕ} {parent : Option ℕ} {base : ItemBase ρ}
    {values content : List (Tree ρ)} (weight : Option Rat)
    (hreads : Reads h s parent a (.group base values content)) :
    Reads (xccdfItemSetWeight h a weight) s parent a
      (.group { base with weight := weight } values content) := by
  have hother : ∀ k, k ≠ a → ∀ x, readCell h k = some x →
      readCell (xccdfItemSetWeight h a weight) k = some x := fun k hk x hx => by
    rw [xccdfItemSetWeight, read_modify_of_ne hk, hx]
  cases hreads with
  | group mem at_a values_reads content_reads values_isValue =>
      exact .group mem (read_modify_self at_a)
        (values_reads.mono subset_rfl fun k hk => hother k hk.2)
        (content_reads.mono subset_rfl fun k hk => hother k hk.2) values_isValue

/-- What a refine-rule sets in the copy of a rule. -/
theorem refineRule_set (h : Heap ρ) (base : ItemBase ρ) (role : XccdfRole)
    (severity : XccdfLevel) (r : XccdfRefineRule) :
    let h' := h ++ [some (.item ⟨base, none, .rule none role severity⟩)]
    let h' := if r.role ≠ .unset then xccdfRuleSetRole h' h.length r.role else h'
    let h' := if r.severity ≠ .notDefined then xccdfRuleSetSeverity h' h.length r.severity else h'
    (if r.weightDefined then xccdfItemSetWeight h' h.length r.weight else h') =
      h ++ [some (.item ⟨base.reweigh r, none,
        .rule none (r.givenRole.getD role) (r.givenSeverity.getD severity)⟩)] := by
  intro h₀ h₁ h₂
  have hrole : h₁ = h ++ [some (.item ⟨base, none,
      .rule none (r.givenRole.getD role) severity⟩)] := by
    rw [← role_eq_givenRole]
    simp only [h₁, h₀, xccdfRuleSetRole, modify_append_length, Cell.mapItem]
    split <;> rfl
  have hseverity : h₂ = h ++ [some (.item ⟨base, none,
      .rule none (r.givenRole.getD role) (r.givenSeverity.getD severity)⟩)] := by
    rw [← severity_eq_givenSeverity]
    simp only [h₂, hrole, xccdfRuleSetSeverity, modify_append_length, Cell.mapItem]
    split <;> rfl
  rw [hseverity, xccdfItemSetWeight, modify_append_length, ItemBase.reweigh]
  split <;> rfl

/-- **Tailoring a rule.** -/
theorem tailorItem_rule {fuel : ℕ} {profile : Option XccdfProfileLists} {parent : Option ℕ}
    {base : ItemBase ρ} {impactMetric : Option String} {role : XccdfRole}
    {severity : XccdfLevel} {outcome : Outcome ρ}
    (at_a : readCell h a = some (.item ⟨base, parent, .rule impactMetric role severity⟩))
    (houtcome : tailored profile (.rule base impactMetric role severity) = some outcome) :
    ∃ h' r, xccdfPolicyTailorItem fuel profile h a = some (h', r) ∧ h <+: h' ∧
      outcome.Shows h' a r := by
  rw [tailored] at houtcome
  cases hr : refineRuleOf profile base.id with
  | none =>
      rw [hr] at houtcome
      rw [refineRuleOf] at hr
      cases houtcome
      exact ⟨h, some a, by simp [xccdfPolicyTailorItem, itemAt, at_a, Cell.item?, hr],
        List.prefix_refl h, rfl⟩
  | some r =>
      rw [hr] at houtcome
      rw [refineRuleOf] at hr
      cases houtcome
      have hset := refineRule_set h base role severity r
      refine ⟨_, some h.length, ?_, List.prefix_append h _, h.length, rfl,
        .rule trivial (read_append_length h _)⟩
      simp only [xccdfPolicyTailorItem, itemAt, at_a, Cell.item?, hr, ruleClone_spec at_a,
        Option.bind_eq_bind, Option.bind_some] at hset ⊢
      rw [hset]

/-- **Tailoring a group.** -/
theorem tailorItem_group {fuel : ℕ} {profile : Option XccdfProfileLists} {parent : Option ℕ}
    {base : ItemBase ρ} {values content : List (Tree ρ)} {outcome : Outcome ρ}
    (hdepth : Tree.depth.depths content ≤ fuel)
    (hreads : Reads h Set.univ parent a (.group base values content))
    (houtcome : tailored profile (.group base values content) = some outcome) :
    ∃ h' r, xccdfPolicyTailorItem fuel profile h a = some (h', r) ∧ h <+: h' ∧
      outcome.Shows h' a r := by
  obtain ⟨h', hclone, hg, hcopy⟩ := groupClone_spec (clones_itemClone fuel)
    (fun item hitem => (depth_le_depths item hitem).trans hdepth) hreads
  rw [tailored] at houtcome
  cases hreads with
  | group mem at_a values_reads content_reads values_isValue =>
      cases hr : refineRuleOf profile base.id with
      | none =>
          rw [hr] at houtcome
          rw [refineRuleOf] at hr
          cases houtcome
          exact ⟨h, some a, by simp [xccdfPolicyTailorItem, itemAt, at_a, Cell.item?, hr],
            List.prefix_refl h, rfl⟩
      | some r =>
          rw [hr] at houtcome
          rw [refineRuleOf] at hr
          by_cases hw : r.weightDefined = true
          · simp only [hw, if_true, Option.some.injEq] at houtcome
            subst houtcome
            refine ⟨xccdfItemSetWeight h' h.length r.weight, some h.length, ?_,
              prefix_modify hg.isPrefix le_rfl, h.length, rfl, ?_⟩
            · simp [xccdfPolicyTailorItem, itemAt, at_a, Cell.item?, hr, hclone, hw]
            · rw [ItemBase.reweigh, if_pos hw]
              exact (hcopy.setWeight r.weight).univ
          · simp only [hw, if_false, Option.some.injEq, Bool.false_eq_true] at houtcome
            subst houtcome
            exact ⟨xccdfItemFree (fuel + 1) h' h.length, some a,
              by simp [xccdfPolicyTailorItem, itemAt, at_a, Cell.item?, hr, hclone, hw],
              (hg.itemFree (fuel + 1) le_rfl).isPrefix, rfl⟩

/-! ### Values -/

/-- The instance that a selector finds, with its address. -/
def cellBySelector (cells : List (ℕ × ValueInstance ρ)) (selector : Option String) :
    Option (ℕ × ValueInstance ρ) :=
  let val := cells.find? fun c => streq c.2.selector selector
  if val.isNone ∧ streq selector (some "") then cells.head? else val

/-- The instance that is found is one of them. -/
theorem mem_of_cellBySelector {cells : List (ℕ × ValueInstance ρ)} {selector : Option String}
    {c : ℕ × ValueInstance ρ} (hc : cellBySelector cells selector = some c) : c ∈ cells := by
  rw [cellBySelector] at hc
  split at hc
  · exact List.mem_of_mem_head? hc
  · exact List.mem_of_find?_eq_some hc

/-- The instance is found in memory. -/
theorem getInstanceBySelector_eq {cells : List (ℕ × ValueInstance ρ)}
    (hcells : ∀ c ∈ cells, readCell h c.1 = some (.valueInstance c.2))
    (selector : Option String) :
    xccdfValueGetInstanceBySelector h (cells.map Prod.fst) selector =
      (cellBySelector cells selector).map Prod.fst := by
  have hfind : (cells.map Prod.fst).find? (fun a => (instanceAt h a).any fun inst =>
      streq inst.selector selector) =
        (cells.find? fun c => streq c.2.selector selector).map Prod.fst := by
    rw [List.find?_map]
    refine congrArg _ (List.find?_congr fun c hc => ?_)
    simp [instanceAt, hcells c hc, Cell.instance?]
  rw [xccdfValueGetInstanceBySelector, cellBySelector, hfind]
  cases cells.find? fun c => streq c.2.selector selector <;>
    by_cases hempty : streq selector (some "") <;> simp [hempty, List.head?_map]

/-- The instance is found among instances. -/
theorem instanceBySelector_eq (cells : List (ℕ × ValueInstance ρ)) (selector : Option String) :
    instanceBySelector (cells.map Prod.snd) selector =
      (cellBySelector cells selector).map Prod.snd := by
  rw [instanceBySelector, cellBySelector, List.find?_map, List.head?_map]
  simp only [Function.comp_def, Option.isNone_map]
  split <;> rfl

/-- **The value of an item is found in memory.** -/
theorem getValueOfItem_eq {cells : List (ℕ × ValueInstance ρ)}
    (hcells : ∀ c ∈ cells, readCell h c.1 = some (.valueInstance c.2))
    (profile : Option XccdfProfileLists) (id : String) :
    xccdfPolicyGetValueOfItem profile h id (cells.map Prod.fst) =
      valueOf profile id (cells.map Prod.snd) := by
  rw [xccdfPolicyGetValueOfItem, valueOf]
  cases xccdfPolicyGetSetvalue profile id with
  | some s => rfl
  | none =>
      simp only [getInstanceBySelector_eq hcells, instanceBySelector_eq]
      cases hc : cellBySelector cells ((refineValueOf profile id).bind
          XccdfRefineValue.selector) with
      | none => rfl
      | some c =>
          simp [instanceAt, hcells c (mem_of_cellBySelector hc), Cell.instance?]

/-- The selector of a value is found in memory. -/
theorem selectorOfValue_eq {cells : List (ℕ × ValueInstance ρ)}
    (hcells : ∀ c ∈ cells, readCell h c.1 = some (.valueInstance c.2)) (value : String) :
    selectorOfValue h value (cells.map Prod.fst) = lastSelector value (cells.map Prod.snd) := by
  rw [selectorOfValue, lastSelector, List.foldl_map, List.foldl_map]
  exact List.foldl_ext _ _ _ fun selector c hc => by
    simp [instanceAt, hcells c hc, Cell.instance?]

/-- One instance is removed from a value. -/
theorem iteratorRemove_spec {new k : ℕ} {base : ItemBase ρ} {parent : Option ℕ}
    {oper : XccdfOperator} {pre ks : List ℕ} (hne : k ≠ new) (hpre : k ∉ pre)
    (at_new : readCell h new = some (.item ⟨base, parent, .value oper (pre ++ k :: ks)⟩)) :
    readCell (xccdfValueInstanceIteratorRemove h new k) new =
        some (.item ⟨base, parent, .value oper (pre ++ ks)⟩) ∧
      ∀ k', k' ≠ new → k' ≠ k →
        readCell (xccdfValueInstanceIteratorRemove h new k) k' = readCell h k' := by
  refine ⟨?_, fun k' hnew hk' => ?_⟩
  · rw [xccdfValueInstanceIteratorRemove, read_free_of_ne hne.symm, read_modify_self at_new]
    simp [Cell.mapItem, List.erase_append_right _ hpre]
  · rw [xccdfValueInstanceIteratorRemove, read_free_of_ne hk', read_modify_of_ne hnew]

/-- The older memory is kept when instances of a new value are removed. -/
theorem prefix_removeOthers {new k : ℕ} {selector : Option String} (hg : old <+: h)
    (hnew : old.length ≤ new) (hk : old.length ≤ k) : old <+: removeOthers new selector h k := by
  rw [removeOthers]
  split
  · split
    · exact hg
    · exact prefix_free (prefix_modify hg hnew) hk
  · exact hg

/-- **The loop leaves the instances with the selector.** -/
theorem removeOthers_spec {new : ℕ} {base : ItemBase ρ} {parent : Option ℕ}
    {oper : XccdfOperator} (selector : Option String) {pre : List ℕ}
    {cells : List (ℕ × ValueInstance ρ)}
    (at_new : readCell h new =
      some (.item ⟨base, parent, .value oper (pre ++ cells.map Prod.fst)⟩))
    (hnodup : (pre ++ cells.map Prod.fst).Nodup)
    (hcells : ∀ c ∈ cells, c.1 ≠ new ∧ readCell h c.1 = some (.valueInstance c.2)) :
    let h' := (cells.map Prod.fst).foldl (removeOthers new selector) h
    let kept := cells.filter fun c => streq c.2.selector selector
    readCell h' new = some (.item ⟨base, parent, .value oper (pre ++ kept.map Prod.fst)⟩) ∧
      (∀ k, k ≠ new → k ∉ cells.map Prod.fst → readCell h' k = readCell h k) ∧
      ∀ c ∈ kept, readCell h' c.1 = some (.valueInstance c.2) := by
  induction cells generalizing h pre with
  | nil => exact ⟨at_new, fun _ _ _ => rfl, fun _ hc => absurd hc List.not_mem_nil⟩
  | cons c cells ih =>
      obtain ⟨⟨hne, hread⟩, hrest⟩ := List.forall_mem_cons.mp hcells
      rw [List.map_cons] at at_new hnodup
      have hc_pre : c.1 ∉ pre := fun hmem =>
        List.disjoint_of_nodup_append hnodup hmem (List.mem_cons_self ..)
      have hc_cells : c.1 ∉ cells.map Prod.fst :=
        (List.nodup_cons.mp hnodup.of_append_right).1
      have hinst : instanceAt h c.1 = some c.2 := by
        simp [instanceAt, hread, Cell.instance?]
      by_cases hkeep : streq c.2.selector selector = true
      · -- the instance stays
        have hstep : removeOthers new selector h c.1 = h := by
          simp [removeOthers, hinst, hkeep]
        have hassoc : pre ++ c.1 :: cells.map Prod.fst = (pre ++ [c.1]) ++ cells.map Prod.fst := by
          simp
        rw [hassoc] at at_new hnodup
        obtain ⟨hat, hother, hkept⟩ := ih at_new hnodup hrest
        simp only [List.map_cons, List.foldl_cons, hstep, List.filter_cons, hkeep, if_true]
        refine ⟨by simpa using hat, fun k hk hmem => ?_, ?_⟩
        · exact hother k hk fun h' => hmem (List.mem_cons_of_mem _ h')
        · exact List.forall_mem_cons.mpr ⟨(hother c.1 hne hc_cells).trans hread, hkept⟩
      · -- the instance is removed
        have hstep : removeOthers new selector h c.1 =
            xccdfValueInstanceIteratorRemove h new c.1 := by
          simp [removeOthers, hinst, hkeep]
        obtain ⟨hat, hsame⟩ := iteratorRemove_spec hne hc_pre at_new
        have hrest' : ∀ d ∈ cells, d.1 ≠ new ∧
            readCell (xccdfValueInstanceIteratorRemove h new c.1) d.1 =
              some (.valueInstance d.2) := fun d hd => by
          refine ⟨(hrest d hd).1, ?_⟩
          rw [hsame d.1 (hrest d hd).1 fun heq => hc_cells (heq ▸ List.mem_map_of_mem hd)]
          exact (hrest d hd).2
        have hnodup' : (pre ++ cells.map Prod.fst).Nodup :=
          hnodup.sublist (List.Sublist.append_left (List.sublist_cons_self ..) pre)
        obtain ⟨hat', hother, hkept⟩ := ih hat hnodup' hrest'
        simp only [List.map_cons, List.foldl_cons, hstep, List.filter_cons, hkeep,
          Bool.false_eq_true, if_false]
        refine ⟨hat', fun k hk hmem => ?_, hkept⟩
        rw [List.mem_cons, not_or] at hmem
        rw [hother k hk hmem.2, hsame k hk hmem.1]

/-- What the call does to the copy of a value. -/
def tailorCopy (h : Heap ρ) (new : ℕ) (value : String) : Option (Heap ρ) := do
  let instances := xccdfValueGetInstances h new
  let selector := selectorOfValue h value instances
  let h := instances.foldl (removeOthers new selector) h
  if selector = none then do
    let inst ← xccdfValueGetInstanceBySelector h (xccdfValueGetInstances h new) none
    some (xccdfValueInstanceSetDefvalString h inst value)
  else some h

/-- **The copy of a value has the instances that are left.** -/
theorem tailorCopy_spec {new : ℕ} {base : ItemBase ρ} {oper : XccdfOperator}
    {cells : List (ℕ × ValueInstance ρ)} (value : String) (hg : old <+: h)
    (hnew : old.length ≤ new)
    (at_new : readCell h new = some (.item ⟨base, none, .value oper (cells.map Prod.fst)⟩))
    (hnodup : (cells.map Prod.fst).Nodup)
    (hcells : ∀ c ∈ cells, old.length ≤ c.1 ∧ c.1 ≠ new ∧
      readCell h c.1 = some (.valueInstance c.2)) :
    match tailoredInstances value (cells.map Prod.snd) with
    | none => tailorCopy h new value = none
    | some instances => ∃ h', tailorCopy h new value = some h' ∧ old <+: h' ∧
        Reads h' (Set.Ici old.length) none new (.value base oper instances) := by
  have hread : ∀ c ∈ cells, readCell h c.1 = some (.valueInstance c.2) := fun c hc =>
    (hcells c hc).2.2
  have hinstances : xccdfValueGetInstances h new = cells.map Prod.fst := by
    simp [xccdfValueGetInstances, itemAt, at_new, Cell.item?]
  have hselector := selectorOfValue_eq hread value
  generalize hsel : lastSelector value (cells.map Prod.snd) = selector at hselector
  rw [← List.nil_append (cells.map Prod.fst)] at at_new hnodup
  obtain ⟨hat, -, hkept⟩ := removeOthers_spec selector at_new hnodup fun c hc => (hcells c hc).2
  have hg' : old <+: (cells.map Prod.fst).foldl (removeOthers new selector) h := by
    refine List.foldlRecOn (motive := (old <+: ·)) _ _ hg fun h' hh' k hk => ?_
    obtain ⟨c, hc, rfl⟩ := List.mem_map.mp hk
    exact prefix_removeOthers hh' hnew (hcells c hc).1
  have hmem : ∀ c ∈ cells.filter (fun c => streq c.2.selector selector), c ∈ cells := fun c hc =>
    (List.mem_filter.mp hc).1
  have hfilter : (cells.map Prod.snd).filter (fun inst => streq inst.selector selector) =
      (cells.filter fun c => streq c.2.selector selector).map Prod.snd := List.filter_map
  have hempty : ∀ c ∈ cells.filter (fun c => streq c.2.selector selector),
      streq c.2.selector selector = true := fun c hc => (List.mem_filter.mp hc).2
  have hkept_nodup : ((cells.filter fun c => streq c.2.selector selector).map Prod.fst).Nodup :=
    hnodup.sublist (List.filter_sublist.map Prod.fst)
  simp only [tailoredInstances, tailorCopy, hinstances, hselector, hsel, hfilter]
  generalize (cells.map Prod.fst).foldl (removeOthers new selector) h = h₂ at *
  generalize cells.filter (fun c => streq c.2.selector selector) = kept at *
  rw [List.nil_append] at hat
  have hinstances₂ : xccdfValueGetInstances h₂ new = kept.map Prod.fst := by
    simp [xccdfValueGetInstances, itemAt, hat, Cell.item?]
  cases selector with
  | some sel =>
      exact ⟨h₂, by simp, hg', .value hnew hat
        (fun c hc => ⟨(hcells c (hmem c hc)).1, hkept c hc⟩) rfl⟩
  | none =>
      rw [if_pos rfl, hinstances₂, getInstanceBySelector_eq hkept]
      cases kept with
      | nil => rfl
      | cons c kept =>
          have hfirst : cellBySelector (c :: kept) none = some c := by
            simp [cellBySelector, hempty c (List.mem_cons_self ..)]
          obtain ⟨hc, hcs⟩ := List.forall_mem_cons.mp hkept
          rw [List.map_cons, List.nodup_cons] at hkept_nodup
          obtain ⟨hold, hne, -⟩ := hcells c (hmem c (List.mem_cons_self ..))
          have hat' : readCell (xccdfValueInstanceSetDefvalString h₂ c.1 value) new =
              some (.item ⟨base, none, .value oper (List.map Prod.fst
                ((c.1, { c.2 with defval := some value, defvalGiven := true }) :: kept))⟩) := by
            rw [xccdfValueInstanceSetDefvalString, read_modify_of_ne hne.symm, hat]
            rfl
          refine ⟨xccdfValueInstanceSetDefvalString h₂ c.1 value, by simp [hfirst],
            prefix_modify hg' hold, .value hnew hat' ?_ rfl⟩
          · refine List.forall_mem_cons.mpr ⟨⟨hold, read_modify_self hc⟩, fun d hd => ⟨?_, ?_⟩⟩
            · exact (hcells d (hmem d (List.mem_cons_of_mem _ hd))).1
            · have hdc : d.1 ≠ c.1 := fun heq =>
                hkept_nodup.1 (heq ▸ List.mem_map_of_mem hd)
              rw [xccdfValueInstanceSetDefvalString, read_modify_of_ne hdc]
              exact hcs d hd

/-- What the call does with a value, once it is known. -/
theorem tailorItem_value_eq {fuel : ℕ} {profile : Option XccdfProfileLists} {parent : Option ℕ}
    {base : ItemBase ρ} {oper : XccdfOperator} {cells : List (ℕ × ValueInstance ρ)}
    (at_a : readCell h a = some (.item ⟨base, parent, .value oper (cells.map Prod.fst)⟩))
    (hcells : ∀ c ∈ cells, readCell h c.1 = some (.valueInstance c.2)) :
    xccdfPolicyTailorItem fuel profile h a =
      match valueOf profile base.id (cells.map Prod.snd) with
      | none => none
      | some none => some (h, none)
      | some (some value) => (xccdfValueClone h a).bind fun copy =>
          (tailorCopy copy.1 copy.2 value).bind fun h' =>
            match xccdfPolicyGetRefineValueOper profile base.id with
            | none => some (h', some copy.2)
            | some oper => some (xccdfValueSetOper h' a oper, some copy.2) := by
  simp only [xccdfPolicyTailorItem, itemAt, at_a, Cell.item?, Option.bind_eq_bind,
    Option.bind_some, getValueOfItem_eq hcells]
  cases valueOf profile base.id (cells.map Prod.snd) with
  | none => rfl
  | some value =>
      cases value with
      | none => rfl
      | some value =>
          refine congrArg (Option.bind (xccdfValueClone h a)) (funext fun copy => ?_)
          simp only [tailorCopy]
          split
          · rw [Option.bind_eq_bind, Option.bind_assoc]
            rfl
          · rfl

/-- **Tailoring a value.** -/
theorem tailorItem_value {fuel : ℕ} {profile : Option XccdfProfileLists} {parent : Option ℕ}
    {base : ItemBase ρ} {oper : XccdfOperator} {instances : List (ValueInstance ρ)}
    (hreads : Reads h Set.univ parent a (.value base oper instances)) :
    match tailored profile (.value base oper instances) with
    | none => xccdfPolicyTailorItem fuel profile h a = none
    | some outcome => ∃ h' r, xccdfPolicyTailorItem fuel profile h a = some (h', r) ∧
        leaves profile h a (.value base oper instances) <+: h' ∧ outcome.Shows h' a r := by
  cases hreads with
  | @value _ _ _ _ _ cells _ mem at_a cells_read instances_eq =>
      have hcells := fun c hc => (cells_read c hc).2
      rw [tailorItem_value_eq at_a hcells, tailored, leaves, operSet, ← instances_eq]
      cases hvalue : valueOf profile base.id instances with
      | none => rfl
      | some value =>
          cases value with
          | none => exact ⟨h, none, rfl, List.prefix_refl h, rfl⟩
          | some value =>
              obtain ⟨h₁, cells', hclone, hg₁, -, at_new, hsnd, hnodup, hread⟩ :=
                valueClone_spec at_a hcells
              have hcopy := tailorCopy_spec value hg₁.isPrefix le_rfl at_new hnodup fun c hc =>
                ⟨(hread c hc).1.1, (hread c hc).2⟩
              rw [hsnd, ← instances_eq] at hcopy
              cases hkept : tailoredInstances value instances with
              | none =>
                  rw [hkept] at hcopy
                  simp only [hkept, hclone, hcopy, Option.bind_some, Option.bind_none,
                    Option.map_none]
              | some kept =>
                  rw [hkept] at hcopy
                  obtain ⟨h₂, hrun, hg₂, hreads₂⟩ := hcopy
                  have hlt := lt_length_of_read at_a
                  simp only [hkept, hclone, hrun, Option.bind_some, Option.map_some]
                  cases xccdfPolicyGetRefineValueOper profile base.id with
                  | none => exact ⟨h₂, _, rfl, hg₂, _, rfl, hreads₂.univ⟩
                  | some oper' =>
                      refine ⟨_, _, rfl, modify_prefix_modify hg₂, _, rfl,
                        hreads₂.mono (Set.subset_univ _) fun k hk x hx => ?_⟩
                      have hne : k ≠ a := (hlt.trans_le hk).ne'
                      rw [xccdfValueSetOper, read_modify_of_ne hne, hx]

/-- **What a call returns, and what it leaves.** -/
theorem tailorItem_spec {fuel : ℕ} (profile : Option XccdfProfileLists) {parent : Option ℕ}
    {item : Tree ρ} (hdepth : item.depth ≤ fuel) (hreads : Reads h Set.univ parent a item) :
    match tailored profile item with
    | none => xccdfPolicyTailorItem fuel profile h a = none
    | some outcome => ∃ h' r, xccdfPolicyTailorItem fuel profile h a = some (h', r) ∧
        leaves profile h a item <+: h' ∧ outcome.Shows h' a r := by
  cases item with
  | rule base impactMetric role severity =>
      cases hreads with
      | rule mem at_a =>
          obtain ⟨outcome, houtcome⟩ : ∃ outcome,
              tailored profile (.rule base impactMetric role severity) = some outcome := by
            rw [tailored]
            cases refineRuleOf profile base.id <;> exact ⟨_, rfl⟩
          rw [houtcome]
          exact tailorItem_rule at_a houtcome
  | group base values content =>
      obtain ⟨outcome, houtcome⟩ : ∃ outcome,
          tailored profile (.group base values content) = some outcome := by
        rw [tailored]
        cases refineRuleOf profile base.id with
        | none => exact ⟨_, rfl⟩
        | some r => by_cases hw : r.weightDefined = true <;> simp [hw]
      rw [houtcome]
      exact tailorItem_group ((Nat.le_succ _).trans hdepth) hreads houtcome
  | value base oper instances => exact tailorItem_value hreads
  | other base =>
      cases hreads with
      | other mem at_a =>
          exact ⟨h, none, by simp [xccdfPolicyTailorItem, itemAt, at_a, Cell.item?],
            List.prefix_refl h, rfl⟩

/-! ### Tailoring twice -/

/-- An item of a benchmark. -/
structure BenchmarkItem (ρ : Type) where
  heap : Heap ρ
  addr : ℕ
  parent : Option ℕ
  item : Tree ρ
  reads : Reads heap Set.univ parent addr item

/-- Two addresses of items that are the same, or two null pointers. -/
def SameResult (h : Heap ρ) (r₁ r₂ : Option ℕ) : Prop :=
  r₁ = none ∧ r₂ = none ∨ ∃ a b parent item, r₁ = some a ∧ r₂ = some b ∧
    Reads h Set.univ parent a item ∧ Reads h Set.univ parent b item

/-- Two calls leave all items as they were, and return the same. -/
def TailorsPurely (profile : Option XccdfProfileLists) (x : BenchmarkItem ρ) : Prop :=
  ∀ fuel, x.item.depth ≤ fuel → ∃ h₁ r₁ h₂ r₂,
    xccdfPolicyTailorItem fuel profile x.heap x.addr = some (h₁, r₁) ∧ x.heap <+: h₁ ∧
    xccdfPolicyTailorItem fuel profile h₁ x.addr = some (h₂, r₂) ∧ x.heap <+: h₂ ∧
    SameResult h₂ r₁ r₂

/-- An item is no value; or the profile does not ask for an instance that the value has not, and
when there is a value, it is that of an instance with a selector or there is an instance without,
and the refine-value gives the operator that the item has. -/
def KeepsValue (profile : Option XccdfProfileLists) : Tree ρ → Prop
  | .value base oper instances => ∃ given, valueOf profile base.id instances = some given ∧
      ∀ value, given = some value →
        (lastSelector value instances ≠ none ∨ ∃ inst ∈ instances, streq inst.selector none) ∧
          ∀ r, refineValueOf profile base.id = some r → r.oper = oper
  | _ => True

/-- When there is an instance for the default. -/
theorem tailoredInstances_ne_none_iff (value : String) (instances : List (ValueInstance ρ)) :
    tailoredInstances value instances ≠ none ↔
      lastSelector value instances ≠ none ∨ ∃ inst ∈ instances, streq inst.selector none := by
  rw [tailoredInstances]
  cases hsel : lastSelector value instances with
  | some selector => simp
  | none =>
      cases hkept : instances.filter fun inst => streq inst.selector none with
      | nil =>
          rw [List.filter_eq_nil_iff] at hkept
          simpa using hkept
      | cons inst kept =>
          have hinst := List.mem_filter.mp (hkept ▸ List.mem_cons_self ..)
          simpa [hkept] using ⟨inst, hinst.1, hinst.2⟩

/-- When the call follows no null pointer. -/
theorem tailored_ne_none (profile : Option XccdfProfileLists) {item : Tree ρ}
    (hkeeps : KeepsValue profile item) : tailored profile item ≠ none := by
  cases item with
  | rule base impactMetric role severity =>
      rw [tailored]
      split <;> simp
  | group base values content =>
      rw [tailored]
      split
      · simp
      · split <;> simp
  | value base oper instances =>
      obtain ⟨given, hgiven, hvalue⟩ := hkeeps
      rw [tailored, hgiven]
      cases given with
      | none => simp
      | some value =>
          have hsome := (tailoredInstances_ne_none_iff value instances).mpr (hvalue value rfl).1
          simpa using hsome
  | other base => simp [tailored]

/-- When the call leaves the memory as it was. -/
theorem leaves_eq_self {profile : Option XccdfProfileLists} {parent : Option ℕ} {item : Tree ρ}
    (hreads : Reads h Set.univ parent a item) (hkeeps : KeepsValue profile item) :
    leaves profile h a item = h := by
  cases hreads with
  | rule => rfl
  | group => rfl
  | other => rfl
  | @value _ _ _ base oper cells instances mem at_a cells_read instances_eq =>
      obtain ⟨given, hgiven, hvalue⟩ := hkeeps
      rw [leaves, operSet, hgiven, Option.bind_some]
      cases given with
      | none => rfl
      | some value =>
          rw [Option.bind_some, xccdfPolicyGetRefineValueOper]
          cases hr : refineValueOf profile base.id with
          | none => rfl
          | some r =>
              refine modify_eq_self at_a ?_
              rw [(hvalue value rfl).2 r hr]
              rfl

/-- When the memory is left as it was, the item keeps its operator. -/
theorem keepsValue_of_leaves {profile : Option XccdfProfileLists} {parent : Option ℕ}
    {item : Tree ρ} {h' : Heap ρ} (hreads : Reads h Set.univ parent a item)
    (houtcome : tailored profile item ≠ none) (hleaves : leaves profile h a item <+: h')
    (hg : h <+: h') : KeepsValue profile item := by
  cases hreads with
  | rule => trivial
  | group => trivial
  | other => trivial
  | @value _ _ _ base oper cells instances mem at_a cells_read instances_eq =>
      rw [tailored] at houtcome
      rw [leaves, operSet] at hleaves
      cases hgiven : valueOf profile base.id instances with
      | none => simp [hgiven] at houtcome
      | some given =>
          refine ⟨given, hgiven, fun value hvalue => ⟨?_, fun r hr => ?_⟩⟩
          · rw [← tailoredInstances_ne_none_iff]
            rintro hnone
            simp [hgiven, hvalue, hnone] at houtcome
          · simp only [hgiven, hvalue, xccdfPolicyGetRefineValueOper, hr, Option.map_some,
              Option.bind_some] at hleaves
            have hlen : (xccdfValueSetOper h a r.oper).length = h.length := by
              rw [xccdfValueSetOper, length_modify]
            have heq : xccdfValueSetOper h a r.oper = h :=
              (List.prefix_of_prefix_length_le hleaves hg hlen.le).eq_of_length hlen
            have hset : readCell (xccdfValueSetOper h a r.oper) a =
                some (.item ⟨base, parent, .value r.oper (cells.map Prod.fst)⟩) :=
              read_modify_self at_a
            rw [heq, at_a] at hset
            simpa using hset.symm

/-- What a call left is shown in memory that has grown. -/
theorem Outcome.Shows.sameResult {parent : Option ℕ}
    {item : Tree ρ} {outcome : Outcome ρ} {h₁ h₂ : Heap ρ} {r₁ r₂ : Option ℕ} (hg : h₁ <+: h₂)
    (hreads : Reads h₂ Set.univ parent a item) (hr₁ : outcome.Shows h₁ a r₁)
    (hr₂ : outcome.Shows h₂ a r₂) : SameResult h₂ r₁ r₂ := by
  cases outcome with
  | original => exact .inr ⟨a, a, parent, item, hr₁, hr₂, hreads, hreads⟩
  | copy copied =>
      obtain ⟨b₁, hb₁, hread₁⟩ := hr₁
      obtain ⟨b₂, hb₂, hread₂⟩ := hr₂
      exact .inr ⟨b₁, b₂, none, copied, hb₁, hb₂, hread₁.grows hg, hread₂⟩
  | null => exact .inl ⟨hr₁, hr₂⟩

/-- **The call leaves the benchmark as it was, and returns the same when it is made again, unless
the item is a value and the profile gives it another operator or asks for an instance that is not
there.** -/
theorem tailorsPurely_iff (profile : Option XccdfProfileLists) (x : BenchmarkItem ρ) :
    TailorsPurely profile x ↔ KeepsValue profile x.item := by
  obtain ⟨h, a, parent, item, hreads⟩ := x
  constructor
  · intro hpure
    obtain ⟨h₁, r₁, -, -, hrun, hg, -⟩ := hpure item.depth le_rfl
    have hspec := tailorItem_spec profile le_rfl hreads
    cases houtcome : tailored profile item with
    | none =>
        rw [houtcome] at hspec
        rw [hspec] at hrun
        cases hrun
    | some outcome =>
        rw [houtcome] at hspec
        obtain ⟨h', r', hrun', hleaves, -⟩ := hspec
        obtain ⟨rfl, rfl⟩ := Prod.mk.inj (Option.some.inj (hrun.symm.trans hrun'))
        exact keepsValue_of_leaves hreads (houtcome ▸ Option.some_ne_none outcome) hleaves hg
  · intro hkeeps fuel hdepth
    obtain ⟨outcome, houtcome⟩ := Option.ne_none_iff_exists'.mp (tailored_ne_none profile hkeeps)
    have hspec := tailorItem_spec profile hdepth hreads
    rw [houtcome, leaves_eq_self hreads hkeeps] at hspec
    obtain ⟨h₁, r₁, hrun₁, hg₁, hr₁⟩ := hspec
    have hreads₁ := hreads.grows hg₁
    have hspec₂ := tailorItem_spec profile hdepth hreads₁
    rw [houtcome, leaves_eq_self hreads₁ hkeeps] at hspec₂
    obtain ⟨h₂, r₂, hrun₂, hg₂, hr₂⟩ := hspec₂
    exact ⟨h₁, r₁, h₂, r₂, hrun₁, hg₁, hrun₂, hg₁.trans hg₂,
      hr₁.sameResult hg₂ (hreads₁.grows hg₂) hr₂⟩

/-- A value with one instance. -/
def oneValue : BenchmarkItem Unit where
  heap := [some (.item ⟨⟨"v", none, ()⟩, none, .value .equals [1]⟩),
    some (.valueInstance ⟨some "", some "1", none, false, ()⟩)]
  addr := 0
  parent := none
  item := .value ⟨"v", none, ()⟩ .equals [⟨some "", some "1", none, false, ()⟩]
  reads := @Reads.value _ _ _ _ _ _ _ [(1, ⟨some "", some "1", none, false, ()⟩)] _ trivial rfl
    (by simp [readCell]) rfl

/-- **A refine-value sets its operator in the benchmark.** -/
theorem not_tailorsPurely :
    ¬ TailorsPurely (some ⟨[], [], [], [⟨"v", none, .greater⟩]⟩) oneValue := by
  intro hpure
  obtain ⟨h₁, r₁, -, -, hrun, hg, -⟩ := hpure 1 le_rfl
  have hall : (xccdfPolicyTailorItem 1 (some ⟨[], [], [], [⟨"v", none, .greater⟩]⟩)
      oneValue.heap oneValue.addr).all fun result => ¬ oneValue.heap <+: result.1 := by decide
  rw [hrun, Option.all_some, decide_eq_true_iff] at hall
  exact hall hg

end OpenScap.Tailor
