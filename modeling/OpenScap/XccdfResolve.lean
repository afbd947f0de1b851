import OpenScap.KeyedMerge
import OpenScap.OscapTsort
import OpenScap.XccdfSelect

/-!
# Resolving items that extend others

`xccdf_resolve_item` completes an item by the item that it extends: lists of the two are
merged by `xccdf_resolve_appendlist`, which is given a comparison of entries and leaves out
the parent's entries that compare equal to one of the child's, and the parent's platforms are
added to the child's.

## Main results

* `xccdfResolveAppendlist_eq` — the loops keep the parent's entries that no entry of the child
  matches;
* `appendlist_isMerge`, `conflicts_merged_iff` — a comparison by key merges by that key, and
  what the inverted comparison of the conflicts does;
* `resolve_merges_iff` — when all lists of an item are merged without loss or duplicate.
-/

open KeyedMerge

namespace OpenScap

/-! ### The entries of profiles and items -/

/-- `struct xccdf_setvalue`. -/
structure XccdfSetvalue where
  item : String
  value : String
  deriving DecidableEq

/-- `xccdf_operator_t`, with the 0 of an operator that is not given. -/
inductive XccdfOperator
  | unset
  | equals
  | notEqual
  | greater
  | greaterEqual
  | less
  | lessEqual
  | patternMatch
  deriving DecidableEq, Repr

/-- `struct xccdf_refine_value`. -/
structure XccdfRefineValue where
  item : String
  selector : Option String
  oper : XccdfOperator
  deriving DecidableEq

/-- `xccdf_role_t`, with the 0 of a role that is not given. -/
inductive XccdfRole
  | unset
  | full
  | unscored
  | unchecked
  deriving DecidableEq, Repr

/-- `xccdf_level_t`. -/
inductive XccdfLevel
  | notDefined
  | unknown
  | info
  | low
  | medium
  | high
  deriving DecidableEq, Repr

/-- `struct xccdf_refine_rule`; a weight that is not given is the not-a-number. -/
structure XccdfRefineRule where
  item : String
  selector : Option String
  role : XccdfRole
  severity : XccdfLevel
  weight : Option Rat
  deriving DecidableEq

/-- `struct xccdf_ident`. -/
structure XccdfIdent where
  id : String
  system : String
  deriving DecidableEq

/-- The order of the first characters that differ, by sign. -/
def charsCmp : List Char → List Char → ℤ
  | [], [] => 0
  | _ :: _, [] => 1
  | [], _ :: _ => -1
  | c :: cs, d :: ds => if c = d then charsCmp cs ds else if c.toNat < d.toNat then -1 else 1

/-- `oscap_strcmp`. -/
def oscapStrcmp (s1 s2 : String) : ℤ := charsCmp s1.toList s2.toList

/-- `oscap_streq`. -/
def oscapStreq (s1 s2 : String) : Bool := oscapStrcmp s1 s2 = 0

/-- A function that returns an `int`, called as one that returns a `bool`. -/
def asBool (n : ℤ) : Bool := n ≠ 0

/-- `xccdf_select_clone`. -/
def xccdfSelectClone (sel : XccdfSelect) : XccdfSelect := ⟨sel.item, sel.selected⟩

/-- `xccdf_setvalue_clone`. -/
def xccdfSetvalueClone (old : XccdfSetvalue) : XccdfSetvalue := ⟨old.item, old.value⟩

/-- `xccdf_refine_value_clone`. -/
def xccdfRefineValueClone (value : XccdfRefineValue) : XccdfRefineValue :=
  ⟨value.item, value.selector, value.oper⟩

/-- `xccdf_refine_rule_clone`. -/
def xccdfRefineRuleClone (rule : XccdfRefineRule) : XccdfRefineRule :=
  ⟨rule.item, rule.selector, rule.role, rule.severity, rule.weight⟩

/-- `xccdf_ident_clone`. -/
def xccdfIdentClone (ident : XccdfIdent) : XccdfIdent := ⟨ident.id, ident.system⟩

/-- `oscap_strdup`. -/
def oscapStrdup (s : String) : String := s

/-- `xccdf_select_idcmp`. -/
def xccdfSelectIdcmp (s1 s2 : XccdfSelect) : Bool := oscapStreq s1.item s2.item

/-- `xccdf_setvalue_idcmp`. -/
def xccdfSetvalueIdcmp (s1 s2 : XccdfSetvalue) : Bool := oscapStreq s1.item s2.item

/-- `xccdf_refine_rule_idcmp`. -/
def xccdfRefineRuleIdcmp (s1 s2 : XccdfRefineRule) : Bool := oscapStreq s1.item s2.item

/-- `xccdf_refine_value_idcmp`. -/
def xccdfRefineValueIdcmp (s1 s2 : XccdfRefineValue) : Bool := oscapStreq s1.item s2.item

/-- `xccdf_ident_idcmp`. -/
def xccdfIdentIdcmp (s1 s2 : XccdfIdent) : Bool := oscapStreq s1.id s2.id

/-! ### Resolving an item -/

/-- `xccdf_resolve_appendlist`: the child's list, with clones of the parent's entries that
compare equal to none of the child's. -/
def xccdfResolveAppendlist {α : Type*} (itemCompare : α → α → Bool) (cloner : α → α)
    (prepend : Bool) (childList parentList : List α) : List α :=
  let toAdd := parentList.foldl (fun toAdd parent =>
    let found := childList.foldl (fun found child =>
      if itemCompare parent child then true else found) false
    if !found then toAdd ++ [cloner parent] else toAdd) []
  if prepend then childList ++ toAdd else toAdd ++ childList

/-- The lists of a profile that are merged. -/
structure XccdfProfileLists where
  selects : List XccdfSelect
  setvalues : List XccdfSetvalue
  refineRules : List XccdfRefineRule
  refineValues : List XccdfRefineValue
  deriving DecidableEq

/-- `xccdf_resolve_profile`, but for the note tag. -/
def xccdfResolveProfile (child parent : XccdfProfileLists) : XccdfProfileLists where
  selects := xccdfResolveAppendlist xccdfSelectIdcmp xccdfSelectClone false
    child.selects parent.selects
  setvalues := xccdfResolveAppendlist xccdfSetvalueIdcmp xccdfSetvalueClone false
    child.setvalues parent.setvalues
  refineRules := xccdfResolveAppendlist xccdfRefineRuleIdcmp xccdfRefineRuleClone false
    child.refineRules parent.refineRules
  refineValues := xccdfResolveAppendlist xccdfRefineValueIdcmp xccdfRefineValueClone false
    child.refineValues parent.refineValues

/-- The list that `xccdf_resolve_group` and `xccdf_resolve_rule` merge alike. -/
def resolveConflicts (child parent : List String) : List String :=
  xccdfResolveAppendlist (fun s1 s2 => asBool (oscapStrcmp s1 s2)) oscapStrdup false child parent

/-- The list of idents, in `xccdf_resolve_rule`. -/
def resolveIdents (child parent : List XccdfIdent) : List XccdfIdent :=
  xccdfResolveAppendlist xccdfIdentIdcmp xccdfIdentClone false child parent

/-- What resolution merges of an item beside its platforms, by type. -/
inductive XccdfItemLists
  | benchmark
  | profile (lists : XccdfProfileLists)
  | group (conflicts : List String)
  | rule (conflicts : List String) (idents : List XccdfIdent)
  | value
  deriving DecidableEq

/-- What resolution merges of an item. -/
structure XccdfExtending where
  platforms : List String
  lists : XccdfItemLists
  deriving DecidableEq

/-- `xccdf_item_get_type`. -/
def XccdfExtending.type (item : XccdfExtending) : ResolveType :=
  match item.lists with
  | .benchmark => .benchmark
  | .profile _ => .profile
  | .group _ => .group
  | .rule _ _ => .rule
  | .value => .value

/-- The part of `xccdf_resolve_item` that is specific to a type; the parent's is the same. -/
def resolveLists : XccdfItemLists → XccdfItemLists → XccdfItemLists
  | .profile child, .profile parent => .profile (xccdfResolveProfile child parent)
  | .group child, .group parent => .group (resolveConflicts child parent)
  | .rule childConflicts childIdents, .rule parentConflicts parentIdents =>
      .rule (resolveConflicts childConflicts parentConflicts)
        (resolveIdents childIdents parentIdents)
  | child, _ => child

/-- `xccdf_resolve_item`, for an item and the one that it extends. `versionCmp` is what
`xccdf_version_cmp` says of the schema's version and 1.2, from which on groups cannot extend
others. -/
def xccdfResolveItem (versionCmp : ℤ) (item : XccdfExtending) (parent : Option XccdfExtending) :
    XccdfExtending :=
  if item.type = .benchmark then item
  else
    match parent with
    | none => item
    | some parent =>
        if item.type ≠ parent.type then item
        else if item.type = .group ∧ versionCmp ≥ 0 then item
        else
          ⟨parent.platforms.foldl (fun platforms platform => platforms ++ [platform])
            item.platforms, resolveLists item.lists parent.lists⟩

/-! ### The merged lists -/

/-- The loops of `xccdf_resolve_appendlist` keep the parent's entries that compare equal to
none of the child's. -/
theorem xccdfResolveAppendlist_eq {α : Type*} (itemCompare : α → α → Bool) (cloner : α → α)
    (prepend : Bool) (childList parentList : List α) :
    xccdfResolveAppendlist itemCompare cloner prepend childList parentList =
      if prepend then
        childList ++ (parentList.filter fun p => !childList.any (itemCompare p)).map cloner
      else (parentList.filter fun p => !childList.any (itemCompare p)).map cloner ++ childList := by
  have hfound : ∀ (p : α) (found : Bool), (childList.foldl (fun found child =>
      if itemCompare p child then true else found) found) =
        (found || childList.any (itemCompare p)) := by
    intro p
    induction childList with
    | nil => simp
    | cons c cs ih =>
        intro found
        rw [List.foldl_cons, ih, List.any_cons]
        cases itemCompare p c <;> simp
  have hadd : ∀ toAdd, (parentList.foldl (fun toAdd parent =>
      if !(childList.foldl (fun found child =>
        if itemCompare parent child then true else found) false)
      then toAdd ++ [cloner parent] else toAdd) toAdd) =
        toAdd ++ (parentList.filter fun p => !childList.any (itemCompare p)).map cloner := by
    induction parentList with
    | nil => simp
    | cons p ps ih =>
        intro toAdd
        rw [List.foldl_cons, ih, hfound, Bool.false_or, List.filter_cons]
        cases childList.any (itemCompare p) <;> simp
  rw [xccdfResolveAppendlist]
  simp only [hadd, List.nil_append]

theorem charsCmp_eq_zero (cs ds : List Char) : charsCmp cs ds = 0 ↔ cs = ds := by
  induction cs generalizing ds with
  | nil => cases ds <;> simp [charsCmp]
  | cons c cs ih =>
      cases ds with
      | nil => simp [charsCmp]
      | cons d ds =>
          rw [charsCmp]
          by_cases hcd : c = d
          · simp [hcd, ih]
          · by_cases hlt : c.toNat < d.toNat <;> simp [hcd, hlt]

/-- `oscap_strcmp` is 0 for equal texts. -/
theorem oscapStrcmp_eq_zero (s1 s2 : String) : oscapStrcmp s1 s2 = 0 ↔ s1 = s2 := by
  rw [oscapStrcmp, charsCmp_eq_zero, String.toList_inj]

@[simp] theorem oscapStreq_iff (s1 s2 : String) : oscapStreq s1 s2 = true ↔ s1 = s2 := by
  rw [oscapStreq, decide_eq_true_iff, oscapStrcmp_eq_zero]

/-- **A comparison by key** merges by that key. -/
theorem appendlist_merges {α : Type*} {key : α → String} {itemCompare : α → α → Bool}
    (hcompare : ∀ p c, itemCompare p c = true ↔ key p = key c) {cloner : α → α}
    (hclone : ∀ x, cloner x = x) (child parent : List α) :
    xccdfResolveAppendlist itemCompare cloner false child parent =
      unmatched key child parent ++ child := by
  have hid : cloner = id := funext hclone
  rw [xccdfResolveAppendlist_eq, hid, List.map_id]
  simp only [Bool.false_eq_true, if_false]
  congr 1
  refine List.filter_congr fun p _ => Bool.eq_iff_iff.mpr ?_
  simp only [Bool.not_eq_true', List.any_eq_false, hcompare, decide_eq_true_iff]
  exact forall₂_congr fun c _ => not_congr eq_comm

theorem appendlist_isMerge {α : Type*} {key : α → String} {itemCompare : α → α → Bool}
    (hcompare : ∀ p c, itemCompare p c = true ↔ key p = key c) {cloner : α → α}
    (hclone : ∀ x, cloner x = x) (child parent : List α) :
    IsMerge key child parent
      (xccdfResolveAppendlist itemCompare cloner false child parent) := by
  rw [appendlist_merges hcompare hclone]
  exact (isMerge_unmatched child parent).1

/-- The conflicts are compared with `oscap_strcmp`, which is 0 for equal ones: the parent's
entries are kept that are equal to all of the child's. -/
theorem resolveConflicts_eq (child parent : List String) :
    resolveConflicts child parent =
      (parent.filter fun p => ∀ c ∈ child, c = p) ++ child := by
  rw [resolveConflicts, xccdfResolveAppendlist_eq]
  simp only [Bool.false_eq_true, if_false]
  congr 1
  rw [show oscapStrdup = id from rfl, List.map_id]
  refine List.filter_congr fun p _ => Bool.eq_iff_iff.mpr ?_
  simp only [Bool.not_eq_true', List.any_eq_false, asBool, decide_eq_true_iff, ne_eq,
    not_not, oscapStrcmp_eq_zero]
  exact forall₂_congr fun c _ => eq_comm

/-! ### Resolution neither loses nor duplicates -/

/-- The item extends the parent: they have the same type, which is one that can extend. -/
structure ExtendsItem (versionCmp : ℤ) (item parent : XccdfExtending) : Prop where
  type_eq : item.type = parent.type
  not_benchmark : item.type ≠ .benchmark
  group_extends : ¬ (item.type = .group ∧ versionCmp ≥ 0)

/-- **Every merged list of the item is a merge** of its entries and its parent's: by the id
reference in a profile, by the ident's text, and by the name of a platform or a conflict. -/
def ListsMerged (item parent result : XccdfExtending) : Prop :=
  IsMerge id item.platforms parent.platforms result.platforms ∧
    match item.lists, parent.lists, result.lists with
    | .profile child, .profile parent, .profile merged =>
        IsMerge XccdfSelect.item child.selects parent.selects merged.selects ∧
          IsMerge XccdfSetvalue.item child.setvalues parent.setvalues merged.setvalues ∧
          IsMerge XccdfRefineRule.item child.refineRules parent.refineRules merged.refineRules ∧
          IsMerge XccdfRefineValue.item child.refineValues parent.refineValues
            merged.refineValues
    | .group child, .group parent, .group merged => IsMerge id child parent merged
    | .rule childConflicts childIdents, .rule parentConflicts parentIdents,
        .rule conflicts idents =>
        IsMerge id childConflicts parentConflicts conflicts ∧
          IsMerge XccdfIdent.id childIdents parentIdents idents
    | .value, .value, .value => True
    | _, _, _ => False

/-- The inverted comparison decides the conflicts all the same: the child has none, or has
all of the parent's and, for each of these, another one. -/
def ConflictsDecided (child parent : List String) : Prop :=
  child = [] ∨ ∀ p ∈ parent, p ∈ child ∧ ∃ c ∈ child, c ≠ p

/-- The conflicts of an item; only groups and rules have any. -/
def XccdfItemLists.conflicts : XccdfItemLists → List String
  | .group conflicts => conflicts
  | .rule conflicts _ => conflicts
  | _ => []

/-- Item and parent share no platform, and their conflicts are decided all the same. -/
def MergesWell (item parent : XccdfExtending) : Prop :=
  (∀ platform ∈ parent.platforms, platform ∉ item.platforms) ∧
    ConflictsDecided item.lists.conflicts parent.lists.conflicts

/-- What resolution makes of an item that extends another. -/
theorem xccdfResolveItem_eq {versionCmp : ℤ} {item parent : XccdfExtending}
    (h : ExtendsItem versionCmp item parent) :
    xccdfResolveItem versionCmp item (some parent) =
      ⟨item.platforms ++ parent.platforms, resolveLists item.lists parent.lists⟩ := by
  have hplatforms : ∀ platforms : List String,
      parent.platforms.foldl (fun platforms platform => platforms ++ [platform]) platforms =
        platforms ++ parent.platforms := by
    induction parent.platforms with
    | nil => simp
    | cons x xs ih => simp [ih]
  rw [xccdfResolveItem, if_neg h.not_benchmark]
  simp only [h.type_eq, ne_eq, not_true_eq_false, if_false]
  rw [← h.type_eq, if_neg h.group_extends, hplatforms]

/-- The platforms are merged when none is shared. -/
theorem platforms_merged_iff (child parent : List String) :
    IsMerge id child parent (child ++ parent) ↔ ∀ p ∈ parent, p ∉ child := by
  have hall : parent.filter (fun _ => true) = parent := List.filter_true parent
  have hiff : IsMerge id child parent (child ++ parent.filter fun _ => true) ↔
      ∀ p ∈ parent, (true = true ↔ ∀ c ∈ child, id c ≠ id p) := isMerge_append_filter_iff
  rw [hall] at hiff
  rw [hiff]
  refine forall₂_congr fun p _ => ?_
  simp only [true_iff, id_eq]
  exact ⟨fun h hp => h p hp rfl, fun h c hc he => h (he ▸ hc)⟩

/-- The conflicts are merged when they are decided. -/
theorem conflicts_merged_iff (child parent : List String) :
    IsMerge id child parent (resolveConflicts child parent) ↔ ConflictsDecided child parent := by
  rw [resolveConflicts_eq, isMerge_filter_append_iff, ConflictsDecided]
  cases child with
  | nil => simp
  | cons c cs =>
      simp only [reduceCtorEq, false_or, decide_eq_true_iff, id_eq]
      refine forall₂_congr fun p _ => ⟨fun h => ?_, fun h => ?_⟩
      · constructor
        · by_contra hp
          have hall := h.mpr fun d hd he => hp (he ▸ hd)
          exact hp (hall c List.mem_cons_self ▸ List.mem_cons_self)
        · by_contra hno
          have hall : ∀ d ∈ c :: cs, d = p := fun d hd => by
            by_contra hne
            exact hno ⟨d, hd, hne⟩
          exact h.mp hall c List.mem_cons_self (hall c List.mem_cons_self)
      · obtain ⟨hp, d, hd, hne⟩ := h
        exact ⟨fun hall => absurd (hall d hd) hne, fun hnone => absurd rfl (hnone p hp)⟩

/-- The lists that are compared by key are always merged. -/
theorem profile_merged (child parent : XccdfProfileLists) :
    IsMerge XccdfSelect.item child.selects parent.selects
        (xccdfResolveProfile child parent).selects ∧
      IsMerge XccdfSetvalue.item child.setvalues parent.setvalues
        (xccdfResolveProfile child parent).setvalues ∧
      IsMerge XccdfRefineRule.item child.refineRules parent.refineRules
        (xccdfResolveProfile child parent).refineRules ∧
      IsMerge XccdfRefineValue.item child.refineValues parent.refineValues
        (xccdfResolveProfile child parent).refineValues := by
  exact ⟨appendlist_isMerge (fun p c => oscapStreq_iff p.item c.item) (fun _ => rfl) _ _,
    appendlist_isMerge (fun p c => oscapStreq_iff p.item c.item) (fun _ => rfl) _ _,
    appendlist_isMerge (fun p c => oscapStreq_iff p.item c.item) (fun _ => rfl) _ _,
    appendlist_isMerge (fun p c => oscapStreq_iff p.item c.item) (fun _ => rfl) _ _⟩

/-- The idents are always merged. -/
theorem idents_merged (child parent : List XccdfIdent) :
    IsMerge XccdfIdent.id child parent (resolveIdents child parent) :=
  appendlist_isMerge (fun p c => oscapStreq_iff p.id c.id) (fun _ => rfl) _ _

/-- **Resolution merges without loss or duplicate** exactly when the item and its parent share
no platform and the inverted comparison of the conflicts decides them all the same. -/
theorem resolve_merges_iff {versionCmp : ℤ} {item parent : XccdfExtending}
    (h : ExtendsItem versionCmp item parent) :
    ListsMerged item parent (xccdfResolveItem versionCmp item (some parent)) ↔
      MergesWell item parent := by
  have htype := h.type_eq
  rw [xccdfResolveItem_eq h, ListsMerged, MergesWell, platforms_merged_iff]
  refine and_congr_right fun _ => ?_
  obtain ⟨platforms, lists⟩ := item
  obtain ⟨platforms', lists'⟩ := parent
  cases lists with
  | benchmark => exact absurd rfl h.not_benchmark
  | profile child =>
      cases lists' with
      | profile parent => exact iff_of_true (profile_merged child parent) (.inl rfl)
      | _ => cases htype
  | group child =>
      cases lists' with
      | group parent => exact conflicts_merged_iff child parent
      | _ => cases htype
  | rule conflicts idents =>
      cases lists' with
      | rule conflicts' idents' =>
          exact (and_iff_left (idents_merged idents idents')).trans
            (conflicts_merged_iff conflicts conflicts')
      | _ => cases htype
  | value =>
      cases lists' with
      | value => exact iff_of_true trivial (.inl rfl)
      | _ => cases htype

/-- A rule with a conflict and a platform that extends another one. -/
def extendingRule : XccdfExtending := ⟨["unix"], .rule ["a"] [⟨"CVE-1", "cve"⟩]⟩

/-- The rule that is extended. -/
def extendedRule : XccdfExtending := ⟨["unix"], .rule ["b"] [⟨"CVE-2", "cve"⟩]⟩

theorem extendsItem_rule : ExtendsItem (-1) extendingRule extendedRule :=
  ⟨rfl, by decide, by decide⟩

/-- The two rules, resolved. -/
theorem resolve_merges_iff_rule :
    ListsMerged extendingRule extendedRule
        (xccdfResolveItem (-1) extendingRule (some extendedRule)) ↔
      MergesWell extendingRule extendedRule :=
  resolve_merges_iff extendsItem_rule

/-- The parent's conflict is lost, and its platform listed twice. -/
theorem not_resolve_merges :
    xccdfResolveItem (-1) extendingRule (some extendedRule) =
        ⟨["unix", "unix"], .rule ["a"] [⟨"CVE-2", "cve"⟩, ⟨"CVE-1", "cve"⟩]⟩ ∧
      ¬ ListsMerged extendingRule extendedRule
        (xccdfResolveItem (-1) extendingRule (some extendedRule)) := by
  have hres : xccdfResolveItem (-1) extendingRule (some extendedRule) =
      ⟨["unix", "unix"], .rule ["a"] [⟨"CVE-2", "cve"⟩, ⟨"CVE-1", "cve"⟩]⟩ := by decide
  refine ⟨hres, fun h => ?_⟩
  rw [hres] at h
  exact absurd h.1.perm.length_eq (by decide)

end OpenScap
