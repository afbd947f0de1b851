import OpenScap.XccdfProfileEnds

/-!
# What is recorded of a profile

The record of a child is what it adds to the profile, whatever surrounds it. Whether the parser
records every child depends on the layout: on which children are closed in their start tags, and
on what is directly behind these.

## Main results

* `entryOf_eq_recordOf_iff` — when a child is read as its record;
* `profileRecorded_iff_reads` — when all children of a profile are recorded in their order.
-/

open XmlEvents AssertedRun

namespace OpenScap.XccdfXml

/-! ### Records -/

/-- The text of a remark. -/
def remarkRecord (scope : XccdfAttrs) : XccdfNode → Option OscapText
  | .empty .remark attrs =>
      some ⟨(attrs ++ scope).lookup .lang, overridesOf attrs none, .plain none⟩
  | .elem .remark attrs nodes => some (remarkOf scope attrs nodes)
  | _ => none

/-- What a child adds to a profile. A refinement without an idref adds nothing, nor does a status
with another text than that of a status. -/
def recordOf (scope : XccdfAttrs) (name : XccdfElement) (attrs : XccdfAttrs) (isEmpty : Bool)
    (nodes : List XccdfNode) : Option ProfileEntry :=
  let remarks := records (remarkRecord (attrs ++ scope)) nodes
  let text := (firstText nodes).getD ""
  match name with
  | .select =>
      some (.select (oscapStringToEnum oscapBoolMap (attrs.lookup .selected))
        (attrs.lookup .idref) remarks)
  | .refineRule =>
      (attrs.lookup .idref).map fun item =>
        .refineRule item (attrs.lookup .selector)
          (oscapStringToEnum xccdfRoleMap (attrs.lookup .role))
          (oscapStringToEnum xccdfLevelMap (attrs.lookup .severity)) (attrs.lookup .weight) remarks
  | .refineValue =>
      (attrs.lookup .idref).map fun item =>
        .refineValue item (attrs.lookup .selector)
          (oscapStringToEnum xccdfOperatorMap (attrs.lookup .operator)) remarks
  | .setValue => some (.setValue ((attrs.lookup .idref).map fun item => (item, some text)))
  | .status => xccdfStatusNewFill (some text) (attrs.lookup .date)
  | .title => some (.title (xmlTextOf scope attrs none nodes))
  | .description => some (.description (xmlTextOf scope attrs none nodes))
  | .warning =>
      some (.warning (oscapStringToEnum xccdfWarningMap (attrs.lookup .category))
        (xmlTextOf scope attrs (attrs.lookup .category) nodes))
  | .reference => some (.reference attrs nodes)
  | .dcStatus => some (.dcStatus attrs nodes)
  | .version => some (.version (attrs.lookup .time) (attrs.lookup .update) nodes)
  | .rationale => some (.rationale (xmlTextOf scope attrs none nodes))
  | .platform => some (.platform (attrs.lookup .idref))
  | .question =>
      some (.question ⟨(attrs ++ scope).lookup .lang, overridesOf attrs none,
        .plain (if isEmpty then none else some text)⟩)
  | .metadata => some (.metadata nodes)
  | _ => none

/-- What a node adds to a profile. -/
def nodeRecord (scope : XccdfAttrs) : XccdfNode → Option ProfileEntry
  | .text _ => none
  | .empty name attrs => recordOf scope name attrs true []
  | .elem name attrs nodes => recordOf scope name attrs false nodes

/-- All children of the profile are recorded in their order: `xccdf_profile_parse` returns, within
some bound, with a profile that has their records. -/
def ProfileRecorded (place : XccdfPlace) (attrs : XccdfAttrs) (content : Option (List XccdfNode)) :
    Prop :=
  ∃ fuel reader, xccdfProfileParse fuel (readerAt place (.ofContent .profile attrs content)) =
    .ok (some ⟨itemAttributesOf attrs,
      records (nodeRecord (attrs ++ scopeAt place)) (content.getD [])⟩, reader)

/-! ### Children that are read as their records -/

/-- A remark. -/
def isRemark : XccdfNode → Bool
  | .empty .remark _ => true
  | .elem .remark _ _ => true
  | _ => false

/-- A child is read as its record, with the text behind it: its remarks are looked for if it has
any, and they can be read; a set-value that is closed in its start tag has no text behind it. -/
def readsWell (name : XccdfElement) (attrs : XccdfAttrs) (isEmpty : Bool)
    (nodes : List XccdfNode) (next : Option String) : Prop :=
  match name with
  | .select =>
      if (attrs.lookup .idref).or (attrs.lookup .selected) = none then
        nodes.any isRemark = false
      else nodes.all passesRemarks = true
  | .refineRule | .refineValue => attrs.lookup .idref ≠ none → nodes.all passesRemarks = true
  | .setValue => attrs.lookup .idref ≠ none → isEmpty = true → next.getD "" = ""
  | _ => True

/-- Remarks that can be read are read as their records. -/
theorem remarksOf_eq_records (scope : XccdfAttrs) {nodes : List XccdfNode}
    (h : nodes.all passesRemarks = true) :
    remarksOf scope nodes = some (records (remarkRecord scope) nodes) := by
  induction nodes with
  | nil => rfl
  | cons x xs ih =>
      rw [List.all_cons, Bool.and_eq_true] at h
      have hnode : remarkNode scope x = some (remarkRecord scope x).toList := by
        rcases x with value | ⟨name, attrs⟩ | ⟨name, attrs, nodes⟩
        · rfl
        · exact absurd h.1 (by simp [passesRemarks])
        · cases name <;> first | rfl | exact absurd h.1 (by simp [passesRemarks])
      rw [remarksOf, hnode, ih h.2, records_cons]
      rfl

/-- An element without remarks has no records of them. -/
theorem records_remark_eq_nil_iff (scope : XccdfAttrs) (nodes : List XccdfNode) :
    [] = records (remarkRecord scope) nodes ↔ nodes.any isRemark = false := by
  induction nodes with
  | nil => exact ⟨fun _ => rfl, fun _ => rfl⟩
  | cons x xs ih =>
      have hnode : (remarkRecord scope x).toList = [] ↔ isRemark x = false := by
        rcases x with value | ⟨name, attrs⟩ | ⟨name, attrs, nodes⟩
        · simp [remarkRecord, isRemark]
        · cases name <;> simp [remarkRecord, isRemark]
        · cases name <;> simp [remarkRecord, isRemark]
      rw [records_cons, List.any_cons, Bool.or_eq_false_iff, ← hnode, ← ih, eq_comm,
        List.append_eq_nil_iff, @eq_comm _ (records _ xs)]

section Entry

variable {scope attrs : XccdfAttrs} {name : XccdfElement} {isEmpty : Bool}
  {nodes : List XccdfNode} {next : Option String}

/-- The remarks that are read are the records of the remarks, if they can be read. -/
theorem exists_map_remarksOf_iff {make : List OscapText → ProfileEntry} :
    (∃ l, (remarksOf scope nodes).map (fun remarks => (some (make remarks), isEmpty)) =
      some (some (make (records (remarkRecord scope) nodes)), l)) ↔
        nodes.all passesRemarks = true := by
  constructor
  · rintro ⟨l, hl⟩
    obtain ⟨remarks, hremarks, -⟩ := Option.map_eq_some_iff.mp hl
    rw [← remarksOf_isSome scope, hremarks]
    rfl
  · intro h
    rw [remarksOf_eq_records scope h]
    exact ⟨isEmpty, rfl⟩

/-- **A child is read as its record** if and only if it is read well. -/
theorem entryOf_eq_recordOf_iff (hnodes : isEmpty = true → nodes = [])
    (hnext : ∀ value ∈ next, oscapStringToEnum xccdfStatusMap (some value) = .notSpecified) :
    (∃ l, entryOf scope name attrs isEmpty nodes next =
      some (recordOf scope name attrs isEmpty nodes, l)) ↔
        readsWell name attrs isEmpty nodes next := by
  cases name with
  | select =>
      rw [entryOf, recordOf, readsWell]
      by_cases hattr : (attrs.lookup .idref).or (attrs.lookup .selected) = none
      · simp only [if_pos hattr, ← records_remark_eq_nil_iff (attrs ++ scope), Option.some.injEq,
          Prod.mk.injEq, ProfileEntry.select.injEq, true_and, exists_and_left, exists_eq', and_true]
      · simp only [if_neg hattr]
        exact exists_map_remarksOf_iff
  | refineRule | refineValue =>
      rw [entryOf, recordOf, readsWell]
      cases attrs.lookup .idref with
      | none => exact iff_of_true ⟨false, rfl⟩ fun h => absurd rfl h
      | some item => exact exists_map_remarksOf_iff.trans ⟨fun h _ => h, fun h => h (by simp)⟩
  | setValue =>
      rw [entryOf, recordOf, readsWell]
      cases attrs.lookup .idref with
      | none => exact iff_of_true ⟨false, rfl⟩ fun h => absurd rfl h
      | some item =>
          cases isEmpty with
          | true =>
              rw [hnodes rfl]
              simp [bodyText, firstText]
          | false => exact iff_of_true ⟨false, rfl⟩ fun _ h => by cases h
  | status =>
      refine iff_of_true ?_ trivial
      cases isEmpty with
      | true =>
          have hfill : ∀ date, xccdfStatusNewFill (some (next.getD "")) date = none := by
            intro date
            cases hn : next with
            | none => rfl
            | some value => exact if_pos (hnext value hn)
          rw [hnodes rfl]
          cases hdate : attrs.lookup .date with
          | none =>
              simp only [entryOf, recordOf, hdate]
              exact ⟨false, rfl⟩
          | some date =>
              simp only [entryOf, recordOf, hdate, bodyText, if_true, hfill]
              exact ⟨true, rfl⟩
      | false =>
          cases hdate : attrs.lookup .date <;> simp only [entryOf, recordOf, hdate] <;>
            exact ⟨false, rfl⟩
  | _ => exact iff_of_true ⟨_, rfl⟩ trivial

/-- A child is read as one with a record if it has one. -/
theorem entryOf_isSome_eq_recordOf (hnodes : isEmpty = true → nodes = [])
    (hnext : ∀ value ∈ next, oscapStringToEnum xccdfStatusMap (some value) = .notSpecified)
    {r : Option ProfileEntry × Bool} (h : entryOf scope name attrs isEmpty nodes next = some r) :
    r.1.isSome = (recordOf scope name attrs isEmpty nodes).isSome := by
  by_cases hgood : readsWell name attrs isEmpty nodes next
  · obtain ⟨l, hl⟩ := (entryOf_eq_recordOf_iff hnodes hnext).mpr hgood
    rw [hl] at h
    rw [← Option.some.inj h]
  · -- what is not read well is read all the same
    cases name with
    | select =>
        by_cases hattr : (attrs.lookup .idref).or (attrs.lookup .selected) = none
        · rw [entryOf, if_pos hattr] at h
          rw [← Option.some.inj h]
          rfl
        · rw [entryOf, if_neg hattr] at h
          obtain ⟨remarks, -, rfl⟩ := Option.map_eq_some_iff.mp h
          rfl
    | refineRule | refineValue =>
        rw [entryOf] at h
        rw [recordOf]
        cases hidref : attrs.lookup .idref with
        | none => exact absurd (fun hne => absurd hidref hne) hgood
        | some item =>
            rw [hidref] at h
            obtain ⟨remarks, -, rfl⟩ := Option.map_eq_some_iff.mp h
            rfl
    | setValue =>
        rw [entryOf] at h
        cases hidref : attrs.lookup .idref with
        | none => exact absurd (fun hne => absurd hidref hne) hgood
        | some item =>
            rw [hidref] at h
            rw [← Option.some.inj h]
            rfl
    | _ => exact absurd trivial hgood

end Entry

/-! ### The children of a profile -/

/-- A child is read well, with the text behind it. -/
def nodeReadsWell : XccdfNode → Option String → Prop
  | .text _, _ => True
  | .empty name attrs, next => readsWell name attrs true [] next
  | .elem name attrs nodes, next => readsWell name attrs false nodes next

/-- No text among the nodes is the text of a status; so it is if they are blank. -/
def NoStatusText (nodes : List XccdfNode) : Prop :=
  ∀ value, .text value ∈ nodes → oscapStringToEnum xccdfStatusMap (some value) = .notSpecified

/-- What is read of the children of a profile accounts for their records. -/
theorem accounts_nodeEntry (scope : XccdfAttrs) {nodes : List XccdfNode}
    (htexts : NoStatusText nodes) :
    Accounts (nodeEntry scope) (nodeRecord scope) nodeReadsWell nodes := by
  intro x _ next hnext
  have hstatus : ∀ value ∈ next, oscapStringToEnum xccdfStatusMap (some value) = .notSpecified :=
    fun value hvalue => htexts value (hnext value hvalue)
  rcases x with value | ⟨name, attrs⟩ | ⟨name, attrs, nodes⟩
  · exact ⟨fun r h => Option.some.inj h ▸ rfl, iff_of_true trivial ⟨false, rfl⟩⟩
  · exact ⟨fun r h => entryOf_isSome_eq_recordOf (fun _ => rfl) hstatus h,
      (entryOf_eq_recordOf_iff (fun _ => rfl) hstatus).symm⟩
  · exact ⟨fun r h => entryOf_isSome_eq_recordOf (fun h => absurd h (by simp)) hstatus h,
      (entryOf_eq_recordOf_iff (fun h => absurd h (by simp)) hstatus).symm⟩

/-- **All children of a profile are recorded in their order** if and only if it has an id, each
child that is not read over is read well, and what is read over has no record. -/
theorem profileRecorded_iff_reads (place : XccdfPlace) (attrs : XccdfAttrs)
    (content : Option (List XccdfNode)) (htexts : NoStatusText (content.getD [])) :
    ProfileRecorded place attrs content ↔ attrs.lookup .id ≠ none ∧
      Recorded nodeReadsWell losesNext (nodeRecord (attrs ++ scopeAt place)) false
        (content.getD []) := by
  obtain ⟨isEmpty, hempty, hprofile⟩ := Xml.ofContent_eq .profile attrs content
  rw [ProfileRecorded, readerAt, hprofile]
  by_cases hid : attrs.lookup .id = none
  · refine iff_of_false ?_ fun h => h.1 hid
    rintro ⟨fuel, reader, hrun⟩
    rw [Xml.events_element hempty, List.cons_append] at hrun
    obtain ⟨attr, hparse⟩ := xccdfProfileParse_of_no_id hid fuel
    rw [hparse] at hrun
    cases (Prod.mk.inj (Except.ok.inj hrun)).1
  · have hsettles := xccdfProfileParse_settles hempty (depthAt_eventsBehind_le place)
      (scopeAt place) hid
    rw [and_iff_right hid, ← walk_records_iff (nodeEntry_loses (attrs ++ scopeAt place))
      (accounts_nodeEntry _ htexts) [] false, List.nil_append]
    constructor
    · rintro ⟨fuel, reader, hrun⟩
      obtain ⟨r, hr, heq⟩ := Option.map_eq_some_iff.mp ((hsettles.iff _).mp ⟨fuel, hrun⟩)
      have hentries : r.1 = _ := (XccdfProfile.mk.inj (Option.some.inj (Prod.mk.inj heq).1)).2
      exact ⟨r.2, hr.trans (congrArg some (Prod.ext hentries rfl))⟩
    · rintro ⟨l, hl⟩
      obtain ⟨fuel, hrun⟩ := (hsettles.iff _).mpr (congrArg (Option.map _) hl)
      exact ⟨fuel, _, hrun⟩

end OpenScap.XccdfXml
