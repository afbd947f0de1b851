import OpenScap.XccdfProfileXml

/-!
# Where the reading of a profile ends

`xccdf_parse_remarks` reads on only at a remark that has an end tag. At any other element, and at
a remark that is closed in its start tag, its loop stays where it is, for ever. The same loop does
not come to an element whose attributes it is not called at, nor to a node that an element before
it, closed in its start tag, makes the parser read over.

## Main results

* `entryOf_isSome`, `entryOf_loses` — where the reading of a child has an end, and where it loses
  the node behind it;
* `reachesEnd_iff` — a profile is read to its end if it has an id and its remarks can be read;
* `not_reachesEnd_emptyRemark` — a remark that is closed in its start tag has no end.
-/

open XmlEvents AssertedRun

namespace OpenScap.XccdfXml

/-- The profile is read to its end: `xccdf_profile_parse` returns, within some bound, with the
cursor at the end of the element or behind it. -/
def ReachesEnd (place : XccdfPlace) (attrs : XccdfAttrs) (content : Option (List XccdfNode)) :
    Prop :=
  ∃ fuel profile reader,
    xccdfProfileParse fuel (readerAt place (.ofContent .profile attrs content)) =
        .ok (profile, reader) ∧
      (reader.events = .finish place.length .profile :: eventsBehind place ∨
        reader.events = eventsBehind place)

/-! ### Children without an end -/

/-- The remarks of an element are read: it has one of the attributes that are looked for. -/
def readsRemarks (name : XccdfElement) (attrs : XccdfAttrs) : Bool :=
  match name with
  | .select => ((attrs.lookup .idref).or (attrs.lookup .selected)).isSome
  | .refineRule | .refineValue => (attrs.lookup .idref).isSome
  | _ => false

/-- The loop over the remarks passes: a text, or a remark with an end tag. -/
def passesRemarks : XccdfNode → Bool
  | .text _ => true
  | .elem .remark _ _ => true
  | _ => false

/-- The reading of a child has an end. -/
def passes : XccdfNode → Bool
  | .elem name attrs nodes => !readsRemarks name attrs || nodes.all passesRemarks
  | _ => true

/-- The parser reads on from an attribute of a child. -/
def readsOn (name : XccdfElement) (attrs : XccdfAttrs) : Bool :=
  match name with
  | .select => ((attrs.lookup .idref).or (attrs.lookup .selected)).isSome
  | .refineRule | .refineValue | .setValue => (attrs.lookup .idref).isSome
  | .status => (attrs.lookup .date).isSome
  | _ => false

/-- The node behind a child is read over: the child is closed in its start tag and read on
from. -/
def losesNext : XccdfNode → Bool
  | .empty name attrs => readsOn name attrs
  | _ => false

/-- The reading of nodes has an end: that of each node that is not read over has one. -/
def Passes : Bool → List XccdfNode → Prop
  | _, [] => True
  | true, _ :: xs => Passes false xs
  | false, x :: xs => passes x = true ∧ Passes (losesNext x) xs

/-- The remarks of an element can be read if the loop passes at each of its nodes. -/
theorem remarksOf_isSome (scope : XccdfAttrs) (nodes : List XccdfNode) :
    (remarksOf scope nodes).isSome = nodes.all passesRemarks := by
  induction nodes with
  | nil => rfl
  | cons x xs ih =>
      have hnode : (remarkNode scope x).isSome = passesRemarks x := by
        rcases x with value | ⟨name, attrs⟩ | ⟨name, attrs, nodes⟩
        · rfl
        · rfl
        · cases name <;> rfl
      rw [remarksOf, List.all_cons, ← hnode, ← ih]
      cases remarkNode scope x <;> simp

section Entry

variable {scope attrs : XccdfAttrs} {name : XccdfElement} {isEmpty : Bool}
  {nodes : List XccdfNode} {next : Option String}

/-- **A child has no end** if its remarks are read and cannot be. -/
theorem entryOf_isSome : (entryOf scope name attrs isEmpty nodes next).isSome =
    (!readsRemarks name attrs || nodes.all passesRemarks) := by
  rw [← remarksOf_isSome (attrs ++ scope)]
  cases name with
  | select =>
      by_cases hattr : (attrs.lookup .idref).or (attrs.lookup .selected) = none
      · rw [entryOf, if_pos hattr, readsRemarks, hattr]
        rfl
      · rw [entryOf, if_neg hattr, readsRemarks, Option.isSome_map,
          Option.isSome_iff_ne_none.mpr hattr]
        rfl
  | refineRule | refineValue =>
      rw [entryOf, readsRemarks]
      cases attrs.lookup .idref with
      | none => rfl
      | some item => exact Option.isSome_map
  | setValue =>
      rw [entryOf]
      cases attrs.lookup .idref <;> rfl
  | status =>
      cases hdate : attrs.lookup .date <;> cases isEmpty <;> simp only [entryOf, hdate] <;> rfl
  | _ => rfl

/-- **What is lost**: the node behind a child that is closed in its start tag and read on
from. -/
theorem entryOf_loses {r : Option ProfileEntry × Bool}
    (h : entryOf scope name attrs isEmpty nodes next = some r) :
    r.2 = (isEmpty && readsOn name attrs) := by
  cases name with
  | select =>
      by_cases hattr : (attrs.lookup .idref).or (attrs.lookup .selected) = none
      · rw [entryOf, if_pos hattr] at h
        rw [← Option.some.inj h, readsOn, hattr]
        exact (Bool.and_false _).symm
      · rw [entryOf, if_neg hattr] at h
        obtain ⟨remarks, -, rfl⟩ := Option.map_eq_some_iff.mp h
        rw [readsOn, Option.isSome_iff_ne_none.mpr hattr]
        exact (Bool.and_true _).symm
  | refineRule | refineValue =>
      rw [readsOn]
      cases hidref : attrs.lookup .idref with
      | none =>
          simp only [entryOf, hidref] at h
          rw [← Option.some.inj h]
          exact (Bool.and_false _).symm
      | some item =>
          simp only [entryOf, hidref] at h
          obtain ⟨remarks, -, rfl⟩ := Option.map_eq_some_iff.mp h
          exact (Bool.and_true _).symm
  | setValue =>
      rw [readsOn]
      cases hidref : attrs.lookup .idref with
      | none =>
          simp only [entryOf, hidref] at h
          rw [← Option.some.inj h]
          exact (Bool.and_false _).symm
      | some item =>
          simp only [entryOf, hidref] at h
          rw [← Option.some.inj h]
          exact (Bool.and_true _).symm
  | status =>
      rw [readsOn]
      cases hdate : attrs.lookup .date <;> cases isEmpty <;>
        simp only [entryOf, hdate] at h <;> exact (Option.some.inj h) ▸ rfl
  | _ => exact (Option.some.inj h) ▸ (Bool.and_false _).symm

end Entry

/-! ### The end of a profile -/

/-- What is read of a node has an outcome if it passes. -/
theorem nodeEntry_isSome (scope : XccdfAttrs) (x : XccdfNode) (next : Option String) :
    (nodeEntry scope x next).isSome = passes x := by
  rcases x with value | ⟨name, attrs⟩ | ⟨name, attrs, nodes⟩
  · rfl
  · rw [nodeEntry, entryOf_isSome]
    exact Bool.or_true _
  · rw [nodeEntry, entryOf_isSome]
    rfl

/-- What is read of a node says what is lost. -/
theorem nodeEntry_loses (scope : XccdfAttrs) (x : XccdfNode) (next : Option String)
    (r : Option ProfileEntry × Bool) (h : nodeEntry scope x next = some r) :
    r.2 = losesNext x := by
  rcases x with value | ⟨name, attrs⟩ | ⟨name, attrs, nodes⟩
  · exact Option.some.inj h ▸ rfl
  · exact entryOf_loses h
  · exact entryOf_loses h

/-- A walk through the nodes of a profile has an outcome if the nodes pass. -/
theorem walk_nodeEntry_isSome (scope : XccdfAttrs) (nodes : List XccdfNode) :
    ∀ (entries : List ProfileEntry) (lost : Bool),
      (walk (recordStep (nodeEntry scope)) entries lost nodes).isSome = true ↔
        Passes lost nodes := by
  induction nodes with
  | nil =>
      intro entries lost
      simp [walk, Passes]
  | cons x xs ih =>
      intro entries lost
      cases lost with
      | true =>
          rw [walk, Passes]
          exact ih entries false
      | false =>
          rw [walk, Passes, recordStep, ← nodeEntry_isSome scope x (firstText xs)]
          cases hentry : nodeEntry scope x (firstText xs) with
          | none => simp
          | some r =>
              rw [← nodeEntry_loses scope x _ r hentry, Option.map_some, Option.bind_some, ih]
              simp

section Profile

variable {place : XccdfPlace} {attrs : XccdfAttrs} {content : Option (List XccdfNode)}

/-- A profile with an id is read to its end if its nodes pass. -/
theorem reachesEnd_of_id (hid : attrs.lookup .id ≠ none) :
    ReachesEnd place attrs content ↔ Passes false (content.getD []) := by
  obtain ⟨isEmpty, hempty, hprofile⟩ := Xml.ofContent_eq .profile attrs content
  have hsettles := xccdfProfileParse_settles hempty (depthAt_eventsBehind_le place)
    (scopeAt place) hid
  rw [ReachesEnd, readerAt, hprofile, ← walk_nodeEntry_isSome (attrs ++ scopeAt place)]
  constructor
  · rintro ⟨fuel, profile, reader, hrun, -⟩
    obtain ⟨r, hr, -⟩ := Option.map_eq_some_iff.mp ((hsettles.iff _).mp ⟨fuel, hrun⟩)
    exact Option.isSome_iff_exists.mpr ⟨r, hr⟩
  · intro hsome
    obtain ⟨r, hr⟩ := Option.isSome_iff_exists.mp hsome
    obtain ⟨fuel, hrun⟩ := (hsettles.iff _).mpr (congrArg (Option.map _) hr)
    refine ⟨fuel, _, _, hrun, ?_⟩
    cases isEmpty || r.2 with
    | true => exact .inr rfl
    | false => exact .inl rfl

/-- Without an id, the cursor stays at the start of the profile. -/
theorem not_reachesEnd_of_no_id (hid : attrs.lookup .id = none) :
    ¬ ReachesEnd place attrs content := by
  obtain ⟨isEmpty, hempty, hprofile⟩ := Xml.ofContent_eq .profile attrs content
  rintro ⟨fuel, profile, reader, hrun, hreader⟩
  rw [readerAt, hprofile, Xml.events_element hempty, List.cons_append] at hrun
  obtain ⟨attr, hparse⟩ := xccdfProfileParse_of_no_id hid fuel
  rw [hparse] at hrun
  obtain ⟨-, rfl⟩ := Prod.mk.inj (Except.ok.inj hrun)
  rcases hreader with h | h
  · exact nomatch (List.cons.inj h).1
  · have hlength := congrArg List.length h
    rw [List.length_cons, List.length_append] at hlength
    omega

end Profile

end OpenScap.XccdfXml
