import OpenScap.XccdfXml
import OpenScap.XmlRecords

/-!
# Reading XCCDF profiles

`xccdf_profile_parse` looks for the elements at the depth of the profile's children. What it adds
to the lists of the profile is given in the order in which it is added.

`xccdf_parse_remarks` is called at an attribute of an element, if that has one of those that are
looked for, and reads on from there. If the element is closed in its start tag, this is already
the node behind it, and the loop over the children reads over this node.

## Main results

* `xccdfParseRemarks_settles` — the remarks of an element, unless a child is no remark or a remark
  is closed in its start tag: then there is no result;
* `profileStep_stepsAs` — what is read of a child, and whether the node behind it is lost;
* `xccdfProfileParse_settles` — what is read of a profile.
-/

open XmlEvents AssertedRun

namespace OpenScap.XccdfXml

/-! ### Profiles -/

/-- What an element adds to a profile. A set-value without an id adds NULL. -/
inductive ProfileEntry
  | select (selected : Bool) (item : Option String) (remarks : List OscapText)
  | refineRule (item : String) (selector : Option String) (role : XccdfRole)
      (severity : XccdfLevel) (weight : Option String) (remarks : List OscapText)
  | refineValue (item : String) (selector : Option String) (oper : XccdfOperator)
      (remarks : List OscapText)
  | setValue (setvalue : Option (String × Option String))
  | title (text : OscapText)
  | description (text : OscapText)
  | warning (category : XccdfWarningCategory) (text : OscapText)
  | reference (attrs : XccdfAttrs) (nodes : List XccdfNode)
  | status (status : XccdfStatusType) (date : Option String)
  | dcStatus (attrs : XccdfAttrs) (nodes : List XccdfNode)
  | version (time update : Option String) (nodes : List XccdfNode)
  | rationale (text : OscapText)
  | platform (idref : Option String)
  | question (text : OscapText)
  | metadata (nodes : List XccdfNode)

/-- A profile, as `xccdf_profile_parse` makes it: what its attributes give, and what is added to
its lists, in this order. Of the versions the last one counts. -/
structure XccdfProfile where
  attributes : ItemAttributes
  entries : List ProfileEntry

/-! ### The parser -/

/-- The body of the loop of `xccdf_parse_remarks`. -/
def parseRemark (remarks : List OscapText) (reader : XccdfReader) :
    Except Stop (List OscapText × XccdfReader) :=
  if xccdfElementGet reader = some .remark then
    let (text, reader) := oscapTextNewParse xccdfTextPlain reader
    .ok (remarks ++ [text], reader)
  else .ok (remarks, reader)

/-- `xccdf_parse_remarks`, within a bound. -/
def xccdfParseRemarks (fuel : ℕ) (reader : XccdfReader) (depth : ℕ) :
    Except Stop (List OscapText × XccdfReader) :=
  eachElement parseRemark depth fuel [] reader

/-- `xccdf_setvalue_new_parse`. -/
def xccdfSetvalueNewParse (reader : XccdfReader) :
    Option (String × Option String) × XccdfReader :=
  match xccdfAttributeGet reader .idref with
  | (none, reader) => (none, reader)
  | (some item, reader) =>
      let (value, reader) := oscapElementStringCopy reader
      (some (item, value), reader)

/-- `xccdf_warning_new_parse`. -/
def xccdfWarningNewParse (reader : XccdfReader) :
    (XccdfWarningCategory × OscapText) × XccdfReader :=
  let (category, reader) := xccdfAttributeGet reader .category
  let (text, reader) := oscapTextNewParse xccdfTextHtmlsub reader
  ((oscapStringToEnum xccdfWarningMap category, text), reader)

/-- `xccdf_status_new_fill`. -/
def xccdfStatusNewFill (status date : Option String) : Option ProfileEntry :=
  if oscapStringToEnum xccdfStatusMap status = .notSpecified then none
  else some (.status (oscapStringToEnum xccdfStatusMap status) date)

/-- `xccdf_item_process_element`. References and versions are expanded where they are: the cursor
stays. -/
def xccdfItemProcessElement (entries : List ProfileEntry) (reader : XccdfReader) :
    List ProfileEntry × XccdfReader :=
  match xccdfElementGet reader with
  | some .title =>
      let (text, reader) := oscapTextNewParse xccdfTextPlainsub reader
      (entries ++ [.title text], reader)
  | some .description =>
      let (text, reader) := oscapTextNewParse xccdfTextHtmlsub reader
      (entries ++ [.description text], reader)
  | some .warning =>
      let ((category, text), reader) := xccdfWarningNewParse reader
      (entries ++ [.warning category text], reader)
  | some .reference => (entries ++ [.reference reader.attrs reader.nodes], reader)
  | some .status =>
      let (date, reader) := xccdfAttributeGet reader .date
      let (str, reader) := oscapElementStringCopy reader
      (entries ++ (xccdfStatusNewFill str date).toList, reader)
  | some .dcStatus => (entries ++ [.dcStatus reader.attrs reader.nodes], reader)
  | some .version =>
      (entries ++ [.version (reader.attrs.lookup .time) (reader.attrs.lookup .update)
        reader.nodes], reader)
  | some .rationale =>
      let (text, reader) := oscapTextNewParse xccdfTextHtmlsub reader
      (entries ++ [.rationale text], reader)
  | some .platform =>
      let (idref, reader) := xccdfAttributeGet reader .idref
      (entries ++ [.platform idref], reader)
  | some .question =>
      let (text, reader) := oscapTextNewParse xccdfTextPlain reader
      (entries ++ [.question text], reader)
  | some .metadata => (entries ++ [.metadata reader.nodes], reader)
  | _ => (entries, reader)

/-- The cases of the loop of `xccdf_profile_parse`, at a depth. -/
def xccdfProfileChild (fuel depth : ℕ) (entries : List ProfileEntry) (reader : XccdfReader) :
    Except Stop (List ProfileEntry × XccdfReader) :=
  match xccdfElementGet reader with
  | some .select => do
      let (selected, reader) := xccdfAttributeGetBool reader .selected
      let (item, reader) := xccdfAttributeGet reader .idref
      let (remarks, reader) ← xccdfParseRemarks fuel reader (depth + 1)
      pure (entries ++ [.select selected item remarks], reader)
  | some .refineRule =>
      match xccdfAttributeGet reader .idref with
      | (none, reader) => .ok (entries, reader)
      | (some item, reader) => do
          let (selector, reader) := xccdfAttributeGet reader .selector
          let (weight, reader) := xccdfAttributeGet reader .weight
          let (role, reader) := xccdfAttributeGet reader .role
          let (severity, reader) := xccdfAttributeGet reader .severity
          let (remarks, reader) ← xccdfParseRemarks fuel reader (depth + 1)
          pure (entries ++ [.refineRule item selector (oscapStringToEnum xccdfRoleMap role)
            (oscapStringToEnum xccdfLevelMap severity) weight remarks], reader)
  | some .refineValue =>
      match xccdfAttributeGet reader .idref with
      | (none, reader) => .ok (entries, reader)
      | (some item, reader) => do
          let (selector, reader) := xccdfAttributeGet reader .selector
          let (oper, reader) := xccdfAttributeGet reader .operator
          let (remarks, reader) ← xccdfParseRemarks fuel reader (depth + 1)
          pure (entries ++ [.refineValue item selector (oscapStringToEnum xccdfOperatorMap oper)
            remarks], reader)
  | some .setValue =>
      let (setvalue, reader) := xccdfSetvalueNewParse reader
      .ok (entries ++ [.setValue setvalue], reader)
  | _ => .ok (xccdfItemProcessElement entries reader)

/-- The body of the loop of `xccdf_profile_parse`. -/
def profileStep (fuel depth : ℕ) (entries : List ProfileEntry) (reader : XccdfReader) :
    Except Stop (List ProfileEntry × XccdfReader) := do
  let (entries, reader) ← xccdfProfileChild fuel depth entries reader
  pure (entries, reader.read)

/-- `oscap_element_depth`. -/
def oscapElementDepth (reader : XccdfReader) : ℕ :=
  match reader.nodeType with
  | .attribute | .text => reader.depth - 1
  | _ => reader.depth

/-- `xccdf_profile_parse`, within a bound. There is no profile without an id. -/
def xccdfProfileParse (fuel : ℕ) (reader : XccdfReader) :
    Except Stop (Option XccdfProfile × XccdfReader) :=
  if xccdfElementGet reader ≠ some .profile then .error .assertion
  else
    let (attributes, reader) := xccdfItemProcessAttributes reader
    if attributes.id = none then .ok (none, reader)
    else do
      let depth := oscapElementDepth reader + 1
      let (entries, reader) ← eachElement (profileStep fuel depth) depth fuel [] reader
      pure (some ⟨attributes, entries⟩, reader)

/-! ### Remarks -/

/-- A remark that is not closed in its start tag. -/
def remarkOf (scope attrs : XccdfAttrs) (nodes : List XccdfNode) : OscapText :=
  ⟨(attrs ++ scope).lookup .lang, overridesOf attrs none, .plain (some ((firstText nodes).getD ""))⟩

/-- What a node adds to the remarks: nothing if it is a text. There is no answer for an element
that is no remark or is closed in its start tag. -/
def remarkNode (scope : XccdfAttrs) : XccdfNode → Option (List OscapText)
  | .text _ => some []
  | .elem .remark attrs nodes => some [remarkOf scope attrs nodes]
  | _ => none

/-- The remarks among nodes. -/
def remarksOf (scope : XccdfAttrs) : List XccdfNode → Option (List OscapText)
  | [] => some []
  | x :: xs => (remarkNode scope x).bind fun r => (remarksOf scope xs).map (r ++ ·)

/-- What is read of a node among remarks. -/
def remarksStep (scope : XccdfAttrs) (remarks : List OscapText) (x : XccdfNode)
    (_ : Option String) : Option (List OscapText × Bool) :=
  (remarkNode scope x).map fun r => (remarks ++ r, false)

/-- Nothing is lost among remarks. -/
theorem walk_remarksStep (scope : XccdfAttrs) (nodes : List XccdfNode) :
    ∀ remarks, walk (remarksStep scope) remarks false nodes =
      (remarksOf scope nodes).map fun more => (remarks ++ more, false) := by
  induction nodes with
  | nil => simp [walk, remarksOf]
  | cons x xs ih =>
      intro remarks
      rw [walk, remarksStep, remarksOf, Option.bind_map]
      cases remarkNode scope x with
      | none => rfl
      | some r =>
          simp only [Option.bind_some, Function.comp_apply, ih, Option.map_map]
          exact Option.map_congr fun more _ => by simp

/-- At the start of an element that is no remark, nothing happens. -/
theorem parseRemark_other {depth : ℕ} {name : XccdfElement} {attrs : XccdfAttrs}
    {content : Content XccdfElement XccdfAttribute String} {events : List XccdfEvent}
    (h : name ≠ .remark) (remarks : List OscapText) :
    parseRemark remarks ⟨.start depth name attrs content :: events, none⟩ =
      .ok (remarks, ⟨.start depth name attrs content :: events, none⟩) :=
  if_neg fun heq => h (Option.some.inj heq)

/-- At the start of a remark, its text is read. -/
theorem parseRemark_remark {depth : ℕ} {attrs : XccdfAttrs}
    {content : Content XccdfElement XccdfAttribute String} {events : List XccdfEvent}
    (remarks : List OscapText) :
    parseRemark remarks ⟨.start depth .remark attrs content :: events, none⟩ =
      .ok (remarks ++ [⟨(attrs ++ content.scope).lookup .lang, overridesOf attrs none,
          .plain (if content.isEmpty then none else some ((textAt events).getD ""))⟩],
        if content.isEmpty then ⟨.start depth .remark attrs content :: events, none⟩
        else ⟨events, none⟩) := by
  rw [parseRemark, elementGet_start, if_pos rfl, textNewParse_plain]

/-- A remark is read, and the loop is stuck at anything else. -/
theorem parseRemark_stepsAs (depth : ℕ) (scope : XccdfAttrs) {x : XccdfNode}
    (hx : ∀ value, x ≠ .text value) :
    StepsAs (fun _ => parseRemark) (remarksStep scope) depth scope x := by
  obtain ⟨isEmpty, name, attrs, nodes, hnodes, rfl⟩ := Xml.exists_element hx
  have hevents := Xml.events_element hnodes name attrs depth scope
  by_cases hname : name = .remark
  · subst hname
    cases isEmpty with
    | true =>
        refine .inl ⟨fun n s rest => ?_, fun _ _ => rfl⟩
        rw [hevents, List.cons_append]
        exact ⟨_, parseRemark_remark s⟩
    | false =>
        refine .inr fun s rest _ => ⟨_, List.suffix_rfl, ?_⟩
        rw [hevents, List.cons_append, List.tail_cons]
        refine (Settles.ok _).of_eq fun n => (parseRemark_remark s).trans ?_
        rw [textAt_innerEvents]
        rfl
  · refine .inl ⟨fun n s rest => ?_, fun s next => ?_⟩
    · rw [hevents, List.cons_append]
      exact ⟨s, parseRemark_other hname s⟩
    · cases isEmpty with
      | true => rfl
      | false => cases name <;> first | rfl | exact absurd rfl hname

/-- **The remarks of an element** are read from one of its attributes. If it is closed in its
start tag, the cursor is left behind it, else at its end. -/
theorem xccdfParseRemarks_settles {isEmpty : Bool} {nodes : List XccdfNode}
    (hnodes : isEmpty = true → nodes = []) {depth : ℕ} {rest : List XccdfEvent}
    (hrest : depthAt rest ≤ depth) (name : XccdfElement) (attrs scope : XccdfAttrs)
    (value : String) :
    Settles (fun n => xccdfParseRemarks n
        ⟨(Xml.element isEmpty name attrs nodes).events depth scope ++ rest, some value⟩ (depth + 1))
      ((remarksOf (attrs ++ scope) nodes).map fun remarks =>
        (remarks, ⟨if isEmpty then rest else .finish depth name :: rest, none⟩)) := by
  have hloop := eachElement_element (fun _ _ _ => Extends.refl _)
    (fun s value next => by simp [remarksStep, remarkNode]) hnodes hrest
    (fun x _ hx => parseRemark_stepsAs (depth + 1) (attrs ++ scope) hx) [] name value
  rw [walk_remarksStep, Option.map_map] at hloop
  rw [Xml.events_element hnodes, List.cons_append]
  simp only [Function.comp_def, List.nil_append, Bool.or_false] at hloop
  exact hloop

/-! ### The children of a profile -/

/-- A text with markup. -/
def xmlTextOf (scope attrs : XccdfAttrs) (attr : Option String) (nodes : List XccdfNode) :
    OscapText :=
  ⟨(attrs ++ scope).lookup .lang, overridesOf attrs attr, .xml nodes⟩

/-- What is read of an element as a string: its text, or, where the cursor reads on from an
attribute of an element that is closed in its start tag, the text behind the element. -/
def bodyText (isEmpty : Bool) (nodes : List XccdfNode) (next : Option String) : String :=
  (if isEmpty then next else firstText nodes).getD ""

/-- What a child adds to the profile, and whether the node behind it is lost. The cursor is read
on inside the loop from an attribute: then the loop reads over what is behind an element that is
closed in its start tag. -/
def entryOf (scope : XccdfAttrs) (name : XccdfElement) (attrs : XccdfAttrs) (isEmpty : Bool)
    (nodes : List XccdfNode) (next : Option String) : Option (Option ProfileEntry × Bool) :=
  let remarks := remarksOf (attrs ++ scope) nodes
  match name with
  | .select =>
      let make := ProfileEntry.select (oscapStringToEnum oscapBoolMap (attrs.lookup .selected))
        (attrs.lookup .idref)
      if (attrs.lookup .idref).or (attrs.lookup .selected) = none then some (some (make []), false)
      else remarks.map fun remarks => (some (make remarks), isEmpty)
  | .refineRule =>
      match attrs.lookup .idref with
      | none => some (none, false)
      | some item => remarks.map fun remarks =>
          (some (.refineRule item (attrs.lookup .selector)
            (oscapStringToEnum xccdfRoleMap (attrs.lookup .role))
            (oscapStringToEnum xccdfLevelMap (attrs.lookup .severity)) (attrs.lookup .weight)
            remarks), isEmpty)
  | .refineValue =>
      match attrs.lookup .idref with
      | none => some (none, false)
      | some item => remarks.map fun remarks =>
          (some (.refineValue item (attrs.lookup .selector)
            (oscapStringToEnum xccdfOperatorMap (attrs.lookup .operator)) remarks), isEmpty)
  | .setValue =>
      match attrs.lookup .idref with
      | none => some (some (.setValue none), false)
      | some item =>
          some (some (.setValue (some (item, some (bodyText isEmpty nodes next)))), isEmpty)
  | .status =>
      match attrs.lookup .date, isEmpty with
      | none, true => some (none, false)
      | date, isEmpty =>
          some (xccdfStatusNewFill (some (bodyText isEmpty nodes next)) date, isEmpty)
  | .title => some (some (.title (xmlTextOf scope attrs none nodes)), false)
  | .description => some (some (.description (xmlTextOf scope attrs none nodes)), false)
  | .warning =>
      some (some (.warning (oscapStringToEnum xccdfWarningMap (attrs.lookup .category))
        (xmlTextOf scope attrs (attrs.lookup .category) nodes)), false)
  | .reference => some (some (.reference attrs nodes), false)
  | .dcStatus => some (some (.dcStatus attrs nodes), false)
  | .version =>
      some (some (.version (attrs.lookup .time) (attrs.lookup .update) nodes), false)
  | .rationale => some (some (.rationale (xmlTextOf scope attrs none nodes)), false)
  | .platform => some (some (.platform (attrs.lookup .idref)), false)
  | .question =>
      some (some (.question ⟨(attrs ++ scope).lookup .lang, overridesOf attrs none,
        .plain (if isEmpty then none else some ((firstText nodes).getD ""))⟩), false)
  | .metadata => some (some (.metadata nodes), false)
  | _ => some (none, false)

/-- What is read of a node among the children of a profile. -/
def nodeEntry (scope : XccdfAttrs) :
    XccdfNode → Option String → Option (Option ProfileEntry × Bool)
  | .text _, _ => some (none, false)
  | .empty name attrs, next => entryOf scope name attrs true [] next
  | .elem name attrs nodes, next => entryOf scope name attrs false nodes next

section Child

variable {depth : ℕ} {scope : XccdfAttrs} {isEmpty : Bool} {name : XccdfElement}
  {attrs : XccdfAttrs} {nodes : List XccdfNode} {rest : List XccdfEvent}
  {entries : List ProfileEntry}

/-- The text that is read behind the start of an element. -/
theorem textAt_eq_bodyText :
    (textAt (innerEvents isEmpty depth scope name attrs nodes ++ rest)).getD "" =
      bodyText isEmpty nodes (textAt rest) := by
  cases isEmpty with
  | true => rfl
  | false => rw [textAt_innerEvents]; rfl

/-- The step at a child is as `entryOf` says. -/
def ChildReads (depth : ℕ) (scope : XccdfAttrs) (isEmpty : Bool) (name : XccdfElement)
    (attrs : XccdfAttrs) (nodes : List XccdfNode) (rest : List XccdfEvent)
    (entries : List ProfileEntry) : Prop :=
  ∃ stay, stay <:+ innerEvents isEmpty depth scope name attrs nodes ∧
    Settles (fun n => profileStep n depth entries
        ⟨.start depth name attrs ⟨isEmpty, nodes, scope⟩ ::
          (innerEvents isEmpty depth scope name attrs nodes ++ rest), none⟩)
      ((entryOf scope name attrs isEmpty nodes (textAt rest)).map fun r =>
        (entries ++ r.1.toList, ⟨if r.2 then rest.tail else stay ++ rest, none⟩))

/-- A child at which the cursor stays. -/
theorem ChildReads.of_stay (entry : Option ProfileEntry) (attr : Option String)
    (hentry : entryOf scope name attrs isEmpty nodes (textAt rest) = some (entry, false))
    (hchild : ∀ n, xccdfProfileChild n depth entries
        ⟨.start depth name attrs ⟨isEmpty, nodes, scope⟩ ::
          (innerEvents isEmpty depth scope name attrs nodes ++ rest), none⟩ =
      .ok (entries ++ entry.toList, ⟨.start depth name attrs ⟨isEmpty, nodes, scope⟩ ::
          (innerEvents isEmpty depth scope name attrs nodes ++ rest), attr⟩)) :
    ChildReads depth scope isEmpty name attrs nodes rest entries := by
  refine ⟨_, List.suffix_rfl, ?_⟩
  rw [hentry]
  refine (Settles.ok _).of_eq fun n => ?_
  rw [profileStep, hchild]
  rfl

/-- A child behind whose start the cursor is read on. -/
theorem ChildReads.of_read (entry : Option ProfileEntry)
    (hentry : entryOf scope name attrs isEmpty nodes (textAt rest) = some (entry, isEmpty))
    (hchild : ∀ n, xccdfProfileChild n depth entries
        ⟨.start depth name attrs ⟨isEmpty, nodes, scope⟩ ::
          (innerEvents isEmpty depth scope name attrs nodes ++ rest), none⟩ =
      .ok (entries ++ entry.toList,
        ⟨innerEvents isEmpty depth scope name attrs nodes ++ rest, none⟩)) :
    ChildReads depth scope isEmpty name attrs nodes rest entries := by
  refine ⟨_, List.tail_suffix _, ?_⟩
  rw [hentry]
  refine (Settles.ok _).of_eq fun n => ?_
  rw [profileStep, hchild]
  cases isEmpty with
  | true => rfl
  | false =>
      have hne : innerEvents false depth scope name attrs nodes ≠ [] := by simp [innerEvents]
      have htail : (innerEvents false depth scope name attrs nodes ++ rest).tail = _ :=
        List.tail_append_of_ne_nil hne
      exact congrArg (fun events : List XccdfEvent => Except.ok (entries ++ entry.toList,
        (⟨events, none⟩ : XccdfReader))) htail

/-- A child with remarks, from one of its attributes on. -/
theorem ChildReads.of_remarks (hnodes : isEmpty = true → nodes = []) (hrest : depthAt rest ≤ depth)
    (value : String) (make : List OscapText → ProfileEntry)
    (hentry : entryOf scope name attrs isEmpty nodes (textAt rest) =
      (remarksOf (attrs ++ scope) nodes).map fun remarks => (some (make remarks), isEmpty))
    (hchild : ∀ n, xccdfProfileChild n depth entries
        ⟨.start depth name attrs ⟨isEmpty, nodes, scope⟩ ::
          (innerEvents isEmpty depth scope name attrs nodes ++ rest), none⟩ =
      xccdfParseRemarks n ⟨.start depth name attrs ⟨isEmpty, nodes, scope⟩ ::
          (innerEvents isEmpty depth scope name attrs nodes ++ rest), some value⟩ (depth + 1) >>=
        fun r => .ok (entries ++ [make r.1], r.2)) :
    ChildReads depth scope isEmpty name attrs nodes rest entries := by
  refine ⟨[], List.nil_suffix, ?_⟩
  have hremarks := xccdfParseRemarks_settles hnodes hrest name attrs scope value
  rw [Xml.events_element hnodes, List.cons_append] at hremarks
  rw [hentry, Option.map_map]
  have hstep : ∀ n, profileStep n depth entries
      ⟨.start depth name attrs ⟨isEmpty, nodes, scope⟩ ::
        (innerEvents isEmpty depth scope name attrs nodes ++ rest), none⟩ =
      xccdfParseRemarks n ⟨.start depth name attrs ⟨isEmpty, nodes, scope⟩ ::
        (innerEvents isEmpty depth scope name attrs nodes ++ rest), some value⟩ (depth + 1) >>=
        fun r => .ok (entries ++ [make r.1], r.2.read) := by
    intro n
    rw [profileStep, hchild, bind_assoc]
    rfl
  refine (hremarks.bind (fun _ _ => Extends.refl _) ?_ ?_).of_eq hstep
  · intro hnone
    rw [Option.map_eq_none_iff.mp hnone]
    rfl
  · intro r hr
    obtain ⟨remarks, hremarks, rfl⟩ := Option.map_eq_some_iff.mp hr
    rw [hremarks]
    cases isEmpty <;> exact Settles.ok _

/-- A select without attributes: its remarks are not looked for. -/
theorem ChildReads.of_bare_select
    (h : (attrs.lookup .idref).or (attrs.lookup .selected) = none) :
    ChildReads depth scope isEmpty .select attrs nodes rest entries := by
  obtain ⟨hidref, hselected⟩ := Option.or_eq_none_iff.mp h
  refine ⟨_, List.suffix_rfl, ?_⟩
  have hentry : entryOf scope .select attrs isEmpty nodes (textAt rest) =
      some (some (.select (oscapStringToEnum oscapBoolMap (attrs.lookup .selected))
        (attrs.lookup .idref) []), false) := if_pos h
  rw [hentry]
  refine Settles.of_succ (fun _ h => ?_) ((Settles.ok _).of_eq fun n => ?_)
  · rw [profileStep, xccdfProfileChild, elementGet_start] at h
    exact nomatch h
  · rw [profileStep, xccdfProfileChild, elementGet_start]
    simp only [attributeGetBool_start, attributeGet_start, hidref, hselected, Option.or_none]
    rw [xccdfParseRemarks, eachElement_of_start]
    rfl

/-- **What is read of a child**, and whether the node behind it is lost. -/
theorem childReads (hnodes : isEmpty = true → nodes = []) (hrest : depthAt rest ≤ depth)
    (name : XccdfElement) (attrs scope : XccdfAttrs) (entries : List ProfileEntry) :
    ChildReads depth scope isEmpty name attrs nodes rest entries := by
  cases name with
  | select =>
      cases hattr : (attrs.lookup .idref).or (attrs.lookup .selected) with
      | none => exact .of_bare_select hattr
      | some value =>
          refine .of_remarks hnodes hrest value _ (if_neg (by rw [hattr]; simp)) fun n => ?_
          rw [xccdfProfileChild, elementGet_start]
          simp only [attributeGetBool_start, attributeGet_start, Option.or_none, hattr]
          rfl
  | refineRule =>
      cases hidref : attrs.lookup .idref with
      | none =>
          refine .of_stay none none (by simp only [entryOf, hidref]) fun n => ?_
          rw [xccdfProfileChild, elementGet_start, Option.toList_none, List.append_nil]
          simp only [attributeGet_start, hidref, Option.none_or]
      | some item =>
          obtain ⟨value, hvalue⟩ : ∃ value, (attrs.lookup .severity).or ((attrs.lookup .role).or
              ((attrs.lookup .weight).or ((attrs.lookup .selector).or (some item)))) =
                some value := by
            simp only [Option.or_some, Option.some.injEq, exists_eq']
          refine .of_remarks hnodes hrest value _ (by simp only [entryOf, hidref]; rfl) fun n => ?_
          rw [xccdfProfileChild, elementGet_start]
          simp only [attributeGet_start, hidref, Option.or_none, hvalue]
          rfl
  | refineValue =>
      cases hidref : attrs.lookup .idref with
      | none =>
          refine .of_stay none none (by simp only [entryOf, hidref]) fun n => ?_
          rw [xccdfProfileChild, elementGet_start, Option.toList_none, List.append_nil]
          simp only [attributeGet_start, hidref, Option.none_or]
      | some item =>
          obtain ⟨value, hvalue⟩ : ∃ value, (attrs.lookup .operator).or
              ((attrs.lookup .selector).or (some item)) = some value := by
            simp only [Option.or_some, Option.some.injEq, exists_eq']
          refine .of_remarks hnodes hrest value _ (by simp only [entryOf, hidref]; rfl) fun n => ?_
          rw [xccdfProfileChild, elementGet_start]
          simp only [attributeGet_start, hidref, Option.or_none, hvalue]
          rfl
  | setValue =>
      cases hidref : attrs.lookup .idref with
      | none =>
          refine .of_stay _ none (by simp only [entryOf, hidref]; rfl) fun n => ?_
          rw [xccdfProfileChild, elementGet_start]
          simp only [xccdfSetvalueNewParse, attributeGet_start, hidref, Option.none_or]
          rfl
      | some item =>
          refine .of_read _ (by simp only [entryOf, hidref]; rfl) fun n => ?_
          rw [xccdfProfileChild, elementGet_start]
          simp only [xccdfSetvalueNewParse, attributeGet_start, hidref, Option.or_none]
          rw [stringCopy_start, if_neg (by simp), textAt_eq_bodyText]
          rfl
  | status =>
      have hchild : ∀ n, xccdfProfileChild n depth entries
          ⟨.start depth .status attrs ⟨isEmpty, nodes, scope⟩ ::
            (innerEvents isEmpty depth scope .status attrs nodes ++ rest), none⟩ =
          .ok (entries ++ (xccdfStatusNewFill (oscapElementStringCopy
              ⟨.start depth .status attrs ⟨isEmpty, nodes, scope⟩ ::
                (innerEvents isEmpty depth scope .status attrs nodes ++ rest),
                (attrs.lookup .date).or none⟩).1 (attrs.lookup .date)).toList,
            (oscapElementStringCopy ⟨.start depth .status attrs ⟨isEmpty, nodes, scope⟩ ::
              (innerEvents isEmpty depth scope .status attrs nodes ++ rest),
              (attrs.lookup .date).or none⟩).2) := fun n => rfl
      simp only [stringCopy_start, textAt_eq_bodyText, Option.or_none] at hchild
      cases hdate : attrs.lookup .date with
      | none =>
          rw [hdate, Option.isNone_none, Bool.and_true] at hchild
          cases isEmpty with
          | true => exact .of_stay none none (by simp only [entryOf, hdate]) hchild
          | false =>
              exact .of_read (xccdfStatusNewFill (some (bodyText false nodes (textAt rest))) none)
                (by simp only [entryOf, hdate]) hchild
      | some date =>
          rw [hdate, Option.isNone_some, Bool.and_false] at hchild
          exact .of_read
            (xccdfStatusNewFill (some (bodyText isEmpty nodes (textAt rest))) (some date))
            (by simp only [entryOf, hdate]) hchild
  | title | description | rationale =>
      refine .of_stay _ none rfl fun n => ?_
      rw [xccdfProfileChild, elementGet_start]
      simp only [xccdfItemProcessElement, elementGet_start]
      rw [textNewParse_xml rfl rfl]
      rfl
  | warning =>
      refine .of_stay _ none rfl fun n => ?_
      rw [xccdfProfileChild, elementGet_start]
      simp only [xccdfItemProcessElement, elementGet_start, xccdfWarningNewParse,
        attributeGet_start, Option.or_none]
      rw [textNewParse_xml rfl rfl]
      rfl
  | reference | dcStatus | version | metadata => exact .of_stay _ none rfl fun n => rfl
  | platform => exact .of_stay _ _ rfl fun n => rfl
  | question =>
      have hchild : ∀ n, xccdfProfileChild n depth entries
          ⟨.start depth .question attrs ⟨isEmpty, nodes, scope⟩ ::
            (innerEvents isEmpty depth scope .question attrs nodes ++ rest), none⟩ =
          .ok (entries ++ [.question (oscapTextNewParse xccdfTextPlain
              ⟨.start depth .question attrs ⟨isEmpty, nodes, scope⟩ ::
                (innerEvents isEmpty depth scope .question attrs nodes ++ rest), none⟩).1],
            (oscapTextNewParse xccdfTextPlain
              ⟨.start depth .question attrs ⟨isEmpty, nodes, scope⟩ ::
                (innerEvents isEmpty depth scope .question attrs nodes ++ rest), none⟩).2) :=
        fun n => rfl
      simp only [textNewParse_plain, textAt_eq_bodyText] at hchild
      cases isEmpty with
      | true => exact .of_stay _ none rfl hchild
      | false => exact .of_read _ rfl hchild
  | _ =>
      refine .of_stay none none rfl fun n => ?_
      rw [Option.toList_none, List.append_nil]
      rfl

end Child

/-- What is read of an element is what `entryOf` says. -/
theorem nodeEntry_element (scope : XccdfAttrs) {isEmpty : Bool} (name : XccdfElement)
    (attrs : XccdfAttrs) {nodes : List XccdfNode} (hnodes : isEmpty = true → nodes = [])
    (next : Option String) : nodeEntry scope (Xml.element isEmpty name attrs nodes) next =
      entryOf scope name attrs isEmpty nodes next := by
  cases isEmpty with
  | true =>
      rw [hnodes rfl]
      rfl
  | false => rfl

/-- The step of the loop is as `nodeEntry` says. -/
theorem profileStep_stepsAs (depth : ℕ) (scope : XccdfAttrs) {x : XccdfNode}
    (hx : ∀ value, x ≠ .text value) :
    StepsAs (fun n => profileStep n depth) (recordStep (nodeEntry scope)) depth scope x := by
  obtain ⟨isEmpty, name, attrs, nodes, hnodes, rfl⟩ := Xml.exists_element hx
  refine .inr fun entries rest hrest => ?_
  obtain ⟨stay, hstay, hsettles⟩ := childReads hnodes hrest name attrs scope entries
  refine ⟨stay, ?_, ?_⟩
  · rw [Xml.events_element hnodes, List.tail_cons]
    exact hstay
  · rw [Xml.events_element hnodes, List.cons_append, recordStep, nodeEntry_element _ _ _ hnodes,
      Option.map_map]
    exact hsettles

/-- A higher bound keeps what is read of a child. -/
theorem profileStep_extends (n depth : ℕ) (entries : List ProfileEntry) (reader : XccdfReader) :
    Extends (profileStep n depth entries reader) (profileStep (n + 1) depth entries reader) := by
  have hremarks : ∀ reader, Extends (xccdfParseRemarks n reader (depth + 1))
      (xccdfParseRemarks (n + 1) reader (depth + 1)) := fun reader =>
    eachElement_extends (fun _ _ => Extends.refl _) (Nat.le_succ n) [] reader
  refine Extends.bind ?_ fun _ => Extends.refl _
  rw [xccdfProfileChild.eq_def, xccdfProfileChild.eq_def]
  split
  · exact (hremarks _).bind fun _ => Extends.refl _
  · split
    · exact Extends.refl _
    · exact (hremarks _).bind fun _ => Extends.refl _
  · split
    · exact Extends.refl _
    · exact (hremarks _).bind fun _ => Extends.refl _
  · exact Extends.refl _
  · exact Extends.refl _

/-! ### Profiles -/

section Profile

variable {depth : ℕ} {name : XccdfElement} {attrs : XccdfAttrs}
  {content : Content XccdfElement XccdfAttribute String} {events : List XccdfEvent}

/-- The search for attributes stays at the element, and ends at an attribute if it starts at one
or finds one. -/
theorem foldl_moveToAttribute (names : List XccdfAttribute) (attr : Option String) :
    ∃ attr' : Option String, names.foldl Reader.moveToAttribute
        (⟨.start depth name attrs content :: events, attr⟩ : XccdfReader) =
          ⟨.start depth name attrs content :: events, attr'⟩ ∧
      attr'.isSome = (attr.isSome || names.any fun a => (attrs.lookup a).isSome) := by
  induction names generalizing attr with
  | nil => exact ⟨attr, rfl, (Bool.or_false _).symm⟩
  | cons a names ih =>
      rw [List.foldl_cons, moveToAttribute_start]
      obtain ⟨attr', heq, hattr⟩ := ih ((attrs.lookup a).or attr)
      refine ⟨attr', heq, ?_⟩
      rw [hattr, List.any_cons, Option.isSome_or, Bool.or_comm _ attr.isSome, Bool.or_assoc]

/-- The attributes of an item are read at the element. If it has an id, the cursor is left at one
of them. -/
theorem processAttributes_start : ∃ attr,
    xccdfItemProcessAttributes ⟨.start depth name attrs content :: events, none⟩ =
      (itemAttributesOf attrs, ⟨.start depth name attrs content :: events, attr⟩) ∧
        (attrs.lookup .id ≠ none → attr ≠ none) := by
  rw [xccdfItemProcessAttributes]
  obtain ⟨attr, heq, hattr⟩ := foldl_moveToAttribute [XccdfAttribute.id, .resolved, .hidden,
    .selected, .prohibitChanges, .multiple, .abstract, .interactive, .weight, .extends,
    .clusterId] none
  refine ⟨attr, Prod.ext rfl heq, fun hid => Option.isSome_iff_ne_none.mp ?_⟩
  rw [hattr, List.any_cons, Option.isSome_iff_ne_none.mpr hid]
  rfl

/-- Without an id, there is no profile, and nothing is read. -/
theorem xccdfProfileParse_of_no_id (hid : attrs.lookup .id = none) (n : ℕ) : ∃ attr,
    xccdfProfileParse n ⟨.start depth .profile attrs content :: events, none⟩ =
      .ok (none, ⟨.start depth .profile attrs content :: events, attr⟩) := by
  obtain ⟨attr, hattributes, -⟩ := @processAttributes_start depth .profile attrs content events
  refine ⟨attr, ?_⟩
  rw [xccdfProfileParse, if_neg (by simp), hattributes]
  exact if_pos hid

end Profile

/-- **What is read of a profile**: a walk through its nodes. The cursor is left at the end of the
profile, or behind it if this end is lost or there is none. -/
theorem xccdfProfileParse_settles {isEmpty : Bool} {nodes : List XccdfNode}
    (hnodes : isEmpty = true → nodes = []) {depth : ℕ} {rest : List XccdfEvent}
    (hrest : depthAt rest ≤ depth) {attrs : XccdfAttrs} (scope : XccdfAttrs)
    (hid : attrs.lookup .id ≠ none) :
    Settles (fun n => xccdfProfileParse n
        ⟨(Xml.element isEmpty .profile attrs nodes).events depth scope ++ rest, none⟩)
      ((walk (recordStep (nodeEntry (attrs ++ scope))) [] false nodes).map fun r =>
        (some ⟨itemAttributesOf attrs, r.1⟩,
          ⟨if isEmpty || r.2 then rest else .finish depth .profile :: rest, none⟩)) := by
  rw [Xml.events_element hnodes, List.cons_append]
  obtain ⟨attr, hattributes, hattr⟩ := @processAttributes_start depth .profile attrs
    ⟨isEmpty, nodes, scope⟩ (innerEvents isEmpty depth scope .profile attrs nodes ++ rest)
  obtain ⟨value, rfl⟩ := Option.ne_none_iff_exists'.mp (hattr hid)
  have hparse : ∀ n, xccdfProfileParse n
      ⟨.start depth .profile attrs ⟨isEmpty, nodes, scope⟩ ::
        (innerEvents isEmpty depth scope .profile attrs nodes ++ rest), none⟩ =
      eachElement (profileStep n (depth + 1)) (depth + 1) n []
        ⟨.start depth .profile attrs ⟨isEmpty, nodes, scope⟩ ::
          (innerEvents isEmpty depth scope .profile attrs nodes ++ rest), some value⟩ >>=
        fun r => .ok (some ⟨itemAttributesOf attrs, r.1⟩, r.2) := by
    intro n
    rw [xccdfProfileParse, if_neg (by simp), hattributes]
    exact if_neg hid
  have hloop := eachElement_element (fun n => profileStep_extends n (depth + 1))
    (fun _ _ _ => by simp [recordStep, nodeEntry]) hnodes hrest
    (fun x _ hx => profileStep_stepsAs (depth + 1) (attrs ++ scope) hx) [] .profile value
  refine (hloop.bind (fun _ _ => Extends.refl _) ?_ ?_).of_eq hparse
  · intro hnone
    rw [Option.map_eq_none_iff.mp hnone]
    rfl
  · intro r hr
    obtain ⟨w, hw, rfl⟩ := Option.map_eq_some_iff.mp hr
    rw [hw]
    exact Settles.ok _

end OpenScap.XccdfXml
