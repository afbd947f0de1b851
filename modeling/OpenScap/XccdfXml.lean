import OpenScap.XccdfResolve
import OpenScap.XccdfResult
import OpenScap.XmlCursor

/-!
# Reading XCCDF elements

What the parsers of XCCDF share: the enumerations with their strings, the access to attributes,
which moves the cursor to the attribute if there is one, and the reading of texts. The content of
a text with markup is the nodes that it consists of; dates and weights are the texts that are
read for them.

## Main results

* `stringCopy_start`, `textNewParse_xml`, `textNewParse_plain` — what is read at the start of an
  element, and where the cursor is left.
-/

open XmlEvents

namespace OpenScap.XccdfXml

/-! ### Names -/

/-- `xccdf_element_t`, the elements of profiles and checks, and all others. -/
inductive XccdfElement
  | profile | select | remark | refineRule | refineValue | setValue
  | title | description | warning | reference | status | dcStatus | version | rationale
  | platform | question | metadata
  | check | complexCheck | checkContentRef | checkContent | checkImport | checkExport
  | other (name : String)
  deriving DecidableEq

/-- `xccdf_attribute_t`, the attributes of these elements, with the language and all others. -/
inductive XccdfAttribute
  | id | resolved | hidden | selected | prohibitChanges | multiple | abstract | interactive
  | weight | extends | clusterId | idref | selector | role | severity | operator | category
  | date | override | time | update | system | multiCheck | negate | href | name | importName
  | importXpath | exportName | valueId | lang
  | other (name : String)
  deriving DecidableEq

/-- A node of a document. -/
abbrev XccdfNode := Xml XccdfElement XccdfAttribute String

/-- An event of a document. -/
abbrev XccdfEvent := Event XccdfElement XccdfAttribute String

/-- A cursor over a document. -/
abbrev XccdfReader := Reader XccdfElement XccdfAttribute String

/-- Attributes of elements. -/
abbrev XccdfAttrs := List (XccdfAttribute × String)

/-- A place in a document: the elements around it, the innermost first. -/
abbrev XccdfPlace := List (Ancestor XccdfElement XccdfAttribute String)

/-- `xccdf_element_get`. -/
def xccdfElementGet (reader : XccdfReader) : Option XccdfElement :=
  match reader.events, reader.attr with
  | .start _ name _ _ :: _, none => some name
  | _, _ => none

/-! ### Enumerations -/

/-- `struct oscap_string_map`: the entries, and the value behind them that has no string. -/
structure OscapStringMap (ε : Type) where
  entries : List (ε × String)
  last : ε

/-- `oscap_string_to_enum`. -/
def oscapStringToEnum {ε : Type} (map : OscapStringMap ε) (str : Option String) : ε :=
  ((map.entries.find? fun entry => str = some entry.2).map Prod.fst).getD map.last

/-- `OSCAP_BOOL_MAP`. -/
def oscapBoolMap : OscapStringMap Bool :=
  ⟨[(true, "true"), (true, "True"), (true, "TRUE"), (true, "yes"), (true, "Yes"), (true, "YES"),
    (true, "1")], false⟩

/-- `XCCDF_ROLE_MAP`. -/
def xccdfRoleMap : OscapStringMap XccdfRole :=
  ⟨[(.full, "full"), (.unscored, "unscored"), (.unchecked, "unchecked")], .unset⟩

/-- `XCCDF_LEVEL_MAP`. -/
def xccdfLevelMap : OscapStringMap XccdfLevel :=
  ⟨[(.unknown, "unknown"), (.info, "info"), (.low, "low"), (.medium, "medium"), (.high, "high")],
    .notDefined⟩

/-- `XCCDF_OPERATOR_MAP`. -/
def xccdfOperatorMap : OscapStringMap XccdfOperator :=
  ⟨[(.equals, "equals"), (.notEqual, "not equal"), (.greater, "greater than"),
    (.greaterEqual, "greater than or equal"), (.less, "less than"),
    (.lessEqual, "less than or equal"), (.patternMatch, "pattern match")], .unset⟩

/-- `XCCDF_BOOLOP_MAP`. -/
def xccdfBoolopMap : OscapStringMap (Option XccdfBoolOperator) :=
  ⟨[(some .and, "AND"), (some .or, "OR"), (some .and, "and"), (some .or, "or")], none⟩

/-- `xccdf_status_type_t`. -/
inductive XccdfStatusType
  | notSpecified | accepted | deprecated | draft | incomplete | interim
  deriving DecidableEq

/-- `XCCDF_STATUS_MAP`. -/
def xccdfStatusMap : OscapStringMap XccdfStatusType :=
  ⟨[(.accepted, "accepted"), (.deprecated, "deprecated"), (.draft, "draft"),
    (.incomplete, "incomplete"), (.interim, "interim")], .notSpecified⟩

/-- `xccdf_warning_category_t`. -/
inductive XccdfWarningCategory
  | notSpecified | general | functionality | performance | hardware | legal | regulatory
  | management | audit | dependency
  deriving DecidableEq

/-- `XCCDF_WARNING_MAP`. -/
def xccdfWarningMap : OscapStringMap XccdfWarningCategory :=
  ⟨[(.general, "general"), (.functionality, "functionality"), (.performance, "performance"),
    (.hardware, "hardware"), (.legal, "legal"), (.regulatory, "regulatory"),
    (.management, "management"), (.audit, "audit"), (.dependency, "dependency")], .notSpecified⟩

/-! ### Attributes -/

/-- `xccdf_attribute_get`: the value of an attribute of the element, with the cursor at the
attribute if there is one. -/
def xccdfAttributeGet (reader : XccdfReader) (attr : XccdfAttribute) :
    Option String × XccdfReader :=
  (reader.attrs.lookup attr, reader.moveToAttribute attr)

/-- `xccdf_attribute_get_bool`. -/
def xccdfAttributeGetBool (reader : XccdfReader) (attr : XccdfAttribute) : Bool × XccdfReader :=
  (oscapStringToEnum oscapBoolMap (reader.attrs.lookup attr), reader.moveToAttribute attr)

/-- A flag that is there if its attribute is. -/
def definedFlag (attrs : XccdfAttrs) (attr : XccdfAttribute) : Option Bool :=
  (attrs.lookup attr).map fun value => oscapStringToEnum oscapBoolMap (some value)

/-- The fields of an item that its attributes give. -/
structure ItemAttributes where
  id : Option String
  resolved : Option Bool
  hidden : Option Bool
  selected : Option Bool
  prohibitChanges : Option Bool
  multiple : Option Bool
  abstract : Option Bool
  interactive : Option Bool
  weight : Option String
  extendsId : Option String
  clusterId : Option String

/-- The fields of an item with these attributes. -/
def itemAttributesOf (attrs : XccdfAttrs) : ItemAttributes :=
  ⟨attrs.lookup .id, definedFlag attrs .resolved, definedFlag attrs .hidden,
    definedFlag attrs .selected, definedFlag attrs .prohibitChanges, definedFlag attrs .multiple,
    definedFlag attrs .abstract, definedFlag attrs .interactive, attrs.lookup .weight,
    attrs.lookup .extends, attrs.lookup .clusterId⟩

/-- `xccdf_item_process_attributes`. The item has no id where it fails. -/
def xccdfItemProcessAttributes (reader : XccdfReader) : ItemAttributes × XccdfReader :=
  (itemAttributesOf reader.attrs,
    [XccdfAttribute.id, .resolved, .hidden, .selected, .prohibitChanges, .multiple, .abstract,
      .interactive, .weight, .extends, .clusterId].foldl Reader.moveToAttribute reader)

/-! ### Texts -/

/-- `oscap_element_string_copy`. -/
def oscapElementStringCopy (reader : XccdfReader) : Option String × XccdfReader :=
  if reader.isEmptyElement then (none, reader)
  else
    let reader :=
      if reader.nodeType = .element ∨ reader.nodeType = .attribute then reader.read else reader
    (some (reader.value.getD ""), reader)

/-- `struct oscap_text_traits`. -/
structure OscapTextTraits where
  html : Bool
  canOverride : Bool
  canSubstitute : Bool

/-- `XCCDF_TEXT_PLAIN`. -/
def xccdfTextPlain : OscapTextTraits := ⟨false, true, false⟩

/-- `XCCDF_TEXT_PLAINSUB`. -/
def xccdfTextPlainsub : OscapTextTraits := ⟨false, true, true⟩

/-- `XCCDF_TEXT_HTMLSUB`. -/
def xccdfTextHtmlsub : OscapTextTraits := ⟨true, true, true⟩

/-- The content of a text: a string, or the nodes of the element. -/
inductive OscapTextContent
  | plain (text : Option String)
  | xml (nodes : List XccdfNode)

/-- `struct oscap_text`, with the override flag if it was given. -/
structure OscapText where
  lang : Option String
  overrides : Option Bool
  content : OscapTextContent

/-- `oscap_text_new_parse`. -/
def oscapTextNewParse (traits : OscapTextTraits) (reader : XccdfReader) :
    OscapText × XccdfReader :=
  let moved := if traits.canOverride then reader.moveToAttribute .override else reader
  let overrides :=
    if traits.canOverride then
      moved.value.map fun value => oscapStringToEnum oscapBoolMap (some value)
    else none
  let lang := moved.inherited .lang
  let element := moved.moveToElement
  if traits.html || traits.canSubstitute then (⟨lang, overrides, .xml element.nodes⟩, element)
  else
    let (text, reader) := oscapElementStringCopy element
    (⟨lang, overrides, .plain text⟩, reader)

/-! ### At the start of an element -/

section Start

variable {depth : ℕ} {name : XccdfElement} {attrs : XccdfAttrs}
  {content : Content XccdfElement XccdfAttribute String} {events : List XccdfEvent}
  {attr : Option String}

@[simp] theorem elementGet_start :
    xccdfElementGet ⟨.start depth name attrs content :: events, none⟩ = some name := rfl

@[simp] theorem moveToAttribute_start (searched : XccdfAttribute) :
    (⟨.start depth name attrs content :: events, attr⟩ : XccdfReader).moveToAttribute searched =
      ⟨.start depth name attrs content :: events, (attrs.lookup searched).or attr⟩ := rfl

@[simp] theorem attributeGet_start (searched : XccdfAttribute) :
    xccdfAttributeGet ⟨.start depth name attrs content :: events, attr⟩ searched =
      (attrs.lookup searched,
        ⟨.start depth name attrs content :: events, (attrs.lookup searched).or attr⟩) := rfl

@[simp] theorem attributeGetBool_start (searched : XccdfAttribute) :
    xccdfAttributeGetBool ⟨.start depth name attrs content :: events, attr⟩ searched =
      (oscapStringToEnum oscapBoolMap (attrs.lookup searched),
        ⟨.start depth name attrs content :: events, (attrs.lookup searched).or attr⟩) := rfl

/-- The string behind the start of an element; there is none if the element is closed in its
start tag, unless the cursor is at an attribute. -/
theorem stringCopy_start : oscapElementStringCopy
    ⟨.start depth name attrs content :: events, attr⟩ =
      if content.isEmpty && attr.isNone then
        (none, ⟨.start depth name attrs content :: events, attr⟩)
      else (some ((textAt events).getD ""), ⟨events, none⟩) := by
  have hempty : (⟨.start depth name attrs content :: events, attr⟩ : XccdfReader).isEmptyElement =
      (content.isEmpty && attr.isNone) := rfl
  have htype : (⟨.start depth name attrs content :: events, attr⟩ : XccdfReader).nodeType =
      .element ∨ (⟨.start depth name attrs content :: events, attr⟩ : XccdfReader).nodeType =
      .attribute := by
    cases attr
    · exact .inl rfl
    · exact .inr rfl
  have hvalue : (⟨events, none⟩ : XccdfReader).value = textAt events := by
    rcases events with _ | ⟨event, events⟩
    · rfl
    · cases event <;> rfl
  rw [oscapElementStringCopy, hempty, if_pos htype]
  simp only [Reader.read, List.tail_cons, hvalue]

/-- The override flag of a text, whose attribute is that where the cursor was if there is none of
the name. -/
def overridesOf (attrs : XccdfAttrs) (attr : Option String) : Option Bool :=
  ((attrs.lookup .override).or attr).map fun value => oscapStringToEnum oscapBoolMap (some value)

/-- A text with markup leaves the cursor at the element. -/
theorem textNewParse_xml {traits : OscapTextTraits} (hoverride : traits.canOverride = true)
    (hxml : (traits.html || traits.canSubstitute) = true) :
    oscapTextNewParse traits ⟨.start depth name attrs content :: events, attr⟩ =
      (⟨(attrs ++ content.scope).lookup .lang, overridesOf attrs attr, .xml content.nodes⟩,
        ⟨.start depth name attrs content :: events, none⟩) := by
  rw [oscapTextNewParse, hoverride, hxml]
  simp only [if_true, moveToAttribute_start, Reader.value, Option.or_none]
  rfl

/-- A plain text leaves the cursor behind the start of the element, if this is not closed in its
start tag. -/
theorem textNewParse_plain :
    oscapTextNewParse xccdfTextPlain ⟨.start depth name attrs content :: events, attr⟩ =
      (⟨(attrs ++ content.scope).lookup .lang, overridesOf attrs attr,
          .plain (if content.isEmpty then none else some ((textAt events).getD ""))⟩,
        if content.isEmpty then ⟨.start depth name attrs content :: events, none⟩
        else ⟨events, none⟩) := by
  have hcopy := @stringCopy_start depth name attrs content events none
  rw [Option.isNone_none, Bool.and_true] at hcopy
  rw [oscapTextNewParse]
  simp only [xccdfTextPlain, if_true, moveToAttribute_start, Reader.value, Option.or_none,
    Reader.moveToElement, hcopy]
  cases content.isEmpty <;> rfl

end Start

end OpenScap.XccdfXml
