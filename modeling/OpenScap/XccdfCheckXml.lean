import OpenScap.XccdfProfileXml

/-!
# Reading XCCDF checks

`xccdf_check_parse` looks for the elements at the depth of the check's children, and is called
again at a check inside a check with an operator. What it adds to the lists of a check is given in
the order in which it is added.

The depth of the children is one more than the depth that the cursor finds, which is right only at
an attribute: without any attribute that is looked for, the parser does not come to the children.
A check that is closed in its start tag is read on from an attribute, and so its parser ends at
what is behind it.

## Main results

* `xccdfCheckParse_extends` — a higher bound changes no result;
* `checkStep_stepsAs` — what is read of a child, and whether the node behind it is lost;
* `xccdfCheckParse_settles` — what is read of a check.
-/

open XmlEvents AssertedRun

namespace OpenScap.XccdfXml

/-! ### Checks -/

/-- The fields of a check that its attributes give. -/
structure CheckAttributes where
  id : Option String
  system : Option String
  selector : Option String
  oper : Option XccdfBoolOperator
  multicheck : Option Bool
  negate : Option Bool

/-- What an element adds to a check. -/
inductive CheckEntry
  | child (attributes : CheckAttributes) (entries : List CheckEntry)
  | contentRef (name : Option String) (href : String)
  | content (nodes : List XccdfNode)
  | checkImport (name : String) (xpath content : Option String)
  | checkExport (name : String) (value : Option String)

/-- `struct xccdf_check`: what its attributes give, and what is added to its lists, in this order.
Of the contents the first one counts. -/
structure XccdfCheck where
  attributes : CheckAttributes
  entries : List CheckEntry

/-! ### The parser -/

/-- The attributes that are looked for, as they are. -/
def checkAttributesOf (name : XccdfElement) (attrs : XccdfAttrs) : CheckAttributes :=
  ⟨attrs.lookup .id, attrs.lookup .system, attrs.lookup .selector,
    oscapStringToEnum xccdfBoolopMap (attrs.lookup .operator),
    if name = .complexCheck then none else definedFlag attrs .multiCheck,
    definedFlag attrs .negate⟩

/-- The first lines of `xccdf_check_parse`, which look for the attributes. -/
def xccdfCheckAttributes (name : XccdfElement) (reader : XccdfReader) :
    CheckAttributes × XccdfReader :=
  (checkAttributesOf name reader.attrs,
    [XccdfAttribute.id, .system, .selector, .operator, .multiCheck, .negate].foldl
      Reader.moveToAttribute reader)

/-- The cases of the loop of `xccdf_check_parse`, in a check with an operator or without. -/
def xccdfCheckChild (parse : XccdfReader → Except Stop (Option XccdfCheck × XccdfReader))
    (oper : Option XccdfBoolOperator) (entries : List CheckEntry) (reader : XccdfReader) :
    Except Stop (List CheckEntry × XccdfReader) :=
  match xccdfElementGet reader with
  | some .check | some .complexCheck =>
      if oper = none then .ok (entries, reader)
      else do
        let (check, reader) ← parse reader
        pure (entries ++ (check.map fun check => .child check.attributes check.entries).toList,
          reader)
  | some .checkContentRef =>
      match xccdfAttributeGet reader .href with
      | (none, reader) => .ok (entries, reader)
      | (some href, reader) =>
          let (name, reader) := xccdfAttributeGet reader .name
          .ok (entries ++ [.contentRef name href], reader)
  | some .checkContent => .ok (entries ++ [.content reader.nodes], reader)
  | some .checkImport =>
      let (name, reader) := xccdfAttributeGet reader .importName
      let (xpath, reader) := xccdfAttributeGet reader .importXpath
      match name with
      | none => .ok (entries, reader)
      | some name =>
          let (content, reader) := oscapElementStringCopy reader
          .ok (entries ++ [.checkImport name xpath content], reader)
  | some .checkExport =>
      match xccdfAttributeGet reader .exportName with
      | (none, reader) => .ok (entries, reader)
      | (some name, reader) =>
          let (value, reader) := xccdfAttributeGet reader .valueId
          .ok (entries ++ [.checkExport name value], reader)
  | _ => .ok (entries, reader)

/-- The body of the loop of `xccdf_check_parse`. -/
def checkStep (parse : XccdfReader → Except Stop (Option XccdfCheck × XccdfReader))
    (oper : Option XccdfBoolOperator) (entries : List CheckEntry) (reader : XccdfReader) :
    Except Stop (List CheckEntry × XccdfReader) := do
  let (entries, reader) ← xccdfCheckChild parse oper entries reader
  pure (entries, reader.read)

/-- A check or a complex check. -/
def isCheck (name : XccdfElement) : Bool :=
  match name with
  | .check | .complexCheck => true
  | _ => false

/-- `xccdf_check_parse`, within a bound. There is no check at another element. -/
def xccdfCheckParse : ℕ → XccdfReader → Except Stop (Option XccdfCheck × XccdfReader)
  | 0, _ => .error .depth
  | fuel + 1, reader =>
      match xccdfElementGet reader with
      | none => .ok (none, reader)
      | some name =>
          if isCheck name then do
            let (attributes, reader) := xccdfCheckAttributes name reader
            let depth := oscapElementDepth reader + 1
            let (entries, reader) ←
              eachElement (checkStep (xccdfCheckParse fuel) attributes.oper) depth fuel [] reader
            pure (some ⟨attributes, entries⟩, reader)
          else .ok (none, reader)

/-- A higher bound changes no result. -/
theorem checkStep_extends
    {parse parse' : XccdfReader → Except Stop (Option XccdfCheck × XccdfReader)}
    (h : ∀ reader, Extends (parse reader) (parse' reader)) (oper : Option XccdfBoolOperator)
    (entries : List CheckEntry) (reader : XccdfReader) :
    Extends (checkStep parse oper entries reader) (checkStep parse' oper entries reader) := by
  refine Extends.bind ?_ fun _ => Extends.refl _
  rw [xccdfCheckChild.eq_def, xccdfCheckChild.eq_def]
  split
  · split
    · exact Extends.refl _
    · exact (h _).bind fun _ => Extends.refl _
  · split
    · exact Extends.refl _
    · exact (h _).bind fun _ => Extends.refl _
  · exact Extends.refl _
  · exact Extends.refl _
  · exact Extends.refl _
  · exact Extends.refl _
  · exact Extends.refl _

/-- **A higher bound changes no result** of the parser. -/
theorem xccdfCheckParse_extends (n : ℕ) : ∀ reader,
    Extends (xccdfCheckParse n reader) (xccdfCheckParse (n + 1) reader) := by
  induction n with
  | zero => exact fun reader => Extends.error _
  | succ n ih =>
      intro reader
      rw [xccdfCheckParse, xccdfCheckParse]
      split
      · exact Extends.refl _
      · split
        · refine Extends.bind ?_ fun _ => Extends.refl _
          exact eachElement_extends (checkStep_extends ih _) (Nat.le_succ n) _ _
        · exact Extends.refl _

/-! ### What is read of checks -/

/-- The element has an attribute that is looked for. -/
def hasCheckAttribute (attrs : XccdfAttrs) : Bool :=
  [XccdfAttribute.id, .system, .selector, .operator, .multiCheck, .negate].any fun attr =>
    (attrs.lookup attr).isSome

/-- What a child that is no check adds to a check, and whether the node behind it is lost. -/
def checkLeafOf (name : XccdfElement) (attrs : XccdfAttrs) (isEmpty : Bool)
    (nodes : List XccdfNode) (next : Option String) : Option CheckEntry × Bool :=
  match name with
  | .checkContentRef =>
      ((attrs.lookup .href).map fun href => .contentRef (attrs.lookup .name) href, false)
  | .checkContent => (some (.content nodes), false)
  | .checkImport =>
      match attrs.lookup .importName with
      | none => (none, false)
      | some name =>
          (some (.checkImport name (attrs.lookup .importXpath)
            (some (bodyText isEmpty nodes next))), isEmpty)
  | .checkExport =>
      ((attrs.lookup .exportName).map fun name => .checkExport name (attrs.lookup .valueId), false)
  | _ => (none, false)

mutual

/-- What is read of a node among the children of a check, and whether the node behind it is
lost. -/
def checkNodeEntry (oper : Option XccdfBoolOperator) :
    XccdfNode → Option String → Option CheckEntry × Bool
  | .text _, _ => (none, false)
  | .empty name attrs, next =>
      if isCheck name then
        if oper = none then (none, false)
        else (some (.child (checkAttributesOf name attrs) []), hasCheckAttribute attrs)
      else checkLeafOf name attrs true [] next
  | .elem name attrs nodes, next =>
      if isCheck name then
        if oper = none then (none, false)
        else if hasCheckAttribute attrs then
          (some (.child (checkAttributesOf name attrs)
            (checkNodesEntries (checkAttributesOf name attrs).oper false nodes).1),
              (checkNodesEntries (checkAttributesOf name attrs).oper false nodes).2)
        else (some (.child (checkAttributesOf name attrs) []), false)
      else checkLeafOf name attrs false nodes next

/-- What is read of nodes, one after another, and whether what follows them is lost. -/
def checkNodesEntries (oper : Option XccdfBoolOperator) :
    Bool → List XccdfNode → List CheckEntry × Bool
  | lost, [] => ([], lost)
  | true, _ :: xs => checkNodesEntries oper false xs
  | false, x :: xs =>
      ((checkNodeEntry oper x (firstText xs)).1.toList ++
          (checkNodesEntries oper (checkNodeEntry oper x (firstText xs)).2 xs).1,
        (checkNodesEntries oper (checkNodeEntry oper x (firstText xs)).2 xs).2)

end

/-- What is read of a node, as a step of a walk. -/
def checkEntryOf (oper : Option XccdfBoolOperator) (x : XccdfNode) (next : Option String) :
    Option (Option CheckEntry × Bool) :=
  some (checkNodeEntry oper x next)

/-- What is read of nodes is a walk. -/
theorem walk_checkEntryOf (oper : Option XccdfBoolOperator) (nodes : List XccdfNode) :
    ∀ (entries : List CheckEntry) (lost : Bool),
      walk (recordStep (checkEntryOf oper)) entries lost nodes =
        some (entries ++ (checkNodesEntries oper lost nodes).1,
          (checkNodesEntries oper lost nodes).2) := by
  induction nodes with
  | nil =>
      intro entries lost
      rw [walk, checkNodesEntries, List.append_nil]
  | cons x xs ih =>
      intro entries lost
      cases lost with
      | true =>
          rw [walk, checkNodesEntries]
          exact ih entries false
      | false =>
          rw [walk, recordStep, checkEntryOf, Option.map_some, Option.bind_some, ih,
            checkNodesEntries, List.append_assoc]

section Child

variable {depth : ℕ} {scope : XccdfAttrs} {isEmpty : Bool} {name : XccdfElement}
  {attrs : XccdfAttrs} {nodes : List XccdfNode} {rest : List XccdfEvent}
  {entries : List CheckEntry} {oper : Option XccdfBoolOperator}

/-- What is read of an element. -/
theorem checkEntryOf_leaf (hname : isCheck name = false) (hnodes : isEmpty = true → nodes = [])
    (next : Option String) : checkEntryOf oper (Xml.element isEmpty name attrs nodes) next =
      some (checkLeafOf name attrs isEmpty nodes next) := by
  cases isEmpty with
  | true =>
      rw [hnodes rfl, checkEntryOf, Xml.element, if_pos rfl, checkNodeEntry, hname,
        if_neg (by simp)]
  | false =>
      rw [checkEntryOf, Xml.element, if_neg (by simp), checkNodeEntry, hname, if_neg (by simp)]

/-- A child that is no check is read as `checkLeafOf` says. -/
theorem checkStep_leaf (hname : isCheck name = false) :
    ∃ stay, stay <:+ innerEvents isEmpty depth scope name attrs nodes ∧ ∀ parse,
      checkStep parse oper entries ⟨.start depth name attrs ⟨isEmpty, nodes, scope⟩ ::
          (innerEvents isEmpty depth scope name attrs nodes ++ rest), none⟩ =
        .ok (entries ++ (checkLeafOf name attrs isEmpty nodes (textAt rest)).1.toList,
          ⟨if (checkLeafOf name attrs isEmpty nodes (textAt rest)).2 then rest.tail
            else stay ++ rest, none⟩) := by
  cases name with
  | check | complexCheck => exact absurd hname (by simp [isCheck])
  | checkContentRef =>
      refine ⟨_, List.suffix_rfl, fun parse => ?_⟩
      rw [checkStep, xccdfCheckChild, elementGet_start, checkLeafOf]
      cases hhref : attrs.lookup .href with
      | none =>
          simp only [attributeGet_start, hhref, Option.map_none, Option.toList_none,
            List.append_nil]
          rfl
      | some href =>
          simp only [attributeGet_start, hhref]
          rfl
  | checkContent => exact ⟨_, List.suffix_rfl, fun parse => rfl⟩
  | checkImport =>
      rw [checkLeafOf]
      cases hname : attrs.lookup .importName with
      | none =>
          refine ⟨_, List.suffix_rfl, fun parse => ?_⟩
          rw [checkStep, xccdfCheckChild, elementGet_start]
          simp only [attributeGet_start, hname, Option.toList_none, List.append_nil]
          rfl
      | some importName =>
          refine ⟨_, List.tail_suffix _, fun parse => ?_⟩
          rw [checkStep, xccdfCheckChild, elementGet_start]
          simp only [attributeGet_start, hname]
          rw [stringCopy_start, if_neg (by simp), textAt_eq_bodyText]
          cases isEmpty with
          | true => rfl
          | false =>
              have hne : innerEvents false depth scope .checkImport attrs nodes ≠ [] := by
                simp [innerEvents]
              rw [← List.tail_append_of_ne_nil hne]
              rfl
  | checkExport =>
      refine ⟨_, List.suffix_rfl, fun parse => ?_⟩
      rw [checkStep, xccdfCheckChild, elementGet_start, checkLeafOf]
      cases hname : attrs.lookup .exportName with
      | none =>
          simp only [attributeGet_start, hname, Option.map_none, Option.toList_none,
            List.append_nil]
          rfl
      | some exportName =>
          simp only [attributeGet_start, hname]
          rfl
  | _ =>
      refine ⟨_, List.suffix_rfl, fun parse => ?_⟩
      rw [checkLeafOf, Option.toList_none, List.append_nil]
      · rfl
      all_goals simp

/-! ### What is read of a check -/

/-- The attributes of a check are read at the element. With any of them the cursor is left at
one. -/
theorem checkAttributes_start {events : List XccdfEvent}
    {content : Content XccdfElement XccdfAttribute String} :
    ∃ attr : Option String, xccdfCheckAttributes name ⟨.start depth name attrs content :: events,
        none⟩ = (checkAttributesOf name attrs, ⟨.start depth name attrs content :: events, attr⟩) ∧
      attr.isSome = hasCheckAttribute attrs := by
  obtain ⟨attr, heq, hattr⟩ := foldl_moveToAttribute [XccdfAttribute.id, .system, .selector,
    .operator, .multiCheck, .negate] none
  exact ⟨attr, Prod.ext rfl heq, hattr⟩

/-- **What is read of a check**, if its children are read as the walk says. -/
theorem xccdfCheckParse_of_children (hname : isCheck name = true)
    (hnodes : isEmpty = true → nodes = []) (hrest : depthAt rest ≤ depth)
    (hchildren : ∀ oper, ∀ x ∈ nodes, (∀ value, x ≠ .text value) →
      StepsAs (fun n => checkStep (xccdfCheckParse n) oper) (recordStep (checkEntryOf oper))
        (depth + 1) (attrs ++ scope) x) :
    Settles (fun n => xccdfCheckParse n ⟨.start depth name attrs ⟨isEmpty, nodes, scope⟩ ::
          (innerEvents isEmpty depth scope name attrs nodes ++ rest), none⟩)
      (some (if hasCheckAttribute attrs then
          (some ⟨checkAttributesOf name attrs,
              (checkNodesEntries (checkAttributesOf name attrs).oper false nodes).1⟩,
            ⟨if isEmpty || (checkNodesEntries (checkAttributesOf name attrs).oper false nodes).2
              then rest else .finish depth name :: rest, none⟩)
        else (some ⟨checkAttributesOf name attrs, []⟩,
          ⟨.start depth name attrs ⟨isEmpty, nodes, scope⟩ ::
            (innerEvents isEmpty depth scope name attrs nodes ++ rest), none⟩))) := by
  obtain ⟨attr, hattributes, hattr⟩ := @checkAttributes_start depth name attrs
    (innerEvents isEmpty depth scope name attrs nodes ++ rest) ⟨isEmpty, nodes, scope⟩
  have hparse : ∀ n, xccdfCheckParse (n + 1) ⟨.start depth name attrs ⟨isEmpty, nodes, scope⟩ ::
        (innerEvents isEmpty depth scope name attrs nodes ++ rest), none⟩ =
      eachElement (checkStep (xccdfCheckParse n) (checkAttributesOf name attrs).oper)
          (depth + 1) n []
          ⟨.start depth name attrs ⟨isEmpty, nodes, scope⟩ ::
            (innerEvents isEmpty depth scope name attrs nodes ++ rest), attr⟩ >>=
        fun r => .ok (some ⟨checkAttributesOf name attrs, r.1⟩, r.2) := by
    intro n
    rw [xccdfCheckParse, elementGet_start]
    simp only [hname, if_true, hattributes]
    cases attr <;> rfl
  refine Settles.of_succ (fun _ h => by cases h) ?_
  rw [← hattr]
  cases attr with
  | none =>
      -- the depth of the children is not reached
      refine Settles.of_succ (fun _ h => ?_) ((Settles.ok _).of_eq fun n => ?_)
      · rw [hparse] at h
        cases h
      · rw [hparse, eachElement_of_start]
        rfl
  | some value =>
      have hloop := eachElement_element
        (fun n => checkStep_extends (xccdfCheckParse_extends n) (checkAttributesOf name attrs).oper)
        (fun _ _ _ => by simp [recordStep, checkEntryOf, checkNodeEntry]) hnodes hrest
        (hchildren _) [] name value
      rw [walk_checkEntryOf, Option.map_some] at hloop
      refine (hloop.bind (fun _ _ => Extends.refl _) (fun h => by cases h) ?_).of_eq hparse
      intro r hr
      rw [← Option.some.inj hr]
      exact Settles.ok _

/-- What is read of a check inside a check. -/
theorem checkEntryOf_check (hname : isCheck name = true) (hnodes : isEmpty = true → nodes = [])
    (next : Option String) : checkEntryOf oper (Xml.element isEmpty name attrs nodes) next =
      some (if oper = none then (none, false)
        else if hasCheckAttribute attrs then
          (some (.child (checkAttributesOf name attrs)
            (checkNodesEntries (checkAttributesOf name attrs).oper false nodes).1),
              isEmpty || (checkNodesEntries (checkAttributesOf name attrs).oper false nodes).2)
        else (some (.child (checkAttributesOf name attrs) []), false)) := by
  cases isEmpty with
  | true =>
      rw [hnodes rfl, checkEntryOf, Xml.element, if_pos rfl, checkNodeEntry, if_pos hname,
        checkNodesEntries]
      cases hasCheckAttribute attrs <;> rfl
  | false =>
      rw [checkEntryOf, Xml.element, if_neg (by simp), checkNodeEntry, if_pos hname,
        Bool.false_or]

/-- At a check inside a check without an operator, the cursor stays. -/
theorem checkChild_of_no_oper (hname : isCheck name = true)
    {content : Content XccdfElement XccdfAttribute String} {events : List XccdfEvent}
    (parse : XccdfReader → Except Stop (Option XccdfCheck × XccdfReader)) :
    xccdfCheckChild parse none entries ⟨.start depth name attrs content :: events, none⟩ =
      .ok (entries, ⟨.start depth name attrs content :: events, none⟩) := by
  cases name with
  | check | complexCheck => rfl
  | _ => exact absurd hname (by simp [isCheck])

/-- At a check inside a check with an operator, the parser is called. -/
theorem checkChild_of_oper (hname : isCheck name = true) (hoper : oper ≠ none)
    {content : Content XccdfElement XccdfAttribute String} {events : List XccdfEvent}
    (parse : XccdfReader → Except Stop (Option XccdfCheck × XccdfReader)) :
    xccdfCheckChild parse oper entries ⟨.start depth name attrs content :: events, none⟩ =
      parse ⟨.start depth name attrs content :: events, none⟩ >>= fun r =>
        .ok (entries ++ (r.1.map fun check => .child check.attributes check.entries).toList,
          r.2) := by
  cases name with
  | check | complexCheck => exact if_neg hoper
  | _ => exact absurd hname (by simp [isCheck])

/-- The step at an element is as `checkEntryOf` says, if the steps at its nodes are. -/
theorem checkStep_of_children (hnodes : isEmpty = true → nodes = [])
    (hchildren : ∀ oper, ∀ x ∈ nodes, (∀ value, x ≠ .text value) →
      StepsAs (fun n => checkStep (xccdfCheckParse n) oper) (recordStep (checkEntryOf oper))
        (depth + 1) (attrs ++ scope) x) :
    StepsAs (fun n => checkStep (xccdfCheckParse n) oper) (recordStep (checkEntryOf oper)) depth
      scope (Xml.element isEmpty name attrs nodes) := by
  refine .inr fun entries rest hrest => ?_
  rw [Xml.events_element hnodes, List.tail_cons, List.cons_append, recordStep]
  cases hname : isCheck name with
  | false =>
      rw [checkEntryOf_leaf hname hnodes]
      obtain ⟨stay, hstay, hstep⟩ :=
        @checkStep_leaf depth scope isEmpty name attrs nodes rest entries oper hname
      exact ⟨stay, hstay, (Settles.ok _).of_eq fun n => hstep _⟩
  | true =>
      rw [checkEntryOf_check hname hnodes]
      by_cases hoper : oper = none
      · rw [if_pos hoper, hoper]
        refine ⟨_, List.suffix_rfl, (Settles.ok _).of_eq fun n => ?_⟩
        simp only [checkStep, checkChild_of_no_oper hname, Option.toList_none, List.append_nil]
        rfl
      · have hcheck := xccdfCheckParse_of_children hname hnodes hrest hchildren
        have hstep : ∀ n, checkStep (xccdfCheckParse n) oper entries
            ⟨.start depth name attrs ⟨isEmpty, nodes, scope⟩ ::
              (innerEvents isEmpty depth scope name attrs nodes ++ rest), none⟩ =
            xccdfCheckParse n ⟨.start depth name attrs ⟨isEmpty, nodes, scope⟩ ::
              (innerEvents isEmpty depth scope name attrs nodes ++ rest), none⟩ >>= fun r =>
            .ok (entries ++ (r.1.map fun check =>
              .child check.attributes check.entries).toList, r.2.read) := by
          intro n
          rw [checkStep, checkChild_of_oper hname hoper, bind_assoc]
          rfl
        rw [if_neg hoper]
        cases hattribute : hasCheckAttribute attrs with
        | true =>
            rw [hattribute, if_pos rfl] at hcheck
            refine ⟨[], List.nil_suffix, ?_⟩
            refine (hcheck.bind (fun _ _ => Extends.refl _) (fun h => by cases h) ?_).of_eq hstep
            intro r hr
            rw [← Option.some.inj hr]
            cases isEmpty || (checkNodesEntries (checkAttributesOf name attrs).oper false nodes).2
            all_goals exact Settles.ok _
        | false =>
            rw [hattribute, if_neg (by simp)] at hcheck
            refine ⟨_, List.suffix_rfl, ?_⟩
            refine (hcheck.bind (fun _ _ => Extends.refl _) (fun h => by cases h) ?_).of_eq hstep
            intro r hr
            rw [← Option.some.inj hr]
            exact Settles.ok _

end Child

/-- **The step of the loop is as `checkEntryOf` says.** -/
theorem checkStep_stepsAs (oper : Option XccdfBoolOperator) (depth : ℕ) (scope : XccdfAttrs) :
    ∀ {x : XccdfNode}, (∀ value, x ≠ .text value) →
      StepsAs (fun n => checkStep (xccdfCheckParse n) oper) (recordStep (checkEntryOf oper)) depth
        scope x
  | .text value, hx => absurd rfl (hx value)
  | .empty name attrs, _ =>
      @checkStep_of_children depth scope true name attrs [] oper (fun _ => rfl)
        fun _ _ h => nomatch h
  | .elem name attrs nodes, _ =>
      @checkStep_of_children depth scope false name attrs nodes oper (fun h => absurd h (by simp))
        fun oper x hx hne => checkStep_stepsAs oper (depth + 1) (attrs ++ scope) hne
termination_by x => sizeOf x
decreasing_by
  simp only [Xml.elem.sizeOf_spec]
  have := List.sizeOf_lt_of_mem hx
  omega

/-- **What is read of a check**: a walk through its nodes, if it has an attribute that is looked
for; else nothing. -/
theorem xccdfCheckParse_settles {isEmpty : Bool} {nodes : List XccdfNode}
    (hnodes : isEmpty = true → nodes = []) {depth : ℕ} {rest : List XccdfEvent}
    (hrest : depthAt rest ≤ depth) {name : XccdfElement} (hname : isCheck name = true)
    (attrs scope : XccdfAttrs) : ∃ reader, Settles
      (fun n => xccdfCheckParse n
        ⟨(Xml.element isEmpty name attrs nodes).events depth scope ++ rest, none⟩)
      (some (some ⟨checkAttributesOf name attrs,
        if hasCheckAttribute attrs then
          (checkNodesEntries (checkAttributesOf name attrs).oper false nodes).1
        else []⟩, reader)) := by
  rw [Xml.events_element hnodes, List.cons_append]
  have hcheck := xccdfCheckParse_of_children hname hnodes hrest
    fun oper x _ hx => checkStep_stepsAs oper (depth + 1) (attrs ++ scope) hx
  cases hattribute : hasCheckAttribute attrs with
  | true =>
      rw [hattribute, if_pos rfl] at hcheck
      exact ⟨_, hcheck⟩
  | false =>
      rw [hattribute, if_neg (by simp)] at hcheck
      exact ⟨_, hcheck⟩

end OpenScap.XccdfXml
