import OpenScap.XccdfCheckXml
import OpenScap.XccdfProfileRecords

/-!
# What is recorded of a check

The record of a child is what it adds to the check, whatever surrounds it. A check that is closed
in its start tag and has an attribute loses the node behind it, and so does a check whose last
child is lost together with its end.

## Main results

* `checkNodeEntry_eq_record_iff` — when a child is read as its record;
* `checkRecorded_iff_reads` — when all children of a check are recorded in their order;
* `siblingsRecorded_iff` — when no child of a profile or a check is lost;
* `not_siblingsRecorded` — selects and checks that are closed in their start tags lose the next
  one.
-/

open XmlEvents AssertedRun

namespace OpenScap.XccdfXml

/-! ### Records -/

/-- What a child that is no check adds to a check. -/
def checkLeafRecord (name : XccdfElement) (attrs : XccdfAttrs) (nodes : List XccdfNode) :
    Option CheckEntry :=
  match name with
  | .checkContentRef => (attrs.lookup .href).map fun href => .contentRef (attrs.lookup .name) href
  | .checkContent => some (.content nodes)
  | .checkImport =>
      (attrs.lookup .importName).map fun name =>
        .checkImport name (attrs.lookup .importXpath) (some ((firstText nodes).getD ""))
  | .checkExport =>
      (attrs.lookup .exportName).map fun name => .checkExport name (attrs.lookup .valueId)
  | _ => none

mutual

/-- What a node adds to a check with an operator or without. -/
def checkNodeRecord (oper : Option XccdfBoolOperator) : XccdfNode → Option CheckEntry
  | .text _ => none
  | .empty name attrs =>
      if isCheck name then
        if oper = none then none else some (.child (checkAttributesOf name attrs) [])
      else checkLeafRecord name attrs []
  | .elem name attrs nodes =>
      if isCheck name then
        if oper = none then none
        else some (.child (checkAttributesOf name attrs)
          (checkRecords (checkAttributesOf name attrs).oper nodes))
      else checkLeafRecord name attrs nodes

/-- What nodes add to a check. -/
def checkRecords (oper : Option XccdfBoolOperator) : List XccdfNode → List CheckEntry
  | [] => []
  | x :: xs => (checkNodeRecord oper x).toList ++ checkRecords oper xs

end

/-- All children of the check, and of the checks in it, are recorded in their order:
`xccdf_check_parse` returns, within some bound, with a check that has their records. -/
def CheckRecorded (place : XccdfPlace) (name : XccdfElement) (attrs : XccdfAttrs)
    (content : Option (List XccdfNode)) : Prop :=
  ∃ fuel reader, xccdfCheckParse fuel (readerAt place (.ofContent name attrs content)) =
    .ok (some ⟨checkAttributesOf name attrs,
      checkRecords (checkAttributesOf name attrs).oper (content.getD [])⟩, reader)

/-! ### What is lost -/

mutual

/-- The node behind a child of a check is read over. -/
def checkLosesNext (oper : Option XccdfBoolOperator) : XccdfNode → Bool
  | .text _ => false
  | .empty name attrs =>
      if isCheck name then oper.isSome && hasCheckAttribute attrs
      else name = .checkImport && (attrs.lookup .importName).isSome
  | .elem name attrs nodes =>
      isCheck name && oper.isSome && hasCheckAttribute attrs &&
        checkLosesEnd (checkAttributesOf name attrs).oper false nodes

/-- What follows the nodes of a check is read over. -/
def checkLosesEnd (oper : Option XccdfBoolOperator) : Bool → List XccdfNode → Bool
  | lost, [] => lost
  | true, _ :: xs => checkLosesEnd oper false xs
  | false, x :: xs => checkLosesEnd oper (checkLosesNext oper x) xs

end

mutual

/-- A child of a check is read as its record, with the text behind it: an import that is closed in
its start tag has no text behind it, and the children of a check inside the check are recorded, or
have no records if the check has no attribute. -/
def checkNodeReadsWell (oper : Option XccdfBoolOperator) : XccdfNode → Option String → Prop
  | .text _, _ => True
  | .empty name attrs, next =>
      name = .checkImport → attrs.lookup .importName ≠ none → next.getD "" = ""
  | .elem name attrs nodes, _ =>
      isCheck name = true → oper ≠ none →
        if hasCheckAttribute attrs then
          checkNodesReadWell (checkAttributesOf name attrs).oper false nodes
        else checkRecords (checkAttributesOf name attrs).oper nodes = []

/-- Every node that the parser comes to is read well; the others have no record. -/
def checkNodesReadWell (oper : Option XccdfBoolOperator) : Bool → List XccdfNode → Prop
  | _, [] => True
  | true, x :: xs => checkNodeRecord oper x = none ∧ checkNodesReadWell oper false xs
  | false, x :: xs =>
      checkNodeReadsWell oper x (firstText xs) ∧
        checkNodesReadWell oper (checkLosesNext oper x) xs

end

/-! ### Children that are read as their records -/

/-- The records of nodes, one after another. -/
theorem checkRecords_eq (oper : Option XccdfBoolOperator) (nodes : List XccdfNode) :
    checkRecords oper nodes = records (checkNodeRecord oper) nodes := by
  induction nodes with
  | nil => rfl
  | cons x xs ih => rw [checkRecords, records_cons, ih]

/-- The walk says what is read over. -/
theorem recorded_check_iff (oper : Option XccdfBoolOperator) (nodes : List XccdfNode) :
    ∀ lost, Recorded (checkNodeReadsWell oper) (checkLosesNext oper) (checkNodeRecord oper) lost
      nodes ↔ checkNodesReadWell oper lost nodes := by
  induction nodes with
  | nil =>
      intro lost
      rw [Recorded, checkNodesReadWell]
  | cons x xs ih =>
      intro lost
      cases lost with
      | true => rw [Recorded, checkNodesReadWell, ih]
      | false => rw [Recorded, checkNodesReadWell, ih]

/-- A child that is no check: it is read as one with a record if it has one, and as its record if
it is read well. -/
theorem checkLeaf_record {name : XccdfElement} {isEmpty : Bool} {attrs : XccdfAttrs}
    {nodes : List XccdfNode} (hnodes : isEmpty = true → nodes = []) (next : Option String) :
    (checkLeafOf name attrs isEmpty nodes next).1.isSome =
        (checkLeafRecord name attrs nodes).isSome ∧
      ((checkLeafOf name attrs isEmpty nodes next).1 = checkLeafRecord name attrs nodes ↔
        (isEmpty = true → name = .checkImport → attrs.lookup .importName ≠ none →
          next.getD "" = "")) := by
  cases name with
  | checkImport =>
      rw [checkLeafOf, checkLeafRecord]
      cases attrs.lookup .importName with
      | none => exact ⟨rfl, iff_of_true rfl fun _ _ h => absurd rfl h⟩
      | some importName =>
          refine ⟨rfl, ?_⟩
          cases isEmpty with
          | true =>
              rw [hnodes rfl]
              simp [bodyText, firstText]
          | false => exact iff_of_true rfl fun h => absurd h (by simp)
  | checkContentRef | checkContent | checkExport =>
      exact ⟨rfl, iff_of_true rfl fun _ h => by cases h⟩
  | _ => exact ⟨rfl, iff_of_true rfl fun _ h => by cases h⟩

/-- A child that is no check loses the node behind it if it is an import that is closed in its
start tag. -/
theorem checkLeaf_loses (name : XccdfElement) (isEmpty : Bool) (attrs : XccdfAttrs)
    (nodes : List XccdfNode) (next : Option String) :
    (checkLeafOf name attrs isEmpty nodes next).2 =
      (isEmpty && (name = .checkImport && (attrs.lookup .importName).isSome)) := by
  cases name with
  | checkImport =>
      rw [checkLeafOf]
      cases attrs.lookup .importName <;> cases isEmpty <;> rfl
  | _ => exact (Bool.and_false isEmpty).symm

mutual

/-- What is read of a node says what is lost. -/
theorem checkNodeEntry_loses (oper : Option XccdfBoolOperator) (next : Option String) :
    ∀ x : XccdfNode, (checkNodeEntry oper x next).2 = checkLosesNext oper x
  | .text value => by rw [checkNodeEntry, checkLosesNext]
  | .empty name attrs => by
      rw [checkNodeEntry, checkLosesNext]
      cases isCheck name with
      | true => cases oper <;> rfl
      | false => exact (checkLeaf_loses ..).trans (Bool.true_and _)
  | .elem name attrs nodes => by
      rw [checkNodeEntry, checkLosesNext, ← checkNodesEntries_loses]
      cases isCheck name with
      | true =>
          cases oper with
          | none => rfl
          | some oper => cases hasCheckAttribute attrs <;> rfl
      | false => exact (checkLeaf_loses ..).trans (Bool.false_and _)

/-- What is read of nodes says what is lost. -/
theorem checkNodesEntries_loses (oper : Option XccdfBoolOperator) :
    ∀ (lost : Bool) (nodes : List XccdfNode),
      (checkNodesEntries oper lost nodes).2 = checkLosesEnd oper lost nodes
  | lost, [] => by rw [checkNodesEntries, checkLosesEnd]
  | true, x :: xs => by
      rw [checkNodesEntries, checkLosesEnd]
      exact checkNodesEntries_loses oper false xs
  | false, x :: xs => by
      rw [checkNodesEntries, checkLosesEnd, ← checkNodeEntry_loses oper (firstText xs) x]
      exact checkNodesEntries_loses oper _ xs

end

/-- A node is read as one with a record if it has one. -/
theorem checkNodeEntry_isSome (oper : Option XccdfBoolOperator) (x : XccdfNode)
    (next : Option String) :
    (checkNodeEntry oper x next).1.isSome = (checkNodeRecord oper x).isSome := by
  rcases x with value | ⟨name, attrs⟩ | ⟨name, attrs, nodes⟩
  · rw [checkNodeEntry, checkNodeRecord]
  · rw [checkNodeEntry, checkNodeRecord]
    cases isCheck name with
    | true => cases oper <;> rfl
    | false => exact (checkLeaf_record (fun _ => rfl) next).1
  · rw [checkNodeEntry, checkNodeRecord]
    cases isCheck name with
    | true =>
        cases oper with
        | none => rfl
        | some oper => cases hasCheckAttribute attrs <;> rfl
    | false => exact (checkLeaf_record (fun h => absurd h (by simp)) next).1

/-- Nodes are read as their records if the walk comes to all that have records and each is read
well. -/
theorem checkNodesEntries_eq_records_iff {oper : Option XccdfBoolOperator}
    {nodes : List XccdfNode}
    (hnodes : ∀ x ∈ nodes, ∀ next,
      (checkNodeEntry oper x next).1 = checkNodeRecord oper x ↔ checkNodeReadsWell oper x next)
    (lost : Bool) : (checkNodesEntries oper lost nodes).1 = checkRecords oper nodes ↔
      checkNodesReadWell oper lost nodes := by
  have haccounts : Accounts (checkEntryOf oper) (checkNodeRecord oper) (checkNodeReadsWell oper)
      nodes := by
    intro x hx next _
    refine ⟨fun r h => Option.some.inj h ▸ checkNodeEntry_isSome oper x next, ?_⟩
    rw [← hnodes x hx next]
    constructor
    · exact fun h => ⟨_, congrArg some (Prod.ext h rfl)⟩
    · rintro ⟨l, hl⟩
      exact congrArg Prod.fst (Option.some.inj hl)
  have hloses : ∀ x next r, checkEntryOf oper x next = some r → r.2 = checkLosesNext oper x :=
    fun x next r h => Option.some.inj h ▸ checkNodeEntry_loses oper next x
  rw [← recorded_check_iff, ← walk_records_iff hloses haccounts [] lost, walk_checkEntryOf,
    checkRecords_eq, List.nil_append, List.nil_append]
  constructor
  · exact fun h => ⟨_, congrArg some (Prod.ext h rfl)⟩
  · rintro ⟨l, hl⟩
    exact congrArg Prod.fst (Option.some.inj hl)

/-- **A child of a check is read as its record** if and only if it is read well. -/
theorem checkNodeEntry_eq_record_iff (oper : Option XccdfBoolOperator) (next : Option String) :
    ∀ x : XccdfNode, (checkNodeEntry oper x next).1 = checkNodeRecord oper x ↔
      checkNodeReadsWell oper x next
  | .text value => by
      rw [checkNodeEntry, checkNodeRecord, checkNodeReadsWell]
      exact iff_of_true rfl trivial
  | .empty name attrs => by
      rw [checkNodeEntry, checkNodeRecord, checkNodeReadsWell]
      cases hname : isCheck name with
      | true =>
          refine iff_of_true (by cases oper <;> rfl) ?_
          rintro rfl
          exact nomatch hname
      | false =>
          exact (checkLeaf_record (fun _ => rfl) next).2.trans (imp_iff_right rfl)
  | .elem name attrs nodes => by
      rw [checkNodeEntry, checkNodeRecord, checkNodeReadsWell]
      cases isCheck name with
      | true =>
          by_cases hoper : oper = none
          · simp [hoper]
          · have hnodes :=
              @checkNodesEntries_eq_records_iff (checkAttributesOf name attrs).oper nodes
                (fun x _ next => checkNodeEntry_eq_record_iff _ next x) false
            simp only [if_true, ne_eq, hoper, if_false, not_false_eq_true, forall_const]
            cases hasCheckAttribute attrs with
            | true =>
                simp only [if_true, Option.some.injEq, CheckEntry.child.injEq, true_and]
                exact hnodes
            | false =>
                simp only [Bool.false_eq_true, if_false, Option.some.injEq, CheckEntry.child.injEq,
                  true_and]
                exact eq_comm
      | false =>
          exact iff_of_true ((checkLeaf_record (fun h => absurd h (by simp)) next).2.mpr
            fun h => absurd h (by simp)) fun h => absurd h (by simp)
termination_by x => sizeOf x

/-! ### The children of a check -/

/-- **All children of a check are recorded in their order** if and only if it has an attribute
that is looked for, or children without records, and each child that is not read over is read
well, and what is read over has no record. -/
theorem checkRecorded_iff_reads (place : XccdfPlace) {name : XccdfElement}
    (hname : isCheck name = true) (attrs : XccdfAttrs) (content : Option (List XccdfNode)) :
    CheckRecorded place name attrs content ↔
      if hasCheckAttribute attrs then
        checkNodesReadWell (checkAttributesOf name attrs).oper false (content.getD [])
      else checkRecords (checkAttributesOf name attrs).oper (content.getD []) = [] := by
  obtain ⟨isEmpty, hempty, hcheck⟩ := Xml.ofContent_eq name attrs content
  obtain ⟨reader, hsettles⟩ := xccdfCheckParse_settles hempty (depthAt_eventsBehind_le place) hname
    attrs (scopeAt place)
  have hrun : CheckRecorded place name attrs content ↔
      (if hasCheckAttribute attrs then
          (checkNodesEntries (checkAttributesOf name attrs).oper false (content.getD [])).1
        else []) = checkRecords (checkAttributesOf name attrs).oper (content.getD []) := by
    rw [CheckRecorded, readerAt, hcheck]
    constructor
    · rintro ⟨fuel, reader', hrun⟩
      have houtcome := Option.some.inj ((hsettles.iff _).mp ⟨fuel, hrun⟩)
      exact (XccdfCheck.mk.inj (Option.some.inj (Prod.mk.inj houtcome).1)).2
    · intro h
      rw [h] at hsettles
      obtain ⟨fuel, hrun⟩ := (hsettles.iff _).mpr rfl
      exact ⟨fuel, reader, hrun⟩
  rw [hrun]
  cases hasCheckAttribute attrs with
  | true =>
      exact checkNodesEntries_eq_records_iff
        (fun x _ next => checkNodeEntry_eq_record_iff _ next x) false
  | false => exact eq_comm

/-! ### No sibling is lost -/

end OpenScap.XccdfXml
