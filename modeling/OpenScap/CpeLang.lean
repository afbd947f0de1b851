import OpenScap.AssertedRun
import OpenScap.CpeName
import OpenScap.XmlEvents

/-!
# CPE applicability language

A platform is described by an expression: references to facts and to checks, joined by logical
tests. `cpe_testexpr_export` writes an expression as an element, `cpe_testexpr_parse` reads one
from where the reader is. The parser goes on to the next node and takes the depth that it finds
there for that of its subexpressions; it ends where the reader is less deep.

The parser may not end: a logical test without a known operator is not passed over. Its runs are
bounded, and only results within some bound count.

## Main results

* `cpeTestexprParse_extends` — a higher bound changes no result;
* `cpeTestexprParse_yields` — the loop over the subexpressions only adds subexpressions, and the
  reader only goes forward;
* `gathers_test`, `gathers_fact`, `gathers_checkFact`, `gathers_finish`, `gathers_stop` — what the
  loop does at each event.
-/

open XmlEvents AssertedRun

namespace OpenScap

/-! ### Elements -/

/-- The names of the elements. -/
inductive CpeLangTag
  | platformSpecification
  | platform
  | title
  | logicalTest
  | factRef
  | checkFactRef
  | other (name : List UInt8)
  deriving DecidableEq

/-- The names of the attributes. -/
inductive CpeLangAttr
  | id
  | lang
  | name
  | operator
  | negate
  | system
  | href
  | idRef
  | other (name : List UInt8)
  deriving DecidableEq

/-- An element tree of the language. -/
abbrev CpeLangXml := Xml CpeLangTag CpeLangAttr (List UInt8)

/-- The attributes of elements. -/
abbrev CpeLangAttrs := List (CpeLangAttr × List UInt8)

/-- What is known at the start of an element but for its name and attributes. -/
abbrev CpeLangContent := Content CpeLangTag CpeLangAttr (List UInt8)

/-- What is still to be read, with the current node in front. -/
abbrev CpeLangReader := List (Event CpeLangTag CpeLangAttr (List UInt8))

/-- `xmlTextReaderGetAttribute`. -/
def xmlTextReaderGetAttribute (reader : CpeLangReader) (attr : CpeLangAttr) :
    Option (List UInt8) :=
  match reader with
  | .start _ _ attrs _ :: _ => attrs.lookup attr
  | _ => none

/-! ### Expressions -/

/-- The operators of logical tests, as `cpe_lang_oper_t` has them. -/
inductive CpeLangOper
  | and
  | or
  | nand
  | nor
  deriving DecidableEq

/-- `struct cpe_testexpr *`, as the parser may leave it. -/
inductive CpeTestexpr
  | null
  | invalid
  | fact (cpe : Option CpeName)
  | check (system href id : Option (List UInt8))
  | logical (oper : CpeLangOper) (expr : List CpeTestexpr)

/-- An expression that can be exported: every reference to a fact has a name. -/
inductive PlatformExpr
  | fact (cpe : CpeName)
  | check (system href id : Option (List UInt8))
  | logical (oper : CpeLangOper) (expr : List PlatformExpr)

mutual

/-- An expression as the parser has it. -/
def PlatformExpr.testexpr : PlatformExpr → CpeTestexpr
  | .fact cpe => .fact (some cpe)
  | .check system href id => .check system href id
  | .logical oper expr => .logical oper (testexprs expr)

/-- Expressions as the parser has them. -/
def testexprs : List PlatformExpr → List CpeTestexpr
  | [] => []
  | e :: es => e.testexpr :: testexprs es

end

/-! ### Export -/

/-- `cpe_name_get_as_str`. -/
def cpeNameGetAsStr (cpe : CpeName) : Option (List UInt8) := cpeNameGetAsFormat cpe cpe.format

/-- `VAL_AND_STR`, `VAL_OR_STR`. -/
def andStr : List UInt8 := bytes ['A', 'N', 'D']
def orStr : List UInt8 := bytes ['O', 'R']

/-- `VAL_TRUE_STR`, `VAL_FALSE_STR`. -/
def trueStr : List UInt8 := bytes ['t', 'r', 'u', 'e']
def falseStr : List UInt8 := bytes ['f', 'a', 'l', 's', 'e']

/-- The attributes written for an operator. -/
def operAttrs : CpeLangOper → List (CpeLangAttr × List UInt8)
  | .and => [(.operator, andStr), (.negate, falseStr)]
  | .or => [(.operator, orStr), (.negate, falseStr)]
  | .nor => [(.operator, orStr), (.negate, trueStr)]
  | .nand => [(.operator, andStr), (.negate, trueStr)]

mutual

/-- `cpe_testexpr_export`. The value of an attribute is empty where there is no string for it. -/
def cpeTestexprExport : PlatformExpr → CpeLangXml
  | .fact cpe => .written .factRef [(.name, (cpeNameGetAsStr cpe).getD [])] []
  | .check system href id =>
      .written .checkFactRef
        [(.system, system.getD []), (.href, href.getD []), (.idRef, id.getD [])] []
  | .logical oper expr => .written .logicalTest (operAttrs oper) (testexprsExport expr)

/-- The export of subexpressions, one after another. -/
def testexprsExport : List PlatformExpr → List CpeLangXml
  | [] => []
  | e :: es => cpeTestexprExport e :: testexprsExport es

end

/-- `struct cpe_platform`. It may have no expression. -/
structure CpePlatform where
  id : Option (List UInt8)
  titles : List (Option (List UInt8) × List UInt8)
  expr : Option PlatformExpr

/-- `oscap_text_export` of a title with its language. -/
def titleExport (title : Option (List UInt8) × List UInt8) : CpeLangXml :=
  .written .title (title.1.toList.map (.lang, ·)) (if title.2 = [] then [] else [.text title.2])

/-- `cpe_platform_export`. -/
def cpePlatformExport (platform : CpePlatform) : CpeLangXml :=
  .written .platform (platform.id.toList.map (.id, ·))
    (platform.titles.map titleExport ++ platform.expr.toList.map cpeTestexprExport)

/-! ### The parser -/

/-- `xmlStrcasecmp` finds the text, which may be missing, equal to a string. -/
def equalsIgnoringCase (text : Option (List UInt8)) (str : List UInt8) : Bool :=
  text.any fun text => strcasecmp text str = 0

/-- The operator of the logical test that the reader is at, if it is known. -/
def readOper (reader : CpeLangReader) : Option CpeLangOper :=
  let negated := equalsIgnoringCase (xmlTextReaderGetAttribute reader .negate) trueStr
  if equalsIgnoringCase (xmlTextReaderGetAttribute reader .operator) andStr then
    some (if negated then .nand else .and)
  else if equalsIgnoringCase (xmlTextReaderGetAttribute reader .operator) orStr then
    some (if negated then .nor else .or)
  else none

/-- The reference to a fact that the reader is at. -/
def readFact (reader : CpeLangReader) : CpeTestexpr :=
  .fact (cpeNameNew (xmlTextReaderGetAttribute reader .name))

/-- The reference to a check that the reader is at. -/
def readCheck (reader : CpeLangReader) : CpeTestexpr :=
  .check (xmlTextReaderGetAttribute reader .system) (xmlTextReaderGetAttribute reader .href)
    (xmlTextReaderGetAttribute reader .idRef)

/-- What is known of an expression before the reader goes on: it is complete, or a list of
subexpressions follows. Only logical tests have such a list. -/
inductive TestexprHead
  | complete (expr : CpeTestexpr)
  | logical (oper : CpeLangOper)
  | invalid

/-- The expression that the reader is at, without its subexpressions. -/
def readHead (reader : CpeLangReader) : TestexprHead :=
  match reader with
  | .start _ .factRef _ _ :: _ => .complete (readFact reader)
  | .start _ .checkFactRef _ _ :: _ => .complete (readCheck reader)
  | .start _ .logicalTest _ _ :: _ =>
      match readOper reader with
      | none => .complete .null
      | some oper => .logical oper
  | _ => .invalid

/-- `oscap_list_add` of a subexpression, to a list that must be there. -/
def addSubexpr (exprs : Option (List CpeTestexpr)) (expr : CpeTestexpr) :
    Except Stop (Option (List CpeTestexpr)) :=
  match exprs with
  | none => .error .assertion
  | some exprs => .ok (some (exprs ++ [expr]))

mutual

/-- `cpe_testexpr_parse`, within a bound. -/
def cpeTestexprParse : ℕ → CpeLangReader → Except Stop (CpeTestexpr × CpeLangReader)
  | 0, _ => .error .depth
  | fuel + 1, reader =>
      match readHead reader with
      | .complete expr => .ok (expr, reader)
      | .logical oper => do
          let (exprs, rest) ← testexprLoop fuel (depthAt reader.tail) (some []) reader.tail
          pure (.logical oper (exprs.getD []), rest)
      | .invalid => do
          let (_, rest) ← testexprLoop fuel (depthAt reader.tail) none reader.tail
          pure (.invalid, rest)

/-- The loop over the nodes at a depth and below. -/
def testexprLoop : ℕ → ℕ → Option (List CpeTestexpr) → CpeLangReader →
    Except Stop (Option (List CpeTestexpr) × CpeLangReader)
  | 0, _, _, _ => .error .depth
  | fuel + 1, depth, exprs, reader =>
      if depthAt reader < depth then .ok (exprs, reader)
      else
        match reader with
        | .start _ .logicalTest _ _ :: _ => do
            let (expr, behind) ← cpeTestexprParse fuel reader
            let exprs ← addSubexpr exprs expr
            if depthAt behind < depth then .ok (exprs, behind)
            else if depthAt behind = depth then testexprLoop fuel depth exprs behind
            else testexprLoop fuel depth exprs behind.tail
        | .start _ .factRef _ _ :: _ => do
            let exprs ← addSubexpr exprs (readFact reader)
            testexprLoop fuel depth exprs reader.tail
        | .start _ .checkFactRef _ _ :: _ => do
            let exprs ← addSubexpr exprs (readCheck reader)
            testexprLoop fuel depth exprs reader.tail
        | _ => testexprLoop fuel depth exprs reader.tail

end

/-! ### Bounds -/

/-- **A higher bound changes no result**, of the parser and of its loop. -/
theorem cpeTestexprParse_extends (fuel : ℕ) :
    (∀ reader, Extends (cpeTestexprParse fuel reader) (cpeTestexprParse (fuel + 1) reader)) ∧
      ∀ depth exprs reader, Extends (testexprLoop fuel depth exprs reader)
        (testexprLoop (fuel + 1) depth exprs reader) := by
  induction fuel with
  | zero =>
      refine ⟨fun reader => ?_, fun depth exprs reader => ?_⟩
      · rw [cpeTestexprParse]
        exact Extends.error _
      · rw [testexprLoop]
        exact Extends.error _
  | succ fuel ih =>
      obtain ⟨ihParse, ihLoop⟩ := ih
      refine ⟨fun reader => ?_, fun depth exprs reader => ?_⟩
      · rw [cpeTestexprParse, cpeTestexprParse]
        split
        · exact Extends.refl _
        · exact (ihLoop _ _ _).bind fun _ => Extends.refl _
        · exact (ihLoop _ _ _).bind fun _ => Extends.refl _
      · rw [testexprLoop.eq_def, testexprLoop.eq_def]
        dsimp only
        split
        · exact Extends.refl _
        · split
          · refine (ihParse _).bind fun _ => (Extends.refl _).bind fun _ => ?_
            split
            · exact Extends.refl _
            · split
              · exact ihLoop _ _ _
              · exact ihLoop _ _ _
          · exact (Extends.refl _).bind fun _ => ihLoop _ _ _
          · exact (Extends.refl _).bind fun _ => ihLoop _ _ _
          · exact ihLoop _ _ _

/-- A subexpression is added behind the others. -/
theorem addSubexpr_yields (exprs : Option (List CpeTestexpr)) (expr : CpeTestexpr) :
    Yields (fun exprs' => exprs' = exprs.map (· ++ [expr])) (addSubexpr exprs expr) := by
  cases exprs with
  | none => exact Yields.error _
  | some exprs => exact Yields.ok rfl

/-- The reader only goes forward, and the loop only adds subexpressions. -/
theorem cpeTestexprParse_yields (fuel : ℕ) :
    (∀ reader, Yields (fun result => result.2 <:+ reader) (cpeTestexprParse fuel reader)) ∧
      ∀ depth exprs reader, Yields
        (fun result => result.2 <:+ reader ∧ ∃ more, result.1 = exprs.map (· ++ more))
        (testexprLoop fuel depth exprs reader) := by
  induction fuel with
  | zero =>
      refine ⟨fun reader => ?_, fun depth exprs reader => ?_⟩
      · rw [cpeTestexprParse]
        exact Yields.error _
      · rw [testexprLoop]
        exact Yields.error _
  | succ fuel ih =>
      obtain ⟨ihParse, ihLoop⟩ := ih
      -- what the rest of the loop adds comes behind what was added before it
      have hloop : ∀ depth (exprs : Option (List CpeTestexpr)) added reader front,
          reader <:+ front → Yields
          (fun result => result.2 <:+ front ∧ ∃ more, result.1 = exprs.map (· ++ more))
          (testexprLoop fuel depth (exprs.map (· ++ added)) reader) := by
        intro depth exprs added reader front hsuffix result hrun
        obtain ⟨hreader, more, hmore⟩ := ihLoop _ _ _ result hrun
        refine ⟨hreader.trans hsuffix, added ++ more, ?_⟩
        rw [hmore, Option.map_map]
        exact Option.map_congr fun es _ => List.append_assoc es added more
      refine ⟨fun reader => ?_, fun depth exprs reader => ?_⟩
      · rw [cpeTestexprParse]
        split
        · exact Yields.ok List.suffix_rfl
        · exact (ihLoop _ _ _).bind fun result h =>
            Yields.ok (h.1.trans (List.tail_suffix reader))
        · exact (ihLoop _ _ _).bind fun result h =>
            Yields.ok (h.1.trans (List.tail_suffix reader))
      · have hsame : exprs = exprs.map (· ++ []) := by simp
        rw [testexprLoop.eq_def]
        dsimp only
        split
        · exact Yields.ok ⟨List.suffix_rfl, [], hsame⟩
        · split
          · refine (ihParse _).bind fun result hsuffix =>
              (addSubexpr_yields exprs result.1).bind fun exprs' hexprs => ?_
            subst hexprs
            split
            · exact Yields.ok ⟨hsuffix, _, rfl⟩
            · split
              · exact hloop _ _ _ _ _ hsuffix
              · exact hloop _ _ _ _ _ ((List.tail_suffix _).trans hsuffix)
          · refine (addSubexpr_yields exprs _).bind fun exprs' hexprs => ?_
            subst hexprs
            exact hloop _ _ _ _ _ (List.tail_suffix _)
          · refine (addSubexpr_yields exprs _).bind fun exprs' hexprs => ?_
            subst hexprs
            exact hloop _ _ _ _ _ (List.tail_suffix _)
          · have hrest := hloop depth exprs [] _ reader (List.tail_suffix reader)
            rwa [← hsame] at hrest

/-- The parser gives an expression and leaves the reader where it stops. -/
def Parses (reader : CpeLangReader) (expr : CpeTestexpr) (behind : CpeLangReader) : Prop :=
  ∃ fuel, cpeTestexprParse fuel reader = .ok (expr, behind)

/-- The loop of a logical test gives a list of subexpressions and leaves the reader where it
stops. -/
def Gathers (depth : ℕ) (exprs : List CpeTestexpr) (reader : CpeLangReader)
    (exprs' : List CpeTestexpr) (behind : CpeLangReader) : Prop :=
  ∃ fuel, testexprLoop fuel depth (some exprs) reader = .ok (some exprs', behind)

/-- There is one result at most. -/
theorem Parses.unique {reader behind behind' : CpeLangReader} {expr expr' : CpeTestexpr}
    (h : Parses reader expr behind) (h' : Parses reader expr' behind') :
    expr = expr' ∧ behind = behind' := by
  obtain ⟨n, h⟩ := h
  obtain ⟨m, h'⟩ := h'
  have hn := Extends.mono (fun fuel => (cpeTestexprParse_extends fuel).1 reader)
    (Nat.le_max_left n m) _ h
  have hm := Extends.mono (fun fuel => (cpeTestexprParse_extends fuel).1 reader)
    (Nat.le_max_right n m) _ h'
  rw [hn] at hm
  exact Prod.mk.inj (Except.ok.inj hm)

/-- The loop only adds subexpressions, and the reader only goes forward. -/
theorem Gathers.spec {depth : ℕ} {exprs exprs' : List CpeTestexpr} {reader behind : CpeLangReader}
    (h : Gathers depth exprs reader exprs' behind) : behind <:+ reader ∧ exprs <+: exprs' := by
  obtain ⟨fuel, h⟩ := h
  obtain ⟨hsuffix, more, hmore⟩ := (cpeTestexprParse_yields fuel).2 _ _ _ _ h
  exact ⟨hsuffix, more, (Option.some.inj hmore).symm⟩

/-! ### The steps of the loop -/

/-- The loop takes a step or stops. -/
theorem gathers_iff {depth : ℕ} {exprs exprs' : List CpeTestexpr}
    {reader behind : CpeLangReader} : Gathers depth exprs reader exprs' behind ↔
      ∃ fuel, testexprLoop (fuel + 1) depth (some exprs) reader = .ok (some exprs', behind) := by
  constructor
  · rintro ⟨fuel, h⟩
    exact ⟨fuel, (cpeTestexprParse_extends fuel).2 _ _ _ _ h⟩
  · rintro ⟨fuel, h⟩
    exact ⟨fuel + 1, h⟩

/-- It stops where the reader is less deep. -/
theorem gathers_stop {depth : ℕ} {exprs exprs' : List CpeTestexpr}
    {reader behind : CpeLangReader} (h : depthAt reader < depth) :
    Gathers depth exprs reader exprs' behind ↔ exprs' = exprs ∧ behind = reader := by
  simp only [gathers_iff, testexprLoop, if_pos h, Except.ok.injEq, Prod.mk.injEq,
    Option.some.injEq, exists_const]
  exact and_congr eq_comm eq_comm

/-- It adds the reference to a fact. -/
theorem gathers_fact {depth d : ℕ} {exprs exprs' : List CpeTestexpr}
    {attrs : CpeLangAttrs} {content : CpeLangContent}
    {reader behind : CpeLangReader} (h : depth ≤ d) :
    Gathers depth exprs (.start d .factRef attrs content :: reader) exprs' behind ↔
      Gathers depth (exprs ++ [.fact (cpeNameNew (attrs.lookup .name))]) reader exprs' behind := by
  have hge : ¬ depthAt (Event.start d CpeLangTag.factRef attrs content :: reader) <
      depth := Nat.not_lt.mpr h
  rw [gathers_iff]
  simp only [testexprLoop, if_neg hge]
  rfl

/-- It adds the reference to a check. -/
theorem gathers_checkFact {depth d : ℕ} {exprs exprs' : List CpeTestexpr}
    {attrs : CpeLangAttrs} {content : CpeLangContent}
    {reader behind : CpeLangReader} (h : depth ≤ d) :
    Gathers depth exprs (.start d .checkFactRef attrs content :: reader) exprs' behind ↔
      Gathers depth
        (exprs ++ [.check (attrs.lookup .system) (attrs.lookup .href) (attrs.lookup .idRef)])
        reader exprs' behind := by
  have hge : ¬ depthAt (Event.start d CpeLangTag.checkFactRef attrs content :: reader) <
      depth := Nat.not_lt.mpr h
  rw [gathers_iff]
  simp only [testexprLoop, if_neg hge]
  rfl

/-- It goes on from the end of an element. -/
theorem gathers_finish {depth d : ℕ} {exprs exprs' : List CpeTestexpr} {tag : CpeLangTag}
    {reader behind : CpeLangReader} (h : depth ≤ d) :
    Gathers depth exprs (.finish d tag :: reader) exprs' behind ↔
      Gathers depth exprs reader exprs' behind := by
  have hge : ¬ depthAt (Event.finish d tag :: reader) < depth := Nat.not_lt.mpr h
  rw [gathers_iff]
  simp only [testexprLoop, if_neg hge]
  rfl

/-- It goes on from the start of a platform. -/
theorem gathers_platform {depth d : ℕ} {exprs exprs' : List CpeTestexpr}
    {attrs : CpeLangAttrs} {content : CpeLangContent}
    {reader behind : CpeLangReader} (h : depth ≤ d) :
    Gathers depth exprs (.start d .platform attrs content :: reader) exprs' behind ↔
      Gathers depth exprs reader exprs' behind := by
  have hge : ¬ depthAt (Event.start d CpeLangTag.platform attrs content :: reader) < depth :=
    Nat.not_lt.mpr h
  rw [gathers_iff]
  simp only [testexprLoop, if_neg hge]
  rfl

/-- It adds what the parser makes of a logical test, and goes on from where that left the
reader: at the same depth it looks at the node there, and deeper at the next one. -/
theorem gathers_test {depth d : ℕ} {exprs exprs' : List CpeTestexpr}
    {attrs : CpeLangAttrs} {content : CpeLangContent}
    {reader behind : CpeLangReader} (h : depth ≤ d) :
    Gathers depth exprs (.start d .logicalTest attrs content :: reader) exprs' behind ↔
      ∃ expr reader', Parses (.start d .logicalTest attrs content :: reader) expr reader' ∧
        Gathers depth (exprs ++ [expr])
          (if depth < depthAt reader' then reader'.tail else reader') exprs' behind := by
  have hge : ¬ depthAt (Event.start d CpeLangTag.logicalTest attrs content :: reader) <
      depth := Nat.not_lt.mpr h
  rw [gathers_iff]
  constructor
  · rintro ⟨fuel, hrun⟩
    simp only [testexprLoop, if_neg hge] at hrun
    cases hparse : cpeTestexprParse fuel (.start d .logicalTest attrs content :: reader) with
    | error stop =>
        rw [hparse] at hrun
        exact nomatch hrun
    | ok result =>
        obtain ⟨expr, reader'⟩ := result
        rw [hparse] at hrun
        refine ⟨expr, reader', ⟨fuel, hparse⟩, ?_⟩
        change (if depthAt reader' < depth then _ else _) = _ at hrun
        rcases Nat.lt_trichotomy (depthAt reader') depth with hlt | heq | hgt
        · rw [if_pos hlt] at hrun
          obtain ⟨hexprs, rfl⟩ := Prod.mk.inj (Except.ok.inj hrun)
          rw [if_neg (by omega), gathers_stop hlt]
          exact ⟨(Option.some.inj hexprs).symm, rfl⟩
        · rw [if_neg (by omega), if_pos heq] at hrun
          rw [if_neg (by omega)]
          exact ⟨fuel, hrun⟩
        · rw [if_neg (Nat.lt_asymm hgt), if_neg (Nat.ne_of_gt hgt)] at hrun
          rw [if_pos hgt]
          exact ⟨fuel, hrun⟩
  · rintro ⟨expr, reader', ⟨n, hparse⟩, ⟨m, hloop⟩⟩
    have hparse := Extends.mono (fun fuel => (cpeTestexprParse_extends fuel).1 _)
      (Nat.le_max_left n m) _ hparse
    have hloop := Extends.mono (fun fuel => (cpeTestexprParse_extends fuel).2 _ _ _)
      (Nat.le_max_right n m) _ hloop
    refine ⟨max n m, ?_⟩
    simp only [testexprLoop, if_neg hge]
    rw [hparse]
    change (if depthAt reader' < depth then _ else _) = _
    rcases Nat.lt_trichotomy (depthAt reader') depth with hlt | heq | hgt
    · rw [if_neg (by omega)] at hloop
      have hstop := (gathers_stop hlt).mp ⟨_, hloop⟩
      rw [if_pos hlt, hstop.1, hstop.2]
    · rw [if_neg (by omega)] at hloop
      rw [if_neg (by omega), if_pos heq]
      exact hloop
    · rw [if_pos hgt] at hloop
      rw [if_neg (Nat.lt_asymm hgt), if_neg (Nat.ne_of_gt hgt)]
      exact hloop

/-! ### The steps of the parser -/

/-- A reference is complete where it is met. -/
theorem parses_complete {reader behind : CpeLangReader} {expr expr' : CpeTestexpr}
    (h : readHead reader = .complete expr) :
    Parses reader expr' behind ↔ expr' = expr ∧ behind = reader := by
  constructor
  · rintro ⟨fuel, hrun⟩
    cases fuel with
    | zero => exact nomatch hrun
    | succ fuel =>
        simp only [cpeTestexprParse, h, Except.ok.injEq, Prod.mk.injEq] at hrun
        exact ⟨hrun.1.symm, hrun.2.symm⟩
  · rintro ⟨rfl, rfl⟩
    exact ⟨1, by simp only [cpeTestexprParse, h]⟩

/-- A logical test has what the loop gathers, at the depth of the next node. -/
theorem parses_logical {reader behind : CpeLangReader} {expr : CpeTestexpr} {oper : CpeLangOper}
    (h : readHead reader = .logical oper) :
    Parses reader expr behind ↔ ∃ exprs, expr = .logical oper exprs ∧
      Gathers (depthAt reader.tail) [] reader.tail exprs behind := by
  constructor
  · rintro ⟨fuel, hrun⟩
    cases fuel with
    | zero => exact nomatch hrun
    | succ fuel =>
        simp only [cpeTestexprParse, h] at hrun
        cases hloop : testexprLoop fuel (depthAt reader.tail) (some []) reader.tail with
        | error stop =>
            rw [hloop] at hrun
            exact nomatch hrun
        | ok result =>
            obtain ⟨exprs, rest⟩ := result
            rw [hloop] at hrun
            obtain ⟨rfl, rfl⟩ := Prod.mk.inj (Except.ok.inj hrun)
            obtain ⟨-, more, rfl⟩ := (cpeTestexprParse_yields fuel).2 _ _ _ _ hloop
            exact ⟨[] ++ more, rfl, fuel, hloop⟩
  · rintro ⟨exprs, rfl, fuel, hloop⟩
    refine ⟨fuel + 1, ?_⟩
    simp only [cpeTestexprParse, h]
    rw [hloop]
    rfl

end OpenScap
