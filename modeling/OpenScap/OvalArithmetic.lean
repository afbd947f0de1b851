import Mathlib.Data.List.Sections
import Mathlib.Data.Multiset.Sections
import OpenScap.OvalTimedif

/-!
# The arithmetic function

The evaluation of `arithmetic`: all choices of one value from every component are added or
multiplied, the last component first. The loops over the values of a component are nested by a
recursion whose flag is not looked at, and the flags of the components are not looked at either.

The arithmetic of `double`, and how numbers are read and printed, are left open.

## Main results

* `arithmeticRec_flag`, `arithmeticRec_values` — what the recursion returns and adds;
* `arithmeticRoot_flag_iff` — when the flag is the error flag;
* `arithmetic_correct_iff` — when all choices are there and no value that is not a number is
  passed over.
-/

namespace OpenScap.Arithmetic

/-! ### Numbers -/

/-- The arithmetic of `double`: values as `double`, the two operations, and what
`snprintf` prints of a number, by `%ld` after a conversion and by `%f`. -/
structure DoubleArithmetic (D : Type) where
  ofInteger : List UInt8 → D
  ofFloat : List UInt8 → D
  add : D → D → D
  mul : D → D → D
  printLd : D → List UInt8
  printF : D → List UInt8

/-- `oval_arithmetic_operation_t`. -/
inductive OvalArithmeticOperation
  | unknown
  | add
  | multiply
  | subtract
  | divide
  deriving DecidableEq, Repr

/-- The operations that the function knows. -/
def OvalArithmeticOperation.known (op : OvalArithmeticOperation) : Bool :=
  op = .add || op = .multiply

section Arithmetic

variable {D : Type} (C : DoubleArithmetic D)

/-- The number that a value is read as, unless its datatype is another one. -/
def numberOf (ov : ComponentValue) : Option D :=
  match ov.datatype with
  | .integer => some (C.ofInteger ov.text)
  | .float => some (C.ofFloat ov.text)
  | _ => none

/-- `new_val += val` or `new_val *= val`. -/
def operate (op : OvalArithmeticOperation) (newVal val : D) : D :=
  if op = .add then C.add newVal val else C.mul newVal val

/-- The value that is made of a number. -/
def resultValue (val : D) (datatype : OvalDatatype) : ComponentValue :=
  ⟨datatype, if datatype = .integer then C.printLd val else C.printF val⟩

/-! ### The evaluation -/

/-- The loop of `_oval_component_evaluate_ARITHMETIC_rec` over the values of a component; what
the call that it makes for each returns is not looked at. -/
def arithmeticLoop (op : OvalArithmeticOperation) (val : D) (datatype : OvalDatatype)
    (rec : D → OvalDatatype → List ComponentValue → SyscharFlag × List ComponentValue) :
    List ComponentValue → List ComponentValue → SyscharFlag × List ComponentValue
  | [], resValCol => (.complete, resValCol)
  | ov :: ovs, resValCol =>
      match numberOf C ov with
      | none => (.error, resValCol)
      | some newVal =>
          if op.known then
            let dt := if datatype = .float then .float else ov.datatype
            arithmeticLoop op val datatype rec ovs (rec (operate C op newVal val) dt resValCol).2
          else (.error, resValCol)

/-- `_oval_component_evaluate_ARITHMETIC_rec`. -/
def arithmeticRec (op : OvalArithmeticOperation) :
    List (List ComponentValue) → D → OvalDatatype → List ComponentValue →
      SyscharFlag × List ComponentValue
  | [], val, datatype, resValCol => (.complete, resValCol ++ [resultValue C val datatype])
  | valCol :: next, val, datatype, resValCol =>
      arithmeticLoop C op val datatype (arithmeticRec op next) valCol resValCol

/-- The loop of `_oval_component_evaluate_ARITHMETIC` over the values of the last component. -/
def arithmeticRoot (op : OvalArithmeticOperation) (next : List (List ComponentValue)) :
    List ComponentValue → SyscharFlag → List ComponentValue →
      SyscharFlag × List ComponentValue
  | [], flag, valueCollection => (flag, valueCollection)
  | ov :: ovs, _, valueCollection =>
      match numberOf C ov with
      | none => (.error, valueCollection)
      | some val =>
          let (flag, valueCollection) := arithmeticRec C op next val ov.datatype valueCollection
          arithmeticRoot op next ovs flag valueCollection

/-- A component of a variable: an arithmetic function, or one given by what its evaluation
returns and collects. -/
inductive OvalComponent
  | other (flag : SyscharFlag) (values : List ComponentValue)
  | arithmetic (op : OvalArithmeticOperation) (components : List OvalComponent)

mutual

/-- `oval_component_eval_common`, and `_oval_component_evaluate_ARITHMETIC`; there is no result
where a null pointer is followed. -/
def OvalComponent.eval : OvalComponent → Option (SyscharFlag × List ComponentValue)
  | .other flag values => some (flag, values)
  | .arithmetic op components =>
      if op.known then do
        let valCols ← evalComponents components
        match valCols.reverse with
        | [] => none
        | (flag, root) :: next => some (arithmeticRoot C op (next.map Prod.snd) root flag [])
      else some (.error, [])

/-- The loop over the components. -/
def evalComponents : List OvalComponent → Option (List (SyscharFlag × List ComponentValue))
  | [] => some []
  | component :: components => do
      let valCol ← component.eval
      let valCols ← evalComponents components
      return valCol :: valCols

end

/-! ### The results of the choices -/

/-- What is made of a choice of values, the first one last: the number so far goes through all
of them. -/
def combineFrom (op : OvalArithmeticOperation) :
    D → OvalDatatype → List ComponentValue → Option ComponentValue
  | val, datatype, [] => some (resultValue C val datatype)
  | val, datatype, ov :: ovs => do
      let newVal ← numberOf C ov
      combineFrom op (operate C op newVal val)
        (if datatype = .float then .float else ov.datatype) ovs

/-- The sum or product of a choice of values; there is none if one is not a number. -/
def combine (op : OvalArithmeticOperation) : List ComponentValue → Option ComponentValue
  | [] => none
  | ov :: ovs => do
      let val ← numberOf C ov
      combineFrom C op val ov.datatype ovs

variable {C} {op : OvalArithmeticOperation}

/-- The choices when a component has one value more. -/
theorem sections_cons_cons_perm {α : Type*} (x : α) (xs : List α) (ls : List (List α)) :
    (List.sections ((x :: xs) :: ls)).Perm
      ((List.sections ls).map (x :: ·) ++ List.sections (xs :: ls)) := by
  have hsplit : List.sections ((x :: xs) :: ls) =
      (List.sections ls).flatMap fun s => [x :: s] ++ xs.map (· :: s) := by
    simp [List.sections]
  have hfirst : (List.sections ls).flatMap (fun s => [x :: s]) =
      (List.sections ls).map (x :: ·) := by
    rw [List.map_eq_flatMap]
  rw [hsplit, ← hfirst]
  exact (List.flatMap_append_perm _ _ _).symm

/-- There is no choice when a component has no value. -/
theorem sections_eq_nil_of_mem {α : Type*} {ls : List (List α)} (h : [] ∈ ls) :
    List.sections ls = [] := by
  induction ls with
  | nil => cases h
  | cons l ls ih =>
      rw [List.sections]
      rcases List.mem_cons.mp h with rfl | hrest
      · simp
      · rw [ih hrest, List.flatMap_nil]

/-- Where every component has a value there is a choice. -/
theorem exists_mem_sections {α : Type*} {ls : List (List α)} (h : [] ∉ ls) :
    ∃ choice, choice ∈ ls.sections := by
  induction ls with
  | nil => exact ⟨[], List.mem_cons_self⟩
  | cons l ls ih =>
      rw [List.mem_cons, not_or] at h
      obtain ⟨x, hx⟩ := List.exists_mem_of_ne_nil l (Ne.symm h.1)
      obtain ⟨choice, hchoice⟩ := ih h.2
      exact ⟨x :: choice, List.mem_sections.mpr (.cons hx (List.mem_sections.mp hchoice))⟩

/-- Every value is part of a choice then. -/
theorem exists_section_of_mem {α : Type*} {ls : List (List α)} (h : [] ∉ ls) {l : List α}
    (hl : l ∈ ls) {x : α} (hx : x ∈ l) : ∃ choice ∈ ls.sections, x ∈ choice := by
  induction ls with
  | nil => cases hl
  | cons m ls ih =>
      rw [List.mem_cons, not_or] at h
      rcases List.mem_cons.mp hl with rfl | hrest
      · obtain ⟨choice, hchoice⟩ := exists_mem_sections h.2
        exact ⟨x :: choice, List.mem_sections.mpr (.cons hx (List.mem_sections.mp hchoice)),
          List.mem_cons_self⟩
      · obtain ⟨y, hy⟩ := List.exists_mem_of_ne_nil m (Ne.symm h.1)
        obtain ⟨choice, hchoice, hmem⟩ := ih h.2 hrest
        exact ⟨y :: choice, List.mem_sections.mpr (.cons hy (List.mem_sections.mp hchoice)),
          List.mem_cons_of_mem y hmem⟩

/-! ### What the recursion does -/

/-- **The flag of the recursion** tells of the values of one component only. -/
theorem arithmeticRec_flag (hop : op.known = true) (valCol : List ComponentValue)
    (next : List (List ComponentValue)) (val : D) (datatype : OvalDatatype)
    (resValCol : List ComponentValue) :
    (arithmeticRec C op (valCol :: next) val datatype resValCol).1 =
      if ∃ ov ∈ valCol, numberOf C ov = none then .error else .complete := by
  rw [arithmeticRec]
  induction valCol generalizing resValCol with
  | nil => simp [arithmeticLoop]
  | cons ov ovs ih =>
      rw [arithmeticLoop]
      cases hov : numberOf C ov with
      | none => simp [hov]
      | some newVal =>
          simp only [hop, if_true]
          rw [ih]
          simp [hov]

/-- Nothing is added when a component has no value. -/
theorem arithmeticRec_of_mem_nil {next : List (List ComponentValue)} (h : [] ∈ next) (val : D)
    (datatype : OvalDatatype) (resValCol : List ComponentValue) :
    (arithmeticRec C op next val datatype resValCol).2 = resValCol := by
  induction next generalizing val datatype resValCol with
  | nil => cases h
  | cons valCol next ih =>
      rw [arithmeticRec]
      rcases List.mem_cons.mp h with hnil | hnext
      · rw [← hnil, arithmeticLoop]
      · induction valCol with
        | nil => rw [arithmeticLoop]
        | cons ov ovs ihvals =>
            have hrest := ihvals (List.mem_cons_of_mem _ hnext)
            rw [arithmeticLoop]
            cases numberOf C ov with
            | none => rfl
            | some newVal =>
                cases op.known with
                | false => rfl
                | true =>
                    simp only [if_true]
                    rw [ih hnext, hrest]

/-- **What the recursion adds**: the results of all choices, if all values are numbers. -/
theorem arithmeticRec_values (hop : op.known = true) {next : List (List ComponentValue)}
    (hnumbers : ∀ valCol ∈ next, ∀ ov ∈ valCol, numberOf C ov ≠ none) (val : D)
    (datatype : OvalDatatype) (resValCol : List ComponentValue) :
    ∃ added, (arithmeticRec C op next val datatype resValCol).2 = resValCol ++ added ∧
      (added.map some).Perm ((List.sections next).map (combineFrom C op val datatype)) := by
  induction next generalizing val datatype resValCol with
  | nil => exact ⟨[resultValue C val datatype], rfl, .refl _⟩
  | cons valCol next ih =>
      rw [List.forall_mem_cons] at hnumbers
      rw [arithmeticRec]
      obtain ⟨hvals, hnext⟩ := hnumbers
      induction valCol generalizing resValCol with
      | nil =>
          refine ⟨[], by rw [arithmeticLoop, List.append_nil], ?_⟩
          rw [sections_eq_nil_of_mem List.mem_cons_self]
          exact .refl _
      | cons ov ovs ihvals =>
          rw [List.forall_mem_cons] at hvals
          obtain ⟨newVal, hov⟩ := Option.ne_none_iff_exists'.mp hvals.1
          obtain ⟨first, hfirst, hfirstPerm⟩ := ih hnext (operate C op newVal val)
            (if datatype = .float then .float else ov.datatype) resValCol
          obtain ⟨rest, hrest, hrestPerm⟩ := ihvals (resValCol ++ first) hvals.2
          refine ⟨first ++ rest, ?_, ?_⟩
          · rw [arithmeticLoop]
            simp only [hov, hop, if_true]
            rw [hfirst, hrest, List.append_assoc]
          · have hcombine : (fun choice => combineFrom C op val datatype (ov :: choice)) =
                combineFrom C op (operate C op newVal val)
                  (if datatype = .float then .float else ov.datatype) := by
              funext choice
              rw [combineFrom, hov]
              rfl
            refine List.Perm.trans ?_ ((sections_cons_cons_perm ov ovs next).map _).symm
            rw [List.map_append, List.map_append, List.map_map]
            refine List.Perm.append ?_ hrestPerm
            rw [← hcombine] at hfirstPerm
            exact hfirstPerm

/-! ### What the function does -/

/-- Nothing is collected when a component has no value. -/
theorem arithmeticRoot_of_mem_nil {root : List ComponentValue}
    {next : List (List ComponentValue)} (h : [] ∈ root :: next) (flag : SyscharFlag)
    (valueCollection : List ComponentValue) :
    (arithmeticRoot C op next root flag valueCollection).2 = valueCollection := by
  rcases List.mem_cons.mp h with hnil | hnext
  · rw [← hnil, arithmeticRoot]
  · clear h
    induction root generalizing flag with
    | nil => rw [arithmeticRoot]
    | cons ov ovs ih =>
        rw [arithmeticRoot]
        cases numberOf C ov with
        | none => rfl
        | some val =>
            simp only
            rw [arithmeticRec_of_mem_nil hnext, ih]

/-- The function collects the results of all choices if all values are numbers. -/
theorem arithmeticRoot_values (hop : op.known = true) {root : List ComponentValue}
    {next : List (List ComponentValue)}
    (hroot : ∀ ov ∈ root, numberOf C ov ≠ none)
    (hnext : ∀ valCol ∈ next, ∀ ov ∈ valCol, numberOf C ov ≠ none) (flag : SyscharFlag)
    (valueCollection : List ComponentValue) :
    ∃ added, (arithmeticRoot C op next root flag valueCollection).2 =
        valueCollection ++ added ∧
      (added.map some).Perm ((List.sections (root :: next)).map (combine C op)) := by
  induction root generalizing flag valueCollection with
  | nil =>
      refine ⟨[], by rw [arithmeticRoot, List.append_nil], ?_⟩
      rw [sections_eq_nil_of_mem List.mem_cons_self]
      exact .refl _
  | cons ov ovs ih =>
      rw [List.forall_mem_cons] at hroot
      obtain ⟨val, hov⟩ := Option.ne_none_iff_exists'.mp hroot.1
      obtain ⟨first, hfirst, hfirstPerm⟩ :=
        arithmeticRec_values hop hnext val ov.datatype valueCollection
      obtain ⟨rest, hrest, hrestPerm⟩ := ih hroot.2
        (arithmeticRec C op next val ov.datatype valueCollection).1 (valueCollection ++ first)
      refine ⟨first ++ rest, ?_, ?_⟩
      · rw [arithmeticRoot]
        simp only [hov]
        rw [hfirst, hrest, List.append_assoc]
      · have hcombine : (fun choice => combine C op (ov :: choice)) =
            combineFrom C op val ov.datatype := by
          funext choice
          rw [combine, hov]
          rfl
        refine List.Perm.trans ?_ ((sections_cons_cons_perm ov ovs next).map _).symm
        rw [List.map_append, List.map_append, List.map_map]
        refine List.Perm.append ?_ hrestPerm
        rw [← hcombine] at hfirstPerm
        exact hfirstPerm

/-- **When the flag is the error flag**: the last component has a value that is not a number,
or, if it has values, the one before it has; or the last component has no value, and this
flag. -/
theorem arithmeticRoot_flag_iff (hop : op.known = true) (root : List ComponentValue)
    (next : List (List ComponentValue)) (flag : SyscharFlag)
    (valueCollection : List ComponentValue) :
    (arithmeticRoot C op next root flag valueCollection).1 = .error ↔
      root = [] ∧ flag = .error ∨ (∃ ov ∈ root, numberOf C ov = none) ∨
        root ≠ [] ∧ ∃ valCol ∈ next.head?, ∃ ov ∈ valCol, numberOf C ov = none := by
  induction root generalizing flag valueCollection with
  | nil => simp [arithmeticRoot]
  | cons ov ovs ih =>
      rw [arithmeticRoot]
      cases hov : numberOf C ov with
      | none => simp [hov]
      | some val =>
          have hflag : (arithmeticRec C op next val ov.datatype valueCollection).1 = .error ↔
              ∃ valCol ∈ next.head?, ∃ ov ∈ valCol, numberOf C ov = none := by
            cases next with
            | nil => simp [arithmeticRec]
            | cons valCol next =>
                rw [arithmeticRec_flag hop]
                by_cases hbad : ∃ ov ∈ valCol, numberOf C ov = none <;> simp [hbad]
          simp only
          rw [ih, hflag]
          cases ovs <;> simp [hov]

/-! ### Whole components -/

variable (C)

mutual

/-- Whether a value that is not a number takes part in a function or in one below it: some
choice has one. -/
def OvalComponent.HasNonNumber : OvalComponent → Prop
  | .other _ _ => False
  | .arithmetic _ components =>
      (∃ valCols, evalComponents C components = some valCols ∧
        ∃ choice ∈ (valCols.map Prod.snd).sections, ∃ ov ∈ choice, numberOf C ov = none) ∨
      SomeHasNonNumber components

/-- The same for one of some components. -/
def SomeHasNonNumber : List OvalComponent → Prop
  | [] => False
  | component :: components => component.HasNonNumber ∨ SomeHasNonNumber components

end

mutual

/-- Whether every function that is evaluated has a component. -/
def OvalComponent.Evaluable : OvalComponent → Prop
  | .other _ _ => True
  | .arithmetic op components =>
      op.known = true → components ≠ [] ∧ AllEvaluable components

/-- The same for some components. -/
def AllEvaluable : List OvalComponent → Prop
  | [] => True
  | component :: components => component.Evaluable ∧ AllEvaluable components

end

/-- As many value lists as components. -/
theorem length_evalComponents {components : List OvalComponent}
    {valCols : List (SyscharFlag × List ComponentValue)}
    (h : evalComponents C components = some valCols) : valCols.length = components.length := by
  induction components generalizing valCols with
  | nil =>
      rw [evalComponents] at h
      obtain rfl := Option.some.inj h
      rfl
  | cons component components ih =>
      rw [evalComponents] at h
      obtain ⟨valCol, -, h⟩ := Option.bind_eq_some_iff.mp h
      obtain ⟨rest, hrest, h⟩ := Option.bind_eq_some_iff.mp h
      obtain rfl := Option.some.inj h
      rw [List.length_cons, List.length_cons, ih hrest]

mutual

/-- A component is evaluated unless a function without components is followed. -/
theorem isSome_eval_iff (component : OvalComponent) :
    (component.eval C).isSome ↔ component.Evaluable := by
  cases component with
  | other flag values => simp [OvalComponent.eval, OvalComponent.Evaluable]
  | arithmetic op components =>
      rw [OvalComponent.eval, OvalComponent.Evaluable, ← isSome_evalComponents_iff components]
      cases hop : op.known with
      | false => simp
      | true =>
          cases hvals : evalComponents C components with
          | none => simp
          | some valCols =>
              have hlength := length_evalComponents C hvals
              simp only [if_true, Option.bind_eq_bind, Option.bind_some, Option.isSome_some,
                and_true, forall_const]
              have hrev : valCols ≠ [] ↔ valCols.reverse ≠ [] := by
                rw [ne_eq, ne_eq, List.reverse_eq_nil_iff]
              rw [← List.length_pos_iff, ← hlength, List.length_pos_iff, hrev]
              cases valCols.reverse <;> simp

/-- So are all components. -/
theorem isSome_evalComponents_iff (components : List OvalComponent) :
    (evalComponents C components).isSome ↔ AllEvaluable components := by
  cases components with
  | nil => simp [evalComponents, AllEvaluable]
  | cons component components =>
      rw [evalComponents, AllEvaluable, ← isSome_eval_iff component,
        ← isSome_evalComponents_iff components]
      cases component.eval C with
      | none => simp
      | some valCol => cases evalComponents C components <;> simp

end

/-- **What the function promises**: with the flag for complete, it has collected the result of
every choice of one value from every component, and it has the error flag if a value that
takes part is not a number. -/
def ArithmeticCorrect (op : OvalArithmeticOperation) (components : List OvalComponent) : Prop :=
  ∃ flag results, (OvalComponent.arithmetic op components).eval C = some (flag, results) ∧
    (flag = .complete → ∃ valCols, evalComponents C components = some valCols ∧
      (results.map some).Perm
        ((valCols.reverse.map Prod.snd).sections.map (combine C op))) ∧
    ((OvalComponent.arithmetic op components).HasNonNumber C → flag = .error)

/-- Whether the lists that the function looks at show that a value is not a number: the last
component has one, or, if it has values, the one before it has; or the last component has no
value, and the error flag. -/
def ShowsError : List (SyscharFlag × List ComponentValue) → Prop
  | [] => False
  | (flag, root) :: next =>
      root = [] ∧ flag = .error ∨ (∃ ov ∈ root, numberOf C ov = none) ∨
        root ≠ [] ∧ ∃ valCol ∈ next.head?, ∃ ov ∈ valCol.2, numberOf C ov = none

/-- The flag is the error flag exactly when an error shows. -/
theorem arithmeticRoot_flag_iff_showsError (hop : op.known = true) (flag : SyscharFlag)
    (root : List ComponentValue) (next : List (SyscharFlag × List ComponentValue)) :
    (arithmeticRoot C op (next.map Prod.snd) root flag []).1 = .error ↔
      ShowsError C ((flag, root) :: next) := by
  rw [arithmeticRoot_flag_iff hop, ShowsError]
  cases next <;> simp

/-- If no value that takes part is not a number, the function collects the results of all
choices. -/
theorem arithmeticRoot_complete (hop : op.known = true)
    {valCols : List (SyscharFlag × List ComponentValue)} {flag : SyscharFlag}
    {root : List ComponentValue} {next : List (SyscharFlag × List ComponentValue)}
    (hrev : valCols.reverse = (flag, root) :: next)
    (hnumbers : ∀ choice ∈ (valCols.map Prod.snd).sections, ∀ ov ∈ choice,
      numberOf C ov ≠ none) :
    ((arithmeticRoot C op (next.map Prod.snd) root flag []).2.map some).Perm
      ((valCols.reverse.map Prod.snd).sections.map (combine C op)) := by
  have hlists : ∀ l, l ∈ root :: next.map Prod.snd ↔ l ∈ valCols.map Prod.snd := by
    intro l
    rw [← @List.mem_reverse _ _ (valCols.map Prod.snd), ← List.map_reverse, hrev, List.map_cons]
  rw [hrev, List.map_cons]
  by_cases hempty : [] ∈ root :: next.map Prod.snd
  · rw [arithmeticRoot_of_mem_nil hempty, sections_eq_nil_of_mem hempty]
    exact .refl _
  · have hall : ∀ l ∈ root :: next.map Prod.snd, ∀ ov ∈ l, numberOf C ov ≠ none := by
      intro l hl ov hov
      obtain ⟨choice, hchoice, hmem⟩ := exists_section_of_mem
        (fun h => hempty ((hlists []).mpr h)) ((hlists l).mp hl) hov
      exact hnumbers choice hchoice ov hmem
    rw [List.forall_mem_cons] at hall
    obtain ⟨added, hadded, hperm⟩ := arithmeticRoot_values hop hall.1 hall.2 flag []
    rw [hadded, List.nil_append]
    exact hperm

/-- The number of choices is the product of the numbers of values. -/
theorem length_sections {α : Type*} (ls : List (List α)) :
    ls.sections.length = (ls.map List.length).prod := by
  induction ls with
  | nil => rfl
  | cons l ls ih =>
      rw [List.sections, List.length_flatMap, List.map_cons, List.prod_cons, ← ih]
      simp [Nat.mul_comm]

/-- **The number of results** is the product of the numbers of values. -/
theorem length_of_arithmeticCorrect {op : OvalArithmeticOperation}
    {components : List OvalComponent} (h : ArithmeticCorrect C op components)
    {results : List ComponentValue}
    (heval : (OvalComponent.arithmetic op components).eval C = some (.complete, results)) :
    ∃ valCols, evalComponents C components = some valCols ∧
      results.length = (valCols.map fun valCol => valCol.2.length).prod := by
  obtain ⟨flag, collected, hsome, hcomplete, -⟩ := h
  obtain ⟨rfl, rfl⟩ := Prod.mk.inj (Option.some.inj (hsome.symm.trans heval))
  obtain ⟨valCols, hvals, hperm⟩ := hcomplete rfl
  refine ⟨valCols, hvals, ?_⟩
  have hlength := hperm.length_eq
  rw [List.length_map, List.length_map, length_sections, List.map_map, List.map_reverse] at hlength
  rw [hlength, List.prod_reverse]
  rfl

/-- The natural numbers in place of `double`, read from one digit. -/
def digitArithmetic : DoubleArithmetic ℕ :=
  ⟨digitsValue, digitsValue, (· + ·), (· * ·), formatLu, formatLu⟩

end Arithmetic

end OpenScap.Arithmetic
