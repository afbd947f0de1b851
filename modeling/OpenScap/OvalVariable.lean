import Mathlib.Data.List.Dedup
import Mathlib.Data.List.Sort
import Mathlib.Logic.Function.Basic
import OpenScap.OvalArithmetic
import OpenScap.OvalTextFunctions
import OpenScap.RefTree

/-!
# The values of variables

A local variable has the values of its component, which may be a function of other components, and
refer to collected objects and to other variables. They are computed once and kept with a flag.
`oval_syschar_model_compute_variable` takes the objects as they are collected, and
`oval_probe_query_variable` has objects collected where they are not; the latter gives the values
the datatype of the variable, too.

Both read the clock at the same time, and texts are shorter than 2³¹ bytes, so that their lengths
are an `int`. Objects and variables are those of the definition model.

## Main results

* `callsMean` — both leave what the component of the variable means, where the values have the
  datatype of the variable;
* `varMeaning_of_call` — what a run computes, the variable means;
* `sameValues_iff` — when the values are the same in all orders of calls.
-/

open RefTree

namespace OpenScap.VariableValues

open OpenScap.TextFunctions OpenScap.Arithmetic

/-! ### Functions -/

/-- The clock, the arithmetic of `double`, and the compiled patterns: matching a text may fail
(`none`), and gives the first group that was captured, if any. -/
structure Environment (D : Type) where
  now : ℕ
  arithmetic : DoubleArithmetic D
  compile : List UInt8 → Option (List UInt8 → Option (Option (List UInt8)))

/-- The functions of components. -/
inductive OvalFunction
  | functionBegin (pfx : Option (List UInt8))
  | functionConcat
  | functionEnd (suffix : Option (List UInt8))
  | functionSplit (delimiter : List UInt8)
  | functionSubstring (start length : ℤ)
  | functionTimedif (format1 format2 : OvalDatetimeFormat)
  | functionEscapeRegex
  | functionRegexCapture (pattern : List UInt8)
  | functionArithmetic (op : OvalArithmeticOperation)
  | functionCount
  | functionUnique

/-- `_oval_component_evaluate_BEGIN`, of the first component. -/
def evaluateBegin (pfx : List UInt8) : List ComponentResult → ComponentResult
  | [] => (.error, [])
  | (flag, values) :: _ => (flag, values.map fun value =>
      ⟨.string, if pfx.isPrefixOf value.text then value.text else pfx ++ value.text⟩)

/-- `_oval_component_evaluate_END`, of the first component. -/
def evaluateEnd (suffix : List UInt8) : List ComponentResult → ComponentResult
  | [] => (.error, [])
  | (flag, values) :: _ => (flag, values.map fun value =>
      ⟨.string, if suffix.isSuffixOf value.text then value.text else value.text ++ suffix⟩)

/-- `_oval_component_evaluate_SUBSTRING`, of the first component. -/
def evaluateSubstring (start length : ℤ) : List ComponentResult → ComponentResult
  | [] => (.unknown, [])
  | (flag, values) :: _ =>
      let beg := if start < 1 then 0 else (start - 1).toNat
      (if values.any fun value => value.text.length ≤ beg then .error else flag,
        values.filterMap fun value =>
          let sublen := if length < 0 ∨ value.text.length < length then value.text.length
            else length.toNat
          if beg < value.text.length then some ⟨.string, (value.text.drop beg).take sublen⟩
          else none)

/-- `_isEscape`. -/
def isEscape (chr : UInt8) : Bool := ("^$\\.[](){}*+?|".toUTF8.toList).contains chr

/-- `_oval_component_evaluate_ESCAPE_REGEX`, of the first component. -/
def evaluateEscapeRegex : List ComponentResult → ComponentResult
  | [] => (.unknown, [])
  | (flag, values) :: _ => (flag, values.map fun value =>
      ⟨.string, value.text.flatMap fun chr => if isEscape chr then [ascii '\\', chr] else [chr]⟩)

/-- The loop of `_oval_component_evaluate_REGEX_CAPTURE`. -/
def captureLoop (exec : List UInt8 → Option (Option (List UInt8))) :
    SyscharFlag → List ComponentValue → ComponentResult
  | flag, [] => (flag, [])
  | _, value :: values =>
      match exec value.text with
      | none => (.error, [])
      | some nval =>
          let (flag, captured) := captureLoop exec .complete values
          (flag, ⟨.string, nval.getD []⟩ :: captured)

/-- `_oval_component_evaluate_REGEX_CAPTURE`, of the first component. -/
def evaluateRegexCapture (exec : List UInt8 → Option (Option (List UInt8))) :
    List ComponentResult → ComponentResult
  | [] => (.unknown, [])
  | (flag, values) :: _ => captureLoop exec flag values

/-- `_oval_component_evaluate_COUNT`. -/
def evaluateCount (results : List ComponentResult) : ComponentResult :=
  let flag := aggFlags results
  let count := if 0 < results.length ∧ hasValues flag then
    (results.map fun result => result.2.length).sum else 0
  (flag, [⟨.integer, decimalText (toInt32 count)⟩])

/-- `_oval_component_evaluate_UNIQUE`: the texts are collected from a tree in their order. -/
def evaluateUnique (results : List ComponentResult) : ComponentResult :=
  let flag := aggFlags results
  if 0 < results.length ∧ hasValues flag then
    (flag, ((results.flatMap ComponentResult.texts).dedup.insertionSort (· ≤ ·)).map
      fun text => ⟨.string, text⟩)
  else (flag, [])

variable {D : Type}

/-- How many of so many components a function evaluates, from the first one on. -/
def Environment.takes (env : Environment D) : OvalFunction → ℕ → ℕ
  | .functionBegin pfx, _ => if pfx.isSome then 1 else 0
  | .functionEnd suffix, _ => if suffix.isSome then 1 else 0
  | .functionSplit _, _ => 1
  | .functionSubstring _ _, _ => 1
  | .functionEscapeRegex, _ => 1
  | .functionRegexCapture pattern, _ => if (env.compile pattern).isSome then 1 else 0
  | .functionTimedif _ _, _ => 2
  | .functionArithmetic op, total => if op.known then total else 0
  | .functionConcat, total => total
  | .functionCount, total => total
  | .functionUnique, total => total

/-- What a function of so many components makes of the results of those that it evaluates; there is
none where a null pointer is followed. -/
def Environment.combine (env : Environment D) :
    OvalFunction → ℕ → List ComponentResult → Option ComponentResult
  | .functionBegin none, _, _ => some (.error, [])
  | .functionBegin (some pfx), _, results => some (evaluateBegin pfx results)
  | .functionEnd none, _, _ => some (.error, [])
  | .functionEnd (some suffix), _, results => some (evaluateEnd suffix results)
  | .functionSplit delimiter, _, results =>
      evaluateSplit ((results.flatMap ComponentResult.texts).flatten.length + 1) delimiter results
  | .functionSubstring start length, _, results => some (evaluateSubstring start length results)
  | .functionEscapeRegex, _, results => some (evaluateEscapeRegex results)
  | .functionRegexCapture pattern, _, results =>
      match env.compile pattern with
      | none => some (.error, [])
      | some exec => some (evaluateRegexCapture exec results)
  | .functionTimedif format1 format2, total, results =>
      if 2 < total then some (.error, [])
      else ovalComponentEvaluateTimedif env.now format1 format2 results []
  | .functionArithmetic op, _, results =>
      if op.known then
        match results.reverse with
        | [] => none
        | (flag, root) :: next =>
            some (arithmeticRoot env.arithmetic op (next.map Prod.snd) root flag [])
      else some (.error, [])
  | .functionConcat, _, results => some (evaluateConcat results)
  | .functionCount, _, results => some (evaluateCount results)
  | .functionUnique, _, results => some (evaluateUnique results)

/-- The functions of components. -/
def Environment.functions (env : Environment D) : Combination OvalFunction ComponentResult :=
  ⟨env.takes, env.combine⟩

/-! ### Collected objects -/

/-- `struct oval_record_field`. -/
structure RecordField where
  name : String
  datatype : OvalDatatype
  value : List UInt8

/-- `struct oval_sysent`. -/
structure Sysent where
  name : String
  datatype : OvalDatatype
  value : List UInt8
  recordFields : List RecordField

/-- `struct oval_syschar`: the flag, the entities of the items, and the instance of the variables
that it was collected for. -/
structure Syschar where
  flag : SyscharFlag
  sysitem : List (List Sysent)
  variableInstance : ℤ
  variableInstanceHint : ℤ

/-- `oval_syschar_new`. -/
def ovalSyscharNew : Syschar := ⟨.unknown, [], 1, 1⟩

/-- The values of an entity for a component. -/
def sysentValues (itemField : String) (recordField : Option String) (sysent : Sysent) :
    List ComponentValue :=
  if itemField ≠ sysent.name then []
  else match decide (sysent.datatype = .record), recordField with
    | true, some recordField => sysent.recordFields.filterMap fun rf =>
        if recordField ≠ rf.name then none else some ⟨rf.datatype, rf.value⟩
    | false, none => [⟨sysent.datatype, sysent.value⟩]
    | _, _ => []

/-- What `_oval_component_evaluate_OBJECTREF` makes of a collected object. -/
def syscharValues (itemField : String) (recordField : Option String) (syschar : Syschar) :
    ComponentResult :=
  (syschar.flag, syschar.sysitem.flatMap fun sysents =>
    sysents.flatMap (sysentValues itemField recordField))

/-! ### Variables -/

section Types

variable (ν ω : Type)

/-- The components that are no functions; a variable or an object may be a null pointer. -/
inductive OvalRef
  | literal (value : ComponentValue)
  | objectref (object : Option ω) (itemField : String) (recordField : Option String)
  | varref (target : Option ν)

/-- `struct oval_component`. -/
abbrev OvalComponent := RefTree (OvalRef ν ω) OvalFunction

/-- `struct oval_variable`; the component of a local variable may be a null pointer. -/
inductive OvalVariable
  | constant (flag : SyscharFlag) (values : List ComponentValue)
  | external (flag : SyscharFlag) (values : List ComponentValue)
  | localVariable (datatype : OvalDatatype) (component : Option (OvalComponent ν ω))
  | unknown

/-- The flags and values of the local variables, and the objects that are collected. -/
structure State where
  locals : ν → ComponentResult
  syschars : ω → Option Syschar

/-- `oval_probe_session_t`: whether there is a handler for an object, and what it does when the
object is to be collected; it returns whether it succeeds. -/
structure Session where
  handled : ω → Bool
  probe : ω → State ν ω → Option (State ν ω × Bool)

/-- `oval_argu_t`: how a variable is evaluated, which returns whether it succeeds, and how a
collected object is obtained. -/
structure Argu where
  evaluateVariable : ν → State ν ω → Option (State ν ω × Bool)
  syschar : ω → State ν ω → Option (State ν ω × Option Syschar)

end Types

variable {ν ω : Type} [DecidableEq ν] [DecidableEq ω]

/-- `oval_variable_get_collection_flag` and `oval_variable_get_values`. -/
def getValues (model : ν → OvalVariable ν ω) (st : State ν ω) (v : ν) : ComponentResult :=
  match model v with
  | .constant flag values => (flag, values)
  | .external flag values => (flag, values)
  | .localVariable _ _ => st.locals v
  | .unknown => (.unknown, [])

/-- A local variable gets a flag and values. -/
def State.setLocal (st : State ν ω) (v : ν) (result : ComponentResult) : State ν ω :=
  { st with locals := Function.update st.locals v result }

/-- An object gets a `syschar`. -/
def State.setSyschar (st : State ν ω) (object : ω) (syschar : Syschar) : State ν ω :=
  { st with syschars := Function.update st.syschars object (some syschar) }

/-- What a reference to a variable gives: the values only with a flag of some. -/
def referred (result : ComponentResult) : ComponentResult :=
  (result.1, if hasValues result.1 then result.2 else [])

/-- `_oval_component_evaluate_LITERAL`, `_oval_component_evaluate_OBJECTREF` and
`_oval_component_evaluate_VARREF`. -/
def evaluateRef (model : ν → OvalVariable ν ω) (argu : Argu ν ω) (st : State ν ω) :
    OvalRef ν ω → Option (State ν ω × ComponentResult)
  | .literal value => some (st, (.complete, [value]))
  | .objectref none _ _ => some (st, (.error, []))
  | .objectref (some object) itemField recordField => do
      let (st, syschar) ← argu.syschar object st
      match syschar with
      | some syschar => some (st, syscharValues itemField recordField syschar)
      | none => some (st, (.error, []))
  | .varref none => some (st, (.error, []))
  | .varref (some v) => do
      let (st, success) ← argu.evaluateVariable v st
      if success then some (st, referred (getValues model st v)) else some (st, (.error, []))

/-- `oval_component_eval_common`. -/
def evalCommon (env : Environment D) (model : ν → OvalVariable ν ω) (argu : Argu ν ω)
    (component : OvalComponent ν ω) (st : State ν ω) : Option (State ν ω × ComponentResult) :=
  run env.functions (evaluateRef model argu) component st

/-- `oval_syschar_model_get_syschar`. -/
def getSyschar (object : ω) (st : State ν ω) : Option (State ν ω × Option Syschar) :=
  some (st, st.syschars object)

/-- `oval_probe_query_object` where the object has to be collected, into a `syschar`. -/
def probeObject (sess : Session ν ω) (object : ω) (st : State ν ω) (syschar : Syschar) :
    Option (State ν ω × Option Syschar) :=
  if sess.handled object then do
    let (st, success) ← sess.probe object (st.setSyschar object syschar)
    if success then some (st, st.syschars object) else some (st, none)
  else some (st.setSyschar object { syschar with flag := .notCollected }, none)

/-- `oval_probe_query_object`; nothing is returned where it does not succeed. -/
def queryObject (sess : Session ν ω) (object : ω) (st : State ν ω) :
    Option (State ν ω × Option Syschar) :=
  match st.syschars object with
  | some syschar =>
      let hint := syschar.variableInstanceHint
      if hint ≠ syschar.variableInstance then
        probeObject sess object st
          { ovalSyscharNew with variableInstance := hint, variableInstanceHint := hint }
      else if syschar.flag ≠ .unknown then some (st, some syschar)
      else probeObject sess object st syschar
  | none => probeObject sess object st ovalSyscharNew

/-- `oval_value_cast`. -/
def valueCast (datatype : OvalDatatype) (value : ComponentValue) : ComponentValue :=
  { value with datatype := datatype }

/-- `oval_syschar_model_compute_variable`, with fuel for the variables that are referred to. -/
def computeVariable (env : Environment D) (model : ν → OvalVariable ν ω) :
    ℕ → ν → State ν ω → Option (State ν ω × Bool)
  | 0, _, _ => none
  | fuel + 1, v, st =>
      match model v with
      | .localVariable _ component =>
          if (st.locals v).1 ≠ .unknown then some (st, true)
          else match component with
            | none => some (st, false)
            | some component => do
                -- the evaluation adds to the values that the variable has
                let old := (st.locals v).2
                let (st, flag, added) ← evalCommon env model
                  ⟨computeVariable env model fuel, getSyschar⟩ component st
                let values := old ++ added
                let st := st.setLocal v (flag, values)
                if hasValues flag then
                  if values = [] then some (st.setLocal v (.error, values), true)
                  else some (st, true)
                else some (st, true)
      | _ => some (st, true)

/-- `oval_probe_query_variable`, with fuel for the variables that are referred to. -/
def queryVariable (env : Environment D) (model : ν → OvalVariable ν ω) (sess : Session ν ω) :
    ℕ → ν → State ν ω → Option (State ν ω × Bool)
  | 0, _, _ => none
  | fuel + 1, v, st =>
      match model v with
      | .localVariable datatype component =>
          if (st.locals v).1 ≠ .unknown then some (st, true)
          else match component with
            | none => some (st, false)
            | some component => do
                -- the evaluation adds to the values that the variable has
                let old := (st.locals v).2
                let (st, flag, added) ← evalCommon env model
                  ⟨queryVariable env model sess fuel, queryObject sess⟩ component st
                let values := old ++ added
                let st := st.setLocal v (flag, values)
                if hasValues flag then
                  if values = [] then some (st.setLocal v (.error, values), true)
                  -- casting a value does not fail
                  else some (st.setLocal v (flag, values.map (valueCast datatype)), true)
                else some (st, true)
      | _ => some (st, true)

/-! ### Calls -/

/-- The two functions. -/
inductive Mode
  | compute
  | query
  deriving DecidableEq

/-- A call of one of the functions. -/
def call (env : Environment D) (model : ν → OvalVariable ν ω) (sess : Session ν ω)
    (fuel : ℕ) (mode : Mode) (v : ν) (st : State ν ω) : Option (State ν ω × Bool) :=
  match mode with
  | .compute => computeVariable env model fuel v st
  | .query => queryVariable env model sess fuel v st

/-- Calls one after the other. -/
def calls (env : Environment D) (model : ν → OvalVariable ν ω) (sess : Session ν ω)
    (fuel : ℕ) : List (Mode × ν) → State ν ω → Option (State ν ω)
  | [], st => some st
  | (mode, v) :: rest, st => do
      let (st, _) ← call env model sess fuel mode v st
      calls env model sess fuel rest st

/-- The state before the first call. -/
def start (syschars : ω → Option Syschar) : State ν ω := ⟨fun _ => (.unknown, []), syschars⟩

/-- **Every variable has the same flag and values after all sequences of calls that evaluate
it.** -/
def SameValues (env : Environment D) (model : ν → OvalVariable ν ω) (sess : Session ν ω)
    (syschars : ω → Option Syschar) : Prop :=
  ∀ v, ∃ result, ∀ cs : List (Mode × ν), (∃ mode, (mode, v) ∈ cs) → ∃ n, ∀ fuel ≥ n,
    ∃ st, calls env model sess fuel cs (start syschars) = some st ∧
      getValues model st v = result

/-! ### What the variables mean -/

/-- A flag of values that there are none of is an error. -/
def settle (result : ComponentResult) : ComponentResult :=
  if hasValues result.1 ∧ result.2 = [] then (.error, []) else result

/-- The object has been collected, for the present instance of the variables. -/
def Syschar.collected (syschar : Syschar) : Bool :=
  syschar.flag ≠ .unknown ∧ syschar.variableInstanceHint = syschar.variableInstance

/-- All objects have been collected. -/
def Collected (syschars : ω → Option Syschar) : Prop :=
  ∀ object, ∃ syschar, syschars object = some syschar ∧ syschar.collected = true

/-- What a reference means, for what references to variables mean. -/
def refMeaning (syschars : ω → Option Syschar) (varMeaning : ν → Option ComponentResult) :
    OvalRef ν ω → Option ComponentResult
  | .literal value => some (.complete, [value])
  | .objectref none _ _ => some (.error, [])
  | .objectref (some object) itemField recordField =>
      match syschars object with
      | some syschar =>
          if syschar.collected then some (syscharValues itemField recordField syschar) else none
      | none => none
  | .varref none => some (.error, [])
  | .varref (some v) => varMeaning v

section Meaning

variable (env : Environment D) (model : ν → OvalVariable ν ω) (syschars : ω → Option Syschar)

/-- What a reference to a variable means, that refers to others so many levels deep. -/
def varMeaning : ℕ → ν → Option ComponentResult
  | 0, _ => none
  | n + 1, v =>
      match model v with
      | .constant flag values => some (referred (flag, values))
      | .external flag values => some (referred (flag, values))
      | .unknown => some (.unknown, [])
      | .localVariable _ none => some (.error, [])
      | .localVariable _ (some component) =>
          (meaning env.functions (refMeaning syschars (varMeaning n)) component).map fun result =>
            referred (settle result)

/-- What a component means, that refers to variables so many levels deep. -/
def componentMeaning (n : ℕ) (component : OvalComponent ν ω) : Option ComponentResult :=
  meaning env.functions (refMeaning syschars (varMeaning env model syschars n)) component

/-- The flag and values that a variable is to have. -/
def varFinal (n : ℕ) (v : ν) : Option ComponentResult :=
  match model v with
  | .constant flag values => some (flag, values)
  | .external flag values => some (flag, values)
  | .unknown => some (.unknown, [])
  | .localVariable _ none => some (.unknown, [])
  | .localVariable _ (some component) =>
      (componentMeaning env model syschars n component).map settle

/-- The variable can be evaluated: it is no local variable without a component. -/
def evaluable (v : ν) : Bool :=
  match model v with
  | .localVariable _ none => false
  | _ => true

/-- The values have a datatype, when the flag says that there are values; with an unknown flag there
are none. -/
def SettledResult (datatype : OvalDatatype) (result : ComponentResult) : Prop :=
  (hasValues result.1 → ∀ value ∈ result.2, value.datatype = datatype) ∧
    (result.1 = .unknown → result.2 = [])

/-- Every local variable has a component that means something: what it refers to, it does not go in
a circle, and the objects have been collected. The values have the datatype of the variable. -/
def Settled : Prop :=
  ∀ v datatype component, model v = .localVariable datatype (some component) →
    ∃ n result, componentMeaning env model syschars n component = some result ∧
      SettledResult datatype result

end Meaning

section Spec

variable {env : Environment D} {model : ν → OvalVariable ν ω} {sess : Session ν ω}
  {syschars : ω → Option Syschar}

omit [DecidableEq ν] [DecidableEq ω] in
/-- What references mean does not depend on the levels. -/
theorem refMeaning_mono {read read' : ν → Option ComponentResult}
    (hread : ∀ v r, read v = some r → read' v = some r) :
    ∀ (x : OvalRef ν ω) r, refMeaning syschars read x = some r →
      refMeaning syschars read' x = some r := by
  intro x r h
  cases x with
  | literal value => exact h
  | objectref object itemField recordField => cases object <;> exact h
  | varref target =>
      cases target with
      | none => exact h
      | some v => exact hread v r h

omit [DecidableEq ν] [DecidableEq ω] in
/-- More levels change no meaning of a variable. -/
theorem varMeaning_mono {n n' : ℕ} (hn : n ≤ n') {v : ν} {r : ComponentResult}
    (h : varMeaning env model syschars n v = some r) :
    varMeaning env model syschars n' v = some r := by
  induction n generalizing n' v r with
  | zero => cases h
  | succ n ih =>
      obtain ⟨n', rfl⟩ : ∃ m, n' = m + 1 := ⟨n' - 1, by omega⟩
      rw [varMeaning] at h ⊢
      split at h
      case h_5 datatype component hv =>
          rw [Option.map_eq_some_iff] at h ⊢
          obtain ⟨result, hresult, hr⟩ := h
          exact ⟨result, meaning_mono (refMeaning_mono fun v r => ih (by omega)) hresult, hr⟩
      all_goals exact h

omit [DecidableEq ν] [DecidableEq ω] in
/-- More levels change no meaning of a component. -/
theorem componentMeaning_mono {n n' : ℕ} (hn : n ≤ n') {component : OvalComponent ν ω}
    {r : ComponentResult} (h : componentMeaning env model syschars n component = some r) :
    componentMeaning env model syschars n' component = some r :=
  meaning_mono (refMeaning_mono fun _ _ => varMeaning_mono hn) h

omit [DecidableEq ν] [DecidableEq ω] in
/-- A component means one thing. -/
theorem componentMeaning_unique {n n' : ℕ} {component : OvalComponent ν ω}
    {r r' : ComponentResult} (h : componentMeaning env model syschars n component = some r)
    (h' : componentMeaning env model syschars n' component = some r') : r = r' :=
  Option.some.inj ((componentMeaning_mono (Nat.le_max_left n n') h).symm.trans
    (componentMeaning_mono (Nat.le_max_right n n') h'))

/-! ### One call -/

/-- `oval_argu_t` of the two functions. -/
def arguOf (env : Environment D) (model : ν → OvalVariable ν ω) (sess : Session ν ω) (fuel : ℕ) :
    Mode → Argu ν ω
  | .compute => ⟨computeVariable env model fuel, getSyschar⟩
  | .query => ⟨queryVariable env model sess fuel, queryObject sess⟩

/-- What the two functions make of the result of a component. -/
def finish (datatype : OvalDatatype) (result : ComponentResult) : Mode → ComponentResult
  | .compute => settle result
  | .query =>
      if hasValues result.1 ∧ result.2 ≠ [] then
        (result.1, result.2.map (valueCast datatype))
      else settle result

/-- The functions call themselves for the variables that are referred to. -/
theorem arguOf_evaluateVariable (fuel : ℕ) (mode : Mode) :
    (arguOf env model sess fuel mode).evaluateVariable = call env model sess fuel mode := by
  cases mode <;> rfl

/-- A variable that is known is not evaluated. -/
theorem call_of_known {fuel : ℕ} {mode : Mode} {v : ν} {st : State ν ω}
    (h : (st.locals v).1 ≠ .unknown) :
    call env model sess (fuel + 1) mode v st = some (st, true) := by
  cases mode <;> simp only [call, computeVariable, queryVariable] <;>
    cases model v <;> simp [h]

/-- A variable without component is not evaluated. -/
theorem call_of_null {fuel : ℕ} {mode : Mode} {v : ν} {st : State ν ω} {datatype : OvalDatatype}
    (hv : model v = .localVariable datatype none) (h : (st.locals v).1 = .unknown) :
    call env model sess (fuel + 1) mode v st = some (st, false) := by
  cases mode <;> simp [call, computeVariable, queryVariable, hv, h]

/-- Other variables are not evaluated. -/
theorem call_of_other {fuel : ℕ} {mode : Mode} {v : ν} {st : State ν ω}
    (hv : ∀ datatype component, model v ≠ .localVariable datatype component) :
    call env model sess (fuel + 1) mode v st = some (st, true) := by
  cases mode <;> simp only [call, computeVariable, queryVariable]

/-- The result of the component is finished. -/
theorem call_of_unknown {fuel : ℕ} {mode : Mode} {v : ν} {st : State ν ω}
    {datatype : OvalDatatype} {component : OvalComponent ν ω}
    (hv : model v = .localVariable datatype (some component)) (h : (st.locals v).1 = .unknown) :
    call env model sess (fuel + 1) mode v st =
      (evalCommon env model (arguOf env model sess fuel mode) component st).map fun r =>
        (r.1.setLocal v (finish datatype (r.2.1, (st.locals v).2 ++ r.2.2) mode), true) := by
  have hset : ∀ (st : State ν ω) (r r' : ComponentResult),
      (st.setLocal v r).setLocal v r' = st.setLocal v r' := fun st r r' => by
    simp [State.setLocal]
  cases mode with
  | compute =>
      simp only [call, computeVariable, hv, h, ne_eq, not_true_eq_false, if_false, arguOf]
      cases evalCommon env model ⟨computeVariable env model fuel, getSyschar⟩ component st with
      | none => rfl
      | some r =>
          simp only [Option.bind_eq_bind, Option.bind_some, Option.map_some]
          generalize (st.locals v).2 ++ r.2.2 = values
          by_cases hvalues : hasValues r.2.1 = true <;> by_cases hempty : values = [] <;>
            simp [hvalues, hempty, finish, settle, hset]
  | query =>
      simp only [call, queryVariable, hv, h, ne_eq, not_true_eq_false, if_false, arguOf]
      cases evalCommon env model ⟨queryVariable env model sess fuel, queryObject sess⟩ component
          st with
      | none => rfl
      | some r =>
          simp only [Option.bind_eq_bind, Option.bind_some, Option.map_some]
          generalize (st.locals v).2 ++ r.2.2 = values
          by_cases hvalues : hasValues r.2.1 = true <;> by_cases hempty : values = [] <;>
            simp [hvalues, hempty, finish, settle, hset]

/-! ### What calls leave -/

section Invariant

variable (env : Environment D) (model : ν → OvalVariable ν ω) (syschars : ω → Option Syschar)

/-- What a local variable may have: nothing yet, what it is to have, or values under an unknown
flag, which are added again by every call. -/
def Entry (v : ν) (entry : ComponentResult) : Prop :=
  entry = (.unknown, []) ∨ ∃ datatype component n result,
    model v = .localVariable datatype (some component) ∧
    componentMeaning env model syschars n component = some result ∧
    (entry = settle result ∨ result.1 = .unknown ∧ result.2 ≠ [] ∧ entry.1 = .unknown)

/-- The objects are those that are collected, and local variables have what they may have. -/
structure Consistent (st : State ν ω) : Prop where
  syschars_eq : st.syschars = syschars
  entry : ∀ v, Entry env model syschars v (st.locals v)

/-- Some local variables have got what they are to have. -/
structure Advances (st st' : State ν ω) : Prop where
  syschars_eq : st'.syschars = st.syschars
  locals : ∀ v, st'.locals v = st.locals v ∨ ∃ datatype component n result,
    model v = .localVariable datatype (some component) ∧
    componentMeaning env model syschars n component = some result ∧
    st'.locals v = settle result

/-- The values have the datatypes of the variables that refer to others so many levels deep. -/
def SettledBelow (n : ℕ) : Prop :=
  ∀ v datatype component k result, k < n → model v = .localVariable datatype (some component) →
    componentMeaning env model syschars k component = some result → SettledResult datatype result

end Invariant

omit [DecidableEq ν] [DecidableEq ω] in
/-- A state advances to itself. -/
theorem Advances.refl (st : State ν ω) : Advances env model syschars st st :=
  ⟨rfl, fun _ => .inl rfl⟩

omit [DecidableEq ν] [DecidableEq ω] in
/-- States advance in steps. -/
theorem Advances.trans {st₁ st₂ st₃ : State ν ω} (h₁₂ : Advances env model syschars st₁ st₂)
    (h₂₃ : Advances env model syschars st₂ st₃) : Advances env model syschars st₁ st₃ := by
  refine ⟨h₂₃.syschars_eq.trans h₁₂.syschars_eq, fun v => ?_⟩
  rcases h₂₃.locals v with heq | hset
  · rw [heq]
    exact h₁₂.locals v
  · exact .inr hset

omit [DecidableEq ν] [DecidableEq ω] in
/-- A state that advances stays consistent. -/
theorem Consistent.of_advances {st st' : State ν ω} (hst : Consistent env model syschars st)
    (h : Advances env model syschars st st') : Consistent env model syschars st' := by
  refine ⟨h.syschars_eq.trans hst.syschars_eq, fun v => ?_⟩
  rcases h.locals v with heq | ⟨datatype, component, n, result, hv, hresult, hset⟩
  · rw [heq]
    exact hst.entry v
  · exact .inr ⟨datatype, component, n, result, hv, hresult, .inl hset⟩

omit [DecidableEq ν] [DecidableEq ω] in
/-- What a variable is to have, it keeps. -/
theorem Advances.locals_eq {st st' : State ν ω} (h : Advances env model syschars st st') {v : ν}
    {datatype : OvalDatatype} {component : OvalComponent ν ω} {n : ℕ} {result : ComponentResult}
    (hv : model v = .localVariable datatype (some component))
    (hresult : componentMeaning env model syschars n component = some result)
    (hset : st.locals v = settle result) : st'.locals v = settle result := by
  rcases h.locals v with heq | ⟨datatype', component', n', result', hv', hresult', hset'⟩
  · rw [heq, hset]
  · rw [hv] at hv'
    cases hv'
    rw [hset', componentMeaning_unique hresult' hresult]

omit [DecidableEq ω] in
/-- A local variable gets what it is to have. -/
theorem Advances.setLocal (st : State ν ω) {v : ν} {datatype : OvalDatatype}
    {component : OvalComponent ν ω} {n : ℕ} {result : ComponentResult}
    (hv : model v = .localVariable datatype (some component))
    (hresult : componentMeaning env model syschars n component = some result) :
    Advances env model syschars st (st.setLocal v (settle result)) := by
  refine ⟨rfl, fun w => ?_⟩
  by_cases hw : w = v
  · subst hw
    exact .inr ⟨datatype, component, n, result, hv, hresult, by simp [State.setLocal]⟩
  · exact .inl (by simp [State.setLocal, hw])

omit [DecidableEq ν] [DecidableEq ω] in
/-- The state before the first call is consistent. -/
theorem consistent_start : Consistent env model syschars (start syschars : State ν ω) :=
  ⟨rfl, fun _ => .inl rfl⟩

/-- Both functions obtain a collected object as it is. -/
theorem arguOf_syschar {fuel : ℕ} (mode : Mode) {object : ω} {st : State ν ω} {syschar : Syschar}
    (hsyschar : st.syschars object = some syschar) (hcollected : syschar.collected = true) :
    (arguOf env model sess fuel mode).syschar object st = some (st, some syschar) := by
  obtain ⟨hflag, hhint⟩ : syschar.flag ≠ .unknown ∧
      syschar.variableInstanceHint = syschar.variableInstance := by
    simpa [Syschar.collected] using hcollected
  cases mode <;> simp [arguOf, getSyschar, queryObject, hsyschar, hflag, hhint]

/-- A value of the datatype is cast to itself. -/
theorem map_valueCast {datatype : OvalDatatype} {values : List ComponentValue} :
    values.map (valueCast datatype) = values ↔ ∀ value ∈ values, value.datatype = datatype := by
  induction values with
  | nil => simp
  | cons value values ih =>
      rw [List.map_cons, List.cons.injEq, ih, List.forall_mem_cons]
      refine and_congr_left fun _ => ⟨fun h => ?_, fun h => ?_⟩
      · rw [← h, valueCast]
      · rw [valueCast, ← h]

/-- Both functions make the same of values of the right datatype. -/
theorem finish_eq_settle {datatype : OvalDatatype} {result : ComponentResult}
    (h : SettledResult datatype result) (mode : Mode) :
    finish datatype result mode = settle result := by
  cases mode with
  | compute => rfl
  | query =>
      rw [finish]
      split
      · rename_i hvalues
        rw [map_valueCast.mpr (h.1 hvalues.1), settle, if_neg fun hempty => hvalues.2 hempty.2]
      · rfl

/-! ### Calls that mean something -/

omit [DecidableEq ν] [DecidableEq ω] in
/-- What a reference to a variable means is read from what the variable is to have. -/
theorem varMeaning_succ {n : ℕ} {v : ν} {r : ComponentResult} :
    varMeaning env model syschars (n + 1) v = some r ↔
      ∃ result, varFinal env model syschars n v = some result ∧
        (if evaluable model v then referred result else (.error, [])) = r := by
  rw [varMeaning, varFinal, evaluable]
  cases hv : model v with
  | constant flag values => simp
  | external flag values => simp
  | unknown => simp [referred, hasValues]
  | localVariable datatype component =>
      cases component with
      | none => simp
      | some component =>
          refine ⟨fun h => ?_, fun ⟨result, h, hr⟩ => ?_⟩
          · obtain ⟨result, hresult, hr⟩ := Option.map_eq_some_iff.mp h
            exact ⟨settle result, Option.map_eq_some_iff.mpr ⟨result, hresult, rfl⟩, hr⟩
          · obtain ⟨result', hresult, rfl⟩ := Option.map_eq_some_iff.mp h
            exact Option.map_eq_some_iff.mpr ⟨result', hresult, hr⟩

section Invariant

variable (env : Environment D) (model : ν → OvalVariable ν ω) (sess : Session ν ω)
  (syschars : ω → Option Syschar)

/-- Calls for variables that refer to others so many levels deep leave what these are to have. -/
def CallsMean (n fuel : ℕ) (mode : Mode) : Prop :=
  ∀ v result st, varFinal env model syschars n v = some result →
    Consistent env model syschars st →
    ∃ st', call env model sess fuel mode v st = some (st', evaluable model v) ∧
      Advances env model syschars st st' ∧ getValues model st' v = result

end Invariant

/-- References are evaluated to what they mean. -/
theorem evaluateRef_of_meaning {n fuel : ℕ} {mode : Mode}
    (hcalls : ∀ m < n, CallsMean env model sess syschars m fuel mode) {st : State ν ω}
    {x : OvalRef ν ω} {r : ComponentResult} (hst : Consistent env model syschars st)
    (h : refMeaning syschars (varMeaning env model syschars n) x = some r) :
    ∃ st', evaluateRef model (arguOf env model sess fuel mode) st x = some (st', r) ∧
      Advances env model syschars st st' := by
  cases x with
  | literal value =>
      cases h
      exact ⟨st, rfl, .refl st⟩
  | objectref object itemField recordField =>
      cases object with
      | none =>
          cases h
          exact ⟨st, rfl, .refl st⟩
      | some object =>
          rw [refMeaning] at h
          split at h
          · rename_i syschar hsyschar
            split at h
            · rename_i hcollected
              cases h
              have hobtain : (arguOf env model sess fuel mode).syschar object st =
                  some (st, some syschar) :=
                arguOf_syschar mode (hst.syschars_eq ▸ hsyschar) hcollected
              exact ⟨st, by simp [evaluateRef, hobtain], .refl st⟩
            · cases h
          · cases h
  | varref target =>
      cases target with
      | none =>
          cases h
          exact ⟨st, rfl, .refl st⟩
      | some v =>
          rw [refMeaning] at h
          cases n with
          | zero => cases h
          | succ n =>
              obtain ⟨result, hresult, hr⟩ := varMeaning_succ.mp h
              obtain ⟨st', hcall, hadv, hvalues⟩ := hcalls n n.lt_succ_self v result st hresult hst
              refine ⟨st', ?_, hadv⟩
              rw [evaluateRef, arguOf_evaluateVariable, hcall, ← hr, ← hvalues]
              cases evaluable model v <;> rfl

/-- A local variable with an unknown flag gets what its component means. -/
theorem call_of_componentMeaning {n fuel : ℕ} {mode : Mode}
    (hcalls : ∀ m < n, CallsMean env model sess syschars m fuel mode) {st : State ν ω} {v : ν}
    {datatype : OvalDatatype} {component : OvalComponent ν ω} {result : ComponentResult}
    (hv : model v = .localVariable datatype (some component))
    (hresult : componentMeaning env model syschars n component = some result)
    (hst : Consistent env model syschars st) (hunknown : (st.locals v).1 = .unknown) :
    ∃ st₁, Advances env model syschars st st₁ ∧ call env model sess (fuel + 1) mode v st =
      some (st₁.setLocal v (finish datatype (result.1, (st.locals v).2 ++ result.2) mode),
        true) := by
  have hvisit : ∀ st₁ x r, Advances env model syschars st st₁ →
      refMeaning syschars (varMeaning env model syschars n) x = some r →
      ∃ st₂, evaluateRef model (arguOf env model sess fuel mode) st₁ x = some (st₂, r) ∧
        Advances env model syschars st st₂ := by
    intro st₁ x r h₁ hx
    obtain ⟨st₂, heval, h₂⟩ := evaluateRef_of_meaning hcalls (hst.of_advances h₁) hx
    exact ⟨st₂, heval, h₁.trans h₂⟩
  obtain ⟨st₁, hrun, hadv⟩ := run_of_meaning hvisit (.refl st) hresult
  refine ⟨st₁, hadv, ?_⟩
  rw [call_of_unknown hv hunknown, evalCommon, hrun]
  rfl

omit [DecidableEq ν] [DecidableEq ω] in
/-- What a variable that is settled may have: nothing yet, or what it is to have. -/
theorem Entry.of_settled {v : ν} {entry result : ComponentResult} {datatype : OvalDatatype}
    {component : OvalComponent ν ω} {n : ℕ} (h : Entry env model syschars v entry)
    (hv : model v = .localVariable datatype (some component))
    (hresult : componentMeaning env model syschars n component = some result)
    (hsettled : result.1 = .unknown → result.2 = []) :
    entry = (.unknown, []) ∨ entry = settle result := by
  rcases h with hentry | ⟨datatype', component', n', result', hv', hresult', h⟩
  · exact .inl hentry
  · rw [hv] at hv'
    cases hv'
    rw [componentMeaning_unique hresult' hresult] at h
    rcases h with hentry | ⟨hunknown, hvalues, -⟩
    · exact .inr hentry
    · exact absurd (hsettled hunknown) hvalues

omit [DecidableEq ν] [DecidableEq ω] in
/-- A variable that is settled and has an unknown flag has no values. -/
theorem Entry.values_eq_nil {v : ν} {entry result : ComponentResult} {datatype : OvalDatatype}
    {component : OvalComponent ν ω} {n : ℕ} (h : Entry env model syschars v entry)
    (hv : model v = .localVariable datatype (some component))
    (hresult : componentMeaning env model syschars n component = some result)
    (hsettled : result.1 = .unknown → result.2 = []) (hunknown : entry.1 = .unknown) :
    entry.2 = [] := by
  rcases h.of_settled hv hresult hsettled with rfl | rfl
  · rfl
  · rw [settle] at hunknown ⊢
    split
    · rfl
    · rename_i hne
      rw [if_neg hne] at hunknown
      exact hsettled hunknown

omit [DecidableEq ν] [DecidableEq ω] in
/-- Only local variables with a component ever have something. -/
theorem Entry.of_null {v : ν} {entry : ComponentResult} {datatype : OvalDatatype}
    (h : Entry env model syschars v entry) (hv : model v = .localVariable datatype none) :
    entry = (.unknown, []) := by
  rcases h with hentry | ⟨datatype', component', n', result', hv', -⟩
  · exact hentry
  · rw [hv] at hv'
    cases hv'

omit [DecidableEq ν] [DecidableEq ω] in
/-- The values are settled for variables that refer to fewer levels. -/
theorem SettledBelow.mono {n n' : ℕ} (h : SettledBelow env model syschars n') (hn : n ≤ n') :
    SettledBelow env model syschars n :=
  fun v datatype component k result hk => h v datatype component k result (by omega)

/-- **Both functions leave what the variable is to have**, where the values are settled. -/
theorem callsMean {n : ℕ} (hbelow : SettledBelow env model syschars (n + 1)) {fuel : ℕ}
    (hfuel : n < fuel) (mode : Mode) : CallsMean env model sess syschars n fuel mode := by
  -- the variables that are referred to have fewer levels and less fuel
  induction n using Nat.strongRecOn generalizing fuel with
  | ind n ih =>
      obtain ⟨fuel, rfl⟩ : ∃ k, fuel = k + 1 := ⟨fuel - 1, by omega⟩
      have hcalls : ∀ m < n, CallsMean env model sess syschars m fuel mode :=
        fun m hm => ih m hm (hbelow.mono (by omega)) (by omega)
      intro v final st hfinal hst
      rw [varFinal] at hfinal
      simp only [evaluable, getValues]
      cases hv : model v with
      | constant flag values =>
          rw [hv] at hfinal
          cases hfinal
          exact ⟨st, call_of_other (by simp [hv]), .refl st, rfl⟩
      | external flag values =>
          rw [hv] at hfinal
          cases hfinal
          exact ⟨st, call_of_other (by simp [hv]), .refl st, rfl⟩
      | unknown =>
          rw [hv] at hfinal
          cases hfinal
          exact ⟨st, call_of_other (by simp [hv]), .refl st, rfl⟩
      | localVariable datatype component =>
          rw [hv] at hfinal
          cases component with
          | none =>
              cases hfinal
              have hnothing := (hst.entry v).of_null hv
              exact ⟨st, call_of_null hv (by rw [hnothing]), .refl st, hnothing⟩
          | some component =>
              obtain ⟨result, hresult, rfl⟩ := Option.map_eq_some_iff.mp hfinal
              have hsettled := hbelow v datatype component n result n.lt_succ_self hv hresult
              by_cases hunknown : (st.locals v).1 = .unknown
              · obtain ⟨st₁, hadv, hcall⟩ :=
                  call_of_componentMeaning hcalls hv hresult hst hunknown
                rw [(hst.entry v).values_eq_nil hv hresult hsettled.2 hunknown, List.nil_append,
                  finish_eq_settle hsettled] at hcall
                exact ⟨_, hcall, hadv.trans (.setLocal st₁ hv hresult),
                  by simp [State.setLocal]⟩
              · refine ⟨st, call_of_known hunknown, .refl st, ?_⟩
                rcases (hst.entry v).of_settled hv hresult hsettled.2 with hentry | hentry
                · exact absurd (by rw [hentry]) hunknown
                · exact hentry

/-! ### Sequences of calls -/

omit [DecidableEq ν] [DecidableEq ω] in
/-- What a variable has as it is to have, it keeps. -/
theorem Advances.getValues_eq {st st' : State ν ω} (h : Advances env model syschars st st')
    {v : ν} {n : ℕ} {result : ComponentResult}
    (hresult : varFinal env model syschars n v = some result)
    (hvalues : getValues model st v = result) : getValues model st' v = result := by
  rw [varFinal] at hresult
  rw [getValues] at hvalues ⊢
  cases hv : model v with
  | constant flag values => simpa [hv] using hvalues
  | external flag values => simpa [hv] using hvalues
  | unknown => simpa [hv] using hvalues
  | localVariable datatype component =>
      simp only [hv] at hvalues hresult ⊢
      cases component with
      | none =>
          rcases h.locals v with heq | ⟨datatype', component', n', result', hv', -⟩
          · rw [heq, hvalues]
          · rw [hv] at hv'
            cases hv'
      | some component =>
          obtain ⟨result', hresult', rfl⟩ := Option.map_eq_some_iff.mp hresult
          exact h.locals_eq hv hresult' hvalues

/-- A sequence of calls leaves what all its variables are to have. -/
theorem calls_of_varFinal (sess : Session ν ω)
    (hbelow : ∀ n, SettledBelow env model syschars n) {final : ν → ComponentResult}
    (hfinal : ∀ v, ∃ n, varFinal env model syschars n v = some (final v))
    (cs : List (Mode × ν)) : ∃ n, ∀ fuel ≥ n, ∀ st, Consistent env model syschars st →
      ∃ st', calls env model sess fuel cs st = some st' ∧ Advances env model syschars st st' ∧
        ∀ mode v, (mode, v) ∈ cs → getValues model st' v = final v := by
  induction cs with
  | nil => exact ⟨0, fun fuel _ st _ => ⟨st, rfl, .refl st, by simp⟩⟩
  | cons c cs ih =>
      obtain ⟨mode, v⟩ := c
      obtain ⟨n, hn⟩ := ih
      obtain ⟨m, hm⟩ := hfinal v
      refine ⟨max n (m + 1), fun fuel hfuel st hst => ?_⟩
      have hmean : CallsMean env model sess syschars m fuel mode :=
        callsMean (hbelow (m + 1)) (by omega) mode
      obtain ⟨st₁, hcall, h₁, hvalues⟩ := hmean v (final v) st hm hst
      obtain ⟨st₂, hcalls, h₂, hrest⟩ := hn fuel (by omega) st₁ (hst.of_advances h₁)
      refine ⟨st₂, by simp [calls, hcall, hcalls], h₁.trans h₂, fun mode' w hw => ?_⟩
      rcases List.mem_cons.mp hw with heq | hw
      · cases heq
        exact h₂.getValues_eq hm hvalues
      · exact hrest mode' w hw

omit [DecidableEq ν] [DecidableEq ω] in
/-- The values of all levels are settled. -/
theorem Settled.below (h : Settled env model syschars) (n : ℕ) :
    SettledBelow env model syschars n := by
  intro v datatype component k result _ hv hresult
  obtain ⟨n', result', hresult', hsettled⟩ := h v datatype component hv
  rwa [componentMeaning_unique hresult hresult']

omit [DecidableEq ν] [DecidableEq ω] in
/-- Every variable is to have something. -/
theorem Settled.exists_varFinal (h : Settled env model syschars) (v : ν) :
    ∃ result, ∃ n, varFinal env model syschars n v = some result := by
  cases hv : model v with
  | constant flag values => exact ⟨(flag, values), 0, by rw [varFinal, hv]⟩
  | external flag values => exact ⟨(flag, values), 0, by rw [varFinal, hv]⟩
  | unknown => exact ⟨(.unknown, []), 0, by rw [varFinal, hv]⟩
  | localVariable datatype component =>
      cases component with
      | none => exact ⟨(.unknown, []), 0, by rw [varFinal, hv]⟩
      | some component =>
          obtain ⟨n, result, hresult, -⟩ := h v datatype component hv
          refine ⟨settle result, n, ?_⟩
          rw [varFinal, hv]
          exact Option.map_eq_some_iff.mpr ⟨result, hresult, rfl⟩

/-- Settled values are the same after all sequences of calls. -/
theorem Settled.sameValues (h : Settled env model syschars) :
    SameValues env model sess syschars := by
  choose final hfinal using h.exists_varFinal
  refine fun v => ⟨final v, fun cs hcs => ?_⟩
  obtain ⟨mode, hmem⟩ := hcs
  obtain ⟨n, hn⟩ := calls_of_varFinal sess h.below hfinal cs
  refine ⟨n, fun fuel hfuel => ?_⟩
  obtain ⟨st, hcalls, -, hvalues⟩ := hn fuel hfuel (start syschars) consistent_start
  exact ⟨st, hcalls, hvalues mode v hmem⟩

/-! ### Runs of `oval_syschar_model_compute_variable` -/

omit [DecidableEq ω] in
/-- A local variable gets what it may have. -/
theorem Consistent.setLocal {st : State ν ω} (hst : Consistent env model syschars st) {v : ν}
    {entry : ComponentResult} (h : Entry env model syschars v entry) :
    Consistent env model syschars (st.setLocal v entry) := by
  refine ⟨hst.syschars_eq, fun w => ?_⟩
  by_cases hw : w = v
  · subst hw
    simpa [State.setLocal] using h
  · simpa [State.setLocal, hw] using hst.entry w

omit [DecidableEq ν] [DecidableEq ω] in
/-- A flag that is known goes with what the component means. -/
theorem Entry.of_known {v : ν} {entry : ComponentResult} {datatype : OvalDatatype}
    {component : OvalComponent ν ω} (h : Entry env model syschars v entry)
    (hv : model v = .localVariable datatype (some component)) (hknown : entry.1 ≠ .unknown) :
    ∃ n result, componentMeaning env model syschars n component = some result ∧
      entry = settle result := by
  rcases h with rfl | ⟨datatype', component', n, result, hv', hresult, h⟩
  · exact absurd rfl hknown
  · rw [hv] at hv'
    cases hv'
    rcases h with hentry | ⟨-, -, hunknown⟩
    · exact ⟨n, result, hresult, hentry⟩
    · exact absurd hunknown hknown

omit [DecidableEq ν] [DecidableEq ω] in
/-- Where values are added to those that a variable has, the flag stays unknown. -/
theorem Entry.add {v : ν} {entry result : ComponentResult} {datatype : OvalDatatype}
    {component : OvalComponent ν ω} {n : ℕ} (h : Entry env model syschars v entry)
    (hv : model v = .localVariable datatype (some component))
    (hresult : componentMeaning env model syschars n component = some result)
    (hunknown : entry.1 = .unknown) :
    Entry env model syschars v (settle (result.1, entry.2 ++ result.2)) ∧
      referred (settle (result.1, entry.2 ++ result.2)) = referred (settle result) := by
  by_cases hflag : result.1 = .unknown
  · have hsettle : settle (result.1, entry.2 ++ result.2) = (.unknown, entry.2 ++ result.2) := by
      simp [settle, hflag, hasValues]
    refine ⟨?_, by simp [settle, hflag, hasValues, referred]⟩
    rw [hsettle]
    by_cases hvalues : result.2 = []
    · rw [h.values_eq_nil hv hresult (fun _ => hvalues) hunknown, hvalues]
      exact .inl rfl
    · exact .inr ⟨datatype, component, n, result, hv, hresult, .inr ⟨hflag, hvalues, rfl⟩⟩
  · rw [h.values_eq_nil hv hresult (fun hunknown => absurd hunknown hflag) hunknown,
      List.nil_append]
    exact ⟨.inr ⟨datatype, component, n, result, hv, hresult, .inl rfl⟩, rfl⟩

/-- What references are evaluated to, they mean, when the objects have been collected. -/
theorem refMeaning_of_evaluateRef (hall : Collected syschars) {fuel : ℕ}
    (hcalls : ∀ v st st' ok, Consistent env model syschars st →
      call env model sess fuel .compute v st = some (st', ok) →
      Consistent env model syschars st' ∧ ∃ n, varMeaning env model syschars n v =
        some (if ok then referred (getValues model st' v) else (.error, [])))
    {st st' : State ν ω} {x : OvalRef ν ω} {r : ComponentResult}
    (hst : Consistent env model syschars st)
    (h : evaluateRef model (arguOf env model sess fuel .compute) st x = some (st', r)) :
    Consistent env model syschars st' ∧
      ∃ n, refMeaning syschars (varMeaning env model syschars n) x = some r := by
  cases x with
  | literal value =>
      cases h
      exact ⟨hst, 0, rfl⟩
  | objectref object itemField recordField =>
      cases object with
      | none =>
          cases h
          exact ⟨hst, 0, rfl⟩
      | some object =>
          obtain ⟨syschar, hsyschar, hcollected⟩ := hall object
          have hobtain : (arguOf env model sess fuel .compute).syschar object st =
              some (st, some syschar) :=
            arguOf_syschar .compute (hst.syschars_eq ▸ hsyschar) hcollected
          simp only [evaluateRef, hobtain, Option.bind_eq_bind, Option.bind_some] at h
          cases h
          exact ⟨hst, 0, by simp [refMeaning, hsyschar, hcollected]⟩
  | varref target =>
      cases target with
      | none =>
          cases h
          exact ⟨hst, 0, rfl⟩
      | some v =>
          rw [evaluateRef, arguOf_evaluateVariable, Option.bind_eq_bind,
            Option.bind_eq_some_iff] at h
          obtain ⟨⟨st₁, ok⟩, hcall, heq⟩ := h
          obtain ⟨hst₁, n, hn⟩ := hcalls v st st₁ ok hst hcall
          cases ok with
          | false =>
              cases heq
              exact ⟨hst₁, n, hn⟩
          | true =>
              cases heq
              exact ⟨hst₁, n, hn⟩

/-- **What a run computes, the variable means**, when the objects have been collected. -/
theorem varMeaning_of_call (hall : Collected syschars) (fuel : ℕ) :
    ∀ v st st' ok, Consistent env model syschars st →
      call env model sess fuel .compute v st = some (st', ok) →
      Consistent env model syschars st' ∧ ∃ n, varMeaning env model syschars n v =
        some (if ok then referred (getValues model st' v) else (.error, [])) := by
  induction fuel with
  | zero =>
      intro v st st' ok _ h
      cases h
  | succ fuel ih =>
      intro v st st' ok hst h
      cases hv : model v with
      | constant flag values =>
          cases (call_of_other (by simp [hv])).symm.trans h
          exact ⟨hst, 1, by simp [varMeaning, hv, getValues]⟩
      | external flag values =>
          cases (call_of_other (by simp [hv])).symm.trans h
          exact ⟨hst, 1, by simp [varMeaning, hv, getValues]⟩
      | unknown =>
          cases (call_of_other (by simp [hv])).symm.trans h
          exact ⟨hst, 1, by simp [varMeaning, hv, getValues, referred]⟩
      | localVariable datatype component =>
          cases component with
          | none =>
              cases (call_of_null hv (by rw [(hst.entry v).of_null hv])).symm.trans h
              exact ⟨hst, 1, by simp [varMeaning, hv]⟩
          | some component =>
              by_cases hunknown : (st.locals v).1 = .unknown
              · rw [call_of_unknown hv hunknown, Option.map_eq_some_iff] at h
                obtain ⟨⟨st₁, result⟩, heval, heq⟩ := h
                have hmono : ∀ n n' x r, n ≤ n' →
                    refMeaning syschars (varMeaning env model syschars n) x = some r →
                    refMeaning syschars (varMeaning env model syschars n') x = some r :=
                  fun n n' x r hn => refMeaning_mono (fun v r => varMeaning_mono hn) x r
                obtain ⟨hst₁, n, hn⟩ := meaning_of_run hmono
                  (fun st x st' r hst h => refMeaning_of_evaluateRef hall ih hst h) hst heval
                obtain ⟨hentry, hreferred⟩ := (hst.entry v).add hv hn hunknown
                cases heq
                refine ⟨hst₁.setLocal hentry, n + 1, varMeaning_succ.mpr ⟨settle result, ?_, ?_⟩⟩
                · rw [varFinal, hv]
                  exact Option.map_eq_some_iff.mpr ⟨result, hn, rfl⟩
                · simp [evaluable, hv, getValues, State.setLocal, finish, hreferred]
              · cases (call_of_known hunknown).symm.trans h
                obtain ⟨n, result, hn, hentry⟩ := (hst.entry v).of_known hv hunknown
                refine ⟨hst, n + 1, varMeaning_succ.mpr ⟨settle result, ?_, ?_⟩⟩
                · rw [varFinal, hv]
                  exact Option.map_eq_some_iff.mpr ⟨result, hn, rfl⟩
                · simp [evaluable, hv, getValues, hentry]

/-! ### When the values are the same -/

/-- The first of some calls. -/
theorem calls_cons {fuel : ℕ} {mode : Mode} {v : ν} {st st' : State ν ω} {ok : Bool}
    (h : call env model sess fuel mode v st = some (st', ok)) (rest : List (Mode × ν)) :
    calls env model sess fuel ((mode, v) :: rest) st = calls env model sess fuel rest st' := by
  simp [calls, h]

/-- Where the values are the same, all components mean something. -/
theorem SameValues.exists_componentMeaning (h : SameValues env model sess syschars)
    (hall : Collected syschars) {v : ν} {datatype : OvalDatatype}
    {component : OvalComponent ν ω} (hv : model v = .localVariable datatype (some component)) :
    ∃ n result, componentMeaning env model syschars n component = some result := by
  obtain ⟨_, hsame⟩ := h v
  obtain ⟨fuel, hfuel⟩ := hsame [(.compute, v)] ⟨.compute, List.mem_singleton_self _⟩
  obtain ⟨st, hcalls, -⟩ := hfuel fuel le_rfl
  rw [calls, Option.bind_eq_bind, Option.bind_eq_some_iff] at hcalls
  obtain ⟨⟨st₁, ok⟩, hcall, -⟩ := hcalls
  obtain ⟨-, n, hn⟩ := varMeaning_of_call hall fuel v _ st₁ ok consistent_start hcall
  cases n with
  | zero => cases hn
  | succ n =>
      obtain ⟨final, hfinal, -⟩ := varMeaning_succ.mp hn
      rw [varFinal, hv] at hfinal
      obtain ⟨result, hresult, -⟩ := Option.map_eq_some_iff.mp hfinal
      exact ⟨n, result, hresult⟩

/-- The values have the datatype of the variable if the two functions make the same of them, and an
unknown flag has no values if adding them again makes no difference. -/
theorem settledResult_of_finish {datatype : OvalDatatype} {result : ComponentResult}
    (hcast : finish datatype result .query = settle result)
    (hadd : (settle result).1 = .unknown →
      settle (result.1, (settle result).2 ++ result.2) = settle result) :
    SettledResult datatype result := by
  refine ⟨fun hvalues => ?_, fun hunknown => ?_⟩
  · by_cases hempty : result.2 = []
    · simp [hempty]
    · rw [finish, if_pos ⟨hvalues, hempty⟩, settle, if_neg fun h => hempty h.2] at hcast
      exact map_valueCast.mp (Prod.ext_iff.mp hcast).2
  · have hsettle : settle result = result := by simp [settle, hunknown, hasValues]
    have hadd := hadd (by rw [hsettle, hunknown])
    rw [hsettle] at hadd
    have hadded : settle (result.1, result.2 ++ result.2) = (result.1, result.2 ++ result.2) := by
      simp [settle, hunknown, hasValues]
    rw [hadded] at hadd
    simpa using (Prod.ext_iff.mp hadd).2

omit [DecidableEq ω] in
/-- What a call leaves, a local variable has. -/
theorem getValues_setLocal (st : State ν ω) {v : ν} {datatype : OvalDatatype}
    {component : Option (OvalComponent ν ω)} (hv : model v = .localVariable datatype component)
    (result : ComponentResult) : getValues model (st.setLocal v result) v = result := by
  simp [getValues, hv, State.setLocal]

/-- What one call leaves is what all sequences leave. -/
theorem eq_of_call {n fuel : ℕ} {mode : Mode} {v : ν} {st st' : State ν ω} {ok : Bool}
    {rest : List (Mode × ν)} {result : ComponentResult}
    (h : ∀ fuel ≥ n, ∃ st', calls env model sess fuel ((mode, v) :: rest) st = some st' ∧
      getValues model st' v = result)
    (hfuel : n ≤ fuel) (hcall : call env model sess fuel mode v st = some (st', ok)) :
    ∃ st'', calls env model sess fuel rest st' = some st'' ∧ getValues model st'' v = result := by
  obtain ⟨st'', hcalls, hvalues⟩ := h fuel hfuel
  exact ⟨st'', (calls_cons hcall rest).symm.trans hcalls, hvalues⟩

/-- Where the values are the same, they are settled, one level after the other. -/
theorem SameValues.settledBelow (h : SameValues env model sess syschars) (n : ℕ) :
    SettledBelow env model syschars n := by
  induction n with
  | zero => exact fun v datatype component k result hk => absurd hk (Nat.not_lt_zero k)
  | succ n ih =>
      intro v datatype component k result hk hv hresult
      rcases Nat.lt_succ_iff_lt_or_eq.mp hk with hlt | rfl
      · exact ih v datatype component k result hlt hv hresult
      obtain ⟨final, hsame⟩ := h v
      -- one call of each function, and two calls of the first
      obtain ⟨n₁, h₁⟩ := hsame [(.compute, v)] ⟨.compute, by simp⟩
      obtain ⟨n₂, h₂⟩ := hsame [(.query, v)] ⟨.query, by simp⟩
      obtain ⟨n₃, h₃⟩ := hsame [(.compute, v), (.compute, v)] ⟨.compute, by simp⟩
      let fuel := n₁ + n₂ + n₃ + k
      have hcalls : ∀ mode, ∀ m < k, CallsMean env model sess syschars m fuel mode :=
        fun mode m hm => callsMean (ih.mono hm) (by omega) mode
      obtain ⟨st₁, hadv₁, hcompute⟩ :=
        call_of_componentMeaning (hcalls .compute) hv hresult consistent_start rfl
      obtain ⟨st₂, -, hquery⟩ :=
        call_of_componentMeaning (hcalls .query) hv hresult consistent_start rfl
      have hfinal : final = settle result := by
        obtain ⟨_, heq, hvalues⟩ := eq_of_call h₁ (by omega) hcompute
        cases heq
        rw [← hvalues, getValues_setLocal _ hv]
        rfl
      have hcast : finish datatype result .query = final := by
        obtain ⟨_, heq, hvalues⟩ := eq_of_call h₂ (by omega) hquery
        cases heq
        rw [← hvalues, getValues_setLocal _ hv]
        rfl
      refine settledResult_of_finish (hcast.trans hfinal) fun hunknown => ?_
      -- the second call adds to the values of the first
      have hst := consistent_start.of_advances (hadv₁.trans (.setLocal st₁ hv hresult))
      have hlocals : (st₁.setLocal v (settle result)).locals v = settle result := by
        simp [State.setLocal]
      obtain ⟨st₃, -, hagain⟩ := call_of_componentMeaning (hcalls .compute) hv hresult hst
        (by rw [hlocals, hunknown])
      obtain ⟨_, hsecond, hvalues⟩ := eq_of_call h₃ (by omega) hcompute
      cases (calls_cons hagain []).symm.trans hsecond
      rw [getValues_setLocal _ hv, hlocals] at hvalues
      exact hvalues.trans hfinal

/-- **Both functions leave the same values in all orders of calls** where the values of all local
variables are settled, and only there when all objects have been collected. -/
theorem sameValues_iff (env : Environment D) (model : ν → OvalVariable ν ω)
    (sess : Session ν ω) (syschars : ω → Option Syschar) :
    (Settled env model syschars → SameValues env model sess syschars) ∧
      (Collected syschars →
        (SameValues env model sess syschars ↔ Settled env model syschars)) := by
  refine ⟨fun h => h.sameValues, fun hall => ⟨fun h => ?_, fun h => h.sameValues⟩⟩
  intro v datatype component hv
  obtain ⟨n, result, hresult⟩ := h.exists_componentMeaning hall hv
  exact ⟨n, result, hresult,
    h.settledBelow (n + 1) v datatype component n result n.lt_succ_self hv hresult⟩

end Spec

/-- No patterns are compiled, and there are no handlers. -/
def emptyEnvironment : Environment ℕ := ⟨0, digitArithmetic, fun _ => none⟩

/-- There is nothing to collect. -/
def emptySession : Session Unit Empty := ⟨fun _ => false, fun _ st => some (st, false)⟩

/-- The number of values is an integer. -/
theorem sameValues_count : SameValues emptyEnvironment
    (fun () => .localVariable .integer (some (.node .functionCount
      [.ref (.literal ⟨.string, [ascii 'x']⟩)]))) emptySession (fun object => object.elim) := by
  refine (sameValues_iff _ _ _ _).1 fun v datatype component hv => ?_
  cases hv
  refine ⟨0, (.complete, [⟨.integer, [ascii '1']⟩]), by decide, ?_⟩
  refine ⟨fun _ value hvalue => ?_, fun h => by cases h⟩
  rw [List.mem_singleton.mp hvalue]

/-- An integer variable with a literal is given a string by one function, and an integer by the
other. -/
theorem not_sameValues : ¬ ∀ (model : Unit → OvalVariable Unit Empty),
    SameValues emptyEnvironment model emptySession (fun object => object.elim) := by
  intro h
  obtain ⟨final, hsame⟩ := h (fun () => .localVariable .integer
    (some (.ref (.literal ⟨.string, [ascii '5']⟩)))) ()
  obtain ⟨n, h₁⟩ := hsame [(.compute, ())] ⟨.compute, by simp⟩
  obtain ⟨m, h₂⟩ := hsame [(.query, ())] ⟨.query, by simp⟩
  obtain ⟨st₁, hcalls₁, hvalues₁⟩ := h₁ (n + 1) (by omega)
  obtain ⟨st₂, hcalls₂, hvalues₂⟩ := h₂ (m + 1) (by omega)
  cases hcalls₁
  cases hcalls₂
  cases hvalues₁
  cases hvalues₂

end OpenScap.VariableValues
