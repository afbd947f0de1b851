import OpenScap.CpeLang

/-!
# The round trip of CPE applicability expressions

Where a logical test has no nodes, the parser takes the depth of what follows it for that of its
subexpressions. If another subexpression follows, it is taken into the empty test; if the end of
the enclosing test follows, this end is passed over, and what follows the enclosing test is met
at the same depth.

An expression is read back if no subexpression with another one behind it is an empty test or
ends in one, and the names in it are read back. The whole expression may be an empty test if no
platform follows.

## Main results

* `parses_export` — where the reader is left behind an expression that is read back;
* `readsBack_of_parses` — only such expressions are;
* `export_roundTrips_iff` — the round trip, with the platforms that follow.
-/

open XmlEvents AssertedRun

namespace OpenScap

/-! ### Expressions that are read back -/

mutual

/-- To prove something of all expressions, a logical test has it if its subexpressions have. -/
@[induction_eliminator]
theorem PlatformExpr.induction {motive : PlatformExpr → Prop} (fact : ∀ cpe, motive (.fact cpe))
    (check : ∀ system href id, motive (.check system href id))
    (logical : ∀ oper es, (∀ e ∈ es, motive e) → motive (.logical oper es)) : ∀ e, motive e
  | .fact cpe => fact cpe
  | .check system href id => check system href id
  | .logical oper es => logical oper es (PlatformExpr.forall_mem_induction fact check logical es)

/-- The same for lists of expressions. -/
theorem PlatformExpr.forall_mem_induction {motive : PlatformExpr → Prop}
    (fact : ∀ cpe, motive (.fact cpe))
    (check : ∀ system href id, motive (.check system href id))
    (logical : ∀ oper es, (∀ e ∈ es, motive e) → motive (.logical oper es)) :
    ∀ es : List PlatformExpr, ∀ e ∈ es, motive e
  | [] => List.forall_mem_nil _
  | e :: es => List.forall_mem_cons.mpr
      ⟨PlatformExpr.induction fact check logical e,
        PlatformExpr.forall_mem_induction fact check logical es⟩

end

/-- A logical test without subexpressions. -/
def PlatformExpr.isEmpty : PlatformExpr → Bool
  | .logical _ [] => true
  | _ => false

/-- The last of the expressions is an empty test. -/
def lastEmpty (es : List PlatformExpr) : Bool := es.getLast?.any PlatformExpr.isEmpty

/-- An empty test, or one whose last subexpression is. -/
def PlatformExpr.endsEmpty : PlatformExpr → Bool
  | .logical _ es => es.isEmpty || lastEmpty es
  | _ => false

/-- The names and the attributes of the references survive, and what has another subexpression
behind it does not end in an empty test. -/
inductive PlatformExpr.ReadsBack : PlatformExpr → Prop
  | fact {cpe : CpeName} (h : cpeNameNew (some ((cpeNameGetAsStr cpe).getD [])) = some cpe) :
      ReadsBack (.fact cpe)
  | check (system href id : List UInt8) : ReadsBack (.check (some system) (some href) (some id))
  | logical {oper : CpeLangOper} {es : List PlatformExpr} (h : ∀ e ∈ es, ReadsBack e)
      (hends : ∀ e ∈ es.dropLast, e.endsEmpty = false) : ReadsBack (.logical oper es)

/-! ### The events of an exported expression -/

/-- An operator is read back. -/
theorem readHead_operAttrs (d : ℕ) (oper : CpeLangOper) (content : CpeLangContent)
    (rest : CpeLangReader) :
    readHead (.start d .logicalTest (operAttrs oper) content :: rest) = .logical oper := by
  have hoper : readOper (.start d .logicalTest (operAttrs oper) content :: rest) =
      some oper := by
    cases oper <;> rfl
  simp only [readHead, hoper]

theorem events_fact (d : ℕ) (scope : CpeLangAttrs) (cpe : CpeName) :
    (cpeTestexprExport (.fact cpe)).events d scope =
    [.start d .factRef [(.name, (cpeNameGetAsStr cpe).getD [])] ⟨true, [], scope⟩] := by
  rw [cpeTestexprExport, Xml.written, Xml.events]

theorem events_check (d : ℕ) (scope : CpeLangAttrs) (system href id : Option (List UInt8)) :
    (cpeTestexprExport (.check system href id)).events d scope =
      [.start d .checkFactRef
        [(.system, system.getD []), (.href, href.getD []), (.idRef, id.getD [])]
        ⟨true, [], scope⟩] := by
  rw [cpeTestexprExport, Xml.written, Xml.events]

theorem events_empty (d : ℕ) (scope : CpeLangAttrs) (oper : CpeLangOper) :
    (cpeTestexprExport (.logical oper [])).events d scope =
      [.start d .logicalTest (operAttrs oper) ⟨true, [], scope⟩] := by
  rw [cpeTestexprExport, testexprsExport, Xml.written, Xml.events]

theorem events_logical (d : ℕ) (scope : CpeLangAttrs) (oper : CpeLangOper)
    {es : List PlatformExpr} (h : es ≠ []) :
    (cpeTestexprExport (.logical oper es)).events d scope =
      .start d .logicalTest (operAttrs oper) ⟨false, testexprsExport es, scope⟩ ::
        (nodesEvents (d + 1) (operAttrs oper ++ scope) (testexprsExport es) ++
          [.finish d .logicalTest]) := by
  rw [cpeTestexprExport, Xml.events_written]
  cases es with
  | nil => exact absurd rfl h
  | cons e es => rw [testexprsExport]; exact List.cons_ne_nil _ _

/-- The reader is at the start of an expression at a depth. -/
def StartsExpr (d : ℕ) (reader : CpeLangReader) : Prop :=
  ∃ tag attrs content rest, reader = .start d tag attrs content :: rest ∧
    tag ∈ [CpeLangTag.logicalTest, .factRef, .checkFactRef]

theorem StartsExpr.depthAt_eq {d : ℕ} {reader : CpeLangReader} (h : StartsExpr d reader) :
    depthAt reader = d := by
  obtain ⟨tag, attrs, content, rest, rfl, -⟩ := h
  rfl

theorem startsExpr_export (d : ℕ) (scope : CpeLangAttrs) (e : PlatformExpr) (rest : CpeLangReader) :
    StartsExpr d ((cpeTestexprExport e).events d scope ++ rest) := by
  cases e with
  | fact cpe => exact ⟨_, _, _, _, by rw [events_fact]; rfl, by decide⟩
  | check system href id => exact ⟨_, _, _, _, by rw [events_check]; rfl, by decide⟩
  | logical oper es =>
      by_cases h : es = []
      · subst h
        exact ⟨_, _, _, _, by rw [events_empty]; rfl, by decide⟩
      · exact ⟨_, _, _, _, by rw [events_logical d scope oper h]; rfl, by decide⟩

theorem startsExpr_exports (d : ℕ) (scope : CpeLangAttrs) {es : List PlatformExpr} (h : es ≠ [])
    (rest : CpeLangReader) :
    StartsExpr d (nodesEvents d scope (testexprsExport es) ++ rest) := by
  cases es with
  | nil => exact absurd rfl h
  | cons e es =>
      rw [testexprsExport, nodesEvents_cons, List.append_assoc]
      exact startsExpr_export d scope e _

/-- At the start of an expression, deep enough, the loop adds a subexpression. -/
theorem Gathers.length_lt {depth d : ℕ} {exprs exprs' : List CpeTestexpr}
    {reader behind : CpeLangReader} (h : Gathers depth exprs reader exprs' behind)
    (hstart : StartsExpr d reader) (hle : depth ≤ d) : exprs.length < exprs'.length := by
  obtain ⟨tag, attrs, content, rest, rfl, htag⟩ := hstart
  have hadded : ∃ expr reader', Gathers depth (exprs ++ [expr]) reader' exprs' behind := by
    simp only [List.mem_cons, List.not_mem_nil, or_false] at htag
    rcases htag with rfl | rfl | rfl
    · obtain ⟨expr, reader', -, hrest⟩ := (gathers_test hle).mp h
      exact ⟨expr, _, hrest⟩
    · exact ⟨_, _, (gathers_fact hle).mp h⟩
    · exact ⟨_, _, (gathers_checkFact hle).mp h⟩
  obtain ⟨expr, reader', hrest⟩ := hadded
  have hlen := hrest.spec.2.length_le
  rw [List.length_append, List.length_singleton] at hlen
  omega

/-- At a logical test, the loop adds what the parser makes of it. -/
theorem gathers_logical {depth d : ℕ} {scope : CpeLangAttrs} {exprs exprs' : List CpeTestexpr}
    {oper : CpeLangOper} {es : List PlatformExpr} {rest behind : CpeLangReader} (h : depth ≤ d) :
    Gathers depth exprs ((cpeTestexprExport (.logical oper es)).events d scope ++ rest) exprs'
        behind ↔
      ∃ expr reader',
        Parses ((cpeTestexprExport (.logical oper es)).events d scope ++ rest) expr reader' ∧
          Gathers depth (exprs ++ [expr])
            (if depth < depthAt reader' then reader'.tail else reader') exprs' behind := by
  by_cases hnil : es = []
  · subst hnil
    rw [events_empty]
    exact gathers_test h
  · rw [events_logical d _ oper hnil]
    exact gathers_test h

/-! ### Where the reader is left -/

/-- Where the reader is left behind an expression at a depth. An empty test takes the end of the
enclosing test with it; a test whose last subexpression is empty has its own end taken. -/
def PlatformExpr.behind (d : ℕ) (scope : CpeLangAttrs) (rest : CpeLangReader) :
    PlatformExpr → CpeLangReader
  | .logical _ [] => rest.tail
  | .logical _ (e :: es) =>
      if lastEmpty (e :: es) then rest else .finish d .logicalTest :: rest
  | .fact cpe => (cpeTestexprExport (.fact cpe)).events d scope ++ rest
  | .check system href id => (cpeTestexprExport (.check system href id)).events d scope ++ rest

/-- What may stand behind an expression at a depth: behind an empty test, the end of the
enclosing element and then something less deep; behind a test whose last subexpression is empty,
something less deep. -/
def PlatformExpr.Room (d : ℕ) (rest : CpeLangReader) : PlatformExpr → Prop
  | .logical _ [] => ∃ p tag rest', rest = .finish p tag :: rest' ∧ depthAt rest' < p
  | .logical _ (e :: es) => lastEmpty (e :: es) = true → depthAt rest < d
  | .fact _ => True
  | .check .. => True

theorem lastEmpty_singleton (e : PlatformExpr) : lastEmpty [e] = e.isEmpty := rfl

theorem lastEmpty_cons (e : PlatformExpr) {es : List PlatformExpr} (h : es ≠ []) :
    lastEmpty (e :: es) = lastEmpty es := by
  rw [lastEmpty, List.getLast?_cons, lastEmpty, List.getLast?_eq_some_getLast h]
  rfl

/-- Behind an expression that does not end in an empty test, the reader is at its end. -/
theorem PlatformExpr.behind_logical {d : ℕ} {scope : CpeLangAttrs} {rest : CpeLangReader}
    {oper : CpeLangOper} {es : List PlatformExpr}
    (h : (PlatformExpr.logical oper es).endsEmpty = false) :
    (PlatformExpr.logical oper es).Room d rest ∧
      (PlatformExpr.logical oper es).behind d scope rest = .finish d .logicalTest :: rest := by
  cases es with
  | nil => exact absurd h (by simp [PlatformExpr.endsEmpty])
  | cons e es =>
      have hlast : lastEmpty (e :: es) = false := h
      exact ⟨fun hempty => absurd (hempty.symm.trans hlast) (by simp), by
        rw [PlatformExpr.behind, hlast]; rfl⟩

/-- The loop of a test reads its subexpressions and stops at its end, or behind it if the last
one is an empty test. -/
theorem gathers_export {d : ℕ} {scope : CpeLangAttrs} {tag : CpeLangTag} {rest : CpeLangReader} :
    ∀ {es : List PlatformExpr} (acc : List CpeTestexpr), (∀ e ∈ es, e.ReadsBack) →
      (∀ e ∈ es, ∀ rest, e.Room (d + 1) rest →
        Parses ((cpeTestexprExport e).events (d + 1) scope ++ rest) e.testexpr
          (e.behind (d + 1) scope rest)) →
      (∀ e ∈ es.dropLast, e.endsEmpty = false) → (lastEmpty es = true → depthAt rest < d) →
      Gathers (d + 1) acc (nodesEvents (d + 1) scope (testexprsExport es) ++ .finish d tag :: rest)
        (acc ++ testexprs es) (if lastEmpty es then rest else .finish d tag :: rest)
  | [], acc, _, _, _, _ => by
      rw [testexprsExport, nodesEvents_nil, List.nil_append, testexprs, List.append_nil]
      exact (gathers_stop (Nat.lt_succ_self d)).mpr ⟨rfl, rfl⟩
  | e :: es, acc, hreads, hparses, hends, hrest => by
      rw [testexprsExport, nodesEvents_cons, List.append_assoc, testexprs]
      have hassoc : acc ++ e.testexpr :: testexprs es = acc ++ [e.testexpr] ++ testexprs es := by
        simp
      -- the loop goes on behind an expression that does not end in an empty test
      have hnext : es ≠ [] ∨ lastEmpty [e] = false → Gathers (d + 1) (acc ++ [e.testexpr])
          (nodesEvents (d + 1) scope (testexprsExport es) ++ .finish d tag :: rest)
          (acc ++ e.testexpr :: testexprs es)
          (if lastEmpty (e :: es) then rest else .finish d tag :: rest) := by
        intro h
        have hlast : lastEmpty (e :: es) = lastEmpty es := by
          by_cases hnil : es = []
          · subst hnil
            exact h.resolve_left fun hne => hne rfl
          · exact lastEmpty_cons e hnil
        rw [hassoc, hlast]
        rw [hlast] at hrest
        refine gathers_export _ (fun x hx => hreads x (List.mem_cons_of_mem _ hx))
          (fun x hx => hparses x (List.mem_cons_of_mem _ hx)) (fun x hx => hends x ?_) hrest
        have hnil : es ≠ [] := by
          rintro rfl
          exact nomatch hx
        rw [List.dropLast_cons_of_ne_nil hnil]
        exact List.mem_cons_of_mem _ hx
      have hread := hreads e List.mem_cons_self
      cases e with
      | fact cpe =>
          rw [events_fact, List.singleton_append, gathers_fact (Nat.le_refl _)]
          have hname : cpeNameNew (some ((cpeNameGetAsStr cpe).getD [])) = some cpe := by
            cases hread with
            | fact h => exact h
          have hlookup : [(CpeLangAttr.name, (cpeNameGetAsStr cpe).getD [])].lookup .name =
            some ((cpeNameGetAsStr cpe).getD []) := rfl
          rw [hlookup, hname]
          exact hnext (.inr rfl)
      | check system href id =>
          rw [events_check, List.singleton_append, gathers_checkFact (Nat.le_refl _)]
          cases hread
          exact hnext (.inr rfl)
      | logical oper cs =>
          have hparse := hparses _ List.mem_cons_self
            (nodesEvents (d + 1) scope (testexprsExport es) ++ .finish d tag :: rest)
          rw [gathers_logical (Nat.le_refl _)]
          by_cases hend : (PlatformExpr.logical oper cs).endsEmpty = false
          · obtain ⟨hroom, hbehind⟩ := PlatformExpr.behind_logical hend
            refine ⟨_, _, hparse hroom, ?_⟩
            rw [hbehind, depthAt_cons, depth_finish, if_neg (Nat.lt_irrefl _),
              gathers_finish (Nat.le_refl _)]
            cases cs with
            | nil => exact absurd hend (by simp [PlatformExpr.endsEmpty])
            | cons c cs => exact hnext (.inr rfl)
          · -- nothing stands behind an expression that ends in an empty test
            obtain rfl : es = [] := by
              by_contra hnil
              rw [List.dropLast_cons_of_ne_nil hnil] at hends
              exact hend (hends _ List.mem_cons_self)
            rw [testexprsExport, nodesEvents_nil, List.nil_append] at hparse
            rw [lastEmpty_singleton] at hrest
            rw [testexprsExport, nodesEvents_nil, List.nil_append, lastEmpty_singleton,
              testexprs]
            cases cs with
            | nil =>
                have hlt : depthAt rest < d := hrest rfl
                refine ⟨_, _, hparse ⟨d, tag, rest, rfl, hlt⟩, ?_⟩
                have hle : ¬ d + 1 < depthAt rest := by omega
                rw [PlatformExpr.behind, List.tail_cons, if_neg hle]
                exact (gathers_stop (by omega)).mpr ⟨rfl, rfl⟩
            | cons c cs =>
                refine ⟨_, _, hparse fun _ => Nat.lt_succ_self d, ?_⟩
                have hlast : lastEmpty (c :: cs) = true := by
                  simpa [PlatformExpr.endsEmpty] using hend
                have hle : ¬ d + 1 < depthAt (Event.finish d tag :: rest) := by
                  rw [depthAt_cons, depth_finish]
                  omega
                rw [PlatformExpr.behind, if_pos hlast, if_neg hle]
                exact (gathers_stop (Nat.lt_succ_self d)).mpr ⟨rfl, rfl⟩

/-- **An expression is read back**, and the reader is left behind it. -/
theorem parses_export {e : PlatformExpr} (h : e.ReadsBack) :
    ∀ d scope rest, e.Room d rest →
      Parses ((cpeTestexprExport e).events d scope ++ rest) e.testexpr (e.behind d scope rest) := by
  induction e with
  | fact cpe =>
      intro d scope rest _
      cases h with
      | fact hname =>
          rw [events_fact, PlatformExpr.behind, events_fact]
          refine (parses_complete rfl).mpr ⟨?_, rfl⟩
          exact congrArg CpeTestexpr.fact hname.symm
  | check system href id =>
      intro d scope rest _
      cases h
      rw [events_check, PlatformExpr.behind, events_check]
      exact (parses_complete rfl).mpr ⟨rfl, rfl⟩
  | logical oper es ih =>
      intro d scope rest hroom
      cases h with
      | logical hreads hends =>
          cases es with
          | nil =>
              obtain ⟨p, tag, rest', rfl, hlt⟩ := hroom
              rw [events_empty, List.singleton_append,
                parses_logical (readHead_operAttrs d oper _ _)]
              refine ⟨[], rfl, ?_⟩
              rw [List.tail_cons, depthAt_cons, depth_finish, gathers_finish (Nat.le_refl _)]
              exact (gathers_stop hlt).mpr ⟨rfl, rfl⟩
          | cons e es =>
              rw [events_logical d _ oper (List.cons_ne_nil e es), List.cons_append,
                List.append_assoc, List.singleton_append,
                parses_logical (readHead_operAttrs d oper _ _)]
              have hne : e :: es ≠ [] := List.cons_ne_nil e es
              refine ⟨_, rfl, ?_⟩
              rw [List.tail_cons, (startsExpr_exports (d + 1) _ hne _).depthAt_eq]
              exact gathers_export [] hreads (fun x hx => ih x hx (hreads x hx) (d + 1) _) hends
                hroom

/-! ### Only such expressions are read back -/

/-- The parser reads an expression back only if it is such an expression, and if another one
stands behind it, only if it does not end in an empty test. -/
def ReadsBackOnly (e : PlatformExpr) : Prop :=
  ∀ d scope rest behind,
    Parses ((cpeTestexprExport e).events d scope ++ rest) e.testexpr behind →
    e.ReadsBack ∧ (StartsExpr d rest → e.endsEmpty = false)

/-- The first expression that the loop added stays. -/
theorem added_eq {depth : ℕ} {acc exprs : List CpeTestexpr} {expr expr' : CpeTestexpr}
    {reader behind : CpeLangReader}
    (h : Gathers depth (acc ++ [expr]) reader (acc ++ expr' :: exprs) behind) : expr = expr' := by
  have hprefix := h.spec.2
  rw [List.prefix_append_right_inj, List.cons_prefix_cons] at hprefix
  exact hprefix.1

/-- An empty test is read back as one only if no expression stands where it looks for
subexpressions: not behind it, and not behind the end of the enclosing test. -/
theorem not_startsExpr_of_parses {d p : ℕ} {scope : CpeLangAttrs} {oper : CpeLangOper}
    {rest behind : CpeLangReader}
    (h : Parses ((cpeTestexprExport (.logical oper [])).events d scope ++ rest)
      (PlatformExpr.logical oper []).testexpr behind) :
    ¬ StartsExpr p rest ∧ ∀ tag rest', rest = .finish p tag :: rest' → ¬ StartsExpr p rest' := by
  rw [events_empty, List.singleton_append,
    parses_logical (readHead_operAttrs d oper _ _)] at h
  obtain ⟨exprs, hexprs, hgathers⟩ := h
  obtain rfl : [] = exprs := (CpeTestexpr.logical.inj hexprs).2
  rw [List.tail_cons] at hgathers
  refine ⟨fun hstart => ?_, ?_⟩
  · exact absurd (hgathers.length_lt hstart hstart.depthAt_eq.le) (Nat.lt_irrefl _)
  · rintro tag rest' rfl hstart
    rw [depthAt_cons, depth_finish, gathers_finish (Nat.le_refl _)] at hgathers
    exact absurd (hgathers.length_lt hstart (Nat.le_refl _)) (Nat.lt_irrefl _)

/-- The loop of a test reads its subexpressions back only if they are such expressions. -/
theorem readsBack_of_gathers {d : ℕ} {scope : CpeLangAttrs} {tag : CpeLangTag}
    {rest behind : CpeLangReader} :
    ∀ {es : List PlatformExpr} (acc : List CpeTestexpr), (∀ e ∈ es, ReadsBackOnly e) →
      Gathers (d + 1) acc (nodesEvents (d + 1) scope (testexprsExport es) ++ .finish d tag :: rest)
        (acc ++ testexprs es) behind →
      (∀ e ∈ es, e.ReadsBack) ∧ (∀ e ∈ es.dropLast, e.endsEmpty = false) ∧
        (StartsExpr d rest → lastEmpty es = false)
  | [], _, _, _ => ⟨List.forall_mem_nil _, List.forall_mem_nil _, fun _ => rfl⟩
  | e :: es, acc, hback, hgathers => by
      rw [testexprsExport, nodesEvents_cons, List.append_assoc, testexprs] at hgathers
      have hassoc : acc ++ e.testexpr :: testexprs es = acc ++ [e.testexpr] ++ testexprs es := by
        simp
      -- the rest of the expressions, behind one that does not end in an empty test
      have hnext : e.ReadsBack → e.endsEmpty = false →
          Gathers (d + 1) (acc ++ [e.testexpr])
            (nodesEvents (d + 1) scope (testexprsExport es) ++ .finish d tag :: rest)
            (acc ++ e.testexpr :: testexprs es) behind →
          (∀ x ∈ e :: es, x.ReadsBack) ∧ (∀ x ∈ (e :: es).dropLast, x.endsEmpty = false) ∧
            (StartsExpr d rest → lastEmpty (e :: es) = false) := by
        intro hread hend h
        rw [hassoc] at h
        obtain ⟨hreads, hends, hlast⟩ :=
          readsBack_of_gathers _ (fun x hx => hback x (List.mem_cons_of_mem _ hx)) h
        refine ⟨List.forall_mem_cons.mpr ⟨hread, hreads⟩, ?_, ?_⟩
        · by_cases hnil : es = []
          · subst hnil
            exact List.forall_mem_nil _
          · rw [List.dropLast_cons_of_ne_nil hnil]
            exact List.forall_mem_cons.mpr ⟨hend, hends⟩
        · intro hstart
          by_cases hnil : es = []
          · subst hnil
            rw [lastEmpty_singleton]
            cases e with
            | fact cpe => rfl
            | check system href id => rfl
            | logical oper cs =>
                cases cs with
                | nil => exact absurd hend (by simp [PlatformExpr.endsEmpty])
                | cons c cs => rfl
          · rw [lastEmpty_cons e hnil]
            exact hlast hstart
      cases e with
      | fact cpe =>
          rw [events_fact, List.singleton_append, gathers_fact (Nat.le_refl _)] at hgathers
          have heq := added_eq hgathers
          rw [heq] at hgathers
          exact hnext (.fact (CpeTestexpr.fact.inj heq)) rfl hgathers
      | check system href id =>
          rw [events_check, List.singleton_append, gathers_checkFact (Nat.le_refl _)] at hgathers
          have heq := added_eq hgathers
          rw [heq] at hgathers
          refine hnext ?_ rfl hgathers
          obtain ⟨hsystem, hhref, hid⟩ := CpeTestexpr.check.inj heq
          rw [← hsystem, ← hhref, ← hid]
          exact .check _ _ _
      | logical oper cs =>
          rw [gathers_logical (Nat.le_refl _)] at hgathers
          obtain ⟨expr, reader', hparse, hrest⟩ := hgathers
          obtain rfl := added_eq hrest
          obtain ⟨hread, hfollowed⟩ := hback _ List.mem_cons_self _ _ _ _ hparse
          by_cases hend : (PlatformExpr.logical oper cs).endsEmpty = false
          · obtain ⟨hroom, hbehind⟩ := PlatformExpr.behind_logical hend
            obtain ⟨-, rfl⟩ := hparse.unique (parses_export hread _ _ _ hroom)
            rw [hbehind, depthAt_cons, depth_finish, if_neg (Nat.lt_irrefl _),
              gathers_finish (Nat.le_refl _)] at hrest
            exact hnext hread hend hrest
          · -- nothing stands behind an expression that ends in an empty test
            obtain rfl : es = [] := by
              by_contra hnil
              exact hend (hfollowed (startsExpr_exports (d + 1) _ hnil _))
            refine ⟨List.forall_mem_singleton.mpr hread, List.forall_mem_nil _, fun hstart => ?_⟩
            rw [lastEmpty_singleton]
            cases cs with
            | nil =>
                rw [testexprsExport, nodesEvents_nil, List.nil_append] at hparse
                exact absurd hstart ((not_startsExpr_of_parses hparse).2 tag rest rfl)
            | cons c cs => rfl

/-- **Only such expressions are read back.** -/
theorem readsBack_of_parses (e : PlatformExpr) : ReadsBackOnly e := by
  induction e with
  | fact cpe =>
      intro d scope rest behind h
      rw [events_fact] at h
      have heq := ((parses_complete rfl).mp h).1
      exact ⟨.fact (CpeTestexpr.fact.inj heq).symm, fun _ => rfl⟩
  | check system href id =>
      intro d scope rest behind h
      rw [events_check] at h
      have heq := ((parses_complete rfl).mp h).1
      obtain ⟨hsystem, hhref, hid⟩ := CpeTestexpr.check.inj heq
      refine ⟨?_, fun _ => rfl⟩
      rw [hsystem, hhref, hid]
      exact .check _ _ _
  | logical oper es ih =>
      intro d scope rest behind h
      by_cases hnil : es = []
      · subst hnil
        refine ⟨.logical (List.forall_mem_nil _) (List.forall_mem_nil _), fun hstart => ?_⟩
        exact absurd hstart (not_startsExpr_of_parses h).1
      · rw [events_logical d _ oper hnil, List.cons_append, List.append_assoc,
          List.singleton_append, parses_logical (readHead_operAttrs d oper _ _)] at h
        obtain ⟨exprs, hexprs, hgathers⟩ := h
        rw [PlatformExpr.testexpr] at hexprs
        obtain rfl : testexprs es = exprs := (CpeTestexpr.logical.inj hexprs).2
        rw [List.tail_cons, (startsExpr_exports (d + 1) _ hnil _).depthAt_eq] at hgathers
        obtain ⟨hreads, hends, hlast⟩ := readsBack_of_gathers [] ih hgathers
        refine ⟨.logical hreads hends, fun hstart => ?_⟩
        simp [PlatformExpr.endsEmpty, hnil, hlast hstart]

/-! ### The expression of a platform -/

/-- What follows a platform of a specification at a depth: the platforms behind it, the end of
the specification and the rest of the document. -/
def followingEvents (depth : ℕ) (scope : CpeLangAttrs) (platforms : List CpePlatform)
    (tail : CpeLangReader) : CpeLangReader :=
  nodesEvents (depth + 1) scope (platforms.map cpePlatformExport) ++
    .finish depth .platformSpecification :: tail

/-- The expression of a platform is read back from what was exported, and what follows the
platform is still to be read. -/
def PlatformExpr.RoundTrips (e : PlatformExpr) (depth : ℕ) (scope attrs : CpeLangAttrs)
    (platforms : List CpePlatform) (tail : CpeLangReader) : Prop :=
  ∃ behind, Parses ((cpeTestexprExport e).events (depth + 2) (attrs ++ scope) ++
      .finish (depth + 1) .platform :: followingEvents depth scope platforms tail)
      e.testexpr behind ∧
    followingEvents depth scope platforms tail <:+ behind

/-- An empty test takes the start of the next platform. -/
theorem behind_of_empty {depth : ℕ} {scope attrs : CpeLangAttrs} {oper : CpeLangOper}
    {platform : CpePlatform} {platforms : List CpePlatform} {tail behind : CpeLangReader}
    {expr : CpeTestexpr}
    (h : Parses ((cpeTestexprExport (.logical oper [])).events (depth + 2) (attrs ++ scope) ++
      .finish (depth + 1) .platform :: followingEvents depth scope (platform :: platforms) tail)
      expr behind) :
    behind.length < (followingEvents depth scope (platform :: platforms) tail).length := by
  rw [events_empty, List.singleton_append,
    parses_logical (readHead_operAttrs _ oper _ _)] at h
  obtain ⟨exprs, -, hgathers⟩ := h
  rw [List.tail_cons, depthAt_cons, depth_finish, gathers_finish (Nat.le_refl _)] at hgathers
  have hplatform : ∃ attrs content rest,
      followingEvents depth scope (platform :: platforms) tail =
        .start (depth + 1) .platform attrs content :: rest := by
    rw [followingEvents, List.map_cons, nodesEvents_cons, cpePlatformExport]
    cases platform.titles.map titleExport ++ platform.expr.toList.map cpeTestexprExport with
    | nil => exact ⟨_, _, _, by rw [Xml.written, Xml.events]; rfl⟩
    | cons x xs => exact ⟨_, _, _, by rw [Xml.written, Xml.events]; rfl⟩
  obtain ⟨attrs, content, rest, heq⟩ := hplatform
  rw [heq, gathers_platform (Nat.le_refl _)] at hgathers
  rw [heq, List.length_cons]
  exact Nat.lt_succ_of_le hgathers.spec.1.length_le

/-- **The round trip of the expression of a platform.** It is read back without reading
anything of the platforms that follow if and only if the references survive, nothing stands
behind an empty test or a test that ends in one, and no platform follows an empty test. -/
theorem export_roundTrips_iff (e : PlatformExpr) (depth : ℕ) (scope attrs : CpeLangAttrs)
    (platforms : List CpePlatform) (tail : CpeLangReader) :
    e.RoundTrips depth scope attrs platforms tail ↔
      e.ReadsBack ∧ (e.isEmpty = true → platforms = []) := by
  constructor
  · rintro ⟨behind, hparse, hsuffix⟩
    refine ⟨(readsBack_of_parses e _ _ _ _ hparse).1, fun hempty => ?_⟩
    by_contra hne
    obtain ⟨platform, platforms, rfl⟩ := List.exists_cons_of_ne_nil hne
    cases e with
    | fact cpe => exact nomatch hempty
    | check system href id => exact nomatch hempty
    | logical oper es =>
        cases es with
        | nil => exact absurd hsuffix.length_le (Nat.not_le.mpr (behind_of_empty hparse))
        | cons e es => exact nomatch hempty
  · rintro ⟨hread, hempty⟩
    have hparse := parses_export hread (depth + 2) (attrs ++ scope)
      (.finish (depth + 1) .platform :: followingEvents depth scope platforms tail)
    cases e with
    | fact cpe =>
        exact ⟨_, hparse trivial, (List.suffix_cons _ _).trans (List.suffix_append _ _)⟩
    | check system href id =>
        exact ⟨_, hparse trivial, (List.suffix_cons _ _).trans (List.suffix_append _ _)⟩
    | logical oper es =>
        cases es with
        | nil =>
            obtain rfl := hempty rfl
            exact ⟨_, hparse ⟨_, _, _, rfl, Nat.lt_succ_self depth⟩, List.suffix_rfl⟩
        | cons e es =>
            refine ⟨_, hparse fun _ => Nat.lt_succ_self (depth + 1), ?_⟩
            rw [PlatformExpr.behind]
            split
            · exact List.suffix_cons _ _
            · exact (List.suffix_cons _ _).trans (List.suffix_cons _ _)

/-- An empty test with a check behind it. -/
def emptyThenCheck : PlatformExpr :=
  .logical .and [.logical .or [], .check (some []) (some []) (some [])]

/-- The check is taken into the empty test. -/
theorem not_roundTrips_emptyThenCheck :
    ¬ ∀ (e : PlatformExpr) (depth : ℕ) (scope attrs : CpeLangAttrs)
      (platforms : List CpePlatform) (tail : CpeLangReader),
      e.RoundTrips depth scope attrs platforms tail := by
  intro h
  obtain ⟨behind, hparse, -⟩ := h emptyThenCheck 0 [] [] [] []
  cases (readsBack_of_parses emptyThenCheck _ _ _ _ hparse).1 with
  | logical hreads hends => exact absurd (hends _ List.mem_cons_self) (by decide)

end OpenScap
