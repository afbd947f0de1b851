import Mathlib.Data.List.TakeWhile
import OpenScap.FallibleLoop
import OpenScap.ProbeVarref

/-!
# The variables of an object

What the library sends to a probe for an object (`oval_object_to_sexp`). The entities that refer
to a variable by an attribute come first, behind the name of the object. For each of them the
values of the variable are added to a list `varrefs`, which is sent only if there is one.

## Main results

* `contentLoop_spec` — what the loop over the contents of an object collects;
* `create_of_sent` — the context that is made of what is sent has a counter for every reference.
-/

namespace OpenScap.Varref

open FallibleLoop

variable {V D : Type}

/-! ### What is sent -/

/-- The variables of a definition model: their values, and how a value is converted to a
datatype (`oval_value_to_sexp`). -/
structure Variables (V D : Type) where
  values : List UInt8 → List V
  valueToSexp : V → D → Option Sexp

/-- An entity that refers to a variable by an attribute. -/
structure RefEntity (D : Type) where
  name : List UInt8
  operation : UInt32
  mask : Bool
  varId : List UInt8
  datatype : D
  varCheck : Option UInt32
  /-- An id is a C string. -/
  zero_notMem : 0 ∉ varId

/-- `oval_entity_to_sexp`, with the attribute that `oval_object_to_sexp` adds. -/
def ovalEntityToSexp (e : RefEntity D) : Sexp :=
  .list [.list (.string e.name ::
    .string (bytes [':', 'o', 'p', 'e', 'r', 'a', 't', 'i', 'o', 'n']) ::
    sexpNumberNewu e.operation ::
    ((if e.mask then [.string (bytes ['m', 'a', 's', 'k'])] else []) ++
      varRefName :: .string e.varId ::
      match e.varCheck with
      | some ochk => [.string (bytes [':', 'v', 'a', 'r', '_', 'c', 'h', 'e', 'c', 'k']),
          sexpNumberNewu ochk]
      | none => []))]

/-- `oval_varref_attr_to_sexp`; without a value it fails. -/
def ovalVarrefAttrToSexp (vars : Variables V D) (e : RefEntity D) : Option Sexp := do
  if vars.values e.varId = [] then none
  else
    let valLst ← (vars.values e.varId).mapM fun val => vars.valueToSexp val e.datatype
    some (.list [.string e.varId, sexpNumberNewu (UInt32.ofNat valLst.length), .list valLst])

/-- A content of an object: an entity that refers to a variable, or something else. -/
inductive ObjectContent (D : Type)
  | varrefAttribute (e : RefEntity D)
  | element (elm : Sexp)

/-- The lists that the loop over the contents fills. -/
structure ObjectLists where
  objSexp : List Sexp
  entLst : List Sexp
  varrefs : Option (List Sexp)
  varrefCnt : UInt32
  entCnt : UInt32

/-- The loop body of `oval_object_to_sexp`. When a reference has no value, the object is sent
to be skipped. -/
def addContent (vars : Variables V D) (lists : ObjectLists) :
    ObjectContent D → Option ObjectLists
  | .varrefAttribute e => do
      let varref ← ovalVarrefAttrToSexp vars e
      some { lists with
        objSexp := lists.objSexp ++ [ovalEntityToSexp e]
        varrefs := some (lists.varrefs.getD [] ++ [varref])
        varrefCnt := lists.varrefCnt + 1
        entCnt := lists.entCnt + 1 }
  | .element elm => some { lists with entLst := lists.entLst ++ [elm] }

/-- `oval_object_to_sexp`, for an object with a name list: the object, and the list `varrefs` in
it if it has one. -/
def ovalObjectToSexp (vars : Variables V D) (objName : Sexp) (contents : List (ObjectContent D)) :
    Option (Sexp × Option Sexp) := do
  let lists ← contents.foldlM (addContent vars) ⟨[objName], [], none, 0, 0⟩
  match lists.varrefs with
  | none => some (.list (lists.objSexp ++ lists.entLst), none)
  | some varrefs =>
      let stmp := .list (.string (bytes ['v', 'a', 'r', 'r', 'e', 'f', 's']) ::
        sexpNumberNewu lists.varrefCnt :: sexpNumberNewu lists.entCnt :: varrefs)
      some (.list (lists.objSexp ++ stmp :: lists.entLst), some stmp)

/-- The references of an object. -/
def references (contents : List (ObjectContent D)) : List (RefEntity D) :=
  contents.filterMap fun
    | .varrefAttribute e => some e
    | .element _ => none

/-! ### What the loop collects -/

/-- The entities and the values that the loop over the contents collects. -/
theorem contentLoop_spec {vars : Variables V D} {contents : List (ObjectContent D)}
    {lists lists' : ObjectLists} (h : contents.foldlM (addContent vars) lists = some lists') :
    ∃ varrefs, (references contents).mapM (ovalVarrefAttrToSexp vars) = some varrefs ∧
      lists'.objSexp = lists.objSexp ++ (references contents).map ovalEntityToSexp ∧
      lists'.varrefs = (if references contents = [] then lists.varrefs
        else some (lists.varrefs.getD [] ++ varrefs)) ∧
      lists'.entCnt = lists.entCnt + UInt32.ofNat (references contents).length := by
  induction contents generalizing lists with
  | nil =>
      obtain rfl := Option.some.inj h
      exact ⟨[], rfl, (List.append_nil _).symm, rfl, by simp [references]⟩
  | cons content contents ih =>
      rw [List.foldlM_cons, Option.bind_eq_bind, Option.bind_eq_some_iff] at h
      obtain ⟨lists₁, hstep, hloop⟩ := h
      obtain ⟨varrefs, hvarrefs, hobj, hlist, hcnt⟩ := ih hloop
      cases content with
      | element elm =>
          obtain rfl := Option.some.inj hstep
          exact ⟨varrefs, hvarrefs, hobj, hlist, hcnt⟩
      | varrefAttribute e =>
          rw [addContent, Option.bind_eq_bind, Option.bind_eq_some_iff] at hstep
          obtain ⟨varref, hvarref, hstep⟩ := hstep
          obtain rfl := Option.some.inj hstep
          have hrefs : references (.varrefAttribute e :: contents) = e :: references contents := rfl
          rw [hrefs]
          refine ⟨varref :: varrefs, ?_, ?_, ?_, ?_⟩
          · rw [List.mapM_cons, hvarref, hvarrefs]
            rfl
          · rw [hobj, List.map_cons, List.append_assoc]
            rfl
          · rw [hlist, if_neg (List.cons_ne_nil _ _)]
            split_ifs with hnil
            · rw [hnil] at hvarrefs
              obtain rfl := Option.some.inj hvarrefs
              rfl
            · rw [Option.getD_some, List.append_assoc]
              rfl
          · rw [hcnt, List.length_cons, UInt32.ofNat_add]
            exact (UInt32.add_assoc _ _ _).trans (congrArg _ (UInt32.add_comm _ _))

/-- The probe finds the id of the variable in an entity. -/
theorem getattrval_varRef (e : RefEntity D) : ∃ name attrs,
    ovalEntityToSexp e = .list [.list (name :: attrs)] ∧
    probeEntGetattrval (bytes ['v', 'a', 'r', '_', 'r', 'e', 'f']) none attrs =
      .ok (some (.string e.varId)) := by
  refine ⟨_, _, rfl, ?_⟩
  have hop : isAttr (bytes ['v', 'a', 'r', '_', 'r', 'e', 'f'])
      (bytes [':', 'o', 'p', 'e', 'r', 'a', 't', 'i', 'o', 'n']) = false := by decide
  have hmask : isAttr (bytes ['v', 'a', 'r', '_', 'r', 'e', 'f'])
      (bytes ['m', 'a', 's', 'k']) = false := by decide
  have href : isAttr (bytes ['v', 'a', 'r', '_', 'r', 'e', 'f'])
      (bytes [':', 'v', 'a', 'r', '_', 'r', 'e', 'f']) = true := by decide
  have hfound : ∀ buf attrs, probeEntGetattrval (bytes ['v', 'a', 'r', '_', 'r', 'e', 'f']) buf
      (varRefName :: .string e.varId :: attrs) = .ok (some (.string e.varId)) := by
    intro buf attrs
    exact probeEntGetattrval_of_isAttr (by decide) href buf _
  have hnumber : ∀ buf n attrs, probeEntGetattrval (bytes ['v', 'a', 'r', '_', 'r', 'e', 'f']) buf
      (sexpNumberNewu n :: attrs) =
      probeEntGetattrval (bytes ['v', 'a', 'r', '_', 'r', 'e', 'f']) buf attrs := fun _ _ _ => rfl
  rw [probeEntGetattrval_of_not_isAttr (by decide) hop, hnumber]
  cases e.mask with
  | false => exact hfound _ _
  | true =>
      rw [if_pos rfl, List.singleton_append, probeEntGetattrval_of_not_isAttr (by decide) hmask]
      exact hfound _ _

/-- The values of a variable, as they are sent. -/
theorem exists_values {vars : Variables V D} {e : RefEntity D} {varref : Sexp}
    (h : ovalVarrefAttrToSexp vars e = some varref) : vars.values e.varId ≠ [] ∧
      ∃ valLst, varref = .list [.string e.varId,
        sexpNumberNewu (UInt32.ofNat (vars.values e.varId).length), .list valLst] := by
  unfold ovalVarrefAttrToSexp at h
  split_ifs at h with hnil
  rw [Option.bind_eq_bind, Option.bind_eq_some_iff] at h
  obtain ⟨valLst, hvals, h⟩ := h
  have hlength := congrArg List.length (mapM_eq_some_iff.mp hvals)
  rw [List.length_map, List.length_map] at hlength
  refine ⟨hnil, valLst, ?_⟩
  rw [← Option.some.inj h, hlength]

/-- The probe finds the values of the variable. -/
theorem findVarref_of_mem {vars : Variables V D} {refs : List (RefEntity D)} {varrefs : List Sexp}
    (h : refs.mapM (ovalVarrefAttrToSexp vars) = some varrefs) {e : RefEntity D} (he : e ∈ refs) :
    ∃ valLst, findVarref (some (.string e.varId)) varrefs = .ok (.list [.string e.varId,
      sexpNumberNewu (UInt32.ofNat (vars.values e.varId).length), .list valLst]) := by
  have hcstr : ∀ e : RefEntity D, (Sexp.string e.varId).cstr = some e.varId := fun e =>
    congrArg some (List.takeWhile_eq_self_iff.mpr fun b hb => by
      simpa using fun h0 : b = 0 => e.zero_notMem (h0 ▸ hb))
  induction refs generalizing varrefs with
  | nil => exact nomatch he
  | cons e' refs ih =>
      rw [List.mapM_cons] at h
      simp only [Option.bind_eq_bind, Option.bind_eq_some_iff, Option.pure_def] at h
      obtain ⟨varref, hvarref, varrefs', hrest, h⟩ := h
      obtain rfl := Option.some.inj h
      obtain ⟨-, valLst, rfl⟩ := exists_values hvarref
      have hfirst : (sexpListNth (.list [.string e'.varId, sexpNumberNewu
          (UInt32.ofNat (vars.values e'.varId).length), .list valLst]) 1).bind Sexp.cstr =
          some e'.varId := hcstr e'
      rw [findVarref]
      simp only [hcstr e, hfirst]
      by_cases hid : e.varId = e'.varId
      · rw [if_pos hid, hid]
        exact ⟨valLst, rfl⟩
      · rw [if_neg hid]
        have hne : e ≠ e' := fun heq => hid (heq ▸ rfl)
        exact ih hrest ((List.mem_cons.mp he).resolve_left hne)

/-- The counters of the references that are left. -/
theorem exists_createLoop {vars : Variables V D} {refs : List (RefEntity D)} {xs : List Sexp}
    (h : refs.mapM (ovalVarrefAttrToSexp vars) = some (xs.drop 3)) {left : List (RefEntity D)}
    (hleft : ∀ e ∈ left, e ∈ refs) (hvals : ∀ e ∈ left, (vars.values e.varId).length < 2 ^ 32)
    {i : ℕ} {pi2 : Sexp}
    (hpi2 : ∀ k (hk : k < left.length), sexpListNth pi2 (i + k + 2) =
      some (ovalEntityToSexp left[k])) :
    ∃ pi2' entLst, createLoop xs left.length i pi2 = .ok (pi2', entLst) ∧
      entLst.map (fun ent => ent.valCnt.toNat) =
        left.map fun e => (vars.values e.varId).length := by
  induction left generalizing i pi2 with
  | nil => exact ⟨pi2, [], rfl, rfl⟩
  | cons e left ih =>
      obtain ⟨valLst, hfind⟩ := findVarref_of_mem h (hleft e List.mem_cons_self)
      obtain ⟨name, attrs, hentity, hattr⟩ := getattrval_varRef e
      have hnth := hpi2 0 (Nat.succ_pos _)
      rw [Nat.add_zero, List.getElem_cons_zero, hentity] at hnth
      have hent : ∃ pi2' ent, createEnt xs pi2 i = .ok (pi2', ent) ∧
          ent.valCnt.toNat = (vars.values e.varId).length ∧
          ∃ nVal, pi2' = sexpListReplace pi2 (i + 2) nVal := by
        refine ⟨sexpListReplace pi2 (i + 2)
          (.list [.list (name :: vidxName :: sexpNumberNewu 0 :: attrs), .list valLst]),
          ⟨i + 2, UInt32.ofNat (vars.values e.varId).length, 0⟩, ?_, ?_, _, rfl⟩
        · rw [createEnt, hnth]
          simp only [hattr, Outcome.bind_ok, hfind]
          rfl
        · exact UInt32.toNat_ofNat_of_lt' (hvals e List.mem_cons_self)
      obtain ⟨pi2₁, ent, hcreate, hcnt, nVal, rfl⟩ := hent
      have hpi2' : ∀ k (hk : k < left.length),
          sexpListNth (sexpListReplace pi2 (i + 2) nVal) (i + 1 + k + 2) =
            some (ovalEntityToSexp left[k]) := by
        intro k hk
        have hlater : i + 1 + k + 2 ≠ i + 2 := by omega
        rw [sexpListNth_replace_ne _ hlater, show i + 1 + k + 2 = i + (k + 1) + 2 by omega,
          hpi2 (k + 1) (Nat.succ_lt_succ hk), List.getElem_cons_succ]
      obtain ⟨pi2₂, entLst, hloop, hsizes⟩ :=
        ih (fun e he => hleft e (List.mem_cons_of_mem _ he))
          (fun e he => hvals e (List.mem_cons_of_mem _ he)) hpi2'
      refine ⟨pi2₂, ent :: entLst, ?_, ?_⟩
      · rw [List.length_cons, createLoop, hcreate, Outcome.bind_ok]
        change Outcome.bind (createLoop xs left.length (i + 1) _) _ = _
        rw [hloop]
        rfl
      · rw [List.map_cons, hcnt, hsizes, List.map_cons]

/-- The entities with references come behind the name of the object. -/
theorem sexpListNth_entities (objName : Sexp) (refs : List (RefEntity D)) (rest : List Sexp) {k : ℕ}
    (hk : k < refs.length) :
    sexpListNth (.list ((objName :: refs.map ovalEntityToSexp) ++ rest)) (0 + k + 2) =
      some (ovalEntityToSexp refs[k]) := by
  rw [Nat.zero_add]
  change ((objName :: refs.map ovalEntityToSexp) ++ rest)[k + 1]? = _
  rw [List.cons_append, List.getElem?_cons_succ, List.getElem?_append_left (by simpa using hk),
    List.getElem?_map, List.getElem?_eq_getElem hk, Option.map_some]

/-- **The context of an object that is sent.** An object is sent with `varrefs` only if it has a
reference. The context has a counter for every reference, below the number of values of its
variable, and no variable is without values. -/
theorem create_of_sent {vars : Variables V D} {objName probeIn varrefs : Sexp}
    {contents : List (ObjectContent D)}
    (h : ovalObjectToSexp vars objName contents = some (probeIn, some varrefs))
    (hcnt : (references contents).length < 2 ^ 32)
    (hvals : ∀ e ∈ references contents, (vars.values e.varId).length < 2 ^ 32) :
    ∃ ctx, probeVarrefCreateCtx probeIn varrefs = .ok ctx ∧ ctx.entLst ≠ [] ∧
      ctx.sizes = (references contents).map (fun e => (vars.values e.varId).length) ∧
      ∀ ent ∈ ctx.entLst, 0 < ent.valCnt := by
  rw [ovalObjectToSexp, Option.bind_eq_bind, Option.bind_eq_some_iff] at h
  obtain ⟨lists, hloop, h⟩ := h
  obtain ⟨sexps, hsexps, hobj, hlist, hentCnt⟩ := contentLoop_spec hloop
  have hobj' : lists.objSexp = objName :: (references contents).map ovalEntityToSexp := hobj
  have hlist' : lists.varrefs = if references contents = [] then none else some sexps := hlist
  have hentCnt' : lists.entCnt.toNat = (references contents).length := by
    rw [hentCnt, UInt32.zero_add]
    exact UInt32.toNat_ofNat_of_lt' hcnt
  rw [hlist', hobj'] at h
  split_ifs at h with hnil
  · exact nomatch h
  · obtain ⟨rfl, hvarrefs⟩ := Prod.mk.inj (Option.some.inj h)
    obtain rfl := Option.some.inj hvarrefs
    have hdrop : (references contents).mapM (ovalVarrefAttrToSexp vars) =
        some ((.string (bytes ['v', 'a', 'r', 'r', 'e', 'f', 's']) ::
          sexpNumberNewu lists.varrefCnt :: sexpNumberNewu lists.entCnt :: sexps).drop 3) := hsexps
    obtain ⟨pi2, entLst, hcreate, hsizes⟩ := exists_createLoop hdrop (fun _ he => he) hvals
      fun k hk => sexpListNth_entities objName (references contents) _ hk
    have hne : ∀ e ∈ references contents, vars.values e.varId ≠ [] := by
      intro e he
      obtain ⟨varref, hvarref⟩ : ∃ varref, ovalVarrefAttrToSexp vars e = some varref := by
        have hmem : ovalVarrefAttrToSexp vars e ∈
            (references contents).map (ovalVarrefAttrToSexp vars) := List.mem_map_of_mem he
        rw [mapM_eq_some_iff.mp hsexps] at hmem
        obtain ⟨varref, -, heq⟩ := List.mem_map.mp hmem
        exact ⟨varref, heq.symm⟩
      exact (exists_values hvarref).1
    refine ⟨⟨pi2, entLst⟩, ?_, fun hnone => hnil ?_, hsizes, fun ent hent => ?_⟩
    · rw [probeVarrefCreateCtx]
      change Outcome.bind (.ok lists.entCnt) _ = _
      rw [Outcome.bind_ok, hentCnt', hcreate]
      rfl
    · rw [show entLst = [] from hnone] at hsizes
      exact List.map_eq_nil_iff.mp hsizes.symm
    · have hmem := List.mem_map_of_mem (f := fun ent => ent.valCnt.toNat) hent
      rw [hsizes] at hmem
      obtain ⟨e, he, heq⟩ := List.mem_map.mp hmem
      refine UInt32.lt_iff_toNat_lt.mpr ?_
      rw [← heq]
      exact List.length_pos_iff.mpr (hne e he)

end OpenScap.Varref
