import Mathlib.Data.List.Infix
import OpenScap.AssertedRun
import OpenScap.XmlEvents

/-!
# A cursor over an element tree

The cursor stands at a node, or, at the start of an element, at one of its attributes, which
counts as one deeper. Reading on from an attribute leads to the node behind the start of the
element.

A loop over the elements at a depth looks for the next start at this depth and takes a step there.
A step may leave the cursor in the element, or behind the node that follows the element: then this
node is lost.

## Main results

* `toStart_skip` — the rest of a node is passed over;
* `eachElement_nodes`, `eachElement_element` — a loop over the elements at a depth walks through the
  nodes of an element, but for those that are lost.
-/

open AssertedRun

namespace XmlEvents

variable {ν α σ : Type}

/-! ### The cursor -/

/-- A cursor: the events from the current one on, and the value of the attribute that it is
at. -/
structure Reader (ν α σ : Type) where
  events : List (Event ν α σ)
  attr : Option σ

/-- The types of nodes that a cursor may be at. -/
inductive NodeType
  | none
  | element
  | attribute
  | text
  | endElement
  deriving DecidableEq

namespace Reader

/-- On to the next node. -/
def read (reader : Reader ν α σ) : Reader ν α σ := ⟨reader.events.tail, none⟩

/-- The type of the current node. -/
def nodeType (reader : Reader ν α σ) : NodeType :=
  match reader.events with
  | [] => .none
  | event :: _ =>
      if reader.attr.isSome then .attribute
      else
        match event with
        | .start .. => .element
        | .text .. => .text
        | .finish .. => .endElement

/-- The depth of the current node. -/
def depth (reader : Reader ν α σ) : ℕ :=
  if reader.attr.isSome then depthAt reader.events + 1 else depthAt reader.events

/-- The attributes of the current element. -/
def attrs (reader : Reader ν α σ) : List (α × σ) :=
  match reader.events with
  | .start _ _ attrs _ :: _ => attrs
  | _ => []

/-- To an attribute of the current element, if it has this one. -/
def moveToAttribute [BEq α] (reader : Reader ν α σ) (name : α) : Reader ν α σ :=
  { reader with attr := (reader.attrs.lookup name).or reader.attr }

/-- Back to the element. -/
def moveToElement (reader : Reader ν α σ) : Reader ν α σ := { reader with attr := none }

/-- The value of the current attribute or text. -/
def value (reader : Reader ν α σ) : Option σ :=
  reader.attr.or <|
    match reader.events with
    | .text _ value :: _ => some value
    | _ => none

/-- The current element is closed in its start tag. This is not known at an attribute. -/
def isEmptyElement (reader : Reader ν α σ) : Bool :=
  match reader.events with
  | .start _ _ _ content :: _ => content.isEmpty && reader.attr.isNone
  | _ => false

/-- The nodes of the current element. -/
def nodes (reader : Reader ν α σ) : List (Xml ν α σ) :=
  match reader.events with
  | .start _ _ _ content :: _ => content.nodes
  | _ => []

/-- The value of an attribute of the current element or of the innermost element around it. -/
def inherited [BEq α] (reader : Reader ν α σ) (name : α) : Option σ :=
  match reader.events with
  | .start _ _ attrs content :: _ => (attrs ++ content.scope).lookup name
  | _ => none

/-- On to the start of an element at a depth, from a node that is not an attribute. -/
def toStart (depth : ℕ) : List (Event ν α σ) → Bool × Reader ν α σ
  | [] => (false, ⟨[], none⟩)
  | event :: events =>
      if event.depth < depth then (false, ⟨event :: events, none⟩)
      else if event.isStart && event.depth == depth then (true, ⟨event :: events, none⟩)
      else toStart depth events

/-- On to the start of an element at a depth, unless the depth is left. -/
def toStartElement (reader : Reader ν α σ) (depth : ℕ) : Bool × Reader ν α σ :=
  if reader.attr.isSome then
    if reader.depth < depth then (false, reader) else toStart depth reader.events.tail
  else toStart depth reader.events

end Reader

/-! ### Passing over nodes -/

mutual

/-- What is met in a node is no less deep. -/
theorem Xml.le_depth {depth : ℕ} {scope : List (α × σ)} :
    ∀ {x : Xml ν α σ}, ∀ event ∈ x.events depth scope, depth ≤ event.depth
  | .text _, event, h => by
      rw [Xml.events, List.mem_singleton] at h
      rw [h]
      exact Nat.le_refl _
  | .empty _ _, event, h => by
      rw [Xml.events, List.mem_singleton] at h
      rw [h]
      exact Nat.le_refl _
  | .elem _ _ _, event, h => by
      rw [Xml.events, List.mem_cons, List.mem_append, List.mem_singleton] at h
      rcases h with rfl | h | rfl
      · exact Nat.le_refl _
      · exact Nat.le_of_succ_le (le_depth_of_mem_nodesEvents event h)
      · exact Nat.le_refl _

/-- What is met in nodes is no less deep. -/
theorem le_depth_of_mem_nodesEvents {depth : ℕ} {scope : List (α × σ)} :
    ∀ {xs : List (Xml ν α σ)}, ∀ event ∈ nodesEvents depth scope xs, depth ≤ event.depth
  | [], event, h => by simp at h
  | x :: xs, event, h => by
      rw [nodesEvents, List.mem_append] at h
      rcases h with h | h
      · exact Xml.le_depth event h
      · exact le_depth_of_mem_nodesEvents event h

end

/-- Events that are deep enough, and not the start of an element at the depth, are passed
over. -/
theorem toStart_skip {depth : ℕ} {events rest : List (Event ν α σ)}
    (h : ∀ e ∈ events, depth ≤ e.depth ∧ ¬ (e.isStart && e.depth == depth) = true) :
    Reader.toStart depth (events ++ rest) = Reader.toStart depth rest := by
  induction events with
  | nil => rfl
  | cons event events ih =>
      obtain ⟨hdepth, hstart⟩ := h event List.mem_cons_self
      rw [List.cons_append, Reader.toStart, if_neg (Nat.not_lt.mpr hdepth), if_neg hstart]
      exact ih fun e he => h e (List.mem_cons_of_mem _ he)

/-- Behind the first event of a node, no element starts at its depth. -/
theorem Xml.not_start_of_mem_tail {depth : ℕ} {scope : List (α × σ)} {x : Xml ν α σ}
    {event : Event ν α σ} (h : event ∈ (x.events depth scope).tail) :
    depth ≤ event.depth ∧ ¬ (event.isStart && event.depth == depth) = true := by
  cases x with
  | text value => simp [Xml.events] at h
  | empty name attrs => simp [Xml.events] at h
  | elem name attrs nodes =>
      rw [Xml.events, List.tail_cons, List.mem_append, List.mem_singleton] at h
      rcases h with h | rfl
      · have hdepth := le_depth_of_mem_nodesEvents event h
        have hne : ¬ event.depth = depth := by omega
        exact ⟨Nat.le_of_succ_le hdepth, by simp [hne]⟩
      · exact ⟨Nat.le_refl _, by simp [Event.isStart]⟩

/-- **The rest of a node is passed over.** -/
theorem toStart_stay {depth : ℕ} {scope : List (α × σ)} {x : Xml ν α σ}
    {stay : List (Event ν α σ)} (h : stay <:+ (x.events depth scope).tail)
    (rest : List (Event ν α σ)) :
    Reader.toStart depth (stay ++ rest) = Reader.toStart depth rest :=
  toStart_skip fun _ he => Xml.not_start_of_mem_tail (h.mem he)

/-- The first event of a node, and the others. -/
theorem Xml.events_eq_cons (depth : ℕ) (scope : List (α × σ)) (x : Xml ν α σ) :
    ∃ event, x.events depth scope = event :: (x.events depth scope).tail ∧
      event.depth = depth := by
  cases x with
  | text value => exact ⟨_, by rw [Xml.events]; rfl, rfl⟩
  | empty name attrs => exact ⟨_, by rw [Xml.events]; rfl, rfl⟩
  | elem name attrs nodes => exact ⟨_, by rw [Xml.events]; rfl, rfl⟩

/-- Where it is less deep, there is no further start. -/
theorem toStart_of_lt {depth : ℕ} {rest : List (Event ν α σ)} (h : depthAt rest < depth) :
    Reader.toStart depth rest = (false, ⟨rest, none⟩) := by
  cases rest with
  | nil => rfl
  | cons event rest => rw [Reader.toStart, if_pos (by simpa using h)]

/-! ### Elements -/

/-- An element, closed in its start tag or not. -/
def Xml.element (isEmpty : Bool) (name : ν) (attrs : List (α × σ)) (nodes : List (Xml ν α σ)) :
    Xml ν α σ :=
  if isEmpty then .empty name attrs else .elem name attrs nodes

/-- What is behind the start of an element. -/
def innerEvents (isEmpty : Bool) (depth : ℕ) (scope : List (α × σ)) (name : ν)
    (attrs : List (α × σ)) (nodes : List (Xml ν α σ)) : List (Event ν α σ) :=
  if isEmpty then []
  else nodesEvents (depth + 1) (attrs ++ scope) nodes ++ [.finish depth name]

/-- The events of an element. -/
theorem Xml.events_element {isEmpty : Bool} {nodes : List (Xml ν α σ)}
    (h : isEmpty = true → nodes = []) (name : ν) (attrs : List (α × σ)) (depth : ℕ)
    (scope : List (α × σ)) : (Xml.element isEmpty name attrs nodes).events depth scope =
      .start depth name attrs ⟨isEmpty, nodes, scope⟩ ::
        innerEvents isEmpty depth scope name attrs nodes := by
  cases isEmpty with
  | true =>
      rw [h rfl]
      exact Xml.events.eq_2 ..
  | false => exact Xml.events.eq_3 ..

/-- A node that is no text is an element. -/
theorem Xml.exists_element {x : Xml ν α σ} (hx : ∀ value, x ≠ .text value) :
    ∃ isEmpty name attrs nodes, (isEmpty = true → nodes = []) ∧
      x = Xml.element isEmpty name attrs nodes := by
  cases x with
  | text value => exact absurd rfl (hx value)
  | empty name attrs => exact ⟨true, name, attrs, [], fun _ => rfl, rfl⟩
  | elem name attrs nodes => exact ⟨false, name, attrs, nodes, by simp, rfl⟩

/-- What is behind the start of an element is one deeper at most. -/
theorem depthAt_nodesEvents_le {depth : ℕ} {scope : List (α × σ)} {name : ν}
    {rest : List (Event ν α σ)} (xs : List (Xml ν α σ)) :
    depthAt (nodesEvents (depth + 1) scope xs ++ .finish depth name :: rest) ≤ depth + 1 := by
  cases xs with
  | nil => exact Nat.le_succ depth
  | cons x xs =>
      obtain ⟨event, hevents, hdepth⟩ := x.events_eq_cons (depth + 1) scope
      rw [nodesEvents_cons, hevents, List.cons_append, List.cons_append, depthAt_cons, hdepth]

/-! ### Places in a document -/

/-- An element around a node: its name and attributes, and its nodes behind the one that the node
is or is in. -/
structure Ancestor (ν α σ : Type) where
  name : ν
  attrs : List (α × σ)
  behind : List (Xml ν α σ)

/-- The attributes around a place, which is given by the elements around it, the innermost
first. -/
def scopeAt (place : List (Ancestor ν α σ)) : List (α × σ) := place.flatMap Ancestor.attrs

/-- The events behind a node at a place. -/
def eventsBehind : List (Ancestor ν α σ) → List (Event ν α σ)
  | [] => []
  | parent :: place =>
      nodesEvents (place.length + 1) (scopeAt (parent :: place)) parent.behind ++
        .finish place.length parent.name :: eventsBehind place

/-- Behind a node, it is no deeper. -/
theorem depthAt_eventsBehind_le (place : List (Ancestor ν α σ)) :
    depthAt (eventsBehind place) ≤ place.length := by
  cases place with
  | nil => exact Nat.le_refl 0
  | cons parent place => exact depthAt_nodesEvents_le parent.behind

/-- A cursor at a node at a place in a document. -/
def readerAt (place : List (Ancestor ν α σ)) (x : Xml ν α σ) : Reader ν α σ :=
  ⟨x.events place.length (scopeAt place) ++ eventsBehind place, none⟩

/-- An element with its nodes, if it is not closed in its start tag. -/
def Xml.ofContent (name : ν) (attrs : List (α × σ)) : Option (List (Xml ν α σ)) → Xml ν α σ
  | none => .empty name attrs
  | some nodes => .elem name attrs nodes

theorem Xml.ofContent_eq (name : ν) (attrs : List (α × σ)) (content : Option (List (Xml ν α σ))) :
    ∃ isEmpty : Bool, (isEmpty = true → content.getD [] = []) ∧
      Xml.ofContent name attrs content = Xml.element isEmpty name attrs (content.getD []) := by
  cases content with
  | none => exact ⟨true, fun _ => rfl, rfl⟩
  | some nodes => exact ⟨false, fun h => absurd h (by simp), rfl⟩

/-! ### Loops over the elements at a depth -/

section Loop

variable {β : Type}

/-- A loop over the elements at a depth, within a bound. -/
def eachElement (step : β → Reader ν α σ → Except Stop (β × Reader ν α σ)) (depth : ℕ) :
    ℕ → β → Reader ν α σ → Except Stop (β × Reader ν α σ)
  | 0, _, _ => .error .depth
  | fuel + 1, s, reader =>
      match reader.toStartElement depth with
      | (false, reader) => .ok (s, reader)
      | (true, reader) => do
          let (s, reader) ← step s reader
          eachElement step depth fuel s reader

/-- A higher bound keeps a result, also one of the steps. -/
theorem eachElement_extends {step step' : β → Reader ν α σ → Except Stop (β × Reader ν α σ)}
    (hstep : ∀ s reader, Extends (step s reader) (step' s reader)) {depth fuel fuel' : ℕ}
    (hle : fuel ≤ fuel') : ∀ s reader, Extends (eachElement step depth fuel s reader)
      (eachElement step' depth fuel' s reader) := by
  induction fuel generalizing fuel' with
  | zero =>
      intro s reader
      exact Extends.error _
  | succ fuel ih =>
      obtain ⟨fuel', rfl⟩ := Nat.exists_eq_add_of_lt hle
      intro s reader
      rw [eachElement, eachElement]
      split
      · exact Extends.refl _
      · exact (hstep _ _).bind fun _ => ih (by omega) _ _

/-- The first node, if it is a text. -/
def firstText : List (Xml ν α σ) → Option σ
  | .text value :: _ => some value
  | _ => none

/-- A walk through nodes: a step takes the state, the node and the text behind it, and says
whether what is behind the node is lost. The walk may start with a node that is lost, and says
at the end whether what follows the nodes is. -/
def walk (f : β → Xml ν α σ → Option σ → Option (β × Bool)) :
    β → Bool → List (Xml ν α σ) → Option (β × Bool)
  | s, lost, [] => some (s, lost)
  | s, true, _ :: xs => walk f s false xs
  | s, false, x :: xs => (f s x (firstText xs)).bind fun r => walk f r.1 r.2 xs

/-- The current event, if it is a text. -/
def textAt : List (Event ν α σ) → Option σ
  | .text _ value :: _ => some value
  | _ => none

/-- What is behind the nodes of an element starts like them. -/
theorem textAt_nodesEvents (depth d : ℕ) (scope : List (α × σ)) (name : ν)
    (rest : List (Event ν α σ)) (xs : List (Xml ν α σ)) :
    textAt (nodesEvents depth scope xs ++ .finish d name :: rest) = firstText xs := by
  cases xs with
  | nil => rfl
  | cons x xs => cases x <;> simp [Xml.events, textAt, firstText]

/-- The text behind the start of an element. -/
theorem textAt_innerEvents {depth : ℕ} {scope : List (α × σ)} {name : ν} {attrs : List (α × σ)}
    {nodes : List (Xml ν α σ)} {rest : List (Event ν α σ)} :
    textAt (innerEvents false depth scope name attrs nodes ++ rest) = firstText nodes := by
  rw [innerEvents, if_neg (by simp), List.append_assoc]
  exact textAt_nodesEvents ..

/-- A step leaves the cursor at the element where it is. -/
def Stuck (step : ℕ → β → Reader ν α σ → Except Stop (β × Reader ν α σ)) (depth : ℕ)
    (scope : List (α × σ)) (x : Xml ν α σ) : Prop :=
  ∀ n s rest, ∃ s', step n s ⟨x.events depth scope ++ rest, none⟩ =
    .ok (s', ⟨x.events depth scope ++ rest, none⟩)

/-- The runs of a step at an element are as a function of the node says. The cursor is left in
the element, or what is behind the element is lost; nothing deeper is behind it. There is no
outcome where the step has none or is stuck. -/
def StepsAs (step : ℕ → β → Reader ν α σ → Except Stop (β × Reader ν α σ))
    (f : β → Xml ν α σ → Option σ → Option (β × Bool)) (depth : ℕ) (scope : List (α × σ))
    (x : Xml ν α σ) : Prop :=
  (Stuck step depth scope x ∧ ∀ s next, f s x next = none) ∨
    ∀ s rest, depthAt rest ≤ depth → ∃ stay, stay <:+ (x.events depth scope).tail ∧
      Settles (fun n => step n s ⟨x.events depth scope ++ rest, none⟩)
        ((f s x (textAt rest)).map fun r =>
          (r.1, ⟨if r.2 then rest.tail else stay ++ rest, none⟩))

variable {step : ℕ → β → Reader ν α σ → Except Stop (β × Reader ν α σ)}
  {f : β → Xml ν α σ → Option σ → Option (β × Bool)} {depth : ℕ} {scope : List (α × σ)}

/-- A loop whose step is stuck has no result. -/
theorem eachElement_stuck {x : Xml ν α σ} {rest : List (Event ν α σ)}
    (hstart : Reader.toStart depth (x.events depth scope ++ rest) =
      (true, ⟨x.events depth scope ++ rest, none⟩))
    (hstuck : Stuck step depth scope x) (m fuel : ℕ) : ∀ {s : β} {reader : Reader ν α σ},
      reader.toStartElement depth = Reader.toStart depth (x.events depth scope ++ rest) →
      ∀ a, eachElement (step m) depth fuel s reader ≠ .ok a := by
  induction fuel with
  | zero =>
      intro s reader _ a h
      exact nomatch h
  | succ fuel ih =>
      intro s reader hreader a
      obtain ⟨s', hs⟩ := hstuck m s rest
      have hround : eachElement (step m) depth (fuel + 1) s reader =
          step m s ⟨x.events depth scope ++ rest, none⟩ >>= fun r =>
            eachElement (step m) depth fuel r.1 r.2 := by
        rw [eachElement, hreader, hstart]
      rw [hround, hs]
      exact ih rfl a

/-- A round at an element: the loop goes on behind the element, or behind what is lost. -/
theorem eachElement_step (hmono : ∀ n s reader, Extends (step n s reader) (step (n + 1) s reader))
    {x : Xml ν α σ} (hx : ∀ value, x ≠ .text value) (hstep : StepsAs step f depth scope x)
    {rest : List (Event ν α σ)} (hrest : depthAt rest ≤ depth) {s : β} {reader : Reader ν α σ}
    {outcome : β × Bool → Option (β × Reader ν α σ)}
    (hreader : reader.toStartElement depth =
      Reader.toStart depth (x.events depth scope ++ rest))
    (hnext : ∀ r, f s x (textAt rest) = some r → ∀ reader : Reader ν α σ,
      reader.toStartElement depth = Reader.toStart depth (if r.2 then rest.tail else rest) →
      Settles (fun n => eachElement (step n) depth n r.1 reader) (outcome r)) :
    Settles (fun n => eachElement (step n) depth n s reader)
      ((f s x (textAt rest)).bind outcome) := by
  have hstart : Reader.toStart depth (x.events depth scope ++ rest) =
      (true, ⟨x.events depth scope ++ rest, none⟩) := by
    cases x with
    | text value => exact absurd rfl (hx value)
    | empty name attrs => simp [Xml.events, Reader.toStart, Event.isStart]
    | elem name attrs nodes => simp [Xml.events, Reader.toStart, Event.isStart]
  rcases hstep with ⟨hstuck, hnone⟩ | hstep
  · rw [hnone]
    exact Settles.never fun n => eachElement_stuck hstart hstuck n n hreader
  obtain ⟨stay, hstay, hsettles⟩ := hstep s rest hrest
  refine Settles.of_succ (fun _ => by rw [eachElement]; exact fun h => nomatch h) ?_
  have hround : ∀ n, eachElement (step (n + 1)) depth (n + 1) s reader =
      step (n + 1) s ⟨x.events depth scope ++ rest, none⟩ >>= fun r =>
        eachElement (step (n + 1)) depth n r.1 r.2 := by
    intro n
    rw [eachElement, hreader, hstart]
  -- the rounds that follow have the bound of the steps and one less for themselves
  have hfollow : ∀ r, f s x (textAt rest) = some r → Settles
      (fun n => eachElement (step (n + 1)) depth n r.1
        ⟨if r.2 then rest.tail else stay ++ rest, none⟩) (outcome r) := by
    intro r hr
    have htail : (⟨if r.2 then rest.tail else stay ++ rest, none⟩ :
        Reader ν α σ).toStartElement depth =
          Reader.toStart depth (if r.2 then rest.tail else rest) := by
      cases r.2 with
      | true => rfl
      | false => exact toStart_stay hstay rest
    refine (hnext r hr _ htail).of_between (fun n => ?_) fun n => ?_
    · exact eachElement_extends (hmono n) (Nat.le_refl n) _ _
    · exact eachElement_extends (fun _ _ => Extends.refl _) (Nat.le_succ n) _ _
  have hstep' := hsettles.of_between (fun n => hmono n _ _) fun n => Extends.refl _
  refine Settles.of_eq ?_ hround
  refine hstep'.bind (fun n r => ?_) ?_ ?_
  · exact eachElement_extends (hmono (n + 1)) (Nat.le_succ n) _ _
  · intro hnone
    rw [Option.map_eq_none_iff.mp hnone]
    rfl
  · intro result hresult
    obtain ⟨r, hr, rfl⟩ := Option.map_eq_some_iff.mp hresult
    rw [hr, Option.bind_some]
    exact hfollow r hr

variable {name : ν} {rest : List (Event ν α σ)}

/-- **A loop over the elements at a depth walks through the nodes of an element.** It ends at the
end of the element, or behind it if this end is lost. -/
theorem eachElement_nodes
    (hmono : ∀ n s reader, Extends (step n s reader) (step (n + 1) s reader))
    (htext : ∀ s value next, f s (.text value) next = some (s, false))
    (hrest : depthAt rest ≤ depth) :
    ∀ {nodes : List (Xml ν α σ)},
      (∀ x ∈ nodes, (∀ value, x ≠ .text value) → StepsAs step f (depth + 1) scope x) →
      ∀ (lost : Bool) (s : β) {reader : Reader ν α σ}, reader.toStartElement (depth + 1) =
        Reader.toStart (depth + 1)
          (if lost then (nodesEvents (depth + 1) scope nodes ++ .finish depth name :: rest).tail
            else nodesEvents (depth + 1) scope nodes ++ .finish depth name :: rest) →
      Settles (fun n => eachElement (step n) (depth + 1) n s reader)
        ((walk f s lost nodes).map fun r =>
          (r.1, ⟨if r.2 then rest else .finish depth name :: rest, none⟩))
  | [], _, lost, s, reader, hreader => by
      refine Settles.of_succ (fun _ => by rw [eachElement]; exact fun h => nomatch h) ?_
      refine (Settles.ok _).of_eq fun n => ?_
      have hlt : depthAt (if lost then rest else .finish depth name :: rest) < depth + 1 := by
        cases lost with
        | true => exact Nat.lt_succ_of_le hrest
        | false => exact Nat.lt_succ_self depth
      rw [nodesEvents_nil, List.nil_append, List.tail_cons, toStart_of_lt hlt] at hreader
      rw [eachElement, hreader]
  | x :: xs, hsteps, lost, s, reader, hreader => by
      have ih := @eachElement_nodes hmono htext hrest xs
        fun y hy => hsteps y (List.mem_cons_of_mem _ hy)
      rw [nodesEvents_cons, List.append_assoc] at hreader
      cases lost with
      | true =>
          refine ih false s (hreader.trans ?_)
          obtain ⟨event, hevents, -⟩ := x.events_eq_cons (depth + 1) scope
          rw [if_pos rfl, hevents, List.cons_append, List.tail_cons]
          exact toStart_stay List.suffix_rfl _
      | false =>
          rw [walk]
          by_cases hx : ∃ value, x = .text value
          · obtain ⟨value, rfl⟩ := hx
            rw [htext]
            refine ih false s (hreader.trans ?_)
            exact toStart_skip (by simp [Xml.events, Event.isStart])
          · have hne : ∀ value, x ≠ .text value := fun value h => hx ⟨value, h⟩
            have hround := eachElement_step hmono hne (hsteps x List.mem_cons_self hne)
              (depthAt_nodesEvents_le xs) (s := s) hreader fun r _ _ hreader' => ih r.2 r.1 hreader'
            rw [textAt_nodesEvents] at hround
            rw [Option.map_bind]
            exact hround

/-- **A loop over the children of an element**, from one of its attributes on. It ends at the end
of the element, or behind it if this end is lost or there is none. -/
theorem eachElement_element
    (hmono : ∀ n s reader, Extends (step n s reader) (step (n + 1) s reader))
    (htext : ∀ s value next, f s (.text value) next = some (s, false))
    {attrs : List (α × σ)} {isEmpty : Bool} {nodes : List (Xml ν α σ)}
    (hnodes : isEmpty = true → nodes = []) (hrest : depthAt rest ≤ depth)
    (hsteps : ∀ x ∈ nodes, (∀ value, x ≠ .text value) →
      StepsAs step f (depth + 1) (attrs ++ scope) x) (s : β) (name : ν) (value : σ) :
    Settles (fun n => eachElement (step n) (depth + 1) n s
        ⟨.start depth name attrs ⟨isEmpty, nodes, scope⟩ ::
          (innerEvents isEmpty depth scope name attrs nodes ++ rest), some value⟩)
      ((walk f s false nodes).map fun r =>
        (r.1, ⟨if isEmpty || r.2 then rest else .finish depth name :: rest, none⟩)) := by
  have hstart : (⟨.start depth name attrs ⟨isEmpty, nodes, scope⟩ ::
      (innerEvents isEmpty depth scope name attrs nodes ++ rest), some value⟩ :
        Reader ν α σ).toStartElement (depth + 1) = Reader.toStart (depth + 1)
          (innerEvents isEmpty depth scope name attrs nodes ++ rest) :=
    if_neg (Nat.lt_irrefl _)
  cases isEmpty with
  | true =>
      obtain rfl := hnodes rfl
      have hlt : depthAt rest < depth + 1 := Nat.lt_succ_of_le hrest
      rw [innerEvents, if_pos rfl, List.nil_append, toStart_of_lt hlt] at hstart
      refine Settles.of_succ (fun _ h => nomatch h) ((Settles.ok _).of_eq fun n => ?_)
      rw [eachElement, innerEvents, if_pos rfl, List.nil_append, hstart]
      rfl
  | false =>
      have hinner : innerEvents false depth scope name attrs nodes ++ rest =
          nodesEvents (depth + 1) (attrs ++ scope) nodes ++ .finish depth name :: rest := by
        rw [innerEvents, if_neg (by simp), List.append_assoc]
        rfl
      exact eachElement_nodes hmono htext hrest hsteps false s
        (hstart.trans (congrArg (Reader.toStart (depth + 1)) hinner))

/-- From the start of an element itself, a loop does not come to its children. -/
theorem eachElement_of_start {step : β → Reader ν α σ → Except Stop (β × Reader ν α σ)}
    {attrs : List (α × σ)} {content : Content ν α σ} {events : List (Event ν α σ)} (n : ℕ)
    (s : β) : eachElement step (depth + 1) (n + 1) s
        ⟨.start depth name attrs content :: events, none⟩ =
      .ok (s, ⟨.start depth name attrs content :: events, none⟩) := by
  have hstart : (⟨.start depth name attrs content :: events, none⟩ :
      Reader ν α σ).toStartElement (depth + 1) = (false, _) :=
    toStart_of_lt (Nat.lt_succ_self depth)
  rw [eachElement, hstart]

end Loop

end XmlEvents
