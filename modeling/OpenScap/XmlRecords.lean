import OpenScap.XmlCursor

/-!
# Walks that record

A walk through the nodes of an element may add an entry for each node. It records the nodes if
what it adds is the record of each node, in their order.

## Main results

* `walk_recordStep` — a walk adds to the entries that it starts with;
* `walk_records_iff` — a walk records the nodes if and only if it reads each node that it comes to
  well, and what it loses has no record.
-/

namespace XmlEvents

variable {ν α σ ε : Type}

/-- A step that adds an entry, if there is one for the node and the text behind it. -/
def recordStep (g : Xml ν α σ → Option σ → Option (Option ε × Bool)) (entries : List ε)
    (x : Xml ν α σ) (next : Option σ) : Option (List ε × Bool) :=
  (g x next).map fun r => (entries ++ r.1.toList, r.2)

/-- Every node that the walk comes to is read well, with the text behind it; the others have no
record. -/
def Recorded (good : Xml ν α σ → Option σ → Prop) (loses : Xml ν α σ → Bool)
    (record : Xml ν α σ → Option ε) : Bool → List (Xml ν α σ) → Prop
  | _, [] => True
  | true, x :: xs => record x = none ∧ Recorded good loses record false xs
  | false, x :: xs => good x (firstText xs) ∧ Recorded good loses record (loses x) xs

section Walk

variable {g : Xml ν α σ → Option σ → Option (Option ε × Bool)}

/-- A walk adds to the entries that it starts with. -/
theorem walk_recordStep (nodes : List (Xml ν α σ)) : ∀ (entries : List ε) (lost : Bool),
    walk (recordStep g) entries lost nodes =
      (walk (recordStep g) [] lost nodes).map fun r => (entries ++ r.1, r.2) := by
  induction nodes with
  | nil =>
      intro entries lost
      simp [walk]
  | cons x xs ih =>
      intro entries lost
      cases lost with
      | true =>
          rw [walk, walk]
          exact ih entries false
      | false =>
          rw [walk, walk, recordStep, recordStep]
          cases g x (firstText xs) with
          | none => rfl
          | some r =>
              simp only [Option.map_some, Option.bind_some, List.nil_append]
              rw [ih, ih r.1.toList, Option.map_map]
              exact Option.map_congr fun s _ => by simp

variable {record : Xml ν α σ → Option ε} {good : Xml ν α σ → Option σ → Prop}

/-- What is read of a node, with any text behind it that is among some nodes, accounts for its
record: something is read if there is a record, and the record is read if the node is read
well. -/
def Accounts (g : Xml ν α σ → Option σ → Option (Option ε × Bool))
    (record : Xml ν α σ → Option ε) (good : Xml ν α σ → Option σ → Prop)
    (nodes : List (Xml ν α σ)) : Prop :=
  ∀ x ∈ nodes, ∀ next, (∀ value ∈ next, .text value ∈ nodes) →
    (∀ r, g x next = some r → r.1.isSome = (record x).isSome) ∧
      (good x next ↔ ∃ l, g x next = some (record x, l))

/-- The text behind a node is among those that follow. -/
theorem mem_of_firstText {nodes : List (Xml ν α σ)} {value : σ}
    (h : value ∈ firstText nodes) : .text value ∈ nodes := by
  cases nodes with
  | nil => exact nomatch h
  | cons x xs =>
      cases x with
      | text other => exact Option.some.inj h ▸ List.mem_cons_self
      | empty name attrs => exact nomatch h
      | elem name attrs nodes => exact nomatch h

/-- Fewer texts are accounted for too. -/
theorem Accounts.tail {x : Xml ν α σ} {xs : List (Xml ν α σ)}
    (h : Accounts g record good (x :: xs)) : Accounts g record good xs :=
  fun y hy next hnext => h y (List.mem_cons_of_mem _ hy) next fun value hvalue =>
    List.mem_cons_of_mem _ (hnext value hvalue)

/-- The records of nodes, in their order. -/
def records (record : Xml ν α σ → Option ε) (nodes : List (Xml ν α σ)) : List ε :=
  nodes.flatMap fun x => (record x).toList

@[simp] theorem records_cons (record : Xml ν α σ → Option ε) (x : Xml ν α σ)
    (xs : List (Xml ν α σ)) :
    records record (x :: xs) = (record x).toList ++ records record xs := List.flatMap_cons

/-- There are no more entries than records. -/
theorem walk_length_le {nodes : List (Xml ν α σ)} :
    Accounts g record good nodes → ∀ {entries : List ε} {lost : Bool} {r : List ε × Bool},
      walk (recordStep g) entries lost nodes = some r →
        r.1.length ≤ entries.length + (records record nodes).length := by
  induction nodes with
  | nil =>
      intro _ entries lost r h
      rw [walk] at h
      rw [← Option.some.inj h]
      exact Nat.le_add_right _ _
  | cons x xs ih =>
      intro haccounts entries lost r h
      rw [records_cons, List.length_append]
      cases lost with
      | true =>
          rw [walk] at h
          have hlength := ih haccounts.tail h
          omega
      | false =>
          rw [walk] at h
          obtain ⟨s', hs', h⟩ := Option.bind_eq_some_iff.mp h
          obtain ⟨s, hs, rfl⟩ := Option.map_eq_some_iff.mp hs'
          have hrecord := (haccounts x List.mem_cons_self _
            fun _ hvalue => List.mem_cons_of_mem _ (mem_of_firstText hvalue)).1 s hs
          have htoList : s.1.toList.length = (record x).toList.length := by
            rw [Option.length_toList, Option.length_toList, hrecord]
          have hlength := ih haccounts.tail h
          rw [List.length_append] at hlength
          omega

/-- **A walk records the nodes** if and only if each node that it comes to is read well, and what
is lost has no record. -/
theorem walk_records_iff {loses : Xml ν α σ → Bool}
    (hloses : ∀ x next r, g x next = some r → r.2 = loses x) {nodes : List (Xml ν α σ)} :
    Accounts g record good nodes → ∀ (entries : List ε) (lost : Bool),
      (∃ l, walk (recordStep g) entries lost nodes = some (entries ++ records record nodes, l)) ↔
        Recorded good loses record lost nodes := by
  induction nodes with
  | nil =>
      intro _ entries lost
      simp [walk, Recorded, records]
  | cons x xs ih =>
      intro haccounts entries lost
      rw [records_cons]
      cases lost with
      | true =>
          rw [walk, Recorded]
          cases hx : record x with
          | none => simpa using ih haccounts.tail entries false
          | some e =>
              refine iff_of_false ?_ fun h => by cases h.1
              rintro ⟨l, hwalk⟩
              have hlength := walk_length_le haccounts.tail hwalk
              simp only [Option.toList_some, List.length_append, List.length_singleton] at hlength
              omega
      | false =>
          obtain ⟨hrecord, hgood⟩ := haccounts x List.mem_cons_self (firstText xs)
            fun _ hvalue => List.mem_cons_of_mem _ (mem_of_firstText hvalue)
          rw [walk, Recorded, hgood, recordStep]
          cases hg : g x (firstText xs) with
          | none => simp
          | some r =>
              rw [← hloses x _ r hg, Option.map_some, Option.bind_some]
              by_cases heq : r.1 = record x
              · rw [← heq, ← List.append_assoc, ih haccounts.tail]
                exact (and_iff_right ⟨r.2, rfl⟩).symm
              · refine iff_of_false ?_ ?_
                · rintro ⟨l, hwalk⟩
                  rw [walk_recordStep] at hwalk
                  obtain ⟨s, -, hs⟩ := Option.map_eq_some_iff.mp hwalk
                  have happend := (Prod.mk.inj hs).1
                  rw [List.append_assoc, List.append_cancel_left_eq] at happend
                  have htoList : r.1.toList.length = (record x).toList.length := by
                    rw [Option.length_toList, Option.length_toList, hrecord r hg]
                  have hhead := congrArg List.head? (List.append_inj_left happend htoList)
                  exact heq (by simpa using hhead)
                · rintro ⟨⟨l, hl⟩, -⟩
                  exact heq (congrArg Prod.fst (Option.some.inj hl))

end Walk

end XmlEvents
