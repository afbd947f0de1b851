import Mathlib.Data.List.Nodup
import Mathlib.Logic.Function.Basic

/-!
# Attributes inherited down a tree

The nodes of a tree carry labels, told apart by a key. Each node has an attribute that is
a function of its label and of the attribute of its parent. `assign` computes the
attributes of a tree top down and enters them in a map from keys.

The state of such a map is described node by node: `Local` says that the entry of a node
agrees with the entry of its parent. `members` lists the subtrees of a tree, each with
the label of its parent.

## Main results

* `assign_of_not_mem` — assigning a subtree leaves the entries of other nodes alone;
* `assign_local` — afterwards every node of the subtree agrees with its parent;
* `mem_members_of_parent` — a node whose parent lies in a subtree lies in it too, so the
  entries outside a subtree do not come to disagree;
* `entry_unique` — entries that agree everywhere are determined by the labels.
-/

namespace InheritedTree

/-- A tree of labels. -/
inductive LabelTree (α : Type*) where
  | node (label : α) (children : List (LabelTree α))

variable {α κ β : Type*}

/-- The label of the root. -/
def LabelTree.label : LabelTree α → α
  | .node a _ => a

/-- The subtrees below the root. -/
def LabelTree.children : LabelTree α → List (LabelTree α)
  | .node _ ts => ts

/-- A subtree of a tree, with the label of the node that it hangs from. -/
structure Member (α : Type*) where
  tree : LabelTree α
  parent : Option α

mutual

/-- The subtrees of a tree that hangs from `parent`. -/
def members (parent : Option α) : LabelTree α → List (Member α)
  | .node a ts => ⟨.node a ts, parent⟩ :: membersList (some a) ts

/-- The subtrees of trees that hang from `parent`. -/
def membersList (parent : Option α) : List (LabelTree α) → List (Member α)
  | [] => []
  | t :: ts => members parent t ++ membersList parent ts

end

mutual

/-- The keys of the nodes of a tree. -/
def keys (key : α → κ) : LabelTree α → List κ
  | .node a ts => key a :: keysList key ts

/-- The keys of the nodes of trees. -/
def keysList (key : α → κ) : List (LabelTree α) → List κ
  | [] => []
  | t :: ts => keys key t ++ keysList key ts

end

section Members

variable (key : α → κ)

mutual

/-- The keys are those of the members. -/
theorem members_map_key (parent : Option α) : ∀ t : LabelTree α,
    (members parent t).map (fun m => key m.tree.label) = keys key t
  | .node a ts => by
      rw [members, keys, List.map_cons, membersList_map_key (some a) ts]
      rfl

theorem membersList_map_key (parent : Option α) : ∀ ts : List (LabelTree α),
    (membersList parent ts).map (fun m => key m.tree.label) = keysList key ts
  | [] => by rw [membersList, keysList, List.map_nil]
  | t :: ts => by
      rw [membersList, keysList, List.map_append, members_map_key parent t,
        membersList_map_key parent ts]

end

mutual

/-- The keys of a subtree are keys of the tree. -/
theorem keys_subset_of_mem {parent : Option α} : ∀ {t : LabelTree α} {m : Member α},
    m ∈ members parent t → keys key m.tree ⊆ keys key t
  | .node a ts, m, hm => by
      rw [members, List.mem_cons] at hm
      rcases hm with rfl | hm
      · exact fun _ h => h
      · rw [keys]
        exact fun _ h => List.mem_cons_of_mem _ (keysList_subset_of_mem hm h)

theorem keysList_subset_of_mem {parent : Option α} : ∀ {ts : List (LabelTree α)} {m : Member α},
    m ∈ membersList parent ts → keys key m.tree ⊆ keysList key ts
  | t :: ts, m, hm => by
      rw [membersList, List.mem_append] at hm
      rw [keysList]
      rcases hm with hm | hm
      · exact fun _ h => List.mem_append_left _ (keys_subset_of_mem hm h)
      · exact fun _ h => List.mem_append_right _ (keysList_subset_of_mem hm h)

end

mutual

/-- The keys of a subtree occur once in it when those of the tree do. -/
theorem keys_nodup_of_mem {parent : Option α} : ∀ {t : LabelTree α} {m : Member α},
    (keys key t).Nodup → m ∈ members parent t → (keys key m.tree).Nodup
  | .node a ts, m, hnodup, hm => by
      rw [members, List.mem_cons] at hm
      rcases hm with rfl | hm
      · exact hnodup
      · rw [keys, List.nodup_cons] at hnodup
        exact keysList_nodup_of_mem hnodup.2 hm

theorem keysList_nodup_of_mem {parent : Option α} : ∀ {ts : List (LabelTree α)} {m : Member α},
    (keysList key ts).Nodup → m ∈ membersList parent ts → (keys key m.tree).Nodup
  | t :: ts, m, hnodup, hm => by
      rw [keysList, List.nodup_append'] at hnodup
      rw [membersList, List.mem_append] at hm
      rcases hm with hm | hm
      · exact keys_nodup_of_mem hnodup.1 hm
      · exact keysList_nodup_of_mem hnodup.2.1 hm

end

mutual

/-- The members of a subtree are members of the tree. -/
theorem members_subset_of_mem {parent : Option α} : ∀ {t : LabelTree α} {s : Member α},
    s ∈ members parent t → members s.parent s.tree ⊆ members parent t
  | .node a ts, s, hs => by
      rw [members, List.mem_cons] at hs
      rcases hs with rfl | hs
      · exact fun _ h => h
      · rw [members]
        exact fun _ h => List.mem_cons_of_mem _ (membersList_subset_of_mem hs h)

theorem membersList_subset_of_mem {parent : Option α} : ∀ {ts : List (LabelTree α)}
    {s : Member α}, s ∈ membersList parent ts →
      members s.parent s.tree ⊆ membersList parent ts
  | t :: ts, s, hs => by
      rw [membersList, List.mem_append] at hs
      rw [membersList]
      rcases hs with hs | hs
      · exact fun _ h => List.mem_append_left _ (members_subset_of_mem hs h)
      · exact fun _ h => List.mem_append_right _ (membersList_subset_of_mem hs h)

end

mutual

/-- The parent of a member is the node the tree hangs from or a node of the tree. -/
theorem parent_of_mem {parent : Option α} : ∀ {t : LabelTree α} {m : Member α},
    m ∈ members parent t → m.parent = parent ∨ ∃ a, m.parent = some a ∧ key a ∈ keys key t
  | .node a ts, m, hm => by
      rw [members, List.mem_cons] at hm
      rcases hm with rfl | hm
      · exact Or.inl rfl
      · right
        rw [keys]
        rcases parentList_of_mem hm with h | ⟨b, h, hb⟩
        · exact ⟨a, h, List.mem_cons_self⟩
        · exact ⟨b, h, List.mem_cons_of_mem _ hb⟩

theorem parentList_of_mem {parent : Option α} : ∀ {ts : List (LabelTree α)} {m : Member α},
    m ∈ membersList parent ts →
      m.parent = parent ∨ ∃ a, m.parent = some a ∧ key a ∈ keysList key ts
  | t :: ts, m, hm => by
      rw [membersList, List.mem_append] at hm
      rw [keysList]
      rcases hm with hm | hm
      · rcases parent_of_mem hm with h | ⟨b, h, hb⟩
        · exact Or.inl h
        · exact Or.inr ⟨b, h, List.mem_append_left _ hb⟩
      · rcases parentList_of_mem hm with h | ⟨b, h, hb⟩
        · exact Or.inl h
        · exact Or.inr ⟨b, h, List.mem_append_right _ hb⟩

end

mutual

/-- **A node whose parent lies in a subtree lies in the subtree too.** -/
theorem mem_members_of_parent {parent : Option α} : ∀ {t : LabelTree α},
    (keys key t).Nodup → (∀ a, parent = some a → key a ∉ keys key t) →
    ∀ {s m : Member α}, s ∈ members parent t → m ∈ members parent t →
    ∀ {a}, m.parent = some a → key a ∈ keys key s.tree → m ∈ members s.parent s.tree
  | .node a ts, hnodup, hparent, s, m, hs, hm, b, hb, hmem => by
      rw [members, List.mem_cons] at hs
      rcases hs with rfl | hs
      · exact hm
      · rw [members, List.mem_cons] at hm
        have hsub : key b ∈ keysList key ts := keysList_subset_of_mem key hs hmem
        rw [keys, List.nodup_cons] at hnodup
        rcases hm with rfl | hm
        · exact absurd (List.mem_cons_of_mem _ hsub) (hparent b hb)
        · refine mem_membersList_of_parent hnodup.2 ?_ hs hm hb hmem
          rintro _ ⟨⟩
          exact hnodup.1

theorem mem_membersList_of_parent {parent : Option α} : ∀ {ts : List (LabelTree α)},
    (keysList key ts).Nodup → (∀ a, parent = some a → key a ∉ keysList key ts) →
    ∀ {s m : Member α}, s ∈ membersList parent ts → m ∈ membersList parent ts →
    ∀ {a}, m.parent = some a → key a ∈ keys key s.tree → m ∈ members s.parent s.tree
  | t :: ts, hnodup, hparent, s, m, hs, hm, b, hb, hmem => by
      rw [keysList, List.nodup_append'] at hnodup
      obtain ⟨ht, hts, hdisj⟩ := hnodup
      have hparent_t (a : α) (ha : parent = some a) : key a ∉ keys key t := fun h =>
        hparent a ha (List.mem_append_left _ h)
      have hparent_ts (a : α) (ha : parent = some a) : key a ∉ keysList key ts := fun h =>
        hparent a ha (List.mem_append_right _ h)
      rw [membersList, List.mem_append] at hs hm
      rcases hs with hs | hs
      · have hsub : key b ∈ keys key t := keys_subset_of_mem key hs hmem
        rcases hm with hm | hm
        · exact mem_members_of_parent ht hparent_t hs hm hb hmem
        · rcases parentList_of_mem key hm with h | ⟨c, hc, hkey⟩
          · exact absurd hsub (hparent_t b (h ▸ hb))
          · obtain rfl : c = b := Option.some.inj (hc.symm.trans hb)
            exact absurd hkey (hdisj hsub)
      · have hsub : key b ∈ keysList key ts := keysList_subset_of_mem key hs hmem
        rcases hm with hm | hm
        · rcases parent_of_mem key hm with h | ⟨c, hc, hkey⟩
          · exact absurd hsub (hparent_ts b (h ▸ hb))
          · obtain rfl : c = b := Option.some.inj (hc.symm.trans hb)
            exact absurd hsub (hdisj hkey)
        · exact mem_membersList_of_parent hts hparent_ts hs hm hb hmem

end

mutual

/-- The parent of a subtree lies outside it. -/
theorem parent_not_mem {parent : Option α} : ∀ {t : LabelTree α},
    (keys key t).Nodup → (∀ a, parent = some a → key a ∉ keys key t) →
    ∀ {s : Member α}, s ∈ members parent t → ∀ {a}, s.parent = some a →
      key a ∉ keys key s.tree
  | .node a ts, hnodup, hparent, s, hs, b, hb => by
      rw [members, List.mem_cons] at hs
      rcases hs with rfl | hs
      · exact hparent b hb
      · rw [keys, List.nodup_cons] at hnodup
        refine parentList_not_mem hnodup.2 ?_ hs hb
        rintro _ ⟨⟩
        exact hnodup.1

theorem parentList_not_mem {parent : Option α} : ∀ {ts : List (LabelTree α)},
    (keysList key ts).Nodup → (∀ a, parent = some a → key a ∉ keysList key ts) →
    ∀ {s : Member α}, s ∈ membersList parent ts → ∀ {a}, s.parent = some a →
      key a ∉ keys key s.tree
  | t :: ts, hnodup, hparent, s, hs, b, hb => by
      rw [keysList, List.nodup_append'] at hnodup
      rw [membersList, List.mem_append] at hs
      rcases hs with hs | hs
      · exact parent_not_mem hnodup.1
          (fun a ha h => hparent a ha (List.mem_append_left _ h)) hs hb
      · exact parentList_not_mem hnodup.2.1
          (fun a ha h => hparent a ha (List.mem_append_right _ h)) hs hb

end

end Members

/-! ### Assigning the attributes -/

section Assign

variable [DecidableEq κ] (key : α → κ) (f : α → β → β)

mutual

/-- Enter the attributes of a tree below a node of attribute `b`: the children first,
then the root. -/
def assign : LabelTree α → β → (κ → Option β) → (κ → Option β)
  | .node a ts, b, entries =>
      Function.update (assignList ts (f a b) entries) (key a) (some (f a b))

/-- Enter the attributes of trees below a node of attribute `b`. -/
def assignList : List (LabelTree α) → β → (κ → Option β) → (κ → Option β)
  | [], _, entries => entries
  | t :: ts, b, entries => assignList ts b (assign t b entries)

end

/-- The attribute of a parent; above the roots it is `top`. -/
def inherited (top : β) (entries : κ → Option β) : Option α → Option β
  | none => some top
  | some a => entries (key a)

/-- The entry of a node agrees with the entry of its parent. -/
def Local (top : β) (entries : κ → Option β) (m : Member α) : Prop :=
  entries (key m.tree.label) = (inherited key top entries m.parent).map (f m.tree.label)

mutual

/-- **Assigning a subtree leaves the entries of other nodes alone.** -/
theorem assign_of_not_mem : ∀ {t : LabelTree α} {b : β} {entries : κ → Option β} {k : κ},
    k ∉ keys key t → assign key f t b entries k = entries k
  | .node a ts, b, entries, k, hk => by
      rw [keys, List.mem_cons, not_or] at hk
      rw [assign, Function.update_of_ne hk.1, assignList_of_not_mem hk.2]

theorem assignList_of_not_mem : ∀ {ts : List (LabelTree α)} {b : β} {entries : κ → Option β}
    {k : κ}, k ∉ keysList key ts → assignList key f ts b entries k = entries k
  | [], _, _, _, _ => by rw [assignList]
  | t :: ts, b, entries, k, hk => by
      rw [keysList, List.mem_append, not_or] at hk
      rw [assignList, assignList_of_not_mem hk.2, assign_of_not_mem hk.1]

end

mutual

/-- An entry of another node may as well be made before. -/
theorem assign_update : ∀ {t : LabelTree α} {b : β} {entries : κ → Option β} {k : κ}
    {v : Option β}, k ∉ keys key t →
      assign key f t b (Function.update entries k v) =
        Function.update (assign key f t b entries) k v
  | .node a ts, b, entries, k, v, hk => by
      rw [keys, List.mem_cons, not_or] at hk
      rw [assign, assign, assignList_update hk.2, Function.update_comm hk.1]

theorem assignList_update : ∀ {ts : List (LabelTree α)} {b : β} {entries : κ → Option β} {k : κ}
    {v : Option β}, k ∉ keysList key ts →
      assignList key f ts b (Function.update entries k v) =
        Function.update (assignList key f ts b entries) k v
  | [], _, _, _, _, _ => by rw [assignList, assignList]
  | t :: ts, b, entries, k, v, hk => by
      rw [keysList, List.mem_append, not_or] at hk
      rw [assignList, assignList, assign_update hk.1, assignList_update hk.2]

end

/-- The attribute of a parent outside a tree is not changed by assigning the tree. -/
theorem inherited_assign {t : LabelTree α} {b top : β} {entries : κ → Option β}
    {parent : Option α} (hparent : ∀ a, parent = some a → key a ∉ keys key t) :
    inherited key top (assign key f t b entries) parent = inherited key top entries parent := by
  cases parent with
  | none => rfl
  | some a => exact assign_of_not_mem key f (hparent a rfl)

theorem inherited_assignList {ts : List (LabelTree α)} {b top : β} {entries : κ → Option β}
    {parent : Option α} (hparent : ∀ a, parent = some a → key a ∉ keysList key ts) :
    inherited key top (assignList key f ts b entries) parent =
      inherited key top entries parent := by
  cases parent with
  | none => rfl
  | some a => exact assignList_of_not_mem key f (hparent a rfl)

/-- A node that a tree does not touch, and whose parent it does not touch, agrees with its
parent after the assignment if it did before. -/
theorem Local.assign {t : LabelTree α} {b top : β} {entries : κ → Option β} {m : Member α}
    (h : Local key f top entries m) (hm : key m.tree.label ∉ keys key t)
    (hparent : ∀ a, m.parent = some a → key a ∉ keys key t) :
    Local key f top (InheritedTree.assign key f t b entries) m := by
  rw [Local, assign_of_not_mem key f hm, inherited_assign key f hparent]
  exact h

theorem Local.assignList {ts : List (LabelTree α)} {b top : β} {entries : κ → Option β}
    {m : Member α} (h : Local key f top entries m) (hm : key m.tree.label ∉ keysList key ts)
    (hparent : ∀ a, m.parent = some a → key a ∉ keysList key ts) :
    Local key f top (InheritedTree.assignList key f ts b entries) m := by
  rw [Local, assignList_of_not_mem key f hm, inherited_assignList key f hparent]
  exact h

omit [DecidableEq κ] in
/-- The key of a member is a key of the tree. -/
theorem key_mem_of_mem {parent : Option α} {t : LabelTree α} {m : Member α}
    (hm : m ∈ members parent t) : key m.tree.label ∈ keys key t := by
  rw [← members_map_key key parent t]
  exact List.mem_map_of_mem hm

mutual

/-- **After the assignment of a tree, every node of it agrees with its parent.** -/
theorem assign_local {parent : Option α} {top : β} : ∀ {t : LabelTree α} {b : β}
    {entries : κ → Option β}, (keys key t).Nodup →
    (∀ a, parent = some a → key a ∉ keys key t) →
    inherited key top entries parent = some b →
    ∀ m ∈ members parent t, Local key f top (assign key f t b entries) m
  | .node a ts, b, entries, hnodup, hparent, hb, m, hm => by
      rw [members, List.mem_cons] at hm
      rw [keys, List.nodup_cons] at hnodup
      rcases hm with rfl | hm
      · rw [Local, inherited_assign key f hparent, hb, assign]
        exact Function.update_self _ _ _
      · -- entering the root first makes it the parent that the children agree with
        rw [assign, ← assignList_update key f hnodup.1]
        have hentry : inherited key top
            (Function.update entries (key a) (some (f a b))) (some a) = some (f a b) :=
          Function.update_self ..
        refine assignList_local hnodup.2 ?_ hentry m hm
        rintro _ ⟨⟩
        exact hnodup.1

theorem assignList_local {parent : Option α} {top : β} : ∀ {ts : List (LabelTree α)} {b : β}
    {entries : κ → Option β}, (keysList key ts).Nodup →
    (∀ a, parent = some a → key a ∉ keysList key ts) →
    inherited key top entries parent = some b →
    ∀ m ∈ membersList parent ts, Local key f top (assignList key f ts b entries) m
  | t :: ts, b, entries, hnodup, hparent, hb, m, hm => by
      rw [keysList, List.nodup_append'] at hnodup
      obtain ⟨ht, hts, hdisj⟩ := hnodup
      have hparent_t (a : α) (ha : parent = some a) : key a ∉ keys key t := fun h =>
        hparent a ha (List.mem_append_left _ h)
      have hparent_ts (a : α) (ha : parent = some a) : key a ∉ keysList key ts := fun h =>
        hparent a ha (List.mem_append_right _ h)
      rw [membersList, List.mem_append] at hm
      rw [assignList]
      rcases hm with hm | hm
      · refine (assign_local ht hparent_t hb m hm).assignList key f
          (fun h => hdisj (key_mem_of_mem key hm) h) fun a ha h => ?_
        rcases parent_of_mem key hm with hp | ⟨c, hc, hkey⟩
        · exact hparent_ts a (hp ▸ ha) h
        · obtain rfl : c = a := Option.some.inj (hc.symm.trans ha)
          exact hdisj hkey h
      · refine assignList_local hts hparent_ts ?_ m hm
        rw [inherited_assign key f hparent_t, hb]

end

omit [DecidableEq κ] in
/-- A node of a forest whose key lies in a subtree is a node of the subtree. -/
theorem mem_members_of_key {parent : Option α} {ts : List (LabelTree α)}
    (hnodup : (keysList key ts).Nodup) {s m : Member α} (hs : s ∈ membersList parent ts)
    (hm : m ∈ membersList parent ts) (hkey : key m.tree.label ∈ keys key s.tree) :
    m ∈ members s.parent s.tree := by
  rw [← members_map_key key s.parent s.tree, List.mem_map] at hkey
  obtain ⟨m', hm', heq⟩ := hkey
  rw [← membersList_map_key key parent ts] at hnodup
  obtain rfl : m' = m :=
    List.inj_on_of_nodup_map hnodup (membersList_subset_of_mem hs hm') hm heq
  exact hm'

/-- **Assigning a subtree of a forest below its parent's attribute brings its root in
agreement, and no other node out of it.** -/
theorem assign_member_local {top : β} {ts : List (LabelTree α)} {b : β} {entries : κ → Option β}
    (hnodup : (keysList key ts).Nodup) {s m : Member α} (hs : s ∈ membersList none ts)
    (hb : inherited key top entries s.parent = some b) (hm : m ∈ membersList none ts)
    (h : key m.tree.label ≠ key s.tree.label → Local key f top entries m) :
    Local key f top (assign key f s.tree b entries) m := by
  have htop (a : α) (ha : none = some a) : key a ∉ keysList key ts := nomatch ha
  by_cases hkey : key m.tree.label ∈ keys key s.tree
  · refine assign_local key f (keysList_nodup_of_mem key hnodup hs) ?_ hb m
      (mem_members_of_key key hnodup hs hm hkey)
    intro a ha
    exact parentList_not_mem key hnodup htop hs ha
  · have hne : key m.tree.label ≠ key s.tree.label := by
      intro heq
      obtain ⟨⟨a, ts'⟩, parent⟩ := s
      exact hkey (heq ▸ List.mem_cons_self)
    refine (h hne).assign key f hkey fun a ha hparent => hkey ?_
    exact key_mem_of_mem key (mem_membersList_of_parent key hnodup htop hs hm ha hparent)

mutual

/-- Nodes of the tree have an entry after the assignment, and no entry is lost. -/
theorem assign_isSome : ∀ {t : LabelTree α} {b : β} {entries : κ → Option β} {k : κ},
    k ∈ keys key t ∨ (entries k).isSome → (assign key f t b entries k).isSome
  | .node a ts, b, entries, k, hk => by
      rw [assign]
      by_cases hka : k = key a
      · rw [hka, Function.update_self]
        rfl
      · rw [Function.update_of_ne hka]
        refine assignList_isSome (hk.imp_left fun h => ?_)
        rw [keys, List.mem_cons] at h
        exact h.resolve_left hka

theorem assignList_isSome : ∀ {ts : List (LabelTree α)} {b : β} {entries : κ → Option β} {k : κ},
    k ∈ keysList key ts ∨ (entries k).isSome → (assignList key f ts b entries k).isSome
  | [], _, _, _, hk => by
      rw [assignList]
      exact hk.resolve_left (by rw [keysList]; exact List.not_mem_nil)
  | t :: ts, b, entries, k, hk => by
      rw [assignList]
      rw [keysList, List.mem_append, or_assoc] at hk
      refine assignList_isSome ?_
      rcases hk with h | h | h
      · exact Or.inr (assign_isSome (Or.inl h))
      · exact Or.inl h
      · exact Or.inr (assign_isSome (Or.inr h))

end

end Assign

section Unique

variable (key : α → κ) (f : α → β → β)

mutual

/-- **Entries that agree everywhere are determined by the labels.** -/
theorem entry_unique {parent : Option α} {top : β} {entries entries' : κ → Option β} :
    ∀ {t : LabelTree α}, inherited key top entries parent = inherited key top entries' parent →
    (∀ m ∈ members parent t, Local key f top entries m) →
    (∀ m ∈ members parent t, Local key f top entries' m) →
    ∀ k ∈ keys key t, entries k = entries' k
  | .node a ts, hparent, h, h', k, hk => by
      rw [members, List.forall_mem_cons] at h h'
      have hroot : entries (key a) = entries' (key a) := by
        have hlocal := h.1
        have hlocal' := h'.1
        rw [Local] at hlocal hlocal'
        exact hlocal.trans (hparent ▸ hlocal'.symm)
      rw [keys, List.mem_cons] at hk
      rcases hk with rfl | hk
      · exact hroot
      · have hinherited : inherited key top entries (some a) =
            inherited key top entries' (some a) := hroot
        exact entryList_unique hinherited h.2 h'.2 k hk

theorem entryList_unique {parent : Option α} {top : β} {entries entries' : κ → Option β} :
    ∀ {ts : List (LabelTree α)},
    inherited key top entries parent = inherited key top entries' parent →
    (∀ m ∈ membersList parent ts, Local key f top entries m) →
    (∀ m ∈ membersList parent ts, Local key f top entries' m) →
    ∀ k ∈ keysList key ts, entries k = entries' k
  | t :: ts, hparent, h, h', k, hk => by
      rw [membersList, List.forall_mem_append] at h h'
      rw [keysList, List.mem_append] at hk
      rcases hk with hk | hk
      · exact entry_unique hparent h.1 h'.1 k hk
      · exact entryList_unique hparent h.2 h'.2 k hk

end

end Unique

end InheritedTree
