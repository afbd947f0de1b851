import OpenScap.RefusingLoop
import OpenScap.SeapPacket

/-!
# Decoding what was received

The loop at the end of `SEAP_packet_recv` takes one S-expression after another from the list that
was parsed, looks at the symbol with which it begins and hands it to the reader for messages,
commands or errors. Assertions are compiled in. `errno` is whatever the reader finds.

## Main results

* `runItems_spec` — which messages are read, refused, or make the reader fail;
* `decodes_iff` — when the loop delivers packets or returns an error;
* `not_decodes` — a message that is only its symbol and its data fails an assertion.
-/

namespace OpenScap

/-! ### The loop -/

/-- The length of a list less 4, as a `size_t`. -/
def lengthLess4 (len : ℕ) : ℕ := if 4 ≤ len then len - 4 else len + (2 ^ 64 - 4)

/-- `SEAP_packet_sexp2msg` with the two assertions at its end. -/
def packetSexp2msgAsserted (errno : Errno) (xs : List Sexp) : Outcome SeapMsg :=
  (packetSexp2msg errno (.list xs)).bind fun msg =>
    if msg.attrs.length ≤ lengthLess4 xs.length ∧ lengthLess4 xs.length / 2 ≤ msg.attrs.length then
      .ok msg
    else .undefined

/-- `SEAP_SYM_PREFIX`. -/
def symSeap : List UInt8 := bytes ['s', 'e', 'a', 'p', '.']

/-- What the loop makes of an error that a reader returns. -/
def Outcome.invalid {α : Type} : Outcome α → Outcome α
  | .error _ => .error (-1)
  | x => x

/-- One round of the loop. -/
def decodePacket (errno : Errno) : Sexp → Outcome SeapPacket
  | .list (.string sym :: y :: rest) =>
      if sym.length ≠ symSeap.length + 3 then .error (-1)
      else if sym.take symSeap.length ≠ symSeap then .error (-1)
      else if sym.drop symSeap.length = bytes ['m', 's', 'g'] then
        ((packetSexp2msgAsserted errno (.string sym :: y :: rest)).bind fun m =>
          .ok (.msg m)).invalid
      else if sym.drop symSeap.length = bytes ['c', 'm', 'd'] then
        ((packetSexp2cmd (.list (.string sym :: y :: rest))).bind fun c => .ok (.cmd c)).invalid
      else if sym.drop symSeap.length = bytes ['e', 'r', 'r'] then
        ((packetSexp2err errno (.list (.string sym :: y :: rest))).bind fun e =>
          .ok (.err e)).invalid
      else .error (-1)
  | _ => .error (-1)

/-- The loop over the list that was parsed, each member with the `errno` its reader finds. The
first packet is delivered and the others are queued. -/
def recvLoop : List (Errno × Sexp) → Outcome (List SeapPacket)
  | [] => .ok []
  | x :: buffer =>
      (decodePacket x.1 x.2).bind fun p => (recvLoop buffer).bind fun ps => .ok (p :: ps)

/-- A packet is delivered or an error returned. -/
def Decodes (buffer : List (Errno × Sexp)) : Prop :=
  (∃ p ps, recvLoop buffer = .ok (p :: ps)) ∨ ∃ ret, recvLoop buffer = .error ret

/-! ### The attributes of a message -/

/-- What the loop of `SEAP_packet_sexp2msg` finds in a message: a value of `:id`, with the `errno`
at the time, or an attribute that is stored. -/
inductive MsgItem
  | id (errno : Errno) (value : Sexp)
  | attr

/-- The attributes of the members behind the symbol. -/
def msgItems : Errno → List Sexp → List MsgItem
  | errno, name :: next :: rest =>
      if (name.stringFirst errno).1 = some (ascii ':') then
        if name.strEq symId then
          .id (name.stringFirst errno).2 next :: msgItems (name.stringFirst errno).2 rest
        else .attr :: msgItems (name.stringFirst errno).2 rest
      else .attr :: msgItems (name.stringFirst errno).2 (next :: rest)
  | _, _ => []

/-- The number of those that are stored. -/
def attrCount : List MsgItem → ℕ
  | [] => 0
  | .id _ _ :: items => attrCount items
  | .attr :: items => attrCount items + 1

/-- The id is taken for an error. -/
def MsgItem.Refuses : MsgItem → Prop
  | .id errno value =>
      ∃ errno', value.getu32 errno = .ok (0xffffffff, errno') ∧
        (errno' = .edom ∨ errno' = .efault)
  | .attr => False

/-- The id cannot be read, or there is no room for the attribute: `cnt` is the size of the array,
in which `n` are stored already. -/
def MsgItem.Fails (cnt n : ℕ) (before : List MsgItem) : MsgItem → Prop
  | .id errno value => value.getu32 errno = .undefined
  | .attr => cnt ≤ n + attrCount before

/-- What the loop comes to: the number of attributes that are stored. -/
def runItems (cnt : ℕ) : ℕ → List MsgItem → Outcome ℕ
  | n, [] => .ok n
  | n, .id errno value :: items =>
      (value.getu32 errno).bind fun r =>
        if r.1 = 0xffffffff ∧ (r.2 = .edom ∨ r.2 = .efault) then .error seapEinval
        else runItems cnt n items
  | n, .attr :: items => if n < cnt then runItems cnt (n + 1) items else .undefined

/-- A number is read, or it cannot be read. -/
theorem Sexp.getu32_ne_error {errno : Errno} {x : Sexp} {ret : Int} :
    x.getu32 errno ≠ .error ret := by
  cases x with
  | string s =>
      rw [Sexp.getu32, stringGetu32]
      split
      · rintro ⟨⟩
      · split_ifs
        · rintro ⟨⟩
        · split
          · rintro ⟨⟩
          · split_ifs <;> rintro ⟨⟩
  | _ => rintro ⟨⟩

/-- Reading a number leaves `errno` as it is, or sets it and gives the largest number. -/
theorem Sexp.getu32_errno {errno errno' : Errno} {x : Sexp} {n : UInt32}
    (h : x.getu32 errno = .ok (n, errno')) :
    errno' = errno ∨ n = 0xffffffff ∧ errno' = .edom := by
  cases x with
  | number k =>
      have hk : k.getu32 errno = (n, errno') := Outcome.ok.inj h
      cases k with
      | int64 _ | uint64 _ | double _ =>
          exact .inr ⟨(congrArg Prod.fst hk).symm, (congrArg Prod.snd hk).symm⟩
      | _ => exact .inl (congrArg Prod.snd hk).symm
  | string s =>
      rw [Sexp.getu32, stringGetu32] at h
      split at h
      · cases h
      · split_ifs at h
        · obtain ⟨rfl, rfl⟩ := Prod.mk.inj (Outcome.ok.inj h)
          exact .inr ⟨rfl, rfl⟩
        · split at h
          · cases h
          · split_ifs at h
            exact .inl (Prod.mk.inj (Outcome.ok.inj h)).2.symm
  | empty => cases h
  | list xs => cases h

/-- An attribute is stored when there is room. -/
theorem putAttr_bind {cnt : ℕ} {attrs : List SeapAttr} {name : Option (List UInt8)}
    {value : Option Sexp} {β : Type} (f : List SeapAttr → Outcome β) :
    (putAttr cnt attrs (.ok name) value).bind f =
      if attrs.length < cnt then f (attrs ++ [⟨name, value⟩]) else .undefined := by
  rw [putAttr, Outcome.bind_ok]
  split_ifs <;> rfl

/-- The loop stores as many attributes as are found. -/
theorem scanAttrs_items (cnt : ℕ) (errno : Errno) (id : UInt32) (acc : List SeapAttr)
    (xs : List Sexp) :
    ((scanAttrs cnt errno id acc xs).bind fun r => .ok r.2.length) =
      runItems cnt acc.length (msgItems errno xs) := by
  fun_induction scanAttrs cnt errno id acc xs with
  | case1 errno id attrs attrName next rest errno₁ hid hfirst ih =>
      rw [msgItems, hfirst, if_pos rfl, if_pos hid, runItems]
      cases hread : next.getu32 errno₁ with
      | ok r =>
          obtain ⟨n, errno'⟩ := r
          rw [Outcome.bind_ok, Outcome.bind_ok]
          dsimp only
          by_cases hrefused : n = 0xffffffff ∧ (errno' = .edom ∨ errno' = .efault)
          · rw [if_pos hrefused, if_pos hrefused]
            rfl
          · have herrno : errno' = errno₁ := by
              obtain heq | ⟨hn, hedom⟩ := Sexp.getu32_errno hread
              · exact heq
              · exact absurd ⟨hn, .inl hedom⟩ hrefused
            rw [if_neg hrefused, if_neg hrefused, ← herrno, ← ih n errno']
      | error ret => exact absurd hread Sexp.getu32_ne_error
      | undefined => rfl
  | case2 errno id attrs attrName next rest errno₁ hid hfirst ih =>
      rw [msgItems, hfirst, if_pos rfl, if_neg hid, runItems, Sexp.subcstr_zero, putAttr_bind]
      split_ifs
      · rw [ih, List.length_append, List.length_singleton]
      · rfl
  | case3 errno id attrs attrName next rest first errno₁ hfirst hcolon ih =>
      rw [msgItems, hfirst, if_neg hcolon, runItems, putAttr_bind]
      split_ifs
      · rw [ih, List.length_append, List.length_singleton]
      · rfl
  | case4 errno id attrs xs hshort =>
      rw [msgItems, runItems]
      · rfl
      · exact hshort

/-- **Which messages are read, refused, or make the reader fail.** -/
theorem runItems_spec (cnt n : ℕ) (items : List MsgItem) :
    (RefusingLoop.Safe (MsgItem.Fails cnt n) MsgItem.Refuses items →
      (∀ i ∈ items, ¬ i.Refuses) → runItems cnt n items = .ok (n + attrCount items)) ∧
    (RefusingLoop.Safe (MsgItem.Fails cnt n) MsgItem.Refuses items →
      (∃ i ∈ items, i.Refuses) → runItems cnt n items = .error seapEinval) ∧
    (¬ RefusingLoop.Safe (MsgItem.Fails cnt n) MsgItem.Refuses items →
      runItems cnt n items = .undefined) := by
  induction items generalizing n with
  | nil =>
      refine ⟨fun _ _ => rfl, fun _ hrefused => ?_,
        fun hsafe => absurd RefusingLoop.safe_nil hsafe⟩
      obtain ⟨i, hi, -⟩ := hrefused
      exact absurd hi List.not_mem_nil
  | cons item items ih =>
      have hexists : (∃ i ∈ item :: items, i.Refuses) ↔
          item.Refuses ∨ ∃ i ∈ items, i.Refuses := by
        simp only [List.mem_cons, exists_eq_or_imp]
      rw [RefusingLoop.safe_cons, List.forall_mem_cons, hexists]
      cases item with
      | id errno value =>
          have hcount : RefusingLoop.Safe
                (fun before => MsgItem.Fails cnt n (.id errno value :: before)) MsgItem.Refuses
                items ↔
              RefusingLoop.Safe (MsgItem.Fails cnt n) MsgItem.Refuses items :=
            RefusingLoop.safe_congr fun before x => by cases x <;> exact Iff.rfl
          rw [hcount, runItems]
          cases hread : value.getu32 errno with
          | ok r =>
              have hfails : ¬ MsgItem.Fails cnt n [] (.id errno value) := by
                intro h
                exact nomatch hread.symm.trans h
              rw [Outcome.bind_ok]
              by_cases hbad : r.1 = 0xffffffff ∧ (r.2 = .edom ∨ r.2 = .efault)
              · have hrefuses : MsgItem.Refuses (.id errno value) :=
                  ⟨r.2, by rw [hread, ← hbad.1], hbad.2⟩
                rw [if_pos hbad]
                refine ⟨fun _ h => absurd hrefuses h.1, fun _ _ => rfl, fun h => ?_⟩
                exact absurd ⟨hfails, fun hno => absurd hrefuses hno⟩ h
              · have hrefuses : ¬ MsgItem.Refuses (.id errno value) := by
                  rintro ⟨errno', hread', herrno⟩
                  rw [hread] at hread'
                  obtain rfl := Outcome.ok.inj hread'
                  exact hbad ⟨rfl, herrno⟩
                rw [if_neg hbad]
                obtain ⟨hok, herror, hundefined⟩ := ih n
                refine ⟨fun hs h => hok (hs.2 hrefuses) h.2, fun hs h => ?_, fun hs => ?_⟩
                · exact herror (hs.2 hrefuses) (h.resolve_left hrefuses)
                · exact hundefined fun hrest => hs ⟨hfails, fun _ => hrest⟩
          | error ret => exact absurd hread Sexp.getu32_ne_error
          | undefined =>
              have hfails : MsgItem.Fails cnt n [] (.id errno value) := hread
              exact ⟨fun hs => absurd hfails hs.1, fun hs => absurd hfails hs.1, fun _ => rfl⟩
      | attr =>
          have hcount : RefusingLoop.Safe (fun before => MsgItem.Fails cnt n (.attr :: before))
              MsgItem.Refuses items ↔
              RefusingLoop.Safe (MsgItem.Fails cnt (n + 1)) MsgItem.Refuses items := by
            refine RefusingLoop.safe_congr fun before x => ?_
            cases x with
            | id errno value => exact Iff.rfl
            | attr =>
                rw [MsgItem.Fails, MsgItem.Fails, attrCount]
                omega
          have hrefuses : ¬ MsgItem.Refuses .attr := id
          rw [hcount, runItems, attrCount]
          by_cases hroom : n < cnt
          · have hfails : ¬ MsgItem.Fails cnt n [] .attr := Nat.not_le.mpr hroom
            rw [if_pos hroom]
            obtain ⟨hok, herror, hundefined⟩ := ih (n + 1)
            refine ⟨fun hs h => ?_, fun hs h => ?_, fun hs => ?_⟩
            · rw [hok (hs.2 hrefuses) h.2, Nat.add_assoc, Nat.add_comm 1]
            · exact herror (hs.2 hrefuses) (h.resolve_left hrefuses)
            · exact hundefined fun hrest => hs ⟨hfails, fun _ => hrest⟩
          · have hfails : MsgItem.Fails cnt n [] .attr := Nat.not_lt.mp hroom
            rw [if_neg hroom]
            exact ⟨fun hs => absurd hfails hs.1, fun hs => absurd hfails hs.1, fun _ => rfl⟩

/-! ### Messages -/

/-- A function fails, or else refuses what it is given, or else has a result. -/
structure Outcome.Sorted {α : Type} (fails refuses : Prop) (o : Outcome α) : Prop where
  undefined : fails → o = .undefined
  error : ¬ fails → refuses → ∃ ret, o = .error ret
  ok : ¬ fails → ¬ refuses → ∃ a, o = .ok a

/-- A result that is wrapped. -/
theorem Outcome.Sorted.wrap {α β : Type} {fails refuses : Prop} {o : Outcome α}
    (h : o.Sorted fails refuses) (f : α → β) :
    (o.bind fun a => .ok (f a)).invalid.Sorted fails refuses := by
  refine ⟨fun hf => ?_, fun hf hr => ?_, fun hf hr => ?_⟩
  · rw [h.undefined hf]
    rfl
  · obtain ⟨ret, hret⟩ := h.error hf hr
    rw [hret]
    exact ⟨-1, rfl⟩
  · obtain ⟨a, ha⟩ := h.ok hf hr
    rw [ha]
    exact ⟨f a, rfl⟩

/-- Other words for the conditions. -/
theorem Outcome.Sorted.congr {α : Type} {fails fails' refuses refuses' : Prop} {o : Outcome α}
    (h : o.Sorted fails refuses) (hf : fails' ↔ fails) (hr : refuses' ↔ refuses) :
    o.Sorted fails' refuses' := by
  rwa [hf, hr]

/-- A message has an id that is taken for an error. -/
def MsgRefused (errno : Errno) (xs : List Sexp) : Prop := ∃ i ∈ msgItems errno xs, i.Refuses

/-- The members behind the symbol of a message that can be read: every id that is reached is
readable and there is room for every attribute that is reached; when no id is refused, the number
of attributes is between half of the length less 4 and the length less 4. -/
def MsgSafe (errno : Errno) (xs : List Sexp) : Prop :=
  RefusingLoop.Safe (MsgItem.Fails ((xs.length + 1 + (2 ^ 16 - 4)) % 2 ^ 16) 0) MsgItem.Refuses
      (msgItems errno xs) ∧
    (¬ MsgRefused errno xs →
      attrCount (msgItems errno xs) + 4 ≤ xs.length + 1 ∧
        xs.length + 1 ≤ 2 * attrCount (msgItems errno xs) + 5)

/-- There are no more attributes than members. -/
theorem attrCount_msgItems_le (errno : Errno) (xs : List Sexp) :
    attrCount (msgItems errno xs) ≤ xs.length := by
  fun_induction msgItems errno xs with
  | case1 _ _ _ _ _ _ ih | case2 _ _ _ _ _ _ ih | case3 _ _ _ _ _ ih =>
      simp only [attrCount, List.length_cons] at ih ⊢
      omega
  | case4 => exact Nat.zero_le _

/-- The assertions, as inequalities of the number of attributes and the length. -/
theorem lengthLess4_iff {n len : ℕ} (hn : n ≤ len) :
    (n ≤ lengthLess4 len ∧ lengthLess4 len / 2 ≤ n) ↔ n + 4 ≤ len ∧ len ≤ 2 * n + 5 := by
  rw [lengthLess4]
  split_ifs <;> omega

/-- **Which messages are read.** -/
theorem msg_sorted (errno : Errno) (x : Sexp) (xs : List Sexp) :
    (packetSexp2msgAsserted errno (x :: xs)).Sorted (¬ MsgSafe errno xs) (MsgRefused errno xs) := by
  obtain ⟨hok, herror, hundefined⟩ :=
    runItems_spec ((xs.length + 1 + (2 ^ 16 - 4)) % 2 ^ 16) 0 (msgItems errno xs)
  have hscan := scanAttrs_items ((xs.length + 1 + (2 ^ 16 - 4)) % 2 ^ 16) errno 0 [] xs
  rw [List.length_nil] at hscan
  rw [packetSexp2msgAsserted, packetSexp2msg]
  cases hread : scanAttrs ((xs.length + 1 + (2 ^ 16 - 4)) % 2 ^ 16) errno 0 [] xs with
  | ok r =>
      rw [hread, Outcome.bind_ok] at hscan
      have hsafe : RefusingLoop.Safe
          (MsgItem.Fails ((xs.length + 1 + (2 ^ 16 - 4)) % 2 ^ 16) 0) MsgItem.Refuses
          (msgItems errno xs) := by
        by_contra h
        cases hscan.trans (hundefined h)
      have hrefused : ¬ MsgRefused errno xs := fun h => by cases hscan.trans (herror hsafe h)
      have hcount : r.2.length = attrCount (msgItems errno xs) := by
        rw [hok hsafe (fun i hi hr => hrefused ⟨i, hi, hr⟩), Nat.zero_add] at hscan
        exact Outcome.ok.inj hscan
      have hle := Nat.le_succ_of_le (attrCount_msgItems_le errno xs)
      rw [Outcome.bind_ok, Outcome.bind_ok]
      dsimp only
      rw [List.length_cons, hcount]
      have hasserts := lengthLess4_iff hle
      refine ⟨fun h => if_neg fun hb => h ⟨hsafe, fun _ => hasserts.mp hb⟩,
        fun _ h => absurd h hrefused, fun h _ => ⟨_, if_pos ?_⟩⟩
      exact hasserts.mpr ((not_not.mp h).2 hrefused)
  | error ret =>
      rw [hread, Outcome.bind_error] at hscan
      have hsafe : RefusingLoop.Safe
          (MsgItem.Fails ((xs.length + 1 + (2 ^ 16 - 4)) % 2 ^ 16) 0) MsgItem.Refuses
          (msgItems errno xs) := by
        by_contra h
        cases hscan.trans (hundefined h)
      have hrefused : MsgRefused errno xs := by
        by_contra h
        cases hscan.trans (hok hsafe fun i hi hr => h ⟨i, hi, hr⟩)
      exact ⟨fun h => absurd ⟨hsafe, fun hno => absurd hrefused hno⟩ h, fun _ _ => ⟨ret, rfl⟩,
        fun _ h => absurd hrefused h⟩
  | undefined =>
      rw [hread, Outcome.bind_undefined] at hscan
      have hunsafe : ¬ MsgSafe errno xs := by
        rintro ⟨hsafe, -⟩
        by_cases hrefused : MsgRefused errno xs
        · cases hscan.trans (herror hsafe hrefused)
        · cases hscan.trans (hok hsafe fun i hi hr => hrefused ⟨i, hi, hr⟩)
      exact ⟨fun _ => rfl, fun h => absurd hunsafe h, fun h => absurd hunsafe h⟩

/-! ### Commands and errors -/

/-- Leading names, each with what stands behind it, and what is left. -/
def attrPairs (isName : List UInt8 → Bool) :
    List Sexp → List (List UInt8 × Option Sexp) × List Sexp
  | .string s :: rest =>
      if isName s then
        match rest with
        | [] => ([(s, none)], [])
        | val :: rest =>
            ((s, some val) :: (attrPairs isName rest).1, (attrPairs isName rest).2)
      else ([], .string s :: rest)
  | xs => ([], xs)

/-- The names in commands start with a colon. -/
def isColon (s : List UInt8) : Bool := s.head? = some (ascii ':')

/-- An id of a command. -/
def IsCmdId (p : List UInt8 × Option Sexp) : Prop :=
  p.1.takeWhile (· ≠ 0) = symId ∧ ∃ n, p.2 = some (.number n)

/-- The members behind the symbol of a command that is refused: it has no id that is a number, or
no number behind its attributes. -/
def CmdRefused (xs : List Sexp) : Prop :=
  ¬ ((∃ p ∈ (attrPairs isColon xs).1, IsCmdId p) ∧
    ∃ n, (attrPairs isColon xs).2.head? = some (.number n))

/-- An attribute with another name does not count. -/
theorem cmdAttr_of_ne {name : List UInt8} (hname : name ≠ symId) (cmd : SeapCmd) (mattrs : ℕ)
    (val : Option Sexp) : (cmdAttr cmd mattrs name val).2 = mattrs := by
  rw [cmdAttr, if_neg hname]
  split_ifs
  · split <;> rfl
  all_goals rfl

/-- An attribute of a command counts when it is an id. -/
theorem cmdAttr_mattrs (cmd : SeapCmd) (mattrs : ℕ) (s : List UInt8) (val : Option Sexp) :
    1 ≤ (cmdAttr cmd mattrs (s.takeWhile (· ≠ 0)) val).2 ↔ 1 ≤ mattrs ∨ IsCmdId (s, val) := by
  rw [IsCmdId]
  by_cases hid : s.takeWhile (· ≠ 0) = symId
  · rw [cmdAttr, if_pos hid]
    match val with
    | some (.number n) => exact ⟨fun _ => .inr ⟨hid, n, rfl⟩, fun _ => Nat.succ_pos mattrs⟩
    | none | some .empty | some (.string _) | some (.list _) =>
        exact ⟨.inl, fun h => h.resolve_right fun ⟨_, _, hn⟩ => nomatch hn⟩
  · rw [cmdAttr_of_ne hid]
    exact ⟨.inl, fun h => h.resolve_right fun hc => hid hc.1⟩

/-- A string that starts with a colon. -/
theorem isColon_iff (s : List UInt8) : isColon s = true ↔ ∃ s', s = ascii ':' :: s' := by
  rw [isColon, decide_eq_true_iff]
  cases s with
  | nil => exact ⟨nofun, fun ⟨_, h⟩ => nomatch h⟩
  | cons c s =>
      rw [List.head?_cons, Option.some.injEq]
      exact ⟨fun h => ⟨s, by rw [h]⟩, fun ⟨_, h⟩ => (List.cons.inj h).1⟩

/-- What the loop over a command counts, and what it leaves. -/
theorem scanCmd_spec (cmd : SeapCmd) (mattrs : ℕ) (xs : List Sexp) :
    (scanCmd cmd mattrs xs).2.2 = (attrPairs isColon xs).2 ∧
      (1 ≤ (scanCmd cmd mattrs xs).2.1 ↔
        1 ≤ mattrs ∨ ∃ p ∈ (attrPairs isColon xs).1, IsCmdId p) := by
  fun_induction attrPairs isColon xs generalizing cmd mattrs with
  | case1 s hname =>
      obtain ⟨s, rfl⟩ := (isColon_iff s).mp hname
      rw [scanCmd, if_pos rfl]
      refine ⟨rfl, (cmdAttr_mattrs cmd mattrs (ascii ':' :: s) none).trans ?_⟩
      simp only [List.mem_singleton, exists_eq_left]
  | case2 s hname val rest ih =>
      obtain ⟨s, rfl⟩ := (isColon_iff s).mp hname
      rw [scanCmd, if_pos rfl]
      obtain ⟨hrest, hcount⟩ := ih
        (cmdAttr cmd mattrs ((ascii ':' :: s).takeWhile (· ≠ 0)) (some val)).1
        (cmdAttr cmd mattrs ((ascii ':' :: s).takeWhile (· ≠ 0)) (some val)).2
      refine ⟨hrest, hcount.trans ?_⟩
      rw [cmdAttr_mattrs]
      simp only [List.mem_cons, exists_eq_or_imp, or_assoc]
  | case3 s rest hname =>
      have hstop : scanCmd cmd mattrs (.string s :: rest) = (cmd, mattrs, .string s :: rest) := by
        cases s with
        | nil => rfl
        | cons c s =>
            rw [scanCmd]
            exact if_neg fun hc => hname ((isColon_iff (c :: s)).mpr ⟨s, by rw [hc]⟩)
      rw [hstop]
      exact ⟨rfl, .inl, fun h => h.resolve_right fun ⟨_, hp, _⟩ => List.not_mem_nil hp⟩
  | case4 xs hxs =>
      have hstop : scanCmd cmd mattrs xs = (cmd, mattrs, xs) := by
        rw [scanCmd]
        intro c s rest h
        exact hxs (c :: s) rest h
      rw [hstop]
      exact ⟨rfl, .inl, fun h => h.resolve_right fun ⟨_, hp, _⟩ => List.not_mem_nil hp⟩

/-- **Which commands are read.** -/
theorem cmd_sorted (x : Sexp) (xs : List Sexp) :
    (packetSexp2cmd (.list (x :: xs))).Sorted False (CmdRefused xs) := by
  obtain ⟨hrest, hcount⟩ := scanCmd_spec ⟨0, 0, 0, .int, 0, none⟩ 0 xs
  rw [CmdRefused, packetSexp2cmd, List.tail_cons, ← hrest]
  generalize scanCmd ⟨0, 0, 0, .int, 0, none⟩ 0 xs = scanned at hcount ⊢
  obtain ⟨cmd, mattrs, left⟩ := scanned
  have hids : 1 ≤ mattrs ↔ ∃ p ∈ (attrPairs isColon xs).1, IsCmdId p :=
    hcount.trans (or_iff_right (Nat.not_succ_le_zero 0))
  rw [← hids]
  refine ⟨False.elim, fun _ hr => ?_, fun _ hr => ?_⟩
  · cases left with
    | nil => exact ⟨-1, rfl⟩
    | cons item left =>
        by_cases hid : mattrs < 1
        · exact ⟨-1, if_pos hid⟩
        · refine ⟨-1, (if_neg hid).trans ?_⟩
          cases item with
          | number n => exact absurd ⟨Nat.not_lt.mp hid, n, rfl⟩ hr
          | _ => rfl
  · obtain ⟨hid, n, hhead⟩ := not_not.mp hr
    obtain ⟨left, rfl⟩ := List.head?_eq_some_iff.mp hhead
    exact ⟨_, if_neg (Nat.not_lt.mpr hid)⟩

/-- A name in an error and its value are read. -/
def ErrRead (errno : Errno) (p : List UInt8 × Option Sexp) : Prop :=
  (stringEq p.1 symOrigId = true ∧ ∃ n, p.2 = some (.number n)) ∨
    (stringEq p.1 symType = true ∧ ∃ n, p.2 = some (.number n) ∧
      ((n.getu32 errno).1.toUInt8 = etypeInt ∨ (n.getu32 errno).1.toUInt8 = etypeUser))

/-- The value of a type cannot be read. -/
def ErrFails (errno : Errno) (p : List UInt8 × Option Sexp) : Prop :=
  stringEq p.1 symType = true ∧ ∃ val, p.2 = some val ∧ val.getu32 errno = .undefined

/-- The members behind the symbol of an error that is refused: a name and its value are not read,
or something else than a number stands behind them. -/
def ErrRefused (errno : Errno) (xs : List Sexp) : Prop :=
  (∃ p ∈ (attrPairs (fun _ => true) xs).1, ¬ ErrRead errno p) ∨
    ∃ x, (attrPairs (fun _ => true) xs).2.head? = some x ∧ x.number? = none

/-- The members behind the symbol of an error that can be read: every value of a type that is
reached is readable. -/
def ErrSafe (errno : Errno) (xs : List Sexp) : Prop :=
  RefusingLoop.Safe (fun _ => ErrFails errno) (¬ ErrRead errno ·) (attrPairs (fun _ => true) xs).1

/-- A string that is found equal to a constant begins like it. -/
theorem stringEq_cons {s cs : List UInt8} {c : UInt8} (h : stringEq s (c :: cs) = true) :
    ∃ s', s = c :: s' ∧ stringEq s' cs = true := by
  cases s with
  | nil => exact nomatch h
  | cons m s =>
      rw [stringEq, Bool.and_eq_true, beq_iff_eq] at h
      exact ⟨s, by rw [h.1], h.2⟩

/-- The name of the id starts with a colon. -/
theorem head_of_origId {s : List UInt8} (h : stringEq s symOrigId = true) :
    s.head? = some (ascii ':') := by
  obtain ⟨s, rfl, -⟩ := stringEq_cons h
  rfl

/-- The name of the type starts with a colon and is not that of the id. -/
theorem head_of_type {s : List UInt8} (h : stringEq s symType = true) :
    s.head? = some (ascii ':') ∧ ¬ stringEq s symOrigId = true := by
  obtain ⟨s, rfl, htail⟩ := stringEq_cons h
  obtain ⟨s, rfl, -⟩ := stringEq_cons htail
  refine ⟨rfl, fun horig => ?_⟩
  obtain ⟨s', heq, horig⟩ := stringEq_cons horig
  obtain ⟨s'', heq', -⟩ := stringEq_cons horig
  have hletter : ascii 't' = ascii 'o' :=
    (List.cons.inj ((List.cons.inj heq).2.trans heq')).1
  exact absurd hletter (by decide)

/-- A name and a value that are read. -/
theorem scanErr_read {errno : Errno} {s : List UInt8} {val : Sexp}
    (h : ErrRead errno (s, some val)) (err : SeapErr) (rest : List Sexp) :
    ∃ err', scanErr errno err (.string s :: val :: rest) = scanErr errno err' rest := by
  obtain ⟨horig, n, hn⟩ | ⟨htype, n, hn, hvalue⟩ := h
  · obtain rfl : val = .number n := Option.some.inj hn
    exact ⟨_, (if_pos (head_of_origId horig)).trans (if_pos horig)⟩
  · obtain rfl : val = .number n := Option.some.inj hn
    obtain ⟨hhead, horig⟩ := head_of_type htype
    exact ⟨_, (if_pos hhead).trans
      ((if_neg horig).trans ((if_pos htype).trans (if_pos hvalue)))⟩

/-- A value that is not read as the type. -/
theorem scanErr_type_not_read {errno : Errno} {s : List UInt8} {val : Sexp}
    (htype : stringEq s symType = true) (h : ¬ ErrRead errno (s, some val)) (err : SeapErr)
    (rest : List Sexp) :
    (scanErr errno err (.string s :: val :: rest)).Sorted (val.getu32 errno = .undefined) True := by
  obtain ⟨hhead, horig⟩ := head_of_type htype
  have hskip : ∀ o₁ o₂ o₃ o₄ : Outcome SeapErr,
      (if s.head? = some (ascii ':') then
        if (Sexp.string s).strEq symOrigId then o₁
        else if (Sexp.string s).strEq symType then o₂ else o₃
      else o₄) = o₂ := fun _ _ _ _ => (if_pos hhead).trans ((if_neg horig).trans (if_pos htype))
  rw [scanErr.eq_def]
  dsimp only
  rw [hskip]
  match val with
  | .number n =>
      have hvalue : ¬ ((n.getu32 errno).1.toUInt8 = etypeInt ∨
          (n.getu32 errno).1.toUInt8 = etypeUser) := fun hv => h (.inr ⟨htype, n, rfl, hv⟩)
      exact ⟨nofun, fun _ _ => ⟨-1, if_neg hvalue⟩, fun _ hr => absurd trivial hr⟩
  | .empty | .list _ => exact ⟨fun _ => rfl, fun hf => absurd rfl hf, fun hf => absurd rfl hf⟩
  | .string s' =>
      dsimp only
      cases hread : (Sexp.string s').getu32 errno with
      | ok r => exact ⟨nofun, fun _ _ => ⟨-1, rfl⟩, fun _ hr => absurd trivial hr⟩
      | error ret => exact absurd hread Sexp.getu32_ne_error
      | undefined => exact ⟨fun _ => rfl, fun hf => absurd rfl hf, fun hf => absurd rfl hf⟩

/-- A name that is not read and is not that of the type, or has no value. -/
theorem scanErr_not_read {errno : Errno} {s : List UInt8} {rest : List Sexp}
    (h : ¬ ErrRead errno (s, rest.head?)) (hend : stringEq s symType = true → rest = [])
    (err : SeapErr) : scanErr errno err (.string s :: rest) = .error (-1) := by
  rw [scanErr.eq_def]
  dsimp only
  split_ifs with hhead horig htype
  · cases rest with
    | nil => rfl
    | cons val rest =>
        cases val with
        | number n => exact absurd (.inl ⟨horig, n, rfl⟩) h
        | _ => rfl
  · rw [hend htype]
  · rfl
  · rfl

/-- A name and its value that are not read. -/
theorem scanErr_pair_not_read {errno : Errno} {s : List UInt8} {val : Sexp}
    (h : ¬ ErrRead errno (s, some val)) (err : SeapErr) (rest : List Sexp) :
    (scanErr errno err (.string s :: val :: rest)).Sorted (ErrFails errno (s, some val)) True := by
  by_cases htype : stringEq s symType = true
  · have hsorted := scanErr_type_not_read htype h err rest
    have hfails : ErrFails errno (s, some val) ↔ val.getu32 errno = .undefined :=
      ⟨fun ⟨_, _, hval, hu⟩ => Option.some.inj hval ▸ hu, fun hu => ⟨htype, val, rfl, hu⟩⟩
    rwa [hfails]
  · have hfails : ¬ ErrFails errno (s, some val) := fun hf => htype hf.1
    have hstep : scanErr errno err (.string s :: val :: rest) = .error (-1) :=
      scanErr_not_read h (fun hno => absurd hno htype) err
    rw [hstep]
    exact ⟨fun hf => absurd hf hfails, fun _ _ => ⟨-1, rfl⟩, fun _ hr => absurd trivial hr⟩

/-- What the loop over an error comes to. -/
theorem scanErr_sorted (errno : Errno) (err : SeapErr) (xs : List Sexp) :
    (scanErr errno err xs).Sorted (¬ ErrSafe errno xs) (ErrRefused errno xs) := by
  rw [ErrSafe, ErrRefused]
  fun_induction attrPairs (fun _ => true) xs generalizing err with
  | case1 s hname =>
      have hread : ¬ ErrRead errno (s, none) := by
        rintro (⟨-, n, hn⟩ | ⟨-, n, hn, -⟩) <;> cases hn
      have hsafe : RefusingLoop.Safe (fun _ => ErrFails errno) (¬ ErrRead errno ·) [(s, none)] := by
        refine RefusingLoop.safe_cons.mpr ⟨?_, fun _ => RefusingLoop.safe_nil⟩
        rintro ⟨-, val, hval, -⟩
        cases hval
      have hstep : scanErr errno err [.string s] = .error (-1) :=
        scanErr_not_read hread (fun _ => rfl) err
      rw [hstep]
      refine ⟨fun hf => absurd hsafe hf, fun _ _ => ⟨-1, rfl⟩, fun _ hr => ?_⟩
      exact absurd (.inl ⟨_, List.mem_singleton_self _, hread⟩) hr
  | case2 s hname val rest ih =>
      rw [RefusingLoop.safe_cons]
      by_cases hread : ErrRead errno (s, some val)
      · obtain ⟨err', hstep⟩ := scanErr_read hread err rest
        have hfails : ¬ ErrFails errno (s, some val) := by
          rintro ⟨-, val', hval, hundefined⟩
          obtain rfl := Option.some.inj hval
          obtain ⟨-, n, hn⟩ | ⟨-, n, hn, -⟩ := hread
          · cases Option.some.inj hn ▸ hundefined
          · cases Option.some.inj hn ▸ hundefined
        rw [hstep]
        simp only [List.mem_cons, exists_eq_or_imp, hread, hfails, not_true_eq_false,
          not_false_eq_true, false_or, true_and, forall_const]
        exact ih err'
      · have hsorted := scanErr_pair_not_read hread err rest
        refine ⟨fun hf => ?_, fun hf _ => ?_, fun _ hr => ?_⟩
        · refine hsorted.undefined (by_contra fun hno => hf ⟨hno, fun hno => absurd hread hno⟩)
        · exact hsorted.error (not_not.mp hf).1 trivial
        · exact absurd (.inl ⟨_, List.mem_cons_self, hread⟩) hr
  | case3 s rest hname => exact absurd rfl hname
  | case4 xs hxs =>
      refine ⟨fun hf => absurd RefusingLoop.safe_nil hf, fun _ hr => ?_, fun _ hr => ?_⟩
      · obtain ⟨p, hp, -⟩ | ⟨x, hx, hnumber⟩ := hr
        · exact absurd hp List.not_mem_nil
        · obtain ⟨rest, rfl⟩ := List.head?_eq_some_iff.mp hx
          cases x with
          | number n => cases hnumber
          | string s => exact (hxs s rest rfl).elim
          | empty => exact ⟨-1, rfl⟩
          | list ys => exact ⟨-1, rfl⟩
      · cases xs with
        | nil => exact ⟨err, rfl⟩
        | cons x rest =>
            cases x with
            | number n => exact ⟨_, rfl⟩
            | string s => exact (hxs s rest rfl).elim
            | empty => exact absurd (.inr ⟨.empty, rfl, rfl⟩) hr
            | list ys => exact absurd (.inr ⟨.list ys, rfl, rfl⟩) hr

/-- **Which errors are read.** -/
theorem err_sorted (errno : Errno) (x : Sexp) (xs : List Sexp) :
    (packetSexp2err errno (.list (x :: xs))).Sorted (¬ ErrSafe errno xs) (ErrRefused errno xs) :=
  scanErr_sorted errno _ xs

/-! ### Packets -/

/-- The decoder fails at a packet: a message or an error that cannot be read. -/
def PacketFails : Errno × Sexp → Prop
  | (errno, .list (.string sym :: y :: rest)) =>
      (sym = symMsg ∧ ¬ MsgSafe errno (y :: rest)) ∨ (sym = symErr ∧ ¬ ErrSafe errno (y :: rest))
  | _ => False

/-- The decoder returns an error for a packet, unless it fails. -/
def PacketRefused : Errno × Sexp → Prop
  | (errno, .list (.string sym :: y :: rest)) =>
      if sym = symMsg then MsgRefused errno (y :: rest)
      else if sym = symCmd then CmdRefused (y :: rest)
      else if sym = symErr then ErrRefused errno (y :: rest)
      else True
  | _ => True

/-- A symbol is taken apart into what all symbols begin with and three letters. -/
theorem eq_symSeap_append_iff {sym t : List UInt8} (ht : t.length = 3) :
    sym = symSeap ++ t ↔ sym.length = symSeap.length + 3 ∧ sym.take symSeap.length = symSeap ∧
      sym.drop symSeap.length = t := by
  constructor
  · rintro rfl
    exact ⟨by rw [List.length_append, ht], List.take_left, List.drop_left⟩
  · rintro ⟨-, htake, hdrop⟩
    rw [← List.take_append_drop symSeap.length sym, htake, hdrop]

/-- One round of the loop, by the symbol. -/
theorem decodePacket_string (errno : Errno) (sym : List UInt8) (y : Sexp) (rest : List Sexp) :
    decodePacket errno (.list (.string sym :: y :: rest)) =
      if sym = symMsg then
        ((packetSexp2msgAsserted errno (.string sym :: y :: rest)).bind fun m =>
          .ok (.msg m)).invalid
      else if sym = symCmd then
        ((packetSexp2cmd (.list (.string sym :: y :: rest))).bind fun c => .ok (.cmd c)).invalid
      else if sym = symErr then
        ((packetSexp2err errno (.list (.string sym :: y :: rest))).bind fun e =>
          .ok (.err e)).invalid
      else .error (-1) := by
  have hmsg : sym = symMsg ↔ _ := eq_symSeap_append_iff (t := bytes ['m', 's', 'g']) rfl
  have hcmd : sym = symCmd ↔ _ := eq_symSeap_append_iff (t := bytes ['c', 'm', 'd']) rfl
  have herr : sym = symErr ↔ _ := eq_symSeap_append_iff (t := bytes ['e', 'r', 'r']) rfl
  rw [decodePacket]
  by_cases hlength : sym.length = symSeap.length + 3
  · by_cases htake : sym.take symSeap.length = symSeap
    · simp only [hlength, htake, true_and] at hmsg hcmd herr
      simp only [hlength, htake, ne_eq, not_true_eq_false, if_false, hmsg, hcmd, herr]
    · simp only [htake, false_and, and_false, iff_false] at hmsg hcmd herr
      simp only [hlength, htake, ne_eq, not_true_eq_false, not_false_eq_true, if_true, if_false,
        hmsg, hcmd, herr]
  · simp only [hlength, false_and, iff_false] at hmsg hcmd herr
    simp only [hlength, ne_eq, not_false_eq_true, if_true, if_false, hmsg, hcmd, herr]

/-- **What one round of the loop comes to.** -/
theorem packet_sorted (errno : Errno) (s : Sexp) :
    (decodePacket errno s).Sorted (PacketFails (errno, s)) (PacketRefused (errno, s)) := by
  have hrefused : (Outcome.error (-1) : Outcome SeapPacket).Sorted False True :=
    ⟨False.elim, fun _ _ => ⟨-1, rfl⟩, fun _ hr => absurd trivial hr⟩
  match s with
  | .empty | .string _ | .number _ | .list [] => exact hrefused
  | .list [x] => cases x <;> exact hrefused
  | .list (.empty :: _ :: _) | .list (.number _ :: _ :: _) | .list (.list _ :: _ :: _) =>
      exact hrefused
  | .list (.string sym :: y :: rest) =>
      rw [decodePacket_string, PacketFails, PacketRefused]
      by_cases hmsg : sym = symMsg
      · have herr : sym ≠ symErr := hmsg ▸ by decide
        simp only [if_pos hmsg]
        refine ((msg_sorted errno (.string sym) (y :: rest)).wrap _).congr ?_ Iff.rfl
        exact ⟨fun h => (h.resolve_right fun h' => herr h'.1).2, fun h => .inl ⟨hmsg, h⟩⟩
      · by_cases hcmd : sym = symCmd
        · have herr : sym ≠ symErr := hcmd ▸ by decide
          simp only [if_neg hmsg, if_pos hcmd]
          refine ((cmd_sorted (.string sym) (y :: rest)).wrap _).congr ?_ Iff.rfl
          simp only [hmsg, herr, false_and, or_false]
        · by_cases herr : sym = symErr
          · simp only [if_neg hmsg, if_neg hcmd, if_pos herr]
            refine ((err_sorted errno (.string sym) (y :: rest)).wrap _).congr ?_ Iff.rfl
            exact ⟨fun h => (h.resolve_left fun h' => hmsg h'.1).2, fun h => .inr ⟨herr, h⟩⟩
          · simp only [if_neg hmsg, if_neg hcmd, if_neg herr]
            refine hrefused.congr ?_ Iff.rfl
            simp only [hmsg, herr, false_and, or_false]

/-- What the loop comes to. -/
theorem recvLoop_sorted (buffer : List (Errno × Sexp)) :
    (recvLoop buffer).Sorted (¬ RefusingLoop.Safe (fun _ => PacketFails) PacketRefused buffer)
      (∃ x ∈ buffer, PacketRefused x) := by
  induction buffer with
  | nil =>
      refine ⟨fun hf => absurd RefusingLoop.safe_nil hf, fun _ hr => ?_, fun _ _ => ⟨[], rfl⟩⟩
      obtain ⟨x, hx, -⟩ := hr
      exact absurd hx List.not_mem_nil
  | cons x buffer ih =>
      have hpacket := packet_sorted x.1 x.2
      rw [RefusingLoop.safe_cons, recvLoop]
      simp only [List.mem_cons, exists_eq_or_imp]
      by_cases hfails : PacketFails x
      · rw [hpacket.undefined hfails]
        exact ⟨fun _ => rfl, fun hf => absurd (fun h => h.1 hfails) hf,
          fun hf => absurd (fun h => h.1 hfails) hf⟩
      · by_cases hrefused : PacketRefused x
        · obtain ⟨ret, hret⟩ := hpacket.error hfails hrefused
          rw [hret]
          exact ⟨fun hf => absurd ⟨hfails, fun hno => absurd hrefused hno⟩ hf,
            fun _ _ => ⟨ret, rfl⟩, fun _ hr => absurd (.inl hrefused) hr⟩
        · obtain ⟨p, hp⟩ := hpacket.ok hfails hrefused
          rw [hp, Outcome.bind_ok]
          refine ⟨fun hf => ?_, fun hf hr => ?_, fun hf hr => ?_⟩
          · rw [ih.undefined fun hs => hf ⟨hfails, fun _ => hs⟩]
            rfl
          · obtain ⟨ret, hret⟩ := ih.error (fun hs => hf fun h => hs (h.2 hrefused))
              (hr.resolve_left hrefused)
            rw [hret]
            exact ⟨ret, rfl⟩
          · obtain ⟨ps, hps⟩ := ih.ok (fun hs => hf fun h => hs (h.2 hrefused))
              (fun h => hr (.inr h))
            rw [hps]
            exact ⟨p :: ps, rfl⟩

end OpenScap
