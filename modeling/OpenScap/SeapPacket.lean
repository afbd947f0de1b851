import Mathlib.Data.List.TakeWhile
import OpenScap.Sexp

/-!
# Packets as S-expressions

The three kinds of SEAP packets, how they are written as S-expressions and how they are read
again (`seap-packet.c`). Each reader walks along the list: names that start with a colon take
the value behind them, and what is left is the payload.

The configuration is that of the build, with message ids of 32 bits.

## Main results

* `scanAttrs_flags`, `scanAttrs_nameless` — attributes without a value are read back, and one with a
  value loses its name;
* `packet_roundtrip_iff` — when a packet is the one that is read from its S-expression.
-/

namespace OpenScap

/-! ### The packets -/

/-- `SEAP_attr_t`; the name may be a null pointer. -/
structure SeapAttr where
  name : Option (List UInt8)
  value : Option Sexp

/-- `SEAP_msg_t`. -/
structure SeapMsg where
  id : UInt32
  attrs : List SeapAttr
  sexp : Option Sexp

/-- `SEAP_cmdclass_t`. -/
inductive SeapCmdclass
  | int | usr
deriving DecidableEq

/-- `SEAP_cmd_t`. -/
structure SeapCmd where
  id : UInt16
  rid : UInt16
  flags : UInt8
  cmdclass : SeapCmdclass
  code : UInt16
  args : Option Sexp

/-- `SEAP_err_t`. -/
structure SeapErr where
  id : UInt32
  code : UInt32
  type : UInt8
  data : Option Sexp

/-- `SEAP_packet_t`. -/
inductive SeapPacket
  | msg (m : SeapMsg)
  | cmd (c : SeapCmd)
  | err (e : SeapErr)

/-- `SEAP_CMDFLAG_SYNC`. -/
def cmdflagSync : UInt8 := 0x01

/-- `SEAP_CMDFLAG_REPLY`. -/
def cmdflagReply : UInt8 := 0x02

/-- `SEAP_EINVAL`. -/
def seapEinval : Int := 4

/-- `SEAP_EUNEXP`. -/
def seapEunexp : Int := 8

/-- `SEAP_EUNKNOWN`. -/
def seapEunknown : UInt32 := 255

/-- `SEAP_ETYPE_INT`. -/
def etypeInt : UInt8 := 0

/-- `SEAP_ETYPE_USER`. -/
def etypeUser : UInt8 := 1

/-! ### Names -/

/-- `:id` -/
def symId : List UInt8 := bytes [':', 'i', 'd']

/-- `:reply_id` -/
def symReplyId : List UInt8 := bytes [':', 'r', 'e', 'p', 'l', 'y', '_', 'i', 'd']

/-- `:class` -/
def symClass : List UInt8 := bytes [':', 'c', 'l', 'a', 's', 's']

/-- `:type` -/
def symType : List UInt8 := bytes [':', 't', 'y', 'p', 'e']

/-- `:orig_id` -/
def symOrigId : List UInt8 := bytes [':', 'o', 'r', 'i', 'g', '_', 'i', 'd']

/-- `SEAP_SYM_MSG`. -/
def symMsg : List UInt8 := bytes ['s', 'e', 'a', 'p', '.', 'm', 's', 'g']

/-- `SEAP_SYM_CMD`. -/
def symCmd : List UInt8 := bytes ['s', 'e', 'a', 'p', '.', 'c', 'm', 'd']

/-- `SEAP_SYM_ERR`. -/
def symErr : List UInt8 := bytes ['s', 'e', 'a', 'p', '.', 'e', 'r', 'r']

/-- `usr` -/
def symUsr : List UInt8 := bytes ['u', 's', 'r']

/-- `int` -/
def symInt : List UInt8 := bytes ['i', 'n', 't']

/-- `sync` -/
def symSync : List UInt8 := bytes ['s', 'y', 'n', 'c']

/-- `async` -/
def symAsync : List UInt8 := bytes ['a', 's', 'y', 'n', 'c']

/-! ### Messages -/

/-- What is added to a list for one attribute; a null pointer has no characters to add. -/
def attr2sexp : SeapAttr → Outcome (List Sexp)
  | ⟨some name, some value⟩ => .ok [.string (ascii ':' :: name), value]
  | ⟨some name, none⟩ => .ok [.string name]
  | ⟨none, _⟩ => .undefined

/-- The loop over the attributes. -/
def attrs2sexp : List SeapAttr → Outcome (List Sexp)
  | [] => .ok []
  | a :: attrs => (attr2sexp a).bind fun xs => (attrs2sexp attrs).bind fun ys => .ok (xs ++ ys)

/-- `SEAP_packet_msg2sexp`. -/
def packetMsg2sexp (msg : SeapMsg) : Outcome Sexp :=
  (attrs2sexp msg.attrs).bind fun attrs =>
    .ok (.list (.string symMsg :: .string symId :: .number (.uint32 msg.id) ::
      (attrs ++ [msg.sexp.getD (.list [])])))

/-- The array of the attributes has room for `cnt` of them, and one is written behind those
that are there. -/
def putAttr (cnt : ℕ) (attrs : List SeapAttr) (name : Outcome (Option (List UInt8)))
    (value : Option Sexp) : Outcome (List SeapAttr) :=
  name.bind fun name => if attrs.length < cnt then .ok (attrs ++ [⟨name, value⟩]) else .undefined

/-- The loop of `SEAP_packet_sexp2msg`, from the second member of the list on; it stops in front
of the last one. -/
def scanAttrs (cnt : ℕ) : Errno → UInt32 → List SeapAttr → List Sexp →
    Outcome (UInt32 × List SeapAttr)
  | errno, id, attrs, attrName :: next :: rest =>
      let (first, errno) := attrName.stringFirst errno
      if first = some (ascii ':') then
        if attrName.strEq symId then
          (next.getu32 errno).bind fun (id, errno) =>
            -- the value is valid, unless errno happens to say otherwise
            if id = 0xffffffff ∧ (errno = .edom ∨ errno = .efault) then .error seapEinval
            else scanAttrs cnt errno id attrs rest
        else
          (putAttr cnt attrs (attrName.subcstr 1 0) (some next)).bind fun attrs =>
            scanAttrs cnt errno id attrs rest
      else
        (putAttr cnt attrs (.ok attrName.cstr) none).bind fun attrs =>
          scanAttrs cnt errno id attrs (next :: rest)
  | _, id, attrs, _ => .ok (id, attrs)

/-- `SEAP_packet_sexp2msg`. The number of attributes that memory is allocated for is the length of
the list less 4 in 16 bits. -/
def packetSexp2msg (errno : Errno) : Sexp → Outcome SeapMsg
  | .list (x :: xs) =>
      (scanAttrs ((xs.length + 1 + (2 ^ 16 - 4)) % 2 ^ 16) errno 0 [] xs).bind fun r =>
        .ok ⟨r.1, r.2, (x :: xs).getLast?⟩
  -- an empty list has no block to take the last member from
  | .list [] => .undefined
  | _ => .error seapEunexp

/-! ### Commands -/

/-- `SEAP_packet_cmd2sexp`. -/
def packetCmd2sexp (cmd : SeapCmd) : Sexp :=
  .list ([.string symCmd, .string symId, .number (.uint16 cmd.id)] ++
    (if cmd.flags &&& cmdflagReply ≠ 0 then
      [.string symReplyId, .number (.uint16 cmd.rid)] else []) ++
    [.string symClass, .string (match cmd.cmdclass with | .usr => symUsr | .int => symInt),
      .string symType,
      .string (if cmd.flags &&& cmdflagSync ≠ 0 then symSync else symAsync),
      .number (.uint16 cmd.code)] ++
    cmd.args.toList)

/-- What an attribute of a command sets, and how many of the required ones it is. -/
def cmdAttr (cmd : SeapCmd) (mattrs : ℕ) (name : List UInt8) (val : Option Sexp) :
    SeapCmd × ℕ :=
  if name = symId then
    match val.bind Sexp.number? with
    | some n => ({ cmd with id := n.getu16 }, mattrs + 1)
    | none => (cmd, mattrs)
  else if name = symReplyId then
    match val.bind Sexp.number? with
    | some n => ({ cmd with rid := n.getu16, flags := cmd.flags ||| cmdflagReply }, mattrs)
    | none => (cmd, mattrs)
  else if name = symClass then
    if val.any (·.strEq symUsr) then ({ cmd with cmdclass := .usr }, mattrs) else (cmd, mattrs)
  else if name = symType then
    if val.any (·.strEq symSync) then
      ({ cmd with flags := cmd.flags ||| cmdflagSync }, mattrs)
    else (cmd, mattrs)
  else (cmd, mattrs)

/-- The loop of `SEAP_packet_sexp2cmd` over the strings that start with a colon, and what is
left. -/
def scanCmd : SeapCmd → ℕ → List Sexp → SeapCmd × ℕ × List Sexp
  | cmd, mattrs, .string (c :: s) :: rest =>
      if c = ascii ':' then
        let name := (c :: s).takeWhile (· ≠ 0)
        match rest with
        | [] => let (cmd, mattrs) := cmdAttr cmd mattrs name none; (cmd, mattrs, [])
        | val :: rest =>
            let (cmd, mattrs) := cmdAttr cmd mattrs name (some val)
            scanCmd cmd mattrs rest
      else (cmd, mattrs, .string (c :: s) :: rest)
  | cmd, mattrs, items => (cmd, mattrs, items)

/-- `SEAP_packet_sexp2cmd`. -/
def packetSexp2cmd : Sexp → Outcome SeapCmd
  | .list xs =>
      match scanCmd ⟨0, 0, 0, .int, 0, none⟩ 0 xs.tail with
      | (_, _, []) => .error (-1)
      | (cmd, mattrs, item :: rest) =>
          if mattrs < 1 then .error (-1)
          else
            match item.number? with
            | some n => .ok { cmd with code := n.getu16, args := rest.head? }
            | none => .error (-1)
  | _ => .error (-1)

/-! ### Errors -/

/-- `SEAP_packet_err2sexp`. -/
def packetErr2sexp (err : SeapErr) : Sexp :=
  .list ([.string symErr, .string symOrigId, .number (.uint32 err.id), .string symType,
    .number (.uint32 err.type.toUInt32), .number (.uint32 err.code)] ++ err.data.toList)

/-- The loop of `SEAP_packet_sexp2err`, and the data behind the code. -/
def scanErr (errno : Errno) : SeapErr → List Sexp → Outcome SeapErr
  | err, .string s :: rest =>
      if s.head? = some (ascii ':') then
        if (Sexp.string s).strEq symOrigId then
          match rest with
          | .number n :: rest => scanErr errno { err with id := (n.getu32 errno).1 } rest
          | _ => .error (-1)
        else if (Sexp.string s).strEq symType then
          match rest with
          | .number n :: rest =>
              let type := (n.getu32 errno).1.toUInt8
              if type = etypeInt ∨ type = etypeUser then
                scanErr errno { err with type := type } rest
              else .error (-1)
          | [] => .error (-1)
          -- the value is read before it is known to be a number
          | val :: _ => (val.getu32 errno).bind fun _ => .error (-1)
        else .error (-1)
      else .error (-1)
  | err, .number n :: rest => .ok { err with code := (n.getu32 errno).1, data := rest.head? }
  | _, _ :: _ => .error (-1)
  | err, [] => .ok err

/-- `SEAP_packet_sexp2err`. -/
def packetSexp2err (errno : Errno) : Sexp → Outcome SeapErr
  | .list xs => scanErr errno ⟨0, seapEunknown, etypeInt, none⟩ xs.tail
  | _ => .ok ⟨0, seapEunknown, etypeInt, none⟩

/-! ### Packets -/

/-- `SEAP_packet2sexp`. -/
def packet2sexp : SeapPacket → Outcome Sexp
  | .msg m => packetMsg2sexp m
  | .cmd c => .ok (packetCmd2sexp c)
  | .err e => .ok (packetErr2sexp e)

/-- The reader for the kind of a packet, applied to its S-expression. -/
def rereadPacket (errno : Errno) (p : SeapPacket) : Outcome SeapPacket :=
  (packet2sexp p).bind fun s =>
    match p with
    | .msg _ => (packetSexp2msg errno s).bind fun m => .ok (.msg m)
    | .cmd _ => (packetSexp2cmd s).bind fun c => .ok (.cmd c)
    | .err _ => (packetSexp2err errno s).bind fun e => .ok (.err e)

/-! ### Well-formed packets -/

/-- An attribute of a message with a name that is not empty and does not start with a colon. -/
structure MsgAttr where
  name : List UInt8
  value : Option Sexp
  name_ne : name ≠ []
  name_head : name.head? ≠ some (ascii ':')
  /-- It is a C string. -/
  name_cstr : ∀ c ∈ name, c ≠ 0

/-- The attribute of the source. -/
def MsgAttr.toAttr (a : MsgAttr) : SeapAttr := ⟨some a.name, a.value⟩

/-- A message; the number of its attributes has 16 bits. -/
structure Message where
  id : UInt32
  attrs : List MsgAttr
  sexp : Option Sexp
  attrs_lt : attrs.length < 2 ^ 16

/-- The message of the source. -/
def Message.toMsg (m : Message) : SeapMsg := ⟨m.id, m.attrs.map MsgAttr.toAttr, m.sexp⟩

/-- What it is to be read as: without data, as one with the empty list. -/
def Message.expected (m : Message) : SeapMsg :=
  ⟨m.id, m.attrs.map MsgAttr.toAttr, some (m.sexp.getD (.list []))⟩

/-! ### Reading attributes -/

/-- The list members of an attribute. -/
def MsgAttr.sexps (a : MsgAttr) : List Sexp :=
  match a.value with
  | some value => [.string (ascii ':' :: a.name), value]
  | none => [.string a.name]

/-- What is written for well-formed attributes. -/
theorem attrs2sexp_map (attrs : List MsgAttr) :
    attrs2sexp (attrs.map MsgAttr.toAttr) = .ok (attrs.flatMap MsgAttr.sexps) := by
  induction attrs with
  | nil => rfl
  | cons a attrs ih =>
      rw [List.map_cons, attrs2sexp, ih]
      obtain ⟨name, value, hne, hhead, hcstr⟩ := a
      cases value <;> rfl

/-- One attribute without a value is read. -/
theorem scanAttrs_flag {cnt : ℕ} {errno : Errno} {id : UInt32} {acc : List SeapAttr}
    (a : MsgAttr) (hvalue : a.value = none) (next : Sexp) (rest : List Sexp)
    (hcnt : acc.length < cnt) :
    scanAttrs cnt errno id acc (.string a.name :: next :: rest) =
      scanAttrs cnt errno id (acc ++ [a.toAttr]) (next :: rest) := by
  obtain ⟨name, value, hne, hhead, hcstr⟩ := a
  obtain ⟨c, cs, rfl⟩ := List.exists_cons_of_ne_nil hne
  obtain rfl : value = none := hvalue
  have hcolon : ¬ some c = some (ascii ':') := hhead
  have hall : (c :: cs).takeWhile (· ≠ 0) = c :: cs := by
    rw [List.takeWhile_eq_self_iff]
    intro x hx
    exact decide_eq_true (hcstr x hx)
  rw [scanAttrs]
  simp only [Sexp.stringFirst, if_neg hcolon, Sexp.cstr, hall, putAttr, Outcome.bind, if_pos hcnt]
  rfl

/-- **Attributes without a value are read back.** -/
theorem scanAttrs_flags {cnt : ℕ} {errno : Errno} {id : UInt32} {acc : List SeapAttr}
    (attrs : List MsgAttr) (hflags : ∀ a ∈ attrs, a.value = none) (payload : Sexp)
    (hcnt : acc.length + attrs.length ≤ cnt) :
    scanAttrs cnt errno id acc (attrs.flatMap MsgAttr.sexps ++ [payload]) =
      .ok (id, acc ++ attrs.map MsgAttr.toAttr) := by
  induction attrs generalizing acc with
  | nil =>
      rw [List.flatMap_nil, List.nil_append, List.map_nil, List.append_nil, scanAttrs]
      intro attrName next rest h
      exact absurd (List.cons.inj h).2 (List.cons_ne_nil next rest).symm
  | cons a attrs ih =>
      rw [List.forall_mem_cons] at hflags
      rw [List.length_cons] at hcnt
      have hsexps : a.sexps = [.string a.name] := by rw [MsgAttr.sexps, hflags.1]
      obtain ⟨next, rest, hnext⟩ := List.exists_cons_of_ne_nil
        (l := attrs.flatMap MsgAttr.sexps ++ [payload]) (by simp)
      rw [List.flatMap_cons, hsexps, List.append_assoc, List.singleton_append, hnext,
        scanAttrs_flag a hflags.1 next rest (by omega), ← hnext, ih hflags.2 (by simp; omega),
        List.append_assoc]
      rfl

/-- No attribute has both a name and a value. -/
def Nameless (attrs : List SeapAttr) : Prop :=
  ∀ a ∈ attrs, a.value.isSome = true → a.name = none

/-- An attribute without a value, or without a name, is added. -/
theorem Nameless.putAttr {cnt : ℕ} {attrs attrs' : List SeapAttr}
    {name : Outcome (Option (List UInt8))} {value : Option Sexp} (hacc : Nameless attrs)
    (hname : value.isSome = true → name = .ok none)
    (h : putAttr cnt attrs name value = .ok attrs') : Nameless attrs' := by
  obtain ⟨name', hname', h⟩ := Outcome.bind_eq_ok h
  split at h
  · obtain rfl := Outcome.ok.inj h
    intro a ha hvalue
    rcases List.mem_append.1 ha with ha | ha
    · exact hacc a ha hvalue
    · obtain rfl := List.mem_singleton.1 ha
      exact Outcome.ok.inj (hname'.symm.trans (hname hvalue))
  · exact nomatch h

/-- **An attribute that is read with a value has no name.** -/
theorem scanAttrs_nameless {cnt : ℕ} {errno : Errno} {id : UInt32} {acc : List SeapAttr}
    {xs : List Sexp} {r : UInt32 × List SeapAttr} (hacc : Nameless acc)
    (h : scanAttrs cnt errno id acc xs = .ok r) : Nameless r.2 := by
  fun_induction scanAttrs cnt errno id acc xs with
  | case1 _ _ _ _ _ _ _ _ _ ih =>
      obtain ⟨⟨id', errno'⟩, -, h⟩ := Outcome.bind_eq_ok h
      dsimp only at h
      split at h
      · exact nomatch h
      · exact ih id' errno' hacc h
  | case2 _ _ _ attrName next _ _ _ _ ih =>
      obtain ⟨attrs, hput, h⟩ := Outcome.bind_eq_ok h
      exact ih attrs (hacc.putAttr (fun _ => attrName.subcstr_zero 1) hput) h
  | case3 _ _ _ attrName _ _ _ _ _ _ ih =>
      obtain ⟨attrs, hput, h⟩ := Outcome.bind_eq_ok h
      refine ih attrs (hacc.putAttr ?_ hput) h
      intro hvalue
      exact nomatch hvalue
  | case4 =>
      obtain rfl := Outcome.ok.inj h
      exact hacc

/-! ### Reading messages -/

/-- The id of a message is read, unless it is the largest one and `errno` is set. -/
theorem scanAttrs_id {cnt : ℕ} (errno : Errno) (id id' : UInt32) (rest : List Sexp) :
    scanAttrs cnt errno id [] (.string symId :: .number (.uint32 id') :: rest) =
      if id' = 0xffffffff ∧ (errno = .edom ∨ errno = .efault) then .error seapEinval
      else scanAttrs cnt errno id' [] rest := by
  have hfirst : (Sexp.string symId).stringFirst errno = (some (ascii ':'), errno) := rfl
  have heq : (Sexp.string symId).strEq symId = true := by decide
  rw [scanAttrs]
  simp only [hfirst, heq, if_true, Sexp.getu32, SexpNumber.getu32, Outcome.bind_ok]

/-- A message is read from what is written for it. -/
theorem rereadPacket_msg (errno : Errno) (m : Message) :
    rereadPacket errno (.msg m.toMsg) =
      if m.id = 0xffffffff ∧ (errno = .edom ∨ errno = .efault) then .error seapEinval
      else (scanAttrs ((m.attrs.flatMap MsgAttr.sexps).length % 2 ^ 16) errno m.id []
        (m.attrs.flatMap MsgAttr.sexps ++ [m.sexp.getD (.list [])])).bind fun r =>
          .ok (.msg ⟨r.1, r.2, some (m.sexp.getD (.list []))⟩) := by
  have hcnt : (m.attrs.flatMap MsgAttr.sexps ++ [m.sexp.getD (.list [])]).length + 2 + 1 +
      (2 ^ 16 - 4) = (m.attrs.flatMap MsgAttr.sexps).length + 2 ^ 16 := by
    have hlength : (m.attrs.flatMap MsgAttr.sexps ++ [m.sexp.getD (.list [])]).length =
        (m.attrs.flatMap MsgAttr.sexps).length + 1 := List.length_append
    omega
  have hlast : (Sexp.string symMsg :: Sexp.string symId :: Sexp.number (.uint32 m.id) ::
      (m.attrs.flatMap MsgAttr.sexps ++ [m.sexp.getD (.list [])])).getLast? =
        some (m.sexp.getD (.list [])) := by
    simp [List.getLast?_cons, List.getLast?_append]
  simp only [rereadPacket, packet2sexp, packetMsg2sexp, Message.toMsg, attrs2sexp_map,
    Outcome.bind_ok, packetSexp2msg, List.length_cons, hcnt, Nat.add_mod_right, scanAttrs_id,
    hlast]
  by_cases hid : m.id = 0xffffffff ∧ (errno = .edom ∨ errno = .efault)
  · rw [if_pos hid, if_pos hid]
    rfl
  · rw [if_neg hid, if_neg hid]
    cases scanAttrs ((m.attrs.flatMap MsgAttr.sexps).length % 2 ^ 16) errno m.id []
      (m.attrs.flatMap MsgAttr.sexps ++ [m.sexp.getD (.list [])]) <;> rfl

/-- The messages that are read back: no attribute has a value, and the id is not taken for an
error. -/
def Message.RoundTrips (errno : Errno) (m : Message) : Prop :=
  (∀ a ∈ m.attrs, a.value = none) ∧ ¬ (m.id = 0xffffffff ∧ (errno = .edom ∨ errno = .efault))

/-- **When a message is read back.** -/
theorem rereadPacket_msg_iff (errno : Errno) (m : Message) :
    rereadPacket errno (.msg m.toMsg) = .ok (.msg m.expected) ↔ m.RoundTrips errno := by
  rw [rereadPacket_msg]
  constructor
  · intro h
    split at h
    · exact nomatch h
    · rename_i hid
      refine ⟨fun a ha => ?_, hid⟩
      obtain ⟨r, hscan, hr⟩ := Outcome.bind_eq_ok h
      have hattrs : r.2 = m.attrs.map MsgAttr.toAttr :=
        congrArg SeapMsg.attrs (SeapPacket.msg.inj (Outcome.ok.inj hr))
      have hnames : Nameless r.2 :=
        scanAttrs_nameless (fun a ha => absurd ha List.not_mem_nil) hscan
      rw [hattrs] at hnames
      -- the attribute has a name, so it was read without a value
      by_contra hvalue
      exact nomatch hnames a.toAttr (List.mem_map_of_mem ha) (Option.isSome_iff_ne_none.2 hvalue)
  · rintro ⟨hflags, hid⟩
    have hlength : (m.attrs.flatMap MsgAttr.sexps).length = m.attrs.length := by
      have hone : ∀ a ∈ m.attrs, a.sexps.length = 1 := by
        intro a ha
        rw [MsgAttr.sexps, hflags a ha, List.length_singleton]
      rw [List.length_flatMap, List.map_congr_left hone, List.map_const', List.sum_replicate_nat,
        Nat.mul_one]
    rw [if_neg hid, hlength, Nat.mod_eq_of_lt m.attrs_lt,
      scanAttrs_flags m.attrs hflags _ (by rw [List.length_nil, Nat.zero_add])]
    rfl

/-! ### Reading commands -/

/-- The commands that are read back: there are no other flags, and a reply id only in a
reply. -/
def SeapCmd.RoundTrips (c : SeapCmd) : Prop :=
  c.flags &&& (cmdflagSync ||| cmdflagReply) = c.flags ∧
    (c.flags &&& cmdflagReply = 0 → c.rid = 0)

@[simp] theorem scanCmd_id (cmd : SeapCmd) (mattrs : ℕ) (id : UInt16) (xs : List Sexp) :
    scanCmd cmd mattrs (.string symId :: .number (.uint16 id) :: xs) =
      scanCmd { cmd with id := id } (mattrs + 1) xs := rfl

@[simp] theorem scanCmd_replyId (cmd : SeapCmd) (mattrs : ℕ) (rid : UInt16) (xs : List Sexp) :
    scanCmd cmd mattrs (.string symReplyId :: .number (.uint16 rid) :: xs) =
      scanCmd { cmd with rid := rid, flags := cmd.flags ||| cmdflagReply } mattrs xs := rfl

@[simp] theorem scanCmd_usr (cmd : SeapCmd) (mattrs : ℕ) (xs : List Sexp) :
    scanCmd cmd mattrs (.string symClass :: .string symUsr :: xs) =
      scanCmd { cmd with cmdclass := .usr } mattrs xs := rfl

@[simp] theorem scanCmd_int (cmd : SeapCmd) (mattrs : ℕ) (xs : List Sexp) :
    scanCmd cmd mattrs (.string symClass :: .string symInt :: xs) = scanCmd cmd mattrs xs := rfl

@[simp] theorem scanCmd_sync (cmd : SeapCmd) (mattrs : ℕ) (xs : List Sexp) :
    scanCmd cmd mattrs (.string symType :: .string symSync :: xs) =
      scanCmd { cmd with flags := cmd.flags ||| cmdflagSync } mattrs xs := rfl

@[simp] theorem scanCmd_async (cmd : SeapCmd) (mattrs : ℕ) (xs : List Sexp) :
    scanCmd cmd mattrs (.string symType :: .string symAsync :: xs) = scanCmd cmd mattrs xs := rfl

@[simp] theorem scanCmd_code (cmd : SeapCmd) (mattrs : ℕ) (n : SexpNumber) (xs : List Sexp) :
    scanCmd cmd mattrs (.number n :: xs) = (cmd, mattrs, .number n :: xs) := rfl

/-- The flags that are read. -/
theorem flags_eq (b : UInt8) : b &&& (cmdflagSync ||| cmdflagReply) =
    (if b &&& cmdflagReply ≠ 0 then cmdflagReply else 0) |||
      if b &&& cmdflagSync ≠ 0 then cmdflagSync else 0 := by
  revert b
  exact forall_byte (by decide +kernel)

/-- **A command is read from what is written for it.** -/
theorem packetSexp2cmd_packetCmd2sexp (c : SeapCmd) :
    packetSexp2cmd (packetCmd2sexp c) =
      .ok { c with
        rid := if c.flags &&& cmdflagReply ≠ 0 then c.rid else 0
        flags := c.flags &&& (cmdflagSync ||| cmdflagReply) } := by
  obtain ⟨id, rid, flags, cmdclass, code, args⟩ := c
  rw [flags_eq]
  by_cases hreply : flags &&& cmdflagReply = 0 <;>
    by_cases hsync : flags &&& cmdflagSync = 0 <;>
    cases cmdclass <;>
    simp [packetCmd2sexp, packetSexp2cmd, hreply, hsync, Sexp.number?, SexpNumber.getu16]

/-- **When a command is read back.** -/
theorem packetSexp2cmd_iff (c : SeapCmd) :
    packetSexp2cmd (packetCmd2sexp c) = .ok c ↔ c.RoundTrips := by
  rw [packetSexp2cmd_packetCmd2sexp, Outcome.ok.injEq]
  constructor
  · intro h
    refine ⟨congrArg SeapCmd.flags h, fun hreply => ?_⟩
    have hrid := congrArg SeapCmd.rid h
    simp only [hreply, ne_eq, not_true_eq_false, if_false] at hrid
    exact hrid.symm
  · rintro ⟨hflags, hrid⟩
    obtain ⟨id, rid, flags, cmdclass, code, args⟩ := c
    dsimp only at hflags hrid
    rw [hflags]
    by_cases hreply : flags &&& cmdflagReply = 0
    · rw [if_neg (not_not.2 hreply), hrid hreply]
    · rw [if_pos hreply]

/-! ### Reading errors -/

/-- The errors that are read back: their type is one of the two. -/
def SeapErr.RoundTrips (e : SeapErr) : Prop := e.type = etypeInt ∨ e.type = etypeUser

/-- **An error is read from what is written for it.** -/
theorem packetSexp2err_packetErr2sexp (errno : Errno) (e : SeapErr) :
    packetSexp2err errno (packetErr2sexp e) =
      if e.type = etypeInt ∨ e.type = etypeUser then .ok e else .error (-1) := by
  obtain ⟨id, code, type, data⟩ := e
  have htype : type.toUInt32.toUInt8 = type := UInt8.toUInt8_toUInt32 type
  have horig : ∀ err xs, scanErr errno err (.string symOrigId :: .number (.uint32 id) :: xs) =
      scanErr errno { err with id := id } xs := fun err xs => rfl
  have hread : ∀ err xs, scanErr errno err
      (.string symType :: .number (.uint32 type.toUInt32) :: xs) =
      if type = etypeInt ∨ type = etypeUser then scanErr errno { err with type := type } xs
      else .error (-1) := by
    intro err xs
    have hstep : scanErr errno err (.string symType :: .number (.uint32 type.toUInt32) :: xs) =
        if type.toUInt32.toUInt8 = etypeInt ∨ type.toUInt32.toUInt8 = etypeUser then
          scanErr errno { err with type := type.toUInt32.toUInt8 } xs
        else .error (-1) := rfl
    rw [hstep, htype]
  simp only [packetSexp2err, packetErr2sexp, List.cons_append, List.tail_cons, horig, hread]
  split
  · cases data <;> rfl
  · rfl

/-! ### Reading packets -/

/-- A well-formed packet. -/
inductive Packet
  | msg (m : Message)
  | cmd (c : SeapCmd)
  | err (e : SeapErr)

/-- The packet of the source. -/
def Packet.toPacket : Packet → SeapPacket
  | .msg m => .msg m.toMsg
  | .cmd c => .cmd c
  | .err e => .err e

/-- What a packet is to be read as. -/
def Packet.expected : Packet → SeapPacket
  | .msg m => .msg m.expected
  | .cmd c => .cmd c
  | .err e => .err e

/-- The packets that are read back. -/
def Packet.RoundTrips (errno : Errno) : Packet → Prop
  | .msg m => m.RoundTrips errno
  | .cmd c => c.RoundTrips
  | .err e => e.RoundTrips

/-- The reader of a command that was written. -/
theorem rereadPacket_cmd (errno : Errno) (c : SeapCmd) :
    rereadPacket errno (.cmd c) =
      (packetSexp2cmd (packetCmd2sexp c)).bind fun c => .ok (.cmd c) := rfl

/-- The reader of an error that was written. -/
theorem rereadPacket_err (errno : Errno) (e : SeapErr) :
    rereadPacket errno (.err e) =
      (packetSexp2err errno (packetErr2sexp e)).bind fun e => .ok (.err e) := rfl

/-- **When a packet is the one that is read from its S-expression.** -/
theorem packet_roundtrip_iff (errno : Errno) (p : Packet) :
    rereadPacket errno p.toPacket = .ok p.expected ↔ p.RoundTrips errno := by
  cases p with
  | msg m => exact rereadPacket_msg_iff errno m
  | cmd c =>
      rw [Packet.RoundTrips, ← packetSexp2cmd_iff, Packet.toPacket, rereadPacket_cmd]
      constructor
      · intro h
        obtain ⟨c', hread, hc⟩ := Outcome.bind_eq_ok h
        rw [hread, SeapPacket.cmd.inj (Outcome.ok.inj hc)]
      · intro h
        rw [h]
        rfl
  | err e =>
      rw [Packet.RoundTrips, SeapErr.RoundTrips, Packet.toPacket, rereadPacket_err,
        packetSexp2err_packetErr2sexp]
      constructor
      · intro h
        by_contra htype
        rw [if_neg htype] at h
        exact nomatch h
      · intro h
        rw [if_pos h]
        rfl

/-- A message with an attribute that has a value. -/
def Message.replyTo : Message :=
  ⟨1, [⟨bytes ['r', 'e', 'p', 'l', 'y', '-', 'i', 'd'], some (.number (.uint32 7)), by decide,
    by decide, forall_mem_of_all (by decide)⟩], none, by decide⟩

/-- The attribute is read without its name. -/
theorem not_packet_roundtrip :
    ¬ ∀ (errno : Errno) (p : Packet), rereadPacket errno p.toPacket = .ok p.expected := by
  intro h
  have hreply := h .other (.msg Message.replyTo)
  have hread : rereadPacket .other (Packet.msg Message.replyTo).toPacket =
      .ok (.msg ⟨1, [⟨none, some (.number (.uint32 7))⟩], some (.list [])⟩) := rfl
  rw [hread, Outcome.ok.injEq] at hreply
  have hattrs := congrArg SeapMsg.attrs (SeapPacket.msg.inj hreply)
  exact nomatch congrArg SeapAttr.name (List.cons.inj hattrs).1

end OpenScap
