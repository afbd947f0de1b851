import Mathlib.Data.List.InsertIdx
import Mathlib.Data.List.Nodup
import Mathlib.Data.List.Perm.Basic
import OpenScap.KeyedRuns
import OpenScap.SeapCommand

/-!
# Synchronous commands between two peers

Two peers send each other commands over one connection. Any number of threads of a peer may wait
for the reply to a command at the same time; another thread receives for them. A command has an id
of 16 bits, drawn from a counter that the replies use up too and that starts over again, and the
table of what waits is asked with the id that a reply carries.

The steps of all threads come in any order, packets are received in any order, and any of them may
be lost.

## Main results

* `command_rounds` — whatever the order, each id is used in rounds: a command is sent, executed
  once, and its result is handed to the thread that sent it, before the id is used again;
* `receive_enabled` — every packet that has arrived can be received;
* `quiet` — when no packet was lost and none is left, no thread waits.
-/

namespace OpenScap.Seap

open KeyedRuns

/-! ### Peers -/

/-- The code and the arguments of a command. -/
structure CmdCall where
  code : UInt16
  args : Option Sexp

/-- How far a thread is in `SEAP_cmd_exec`: an id is drawn, the handler is registered, the packet
is sent, the handler was called with the result. -/
inductive Thread
  | idle
  | drawn (id : UInt16) (call : CmdCall)
  | entered (id : UInt16) (call : CmdCall)
  | waiting (id : UInt16) (call : CmdCall)
  | signaled (res : Option Sexp)

/-- The id of a command that is registered or sent. -/
def Thread.id? : Thread → Option UInt16
  | .entered id _ | .waiting id _ => some id
  | .idle | .drawn _ _ | .signaled _ => none

/-- A peer: of its descriptor `next_cid`, `cmd_w_table` and `cmd_c_table`, of its context
`cmd_c_table`, and the packets on their way to it. The handlers in `cmd_w_table` all are
`__SEAP_cmd_sync_handler`, each with its thread; one of them may have been called and is still to
be deleted. -/
structure Peer (W F σ : Type) where
  nextCid : UInt16
  wTable : SeapCmdtbl W
  called : Option (SeapCmdrec W)
  cTable : SeapCmdtbl F
  ctxTable : SeapCmdtbl F
  threads : W → Thread
  app : σ
  inbox : List Sexp

variable {W F σ : Type}

/-- `SEAP_desc_gencmdid`. -/
def Peer.gencmdid (p : Peer W F σ) : UInt16 × Peer W F σ :=
  (p.nextCid, { p with nextCid := p.nextCid + 1 })

/-- The state of the functions changes. -/
def Peer.setApp (p : Peer W F σ) (app : σ) : Peer W F σ := { p with app := app }

/-- The command of `SEAP_cmd_exec`. -/
def requestCmd (id : UInt16) (call : CmdCall) : SeapCmd :=
  ⟨id, 0, cmdflagSync, .usr, call.code, call.args⟩

/-- The command of `__SEAP_cmdexec_reply`. -/
def replyCmd (id : UInt16) (cmd : SeapCmd) (res : Option Sexp) : SeapCmd :=
  ⟨id, cmd.id, cmdflagReply, cmd.cmdclass, cmd.code, res⟩

/-- `SEAP_EXEC_LOCAL`. -/
def execLocal : UInt32 := 0x01

/-- `__SEAP_cmdexec_reply`: the result, and the packet that is sent. -/
def Peer.cmdexecReply (exec : F → Option Sexp → σ → Option Sexp × σ) (p : Peer W F σ)
    (cmd : SeapCmd) : Option (Peer W F σ × Option Sexp × Sexp) := do
  let r ← execLookup cmd.code (execTables execLocal p.cTable p.ctxTable)
  let (res, app) := match r with
    | none => (none, p.app)
    | some r => exec r.handler cmd.args p.app
  let (id, p) := (p.setApp app).gencmdid
  return (p, res, packetCmd2sexp (replyCmd id cmd res))

/-- The table of what waits changes. -/
def Peer.setTable (p : Peer W F σ) (table : SeapCmdtbl W) : Peer W F σ :=
  { p with wTable := table }

/-- The handler that is to be deleted. -/
def Peer.setCalled (p : Peer W F σ) (r : Option (SeapCmdrec W)) : Peer W F σ :=
  { p with called := r }

/-- A packet is taken out of the inbox. -/
def Peer.take (p : Peer W F σ) (i : ℕ) : Peer W F σ := { p with inbox := p.inbox.eraseIdx i }

/-- A packet is put into the inbox. -/
def Peer.push (p : Peer W F σ) (x : Sexp) : Peer W F σ := { p with inbox := p.inbox ++ [x] }

section Steps

variable [DecidableEq W]

/-- A thread goes on. -/
def Peer.setThread (p : Peer W F σ) (w : W) (t : Thread) : Peer W F σ :=
  { p with threads := Function.update p.threads w t }

/-- `SEAP_cmd_exec` with `SEAP_EXEC_WQUEUE` up to the call of the handler, and the thread whose
handler it is. The handler waits for the mutex until its thread waits for the condition. -/
def Peer.cmdexecWqueue (p : Peer W F σ) (cmd : SeapCmd) : Option (Peer W F σ × Option W) := do
  match ← seapCmdtblGet p.wTable cmd.rid with
  | none => return (p, none)
  | some r =>
      match p.threads r.handler with
      | .waiting _ _ =>
          return ((p.setThread r.handler (.signaled cmd.args)).setCalled (some r), some r.handler)
      | _ => none

/-- A packet is received, by `__SEAP_recvmsg_process_cmd`. -/
inductive Received (W F σ : Type)
  | reply (p : Peer W F σ) (w : Option W) (cmd : SeapCmd)
  | command (p : Peer W F σ) (cmd : SeapCmd) (res : Option Sexp) (packet : Sexp)
  | invalid (p : Peer W F σ)

/-- `SEAP_packet_sexp2cmd`, and `__SEAP_recvmsg_process_cmd`. -/
def Peer.recvmsg (exec : F → Option Sexp → σ → Option Sexp × σ) (p : Peer W F σ) (x : Sexp) :
    Option (Received W F σ) :=
  match packetSexp2cmd x with
  | .ok cmd =>
      if cmd.flags &&& cmdflagReply ≠ 0 then
        (p.cmdexecWqueue cmd).map fun q => .reply q.1 q.2 cmd
      else (p.cmdexecReply exec cmd).map fun q => .command q.1 cmd q.2.1 q.2.2
  | .error _ => some (.invalid p)
  | .undefined => none

/-! ### Steps -/

/-- What happens next: a thread of a peer draws an id, registers its handler, sends its command,
fails to send it, or returns; a packet in the inbox of a peer is received, the handler that was
called is deleted, or a packet is lost. -/
inductive CmdAction (W : Type)
  | draw (p : Bool) (w : W) (call : CmdCall)
  | enter (p : Bool) (w : W)
  | send (p : Bool) (w : W)
  | sendFails (p : Bool) (w : W)
  | wake (p : Bool) (w : W)
  | receive (p : Bool) (i : ℕ)
  | delete (p : Bool)
  | lose (p : Bool) (i : ℕ)

/-- A packet is lost. -/
def CmdAction.Loses : CmdAction W → Prop
  | .lose _ _ => True
  | _ => False

/-- What is seen of a command of a peer: it is sent, it is executed by the other peer, its handler
is called, its thread returns; or the thread returns without having sent it. -/
inductive CmdEvent (W : Type)
  | sent (p : Bool) (w : W) (id : UInt16) (call : CmdCall)
  | executed (p : Bool) (id : UInt16) (call : CmdCall) (res : Option Sexp)
  | handled (p : Bool) (w : W) (id : UInt16) (res : Option Sexp)
  | returned (p : Bool) (w : W) (res : Option Sexp)
  | refused (p : Bool) (w : W)

/-- The two peers. -/
abbrev Peers (W F σ : Type) := Bool → Peer W F σ

/-- One of the peers changes. -/
def Peers.set (s : Peers W F σ) (p : Bool) (q : Peer W F σ) : Peers W F σ := Function.update s p q

/-- A packet is on its way to a peer. -/
def Peers.deliver (s : Peers W F σ) (p : Bool) (x : Sexp) : Peers W F σ :=
  s.set p ((s p).push x)

/-- A step. -/
def cmdStep (exec : F → Option Sexp → σ → Option Sexp × σ) :
    System (Peers W F σ) (CmdAction W) (CmdEvent W)
  | s, .draw p w call =>
      match (s p).threads w with
      | .idle =>
          let (id, q) := (s p).gencmdid
          some (s.set p (q.setThread w (.drawn id call)), [])
      | _ => none
  | s, .enter p w =>
      match (s p).threads w with
      | .drawn id call => do
          let (table, ret) ← seapCmdtblAdd (s p).wTable ⟨id, w⟩
          if ret = 0 then
            return (s.set p (((s p).setThread w (.entered id call)).setTable table), [])
          else return (s.set p (((s p).setThread w .idle).setTable table), [.refused p w])
      | _ => none
  | s, .send p w =>
      match (s p).threads w with
      | .entered id call =>
          some ((s.set p ((s p).setThread w (.waiting id call))).deliver (!p)
            (packetCmd2sexp (requestCmd id call)), [.sent p w id call])
      | _ => none
  | s, .sendFails p w =>
      match (s p).threads w with
      | .entered id _ => do
          let (table, _) ← seapCmdtblDel (s p).wTable ⟨id, w⟩
          return (s.set p (((s p).setThread w .idle).setTable table), [.refused p w])
      | _ => none
  | s, .wake p w =>
      match (s p).threads w with
      | .signaled res => some (s.set p ((s p).setThread w .idle), [.returned p w res])
      | _ => none
  | s, .receive p i =>
      match (s p).called with
      | some _ => none
      | none => do
          let x ← (s p).inbox[i]?
          match ← ((s p).take i).recvmsg exec x with
          | .reply q none _ | .invalid q => return (s.set p q, [])
          | .reply q (some w) cmd => return (s.set p q, [.handled p w cmd.rid cmd.args])
          | .command q cmd res packet =>
              return ((s.set p q).deliver (!p) packet,
                [.executed (!p) cmd.id ⟨cmd.code, cmd.args⟩ res])
  | s, .delete p =>
      match (s p).called with
      | some r => do
          let (table, _) ← seapCmdtblDel (s p).wTable r
          return (s.set p (((s p).setTable table).setCalled none), [])
      | none => none
  | s, .lose p i =>
      if i < (s p).inbox.length then
        some (s.set p ((s p).take i), [])
      else none

end Steps

/-! ### Rounds -/

/-- What goes on with an id of a peer. -/
inductive Round (W : Type)
  | free
  | sent (w : W) (call : CmdCall)
  | answered (w : W) (call : CmdCall) (res : Option Sexp)

/-- A round: a command is sent with the id, it is executed, and its result goes to the thread that
sent it. -/
inductive NextRound : Round W → CmdEvent W → Round W → Prop
  | sent (p : Bool) (w : W) (id : UInt16) (call : CmdCall) :
      NextRound .free (.sent p w id call) (.sent w call)
  | executed (p : Bool) (w : W) (id : UInt16) (call : CmdCall) (res : Option Sexp) :
      NextRound (.sent w call) (.executed p id call res) (.answered w call res)
  | handled (p : Bool) (w : W) (id : UInt16) (call : CmdCall) (res : Option Sexp) :
      NextRound (.answered w call res) (.handled p w id res) .free

/-- The peer and the id that an event is about. -/
def CmdEvent.id? : CmdEvent W → Option (Bool × UInt16)
  | .sent p _ id _ | .executed p id _ _ | .handled p _ id _ => some (p, id)
  | .returned _ _ _ | .refused _ _ => none

/-- What goes on with a thread of a peer. -/
inductive Turn
  | free
  | waits (id : UInt16)
  | answered (res : Option Sexp)

/-- A turn: a thread sends a command with an id, its handler is called for the id, and it returns
the result that the handler got. -/
inductive NextTurn : Turn → CmdEvent W → Turn → Prop
  | refused (p : Bool) (w : W) : NextTurn .free (.refused p w) .free
  | sent (p : Bool) (w : W) (id : UInt16) (call : CmdCall) :
      NextTurn .free (.sent p w id call) (.waits id)
  | handled (p : Bool) (w : W) (id : UInt16) (res : Option Sexp) :
      NextTurn (.waits id) (.handled p w id res) (.answered res)
  | returned (p : Bool) (w : W) (res : Option Sexp) :
      NextTurn (.answered res) (.returned p w res) .free

/-- The peer and the thread that an event is about. -/
def CmdEvent.thread? : CmdEvent W → Option (Bool × W)
  | .sent p w _ _ | .handled p w _ _ | .returned p w _ | .refused p w => some (p, w)
  | .executed _ _ _ _ => none

/-! ### What waits -/

section Held

variable {m : UInt16 → Option (SeapCmdrec W)} {q : Peer W F σ}

/-- The table of a peer holds the handlers of the threads whose command is registered or sent, each
at its id, and the handler that is to be deleted. -/
structure Held (m : UInt16 → Option (SeapCmdrec W)) (q : Peer W F σ) : Prop where
  stands : TableStands m q.wTable
  thread : ∀ {id r}, m id = some r →
    r.code = id ∧ ((q.threads r.handler).id? = some id ∨ q.called = some r)
  entry : ∀ {w id}, (q.threads w).id? = some id → m id = some ⟨id, w⟩
  called : ∀ {r}, q.called = some r → m r.code = some r ∧ ∀ w, (q.threads w).id? ≠ some r.code

/-- The ids of the threads are the same. -/
theorem Held.congr {q' : Peer W F σ} (h : Held m q) (hids : ∀ w, (q'.threads w).id? =
    (q.threads w).id?) (hcalled : q'.called = q.called) (htable : q'.wTable = q.wTable) :
    Held m q' where
  stands := htable ▸ h.stands
  thread hr := by
    rw [hids, hcalled]
    exact h.thread hr
  entry hw := h.entry ((hids _).symm.trans hw)
  called hr := by
    rw [hcalled] at hr
    refine ⟨(h.called hr).1, fun w => ?_⟩
    rw [hids]
    exact (h.called hr).2 w

variable [DecidableEq W]

/-- The ids of the threads, when one of them goes on. -/
theorem id?_setThread (q : Peer W F σ) (w w' : W) (t : Thread) :
    ((q.setThread w t).threads w').id? = if w' = w then t.id? else (q.threads w').id? := by
  change (Function.update q.threads w t w').id? = _
  by_cases hw : w' = w
  · subst hw
    rw [if_pos rfl, Function.update_self]
  · rw [if_neg hw, Function.update_of_ne hw]

/-- A thread goes on, and its id stays the same. -/
theorem Held.setThread (h : Held m q) {w : W} {t : Thread} (ht : t.id? = (q.threads w).id?) :
    Held m (q.setThread w t) := by
  refine h.congr (fun w' => ?_) rfl rfl
  rw [id?_setThread]
  split
  · rename_i hw
    rw [hw, ht]
  · rfl

/-- A handler is registered. -/
theorem Held.enter (h : Held m q) {w : W} {id : UInt16} {t : Thread} {table : SeapCmdtbl W}
    (hid : m id = none) (ht : t.id? = some id)
    (htable : TableStands (Function.update m id (some ⟨id, w⟩)) table)
    (hthread : (q.threads w).id? = none) :
    Held (Function.update m id (some ⟨id, w⟩)) ((q.setThread w t).setTable table) where
  stands := htable
  thread := by
    intro id' r hr
    change r.code = id' ∧ (((q.setThread w t).threads r.handler).id? = some id' ∨ q.called = some r)
    rw [id?_setThread]
    by_cases hid' : id' = id
    · subst hid'
      rw [Function.update_self] at hr
      obtain rfl := Option.some.inj hr
      rw [if_pos rfl]
      exact ⟨rfl, .inl ht⟩
    · rw [Function.update_of_ne hid'] at hr
      obtain ⟨hcode, hthread' | hcalled⟩ := h.thread hr
      · refine ⟨hcode, .inl ?_⟩
        rw [if_neg, hthread']
        intro hw
        rw [hw, hthread] at hthread'
        cases hthread'
      · exact ⟨hcode, .inr hcalled⟩
  entry := by
    intro w' id' hw'
    change ((q.setThread w t).threads w').id? = some id' at hw'
    rw [id?_setThread] at hw'
    split at hw'
    · rename_i hww
      subst hww
      obtain rfl := Option.some.inj (ht.symm.trans hw')
      exact Function.update_self ..
    · rw [Function.update_of_ne, h.entry hw']
      rintro rfl
      cases hid.symm.trans (h.entry hw')
  called := by
    intro r hr
    obtain ⟨hentry, hothers⟩ := h.called hr
    have hcode : r.code ≠ id := by
      rintro rfl
      cases hid.symm.trans hentry
    refine ⟨by rw [Function.update_of_ne hcode, hentry], fun w' => ?_⟩
    change ((q.setThread w t).threads w').id? ≠ _
    rw [id?_setThread]
    split
    · rw [ht]
      exact fun h => hcode (Option.some.inj h).symm
    · exact hothers w'

/-- A handler is deleted that was not called. -/
theorem Held.cancel (h : Held m q) {w : W} {id : UInt16} {t : Thread} {table : SeapCmdtbl W}
    (hthread : (q.threads w).id? = some id) (ht : t.id? = none)
    (htable : TableStands (Function.update m id none) table) :
    Held (Function.update m id none) ((q.setThread w t).setTable table) where
  stands := htable
  thread := by
    intro id' r hr
    change r.code = id' ∧ (((q.setThread w t).threads r.handler).id? = some id' ∨ q.called = some r)
    rw [id?_setThread]
    by_cases hid' : id' = id
    · subst hid'
      rw [Function.update_self] at hr
      cases hr
    · rw [Function.update_of_ne hid'] at hr
      obtain ⟨hcode, hthread' | hcalled⟩ := h.thread hr
      · refine ⟨hcode, .inl ?_⟩
        rw [if_neg, hthread']
        intro hw
        rw [hw, hthread] at hthread'
        exact hid' (Option.some.inj hthread').symm
      · exact ⟨hcode, .inr hcalled⟩
  entry := by
    intro w' id' hw'
    change ((q.setThread w t).threads w').id? = some id' at hw'
    rw [id?_setThread] at hw'
    split at hw'
    · rw [ht] at hw'
      cases hw'
    · rename_i hww
      rw [Function.update_of_ne, h.entry hw']
      rintro rfl
      have hsame := Option.some.inj ((h.entry hw').symm.trans (h.entry hthread))
      exact hww (congrArg SeapCmdrec.handler hsame)
  called := by
    intro r hr
    obtain ⟨hentry, hothers⟩ := h.called hr
    have hcode : r.code ≠ id := by
      rintro rfl
      exact hothers w hthread
    refine ⟨by rw [Function.update_of_ne hcode, hentry], fun w' => ?_⟩
    change ((q.setThread w t).threads w').id? ≠ _
    rw [id?_setThread]
    split
    · rw [ht]
      exact Option.some_ne_none _ ∘ Eq.symm
    · exact hothers w'

/-- A handler is called. -/
theorem Held.call (h : Held m q) {w : W} {id : UInt16} {t : Thread}
    (hthread : (q.threads w).id? = some id) (ht : t.id? = none) (hcalled : q.called = none) :
    Held m ((q.setThread w t).setCalled (some ⟨id, w⟩)) where
  stands := h.stands
  thread := by
    intro id' r hr
    change r.code = id' ∧ (((q.setThread w t).threads r.handler).id? = some id' ∨ _)
    rw [id?_setThread]
    obtain ⟨hcode, hthread' | hcalled'⟩ := h.thread hr
    · refine ⟨hcode, ?_⟩
      by_cases hw : r.handler = w
      · rw [hw] at hthread'
        obtain rfl := Option.some.inj (hthread.symm.trans hthread')
        obtain rfl := Option.some.inj ((h.entry hthread).symm.trans hr)
        exact .inr rfl
      · rw [if_neg hw]
        exact .inl hthread'
    · cases hcalled.symm.trans hcalled'
  entry := by
    intro w' id' hw'
    change ((q.setThread w t).threads w').id? = some id' at hw'
    rw [id?_setThread] at hw'
    split at hw'
    · rw [ht] at hw'
      cases hw'
    · exact h.entry hw'
  called := by
    intro r hr
    obtain rfl := Option.some.inj hr
    refine ⟨h.entry hthread, fun w' => ?_⟩
    change ((q.setThread w t).threads w').id? ≠ some id
    rw [id?_setThread]
    split
    · rw [ht]
      exact Option.some_ne_none _ ∘ Eq.symm
    · rename_i hww
      intro hw'
      have hsame := Option.some.inj ((h.entry hw').symm.trans (h.entry hthread))
      exact hww (congrArg SeapCmdrec.handler hsame)

omit [DecidableEq W] in
/-- The handler that was called is deleted. -/
theorem Held.delete (h : Held m q) {r : SeapCmdrec W} {table : SeapCmdtbl W}
    (hcalled : q.called = some r) (htable : TableStands (Function.update m r.code none) table) :
    Held (Function.update m r.code none) ((q.setTable table).setCalled none) where
  stands := htable
  thread := by
    intro id' r' hr'
    by_cases hid' : id' = r.code
    · subst hid'
      rw [Function.update_self] at hr'
      cases hr'
    · rw [Function.update_of_ne hid'] at hr'
      obtain ⟨hcode, hthread | hcalled'⟩ := h.thread hr'
      · exact ⟨hcode, .inl hthread⟩
      · obtain rfl := Option.some.inj (hcalled.symm.trans hcalled')
        exact absurd hcode.symm hid'
  entry := by
    intro w' id' hw'
    rw [Function.update_of_ne, h.entry hw']
    rintro rfl
    exact (h.called hcalled).2 w' hw'
  called := by
    intro r' hr'
    cases hr'

end Held

/-! ### What is on its way -/

/-- A packet on its way. -/
inductive Wire
  | request (id : UInt16) (call : CmdCall)
  | reply (id rid : UInt16) (cmdclass : SeapCmdclass) (code : UInt16) (res : Option Sexp)

/-- The command of a packet. -/
def Wire.cmd : Wire → SeapCmd
  | .request id call => requestCmd id call
  | .reply id rid cmdclass code res => ⟨id, rid, cmdflagReply, cmdclass, code, res⟩

/-- **A packet is read as it was written.** -/
theorem Wire.packetSexp2cmd_cmd (x : Wire) : packetSexp2cmd (packetCmd2sexp x.cmd) = .ok x.cmd := by
  rw [packetSexp2cmd_iff]
  cases x with
  | request id call =>
      have hflags : cmdflagSync &&& (cmdflagSync ||| cmdflagReply) = cmdflagSync := by decide
      exact ⟨hflags, fun _ => rfl⟩
  | reply id rid cmdclass code res =>
      have hflags : cmdflagReply &&& (cmdflagSync ||| cmdflagReply) = cmdflagReply := by decide
      have hreply : cmdflagReply &&& cmdflagReply ≠ 0 := by decide
      exact ⟨hflags, fun h => absurd h hreply⟩

/-- A command is received. -/
theorem recvmsg_request [DecidableEq W] (exec : F → Option Sexp → σ → Option Sexp × σ)
    (q : Peer W F σ) (id : UInt16) (call : CmdCall) :
    q.recvmsg exec (packetCmd2sexp (requestCmd id call)) =
      (q.cmdexecReply exec (requestCmd id call)).map fun r =>
        .command r.1 (requestCmd id call) r.2.1 r.2.2 := by
  have hread : packetSexp2cmd (packetCmd2sexp (requestCmd id call)) = .ok (requestCmd id call) :=
    (Wire.request id call).packetSexp2cmd_cmd
  have hflags : ¬cmdflagSync &&& cmdflagReply ≠ 0 := by decide
  rw [Peer.recvmsg, hread]
  exact if_neg hflags

/-- A reply is received. -/
theorem recvmsg_reply [DecidableEq W] (exec : F → Option Sexp → σ → Option Sexp × σ)
    (q : Peer W F σ) (id rid : UInt16) (cmdclass : SeapCmdclass) (code : UInt16)
    (res : Option Sexp) :
    q.recvmsg exec (packetCmd2sexp (Wire.reply id rid cmdclass code res).cmd) =
      (q.cmdexecWqueue (Wire.reply id rid cmdclass code res).cmd).map fun r =>
        .reply r.1 r.2 (Wire.reply id rid cmdclass code res).cmd := by
  have hflags : cmdflagReply &&& cmdflagReply ≠ 0 := by decide
  rw [Peer.recvmsg, Wire.packetSexp2cmd_cmd]
  exact if_pos hflags

/-- The peer and the id that a packet in the inbox of a peer belongs to. -/
def Wire.key (p : Bool) : Wire → Bool × UInt16
  | .request id _ => (!p, id)
  | .reply _ rid _ _ _ => (p, rid)

/-- A packet on its way, and what goes on with its id. -/
def Wire.Fits (φ : Bool × UInt16 → Round W) (p : Bool) (x : Wire) : Prop :=
  match x with
  | .request _ call => ∃ w, φ (x.key p) = .sent w call
  | .reply _ _ _ _ res => ∃ w call, φ (x.key p) = .answered w call res

/-- What goes on with an id needs a packet on its way to a peer: the command, or the reply. -/
def Due (φ : Bool × UInt16 → Round W) (p : Bool) (k : Bool × UInt16) : Prop :=
  (k.1 = (!p) ∧ ∃ w call, φ k = .sent w call) ∨
    (k.1 = p ∧ ∃ w call res, φ k = .answered w call res)

/-- The packets on their way to a peer: no two of them belong to the same id, and where packets are
not lost all are there that are needed. -/
def InboxFits (kept : Prop) (φ : Bool × UInt16 → Round W) (p : Bool) (inbox : List Sexp) : Prop :=
  ∃ wires : List Wire, inbox = wires.map (fun x => packetCmd2sexp x.cmd) ∧
    (wires.map (Wire.key p)).Nodup ∧ (∀ x ∈ wires, x.Fits φ p) ∧
    (kept → ∀ k, Due φ p k → k ∈ wires.map (Wire.key p))

section Inbox

variable {kept : Prop} {φ : Bool × UInt16 → Round W} {p : Bool} {inbox : List Sexp}
  {k : Bool × UInt16}

/-- A packet does not see what goes on with other ids. -/
theorem Wire.Fits.update {x : Wire} (h : x.Fits φ p) (hk : x.key p ≠ k) (v : Round W) :
    x.Fits (Function.update φ k v) p := by
  cases x with
  | request id call =>
      obtain ⟨w, hw⟩ := h
      exact ⟨w, by rw [Function.update_of_ne hk, hw]⟩
  | reply id rid cmdclass code res =>
      obtain ⟨w, call, hw⟩ := h
      exact ⟨w, call, by rw [Function.update_of_ne hk, hw]⟩

/-- What goes on with another id does not need other packets. -/
theorem Due.of_update {k' : Bool × UInt16} {v : Round W} (h : Due (Function.update φ k v) p k')
    (hk : k' ≠ k) : Due φ p k' := by
  rw [Due, Function.update_of_ne hk] at h
  exact h

/-- The packets on their way do not see what goes on with an id that none of them belongs to. -/
theorem InboxFits.update (h : InboxFits kept φ p inbox)
    (hk : ∀ x : Wire, x.Fits φ p → x.key p ≠ k) {v : Round W}
    (hdue : ¬Due (Function.update φ k v) p k) : InboxFits kept (Function.update φ k v) p inbox := by
  obtain ⟨wires, hinbox, hnodup, hfits, hkept⟩ := h
  refine ⟨wires, hinbox, hnodup, fun x hx => (hfits x hx).update (hk x (hfits x hx)) v,
    fun hkeep k' hk' => hkept hkeep k' (hk'.of_update ?_)⟩
  rintro rfl
  exact hdue hk'

/-- A packet is sent. -/
theorem InboxFits.append (h : InboxFits kept φ p inbox)
    (hk : ∀ x : Wire, x.Fits φ p → x.key p ≠ k) {v : Round W} {x : Wire} (hkey : x.key p = k)
    (hx : x.Fits (Function.update φ k v) p) :
    InboxFits kept (Function.update φ k v) p (inbox ++ [packetCmd2sexp x.cmd]) := by
  obtain ⟨wires, rfl, hnodup, hfits, hkept⟩ := h
  refine ⟨wires ++ [x], by rw [List.map_append]; rfl, ?_, ?_, ?_⟩
  · rw [List.map_append, List.nodup_append]
    refine ⟨hnodup, List.nodup_singleton _, ?_⟩
    rintro a ha b hb rfl
    obtain ⟨y, hy, rfl⟩ := List.mem_map.mp ha
    exact hk y (hfits y hy) ((List.mem_singleton.mp hb).trans hkey)
  · intro y hy
    rcases List.mem_append.mp hy with hy | hy
    · exact (hfits y hy).update (hk y (hfits y hy)) v
    · obtain rfl := List.mem_singleton.mp hy
      exact hx
  · intro hkeep k' hk'
    rw [List.map_append]
    by_cases hkk : k' = k
    · subst hkk
      exact List.mem_append_right _ (List.mem_singleton.mpr hkey.symm)
    · exact List.mem_append_left _ (hkept hkeep k' (hk'.of_update hkk))

/-- A packet is taken out, and what goes on with its id does not need it any more. -/
theorem InboxFits.erase (h : InboxFits kept φ p inbox) {i : ℕ} {x : Sexp}
    (hx : inbox[i]? = some x) : ∃ y : Wire, x = packetCmd2sexp y.cmd ∧ y.Fits φ p ∧
      ∀ v, (kept → ¬Due (Function.update φ (y.key p) v) p (y.key p)) →
        InboxFits kept (Function.update φ (y.key p) v) p (inbox.eraseIdx i) := by
  obtain ⟨wires, rfl, hnodup, hfits, hkept⟩ := h
  rw [List.getElem?_map, Option.map_eq_some_iff] at hx
  obtain ⟨y, hy, rfl⟩ := hx
  have hperm : (y :: wires.eraseIdx i).Perm wires := by
    obtain ⟨hi, hyi⟩ := List.getElem?_eq_some_iff.mp hy
    rw [← hyi]
    exact List.getElem_cons_eraseIdx_perm hi
  have hkeys := hperm.map (Wire.key p)
  have hnodup' := hkeys.nodup_iff.mpr hnodup
  rw [List.map_cons, List.nodup_cons] at hnodup'
  refine ⟨y, rfl, hfits y (hperm.mem_iff.mp (List.mem_cons_self ..)), fun v hdue =>
    ⟨wires.eraseIdx i, by rw [List.eraseIdx_map], hnodup'.2, fun z hz => ?_, fun hkeep k' hk' => ?_⟩⟩
  · refine (hfits z (hperm.mem_iff.mp (List.mem_cons_of_mem _ hz))).update ?_ v
    intro hkey
    exact hnodup'.1 (hkey ▸ List.mem_map_of_mem hz)
  · have hne : k' ≠ y.key p := by
      rintro rfl
      exact hdue hkeep hk'
    have hmem := hkeys.mem_iff.mpr (hkept hkeep k' (hk'.of_update hne))
    rw [List.map_cons, List.mem_cons] at hmem
    exact hmem.resolve_left hne

end Inbox

/-! ### What holds of a peer -/

/-- A round that belongs to the command of a thread. -/
def Round.IsOf (w : W) (call : CmdCall) : Round W → Prop
  | .free => False
  | .sent w' call' | .answered w' call' _ => w' = w ∧ call' = call

/-- What holds of a peer, given what goes on with all ids. -/
structure PeerFits (kept : Prop) (φ : Bool × UInt16 → Round W) (p : Bool) (q : Peer W F σ) :
    Prop where
  held : ∃ m, Held m q
  cTable : ∃ m, TableStands m q.cTable
  ctxTable : ∃ m, TableStands m q.ctxTable
  waiting : ∀ {w id call}, q.threads w = .waiting id call ↔ (φ (p, id)).IsOf w call
  inbox : InboxFits kept φ p q.inbox

/-- What holds of the peers. -/
def Fits (kept : Prop) (s : Peers W F σ) (φ : Bool × UInt16 → Round W) : Prop :=
  ∀ p, PeerFits kept φ p (s p)

section Fits

variable {kept : Prop} {φ : Bool × UInt16 → Round W} {p : Bool} {q : Peer W F σ}
  {s : Peers W F σ}

/-- One of the peers changes, and nothing goes on with an id. -/
theorem Fits.set (h : Fits kept s φ) (hq : PeerFits kept φ p q) : Fits kept (s.set p q) φ := by
  intro p'
  by_cases hp : p' = p
  · subst hp
    rw [Peers.set, Function.update_self]
    exact hq
  · rw [Peers.set, Function.update_of_ne hp]
    exact h p'

/-- What goes on with an id of the other peer changes. -/
theorem PeerFits.update_other (h : PeerFits kept φ p q) {id : UInt16}
    (hk : ∀ x : Wire, x.Fits φ p → x.key p ≠ (!p, id)) {v : Round W}
    (hdue : ¬Due (Function.update φ (!p, id) v) p (!p, id)) :
    PeerFits kept (Function.update φ (!p, id) v) p q where
  held := h.held
  cTable := h.cTable
  ctxTable := h.ctxTable
  waiting := by
    intro w id' call
    rw [Function.update_of_ne (by simp)]
    exact h.waiting
  inbox := h.inbox.update hk hdue

/-- A packet is taken out. -/
theorem PeerFits.take (h : PeerFits kept φ p q) {i : ℕ} (hi : InboxFits kept φ p (q.inbox.eraseIdx i)) :
    PeerFits kept φ p (q.take i) := by
  obtain ⟨m, hheld⟩ := h.held
  exact ⟨⟨m, hheld.congr (fun _ => rfl) rfl rfl⟩, h.cTable, h.ctxTable, h.waiting, hi⟩

/-- One of the peers changes, and a packet is on its way to the other. -/
theorem Fits.of_deliver {q : Peer W F σ} {x : Sexp} {φ : Bool × UInt16 → Round W}
    (hself : PeerFits kept φ p q) (hother : PeerFits kept φ (!p) ((s (!p)).push x)) :
    Fits kept ((s.set p q).deliver (!p) x) φ := by
  have hset : (s.set p q) (!p) = s (!p) := Function.update_of_ne (Bool.not_ne_self p) ..
  rw [Peers.deliver, hset]
  intro p'
  by_cases hp : p' = p
  · subst hp
    rw [Peers.set, Function.update_of_ne (Bool.not_ne_self p').symm, Peers.set,
      Function.update_self]
    exact hself
  · obtain rfl : p' = !p := Bool.eq_not.mpr hp
    rw [Peers.set, Function.update_self]
    exact hother

/-- A packet is on its way. -/
theorem PeerFits.push {φ' : Bool × UInt16 → Round W} (h : PeerFits kept φ p q) {x : Sexp}
    (hwaiting : ∀ {w id call}, (φ (p, id)).IsOf w call ↔ (φ' (p, id)).IsOf w call)
    (hx : InboxFits kept φ' p (q.inbox ++ [x])) : PeerFits kept φ' p (q.push x) := by
  obtain ⟨m, hheld⟩ := h.held
  exact ⟨⟨m, hheld.congr (fun _ => rfl) rfl rfl⟩, h.cTable, h.ctxTable,
    h.waiting.trans hwaiting, hx⟩

/-- The id of a thread that is registered is free. -/
theorem PeerFits.free (h : PeerFits kept φ p q) {w : W} {id : UInt16} {call : CmdCall}
    (hw : q.threads w = .entered id call) : φ (p, id) = .free := by
  obtain ⟨m, hheld⟩ := h.held
  have hnot : ∀ w' call', ¬(φ (p, id)).IsOf w' call' := by
    intro w' call' hof
    have hwaiting := h.waiting.mpr hof
    have hentry : m id = some ⟨id, w⟩ := hheld.entry (by rw [hw]; rfl)
    have hentry' : m id = some ⟨id, w'⟩ := hheld.entry (by rw [hwaiting]; rfl)
    obtain rfl : w = w' :=
      congrArg SeapCmdrec.handler (Option.some.inj (hentry.symm.trans hentry'))
    cases hw.symm.trans hwaiting
  cases hround : φ (p, id) with
  | free => rfl
  | sent w' call' => exact absurd (by rw [hround]; exact ⟨rfl, rfl⟩) (hnot w' call')
  | answered w' call' res => exact absurd (by rw [hround]; exact ⟨rfl, rfl⟩) (hnot w' call')

/-- No packet on its way belongs to an id that is free. -/
theorem Wire.Fits.ne_of_free {x : Wire} {p' : Bool} {k : Bool × UInt16} (h : x.Fits φ p')
    (hk : φ k = .free) : x.key p' ≠ k := by
  rintro rfl
  cases x with
  | request id call =>
      obtain ⟨w, hw⟩ := h
      cases hk.symm.trans hw
  | reply id rid cmdclass code res =>
      obtain ⟨w, call, hw⟩ := h
      cases hk.symm.trans hw

/-- No packet on its way to a peer belongs to a command of this peer that is not executed. -/
theorem Wire.Fits.ne_of_sent {x : Wire} (h : x.Fits φ p) {w : W} {id : UInt16} {call : CmdCall}
    (hk : φ (p, id) = .sent w call) : x.key p ≠ (p, id) := by
  intro hkey
  cases x with
  | request id' call' => exact Bool.not_ne_self p (Prod.mk.inj hkey).1
  | reply id' rid cmdclass code res =>
      obtain ⟨w', call', hw'⟩ := h
      rw [hkey, hk] at hw'
      cases hw'

/-- No packet on its way to the other peer belongs to a command that was executed. -/
theorem Wire.Fits.ne_of_answered {x : Wire} {p' : Bool} (h : x.Fits φ p') (hp : p' ≠ p) {w : W}
    {id : UInt16} {call : CmdCall} {res : Option Sexp} (hk : φ (p, id) = .answered w call res) :
    x.key p' ≠ (p, id) := by
  intro hkey
  cases x with
  | request id' call' =>
      obtain ⟨w', hw'⟩ := h
      rw [hkey, hk] at hw'
      cases hw'
  | reply id' rid cmdclass code res => exact hp (Prod.mk.inj hkey).1

variable [DecidableEq W]

/-- A thread goes on that does not wait, and will not. -/
theorem PeerFits.setThread (h : PeerFits kept φ p q) {q' : Peer W F σ} {w : W} {t : Thread}
    (hheld : ∃ m, Held m q') (ht : ∀ id call, t ≠ .waiting id call)
    (hw : ∀ id call, q.threads w ≠ .waiting id call)
    (hthreads : q'.threads = Function.update q.threads w t) (hinbox : q'.inbox = q.inbox)
    (hcTable : q'.cTable = q.cTable) (hctxTable : q'.ctxTable = q.ctxTable) : PeerFits kept φ p q' where
  held := hheld
  cTable := hcTable ▸ h.cTable
  ctxTable := hctxTable ▸ h.ctxTable
  inbox := hinbox ▸ h.inbox
  waiting := by
    intro w' id call
    rw [hthreads]
    by_cases hww : w' = w
    · subst hww
      rw [Function.update_self]
      exact ⟨fun h => absurd h (ht id call), fun h' => absurd (h.waiting.mpr h') (hw id call)⟩
    · rw [Function.update_of_ne hww]
      exact h.waiting

/-- **A command is sent.** -/
theorem Fits.send (h : Fits kept s φ) {w : W} {id : UInt16} {call : CmdCall}
    (hw : (s p).threads w = .entered id call) :
    Fits kept ((s.set p ((s p).setThread w (.waiting id call))).deliver (!p)
      (packetCmd2sexp (requestCmd id call))) (Function.update φ (p, id) (.sent w call)) := by
  have hfree := (h p).free hw
  have hne : ∀ p' (x : Wire), x.Fits φ p' → x.key p' ≠ (p, id) :=
    fun p' x hx => hx.ne_of_free hfree
  obtain ⟨m, hheld⟩ := (h p).held
  refine .of_deliver ⟨⟨m, hheld.setThread (by rw [hw]; rfl)⟩, (h p).cTable, (h p).ctxTable, ?_,
    (h p).inbox.update (hne p) ?_⟩ ((h (!p)).push ?_ ?_)
  · intro w' id' call'
    change Function.update (s p).threads w (.waiting id call) w' = _ ↔ _
    by_cases hww : w' = w
    · subst hww
      rw [Function.update_self]
      by_cases hid : id' = id
      · subst hid
        rw [Function.update_self]
        exact ⟨fun h => ⟨rfl, (Thread.waiting.inj h).2⟩, fun h => by rw [h.2]⟩
      · rw [Function.update_of_ne (fun h => hid (Prod.mk.inj h).2)]
        refine ⟨fun h => absurd (Thread.waiting.inj h).1.symm hid, fun hof => ?_⟩
        have hwaiting := (h p).waiting.mpr hof
        cases hw.symm.trans hwaiting
    · rw [Function.update_of_ne hww]
      by_cases hid : id' = id
      · subst hid
        rw [Function.update_self]
        refine ⟨fun hwaiting => ?_, fun h => absurd h.1.symm hww⟩
        have hof := (h p).waiting.mp hwaiting
        rw [hfree] at hof
        exact hof.elim
      · rw [Function.update_of_ne (fun h => hid (Prod.mk.inj h).2)]
        exact (h p).waiting
  · rw [Due, Function.update_self]
    rintro (⟨hp, -⟩ | ⟨-, w', call', res, hround⟩)
    · exact Bool.not_ne_self p hp.symm
    · cases hround
  · intro w' id' call'
    rw [Function.update_of_ne (fun h => Bool.not_ne_self p (Prod.mk.inj h).1)]
  · exact (h (!p)).inbox.append (hne (!p)) (x := .request id call) (by rw [Wire.key, Bool.not_not])
      ⟨w, by rw [Wire.key, Bool.not_not, Function.update_self]⟩

/-! ### Turns of the threads -/

/-- What goes on with a thread. -/
def Thread.turn : Thread → Turn
  | .idle | .drawn _ _ | .entered _ _ => .free
  | .waiting id _ => .waits id
  | .signaled res => .answered res

/-- What goes on with the threads of the peers. -/
def turns (s : Peers W F σ) (k : Bool × W) : Turn := ((s k.1).threads k.2).turn

/-- One thread goes on. -/
theorem turns_set {q : Peer W F σ} {w : W} {t : Thread}
    (hq : q.threads = Function.update (s p).threads w t) :
    turns (s.set p q) = Function.update (turns s) (p, w) t.turn := by
  funext k
  obtain ⟨p', w'⟩ := k
  by_cases hp : p' = p
  · subst hp
    by_cases hw : w' = w
    · subst hw
      rw [Function.update_self, turns, Peers.set, Function.update_self, hq, Function.update_self]
    · rw [Function.update_of_ne fun h => hw (Prod.mk.inj h).2, turns, Peers.set,
        Function.update_self, hq, Function.update_of_ne hw]
      rfl
  · rw [Function.update_of_ne fun h => hp (Prod.mk.inj h).1, turns, Peers.set,
      Function.update_of_ne hp]
    rfl

omit [DecidableEq W] in
/-- No thread goes on. -/
theorem turns_set_of_eq {q : Peer W F σ} (hq : q.threads = (s p).threads) :
    turns (s.set p q) = turns s := by
  funext k
  obtain ⟨p', w'⟩ := k
  by_cases hp : p' = p
  · subst hp
    rw [turns, Peers.set, Function.update_self, hq]
    rfl
  · rw [turns, Peers.set, Function.update_of_ne hp]
    rfl

/-- A thread goes on that is not seen. -/
theorem turns_set_self {q : Peer W F σ} {w : W} {t : Thread}
    (hq : q.threads = Function.update (s p).threads w t) (ht : t.turn = ((s p).threads w).turn) :
    turns (s.set p q) = turns s := by
  rw [turns_set hq, ht]
  exact Function.update_eq_self (p, w) (turns s)

omit [DecidableEq W] in
/-- A command is executed, and there is a reply. -/
theorem PeerFits.cmdexecReply (h : PeerFits kept φ p q)
    (exec : F → Option Sexp → σ → Option Sexp × σ) (cmd : SeapCmd) :
    ∃ app res, q.cmdexecReply exec cmd =
      some ((q.setApp app).gencmdid.2, res, packetCmd2sexp (replyCmd q.nextCid cmd res)) := by
  obtain ⟨mc, hc⟩ := h.cTable
  obtain ⟨mx, hx⟩ := h.ctxTable
  have hlookup := execLookup_spec (.cons hc (.cons hx .nil)) cmd.code
  have htables : execTables execLocal q.cTable q.ctxTable = [q.cTable, q.ctxTable] := rfl
  simp only [Peer.cmdexecReply, htables, hlookup, Option.bind_eq_bind, Option.bind_some]
  exact ⟨_, _, rfl⟩

omit [DecidableEq W] in
/-- Only the state of the functions and the counter of a peer change. -/
theorem PeerFits.answer (h : PeerFits kept φ p q) (app : σ) : PeerFits kept φ p (q.setApp app).gencmdid.2 := by
  obtain ⟨m, hheld⟩ := h.held
  exact ⟨⟨m, hheld.congr (fun _ => rfl) rfl rfl⟩, h.cTable, h.ctxTable, h.waiting, h.inbox⟩

/-- **A command is received**, executed, and its reply is sent. -/
theorem Fits.receive_request (h : Fits kept s φ) (exec : F → Option Sexp → σ → Option Sexp × σ)
    (hcalled : (s p).called = none) {i : ℕ} {id : UInt16} {call : CmdCall}
    (hi : (s p).inbox[i]? = some (packetCmd2sexp (requestCmd id call))) {w : W}
    (hround : φ (!p, id) = .sent w call)
    (hrest : ∀ v, (kept → ¬Due (Function.update φ (!p, id) v) p (!p, id)) →
      InboxFits kept (Function.update φ (!p, id) v) p ((s p).inbox.eraseIdx i)) :
    ∃ s' res, cmdStep exec s (.receive p i) = some (s', [.executed (!p) id call res]) ∧
      Fits kept s' (Function.update φ (!p, id) (.answered w call res)) ∧ turns s' = turns s := by
  have hself : ∀ res, PeerFits kept (Function.update φ (!p, id) (.answered w call res)) p
      ((s p).take i) := by
    intro res
    obtain ⟨m, hheld⟩ := (h p).held
    refine ⟨⟨m, hheld.congr (fun _ => rfl) rfl rfl⟩, (h p).cTable, (h p).ctxTable, ?_,
      hrest _ fun _ => ?_⟩
    · intro w' id' call'
      rw [Function.update_of_ne (fun h => Bool.not_ne_self p (Prod.mk.inj h).1.symm)]
      exact (h p).waiting
    · rw [Due, Function.update_self]
      rintro (⟨-, w', call', hround'⟩ | ⟨hp, -⟩)
      · cases hround'
      · exact Bool.not_ne_self p hp
  obtain ⟨app, res, hexec⟩ := (hself none).cmdexecReply exec (requestCmd id call)
  have hne : ∀ x : Wire, x.Fits φ (!p) → x.key (!p) ≠ (!p, id) := fun x hx => hx.ne_of_sent hround
  refine ⟨(s.set p (((s p).take i).setApp app).gencmdid.2).deliver (!p) (packetCmd2sexp
    (replyCmd ((s p).take i).nextCid (requestCmd id call) res)), res, ?_, ?_, ?_⟩
  · simp only [cmdStep, hcalled, hi, Option.bind_eq_bind, Option.bind_some, recvmsg_request, hexec,
      Option.map_some]
    rfl
  · refine .of_deliver ((hself res).answer app) ((h (!p)).push ?_ ?_)
    · intro w' id' call'
      by_cases hid : id' = id
      · subst hid
        rw [Function.update_self, hround]
        rfl
      · rw [Function.update_of_ne fun h => hid (Prod.mk.inj h).2]
    · exact (h (!p)).inbox.append hne
        (x := .reply ((s p).take i).nextCid id .usr call.code res) rfl
        ⟨w, call, by rw [Wire.key, Function.update_self]⟩
  · refine (turns_set_of_eq ?_).trans (turns_set_of_eq ?_)
    · rfl
    · rfl

/-- **A reply is received**, and the handler of the thread that waits for it is called. -/
theorem Fits.receive_reply (h : Fits kept s φ) (exec : F → Option Sexp → σ → Option Sexp × σ)
    (hcalled : (s p).called = none) {i : ℕ} {id rid : UInt16} {cmdclass : SeapCmdclass}
    {code : UInt16} {res : Option Sexp}
    (hi : (s p).inbox[i]? = some (packetCmd2sexp (Wire.reply id rid cmdclass code res).cmd)) {w : W}
    {call : CmdCall} (hround : φ (p, rid) = .answered w call res)
    (hrest : ∀ v, (kept → ¬Due (Function.update φ (p, rid) v) p (p, rid)) →
      InboxFits kept (Function.update φ (p, rid) v) p ((s p).inbox.eraseIdx i)) :
    ∃ s', cmdStep exec s (.receive p i) = some (s', [.handled p w rid res]) ∧
      Fits kept s' (Function.update φ (p, rid) .free) ∧ turns s (p, w) = .waits rid ∧
      turns s' = Function.update (turns s) (p, w) (.answered res) := by
  have hwaiting : (s p).threads w = .waiting rid call := by
    rw [(h p).waiting, hround]
    exact ⟨rfl, rfl⟩
  have hdue : ∀ p', ¬Due (Function.update φ (p, rid) .free) p' (p, rid) := by
    intro p'
    rw [Due, Function.update_self]
    rintro (⟨-, w', call', hround'⟩ | ⟨-, w', call', res', hround'⟩) <;> cases hround'
  have hthread : ((s p).threads w).id? = some rid := by rw [hwaiting]; rfl
  obtain ⟨m, hheld⟩ := (h p).held
  have hentry := hheld.entry hthread
  have hget : seapCmdtblGet ((s p).take i).wTable rid = some (some ⟨rid, w⟩) := by
    rw [← hentry]
    exact seapCmdtblGet_spec hheld.stands rid
  have hcall : ((s p).take i).cmdexecWqueue (Wire.reply id rid cmdclass code res).cmd =
      some ((((s p).take i).setThread w (.signaled res)).setCalled (some ⟨rid, w⟩), some w) := by
    have hwaiting' : ((s p).take i).threads w = .waiting rid call := hwaiting
    rw [Peer.cmdexecWqueue]
    change (seapCmdtblGet ((s p).take i).wTable rid >>= _) = _
    rw [hget]
    simp only [Option.bind_eq_bind, Option.bind_some, hwaiting']
    rfl
  have hturns : turns (s.set p ((((s p).take i).setThread w (.signaled res)).setCalled
      (some ⟨rid, w⟩))) = Function.update (turns s) (p, w) (.answered res) :=
    turns_set (t := .signaled res) rfl
  refine ⟨s.set p ((((s p).take i).setThread w (.signaled res)).setCalled (some ⟨rid, w⟩)), ?_, ?_,
    by rw [turns, hwaiting]; rfl, hturns⟩
  · simp only [cmdStep, hcalled, hi, Option.bind_eq_bind, Option.bind_some, recvmsg_reply, hcall,
      Option.map_some]
    rfl
  · intro p'
    by_cases hp : p' = p
    · subst hp
      rw [Peers.set, Function.update_self]
      have htaken : Held m ((s p').take i) := hheld.congr (fun _ => rfl) rfl rfl
      refine ⟨⟨m, htaken.call hthread rfl hcalled⟩, (h p').cTable, (h p').ctxTable, ?_,
        hrest _ fun _ => hdue p'⟩
      intro w' id' call'
      change Function.update (s p').threads w (.signaled res) w' = _ ↔ _
      by_cases hww : w' = w
      · subst hww
        rw [Function.update_self]
        refine ⟨fun h => Thread.noConfusion h, fun hof => ?_⟩
        by_cases hid : id' = rid
        · subst hid
          rw [Function.update_self] at hof
          exact hof.elim
        · rw [Function.update_of_ne fun h => hid (Prod.mk.inj h).2] at hof
          have hwaiting' := (h p').waiting.mpr hof
          exact absurd (Thread.waiting.inj (hwaiting'.symm.trans hwaiting)).1 hid
      · rw [Function.update_of_ne hww]
        by_cases hid : id' = rid
        · subst hid
          rw [Function.update_self]
          refine ⟨fun hwaiting' => ?_, fun hof => hof.elim⟩
          have hof := (h p').waiting.mp hwaiting'
          rw [hround] at hof
          exact hww hof.1.symm
        · rw [Function.update_of_ne fun h => hid (Prod.mk.inj h).2]
          exact (h p').waiting
    · obtain rfl : p = !p' := Bool.eq_not.mpr (Ne.symm hp)
      rw [Peers.set, Function.update_of_ne hp]
      exact (h p').update_other (fun x hx => hx.ne_of_answered hp hround) (hdue p')

/-- **A packet is received.** -/
theorem Fits.receive (h : Fits kept s φ) (exec : F → Option Sexp → σ → Option Sexp × σ)
    (hcalled : (s p).called = none) {i : ℕ} (hi : i < (s p).inbox.length) :
    ∃ s' events φ', cmdStep exec s (.receive p i) = some (s', events) ∧ Fits kept s' φ' ∧
      Traces NextRound CmdEvent.id? φ φ' events ∧
      Traces NextTurn CmdEvent.thread? (turns s) (turns s') events := by
  obtain ⟨x, hx⟩ : ∃ x, (s p).inbox[i]? = some x := ⟨_, List.getElem?_eq_getElem hi⟩
  obtain ⟨y, rfl, hfits, hrest⟩ := (h p).inbox.erase hx
  cases y with
  | request id call =>
      obtain ⟨w, hround⟩ := hfits
      obtain ⟨s', res, hstep, hs', hturns⟩ := h.receive_request exec hcalled hx hround hrest
      change φ (!p, id) = _ at hround
      refine ⟨s', _, _, hstep, hs', .single rfl rfl ?_, .other hturns rfl⟩
      rw [hround]
      exact .executed _ w id call res
  | reply id rid cmdclass code res =>
      obtain ⟨w, call, hround⟩ := hfits
      obtain ⟨s', hstep, hs', hwaits, hturns⟩ := h.receive_reply exec hcalled hx hround hrest
      change φ (p, rid) = _ at hround
      refine ⟨s', _, _, hstep, hs', .single rfl rfl ?_, .single hturns rfl ?_⟩
      · rw [hround]
        exact .handled p w rid call res
      · rw [hwaits]
        exact .handled p w rid res

/-- A handler is registered, or refused. -/
theorem Fits.enter (h : Fits kept s φ) {w : W} {id : UInt16} {call : CmdCall}
    (hw : (s p).threads w = .drawn id call) : ∃ table,
    (seapCmdtblAdd (s p).wTable ⟨id, w⟩ = some (table, 0) ∧
      Fits kept (s.set p (((s p).setThread w (.entered id call)).setTable table)) φ) ∨
    (seapCmdtblAdd (s p).wTable ⟨id, w⟩ = some (table, 1) ∧
      Fits kept (s.set p (((s p).setThread w .idle).setTable table)) φ) := by
  obtain ⟨m, hheld⟩ := (h p).held
  obtain ⟨table, htable, hadd⟩ := seapCmdtblAdd_spec hheld.stands ⟨id, w⟩
  have hnone : ((s p).threads w).id? = none := by rw [hw]; rfl
  have hnot : ∀ id' call', (s p).threads w ≠ .waiting id' call' := by
    rw [hw]
    exact fun _ _ h => Thread.noConfusion h
  refine ⟨table, ?_⟩
  change TableStands (if (m id).isSome then m else Function.update m id (some ⟨id, w⟩)) table at htable
  change _ = some (table, if (m id).isSome then (1 : ℤ) else 0) at hadd
  cases hid : m id with
  | none =>
      rw [hid] at htable hadd
      refine .inl ⟨hadd, h.set ((h p).setThread (w := w) (t := .entered id call)
        ⟨_, hheld.enter hid rfl htable hnone⟩ ?_ hnot rfl rfl rfl rfl)⟩
      exact fun _ _ h => Thread.noConfusion h
  | some r =>
      rw [hid] at htable hadd
      have hheld' : Held m ((s p).setTable table) :=
        ⟨htable, hheld.thread, hheld.entry, hheld.called⟩
      refine .inr ⟨hadd, h.set ((h p).setThread (w := w) (t := .idle)
        ⟨m, hheld'.setThread hnone.symm⟩ ?_ hnot rfl rfl rfl rfl)⟩
      exact fun _ _ h => Thread.noConfusion h

/-- A command cannot be sent, and its handler is deleted. -/
theorem Fits.sendFails (h : Fits kept s φ) {w : W} {id : UInt16} {call : CmdCall}
    (hw : (s p).threads w = .entered id call) : ∃ table,
    seapCmdtblDel (s p).wTable ⟨id, w⟩ = some (table, 0) ∧
      Fits kept (s.set p (((s p).setThread w .idle).setTable table)) φ := by
  obtain ⟨m, hheld⟩ := (h p).held
  have hthread : ((s p).threads w).id? = some id := by rw [hw]; rfl
  have hentry := hheld.entry hthread
  obtain ⟨table, htable, hdel⟩ := seapCmdtblDel_spec hheld.stands (r := ⟨id, w⟩) (by
    rw [hentry]
    rfl)
  refine ⟨table, hdel, h.set ((h p).setThread (w := w) (t := .idle)
    ⟨_, hheld.cancel hthread rfl htable⟩ ?_ ?_ rfl rfl rfl rfl)⟩
  · exact fun _ _ h => Thread.noConfusion h
  · rw [hw]
    exact fun _ _ h => Thread.noConfusion h

omit [DecidableEq W] in
/-- The handler that was called is deleted. -/
theorem Fits.delete (h : Fits kept s φ) {r : SeapCmdrec W} (hr : (s p).called = some r) : ∃ table,
    seapCmdtblDel (s p).wTable r = some (table, 0) ∧
      Fits kept (s.set p (((s p).setTable table).setCalled none)) φ := by
  obtain ⟨m, hheld⟩ := (h p).held
  obtain ⟨table, htable, hdel⟩ := seapCmdtblDel_spec hheld.stands (r := r) (by
    rw [(hheld.called hr).1]
    rfl)
  exact ⟨table, hdel, h.set ⟨⟨_, hheld.delete hr htable⟩, (h p).cTable, (h p).ctxTable,
    (h p).waiting, (h p).inbox⟩⟩

/-- **Every step keeps what holds of the peers**, and goes on in the rounds of the ids and in the
turns of the threads. -/
theorem Fits.step (h : Fits kept s φ) {exec : F → Option Sexp → σ → Option Sexp × σ}
    {a : CmdAction W} (ha : kept → ¬a.Loses) {s' : Peers W F σ} {events : List (CmdEvent W)}
    (hstep : cmdStep exec s a = some (s', events)) :
    ∃ φ', Fits kept s' φ' ∧ Traces NextRound CmdEvent.id? φ φ' events ∧
      Traces NextTurn CmdEvent.thread? (turns s) (turns s') events := by
  cases a with
  | draw p w call =>
      simp only [cmdStep] at hstep
      split at hstep
      · rename_i hw
        obtain ⟨rfl, rfl⟩ := Prod.mk.inj (Option.some.inj hstep)
        obtain ⟨m, hheld⟩ := (h p).held
        have hheld' : Held m (s p).gencmdid.2 := hheld.congr (fun _ => rfl) rfl rfl
        have hthread : (s p).gencmdid.2.threads w = .idle := hw
        refine ⟨φ, h.set ((h p).setThread (w := w) (t := .drawn (s p).nextCid call)
          ⟨m, hheld'.setThread ?_⟩ ?_ ?_ rfl rfl rfl rfl), .nil rfl, .nil (turns_set_self (w := w)
            (t := .drawn (s p).nextCid call) rfl ?_)⟩
        · rw [hthread]
          rfl
        · exact fun _ _ h => Thread.noConfusion h
        · rw [hw]
          exact fun _ _ h => Thread.noConfusion h
        · rw [hw]
          rfl
      · cases hstep
  | enter p w =>
      simp only [cmdStep] at hstep
      split at hstep
      · rename_i id call hw
        obtain ⟨table, ⟨hadd, hs'⟩ | ⟨hadd, hs'⟩⟩ := h.enter hw
        · rw [hadd] at hstep
          obtain ⟨rfl, rfl⟩ := Prod.mk.inj (Option.some.inj hstep)
          refine ⟨φ, hs', .nil rfl, .nil (turns_set_self (w := w) (t := .entered id call) rfl ?_)⟩
          rw [hw]
          rfl
        · rw [hadd] at hstep
          obtain ⟨rfl, rfl⟩ := Prod.mk.inj (Option.some.inj hstep)
          refine ⟨φ, hs', .other rfl rfl, .single (turns_set (w := w) (t := .idle) rfl) rfl ?_⟩
          rw [turns, hw]
          exact .refused p w
      · cases hstep
  | send p w =>
      simp only [cmdStep] at hstep
      split at hstep
      · rename_i id call hw
        obtain ⟨rfl, rfl⟩ := Prod.mk.inj (Option.some.inj hstep)
        refine ⟨_, h.send hw, .single rfl rfl ?_, .single ((turns_set_of_eq ?_).trans
          (turns_set (w := w) (t := .waiting id call) rfl)) rfl ?_⟩
        · rw [(h p).free hw]
          exact .sent p w id call
        · rfl
        · rw [turns, hw]
          exact .sent p w id call
      · cases hstep
  | sendFails p w =>
      simp only [cmdStep] at hstep
      split at hstep
      · rename_i id call hw
        obtain ⟨table, hdel, hs'⟩ := h.sendFails hw
        rw [hdel] at hstep
        obtain ⟨rfl, rfl⟩ := Prod.mk.inj (Option.some.inj hstep)
        refine ⟨φ, hs', .other rfl rfl, .single (turns_set (w := w) (t := .idle) rfl) rfl ?_⟩
        rw [turns, hw]
        exact .refused p w
      · cases hstep
  | wake p w =>
      simp only [cmdStep] at hstep
      split at hstep
      · rename_i res hw
        obtain ⟨rfl, rfl⟩ := Prod.mk.inj (Option.some.inj hstep)
        obtain ⟨m, hheld⟩ := (h p).held
        refine ⟨φ, h.set ((h p).setThread (w := w) (t := .idle) ⟨m, hheld.setThread ?_⟩ ?_ ?_ rfl
          rfl rfl rfl), .other rfl rfl, .single (turns_set (w := w) (t := .idle) rfl) rfl ?_⟩
        · rw [hw]
          rfl
        · exact fun _ _ h => Thread.noConfusion h
        · rw [hw]
          exact fun _ _ h => Thread.noConfusion h
        · rw [turns, hw]
          exact .returned p w res
      · cases hstep
  | receive p i =>
      cases hcalled : (s p).called with
      | some r =>
          simp only [cmdStep, hcalled] at hstep
          cases hstep
      | none =>
          by_cases hi : i < (s p).inbox.length
          · obtain ⟨t, events', φ', hstep', ht, hrounds, hturns⟩ := h.receive exec hcalled hi
            obtain ⟨rfl, rfl⟩ := Prod.mk.inj (Option.some.inj (hstep'.symm.trans hstep))
            exact ⟨φ', ht, hrounds, hturns⟩
          · simp only [cmdStep, hcalled, List.getElem?_eq_none (Nat.le_of_not_lt hi)] at hstep
            cases hstep
  | delete p =>
      simp only [cmdStep] at hstep
      split at hstep
      · rename_i r hr
        obtain ⟨table, hdel, hs'⟩ := h.delete hr
        rw [hdel] at hstep
        obtain ⟨rfl, rfl⟩ := Prod.mk.inj (Option.some.inj hstep)
        refine ⟨φ, hs', .nil rfl, .nil (turns_set_of_eq ?_)⟩
        rfl
      · cases hstep
  | lose p i =>
      simp only [cmdStep] at hstep
      split at hstep
      · rename_i hi
        obtain ⟨rfl, rfl⟩ := Prod.mk.inj (Option.some.inj hstep)
        obtain ⟨y, -, -, hrest⟩ := (h p).inbox.erase (List.getElem?_eq_getElem hi)
        have hsame := hrest (φ (y.key p)) fun hkept => absurd trivial (ha hkept)
        rw [Function.update_eq_self] at hsame
        refine ⟨φ, h.set ((h p).take hsame), .nil rfl, .nil (turns_set_of_eq ?_)⟩
        rfl
      · cases hstep

end Fits

/-! ### Runs -/

/-- Two peers before any command was sent: no thread is in `SEAP_cmd_exec`, nothing waits, and
nothing is on its way. -/
structure Fresh (s : Peers W F σ) : Prop where
  threads : ∀ p w, (s p).threads w = .idle
  wTable : ∀ p, TableStands (fun _ => none) (s p).wTable
  cTable : ∀ p, ∃ m, TableStands m (s p).cTable
  ctxTable : ∀ p, ∃ m, TableStands m (s p).ctxTable
  called : ∀ p, (s p).called = none
  inbox : ∀ p, (s p).inbox = []

theorem Fresh.fits {s : Peers W F σ} (h : Fresh s) (kept : Prop) :
    Fits kept s fun _ => .free := by
  intro p
  refine ⟨⟨fun _ => none, h.wTable p, ?_, ?_, ?_⟩, h.cTable p, h.ctxTable p, ?_, [], ?_,
    List.nodup_nil, ?_, ?_⟩
  · intro id r hr
    cases hr
  · intro w id hid
    rw [h.threads] at hid
    cases hid
  · intro r hr
    cases (h.called p).symm.trans hr
  · intro w id call
    rw [h.threads]
    exact ⟨fun h => Thread.noConfusion h, fun h => h.elim⟩
  · rw [h.inbox]
    rfl
  · intro x hx
    cases hx
  · rintro - k (⟨-, w, call, hround⟩ | ⟨-, w, call, res, hround⟩) <;> cases hround

variable [DecidableEq W] {exec : F → Option Sexp → σ → Option Sexp × σ} {s s' : Peers W F σ}
  {as : List (CmdAction W)} {trace : List (CmdEvent W)}

/-- What holds of the peers in a run, and the rounds of the ids. -/
theorem Fresh.run_fits (h : Fresh s) (kept : Prop) (has : ∀ a ∈ as, kept → ¬a.Loses)
    (hrun : run (cmdStep exec) s as = some (s', trace)) :
    ∃ φ, Fits kept s' φ ∧ Traces NextRound CmdEvent.id? (fun _ => .free) φ trace := by
  have hfollows : Follows (cmdStep exec) (fun a => kept → ¬a.Loses) NextRound CmdEvent.id?
      (Fits (W := W) kept) := by
    intro t t' a events φ ha ht hstep
    obtain ⟨φ', ht', hround, -⟩ := ht.step ha hstep
    exact ⟨φ', ht', hround⟩
  exact hfollows.traces has (h.fits kept) hrun

/-- Two peers without functions, each with one thread. -/
def quietPeers : Peers Unit Unit Unit := fun _ =>
  ⟨0, seapCmdtblNew, none, seapCmdtblNew, seapCmdtblNew, fun _ => .idle, (), []⟩

theorem fresh_quietPeers : Fresh quietPeers :=
  ⟨fun _ _ => rfl, fun _ => tableStands_new, fun _ => ⟨_, tableStands_new⟩,
    fun _ => ⟨_, tableStands_new⟩, fun _ => rfl, fun _ => rfl⟩

/-- One of the peers sends a command, and its thread returns. -/
def oneCommand : List (CmdAction Unit) :=
  [.draw false () ⟨3, none⟩, .enter false (), .send false (), .receive true 0, .receive false 0,
    .delete false, .wake false ()]

/-- What is seen of the command. -/
def oneCommandTrace : List (CmdEvent Unit) :=
  [.sent false () 0 ⟨3, none⟩, .executed false 0 ⟨3, none⟩ none, .handled false () 0 none,
    .returned false () none]

theorem run_oneCommand : ∃ s', run (cmdStep fun _ _ app => (none, app)) quietPeers oneCommand =
    some (s', oneCommandTrace) ∧ ∀ p, (s' p).inbox = [] := by
  refine ⟨_, rfl, fun p => ?_⟩
  cases p <;> rfl

/-- **A packet that has arrived can be received**, when the last handler that was called is deleted;
and it can be deleted. -/
theorem receive_enabled (h : Fresh s) (hrun : run (cmdStep exec) s as = some (s', trace)) (p : Bool) :
    ((s' p).called = none → ∀ i < (s' p).inbox.length, (cmdStep exec s' (.receive p i)).isSome) ∧
      ((s' p).called ≠ none → (cmdStep exec s' (.delete p)).isSome) := by
  obtain ⟨φ, hfits, -⟩ := h.run_fits False (fun _ _ => False.elim) hrun
  constructor
  · intro hcalled i hi
    obtain ⟨t, events, φ', hstep, -⟩ := hfits.receive exec hcalled hi
    rw [hstep]
    rfl
  · intro hcalled
    obtain ⟨r, hr⟩ := Option.ne_none_iff_exists'.mp hcalled
    obtain ⟨table, hdel, -⟩ := hfits.delete hr
    simp only [cmdStep, hr, hdel, Option.bind_eq_bind, Option.bind_some]
    rfl

/-- **Where no packet is lost and none is left, no thread waits**, and every command that was sent
was executed once and its result handed over. -/
theorem quiet (h : Fresh s) (has : ∀ a ∈ as, ¬a.Loses)
    (hrun : run (cmdStep exec) s as = some (s', trace)) (hinbox : ∀ p, (s' p).inbox = []) :
    (∀ p w id call, (s' p).threads w ≠ .waiting id call) ∧
      ∀ k, Path NextRound .free (about CmdEvent.id? k trace) .free := by
  obtain ⟨φ, hfits, hround⟩ := h.run_fits True (fun a ha _ => has a ha) hrun
  have hdue : ∀ p k, ¬Due φ p k := by
    intro p k hk
    obtain ⟨wires, hwires, -, -, hkept⟩ := (hfits p).inbox
    rw [hinbox, eq_comm, List.map_eq_nil_iff] at hwires
    subst hwires
    exact List.not_mem_nil (hkept trivial k hk)
  have hfree : ∀ k, φ k = .free := by
    intro k
    cases hk : φ k with
    | free => rfl
    | sent w call =>
        refine absurd (.inl ⟨?_, w, call, hk⟩) (hdue (!k.1) k)
        rw [Bool.not_not]
    | answered w call res => exact absurd (.inr ⟨rfl, w, call, res, hk⟩) (hdue k.1 k)
  refine ⟨fun p w id call hwaiting => ?_, fun k => ?_⟩
  · have hof := (hfits p).waiting.mp hwaiting
    rw [hfree] at hof
    exact hof
  · have hk := hround k
    rwa [hfree k] at hk

theorem quiet_oneCommand :
    Path NextRound .free (about CmdEvent.id? (false, 0) oneCommandTrace) .free := by
  obtain ⟨s', hrun, hinbox⟩ := run_oneCommand
  have has : ∀ a ∈ oneCommand, ¬a.Loses := by
    intro a ha
    simp only [oneCommand, List.mem_cons, List.not_mem_nil, or_false] at ha
    rcases ha with rfl | rfl | rfl | rfl | rfl | rfl | rfl <;> exact id
  exact (quiet fresh_quietPeers has hrun hinbox).2 (false, 0)

end OpenScap.Seap
