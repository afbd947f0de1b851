import OpenScap.GuardedRun
import OpenScap.LinkedFifo

/-!
# The queue of received packets

A SEAP descriptor keeps the packets that arrived together with the one that was asked for
(`seap-packetq.c`): a doubly linked list with a pointer to each end and a count. Every
operation runs under the mutex of the queue, so an interleaving of threads is a sequence of
operations.

The operations are those of the default build, in which `assume_d` is compiled away: an
assumption that fails is noted and the code goes on. Memory is modelled cell by cell; a new
cell gets any address that is not in use, and an access to a freed cell is noted as well,
after which nothing more is said.

## Main results

* `packetq_correct` — when a packet is only put while the queue is empty, the answers of all
  calls are those of a first-in first-out queue, the links are consistent and no assumption
  fails;
* `put_breaks_of_nonempty` — any other put leaves `last` on a cell that is not the last one.
-/

namespace OpenScap.SeapPacketq

variable {P : Type}

/-! ### The queue and its operations -/

/-- `SEAP_packetq_t` with the memory that holds its cells. -/
structure Packetq (P : Type) where
  items : ℕ → Option (DlistCell P)
  count : ℤ
  first : Option ℕ
  last : Option ℕ

/-- `SEAP_packetq_init`. -/
def packetqInit : Packetq P := ⟨fun _ => none, 0, none, none⟩

/-- The assumptions at the start of `SEAP_packetq_get`. -/
def GetAssumptions (queue : Packetq P) : Prop :=
  if queue.first = none then queue.last = none ∧ queue.count = 0
  else queue.last ≠ none ∧ 0 < queue.count

/-- The assumptions of `SEAP_packetq_put`: the last cell exists and nothing is behind it. -/
def PutAssumptions (queue : Packetq P) : Prop :=
  queue.first ≠ none →
    ∃ a cell, queue.last = some a ∧ queue.items a = some cell ∧ cell.next = none

instance (queue : Packetq P) : Decidable (GetAssumptions queue) := by
  rw [GetAssumptions]
  infer_instance

instance (queue : Packetq P) : Decidable (PutAssumptions queue) :=
  match hfirst : queue.first, hlast : queue.last with
  | none, _ => isTrue fun h => absurd hfirst h
  | some _, none => isFalse fun h => by
      obtain ⟨a, _, ha, -⟩ := h (by simp [hfirst])
      simp [hlast] at ha
  | some _, some a =>
    match hcell : queue.items a with
    | none => isFalse fun h => by
        obtain ⟨b, cell, hb, hitem, -⟩ := h (by simp [hfirst])
        obtain rfl : a = b := Option.some.inj (hlast.symm.trans hb)
        simp [hcell] at hitem
    | some cell =>
      if hnext : cell.next = none then isTrue fun _ => ⟨a, cell, hlast, hcell, hnext⟩
      else isFalse fun h => by
        obtain ⟨b, cell', hb, hitem, hnone⟩ := h (by simp [hfirst])
        obtain rfl : a = b := Option.some.inj (hlast.symm.trans hb)
        obtain rfl : cell = cell' := Option.some.inj (hcell.symm.trans hitem)
        exact hnext hnone

/-- `SEAP_packetq_get`: the packet it stores, its return value and the queue after it;
`none` when it reads or writes a cell that is not allocated. -/
def packetqGet (queue : Packetq P) : Option (Option P × ℤ × Packetq P) :=
  match queue.first with
  | none => some (none, -1, queue)
  | some a => do
    let head ← queue.items a
    let save := head.next
    let items := Function.update queue.items a none
    match save with
    | some b =>
      let second ← items b
      some (some head.element, queue.count - 1,
        { queue with
          items := Function.update items b (some { second with prev := none })
          first := save
          count := queue.count - 1 })
    | none =>
      some (some head.element, queue.count - 1,
        ⟨items, queue.count - 1, none, none⟩)

/-- `SEAP_packetq_put`, with the address `a` that the allocator gives; `none` when it reads
or writes a cell that is not allocated. -/
def packetqPut (a : ℕ) (packet : P) (queue : Packetq P) : Option (ℤ × Packetq P) :=
  let items := Function.update queue.items a (some ⟨none, none, packet⟩)
  match queue.first with
  | none => some (queue.count + 1, ⟨items, queue.count + 1, some a, some a⟩)
  | some _ => do
    let l ← queue.last
    let last ← items l
    let items := Function.update items l (some { last with next := some a })
    let new ← items a
    some (queue.count + 1,
      { queue with
        items := Function.update items a (some { new with prev := some l })
        count := queue.count + 1 })

/-! ### Runs -/

/-- A call, as a step: a put comes with the address of its new cell. -/
inductive PacketqEvent (P : Type)
  | put (a : ℕ) (packet : P)
  | get
  deriving DecidableEq, Repr

/-- The queue with the calls made so far, their answers, and whether an assumption failed or
memory was accessed that is not allocated. -/
structure PacketqSystem (P : Type) where
  queue : Packetq P
  calls : List (FifoCall P)
  assumptionFailed : Bool
  faulted : Bool

/-- The initial queue, on which nothing was called. -/
def packetqStart : PacketqSystem P := ⟨packetqInit, [], false, false⟩

/-- One call. A new cell is one that is not in use. -/
def step (s : PacketqSystem P) : PacketqEvent P → Option (PacketqSystem P)
  | .put a packet =>
    if s.faulted ∨ (s.queue.items a).isSome then none
    else
      let failed := s.assumptionFailed || !decide (PutAssumptions s.queue)
      match packetqPut a packet s.queue with
      | none => some { s with assumptionFailed := failed, faulted := true }
      | some (count, queue) => some ⟨queue, s.calls ++ [.put packet count], failed, false⟩
  | .get =>
    if s.faulted then none
    else
      let failed := s.assumptionFailed || !decide (GetAssumptions s.queue)
      match packetqGet s.queue with
      | none => some { s with assumptionFailed := failed, faulted := true }
      | some (packet, count, queue) =>
        some ⟨queue, s.calls ++ [.get packet count], failed, false⟩

/-! ### Correct states -/

/-- The queue holds the packets: its cells form a chain from `first` to `last`, and it counts
them. -/
structure Packetq.Holds (queue : Packetq P) (packets : List P) : Prop where
  /-- The links are consistent. -/
  chain : DlistChain queue.items none queue.first packets queue.last
  /-- The count is the number of packets. -/
  count_eq : queue.count = packets.length

/-- What is claimed of a state: the calls so far are a history of a first-in first-out queue,
the queue holds what is left, no assumption failed and no cell was used after its release. -/
def PacketqSystem.Correct [DecidableEq P] (s : PacketqSystem P) : Prop :=
  (∃ packets, fifoReplay [] s.calls = some packets ∧ s.queue.Holds packets) ∧
    s.assumptionFailed = false ∧ s.faulted = false

/-- A packet is put only while the queue is empty. -/
def PutsWhenEmpty (s : PacketqSystem P) : PacketqEvent P → Prop
  | .put _ _ => s.queue.first = none
  | .get => True

instance (s : PacketqSystem P) (e : PacketqEvent P) : Decidable (PutsWhenEmpty s e) := by
  cases e <;> rw [PutsWhenEmpty] <;> infer_instance

namespace Packetq.Holds

variable {queue queue' : Packetq P} {packets : List P}

/-- The initial queue holds nothing. -/
theorem init : (packetqInit : Packetq P).Holds [] := ⟨.nil none, rfl⟩

/-- The assumptions of `SEAP_packetq_get` follow from consistency. -/
theorem getAssumptions (h : queue.Holds packets) : GetAssumptions queue := by
  have hcount := h.count_eq
  rw [GetAssumptions]
  split_ifs with hfirst
  · obtain rfl : packets = [] := h.chain.eq_nil_iff.mpr hfirst
    exact ⟨h.chain.last_of_nil, hcount⟩
  · have hne : packets ≠ [] := fun hnil => hfirst (h.chain.eq_nil_iff.mp hnil)
    obtain ⟨a, -, hlast, -, -⟩ := h.chain.last_cell hne
    refine ⟨by simp [hlast], ?_⟩
    have := List.length_pos_of_ne_nil hne
    omega

/-- So do those of `SEAP_packetq_put`. -/
theorem putAssumptions (h : queue.Holds packets) : PutAssumptions queue := by
  intro hfirst
  exact h.chain.last_cell fun hnil => hfirst (h.chain.eq_nil_iff.mp hnil)

/-- `SEAP_packetq_get` on the empty queue. -/
theorem get_nil (h : queue.Holds []) : packetqGet queue = some (none, -1, queue) := by
  have hfirst : queue.first = none := h.chain.eq_nil_iff.mp rfl
  simp [packetqGet, hfirst]

/-- `SEAP_packetq_get` on a queue of one packet. -/
theorem get_singleton {packet : P} (h : queue.Holds [packet]) :
    ∃ queue', packetqGet queue = some (some packet, 0, queue') ∧ queue'.Holds [] := by
  obtain ⟨items, count, first, last⟩ := queue
  obtain ⟨hchain, hcount⟩ := h
  cases hchain with
  | cons hcell htail =>
      cases htail
      obtain rfl : count = 1 := hcount
      rename_i a
      have hitem : items a = some ⟨none, none, packet⟩ := hcell
      exact ⟨⟨Function.update items a none, 0, none, none⟩, by simp [packetqGet, hitem],
        .nil none, rfl⟩

/-- `SEAP_packetq_put` on the empty queue. -/
theorem put_nil (h : queue.Holds []) (a : ℕ) (packet : P) :
    ∃ queue', packetqPut a packet queue = some (1, queue') ∧ queue'.Holds [packet] := by
  have hfirst : queue.first = none := h.chain.eq_nil_iff.mp rfl
  have hcount : queue.count = 0 := h.count_eq
  refine ⟨_, by simp [packetqPut, hfirst, hcount]; rfl, ?_, rfl⟩
  exact .singleton (Function.update_self ..)

end Packetq.Holds

/-! ### Runs in which packets are put into the empty queue -/

section Runs

variable [DecidableEq P]

/-- Between guarded calls the state is correct and the queue holds at most one packet. -/
def Inv (s : PacketqSystem P) : Prop :=
  (∃ packets, packets.length ≤ 1 ∧ fifoReplay [] s.calls = some packets ∧
    s.queue.Holds packets) ∧ s.assumptionFailed = false ∧ s.faulted = false

theorem inv_packetqStart : Inv (packetqStart : PacketqSystem P) :=
  ⟨⟨[], by simp, rfl, Packetq.Holds.init⟩, rfl, rfl⟩

theorem Inv.correct {s : PacketqSystem P} (h : Inv s) : s.Correct := by
  obtain ⟨⟨packets, -, hcalls, hholds⟩, hflags⟩ := h
  exact ⟨⟨packets, hcalls, hholds⟩, hflags⟩

/-- The invariant is kept by every guarded call. -/
theorem Inv.step {s t : PacketqSystem P} {e : PacketqEvent P} (h : Inv s)
    (hguard : PutsWhenEmpty s e) (hstep : SeapPacketq.step s e = some t) : Inv t := by
  obtain ⟨queue, calls, failed, faulted⟩ := s
  obtain ⟨⟨packets, hlength, hcalls, hholds⟩, hfailed, hfaulted⟩ := h
  simp only at hcalls hholds hfailed hfaulted
  subst hfailed hfaulted
  cases e with
  | put a packet =>
      obtain rfl : packets = [] := hholds.chain.eq_nil_iff.mpr hguard
      obtain ⟨queue', hput, hholds'⟩ := hholds.put_nil a packet
      rw [SeapPacketq.step] at hstep
      split at hstep
      · cases hstep
      · simp only [hput, hholds.putAssumptions, decide_true, Bool.not_true, Bool.or_false]
          at hstep
        obtain rfl := Option.some.inj hstep
        exact ⟨⟨[packet], by simp, by rw [fifoReplay_concat hcalls]; rfl, hholds'⟩, rfl, rfl⟩
  | get =>
      rw [SeapPacketq.step] at hstep
      simp only [hholds.getAssumptions, decide_true, Bool.not_true, Bool.or_false,
        Bool.false_eq_true, if_false] at hstep
      match packets, hlength with
      | [], _ =>
          rw [hholds.get_nil] at hstep
          obtain rfl := Option.some.inj hstep
          exact ⟨⟨[], by simp, by rw [fifoReplay_concat hcalls]; rfl, hholds⟩, rfl, rfl⟩
      | [packet], _ =>
          obtain ⟨queue', hget, hholds'⟩ := hholds.get_singleton
          rw [hget] at hstep
          obtain rfl := Option.some.inj hstep
          refine ⟨⟨[], by simp, ?_, hholds'⟩, rfl, rfl⟩
          rw [fifoReplay_concat hcalls, fifoStep]
          simp

/-- In such a run the packets obtained are the packets put, each once and in that order, up to
those that are still queued. -/
theorem packetq_obtained {s : PacketqSystem P}
    (h : GuardedRun step PutsWhenEmpty packetqStart s) :
    ∃ packets, s.queue.Holds packets ∧
      s.calls.filterMap FifoCall.putElement =
        s.calls.filterMap FifoCall.getElement ++ packets := by
  obtain ⟨⟨packets, -, hcalls, hholds⟩, -⟩ := h.invariant inv_packetqStart Inv.step
  exact ⟨packets, hholds, puts_eq_gets_append hcalls⟩

/-- **The packet queue is a FIFO** in every run in which packets are put only while it is
empty. -/
theorem packetq_correct {s : PacketqSystem P}
    (h : GuardedRun step PutsWhenEmpty packetqStart s) : s.Correct :=
  (h.invariant inv_packetqStart Inv.step).correct

/-- Two packets, each obtained before the next one is put. -/
theorem packetq_correct_alternating : ∃ s : PacketqSystem Bool,
    s.calls = [.put true 1, .get (some true) 0, .put false 1, .get (some false) 0,
      .get none (-1)] ∧ s.Correct := by
  have hrun : ((GuardedRun.replay step PutsWhenEmpty (packetqStart : PacketqSystem Bool)
      [.put 0 true, .get, .put 1 false, .get, .get]).map PacketqSystem.calls) =
      some [.put true 1, .get (some true) 0, .put false 1, .get (some false) 0,
        .get none (-1)] := by decide
  obtain ⟨s, hs, hcalls⟩ := Option.map_eq_some_iff.mp hrun
  exact ⟨s, hcalls, packetq_correct (GuardedRun.of_replay hs)⟩

/-- The condition cannot be weakened: the branch for a queue that is not empty does not move
`last`, so the cell it stands on afterwards has the new one behind it. -/
theorem put_breaks_of_nonempty {s t : PacketqSystem P} {a : ℕ} {packet : P}
    (hs : s.Correct) (hguard : ¬ PutsWhenEmpty s (.put a packet))
    (hstep : step s (.put a packet) = some t) : ¬ t.Correct := by
  obtain ⟨queue, calls, failed, faulted⟩ := s
  obtain ⟨⟨packets, hcalls, hholds⟩, hfailed, hfaulted⟩ := hs
  simp only at hcalls hholds hfailed hfaulted
  subst hfailed hfaulted
  obtain ⟨first, hfirst⟩ := Option.ne_none_iff_exists'.mp hguard
  simp only at hfirst
  have hne : packets ≠ [] := fun hnil => hguard (hholds.chain.eq_nil_iff.mp hnil)
  obtain ⟨l, cell, hlast, hcell, -⟩ := hholds.chain.last_cell hne
  rw [step] at hstep
  split at hstep
  · cases hstep
  · rename_i hfree
    have hla : l ≠ a := by
      rintro rfl
      simp [hcell] at hfree
    simp only [packetqPut, hfirst, hlast, Option.bind_eq_bind, Option.bind_some,
      Function.update_of_ne hla, hcell, Function.update_of_ne hla.symm, Function.update_self]
      at hstep
    obtain rfl := Option.some.inj hstep
    rintro ⟨⟨packets', hcalls', hholds'⟩, -⟩
    rw [fifoReplay_concat hcalls, fifoStep] at hcalls'
    split at hcalls'
    · obtain rfl := Option.some.inj hcalls'
      obtain ⟨b, cell', hb, hcell', hnext⟩ := hholds'.chain.last_cell (by simp)
      simp only [Option.some.injEq] at hb
      subst hb
      simp only [Function.update_of_ne hla, Function.update_self, Option.some.injEq] at hcell'
      subst hcell'
      cases hnext
    · cases hcalls'

/-- **The packet queue is not a FIFO over every run**: of three packets that are put before
the first one is obtained, the second is lost. -/
theorem not_packetq_correct : ¬ ∀ s : PacketqSystem ℕ,
    GuardedRun step (fun _ _ => True) packetqStart s → s.Correct := by
  intro hall
  have hrun : ((GuardedRun.replay step (fun _ _ => True) (packetqStart : PacketqSystem ℕ)
      [.put 0 1, .put 1 2, .put 2 3, .get, .get]).map fun s =>
        (s.calls, s.assumptionFailed)) =
      some ([.put 1 1, .put 2 2, .put 3 3, .get (some 1) 2, .get (some 3) 1], true) := by
    decide
  obtain ⟨s, hs, hend⟩ := Option.map_eq_some_iff.mp hrun
  obtain ⟨-, hfailed⟩ := Prod.mk.inj hend
  have hcorrect := hall s (GuardedRun.of_replay hs)
  simp [hcorrect.2.1] at hfailed

end Runs

end OpenScap.SeapPacketq
