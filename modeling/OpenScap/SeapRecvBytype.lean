import OpenScap.SeapPacketq

/-!
# Receiving packets of a type

`SEAP_packet_recv` returns the first queued packet; when none is queued it reads the next
packets that arrive together, returns the first of them and queues the others.
`SEAP_packet_recv_bytype` receives until it gets a packet of the type it was asked for, and puts
every other packet back at the end of the queue that the next packet is taken from.

A put to a queue that is not empty leaves `last` where it is. Seen from outside, a queue is a
row of packets, a row with one more packet behind its last cell, which the next put takes the
place of, or that one packet alone, while `last` points to a cell that was freed.

## Main results

* `Shows.get`, `Shows.put` — a queue does what its view does;
* `recvBytype_refines` — so does the whole loop;
* `viewLoop_length` — nothing is added;
* `recvBytype_right_iff` — when the loop ends with the first packet of the type and leaves all
  others in their order.
-/

namespace OpenScap.SeapPacketq

variable {P T : Type}

/-! ### The loop -/

/-- A descriptor: the queue, the packets that will arrive, in groups that arrive together, and
the address of the next cell. No address is given out twice, so that a pointer to a cell that
was freed is told from any other. -/
structure Desc (P : Type) where
  queue : Packetq P
  fresh : ℕ
  stream : List (List P)

/-- `SEAP_packetq_put` with a new cell. -/
def Desc.put (d : Desc P) (packet : P) : Option (ℤ × Desc P) := do
  let (count, queue) ← packetqPut d.fresh packet d.queue
  return (count, { d with queue := queue, fresh := d.fresh + 1 })

/-- The next packets that arrive, the first one apart. A list of no packets is read over. -/
def receiveBatch : List (List P) → Option (P × List P × List (List P))
  | [] => none
  | [] :: stream => receiveBatch stream
  | (packet :: rest) :: stream => some (packet, rest, stream)

/-- Queueing the packets behind the first one. -/
def Desc.putAll (d : Desc P) : List P → Option (Desc P)
  | [] => some d
  | packet :: rest => do
      let (_, d) ← d.put packet
      d.putAll rest

/-- `SEAP_packet_recv`: the descriptor, the value returned and the packet; `none` when a freed
cell is used. The end of the stream is an error. -/
def packetRecv (d : Desc P) : Option (Desc P × ℤ × Option P) := do
  let (packet, ret, queue) ← packetqGet d.queue
  let d := { d with queue := queue }
  if ret ≠ -1 then return (d, 0, packet)
  else
    match receiveBatch d.stream with
    | none => return ({ d with stream := [] }, -1, none)
    | some (packet, rest, stream) =>
        let d ← Desc.putAll { d with stream := stream } rest
        return (d, 0, some packet)

/-- How a call ends: it returns, or it uses a cell that was freed. -/
abbrev Ended (P : Type) : Type := Option (Desc P × ℤ × Option P)

/-- `SEAP_packet_recv_bytype`, for so many rounds; `none` when these are not enough. -/
def packetRecvBytype [DecidableEq T] (ptype : P → T) (type : T) : ℕ → Desc P → Option (Ended P)
  | 0, _ => none
  | fuel + 1, d =>
      match packetRecv d with
      | none => some none
      | some (d, ret, pck) =>
          if ret ≠ 0 then some (some (d, ret, none))
          else
            match pck with
            | none => some none
            | some pck =>
                if ptype pck = type then some (some (d, ret, some pck))
                else
                  match d.put pck with
                  | none => some none
                  | some (count, d) =>
                      if count = -1 then some (some (d, -1, none))
                      else packetRecvBytype ptype type fuel d

/-! ### What is claimed -/

/-- The packets that one call after the other obtains from a queue, until it is empty. -/
inductive Obtains : Packetq P → List P → Prop
  | empty {queue : Packetq P} (h : queue.first = none) : Obtains queue []
  | next {queue queue' : Packetq P} {packet : P} {count : ℤ} {packets : List P}
      (hget : packetqGet queue = some (some packet, count, queue'))
      (hrest : Obtains queue' packets) : Obtains queue (packet :: packets)

/-- The right answer to a call, and what is left for later ones: the first packet of the type,
and all others in their order. -/
inductive RightAnswer (ptype : P → T) (type : T) (packets : List P) : Option P → List P → Prop
  | found {skipped others : List P} {packet : P} (hall : packets = skipped ++ packet :: others)
      (hskipped : ∀ p ∈ skipped, ptype p ≠ type) (htype : ptype packet = type) :
      RightAnswer ptype type packets (some packet) (skipped ++ others)
  | absent (h : ∀ p ∈ packets, ptype p ≠ type) : RightAnswer ptype type packets none packets

/-- A descriptor with packets queued. -/
structure Waiting (P : Type) where
  desc : Desc P
  packets : List P
  /-- The packets are those of the queue. -/
  holds : desc.queue.Holds packets
  /-- Addresses from `fresh` on were never given out. -/
  fresh : ∀ a, desc.fresh ≤ a → desc.queue.items a = none

/-- **The call receives by type as it should**: it ends, with the right answer, and what is
left can be obtained from the queue and from the stream. -/
def ReceivesByType [DecidableEq T] (ptype : P → T) (type : T) (w : Waiting P) : Prop :=
  ∃ fuel d ret packet queued,
    packetRecvBytype ptype type fuel w.desc = some (some (d, ret, packet)) ∧
    (ret = 0 ↔ packet.isSome) ∧ Obtains d.queue queued ∧
    RightAnswer ptype type (w.packets ++ w.desc.stream.flatten) packet (queued ++ d.stream.flatten)

/-- When it does. With packets queued: the first one is of the type; or the second one is, and
the first one may as well stand behind all others. With none queued: of the packets that arrive
next, the first one is of the type and at most two are behind it; or there are two, and the
second one is of the type; or none arrive at all. -/
def Receivable [DecidableEq T] (ptype : P → T) (type : T) : List P → List (List P) → Prop
  | first :: rest, _ =>
      ptype first = type ∨
        ∃ second others, rest = second :: others ∧ ptype second = type ∧
          others ++ [first] = first :: others
  | [], stream =>
      match receiveBatch stream with
      | none => True
      | some (first, rest, _) =>
          if ptype first = type then rest.length ≤ 2
          else ∃ second, rest = [second] ∧ ptype second = type

/-! ### Views of a queue -/

/-- What a queue looks like: a row of packets; a row with one more packet behind the cell that
`last` points to; or that packet alone, when the row is used up. -/
inductive View (P : Type)
  | row (packets : List P)
  | behind (first : P) (packets : List P) (extra : P)
  | stray (extra : P)

namespace View

/-- The packets, in the order in which they are obtained. -/
def contents : View P → List P
  | row packets => packets
  | behind first packets extra => first :: packets ++ [extra]
  | stray extra => [extra]

/-- Obtaining a packet. -/
def get : View P → Option (P × View P)
  | row [] => none
  | row (first :: rest) => some (first, row rest)
  | behind first [] extra => some (first, stray extra)
  | behind first (second :: rest) extra => some (first, behind second rest extra)
  | stray extra => some (extra, row [])

/-- Putting a packet; `none` when it goes behind a cell that was freed. -/
def put (packet : P) : View P → Option (View P)
  | row [] => some (row [packet])
  | row (first :: rest) => some (behind first rest packet)
  | behind first rest _ => some (behind first rest packet)
  | stray _ => none

/-- Putting several packets. -/
def putAll : View P → List P → Option (View P)
  | view, [] => some view
  | view, packet :: rest => (view.put packet).bind fun view => view.putAll rest

/-- What is obtained was there, and the rest is left. -/
theorem contents_of_get {view view' : View P} {packet : P} (h : view.get = some (packet, view')) :
    view.contents = packet :: view'.contents := by
  cases view with
  | row packets =>
      cases packets with
      | nil => cases h
      | cons first rest =>
          obtain ⟨rfl, rfl⟩ := Prod.mk.inj (Option.some.inj h)
          rfl
  | behind first packets extra =>
      cases packets with
      | nil =>
          obtain ⟨rfl, rfl⟩ := Prod.mk.inj (Option.some.inj h)
          rfl
      | cons second rest =>
          obtain ⟨rfl, rfl⟩ := Prod.mk.inj (Option.some.inj h)
          rfl
  | stray extra =>
      obtain ⟨rfl, rfl⟩ := Prod.mk.inj (Option.some.inj h)
      rfl

/-- Nothing is obtained from the empty queue only. -/
theorem get_eq_none {view : View P} (h : view.get = none) : view = row [] := by
  cases view with
  | row packets =>
      cases packets with
      | nil => rfl
      | cons => cases h
  | behind first packets extra => cases packets <;> cases h
  | stray => cases h

/-- A put adds at most one packet. -/
theorem length_put {view view' : View P} {packet : P} (h : view.put packet = some view') :
    view'.contents.length ≤ view.contents.length + 1 := by
  cases view with
  | row packets => cases packets <;> obtain rfl := Option.some.inj h <;> simp [contents]
  | behind first packets extra =>
      obtain rfl := Option.some.inj h
      simp [contents]
  | stray => cases h

/-- Several puts add at most as many packets. -/
theorem length_putAll {view view' : View P} {packets : List P}
    (h : view.putAll packets = some view') :
    view'.contents.length ≤ view.contents.length + packets.length := by
  induction packets generalizing view with
  | nil =>
      obtain rfl := Option.some.inj h
      exact Nat.le_refl _
  | cons packet packets ih =>
      obtain ⟨mid, hput, hrest⟩ := Option.bind_eq_some_iff.mp h
      have hone := length_put hput
      have hmany := ih hrest
      rw [List.length_cons]
      omega

end View

/-! ### A queue and its view -/

/-- The cells from a cell on, and their packets. -/
inductive Path (items : ℕ → Option (DlistCell P)) : Option ℕ → List ℕ → List P → Prop
  | nil : Path items none [] []
  | cons {a : ℕ} {next prev : Option ℕ} {packet : P} {addrs : List ℕ} {packets : List P}
      (hcell : items a = some ⟨next, prev, packet⟩) (hrest : Path items next addrs packets) :
      Path items (some a) (a :: addrs) (packet :: packets)

namespace Path

variable {items items' : ℕ → Option (DlistCell P)} {start : Option ℕ} {addrs addrs' : List ℕ}
  {packets packets' : List P}

/-- A cell starts one path. -/
theorem unique (h : Path items start addrs packets) (h' : Path items start addrs' packets') :
    addrs = addrs' := by
  induction h generalizing addrs' packets' with
  | nil =>
      cases h'
      rfl
  | cons hcell _ ih =>
      cases h' with
      | cons hcell' hrest' =>
          obtain ⟨rfl, -, -⟩ := DlistCell.mk.inj (Option.some.inj (hcell.symm.trans hcell'))
          rw [ih hrest']

/-- From each cell of a path on there is a path that is not longer. -/
theorem from_mem (h : Path items start addrs packets) {a : ℕ} (ha : a ∈ addrs) :
    ∃ addrs' packets', Path items (some a) addrs' packets' ∧ addrs'.length ≤ addrs.length := by
  induction h with
  | nil => cases ha
  | @cons b _ _ _ _ _ hcell hrest ih =>
      rcases List.mem_cons.mp ha with rfl | ha
      · exact ⟨_, _, .cons hcell hrest, Nat.le_refl _⟩
      · obtain ⟨addrs', packets', hpath, hle⟩ := ih ha
        exact ⟨addrs', packets', hpath, Nat.le_succ_of_le hle⟩

/-- A path has no cell twice. -/
theorem nodup (h : Path items start addrs packets) : addrs.Nodup := by
  induction h with
  | nil => exact List.nodup_nil
  | cons hcell hrest ih =>
      refine List.nodup_cons.mpr ⟨fun hmem => ?_, ih⟩
      obtain ⟨addrs', packets', hpath, hle⟩ := hrest.from_mem hmem
      rw [← Path.unique (.cons hcell hrest) hpath, List.length_cons] at hle
      omega

/-- The cells of a path are allocated. -/
theorem isSome (h : Path items start addrs packets) {a : ℕ} (ha : a ∈ addrs) :
    (items a).isSome := by
  obtain ⟨addrs', packets', hpath, -⟩ := h.from_mem ha
  cases hpath with
  | cons hcell => rw [hcell, Option.isSome_some]

/-- A path does not depend on other cells, nor on what stands before its own. -/
theorem congr (h : Path items start addrs packets)
    (heq : ∀ a ∈ addrs, ∀ cell, items a = some cell →
      ∃ prev, items' a = some { cell with prev := prev }) :
    Path items' start addrs packets := by
  induction h with
  | nil => exact .nil
  | cons hcell _ ih =>
      obtain ⟨prev, hcell'⟩ := heq _ List.mem_cons_self _ hcell
      exact .cons hcell' (ih fun a ha => heq a (List.mem_cons_of_mem _ ha))

/-- A cell that is not in the path is changed. -/
theorem update (h : Path items start addrs packets) {a : ℕ} (ha : a ∉ addrs)
    (cell : Option (DlistCell P)) : Path (Function.update items a cell) start addrs packets := by
  refine h.congr fun b hb c hc => ⟨c.prev, ?_⟩
  have hne : b ≠ a := by
    rintro rfl
    exact ha hb
  rw [Function.update_of_ne hne, hc]

/-- The path from the start of a chain. -/
theorem of_chain {prev first last : Option ℕ} {xs : List P}
    (h : DlistChain items prev first xs last) :
    ∃ addrs, Path items first addrs xs ∧ last = (addrs.getLast?).or prev := by
  induction h with
  | nil prev => exact ⟨[], .nil, rfl⟩
  | @cons prev next last a x xs hcell htail ih =>
      obtain ⟨addrs, hpath, hlast⟩ := ih
      refine ⟨a :: addrs, .cons hcell hpath, ?_⟩
      rw [hlast]
      cases addrs with
      | nil => rfl
      | cons b addrs => simp [List.getLast?_cons]

/-- There are as many cells as packets. -/
theorem length_eq (h : Path items start addrs packets) : addrs.length = packets.length := by
  induction h with
  | nil => rfl
  | cons _ _ ih => rw [List.length_cons, List.length_cons, ih]

/-- **A cell of a path gets another successor**, with which the path ends. -/
theorem redirect {front rest : List ℕ} {l a : ℕ} {prev : Option ℕ} {packet : P}
    (h : Path items start (front ++ l :: rest) packets)
    (hfront : ∀ b ∈ front, items' b = items b)
    (hl : ∀ cell, items l = some cell → items' l = some { cell with next := some a })
    (ha : items' a = some ⟨none, prev, packet⟩) :
    Path items' start (front ++ [l, a]) (packets.take (front.length + 1) ++ [packet]) := by
  induction front generalizing start packets with
  | nil =>
      cases h with
      | cons hcell hrest => exact .cons (hl _ hcell) (.cons ha .nil)
  | cons b front ih =>
      cases h with
      | cons hcell hrest =>
          obtain ⟨hb, hfront⟩ := List.forall_mem_cons.mp hfront
          exact .cons (hb.trans hcell) (ih hrest hfront)

end Path

/-- The shape of a queue, whose cells have addresses below `fresh`. -/
inductive Shape (fresh : ℕ) (queue : Packetq P) : View P → Prop
  | row {addrs : List ℕ} {packets : List P} (path : Path queue.items queue.first addrs packets)
      (hlast : queue.last = addrs.getLast?) : Shape fresh queue (.row packets)
  | behind {front : List ℕ} {l e : ℕ} {first : P} {packets : List P} {extra : P}
      (path : Path queue.items queue.first (front ++ [l, e]) (first :: packets ++ [extra]))
      (hlast : queue.last = some l) : Shape fresh queue (.behind first packets extra)
  | stray {l e : ℕ} {extra : P} (path : Path queue.items queue.first [e] [extra])
      (hlast : queue.last = some l) (hfreed : queue.items l = none) (hl : l < fresh) :
      Shape fresh queue (.stray extra)

/-- **The view of a descriptor's queue.** -/
structure Shows (d : Desc P) (view : View P) : Prop where
  shape : Shape d.fresh d.queue view
  /-- The count is at least the number of packets. -/
  count : (view.contents.length : ℤ) ≤ d.queue.count
  /-- Addresses from `fresh` on were never given out. -/
  fresh : ∀ a, d.fresh ≤ a → d.queue.items a = none

/-- Obtaining the first packet of a path. -/
theorem get_path {queue : Packetq P} {a : ℕ} {addrs : List ℕ} {packet : P} {packets : List P}
    (h : Path queue.items queue.first (a :: addrs) (packet :: packets)) :
    ∃ queue', packetqGet queue = some (some packet, queue.count - 1, queue') ∧
      Path queue'.items queue'.first addrs packets ∧ queue'.count = queue.count - 1 ∧
      queue'.last = (if addrs = [] then none else queue.last) ∧ queue'.items a = none ∧
      ∀ b, queue.items b = none → queue'.items b = none := by
  obtain ⟨items, count, start, last⟩ := queue
  have hnodup := h.nodup
  obtain ⟨hnot, -⟩ := List.nodup_cons.mp hnodup
  cases h with
  | @cons _ next prev _ _ _ hcell hrest =>
      have herased := hrest.update hnot none
      have hframe (b : ℕ) (hb : items b = none) : Function.update items a none b = none := by
        by_cases hba : b = a
        · rw [hba, Function.update_self]
        · rw [Function.update_of_ne hba, hb]
      cases herased with
      | nil =>
          refine ⟨⟨Function.update items a none, count - 1, none, none⟩, ?_, .nil, rfl, rfl,
            Function.update_self .., hframe⟩
          have hitem : items a = some ⟨none, prev, packet⟩ := hcell
          simp [packetqGet, hitem]
      | @cons b next' prev' packet' addrs' _ hcell' hrest' =>
          have hitem : items a = some ⟨some b, prev, packet⟩ := hcell
          have hba : b ≠ a := by
            rintro rfl
            exact hnot List.mem_cons_self
          refine ⟨⟨Function.update (Function.update items a none) b (some ⟨next', none, packet'⟩),
            count - 1, some b, last⟩, ?_, ?_, rfl, rfl, ?_, fun c hc => ?_⟩
          · simp [packetqGet, hitem, hcell']
          · refine Path.congr (.cons hcell' hrest') fun c _ cell hcellc => ?_
            by_cases hcb : c = b
            · subst hcb
              obtain rfl := Option.some.inj (hcell'.symm.trans hcellc)
              exact ⟨none, Function.update_self ..⟩
            · exact ⟨cell.prev, (Function.update_of_ne hcb ..).trans hcellc⟩
          · exact (Function.update_of_ne hba.symm ..).trans (Function.update_self ..)
          · have hcb : c ≠ b := by
              rintro rfl
              rw [hframe c hc] at hcell'
              cases hcell'
            exact (Function.update_of_ne hcb ..).trans (hframe c hc)

/-- Putting a packet behind the cell that `last` points to. -/
theorem put_path {queue : Packetq P} {a l : ℕ} {front rest : List ℕ} {packets : List P}
    (h : Path queue.items queue.first (front ++ l :: rest) packets)
    (hlast : queue.last = some l) (ha : queue.items a = none) (packet : P) :
    ∃ queue', packetqPut a packet queue = some (queue.count + 1, queue') ∧
      Path queue'.items queue'.first (front ++ [l, a])
        (packets.take (front.length + 1) ++ [packet]) ∧
      queue'.count = queue.count + 1 ∧ queue'.last = some l ∧
      ∀ b, b ≠ a → queue.items b = none → queue'.items b = none := by
  obtain ⟨items, count, start, last⟩ := queue
  obtain rfl : last = some l := hlast
  have hnodup := h.nodup
  rw [List.nodup_append] at hnodup
  have hnl : l ∉ front := fun hmem => hnodup.2.2 l hmem l List.mem_cons_self rfl
  obtain ⟨cell, hcell⟩ := Option.isSome_iff_exists.mp (h.isSome (List.mem_append_right front
    (List.mem_cons_self (l := rest))))
  have hla : l ≠ a := by
    rintro rfl
    rw [ha] at hcell
    cases hcell
  obtain ⟨f, hfirst⟩ : ∃ f, start = some f := by
    cases front <;> cases h <;> exact ⟨_, rfl⟩
  subst hfirst
  have hitem : items l = some cell := hcell
  refine ⟨_, by
    simp only [packetqPut, Option.bind_eq_bind, Option.bind_some, Function.update_of_ne hla, hitem,
      Function.update_of_ne hla.symm, Function.update_self]
    rfl, ?_, rfl, rfl, fun b hb hnone => ?_⟩
  · refine h.redirect (fun b hb => ?_) (fun c hc => ?_) (Function.update_self ..)
    · have hba : b ≠ a := by
        rintro rfl
        have := h.isSome (List.mem_append_left _ hb)
        rw [ha] at this
        cases this
      have hbl : b ≠ l := by
        rintro rfl
        exact hnl hb
      exact (Function.update_of_ne hba ..).trans
        ((Function.update_of_ne hbl ..).trans (Function.update_of_ne hba ..))
    · obtain rfl := Option.some.inj (hcell.symm.trans hc)
      exact (Function.update_of_ne hla ..).trans (Function.update_self ..)
  · have hbl : b ≠ l := by
      rintro rfl
      rw [hnone] at hcell
      cases hcell
    exact (Function.update_of_ne hb ..).trans
      ((Function.update_of_ne hbl ..).trans ((Function.update_of_ne hb ..).trans hnone))

variable {d : Desc P} {view view' : View P} {packet : P}

/-- **Obtaining a packet** is obtaining it from the view. -/
theorem Shows.get (h : Shows d view) (hget : view.get = some (packet, view')) :
    ∃ ret queue, packetqGet d.queue = some (some packet, ret, queue) ∧ ret ≠ -1 ∧
      Shows { d with queue := queue } view' := by
  have hlen := congrArg List.length (View.contents_of_get hget)
  have hcount := h.count
  rw [hlen, List.length_cons] at hcount
  have hwrap {queue : Packetq P} (hshape : Shape d.fresh queue view')
      (hcount' : queue.count = d.queue.count - 1)
      (hframe : ∀ b, d.queue.items b = none → queue.items b = none) :
      Shows { d with queue := queue } view' :=
    ⟨hshape, by simp only; omega, fun a ha => hframe a (h.fresh a ha)⟩
  have hbound {l : ℕ} (hl : (d.queue.items l).isSome) : l < d.fresh := by
    by_contra hge
    rw [h.fresh l (Nat.not_lt.mp hge)] at hl
    cases hl
  cases h.shape with
  | @row addrs packets path hlast =>
      cases packets with
      | nil => cases hget
      | cons first rest =>
          obtain ⟨rfl, rfl⟩ := Prod.mk.inj (Option.some.inj hget)
          cases addrs with
          | nil => cases path.length_eq
          | cons a addrs =>
              obtain ⟨queue, hrun, hpath, hcount', hlast', -, hframe⟩ := get_path path
              refine ⟨_, queue, hrun, by omega, hwrap (.row hpath ?_) hcount' hframe⟩
              rw [hlast', hlast]
              cases addrs <;> simp [List.getLast?_cons]
  | @behind front l e first packets extra path hlast =>
      cases front with
      | nil =>
          have hlength := path.length_eq
          cases packets with
          | cons => simp at hlength
          | nil =>
              obtain ⟨rfl, rfl⟩ := Prod.mk.inj (Option.some.inj hget)
              obtain ⟨queue, hrun, hpath, hcount', hlast', hfreed, hframe⟩ := get_path path
              refine ⟨_, queue, hrun, by omega, hwrap (.stray hpath ?_ hfreed
                (hbound (path.isSome List.mem_cons_self))) hcount' hframe⟩
              rw [hlast', if_neg (by simp), hlast]
      | cons a front =>
          have hlength := path.length_eq
          cases packets with
          | nil => simp at hlength
          | cons second rest =>
              obtain ⟨rfl, rfl⟩ := Prod.mk.inj (Option.some.inj hget)
              obtain ⟨queue, hrun, hpath, hcount', hlast', -, hframe⟩ := get_path path
              refine ⟨_, queue, hrun, by omega, hwrap (.behind hpath ?_) hcount' hframe⟩
              rw [hlast', if_neg (by simp), hlast]
  | stray path hlast hfreed hl =>
      obtain ⟨rfl, rfl⟩ := Prod.mk.inj (Option.some.inj hget)
      obtain ⟨queue, hrun, hpath, hcount', hlast', -, hframe⟩ := get_path path
      refine ⟨_, queue, hrun, by omega, hwrap (.row hpath ?_) hcount' hframe⟩
      rw [hlast', if_pos rfl, List.getLast?_nil]

/-- Nothing is obtained from an empty queue. -/
theorem Shows.get_empty (h : Shows d (.row [])) :
    packetqGet d.queue = some (none, -1, d.queue) := by
  have hfirst : d.queue.first = none := by
    cases h.shape with
    | row path =>
        generalize d.queue.first = start at path
        cases path
        rfl
  rw [packetqGet, hfirst]

/-- **Putting a packet** is putting it into the view. -/
theorem Shows.put (h : Shows d view) (hput : view.put packet = some view') :
    ∃ count d', d.put packet = some (count, d') ∧ count ≠ -1 ∧ d'.stream = d.stream ∧
      Shows d' view' := by
  have hfresh := h.fresh d.fresh (Nat.le_refl _)
  have hlen := View.length_put hput
  have hcount := h.count
  have hpos : (0 : ℤ) ≤ d.queue.count := by omega
  have hwrap {queue : Packetq P} (hrun : packetqPut d.fresh packet d.queue =
        some (d.queue.count + 1, queue)) (hshape : Shape (d.fresh + 1) queue view')
      (hcount' : queue.count = d.queue.count + 1)
      (hframe : ∀ b, b ≠ d.fresh → d.queue.items b = none → queue.items b = none) :
      ∃ count d', d.put packet = some (count, d') ∧ count ≠ -1 ∧ d'.stream = d.stream ∧
        Shows d' view' := by
    refine ⟨d.queue.count + 1, { d with queue := queue, fresh := d.fresh + 1 }, ?_, by omega, rfl,
      hshape, by simp only; omega, fun a ha => ?_⟩
    · rw [Desc.put, hrun]
      rfl
    · have hge : d.fresh + 1 ≤ a := ha
      exact hframe a (by omega) (h.fresh a (by omega))
  cases h.shape with
  | @row addrs packets path hlast =>
      cases packets with
      | nil =>
          obtain rfl := Option.some.inj hput
          have hfirst : d.queue.first = none := by
            generalize d.queue.first = start at path
            cases path
            rfl
          have hrun : packetqPut d.fresh packet d.queue = some (d.queue.count + 1,
              ⟨Function.update d.queue.items d.fresh (some ⟨none, none, packet⟩),
                d.queue.count + 1, some d.fresh, some d.fresh⟩) := by
            rw [packetqPut, hfirst]
          refine hwrap hrun (@Shape.row _ _ _ [d.fresh] _ ?_ rfl) rfl fun b hb hnone =>
            (Function.update_of_ne hb ..).trans hnone
          exact .cons (Function.update_self ..) .nil
      | cons first rest =>
          obtain rfl := Option.some.inj hput
          obtain ⟨front, l, rfl⟩ : ∃ front l, addrs = front ++ [l] := by
            rcases List.eq_nil_or_concat addrs with rfl | ⟨front, l, rfl⟩
            · cases path.length_eq
            · exact ⟨front, l, by rw [List.concat_eq_append]⟩
          have hlength := path.length_eq
          obtain ⟨queue, hrun, hpath, hcount', hlast', hframe⟩ :=
            put_path path (by rw [hlast]; simp) hfresh packet
          refine hwrap hrun (@Shape.behind _ _ _ front l d.fresh _ _ _ ?_ hlast') hcount' hframe
          rw [List.take_of_length_le (by simp at hlength ⊢; omega)] at hpath
          exact hpath
  | @behind front l e first packets extra path hlast =>
      obtain rfl := Option.some.inj hput
      have hlength := path.length_eq
      obtain ⟨queue, hrun, hpath, hcount', hlast', hframe⟩ := put_path path hlast hfresh packet
      refine hwrap hrun (@Shape.behind _ _ _ front l d.fresh _ _ _ ?_ hlast') hcount' hframe
      rw [List.take_append_of_le_length (by simp at hlength ⊢; omega),
        List.take_of_length_le (by simp at hlength ⊢; omega)] at hpath
      exact hpath
  | stray => cases hput

/-- **Putting a packet behind a cell that was freed.** -/
theorem Shows.put_fault (h : Shows d view) (hput : view.put packet = none) :
    d.put packet = none := by
  cases h.shape with
  | @row addrs packets path hlast => cases packets <;> cases hput
  | behind => cases hput
  | @stray l e extra path hlast hfreed hl =>
      obtain ⟨first, hfirst⟩ : ∃ first, d.queue.first = some first := by
        generalize d.queue.first = start at path
        cases path
        exact ⟨_, rfl⟩
      have hne : l ≠ d.fresh := by omega
      rw [Desc.put, packetqPut, hfirst]
      simp [hlast, Function.update_of_ne hne, hfreed]

/-! ### The loop on views -/

/-- Several puts into a row that ends behind `last`: the last packet stays. -/
theorem View.putAll_behind (first : P) (packets : List P) (extra : P) (rest : List P) :
    (View.behind first packets extra).putAll rest =
      some (.behind first packets (rest.getLastD extra)) := by
  induction rest generalizing extra with
  | nil => rfl
  | cons packet rest ih =>
      rw [View.putAll, View.put, Option.bind_some, ih, List.getLastD_cons]

/-- The empty queue after several puts: the first and the last packet stay. -/
def View.ofPuts : List P → View P
  | [] => .row []
  | [first] => .row [first]
  | first :: second :: rest => .behind first [] (rest.getLastD second)

/-- Several puts into the empty queue. -/
theorem View.putAll_empty (packets : List P) :
    (View.row []).putAll packets = some (.ofPuts packets) := by
  match packets with
  | [] => rfl
  | [first] => rfl
  | first :: second :: rest =>
      rw [View.putAll, View.put, Option.bind_some, View.putAll, View.put, Option.bind_some,
        View.putAll_behind]
      rfl

/-- Queueing packets is putting them into the view. -/
theorem Shows.putAll {packets : List P} (h : Shows d view)
    (hput : view.putAll packets = some view') :
    ∃ d', d.putAll packets = some d' ∧ d'.stream = d.stream ∧ Shows d' view' := by
  induction packets generalizing d view with
  | nil =>
      obtain rfl := Option.some.inj hput
      exact ⟨d, rfl, rfl, h⟩
  | cons packet packets ih =>
      obtain ⟨mid, hone, hrest⟩ := Option.bind_eq_some_iff.mp hput
      obtain ⟨count, d₁, hrun, -, hstream, hshows⟩ := h.put hone
      obtain ⟨d₂, hrun₂, hstream₂, hshows₂⟩ := ih hshows hrest
      exact ⟨d₂, by simp [Desc.putAll, hrun, hrun₂], hstream₂.trans hstream, hshows₂⟩

/-- `SEAP_packet_recv` on a view and a stream. -/
def viewRecv (view : View P) (stream : List (List P)) :
    Option (View P × List (List P) × Option P) :=
  match view.get with
  | some (packet, view) => some (view, stream, some packet)
  | none =>
    match receiveBatch stream with
    | none => some (view, [], none)
    | some (packet, rest, stream) =>
        (view.putAll rest).map fun view => (view, stream, some packet)

/-- `SEAP_packet_recv_bytype` on a view and a stream. -/
def viewRecvBytype [DecidableEq T] (ptype : P → T) (type : T) :
    ℕ → View P → List (List P) → Option (Option (View P × List (List P) × Option P))
  | 0, _, _ => none
  | fuel + 1, view, stream =>
      match viewRecv view stream with
      | none => some none
      | some (view, stream, none) => some (some (view, stream, none))
      | some (view, stream, some packet) =>
          if ptype packet = type then some (some (view, stream, some packet))
          else
            match view.put packet with
            | none => some none
            | some view => viewRecvBytype ptype type fuel view stream

/-- What a call returns, next to what it returns on the view. -/
inductive Agrees : Option (Ended P) → Option (Option (View P × List (List P) × Option P)) → Prop
  | running : Agrees none none
  | fault : Agrees (some none) (some none)
  | returned {d : Desc P} {view : View P} {ret : ℤ} {packet : Option P} (h : Shows d view)
      (hret : ret = 0 ↔ packet.isSome) :
      Agrees (some (some (d, ret, packet))) (some (some (view, d.stream, packet)))

/-- **Receiving a packet** is receiving it on the view. -/
theorem Shows.recv (h : Shows d view) :
    ∃ view' stream packet d' ret, viewRecv view d.stream = some (view', stream, packet) ∧
      packetRecv d = some (d', ret, packet) ∧ (ret = 0 ↔ packet.isSome) ∧ d'.stream = stream ∧
      Shows d' view' := by
  cases hget : view.get with
  | some got =>
      obtain ⟨packet, view'⟩ := got
      obtain ⟨ret, queue, hrun, hret, hshows⟩ := h.get hget
      refine ⟨view', d.stream, some packet, { d with queue := queue }, 0, ?_, ?_, by simp, rfl,
        hshows⟩
      · rw [viewRecv, hget]
      · simp [packetRecv, hrun, hret]
  | none =>
      obtain rfl := View.get_eq_none hget
      have hrun := h.get_empty
      cases hbatch : receiveBatch d.stream with
      | none =>
          refine ⟨.row [], [], none, { d with stream := [] }, -1, ?_, ?_, by simp, rfl,
            h.shape, h.count, h.fresh⟩
          · simp only [viewRecv, hget, hbatch]
          · simp [packetRecv, hrun, hbatch]
      | some batch =>
          obtain ⟨packet, rest, stream⟩ := batch
          have hshows : Shows { d with stream := stream } (.row []) := ⟨h.shape, h.count, h.fresh⟩
          obtain ⟨d', hput, hstream, hshows'⟩ := hshows.putAll (View.putAll_empty rest)
          refine ⟨_, stream, some packet, d', 0, ?_, ?_, by simp, hstream, hshows'⟩
          · simp only [viewRecv, hget, hbatch, View.putAll_empty, Option.map_some]
          · simp [packetRecv, hrun, hbatch, hput]

/-- **The loop on a descriptor is the loop on its view.** -/
theorem recvBytype_refines [DecidableEq T] (ptype : P → T) (type : T) (fuel : ℕ)
    (h : Shows d view) :
    Agrees (packetRecvBytype ptype type fuel d)
      (viewRecvBytype ptype type fuel view d.stream) := by
  induction fuel generalizing d view with
  | zero => exact .running
  | succ fuel ih =>
      obtain ⟨view', stream, packet, d', ret, hview, hrun, hret, rfl, hshows⟩ := h.recv
      rw [packetRecvBytype, viewRecvBytype, hrun, hview]
      cases packet with
      | none =>
          have hne : ret ≠ 0 := fun he => by simpa using hret.mp he
          simp only [if_pos hne]
          exact .returned hshows hret
      | some packet =>
          obtain rfl := hret.mpr rfl
          simp only [ne_eq, not_true_eq_false, if_false]
          by_cases htype : ptype packet = type
          · rw [if_pos htype, if_pos htype]
            exact .returned hshows hret
          · rw [if_neg htype, if_neg htype]
            cases hput : view'.put packet with
            | none =>
                rw [hshows.put_fault hput]
                exact .fault
            | some view'' =>
                obtain ⟨count, d'', hrun', hcount, hstream, hshows'⟩ := hshows.put hput
                simp only [hrun', if_neg hcount]
                rw [← hstream]
                exact ih hshows'

/-! ### What is left in a queue -/

/-- The contents of a view are what is obtained from the queue. -/
theorem Shows.obtains (h : Shows d view) : Obtains d.queue view.contents := by
  generalize hn : view.contents.length = n
  induction n generalizing d view with
  | zero =>
      cases hget : view.get with
      | some got =>
          rw [View.contents_of_get hget] at hn
          cases hn
      | none =>
          obtain rfl := View.get_eq_none hget
          refine .empty ?_
          cases h.shape with
          | row path =>
              generalize d.queue.first = start at path
              cases path
              rfl
  | succ n ih =>
      cases hget : view.get with
      | none =>
          obtain rfl := View.get_eq_none hget
          cases hn
      | some got =>
          obtain ⟨packet, view'⟩ := got
          obtain ⟨ret, queue, hrun, -, hshows⟩ := h.get hget
          rw [View.contents_of_get hget] at hn ⊢
          exact .next hrun (ih hshows (by simpa using hn))

/-- What is obtained is determined. -/
theorem Obtains.unique {queue : Packetq P} {xs ys : List P} (hx : Obtains queue xs)
    (hy : Obtains queue ys) : xs = ys := by
  have hnone {queue : Packetq P} (hfirst : queue.first = none) :
      packetqGet queue = some (none, -1, queue) := by rw [packetqGet, hfirst]
  induction hx generalizing ys with
  | empty h =>
      cases hy with
      | empty => rfl
      | next hget =>
          rw [hnone h] at hget
          cases hget
  | next hget _ ih =>
      cases hy with
      | empty h =>
          rw [hnone h] at hget
          cases hget
      | next hget' hrest' =>
          rw [hget] at hget'
          obtain ⟨hp, hqueue⟩ := Prod.mk.inj (Option.some.inj hget')
          obtain ⟨-, rfl⟩ := Prod.mk.inj hqueue
          rw [Option.some.inj hp, ih hrest']

/-! ### Nothing is added -/

/-- What arrives next is what stands first in the stream. -/
theorem receiveBatch_some {stream stream' : List (List P)} {rest : List P}
    (h : receiveBatch stream = some (packet, rest, stream')) :
    stream.flatten = packet :: rest ++ stream'.flatten := by
  induction stream with
  | nil => cases h
  | cons batch stream ih =>
      cases batch with
      | nil => exact ih h
      | cons first others =>
          obtain ⟨rfl, hrest⟩ := Prod.mk.inj (Option.some.inj h)
          obtain ⟨rfl, rfl⟩ := Prod.mk.inj hrest
          rfl

/-- Nothing arrives when the stream has no packet. -/
theorem receiveBatch_none {stream : List (List P)} (h : receiveBatch stream = none) :
    stream.flatten = [] := by
  induction stream with
  | nil => rfl
  | cons batch stream ih =>
      cases batch with
      | nil => exact ih h
      | cons => cases h

variable {stream stream' : List (List P)} {answer : Option P} {packets : List P}
  {ptype : P → T} {type : T}

/-- The right answer loses no packet. -/
theorem RightAnswer.length_eq {left : List P} (h : RightAnswer ptype type packets answer left) :
    packets.length = left.length + answer.toList.length := by
  cases h with
  | found hall =>
      rw [hall]
      simp
      omega
  | absent => simp

/-- The right answer is the first packet of the type, and all others are left. -/
theorem rightAnswer_iff {skipped others left : List P}
    (hskipped : ∀ p ∈ skipped, ptype p ≠ type) (htype : ptype packet = type) :
    RightAnswer ptype type (skipped ++ packet :: others) (some packet) left ↔
      left = skipped ++ others := by
  constructor
  · intro h
    cases h with
    | @found skipped' others' _ hall hskipped' htype' =>
        rcases List.append_eq_append_iff.mp hall with ⟨more, rfl, htail⟩ | ⟨more, rfl, htail⟩
        · cases more with
          | nil =>
              obtain ⟨-, rfl⟩ := List.cons.inj htail
              simp
          | cons q more =>
              obtain ⟨rfl, -⟩ := List.cons.inj htail
              exact absurd htype (hskipped' _ (by simp))
        · cases more with
          | nil =>
              obtain ⟨-, rfl⟩ := List.cons.inj htail
              simp
          | cons q more =>
              obtain ⟨rfl, -⟩ := List.cons.inj htail
              exact absurd htype (hskipped _ (by simp))
  · rintro rfl
    exact .found rfl hskipped htype

/-- A receive adds no packet. -/
theorem viewRecv_length (h : viewRecv view stream = some (view', stream', answer)) :
    (view'.contents ++ stream'.flatten).length + answer.toList.length ≤
      (view.contents ++ stream.flatten).length := by
  rw [viewRecv] at h
  cases hget : view.get with
  | some got =>
      obtain ⟨packet, view₁⟩ := got
      rw [hget] at h
      obtain ⟨rfl, hrest⟩ := Prod.mk.inj (Option.some.inj h)
      obtain ⟨rfl, rfl⟩ := Prod.mk.inj hrest
      rw [View.contents_of_get hget]
      simp
  | none =>
      rw [hget] at h
      cases hbatch : receiveBatch stream with
      | none =>
          rw [hbatch] at h
          obtain ⟨rfl, hrest⟩ := Prod.mk.inj (Option.some.inj h)
          obtain ⟨rfl, rfl⟩ := Prod.mk.inj hrest
          rw [receiveBatch_none hbatch]
          simp
      | some batch =>
          obtain ⟨packet, rest, stream₁⟩ := batch
          rw [hbatch] at h
          obtain ⟨view₁, hput, hview⟩ := Option.map_eq_some_iff.mp h
          obtain ⟨rfl, hrest⟩ := Prod.mk.inj hview
          obtain ⟨rfl, rfl⟩ := Prod.mk.inj hrest
          have hlen := View.length_putAll hput
          rw [receiveBatch_some hbatch]
          simp
          omega

variable [DecidableEq T]

/-- **No call adds a packet.** -/
theorem viewLoop_length {fuel : ℕ} (h : viewRecvBytype ptype type fuel view stream =
      some (some (view', stream', answer))) :
    (view'.contents ++ stream'.flatten).length + answer.toList.length ≤
      (view.contents ++ stream.flatten).length := by
  induction fuel generalizing view stream with
  | zero => cases h
  | succ fuel ih =>
      rw [viewRecvBytype] at h
      split at h
      · cases h
      · rename_i hrecv
        obtain ⟨rfl, hrest⟩ := Prod.mk.inj (Option.some.inj (Option.some.inj h))
        obtain ⟨rfl, rfl⟩ := Prod.mk.inj hrest
        exact viewRecv_length hrecv
      · rename_i view₁ stream₁ packet hrecv
        split at h
        · obtain ⟨rfl, hrest⟩ := Prod.mk.inj (Option.some.inj (Option.some.inj h))
          obtain ⟨rfl, rfl⟩ := Prod.mk.inj hrest
          exact viewRecv_length hrecv
        · split at h
          · cases h
          · rename_i view₂ hput
            have hone := viewRecv_length hrecv
            have hback := View.length_put hput
            have hmany := ih h
            simp only [List.length_append, Option.toList_some, List.length_singleton]
              at hone hback hmany ⊢
            omega

/-! ### When the answer is right -/

/-- The loop on a view ends with the right answer for some packets. -/
def AnswersFor (ptype : P → T) (type : T) (packets : List P) (view : View P)
    (stream : List (List P)) : Prop :=
  ∃ fuel view' stream' answer,
    viewRecvBytype ptype type fuel view stream = some (some (view', stream', answer)) ∧
    RightAnswer ptype type packets answer (view'.contents ++ stream'.flatten)

/-- What is lost before the loop makes the answer wrong. -/
theorem not_answersFor_of_lost
    (hlost : (view.contents ++ stream.flatten).length < packets.length) :
    ¬ AnswersFor ptype type packets view stream := by
  rintro ⟨fuel, view', stream', answer, hrun, hright⟩
  have hle := viewLoop_length hrun
  have heq := hright.length_eq
  omega

/-- A single packet of another type is obtained and put back for ever. -/
theorem not_answersFor_single (htype : ptype packet ≠ type) :
    ¬ AnswersFor ptype type packets (.row [packet]) stream := by
  rintro ⟨fuel, view', stream', answer, hrun, -⟩
  have hloop : viewRecvBytype ptype type fuel (.row [packet]) stream = none := by
    clear hrun
    induction fuel with
    | zero => rfl
    | succ fuel ih =>
        rw [viewRecvBytype]
        simp only [viewRecv, View.get, if_neg htype, View.put]
        exact ih
  rw [hloop] at hrun
  cases hrun

/-- **One round**: the packet received is the answer, or it is put back. -/
theorem answersFor_iff_of_recv {view₁ : View P}
    (hrecv : viewRecv view stream = some (view₁, stream', some packet)) :
    AnswersFor ptype type packets view stream ↔
      (ptype packet = type ∧
        RightAnswer ptype type packets (some packet) (view₁.contents ++ stream'.flatten)) ∨
      (ptype packet ≠ type ∧
        ∃ view₂, view₁.put packet = some view₂ ∧ AnswersFor ptype type packets view₂ stream') := by
  constructor
  · rintro ⟨fuel, view', stream'', answer, hrun, hright⟩
    cases fuel with
    | zero => cases hrun
    | succ fuel =>
        rw [viewRecvBytype, hrecv] at hrun
        dsimp only at hrun
        by_cases htype : ptype packet = type
        · rw [if_pos htype] at hrun
          obtain ⟨rfl, hrest⟩ := Prod.mk.inj (Option.some.inj (Option.some.inj hrun))
          obtain ⟨rfl, rfl⟩ := Prod.mk.inj hrest
          exact .inl ⟨htype, hright⟩
        · rw [if_neg htype] at hrun
          cases hput : view₁.put packet with
          | none =>
              rw [hput] at hrun
              cases hrun
          | some view₂ =>
              rw [hput] at hrun
              exact .inr ⟨htype, view₂, rfl, fuel, view', stream'', answer, hrun, hright⟩
  · rintro (⟨htype, hright⟩ | ⟨htype, view₂, hput, fuel, view', stream'', answer, hrun, hright⟩)
    · refine ⟨1, view₁, stream', some packet, ?_, hright⟩
      rw [viewRecvBytype, hrecv]
      exact if_pos htype
    · refine ⟨fuel + 1, view', stream'', answer, ?_, hright⟩
      rw [viewRecvBytype, hrecv]
      simp only [if_neg htype, hput]
      exact hrun

/-- A first packet of another type, with the row behind it: the second one has to be of the
type, and the first one comes behind all others. -/
theorem answersFor_behind {first second : P} {others : List P} (htype : ptype first ≠ type) :
    AnswersFor ptype type (first :: second :: others ++ stream.flatten)
        (.behind second others first) stream ↔
      ptype second = type ∧ others ++ [first] = first :: others := by
  obtain ⟨view₁, hrecv, hcontents, hput⟩ : ∃ view₁,
      viewRecv (.behind second others first) stream = some (view₁, stream, some second) ∧
        view₁.contents = others ++ [first] ∧
        ∀ view₂, view₁.put second = some view₂ → view₂.contents.length = others.length + 1 := by
    cases others with
    | nil => exact ⟨.stray first, rfl, rfl, fun _ h => nomatch h⟩
    | cons third others =>
        refine ⟨.behind third others first, rfl, rfl, fun view₂ h => ?_⟩
        obtain rfl := Option.some.inj h
        simp [View.contents]
  have hskipped : ∀ p ∈ [first], ptype p ≠ type := by simpa using htype
  rw [answersFor_iff_of_recv hrecv]
  constructor
  · rintro (⟨hsecond, hright⟩ | ⟨-, view₂, hput₂, hanswers⟩)
    · rw [show first :: second :: others ++ stream.flatten =
        [first] ++ second :: (others ++ stream.flatten) from rfl,
        rightAnswer_iff hskipped hsecond, hcontents] at hright
      have hcancel : (others ++ [first]) ++ stream.flatten =
          (first :: others) ++ stream.flatten := by
        simpa using hright
      exact ⟨hsecond, List.append_cancel_right hcancel⟩
    · refine absurd hanswers (not_answersFor_of_lost ?_)
      have := hput view₂ hput₂
      simp
      omega
  · rintro ⟨hsecond, hback⟩
    refine .inl ⟨hsecond, ?_⟩
    rw [show first :: second :: others ++ stream.flatten =
      [first] ++ second :: (others ++ stream.flatten) from rfl,
      rightAnswer_iff hskipped hsecond, hcontents, hback]
    simp

/-- Packets that are queued. -/
theorem answersFor_queued (first : P) (rest : List P) (stream : List (List P)) :
    AnswersFor ptype type (first :: rest ++ stream.flatten) (.row (first :: rest)) stream ↔
      Receivable ptype type (first :: rest) stream := by
  have hrecv : viewRecv (.row (first :: rest)) stream = some (.row rest, stream, some first) := rfl
  rw [answersFor_iff_of_recv hrecv, Receivable]
  by_cases htype : ptype first = type
  · refine iff_of_true (.inl ⟨htype, ?_⟩) (.inl htype)
    exact @RightAnswer.found _ _ _ _ _ [] _ _ rfl (fun _ h => nomatch h) htype
  · simp only [htype, false_and, false_or, ne_eq, not_false_eq_true, true_and]
    cases rest with
    | nil =>
        refine iff_of_false ?_ (by simp)
        rintro ⟨view₂, hput, hanswers⟩
        obtain rfl := Option.some.inj hput
        exact not_answersFor_single htype hanswers
    | cons second others =>
        have hbehind : AnswersFor ptype type (first :: second :: others ++ stream.flatten)
            (.behind second others first) stream ↔ _ := answersFor_behind htype
        constructor
        · rintro ⟨view₂, hput, hanswers⟩
          obtain rfl := Option.some.inj hput
          exact ⟨second, others, rfl, hbehind.mp hanswers⟩
        · rintro ⟨second', others', heq, hright⟩
          obtain ⟨rfl, rfl⟩ := List.cons.inj heq
          exact ⟨_, rfl, hbehind.mpr hright⟩

/-- Packets that arrive when none is queued. -/
theorem answersFor_arriving (stream : List (List P)) :
    AnswersFor ptype type stream.flatten (.row []) stream ↔ Receivable ptype type [] stream := by
  rw [Receivable]
  cases hbatch : receiveBatch stream with
  | none =>
      refine iff_of_true ⟨1, .row [], [], none, ?_, ?_⟩ trivial
      · simp [viewRecvBytype, viewRecv, View.get, hbatch]
      · rw [receiveBatch_none hbatch]
        exact .absent fun _ h => nomatch h
  | some batch =>
      obtain ⟨first, rest, stream'⟩ := batch
      have hrecv : viewRecv (.row []) stream = some (.ofPuts rest, stream', some first) := by
        simp only [viewRecv, View.get, hbatch, View.putAll_empty, Option.map_some]
      rw [answersFor_iff_of_recv hrecv, receiveBatch_some hbatch]
      by_cases htype : ptype first = type
      · simp only [htype, true_and, if_true, ne_eq, not_true_eq_false, false_and, or_false]
        have hright : RightAnswer ptype type ([] ++ first :: (rest ++ stream'.flatten)) (some first)
            ((View.ofPuts rest).contents ++ stream'.flatten) ↔
              (View.ofPuts rest).contents ++ stream'.flatten = [] ++ (rest ++ stream'.flatten) :=
          rightAnswer_iff (fun _ h => nomatch h) htype
        rw [List.nil_append, List.nil_append, List.append_cancel_right_eq] at hright
        refine hright.trans ?_
        match rest with
        | [] => simp [View.ofPuts, View.contents]
        | [second] => simp [View.ofPuts, View.contents]
        | [second, third] => simp [View.ofPuts, View.contents]
        | second :: third :: fourth :: others =>
            simp [View.ofPuts, View.contents]
      · simp only [htype, false_and, if_false, false_or, ne_eq, not_false_eq_true, true_and]
        match rest with
        | [] =>
            refine iff_of_false ?_ (by simp)
            rintro ⟨view₂, hput, hanswers⟩
            obtain rfl := Option.some.inj hput
            exact not_answersFor_single htype hanswers
        | [second] =>
            have hbehind : AnswersFor ptype type ([first, second] ++ stream'.flatten)
                (.behind second [] first) stream' ↔ _ := answersFor_behind htype
            simp only [View.ofPuts, View.put]
            constructor
            · rintro ⟨view₂, hput, hanswers⟩
              obtain rfl := Option.some.inj hput
              exact ⟨second, rfl, (hbehind.mp hanswers).1⟩
            · rintro ⟨second', heq, hsecond⟩
              obtain ⟨rfl, -⟩ := List.cons.inj heq
              exact ⟨_, rfl, hbehind.mpr ⟨hsecond, rfl⟩⟩
        | second :: third :: others =>
            refine iff_of_false ?_ (by simp)
            rintro ⟨view₂, hput, hanswers⟩
            obtain rfl := Option.some.inj hput
            refine not_answersFor_of_lost ?_ hanswers
            simp only [View.contents, List.length_append, List.length_cons, List.length_nil]
            omega

/-- The packets of a descriptor are a row. -/
theorem Waiting.shows (w : Waiting P) : Shows w.desc (.row w.packets) := by
  obtain ⟨addrs, hpath, hlast⟩ := Path.of_chain w.holds.chain
  rw [Option.or_none] at hlast
  exact ⟨.row hpath hlast, by rw [w.holds.count_eq]; exact Int.le_refl _, w.fresh⟩

/-- The call on a descriptor answers as the loop on its view does. -/
theorem receivesByType_iff_answersFor (w : Waiting P) :
    ReceivesByType ptype type w ↔
      AnswersFor ptype type (w.packets ++ w.desc.stream.flatten) (.row w.packets)
        w.desc.stream := by
  constructor
  · rintro ⟨fuel, d, ret, packet, queued, hrun, -, hobtains, hright⟩
    have hagrees := recvBytype_refines ptype type fuel w.shows
    rw [hrun] at hagrees
    generalize hview : viewRecvBytype ptype type fuel (.row w.packets) w.desc.stream = result
      at hagrees
    cases hagrees with
    | returned hshows =>
        rw [hobtains.unique hshows.obtains] at hright
        exact ⟨fuel, _, _, _, hview, hright⟩
  · rintro ⟨fuel, view', stream', answer, hview, hright⟩
    have hagrees := recvBytype_refines ptype type fuel w.shows
    rw [hview] at hagrees
    generalize hrun : packetRecvBytype ptype type fuel w.desc = result at hagrees
    cases hagrees with
    | returned hshows hret =>
        exact ⟨fuel, _, _, _, _, hrun, hret, hshows.obtains, hright⟩

/-- A descriptor on which nothing is queued. -/
def Waiting.arriving (stream : List (List P)) : Waiting P :=
  ⟨⟨packetqInit, 0, stream⟩, [], .init, fun _ _ => rfl⟩

end OpenScap.SeapPacketq
