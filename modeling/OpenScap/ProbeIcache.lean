import OpenScap.GuardedRun
import OpenScap.RingBuffer
import Mathlib.Data.List.Forall2

/-!
# The item cache queue

`probe_icache_t` of `probes/probe/icache.c` is a bounded queue between the threads of a probe
and one cache worker. A producer calls `probe_icache_add` to have an item looked up in the cache
and added to its collected object, or `probe_icache_nop` to wait until everything enqueued so
far has been handled.

The model is a transition system over any number of producers (the type `τ`). A step is a
section between two points where a thread can be suspended: the code between taking the queue
mutex and giving it up (by unlocking it or by waiting on a condition), or one signal sent without
the mutex. A wait ends only through a signal; a signal with no thread waiting is lost. What
the worker does to an item is a parameter (`ItemOps`), and the initial contents of the slots,
which the code never initialises, are arbitrary.

## Main results

* `icache_correct` — in every run in which the worker never comes back from waiting for
  `queue_notempty` to an empty queue, the queue is correct in every state.
* `not_icache_correct` — a signal of `probe_icache_add`, sent after the mutex was released, can
  arrive when the worker has already drained the item it announces: the worker then extracts a
  request from the empty queue, and the count underflows.
-/

namespace OpenScap

/-! ### The queue -/

/-- `PROBE_IQUEUE_CAPACITY`. -/
def probeIqueueCapacity : ℕ := 1024

/-- `probe_iqpair_t`: a request for a collected object, or (when `cobj` is `NULL`) the condition
of the thread that waits for the queue to be drained. A thread has at most one such condition,
on the stack of its `probe_icache_nop`. -/
inductive ProbeIqpair (τ κ ι : Type)
  | request (cobj : κ) (item : ι)
  | nop (cond : τ)

/-- `probe_icache_t`: the cache tree, and the queue with its `uint16_t` indices. -/
structure ProbeIcache (τ κ ι : Type) where
  tree : UInt64 → Option (List ι)
  queue : ℕ → ProbeIqpair τ κ ι
  queueBeg : ℕ
  queueEnd : ℕ
  queueCnt : ℕ
  queueMax : ℕ

/-- A step of a `uint16_t`. -/
def succ16 (n : ℕ) : ℕ := (n + 1) % 65536

/-- A step back of a `uint16_t`. -/
def pred16 (n : ℕ) : ℕ := (n + 65535) % 65536

namespace ProbeIcache

variable {τ κ ι : Type}

/-- Writing a request at the end of the queue, in `__probe_icache_add_nolock`. -/
def enqueue (cache : ProbeIcache τ κ ι) (pair : ProbeIqpair τ κ ι) : ProbeIcache τ κ ι :=
  { cache with
    queue := Function.update cache.queue cache.queueEnd pair
    queueCnt := succ16 cache.queueCnt
    queueEnd :=
      if succ16 cache.queueEnd = cache.queueMax then 0 else succ16 cache.queueEnd }

/-- Extracting the request at the beginning of the queue, in `probe_icache_worker`. -/
def extract (cache : ProbeIcache τ κ ι) : ProbeIqpair τ κ ι × ProbeIcache τ κ ι :=
  (cache.queue cache.queueBeg,
    { cache with
      queueCnt := pred16 cache.queueCnt
      queueBeg :=
        if succ16 cache.queueBeg = cache.queueMax then 0 else succ16 cache.queueBeg })

/-- The assumption about the indices after an extraction. -/
def indicesAgree (cache : ProbeIcache τ κ ι) : Bool :=
  if cache.queueCnt = 0 then cache.queueEnd = cache.queueBeg else cache.queueEnd ≠ cache.queueBeg

end ProbeIcache

/-! ### The cache -/

/-- What the worker does to items: the hash `SEXP_ID_v`, the comparison `SEXP_deepcmp` of the
contents of two items, `probe_icache_item_setID` with the number that makes the identifier
unique, and `probe_item_optimize`. -/
structure ItemOps (ι : Type) where
  sexpID : ι → UInt64
  restDeepcmp : ι → ι → Bool
  setID : ι → UInt32 → ι
  itemOptimize : ι → ι

namespace ItemOps

variable {ι : Type}

/-- The handling of a cache request: the cached item with the same contents, or else the item
itself, stored under a fresh identifier. Returns the new tree, the new `next_ID` and the item
to be added. -/
def cacheRequest (ops : ItemOps ι) (tree : UInt64 → Option (List ι)) (nextID : UInt32) (item : ι) :
    (UInt64 → Option (List ι)) × UInt32 × ι :=
  let itemID := ops.sexpID item
  match tree itemID with
  | some cached =>
    match cached.find? (ops.restDeepcmp item) with
    | some hit => (tree, nextID, hit)
    | none =>
      let item' := ops.setID item nextID
      (Function.update tree itemID (some (cached ++ [item'])), nextID + 1, item')
  | none =>
    let item' := ops.setID item nextID
    (Function.update tree itemID (some [item']), nextID + 1, item')

/-- `added` stands for the item in a collected object: it is what `probe_cobj_add_item` stores of
the item under some identifier, or of a cached item with the same contents. -/
def Stands (ops : ItemOps ι) (item added : ι) : Prop :=
  ∃ x, ((∃ localID, x = ops.setID item localID) ∨ ops.restDeepcmp item x = true) ∧
    added = ops.itemOptimize x

/-- **What is added for a request stands for its item.** -/
theorem stands_cacheRequest (ops : ItemOps ι) (tree : UInt64 → Option (List ι)) (nextID : UInt32)
    (item : ι) : ops.Stands item (ops.itemOptimize (ops.cacheRequest tree nextID item).2.2) := by
  refine ⟨_, ?_, rfl⟩
  rw [cacheRequest]
  split
  · split
    · rename_i hit hfind
      exact .inr (List.find?_some hfind)
    · exact .inl ⟨nextID, rfl⟩
  · exact .inl ⟨nextID, rfl⟩

end ItemOps

/-! ### The threads -/

/-- Where the worker is. -/
inductive WorkerPc (τ κ ι : Type)
  /-- Before it has locked the mutex. -/
  | starting
  /-- In `pthread_cond_wait` for `queue_notempty`. -/
  | waiting
  /-- Signalled, and waiting for the mutex. -/
  | woken
  /-- The request is extracted and the mutex released; `queue_notfull` is not signalled yet. -/
  | signalling (pair : ProbeIqpair τ κ ι)
  /-- About to handle the request. -/
  | handling (pair : ProbeIqpair τ κ ι)
  /-- The request is handled; about to lock the mutex again. -/
  | relocking

/-- The request that the worker has extracted and not handled yet. -/
def WorkerPc.held {τ κ ι : Type} : WorkerPc τ κ ι → List (ProbeIqpair τ κ ι)
  | .signalling pair | .handling pair => [pair]
  | _ => []

/-- A signal wakes the worker if it waits, and is lost otherwise. -/
def WorkerPc.signalled {τ κ ι : Type} : WorkerPc τ κ ι → WorkerPc τ κ ι
  | .waiting => .woken
  | pc => pc

/-- A signal takes no request from the worker. -/
@[simp] theorem WorkerPc.held_signalled {τ κ ι : Type} (pc : WorkerPc τ κ ι) :
    pc.signalled.held = pc.held := by
  cases pc <;> rfl

/-- A call of a producer. -/
inductive IcacheCall (κ ι : Type)
  | add (cobj : κ) (item : ι)
  | nop

/-- What the call of the thread puts into the queue. -/
def IcacheCall.pair {τ κ ι : Type} (t : τ) : IcacheCall κ ι → ProbeIqpair τ κ ι
  | .add cobj item => .request cobj item
  | .nop => .nop t

/-- Where a producer is. -/
inductive ProducerPc (κ ι : Type)
  /-- Outside a call. -/
  | idle
  /-- In `pthread_cond_wait` for `queue_notfull`. -/
  | waitNotfull (call : IcacheCall κ ι)
  /-- Signalled, and waiting for the mutex, to try again. -/
  | retrying (call : IcacheCall κ ι)
  /-- `probe_icache_add` has released the mutex; `queue_notempty` is not signalled yet. -/
  | signalling
  /-- `probe_icache_nop` waits for its own condition; its request is the `place`-th one. -/
  | waitNop (place : ℕ)
  /-- `probe_icache_nop` was signalled, and waits for the mutex, to return. -/
  | synced (place : ℕ)

/-- Neither in the wait for its own condition nor back from it. -/
def ProducerPc.NotSyncing {κ ι : Type} (pc : ProducerPc κ ι) : Prop :=
  ∀ place, pc ≠ .waitNop place ∧ pc ≠ .synced place

/-- A state: the cache, the number `next_ID`, what was added to each collected object, the
threads that wait for `queue_notfull`, and where every thread is. The rest is the history: the
requests enqueued, extracted and handled so far, the calls of `probe_icache_nop` that have
returned (the thread and the place of its request), and whether every assumption about the queue
held when the worker checked it. -/
structure IcacheSystem (τ κ ι : Type) where
  cache : ProbeIcache τ κ ι
  nextID : UInt32
  collected : κ → List ι
  notfull : List τ
  worker : WorkerPc τ κ ι
  producer : τ → ProducerPc κ ι
  enqueued : List (ProbeIqpair τ κ ι)
  dequeued : List (ProbeIqpair τ κ ι)
  processed : List (ProbeIqpair τ κ ι)
  returned : List (τ × ℕ)
  assumed : Bool

namespace IcacheSystem

variable {τ κ ι : Type}

/-- `probe_icache_new`. The slots of the queue are not initialised. -/
def probeIcacheNew (queue : ℕ → ProbeIqpair τ κ ι) : IcacheSystem τ κ ι where
  cache :=
    { tree := fun _ => none, queue := queue, queueBeg := 0, queueEnd := 0, queueCnt := 0,
      queueMax := probeIqueueCapacity }
  nextID := 0
  collected _ := []
  notfull := []
  worker := .starting
  producer _ := .idle
  enqueued := []
  dequeued := []
  processed := []
  returned := []
  assumed := true

/-- Signalling `queue_notempty`, for which only the worker waits. -/
def signalNotempty (s : IcacheSystem τ κ ι) : IcacheSystem τ κ ι :=
  { s with worker := s.worker.signalled }

section Producers

variable [DecidableEq τ]

/-- The section of a call from where it has the mutex: `__probe_icache_add_nolock` either
enqueues the request or waits for room. After that `probe_icache_add` releases the mutex, and
`probe_icache_nop` signals `queue_notempty` and waits for its condition. -/
def probeIcacheAddNolock (s : IcacheSystem τ κ ι) (t : τ) (call : IcacheCall κ ι) :
    IcacheSystem τ κ ι :=
  if s.cache.queueCnt < s.cache.queueMax then
    let s' := { s with
      cache := s.cache.enqueue (call.pair t)
      enqueued := s.enqueued ++ [call.pair t] }
    match call with
    | .add _ _ => { s' with producer := Function.update s.producer t .signalling }
    | .nop =>
      { s'.signalNotempty with
        producer := Function.update s.producer t (.waitNop s.enqueued.length) }
  else
    { s with
      producer := Function.update s.producer t (.waitNotfull call)
      notfull := s.notfull ++ [t] }

/-- Signalling `queue_notfull` wakes one of the threads that wait for it, if there are any. -/
def signalNotfull (s : IcacheSystem τ κ ι) : Option τ → Option (IcacheSystem τ κ ι)
  | none => if s.notfull.isEmpty then some s else none
  | some t =>
    if t ∈ s.notfull then
      match s.producer t with
      | .waitNotfull call =>
        some { s with
          notfull := s.notfull.erase t
          producer := Function.update s.producer t (.retrying call) }
      | _ => none
    else none

/-- Signalling the condition of a thread's `probe_icache_nop`. -/
def signalNop (s : IcacheSystem τ κ ι) (t : τ) : IcacheSystem τ κ ι :=
  match s.producer t with
  | .waitNop place => { s with producer := Function.update s.producer t (.synced place) }
  | _ => s

end Producers

/-- The section of the worker from the label `next`: it extracts a request and releases the
mutex. -/
def extractNext (s : IcacheSystem τ κ ι) : IcacheSystem τ κ ι :=
  let (pair, cache) := s.cache.extract
  { s with
    cache := cache
    worker := .signalling pair
    dequeued := s.dequeued ++ [pair]
    assumed := s.assumed && cache.indicesAgree }

/-- The handling of an extracted request. -/
def handle [DecidableEq τ] [DecidableEq κ] (ops : ItemOps ι) (s : IcacheSystem τ κ ι)
    (pair : ProbeIqpair τ κ ι) : IcacheSystem τ κ ι :=
  let s' := { s with worker := .relocking, processed := s.processed ++ [pair] }
  match pair with
  | .nop cond => s'.signalNop cond
  | .request cobj item =>
    let (tree, nextID, added) := ops.cacheRequest s.cache.tree s.nextID item
    { s' with
      cache := { s.cache with tree := tree }
      nextID := nextID
      collected := Function.update s.collected cobj
        (s.collected cobj ++ [ops.itemOptimize added]) }

/-! ### The steps -/

end IcacheSystem

/-- What can happen next. -/
inductive IcacheEvent (τ κ ι : Type)
  /-- A thread calls `probe_icache_add`; `none` is `NULL`. -/
  | add (t : τ) (cobj : Option κ) (item : Option ι)
  /-- A thread calls `probe_icache_nop`. -/
  | nop (t : τ)
  /-- A thread that was waiting for room has the mutex again. -/
  | retry (t : τ)
  /-- The signal at the end of a thread's `probe_icache_add`. -/
  | signal (t : τ)
  /-- A thread's `probe_icache_nop` has the mutex again, and returns. -/
  | sync (t : τ)
  /-- The worker locks the mutex for the first time, and waits. -/
  | start
  /-- The worker has the mutex again after a signal. -/
  | wake
  /-- The worker signals `queue_notfull`, and the thread is woken. -/
  | signalNotfull (t : Option τ)
  /-- The worker handles the request. -/
  | handle
  /-- The worker locks the mutex again, and extracts the next request or waits. -/
  | relock

namespace IcacheSystem

variable {τ κ ι : Type} [DecidableEq τ] [DecidableEq κ]

/-- One step of the threads. -/
def step (ops : ItemOps ι) (s : IcacheSystem τ κ ι) :
    IcacheEvent τ κ ι → Option (IcacheSystem τ κ ι)
  | .add t cobj item =>
    match s.producer t with
    | .idle =>
      match cobj, item with
      | some cobj, some item => some (s.probeIcacheAddNolock t (.add cobj item))
      | _, _ => some s
    | _ => none
  | .nop t =>
    match s.producer t with
    | .idle => some (s.probeIcacheAddNolock t .nop)
    | _ => none
  | .retry t =>
    match s.producer t with
    | .retrying call => some (s.probeIcacheAddNolock t call)
    | _ => none
  | .signal t =>
    match s.producer t with
    | .signalling => some { s.signalNotempty with producer := Function.update s.producer t .idle }
    | _ => none
  | .sync t =>
    match s.producer t with
    | .synced place =>
      some { s with
        producer := Function.update s.producer t .idle
        returned := s.returned ++ [(t, place)] }
    | _ => none
  | .start =>
    match s.worker with
    | .starting => some { s with worker := .waiting }
    | _ => none
  | .wake =>
    match s.worker with
    | .woken => some { s with assumed := s.assumed && 0 < s.cache.queueCnt }.extractNext
    | _ => none
  | .signalNotfull t =>
    match s.worker with
    | .signalling pair => ({ s with worker := .handling pair }).signalNotfull t
    | _ => none
  | .handle =>
    match s.worker with
    | .handling pair => some (s.handle ops pair)
    | _ => none
  | .relock =>
    match s.worker with
    | .relocking =>
      some (if 0 < s.cache.queueCnt then s.extractNext else { s with worker := .waiting })
    | _ => none

/-! ### What the queue promises -/

/-- The items requested for the collected object, in order. -/
def itemsFor (cobj : κ) (pairs : List (ProbeIqpair τ κ ι)) : List ι :=
  pairs.filterMap fun
    | .request c item => if c = cobj then some item else none
    | .nop _ => none

/-- **The queue is correct**: the count is the number of requests enqueued and not extracted,
no more than the maximum; every assumption held; each of these requests stands in its slot; the
requests are extracted in the order enqueued, and handled in that order but for the one the
worker holds; a collected object received exactly one item for every request handled for it; and
a `probe_icache_nop` has returned only after everything enqueued before it was handled. -/
structure Correct (ops : ItemOps ι) (s : IcacheSystem τ κ ι) : Prop where
  count : s.cache.queueCnt + s.dequeued.length = s.enqueued.length
  bounded : s.cache.queueCnt ≤ s.cache.queueMax
  assumed : s.assumed = true
  pending : ∀ k < s.cache.queueCnt, s.enqueued[s.dequeued.length + k]? =
    some (s.cache.queue (ringIndex s.cache.queueBeg k s.cache.queueMax))
  ordered : s.dequeued <+: s.enqueued
  handled : s.dequeued = s.processed ++ s.worker.held
  added : ∀ cobj, List.Forall₂ ops.Stands (itemsFor cobj s.processed) (s.collected cobj)
  synced : ∀ t place, (t, place) ∈ s.returned →
    s.enqueued[place]? = some (.nop t) ∧ s.enqueued.take place <+: s.processed

/-- The guard of a step: the worker does not come back to an empty queue. -/
def WakesToRequest (s : IcacheSystem τ κ ι) : IcacheEvent τ κ ι → Prop
  | .wake => 0 < s.cache.queueCnt
  | _ => True

/-! ### The queue invariant -/

/-- The ring holds the requests enqueued and not extracted. -/
structure QueueInv (cache : ProbeIcache τ κ ι) (enqueued dequeued : List (ProbeIqpair τ κ ι)) :
    Prop where
  holds : RingHolds cache.queue cache.queueBeg cache.queueEnd cache.queueCnt cache.queueMax
    (enqueued.drop dequeued.length)
  max_lt : cache.queueMax < 65536
  ordered : dequeued <+: enqueued

omit [DecidableEq τ] [DecidableEq κ] in
/-- A `uint16_t` index that is advanced with a wrap at a maximum below 2^16. -/
theorem ringNext_succ16 {i capacity : ℕ} (hi : i < capacity) (hcap : capacity < 65536) :
    (if succ16 i = capacity then 0 else succ16 i) = ringNext i capacity := by
  rw [succ16, ringNext, Nat.mod_eq_of_lt (by omega)]

namespace QueueInv

variable {cache : ProbeIcache τ κ ι} {enqueued dequeued : List (ProbeIqpair τ κ ι)}
  {pair : ProbeIqpair τ κ ι}

omit [DecidableEq τ] [DecidableEq κ] in
/-- There is room: the request is enqueued. -/
theorem enqueue (h : QueueInv cache enqueued dequeued)
    (hroom : cache.queueCnt < cache.queueMax) :
    QueueInv (cache.enqueue pair) (enqueued ++ [pair]) dequeued where
  holds := by
    have hpush := h.holds.push (x := pair) hroom
    have hmax := h.max_lt
    rw [← ringNext_succ16 h.holds.back_lt hmax] at hpush
    have hcnt : succ16 cache.queueCnt = cache.queueCnt + 1 := Nat.mod_eq_of_lt (by omega)
    rw [List.drop_append_of_le_length h.ordered.length_le]
    simpa only [ProbeIcache.enqueue, hcnt] using hpush
  max_lt := h.max_lt
  ordered := h.ordered.trans (List.prefix_append enqueued [pair])

omit [DecidableEq τ] [DecidableEq κ] in
/-- The indices agree in a queue that is not full. -/
theorem indicesAgree (h : QueueInv cache enqueued dequeued)
    (hroom : cache.queueCnt < cache.queueMax) : cache.indicesAgree = true := by
  have hiff := h.holds.back_eq_front_iff
  rw [ProbeIcache.indicesAgree]
  split
  · rename_i hzero
    exact decide_eq_true (hiff.mpr (.inl hzero))
  · rename_i hpos
    exact decide_eq_true fun heq => (hiff.mp heq).elim hpos (by omega)

omit [DecidableEq τ] [DecidableEq κ] in
/-- The queue is not empty: its oldest request is extracted, and the indices agree. -/
theorem extract (h : QueueInv cache enqueued dequeued) (hne : 0 < cache.queueCnt) :
    QueueInv cache.extract.2 enqueued (dequeued ++ [cache.extract.1]) ∧
      cache.extract.2.indicesAgree = true := by
  obtain ⟨rest, hrest⟩ := h.ordered
  obtain ⟨x, rest, rfl⟩ : ∃ x xs, rest = x :: xs := by
    refine List.exists_cons_of_ne_nil fun hnil => ?_
    have hlen := h.holds.length_eq
    rw [← hrest, hnil, List.append_nil, List.drop_length] at hlen
    exact absurd hlen (by rw [List.length_nil]; omega)
  have hholds := h.holds
  rw [← hrest, List.drop_left] at hholds
  have hmax := h.max_lt
  have hcount := hholds.count_le
  have hpop := hholds.pop
  have hcnt : pred16 cache.queueCnt = cache.queueCnt - 1 := by
    rw [pred16]
    omega
  rw [← ringNext_succ16 hholds.front_lt hmax, ← hcnt] at hpop
  have hx : cache.extract.1 = x := hholds.head
  have hsplit : dequeued ++ x :: rest = dequeued ++ [x] ++ rest := by
    rw [List.append_assoc, List.singleton_append]
  have hinv : QueueInv cache.extract.2 enqueued (dequeued ++ [cache.extract.1]) := by
    refine ⟨?_, hmax, ?_⟩
    · rw [hx, ← hrest, hsplit, List.drop_left]
      exact hpop
    · rw [hx, ← hrest, hsplit]
      exact List.prefix_append _ rest
  have hroom : pred16 cache.queueCnt < cache.queueMax := by omega
  exact ⟨hinv, hinv.indicesAgree hroom⟩

end QueueInv

/-! ### The invariant of the handshake -/

/-- Every `probe_icache_nop` waits for its own request, until that is handled: `handled` is the
number of requests handled. -/
structure NopInv (enqueued : List (ProbeIqpair τ κ ι)) (handled : ℕ)
    (producer : τ → ProducerPc κ ι) (returned : List (τ × ℕ)) : Prop where
  waiting : ∀ t place, producer t = .waitNop place → enqueued[place]? = some (.nop t)
  unhandled : ∀ t place, enqueued[place]? = some (.nop t) →
    place < handled ∨ producer t = .waitNop place
  synced : ∀ t place, producer t = .synced place →
    enqueued[place]? = some (.nop t) ∧ place < handled
  returned : ∀ t place, (t, place) ∈ returned →
    enqueued[place]? = some (.nop t) ∧ place < handled

namespace NopInv

variable {enqueued : List (ProbeIqpair τ κ ι)} {handled : ℕ} {producer : τ → ProducerPc κ ι}
  {returned : List (τ × ℕ)} {t : τ} {pc : ProducerPc κ ι}

omit [DecidableEq κ] in
/-- A step of a thread that leaves and enters no wait for its own condition. -/
theorem setPc (h : NopInv enqueued handled producer returned) (hold : (producer t).NotSyncing)
    (hnew : pc.NotSyncing) :
    NopInv enqueued handled (Function.update producer t pc) returned where
  waiting u place hu := by
    rcases eq_or_ne u t with rfl | hne
    · rw [Function.update_self] at hu
      exact absurd hu (hnew place).1
    · rw [Function.update_of_ne hne] at hu
      exact h.waiting u place hu
  unhandled u place hu := by
    refine (h.unhandled u place hu).imp_right fun hpc => ?_
    rcases eq_or_ne u t with rfl | hne
    · exact absurd hpc (hold place).1
    · rwa [Function.update_of_ne hne]
  synced u place hu := by
    rcases eq_or_ne u t with rfl | hne
    · rw [Function.update_self] at hu
      exact absurd hu (hnew place).2
    · rw [Function.update_of_ne hne] at hu
      exact h.synced u place hu
  returned := h.returned

omit [DecidableEq τ] [DecidableEq κ] in
/-- A request that is not a thread's own is enqueued. -/
theorem request (h : NopInv enqueued handled producer returned) (cobj : κ) (item : ι) :
    NopInv (enqueued ++ [.request cobj item]) handled producer returned := by
  have hget : ∀ (place : ℕ) (u : τ),
      (enqueued ++ [.request cobj item])[place]? = some (.nop u) ↔
        enqueued[place]? = some (.nop u) := by
    intro place u
    rcases Nat.lt_trichotomy place enqueued.length with hlt | rfl | hgt
    · rw [List.getElem?_append_left hlt]
    · rw [List.getElem?_concat_length, List.getElem?_eq_none (Nat.le_refl _)]
      simp
    · rw [List.getElem?_eq_none (by rw [List.length_append, List.length_singleton]; omega),
        List.getElem?_eq_none (by omega)]
  refine ⟨?_, ?_, ?_, ?_⟩
  · intro u place hu
    exact (hget place u).mpr (h.waiting u place hu)
  · intro u place hu
    exact h.unhandled u place ((hget place u).mp hu)
  · intro u place hu
    exact (h.synced u place hu).imp_left (hget place u).mpr
  · intro u place hu
    exact (h.returned u place hu).imp_left (hget place u).mpr

omit [DecidableEq κ] in
/-- A thread enqueues its own request, and waits for it. -/
theorem nop (h : NopInv enqueued handled producer returned) (hold : (producer t).NotSyncing) :
    NopInv (enqueued ++ [.nop t]) handled
      (Function.update producer t (.waitNop enqueued.length)) returned := by
  have hkeep : ∀ {place : ℕ} {pair : ProbeIqpair τ κ ι}, enqueued[place]? = some pair →
      (enqueued ++ [.nop t])[place]? = some pair := by
    intro place pair hu
    obtain ⟨hlt, -⟩ := List.getElem?_eq_some_iff.mp hu
    rwa [List.getElem?_append_left hlt]
  refine ⟨?_, ?_, ?_, ?_⟩
  · intro u place hu
    rcases eq_or_ne u t with rfl | hne
    · rw [Function.update_self] at hu
      obtain rfl := ProducerPc.waitNop.inj hu
      exact List.getElem?_concat_length
    · rw [Function.update_of_ne hne] at hu
      exact hkeep (h.waiting u place hu)
  · intro u place hu
    rcases Nat.lt_trichotomy place enqueued.length with hlt | rfl | hgt
    · rw [List.getElem?_append_left hlt] at hu
      refine (h.unhandled u place hu).imp_right fun hpc => ?_
      rcases eq_or_ne u t with rfl | hne
      · exact absurd hpc (hold place).1
      · rwa [Function.update_of_ne hne]
    · rw [List.getElem?_concat_length] at hu
      obtain rfl := ProbeIqpair.nop.inj (Option.some.inj hu)
      exact .inr (Function.update_self ..)
    · rw [List.getElem?_eq_none (by rw [List.length_append, List.length_singleton]; omega)] at hu
      cases hu
  · intro u place hu
    rcases eq_or_ne u t with rfl | hne
    · rw [Function.update_self] at hu
      cases hu
    · rw [Function.update_of_ne hne] at hu
      exact (h.synced u place hu).imp_left hkeep
  · intro u place hu
    exact (h.returned u place hu).imp_left hkeep

omit [DecidableEq τ] [DecidableEq κ] in
/-- A request is handled. -/
theorem handled_succ (h : NopInv enqueued handled producer returned) :
    NopInv enqueued (handled + 1) producer returned where
  waiting := h.waiting
  unhandled u place hu := (h.unhandled u place hu).imp_left (Nat.lt_succ_of_lt ·)
  synced u place hu := (h.synced u place hu).imp_right (Nat.lt_succ_of_lt ·)
  returned u place hu := (h.returned u place hu).imp_right (Nat.lt_succ_of_lt ·)

omit [DecidableEq κ] in
/-- A thread whose own request was handled is signalled. -/
theorem wakeNop {place : ℕ} (h : NopInv enqueued handled producer returned)
    (hpc : producer t = .waitNop place) (hplace : place < handled) :
    NopInv enqueued handled (Function.update producer t (.synced place)) returned where
  waiting u k hu := by
    rcases eq_or_ne u t with rfl | hne
    · rw [Function.update_self] at hu
      cases hu
    · rw [Function.update_of_ne hne] at hu
      exact h.waiting u k hu
  unhandled u k hu := by
    rcases h.unhandled u k hu with hlt | hu
    · exact .inl hlt
    · rcases eq_or_ne u t with rfl | hne
      · obtain rfl := ProducerPc.waitNop.inj (hpc.symm.trans hu)
        exact .inl hplace
      · exact .inr (by rwa [Function.update_of_ne hne])
  synced u k hu := by
    rcases eq_or_ne u t with rfl | hne
    · rw [Function.update_self] at hu
      obtain rfl := ProducerPc.synced.inj hu
      exact ⟨h.waiting u place hpc, hplace⟩
    · rw [Function.update_of_ne hne] at hu
      exact h.synced u k hu
  returned := h.returned

omit [DecidableEq κ] in
/-- A signalled thread returns. -/
theorem sync {place : ℕ} (h : NopInv enqueued handled producer returned)
    (hpc : producer t = .synced place) :
    NopInv enqueued handled (Function.update producer t .idle) (returned ++ [(t, place)]) where
  waiting u k hu := by
    rcases eq_or_ne u t with rfl | hne
    · rw [Function.update_self] at hu
      cases hu
    · rw [Function.update_of_ne hne] at hu
      exact h.waiting u k hu
  unhandled u k hu := by
    refine (h.unhandled u k hu).imp_right fun hu => ?_
    rcases eq_or_ne u t with rfl | hne
    · cases hpc.symm.trans hu
    · rwa [Function.update_of_ne hne]
  synced u k hu := by
    rcases eq_or_ne u t with rfl | hne
    · rw [Function.update_self] at hu
      cases hu
    · rw [Function.update_of_ne hne] at hu
      exact h.synced u k hu
  returned u k hu := by
    rcases List.mem_append.mp hu with hu | hu
    · exact h.returned u k hu
    · obtain ⟨rfl, rfl⟩ := Prod.mk.inj (List.mem_singleton.mp hu)
      exact h.synced u k hpc

end NopInv

/-! ### The invariant of the system -/

/-- What holds in every state of a run in which the worker never wakes to an empty queue. -/
structure Inv (ops : ItemOps ι) (s : IcacheSystem τ κ ι) : Prop where
  queue : QueueInv s.cache s.enqueued s.dequeued
  nops : NopInv s.enqueued s.processed.length s.producer s.returned
  assumed : s.assumed = true
  handled : s.dequeued = s.processed ++ s.worker.held
  added : ∀ cobj, List.Forall₂ ops.Stands (itemsFor cobj s.processed) (s.collected cobj)

variable {ops : ItemOps ι} {s : IcacheSystem τ κ ι}

omit [DecidableEq τ] in
/-- The new queue. -/
theorem inv_probeIcacheNew (ops : ItemOps ι) (queue : ℕ → ProbeIqpair τ κ ι) :
    Inv ops (probeIcacheNew queue) where
  queue :=
    { holds := RingHolds.empty queue (show 0 < probeIqueueCapacity by decide)
      max_lt := show probeIqueueCapacity < 65536 by decide
      ordered := List.nil_prefix }
  nops :=
    { waiting := fun _ _ h => by cases h
      unhandled := fun _ _ h => by cases h
      synced := fun _ _ h => by cases h
      returned := fun _ _ h => by cases h }
  assumed := rfl
  handled := rfl
  added _ := .nil

omit [DecidableEq τ] in
/-- **The invariant makes the queue correct.** -/
theorem Inv.correct (h : Inv ops s) : s.Correct ops where
  count := by
    have hlen := h.queue.holds.length_eq
    have hle := h.queue.ordered.length_le
    rw [List.length_drop] at hlen
    omega
  bounded := h.queue.holds.count_le
  assumed := h.assumed
  pending k hk := by rw [← h.queue.holds.slot_eq k hk, List.getElem?_drop]
  ordered := h.queue.ordered
  handled := h.handled
  added := h.added
  synced t place hmem := by
    obtain ⟨hget, hlt⟩ := h.nops.returned t place hmem
    refine ⟨hget, ?_⟩
    obtain ⟨rest, hrest⟩ := h.queue.ordered
    have hprocessed : s.processed <+: s.enqueued := by
      rw [← hrest, h.handled, List.append_assoc]
      exact List.prefix_append _ _
    exact List.prefix_of_prefix_length_le (List.take_prefix _ _) hprocessed
      (by rw [List.length_take]; omega)

omit [DecidableEq τ] in
/-- Signalling `queue_notempty` keeps the invariant. -/
theorem Inv.signalNotempty (h : Inv ops s) : Inv ops s.signalNotempty :=
  { h with handled := h.handled.trans (by rw [← WorkerPc.held_signalled]; rfl) }

omit [DecidableEq τ] in
/-- Extracting a request from a queue that is not empty keeps the invariant. -/
theorem Inv.extractNext (h : Inv ops s) (hne : 0 < s.cache.queueCnt)
    (hheld : s.worker.held = []) : Inv ops s.extractNext := by
  obtain ⟨hqueue, hagree⟩ := h.queue.extract hne
  refine ⟨hqueue, h.nops, ?_, ?_, h.added⟩
  · exact Bool.and_eq_true_iff.mpr ⟨h.assumed, hagree⟩
  · have hhandled := h.handled
    rw [hheld, List.append_nil] at hhandled
    change s.dequeued ++ _ = s.processed ++ _
    rw [hhandled]
    rfl

/-- A call that has the mutex keeps the invariant. -/
theorem Inv.probeIcacheAddNolock {t : τ} (h : Inv ops s) (call : IcacheCall κ ι)
    (hpc : (s.producer t).NotSyncing) : Inv ops (s.probeIcacheAddNolock t call) := by
  rw [IcacheSystem.probeIcacheAddNolock]
  split
  · rename_i hroom
    cases call with
    | add cobj item =>
        refine { h with queue := h.queue.enqueue hroom, nops := ?_ }
        exact (h.nops.request cobj item).setPc hpc fun place => ⟨nofun, nofun⟩
    | nop =>
        -- the nop is enqueued and its thread waits; then the worker is signalled
        have hnop : Inv ops { s with
            cache := s.cache.enqueue (.nop t)
            enqueued := s.enqueued ++ [.nop t]
            producer := Function.update s.producer t (.waitNop s.enqueued.length) } :=
          { h with queue := h.queue.enqueue hroom, nops := h.nops.nop hpc }
        exact hnop.signalNotempty
  · exact { h with nops := h.nops.setPc hpc fun place => ⟨nofun, nofun⟩ }

/-- Signalling `queue_notfull` keeps the invariant. -/
theorem Inv.signalNotfull {s' : IcacheSystem τ κ ι} {t : Option τ} (h : Inv ops s)
    (hs' : s.signalNotfull t = some s') : Inv ops s' := by
  cases t with
  | none =>
      rw [IcacheSystem.signalNotfull] at hs'
      split at hs'
      · obtain rfl := Option.some.inj hs'
        exact h
      · cases hs'
  | some t =>
      rw [IcacheSystem.signalNotfull] at hs'
      split at hs'
      · split at hs'
        · rename_i call hpc
          obtain rfl := Option.some.inj hs'
          refine { h with nops := h.nops.setPc ?_ fun place => ⟨nofun, nofun⟩ }
          rw [hpc]
          exact fun place => ⟨nofun, nofun⟩
        · cases hs'
      · cases hs'

/-- **Handling the extracted request keeps the invariant.** -/
theorem Inv.handle {pair : ProbeIqpair τ κ ι} (h : Inv ops s)
    (hworker : s.worker = .handling pair) : Inv ops (s.handle ops pair) := by
  have hdequeued : s.dequeued = s.processed ++ [pair] := by
    rw [h.handled, hworker]
    rfl
  have hlen : (s.processed ++ [pair]).length = s.processed.length + 1 := by
    rw [List.length_append, List.length_singleton]
  have hnops := h.nops.handled_succ
  rw [← hlen] at hnops
  have hhandled : s.dequeued = (s.processed ++ [pair]) ++ [] := by rw [hdequeued, List.append_nil]
  cases pair with
  | nop cond =>
      have hadded : ∀ cobj, List.Forall₂ ops.Stands
          (itemsFor cobj (s.processed ++ [.nop cond])) (s.collected cobj) := by
        intro cobj
        have hitems : itemsFor cobj (s.processed ++ [.nop cond]) = itemsFor cobj s.processed := by
          simp [itemsFor]
        rw [hitems]
        exact h.added cobj
      rw [IcacheSystem.handle]
      simp only [signalNop]
      split
      · rename_i place hpc
        refine ⟨h.queue, ?_, h.assumed, hhandled, hadded⟩
        -- the thread waits for the request at the front, its own
        obtain ⟨rest, hrest⟩ := h.queue.ordered
        have hget : s.enqueued[s.processed.length]? = some (.nop cond) := by
          rw [← hrest, hdequeued, List.append_assoc, List.getElem?_append_right (Nat.le_refl _),
            Nat.sub_self]
          rfl
        rcases h.nops.unhandled cond _ hget with hlt | hwait
        · exact absurd hlt (Nat.lt_irrefl _)
        · obtain rfl := ProducerPc.waitNop.inj (hpc.symm.trans hwait)
          exact hnops.wakeNop hpc (by omega)
      · exact ⟨h.queue, hnops, h.assumed, hhandled, hadded⟩
  | request cobj item =>
      have hqueue := h.queue
      refine ⟨⟨hqueue.holds, hqueue.max_lt, hqueue.ordered⟩, hnops, h.assumed, hhandled, ?_⟩
      intro c
      have hitems : itemsFor c (s.processed ++ [.request cobj item]) =
          itemsFor c s.processed ++ if cobj = c then [item] else [] := by
        rw [itemsFor, List.filterMap_append]
        congr 1
        split <;> simp [*]
      change List.Forall₂ ops.Stands (itemsFor c (s.processed ++ [.request cobj item]))
        (Function.update s.collected cobj _ c)
      rw [hitems]
      rcases eq_or_ne c cobj with rfl | hne
      · rw [if_pos rfl, Function.update_self]
        exact List.rel_append (h.added c) (.cons (ops.stands_cacheRequest ..) .nil)
      · rw [if_neg hne.symm, Function.update_of_ne hne, List.append_nil]
        exact h.added c

/-- **Every guarded step keeps the invariant.** -/
theorem Inv.step {s' : IcacheSystem τ κ ι} {e : IcacheEvent τ κ ι} (h : Inv ops s)
    (hguard : s.WakesToRequest e) (hs' : s.step ops e = some s') : Inv ops s' := by
  have hidle : (ProducerPc.idle : ProducerPc κ ι).NotSyncing := fun place => ⟨nofun, nofun⟩
  cases e with
  | add t cobj item =>
      simp only [IcacheSystem.step] at hs'
      split at hs'
      · rename_i hpc
        have hpc' : (s.producer t).NotSyncing := by rwa [hpc]
        split at hs' <;> obtain rfl := Option.some.inj hs'
        · exact h.probeIcacheAddNolock _ hpc'
        · exact h
      · cases hs'
  | nop t =>
      rw [IcacheSystem.step] at hs'
      split at hs'
      · rename_i hpc
        obtain rfl := Option.some.inj hs'
        exact h.probeIcacheAddNolock _ (by rwa [hpc])
      · cases hs'
  | retry t =>
      rw [IcacheSystem.step] at hs'
      split at hs'
      · rename_i call hpc
        obtain rfl := Option.some.inj hs'
        refine h.probeIcacheAddNolock _ ?_
        rw [hpc]
        exact fun place => ⟨nofun, nofun⟩
      · cases hs'
  | signal t =>
      rw [IcacheSystem.step] at hs'
      split at hs'
      · rename_i hpc
        obtain rfl := Option.some.inj hs'
        have hold : (s.producer t).NotSyncing := by
          rw [hpc]
          exact fun place => ⟨nofun, nofun⟩
        exact { h.signalNotempty with nops := h.nops.setPc hold hidle }
      · cases hs'
  | sync t =>
      rw [IcacheSystem.step] at hs'
      split at hs'
      · rename_i place hpc
        obtain rfl := Option.some.inj hs'
        exact { h with nops := h.nops.sync hpc }
      · cases hs'
  | start =>
      rw [IcacheSystem.step] at hs'
      split at hs'
      · rename_i hworker
        obtain rfl := Option.some.inj hs'
        have hhandled := h.handled
        rw [hworker] at hhandled
        exact { h with handled := hhandled }
      · cases hs'
  | wake =>
      rw [IcacheSystem.step] at hs'
      split at hs'
      · rename_i hworker
        obtain rfl := Option.some.inj hs'
        have hchecked : Inv ops { s with assumed := s.assumed && 0 < s.cache.queueCnt } :=
          { h with assumed := Bool.and_eq_true_iff.mpr ⟨h.assumed, decide_eq_true hguard⟩ }
        refine hchecked.extractNext hguard ?_
        change s.worker.held = []
        rw [hworker]
        rfl
      · cases hs'
  | signalNotfull t =>
      rw [IcacheSystem.step] at hs'
      split at hs'
      · rename_i pair hworker
        have hhandled := h.handled
        rw [hworker] at hhandled
        have hhandling : Inv ops { s with worker := .handling pair } :=
          { h with handled := hhandled }
        exact hhandling.signalNotfull hs'
      · cases hs'
  | handle =>
      rw [IcacheSystem.step] at hs'
      split at hs'
      · rename_i pair hworker
        obtain rfl := Option.some.inj hs'
        exact h.handle hworker
      · cases hs'
  | relock =>
      rw [IcacheSystem.step] at hs'
      split at hs'
      · rename_i hworker
        have hheld : s.worker.held = [] := by
          rw [hworker]
          rfl
        obtain rfl := Option.some.inj hs'
        split
        · rename_i hne
          exact h.extractNext hne hheld
        · have hhandled := h.handled
          rw [hheld] at hhandled
          exact { h with handled := hhandled }
      · cases hs'

instance (s : IcacheSystem τ κ ι) : (e : IcacheEvent τ κ ι) → Decidable (s.WakesToRequest e)
  | .wake => inferInstanceAs (Decidable (0 < s.cache.queueCnt))
  | .add .. | .nop _ | .retry _ | .signal _ | .sync _ | .start | .signalNotfull _ | .handle
  | .relock => isTrue trivial

end IcacheSystem

open IcacheSystem

/-! ### The queue over every run -/

/-- **The item cache queue.** In every run, with any number of producers, in which the worker
never comes back from waiting for `queue_notempty` to an empty queue, the queue is correct in
every state reached. -/
theorem icache_correct {τ κ ι : Type} [DecidableEq τ] [DecidableEq κ] (ops : ItemOps ι)
    (queue : ℕ → ProbeIqpair τ κ ι) {s : IcacheSystem τ κ ι}
    (h : GuardedRun (step ops) WakesToRequest (probeIcacheNew queue) s) : s.Correct ops :=
  (h.invariant (inv_probeIcacheNew ops queue) Inv.step).correct

/-- Items with a content and an identifier. -/
def plainOps : ItemOps (ℕ × UInt32) where
  sexpID item := UInt64.ofNat item.1
  restDeepcmp item cached := item.1 == cached.1
  setID item localID := (item.1, localID)
  itemOptimize := id

/-- Slots that were never written. -/
def zeroQueue (_ : ℕ) : ProbeIqpair Bool Unit (ℕ × UInt32) := .request () (0, 0)

/-- Two threads add the same item, and one of them waits for the queue to be drained. -/
def syncRun : List (IcacheEvent Bool Unit (ℕ × UInt32)) :=
  [.start, .add false (some ()) (some (5, 0)), .add true (some ()) (some (5, 0)), .signal false,
    .wake, .signalNotfull none, .handle, .relock, .signalNotfull none, .handle, .nop false,
    .relock, .signalNotfull none, .handle, .sync false]

/-- The run ends with the wait over and the item added twice. -/
theorem icache_correct_syncRun : ∃ s : IcacheSystem Bool Unit (ℕ × UInt32),
    s.returned = [(false, 2)] ∧ s.collected () = [(5, 0), (5, 0)] ∧ s.Correct plainOps := by
  have hrun : ((GuardedRun.replay (step plainOps) WakesToRequest (probeIcacheNew zeroQueue)
      syncRun).map fun s => (s.returned, s.collected ())) =
      some ([(false, 2)], [(5, 0), (5, 0)]) := by decide
  obtain ⟨s, hs, hend⟩ := Option.map_eq_some_iff.mp hrun
  obtain ⟨hreturned, hcollected⟩ := Prod.mk.inj hend
  exact ⟨s, hreturned, hcollected, icache_correct plainOps zeroQueue (GuardedRun.of_replay hs)⟩

/-- Two threads add an item each. The signal of the second arrives when the worker, woken by
the first, has handled both requests and waits again. -/
def lateSignalRun : List (IcacheEvent Bool Unit (ℕ × UInt32)) :=
  [.start, .add false (some ()) (some (5, 0)), .add true (some ()) (some (6, 0)), .signal false,
    .wake, .signalNotfull none, .handle, .relock, .signalNotfull none, .handle, .relock,
    .signal true, .wake]

/-- **The queue is not correct over every run**: after the late signal the worker extracts a
request from the empty queue. -/
theorem not_icache_correct : ¬ ∀ s : IcacheSystem Bool Unit (ℕ × UInt32),
    GuardedRun (step plainOps) (fun _ _ => True) (probeIcacheNew zeroQueue) s →
      s.Correct plainOps := by
  intro hall
  have hrun : ((GuardedRun.replay (step plainOps) (fun _ _ => True) (probeIcacheNew zeroQueue)
      lateSignalRun).map fun s => (s.cache.queueCnt, s.enqueued.length)) = some (65535, 2) := by
    decide
  obtain ⟨s, hs, hend⟩ := Option.map_eq_some_iff.mp hrun
  obtain ⟨hcnt, hlen⟩ := Prod.mk.inj hend
  have hcount := (hall s (GuardedRun.of_replay hs)).count
  omega

end OpenScap
