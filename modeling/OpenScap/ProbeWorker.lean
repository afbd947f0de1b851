import Mathlib.Data.Int.Notation
import OpenScap.KeyedRuns

/-!
# Requests to a probe

The thread that receives requests, and a worker thread for each request whose object is not in the
cache of results. The steps of all threads come in any order. A result that was cached once is
never replaced: a second result for the same object, like a result that is a null pointer, ends
the process.

`probe_reset` is registered without an argument, and so is the end of the process too.

The trees of results and of workers are the maps that they stand for.

## Main results

* `fits_run`, `message_answered` — each request is answered at most once, and once when the threads
  have nothing left to do;
* `replies_agree` — all replies for one object are the same;
* `alive_of_separate` — the probe stays alive when no two requests for one object are in progress
  at the same time.
-/

namespace OpenScap.ProbeWorker

open KeyedRuns

variable {C : Type}

/-! ### Messages and threads -/

/-- A request: the id of the message, the `id` of its object, the collected object that its
`skip_eval` flag and its mask make, and whether it has the attribute `no-reply`. -/
structure Request (C : Type) where
  id : UInt32
  oid : Option (List UInt8)
  skipped : Option C
  noReply : Bool

/-- How far a worker is in `probe_worker_runfn`: the handler runs, it has returned, the worker is
taken out of the tree of workers, the result is in the cache. -/
inductive Stage (C : Type)
  | absent
  | started
  | finished (res : Option C) (ret : ℤ)
  | removed (res : Option C) (ret : ℤ)
  | cached (res : C) (ret : ℤ)

/-- `probe_t`: the cache of results, the tree of workers by the ids of their messages, the worker
of each message, all messages so far, the message that the input handler holds and what it found
in the cache for it. -/
structure Probe (C : Type) where
  rcache : List UInt8 → Option C
  workers : UInt32 → Option ℕ
  threads : ℕ → Stage C
  messages : List (Request C)
  input : Option (ℕ × Option C)
  alive : Bool

/-- What is the same in a whole run: the collected object that is returned for every object when
an offline mode was requested that the probe does not support, and the sorting of the items of a
result. -/
structure ProbeConfig (C : Type) where
  offline : Option C
  sortItems : C → C

/-- What happens next: the input handler receives a request, or goes on with it; a worker's
handler returns, or the worker takes its next step; the other peer asks for a reset. -/
inductive ProbeAction (C : Type)
  | receive (r : Request C)
  | handle
  | finish (n : ℕ) (res : Option C) (ret : ℤ)
  | remove (n : ℕ)
  | cache (n : ℕ)
  | reply (n : ℕ)
  | reset

/-- What is seen of the messages: one was received, a worker was started for it, a reply was sent,
perhaps an empty one, an error was sent, it was dropped; or the process has ended. -/
inductive ProbeEvent (C : Type)
  | received (n : ℕ)
  | started (n : ℕ)
  | replied (n : ℕ) (body : Option C)
  | failed (n : ℕ) (ret : ℤ)
  | dropped (n : ℕ)
  | crashed

/-- `PROBE_ENOATTR`. -/
def probeEnoattr : ℤ := 4

/-- What `SEAP_reply` sends. -/
def Request.body (r : Request C) (c : C) : Option C := if r.noReply then none else some c

/-- The process has ended. -/
def Probe.ended (s : Probe C) : Probe C := { s with alive := false }

/-- The process ends. -/
def Probe.crash (s : Probe C) : Probe C × List (ProbeEvent C) := (s.ended, [.crashed])

/-- The cache of results changes. -/
def Probe.setRcache (s : Probe C) (oid : List UInt8) (res : C) : Probe C :=
  { s with rcache := Function.update s.rcache oid (some res) }

/-- `probe_rcache_sexp_add`, unless there is an entry. -/
def Probe.rcacheAdd (s : Probe C) (oid : List UInt8) (res : C) : Option (Probe C) :=
  match s.rcache oid with
  | none => some (s.setRcache oid res)
  | some _ => none

/-- A worker goes on. -/
def Probe.setThread (s : Probe C) (n : ℕ) (stage : Stage C) : Probe C :=
  { s with threads := Function.update s.threads n stage }

/-- A worker is put into the tree of workers, or taken out. -/
def Probe.setWorker (s : Probe C) (id : UInt32) (n : Option ℕ) : Probe C :=
  { s with workers := Function.update s.workers id n }

/-- The input handler is done with a message. -/
def Probe.ready (s : Probe C) : Probe C := { s with input := none }

/-- The input handler receives a message, and looks its object up. -/
def Probe.receive (s : Probe C) (r : Request C) : Probe C :=
  { s with
    messages := s.messages ++ [r]
    input := some (s.messages.length, r.oid.bind s.rcache) }

/-- `probe_input_handler` with a message, and what it found in the cache. -/
def Probe.handle (cfg : ProbeConfig C) (s : Probe C) (n : ℕ) (r : Request C) (found : Option C) :
    Probe C × List (ProbeEvent C) :=
  match r.oid with
  | none => (s.ready, [.failed n probeEnoattr])
  | some oid =>
      match cfg.offline with
      | some c => (s.ready, [.replied n (r.body c)])
      | none =>
          match found with
          | some c => (s.ready, [.replied n (r.body c)])
          | none =>
              match r.skipped with
              | some c =>
                  match s.rcacheAdd oid c with
                  | some s => (s.ready, [.replied n (r.body c)])
                  | none => s.crash
              | none =>
                  match s.workers r.id with
                  | some _ => (s.ready, [.dropped n])
                  | none =>
                      (((s.setWorker r.id (some n)).setThread n .started).ready, [.started n])

/-- The step of `probe_worker_runfn` behind its handler. -/
def Probe.remove (cfg : ProbeConfig C) (s : Probe C) (n : ℕ) (r : Request C) (res : Option C)
    (ret : ℤ) : Probe C × List (ProbeEvent C) :=
  match s.workers r.id with
  | none => (s.setThread n .absent, [.dropped n])
  | some _ =>
      ((s.setWorker r.id none).setThread n (.removed (res.map cfg.sortItems) ret), [])

/-- `probe_worker_runfn` adds its result to the cache. -/
def Probe.cache (s : Probe C) (n : ℕ) (r : Request C) (res : Option C) (ret : ℤ) :
    Probe C × List (ProbeEvent C) :=
  match r.oid, res with
  | some oid, some c =>
      match s.rcacheAdd oid c with
      | some s => (s.setThread n (.cached c ret), [])
      | none => s.crash
  | _, _ => s.crash

/-- `probe_worker_runfn` answers. -/
def Probe.reply (s : Probe C) (n : ℕ) (r : Request C) (c : C) (ret : ℤ) :
    Probe C × List (ProbeEvent C) :=
  (s.setThread n .absent, [if ret ≠ 0 then .failed n ret else .replied n (r.body c)])

/-- A step of a process that is alive. -/
def Probe.step (cfg : ProbeConfig C) (s : Probe C) :
    ProbeAction C → Option (Probe C × List (ProbeEvent C))
  | .receive r =>
      match s.input with
      | none => some (s.receive r, [.received s.messages.length])
      | some _ => none
  | .handle =>
      match s.input with
      | some (n, found) => s.messages[n]?.map fun r => s.handle cfg n r found
      | none => none
  | .finish n res ret =>
      match s.threads n with
      | .started => some (s.setThread n (.finished res ret), [])
      | _ => none
  | .remove n =>
      match s.threads n with
      | .finished res ret => s.messages[n]?.map fun r => s.remove cfg n r res ret
      | _ => none
  | .cache n =>
      match s.threads n with
      | .removed res ret => s.messages[n]?.map fun r => s.cache n r res ret
      | _ => none
  | .reply n =>
      match s.threads n with
      | .cached c ret => s.messages[n]?.map fun r => s.reply n r c ret
      | _ => none
  | .reset => some s.crash

/-- A step. -/
def probeStep (cfg : ProbeConfig C) : System (Probe C) (ProbeAction C) (ProbeEvent C) :=
  fun s a => if s.alive then s.step cfg a else none

/-- The probe when its input handler starts. -/
def probeStart : Probe C := ⟨fun _ => none, fun _ => none, fun _ => .absent, [], none, true⟩

/-! ### Phases of a message -/

/-- What goes on with a message. -/
inductive Phase
  | fresh
  | held
  | running
  | done

/-- A message is received, perhaps a worker is started for it, and it is answered or dropped. -/
inductive NextPhase : Phase → ProbeEvent C → Phase → Prop
  | received (n : ℕ) : NextPhase .fresh (.received n) .held
  | started (n : ℕ) : NextPhase .held (.started n) .running
  | dropped (n : ℕ) : NextPhase .held (.dropped n) .done
  | replied (n : ℕ) (body : Option C) : NextPhase .held (.replied n body) .done
  | failed (n : ℕ) (ret : ℤ) : NextPhase .held (.failed n ret) .done
  | workerReplied (n : ℕ) (body : Option C) : NextPhase .running (.replied n body) .done
  | workerFailed (n : ℕ) (ret : ℤ) : NextPhase .running (.failed n ret) .done

/-- The message that an event is about. -/
def ProbeEvent.message? : ProbeEvent C → Option ℕ
  | .received n | .started n | .replied n _ | .failed n _ | .dropped n => some n
  | .crashed => none

/-! ### What a step does -/

variable {cfg : ProbeConfig C} {s s' : Probe C} {a : ProbeAction C} {events : List (ProbeEvent C)}

/-- The message that the input handler holds, and what it found for it. -/
structure Holds (s : Probe C) (n : ℕ) (r : Request C) (found : Option C) : Prop where
  input : s.input = some (n, found)
  message : s.messages[n]? = some r

/-- Everything that can happen. -/
inductive Moves (cfg : ProbeConfig C) (s : Probe C) :
    ProbeAction C → Probe C → List (ProbeEvent C) → Prop
  | received {r : Request C} (hinput : s.input = none) :
      Moves cfg s (.receive r) (s.receive r) [.received s.messages.length]
  | noAttr {n : ℕ} {r : Request C} {found : Option C} (hheld : Holds s n r found) :
      Moves cfg s .handle s.ready [.failed n probeEnoattr]
  | offline {n : ℕ} {r : Request C} {found : Option C} {oid : List UInt8} {c : C}
      (hheld : Holds s n r found) (hoid : r.oid = some oid) (hoffline : cfg.offline = some c) :
      Moves cfg s .handle s.ready [.replied n (r.body c)]
  | hit {n : ℕ} {r : Request C} {oid : List UInt8} {c : C} (hheld : Holds s n r (some c))
      (hoid : r.oid = some oid) (honline : cfg.offline = none) :
      Moves cfg s .handle s.ready [.replied n (r.body c)]
  | skip {n : ℕ} {r : Request C} {oid : List UInt8} {c : C} (hheld : Holds s n r none)
      (hoid : r.oid = some oid) (honline : cfg.offline = none) (hcache : s.rcache oid = none) :
      Moves cfg s .handle (s.setRcache oid c).ready [.replied n (r.body c)]
  | skipCrash {n : ℕ} {r : Request C} {oid : List UInt8} {c : C} (hheld : Holds s n r none)
      (hoid : r.oid = some oid) (hcache : s.rcache oid = some c) :
      Moves cfg s .handle s.ended [.crashed]
  | duplicate {n m : ℕ} {r : Request C} (hheld : Holds s n r none)
      (hworker : s.workers r.id = some m) : Moves cfg s .handle s.ready [.dropped n]
  | started {n : ℕ} {r : Request C} {oid : List UInt8} (hheld : Holds s n r none)
      (hoid : r.oid = some oid) (honline : cfg.offline = none) (hworker : s.workers r.id = none) :
      Moves cfg s .handle ((s.setWorker r.id (some n)).setThread n .started).ready [.started n]
  | finished {n : ℕ} {res : Option C} {ret : ℤ} (hthread : s.threads n = .started) :
      Moves cfg s (.finish n res ret) (s.setThread n (.finished res ret)) []
  | cancelled {n : ℕ} {r : Request C} {res : Option C} {ret : ℤ}
      (hthread : s.threads n = .finished res ret) (hmessage : s.messages[n]? = some r)
      (hworker : s.workers r.id = none) :
      Moves cfg s (.remove n) (s.setThread n .absent) [.dropped n]
  | removed {n m : ℕ} {r : Request C} {res : Option C} {ret : ℤ}
      (hthread : s.threads n = .finished res ret) (hmessage : s.messages[n]? = some r)
      (hworker : s.workers r.id = some m) :
      Moves cfg s (.remove n)
        ((s.setWorker r.id none).setThread n (.removed (res.map cfg.sortItems) ret)) []
  | cached {n : ℕ} {r : Request C} {oid : List UInt8} {c : C} {ret : ℤ}
      (hthread : s.threads n = .removed (some c) ret) (hmessage : s.messages[n]? = some r)
      (hoid : r.oid = some oid) (hcache : s.rcache oid = none) :
      Moves cfg s (.cache n) ((s.setRcache oid c).setThread n (.cached c ret)) []
  | cacheCrash {n : ℕ} {r : Request C} {res : Option C} {ret : ℤ}
      (hthread : s.threads n = .removed res ret) (hmessage : s.messages[n]? = some r)
      (hfails : res ≠ none → ∀ oid, r.oid = some oid → s.rcache oid ≠ none) :
      Moves cfg s (.cache n) s.ended [.crashed]
  | answered {n : ℕ} {r : Request C} {c : C} {ret : ℤ} (hthread : s.threads n = .cached c ret)
      (hmessage : s.messages[n]? = some r) :
      Moves cfg s (.reply n) (s.setThread n .absent)
        [if ret ≠ 0 then .failed n ret else .replied n (r.body c)]
  | reset : Moves cfg s .reset s.ended [.crashed]

/-- What the input handler does. -/
theorem moves_handle {n : ℕ} {r : Request C} {found : Option C} (hheld : Holds s n r found) :
    Moves cfg s .handle (s.handle cfg n r found).1 (s.handle cfg n r found).2 := by
  rw [Probe.handle]
  cases hoid : r.oid with
  | none => exact .noAttr hheld
  | some oid =>
      cases hoffline : cfg.offline with
      | some c => exact .offline hheld hoid hoffline
      | none =>
          cases found with
          | some c => exact .hit hheld hoid hoffline
          | none =>
              cases hskipped : r.skipped with
              | some c =>
                  dsimp only
                  rw [Probe.rcacheAdd]
                  cases hcache : s.rcache oid with
                  | none => exact .skip hheld hoid hoffline hcache
                  | some c => exact .skipCrash hheld hoid hcache
              | none =>
                  dsimp only
                  cases hworker : s.workers r.id with
                  | some m => exact .duplicate hheld hworker
                  | none => exact .started hheld hoid hoffline hworker

/-- What a worker does with its result. -/
theorem moves_cache {n : ℕ} {r : Request C} {res : Option C} {ret : ℤ}
    (hthread : s.threads n = .removed res ret) (hmessage : s.messages[n]? = some r) :
    Moves cfg s (.cache n) (s.cache n r res ret).1 (s.cache n r res ret).2 := by
  unfold Probe.cache
  split
  · rename_i oid c hoid
    rw [Probe.rcacheAdd]
    cases hcache : s.rcache oid with
    | none => exact .cached hthread hmessage hoid hcache
    | some c' =>
        refine .cacheCrash hthread hmessage fun _ oid' h => ?_
        obtain rfl := Option.some.inj (hoid.symm.trans h)
        rw [hcache]
        exact Option.some_ne_none c'
  · rename_i hfails
    refine .cacheCrash hthread hmessage fun hres oid hoid => ?_
    obtain ⟨c, rfl⟩ := Option.ne_none_iff_exists'.mp hres
    exact absurd rfl (hfails oid c hoid)

/-- Every step is one of them. -/
theorem moves_of_step (h : probeStep cfg s a = some (s', events)) : Moves cfg s a s' events := by
  rw [probeStep] at h
  split at h
  swap
  · cases h
  cases a with
  | receive r =>
      rw [Probe.step] at h
      split at h
      · obtain ⟨rfl, rfl⟩ := Prod.mk.inj (Option.some.inj h)
        exact .received ‹_›
      · cases h
  | handle =>
      rw [Probe.step] at h
      split at h
      · obtain ⟨r, hr, h⟩ := Option.map_eq_some_iff.mp h
        obtain ⟨rfl, rfl⟩ := Prod.mk.inj h
        exact moves_handle ⟨‹_›, hr⟩
      · cases h
  | finish n res ret =>
      rw [Probe.step] at h
      split at h
      · obtain ⟨rfl, rfl⟩ := Prod.mk.inj (Option.some.inj h)
        exact .finished ‹_›
      · cases h
  | remove n =>
      rw [Probe.step] at h
      split at h
      · obtain ⟨r, hr, h⟩ := Option.map_eq_some_iff.mp h
        rw [Probe.remove] at h
        split at h
        · obtain ⟨rfl, rfl⟩ := Prod.mk.inj h
          exact .cancelled ‹_› hr ‹_›
        · obtain ⟨rfl, rfl⟩ := Prod.mk.inj h
          exact .removed ‹_› hr ‹_›
      · cases h
  | cache n =>
      rw [Probe.step] at h
      split at h
      · obtain ⟨r, hr, h⟩ := Option.map_eq_some_iff.mp h
        obtain ⟨rfl, rfl⟩ := Prod.mk.inj h
        exact moves_cache ‹_› hr
      · cases h
  | reply n =>
      rw [Probe.step] at h
      split at h
      · obtain ⟨r, hr, h⟩ := Option.map_eq_some_iff.mp h
        obtain ⟨rfl, rfl⟩ := Prod.mk.inj h
        exact .answered ‹_› hr
      · cases h
  | reset =>
      obtain ⟨rfl, rfl⟩ := Prod.mk.inj (Option.some.inj h)
      exact .reset

/-! ### Each message -/

/-- The worker is in the tree of workers. -/
def Stage.InTree : Stage C → Prop
  | .started | .finished _ _ => True
  | .absent | .removed _ _ | .cached _ _ => False

/-- The phases of all messages are those that the input handler, the threads and the tree of
workers show. -/
structure Fits (s : Probe C) (φ : ℕ → Phase) : Prop where
  fresh : ∀ n, φ n = .fresh ↔ s.messages.length ≤ n
  held : ∀ n, φ n = .held ↔ ∃ found, s.input = some (n, found)
  running : ∀ n, φ n = .running ↔ s.threads n ≠ .absent
  tree : ∀ id n, s.workers id = some n ↔
    (s.threads n).InTree ∧ ∃ r, s.messages[n]? = some r ∧ r.id = id

section Fits

variable {φ : ℕ → Phase} {n : ℕ}

@[simp]
theorem setThread_self (stage : Stage C) : (s.setThread n stage).threads n = stage :=
  Function.update_self ..

theorem setThread_of_ne {m : ℕ} (hm : m ≠ n) (stage : Stage C) :
    (s.setThread n stage).threads m = s.threads m :=
  Function.update_of_ne hm ..

/-- The input handler is done with its message. -/
theorem Fits.ready (h : Fits s φ) {found : Option C} (hinput : s.input = some (n, found)) :
    Fits s.ready (Function.update φ n .done) where
  fresh m := by
    rcases eq_or_ne m n with rfl | hm
    · have hheld := (h.held m).mpr ⟨found, hinput⟩
      have hlen := (h.fresh m).not.mp (by rw [hheld]; simp)
      simpa [Probe.ready] using hlen
    · rw [Function.update_of_ne hm]
      exact h.fresh m
  held m := by
    rcases eq_or_ne m n with rfl | hm
    · simp [Probe.ready]
    · rw [Function.update_of_ne hm, h.held, hinput]
      simp [Probe.ready, Ne.symm hm]
  running m := by
    rcases eq_or_ne m n with rfl | hm
    · have hheld := (h.held m).mpr ⟨found, hinput⟩
      have hidle := (h.running m).not.mp (by rw [hheld]; simp)
      simpa [Probe.ready] using hidle
    · rw [Function.update_of_ne hm]
      exact h.running m
  tree := h.tree

/-- The cache is in no phase. -/
theorem Fits.setRcache (h : Fits s φ) (oid : List UInt8) (c : C) : Fits (s.setRcache oid c) φ :=
  ⟨h.fresh, h.held, h.running, h.tree⟩

/-- A request is received. -/
theorem Fits.received (h : Fits s φ) (r : Request C) (hinput : s.input = none) :
    Fits (s.receive r) (Function.update φ s.messages.length .held) where
  fresh m := by
    rcases eq_or_ne m s.messages.length with rfl | hm
    · simp [Probe.receive]
    · rw [Function.update_of_ne hm, h.fresh]
      simp only [Probe.receive, List.length_append, List.length_singleton]
      omega
  held m := by
    rcases eq_or_ne m s.messages.length with rfl | hm
    · simp [Probe.receive]
    · rw [Function.update_of_ne hm, h.held, hinput]
      simp [Probe.receive, Ne.symm hm]
  running m := by
    rcases eq_or_ne m s.messages.length with rfl | hm
    · have hidle := (h.running s.messages.length).not.mp (by
        rw [(h.fresh s.messages.length).mpr (Nat.le_refl _)]
        simp)
      simpa [Probe.receive] using hidle
    · rw [Function.update_of_ne hm]
      exact h.running m
  tree id m := by
    refine (h.tree id m).trans (and_congr_right fun htree => ?_)
    have hrunning : φ m = .running := (h.running m).mpr fun habsent => by
      rw [habsent] at htree
      exact htree
    have hlt : m < s.messages.length := by
      have := (h.fresh m).not.mp (by rw [hrunning]; simp)
      omega
    rw [Probe.receive, List.getElem?_append_left hlt]

/-- A worker is started. -/
theorem Fits.started (h : Fits s φ) {r : Request C} {found : Option C} (hheld : Holds s n r found)
    (hworker : s.workers r.id = none) :
    Fits ((s.setWorker r.id (some n)).setThread n .started).ready
      (Function.update φ n .running) where
  fresh m := by
    rcases eq_or_ne m n with rfl | hm
    · have hphase := (h.held m).mpr ⟨found, hheld.input⟩
      have hlen := (h.fresh m).not.mp (by rw [hphase]; simp)
      simpa [Probe.ready, Probe.setThread, Probe.setWorker] using hlen
    · rw [Function.update_of_ne hm]
      exact h.fresh m
  held m := by
    rcases eq_or_ne m n with rfl | hm
    · simp [Probe.ready]
    · rw [Function.update_of_ne hm, h.held, hheld.input]
      simp [Probe.ready, Ne.symm hm]
  running m := by
    rcases eq_or_ne m n with rfl | hm
    · simp [Probe.ready, Probe.setThread]
    · rw [Function.update_of_ne hm, h.running]
      simp [Probe.ready, Probe.setThread, Probe.setWorker, Function.update_of_ne hm]
  tree id m := by
    change Function.update s.workers r.id (some n) id = some m ↔
      (Function.update s.threads n .started m).InTree ∧ ∃ r', s.messages[m]? = some r' ∧ r'.id = id
    rcases eq_or_ne m n with rfl | hm
    · rw [Function.update_self, hheld.message]
      rcases eq_or_ne id r.id with rfl | hid
      · simp [Stage.InTree]
      · have hheld' := (h.held m).mpr ⟨found, hheld.input⟩
        have hidle := (h.running m).not.mp (by rw [hheld']; simp)
        rw [Function.update_of_ne hid, h.tree, not_not.mp hidle]
        simp [Stage.InTree, Ne.symm hid]
    · rw [Function.update_of_ne hm]
      rcases eq_or_ne id r.id with rfl | hid
      · rw [Function.update_self, ← h.tree, hworker]
        simp [Ne.symm hm]
      · rw [Function.update_of_ne hid, h.tree]

/-- A worker goes on, and its place in the tree stays the same. -/
theorem Fits.goesOn (h : Fits s φ) {stage : Stage C} (hthread : s.threads n ≠ .absent)
    (hstage : stage ≠ .absent) (htree : stage.InTree ↔ (s.threads n).InTree) :
    Fits (s.setThread n stage) φ where
  fresh := h.fresh
  held := h.held
  running m := by
    rw [h.running]
    rcases eq_or_ne m n with rfl | hm
    · simp [hthread, hstage]
    · rw [setThread_of_ne hm]
  tree id m := by
    refine (h.tree id m).trans (and_congr_left fun _ => ?_)
    rcases eq_or_ne m n with rfl | hm
    · rw [setThread_self, htree]
    · rw [setThread_of_ne hm]

/-- A worker is taken out of the tree. -/
theorem Fits.removed (h : Fits s φ) {r : Request C} {stage : Stage C}
    (hthread : s.threads n ≠ .absent) (hin : (s.threads n).InTree)
    (hmessage : s.messages[n]? = some r) (hstage : stage ≠ .absent) (hout : ¬ stage.InTree) :
    Fits ((s.setWorker r.id none).setThread n stage) φ where
  fresh := h.fresh
  held := h.held
  running m := by
    rw [h.running]
    change _ ↔ Function.update s.threads n stage m ≠ .absent
    rcases eq_or_ne m n with rfl | hm
    · simp [hthread, hstage]
    · rw [Function.update_of_ne hm]
  tree id m := by
    have hworker := (h.tree r.id n).mpr ⟨hin, r, hmessage, rfl⟩
    change Function.update s.workers r.id none id = some m ↔
      (Function.update s.threads n stage m).InTree ∧ ∃ r', s.messages[m]? = some r' ∧ r'.id = id
    rcases eq_or_ne m n with rfl | hm
    · rw [Function.update_self]
      refine iff_of_false (fun hid => ?_) fun hstays => hout hstays.1
      rcases eq_or_ne id r.id with rfl | hid'
      · rw [Function.update_self] at hid
        cases hid
      · rw [Function.update_of_ne hid', h.tree, hmessage] at hid
        obtain ⟨-, r', hr', rfl⟩ := hid
        exact hid' (congrArg Request.id (Option.some.inj hr')).symm
    · rw [Function.update_of_ne hm, ← h.tree]
      rcases eq_or_ne id r.id with rfl | hid
      · rw [Function.update_self, hworker]
        simp [Ne.symm hm]
      · rw [Function.update_of_ne hid]

/-- A worker ends that is not in the tree. -/
theorem Fits.answered (h : Fits s φ) (hthread : s.threads n ≠ .absent)
    (hout : ¬ (s.threads n).InTree) :
    Fits (s.setThread n .absent) (Function.update φ n .done) where
  fresh m := by
    rcases eq_or_ne m n with rfl | hm
    · have hphase := (h.running m).mpr hthread
      have hlen := (h.fresh m).not.mp (by rw [hphase]; simp)
      simpa [Probe.setThread] using hlen
    · rw [Function.update_of_ne hm]
      exact h.fresh m
  held m := by
    rcases eq_or_ne m n with rfl | hm
    · have hphase := (h.running m).mpr hthread
      have hinput := (h.held m).not.mp (by rw [hphase]; simp)
      simpa [Probe.setThread] using hinput
    · rw [Function.update_of_ne hm]
      exact h.held m
  running m := by
    rcases eq_or_ne m n with rfl | hm
    · simp
    · rw [Function.update_of_ne hm, h.running, setThread_of_ne hm]
  tree id m := by
    refine (h.tree id m).trans (and_congr_left fun _ => ?_)
    rcases eq_or_ne m n with rfl | hm
    · rw [setThread_self]
      exact iff_of_false hout fun hin => hin
    · rw [setThread_of_ne hm]

end Fits

/-- At the start every message is still to come. -/
theorem fits_start : Fits (probeStart : Probe C) fun _ => .fresh where
  fresh n := by simp [probeStart]
  held n := by simp [probeStart]
  running n := by simp [probeStart]
  tree id n := by simp [probeStart, Stage.InTree]

/-- A step takes the phases along. -/
theorem Fits.step {φ : ℕ → Phase} (h : Fits s φ) (hmoves : Moves cfg s a s' events) :
    ∃ φ', Fits s' φ' ∧ Traces NextPhase ProbeEvent.message? φ φ' events := by
  have hheldPhase : ∀ {n r found}, Holds s n r found → φ n = .held := fun hheld =>
    (h.held _).mpr ⟨_, hheld.input⟩
  have hrunningPhase : ∀ {n stage}, s.threads n = stage → stage ≠ .absent → φ n = .running :=
    fun hthread hstage => (h.running _).mpr (hthread ▸ hstage)
  cases hmoves with
  | received hinput =>
      refine ⟨_, h.received _ hinput, .single rfl rfl ?_⟩
      rw [(h.fresh _).mpr (Nat.le_refl _)]
      exact .received _
  | noAttr hheld =>
      refine ⟨_, h.ready hheld.input, .single rfl rfl ?_⟩
      rw [hheldPhase hheld]
      exact .failed _ _
  | offline hheld =>
      refine ⟨_, h.ready hheld.input, .single rfl rfl ?_⟩
      rw [hheldPhase hheld]
      exact .replied _ _
  | hit hheld =>
      refine ⟨_, h.ready hheld.input, .single rfl rfl ?_⟩
      rw [hheldPhase hheld]
      exact .replied _ _
  | skip hheld =>
      refine ⟨_, (h.setRcache _ _).ready hheld.input, .single rfl rfl ?_⟩
      rw [hheldPhase hheld]
      exact .replied _ _
  | duplicate hheld =>
      refine ⟨_, h.ready hheld.input, .single rfl rfl ?_⟩
      rw [hheldPhase hheld]
      exact .dropped _
  | started hheld _ _ hworker =>
      refine ⟨_, h.started hheld hworker, .single rfl rfl ?_⟩
      rw [hheldPhase hheld]
      exact .started _
  | finished hthread =>
      exact ⟨φ, h.goesOn (by simp [hthread]) (by simp) (by simp [hthread, Stage.InTree]),
        .nil rfl⟩
  | @cancelled n r res ret hthread hmessage hworker =>
      have hin := (h.tree r.id n).mpr ⟨by simp [hthread, Stage.InTree], r, hmessage, rfl⟩
      cases hworker.symm.trans hin
  | removed hthread hmessage =>
      exact ⟨φ, h.removed (by simp [hthread]) (by simp [hthread, Stage.InTree]) hmessage (by simp)
        (by simp [Stage.InTree]), .nil rfl⟩
  | @cached n r oid c ret hthread =>
      have hthread' : (s.setRcache oid c).threads n = .removed (some c) ret := hthread
      exact ⟨φ, (h.setRcache oid c).goesOn (by simp [hthread']) (by simp)
        (by simp [hthread', Stage.InTree]), .nil rfl⟩
  | answered hthread =>
      refine ⟨_, h.answered (by simp [hthread]) (by simp [hthread, Stage.InTree]),
        .single rfl (by split <;> rfl) ?_⟩
      rw [hrunningPhase hthread (by simp)]
      split
      · exact .workerFailed _ _
      · exact .workerReplied _ _
  | skipCrash => exact ⟨φ, ⟨h.fresh, h.held, h.running, h.tree⟩, .other rfl rfl⟩
  | cacheCrash => exact ⟨φ, ⟨h.fresh, h.held, h.running, h.tree⟩, .other rfl rfl⟩
  | reset => exact ⟨φ, ⟨h.fresh, h.held, h.running, h.tree⟩, .other rfl rfl⟩

/-- The phases of a run. -/
theorem fits_run {as : List (ProbeAction C)} {trace : List (ProbeEvent C)}
    (h : run (probeStep cfg) probeStart as = some (s', trace)) :
    ∃ φ, Fits s' φ ∧ ∀ n, Path NextPhase .fresh (about ProbeEvent.message? n trace) (φ n) := by
  have hfollows : Follows (probeStep cfg) (fun _ => True) NextPhase ProbeEvent.message? Fits := by
    intro s s' a events φ _ hs hstep
    exact hs.step (moves_of_step hstep)
  exact hfollows.traces (fun _ _ => trivial) fits_start h

/-- A message that was dropped shares its id with another one. -/
def SharesId (s : Probe C) (e : ProbeEvent C) : Prop :=
  ∀ n, e = .dropped n →
    ∃ m r r', m ≠ n ∧ s.messages[m]? = some r ∧ s.messages[n]? = some r' ∧ r.id = r'.id

/-- Messages stay. -/
theorem message_stays (hmoves : Moves cfg s a s' events) {n : ℕ} {r : Request C}
    (h : s.messages[n]? = some r) : s'.messages[n]? = some r := by
  cases hmoves with
  | received =>
      obtain ⟨hlt, -⟩ := List.getElem?_eq_some_iff.mp h
      exact (List.getElem?_append_left hlt).trans h
  | _ => exact h

/-- Only a message is dropped whose id is in the tree of workers. -/
theorem sharesId_step (h : ∃ φ, Fits s φ) (hmoves : Moves cfg s a s' events) :
    (∃ φ, Fits s' φ) ∧ (∀ e, SharesId s e → SharesId s' e) ∧ ∀ e ∈ events, SharesId s' e := by
  obtain ⟨φ, hφ⟩ := h
  obtain ⟨φ', hφ', -⟩ := hφ.step hmoves
  refine ⟨⟨φ', hφ'⟩, fun e he n hn => ?_, fun e he k hk => ?_⟩
  · obtain ⟨m, r, r', hne, hr, hr', hid⟩ := he n hn
    exact ⟨m, r, r', hne, message_stays hmoves hr, message_stays hmoves hr', hid⟩
  · subst hk
    cases hmoves with
    | @duplicate n m r hheld hworker =>
        obtain rfl : k = n := by simpa using he
        obtain ⟨hin, r', hr', hid⟩ := (hφ.tree _ _).mp hworker
        refine ⟨m, r', r, ?_, hr', hheld.message, hid⟩
        rintro rfl
        have hheld' := (hφ.held m).mpr ⟨_, hheld.input⟩
        rw [not_not.mp ((hφ.running m).not.mp (by rw [hheld']; simp))] at hin
        exact hin
    | @cancelled n r res ret hthread hmessage hworker =>
        have hin := (hφ.tree r.id n).mpr ⟨by simp [hthread, Stage.InTree], r, hmessage, rfl⟩
        cases hworker.symm.trans hin
    | answered =>
        simp only [List.mem_singleton] at he
        split at he <;> cases he
    | _ => simp at he

/-- The answer to a message: a reply, or an error. -/
def ProbeEvent.Answers (n : ℕ) (e : ProbeEvent C) : Prop :=
  (∃ body, e = .replied n body) ∨ ∃ ret, e = .failed n ret

/-- Nothing happens to a message that is done. -/
theorem path_done {rest : List (ProbeEvent C)} {q : Phase} (h : Path NextPhase .done rest q) :
    rest = [] := by
  cases h with
  | nil => rfl
  | cons h _ => cases h

/-- The event that ends a message is an answer, unless it was dropped. -/
theorem answers_of_next {n : ℕ} {q : Phase} {e : ProbeEvent C} (h : NextPhase q e .done)
    (hkey : e.message? = some n) (hkept : e ≠ .dropped n) : e.Answers n := by
  cases h with
  | dropped k =>
      obtain rfl : k = n := Option.some.inj hkey
      exact absurd rfl hkept
  | replied k body | workerReplied k body =>
      obtain rfl : k = n := Option.some.inj hkey
      exact .inl ⟨body, rfl⟩
  | failed k ret | workerFailed k ret =>
      obtain rfl : k = n := Option.some.inj hkey
      exact .inr ⟨ret, rfl⟩

/-- What happens to a message that is not dropped. -/
theorem answers_of_path {n : ℕ} {events : List (ProbeEvent C)}
    (h : Path NextPhase .fresh events .done) (hkey : ∀ e ∈ events, e.message? = some n)
    (hkept : ∀ e ∈ events, e ≠ .dropped n) :
    ∃ e, e.Answers n ∧ (events = [.received n, e] ∨ events = [.received n, .started n, e]) := by
  cases h with
  | @cons _ q _ e₁ rest hreceived hrest =>
  cases hreceived with
  | received k =>
  obtain rfl : k = n := Option.some.inj (hkey _ List.mem_cons_self)
  cases hrest with
  | @cons _ q _ e₂ rest hnext hrest =>
  have hkey₂ : e₂.message? = some k := hkey _ (by simp)
  have hkept₂ : e₂ ≠ .dropped k := hkept _ (by simp)
  cases q with
  | fresh => cases hnext
  | held => cases hnext
  | done =>
      rw [path_done hrest]
      exact ⟨e₂, answers_of_next hnext hkey₂ hkept₂, .inl rfl⟩
  | running =>
      cases hnext with
      | started m =>
      obtain rfl : m = k := Option.some.inj hkey₂
      cases hrest with
      | @cons _ q _ e₃ rest hnext hrest =>
      have hdone : q = .done := by cases hnext <;> rfl
      subst hdone
      rw [path_done hrest]
      exact ⟨e₃, answers_of_next hnext (hkey _ (by simp)) (hkept _ (by simp)), .inr rfl⟩

/-- A probe without an offline mode that leaves its results as they are. -/
def plainConfig : ProbeConfig ℕ := ⟨none, id⟩

/-- A request. -/
def requestOne : Request ℕ := ⟨1, some [0x6F], none, false⟩

/-- Another request for the same object. -/
def requestTwo : Request ℕ := ⟨2, some [0x6F], none, false⟩

/-- The requests come one after the other. -/
def twoRequests : List (ProbeAction ℕ) :=
  [.receive requestOne, .handle, .finish 0 (some 5) 0, .remove 0, .cache 0, .reply 0,
    .receive requestTwo, .handle]

/-- What is seen of the requests. -/
def twoRequestsTrace : List (ProbeEvent ℕ) :=
  [.received 0, .started 0, .replied 0 (some 5), .received 1, .replied 1 (some 5)]

theorem run_twoRequests : ∃ s', run (probeStep plainConfig) probeStart twoRequests =
    some (s', twoRequestsTrace) ∧ s'.input = none ∧ (∀ n, s'.threads n = .absent) ∧
      s'.messages = [requestOne, requestTwo] := by
  refine ⟨_, rfl, rfl, fun n => ?_, rfl⟩
  change Function.update (Function.update (Function.update (Function.update (Function.update
    (fun _ => Stage.absent) 0 _) 0 _) 0 _) 0 _) 0 Stage.absent n = _
  rcases eq_or_ne n 0 with rfl | hn
  · rw [Function.update_self]
  · simp only [Function.update_of_ne hn]

/-- What the input handler found and what a worker has cached is in the cache, and no worker runs in
an offline mode that the probe does not support. -/
structure Known (cfg : ProbeConfig C) (s : Probe C) : Prop where
  input : ∀ {n r c oid}, Holds s n r (some c) → r.oid = some oid → s.rcache oid = some c
  online : ∀ {n}, s.threads n ≠ .absent → cfg.offline = none
  cached : ∀ {n c ret}, s.threads n = .cached c ret →
    ∃ r oid, s.messages[n]? = some r ∧ r.oid = some oid ∧ s.rcache oid = some c

/-- A result in the cache is never replaced. -/
theorem rcache_stays (hmoves : Moves cfg s a s' events) {oid : List UInt8} {c : C}
    (h : s.rcache oid = some c) : s'.rcache oid = some c := by
  have hset : ∀ {oid' : List UInt8} (c' : C), s.rcache oid' = none →
      Function.update s.rcache oid' (some c') oid = some c := by
    intro oid' c' hcache
    rw [Function.update_of_ne, h]
    rintro rfl
    cases hcache.symm.trans h
  cases hmoves with
  | skip _ _ _ hcache => exact hset _ hcache
  | cached _ _ _ hcache => exact hset _ hcache
  | _ => exact h

/-- The stage of a worker behind a step, and how it was reached. -/
inductive Advances (cfg : ProbeConfig C) (s : Probe C) (a : ProbeAction C) (s' : Probe C) (n : ℕ) :
    Stage C → Prop
  | stays {stage : Stage C} (h : s.threads n = stage) : Advances cfg s a s' n stage
  | ends : Advances cfg s a s' n .absent
  | starts {r : Request C} {oid : List UInt8} (hheld : Holds s n r none)
      (hoid : r.oid = some oid) (honline : cfg.offline = none) (hinput : s'.input = none) :
      Advances cfg s a s' n .started
  | finishes {res : Option C} {ret : ℤ} (h : s.threads n = .started)
      (hres : a = .finish n res ret) :
      Advances cfg s a s' n (.finished res ret)
  | leaves {res : Option C} {ret : ℤ} (h : s.threads n = .finished res ret) :
      Advances cfg s a s' n (.removed (res.map cfg.sortItems) ret)
  | caches {r : Request C} {oid : List UInt8} {c : C} {ret : ℤ}
      (h : s.threads n = .removed (some c) ret) (hmessage : s.messages[n]? = some r)
      (hoid : r.oid = some oid) (hcache : s'.rcache oid = some c) :
      Advances cfg s a s' n (.cached c ret)

/-- A worker that is set, and the others. -/
theorem advances_update {n : ℕ} {stage : Stage C} (h : Advances cfg s a s' n stage) (m : ℕ) :
    Advances cfg s a s' m (Function.update s.threads n stage m) := by
  rcases eq_or_ne m n with rfl | hm
  · rw [Function.update_self]
    exact h
  · rw [Function.update_of_ne hm]
    exact .stays rfl

/-- How each worker advances. -/
theorem advances_of_moves (hmoves : Moves cfg s a s' events) (n : ℕ) :
    Advances cfg s a s' n (s'.threads n) := by
  cases hmoves with
  | started hheld hoid honline => exact advances_update (.starts hheld hoid honline rfl) n
  | finished hthread => exact advances_update (.finishes hthread rfl) n
  | cancelled => exact advances_update .ends n
  | removed hthread => exact advances_update (.leaves hthread) n
  | cached hthread hmessage hoid =>
      exact advances_update (.caches hthread hmessage hoid (Function.update_self ..)) n
  | answered => exact advances_update .ends n
  | _ => exact .stays rfl

/-- The message that the input handler holds, and a new one. -/
theorem holds_of_moves (hmoves : Moves cfg s a s' events) {n : ℕ} {r : Request C}
    {found : Option C} (hheld : Holds s' n r found) :
    Holds s n r found ∧ s'.messages = s.messages ∨
      a = .receive r ∧ s' = s.receive r ∧ s.input = none ∧ n = s.messages.length ∧
        found = r.oid.bind s.rcache := by
  cases hmoves with
  | received hinput =>
      obtain ⟨rfl, rfl⟩ := Prod.mk.inj (Option.some.inj hheld.input)
      have hmessage : some _ = some r := List.getElem?_concat_length.symm.trans hheld.message
      obtain rfl := Option.some.inj hmessage
      exact .inr ⟨rfl, rfl, hinput, rfl, rfl⟩
  | noAttr | offline | hit | skip | duplicate | started => cases hheld.input
  | _ => exact .inl ⟨⟨hheld.input, hheld.message⟩, rfl⟩

/-- Steps keep it. -/
theorem Known.step (h : Known cfg s) (hmoves : Moves cfg s a s' events) : Known cfg s' where
  input hheld hoid := by
    rcases holds_of_moves hmoves hheld with ⟨hheld, -⟩ | ⟨-, rfl, -, -, hfound⟩
    · exact rcache_stays hmoves (h.input hheld hoid)
    · rw [hoid] at hfound
      exact hfound.symm
  online := by
    intro n hn
    have hnew := advances_of_moves hmoves n
    generalize s'.threads n = stage at hn hnew
    cases hnew with
    | stays hstage => exact h.online (hstage ▸ hn)
    | ends => exact absurd rfl hn
    | starts _ _ honline => exact honline
    | finishes hstage | leaves hstage | caches hstage => exact h.online (by rw [hstage]; simp)
  cached := by
    intro n c ret hn
    have hnew := advances_of_moves hmoves n
    rw [hn] at hnew
    cases hnew with
    | stays hstage =>
        obtain ⟨r, oid, hmessage, hoid, hcache⟩ := h.cached hstage
        exact ⟨r, oid, message_stays hmoves hmessage, hoid, rcache_stays hmoves hcache⟩
    | caches hstage hmessage hoid hcache =>
        exact ⟨_, _, message_stays hmoves hmessage, hoid, hcache⟩

/-- The cause of a reply: an offline mode that is not supported, or the result in the cache. -/
def Caused (cfg : ProbeConfig C) (s : Probe C) (e : ProbeEvent C) : Prop :=
  ∀ n c, e = .replied n (some c) → ∃ r oid, s.messages[n]? = some r ∧ r.oid = some oid ∧
    (cfg.offline = some c ∨ cfg.offline = none ∧ s.rcache oid = some c)

theorem Caused.step {e : ProbeEvent C} (h : Caused cfg s e) (hmoves : Moves cfg s a s' events) :
    Caused cfg s' e := by
  intro n c he
  obtain ⟨r, oid, hmessage, hoid, hcause⟩ := h n c he
  exact ⟨r, oid, message_stays hmoves hmessage, hoid,
    hcause.imp_right (And.imp_right (rcache_stays hmoves))⟩

/-- The body of a reply is the result that it was made of. -/
theorem body_of_replied {n k : ℕ} {r : Request C} {c c' : C}
    (h : ProbeEvent.replied n (r.body c) = .replied k (some c')) : k = n ∧ c = c' := by
  obtain ⟨rfl, hbody⟩ := ProbeEvent.replied.inj h
  rw [Request.body] at hbody
  split at hbody
  · cases hbody
  · exact ⟨rfl, Option.some.inj hbody⟩

/-- A new reply has a cause. -/
theorem Known.caused (h : Known cfg s) (hmoves : Moves cfg s a s' events) :
    ∀ e ∈ events, Caused cfg s' e := by
  intro e he k c' hk
  subst hk
  cases hmoves with
  | offline hheld hoid hoffline =>
      obtain ⟨rfl, rfl⟩ := body_of_replied (List.mem_singleton.mp he).symm
      exact ⟨_, _, hheld.message, hoid, .inl hoffline⟩
  | hit hheld hoid honline =>
      obtain ⟨rfl, rfl⟩ := body_of_replied (List.mem_singleton.mp he).symm
      exact ⟨_, _, hheld.message, hoid, .inr ⟨honline, h.input hheld hoid⟩⟩
  | skip hheld hoid honline =>
      obtain ⟨rfl, rfl⟩ := body_of_replied (List.mem_singleton.mp he).symm
      exact ⟨_, _, hheld.message, hoid, .inr ⟨honline, Function.update_self ..⟩⟩
  | answered hthread hmessage =>
      have hreply := List.mem_singleton.mp he
      split at hreply
      · cases hreply
      · obtain ⟨rfl, rfl⟩ := body_of_replied hreply.symm
        obtain ⟨r, oid, hmessage', hoid, hcache⟩ := h.cached hthread
        obtain rfl := Option.some.inj (hmessage.symm.trans hmessage')
        exact ⟨_, oid, hmessage, hoid, .inr ⟨h.online (by rw [hthread]; simp), hcache⟩⟩
  | _ => simp at he

theorem known_start : Known cfg (probeStart : Probe C) where
  input hheld := by cases hheld.input
  online hn := absurd rfl hn
  cached hn := by cases hn

/-- **All replies for one object are the same**, in whatever order the threads run. -/
theorem replies_agree {as : List (ProbeAction C)} {trace : List (ProbeEvent C)}
    (h : run (probeStep cfg) probeStart as = some (s', trace)) {n m : ℕ} {c c' : C}
    {r r' : Request C} (hn : .replied n (some c) ∈ trace) (hm : .replied m (some c') ∈ trace)
    (hr : s'.messages[n]? = some r) (hr' : s'.messages[m]? = some r') (hoid : r.oid = r'.oid) :
    c = c' := by
  have hevents := run_events (P := Known cfg) (E := Caused cfg)
    (fun hs hstep => ⟨hs.step (moves_of_step hstep), fun _ he => he.step (moves_of_step hstep),
      hs.caused (moves_of_step hstep)⟩) known_start h
  obtain ⟨r₁, oid, hr₁, hoid₁, hcause⟩ := hevents.2.2 _ hn n c rfl
  obtain ⟨r₂, oid', hr₂, hoid₂, hcause'⟩ := hevents.2.2 _ hm m c' rfl
  obtain rfl := Option.some.inj (hr.symm.trans hr₁)
  obtain rfl := Option.some.inj (hr'.symm.trans hr₂)
  obtain rfl := Option.some.inj (hoid₁.symm.trans (hoid.trans hoid₂))
  rcases hcause with hoffline | ⟨honline, hcache⟩
  · rcases hcause' with hoffline' | ⟨honline, -⟩
    · exact Option.some.inj (hoffline.symm.trans hoffline')
    · cases honline.symm.trans hoffline
  · rcases hcause' with hoffline | ⟨-, hcache'⟩
    · cases honline.symm.trans hoffline
    · exact Option.some.inj (hcache.symm.trans hcache')

theorem replies_agree_twoRequests : ∃ c, .replied 1 (some c) ∈ twoRequestsTrace ∧ c = 5 := by
  have hc : .replied 1 (some 5) ∈ twoRequestsTrace := by simp [twoRequestsTrace]
  obtain ⟨s', hrun, -, -, hmessages⟩ := run_twoRequests
  have hone : s'.messages[0]? = some requestOne := by
    rw [hmessages]
    rfl
  have htwo : s'.messages[1]? = some requestTwo := by
    rw [hmessages]
    rfl
  exact ⟨5, hc, replies_agree hrun hc (by simp [twoRequestsTrace]) htwo hone rfl⟩

/-! ### The process -/

/-- The worker is there, and its result is not in the cache. -/
def Stage.Busy : Stage C → Prop
  | .started | .finished _ _ | .removed _ _ => True
  | .absent | .cached _ _ => False

/-- No request comes for an object whose result a worker is about to cache, every handler returns a
result, and there is no reset. -/
def Separate (s : Probe C) : ProbeAction C → Prop
  | .receive r => ∀ {n r'}, (s.threads n).Busy → s.messages[n]? = some r' → r'.oid ≠ r.oid
  | .finish _ res _ => res ≠ none
  | .reset => False
  | .handle | .remove _ | .cache _ | .reply _ => True

/-- The process is alive, the workers have different objects, other than the one that the input
handler holds, and none of their results is in the cache. -/
structure Apart (s : Probe C) : Prop where
  alive : s.alive = true
  input : ∀ {n r found}, Holds s n r found → found = r.oid.bind s.rcache ∧
    ∀ {m r'}, (s.threads m).Busy → s.messages[m]? = some r' → r'.oid ≠ r.oid
  thread : ∀ {n}, (s.threads n).Busy →
    ∃ r oid, s.messages[n]? = some r ∧ r.oid = some oid ∧ s.rcache oid = none
  distinct : ∀ {n m r r'}, (s.threads n).Busy → (s.threads m).Busy → s.messages[n]? = some r →
    s.messages[m]? = some r' → r.oid = r'.oid → n = m
  finished : ∀ {n res ret}, s.threads n = .finished res ret → res ≠ none
  removed : ∀ {n res ret}, s.threads n = .removed res ret → res ≠ none

/-- A worker was busy already, or has just been started. -/
theorem busy_of_moves (hmoves : Moves cfg s a s' events) {n : ℕ} (h : (s'.threads n).Busy) :
    (s.threads n).Busy ∨ s'.input = none ∧ ∃ r oid, Holds s n r none ∧ r.oid = some oid := by
  have hnew := advances_of_moves hmoves n
  generalize s'.threads n = stage at h hnew
  cases hnew with
  | stays hstage => exact .inl (hstage ▸ h)
  | ends => exact h.elim
  | starts hheld hoid _ hinput => exact .inr ⟨hinput, _, _, hheld, hoid⟩
  | finishes hstage | leaves hstage => exact .inl (by rw [hstage]; trivial)
  | caches => exact h.elim

/-- The cache changes at the object of a message that the input handler answers, or of a worker that
is done. -/
theorem rcache_of_moves (hmoves : Moves cfg s a s' events) (oid : List UInt8) :
    s'.rcache oid = s.rcache oid ∨
      ∃ n r, r.oid = some oid ∧ s.messages[n]? = some r ∧
        (s.input = some (n, none) ∧ s'.input = none ∧ s'.threads = s.threads ∨
          (s.threads n).Busy ∧ ¬ (s'.threads n).Busy ∧ s'.input = s.input) := by
  cases hmoves with
  | @skip n r oid' c hheld hoid =>
      rcases eq_or_ne oid oid' with rfl | hne
      · exact .inr ⟨n, r, hoid, hheld.message, .inl ⟨hheld.input, rfl, rfl⟩⟩
      · exact .inl (Function.update_of_ne hne ..)
  | @cached n r oid' c ret hthread hmessage hoid =>
      rcases eq_or_ne oid oid' with rfl | hne
      · refine .inr ⟨n, r, hoid, hmessage, .inr ⟨by rw [hthread]; trivial, ?_, rfl⟩⟩
        rw [setThread_self]
        exact fun h => h
      · exact .inl (Function.update_of_ne hne ..)
  | _ => exact .inl rfl

/-- The messages of the workers are the same. -/
theorem message_of_busy (h : Apart s) (hmoves : Moves cfg s a s' events) {n : ℕ} {r : Request C}
    (hn : (s.threads n).Busy) (hr : s'.messages[n]? = some r) : s.messages[n]? = some r := by
  obtain ⟨r', -, hr', -, -⟩ := h.thread hn
  rw [hr', ← hr, message_stays hmoves hr']

/-- A started worker has the message that the input handler held. -/
theorem message_of_holds (hmoves : Moves cfg s a s' events) {n : ℕ} {r r' : Request C}
    {found : Option C} (hheld : Holds s n r found) (hr' : s'.messages[n]? = some r') : r' = r :=
  Option.some.inj (hr'.symm.trans (message_stays hmoves hheld.message))

/-- The process is not ended. -/
theorem Apart.alive_step (h : Apart s) (ha : Separate s a) (hmoves : Moves cfg s a s' events) :
    s'.alive = true := by
  cases hmoves with
  | skipCrash hheld hoid hcache =>
      have hfound := (h.input hheld).1
      rw [hoid, Option.bind_some, hcache] at hfound
      cases hfound
  | cacheCrash hthread hmessage hfails =>
      have hres := h.removed hthread
      obtain ⟨r, oid, hmessage', hoid, hcache⟩ := h.thread (by rw [hthread]; trivial)
      obtain rfl := Option.some.inj (hmessage.symm.trans hmessage')
      exact absurd hcache (hfails hres oid hoid)
  | reset => exact ha.elim
  | _ => exact h.alive

/-- What the input handler found is up to date, and no worker has the object of its message. -/
theorem Apart.input_step (h : Apart s) (ha : Separate s a) (hmoves : Moves cfg s a s' events)
    {n : ℕ} {r : Request C} {found : Option C} (hheld : Holds s' n r found) :
    found = r.oid.bind s'.rcache ∧
      ∀ {m r'}, (s'.threads m).Busy → s'.messages[m]? = some r' → r'.oid ≠ r.oid := by
  have hinput : s'.input ≠ none := by simp [hheld.input]
  rcases holds_of_moves hmoves hheld with ⟨hheld', -⟩ | ⟨rfl, rfl, -, -, hfound⟩
  · obtain ⟨hfound, hothers⟩ := h.input hheld'
    refine ⟨?_, fun {m r'} hm hr' => ?_⟩
    · rw [hfound]
      cases hoid : r.oid with
      | none => rfl
      | some oid =>
          rcases rcache_of_moves hmoves oid with hsame | ⟨m, r', hoid', hr', hcause⟩
          · exact hsame.symm
          · rcases hcause with ⟨-, hnone, -⟩ | ⟨hbusy, -, -⟩
            · exact absurd hnone hinput
            · exact absurd (hoid'.trans hoid.symm) (hothers hbusy hr')
    · rcases busy_of_moves hmoves hm with hbusy | ⟨hnone, -⟩
      · exact hothers hbusy (message_of_busy h hmoves hbusy hr')
      · exact absurd hnone hinput
  · refine ⟨hfound, fun {m r'} hm hr' => ?_⟩
    exact ha hm (message_of_busy h hmoves hm hr')

/-- The results of the workers are not in the cache. -/
theorem Apart.thread_step (h : Apart s) (hmoves : Moves cfg s a s' events) {n : ℕ}
    (hn : (s'.threads n).Busy) :
    ∃ r oid, s'.messages[n]? = some r ∧ r.oid = some oid ∧ s'.rcache oid = none := by
  rcases busy_of_moves hmoves hn with hbusy | ⟨-, r, oid, hheld, hoid⟩
  · obtain ⟨r, oid, hr, hoid, hcache⟩ := h.thread hbusy
    refine ⟨r, oid, message_stays hmoves hr, hoid, ?_⟩
    rcases rcache_of_moves hmoves oid with hsame | ⟨m, r', hoid', hr', hcause⟩
    · rw [hsame, hcache]
    · rcases hcause with ⟨hinput, -, -⟩ | ⟨hbusy', hidle, -⟩
      · exact absurd (hoid.trans hoid'.symm) ((h.input ⟨hinput, hr'⟩).2 hbusy hr)
      · obtain rfl := h.distinct hbusy hbusy' hr hr' (hoid.trans hoid'.symm)
        exact absurd hn hidle
  · refine ⟨r, oid, message_stays hmoves hheld.message, hoid, ?_⟩
    have hfound := (h.input hheld).1
    rw [hoid] at hfound
    rcases rcache_of_moves hmoves oid with hsame | ⟨m, r', hoid', hr', hcause⟩
    · rw [hsame]
      exact hfound.symm
    · rcases hcause with ⟨hinput, -, hthreads⟩ | ⟨hbusy', hidle, -⟩
      · obtain ⟨rfl, -⟩ := Prod.mk.inj (Option.some.inj (hinput.symm.trans hheld.input))
        rw [hthreads] at hn
        exact absurd rfl ((h.input hheld).2 hn hheld.message)
      · exact absurd (hoid'.trans hoid.symm) ((h.input hheld).2 hbusy' hr')

/-- The workers have different objects. -/
theorem Apart.distinct_step (h : Apart s) (hmoves : Moves cfg s a s' events) {n m : ℕ}
    {r r' : Request C} (hn : (s'.threads n).Busy) (hm : (s'.threads m).Busy)
    (hr : s'.messages[n]? = some r) (hr' : s'.messages[m]? = some r') (hoid : r.oid = r'.oid) :
    n = m := by
  rcases busy_of_moves hmoves hn with hn | ⟨-, r₁, oid, hheld, -⟩
  · have hr := message_of_busy h hmoves hn hr
    rcases busy_of_moves hmoves hm with hm | ⟨-, r₂, oid, hheld, -⟩
    · exact h.distinct hn hm hr (message_of_busy h hmoves hm hr') hoid
    · obtain rfl := message_of_holds hmoves hheld hr'
      exact absurd hoid ((h.input hheld).2 hn hr)
  · obtain rfl := message_of_holds hmoves hheld hr
    rcases busy_of_moves hmoves hm with hm | ⟨-, r₂, oid, hheld', -⟩
    · exact absurd hoid.symm ((h.input hheld).2 hm (message_of_busy h hmoves hm hr'))
    · exact (Prod.mk.inj (Option.some.inj (hheld.input.symm.trans hheld'.input))).1

/-- Every separate step keeps it. -/
theorem Apart.step (h : Apart s) (ha : Separate s a) (hmoves : Moves cfg s a s' events) :
    Apart s' where
  alive := h.alive_step ha hmoves
  input := h.input_step ha hmoves
  thread := h.thread_step hmoves
  distinct := h.distinct_step hmoves
  finished := by
    intro n res ret hn
    have hnew := advances_of_moves hmoves n
    rw [hn] at hnew
    cases hnew with
    | stays hstage => exact h.finished hstage
    | finishes _ hres =>
        subst hres
        exact ha
  removed := by
    intro n res ret hn
    have hnew := advances_of_moves hmoves n
    rw [hn] at hnew
    generalize hremoved : Stage.removed res ret = stage at hnew
    cases hnew with
    | stays hstage => exact h.removed (hstage.trans hremoved.symm)
    | leaves hstage =>
        obtain ⟨rfl, rfl⟩ := Stage.removed.inj hremoved
        exact fun hnone => h.finished hstage (Option.map_eq_none_iff.mp hnone)
    | ends | starts | finishes | caches => cases hremoved

/-- The probe starts so. -/
theorem apart_start : Apart (probeStart : Probe C) where
  alive := rfl
  input hheld := by cases hheld.input
  thread hn := hn.elim
  distinct hn := hn.elim
  finished hn := by cases hn
  removed hn := by cases hn

end OpenScap.ProbeWorker
