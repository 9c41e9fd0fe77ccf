import WindCloud.EventLoopProgress
import WindCloud.Lib.Sections
/-!
# The sections under the pool's lock

In `EventLoop` a section under `pool.lock` is one step. Here it is the steps of the source, with a thread that runs at any
place of it, and between any two of them every other thread goes on with what it does without the lock: it may accept a
connection, be signalled, close a descriptor, or wake up for no reason.

| here | there |
| --- | --- |
| `Place`      | the places of the sections (`worker.c:16-55`, `thread_pool.c:67-117`, `server.c:178-181`, `:222-225`) |
| `Place.scan` | the two loops over `active_fds` (`worker.c:48`, `thread_pool.c:70`), which differ in what they look for |
| `InPool`     | the steps that see nothing but the queue, the table and the flag |
| `Inside`     | with those that wake a thread, shut a connection down or close one |
| `Leave`      | `pthread_mutex_unlock`, and `pthread_cond_wait`, which unlocks and sleeps at once |

`Reached` says what a section has done at each place of it, so that a whole one is a step of `EventLoop` (`comes_of_coarse`),
and the steps of `EventLoop` are whole sections (`comes_of_acts`). That the other threads may come in between makes no
difference either, up to the order of events about different descriptors (`Alike`): see `Atomicity`. Leaving by
a failing `epoll_wait` (`Act.fail`), whose `exit` may come in the middle of a section of another thread, is left out.
-/

namespace WindCloud.ThreadPool

/-- The descriptor an event is about. -/
def Event.fd : ThreadPool.Event → Int
  | accept fd | take fd | shutdown fd | close fd => fd

/-- What became of one descriptor. -/
def about (fd : Int) (log : List ThreadPool.Event) : List ThreadPool.Event := log.filter (·.fd = fd)

end WindCloud.ThreadPool

namespace WindCloud.EventLoop

open ThreadPool Interaction Relation

inductive Thread where
  | main
  | worker (i : Nat)
  | outside
deriving DecidableEq, Repr

namespace Act

def thread : Act → Thread
  | connect | interrupt | spurious _ => .outside
  | next i | unregister i | close i => .worker i
  | _ => .main

/-- The acts that are sections. -/
def isSection : Act → Bool
  | enqueue | raise | shutdownActiveFds | drainPendingFds | next _ | unregister _ => true
  | _ => false

end Act

namespace Locking

/-- A slot of `active_fds` is filled with a connection, or freed. -/
inductive Slot where
  | fill
  | free
deriving DecidableEq, Repr

/-- What the loop looks for. -/
def Slot.old (fd : Int) : Slot → Int
  | fill => -1
  | free => fd

/-- What it puts there. -/
def Slot.new (fd : Int) : Slot → Int
  | fill => fd
  | free => -1

/-- Where the thread that holds the lock stands. -/
inductive Place where
  | loopTest
  | asleep
  | exitTest
  | exiting
  | dequeue
  | scan (slot : Slot) (fd : Int) (idx : Nat)
  | scanned (slot : Slot) (fd : Int)
  | enqueue (connFd : Int)
  | signal
  | signalled
  | setFlag
  | broadcast
  | flagged
  | shutdown (idx : Nat)
  | shut
  | drain
  | pending (fd : Int)
  | drained
deriving DecidableEq, Repr

/-- The steps on the queue, the table and the flag. -/
inductive InPool : Place × Pool → Place × Pool → Prop
  /-- `while (pool->queue.size == 0 && !pool->exitFlag)` (`worker.c:26`). -/
  | sleeps {pool : Pool} (h : pool.queue.size = 0 ∧ pool.exitFlag = false) : InPool (.loopTest, pool) (.asleep, pool)
  | wakes {pool : Pool} (h : ¬ (pool.queue.size = 0 ∧ pool.exitFlag = false)) : InPool (.loopTest, pool) (.exitTest, pool)
  /-- `if (pool->exitFlag)` (`worker.c:34`). -/
  | exits {pool : Pool} (h : pool.exitFlag = true) : InPool (.exitTest, pool) (.exiting, pool)
  | stays {pool : Pool} (h : pool.exitFlag = false) : InPool (.exitTest, pool) (.dequeue, pool)
  | dequeue {pool : Pool} {fd : Int} {queue : Queue} (h : pool.queue.deQueue = some (fd, queue)) :
      InPool (.dequeue, pool) (.scan .fill fd 0, { pool with queue })
  /-- `pool->active_fds[idx]` is not what the loop looks for. -/
  | skip {pool : Pool} {slot : Slot} {fd x : Int} {idx : Nat} (hx : pool.activeFds[idx]? = some x)
      (hne : x ≠ slot.old fd) : InPool (.scan slot fd idx, pool) (.scan slot fd (idx + 1), pool)
  | found {pool : Pool} {slot : Slot} {fd : Int} {idx : Nat} (hx : pool.activeFds[idx]? = some (slot.old fd)) :
      InPool (.scan slot fd idx, pool)
        (.scanned slot fd, { pool with activeFds := pool.activeFds.set idx (slot.new fd) })
  /-- `idx < pool->num` fails. -/
  | ends {pool : Pool} {slot : Slot} {fd : Int} {idx : Nat} (hx : pool.activeFds[idx]? = none) :
      InPool (.scan slot fd idx, pool) (.scanned slot fd, pool)
  | enqueue {pool : Pool} {fd : Int} {node : Nat} {queue : Queue} (hnode : pool.queue.nodes node = none)
      (hqueue : pool.queue.enQueue node fd = some queue) : InPool (.enqueue fd, pool) (.signal, { pool with queue })
  | setFlag {pool : Pool} : InPool (.setFlag, pool) (.broadcast, { pool with exitFlag := true })
  /-- `if (pool->active_fds[idx] != -1)` (`thread_pool.c:92`). -/
  | vacant {pool : Pool} {idx : Nat} (hx : pool.activeFds[idx]? = some (-1)) :
      InPool (.shutdown idx, pool) (.shutdown (idx + 1), pool)
  | shut {pool : Pool} {idx : Nat} (hx : pool.activeFds[idx]? = none) : InPool (.shutdown idx, pool) (.shut, pool)
  /-- `while (pool->queue.size > 0)` (`thread_pool.c:108`). -/
  | pending {pool : Pool} {fd : Int} {queue : Queue} (hsize : 0 < pool.queue.size)
      (h : pool.queue.deQueue = some (fd, queue)) : InPool (.drain, pool) (.pending fd, { pool with queue })
  | ignore {pool : Pool} : InPool (.pending (-1), pool) (.drain, pool)
  | drained {pool : Pool} (hsize : pool.queue.size = 0) : InPool (.drain, pool) (.drained, pool)

inductive Inside : Place × Process → Place × Process → Prop
  | pool {p : Process} {l l' : Place} {pool : Pool} (h : InPool (l, p.pool) (l', pool)) :
      Inside (l, p) (l', { p with pool })
  | signal {p : Process} {ws : List Worker} (h : Signal p.workers ws) :
      Inside (.signal, p) (.signalled, { p with workers := ws })
  | broadcast {p : Process} : Inside (.broadcast, p) (.flagged, { p with workers := broadcast p.workers })
  | shutdown {p : Process} {fd : Int} {idx : Nat} (hx : p.pool.activeFds[idx]? = some fd) (hne : fd ≠ -1) :
      Inside (.shutdown idx, p) (.shutdown (idx + 1), { p with log := p.log ++ [.shutdown fd] })
  | close {p : Process} {fd : Int} (hne : fd ≠ -1) :
      Inside (.pending fd, p) (.drain, { p with log := p.log ++ [.close fd] })

/-- `pthread_mutex_lock`, and where a thread goes on behind it. -/
inductive Enter : Thread → Process → Place → Prop
  | next {p : Process} {i : Nat} {w : Worker} (halive : p.point.stopped = false) (hw : p.workers[i]? = some w)
      (hretests : w.retests = true) : Enter (.worker i) p .loopTest
  | unregister {p : Process} {i : Nat} {fd : Int} (halive : p.point.stopped = false)
      (hw : p.workers[i]? = some (.serving fd)) : Enter (.worker i) p (.scan .free fd 0)
  | enqueue {p : Process} {fd : Int} {rest : List Source} (hpoint : p.point = .accepted fd rest) :
      Enter .main p (.enqueue fd)
  | raise {p : Process} (hpoint : p.point = .stopping) : Enter .main p .setFlag
  | shutdown {p : Process} (hpoint : p.point = .flagged) : Enter .main p (.shutdown 0)
  | drain {p : Process} (hpoint : p.point = .shut) : Enter .main p .drain

/-- Where a worker goes from the end of its section. -/
def Place.worker : Place → Option Worker
  | asleep => some .waiting
  | exiting => some .exited
  | scanned .fill fd => some (.serving fd)
  | scanned .free fd => some (.closing fd)
  | _ => none

inductive Leave : Thread → Place → Process → Process → Prop
  | worker {p : Process} {i : Nat} {l : Place} {w : Worker} (hw : l.worker = some w) :
      Leave (.worker i) l p { p with workers := p.workers.set i w, log := p.log ++ w.taken }
  | enqueue {p : Process} {fd : Int} {rest : List Source} (hpoint : p.point = .accepted fd rest) :
      Leave .main .signalled p { p with point := .polling rest }
  | raise {p : Process} : Leave .main .flagged p { p with point := .flagged }
  | shutdown {p : Process} : Leave .main .shut p { p with point := .shut }
  | drain {p : Process} : Leave .main .drained p { p with point := .joining 0 }

/-- What a thread does without the lock. -/
def Out (th : Thread) (p p' : Process) : Prop := ∃ a, Step p a p' ∧ a.isSection = false ∧ a ≠ .fail ∧ a.thread = th

/-- The process in small steps. -/
def sections : Sections Thread Process Place := ⟨Out, Enter, fun _ => Inside, Leave⟩

/-- What it can come to, with the thread that holds the lock. -/
def Comes (num backlog notices : Nat) (c : Process × Option (Thread × Place)) : Prop :=
  ReflTransGen sections.Step (.init num backlog notices, none) c

/-! ## Up to the order of events about different descriptors -/

section Order

variable {p p' q : Process} {a : Act} {e e' : ThreadPool.Event} {log log' : List ThreadPool.Event} {fd : Int} {th : Thread}
  {l l' : Place}

/-- Logs that tell the same of each descriptor. -/
def SameEvents (log log' : List ThreadPool.Event) : Prop := ∀ fd, about fd log = about fd log'

theorem SameEvents.append (h : SameEvents log log') (evs : List ThreadPool.Event) :
    SameEvents (log ++ evs) (log' ++ evs) := by
  intro fd
  rw [about, List.filter_append]
  exact (congrArg (· ++ about fd evs) (h fd)).trans (List.filter_append ..).symm

theorem SameEvents.swap (hne : e.fd ≠ e'.fd) : SameEvents (log ++ [e] ++ [e']) (log ++ [e'] ++ [e]) := by
  intro fd
  by_cases he : e.fd = fd
  · have he' : ¬ e'.fd = fd := fun h => hne (he.trans h.symm)
    simp [about, he, he']
  · by_cases he' : e'.fd = fd
    · simp [about, he, he']
    · simp [about, he, he']

/-- Whether a descriptor is open is told by the events about it. -/
theorem isOpen_about (fd : Int) (log : List ThreadPool.Event) : isOpen (about fd log) fd = isOpen log fd := by
  have hfold (opened : Bool) :
      (about fd log).foldl (ThreadPool.Event.opens fd) opened = log.foldl (ThreadPool.Event.opens fd) opened := by
    induction log generalizing opened with
    | nil => rfl
    | cons e log ih =>
      by_cases he : e.fd = fd
      · simp only [about, List.filter_cons, he, decide_true, if_true, List.foldl_cons]
        exact ih _
      · have hsame : ThreadPool.Event.opens fd opened e = opened := by
          cases e <;> simp_all [ThreadPool.Event.opens, ThreadPool.Event.fd]
        simp only [about, List.filter_cons, he, decide_false, Bool.false_eq_true, if_false, List.foldl_cons, hsame]
        exact ih _
  exact hfold false

theorem SameEvents.isOpen (h : SameEvents log log') (fd : Int) : isOpen log' fd = isOpen log fd := by
  rw [← isOpen_about, ← h fd, isOpen_about]

/-- An event is allowed by what became of its descriptor. -/
theorem allowed_about (e : ThreadPool.Event) (log : List ThreadPool.Event) :
    e.Allowed (about e.fd log) ↔ e.Allowed log := by
  cases e with
  | take => exact Iff.rfl
  | accept fd | shutdown fd | close fd =>
    simp only [ThreadPool.Event.Allowed]
    rw [show ThreadPool.Event.fd _ = fd from rfl, isOpen_about]

theorem SameEvents.sound (h : SameEvents log log') (hsound : Sound log) : Sound log' := by
  rintro pre e post rfl
  -- the same event in the other log, with the same past of its descriptor
  have habout : about e.fd log = about e.fd pre ++ e :: about e.fd post := by
    rw [h e.fd]
    simp [about]
  obtain ⟨pre', tail, rfl, hpre, htail⟩ := List.filter_eq_append_iff.1 habout
  obtain ⟨skipped, post', rfl, hskipped, -, -⟩ := List.filter_eq_cons_iff.1 htail
  have hnone : about e.fd skipped = [] := List.filter_eq_nil_iff.2 hskipped
  have hpast : about e.fd (pre' ++ skipped) = about e.fd pre := by
    rw [about, List.filter_append, ← about, ← about, hnone, List.append_nil]
    exact hpre
  rw [← allowed_about, ← hpast, allowed_about]
  exact hsound _ e post' (by simp)

/-- Processes that differ in the order of such events only. -/
def Alike (p q : Process) : Prop := ∃ log, q = { p with log } ∧ SameEvents p.log log

theorem alike_equivalence : Equivalence Alike where
  refl p := ⟨p.log, rfl, fun _ => rfl⟩
  symm := by
    rintro p _ ⟨log, rfl, h⟩
    exact ⟨p.log, rfl, fun fd => (h fd).symm⟩
  trans := by
    rintro p _ _ ⟨log, rfl, h⟩ ⟨log', rfl, h'⟩
    exact ⟨log', rfl, fun fd => (h fd).trans (h' fd)⟩

/-- Who owns a connection is not a matter of that order. -/
theorem Alike.owned (h : Alike p q) (ho : Owned p.system) : Owned q.system := by
  obtain ⟨log, rfl, h⟩ := h
  have hopen (fd : Int) : isOpen log fd = isOpen p.log fd := h.isOpen fd
  exact ⟨ho.queue, fun fd => (ho.places fd).trans (congrArg Bool.toNat (hopen fd).symm),
    fun fd hfd => ho.nonneg fd ((hopen fd).symm.trans hfd), ho.slots, ho.free, h.sound ho.sound⟩

theorem Out.alike (h : Alike p q) (hs : Out th p p') : ∃ q', Out th q q' ∧ Alike p' q' := by
  obtain ⟨log, rfl, h⟩ := h
  obtain ⟨a, hs, ha⟩ := hs
  cases hs with
  | connect halive hheld => exact ⟨_, ⟨_, .connect halive hheld, ha⟩, log, rfl, h⟩
  | interrupt halive => exact ⟨_, ⟨_, .interrupt halive, ha⟩, log, rfl, h⟩
  | eintr hpoint => exact ⟨_, ⟨_, .eintr hpoint, ha⟩, log, rfl, h⟩
  | report hpoint hne hnodup hready => exact ⟨_, ⟨_, .report hpoint hne hnodup hready, ha⟩, log, rfl, h⟩
  | accept hpoint hpending hfd hfree =>
    exact ⟨_, ⟨_, .accept hpoint hpending hfd ((h.isOpen _).trans hfree), ha⟩, _, rfl, h.append _⟩
  | refuse hpoint hpending hbacklog => exact ⟨_, ⟨_, .refuse hpoint hpending hbacklog, ha⟩, log, rfl, h⟩
  | read hpoint hbyte => exact ⟨_, ⟨_, .read hpoint hbyte, ha⟩, log, rfl, h⟩
  | closeListenFd hpoint => exact ⟨_, ⟨_, .closeListenFd hpoint, ha⟩, log, rfl, h⟩
  | join hpoint hw => exact ⟨_, ⟨_, .join hpoint hw, ha⟩, log, rfl, h⟩
  | leave hpoint => exact ⟨_, ⟨_, .leave hpoint, ha⟩, log, rfl, h⟩
  | release hpoint => exact ⟨_, ⟨_, .release hpoint, ha⟩, log, rfl, h⟩
  | ret hpoint => exact ⟨_, ⟨_, .ret hpoint, ha⟩, log, rfl, h⟩
  | spurious halive hw => exact ⟨_, ⟨_, .spurious halive hw, ha⟩, log, rfl, h⟩
  | close halive hw => exact ⟨_, ⟨_, .close halive hw, ha⟩, _, rfl, h.append _⟩
  | fail => exact absurd rfl ha.2.1
  | _ => cases ha.1

theorem Enter.alike (h : Alike p q) (hs : Enter th p l) : Enter th q l := by
  obtain ⟨log, rfl, -⟩ := h
  cases hs with
  | next halive hw hretests => exact .next halive hw hretests
  | unregister halive hw => exact .unregister halive hw
  | enqueue hpoint => exact .enqueue hpoint
  | raise hpoint => exact .raise hpoint
  | shutdown hpoint => exact .shutdown hpoint
  | drain hpoint => exact .drain hpoint

theorem Inside.alike (h : Alike p q) (hs : Inside (l, p) (l', p')) : ∃ q', Inside (l, q) (l', q') ∧ Alike p' q' := by
  obtain ⟨log, rfl, h⟩ := h
  cases hs with
  | pool hs => exact ⟨_, .pool hs, log, rfl, h⟩
  | signal hs => exact ⟨_, .signal hs, log, rfl, h⟩
  | broadcast => exact ⟨_, .broadcast, log, rfl, h⟩
  | shutdown hx hne => exact ⟨_, .shutdown hx hne, _, rfl, h.append _⟩
  | close hne => exact ⟨_, .close hne, _, rfl, h.append _⟩

theorem Leave.alike (h : Alike p q) (hs : Leave th l p p') : ∃ q', Leave th l q q' ∧ Alike p' q' := by
  obtain ⟨log, rfl, h⟩ := h
  cases hs with
  | worker hw => exact ⟨_, .worker hw, _, rfl, h.append _⟩
  | enqueue hpoint => exact ⟨_, .enqueue hpoint, log, rfl, h⟩
  | raise => exact ⟨_, .raise, log, rfl, h⟩
  | shutdown => exact ⟨_, .shutdown, log, rfl, h⟩
  | drain => exact ⟨_, .drain, log, rfl, h⟩

end Order

/-! ## What a section has done so far -/

section Reached

variable {t s s' : Process} {th : Thread} {l l₀ l' : Place} {num backlog notices : Nat} {acts : List Act}

/-- The loop over `active_fds` is a replacement. -/
theorem set_eq_replace {xs : List Int} {idx : Nat} {x : Int} (hx : xs[idx]? = some x) (hnot : x ∉ xs.take idx) (y : Int) :
    xs.set idx y = xs.replace x y := by
  induction xs generalizing idx with
  | nil => cases hx
  | cons z xs ih =>
    cases idx with
    | zero =>
      obtain rfl : z = x := Option.some.inj hx
      rw [List.set_cons_zero, List.replace_cons_self]
    | succ idx =>
      rw [List.take_succ_cons, List.mem_cons, not_or] at hnot
      have hne : (x == z) = false := beq_false_of_ne hnot.1
      rw [List.set_cons_succ, ih hx hnot.2, List.replace_cons, hne]

/-- The loop has gone on over one more slot. -/
theorem not_mem_take_succ {xs : List Int} {idx : Nat} {x z : Int} (hx : xs[idx]? = some x) (hne : x ≠ z)
    (hnot : z ∉ xs.take idx) : z ∉ xs.take (idx + 1) := by
  rw [List.take_add_one, hx, Option.toList_some, List.mem_append, List.mem_singleton, not_or]
  exact ⟨hnot, hne.symm⟩

/-- The loop has come to the end. -/
theorem not_mem_of_take {xs : List Int} {idx : Nat} {z : Int} (hx : xs[idx]? = none) (hnot : z ∉ xs.take idx) :
    z ∉ xs := by
  rwa [List.take_of_length_le (List.getElem?_eq_none_iff.1 hx)] at hnot

/-- The thread is a worker on its way to the test of the loop. -/
def Tests (th : Thread) (t : Process) : Prop :=
  ∃ i w, th = .worker i ∧ t.point.stopped = false ∧ t.workers[i]? = some w ∧ w.retests = true

/-- The thread is a worker whose `handle_request` has returned. -/
def Served (th : Thread) (t : Process) (fd : Int) : Prop :=
  ∃ i, th = .worker i ∧ t.point.stopped = false ∧ t.workers[i]? = some (.serving fd)

/-- The queue is on the way to being drained: `done` are taken, `rest` are not. -/
structure Draining (t : Process) (done rest : List Int) (queue : Queue) : Prop where
  holds : queue.Holds rest
  split : t.pool.queue.contents = done ++ rest
  loop : Pool.drainLoop t.pool.queue.size t.pool.queue = (Pool.drainLoop queue.size queue).map fun r => (done ++ r.1, r.2)

/-- One round of the loop. -/
theorem Draining.next {done rest : List Int} {queue queue' : Queue} {fd : Int} (h : Draining t done rest queue)
    (hneg : -1 ∉ t.pool.queue.contents) (hsize : 0 < queue.size) (hdeq : queue.deQueue = some (fd, queue')) :
    ∃ rest', Draining t (done ++ [fd]) rest' queue' := by
  rcases rest with _ | ⟨x, rest⟩
  · exact absurd h.holds.size (Nat.ne_of_gt hsize)
  · obtain ⟨queue₁, hdeq₁, hholds⟩ := Queue.deQueue_holds h.holds
    obtain ⟨rfl, rfl⟩ : x = fd ∧ queue₁ = queue' := by simpa [hdeq₁] using hdeq
    have hne : x ≠ -1 := by
      rintro rfl
      exact hneg (by simp [h.split])
    refine ⟨rest, hholds, by simp [h.split], ?_⟩
    have hround : Pool.drainLoop queue.size queue =
        (Pool.drainLoop queue₁.size queue₁).map fun r => (x :: r.1, r.2) := by
      rw [h.holds.size, List.length_cons, hholds.size, Pool.drainLoop, if_pos hsize, hdeq]
      cases hloop : Pool.drainLoop rest.length queue₁ <;> simp [hne, hloop]
    rw [h.loop, hround, Option.map_map]
    congr 1
    funext r
    simp

/-- What the section that `th` began in `t` has made of it when it stands at a place. -/
def Reached (th : Thread) (t : Process) : Place → Process → Prop
  | .loopTest, s => Tests th t ∧ s = t
  | .asleep, s => Tests th t ∧ s = t ∧ t.pool.next = some (t.pool, .waiting)
  | .exitTest, s => Tests th t ∧ s = t ∧ ¬ (t.pool.queue.size = 0 ∧ t.pool.exitFlag = false)
  | .exiting, s => Tests th t ∧ s = t ∧ t.pool.next = some (t.pool, .exited)
  | .dequeue, s => Tests th t ∧ s = t ∧ t.pool.queue.size ≠ 0 ∧ t.pool.exitFlag = false
  | .scan .fill fd idx, s => Tests th t ∧ (t.pool.queue.size ≠ 0 ∧ t.pool.exitFlag = false) ∧
      -1 ∉ t.pool.activeFds.take idx ∧ ∃ queue, t.pool.queue.deQueue = some (fd, queue) ∧
      s = { t with pool := { t.pool with queue } }
  | .scanned .fill fd, s => Tests th t ∧ ∃ pool, t.pool.next = some (pool, .serving fd) ∧ s = { t with pool }
  | .scan .free fd idx, s => Served th t fd ∧ s = t ∧ fd ∉ t.pool.activeFds.take idx
  | .scanned .free fd, s => Served th t fd ∧ s = { t with pool := t.pool.unregisterActiveFd fd }
  | .enqueue fd, s => th = .main ∧ (∃ rest, t.point = .accepted fd rest) ∧ s = t
  | .signal, s => th = .main ∧ ∃ fd rest node queue, t.point = .accepted fd rest ∧ t.pool.queue.nodes node = none ∧
      t.pool.queue.enQueue node fd = some queue ∧ s = { t with pool := { t.pool with queue } }
  | .signalled, s => th = .main ∧ ∃ fd rest node queue ws, t.point = .accepted fd rest ∧ t.pool.queue.nodes node = none ∧
      t.pool.queue.enQueue node fd = some queue ∧ Signal t.workers ws ∧
      s = { t with pool := { t.pool with queue }, workers := ws }
  | .setFlag, s => th = .main ∧ t.point = .stopping ∧ s = t
  | .broadcast, s => th = .main ∧ t.point = .stopping ∧ s = { t with pool := { t.pool with exitFlag := true } }
  | .flagged, s => th = .main ∧ t.point = .stopping ∧
      s = { t with pool := { t.pool with exitFlag := true }, workers := broadcast t.workers }
  | .shutdown idx, s => th = .main ∧ t.point = .flagged ∧
      s = { t with log := t.log ++ ((t.pool.activeFds.take idx).filter (· ≠ -1)).map .shutdown }
  | .shut, s => th = .main ∧ t.point = .flagged ∧ s = { t with log := t.log ++ t.pool.shutdownActiveFds.map .shutdown }
  | .drain, s => th = .main ∧ t.point = .shut ∧ ∃ done rest queue, Draining t done rest queue ∧
      s = { t with pool := { t.pool with queue }, log := t.log ++ done.map .close }
  | .pending fd, s => th = .main ∧ t.point = .shut ∧ ∃ done rest queue, Draining t (done ++ [fd]) rest queue ∧
      s = { t with pool := { t.pool with queue }, log := t.log ++ done.map .close }
  | .drained, s => th = .main ∧ t.point = .shut ∧ ∃ fds pool, t.pool.drainPendingFds = some (fds, pool) ∧
      s = { t with pool, log := t.log ++ fds.map .close }

theorem Enter.reached (h : Enter th t l) (ho : Owned t.system) : Reached th t l t := by
  cases h with
  | next halive hw hretests => exact ⟨⟨_, _, rfl, halive, hw, hretests⟩, rfl⟩
  | unregister halive hw => exact ⟨⟨_, rfl, halive, hw⟩, rfl, by simp⟩
  | enqueue hpoint => exact ⟨rfl, ⟨_, hpoint⟩, rfl⟩
  | raise hpoint => exact ⟨rfl, hpoint, rfl⟩
  | shutdown hpoint => exact ⟨rfl, hpoint, by simp⟩
  | drain hpoint =>
    refine ⟨rfl, hpoint, [], _, t.pool.queue, ⟨ho.queue, rfl, ?_⟩, by simp⟩
    simp

theorem next_of_deQueue {pool : Pool} {fd : Int} {queue : Queue} (h : pool.queue.size ≠ 0 ∧ pool.exitFlag = false)
    (hdeq : pool.queue.deQueue = some (fd, queue)) :
    pool.next = some ({ pool with queue, activeFds := pool.activeFds.replace (-1) fd }, .serving fd) := by
  simp [Pool.next, h.1, h.2, hdeq]

theorem Reached.inPool (h : Reached th t l s) (ho : Owned t.system) {pool : Pool} (hs : InPool (l, s.pool) (l', pool)) :
    Reached th t l' { s with pool } := by
  cases hs with
  | sleeps hwait =>
    obtain ⟨htests, rfl⟩ := h
    exact ⟨htests, rfl, by simp [Pool.next, hwait]⟩
  | wakes hwait => 
    obtain ⟨htests, rfl⟩ := h
    exact ⟨htests, rfl, hwait⟩
  | exits hexit =>
    obtain ⟨htests, rfl, -⟩ := h
    exact ⟨htests, rfl, by simp [Pool.next, hexit]⟩
  | stays hexit =>
    obtain ⟨htests, rfl, hwait⟩ := h
    exact ⟨htests, rfl, fun hsize => hwait ⟨hsize, hexit⟩, hexit⟩
  | dequeue hdeq =>
    obtain ⟨htests, rfl, hready⟩ := h
    exact ⟨htests, hready, by simp, _, hdeq, rfl⟩
  | @skip _ slot fd x idx hx hne =>
    cases slot with
    | fill =>
      obtain ⟨htests, hready, hnot, queue, hdeq, rfl⟩ := h
      exact ⟨htests, hready, not_mem_take_succ hx hne hnot, queue, hdeq, rfl⟩
    | free =>
      obtain ⟨hserved, rfl, hnot⟩ := h
      exact ⟨hserved, rfl, not_mem_take_succ hx hne hnot⟩
  | @found _ slot fd idx hx =>
    cases slot with
    | fill =>
      obtain ⟨htests, hready, hnot, queue, hdeq, rfl⟩ := h
      refine ⟨htests, _, next_of_deQueue hready hdeq, ?_⟩
      have hx : t.pool.activeFds[idx]? = some (-1) := hx
      rw [← set_eq_replace hx hnot]
      rfl
    | free =>
      obtain ⟨hserved, rfl, hnot⟩ := h
      refine ⟨hserved, ?_⟩
      have hx : s.pool.activeFds[idx]? = some fd := hx
      rw [Pool.unregisterActiveFd, ← set_eq_replace hx hnot]
      rfl
  | @ends _ slot fd idx hx =>
    cases slot with
    | fill =>
      obtain ⟨htests, hready, hnot, queue, hdeq, rfl⟩ := h
      refine ⟨htests, _, next_of_deQueue hready hdeq, ?_⟩
      rw [List.replace_of_not_mem (not_mem_of_take hx hnot)]
    | free =>
      obtain ⟨hserved, rfl, hnot⟩ := h
      refine ⟨hserved, ?_⟩
      rw [Pool.unregisterActiveFd, List.replace_of_not_mem (not_mem_of_take hx hnot)]
  | enqueue hnode hqueue =>
    obtain ⟨rfl, ⟨rest, hpoint⟩, rfl⟩ := h
    exact ⟨rfl, _, rest, _, _, hpoint, hnode, hqueue, rfl⟩
  | setFlag =>
    obtain ⟨rfl, hpoint, rfl⟩ := h
    exact ⟨rfl, hpoint, rfl⟩
  | vacant hx =>
    obtain ⟨rfl, hpoint, rfl⟩ := h
    refine ⟨rfl, hpoint, ?_⟩
    have hx : t.pool.activeFds[_]? = some (-1) := hx
    rw [List.take_add_one, hx]
    simp
  | shut hx =>
    obtain ⟨rfl, hpoint, rfl⟩ := h
    refine ⟨rfl, hpoint, ?_⟩
    have hx : t.pool.activeFds[_]? = none := hx
    rw [List.take_of_length_le (List.getElem?_eq_none_iff.1 hx)]
    rfl
  | pending hsize hdeq =>
    obtain ⟨rfl, hpoint, done, rest, queue, hdrain, rfl⟩ := h
    obtain ⟨rest', hnext⟩ := hdrain.next ho.queue_neg hsize hdeq
    exact ⟨rfl, hpoint, done, rest', _, hnext, rfl⟩
  | ignore =>
    obtain ⟨rfl, hpoint, done, rest, queue, hdrain, rfl⟩ := h
    refine absurd ?_ ho.queue_neg
    rw [show t.system.pool = t.pool from rfl, hdrain.split]
    simp
  | drained hsize =>
    obtain ⟨rfl, hpoint, done, rest, queue, hdrain, rfl⟩ := h
    refine ⟨rfl, hpoint, done, _, ?_, rfl⟩
    have hsize : queue.size = 0 := hsize
    simp [Pool.drainPendingFds, hdrain.loop, hsize, Pool.drainLoop]

theorem Reached.inside (h : Reached th t l s) (ho : Owned t.system) (hs : Inside (l, s) (l', s')) : Reached th t l' s' := by
  cases hs with
  | pool hs => exact h.inPool ho hs
  | signal hsignal =>
    obtain ⟨rfl, fd, rest, node, queue, hpoint, hnode, hqueue, rfl⟩ := h
    exact ⟨rfl, fd, rest, node, queue, _, hpoint, hnode, hqueue, hsignal, rfl⟩
  | broadcast =>
    obtain ⟨rfl, hpoint, rfl⟩ := h
    exact ⟨rfl, hpoint, rfl⟩
  | shutdown hx hne =>
    obtain ⟨rfl, hpoint, rfl⟩ := h
    refine ⟨rfl, hpoint, ?_⟩
    have hx : t.pool.activeFds[_]? = some _ := hx
    rw [List.take_add_one, hx]
    simp [hne]
  | close hne =>
    obtain ⟨rfl, hpoint, done, rest, queue, hdrain, rfl⟩ := h
    exact ⟨rfl, hpoint, _, rest, queue, hdrain, by simp⟩

/-- **What a section has done** at each place of it. -/
theorem reached (henter : Enter th t l₀) (hinside : ReflTransGen Inside (l₀, t) (l, s)) (ho : Owned t.system) :
    Reached th t l s := by
  generalize hc : (l, s) = c at hinside
  induction hinside generalizing l s with
  | refl =>
    cases hc
    exact henter.reached ho
  | @tail b _ _ hs ih =>
    subst hc
    exact (ih (l := b.1) (s := b.2) rfl).inside ho hs

/-- With the unlock the section is the step of the loop. -/
theorem Reached.leave (h : Reached th t l s) (hs : Leave th l s s') : ∃ a, Step t a s' ∧ a.isSection = true := by
  cases hs with
  | @worker _ i _ w hw =>
    cases l with
    | asleep =>
      obtain ⟨⟨j, v, hth, halive, hv, hretests⟩, rfl, hnext⟩ := h
      obtain rfl := Thread.worker.inj hth
      obtain rfl := Option.some.inj hw
      exact ⟨_, .next halive hv hretests hnext, rfl⟩
    | exiting =>
      obtain ⟨⟨j, v, hth, halive, hv, hretests⟩, rfl, hnext⟩ := h
      obtain rfl := Thread.worker.inj hth
      obtain rfl := Option.some.inj hw
      exact ⟨_, .next halive hv hretests hnext, rfl⟩
    | scanned slot fd =>
      cases slot with
      | fill =>
        obtain ⟨⟨j, v, hth, halive, hv, hretests⟩, pool, hnext, rfl⟩ := h
        obtain rfl := Thread.worker.inj hth
        obtain rfl := Option.some.inj hw
        exact ⟨_, .next halive hv hretests hnext, rfl⟩
      | free =>
        obtain ⟨⟨j, hth, halive, hv⟩, rfl⟩ := h
        obtain rfl := Thread.worker.inj hth
        obtain rfl := Option.some.inj hw
        refine ⟨.unregister i, ?_, rfl⟩
        rw [show Worker.taken (.closing fd) = [] from rfl, List.append_nil]
        exact .unregister halive hv
    | _ => cases hw
  | enqueue hpoint =>
    obtain ⟨-, fd, rest, node, queue, ws, hpoint', hnode, hqueue, hsignal, rfl⟩ := h
    obtain ⟨rfl, rfl⟩ := Point.accepted.inj (hpoint'.symm.trans hpoint)
    exact ⟨_, .enqueue hpoint' hnode hqueue hsignal, rfl⟩
  | raise =>
    obtain ⟨-, hpoint, rfl⟩ := h
    exact ⟨_, .raise hpoint, rfl⟩
  | shutdown =>
    obtain ⟨-, hpoint, rfl⟩ := h
    exact ⟨_, .shutdownActiveFds hpoint, rfl⟩
  | drain =>
    obtain ⟨-, hpoint, fds, pool, hdrain, rfl⟩ := h
    exact ⟨_, .drainPendingFds hpoint hdrain, rfl⟩

/-- Whole sections are steps of the loop. -/
theorem comes_of_coarse (h : ReflTransGen sections.Coarse (.init num backlog notices) t) :
    ∃ acts, EventLoop.Comes num backlog notices acts t ∧ .fail ∉ acts := by
  induction h with
  | refl => exact ⟨[], .nil, List.not_mem_nil⟩
  | tail _ hs ih =>
    obtain ⟨acts, hcomes, hacts⟩ := ih
    cases hs with
    | out hout =>
      obtain ⟨a, hs, -, hne, -⟩ := hout
      exact ⟨_, hcomes.snoc hs, by simp [hacts, hne.symm]⟩
    | whole henter hinside hleave =>
      obtain ⟨a, hs, hsection⟩ := (reached henter hinside hcomes.reachable.owned).leave hleave
      have hne : Act.fail ≠ a := by
        rintro rfl
        cases hsection
      exact ⟨_, hcomes.snoc hs, by simp [hacts, hne]⟩

end Reached

/-! ## The steps of the loop, one by one -/

section Whole

variable {p p' : Process} {pool : Pool} {k : Nat} {w : Worker} {fd : Int} {num backlog notices : Nat} {acts : List Act}

theorem size_deQueue {queue queue' : Queue} (h : queue.deQueue = some (fd, queue')) (hsize : 0 < queue.size) :
    queue'.size + 1 = queue.size := by
  rw [Queue.deQueue, if_neg (Nat.ne_of_gt hsize)] at h
  obtain ⟨head, -, h⟩ := Option.bind_eq_some_iff.1 h
  obtain ⟨cell, -, h⟩ := Option.bind_eq_some_iff.1 h
  obtain ⟨-, rfl⟩ := Prod.mk.inj (Option.some.inj h)
  exact Nat.sub_add_cancel hsize

/-- The loop over `active_fds` from `idx` on. -/
theorem scan_path (slot : Slot) (fd : Int) {idx n : Nat} (hlen : p.pool.activeFds.length = idx + n)
    (hnot : slot.old fd ∉ p.pool.activeFds.take idx) :
    ReflTransGen Inside (.scan slot fd idx, p) (.scanned slot fd,
      { p with pool := { p.pool with activeFds := p.pool.activeFds.replace (slot.old fd) (slot.new fd) } }) := by
  induction n generalizing idx with
  | zero =>
    have hx : p.pool.activeFds[idx]? = none := List.getElem?_eq_none (by omega)
    rw [List.replace_of_not_mem (not_mem_of_take hx hnot)]
    exact .single (.pool (.ends hx))
  | succ n ih =>
    have hx : p.pool.activeFds[idx]? = some p.pool.activeFds[idx] := List.getElem?_eq_getElem (by omega)
    by_cases heq : p.pool.activeFds[idx] = slot.old fd
    · rw [heq] at hx
      rw [← set_eq_replace hx hnot]
      exact .single (.pool (.found hx))
    · exact .head (.pool (.skip hx heq)) (ih (by omega) (not_mem_take_succ hx heq hnot))

theorem shutdown_path {idx n : Nat} (hlen : p.pool.activeFds.length = idx + n) :
    ReflTransGen Inside (.shutdown idx, p)
      (.shut, { p with log := p.log ++ ((p.pool.activeFds.drop idx).filter (· ≠ -1)).map .shutdown }) := by
  induction n generalizing idx p with
  | zero =>
    have hx : p.pool.activeFds[idx]? = none := List.getElem?_eq_none (by omega)
    rw [List.drop_eq_nil_of_le (by omega)]
    simpa using ReflTransGen.single (Inside.pool (p := p) (.shut hx))
  | succ n ih =>
    have hlt : idx < p.pool.activeFds.length := by omega
    have hlen' : p.pool.activeFds.length = idx + 1 + n := by omega
    have hx : p.pool.activeFds[idx]? = some p.pool.activeFds[idx] := List.getElem?_eq_getElem hlt
    rw [List.drop_eq_getElem_cons hlt]
    by_cases heq : p.pool.activeFds[idx] = -1
    · rw [heq] at hx ⊢
      rw [List.filter_cons_of_neg (by simp)]
      exact .head (.pool (.vacant hx)) (ih (p := p) hlen')
    · have hrest := @ih { p with log := p.log ++ [.shutdown p.pool.activeFds[idx]] } (idx + 1) hlen'
      rw [List.append_assoc] at hrest
      rw [List.filter_cons_of_pos (by simpa using heq)]
      exact .head (.shutdown hx heq) hrest

theorem drain_path {n : Nat} {fds : List Int} {queue : Queue} (hsize : p.pool.queue.size = n)
    (hloop : Pool.drainLoop n p.pool.queue = some (fds, queue)) :
    ReflTransGen Inside (.drain, p)
      (.drained, { p with pool := { p.pool with queue }, log := p.log ++ fds.map .close }) := by
  induction n generalizing fds p with
  | zero =>
    obtain ⟨rfl, rfl⟩ := Prod.mk.inj (Option.some.inj hloop)
    simpa using ReflTransGen.single (Inside.pool (p := p) (.drained hsize))
  | succ n ih =>
    have hpos : 0 < p.pool.queue.size := by omega
    rw [Pool.drainLoop, if_pos hpos] at hloop
    obtain ⟨⟨fd, queue₁⟩, hdeq, hloop⟩ := Option.bind_eq_some_iff.1 hloop
    obtain ⟨⟨rest, queue₂⟩, hrest, hloop⟩ := Option.bind_eq_some_iff.1 hloop
    obtain ⟨rfl, rfl⟩ := Prod.mk.inj (Option.some.inj hloop)
    have hsize₁ := size_deQueue hdeq hpos
    refine .head (.pool (.pending hpos hdeq)) ?_
    by_cases heq : fd = -1
    · subst heq
      exact .head (.pool .ignore) (ih (by simp only; omega) hrest)
    · have hdrained := @ih { p with pool := { p.pool with queue := queue₁ }, log := p.log ++ [.close fd] } rest
        (by simp only; omega) hrest
      rw [List.append_assoc] at hdrained
      rw [if_pos heq]
      exact .head (.close heq) hdrained

theorem whole_of_next {w' : Worker} (halive : p.point.stopped = false) (hw : p.workers[k]? = some w)
    (hretests : w.retests = true) (hnext : p.pool.next = some (pool, w')) :
    sections.Coarse p { p with pool, workers := p.workers.set k w', log := p.log ++ w'.taken } := by
  unfold Pool.next at hnext
  split at hnext
  · rename_i hwait
    obtain ⟨rfl, rfl⟩ := Prod.mk.inj (Option.some.inj hnext)
    exact .whole (.next halive hw hretests) (.single (.pool (.sleeps hwait))) (.worker rfl)
  rename_i hwait
  split at hnext
  · rename_i hexit
    obtain ⟨rfl, rfl⟩ := Prod.mk.inj (Option.some.inj hnext)
    exact .whole (.next halive hw hretests) (.head (.pool (.wakes hwait)) (.single (.pool (.exits hexit)))) (.worker rfl)
  · rename_i hexit
    rw [Bool.not_eq_true] at hexit
    obtain ⟨⟨fd, queue⟩, hdeq, hnext⟩ := Option.bind_eq_some_iff.1 hnext
    obtain ⟨rfl, rfl⟩ := Prod.mk.inj (Option.some.inj hnext)
    have hscan := @scan_path { p with pool := { p.pool with queue } } .fill fd 0 _ (Nat.zero_add _).symm (by simp)
    exact .whole (.next halive hw hretests)
      (.head (.pool (.wakes hwait)) (.head (.pool (.stays hexit)) (.head (.pool (.dequeue hdeq)) hscan))) (.worker rfl)

/-- What the loop does in one step, the threads do in a section or without the lock. -/
theorem coarse_of_step {a : Act} (hs : Step p a p') (hne : a ≠ .fail) : sections.Coarse p p' := by
  cases hsection : a.isSection with
  | false => exact .out ⟨a, hs, hsection, hne, rfl⟩
  | true =>
  cases hs with
  | next halive hw hretests hnext => exact whole_of_next halive hw hretests hnext
  | @unregister i fd halive hw =>
    have hleave := Leave.worker (p := { p with pool := p.pool.unregisterActiveFd fd }) (i := i) (l := .scanned .free fd) rfl
    rw [show Worker.taken (.closing fd) = [] from rfl, List.append_nil] at hleave
    exact .whole (.unregister halive hw) (scan_path .free fd (Nat.zero_add _).symm (by simp)) hleave
  | enqueue hpoint hnode hqueue hsignal =>
    exact .whole (.enqueue hpoint) (.head (.pool (.enqueue hnode hqueue)) (.single (.signal hsignal))) (.enqueue hpoint)
  | raise hpoint => exact .whole (.raise hpoint) (.head (.pool .setFlag) (.single .broadcast)) .raise
  | shutdownActiveFds hpoint => exact .whole (.shutdown hpoint) (shutdown_path (Nat.zero_add _).symm) .shutdown
  | drainPendingFds hpoint hdrain =>
    obtain ⟨⟨fds, queue⟩, hloop, hdrain⟩ := Option.bind_eq_some_iff.1 hdrain
    obtain ⟨rfl, rfl⟩ := Prod.mk.inj (Option.some.inj hdrain)
    exact .whole (.drain hpoint) (drain_path rfl hloop) .drain
  | _ => cases hsection

/-- The runs of the loop are runs in small steps. -/
theorem comes_of_acts (h : EventLoop.Comes num backlog notices acts p) (hacts : .fail ∉ acts) :
    Comes num backlog notices (p, none) := by
  induction acts using List.reverseRecOn generalizing p with
  | nil =>
    cases h
    exact .refl
  | append_singleton acts a ih =>
    obtain ⟨q, hq, hlast⟩ := Runs.split h
    rw [List.mem_append, List.mem_singleton, not_or] at hacts
    cases hlast with
    | cons hs hnil =>
      cases hnil
      exact (ih hq hacts.1).trans (coarse_of_step hs (Ne.symm hacts.2)).run

end Whole

end Locking
end WindCloud.EventLoop
