import WindCloud.Queue
import Mathlib.Logic.Relation
import Mathlib.Data.List.Induction
/-!
# The thread pool

| here | there |
| --- | --- |
| `Pool`                       | `thread_pool_t` (`thread_pool.h:38`); the threads themselves are `System.workers` |
| `Pool.next`                  | the locked section of `thread_func` (`worker.c:16-55`), from a test of the loop condition to the unlock or the wait |
| `Pool.unregisterActiveFd`    | `unregister_active_fd` (`thread_pool.c:67`) |
| `Pool.shutdownActiveFds`     | `shutdown_active_fds` (`thread_pool.c:88`): the descriptors `shutdown` is called on |
| `Pool.drainPendingFds`       | `drain_pending_fds` (`thread_pool.c:105`), with the descriptors it closes |
| `Signal`, `broadcast`        | `pthread_cond_signal`, `pthread_cond_broadcast` |
| `Step`                       | one step of the main thread (`server.c:160-226`) or of a worker |

A section under `lock` is one step. Between steps a thread stands where `Main` or `Worker` says.
`accept` answers with a descriptor that is not open, and the number of a closed one may come again:
`log` keeps what became of each, and a descriptor is open when its last event is no `close`
(`isOpen`). Where a worker serves its connection (`handle_request`) the pool is not touched.
-/

namespace WindCloud.ThreadPool

structure Pool where
  queue : Queue
  activeFds : List Int
  exitFlag : Bool

namespace Pool

/-- `init_thread_pool`. -/
def init (num : Nat) : Pool := ⟨.empty, List.replicate num (-1), false⟩

def unregisterActiveFd (pool : Pool) (fd : Int) : Pool :=
  { pool with activeFds := pool.activeFds.replace fd (-1) }

def shutdownActiveFds (pool : Pool) : List Int := pool.activeFds.filter (· ≠ -1)

/-- The loop of `drain_pending_fds`; each round takes one, so `size` rounds are enough. -/
def drainLoop : Nat → Queue → Option (List Int × Queue)
  | 0, queue => some ([], queue)
  | n + 1, queue =>
    if queue.size > 0 then do
      let (fd, queue) ← queue.deQueue
      let (fds, queue) ← drainLoop n queue
      some (if fd ≠ -1 then fd :: fds else fds, queue)
    else some ([], queue)

def drainPendingFds (pool : Pool) : Option (List Int × Pool) := do
  let (fds, queue) ← drainLoop pool.queue.size pool.queue
  some (fds, { pool with queue })

end Pool

/-- Where a worker stands: before the lock at the top of its loop, in `pthread_cond_wait`, woken
from it, between registration and unregistration, before `close`, or at its end. -/
inductive Worker where
  | testing
  | waiting
  | signalled
  | serving (clientFd : Int)
  | closing (clientFd : Int)
  | exited
deriving DecidableEq, Repr

namespace Worker

/-- The worker has the connection in its hands. -/
def holds (fd : Int) : Worker → Bool
  | serving f | closing f => f == fd
  | _ => false

/-- On the way to test the loop condition. -/
def retests : Worker → Bool
  | testing | signalled => true
  | _ => false

def isServing : Worker → Bool
  | serving _ => true
  | _ => false

def serves (fd : Int) : Worker → Bool
  | serving f => f == fd
  | _ => false

@[simp] theorem holds_serving (f fd : Int) : (serving f).holds fd = (f == fd) := rfl
@[simp] theorem holds_closing (f fd : Int) : (closing f).holds fd = (f == fd) := rfl
@[simp] theorem serves_serving (f fd : Int) : (serving f).serves fd = (f == fd) := rfl

theorem serves_iff {fd : Int} {w : Worker} : w.serves fd = true ↔ w = .serving fd := by
  cases w <;> simp [serves]

/-- A thread about to test the loop condition has no connection. -/
theorem retests_free {w : Worker} (h : w.retests = true) (fd : Int) :
    w.holds fd = false ∧ w.serves fd = false ∧ w.isServing = false := by
  cases w <;> first | exact ⟨rfl, rfl, rfl⟩ | cases h

end Worker

/-- The locked section of a worker: to sleep, to leave, or to take and register a connection. -/
def Pool.next (pool : Pool) : Option (Pool × Worker) :=
  if pool.queue.size = 0 ∧ pool.exitFlag = false then some (pool, .waiting)
  else if pool.exitFlag then some (pool, .exited)
  else do
    let (clientFd, queue) ← pool.queue.deQueue
    some ({ pool with queue, activeFds := pool.activeFds.replace (-1) clientFd }, .serving clientFd)

/-- Where the main thread stands: in its event loop, between `accept` and the enqueueing section,
with the listening socket closed, after the flag is set, after `shutdown_active_fds`, or joining. -/
inductive Main where
  | polling
  | accepted (connFd : Int)
  | stopping
  | flagged
  | shut
  | joining (i : Nat)
deriving DecidableEq, Repr

/-- The main thread has the connection in its hands. -/
def Main.holds (fd : Int) : Main → Bool
  | accepted f => f == fd
  | _ => false

def Main.hand : Main → List Int
  | accepted fd => [fd]
  | _ => []

/-- The exit flag is set from here on. -/
def Main.exiting : Main → Bool
  | flagged | shut | joining _ => true
  | _ => false

/-- What happens to a connection. -/
inductive Event where
  | accept (fd : Int)
  | take (fd : Int)
  | shutdown (fd : Int)
  | close (fd : Int)
deriving DecidableEq, Repr

structure System where
  pool : Pool
  workers : List Worker
  main : Main
  log : List Event

def System.init (num : Nat) : System := ⟨.init num, List.replicate num .testing, .polling, []⟩

/-! ## The log -/

/-- What one event makes of a descriptor. -/
def Event.opens (fd : Int) (opened : Bool) : Event → Bool
  | accept f => if f = fd then true else opened
  | close f => if f = fd then false else opened
  | _ => opened

/-- Whether the descriptor is an accepted connection that has not been closed since. -/
def isOpen (log : List Event) (fd : Int) : Bool := log.foldl (Event.opens fd) false

/-- The connections accepted, in order. -/
def accepts (log : List Event) : List Int := log.filterMap fun | .accept fd => some fd | _ => none

/-- The connections workers took, in order. -/
def takes (log : List Event) : List Int := log.filterMap fun | .take fd => some fd | _ => none

/-- What may happen after `log`: only what is open is closed or shut down. -/
def Event.Allowed (log : List Event) : Event → Prop
  | accept fd => isOpen log fd = false
  | close fd | shutdown fd => isOpen log fd = true
  | take _ => True

/-- Each event was allowed when it happened. -/
def Sound (log : List Event) : Prop := ∀ pre e post, log = pre ++ e :: post → e.Allowed pre

/-! ## Steps -/

/-- `pthread_cond_signal` wakes one of the threads that wait, if there is one. -/
inductive Signal (ws : List Worker) : List Worker → Prop
  | wake {i : Nat} (h : ws[i]? = some .waiting) : Signal ws (ws.set i .signalled)
  | idle (h : .waiting ∉ ws) : Signal ws ws

def broadcast (ws : List Worker) : List Worker := ws.map fun w => if w = .waiting then .signalled else w

/-- What the log shows of the locked section. -/
def Worker.taken : Worker → List Event
  | serving fd => [.take fd]
  | _ => []

inductive Step : System → System → Prop
  /-- `accept` (`server.c:209`). -/
  | accept {s : System} {fd : Int} (hmain : s.main = .polling) (hfd : 0 ≤ fd) (hfree : isOpen s.log fd = false) :
      Step s { s with main := .accepted fd, log := s.log ++ [.accept fd] }
  /-- The section that enqueues and signals (`server.c:222-225`). -/
  | enqueue {s : System} {fd : Int} {node : Nat} {queue : Queue} {ws : List Worker} (hmain : s.main = .accepted fd)
      (hnode : s.pool.queue.nodes node = none) (hqueue : s.pool.queue.enQueue node fd = some queue)
      (hsignal : Signal s.workers ws) :
      Step s { s with pool := { s.pool with queue }, workers := ws, main := .polling }
  /-- The exit event: `close(listen_fd)` (`server.c:173`). -/
  | stop {s : System} (hmain : s.main = .polling) : Step s { s with main := .stopping }
  /-- The section that sets the flag and wakes everyone (`server.c:178-181`). -/
  | raise {s : System} (hmain : s.main = .stopping) :
      Step s { s with pool := { s.pool with exitFlag := true }, workers := broadcast s.workers, main := .flagged }
  | shutdownActive {s : System} (hmain : s.main = .flagged) :
      Step s { s with main := .shut, log := s.log ++ s.pool.shutdownActiveFds.map .shutdown }
  | drain {s : System} {fds : List Int} {pool : Pool} (hmain : s.main = .shut)
      (hdrain : s.pool.drainPendingFds = some (fds, pool)) :
      Step s { s with pool, main := .joining 0, log := s.log ++ fds.map .close }
  /-- `pthread_join` of thread `i` returns (`server.c:192`). -/
  | join {s : System} {i : Nat} (hmain : s.main = .joining i) (hw : s.workers[i]? = some .exited) :
      Step s { s with main := .joining (i + 1) }
  /-- A wake-up nobody asked for. -/
  | spurious {s : System} {i : Nat} (hw : s.workers[i]? = some .waiting) :
      Step s { s with workers := s.workers.set i .signalled }
  /-- A worker's locked section. -/
  | next {s : System} {i : Nat} {w w' : Worker} {pool : Pool} (hw : s.workers[i]? = some w) (hretests : w.retests = true)
      (hnext : s.pool.next = some (pool, w')) :
      Step s { s with pool, workers := s.workers.set i w', log := s.log ++ w'.taken }
  /-- `handle_request` has returned (`worker.c:70-73`). -/
  | unregister {s : System} {i : Nat} {fd : Int} (hw : s.workers[i]? = some (.serving fd)) :
      Step s { s with pool := s.pool.unregisterActiveFd fd, workers := s.workers.set i (.closing fd) }
  | close {s : System} {i : Nat} {fd : Int} (hw : s.workers[i]? = some (.closing fd)) :
      Step s { s with workers := s.workers.set i .testing, log := s.log ++ [.close fd] }

/-- Any order of steps. -/
abbrev Steps : System → System → Prop := Relation.ReflTransGen Step

/-- What a pool of `num` workers can come to. -/
def Reachable (num : Nat) (s : System) : Prop := Steps (.init num) s

/-- What holds at the start and is kept by every step from a reachable state holds in every one. -/
theorem Reachable.invariant {num : Nat} {I : System → Prop} (h0 : I (.init num))
    (hstep : ∀ s s', Reachable num s → I s → Step s s' → I s') {s : System} (h : Reachable num s) : I s := by
  induction h with
  | refl => exact h0
  | tail hr hs ih => exact hstep _ _ hr ih hs

/-! ## Lemmas on the log -/

section Log

variable {log : List Event} {fd f : Int} {e : Event} {fds : List Int}

theorem isOpen_snoc : isOpen (log ++ [e]) fd = e.opens fd (isOpen log fd) := by simp [isOpen]

theorem isOpen_shutdowns : isOpen (log ++ fds.map .shutdown) fd = isOpen log fd := by
  induction fds generalizing log with
  | nil => simp
  | cons g fds ih =>
    have hassoc : log ++ (g :: fds).map .shutdown = (log ++ [.shutdown g]) ++ fds.map .shutdown := by simp
    rw [hassoc, ih, isOpen_snoc]
    rfl

theorem isOpen_closes : isOpen (log ++ fds.map .close) fd = (isOpen log fd && fd ∉ fds) := by
  induction fds generalizing log with
  | nil => simp
  | cons g fds ih =>
    have hassoc : log ++ (g :: fds).map .close = (log ++ [.close g]) ++ fds.map .close := by simp
    rw [hassoc, ih, isOpen_snoc, Event.opens]
    by_cases hg : g = fd
    · simp [hg]
    · simp [hg, Ne.symm hg]

theorem Sound.nil : Sound [] := by simp [Sound]

/-- One more event. -/
theorem Sound.snoc (h : Sound log) (he : e.Allowed log) : Sound (log ++ [e]) := by
  intro pre f post hsplit
  rcases List.eq_nil_or_concat post with rfl | ⟨post, last, rfl⟩
  · obtain ⟨rfl, hlast⟩ := List.append_inj' hsplit rfl
    obtain rfl : e = f := by simpa using hlast
    exact he
  · rw [List.concat_eq_append, ← List.cons_append, ← List.append_assoc] at hsplit
    exact h pre f post (List.append_inj' hsplit rfl).1

theorem Sound.init (h : Sound (log ++ [e])) : Sound log ∧ e.Allowed log := by
  refine ⟨?_, h log e [] rfl⟩
  rintro pre f post rfl
  exact h pre f (post ++ [e]) (by simp)

theorem Sound.shutdowns (h : Sound log) (hopen : ∀ fd ∈ fds, isOpen log fd = true) :
    Sound (log ++ fds.map .shutdown) := by
  induction fds generalizing log with
  | nil => simpa using h
  | cons g fds ih =>
    rw [List.forall_mem_cons] at hopen
    have hassoc : log ++ (g :: fds).map .shutdown = (log ++ [.shutdown g]) ++ fds.map .shutdown := by simp
    rw [hassoc]
    refine ih (h.snoc hopen.1) ?_
    intro fd hfd
    rw [isOpen_snoc]
    exact hopen.2 fd hfd

theorem Sound.closes (h : Sound log) (hnodup : fds.Nodup) (hopen : ∀ fd ∈ fds, isOpen log fd = true) :
    Sound (log ++ fds.map .close) := by
  induction fds generalizing log with
  | nil => simpa using h
  | cons g fds ih =>
    rw [List.forall_mem_cons] at hopen
    rw [List.nodup_cons] at hnodup
    have hassoc : log ++ (g :: fds).map .close = (log ++ [.close g]) ++ fds.map .close := by simp
    rw [hassoc]
    refine ih (h.snoc hopen.1) hnodup.2 ?_
    intro fd hfd
    have hne : g ≠ fd := by
      rintro rfl
      exact hnodup.1 hfd
    simp [isOpen_snoc, Event.opens, hne, hopen.2 fd hfd]

theorem accepts_append {log' : List Event} : accepts (log ++ log') = accepts log ++ accepts log' :=
  List.filterMap_append ..

theorem takes_append {log' : List Event} : takes (log ++ log') = takes log ++ takes log' := List.filterMap_append ..

@[simp] theorem accepts_shutdowns : accepts (fds.map .shutdown) = [] := by
  simp [accepts, List.filterMap_map]

@[simp] theorem accepts_closes : accepts (fds.map .close) = [] := by
  simp [accepts, List.filterMap_map]

@[simp] theorem takes_shutdowns : takes (fds.map .shutdown) = [] := by
  simp [takes, List.filterMap_map]

@[simp] theorem takes_closes : takes (fds.map .close) = [] := by
  simp [takes, List.filterMap_map]

@[simp] theorem accepts_taken (w : Worker) : accepts w.taken = [] := by cases w <;> rfl

/-- What is not open has been closed as often as it was accepted. -/
theorem Sound.count_close (h : Sound log) (fd : Int) :
    log.count (.close fd) + (if isOpen log fd then 1 else 0) = log.count (.accept fd) := by
  induction log using List.reverseRecOn with
  | nil => simp [isOpen]
  | append_singleton log e ih =>
    obtain ⟨hlog, he⟩ := h.init
    have ih := ih hlog
    rw [List.count_append, List.count_append, isOpen_snoc]
    cases e with
    | accept g =>
      have he : isOpen log g = false := he
      by_cases hg : g = fd
      · subst hg
        simp [Event.opens, he] at ih ⊢
        omega
      · simpa [Event.opens, hg, List.count_singleton] using ih
    | close g =>
      have he : isOpen log g = true := he
      by_cases hg : g = fd
      · subst hg
        simp [Event.opens, he] at ih ⊢
        omega
      · simpa [Event.opens, hg, List.count_singleton] using ih
    | take g =>
      have hsame : Event.opens fd (isOpen log fd) (.take g) = isOpen log fd := rfl
      simpa [hsame, List.count_singleton] using ih
    | shutdown g =>
      have hsame : Event.opens fd (isOpen log fd) (.shutdown g) = isOpen log fd := rfl
      simpa [hsame, List.count_singleton] using ih

end Log

end WindCloud.ThreadPool
