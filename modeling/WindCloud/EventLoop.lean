import WindCloud.PoolShutdown
import WindCloud.Lib.Acts
/-!
# The event loop of the server

| here | there |
| --- | --- |
| `Source`           | the two descriptors of the epoll set, `listen_fd` and `pipe_fd[0]` (`server.c:129-130`, `add_epoll_fd`) |
| `Process`          | the server once it has started: the pool, its threads, what the kernel holds for it, what it holds itself |
| `Act.interrupt`    | `handle_sigint` (`server.c:40`) |
| `Act.report`, `eintr`, `fail` | the three ways `epoll_wait` returns (`server.c:141-152`) |
| `Step`             | the body of the loop (`server.c:134-228`), one constructor for each call that another thread or the kernel can see |
| `exitOrder`        | what the exit path gives back after the joins (`server.c:196-201`) |

`Process.system` forgets the kernel and the descriptors of the process: what is left is the pool's
`System`, and every run of the loop is one of it (`Step.simulates`). `epoll` is level triggered: a
report lists the sources that are ready, each once, and 16 events are room for both.

The pipe never fills: the handler would block from the 65537th unread byte on.
-/

namespace WindCloud.EventLoop

open ThreadPool Interaction

inductive Source where
  | listenFd
  | pipeFd
deriving DecidableEq, Repr

/-- What the process holds until its exit path gives it back. -/
inductive Resource where
  | listenFd
  | pipeRead
  | pipeWrite
  | epfd
  | activeFds
  | threadIdArr
  | log
deriving DecidableEq, Repr

/-- After the joins, in this order. -/
def exitOrder : List Resource := [.pipeRead, .pipeWrite, .epfd, .activeFds, .threadIdArr, .log]

/-- Where the main thread stands. `polling rest` is the loop over the events of the last report with `rest` of them to
come, and `epoll_wait` where there are none. -/
inductive Point where
  | polling (rest : List Source)
  | accepted (connFd : Int) (rest : List Source)
  | notified
  | stopping
  | flagged
  | shut
  | joining (i : Nat)
  | releasing (rest : List Resource)
  | returned
  | failed
deriving DecidableEq, Repr

namespace Point

/-- The pool's main thread at this point; `num` threads are joined. -/
def main (num : Nat) : Point → Main
  | polling _ | notified | failed => .polling
  | accepted connFd _ => .accepted connFd
  | stopping => .stopping
  | flagged => .flagged
  | shut => .shut
  | joining i => .joining i
  | releasing _ | returned => .joining num

/-- `main` has returned, or `exit` was called. -/
def stopped : Point → Bool
  | returned | failed => true
  | _ => false

/-- The events of the last report that are still to come. -/
def rest : Point → List Source
  | polling rest | accepted _ rest => rest
  | _ => []

/-- What is held at a point. -/
def holds : Point → List Resource
  | polling _ | accepted _ _ | notified | failed => .listenFd :: exitOrder
  | stopping | flagged | shut | joining _ => exitOrder
  | releasing rest => rest
  | returned => []

end Point

/-- `backlog` counts the connections that wait for `accept`, `notices` the bytes in the pipe. -/
structure Process where
  pool : Pool
  workers : List Worker
  point : Point
  log : List ThreadPool.Event
  backlog : Nat
  notices : Nat
  held : List Resource

namespace Process

/-- At the head of the loop. Connections and signals may have come before. -/
def init (num backlog notices : Nat) : Process where
  pool := .init num
  workers := List.replicate num .testing
  point := .polling []
  log := []
  backlog := backlog
  notices := notices
  held := .listenFd :: exitOrder

def ready (p : Process) : Source → Bool
  | .listenFd => 0 < p.backlog
  | .pipeFd => 0 < p.notices

/-- What the pool's model sees. -/
def system (p : Process) : System := ⟨p.pool, p.workers, p.point.main p.workers.length, p.log⟩

end Process

inductive Act where
  | connect
  | interrupt
  | eintr
  | fail
  | report (events : List Source)
  | accept (connFd : Int)
  | refuse
  | enqueue
  | read
  | closeListenFd
  | raise
  | shutdownActiveFds
  | drainPendingFds
  | join (i : Nat)
  | leave
  | release (r : Resource)
  | ret
  | spurious (i : Nat)
  | next (i : Nat)
  | unregister (i : Nat)
  | close (i : Nat)
deriving DecidableEq, Repr

/-- What an act uses of what the process holds. -/
def Act.uses : Act → List Resource
  | connect => [.listenFd]
  | interrupt => [.pipeWrite]
  | eintr | fail | report _ => [.epfd, .listenFd, .pipeRead]
  | accept _ | refuse => [.listenFd, .log]
  | read => [.pipeRead, .log]
  | closeListenFd => [.listenFd]
  | shutdownActiveFds => [.activeFds, .log]
  | drainPendingFds => [.log]
  | join _ => [.threadIdArr]
  | release r => [r]
  | next _ | unregister _ => [.activeFds, .log]
  | close _ => [.log]
  | enqueue | raise | leave | ret | spurious _ => []

/-- What an act gives back. -/
def Act.gives : Act → Option Resource
  | closeListenFd => some .listenFd
  | release r => some r
  | _ => none

/-- The acts of the main thread that do not depend on the kernel's answer to `epoll_wait`, and its report. -/
def Act.ofMain : Act → Bool
  | report _ | accept _ | refuse | enqueue | read | closeListenFd | raise | shutdownActiveFds | drainPendingFds | join _
  | leave | release _ | ret => true
  | _ => false

inductive Step : Process → Act → Process → Prop
  /-- The kernel completes a connection on the listening socket. -/
  | connect {p : Process} (halive : p.point.stopped = false) (hheld : .listenFd ∈ p.held) :
      Step p .connect { p with backlog := p.backlog + 1 }
  /-- From `close(pipe_fd[0])` on the handler's `write` fails, for want of a reader and then of a pipe (`server.c:89`
  ignores `SIGPIPE`). -/
  | interrupt {p : Process} (halive : p.point.stopped = false) :
      Step p .interrupt { p with notices := if .pipeRead ∈ p.held ∧ .pipeWrite ∈ p.held then p.notices + 1 else p.notices }
  | eintr {p : Process} (hpoint : p.point = .polling []) : Step p .eintr p
  /-- `ERROR_CHECK` leaves by `exit(1)` (`server.c:151`). -/
  | fail {p : Process} (hpoint : p.point = .polling []) : Step p .fail { p with point := .failed }
  | report {p : Process} {events : List Source} (hpoint : p.point = .polling []) (hne : events ≠ [])
      (hnodup : events.Nodup) (hready : ∀ src, src ∈ events ↔ p.ready src = true) :
      Step p (.report events) { p with point := .polling events }
  /-- `accept` (`server.c:209`); it waits where there is no connection. -/
  | accept {p : Process} {fd : Int} {rest : List Source} (hpoint : p.point = .polling (.listenFd :: rest))
      (hpending : 0 < p.backlog) (hfd : 0 ≤ fd) (hfree : isOpen p.log fd = false) :
      Step p (.accept fd)
        { p with point := .accepted fd rest, backlog := p.backlog - 1, log := p.log ++ [.accept fd] }
  /-- `accept` fails (`server.c:211`): the connection stays or is lost. -/
  | refuse {p : Process} {backlog : Nat} {rest : List Source} (hpoint : p.point = .polling (.listenFd :: rest))
      (hpending : 0 < p.backlog) (hbacklog : backlog = p.backlog ∨ backlog + 1 = p.backlog) :
      Step p .refuse { p with point := .polling rest, backlog }
  | enqueue {p : Process} {fd : Int} {node : Nat} {queue : Queue} {ws : List Worker} {rest : List Source}
      (hpoint : p.point = .accepted fd rest) (hnode : p.pool.queue.nodes node = none)
      (hqueue : p.pool.queue.enQueue node fd = some queue) (hsignal : Signal p.workers ws) :
      Step p .enqueue { p with pool := { p.pool with queue }, workers := ws, point := .polling rest }
  /-- `read` (`server.c:167`) takes at most 16 bytes, and waits where there is none. -/
  | read {p : Process} {rest : List Source} (hpoint : p.point = .polling (.pipeFd :: rest)) (hbyte : 0 < p.notices) :
      Step p .read { p with point := .notified, notices := p.notices - 16 }
  | closeListenFd {p : Process} (hpoint : p.point = .notified) :
      Step p .closeListenFd { p with point := .stopping, backlog := 0, held := p.held.erase .listenFd }
  | raise {p : Process} (hpoint : p.point = .stopping) :
      Step p .raise
        { p with pool := { p.pool with exitFlag := true }, workers := broadcast p.workers, point := .flagged }
  | shutdownActiveFds {p : Process} (hpoint : p.point = .flagged) :
      Step p .shutdownActiveFds { p with point := .shut, log := p.log ++ p.pool.shutdownActiveFds.map .shutdown }
  | drainPendingFds {p : Process} {fds : List Int} {pool : Pool} (hpoint : p.point = .shut)
      (hdrain : p.pool.drainPendingFds = some (fds, pool)) :
      Step p .drainPendingFds { p with pool, point := .joining 0, log := p.log ++ fds.map .close }
  | join {p : Process} {i : Nat} (hpoint : p.point = .joining i) (hw : p.workers[i]? = some .exited) :
      Step p (.join i) { p with point := .joining (i + 1) }
  /-- The loop of the joins ends. -/
  | leave {p : Process} (hpoint : p.point = .joining p.workers.length) : Step p .leave { p with point := .releasing exitOrder }
  | release {p : Process} {r : Resource} {rest : List Resource} (hpoint : p.point = .releasing (r :: rest)) :
      Step p (.release r) { p with point := .releasing rest, held := p.held.erase r }
  | ret {p : Process} (hpoint : p.point = .releasing []) : Step p .ret { p with point := .returned }
  | spurious {p : Process} {i : Nat} (halive : p.point.stopped = false) (hw : p.workers[i]? = some .waiting) :
      Step p (.spurious i) { p with workers := p.workers.set i .signalled }
  | next {p : Process} {i : Nat} {w w' : Worker} {pool : Pool} (halive : p.point.stopped = false)
      (hw : p.workers[i]? = some w) (hretests : w.retests = true) (hnext : p.pool.next = some (pool, w')) :
      Step p (.next i) { p with pool, workers := p.workers.set i w', log := p.log ++ w'.taken }
  | unregister {p : Process} {i : Nat} {fd : Int} (halive : p.point.stopped = false)
      (hw : p.workers[i]? = some (.serving fd)) :
      Step p (.unregister i) { p with pool := p.pool.unregisterActiveFd fd, workers := p.workers.set i (.closing fd) }
  | close {p : Process} {i : Nat} {fd : Int} (halive : p.point.stopped = false) (hw : p.workers[i]? = some (.closing fd)) :
      Step p (.close i) { p with workers := p.workers.set i .testing, log := p.log ++ [.close fd] }

/-- What a server with `num` workers can come to, and how. -/
def Comes (num backlog notices : Nat) (acts : List Act) (p : Process) : Prop :=
  Runs Step (.init num backlog notices) acts p

section Steps

variable {p p' : Process} {a : Act} {acts : List Act} {num backlog notices : Nat}

/-! ## The pool underneath -/

theorem Step.length (hs : Step p a p') : p'.workers.length = p.workers.length := by
  cases hs with
  | enqueue _ _ _ hsignal => exact hsignal.length
  | raise => exact List.length_map ..
  | spurious | next | unregister | close => exact List.length_set
  | _ => rfl

/-- A step of the process is one of the pool, or one the pool does not see. -/
theorem Step.simulates (hs : Step p a p') : p'.system = p.system ∨ ThreadPool.Step p.system p'.system := by
  have hlen := hs.length
  have hmain {m : Main} (h : p.point.main p.workers.length = m) : p.system.main = m := h
  cases hs with
  | connect | interrupt | eintr => exact .inl rfl
  | fail hpoint | report hpoint | refuse hpoint | read hpoint | leave hpoint | release hpoint | ret hpoint =>
    left
    simp [Process.system, Point.main, hpoint]
  | accept hpoint _ hfd hfree => exact .inr (.accept (hmain (by rw [hpoint]; rfl)) hfd hfree)
  | @enqueue _ _ _ ws _ hpoint hnode hqueue hsignal =>
    exact .inr (.enqueue (s := p.system) (hmain (by rw [hpoint]; rfl)) hnode hqueue hsignal)
  | closeListenFd hpoint => exact .inr (.stop (hmain (by rw [hpoint]; rfl)))
  | raise hpoint => exact .inr (.raise (hmain (by rw [hpoint]; rfl)))
  | shutdownActiveFds hpoint => exact .inr (.shutdownActive (hmain (by rw [hpoint]; rfl)))
  | drainPendingFds hpoint hdrain => exact .inr (.drain (s := p.system) (hmain (by rw [hpoint]; rfl)) hdrain)
  | join hpoint hw => exact .inr (.join (s := p.system) (hmain (by rw [hpoint]; rfl)) hw)
  | spurious _ hw =>
    right
    simp only [Process.system, List.length_set]
    exact .spurious (s := p.system) hw
  | next _ hw hretests hnext =>
    right
    simp only [Process.system, List.length_set]
    exact .next (s := p.system) hw hretests hnext
  | unregister _ hw =>
    right
    simp only [Process.system, List.length_set]
    exact .unregister (s := p.system) hw
  | close _ hw =>
    right
    simp only [Process.system, List.length_set]
    exact .close (s := p.system) hw

/-- The pool invariants hold of every state of the loop. -/
theorem Comes.reachable (h : Comes num backlog notices acts p) : Reachable num p.system := by
  have hinit : (Process.init num backlog notices).system = .init num := by
    simp [Process.system, Process.init, System.init, Point.main]
  have hrun := Runs.simulates (I := fun _ => True) Process.system h (fun _ _ _ _ hs => ⟨trivial, hs.simulates⟩) trivial
  rwa [hinit] at hrun

/-! ## Where the main thread stands -/

/-- What holds of the rest where the main thread stands: what it holds, and what it was told is still so. -/
structure Placed (p : Process) : Prop where
  held : p.held = p.point.holds
  suffix : ∀ rest, p.point = .releasing rest → rest <:+ exitOrder
  nodup : p.point.rest.Nodup
  ready : ∀ src ∈ p.point.rest, p.ready src = true

theorem Placed.init : Placed (.init num backlog notices) := ⟨rfl, fun _ h => (by cases h), .nil, fun _ h => (by cases h)⟩

/-- Nobody but the main thread takes from what is ready. -/
theorem Placed.of_ready (h : Placed p) (hheld : p'.held = p.held) (hpoint : p'.point = p.point)
    (hready : ∀ src, p.ready src = true → p'.ready src = true) : Placed p' :=
  ⟨hheld.trans (hpoint ▸ h.held), fun rest hr => h.suffix rest (hpoint ▸ hr), hpoint ▸ h.nodup,
    fun src hsrc => hready src (h.ready src (hpoint ▸ hsrc))⟩

theorem Placed.step (h : Placed p) (hs : Step p a p') : Placed p' := by
  cases hs with
  | connect =>
    refine h.of_ready rfl rfl fun src hsrc => ?_
    cases src <;> simp_all [Process.ready]
  | interrupt =>
    refine h.of_ready rfl rfl fun src hsrc => ?_
    cases src
    · exact hsrc
    · simp only [Process.ready, decide_eq_true_eq] at hsrc ⊢
      split <;> omega
  | eintr => exact h
  | fail hpoint => exact ⟨by rw [h.held, hpoint]; rfl, fun _ hr => (by cases hr), .nil, fun _ hr => (by cases hr)⟩
  | report hpoint hne hnodup hready =>
    exact ⟨by rw [h.held, hpoint]; rfl, fun _ hr => (by cases hr), hnodup, fun src hsrc => (hready src).1 hsrc⟩
  | accept hpoint hpending =>
    have hnodup := h.nodup
    have hready := h.ready
    simp only [hpoint, Point.rest, List.nodup_cons, List.mem_cons, forall_eq_or_imp] at hnodup hready
    refine ⟨by rw [h.held, hpoint]; rfl, fun _ hr => (by cases hr), hnodup.2, fun src hsrc => ?_⟩
    cases src
    · exact absurd hsrc hnodup.1
    · exact hready.2 _ hsrc
  | refuse hpoint hpending =>
    have hnodup := h.nodup
    have hready := h.ready
    simp only [hpoint, Point.rest, List.nodup_cons, List.mem_cons, forall_eq_or_imp] at hnodup hready
    refine ⟨by rw [h.held, hpoint]; rfl, fun _ hr => (by cases hr), hnodup.2, fun src hsrc => ?_⟩
    cases src
    · exact absurd hsrc hnodup.1
    · exact hready.2 _ hsrc
  | enqueue hpoint =>
    have hnodup := h.nodup
    have hready := h.ready
    rw [hpoint] at hnodup hready
    exact ⟨by rw [h.held, hpoint]; rfl, fun _ hr => (by cases hr), hnodup, hready⟩
  | closeListenFd hpoint =>
    refine ⟨?_, fun _ hr => (by cases hr), .nil, fun _ hr => (by cases hr)⟩
    show p.held.erase .listenFd = exitOrder
    rw [h.held, hpoint]
    rfl
  | leave hpoint =>
    refine ⟨by rw [h.held, hpoint]; rfl, fun rest hr => ?_, .nil, fun _ hr => (by cases hr)⟩
    exact (Point.releasing.inj hr) ▸ List.suffix_refl _
  | @release r rest hpoint =>
    refine ⟨?_, fun rest' hr => ?_, .nil, fun _ hr => (by cases hr)⟩
    · show p.held.erase r = rest
      rw [h.held, hpoint, Point.holds, List.erase_cons_head]
    · obtain rfl := Point.releasing.inj hr
      exact (List.suffix_cons r rest).trans (h.suffix _ hpoint)
  | ret hpoint => exact ⟨by rw [h.held, hpoint]; rfl, fun _ hr => (by cases hr), .nil, fun _ hr => (by cases hr)⟩
  | spurious | next | unregister | close => exact h.of_ready rfl rfl fun _ hsrc => hsrc
  | read hpoint | raise hpoint | shutdownActiveFds hpoint | drainPendingFds hpoint | join hpoint =>
    exact ⟨by rw [h.held, hpoint]; rfl, fun _ hr => (by cases hr), .nil, fun _ hr => (by cases hr)⟩

theorem Comes.placed (h : Comes num backlog notices acts p) : Placed p :=
  Runs.keeps h (fun _ _ _ hp hs => hp.step hs) .init

/-- What a step gives back is the first of what is held. -/
theorem Placed.gives (h : Placed p) (hs : Step p a p') : a.gives.toList ++ p'.held = p.held := by
  have hheld := h.held
  cases hs with
  | closeListenFd hpoint =>
    rw [hpoint] at hheld
    show [Resource.listenFd] ++ p.held.erase .listenFd = p.held
    rw [hheld]
    rfl
  | release hpoint =>
    rw [hpoint] at hheld
    simp [Act.gives, hheld, Point.holds]
  | _ => rfl

/-- What has been given back and what is held are all there is, in the order of the exit path. -/
theorem Comes.given (h : Comes num backlog notices acts p) :
    acts.filterMap Act.gives ++ p.held = .listenFd :: exitOrder := by
  refine Runs.records (I := fun acts p => acts.filterMap Act.gives ++ p.held = .listenFd :: exitOrder) h rfl ?_
  intro acts q a r hrun ih hs
  have hone : [a].filterMap Act.gives = a.gives.toList := by cases a <;> rfl
  rw [List.filterMap_append, hone, List.append_assoc, (Comes.placed hrun).gives hs, ih]

/-- Once the joins are over the threads have left. -/
theorem Comes.left (h : Comes num backlog notices acts p)
    (hpoint : p.point.main p.workers.length = .joining p.workers.length) :
    ∀ w ∈ p.workers, w = .exited := by
  have hr := h.reachable
  intro w hw
  obtain ⟨j, hj, rfl⟩ := List.getElem_of_mem hw
  have := (hr.phased.drained p.workers.length hpoint).2 j hj
  rw [show p.system.workers = p.workers from rfl, List.getElem?_eq_getElem hj] at this
  exact Option.some.inj this

/-- No thread is joined that is not there. -/
theorem Comes.joined_le (h : Comes num backlog notices acts p) {i : Nat} (hpoint : p.point = .joining i) :
    i ≤ p.workers.length := by
  by_contra hlt
  have hmain : p.system.main = .joining i := by rw [Process.system, hpoint]; rfl
  have := (h.reachable.phased.drained i hmain).2 p.workers.length (by omega)
  rw [show p.system.workers = p.workers from rfl, List.getElem?_eq_none (Nat.le_refl _)] at this
  cases this

theorem exists_signal (ws : List Worker) : ∃ ws', Signal ws ws' := by
  by_cases hmem : Worker.waiting ∈ ws
  · obtain ⟨i, hi, heq⟩ := List.getElem_of_mem hmem
    exact ⟨_, .wake (i := i) (by rw [List.getElem?_eq_getElem hi, heq])⟩
  · exact ⟨ws, .idle hmem⟩

/-- A thread that is not done has its main thread before the end of the joins. -/
theorem Comes.holds_of_worker (h : Comes num backlog notices acts p) (halive : p.point.stopped = false) {w : Worker}
    (hw : w ∈ p.workers) (hleft : w ≠ .exited) : .activeFds ∈ p.held ∧ .log ∈ p.held := by
  rw [h.placed.held]
  have hjoined : p.point.main p.workers.length ≠ .joining p.workers.length := fun hmain => hleft (h.left hmain w hw)
  rcases hpoint : p.point with _ | _ | _ | _ | _ | _ | _ | rest | _ | _
  case releasing => exact absurd (by rw [hpoint]; rfl) hjoined
  case returned => rw [hpoint] at halive; cases halive
  all_goals simp [Point.holds, exitOrder]

/-- An act uses what is held, apart from the handler, which may come late. -/
theorem Step.uses_held (h : Comes num backlog notices acts p) (hs : Step p a p') (ha : a ≠ .interrupt) :
    ∀ r ∈ a.uses, r ∈ p.held := by
  have hheld := h.placed.held
  cases hs with
  | connect _ hl => exact fun r hr => List.mem_singleton.1 hr ▸ hl
  | interrupt => exact absurd rfl ha
  | next halive hw hretests =>
    have hmem := h.holds_of_worker halive (List.mem_of_getElem? hw) (by rintro rfl; cases hretests)
    simpa [Act.uses] using hmem
  | unregister halive hw =>
    have hmem := h.holds_of_worker halive (List.mem_of_getElem? hw) (by simp)
    simpa [Act.uses] using hmem
  | close halive hw =>
    have hmem := h.holds_of_worker halive (List.mem_of_getElem? hw) (by simp)
    simpa [Act.uses] using hmem.2
  | release hpoint =>
    rw [hheld, hpoint]
    exact fun r hr => List.mem_singleton.1 hr ▸ List.mem_cons_self ..
  | spurious | enqueue | raise | leave | ret => exact fun r hr => by cases hr
  | eintr hpoint | fail hpoint | report hpoint | accept hpoint | refuse hpoint | read hpoint | closeListenFd hpoint
  | shutdownActiveFds hpoint | drainPendingFds hpoint | join hpoint =>
    rw [hheld, hpoint]
    simp [Act.uses, Point.holds, exitOrder]

/-! ## The main results -/

/-- One worker, one connection, and the signal before the worker has come to it. -/
theorem exit_run : ∃ p, Comes 1 0 0
    [.connect, .report [.listenFd], .accept 5, .enqueue, .interrupt, .report [.pipeFd], .read, .closeListenFd, .raise, .next 0,
      .shutdownActiveFds, .drainPendingFds, .join 0, .leave, .release .pipeRead, .interrupt, .release .pipeWrite,
      .release .epfd, .release .activeFds, .release .threadIdArr, .release .log, .ret] p ∧
    p.point = .returned ∧ p.log = [.accept 5, .close 5] := by
  have h₁ : Comes 1 0 0 _ _ := .single (.connect rfl (by decide))
  have h₂ := h₁.snoc (@Step.report _ [.listenFd] rfl (by decide) (by decide) fun src => by cases src <;> decide)
  have h₃ := h₂.snoc (@Step.accept _ 5 _ rfl (by decide) (by decide) rfl)
  have h₄ := h₃.snoc (@Step.enqueue _ _ 0 _ _ _ rfl rfl rfl (.idle (by decide)))
  have h₅ := (h₄.snoc (.interrupt rfl)).snoc
    (@Step.report _ [.pipeFd] rfl (by decide) (by decide) fun src => by cases src <;> decide)
  have h₆ := ((h₅.snoc (.read rfl (by decide))).snoc (.closeListenFd rfl)).snoc (.raise rfl)
  have h₇ := h₆.snoc (@Step.next _ 0 _ _ _ rfl rfl rfl rfl)
  have h₈ := ((h₇.snoc (.shutdownActiveFds rfl)).snoc (.drainPendingFds rfl rfl)).snoc (.join rfl rfl)
  have h₉ := (((h₈.snoc (.leave rfl)).snoc (.release rfl)).snoc (.interrupt rfl)).snoc (.release rfl)
  have h₁₀ := (((h₉.snoc (.release rfl)).snoc (.release rfl)).snoc (.release rfl)).snoc (.release rfl)
  exact ⟨_, h₁₀.snoc (.ret rfl), rfl, rfl⟩

/-- **The loop refines the pool**: what the process comes to, the pool comes to. Where `main` has returned, what the process
held has been given back once each, the listening socket first and the log last, all threads have left, and every
connection accepted has been closed, exactly once. -/
theorem refines_pool (h : Comes num backlog notices acts p) :
    Reachable num p.system ∧ (p.point = .returned →
      acts.filterMap Act.gives = .listenFd :: exitOrder ∧ (∀ w ∈ p.workers, w = .exited) ∧
      p.pool.queue.contents = [] ∧ (∀ fd ∈ p.pool.activeFds, fd = -1) ∧
      ∀ fd, p.log.count (.close fd) = p.log.count (.accept fd)) := by
  have hr := h.reachable
  refine ⟨hr, fun hret => ?_⟩
  have hmain : p.point.main p.workers.length = .joining p.workers.length := by rw [hret]; rfl
  have hleft := h.left hmain
  have hgiven := h.given
  rw [h.placed.held, hret, show Point.holds .returned = [] from rfl, List.append_nil] at hgiven
  refine ⟨hgiven, hleft, (hr.phased.drained _ hmain).1, fun fd hfd => ?_, fun fd => ?_⟩
  · by_contra hne
    cases hleft _ ((hr.owned.mem_activeFds hne).1 hfd)
  · have hcount := hr.owned.sound.count_close fd
    rw [all_closed hr hmain hleft fd] at hcount
    exact hcount

theorem refines_pool_exit : ∃ p : Process, p.point = .returned ∧ p.log = [.accept 5, .close 5] ∧
    (∀ w ∈ p.workers, w = .exited) ∧ p.pool.queue.contents = [] := by
  obtain ⟨p, hrun, hret, hlog⟩ := exit_run
  obtain ⟨-, hleft, hqueue, -⟩ := (refines_pool hrun).2 hret
  exact ⟨p, hret, hlog, hleft, hqueue⟩

/-- **Nothing is used once it is given back**, in any order of acts. The handler's `write` is the only exception: it
puts a byte into the pipe exactly as long as neither end has been closed. -/
theorem uses_before_gives (h : Comes num backlog notices acts p) {pre post : List Act} (hacts : acts = pre ++ a :: post) :
    (a ≠ .interrupt → ∀ r ∈ a.uses, r ∉ pre.filterMap Act.gives) ∧
    (a = .interrupt → ∃ q q', Comes num backlog notices pre q ∧ Step q a q' ∧ Runs Step q' post p ∧
      q'.notices = q.notices + if .pipeRead ∈ pre.filterMap Act.gives ∨ .pipeWrite ∈ pre.filterMap Act.gives then 0 else 1) := by
  subst hacts
  obtain ⟨q, hpre, hrest⟩ := Runs.split h
  have hq : Comes num backlog notices pre q := hpre
  have hnodup : (pre.filterMap Act.gives ++ q.held).Nodup := by
    rw [hq.given]
    decide
  cases hrest with
  | @cons _ q' _ _ _ hs hpost =>
    refine ⟨fun ha r hr hmem => ?_, ?_⟩
    · exact (List.nodup_append.1 hnodup).2.2 r hmem r (hs.uses_held hq ha r hr) rfl
    · rintro rfl
      refine ⟨q, q', hq, hs, hpost, ?_⟩
      have hheld {r : Resource} (hr : r ∈ Resource.listenFd :: exitOrder) : r ∈ q.held ↔ r ∉ pre.filterMap Act.gives := by
        rw [← hq.given, List.mem_append] at hr
        exact ⟨fun hheld hgiven => (List.nodup_append.1 hnodup).2.2 _ hgiven _ hheld rfl, hr.resolve_left⟩
      cases hs with
      | interrupt =>
        simp only [hheld (r := .pipeRead) (by decide), hheld (r := .pipeWrite) (by decide), ← not_or]
        split <;> simp_all

/-- A signal between the two `close` calls on the pipe: there is nobody to read the byte. -/
theorem uses_before_gives_late : ∃ q q' : Process, q.held = [.pipeWrite, .epfd, .activeFds, .threadIdArr, .log] ∧
    Step q .interrupt q' ∧ q'.notices = q.notices := by
  obtain ⟨p, hrun, -⟩ := exit_run
  have hacts : _ = [Act.connect, .report [.listenFd], .accept 5, .enqueue, .interrupt, .report [.pipeFd], .read,
      .closeListenFd, .raise, .next 0, .shutdownActiveFds, .drainPendingFds, .join 0, .leave, .release .pipeRead] ++
      .interrupt :: [.release .pipeWrite, .release .epfd, .release .activeFds, .release .threadIdArr, .release .log, .ret] :=
    rfl
  obtain ⟨q, q', hq, hs, -, hnotices⟩ := (uses_before_gives hrun hacts).2 rfl
  exact ⟨q, q', List.append_cancel_left (Comes.given hq), hs, hnotices⟩

/-- The main thread waits only in `epoll_wait`, where nothing has come, and in `pthread_join`: neither `accept` nor `read`
blocks, and no section is stuck. -/
theorem main_waits (h : Comes num backlog notices acts p) (hstuck : ∀ a p', a.ofMain = true → ¬ Step p a p') :
    p.point.stopped = true ∨ (p.point = .polling [] ∧ p.backlog = 0 ∧ p.notices = 0) ∨
      ∃ i, p.point = .joining i ∧ i < p.workers.length ∧ p.workers[i]? ≠ some .exited := by
  have hplaced := h.placed
  have ho := h.reachable.owned
  rcases hpoint : p.point with rest | ⟨fd, rest⟩ | _ | _ | _ | _ | i | rest | _ | _
  case polling =>
    rcases rest with _ | ⟨src, rest⟩
    · refine .inr (.inl ⟨rfl, ?_⟩)
      by_contra hsome
      have hevents : [Source.listenFd, .pipeFd].filter p.ready ≠ [] := by
        intro hnil
        rw [List.filter_eq_nil_iff] at hnil
        have hlisten := hnil .listenFd (by simp)
        have hpipe := hnil .pipeFd (by simp)
        simp only [Process.ready, decide_eq_true_eq] at hlisten hpipe
        exact hsome ⟨by omega, by omega⟩
      refine hstuck _ _ rfl (Step.report hpoint hevents (.filter _ (by decide)) fun src => ?_)
      cases src <;> simp
    · have hready := hplaced.ready src (by rw [hpoint]; exact List.mem_cons_self ..)
      cases src with
      | listenFd =>
        have hpending : 0 < p.backlog := by simpa [Process.ready] using hready
        exact absurd (Step.refuse hpoint hpending (.inl rfl)) (hstuck _ _ rfl)
      | pipeFd =>
        have hbyte : 0 < p.notices := by simpa [Process.ready] using hready
        exact absurd (Step.read hpoint hbyte) (hstuck _ _ rfl)
  case accepted =>
    obtain ⟨cells, hlinks, -⟩ := Queue.holds_iff.1 ho.queue
    obtain ⟨node, hnode⟩ := hlinks.exists_fresh
    obtain ⟨queue, hqueue, -⟩ := @Queue.enQueue_holds _ _ fd _ ho.queue hnode
    obtain ⟨ws, hsignal⟩ := exists_signal p.workers
    exact absurd (Step.enqueue hpoint hnode hqueue hsignal) (hstuck _ _ rfl)
  case notified => exact absurd (Step.closeListenFd hpoint) (hstuck _ _ rfl)
  case stopping => exact absurd (Step.raise hpoint) (hstuck _ _ rfl)
  case flagged => exact absurd (Step.shutdownActiveFds hpoint) (hstuck _ _ rfl)
  case shut =>
    obtain ⟨queue, hloop, -⟩ := Pool.drainLoop_holds ho.queue ho.queue_neg
    have hdrain : p.pool.drainPendingFds = some (p.pool.queue.contents, { p.pool with queue }) := by
      have hloop' : Pool.drainLoop p.pool.queue.size p.pool.queue = some (p.pool.queue.contents, queue) := hloop
      simp [Pool.drainPendingFds, hloop']
    exact absurd (Step.drainPendingFds hpoint hdrain) (hstuck _ _ rfl)
  case joining =>
    have hle : i ≤ p.workers.length := h.joined_le hpoint
    rcases Nat.lt_or_eq_of_le hle with hlt | rfl
    · exact .inr (.inr ⟨i, rfl, hlt, fun hw => hstuck _ _ rfl (Step.join hpoint hw)⟩)
    · exact absurd (Step.leave hpoint) (hstuck _ _ rfl)
  case releasing =>
    rcases rest with _ | ⟨r, rest⟩
    · exact absurd (Step.ret hpoint) (hstuck _ _ rfl)
    · exact absurd (Step.release hpoint) (hstuck _ _ rfl)
  all_goals exact .inl rfl

end Steps
end WindCloud.EventLoop
