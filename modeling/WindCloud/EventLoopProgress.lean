import WindCloud.EventLoop
import WindCloud.PoolWakeup
import WindCloud.Lib.Counting
/-!
# What the event loop comes to

Three potentials, each spent by the acts it bounds:

| here | counts |
| --- | --- |
| `Point.accepts`, `Point.reports` | the connections the loop still takes before it comes to a byte in the pipe, and the reports it still waits for |
| `Process.work`      | the sections the workers still run: three for a queued connection, at most three for one in hand |
| `Process.remaining` | all that is left once the signal has come: the workers' sections, and the main thread's way to `return 0` |

A worker that serves may do so for ever as long as its connection is up, so `Process.owes` counts the return of
`handle_request` as due only where the connection has been shut down. That is enough: `shutdown_active_fds` reaches
every connection in service, and none comes after it (`Downed`).
-/

namespace WindCloud.ThreadPool

/-! ## Shut down since it was accepted -/

def shutSince (log : List ThreadPool.Event) (fd : Int) : Prop :=
  ∃ pre post, log = pre ++ .shutdown fd :: post ∧ .accept fd ∉ post

section Downed

variable {s s' : System} {log : List Event} {fd : Int} {num : Nat}

theorem shutSince.append (h : shutSince log fd) {evs : List Event} (hevs : .accept fd ∉ evs) : shutSince (log ++ evs) fd := by
  obtain ⟨pre, post, rfl, hpost⟩ := h
  exact ⟨pre, post ++ evs, by simp, by simp [hpost, hevs]⟩

theorem shutSince_shutdowns {fds : List Int} (h : fd ∈ fds) : shutSince (log ++ fds.map .shutdown) fd := by
  obtain ⟨before, after, rfl⟩ := List.append_of_mem h
  exact ⟨log ++ before.map .shutdown, after.map .shutdown, by simp, by simp⟩

/-- After the scan of `active_fds`, whoever is still serving serves a connection that was shut down. -/
def Downed (s : System) : Prop :=
  (s.main = .shut ∨ ∃ i, s.main = .joining i) → ∀ fd, .serving fd ∈ s.workers → shutSince s.log fd

theorem Downed.step (h : Downed s) (ho : Owned s) (hord : Ordered s) (hs : Step s s') : Downed s' := by
  have hflag := hord.flag
  -- a step past the scan keeps who serves, or takes from them
  have hkeep {s' : System} {evs : List Event} (hs : Step s s') (hlog : s'.log = s.log ++ evs) (hevs : ∀ fd, .accept fd ∉ evs)
      (hmain : s.main = .shut ∨ ∃ i, s.main = .joining i) (fd : Int) (hmem : .serving fd ∈ s'.workers) :
      shutSince s'.log fd := by
    have hexit : s.pool.exitFlag = true := by
      rcases hmain with hmain | ⟨i, hmain⟩ <;> rw [hflag, hmain] <;> rfl
    exact hlog ▸ (h hmain fd ((Step.exiting ho hord hs hexit).2.2 fd hmem)).append (hevs fd)
  intro hmain
  cases hs with
  | accept => simp at hmain
  | enqueue => simp at hmain
  | stop => simp at hmain
  | raise => simp at hmain
  | shutdownActive hm =>
    intro fd hserve
    have hserve : Worker.serving fd ∈ s.workers := hserve
    have hne : fd ≠ -1 := by
      have := ho.serving_nonneg hserve
      omega
    exact shutSince_shutdowns (List.mem_filter.2 ⟨(ho.mem_activeFds hne).2 hserve, by simpa using hne⟩)
  | drain hm hdrain => exact hkeep (.drain hm hdrain) rfl (by simp) (.inl hm)
  | join hm hw => exact hkeep (.join hm hw) (List.append_nil _).symm (by simp) (.inr ⟨_, hm⟩)
  | spurious hw => exact hkeep (.spurious hw) (List.append_nil _).symm (by simp) hmain
  | @next _ _ w' _ hw hretests hnext =>
    refine hkeep (.next hw hretests hnext) rfl (fun fd => ?_) hmain
    cases w' <;> simp [Worker.taken]
  | unregister hw => exact hkeep (.unregister hw) (List.append_nil _).symm (by simp) hmain
  | close hw => exact hkeep (.close hw) rfl (by simp) hmain

theorem Reachable.downed (h : Reachable num s) : Downed s :=
  h.invariant (fun hmain => by rcases hmain with hmain | ⟨_, hmain⟩ <;> cases hmain)
    fun _ _ hr ih hs => ih.step hr.owned hr.ordered hs

end Downed
end WindCloud.ThreadPool

namespace WindCloud.EventLoop

open ThreadPool Interaction Counting

variable {p p' : Process} {a : Act} {acts acts' : List Act} {num backlog notices : Nat}

/-! ## The acts of the workers -/

/-- A section of a worker, or what it does between two. -/
def Act.ofWorker : Act → Bool
  | next _ | unregister _ | close _ => true
  | _ => false

def Act.isSpurious : Act → Bool
  | spurious _ => true
  | _ => false

theorem Act.not_spurious (h : a.ofWorker = true) : a.isSpurious = false := by
  cases a <;> first | rfl | cases h

/-- What a thread still runs before it sleeps or leaves, if it finds nothing more. -/
def rank : Worker → Nat
  | .serving _ => 3
  | .closing _ => 2
  | .testing | .signalled => 1
  | .waiting | .exited => 0

def ranks (ws : List Worker) : Nat := (ws.map rank).sum

/-- Before the flag is set, its broadcast is still to come. -/
def Process.work (p : Process) : Nat :=
  3 * p.pool.queue.contents.length + ranks p.workers + if p.pool.exitFlag then 0 else p.workers.length

/-- What an act brings: a connection and a wake-up for it, or a wake-up. -/
def Act.brings : Act → Nat
  | enqueue => 4
  | spurious _ => 1
  | _ => 0

theorem ranks_set {ws : List Worker} {i : Nat} {w : Worker} (hw : ws[i]? = some w) (w' : Worker) :
    ranks (ws.set i w') + rank w = ranks ws + rank w' := sum_map_set_add hw

theorem ranks_signal {ws ws' : List Worker} (h : Signal ws ws') : ranks ws' ≤ ranks ws + 1 := by
  cases h with
  | wake hi =>
    have := ranks_set hi .signalled
    simp only [rank] at this
    omega
  | idle => exact Nat.le_succ _

theorem ranks_broadcast (ws : List Worker) : ranks (broadcast ws) ≤ ranks ws + ws.length := by
  induction ws with
  | nil => exact Nat.le_refl _
  | cons w ws ih =>
    have hw : rank (if w = .waiting then .signalled else w) ≤ rank w + 1 := by
      split
      · rename_i heq
        rw [heq]
        exact Nat.le_refl _
      · exact Nat.le_succ _
    simp only [ranks, broadcast, List.map_cons, List.sum_cons, List.length_cons] at ih ⊢
    omega

theorem ranks_le (ws : List Worker) : ranks ws ≤ 3 * ws.length := by
  induction ws with
  | nil => exact Nat.le_refl _
  | cons w ws ih =>
    have hw : rank w ≤ 3 := by cases w <;> simp [rank]
    simp only [ranks, List.map_cons, List.sum_cons, List.length_cons] at ih ⊢
    omega

theorem rank_of_retests {w : Worker} (h : w.retests = true) : rank w = 1 := by
  cases w <;> first | rfl | cases h

/-- The locked section of a worker uses up what it stood for: its turn, or the connection it takes. -/
theorem work_next {pool pool' : Pool} {ws : List Worker} {i : Nat} {w w' : Worker} (hq : pool.queue.Holds pool.queue.contents)
    (hw : ws[i]? = some w) (hretests : w.retests = true) (hnext : pool.next = some (pool', w')) :
    3 * pool'.queue.contents.length + ranks (ws.set i w') + 1 ≤ 3 * pool.queue.contents.length + ranks ws ∧
      pool'.exitFlag = pool.exitFlag := by
  have hset := ranks_set hw w'
  rw [rank_of_retests hretests] at hset
  rcases Pool.next_cases hq hnext with ⟨-, -, rfl, rfl⟩ | ⟨-, rfl, rfl⟩ | ⟨fd, rest, queue, heq, -, hrest, rfl, rfl⟩
  · simp only [rank] at hset
    exact ⟨by omega, rfl⟩
  · simp only [rank] at hset
    exact ⟨by omega, rfl⟩
  · refine ⟨?_, rfl⟩
    simp only [rank, heq, hrest.contents, List.length_cons] at hset ⊢
    omega

/-- A worker's act comes out of the work there is. -/
theorem Step.work (h : Comes num backlog notices acts p) (hs : Step p a p') :
    p'.work + a.ofWorker.toNat ≤ p.work + a.brings := by
  have ho := h.reachable.owned
  have hq : p.pool.queue.Holds p.pool.queue.contents := ho.queue
  have hlen := hs.length
  unfold Process.work
  cases hs with
  | @enqueue fd node queue ws rest _ hnode hqueue hsignal =>
    obtain ⟨queue', heq, hholds⟩ := @Queue.enQueue_holds _ _ fd _ hq hnode
    obtain rfl : queue' = queue := Option.some.inj (heq.symm.trans hqueue)
    have hranks := ranks_signal hsignal
    simp only [hholds.contents, List.length_append, List.length_singleton, Act.ofWorker, Act.brings, hsignal.length,
      Bool.toNat_false]
    omega
  | raise =>
    have hranks := ranks_broadcast p.workers
    simp only [Act.ofWorker, Act.brings, Bool.toNat_false, if_true]
    cases hflag : p.pool.exitFlag with
    | false =>
      simp only [Bool.false_eq_true, if_false]
      omega
    | true =>
      -- the flag is set once: `raise` stands before it
      have hmain := h.reachable.ordered.flag
      rename_i hpoint
      rw [show p.system.pool.exitFlag = p.pool.exitFlag from rfl, hflag, Process.system, hpoint] at hmain
      cases hmain
  | @drainPendingFds fds pool _ hdrain =>
    obtain ⟨-, queue, hempty, rfl⟩ := Pool.drainPendingFds_eq hq ho.queue_neg hdrain
    simp only [hempty.contents, List.length_nil, Act.ofWorker, Act.brings, Bool.toNat_false]
    omega
  | @spurious i _ hw =>
    have hset := ranks_set hw .signalled
    simp only [rank] at hset
    simp only [Act.ofWorker, Act.brings, Bool.toNat_false, List.length_set]
    omega
  | next _ hw hretests hnext =>
    obtain ⟨hle, hflag⟩ := work_next hq hw hretests hnext
    simp only [Act.ofWorker, Act.brings, Bool.toNat_true, hflag, List.length_set]
    omega
  | @unregister i fd _ hw =>
    have hset := ranks_set hw (.closing fd)
    simp only [rank] at hset
    simp only [Act.ofWorker, Act.brings, Bool.toNat_true, Pool.unregisterActiveFd, List.length_set]
    omega
  | @close i fd _ hw =>
    have hset := ranks_set hw .testing
    simp only [rank] at hset
    simp only [Act.ofWorker, Act.brings, Bool.toNat_true, List.length_set]
    omega
  | _ => exact Nat.le_refl _

theorem sum_brings (acts : List Act) :
    (acts.map Act.brings).sum = 4 * acts.count .enqueue + acts.countP Act.isSpurious := by
  induction acts with
  | nil => rfl
  | cons a acts ih =>
    rw [List.map_cons, List.sum_cons, ih, List.count_cons, List.countP_cons]
    cases a <;> simp [Act.brings, Act.isSpurious] <;> omega

/-- A run keeps that its states are ones the server comes to. -/
theorem Step.comes (hs : Step p a p') (h : ∃ acts, Comes num backlog notices acts p) :
    ∃ acts, Comes num backlog notices acts p' := by
  obtain ⟨acts, h⟩ := h
  exact ⟨acts ++ [a], Runs.snoc h hs⟩

theorem Runs.work (h : Comes num backlog notices acts p) (hrun : Runs Step p acts' p') :
    p'.work + acts'.countP Act.ofWorker ≤ p.work + 4 * acts'.count .enqueue + acts'.countP Act.isSpurious := by
  have := Runs.spends (I := fun p => ∃ acts, Comes num backlog notices acts p) Process.work
    (fun a => a.ofWorker.toNat) Act.brings hrun (fun q a r hq hs => ⟨hs.comes hq, hs.work hq.choose_spec⟩) ⟨acts, h⟩
  rw [sum_map_toNat, sum_brings] at this
  omega

/-- **No thread runs for nothing**: over a whole run the workers' sections, taken together, are at most four for each
connection enqueued and one for each wake-up nobody asked for, beside two for each thread. -/
theorem worker_acts_bounded (h : Comes num backlog notices acts p) :
    acts.countP Act.ofWorker ≤ 2 * num + 4 * acts.count .enqueue + acts.countP Act.isSpurious := by
  have hrun := Runs.work (.nil : Comes num backlog notices [] _) h
  have hranks : ranks (List.replicate num .testing) = num := by
    simp [ranks, rank]
  have hinit : (Process.init num backlog notices).work = 2 * num := by
    simp [Process.work, Process.init, Pool.init, hranks, Queue.empty_holds.contents, Nat.two_mul]
  omega

/-- One connection, which the worker never takes. -/
theorem worker_acts_bounded_exit : ∃ acts : List Act, acts.countP Act.ofWorker = 1 ∧ acts.count .enqueue = 1 ∧
    acts.countP Act.ofWorker ≤ 2 * 1 + 4 * 1 + 0 := by
  obtain ⟨p, hrun, -⟩ := exit_run
  exact ⟨_, rfl, rfl, worker_acts_bounded hrun⟩

/-- What a pool that cannot go on looks like: every thread asleep, and no connection left behind. -/
theorem settled_of_stuck (h : Comes num backlog notices acts p) (halive : p.point.stopped = false)
    (hexit : p.pool.exitFlag = false) (hstuck : ∀ a p', a.ofWorker = true → ¬ Step p a p') (hnum : 0 < num) :
    p.pool.queue.contents = [] ∧ (∀ w ∈ p.workers, w = .waiting) ∧
      ∀ fd, isOpen p.log fd = true → ∃ rest, p.point = .accepted fd rest := by
  have ho := h.reachable.owned
  have hlen : p.workers.length = num := h.reachable.length_workers
  have hwait : ∀ w ∈ p.workers, w = .waiting := by
    intro w hw
    obtain ⟨i, hi, rfl⟩ := List.getElem_of_mem hw
    have hget := List.getElem?_eq_getElem hi
    have hnext (hretests : p.workers[i].retests = true) : False := by
      obtain ⟨cells, hlinks, -⟩ := Queue.holds_iff.1 ho.queue
      obtain ⟨⟨fd, queue⟩, hdeq⟩ := Option.ne_none_iff_exists'.1 hlinks.deQueue_ne
      obtain ⟨⟨pool, w'⟩, hpool⟩ : ∃ r, p.pool.next = some r := by
        have hdeq : p.pool.queue.deQueue = some (fd, queue) := hdeq
        unfold Pool.next
        split
        · exact ⟨_, rfl⟩
        · simp [hexit, hdeq]
      exact hstuck _ _ rfl (Step.next halive hget hretests hpool)
    rcases hcase : p.workers[i] with _ | _ | _ | fd | fd | _
    case testing => exact (hnext (by rw [hcase]; rfl)).elim
    case waiting => rfl
    case signalled => exact (hnext (by rw [hcase]; rfl)).elim
    case serving => exact absurd (Step.unregister halive (hcase ▸ hget)) (hstuck _ _ rfl)
    case closing => exact absurd (Step.close halive (hcase ▸ hget)) (hstuck _ _ rfl)
    case exited =>
      have := h.reachable.phased.left (hcase ▸ List.getElem_mem hi)
      rw [show p.system.pool.exitFlag = p.pool.exitFlag from rfl, hexit] at this
      cases this
  have hempty : p.pool.queue.contents = [] := by
    have hmem : Worker.waiting ∈ p.workers := by
      have hpos : 0 < p.workers.length := hlen ▸ hnum
      exact hwait _ (List.getElem_mem hpos) ▸ List.getElem_mem hpos
    have hle : p.pool.queue.contents.length ≤ p.workers.countP Worker.retests := h.reachable.awaited hexit hmem
    rw [countP_eq_zero fun w hw => by rw [hwait w hw]; rfl] at hle
    exact List.length_eq_zero_iff.1 (Nat.le_zero.1 hle)
  refine ⟨hempty, hwait, fun fd hopen => ?_⟩
  have hplaces := ho.places fd
  have hnone : p.workers.countP (Worker.holds fd) = 0 := countP_eq_zero fun w hw => by rw [hwait w hw]; rfl
  rw [show p.system.log = p.log from rfl, hopen, System.places, show p.system.pool = p.pool from rfl, hempty,
    show p.system.workers = p.workers from rfl, hnone, show p.system.main = p.point.main p.workers.length from rfl] at hplaces
  rcases hpoint : p.point with _ | ⟨g, rest⟩ | _ | _ | _ | _ | _ | _ | _ | _ <;> rw [hpoint] at hplaces
  case accepted =>
    have hg : (g == fd) = true := by
      rcases hbeq : (g == fd) with _ | _
      · simp [Point.main, Main.holds, hbeq] at hplaces
      · rfl
    exact ⟨rest, by rw [beq_iff_eq.1 hg]⟩
  all_goals simp [Point.main, Main.holds] at hplaces

theorem Step.worker_keeps (hs : Step p a p') (ha : a.ofWorker = true) :
    p'.point = p.point ∧ p'.pool.exitFlag = p.pool.exitFlag := by
  cases hs with
  | @next _ w w' pool _ _ _ hnext =>
    refine ⟨rfl, ?_⟩
    unfold Pool.next at hnext
    split at hnext
    · cases hnext
      rfl
    split at hnext
    · cases hnext
      rfl
    · obtain ⟨⟨fd, queue⟩, -, h⟩ := Option.bind_eq_some_iff.1 hnext
      cases h
      rfl
  | unregister => exact ⟨rfl, rfl⟩
  | close => exact ⟨rfl, rfl⟩
  | _ => cases ha

/-- **No connection is left behind**: from any state before the exit, if the workers alone go on, and every one of them
serves its connection to the end, they stop after at most three sections for each connection queued and each thread. Then
all sleep, the queue is empty, and every connection accepted has been closed but one the main thread is about to enqueue. -/
theorem workers_settle (h : Comes num backlog notices acts p) (halive : p.point.stopped = false)
    (hexit : p.pool.exitFlag = false) (hnum : 0 < num) (hrun : Runs Step p acts' p')
    (hworkers : ∀ a ∈ acts', a.ofWorker = true) :
    acts'.length ≤ 3 * p.pool.queue.contents.length + 3 * num ∧
      ((∀ a q, a.ofWorker = true → ¬ Step p' a q) →
        p'.pool.queue.contents = [] ∧ (∀ w ∈ p'.workers, w = .waiting) ∧
        ∀ fd, (∀ rest, p'.point ≠ .accepted fd rest) → p'.log.count (.close fd) = p'.log.count (.accept fd)) := by
  have h' : Comes num backlog notices (acts ++ acts') p' := Runs.trans h hrun
  obtain ⟨hpoint, hflag⟩ : p'.point = p.point ∧ p'.pool.exitFlag = p.pool.exitFlag :=
    Runs.keeps (I := fun q => q.point = p.point ∧ q.pool.exitFlag = p.pool.exitFlag) (Runs.filtered hrun hworkers)
      (fun q a r hq hs => ⟨(hs.1.worker_keeps hs.2).1.trans hq.1, (hs.1.worker_keeps hs.2).2.trans hq.2⟩) ⟨rfl, rfl⟩
  have hlen : p.workers.length = num := h.reachable.length_workers
  have hlen' : p'.workers.length = num := h'.reachable.length_workers
  refine ⟨?_, fun hstuck => ?_⟩
  · have hwork := Runs.work h hrun
    have hall : acts'.countP Act.ofWorker = acts'.length := List.countP_eq_length.2 hworkers
    have henqueue : acts'.count .enqueue = 0 := List.count_eq_zero.2 fun hmem => by cases hworkers _ hmem
    have hspurious : acts'.countP Act.isSpurious = 0 := countP_eq_zero fun a ha => Act.not_spurious (hworkers a ha)
    have hranks := ranks_le p.workers
    simp only [Process.work, hflag, hexit, Bool.false_eq_true, if_false, hall, henqueue, hspurious, hlen, hlen'] at hwork hranks
    omega
  · obtain ⟨hempty, hwait, hmine⟩ := settled_of_stuck h' (hpoint ▸ halive) (hflag.trans hexit) hstuck hnum
    refine ⟨hempty, hwait, fun fd hnot => ?_⟩
    have hcount := h'.reachable.owned.sound.count_close fd
    have hopen : isOpen p'.log fd = false := by
      by_contra hopen
      obtain ⟨rest, hrest⟩ := hmine fd (by simpa using hopen)
      exact hnot rest hrest
    rw [show p'.system.log = p'.log from rfl, hopen] at hcount
    simpa using hcount

/-- A worker that takes its connection, serves it and goes to sleep. -/
theorem workers_settle_one : ∃ p : Process, p.log = [.accept 5, .take 5, .close 5] ∧ p.workers = [.waiting] ∧
    p.pool.queue.contents = [] ∧ p.log.count (.close 5) = p.log.count (.accept 5) := by
  have h₁ : Comes 1 1 0 _ _ :=
    .single (@Step.report _ [.listenFd] rfl (by decide) (by decide) fun src => by cases src <;> decide)
  have h₂ := h₁.snoc (@Step.accept _ 5 _ rfl (by decide) (by decide) rfl)
  have h₃ := h₂.snoc (@Step.enqueue _ _ 0 _ _ _ rfl rfl rfl (.idle (by decide)))
  obtain ⟨-, hend⟩ := workers_settle h₃ rfl rfl (by decide)
    (.cons (@Step.next _ 0 _ _ _ rfl rfl rfl rfl) (.cons (@Step.unregister _ 0 5 rfl rfl)
      (.cons (@Step.close _ 0 5 rfl rfl) (.cons (@Step.next _ 0 _ _ _ rfl rfl rfl rfl) .nil)))) (by decide)
  obtain ⟨hempty, -, hclosed⟩ := hend (by
    rintro a q ha hs
    cases hs with
    | next _ hw hretests =>
      have hmem := List.mem_singleton.1 (List.mem_of_getElem? hw)
      rw [hmem] at hretests
      cases hretests
    | unregister _ hw => cases List.mem_singleton.1 (List.mem_of_getElem? hw)
    | close _ hw => cases List.mem_singleton.1 (List.mem_of_getElem? hw)
    | _ => cases ha)
  exact ⟨_, rfl, rfl, hempty, hclosed 5 (by simp)⟩

/-! ## The answer to SIGINT -/

/-- Past the read of the pipe, or at an end. -/
def Point.told : Point → Bool
  | polling _ | accepted _ _ => false
  | _ => true

/-- The connections the loop takes before it comes to the pipe, if a byte is in it. -/
def acceptsOf : List Source → Nat
  | [] => 1
  | .pipeFd :: _ => 0
  | .listenFd :: rest => acceptsOf rest + 1

def Point.accepts : Point → Nat
  | polling rest | accepted _ rest => acceptsOf rest
  | _ => 0

def Point.reports : Point → Nat
  | polling rest | accepted _ rest => if .pipeFd ∈ rest then 0 else 1
  | _ => 0

/-- `accept` was called. -/
def Act.isAccept : Act → Bool
  | accept _ | refuse => true
  | _ => false

def Act.isReport : Act → Bool
  | report _ => true
  | _ => false

/-- The signal has come: its byte is in the pipe, or the loop has it. -/
def Process.signalled (p : Process) : Prop := 0 < p.notices ∨ p.point.told = true

theorem acceptsOf_report {events : List Source} (hnodup : events.Nodup) (hpipe : .pipeFd ∈ events) : acceptsOf events ≤ 1 := by
  rcases events with _ | ⟨_ | _, _ | ⟨_ | _, rest⟩⟩ <;> simp_all [acceptsOf]

theorem acceptsOf_le {events : List Source} (hnodup : events.Nodup) : acceptsOf events ≤ 2 := by
  rcases events with _ | ⟨_ | _, _ | ⟨_ | _, rest⟩⟩ <;> simp_all [acceptsOf]

theorem Point.few (point : Point) (hnodup : point.rest.Nodup) : point.accepts ≤ 2 ∧ point.reports ≤ 1 := by
  cases point with
  | polling rest | accepted _ rest =>
    refine ⟨acceptsOf_le hnodup, ?_⟩
    simp only [Point.reports]
    split <;> omega
  | _ => exact ⟨Nat.zero_le _, Nat.zero_le _⟩

theorem Process.signalled.step (h : p.signalled) (hs : Step p a p') : p'.signalled := by
  rcases h with h | h
  · cases hs with
    | interrupt =>
      left
      show 0 < ite _ _ _
      split <;> omega
    | read | closeListenFd | raise | shutdownActiveFds | drainPendingFds | join | leave | release | ret | fail => exact .inr rfl
    | _ => exact .inl h
  · right
    cases hs with
    | eintr hpoint | fail hpoint | report hpoint | accept hpoint | refuse hpoint | enqueue hpoint | read hpoint =>
      rw [hpoint] at h
      cases h
    | closeListenFd | raise | shutdownActiveFds | drainPendingFds | join | leave | release | ret => rfl
    | _ => exact h

/-- What is taken, and reported, comes out of what was left before the pipe. -/
theorem Step.toPipe (hsig : p.signalled) (hs : Step p a p') :
    p'.point.accepts + a.isAccept.toNat ≤ p.point.accepts ∧ p'.point.reports + a.isReport.toNat ≤ p.point.reports := by
  cases hs with
  | connect | interrupt | eintr => exact ⟨Nat.le_refl _, Nat.le_refl _⟩
  | spurious | next | unregister | close => exact ⟨Nat.le_refl _, Nat.le_refl _⟩
  | report hpoint hne hnodup hready =>
    have hpipe : Source.pipeFd ∈ _ := (hready .pipeFd).2 (by
      rcases hsig with hsig | hsig
      · simpa [Process.ready] using hsig
      · rw [hpoint] at hsig
        cases hsig)
    rw [hpoint]
    refine ⟨?_, ?_⟩
    · exact acceptsOf_report hnodup hpipe
    · simp [Point.reports, Act.isReport, hpipe]
  | accept hpoint => rw [hpoint]; exact ⟨Nat.le_refl _, by simp [Point.reports, Act.isReport]⟩
  | refuse hpoint => rw [hpoint]; exact ⟨Nat.le_refl _, by simp [Point.reports, Act.isReport]⟩
  | enqueue hpoint => rw [hpoint]; exact ⟨Nat.le_refl _, Nat.le_refl _⟩
  | _ => exact ⟨Nat.zero_le _, Nat.zero_le _⟩

/-- **The answer to SIGINT is bounded**: once its byte is in the pipe, the server takes at most two more connections and
`epoll_wait` reports at most once more, for as long as the process runs. -/
theorem sigint_response (h : Comes num backlog notices acts p) (hsig : 0 < p.notices) (hrun : Runs Step p acts' p') :
    acts'.countP Act.isAccept ≤ 2 ∧ acts'.countP Act.isReport ≤ 1 := by
  have hnodup := h.placed.nodup
  have haccepts := Runs.spends (I := Process.signalled) (fun q => q.point.accepts) (fun a => a.isAccept.toNat)
    (fun _ => 0) hrun (fun q a r hq hs => ⟨hq.step hs, (hs.toPipe hq).1⟩) (.inl hsig)
  have hreports := Runs.spends (I := Process.signalled) (fun q => q.point.reports) (fun a => a.isReport.toNat)
    (fun _ => 0) hrun (fun q a r hq hs => ⟨hq.step hs, (hs.toPipe hq).2⟩) (.inl hsig)
  obtain ⟨htwo, hone⟩ := p.point.few hnodup
  simp only [sum_map_toNat, List.map_const', List.sum_replicate_nat, Nat.mul_zero, Nat.add_zero] at haccepts hreports
  exact ⟨by omega, by omega⟩

/-- The report lists the connection before the pipe. -/
theorem sigint_response_both : ∃ p p' : Process, 0 < p.notices ∧
    Runs Step p [.report [.listenFd, .pipeFd], .accept 5, .enqueue, .read] p' ∧
    [Act.report [.listenFd, .pipeFd], .accept 5, .enqueue, .read].countP Act.isAccept ≤ 2 := by
  have hrun₁ := Runs.single (@Step.report (.init 1 1 1) [.listenFd, .pipeFd] rfl (by decide) (by decide) fun src => by
    cases src <;> decide)
  have hrun₂ := hrun₁.snoc (@Step.accept _ 5 _ rfl (by decide) (by decide) rfl)
  have hrun₃ := (hrun₂.snoc (@Step.enqueue _ _ 0 _ _ _ rfl rfl rfl (.idle (by decide)))).snoc (.read rfl (by decide))
  have h : Comes 1 1 1 [] _ := .nil
  exact ⟨_, _, by decide, hrun₃, (sigint_response h (by decide) hrun₃).1⟩

/-! ## To `return 0` -/

/-- What the main thread still does after the signal, from the events it has still to see; `num` threads are joined. -/
def toReturnOf (num : Nat) : List Source → Nat
  | [] => num + 20
  | .pipeFd :: _ => num + 13
  | .listenFd :: rest => toReturnOf num rest + 6

def Point.toReturn (num : Nat) : Point → Nat
  | polling rest => toReturnOf num rest
  | accepted _ rest => toReturnOf num rest + 5
  | notified => num + 12
  | stopping => num + 11
  | flagged => num + 10
  | shut => num + 9
  | joining i => num - i + 8
  | releasing rest => rest.length + 1
  | returned | failed => 0

/-- All acts of the process itself that are left. -/
def Process.remaining (p : Process) : Nat := p.work + p.point.toReturn p.workers.length

/-- An act of one of the process's threads, other than to wait on. -/
def Act.own (a : Act) : Bool := a.ofMain || a.ofWorker

/-- What the process does by itself: all its acts, but `handle_request` returns only where its connection is shut down. -/
def Process.owes (p : Process) (a : Act) : Prop :=
  a.own = true ∧ ∀ i fd, a = .unregister i → p.workers[i]? = some (.serving fd) → shutSince p.log fd

theorem toReturnOf_report {events : List Source} (hnodup : events.Nodup) (hpipe : .pipeFd ∈ events) :
    toReturnOf num events < toReturnOf num [] := by
  rcases events with _ | ⟨_ | _, _ | ⟨_ | _, rest⟩⟩ <;> simp_all [toReturnOf]

theorem toReturnOf_le {events : List Source} (hnodup : events.Nodup) : toReturnOf num events ≤ num + 26 := by
  rcases events with _ | ⟨_ | _, _ | ⟨_ | _, rest⟩⟩ <;> simp_all [toReturnOf]

theorem Placed.toReturn_le (h : Placed p) (num : Nat) : p.point.toReturn num ≤ num + 31 := by
  have hnodup := h.nodup
  rcases hpoint : p.point with rest | ⟨fd, rest⟩ | _ | _ | _ | _ | i | rest | _ | _ <;> rw [hpoint] at hnodup <;>
    simp only [Point.toReturn]
  case polling | accepted =>
    have hle : toReturnOf num rest ≤ num + 26 := toReturnOf_le hnodup
    omega
  case releasing =>
    have hle : rest.length ≤ exitOrder.length := (h.suffix rest hpoint).length_le
    rw [show exitOrder.length = 6 from rfl] at hle
    omega
  all_goals omega

/-- The main thread's act comes out of what it has left. -/
theorem Step.toReturn (hsig : p.signalled) (hs : Step p a p') :
    p'.point.toReturn p.workers.length + a.ofMain.toNat + (if a = .enqueue then 4 else 0) ≤
      p.point.toReturn p.workers.length := by
  cases hs with
  | connect | interrupt | eintr => exact Nat.le_refl _
  | spurious | next | unregister | close => exact Nat.le_refl _
  | fail => exact Nat.zero_le _
  | report hpoint hne hnodup hready =>
    have hpipe : Source.pipeFd ∈ _ := (hready .pipeFd).2 (by
      rcases hsig with hsig | hsig
      · simpa [Process.ready] using hsig
      · rw [hpoint] at hsig
        cases hsig)
    rw [hpoint]
    exact toReturnOf_report hnodup hpipe
  | join hpoint hw =>
    have hlt := (List.getElem?_eq_some_iff.1 hw).1
    rw [hpoint]
    simp only [Point.toReturn, Act.ofMain, Bool.toNat_true, reduceCtorEq, if_false]
    omega
  | leave hpoint =>
    rw [hpoint]
    simp [Point.toReturn, Act.ofMain, exitOrder]
  | accept hpoint | refuse hpoint | enqueue hpoint | read hpoint | closeListenFd hpoint | raise hpoint
  | shutdownActiveFds hpoint | drainPendingFds hpoint | release hpoint | ret hpoint =>
    rw [hpoint]
    simp [Point.toReturn, toReturnOf, Act.ofMain]

theorem Step.remaining (h : Comes num backlog notices acts p) (hsig : p.signalled) (hs : Step p a p') :
    p'.remaining + a.own.toNat ≤ p.remaining + a.isSpurious.toNat := by
  have hwork := hs.work h
  have hpoint := hs.toReturn hsig
  unfold Process.remaining
  rw [hs.length]
  cases a <;>
    simp only [Act.ofWorker, Act.brings, Act.ofMain, Act.own, Act.isSpurious, Bool.or_false, Bool.or_true,
      Bool.toNat_true, Bool.toNat_false, reduceCtorEq, if_false, if_true] at hwork hpoint ⊢ <;>
    omega

/-- Short of its end, the process has something to do by itself. -/
theorem owes_of_signalled (h : Comes num backlog notices acts p) (hsig : p.signalled) (halive : p.point.stopped = false) :
    ∃ a p', p.owes a ∧ Step p a p' := by
  by_contra hnone
  have hnone (a : Act) (p' : Process) (howes : p.owes a) : ¬ Step p a p' := fun hs => hnone ⟨a, p', howes, hs⟩
  have hmain (a : Act) (p' : Process) (ha : a.ofMain = true) : ¬ Step p a p' := by
    refine hnone a p' ⟨by simp [Act.own, ha], ?_⟩
    rintro i fd rfl
    cases ha
  rcases main_waits h hmain with hover | ⟨hpoint, -, hnotices⟩ | ⟨i, hpoint, hlt, hleft⟩
  · rw [halive] at hover
    cases hover
  · rcases hsig with hsig | hsig
    · omega
    · rw [hpoint] at hsig
      cases hsig
  · have hr := h.reachable
    have hmain' : p.system.main = .joining i := by rw [Process.system, hpoint]; rfl
    have hexit : p.pool.exitFlag = true := by
      have := hr.ordered.flag
      rw [hmain'] at this
      exact this
    have hget := List.getElem?_eq_getElem hlt
    have hnext (hretests : p.workers[i].retests = true) : False := by
      have hpool : p.pool.next = some (p.pool, .exited) := by simp [Pool.next, hexit]
      exact hnone _ _ ⟨rfl, by simp⟩ (Step.next halive hget hretests hpool)
    rcases hcase : p.workers[i] with _ | _ | _ | fd | fd | _
    case testing => exact hnext (by rw [hcase]; rfl)
    case waiting => exact hr.phased.awake hexit (hcase ▸ List.getElem_mem hlt)
    case signalled => exact hnext (by rw [hcase]; rfl)
    case serving =>
      refine hnone _ _ ⟨rfl, fun j f hj hf => ?_⟩ (Step.unregister halive (hcase ▸ hget))
      exact hr.downed (.inr ⟨i, hmain'⟩) f (List.mem_of_getElem? hf)
    case closing => exact hnone _ _ ⟨rfl, by simp⟩ (Step.close halive (hcase ▸ hget))
    case exited => exact hleft (hcase ▸ hget)

/-- **A server that cannot move is idle**: its main thread is in `epoll_wait` with no connection and no signal to come, all
workers sleep, and every connection accepted has been closed exactly once. -/
theorem stuck_is_idle (h : Comes num backlog notices acts p) (hnum : 0 < num)
    (hstuck : ∀ a p', a.own = true → ¬ Step p a p') :
    p.point.stopped = true ∨ (p.point = .polling [] ∧ p.backlog = 0 ∧ p.notices = 0 ∧ p.pool.queue.contents = [] ∧
      (∀ w ∈ p.workers, w = .waiting) ∧ ∀ fd, p.log.count (.close fd) = p.log.count (.accept fd)) := by
  rcases halive : p.point.stopped with _ | _
  case true => exact .inl rfl
  have hunsignalled : ¬ p.signalled := by
    intro hsig
    obtain ⟨a, p', howes, hs⟩ := owes_of_signalled h hsig halive
    exact hstuck a p' howes.1 hs
  rcases main_waits h fun a p' ha => hstuck a p' (by simp [Act.own, ha]) with
    hover | ⟨hpoint, hbacklog, hnotices⟩ | ⟨i, hpoint, -⟩
  · rw [halive] at hover
    cases hover
  · have hexit : p.pool.exitFlag = false := by
      have := h.reachable.ordered.flag
      rw [show p.system.main = p.point.main p.workers.length from rfl, hpoint] at this
      exact this
    obtain ⟨hempty, hwait, hmine⟩ := settled_of_stuck h halive hexit (fun a p' ha => hstuck a p' (by simp [Act.own, ha])) hnum
    refine .inr ⟨hpoint, hbacklog, hnotices, hempty, hwait, fun fd => ?_⟩
    have hcount := h.reachable.owned.sound.count_close fd
    have hopen : isOpen p.log fd = false := by
      by_contra hopen
      obtain ⟨rest, hrest⟩ := hmine fd (by simpa using hopen)
      rw [hpoint] at hrest
      cases hrest
    rw [show p.system.log = p.log from rfl, hopen] at hcount
    simpa using hcount
  · exact absurd (.inr (by rw [hpoint]; rfl)) hunsignalled

/-- A worker that has found nothing. -/
theorem stuck_is_idle_asleep : ∃ p : Process, p.workers = [.waiting] ∧ (∀ a p', a.own = true → ¬ Step p a p') ∧
    p.backlog = 0 ∧ p.pool.queue.contents = [] := by
  obtain ⟨p, h, hp, hworkers, hbacklog, hnotices⟩ : ∃ p, Comes 1 0 0 [.next 0] p ∧ p.point = .polling [] ∧
      p.workers = [.waiting] ∧ p.backlog = 0 ∧ p.notices = 0 :=
    ⟨_, .single (@Step.next _ 0 _ _ _ rfl rfl rfl rfl), rfl, rfl, rfl, rfl⟩
  have hasleep {i : Nat} {w : Worker} (hw : p.workers[i]? = some w) : w = .waiting :=
    List.mem_singleton.1 (hworkers ▸ List.mem_of_getElem? hw)
  have hstuck : ∀ a p', Act.own a = true → ¬ Step p a p' := by
    rintro a p' ha hs
    cases hs with
    | report _ hne _ hready =>
      refine hne (List.eq_nil_iff_forall_not_mem.2 fun src hsrc => ?_)
      have := (hready src).1 hsrc
      cases src <;> simp [Process.ready, hbacklog, hnotices] at this
    | accept hpoint | refuse hpoint | enqueue hpoint | read hpoint | closeListenFd hpoint | raise hpoint
    | shutdownActiveFds hpoint | drainPendingFds hpoint | join hpoint | leave hpoint | release hpoint | ret hpoint =>
      cases hp.symm.trans hpoint
    | next _ hw hretests =>
      rw [hasleep hw] at hretests
      cases hretests
    | unregister _ hw => cases hasleep hw
    | close _ hw => cases hasleep hw
    | _ => cases ha
  rcases stuck_is_idle h (by decide) hstuck with hover | ⟨-, -, -, hempty, -⟩
  · rw [hp] at hover
    cases hover
  · exact ⟨p, hworkers, hstuck, hbacklog, hempty⟩

/-- **SIGINT ends the process**: once its byte is in the pipe, the threads of the process together make at most three acts
for each connection queued, five for each thread and 31 more, and one for each wake-up nobody asked for. Until the process
is over one of them can always go on, and none of them waits for a peer: `handle_request` has to return only on a
connection that was shut down. So they come to the end, whatever happened so far. -/
theorem shutdown_ends (h : Comes num backlog notices acts p) (hsig : 0 < p.notices) (hrun : Runs Step p acts' p') :
    acts'.countP Act.own ≤ 3 * p.pool.queue.contents.length + 5 * num + 31 + acts'.countP Act.isSpurious ∧
    (p'.point.stopped = true ∨ ∃ a q, p'.owes a ∧ Step p' a q) ∧
    ∃ acts'' q, Runs (fun s a t => Step s a t ∧ s.owes a) p' acts'' q ∧ q.point.stopped = true := by
  let I (q : Process) : Prop := (∃ acts, Comes num backlog notices acts q) ∧ q.signalled
  have hkeep {q : Process} {a : Act} {r : Process} (hq : I q) (hs : Step q a r) : I r := ⟨hs.comes hq.1, hq.2.step hs⟩
  have hI : I p := ⟨⟨acts, h⟩, .inl hsig⟩
  have hI' : I p' := Runs.keeps hrun (fun q a r hq hs => hkeep hq hs) hI
  refine ⟨?_, ?_, ?_⟩
  · have hspent := Runs.spends (I := I) Process.remaining (fun a => a.own.toNat) (fun a => a.isSpurious.toNat) hrun
      (fun q a r hq hs => ⟨hkeep hq hs, hs.remaining hq.1.choose_spec hq.2⟩) hI
    have hlen : p.workers.length = num := h.reachable.length_workers
    have hranks := ranks_le p.workers
    have hpoint := h.placed.toReturn_le num
    have hflag : (if p.pool.exitFlag then 0 else p.workers.length) ≤ num := by split <;> omega
    simp only [sum_map_toNat, Process.remaining, Process.work, hlen] at hspent hranks hflag
    omega
  · rcases halive : p'.point.stopped with _ | _
    · exact .inr (owes_of_signalled hI'.1.choose_spec hI'.2 halive)
    · exact .inl rfl
  · refine Runs.settles (I := I) Process.remaining (fun q a r hq hs howes => ⟨hkeep hq hs, ?_⟩) (fun q hq hover => ?_) hI'
    · have := hs.remaining hq.1.choose_spec hq.2
      have hnot : a.isSpurious = false := by
        have := howes.1
        cases a <;> first | rfl | cases this
      rw [howes.1, hnot, Bool.toNat_true, Bool.toNat_false] at this
      omega
    · exact owes_of_signalled hq.1.choose_spec hq.2 (by simpa using hover)

/-- The signal comes while the one worker serves a connection, and another one is queued; the main thread has read it. -/
theorem shutdown_ends_busy : ∃ (p : Process) (acts : List Act) (q : Process), p.point = .notified ∧
    p.workers = [.serving 5] ∧ p.pool.queue.contents = [6] ∧ Runs (fun s a t => Step s a t ∧ s.owes a) p acts q ∧
      q.point.stopped = true := by
  have h₁ : Comes 1 2 0 _ _ :=
    .single (@Step.report _ [.listenFd] rfl (by decide) (by decide) fun src => by cases src <;> decide)
  have h₂ := h₁.snoc (@Step.accept _ 5 _ rfl (by decide) (by decide) rfl)
  have h₃ := h₂.snoc (@Step.enqueue _ _ 0 _ _ _ rfl rfl rfl (.idle (by decide)))
  have h₄ := h₃.snoc (@Step.next _ 0 _ _ _ rfl rfl rfl rfl)
  have h₅ := h₄.snoc (@Step.report _ [.listenFd] rfl (by decide) (by decide) fun src => by cases src <;> decide)
  have h₆ := h₅.snoc (@Step.accept _ 6 _ rfl (by decide) (by decide) rfl)
  have h₇ := h₆.snoc (@Step.enqueue _ _ 0 _ _ _ rfl rfl rfl (.idle (by decide)))
  have h₈ := h₇.snoc (.interrupt rfl)
  obtain ⟨-, -, acts, q, hend, hover⟩ := shutdown_ends h₈ (by decide)
    (.cons (@Step.report _ [.pipeFd] rfl (by decide) (by decide) fun src => by cases src <;> decide)
      (.cons (.read rfl (by decide)) .nil))
  exact ⟨_, acts, q, rfl, rfl, rfl, hend, hover⟩

end WindCloud.EventLoop
