import WindCloud.EventLoopProgress
import WindCloud.Frame
import WindCloud.Waiting
import WindCloud.Lib.Ending
/-!
# The server with its connections

The event loop and the pool, and in the hands of each worker that serves a connection a run of `handle_request`. All of
them share one tree, and one step is one act of the loop, of the pool or of the kernel, or one system call of a
connection.

| here | there |
| --- | --- |
| `Conn.start` | the session a worker begins (`worker.c:61-65`) |
| `Step.call`, `Step.loop` | `handle_request(&session)` (`worker.c:70`), a step at a time |
| `Step.act` | everything else; `unregister_active_fd` (`worker.c:73`) comes when `handle_request` has returned |

What `EventLoop` leaves open, how long a worker serves, is here what `handle_request` does. So the two meet: what is known
of a single connection holds for every worker at any time (`conn_run`), and after SIGINT the process ends unless its
clients keep it busy for ever (`service_ends`).
-/

namespace WindCloud.Service

open EventLoop ThreadPool Interaction Prog

/-- A connection in a worker's hands: what is left of `handle_request`, and what the kernel holds for it. -/
structure Conn where
  prog : Io Rc
  proc : Proc

def Conn.start : Conn := ⟨Server.handleRequest .start, .init⟩

/-- `conns i` is the connection of worker `i` while it serves one. -/
structure State where
  process : Process
  fs : FS
  conns : Nat → Conn

/-- The loop and the pool as they begin; nobody serves anybody. -/
def State.init (num backlog notices : Nat) (fs : FS) : State := ⟨.init num backlog notices, fs, fun _ => .start⟩

inductive Move where
  | act (a : Act)
  | call (i : Nat) (x : WindCloud.Event)
  | loop (i : Nat)

/-- A worker that comes out of its locked section may have a new connection. -/
def started (conns : Nat → Conn) : Act → Nat → Conn
  | .next i => Function.update conns i .start
  | _ => conns

inductive Step (faults : Call → Prop) : State → Move → State → Prop
  | act {s : State} {a : Act} {p : Process} (hs : EventLoop.Step s.process a p)
      (hret : ∀ i, a = .unregister i → ∃ rc, (s.conns i).prog = .ret rc) :
      Step faults s (.act a) ⟨p, s.fs, started s.conns a⟩
  | call {s : State} {i : Nat} {fd : Int} {e : Call} {k : Res e → Io Rc} {l l' : Proc} {r : Res e} {fs : FS}
      (halive : s.process.point.stopped = false) (hw : s.process.workers[i]? = some (.serving fd))
      (hconn : s.conns i = ⟨.call e k, l⟩) (hk : kernel (.quiet faults) ⟨s.fs, l⟩ e r ⟨fs, l'⟩) :
      Step faults s (.call i ⟨e, r⟩) ⟨s.process, fs, Function.update s.conns i ⟨k r, l'⟩⟩
  | loop {s : State} {i : Nat} {fd : Int} {σ β : Type} {body : σ → Io (σ ⊕ β)} {x : σ} {k : β → Io Rc} {l : Proc}
      (halive : s.process.point.stopped = false) (hw : s.process.workers[i]? = some (.serving fd))
      (hconn : s.conns i = ⟨.loop body x k, l⟩) :
      Step faults s (.loop i) ⟨s.process, s.fs, Function.update s.conns i ⟨body x >>= unroll body k, l⟩⟩

/-- What a server of `num` workers can come to. -/
def Comes (faults : Call → Prop) (num backlog notices : Nat) (fs : FS) (moves : List Move) (s : State) : Prop :=
  Runs (Step faults) (.init num backlog notices fs) moves s

section Steps

variable {faults : Call → Prop} {num backlog notices : Nat} {fs₀ : FS} {s s' : State} {m : Move} {moves : List Move}
  {i : Nat} {fd : Int}

/-! ## The two sides -/

theorem Step.process (h : Step faults s m s') : s'.process = s.process ∨ ∃ a, EventLoop.Step s.process a s'.process := by
  cases h with
  | act hs => exact .inr ⟨_, hs⟩
  | call | loop => exact .inl rfl

/-- The event loop does not notice what the connections do. -/
theorem Comes.process (h : Comes faults num backlog notices fs₀ moves s) :
    ∃ acts, EventLoop.Comes num backlog notices acts s.process := by
  refine Runs.keeps (I := fun s => ∃ acts, EventLoop.Comes num backlog notices acts s.process) h ?_ ?_
  · intro s m t hs hstep
    rcases hstep.process with heq | ⟨a, hact⟩
    · exact heq ▸ hs
    · exact hact.comes hs
  · exact ⟨[], Runs.nil⟩

/-- Only its own locked section gives a worker a connection. -/
theorem serving_of_step {p p' : Process} {a : Act} (hs : EventLoop.Step p a p')
    (hw : p'.workers[i]? = some (.serving fd)) : a = .next i ∨ p.workers[i]? = some (.serving fd) ∧ a ≠ .next i := by
  have hset {j : Nat} {w : Worker} (hw : (p.workers.set j w)[i]? = some (.serving fd)) (hne : w ≠ .serving fd) :
      p.workers[i]? = some (.serving fd) := by
    by_cases hj : j = i
    · subst hj
      rw [List.getElem?_set_self'] at hw
      obtain ⟨_, -, hw⟩ := Option.map_eq_some_iff.1 hw
      exact absurd hw hne
    · rwa [List.getElem?_set_ne hj] at hw
  cases hs with
  | enqueue _ _ _ hsignal =>
    cases hsignal with
    | wake => exact .inr ⟨hset hw (by simp), by simp⟩
    | idle => exact .inr ⟨hw, by simp⟩
  | raise =>
    rw [broadcast, List.getElem?_map] at hw
    obtain ⟨w, hget, hw⟩ := Option.map_eq_some_iff.1 hw
    split at hw
    · cases hw
    · exact .inr ⟨hw ▸ hget, by simp⟩
  | @next j =>
    by_cases hj : j = i
    · exact .inl (by rw [hj])
    · rw [List.getElem?_set_ne hj] at hw
      exact .inr ⟨hw, by simpa using hj⟩
  | spurious | unregister | close => exact .inr ⟨hset hw (by simp), by simp⟩
  | _ => exact .inr ⟨hw, by simp⟩

/-- **Every connection is a run of its own**: what a worker has in its hands is `handle_request` from a fresh session, in
a tree that the others may change at any time. -/
theorem conn_run (h : Comes faults num backlog notices fs₀ moves s) (hw : s.process.workers[i]? = some (.serving fd)) :
    ∃ fs fs', Steps (kernel (.busy faults)) (Server.handleRequest .start, ⟨fs, .init⟩)
      ((s.conns i).prog, ⟨fs', (s.conns i).proc⟩) := by
  refine Runs.keeps (I := fun s => ∀ i fd, s.process.workers[i]? = some (.serving fd) → ∃ fs fs',
    Steps (kernel (.busy faults)) (Server.handleRequest .start, ⟨fs, .init⟩) ((s.conns i).prog, ⟨fs', (s.conns i).proc⟩))
    h ?_ ?_ i fd hw
  · intro s m t hI hstep j fd' hj
    cases hstep with
    | @act a p hs hret =>
      rcases serving_of_step hs hj with rfl | ⟨hj, hne⟩
      · exact ⟨fs₀, fs₀, by simpa [started] using .refl⟩
      · have hsame : started s.conns a j = s.conns j := by
          cases a with
          | next k =>
            refine Function.update_of_ne ?_ ..
            rintro rfl
            exact hne rfl
          | _ => rfl
        simp only [hsame]
        exact hI j fd' hj
    | @call k _ e f l l' r fs halive hk hconn hkernel =>
      obtain ⟨fs₁, fs₂, hrun⟩ := hI j fd' hj
      by_cases hkj : j = k
      · subst hkj
        rw [hconn] at hrun
        obtain ⟨_, rfl, v, he, hv⟩ := hkernel
        simp only [Function.update_self]
        exact ⟨fs₁, fs, hrun.tail (.call ⟨_, trivial, v, he, hv⟩)⟩
      · simp only [Function.update_of_ne hkj]
        exact ⟨fs₁, fs₂, hrun⟩
    | @loop k _ _ _ body x f l halive hk hconn =>
      obtain ⟨fs₁, fs₂, hrun⟩ := hI j fd' hj
      by_cases hkj : j = k
      · subst hkj
        rw [hconn] at hrun
        simp only [Function.update_self]
        exact ⟨fs₁, fs₂, hrun.tail .loop⟩
      · simp only [Function.update_of_ne hkj]
        exact ⟨fs₁, fs₂, hrun⟩
  · intro j fd' hj
    have hmem := List.eq_of_mem_replicate (List.mem_of_getElem? hj)
    cases hmem

/-! ## Who changes the tree -/

/-- **The server changes nothing unasked**: a step of it that changes the node at `q` is a system call of a worker that
serves a connection, which is open and in nobody else's hands, and that has read from it, and is serving, an `rm`, a
`mkdir` or a `puts` about `q`. The loop and the pool change nothing. -/
theorem changes_served (h : Comes faults num backlog notices fs₀ moves s) (hstep : Step faults s m s') {q : Bytes}
    (hne : s'.fs q ≠ s.fs q) :
    ∃ i x fd fs fs' reqs session packet type, m = .call i x ∧ s.process.workers[i]? = some (.serving fd) ∧
      isOpen s.process.log fd = true ∧ s.process.system.places fd = 1 ∧
      Server.Amid (.busy faults) ⟨fs, .init⟩ reqs session (some packet) ((s.conns i).prog, ⟨fs', (s.conns i).proc⟩) ∧
      packet.Is type ∧ Server.requestPath session packet = some q ∧ Changed (s.fs q) (s'.fs q) type := by
  cases hstep with
  | act hs hret => exact absurd rfl hne
  | loop halive hw hconn => exact absurd rfl hne
  | @call i fd e k l l' r fs halive hw hconn hk =>
    obtain ⟨fs₁, fs₂, hrun⟩ := conn_run h hw
    obtain ⟨reqs, session, cur, hamid⟩ := Server.amid_of_steps hrun
    obtain ⟨type, htype, hchanged⟩ := kernel_changed hk hne
    have htouch : e.touches (s.conns i).proc = some q := by
      rw [hconn]
      exact (kernel_elsewhere hk hne).1
    obtain ⟨packet, rfl, hpath, his⟩ := hamid.attends init_handles (congrArg Conn.prog hconn) htouch
    obtain ⟨acts, hcomes⟩ := h.process
    have howned := hcomes.reachable.owned
    have hopen : isOpen s.process.log fd = true := howned.isOpen_of_holds (List.mem_of_getElem? hw) (by simp)
    have hplaces : s.process.system.places fd = 1 := by
      rw [howned.places, show s.process.system.log = s.process.log from rfl, hopen]
      rfl
    exact ⟨i, _, fd, fs₁, fs₂, reqs, session, packet, type, rfl, hw, hopen, hplaces, hamid, his type htype, hpath, hchanged⟩

/-- What one connection does while nothing else happens. -/
theorem Comes.serving {p : Io Rc} {fs : FS} {l : Proc} (h : Comes faults num backlog notices fs₀ moves s)
    (halive : s.process.point.stopped = false) (hw : s.process.workers[i]? = some (.serving fd))
    (hrun : Steps (kernel (.quiet faults)) ((s.conns i).prog, ⟨s.fs, (s.conns i).proc⟩) (p, ⟨fs, l⟩)) :
    ∃ moves t, Comes faults num backlog notices fs₀ moves t ∧ t.process = s.process ∧ t.fs = fs ∧ t.conns i = ⟨p, l⟩ := by
  generalize hd : (p, (⟨fs, l⟩ : World)) = d at hrun
  induction hrun generalizing p fs l with
  | refl =>
    cases hd
    exact ⟨moves, s, h, rfl, rfl, rfl⟩
  | @tail b _ _ hs ih =>
    subst hd
    obtain ⟨q, fs₁, l₁⟩ := b
    obtain ⟨moves, t, ht, hprocess, rfl, hconn⟩ := ih rfl
    rw [← hprocess] at halive hw
    cases hs with
    | call hk => exact ⟨_, _, Runs.snoc ht (.call halive hw hconn hk), hprocess, rfl, Function.update_self ..⟩
    | loop => exact ⟨_, _, Runs.snoc ht (.loop halive hw hconn), hprocess, rfl, Function.update_self ..⟩

/-- A worker has just taken its first connection. -/
theorem comes_serving (faults : Call → Prop) : ∃ moves s, Comes faults 1 0 0 (fun _ => none) moves s ∧
    s.process.point = .polling [] ∧ s.process.workers = [.serving 5] ∧ s.process.held = .listenFd :: exitOrder ∧
      s.fs = (fun _ => none) ∧ s.conns 0 = .start := by
  have h₁ : Comes faults 1 0 0 (fun _ => none) _ _ := .single (.act (.connect rfl (by decide)) fun _ h => by cases h)
  have h₂ := h₁.snoc (.act
    (@EventLoop.Step.report _ [.listenFd] rfl (by decide) (by decide) fun src => by cases src <;> decide)
    fun _ h => by cases h)
  have h₃ := h₂.snoc (.act (@EventLoop.Step.accept _ 5 _ rfl (by decide) (by decide) rfl) fun _ h => by cases h)
  have h₄ := h₃.snoc (.act (@EventLoop.Step.enqueue _ _ 0 _ _ _ rfl rfl rfl (.idle (by decide))) fun _ h => by cases h)
  exact ⟨_, _, h₄.snoc (.act (@EventLoop.Step.next _ 0 _ _ _ rfl rfl rfl rfl) fun _ h => by cases h), rfl, rfl, rfl, rfl, rfl⟩

/-- One worker, one connection, and what it is asked for is a directory. -/
theorem changes_served_mkdir : ∃ (moves : List Move) (s s' : State) (m : Move),
    Comes (fun _ => False) 1 0 0 (fun _ => none) moves s ∧ Step (fun _ => False) s m s' ∧
      s'.fs (lit "../tests/a") = some .dir ∧ ∃ packet session type, packet.Is type ∧ Server.requestPath session packet = some (lit "../tests/a") ∧
        Changed (s.fs (lit "../tests/a")) (s'.fs (lit "../tests/a")) type := by
  obtain ⟨⟨p, fs, l⟩, hrun, hfs, k, hp⟩ := Server.handleRequest_makesDir
  obtain rfl : fs = fun _ => none := hfs
  obtain rfl : p = _ := hp
  obtain ⟨moves₁, s₁, h₁, hpoint, hworkers, -, hempty, hstart⟩ := comes_serving fun _ => False
  have halive : s₁.process.point.stopped = false := by rw [hpoint]; rfl
  have hw : s₁.process.workers[0]? = some (.serving 5) := by rw [hworkers]; rfl
  rw [show Server.handleRequest .start = (s₁.conns 0).prog by rw [hstart]; rfl,
    show (⟨fun _ => none, .init⟩ : World) = ⟨s₁.fs, (s₁.conns 0).proc⟩ by rw [hstart, hempty]; rfl] at hrun
  obtain ⟨moves, s, h₂, hprocess, hfs, hconn⟩ := Comes.serving h₁ halive hw hrun
  rw [← hprocess] at halive hw
  have hk : kernel (.quiet fun _ => False) ⟨s.fs, l⟩ (.mkdir (lit "../tests/a")) true
      ⟨Function.update s.fs (lit "../tests/a") (some .dir), l.note (.mkdir (lit "../tests/a")) true⟩ :=
    ⟨_, rfl, ⟨_, l⟩, ⟨by rw [hfs], rfl⟩, rfl⟩
  have hstep := Step.call halive hw hconn hk
  obtain ⟨-, -, -, -, -, -, session, packet, type, -, -, -, -, -, his, hpath, hchanged⟩ :=
    changes_served (q := lit "../tests/a") h₂ hstep (by simp [hfs])
  exact ⟨_, _, _, _, h₂, hstep, by simp, packet, session, type, his, hpath, hchanged⟩

/-! ## The end of the process -/

/-- The bytes a call brings in. -/
def Brings : (c : Call) → Res c → Prop
  | .recv .., .done bs => bs ≠ []
  | _, _ => False

/-- What somebody else has to do for it: a signal that interrupts a call, bytes that a client has sent, a wake-up nobody
asked for. -/
def Move.Outside : Move → Prop
  | .act a => a.isSpurious = true
  | .call _ x => Stalled x.1 x.2 ∨ Brings x.1 x.2
  | .loop _ => False

/-- What one of the process's threads does. -/
def Move.own : Move → Bool
  | .act a => a.own
  | .call .. | .loop _ => true

/-- What the process does by itself once the signal has come; a worker goes on with its connection only where that has
been shut down. -/
def State.Owes (s : State) (m : Move) : Prop :=
  ¬ m.Outside ∧ match m with
    | .act a => s.process.owes a
    | .call i _ | .loop i => ∃ fd, s.process.workers[i]? = some (.serving fd) ∧ shutSince s.process.log fd

theorem not_brings_iff {env : Env} {w w' : World} {c : Call} {r : Res c} (hk : kernel env w c r w') :
    ¬ Brings c r ↔ w'.proc.rcvd = w.proc.rcvd := by
  by_cases hc : ∃ wait n, c = .recv wait n
  · obtain ⟨wait, n, rfl⟩ := hc
    obtain ⟨fs, -, v, he, hv⟩ := hk
    obtain rfl : w' = v := hv
    rcases r with _ | _ | bs
    · rw [show w' = _ from he]
      exact iff_of_true id rfl
    · rw [he.2]
      exact iff_of_true id rfl
    · rw [he.2.2]
      exact not_not.trans List.append_right_eq_self.symm
  · have hdeaf := kernel_deaf hk fun wait n heq => hc ⟨wait, n, heq⟩
    refine iff_of_true ?_ hdeaf
    cases c with
    | recv wait n => exact absurd ⟨wait, n, rfl⟩ hc
    | _ => exact id

/-- A connection goes on by itself, in whatever tree. -/
def Conn.Step (c' c : Conn) : Prop :=
  ∃ fs fs', Prog.Step (limited (.busy fun _ => True) c.proc.rcvd) (c.prog, ⟨fs, c.proc⟩, 0) (c'.prog, ⟨fs', c'.proc⟩, 0)

theorem Conn.Step.rcvd {c c' : Conn} (h : Conn.Step c' c) : c'.proc.rcvd = c.proc.rcvd := by
  obtain ⟨p, l⟩ := c
  obtain ⟨p', l'⟩ := c'
  obtain ⟨fs, fs', h⟩ := h
  cases h with
  | call hk => exact hk.1.2.eq_of_length_le (kernel_grows hk.1.1).1.length_le
  | loop => rfl

/-- Where others may change anything, the tree a step begins in does not matter. -/
theorem step_anywhere {g : Call → Prop} {avail : Bytes} {p p' : Io Rc} {fs fs₁ : FS} {l l' : Proc} {n n' : Nat} (fs' : FS)
    (h : Prog.Step (limited (.busy g) avail) (p, ⟨fs, l⟩, n) (p', ⟨fs₁, l'⟩, n')) :
    ∃ fs₂, Prog.Step (limited (.busy g) avail) (p, ⟨fs', l⟩, n) (p', ⟨fs₂, l'⟩, n') := by
  cases h with
  | call hk =>
    obtain ⟨⟨⟨fs₂, -, v, he⟩, hin⟩, hstall⟩ := hk
    exact ⟨fs₁, .call ⟨⟨⟨fs₂, trivial, v, he⟩, hin⟩, hstall⟩⟩
  | loop => exact ⟨fs', .loop⟩

theorem Conn.acc {c : Conn} {fs : FS} {avail : Bytes} (hrcvd : c.proc.rcvd = avail)
    (h : Acc (fun d d' => Prog.Step (limited (.busy fun _ => True) avail) d' d) (c.prog, ⟨fs, c.proc⟩, 0)) :
    Acc Conn.Step c := by
  generalize hd : (c.prog, (⟨fs, c.proc⟩ : World), 0) = d at h
  induction h generalizing c fs with
  | intro d _ ih =>
    subst hd
    refine ⟨_, fun c' hstep => ?_⟩
    have hkeep := hstep.rcvd.trans hrcvd
    obtain ⟨fs₁, fs₂, hs⟩ := hstep
    rw [hrcvd] at hs
    obtain ⟨fs₃, hs⟩ := step_anywhere fs hs
    exact ih _ hs hkeep rfl

/-- What is left of `handle_request` comes to an end where nothing more is sent to it. -/
theorem conn_ends (h : Comes faults num backlog notices fs₀ moves s) (hw : s.process.workers[i]? = some (.serving fd)) :
    ∃ fs, twp (limited (.busy fun _ => True) (s.conns i).proc.rcvd) (s.conns i).prog
      (fun _ _ => True) (⟨fs, (s.conns i).proc⟩, 0) := by
  obtain ⟨fs, fs', hrun⟩ := conn_run h hw
  obtain ⟨n, hn⟩ := Server.steps_limited hrun (List.prefix_refl _)
  have hends : Concludes (.busy fun _ => True) (s.conns i).proc.rcvd (Server.handleRequest .start) :=
    Server.handleRequest_concludes fun _ => trivial
  exact ⟨fs', twp_mono (twp_steps (hends _ List.nil_prefix) hn) fun _ _ _ => trivial⟩

/-! ### No run goes on for ever -/

/-- What a move without help from outside leaves of a connection. -/
theorem Step.conns (hs : Step faults s m s') (hm : ¬ m.Outside) :
    (∃ a, m = .act a ∧ s'.conns = started s.conns a) ∨ (s'.process = s.process ∧ ∃ i fd c,
      s.process.workers[i]? = some (.serving fd) ∧ Conn.Step c (s.conns i) ∧ s'.conns = Function.update s.conns i c) := by
  cases hs with
  | act hs hret => exact .inl ⟨_, rfl, rfl⟩
  | @call i fd e k l l' r fs halive hw hconn hk =>
    refine .inr ⟨rfl, i, fd, _, hw, ?_, rfl⟩
    obtain ⟨hstall, hbrings⟩ := not_or.1 hm
    have hrcvd : l'.rcvd = l.rcvd := (not_brings_iff hk).1 hbrings
    obtain ⟨_, rfl, v, he, hv⟩ := hk
    rw [hconn]
    exact ⟨s.fs, fs, .call ⟨⟨⟨_, trivial, v, effect_faults he fun _ => trivial, hv⟩, hrcvd ▸ List.prefix_refl _⟩,
      fun h => absurd h hstall, fun _ => rfl⟩⟩
  | @loop i fd _ _ body x k l halive hw hconn =>
    refine .inr ⟨rfl, i, fd, _, hw, ?_, rfl⟩
    rw [hconn]
    exact ⟨s.fs, s.fs, .loop⟩

/-- Who serves, serves on, but for an act of the loop or the pool. -/
theorem Step.workers (hs : Step faults s m s') (hm : ¬ m.Outside) (hown : ∀ a, m = .act a → a.own = false) :
    s'.process.workers = s.process.workers := by
  cases hs with
  | call | loop => rfl
  | act hact =>
    have hown := hown _ rfl
    cases hact with
    | connect | interrupt | eintr | fail => rfl
    | spurious => exact absurd rfl hm
    | _ => cases hown

/-- The server has come to `s`, and the signal has come to it. -/
def Stopping (faults : Call → Prop) (num backlog notices : Nat) (fs : FS) (s : State) : Prop :=
  (∃ moves, Comes faults num backlog notices fs moves s) ∧ s.process.signalled

theorem Stopping.step (h : Stopping faults num backlog notices fs₀ s) (hs : Step faults s m s') :
    Stopping faults num backlog notices fs₀ s' := by
  obtain ⟨⟨moves, h⟩, hsig⟩ := h
  refine ⟨⟨_, Runs.snoc h hs⟩, ?_⟩
  rcases hs.process with heq | ⟨a, hact⟩
  · exact heq ▸ hsig
  · exact hsig.step hact

/-- The acts of the process use up what remains of it, and its connections leave that alone. -/
theorem Stopping.remaining (h : Stopping faults num backlog notices fs₀ s) (hs : Step faults s m s') (hm : ¬ m.Outside) :
    s'.process.remaining ≤ s.process.remaining ∧
      ∀ a, m = .act a → a.own = true → s'.process.remaining < s.process.remaining := by
  obtain ⟨⟨moves, h⟩, hsig⟩ := h
  obtain ⟨acts, hcomes⟩ := h.process
  cases hs with
  | @act a _ hact hret =>
    have hle := hact.remaining hcomes hsig
    have hnot : a.isSpurious = false := by simpa [Move.Outside] using hm
    rw [hnot, Bool.toNat_false, Nat.add_zero] at hle
    refine ⟨Nat.le_of_add_right_le hle, ?_⟩
    rintro _ ⟨rfl⟩ hown
    rwa [hown, Bool.toNat_true] at hle
  | call | loop => exact ⟨Nat.le_refl _, fun a ha => by cases ha⟩

section Infinite

variable {f : Nat → State} {g : Nat → Move} {N : Nat}

/-- First the loop and the pool come to rest. -/
theorem acts_settle (hinit : Stopping faults num backlog notices fs₀ (f 0)) (hrun : ∀ n, Step faults (f n) (g n) (f (n + 1)))
    (hfew : ∀ n, ¬ (g n).Outside) : ∃ N, ∀ n a, N ≤ n → g n = .act a → a.own = false := by
  have hstop (n : Nat) : Stopping faults num backlog notices fs₀ (f n) := by
    induction n with
    | zero => exact hinit
    | succ n ih => exact ih.step (hrun n)
  obtain ⟨N, hN⟩ := @settles _ (· < ·) (fun n => (f n).process.remaining) (Nat.lt_wfRel.wf.apply _) fun n =>
    Nat.eq_or_lt_of_le ((hstop n).remaining (hrun n) (hfew n)).1
  refine ⟨N, fun n a hn ha => ?_⟩
  by_contra hown
  exact hN n hn (((hstop n).remaining (hrun n) (hfew n)).2 a ha (by simpa using hown))

/-- Then the connections do. -/
theorem conns_settle (hinit : Stopping faults num backlog notices fs₀ (f 0)) (hrun : ∀ n, Step faults (f n) (g n) (f (n + 1)))
    (hfew : ∀ n, ¬ (g n).Outside) (hacts : ∀ n a, g n = .act a → a.own = false) :
    ∃ N, ∀ n, N ≤ n → ∃ a, g n = .act a := by
  obtain ⟨moves, hcomes⟩ := hinit.1
  have hworkers (n : Nat) : (f n).process.workers = (f 0).process.workers := by
    induction n with
    | zero => rfl
    | succ n ih => exact ((hrun n).workers (hfew n) (hacts n)).trans ih
  let serving := (List.range (f 0).process.workers.length).filter fun i => ((f 0).process.workers[i]?).any Worker.isServing
  have hmem {i : Nat} {fd : Int} (hw : (f 0).process.workers[i]? = some (.serving fd)) : i ∈ serving := by
    refine List.mem_filter.2 ⟨List.mem_range.2 (List.getElem?_eq_some_iff.1 hw).1, ?_⟩
    rw [hw]
    rfl
  have hacc : Acc (Goes Conn.Step serving) (f 0).conns := by
    refine acc_family fun i hi => ?_
    obtain ⟨w, hw, hserving⟩ := (Option.any_eq_true ..).1 (List.mem_filter.1 hi).2
    cases w with
    | serving fd =>
      obtain ⟨fs, hends⟩ := conn_ends hcomes hw
      exact Conn.acc rfl (twp_acc hends)
    | _ => cases hserving
  have hstep (n : Nat) : (∃ a, g n = .act a ∧ (f (n + 1)).conns = (f n).conns) ∨
      Goes Conn.Step serving (f (n + 1)).conns (f n).conns := by
    rcases (hrun n).conns (hfew n) with ⟨a, ha, hconns⟩ | ⟨-, i, fd, c, hw, hc, hconns⟩
    · refine .inl ⟨a, ha, hconns.trans ?_⟩
      have hown := hacts n a ha
      cases a <;> first | rfl | cases hown
    · rw [hworkers] at hw
      exact .inr ⟨i, hmem hw, c, hc, hconns⟩
  obtain ⟨N, hN⟩ := @settles _ (Goes Conn.Step serving) (fun n => (f n).conns) hacc fun n =>
    (hstep n).imp_left fun ⟨_, _, heq⟩ => heq
  refine ⟨N, fun n hn => ?_⟩
  obtain ⟨a, ha, -⟩ := (hstep n).resolve_right (hN n hn)
  exact ⟨a, ha⟩

/-- From some point on, nothing of its own. -/
theorem own_settle (hinit : Stopping faults num backlog notices fs₀ (f 0)) (hrun : ∀ n, Step faults (f n) (g n) (f (n + 1)))
    (hfew : ∀ n, N ≤ n → ¬ (g n).Outside) : ∃ N, ∀ n, N ≤ n → (g n).own = false := by
  have hstop (n : Nat) : Stopping faults num backlog notices fs₀ (f n) := by
    induction n with
    | zero => exact hinit
    | succ n ih => exact ih.step (hrun n)
  obtain ⟨N₁, hacts⟩ := @acts_settle _ _ _ _ _ (fun n => f (N + n)) (fun n => g (N + n)) (hstop N) (fun n => hrun (N + n))
    fun n => hfew (N + n) (Nat.le_add_right ..)
  have hacts (n : Nat) (a : Act) (hn : N + N₁ ≤ n) (ha : g n = .act a) : a.own = false := by
    obtain ⟨j, rfl⟩ := Nat.exists_eq_add_of_le (Nat.le_of_add_right_le hn)
    exact hacts j a (by omega) ha
  obtain ⟨N₂, hconns⟩ := @conns_settle _ _ _ _ _ (fun n => f (N + N₁ + n)) (fun n => g (N + N₁ + n)) (hstop (N + N₁))
    (fun n => hrun (N + N₁ + n)) (fun n => hfew _ (by omega)) fun n a => hacts _ a (Nat.le_add_right ..)
  refine ⟨N + N₁ + N₂, fun n hn => ?_⟩
  obtain ⟨j, rfl⟩ := Nat.exists_eq_add_of_le (Nat.le_of_add_right_le hn)
  obtain ⟨a, ha⟩ := hconns j (by omega)
  rw [ha]
  exact hacts _ a (Nat.le_add_right ..) ha

end Infinite

/-! ### No run is stuck -/

/-- A connection that was shut down can go on, or is done: none of its calls waits. -/
theorem conn_goes (hfail : ∀ c, faults c) (h : Comes faults num backlog notices fs₀ moves s)
    (halive : s.process.point.stopped = false) (hw : s.process.workers[i]? = some (.serving fd)) :
    (∃ rc, (s.conns i).prog = .ret rc) ∨
      ∃ m s', ¬ m.Outside ∧ ((∃ x, m = .call i x) ∨ m = .loop i) ∧ Step faults s m s' := by
  obtain ⟨fs, hends⟩ := conn_ends h hw
  rcases hconn : s.conns i with ⟨p, l⟩
  rw [hconn] at hends
  cases p with
  | ret rc => exact .inl ⟨rc, rfl⟩
  | loop body x k => exact .inr ⟨.loop i, _, id, .inr rfl, .loop halive hw hconn⟩
  | call e k =>
    have hlimited : ∃ r v', limited (.quiet faults) l.rcvd (⟨s.fs, l⟩, 0) e r v' := by
      by_cases hmem : ∃ m off data, e = .memcpy m off data
      · obtain ⟨m, off, data, rfl⟩ := hmem
        obtain ⟨_, _, ⟨⟨_, -, _, ⟨mp, _, hmap, -⟩, -⟩, -⟩, -⟩ := hends.1
        refine limited_memcpy (List.prefix_refl _) ?_
        rw [show l.maps m = some mp from hmap]
        simp
      · exact limited_fails hfail (List.prefix_refl _) fun m off data heq => hmem ⟨m, off, data, heq⟩
    obtain ⟨r, ⟨⟨fs', l'⟩, n⟩, ⟨hk, hin⟩, hstall, -⟩ := hlimited
    refine .inr ⟨.call i ⟨e, r⟩, _, ?_, .inl ⟨_, rfl⟩, .call halive hw hconn hk⟩
    rintro (hstalled | hbrings)
    · cases hstall hstalled
    · exact (not_brings_iff hk).2 (hin.eq_of_length_le (kernel_grows hk).1.length_le) hbrings

/-- Short of its end, the process has something to do by itself. -/
theorem Stopping.goes (hfail : ∀ c, faults c) (h : Stopping faults num backlog notices fs₀ s)
    (halive : s.process.point.stopped = false) : ∃ m s', s.Owes m ∧ Step faults s m s' := by
  obtain ⟨⟨moves, hcomes⟩, hsig⟩ := h
  obtain ⟨acts, hprocess⟩ := hcomes.process
  obtain ⟨a, p, howes, hs⟩ := owes_of_signalled hprocess hsig halive
  have hnot : ¬ (Move.act a).Outside := by
    have hown := howes.1
    cases a <;> first | exact Bool.false_ne_true | cases hown
  by_cases hreturn : ∃ i, a = .unregister i
  · obtain ⟨i, rfl⟩ := hreturn
    have hshut := howes.2 i
    cases hs with
    | @unregister _ fd _ hw =>
      -- `handle_request` has to return first
      rcases conn_goes hfail hcomes halive hw with ⟨rc, hret⟩ | ⟨m, s', hm, hwho, hstep⟩
      · refine ⟨.act (.unregister i), _, ⟨hnot, howes⟩, .act (.unregister halive hw) ?_⟩
        rintro _ ⟨⟩
        exact ⟨rc, hret⟩
      · refine ⟨m, s', ⟨hm, ?_⟩, hstep⟩
        rcases hwho with ⟨x, rfl⟩ | rfl
        · exact ⟨fd, hw, hshut fd rfl hw⟩
        · exact ⟨fd, hw, hshut fd rfl hw⟩
  · exact ⟨.act a, _, ⟨hnot, howes⟩, .act hs fun i hi => absurd ⟨i, hi⟩ hreturn⟩

theorem State.Owes.own (h : s.Owes m) : m.own = true := by
  cases m with
  | act a => exact h.2.1
  | call | loop => rfl

/-- **SIGINT ends the server, whatever its connections are doing.** Once the byte of the signal is in the pipe: where from
some point on no client sends anything and nothing is interrupted, the process comes to rest; and it does not rest before
its end. Until then one of its threads can go on by itself, with `handle_request` as far as that goes on after a shutdown
of its connection, and so it comes to the end. -/
theorem service_ends (h : Comes faults num backlog notices fs₀ moves s) (hsig : 0 < s.process.notices) :
    (∀ (f : Nat → State) (g : Nat → Move), f 0 = s → (∀ n, Step faults (f n) (g n) (f (n + 1))) →
      (∃ N, ∀ n, N ≤ n → ¬ (g n).Outside) → ∃ N, ∀ n, N ≤ n → (g n).own = false) ∧
    ((∀ c, faults c) → ∀ moves' t, Runs (Step faults) s moves' t →
      (t.process.point.stopped = true ∨ ∃ m u, t.Owes m ∧ Step faults t m u) ∧
      ∃ moves'' u, Runs (fun s m t => Step faults s m t ∧ s.Owes m) t moves'' u ∧ u.process.point.stopped = true) := by
  have hstopping : Stopping faults num backlog notices fs₀ s := ⟨⟨moves, h⟩, .inl hsig⟩
  refine ⟨?_, fun hfail moves' t ht => ?_⟩
  · rintro f g rfl hrun ⟨N, hfew⟩
    exact own_settle hstopping hrun hfew
  have hkeep {moves : List Move} {t u : State} (ht : Stopping faults num backlog notices fs₀ t)
      (hu : Runs (Step faults) t moves u) : Stopping faults num backlog notices fs₀ u :=
    Runs.keeps hu (fun _ _ _ hv hs => hv.step hs) ht
  have ht := hkeep hstopping ht
  refine ⟨?_, Runs.reaches (fun moves u hu hover => ?_) fun f g hf hrun => ?_⟩
  · rcases halive : t.process.point.stopped with _ | _
    · exact .inr (ht.goes hfail halive)
    · exact .inl rfl
  · obtain ⟨m, v, howes, hs⟩ := (hkeep ht (hu.mono fun _ _ _ h => h.1)).goes hfail (by simpa using hover)
    exact ⟨m, v, hs, howes⟩
  · obtain ⟨N, hN⟩ := own_settle (N := 0) (hf ▸ ht) (fun n => (hrun n).1) fun n _ => (hrun n).2.1
    exact absurd ((hrun N).2.own) (by simp [hN N le_rfl])

/-- The signal has come while a worker serves. -/
theorem service_ends_serving : ∃ (moves : List Move) (s u : State) (moves' : List Move),
    Comes (fun _ => True) 1 0 0 (fun _ => none) moves s ∧ s.process.workers = [.serving 5] ∧
      Runs (fun s m t => Step (fun _ => True) s m t ∧ s.Owes m) s moves' u ∧ u.process.point.stopped = true := by
  obtain ⟨moves, s, h, hpoint, hworkers, hheld, -⟩ := comes_serving fun _ => True
  have hsignal := h.snoc (.act (.interrupt (by rw [hpoint]; rfl)) fun _ h => by cases h)
  obtain ⟨moves', u, hrun, hover⟩ := ((service_ends hsignal (by simp [hheld, exitOrder])).2 (fun _ => trivial) [] _ .nil).2
  exact ⟨_, _, u, moves', hsignal, hworkers, hrun, hover⟩

end Steps
end WindCloud.Service
