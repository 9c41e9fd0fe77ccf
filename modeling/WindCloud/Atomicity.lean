import WindCloud.Locking
/-!
# The sections are atomic

What another thread does while somebody holds the lock comes as well before it. A worker's section is only about the pool,
which nobody looks at without the lock (`Out.frame`). What else the main thread's sections do is to wake threads
(`Out.wakes`) and to shut down or close connections (`Out.event`), which are not those that another thread is about to
close (`not_closing_of_serving`, `not_closing_of_queued`).
-/

namespace WindCloud.EventLoop.Locking

open ThreadPool Interaction Relation

section Sections

variable {p p' t s s' u : Process} {th i j : Thread} {l l₀ l' : Place} {num backlog notices : Nat} {pool : Pool}
  {ws ws' : List Worker} {k : Nat} {w w' : Worker} {fd : Int} {e : ThreadPool.Event} {acts : List Act}
  {lock : Option (Thread × Place)}

/-! ## Steps from outside, in the middle of a section -/

/-- Without the lock nobody looks at the pool. -/
theorem Out.frame (h : Out th { p with pool } p') : ∃ q, Out th p q ∧ q.pool = p.pool ∧ p' = { q with pool } := by
  obtain ⟨a, hs, hsection, hne, rfl⟩ := h
  have hout {q : Process} (hq : Step p a q) : Out a.thread p q := ⟨a, hq, hsection, hne, rfl⟩
  cases hs with
  | connect halive hheld => exact ⟨_, hout (.connect halive hheld), rfl, rfl⟩
  | interrupt halive => exact ⟨_, hout (.interrupt halive), rfl, rfl⟩
  | eintr hpoint => exact ⟨_, hout (.eintr hpoint), rfl, rfl⟩
  | report hpoint hevents hnodup hready => exact ⟨_, hout (.report hpoint hevents hnodup hready), rfl, rfl⟩
  | accept hpoint hpending hfd hfree => exact ⟨_, hout (.accept hpoint hpending hfd hfree), rfl, rfl⟩
  | refuse hpoint hpending hbacklog => exact ⟨_, hout (.refuse hpoint hpending hbacklog), rfl, rfl⟩
  | read hpoint hbyte => exact ⟨_, hout (.read hpoint hbyte), rfl, rfl⟩
  | closeListenFd hpoint => exact ⟨_, hout (.closeListenFd hpoint), rfl, rfl⟩
  | join hpoint hw => exact ⟨_, hout (.join hpoint hw), rfl, rfl⟩
  | leave hpoint => exact ⟨_, hout (.leave hpoint), rfl, rfl⟩
  | release hpoint => exact ⟨_, hout (.release hpoint), rfl, rfl⟩
  | ret hpoint => exact ⟨_, hout (.ret hpoint), rfl, rfl⟩
  | spurious halive hw => exact ⟨_, hout (.spurious halive hw), rfl, rfl⟩
  | close halive hw => exact ⟨_, hout (.close halive hw), rfl, rfl⟩
  | fail => exact absurd rfl hne
  | _ => cases hsection

/-- A worker that was not woken moves as before. -/
theorem signal_set (h : Signal ws ws') (hk : ws'[k]? = some w) (hw : w ≠ .signalled) (hw' : w' ≠ .waiting) :
    ws[k]? = some w ∧ Signal (ws.set k w') (ws'.set k w') := by
  cases h with
  | @wake i hi =>
    have hne : i ≠ k := by
      rintro rfl
      rw [List.getElem?_set_self (List.getElem?_eq_some_iff.1 hi).1] at hk
      exact hw (Option.some.inj hk).symm
    rw [List.getElem?_set_ne hne] at hk
    rw [List.set_comm _ _ hne]
    exact ⟨hk, .wake (by rw [List.getElem?_set_ne hne.symm, hi])⟩
  | idle hmem =>
    refine ⟨hk, .idle fun hwaiting => ?_⟩
    rcases List.mem_or_eq_of_mem_set hwaiting with h | h
    · exact hmem h
    · exact hw' h.symm

theorem broadcast_set (hk : (broadcast ws)[k]? = some w) (hw : w ≠ .signalled) (hw' : w' ≠ .waiting) :
    ws[k]? = some w ∧ broadcast (ws.set k w') = (broadcast ws).set k w' := by
  rw [broadcast, List.getElem?_map] at hk
  obtain ⟨v, hv, hvw⟩ := Option.map_eq_some_iff.1 hk
  refine ⟨?_, by simp [broadcast, List.map_set, hw']⟩
  by_cases hwaiting : v = .waiting
  · exact absurd (by rw [← hvw, if_pos hwaiting]) hw
  · rwa [← hvw, if_neg hwaiting]

/-- A connection that is served is in no other worker's hands. -/
theorem not_closing_of_serving {s : System} (ho : Owned s) (hw : .serving fd ∈ s.workers) : .closing fd ∉ s.workers := by
  intro hclosing
  obtain ⟨k, hk⟩ := List.getElem?_of_mem hclosing
  obtain ⟨i, hi⟩ := List.getElem?_of_mem hw
  have hne : k ≠ i := by
    rintro rfl
    cases hk.symm.trans hi
  have hother : .serving fd ∈ s.workers.set k .exited := List.mem_of_getElem? ((List.getElem?_set_ne hne).trans hi)
  have hset := countP_set (Worker.holds fd) hk .exited
  have hpos := Counting.countP_pos hother (Worker.holds_serving fd fd ▸ beq_self_eq_true fd)
  have hle := ho.places_le fd
  simp only [beq_self_eq_true, Bool.toNat_true, Worker.holds, Bool.toNat_false] at hset
  unfold System.places at hle
  omega

/-- Nor is one that is queued. -/
theorem not_closing_of_queued {s : System} (ho : Owned s) (hqueued : fd ∈ s.pool.queue.contents) :
    .closing fd ∉ s.workers := by
  intro hclosing
  have hpos := Counting.countP_pos hclosing (Worker.holds_closing fd fd ▸ beq_self_eq_true fd)
  have hcount := List.count_pos_iff.2 hqueued
  have hle := ho.places_le fd
  unfold System.places at hle
  omega

/-- Whom the main thread wakes does not matter to what another thread does now. -/
theorem Out.wakes {R : List Worker → List Worker → Prop} (h : Out th { p with workers := ws } u) (hth : th ≠ .main)
    (hR : R p.workers ws)
    (hset : ∀ k w w', ws[k]? = some w → w ≠ .signalled → w' ≠ .waiting →
      p.workers[k]? = some w ∧ R (p.workers.set k w') (ws.set k w')) :
    ∃ v ws', Out th p v ∧ R v.workers ws' ∧ u = { v with workers := ws' } := by
  obtain ⟨a, hs, hsection, hne, rfl⟩ := h
  cases hs with
  | connect halive hheld => exact ⟨_, ws, ⟨_, .connect halive hheld, rfl, hne, rfl⟩, hR, rfl⟩
  | interrupt halive => exact ⟨_, ws, ⟨_, .interrupt halive, rfl, hne, rfl⟩, hR, rfl⟩
  | @spurious k halive hw =>
    obtain ⟨hk, hR'⟩ := hset k _ .signalled hw nofun nofun
    exact ⟨_, _, ⟨_, .spurious halive hk, rfl, hne, rfl⟩, hR', rfl⟩
  | @close k fd halive hw =>
    obtain ⟨hk, hR'⟩ := hset k _ .testing hw nofun nofun
    exact ⟨_, _, ⟨_, .close halive hk, rfl, hne, rfl⟩, hR', rfl⟩
  | next | unregister => cases hsection
  | _ => exact absurd rfl hth

/-- Nor does what it does to a descriptor, unless it is the one that the other thread is about to close. -/
theorem Out.event (h : Out th { p with log := p.log ++ [e] } u) (hth : th ≠ .main) (he : .closing e.fd ∉ p.workers) :
    ∃ v, Out th p v ∧ v.pool = p.pool ∧ Alike { v with log := v.log ++ [e] } u := by
  have hrefl := alike_equivalence.refl
  obtain ⟨a, hs, hsection, hne, rfl⟩ := h
  cases hs with
  | connect halive hheld => exact ⟨_, ⟨_, .connect halive hheld, rfl, hne, rfl⟩, rfl, hrefl _⟩
  | interrupt halive => exact ⟨_, ⟨_, .interrupt halive, rfl, hne, rfl⟩, rfl, hrefl _⟩
  | spurious halive hw => exact ⟨_, ⟨_, .spurious halive hw, rfl, hne, rfl⟩, rfl, hrefl _⟩
  | @close k fd halive hw =>
    have hfd : e.fd ≠ fd := by
      rintro rfl
      exact he (List.mem_of_getElem? hw)
    exact ⟨_, ⟨_, .close halive hw, rfl, hne, rfl⟩, rfl, _, rfl, SameEvents.swap hfd.symm⟩
  | next | unregister => cases hsection
  | _ => exact absurd rfl hth

/-- What the main thread has done last in its section comes as well after what another thread does. -/
theorem Reached.commutes (h : Reached .main t l s) (ho : Owned t.system) (hs : Inside (l, s) (l', s'))
    (hout : Out j s' u) (hj : j ≠ .main) : ∃ v u', Out j s v ∧ Inside (l, v) (l', u') ∧ Alike u' u := by
  have hrefl := alike_equivalence.refl
  cases hs with
  | pool hs =>
    obtain ⟨v, hv, hpool, rfl⟩ := hout.frame
    exact ⟨v, _, hv, .pool (hpool ▸ hs), hrefl _⟩
  | signal hsignal =>
    obtain ⟨v, ws, hv, hws, rfl⟩ := hout.wakes hj hsignal fun k w w' => signal_set hsignal
    exact ⟨v, _, hv, .signal hws, hrefl _⟩
  | broadcast =>
    obtain ⟨v, ws, hv, hws, rfl⟩ := hout.wakes (R := fun ws ws' => ws' = broadcast ws) hj rfl fun k w w' hk hw hw' =>
      ⟨(broadcast_set hk hw hw').1, (broadcast_set hk hw hw').2.symm⟩
    exact ⟨v, _, hv, hws ▸ .broadcast, hrefl _⟩
  | @shutdown _ fd idx hx hne =>
    obtain ⟨-, hpoint, rfl⟩ := h
    have hserving : .serving fd ∈ t.workers := (ho.mem_activeFds hne).1 (List.mem_of_getElem? hx)
    obtain ⟨v, hv, hpool, halike⟩ := hout.event hj (not_closing_of_serving ho hserving)
    exact ⟨v, _, hv, .shutdown (hpool ▸ hx) hne, halike⟩
  | @close _ fd hne =>
    obtain ⟨-, hpoint, done, rest, queue, hdrain, rfl⟩ := h
    have hqueued : fd ∈ t.pool.queue.contents := by simp [hdrain.split]
    obtain ⟨v, hv, -, halike⟩ := hout.event hj (not_closing_of_queued ho hqueued)
    exact ⟨v, _, hv, .close hne, halike⟩

/-- A worker that is not asleep is where it stands until it moves. -/
theorem Out.keeps_worker (h : Out th p p') (hth : th ≠ .worker k) (hw : p.workers[k]? = some w) (hwake : w ≠ .waiting) :
    p'.workers[k]? = some w := by
  obtain ⟨a, hs, hsection, -, rfl⟩ := h
  cases hs with
  | @spurious i _ hi =>
    have hne : i ≠ k := by
      rintro rfl
      exact hwake (Option.some.inj (hw.symm.trans hi))
    exact (List.getElem?_set_ne hne).trans hw
  | @close i =>
    have hne : i ≠ k := by
      rintro rfl
      exact hth rfl
    exact (List.getElem?_set_ne hne).trans hw
  | enqueue | raise | shutdownActiveFds | drainPendingFds | next | unregister => cases hsection
  | _ => exact hw

/-- Nobody returns from `main` while a worker is left. -/
theorem Out.keeps_alive (h : Out th p p') (hcomes : EventLoop.Comes num backlog notices acts p)
    (halive : p.point.stopped = false) (hw : w ∈ p.workers) (hleft : w ≠ .exited) : p'.point.stopped = false := by
  obtain ⟨a, hs, hsection, hne, -⟩ := h
  cases hs with
  | ret hpoint => exact absurd (hcomes.left (by rw [hpoint]; rfl) w hw) hleft
  | fail => exact absurd rfl hne
  | enqueue | raise | shutdownActiveFds | drainPendingFds | next | unregister => cases hsection
  | connect | interrupt | eintr | spurious | close => exact halive
  | _ => rfl

theorem Out.keeps_point (h : Out th p p') (hth : th ≠ .main) : p'.point = p.point := by
  obtain ⟨a, hs, hsection, hne, rfl⟩ := h
  cases hs with
  | connect | interrupt | spurious | close => rfl
  | next | unregister => cases hsection
  | _ => exact absurd rfl hth

theorem Out.keeps_pool (h : Out th p p') : p'.pool = p.pool := by
  obtain ⟨q, -, -, rfl⟩ := @Out.frame p p' th p.pool h
  rfl

/-- Who can begin a section can begin it after what another thread does. -/
theorem Enter.stable (h : Enter i p l) (hcomes : EventLoop.Comes num backlog notices acts p) (hout : Out j p p')
    (hne : j ≠ i) : Enter i p' l := by
  cases h with
  | next halive hw hretests =>
    have hmem := List.mem_of_getElem? hw
    refine .next (hout.keeps_alive hcomes halive hmem ?_) (hout.keeps_worker hne hw ?_) hretests
    all_goals
      rintro rfl
      cases hretests
  | unregister halive hw =>
    exact .unregister (hout.keeps_alive hcomes halive (List.mem_of_getElem? hw) nofun) (hout.keeps_worker hne hw nofun)
  | enqueue hpoint => exact .enqueue ((hout.keeps_point hne).trans hpoint)
  | raise hpoint => exact .raise ((hout.keeps_point hne).trans hpoint)
  | shutdown hpoint => exact .shutdown ((hout.keeps_point hne).trans hpoint)
  | drain hpoint => exact .drain ((hout.keeps_point hne).trans hpoint)

/-- In the section of a worker there are only steps on the pool. -/
theorem Reached.worker (h : Reached (.worker k) t l s) (hs : Inside (l, s) (l', s')) :
    ∃ pool, InPool (l, s.pool) (l', pool) ∧ s' = { s with pool } := by
  cases hs with
  | pool hs => exact ⟨_, hs, rfl⟩
  | signal | broadcast | shutdown | close => exact absurd h.1 nofun

theorem atomic (num backlog notices : Nat) :
    sections.Atomic Alike fun t => ∃ acts, EventLoop.Comes num backlog notices acts t ∧ .fail ∉ acts where
  equiv := alike_equivalence
  out := Out.alike
  enter := Enter.alike
  inside := Inside.alike
  leave := Leave.alike
  stable := fun ⟨_, hcomes, _⟩ henter hout hne => henter.stable hcomes hout hne
  commutes := by
    rintro i j l₀ l l' s₀ s s' u ⟨acts, hcomes, -⟩ henter hinside hs hout hne
    have ho := hcomes.reachable.owned
    have hreached := reached henter hinside ho
    cases i with
    | main => exact hreached.commutes ho hs hout hne
    | worker k =>
      obtain ⟨pool, hstep, rfl⟩ := hreached.worker hs
      obtain ⟨v, hv, hpool, rfl⟩ := Out.frame hout
      exact ⟨v, _, hv, .pool (hpool ▸ hstep), alike_equivalence.refl _⟩
    | outside => cases henter

/-! ## A section ends -/

/-- The steps from a place to the unlock, at most. -/
def Place.left (pool : Pool) : Place → Nat
  | loopTest => pool.activeFds.length + 4
  | exitTest => pool.activeFds.length + 3
  | dequeue => pool.activeFds.length + 2
  | scan _ _ idx | shutdown idx => pool.activeFds.length - idx + 1
  | enqueue _ | setFlag => 2
  | signal | broadcast => 1
  | drain => 2 * pool.queue.size + 1
  | pending _ => 2 * pool.queue.size + 2
  | asleep | exiting | scanned _ _ | signalled | flagged | shut | drained => 0

theorem Place.left_le (pool : Pool) (l : Place) : l.left pool ≤ pool.activeFds.length + 2 * pool.queue.size + 4 := by
  cases l <;> simp only [Place.left] <;> omega

theorem InPool.left_lt (hs : InPool (l, p.pool) (l', pool)) : l'.left pool < l.left p.pool := by
  have hslot {idx : Nat} {x : Int} (hx : p.pool.activeFds[idx]? = some x) : idx < p.pool.activeFds.length :=
    (List.getElem?_eq_some_iff.1 hx).1
  cases hs with
  | skip hx | vacant hx =>
    have := hslot hx
    simp only [Place.left]
    omega
  | pending hsize hdeq =>
    have := size_deQueue hdeq hsize
    simp only [Place.left]
    omega
  | _ => simp [Place.left]

theorem Inside.left_lt (hs : Inside (l, s) (l', s')) : l'.left s'.pool < l.left s.pool := by
  cases hs with
  | pool hs => exact hs.left_lt
  | @shutdown _ fd idx hx =>
    have : idx < s.pool.activeFds.length := (List.getElem?_eq_some_iff.1 hx).1
    simp only [Place.left]
    omega
  | _ => simp [Place.left]

/-- A queue that is not empty has a first. -/
theorem exists_deQueue {queue : Queue} {fds : List Int} (h : queue.Holds fds) (hsize : queue.size ≠ 0) :
    ∃ fd queue', queue.deQueue = some (fd, queue') := by
  rcases fds with _ | ⟨fd, rest⟩
  · exact absurd h.size hsize
  · obtain ⟨queue', hdeq, -⟩ := Queue.deQueue_holds h
    exact ⟨fd, queue', hdeq⟩

/-- Whoever is in a section can go on. -/
theorem Reached.goes_on (h : Reached th t l s) (ho : Owned t.system) :
    (∃ l' s', Inside (l, s) (l', s')) ∨ ∃ s', Leave th l s s' := by
  cases l with
  | loopTest =>
    by_cases hwait : s.pool.queue.size = 0 ∧ s.pool.exitFlag = false
    · exact .inl ⟨_, _, .pool (.sleeps hwait)⟩
    · exact .inl ⟨_, _, .pool (.wakes hwait)⟩
  | exitTest =>
    cases hexit : s.pool.exitFlag with
    | true => exact .inl ⟨_, _, .pool (.exits hexit)⟩
    | false => exact .inl ⟨_, _, .pool (.stays hexit)⟩
  | dequeue =>
    obtain ⟨-, rfl, hsize, -⟩ := h
    obtain ⟨fd, queue, hdeq⟩ := exists_deQueue ho.queue hsize
    exact .inl ⟨_, _, .pool (.dequeue hdeq)⟩
  | scan slot fd idx =>
    cases hx : s.pool.activeFds[idx]? with
    | none => exact .inl ⟨_, _, .pool (.ends hx)⟩
    | some x =>
      by_cases heq : x = slot.old fd
      · exact .inl ⟨_, _, .pool (.found (heq ▸ hx))⟩
      · exact .inl ⟨_, _, .pool (.skip hx heq)⟩
  | enqueue fd =>
    obtain ⟨-, -, rfl⟩ := h
    obtain ⟨cells, hlinks, -⟩ := Queue.holds_iff.1 ho.queue
    obtain ⟨node, hnode⟩ := hlinks.exists_fresh
    obtain ⟨queue, hqueue, -⟩ := Queue.enQueue_holds ho.queue hnode
    exact .inl ⟨_, _, .pool (.enqueue hnode hqueue)⟩
  | signal =>
    obtain ⟨ws, hsignal⟩ := exists_signal s.workers
    exact .inl ⟨_, _, .signal hsignal⟩
  | setFlag => exact .inl ⟨_, _, .pool .setFlag⟩
  | broadcast => exact .inl ⟨_, _, .broadcast⟩
  | shutdown idx =>
    cases hx : s.pool.activeFds[idx]? with
    | none => exact .inl ⟨_, _, .pool (.shut hx)⟩
    | some fd =>
      by_cases heq : fd = -1
      · exact .inl ⟨_, _, .pool (.vacant (heq ▸ hx))⟩
      · exact .inl ⟨_, _, .shutdown hx heq⟩
  | drain =>
    obtain ⟨-, -, done, rest, queue, hdrain, rfl⟩ := h
    by_cases hsize : queue.size = 0
    · exact .inl ⟨_, _, .pool (.drained hsize)⟩
    · obtain ⟨fd, queue', hdeq⟩ := exists_deQueue hdrain.holds hsize
      exact .inl ⟨_, _, .pool (.pending (Nat.pos_of_ne_zero hsize) hdeq)⟩
  | pending fd =>
    by_cases heq : fd = -1
    · subst heq
      exact .inl ⟨_, _, .pool .ignore⟩
    · exact .inl ⟨_, _, .close heq⟩
  -- the unlock
  | asleep | exiting =>
    obtain ⟨⟨i, w, rfl, -⟩, -⟩ := h
    exact .inr ⟨_, .worker rfl⟩
  | scanned slot fd =>
    cases slot with
    | fill =>
      obtain ⟨⟨i, w, rfl, -⟩, -⟩ := h
      exact .inr ⟨_, .worker rfl⟩
    | free =>
      obtain ⟨⟨i, rfl, -⟩, -⟩ := h
      exact .inr ⟨_, .worker rfl⟩
  | signalled =>
    obtain ⟨rfl, fd, rest, node, queue, ws, hpoint, -, -, -, rfl⟩ := h
    exact .inr ⟨_, .enqueue hpoint⟩
  | flagged =>
    obtain ⟨rfl, -⟩ := h
    exact .inr ⟨_, .raise⟩
  | shut =>
    obtain ⟨rfl, -⟩ := h
    exact .inr ⟨_, .shutdown⟩
  | drained =>
    obtain ⟨rfl, -⟩ := h
    exact .inr ⟨_, .drain⟩

/-- The slots are as many as the threads. -/
theorem Comes.length_activeFds {c : Process × Option (Thread × Place)} (h : Comes num backlog notices c) :
    c.1.pool.activeFds.length = num := by
  induction h with
  | refl => exact List.length_replicate ..
  | tail _ hs ih =>
    cases hs with
    | out hout => rw [← ih, hout.keeps_pool]
    | enter => exact ih
    | @inside i s s' l l' hs =>
      rw [← ih]
      cases hs with
      | pool hs =>
        cases hs with
        | found => exact List.length_set ..
        | _ => rfl
      | _ => rfl
    | leave hs =>
      rw [← ih]
      cases hs <;> rfl

/-! ## The main results -/

/-- A worker closes its connection in the middle of the loop that shuts down the other one. -/
theorem closing_run : ∃ t p : Process, Comes 2 2 0 (t, some (.main, .shutdown 0)) ∧
    sections.Held .main (.shutdown 0, t) 2 (.shutdown 2, p) ∧ t.log = [.accept 5, .take 5, .accept 6, .take 6] ∧
    p.log = t.log ++ [.shutdown 6, .close 5] := by
  have h₁ : EventLoop.Comes 2 2 0 _ _ :=
    .single (@Step.report _ [.listenFd] rfl (by decide) (by decide) fun src => by cases src <;> decide)
  have h₂ := h₁.snoc (@Step.accept _ 5 _ rfl (by decide) (by decide) rfl)
  have h₃ := h₂.snoc (@Step.enqueue _ _ 0 _ _ _ rfl rfl rfl (.idle (by decide)))
  have h₄ := h₃.snoc (@Step.next _ 0 _ _ _ rfl rfl rfl rfl)
  have h₅ := h₄.snoc (@Step.report _ [.listenFd] rfl (by decide) (by decide) fun src => by cases src <;> decide)
  have h₆ := h₅.snoc (@Step.accept _ 6 _ rfl (by decide) (by decide) rfl)
  have h₇ := h₆.snoc (@Step.enqueue _ _ 0 _ _ _ rfl rfl rfl (.idle (by decide)))
  have h₈ := (h₇.snoc (@Step.next _ 1 _ _ _ rfl rfl rfl rfl)).snoc (@Step.unregister _ 0 _ rfl rfl)
  have h₉ := (h₈.snoc (.interrupt rfl)).snoc
    (@Step.report _ [.pipeFd] rfl (by decide) (by decide) fun src => by cases src <;> decide)
  have h₁₀ := ((h₉.snoc (.read rfl (by decide))).snoc (.closeListenFd rfl)).snoc (.raise rfl)
  have hfine := (comes_of_acts h₁₀ (by decide)).tail (.enter (.shutdown rfl))
  have hheld {t : Process} (hfree : t.pool.activeFds[0]? = some (-1)) (hserved : t.pool.activeFds[1]? = some 6)
      (hw : t.workers[0]? = some (.closing 5)) (halive : t.point.stopped = false) :
      sections.Held .main (.shutdown 0, t) 2
        (.shutdown 2, { t with workers := t.workers.set 0 .testing, log := t.log ++ [.shutdown 6] ++ [.close 5] }) :=
    .out (.inside (.inside .refl (.pool (.vacant hfree))) (.shutdown hserved (by decide)))
      ⟨_, .close halive hw, rfl, nofun, rfl⟩ nofun
  exact ⟨_, _, hfine, hheld rfl rfl rfl rfl, rfl, rfl⟩

/-- **The sections are atomic**. What the threads come to in small steps, the loop comes to in those of `EventLoop`, up to
the order of events about different descriptors; where a thread is in a section, it began it in such a state, and what it
has done since is what it does alone. The other way round, nothing of the loop is lost but leaving by a failing
`epoll_wait`. -/
theorem sections_atomic :
    (∀ p lock, Comes num backlog notices (p, lock) →
      ∃ acts q, EventLoop.Comes num backlog notices acts q ∧ .fail ∉ acts ∧ (lock = none → Alike q p ∧ Owned p.system) ∧
        ∀ th l, lock = some (th, l) → ∃ l₀ s, Enter th q l₀ ∧ ReflTransGen Inside (l₀, q) (l, s) ∧ Alike s p) ∧
    ∀ p acts, EventLoop.Comes num backlog notices acts p → .fail ∉ acts → Comes num backlog notices (p, none) := by
  refine ⟨fun p lock h => ?_, fun p acts => comes_of_acts⟩
  obtain ⟨q, hq, hfree, hheld⟩ := (atomic num backlog notices).reduces (fun t => comes_of_coarse) h
  obtain ⟨acts, hcomes, hacts⟩ := comes_of_coarse hq
  exact ⟨acts, q, hcomes, hacts, fun hlock => ⟨hfree hlock, (hfree hlock).owned hcomes.reachable.owned⟩, hheld⟩

/-- The worker's `close` goes in front of the section: the log tells of it first. -/
theorem sections_atomic_close : ∃ (p : Process) (acts : List Act) (q : Process),
    p.log = [.accept 5, .take 5, .accept 6, .take 6, .shutdown 6, .close 5] ∧ EventLoop.Comes 2 2 0 acts q ∧
    ∃ l₀ s, Enter .main q l₀ ∧ ReflTransGen Inside (l₀, q) (.shutdown 2, s) ∧ Alike s p := by
  obtain ⟨t, p, ht, hheld, hbefore, hlog⟩ := closing_run
  obtain ⟨acts, q, hcomes, -, -, hsection⟩ := (@sections_atomic 2 2 0).1 p _ (ht.trans hheld.run)
  exact ⟨p, acts, q, by rw [hlog, hbefore]; rfl, hcomes, hsection _ _ rfl⟩

/-- **The lock comes free**: whoever holds it, and whatever the others do meanwhile, makes so many steps at most, and stands
nowhere without the next one or the unlock. -/
theorem lock_released {n : Nat} (h : Comes num backlog notices (p, some (th, l)))
    (hrun : sections.Held th (l, p) n (l', p')) :
    n ≤ num + 2 * p.pool.queue.size + 4 ∧ ((∃ c, Inside (l', p') c) ∨ ∃ q, Leave th l' p' q) := by
  have hlen : p.pool.activeFds.length = num := h.length_activeFds
  have hinside (c c' : Place × Process) (hs : Inside c c') : c'.1.left c'.2.pool < c.1.left c.2.pool := hs.left_lt
  have hout (j : Thread) (l : Place) (s s' : Process) (hs : Out j s s') : l.left s'.pool = l.left s.pool := by
    rw [hs.keeps_pool]
  have hbound := hrun.bounded (fun c : Place × Process => c.1.left c.2.pool) hinside hout
  have hleft := l.left_le p.pool
  refine ⟨by simp only at hbound; omega, ?_⟩
  obtain ⟨q, hq, -, hheld⟩ := (atomic num backlog notices).reduces (fun t => comes_of_coarse) (h.trans hrun.run)
  obtain ⟨acts, hcomes, -⟩ := comes_of_coarse hq
  obtain ⟨l₀, s, henter, hinside, halike⟩ := hheld th l' rfl
  have ho := hcomes.reachable.owned
  obtain ⟨l'', s', hs⟩ | ⟨s', hs⟩ := (reached henter hinside ho).goes_on ho
  · obtain ⟨q', hq', -⟩ := Inside.alike halike hs
    exact .inl ⟨_, hq'⟩
  · obtain ⟨q', hq', -⟩ := Leave.alike halike hs
    exact .inr ⟨_, hq'⟩

theorem lock_released_close : ∃ t p : Process, p.log = t.log ++ [.shutdown 6, .close 5] ∧
    2 ≤ 2 + 2 * t.pool.queue.size + 4 ∧ ((∃ c, Inside (.shutdown 2, p) c) ∨ ∃ q, Leave .main (.shutdown 2) p q) := by
  obtain ⟨t, p, ht, hheld, -, hlog⟩ := closing_run
  exact ⟨t, p, hlog, lock_released ht hheld⟩

end Sections
end WindCloud.EventLoop.Locking
