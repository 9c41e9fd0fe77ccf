import WindCloud.Pool
import WindCloud.Lib.Counting
/-!
# Who owns a connection

Between `accept` and `close` a connection is in one of three hands: the main thread's, before it
is enqueued, the queue's, or one worker's. `places` counts them, and `Owned` says that the count is
one for an open descriptor and zero for any other, and that the slots of `active_fds` count the
workers that serve. Every step keeps it (`Owned.step`).
-/

namespace WindCloud.ThreadPool

open Counting

/-- How often a descriptor is in the queue, with a worker and with the main thread. -/
def System.places (s : System) (fd : Int) : Nat :=
  s.pool.queue.contents.count fd + s.workers.countP (Worker.holds fd) + (s.main.holds fd).toNat

structure Owned (s : System) : Prop where
  queue : s.pool.queue.Holds s.pool.queue.contents
  places : ∀ fd, s.places fd = (isOpen s.log fd).toNat
  nonneg : ∀ fd, isOpen s.log fd = true → 0 ≤ fd
  slots : ∀ fd, fd ≠ -1 → s.pool.activeFds.count fd = s.workers.countP (Worker.serves fd)
  free : s.pool.activeFds.count (-1) + s.workers.countP Worker.isServing = s.workers.length
  sound : Sound s.log

section Steps

variable {s s' : System} {ws ws' : List Worker} {fd : Int} {i : Nat} {w w' : Worker}

/-! ## What the operations do -/

/-- One worker moves. -/
theorem countP_set (p : Worker → Bool) (hw : ws[i]? = some w) (w' : Worker) :
    (ws.set i w').countP p + (p w).toNat = ws.countP p + (p w').toNat := countP_set_add hw

/-- A wake-up moves nobody's connection. -/
theorem Signal.countP {p : Worker → Bool} (h : Signal ws ws') (hp : p .waiting = p .signalled) :
    ws'.countP p = ws.countP p := by
  cases h with
  | wake hi =>
    have := countP_set p hi .signalled
    rw [hp] at this
    exact Nat.add_right_cancel this
  | idle => rfl

theorem Signal.length (h : Signal ws ws') : ws'.length = ws.length := by
  cases h with
  | wake => simp
  | idle => rfl

theorem countP_broadcast {p : Worker → Bool} (hp : p .waiting = p .signalled) :
    (broadcast ws).countP p = ws.countP p := by
  rw [broadcast, List.countP_map]
  congr 1
  funext w
  by_cases hw : w = .waiting
  · simp [hw, hp]
  · simp [hw]

/-- The locked section of a worker: sleep, leave, or take the first connection. -/
theorem Pool.next_cases {pool pool' : Pool} {fds : List Int} (hq : pool.queue.Holds fds)
    (h : pool.next = some (pool', w')) :
    (fds = [] ∧ pool.exitFlag = false ∧ pool' = pool ∧ w' = .waiting) ∨
      (pool.exitFlag = true ∧ pool' = pool ∧ w' = .exited) ∨
      ∃ fd rest queue, fds = fd :: rest ∧ pool.exitFlag = false ∧ queue.Holds rest ∧ w' = .serving fd ∧
        pool' = { pool with queue, activeFds := pool.activeFds.replace (-1) fd } := by
  unfold Pool.next at h
  split at h
  · rename_i hwait
    obtain ⟨rfl, rfl⟩ := Prod.mk.inj (Option.some.inj h)
    exact .inl ⟨List.length_eq_zero_iff.1 (hq.size ▸ hwait.1), hwait.2, rfl, rfl⟩
  split at h
  · rename_i hexit
    obtain ⟨rfl, rfl⟩ := Prod.mk.inj (Option.some.inj h)
    exact .inr (.inl ⟨hexit, rfl, rfl⟩)
  · rename_i hwait hexit
    rw [Bool.not_eq_true] at hexit
    rcases fds with _ | ⟨fd, rest⟩
    · exact absurd ⟨hq.size, hexit⟩ hwait
    · obtain ⟨queue, hdeq, hrest⟩ := Queue.deQueue_holds hq
      rw [hdeq] at h
      obtain ⟨rfl, rfl⟩ := Prod.mk.inj (Option.some.inj h)
      exact .inr (.inr ⟨fd, rest, queue, rfl, hexit, hrest, rfl, rfl⟩)

theorem Pool.drainLoop_holds {queue : Queue} {fds : List Int} (hq : queue.Holds fds) (hfds : -1 ∉ fds) :
    ∃ queue', Pool.drainLoop queue.size queue = some (fds, queue') ∧ queue'.Holds [] := by
  rw [hq.size]
  induction fds generalizing queue with
  | nil => exact ⟨queue, rfl, hq⟩
  | cons fd fds ih =>
    rw [List.mem_cons, not_or] at hfds
    obtain ⟨queue₁, hdeq, hrest⟩ := Queue.deQueue_holds hq
    obtain ⟨queue₂, hloop, hempty⟩ := ih hrest hfds.2
    have hsize : queue.size > 0 := by simp [hq.size]
    refine ⟨queue₂, ?_, hempty⟩
    simp [Pool.drainLoop, hsize, hdeq, hloop, Ne.symm hfds.1]

theorem Pool.drainPendingFds_eq {pool pool' : Pool} {closed fds : List Int} (hq : pool.queue.Holds fds) (hfds : -1 ∉ fds)
    (h : pool.drainPendingFds = some (closed, pool')) :
    closed = fds ∧ ∃ queue, queue.Holds [] ∧ pool' = { pool with queue } := by
  obtain ⟨queue, hloop, hempty⟩ := Pool.drainLoop_holds hq hfds
  simp only [Pool.drainPendingFds, hloop, Option.bind_eq_bind, Option.bind_some, Option.some.injEq, Prod.mk.injEq] at h
  exact ⟨h.1.symm, queue, hempty, h.2.symm⟩

/-! ## What the invariant says -/

namespace Owned

theorem places_le (h : Owned s) (fd : Int) : s.places fd ≤ 1 := by
  rw [h.places]
  exact Bool.toNat_le _

/-- A descriptor in anybody's hands is open. -/
theorem isOpen_of_places (h : Owned s) (hfd : 0 < s.places fd) : isOpen s.log fd = true := by
  rw [h.places] at hfd
  rcases hopen : isOpen s.log fd with _ | _
  · rw [hopen] at hfd
    exact absurd hfd (Nat.lt_irrefl 0)
  · rfl

theorem isOpen_of_holds (h : Owned s) (hw : w ∈ s.workers) (hfd : w.holds fd = true) : isOpen s.log fd = true := by
  apply h.isOpen_of_places
  have := countP_pos hw hfd
  unfold System.places
  omega

theorem isOpen_of_queued (h : Owned s) (hfd : fd ∈ s.pool.queue.contents) : isOpen s.log fd = true := by
  apply h.isOpen_of_places
  have := List.count_pos_iff.2 hfd
  unfold System.places
  omega

theorem serving_nonneg (h : Owned s) (hw : .serving fd ∈ s.workers) : 0 ≤ fd :=
  h.nonneg _ (h.isOpen_of_holds hw (by simp))

/-- The slots in use are the descriptors being served. -/
theorem mem_activeFds (h : Owned s) (hfd : fd ≠ -1) : fd ∈ s.pool.activeFds ↔ .serving fd ∈ s.workers := by
  rw [← List.count_pos_iff, h.slots fd hfd, List.countP_pos_iff]
  simp only [Worker.serves_iff, exists_eq_right]

theorem count_activeFds_le (h : Owned s) (hfd : fd ≠ -1) : s.pool.activeFds.count fd ≤ 1 := by
  have hle : s.workers.countP (Worker.serves fd) ≤ s.workers.countP (Worker.holds fd) :=
    List.countP_mono_left fun w _ hw => by
      rw [Worker.serves_iff.1 hw]
      simp
  have := h.places_le fd
  unfold System.places at this
  rw [h.slots fd hfd]
  omega

theorem queue_neg (h : Owned s) : -1 ∉ s.pool.queue.contents := fun hmem => by
  have := h.nonneg _ (h.isOpen_of_queued hmem)
  omega

/-- A worker that is not serving leaves a slot free. -/
theorem exists_free (h : Owned s) (hw : w ∈ s.workers) (hserving : w.isServing = false) :
    -1 ∈ s.pool.activeFds := by
  have hlt : s.workers.countP Worker.isServing < s.workers.length := by
    refine Nat.lt_of_le_of_ne List.countP_le_length ?_
    intro heq
    rw [List.countP_eq_length.1 heq w hw] at hserving
    cases hserving
  have := h.free
  exact List.count_pos_iff.1 (by omega)

end Owned

/-! ## Every step keeps it -/

theorem Owned.init (num : Nat) : Owned (.init num) where
  queue := Queue.empty_holds
  places fd := by
    have hw : (List.replicate num Worker.testing).countP (Worker.holds fd) = 0 :=
      countP_eq_zero fun w hw => by rw [List.eq_of_mem_replicate hw]; rfl
    simp [System.places, System.init, Pool.init, Queue.empty_holds.contents, hw, Main.holds, isOpen]
  nonneg fd h := by simp [System.init, isOpen] at h
  slots fd hfd := by
    have hw : (List.replicate num Worker.testing).countP (Worker.serves fd) = 0 :=
      countP_eq_zero fun w hw => by rw [List.eq_of_mem_replicate hw]; rfl
    simp [System.init, Pool.init, hw, List.count_replicate, Ne.symm hfd]
  free := by
    have hw : (List.replicate num Worker.testing).countP Worker.isServing = 0 :=
      countP_eq_zero fun w hw => by rw [List.eq_of_mem_replicate hw]; rfl
    simp [System.init, Pool.init, hw]
  sound := .nil

theorem Owned.step (h : Owned s) (hs : Step s s') : Owned s' := by
  have hplaces := h.places
  simp only [System.places] at hplaces
  cases hs with
  | @accept fd hmain hfd hfree =>
    refine ⟨h.queue, fun f => ?_, fun f hf => ?_, h.slots, h.free, h.sound.snoc hfree⟩
    · have := hplaces f
      rw [hmain] at this
      by_cases hf : fd = f
      · subst hf
        simpa [System.places, isOpen_snoc, Event.opens, Main.holds, hfree] using this
      · have hbeq : (fd == f) = false := beq_eq_false_iff_ne.2 hf
        simpa [System.places, isOpen_snoc, Event.opens, Main.holds, hf, hbeq] using this
    · by_cases hff : fd = f
      · exact hff ▸ hfd
      · exact h.nonneg f (by simpa [isOpen_snoc, Event.opens, hff] using hf)
  | @enqueue fd node queue ws hmain hnode hqueue hsignal =>
    obtain ⟨queue', heq, hholds⟩ := @Queue.enQueue_holds _ _ fd _ h.queue hnode
    obtain rfl : queue' = queue := Option.some.inj (heq.symm.trans hqueue)
    have hcount (p : Worker → Bool) (hp : p .waiting = p .signalled) := hsignal.countP hp
    refine ⟨hholds.contents.symm ▸ hholds, fun f => ?_, h.nonneg, fun f hf => ?_, ?_, h.sound⟩
    · have := hplaces f
      rw [hmain] at this
      simp only [System.places, hholds.contents, List.count_append, count_cons_toNat, List.count_nil, hcount (Worker.holds f) rfl,
        Main.holds, Bool.toNat_false] at this ⊢
      omega
    · rw [hcount _ rfl]
      exact h.slots f hf
    · rw [hcount _ rfl, hsignal.length]
      exact h.free
  | stop hmain =>
    refine ⟨h.queue, fun f => ?_, h.nonneg, h.slots, h.free, h.sound⟩
    have := hplaces f
    rw [hmain] at this
    exact this
  | raise hmain =>
    refine ⟨h.queue, fun f => ?_, h.nonneg, fun f hf => ?_, ?_, h.sound⟩
    · have := hplaces f
      rw [hmain] at this
      simpa only [System.places, countP_broadcast (p := Worker.holds f) rfl, Main.holds] using this
    · rw [countP_broadcast rfl]
      exact h.slots f hf
    · rw [countP_broadcast rfl]
      simpa [broadcast] using h.free
  | shutdownActive hmain =>
    refine ⟨h.queue, fun f => ?_, fun f hf => h.nonneg f (isOpen_shutdowns ▸ hf), h.slots, h.free, h.sound.shutdowns ?_⟩
    · have := hplaces f
      rw [hmain] at this
      rw [isOpen_shutdowns]
      exact this
    · intro f hf
      obtain ⟨hmem, hne⟩ := List.mem_filter.1 hf
      have hw := (h.mem_activeFds (by simpa using hne)).1 hmem
      exact h.isOpen_of_holds hw (by simp)
  | @drain fds pool hmain hdrain =>
    obtain ⟨rfl, queue, hempty, rfl⟩ := Pool.drainPendingFds_eq h.queue h.queue_neg hdrain
    have hle (f : Int) : s.pool.queue.contents.count f ≤ 1 := by
      have := h.places_le f
      unfold System.places at this
      omega
    refine ⟨hempty.contents.symm ▸ hempty, fun f => ?_, fun f hf => ?_, h.slots, h.free,
      h.sound.closes (List.nodup_iff_count_le_one.2 hle) fun f hf => h.isOpen_of_queued hf⟩
    · have := hplaces f
      rw [hmain] at this
      simp only [System.places, hempty.contents, isOpen_closes, Main.holds] at this ⊢
      by_cases hf : f ∈ s.pool.queue.contents
      · have hpos := List.count_pos_iff.2 hf
        rw [h.isOpen_of_queued hf, Bool.toNat_true] at this
        simp only [hf, not_true, decide_false, Bool.and_false, Bool.toNat_false, List.count_nil]
        omega
      · have hzero := List.count_eq_zero.2 hf
        simpa [hf, hzero] using this
    · rw [isOpen_closes, Bool.and_eq_true] at hf
      exact h.nonneg f hf.1
  | @join i hmain hw =>
    refine ⟨h.queue, fun f => ?_, h.nonneg, h.slots, h.free, h.sound⟩
    have := hplaces f
    rw [hmain] at this
    exact this
  | @spurious i hw =>
    have hcount (p : Worker → Bool) (hp : p .waiting = p .signalled) :
        (s.workers.set i .signalled).countP p = s.workers.countP p :=
      Signal.countP (.wake hw) hp
    refine ⟨h.queue, fun f => ?_, h.nonneg, fun f hf => ?_, ?_, h.sound⟩
    · simpa only [System.places, hcount (Worker.holds f) rfl] using hplaces f
    · rw [hcount _ rfl]
      exact h.slots f hf
    · rw [hcount _ rfl, List.length_set]
      exact h.free
  | @next i w w' pool hw hretests hnext =>
    have hfreeW := Worker.retests_free hretests
    -- sleeping and leaving move no connection
    have hidle (hpool : pool = s.pool) (hw' : w' = .waiting ∨ w' = .exited) :
        Owned { s with pool, workers := s.workers.set i w', log := s.log ++ w'.taken } := by
      have hlog : s.log ++ w'.taken = s.log := by rcases hw' with rfl | rfl <;> simp [Worker.taken]
      have hcount (p : Worker → Bool) (hp : p w = false) (hp' : p w' = false) :
          (s.workers.set i w').countP p = s.workers.countP p := by
        have := countP_set p hw w'
        rw [hp, hp'] at this
        simpa using this
      rw [hpool, hlog]
      refine ⟨h.queue, fun f => ?_, h.nonneg, fun f hf => ?_, ?_, h.sound⟩
      · have hp' : w'.holds f = false := by rcases hw' with rfl | rfl <;> rfl
        simpa only [System.places, hcount (Worker.holds f) (hfreeW f).1 hp'] using hplaces f
      · have hp' : w'.serves f = false := by rcases hw' with rfl | rfl <;> rfl
        rw [hcount (Worker.serves f) (hfreeW f).2.1 hp']
        exact h.slots f hf
      · have hp' : w'.isServing = false := by rcases hw' with rfl | rfl <;> rfl
        rw [hcount _ (hfreeW 0).2.2 hp', List.length_set]
        exact h.free
    rcases Pool.next_cases h.queue hnext with ⟨-, -, hpool, hw'⟩ | ⟨-, hpool, hw'⟩ | ⟨fd, rest, queue, hq, -, hrest, rfl, rfl⟩
    · exact hidle hpool (.inl hw')
    · exact hidle hpool (.inr hw')
    · have hmem : fd ∈ s.pool.queue.contents := by simp [hq]
      have hfd : fd ≠ -1 := by
        rintro rfl
        exact h.queue_neg hmem
      have hfree := h.exists_free (List.mem_of_getElem? hw) (hfreeW fd).2.2
      have hopen (f : Int) : isOpen (s.log ++ [.take fd]) f = isOpen s.log f := isOpen_snoc
      refine ⟨hrest.contents.symm ▸ hrest, fun f => ?_, fun f hf => h.nonneg f (hopen f ▸ hf), fun f hf => ?_, ?_,
        h.sound.snoc trivial⟩
      · have hset := countP_set (Worker.holds f) hw (.serving fd)
        have := hplaces f
        simp only [System.places, hrest.contents, Worker.taken, hopen, hq, count_cons_toNat, (hfreeW f).1, Worker.holds_serving,
          Bool.toNat_false] at this hset ⊢
        omega
      · have hset := countP_set (Worker.serves f) hw (.serving fd)
        have hrep := count_replace_add (b := fd) (v := f) hfree
        have hslots := h.slots f hf
        simp only [(hfreeW f).2.1, Worker.serves_serving, beq_eq_false_iff_ne.2 (Ne.symm hf), Bool.toNat_false] at hset hrep ⊢
        omega
      · have hset := countP_set Worker.isServing hw (.serving fd)
        have hrep := count_replace_add (b := fd) (v := -1) hfree
        have := h.free
        have hserves : (Worker.serving fd).isServing = true := rfl
        simp only [(hfreeW fd).2.2, hserves, beq_eq_false_iff_ne.2 hfd, beq_self_eq_true, Bool.toNat_false, Bool.toNat_true,
          List.length_set] at hset hrep ⊢
        omega
  | @unregister i fd hw =>
    have hserve : Worker.serving fd ∈ s.workers := List.mem_of_getElem? hw
    have hfd : fd ≠ -1 := by
      have := h.serving_nonneg hserve
      omega
    have hmem := (h.mem_activeFds hfd).2 hserve
    refine ⟨h.queue, fun f => ?_, h.nonneg, fun f hf => ?_, ?_, h.sound⟩
    · have hset := countP_set (Worker.holds f) hw (.closing fd)
      have := hplaces f
      simp only [System.places, Pool.unregisterActiveFd, Worker.holds_serving, Worker.holds_closing] at this hset ⊢
      omega
    · have hset := countP_set (Worker.serves f) hw (.closing fd)
      have hrep := count_replace_add (b := -1) (v := f) hmem
      have hslots := h.slots f hf
      have hgone : (Worker.closing fd).serves f = false := rfl
      simp only [Pool.unregisterActiveFd, Worker.serves_serving, hgone, beq_eq_false_iff_ne.2 (Ne.symm hf), Bool.toNat_false]
        at hset hrep ⊢
      omega
    · have hset := countP_set Worker.isServing hw (.closing fd)
      have hrep := count_replace_add (b := -1) (v := -1) hmem
      have := h.free
      simp only [Pool.unregisterActiveFd, Worker.isServing, beq_eq_false_iff_ne.2 hfd, beq_self_eq_true, Bool.toNat_false,
        Bool.toNat_true, List.length_set] at hset hrep ⊢
      omega
  | @close i fd hw =>
    have hopen : isOpen s.log fd = true := h.isOpen_of_holds (List.mem_of_getElem? hw) (by simp)
    have hcount (p : Worker → Bool) (hp : p (.closing fd) = false) (hp' : p .testing = false) :
        (s.workers.set i .testing).countP p = s.workers.countP p := by
      have := countP_set p hw .testing
      rw [hp, hp'] at this
      simpa using this
    refine ⟨h.queue, fun f => ?_, fun f hf => ?_, fun f hf => ?_, ?_, h.sound.snoc hopen⟩
    · have hset := countP_set (Worker.holds f) hw .testing
      have := hplaces f
      by_cases hf : fd = f
      · subst hf
        have hgone : Worker.testing.holds fd = false := rfl
        simp only [System.places, isOpen_snoc, Event.opens, hopen, Worker.holds_closing, hgone, beq_self_eq_true, if_true,
          Bool.toNat_false, Bool.toNat_true] at this hset ⊢
        omega
      · have hgone : Worker.testing.holds f = false := rfl
        simp only [System.places, isOpen_snoc, Event.opens, Worker.holds_closing, hgone, beq_eq_false_iff_ne.2 hf, if_neg hf,
          Bool.toNat_false] at this hset ⊢
        omega
    · by_cases hff : fd = f
      · simp [isOpen_snoc, Event.opens, hff] at hf
      · exact h.nonneg f (by simpa [isOpen_snoc, Event.opens, hff] using hf)
    · rw [hcount _ rfl rfl]
      exact h.slots f hf
    · rw [hcount _ rfl rfl, List.length_set]
      exact h.free

theorem Reachable.owned {num : Nat} (h : Reachable num s) : Owned s :=
  h.invariant (.init num) fun _ _ _ ih hs => ih.step hs

theorem Step.length_workers (hs : Step s s') : s'.workers.length = s.workers.length := by
  cases hs with
  | enqueue _ _ _ hsignal => exact hsignal.length
  | raise => exact List.length_map ..
  | spurious => exact List.length_set ..
  | next => exact List.length_set ..
  | unregister => exact List.length_set ..
  | close => exact List.length_set ..
  | _ => rfl

theorem Reachable.length_workers {num : Nat} (h : Reachable num s) : s.workers.length = num :=
  h.invariant List.length_replicate fun _ _ _ ih hs => hs.length_workers.trans ih

/-! ## The order of connections -/

/-- Connections are taken from the front of what was accepted; what is behind them is in the queue
or in the main thread's hands, unless the exit has begun. -/
structure Ordered (s : System) : Prop where
  flag : s.pool.exitFlag = s.main.exiting
  order : ∃ dropped, accepts s.log = takes s.log ++ dropped ++ s.pool.queue.contents ++ s.main.hand ∧
    (s.main.exiting = false → dropped = [])

theorem Ordered.init (num : Nat) : Ordered (.init num) where
  flag := rfl
  order := ⟨[], by simp [System.init, Pool.init, Queue.empty_holds.contents, accepts, takes, Main.hand], fun _ => rfl⟩

theorem Ordered.step (h : Ordered s) (ho : Owned s) (hs : Step s s') : Ordered s' := by
  obtain ⟨dropped, horder, hdropped⟩ := h.order
  have hflag := h.flag
  cases hs with
  | @accept fd hmain hfd hfree =>
    rw [hmain] at horder hdropped hflag
    refine ⟨hflag, dropped, ?_, hdropped⟩
    simp only [accepts_append, takes_append, horder, Main.hand]
    simp [accepts, takes]
  | @enqueue fd node queue ws hmain hnode hqueue hsignal =>
    obtain ⟨queue', heq, hholds⟩ := @Queue.enQueue_holds _ _ fd _ ho.queue hnode
    obtain rfl : queue' = queue := Option.some.inj (heq.symm.trans hqueue)
    rw [hmain] at horder hdropped hflag
    exact ⟨hflag, dropped, by simpa [hholds.contents, Main.hand] using horder, hdropped⟩
  | stop hmain =>
    rw [hmain] at horder hdropped hflag
    exact ⟨hflag, dropped, horder, hdropped⟩
  | raise hmain =>
    rw [hmain] at horder
    exact ⟨rfl, dropped, horder, fun hf => by cases hf⟩
  | shutdownActive hmain =>
    rw [hmain] at horder hdropped hflag
    exact ⟨hflag, dropped, by simpa [accepts_append, takes_append, Main.hand] using horder, hdropped⟩
  | @drain fds pool hmain hdrain =>
    -- what is closed here is passed over
    obtain ⟨rfl, queue, hempty, rfl⟩ := Pool.drainPendingFds_eq ho.queue ho.queue_neg hdrain
    rw [hmain] at horder hflag
    refine ⟨hflag, dropped ++ s.pool.queue.contents, ?_, fun hf => by cases hf⟩
    simpa [accepts_append, takes_append, hempty.contents, Main.hand] using horder
  | @join i hmain hw =>
    rw [hmain] at horder hdropped hflag
    exact ⟨hflag, dropped, horder, hdropped⟩
  | spurious hw => exact ⟨hflag, dropped, horder, hdropped⟩
  | @next i w w' pool hw hretests hnext =>
    have hidle (hpool : pool = s.pool) (hw' : w' = .waiting ∨ w' = .exited) :
        Ordered { s with pool, workers := s.workers.set i w', log := s.log ++ w'.taken } := by
      have hlog : s.log ++ w'.taken = s.log := by rcases hw' with rfl | rfl <;> simp [Worker.taken]
      rw [hpool, hlog]
      exact ⟨hflag, dropped, horder, hdropped⟩
    rcases Pool.next_cases ho.queue hnext with ⟨-, -, hpool, hw'⟩ | ⟨-, hpool, hw'⟩ | ⟨fd, rest, queue, hq, hf, hrest, rfl, rfl⟩
    · exact hidle hpool (.inl hw')
    · exact hidle hpool (.inr hw')
    · refine ⟨hflag, [], ?_, fun _ => rfl⟩
      rw [hdropped (hflag ▸ hf), hq] at horder
      simp only [accepts_append, takes_append, accepts_taken, hrest.contents, horder]
      simp [takes, Worker.taken]
  | unregister hw => exact ⟨hflag, dropped, horder, hdropped⟩
  | close hw =>
    refine ⟨hflag, dropped, ?_, hdropped⟩
    simp only [accepts_append, takes_append, horder]
    simp [accepts, takes]

theorem Reachable.ordered {num : Nat} (h : Reachable num s) : Ordered s :=
  h.invariant (.init num) fun _ _ hr ih hs => ih.step hr.owned hs

/-- **Ownership**: where a connection is, which slots are in use, and what is closed when. -/
theorem connection_owned {num : Nat} (h : Reachable num s) :
    (∀ fd, isOpen s.log fd = true →
      (s.pool.queue.contents.count fd = 1 ∧ s.workers.countP (Worker.holds fd) = 0 ∧ s.main ≠ .accepted fd) ∨
      (s.pool.queue.contents.count fd = 0 ∧ s.workers.countP (Worker.holds fd) = 1 ∧ s.main ≠ .accepted fd) ∨
      (s.pool.queue.contents.count fd = 0 ∧ s.workers.countP (Worker.holds fd) = 0 ∧ s.main = .accepted fd)) ∧
    (∀ w pool fd, w ∈ s.workers → w.retests = true → s.pool.next = some (pool, .serving fd) →
      -1 ∈ s.pool.activeFds) ∧
    (s.pool.activeFds.filter (· ≠ -1)).Nodup ∧
    (∀ fd, fd ≠ -1 → (fd ∈ s.pool.activeFds ↔ .serving fd ∈ s.workers)) ∧ .serving (-1) ∉ s.workers ∧
    (∀ pre fd post, s.log = pre ++ .close fd :: post → isOpen pre fd = true) ∧
    takes s.log <+: accepts s.log := by
  have ho := h.owned
  refine ⟨fun fd hopen => ?_, fun w pool fd hw hretests _ => ?_, ?_, fun fd => ho.mem_activeFds, fun hmem => ?_,
    fun pre fd post hlog => ho.sound pre _ post hlog, ?_⟩
  · have hplaces := ho.places fd
    rw [hopen, Bool.toNat_true] at hplaces
    unfold System.places at hplaces
    by_cases hmain : s.main = .accepted fd
    · simp only [hmain, Main.holds, beq_self_eq_true, Bool.toNat_true] at hplaces
      exact .inr (.inr ⟨by omega, by omega, hmain⟩)
    · rcases Nat.eq_zero_or_pos (s.pool.queue.contents.count fd) with hq | hq
      · have hnot : s.main.holds fd = false := by
          rcases hm : s.main with _ | f | _ | _ | _ | _ <;> try rfl
          exact beq_eq_false_iff_ne.2 fun hf => hmain (hf ▸ hm)
        rw [hnot, Bool.toNat_false] at hplaces
        exact .inr (.inl ⟨hq, by omega, hmain⟩)
      · exact .inl ⟨by omega, by omega, hmain⟩
  · exact ho.exists_free hw (Worker.retests_free hretests fd).2.2
  · refine List.nodup_iff_count_le_one.2 ?_
    intro fd
    by_cases hfd : fd = -1
    · rw [List.count_eq_zero.2 (by simp [hfd])]
      simp
    · exact Nat.le_trans (List.filter_sublist.count_le fd) (ho.count_activeFds_le hfd)
  · have := ho.serving_nonneg hmem
    omega
  · obtain ⟨dropped, horder, -⟩ := h.ordered.order
    rw [horder, List.append_assoc, List.append_assoc]
    exact List.prefix_append ..

/-- A connection in service. -/
theorem connection_owned_serving : ∃ s : System, s.workers = [.serving 5] ∧ s.pool.activeFds = [5] ∧
    s.workers.countP (Worker.holds 5) = 1 ∧ takes s.log <+: accepts s.log := by
  have h₁ : Reachable 1 _ := .single (@Step.accept _ 5 rfl (by decide) rfl)
  have h₂ : Reachable 1 _ := h₁.tail (@Step.enqueue _ _ 0 _ _ rfl rfl rfl (.idle (by decide)))
  have h₃ : Reachable 1 _ := h₂.tail (@Step.next _ 0 _ _ _ rfl rfl rfl)
  obtain ⟨hplace, -, -, -, -, -, horder⟩ := connection_owned h₃
  rcases hplace 5 rfl with ⟨hq, -⟩ | ⟨-, hw, -⟩ | ⟨-, hw, -⟩
  · exact absurd hq (by decide)
  · exact ⟨_, rfl, rfl, hw, horder⟩
  · exact absurd hw (by decide)

/-- A connection just accepted: neither queued nor with a worker. -/
theorem accepted_unowned : ∃ s fd, Reachable 1 s ∧ isOpen s.log fd = true ∧ fd ∉ s.pool.queue.contents ∧
    ∀ w ∈ s.workers, w.holds fd = false := by
  refine ⟨_, 5, .single (@Step.accept _ 5 rfl (by decide) rfl), rfl, ?_, ?_⟩
  · rw [show (System.init 1).pool.queue.contents = [] from rfl]
    exact List.not_mem_nil
  · intro w hw
    rw [List.eq_of_mem_replicate (n := 1) hw]
    rfl

end Steps
end WindCloud.ThreadPool
