import WindCloud.PoolOwnership
/-!
# Shutting the pool down

The flag, the scan of `active_fds` and the drain are three sections, and workers step in between.
`Phased` says what holds in which phase: a worker leaves only once the flag is set, none sleeps
from then on, and the queue stays empty once it is drained. A taken connection is unregistered and
closed by its own worker, a queued one by the drain, so at the end all are closed.
-/

namespace WindCloud.ThreadPool

section Steps

variable {s s' : System} {num : Nat}

structure Phased (s : System) : Prop where
  left : .exited ∈ s.workers → s.pool.exitFlag = true
  awake : s.pool.exitFlag = true → .waiting ∉ s.workers
  drained : ∀ i, s.main = .joining i → s.pool.queue.contents = [] ∧ ∀ j < i, s.workers[j]? = some .exited

theorem Phased.init (num : Nat) : Phased (.init num) where
  left h := by cases List.eq_of_mem_replicate h
  awake h := by cases h
  drained i h := by cases h

theorem mem_broadcast {ws : List Worker} {w : Worker} (h : w ∈ broadcast ws) :
    w ≠ .waiting ∧ (w = .signalled ∨ w ∈ ws) := by
  obtain ⟨v, hv, rfl⟩ := List.mem_map.1 h
  by_cases hw : v = .waiting
  · simp [hw]
  · simp [hw, hv]

/-- A worker that moved on was not at its end. -/
theorem getElem?_set_exited {ws : List Worker} {i j : Nat} {w w' : Worker} (hw : ws[i]? = some w) (hne : w ≠ .exited)
    (hj : ws[j]? = some .exited) : (ws.set i w')[j]? = some .exited := by
  by_cases hij : i = j
  · subst hij
    exact absurd (Option.some.inj (hw.symm.trans hj)) hne
  · rw [List.getElem?_set_ne hij, hj]

theorem Phased.step (h : Phased s) (ho : Owned s) (hord : Ordered s) (hs : Step s s') : Phased s' := by
  have hdrained := h.drained
  cases hs with
  | accept hmain hfd hfree => exact ⟨h.left, h.awake, fun i hi => by cases hi⟩
  | @enqueue fd node queue ws hmain hnode hqueue hsignal =>
    have hflag : s.pool.exitFlag = false := by rw [hord.flag, hmain]; rfl
    refine ⟨fun hmem => h.left ?_, fun hexit => ?_, fun i hi => by cases hi⟩
    · cases hsignal with
      | wake => exact (List.mem_or_eq_of_mem_set hmem).resolve_right (by simp)
      | idle => exact hmem
    · cases hflag.symm.trans hexit
  | stop hmain => exact ⟨h.left, h.awake, fun i hi => by cases hi⟩
  | raise hmain =>
    exact ⟨fun _ => rfl, fun _ hmem => (mem_broadcast hmem).1 rfl, fun i hi => by cases hi⟩
  | shutdownActive hmain => exact ⟨h.left, h.awake, fun i hi => by cases hi⟩
  | @drain fds pool hmain hdrain =>
    obtain ⟨-, queue, hempty, rfl⟩ := Pool.drainPendingFds_eq ho.queue ho.queue_neg hdrain
    refine ⟨h.left, h.awake, fun i hi => ⟨hempty.contents, fun j hj => ?_⟩⟩
    obtain rfl : 0 = i := Main.joining.inj hi
    omega
  | @join i hmain hw =>
    refine ⟨h.left, h.awake, fun i' hi => ⟨(hdrained i hmain).1, fun j hj => ?_⟩⟩
    obtain rfl : i + 1 = i' := Main.joining.inj hi
    rcases Nat.lt_succ_iff_lt_or_eq.1 hj with hlt | rfl
    · exact (hdrained i hmain).2 j hlt
    · exact hw
  | @spurious i hw =>
    have hwait := List.mem_of_getElem? hw
    refine ⟨fun hmem => h.left ((List.mem_or_eq_of_mem_set hmem).resolve_right (by simp)), fun hexit => ?_, fun k hk => ?_⟩
    · exact absurd hwait (h.awake hexit)
    · exact ⟨(hdrained k hk).1, fun j hj => getElem?_set_exited hw (by simp) ((hdrained k hk).2 j hj)⟩
  | @next i w w' pool hw hretests hnext =>
    have hne : w ≠ .exited := by rintro rfl; cases hretests
    have hjoined (k : Nat) (hk : s.main = .joining k) (j : Nat) (hj : j < k) : (s.workers.set i w')[j]? = some .exited :=
      getElem?_set_exited hw hne ((hdrained k hk).2 j hj)
    rcases Pool.next_cases ho.queue hnext with ⟨-, hf, rfl, rfl⟩ | ⟨hf, rfl, rfl⟩ | ⟨fd, rest, queue, -, hf, -, rfl, rfl⟩
    · refine ⟨fun hmem => h.left ((List.mem_or_eq_of_mem_set hmem).resolve_right (by simp)), fun hexit => ?_,
        fun k hk => ⟨(hdrained k hk).1, hjoined k hk⟩⟩
      cases hf.symm.trans hexit
    · refine ⟨fun _ => hf, fun hexit hmem => ?_, fun k hk => ⟨(hdrained k hk).1, hjoined k hk⟩⟩
      exact h.awake hexit ((List.mem_or_eq_of_mem_set hmem).resolve_right (by simp))
    · refine ⟨fun hmem => h.left ((List.mem_or_eq_of_mem_set hmem).resolve_right (by simp)), fun hexit => ?_, fun k hk => ?_⟩
      · cases hf.symm.trans hexit
      · rw [hord.flag, show s.main = .joining k from hk] at hf
        cases hf
  | @unregister i fd hw =>
    refine ⟨fun hmem => h.left ((List.mem_or_eq_of_mem_set hmem).resolve_right (by simp)), fun hexit hmem => ?_,
      fun k hk => ?_⟩
    · exact h.awake hexit ((List.mem_or_eq_of_mem_set hmem).resolve_right (by simp))
    · exact ⟨(hdrained k hk).1, fun j hj => getElem?_set_exited hw (by simp) ((hdrained k hk).2 j hj)⟩
  | @close i fd hw =>
    refine ⟨fun hmem => h.left ((List.mem_or_eq_of_mem_set hmem).resolve_right (by simp)), fun hexit hmem => ?_,
      fun k hk => ?_⟩
    · exact h.awake hexit ((List.mem_or_eq_of_mem_set hmem).resolve_right (by simp))
    · exact ⟨(hdrained k hk).1, fun j hj => getElem?_set_exited hw (by simp) ((hdrained k hk).2 j hj)⟩

theorem Reachable.phased (h : Reachable num s) : Phased s :=
  h.invariant (.init num) fun _ _ hr ih hs => ih.step hr.owned hr.ordered hs

/-! ## After the flag -/

/-- A step after the flag takes nothing, and registers nobody. -/
theorem Step.exiting (ho : Owned s) (hord : Ordered s) (hs : Step s s') (hexit : s.pool.exitFlag = true) :
    s'.pool.exitFlag = true ∧ takes s'.log = takes s.log ∧ ∀ fd, .serving fd ∈ s'.workers → .serving fd ∈ s.workers := by
  have hmoved {i : Nat} {w' : Worker} {fd : Int} (hw' : ∀ fd, w' ≠ .serving fd)
      (hmem : .serving fd ∈ s.workers.set i w') : .serving fd ∈ s.workers :=
    (List.mem_or_eq_of_mem_set hmem).resolve_right (hw' fd).symm
  cases hs with
  | accept hmain hfd hfree =>
    rw [hord.flag, hmain] at hexit
    cases hexit
  | enqueue hmain hnode hqueue hsignal =>
    rw [hord.flag, hmain] at hexit
    cases hexit
  | stop hmain => exact ⟨hexit, rfl, fun _ h => h⟩
  | raise hmain =>
    refine ⟨rfl, rfl, fun fd hmem => ?_⟩
    exact ((mem_broadcast hmem).2).resolve_left (by simp)
  | shutdownActive hmain => exact ⟨hexit, by simp [takes_append], fun _ h => h⟩
  | @drain fds pool hmain hdrain =>
    obtain ⟨-, queue, -, rfl⟩ := Pool.drainPendingFds_eq ho.queue ho.queue_neg hdrain
    exact ⟨hexit, by simp [takes_append], fun _ h => h⟩
  | join hmain hw => exact ⟨hexit, rfl, fun _ h => h⟩
  | spurious hw => exact ⟨hexit, rfl, fun fd hmem => hmoved (by simp) hmem⟩
  | next hw hretests hnext =>
    rcases Pool.next_cases ho.queue hnext with ⟨-, hf, -⟩ | ⟨-, rfl, rfl⟩ | ⟨_, _, _, -, hf, -⟩
    · cases hf.symm.trans hexit
    · exact ⟨hexit, by simp [Worker.taken], fun fd hmem => hmoved (by simp) hmem⟩
    · cases hf.symm.trans hexit
  | unregister hw => exact ⟨hexit, rfl, fun fd hmem => hmoved (by simp) hmem⟩
  | close hw =>
    refine ⟨hexit, ?_, fun fd hmem => hmoved (by simp) hmem⟩
    rw [takes_append]
    exact List.append_nil _

theorem Steps.exiting (h : Reachable num s) (hs : Steps s s') (hexit : s.pool.exitFlag = true) :
    s'.pool.exitFlag = true ∧ takes s'.log = takes s.log ∧ ∀ fd, .serving fd ∈ s'.workers → .serving fd ∈ s.workers := by
  induction hs with
  | refl => exact ⟨hexit, rfl, fun _ h => h⟩
  | @tail b c hr hs ih =>
    have hb : Reachable num b := h.trans hr
    obtain ⟨hf, ht, hw⟩ := ih
    obtain ⟨hf', ht', hw'⟩ := Step.exiting hb.owned hb.ordered hs hf
    exact ⟨hf', ht'.trans ht, fun fd hmem => hw fd (hw' fd hmem)⟩

/-- The scan of `active_fds` is the one step to `shut`. -/
theorem Step.shuts (hs : Step s s') (hmain : s.main = .flagged) (hmain' : s'.main = .shut) :
    s'.log = s.log ++ s.pool.shutdownActiveFds.map .shutdown := by
  cases hs with
  | shutdownActive => rfl
  | _ => simp_all

/-- When the workers have left and the queue is drained, nothing is open. -/
theorem all_closed (h : Reachable num s) {i : Nat} (hmain : s.main = .joining i)
    (hleft : ∀ w ∈ s.workers, w = .exited) (fd : Int) : isOpen s.log fd = false := by
  have hplaces := h.owned.places fd
  have hw : s.workers.countP (Worker.holds fd) = 0 :=
    Counting.countP_eq_zero fun w hw => by
      rw [hleft w hw]
      rfl
  rw [System.places, hw, (h.phased.drained i hmain).1, hmain] at hplaces
  rcases hopen : isOpen s.log fd with _ | _
  · rfl
  · rw [hopen] at hplaces
    cases hplaces

/-- **Shutdown**: nothing is taken once the flag is set, every connection being served is shut down
while it is open, and in the end each one accepted has been closed exactly once. -/
theorem shutdown_complete (h : Reachable num s) :
    (s.pool.exitFlag = true → ∀ s', Steps s s' →
      takes s'.log = takes s.log ∧ ∀ fd, .serving fd ∈ s'.workers → .serving fd ∈ s.workers) ∧
    (∀ s', s.main = .flagged → Step s s' → s'.main = .shut →
      ∃ fds : List Int, s'.log = s.log ++ fds.map .shutdown ∧ ∀ fd, fd ∈ fds ↔ .serving fd ∈ s.workers) ∧
    (∀ pre fd post, s.log = pre ++ .shutdown fd :: post → isOpen pre fd = true) ∧
    (∀ i, s.main = .joining i → (∀ w ∈ s.workers, w = .exited) →
      s.pool.queue.contents = [] ∧ (∀ fd ∈ s.pool.activeFds, fd = -1) ∧
      ∀ fd, isOpen s.log fd = false ∧ s.log.count (.close fd) = s.log.count (.accept fd)) ∧
    (∀ pre fd post, s.log = pre ++ .close fd :: post → isOpen pre fd = true) ∧
    (s.main = .joining num → ∀ w ∈ s.workers, w = .exited) := by
  have ho := h.owned
  refine ⟨fun hexit s' hs => (Steps.exiting h hs hexit).2, fun s' hmain hs hmain' => ?_,
    fun pre fd post hlog => ho.sound pre _ post hlog,
    fun i hmain hleft => ⟨(h.phased.drained i hmain).1, fun fd hfd => ?_, fun fd => ?_⟩,
    fun pre fd post hlog => ho.sound pre _ post hlog, fun hmain w hw => ?_⟩
  · refine ⟨_, hs.shuts hmain hmain', fun fd => ?_⟩
    rw [Pool.shutdownActiveFds, List.mem_filter, decide_eq_true_eq]
    constructor
    · rintro ⟨hmem, hne⟩
      exact (ho.mem_activeFds hne).1 hmem
    · intro hserve
      have hne : fd ≠ -1 := by
        have := ho.serving_nonneg hserve
        omega
      exact ⟨(ho.mem_activeFds hne).2 hserve, hne⟩
  · by_contra hne
    cases hleft _ ((ho.mem_activeFds hne).1 hfd)
  · have hopen := all_closed h hmain hleft fd
    have hcount := ho.sound.count_close fd
    rw [hopen] at hcount
    exact ⟨hopen, by simpa using hcount⟩
  · obtain ⟨j, hj, rfl⟩ := List.getElem_of_mem hw
    have hlt : j < num := h.length_workers ▸ hj
    have := (h.phased.drained num hmain).2 j hlt
    rw [List.getElem?_eq_getElem hj] at this
    exact Option.some.inj this

end Steps

/-- A connection that is still queued when the exit event comes. -/
theorem shutdown_complete_queued : ∃ s : System, s.main = .joining 1 ∧ s.log = [.accept 5, .close 5] ∧
    s.pool.queue.contents = [] ∧ isOpen s.log 5 = false := by
  have h₁ : Reachable 1 _ := .single (@Step.accept _ 5 rfl (by decide) rfl)
  have h₂ : Reachable 1 _ := h₁.tail (@Step.enqueue _ _ 0 _ _ rfl rfl rfl (.idle (by decide)))
  have h₃ : Reachable 1 _ := h₂.tail (.stop rfl)
  have h₄ : Reachable 1 _ := h₃.tail (.raise rfl)
  have h₅ : Reachable 1 _ := h₄.tail (@Step.next _ 0 _ _ _ rfl rfl rfl)
  have h₆ : Reachable 1 _ := h₅.tail (.shutdownActive rfl)
  have h₇ : Reachable 1 _ := h₆.tail (.drain rfl rfl)
  have h₈ : Reachable 1 _ := h₇.tail (.join rfl rfl)
  obtain ⟨-, -, -, hend, -⟩ := shutdown_complete h₈
  obtain ⟨hq, -, hclosed⟩ := hend 1 rfl (by decide)
  exact ⟨_, rfl, rfl, hq, (hclosed 5).1⟩

/-- The only worker leaves before the drain, with a connection still queued. -/
theorem exited_undrained : ∃ s, Reachable 1 s ∧ (∀ w ∈ s.workers, w = .exited) ∧ s.pool.queue.contents = [6] := by
  have h₁ : Reachable 1 _ := .single (@Step.accept _ 5 rfl (by decide) rfl)
  have h₂ : Reachable 1 _ := h₁.tail (@Step.enqueue _ _ 0 _ _ rfl rfl rfl (.idle (by decide)))
  have h₃ : Reachable 1 _ := h₂.tail (@Step.next _ 0 _ _ _ rfl rfl rfl)
  have h₄ : Reachable 1 _ := h₃.tail (@Step.accept _ 6 rfl (by decide) rfl)
  have h₅ : Reachable 1 _ := h₄.tail (@Step.enqueue _ _ 0 _ _ rfl rfl rfl (.idle (by decide)))
  have h₆ : Reachable 1 _ := h₅.tail (.stop rfl)
  have h₇ : Reachable 1 _ := h₆.tail (.raise rfl)
  have h₈ : Reachable 1 _ := h₇.tail (@Step.unregister _ 0 5 rfl)
  have h₉ : Reachable 1 _ := h₈.tail (@Step.close _ 0 5 rfl)
  have h₁₀ : Reachable 1 _ := h₉.tail (@Step.next _ 0 _ _ _ rfl rfl rfl)
  exact ⟨_, h₁₀, by decide, by decide⟩

end WindCloud.ThreadPool
