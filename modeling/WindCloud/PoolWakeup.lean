import WindCloud.PoolOwnership
/-!
# No lost wake-up

While the pool is not told to exit, a worker that sleeps un-signalled leaves the queue no longer
than the number of threads on their way to test it: an enqueued connection wakes one of the
sleepers, a thread on its way takes one connection or finds none left.
-/

namespace WindCloud.ThreadPool

open Counting

section Steps

variable {s s' : System} {num : Nat}

def Awaited (s : System) : Prop :=
  s.pool.exitFlag = false → .waiting ∈ s.workers → s.pool.queue.contents.length ≤ s.workers.countP Worker.retests

/-- A thread that does not begin to sleep does not make room. -/
theorem Awaited.moved (h : Awaited s) {i : Nat} {w w' : Worker} (hw : s.workers[i]? = some w) (hw' : w' ≠ .waiting)
    (hretests : w.retests = true → w'.retests = true) (hexit : s.pool.exitFlag = false)
    (hmem : .waiting ∈ s.workers.set i w') :
    s.pool.queue.contents.length ≤ (s.workers.set i w').countP Worker.retests := by
  have hle := h hexit ((List.mem_or_eq_of_mem_set hmem).resolve_right hw'.symm)
  have hset := countP_set Worker.retests hw w'
  have hmono : w.retests.toNat ≤ w'.retests.toNat := by
    rcases hr : w.retests with _ | _
    · exact Nat.zero_le _
    · exact Nat.le_of_eq (by rw [hretests hr])
  omega

theorem Awaited.step (h : Awaited s) (ho : Owned s) (hs : Step s s') : Awaited s' := by
  cases hs with
  | accept => exact h
  | @enqueue fd node queue ws hmain hnode hqueue hsignal =>
    obtain ⟨queue', heq, hholds⟩ := @Queue.enQueue_holds _ _ fd _ ho.queue hnode
    obtain rfl : queue' = queue := Option.some.inj (heq.symm.trans hqueue)
    intro hexit hmem
    simp only [hholds.contents, List.length_append, List.length_singleton]
    cases hsignal with
    | wake hi =>
      -- one more to take, one more on its way
      have hle := h hexit (List.mem_of_getElem? hi)
      have hset := countP_set Worker.retests hi .signalled
      simp only [Worker.retests, Bool.toNat_true, Bool.toNat_false] at hset ⊢
      omega
    | idle hnone => exact absurd hmem hnone
  | stop => exact h
  | raise => exact fun hexit => by cases hexit
  | shutdownActive => exact h
  | @drain fds pool hmain hdrain =>
    obtain ⟨-, queue, hempty, rfl⟩ := Pool.drainPendingFds_eq ho.queue ho.queue_neg hdrain
    intro _ _
    simp [hempty.contents]
  | join => exact h
  | spurious hw => exact fun hexit hmem => h.moved hw (by simp) (by simp [Worker.retests]) hexit hmem
  | @next i w w' pool hw hretests hnext =>
    intro hexit hmem
    rcases Pool.next_cases ho.queue hnext with ⟨hq, -, rfl, rfl⟩ | ⟨hf, rfl, rfl⟩ | ⟨fd, rest, queue, hq, hf, hrest, rfl, rfl⟩
    · simp [hq]
    · cases hf.symm.trans hexit
    · -- one fewer on its way, one fewer to take
      have hle := h hf ((List.mem_or_eq_of_mem_set hmem).resolve_right (by simp))
      have hset := countP_set Worker.retests hw (.serving fd)
      have hserves : (Worker.serving fd).retests = false := rfl
      simp only [hq, List.length_cons, hrest.contents, hretests, hserves, Bool.toNat_true, Bool.toNat_false] at hle hset ⊢
      omega
  | unregister hw => exact fun hexit hmem => h.moved hw (by simp) (by simp [Worker.retests]) hexit hmem
  | close hw => exact fun hexit hmem => h.moved hw (by simp) (by simp [Worker.retests]) hexit hmem

theorem Reachable.awaited (h : Reachable num s) : Awaited s :=
  h.invariant (fun _ hmem => by cases List.eq_of_mem_replicate hmem) fun _ _ hr ih hs => ih.step hr.owned hs

/-- **No lost wake-up**: behind a sleeper nobody has signalled, every queued connection has a thread
on its way to it. -/
theorem no_lost_wakeup (h : Reachable num s) (hexit : s.pool.exitFlag = false) :
    (.waiting ∈ s.workers → s.pool.queue.size ≤ s.workers.countP Worker.retests) ∧
    ¬ (0 < s.pool.queue.size ∧ .waiting ∈ s.workers ∧ ∀ w ∈ s.workers, w.retests = false) := by
  have hle (hmem : .waiting ∈ s.workers) : s.pool.queue.size ≤ s.workers.countP Worker.retests :=
    h.owned.queue.size ▸ h.awaited hexit hmem
  refine ⟨hle, ?_⟩
  rintro ⟨hsize, hmem, hnone⟩
  have := hle hmem
  rw [countP_eq_zero hnone] at this
  omega

/-- Two sleepers, and a connection for one of them. -/
theorem no_lost_wakeup_two : ∃ s : System, s.workers = [.signalled, .waiting] ∧ s.pool.queue.size = 1 ∧
    s.pool.queue.size ≤ s.workers.countP Worker.retests := by
  have h₁ : Reachable 2 _ := .single (@Step.next _ 0 _ _ _ rfl rfl rfl)
  have h₂ : Reachable 2 _ := h₁.tail (@Step.next _ 1 _ _ _ rfl rfl rfl)
  have h₃ : Reachable 2 _ := h₂.tail (@Step.accept _ 5 rfl (by decide) rfl)
  have h₄ : Reachable 2 _ := h₃.tail (@Step.enqueue _ _ 0 _ _ rfl rfl rfl (@Signal.wake _ 0 rfl))
  exact ⟨_, rfl, rfl, (no_lost_wakeup h₄ rfl).1 (by decide)⟩

end Steps
end WindCloud.ThreadPool
