import WindCloud.Lib.Prog
/-!
# Total correctness

`twp` is the total weakest precondition: every run is finite, none is stuck at a call the
environment cannot answer, and every run ends in `Q`. A loop is read as the least set of
rounds closed under the body (`twp_unfold`), so its rule asks for a measure
(`twp_loop`). `twp_acc` and `twp_result` are soundness.

`Sem.budget` bounds how often the environment may give an idle answer (one that makes no
progress, such as an interrupted call): the program logic of a fair environment.
-/

namespace Interaction
namespace Prog

variable {E : Type} {A : E → Type} {W α β σ : Type} {sem : Sem E A W}

/-- Every run is finite, is never stuck, and ends in `Q`. -/
def twp (sem : Sem E A W) : {α : Type} → Prog E A α → (α → W → Prop) → W → Prop
  | _, ret a, Q, w => Q a w
  | _, call e k, Q, w =>
    (∃ r w', sem w e r w') ∧ ∀ r w', sem w e r w' → twp sem (k r) Q w'
  | _, @loop _ _ σ _ _ body s k, Q, w => ∀ I : σ → W → Prop,
      (∀ s w, twp sem (body s) (Sum.elim I fun b => twp sem (k b) Q) w → I s w) → I s w

@[simp] theorem twp_ret {a : α} {Q : α → W → Prop} {w : W} : twp sem (ret a) Q w ↔ Q a w := Iff.rfl

theorem twp_perform {e : E} {k : A e → Prog E A α} {Q : α → W → Prop} {w : W} (h : ∃ r w', sem w e r w')
    (hk : ∀ r w', sem w e r w' → twp sem (k r) Q w') : twp sem (perform e >>= k) Q w := ⟨h, hk⟩

theorem twp_mono {p : Prog E A α} {Q Q' : α → W → Prop} {w : W} (h : twp sem p Q w)
    (hq : ∀ a w, Q a w → Q' a w) : twp sem p Q' w := by
  induction p generalizing w with
  | ret a => exact hq _ _ h
  | call e k ih => exact ⟨h.1, fun r w' hs => ih r (h.2 r w' hs) hq⟩
  | loop body s k ihb ihk =>
    intro I hI
    refine h I fun s w hs => hI s w (ihb s hs ?_)
    rintro (s' | b) w' h'
    · exact h'
    · exact ihk b h' hq

theorem twp_bind {p : Prog E A α} {f : α → Prog E A β} {Q : β → W → Prop} {w : W} :
    twp sem (p >>= f) Q w ↔ twp sem p (fun a w' => twp sem (f a) Q w') w := by
  induction p generalizing w with
  | ret a => exact Iff.rfl
  | call e k ih => exact and_congr_right fun _ => forall₃_congr fun r w' _ => ih r
  | loop body s k ihb ihk =>
    refine forall_congr' fun I => imp_congr_left (forall₂_congr fun s w => imp_congr_left ?_)
    constructor
    · intro h
      refine twp_mono h ?_
      rintro (s' | b) w' h'
      · exact h'
      · exact (ihk b).1 h'
    · intro h
      refine twp_mono h ?_
      rintro (s' | b) w' h'
      · exact h'
      · exact (ihk b).2 h'

/-- A loop is its first round followed by the rest. -/
theorem twp_unfold {body : σ → Prog E A (σ ⊕ β)} {s : σ} {k : β → Prog E A α} {Q : α → W → Prop}
    {w : W} : twp sem (loop body s k) Q w ↔
      twp sem (body s) (Sum.elim (fun s => twp sem (loop body s k) Q) fun b => twp sem (k b) Q) w := by
  constructor
  · intro h
    refine h (fun s w => twp sem (body s)
      (Sum.elim (fun s => twp sem (loop body s k) Q) fun b => twp sem (k b) Q) w) ?_
    intro s w hs
    refine twp_mono hs ?_
    rintro (s' | b) w' h'
    · intro I hI
      refine hI _ _ (twp_mono h' ?_)
      rintro (s'' | b) w'' h''
      · exact h'' I hI
      · exact h''
    · exact h'
  · intro h I hI
    refine hI _ _ (twp_mono h ?_)
    rintro (s' | b) w' h'
    · exact h' I hI
    · exact h'

/-- The loop rule: an invariant, and a measure that each round which goes on decreases. -/
theorem twp_loop {body : σ → Prog E A (σ ⊕ β)} {s : σ} {k : β → Prog E A α} {Q : α → W → Prop}
    {w : W} (I : σ → W → Prop) (m : σ → W → Nat) (h0 : I s w)
    (hI : ∀ s w, I s w → twp sem (body s)
      (Sum.elim (fun s' w' => I s' w' ∧ m s' w' < m s w) fun b => twp sem (k b) Q) w) :
    twp sem (loop body s k) Q w := by
  generalize hn : m s w = n
  induction n using Nat.strongRecOn generalizing s w with
  | ind n ih =>
    refine twp_unfold.2 (twp_mono (hI s w h0) ?_)
    rintro (s' | b) w' h'
    · exact ih (m s' w') (hn ▸ h'.2) h'.1 rfl
    · exact h'

theorem twp_step {p p' : Prog E A α} {w w' : W} {Q : α → W → Prop} (h : twp sem p Q w)
    (hs : Step sem (p, w) (p', w')) : twp sem p' Q w' := by
  cases hs with
  | call hs => exact h.2 _ _ hs
  | loop =>
    refine twp_bind.2 (twp_mono (twp_unfold.1 h) ?_)
    rintro (s' | b) w' h'
    · exact h'
    · exact h'

theorem twp_steps {p p' : Prog E A α} {w w' : W} {Q : α → W → Prop} (h : twp sem p Q w)
    (hs : Steps sem (p, w) (p', w')) : twp sem p' Q w' := by
  generalize hc : (p, w) = c at hs
  generalize hc' : (p', w') = c' at hs
  induction hs generalizing p' w' with
  | refl => cases hc; cases hc'; exact h
  | tail _ hs ih =>
    subst hc'
    rename_i b _
    obtain ⟨q, v⟩ := b
    exact twp_step (ih rfl) hs

/-! ## Soundness -/

theorem acc_bind {p : Prog E A α} {f : α → Prog E A β} {Q : α → W → Prop} {w : W}
    (h : twp sem p Q w) (hf : ∀ a w', Q a w' → Acc (fun c' c => Step sem c c') (f a, w')) :
    Acc (fun c' c => Step sem c c') (p >>= f, w) := by
  induction p generalizing w β with
  | ret a => exact hf _ _ h
  | call e k ih =>
    refine ⟨_, fun c' hs => ?_⟩
    cases hs with
    | call hs => exact ih _ (h.2 _ _ hs) hf
  | loop body s k ihb ihk =>
    refine h (fun s w => Acc (fun c' c => Step sem c c') (loop body s k >>= f, w)) ?_
    intro s w hs
    refine ⟨_, fun c' hstep => ?_⟩
    cases hstep with
    | loop =>
      refine ihb s hs ?_
      rintro (s' | b) w' h'
      · exact h'
      · exact ihk b h' hf

/-- **Termination**: from a state that satisfies `twp` there is no infinite run. -/
theorem twp_acc {p : Prog E A α} {Q : α → W → Prop} {w : W} (h : twp sem p Q w) :
    Acc (fun c' c => Step sem c c') (p, w) := by
  have hb := acc_bind (f := fun a => (ret a : Prog E A α)) h fun a w' _ =>
    ⟨_, fun c' hs => by cases hs⟩
  rwa [bind_ret] at hb

/-- **Progress**: a run that has not returned can go on. -/
theorem twp_progress {p : Prog E A α} {Q : α → W → Prop} {w : W} (h : twp sem p Q w) :
    (∃ a, p = ret a ∧ Q a w) ∨ ∃ c, Step sem (p, w) c := by
  cases p with
  | ret a => exact .inl ⟨a, rfl, h⟩
  | call e k =>
    obtain ⟨r, w', hs⟩ := h.1
    exact .inr ⟨_, .call hs⟩
  | loop body s k => exact .inr ⟨_, .loop⟩

/-- What a run returns satisfies the postcondition. -/
theorem twp_result {p : Prog E A α} {w w' : W} {a : α} {Q : α → W → Prop} (h : twp sem p Q w)
    (hs : Steps sem (p, w) (.ret a, w')) : Q a w' := twp_steps h hs

/-- A run that returns exists. -/
theorem twp_returns {p : Prog E A α} {Q : α → W → Prop} {w : W} (h : twp sem p Q w) :
    ∃ a w', Steps sem (p, w) (.ret a, w') ∧ Q a w' := by
  have hacc := twp_acc h
  generalize hc : (p, w) = c at hacc
  induction hacc generalizing p w with
  | intro c _ ih =>
    subst hc
    rcases twp_progress h with ⟨a, rfl, hq⟩ | ⟨⟨p', w'⟩, hs⟩
    · exact ⟨a, w, .refl, hq⟩
    · obtain ⟨a, w'', hr, hq⟩ := ih _ hs (twp_step h hs) rfl
      exact ⟨a, w'', .head hs hr, hq⟩

end Prog

/-! ## A bounded number of idle answers -/

variable {E : Type} {A : E → Type} {W : Type}

/-- `sem` with a budget: an idle answer costs one, any other answer is free. -/
def Sem.budget (sem : Sem E A W) (idle : (e : E) → A e → Prop) : Sem E A (W × Nat) :=
  fun w e r w' => sem w.1 e r w'.1 ∧ (idle e r → w.2 = w'.2 + 1) ∧ (¬ idle e r → w'.2 = w.2)

theorem Prog.step_of_budget {α : Type} {sem : Sem E A W} {idle : (e : E) → A e → Prop}
    {c c' : Prog E A α × W × Nat} (h : Step (sem.budget idle) c c') :
    Step sem (c.1, c.2.1) (c'.1, c'.2.1) := by
  cases h with
  | call h => exact .call h.1
  | loop => exact .loop

/-- A run within a budget is a run. -/
theorem Prog.steps_of_budget {α : Type} {sem : Sem E A W} {idle : (e : E) → A e → Prop}
    {c c' : Prog E A α × W × Nat} (h : Steps (sem.budget idle) c c') :
    Steps sem (c.1, c.2.1) (c'.1, c'.2.1) := by
  induction h with
  | refl => exact .refl
  | tail _ hs ih => exact ih.tail (step_of_budget hs)

end Interaction
