import Mathlib.Logic.Relation
/-!
# Interaction programs and their weakest preconditions

A program over a signature of calls `E` (a call `e` answers with an `A e`) is a tree: it
returns, makes a call and branches on the answer, or runs a loop whose body says at each
round whether to go on (`inl`) or to stop (`inr`). A loop is a constructor, so no fuel is
needed and a program may run for ever.

What a call does to the state is a relation `Sem`: the answers are chosen by the
environment. `Step` is one step of a program, `Steps` a finite run. `wp` is the weakest
precondition of every run: `Q` holds wherever the program returns, and the check `P` holds
of every call at the moment it is made. A loop is handled by an invariant, chosen when the
precondition is proved (`wp_loop`). `wp_steps` is soundness.
-/

namespace Interaction

/-- Programs over the calls `E` with answers `A`. -/
inductive Prog (E : Type) (A : E → Type) : Type → Type 1
  | ret {α : Type} (a : α) : Prog E A α
  | call {α : Type} (e : E) (k : A e → Prog E A α) : Prog E A α
  | loop {σ β α : Type} (body : σ → Prog E A (σ ⊕ β)) (s : σ) (k : β → Prog E A α) : Prog E A α

/-- What a call may answer, and the state it leaves. -/
abbrev Sem (E : Type) (A : E → Type) (W : Type) := W → (e : E) → A e → W → Prop

variable {E : Type} {A : E → Type} {W α β σ : Type}

namespace Prog

def bind : Prog E A α → (α → Prog E A β) → Prog E A β
  | ret a, f => f a
  | call e k, f => call e fun r => (k r).bind f
  | loop body s k, f => loop body s fun b => (k b).bind f

instance : Monad (Prog E A) where
  pure := ret
  bind := bind

@[simp] theorem pure_eq (a : α) : (pure a : Prog E A α) = ret a := rfl

@[simp] theorem ret_bind (a : α) (f : α → Prog E A β) : (ret a : Prog E A α) >>= f = f a := rfl

@[simp] theorem call_bind (e : E) (k : A e → Prog E A α) (f : α → Prog E A β) :
    call e k >>= f = call e fun r => k r >>= f := rfl

@[simp] theorem loop_bind {γ : Type} (body : σ → Prog E A (σ ⊕ γ)) (s : σ) (k : γ → Prog E A α)
    (f : α → Prog E A β) : loop body s k >>= f = loop body s fun b => k b >>= f := rfl

theorem bind_assoc {γ : Type} (p : Prog E A α) (f : α → Prog E A β) (g : β → Prog E A γ) :
    p >>= f >>= g = p >>= fun a => f a >>= g := by
  induction p with
  | ret a => rfl
  | call e k ih => simp only [call_bind]; congr 1; funext r; exact ih r f
  | loop body s k _ ih => simp only [loop_bind]; congr 1; funext b; exact ih b f

theorem bind_ret (p : Prog E A α) : (p >>= fun a => ret a) = p := by
  induction p with
  | ret a => rfl
  | call e k ih => simp only [call_bind]; congr 1; funext r; exact ih r
  | loop body s k _ ih => simp only [loop_bind]; congr 1; funext b; exact ih b

/-- The call `e` on its own. -/
def perform (e : E) : Prog E A (A e) := call e ret

/-- A loop on its own: `body` until it answers `inr`. -/
def iter (body : σ → Prog E A (σ ⊕ β)) (s : σ) : Prog E A β := loop body s ret

@[simp] theorem perform_bind (e : E) (f : A e → Prog E A β) : perform e >>= f = call e f := rfl

@[simp] theorem iter_bind (body : σ → Prog E A (σ ⊕ β)) (s : σ) (f : β → Prog E A α) :
    iter body s >>= f = loop body s f := rfl

/-- What follows one round of a loop. -/
def unroll (body : σ → Prog E A (σ ⊕ β)) (k : β → Prog E A α) : σ ⊕ β → Prog E A α
  | .inl s => loop body s k
  | .inr b => k b

/-! ## Runs -/

/-- One step: a call is answered, or a loop starts its next round. -/
inductive Step (sem : Sem E A W) : {α : Type} → Prog E A α × W → Prog E A α × W → Prop
  | call {α : Type} {e : E} {k : A e → Prog E A α} {w v : W} {r : A e} :
      sem w e r v → Step sem (.call e k, w) (k r, v)
  | loop {σ β α : Type} {body : σ → Prog E A (σ ⊕ β)} {s : σ} {k : β → Prog E A α} {w : W} :
      Step sem (.loop body s k, w) (body s >>= unroll body k, w)

/-- A finite run. -/
abbrev Steps (sem : Sem E A W) : Prog E A α × W → Prog E A α × W → Prop :=
  Relation.ReflTransGen (Step sem)

variable {sem sem' : Sem E A W}

theorem step_bind_loop {γ : Type} (body : σ → Prog E A (σ ⊕ γ)) (s : σ) (k : γ → Prog E A α) (f : α → Prog E A β) :
    body s >>= unroll body (fun b => k b >>= f) = (body s >>= unroll body k) >>= f := by
  rw [bind_assoc]
  congr 1
  funext x
  cases x <;> rfl

theorem step_bind {p p' : Prog E A α} {w w' : W} (f : α → Prog E A β)
    (h : Step sem (p, w) (p', w')) : Step sem (p >>= f, w) (p' >>= f, w') := by
  cases h with
  | call h => exact .call h
  | @loop _ _ _ body s k _ =>
    rw [← step_bind_loop]
    exact .loop

theorem steps_bind {p p' : Prog E A α} {w w' : W} (f : α → Prog E A β)
    (h : Steps sem (p, w) (p', w')) : Steps sem (p >>= f, w) (p' >>= f, w') := by
  generalize hc : (p, w) = c at h
  generalize hc' : (p', w') = c' at h
  induction h generalizing p' w' with
  | refl => cases hc; cases hc'; exact .refl
  | tail _ hs ih =>
    subst hc'
    rename_i b _
    obtain ⟨q, v⟩ := b
    exact (ih rfl).tail (step_bind f hs)

/-- A run of `p` to its result, then a run of what follows. -/
theorem steps_trans_bind {p : Prog E A α} {w w' : W} {a : α} {f : α → Prog E A β}
    {c : Prog E A β × W} (h : Steps sem (p, w) (.ret a, w')) (h' : Steps sem (f a, w') c) :
    Steps sem (p >>= f, w) c :=
  (steps_bind f h).trans h'

/-- A run of `p >>= f` is still in `p`, or `p` has returned. -/
theorem steps_bind_cases {p : Prog E A α} {f : α → Prog E A β} {q : Prog E A β} {w w' : W}
    (h : Steps sem (p >>= f, w) (q, w')) :
    (∃ p', q = p' >>= f ∧ Steps sem (p, w) (p', w')) ∨
      ∃ a v, Steps sem (p, w) (.ret a, v) ∧ Steps sem (f a, v) (q, w') := by
  generalize hc : (q, w') = c at h
  induction h generalizing q w' with
  | refl => cases hc; exact .inl ⟨p, rfl, .refl⟩
  | @tail b _ _ hs ih =>
    subst hc
    obtain ⟨q₁, v₁⟩ := b
    rcases ih rfl with ⟨p', rfl, hp⟩ | ⟨a, v, hp, hf⟩
    · cases p' with
      | ret a => exact .inr ⟨a, _, hp, .single hs⟩
      | call e k =>
        cases hs with
        | call hs => exact .inl ⟨_, rfl, hp.tail (.call hs)⟩
      | loop body s k =>
        cases hs with
        | loop => exact .inl ⟨_, (step_bind_loop body s k f), hp.tail .loop⟩
    · exact .inr ⟨a, v, hp, hf.tail hs⟩

/-- A run of `p >>= f` to a result is a run of `p` to one, and of what follows. -/
theorem steps_bind_ret {p : Prog E A α} {f : α → Prog E A β} {b : β} {w w' : W}
    (h : Steps sem (p >>= f, w) (.ret b, w')) :
    ∃ a v, Steps sem (p, w) (.ret a, v) ∧ Steps sem (f a, v) (.ret b, w') := by
  rcases steps_bind_cases h with ⟨p', hp', hs⟩ | h
  · cases p' with
    | ret a => exact ⟨a, w', hs, by rw [hp']; exact .refl⟩
    | call e k => cases hp'
    | loop body s k => cases hp'
  · exact h

/-- A program that has returned goes nowhere. -/
theorem steps_ret {a : α} {w : W} {c : Prog E A α × W} (h : Steps sem (.ret a, w) c) : c = (.ret a, w) := by
  rcases Relation.ReflTransGen.cases_head h with rfl | ⟨_, hs, -⟩
  · rfl
  · cases hs

theorem steps_call {e : E} {k : A e → Prog E A α} {w w' : W} {r : A e} {c : Prog E A α × W}
    (h : sem w e r w') (h' : Steps sem (k r, w') c) : Steps sem (.call e k, w) c :=
  .head (.call h) h'

/-- A call that has returned was answered first. -/
theorem steps_call_ret {e : E} {k : A e → Prog E A α} {w w' : W} {a : α} (h : Steps sem (.call e k, w) (.ret a, w')) :
    ∃ r v, sem w e r v ∧ Steps sem (k r, v) (.ret a, w') := by
  rcases Relation.ReflTransGen.cases_head h with heq | ⟨_, hs, h⟩
  · cases heq
  · cases hs with
    | call hs => exact ⟨_, _, hs, h⟩

/-- One round that goes on. -/
theorem steps_loop_inl {body : σ → Prog E A (σ ⊕ β)} {s s' : σ} {k : β → Prog E A α} {w w' : W}
    {c : Prog E A α × W} (h : Steps sem (body s, w) (.ret (.inl s'), w'))
    (h' : Steps sem (loop body s' k, w') c) : Steps sem (loop body s k, w) c :=
  .head .loop (steps_trans_bind h h')

/-- The rounds of a loop that go on. -/
abbrev Rounds (sem : Sem E A W) (body : σ → Prog E A (σ ⊕ β)) : σ × W → σ × W → Prop :=
  Relation.ReflTransGen fun x y => Steps sem (body x.1, x.2) (.ret (.inl y.1), y.2)

/-- A run of a loop has made some rounds, and is at its head, in a round, or past it. -/
theorem steps_loop_cases {body : σ → Prog E A (σ ⊕ β)} {s : σ} {k : β → Prog E A α} {q : Prog E A α} {w w' : W}
    (h : Steps sem (loop body s k, w) (q, w')) : ∃ s' v, Rounds sem body (s, w) (s', v) ∧
      ((q = loop body s' k ∧ w' = v) ∨ (∃ p, Steps sem (body s', v) (p, w') ∧ q = p >>= unroll body k) ∨
        ∃ b u, Steps sem (body s', v) (.ret (.inr b), u) ∧ Steps sem (k b, u) (q, w')) := by
  generalize hc : (q, w') = c at h
  induction h generalizing q w' with
  | refl =>
    cases hc
    exact ⟨s, w, .refl, .inl ⟨rfl, rfl⟩⟩
  | @tail b _ _ hs ih =>
    subst hc
    obtain ⟨q₁, v₁⟩ := b
    obtain ⟨s', v, hr, ⟨rfl, rfl⟩ | ⟨p, hp, rfl⟩ | ⟨b, u, hb, hk⟩⟩ := ih rfl
    · cases hs with
      | loop => exact ⟨s', _, hr, .inr (.inl ⟨_, .refl, rfl⟩)⟩
    · cases p with
      | ret x =>
        rcases x with s'' | b
        · cases hs with
          | loop => exact ⟨s'', _, hr.tail hp, .inr (.inl ⟨_, .refl, rfl⟩)⟩
        · exact ⟨s', v, hr, .inr (.inr ⟨b, _, hp, .single hs⟩)⟩
      | call e k' =>
        cases hs with
        | call hs => exact ⟨s', v, hr, .inr (.inl ⟨_, hp.tail (.call hs), rfl⟩)⟩
      | loop body' s₁ k' =>
        cases hs with
        | loop => exact ⟨s', v, hr, .inr (.inl ⟨_, hp.tail .loop, step_bind_loop ..⟩)⟩
    · exact ⟨s', v, hr, .inr (.inr ⟨b, u, hb, hk.tail hs⟩)⟩

/-- A run of a loop to a result starts with its next round. -/
theorem steps_loop_iff {body : σ → Prog E A (σ ⊕ β)} {s : σ} {k : β → Prog E A α} {w v : W} {a : α} :
    Steps sem (loop body s k, w) (.ret a, v) ↔ Steps sem (body s >>= unroll body k, w) (.ret a, v) := by
  constructor
  · intro h
    rcases Relation.ReflTransGen.cases_head h with heq | ⟨c, hs, h⟩
    · cases heq
    · cases hs with
      | loop => exact h
  · exact fun h => .head .loop h

theorem step_mono {c c' : Prog E A α × W} (hle : ∀ w e r w', sem w e r w' → sem' w e r w')
    (h : Step sem c c') : Step sem' c c' := by
  cases h with
  | call h => exact .call (hle _ _ _ _ h)
  | loop => exact .loop

theorem steps_mono {c c' : Prog E A α × W} (hle : ∀ w e r w', sem w e r w' → sem' w e r w')
    (h : Steps sem c c') : Steps sem' c c' :=
  Relation.ReflTransGen.mono (fun _ _ => step_mono hle) _ _ h

/-- **Simulation**: where `sem'` can follow every answer of `sem`, it can follow every run. -/
theorem steps_sim {V : Type} {sem' : Sem E A V} {R : W → V → Prop} {p q : Prog E A α} {w w' : W} {v : V}
    (hR : ∀ w e r w' v, sem w e r w' → R w v → ∃ v', sem' v e r v' ∧ R w' v')
    (hs : Steps sem (p, w) (q, w')) (h : R w v) : ∃ v', Steps sem' (p, v) (q, v') ∧ R w' v' := by
  generalize hd : (q, w') = d at hs
  induction hs generalizing q w' with
  | refl =>
    cases hd
    exact ⟨v, .refl, h⟩
  | @tail b _ _ hs ih =>
    subst hd
    obtain ⟨v₁, hrun, h₁⟩ := ih rfl
    cases hs with
    | call hs =>
      obtain ⟨v₂, hs₂, h₂⟩ := hR _ _ _ _ _ hs h₁
      exact ⟨v₂, hrun.tail (.call hs₂), h₂⟩
    | loop => exact ⟨v₁, hrun.tail .loop, h₁⟩

/-- `R` can be traced back along a run: what it takes to build runs from their end. -/
def Backward (sem : Sem E A W) (R : Prog E A α × W → Prop) : Prop := ∀ c c', Step sem c c' → R c' → R c

section Backward

variable {R : Prog E A α × W → Prop}

/-- A run to a configuration in `Q`. -/
theorem backward_steps (Q : Prog E A α × W → Prop) : Backward sem fun c => ∃ c', Steps sem c c' ∧ Q c' :=
  fun _ _ hs ⟨c', h, hq⟩ => ⟨c', .head hs h, hq⟩

theorem Backward.mono (hR : Backward sem' R) (hle : ∀ w e r w', sem w e r w' → sem' w e r w') : Backward sem R := by
  rintro c c' hs
  refine hR c c' ?_
  cases hs with
  | call h => exact .call (hle _ _ _ _ h)
  | loop => exact .loop

theorem Backward.call (hR : Backward sem R) {e : E} {k : A e → Prog E A α} {w w' : W} {r : A e}
    (h : sem w e r w') (h' : R (k r, w')) : R (.call e k, w) := hR _ _ (.call h) h'

theorem Backward.loop (hR : Backward sem R) {body : σ → Prog E A (σ ⊕ β)} {s : σ} {k : β → Prog E A α} {w : W}
    (h : R (body s >>= unroll body k, w)) : R (.loop body s k, w) := hR _ _ .loop h

theorem Backward.iter (hR : Backward sem R) {body : σ → Prog E A (σ ⊕ β)} {s : σ} {k : β → Prog E A α} {w : W}
    (h : R (body s >>= unroll body k, w)) : R (iter body s >>= k, w) := hR.loop h

end Backward

/-! ## Weakest preconditions -/

/-- The weakest precondition of every run: `P` of each call made, `Q` of each result. -/
def wp (sem : Sem E A W) (P : W → E → Prop) : {α : Type} → Prog E A α → (α → W → Prop) → W → Prop
  | _, ret a, Q, w => Q a w
  | _, call e k, Q, w => P w e ∧ ∀ r w', sem w e r w' → wp sem P (k r) Q w'
  | _, @loop _ _ σ _ _ body s k, Q, w => ∃ I : σ → W → Prop, I s w ∧
      ∀ s w, I s w → wp sem P (body s) (Sum.elim I fun b => wp sem P (k b) Q) w

variable {P P' : W → E → Prop}

@[simp] theorem wp_ret {a : α} {Q : α → W → Prop} {w : W} : wp sem P (ret a) Q w ↔ Q a w := Iff.rfl

theorem wp_call {e : E} {k : A e → Prog E A α} {Q : α → W → Prop} {w : W} :
    wp sem P (call e k) Q w ↔ P w e ∧ ∀ r w', sem w e r w' → wp sem P (k r) Q w' := Iff.rfl

theorem wp_mono {p : Prog E A α} {Q Q' : α → W → Prop} {w : W} (h : wp sem P p Q w)
    (hq : ∀ a w, Q a w → Q' a w) : wp sem P p Q' w := by
  induction p generalizing w with
  | ret a => exact hq _ _ h
  | call e k ih => exact ⟨h.1, fun r w' hs => ih r (h.2 r w' hs) hq⟩
  | loop body s k ihb ihk =>
    obtain ⟨I, h0, hI⟩ := h
    refine ⟨I, h0, fun s w hs => ihb s (hI s w hs) ?_⟩
    rintro (s' | b) w' h'
    · exact h'
    · exact ihk b h' hq

theorem wp_bind {p : Prog E A α} {f : α → Prog E A β} {Q : β → W → Prop} {w : W} :
    wp sem P (p >>= f) Q w ↔ wp sem P p (fun a w' => wp sem P (f a) Q w') w := by
  induction p generalizing w with
  | ret a => exact Iff.rfl
  | call e k ih => exact and_congr_right fun _ => forall₃_congr fun r w' _ => ih r
  | loop body s k ihb ihk =>
    refine exists_congr fun I => and_congr_right fun _ => forall₃_congr fun s w _ => ?_
    constructor
    · intro h
      refine wp_mono h ?_
      rintro (s' | b) w' h'
      · exact h'
      · exact (ihk b).1 h'
    · intro h
      refine wp_mono h ?_
      rintro (s' | b) w' h'
      · exact h'
      · exact (ihk b).2 h'

/-- The loop rule: an invariant that holds at the start, that each round keeps, and that
gives what follows the loop when a round stops. -/
theorem wp_loop {body : σ → Prog E A (σ ⊕ β)} {s : σ} {k : β → Prog E A α} {Q : α → W → Prop}
    {w : W} (I : σ → W → Prop) (h0 : I s w)
    (hI : ∀ s w, I s w → wp sem P (body s) (Sum.elim I fun b => wp sem P (k b) Q) w) :
    wp sem P (loop body s k) Q w := ⟨I, h0, hI⟩

/-- Where the answers to checked calls in `sem'` are answers in `sem`. -/
theorem wp_narrow {p : Prog E A α} {Q : α → W → Prop} {w : W} (h : wp sem P p Q w)
    (hle : ∀ w e r w', P w e → sem' w e r w' → sem w e r w') (hP : ∀ w e, P w e → P' w e) : wp sem' P' p Q w := by
  induction p generalizing w with
  | ret a => exact h
  | call e k ih => exact ⟨hP _ _ h.1, fun r w' hs => ih r (h.2 r w' (hle _ _ _ _ h.1 hs))⟩
  | loop body s k ihb ihk =>
    obtain ⟨I, h0, hI⟩ := h
    refine ⟨I, h0, fun s w hs => wp_mono (ihb s (hI s w hs)) ?_⟩
    rintro (s' | b) w' h'
    · exact h'
    · exact ihk b h'

/-- Fewer answers and a weaker check keep the precondition. -/
theorem wp_weaken {p : Prog E A α} {Q : α → W → Prop} {w : W} (h : wp sem P p Q w)
    (hle : ∀ w e r w', sem' w e r w' → sem w e r w') (hP : ∀ w e, P w e → P' w e) :
    wp sem' P' p Q w := wp_narrow h (fun _ _ _ _ _ => hle _ _ _ _) hP

theorem wp_step {p p' : Prog E A α} {w w' : W} {Q : α → W → Prop} (h : wp sem P p Q w)
    (hs : Step sem (p, w) (p', w')) : wp sem P p' Q w' := by
  cases hs with
  | call hs => exact h.2 _ _ hs
  | loop =>
    obtain ⟨I, h0, hI⟩ := h
    refine wp_bind.2 (wp_mono (hI _ _ h0) ?_)
    rintro (s' | b) w' h'
    · exact ⟨I, h', hI⟩
    · exact h'

/-- **Soundness**: the precondition survives every run. -/
theorem wp_steps {p p' : Prog E A α} {w w' : W} {Q : α → W → Prop} (h : wp sem P p Q w)
    (hs : Steps sem (p, w) (p', w')) : wp sem P p' Q w' := by
  generalize hc : (p, w) = c at hs
  generalize hc' : (p', w') = c' at hs
  induction hs generalizing p' w' with
  | refl => cases hc; cases hc'; exact h
  | tail _ hs ih =>
    subst hc'
    rename_i b _
    obtain ⟨q, v⟩ := b
    exact wp_step (ih rfl) hs

/-- Every result a run can return satisfies the postcondition. -/
theorem wp_result {p : Prog E A α} {w w' : W} {a : α} {Q : α → W → Prop} (h : wp sem P p Q w)
    (hs : Steps sem (p, w) (.ret a, w')) : Q a w' := wp_steps h hs

/-- Every call a run can come to satisfies the check. -/
theorem wp_check {p : Prog E A α} {w w' : W} {e : E} {k : A e → Prog E A α} {Q : α → W → Prop}
    (h : wp sem P p Q w) (hs : Steps sem (p, w) (.call e k, w')) : P w' e := (wp_steps h hs).1

/-- What every checked step keeps, a run keeps. -/
theorem wp_keeps {p p' : Prog E A α} {w w' : W} {Q : α → W → Prop} {I : W → Prop} (h : wp sem P p Q w)
    (hP : ∀ v e r v', P v e → sem v e r v' → I v → I v') (h0 : I w) (hs : Steps sem (p, w) (p', w')) : I w' := by
  generalize hc' : (p', w') = c' at hs
  induction hs generalizing p' w' with
  | refl => cases hc'; exact h0
  | @tail b c hr hs ih =>
    subst hc'
    obtain ⟨q, v⟩ := b
    have hq := wp_steps h hr
    cases hs with
    | call hs => exact hP _ _ _ _ hq.1 hs (ih rfl)
    | loop => exact ih rfl

/-- What every step keeps, every program keeps. -/
theorem wp_stable {p : Prog E A α} {w : W} {I : W → Prop} (hI : ∀ w e r w', sem w e r w' → I w → I w') (h0 : I w) :
    wp sem (fun _ _ => True) p (fun _ w => I w) w := by
  induction p generalizing w with
  | ret a => exact h0
  | call e k ih => exact ⟨trivial, fun r w' hs => ih r (hI _ _ _ _ hs h0)⟩
  | loop body s k ihb ihk =>
    refine wp_loop (fun _ w => I w) h0 fun s w hs => wp_mono (ihb s hs) ?_
    rintro (s' | b) w' h'
    · exact h'
    · exact ihk b h'

/-- Where `sem'` can follow every answer to a checked call, it can follow every run. -/
theorem wp_sim {V : Type} {sem' : Sem E A V} {R : W → V → Prop} {p p' : Prog E A α} {w w' : W} {v : V}
    {Q : α → W → Prop} (h : wp sem P p Q w)
    (hR : ∀ w e r w' v, P w e → sem w e r w' → R w v → ∃ v', sem' v e r v' ∧ R w' v')
    (hs : Steps sem (p, w) (p', w')) (h0 : R w v) : ∃ v', Steps sem' (p, v) (p', v') ∧ R w' v' := by
  generalize hc' : (p', w') = c' at hs
  induction hs generalizing p' w' with
  | refl =>
    cases hc'
    exact ⟨v, .refl, h0⟩
  | @tail b _ hr hs ih =>
    subst hc'
    obtain ⟨q, u⟩ := b
    obtain ⟨v₁, hrun, h₁⟩ := ih rfl
    have hq := wp_steps h hr
    cases hs with
    | call hs =>
      obtain ⟨v₂, hs₂, h₂⟩ := hR _ _ _ _ _ hq.1 hs h₁
      exact ⟨v₂, hrun.tail (.call hs₂), h₂⟩
    | loop => exact ⟨v₁, hrun.tail .loop, h₁⟩

/-- What the check proves of the state after any answer, holds in every state of a run. -/
theorem wp_always {p p' : Prog E A α} {w w' : W} {Q : α → W → Prop} {I : W → Prop}
    (h : wp sem (fun w e => ∀ r w', sem w e r w' → I w') p Q w) (h0 : I w)
    (hs : Steps sem (p, w) (p', w')) : I w' :=
  wp_keeps h (fun _ _ _ _ hp hs _ => hp _ _ hs) h0 hs

/-! ## What holds whatever is answered -/

/-- Every call satisfies `C` and every result `Q`, whatever the calls answer. -/
def every (C : E → Prop) (p : Prog E A α) (Q : α → Prop) : Prop :=
  wp (fun (_ : Unit) _ _ _ => True) (fun _ => C) p (fun a _ => Q a) ()

variable {C : E → Prop}

@[simp] theorem every_ret {a : α} {Q : α → Prop} : every C (ret a : Prog E A α) Q ↔ Q a := Iff.rfl

theorem every_mono {p : Prog E A α} {C' : E → Prop} {Q Q' : α → Prop} (h : every C p Q)
    (hC : ∀ e, C e → C' e) (hQ : ∀ a, Q a → Q' a) : every C' p Q' :=
  wp_mono (wp_weaken h (fun _ _ _ _ => id) fun _ => hC) fun a _ => hQ a

theorem every_perform {e : E} {f : A e → Prog E A α} {Q : α → Prop} (he : C e)
    (hf : ∀ r, every C (f r) Q) : every C (perform e >>= f) Q := ⟨he, fun r _ _ => hf r⟩

theorem every_bind {p : Prog E A α} {f : α → Prog E A β} {R : α → Prop} {Q : β → Prop}
    (hp : every C p R) (hf : ∀ a, R a → every C (f a) Q) : every C (p >>= f) Q :=
  wp_bind.2 (wp_mono hp fun a _ ha => hf a ha)

theorem every_iter {body : σ → Prog E A (σ ⊕ β)} {s : σ} {Q : β → Prop} (I : σ → Prop) (h0 : I s)
    (hI : ∀ s, I s → every C (body s) (Sum.elim I Q)) : every C (iter body s) Q := by
  refine wp_loop (fun s _ => I s) h0 fun s _ hs => wp_mono (hI s hs) ?_
  rintro (s' | b) _ h
  · exact h
  · exact h

theorem steps_unit {p q : Prog E A α} {w w' : W} (hs : Steps sem (p, w) (q, w')) :
    Steps (fun (_ : Unit) _ _ _ => True) (p, ()) (q, ()) := by
  have hR (v : W) (e : E) (r : A e) (v' : W) (u : Unit) (_ : sem v e r v') (_ : True) :
      ∃ u' : Unit, True ∧ True := ⟨u, trivial, trivial⟩
  obtain ⟨_, h, -⟩ := steps_sim hR hs (v := ()) trivial
  exact h

/-- A call that any run can come to satisfies `C`. -/
theorem every_check {p : Prog E A α} {w w' : W} {e : E} {k : A e → Prog E A α} {Q : α → Prop}
    (h : every C p Q) (hs : Steps sem (p, w) (.call e k, w')) : C e := wp_check h (steps_unit hs)

/-- The same in a given semantics, with what the calls in `C` keep. -/
theorem every_wp {p : Prog E A α} {w : W} {Q : α → Prop} {I : W → Prop} (h : every C p Q) (h0 : I w)
    (hP : ∀ w e, C e → I w → P w e) (hI : ∀ w e r w', C e → sem w e r w' → I w → I w') :
    wp sem P p (fun a w => Q a ∧ I w) w := by
  induction p generalizing w with
  | ret a => exact ⟨h, h0⟩
  | call e k ih => exact ⟨hP _ _ h.1 h0, fun r w' hs => ih r (h.2 r () trivial) (hI _ _ _ _ h.1 hs h0)⟩
  | loop body s k ihb ihk =>
    obtain ⟨J, hJ, hbody⟩ := h
    refine ⟨fun s w => J s () ∧ I w, ⟨hJ, h0⟩, fun s w hs => ?_⟩
    have hs' : every C (body s) (Sum.elim (fun s => J s ()) fun b => every C (k b) Q) := by
      refine wp_mono (hbody s () hs.1) ?_
      rintro (s' | b) ⟨⟩ h' <;> exact h'
    refine wp_mono (ihb s hs' hs.2) ?_
    rintro (s' | b) w' ⟨h', hI'⟩
    · exact ⟨h', hI'⟩
    · exact ihk b h' hI'

/-- A result that any run can return satisfies `Q`. -/
theorem every_result {p : Prog E A α} {w w' : W} {a : α} {Q : α → Prop} (h : every C p Q)
    (hs : Steps sem (p, w) (.ret a, w')) : Q a := wp_result h (steps_unit hs)

end Prog
end Interaction
