import WindCloud.Lib.Prog
import Mathlib.Logic.Function.Basic
/-!
# Threads over a shared state

A family of programs runs in interleaving over a shared state `S`; thread `i` also has a
state of its own in `L`, which no other thread touches. `join` puts the two together into
the state the calls work on.

`ParSteps sem join ok` is a run all of whose steps satisfy `ok`, a condition on the state
before the step, the thread that makes it, the call and its answer: assumptions about the
schedule are stated this way. `thread` is the projection: what a thread does in any such run
it can do alone in a semantics that lets the shared state change before every call.
-/

namespace Interaction

open Prog

variable {E : Type} {A : E → Type} {S L W ι α : Type} [DecidableEq ι]

/-- The shared state and, for each thread, its program and its own state. -/
structure Threads (E : Type) (A : E → Type) (S L ι α : Type) where
  shared : S
  prog : ι → Prog E A α
  loc : ι → L

namespace Threads

/-- Thread `i` at the program `p` with own state `l`, and the shared state `s`. -/
def put (c : Threads E A S L ι α) (i : ι) (s : S) (p : Prog E A α) (l : L) : Threads E A S L ι α where
  shared := s
  prog := Function.update c.prog i p
  loc := Function.update c.loc i l

variable {c : Threads E A S L ι α} {i j : ι} {s : S} {p : Prog E A α} {l : L}

@[simp] theorem put_shared : (c.put i s p l).shared = s := rfl
@[simp] theorem put_prog_self : (c.put i s p l).prog i = p := by simp [put]
@[simp] theorem put_loc_self : (c.put i s p l).loc i = l := by simp [put]
theorem put_prog_ne (h : j ≠ i) : (c.put i s p l).prog j = c.prog j := by simp [put, h]
theorem put_loc_ne (h : j ≠ i) : (c.put i s p l).loc j = c.loc j := by simp [put, h]

theorem put_put {s' : S} {p' : Prog E A α} {l' : L} :
    (c.put i s p l).put i s' p' l' = c.put i s' p' l' := by
  simp [put]

theorem put_self : c.put i c.shared (c.prog i) (c.loc i) = c := by
  simp [put]

end Threads

/-- A condition on a step: the state before it, the thread, the call and the answer. -/
abbrev StepOk (E : Type) (A : E → Type) (S L ι α : Type) :=
  Threads E A S L ι α → ι → (e : E) → A e → Prop

/-- One step of one thread. -/
inductive ParStep (sem : Sem E A W) (join : S → L → W) (ok : StepOk E A S L ι α) :
    Threads E A S L ι α → Threads E A S L ι α → Prop
  | call {c : Threads E A S L ι α} {i : ι} {e : E} {k : A e → Prog E A α} {r : A e} {s : S} {l : L} :
      c.prog i = .call e k → sem (join c.shared (c.loc i)) e r (join s l) → ok c i e r →
      ParStep sem join ok c (c.put i s (k r) l)
  | loop {σ β : Type} {c : Threads E A S L ι α} {i : ι} {body : σ → Prog E A (σ ⊕ β)} {s : σ}
      {k : β → Prog E A α} :
      c.prog i = .loop body s k →
      ParStep sem join ok c (c.put i c.shared (body s >>= unroll body k) (c.loc i))

/-- A run in which every step satisfies `ok`. -/
abbrev ParSteps (sem : Sem E A W) (join : S → L → W) (ok : StepOk E A S L ι α) :
    Threads E A S L ι α → Threads E A S L ι α → Prop :=
  Relation.ReflTransGen (ParStep sem join ok)

namespace Par

variable {sem semI : Sem E A W} {join : S → L → W} {ok ok' : StepOk E A S L ι α}
  {c c' : Threads E A S L ι α}

theorem mono (h : ParSteps sem join ok c c') (hle : ∀ c i e r, ok c i e r → ok' c i e r) :
    ParSteps sem join ok' c c' := by
  induction h with
  | refl => exact .refl
  | tail _ hs ih =>
    refine ih.tail ?_
    cases hs with
    | call hp hs hok => exact .call hp hs (hle _ _ _ _ hok)
    | loop hp => exact .loop hp

/-- A condition that every step of a run from `c` meets. -/
theorem strengthen (hok : ∀ {c₁ i e k r}, ParSteps sem join ok c c₁ → c₁.prog i = .call e k → ok c₁ i e r → ok' c₁ i e r)
    (h : ParSteps sem join ok c c') : ParSteps sem join ok' c c' := by
  induction h with
  | refl => exact .refl
  | tail hr hs ih =>
    refine ih.tail ?_
    cases hs with
    | call hp hs h => exact .call hp hs (hok hr hp h)
    | loop hp => exact .loop hp

/-- What every call keeps, a run keeps; a loop that starts its next round changes only the program. -/
theorem keeps {I : Threads E A S L ι α → Prop} (h0 : I c)
    (hcall : ∀ {c₁ i e k r s l}, ParSteps sem join ok c c₁ → c₁.prog i = .call e k →
      sem (join c₁.shared (c₁.loc i)) e r (join s l) → ok c₁ i e r → I c₁ → I (c₁.put i s (k r) l))
    (hloop : ∀ {c₁ i p}, (∀ a, c₁.prog i ≠ .ret a) → I c₁ → I (c₁.put i c₁.shared p (c₁.loc i)))
    (h : ParSteps sem join ok c c') : I c' := by
  induction h with
  | refl => exact h0
  | tail hr hs ih =>
    cases hs with
    | call hp hs hok => exact hcall hr hp hs hok ih
    | loop hp =>
      refine hloop (fun a ha => ?_) ih
      rw [hp] at ha
      cases ha

/-- **Projection**: a thread of a run makes a run of its own, if `semI` lets the shared
state be anything when a call is made. -/
theorem thread (hI : ∀ {s s₁ l e r w'}, sem (join s₁ l) e r w' → semI (join s l) e r w')
    (h : ParSteps sem join ok c c') (i : ι) :
    ∃ s, Steps semI (c.prog i, join c.shared (c.loc i)) (c'.prog i, join s (c'.loc i)) := by
  induction h with
  | refl => exact ⟨_, .refl⟩
  | tail _ hs ih =>
    obtain ⟨s, ih⟩ := ih
    cases hs with
    | call hp hs hok =>
      rename_i j _ _ _ s' _
      by_cases hj : i = j
      · subst hj
        refine ⟨s', ih.tail ?_⟩
        simp only [Threads.put_prog_self, Threads.put_loc_self, hp]
        exact .call (hI hs)
      · exact ⟨s, by simpa only [Threads.put_prog_ne hj, Threads.put_loc_ne hj] using ih⟩
    | loop hp =>
      rename_i j _ _ _
      by_cases hj : i = j
      · subst hj
        refine ⟨s, ih.tail ?_⟩
        simp only [Threads.put_prog_self, Threads.put_loc_self, hp]
        exact .loop
      · exact ⟨s, by simpa only [Threads.put_prog_ne hj, Threads.put_loc_ne hj] using ih⟩

/-- What every call of a thread's program satisfies, whatever is answered, its calls in a run satisfy. -/
theorem every_thread {C : E → Prop} {Q : α → Prop} {i : ι} {e : E} {k : A e → Prog E A α} (hp : every C (c.prog i) Q)
    (h : ParSteps sem join ok c c') (he : c'.prog i = .call e k) : C e := by
  obtain ⟨s, hs⟩ : ∃ s, Steps (fun _ _ _ _ => True : Sem E A W) (c.prog i, join c.shared (c.loc i))
      (c'.prog i, join s (c'.loc i)) := thread (fun _ => trivial) h i
  rw [he] at hs
  exact every_check hp hs

/-- **Solo**: where the others leave the shared state, a thread makes its run in it as if it were alone. -/
theorem solo {up : ι} {sem' : Sem E A W}
    (hup : ∀ {c₁ e r s l}, ParSteps sem join ok c c₁ → ok c₁ up e r →
      sem (join c₁.shared (c₁.loc up)) e r (join s l) → sem' (join c₁.shared (c₁.loc up)) e r (join s l))
    (hothers : ∀ {c₁ i e k r s l}, ParSteps sem join ok c c₁ → i ≠ up → c₁.prog i = .call e k →
      sem (join c₁.shared (c₁.loc i)) e r (join s l) → s = c₁.shared)
    (h : ParSteps sem join ok c c') :
    Steps sem' (c.prog up, join c.shared (c.loc up)) (c'.prog up, join c'.shared (c'.loc up)) := by
  induction h with
  | refl => exact .refl
  | tail hr hs ih =>
    cases hs with
    | @call _ j _ _ _ s' _ hp hs hok =>
      by_cases hj : up = j
      · subst hj
        refine ih.tail ?_
        simp only [Threads.put_prog_self, Threads.put_loc_self, Threads.put_shared, hp]
        exact .call (hup hr hok hs)
      · obtain rfl := hothers hr (Ne.symm hj) hp hs
        simpa only [Threads.put_prog_ne hj, Threads.put_loc_ne hj, Threads.put_shared] using ih
    | @loop _ _ _ j _ _ _ hp =>
      by_cases hj : up = j
      · subst hj
        refine ih.tail ?_
        simp only [Threads.put_prog_self, Threads.put_loc_self, Threads.put_shared, hp]
        exact .loop
      · simpa only [Threads.put_prog_ne hj, Threads.put_loc_ne hj, Threads.put_shared] using ih

/-- **Alone**: where `R` says what a thread can see of the shared state, and the steps of the others do not show,
it makes its run in any state it cannot tell from the shared one. -/
theorem alone {i : ι} {R : S → S → Prop} {t : S}
    (hown : ∀ {c₁ e r s l t}, ParSteps sem join ok c c₁ → ok c₁ i e r →
      sem (join c₁.shared (c₁.loc i)) e r (join s l) → R c₁.shared t → ∃ t', sem (join t (c₁.loc i)) e r (join t' l) ∧ R s t')
    (hothers : ∀ {c₁ j e k r s l t}, j ≠ i → c₁.prog j = .call e k → ok c₁ j e r →
      sem (join c₁.shared (c₁.loc j)) e r (join s l) → R c₁.shared t → R s t)
    (h0 : R c.shared t) (h : ParSteps sem join ok c c') :
    ∃ t', Steps sem (c.prog i, join t (c.loc i)) (c'.prog i, join t' (c'.loc i)) ∧ R c'.shared t' := by
  induction h with
  | refl => exact ⟨t, .refl, h0⟩
  | tail hr hs ih =>
    obtain ⟨u, hrun, hu⟩ := ih
    cases hs with
    | @call _ j _ _ _ s' _ hp hs hok =>
      by_cases hj : i = j
      · subst hj
        obtain ⟨u', hs', hu'⟩ := hown hr hok hs hu
        refine ⟨u', hrun.tail ?_, hu'⟩
        simp only [Threads.put_prog_self, Threads.put_loc_self, hp]
        exact .call hs'
      · refine ⟨u, ?_, hothers (Ne.symm hj) hp hok hs hu⟩
        simpa only [Threads.put_prog_ne hj, Threads.put_loc_ne hj] using hrun
    | @loop _ _ _ j _ _ _ hp =>
      by_cases hj : i = j
      · subst hj
        refine ⟨u, hrun.tail ?_, hu⟩
        simp only [Threads.put_prog_self, Threads.put_loc_self, hp]
        exact .loop
      · refine ⟨u, ?_, hu⟩
        simpa only [Threads.put_prog_ne hj, Threads.put_loc_ne hj] using hrun

/-- A run of one thread to `d` while the others wait. Of a step of it is known where it comes from and that it leads to `d`. -/
theorem run {up : ι} {sem' : Sem E A W} {d : Prog E A α × W} (hjoin : ∀ w, ∃ s l, join s l = w)
    (hsem : ∀ {s l e k r w'}, Steps sem' (c.prog up, join c.shared (c.loc up)) (.call e k, join s l) →
      sem' (join s l) e r w' → Steps sem' (k r, w') d →
      sem (join s l) e r w' ∧ ok (c.put up s (.call e k) l) up e r)
    (h : Steps sem' (c.prog up, join c.shared (c.loc up)) d) :
    ∃ s l, join s l = d.2 ∧ ParSteps sem join ok c (c.put up s d.1 l) := by
  suffices hpath : ∀ b, Steps sem' (c.prog up, join c.shared (c.loc up)) b → Steps sem' b d →
      ∃ s l, join s l = b.2 ∧ ParSteps sem join ok c (c.put up s b.1 l) from hpath d h .refl
  intro b hb
  induction hb with
  | refl => exact fun _ => ⟨_, _, rfl, by rw [Threads.put_self]⟩
  | @tail b _ hr hs ih =>
    intro hrest
    obtain ⟨q, v⟩ := b
    obtain ⟨s, l, rfl, hrun⟩ := ih (.head hs hrest)
    cases hs with
    | @call _ e k _ w r hs =>
      obtain ⟨s', l', rfl⟩ := hjoin w
      obtain ⟨hs, hok⟩ := hsem hr hs hrest
      have hstep : ParStep sem join ok (c.put up s (.call e k) l) (Threads.put _ up s' (k r) l') :=
        .call Threads.put_prog_self (by simpa using hs) hok
      exact ⟨s', l', rfl, hrun.tail (by simpa only [Threads.put_put] using hstep)⟩
    | @loop _ _ _ body s₀ k _ =>
      have hstep : ParStep sem join ok (c.put up s (.loop body s₀ k) l) (Threads.put _ up _ _ _) :=
        .loop Threads.put_prog_self
      exact ⟨s, l, rfl, hrun.tail (by simpa only [Threads.put_put, Threads.put_shared, Threads.put_loc_self] using hstep)⟩

end Par
end Interaction
