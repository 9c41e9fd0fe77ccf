import WindCloud.Lib.Prog
/-!
# Keeping a log

`sem.log sel` is `sem` with a list of the calls whose answers `sel` picks: a statement about what
happened in the course of a run is one about the list at its end. Every run can be logged
(`steps_log`).
-/

namespace Interaction

variable {E : Type} {A : E → Type} {W α β : Type}

/-- `sem` with a log. -/
def Sem.log (sem : Sem E A W) (sel : W → (e : E) → A e → Prop) : Sem E A (W × List E) := fun w e r w' =>
  sem w.1 e r w'.1 ∧ (sel w.1 e r → w'.2 = w.2 ++ [e]) ∧ (¬ sel w.1 e r → w'.2 = w.2)

namespace Prog

variable {sem : Sem E A W} {sel : W → (e : E) → A e → Prop} {p q : Prog E A α} {w w' : W} {log log' : List E}

theorem steps_log (h : Steps sem (p, w) (q, w')) (log : List E) :
    ∃ log', Steps (sem.log sel) (p, w, log) (q, w', log') := by
  obtain ⟨⟨_, log'⟩, hrun, rfl⟩ : ∃ u : W × List E, Steps (sem.log sel) (p, w, log) (q, u) ∧ w' = u.1 := by
    refine steps_sim (R := fun v (u : W × List E) => v = u.1) ?_ h rfl
    rintro v e r v' ⟨_, l⟩ hs rfl
    by_cases hsel : sel v e r
    · exact ⟨(v', l ++ [e]), ⟨hs, fun _ => rfl, fun h => absurd hsel h⟩, rfl⟩
    · exact ⟨(v', l), ⟨hs, fun h => absurd h hsel, fun _ => rfl⟩, rfl⟩
  exact ⟨log', hrun⟩

theorem steps_log_grows (h : Steps (sem.log sel) (p, w, log) (q, w', log')) : log <+: log' := by
  generalize hc : (q, w', log') = c at h
  induction h generalizing q w' log' with
  | refl =>
    cases hc
    exact List.prefix_refl _
  | @tail b _ _ hs ih =>
    subst hc
    obtain ⟨q₁, v, l⟩ := b
    have hl := ih rfl
    cases hs with
    | @call _ e _ _ _ r hs =>
      by_cases hsel : sel v e r
      · have hlog : log' = l ++ [e] := hs.2.1 hsel
        exact hlog ▸ hl.trans (List.prefix_append _ _)
      · have hlog : log' = l := hs.2.2 hsel
        exact hlog ▸ hl
    | loop => exact hl

/-- Logged runs are built from their end as runs are. -/
theorem backward_log (Q : Prog E A α × W → List E → Prop) :
    Backward sem fun c => ∀ log, ∃ d log', Steps (sem.log sel) (c.1, c.2, log) (d.1, d.2, log') ∧ Q d log' := by
  rintro ⟨p, w⟩ ⟨p', w'⟩ hs h log
  obtain ⟨log₁, h₁⟩ : ∃ log₁, Steps (sem.log sel) (p, w, log) (p', w', log₁) := steps_log (.single hs) log
  obtain ⟨d, log', h', hq⟩ := h log₁
  exact ⟨d, log', h₁.trans h', hq⟩

/-- Up to a call that is picked, and from there to the end. -/
theorem steps_log_call {e : E} {k : A e → Prog E A α} {r : A e} {v : W} {Q : Prog E A α × W → Prop} (hs : sem w e r v)
    (hsel : sel w e r) (h : ∃ d, Steps sem (k r, v) d ∧ Q d) (log : List E) :
    ∃ d log', Steps (sem.log sel) (perform e >>= k, w, log) (d.1, d.2, log') ∧ Q d ∧ log' ≠ [] := by
  obtain ⟨d, hrun, hq⟩ := h
  obtain ⟨log', hlog⟩ := steps_log hrun (log ++ [e])
  refine ⟨d, log', steps_call ⟨hs, fun _ => rfl, fun h => absurd hsel h⟩ hlog, hq, ?_⟩
  rintro rfl
  simpa using steps_log_grows hlog

section Rules

variable {P : W → E → Prop} {C : E → Prop}

/-- A call, with what it leaves in the log. -/
theorem wp_log {e : E} {k : A e → Prog E A α} {Q : α → W × List E → Prop}
    (h : ∀ r v log', sem w e r v → (sel w e r → log' = log ++ [e]) → (¬ sel w e r → log' = log) →
      wp (sem.log sel) (fun _ _ => True) (k r) Q (v, log')) :
    wp (sem.log sel) (fun _ _ => True) (perform e >>= k) Q (w, log) :=
  ⟨trivial, fun r ⟨v, log'⟩ hs => h r v log' hs.1 hs.2.1 hs.2.2⟩

/-- A stretch that leaves the log. -/
theorem wp_log_idle {R : α → Prop} {Q : α → W → Prop} (hC : every C p R) (hsel : ∀ w e r, C e → ¬ sel w e r)
    (h : wp sem P p Q w) :
    wp (sem.log sel) (fun _ _ => True) p (fun a v => (R a ∧ Q a v.1) ∧ v.2 = log) (w, log) := by
  induction p generalizing w with
  | ret a => exact ⟨⟨hC, h⟩, rfl⟩
  | call e k ih =>
    refine ⟨trivial, ?_⟩
    rintro r ⟨v, _⟩ ⟨hs, -, hlog⟩
    obtain rfl := hlog (hsel _ _ _ hC.1)
    exact ih r (hC.2 r () trivial) (h.2 r v hs)
  | loop body s k ihb ihk =>
    obtain ⟨I, h0, hI⟩ := h
    obtain ⟨J, hJ0, hJ⟩ := hC
    refine wp_loop (fun s v => (J s () ∧ I s v.1) ∧ v.2 = log) ⟨⟨hJ0, h0⟩, rfl⟩ ?_
    rintro s ⟨v, _⟩ ⟨⟨hs, hv⟩, rfl⟩
    have hbody : every C (body s) (Sum.elim (fun s => J s ()) fun b => every C (k b) R) := by
      refine wp_mono (hJ s () hs) ?_
      rintro (s' | b) ⟨⟩ h' <;> exact h'
    refine wp_mono (ihb s hbody (hI s v hv)) ?_
    rintro (s' | b) ⟨v', _⟩ ⟨⟨hr, hq⟩, rfl⟩
    · exact ⟨⟨hr, hq⟩, rfl⟩
    · exact ihk b hr hq

end Rules
end Prog
end Interaction
