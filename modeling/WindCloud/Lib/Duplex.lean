import WindCloud.Lib.Total
import Mathlib.Data.List.Basic
/-!
# Two programs joined by a pair of streams

Each side has its own state, in which `out` is all it has ever written to the other side and
`inp` all it has ever read from it. The only thing the streams ask of a step is that a side
has read nothing the other has not written: `inp` stays a prefix of the peer's `out`. What
lies between is in flight, and a step that reads may stop anywhere inside it, so the
interleaving, the splitting of reads and writes and a cut at any point are all covered.

`reach` is the composition principle: in a reachable pair of states each side has made a run
of its own, and the two prefix conditions hold. What a side alone guarantees of its `inp`
and `out` can then be combined.
-/

namespace Interaction

open Prog

variable {E F : Type} {A : E → Type} {B : F → Type} {V W τ α β : Type}

/-- A semantics with the two histories of a stream connection. What was written stays written. -/
structure Side (E : Type) (A : E → Type) (W τ : Type) where
  sem : Sem E A W
  inp : W → List τ
  out : W → List τ
  out_mono : ∀ {w : W} {e : E} {r : A e} {w' : W}, sem w e r w' → out w <+: out w'

namespace Side

/-- The steps a side can make when `avail` is all that was written to it. -/
def given (s : Side E A W τ) (avail : List τ) : Sem E A W :=
  fun w e r w' => s.sem w e r w' ∧ s.inp w' <+: avail

theorem out_step (s : Side E A W τ) {c c' : Prog E A α × W} (h : Step s.sem c c') :
    s.out c.2 <+: s.out c'.2 := by
  cases h with
  | call h => exact s.out_mono h
  | loop => exact List.prefix_refl _

theorem given_step (s : Side E A W τ) {avail : List τ} {c c' : Prog E A α × W}
    (h : Step (s.given avail) c c') : Step s.sem c c' ∧ (s.inp c.2 <+: avail → s.inp c'.2 <+: avail) := by
  cases h with
  | call h => exact ⟨.call h.1, fun _ => h.2⟩
  | loop => exact ⟨.loop, id⟩

/-- The side with a bound on its idle answers. -/
def budget (s : Side E A W τ) (idle : (e : E) → A e → Prop) : Side E A (W × Nat) τ where
  sem := s.sem.budget idle
  inp w := s.inp w.1
  out w := s.out w.1
  out_mono h := s.out_mono h.1

end Side

/-- A step of either side. -/
inductive DuplexStep (l : Side E A W τ) (r : Side F B V τ) :
    (Prog E A α × W) × (Prog F B β × V) → (Prog E A α × W) × (Prog F B β × V) → Prop
  | left {c c' : Prog E A α × W} {d : Prog F B β × V} :
      Step (l.given (r.out d.2)) c c' → DuplexStep l r (c, d) (c', d)
  | right {c : Prog E A α × W} {d d' : Prog F B β × V} :
      Step (r.given (l.out c.2)) d d' → DuplexStep l r (c, d) (c, d')

/-- A run of the pair, in any interleaving. -/
abbrev DuplexSteps (l : Side E A W τ) (r : Side F B V τ) :
    (Prog E A α × W) × (Prog F B β × V) → (Prog E A α × W) × (Prog F B β × V) → Prop :=
  Relation.ReflTransGen (DuplexStep l r)

namespace Duplex

variable {l : Side E A W τ} {r : Side F B V τ}

/-- Neither side has read what the other has not written. -/
def Causal (l : Side E A W τ) (r : Side F B V τ)
    (c : (Prog E A α × W) × (Prog F B β × V)) : Prop :=
  l.inp c.1.2 <+: r.out c.2.2 ∧ r.inp c.2.2 <+: l.out c.1.2

/-- **Composition**: a run of the pair is a run of each side, and stays causal. -/
theorem reach {c c' : (Prog E A α × W) × (Prog F B β × V)} (h : DuplexSteps l r c c')
    (h0 : Causal l r c) : Steps l.sem c.1 c'.1 ∧ Steps r.sem c.2 c'.2 ∧ Causal l r c' := by
  induction h with
  | refl => exact ⟨.refl, .refl, h0⟩
  | tail _ hs ih =>
    obtain ⟨hl, hr, hc⟩ := ih
    cases hs with
    | left hs =>
      obtain ⟨hs', hin⟩ := l.given_step hs
      exact ⟨hl.tail hs', hr, hin hc.1, hc.2.trans (l.out_step hs')⟩
    | right hs =>
      obtain ⟨hs', hin⟩ := r.given_step hs
      exact ⟨hl, hr.tail hs', hc.1.trans (r.out_step hs'), hin hc.2⟩

/-- A run of the pair to `Q`, traced back along the left side. -/
theorem backward_left {d : Prog F B β × V} (Q : (Prog E A α × W) × (Prog F B β × V) → Prop) :
    Backward (l.given (r.out d.2)) fun c => ∃ x, DuplexSteps l r (c, d) x ∧ Q x :=
  fun _ _ hs ⟨x, h, hq⟩ => ⟨x, .head (.left hs) h, hq⟩

/-- A run of the pair to `Q`, traced back along the right side. -/
theorem backward_right {c : Prog E A α × W} (Q : (Prog E A α × W) × (Prog F B β × V) → Prop) :
    Backward (r.given (l.out c.2)) fun d => ∃ x, DuplexSteps l r (c, d) x ∧ Q x :=
  fun _ _ hs ⟨x, h, hq⟩ => ⟨x, .head (.right hs) h, hq⟩

/-- A run in which the left side comes to the end of `p >>= f` comes to the end of `p` first. -/
theorem bind_left {γ : Type} {p : Prog E A γ} {f : γ → Prog E A α} {w w' : W} {b : α} {d d' : Prog F B β × V}
    (h : DuplexSteps l r ((p >>= f, w), d) ((.ret b, w'), d')) :
    ∃ a v e, DuplexSteps l r ((p, w), d) ((.ret a, v), e) ∧ DuplexSteps l r ((f a, v), e) ((.ret b, w'), d') := by
  suffices hcases : ∀ q w' d', DuplexSteps l r ((p >>= f, w), d) ((q, w'), d') →
      (∃ p', q = p' >>= f ∧ DuplexSteps l r ((p, w), d) ((p', w'), d')) ∨
        ∃ a v e, DuplexSteps l r ((p, w), d) ((.ret a, v), e) ∧ DuplexSteps l r ((f a, v), e) ((q, w'), d') by
    rcases hcases _ _ _ h with ⟨p', hp', hs⟩ | h
    · cases p' with
      | ret a => exact ⟨a, w', d', hs, by rw [hp']; exact .refl⟩
      | call e k => cases hp'
      | loop body s k => cases hp'
    · exact h
  intro q w' d' h
  generalize hc : ((q, w'), d') = c at h
  induction h generalizing q w' d' with
  | refl =>
    cases hc
    exact .inl ⟨p, rfl, .refl⟩
  | @tail b _ _ hs ih =>
    subst hc
    obtain ⟨⟨q₁, v₁⟩, d₁⟩ := b
    rcases ih q₁ v₁ d₁ rfl with ⟨p', rfl, hp⟩ | ⟨a, v, e, hp, hf⟩
    · cases p' with
      | ret a => exact .inr ⟨a, _, _, hp, .single hs⟩
      | call e k =>
        cases hs with
        | left hs =>
          cases hs with
          | call hs => exact .inl ⟨_, rfl, hp.tail (.left (.call hs))⟩
        | right hs => exact .inl ⟨_, rfl, hp.tail (.right hs)⟩
      | loop body s k =>
        cases hs with
        | left hs =>
          cases hs with
          | loop => exact .inl ⟨_, step_bind_loop body s k f, hp.tail (.left .loop)⟩
        | right hs => exact .inl ⟨_, rfl, hp.tail (.right hs)⟩
    · exact .inr ⟨a, v, e, hp, hf.tail hs⟩

/-- A run of the pair is one of what the two begin. -/
theorem bind_both {γ δ : Type} {c c' : Prog E A α × W} {d d' : Prog F B β × V} (f : α → Prog E A γ) (g : β → Prog F B δ)
    (h : DuplexSteps l r (c, d) (c', d')) :
    DuplexSteps l r ((c.1 >>= f, c.2), (d.1 >>= g, d.2)) ((c'.1 >>= f, c'.2), (d'.1 >>= g, d'.2)) := by
  generalize hx : (c', d') = x at h
  induction h generalizing c' d' with
  | refl =>
    cases hx
    exact .refl
  | tail _ hs ih =>
    subst hx
    cases hs with
    | left hs => exact (ih rfl).tail (.left (step_bind f hs))
    | right hs => exact (ih rfl).tail (.right (step_bind g hs))

/-- A pair of programs that both end, ends. -/
theorem acc {c : Prog E A α × W} {d : Prog F B β × V} (hc : Acc (fun c' c => Step l.sem c c') c)
    (hd : Acc (fun d' d => Step r.sem d d') d) : Acc (fun y x => DuplexStep l r x y) (c, d) := by
  induction hc generalizing d with
  | intro c _ ihc =>
    induction hd with
    | intro d hd ihd =>
      refine ⟨_, fun y hs => ?_⟩
      cases hs with
      | left hs => exact ihc _ (l.given_step hs).1 ⟨d, hd⟩
      | right hs => exact ihd _ (r.given_step hs).1

end Duplex
end Interaction
