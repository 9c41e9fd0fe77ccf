import Mathlib.Logic.Relation
import Mathlib.Data.List.Induction
import Mathlib.Algebra.Order.BigOperators.Group.List
import Mathlib.Algebra.GroupWithZero.Nat
/-!
# Runs with their acts

A transition relation whose steps carry a label. `Runs step s acts t` is a run from `s` to `t` whose
steps carry `acts`, in this order: what happened is a list, so "at most so often" and "not before"
are statements about it.

`spends` is the potential method: if every step pays its cost out of the potential, or out of what
the step itself brings in, then a run's costs are bounded. `settles` is progress: where paid acts
are possible until the goal is reached, they reach it.
-/

namespace Interaction

variable {S T A : Type*}

/-- The run from `s` to `t` that makes `acts`. -/
inductive Runs (step : S → A → S → Prop) : S → List A → S → Prop
  | nil {s : S} : Runs step s [] s
  | cons {s t u : S} {a : A} {acts : List A} : step s a t → Runs step t acts u → Runs step s (a :: acts) u

namespace Runs

variable {step step' : S → A → S → Prop} {s t u : S} {a : A} {acts acts' : List A} {I : S → Prop}

theorem single (h : step s a t) : Runs step s [a] t := .cons h .nil

theorem trans (h : Runs step s acts t) (h' : Runs step t acts' u) : Runs step s (acts ++ acts') u := by
  induction h with
  | nil => exact h'
  | cons hs _ ih => exact .cons hs (ih h')

theorem snoc (h : Runs step s acts t) (hs : step t a u) : Runs step s (acts ++ [a]) u := h.trans (single hs)

/-- A run that makes `acts` and then `acts'` has come to some state in between. -/
theorem split (h : Runs step s (acts ++ acts') u) : ∃ t, Runs step s acts t ∧ Runs step t acts' u := by
  induction acts generalizing s with
  | nil => exact ⟨s, .nil, h⟩
  | cons a acts ih =>
    cases h with
    | cons hs h =>
      obtain ⟨t, h₁, h₂⟩ := ih h
      exact ⟨t, .cons hs h₁, h₂⟩

theorem mono (h : Runs step s acts t) (hle : ∀ s a t, step s a t → step' s a t) : Runs step' s acts t := by
  induction h with
  | nil => exact .nil
  | cons hs _ ih => exact .cons (hle _ _ _ hs) ih

/-- What is known of the acts is known at every step. -/
theorem filtered {P : A → Prop} (h : Runs step s acts t) (hP : ∀ a ∈ acts, P a) :
    Runs (fun s a t => step s a t ∧ P a) s acts t := by
  induction h with
  | nil => exact .nil
  | cons hs _ ih =>
    rw [List.forall_mem_cons] at hP
    exact .cons ⟨hs, hP.1⟩ (ih hP.2)

/-- What every step keeps, a run keeps. -/
theorem keeps (h : Runs step s acts t) (hI : ∀ s a t, I s → step s a t → I t) (hs : I s) : I t := by
  induction h with
  | nil => exact hs
  | cons hstep _ ih => exact ih (hI _ _ _ hs hstep)

/-- What holds at the start, with nothing done, and is kept by each act as it is done. -/
theorem records {I : List A → S → Prop} (h : Runs step s acts t) (h0 : I [] s)
    (hstep : ∀ acts u a v, Runs step s acts u → I acts u → step u a v → I (acts ++ [a]) v) : I acts t := by
  induction acts using List.reverseRecOn generalizing t with
  | nil =>
    cases h
    exact h0
  | append_singleton acts a ih =>
    obtain ⟨u, h₁, h₂⟩ := h.split
    cases h₂ with
    | cons hs hnil =>
      cases hnil
      exact hstep _ _ _ _ h₁ (ih h₁) hs

/-- Each step is one of `step'` or leaves what `abs` sees. -/
theorem simulates (abs : S → T) {next : T → T → Prop} (h : Runs step s acts t)
    (hstep : ∀ s a t, I s → step s a t → I t ∧ (abs t = abs s ∨ next (abs s) (abs t))) (hs : I s) :
    Relation.ReflTransGen next (abs s) (abs t) := by
  induction h with
  | nil => exact .refl
  | cons hst _ ih =>
    obtain ⟨ht, heq | hn⟩ := hstep _ _ _ hs hst
    · exact heq ▸ ih ht
    · exact .head hn (ih ht)

/-- **Potential**: what the acts of a run cost comes out of the potential and what they bring in. -/
theorem spends (Φ : S → Nat) (cost gain : A → Nat) (h : Runs step s acts t)
    (hstep : ∀ s a t, I s → step s a t → I t ∧ Φ t + cost a ≤ Φ s + gain a) (hs : I s) :
    Φ t + (acts.map cost).sum ≤ Φ s + (acts.map gain).sum := by
  induction h with
  | nil => simp
  | cons hst _ ih =>
    obtain ⟨ht, hle⟩ := hstep _ _ _ hs hst
    have := ih ht
    simp only [List.map_cons, List.sum_cons]
    omega

/-- **Progress**: as long as an act that lowers the potential is possible short of the goal, such acts reach the goal. -/
theorem settles (Φ : S → Nat) {paid : S → A → Prop} {goal : S → Prop}
    (hstep : ∀ s a t, I s → step s a t → paid s a → I t ∧ Φ t < Φ s)
    (hgo : ∀ s, I s → ¬ goal s → ∃ a t, paid s a ∧ step s a t) (hs : I s) :
    ∃ acts t, Runs (fun s a t => step s a t ∧ paid s a) s acts t ∧ goal t := by
  induction hn : Φ s using Nat.strong_induction_on generalizing s with
  | _ n ih =>
    by_cases hg : goal s
    · exact ⟨[], s, .nil, hg⟩
    · obtain ⟨a, t, ha, hst⟩ := hgo s hs hg
      obtain ⟨ht, hlt⟩ := hstep s a t hs hst ha
      obtain ⟨acts, u, hrun, hgoal⟩ := ih (Φ t) (hn ▸ hlt) ht rfl
      exact ⟨a :: acts, u, .cons ⟨hst, ha⟩ hrun, hgoal⟩

end Runs
end Interaction
