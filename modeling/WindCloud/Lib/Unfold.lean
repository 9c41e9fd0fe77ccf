import WindCloud.Lib.Total
/-!
# Steps without a call

A loop starts its next round without a call. `Unfolds p q`: the program `p` comes to `q` by such
steps alone. There is only one way for them to go, so of two programs that `p` unfolds to, one
unfolds to the other (`Unfolds.linear`). `Around` is a run up to such steps: a configuration
that is reached from another, or is about to be the other.
-/

namespace Interaction
namespace Prog

variable {E : Type} {A : E → Type} {W α β : Type} {sem : Sem E A W}

/-- `p` comes to `q` without a call. -/
inductive Unfolds {α : Type} : Prog E A α → Prog E A α → Prop
  | refl (p : Prog E A α) : Unfolds p p
  | loop {σ β : Type} {body : σ → Prog E A (σ ⊕ β)} {s : σ} {k : β → Prog E A α} {q : Prog E A α}
      (h : Unfolds (body s >>= unroll body k) q) : Unfolds (.loop body s k) q

namespace Unfolds

variable {p q r : Prog E A α} {w v : W} {a : α} {e : E} {k : A e → Prog E A α}

theorem trans (h : Unfolds p q) (h' : Unfolds q r) : Unfolds p r := by
  induction h with
  | refl => exact h'
  | loop _ ih => exact .loop (ih h')

theorem bind (f : α → Prog E A β) (h : Unfolds p q) : Unfolds (p >>= f) (q >>= f) := by
  induction h with
  | refl => exact .refl _
  | @loop _ _ body s k _ _ ih =>
    rw [← step_bind_loop] at ih
    exact .loop ih

theorem steps (h : Unfolds p q) (w : W) : Steps sem (p, w) (q, w) := by
  induction h with
  | refl => exact .refl
  | loop _ ih => exact .head .loop ih

theorem linear (h : Unfolds p q) (h' : Unfolds p r) : Unfolds q r ∨ Unfolds r q := by
  induction h with
  | refl => exact .inl h'
  | loop h ih =>
    cases h' with
    | refl => exact .inr (.loop h)
    | loop h' => exact ih h'

theorem of_ret (h : Unfolds (.ret a) q) : q = .ret a := by
  cases h
  rfl

theorem of_call (h : Unfolds (.call e k) q) : q = .call e k := by
  cases h
  rfl

/-- Where a program makes a call it cannot have been before. -/
theorem to_call (h : Unfolds p q) (hc : Unfolds p (.call e k)) : Unfolds q (.call e k) := by
  rcases h.linear hc with h | h
  · exact h
  · rw [of_call h]
    exact .refl _

theorem to_ret (h : Unfolds p q) (hr : Unfolds p (.ret a)) : Unfolds q (.ret a) := by
  rcases h.linear hr with h | h
  · exact h
  · rw [of_ret h]
    exact .refl _

/-- A program comes to one call. -/
theorem call_unique {e' : E} {k' : A e' → Prog E A α} (h : Unfolds p (.call e k)) (h' : Unfolds p (.call e' k')) :
    (.call e k : Prog E A α) = .call e' k' := (h.to_call h').of_call.symm

/-- A run starts with the steps that need no call. -/
theorem steps_cases (h : Unfolds p q) (hrun : Steps sem (p, w) (r, v)) :
    Unfolds r q ∧ v = w ∨ Steps sem (q, w) (r, v) := by
  induction h with
  | refl => exact .inr hrun
  | loop h ih =>
    rcases Relation.ReflTransGen.cases_head hrun with heq | ⟨c, hs, hrun⟩
    · obtain ⟨rfl, rfl⟩ := Prod.mk.inj heq
      exact .inl ⟨.loop h, rfl⟩
    · cases hs with
      | loop => exact ih hrun

/-- A program that ends comes to a call or to its result. -/
theorem exists_of_twp {Q : α → W → Prop} (h : twp sem p Q w) :
    ∃ q, Unfolds p q ∧ ((∃ a, q = .ret a) ∨ ∃ e k, q = .call e k) := by
  have hacc := twp_acc h
  generalize hc : (p, w) = c at hacc
  induction hacc generalizing p with
  | intro c _ ih =>
    subst hc
    cases p with
    | ret a => exact ⟨_, .refl _, .inl ⟨a, rfl⟩⟩
    | call e k => exact ⟨_, .refl _, .inr ⟨e, k, rfl⟩⟩
    | loop body s k =>
      obtain ⟨q, hq, hcases⟩ := ih _ .loop (twp_step h .loop) rfl
      exact ⟨q, .loop hq, hcases⟩

end Unfolds

/-- `y` is reached from `x`, or comes to it without a call. -/
def Around (sem : Sem E A W) (x y : Prog E A α × W) : Prop := Unfolds y.1 x.1 ∧ y.2 = x.2 ∨ Steps sem x y

namespace Around

variable {x y z : Prog E A α × W} {p q r : Prog E A α} {w v : W} {a : α}

theorem refl (x : Prog E A α × W) : Around sem x x := .inr .refl

theorem steps (h : Around sem x y) (hrun : Steps sem y z) : Around sem x z := by
  rcases h with ⟨h, hw⟩ | h
  · obtain ⟨p, w⟩ := x
    obtain ⟨q, v⟩ := y
    obtain ⟨r, u⟩ := z
    obtain rfl : v = w := hw
    rcases h.steps_cases hrun with h | h
    · exact .inl h
    · exact .inr h
  · exact .inr (h.trans hrun)

theorem unfolds (h : Around sem (p, w) (q, v)) (hr : Unfolds p r) : Around sem (r, w) (q, v) := by
  rcases h with ⟨h, hw⟩ | h
  · exact .inl ⟨h.trans hr, hw⟩
  · exact hr.steps_cases h

theorem of_ret (h : Around sem (.ret a, w) (q, v)) : Unfolds q (.ret a) ∧ v = w := by
  rcases h with h | h
  · exact h
  · obtain ⟨rfl, rfl⟩ := Prod.mk.inj (steps_ret h)
    exact ⟨.refl _, rfl⟩

end Around
end Prog
end Interaction
