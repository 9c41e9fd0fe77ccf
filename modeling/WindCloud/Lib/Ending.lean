import WindCloud.Lib.Acts
import Mathlib.Data.Nat.Find
import Mathlib.Logic.Function.Basic
/-!
# Runs that come to an end

An infinite run is a sequence of states. One that goes on or stays where it is, along a relation under which its start is
accessible, stays in the end (`settles`). A family of parts, of which one at a time goes on, is accessible where its
parts are (`acc_family`).
-/

namespace Interaction

variable {S κ : Type*} {R : S → S → Prop}

/-- In the end nothing goes on any more. -/
theorem settles {f : Nat → S} (h : Acc R (f 0)) (hf : ∀ n, f (n + 1) = f n ∨ R (f (n + 1)) (f n)) :
    ∃ N, ∀ n, N ≤ n → ¬ R (f (n + 1)) (f n) := by
  generalize hs : f 0 = s at h
  induction h generalizing f with
  | intro s _ ih =>
    subst hs
    by_cases hstays : ∀ n, ¬ R (f (n + 1)) (f n)
    · exact ⟨0, fun n _ => hstays n⟩
    -- the first time it goes on
    classical
    have hgo : ∃ n, R (f (n + 1)) (f n) := by simpa using hstays
    have hsame {n : Nat} (hn : n ≤ Nat.find hgo) : f n = f 0 := by
      induction n with
      | zero => rfl
      | succ n ihn => exact ((hf n).resolve_right (Nat.find_min hgo hn)).trans (ihn (Nat.le_of_succ_le hn))
    have hfirst : R (f (Nat.find hgo + 1)) (f 0) := hsame le_rfl ▸ Nat.find_spec hgo
    obtain ⟨N, hN⟩ := ih _ hfirst (f := fun n => f (Nat.find hgo + 1 + n)) (fun n => hf _) rfl
    refine ⟨Nat.find hgo + 1 + N, fun n hn => ?_⟩
    obtain ⟨m, rfl⟩ := Nat.exists_eq_add_of_le (Nat.le_of_add_right_le hn)
    exact hN m (by omega)

/-- One of the parts in `is` goes on. -/
def Goes [DecidableEq κ] (R : S → S → Prop) (is : List κ) (g f : κ → S) : Prop :=
  ∃ i ∈ is, ∃ s, R s (f i) ∧ g = Function.update f i s

theorem acc_family [DecidableEq κ] {is : List κ} {f : κ → S} (h : ∀ i ∈ is, Acc R (f i)) : Acc (Goes R is) f := by
  induction is generalizing f with
  | nil => exact ⟨_, by rintro g ⟨i, hi, -⟩; cases hi⟩
  | cons i is ih =>
    -- a part that goes on leaves the others accessible
    have hkeep {f : κ → S} {j : κ} {s : S} (hf : ∀ i ∈ is, Acc R (f i)) (hs : R s (f j)) :
        ∀ i ∈ is, Acc R (Function.update f j s i) := by
      intro i hi
      by_cases hij : i = j
      · subst hij
        rw [Function.update_self]
        exact (hf i hi).inv hs
      · rw [Function.update_of_ne hij]
        exact hf i hi
    obtain ⟨hi, his⟩ := List.forall_mem_cons.1 h
    clear h
    generalize hs : f i = s at hi
    induction hi generalizing f with
    | intro s _ ihs =>
      have hrest := ih his
      induction hrest with
      | intro f _ ihf =>
        subst hs
        refine ⟨_, ?_⟩
        rintro g ⟨j, hj, t, ht, rfl⟩
        by_cases hij : i = j
        · subst hij
          exact ihs t ht (hkeep his ht) (Function.update_self ..)
        · have hj := (List.mem_cons.1 hj).resolve_left (Ne.symm hij)
          exact ihf _ ⟨j, hj, t, ht, rfl⟩ (hkeep his ht) (Function.update_of_ne hij ..)

/-- Where no run goes on for ever and none is stuck short of the goal, one comes to it. -/
theorem Runs.reaches {A : Type*} {step : S → A → S → Prop} {goal : S → Prop} {s : S}
    (hgo : ∀ acts t, Runs step s acts t → ¬ goal t → ∃ a u, step t a u)
    (hends : ∀ (f : Nat → S) (g : Nat → A), f 0 = s → ¬ ∀ n, step (f n) (g n) (f (n + 1))) :
    ∃ acts t, Runs step s acts t ∧ goal t := by
  by_contra hnone
  -- every state that it comes to has a next one
  have hnext (t : { t // ∃ acts, Runs step s acts t }) :
      ∃ p : A × { t // ∃ acts, Runs step s acts t }, step t.1 p.1 p.2.1 := by
    obtain ⟨t, acts, ht⟩ := t
    obtain ⟨a, u, hstep⟩ := hgo acts t ht fun hgoal => hnone ⟨acts, t, ht, hgoal⟩
    exact ⟨⟨a, u, acts ++ [a], ht.snoc hstep⟩, hstep⟩
  choose next hnext using hnext
  let f : Nat → { t // ∃ acts, Runs step s acts t } := fun n => n.rec ⟨s, [], .nil⟩ fun _ t => (next t).2
  exact hends (fun n => (f n).1) (fun n => (next (f n)).1) rfl fun n => hnext (f n)

end Interaction
