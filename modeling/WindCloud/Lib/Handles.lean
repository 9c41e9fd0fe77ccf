import WindCloud.Lib.Prog
import Mathlib.Order.BooleanAlgebra.Set
/-!
# Handles that are given back

Some calls answer with a handle, some give one back. `Handling` says which, and `Handling.sem` is what
they do to the set of open handles. A program that gives back its handles in the reverse order
carries them as a stack: `Frees held p` says that `p`, with `held` open on top of some `s`, gives back
exactly these, closing each once and nothing else (`Owned`). The rules follow the stack: a call that
answers with a handle pushes it, one that closes the top pops it.

`Frees.returns` and `Frees.closes` bring this to any semantics in which the calls do that to the handles.
-/

namespace Interaction

open Prog

/-- Which calls answer with a handle, and which give one back. -/
structure Handling (E : Type) (A : E → Type) (H : Type) where
  acquires : (e : E) → A e → Option H
  releases : E → Option H

namespace Handling

variable {E : Type} {A : E → Type} {H W α β σ : Type}

/-- What a call does to the open handles; a handle it answers with was not open. -/
def sem (hd : Handling E A H) : Sem E A (Set H) := fun s e r s' =>
  match hd.acquires e r, hd.releases e with
  | some h, _ => h ∉ s ∧ s' = insert h s
  | none, some h => s' = s \ {h}
  | none, none => s' = s

/-- What is given back is open, and was not open in `s`. -/
def Owned (hd : Handling E A H) (s t : Set H) (e : E) : Prop := ∀ h, hd.releases e = some h → h ∈ t ∧ h ∉ s

/-- A call that has to do with no handle, but perhaps uses one. -/
def Idle (hd : Handling E A H) (e : E) : Prop := (∀ r, hd.acquires e r = none) ∧ hd.releases e = none

/-- `t` is `s` with the handles of a stack opened one after the other. -/
def Stacked (s : Set H) : List H → Set H → Prop
  | [], t => t = s
  | h :: held, t => ∃ u, Stacked s held u ∧ h ∉ u ∧ t = insert h u

theorem Stacked.subset {s t : Set H} {held : List H} (h : Stacked s held t) : s ⊆ t := by
  induction held generalizing t with
  | nil => exact h.ge
  | cons a held ih =>
    obtain ⟨u, hu, -, rfl⟩ := h
    exact (ih hu).trans (Set.subset_insert a u)

variable (hd : Handling E A H)

/-- With `held` open on top of `s`, `p` gives them back, each once. -/
def Frees (held : List H) (p : Prog E A α) : Prop :=
  ∀ s t, Stacked s held t → wp hd.sem (hd.Owned s) p (fun _ t => t = s) t

variable {hd} {held : List H}

theorem sem_idle {e : E} {r : A e} {s s' : Set H} (he : hd.Idle e) (h : hd.sem s e r s') : s' = s := by
  simpa only [sem, he.1 r, he.2] using h

theorem Frees.ret (a : α) : hd.Frees [] (.ret a : Prog E A α) := fun _ _ h => h

/-- A stretch that leaves the handles. -/
theorem Frees.after {p : Prog E A α} {f : α → Prog E A β} {R : α → Prop} (hp : every hd.Idle p R)
    (hf : ∀ a, R a → hd.Frees held (f a)) : hd.Frees held (p >>= f) := by
  intro s t hst
  have hstay : wp hd.sem (hd.Owned s) p (fun a t' => R a ∧ t' = t) t := by
    refine every_wp hp rfl ?_ ?_
    · intro _ e he _ h hh
      rw [he.2] at hh
      cases hh
    · rintro _ e r t' he hs rfl
      exact sem_idle he hs
  refine wp_bind.2 (wp_mono hstay ?_)
  rintro a _ ⟨ha, rfl⟩
  exact hf a ha s _ hst

theorem Frees.of_every {p : Prog E A α} {R : α → Prop} (hp : every hd.Idle p R) : hd.Frees [] p := by
  rw [← bind_ret p]
  exact Frees.after hp fun a _ => .ret a

theorem Frees.idle {e : E} {k : A e → Prog E A α} (he : hd.Idle e) (hk : ∀ r, hd.Frees held (k r)) :
    hd.Frees held (perform e >>= k) :=
  Frees.after (R := fun _ => True) ⟨he, fun _ _ _ => trivial⟩ fun r _ => hk r

/-- A call that may answer with a handle. -/
theorem Frees.acquire {e : E} {k : A e → Prog E A α} (he : hd.releases e = none)
    (hk : ∀ r, match hd.acquires e r with
      | some h => hd.Frees (h :: held) (k r)
      | none => hd.Frees held (k r)) : hd.Frees held (perform e >>= k) := by
  intro s t hst
  refine ⟨fun h hh => ?_, fun r t' hs => ?_⟩
  · rw [he] at hh
    cases hh
  · have hr := hk r
    unfold sem at hs
    rcases ha : hd.acquires e r with _ | h
    · simp only [ha, he] at hs hr
      exact hs ▸ hr s t hst
    · simp only [ha] at hs hr
      obtain ⟨hnew, rfl⟩ := hs
      exact hr s _ ⟨t, hst, hnew, rfl⟩

/-- Giving back the top of the stack. -/
theorem Frees.release {e : E} {k : A e → Prog E A α} {h : H} (he : hd.releases e = some h)
    (ha : ∀ r, hd.acquires e r = none) (hk : ∀ r, hd.Frees held (k r)) : hd.Frees (h :: held) (perform e >>= k) := by
  rintro s t ⟨u, hu, hnew, rfl⟩
  refine ⟨fun h' hh => ?_, fun r t' hs => ?_⟩
  · obtain rfl : h = h' := Option.some.inj (he.symm.trans hh)
    exact ⟨Set.mem_insert h u, fun hs => hnew (hu.subset hs)⟩
  · simp only [sem, ha r, he] at hs
    have ht : t' = u := hs.trans (Set.insert_sdiff_self_of_notMem hnew)
    exact ht ▸ hk r s u hu

/-! ## In a given semantics -/

section Runs

variable {sem : Sem E A W} (handles : W → Set H) {p : Prog E A α} {w w' : W}

/-- What was open when it began is open when it returns, and nothing else. -/
theorem Frees.returns (hp : hd.Frees [] p) (hsem : ∀ w e r w', sem w e r w' → hd.sem (handles w) e r (handles w'))
    {a : α} (hs : Steps sem (p, w) (.ret a, w')) : handles w' = handles w := by
  obtain ⟨_, hrun, rfl⟩ := steps_sim (R := fun w t => t = handles w)
    (fun _ _ _ _ _ h ht => ⟨_, ht ▸ hsem _ _ _ _ h, rfl⟩) hs rfl
  have hwp := wp_result (hp (handles w) (handles w) rfl) hrun
  exact hwp

/-- What it gives back is open, and it has opened it itself. -/
theorem Frees.closes (hp : hd.Frees [] p) (hsem : ∀ w e r w', sem w e r w' → hd.sem (handles w) e r (handles w'))
    {e : E} {k : A e → Prog E A α} {h : H} (hs : Steps sem (p, w) (.call e k, w')) (he : hd.releases e = some h) :
    h ∈ handles w' ∧ h ∉ handles w := by
  obtain ⟨_, hrun, rfl⟩ := steps_sim (R := fun w t => t = handles w)
    (fun _ _ _ _ _ h ht => ⟨_, ht ▸ hsem _ _ _ _ h, rfl⟩) hs rfl
  exact wp_check (hp (handles w) (handles w) rfl) hrun h he

end Runs

end Handling
end Interaction
