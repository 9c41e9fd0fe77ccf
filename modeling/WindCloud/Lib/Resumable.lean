import Mathlib.Data.List.Infix
import Mathlib.Logic.Relation
/-!
# Resuming a transfer by length

A receiver that holds `C` and is to be given `F` asks only for what lies past its length, and
for everything if it holds more than there is. `Resumed F C C' done` is one transfer: it may
stop after any part; `done` says it has come to the end.

Nothing compares what is held with `F`. A transfer that is done gives `F` exactly when nothing
was kept or what was kept starts `F` (`result_eq_iff`); a receiver that only ever holds starts
of `F` converges (`converges`).
-/

namespace Resumable

variable {α : Type}

/-- Where the transfer starts. -/
def start (F C : List α) : Nat := if C.length ≤ F.length then C.length else 0

/-- What is kept of `C`. -/
def base (F C : List α) : List α := if C.length ≤ F.length then C else []

/-- What a completed transfer leaves. -/
def result (F C : List α) : List α := base F C ++ F.drop (base F C).length

/-- One transfer. -/
structure Resumed (F C C' : List α) (done : Prop) : Prop where
  stored : C' = C ∨ ∃ D, D <+: F.drop (base F C).length ∧ C' = base F C ++ D
  complete : done → C' = result F C

variable {F C C' : List α} {done : Prop}

theorem base_of_le (h : C.length ≤ F.length) : base F C = C := if_pos h

theorem base_of_gt (h : F.length < C.length) : base F C = [] := if_neg (by omega)

theorem base_of_start (h : C <+: F) : base F C = C := base_of_le h.length_le

theorem base_eq_take (F C : List α) : base F C = C.take (start F C) := by
  unfold base start
  split <;> simp

theorem length_base (F C : List α) : (base F C).length = start F C := by
  unfold base start
  split <;> rfl

/-- A list that starts another, and what lies behind it there. -/
theorem append_start {l a b : List α} (ha : a <+: l) (hb : b <+: l.drop a.length) : a ++ b <+: l := by
  obtain ⟨t, rfl⟩ := ha
  rw [List.drop_left] at hb
  exact (List.prefix_append_right_inj a).2 hb

theorem append_drop {l a : List α} (ha : a <+: l) : a ++ l.drop a.length = l := by
  obtain ⟨t, rfl⟩ := ha
  rw [List.drop_left]

theorem result_of_prefix (h : C <+: F) : result F C = F := by
  rw [result, base_of_start h, append_drop h]

/-- **Exactness**: the result is `F` if and only if `C` is longer than `F` or starts it. -/
theorem result_eq_iff : result F C = F ↔ F.length < C.length ∨ C <+: F := by
  constructor
  · intro h
    rcases Nat.lt_or_ge F.length C.length with hlt | hle
    · exact .inl hlt
    · rw [result, base_of_le hle] at h
      exact .inr (h ▸ List.prefix_append _ _)
  · rintro (h | h)
    · rw [result, base_of_gt h]
      rfl
    · exact result_of_prefix h

/-- A transfer keeps starts of `F`, and loses nothing. -/
theorem Resumed.keeps (h : Resumed F C C' done) (hC : C <+: F) : C' <+: F ∧ C.length ≤ C'.length := by
  obtain rfl | ⟨D, hD, rfl⟩ := h.stored
  · exact ⟨hC, Nat.le_refl _⟩
  · rw [base_of_start hC] at hD ⊢
    exact ⟨append_start hC hD, by simp⟩

/-- Where a completed transfer would give `F`, it still does after one that is not. -/
theorem Resumed.exact (h : Resumed F C C' done) (hC : result F C = F) : result F C' = F := by
  obtain rfl | ⟨D, hD, rfl⟩ := h.stored
  · exact hC
  · have hbase : base F C <+: F := by
      rw [result] at hC
      exact ⟨_, hC⟩
    exact result_of_prefix (append_start hbase hD)

/-- A property of what is held that every transfer keeps, any number of them keeps. -/
theorem Resumed.keeps_all {I : List α → Prop} {C₀ C₁ : List α}
    (hI : ∀ {C C' done}, Resumed F C C' done → I C → I C') (h0 : I C₀)
    (hs : Relation.ReflTransGen (fun C C' => ∃ done, Resumed F C C' done) C₀ C₁) : I C₁ := by
  induction hs with
  | refl => exact h0
  | tail _ hs ih =>
    obtain ⟨_, hs⟩ := hs
    exact hI hs ih

/-- **Convergence**: after any number of transfers, and after one more. -/
theorem converges {C₀ C₁ : List α} (h0 : C₀ <+: F)
    (hs : Relation.ReflTransGen (fun C C' => ∃ done, Resumed F C C' done) C₀ C₁)
    (h : Resumed F C₁ C' done) : C' <+: F ∧ C₁.length ≤ C'.length ∧ (done → C' = F) := by
  have h1 : C₁ <+: F := Resumed.keeps_all (I := fun C => C <+: F) (fun h hC => (h.keeps hC).1) h0 hs
  exact ⟨(h.keeps h1).1, (h.keeps h1).2, fun hd => by rw [h.complete hd, result_of_prefix h1]⟩

/-- **Exactness**: so too from something longer than `F`, at the end. -/
theorem converges_exact {C₀ C₁ : List α} (h0 : C₀ <+: F ∨ F.length < C₀.length)
    (hs : Relation.ReflTransGen (fun C C' => ∃ done, Resumed F C C' done) C₀ C₁)
    (h : Resumed F C₁ C' done) (hd : done) : C' = F := by
  have h1 : result F C₁ = F :=
    Resumed.keeps_all (I := fun C => result F C = F) (fun h hC => h.exact hC) (result_eq_iff.2 h0.symm) hs
  rw [h.complete hd, h1]

end Resumable
