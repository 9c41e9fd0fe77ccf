import Mathlib.Data.List.Count
import Mathlib.Algebra.GroupWithZero.Nat
/-!
# Counting under an update

How the number of entries that satisfy a test changes when one entry of a list is replaced, as
equations without subtraction: what an invariant that counts threads or slots needs of one step.
-/

namespace Counting

variable {α : Type} {l : List α} {a b : α}

theorem countP_cons_toNat {p : α → Bool} : (a :: l).countP p = l.countP p + (p a).toNat := by
  rw [List.countP_cons]
  cases p a <;> rfl

theorem countP_set_add {p : α → Bool} {i : Nat} (h : l[i]? = some a) :
    (l.set i b).countP p + (p a).toNat = l.countP p + (p b).toNat := by
  induction l generalizing i with
  | nil => simp at h
  | cons c l ih =>
    cases i with
    | zero =>
      obtain rfl : c = a := by simpa using h
      simp only [List.set_cons_zero, countP_cons_toNat]
      omega
    | succ i =>
      have := ih (i := i) (by simpa using h)
      simp only [List.set_cons_succ, countP_cons_toNat]
      omega

theorem sum_map_set_add {f : α → Nat} {i : Nat} (h : l[i]? = some a) :
    ((l.set i b).map f).sum + f a = (l.map f).sum + f b := by
  induction l generalizing i with
  | nil => simp at h
  | cons c l ih =>
    cases i with
    | zero =>
      obtain rfl : c = a := by simpa using h
      simp only [List.set_cons_zero, List.map_cons, List.sum_cons]
      omega
    | succ i =>
      have := ih (i := i) (by simpa using h)
      simp only [List.set_cons_succ, List.map_cons, List.sum_cons]
      omega

theorem sum_map_toNat (p : α → Bool) (l : List α) : (l.map fun a => (p a).toNat).sum = l.countP p := by
  induction l with
  | nil => rfl
  | cons a l ih =>
    rw [List.map_cons, List.sum_cons, ih, countP_cons_toNat, Nat.add_comm]

/-- An entry is counted. -/
theorem countP_pos {p : α → Bool} (h : a ∈ l) (ha : p a = true) : 0 < l.countP p :=
  List.countP_pos_iff.2 ⟨a, h, ha⟩

theorem countP_eq_zero {p : α → Bool} (h : ∀ a ∈ l, p a = false) : l.countP p = 0 :=
  List.countP_eq_zero.2 fun a ha => by simp [h a ha]

section Count

variable [DecidableEq α] {v : α}

theorem count_cons_toNat : (a :: l).count v = l.count v + (a == v).toNat := countP_cons_toNat

/-- The first `a` replaced by `b`. -/
theorem count_replace_add (h : a ∈ l) : (l.replace a b).count v + (a == v).toNat = l.count v + (b == v).toNat := by
  induction l with
  | nil => cases h
  | cons c l ih =>
    by_cases hca : a = c
    · subst hca
      simp only [List.replace_cons_self, count_cons_toNat]
      omega
    · have hmem : a ∈ l := (List.mem_cons.1 h).resolve_left hca
      have hrep : (c :: l).replace a b = c :: l.replace a b := by
        rw [List.replace_cons, beq_eq_false_iff_ne.2 hca]
      have := ih hmem
      simp only [hrep, count_cons_toNat]
      omega

end Count
end Counting
