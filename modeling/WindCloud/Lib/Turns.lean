import WindCloud.Lib.PrefixCode
import Mathlib.Algebra.Order.Ring.Int
/-!
# Taking turns

Two parties write words to each other. Some words hand the turn over (`hands`), the others leave it where it is. A
party leads by `n` when it has handed over at least `n` times more often than it was handed to (`Leads`), and it waits
like that when it is inside the next word besides (`Waits`).

What one has read is what the other has written, word by word, once nothing is under way. So the leads of two parties
that wait for each other do not add up to anything positive (`Waits.not_both`): a party that waits only when it is
ahead, and one that waits only when it is not behind, never wait for each other.
-/

namespace Interaction

variable {α β : Type} {enc : α → List β} {valid : α → Prop} {hands : α → Bool} {m n : Int} {r s bs : List β} {a : α}

variable (enc valid hands) in
/-- `r` has been read and `s` written, all of it complete words. -/
def Leads (n : Int) (r s : List β) : Prop := ∃ ins outs : List α, (∀ a ∈ ins, valid a) ∧ (∀ a ∈ outs, valid a) ∧
  r = ins.flatMap enc ∧ s = outs.flatMap enc ∧ (ins.countP hands : Int) + n ≤ outs.countP hands

variable (enc valid hands) in
/-- The same, and then a part of the next word has been read. -/
def Waits (n : Int) (r s : List β) : Prop :=
  ∃ r' bs, r = r' ++ bs ∧ Incomplete enc valid bs ∧ Leads enc valid hands n r' s

theorem Leads.nil : Leads enc valid hands 0 [] [] := ⟨[], [], by simp, by simp, rfl, rfl, by simp⟩

theorem Leads.mono (h : Leads enc valid hands n r s) (hm : m ≤ n) : Leads enc valid hands m r s := by
  obtain ⟨ins, outs, hins, houts, hr, hs, hle⟩ := h
  exact ⟨ins, outs, hins, houts, hr, hs, by omega⟩

theorem Leads.waits (h : Leads enc valid hands n r s) (hbs : Incomplete enc valid bs) : Waits enc valid hands n (r ++ bs) s :=
  ⟨r, bs, rfl, hbs, h⟩

/-- Reading a word that hands the turn over costs one. -/
theorem Leads.read (h : Leads enc valid hands n r s) (ha : valid a) :
    Leads enc valid hands (n - (hands a).toNat) (r ++ enc a) s := by
  obtain ⟨ins, outs, hins, houts, rfl, hs, hle⟩ := h
  refine ⟨ins ++ [a], outs, forall_mem_snoc hins ha, houts, by simp, hs, ?_⟩
  rw [List.countP_append, List.countP_singleton]
  cases hands a <;> simp <;> omega

/-- Writing one gains one. -/
theorem Leads.write (h : Leads enc valid hands n r s) (ha : valid a) :
    Leads enc valid hands (n + (hands a).toNat) r (s ++ enc a) := by
  obtain ⟨ins, outs, hins, houts, hr, rfl, hle⟩ := h
  refine ⟨ins, outs ++ [a], hins, forall_mem_snoc houts ha, hr, by simp, ?_⟩
  rw [List.countP_append, List.countP_singleton]
  cases hands a <;> simp <;> omega

/-- **Nobody waits for the other while the other waits**: not when each has read all that was written to it. -/
theorem Waits.not_both (hcode : PrefixCode enc valid) (h : Waits enc valid hands m r s) (h' : Waits enc valid hands n s r)
    (hpos : 0 < m + n) : False := by
  obtain ⟨_, bs, rfl, hbs, ins, outs, hins, houts, rfl, rfl, hle⟩ := h
  obtain ⟨_, bs', hs, hbs', ins', outs', hins', houts', rfl, hr, hle'⟩ := h'
  obtain ⟨rfl, -⟩ := hcode.all_eq hins houts' hbs hr
  obtain ⟨rfl, -⟩ := hcode.all_eq hins' houts hbs' hs.symm
  omega

end Interaction
