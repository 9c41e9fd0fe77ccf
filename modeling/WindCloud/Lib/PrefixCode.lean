import Mathlib.Data.List.Basic
import Mathlib.Data.List.Infix
/-!
# Prefix codes

A code in which no code word starts another one, so that a concatenation of code words can
be cut up in one way only. `valid` singles out the words the code is about.

The lemmas compare two streams of code words, one a prefix of the other: this is what a
reader of a stream knows about its writer (`all_prefix`), and what it knows when it has read
everything (`all_eq`).
-/

namespace Interaction

variable {α β : Type}

/-- No valid word is empty, and none starts another. -/
structure PrefixCode (enc : α → List β) (valid : α → Prop) : Prop where
  ne_nil : ∀ {a}, valid a → enc a ≠ []
  inj : ∀ {a b x y}, valid a → valid b → enc a ++ x = enc b ++ y → a = b

/-- `x` holds no complete code word at its start. -/
def Incomplete (enc : α → List β) (valid : α → Prop) (x : List β) : Prop :=
  ∀ a, valid a → ¬ enc a <+: x

/-- What holds of all words and of one more holds of all with that one at the end. -/
theorem forall_mem_snoc {p : α → Prop} {xs : List α} {a : α} (hxs : ∀ x ∈ xs, p x) (ha : p a) :
    ∀ x ∈ xs ++ [a], p x :=
  List.forall_mem_append.2 ⟨hxs, List.forall_mem_singleton.2 ha⟩

/-- A word that is not among the others is the last one. -/
theorem eq_of_last {xs ys zs : List α} {a b : α} (h : xs ++ [b] = ys ++ a :: zs) (ha : a ∉ xs) :
    xs = ys ∧ a = b ∧ zs = [] := by
  rcases List.eq_nil_or_concat zs with rfl | ⟨zs, z, rfl⟩
  · obtain ⟨hxs, hlast⟩ := List.append_inj' h rfl
    exact ⟨hxs, (List.singleton_inj.1 hlast).symm, rfl⟩
  · rw [List.concat_eq_append, ← List.cons_append, ← List.append_assoc] at h
    have hmem : a ∈ xs := by
      rw [(List.append_inj' h rfl).1]
      simp
    exact absurd hmem ha

namespace PrefixCode

variable {enc : α → List β} {valid : α → Prop} {a b : α} {as bs : List α} {x y : List β}

theorem cons_eq (h : PrefixCode enc valid) (ha : valid a) (hb : valid b)
    (he : enc a ++ x = enc b ++ y) : a = b ∧ x = y := by
  obtain rfl := h.inj ha hb he
  exact ⟨rfl, List.append_cancel_left he⟩

theorem cons_prefix (h : PrefixCode enc valid) (ha : valid a) (hb : valid b)
    (hp : enc a ++ x <+: enc b ++ y) : a = b ∧ x <+: y := by
  obtain ⟨z, hz⟩ := hp
  rw [List.append_assoc] at hz
  obtain ⟨rfl, rfl⟩ := h.cons_eq ha hb hz
  exact ⟨rfl, x.prefix_append z⟩

/-- A word and the remaining stream, against a stream that starts like it. -/
theorem word_prefix (h : PrefixCode enc valid) (ha : valid a) (hb : valid b)
    (hp : enc a <+: enc b ++ y) : a = b := by
  rw [← List.append_nil (enc a)] at hp
  exact (h.cons_prefix ha hb hp).1

/-- What was read is the start of what was written, word by word, however that ends. -/
theorem all_prefix_append (h : PrefixCode enc valid) (has : ∀ a ∈ as, valid a) (hbs : ∀ b ∈ bs, valid b)
    (hy : Incomplete enc valid y) (hp : as.flatMap enc ++ x <+: bs.flatMap enc ++ y) :
    ∃ cs, bs = as ++ cs ∧ x <+: cs.flatMap enc ++ y := by
  induction as generalizing bs with
  | nil => exact ⟨bs, rfl, by simpa using hp⟩
  | cons a as ih =>
    rw [List.forall_mem_cons] at has
    simp only [List.flatMap_cons, List.append_assoc] at hp
    cases bs with
    | nil => exact absurd ((List.prefix_append _ _).trans hp) (hy a has.1)
    | cons b bs =>
      rw [List.forall_mem_cons] at hbs
      simp only [List.flatMap_cons, List.append_assoc] at hp
      obtain ⟨rfl, hp'⟩ := h.cons_prefix has.1 hbs.1 hp
      obtain ⟨cs, rfl, hx⟩ := ih has.2 hbs.2 hp'
      exact ⟨cs, rfl, hx⟩

theorem incomplete_nil (h : PrefixCode enc valid) : Incomplete enc valid [] := fun _ ha hp =>
  h.ne_nil ha (List.prefix_nil.1 hp)

theorem all_prefix (h : PrefixCode enc valid) (has : ∀ a ∈ as, valid a) (hbs : ∀ b ∈ bs, valid b)
    (hp : as.flatMap enc ++ x <+: bs.flatMap enc) : ∃ cs, bs = as ++ cs ∧ x <+: cs.flatMap enc := by
  simpa using h.all_prefix_append has hbs h.incomplete_nil (by simpa using hp)

/-- A reader with no complete word left has read every word. -/
theorem all_eq (h : PrefixCode enc valid) (has : ∀ a ∈ as, valid a) (hbs : ∀ b ∈ bs, valid b)
    (hx : Incomplete enc valid x) (he : as.flatMap enc ++ x = bs.flatMap enc) : as = bs ∧ x = [] := by
  have hp : as.flatMap enc ++ x <+: bs.flatMap enc := by rw [he]
  obtain ⟨cs, rfl, -⟩ := h.all_prefix has hbs hp
  rw [List.flatMap_append] at he
  have hxc := List.append_cancel_left he
  cases cs with
  | nil => exact ⟨by simp, by simpa using hxc⟩
  | cons c cs =>
    refine absurd ?_ (hx c (hbs c (by simp)))
    rw [hxc, List.flatMap_cons]
    exact List.prefix_append _ _

end PrefixCode
end Interaction
