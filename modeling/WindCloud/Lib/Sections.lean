import Mathlib.Logic.Relation
/-!
# Critical sections

Threads that share a state and one lock. Under the lock a thread goes on in small steps, and the others come in between
with all they do without it (`Sections.Step`). In the coarse system a whole section is one step (`Sections.Coarse`).

`Atomic.reduces` is why the coarse system is enough: a step from outside that comes in the middle of a section is moved in
front of it. For this the steps of a section have to commute with what the others do outside (`Atomic.commutes`), up to
an equivalence that no step can tell.
-/

namespace Interaction

open Relation

/-- `out i` is what thread `i` does without the lock. It begins a section where `enter i` says, and `inside i` are the
steps of it, each with its place in the code, up to `leave i`. -/
structure Sections (ι S L : Type*) where
  out : ι → S → S → Prop
  enter : ι → S → L → Prop
  inside : ι → L × S → L × S → Prop
  leave : ι → L → S → S → Prop

namespace Sections

variable {ι S L : Type*} {M : Sections ι S L} {R : S → S → Prop} {Good : S → Prop} {i j : ι} {l l' l₀ : L}
  {s s' s₀ t : S} {lock : Option (ι × L)}

/-- The state comes with the thread that holds the lock, and its place. -/
inductive Step (M : Sections ι S L) : S × Option (ι × L) → S × Option (ι × L) → Prop
  | out {i : ι} {s s' : S} {lock : Option (ι × L)} (h : M.out i s s') (hout : ∀ l, lock ≠ some (i, l)) :
      Step M (s, lock) (s', lock)
  | enter {i : ι} {s : S} {l : L} (h : M.enter i s l) : Step M (s, none) (s, some (i, l))
  | inside {i : ι} {s s' : S} {l l' : L} (h : M.inside i (l, s) (l', s')) : Step M (s, some (i, l)) (s', some (i, l'))
  | leave {i : ι} {s s' : S} {l : L} (h : M.leave i l s s') : Step M (s, some (i, l)) (s', none)

/-- A section at once. -/
inductive Coarse (M : Sections ι S L) : S → S → Prop
  | out {i : ι} {s s' : S} (h : M.out i s s') : Coarse M s s'
  | whole {i : ι} {s s' s'' : S} {l l' : L} (henter : M.enter i s l) (hinside : ReflTransGen (M.inside i) (l, s) (l', s'))
      (hleave : M.leave i l' s' s'') : Coarse M s s''

theorem Coarse.run (h : M.Coarse s t) : ReflTransGen M.Step (s, none) (t, none) := by
  cases h with
  | out h => exact .single (.out h nofun)
  | @whole i _ s' _ l l' henter hinside hleave =>
    have hpath {c : L × S} (hc : ReflTransGen (M.inside i) (l, s) c) :
        ReflTransGen M.Step (s, some (i, l)) (c.2, some (i, c.1)) := by
      induction hc with
      | refl => exact .refl
      | tail _ hs ih => exact ih.tail (.inside hs)
    exact .head (.enter henter) ((hpath hinside).tail (.leave hleave))

/-- What makes the sections atomic. `R` is the equivalence, and `Good` what is known of the states between sections. -/
structure Atomic (M : Sections ι S L) (R : S → S → Prop) (Good : S → Prop) : Prop where
  equiv : Equivalence R
  out : ∀ {i s s' t}, R s t → M.out i s s' → ∃ t', M.out i t t' ∧ R s' t'
  enter : ∀ {i s l t}, R s t → M.enter i s l → M.enter i t l
  inside : ∀ {i l l' s s' t}, R s t → M.inside i (l, s) (l', s') → ∃ t', M.inside i (l, t) (l', t') ∧ R s' t'
  leave : ∀ {i l s s' t}, R s t → M.leave i l s s' → ∃ t', M.leave i l t t' ∧ R s' t'
  stable : ∀ {i j s s' l}, Good s → M.enter i s l → M.out j s s' → j ≠ i → M.enter i s' l
  commutes : ∀ {i j l₀ l l' s₀ s s' u}, Good s₀ → M.enter i s₀ l₀ → ReflTransGen (M.inside i) (l₀, s₀) (l, s) →
    M.inside i (l, s) (l', s') → M.out j s' u → j ≠ i → ∃ v u', M.out j s v ∧ M.inside i (l, v) (l', u') ∧ R u' u

/-- The section that is open in the fine state begins in `t`. -/
def Stands (M : Sections ι S L) (R : S → S → Prop) (t : S) (c : S × Option (ι × L)) : Prop :=
  (c.2 = none → R t c.1) ∧
    ∀ i l, c.2 = some (i, l) → ∃ l₀ s, M.enter i t l₀ ∧ ReflTransGen (M.inside i) (l₀, t) (l, s) ∧ R s c.1

theorem stands_none : M.Stands R t (s, none) ↔ R t s :=
  ⟨fun h => h.1 rfl, fun h => ⟨fun _ => h, nofun⟩⟩

theorem stands_some : M.Stands R t (s, some (i, l)) ↔
    ∃ l₀ s', M.enter i t l₀ ∧ ReflTransGen (M.inside i) (l₀, t) (l, s') ∧ R s' s := by
  refine ⟨fun h => h.2 i l rfl, fun h => ⟨nofun, ?_⟩⟩
  rintro _ _ ⟨⟩
  exact h

/-- A step from outside moves to the front of the section. -/
theorem Atomic.moves (h : Atomic M R Good) (hgood : Good t) (henter : M.enter i t l₀)
    (hinside : ReflTransGen (M.inside i) (l₀, t) (l, s)) (hout : M.out j s s') (hne : j ≠ i) :
    ∃ t' u, M.out j t t' ∧ ReflTransGen (M.inside i) (l₀, t') (l, u) ∧ R u s' := by
  generalize hc : (l, s) = c at hinside
  induction hinside generalizing l s s' with
  | refl =>
    cases hc
    exact ⟨s', s', hout, .refl, h.equiv.refl s'⟩
  | @tail b _ hprev hs ih =>
    subst hc
    obtain ⟨l₁, s₁⟩ := b
    obtain ⟨v, u, hv, hu, heq⟩ := h.commutes hgood henter hprev hs hout hne
    obtain ⟨t', v', ht', hpath, hv'⟩ := ih hv rfl
    obtain ⟨u', hu', heq'⟩ := h.inside (h.equiv.symm hv') hu
    exact ⟨t', u', ht', hpath.tail hu', h.equiv.trans (h.equiv.symm heq') heq⟩

/-- **Sections are atomic**: what the threads come to in small steps they come to with whole sections, except for the
section that somebody is in, which has begun and gone on as if he were alone. -/
theorem Atomic.reduces (h : Atomic M R Good) (hgood : ∀ t, ReflTransGen M.Coarse s₀ t → Good t)
    (hrun : ReflTransGen M.Step (s₀, none) (s, lock)) : ∃ t, ReflTransGen M.Coarse s₀ t ∧ M.Stands R t (s, lock) := by
  generalize hc : (s, lock) = c at hrun ⊢
  clear hc
  induction hrun with
  | refl => exact ⟨s₀, .refl, stands_none.2 (h.equiv.refl s₀)⟩
  | tail _ hs ih =>
    obtain ⟨t, ht, hstands⟩ := ih
    cases hs with
    | @out j s s' lock hout hfree =>
      rcases lock with _ | ⟨i, l⟩
      · obtain ⟨t', ht', heq⟩ := h.out (h.equiv.symm (stands_none.1 hstands)) hout
        exact ⟨t', ht.tail (.out ht'), stands_none.2 (h.equiv.symm heq)⟩
      · have hne : j ≠ i := by
          rintro rfl
          exact hfree l rfl
        obtain ⟨l₀, s₁, henter, hinside, heq⟩ := stands_some.1 hstands
        obtain ⟨s₂, hs₂, heq₂⟩ := h.out (h.equiv.symm heq) hout
        obtain ⟨t', u, ht', hpath, hu⟩ := h.moves (hgood t ht) henter hinside hs₂ hne
        exact ⟨t', ht.tail (.out ht'), stands_some.2
          ⟨l₀, u, h.stable (hgood t ht) henter ht' hne, hpath, h.equiv.trans hu (h.equiv.symm heq₂)⟩⟩
    | @enter i s l henter =>
      have heq := stands_none.1 hstands
      exact ⟨t, ht, stands_some.2 ⟨l, t, h.enter (h.equiv.symm heq) henter, .refl, heq⟩⟩
    | @inside i s s' l l' hin =>
      obtain ⟨l₀, s₁, henter, hinside, heq⟩ := stands_some.1 hstands
      obtain ⟨s₂, hs₂, heq₂⟩ := h.inside (h.equiv.symm heq) hin
      exact ⟨t, ht, stands_some.2 ⟨l₀, s₂, henter, hinside.tail hs₂, h.equiv.symm heq₂⟩⟩
    | @leave i s s' l hleave =>
      obtain ⟨l₀, s₁, henter, hinside, heq⟩ := stands_some.1 hstands
      obtain ⟨s₂, hs₂, heq₂⟩ := h.leave (h.equiv.symm heq) hleave
      exact ⟨s₂, ht.tail (.whole henter hinside hs₂), stands_none.2 (h.equiv.symm heq₂)⟩

/-- While thread `i` holds the lock: `n` steps of its section, and what the others do in between. -/
inductive Held (M : Sections ι S L) (i : ι) (c : L × S) : Nat → L × S → Prop
  | refl : Held M i c 0 c
  | inside {n : Nat} {l l' : L} {s s' : S} (h : Held M i c n (l, s)) (hs : M.inside i (l, s) (l', s')) :
      Held M i c (n + 1) (l', s')
  | out {j : ι} {n : Nat} {l : L} {s s' : S} (h : Held M i c n (l, s)) (hs : M.out j s s') (hne : j ≠ i) :
      Held M i c n (l, s')

theorem Held.run (h : M.Held i c n c') : ReflTransGen M.Step (c.2, some (i, c.1)) (c'.2, some (i, c'.1)) := by
  induction h with
  | refl => exact .refl
  | inside _ hs ih => exact ih.tail (.inside hs)
  | out _ hs hne ih =>
    refine ih.tail (.out hs fun l hl => hne ?_)
    exact (Prod.mk.inj (Option.some.inj hl)).1.symm

/-- A section that comes closer to its end with every step, and that nobody else sets back, ends. -/
theorem Held.bounded (Φ : L × S → Nat) (h : M.Held i c n c') (hinside : ∀ c c', M.inside i c c' → Φ c' < Φ c)
    (hout : ∀ j l s s', M.out j s s' → Φ (l, s') = Φ (l, s)) : n + Φ c' ≤ Φ c := by
  induction h with
  | refl => simp
  | inside _ hs ih =>
    have := hinside _ _ hs
    omega
  | out _ hs _ ih => rwa [hout _ _ _ _ hs]

end Sections
end Interaction
