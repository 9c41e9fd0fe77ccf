import Mathlib.Logic.Function.Basic
import Mathlib.Data.List.Nodup
import Mathlib.Logic.Relation
/-!
# Singly linked chains in a heap

A heap gives an address its cell, or nothing. `Chain heap p cells` says that from the pointer `p`
on the heap holds the cells listed, address and value, and then the end. `Reaches` follows the pointers;
a chain is closed under it (`chain_reaches`). The two changes a queue makes are a cell hung behind the
last one (`chain_snoc`) and a first cell given back (`chain_erase`).
-/

namespace Linked

/-- A cell: its value and the pointer to the next one. -/
structure Cell (α : Type) where
  val : α
  next : Option Nat
deriving DecidableEq, Repr

abbrev Heap (α : Type) := Nat → Option (Cell α)

variable {α : Type} {heap heap' : Heap α} {p : Option Nat} {cells : List (Nat × α)}

def Chain (heap : Heap α) : Option Nat → List (Nat × α) → Prop
  | p, [] => p = none
  | p, (a, v) :: cells => p = some a ∧ ∃ next, heap a = some ⟨v, next⟩ ∧ Chain heap next cells

/-- The first `n` values from `p` on. -/
def walk (heap : Heap α) : Nat → Option Nat → List α
  | 0, _ => []
  | _ + 1, none => []
  | n + 1, some a =>
    match heap a with
    | none => []
    | some cell => cell.val :: walk heap n cell.next

theorem walk_chain (h : Chain heap p cells) : walk heap cells.length p = cells.map Prod.snd := by
  induction cells generalizing p with
  | nil => rfl
  | cons c cells ih =>
    obtain ⟨rfl, next, hc, hrest⟩ := h
    simp only [List.length_cons, walk, hc, ih hrest, List.map_cons]

/-- A chain depends on its own cells only. -/
theorem chain_congr (h : Chain heap p cells) (heq : ∀ c ∈ cells, heap' c.1 = heap c.1) : Chain heap' p cells := by
  induction cells generalizing p with
  | nil => exact h
  | cons c cells ih =>
    obtain ⟨hp, next, hc, hrest⟩ := h
    rw [List.forall_mem_cons] at heq
    exact ⟨hp, next, by rw [heq.1, hc], ih hrest heq.2⟩

theorem chain_mem (h : Chain heap p cells) {c : Nat × α} (hc : c ∈ cells) :
    ∃ next, heap c.1 = some ⟨c.2, next⟩ := by
  induction cells generalizing p with
  | nil => cases hc
  | cons d cells ih =>
    obtain ⟨-, next, hd, hrest⟩ := h
    rcases List.mem_cons.1 hc with rfl | hc
    · exact ⟨next, hd⟩
    · exact ih hrest hc

/-- The last cell has no next one. -/
theorem chain_last {e : Nat} {w : α} (h : Chain heap p (cells ++ [(e, w)])) : heap e = some ⟨w, none⟩ := by
  induction cells generalizing p with
  | nil =>
    obtain ⟨-, next, he, hend⟩ := h
    obtain rfl : next = none := hend
    exact he
  | cons c cells ih =>
    obtain ⟨-, next, -, hrest⟩ := h
    exact ih hrest

/-! ## What can be reached -/

/-- `b` is found from `a` by following pointers. -/
def Reaches (heap : Heap α) : Nat → Nat → Prop :=
  Relation.ReflTransGen fun a b => ∃ v, heap a = some ⟨v, some b⟩

/-- Nothing is found from an address without a cell. -/
theorem reaches_of_none {a b : Nat} (ha : heap a = none) (h : Reaches heap a b) : b = a := by
  rcases Relation.ReflTransGen.cases_head h with rfl | ⟨c, ⟨v, hv⟩, -⟩
  · rfl
  · rw [ha] at hv
    cases hv

theorem chain_next {a b : Nat} {v : α} (h : Chain heap p cells) (ha : a ∈ cells.map Prod.fst)
    (hab : heap a = some ⟨v, some b⟩) : b ∈ cells.map Prod.fst := by
  induction cells generalizing p with
  | nil => cases ha
  | cons c cells ih =>
    obtain ⟨-, next, hc, hrest⟩ := h
    rw [List.map_cons, List.mem_cons] at ha ⊢
    rcases ha with rfl | ha
    · -- the next cell is the first of the rest
      rw [hc, Option.some.injEq, Cell.mk.injEq] at hab
      obtain ⟨-, rfl⟩ := hab
      cases cells with
      | nil => cases hrest
      | cons d cells =>
        obtain ⟨hd, -⟩ := hrest
        obtain rfl := Option.some.inj hd
        exact .inr (by simp)
    · exact .inr (ih hrest ha)

/-- A chain is closed under its pointers. -/
theorem chain_reaches {a b : Nat} (h : Chain heap p cells) (ha : a ∈ cells.map Prod.fst) (hab : Reaches heap a b) :
    b ∈ cells.map Prod.fst := by
  induction hab with
  | refl => exact ha
  | tail _ hstep ih =>
    obtain ⟨v, hv⟩ := hstep
    exact chain_next h ih hv

/-! ## Two changes -/

/-- `q` with the value `v`, hung behind the last cell `e`. -/
def hang (heap : Heap α) (e : Nat) (w : α) (q : Nat) (v : α) : Heap α :=
  Function.update (Function.update heap q (some ⟨v, none⟩)) e (some ⟨w, some q⟩)

theorem chain_snoc {e q : Nat} {w v : α} (h : Chain heap p (cells ++ [(e, w)]))
    (hnodup : ((cells ++ [(e, w)]).map Prod.fst).Nodup) (hq : q ∉ (cells ++ [(e, w)]).map Prod.fst) :
    Chain (hang heap e w q v) p (cells ++ [(e, w), (q, v)]) := by
  induction cells generalizing p with
  | nil =>
    have hqe : q ≠ e := by simpa using hq
    exact ⟨h.1, some q, by simp [hang], rfl, none, by simp [hang, hqe], rfl⟩
  | cons c cells ih =>
    obtain ⟨hp, next, hc, hrest⟩ := h
    simp only [List.cons_append, List.map_cons, List.nodup_cons, List.mem_cons, not_or] at hnodup hq
    have hce : c.1 ≠ e := by
      rintro rfl
      exact hnodup.1 (by simp)
    refine ⟨hp, next, ?_, ih hrest hnodup.2 hq.2⟩
    simp only [hang, Function.update_of_ne hce, Function.update_of_ne (Ne.symm hq.1), hc]

/-- The rest of a chain does not need the first cell. -/
theorem chain_erase {a : Nat} {next : Option Nat} (h : Chain heap next cells)
    (ha : a ∉ cells.map Prod.fst) : Chain (Function.update heap a none) next cells := by
  refine chain_congr h fun c hc => ?_
  have hne : c.1 ≠ a := by
    rintro rfl
    exact ha (List.mem_map_of_mem hc)
  exact Function.update_of_ne hne ..

end Linked
