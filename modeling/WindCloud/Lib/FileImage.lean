import Mathlib.Data.List.Basic
import Mathlib.Tactic.SplitIfs
/-!
# The bytes of a file

What the calls that change a file do to its contents, on lists over any type: `resize` cuts
or extends to a given length (what is added is `z`), `store` writes through a mapping and so
never changes the length, `patch` is a positioned write and extends where it has to.
-/

namespace FileImage

variable {α : Type}

def resize (z : α) (n : Nat) (l : List α) : List α := l.take n ++ List.replicate (n - l.length) z

def store (l : List α) (off : Nat) (d : List α) : List α :=
  (l.take off ++ d ++ l.drop (off + d.length)).take l.length

def patch (z : α) (l : List α) (off : Nat) (d : List α) : List α :=
  store (resize z (max l.length (off + d.length)) l) off d

variable {z : α} {l d d' : List α} {n k off : Nat}

/-! ## `resize` -/

@[simp] theorem length_resize : (resize z n l).length = n := by
  simp [resize]; omega

theorem resize_of_le (h : n ≤ l.length) : resize z n l = l.take n := by
  simp [resize, Nat.sub_eq_zero_of_le h]

@[simp] theorem resize_length : resize z l.length l = l := by
  rw [resize_of_le (Nat.le_refl _), List.take_length]

@[simp] theorem resize_zero : resize z 0 l = [] := by simp [resize]

theorem take_resize (h : k ≤ n) : (resize z n l).take k = resize z k l := by
  simp only [resize, List.take_append, List.take_take, List.length_take, List.take_replicate,
    Nat.min_eq_left h]
  congr 2
  omega

/-! ## `store` -/

@[simp] theorem length_store : (store l off d).length = l.length := by
  simp [store]; omega

theorem getElem?_store (i : Nat) : (store l off d)[i]? =
    if i < l.length then (if off ≤ i ∧ i < off + d.length then d[i - off]? else l[i]?) else none := by
  simp only [store, List.getElem?_take, List.append_assoc]
  by_cases hi : i < l.length
  · rw [if_pos hi, if_pos hi]
    rcases Nat.lt_or_ge i off with h1 | h1
    · rw [List.getElem?_append_left (by simp; omega), List.getElem?_take_of_lt h1, if_neg (by omega)]
    · rw [List.getElem?_append_right (by simp; omega), List.length_take,
        Nat.min_eq_left (by omega)]
      rcases Nat.lt_or_ge i (off + d.length) with h2 | h2
      · rw [List.getElem?_append_left (by omega), if_pos ⟨h1, h2⟩]
      · rw [List.getElem?_append_right (by omega), List.getElem?_drop, if_neg (by omega)]
        congr 1
        omega
  · rw [if_neg hi, if_neg hi]

@[simp] theorem store_nil : store l off [] = l := by
  refine List.ext_getElem? fun i => ?_
  rw [getElem?_store]
  split_ifs with h1 h2
  · simp at h2; omega
  · rfl
  · exact (List.getElem?_eq_none (by omega)).symm

/-- Two stores one after the other are one store. -/
theorem store_store : store (store l off d) (off + d.length) d' = store l off (d ++ d') := by
  refine List.ext_getElem? fun i => ?_
  simp only [getElem?_store, length_store, List.length_append]
  by_cases hi : i < l.length
  · simp only [if_pos hi]
    rcases Nat.lt_or_ge i off with h1 | h1
    · rw [if_neg (by omega), if_neg (by omega), if_neg (by omega)]
    · rcases Nat.lt_or_ge i (off + d.length) with h2 | h2
      · rw [if_neg (by omega), if_pos ⟨h1, h2⟩, if_pos ⟨h1, by omega⟩,
          List.getElem?_append_left (by omega)]
      · rw [List.getElem?_append_right (by omega), Nat.sub_add_eq]
        split_ifs with h3 h4 h5 h6 <;> first | rfl | omega
  · simp only [if_neg hi]

/-- Up to its end a store that stays inside is the old start and the new data. -/
theorem take_store (h : off + d.length ≤ l.length) :
    (store l off d).take (off + d.length) = l.take off ++ d := by
  have hlen : (l.take off ++ d).length = off + d.length := by
    rw [List.length_append, List.length_take]
    omega
  rw [store, List.take_take, Nat.min_eq_left h, List.take_append_of_le_length (Nat.le_of_eq hlen.symm)]
  exact List.take_of_length_le (Nat.le_of_eq hlen)

/-! ## What a file starts with -/

theorem prefix_resize_of_le {a : List α} (ha : a <+: l) (hn : a.length ≤ n) : a <+: resize z n l := by
  have h : (resize z n l).take a.length = a := by
    rw [take_resize hn, resize_of_le ha.length_le, ← List.prefix_iff_eq_take.1 ha]
  rw [← h]
  exact List.take_prefix _ _

theorem take_prefix_iff {F : List α} : F.take k <+: l ↔ ∀ i, i < k → i < F.length → l[i]? = F[i]? := by
  rw [List.prefix_iff_getElem?]
  constructor
  · intro h i hk hF
    rw [h i (by rw [List.length_take]; omega), List.getElem_take, List.getElem?_eq_getElem hF]
  · intro h i hi
    rw [List.length_take] at hi
    rw [h i (by omega) (by omega), List.getElem_take, List.getElem?_eq_getElem]

/-- A piece of `F` that is stored at its place. -/
theorem getElem?_store_piece {F : List α} {i : Nat} (hd : d <+: F.drop off) (hi : i < l.length)
    (h : ¬ (off ≤ i ∧ i < off + d.length) → l[i]? = F[i]?) : (store l off d)[i]? = F[i]? := by
  rw [getElem?_store, if_pos hi]
  split
  · rename_i hin
    obtain ⟨t, ht⟩ := hd
    have h : (d ++ t)[i - off]? = d[i - off]? := List.getElem?_append_left (by omega)
    rw [← h, ht, List.getElem?_drop]
    congr 1
    omega
  · rename_i hout
    exact h hout

/-- It spoils nothing of `F` that is there. -/
theorem take_prefix_store {F : List α} (hp : F.take k <+: l) (hd : d <+: F.drop off) : F.take k <+: store l off d := by
  rw [take_prefix_iff] at hp ⊢
  intro i hk hF
  have hl := hp i hk hF
  have hi : i < l.length := by
    rw [List.getElem?_eq_getElem hF] at hl
    exact (List.getElem?_eq_some_iff.1 hl).1
  exact getElem?_store_piece hd hi fun _ => hl

/-- It continues what is there. -/
theorem take_prefix_stored {F : List α} (hp : F.take off <+: l) (hd : d <+: F.drop off)
    (hlen : off + d.length ≤ l.length) : F.take (off + d.length) <+: store l off d := by
  rw [take_prefix_iff] at hp ⊢
  intro i hk hF
  exact getElem?_store_piece hd (by omega) fun hout => hp i (by omega) hF

/-! ## `patch` -/

@[simp] theorem length_patch : (patch z l off d).length = max l.length (off + d.length) := by
  simp [patch]

/-- A write at the end of the file appends. -/
theorem patch_length : patch z l l.length d = l ++ d := by
  have hlen : (resize z (max l.length (l.length + d.length)) l).length = l.length + d.length := by
    simp
  have h : (store (resize z (max l.length (l.length + d.length)) l) l.length d).take (l.length + d.length) =
      (resize z (max l.length (l.length + d.length)) l).take l.length ++ d := take_store (by omega)
  rw [List.take_of_length_le (by simp), take_resize (by omega), resize_length] at h
  exact h

end FileImage
