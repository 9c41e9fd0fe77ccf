import Mathlib.Algebra.Order.Group.Nat
import Mathlib.Tactic.Ring
/-!
# Fixed-width integers in memory

`leBytes n x` and `beBytes n x` are the `n` bytes of `x` in the two byte orders, `leVal` and
`beVal` read them back. `Endian` is the byte order of a host; `mem32`/`load32` (and the
64-bit pair) are how an integer lies in its memory. `htonl` is defined by what the C library
promises: the result lies in the host's memory as the big-endian bytes of the argument.
-/

namespace ByteOrder

def leBytes : Nat → Nat → List UInt8
  | 0, _ => []
  | n + 1, x => UInt8.ofNat x :: leBytes n (x / 256)

def leVal : List UInt8 → Nat
  | [] => 0
  | b :: bs => b.toNat + 256 * leVal bs

def beBytes (n x : Nat) : List UInt8 := (leBytes n x).reverse
def beVal (bs : List UInt8) : Nat := leVal bs.reverse

@[simp] theorem length_leBytes (n x : Nat) : (leBytes n x).length = n := by
  induction n generalizing x with
  | zero => rfl
  | succ n ih => simp [leBytes, ih]

@[simp] theorem length_beBytes (n x : Nat) : (beBytes n x).length = n := by simp [beBytes]

theorem leVal_leBytes (n x : Nat) : leVal (leBytes n x) = x % 256 ^ n := by
  induction n generalizing x with
  | zero => simp [leBytes, leVal, Nat.mod_one]
  | succ n ih =>
    have h8 : (UInt8.ofNat x).toNat = x % 256 := UInt8.toNat_ofNat'
    rw [leBytes, leVal, ih, h8, Nat.pow_succ, Nat.mul_comm (256 ^ n), Nat.mod_mul]

theorem leVal_lt (bs : List UInt8) : leVal bs < 256 ^ bs.length := by
  induction bs with
  | nil => simp [leVal]
  | cons b bs ih =>
    have hb := b.toNat_lt
    simp only [leVal, List.length_cons, Nat.pow_succ]
    omega

theorem leBytes_leVal (bs : List UInt8) : leBytes bs.length (leVal bs) = bs := by
  induction bs with
  | nil => rfl
  | cons b bs ih =>
    have hb := b.toNat_lt
    have hdiv : (b.toNat + 256 * leVal bs) / 256 = leVal bs := by omega
    have hmod : UInt8.ofNat (b.toNat + 256 * leVal bs) = b := by
      rw [← UInt8.toNat_inj, UInt8.toNat_ofNat']
      omega
    simp only [List.length_cons, leVal, leBytes, hdiv, hmod, ih]

theorem beVal_beBytes (n x : Nat) : beVal (beBytes n x) = x % 256 ^ n := by
  simp [beVal, beBytes, leVal_leBytes]

theorem beVal_lt (bs : List UInt8) : beVal bs < 256 ^ bs.length := by
  simpa [beVal] using leVal_lt bs.reverse

theorem beBytes_beVal (bs : List UInt8) : beBytes bs.length (beVal bs) = bs := by
  have h := leBytes_leVal bs.reverse
  rw [List.length_reverse] at h
  rw [beBytes, beVal, h, List.reverse_reverse]

/-- The low `m` bytes, then the rest. -/
theorem leBytes_add (m n x : Nat) : leBytes (m + n) x = leBytes m x ++ leBytes n (x / 256 ^ m) := by
  induction m generalizing x with
  | zero => simp [leBytes]
  | succ m ih =>
    rw [Nat.add_right_comm, leBytes, ih, leBytes, List.cons_append, Nat.div_div_eq_div_mul,
      Nat.pow_succ, Nat.mul_comm 256]

theorem leBytes_mod (n x : Nat) : leBytes n (x % 256 ^ n) = leBytes n x := by
  have h := leBytes_leVal (leBytes n x)
  rwa [leVal_leBytes, length_leBytes] at h

/-! ## Hosts -/

/-- The byte order of a host. -/
inductive Endian where
  | little
  | big
deriving DecidableEq, Repr

namespace Endian

def mem32 : Endian → UInt32 → List UInt8
  | little, x => leBytes 4 x.toNat
  | big, x => beBytes 4 x.toNat

def load32 : Endian → List UInt8 → UInt32
  | little, bs => UInt32.ofNat (leVal bs)
  | big, bs => UInt32.ofNat (beVal bs)

def mem64 : Endian → UInt64 → List UInt8
  | little, x => leBytes 8 x.toNat
  | big, x => beBytes 8 x.toNat

def load64 : Endian → List UInt8 → UInt64
  | little, bs => UInt64.ofNat (leVal bs)
  | big, bs => UInt64.ofNat (beVal bs)

/-- `htonl(3)`: to network byte order. -/
def htonl (e : Endian) (x : UInt32) : UInt32 := e.load32 (beBytes 4 x.toNat)
/-- `ntohl(3)`: from network byte order. -/
def ntohl (e : Endian) (x : UInt32) : UInt32 := UInt32.ofNat (beVal (e.mem32 x))

@[simp] theorem length_mem32 (e : Endian) (x : UInt32) : (e.mem32 x).length = 4 := by
  cases e <;> simp [mem32]

@[simp] theorem length_mem64 (e : Endian) (x : UInt64) : (e.mem64 x).length = 8 := by
  cases e <;> simp [mem64]

theorem mem32_load32 (e : Endian) {bs : List UInt8} (h : bs.length = 4) : e.mem32 (e.load32 bs) = bs := by
  have hl := leVal_lt bs
  have hb := beVal_lt bs
  rw [h] at hl hb
  cases e with
  | little =>
    rw [load32, mem32, UInt32.toNat_ofNat_of_lt' hl]
    simpa [h] using leBytes_leVal bs
  | big =>
    rw [load32, mem32, UInt32.toNat_ofNat_of_lt' hb]
    simpa [h] using beBytes_beVal bs

theorem load64_mem64 (e : Endian) (x : UInt64) : e.load64 (e.mem64 x) = x := by
  have hx := x.toNat_lt
  cases e <;>
    simp only [load64, mem64, leVal_leBytes, beVal_beBytes] <;>
    rw [Nat.mod_eq_of_lt (by omega), UInt64.ofNat_toNat]

/-- The wire bytes of a 32-bit field do not depend on the host. -/
theorem mem32_htonl (e : Endian) (x : UInt32) : e.mem32 (e.htonl x) = beBytes 4 x.toNat :=
  mem32_load32 e (by simp)

theorem ntohl_load32 (e : Endian) {bs : List UInt8} (h : bs.length = 4) :
    e.ntohl (e.load32 bs) = UInt32.ofNat (beVal bs) := by
  rw [ntohl, mem32_load32 e h]

end Endian
end ByteOrder
