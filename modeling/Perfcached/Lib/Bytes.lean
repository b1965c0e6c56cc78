import Mathlib.Tactic.Ring

/-!
# Perfcached.Lib.Bytes

Little-endian integers in byte strings.

`leBytes n v` is the `n`-byte little-endian image of `v` (its high part is cut
off, as a C store of a wider value cuts it off); `leNat` reads a byte string
back as a number. Everything a wire or file format needs follows from three
facts: the length of an image, that reading an image gives the value modulo
`256 ^ n`, and that reading looks only at the bytes it is given.
-/

namespace Perfcached.Bytes

open List Nat

/-- An `unsigned char`. -/
abbrev Byte := BitVec 8

/-- A character constant. -/
def chr (c : Char) : Byte := BitVec.ofNat 8 c.toNat

/-- A string literal, without the NUL. -/
def chars (s : String) : List Byte := s.toList.map chr

/-- The `n`-byte little-endian image of `v`. -/
def leBytes : Nat → Nat → List Byte
  | 0, _ => []
  | n + 1, v => BitVec.ofNat 8 v :: leBytes n (v / 256)

/-- The number a little-endian byte string stands for. -/
def leNat : List Byte → Nat
  | [] => 0
  | b :: bs => b.toNat + 256 * leNat bs

@[simp] theorem leBytes_zero (v : Nat) : leBytes 0 v = [] := rfl

@[simp] theorem leNat_nil : leNat [] = 0 := rfl

@[simp] theorem leNat_cons (b : Byte) (bs : List Byte) :
    leNat (b :: bs) = b.toNat + 256 * leNat bs := rfl

@[simp] theorem length_leBytes (n v : Nat) : (leBytes n v).length = n := by
  induction n generalizing v with
  | zero => rfl
  | succ n ih => simp [leBytes, ih]

/-- A wide image is two narrower ones, the low part first. -/
theorem leBytes_add (m n v : Nat) : leBytes (m + n) v = leBytes m v ++ leBytes n (v / 256 ^ m) := by
  induction m generalizing v with
  | zero => simp
  | succ m ih =>
    rw [Nat.succ_add, leBytes, leBytes, ih, Nat.div_div_eq_div_mul, ← Nat.pow_succ', cons_append]

/-- Reading an image back gives the value, modulo what `n` bytes can hold. -/
theorem leNat_leBytes (n v : Nat) : leNat (leBytes n v) = v % 256 ^ n := by
  induction n generalizing v with
  | zero => simp [mod_one]
  | succ n ih =>
    rw [leBytes, leNat_cons, ih, BitVec.toNat_ofNat]
    change v % 256 + 256 * (v / 256 % 256 ^ n) = v % 256 ^ (n + 1)
    rw [pow_succ, mul_comm (256 ^ n), mod_mul]

/-- A value that fits its field is read back unchanged. -/
theorem leNat_leBytes_of_lt {n v : Nat} (h : v < 256 ^ n) : leNat (leBytes n v) = v := by
  rw [leNat_leBytes, mod_eq_of_lt h]

/-- A byte string is the image of the number it stands for. -/
theorem leBytes_leNat (bs : List Byte) : leBytes bs.length (leNat bs) = bs := by
  induction bs with
  | nil => rfl
  | cons b bs ih =>
    have hb : b.toNat < 256 := b.isLt
    rw [length_cons, leBytes, leNat_cons, add_mul_div_left _ _ (by decide),
      div_eq_of_lt hb, zero_add, ih]
    congr 1
    apply BitVec.eq_of_toNat_eq
    rw [BitVec.toNat_ofNat]
    omega

theorem leNat_lt (bs : List Byte) : leNat bs < 256 ^ bs.length := by
  induction bs with
  | nil => simp
  | cons b bs ih =>
    have : 256 ^ (b :: bs).length = 256 * 256 ^ bs.length := by
      rw [length_cons, pow_succ]; ring
    rw [leNat_cons, this]
    omega

/-- Reading a field of `n` bytes at the head of a longer string. -/
def rd (n : Nat) (p : List Byte) : Nat := leNat (p.take n)

theorem rd_lt (n : Nat) (p : List Byte) : rd n p < 256 ^ n :=
  lt_of_lt_of_le (leNat_lt _) (Nat.pow_le_pow_right (by decide) (length_take_le n p))

/-- A field is read back from the head of any string that starts with it. -/
theorem rd_append (n v : Nat) (q : List Byte) : rd n (leBytes n v ++ q) = v % 256 ^ n := by
  rw [rd, take_append_of_le_length (by simp), take_of_length_le (by simp), leNat_leBytes]

/-- `rd_append` for a value that fits its field. -/
theorem rd_append_of_lt {n v : Nat} (h : v < 256 ^ n) (q : List Byte) :
    rd n (leBytes n v ++ q) = v := by
  rw [rd_append, mod_eq_of_lt h]

/-- Skipping a field, and `m` bytes more. -/
theorem drop_leBytes_add (n m v : Nat) (q : List Byte) :
    (leBytes n v ++ q).drop (n + m) = q.drop m := by
  rw [← drop_drop, drop_left' (length_leBytes n v)]

end Perfcached.Bytes
