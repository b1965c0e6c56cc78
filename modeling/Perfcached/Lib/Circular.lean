import Mathlib.Tactic.Common

/-!
# Perfcached.Lib.Circular

Memory that is written and read in a circle.

A memory is a function of the address. `write` and `read` are the plain block copies, and
`circWrite` and `circRead` go round at `size`; their positions are free-running counters, of
which only the remainder matters. A block of at most `size` elements is two plain copies
(`circRead_of_wraps`, `circWrite_of_wraps`) or one. A circular write is read back
(`circRead_circWrite`), and a write that stays within `size` of where a read starts does not
meet it (`circRead_circWrite_of_disjoint`).
-/

namespace Perfcached.Circular

open List Option Nat

universe u

variable {α : Type u}

/-- A block copy into memory. -/
def write (m : Nat → α) (pos : Nat) (xs : List α) : Nat → α :=
  fun i => if pos ≤ i then (xs[i - pos]?).getD (m i) else m i

def read (m : Nat → α) (pos n : Nat) : List α := (List.range n).map fun j => m (pos + j)

/-- A block written from a counter on, round at `size`. -/
def circWrite (size : Nat) (m : Nat → α) (p : Nat) (xs : List α) : Nat → α :=
  fun i => if i < size then (xs[(i + (size - p % size)) % size]?).getD (m i) else m i

/-- A block read from a counter on, round at `size`. -/
def circRead (size : Nat) (m : Nat → α) (p n : Nat) : List α :=
  (List.range n).map fun j => m ((p + j) % size)

section

variable (size : Nat) (m : Nat → α)

@[simp] theorem length_circRead (p n : Nat) : (circRead size m p n).length = n := by
  simp [circRead]

/-- Only the remainder of the counter matters. -/
theorem circRead_mod (p n : Nat) : circRead size m (p % size) n = circRead size m p n := by
  simp only [circRead, mod_add_mod]

theorem circWrite_mod (p : Nat) (xs : List α) :
    circWrite size m (p % size) xs = circWrite size m p xs := by
  funext i
  simp only [circWrite, mod_mod]

theorem circRead_add (p a b : Nat) :
    circRead size m p (a + b) = circRead size m p a ++ circRead size m (p + a) b := by
  simp only [circRead, List.range_add, List.map_append, List.map_map, Nat.add_assoc]
  rfl

end

/-! ### As plain copies -/

variable {size pos n : Nat}

/-- A block that ends at or before the end of the memory. -/
theorem circRead_of_fits (m : Nat → α) (h : pos + n ≤ size) :
    circRead size m pos n = read m pos n := by
  refine map_congr_left fun j hj => ?_
  have hj := mem_range.mp hj
  rw [mod_eq_of_lt (by omega)]

theorem circRead_of_wraps (m : Nat → α) (hpos : pos ≤ size) (h : size ≤ pos + n) (hn : n ≤ size) :
    circRead size m pos n = read m pos (size - pos) ++ read m 0 (n - (size - pos)) := by
  have hsplit : n = (size - pos) + (n - (size - pos)) := by omega
  have hfirst := circRead_of_fits m (show pos + (size - pos) ≤ size by omega)
  have hrest := circRead_of_fits m (show 0 + (n - (size - pos)) ≤ size by omega)
  rw [hsplit, circRead_add, hfirst, Nat.add_sub_cancel' hpos, ← circRead_mod, Nat.mod_self, hrest,
    Nat.add_sub_cancel_left]

/-- The offset of an address from a position, going round. -/
theorem offset_eq {i : Nat} (hi : i < size) (hpos : pos < size) :
    (i + (size - pos % size)) % size = if pos ≤ i then i - pos else i + (size - pos) := by
  rw [mod_eq_of_lt hpos]
  split
  · rw [show i + (size - pos) = (i - pos) + size by omega, add_mod_right, mod_eq_of_lt (by omega)]
  · rw [mod_eq_of_lt (by omega)]

variable {xs : List α}

section

variable (m : Nat → α)

/-- A block that ends at or before the end of the memory. -/
theorem circWrite_of_fits (hpos : pos < size) (h : pos + xs.length ≤ size) :
    circWrite size m pos xs = write m pos xs := by
  funext i
  unfold circWrite write
  split
  · rename_i hi
    rw [offset_eq hi hpos]
    split
    · rfl
    · rw [getElem?_eq_none (by omega)]
      rfl
  · split
    · rw [getElem?_eq_none (by omega)]
      rfl
    · rfl

theorem circWrite_of_wraps (hpos : pos < size) (h : size ≤ pos + xs.length)
    (hlen : xs.length ≤ size) :
    circWrite size m pos xs =
      write (write m pos (xs.take (size - pos))) 0 (xs.drop (size - pos)) := by
  funext i
  simp only [circWrite, write, Nat.zero_le, if_true, Nat.sub_zero, getElem?_drop]
  split
  · rename_i hi
    rw [offset_eq hi hpos]
    split
    · rw [getElem?_eq_none (show xs.length ≤ size - pos + i by omega),
        getElem?_take_of_lt (by omega)]
      rfl
    · rw [Nat.add_comm i]
  · rw [getElem?_eq_none (show xs.length ≤ size - pos + i by omega)]
    split
    · rw [getElem?_eq_none (by simp only [length_take]; omega)]
      rfl
    · rfl

/-! ### What is read after a write -/

/-- Where the write at `t` puts what the read at `q` looks at. -/
theorem circWrite_apply {t k : Nat} (xs : List α) (hk : k < size) :
    circWrite size m t xs ((t + k) % size) = (xs[k]?).getD (m ((t + k) % size)) := by
  have hsize : 0 < size := by omega
  have hoff : ((t + k) % size + (size - t % size)) % size = k := by
    have hle : t % size ≤ size := Nat.le_of_lt (Nat.mod_lt t hsize)
    rw [Nat.mod_add_mod]
    have hsum : t + k + (size - t % size) = k + size * (t / size + 1) := by
      have hdiv := Nat.div_add_mod t size
      rw [Nat.mul_add, Nat.mul_one]
      omega
    rw [hsum, Nat.add_mul_mod_self_left, Nat.mod_eq_of_lt hk]
  rw [circWrite, if_pos (Nat.mod_lt _ hsize), hoff]

theorem circWrite_singleton (t : Nat) (hsize : 0 < size) (x : α) :
    circWrite size m t [x] = fun i => if i = t % size then x else m i := by
  funext i
  by_cases hi : i < size
  · have hoff := offset_eq hi (mod_lt t hsize)
    rw [mod_mod] at hoff
    have hlt := mod_lt t hsize
    rw [circWrite, if_pos hi, hoff]
    split <;> split <;> grind
  · rw [circWrite, if_neg hi, if_neg fun h : i = t % size => hi (h ▸ mod_lt t hsize)]

/-- A block is read back where it was written. -/
theorem circRead_circWrite (t : Nat) (h : xs.length ≤ size) :
    circRead size (circWrite size m t xs) t xs.length = xs := by
  refine ext_getElem? fun j => ?_
  rw [circRead, getElem?_map]
  by_cases hj : j < xs.length
  · rw [getElem?_range hj, getElem?_eq_getElem hj, map_some,
      circWrite_apply m xs (by omega), getElem?_eq_getElem hj]
    rfl
  · rw [getElem?_eq_none (by simp only [length_range]; omega), getElem?_eq_none (by omega)]
    rfl

/-- A write that starts at or after the end of a block and ends within `size` of its start
leaves the block alone. -/
theorem circRead_circWrite_of_disjoint {p t : Nat} (hafter : p + n ≤ t)
    (hroom : t + xs.length ≤ p + size) :
    circRead size (circWrite size m t xs) p n = circRead size m p n := by
  refine map_congr_left fun j hj => ?_
  have hj := mem_range.mp hj
  -- the address, seen from the write: a whole turn on
  have hsame : (p + j) % size = (t + (p + j + size - t)) % size := by
    rw [show t + (p + j + size - t) = p + j + size by omega, add_mod_right]
  rw [hsame, circWrite_apply m xs (by omega), getElem?_eq_none (by omega)]
  rfl

end

end Perfcached.Circular
