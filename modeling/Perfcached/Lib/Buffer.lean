import Mathlib.Tactic.Ring

/-!
# Perfcached.Lib.Buffer

A buffer and the copies into it.

`slice` is a run of a buffer and `put` a copy into it at an offset. A text written piece after
piece stands at the front of the buffer with the rest of the buffer behind it: `put_end` adds a
piece and `put_mid` rewrites one. Items of one width, written one after another, are found at the
multiples of it (`drop_flatMap`).
-/

namespace Perfcached.Buffer

open List Nat

universe u

variable {α : Type u}

/-- The `n` elements from `o` on. -/
def slice (m : List α) (o n : Nat) : List α := (m.drop o).take n

/-- `memcpy` to offset `o`. -/
def put (m : List α) (o : Nat) (s : List α) : List α := m.take o ++ s ++ m.drop (o + s.length)

variable {a c : List α} {o n : Nat}

theorem slice_append {b : List α} (ho : a.length = o) (hn : b.length = n) :
    slice (a ++ b ++ c) o n = b := by
  rw [slice, append_assoc, drop_left' ho, take_left' hn]

theorem slice_front (hn : a.length = n) : slice (a ++ c) 0 n = a :=
  take_left' hn

theorem slice_rest (ho : a.length = o) (hn : c.length = n) : slice (a ++ c) o n = c := by
  rw [slice, drop_left' ho, take_of_length_le (le_of_eq hn)]

theorem length_slice {m : List α} (h : o + n ≤ m.length) : (slice m o n).length = n := by
  rw [slice, length_take, length_drop]
  omega

theorem slice_append_drop (m : List α) (o n : Nat) : slice m o n ++ m.drop (o + n) = m.drop o := by
  rw [slice, ← drop_drop, take_append_drop]

theorem put_end {s : List α} (ho : a.length = o) :
    put (a ++ c) o s = a ++ s ++ c.drop s.length := by
  rw [put, take_left' ho, ← ho, drop_length_add_append]

theorem put_mid {b s : List α} (ho : a.length = o) (hs : b.length = s.length) :
    put (a ++ b ++ c) o s = a ++ s ++ c := by
  rw [append_assoc, put_end ho, drop_left' hs]

theorem put_zero (c s : List α) : put c 0 s = s ++ c.drop s.length :=
  put_end (a := []) rfl

section
variable {β : Type u} {f : β → List α} {w : Nat}

theorem length_flatMap (hw : ∀ x, (f x).length = w) (l : List β) :
    (l.flatMap f).length = w * l.length := by
  induction l with
  | nil => rfl
  | cons x l ih => rw [flatMap_cons, length_append, hw, ih, length_cons]; ring

theorem drop_flatMap (hw : ∀ x, (f x).length = w) (l : List β) (j : Nat) :
    (l.flatMap f).drop (w * j) = (l.drop j).flatMap f := by
  induction j generalizing l with
  | zero => rfl
  | succ j ih =>
    cases l with
    | nil => simp
    | cons x l =>
      rw [flatMap_cons, mul_succ, add_comm, ← drop_drop, drop_left' (hw x), ih, drop_succ_cons]

end

end Perfcached.Buffer
