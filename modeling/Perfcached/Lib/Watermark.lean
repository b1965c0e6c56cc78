import Mathlib.Tactic.Common

/-!
# Perfcached.Lib.Watermark

Which numbers have arrived, out of order.

Every number up to a mark is in, and bit `i` of a word stands for number `mark + 1 + i`. When
the number after the mark is in, the mark moves over it and over those that follow
(`settle`); that changes what is written down and not which numbers are in (`has_settle`).
-/

namespace Perfcached.Watermark

variable {w : Nat} {m a d : Nat} {bs : BitVec w}

/-- Number `a` is in. -/
def Has (m : Nat) (bs : BitVec w) (a : Nat) : Prop :=
  a ≤ m ∨ bs.getLsbD (a - m - 1) = true

/-- The mark moves while the number after it is in, at most `n` times. -/
def settle : Nat → Nat → BitVec w → Nat × BitVec w
  | 0, m, bs => (m, bs)
  | n + 1, m, bs => if bs.getLsbD 0 then settle n (m + 1) (bs >>> 1) else (m, bs)

theorem has_zero : Has m (0#w) a ↔ a ≤ m := by
  simp [Has]

/-- The next number is in: the mark may take it. -/
theorem has_shift (h : bs.getLsbD 0 = true) : Has (m + 1) (bs >>> 1) a ↔ Has m bs a := by
  unfold Has
  rw [BitVec.getLsbD_ushiftRight]
  rcases Nat.lt_trichotomy a (m + 1) with hlt | rfl | hgt
  · have hle : a ≤ m := Nat.le_of_lt_succ hlt
    simp [hle, Nat.le_succ_of_le hle]
  · simp [h]
  · have hidx : 1 + (a - (m + 1) - 1) = a - m - 1 := by omega
    rw [hidx]
    exact or_congr_left (iff_of_false (by omega) (by omega))

theorem has_settle (n : Nat) : Has (settle n m bs).1 (settle n m bs).2 a ↔ Has m bs a := by
  induction n generalizing m bs with
  | zero => rfl
  | succ n ih =>
    rw [settle]
    split
    · rename_i h
      rw [ih]
      exact has_shift h
    · rfl

theorem has_mark (hd : d < w) : Has m (bs ||| 1#w <<< d) a ↔ Has m bs a ∨ a = m + 1 + d := by
  unfold Has
  by_cases hle : a ≤ m
  · simp [hle]
  · have hidx : a = m + 1 + d ↔ a - m - 1 = d := by omega
    simp only [hle, false_or, hidx, BitVec.getLsbD_or, Bool.or_eq_true]
    refine or_congr_right ?_
    rw [BitVec.getLsbD_shiftLeft]
    by_cases heq : a - m - 1 = d
    · simp [heq, hd, Nat.zero_lt_of_lt hd]
    · rcases Nat.lt_or_gt_of_ne heq with hlow | hhigh
      · simp [heq, hlow]
      · have : ¬ a - m - 1 - d = 0 := by omega
        simp [heq, this]

end Perfcached.Watermark
