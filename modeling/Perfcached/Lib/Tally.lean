import Mathlib.Algebra.BigOperators.Intervals
import Mathlib.Algebra.BigOperators.Ring.Finset
import Mathlib.Algebra.Order.BigOperators.Group.Finset
import Mathlib.Tactic.Ring

/-!
# Perfcached.Lib.Tally

Sums over the first numbers, and how they change.

`tally n w K` is the weight of the first `n` items, each of the weight of its kind. Where a block of
items all of one kind become all of another, it changes by the difference for each (`tally_block`).
-/

namespace Perfcached.Tally

open Finset

universe u

variable {n : Nat}

/-- A sum in which the terms of a set change. -/
theorem sum_change_on {G : Finset Nat} (hG : ∀ i ∈ G, i < n) {f g : Nat → Int}
    (hother : ∀ i < n, i ∉ G → g i = f i) :
    ∑ i ∈ range n, g i = ∑ i ∈ range n, f i + ∑ i ∈ G, (g i - f i) := by
  have hsub : G ⊆ range n := fun i hi => mem_range.mpr (hG i hi)
  have hzero : ∀ i ∈ range n, i ∉ G → g i - f i = 0 := by
    intro i hi hnot
    rw [hother i (mem_range.mp hi) hnot, sub_self]
  rw [sum_subset hsub hzero, sum_sub_distrib]
  ring

theorem sum_range_change {idx : Nat} (hidx : idx < n) {f g : Nat → Int}
    (hother : ∀ i < n, i ≠ idx → g i = f i) :
    ∑ i ∈ range n, g i = ∑ i ∈ range n, f i + (g idx - f idx) := by
  rw [sum_change_on (G := {idx}) (f := f) (g := g), sum_singleton]
  · intro i hi
    rw [mem_singleton.mp hi]
    exact hidx
  · exact fun i hi hnot => hother i hi fun heq => hnot (mem_singleton.mpr heq)

variable {κ : Type u}

/-- The weight of the first `n` items. -/
def tally (n : Nat) (w : κ → Int) (K : Nat → κ) : Int := ∑ i ∈ Finset.range n, w (K i)

variable {K : Nat → κ}

/-- A block of one kind becomes one of another. -/
theorem tally_block {lo len : Nat} {K' : Nat → κ} {a b : κ} (hn : lo + len ≤ n)
    (hold : ∀ i, lo ≤ i → i < lo + len → K i = a) (hnew : ∀ i, lo ≤ i → i < lo + len → K' i = b)
    (hother : ∀ i, ¬ (lo ≤ i ∧ i < lo + len) → K' i = K i) (w : κ → Int) :
    tally n w K' = tally n w K + len * (w b - w a) := by
  have hblock : ∑ i ∈ Ico lo (lo + len), (w (K' i) - w (K i)) = len * (w b - w a) := by
    rw [sum_congr rfl (g := fun _ => w b - w a), sum_const, Nat.card_Ico,
      Nat.add_sub_cancel_left, nsmul_eq_mul]
    intro i hi
    rw [mem_Ico] at hi
    rw [hold i hi.1 hi.2, hnew i hi.1 hi.2]
  have hsum := sum_change_on (n := n) (G := Ico lo (lo + len)) (f := fun i => w (K i))
    (g := fun i => w (K' i)) ?_ ?_
  · rw [tally, tally, hsum, hblock]
  · intro i hi
    have := (mem_Ico.mp hi).2
    omega
  · intro i _ hnot
    rw [hother i fun hi => hnot (mem_Ico.mpr hi)]

theorem tally_add (n : Nat) (w w' : κ → Int) (K : Nat → κ) :
    tally n (fun k => w k + w' k) K = tally n w K + tally n w' K :=
  sum_add_distrib

theorem tally_congr {w w' : κ → Int} (h : ∀ i < n, w (K i) = w' (K i)) :
    tally n w K = tally n w' K :=
  sum_congr rfl fun i hi => h i (mem_range.mp hi)

theorem tally_eq_countP {w : κ → Int} {m : Nat → Bool}
    (h : ∀ i < n, w (K i) = if m i then 1 else 0) : tally n w K = (List.range n).countP m := by
  induction n with
  | zero => rfl
  | succ n ih =>
    have hrest : tally n w K = (List.range n).countP m := ih fun i hi => h i (Nat.lt_succ_of_lt hi)
    rw [tally, sum_range_succ, ← tally, hrest, h n n.lt_succ_self, List.range_succ,
      List.countP_append, List.countP_singleton]
    push_cast
    rfl

end Perfcached.Tally
