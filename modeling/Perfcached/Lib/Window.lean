import Mathlib.Data.List.Nodup

/-!
# Perfcached.Lib.Window

A set of numbers in a sliding window, kept as bits.

The window is the `W` numbers above a mark `m`; each has the bit of its remainder modulo `W`,
and no two of them share one. `Shows W m bits S` says that the bits of the window are those of
the set `S`. Setting and clearing a bit adds and removes its number, and the window can be moved
up over numbers that are not in the set.

How many numbers of a list lie above the mark is counted by `above`.
-/

namespace Perfcached.Window

open List

/-- The bit of a number, changed. -/
def setBit (W : Nat) (bits : Nat → Bool) (s : Nat) (on : Bool) : Nat → Bool :=
  fun b => if b = s % W then on else bits b

/-- In the window above `m` the bits show `S`. -/
def Shows (W m : Nat) (bits : Nat → Bool) (S : Nat → Prop) : Prop :=
  ∀ s, m < s → s ≤ m + W → (bits (s % W) = true ↔ S s)

theorem eq_of_mod_eq {W m s t : Nat} (hs : m < s) (hs' : s ≤ m + W) (ht : m < t) (ht' : t ≤ m + W)
    (h : s % W = t % W) : s = t := by
  have hsd := Nat.div_add_mod s W
  have htd := Nat.div_add_mod t W
  rw [h] at hsd
  rcases Nat.lt_trichotomy (s / W) (t / W) with hlt | heq | hlt
  · have := Nat.mul_le_mul_left W (show s / W + 1 ≤ t / W from hlt)
    rw [Nat.mul_add, Nat.mul_one] at this
    omega
  · rw [heq] at hsd
    omega
  · have := Nat.mul_le_mul_left W (show t / W + 1 ≤ s / W from hlt)
    rw [Nat.mul_add, Nat.mul_one] at this
    omega

variable {W m : Nat} {bits : Nat → Bool} {S : Nat → Prop}

theorem shows_empty (hS : ∀ s, m < s → s ≤ m + W → ¬ S s) : Shows W m (fun _ => false) S := by
  intro s hs hs'
  exact iff_of_false Bool.false_ne_true (hS s hs hs')

/-- A number of the window is added or removed. -/
theorem Shows.setBit (h : Shows W m bits S) {s : Nat} (hs : m < s) (hs' : s ≤ m + W) (on : Bool)
    {S' : Nat → Prop} (hsame : ∀ t, t ≠ s → (S' t ↔ S t)) (hat : S' s ↔ on = true) :
    Shows W m (setBit W bits s on) S' := by
  intro t ht ht'
  unfold Window.setBit
  by_cases hmod : t % W = s % W
  · obtain rfl := eq_of_mod_eq ht ht' hs hs' hmod
    rw [if_pos rfl]
    exact hat.symm
  · have hne : t ≠ s := by
      rintro rfl
      exact hmod rfl
    rw [if_neg hmod]
    exact (h t ht ht').trans (hsame t hne).symm

/-- The window moves up over numbers that are not in the set; nothing lies beyond it. -/
theorem Shows.slide (h : Shows W m bits S) {m' : Nat} (hm : m ≤ m')
    (hout : ∀ s, m < s → s ≤ m' → bits (s % W) = false) (hbound : ∀ s, S s → s ≤ m + W) :
    Shows W m' bits S := by
  intro s hs hs'
  rcases Nat.lt_or_ge (m + W) s with hfar | hnear
  · -- the bit was that of a number the window has passed
    have hmod : s % W = (s - W) % W := by
      conv_lhs => rw [show s = s - W + W by omega, Nat.add_mod_right]
    rw [hmod, hout (s - W) (by omega) (by omega)]
    refine iff_of_false Bool.false_ne_true fun hS => ?_
    have := hbound s hS
    omega
  · exact h s (by omega) hnear

/-! ### Counting above the mark -/

/-- How many numbers of a list lie above the mark. -/
def above (m : Nat) (ns : List Nat) : Nat := ns.countP fun n => m < n

variable {ns : List Nat}

theorem above_eq_zero : above m ns = 0 ↔ ∀ n ∈ ns, n ≤ m := by
  simp only [above, countP_eq_zero, decide_eq_true_eq, Nat.not_lt]

theorem above_concat (m n : Nat) (ns : List Nat) :
    above m (ns ++ [n]) = above m ns + if m < n then 1 else 0 := by
  simp only [above, countP_append, countP_singleton, decide_eq_true_eq]

theorem above_succ (m : Nat) (ns : List Nat) :
    above m ns = above (m + 1) ns + ns.count (m + 1) := by
  induction ns with
  | nil => rfl
  | cons n ns ih =>
    simp only [above, countP_cons, count_cons, decide_eq_true_eq, beq_iff_eq] at ih ⊢
    rw [ih]
    split <;> split <;> split <;> omega

theorem above_succ_of_mem (hnd : ns.Nodup) (h : m + 1 ∈ ns) :
    above m ns = above (m + 1) ns + 1 := by
  rw [above_succ, count_eq_one_of_mem hnd h]

theorem above_succ_of_not_mem (h : m + 1 ∉ ns) : above m ns = above (m + 1) ns := by
  rw [above_succ, count_eq_zero_of_not_mem h, Nat.add_zero]

end Perfcached.Window
