import Mathlib.Data.List.MinMax

/-!
# Perfcached.Lib.Greatest

The greatest number of a list, as a loop finds it, and where it stands.

`xs.foldl (fun d x => max d (f x)) d` is the loop that starts from `d`. What is at or below it is
at or below `d` or some number of the list; what it is at or below, all of them are.
-/

namespace Perfcached.Greatest

open List

universe u

variable {α : Type u} (f : α → Nat) (xs : List α) (d k : Nat)

theorem le_foldl_max_iff : k ≤ xs.foldl (fun d x => max d (f x)) d ↔ k ≤ d ∨ ∃ x ∈ xs, k ≤ f x := by
  induction xs generalizing d with
  | nil => exact (or_iff_left fun ⟨_, hx, _⟩ => nomatch hx).symm
  | cons x xs ih =>
    simp only [foldl_cons, ih, le_max_iff, or_assoc, mem_cons, exists_eq_or_imp]

theorem foldl_max_le_iff : xs.foldl (fun d x => max d (f x)) d ≤ k ↔ d ≤ k ∧ ∀ x ∈ xs, f x ≤ k := by
  induction xs generalizing d with
  | nil => simp
  | cons x xs ih => simp only [foldl_cons, ih, max_le_iff, and_assoc, forall_mem_cons]

theorem exists_greatest {xs : List α} (hne : xs ≠ []) : ∃ x ∈ xs, ∀ y ∈ xs, f y ≤ f x := by
  have hmax : argmax f xs ≠ none := mt argmax_eq_none.mp hne
  obtain ⟨x, hx⟩ := Option.ne_none_iff_exists'.mp hmax
  exact ⟨x, argmax_mem hx, fun y hy => le_of_mem_argmax hy hx⟩

end Perfcached.Greatest
