import Mathlib

/-!
# Perfcached.Lib.Latest

The latest items of a log.

A log has its items in order, the oldest first. `latest k c l` are those past `c`, and of them the
last `k`. A log that is cut down to its latest items, item by item and with a bound that only goes
up, is the latest part of the whole log (`filter_latest`, `latest_concat`).
-/

namespace Perfcached.Latest

open List

universe u

variable {α : Type u} [LinearOrder α] {l : List α} {c c' t : α}

/-- The last `k` items past `c`. -/
def latest (k : Nat) (c : α) (l : List α) : List α := (l.filter (c < ·)).rtake k

theorem length_latest (k : Nat) (c : α) (l : List α) :
    (latest k c l).length = min k (l.countP (c < ·)) := by
  rw [latest, rtake, length_drop, countP_eq_length_filter]
  omega

theorem mem_of_mem_latest {k : Nat} (h : t ∈ latest k c l) : t ∈ l :=
  mem_of_mem_filter (mem_of_mem_drop h)

theorem pairwise_latest (h : l.Pairwise (· ≤ ·)) (k : Nat) (c : α) :
    (latest k c l).Pairwise (· ≤ ·) := (h.filter _).drop

theorem rtake_latest {j k : Nat} (h : j ≤ k) (c : α) (l : List α) :
    (latest k c l).rtake j = latest j c l := by
  rw [latest, latest, rtake, rtake, rtake, drop_drop, length_drop]
  congr 1
  omega

theorem latest_eq_nil (h : ∀ x ∈ l, x ≤ c) (k : Nat) : latest k c l = [] := by
  have hnone : l.filter (c < ·) = [] := by
    rw [filter_eq_nil_iff]
    intro x hx
    simpa using h x hx
  rw [latest, hnone, rtake_nil]

/-- In order, all is past `c` if the first is. -/
theorem filter_of_head {x : α} (h : (x :: l).Pairwise (· ≤ ·)) (hc : c < x) :
    (x :: l).filter (c < ·) = x :: l := by
  refine filter_eq_self.mpr fun y hy => decide_eq_true ?_
  rcases mem_cons.mp hy with rfl | hy
  · exact hc
  · exact hc.trans_le (rel_of_pairwise_cons h hy)

/-- In order, what is past `c` is what is left after the items up to it. -/
theorem filter_eq_dropWhile (h : l.Pairwise (· ≤ ·)) : l.filter (c < ·) = l.dropWhile (· ≤ c) := by
  induction l with
  | nil => rfl
  | cons x l ih =>
    by_cases hc : x ≤ c
    · rw [filter_cons_of_neg (by simpa using hc),
        dropWhile_cons_of_pos (by simpa using hc), ih (pairwise_cons.mp h).2]
    · rw [dropWhile_cons_of_neg (by simpa using hc), filter_of_head h (not_le.mp hc)]

theorem filter_rtake (h : l.Pairwise (· ≤ ·)) (k : Nat) (c : α) :
    (l.rtake k).filter (c < ·) = (l.filter (c < ·)).rtake k := by
  induction l with
  | nil => simp
  | cons x l ih =>
    by_cases hc : c < x
    · have hall := filter_of_head h hc
      rw [hall, filter_eq_self]
      exact fun y hy => filter_eq_self.mp hall y (mem_of_mem_drop hy)
    · rw [filter_cons_of_neg (by simpa using hc)]
      by_cases hk : k ≤ l.length
      · have hdrop : (x :: l).rtake k = l.rtake k := by
          rw [rtake, rtake, length_cons, Nat.succ_sub hk, drop_succ_cons]
        rw [hdrop, ih (pairwise_cons.mp h).2]
      · have hall : (x :: l).rtake k = x :: l := by
          rw [rtake, length_cons, Nat.sub_eq_zero_of_le (by omega), drop_zero]
        have hlen := length_filter_le (fun y => decide (c < y)) l
        rw [hall, filter_cons_of_neg (by simpa using hc), rtake,
          Nat.sub_eq_zero_of_le (by omega), drop_zero]

theorem filter_latest (h : l.Pairwise (· ≤ ·)) (hc : c ≤ c') (k : Nat) :
    (latest k c l).filter (c' < ·) = latest k c' l := by
  rw [latest, filter_rtake (h.filter _), List.filter_filter, latest]
  congr 2
  funext y
  rw [Bool.and_eq_left_iff_imp]
  intro hy
  exact decide_eq_true (hc.trans_lt (of_decide_eq_true hy))

theorem latest_concat (h : c < t) (k : Nat) (l : List α) :
    latest (k + 1) c (l ++ [t]) = latest k c l ++ [t] := by
  have hkeep : [t].filter (c < ·) = [t] := filter_cons_of_pos (by simpa using h)
  rw [latest, filter_append, hkeep, rtake_concat_succ, latest]

end Perfcached.Latest
