import Mathlib.Data.List.Perm.Basic
import Mathlib.Data.List.Sort

/-!
# Perfcached.Lib.Rank

Picking the best of a list, in loops.

`beats a b` compares two entries by a key of a linear order. `ranked` is the list with the best
first. Three loops pick from a list without sorting it: one keeps the best so far (`keepBetter`),
one is the selection sort of the first places (`select`), one counts the entries ahead of a given
one. Where no two entries have one key, all three read off `ranked` (`foldl_keepBetter`,
`select_eq`, `mem_take_ranked`), which does not depend on the order of the list (`ranked_congr`).
-/

namespace Perfcached.Rank

open List

universe u v

variable {α : Type u} {κ : Type v}

/-- The better of the best so far and the next entry. -/
def keepBetter (beats : α → α → Bool) (best : Option α) (x : α) : Option α :=
  match best with
  | none => some x
  | some b => if beats x b then some x else some b

/-- The place of the best entry, by a scan from the front. -/
def scan (beats : α → α → Bool) (c : List α) (d : α) : Nat :=
  (List.range' 1 (c.length - 1)).foldl
    (fun best j => if beats (c.getD j d) (c.getD best d) then j else best) 0

/-- The first `n` places of a selection sort: the best entry changes places with the first, and
the rest goes on. -/
def select (beats : α → α → Bool) : Nat → List α → List α
  | 0, _ => []
  | _ + 1, [] => []
  | n + 1, x :: xs =>
    let best := scan beats (x :: xs) x
    (x :: xs).getD best x :: select beats n ((x :: xs).set best x).tail

/-! ### The first places of a list with an entry more -/

section First

variable {l r : List α} {x : α} {k : Nat}

theorem take_insert_of_lt (h : l.length < k) :
    (l ++ x :: r).take k = l ++ x :: r.take (k - 1 - l.length) := by
  obtain ⟨j, rfl⟩ := Nat.exists_eq_add_of_lt h
  rw [take_append, take_of_length_le (by omega)]
  have hj : l.length + j + 1 - l.length = j + 1 := by omega
  rw [hj, take_succ_cons]
  congr 3
  omega

theorem take_others (h : l.length < k) :
    (l ++ r).take (k - 1) = l ++ r.take (k - 1 - l.length) := by
  have hle : l.length ≤ k - 1 := by omega
  rw [take_append, take_of_length_le hle]

theorem mem_take_insert (hl : x ∉ l) : x ∈ (l ++ x :: r).take k ↔ l.length < k := by
  constructor
  · intro hmem
    by_contra hge
    rw [take_append_of_le_length (Nat.le_of_not_lt hge)] at hmem
    exact hl (mem_of_mem_take hmem)
  · intro hlt
    rw [take_insert_of_lt hlt]
    exact mem_append_right l mem_cons_self

theorem erase_take_insert [DecidableEq α] (hl : x ∉ l) (h : l.length < k) :
    ((l ++ x :: r).take k).erase x = (l ++ r).take (k - 1) := by
  rw [take_insert_of_lt h, take_others h, erase_append_right _ hl, erase_cons_head]

/-- But for the entry, they are the first of the others. -/
theorem filter_take_insert [DecidableEq α] (hl : x ∉ l) (hr : x ∉ r) :
    ((l ++ x :: r).take k).filter (fun y => y ≠ x) =
      (l ++ r).take (if l.length < k then k - 1 else k) := by
  have hkeep : ∀ ys : List α, x ∉ ys → ys.filter (fun y => y ≠ x) = ys := by
    intro ys hys
    refine filter_eq_self.mpr fun y hy => decide_eq_true ?_
    rintro rfl
    exact hys hy
  by_cases hlt : l.length < k
  · rw [if_pos hlt, take_insert_of_lt hlt, take_others hlt, filter_append,
      filter_cons_of_neg (by simp), hkeep l hl, hkeep _ fun h => hr (mem_of_mem_take h)]
  · have hge : k ≤ l.length := Nat.le_of_not_lt hlt
    rw [if_neg hlt, take_append_of_le_length hge, take_append_of_le_length hge]
    exact hkeep _ fun h => hl (mem_of_mem_take h)

end First

section

variable [LinearOrder κ] (key : α → κ)

def ranked (xs : List α) : List α := xs.mergeSort fun a b => decide (key b ≤ key a)

theorem ranked_perm (xs : List α) : (ranked key xs).Perm xs := mergeSort_perm xs _

theorem ranked_sorted (xs : List α) : (ranked key xs).Pairwise fun a b => key b ≤ key a := by
  have h := @List.pairwise_mergeSort α (fun a b => decide (key b ≤ key a)) ?_ ?_ xs
  · exact h.imp of_decide_eq_true
  · intro a b c hab hbc
    simp only [decide_eq_true_eq] at hab hbc ⊢
    exact le_trans hbc hab
  · intro a b
    simpa only [Bool.or_eq_true, decide_eq_true_eq] using le_total (key b) (key a)

variable {key} {xs ys : List α}

/-- Sorted, the list is the only one of its entries. -/
theorem eq_ranked (hnd : (xs.map key).Nodup) (hperm : ys.Perm xs)
    (hsorted : ys.Pairwise fun a b => key b ≤ key a) : ys = ranked key xs := by
  refine Perm.eq_of_pairwise ?_ hsorted (ranked_sorted key xs)
    (hperm.trans (ranked_perm key xs).symm)
  intro a b ha hb hab hba
  exact inj_on_of_nodup_map hnd (hperm.mem_iff.mp ha) ((ranked_perm key xs).mem_iff.mp hb)
    (le_antisymm hba hab)

/-- The ranking does not depend on the order of the list. -/
theorem ranked_congr (hnd : (xs.map key).Nodup) (hperm : ys.Perm xs) :
    ranked key ys = ranked key xs :=
  eq_ranked hnd ((ranked_perm key ys).trans hperm) (ranked_sorted key ys)

variable {x : α}

/-- An entry no other is better than comes first. -/
theorem ranked_cons (hnd : (xs.map key).Nodup) (hperm : (x :: ys).Perm xs)
    (hbest : ∀ y ∈ ys, key y ≤ key x) : ranked key xs = x :: ranked key ys := by
  refine (eq_ranked hnd (((ranked_perm key ys).cons x).trans hperm) ?_).symm
  refine pairwise_cons.mpr ⟨fun y hy => ?_, ranked_sorted key ys⟩
  exact hbest y ((ranked_perm key ys).mem_iff.mp hy)

theorem head?_ranked (hnd : (xs.map key).Nodup) (hx : x ∈ xs) (hbest : ∀ y ∈ xs, key y ≤ key x) :
    (ranked key xs).head? = some x := by
  obtain ⟨l, r, rfl⟩ := append_of_mem hx
  have hperm : (x :: (l ++ r)).Perm (l ++ x :: r) := perm_middle.symm
  rw [ranked_cons hnd hperm fun y hy => hbest y (hperm.mem_iff.mp (mem_cons_of_mem x hy))]
  rfl

/-! ### One entry more -/

/-- Where an entry stands in the ranking: those before it are ahead of it, and no others. -/
theorem ranked_split (hnd : (xs.map key).Nodup) (hx : x ∈ xs) :
    ∃ l r, ranked key xs = l ++ x :: r ∧ x ∉ l ∧
      l.length = xs.countP fun y => decide (key x < key y) := by
  have hperm := ranked_perm key xs
  have hsorted := ranked_sorted key xs
  have hnd' := (hperm.map key).nodup_iff.mpr hnd
  obtain ⟨l, r, hsplit⟩ := append_of_mem (hperm.mem_iff.mpr hx)
  rw [← hperm.countP_eq]
  rw [hsplit] at hsorted hnd' ⊢
  rw [map_append, map_cons] at hnd'
  have hne : ∀ y ∈ l, key y ≠ key x := fun y hy =>
    (nodup_append.mp hnd').2.2 (key y) (mem_map_of_mem hy) (key x) mem_cons_self
  have hl : l.countP (fun y => decide (key x < key y)) = l.length := by
    refine countP_eq_length.mpr fun y hy => decide_eq_true ?_
    have hle := (pairwise_append.mp hsorted).2.2 y hy x mem_cons_self
    exact lt_of_le_of_ne hle (hne y hy).symm
  have hr : (x :: r).countP (fun y => decide (key x < key y)) = 0 := by
    refine countP_eq_zero.mpr fun y hy hlt => not_le_of_gt (of_decide_eq_true hlt) ?_
    rcases mem_cons.mp hy with rfl | hy
    · exact le_rfl
    · exact rel_of_pairwise_cons (pairwise_append.mp hsorted).2.1 hy
  exact ⟨l, r, rfl, fun hmem => hne x hmem rfl, by rw [countP_append, hl, hr, Nat.add_zero]⟩

/-- An entry more takes its place behind those ahead of it, and the others keep their order. -/
theorem ranked_insert (hnd : ((x :: xs).map key).Nodup) :
    ∃ l r, ranked key xs = l ++ r ∧ ranked key (x :: xs) = l ++ x :: r ∧
      l.length = xs.countP fun y => decide (key x < key y) := by
  obtain ⟨l, r, hsplit, -, hlen⟩ := ranked_split hnd mem_cons_self
  have hperm := ranked_perm key (x :: xs)
  have hsorted := ranked_sorted key (x :: xs)
  rw [hsplit] at hperm hsorted
  refine ⟨l, r, ?_, hsplit, hlen.trans (countP_cons_of_neg (by simp))⟩
  refine (eq_ranked (nodup_cons.mp hnd).2 (perm_middle.symm.trans hperm).cons_inv ?_).symm
  exact hsorted.sublist (Sublist.append_left (sublist_cons_self x r) l)

variable {beats : α → α → Bool} (hb : ∀ a b, beats a b = true ↔ key b < key a)

include hb

/-! ### The best so far -/

theorem foldl_keepBetter_some (b : α) (xs : List α) :
    ∃ x, xs.foldl (keepBetter beats) (some b) = some x ∧ x ∈ b :: xs ∧
      ∀ y ∈ b :: xs, key y ≤ key x := by
  induction xs generalizing b with
  | nil => exact ⟨b, rfl, by simp, by simp⟩
  | cons c xs ih =>
    rw [foldl_cons, keepBetter]
    by_cases hbeat : beats c b = true
    · rw [if_pos hbeat]
      obtain ⟨x, hfold, hmem, hbest⟩ := ih c
      refine ⟨x, hfold, mem_cons_of_mem b hmem, fun y hy => ?_⟩
      rcases mem_cons.mp hy with rfl | hy
      · exact le_trans (le_of_lt ((hb c y).mp hbeat)) (hbest c (by simp))
      · exact hbest y hy
    · rw [if_neg hbeat]
      obtain ⟨x, hfold, hmem, hbest⟩ := ih b
      have hc : key c ≤ key b := not_lt.mp fun h => hbeat ((hb c b).mpr h)
      refine ⟨x, hfold, ?_, fun y hy => ?_⟩
      · rcases mem_cons.mp hmem with rfl | hmem
        · exact mem_cons_self
        · exact mem_cons_of_mem b (mem_cons_of_mem c hmem)
      · rcases mem_cons.mp hy with rfl | hy
        · exact hbest y (by simp)
        · rcases mem_cons.mp hy with rfl | hy
          · exact le_trans hc (hbest b (by simp))
          · exact hbest y (mem_cons_of_mem b hy)

/-- The loop that keeps the best so far ends with the first of the ranking. -/
theorem foldl_keepBetter (hnd : (xs.map key).Nodup) :
    xs.foldl (keepBetter beats) none = (ranked key xs).head? := by
  cases xs with
  | nil => simp [ranked]
  | cons b xs =>
    obtain ⟨x, hfold, hmem, hbest⟩ := foldl_keepBetter_some hb b xs
    rw [head?_ranked hnd hmem hbest]
    exact hfold

/-! ### The selection sort -/

/-- The scan of the first `n + 1` entries finds a place whose entry none of them beats. -/
theorem scan_initial (c : List α) (d : α) (n : Nat) :
    let best := (range' 1 n).foldl
      (fun best j => if beats (c.getD j d) (c.getD best d) then j else best) 0
    best ≤ n ∧ ∀ i ≤ n, key (c.getD i d) ≤ key (c.getD best d) := by
  induction n with
  | zero => simp
  | succ n ih =>
    simp only [range'_concat, foldl_append, foldl_cons, foldl_nil, Nat.one_mul] at ih ⊢
    generalize foldl _ 0 (range' 1 n) = best at ih ⊢
    obtain ⟨hle, hbest⟩ := ih
    rw [Nat.add_comm 1 n]
    by_cases hbeat : beats (c.getD (n + 1) d) (c.getD best d) = true
    · rw [if_pos hbeat]
      refine ⟨le_rfl, fun i hi => ?_⟩
      rcases Nat.lt_or_eq_of_le hi with hlt | rfl
      · exact le_trans (hbest i (by omega)) (le_of_lt ((hb _ _).mp hbeat))
      · exact le_rfl
    · rw [if_neg hbeat]
      refine ⟨by omega, fun i hi => ?_⟩
      rcases Nat.lt_or_eq_of_le hi with hlt | rfl
      · exact hbest i (by omega)
      · exact not_lt.mp fun h => hbeat ((hb _ _).mpr h)

theorem scan_best (c : List α) (d : α) : ∀ y ∈ c, key y ≤ key (c.getD (scan beats c d) d) := by
  intro y hy
  obtain ⟨i, hi, rfl⟩ := mem_iff_getElem.mp hy
  have h := (scan_initial hb c d (c.length - 1)).2 i (by omega)
  rwa [getD_eq_getElem?_getD, getElem?_eq_getElem hi] at h

omit [LinearOrder κ] hb in
/-- What a pass of the selection sort takes out, and what it leaves. -/
theorem select_perm (x : α) (xs : List α) (i : Nat) :
    ((x :: xs).getD i x :: ((x :: xs).set i x).tail).Perm (x :: xs) := by
  cases i with
  | zero => exact Perm.refl _
  | succ i => simpa using getD_set_perm_cons xs i x

/-- The selection sort writes the first places of the ranking. -/
theorem select_eq (hnd : (xs.map key).Nodup) (n : Nat) :
    select beats n xs = (ranked key xs).take n := by
  induction n generalizing xs with
  | zero => simp [select]
  | succ n ih =>
    cases xs with
    | nil => simp [select, ranked]
    | cons x xs =>
      have hperm := select_perm x xs (scan beats (x :: xs) x)
      have hbest := scan_best hb (x :: xs) x
      simp only [select]
      generalize hfirst : (x :: xs).getD (scan beats (x :: xs) x) x = first at hperm hbest ⊢
      generalize hrest : ((x :: xs).set (scan beats (x :: xs) x) x).tail = rest at hperm ⊢
      have hnd' := (hperm.map key).nodup_iff.mpr hnd
      rw [map_cons, nodup_cons] at hnd'
      rw [ranked_cons hnd hperm fun y hy => hbest y (hperm.mem_iff.mp (.tail _ hy)),
        take_succ_cons, ih hnd'.2]

/-! ### The entries ahead -/

/-- An entry has one of the first `n` places if fewer than `n` entries are ahead of it. -/
theorem mem_take_ranked (hnd : (xs.map key).Nodup) (hx : x ∈ xs) (n : Nat) :
    x ∈ (ranked key xs).take n ↔ xs.countP (fun y => beats y x) < n := by
  have hcount : xs.countP (fun y => beats y x) = xs.countP fun y => decide (key x < key y) :=
    countP_congr fun y _ => (hb y x).trans decide_eq_true_iff.symm
  obtain ⟨l, r, hsplit, hout, hlen⟩ := ranked_split hnd hx
  rw [hcount, hsplit, ← hlen]
  exact mem_take_insert hout

end

end Perfcached.Rank
