import Mathlib.Data.List.Nodup
import Mathlib.Data.List.Perm.Basic

/-!
# Perfcached.Lib.Slots

An array of slots, each under a key, that is searched from the front.

A slot is found by its key (`find`), changed in place (`update`), added at the end, and removed by
moving the last slot into its place (`remove`, and `sweep` for many). Where no two slots share a
key, what is found under a key after a change depends on what was found before it only
(`find_update`, `find_append`, `find_remove`, `find_filter`).
-/

namespace Perfcached.Slots

open List Option Nat

universe u v

variable {α : Type u} {κ : Type v} [DecidableEq κ] (key : α → κ)

def find (k : κ) (xs : List α) : Option α := xs.find? fun x => key x = k

/-- A change of the first slot under a key. -/
def update (k : κ) (f : α → α) : List α → List α
  | [] => []
  | x :: xs => if key x = k then f x :: xs else x :: update k f xs

/-- The last slot takes the place of the one under a key. -/
def remove (k : κ) (xs : List α) : List α :=
  match xs.findIdx? (fun x => key x = k), xs.getLast? with
  | some i, some last => (xs.set i last).dropLast
  | _, _ => xs

/-- A pass over the array from index `i` on that removes the slots with `p`, the last slot moving
into the place of each. A step moves on or shortens the array, so `fuel` is what is ahead of it. -/
def sweep (p : α → Bool) : Nat → Nat → List α → List α
  | 0, _, xs => xs
  | fuel + 1, i, xs =>
    match xs[i]?, xs.getLast? with
    | some x, some last =>
      if p x then sweep p fuel i (xs.set i last).dropLast else sweep p fuel (i + 1) xs
    | _, _ => xs

/-- The room of an array of `len` elements that gets one more: it doubles when it is full, up to a
limit. -/
def room (len cap limit : Nat) : Nat :=
  if len = cap then min (if cap = 0 then 4 else cap * 2) limit else cap

variable {key} {k k' : κ} {x y : α} {xs : List α} {f : α → α}

theorem mem_of_find (h : find key k xs = some x) : x ∈ xs ∧ key x = k := by
  have hkey := find?_some h
  exact ⟨mem_of_find?_eq_some h, of_decide_eq_true hkey⟩

theorem find_eq_none : find key k xs = none ↔ k ∉ xs.map key := by
  simp [find, find?_eq_none]

theorem find_of_mem (hnd : (xs.map key).Nodup) (hx : x ∈ xs) : find key (key x) xs = some x := by
  cases hfind : find key (key x) xs with
  | none => exact absurd (mem_map_of_mem hx) (find_eq_none.mp hfind)
  | some y =>
    obtain ⟨hy, hkey⟩ := mem_of_find hfind
    rw [inj_on_of_nodup_map hnd hy hx hkey]

/-! ### Changes in place -/

theorem keys_update (hf : ∀ x, key x = k → key (f x) = k) :
    (update key k f xs).map key = xs.map key := by
  induction xs with
  | nil => rfl
  | cons x xs ih =>
    unfold update
    split
    · simp [hf x ‹_›, *]
    · simp [ih]

/-- An update changes what is found under its key. -/
theorem find_update (hf : ∀ x, key x = k → key (f x) = k) : find key k' (update key k f xs) =
      if k' = k then (find key k' xs).map f else find key k' xs := by
  induction xs with
  | nil => simp [find, update]
  | cons x xs ih =>
    unfold find at ih ⊢
    unfold update
    by_cases hx : key x = k
    · by_cases hk : k' = k
      · simp [hx, hk, hf x hx]
      · simp [hx, hk, hf x hx, Ne.symm hk]
    · by_cases hk : key x = k'
      · simp [hk, hk ▸ hx]
      · simp [hx, hk, ih]

/-- What is in the array after a change was there before, or is the changed slot. -/
theorem mem_update (hnd : (xs.map key).Nodup) (hy : y ∈ update key k f xs) :
    y ∈ xs ∧ key y ≠ k ∨ ∃ x, find key k xs = some x ∧ y = f x := by
  induction xs with
  | nil => simp [update] at hy
  | cons x xs ih =>
    rw [map_cons, nodup_cons] at hnd
    unfold update at hy
    by_cases hx : key x = k
    · rw [if_pos hx, mem_cons] at hy
      rcases hy with rfl | hy
      · exact .inr ⟨x, by simp [find, hx], rfl⟩
      · refine .inl ⟨mem_cons_of_mem x hy, fun hk => hnd.1 ?_⟩
        rw [hx, ← hk]
        exact mem_map_of_mem hy
    · rw [if_neg hx, mem_cons] at hy
      rcases hy with rfl | hy
      · exact .inl ⟨mem_cons_self, hx⟩
      · refine (ih hnd.2 hy).imp (fun ⟨hmem, hk⟩ => ⟨mem_cons_of_mem x hmem, hk⟩) ?_
        rintro ⟨z, hz, rfl⟩
        refine ⟨z, ?_, rfl⟩
        rw [find, find?_cons, decide_eq_false hx]
        exact hz

theorem mem_or_of_mem_update (hy : y ∈ update key k f xs) : y ∈ xs ∨ ∃ x ∈ xs, y = f x := by
  induction xs with
  | nil => cases hy
  | cons x xs ih =>
    rw [update] at hy
    split at hy
    · rcases mem_cons.mp hy with rfl | hy
      · exact .inr ⟨x, mem_cons_self, rfl⟩
      · exact .inl (mem_cons_of_mem x hy)
    · rcases mem_cons.mp hy with rfl | hy
      · exact .inl mem_cons_self
      · exact (ih hy).imp (mem_cons_of_mem x) fun ⟨z, hz, heq⟩ => ⟨z, mem_cons_of_mem x hz, heq⟩

/-! ### A slot is added -/

omit [DecidableEq κ] in
theorem nodup_append (hnd : (xs.map key).Nodup) (hx : key x ∉ xs.map key) :
    ((xs ++ [x]).map key).Nodup := by
  rw [map_append, map_singleton, ← concat_eq_append]
  exact hnd.concat hx

theorem find_append : find key k (xs ++ [x]) =
    (find key k xs).or (if key x = k then some x else none) := by
  rw [find, find?_append]
  by_cases hx : key x = k <;> simp [find, hx]

/-! ### A slot is removed -/

omit [DecidableEq κ] in
/-- The last element takes the place of one that goes; what is before it stays. -/
theorem set_dropLast (xs ys : List α) (x last : α) (hlast : (xs ++ x :: ys).getLast? = some last) :
    ∃ zs, ((xs ++ x :: ys).set xs.length last).dropLast = xs ++ zs ∧ zs.Perm ys := by
  rw [set_append_right _ _ (Nat.le_refl _), Nat.sub_self, set_cons_zero]
  rcases eq_nil_or_concat ys with rfl | ⟨zs, z, rfl⟩
  · exact ⟨[], by simp, Perm.refl _⟩
  · have hz : z = last := by
      rw [concat_eq_append, ← cons_append, ← append_assoc, getLast?_concat] at hlast
      exact some.inj hlast
    subst hz
    refine ⟨z :: zs, ?_, ?_⟩
    · rw [concat_eq_append, ← cons_append, ← append_assoc, dropLast_concat]
    · rw [concat_eq_append]
      exact (perm_append_singleton z zs).symm

omit [DecidableEq κ] in
theorem perm_set_dropLast (xs ys : List α) (x last : α)
    (hlast : (xs ++ x :: ys).getLast? = some last) :
    (((xs ++ x :: ys).set xs.length last).dropLast).Perm (xs ++ ys) := by
  obtain ⟨zs, heq, hperm⟩ := set_dropLast xs ys x last hlast
  rw [heq]
  exact hperm.append_left xs

/-- The slot of that name goes and the others are moved about, or there is none. -/
theorem remove_cases (k : κ) (xs : List α) : k ∉ xs.map key ∧ remove key k xs = xs ∨
      ∃ ys x zs, xs = ys ++ x :: zs ∧ key x = k ∧ (remove key k xs).Perm (ys ++ zs) := by
  cases hidx : xs.findIdx? (fun x => key x = k) with
  | none =>
    refine .inl ⟨?_, by rw [remove, hidx]⟩
    simpa [findIdx?_eq_none_iff] using hidx
  | some i =>
    obtain ⟨hi, hkey, -⟩ := findIdx?_eq_some_iff_getElem.mp hidx
    have hsplit : xs = xs.take i ++ xs[i] :: xs.drop (i + 1) := by
      rw [← drop_eq_getElem_cons hi, take_append_drop]
    obtain ⟨last, hlast⟩ : ∃ last, xs.getLast? = some last :=
      ⟨_, getLast?_eq_some_getLast (ne_nil_of_length_pos (by omega))⟩
    have hlast' : (xs.take i ++ xs[i] :: xs.drop (i + 1)).getLast? = some last := by
      rw [← hsplit, hlast]
    have hperm := perm_set_dropLast _ _ _ _ hlast'
    rw [← hsplit, length_take_of_le (Nat.le_of_lt hi)] at hperm
    refine .inr ⟨_, _, _, hsplit, of_decide_eq_true hkey, ?_⟩
    rwa [remove, hidx, hlast]

/-- What is left is what was there under the other keys. -/
theorem mem_remove (hnd : (xs.map key).Nodup) : y ∈ remove key k xs ↔ y ∈ xs ∧ key y ≠ k := by
  rcases @remove_cases _ _ _ key k xs with ⟨hk, heq⟩ | ⟨ys, x, zs, hsplit, hx, hperm⟩
  · rw [heq, iff_self_and]
    rintro hy rfl
    exact hk (mem_map_of_mem hy)
  · rw [hsplit, map_append, map_cons, nodup_middle, nodup_cons, ← map_append, hx] at hnd
    rw [hperm.mem_iff, hsplit, mem_append, mem_append, mem_cons]
    constructor
    · intro hy
      refine ⟨hy.imp id .inr, fun hk => hnd.1 ?_⟩
      rw [← hk]
      exact mem_map_of_mem (mem_append.mpr hy)
    · rintro ⟨hy | rfl | hy, hne⟩
      · exact .inl hy
      · exact absurd hx hne
      · exact .inr hy

theorem nodup_remove (hnd : (xs.map key).Nodup) : ((remove key k xs).map key).Nodup := by
  rcases @remove_cases _ _ _ key k xs with ⟨-, heq⟩ | ⟨ys, x, zs, hsplit, -, hperm⟩
  · rwa [heq]
  · rw [(hperm.map key).nodup_iff]
    rw [hsplit, map_append, map_cons, nodup_middle, nodup_cons] at hnd
    rw [map_append]
    exact hnd.2

theorem find_remove (hnd : (xs.map key).Nodup) :
    find key k' (remove key k xs) = if k' = k then none else find key k' xs := by
  split
  · rename_i hk
    subst hk
    rw [find_eq_none, List.mem_map]
    rintro ⟨y, hy, hkey⟩
    exact ((mem_remove hnd).mp hy).2 hkey
  · rename_i hk
    cases hfind : find key k' xs with
    | none =>
      rw [find_eq_none, List.mem_map] at hfind ⊢
      exact fun ⟨y, hy, hkey⟩ => hfind ⟨y, ((mem_remove hnd).mp hy).1, hkey⟩
    | some y =>
      obtain ⟨hy, rfl⟩ := mem_of_find hfind
      exact find_of_mem (nodup_remove hnd) ((mem_remove hnd).mpr ⟨hy, hk⟩)

/-! ### A sweep -/

omit [DecidableEq κ] in
/-- What is behind the index has been kept. -/
theorem sweep_perm_append {p : α → Bool} {fuel : Nat} {xs ys : List α} (hfuel : ys.length ≤ fuel) :
    (sweep p fuel xs.length (xs ++ ys)).Perm (xs ++ ys.filter fun x => !p x) := by
  induction fuel generalizing xs ys with
  | zero =>
    obtain rfl := length_eq_zero_iff.mp (le_zero.mp hfuel)
    exact Perm.refl _
  | succ fuel ih =>
    cases ys with
    | nil => simp [sweep]
    | cons y ys =>
      have hlen : ys.length ≤ fuel := le_of_succ_le_succ hfuel
      have hat : (xs ++ y :: ys)[xs.length]? = some y := by simp
      obtain ⟨last, hlast⟩ : ∃ last, (xs ++ y :: ys).getLast? = some last :=
        ⟨_, getLast?_eq_some_getLast (by simp)⟩
      rw [sweep, hat, hlast]
      by_cases hp : p y = true
      · obtain ⟨zs, heq, hperm⟩ := set_dropLast xs ys y last hlast
        simp only [hp, if_true, heq]
        refine (ih (by rw [hperm.length_eq]; exact hlen)).trans ?_
        rw [filter_cons_of_neg (by simp [hp])]
        exact (hperm.filter _).append_left xs
      · simp only [hp, Bool.false_eq_true, if_false]
        have hmove := @ih (xs ++ [y]) ys hlen
        rw [length_append, length_singleton, append_assoc] at hmove
        refine hmove.trans ?_
        rw [filter_cons_of_pos (by simp [hp]), append_assoc]
        exact Perm.refl _

omit [DecidableEq κ] in
theorem sweep_perm (p : α → Bool) (xs : List α) :
    (sweep p xs.length 0 xs).Perm (xs.filter fun x => !p x) :=
  @sweep_perm_append _ p xs.length [] xs (Nat.le_refl _)

omit [DecidableEq κ] in
theorem nodup_filter (p : α → Bool) (hnd : (xs.map key).Nodup) : ((xs.filter p).map key).Nodup :=
  hnd.sublist (filter_sublist.map key)

theorem find_perm {ys : List α} (hnd : (xs.map key).Nodup) (h : xs.Perm ys) :
    find key k ys = find key k xs := by
  cases hfind : find key k xs with
  | none =>
    rw [find_eq_none] at hfind ⊢
    exact fun hk => hfind ((h.map key).mem_iff.mpr hk)
  | some x =>
    obtain ⟨hx, rfl⟩ := mem_of_find hfind
    exact find_of_mem ((h.map key).nodup_iff.mp hnd) (h.mem_iff.mp hx)

theorem find_filter (p : α → Bool) (hnd : (xs.map key).Nodup) :
    find key k (xs.filter p) = (find key k xs).filter p := by
  cases hfind : find key k xs with
  | none =>
    rw [find_eq_none] at hfind
    rw [filter_none, find_eq_none]
    exact fun hk => hfind ((filter_sublist.map key).subset hk)
  | some x =>
    obtain ⟨hx, rfl⟩ := mem_of_find hfind
    by_cases hp : p x = true
    · rw [filter_some_pos hp]
      exact find_of_mem (nodup_filter p hnd) (mem_filter.mpr ⟨hx, hp⟩)
    · rw [filter_some_neg (Bool.eq_false_iff.mpr hp), find_eq_none, List.mem_map]
      rintro ⟨y, hy, hkey⟩
      obtain ⟨hy, hpy⟩ := mem_filter.mp hy
      rw [inj_on_of_nodup_map hnd hy hx hkey] at hpy
      exact hp hpy

end Perfcached.Slots
