import Mathlib.Data.List.Nodup
import Mathlib.Data.List.Perm.Basic

/-!
# Perfcached.Lib.Shelves

A family of lists in which every item is at most once.

`Shelved L S` says that the items on the shelves `L` are those of `S`, each on one shelf and once
there. Items change shelves without a change of what there is (`Shelved.exchange`), new ones are put
on a shelf (`Shelved.put`) and some are taken away (`Shelved.take`).
-/

namespace Perfcached.Shelves

open List Function

universe u v

variable {ι : Type u} {α : Type v}

/-- The items of `S` are on the shelves, each once. -/
structure Shelved (L : ι → List α) (S : α → Prop) : Prop where
  nodup : ∀ p, (L p).Nodup
  one : ∀ p q a, a ∈ L p → a ∈ L q → p = q
  all : ∀ a, (∃ p, a ∈ L p) ↔ S a

namespace Shelved

variable {L L' : ι → List α} {S S' : α → Prop} {p q : ι} {a : α}

theorem mem (h : Shelved L S) (ha : a ∈ L p) : S a := (h.all a).mp ⟨p, ha⟩

theorem congr (h : Shelved L S) (hL : ∀ p, L' p = L p) (hS : ∀ a, S' a ↔ S a) : Shelved L' S' := by
  obtain rfl : L' = L := funext hL
  exact ⟨h.nodup, h.one, fun a => (h.all a).trans (hS a).symm⟩

theorem empty (hL : ∀ p, L p = []) (hS : ∀ a, ¬ S a) : Shelved L S := by
  have hnone : ∀ p a, a ∉ L p := fun p a ha => not_mem_nil (hL p ▸ ha)
  refine ⟨fun p => ?_, fun p q a ha => absurd ha (hnone p a), fun a => ?_⟩
  · rw [hL]
    exact nodup_nil
  · exact ⟨fun ⟨p, ha⟩ => absurd ha (hnone p a), fun ha => absurd ha (hS a)⟩

/-- New items go to a place. -/
theorem put (h : Shelved L S) (p : ι) (xs : List α) (hnd : xs.Nodup) (hnew : ∀ a ∈ xs, ¬ S a)
    (hp : L' p = xs ++ L p) (hrest : ∀ r, r ≠ p → L' r = L r)
    (hS : ∀ a, S' a ↔ S a ∨ a ∈ xs) : Shelved L' S' := by
  have hmem : ∀ r a, a ∈ L' r ↔ a ∈ L r ∨ r = p ∧ a ∈ xs := by
    intro r a
    by_cases hr : r = p
    · rw [hr, hp, mem_append]
      exact ⟨fun ha => ha.elim (fun hx => .inr ⟨rfl, hx⟩) .inl,
        fun ha => ha.elim .inr fun hx => .inl hx.2⟩
    · rw [hrest r hr]
      exact ⟨.inl, fun ha => ha.elim id fun hx => absurd hx.1 hr⟩
  refine ⟨?_, ?_, ?_⟩
  · intro r
    by_cases hr : r = p
    · rw [hr, hp]
      exact hnd.append (h.nodup p) fun a hx ha => hnew a hx (h.mem ha)
    · rw [hrest r hr]
      exact h.nodup r
  · intro r r' a ha ha'
    rcases (hmem r a).mp ha with ha | ⟨hr, hx⟩ <;> rcases (hmem r' a).mp ha' with ha' | ⟨hr', hx'⟩
    · exact h.one r r' a ha ha'
    · exact absurd (h.mem ha) (hnew a hx')
    · exact absurd (h.mem ha') (hnew a hx)
    · rw [hr, hr']
  · intro a
    rw [hS, ← h.all a]
    constructor
    · rintro ⟨r, ha⟩
      exact ((hmem r a).mp ha).imp (fun ha => ⟨r, ha⟩) fun hx => hx.2
    · rintro (⟨r, ha⟩ | hx)
      · exact ⟨r, (hmem r a).mpr (.inl ha)⟩
      · exact ⟨p, (hmem p a).mpr (.inr ⟨rfl, hx⟩)⟩

/-- Items leave a place, and with it the shelves. -/
theorem take (h : Shelved L S) (p : ι) (xs : List α) (hp : (L p).Perm (xs ++ L' p))
    (hrest : ∀ r, r ≠ p → L' r = L r) (hS : ∀ a, S' a ↔ S a ∧ a ∉ xs) : Shelved L' S' := by
  have hnd : (xs ++ L' p).Nodup := hp.nodup_iff.mp (h.nodup p)
  have hsub : ∀ r a, a ∈ L' r → a ∈ L r := by
    intro r a ha
    by_cases hr : r = p
    · rw [hr] at ha ⊢
      exact hp.mem_iff.mpr (mem_append_right _ ha)
    · exact hrest r hr ▸ ha
  refine ⟨?_, fun r r' a ha ha' => h.one r r' a (hsub r a ha) (hsub r' a ha'), ?_⟩
  · intro r
    by_cases hr : r = p
    · rw [hr]
      exact hnd.of_append_right
    · rw [hrest r hr]
      exact h.nodup r
  · intro a
    rw [hS, ← h.all a]
    constructor
    · rintro ⟨r, ha⟩
      refine ⟨⟨r, hsub r a ha⟩, fun hx => ?_⟩
      have hr : r = p := h.one r p a (hsub r a ha) (hp.mem_iff.mpr (mem_append_left _ hx))
      rw [hr] at ha
      exact disjoint_of_nodup_append hnd hx ha
    · rintro ⟨⟨r, ha⟩, hx⟩
      by_cases hr : r = p
      · rw [hr] at ha
        exact ⟨p, (mem_append.mp (hp.mem_iff.mp ha)).resolve_left hx⟩
      · exact ⟨r, (hrest r hr).symm ▸ ha⟩

/-- Two places share their items out anew. -/
theorem exchange (h : Shelved L S) (p q : ι) (hpq : p ≠ q)
    (hperm : (L' p ++ L' q).Perm (L p ++ L q)) (hrest : ∀ r, r ≠ p → r ≠ q → L' r = L r) :
    Shelved L' S := by
  classical
  have hdisjoint : (L p).Disjoint (L q) := fun a hp hq => hpq (h.one p q a hp hq)
  have hnd : (L' p ++ L' q).Nodup := hperm.nodup_iff.mpr ((h.nodup p).append (h.nodup q) hdisjoint)
  have hmem : ∀ a, a ∈ L' p ∨ a ∈ L' q ↔ a ∈ L p ∨ a ∈ L q := by
    intro a
    rw [← mem_append, ← mem_append]
    exact hperm.mem_iff
  -- both shelves are cleared, and filled anew
  have hclear : Shelved (update L p []) fun a => S a ∧ a ∉ L p :=
    h.take p (L p) (by simp) (fun r hr => update_of_ne hr _ _) fun _ => Iff.rfl
  have hclear' : Shelved (update (update L p []) q []) fun a => (S a ∧ a ∉ L p) ∧ a ∉ L q :=
    hclear.take q (L q) (by simp [hpq.symm]) (fun r hr => update_of_ne hr _ _) fun _ => Iff.rfl
  have hfill : Shelved (update (update L p (L' p)) q [])
      fun a => ((S a ∧ a ∉ L p) ∧ a ∉ L q) ∨ a ∈ L' p := by
    refine hclear'.put p (L' p) hnd.of_append_left (fun a ha h => ?_) (by simp [hpq])
      (fun r hr => ?_) fun _ => Iff.rfl
    · exact ((hmem a).mp (.inl ha)).elim h.1.2 h.2
    · by_cases hrq : r = q
      · rw [hrq, update_self, update_self]
      · rw [update_of_ne hrq, update_of_ne hrq, update_of_ne hr, update_of_ne hr]
  refine hfill.put q (L' q) hnd.of_append_right (fun a ha h => ?_) (by simp) (fun r hr => ?_)
    fun a => ?_
  · rcases h with h | h
    · exact ((hmem a).mp (.inr ha)).elim h.1.2 h.2
    · exact disjoint_of_nodup_append hnd h ha
  · by_cases hrp : r = p
    · rw [hrp, update_of_ne hpq, update_self]
    · rw [update_of_ne hr, update_of_ne hrp, hrest r hrp hr]
  · have hp : a ∈ L p → S a := h.mem
    have hq : a ∈ L q → S a := h.mem
    have := hmem a
    tauto

/-- One item goes from a place to another. -/
theorem move (h : Shelved L S) (p q : ι) (a : α) (hpq : p ≠ q) (hp : (L p).Perm (a :: L' p))
    (hq : L' q = a :: L q) (hrest : ∀ r, r ≠ p → r ≠ q → L' r = L r) : Shelved L' S := by
  refine h.exchange p q hpq ?_ hrest
  rw [hq]
  exact perm_middle.trans (hp.symm.append_right _)

end Shelved

end Perfcached.Shelves
