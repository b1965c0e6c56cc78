import Mathlib.Data.List.Nodup

/-!
# Perfcached.Lib.OrderedMap

A map as the list of its entries, oldest first.

Setting a key that is there replaces its value and keeps its place; a new key goes to the end;
deleting closes the gap. `set_of_split` and its companions say so for a list split at a key's
first entry. `List.lookup` is the reading.
-/

namespace Perfcached.OrderedMap

open List

universe u v

variable {K : Type u} {V : Type v}

def keys (es : List (K × V)) : List K := es.map Prod.fst

@[simp] theorem keys_append (es es' : List (K × V)) : keys (es ++ es') = keys es ++ keys es' :=
  map_append

@[simp] theorem keys_cons (e : K × V) (es : List (K × V)) : keys (e :: es) = e.1 :: keys es := rfl

variable {a b es : List (K × V)} {k : K}

section Lookup

variable [BEq K] [LawfulBEq K]

theorem lookup_of_split (ha : k ∉ keys a) (v : V) : (a ++ (k, v) :: b).lookup k = some v := by
  induction a with
  | nil => rw [nil_append, lookup_cons_self]
  | cons e a ih =>
    rw [keys_cons, mem_cons, not_or] at ha
    rw [cons_append, lookup_cons, beq_false_of_ne ha.1, ih ha.2]

theorem lookup_of_not_mem (h : k ∉ keys es) : es.lookup k = none := by
  induction es with
  | nil => rfl
  | cons e es ih =>
    rw [keys_cons, mem_cons, not_or] at h
    rw [lookup_cons, beq_false_of_ne h.1, ih h.2]

end Lookup

variable [DecidableEq K]

/-- The key's first entry gets the value, or a new entry follows the last. -/
def set : List (K × V) → K → V → List (K × V)
  | [], k, v => [(k, v)]
  | e :: es, k, v => if e.1 = k then (k, v) :: es else e :: set es k v

/-- The key's first entry goes. -/
def del : List (K × V) → K → List (K × V)
  | [], _ => []
  | e :: es, k => if e.1 = k then es else e :: del es k

/-- A list splits at the first entry of a key it has. -/
theorem exists_split (h : k ∈ keys es) : ∃ a v b, es = a ++ (k, v) :: b ∧ k ∉ keys a := by
  induction es with
  | nil => cases h
  | cons e es ih =>
    by_cases he : e.1 = k
    · exact ⟨[], e.2, es, by rw [← he, nil_append], not_mem_nil⟩
    · obtain ⟨a, v, b, rfl, ha⟩ := ih ((mem_cons.mp h).resolve_left (Ne.symm he))
      refine ⟨e :: a, v, b, rfl, fun hmem => ?_⟩
      exact (mem_cons.mp hmem).elim (fun h => he h.symm) ha

theorem set_of_split (ha : k ∉ keys a) (v v' : V) :
    set (a ++ (k, v) :: b) k v' = a ++ (k, v') :: b := by
  induction a with
  | nil => rw [nil_append, set, if_pos rfl, nil_append]
  | cons e a ih =>
    rw [keys_cons, mem_cons, not_or] at ha
    rw [cons_append, set, if_neg (Ne.symm ha.1), ih ha.2, cons_append]

theorem del_of_split (ha : k ∉ keys a) (v : V) : del (a ++ (k, v) :: b) k = a ++ b := by
  induction a with
  | nil => rw [nil_append, del, if_pos rfl, nil_append]
  | cons e a ih =>
    rw [keys_cons, mem_cons, not_or] at ha
    rw [cons_append, del, if_neg (Ne.symm ha.1), ih ha.2, cons_append]

theorem set_of_not_mem (h : k ∉ keys es) (v : V) : set es k v = es ++ [(k, v)] := by
  induction es with
  | nil => rfl
  | cons e es ih =>
    rw [keys_cons, mem_cons, not_or] at h
    rw [set, if_neg (Ne.symm h.1), ih h.2, cons_append]

theorem del_of_not_mem (h : k ∉ keys es) : del es k = es := by
  induction es with
  | nil => rfl
  | cons e es ih =>
    rw [keys_cons, mem_cons, not_or] at h
    rw [del, if_neg (Ne.symm h.1), ih h.2]

theorem mem_set {v : V} {e : K × V} (h : e ∈ set es k v) : e.1 = k ∨ e ∈ es := by
  by_cases hk : k ∈ keys es
  · obtain ⟨a, w, b, rfl, ha⟩ := exists_split hk
    rw [set_of_split ha, mem_append, mem_cons] at h
    rcases h with h | rfl | h
    · exact .inr (mem_append_left _ h)
    · exact .inl rfl
    · exact .inr (mem_append_right _ (mem_cons_of_mem _ h))
  · rw [set_of_not_mem hk, mem_append, mem_singleton] at h
    rcases h with h | rfl
    · exact .inr h
    · exact .inl rfl

theorem mem_of_mem_del {e : K × V} (h : e ∈ del es k) : e ∈ es := by
  by_cases hk : k ∈ keys es
  · obtain ⟨a, w, b, rfl, ha⟩ := exists_split hk
    rw [del_of_split ha, mem_append] at h
    exact mem_append.mpr (h.imp_right (mem_cons_of_mem _))
  · rwa [del_of_not_mem hk] at h

theorem nodup_set (h : (keys es).Nodup) (k : K) (v : V) : (keys (set es k v)).Nodup := by
  by_cases hk : k ∈ keys es
  · obtain ⟨a, w, b, rfl, ha⟩ := exists_split hk
    rw [set_of_split ha]
    simpa only [keys_append, keys_cons] using h
  · rw [set_of_not_mem hk, keys_append]
    refine Nodup.append h (nodup_singleton k) ?_
    exact disjoint_singleton.mpr hk

theorem nodup_del (h : (keys es).Nodup) (k : K) :
    (keys (del es k)).Nodup ∧ k ∉ keys (del es k) := by
  by_cases hk : k ∈ keys es
  · obtain ⟨a, w, b, rfl, ha⟩ := exists_split hk
    rw [del_of_split ha]
    rw [keys_append, keys_cons] at h
    rw [keys_append, mem_append, not_or]
    exact ⟨h.sublist (Sublist.append_left (sublist_cons_self k (keys b)) _), ha,
      (nodup_cons.mp h.of_append_right).1⟩
  · rw [del_of_not_mem hk]
    exact ⟨h, hk⟩

/-- What `set` does to the map of the entries. -/
theorem lookup_set [BEq K] [LawfulBEq K] (es : List (K × V)) (k k' : K) (v : V) :
    (set es k v).lookup k' = if k' = k then some v else es.lookup k' := by
  have hcons : ∀ (e : K × V) es,
      (e :: es).lookup k' = if k' = e.1 then some e.2 else es.lookup k' := by
    intro e es
    by_cases h : k' = e.1
    · rw [lookup_cons, h, beq_self_eq_true, if_pos rfl]
    · rw [lookup_cons, beq_false_of_ne h, if_neg h]
  induction es with
  | nil => rw [set, hcons]
  | cons e es ih =>
    rw [set]
    split_ifs with he hk hk
    · rw [hcons, if_pos hk]
    · rw [hcons, hcons, he, if_neg hk, if_neg hk]
    · rw [hcons, ih, if_pos hk, if_neg (hk ▸ Ne.symm he)]
    · rw [hcons, hcons, ih, if_neg hk]

end Perfcached.OrderedMap
