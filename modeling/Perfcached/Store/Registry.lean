import Perfcached.Store.Table

/-!
# Perfcached.Store.Registry

The collections of a store, by name (`pc_store_find` of `src/store.c`).

A collection is found by its name among the live slots. `shape` is what that search
looks at: an operation that only changes tables keeps it, so names go on finding the
slots they found (`storeFind_congr`), and a new table in one slot is seen under that
slot's name only (`lookupIn_set`).
-/

namespace Perfcached

open Bytes List Option

/-- `pc_store_find`: the first live slot under that name. -/
def storeFind (reg : List Collection) (name : List Byte) : Option Nat :=
  reg.findIdx? fun c => c.isLive && c.name == name

/-- The record under a key of a named collection. -/
def lookupIn (reg : List Collection) (name : List Byte) (k : Key) : Option Rec :=
  (storeFind reg name).bind fun i => reg[i]?.bind fun c => c.table.lookup k

/-- What `storeFind` looks at, and whether a slot is durable. -/
def shape (c : Collection) : Bool × List Byte × Bool := (c.isLive, c.name, c.durable)

/-- A live, durable slot under that name. -/
def HasSlot (reg : List Collection) (name : List Byte) : Prop :=
  ∃ i c, storeFind reg name = some i ∧ reg[i]? = some c ∧ c.durable

variable {reg : List Collection}

theorem storeFind_congr {reg' : List Collection} (h : reg.map shape = reg'.map shape)
    (name : List Byte) : storeFind reg name = storeFind reg' name := by
  have key : ∀ l : List Collection, storeFind l name =
      (l.map shape).findIdx? fun s => s.1 && s.2.1 == name := by
    intro l
    rw [findIdx?_map]
    rfl
  rw [key, key, h]

variable {name : List Byte} {i : Nat} {c : Collection}

theorem storeFind_name (h : storeFind reg name = some i) (hslot : reg[i]? = some c) :
    c.name = name := by
  obtain ⟨hi, hp, -⟩ := findIdx?_eq_some_iff_getElem.mp h
  obtain ⟨_, rfl⟩ := List.getElem?_eq_some_iff.mp hslot
  simp only [Bool.and_eq_true, beq_iff_eq] at hp
  exact hp.2

theorem HasSlot.congr {reg' : List Collection} (h : reg.map shape = reg'.map shape)
    (hs : HasSlot reg name) : HasSlot reg' name := by
  obtain ⟨i, c, hfind, hslot, hd⟩ := hs
  have hget : (reg.map shape)[i]? = (reg'.map shape)[i]? := by rw [h]
  rw [getElem?_map, hslot, getElem?_map, map_some] at hget
  obtain ⟨c', hslot', hc'⟩ := map_eq_some_iff.mp hget.symm
  refine ⟨i, c', by rw [← storeFind_congr h]; exact hfind, hslot', ?_⟩
  have : c'.durable = c.durable := congrArg (·.2.2) hc'
  rw [this]
  exact hd

theorem shape_set (hslot : reg[i]? = some c) (t : Table) :
    (reg.set i { c with table := t }).map shape = reg.map shape := by
  obtain ⟨hi, hget⟩ := List.getElem?_eq_some_iff.mp hslot
  have hi' : i < (reg.map shape).length := by rwa [List.length_map]
  have hc : shape { c with table := t } = (reg.map shape)[i] := by
    rw [List.getElem_map, hget]
    rfl
  rw [List.map_set, hc, List.set_getElem_self hi']

/-- A new table in one slot: the records of that collection change, and of no other. -/
theorem lookupIn_set (hfind : storeFind reg name = some i) (hslot : reg[i]? = some c) (t : Table) :
    (∀ k, lookupIn (reg.set i { c with table := t }) name k = t.lookup k) ∧
    (∀ name' k, name' ≠ name →
      lookupIn (reg.set i { c with table := t }) name' k = lookupIn reg name' k) := by
  have hi := (List.getElem?_eq_some_iff.mp hslot).1
  have hshape := shape_set hslot t
  refine ⟨fun k => ?_, fun name' k hne => ?_⟩
  · rw [lookupIn, storeFind_congr hshape, hfind, Option.bind_some, List.getElem?_set_self hi]
    rfl
  · unfold lookupIn
    rw [storeFind_congr hshape]
    cases hfind' : storeFind reg name' with
    | none => rfl
    | some j =>
      have hij : i ≠ j := by
        rintro rfl
        exact hne ((storeFind_name hfind' hslot).symm.trans (storeFind_name hfind hslot))
      rw [Option.bind_some, Option.bind_some, List.getElem?_set_ne hij]

end Perfcached
