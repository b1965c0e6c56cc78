import Perfcached.Store.Table

/-!
# Perfcached.Store.Operations

The table's other operations: counters, deletes with a bound, and the expiry sweep
(`src/core/pcache_htable.c`).

As in `Perfcached.Store.Table` each operation is what the source does under one bucket lock. The
sweep holds a bucket's lock at a time and takes a batch of it: `reap` is one such hold, over the
keys it looks at. What a delete or a reap publishes to the clock is left to the editions of the
clock (`Perfcached.Store.Clock`).
-/

namespace Perfcached

open Bytes

/-- `PCACHE_F_PASSIVE`: a copy of a record another node authored. -/
def fPassive : Byte := 0x02#8

/-- `PCACHE_EXP_PRESERVE`. -/
def expPreserve : Nat := 0xFFFFFFFF

/-! ### Counters -/

/-- The digits of `pcache_str2ll`, from the number read so far. -/
def str2llFrom (v : BitVec 64) : List Byte → Option (BitVec 64)
  | [] => some v
  | b :: bs =>
    if b < 0x30#8 ∨ 0x39#8 < b then none
    else str2llFrom (v * 10 + (b - 0x30#8).setWidth 64) bs

/-- `pcache_str2ll`: a strict decimal, without a guard against overflow. -/
def str2ll : List Byte → Option (BitVec 64)
  | [] => none
  | b :: bs =>
    if b = 0x2D#8 ∨ b = 0x2B#8 then
      if bs = [] then none else (str2llFrom 0 bs).map fun v => if b = 0x2D#8 then -v else v
    else str2llFrom 0 (b :: bs)

/-- A native counter. -/
def Rec.isInt (r : Rec) : Bool := r.rflags &&& fInt ≠ 0#8

/-- The number a record holds, if it holds one: a counter's eight bytes, or decimal text. -/
def Rec.number (r : Rec) : Option (BitVec 64) :=
  if r.isInt then some (BitVec.ofNat 64 (leNat r.val)) else str2ll r.val

/-- What `pcache_ht_add_ex` answers: the new value and the expiry in force, or an error. -/
inductive AddRc
  | ok (newVal : BitVec 64) (effExpires : Nat)
  | error
  deriving DecidableEq

/-- The record `add_ex_body` leaves for the one it finds, none where that is not a number. A
counter's value is its eight bytes. -/
def addRec (ticks clock : Nat) (old : Option Rec) (delta : BitVec 64) (expires : Nat) :
    AddRc × Option Rec :=
  let keep := expires = expPreserve
  let expires := if keep then 0 else expires
  match old with
  | some r =>
    match r.number with
    | none => (.error, none)
    | some n =>
      let cur := n + delta
      let eff := if keep then r.expires else expires
      -- a counter keeps its flags but for PASSIVE, a string becomes one
      let fl :=
        if r.isInt then
          (if keep then r.rflags else r.rflags ||| shortenedFl ticks r expires) &&& ~~~fPassive
        else fInt ||| shortenedFl ticks r eff
      (.ok cur eff, some ⟨leBytes 8 cur.toNat, eff, fl, verLocal clock (some r)⟩)
  | none => (.ok delta expires, some ⟨leBytes 8 delta.toNat, expires, fInt, verLocal clock none⟩)

def addExBody (A : Arena) (ticks clock : Nat) (t : Table) (k : Key) (delta : BitVec 64)
    (expires : Nat) : AddRc × Table × Nat :=
  if 0xFFFF < k.length ∨ A.alloc (recSize k (leBytes 8 0)) = false then (.error, t, clock)
  else
    match addRec ticks clock (t.lookup k) delta expires with
    | (rc, some r) => (rc, t.insert k r, clock + 1)
    | (rc, none) => (rc, t, clock)

/-- `pcache_ht_add_ex`. -/
def htAddEx (A : Arena) (ticks clock : Nat) (t : Table) (k : Key) (delta : BitVec 64)
    (expires : Nat) : AddRc × Table × Nat :=
  addExBody A ticks clock t k delta expires

/-! ### Deletes -/

/-- The key's record goes, if `p` says so. -/
def dropIf (p : Rec → Bool) (t : Table) (k : Key) : Table :=
  if (t.lookup k).any p then t.erase k else t

/-- The record is dropped if it passes the test. -/
theorem lookup_dropIf (p : Rec → Bool) (t : Table) (k k' : Key) : (dropIf p t k).lookup k' =
      if k' = k then (t.lookup k).filter fun r => !p r else t.lookup k' := by
  unfold dropIf
  by_cases hk : k' = k
  · subst hk
    rw [if_pos rfl]
    cases hl : t.lookup k' with
    | none => simp [hl]
    | some r =>
      rw [Option.any_some, Option.filter_some]
      by_cases hp : p r = true
      · simp [hp, AList.lookup_erase]
      · simp [hp, hl]
  · rw [if_neg hk]
    split
    · rw [lookup_erase, if_neg hk]
    · rfl

/-- The record is one that a delete with the bound `below` takes; 0 is no bound. -/
def Rec.under (below : Nat) (r : Rec) : Bool := below = 0 ∨ r.ver < below

theorem not_under_succ (r : Rec) (v : Nat) : (!r.under (v + 1)) = decide (v < r.ver) := by
  rw [Bool.eq_iff_iff]
  simp [Rec.under]

/-- What `remove_impl` answers: whether a record went, and the version a delete is stamped with. -/
structure Removed where
  gone : Bool
  delVer : Option Nat
  table : Table
  clock : Nat

/-- `remove_impl`; a `drop` stamps nothing. -/
def removeImpl (clock : Nat) (t : Table) (k : Key) (below : Nat) (drop : Bool) : Removed :=
  let dead := (t.lookup k).filter (Rec.under below)
  let t := dropIf (Rec.under below) t k
  if drop then ⟨dead.isSome, none, t, clock⟩
  else ⟨dead.isSome, some (verLocal clock dead), t, clock + 1⟩

/-- `pcache_ht_remove_below`. -/
def htRemoveBelow (clock : Nat) (t : Table) (k : Key) (below : Nat) : Removed :=
  if below = 0 then ⟨false, none, t, clock⟩ else removeImpl clock t k below true

/-- `pcache_ht_remove_upto`; the bound is 64 bits wide. -/
def htRemoveUpto (clock : Nat) (t : Table) (k : Key) (ver : Nat) : Removed :=
  if ver = 0 then ⟨false, none, t, clock⟩ else removeImpl clock t k ((ver + 1) % 2 ^ 64) false

theorem lookup_removeImpl (clock : Nat) (t : Table) (k k' : Key) (below : Nat) (drop : Bool) :
    (removeImpl clock t k below drop).table.lookup k' =
      if k' = k then (t.lookup k).filter fun r => !r.under below else t.lookup k' := by
  have htable : (removeImpl clock t k below drop).table = dropIf (Rec.under below) t k := by
    cases drop <;> rfl
  rw [htable, lookup_dropIf]

/-! ### The sweep -/

/-- One hold of a bucket's lock by `pcache_ht_sweep`: of the keys it looks at, those past their
deadline go. -/
def reap (now : Nat) (t : Table) (ks : List Key) : Table :=
  ks.foldl (dropIf fun r => r.expired now) t

/-- The greatest version among the records that go. -/
def topVer (now : Nat) (t : Table) (ks : List Key) : Nat :=
  (ks.filterMap fun k => (t.lookup k).filter fun r => r.expired now).foldl
    (fun top r => max top r.ver) 0

theorem lookup_reap (now : Nat) (t : Table) (ks : List Key) (k : Key) : (reap now t ks).lookup k =
      if k ∈ ks then (t.lookup k).filter fun r => !r.expired now else t.lookup k := by
  induction ks generalizing t with
  | nil => simp [reap]
  | cons k' ks ih =>
    rw [reap, List.foldl_cons, ← reap, ih, lookup_dropIf]
    by_cases hk : k = k'
    · subst hk
      simp [Option.filter_filter]
    · simp [hk]

/-- Every record past its deadline goes. -/
def purge (now : Nat) (t : Table) : Table := reap now t t.keys

/-- A purge leaves the records that have not expired. -/
theorem lookup_purge (now : Nat) (t : Table) (k : Key) :
    (purge now t).lookup k = (t.lookup k).filter fun r => !r.expired now := by
  rw [purge, lookup_reap]
  split
  · rfl
  · rename_i hk
    have hnone : t.lookup k = none := AList.lookup_eq_none.mpr hk
    rw [hnone, Option.filter_none]

end Perfcached
