import Mathlib.Data.List.AList
import Perfcached.Lib.Decimal

/-!
# Perfcached.Store.Table

A collection's table, as a finite map from keys to records
(`src/core/pcache_htable.c`).

This is the record-level behaviour of the table's operations, each of which the
source runs under the key's bucket lock: which record a key holds afterwards, its
flags, expiry and version, and the code the operation answers. Buckets, tags and
the seqlock are below this level, and so is a resize in progress (`drain_from` is
`NULL`). `wtick`, the write tick, is read by replication only and is left out.

Time is the tick counter, a parameter of every operation that reads it; the
Lamport clock is passed in and handed back (the clustered build's: one counter).
-/

namespace Perfcached

open Bytes Decimal Option Nat

abbrev Key := List Byte

/-- `pcache_rec_t` less its key: expiry in absolute ticks, 0 for never. -/
structure Rec where
  val : List Byte
  expires : Nat
  rflags : Byte
  ver : Nat
  deriving DecidableEq

/-- A table: every key at most once, in walk order. -/
abbrev Table := AList (fun _ : Key => Rec)

/-- `PCACHE_SLOTS`: the slots of a bucket. -/
def pcacheSlots : Nat := 6

/-- `PCACHE_F_INT`: a native counter, its value eight raw bytes. -/
def fInt : Byte := 0x01#8

/-- `PCACHE_F_SHORTENED`. -/
def fShortened : Byte := 0x80#8

/-- `PCACHE_F_TYPES`: the type bits (JSON, rate limit, hash, lock). -/
def fTypes : Byte := 0x3C#8

/-- `PCACHE_F_CARRY`: the type bits and `PCACHE_F_SHORTENED`, the flags a record keeps on disk. -/
def fCarry : Byte := 0xBC#8

/-- `PCACHE_REC_SIZE`. -/
def recSize (k : Key) (v : List Byte) : Nat := 28 + k.length + v.length

/-- `PCACHE_CELL_MAX`. -/
def cellMax : Nat := 262080

/-- What the arena answers: whether a cell of a size can be carved, and the size of
the cell that holds a record. -/
structure Arena where
  alloc : Nat → Bool
  bound : Key → Rec → Nat

/-- An arena that is never full. -/
def vastArena : Arena := ⟨fun _ => true, fun _ _ => 0⟩

/-- The record is past its deadline (a reader does not see it). -/
def Rec.expired (r : Rec) (ticks : Nat) : Bool := r.expires ≠ 0 && r.expires ≤ ticks

/-- `shortened_fl`: what a write over `old` with deadline `expires` adds to the
flags. -/
def shortenedFl (ticks : Nat) (old : Rec) (expires : Nat) : Byte :=
  if old.expired ticks then 0#8
  else if old.rflags &&& fShortened ≠ 0#8 then fShortened
  else if expires ≠ 0 ∧ (old.expires = 0 ∨ expires < old.expires) then fShortened
  else 0#8

def lamportMaxJump : Nat := 1000000000

/-- `pc_lamport_observe`: fold in a version from outside, unless it jumps too far. -/
def lamportObserve (clock seen : Nat) : Nat :=
  if lamportMaxJump < seen - clock then clock else max clock seen

/-- `ver_local`: a tick of the clock, never at or below the record it replaces. -/
def verLocal (clock : Nat) (old : Option Rec) : Nat :=
  match old with
  | some r => if clock + 1 ≤ r.ver then r.ver + 1 else clock + 1
  | none => clock + 1

/-- The codes a store answers: 0, -1, -2 and `PCACHE_E_OLDER`. -/
inductive StoreRc
  | ok
  | tooBig
  | full
  | older
  deriving DecidableEq

/-- `store_body`. `inver` is the version a copy carries (`use_ver`); without one the
write stamps a tick of its own. -/
def storeBody (A : Arena) (ticks clock : Nat) (t : Table) (k : Key) (v : List Byte)
    (expires : Nat) (rflags : Byte) (inver : Option Nat) : StoreRc × Table × Nat :=
  if 0xFFFF < k.length ∨ cellMax < recSize k v then (.tooBig, t, clock)
  else
    let clock := (inver.map (lamportObserve clock)).getD clock
    let nr := A.alloc (recSize k v)
    match t.lookup k with
    | some old =>
      if inver.any (· ≤ old.ver) then (.older, t, clock)
      -- an unchanged value, or one that fits the cell, needs no cell of its own
      else if v = old.val ∨ recSize k v ≤ A.bound k old ∨ nr then
        let r : Rec :=
          { val := v, expires, rflags := rflags ||| shortenedFl ticks old expires
            ver := inver.getD (verLocal clock (some old)) }
        (.ok, t.insert k r, if inver.isSome then clock else clock + 1)
      else (.full, t, clock)
    | none =>
      if nr then
        let r : Rec := { val := v, expires, rflags, ver := inver.getD (verLocal clock none) }
        (.ok, t.insert k r, if inver.isSome then clock else clock + 1)
      else (.full, t, clock)

/-- `pcache_ht_store_ex`. -/
def htStoreEx (A : Arena) (ticks clock : Nat) (t : Table) (k : Key) (v : List Byte)
    (expires : Nat) (rflags : Byte) : StoreRc × Table × Nat :=
  storeBody A ticks clock t k v expires rflags none

/-- `pcache_ht_store_ver`. -/
def htStoreVer (A : Arena) (ticks clock : Nat) (t : Table) (k : Key) (v : List Byte)
    (expires : Nat) (rflags : Byte) (ver : Nat) : StoreRc × Table × Nat :=
  storeBody A ticks clock t k v expires rflags (some ver)

/-- `pcache_ht_getver`: the version of a live record. -/
def htGetver (ticks : Nat) (t : Table) (k : Key) : Option Nat :=
  match t.lookup k with
  | some r => if r.expired ticks then none else some r.ver
  | none => none

/-- `pcache_ht_setver`. -/
def htSetver (t : Table) (k : Key) (ver : Nat) : Table :=
  match t.lookup k with
  | some r => t.insert k { r with ver }
  | none => t

/-- `pcache_ht_touch`: re-arms the record the key holds, expired or not. -/
def htTouch (ticks clock : Nat) (t : Table) (k : Key) (expires : Nat) : Bool × Table × Nat :=
  match t.lookup k with
  | some r =>
    (true, t.insert k { r with rflags := r.rflags ||| shortenedFl ticks r expires, expires,
                               ver := verLocal clock (some r) }, clock + 1)
  | none => (false, t, clock)

/-- `pcache_ht_remove`: the clock ticks whether or not there was a record. -/
def htRemove (clock : Nat) (t : Table) (k : Key) : Table × Nat := (t.erase k, clock + 1)

/-- `pcache_ht_drop_older`. -/
def htDropOlder (t : Table) (k : Key) (ver : Nat) : Table :=
  if ver = 0 then t
  else
    match t.lookup k with
    | some r => if ver ≤ r.ver then t else t.erase k
    | none => t

/-- What a read of the key finds. -/
def htFetch (ticks : Nat) (t : Table) (k : Key) : Option (List Byte) :=
  match t.lookup k with
  | some r => if r.expired ticks then none else some r.val
  | none => none

/-! ### What the operations leave -/

section

variable (t : Table) (k k' : Key)

theorem lookup_insert (r : Rec) :
    (t.insert k r).lookup k' = if k' = k then some r else t.lookup k' := by
  by_cases h : k' = k
  · subst h
    rw [if_pos rfl, AList.lookup_insert]
  · rw [if_neg h, AList.lookup_insert_ne h]

theorem lookup_erase : (t.erase k).lookup k' = if k' = k then none else t.lookup k' := by
  by_cases h : k' = k
  · subst h
    rw [if_pos rfl, AList.lookup_erase]
  · rw [if_neg h, AList.lookup_erase_ne h]

theorem lookup_htSetver (ver : Nat) :
    (htSetver t k ver).lookup k' =
      if k' = k then (t.lookup k).map fun r => { r with ver } else t.lookup k' := by
  unfold htSetver
  cases h : t.lookup k with
  | some r => rw [lookup_insert]; rfl
  | none =>
    by_cases hk : k' = k
    · rw [if_pos hk, hk, h]
      rfl
    · rw [if_neg hk]

end

/-- The sizes a store accepts. -/
@[mk_iff]
structure Storable (k : Key) (v : List Byte) : Prop where
  key : k.length ≤ 0xFFFF
  size : recSize k v ≤ cellMax

instance (k : Key) (v : List Byte) : Decidable (Storable k v) :=
  decidable_of_iff' _ (storable_iff k v)

variable {k : Key} {v : List Byte}

theorem storeBody_of_storable (h : Storable k v) (A : Arena) (ticks clock : Nat) (t : Table)
    (expires : Nat) (rflags : Byte) (inver : Option Nat) :
    storeBody A ticks clock t k v expires rflags inver =
      let clock := (inver.map (lamportObserve clock)).getD clock
      match t.lookup k with
      | some old =>
        if inver.any (· ≤ old.ver) then (.older, t, clock)
        else if v = old.val ∨ recSize k v ≤ A.bound k old ∨ A.alloc (recSize k v) then
          (.ok, t.insert k ⟨v, expires, rflags ||| shortenedFl ticks old expires,
            inver.getD (verLocal clock (some old))⟩, if inver.isSome then clock else clock + 1)
        else (.full, t, clock)
      | none =>
        if A.alloc (recSize k v) then
          (.ok, t.insert k ⟨v, expires, rflags, inver.getD (verLocal clock none)⟩,
            if inver.isSome then clock else clock + 1)
        else (.full, t, clock) := by
  unfold storeBody
  rw [if_neg]
  have := h.key
  have := h.size
  omega

/-- A store under a key the table does not hold. -/
theorem htStoreEx_absent {A : Arena} (h : Storable k v) (ha : A.alloc (recSize k v)) {t : Table}
    (ht : t.lookup k = none) (ticks clock expires : Nat) (rflags : Byte) :
    htStoreEx A ticks clock t k v expires rflags =
      (.ok, t.insert k ⟨v, expires, rflags, clock + 1⟩, clock + 1) := by
  rw [htStoreEx, storeBody_of_storable h]
  simp [ht, ha, verLocal]

/-- A store that carries a version, where there is room for it: it lands over an older
version only. -/
theorem htStoreVer_roomy {A : Arena} (h : Storable k v) (ha : A.alloc (recSize k v))
    (ticks clock : Nat) (t : Table) (expires : Nat) (rflags : Byte) (ver : Nat) :
    htStoreVer A ticks clock t k v expires rflags ver =
      match t.lookup k with
      | some old =>
        if ver ≤ old.ver then (.older, t, lamportObserve clock ver)
        else (.ok, t.insert k ⟨v, expires, rflags ||| shortenedFl ticks old expires, ver⟩,
          lamportObserve clock ver)
      | none => (.ok, t.insert k ⟨v, expires, rflags, ver⟩, lamportObserve clock ver) := by
  rw [htStoreVer, storeBody_of_storable h]
  simp only [map_some, getD_some, isSome_some, if_true, any_some]
  generalize lamportObserve clock ver = clock'
  cases t.lookup k with
  | none => exact if_pos ha
  | some old =>
    by_cases hv : ver ≤ old.ver
    · simp [hv]
    · simp [hv, ha]

/-! ### Other keys -/

section Frame

variable {k k' : Key} (h : k' ≠ k)
include h

theorem lookup_storeBody_ne (A : Arena) (ticks clock : Nat) (t : Table) (v : List Byte)
    (expires : Nat) (rflags : Byte) (inver : Option Nat) :
    (storeBody A ticks clock t k v expires rflags inver).2.1.lookup k' = t.lookup k' := by
  unfold storeBody
  simp only
  split
  · rfl
  · split
    · split
      · rfl
      · split
        · rw [lookup_insert, if_neg h]
        · rfl
    · split
      · rw [lookup_insert, if_neg h]
      · rfl

theorem lookup_htTouch_ne (ticks clock : Nat) (t : Table) (expires : Nat) :
    (htTouch ticks clock t k expires).2.1.lookup k' = t.lookup k' := by
  unfold htTouch
  split
  · rw [lookup_insert, if_neg h]
  · rfl

theorem lookup_htRemove_ne (clock : Nat) (t : Table) :
    (htRemove clock t k).1.lookup k' = t.lookup k' := by
  rw [htRemove, lookup_erase, if_neg h]

theorem lookup_htDropOlder_ne (t : Table) (ver : Nat) :
    (htDropOlder t k ver).lookup k' = t.lookup k' := by
  unfold htDropOlder
  split
  · rfl
  · split
    · split
      · rfl
      · rw [lookup_erase, if_neg h]
    · rfl

theorem lookup_htSetver_ne (t : Table) (ver : Nat) :
    (htSetver t k ver).lookup k' = t.lookup k' := by
  rw [lookup_htSetver, if_neg h]

end Frame

/-! ### Collections -/

/-- A collection: its table, and the table a resize is still draining, if one is. -/
structure Collection where
  name : List Byte
  isLive : Bool
  durable : Bool
  table : Table
  draining : Option Table

/-- The signed 64-bit number in eight bytes. -/
def int64 (v : List Byte) : Int := (BitVec.ofNat 64 (leNat v)).toInt

/-- The value a walk hands over (`emit_entry`): a native counter as text. -/
def Rec.emitVal (r : Rec) : List Byte :=
  if r.rflags &&& fInt ≠ 0#8 ∧ r.val.length = 8 then intText (int64 r.val) else r.val

/-- What a walk hands over can be stored again. -/
theorem Storable.emitVal {r : Rec} (h : Storable k r.val) : Storable k r.emitVal := by
  refine ⟨h.key, ?_⟩
  unfold Rec.emitVal
  split
  · have : (intText (int64 r.val)).length ≤ 20 :=
      length_intText_le ⟨BitVec.le_toInt _, BitVec.toInt_lt⟩
    have := h.key
    unfold recSize cellMax
    omega
  · exact h.size

end Perfcached
