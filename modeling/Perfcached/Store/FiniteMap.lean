import Perfcached.Lib.Machine
import Perfcached.Store.Operations
import Perfcached.Store.Sweep

/-!
# Perfcached.Store.FiniteMap

The table of buckets is a finite map (`store_body`, `add_ex_body` and `remove_impl` in
`src/core/pcache_htable.c`).

The operations are here what the source does to the buckets. Their counterparts in
`Perfcached.Store.Table` and `Perfcached.Store.Operations` are what they do to a map of records,
with memory that is never short: `mapStep` is that, and nothing where an operation failed. The
lookups of a table after any run are those of the map (`table_is_map`), whatever the hash, and
whenever a cell or an overflow bucket is refused. A sweep of such a table takes what has expired and
nothing else (`sweep_takes_expired`).
-/

namespace Perfcached.Ht

open Bytes List Option

/-! ### The source's functions -/

/-- What the arena has for an operation: a cell for its record, an overflow bucket, and the bound of
the cell that the key's record has. -/
structure Supply where
  cell : Bool
  node : Bool
  bound : Nat

section
variable (H : Key → BitVec 32)

/-- The key's place with its record. -/
def HTable.locate (T : HTable) (k : Key) : Option ((Nat × Nat) × Item) :=
  (T.find H k).bind fun w => (recAt (T.bkt (T.route (H k))) w.1 w.2).map fun r => (w, r)

/-- An append needs an overflow bucket, and there is none. -/
def HTable.short (T : HTable) (S : Supply) (k : Key) : Bool :=
  (chainTail (T.bkt (T.route (H k)))).used = pcacheSlots && !S.node

/-- `store_body` on the buckets. -/
def HTable.storeBody (S : Supply) (ticks clock : Nat) (T : HTable) (k : Key) (v : List Byte)
    (expires : Nat) (rflags : Byte) (inver : Option Nat) : StoreRc × HTable × Nat :=
  if 0xFFFF < k.length ∨ cellMax < recSize k v then (.tooBig, T, clock)
  else
    let clock := (inver.map (lamportObserve clock)).getD clock
    let ticked := if inver.isSome then clock else clock + 1
    let idx := T.route (H k)
    match T.locate H k with
    | some (w, old) =>
      let body : Rec :=
        { val := v, expires, rflags := rflags ||| shortenedFl ticks old.body expires
          ver := inver.getD (verLocal clock (some old.body)) }
      if inver.any (· ≤ old.body.ver) then (.older, T, clock)
      -- a deadline moved, or a value that fits the record's cell
      else if v = old.body.val ∨ recSize k v ≤ S.bound then
        (.ok, T.replaceRec idx w { old with body }, ticked)
      else if S.cell then (.ok, T.replaceRec idx w ⟨H k, k, body⟩, ticked)
      else (.full, T, clock)
    | none =>
      if S.cell = false ∨ T.short H S k then (.full, T, clock)
      else
        let body : Rec := { val := v, expires, rflags, ver := inver.getD (verLocal clock none) }
        (.ok, T.appendRec idx ⟨H k, k, body⟩, ticked)

/-- `add_ex_body` on the buckets. -/
def HTable.addExBody (S : Supply) (ticks clock : Nat) (T : HTable) (k : Key) (delta : BitVec 64)
    (expires : Nat) : AddRc × HTable × Nat :=
  if 0xFFFF < k.length ∨ S.cell = false then (.error, T, clock)
  else
    let idx := T.route (H k)
    match T.locate H k with
    | some (w, old) =>
      match addRec ticks clock (some old.body) delta expires with
      | (rc, some body) => (rc, T.replaceRec idx w { old with body }, clock + 1)
      | (rc, none) => (rc, T, clock)
    | none =>
      if T.short H S k then (.error, T, clock)
      else
        match addRec ticks clock none delta expires with
        | (rc, some body) => (rc, T.appendRec idx ⟨H k, k, body⟩, clock + 1)
        | (rc, none) => (rc, T, clock)

/-- `remove_impl` on the buckets: whether a record went, and the version the delete is stamped
with. -/
def HTable.removeImpl (clock : Nat) (T : HTable) (k : Key) (below : Nat) (drop : Bool) :
    (Bool × Option Nat) × HTable × Nat :=
  let dead := (T.locate H k).filter fun q => q.2.body.under below
  let T := dead.elim T fun q => T.removeRec (T.route (H k)) q.1
  if drop then ((dead.isSome, none), T, clock)
  else ((dead.isSome, some (verLocal clock (dead.map fun q => q.2.body))), T, clock + 1)

end

/-! ### The operations on the map -/

section
variable {H : Key → BitVec 32} {T T' : HTable} {t : Table} {k : Key}

/-- A key is at its place with its record, or nowhere. -/
theorem Good.locate_cases (h : Good H T) (k : Key) :
    (∃ w b, T.locate H k = some (w, ⟨H k, k, b⟩) ∧ T.find H k = some w ∧
      T.lookup H k = some b) ∨
    T.locate H k = none ∧ T.find H k = none ∧ T.lookup H k = none := by
  obtain ⟨L, h⟩ := h
  cases hw : T.find H k with
  | none =>
    refine .inr ⟨?_, rfl, ?_⟩
    · rw [HTable.locate, hw]
      rfl
    · rw [HTable.lookup, hw]
      rfl
  | some w =>
    obtain ⟨p, r, hp, hk, hash, rfl⟩ := h.find_some hw
    have hr : r = ⟨H k, k, r.body⟩ := by rw [← hash, ← hk]
    refine .inl ⟨_, r.body, ?_, rfl, h.lookup_of_find hp hw⟩
    rw [HTable.locate, hw, bind_some, h.bkt,
      recAt_layout (List.getElem?_eq_some_iff.mp hp).1, hp, Option.map_some, ← hr]

/-- The lookups of a table are those of a map. -/
def Agrees (H : Key → BitVec 32) (T : HTable) (t : Table) : Prop :=
  ∀ k, T.lookup H k = t.lookup k

theorem Agrees.insert (h : Agrees H T t) {b : Rec}
    (hT : ∀ k', T'.lookup H k' = if k' = k then some b else T.lookup H k') :
    Agrees H T' (t.insert k b) := by
  intro k'
  rw [hT, lookup_insert, h k']

/-- An operation on the buckets left `q` and did what it does to the map `t`, which leaves `r`, or
failed and did nothing. Where its memory is granted it is done if the other is. -/
def Follows (H : Key → BitVec 32) (granted : Prop) (t : Table) (q : Bool × HTable)
    (r : Bool × Table) : Prop :=
  Good H q.2 ∧ Agrees H q.2 (bif q.1 then r.2 else t) ∧ (granted → q.1 = r.1)

/-- The arena has a cell and an overflow bucket. -/
def Supply.Grants (S : Supply) : Prop := S.cell = true ∧ S.node = true

theorem Follows.failed {granted : Prop} {r : Bool × Table} (h : Good H T) (ht : Agrees H T t)
    (hwhy : granted → r.1 = false) : Follows H granted t (false, T) r :=
  ⟨h, ht, fun hg => (hwhy hg).symm⟩

theorem Follows.stored {granted : Prop} {b : Rec} (ht : Agrees H T t)
    (h : Good H T' ∧ ∀ k', T'.lookup H k' = if k' = k then some b else T.lookup H k') :
    Follows H granted t (true, T') (true, t.insert k b) :=
  ⟨h.1, ht.insert h.2, fun _ => rfl⟩

theorem Supply.Grants.not_short {S : Supply} (hS : S.Grants) : T.short H S k = false := by
  rw [HTable.short, hS.2, Bool.not_true, Bool.and_false]

def StoreRc.isOk : StoreRc → Bool
  | .ok => true
  | _ => false

/-- A store's answer and what it leaves. -/
abbrev storeDone {τ : Type} (q : StoreRc × τ × Nat) : Bool × τ := (StoreRc.isOk q.1, q.2.1)

theorem Good.storeBody (h : Good H T) (ht : Agrees H T t) (S : Supply) (ticks clock : Nat) (k : Key)
    (v : List Byte) (expires : Nat) (rflags : Byte) (inver : Option Nat) :
    Follows H S.Grants t (storeDone (T.storeBody H S ticks clock k v expires rflags inver))
      (storeDone (storeBody vastArena ticks clock t k v expires rflags inver)) := by
  unfold HTable.storeBody Perfcached.storeBody
  dsimp only
  by_cases hsize : 0xFFFF < k.length ∨ cellMax < recSize k v
  · rw [if_pos hsize, if_pos hsize]
    exact .failed h ht fun _ => rfl
  · rw [if_neg hsize, if_neg hsize]
    -- both see the same clock from here on
    generalize (inver.map (lamportObserve clock)).getD clock = clock
    have hvast : vastArena.alloc (recSize k v) = true := rfl
    rw [hvast]
    rcases h.locate_cases k with ⟨w, b, hloc, hw, hb⟩ | ⟨hloc, hw, hb⟩
    · rw [hloc, ← ht k, hb]
      dsimp only
      by_cases holder : inver.any (· ≤ b.ver) = true
      · rw [if_pos holder, if_pos holder]
        exact .failed h ht fun _ => rfl
      · have hroom : v = b.val ∨ recSize k v ≤ vastArena.bound k b ∨ true = true := .inr (.inr rfl)
        rw [if_neg holder, if_neg holder, if_pos hroom]
        split
        · exact .stored ht (h.replace hw _)
        · split
          · exact .stored ht (h.replace hw _)
          · next hcell => exact .failed h ht fun hS => absurd hS.1 hcell
    · rw [hloc, ← ht k, hb]
      dsimp only
      rw [if_pos rfl]
      split
      · next hshort =>
        refine .failed h ht fun hS => ?_
        rw [hS.1, hS.not_short] at hshort
        simp at hshort
      · exact .stored ht (h.append hw _)

def AddRc.isOk : AddRc → Bool
  | .ok _ _ => true
  | .error => false

/-- An add's answer and what it leaves. -/
abbrev addDone {τ : Type} (q : AddRc × τ × Nat) : Bool × τ := (AddRc.isOk q.1, q.2.1)

theorem addRec_none (ticks clock : Nat) (old : Option Rec) (delta : BitVec 64) (expires : Nat) :
    AddRc.isOk (addRec ticks clock old delta expires).1 =
      (addRec ticks clock old delta expires).2.isSome := by
  unfold addRec
  dsimp only
  split
  · split <;> rfl
  · rfl

/-- What is done with the record an add leaves, if it leaves one, is done on the map. -/
theorem Good.addRec (h : Good H T) (ht : Agrees H T t) {granted : Prop} {clock : Nat}
    {q : AddRc × Option Rec} {X : Rec → HTable}
    (hX : ∀ b, Good H (X b) ∧ ∀ k', (X b).lookup H k' = if k' = k then some b else T.lookup H k') :
    AddRc.isOk q.1 = q.2.isSome → Follows H granted t
      (addDone (match q with
        | (rc, some b) => (rc, X b, clock + 1)
        | (rc, none) => (rc, T, clock)))
      (addDone (match q with
        | (rc, some r) => (rc, t.insert k r, clock + 1)
        | (rc, none) => (rc, t, clock))) := by
  intro hq
  obtain ⟨rc, r⟩ := q
  cases r with
  | none =>
    dsimp only [addDone] at hq ⊢
    rw [hq]
    exact .failed h ht fun _ => rfl
  | some b =>
    dsimp only [addDone] at hq ⊢
    rw [hq]
    exact .stored ht (hX b)

theorem Good.addExBody (h : Good H T) (ht : Agrees H T t) (S : Supply) (ticks clock : Nat) (k : Key)
    (delta : BitVec 64) (expires : Nat) :
    Follows H S.Grants t (addDone (T.addExBody H S ticks clock k delta expires))
      (addDone (addExBody vastArena ticks clock t k delta expires)) := by
  unfold HTable.addExBody Perfcached.addExBody
  dsimp only
  have hvast : vastArena.alloc (recSize k (leBytes 8 0)) = true := rfl
  rw [hvast]
  by_cases hlong : 0xFFFF < k.length
  · rw [if_pos (.inl hlong), if_pos (.inl hlong)]
    exact .failed h ht fun _ => rfl
  rw [if_neg (not_or.mpr ⟨hlong, Bool.true_eq_false.mp⟩)]
  by_cases hcell : S.cell = true
  · rw [if_neg (not_or.mpr ⟨hlong, by simp [hcell]⟩)]
    have hok := addRec_none ticks clock (t.lookup k) delta expires
    rcases h.locate_cases k with ⟨w, b, hloc, hw, hb⟩ | ⟨hloc, hw, hb⟩
    · rw [← ht k, hb] at hok ⊢
      rw [hloc]
      exact h.addRec ht (fun b => h.replace hw b) hok
    · rw [← ht k, hb] at hok ⊢
      rw [hloc]
      dsimp only
      split
      · next hshort => exact .failed h ht fun hS => absurd hshort (by simp [hS.not_short])
      · exact h.addRec ht (fun b => h.append hw b) hok
  · rw [if_pos (.inr (Bool.not_eq_true _ ▸ hcell))]
    exact .failed h ht fun hS => absurd hS.1 hcell

theorem Good.removeImpl (h : Good H T) (ht : Agrees H T t) (clock : Nat) (k : Key) (below : Nat)
    (drop : Bool) :
    Good H (T.removeImpl H clock k below drop).2.1 ∧
      Agrees H (T.removeImpl H clock k below drop).2.1 (removeImpl clock t k below drop).table := by
  have htable : (T.removeImpl H clock k below drop).2.1 =
      ((T.locate H k).filter fun q => q.2.body.under below).elim T fun q =>
        T.removeRec (T.route (H k)) q.1 := by
    cases drop <;> rfl
  rw [htable]
  have hlook : ∀ {T'}, (∀ k', T'.lookup H k' =
      if k' = k then (T.lookup H k).filter (fun r => !r.under below) else T.lookup H k') →
        Agrees H T' (Perfcached.removeImpl clock t k below drop).table := by
    intro T' hT' k'
    rw [hT', lookup_removeImpl, ht k, ht k']
  rcases h.locate_cases k with ⟨w, b, hloc, hw, hb⟩ | ⟨hloc, hw, hb⟩
  · rw [hloc, filter_some]
    cases hunder : b.under below with
    | true =>
      obtain ⟨hgood, hT'⟩ := h.remove hw
      refine ⟨hgood, hlook fun k' => ?_⟩
      rw [hb, filter_some, hunder]
      exact hT' k'
    | false =>
      refine ⟨h, hlook fun k' => ?_⟩
      rw [hb, filter_some, hunder]
      by_cases hk : k' = k
      · rw [if_pos hk, hk]
        exact hb
      · rw [if_neg hk]
        rfl
  · rw [hloc]
    refine ⟨h, hlook fun k' => ?_⟩
    rw [hb]
    by_cases hk : k' = k
    · rw [if_pos hk, hk]
      exact hb
    · rw [if_neg hk]
      rfl

end

/-! ### Runs -/

/-- An operation on a table, with the time, the clock and the arena it finds. -/
inductive Act
  /-- A local store. -/
  | store (S : Supply) (ticks clock : Nat) (k : Key) (v : List Byte) (expires : Nat) (rflags : Byte)
  /-- A copy with its version. -/
  | copy (S : Supply) (ticks clock : Nat) (k : Key) (v : List Byte) (expires : Nat) (rflags : Byte)
      (ver : Nat)
  | add (S : Supply) (ticks clock : Nat) (k : Key) (delta : BitVec 64) (expires : Nat)
  | remove (clock : Nat) (k : Key) (below : Nat) (drop : Bool)
  | sweep (now : Nat)
  | split (room : Bool)

/-- What an operation does to the buckets, and whether it was done. No result is a loop that runs on
or a bucket taken from an empty spare list. -/
def Act.exec (H : Key → BitVec 32) (T : HTable) : Act → Option (Bool × HTable)
  | store S ticks clock k v expires rflags =>
    some (storeDone (T.storeBody H S ticks clock k v expires rflags none))
  | copy S ticks clock k v expires rflags ver =>
    some (storeDone (T.storeBody H S ticks clock k v expires rflags (some ver)))
  | add S ticks clock k delta expires =>
    some (addDone (T.addExBody H S ticks clock k delta expires))
  | remove clock k below drop => some (true, (T.removeImpl H clock k below drop).2.1)
  | sweep now => (htSweep now T).map fun q => (true, q.1)
  | split room => (htSplit room T).map fun q => (decide (q.1 = .split), q.2)

/-- The arena has what the operation may need; a split also has an index for its new bucket. -/
def Act.Granted (T : HTable) : Act → Prop
  | store S .. | copy S .. | add S .. => S.Grants
  | split room => room = true ∧ T.partner < maxBuckets
  | remove .. | sweep _ => True

/-- What an operation does to the map with memory that is never short, and whether it is done. -/
def Act.onMap (t : Table) : Act → Bool × Table
  | store _ ticks clock k v expires rflags =>
    storeDone (htStoreEx vastArena ticks clock t k v expires rflags)
  | copy _ ticks clock k v expires rflags ver =>
    storeDone (htStoreVer vastArena ticks clock t k v expires rflags ver)
  | add _ ticks clock k delta expires => addDone (htAddEx vastArena ticks clock t k delta expires)
  | remove clock k below drop => (true, (removeImpl clock t k below drop).table)
  | sweep now => (true, purge now t)
  | split _ => (true, t)

/-- The map after an operation; one that failed leaves it as it is. -/
def mapStep (t : Table) (a : Act) (ok : Bool) : Table := bif ok then (a.onMap t).2 else t

/-- A table beside the map it stands for. -/
structure State where
  table : HTable
  map : Table

def step (H : Key → BitVec 32) (s : State) (a : Act) : Option State :=
  (a.exec H s.table).map fun q => ⟨q.2, mapStep s.map a q.1⟩

def start (sizeLog2 : Nat) : State := ⟨htNew sizeLog2, ∅⟩

section
variable {H : Key → BitVec 32} {T : HTable}

/-- Every operation has a result, and the lookups are those of the map after it. -/
theorem Good.exec {t : Table} (h : Good H T) (ht : Agrees H T t) (a : Act) :
    ∃ q, a.exec H T = some q ∧ Follows H (a.Granted T) t q (a.onMap t) := by
  cases a with
  | store S ticks clock k v expires rflags =>
    exact ⟨_, rfl, h.storeBody ht S ticks clock k v expires rflags none⟩
  | copy S ticks clock k v expires rflags ver =>
    exact ⟨_, rfl, h.storeBody ht S ticks clock k v expires rflags (some ver)⟩
  | add S ticks clock k delta expires =>
    exact ⟨_, rfl, h.addExBody ht S ticks clock k delta expires⟩
  | remove clock k below drop =>
    obtain ⟨hgood, hlook⟩ := h.removeImpl ht clock k below drop
    exact ⟨_, rfl, hgood, hlook, fun _ => rfl⟩
  | sweep now =>
    obtain ⟨T', dead, hsweep, hgood, hlook⟩ := h.sweep now
    refine ⟨(true, T'), by rw [Act.exec, hsweep]; rfl, hgood, fun k => ?_, fun _ => rfl⟩
    change _ = (purge now t).lookup k
    rw [hlook, ht k, lookup_purge]
  | split room =>
    obtain ⟨rc, T', hsplit, hgood, hlook⟩ := h.split room
    refine ⟨(decide (rc = .split), T'), by rw [Act.exec, hsplit]; rfl, hgood, fun k => ?_, ?_⟩
    · rw [show (Act.onMap t (.split room)).2 = t from rfl, Bool.cond_self, hlook, ht k]
    · rintro ⟨rfl, hroom⟩
      exact decide_eq_true (h.split_done hroom hsplit)

/-- What holds of a table beside its map, after every run. -/
theorem run_good (sizeLog2 : Nat) (acts : List Act) :
    ∃ s, Machine.run (step H) (start sizeLog2) acts = some s ∧
      Good H s.table ∧ Agrees H s.table s.map := by
  refine Machine.run_total (I := fun s : State => Good H s.table ∧ Agrees H s.table s.map) ?_ ?_
    (Machine.along_true _ _ acts)
  · intro s a hs _
    obtain ⟨q, hexec, hgood, hmap, -⟩ := hs.1.exec hs.2 a
    exact ⟨⟨q.2, mapStep s.map a q.1⟩, by rw [step, hexec]; rfl, hgood, hmap⟩
  · have hnew := repr_htNew H sizeLog2
    refine ⟨⟨_, hnew⟩, fun k => ext fun b => ?_⟩
    change (htNew sizeLog2).lookup H k = some b ↔ (∅ : Table).lookup k = some b
    rw [hnew.lookup_eq_some_iff, AList.lookup_empty]
    exact ⟨fun ⟨r, hr, _⟩ => (nomatch hr), nofun⟩

/-- The chains have their shape, and every record is in the bucket its hash routes to. -/
def Shaped (H : Key → BitVec 32) (T : HTable) : Prop :=
  ∀ idx, Shape (T.bkt idx) ∧ ∀ b ∈ T.bkt idx, ∀ i r, b.slot i = some r →
    r.hash = H r.key ∧ T.route r.hash = idx

theorem Good.shaped (h : Good H T) : Shaped H T := by
  obtain ⟨L, h⟩ := h
  intro idx
  rw [h.bkt idx]
  refine ⟨shape_layout _, fun b hb i r hr => ?_⟩
  have hmem := mem_of_layout hb hr
  exact ⟨h.hash idx r hmem, h.route idx r hmem⟩

/-- The count is that of the records outside their home buckets. -/
theorem Good.chained_eq (h : Good H T) :
    T.chained = ∑ idx ∈ Finset.range T.nbuckets, (chainedIn (T.bkt idx) : Int) := by
  obtain ⟨L, h⟩ := h
  rw [h.chained]
  refine Finset.sum_congr rfl fun idx _ => ?_
  rw [h.bkt, chainedIn_layout]

/-- **The table is a finite map under every hash.** Every run has a result; a lookup finds what the
map has; the chains have their shape, and the count of chained records is theirs; an operation that
fails changes no lookup, and one whose memory is granted is done if it is on the map; and a split
has a result, with no more overflow buckets than the chain it divides had. -/
theorem table_is_map (H : Key → BitVec 32) (sizeLog2 : Nat) (acts : List Act) :
    ∃ s, Machine.run (step H) (start sizeLog2) acts = some s ∧
      (∀ k, s.table.lookup H k = s.map.lookup k) ∧
      Shaped H s.table ∧
      s.table.chained = ∑ idx ∈ Finset.range s.table.nbuckets, (chainedIn (s.table.bkt idx) : Int) ∧
      (∀ (a : Act) (T' : HTable), a.exec H s.table = some (false, T') →
        ∀ k, T'.lookup H k = s.table.lookup H k) ∧
      (∀ a : Act, a.Granted s.table → ∃ T', a.exec H s.table = some ((a.onMap s.map).1, T')) ∧
      ∀ room, ∃ rc T', htSplit room s.table = some (rc, T') ∧
        ((T'.bkt s.table.split).length - 1) + ((T'.bkt s.table.partner).length - 1) ≤
          (s.table.bkt s.table.split).length - 1 := by
  obtain ⟨s, hrun, hgood, hmap⟩ := run_good (H := H) sizeLog2 acts
  refine ⟨s, hrun, hmap, hgood.shaped, hgood.chained_eq, fun a T' hfail k => ?_, fun a ha => ?_,
    fun room => ?_⟩
  · obtain ⟨q, hexec, -, hmap', -⟩ := hgood.exec hmap a
    obtain rfl := some.inj (hexec.symm.trans hfail)
    rw [hmap k]
    exact hmap' k
  · obtain ⟨⟨ok, T'⟩, hexec, -, -, hdone⟩ := hgood.exec hmap a
    exact ⟨T', hdone ha ▸ hexec⟩
  · obtain ⟨rc, T', hsplit, -, -⟩ := hgood.split room
    exact ⟨rc, T', hsplit, hgood.split_buckets hsplit⟩

end

/-! ### What a sweep takes -/

/-- The record `touch_inner` leaves; a copy is adopted where the caller asks for it. -/
def touchRec (ticks clock expires : Nat) (adopt : Bool) (old : Rec) : Rec :=
  let fl := old.rflags ||| shortenedFl ticks old expires
  { old with
    expires
    rflags := if adopt ∧ fl &&& fPassive ≠ 0#8 then fl &&& ~~~fPassive else fl
    ver := verLocal clock (some old) }

/-- `touch_inner` on the buckets, with its answer. -/
def HTable.touchInner (H : Key → BitVec 32) (ticks clock : Nat) (T : HTable) (k : Key)
    (expires : Nat) (adopt : Bool) : Bool × HTable :=
  match T.locate H k with
  | some (w, old) =>
    let body := touchRec ticks clock expires adopt old.body
    (true, T.replaceRec (T.route (H k)) w { old with body })
  | none => (false, T)

/-- An operation, or the deadline of a key moved. -/
inductive Change
  | act (a : Act)
  | touch (ticks clock : Nat) (k : Key) (expires : Nat) (adopt : Bool)

def change (H : Key → BitVec 32) (s : State) : Change → Option State
  | .act a => step H s a
  | .touch ticks clock k expires adopt =>
    some ⟨(s.table.touchInner H ticks clock k expires adopt).2,
      (s.map.lookup k).elim s.map fun old =>
        s.map.insert k (touchRec ticks clock expires adopt old)⟩

def HTable.items (T : HTable) : List Item :=
  itemsTo (fun idx => (chainRecs (T.bkt idx)).map Prod.fst) T.nbuckets

/-- What `pcache_ht_sweep` returns: one for each record reaped, in an `unsigned int`. -/
def htSweepFreed (now : Nat) (T : HTable) : Option (BitVec 32) :=
  (htSweep now T).map fun q => q.2.foldl (fun freed _ => freed + 1) 0

/-- The hint of a bucket is nonzero and at most every expiry in its chain. -/
def Hinted (T : HTable) : Prop :=
  ∀ idx, ∀ r ∈ (chainRecs (T.bkt idx)).map Prod.fst, r.body.expires ≠ 0 →
    T.hint idx ≠ 0 ∧ T.hint idx ≤ r.body.expires

section
variable {H : Key → BitVec 32} {T : HTable} {L : Nat → List Item}

theorem Repr.chainRecs (h : Repr H T L) (idx : Nat) :
    (chainRecs (T.bkt idx)).map Prod.fst = L idx := by
  rw [h.bkt, chainRecs_layout, List.map_map]
  exact List.map_id _

theorem Repr.items (h : Repr H T L) : T.items = itemsTo L T.nbuckets := by
  rw [HTable.items, funext h.chainRecs]

theorem Good.hinted (h : Good H T) : Hinted T := by
  obtain ⟨L, h⟩ := h
  intro idx r hr
  rw [h.chainRecs] at hr
  exact h.hint idx r hr

theorem Good.touchInner {t : Table} (h : Good H T) (ht : Agrees H T t) (ticks clock : Nat) (k : Key)
    (expires : Nat) (adopt : Bool) :
    Good H (T.touchInner H ticks clock k expires adopt).2 ∧
      Agrees H (T.touchInner H ticks clock k expires adopt).2 ((t.lookup k).elim t fun old =>
        t.insert k (touchRec ticks clock expires adopt old)) := by
  unfold HTable.touchInner
  rcases h.locate_cases k with ⟨w, b, hloc, hw, hb⟩ | ⟨hloc, -, hb⟩
  · rw [hloc, ← ht k, hb]
    obtain ⟨hgood, hlook⟩ := h.replace hw (touchRec ticks clock expires adopt b)
    exact ⟨hgood, ht.insert hlook⟩
  · rw [hloc, ← ht k, hb]
    exact ⟨h, ht⟩

theorem run_changed (sizeLog2 : Nat) (cs : List Change) :
    ∃ s, Machine.run (change H) (start sizeLog2) cs = some s ∧
      Good H s.table ∧ Agrees H s.table s.map := by
  obtain ⟨s₀, hrun, hstart⟩ := run_good (H := H) sizeLog2 []
  obtain rfl := some.inj hrun
  refine Machine.run_total (I := fun s : State => Good H s.table ∧ Agrees H s.table s.map) ?_ hstart
    (Machine.along_true _ _ cs)
  rintro s (a | ⟨ticks, clock, k, expires, adopt⟩) hs -
  · obtain ⟨q, hexec, hgood, hmap, -⟩ := hs.1.exec hs.2 a
    exact ⟨⟨q.2, mapStep s.map a q.1⟩, by rw [change, step, hexec]; rfl, hgood, hmap⟩
  · exact ⟨_, rfl, hs.1.touchInner hs.2 ticks clock k expires adopt⟩

theorem foldl_freed (dead : List Item) (n : Nat) :
    dead.foldl (fun freed _ => freed + 1) (BitVec.ofNat 32 n) =
      BitVec.ofNat 32 (n + dead.length) := by
  induction dead generalizing n with
  | nil => rfl
  | cons r dead ih =>
    have hone : BitVec.ofNat 32 n + 1 = BitVec.ofNat 32 (n + 1) := (BitVec.ofNat_add n 1).symm
    rw [foldl_cons, hone, ih, length_cons, add_assoc, add_comm 1]

/-- **A sweep removes exactly what has expired.** After every run of stores, copies, adds, touches,
removes, splits and sweeps, the hints are right, and a sweep ends with hints that are right. The
records there were are those the callback was called with, in whatever order, and those left: all of
the former have expired and none of the latter has. What it returns is the number of its calls. -/
theorem sweep_takes_expired (H : Key → BitVec 32) (sizeLog2 : Nat) (cs : List Change) (now : Nat) :
    ∃ s, Machine.run (change H) (start sizeLog2) cs = some s ∧ Hinted s.table ∧
      ∃ T' dead, htSweep now s.table = some (T', dead) ∧ Hinted T' ∧
        s.table.items.Perm (dead ++ T'.items) ∧
        (∀ r ∈ dead, r.body.expired now = true) ∧ (∀ r ∈ T'.items, r.body.expired now = false) ∧
        htSweepFreed now s.table = some (BitVec.ofNat 32 dead.length) := by
  obtain ⟨s, hrun, hgood, -⟩ := run_changed (H := H) sizeLog2 cs
  refine ⟨s, hrun, hgood.hinted, ?_⟩
  obtain ⟨L, h⟩ := hgood
  obtain ⟨T', L', dead, hsweep, hreaped, htold, hclean⟩ :=
    Reaped.buckets h now s.table.nbuckets le_rfl
  refine ⟨T', dead, hsweep, Good.hinted ⟨L', hreaped.repr⟩, ?_, htold.1, fun r hr => ?_, ?_⟩
  · rw [h.items, hreaped.repr.items, hreaped.nbuckets]
    exact htold.2
  · rw [hreaped.repr.items, hreaped.nbuckets] at hr
    obtain ⟨idx, hidx, hr⟩ := mem_flatMap.mp hr
    exact hclean idx (mem_range.mp hidx) r hr
  · have hsweep' : htSweep now s.table = some (T', dead) := hsweep
    have hfreed := foldl_freed dead 0
    rw [zero_add] at hfreed
    rw [htSweepFreed, hsweep']
    exact congrArg some hfreed

end

end Perfcached.Ht
