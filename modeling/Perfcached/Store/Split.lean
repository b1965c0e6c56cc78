import Perfcached.Store.Buckets

/-!
# Perfcached.Store.Split

Linear-hash growth (`pcache_ht_split` in `src/core/pcache_htable.c`).

The bucket at the split pointer is divided between itself and a new one by one more bit of the hash.
Its records come out, its overflow buckets go to a spare list, and the records are appended again to
the one or the other chain. A chain that needs an overflow bucket takes it from the spare list:
a chain of `n` records has `(n - 2) / 5` of them, and two chains never need more than the one they
were, so the list is never empty then (`splitLoop_layout`).
-/

namespace Perfcached.Ht

open Bytes Tally List Option Function Nat

/-! ### The source's functions -/

/-- One of the two chains that are built: how many records it has, and the least expiry of them; 0
is none. -/
structure Half where
  chain : Chain
  n : Nat
  min : Nat

/-- The bucket itself, its new partner, and the spare list's length. -/
structure Halves where
  s : Half
  p : Half
  spare : Nat

/-- `(rec->hash >> level) & 1`. -/
def hashBit (level : Nat) (h : BitVec 32) : Bool := h.toNat / 2 ^ level % 2 = 1

/-- The least expiry with one more. -/
def minExp (mn expires : Nat) : Nat :=
  if expires ≠ 0 ∧ (mn = 0 ∨ expires < mn) then expires else mn

/-- A record is appended to a half, with a spare bucket if its tail is full. Taking one from an
empty list is no result. -/
def Half.append (h : Half) (spare : Nat) (r : Item × Byte) : Option (Half × Nat) :=
  let h' : Half := ⟨chainAppend r.1 r.2 h.chain, h.n + 1, minExp h.min r.1.body.expires⟩
  if (chainTail h.chain).used = pcacheSlots then
    if spare = 0 then none else some (h', spare - 1)
  else some (h', spare)

/-- One record goes to its half. -/
def splitStep (level : Nat) (h : Halves) (r : Item × Byte) : Option Halves :=
  if hashBit level r.1.hash = true then
    (h.p.append h.spare r).map fun q => ⟨h.s, q.1, q.2⟩
  else (h.s.append h.spare r).map fun q => ⟨q.1, h.p, q.2⟩

def splitLoop (level : Nat) (h : Halves) (rs : List (Item × Byte)) : Option Halves :=
  rs.foldlM (splitStep level) h

def chainRecs (c : Chain) : List (Item × Byte) :=
  c.flatMap fun b => (List.range b.used).filterMap fun i => (b.slot i).map fun r => (r, b.tags i)

/-- What a split answers: 1, 0 and -1. -/
inductive SplitRc where
  | split | ceiling | nomem
  deriving DecidableEq

/-- `PCACHE_NSEGS * PCACHE_SEG_SIZE`. -/
def maxBuckets : Nat := 2 ^ 24

/-- The routing word after a split. -/
def nextRoute (level split : Nat) : Nat × Nat :=
  if split + 1 = 2 ^ level then (level + 1, 0) else (level, split + 1)

/-- The bucket a split divides the one at the split pointer with. -/
def HTable.partner (T : HTable) : Nat := T.split + 2 ^ T.level

/-- The table with a bucket divided. -/
def HTable.divided (T : HTable) (h : Halves) : HTable where
  level := (nextRoute T.level T.split).1
  split := (nextRoute T.level T.split).2
  nbuckets := T.nbuckets + 1
  bkt := update (update T.bkt T.split h.s.chain) T.partner h.p.chain
  hint := update (update T.hint T.split h.s.min) T.partner h.p.min
  chained := T.chained +
    (chainedOf h.s.n + chainedOf h.p.n - chainedOf (chainRecords (T.bkt T.split)))

/-- `pcache_ht_split`. `room` is whether the segment and the scratch were there. -/
def htSplit (room : Bool) (T : HTable) : Option (SplitRc × HTable) :=
  if maxBuckets ≤ T.partner then some (.ceiling, T)
  else if room = false then some (.nomem, T)
  else
    (splitLoop T.level ⟨⟨[.zero], 0, 0⟩, ⟨T.bkt T.partner, 0, 0⟩, (T.bkt T.split).length - 1⟩
      (chainRecs (T.bkt T.split))).map fun h => (.split, T.divided h)

/-! ### The loop -/

theorem filterMap_range {β : Type} (f : Item → β) (l : List Item) :
    ((range l.length).filterMap fun i => (l[i]?).map f) = l.map f := by
  induction l with
  | nil => rfl
  | cons r l ih =>
    have hhead : ((r :: l)[0]?).map f = some (f r) := rfl
    rw [length_cons, range_succ_eq_map,
      filterMap_cons_some (f := fun i => ((r :: l)[i]?).map f) hhead, filterMap_map,
      map_cons, ← ih]
    rfl

theorem chainRecs_layout (l : List Item) :
    chainRecs (layout l) = l.map fun r => (r, tagOf r.hash) := by
  have hbucket : ∀ l : List Item, ((range (bucketOf l).used).filterMap fun i =>
      ((bucketOf l).slot i).map fun r => (r, (bucketOf l).tags i)) =
        l.map fun r => (r, tagOf r.hash) := by
    intro l
    rw [← filterMap_range]
    refine filterMap_congr fun i _ => ?_
    change (l[i]?).map (fun r => (r, (l[i]?).elim 0 fun r => tagOf r.hash)) = _
    cases l[i]? <;> rfl
  induction l using layout_induction with
  | short l h =>
    rw [layout_short h, chainRecs, flatMap_singleton, hbucket]
  | long l h ih =>
    rw [layout_long h, chainRecs, flatMap_cons, hbucket, ← chainRecs, ih, ← map_append,
      take_append_drop]

def overflow (n : Nat) : Nat := (n - 2) / 5

/-- Two chains need no more overflow buckets than the one they were. -/
theorem overflow_add_le {s p n : Nat} (h : s + p ≤ n) : overflow s + overflow p ≤ overflow n := by
  unfold overflow
  omega

theorem overflow_succ (l : List Item) : overflow (l.length + 1) =
      if (chainTail (layout l)).used = pcacheSlots then overflow l.length + 1
      else overflow l.length := by
  rw [chainTail_layout, pcacheSlots, overflow, overflow]
  split <;> omega

/-- A half has the records of a list. -/
structure Half.Has (l : List Item) (h : Half) : Prop where
  chain : h.chain = layout l
  n : h.n = l.length
  min : ∀ r ∈ l, r.body.expires ≠ 0 → h.min ≠ 0 ∧ h.min ≤ r.body.expires

theorem minExp_covers {mn e e' : Nat} (he' : e' ≠ 0) (h : e' = e ∨ mn ≠ 0 ∧ mn ≤ e') :
    minExp mn e ≠ 0 ∧ minExp mn e ≤ e' := by
  unfold minExp
  split <;> omega

/-- A half takes a record, and a bucket off the spare list just if it needs one. -/
theorem Half.Has.append {l : List Item} {h : Half} (hh : h.Has l) (spare : Nat) (r : Item)
    (hspare : overflow (l.length + 1) ≤ spare + overflow l.length) :
    ∃ h' spare', h.append spare (r, tagOf r.hash) = some (h', spare') ∧ h'.Has (l ++ [r]) ∧
      spare' + overflow (l.length + 1) = spare + overflow l.length := by
  have hhas : Half.Has (l ++ [r])
      ⟨chainAppend r (tagOf r.hash) h.chain, h.n + 1, minExp h.min r.body.expires⟩ := by
    refine ⟨?_, ?_, fun r' hr' he => minExp_covers he ?_⟩
    · rw [hh.chain]
      exact chainAppend_layout l r
    · rw [length_append, length_singleton, ← hh.n]
    · rcases mem_append.mp hr' with hr' | hr'
      · exact .inr (hh.min r' hr' he)
      · exact .inl (by rw [mem_singleton.mp hr'])
  have hsucc := overflow_succ l
  unfold Half.append
  rw [hh.chain] at hhas ⊢
  split
  · next hfull =>
      rw [if_pos hfull] at hsucc
      rw [if_neg (by omega)]
      exact ⟨_, _, rfl, hhas, by omega⟩
  · next hfull =>
      rw [if_neg hfull] at hsucc
      exact ⟨_, _, rfl, hhas, by omega⟩

/-- The records that stay, and those that go to the partner. -/
def stay (level : Nat) (l : List Item) : List Item := l.filter fun r => !hashBit level r.hash

def move (level : Nat) (l : List Item) : List Item := l.filter fun r => hashBit level r.hash

theorem length_stay_add (level : Nat) (l : List Item) :
    (stay level l).length + (move level l).length = l.length := by
  have hcount := length_eq_countP_add_countP (fun r : Item => hashBit level r.hash) (l := l)
  rw [stay, move, ← countP_eq_length_filter, ← countP_eq_length_filter, hcount, add_comm]
  simp

/-- The loop builds the two halves and never takes from an empty list: the buckets it has taken are
those the two chains need so far. -/
theorem splitLoop_layout (level : Nat) (l done : List Item) (h : Halves)
    (hs : h.s.Has (stay level done)) (hp : h.p.Has (move level done))
    (hspare : h.spare + overflow (stay level done).length + overflow (move level done).length =
      overflow (done.length + l.length)) :
    ∃ h', splitLoop level h (l.map fun r => (r, tagOf r.hash)) = some h' ∧
      h'.s.Has (stay level (done ++ l)) ∧ h'.p.Has (move level (done ++ l)) := by
  induction l generalizing done h with
  | nil =>
    rw [append_nil]
    exact ⟨h, rfl, hs, hp⟩
  | cons r l ih =>
    have hlen := length_stay_add level done
    rw [length_cons] at hspare
    have hstep : ∃ h', splitStep level h (r, tagOf r.hash) = some h' ∧
        h'.s.Has (stay level (done ++ [r])) ∧ h'.p.Has (move level (done ++ [r])) ∧
        h'.spare + overflow (stay level (done ++ [r])).length +
          overflow (move level (done ++ [r])).length =
            overflow ((done ++ [r]).length + l.length) := by
      rw [length_append, length_singleton, add_assoc, add_comm 1 l.length, splitStep]
      by_cases hbit : hashBit level r.hash = true
      · have hstay : stay level (done ++ [r]) = stay level done := by simp [stay, hbit]
        have hmove : move level (done ++ [r]) = move level done ++ [r] := by simp [move, hbit]
        have hadd := overflow_add_le (s := (stay level done).length)
          (p := (move level done).length + 1) (n := done.length + (l.length + 1)) (by omega)
        obtain ⟨q, spare', happ, hq, hspare'⟩ := hp.append h.spare r (by omega)
        rw [if_pos hbit, happ, hstay, hmove, length_append, length_singleton]
        exact ⟨_, rfl, hs, hq, by dsimp only; omega⟩
      · have hstay : stay level (done ++ [r]) = stay level done ++ [r] := by simp [stay, hbit]
        have hmove : move level (done ++ [r]) = move level done := by simp [move, hbit]
        have hadd := overflow_add_le (s := (stay level done).length + 1)
          (p := (move level done).length) (n := done.length + (l.length + 1)) (by omega)
        obtain ⟨q, spare', happ, hq, hspare'⟩ := hs.append h.spare r (by omega)
        rw [if_neg hbit, happ, hstay, hmove, length_append, length_singleton]
        exact ⟨_, rfl, hq, hp, by dsimp only; omega⟩
    obtain ⟨h', hh', hs', hp', hspare'⟩ := hstep
    obtain ⟨h'', hrest, hfinal⟩ := ih (done ++ [r]) h' hs' hp' hspare'
    refine ⟨h'', ?_, ?_⟩
    · rw [map_cons, splitLoop, foldlM_cons, hh']
      exact hrest
    · rwa [append_assoc] at hfinal

/-! ### The routing -/

theorem mod_succ_of_bit (level : Nat) (h : BitVec 32) : h.toNat % 2 ^ (level + 1) =
      if hashBit level h = true then h.toNat % 2 ^ level + 2 ^ level else h.toNat % 2 ^ level := by
  rw [pow_succ, mod_mul, hashBit]
  rcases mod_two_eq_zero_or_one (h.toNat / 2 ^ level) with hbit | hbit
  · simp [hbit]
  · simp [hbit]

/-- A split moves the records of one bucket, those with the next bit of the hash. -/
theorem routeIdx_next {level split : Nat} (hsplit : split < 2 ^ level) (h : BitVec 32) :
    routeIdx (nextRoute level split).1 (nextRoute level split).2 h =
      if routeIdx level split h = split then
        if hashBit level h = true then split + 2 ^ level else split
      else routeIdx level split h := by
  have hbit := mod_succ_of_bit level h
  unfold nextRoute routeIdx
  by_cases hend : split + 1 = 2 ^ level
  · rw [if_pos hend]
    rw [if_neg (not_lt_zero _)]
    by_cases hlt : h.toNat % 2 ^ level < split
    · rw [if_pos hlt, if_neg]
      rw [hbit]
      split <;> omega
    · rw [if_neg hlt, if_pos (by omega), hbit]
      split <;> omega
  · rw [if_neg hend]
    dsimp only
    by_cases hlt : h.toNat % 2 ^ level < split
    · rw [if_pos (by omega), if_pos hlt, if_neg]
      rw [hbit]
      split <;> omega
    · rw [if_neg hlt]
      by_cases heq : h.toNat % 2 ^ level = split
      · rw [if_pos (by omega), if_pos heq, hbit, heq]
      · rw [if_neg (by omega), if_neg heq]

theorem nextRoute_buckets {level split : Nat} (hsplit : split < 2 ^ level) :
    2 ^ (nextRoute level split).1 + (nextRoute level split).2 = 2 ^ level + split + 1 ∧
      (nextRoute level split).2 < 2 ^ (nextRoute level split).1 := by
  unfold nextRoute
  split
  · rw [pow_succ]
    omega
  · dsimp only
    omega

/-! ### A split -/

def splitLists (level split : Nat) (L : Nat → List Item) : Nat → List Item :=
  update (update L split (stay level (L split)))
    (split + 2 ^ level) (move level (L split))

section
variable {level split : Nat} (L : Nat → List Item)

theorem splitLists_partner : splitLists level split L (split + 2 ^ level) = move level (L split) :=
  update_self _ _ _

theorem splitLists_split : splitLists level split L split = stay level (L split) := by
  have hne : split ≠ split + 2 ^ level := by
    have := Nat.two_pow_pos level
    omega
  rw [splitLists, update_of_ne hne, update_self]

theorem splitLists_other {idx : Nat} (hs : idx ≠ split) (hp : idx ≠ split + 2 ^ level) :
    splitLists level split L idx = L idx := by
  rw [splitLists, update_of_ne hp, update_of_ne hs]

/-- Every list after a split is part of one before it. -/
theorem splitLists_sublist (idx : Nat) :
    ∃ idx', (splitLists level split L idx).Sublist (L idx') := by
  by_cases hp : idx = split + 2 ^ level
  · subst hp
    rw [splitLists_partner]
    exact ⟨split, filter_sublist⟩
  · by_cases hs : idx = split
    · subst hs
      rw [splitLists_split]
      exact ⟨idx, filter_sublist⟩
    · rw [splitLists_other L hs hp]
      exact ⟨idx, Sublist.refl _⟩

end

section
variable {H : Key → BitVec 32} {T : HTable} {L : Nat → List Item}

section

variable (h : Repr H T L)
include h

/-- A record is in the list of its new bucket after a split exactly if it was in that of its old one
before it. -/
theorem Repr.mem_splitLists (r : Item) : r ∈ splitLists T.level T.split L
        (routeIdx (nextRoute T.level T.split).1 (nextRoute T.level T.split).2 r.hash) ↔
      r ∈ L (T.route r.hash) := by
  have hlt := h.route_lt r.hash
  rw [h.nbuckets] at hlt
  rw [routeIdx_next h.split, HTable.route] at *
  split
  · next hroute =>
      rw [hroute]
      split
      · next hbit => rw [splitLists_partner, move, mem_filter, and_iff_left hbit]
      · next hbit =>
          rw [splitLists_split, stay, mem_filter, and_iff_left]
          rw [Bool.not_eq_true] at hbit
          rw [hbit]
          rfl
  · next hroute => rw [splitLists_other L hroute (by omega)]

/-- The two halves of a list stand for it after a split. -/
theorem Repr.divided {d : Halves} (hs : d.s.Has (stay T.level (L T.split)))
    (hp : d.p.Has (move T.level (L T.split))) :
    Repr H (T.divided d) (splitLists T.level T.split L) := by
  obtain ⟨hnb, hsplit⟩ := nextRoute_buckets h.split
  refine ⟨fun idx => ?_, fun idx r hr => ?_, fun idx r hr => ?_, fun idx => ?_, ?_, hsplit, ?_,
    fun idx r hr => ?_⟩
  · dsimp only [HTable.divided, HTable.partner]
    by_cases hip : idx = T.split + 2 ^ T.level
    · subst hip
      rw [update_self, splitLists_partner, hp.chain]
    · rw [update_of_ne hip]
      by_cases his : idx = T.split
      · subst his
        rw [update_self, splitLists_split, hs.chain]
      · rw [update_of_ne his, splitLists_other L his hip, h.bkt]
  · obtain ⟨idx', hsub⟩ := splitLists_sublist L idx
    exact h.hash idx' r (hsub.subset hr)
  · change routeIdx (nextRoute T.level T.split).1 (nextRoute T.level T.split).2 r.hash = idx
    rw [routeIdx_next h.split]
    have hroute : ∀ idx, r ∈ L idx → routeIdx T.level T.split r.hash = idx := fun idx =>
      h.route idx r
    by_cases hip : idx = T.split + 2 ^ T.level
    · subst hip
      rw [splitLists_partner, move, mem_filter] at hr
      rw [if_pos (hroute _ hr.1), if_pos hr.2]
    · by_cases his : idx = T.split
      · subst his
        rw [splitLists_split, stay, mem_filter, Bool.not_eq_true'] at hr
        rw [if_pos (hroute _ hr.1), hr.2]
        rfl
      · rw [splitLists_other L his hip] at hr
        rw [hroute _ hr, if_neg his]
  · obtain ⟨idx', hsub⟩ := splitLists_sublist L idx
    exact (h.nodup idx').sublist (hsub.map Item.key)
  · dsimp only [HTable.divided]
    rw [hnb, h.nbuckets]
  · dsimp only [HTable.divided]
    have hlast : T.nbuckets = T.split + 2 ^ T.level := by rw [h.nbuckets, add_comm]
    have hlt : T.split < T.nbuckets := by
      have := Nat.two_pow_pos T.level
      omega
    have hsum := sum_range_change hlt (f := fun idx => chainedOf (L idx).length)
      (g := fun idx => chainedOf (splitLists T.level T.split L idx).length) (by
        intro idx hidx hi
        rw [splitLists_other L hi (by omega)])
    rw [Finset.sum_range_succ, hsum, hlast, splitLists_partner, splitLists_split, h.chained, hlast,
      h.bkt T.split, chainRecords_layout, hs.n, hp.n]
    ring
  · dsimp only [HTable.divided, HTable.partner]
    by_cases hip : idx = T.split + 2 ^ T.level
    · subst hip
      rw [splitLists_partner] at hr
      rw [update_self]
      exact hp.min r hr
    · rw [update_of_ne hip]
      by_cases his : idx = T.split
      · subst his
        rw [splitLists_split] at hr
        rw [update_self]
        exact hs.min r hr
      · rw [splitLists_other L his hip] at hr
        rw [update_of_ne his]
        exact h.hint idx r hr

/-- The new bucket is empty before the split. -/
theorem Repr.partner_bkt : T.bkt T.partner = [.zero] := by
  rw [h.bkt, h.list_eq_nil (by rw [h.nbuckets, HTable.partner]; omega)]
  exact layout_short (l := []) (zero_le 6)

/-- A split that has room divides the records of the bucket, and never takes from an empty spare
list. -/
theorem Repr.htSplit_eq (hceiling : ¬ maxBuckets ≤ T.partner) :
    ∃ d : Halves, htSplit true T = some (.split, T.divided d) ∧
      d.s.Has (stay T.level (L T.split)) ∧ d.p.Has (move T.level (L T.split)) := by
  have hzero : Half.Has [] ⟨[.zero], 0, 0⟩ :=
    ⟨(layout_short (l := []) (zero_le 6)).symm, rfl, nofun⟩
  have hspare : (layout (L T.split)).length - 1 = overflow (L T.split).length := by
    rw [length_layout, overflow, Nat.add_sub_cancel_left]
  obtain ⟨d, hloop, hs, hp⟩ := splitLoop_layout T.level (L T.split) []
    ⟨⟨[.zero], 0, 0⟩, ⟨[.zero], 0, 0⟩, (layout (L T.split)).length - 1⟩ hzero hzero (by
      simp [hspare, stay, move, overflow])
  refine ⟨d, ?_, hs, hp⟩
  rw [htSplit, if_neg hceiling, if_neg Bool.true_eq_false.mp, h.partner_bkt, h.bkt T.split,
    chainRecs_layout, hloop]
  rfl

/-- What a lookup finds is the same before a split and after it. -/
theorem Repr.lookup_divided {d : Halves} (hd : Repr H (T.divided d) (splitLists T.level T.split L))
    (k : Key) : (T.divided d).lookup H k = T.lookup H k := by
  apply ext
  intro b
  rw [hd.lookup_eq_some_iff, h.lookup_eq_some_iff]
  refine exists_congr fun r => and_congr_left fun hk => ?_
  constructor
  · intro hr
    have hhash : r.hash = H k := by rw [hd.hash _ r hr, hk.1]
    rw [← hhash] at hr ⊢
    exact (h.mem_splitLists r).mp hr
  · intro hr
    have hhash : r.hash = H k := by rw [h.hash _ r hr, hk.1]
    rw [← hhash] at hr ⊢
    exact (h.mem_splitLists r).mpr hr

end

theorem Good.split (h : Good H T) (room : Bool) :
    ∃ rc T', htSplit room T = some (rc, T') ∧ Good H T' ∧ ∀ k, T'.lookup H k = T.lookup H k := by
  obtain ⟨L, h⟩ := h
  by_cases hceiling : maxBuckets ≤ T.partner
  · refine ⟨.ceiling, T, ?_, ⟨L, h⟩, fun _ => rfl⟩
    rw [htSplit, if_pos hceiling]
  · cases room with
    | false =>
      refine ⟨.nomem, T, ?_, ⟨L, h⟩, fun _ => rfl⟩
      rw [htSplit, if_neg hceiling, if_pos rfl]
    | true =>
      obtain ⟨d, heq, hs, hp⟩ := h.htSplit_eq hceiling
      have hd := h.divided hs hp
      exact ⟨.split, _, heq, ⟨_, hd⟩, h.lookup_divided hd⟩

theorem Good.split_done (h : Good H T) {rc : SplitRc} {T' : HTable} (hroom : T.partner < maxBuckets)
    (heq : htSplit true T = some (rc, T')) : rc = .split := by
  obtain ⟨L, h⟩ := h
  obtain ⟨d, heq', -, -⟩ := h.htSplit_eq (not_le.mpr hroom)
  rw [heq'] at heq
  cases heq
  rfl

/-- The two chains have no more overflow buckets than the one had. -/
theorem Good.split_buckets (h : Good H T) {room : Bool} {rc : SplitRc} {T' : HTable}
    (heq : htSplit room T = some (rc, T')) :
    ((T'.bkt T.split).length - 1) + ((T'.bkt T.partner).length - 1) ≤
      (T.bkt T.split).length - 1 := by
  obtain ⟨L, h⟩ := h
  have hsame : T' = T → ((T'.bkt T.split).length - 1) + ((T'.bkt T.partner).length - 1) ≤
      (T.bkt T.split).length - 1 := by
    rintro rfl
    rw [h.partner_bkt]
    exact le_rfl
  by_cases hceiling : maxBuckets ≤ T.partner
  · rw [htSplit, if_pos hceiling] at heq
    cases heq
    exact hsame rfl
  · cases room with
    | false =>
      rw [htSplit, if_neg hceiling, if_pos rfl] at heq
      cases heq
      exact hsame rfl
    | true =>
      obtain ⟨d, heq', hs, hp⟩ := h.htSplit_eq hceiling
      have hd := h.divided hs hp
      rw [heq'] at heq
      cases heq
      have hadd := overflow_add_le (le_of_eq (length_stay_add T.level (L T.split)))
      rw [hd.bkt, hd.bkt, h.bkt, splitLists_split, HTable.partner, splitLists_partner,
        length_layout, length_layout, length_layout]
      rw [overflow, overflow, overflow] at hadd
      omega

end

end Perfcached.Ht
