import Perfcached.Lib.Tally
import Perfcached.Store.Chain

/-!
# Perfcached.Store.Buckets

The table as its buckets (`pcache_htable_t`): routing, lookups and the three ways a chain changes.

The routing word is a level and a split pointer: the buckets before the pointer are divided by one
more bit of the hash than those from it on. `Repr` says that a table stands for a family of lists of
records, one for each bucket: its chains are the layouts of the lists, a record is in the list its
hash routes to, and the count of chained records and the expiry hints are right. A lookup is then a
search in one list (`lookup_eq_some_iff`), and whatever rewrites one list is `Repr.change`.
-/

namespace Perfcached.Ht

open Bytes Tally List Option Function

/-- `pcache_htable_t`, with what the operations of this development read. -/
structure HTable where
  level : Nat
  split : Nat
  nbuckets : Nat
  bkt : Nat → Chain
  hint : Nat → Nat
  chained : Int

def routeIdx (level split : Nat) (h : BitVec 32) : Nat :=
  let idx := h.toNat % 2 ^ level
  if idx < split then h.toNat % 2 ^ (level + 1) else idx

def HTable.route (T : HTable) (h : BitVec 32) : Nat := routeIdx T.level T.split h

/-- A table as it is made, with `2 ^ sizeLog2` buckets. -/
def htNew (sizeLog2 : Nat) : HTable where
  level := sizeLog2
  split := 0
  nbuckets := 2 ^ sizeLog2
  bkt _ := [.zero]
  hint _ := 0
  chained := 0

/-- A bucket's chain is rewritten, and the count of chained records moves. -/
def HTable.setBkt (T : HTable) (idx : Nat) (c : Chain) (dc : Int) : HTable :=
  { T with bkt := update T.bkt idx c, chained := T.chained + dc }

def HTable.hintUpdate (T : HTable) (idx expires : Nat) : HTable :=
  if expires ≠ 0 ∧ (T.hint idx = 0 ∨ expires < T.hint idx) then
    { T with hint := update T.hint idx expires }
  else T

def HTable.replaceRec (T : HTable) (idx : Nat) (w : Nat × Nat) (r : Item) : HTable :=
  (T.setBkt idx (setRec (T.bkt idx) w.1 w.2 r) 0).hintUpdate idx r.body.expires

def HTable.appendRec (T : HTable) (idx : Nat) (r : Item) : HTable :=
  let n := chainRecords (T.bkt idx)
  (T.setBkt idx (chainAppend r (tagOf r.hash) (T.bkt idx))
    (if n ≥ pcacheSlots then chainedOf (n + 1) - chainedOf n else 0)).hintUpdate idx r.body.expires

def HTable.removeRec (T : HTable) (idx : Nat) (w : Nat × Nat) : HTable :=
  let n := chainRecords (T.bkt idx)
  T.setBkt idx (chainRemoveAt (T.bkt idx) w.1 w.2) (chainedOf (n - 1) - chainedOf n)

section
variable (H : Key → BitVec 32)

/-- Where a key's record is: the bucket of the chain and the slot. -/
def HTable.find (T : HTable) (k : Key) : Option (Nat × Nat) :=
  chainFind k (H k) (tagOf (H k)) (T.bkt (T.route (H k)))

def HTable.lookup (T : HTable) (k : Key) : Option Rec :=
  (T.find H k).bind fun w => (recAt (T.bkt (T.route (H k))) w.1 w.2).map Item.body

/-- The table stands for a list of records in each bucket. -/
structure Repr (T : HTable) (L : Nat → List Item) : Prop where
  bkt : ∀ idx, T.bkt idx = layout (L idx)
  hash : ∀ idx, ∀ r ∈ L idx, r.hash = H r.key
  route : ∀ idx, ∀ r ∈ L idx, T.route r.hash = idx
  nodup : ∀ idx, ((L idx).map Item.key).Nodup
  nbuckets : T.nbuckets = 2 ^ T.level + T.split
  split : T.split < 2 ^ T.level
  chained : T.chained = ∑ idx ∈ Finset.range T.nbuckets, chainedOf (L idx).length
  hint : ∀ idx, ∀ r ∈ L idx, r.body.expires ≠ 0 → T.hint idx ≠ 0 ∧ T.hint idx ≤ r.body.expires

variable {H} {T T' : HTable} {L : Nat → List Item}

theorem routeIdx_lt (level split : Nat) (x : BitVec 32) :
    routeIdx level split x < 2 ^ level + split := by
  unfold routeIdx
  dsimp only
  split
  · next hlt =>
      have hmod : x.toNat % 2 ^ (level + 1) % 2 ^ level = x.toNat % 2 ^ level :=
        Nat.mod_mod_of_dvd _ (Nat.pow_dvd_pow 2 (Nat.le_succ level))
      have hwide := Nat.mod_lt x.toNat (Nat.two_pow_pos (level + 1))
      rw [Nat.pow_succ] at hwide hmod ⊢
      by_cases hbig : 2 ^ level ≤ x.toNat % (2 ^ level * 2)
      · rw [Nat.mod_eq_sub_mod hbig, Nat.mod_eq_of_lt (by omega)] at hmod
        omega
      · omega
  · omega

theorem Repr.route_lt (h : Repr H T L) (x : BitVec 32) : T.route x < T.nbuckets := by
  rw [h.nbuckets]
  exact routeIdx_lt _ _ x

variable {idx : Nat}

/-- Past the buckets there are, none has a record. -/
theorem Repr.list_eq_nil (h : Repr H T L) (hidx : T.nbuckets ≤ idx) : L idx = [] := by
  rw [eq_nil_iff_forall_not_mem]
  intro r hr
  have := h.route_lt r.hash
  rw [h.route idx r hr] at this
  omega

theorem repr_htNew (H : Key → BitVec 32) (sizeLog2 : Nat) :
    Repr H (htNew sizeLog2) fun _ => [] := by
  refine ⟨fun idx => ?_, nofun, nofun, fun idx => nodup_nil, rfl, Nat.two_pow_pos _, ?_, nofun⟩
  · exact (layout_short (l := []) (Nat.zero_le 6)).symm
  · exact (Finset.sum_eq_zero fun idx _ => rfl).symm

/-! ### Lookups -/

variable {r : Item}

theorem is_iff (h : Repr H T L) (hr : r ∈ L idx) (k : Key) :
    Item.is k (H k) r = true ↔ r.key = k := by
  rw [Item.is, decide_eq_true_eq]
  constructor
  · exact fun his => his.2
  · intro hk
    exact ⟨by rw [h.hash idx r hr, hk], hk⟩

open HTable

theorem Repr.find_eq (h : Repr H T L) (k : Key) :
    T.find H k = ((L (T.route (H k))).findIdx? (Item.is k (H k))).map
      (place (L (T.route (H k))).length) := by
  rw [find, h.bkt, chainFind_layout]

variable {k : Key} {w : Nat × Nat}

section

variable (h : Repr H T L)
include h

/-- A key that is found is at the place of its record. -/
theorem Repr.find_some (hw : T.find H k = some w) :
    ∃ p r, (L (T.route (H k)))[p]? = some r ∧ r.key = k ∧ r.hash = H k ∧
      w = place (L (T.route (H k))).length p := by
  rw [h.find_eq] at hw
  obtain ⟨p, hp, rfl⟩ := map_eq_some_iff.mp hw
  obtain ⟨hlt, hp, -⟩ := findIdx?_eq_some_iff_getElem.mp hp
  rw [Item.is, decide_eq_true_eq] at hp
  exact ⟨p, _, getElem?_eq_getElem hlt, hp.2, hp.1, rfl⟩

theorem Repr.find_none (hw : T.find H k = none) : ∀ r ∈ L (T.route (H k)), r.key ≠ k := by
  rw [h.find_eq, map_eq_none_iff, findIdx?_eq_none_iff] at hw
  intro r hr hk
  have := hw r hr
  rw [(is_iff h hr k).mpr hk] at this
  cases this

theorem key_inj {r' : Item} (hr : r ∈ L idx) (hr' : r' ∈ L idx) (hk : r.key = r'.key) : r = r' :=
  inj_on_of_nodup_map (h.nodup idx) hr hr' hk

theorem Repr.lookup_of_find {p : Nat} (hp : (L (T.route (H k)))[p]? = some r)
    (hw : T.find H k = some (place (L (T.route (H k))).length p)) : T.lookup H k = some r.body := by
  rw [HTable.lookup, hw, bind_some, h.bkt, recAt_layout (List.getElem?_eq_some_iff.mp hp).1, hp]
  rfl

/-- A lookup finds the record of the key in the list its hash routes to. -/
theorem Repr.lookup_eq_some_iff (k : Key) (b : Rec) :
    T.lookup H k = some b ↔ ∃ r ∈ L (T.route (H k)), r.key = k ∧ r.body = b := by
  cases hw : T.find H k with
  | none =>
    have hnone : T.lookup H k = none := by
      rw [HTable.lookup, hw]
      rfl
    rw [hnone]
    refine ⟨nofun, ?_⟩
    rintro ⟨r, hr, hk, -⟩
    exact absurd hk (h.find_none hw r hr)
  | some w =>
    obtain ⟨p, r, hp, hk, -, rfl⟩ := h.find_some hw
    rw [h.lookup_of_find hp hw]
    have hr : r ∈ L (T.route (H k)) := mem_of_getElem? hp
    constructor
    · intro hb
      exact ⟨r, hr, hk, some.inj hb⟩
    · rintro ⟨r', hr', hk', rfl⟩
      rw [key_inj h hr hr' (hk.trans hk'.symm)]

end

/-! ### A chain changes -/

variable {l : List Item}

/-- One list is rewritten, with records of its own bucket. -/
theorem Repr.change (h : Repr H T L) (hlevel : T'.level = T.level) (hsplit : T'.split = T.split)
    (hnb : T'.nbuckets = T.nbuckets) (hbkt : T'.bkt = update T.bkt idx (layout l))
    (hidx : idx < T.nbuckets)
    (hchained : T'.chained = T.chained + (chainedOf l.length - chainedOf (L idx).length))
    (hitem : ∀ r ∈ l, r.hash = H r.key ∧ T.route r.hash = idx) (hnodup : (l.map Item.key).Nodup)
    (hother : ∀ i, i ≠ idx → T'.hint i = T.hint i)
    (hhint : ∀ r ∈ l, r.body.expires ≠ 0 → T'.hint idx ≠ 0 ∧ T'.hint idx ≤ r.body.expires) :
    Repr H T' (update L idx l) := by
  have hroute : ∀ x, T'.route x = T.route x := by
    intro x
    rw [HTable.route, hlevel, hsplit, HTable.route]
  refine ⟨fun i => ?_, fun i r hr => ?_, fun i r hr => ?_, fun i => ?_, ?_, ?_, ?_,
    fun i r hr => ?_⟩
  · rw [hbkt]
    by_cases hi : i = idx
    · subst hi
      rw [update_self, update_self]
    · rw [update_of_ne hi, update_of_ne hi, h.bkt]
  · by_cases hi : i = idx
    · subst hi
      rw [update_self] at hr
      exact (hitem r hr).1
    · rw [update_of_ne hi] at hr
      exact h.hash i r hr
  · rw [hroute]
    by_cases hi : i = idx
    · subst hi
      rw [update_self] at hr
      exact (hitem r hr).2
    · rw [update_of_ne hi] at hr
      exact h.route i r hr
  · by_cases hi : i = idx
    · subst hi
      rw [update_self]
      exact hnodup
    · rw [update_of_ne hi]
      exact h.nodup i
  · rw [hnb, hlevel, hsplit]
    exact h.nbuckets
  · rw [hlevel, hsplit]
    exact h.split
  · rw [hchained, hnb, h.chained]
    have hsum := sum_range_change (f := fun i => chainedOf (L i).length)
      (g := fun i => chainedOf (update L idx l i).length) hidx fun i _ hi => by
        rw [update_of_ne hi]
    rw [update_self] at hsum
    exact hsum.symm
  · by_cases hi : i = idx
    · subst hi
      rw [update_self] at hr
      exact hhint r hr
    · rw [update_of_ne hi] at hr
      rw [hother i hi]
      exact h.hint i r hr

/-- What a lookup finds after one list is rewritten for a key. -/
theorem Repr.lookup_change (h : Repr H T L) {v : Option Rec}
    (h' : Repr H T' (update L (T.route (H k)) l)) (hroute : ∀ x, T'.route x = T.route x)
    (hmem : ∀ r, r.key ≠ k → (r ∈ l ↔ r ∈ L (T.route (H k))))
    (hv : ∀ b, v = some b ↔ ∃ r ∈ l, r.key = k ∧ r.body = b) (k' : Key) :
    T'.lookup H k' = if k' = k then v else T.lookup H k' := by
  apply ext
  intro b
  rw [h'.lookup_eq_some_iff, hroute]
  by_cases hk : k' = k
  · subst hk
    rw [if_pos rfl, update_self, hv]
  · rw [if_neg hk, h.lookup_eq_some_iff]
    by_cases hidx : T.route (H k') = T.route (H k)
    · rw [hidx, update_self]
      constructor
      · rintro ⟨r, hr, rfl, hb⟩
        exact ⟨r, (hmem r hk).mp hr, rfl, hb⟩
      · rintro ⟨r, hr, rfl, hb⟩
        exact ⟨r, (hmem r hk).mpr hr, rfl, hb⟩
    · rw [update_of_ne hidx]

section
variable (T) (idx expires : Nat)

theorem hintUpdate_fields : (T.hintUpdate idx expires).level = T.level ∧
    (T.hintUpdate idx expires).split = T.split ∧
    (T.hintUpdate idx expires).nbuckets = T.nbuckets ∧ (T.hintUpdate idx expires).bkt = T.bkt ∧
    (T.hintUpdate idx expires).chained = T.chained := by
  unfold hintUpdate
  split
  all_goals exact ⟨rfl, rfl, rfl, rfl, rfl⟩

theorem hintUpdate_other (i : Nat) (hi : i ≠ idx) :
    (T.hintUpdate idx expires).hint i = T.hint i := by
  unfold hintUpdate
  split
  · exact update_of_ne hi _ _
  · rfl

/-- The hint covers the new expiry and what it covered before. -/
theorem hintUpdate_covers {e : Nat} (he : e ≠ 0)
    (h : e = expires ∨ T.hint idx ≠ 0 ∧ T.hint idx ≤ e) :
    (T.hintUpdate idx expires).hint idx ≠ 0 ∧ (T.hintUpdate idx expires).hint idx ≤ e := by
  unfold hintUpdate
  split
  · next hlow =>
      change update T.hint idx expires idx ≠ 0 ∧ update T.hint idx expires idx ≤ e
      rw [update_self]
      omega
  · next hlow => omega

end

/-- A table that stands for lists of records. -/
def Good (H : Key → BitVec 32) (T : HTable) : Prop := ∃ L, Repr H T L

/-- The key's record in a list is exchanged for another, or for none; the rest stays. -/
theorem Repr.exchange (h : Repr H T L) {rest : List Item} (old new : Option Item) {dc : Int}
    (expires : Nat) (hl : (L (T.route (H k))).Perm (old.toList ++ rest))
    (hl' : l.Perm (new.toList ++ rest)) (hold : ∀ r ∈ old, r.key = k)
    (hnew : ∀ r ∈ new, r.key = k ∧ r.hash = H k ∧ r.body.expires = expires)
    (hrest : ∀ r ∈ rest, r.key ≠ k)
    (hdc : dc = chainedOf l.length - chainedOf (L (T.route (H k))).length) :
    Good H ((T.setBkt (T.route (H k)) (layout l) dc).hintUpdate (T.route (H k)) expires) ∧
      ∀ k', ((T.setBkt (T.route (H k)) (layout l) dc).hintUpdate (T.route (H k)) expires).lookup H
        k' = if k' = k then new.map Item.body else T.lookup H k' := by
  obtain ⟨hlevel, hsplit, hnb, hbkt, hchained⟩ :=
    hintUpdate_fields (T.setBkt (T.route (H k)) (layout l) dc) (T.route (H k)) expires
  have hmem : ∀ r, r ∈ l ↔ r ∈ new ∨ r ∈ rest := by
    intro r
    rw [hl'.mem_iff, mem_append, mem_toList, mem_def]
  have hmem₀ : ∀ r ∈ rest, r ∈ L (T.route (H k)) := fun r hr =>
    hl.mem_iff.mpr (mem_append_right _ hr)
  have hnodup : (l.map Item.key).Nodup := by
    have hkeys : (rest.map Item.key).Nodup := by
      have := ((hl.map Item.key).nodup_iff.mp (h.nodup _))
      rw [map_append] at this
      exact this.of_append_right
    rw [(hl'.map Item.key).nodup_iff, map_append]
    cases new with
    | none => exact hkeys
    | some r =>
      refine nodup_cons.mpr ⟨fun hk => ?_, hkeys⟩
      obtain ⟨r', hr', hk'⟩ := mem_map.mp hk
      exact hrest r' hr' (hk'.trans (hnew r rfl).1)
  have hrepr := h.change (l := l) hlevel hsplit hnb hbkt (h.route_lt (H k))
    (by rw [hchained, ← hdc]; rfl)
    (fun r hr => by
      rcases (hmem r).mp hr with hr | hr
      · rw [(hnew r hr).2.1, (hnew r hr).1]
        exact ⟨rfl, rfl⟩
      · exact ⟨h.hash _ r (hmem₀ r hr), h.route _ r (hmem₀ r hr)⟩)
    hnodup (hintUpdate_other _ _ expires)
    (fun r hr he => by
      refine hintUpdate_covers _ _ _ he ?_
      rcases (hmem r).mp hr with hr | hr
      · exact .inl (hnew r hr).2.2
      · exact .inr (h.hint _ r (hmem₀ r hr) he))
  have hroute : ∀ x, HTable.route ((T.setBkt (T.route (H k)) (layout l) dc).hintUpdate
      (T.route (H k)) expires) x = T.route x := by
    intro x
    rw [HTable.route, hlevel, hsplit]
    rfl
  refine ⟨⟨_, hrepr⟩, h.lookup_change hrepr hroute (fun r hr => ?_) (fun b => ?_)⟩
  · rw [hmem, hl.mem_iff, mem_append, mem_toList]
    exact or_congr_left ⟨fun h => absurd (hnew r h).1 hr, fun h => absurd (hold r h) hr⟩
  · rw [map_eq_some_iff]
    constructor
    · rintro ⟨r, hr, hb⟩
      exact ⟨r, (hmem r).mpr (.inl hr), (hnew r hr).1, hb⟩
    · rintro ⟨r, hr, hk, hb⟩
      exact ⟨r, ((hmem r).mp hr).resolve_right fun hr => hrest r hr hk, hb⟩

/-- The other records of a list have other keys. -/
theorem Repr.rest_ne (h : Repr H T L) {rest : List Item} (hl : (L idx).Perm (r :: rest)) :
    ∀ r' ∈ rest, r'.key ≠ r.key := by
  intro r' hr' hk
  have hnodup := (hl.map Item.key).nodup_iff.mp (h.nodup idx)
  rw [map_cons, nodup_cons] at hnodup
  exact hnodup.1 (hk ▸ mem_map_of_mem hr')

theorem Good.replace (h : Good H T) (hw : T.find H k = some w) (b : Rec) :
    Good H (T.replaceRec (T.route (H k)) w ⟨H k, k, b⟩) ∧
      ∀ k', (T.replaceRec (T.route (H k)) w ⟨H k, k, b⟩).lookup H k' =
        if k' = k then some b else T.lookup H k' := by
  obtain ⟨L, h⟩ := h
  obtain ⟨p, old, hp, hk, hash, rfl⟩ := h.find_some hw
  obtain ⟨hlt, hget⟩ := List.getElem?_eq_some_iff.mp hp
  rw [replaceRec, h.bkt, setRec_layout hp hash.symm]
  have hl : (L (T.route (H k))).Perm (old :: (L (T.route (H k))).eraseIdx p) := by
    rw [← hget]
    exact (getElem_cons_eraseIdx_perm hlt).symm
  have hrest := h.rest_ne hl
  rw [hk] at hrest
  refine h.exchange (some old) (some ⟨H k, k, b⟩) b.expires hl
    (set_perm_cons_eraseIdx hlt _) ?_ ?_ hrest ?_
  · rintro r ⟨⟩
    exact hk
  · rintro r ⟨⟩
    exact ⟨rfl, rfl, rfl⟩
  · rw [length_set, sub_self]

theorem Good.append (h : Good H T) (hw : T.find H k = none) (b : Rec) :
    Good H (T.appendRec (T.route (H k)) ⟨H k, k, b⟩) ∧
      ∀ k', (T.appendRec (T.route (H k)) ⟨H k, k, b⟩).lookup H k' =
        if k' = k then some b else T.lookup H k' := by
  obtain ⟨L, h⟩ := h
  rw [appendRec, h.bkt, chainAppend_layout, chainRecords_layout]
  refine h.exchange none (some ⟨H k, k, b⟩) b.expires (.refl _) perm_append_comm
    nofun ?_ (h.find_none hw) ?_
  · rintro r ⟨⟩
    exact ⟨rfl, rfl, rfl⟩
  · rw [length_append, length_singleton]
    split
    · rfl
    · next hlt =>
        rw [pcacheSlots] at hlt
        rw [chainedOf, chainedOf, if_neg (by rw [pcacheSlots]; omega),
          if_neg (by rw [pcacheSlots]; omega)]
        rfl

theorem Good.remove (h : Good H T) (hw : T.find H k = some w) :
    Good H (T.removeRec (T.route (H k)) w) ∧ ∀ k', (T.removeRec (T.route (H k)) w).lookup H k' =
        if k' = k then none else T.lookup H k' := by
  obtain ⟨L, h⟩ := h
  obtain ⟨p, old, hp, hk, hash, rfl⟩ := h.find_some hw
  have hl := perm_removeAt hp
  have hrest := h.rest_ne hl
  rw [hk] at hrest
  rw [removeRec, h.bkt, chainRemoveAt_layout (List.getElem?_eq_some_iff.mp hp).1,
    chainRecords_layout]
  -- a removal leaves the hint as it is
  refine h.exchange (some old) none 0 hl (.refl _) ?_ nofun hrest ?_
  · rintro r ⟨⟩
    exact hk
  · rw [hl.length_eq, length_cons, Nat.add_sub_cancel]

end

end Perfcached.Ht
