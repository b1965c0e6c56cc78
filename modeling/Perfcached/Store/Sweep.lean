import Perfcached.Lib.While
import Perfcached.Store.Split

/-!
# Perfcached.Store.Sweep

The expiry sweep over the buckets (`pcache_ht_sweep` in `src/core/pcache_htable.c`).

A bucket whose hint is due is worked in holds of its lock. A hold goes along the chain with a
cursor, a bucket and a slot of it, and takes out what is past its deadline, up to a batch: the
chain's last record comes into the hole and is looked at next. Where that folded the tail into the
bucket before it, the cursor goes back to the home bucket. The hint becomes the least expiry the
cursor passed. A hold that took a whole batch is followed by another.

What a hold does to the list of the chain's records is `Held`; what the sweep does to the table is
`Good.sweep`.
-/

namespace Perfcached.Ht

open Bytes While List Option Function Nat

/-! ### The source's functions -/

/-- `PCACHE_SWEEP_BATCH`. -/
def sweepBatch : Nat := 64

/-- A hold under way: the chain, the cursor, what is dead, the least expiry passed and the change of
the count of chained records. -/
structure Hold where
  chain : Chain
  w : Nat
  i : Nat
  dead : List Item
  newmin : Nat
  dsum : Int

/-- The hold takes the record at the cursor. A tail that folded sends the cursor to the top. -/
def Hold.take (h : Hold) (r : Item) : Hold :=
  let n := chainRecords h.chain
  let c := chainRemoveAt h.chain h.w h.i
  let h' : Hold :=
    { h with chain := c, dead := h.dead ++ [r], dsum := h.dsum + (chainedOf (n - 1) - chainedOf n) }
  if c.length < h.chain.length then { h' with w := 0, i := 0, newmin := 0 } else h'

/-- The cursor passes a record. -/
def Hold.pass (h : Hold) (r : Item) : Hold :=
  { h with i := h.i + 1, newmin := minExp h.newmin r.body.expires }

def holdPass (now : Nat) (h : Hold) : Pass Hold Hold :=
  match h.chain[h.w]? with
  | none => .leave h
  | some b =>
    if b.used ≤ h.i then .again { h with w := h.w + 1, i := 0 }
    else
      match b.slot h.i with
      -- a slot in use has a record
      | none => .leave h
      | some r =>
        if r.body.expired now ∧ h.dead.length < sweepBatch then .again (h.take r)
        else .again (h.pass r)

/-- A bound on the passes a hold makes from its start. -/
def holdBound (c : Chain) : Nat :=
  let n := chainRecords c
  n * (3 * n + 5) + n + 2 * c.length + 1

/-- One hold of a bucket's lock. -/
def sweepHold (now : Nat) (c : Chain) : Option Hold :=
  run (holdPass now) (holdBound c) ⟨c, 0, 0, [], 0, 0⟩

/-- What a hold leaves of the table. -/
def HTable.afterHold (T : HTable) (idx : Nat) (h : Hold) : HTable :=
  { T.setBkt idx h.chain h.dsum with hint := update T.hint idx h.newmin }

/-- One round of the holds of a bucket, with what was reaped before it. -/
def bucketPass (now idx : Nat) (s : HTable × List Item) :
    Pass (HTable × List Item) (Option (HTable × List Item)) :=
  match sweepHold now (s.1.bkt idx) with
  | none => .leave none
  | some h =>
    let s' := (s.1.afterHold idx h, s.2 ++ h.dead)
    if h.dead.length = sweepBatch then .again s' else .leave (some s')

/-- The sweep of a bucket, unless its hint is not due. -/
def sweepBucket (now : Nat) (s : HTable × List Item) (idx : Nat) : Option (HTable × List Item) :=
  if s.1.hint idx = 0 ∨ now < s.1.hint idx then some s
  else (run (bucketPass now idx) (chainRecords (s.1.bkt idx) + 1) s).join

/-- `pcache_ht_sweep`, with the records it reaps. -/
def htSweep (now : Nat) (T : HTable) : Option (HTable × List Item) :=
  (List.range T.nbuckets).foldlM (sweepBucket now) (T, [])

/-! ### A hold -/

section
variable {l : List Item} {w : Nat} {b : Bucket}

theorem layout_bucket (hb : (layout l)[w]? = some b) : 5 * w + b.used ≤ l.length ∧
      (w + 1 < (layout l).length → b.used = 5) ∧
      (w + 1 = (layout l).length → 5 * w + b.used = l.length) ∧
      ∀ i < b.used, b.slot i = l[5 * w + i]? ∧ place l.length (5 * w + i) = (w, i) := by
  induction l using layout_induction generalizing w with
  | short l h =>
    rw [layout_short h] at hb ⊢
    obtain ⟨hw, hb⟩ := List.getElem?_eq_some_iff.mp hb
    rw [length_singleton] at hw ⊢
    obtain rfl : w = 0 := by omega
    rw [getElem_singleton] at hb
    subst hb
    change 5 * 0 + l.length ≤ _ ∧ _ ∧ (_ → 5 * 0 + l.length = _) ∧ ∀ i < l.length, _
    refine ⟨by omega, fun hlt => by omega, fun _ => by omega, fun i _ => ?_⟩
    rw [mul_zero, zero_add, place_front (.inl h)]
    exact ⟨rfl, rfl⟩
  | long l h ih =>
    have hpos := length_pos_iff.mpr (layout_ne_nil (l.drop 5))
    rw [layout_long h] at hb ⊢
    rw [length_cons]
    cases w with
    | zero =>
      rw [getElem?_cons_zero, some.injEq] at hb
      subst hb
      -- a linked bucket has five records, whose places come first
      have hused : (bucketOf (l.take 5)).used = 5 := by
        change (l.take 5).length = 5
        rw [length_take]
        omega
      rw [hused]
      refine ⟨by omega, fun _ => rfl, fun heq => by omega, fun i hi => ?_⟩
      rw [mul_zero, zero_add, place_front (.inr hi)]
      refine ⟨?_, rfl⟩
      change (l.take 5)[i]? = _
      rw [getElem?_take_of_lt hi]
    | succ w =>
      rw [getElem?_cons_succ] at hb
      obtain ⟨hle, hlink, htail, hslot⟩ := ih hb
      rw [length_drop] at hle htail hslot
      refine ⟨by omega, fun hlt => hlink (by omega), fun heq => ?_, fun i hi => ?_⟩
      · omega
      · obtain ⟨hget, hplace⟩ := hslot i hi
        have hflat : 5 * (w + 1) + i - 5 = 5 * w + i := by omega
        rw [place_rest h (by omega), hflat, hplace]
        refine ⟨?_, rfl⟩
        rw [hget, getElem?_drop]
        congr 1
        omega

end

/-- A hold on a chain that had the records of `l₀`, with those of `l` left and `p` passed. -/
structure HeldAt (now : Nat) (l₀ l : List Item) (p : Nat) (h : Hold) : Prop where
  chain : h.chain = layout l
  perm : l₀.Perm (h.dead ++ l)
  dead : ∀ r ∈ h.dead, r.body.expired now = true
  batch : h.dead.length ≤ sweepBatch
  dsum : h.dsum = chainedOf l.length - chainedOf l₀.length
  le : p ≤ l.length
  inside : h.w < (layout l).length → p = 5 * h.w + h.i
  linked : h.w + 1 < (layout l).length → h.i ≤ 5
  past : (layout l).length ≤ h.w → p = l.length
  live : h.dead.length < sweepBatch → ∀ r ∈ l.take p, r.body.expired now = false
  least : ∀ r ∈ l.take p, r.body.expires ≠ 0 → h.newmin ≠ 0 ∧ h.newmin ≤ r.body.expires

/-- The variant of a hold: the records that are left, and then how far the cursor has to go. -/
def Hold.left (h : Hold) : Nat :=
  let n := chainRecords h.chain
  n * (3 * (h.dead.length + n) + 5) + (n - (5 * h.w + h.i)) + 2 * (h.chain.length - h.w)

section
variable {now : Nat} {l₀ l : List Item} {p : Nat} {h : Hold} {b : Bucket} {r : Item}

theorem heldAt_start (now : Nat) (l : List Item) : HeldAt now l l 0 ⟨layout l, 0, 0, [], 0, 0⟩ := by
  refine ⟨rfl, .refl _, nofun, zero_le _, (sub_self _).symm, zero_le _,
    fun _ => rfl, fun _ => zero_le _, fun hlen => ?_, fun _ r hr => ?_, fun r hr => ?_⟩
  · exact absurd hlen (not_le.mpr (length_pos_iff.mpr (layout_ne_nil l)))
  all_goals
    rw [take_zero] at hr
    exact nomatch hr

section

variable (hh : HeldAt now l₀ l p h) (hb : h.chain[h.w]? = some b)
include hh hb

theorem HeldAt.next (hi : b.used ≤ h.i) :
    HeldAt now l₀ l p { h with w := h.w + 1, i := 0 } ∧
      ({ h with w := h.w + 1, i := 0 } : Hold).left < h.left := by
  have hlt : h.w < (layout l).length := by
    rw [hh.chain] at hb
    exact (List.getElem?_eq_some_iff.mp hb).1
  have hrecs : chainRecords h.chain = l.length := by rw [hh.chain, chainRecords_layout]
  have hlen : h.chain.length = (layout l).length := by rw [hh.chain]
  rw [hh.chain] at hb
  obtain ⟨hle, hlink, htail, -⟩ := layout_bucket hb
  have hp := hh.inside hlt
  have hpl := hh.le
  constructor
  · refine { hh with
      inside := fun hlt' => ?_
      linked := fun _ => zero_le 5
      past := fun hpast => ?_ }
    · have := hlink hlt'
      have := hh.linked hlt'
      dsimp only
      omega
    · dsimp only at hpast
      omega
  · unfold Hold.left
    dsimp only
    rw [hrecs, hlen]
    generalize l.length * (3 * (h.dead.length + l.length) + 5) = big
    by_cases hlt' : h.w + 1 < (layout l).length
    · have := hh.linked hlt'
      omega
    · rw [length_layout] at *
      omega

theorem HeldAt.at_cursor (hi : h.i < b.used) :
    p = 5 * h.w + h.i ∧ p < l.length ∧ b.slot h.i = l[p]? ∧ place l.length p = (h.w, h.i) := by
  rw [hh.chain] at hb
  obtain ⟨hle, -, -, hslot⟩ := layout_bucket hb
  have hp := hh.inside (List.getElem?_eq_some_iff.mp hb).1
  rw [hp]
  exact ⟨rfl, by omega, (hslot h.i hi).1, (hslot h.i hi).2⟩

theorem HeldAt.pass (hi : h.i < b.used) (hr : b.slot h.i = some r)
    (hstay : ¬ (r.body.expired now = true ∧ h.dead.length < sweepBatch)) :
    HeldAt now l₀ l (p + 1) (h.pass r) ∧ (h.pass r).left < h.left := by
  obtain ⟨hp, hlt, hslot, -⟩ := hh.at_cursor hb hi
  rw [hr] at hslot
  have hmem : ∀ r' ∈ l.take (p + 1), r' ∈ l.take p ∨ r' = r := by
    intro r' hr'
    rw [take_add_one, ← hslot] at hr'
    rcases mem_append.mp hr' with hr' | hr'
    · exact .inl hr'
    · exact .inr (mem_singleton.mp hr')
  rw [hh.chain] at hb
  obtain ⟨-, hlink, -, -⟩ := layout_bucket hb
  constructor
  · refine { hh with
      le := hlt
      inside := fun _ => by rw [hp]; rfl
      linked := fun hlt' => ?_
      past := fun hpast => ?_
      live := fun hroom r' hr' => ?_
      least := fun r' hr' he => minExp_covers he ?_ }
    · have := hlink hlt'
      change h.i + 1 ≤ 5
      omega
    · exact absurd (List.getElem?_eq_some_iff.mp hb).1 (not_lt.mpr hpast)
    · rcases hmem r' hr' with hr' | rfl
      · exact hh.live hroom r' hr'
      · rw [← Bool.not_eq_true]
        exact fun he => hstay ⟨he, hroom⟩
    · rcases hmem r' hr' with hr' | rfl
      · exact .inr (hh.least r' hr' he)
      · exact .inl rfl
  · have hrecs : chainRecords h.chain = l.length := by rw [hh.chain, chainRecords_layout]
    unfold Hold.left Hold.pass
    dsimp only
    rw [hrecs]
    generalize l.length * (3 * (h.dead.length + l.length) + 5) = big
    omega

end

theorem length_removeAt (hp : p < l.length) : (removeAt l p).length = l.length - 1 := by
  have hperm := perm_removeAt (getElem?_eq_getElem hp)
  rw [hperm.length_eq, length_cons, Nat.add_sub_cancel]

theorem take_removeAt (hp : p < l.length) : (removeAt l p).take p = l.take p := by
  obtain ⟨a, x, rfl⟩ := exists_concat (l := l) (by omega)
  rw [removeAt, getLast?_concat]
  dsimp only
  rw [dropLast_eq_take, length_set, take_take, take_set_of_le (by omega),
    Nat.min_eq_left (by omega)]

/-- The variant falls with a record that is taken, wherever the cursor goes. -/
theorem left_take (hh : HeldAt now l₀ l p h) (hlt : p < l.length)
    (hchain : chainRemoveAt h.chain h.w h.i = layout (removeAt l p)) :
    (h.take r).left < h.left := by
  have hlen := length_removeAt hlt
  have hrecs : chainRecords h.chain = l.length := by rw [hh.chain, chainRecords_layout]
  have hrest : ∀ h' : Hold, h'.chain = layout (removeAt l p) → h'.dead.length = h.dead.length + 1 →
      h'.left < h.left := by
    intro h' hchain' hdead'
    have hrecs' : chainRecords h'.chain = (removeAt l p).length := by
      rw [hchain', chainRecords_layout]
    have hlen' : h'.chain.length = 1 + ((removeAt l p).length - 2) / 5 := by
      rw [hchain', length_layout]
    unfold Hold.left
    dsimp only
    rw [hrecs, hrecs', hlen', hdead', hlen]
    obtain ⟨n, hn⟩ : ∃ n, l.length = n + 1 := ⟨l.length - 1, by omega⟩
    rw [hn, Nat.add_sub_cancel]
    have hsame : h.dead.length + 1 + n = h.dead.length + (n + 1) := by omega
    rw [hsame, succ_mul n]
    generalize n * (3 * (h.dead.length + (n + 1)) + 5) = big
    omega
  have hdead : ∀ h' : Hold, h'.dead = h.dead ++ [r] → h'.dead.length = h.dead.length + 1 := by
    intro h' heq
    rw [heq, length_append, length_singleton]
  unfold Hold.take
  dsimp only
  split
  all_goals exact hrest _ hchain (hdead _ rfl)

/-- The hold takes a record out of the chain. -/
theorem HeldAt.take (hh : HeldAt now l₀ l p h) (hb : h.chain[h.w]? = some b) (hi : h.i < b.used)
    (hr : b.slot h.i = some r) (hdead : r.body.expired now = true)
    (hroom : h.dead.length < sweepBatch) :
    (∃ l' p', HeldAt now l₀ l' p' (h.take r)) ∧ (h.take r).left < h.left := by
  obtain ⟨hp, hlt, hslot, hplace⟩ := hh.at_cursor hb hi
  rw [hr] at hslot
  have hlen := length_removeAt hlt
  have hchain : chainRemoveAt h.chain h.w h.i = layout (removeAt l p) := by
    have := chainRemoveAt_layout hlt
    rwa [hplace, ← hh.chain] at this
  have hperm : l₀.Perm (h.dead ++ [r] ++ removeAt l p) := by
    rw [append_assoc]
    exact hh.perm.trans ((perm_removeAt hslot.symm).append_left h.dead)
  have hdead' : ∀ r' ∈ h.dead ++ [r], r'.body.expired now = true := by
    intro r' hr'
    rcases mem_append.mp hr' with hr' | hr'
    · exact hh.dead r' hr'
    · rw [mem_singleton.mp hr']
      exact hdead
  have hbatch : (h.dead ++ [r]).length ≤ sweepBatch := by
    rw [length_append, length_singleton]
    omega
  have hdsum : h.dsum + (chainedOf (chainRecords h.chain - 1) - chainedOf (chainRecords h.chain)) =
      chainedOf (removeAt l p).length - chainedOf l₀.length := by
    rw [hh.dsum, hh.chain, chainRecords_layout, hlen]
    ring
  refine ⟨?_, left_take hh hlt hchain⟩
  unfold Hold.take
  dsimp only
  split
  · -- a tail folded: nothing is passed yet
    refine ⟨removeAt l p, 0, hchain, hperm, hdead', hbatch, hdsum, zero_le _, fun _ => rfl,
      fun _ => zero_le _, fun hpast => ?_, fun _ r' hr' => ?_, fun r' hr' => ?_⟩
    · exact absurd hpast (not_le.mpr (length_pos_iff.mpr (layout_ne_nil _)))
    all_goals
      rw [take_zero] at hr'
      exact nomatch hr'
  · next hfold =>
      -- as many buckets as before
      rw [hchain] at hfold
      have hbuckets : (layout l).length ≤ (layout (removeAt l p)).length := by
        rw [← hh.chain]
        exact not_lt.mp hfold
      have hbuckets' : (layout (removeAt l p)).length ≤ (layout l).length := by
        rw [length_layout, length_layout, hlen]
        omega
      have hw : h.w < (layout l).length := by
        rw [hh.chain] at hb
        exact (List.getElem?_eq_some_iff.mp hb).1
      refine ⟨removeAt l p, p, hchain, hperm, hdead', hbatch, hdsum, by omega, fun _ => hp,
        fun hlink => hh.linked (by dsimp only at hlink; omega), fun hpast => ?_,
        fun _ r' hr' => ?_, fun r' hr' => ?_⟩
      · dsimp only at hpast
        omega
      · rw [take_removeAt hlt] at hr'
        exact hh.live hroom r' hr'
      · rw [take_removeAt hlt] at hr'
        exact hh.least r' hr'

/-- What a hold leaves: the chain without what is dead, the least expiry of it, and nothing past its
deadline unless the batch was full. -/
structure Held (now : Nat) (l₀ : List Item) (h : Hold) (l : List Item) : Prop where
  chain : h.chain = layout l
  perm : l₀.Perm (h.dead ++ l)
  dead : ∀ r ∈ h.dead, r.body.expired now = true
  dsum : h.dsum = chainedOf l.length - chainedOf l₀.length
  live : h.dead.length ≠ sweepBatch → ∀ r ∈ l, r.body.expired now = false
  least : ∀ r ∈ l, r.body.expires ≠ 0 → h.newmin ≠ 0 ∧ h.newmin ≤ r.body.expires

theorem holdPass_meets (hh : ∃ l p, HeldAt now l₀ l p h) :
    (holdPass now h).Meets (fun h => ∃ l p, HeldAt now l₀ l p h) Hold.left
      (fun h => ∃ l, Held now l₀ h l) h := by
  obtain ⟨l, p, hh⟩ := hh
  unfold holdPass
  cases hb : h.chain[h.w]? with
  | none =>
    rw [hh.chain, getElem?_eq_none_iff] at hb
    have hp := hh.past hb
    have htake : l.take p = l := take_of_length_le (le_of_eq hp.symm)
    refine ⟨l, hh.chain, hh.perm, hh.dead, hh.dsum, fun hfull => ?_, ?_⟩
    · rw [← htake]
      exact hh.live (lt_of_le_of_ne hh.batch hfull)
    · rw [← htake]
      exact hh.least
  | some b =>
    dsimp only
    split
    · next hi =>
        obtain ⟨hnext, hleft⟩ := hh.next hb hi
        exact ⟨⟨l, p, hnext⟩, hleft⟩
    · next hi =>
        obtain ⟨-, hlt, hslot, -⟩ := hh.at_cursor hb (not_le.mp hi)
        rw [getElem?_eq_getElem hlt] at hslot
        rw [hslot]
        dsimp only
        split
        · next hdead => exact hh.take hb (not_le.mp hi) hslot hdead.1 hdead.2
        · next hstay =>
            obtain ⟨hpass, hleft⟩ := hh.pass hb (not_le.mp hi) hslot hstay
            exact ⟨⟨l, p + 1, hpass⟩, hleft⟩

theorem sweepHold_layout (now : Nat) (l₀ : List Item) :
    ∃ h l, sweepHold now (layout l₀) = some h ∧ Held now l₀ h l := by
  have hstart : (⟨layout l₀, 0, 0, [], 0, 0⟩ : Hold).left < holdBound (layout l₀) := by
    unfold Hold.left holdBound
    dsimp only
    rw [length_nil, Nat.zero_add, Nat.mul_zero, Nat.zero_add, Nat.sub_zero, Nat.sub_zero]
    exact lt_succ_self _
  obtain ⟨h, hrun, l, hh⟩ := run_of_variant (I := fun h => ∃ l p, HeldAt now l₀ l p h)
    (fun h hI => holdPass_meets hI) ⟨l₀, 0, heldAt_start now l₀⟩ hstart
  exact ⟨h, l, hrun, hh⟩

end

/-! ### The sweep -/

section
variable {H : Key → BitVec 32} {now : Nat} {T T' : HTable} {L L' : Nat → List Item}

/-- A table from which only records past their deadline are gone. -/
structure Reaped (H : Key → BitVec 32) (now : Nat) (T : HTable) (L : Nat → List Item) (T' : HTable)
    (L' : Nat → List Item) : Prop where
  repr : Repr H T' L'
  route : ∀ x, T'.route x = T.route x
  nbuckets : T'.nbuckets = T.nbuckets
  sub : ∀ idx, ∀ r ∈ L' idx, r ∈ L idx
  kept : ∀ idx, ∀ r ∈ L idx, r.body.expired now = false → r ∈ L' idx

theorem Reaped.refl (h : Repr H T L) : Reaped H now T L T L :=
  ⟨h, fun _ => rfl, rfl, fun _ _ hr => hr, fun _ _ hr _ => hr⟩

variable {idx : Nat}

theorem Reaped.hold (h : Reaped H now T L T' L') (hidx : idx < T.nbuckets) {hold : Hold}
    {l : List Item} (hh : Held now (L' idx) hold l) :
    Reaped H now T L (T'.afterHold idx hold) (update L' idx l) := by
  have hsub : ∀ r ∈ l, r ∈ L' idx := fun r hr => hh.perm.mem_iff.mpr (mem_append_right _ hr)
  have hnodup : (l.map Item.key).Nodup := by
    have := (hh.perm.map Item.key).nodup_iff.mp (h.repr.nodup idx)
    rw [map_append] at this
    exact this.of_append_right
  refine ⟨?_, h.route, h.nbuckets, fun i r hr => ?_, fun i r hr hlive => ?_⟩
  · refine h.repr.change rfl rfl rfl ?_ (by rw [h.nbuckets]; exact hidx) ?_
      (fun r hr => ⟨h.repr.hash idx r (hsub r hr), h.repr.route idx r (hsub r hr)⟩) hnodup
      (fun i hi => update_of_ne hi _ _) (fun r hr he => ?_)
    · change update T'.bkt idx hold.chain = _
      rw [hh.chain]
    · change T'.chained + hold.dsum = _
      rw [hh.dsum]
    · change update T'.hint idx hold.newmin idx ≠ 0 ∧
        update T'.hint idx hold.newmin idx ≤ _
      rw [update_self]
      exact hh.least r hr he
  · by_cases hi : i = idx
    · subst hi
      rw [update_self] at hr
      exact h.sub i r (hsub r hr)
    · rw [update_of_ne hi] at hr
      exact h.sub i r hr
  · have hr' := h.kept i r hr hlive
    by_cases hi : i = idx
    · subst hi
      rw [update_self]
      refine (mem_append.mp (hh.perm.mem_iff.mp hr')).resolve_left fun hdead => ?_
      rw [hh.dead r hdead] at hlive
      cases hlive
    · rw [update_of_ne hi]
      exact hr'

def itemsTo (L : Nat → List Item) (n : Nat) : List Item := (List.range n).flatMap L

/-- Of the records there were, those reaped and those left, each of them once. -/
def Told (now n : Nat) (L L' : Nat → List Item) (dead : List Item) : Prop :=
  (∀ r ∈ dead, r.body.expired now = true) ∧ (itemsTo L n).Perm (dead ++ itemsTo L' n)

theorem itemsTo_succ (L : Nat → List Item) (n : Nat) : itemsTo L (n + 1) = itemsTo L n ++ L n := by
  rw [itemsTo, range_succ, flatMap_append, flatMap_singleton]
  rfl

/-- Records that leave one bucket leave the table. -/
theorem itemsTo_update {gone l : List Item} (hperm : (L idx).Perm (gone ++ l)) (n : Nat) :
    idx < n → (itemsTo L n).Perm (gone ++ itemsTo (update L idx l) n) := by
  induction n with
  | zero => exact fun h => absurd h (not_lt_zero idx)
  | succ n ih =>
    intro hidx
    rw [itemsTo_succ, itemsTo_succ]
    by_cases hn : idx = n
    · subst hn
      have hsame : itemsTo (update L idx l) idx = itemsTo L idx := by
        refine flatMap_congr fun i hi => ?_
        exact update_of_ne (Nat.ne_of_lt (mem_range.mp hi)) _ _
      rw [hsame, update_self]
      exact (hperm.append_left _).trans (perm_append_comm_assoc _ _ _)
    · rw [update_of_ne (Ne.symm hn), ← append_assoc]
      exact (ih (by omega)).append_right _

theorem Told.hold {n : Nat} {dead : List Item} (h : Told now n L L' dead) (hidx : idx < n)
    {hold : Hold} {l : List Item} (hh : Held now (L' idx) hold l) :
    Told now n L (update L' idx l) (dead ++ hold.dead) := by
  constructor
  · intro r hr
    rcases mem_append.mp hr with hr | hr
    · exact h.1 r hr
    · exact hh.dead r hr
  · rw [append_assoc]
    exact h.2.trans ((itemsTo_update hh.perm n hidx).append_left dead)

/-- The bucket has nothing past its deadline left, and the others are as they were. -/
def Clean (now idx : Nat) (L L' : Nat → List Item) : Prop :=
  (∀ r ∈ L' idx, r.body.expired now = false) ∧ ∀ i, i ≠ idx → L' i = L i

section

variable (h : Reaped H now T L T' L') (hidx : idx < T.nbuckets) {dead : List Item}
  (ht : Told now T.nbuckets L L' dead)
include h hidx ht

/-- The holds of a bucket end, with nothing past its deadline left in it. -/
theorem Reaped.holds :
    ∃ T'' L'' dead', (run (bucketPass now idx) (chainRecords (T'.bkt idx) + 1) (T', dead)).join =
      some (T'', dead') ∧ Reaped H now T L T'' L'' ∧ Told now T.nbuckets L L'' dead' ∧
        Clean now idx L' L'' := by
  -- the rounds rewrite one list, which gets shorter
  have hrun : ∃ o, run (bucketPass now idx) (chainRecords (T'.bkt idx) + 1) (T', dead) = some o ∧
      ∃ s, o = some s ∧ ∃ L'', Reaped H now T L s.1 L'' ∧ Told now T.nbuckets L L'' s.2 ∧
        Clean now idx L' L'' := by
    refine run_of_variant
      (I := fun s => ∃ L'', Reaped H now T L s.1 L'' ∧ Told now T.nbuckets L L'' s.2 ∧
        ∀ i, i ≠ idx → L'' i = L' i)
      (v := fun s => chainRecords (s.1.bkt idx)) ?_ ⟨L', h, ht, fun _ _ => rfl⟩
      (lt_succ_self _)
    rintro ⟨T₁, dead₁⟩ ⟨L₁, h₁, ht₁, hother⟩
    obtain ⟨hold, l, heq, hh⟩ := sweepHold_layout now (L₁ idx)
    have hnext := h₁.hold hidx hh
    have htold := ht₁.hold hidx hh
    have hother' : ∀ i, i ≠ idx → update L₁ idx l i = L' i := by
      intro i hi
      rw [update_of_ne hi, hother i hi]
    unfold bucketPass
    rw [h₁.repr.bkt, heq]
    dsimp only
    split
    · next hfull =>
        refine ⟨⟨_, hnext, htold, hother'⟩, ?_⟩
        dsimp only
        rw [hnext.repr.bkt, h₁.repr.bkt, chainRecords_layout, chainRecords_layout,
          update_self, hh.perm.length_eq, length_append, hfull, sweepBatch]
        omega
    · next hroom =>
        refine ⟨_, rfl, _, hnext, htold, fun r hr => ?_, hother'⟩
        rw [update_self] at hr
        exact hh.live hroom r hr
  obtain ⟨o, ho, ⟨T'', dead'⟩, rfl, L'', hreaped, htold, hclean⟩ := hrun
  exact ⟨T'', L'', dead', by rw [ho]; rfl, hreaped, htold, hclean⟩

/-- A bucket's sweep; a hint that is not due says that there is nothing to reap. -/
theorem Reaped.bucket :
    ∃ T'' L'' dead', sweepBucket now (T', dead) idx = some (T'', dead') ∧
      Reaped H now T L T'' L'' ∧ Told now T.nbuckets L L'' dead' ∧ Clean now idx L' L'' := by
  unfold sweepBucket
  dsimp only
  split
  · next hhint =>
      refine ⟨T', L', dead, rfl, h, ht, fun r hr => ?_, fun _ _ => rfl⟩
      rw [← Bool.not_eq_true]
      intro hexp
      rw [Rec.expired, Bool.and_eq_true, decide_eq_true_eq, decide_eq_true_eq] at hexp
      have := h.repr.hint idx r hr hexp.1
      omega
  · exact h.holds hidx ht

end

/-- The buckets a sweep has been over are clean. -/
theorem Reaped.buckets (h : Repr H T L) (now n : Nat) (hn : n ≤ T.nbuckets) :
    ∃ T' L' dead, (range n).foldlM (sweepBucket now) (T, []) = some (T', dead) ∧
      Reaped H now T L T' L' ∧ Told now T.nbuckets L L' dead ∧
        ∀ idx < n, ∀ r ∈ L' idx, r.body.expired now = false := by
  induction n with
  | zero =>
    have htold : Told now T.nbuckets L L [] := ⟨nofun, .refl _⟩
    exact ⟨T, L, [], rfl, .refl h, htold, fun idx hidx => absurd hidx (not_lt_zero idx)⟩
  | succ n ih =>
    obtain ⟨T', L', dead, hrun, hreaped, htold, hclean⟩ := ih (le_of_succ_le hn)
    obtain ⟨T'', L'', dead', hbucket, hreaped', htold', hlast, hother⟩ := hreaped.bucket hn htold
    refine ⟨T'', L'', dead', ?_, hreaped', htold', fun idx hidx => ?_⟩
    · rw [range_succ, foldlM_append, hrun]
      change (sweepBucket now (T', dead) n).bind (fun s => some s) = _
      rw [hbucket]
      rfl
    · rcases Nat.lt_succ_iff_lt_or_eq.mp hidx with hlt | rfl
      · rw [hother idx (Nat.ne_of_lt hlt)]
        exact hclean idx hlt
      · exact hlast

/-- A sweep ends, and takes what is past its deadline. -/
theorem Good.sweep (h : Good H T) (now : Nat) :
    ∃ T' dead, htSweep now T = some (T', dead) ∧ Good H T' ∧
      ∀ k, T'.lookup H k = (T.lookup H k).filter fun r => !r.expired now := by
  obtain ⟨L, h⟩ := h
  obtain ⟨T', L', dead, hrun, hreaped, -, hclean⟩ := Reaped.buckets h now T.nbuckets le_rfl
  refine ⟨T', dead, hrun, ⟨L', hreaped.repr⟩, fun k => ext fun b => ?_⟩
  rw [hreaped.repr.lookup_eq_some_iff, hreaped.route, filter_eq_some_iff, h.lookup_eq_some_iff]
  constructor
  · rintro ⟨r, hr, hk, rfl⟩
    refine ⟨⟨r, hreaped.sub _ r hr, hk, rfl⟩, ?_⟩
    rw [hclean _ (h.route_lt (H k)) r hr]
    rfl
  · rintro ⟨⟨r, hr, hk, rfl⟩, hlive⟩
    exact ⟨r, hreaped.kept _ r hr ((Bool.not_eq_true' _).mp hlive), hk, rfl⟩

end

end Perfcached.Ht
