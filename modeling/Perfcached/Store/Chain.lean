import Perfcached.Store.Table

/-!
# Perfcached.Store.Chain

Buckets and their overflow chains (`find_slot`, `chain_find`, `chain_append` and `chain_remove_at`
in `src/core/pcache_htable.c`).

A bucket has six slots, each with a tag from its record's hash. Where a bucket has to hold more, its
sixth slot becomes the link to an overflow bucket, and so on. A chain is here the list of its
buckets, the home bucket first: a bucket is linked if another follows it.

`layout` is the one way to lay records out in a chain, and every operation keeps to it: appending is
`chainAppend_layout`, removing is `chainRemoveAt_layout`. What is left of an operation is then what
it does to the list of the chain's records.
-/

namespace Perfcached.Ht

open Bytes List Option

/-- `pcache_rec_t`. -/
structure Item where
  hash : BitVec 32
  key : Key
  body : Rec
  deriving DecidableEq

def tagOf (h : BitVec 32) : Byte :=
  let t := (h >>> 24).setWidth 8
  if t ≠ 0 then t else 1

/-- `pcache_bucket_t`, with the count of `meta`. -/
structure Bucket where
  tags : Nat → Byte
  slot : Nat → Option Item
  used : Nat

/-- A bucket as `memset` leaves it. -/
def Bucket.zero : Bucket := ⟨fun _ => 0, fun _ => none, 0⟩

/-- A slot and its tag are written. -/
def Bucket.set (b : Bucket) (i : Nat) (r : Option Item) (tag : Byte) : Bucket :=
  { b with tags := Function.update b.tags i tag, slot := Function.update b.slot i r }

/-- `bkt_set_used`. -/
def Bucket.setUsed (b : Bucket) (used : Nat) : Bucket := { b with used }

/-- The buckets of a chain, the home bucket first. -/
abbrev Chain := List Bucket

/-! ### The source's functions -/

/-- A record is the one looked for. -/
def Item.is (key : Key) (hash : BitVec 32) (r : Item) : Bool := r.hash = hash ∧ r.key = key

def findSlot (b : Bucket) (key : Key) (hash : BitVec 32) (tag : Byte) : Option Nat :=
  (List.range b.used).find? fun i => b.tags i = tag && (b.slot i).any (Item.is key hash)

/-- `chain_find`: the bucket and the slot. -/
def chainFind (key : Key) (hash : BitVec 32) (tag : Byte) : Chain → Option (Nat × Nat)
  | [] => none
  | b :: bs =>
    match findSlot b key hash tag with
    | some i => some (0, i)
    | none => (chainFind key hash tag bs).map fun w => (w.1 + 1, w.2)

/-- The records over the chain, as `chain_tail` counts them. -/
def chainRecords (c : Chain) : Nat := (c.map Bucket.used).sum

def chainTail (c : Chain) : Bucket := c.getLastD .zero

/-- `chain_append`. A full tail's last record moves to an overflow bucket with the new one. -/
def chainAppend (r : Item) (tag : Byte) : Chain → Chain
  | [] => []
  | [tail] =>
    if tail.used < pcacheSlots then [(tail.set tail.used (some r) tag).setUsed (tail.used + 1)]
    else
      let last := pcacheSlots - 1
      let ob := (Bucket.zero.set 0 (tail.slot last) (tail.tags last)).set 1 (some r) tag
      [(tail.set last none 0).setUsed last, ob.setUsed 2]
  | b :: b' :: bs => b :: chainAppend r tag (b' :: bs)

/-- The chain's last record, with its tag. -/
def lastRec : Chain → Option Item × Byte
  | [] => (none, 0)
  | [t] => (t.slot (t.used - 1), t.tags (t.used - 1))
  | _ :: b' :: bs => lastRec (b' :: bs)

/-- The chain's last record is taken off. A tail left with one record folds into the bucket before
it. -/
def dropLastRec : Chain → Chain
  | [] => []
  | [t] => [(t.set (t.used - 1) none 0).setUsed (t.used - 1)]
  | [prev, t] =>
    let tu := t.used - 1
    let t := (t.set tu none 0).setUsed tu
    if tu = 1 then [(prev.set (pcacheSlots - 1) (t.slot 0) (t.tags 0)).setUsed pcacheSlots]
    else [prev, t]
  | b :: b' :: b'' :: bs => b :: dropLastRec (b' :: b'' :: bs)

/-- `chain_remove_at`: the last record fills the hole. -/
def chainRemoveAt (c : Chain) (w i : Nat) : Chain :=
  let last := lastRec c
  dropLastRec <|
    if w + 1 = c.length ∧ i = (chainTail c).used - 1 then c
    else c.modify w fun b => b.set i last.1 last.2

def chainedOf (n : Nat) : Int := if n > pcacheSlots then n - (pcacheSlots - 1) else 0

def recAt (bs : Chain) (w i : Nat) : Option Item := (bs[w]?).bind fun b => b.slot i

/-- The record at a place is replaced; the tag stays. -/
def setRec (c : Chain) (w i : Nat) (r : Item) : Chain :=
  c.modify w fun b => b.set i (some r) (b.tags i)

/-! ### The layout of a chain -/

/-- A bucket with the records of a list. -/
def bucketOf (l : List Item) : Bucket :=
  ⟨fun i => (l[i]?).elim 0 fun r => tagOf r.hash, fun i => l[i]?, l.length⟩

/-- Five records in every linked bucket, and up to six in the last. -/
def layout (l : List Item) : Chain :=
  if l.length ≤ 6 then [bucketOf l] else bucketOf (l.take 5) :: layout (l.drop 5)
termination_by l.length
decreasing_by
  rw [List.length_drop]
  omega

/-- Where the layout has record `p` of `n`. -/
def place (n p : Nat) : Nat × Nat :=
  if n ≤ 6 ∨ p < 5 then (0, p) else ((place (n - 5) (p - 5)).1 + 1, (place (n - 5) (p - 5)).2)
termination_by n
decreasing_by all_goals omega

section
variable {l : List Item}

theorem layout_short (h : l.length ≤ 6) : layout l = [bucketOf l] := by
  rw [layout, if_pos h]

theorem layout_long (h : 6 < l.length) : layout l = bucketOf (l.take 5) :: layout (l.drop 5) := by
  rw [layout, if_neg (by omega)]

variable {p : Nat}

theorem place_front {n : Nat} (h : n ≤ 6 ∨ p < 5) : place n p = (0, p) := by
  rw [place, if_pos h]

theorem place_rest {n : Nat} (hn : 6 < n) (hp : 5 ≤ p) :
    place n p = ((place (n - 5) (p - 5)).1 + 1, (place (n - 5) (p - 5)).2) := by
  rw [place, if_neg (by omega)]

theorem layout_ne_nil (l : List Item) : layout l ≠ [] := by
  rw [layout]
  split
  · exact cons_ne_nil _ _
  · exact cons_ne_nil _ _

/-- Induction along the chain: the records of the last bucket, and five more before a chain. -/
theorem layout_induction {motive : List Item → Prop} (l : List Item)
    (short : ∀ l, l.length ≤ 6 → motive l)
    (long : ∀ l, 6 < l.length → motive (l.drop 5) → motive l) : motive l := by
  by_cases h : l.length ≤ 6
  · exact short l h
  · refine long l (by omega) (layout_induction (l.drop 5) short long)
termination_by l.length
decreasing_by
  rw [List.length_drop]
  omega

/-! ### Buckets -/

variable {b : Bucket}

theorem Bucket.ext' {b' : Bucket} (htags : ∀ i, b.tags i = b'.tags i)
    (hslot : ∀ i, b.slot i = b'.slot i) (hused : b.used = b'.used) : b = b' := by
  obtain ⟨tags, slot, used⟩ := b
  obtain ⟨tags', slot', used'⟩ := b'
  obtain rfl : tags = tags' := funext htags
  obtain rfl : slot = slot' := funext hslot
  obtain rfl : used = used' := hused
  rfl

/-- A bucket whose slots are those of a list, with their tags. -/
theorem eq_bucketOf (hslot : ∀ i, b.slot i = l[i]?)
    (htags : ∀ i, b.tags i = (l[i]?).elim 0 fun r => tagOf r.hash) (hused : b.used = l.length) :
    b = bucketOf l := Bucket.ext' htags hslot hused

/-- The tag a slot's record has. -/
def slotTag (r : Option Item) : Byte := r.elim 0 fun r => tagOf r.hash

theorem set_bucketOf (l : List Item) {l' : List Item} (i : Nat) (r : Option Item) (used : Nat)
    (hget : ∀ j, l'[j]? = if j = i then r else l[j]?) (hused : used = l'.length) :
    ((bucketOf l).set i r (slotTag r)).setUsed used = bucketOf l' := by
  refine eq_bucketOf (fun j => ?_) (fun j => ?_) hused
  · rw [hget]
    by_cases hj : j = i
    · subst hj
      simp [Bucket.set, Bucket.setUsed]
    · simp [Bucket.set, Bucket.setUsed, hj, bucketOf]
  · rw [hget]
    by_cases hj : j = i
    · subst hj
      simp [Bucket.set, Bucket.setUsed, slotTag]
    · simp [Bucket.set, Bucket.setUsed, hj, bucketOf]

theorem bucketOf_set {i : Nat} (h : i < l.length) (r : Item) :
    (bucketOf l).set i (some r) (tagOf r.hash) = bucketOf (l.set i r) := by
  refine set_bucketOf l i (some r) (bucketOf l).used (fun j => ?_) ?_
  · rw [getElem?_set]
    by_cases hj : j = i
    · subst hj
      simp [h]
    · simp [hj, Ne.symm hj]
  · exact (length_set).symm

theorem bucketOf_concat (l : List Item) (r : Item) :
    ((bucketOf l).set l.length (some r) (tagOf r.hash)).setUsed (l.length + 1) =
      bucketOf (l ++ [r]) := by
  refine set_bucketOf l _ (some r) _ (fun j => ?_) ?_
  · rcases lt_trichotomy j l.length with hlt | rfl | hgt
    · rw [getElem?_append_left hlt, if_neg (ne_of_lt hlt)]
    · rw [getElem?_concat_length, if_pos rfl]
    · rw [if_neg (ne_of_gt hgt), getElem?_eq_none (by simpa using hgt),
        getElem?_eq_none (le_of_lt hgt)]
  · rw [length_append, length_singleton]

theorem bucketOf_dropLast (l : List Item) :
    ((bucketOf l).set (l.length - 1) none 0).setUsed (l.length - 1) = bucketOf l.dropLast := by
  refine set_bucketOf l _ none _ (fun j => ?_) ?_
  · rw [getElem?_dropLast]
    by_cases hj : j = l.length - 1
    · rw [if_neg (by omega), if_pos hj]
    · rw [if_neg hj]
      split
      · rfl
      · exact (getElem?_eq_none (by omega)).symm
  · rw [length_dropLast]

/-- Five records in a bucket, and the sixth from the bucket after it. -/
theorem bucketOf_six (h : l.length = 6) :
    ((bucketOf (l.take 5)).set 5 ((bucketOf (l.drop 5)).slot 0)
      ((bucketOf (l.drop 5)).tags 0)).setUsed 6 = bucketOf l := by
  refine set_bucketOf (l.take 5) 5 ((l.drop 5)[0]?) 6 (fun j => ?_) h.symm
  rw [getElem?_drop, getElem?_take]
  by_cases hj : j = 5
  · rw [if_pos hj, hj]
  · rw [if_neg hj]
    split
    · rfl
    · exact getElem?_eq_none (by omega)

/-! ### Along the chain -/

theorem exists_concat (h : 0 < l.length) : ∃ a x, l = a ++ [x] := by
  obtain ⟨a, x, hl⟩ := (eq_nil_or_concat l).resolve_left (ne_nil_of_length_pos h)
  exact ⟨a, x, by rw [hl, concat_eq_append]⟩

variable {c : Chain}

theorem chainAppend_cons (r : Item) (tag : Byte) (b : Bucket) (hc : c ≠ []) :
    chainAppend r tag (b :: c) = b :: chainAppend r tag c := by
  obtain ⟨b', bs, rfl⟩ := exists_cons_of_ne_nil hc
  rfl

theorem lastRec_cons (b : Bucket) (hc : c ≠ []) : lastRec (b :: c) = lastRec c := by
  obtain ⟨b', bs, rfl⟩ := exists_cons_of_ne_nil hc
  rfl

theorem dropLastRec_cons (b : Bucket) (hc : 2 ≤ c.length) :
    dropLastRec (b :: c) = b :: dropLastRec c := by
  match c, hc with
  | b' :: b'' :: bs, _ => rfl

theorem chainTail_cons (b : Bucket) (hc : c ≠ []) : chainTail (b :: c) = chainTail c := by
  obtain ⟨b', bs, rfl⟩ := exists_cons_of_ne_nil hc
  rfl

section

variable (l : List Item)

/-- The number of buckets, with the one overflow bucket for each five records past the second. -/
theorem length_layout : (layout l).length = 1 + (l.length - 2) / 5 := by
  induction l using layout_induction with
  | short l h =>
    rw [layout_short h, length_singleton]
    omega
  | long l h ih =>
    rw [layout_long h, length_cons, ih, length_drop]
    omega

theorem chainRecords_layout : chainRecords (layout l) = l.length := by
  induction l using layout_induction with
  | short l h =>
    rw [layout_short h]
    rfl
  | long l h ih =>
    rw [layout_long h, chainRecords, map_cons, sum_cons, ← chainRecords, ih, length_drop]
    change (l.take 5).length + _ = _
    rw [length_take]
    omega

theorem chainTail_layout : (chainTail (layout l)).used = l.length - 5 * ((l.length - 2) / 5) := by
  induction l using layout_induction with
  | short l h =>
    rw [layout_short h]
    change l.length = _
    omega
  | long l h ih =>
    rw [layout_long h, chainTail_cons _ (layout_ne_nil _), ih, length_drop]
    omega

/-- An append to a chain is one to the list. -/
theorem chainAppend_layout (r : Item) :
    chainAppend r (tagOf r.hash) (layout l) = layout (l ++ [r]) := by
  induction l using layout_induction with
  | short l h =>
    rw [layout_short h, chainAppend]
    by_cases hlt : (bucketOf l).used < pcacheSlots
    · have hlen : l.length < 6 := hlt
      rw [if_pos hlt, layout_short (by simpa using hlen)]
      exact congrArg (fun b => [b]) (bucketOf_concat l r)
    · have hlen : l.length = 6 := le_antisymm h (Nat.le_of_not_lt hlt)
      rw [if_neg hlt, layout_long (by simp [hlen]), layout_short (by simp [hlen])]
      -- the sixth record moves to the new bucket with the one appended
      obtain ⟨a, x, rfl⟩ := exists_concat (l := l) (by omega)
      have ha : a.length = 5 := by simpa using hlen
      rw [append_assoc, take_left' ha, drop_left' ha]
      refine congrArg₂ (fun b b' => [b, b']) ?_ ?_
      · have hdrop := bucketOf_dropLast (a ++ [x])
        rwa [hlen, dropLast_concat] at hdrop
      · refine eq_bucketOf (fun i => ?_) (fun i => ?_) rfl
        all_goals match i with
          | 0 => simp [Bucket.set, Bucket.setUsed, bucketOf, pcacheSlots, ← ha]
          | 1 => simp [Bucket.set, Bucket.setUsed]
          | i + 2 => simp [Bucket.set, Bucket.setUsed, Bucket.zero]
  | long l h ih =>
    rw [layout_long h, chainAppend_cons _ _ _ (layout_ne_nil _), ih,
      layout_long (l := l ++ [r]) (by simp; omega), take_append_of_le_length (by omega),
      drop_append_of_le_length (by omega)]

theorem lastRec_layout : lastRec (layout l) = (l.getLast?, slotTag l.getLast?) := by
  induction l using layout_induction with
  | short l h =>
    rw [layout_short h, getLast?_eq_getElem?]
    rfl
  | long l h ih =>
    rw [layout_long h, lastRec_cons _ (layout_ne_nil _), ih, getLast?_drop, if_neg (by omega)]

/-- A tail left with one record folds, as the layout of the shorter list has it. -/
theorem dropLastRec_layout : dropLastRec (layout l) = layout l.dropLast := by
  induction l using layout_induction with
  | short l h =>
    rw [layout_short h, layout_short (by rw [length_dropLast]; omega)]
    exact congrArg (fun b => [b]) (bucketOf_dropLast l)
  | long l h ih =>
    rw [layout_long h]
    have htake : l.dropLast.take 5 = l.take 5 := by
      rw [dropLast_eq_take, take_take, Nat.min_eq_left (by omega)]
    have hdrop : (l.drop 5).dropLast = l.dropLast.drop 5 := dropLast_drop_eq_drop_dropLast l 5
    by_cases hlong : 6 < (l.drop 5).length
    · have hlen : 2 ≤ (layout (l.drop 5)).length := by
        rw [length_layout]
        omega
      rw [length_drop] at hlong
      rw [dropLastRec_cons _ hlen, ih, layout_long (l := l.dropLast) (by simp; omega), hdrop, htake]
    · have hshort : (l.drop 5).length ≤ 6 := Nat.le_of_not_lt hlong
      have hlen : (l.drop 5).length = l.length - 5 := length_drop
      rw [layout_short hshort, dropLastRec]
      change (if (l.drop 5).length - 1 = 1 then _ else _) = _
      have hclear := bucketOf_dropLast (l.drop 5)
      rw [hdrop] at hclear
      by_cases hfold : (l.drop 5).length - 1 = 1
      · -- the tail's one record left goes to the sixth slot of the bucket before it
        rw [if_pos hfold, layout_short (by rw [length_dropLast]; omega)]
        have hsix : l.dropLast.length = 6 := by
          rw [length_dropLast]
          omega
        have hlast := bucketOf_six hsix
        rw [htake, ← hclear] at hlast
        exact congrArg (fun b => [b]) hlast
      · rw [if_neg hfold, layout_long (l := l.dropLast) (by rw [length_dropLast]; omega),
          layout_short (l := l.dropLast.drop 5) (by simp; omega), htake]
        exact congrArg (fun b => [bucketOf (l.take 5), b]) hclear

end

/-! ### Finding a record -/

theorem find?_range (p : Item → Bool) (l : List Item) :
    ((range l.length).find? fun i => (l[i]?).any p) = l.findIdx? p := by
  induction l with
  | nil => rfl
  | cons r l ih =>
    rw [length_cons, range_succ_eq_map, find?_cons, findIdx?_cons]
    by_cases hr : p r = true
    · simp [hr]
    · rw [find?_map]
      simp only [getElem?_cons_zero, any_some, Bool.eq_false_iff.mpr hr]
      rw [← ih]
      rfl

/-- A tag is that of the hash, so comparing it first changes nothing. -/
theorem findSlot_bucketOf (key : Key) (hash : BitVec 32) (l : List Item) :
    findSlot (bucketOf l) key hash (tagOf hash) = l.findIdx? (Item.is key hash) := by
  rw [← find?_range, findSlot]
  congr 1
  funext i
  change ((l[i]?).elim 0 (fun r => tagOf r.hash) = tagOf hash && (l[i]?).any _) = _
  cases l[i]? with
  | none => simp
  | some r =>
    rw [any_some, Bool.and_eq_right_iff_imp]
    intro hr
    have his : r.hash = hash ∧ r.key = key := of_decide_eq_true hr
    simp [his.1]

/-- A search stops at the first record of the key. -/
theorem chainFind_layout (key : Key) (hash : BitVec 32) (l : List Item) :
    chainFind key hash (tagOf hash) (layout l) =
      (l.findIdx? (Item.is key hash)).map (place l.length) := by
  induction l using layout_induction with
  | short l h =>
    rw [layout_short h, chainFind, findSlot_bucketOf]
    cases l.findIdx? (Item.is key hash) with
    | none => rfl
    | some p => exact congrArg some (place_front (.inl h)).symm
  | long l h ih =>
    have hsplit : l.findIdx? (Item.is key hash) = ((l.take 5).findIdx? (Item.is key hash)).or
          (((l.drop 5).findIdx? (Item.is key hash)).map (· + 5)) := by
      conv_lhs => rw [← take_append_drop 5 l]
      rw [findIdx?_append, length_take, Nat.min_eq_left (by omega)]
    rw [layout_long h, chainFind, findSlot_bucketOf, hsplit]
    cases hfront : (l.take 5).findIdx? (Item.is key hash) with
    | some p =>
      have hp : p < 5 := by
        have := (findIdx?_eq_some_iff_findIdx_eq.mp hfront).1
        rw [length_take] at this
        omega
      exact congrArg some (place_front (.inr hp)).symm
    | none =>
      rw [ih]
      cases (l.drop 5).findIdx? (Item.is key hash) with
      | none => rfl
      | some p =>
        refine congrArg some ?_
        rw [place_rest h (Nat.le_add_left 5 p), length_drop, Nat.add_sub_cancel]

theorem recAt_layout (hp : p < l.length) :
    recAt (layout l) (place l.length p).1 (place l.length p).2 = l[p]? := by
  induction l using layout_induction generalizing p with
  | short l h =>
    rw [layout_short h, place_front (.inl h)]
    rfl
  | long l h ih =>
    rw [layout_long h]
    by_cases hfront : p < 5
    · rw [place_front (.inr hfront)]
      change (l.take 5)[p]? = l[p]?
      rw [getElem?_take, if_pos hfront]
    · have hrest := ih (p := p - 5) (by rw [length_drop]; omega)
      rw [length_drop] at hrest
      rw [place_rest h (by omega)]
      change recAt (layout (l.drop 5)) _ _ = _
      rw [hrest, getElem?_drop]
      congr 1
      omega

variable {r : Item}

/-- A record is written into a place, by what writes it into a bucket. -/
theorem modify_layout (hp : p < l.length) {f : Nat → Bucket → Bucket}
    (hf : ∀ (l' : List Item) (i : Nat), i < l'.length → l'[i]? = l[p]? →
      f i (bucketOf l') = bucketOf (l'.set i r)) :
    (layout l).modify (place l.length p).1 (f (place l.length p).2) = layout (l.set p r) := by
  induction l using layout_induction generalizing p with
  | short l h =>
    rw [layout_short h, layout_short (by simpa using h), place_front (.inl h)]
    exact congrArg (fun b => [b]) (hf l p hp rfl)
  | long l h ih =>
    rw [layout_long h, layout_long (l := l.set p r) (by simpa using h)]
    by_cases hfront : p < 5
    · have htake : p < (l.take 5).length := by
        rw [length_take]
        omega
      rw [place_front (.inr hfront), take_set, drop_set_of_lt hfront,
        ← hf (l.take 5) p htake (by rw [getElem?_take, if_pos hfront])]
      rfl
    · have hget : (l.drop 5)[p - 5]? = l[p]? := by
        rw [getElem?_drop]
        congr 1
        omega
      have hrest := ih (p := p - 5) (by rw [length_drop]; omega) fun l' i hi hl' =>
        hf l' i hi (hl'.trans hget)
      rw [length_drop] at hrest
      rw [place_rest h (by omega), take_set_of_le (by omega), drop_set, if_neg (by omega), ← hrest]
      rfl

/-- A record replaced by one with the same hash. -/
theorem setRec_layout {old : Item} (hold : l[p]? = some old) (hash : r.hash = old.hash) :
    setRec (layout l) (place l.length p).1 (place l.length p).2 r = layout (l.set p r) := by
  have hp : p < l.length := (List.getElem?_eq_some_iff.mp hold).1
  refine modify_layout hp (f := fun i b => b.set i (some r) (b.tags i)) fun l' i hi hl' => ?_
  rw [← bucketOf_set hi]
  change (bucketOf l').set i (some r) ((l'[i]?).elim 0 fun r => tagOf r.hash) = _
  rw [hl', hold, hash]
  rfl

theorem place_last (hp : p < l.length) : (place l.length p).1 + 1 = (layout l).length ∧
        (place l.length p).2 = (chainTail (layout l)).used - 1 ↔ p = l.length - 1 := by
  induction l using layout_induction generalizing p with
  | short l h =>
    rw [layout_short h, place_front (.inl h)]
    change 0 + 1 = 1 ∧ p = l.length - 1 ↔ _
    simp
  | long l h ih =>
    rw [layout_long h, chainTail_cons _ (layout_ne_nil _), length_cons]
    by_cases hfront : p < 5
    · have hpos := length_pos_iff.mpr (layout_ne_nil (l.drop 5))
      rw [place_front (.inr hfront)]
      omega
    · have hrest := ih (p := p - 5) (by rw [length_drop]; omega)
      rw [length_drop] at hrest
      rw [place_rest h (by omega)]
      omega

/-- The list with the last element in the place of one. -/
def removeAt (l : List Item) (p : Nat) : List Item :=
  match l.getLast? with
  | none => l
  | some last => (l.set p last).dropLast

/-- The last record fills the hole, in the chain as in the list. -/
theorem chainRemoveAt_layout (hp : p < l.length) :
    chainRemoveAt (layout l) (place l.length p).1 (place l.length p).2 = layout (removeAt l p) := by
  obtain ⟨a, x, rfl⟩ := exists_concat (l := l) (by omega)
  have hlast : (a ++ [x]).getLast? = some x := getLast?_concat
  rw [chainRemoveAt, removeAt, hlast, ← dropLastRec_layout, lastRec_layout, hlast]
  congr 1
  by_cases hend : p = (a ++ [x]).length - 1
  · rw [if_pos ((place_last hp).mpr hend)]
    have hset : (a ++ [x]).set p x = a ++ [x] := by
      subst hend
      simp
    rw [hset]
  · rw [if_neg fun h => hend ((place_last hp).mp h)]
    exact modify_layout hp (f := fun i b => b.set i (some x) (tagOf x.hash)) fun l' i hi _ =>
      bucketOf_set hi x

theorem perm_removeAt (hr : l[p]? = some r) : l.Perm (r :: removeAt l p) := by
  obtain ⟨hp, hget⟩ := List.getElem?_eq_some_iff.mp hr
  obtain ⟨a, x, rfl⟩ := exists_concat (l := l) (by omega)
  have hx : (a ++ [x]).Perm (x :: a) := perm_append_comm
  unfold removeAt
  rw [getLast?_concat]
  dsimp only
  by_cases hend : p < a.length
  · rw [getElem_append_left hend] at hget
    rw [set_append_left _ _ hend, dropLast_concat]
    have hset : (a.set p x).Perm (x :: a.eraseIdx p) := set_perm_cons_eraseIdx hend x
    have hrest : a.Perm (r :: a.eraseIdx p) := by
      rw [← hget]
      exact (getElem_cons_eraseIdx_perm hend).symm
    exact hx.trans (((hrest.cons x).trans (.swap r x _)).trans (hset.symm.cons r))
  · obtain rfl : p = a.length := by
      rw [length_append, length_singleton] at hp
      omega
    rw [getElem_concat_length rfl] at hget
    rw [set_append_right _ _ le_rfl, Nat.sub_self, ← hget]
    simp

/-! ### The shape -/

/-- The records stand at the front with their tags, and what is free is empty. -/
structure Bucket.Tidy (b : Bucket) : Prop where
  used_le : b.used ≤ pcacheSlots
  rec_tag : ∀ i, i < b.used → ∃ r, b.slot i = some r ∧ b.tags i = tagOf r.hash
  free : ∀ i, b.used ≤ i → b.slot i = none ∧ b.tags i = 0

/-- A linked bucket is full, and an overflow tail has two records at least. -/
structure Shape (c : Chain) : Prop where
  home : c ≠ []
  tidy : ∀ b ∈ c, b.Tidy
  linked_full : ∀ b ∈ c.dropLast, b.used = pcacheSlots - 1
  overflow_tail : 2 ≤ c.length → 2 ≤ (chainTail c).used

theorem tidy_bucketOf (h : l.length ≤ 6) : (bucketOf l).Tidy := by
  refine ⟨h, fun i hi => ?_, fun i hi => ?_⟩
  · have hget : l[i]? = some l[i] := getElem?_eq_getElem hi
    refine ⟨l[i], hget, ?_⟩
    change (l[i]?).elim 0 _ = _
    rw [hget]
    rfl
  · have hget : l[i]? = none := getElem?_eq_none hi
    refine ⟨hget, ?_⟩
    change (l[i]?).elim 0 _ = _
    rw [hget]
    rfl

/-- Layouts have the shape that the source keeps. -/
theorem shape_layout (l : List Item) : Shape (layout l) := by
  induction l using layout_induction with
  | short l h =>
    rw [layout_short h]
    refine ⟨cons_ne_nil _ _, fun b hb => ?_, nofun, fun hlen => ?_⟩
    · rw [mem_singleton.mp hb]
      exact tidy_bucketOf h
    · exact absurd hlen (Nat.not_succ_le_self 1)
  | long l h ih =>
    have htake : (l.take 5).length = 5 := by
      rw [length_take]
      omega
    rw [layout_long h]
    refine ⟨cons_ne_nil _ _, fun b hb => ?_, fun b hb => ?_, fun _ => ?_⟩
    · rcases mem_cons.mp hb with rfl | hb
      · exact tidy_bucketOf (by omega)
      · exact ih.tidy b hb
    · rw [dropLast_cons_of_ne_nil (layout_ne_nil _)] at hb
      rcases mem_cons.mp hb with rfl | hb
      · exact htake
      · exact ih.linked_full b hb
    · rw [chainTail_cons _ (layout_ne_nil _), chainTail_layout, length_drop]
      omega

def chainedIn (c : Chain) : Nat := chainRecords c.tail

theorem chainedIn_layout (l : List Item) : (chainedIn (layout l) : Int) = chainedOf l.length := by
  rw [chainedOf]
  by_cases h : l.length ≤ 6
  · rw [layout_short h, if_neg (by rw [pcacheSlots]; omega)]
    rfl
  · rw [layout_long (by omega), if_pos (by rw [pcacheSlots]; omega), chainedIn, tail_cons,
      chainRecords_layout, length_drop]
    change _ = (l.length : Int) - 5
    omega

theorem mem_of_layout (hb : b ∈ layout l) {i : Nat} (hr : b.slot i = some r) : r ∈ l := by
  induction l using layout_induction with
  | short l h =>
    rw [layout_short h, mem_singleton] at hb
    subst hb
    exact mem_of_getElem? hr
  | long l h ih =>
    rw [layout_long h] at hb
    rcases mem_cons.mp hb with rfl | hb
    · exact mem_of_mem_take (mem_of_getElem? hr)
    · exact mem_of_mem_drop (ih hb)

end

end Perfcached.Ht
