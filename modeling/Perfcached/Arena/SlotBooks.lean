import Perfcached.Arena.Giveback
import Perfcached.Lib.Tally

/-!
# Perfcached.Arena.SlotBooks

The kind of every slot, and the books.

A slot is a chunk, free and warm or cold, in flight, a slot of the tail, a live region, or free in
the region zone. `Inv` says that the maps and the frontiers of a state are those of one kind for
each slot, that the slots in flight are those of the give-back's runs, and that the counters are the
sums over the kinds. Everything the arena does turns a block of slots of one kind into another:
`Turned` is what that does to the maps and the counters, and `Inv.reshape` that it keeps the
invariant.
-/

namespace Perfcached.Reservation

open Arena (pcacheSlot)
open Tally

/-- What a slot is. -/
inductive Kind
  | chunk | warm | cold | flying
  | tail
  | region | zwarm | zcold | zflying
  | beyond
  deriving DecidableEq

/-- The part of the reservation a slot is in: below the chunk frontier, between the frontiers, from
the region frontier on, or past the end. -/
inductive Area
  | low | mid | high | out
  deriving DecidableEq

def Kind.area : Kind → Area
  | .chunk | .warm | .cold | .flying => .low
  | .tail => .mid
  | .region | .zwarm | .zcold | .zflying => .high
  | .beyond => .out

def State.map (s : State) : Kind → Option Bits
  | .chunk => some s.chunk
  | .warm => some s.rwarm
  | .cold => some s.rcold
  | .region => some s.region
  | .zwarm => some s.zwarm
  | .zcold => some s.zcold
  | _ => none

def State.area (s : State) (i : Nat) : Area :=
  if i < s.hoff then .low else if i < s.rtop then .mid else if i < s.rslots then .high else .out

/-- What no step but those of a give-back changes. -/
def State.frame (s : State) : Nat × Nat × Option Flight := (s.rslots, s.maxBytes, s.flight)

/-- A slot's memory is held from the host. -/
def held : Kind → Int
  | .chunk | .warm | .flying | .region | .zwarm | .zflying => 1
  | _ => 0

/-- A slot's memory was given back. -/
def punched : Kind → Int
  | .cold | .zcold => 1
  | _ => 0

/-- A slot is of a kind. -/
def one (k k' : Kind) : Int := if k' = k then 1 else 0

attribute [simp] held punched one

/-- The counters are the sums over the slots, the pages and the regions outside. -/
structure Books (s : State) (K : Nat → Kind) : Prop where
  bytes : s.bytes = pcacheSlot * tally s.rslots held K + pageBytes * s.pages.length +
    s.regions.sum + s.pending.sum
  coldBytes : s.coldBytes = pcacheSlot * tally s.rslots punched K
  nfreeWarm : s.nfreeWarm = tally s.rslots (one .warm) K + s.pages.sum
  nfreeCold : s.nfreeCold = tally s.rslots (one .cold) K
  nzfreeWarm : s.nzfreeWarm = tally s.rslots (one .zwarm) K
  nzfreeCold : s.nzfreeCold = tally s.rslots (one .zcold) K
  regionsBytes : s.regionsBytes = pcacheSlot * tally s.rslots (one .region) K + s.regions.sum

/-- The slots in flight are those of the groups in flight; those of the tail are between the
frontiers, in the extent that no carve may enter. -/
structure Flying (s : State) (K : Nat → Kind) (F : List (RunKind × Nat)) : Prop where
  nodup : F.Nodup
  chunk : ∀ i, K i = .flying ↔ (.chunk, i / groupSlots) ∈ F
  zone : ∀ i, K i = .zflying ↔ (.zone, i / groupSlots) ∈ F
  tail : ∀ g, (.tail, g) ∈ F → s.hoff ≤ g * groupSlots ∧ (g + 1) * groupSlots ≤ s.rtop ∧
    s.tailFlLo ≤ g * groupSlots ∧ (g + 1) * groupSlots ≤ s.tailFlHi

/-- The kinds of the slots, with the groups in flight. -/
structure Inv (s : State) (K : Nat → Kind) (F : List (RunKind × Nat)) : Prop where
  maps : ∀ k m, s.map k = some m → ∀ i, m i = decide (K i = k)
  area : ∀ i, (K i).area = s.area i
  hoff_le : s.hoff ≤ s.rtop
  rtop_le : s.rtop ≤ s.rslots
  pages : ∀ nfree ∈ s.pages, nfree ≤ pageSlots
  flying : Flying s K F
  books : Books s K

/-! ### A block of slots is turned -/

/-- The kinds with a block turned. -/
def turn (K : Nat → Kind) (lo len : Nat) (b : Kind) : Nat → Kind := fun i =>
  if lo ≤ i ∧ i < lo + len then b else K i

variable {i : Nat}

section

variable (K : Nat → Kind) {lo len : Nat} (b : Kind)

theorem turn_in (hlo : lo ≤ i) (hhi : i < lo + len) : turn K lo len b i = b := if_pos ⟨hlo, hhi⟩

theorem turn_out (h : ¬ (lo ≤ i ∧ i < lo + len)) : turn K lo len b i = K i := if_neg h

end

/-- The maps of a kind that leaves, of one that comes, and of the others. -/
def turnMap (lo len : Nat) (a b k : Kind) (m : Bits) : Bits :=
  if k = a then fill m lo len false else if k = b then fill m lo len true else m

/-- A state's maps and counters where a block of `len` slots of kind `a` became `b`. -/
structure Turned (s s' : State) (lo len : Nat) (a b : Kind) : Prop where
  ne : a ≠ b
  rslots : s'.rslots = s.rslots
  map : ∀ k, s'.map k = (s.map k).map (turnMap lo len a b k)
  pages : s'.pages = s.pages
  regions : s'.regions = s.regions
  pending : s'.pending = s.pending
  bytes : s'.bytes = s.bytes + pcacheSlot * (len * (held b - held a))
  coldBytes : s'.coldBytes = s.coldBytes + pcacheSlot * (len * (punched b - punched a))
  nfreeWarm : s'.nfreeWarm = s.nfreeWarm + len * (one .warm b - one .warm a)
  nfreeCold : s'.nfreeCold = s.nfreeCold + len * (one .cold b - one .cold a)
  nzfreeWarm : s'.nzfreeWarm = s.nzfreeWarm + len * (one .zwarm b - one .zwarm a)
  nzfreeCold : s'.nzfreeCold = s.nzfreeCold + len * (one .zcold b - one .zcold a)
  regionsBytes : s'.regionsBytes =
    s.regionsBytes + pcacheSlot * (len * (one .region b - one .region a))

section
variable {s s' : State} {K : Nat → Kind} {F F' : List (RunKind × Nat)} {lo len : Nat} {a b : Kind}

theorem Turned.maps (ht : Turned s s' lo len a b)
    (hmaps : ∀ k m, s.map k = some m → ∀ i, m i = decide (K i = k))
    (hblock : ∀ i, lo ≤ i → i < lo + len → K i = a) (k : Kind) (m : Bits) (hm : s'.map k = some m)
    (i : Nat) : m i = decide (turn K lo len b i = k) := by
  rw [ht.map] at hm
  obtain ⟨m₀, hm₀, rfl⟩ := Option.map_eq_some_iff.mp hm
  have hold := hmaps k m₀ hm₀ i
  unfold turnMap
  by_cases hi : lo ≤ i ∧ i < lo + len
  · rw [turn_in K b hi.1 hi.2]
    rw [hblock i hi.1 hi.2] at hold
    split
    · next hka =>
        subst hka
        rw [fill, if_pos hi]
        exact (decide_eq_false fun h => ht.ne h.symm).symm
    · next hka =>
        split
        · next hkb =>
            subst hkb
            rw [fill, if_pos hi]
            exact (decide_eq_true rfl).symm
        · next hkb =>
            rw [hold, decide_eq_false fun h => hka h.symm, decide_eq_false fun h => hkb h.symm]
  · rw [turn_out K b hi, ← hold]
    split
    · rw [fill, if_neg hi]
    · split
      · rw [fill, if_neg hi]
      · rfl

theorem Turned.books (ht : Turned s s' lo len a b) (hb : Books s K) (hlen : lo + len ≤ s.rslots)
    (hblock : ∀ i, lo ≤ i → i < lo + len → K i = a) : Books s' (turn K lo len b) := by
  have htally : ∀ w, tally s.rslots w (turn K lo len b) =
      tally s.rslots w K + len * (w b - w a) := fun w =>
    tally_block hlen hblock (fun i hlo hhi => turn_in K b hlo hhi) (fun i hi => turn_out K b hi) w
  constructor
  · rw [ht.bytes, hb.bytes, ht.rslots, ht.pages, ht.regions, ht.pending, htally]
    ring
  · rw [ht.coldBytes, hb.coldBytes, ht.rslots, htally]
    ring
  · rw [ht.nfreeWarm, hb.nfreeWarm, ht.rslots, ht.pages, htally]
    ring
  · rw [ht.nfreeCold, hb.nfreeCold, ht.rslots, htally]
  · rw [ht.nzfreeWarm, hb.nzfreeWarm, ht.rslots, htally]
  · rw [ht.nzfreeCold, hb.nzfreeCold, ht.rslots, htally]
  · rw [ht.regionsBytes, hb.regionsBytes, ht.rslots, ht.regions, htally]
    ring

theorem Turned.bytes_le (ht : Turned s s' lo len a b) (hheld : held b ≤ held a) :
    s'.bytes ≤ s.bytes := by
  have hgain : (len : Int) * (held b - held a) ≤ 0 :=
    Int.mul_nonpos_of_nonneg_of_nonpos (Int.natCast_nonneg _) (by omega)
  have hbytes := Int.mul_nonpos_of_nonneg_of_nonpos (Int.natCast_nonneg pcacheSlot) hgain
  rw [ht.bytes]
  omega

/-- Flight and the tail's extent read the slots in flight and the frontiers only. -/
theorem Flying.keep {K' : Nat → Kind} (h : Flying s K F)
    (hfly : ∀ i, K' i = .flying ↔ K i = .flying)
    (hzfly : ∀ i, K' i = .zflying ↔ K i = .zflying) (hlo : s'.tailFlLo = s.tailFlLo)
    (hhi : s'.tailFlHi = s.tailFlHi)
    (htail : ∀ g, (.tail, g) ∈ F → s'.hoff ≤ g * groupSlots ∧ (g + 1) * groupSlots ≤ s'.rtop) :
    Flying s' K' F := by
  refine ⟨h.nodup, fun i => (hfly i).trans (h.chunk i), fun i => (hzfly i).trans (h.zone i),
    fun g hg => ?_⟩
  rw [hlo, hhi]
  exact ⟨(htail g hg).1, (htail g hg).2, (h.tail g hg).2.2⟩

theorem turn_eq_iff (hblock : ∀ i, lo ≤ i → i < lo + len → K i = a) {k : Kind} (ha : a ≠ k)
    (hb : b ≠ k) (i : Nat) : turn K lo len b i = k ↔ K i = k := by
  by_cases hi : lo ≤ i ∧ i < lo + len
  · rw [turn_in K b hi.1 hi.2, hblock i hi.1 hi.2]
    exact ⟨fun h => absurd h hb, fun h => absurd h ha⟩
  · rw [turn_out K b hi]

open State

theorem Inv.lt_rslots (h : Inv s K F) (hk : K i ≠ .beyond) : i < s.rslots := by
  by_contra hi
  have harea := h.area i
  have := h.hoff_le
  have := h.rtop_le
  rw [State.area, if_neg (by omega), if_neg (by omega), if_neg hi] at harea
  cases hK : K i <;> rw [hK] at harea hk
  case beyond => exact hk rfl
  all_goals cases harea

/-- A kind that is not in flight. -/
def Kind.grounded (k : Kind) : Prop := k ≠ .flying ∧ k ≠ .zflying
  deriving Decidable

section

variable (h : Inv s K F) (ht : Turned s s' lo len a b)
  (hblock : ∀ i, lo ≤ i → i < lo + len → K i = a) (hlen : lo + len ≤ s.rslots)
  (hin : ∀ i, lo ≤ i → i < lo + len → s'.area i = b.area)
  (hout : ∀ i, ¬ (lo ≤ i ∧ i < lo + len) → s'.area i = s.area i)
include h ht hblock hlen hin hout

/-- A block is turned, and a frontier may go over it. -/
theorem Inv.reshape (hhoff : s'.hoff ≤ s'.rtop) (hrtop : s'.rtop ≤ s.rslots)
    (hfly : Flying s' (turn K lo len b) F') : Inv s' (turn K lo len b) F' := by
  refine ⟨ht.maps h.maps hblock, fun i => ?_, hhoff, ?_, ?_, hfly, ht.books h.books hlen hblock⟩
  · by_cases hi : lo ≤ i ∧ i < lo + len
    · rw [turn_in K b hi.1 hi.2, hin i hi.1 hi.2]
    · rw [turn_out K b hi, hout i hi, h.area]
  · rw [ht.rslots]
    exact hrtop
  · rw [ht.pages]
    exact h.pages

/-- A block is turned, and a frontier may go over it; nothing takes off or lands. -/
theorem Inv.move (ha : a.grounded) (hb : b.grounded) (hhoff : s'.hoff ≤ s'.rtop)
    (hrtop : s'.rtop ≤ s.rslots) (hlo : s'.tailFlLo = s.tailFlLo) (hhi : s'.tailFlHi = s.tailFlHi)
    (htail : ∀ g, (.tail, g) ∈ F → s'.hoff ≤ g * groupSlots ∧ (g + 1) * groupSlots ≤ s'.rtop) :
    Inv s' (turn K lo len b) F :=
  h.reshape ht hblock hlen hin hout hhoff hrtop
    (h.flying.keep (turn_eq_iff hblock ha.1 hb.1) (turn_eq_iff hblock ha.2 hb.2) hlo hhi htail)

end

/-- A step that moves no frontier. -/
structure Still (s s' : State) : Prop where
  frame : s'.frame = s.frame
  hoff : s'.hoff = s.hoff
  rtop : s'.rtop = s.rtop
  tailFlLo : s'.tailFlLo = s.tailFlLo
  tailFlHi : s'.tailFlHi = s.tailFlHi

/-- A block is turned within its part of the reservation. -/
theorem Inv.still (h : Inv s K F) (ht : Turned s s' lo len a b)
    (hblock : ∀ i, lo ≤ i → i < lo + len → K i = a) (hlen : lo + len ≤ s.rslots)
    (harea : b.area = a.area) (hs : Still s s') (hfly : Flying s' (turn K lo len b) F') :
    Inv s' (turn K lo len b) F' := by
  have hsame : ∀ i, s'.area i = s.area i := fun i => by
    rw [State.area, hs.hoff, hs.rtop, ht.rslots, ← State.area]
  refine h.reshape ht hblock hlen (fun i hlo hhi => ?_) (fun i _ => hsame i) ?_ ?_ hfly
  · rw [hsame, harea, ← h.area, hblock i hlo hhi]
  · rw [hs.hoff, hs.rtop]
    exact h.hoff_le
  · rw [hs.rtop]
    exact h.rtop_le

/-- One slot is turned, and it is not in flight. -/
theorem Inv.turn_one (h : Inv s K F) (ht : Turned s s' i 1 a b) (hi : K i = a) (hout : a ≠ .beyond)
    (harea : b.area = a.area) (ha : a.grounded) (hb : b.grounded) (hs : Still s s') :
    Inv s' (turn K i 1 b) F := by
  have hblock : ∀ j, i ≤ j → j < i + 1 → K j = a := fun j hlo hhi => by
    obtain rfl : j = i := by omega
    exact hi
  refine h.still ht hblock (h.lt_rslots (hi ▸ hout)) harea hs
    (h.flying.keep (turn_eq_iff hblock ha.1 hb.1) (turn_eq_iff hblock ha.2 hb.2) hs.tailFlLo
      hs.tailFlHi fun g hg => ?_)
  rw [hs.hoff, hs.rtop]
  exact ⟨(h.flying.tail g hg).1, (h.flying.tail g hg).2.1⟩

/-- What the kinds and the books do not read. -/
theorem Inv.rest (h : Inv s K F) (hcommit : Bits) (tailNext : Nat) (tailDone : Bool)
    (aheadFrom : Nat) (givebackOff : Bool) (flight : Option Flight) :
    Inv { s with hcommit, tailNext, tailDone, aheadFrom, givebackOff, flight } K F := by
  refine ⟨h.maps, h.area, h.hoff_le, h.rtop_le, h.pages, ?_, ?_⟩
  · exact ⟨h.flying.nodup, h.flying.chunk, h.flying.zone, h.flying.tail⟩
  · obtain ⟨h1, h2, h3, h4, h5, h6, h7⟩ := h.books
    exact ⟨h1, h2, h3, h4, h5, h6, h7⟩

/-! ### What turns a block -/

theorem turned_takeWarm (s : State) (i : Nat) : Turned s (s.takeWarm i) i 1 .warm .chunk := by
  constructor
  case map => rintro ⟨⟩ <;> rfl
  all_goals simp [takeWarm, sub_eq_add_neg]

theorem turned_thaw (hi : s.rcold i = true) : Turned s (s.thaw i) i 1 .cold .warm := by
  rw [thaw, if_pos hi]
  constructor
  case map => rintro ⟨⟩ <;> rfl
  all_goals simp [sub_eq_add_neg]

theorem turned_zthaw (hi : s.zcold i = true) : Turned s (s.zthaw i) i 1 .zcold .zwarm := by
  rw [zthaw, if_pos hi]
  constructor
  case map => rintro ⟨⟩ <;> rfl
  all_goals simp [sub_eq_add_neg]

theorem turned_carveUp (s : State) : Turned s s.carveUp s.hoff 1 .tail .chunk := by
  constructor
  case map => rintro ⟨⟩ <;> rfl
  all_goals simp [carveUp]

theorem turned_retire (h : s.retire i = some s') : Turned s s' i 1 .chunk .warm := by
  obtain ⟨-, ⟨⟩⟩ := Option.ite_none_right_eq_some.mp h
  constructor
  case map => rintro ⟨⟩ <;> rfl
  all_goals simp

theorem turned_takeZone (s : State) (i : Nat) : Turned s (s.takeZone i) i 1 .zwarm .region := by
  constructor
  case map => rintro ⟨⟩ <;> rfl
  all_goals simp [takeZone, sub_eq_add_neg]

theorem turned_carveDown (s : State) (n : Nat) :
    Turned s (s.carveDown n) (s.rtop - n) n .tail .region := by
  constructor
  case map => rintro ⟨⟩ <;> rfl
  all_goals simp [carveDown, mul_comm]

theorem turned_freeSlot (hi : (s.zwarm i || s.zcold i) = false) :
    Turned s (s.freeSlot i) i 1 .region .zwarm := by
  rw [freeSlot, if_neg (by rw [hi]; exact Bool.false_ne_true)]
  constructor
  case map => rintro ⟨⟩ <;> rfl
  all_goals simp [sub_eq_add_neg]

/-- The slot at the region frontier that goes to the tail was free, warm or cold. -/
theorem turned_raiseStep (h : s.raiseStep = some s') :
    s.rtop < s.rslots ∧ s'.frame = s.frame ∧ s'.hoff = s.hoff ∧ s'.rtop = s.rtop + 1 ∧
      s'.tailFlLo = s.tailFlLo ∧ s'.tailFlHi = s.tailFlHi ∧
      ∃ k m, k.grounded ∧ s.map k = some m ∧ m s.rtop = true ∧ Turned s s' s.rtop 1 k .tail := by
  obtain ⟨hlt, h⟩ := Option.ite_none_right_eq_some.mp h
  split at h
  · next hwarm =>
      cases h
      refine ⟨hlt, rfl, rfl, rfl, rfl, rfl, .zwarm, s.zwarm, by decide, rfl, hwarm, ?_⟩
      constructor
      case map => rintro ⟨⟩ <;> rfl
      all_goals simp [sub_eq_add_neg]
  · obtain ⟨hcold, ⟨⟩⟩ := Option.ite_none_right_eq_some.mp h
    refine ⟨hlt, rfl, rfl, rfl, rfl, rfl, .zcold, s.zcold, by decide, rfl, hcold, ?_⟩
    constructor
    case map => rintro ⟨⟩ <;> rfl
    all_goals simp [sub_eq_add_neg]

end

end Perfcached.Reservation
