import Perfcached.Arena.InFlight

/-!
# Perfcached.Arena.GivebackSafe

A give-back takes nothing that is in use, and the books are exact.

Every slot of the reservation is in one of eight states, and the slots that the host is told to take
are in the state of those in flight from the first phase to the third: no carve and no region has
one of them. Where no give-back is in flight, the counters of the arena are the counts of its maps,
with the pages and the regions outside.
-/

namespace Perfcached.Reservation

open List Option Nat

open Arena (pcacheSlot)
open Tally

/-- The states of a slot. -/
inductive SlotState
  | chunk | freeWarm | freeCold
  | liveRegion | zoneWarm | zoneCold
  | inFlight | tail
  deriving DecidableEq

/-- The slots that a run tells the host to take. -/
def Run.has (r : Run) (i : Nat) : Bool :=
  r.g0 * groupSlots ≤ i && i < (r.g0 + r.n) * groupSlots

namespace State

/-- A slot is in a run of the give-back. -/
def inFlight (s : State) (i : Nat) : Bool := s.flight.any fun f => f.runs.any fun r => r.has i

/-- A slot is in a state, as the maps, the frontiers and the runs have it. -/
def is (s : State) (i : Nat) : SlotState → Bool
  | .chunk => s.chunk i
  | .freeWarm => s.rwarm i
  | .freeCold => s.rcold i
  | .liveRegion => s.region i
  | .zoneWarm => s.zwarm i
  | .zoneCold => s.zcold i
  | .inFlight => s.inFlight i
  | .tail => s.hoff ≤ i && i < s.rtop && !s.inFlight i

def count (s : State) (m : Bits) : Nat := (List.range s.rslots).countP m

/-- What is held outside the reservation: pages, regions and what is asked for. -/
def outside (s : State) : Nat := pageBytes * s.pages.length + s.regions.sum + s.pending.sum

end State

/-- The counters are the counts of the maps, with the pages and the regions outside. -/
structure Exact (s : State) : Prop where
  bytes : s.bytes = pcacheSlot * (s.count s.chunk + s.count s.rwarm + s.count s.region +
    s.count s.zwarm) + s.outside
  coldBytes : s.coldBytes = pcacheSlot * (s.count s.rcold + s.count s.zcold)
  regionsBytes : s.regionsBytes = pcacheSlot * s.count s.region + s.regions.sum
  nfreeWarm : s.nfreeWarm = s.count s.rwarm + s.pages.sum
  nfreeCold : s.nfreeCold = s.count s.rcold
  nzfreeWarm : s.nzfreeWarm = s.count s.zwarm
  nzfreeCold : s.nzfreeCold = s.count s.zcold

section
variable {s s' : State} {K : Nat → Kind} {F : List (RunKind × Nat)} {n m : Nat}

/-! ### The machine keeps the books -/

/-- The kinds, with the groups of the flight, and a limit of the bytes. -/
def Good (n m : Nat) (lim : Option Int) (s : State) : Prop :=
  ∃ fl, Sound ((n, m, fl), lim) s (flightGroups fl)

theorem good_start (n m commit : Nat) : Good n m none (start n m commit) := by
  have hfar : ∀ (i : Nat) (k : Kind), k ≠ .tail → k ≠ .beyond →
      (if i < n then Kind.tail else .beyond) ≠ k := by
    intro i k htail hbeyond
    split
    · exact htail.symm
    · exact hbeyond.symm
  have htally : ∀ w : Kind → Int, w .tail = 0 →
      tally n w (fun i => if i < n then .tail else .beyond) = 0 := by
    intro w hw
    refine Finset.sum_eq_zero fun i hi => ?_
    dsimp only
    rw [if_pos (Finset.mem_range.mp hi), hw]
  refine ⟨none, rfl, nofun, fun i => if i < n then .tail else .beyond, ?_, ?_, zero_le _, le_rfl,
    nofun, ⟨nodup_nil, ?_, ?_, nofun⟩, ?_⟩
  · intro k map hmap i
    cases k <;> cases hmap <;> exact (decide_eq_false (hfar i _ (by decide) (by decide))).symm
  · intro i
    change Kind.area _ = if i < 0 then Area.low else if i < n then .mid else if i < n then .high
      else .out
    rw [if_neg (not_lt_zero i)]
    split <;> rfl
  · exact fun i => iff_of_false (hfar i _ (by decide) (by decide)) not_mem_nil
  · exact fun i => iff_of_false (hfar i _ (by decide) (by decide)) not_mem_nil
  · constructor
    all_goals
      have hn : (start n m commit).rslots = n := rfl
      rw [hn, htally _ rfl]
      rfl

/-- The step may take slots, pages or regions. -/
def Act.takes : Act → Bool
  | .carve _ _ | .regionAlloc _ _ => true
  | _ => false

variable {lim : Option Int}

/-- Every step of the machine keeps the kinds and the books, and adds to the bytes only where it
takes something. -/
theorem Good.step (h : Good n m lim s) {a : Act} (hlim : lim = none ∨ a.takes = false)
    (hs : step s a = some s') : Good n m lim s' := by
  obtain ⟨fl, h⟩ := h
  cases a with
  | carve grant malloc =>
    cases hs
    obtain rfl := hlim.resolve_right nofun
    cases htake : s.slotTake grant malloc with
    | none => exact ⟨fl, h⟩
    | some s₁ => exact ⟨fl, h.slotTake htake⟩
  | retire i => exact ⟨fl, h.retire hs⟩
  | retirePage j => exact ⟨fl, h.retirePage hs⟩
  | regionAlloc grant size =>
    cases hs
    obtain rfl := hlim.resolve_right nofun
    exact ⟨fl, h.regionAlloc grant size⟩
  | regionSettle malloc j => exact ⟨fl, h.regionSettle hs⟩
  | regionFree owned => exact ⟨fl, h.regionFree hs⟩
  | commitAhead wanted grant =>
    cases hs
    exact ⟨fl, h.commitAhead wanted grant⟩
  | beginGiveback T =>
    obtain ⟨hnone, ⟨⟩⟩ := ite_none_left_eq_some.mp hs
    have hfl : fl = none := h.flight.symm.trans (not_isSome_iff_eq_none.mp hnone)
    subst hfl
    exact h.beginGiveback T
  | punch ok => exact h.punch hs
  | finish => exact ⟨none, h.finish hs⟩

/-! ### What the kinds say -/

/-- The state of a slot of a kind. -/
def Kind.state (inFlight : Bool) : Kind → SlotState
  | .chunk => .chunk
  | .warm => .freeWarm
  | .cold => .freeCold
  | .region => .liveRegion
  | .zwarm => .zoneWarm
  | .zcold => .zoneCold
  | .flying | .zflying => .inFlight
  | .tail | .beyond => if inFlight then .inFlight else .tail

variable {i : Nat}

theorem Run.has_iff {r : Run} :
    r.has i = true ↔ r.g0 ≤ i / groupSlots ∧ i / groupSlots < r.g0 + r.n := by
  rw [Run.has, Bool.and_eq_true, decide_eq_true_iff, decide_eq_true_iff, groupSlots]
  omega

variable {fl : Option Flight}

/-- The slots in flight are those of the groups in flight. -/
theorem inFlight_iff (hfl : s.flight = fl) :
    s.inFlight i = true ↔ ∃ k, (k, i / groupSlots) ∈ flightGroups fl := by
  rw [State.inFlight, hfl]
  cases fl with
  | none => exact ⟨nofun, fun ⟨k, hk⟩ => absurd hk not_mem_nil⟩
  | some f =>
    rw [Option.any_some, List.any_eq_true]
    constructor
    · intro ⟨r, hr, hi⟩
      exact ⟨r.kind, mem_flatMap.mpr ⟨r, hr, Run.mem_groups.mpr ⟨rfl, Run.has_iff.mp hi⟩⟩⟩
    · intro ⟨k, hk⟩
      obtain ⟨r, hr, hg⟩ := mem_flatMap.mp hk
      exact ⟨r, hr, Run.has_iff.mpr (Run.mem_groups.mp hg).2⟩

theorem Inv.tail_iff (h : Inv s K F) : s.hoff ≤ i ∧ i < s.rtop ↔ K i = .tail := by
  refine ⟨fun hi => h.kind_tail hi.1 hi.2, fun hi => ?_⟩
  have harea := h.area i
  rw [hi, State.area] at harea
  split at harea
  · cases harea
  · split at harea
    · omega
    · split at harea <;> cases harea

/-- Which slots are in flight, by their kinds: all of a kind of flight, and some of the tail. -/
theorem Inv.inFlight_kind (h : Inv s K (flightGroups fl)) (hfl : s.flight = fl) (i : Nat) :
    s.inFlight i = (decide (K i = .flying) || decide (K i = .zflying) ||
      decide (K i = .tail) && s.inFlight i) := by
  by_cases hfly : s.inFlight i = true
  · obtain ⟨k, hk⟩ := (inFlight_iff hfl).mp hfly
    rw [hfly, Bool.and_true]
    cases k with
    | chunk => rw [(h.flying.chunk i).mpr hk]; rfl
    | zone => rw [(h.flying.zone i).mpr hk]; rfl
    | tail =>
      obtain ⟨hlo, hhi, -⟩ := h.flying.tail _ hk
      have hbetween : s.hoff ≤ i ∧ i < s.rtop := by
        rw [groupSlots] at *
        omega
      rw [h.tail_iff.mp hbetween]
      rfl
  · have hnot : ∀ k, (k, i / groupSlots) ∉ flightGroups fl := fun k hk =>
      hfly ((inFlight_iff hfl).mpr ⟨k, hk⟩)
    rw [Bool.eq_false_iff.mpr hfly, Bool.and_false, Bool.or_false,
      decide_eq_false fun hK => hnot _ ((h.flying.chunk i).mp hK),
      decide_eq_false fun hK => hnot _ ((h.flying.zone i).mp hK)]
    rfl

/-- What the maps, the frontiers and the runs show of a slot of a kind. -/
def Kind.shows (inFlight : Bool) (k : Kind) : SlotState → Bool
  | .chunk => k = .chunk
  | .freeWarm => k = .warm
  | .freeCold => k = .cold
  | .liveRegion => k = .region
  | .zoneWarm => k = .zwarm
  | .zoneCold => k = .zcold
  | .inFlight => inFlight
  | .tail => k = .tail && !inFlight

theorem Kind.shows_iff {k : Kind} {inFlight : Bool} (hk : k ≠ .beyond)
    (hfly : inFlight = (decide (k = .flying) || decide (k = .zflying) ||
      decide (k = .tail) && inFlight)) (st : SlotState) :
    k.shows inFlight st = true ↔ st = k.state inFlight := by
  cases k <;> cases inFlight
  case beyond.false | beyond.true => exact absurd rfl hk
  all_goals first
    | cases st <;> decide
    | cases hfly

theorem Inv.ne_beyond (h : Inv s K F) (hi : i < s.rslots) : K i ≠ .beyond := by
  intro hK
  have harea := h.area i
  rw [hK, State.area] at harea
  split_ifs at harea
  all_goals cases harea

/-- A slot of the reservation is in the state of its kind and in no other. -/
theorem Inv.is_iff (h : Inv s K (flightGroups fl)) (hfl : s.flight = fl) (hi : i < s.rslots)
    (st : SlotState) : s.is i st = true ↔ st = (K i).state (s.inFlight i) := by
  have hshows : s.is i st = (K i).shows (s.inFlight i) st := by
    cases st with
    | inFlight => rfl
    | tail =>
      rw [State.is, ← Bool.decide_and, decide_eq_decide.mpr h.tail_iff]
      rfl
    | _ => exact h.maps _ _ rfl i
  rw [hshows]
  exact Kind.shows_iff (h.ne_beyond hi) (h.inFlight_kind hfl i) st

theorem Inv.inFlight_free (h : Inv s K (flightGroups fl)) (hfl : s.flight = fl)
    (hi : s.inFlight i = true) : i < s.rslots ∧ s.chunk i = false ∧ s.region i = false := by
  have hkind := h.inFlight_kind hfl i
  rw [hi, Bool.and_true] at hkind
  rw [h.maps .chunk _ rfl i, h.maps .region _ rfl i]
  refine ⟨h.lt_rslots ?_, ?_, ?_⟩
  all_goals cases hK : K i <;> rw [hK] at hkind <;> first | decide | cases hkind

/-- With nothing in flight the kinds count the maps. -/
theorem Inv.exact (h : Inv s K []) : Exact s := by
  have hone : ∀ k map, s.map k = some map → tally s.rslots (one k) K = s.count map := by
    intro k map hmap
    refine tally_eq_countP fun i _ => ?_
    simp only [one, h.maps k map hmap i, decide_eq_true_iff]
  have hground : ∀ i, (K i).grounded := fun i =>
    ⟨fun hK => not_mem_nil ((h.flying.chunk i).mp hK),
      fun hK => not_mem_nil ((h.flying.zone i).mp hK)⟩
  have hheld : tally s.rslots held K = s.count s.chunk + s.count s.rwarm + s.count s.region +
      s.count s.zwarm := by
    rw [← hone .chunk _ rfl, ← hone .warm _ rfl, ← hone .region _ rfl, ← hone .zwarm _ rfl,
      ← tally_add, ← tally_add, ← tally_add]
    refine tally_congr fun i _ => ?_
    have := hground i
    cases hK : K i <;> rw [hK] at this <;>
      first | rfl | exact absurd rfl this.1 | exact absurd rfl this.2
  have hpunched : tally s.rslots punched K = s.count s.rcold + s.count s.zcold := by
    rw [← hone .cold _ rfl, ← hone .zcold _ rfl, ← tally_add]
    refine tally_congr fun i _ => ?_
    cases K i <;> rfl
  have hb := h.books
  constructor
  · rw [hb.bytes, hheld, State.outside]
    push_cast
    ring
  · rw [hb.coldBytes, hpunched]
  · rw [hb.regionsBytes, hone .region _ rfl]
  · rw [hb.nfreeWarm, hone .warm _ rfl]
  · rw [hb.nfreeCold, hone .cold _ rfl]
  · rw [hb.nzfreeWarm, hone .zwarm _ rfl]
  · rw [hb.nzfreeCold, hone .zcold _ rfl]

end

/-- After any run of the arena, with what the host answers as it may: every slot is in exactly one
state; no slot that a run of the give-back in flight tells the host to take is a chunk or a region;
and with no give-back in flight the counters are exact. -/
theorem giveback_safe (rslots maxBytes commit : Nat) (acts : List Act) (s : State)
    (hrun : Machine.run step (start rslots maxBytes commit) acts = some s) :
    s.rslots = rslots ∧
      (∀ i < rslots, ∃! st, s.is i st = true) ∧
      (∀ f, s.flight = some f → ∀ r ∈ f.runs, ∀ i, r.has i = true →
        i < rslots ∧ s.chunk i = false ∧ s.region i = false) ∧
      (s.flight = none → Exact s) := by
  have hgood : Good rslots maxBytes none s := Machine.run_invariant
    (I := Good rslots maxBytes none) (fun s a s' h _ hs => h.step (.inl rfl) hs)
    (good_start rslots maxBytes commit) (Machine.along_true _ _ _) hrun
  obtain ⟨fl, hsound⟩ := hgood
  have hfl := hsound.flight
  obtain ⟨hfr, -, K, h⟩ := hsound
  obtain ⟨rfl, -⟩ := Prod.mk.inj hfr
  refine ⟨rfl, fun i hi => ?_, fun f hf r hr i hi => ?_, fun hnone => ?_⟩
  · exact ⟨_, (h.is_iff hfl hi _).mpr rfl, fun st hst => (h.is_iff hfl hi st).mp hst⟩
  · have hfly : s.inFlight i = true := by
      rw [State.inFlight, hf]
      exact any_eq_true.mpr ⟨r, hr, hi⟩
    exact h.inFlight_free hfl hfly
  · rw [hnone] at hfl
    subst hfl
    exact h.exact

/-- A give-back that finds every free slot quiet. -/
def quietTick : Tick := ⟨true, fun _ => true, fun _ => true, fun _ => true, false, 4 * hps, 0, 0⟩

/-- Eight chunks are retired, and go in flight with three groups of the tail; a carve meanwhile
finds the frontier in flight and takes a page; the host takes the chunks' group and refuses the
tail. -/
theorem giveback_safe_refused :
    let acts := replicate 8 (.carve (fun _ => true) true) ++ (range 8).map .retire ++
      [.beginGiveback quietTick, .carve (fun _ => true) true, .punch true, .punch false, .finish]
    (∃ s, Machine.run step (start 64 0 8) acts = some s) ∧
      ∀ s, Machine.run step (start 64 0 8) acts = some s →
        s.flight = none ∧ s.coldBytes = hps ∧ s.pages = [15] ∧ Exact s := by
  intro acts
  have hend : (Machine.run step (start 64 0 8) acts).any (fun s => s.flight = none ∧
      s.coldBytes = (hps : Int) ∧ s.pages = [15]) = true := by decide +kernel
  cases hrun : Machine.run step (start 64 0 8) acts with
  | none =>
    rw [hrun] at hend
    cases hend
  | some s =>
    rw [hrun, any_some, decide_eq_true_iff] at hend
    refine ⟨⟨s, rfl⟩, fun s' hs' => ?_⟩
    cases hs'
    exact ⟨hend.1, hend.2.1, hend.2.2, (giveback_safe 64 0 8 acts s hrun).2.2.2 hend.1⟩

end Perfcached.Reservation
