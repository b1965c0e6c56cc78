import Perfcached.Arena.GivebackSafe

/-!
# Perfcached.Arena.Ceiling

The ceiling of the arena (`pcache_arena_max_bytes`, set to the size of the reservation).

A page and a region outside are tested against it before they are asked for. A slot of the
reservation is not: neither a carve at a frontier nor a group that is committed again after it was
given back. So what is taken outside while part of the reservation is not held is past the ceiling
when the reservation comes back (`ceiling_passed`). The bytes stay under the ceiling where nothing
is held outside when a step may take slots without a test (`bytes_le_ceiling`).
-/

namespace Perfcached.Reservation

open List Option Nat

open Arena (pcacheSlot)
open Tally

namespace State

/-- The slots whose memory is not held: those punched out, and the tail. -/
def unheld (s : State) : Nat :=
  s.count fun i => s.rcold i || s.zcold i || (s.hoff ≤ i && i < s.rtop)

/-- The step finds no free slot that is held, and may commit a group again or go on at a frontier:
of either the bytes are counted without a test. -/
def Untested (s : State) : Act → Prop
  | .carve _ _ => bitFirst s.rwarm s.rslots = none ∧
      (bitFirst s.rcold s.rslots ≠ none ∨ s.hoff + 1 ≤ s.rtop)
  | .regionAlloc _ size => (regionSlots size = 1 → bitFirst s.zwarm s.rslots = none) ∧
      (regionSlots size = 1 ∧ bitFirst s.zcold s.rslots ≠ none ∨
        s.hoff + regionSlots size ≤ s.rtop)
  | _ => False

instance decidableUntested (s : State) : DecidablePred s.Untested := fun a => by
  unfold State.Untested
  split <;> infer_instance

/-- The pages and the regions outside. -/
def out (s : State) : List Nat × List Nat × List Nat := (s.pages, s.regions, s.pending)

end State

/-- Nothing is held outside when slots are taken without a test. -/
def Fits (s : State) (a : Act) : Prop := s.Untested a → s.outside = 0
  deriving Decidable

section
variable {s s' : State} {n m : Nat}

/-! ### What a step takes of the reservation -/

variable {grant : Nat → Bool} {g : Nat}

open State

theorem outside_of_out (h : s'.out = s.out) : s'.outside = s.outside := by
  obtain ⟨hpages, h⟩ := Prod.mk.inj h
  obtain ⟨hregions, hpending⟩ := Prod.mk.inj h
  rw [outside, outside, hpages, hregions, hpending]

theorem out_foldl {f : State → Nat → State} (hf : ∀ s i, (f s i).out = s.out) (l : List Nat)
    (s : State) : (l.foldl f s).out = s.out := by
  induction l generalizing s with
  | nil => rfl
  | cons i l ih => exact (ih (f s i)).trans (hf s i)

theorem out_thaw (s : State) (i : Nat) : (s.thaw i).out = s.out := by
  unfold thaw
  split <;> rfl

theorem out_zthaw (s : State) (i : Nat) : (s.zthaw i).out = s.out := by
  unfold zthaw
  split <;> rfl

theorem out_groupRecommit (hs : s.groupRecommit grant g = some s') : s'.out = s.out := by
  obtain ⟨s₁, hs₁, rfl⟩ := map_eq_some_iff.mp hs
  obtain ⟨hcommit, rfl⟩ := groupCommit_eq hs₁
  exact out_foldl out_thaw (slotsOf g) _

theorem out_zgroupRecommit (hs : s.zgroupRecommit grant g = some s') : s'.out = s.out := by
  obtain ⟨s₁, hs₁, rfl⟩ := map_eq_some_iff.mp hs
  obtain ⟨hcommit, rfl⟩ := groupCommit_eq hs₁
  exact out_foldl out_zthaw (slotsOf g) _

/-- What the ceiling lets through is under it. -/
theorem le_of_pastCeiling {need : Nat} (hmax : s.maxBytes ≠ 0) (h : ¬ s.pastCeiling need = true) :
    s.bytes + need ≤ s.maxBytes := by
  rw [pastCeiling, Bool.and_eq_true, decide_eq_true_eq, decide_eq_true_eq] at h
  exact Int.not_lt.mp fun hlt => h ⟨hmax, hlt⟩

/-- What a step makes of the bytes: they are not more, or they were tested, or slots of the
reservation were taken without a test and nothing outside. -/
def Counted (s : State) (a : Act) (s' : State) : Prop :=
  s'.bytes ≤ s.bytes ∨ s'.bytes ≤ s.maxBytes ∨ s'.out = s.out ∧ s.Untested a

theorem counted_slotTake {malloc : Bool} (hmax : s.maxBytes ≠ 0)
    (hs : s.slotTake grant malloc = some s') : Counted s (.carve grant malloc) s' := by
  rcases (orElse_eq_some _ _ _).mp hs with hs | ⟨hfree, hs⟩
  · obtain ⟨i, -, rfl⟩ := map_eq_some_iff.mp hs
    exact .inl le_rfl
  have hwarm : bitFirst s.rwarm s.rslots = none := map_eq_none_iff.mp hfree
  rcases (orElse_eq_some _ _ _).mp hs with hs | ⟨-, hs⟩
  · obtain ⟨i, hi, hs⟩ := bind_eq_some_iff.mp hs
    obtain ⟨s₁, hs₁, rfl⟩ := map_eq_some_iff.mp hs
    have hout := out_groupRecommit hs₁
    exact .inr (.inr ⟨hout, hwarm, .inl (by rw [hi]; exact some_ne_none i)⟩)
  rcases (orElse_eq_some _ _ _).mp hs with hs | ⟨-, hs⟩
  · obtain ⟨hroom, hs⟩ := ite_none_right_eq_some.mp hs
    obtain ⟨s₁, hs₁, rfl⟩ := map_eq_some_iff.mp hs
    obtain ⟨hcommit, rfl⟩ := groupCommit_eq hs₁
    exact .inr (.inr ⟨rfl, hwarm, .inr hroom.1⟩)
  unfold takePage at hs
  split at hs
  · cases hs
    exact .inl le_rfl
  · obtain ⟨hunder, hs⟩ := ite_none_left_eq_some.mp hs
    obtain ⟨-, ⟨⟩⟩ := ite_none_right_eq_some.mp hs
    exact .inr (.inl (le_of_pastCeiling hmax hunder))

theorem bytes_regionOutside (hmax : s.maxBytes ≠ 0) (size : Nat) :
    (s.regionOutside size).bytes ≤ s.bytes ∨ (s.regionOutside size).bytes ≤ s.maxBytes := by
  unfold regionOutside
  split
  · exact .inl le_rfl
  · next hunder => exact .inr (le_of_pastCeiling hmax hunder)

theorem counted_regionAlloc (hmax : s.maxBytes ≠ 0) (grant : Nat → Bool) (size : Nat) :
    Counted s (.regionAlloc grant size) (s.regionAlloc grant size) := by
  have hcarve : (regionSlots size = 1 → bitFirst s.zwarm s.rslots = none) →
      Counted s (.regionAlloc grant size) (s.regionCarve grant size) := by
    intro hwarm
    unfold regionCarve
    dsimp only
    split
    · next hroom =>
        obtain ⟨hcommit, heq⟩ :=
          groupsCommit_eq grant (groupsOf (s.rtop - regionSlots size) s.rtop) s
        split
        · next s₁ hs₁ =>
            rw [hs₁] at heq
            subst heq
            exact .inr (.inr ⟨rfl, hwarm, .inr hroom.1⟩)
        · next s₁ hs₁ =>
            rw [hs₁] at heq
            subst heq
            exact (bytes_regionOutside (s := { s with hcommit }) hmax size).imp_right .inl
    · exact (bytes_regionOutside hmax size).imp_right .inl
  unfold regionAlloc
  split
  · next hone =>
      unfold regionReuse
      cases hwarm : bitFirst s.zwarm s.rslots with
      | some i => exact .inl le_rfl
      | none =>
        cases hs : (bitFirst s.zcold s.rslots).bind fun i =>
            (s.zgroupRecommit grant (i / groupSlots)).map fun s => s.takeZone i with
        | none => exact hcarve fun _ => hwarm
        | some s₁ =>
          obtain ⟨i, hi, hs⟩ := bind_eq_some_iff.mp hs
          obtain ⟨s₂, hs₂, rfl⟩ := map_eq_some_iff.mp hs
          have hout := out_zgroupRecommit hs₂
          exact .inr (.inr ⟨hout, fun _ => hwarm, .inl ⟨hone, by rw [hi]; exact some_ne_none i⟩⟩)
  · next hmany => exact hcarve fun hone => absurd hone hmany

/-! ### The ceiling -/

/-- The bytes are those of the reservation that are held, and what is outside. -/
theorem Good.bytes (h : Good n m none s) :
    s.bytes + pcacheSlot * s.unheld = pcacheSlot * n + s.outside := by
  obtain ⟨fl, hfr, -, K, h⟩ := h
  obtain ⟨rfl, -⟩ := Prod.mk.inj hfr
  have hkind : ∀ k : Kind, k ≠ .beyond → 1 - held k =
      if (decide (k = .cold) || decide (k = .zcold) || decide (k = .tail)) = true
        then 1 else 0 := by
    intro k hk
    cases k <;> first | rfl | exact absurd rfl hk
  have hunheld : tally s.rslots (fun k => 1 - held k) K = s.unheld := by
    refine tally_eq_countP fun i hi => ?_
    have hbeyond := h.ne_beyond hi
    rw [h.maps .cold _ rfl i, h.maps .zcold _ rfl i, ← Bool.decide_and,
      decide_eq_decide.mpr h.tail_iff]
    exact hkind (K i) hbeyond
  have hall : tally s.rslots held K + s.unheld = s.rslots := by
    rw [← hunheld, ← tally_add]
    simp [tally]
  rw [h.books.bytes, outside, ← hall]
  push_cast
  ring

/-- Where nothing is outside the bytes are under the ceiling. -/
theorem Good.counted_le {a : Act} (h' : Good n m none s') (hmax : s.maxBytes = pcacheSlot * n)
    (hcount : Counted s a s') (hle : s.bytes ≤ pcacheSlot * n) (hfits : Fits s a) :
    s'.bytes ≤ pcacheSlot * n := by
  rcases hcount with hcount | htested | ⟨hout, huntested⟩
  · exact hcount.trans hle
  · exact_mod_cast hmax ▸ htested
  · have hb' := h'.bytes
    rw [outside_of_out hout, hfits huntested] at hb'
    have hunheld : (0 : Int) ≤ pcacheSlot * s'.unheld :=
      Int.mul_nonneg (Int.natCast_nonneg _) (Int.natCast_nonneg _)
    omega

/-- A step that fits keeps the bytes under the ceiling. -/
theorem Good.step_le (h : Good n (pcacheSlot * n) none s) (hn : 0 < n)
    (hle : s.bytes ≤ pcacheSlot * n) {a : Act} (hfits : Fits s a)
    (hs : Reservation.step s a = some s') : s'.bytes ≤ pcacheSlot * n := by
  have h' := h.step (.inl rfl) hs
  obtain ⟨fl, hfr, -, hK⟩ := h
  have hmaxBytes : s.maxBytes = pcacheSlot * n := congrArg (·.2.1) hfr
  have hmax : s.maxBytes ≠ 0 := by
    rw [hmaxBytes, pcacheSlot]
    omega
  -- a step that takes nothing keeps the limit that the bytes are now
  have hquiet : a.takes = false → s'.bytes ≤ pcacheSlot * n := by
    intro ha
    have hlim : Good n (pcacheSlot * n) (some s.bytes) s :=
      ⟨fl, hfr, fun b hb => le_of_eq (some.inj hb), hK⟩
    obtain ⟨fl', -, hle', -⟩ := hlim.step (.inr ha) hs
    exact (hle' _ rfl).trans hle
  cases a with
  | carve grant malloc =>
    cases hs
    cases htake : s.slotTake grant malloc with
    | none => exact hle
    | some s₁ =>
      rw [htake] at h'
      exact Good.counted_le h' hmaxBytes (counted_slotTake hmax htake) hle hfits
  | regionAlloc grant size =>
    cases hs
    exact Good.counted_le h' hmaxBytes (counted_regionAlloc hmax grant size) hle hfits
  | _ => exact hquiet rfl

end

/-- With the ceiling at the size of the reservation: after any run in which nothing is held outside
when a step may take slots of the reservation without a test, the bytes are not past the ceiling. -/
theorem bytes_le_ceiling (rslots commit : Nat) (hrslots : 0 < rslots) (acts : List Act) (s : State)
    (hfits : Machine.Along step Fits (start rslots (pcacheSlot * rslots) commit) acts)
    (hrun : Machine.run step (start rslots (pcacheSlot * rslots) commit) acts = some s) :
    s.bytes ≤ s.maxBytes := by
  have hinv : Good rslots (pcacheSlot * rslots) none s ∧ s.bytes ≤ pcacheSlot * rslots :=
    Machine.run_invariant (I := fun s => Good rslots (pcacheSlot * rslots) none s ∧
        s.bytes ≤ pcacheSlot * rslots)
      (fun s a s' h hfits hs => ⟨h.1.step (.inl rfl) hs, h.1.step_le hrslots h.2 hfits hs⟩)
      ⟨good_start rslots _ commit, Int.mul_nonneg (Int.natCast_nonneg _) (Int.natCast_nonneg _)⟩
      hfits hrun
  obtain ⟨⟨fl, hfr, -⟩, hle⟩ := hinv
  have hmaxBytes : s.maxBytes = pcacheSlot * rslots := congrArg (·.2.1) hfr
  rw [hmaxBytes]
  exact_mod_cast hle

/-- On 16 MB: an index takes 14 MB of the reservation and eight chunks the rest; the chunks are
retired and their group given back; a region of one slot then goes outside, under the ceiling. -/
def givenBack : List Act :=
  .regionAlloc (fun _ => true) (56 * pcacheSlot) ::
    List.replicate 8 (.carve (fun _ => true) true) ++ (List.range 8).map .retire ++
    [.beginGiveback quietTick, .punch true, .finish, .regionAlloc (fun _ => true) pcacheSlot,
      .regionSettle true 0]

/-- Up to there the run fits. -/
theorem bytes_le_ceiling_givenBack :
    (∃ s, Machine.run step (start 64 (pcacheSlot * 64) 8) givenBack = some s) ∧
      Machine.Along step Fits (start 64 (pcacheSlot * 64) 8) givenBack ∧
      ∀ s, Machine.run step (start 64 (pcacheSlot * 64) 8) givenBack = some s →
        s.bytes ≤ s.maxBytes := by
  have hsome : (Machine.run step (start 64 (pcacheSlot * 64) 8) givenBack).isSome = true := by
    decide +kernel
  have hfits : Machine.Along step Fits (start 64 (pcacheSlot * 64) 8) givenBack := by
    decide +kernel
  exact ⟨isSome_iff_exists.mp hsome, hfits, fun s hrun =>
    bytes_le_ceiling 64 8 (by decide) givenBack s hfits hrun⟩

/-- A carve then commits the group again, with no test: the bytes are past the ceiling. -/
theorem ceiling_passed : (Machine.run step (start 64 (pcacheSlot * 64) 8)
      (givenBack ++ [.carve (fun _ => true) true])).any (fun s => s.maxBytes = 16777216 ∧
        s.bytes = 16777216 + 262224) = true := by
  decide +kernel

end Perfcached.Reservation
