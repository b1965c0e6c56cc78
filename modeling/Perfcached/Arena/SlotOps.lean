import Perfcached.Arena.SlotBooks

/-!
# Perfcached.Arena.SlotOps

Carves, retirements, regions and commits keep the kinds of the slots and the books.

A carve takes a slot that is free and not in flight: what is in flight below the chunk frontier is
on neither map, and the tail's extent in flight is what a carve at a frontier does not enter.
-/

namespace Perfcached.Reservation

open List Option Nat Bool

open Arena (pcacheSlot)
open Tally

/-- What no step but those of a give-back changes, and a limit of the bytes, if there is one. -/
abbrev Frame := (Nat × Nat × Option Flight) × Option Int

/-- The maps, the frontiers and the counters are those of one kind for each slot, and the bytes are
at or below the limit. -/
def Sound (fr : Frame) (s : State) (F : List (RunKind × Nat)) : Prop :=
  s.frame = fr.1 ∧ (∀ b ∈ fr.2, s.bytes ≤ b) ∧ ∃ K, Inv s K F

section
variable {s s' : State} {K : Nat → Kind} {F : List (RunKind × Nat)} {i : Nat}
  {fr : Frame} {fr₀ : Nat × Nat × Option Flight}

variable {n : Nat}

theorem bitFirst_some {m : Bits} (h : bitFirst m n = some i) : m i = true :=
  find?_some h

/-- The bytes stay at or below a limit, if they are no more or there is none. -/
theorem limit_of_le {b : Int} (h : ∀ x ∈ fr.2, s.bytes ≤ x) (hb : fr.2 = none ∨ b ≤ s.bytes) :
    ∀ x ∈ fr.2, b ≤ x := by
  intro x hx
  rcases hb with hnone | hle
  · cases hnone.symm.trans hx
  · exact hle.trans (h x hx)

/-- A slot on a map is of the map's kind. -/
theorem Inv.kind (h : Inv s K F) {k : Kind} {m : Bits} (hm : s.map k = some m) (hi : m i = true) :
    K i = k := by
  rw [h.maps k m hm i] at hi
  exact of_decide_eq_true hi

/-! ### Commits -/

variable {grant : Nat → Bool} {g : Nat}

open State

/-- A commit changes nothing but the map of committed groups. -/
theorem groupCommit_eq (hs : s.groupCommit grant g = some s') :
    ∃ hcommit, s' = { s with hcommit } := by
  unfold groupCommit at hs
  split at hs
  · cases hs
    exact ⟨s.hcommit, rfl⟩
  · obtain ⟨-, ⟨⟩⟩ := ite_none_right_eq_some.mp hs
    exact ⟨_, rfl⟩

theorem groupsCommit_eq (grant : Nat → Bool) (gs : List Nat) (s : State) :
    ∃ hcommit, (groupsCommit grant gs s).2 = { s with hcommit } := by
  induction gs generalizing s with
  | nil => exact ⟨s.hcommit, rfl⟩
  | cons g gs ih =>
    rw [groupsCommit]
    split
    · next s₁ hs₁ =>
        obtain ⟨hcommit, rfl⟩ := groupCommit_eq hs₁
        exact ih _
    · exact ⟨s.hcommit, rfl⟩

/-- So it keeps the kinds and the books. -/
theorem Sound.groupCommit (h : Sound fr s F) (hs : s.groupCommit grant g = some s') :
    Sound fr s' F := by
  obtain ⟨hfr, hlim, K, h⟩ := h
  obtain ⟨hcommit, rfl⟩ := groupCommit_eq hs
  exact ⟨hfr, hlim, K, h.rest _ _ _ _ _ _⟩

/-- One slot of a kind that a map is kept of is turned. -/
theorem Sound.turnOne (h : Sound fr s F) {a b : Kind} {m : Bits} (ht : Turned s s' i 1 a b)
    (hm : s.map a = some m) (hi : m i = true) (hs : Still s s')
    (hok : a ≠ .beyond ∧ b.area = a.area ∧ a.grounded ∧ b.grounded)
    (hheld : fr.2 = none ∨ held b ≤ held a) : Sound fr s' F := by
  obtain ⟨hfr, hlim, K, h⟩ := h
  obtain ⟨hin, harea, ha, hb⟩ := hok
  exact ⟨hs.frame.trans hfr, limit_of_le hlim (hheld.imp_right ht.bytes_le), _,
    h.turn_one ht (h.kind hm hi) hin harea ha hb hs⟩

theorem Sound.thaw (h : Sound (fr₀, none) s F) (i : Nat) : Sound (fr₀, none) (s.thaw i) F := by
  by_cases hi : s.rcold i = true
  · have ht := turned_thaw hi
    rw [State.thaw, if_pos hi] at ht ⊢
    exact h.turnOne ht rfl hi ⟨rfl, rfl, rfl, rfl, rfl⟩ (by decide) (.inl rfl)
  · rwa [State.thaw, if_neg hi]

theorem Sound.zthaw (h : Sound (fr₀, none) s F) (i : Nat) : Sound (fr₀, none) (s.zthaw i) F := by
  by_cases hi : s.zcold i = true
  · have ht := turned_zthaw hi
    rw [State.zthaw, if_pos hi] at ht ⊢
    exact h.turnOne ht rfl hi ⟨rfl, rfl, rfl, rfl, rfl⟩ (by decide) (.inl rfl)
  · rwa [State.zthaw, if_neg hi]

theorem Sound.foldl {f : State → Nat → State} (hf : ∀ s i, Sound fr s F → Sound fr (f s i) F)
    (l : List Nat) (h : Sound fr s F) : Sound fr (l.foldl f s) F := by
  induction l generalizing s with
  | nil => exact h
  | cons i l ih => exact ih (hf s i h)

variable {l : List Nat}

/-- A cold slot among those that are thawed is warm after it. -/
theorem warm_foldl {f : State → Nat → State} {warm cold : State → Bits}
    (hthaw : ∀ s j, cold s j = true →
      warm (f s j) = bitSet (warm s) j ∧ cold (f s j) = bitClr (cold s) j)
    (hleft : ∀ s j, cold s j ≠ true → f s j = s) (h : warm s i = true ∨ cold s i = true ∧ i ∈ l) :
    warm (l.foldl f s) i = true := by
  induction l generalizing s with
  | nil => exact h.resolve_right fun h => not_mem_nil h.2
  | cons j l ih =>
    rw [foldl_cons]
    refine ih ?_
    by_cases hj : cold s j = true
    · obtain ⟨hwarm, hcold⟩ := hthaw s j hj
      rw [hwarm, hcold]
      by_cases hij : j ≤ i ∧ i < j + 1
      · exact .inl (if_pos hij)
      · have hne : i ≠ j := by omega
        refine h.imp (fun hw => ?_) fun hc => ⟨?_, (mem_cons.mp hc.2).resolve_left hne⟩
        · exact (if_neg hij).trans hw
        · exact (if_neg hij).trans hc.1
    · rw [hleft s j hj]
      refine h.imp id fun hc => ⟨hc.1, (mem_cons.mp hc.2).resolve_left fun hij => ?_⟩
      rw [hij] at hc
      exact hj hc.1

theorem rwarm_foldl_thaw (hi : s.rcold i = true) (hl : i ∈ l) :
    (l.foldl thaw s).rwarm i = true := by
  refine warm_foldl (fun s j hj => ?_) (fun s j hj => if_neg hj) (.inr ⟨hi, hl⟩)
  rw [thaw, if_pos hj]
  exact ⟨rfl, rfl⟩

theorem zwarm_foldl_zthaw (hi : s.zcold i = true) (hl : i ∈ l) :
    (l.foldl zthaw s).zwarm i = true := by
  refine warm_foldl (fun s j hj => ?_) (fun s j hj => if_neg hj) (.inr ⟨hi, hl⟩)
  rw [zthaw, if_pos hj]
  exact ⟨rfl, rfl⟩

theorem mem_slotsOf (i : Nat) : i ∈ slotsOf (i / groupSlots) := by
  rw [slotsOf, mem_range'_1, groupSlots]
  omega

/-- A group that is back: its cold slot can be taken. -/
theorem Sound.groupRecommit (h : Sound (fr₀, none) s F) (hi : s.rcold i = true)
    (hs : s.groupRecommit grant (i / groupSlots) = some s') :
    Sound (fr₀, none) s' F ∧ s'.rwarm i = true := by
  obtain ⟨s₁, hs₁, rfl⟩ := map_eq_some_iff.mp hs
  have h₁ := h.groupCommit hs₁
  obtain ⟨hcommit, rfl⟩ := groupCommit_eq hs₁
  exact ⟨h₁.foldl (fun s i h => h.thaw i) _, rwarm_foldl_thaw hi (mem_slotsOf i)⟩

/-- The same for a group of the region zone. -/
theorem Sound.zgroupRecommit (h : Sound (fr₀, none) s F) (hi : s.zcold i = true)
    (hs : s.zgroupRecommit grant (i / groupSlots) = some s') :
    Sound (fr₀, none) s' F ∧ s'.zwarm i = true := by
  obtain ⟨s₁, hs₁, rfl⟩ := map_eq_some_iff.mp hs
  have h₁ := h.groupCommit hs₁
  obtain ⟨hcommit, rfl⟩ := groupCommit_eq hs₁
  exact ⟨h₁.foldl (fun s i h => h.zthaw i) _, zwarm_foldl_zthaw hi (mem_slotsOf i)⟩

/-! ### Chunks -/

theorem Sound.takeWarm (h : Sound fr s F) (hi : s.rwarm i = true) : Sound fr (s.takeWarm i) F :=
  h.turnOne (turned_takeWarm s i) rfl hi ⟨rfl, rfl, rfl, rfl, rfl⟩ (by decide) (.inr (by decide))

theorem Sound.retire (h : Sound fr s F) (hs : s.retire i = some s') : Sound fr s' F := by
  have ht := turned_retire hs
  obtain ⟨hi, ⟨⟩⟩ := ite_none_right_eq_some.mp hs
  exact h.turnOne ht rfl hi ⟨rfl, rfl, rfl, rfl, rfl⟩ (by decide) (.inr (by decide))

/-- The tail in flight is clear of what a carve at a frontier takes. -/
theorem tailInflight_clear {lo hi : Nat} (h : s.tailInflight lo hi = false)
    (hlo : s.tailFlLo ≤ g * groupSlots) (hhi : (g + 1) * groupSlots ≤ s.tailFlHi) :
    hi ≤ g * groupSlots ∨ (g + 1) * groupSlots ≤ lo := by
  rw [tailInflight, and_eq_false_iff, and_eq_false_iff, decide_eq_false_iff_not,
    decide_eq_false_iff_not, decide_eq_false_iff_not] at h
  rw [groupSlots] at *
  omega

/-- What is between the frontiers is the tail. -/
theorem Inv.kind_tail (h : Inv s K F) (hlo : s.hoff ≤ i) (hhi : i < s.rtop) : K i = .tail := by
  have harea := h.area i
  rw [State.area, if_neg (by omega), if_pos hhi] at harea
  cases hK : K i with
  | tail => rfl
  | _ =>
    rw [hK] at harea
    cases harea

/-- The slot at the chunk frontier is carved. -/
theorem Sound.carveUp (h : Sound (fr₀, none) s F) (hroom : s.hoff + 1 ≤ s.rtop)
    (hclear : s.tailInflight s.hoff (s.hoff + 1) = false) : Sound (fr₀, none) s.carveUp F := by
  obtain ⟨hfr, -, K, h⟩ := h
  have hrtop := h.rtop_le
  refine ⟨hfr, nofun, _, h.move (turned_carveUp s) (fun i hlo hhi => h.kind_tail hlo (by omega))
    (by omega)
    (fun i _ hhi => if_pos hhi) (fun i hi => ?_) (by decide) (by decide) hroom hrtop rfl rfl
    fun g hg => ?_⟩
  · change (if i < s.hoff + 1 then Area.low else if i < s.rtop then .mid
      else if i < s.rslots then .high else .out) = area s i
    unfold area
    split_ifs <;> first | rfl | omega
  · obtain ⟨hlow, hhigh, hlo, hhi⟩ := h.flying.tail g hg
    refine ⟨?_, hhigh⟩
    -- a group of the tail in flight is past the slot, or behind the frontier
    rcases tailInflight_clear hclear hlo hhi with hclear | hclear
    · exact hclear
    · rw [groupSlots] at *
      omega

/-! ### Pages -/

/-- The pages and what is held outside change, with their counts. -/
theorem Sound.outside (h : Sound fr s F) {pages regions pending : List Nat}
    {nfreeWarm bytes regionsBytes : Int}
    (hpages : (∀ nfree ∈ s.pages, nfree ≤ pageSlots) → ∀ nfree ∈ pages, nfree ≤ pageSlots)
    (hwarm : nfreeWarm = s.nfreeWarm + pages.sum - s.pages.sum)
    (hbytes : bytes = s.bytes + (pageBytes * pages.length + regions.sum + pending.sum) -
      (pageBytes * s.pages.length + s.regions.sum + s.pending.sum))
    (hregions : regionsBytes = s.regionsBytes + regions.sum - s.regions.sum)
    (hle : fr.2 = none ∨ bytes ≤ s.bytes) :
    Sound fr { s with pages, regions, pending, nfreeWarm, bytes, regionsBytes } F := by
  obtain ⟨hfr, hlim, K, h⟩ := h
  obtain ⟨h1, h2, h3, h4, h5, h6, h7⟩ := h.books
  refine ⟨hfr, limit_of_le hlim hle, K, h.maps, h.area, h.hoff_le, h.rtop_le, hpages h.pages,
    ⟨h.flying.nodup, h.flying.chunk, h.flying.zone, h.flying.tail⟩, ?_, h2, ?_, h4, h5, h6, ?_⟩
  · rw [hbytes, h1]
    ring
  · rw [hwarm, h3]
    ring
  · rw [hregions, h7]
    ring

variable {j x : Nat}

theorem sum_modify (hj : l[j]? = some x) (f : Nat → Nat) :
    ((l.modify j f).sum : Int) = l.sum + (f x - x) := by
  induction l generalizing j with
  | nil => cases hj
  | cons y l ih =>
    cases j with
    | zero =>
      rw [getElem?_cons_zero, some.injEq] at hj
      rw [modify_zero_cons, sum_cons, sum_cons, hj]
      push_cast
      ring
    | succ j =>
      rw [getElem?_cons_succ] at hj
      have := ih hj
      rw [modify_succ_cons, sum_cons, sum_cons]
      push_cast at this ⊢
      rw [this]
      ring

theorem mem_modify_le {f : Nat → Nat} (hl : ∀ x ∈ l, x ≤ n) (hf : ∀ x, l[j]? = some x → f x ≤ n) :
    ∀ x ∈ l.modify j f, x ≤ n := by
  intro x hx
  obtain ⟨k, hk⟩ := mem_iff_getElem?.mp hx
  rw [getElem?_modify] at hk
  obtain ⟨y, hy, hxy⟩ := map_eq_some_iff.mp hk
  split at hxy
  · next hjk =>
      subst hjk hxy
      exact hf y hy
  · subst hxy
    exact hl y (mem_of_getElem? hy)

theorem Sound.pageAdd (h : Sound (fr₀, none) s F) : Sound (fr₀, none) s.pageAdd F := by
  refine h.outside (fun hle => forall_mem_cons.mpr ⟨le_rfl, hle⟩) ?_ ?_ ?_ (.inl rfl)
  · rw [sum_cons]
    push_cast
    ring
  · rw [length_cons]
    push_cast
    ring
  · ring

/-- A page with a free slot has one less. -/
theorem Sound.takeFromPage (h : Sound fr s F) (hj : s.pages[j]? = some x) (hx : x ≠ 0) :
    Sound fr (s.takeFromPage j) F := by
  have hsum := sum_modify hj (· - 1)
  refine h.outside (fun hle => mem_modify_le hle fun y hy => ?_) ?_ ?_ ?_ (.inr le_rfl)
  · exact (sub_le y 1).trans (hle y (mem_of_getElem? hy))
  · rw [hsum]
    omega
  · rw [length_modify]
    ring
  · ring

theorem Sound.retirePage (h : Sound fr s F) (hs : s.retirePage j = some s') : Sound fr s' F := by
  unfold State.retirePage at hs
  split at hs
  · next x hj =>
      obtain ⟨hlt, ⟨⟩⟩ := ite_none_right_eq_some.mp hs
      have hsum := sum_modify hj (· + 1)
      refine h.outside (fun hle => mem_modify_le hle fun y hy => ?_) ?_ ?_ ?_ (.inr le_rfl)
      · obtain rfl := some.inj (hj.symm.trans hy)
        exact hlt
      · rw [hsum]
        push_cast
        ring
      · rw [length_modify]
        ring
      · ring
  · cases hs

/-- The page that is picked has a free slot. -/
theorem bestPage_some {pages : List Nat} (h : bestPage pages = some j) :
    ∃ x, pages[j]? = some x ∧ x ≠ 0 := by
  -- the best so far has room, whatever is left of the loop
  have hfold : ∀ (l : List Nat) (best : Option Nat), (∀ b ∈ best, pages.getD b 0 ≠ 0) →
      ∀ b ∈ l.foldl (fun best j =>
        if pages.getD j 0 ≠ 0 ∧ best.all (fun b => pages.getD j 0 < pages.getD b 0) then some j
        else best) best, pages.getD b 0 ≠ 0 := by
    intro l
    induction l with
    | nil => exact fun best h => h
    | cons j l ih =>
      intro best hbest
      refine ih _ fun b hb => ?_
      dsimp only at hb
      split at hb
      · next hj =>
          cases hb
          exact hj.1
      · exact hbest b hb
  have hne := hfold (range pages.length) none nofun j h
  rw [getD_eq_getElem?_getD] at hne
  cases hget : pages[j]? with
  | none =>
    rw [hget] at hne
    exact absurd rfl hne
  | some x =>
    rw [hget] at hne
    exact ⟨x, rfl, hne⟩

variable {malloc : Bool}

section

variable (h : Sound (fr₀, none) s F)
include h

/-- The fullest page that has room, or a page more. -/
theorem Sound.takePage (hs : s.takePage malloc = some s') : Sound (fr₀, none) s' F := by
  unfold State.takePage at hs
  split at hs
  · next j hj =>
      cases hs
      obtain ⟨x, hx, hne⟩ := bestPage_some hj
      exact h.takeFromPage hx hne
  · split at hs
    · cases hs
    · obtain ⟨-, ⟨⟩⟩ := ite_none_right_eq_some.mp hs
      exact h.pageAdd.takeFromPage (j := 0) (x := pageSlots) rfl (by decide)

/-- A carve, from wherever it takes its slot. -/
theorem Sound.slotTake (hs : s.slotTake grant malloc = some s') : Sound (fr₀, none) s' F := by
  rcases (orElse_eq_some _ _ _).mp hs with hs | ⟨-, hs⟩
  · obtain ⟨i, hi, rfl⟩ := map_eq_some_iff.mp hs
    exact h.takeWarm (bitFirst_some hi)
  · rcases (orElse_eq_some _ _ _).mp hs with hs | ⟨-, hs⟩
    · obtain ⟨i, hi, hs⟩ := bind_eq_some_iff.mp hs
      obtain ⟨s₁, hs₁, rfl⟩ := map_eq_some_iff.mp hs
      obtain ⟨hsound, hwarm⟩ := h.groupRecommit (bitFirst_some hi) hs₁
      exact hsound.takeWarm hwarm
    · rcases (orElse_eq_some _ _ _).mp hs with hs | ⟨-, hs⟩
      · obtain ⟨hroom, hs⟩ := ite_none_right_eq_some.mp hs
        obtain ⟨s₁, hs₁, rfl⟩ := map_eq_some_iff.mp hs
        have h₁ := h.groupCommit hs₁
        obtain ⟨hcommit, rfl⟩ := groupCommit_eq hs₁
        exact h₁.carveUp hroom.1 hroom.2
      · exact h.takePage hs

/-! ### Regions -/

theorem Sound.takeZone (hi : s.zwarm i = true) : Sound (fr₀, none) (s.takeZone i) F :=
  h.turnOne (turned_takeZone s i) rfl hi ⟨rfl, rfl, rfl, rfl, rfl⟩ (by decide) (.inl rfl)

/-- A region of one slot takes a free one of the zone, thawed first if it is cold. -/
theorem Sound.regionReuse (hs : s.regionReuse grant = some s') : Sound (fr₀, none) s' F := by
  unfold State.regionReuse at hs
  split at hs
  · next i hi =>
      cases hs
      exact h.takeZone (bitFirst_some hi)
  · obtain ⟨i, hi, hs⟩ := bind_eq_some_iff.mp hs
    obtain ⟨s₁, hs₁, rfl⟩ := map_eq_some_iff.mp hs
    obtain ⟨hsound, hwarm⟩ := h.zgroupRecommit (bitFirst_some hi) hs₁
    exact hsound.takeZone hwarm

/-- The slots under the region frontier are a region. -/
theorem Sound.carveDown (hroom : s.hoff + n ≤ s.rtop)
    (hclear : s.tailInflight (s.rtop - n) s.rtop = false) :
    Sound (fr₀, none) (s.carveDown n) F := by
  obtain ⟨hfr, -, K, h⟩ := h
  have hrtop := h.rtop_le
  have harea : ∀ i, (s.carveDown n).area i = if i < s.hoff then Area.low
      else if i < s.rtop - n then .mid else if i < s.rslots then .high else .out := fun _ => rfl
  have hhoff : s.hoff ≤ s.rtop - n := by omega
  refine ⟨hfr, nofun, _, h.move (turned_carveDown s n) (fun i hlo hhi => h.kind_tail ?_ ?_)
    (by omega) (fun i hlo hhi => ?_) (fun i hi => ?_) (by decide) (by decide) hhoff
    (sub_le_of_le_add (by omega)) rfl rfl fun g hg => ?_⟩
  · omega
  · omega
  · rw [harea, if_neg (by omega), if_neg (by omega), if_pos (by omega)]
    rfl
  · rw [harea]
    unfold area
    split_ifs <;> first | rfl | omega
  · obtain ⟨hlow, hhigh, hlo, hhi⟩ := h.flying.tail g hg
    refine ⟨hlow, ?_⟩
    rcases tailInflight_clear hclear hlo hhi with hclear | hclear
    · rw [groupSlots] at *
      omega
    · exact hclear

theorem Sound.regionOutside (size : Nat) : Sound (fr₀, none) (s.regionOutside size) F := by
  unfold State.regionOutside
  split
  · exact h
  · refine h.outside id ?_ ?_ ?_ (.inl rfl)
    · ring
    · rw [sum_cons]
      push_cast
      ring
    · ring

/-- What the tail has no room for, or the host does not commit, goes outside. -/
theorem Sound.regionCarve (grant : Nat → Bool) (size : Nat) :
    Sound (fr₀, none) (s.regionCarve grant size) F := by
  unfold State.regionCarve
  dsimp only
  split
  · next hroom =>
      obtain ⟨hcommit, heq⟩ := groupsCommit_eq grant (groupsOf (s.rtop - regionSlots size) s.rtop) s
      obtain ⟨hfr, hlim, K, h⟩ := h
      have hsound : Sound (fr₀, none) { s with hcommit } F := ⟨hfr, hlim, K, h.rest _ _ _ _ _ _⟩
      split
      · next s₁ hs₁ =>
          rw [hs₁] at heq
          subst heq
          exact hsound.carveDown hroom.1 hroom.2
      · next s₁ hs₁ =>
          rw [hs₁] at heq
          subst heq
          exact hsound.regionOutside size
  · exact h.regionOutside size

theorem Sound.regionAlloc (grant : Nat → Bool) (size : Nat) :
    Sound (fr₀, none) (s.regionAlloc grant size) F := by
  unfold State.regionAlloc
  split
  · cases hs : s.regionReuse grant with
    | none =>
      rw [getD_none]
      exact h.regionCarve grant size
    | some s₁ =>
      rw [getD_some]
      exact h.regionReuse hs
  · exact h.regionCarve grant size

end

theorem sum_eraseIdx (hj : l[j]? = some x) : (l.sum : Int) = x + (l.eraseIdx j).sum := by
  obtain ⟨hlt, rfl⟩ := List.getElem?_eq_some_iff.mp hj
  rw [← (List.getElem_cons_eraseIdx_perm hlt).sum_eq, List.sum_cons]
  rfl

/-- The host's answer: the region is held outside, or its bytes are taken back. -/
theorem Sound.regionSettle (h : Sound fr s F) (hs : s.regionSettle malloc j = some s') :
    Sound fr s' F := by
  unfold State.regionSettle at hs
  split at hs
  · next need hj =>
      have hsum := sum_eraseIdx hj
      cases hs
      cases malloc with
      | true =>
        refine h.outside id ?_ ?_ ?_ (.inr le_rfl)
        · ring
        · rw [hsum, sum_cons]
          push_cast
          ring
        · rw [sum_cons]
          push_cast
          ring
      | false =>
        refine h.outside id ?_ ?_ ?_ (.inr (Int.sub_le_self _ (Int.natCast_nonneg _)))
        · ring
        · rw [hsum]
          ring
        · ring
  · cases hs

/-- The free slot at the region frontier goes to the tail. -/
theorem Sound.raiseStep (h : Sound fr s F) (hs : s.raiseStep = some s') : Sound fr s' F := by
  obtain ⟨hfr, hlim, K, h⟩ := h
  obtain ⟨hlt, hfr', hhoff, hrtop, hlo, hhi, k, m, hk, hm, hfree, ht⟩ := turned_raiseStep hs
  have hle := h.hoff_le
  have harea : ∀ i, s'.area i = if i < s.hoff then Area.low
      else if i < s.rtop + 1 then .mid else if i < s.rslots then .high else .out := fun i => by
    rw [area, hhoff, hrtop, ht.rslots]
  -- a free slot that goes to the tail is not held any more
  have hbytes := ht.bytes_le (by cases k <;> decide)
  refine ⟨hfr'.trans hfr, limit_of_le hlim (.inr hbytes), _, h.move ht (fun i hlo hhi => ?_) hlt
    (fun i hlo hhi => ?_)
    (fun i hi => ?_) hk (by decide) (by omega) (by omega) hlo hhi fun g hg => ?_⟩
  · obtain rfl : i = s.rtop := by omega
    exact h.kind hm hfree
  · rw [harea, if_neg (by omega), if_pos hhi]
    rfl
  · rw [harea]
    unfold area
    split_ifs <;> first | rfl | omega
  · obtain ⟨hlow, hhigh, -⟩ := h.flying.tail g hg
    rw [hhoff, hrtop]
    exact ⟨hlow, le_succ_of_le hhigh⟩

theorem Sound.raiseLoop (h : Sound fr s F) (n : Nat) : Sound fr (raiseLoop n s) F := by
  induction n generalizing s with
  | zero => exact h
  | succ n ih =>
    rw [raiseLoop]
    split
    · next s₁ hs₁ => exact ih (h.raiseStep hs₁)
    · exact h

/-- The loop ends at the first slot that is not free. -/
theorem Sound.zoneRaise (h : Sound fr s F) : Sound fr s.zoneRaise F := by
  obtain ⟨hfr, hlim, K, hK⟩ := h.raiseLoop (s.rslots - s.rtop)
  unfold State.zoneRaise
  dsimp only
  split
  · exact ⟨hfr, hlim, K, hK.rest _ _ _ _ _ _⟩
  · exact ⟨hfr, hlim, K, hK⟩

/-- The slots of a region are given back, each once. -/
theorem Sound.foldl_freeSlot (hl : l.Nodup) (h : Sound fr s F)
    (hregion : ∀ i ∈ l, s.region i = true) : Sound fr (l.foldl freeSlot s) F := by
  induction l generalizing s with
  | nil => exact h
  | cons i l ih =>
    obtain ⟨hi, hl⟩ := nodup_cons.mp hl
    have hri := hregion i mem_cons_self
    -- a slot is of one kind, so one of a region is on neither map
    have hfree : (s.zwarm i || s.zcold i) = false := by
      obtain ⟨-, -, K, h⟩ := h
      rw [h.maps .zwarm _ rfl, h.maps .zcold _ rfl, h.kind (k := .region) rfl hri]
      rfl
    have ht := turned_freeSlot hfree
    rw [foldl_cons]
    rw [freeSlot, if_neg (by rw [hfree]; exact false_ne_true)] at ht ⊢
    refine ih hl (h.turnOne ht rfl hri ⟨rfl, rfl, rfl, rfl, rfl⟩ (by decide) (.inr (by decide)))
      fun j hj => ?_
    have hne : j ≠ i := fun hji => hi (hji ▸ hj)
    exact (if_neg (by omega)).trans (hregion j (mem_cons_of_mem _ hj))

/-- A region in the reservation is freed slot by slot, and the frontier raised. -/
theorem Sound.regionFree (h : Sound fr s F) {owned : Option (Nat × Nat)}
    (hs : s.regionFree owned = some s') : Sound fr s' F := by
  cases owned with
  | none =>
    cases hs
    exact h
  | some p =>
    obtain ⟨hall, ⟨⟩⟩ := ite_none_right_eq_some.mp hs
    exact (h.foldl_freeSlot nodup_range' (all_eq_true.mp hall)).zoneRaise

/-! ### The window ahead -/

/-- Commits ahead of the frontier are no slot's concern. -/
theorem Sound.commitAhead (h : Sound fr s F) (wanted : Bool) (grant : Nat → Bool) :
    Sound fr (s.commitAhead wanted grant) F := by
  have hloop : ∀ gs s, Sound fr s F → Sound fr (State.aheadLoop grant gs s) F := by
    intro gs
    induction gs with
    | nil => exact fun s h => h
    | cons g gs ih =>
      intro s ⟨hfr, hlim, K, h⟩
      rw [State.aheadLoop]
      split
      · exact ⟨hfr, hlim, K, h⟩
      · have hahead : Sound fr { s with
            aheadFrom := if s.aheadFrom = 0 ∨ g < s.aheadFrom then g else s.aheadFrom } F :=
          ⟨hfr, hlim, K, h.rest _ _ _ _ _ _⟩
        dsimp only
        split
        · next s₁ hs₁ => exact ih s₁ (hahead.groupCommit hs₁)
        · exact hahead
  unfold State.commitAhead
  split
  · exact hloop _ s h
  · exact h

end

end Perfcached.Reservation
