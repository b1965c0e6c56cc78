import Perfcached.Arena.Census

/-!
# Perfcached.Arena.Reclaim

What the holder of the arena lock does keeps the census, retirement included (`Quiet`), and with it
every run.
-/

namespace Perfcached.Arena

open Machine Shelves List Option Function

variable {n : Nat}

/-! ### What is in the hands of the holder -/

/-- No cell and no chunk is in its hands. -/
structure Bare (l : Option (Locked n)) : Prop where
  cell : l.bind Locked.cell = none
  chunks : (l.map Locked.chunks).getD [] = []
  pending : ∀ ch, (l.map (Locked.pending ch)).getD 0 = 0

/-- A cell of a chunk is, not counted yet. -/
structure Pops (l : Option (Locked n)) (ch cell : Nat) : Prop where
  cell : l.bind Locked.cell = some cell
  chunks : (l.map Locked.chunks).getD [] = []
  pending : ∀ ch', (l.map (Locked.pending ch')).getD 0 = if ch = ch' then 1 else 0

theorem bare_none : Bare (none : Option (Locked n)) := ⟨rfl, rfl, fun _ => rfl⟩

variable {v : Chunk} {cs : List Cls}

section Locked

variable {keep : Nat} {s s' : State n} {t : Fin n} {c : Cls} {ch cell got : Nat} {l : Locked n}

theorem forall_mem_some {α : Type} {P : α → Prop} {a : α} (h : P a) : ∀ b ∈ some a, P b :=
  fun _ hb => some.inj hb ▸ h

theorem Inv.cut_of_notice {q : Notice n} (h : Inv s) (hq : ch ∈ Arena.notices s q) :
    ∃ c, s.cut ch = some c := by
  cases q with
  | avail c => exact ⟨c, h.fits.avail c ch hq⟩
  | link t =>
    have hfits := (h.fits.threads t).pc
    rw [Arena.notices] at hq
    cases hpc : (s.threads t).pc with
    | link ch' c =>
      rw [hpc] at hq hfits
      obtain rfl : ch = ch' := mem_singleton.mp hq
      exact ⟨c, hfits⟩
    | idle | push | count | announce =>
      rw [hpc] at hq
      cases hq
  | locked =>
    rw [Arena.notices] at hq
    cases hl : s.locked with
    | none =>
      rw [hl] at hq
      cases hq
    | some l =>
      have hfits := h.fits.locked l hl
      rw [hl] at hq
      cases l with
      | availPopped t c got ch' =>
        obtain rfl : ch = ch' := mem_singleton.mp hq
        exact ⟨c, hfits⟩
      | scan c cs kept chs => exact ⟨c, hfits ch hq⟩
      | decided c cs kept ch' retire chs =>
        rcases mem_cons.mp hq with heq | hmem
        · exact ⟨c, heq ▸ hfits.1⟩
        · exact ⟨c, hfits.2 ch hmem⟩
      | refill | cellPopped | densePopped | tick | current | unflagged | drained => cases hq

open Locked

/-- The counts after a step that leaves the freeing threads where they are. -/
theorem counted_of (h : Inv s) (hpc : ∀ t, (s'.threads t).pc = (s.threads t).pc)
    (heq : ∀ ch, (s'.slots ch).nfree + (s.slots ch).freeHead.length +
        ((s.locked.map (pending ch)).getD 0 : Nat) =
      (s.slots ch).nfree + (s'.slots ch).freeHead.length +
        ((s'.locked.map (pending ch)).getD 0 : Nat)) (ch : Nat) : Counted s' ch := by
  have hsum : counting s' ch = counting s ch := Finset.sum_congr rfl fun t _ => by rw [hpc]
  have hold := h.counted ch
  have hnew := heq ch
  unfold Counted at hold ⊢
  omega

theorem contents_popped (s : State n) :
    contents s .popped = (s.locked.bind Locked.cell).toList := rfl

theorem notices_locked (s : State n) :
    notices s .locked = (s.locked.map chunks).getD [] := rfl

/-- The holder of the lock has the same cell as before. -/
theorem contents_relock {l : Option (Locked n)}
    (hcell : l.bind Locked.cell = s.locked.bind Locked.cell)
    (hrest : ∀ p, p ≠ .popped → contents s' p = contents s p) (p : Place n) :
    contents (s'.setLocked l) p = contents s p := by
  by_cases hp : p = .popped
  · rw [contents_setLocked, hp, if_pos rfl, hcell, contents_popped]
  · rw [contents_setLocked, if_neg hp, hrest p hp]

/-- The holder of the lock has the same chunks as before. -/
theorem notices_relock {l : Option (Locked n)}
    (hchunks : (l.map chunks).getD [] = (s.locked.map chunks).getD [])
    (hrest : ∀ q, q ≠ .locked → notices s' q = notices s q) (q : Notice n) :
    notices (s'.setLocked l) q = notices s q := by
  by_cases hq : q = .locked
  · rw [notices_setLocked, hq, if_pos rfl, hchunks, notices_locked]
  · rw [notices_setLocked, if_neg hq, hrest q hq]

section

variable (h : Inv s)
include h

theorem counted_setChunk (hslots : s'.slots = (s.setChunk ch v).slots)
    (hpc : ∀ t, (s'.threads t).pc = (s.threads t).pc)
    (hself : v.nfree + (s.slots ch).freeHead.length + ((s.locked.map (pending ch)).getD 0 : Nat) =
      (s.slots ch).nfree + v.freeHead.length + ((s'.locked.map (pending ch)).getD 0 : Nat))
    (hother : ∀ ch', ch' ≠ ch → (s.locked.map (pending ch')).getD 0 =
      (s'.locked.map (pending ch')).getD 0)
    (ch' : Nat) : Counted s' ch' := by
  refine counted_of h hpc (fun ch' => ?_) ch'
  rw [hslots]
  by_cases heq : ch' = ch
  · rw [heq, slots_setChunk_self]
    exact hself
  · rw [slots_setChunk_ne heq, hother ch' heq]

/-- The holder of the lock goes on with what it has. -/
theorem Inv.relock {l : Option (Locked n)} (hcell : l.bind Locked.cell = s.locked.bind Locked.cell)
    (hchunks : (l.map Locked.chunks).getD [] = (s.locked.map Locked.chunks).getD [])
    (hpending : ∀ ch, (l.map (Locked.pending ch)).getD 0 =
      (s.locked.map (Locked.pending ch)).getD 0)
    (hfits : ∀ l' ∈ l, l'.Fits s.cut) (hready : ∀ l' ∈ l, Ready s l') : Inv (s.setLocked l) := by
  refine ⟨?_, ?_, h.fits.setLocked hfits, counted_of h (fun _ => rfl) fun ch => ?_, hready⟩
  · exact h.places.congr (contents_relock hcell fun _ _ => rfl) fun _ => Iff.rfl
  · exact h.notices.congr (notices_relock hchunks fun _ _ => rfl) fun _ => Iff.rfl
  · show _ = _ + (((l.map (Locked.pending ch)).getD 0 : Nat) : Int)
    rw [hpending]
    rfl

/-- The holder of the lock goes on with nothing in its hands. -/
theorem Inv.relock_bare {l : Option (Locked n)} (hbare : Bare s.locked) (hbare' : Bare l)
    (hfits : ∀ l' ∈ l, l'.Fits s.cut) (hready : ∀ l' ∈ l, Ready s l') : Inv (s.setLocked l) :=
  h.relock (hbare'.cell.trans hbare.cell.symm) (hbare'.chunks.trans hbare.chunks.symm)
    (fun ch => (hbare'.pending ch).trans (hbare.pending ch).symm) hfits hready

theorem Inv.release (hbare : Bare s.locked) : Inv (s.setLocked none) :=
  h.relock_bare hbare bare_none nofun nofun

theorem Inv.popCell {rest : List Nat} (hbare : Bare s.locked)
    (hhead : (s.slots ch).freeHead = cell :: rest) (hpops : Pops (some l) ch cell)
    (hfits : l.Fits s.cut) (hready : Ready (s.setChunk ch { s.slots ch with freeHead := rest }) l) :
    Inv ((s.setChunk ch { s.slots ch with freeHead := rest }).setLocked (some l)) := by
  have hcut : (s.setChunk ch { s.slots ch with freeHead := rest }).cut = s.cut := cut_setChunk rfl
  have hfits' : Fits (s.setChunk ch { s.slots ch with freeHead := rest }) :=
    h.fits.setChunk rfl rfl fun a ha => h.fits.home ch a (hhead ▸ mem_cons_of_mem _ ha)
  have hp : contents s (.home ch) = cell :: rest := hhead
  have hpopped : contents s .popped = [] := by
    rw [contents_popped, hbare.cell]
    rfl
  refine ⟨?_, ?_, hfits'.setLocked (forall_mem_some (hcut.symm ▸ hfits)),
    counted_setChunk h rfl (fun _ => rfl) ?_ fun ch' hne => ?_, forall_mem_some hready⟩
  · show Shelved _ (IsCell (s.setChunk ch { s.slots ch with freeHead := rest }).cut)
    rw [hcut]
    refine h.places.move (.home ch) .popped cell (by simp) (by simp [hp]) ?_
      fun r hr hr' => by simp [hr, hr']
    rw [contents_setLocked, if_pos rfl, hpops.cell, hpopped]
    rfl
  · have hchunks := hpops.chunks.trans hbare.chunks.symm
    exact h.notices.congr (notices_relock hchunks fun _ _ => rfl) (inAvail_setChunk rfl)
  · have hone : ((s.setChunk ch { s.slots ch with freeHead := rest }).setLocked
        (some l)).locked.map (pending ch) = some 1 := by
      have := hpops.pending ch
      rw [if_pos rfl] at this
      exact congrArg some this
    rw [hbare.pending, hone, hhead, length_cons]
    simp only [getD_some]
    omega
  · exact (hbare.pending ch').trans ((hpops.pending ch').trans (if_neg hne.symm)).symm

theorem Inv.popAvail {rest : List Nat} (hl : s.locked = some (.refill t c got))
    (havail : s.avail c = ch :: rest) :
    Inv ((s.setAvail c rest).setLocked (some (.availPopped t c got ch))) := by
  have hfits : ∀ ch' ∈ ch :: rest, s.cut ch' = some c := by
    rw [← havail]
    exact h.fits.avail c
  have hfits' : Fits (s.setAvail c rest) :=
    h.fits.setAvail fun ch' hmem => hfits ch' (mem_cons_of_mem _ hmem)
  have hp : Arena.notices s (.avail c) = ch :: rest := havail
  refine ⟨?_, ?_, hfits'.setLocked (forall_mem_some (hfits ch mem_cons_self)),
    counted_of h (fun _ => rfl) fun ch' => by rw [hl]; rfl,
    forall_mem_some (h.ready _ hl)⟩
  · have hcell : none = s.locked.bind Locked.cell := (congrArg (bind · Locked.cell) hl).symm
    exact h.places.congr (contents_relock hcell fun _ _ => rfl) fun _ => Iff.rfl
  · refine h.notices.move (.avail c) .locked ch (by simp) (by simp [hp]) ?_
      fun r hr hr' => by simp [hr, hr']
    rw [notices_setLocked, if_pos rfl, notices_locked, hl]
    rfl

/-- Its flag is cleared, and it is the class's current chunk. -/
theorem Inv.unflag (hl : s.locked = some (.availPopped t c got ch)) :
    Inv (((s.setChunk ch { s.slots ch with inAvail := false }).setCur c (some ch)).setLocked
      (some (.refill t c got))) := by
  have hcut : (s.setChunk ch { s.slots ch with inAvail := false }).cut = s.cut := cut_setChunk rfl
  have hfits' : Fits (s.setChunk ch { s.slots ch with inAvail := false }) :=
    h.fits.setChunk rfl rfl (h.fits.home ch)
  have hfits : s.cut ch = some c := h.fits.locked _ hl
  refine ⟨?_, ?_, (hfits'.setCur (forall_mem_some (hcut.symm ▸ hfits))).setLocked
    (forall_mem_some trivial), counted_setChunk h rfl (fun _ => rfl) (by rw [hl]; rfl)
    fun ch' _ => by rw [hl]; rfl, forall_mem_some (h.ready _ hl)⟩
  · show Shelved _ (IsCell (s.setChunk ch { s.slots ch with inAvail := false }).cut)
    rw [hcut]
    refine h.places.congr (contents_relock (by rw [hl]; rfl) fun p _ => ?_) fun _ => Iff.rfl
    rw [contents_setCur, contents_setChunk_same (by rfl)]
  · have hlocked : Arena.notices s .locked = [ch] := by
      rw [notices_locked, hl]
      rfl
    refine h.notices.take .locked [ch] (by simp [hlocked, chunks])
      (fun r hr => by simp [hr]) fun ch' => ?_
    show ((s.setChunk ch { s.slots ch with inAvail := false }).slots ch').inAvail = true ↔ _
    by_cases heq : ch' = ch
    · rw [heq, slots_setChunk_self]
      simp
    · rw [slots_setChunk_ne heq]
      simp [heq]

end

abbrev State.countOff (s : State n) (ch : Nat) : State n :=
  s.setChunk ch { s.slots ch with nfree := (s.slots ch).nfree - 1 }

/-- The cell in hand is counted off and goes to a place. -/
theorem Inv.settle {p : Place n} (h : Inv s) (hpops : Pops s.locked ch cell)
    (hbare : Bare s'.locked)
    (hslots : s'.slots = (s.countOff ch).slots) (hpc : ∀ t, (s'.threads t).pc = (s.threads t).pc)
    (hp : p ≠ .popped) (hput : contents s' p = cell :: contents s p)
    (hrest : ∀ r, r ≠ .popped → r ≠ p → contents s' r = contents s r)
    (hnotices : ∀ q, q ≠ .locked → Arena.notices s' q = Arena.notices s q) (hfits : Fits s')
    (hready : ∀ l ∈ s'.locked, Ready s' l) : Inv s' := by
  have hcut : s'.cut = s.cut :=
    (funext fun ch' => by rw [State.cut, hslots]; rfl : s'.cut = (s.countOff ch).cut).trans
      (cut_setChunk rfl)
  refine ⟨?_, ?_, hfits, counted_setChunk h hslots hpc ?_ fun ch' hne => ?_, hready⟩
  · rw [hcut]
    refine h.places.move .popped p cell hp.symm ?_ hput hrest
    rw [contents_popped, contents_popped, hpops.cell, hbare.cell]
    rfl
  · refine h.notices.congr (notices_relock (hbare.chunks.trans hpops.chunks.symm) hnotices) ?_
    rw [hslots]
    exact inAvail_setChunk rfl
  · rw [hbare.pending, hpops.pending, if_pos rfl]
    dsimp only
    omega
  · rw [hbare.pending, hpops.pending, if_neg hne.symm]

theorem cut_countOff : (s.countOff ch).cut = s.cut := cut_setChunk rfl

theorem Fits.countOff (h : Fits s) : Fits (s.countOff ch) := h.setChunk rfl rfl (h.home ch)

/-- The cell is counted off and goes on the private stack. -/
theorem Inv.settleStack (h : Inv s) (hl : s.locked = some (.cellPopped t c got ch cell)) :
    Inv (((s.countOff ch).setStack t c (cell :: ((s.threads t).cls c).stack)).setLocked
      (some (.refill t c (got + 1)))) := by
  obtain ⟨hc, rfl⟩ := h.fits.locked _ hl
  have hpops : Pops s.locked (cellChunk cell) cell := hl ▸ ⟨rfl, rfl, fun _ => rfl⟩
  refine h.settle (p := .stack t c) hpops ⟨rfl, rfl, fun _ => rfl⟩ rfl (fun t' => pc_setPrivate t')
    (by simp) (by simp; rfl) (fun r hr hr' => ?_) (fun q hq => ?_)
    ((h.fits.countOff.setPrivate ?_ ?_).setLocked (forall_mem_some trivial)) (forall_mem_some ?_)
  · rw [contents_setLocked, if_neg hr, contents_setStack, if_neg hr',
      contents_setChunk_same (by rfl)]
  · rw [notices_setLocked, if_neg hq, State.setStack, notices_setPrivate, notices_setChunk]
  · rw [cut_countOff]
    exact forall_mem_cons.mpr ⟨hc, (h.fits.threads t).stack c⟩
  · rw [cut_countOff]
    exact (h.fits.threads t).bump c
  · have hbump : ((s.threads t).cls c).bump = [] := h.ready _ hl
    simpa [Ready, State.setLocked, State.setStack, State.setPrivate, State.setChunk] using hbump

/-- The cell is counted off and goes to the caller. -/
theorem Inv.settleHeld (h : Inv s) (hl : s.locked = some (.densePopped c ch cell)) :
    Inv (((s.countOff ch).setHeld ((cell, c) :: s.held)).setLocked none) := by
  obtain ⟨hc, rfl⟩ := h.fits.locked _ hl
  have hpops : Pops s.locked (cellChunk cell) cell := hl ▸ ⟨rfl, rfl, fun _ => rfl⟩
  refine h.settle (p := .held) hpops bare_none rfl (fun _ => rfl) (by simp) (by simp; rfl)
    (fun r hr hr' => ?_) (fun q hq => ?_) ((h.fits.countOff.setHeld ?_).setLocked nofun) nofun
  · rw [contents_setLocked, if_neg hr, contents_setHeld, if_neg hr',
      contents_setChunk_same (by rfl)]
  · rw [notices_setLocked, if_neg hq, notices_setHeld, notices_setChunk]
  · rw [cut_countOff]
    exact forall_mem_cons.mpr ⟨hc, h.fits.held⟩

/-- The tick takes a class's avail stack whole. -/
theorem Inv.takeAvail (h : Inv s) (hl : s.locked = some (.tick (c :: cs))) :
    Inv ((s.setAvail c []).setLocked (some (.scan c cs 0 (s.avail c)))) := by
  have hfits : Fits (s.setAvail c []) := h.fits.setAvail (forall_mem_nil _)
  refine ⟨?_, ?_, hfits.setLocked (forall_mem_some (h.fits.avail c)),
    counted_of h (fun _ => rfl) fun ch' => by rw [hl]; rfl, forall_mem_some trivial⟩
  · refine h.places.congr (contents_relock (by rw [hl]; rfl) fun p _ => ?_) fun _ => Iff.rfl
    rw [contents_setAvail]
  · have hlocked : Arena.notices s .locked = [] := by
      rw [notices_locked, hl]
      rfl
    have havail : Arena.notices s (.avail c) = s.avail c := rfl
    refine h.notices.exchange (.avail c) .locked (by simp) ?_ fun r hr hr' => by simp [hr, hr']
    simp [hlocked, havail, chunks]

/-- A chunk that stays goes back on the avail stack. -/
theorem Inv.pushBack {kept : Nat} {chs : List Nat} (h : Inv s)
    (hl : s.locked = some (.decided c cs kept ch false chs)) :
    Inv ((s.setAvail c (ch :: s.avail c)).setLocked (some (.scan c cs kept chs))) := by
  obtain ⟨hch, hchs⟩ := h.fits.locked _ hl
  have hfits : Fits (s.setAvail c (ch :: s.avail c)) :=
    h.fits.setAvail (forall_mem_cons.mpr ⟨hch, h.fits.avail c⟩)
  refine ⟨?_, ?_, hfits.setLocked (forall_mem_some hchs),
    counted_of h (fun _ => rfl) fun ch' => by rw [hl]; rfl, forall_mem_some trivial⟩
  · refine h.places.congr (contents_relock (by rw [hl]; rfl) fun p _ => ?_) fun _ => Iff.rfl
    rw [contents_setAvail]
  · have hlocked : Arena.notices s .locked = ch :: chs := by
      rw [notices_locked, hl]
      rfl
    exact h.notices.move .locked (.avail c) ch (by simp)
      (by simp [hlocked, chunks]) (by simp; rfl) fun r hr hr' => by simp [hr, hr']

end Locked

/-! ### Cutting a slot and retiring it -/

section Slots

variable {keep : Nat} {s s' : State n} {t : Fin n} {c : Cls} {ch slot got : Nat} {l : Locked n}

theorem Locked.Fits.mono {cut cut' : Nat → Option Cls} (h : l.Fits cut)
    (hmono : ∀ ch c, cut ch = some c → cut' ch = some c) : l.Fits cut' := by
  cases l with
  | refill | tick | current => trivial
  | availPopped | unflagged | drained => exact hmono _ _ h
  | cellPopped | densePopped => exact ⟨hmono _ _ h.1, h.2⟩
  | scan => exact fun ch hch => hmono _ _ (h ch hch)
  | decided => exact ⟨hmono _ _ h.1, fun ch hch => hmono _ _ (h.2 ch hch)⟩

theorem ne_of_cut {ch' : Nat} (h : s.cut ch = some c) (h' : s.cut ch' = none) : ch ≠ ch' := by
  rintro rfl
  cases h.symm.trans h'

section

variable (h : Inv s) (hcut : s.cut slot = none)
include h hcut

/-- Nobody is about to count a cell of a slot that is not cut. -/
theorem Inv.counting_uncut : counting s slot = 0 := by
  refine Finset.sum_eq_zero fun t _ => ?_
  have hfits := (h.fits.threads t).pc
  cases hpc : (s.threads t).pc with
  | count ch c =>
    rw [hpc] at hfits
    exact if_neg (ne_of_cut hfits hcut)
  | idle | push | announce | link => rfl

theorem Inv.home_uncut : (s.slots slot).freeHead = [] := by
  refine eq_nil_iff_forall_not_mem.mpr fun a ha => ?_
  obtain ⟨c, hc, _⟩ := h.places.mem (p := .home slot) ha
  rw [h.fits.home slot a ha, hcut] at hc
  cases hc

theorem Inv.flag_uncut : (s.slots slot).inAvail = false := by
  refine Bool.eq_false_iff.mpr fun hflag => ?_
  obtain ⟨q, hq⟩ := (h.notices.all slot).mpr hflag
  obtain ⟨c, hc⟩ := h.cut_of_notice hq
  cases hc.symm.trans hcut

end

theorem cut_setChunk_self : (s.setChunk ch v).cut ch = v.cls := by
  rw [State.cut, slots_setChunk_self]

theorem cut_setChunk_ne {ch' : Nat} (hne : ch' ≠ ch) : (s.setChunk ch v).cut ch' = s.cut ch' := by
  rw [State.cut, slots_setChunk_ne hne, State.cut]

theorem isCell_cut (hfree : s.cut slot = none) (hv : v.cls = some c) (a : Nat) :
    IsCell (s.setChunk slot v).cut a ↔ IsCell s.cut a ∨ a ∈ cellsOf slot c := by
  constructor
  · rintro ⟨c', hc', ha⟩
    by_cases heq : cellChunk a = slot
    · rw [heq, cut_setChunk_self, hv] at hc'
      rw [heq, ← some.inj hc'] at ha
      exact .inr ha
    · rw [cut_setChunk_ne heq] at hc'
      exact .inl ⟨c', hc', ha⟩
  · rintro (⟨c', hc', ha⟩ | ha)
    · exact ⟨c', (cut_setChunk_ne (ne_of_cut hc' hfree)).trans hc', ha⟩
    · have heq : cellChunk a = slot := cellChunk_of_mem ha
      exact ⟨c, by rw [heq, cut_setChunk_self, hv], by rwa [heq]⟩

/-- `carve_chunk`: a slot that is not cut, and so nobody's, is cut. -/
theorem Inv.carve (h : Inv s) (hl : s.locked = some (.refill t c got))
    (hfree : s.cut slot = none) : Inv ((s.carveChunk t c slot).setLocked none) := by
  have hbump : contents s (.bump t c) = [] := h.ready _ hl
  have hmono : ∀ ch c', s.cut ch = some c' →
      (s.setChunk slot ⟨some c, cells c, [], 0, false⟩).cut ch = some c' := by
    intro ch c' hc'
    rwa [cut_setChunk_ne (ne_of_cut hc' hfree)]
  -- nobody has a cell of the slot yet, so that the classes only grow
  have hfits : Fits (s.setChunk slot ⟨some c, cells c, [], 0, false⟩) := by
    refine ⟨fun p hp => hmono _ _ (h.fits.held p hp), fun t => (h.fits.threads t).mono hmono,
      fun l hl => (h.fits.locked l hl).mono hmono,
      fun c ch hch => hmono _ _ (h.fits.avail c ch hch),
      fun c ch hch => hmono _ _ (h.fits.cur c ch hch), fun ch => ?_, fun ch c' hc' => ?_⟩
    · by_cases heq : ch = slot
      · rw [heq, slots_setChunk_self]
        exact forall_mem_nil _
      · rw [slots_setChunk_ne heq]
        exact h.fits.home ch
    · by_cases heq : ch = slot
      · rw [heq, cut_setChunk_self] at hc'
        rw [heq, slots_setChunk_self, some.inj hc']
      · rw [cut_setChunk_ne heq] at hc'
        rw [slots_setChunk_ne heq]
        exact h.fits.cells ch c' hc'
  have hcut : (s.setChunk slot ⟨some c, cells c, [], 0, false⟩).cut slot = some c :=
    cut_setChunk_self
  refine ⟨?_, ?_, (hfits.setPrivate (t := t) ?_ ?_).setLocked nofun, ?_, nofun⟩
  · refine h.places.put (.bump t c) (cellsOf slot c) (nodup_cellsOf slot c) ?_ ?_ ?_
      (isCell_cut hfree rfl)
    · rintro a ha ⟨c', hc', _⟩
      exact ne_of_cut hc' hfree (cellChunk_of_mem ha)
    · simp [State.carveChunk, hbump]
    · intro r hr
      by_cases hr' : r = .popped
      · rw [hr', contents_setLocked, if_pos rfl, contents_popped, hl]
        rfl
      · have hhome : ([] : List Nat) = (s.slots slot).freeHead := (h.home_uncut hfree).symm
        rw [contents_setLocked, if_neg hr', State.carveChunk, contents_setBump, if_neg hr,
          contents_setChunk_same hhome]
  · refine h.notices.congr (notices_relock (by rw [hl]; rfl) fun q _ => ?_)
      (inAvail_setChunk (h.flag_uncut hfree).symm)
    rw [State.carveChunk, State.setBump, notices_setPrivate, notices_setChunk]
  · exact fun a ha => hmono _ _ ((h.fits.threads t).stack c a ha)
  · intro a ha
    rw [cellChunk_of_mem ha]
    exact hcut
  · intro ch
    have hsum : counting ((s.carveChunk t c slot).setLocked none) ch = counting s ch :=
      Finset.sum_congr rfl fun t' _ => congrArg (Pc.counting ch) (pc_setPrivate t')
    have hslots : ((s.carveChunk t c slot).setLocked none).slots =
      (s.setChunk slot ⟨some c, cells c, [], 0, false⟩).slots := rfl
    rw [Counted, hsum, hslots]
    by_cases heq : ch = slot
    · rw [heq, slots_setChunk_self, h.counting_uncut hfree]
      rfl
    · rw [slots_setChunk_ne heq]
      have hold := h.counted ch
      rw [Counted, hl] at hold
      exact hold

/-- No freeing thread has counted its cell into the chunk and not set the flag yet. -/
def Unseen (s : State n) (ch : Nat) : Prop := ∀ t, (s.threads t).pc.announcing ≠ some ch
  deriving Decidable

/-- All the cells of a chunk whose count is full are on its list. -/
theorem Inv.drained_home (h : Inv s) (hcut : s.cut ch = some c)
    (hfull : (s.slots ch).nfree = (s.slots ch).cells)
    (hpending : (s.locked.map (Locked.pending ch)).getD 0 = 0) :
    counting s ch = 0 ∧ ∀ a ∈ cellsOf ch c, a ∈ (s.slots ch).freeHead := by
  have hcounted := h.counted ch
  have hle := h.length_home_le hcut
  rw [Counted, hpending, hfull] at hcounted
  have hsub : (s.slots ch).freeHead ⊆ cellsOf ch c := fun a ha => h.mem_cellsOf hcut ha
  have hsubperm := subperm_of_subset (h.places.nodup (.home ch)) hsub
  have hlen : (cellsOf ch c).length ≤ (s.slots ch).freeHead.length := by
    rw [length_cellsOf, ← h.fits.cells ch c hcut]
    omega
  exact ⟨by omega, fun a ha => (hsubperm.perm_of_length_le hlen).mem_iff.mpr ha⟩

theorem slots_chunkRetire_ne {ch' : Nat} (h : ch' ≠ ch) :
    (s.chunkRetire ch).slots ch' = s.slots ch' := slots_setChunk_ne h

theorem cut_chunkRetire_ne {ch' : Nat} (h : ch' ≠ ch) : (s.chunkRetire ch).cut ch' = s.cut ch' :=
  cut_setChunk_ne h

theorem cur_chunkRetire {c' : Cls} {ch' : Nat} (h : Inv s) (hcut : s.cut ch = some c)
    (hmem : ch' ∈ (s.chunkRetire ch).cur c') : ch' ∈ s.cur c' ∧ ch' ≠ ch := by
  -- only the class of the chunk can have it as its current one
  have hclass : ch ∈ s.cur c' → c' = c := fun hcur =>
    some.inj ((h.fits.cur c' ch hcur).symm.trans hcut)
  have hcls : (s.slots ch).cls = some c := hcut
  simp only [State.chunkRetire, hcls] at hmem
  split at hmem
  · by_cases heq : c' = c
    · rw [heq, update_self] at hmem
      cases hmem
    · rw [update_of_ne heq] at hmem
      exact ⟨hmem, fun hch => heq (hclass (hch ▸ hmem))⟩
  · rename_i hcur
    refine ⟨hmem, fun hch => ?_⟩
    subst hch
    rw [hclass hmem] at hmem
    exact hcur hmem

theorem contents_chunkRetire (l' : Option (Locked n)) (hcell : l'.bind Locked.cell = none)
    (hcell' : s.locked.bind Locked.cell = none) (p : Place n) :
    contents ((s.chunkRetire ch).setLocked l') p = if p = .home ch then [] else contents s p := by
  by_cases hp : p = .popped
  · rw [hp, contents_setLocked, if_pos rfl, hcell, if_neg (by simp), contents_popped, hcell']
  · rw [contents_setLocked, if_neg hp]
    show contents (s.setChunk ch
      { s.slots ch with cls := none, freeHead := [], nfree := 0, inAvail := false }) p = _
    rw [contents_setChunk]

/-- What a thread has in hand is of another chunk than the one retired. -/
theorem Inv.pc_retire (h : Inv s) (hzero : counting s ch = 0) (hunseen : Unseen s ch)
    (hout : ∀ q, q ≠ .locked → ch ∉ Arena.notices s q)
    (hhand : ∀ a ∈ contents s (.hand t), cellChunk a ≠ ch) :
    ((s.threads t).pc).Fits (s.chunkRetire ch).cut := by
  have hpc := (h.fits.threads t).pc
  cases hat : (s.threads t).pc with
  | idle => trivial
  | push cell c' =>
    rw [hat] at hpc
    have hne := hhand cell (by simp [contents, hat, Pc.cell])
    exact (cut_chunkRetire_ne hne).trans hpc
  | count ch' c' =>
    rw [hat] at hpc
    have hne : ch' ≠ ch := by
      intro heq
      -- a cell it has still to count would keep the chunk from being full
      have hone := counting_le (s := s) t ch
      rw [hat, heq, hzero, Pc.counting, if_pos rfl] at hone
      exact absurd hone (by decide)
    exact (cut_chunkRetire_ne hne).trans hpc
  | announce ch' c' =>
    rw [hat] at hpc
    have hne : ch' ≠ ch := fun heq => hunseen t (by rw [hat, heq]; rfl)
    exact (cut_chunkRetire_ne hne).trans hpc
  | link ch' c' =>
    rw [hat] at hpc
    have hne : ch' ≠ ch := by
      intro heq
      exact hout (.link t) (by simp) (by simp [Arena.notices, hat, Pc.linking, heq])
    exact (cut_chunkRetire_ne hne).trans hpc

/-- `chunk_retire`: all its cells are at home, and nobody has it in hand. -/
theorem Inv.retire {l' : Locked n} (h : Inv s) (hl : s.locked = some l) (hcell : l.cell = none)
    (hpending : ∀ ch, l.pending ch = 0) (hcut : s.cut ch = some c)
    (hfull : (s.slots ch).nfree = (s.slots ch).cells) (hunseen : Unseen s ch)
    (hout : ∀ q, q ≠ .locked → ch ∉ Arena.notices s q) (hcell' : l'.cell = none)
    (hpending' : ∀ ch, l'.pending ch = 0)
    (hnotices : Shelved (Arena.notices ((s.chunkRetire ch).setLocked (some l')))
      fun ch' => ((s.chunkRetire ch).slots ch').inAvail = true)
    (hfits : l'.Fits (s.chunkRetire ch).cut) (hready : Ready (s.chunkRetire ch) l') :
    Inv ((s.chunkRetire ch).setLocked (some l')) := by
  obtain ⟨hzero, hall⟩ := h.drained_home hcut hfull (by rw [hl]; exact hpending ch)
  have hself : (s.chunkRetire ch).cut ch = none := cut_setChunk_self
  -- a cell that is not at home is of another chunk
  have haway : ∀ p a, p ≠ .home ch → a ∈ contents s p → cellChunk a ≠ ch := by
    intro p a hp ha heq
    obtain ⟨c', hc', hmem⟩ := h.places.mem ha
    rw [heq] at hc' hmem
    obtain rfl := some.inj (hc'.symm.trans hcut)
    exact hp (h.places.one p (.home ch) a ha (hall a hmem))
  refine ⟨?_, hnotices, ⟨?_, fun t => ⟨?_, ?_, ?_⟩, forall_mem_some hfits, ?_, ?_, ?_, ?_⟩, ?_,
    forall_mem_some hready⟩
  · have hcontents : ∀ p, contents ((s.chunkRetire ch).setLocked (some l')) p =
        if p = .home ch then [] else contents s p :=
      contents_chunkRetire (some l') hcell' (by rw [hl]; exact hcell)
    refine h.places.take (.home ch) ((s.slots ch).freeHead) ?_ (fun r hr => ?_) fun a => ⟨?_, ?_⟩
    · rw [hcontents, if_pos rfl, append_nil]
      exact Perm.refl _
    · rw [hcontents, if_neg hr]
    · rintro ⟨c', hc', ha⟩
      have hne : cellChunk a ≠ ch := ne_of_cut hc' hself
      exact ⟨⟨c', (cut_chunkRetire_ne hne).symm.trans hc', ha⟩,
        fun hmem => hne (h.fits.home ch a hmem)⟩
    · rintro ⟨⟨c', hc', ha⟩, hnot⟩
      have hne : cellChunk a ≠ ch := by
        intro heq
        rw [heq] at hc' ha
        obtain rfl := some.inj (hc'.symm.trans hcut)
        exact hnot (hall a ha)
      exact ⟨c', (cut_chunkRetire_ne hne).trans hc', ha⟩
  -- what is not at home is of another chunk, whose class stays
  · intro p hp
    have hne := haway .held p.1 (by simp) (mem_map_of_mem hp)
    exact (cut_chunkRetire_ne hne).trans (h.fits.held p hp)
  · intro c' a ha
    have hne := haway (.stack t c') a (by simp) ha
    exact (cut_chunkRetire_ne hne).trans ((h.fits.threads t).stack c' a ha)
  · intro c' a ha
    have hne := haway (.bump t c') a (by simp) ha
    exact (cut_chunkRetire_ne hne).trans ((h.fits.threads t).bump c' a ha)
  · exact h.pc_retire hzero hunseen hout fun a => haway (.hand t) a (by simp)
  · intro c' ch' hch'
    have hne : ch' ≠ ch := fun heq => hout (.avail c') (by simp) (heq ▸ hch')
    exact (cut_chunkRetire_ne hne).trans (h.fits.avail c' ch' hch')
  · intro c' ch' hch'
    obtain ⟨hcur, hne⟩ := cur_chunkRetire h hcut hch'
    exact (cut_chunkRetire_ne hne).trans (h.fits.cur c' ch' hcur)
  · intro ch' a ha
    by_cases heq : ch' = ch
    · have hnil : ((s.chunkRetire ch).slots ch).freeHead = [] :=
        congrArg Chunk.freeHead slots_setChunk_self
      rw [heq] at ha
      cases hnil ▸ ha
    · exact h.fits.home ch' a (slots_chunkRetire_ne heq ▸ ha)
  · intro ch' c' hc'
    have hne : ch' ≠ ch := ne_of_cut hc' hself
    exact (congrArg Chunk.cells (slots_chunkRetire_ne hne)).trans
      (h.fits.cells ch' c' ((cut_chunkRetire_ne hne).symm.trans hc'))
  · intro ch'
    show ((s.chunkRetire ch).slots ch').nfree + (counting s ch' : Int) =
      ((s.chunkRetire ch).slots ch').freeHead.length + (l'.pending ch' : Int)
    rw [hpending']
    by_cases heq : ch' = ch
    · have hself' : (s.chunkRetire ch).slots ch =
        { s.slots ch with cls := none, freeHead := [], nfree := 0, inAvail := false } :=
        slots_setChunk_self
      rw [heq, hzero, hself']
      rfl
    · have hold := h.counted ch'
      rw [Counted, hl] at hold
      simp only [map_some, getD_some, hpending] at hold
      rw [slots_chunkRetire_ne heq]
      exact hold

end Slots

/-! ### Runs -/

section Runs

variable {keep : Nat} {s s' : State n} {slot : Option Nat} {l : Locked n}

/-- The chunk that the tick is about to retire is in no freeing thread's hand, and was not announced
since the tick read its flag. -/
def Locked.Quiet (s : State n) : Locked n → Prop
  | .decided _ _ _ ch true _ => Unseen s ch
  | .drained _ _ ch => Unseen s ch ∧ (s.slots ch).inAvail = false
  | _ => True

def Quiet (s : State n) : Act n → Prop
  | .locked _ => ∀ l ∈ s.locked, l.Quiet s
  | _ => True

instance (s : State n) (l : Locked n) : Decidable (l.Quiet s) := by
  unfold Locked.Quiet
  split <;> infer_instance

instance (s : State n) : DecidablePred (Quiet s) := fun a => by
  unfold Quiet
  split <;> infer_instance

variable {c : Cls}

theorem Inv.lockedRefill {t : Fin n} {got : Nat} (h : Inv s)
    (hl : s.locked = some (.refill t c got))
    (hstep : lockedStep keep slot s (.refill t c got) = some s') : Inv s' := by
  have hbare : Bare s.locked := hl ▸ ⟨rfl, rfl, fun _ => rfl⟩
  simp only [lockedStep] at hstep
  split at hstep
  · split at hstep
    · rename_i ch hcur
      have hch : s.cut ch = some c := h.fits.cur c ch hcur
      split at hstep
      · rename_i cell rest hhead
        cases hstep
        have hhome : cellChunk cell = ch := h.fits.home ch cell (hhead ▸ mem_cons_self)
        exact h.popCell hbare hhead ⟨rfl, rfl, fun _ => rfl⟩ ⟨hch, hhome⟩ (h.ready _ hl)
      · cases hstep
        exact ⟨h.places, h.notices, h.fits.setCur nofun, h.counted, h.ready⟩
    · rename_i ch rest hcur havail
      cases hstep
      exact h.popAvail hl havail
    · split at hstep
      · split at hstep
        · obtain ⟨hfree, ⟨⟩⟩ := ite_none_right_eq_some.mp hstep
          exact h.carve hl hfree
        · cases hstep
          exact h.release hbare
      · cases hstep
        exact h.release hbare
  · cases hstep
    exact h.release hbare

variable {ch : Nat}

/-- The tick retires a chunk of the avail stack. -/
theorem Inv.retireDecided {kept : Nat} {chs : List Nat} (h : Inv s)
    (hl : s.locked = some (.decided c cs kept ch true chs)) (hunseen : Unseen s ch) :
    Inv ((s.chunkRetire ch).setLocked (some (.scan c cs kept chs))) := by
  obtain ⟨hch, hchs⟩ := h.fits.locked _ hl
  have hlocked : Arena.notices s .locked = ch :: chs := by
    rw [notices_locked, hl]
    rfl
  have hnodup : ch ∉ chs := by
    have hnd := h.notices.nodup .locked
    rw [hlocked] at hnd
    exact (nodup_cons.mp hnd).1
  refine h.retire hl rfl (fun _ => rfl) hch (h.ready _ hl) hunseen (fun q hq hmem => ?_) rfl
    (fun _ => rfl) ?_ (fun ch' hmem => ?_) trivial
  · exact hq (h.notices.one q .locked ch hmem (hlocked ▸ mem_cons_self))
  · refine h.notices.take .locked [ch] ?_ (fun r hr => ?_) fun ch' => ?_
    · rw [hlocked, notices_setLocked, if_pos rfl]
      exact Perm.refl _
    · rw [notices_setLocked, if_neg hr]
      rfl
    · by_cases heq : ch' = ch
      · have hself : ((s.chunkRetire ch).slots ch).inAvail = false :=
          congrArg Chunk.inAvail slots_setChunk_self
        rw [heq, hself]
        simp
      · rw [slots_chunkRetire_ne heq]
        simp [heq]
  · have hne : ch' ≠ ch := fun heq => hnodup (heq ▸ hmem)
    exact (cut_setChunk_ne hne).trans (hchs ch' hmem)

/-- The tick retires the class's current chunk. -/
theorem Inv.retireDrained (h : Inv s) (hl : s.locked = some (.drained c cs ch))
    (hunseen : Unseen s ch) (hflag : (s.slots ch).inAvail = false) :
    Inv ((s.chunkRetire ch).setLocked (some (.tick cs))) := by
  have hnone : ∀ q, ch ∉ Arena.notices s q := by
    intro q hq
    cases hflag.symm.trans (h.notices.mem hq)
  refine h.retire hl rfl (fun _ => rfl) (h.fits.locked _ hl) (h.ready _ hl) hunseen
    (fun q _ => hnone q) rfl (fun _ => rfl) ?_ trivial trivial
  exact h.notices.congr (notices_relock (by rw [hl]; rfl) fun _ _ => rfl)
    (inAvail_setChunk hflag.symm)

theorem Inv.locked (h : Inv s) (hl : s.locked = some l) (hquiet : Quiet s (.locked slot))
    (hstep : lockedStep keep slot s l = some s') : Inv s' := by
  cases l with
  | refill t c got => exact h.lockedRefill hl hstep
  | availPopped t c got ch =>
    cases hstep
    exact h.unflag hl
  | cellPopped t c got ch cell =>
    cases hstep
    exact h.settleStack hl
  | densePopped c ch cell =>
    cases hstep
    exact h.settleHeld hl
  | tick cs =>
    cases cs with
    | nil =>
      cases hstep
      exact h.release (hl ▸ ⟨rfl, rfl, fun _ => rfl⟩)
    | cons c cs =>
      cases hstep
      exact h.takeAvail hl
  | scan c cs kept chs =>
    have hfits := h.fits.locked _ hl
    cases chs with
    | nil =>
      cases hstep
      exact h.relock_bare (hl ▸ ⟨rfl, rfl, fun _ => rfl⟩) ⟨rfl, rfl, fun _ => rfl⟩
        (forall_mem_some trivial) (forall_mem_some trivial)
    | cons ch chs =>
      have hrelock : ∀ kept retire, Ready s (.decided c cs kept ch retire chs) →
          Inv (s.setLocked (some (.decided c cs kept ch retire chs))) := fun kept retire hready =>
        h.relock (by rw [hl]; rfl) (by rw [hl]; rfl) (fun _ => by rw [hl]; rfl)
          (forall_mem_some (forall_mem_cons.mp hfits)) (forall_mem_some hready)
      simp only [lockedStep] at hstep
      split at hstep
      · rename_i hfull
        cases hstep
        refine hrelock _ _ ?_
        cases decide (keep ≤ kept) with
        | false => trivial
        | true => exact hfull
      · cases hstep
        exact hrelock _ _ trivial
  | decided c cs kept ch retire chs =>
    cases retire with
    | false =>
      cases hstep
      exact h.pushBack hl
    | true =>
      cases hstep
      exact h.retireDecided hl (hquiet _ hl)
  | current c cs kept =>
    have hbare : Bare s.locked := hl ▸ ⟨rfl, rfl, fun _ => rfl⟩
    have htick : Inv (s.setLocked (some (.tick cs))) :=
      h.relock_bare hbare ⟨rfl, rfl, fun _ => rfl⟩ (forall_mem_some trivial)
        (forall_mem_some trivial)
    simp only [lockedStep] at hstep
    split at hstep
    · rename_i ch hcur
      split at hstep
      · cases hstep
        exact htick
      · cases hstep
        exact h.relock_bare hbare ⟨rfl, rfl, fun _ => rfl⟩
          (forall_mem_some (h.fits.cur c ch hcur)) (forall_mem_some trivial)
    · cases hstep
      exact htick
  | unflagged c cs kept ch =>
    have hbare : Bare s.locked := hl ▸ ⟨rfl, rfl, fun _ => rfl⟩
    have hch : s.cut ch = some c := h.fits.locked _ hl
    simp only [lockedStep] at hstep
    split at hstep
    · rename_i hfull
      cases hstep
      exact h.relock_bare hbare ⟨rfl, rfl, fun _ => rfl⟩ (forall_mem_some hch)
        (forall_mem_some hfull.1)
    · cases hstep
      exact h.relock_bare hbare ⟨rfl, rfl, fun _ => rfl⟩ (forall_mem_some trivial)
        (forall_mem_some trivial)
  | drained c cs ch =>
    cases hstep
    obtain ⟨hunseen, hflag⟩ := hquiet _ hl
    exact h.retireDrained hl hunseen hflag

theorem Inv.dense (h : Inv s) (hstep : step keep s (.dense c ch) = some s') : Inv s' := by
  obtain ⟨hpick, hstep⟩ := ite_none_right_eq_some.mp hstep
  split at hstep
  · rename_i cell rest hhead
    cases hstep
    have hbare : Bare s.locked := hpick.1 ▸ bare_none
    have hhome : cellChunk cell = ch := h.fits.home ch cell (hhead ▸ mem_cons_self)
    exact h.popCell hbare hhead ⟨rfl, rfl, fun _ => rfl⟩ ⟨h.fits.avail c ch hpick.2.1, hhome⟩
      trivial
  · cases hstep

theorem Inv.step {a : Act n} (h : Inv s) (hquiet : Quiet s a) (hstep : step keep s a = some s') :
    Inv s' := by
  cases a with
  | dense c ch => exact h.dense hstep
  | home t => exact h.home hstep
  | locked slot =>
    obtain ⟨l, hl, hstep⟩ := bind_eq_some_iff.mp hstep
    exact h.locked hl hquiet hstep
  | takeStack t c =>
    obtain ⟨hidle, hstep⟩ := ite_none_right_eq_some.mp hstep
    split at hstep
    · rename_i cell rest hstack
      cases hstep
      have hc : s.cut (cellChunk cell) = some c :=
        (h.fits.threads t).stack c cell (hstack ▸ mem_cons_self)
      exact h.hold hidle (taken_stack h hstack) (by simp) hc
    · cases hstep
  | takeBump t c =>
    obtain ⟨hidle, hstep⟩ := ite_none_right_eq_some.mp hstep
    split at hstep
    · rename_i cell rest hbump
      cases hstep
      have hc : s.cut (cellChunk cell) = some c :=
        (h.fits.threads t).bump c cell (hbump ▸ mem_cons_self)
      exact h.hold hidle.1 (taken_bump h hbump) (by simp) hc
    · cases hstep
  | refill t c =>
    obtain ⟨hidle, hstep⟩ := ite_none_right_eq_some.mp hstep
    cases hstep
    exact h.relock_bare (hidle.2.2.2 ▸ bare_none) ⟨rfl, rfl, fun _ => rfl⟩
      (forall_mem_some trivial) (forall_mem_some hidle.2.2.1)
  | tick =>
    obtain ⟨hnone, hstep⟩ := ite_none_right_eq_some.mp hstep
    cases hstep
    exact h.relock_bare (hnone ▸ bare_none) ⟨rfl, rfl, fun _ => rfl⟩ (forall_mem_some trivial)
      (forall_mem_some trivial)
  | free t cell c =>
    obtain ⟨hidle, hstep⟩ := ite_none_right_eq_some.mp hstep
    obtain ⟨c', hc', rfl⟩ := map_eq_some_iff.mp hstep
    exact h.stacked hidle.1 (taken_held h t hidle.2) (by simp) hc'
  | freeGlobal t cell c =>
    obtain ⟨hidle, hstep⟩ := ite_none_right_eq_some.mp hstep
    exact h.cellHome hidle.1 (taken_held h t hidle.2) (by simp) hstep
  | donate t c =>
    obtain ⟨hidle, hstep⟩ := ite_none_right_eq_some.mp hstep
    split at hstep
    · rename_i cell rest hstack
      exact h.cellHome hidle (taken_stack h hstack) (by simp) hstep
    · cases hstep
  | bumpHome t c =>
    obtain ⟨hidle, hstep⟩ := ite_none_right_eq_some.mp hstep
    split at hstep
    · rename_i cell rest hbump
      exact h.cellHome hidle (taken_bump h hbump) (by simp) hstep
    · cases hstep

theorem fits_init : Fits (init : State n) where
  held := forall_mem_nil _
  threads _ := ⟨fun _ => forall_mem_nil _, fun _ => forall_mem_nil _, trivial⟩
  locked _ hl := nomatch hl
  avail _ := forall_mem_nil _
  cur _ _ hch := nomatch hch
  home _ := forall_mem_nil _
  cells _ _ hc := nomatch hc

theorem inv_init : Inv (init : State n) where
  places := Shelved.empty (fun p => by cases p <;> rfl) fun _ ⟨_, hc, _⟩ => nomatch hc
  notices := Shelved.empty (fun q => by cases q <;> rfl) nofun
  fits := fits_init
  counted ch := by
    have hzero : counting (init : State n) ch = 0 := Finset.sum_eq_zero fun _ _ => rfl
    rw [Counted, hzero]
    rfl
  ready _ hl := nomatch hl

/-- Two cells in the hands of callers do not overlap. -/
theorem Inv.apart_held (h : Inv s) :
    s.held.Pairwise fun p q => Apart p.1 q.1 (cellSize p.2) (cellSize q.2) := by
  have hnodup : s.held.Pairwise fun p q => p.1 ≠ q.1 := pairwise_map.mp (h.places.nodup .held)
  refine hnodup.imp_of_mem fun {p q} hp hq hne => ?_
  have hcell : ∀ p ∈ s.held, p.1 ∈ cellsOf (cellChunk p.1) p.2 := by
    intro p hp
    obtain ⟨c, hc, hmem⟩ := h.places.mem (p := .held) (mem_map_of_mem hp)
    rwa [some.inj (hc.symm.trans (h.fits.held p hp))] at hmem
  by_cases heq : cellChunk p.1 = cellChunk q.1
  · have hcls : p.2 = q.2 := by
      have hp' := h.fits.held p hp
      rw [heq, h.fits.held q hq] at hp'
      exact (some.inj hp').symm
    have hp' := hcell p hp
    rw [heq, hcls] at hp'
    rw [hcls]
    exact apart_of_mem hp' (hcell q hq) hne
  · exact apart_of_slots (hcell p hp) (hcell q hq) heq

/-- At every moment each cell of a chunk is in one place and once there, an avail stack has only
chunks cut for its class and each once, a slot that is not cut is on none of them, and the cells in
the hands of callers do not overlap; as long as no freeing thread has counted its cell into a chunk
and not announced it yet when the tick retires the chunk. -/
theorem cell_in_one_place (keep : Nat) (acts : List (Act n)) (s : State n)
    (hrun : run (step keep) init acts = some s) (hquiet : Along (step keep) Quiet init acts) :
    (∀ a, IsCell s.cut a → ∃! p, a ∈ contents s p) ∧
    (∀ p, (contents s p).Nodup) ∧
    (∀ c, (s.avail c).Nodup ∧ ∀ ch ∈ s.avail c, s.cut ch = some c) ∧
    (∀ ch, s.cut ch = none → ∀ c, ch ∉ s.avail c) ∧
    s.held.Pairwise fun p q => Apart p.1 q.1 (cellSize p.2) (cellSize q.2) := by
  have hkept : ∀ (s : State n) a s', Inv s → Quiet s a → step keep s a = some s' → Inv s' :=
    fun _ _ _ h hq hs => h.step hq hs
  have h : Inv s := run_invariant hkept inv_init hquiet hrun
  refine ⟨fun a ha => ?_, h.places.nodup, fun c => ⟨h.notices.nodup (.avail c), h.fits.avail c⟩,
    fun ch hcut c hch => ?_, h.apart_held⟩
  · obtain ⟨p, hp⟩ := (h.places.all a).mpr ha
    exact ⟨p, hp, fun q hq => h.places.one q p a hq hp⟩
  · cases hcut.symm.trans (h.fits.avail c ch hch)

/-- The holder of the lock goes on for a while. -/
def goOn (k : Nat) : List (Act n) := List.replicate k (.locked none)

/-- A thread goes on in `cell_home`. -/
def homeward (t : Fin n) (k : Nat) : List (Act n) := List.replicate k (.home t)

/-- A chunk of two cells is cut, both are sent home, and the tick retires it. -/
def retired : List (Act 1) := List.flatten [
  [.refill 0 25, .locked (some 3), .takeBump 0 25, .takeBump 0 25],
  [.freeGlobal 0 786496 25], homeward 0 4,
  [.freeGlobal 0 884800 25], homeward 0 2,
  [.tick], goOn 79]

set_option maxRecDepth 2000 in
theorem cell_in_one_place_retired : ∃ s : State 1, run (step 0) init retired = some s ∧
    s.cut 3 = none ∧ ∀ c, 3 ∉ s.avail c := by
  have hrun : ((run (step 0) init retired).map fun s => s.cut 3) = some none := by decide
  obtain ⟨s, hs, hcut⟩ := map_eq_some_iff.mp hrun
  have hquiet : Along (step 0) Quiet init retired := by decide
  exact ⟨s, hs, hcut, (cell_in_one_place 0 retired s hs hquiet).2.2.2.1 3 hcut⟩

/-- Thread 1 counts the last cell of a chunk home and stops before it sets the flag. The others
empty and fill the chunk again, the tick retires it, and thread 1 goes on: the free slot is on the
avail stack of class 25. It is cut for class 24, and a cell of that class that goes home is given to
one who asks for class 25. -/
def overtaken : List (Act 3) := List.flatten [
  [.refill 0 25, .locked (some 0), .takeBump 0 25, .takeBump 0 25],
  [.freeGlobal 1 64 25], homeward 1 4,
  [.refill 0 25], goOn 4,
  [.freeGlobal 1 98368 25], homeward 1 2,
  goOn 4, [.takeStack 0 25, .takeStack 0 25],
  [.freeGlobal 2 64 25], homeward 2 4,
  [.freeGlobal 2 98368 25], homeward 2 2,
  [.tick], goOn 84,
  homeward 1 2,
  [.refill 2 24, .locked (some 0), .takeBump 2 24, .takeBump 2 24],
  [.freeGlobal 2 64 24], homeward 2 4,
  [.refill 0 25], goOn 6, [.takeStack 0 25]]

set_option maxRecDepth 4000 in
theorem overlapping_cells_held :
    (run (step 0) init overtaken).map State.held = some [(64, 25), (65600, 24)] ∧
      ¬ Apart 64 65600 (cellSize 25) (cellSize 24) := by
  refine ⟨by decide, ?_⟩
  rintro (hle | hle) <;> exact absurd hle (by decide)

end Runs

end Perfcached.Arena
