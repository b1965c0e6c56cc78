import Perfcached.Cluster.Ledger

/-!
# Perfcached.Cluster.Acknowledge

The calls on one numbering space.

`Sound` says of a space that its marks are those of its ledger. It holds of a space that is made
or restored (`sound_restore`), and `clack_applied`, `clack_synced` and `clack_floor` keep it
(`Sound.applied`, `Sound.sync`, `Sound.floor`). The answers and the gap are read off it.
-/

namespace Perfcached.Cluster

open Window List Nat

/-! ### One space -/

theorem sound_restore (mode : Bool) (synced : Nat) (sp : Space) (mark : Nat) :
    Sound mode synced ⟨mark, [], [], []⟩ (sp.restore mark) where
  held := ⟨shows_empty nofun, nofun, rfl, nodup_nil⟩
  contiguous := ⟨fun _ _ hk => .inl (.inl hk),
    (fun _ hk => hk.elim id fun ⟨_, hf, _⟩ => nomatch hf), not_mem_nil⟩
  highest := by
    refine ⟨⟨.inl rfl, ?_⟩, le_rfl, nofun⟩
    rintro n (rfl | hn | hn)
    · exact le_rfl
    · cases hn
    · cases hn
  weighed := ⟨(nofun), nofun, fun _ _ => ⟨zero_le _, zero_le _⟩⟩
  queue := ⟨le_rfl, fun _ _ _ hk => .inl (.inl hk), nofun, Pairwise.nil, fun _ => rfl⟩
  waits := .inl rfl

variable {mode : Bool} {synced : Nat}

theorem Sound.sync {x : Nat} {l : Ledger} {sp : Space} (h : Sound mode synced l sp)
    (hx : synced ≤ x) : Sound mode x l (sp.sync x) :=
  have hq := h.queue.sync hx h.contiguous.covered
  { held := ⟨h.held.shows, h.held.bound, h.held.count, h.held.nodup⟩
    contiguous := h.contiguous
    highest := h.highest
    weighed := h.weighed
    queue := hq
    waits := h.waits.sync x hq.le }

/-! ### A delete is applied -/

variable {a : Clack} {l : Ledger} {sp : Space}

variable {seq : Nat}

/-- A repeat is answered for the numbers up to the mark and the taken ones. -/
theorem Held.dup_iff (h : Held sp l.numbers) :
    (seq ≤ sp.mark ∨ (seq - sp.mark ≤ clackWin ∧ sp.bit seq = true)) ↔
      seq ≤ sp.mark ∨ seq ∈ l.numbers := by
  rcases lt_or_ge sp.mark seq with hlt | hge
  · refine or_congr_right ⟨fun ⟨hwin, hbit⟩ => ?_, fun hmem => ?_⟩
    · exact (h.bit_iff hlt (by omega)).mp hbit
    · have hbound := h.bound seq hmem
      exact ⟨by omega, (h.bit_iff hlt hbound).mpr hmem⟩
  · exact iff_of_true (.inl hge) (.inl hge)

theorem Sound.called (h : Sound mode synced l sp) (seq walseq : Nat) {r : Answer}
    (hr : r = .dup ∨ r = .far) :
    Sound mode synced (l.note seq walseq r) { sp with hi := max sp.hi seq } := by
  have hl : l.note seq walseq r = { l with called := l.called ++ [seq] } := by
    rcases hr with rfl | rfl <;> rfl
  have hgreatest := isGreatest_seen h.highest.greatest (l.seen_note seq walseq (.inr hr))
  rw [hl] at hgreatest ⊢
  exact
    { held := ⟨h.held.shows, h.held.bound, h.held.count, h.held.nodup⟩
      contiguous := ⟨h.contiguous.covered, h.contiguous.inside, h.contiguous.next⟩
      highest := ⟨hgreatest, le_trans h.highest.mark_le (le_max_left _ _),
        fun n hn => le_trans (h.highest.taken n hn) (le_max_left _ _)⟩
      weighed := ⟨h.weighed.ahead, h.weighed.upto, h.weighed.given⟩
      queue := ⟨h.queue.le, h.queue.durable, h.queue.pending, h.queue.sorted, h.queue.immediate⟩
      waits := h.waits }

theorem Highest.note {mark hi mark' : Nat} (h : Highest l mark hi) (seq walseq : Nat)
    (hm : mark' ≤ max hi seq) : Highest (l.note seq walseq .new) mark' (max hi seq) where
  greatest := isGreatest_seen h.greatest (l.seen_note seq walseq (.inl rfl))
  mark_le := hm
  taken := by
    intro n hn
    rw [Ledger.numbers_note_new] at hn
    rcases mem_append.mp hn with hn | hn
    · exact le_trans (h.taken n hn) (le_max_left _ _)
    · rw [mem_singleton.mp hn]
      exact le_max_right _ _

/-- A number above the mark is taken: no pair that waits speaks of it. -/
theorem Queue.note (h : Queue mode synced l sp) (hseq : sp.mark < seq) (walseq : Nat) :
    Queue mode synced (l.note seq walseq .new) sp where
  le := h.le
  durable := by
    intro hmode k hk hk'
    exact (h.durable hmode k hk hk').imp id fun ⟨w, hw, hle⟩ => ⟨w, mem_append_left _ hw, hle⟩
  pending := by
    intro p hp
    obtain ⟨hmark, hlate, hw, hat⟩ := h.pending p hp
    refine ⟨hmark, hlate, hw, fun q hq hle => ?_⟩
    rcases mem_append.mp hq with hq | hq
    · exact hat q hq hle
    · obtain rfl := mem_singleton.mp hq
      omega
  sorted := h.sorted
  immediate := h.immediate

theorem Sound.hold (h : Sound mode synced l sp) (hlt : sp.mark < seq)
    (hwin : seq ≤ sp.mark + clackWin) (hnew : seq ∉ l.numbers) (hne : seq ≠ sp.mark + 1)
    (walseq : Nat) :
    Sound mode synced (l.note seq walseq .new)
      { sp.bitSet seq true with
        nahead := sp.nahead + 1, hi := max sp.hi seq, wahead := max sp.wahead walseq } where
  held := by
    have hheld := h.held.hold hlt hwin hnew
    rw [← Ledger.numbers_note_new l seq walseq] at hheld
    exact ⟨hheld.shows, hheld.bound, hheld.count, hheld.nodup⟩
  contiguous := h.contiguous.ahead hne
  highest := h.highest.note seq walseq (le_trans h.highest.mark_le (le_max_left _ _))
  weighed := h.weighed.hold hlt
  queue := by
    have hq := h.queue.note hlt walseq
    exact ⟨hq.le, hq.durable, hq.pending, hq.sorted, hq.immediate⟩
  waits := h.waits

section

variable (h : Sound a.durableOnApply a.synced l sp)
include h

/-- The next number in line is taken, and what it connects. -/
theorem Sound.next (walseq : Nat) :
    Counted a.durableOnApply a.synced (l.note (sp.mark + 1) walseq .new)
      (let c := Space.connect { sp with hi := max sp.hi (sp.mark + 1), mark := sp.mark + 1 }
      { c.1 with
        wahead := if c.1.nahead = 0 then 0 else c.1.wahead
        wmax := if c.2 then max (max walseq sp.wmax) c.1.wahead else max walseq sp.wmax }) := by
  have hnew := h.contiguous.next
  have hheld := h.held.next hnew
  rw [← Ledger.numbers_note_new l (sp.mark + 1) walseq] at hheld
  have hq := h.queue.note (lt_succ_self sp.mark) walseq
  apply counted_connect
  · exact ⟨hheld.shows, hheld.bound, hheld.count, hheld.nodup⟩
  · intro k hk hk'
    rcases lt_or_ge sp.mark k with hlt | hge
    · obtain rfl : k = sp.mark + 1 := le_antisymm hk' hlt
      right
      rw [Ledger.numbers_note_new]
      exact mem_append_right _ (mem_singleton_self _)
    · refine (h.contiguous.covered k hk hge).imp id fun hmem => ?_
      rw [Ledger.numbers_note_new]
      exact mem_append_left _ hmem
  · exact fun k hk => le_succ_of_le (h.contiguous.inside k hk)
  · exact h.highest.note (sp.mark + 1) walseq (le_max_right _ _)
  · exact h.weighed.next hnew walseq
  · refine ⟨le_succ_of_le hq.le, hq.durable, fun p hp => ?_, hq.sorted, hq.immediate⟩
    obtain ⟨hmark, hlate, hw, hat⟩ := hq.pending p hp
    exact ⟨le_succ_of_le hmark, hlate, le_trans hw (le_max_right _ _), hat⟩

/-- **`clack_applied` keeps the marks sound.** -/
theorem Sound.applied (seq walseq : Nat) :
    Sound a.durableOnApply a.synced (l.note seq walseq (a.appliedTo sp seq walseq).1)
      (a.appliedTo sp seq walseq).2 := by
  unfold Clack.appliedTo
  split
  · rename_i hdup
    have hcalled := h.called seq walseq (.inl rfl)
    have hle : seq ≤ sp.hi :=
      (h.held.dup_iff.mp hdup).elim (fun hle => le_trans hle h.highest.mark_le)
        (h.highest.taken seq)
    rwa [max_eq_left hle] at hcalled
  · rename_i hdup
    rw [h.held.dup_iff, not_or, not_le] at hdup
    dsimp only
    split
    · exact h.called seq walseq (.inr rfl)
    · split
      · exact h.hold hdup.1 (by omega) hdup.2 ‹_› walseq
      · rename_i hnext
        obtain rfl : seq = sp.mark + 1 := Decidable.not_not.mp hnext
        exact (h.next walseq).confirm

/-- Which numbers are answered as repeats and which as too far. -/
theorem Sound.answer (seq walseq : Nat) :
    ((a.appliedTo sp seq walseq).1 = .dup ↔ seq ≤ sp.mark ∨ seq ∈ l.numbers) ∧
      ((a.appliedTo sp seq walseq).1 = .far ↔ sp.mark + clackWin < seq) := by
  have hbound := h.held.bound seq
  unfold Clack.appliedTo
  split
  · rename_i hdup
    have hdup' := h.held.dup_iff.mp hdup
    refine ⟨iff_of_true rfl hdup', iff_of_false nofun ?_⟩
    rcases hdup' with hle | hmem
    · omega
    · omega
  · rename_i hdup
    rw [h.held.dup_iff] at hdup
    dsimp only
    split
    · exact ⟨iff_of_false nofun hdup, iff_of_true rfl (by omega)⟩
    · split <;> exact ⟨iff_of_false nofun hdup, iff_of_false nofun (by omega)⟩

end

/-! ### A floor is given -/

theorem Ledger.inside_floor {r : Answer} (l : Ledger) (floor : Nat) (hr : r ≠ .full) (k : Nat) :
    (l.noteFloor floor r).Inside k ↔ l.Inside k ∨ k ≤ floor := by
  have hl : l.noteFloor floor r = { l with floors := l.floors ++ [floor] } := by
    cases r <;> first | rfl | exact absurd rfl hr
  simp only [hl, Ledger.Inside, mem_append, mem_singleton, or_and_right, exists_or,
    exists_eq_left, or_assoc]

/-- A floor at or below the mark says nothing new. -/
theorem Sound.floor_dup (h : Sound mode synced l sp) {floor : Nat} (hf : floor ≤ sp.mark) :
    Sound mode synced (l.noteFloor floor .dup) sp := by
  have hin := l.inside_floor floor (show Answer.dup ≠ .full by decide)
  have hgreatest := isGreatest_seen h.highest.greatest
    (l.seen_noteFloor floor (show Answer.dup ≠ .full by decide))
  rw [max_eq_left (le_trans hf h.highest.mark_le)] at hgreatest
  refine
    { held := h.held
      contiguous := ⟨fun k hk hk' => ?_, fun k hk => ?_, h.contiguous.next⟩
      highest := ⟨hgreatest, h.highest.mark_le, h.highest.taken⟩
      weighed := ⟨h.weighed.ahead, fun p hp hle => ?_, h.weighed.given⟩
      queue := ⟨h.queue.le, fun hm k hk hk' => ?_, fun p hp => ?_, h.queue.sorted,
        h.queue.immediate⟩
      waits := h.waits }
  · exact (h.contiguous.covered k hk hk').imp (fun hk => (hin k).mpr (.inl hk)) id
  · exact ((hin k).mp hk).elim (h.contiguous.inside k) fun hle => le_trans hle hf
  · exact (h.weighed.upto p hp hle).imp (fun hp => (hin _).mpr (.inl hp)) id
  · exact (h.queue.durable hm k hk hk').imp (fun hk => (hin k).mpr (.inl hk)) id
  · obtain ⟨hmark, hlate, hw, hat⟩ := h.queue.pending p hp
    exact ⟨hmark, hlate, hw, fun q hq hle =>
      (hat q hq hle).imp (fun hq => (hin _).mpr (.inl hq)) id⟩

/-- The space from which `clack_floor` connects what is held. -/
def Space.atFloor (sp : Space) (floor : Nat) : Space :=
  let sp := sp.clearTo floor
  { sp with
    mark := floor
    hi := max sp.hi floor
    dmark := max sp.dmark floor
    pend := sp.pend.filter fun p => floor < p.seq }

section

variable (h : Sound mode synced l sp) {floor : Nat} (hf : sp.mark < floor)
include h hf

/-- No pair that waits is above a floor above the mark. -/
theorem Sound.atFloor_eq :
    sp.atFloor floor =
      { sp.clearTo floor with
        mark := floor, hi := max sp.hi floor, dmark := floor, pend := [] } := by
  obtain ⟨-, hrest⟩ := h.held.clearTo hf
  have hpend : sp.pend.filter (fun p => floor < p.seq) = [] := by
    refine filter_eq_nil_iff.mpr fun p hp => ?_
    have := (h.queue.pending p hp).1
    rw [decide_eq_true_eq]
    omega
  have hd : max sp.dmark floor = floor := max_eq_right (le_trans h.queue.le (le_of_lt hf))
  unfold Space.atFloor
  rw [hrest]
  simp only [hpend, hd]

theorem Sound.floor_connect :
    Counted mode synced (l.noteFloor floor .new) (let c := (sp.atFloor floor).connect
      { c.1 with
        wahead := if c.1.nahead = 0 then 0 else c.1.wahead
        wmax := if c.2 then max sp.wmax c.1.wahead else sp.wmax }) := by
  obtain ⟨hheld, hrest⟩ := h.held.clearTo hf
  have hin := l.inside_floor floor (show Answer.new ≠ .full by decide)
  have hwa : (sp.clearTo floor).wahead = sp.wahead := by rw [hrest]
  rw [h.atFloor_eq hf]
  apply counted_connect
  · exact ⟨hheld.shows, hheld.bound, hheld.count, hheld.nodup⟩
  · exact fun k _ hk => .inl ((hin k).mpr (.inr hk))
  · intro k hk
    refine ((hin k).mp hk).elim (fun hk => ?_) id
    exact le_trans (h.contiguous.inside k hk) (le_of_lt hf)
  · refine ⟨isGreatest_seen h.highest.greatest
      (l.seen_noteFloor floor (show Answer.new ≠ .full by decide)), le_max_right _ _, ?_⟩
    exact fun n hn => le_trans (h.highest.taken n hn) (le_max_left _ _)
  · exact hwa ▸ h.weighed.floor hf
  · exact ⟨le_rfl, fun _ k _ hk => .inl ((hin k).mpr (.inr hk)), nofun,
      Pairwise.nil, fun _ => rfl⟩

theorem Sound.atFloor_connected :
    Connected (sp.atFloor floor) (sp.atFloor floor).connect.1 l.numbers ∧
      ((sp.atFloor floor).connect.2 = true ↔ floor < (sp.atFloor floor).connect.1.mark) := by
  have hheld := (h.held.clearTo hf).1
  have hheld' : Held (sp.atFloor floor) l.numbers := by
    rw [h.atFloor_eq hf]
    exact ⟨hheld.shows, hheld.bound, hheld.count, hheld.nodup⟩
  exact connect_spec hheld'

end

theorem floorTo_of_lt {floor : Nat} (hf : sp.mark < floor) : a.floorTo sp floor = (.new,
      let c := (sp.atFloor floor).connect
      let sp := if c.2 then a.confirm { c.1 with wmax := max c.1.wmax c.1.wahead } else c.1
      { sp with wahead := if sp.nahead = 0 then 0 else sp.wahead }) :=
  if_neg (not_le.mpr hf)

/-- **`clack_floor` keeps the marks sound.** -/
theorem Sound.floor (h : Sound a.durableOnApply a.synced l sp) (floor : Nat) :
    Sound a.durableOnApply a.synced (l.noteFloor floor (a.floorTo sp floor).1)
      (a.floorTo sp floor).2 := by
  rcases lt_or_ge sp.mark floor with hf | hf
  · have hcounted := h.floor_connect hf
    obtain ⟨hc, htook⟩ := h.atFloor_connected hf
    have hrest := (h.held.clearTo hf).2
    have hwmax : (sp.atFloor floor).connect.1.wmax = sp.wmax := by
      rw [hc.rest, h.atFloor_eq hf, hrest]
    rw [floorTo_of_lt hf]
    dsimp only at hcounted ⊢
    cases hc2 : (sp.atFloor floor).connect.2 with
    | true =>
      have hnahead : ∀ sp, (a.confirm sp).nahead = sp.nahead := fun sp => by rw [confirm_rest]
      have hwahead : ∀ sp, (a.confirm sp).wahead = sp.wahead := fun sp => by rw [confirm_rest]
      rw [hc2] at hcounted
      simp only [if_true, hwmax] at hcounted ⊢
      rw [confirm_wahead, hnahead, hwahead]
      exact hcounted.confirm
    | false =>
      rw [hc2] at hcounted
      simp only [Bool.false_eq_true, if_false, ← hwmax] at hcounted ⊢
      refine ⟨hcounted, .inl ?_⟩
      have hmark := mt htook.mpr (by rw [hc2]; exact Bool.false_ne_true)
      have hle := hc.le
      have hd : (sp.atFloor floor).connect.1.dmark = floor := by rw [hc.rest, h.atFloor_eq hf]
      have hm : (sp.atFloor floor).mark = floor := rfl
      dsimp only
      omega
  · have hdup : a.floorTo sp floor = (.dup, sp) := if_pos hf
    rw [hdup]
    exact h.floor_dup hf

/-! ### The durable mark does not go back -/

theorem le_confirm {d : Nat} (hd : d ≤ sp.dmark) (hm : d ≤ sp.mark) : d ≤ (a.confirm sp).dmark := by
  unfold Clack.confirm
  split
  · exact hm
  · split
    · exact hd
    · split
      · exact hd
      · split <;> exact hd

theorem Sound.dmark_le_applied (h : Sound a.durableOnApply a.synced l sp) (seq walseq : Nat) :
    sp.dmark ≤ (a.appliedTo sp seq walseq).2.dmark := by
  unfold Clack.appliedTo
  split
  · exact le_rfl
  · dsimp only
    split
    · exact le_rfl
    · split
      · exact le_rfl
      · rename_i hnext
        obtain rfl : seq = sp.mark + 1 := Decidable.not_not.mp hnext
        have hheld := h.held.next h.contiguous.next
        have hheld' : Held { sp with hi := max sp.hi (sp.mark + 1), mark := sp.mark + 1 }
            (l.numbers ++ [sp.mark + 1]) :=
          ⟨hheld.shows, hheld.bound, hheld.count, hheld.nodup⟩
        have hc := (connect_spec hheld').1
        have hd : (Space.connect
            { sp with hi := max sp.hi (sp.mark + 1), mark := sp.mark + 1 }).1.dmark = sp.dmark := by
          rw [hc.rest]
        exact le_confirm (le_of_eq hd.symm) (le_trans (le_succ_of_le h.queue.le) hc.le)

theorem Sound.dmark_le_floor (h : Sound a.durableOnApply a.synced l sp) (floor : Nat) :
    sp.dmark ≤ (a.floorTo sp floor).2.dmark := by
  rcases lt_or_ge sp.mark floor with hf | hf
  · obtain ⟨hc, -⟩ := h.atFloor_connected hf
    have hd : (sp.atFloor floor).connect.1.dmark = floor := by rw [hc.rest, h.atFloor_eq hf]
    have hm : (sp.atFloor floor).mark = floor := rfl
    have hle := h.queue.le
    have hmark := hc.le
    have hstart : sp.dmark ≤ (sp.atFloor floor).connect.1.dmark := by omega
    rw [floorTo_of_lt hf]
    dsimp only
    split
    · exact le_confirm hstart (by dsimp only; omega)
    · exact hstart
  · have hdup : a.floorTo sp floor = (.dup, sp) := if_pos hf
    rw [hdup]

/-! ### The gap -/

/-- The first hole: from the mark up to the first number taken above it, or to the highest number
seen. -/
def Ledger.Gap (l : Ledger) (mark : Nat) : Option (Nat × Nat) → Prop
  | none => ∀ n, l.Seen n → n ≤ mark
  | some (first, last) => first = mark + 1 ∧ (∃ n, l.Seen n ∧ mark < n) ∧
      (IsLeast { n | n ∈ l.numbers ∧ mark < n } (last + 1) ∨
        (∀ n ∈ l.numbers, n ≤ mark) ∧ IsGreatest { n | l.Seen n } last)

theorem Sound.find_held (h : Sound mode synced l sp) (hsome : sp.nahead ≠ 0) :
    ∃ s, (range' (sp.mark + 2) (clackWin - 1)).find? sp.bit = some (s + 1) ∧
      IsLeast { n | n ∈ l.numbers ∧ sp.mark < n } (s + 1) := by
  have hbit : ∀ n, sp.mark < n → n ≤ sp.mark + clackWin → (sp.bit n = true ↔ n ∈ l.numbers) :=
    fun n hn hn' => h.held.bit_iff hn hn'
  cases hfind : (range' (sp.mark + 2) (clackWin - 1)).find? sp.bit with
  | none =>
    -- the number that is ahead would have been found
    rw [h.held.count, Ne, above_eq_zero, not_forall] at hsome
    obtain ⟨n, hn⟩ := hsome
    rw [Classical.not_imp, not_le] at hn
    have hne : n ≠ sp.mark + 1 := fun heq => h.contiguous.next (heq ▸ hn.1)
    have hbound := h.held.bound n hn.1
    have hoff := find?_range'_eq_none.mp hfind n (by omega) (by omega)
    rw [(hbit n hn.2 hbound).mpr hn.1] at hoff
    exact absurd hoff (by decide)
  | some s =>
    obtain ⟨hs, hmem, hleast⟩ := find?_range'_eq_some.mp hfind
    rw [mem_range'_1] at hmem
    have hnum := (hbit s (by omega) (by omega)).mp hs
    refine ⟨s - 1, congrArg some (by omega), ?_⟩
    rw [show s - 1 + 1 = s by omega]
    refine ⟨⟨hnum, by omega⟩, fun n ⟨hn, hlt⟩ => ?_⟩
    by_contra hsn
    have hne : n ≠ sp.mark + 1 := fun heq => h.contiguous.next (heq ▸ hn)
    have hoff := hleast n (by omega) (by omega)
    rw [(hbit n hlt (by omega)).mpr hn] at hoff
    exact absurd hoff (by decide)

/-- **`clack_gap` answers the first hole.** -/
theorem Sound.gap (h : Sound mode synced l sp) : l.Gap sp.mark sp.gap := by
  unfold Space.gap
  split
  · rename_i hle
    exact fun n hn => le_trans (h.highest.greatest.2 hn) hle
  · rename_i hlt
    rw [not_le] at hlt
    refine ⟨rfl, ⟨sp.hi, h.highest.greatest.1, hlt⟩, ?_⟩
    by_cases hnone : sp.nahead = 0
    · right
      rw [if_pos hnone]
      exact ⟨above_eq_zero.mp (h.held.count ▸ hnone), h.highest.greatest⟩
    · left
      obtain ⟨s, hs, hleast⟩ := h.find_held hnone
      rw [if_neg hnone, hs]
      exact hleast

end Perfcached.Cluster
