import Perfcached.Cluster.Clack

/-!
# Perfcached.Cluster.Held

The numbers a space holds ahead of its mark.

`Held sp ns` says that the window of bits, its bound and the count `nahead` of a space are those
of a list of numbers without repeats, of which only what lies above the mark is in the window.
Each way the code changes the window keeps it: a number is held, the mark takes the next number,
the loop connects what is held (`connect_spec`), and a floor clears what lies below it.
-/

namespace Perfcached.Cluster

open Window List Bool

/-- The window of a space holds the numbers of `ns` above the mark. -/
structure Held (sp : Space) (ns : List Nat) : Prop where
  shows : Shows clackWin sp.mark sp.ahead (· ∈ ns)
  bound : ∀ n ∈ ns, n ≤ sp.mark + clackWin
  count : sp.nahead = above sp.mark ns
  nodup : ns.Nodup

variable {sp : Space} {ns : List Nat}

theorem Held.bit_iff (h : Held sp ns) {n : Nat} (hn : sp.mark < n) (hn' : n ≤ sp.mark + clackWin) :
    sp.bit n = true ↔ n ∈ ns :=
  h.shows n hn hn'

theorem clackWin_pos : 0 < clackWin := by decide

/-- The next number is held exactly if the loop goes on. -/
theorem Held.next_iff (h : Held sp ns) :
    (sp.nahead ≠ 0 ∧ sp.bit (sp.mark + 1) = true) ↔ sp.mark + 1 ∈ ns := by
  have hwin := clackWin_pos
  rw [h.bit_iff (by omega) (by omega)]
  refine ⟨And.right, fun hmem => ⟨?_, hmem⟩⟩
  rw [h.count, above_succ_of_mem h.nodup hmem]
  omega

/-- A held number at the mark's end is taken into it. -/
theorem Held.step (h : Held sp ns) (hnext : sp.mark + 1 ∈ ns) :
    Held { sp.release (sp.mark + 1) with mark := sp.mark + 1 } ns where
  shows := by
    have hwin := clackWin_pos
    have hclear : Shows clackWin sp.mark (setBit clackWin sp.ahead (sp.mark + 1) false)
        fun n => n ∈ ns ∧ n ≠ sp.mark + 1 := by
      refine h.shows.setBit (by omega) (by omega) false (fun t ht => ?_) ?_
      · exact and_iff_left ht
      · exact iff_of_false (fun hn => hn.2 rfl) false_ne_true
    have hslide : Shows clackWin (sp.mark + 1) (setBit clackWin sp.ahead (sp.mark + 1) false)
        fun n => n ∈ ns ∧ n ≠ sp.mark + 1 := by
      refine hclear.slide (by omega) (fun s hs hs' => ?_) fun s hs => h.bound s hs.1
      obtain rfl : s = sp.mark + 1 := by omega
      exact if_pos rfl
    intro n hn hn'
    exact (hslide n hn hn').trans (and_iff_left (Nat.ne_of_gt hn))
  bound := fun n hn => Nat.le_trans (h.bound n hn) (by dsimp only; omega)
  count := by
    change sp.nahead - 1 = above (sp.mark + 1) ns
    rw [h.count, above_succ_of_mem h.nodup hnext]
    omega
  nodup := h.nodup

/-- What the loop over the connected numbers does. -/
structure Connected (sp sp' : Space) (ns : List Nat) : Prop where
  held : Held sp' ns
  le : sp.mark ≤ sp'.mark
  between : ∀ n, sp.mark < n → n ≤ sp'.mark → n ∈ ns
  stop : sp'.mark + 1 ∉ ns
  rest : sp' = { sp with mark := sp'.mark, nahead := sp'.nahead, ahead := sp'.ahead }

theorem connectLoop_spec (n : Nat) (sp : Space) (took : Bool) (h : Held sp ns)
    (hn : sp.nahead ≤ n) :
    Connected sp (sp.connectLoop n took).1 ns ∧
      ((sp.connectLoop n took).2 = true ↔
        took = true ∨ sp.mark < (sp.connectLoop n took).1.mark) := by
  induction n generalizing sp took with
  | zero =>
    have hstop : sp.mark + 1 ∉ ns := fun hmem => (h.next_iff.mpr hmem).1 (Nat.le_zero.mp hn)
    refine ⟨⟨h, Nat.le_refl _, fun n hn hn' => ?_, hstop, rfl⟩, ?_⟩
    · exact absurd hn (Nat.not_lt.mpr hn')
    · exact (or_iff_left (Nat.lt_irrefl _)).symm
  | succ n ih =>
    unfold Space.connectLoop
    split
    · rename_i hnext
      have hmem := h.next_iff.mp hnext
      obtain ⟨hc, htook⟩ := ih { sp.release (sp.mark + 1) with mark := sp.mark + 1 } true
        (h.step hmem) (by change sp.nahead - 1 ≤ n; omega)
      have hle : sp.mark + 1 ≤ _ := hc.le
      refine ⟨⟨hc.held, by omega, fun m hm hm' => ?_, hc.stop, ?_⟩, ?_⟩
      · rcases Nat.lt_or_ge (sp.mark + 1) m with hlt | hge
        · exact hc.between m hlt hm'
        · obtain rfl : m = sp.mark + 1 := by omega
          exact hmem
      · rw [hc.rest]
        rfl
      · exact iff_of_true (htook.mpr (.inl rfl)) (.inr hle)
    · rename_i hnext
      have hstop : sp.mark + 1 ∉ ns := fun hmem => hnext (h.next_iff.mpr hmem)
      refine ⟨⟨h, Nat.le_refl _, fun n hn hn' => ?_, hstop, rfl⟩, ?_⟩
      · exact absurd hn (Nat.not_lt.mpr hn')
      · exact (or_iff_left (Nat.lt_irrefl _)).symm

/-- **The loop stops at the first number that is not held.** -/
theorem connect_spec (h : Held sp ns) :
    Connected sp sp.connect.1 ns ∧ (sp.connect.2 = true ↔ sp.mark < sp.connect.1.mark) := by
  obtain ⟨hc, htook⟩ := connectLoop_spec sp.nahead sp false h (Nat.le_refl _)
  exact ⟨hc, htook.trans (or_iff_right false_ne_true)⟩

theorem Held.hold (h : Held sp ns) {n : Nat} (hn : sp.mark < n) (hn' : n ≤ sp.mark + clackWin)
    (hnew : n ∉ ns) : Held { sp.bitSet n true with nahead := sp.nahead + 1 } (ns ++ [n]) where
  shows := by
    refine h.shows.setBit hn hn' true (fun t ht => ?_) ?_
    · rw [mem_append, mem_singleton]
      exact or_iff_left ht
    · exact iff_of_true (mem_append_right _ (mem_singleton_self n)) rfl
  bound := by
    intro m hm
    rcases mem_append.mp hm with hm | hm
    · exact h.bound m hm
    · rw [mem_singleton.mp hm]
      exact hn'
  count := by
    change sp.nahead + 1 = above sp.mark (ns ++ [n])
    rw [above_concat, if_pos hn, h.count]
  nodup := by
    rw [nodup_append]
    refine ⟨h.nodup, nodup_singleton n, fun a ha b hb => ?_⟩
    rw [mem_singleton.mp hb]
    rintro rfl
    exact hnew ha

/-- The mark moves on to a number that was not held. -/
theorem Held.next (h : Held sp ns) (hnew : sp.mark + 1 ∉ ns) :
    Held { sp with mark := sp.mark + 1 } (ns ++ [sp.mark + 1]) where
  shows := by
    have hwin := clackWin_pos
    have hslide : Shows clackWin (sp.mark + 1) sp.ahead (· ∈ ns) := by
      refine h.shows.slide (by omega) (fun s hs hs' => ?_) h.bound
      obtain rfl : s = sp.mark + 1 := by omega
      rw [← not_eq_true]
      exact fun hbit => hnew ((h.bit_iff (by omega) (by omega)).mp hbit)
    intro n hn hn'
    change _ ↔ n ∈ ns ++ [sp.mark + 1]
    rw [mem_append, mem_singleton]
    exact (hslide n hn hn').trans (or_iff_left (Nat.ne_of_gt hn)).symm
  bound := by
    intro n hn
    change n ≤ sp.mark + 1 + clackWin
    rcases mem_append.mp hn with hn | hn
    · have := h.bound n hn
      omega
    · rw [mem_singleton.mp hn]
      omega
  count := by
    change sp.nahead = above (sp.mark + 1) (ns ++ [sp.mark + 1])
    rw [above_concat, if_neg (Nat.lt_irrefl _), Nat.add_zero, h.count, above_succ_of_not_mem hnew]
  nodup := by
    rw [nodup_append]
    refine ⟨h.nodup, nodup_singleton _, fun a ha b hb => ?_⟩
    rw [mem_singleton.mp hb]
    rintro rfl
    exact hnew ha

/-- The loop that clears the window up to a floor, at `s`: what lies above `s` is still held. -/
structure Clearing (sp sp' : Space) (ns : List Nat) (s : Nat) : Prop where
  shows : Shows clackWin sp.mark sp'.ahead fun n => n ∈ ns ∧ s < n
  count : sp'.nahead = above s ns
  rest : sp' = { sp with nahead := sp'.nahead, ahead := sp'.ahead }

theorem Clearing.step {sp' : Space} {s : Nat} (h : Clearing sp sp' ns s) (hnd : ns.Nodup)
    (hs : sp.mark ≤ s) (hs' : s < sp.mark + clackWin) :
    Clearing sp (if sp'.nahead ≠ 0 ∧ sp'.bit (s + 1) then sp'.release (s + 1) else sp') ns
      (s + 1) := by
  have hbit : sp'.bit (s + 1) = true ↔ s + 1 ∈ ns :=
    (h.shows (s + 1) (by omega) (by omega)).trans (and_iff_left (by omega))
  by_cases hmem : s + 1 ∈ ns
  · have hcount := above_succ_of_mem hnd hmem
    have hne : sp'.nahead ≠ 0 := by
      rw [h.count, hcount]
      omega
    rw [if_pos ⟨hne, hbit.mpr hmem⟩]
    refine ⟨?_, ?_, ?_⟩
    · refine h.shows.setBit (by omega) (by omega) false (fun t ht => ?_) ?_
      · refine and_congr_right fun _ => ?_
        omega
      · exact iff_of_false (fun hn => Nat.lt_irrefl _ hn.2) false_ne_true
    · change sp'.nahead - 1 = _
      rw [h.count, hcount]
      omega
    · rw [h.rest]
      rfl
  · rw [if_neg fun hn => hmem (hbit.mp hn.2)]
    refine ⟨fun n hn hn' => (h.shows n hn hn').trans (and_congr_right fun hin => ?_), ?_, h.rest⟩
    · have hne : n ≠ s + 1 := by
        rintro rfl
        exact hmem hin
      omega
    · rw [h.count, above_succ_of_not_mem hmem]

theorem clearing_foldl {sp' : Space} (hnd : ns.Nodup) (n s : Nat) (h : Clearing sp sp' ns s)
    (hs : sp.mark ≤ s) (hn : s + n ≤ sp.mark + clackWin) :
    Clearing sp ((range' (s + 1) n).foldl
      (fun sp s => if sp.nahead ≠ 0 ∧ sp.bit s then sp.release s else sp) sp') ns (s + n) := by
  induction n generalizing sp' s with
  | zero => exact h
  | succ n ih =>
    rw [range'_succ, foldl_cons, show s + (n + 1) = s + 1 + n by omega]
    exact ih (s + 1) (h.step hnd hs (by omega)) (by omega) (by omega)

/-- What was held at or below a floor is inside it; what was held above it stays. -/
theorem Held.clearTo (h : Held sp ns) {floor : Nat} (hf : sp.mark < floor) :
    Held { sp.clearTo floor with mark := floor } ns ∧ sp.clearTo floor =
        { sp with nahead := (sp.clearTo floor).nahead, ahead := (sp.clearTo floor).ahead } := by
  unfold Space.clearTo
  split
  · have hall : ∀ n ∈ ns, n ≤ floor := fun n hn => by
      have := h.bound n hn
      omega
    refine ⟨⟨?_, ?_, ?_, h.nodup⟩, rfl⟩
    · refine shows_empty fun s hs _ hmem => ?_
      have := hall s hmem
      dsimp only at hs
      omega
    · exact fun n hn => Nat.le_trans (hall n hn) (Nat.le_add_right _ _)
    · exact (above_eq_zero.mpr hall).symm
  · have hstart : Clearing sp sp ns sp.mark :=
      ⟨fun n hn hn' => (h.shows n hn hn').trans (and_iff_left hn).symm, h.count, rfl⟩
    have hend := clearing_foldl h.nodup (floor - sp.mark) sp.mark hstart (Nat.le_refl _) (by omega)
    rw [show sp.mark + (floor - sp.mark) = floor by omega] at hend
    refine ⟨⟨?_, ?_, hend.count, h.nodup⟩, hend.rest⟩
    · have hslide := hend.shows.slide (Nat.le_of_lt hf) (fun s hs hs' => ?_)
        fun s hs => h.bound s hs.1
      · intro n hn hn'
        exact (hslide n hn hn').trans (and_iff_left hn)
      · rw [← not_eq_true]
        intro hbit
        have := ((hend.shows s hs (by omega)).mp hbit).2
        omega
    · intro n hn
      have := h.bound n hn
      change n ≤ floor + clackWin
      omega

end Perfcached.Cluster
