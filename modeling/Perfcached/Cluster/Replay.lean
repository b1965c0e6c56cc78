import Perfcached.Lib.Bitmap
import Perfcached.Lib.Window

/-!
# Perfcached.Cluster.Replay

The replay window of a stream (`src/clreplay.c`).

A sealed cluster frame is taken once. Per stream of a sender the filter keeps the highest sequence
taken and a circular bitmap of the `CLREPLAY_WIN` sequences up to it. `Marks` says which bit
stands for which number, after any jumps of the highest one; everything about the window follows
from it.

The sequences are 64 bits wide in the source. Nothing is computed above the larger of the two
that are compared, so no sum leaves them.
-/

namespace Perfcached.Cluster

open Bitmap List

def clreplayWin : Nat := 131072

/-- What a call answers; `ok` and `full` let the frame through. -/
inductive Verdict
  | ok
  | dup
  | old
  | incarn
  | full
  deriving DecidableEq

/-- `struct win`. -/
structure Win where
  incarn : Nat
  hi : Nat
  bits : Words 64

/-- A window of an incarnation that has taken nothing: as `calloc` and as a reset leave it. -/
def Win.fresh (incarn : Nat) : Win := ⟨incarn, 0, Bitmap.zero⟩

/-! ### The window -/

/-- `bit_clear_range`: whole words where the range covers them. -/
def bitClearRange (bits : Words 64) (i stop : Nat) : Words 64 :=
  if i < stop then
    if i % clreplayWin % 64 = 0 ∧ 64 ≤ stop - i then
      bitClearRange (put bits (i % clreplayWin / 64) 0#64) (i + 64) stop
    else bitClearRange (unmark bits (i % clreplayWin)) (i + 1) stop
  else bits
termination_by stop - i

def winAdmit (w : Win) (seq : Nat) : Verdict × Win :=
  let b := seq % clreplayWin
  if w.hi < seq then
    let bits :=
      if clreplayWin < seq - w.hi then Bitmap.zero else bitClearRange w.bits (w.hi + 1) seq
    (.ok, { w with bits := mark bits b, hi := seq })
  else if clreplayWin ≤ w.hi - seq then (.old, w)
  else if test w.bits b then (.dup, w)
  else (.ok, { w with bits := mark w.bits b })

variable {n : Nat}

/-- Two numbers less than a window apart do not share a bit. -/
theorem eq_of_bit_eq {i : Nat} (hle : n ≤ i) (hnear : i < n + clreplayWin)
    (h : n % clreplayWin = i % clreplayWin) : n = i := by
  have hmod : (n + clreplayWin) % clreplayWin = (i + clreplayWin) % clreplayWin := by
    simpa using h
  have := Window.eq_of_mod_eq hnear (Nat.add_le_add_right hle _)
    (Nat.lt_add_of_pos_right (by decide)) (Nat.le_refl _) hmod
  exact Nat.add_right_cancel this

/-- The bits of a word that starts at `i` are those of the numbers `i, ..., i + 63`. -/
theorem word_iff {i c : Nat} (hword : i % clreplayWin % 64 = 0) :
    c / 64 = i % clreplayWin / 64 ↔ ∃ n, i ≤ n ∧ n < i + 64 ∧ n % clreplayWin = c := by
  unfold clreplayWin at *
  constructor
  · intro h
    exact ⟨i + c % 64, by omega, by omega, by omega⟩
  · rintro ⟨n, hle, hlt, rfl⟩
    omega

/-- After `bit_clear_range` the bits of the range are clear and the others as they were. -/
theorem test_bitClearRange (bits : Words 64) (i stop c : Nat) :
    test (bitClearRange bits i stop) c = true ↔
      test bits c = true ∧ ∀ n, i ≤ n → n < stop → n % clreplayWin ≠ c := by
  fun_induction bitClearRange bits i stop with
  | case1 bits i hlt hword ih =>
    rw [ih, test_put_zero, Bool.and_eq_true, decide_eq_true_eq, ne_eq, word_iff hword.1, and_assoc,
      and_comm, and_assoc]
    refine and_congr_right fun _ => ?_
    constructor
    · rintro ⟨hrest, hno⟩ n hle hn heq
      rcases Nat.lt_or_ge n (i + 64) with hin | hout
      · exact hno ⟨n, hle, hin, heq⟩
      · exact hrest n hout hn heq
    · intro h
      refine ⟨fun n hle hn => h n (by omega) hn, ?_⟩
      rintro ⟨n, hle, hin, heq⟩
      exact h n hle (by omega) heq
  | case2 bits i hlt hword ih =>
    rw [ih, test_unmark (by decide), Bool.and_eq_true, decide_eq_true_eq, and_assoc, and_comm,
      and_assoc]
    refine and_congr_right fun _ => ?_
    constructor
    · rintro ⟨hrest, hno⟩ n hle hn heq
      rcases Nat.lt_or_ge i n with hin | hout
      · exact hrest n hin hn heq
      · obtain rfl : n = i := Nat.le_antisymm hout hle
        exact hno heq.symm
    · intro h
      exact ⟨fun n hle hn => h n (by omega) hn, fun heq => h i (Nat.le_refl i) hlt heq.symm⟩
  | case3 bits i hge =>
    refine ⟨fun h => ⟨h, fun n hle hn => absurd (Nat.lt_of_le_of_lt hle hn) hge⟩, And.left⟩

/-- What a window knows of the numbers it has taken. -/
structure Marks (w : Win) (taken : List Nat) : Prop where
  nodup : taken.Nodup
  le : ∀ n ∈ taken, n ≤ w.hi
  reached : w.hi = 0 ∨ w.hi ∈ taken
  shows : ∀ n, n ≤ w.hi → w.hi < n + clreplayWin →
    (test w.bits (n % clreplayWin) = true ↔ n ∈ taken)

theorem nodup_concat {ns : List Nat} (h : ns.Nodup) (hn : n ∉ ns) : (ns ++ [n]).Nodup := by
  rw [← concat_eq_append]
  exact h.concat hn

theorem Marks.fresh (incarn : Nat) : Marks (Win.fresh incarn) [] where
  nodup := nodup_nil
  le := by simp
  reached := .inl rfl
  shows := by simp [Win.fresh]

variable {w : Win} {seq : Nat}

/-- The bits after the window has moved up to `seq`. -/
theorem test_moved (hup : w.hi < seq) (hn : n < seq) (hin : seq < n + clreplayWin) :
    test (if clreplayWin < seq - w.hi then Bitmap.zero
      else bitClearRange w.bits (w.hi + 1) seq) (n % clreplayWin) = true ↔
      n ≤ w.hi ∧ test w.bits (n % clreplayWin) = true := by
  by_cases hfar : clreplayWin < seq - w.hi
  · rw [if_pos hfar, test_zero]
    exact iff_of_false Bool.false_ne_true fun h => by omega
  · rw [if_neg hfar, test_bitClearRange, and_comm]
    refine and_congr_left fun _ => ?_
    constructor
    · intro h
      by_contra hgt
      exact h n (by omega) hn rfl
    · intro hle m hm hm' heq
      -- a cleared number would be less than a window above `n`
      have := eq_of_bit_eq (show n ≤ m by omega) (by omega) heq.symm
      omega

variable {taken : List Nat}

/-- A number above all the window has taken. -/
theorem Marks.up (h : Marks w taken) (hup : w.hi < seq) :
    Marks (winAdmit w seq).2 (taken ++ [seq]) := by
  have hnew : seq ∉ taken := fun hmem => Nat.not_lt_of_le (h.le seq hmem) hup
  rw [winAdmit, if_pos hup]
  constructor
  · exact nodup_concat h.nodup hnew
  · intro n hn
    rcases mem_append.mp hn with hn | hn
    · exact Nat.le_trans (h.le n hn) (Nat.le_of_lt hup)
    · exact Nat.le_of_eq (mem_singleton.mp hn)
  · exact .inr (by simp)
  · intro n hle hin
    simp only at hle hin ⊢
    rw [test_mark (by decide), Bool.or_eq_true, decide_eq_true_eq, mem_append, mem_singleton]
    by_cases hn : n = seq
    · simp [hn]
    · have hlt : n < seq := Nat.lt_of_le_of_ne hle hn
      have hbit : n % clreplayWin ≠ seq % clreplayWin := fun heq => hn (eq_of_bit_eq hle hin heq)
      rw [test_moved hup hlt hin]
      simp only [hbit, hn, false_or, or_false]
      constructor
      · rintro ⟨hhi, hset⟩
        exact (h.shows n hhi (by omega)).mp hset
      · intro hmem
        have hhi := h.le n hmem
        exact ⟨hhi, (h.shows n hhi (by omega)).mpr hmem⟩

/-- A number of the window not taken before. -/
theorem Marks.fill (h : Marks w taken) (hle : seq ≤ w.hi) (hin : w.hi < seq + clreplayWin)
    (hnew : seq ∉ taken) :
    Marks { w with bits := mark w.bits (seq % clreplayWin) } (taken ++ [seq]) := by
  constructor
  · exact nodup_concat h.nodup hnew
  · intro n hn
    rcases mem_append.mp hn with hn | hn
    · exact h.le n hn
    · exact mem_singleton.mp hn ▸ hle
  · exact h.reached.imp_right fun hmem => mem_append_left _ hmem
  · intro n hn hn'
    simp only at hn hn' ⊢
    rw [test_mark (by decide), Bool.or_eq_true, decide_eq_true_eq, mem_append,
      mem_singleton, h.shows n hn hn', or_comm]
    refine or_congr_right ⟨fun heq => ?_, fun heq => by rw [heq]⟩
    rcases Nat.le_total n seq with hns | hns
    · exact eq_of_bit_eq hns (by omega) heq
    · exact (eq_of_bit_eq hns (by omega) heq.symm).symm

/-- **`win_admit`, call by call**: it takes a number that is new and not older than the window,
and tells why it refuses another. -/
theorem Marks.hear (h : Marks w taken) (seq : Nat) :
    ((winAdmit w seq).1 = .ok ∧ Marks (winAdmit w seq).2 (taken ++ [seq]) ∧
        seq ∉ taken ∧ ∀ n ∈ taken, n < seq + clreplayWin) ∨
      (winAdmit w seq = (.old, w) ∧ ∃ n ∈ taken, seq + clreplayWin ≤ n) ∨
      (winAdmit w seq = (.dup, w) ∧ seq ∈ taken ∧ ∀ n ∈ taken, n < seq + clreplayWin) := by
  by_cases hup : w.hi < seq
  · refine .inl ⟨by rw [winAdmit, if_pos hup], h.up hup, ?_, ?_⟩
    · exact fun hmem => Nat.not_lt_of_le (h.le seq hmem) hup
    · intro n hn
      have := h.le n hn
      omega
  · by_cases hold : clreplayWin ≤ w.hi - seq
    · refine .inr (.inl ⟨by rw [winAdmit, if_neg hup, if_pos hold], w.hi, ?_, by omega⟩)
      refine h.reached.resolve_left fun hzero => ?_
      rw [hzero, Nat.zero_sub] at hold
      exact absurd hold (by decide)
    · have hin : w.hi < seq + clreplayWin := by omega
      have hnear : ∀ n ∈ taken, n < seq + clreplayWin :=
        fun n hn => Nat.lt_of_le_of_lt (h.le n hn) hin
      have hshow := h.shows seq (Nat.le_of_not_lt hup) hin
      by_cases hset : test w.bits (seq % clreplayWin) = true
      · refine .inr (.inr ⟨?_, hshow.mp hset, hnear⟩)
        rw [winAdmit, if_neg hup, if_neg hold, if_pos hset]
      · have hnew : seq ∉ taken := fun hmem => hset (hshow.mpr hmem)
        rw [winAdmit, if_neg hup, if_neg hold, if_neg hset]
        exact .inl ⟨rfl, h.fill (Nat.le_of_not_lt hup) hin hnew, hnew, hnear⟩

/-! ### One stream -/

/-- A stream's window, with the numbers it has taken. -/
structure Stream where
  win : Win
  taken : List Nat

def Stream.feed (s : Stream) (seq : Nat) : Stream :=
  let r := winAdmit s.win seq
  ⟨r.2, if r.1 = .ok then s.taken ++ [seq] else s.taken⟩

def streamOf (seqs : List Nat) : Stream := seqs.foldl Stream.feed ⟨Win.fresh 0, []⟩

theorem marks_feed {s : Stream} (h : Marks s.win s.taken) (seq : Nat) :
    Marks (s.feed seq).win (s.feed seq).taken := by
  rcases h.hear seq with ⟨hok, hmarks, -⟩ | ⟨heq, -⟩ | ⟨heq, -⟩
  · simpa only [Stream.feed, hok, if_true] using hmarks
  all_goals simpa [Stream.feed, heq] using h

theorem marks_streamOf (seqs : List Nat) : Marks (streamOf seqs).win (streamOf seqs).taken := by
  have hrun : ∀ s : Stream, Marks s.win s.taken →
      Marks (seqs.foldl Stream.feed s).win (seqs.foldl Stream.feed s).taken := by
    induction seqs with
    | nil => exact fun s h => h
    | cons seq seqs ih => exact fun s h => ih _ (marks_feed h seq)
  exact hrun _ (Marks.fresh 0)

/-- **The window takes every number at most once and loses none it should take.** After any
sequence of numbers, the numbers taken have no repeats; the next number is taken exactly if it
was not taken before and none taken is a window or more above it, and it is refused as old
exactly if one is. -/
theorem window_takes_once (seqs : List Nat) :
    (streamOf seqs).taken.Nodup ∧
      ∀ seq, ((winAdmit (streamOf seqs).win seq).1 = .ok ↔
          seq ∉ (streamOf seqs).taken ∧ ∀ n ∈ (streamOf seqs).taken, n < seq + clreplayWin) ∧
        ((winAdmit (streamOf seqs).win seq).1 = .old ↔
          ∃ n ∈ (streamOf seqs).taken, seq + clreplayWin ≤ n) := by
  have h := marks_streamOf seqs
  refine ⟨h.nodup, fun seq => ?_⟩
  rcases h.hear seq with ⟨hok, -, hnew, hnear⟩ | ⟨heq, n, hn, hold⟩ | ⟨heq, hmem, hnear⟩
  · refine ⟨iff_of_true hok ⟨hnew, hnear⟩, iff_of_false (by simp [hok]) ?_⟩
    rintro ⟨n, hn, hold⟩
    exact Nat.not_lt_of_le hold (hnear n hn)
  · refine ⟨iff_of_false (by simp [heq]) ?_, iff_of_true (by simp [heq]) ⟨n, hn, hold⟩⟩
    exact fun hall => Nat.not_lt_of_le hold (hall.2 n hn)
  · refine ⟨iff_of_false (by simp [heq]) fun hall => hall.1 hmem, iff_of_false (by simp [heq]) ?_⟩
    rintro ⟨n, hn, hold⟩
    exact Nat.not_lt_of_le hold (hnear n hn)

end Perfcached.Cluster
