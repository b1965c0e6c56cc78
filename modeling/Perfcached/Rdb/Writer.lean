import Perfcached.Crc32c
import Perfcached.Lib.While

/-!
# Perfcached.Rdb.Writer

The snapshot's buffered, checksummed output stream (`wr_flush`, `wr_put` and the
little-endian writers of `src/rdb.c`).

`write(2)` is a stream of answers `ω : Nat → Int`, one a call: a call that offers
`len` bytes is answered `min (ω i) len`, so that every stream is within the
contract of the call and every behaviour within it (full, short, zero, failing)
is some stream. The rate limiter of `wr_flush` only sleeps and is left out.

`wr_flush` always returns: each `write()` either ends it or shortens what is left
(`flushLoop` is a terminating function, `wrFlush_calls_le` bounds its calls).
`wr_put` need not: it goes on until its input is consumed and relies on the flush
to make room, while a refused flush leaves the buffer full. So it is a loop in
the sense of `Lib.While`, and `wrPut_returns_iff` says exactly when it ends.
-/

namespace Perfcached.Rdb

open Bytes While List Nat

/-- `sizeof w->buf`. -/
def bufSize : Nat := 1 <<< 16

theorem bufSize_pos : 0 < bufSize := by decide

/-- The outside of the writer: what the file holds, and how many `write()` calls
were made on it. -/
structure Sink where
  calls : Nat
  file : List Byte

/-- `struct wr`: the bytes still in the buffer, the running checksum, the count of
bytes put and the failure flag. -/
structure Wr where
  buf : List Byte
  crc : BitVec 32
  total : Nat
  failed : Bool
  sink : Sink
  /-- The buffer never holds more than its size. -/
  fits : buf.length ≤ bufSize

/-- The writer `rdb_save` starts with (`memset(&w, 0, sizeof w)`, a new file). -/
def Wr.init : Wr where
  buf := []
  crc := 0#32
  total := 0
  failed := false
  sink := ⟨0, []⟩
  fits := Nat.zero_le _

/-- The answer of `write()` call number `i`, offered `len` bytes. -/
def writeRes (ω : Nat → Int) (i len : Nat) : Int := min (ω i) len

/-- The `while (off < w->n)` loop of `wr_flush` over the buffered bytes: whether it
ran to its end, and the file it leaves. -/
def flushLoop (ω : Nat → Int) (buf : List Byte) (k : Sink) (off : Nat) : Bool × Sink :=
  if off < buf.length then
    let r := writeRes ω k.calls (buf.length - off)
    if r ≤ 0 then (false, ⟨k.calls + 1, k.file⟩)
    else flushLoop ω buf ⟨k.calls + 1, k.file ++ (buf.drop off).take r.toNat⟩ (off + r.toNat)
  else (true, k)
termination_by buf.length - off
decreasing_by omega

/-- `wr_flush`: a refused flush sets the flag and leaves the buffer as it was. -/
def wrFlush (ω : Nat → Int) (w : Wr) : Wr :=
  match flushLoop ω w.buf w.sink 0 with
  | (true, k) => { w with buf := [], sink := k, fits := Nat.zero_le _ }
  | (false, k) => { w with failed := true, sink := k }

/-- The `memcpy` of a pass: as much of `p` as there is room for. -/
def Wr.fill (w : Wr) (p : List Byte) : Wr :=
  { w with
    buf := w.buf ++ p.take (min p.length (bufSize - w.buf.length))
    fits := by
      have := w.fits
      rw [List.length_append, List.length_take]
      omega }

/-- One pass of `wr_put`'s `while (n)` loop: fill the room there is, flush a full
buffer. -/
def putBody (ω : Nat → Int) : Wr × List Byte → Pass (Wr × List Byte) Wr
  | (w, []) => .leave w
  | (w, b :: bs) =>
    let p := b :: bs
    let rest := p.drop (min p.length (bufSize - w.buf.length))
    if (w.fill p).buf.length = bufSize then .again (wrFlush ω (w.fill p), rest)
    else .again (w.fill p, rest)

/-- What `wr_put` does to the checksum and the count before its loop. -/
def Wr.count (w : Wr) (p : List Byte) : Wr :=
  { w with crc := pcCrc32c w.crc p, total := w.total + p.length }

/-- `wr_put`, under a bound on the passes of its loop. -/
def wrPut (ω : Nat → Int) (fuel : Nat) (w : Wr) (p : List Byte) : Option Wr :=
  While.run (putBody ω) fuel (w.count p, p)

def put8 (ω : Nat → Int) (fuel : Nat) (w : Wr) (v : Nat) : Option Wr :=
  wrPut ω fuel w (leBytes 1 v)

def put32 (ω : Nat → Int) (fuel : Nat) (w : Wr) (v : Nat) : Option Wr :=
  wrPut ω fuel w (leBytes 4 v)

/-- `put64`: the low word, then the high one. -/
def put64 (ω : Nat → Int) (fuel : Nat) (w : Wr) (v : Nat) : Option Wr := do
  let w ← put32 ω fuel w v
  put32 ω fuel w (v / 2 ^ 32)

/-! ### What a flush comes to -/

/-- From call `i` on, `write()` takes `n` bytes in full; `j` is the next call. -/
inductive Clears (ω : Nat → Int) : Nat → Nat → Nat → Prop
  | done {i : Nat} : Clears ω 0 i i
  | wrote {n i j : Nat} : 0 < n → 0 < ω i → Clears ω (n - (ω i).toNat) (i + 1) j → Clears ω n i j

/-- From call `i` on, `write()` refuses before it has taken `n` bytes; `j` is the
call after the refusal. -/
inductive Refused (ω : Nat → Int) : Nat → Nat → Nat → Prop
  | now {n i : Nat} : 0 < n → ω i ≤ 0 → Refused ω n i (i + 1)
  | later {n i j : Nat} : 0 < n → 0 < ω i → Refused ω (n - (ω i).toNat) (i + 1) j →
      Refused ω n i j

/-- Inversion of the flush loop: it takes the rest of the buffer or is refused on
the way, as the answers from the next call on decide. -/
theorem flushLoop_cases (ω : Nat → Int) (buf : List Byte) (k : Sink) (off : Nat) :
    (∃ j, Clears ω (buf.length - off) k.calls j ∧
      flushLoop ω buf k off = (true, ⟨j, k.file ++ buf.drop off⟩)) ∨
    (∃ j taken, Refused ω (buf.length - off) k.calls j ∧
      flushLoop ω buf k off = (false, ⟨j, k.file ++ taken⟩)) := by
  fun_induction flushLoop ω buf k off with
  | case1 k off h r hr =>
    -- a refusal: the cap `len` is positive, so the answer itself was not
    have hω : ω k.calls ≤ 0 := by
      simp only [r, writeRes] at hr
      omega
    exact .inr ⟨_, [], Refused.now (by omega) hω, by simp⟩
  | case2 k off h r hr ih =>
    have hω : 0 < ω k.calls := by
      simp only [r, writeRes] at hr
      omega
    have hleft : buf.length - (off + r.toNat) = buf.length - off - (ω k.calls).toNat := by
      simp only [r, writeRes]
      omega
    have htail : (buf.drop off).take r.toNat ++ buf.drop (off + r.toNat) = buf.drop off := by
      rw [← drop_drop, take_append_drop]
    simp only [hleft] at ih
    rcases ih with ⟨j, hj, he⟩ | ⟨j, taken, hj, he⟩
    · refine .inl ⟨j, Clears.wrote (by omega) hω hj, ?_⟩
      rw [he, append_assoc, htail]
    · refine .inr ⟨j, (buf.drop off).take r.toNat ++ taken, Refused.later (by omega) hω hj, ?_⟩
      rw [he, append_assoc]
  | case3 k off h =>
    refine .inl ⟨k.calls, ?_, ?_⟩
    · rw [show buf.length - off = 0 by omega]
      exact Clears.done
    · rw [drop_eq_nil_of_le (by omega), append_nil]

/-- A flush that was cleared: the buffer is in the file. -/
def Wr.cleared (w : Wr) (j : Nat) : Wr :=
  { w with buf := [], sink := ⟨j, w.sink.file ++ w.buf⟩, fits := Nat.zero_le _ }

/-- A flush that was refused, after `taken` had reached the file. -/
def Wr.refused (w : Wr) (taken : List Byte) (j : Nat) : Wr :=
  { w with failed := true, sink := ⟨j, w.sink.file ++ taken⟩ }

@[simp] theorem refused_buf (w : Wr) (t : List Byte) (j : Nat) :
    (w.refused t j).buf = w.buf := rfl

open Wr

/-- Inversion of `wr_flush`. -/
theorem wrFlush_cases (ω : Nat → Int) (w : Wr) :
    (∃ j, Clears ω w.buf.length w.sink.calls j ∧ wrFlush ω w = w.cleared j) ∨
    (∃ j taken, Refused ω w.buf.length w.sink.calls j ∧ wrFlush ω w = w.refused taken j) := by
  rcases flushLoop_cases ω w.buf w.sink 0 with ⟨j, hj, he⟩ | ⟨j, taken, hj, he⟩
  · exact .inl ⟨j, hj, by rw [wrFlush, he, cleared]; rfl⟩
  · exact .inr ⟨j, taken, hj, by rw [wrFlush, he, refused]⟩

variable {ω : Nat → Int} {n i j : Nat}

theorem Clears.le (h : Clears ω n i j) : j ≤ i + n := by
  induction h with
  | done | wrote => omega

theorem Refused.le (h : Refused ω n i j) : j ≤ i + n := by
  induction h with
  | now | later => omega

variable {j' : Nat}

theorem Clears.det (h : Clears ω n i j) (h' : Clears ω n i j') : j = j' := by
  induction h with
  | done =>
    cases h' with
    | done => rfl
    | wrote hn _ _ => omega
  | wrote hn _ _ ih =>
    cases h' with
    | done => omega
    | wrote _ _ hrest => exact ih hrest

theorem Refused.det (h : Refused ω n i j) (h' : Refused ω n i j') : j = j' := by
  induction h with
  | now _ hω =>
    cases h' with
    | now => rfl
    | later _ hω' _ => omega
  | later _ hω _ ih =>
    cases h' with
    | now _ hω' => omega
    | later _ _ hrest => exact ih hrest

theorem Clears.not_refused (h : Clears ω n i j) : ¬ Refused ω n i j' := by
  induction h with
  | done =>
    intro h'
    cases h' with
    | now hn _ => omega
    | later hn _ _ => omega
  | wrote _ hω _ ih =>
    intro h'
    cases h' with
    | now _ hω' => omega
    | later _ _ hrest => exact ih hrest

/-- A flush makes at most one `write()` call a buffered byte. -/
theorem wrFlush_calls_le (ω : Nat → Int) (w : Wr) :
    (wrFlush ω w).sink.calls ≤ w.sink.calls + w.buf.length := by
  rcases wrFlush_cases ω w with ⟨j, hj, he⟩ | ⟨j, taken, hj, he⟩
  · rw [he]
    exact hj.le
  · rw [he]
    exact hj.le

/-! ### When `wr_put` returns -/

/-- From call `i` on, `write()` takes `k` full buffers, each offered again from its
first byte after a refusal. -/
inductive Drains (ω : Nat → Int) : Nat → Nat → Prop
  | none {i : Nat} : Drains ω 0 i
  | cleared {k i j : Nat} : Clears ω bufSize i j → Drains ω k j → Drains ω (k + 1) i
  | refused {k i j : Nat} : Refused ω bufSize i j → Drains ω (k + 1) j → Drains ω (k + 1) i

/-- The full buffers that must reach the file before the last of `n` bytes, put
into a buffer that holds `held`, can be copied in. -/
def fullBuffers (held n : Nat) : Nat := if n = 0 then 0 else (held + n - 1) / bufSize

variable {held : Nat}

theorem fullBuffers_fits (h : held + n ≤ bufSize) : fullBuffers held n = 0 := by
  unfold fullBuffers
  split
  · rfl
  · exact div_eq_of_lt (by omega)

theorem fullBuffers_cleared (hh : held ≤ bufSize) (h : bufSize < held + n) :
    fullBuffers held n = fullBuffers 0 (n - (bufSize - held)) + 1 := by
  have hpos := bufSize_pos
  unfold fullBuffers
  rw [if_neg (by omega), if_neg (by omega), ← add_div_right _ hpos]
  congr 1
  omega

theorem fullBuffers_refused (hh : held ≤ bufSize) (h : bufSize < held + n) :
    fullBuffers held n = fullBuffers bufSize (n - (bufSize - held)) := by
  unfold fullBuffers
  rw [if_neg (by omega), if_neg (by omega)]
  congr 1
  omega

theorem overflows_of_fullBuffers {k : Nat} (h : fullBuffers held n = k + 1) :
    bufSize < held + n := by
  by_contra hfit
  rw [fullBuffers_fits (by omega)] at h
  omega

theorem Wr.fill_length (w : Wr) (p : List Byte) :
    (w.fill p).buf.length = min (w.buf.length + p.length) bufSize := by
  have := w.fits
  simp only [fill, length_append, length_take]
  omega

variable {w : Wr} {p : List Byte}

theorem Wr.fill_full (h : bufSize < w.buf.length + p.length) : (w.fill p).buf.length = bufSize := by
  rw [fill_length]
  omega

@[simp] theorem fill_sink (w : Wr) (p : List Byte) : (w.fill p).sink = w.sink := rfl

/-- A pass with input that fits the room left: nothing remains, and the buffer is
flushed if that filled it. -/
theorem putBody_fits (ω : Nat → Int) (hp : p ≠ []) (h : w.buf.length + p.length ≤ bufSize) :
    putBody ω (w, p) =
      .again (if (w.fill p).buf.length = bufSize then wrFlush ω (w.fill p) else w.fill p, []) := by
  cases p with
  | nil => exact absurd rfl hp
  | cons b bs =>
    have hc : min (b :: bs).length (bufSize - w.buf.length) = (b :: bs).length := by omega
    rw [putBody]
    simp only [hc, drop_length]
    split
    · rfl
    · rfl

/-- A pass with more input than room: the buffer is filled, then flushed. -/
theorem putBody_overflows (h : bufSize < w.buf.length + p.length) :
    putBody ω (w, p) = .again (wrFlush ω (w.fill p), p.drop (bufSize - w.buf.length)) := by
  cases p with
  | nil =>
    have := w.fits
    simp only [length_nil] at h
    omega
  | cons b bs =>
    have hc : min (b :: bs).length (bufSize - w.buf.length) = bufSize - w.buf.length := by omega
    rw [putBody]
    simp only [hc, fill_full h, if_true]

section

variable (ω : Nat → Int)

/-- **When a `wr_put` loop ends**: exactly when `write()`, from the next call on,
takes the full buffers that stand in the way of the last byte. -/
theorem putBody_ends_iff (w : Wr) (p : List Byte) :
    Ends (putBody ω) (w, p) ↔ Drains ω (fullBuffers w.buf.length p.length) w.sink.calls := by
  constructor
  · rintro ⟨r, n, hn⟩
    induction n generalizing w p with
    | zero => simp [While.run] at hn
    | succ n ih =>
      by_cases hfit : w.buf.length + p.length ≤ bufSize
      · rw [fullBuffers_fits hfit]
        exact Drains.none
      · have hover : bufSize < w.buf.length + p.length := by omega
        have hfull := fill_full hover
        rw [While.run, putBody_overflows hover] at hn
        have hd := ih _ _ hn
        rw [length_drop] at hd
        rcases wrFlush_cases ω (w.fill p) with ⟨j, hj, he⟩ | ⟨j, taken, hj, he⟩
        · rw [he] at hd
          rw [hfull, fill_sink] at hj
          rw [fullBuffers_cleared w.fits hover]
          exact Drains.cleared hj hd
        · rw [he, refused_buf, hfull] at hd
          rw [hfull, fill_sink] at hj
          -- the need is the same as before the refusal, and positive
          rw [← fullBuffers_refused w.fits hover, fullBuffers_cleared w.fits hover] at hd
          rw [fullBuffers_cleared w.fits hover]
          exact Drains.refused hj hd
  · intro hd
    generalize hk : fullBuffers w.buf.length p.length = k at hd
    generalize hi : w.sink.calls = i at hd
    induction hd generalizing w p with
    | none =>
      cases p with
      | nil => exact ends_leave rfl
      | cons b bs =>
        have hfit : w.buf.length + (b :: bs).length ≤ bufSize := by
          by_contra hover
          rw [fullBuffers_cleared w.fits (by omega)] at hk
          omega
        exact (ends_again (putBody_fits ω (cons_ne_nil b bs) hfit)).mpr (ends_leave rfl)
    | @cleared k i j hj hrest ih =>
      have hover := overflows_of_fullBuffers hk
      rw [ends_again (putBody_overflows hover)]
      rcases wrFlush_cases ω (w.fill p) with ⟨j', hj', he⟩ | ⟨j', taken, hj', he⟩
      · rw [fill_full hover, fill_sink, hi] at hj'
        rw [he]
        rw [fullBuffers_cleared w.fits hover] at hk
        exact ih _ _ (by rw [length_drop]; exact succ.inj hk) (hj'.det hj)
      · rw [fill_full hover, fill_sink, hi] at hj'
        exact absurd hj' hj.not_refused
    | @refused k i j hj hrest ih =>
      have hover := overflows_of_fullBuffers hk
      rw [ends_again (putBody_overflows hover)]
      rcases wrFlush_cases ω (w.fill p) with ⟨j', hj', he⟩ | ⟨j', taken, hj', he⟩
      · rw [fill_full hover, fill_sink, hi] at hj'
        exact absurd hj hj'.not_refused
      · rw [fill_full hover, fill_sink, hi] at hj'
        rw [he]
        refine ih _ _ ?_ (hj'.det hj)
        rw [refused_buf, fill_full hover, length_drop, ← fullBuffers_refused w.fits hover]
        exact hk

/-- `wr_put` returns under some bound exactly when its loop ends. -/
theorem wrPut_returns_iff (w : Wr) (p : List Byte) :
    (∃ fuel w', wrPut ω fuel w p = some w') ↔
      Drains ω (fullBuffers w.buf.length p.length) w.sink.calls := by
  refine Iff.trans ?_ (putBody_ends_iff ω (w.count p) p)
  exact ⟨fun ⟨n, w', h⟩ => ⟨w', n, h⟩, fun ⟨w', n, h⟩ => ⟨n, w', h⟩⟩

/-! ### The puts that need no flush, and those no flush can help -/

/-- A put into a buffer with room for it: one pass copies it, the next leaves. -/
theorem wrPut_fits (fuel : Nat) (h : w.buf.length + p.length ≤ bufSize) (hp : p ≠ []) :
    wrPut ω (fuel + 2) w p =
      some (if ((w.count p).fill p).buf.length = bufSize then wrFlush ω ((w.count p).fill p)
        else (w.count p).fill p) := by
  rw [wrPut, While.run, putBody_fits (w := w.count p) ω hp h]
  rfl

/-- A put that leaves room in the buffer returns with its bytes in it. -/
theorem wrPut_small (fuel : Nat) (h : w.buf.length + p.length < bufSize) :
    ∃ w', wrPut ω (fuel + 2) w p = some w' ∧ w'.buf = w.buf ++ p ∧ w'.failed = w.failed := by
  by_cases hp : p = []
  · subst hp
    exact ⟨w.count [], rfl, (append_nil _).symm, rfl⟩
  · refine ⟨_, wrPut_fits ω fuel (by omega) hp, ?_⟩
    have hlen : ((w.count p).fill p).buf.length ≠ bufSize := by
      rw [fill_length]
      change min (w.buf.length + p.length) bufSize ≠ bufSize
      omega
    rw [if_neg hlen]
    refine ⟨?_, rfl⟩
    change w.buf ++ p.take (min p.length (bufSize - w.buf.length)) = w.buf ++ p
    rw [take_of_length_le (by omega)]

end

/-- What a put returns does not depend on the bound. -/
theorem wrPut_det {w1 w2 : Wr} {m : Nat} (h1 : wrPut ω n w p = some w1)
    (h2 : wrPut ω m w p = some w2) : w1 = w2 :=
  Returns.det ⟨n, h1⟩ ⟨m, h2⟩

theorem Refused.exists_le (h : Refused ω n i j) : ∃ i, ω i ≤ 0 := by
  induction h with
  | now _ hω => exact ⟨_, hω⟩
  | later _ _ _ ih => exact ih

theorem not_drains_of_refusing (hω : ∀ i, ω i ≤ 0) {k : Nat} : ¬ Drains ω (k + 1) i := by
  intro h
  generalize hn : k + 1 = n at h
  induction h with
  | none => omega
  | @cleared _ i _ hc _ _ =>
    have hpos := bufSize_pos
    generalize bufSize = m at hc hpos
    cases hc with
    | done => omega
    | wrote _ hi _ =>
      have := hω i
      omega
  | refused _ _ ih => exact ih hn

/-- Nothing gets past a full buffer while every `write()` is refused. -/
theorem wrPut_full_refusing (hω : ∀ i, ω i ≤ 0) (h : bufSize < w.buf.length + p.length)
    (fuel : Nat) : wrPut ω fuel w p = none := by
  cases he : wrPut ω fuel w p with
  | none => rfl
  | some w' =>
    have hd := (wrPut_returns_iff ω w p).mp ⟨fuel, w', he⟩
    rw [fullBuffers_cleared w.fits h] at hd
    exact absurd hd (not_drains_of_refusing hω)

/-! ### Where no write is refused -/

theorem flushLoop_clear (hω : ∀ i, 0 < ω i) (buf : List Byte) (k : Sink) :
    ∃ j, flushLoop ω buf k 0 = (true, ⟨j, k.file ++ buf⟩) := by
  rcases flushLoop_cases ω buf k 0 with ⟨j, -, he⟩ | ⟨j, taken, hj, -⟩
  · exact ⟨j, he⟩
  · obtain ⟨i, hi⟩ := hj.exists_le
    have := hω i
    omega

theorem wrFlush_clear (hω : ∀ i, 0 < ω i) (w : Wr) : ∃ j, wrFlush ω w = w.cleared j := by
  rcases wrFlush_cases ω w with ⟨j, -, he⟩ | ⟨j, taken, hj, -⟩
  · exact ⟨j, he⟩
  · obtain ⟨i, hi⟩ := hj.exists_le
    have := hω i
    omega

/-- The writer has taken `p` after `w`: its bytes follow in the file or the buffer,
and the buffer has room again. -/
structure Wr.Took (w w' : Wr) (p : List Byte) : Prop where
  bytes : w'.sink.file ++ w'.buf = w.sink.file ++ w.buf ++ p
  crc : w'.crc = w.crc
  failed : w'.failed = w.failed
  room : w'.buf.length < bufSize

/-- Flushing a buffer that has just been filled, where it is full. -/
theorem Wr.took_fill (hω : ∀ i, 0 < ω i) (h : w.buf.length + p.length ≤ bufSize) :
    w.Took (if (w.fill p).buf.length = bufSize then wrFlush ω (w.fill p) else w.fill p) p := by
  have htake : (w.fill p).buf = w.buf ++ p := by
    change w.buf ++ p.take (min p.length (bufSize - w.buf.length)) = w.buf ++ p
    rw [take_of_length_le (by omega)]
  split
  · obtain ⟨j, he⟩ := wrFlush_clear hω (w.fill p)
    rw [he]
    refine ⟨?_, rfl, rfl, bufSize_pos⟩
    change (w.sink.file ++ (w.fill p).buf) ++ [] = _
    rw [htake, append_nil, append_assoc]
  · next hne =>
    refine ⟨?_, rfl, rfl, lt_of_le_of_ne (w.fill p).fits hne⟩
    change w.sink.file ++ (w.fill p).buf = _
    rw [htake, append_assoc]

/-- The loop of `wr_put` consumes its input, at least a byte a pass. -/
theorem run_putBody_clear (hω : ∀ i, 0 < ω i) (fuel : Nat) (w : Wr) (p : List Byte)
    (hf : p.length < fuel) (hroom : w.buf.length < bufSize) :
    ∃ w', While.run (putBody ω) fuel (w, p) = some w' ∧ w.Took w' p := by
  induction fuel generalizing w p with
  | zero => omega
  | succ fuel ih =>
    rw [While.run]
    by_cases hp : p = []
    · subst hp
      exact ⟨w, rfl, (append_nil _).symm, rfl, rfl, hroom⟩
    · have hpos : 0 < p.length := length_pos_iff.mpr hp
      by_cases hfit : w.buf.length + p.length ≤ bufSize
      · have htook := took_fill hω hfit
        rw [putBody_fits ω hp hfit]
        obtain ⟨w', hrun, h'⟩ := ih _ [] (by rw [length_nil]; omega) htook.room
        refine ⟨w', hrun, ?_, h'.crc.trans htook.crc, h'.failed.trans htook.failed, h'.room⟩
        rw [h'.bytes, htook.bytes, append_nil]
      · rw [putBody_overflows (by omega)]
        obtain ⟨j, he⟩ := wrFlush_clear hω (w.fill p)
        rw [he]
        obtain ⟨w', hrun, h'⟩ := ih ((w.fill p).cleared j) (p.drop (bufSize - w.buf.length))
          (by rw [length_drop]; omega) bufSize_pos
        refine ⟨w', hrun, ?_, h'.crc, h'.failed, h'.room⟩
        rw [h'.bytes]
        change w.sink.file ++ (w.buf ++ p.take (min p.length (bufSize - w.buf.length))) ++ [] ++
          p.drop (bufSize - w.buf.length) = _
        rw [min_eq_right (by omega), append_nil, append_assoc, append_assoc,
          take_append_drop, append_assoc]

theorem wrPut_clear (hω : ∀ i, 0 < ω i) {fuel : Nat} (hf : p.length < fuel)
    (hroom : w.buf.length < bufSize) : ∃ w', wrPut ω fuel w p = some w' ∧ (w.count p).Took w' p :=
  run_putBody_clear hω fuel (w.count p) p hf hroom

end Perfcached.Rdb
