import Mathlib.Data.Nat.Prime.Basic
import Perfcached.Lib.Circular
import Perfcached.Lib.Machine
import Perfcached.Wal.Format

/-!
# Perfcached.Wal.Ring

The ring between a producer and the pump (`produce` and `pc_wal_pump` of `src/wal.c`,
`src/walring.h`).

A ring has one producer and one consumer. Its counters run freely over 32 bits, and a
position in the buffer is a counter modulo the ring's size. The machine interleaves the
producer's steps with those of the pump's drain: it takes the tail, reads record after record
at its own cursor, and publishes the head when it leaves the ring, for whatever reason it
does.

The positions go on at the counters' wrap only if the size divides 2^32. So a ring loses
nothing exactly if its size in KB is a power of two (`ring_lossless_iff`); the configuration
admits every number of KB.
-/

namespace Perfcached.Wal

open Bytes Circular Machine List Option Nat

/-! ### The ring -/

/-- `struct ring`, of what the queue uses. The counters are below 2^32. -/
structure Ring where
  size : Nat
  head : Nat
  tail : Nat
  buf : Nat → Byte

/-- A subtraction of `uint32_t`. -/
def sub32 (a b : Nat) : Nat := (a + (2 ^ 32 - b)) % 2 ^ 32

def walringCopy (buf : Nat → Byte) (size pos n : Nat) : List Byte :=
  let first := size - pos
  if n ≤ first then read buf pos n else read buf pos first ++ read buf 0 (n - first)

/-- The room `produce` sees. -/
def Ring.free (r : Ring) : Nat := sub32 r.size (sub32 r.tail r.head)

/-- The publishing part of `produce`; a record that finds no room is dropped. -/
def Ring.publish (r : Ring) (scratch : List Byte) : Option Ring :=
  let need := scratch.length
  if r.free < need then none
  else
    let pos := r.tail % r.size
    let first := r.size - pos
    some { r with
      buf :=
        if pos + need ≤ r.size then write r.buf pos scratch
        else write (write r.buf pos (scratch.take first)) 0 (scratch.drop first)
      tail := (r.tail + need) % 2 ^ 32 }

/-- The record the pump reads at a cursor. -/
def Ring.recAt (r : Ring) (head : Nat) : List Byte :=
  let pos := head % r.size
  let len := rd 4 (walringCopy r.buf r.size pos recHdr)
  walringCopy r.buf r.size pos ((recHdr + len) % 2 ^ 32)

/-- A record in its frame, as `produce` puts it together: the length of what follows the
record header stands in front. -/
@[mk_iff]
structure Framed (scratch : List Byte) : Prop where
  hdr : recHdr ≤ scratch.length
  max : scratch.length ≤ maxRec
  len : recHdr + rd 4 scratch = scratch.length

theorem framed_scratch {r : WalRec} (h : recHdr + r.payload.length ≤ maxRec) :
    Framed r.scratch where
  hdr := by
    rw [r.length_scratch]
    exact le_add_right _ _
  max := by
    rw [r.length_scratch]
    exact h
  len := by
    have hlt : r.payload.length < 2 ^ 32 := (le_add_left _ _).trans_lt (h.trans_lt maxRec_lt)
    rw [r.length_scratch, WalRec.scratch, rd_append_of_lt hlt]

instance (scratch : List Byte) : Decidable (Framed scratch) :=
  decidable_of_iff' _ (framed_iff scratch)

/-! ### The producer and the pump -/

/-- The pump inside a ring: its cursor, and the tail it took. -/
structure Drain where
  head : Nat
  tail : Nat
  deriving DecidableEq

/-- A record that was not read yet, and the position it was written at. -/
structure Waiting where
  pos : Nat
  bytes : List Byte

/-- A ring with its two parties, and what went through it. -/
structure RingSys where
  ring : Ring
  drain : Option Drain
  waiting : List Waiting
  produced : List (List Byte)
  drained : List (List Byte)

/-- A new ring; its memory is as it comes. -/
def RingSys.new (size : Nat) (buf : Nat → Byte) : RingSys := ⟨⟨size, 0, 0, buf⟩, none, [], [], []⟩

/-- Where the pump reads next. -/
def RingSys.cursor (s : RingSys) : Nat := s.drain.elim s.ring.head Drain.head

/-- A step of either party. -/
inductive RingAct
  | produce (scratch : List Byte)
  /-- The pump comes to the ring. -/
  | enter
  /-- It reads a record. -/
  | take
  /-- It leaves: the ring is drained, the batch or the stage is full. -/
  | leave

def ringStep (s : RingSys) : RingAct → Option RingSys
  | .produce scratch =>
    if Framed scratch then
      (s.ring.publish scratch).map fun r =>
        { s with
          ring := r
          waiting := s.waiting ++ [⟨s.ring.tail % s.ring.size, scratch⟩]
          produced := s.produced ++ [scratch] }
    else none
  | .enter =>
    if s.drain.isNone then some { s with drain := some ⟨s.ring.head, s.ring.tail⟩ } else none
  | .take =>
    s.drain.bind fun d =>
      if d.head ≠ d.tail then
        let bytes := s.ring.recAt d.head
        some { s with
          drain := some { d with head := (d.head + bytes.length) % 2 ^ 32 }
          waiting := s.waiting.tail
          drained := s.drained ++ [bytes] }
      else none
  | .leave => s.drain.map fun d => { s with ring := { s.ring with head := d.head }, drain := none }

/-- Nothing was lost: what was read is what was produced, in order, up to the records that
wait; those are in the buffer as they were written; and the pump sees whether there are
any. -/
structure RingSys.Whole (s : RingSys) : Prop where
  order : s.produced = s.drained ++ s.waiting.map Waiting.bytes
  intact : ∀ q ∈ s.waiting, walringCopy s.ring.buf s.ring.size q.pos q.bytes.length = q.bytes
  seen : s.cursor = s.ring.tail ↔ s.waiting = []

/-- Every run of a ring of that size is without loss. -/
def Lossless (size : Nat) : Prop :=
  ∀ buf as s, run ringStep (.new size buf) as = some s → s.Whole

/-! ### The copies -/

variable {buf : Nat → Byte} {size : Nat}

theorem walringCopy_eq {pos n : Nat} (hpos : pos < size) (hn : n ≤ size) :
    walringCopy buf size pos n = circRead size buf pos n := by
  unfold walringCopy
  dsimp only
  split
  · rw [circRead_of_fits buf (by omega)]
  · rw [circRead_of_wraps buf (by omega) (by omega) hn]

variable {r : Ring} {bytes : List Byte}

theorem recAt_eq {head : Nat} (hsize : 0 < r.size) (hf : Framed bytes)
    (hlen : bytes.length ≤ r.size) (hbuf : circRead r.size r.buf head bytes.length = bytes) :
    r.recAt head = bytes := by
  have hpos := Nat.mod_lt head hsize
  have hhdr := hf.hdr
  have hcopy : walringCopy r.buf r.size (head % r.size) recHdr = bytes.take recHdr := by
    rw [walringCopy_eq hpos (by omega), circRead_mod]
    conv_rhs => rw [← hbuf, ← Nat.add_sub_cancel' hhdr, circRead_add]
    exact (take_left' (length_circRead _ _ _ _)).symm
  have hrd : rd 4 (bytes.take recHdr) = rd 4 bytes := by
    rw [rd, rd, take_take]
    rfl
  have htotal : (recHdr + rd 4 bytes) % 2 ^ 32 = bytes.length := by
    rw [hf.len]
    exact Nat.mod_eq_of_lt (hf.max.trans_lt maxRec_lt)
  rw [Ring.recAt, hcopy, hrd, htotal, walringCopy_eq hpos hlen, circRead_mod, hbuf]

variable {scratch : List Byte}

theorem length_le_free {r' : Ring} (h : r.publish scratch = some r') : scratch.length ≤ r.free := by
  by_contra hlt
  rw [Ring.publish, if_pos (Nat.lt_of_not_le hlt)] at h
  cases h

/-- A record that finds room goes to the tail's position, round. -/
theorem publish_eq (hsize : 0 < r.size) (hlen : scratch.length ≤ r.size)
    (hroom : scratch.length ≤ r.free) :
    r.publish scratch = some ⟨r.size, r.head, (r.tail + scratch.length) % 2 ^ 32,
      circWrite r.size r.buf r.tail scratch⟩ := by
  have hpos := mod_lt r.tail hsize
  rw [Ring.publish, if_neg (not_lt.mpr hroom), ← circWrite_mod]
  dsimp only
  split
  · rw [circWrite_of_fits r.buf hpos (by omega)]
  · rw [circWrite_of_wraps r.buf hpos (by omega) hlen]

/-! ### Counters without a bound -/

/-- Records one after the other, from one counter to another. -/
def Laid (size : Nat) : Nat → List Waiting → Nat → Prop
  | p, [], q => p = q
  | p, e :: es, q => e.pos = p % size ∧ Framed e.bytes ∧ Laid size (p + e.bytes.length) es q

variable {p q : Nat} {es : List Waiting}

section

variable (h : Laid size p es q)
include h

theorem Laid.le : p ≤ q := by
  induction es generalizing p with
  | nil => exact le_of_eq h
  | cons e es ih => exact (le_add_right _ _).trans (ih h.2.2)

theorem Laid.append {r : Nat} {fs : List Waiting} (h' : Laid size q fs r) :
    Laid size p (es ++ fs) r := by
  induction es generalizing p with
  | nil => exact h.symm ▸ h'
  | cons e es ih => exact ⟨h.1, h.2.1, ih h.2.2⟩

/-- Between two counters lies a record, unless they are the same. -/
theorem Laid.eq_iff : p = q ↔ es = [] := by
  cases es with
  | nil => exact iff_of_true h rfl
  | cons e es =>
    have hlen := h.2.1.hdr
    have hle := h.2.2.le
    refine iff_of_false ?_ (cons_ne_nil _ _)
    rw [recHdr] at hlen
    omega

/-- Where a record between two counters lies. -/
theorem Laid.mem {e : Waiting} (he : e ∈ es) :
    ∃ c, e.pos = c % size ∧ p ≤ c ∧ c + e.bytes.length ≤ q := by
  induction es generalizing p with
  | nil => cases he
  | cons x es ih =>
    rcases mem_cons.mp he with rfl | he
    · exact ⟨p, h.1, le_rfl, h.2.2.le⟩
    · obtain ⟨c, hpos, hle, hend⟩ := ih h.2.2 he
      exact ⟨c, hpos, (le_add_right _ _).trans hle, hend⟩

end

theorem sub32_mod (h : p ≤ q) (hlt : q - p < 2 ^ 32) : sub32 (q % 2 ^ 32) (p % 2 ^ 32) = q - p := by
  unfold sub32
  omega

theorem mod_eq_mod_iff (h : p ≤ q) (hlt : q - p < 2 ^ 32) : p % 2 ^ 32 = q % 2 ^ 32 ↔ p = q := by
  omega

/-! ### A size that divides 2^32 -/

/-- The state of a ring, with its counters unbounded: `H` is published, the pump is at `C`
on its way to `L`, and the producer at `T`. -/
structure RingSys.At (s : RingSys) (H C L T : Nat) : Prop where
  head : s.ring.head = H % 2 ^ 32
  tail : s.ring.tail = T % 2 ^ 32
  behind : H ≤ C
  room : T ≤ H + s.ring.size
  drain : (s.drain = none ∧ C = H) ∨ s.drain = some ⟨C % 2 ^ 32, L % 2 ^ 32⟩
  laid : ∃ es fs, s.waiting = es ++ fs ∧ Laid s.ring.size C es L ∧ Laid s.ring.size L fs T
  order : s.produced = s.drained ++ s.waiting.map Waiting.bytes
  intact : ∀ q ∈ s.waiting, circRead s.ring.size s.ring.buf q.pos q.bytes.length = q.bytes

section Divides

variable {s : RingSys} {H C L T : Nat}

theorem RingSys.At.laid_all (h : s.At H C L T) : Laid s.ring.size C s.waiting T := by
  obtain ⟨es, fs, hw, hes, hfs⟩ := h.laid
  rw [hw]
  exact hes.append hfs

/-- The room `produce` sees is the room there is. -/
theorem RingSys.At.free (h : s.At H C L T) (hsize : s.ring.size < 2 ^ 32) :
    s.ring.free = H + s.ring.size - T := by
  have hT := h.laid_all.le
  have hC := h.behind
  have hroom := h.room
  rw [Ring.free, h.head, h.tail, sub32_mod (by omega) (by omega), sub32]
  omega

variable (hdvd : s.ring.size ∣ 2 ^ 32) (hsize : s.ring.size < 2 ^ 32) (hpos : 0 < s.ring.size)
include hdvd hsize hpos

/-- A record is produced: it goes behind what waits, into room that is free. -/
theorem RingSys.At.produce (h : s.At H C L T) (hf : Framed scratch)
    (hr : s.ring.publish scratch = some r) :
    RingSys.At { s with
      ring := r
      waiting := s.waiting ++ [⟨s.ring.tail % s.ring.size, scratch⟩]
      produced := s.produced ++ [scratch] } H C L (T + scratch.length) := by
  have hfree := h.free hsize
  have hT := h.laid_all.le
  have hC := h.behind
  have hroom := length_le_free hr
  have hlen : scratch.length ≤ s.ring.size := by omega
  obtain rfl := some.inj ((publish_eq hpos hlen hroom).symm.trans hr)
  have htail : s.ring.tail % s.ring.size = T % s.ring.size := by
    rw [h.tail, mod_mod_of_dvd _ hdvd]
  have hwrite : circWrite s.ring.size s.ring.buf s.ring.tail scratch =
      circWrite s.ring.size s.ring.buf T scratch := by
    rw [← circWrite_mod, htail, circWrite_mod]
  have hHT := h.room
  refine ⟨h.head, ?_, hC, ?_, h.drain, ?_, ?_, ?_⟩
  · rw [h.tail, mod_add_mod]
  · change T + scratch.length ≤ H + s.ring.size
    omega
  · obtain ⟨es, fs, hw, hes, hfs⟩ := h.laid
    refine ⟨es, fs ++ [⟨s.ring.tail % s.ring.size, scratch⟩], ?_, hes, hfs.append ?_⟩
    · rw [← append_assoc, ← hw]
    · exact ⟨htail, hf, rfl⟩
  · rw [map_append, ← append_assoc, ← h.order]
    rfl
  · intro q hq
    change circRead s.ring.size (circWrite _ _ _ _) q.pos _ = _
    rw [hwrite]
    rcases mem_append.mp hq with hq | hq
    · obtain ⟨c, hqc, hle, hend⟩ := h.laid_all.mem hq
      rw [hqc, circRead_mod, circRead_circWrite_of_disjoint _ hend (by omega), ← circRead_mod,
        ← hqc]
      exact h.intact q hq
    · obtain rfl := mem_singleton.mp hq
      rw [htail, circRead_mod, circRead_circWrite _ _ hlen]

omit hsize in
/-- The pump reads a record: the oldest that waits. -/
theorem RingSys.At.take (h : s.At H C L T) {d : Drain} (hd : s.drain = some d)
    (hne : d.head ≠ d.tail) :
    ∃ C', RingSys.At { s with
      drain := some { d with head := (d.head + (s.ring.recAt d.head).length) % 2 ^ 32 }
      waiting := s.waiting.tail
      drained := s.drained ++ [s.ring.recAt d.head] } H C' L T := by
  obtain rfl : d = ⟨C % 2 ^ 32, L % 2 ^ 32⟩ := by
    rcases h.drain with ⟨hnone, -⟩ | hsome
    · cases hnone.symm.trans hd
    · exact some.inj (hd.symm.trans hsome)
  obtain ⟨es, fs, hw, hes, hfs⟩ := h.laid
  have hT := h.room
  have hCH := h.behind
  cases es with
  | nil => exact absurd (congrArg (· % 2 ^ 32) hes) hne
  | cons e es =>
    have hmem : e ∈ s.waiting := hw ▸ mem_cons_self
    have hend := hes.2.2.le
    have hLT := hfs.le
    have hread : circRead s.ring.size s.ring.buf (C % 2 ^ 32) e.bytes.length = e.bytes := by
      rw [← circRead_mod, mod_mod_of_dvd _ hdvd, ← hes.1]
      exact h.intact e hmem
    have hrec := recAt_eq hpos hes.2.1 (by omega) hread
    rw [hrec]
    refine ⟨C + e.bytes.length, h.head, h.tail, by omega, hT, .inr ?_, ⟨es, fs, ?_, hes.2.2, hfs⟩,
      ?_, ?_⟩
    · rw [mod_add_mod]
    · rw [hw]
      rfl
    · rw [h.order, hw]
      simp only [cons_append, map_cons, tail_cons, append_assoc, nil_append]
    · intro q hq
      exact h.intact q (mem_of_mem_tail hq)

omit hdvd hsize hpos in
/-- The pump comes to the ring, and leaves it. -/
theorem RingSys.At.enter (h : s.At H C L T) (hd : s.drain.isNone) :
    RingSys.At { s with drain := some ⟨s.ring.head, s.ring.tail⟩ } H C T T := by
  obtain ⟨-, rfl⟩ : s.drain = none ∧ C = H := by
    refine h.drain.resolve_right fun hsome => ?_
    rw [hsome] at hd
    cases hd
  refine ⟨h.head, h.tail, h.behind, h.room, .inr ?_, ⟨s.waiting, [], ?_, h.laid_all, rfl⟩, h.order,
    h.intact⟩
  · rw [h.head, h.tail]
  · rw [append_nil]

omit hdvd hsize hpos in
theorem RingSys.At.leave (h : s.At H C L T) {d : Drain} (hd : s.drain = some d) :
    RingSys.At { s with ring := { s.ring with head := d.head }, drain := none } C C C T := by
  obtain rfl : d = ⟨C % 2 ^ 32, L % 2 ^ 32⟩ := by
    rcases h.drain with ⟨hnone, -⟩ | hsome
    · cases hnone.symm.trans hd
    · exact some.inj (hd.symm.trans hsome)
  have hroom := h.room
  have hCH := h.behind
  refine ⟨rfl, h.tail, le_rfl, ?_, .inl ⟨rfl, rfl⟩, ⟨[], s.waiting, rfl, rfl, h.laid_all⟩,
    h.order, h.intact⟩
  change T ≤ C + s.ring.size
  omega

end Divides

variable {s : RingSys}

/-- Every step of either party keeps the counters' account. -/
theorem RingSys.At.step (hdvd : size ∣ 2 ^ 32) (hlt : size < 2 ^ 32) (hpos : 0 < size)
    {s' : RingSys} {a : RingAct} (hs : s.ring.size = size ∧ ∃ H C L T, s.At H C L T)
    (h : ringStep s a = some s') : s'.ring.size = size ∧ ∃ H C L T, s'.At H C L T := by
  obtain ⟨rfl, H, C, L, T, hat⟩ := hs
  cases a with
  | produce scratch =>
    obtain ⟨hf, h⟩ := ite_none_right_eq_some.mp h
    obtain ⟨r, hr, rfl⟩ := map_eq_some_iff.mp h
    have hat' := hat.produce hdvd hlt hpos hf hr
    refine ⟨?_, _, _, _, _, hat'⟩
    have hroom := length_le_free hr
    rw [hat.free hlt] at hroom
    have hle := hat.laid_all.le
    have hbehind := hat.behind
    have hpub := publish_eq hpos (by omega) (length_le_free hr)
    obtain rfl := some.inj (hpub.symm.trans hr)
    rfl
  | enter =>
    obtain ⟨hd, ⟨⟩⟩ := ite_none_right_eq_some.mp h
    exact ⟨rfl, _, _, _, _, hat.enter hd⟩
  | take =>
    obtain ⟨d, hd, h⟩ := bind_eq_some_iff.mp h
    obtain ⟨hne, ⟨⟩⟩ := ite_none_right_eq_some.mp h
    obtain ⟨C', hat'⟩ := hat.take hdvd hpos hd hne
    exact ⟨rfl, _, _, _, _, hat'⟩
  | leave =>
    obtain ⟨d, hd, rfl⟩ := map_eq_some_iff.mp h
    exact ⟨rfl, _, _, _, _, hat.leave hd⟩

theorem RingSys.At.cursor {H C L T : Nat} (h : s.At H C L T) : s.cursor = C % 2 ^ 32 := by
  unfold RingSys.cursor
  rcases h.drain with ⟨hd, rfl⟩ | hd
  · rw [hd]
    exact h.head
  · rw [hd]
    rfl

theorem RingSys.At.whole {H C L T : Nat} (h : s.At H C L T) (hlt : s.ring.size < 2 ^ 32)
    (hpos : 0 < s.ring.size) : s.Whole where
  order := h.order
  intact := by
    intro q hq
    obtain ⟨c, hc, hle, hend⟩ := h.laid_all.mem hq
    have hroom := h.room
    have hbehind := h.behind
    have hqpos : q.pos < s.ring.size := hc ▸ mod_lt c hpos
    rw [walringCopy_eq hqpos (by omega)]
    exact h.intact q hq
  seen := by
    have hroom := h.room
    have hbehind := h.behind
    rw [h.cursor, h.tail, mod_eq_mod_iff h.laid_all.le (by omega)]
    exact h.laid_all.eq_iff

/-- A ring whose size divides 2^32 loses nothing. -/
theorem lossless_of_dvd (hdvd : size ∣ 2 ^ 32) (hlt : size < 2 ^ 32) (hpos : 0 < size) :
    Lossless size := by
  intro buf as s hrun
  have hnew : RingSys.At (.new size buf) 0 0 0 0 :=
    ⟨rfl, rfl, le_rfl, zero_le _, .inl ⟨rfl, rfl⟩, ⟨[], [], rfl, rfl, rfl⟩, rfl,
      forall_mem_nil _⟩
  obtain ⟨rfl, H, C, L, T, hat⟩ := run_invariant
    (I := fun s => s.ring.size = size ∧ ∃ H C L T, s.At H C L T)
    (fun _ _ _ h _ hs => RingSys.At.step hdvd hlt hpos h hs)
    ⟨rfl, 0, 0, 0, 0, hnew⟩ (along_true _ _ as) hrun
  exact hat.whole hlt hpos

/-! ### A size that does not divide 2^32 -/

def oneByOne (bytes : List Byte) : List RingAct := [.produce bytes, .enter, .take, .leave]

/-- An empty ring that nobody is at, with its counters at `h`. -/
def RingSys.Idle (s : RingSys) (size h : Nat) : Prop :=
  ∃ buf produced drained, s = ⟨⟨size, h, h, buf⟩, none, [], produced, drained⟩

theorem sub32_self {h : Nat} (hh : h < 2 ^ 32) : sub32 h h = 0 := by
  unfold sub32
  omega

/-- A record that goes through an empty ring moves the counters on, over the wrap too. -/
theorem RingSys.Idle.oneByOne {h : Nat} (hs : s.Idle size h) (hh : h < 2 ^ 32) (hlt : size < 2 ^ 32)
    (hf : Framed bytes) (hlen : bytes.length ≤ size) :
    ∃ s', run ringStep s (oneByOne bytes) = some s' ∧
      s'.Idle size ((h + bytes.length) % 2 ^ 32) := by
  obtain ⟨buf, produced, drained, rfl⟩ := hs
  have hmin := hf.hdr
  rw [recHdr] at hmin
  have hpos : 0 < size := by omega
  have hfree : Ring.free ⟨size, h, h, buf⟩ = size := by
    change sub32 size (sub32 h h) = size
    rw [sub32_self hh, sub32]
    omega
  have hpub := publish_eq (r := ⟨size, h, h, buf⟩) hpos hlen (hlen.trans_eq hfree.symm)
  have hrec := recAt_eq (r := ⟨size, h, (h + bytes.length) % 2 ^ 32, circWrite size buf h bytes⟩)
    hpos hf hlen (circRead_circWrite buf h hlen)
  have hne : h ≠ (h + bytes.length) % 2 ^ 32 := by omega
  refine ⟨_, ?_, circWrite size buf h bytes, produced ++ [bytes], drained ++ [bytes], rfl⟩
  simp only [Wal.oneByOne, run, ringStep, if_pos hf, hpub, map_some, bind_some,
    isNone_none, if_true, if_pos hne, hrec, nil_append, tail_cons]

def passes (f : Nat → List Byte) : Nat → List RingAct
  | 0 => []
  | n + 1 => passes f n ++ oneByOne (f n)

theorem run_passes (buf : Nat → Byte) {f : Nat → List Byte} (hlt : size < 2 ^ 32)
    (hf : ∀ n, Framed (f n)) (hlen : ∀ n, (f n).length = 1024) (hsize : 1024 ≤ size) (n : Nat) :
    ∃ s, run ringStep (.new size buf) (passes f n) = some s ∧ s.Idle size (1024 * n % 2 ^ 32) := by
  induction n with
  | zero => exact ⟨_, rfl, buf, [], [], rfl⟩
  | succ n ih =>
    obtain ⟨s, hrun, hidle⟩ := ih
    obtain ⟨s', hrun', hidle'⟩ := hidle.oneByOne (mod_lt _ (by decide)) hlt (hf n)
      ((hlen n).trans_le hsize)
    rw [hlen n, mod_add_mod] at hidle'
    exact ⟨s', run_trans hrun hrun', hidle'⟩

/-- A ring at the counters' wrap: the oldest record that waits was written at 2^32 - 1024, and
`k` of 1 KB after it. -/
def RingSys.Wrapped (s : RingSys) (size k : Nat) (q : Waiting) (buf : Nat → Byte) : Prop :=
  ∃ waiting produced drained,
    s = ⟨⟨size, 2 ^ 32 - 1024, 1024 * k, buf⟩, none, q :: waiting, produced, drained⟩

/-- One more record, from position 0 on, though the oldest was not written before it. -/
theorem RingSys.Wrapped.produce {k : Nat} {q : Waiting} (hs : s.Wrapped size k q buf)
    (hroom : 1024 * (k + 2) ≤ size) (hlt : size < 2 ^ 31) (hf : Framed bytes)
    (hlen : bytes.length = 1024) :
    ∃ s', run ringStep s [.produce bytes] = some s' ∧
      s'.Wrapped size (k + 1) q (circWrite size buf (1024 * k) bytes) := by
  obtain ⟨waiting, produced, drained, rfl⟩ := hs
  have hfree : Ring.free ⟨size, 2 ^ 32 - 1024, 1024 * k, buf⟩ = size - 1024 * (k + 1) := by
    change sub32 size (sub32 (1024 * k) (2 ^ 32 - 1024)) = _
    unfold sub32
    omega
  have hfits : bytes.length ≤ size := by omega
  have hpub := publish_eq (r := ⟨size, 2 ^ 32 - 1024, 1024 * k, buf⟩) (show 0 < size by omega) hfits
    (by rw [hfree, hlen]; omega)
  have htail : (1024 * k + bytes.length) % 2 ^ 32 = 1024 * (k + 1) := by omega
  refine ⟨_, ?_, waiting ++ [⟨1024 * k % size, bytes⟩], produced ++ [bytes], drained, rfl⟩
  simp only [run, ringStep, if_pos hf, hpub, map_some, bind_some, htail, cons_append]

/-- A record is written at the last KB of the counters. -/
theorem RingSys.Idle.wrap (hs : s.Idle size (2 ^ 32 - 1024)) (hsize : 1024 ≤ size)
    (hlt : size < 2 ^ 32) (hf : Framed bytes) (hlen : bytes.length = 1024) :
    ∃ s' buf, run ringStep s [.produce bytes] = some s' ∧
      s'.Wrapped size 0 ⟨(2 ^ 32 - 1024) % size, bytes⟩ buf := by
  obtain ⟨buf, produced, drained, rfl⟩ := hs
  have hfree : Ring.free ⟨size, 2 ^ 32 - 1024, 2 ^ 32 - 1024, buf⟩ = size := by
    change sub32 size (sub32 (2 ^ 32 - 1024) (2 ^ 32 - 1024)) = size
    rw [sub32_self (by decide), sub32]
    omega
  have hfits : bytes.length ≤ size := by omega
  have hpub := publish_eq (r := ⟨size, 2 ^ 32 - 1024, 2 ^ 32 - 1024, buf⟩)
    (show 0 < size by omega) hfits (hfits.trans_eq hfree.symm)
  have htail : (2 ^ 32 - 1024 + bytes.length) % 2 ^ 32 = 1024 * 0 := by omega
  refine ⟨_, circWrite size buf (2 ^ 32 - 1024) bytes, ?_, [], produced ++ [bytes], drained, rfl⟩
  simp only [run, ringStep, if_pos hf, hpub, map_some, bind_some, htail, nil_append]

theorem run_wrapped {q : Waiting} {f : Nat → List Byte} (hs : s.Wrapped size 0 q buf)
    (hlt : size < 2 ^ 31) (hf : ∀ n, Framed (f n)) (hlen : ∀ n, (f n).length = 1024) (k : Nat)
    (hroom : 1024 * (k + 1) ≤ size) :
    ∃ s' buf', run ringStep s ((range k).map fun j => .produce (f j)) = some s' ∧
      s'.Wrapped size k q buf' ∧
      (0 < k → circRead size buf' (1024 * (k - 1)) 1024 = f (k - 1)) := by
  induction k with
  | zero => exact ⟨s, buf, rfl, hs, fun h => absurd h (lt_irrefl 0)⟩
  | succ k ih =>
    obtain ⟨s₁, buf₁, hrun, hw, -⟩ := ih (by omega)
    obtain ⟨s₂, hrun', hw'⟩ := hw.produce (by omega) hlt (hf k) (hlen k)
    refine ⟨s₂, _, ?_, hw', fun _ => ?_⟩
    · rw [range_succ, map_append]
      exact run_trans hrun hrun'
    · have hfits : (f k).length ≤ size := by
        rw [hlen k]
        omega
      have hback := circRead_circWrite buf₁ (1024 * k) hfits
      rwa [hlen k] at hback

/-- An upsert of 1 KB in its frame, by its number. -/
def numbered (n : Nat) : WalRec where
  type := 4
  col := [0x63#8]
  key := [0x6b#8]
  val := List.replicate 977 0#8
  wall := 0
  seq := n + 1
  ver := n + 1
  flags := 0#8

theorem length_numbered (n : Nat) : (numbered n).scratch.length = 1024 := by
  rw [WalRec.length_scratch, WalRec.length_payload]
  change recHdr + (33 + 1 + 1 + (replicate 977 _).length) = 1024
  rw [length_replicate]
  rfl

theorem fits_numbered (n : Nat) : recHdr + (numbered n).payload.length ≤ maxRec := by
  rw [← WalRec.length_scratch, length_numbered]
  decide

theorem encodable_numbered {n : Nat} (h : n < 2 ^ 32) : (numbered n).Encodable where
  known := rfl
  col := show 1 < 2 ^ 8 by decide
  key := show 1 < 2 ^ 16 by decide
  wall := show 0 < 2 ^ 64 by decide
  seq := by
    change n + 1 < 2 ^ 64
    omega
  ver := by
    change n + 1 < 2 ^ 64
    omega
  noVer := nofun
  noFlags := fun hf => absurd rfl hf
  fits := fits_numbered n

/-- Where 2^22 is not a multiple of the ring's KB, a record at the counters' wrap is overwritten
before it is read: 2^22 - 1 records of 1 KB go through the ring one by one, the next one waits
at the last KB of the counters, and those after it are written from position 0 on, up to where
it lies. -/
theorem record_overwritten {kb : Nat} (hkb : 0 < kb) (hmax : kb ≤ 2 ^ 20)
    (hnd : 0 < 2 ^ 22 % kb) (buf : Nat → Byte) :
    ∃ as s, run ringStep (.new (kb * 1024) buf) as = some s ∧ ∃ q ∈ s.waiting,
        walringCopy s.ring.buf s.ring.size q.pos q.bytes.length ≠ q.bytes := by
  obtain ⟨n, hn⟩ : ∃ n, n + 1 = 2 ^ 22 := ⟨2 ^ 22 - 1, by decide⟩
  have hm := mod_lt (2 ^ 22) hkb
  have hframed := fun n => framed_scratch (fits_numbered n)
  -- the counters up to the last KB
  obtain ⟨s₁, hrun₁, hidle⟩ := run_passes buf (f := fun n => (numbered n).scratch)
    (show kb * 1024 < 2 ^ 32 by omega) hframed length_numbered (by omega) n
  rw [show 1024 * n % 2 ^ 32 = 2 ^ 32 - 1024 by omega] at hidle
  -- the record that will be overwritten
  obtain ⟨s₂, buf₂, hrun₂, hwrap⟩ := hidle.wrap (by omega) (by omega) (hframed n)
    (length_numbered n)
  -- the records from position 0 on
  obtain ⟨s₃, buf₃, hrun₃, ⟨waiting, produced, drained, rfl⟩, hlast⟩ := run_wrapped
    (f := fun k => (numbered (2 ^ 22 + k)).scratch) hwrap (by omega)
    (fun k => hframed (2 ^ 22 + k)) (fun k => length_numbered (2 ^ 22 + k)) (2 ^ 22 % kb) (by omega)
  refine ⟨_, _, run_trans hrun₁ (run_trans hrun₂ hrun₃), _, mem_cons_self, ?_⟩
  have hpos : (2 ^ 32 - 1024) % (kb * 1024) = 1024 * (2 ^ 22 % kb - 1) := by
    have hdiv := div_add_mod (2 ^ 22) kb
    have hn' : n = kb * (2 ^ 22 / kb) + (2 ^ 22 % kb - 1) := by omega
    rw [show 2 ^ 32 - 1024 = 1024 * n by omega, mul_comm kb, mul_mod_mul_left]
    conv_lhs => rw [hn', mul_add_mod, mod_eq_of_lt (show 2 ^ 22 % kb - 1 < kb by omega)]
  dsimp only
  rw [hpos, length_numbered, walringCopy_eq (by omega) (by omega), hlast hnd]
  intro he
  have hsame := (encodable_numbered (by omega)).scratch_inj (encodable_numbered (by omega)) he
  have hseq : 2 ^ 22 + (2 ^ 22 % kb - 1) + 1 = n + 1 := congrArg WalRec.seq hsame
  omega

/-! ### Which rings lose nothing -/

/-- **A ring loses nothing exactly if its size in KB is a power of two**, of the sizes the
configuration admits. -/
theorem ring_lossless_iff {kb : Nat} (hmin : 4 ≤ kb) (hmax : kb ≤ 16384) :
    Lossless (kb * 1024) ↔ kb.isPowerOfTwo := by
  constructor
  · intro h
    by_contra hpow
    have hnd : 0 < 2 ^ 22 % kb := by
      refine pos_of_ne_zero fun h0 => hpow ?_
      obtain ⟨k, -, hk⟩ := (dvd_prime_pow prime_two).mp (dvd_of_mod_eq_zero h0)
      exact ⟨k, hk⟩
    obtain ⟨as, s, hrun, q, hq, hne⟩ := record_overwritten (by omega) (by omega) hnd fun _ => 0#8
    exact hne ((h _ as s hrun).intact q hq)
  · rintro ⟨k, rfl⟩
    have hk : k ≤ 14 := (Nat.pow_le_pow_iff_right (by decide)).mp (hmax.trans_eq (by decide))
    refine lossless_of_dvd ?_ (by omega) (by omega)
    rw [show 1024 = 2 ^ 10 from rfl, ← pow_add]
    exact pow_dvd_pow 2 (by omega)

/-- In a ring of 5 KB a record is overwritten before the pump has read it. -/
theorem ring_of_five_kb : ∃ as s, run ringStep (.new (5 * 1024) fun _ => 0#8) as = some s ∧
      ∃ q ∈ s.waiting, walringCopy s.ring.buf s.ring.size q.pos q.bytes.length ≠ q.bytes :=
  record_overwritten (by decide) (by decide) (by decide) _

theorem ring_lossless_one_mb : Lossless (1024 * 1024) :=
  (ring_lossless_iff (by decide) (by decide)).mpr ⟨10, by decide⟩

end Perfcached.Wal
