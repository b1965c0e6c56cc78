import Perfcached.Wal.Format
import Perfcached.Wal.Pump

/-!
# Perfcached.Wal.Scan

The log's bytes: what the pump writes to a segment file, and what `pc_wal_scan` reads back
(`src/wal.c`, `src/walscan.c`).

A segment file is recycled as it is: only its header changes, and the records of the older
generations stay behind the new ones until they are overwritten. The scan tells them apart by
the generation every record repeats and by a checksum over the generation and the payload.
Both can be computed by whoever chose the older bytes. So the scan delivers exactly the
records of the current generation where the bytes behind the last one do not read as one
(`scan_exact_iff`), and a client's value can hold bytes that do (`forged_record_delivered`).
-/

namespace Perfcached.Wal

open Bytes Machine List Option Nat

/-! ### Writing -/

def walMagic : Nat := 0x4C574350

/-- `seg_write_header`. -/
def segHeader (gen : Nat) : List Byte := leBytes 4 walMagic ++ leBytes 4 gen

/-- The checksum covers the generation and the payload. -/
def recCrc (gen : Nat) (payload : List Byte) : Nat :=
  (pcCrc32c 0#32 (leBytes 4 gen ++ payload)).toNat

/-- The pump's stamp of the generation and the checksum on a drained record. -/
def stamp (gen : Nat) (bytes : List Byte) : List Byte :=
  bytes.take 4 ++
    (leBytes 4 (recCrc gen (bytes.drop recHdr)) ++ (leBytes 4 gen ++ bytes.drop recHdr))

/-- A block written to a file. -/
def pwrite (file : List Byte) (off : Nat) (bytes : List Byte) : List Byte :=
  file.take off ++ (bytes ++ file.drop (off + bytes.length))

/-! ### Reading -/

/-- Why the scan stopped. -/
inductive Why
  | finished
  | torn
  | staleGen
  deriving DecidableEq

/-- The scan's buffer after a read to its start. -/
def load (buf bytes : List Byte) : List Byte := bytes ++ buf.drop bytes.length

/-- What the scan finds at an offset: a reason to stop, or none of its own, or a record and
its length; and the buffer. -/
inductive Found
  | stop (why : Option Why) (buf : List Byte)
  | record (r : WalRec) (buf : List Byte) (len : Nat)

def Found.buf : Found → List Byte
  | .stop _ buf => buf
  | .record _ buf _ => buf

/-- One turn of the scan's loop; `rest` is the file from the offset on. -/
def scanRec (gen : Nat) (buf rest : List Byte) : Found :=
  if rest.length < recHdr then .stop none buf
  else
    let len := rd 4 rest
    if len = 0 then .stop none buf
    else if maxRec < len then .stop (some .torn) buf
    else if rd 4 (rest.drop 8) ≠ gen then .stop (some .staleGen) buf
    else
      let buf := load buf ((rest.drop 8).take (4 + len))
      if rest.length < recHdr + len then .stop (some .torn) buf
      else if (pcCrc32c 0#32 (buf.take (4 + len))).toNat ≠ rd 4 (rest.drop 4) then
        .stop (some .torn) buf
      else
        match parse (buf.drop 4) len with
        | none => .stop (some .torn) buf
        | some r => .record r buf (recHdr + len)

/-- What the scan has handed to its callback, and its buffer. -/
structure Scan where
  recs : List WalRec
  why : Why
  buf : List Byte

/-- What the scan's buffer holds of a record whose length is believed. -/
def loadRec (buf rest : List Byte) : List Byte :=
  load buf ((rest.drop 8).take (4 + rd 4 rest))

/-- The bytes read as a record of the generation: its length is one, it is all there, it
repeats the generation and its checksum is right, and it is of an unknown type or its parts
add up to its length. -/
structure Reads (gen : Nat) (buf rest : List Byte) (r : WalRec) : Prop where
  hdr : recHdr ≤ rest.length
  pos : rd 4 rest ≠ 0
  max : rd 4 rest ≤ maxRec
  gen : rd 4 (rest.drop 8) = gen
  whole : recHdr + rd 4 rest ≤ rest.length
  crc : (pcCrc32c 0#32 ((rest.drop 8).take (4 + rd 4 rest))).toNat = rd 4 (rest.drop 4)
  parts : parse ((loadRec buf rest).drop 4) (rd 4 rest) = some r

variable {rest : List Byte}

theorem take_loadRec (buf : List Byte) (h : recHdr + rd 4 rest ≤ rest.length) :
    (loadRec buf rest).take (4 + rd 4 rest) = (rest.drop 8).take (4 + rd 4 rest) := by
  refine take_left' ?_
  rw [length_take, length_drop]
  rw [recHdr] at h
  omega

variable {gen : Nat} {r : WalRec}

theorem Reads.scanRec {buf : List Byte} (h : Reads gen buf rest r) :
    scanRec gen buf rest = .record r (loadRec buf rest) (recHdr + rd 4 rest) := by
  have hcrc := h.crc
  rw [← take_loadRec buf h.whole] at hcrc
  have hparts := h.parts
  unfold loadRec at hcrc hparts
  unfold Wal.scanRec loadRec
  simp only [if_neg (not_lt.mpr h.hdr), if_neg h.pos, if_neg (not_lt.mpr h.max), h.gen,
    ne_eq, not_true_eq_false, if_false, if_neg (not_lt.mpr h.whole), hcrc, hparts]

theorem reads_of_scanRec {buf buf' : List Byte} {n : Nat}
    (h : scanRec gen buf rest = .record r buf' n) : Reads gen buf rest r := by
  unfold Wal.scanRec at h
  dsimp only at h
  split at h
  · cases h
  split at h
  · cases h
  split at h
  · cases h
  split at h
  · cases h
  split at h
  · cases h
  rename_i hhdr hpos hmax hgen hwhole
  split at h
  · cases h
  rename_i hcrc
  split at h
  · cases h
  · rename_i r' hparts
    obtain ⟨rfl, -, -⟩ := Found.record.inj h
    have hwhole := not_lt.mp hwhole
    refine ⟨not_lt.mp hhdr, hpos, not_lt.mp hmax, not_not.mp hgen, hwhole, ?_, hparts⟩
    rw [← take_loadRec buf hwhole]
    exact not_not.mp hcrc

/-- The scan of one segment, from an offset on. -/
def scanSeg (gen : Nat) (s : Scan) (rest : List Byte) : Scan :=
  match _h : scanRec gen s.buf rest with
  | .stop why buf => ⟨s.recs, why.getD s.why, buf⟩
  | .record r buf len => scanSeg gen ⟨s.recs ++ [r], s.why, buf⟩ (rest.drop len)
termination_by rest.length
decreasing_by
  have hr := reads_of_scanRec _h
  obtain ⟨-, -, rfl⟩ := Found.record.inj (hr.scanRec.symm.trans _h)
  have hhdr := hr.hdr
  rw [List.length_drop]
  rw [recHdr] at hhdr ⊢
  omega

/-- The generation in a segment file's header, where it has one. -/
def segGen (file : List Byte) : Option Nat :=
  if hdr ≤ file.length ∧ rd 4 file = walMagic then some (rd 4 (file.drop 4)) else none

/-- `pc_wal_scan`: the segments in generation order. The buffer is as it was allocated. -/
def pcWalScan (files : List (List Byte)) (buf : List Byte) : Scan :=
  let segs := files.filterMap fun f => (segGen f).map fun gen => (gen, f)
  let segs := segs.insertionSort fun a b => a.1 ≤ b.1
  segs.foldl (fun s seg => scanSeg seg.1 s (seg.2.drop hdr)) ⟨[], .finished, buf⟩

/-! ### A segment's scan -/

theorem Reads.scanSeg {s : Scan} (h : Reads gen s.buf rest r) :
    scanSeg gen s rest =
      scanSeg gen ⟨s.recs ++ [r], s.why, loadRec s.buf rest⟩ (rest.drop (recHdr + rd 4 rest)) := by
  rw [Wal.scanSeg]
  split
  · rename_i why buf hstop
    rw [h.scanRec] at hstop
    cases hstop
  · rename_i r' buf len hrec
    rw [h.scanRec] at hrec
    obtain ⟨rfl, rfl, rfl⟩ := Found.record.inj hrec
    rfl

/-- Where the bytes do not read as a record the scan stops, with nothing more delivered. -/
theorem scanSeg_stop {s : Scan} (h : ¬ ∃ r, Reads gen s.buf rest r) :
    ∃ why, scanSeg gen s rest = ⟨s.recs, why, (scanRec gen s.buf rest).buf⟩ := by
  rw [Wal.scanSeg]
  split
  · rename_i why buf hstop
    rw [hstop]
    exact ⟨_, rfl⟩
  · rename_i r buf len hrec
    exact absurd ⟨r, reads_of_scanRec hrec⟩ h

theorem recs_isPrefix_scanSeg (gen : Nat) (s : Scan) (rest : List Byte) :
    s.recs <+: (scanSeg gen s rest).recs := by
  fun_induction scanSeg gen s rest with
  | case1 s rest why buf hstop => exact prefix_refl _
  | case2 s rest r buf len hrec ih => exact (prefix_append _ _).trans ih

theorem Reads.mem_scanSeg {s : Scan} (h : Reads gen s.buf rest r) :
    s.recs ++ [r] <+: (Wal.scanSeg gen s rest).recs := by
  rw [h.scanSeg]
  exact recs_isPrefix_scanSeg gen ⟨s.recs ++ [r], s.why, loadRec s.buf rest⟩ _

/-! ### What the pump wrote is read -/

def frame (gen : Nat) (r : WalRec) : List Byte :=
  leBytes 4 r.payload.length ++ (leBytes 4 (recCrc gen r.payload) ++ (leBytes 4 gen ++ r.payload))

theorem stamp_scratch (gen : Nat) (r : WalRec) : stamp gen r.scratch = frame gen r := by
  rw [stamp, r.drop_scratch, WalRec.scratch, take_left' (length_leBytes 4 _)]
  rfl

@[simp] theorem length_frame (gen : Nat) (r : WalRec) :
    (frame gen r).length = recHdr + r.payload.length := by
  simp only [frame, length_append, length_leBytes, recHdr]
  omega

section Frame

variable {gen : Nat} {r : WalRec} (buf rest : List Byte)

theorem drop_frame : (frame gen r ++ rest).drop (recHdr + r.payload.length) = rest :=
  drop_left' (length_frame gen r)

theorem drop_four_frame : (frame gen r ++ rest).drop 4 =
    leBytes 4 (recCrc gen r.payload) ++ ((leBytes 4 gen ++ r.payload) ++ rest) := by
  simp only [frame, append_assoc]
  rw [show 4 = 4 + 0 from rfl, drop_leBytes_add, drop_zero]

theorem drop_eight_frame : (frame gen r ++ rest).drop 8 = (leBytes 4 gen ++ r.payload) ++ rest := by
  rw [show 8 = 4 + 4 from rfl, ← drop_drop, drop_four_frame, drop_left' (length_leBytes 4 _)]

variable (h : r.Encodable)
include h

theorem rd_frame : rd 4 (frame gen r ++ rest) = r.payload.length := by
  rw [frame, append_assoc, rd_append_of_lt h.length_lt]

theorem take_frame : ((frame gen r ++ rest).drop 8).take (4 + rd 4 (frame gen r ++ rest)) =
    leBytes 4 gen ++ r.payload := by
  rw [rd_frame rest h, drop_eight_frame, take_left' (by simp)]

theorem loadRec_frame :
    loadRec buf (frame gen r ++ rest) = load buf (leBytes 4 gen ++ r.payload) := by
  rw [loadRec, take_frame rest h]

/-- **A record of the generation is read back**, whatever the buffer holds. -/
theorem reads_frame (hgen : gen < 2 ^ 32) : Reads gen buf (frame gen r ++ rest) r where
  hdr := by
    rw [length_append, length_frame]
    omega
  pos := by
    rw [rd_frame rest h, r.length_payload, hdrLen_eq]
    omega
  max := by
    rw [rd_frame rest h]
    exact (le_add_left _ _).trans h.fits
  gen := by
    rw [drop_eight_frame, append_assoc, rd_append_of_lt hgen]
  whole := by
    rw [rd_frame rest h, length_append, length_frame]
    omega
  crc := by
    rw [take_frame rest h, drop_four_frame, rd_append_of_lt (BitVec.isLt _)]
    rfl
  parts := by
    rw [loadRec_frame buf rest h, rd_frame rest h, load, append_assoc,
      drop_left' (length_leBytes 4 _)]
    exact h.parse_payload _

end Frame

/-- The records of a generation, one after the other. -/
def frames (gen : Nat) (recs : List WalRec) : List Byte := recs.flatMap (frame gen)

theorem frames_concat (gen : Nat) (recs : List WalRec) (r : WalRec) :
    frames gen (recs ++ [r]) = frames gen recs ++ frame gen r := by
  rw [frames, flatMap_append, flatMap_singleton]
  rfl

/-- The scan's buffer after those records. -/
def bufAfter (gen : Nat) (buf : List Byte) (recs : List WalRec) : List Byte :=
  recs.foldl (fun b r => load b (leBytes 4 gen ++ r.payload)) buf

/-- The scan goes through the records of the generation to what lies behind them. -/
theorem scanSeg_frames (hgen : gen < 2 ^ 32) {recs : List WalRec} (h : ∀ r ∈ recs, r.Encodable)
    (s : Scan) (rest : List Byte) :
    scanSeg gen s (frames gen recs ++ rest) =
      scanSeg gen ⟨s.recs ++ recs, s.why, bufAfter gen s.buf recs⟩ rest := by
  induction recs generalizing s with
  | nil =>
    rw [append_nil]
    rfl
  | cons r recs ih =>
    have hr := h r mem_cons_self
    rw [frames, flatMap_cons, append_assoc, (reads_frame s.buf _ hr hgen).scanSeg,
      rd_frame _ hr, drop_frame, loadRec_frame _ _ hr]
    refine (ih (fun r' hr' => h r' (mem_cons_of_mem _ hr')) _).trans ?_
    rw [append_assoc]
    rfl

/-! ### The segments and their files -/

/-- A segment: its file, the generation it was last activated with, and the records appended
since. -/
structure Segment where
  file : List Byte
  gen : Option Nat
  recs : List WalRec

/-- The log's files, and the active one. -/
structure LogFiles where
  segs : List Segment
  cur : Option Nat
  gen : Nat
  off : Nat

def LogFiles.new : LogFiles := ⟨[], none, 0, 0⟩

/-- What the writer does to the files. A crash at a record boundary leaves them as some of
these steps did. -/
inductive FileAct
  /-- `seg_provision`: zeros from end to end. -/
  | provision (bytes : Nat)
  /-- `seg_activate`: only the header is written. -/
  | activate (i gen : Nat)
  /-- `append_rec`, of a record that fits the segment. -/
  | append (r : WalRec)

def Segment.activate (s : Segment) (gen : Nat) : Segment :=
  ⟨pwrite s.file 0 (segHeader gen), some gen, []⟩

def Segment.append (s : Segment) (gen off : Nat) (r : WalRec) : Segment :=
  ⟨pwrite s.file off (stamp gen r.scratch), s.gen, s.recs ++ [r]⟩

def fileStep (l : LogFiles) : FileAct → Option LogFiles
  | .provision bytes => some { l with segs := l.segs ++ [⟨List.replicate bytes 0#8, none, []⟩] }
  | .activate i gen =>
    l.segs[i]?.bind fun s =>
      if hdr ≤ s.file.length ∧ gen < 2 ^ 32 then
        some ⟨l.segs.modify i fun s => s.activate gen, some i, gen, hdr⟩
      else none
  | .append r =>
    l.cur.bind fun c => l.segs[c]?.bind fun s =>
      if r.Encodable ∧ l.off + r.scratch.length ≤ s.file.length then
        some { l with
          segs := l.segs.modify c fun s => s.append l.gen l.off r
          off := l.off + r.scratch.length }
      else none

/-! ### What a segment file holds -/

/-- A segment's file: zeros before its first activation; then the header of the generation,
the records since, and what was there before. -/
def Segment.Holds (s : Segment) : Prop :=
  (s.gen = none ∧ s.recs = [] ∧ ∃ n, s.file = List.replicate n 0#8) ∨
    ∃ gen left, s.gen = some gen ∧ gen < 2 ^ 32 ∧ (∀ r ∈ s.recs, r.Encodable) ∧
      s.file = segHeader gen ++ (frames gen s.recs ++ left)

theorem pwrite_append (p q bytes : List Byte) :
    pwrite (p ++ q) p.length bytes = p ++ (bytes ++ q.drop bytes.length) := by
  rw [pwrite, take_left, ← drop_drop, drop_left]

theorem pwrite_start {p q bytes : List Byte} (h : p.length = bytes.length) :
    pwrite (p ++ q) 0 bytes = bytes ++ q := by
  rw [pwrite, take_zero, nil_append, zero_add, ← h, drop_left]

@[simp] theorem length_segHeader (gen : Nat) : (segHeader gen).length = hdr := by
  simp [segHeader, hdr]

variable {s : Segment}

/-- An activation leaves everything behind the header as it was. -/
theorem Segment.Holds.activate (hlen : hdr ≤ s.file.length) (hgen : gen < 2 ^ 32) :
    (s.activate gen).Holds := by
  refine .inr ⟨gen, s.file.drop hdr, rfl, hgen, forall_mem_nil _, ?_⟩
  change pwrite s.file 0 (segHeader gen) = segHeader gen ++ s.file.drop hdr
  conv_lhs => rw [← take_append_drop hdr s.file]
  refine pwrite_start ?_
  rw [length_take, length_segHeader]
  omega

/-- A record goes behind those of its generation. -/
theorem Segment.Holds.append {off : Nat} (h : s.Holds) (hgen : s.gen = some gen)
    (hoff : off = hdr + (frames gen s.recs).length) (hr : r.Encodable) :
    (s.append gen off r).Holds := by
  obtain ⟨hnone, -⟩ | ⟨gen', left, hgen', hlt, henc, hfile⟩ := h
  · cases hnone.symm.trans hgen
  · obtain rfl := some.inj (hgen'.symm.trans hgen)
    refine .inr ⟨gen', left.drop (frame gen' r).length, hgen, hlt, ?_, ?_⟩
    · intro r' hr'
      rcases mem_append.mp hr' with hr' | hr'
      · exact henc r' hr'
      · rw [mem_singleton.mp hr']
        exact hr
    · change pwrite s.file off (stamp gen' r.scratch) = _
      have hoff' : off = (segHeader gen' ++ frames gen' s.recs).length := by
        rw [length_append, length_segHeader, hoff]
      rw [hfile, ← append_assoc, hoff', pwrite_append, stamp_scratch]
      change _ = segHeader gen' ++ (frames gen' (s.recs ++ [r]) ++ _)
      rw [frames_concat]
      simp only [append_assoc]

/-- The log's files: every segment holds its records, and the active one is written at the end
of its own. -/
structure LogFiles.Sound (l : LogFiles) : Prop where
  holds : ∀ s ∈ l.segs, s.Holds
  active : ∀ c, l.cur = some c → ∃ s, l.segs[c]? = some s ∧ s.gen = some l.gen ∧
    l.off = hdr + (frames l.gen s.recs).length

theorem mem_modify {α : Type} {l : List α} {i : Nat} {f : α → α} {x : α} (h : x ∈ l.modify i f) :
    x ∈ l ∨ ∃ y, l[i]? = some y ∧ x = f y := by
  obtain ⟨j, hj⟩ := mem_iff_getElem?.mp h
  rw [getElem?_modify] at hj
  obtain ⟨y, hy, rfl⟩ := map_eq_some_iff.mp hj
  split
  · exact .inr ⟨y, ‹i = j› ▸ hy, rfl⟩
  · exact .inl (mem_of_getElem? hy)

variable {l : LogFiles}

open Segment

/-- Every step of the writer keeps the files sound. -/
theorem LogFiles.Sound.step {l' : LogFiles} {a : FileAct} (h : l.Sound)
    (hs : fileStep l a = some l') : l'.Sound := by
  cases a with
  | provision bytes =>
    cases hs
    refine ⟨fun s hs => ?_, fun c hc => ?_⟩
    · rcases mem_append.mp hs with hs | hs
      · exact h.holds s hs
      · rw [mem_singleton.mp hs]
        exact .inl ⟨rfl, rfl, bytes, rfl⟩
    · obtain ⟨s, hs, hact⟩ := h.active c hc
      have hlt := (List.getElem?_eq_some_iff.mp hs).1
      exact ⟨s, by rw [getElem?_append_left hlt, hs], hact⟩
  | activate i gen =>
    obtain ⟨s, hsi, hs⟩ := bind_eq_some_iff.mp hs
    obtain ⟨hok, ⟨⟩⟩ := ite_none_right_eq_some.mp hs
    refine ⟨fun t ht => ?_, fun c hc => ?_⟩
    · rcases mem_modify ht with ht | ⟨y, hy, rfl⟩
      · exact h.holds t ht
      · obtain rfl := some.inj (hsi.symm.trans hy)
        exact Holds.activate hok.1 hok.2
    · cases hc
      refine ⟨s.activate gen, ?_, rfl, rfl⟩
      rw [getElem?_modify_eq, hsi]
      rfl
  | append r =>
    obtain ⟨c, hc, hs⟩ := bind_eq_some_iff.mp hs
    obtain ⟨s, hsc, hs⟩ := bind_eq_some_iff.mp hs
    obtain ⟨hok, ⟨⟩⟩ := ite_none_right_eq_some.mp hs
    obtain ⟨s', hs', hgen, hoff⟩ := h.active c hc
    obtain rfl := some.inj (hsc.symm.trans hs')
    refine ⟨fun t ht => ?_, fun c' hc' => ?_⟩
    · rcases mem_modify ht with ht | ⟨y, hy, rfl⟩
      · exact h.holds t ht
      · obtain rfl := some.inj (hsc.symm.trans hy)
        exact (h.holds s (mem_of_getElem? hsc)).append hgen hoff hok.1
    · obtain rfl := some.inj (hc.symm.trans hc')
      refine ⟨s.append l.gen l.off r, ?_, hgen, ?_⟩
      · rw [getElem?_modify_eq, hsc]
        rfl
      · change l.off + r.scratch.length = hdr + (frames l.gen (s.recs ++ [r])).length
        rw [frames_concat, length_append, length_frame, r.length_scratch, hoff]
        omega

theorem sound_run {as : List FileAct} (hrun : run fileStep .new as = some l) : l.Sound := by
  have hnew : LogFiles.new.Sound := ⟨forall_mem_nil _, nofun⟩
  exact run_invariant (fun _ _ _ h _ hs => h.step hs) hnew (along_true _ _ as) hrun

/-! ### The scan of the log -/

theorem segGen_segHeader (hgen : gen < 2 ^ 32) (q : List Byte) :
    segGen (segHeader gen ++ q) = some gen := by
  have hmagic : rd 4 (segHeader gen ++ q) = walMagic := by
    rw [segHeader, append_assoc, rd_append_of_lt (by decide)]
  have hfield : rd 4 ((segHeader gen ++ q).drop 4) = gen := by
    rw [segHeader, append_assoc, drop_left' (length_leBytes 4 _), rd_append_of_lt hgen]
  have hlen : hdr ≤ (segHeader gen ++ q).length := by
    rw [length_append, length_segHeader]
    exact le_add_right _ _
  rw [segGen, if_pos ⟨hlen, hmagic⟩, hfield]

theorem leNat_replicate_zero (n : Nat) : leNat (replicate n 0#8) = 0 := by
  induction n with
  | zero => rfl
  | succ n ih =>
    rw [replicate_succ, leNat_cons, ih]
    rfl

theorem segGen_zeros (n : Nat) : segGen (replicate n 0#8) = none := by
  have hmagic : rd 4 (replicate n 0#8) ≠ walMagic := by
    rw [rd, take_replicate, leNat_replicate_zero]
    decide
  rw [segGen, if_neg fun h => hmagic h.2]

theorem Segment.Holds.segGen (h : s.Holds) : segGen s.file = s.gen := by
  obtain ⟨hgen, -, n, hfile⟩ | ⟨gen, left, hgen, hlt, -, hfile⟩ := h
  · rw [hfile, hgen, segGen_zeros]
  · rw [hfile, hgen, segGen_segHeader hlt]

/-- The segments that have a generation, in its order. -/
def LogFiles.inOrder (l : LogFiles) : List (Nat × Segment) :=
  (l.segs.filterMap fun s => s.gen.map fun gen => (gen, s)).insertionSort fun a b => a.1 ≤ b.1

def scanAll (segs : List (Nat × Segment)) (s : Scan) : Scan :=
  segs.foldl (fun s seg => scanSeg seg.1 s (seg.2.file.drop hdr)) s

/-- `pc_wal_scan` goes through the segments in the order of their generations. -/
theorem LogFiles.Sound.pcWalScan (h : l.Sound) (buf : List Byte) :
    pcWalScan (l.segs.map file) buf = scanAll l.inOrder ⟨[], .finished, buf⟩ := by
  have hsegs : (l.segs.map file).filterMap
      (fun f => (Wal.segGen f).map fun gen => (gen, f)) =
      (l.segs.filterMap fun s => s.gen.map fun gen => (gen, s)).map fun p => (p.1, p.2.file) := by
    rw [filterMap_map, map_filterMap]
    refine filterMap_congr fun s hs => ?_
    change (Wal.segGen s.file).map _ = _
    rw [(h.holds s hs).segGen, Option.map_map]
    rfl
  rw [Wal.pcWalScan, scanAll, LogFiles.inOrder, hsegs,
    ← map_insertionSort (fun a b => a.1 ≤ b.1) _ _ _ fun a _ b _ => Iff.rfl, foldl_map]

/-- What lies behind the records of a segment's generation. -/
def Segment.left (s : Segment) (gen : Nat) : List Byte :=
  s.file.drop (hdr + (frames gen s.recs).length)

/-- A segment that has the generation it is listed with. -/
def Listed (p : Nat × Segment) : Prop := p.2.Holds ∧ p.2.gen = some p.1

theorem LogFiles.Sound.listed (h : l.Sound) : ∀ p ∈ l.inOrder, Listed p := by
  intro p hp
  rw [LogFiles.inOrder, mem_insertionSort, mem_filterMap] at hp
  obtain ⟨s, hs, hp⟩ := hp
  obtain ⟨gen, hgen, rfl⟩ := map_eq_some_iff.mp hp
  exact ⟨h.holds s hs, hgen⟩

/-- The scan of a segment delivers its records and goes on with what lies behind them. -/
theorem Listed.scanSeg {p : Nat × Segment} (h : Listed p) (s : Scan) :
    scanSeg p.1 s (p.2.file.drop hdr) =
      scanSeg p.1 ⟨s.recs ++ p.2.recs, s.why, bufAfter p.1 s.buf p.2.recs⟩ (p.2.left p.1) := by
  obtain ⟨⟨hnone, -⟩ | ⟨gen, left, hgen, hlt, henc, hfile⟩, hp⟩ := h
  · cases hnone.symm.trans hp
  · obtain rfl := some.inj (hgen.symm.trans hp)
    have hdrop : p.2.file.drop hdr = frames p.1 p.2.recs ++ left := by
      rw [hfile, drop_left' (length_segHeader _)]
    have hleft : p.2.left p.1 = left := by
      rw [Segment.left, ← drop_drop, hdrop, drop_left]
    rw [hdrop, hleft, scanSeg_frames hlt henc]

/-- The scan delivers at least the records of the segments. -/
theorem length_scanAll_ge {segs : List (Nat × Segment)} (h : ∀ p ∈ segs, Listed p) (s : Scan) :
    s.recs.length + (segs.flatMap fun p => p.2.recs).length ≤ (scanAll segs s).recs.length := by
  induction segs generalizing s with
  | nil => exact le_rfl
  | cons p segs ih =>
    have hp := h p mem_cons_self
    have hrest := ih (fun q hq => h q (mem_cons_of_mem _ hq)) (scanSeg p.1 s (p.2.file.drop hdr))
    have hmore := (recs_isPrefix_scanSeg p.1
      ⟨s.recs ++ p.2.recs, s.why, bufAfter p.1 s.buf p.2.recs⟩ (p.2.left p.1)).length_le
    rw [← hp.scanSeg s] at hmore
    rw [length_append] at hmore
    rw [flatMap_cons, length_append]
    change _ ≤ (scanAll segs (scanSeg p.1 s (p.2.file.drop hdr))).recs.length
    omega

/-- Behind the records of each segment nothing reads as one more of its generation. The scan's
buffer is what the records before it left there. -/
def Clean : List Byte → List (Nat × Segment) → Prop
  | _, [] => True
  | buf, p :: segs =>
    let buf := bufAfter p.1 buf p.2.recs
    (¬ ∃ r, Reads p.1 buf (p.2.left p.1) r) ∧ Clean (scanRec p.1 buf (p.2.left p.1)).buf segs

/-- The scan of the segments in turn delivers exactly their records where their ends are
clean. -/
theorem scanAll_exact_iff {segs : List (Nat × Segment)} (h : ∀ p ∈ segs, Listed p) (s : Scan) :
    (scanAll segs s).recs = s.recs ++ (segs.flatMap fun p => p.2.recs) ↔ Clean s.buf segs := by
  induction segs generalizing s with
  | nil =>
    rw [flatMap_nil, append_nil]
    exact iff_of_true rfl trivial
  | cons p segs ih =>
    have hp := h p mem_cons_self
    have hrest := fun q hq => h q (mem_cons_of_mem _ hq)
    change (scanAll segs (scanSeg p.1 s (p.2.file.drop hdr))).recs = _ ↔ _ ∧ _
    rw [hp.scanSeg s, flatMap_cons, ← append_assoc]
    by_cases hreads : ∃ r, Reads p.1 (bufAfter p.1 s.buf p.2.recs) (p.2.left p.1) r
    · -- one record more than there are
      refine iff_of_false (fun heq => ?_) fun hclean => hclean.1 hreads
      obtain ⟨r, hr⟩ := hreads
      have hge := length_scanAll_ge hrest (scanSeg p.1
        ⟨s.recs ++ p.2.recs, s.why, bufAfter p.1 s.buf p.2.recs⟩ (p.2.left p.1))
      have hmore := (Reads.mem_scanSeg
        (s := ⟨s.recs ++ p.2.recs, s.why, bufAfter p.1 s.buf p.2.recs⟩) hr).length_le
      rw [heq, length_append] at hge
      rw [length_append, length_singleton] at hmore
      dsimp only at hmore
      omega
    · obtain ⟨why, hstop⟩ := scanSeg_stop
        (s := ⟨s.recs ++ p.2.recs, s.why, bufAfter p.1 s.buf p.2.recs⟩) hreads
      rw [hstop, ih hrest]
      exact (and_iff_right hreads).symm

/-- **The scan delivers exactly the records of each segment's current generation** where no
end of a segment reads as one more; that is exact: where one does, it is delivered. -/
theorem scan_exact_iff {as : List FileAct} {l : LogFiles} (hrun : run fileStep .new as = some l)
    (buf : List Byte) :
    (pcWalScan (l.segs.map file) buf).recs = l.inOrder.flatMap (fun p => p.2.recs) ↔
      Clean buf l.inOrder := by
  have h := sound_run hrun
  rw [h.pcWalScan]
  exact scanAll_exact_iff h.listed ⟨[], .finished, buf⟩

/-! ### Bytes of an older generation that read as a record -/

/-- Whatever reads as a record behind the last one of its generation is delivered. -/
theorem mem_scanAll {segs : List (Nat × Segment)} (h : ∀ p ∈ segs, Listed p) {p : Nat × Segment}
    (hp : p ∈ segs) {r : WalRec} (hr : ∀ buf, Reads p.1 buf (p.2.left p.1) r) (s : Scan) :
    r ∈ (scanAll segs s).recs := by
  -- what was delivered stays delivered
  have hkeep : ∀ (segs : List (Nat × Segment)) (s : Scan),
      r ∈ s.recs → r ∈ (scanAll segs s).recs := by
    intro segs
    induction segs with
    | nil => exact fun s hs => hs
    | cons q segs ih => exact fun s hs => ih _ ((recs_isPrefix_scanSeg _ s _).subset hs)
  induction segs generalizing s with
  | nil => cases hp
  | cons q segs ih =>
    rcases mem_cons.mp hp with rfl | hp
    · refine hkeep segs _ ?_
      change r ∈ (scanSeg p.1 s (p.2.file.drop hdr)).recs
      rw [(h p mem_cons_self).scanSeg s]
      exact (hr _).mem_scanSeg.subset (mem_append_right _ (mem_singleton_self r))
    · exact ih (fun q hq => h q (mem_cons_of_mem _ hq)) hp _

/-- An upsert of the key `k` of the collection `c`. -/
def upsertOf (n : Nat) (val : List Byte) : WalRec := ⟨4, [0x63#8], [0x6b#8], val, 0, n, n, 0#8⟩

def forgedRec : WalRec := upsertOf 1000 [0x21#8]

/-- A client's value, chosen for the third generation. -/
def forgingRec : WalRec := upsertOf 1 (0#8 :: frame 3 forgedRec)

/-- A record as long as what stands before the forged one. -/
def laterRec : WalRec := upsertOf 2 [0#8]

/-- Two segments of 1 MB. The value is written to the first of them; two restarts later that
one is active again, and takes a record. -/
def forgery : List FileAct :=
  [.provision (2 ^ 20), .provision (2 ^ 20), .activate 0 1, .append forgingRec, .activate 1 2,
    .activate 0 3, .append laterRec]

theorem activate_file {p q : List Byte} {gen : Nat} {g : Option Nat} {recs : List WalRec}
    (hp : p.length = hdr) :
    activate ⟨p ++ q, g, recs⟩ gen = ⟨segHeader gen ++ q, some gen, []⟩ := by
  rw [activate, pwrite_start (hp.trans (length_segHeader gen).symm)]

theorem append_file {q : List Byte} {gen : Nat} {r : WalRec} :
    append ⟨segHeader gen ++ q, some gen, []⟩ gen hdr r =
      ⟨segHeader gen ++ (frame gen r ++ q.drop (frame gen r).length), some gen, [r]⟩ := by
  rw [append, stamp_scratch, ← length_segHeader gen, pwrite_append]
  rfl

/-- The forged record's bytes follow the part of the value's record that is overwritten. -/
theorem drop_forgingRec (q : List Byte) :
    (frame 1 forgingRec ++ q).drop (frame 3 laterRec).length = frame 3 forgedRec ++ q := rfl

def forgedFiles (q : List Byte) : LogFiles where
  segs :=
    [⟨segHeader 3 ++ (frame 3 laterRec ++ (frame 3 forgedRec ++
        q.drop (frame 1 forgingRec).length)), some 3, [laterRec]⟩,
      ⟨segHeader 2 ++ q, some 2, []⟩]
  cur := some 0
  gen := 3
  off := hdr + laterRec.scratch.length

/-- A segment of a file of that length can be activated. -/
theorem fileStep_activate {l : LogFiles} {i gen : Nat} {s : Segment} (hs : l.segs[i]? = some s)
    (hlen : hdr ≤ s.file.length) (hgen : gen < 2 ^ 32) :
    fileStep l (.activate i gen) =
      some ⟨l.segs.modify i fun s => s.activate gen, some i, gen, hdr⟩ := by
  simp only [fileStep, hs, bind_some, if_pos (And.intro hlen hgen)]

theorem fileStep_append {l : LogFiles} {c : Nat} {s : Segment} {r : WalRec} (hc : l.cur = some c)
    (hs : l.segs[c]? = some s) (hr : r.Encodable)
    (hfits : l.off + r.scratch.length ≤ s.file.length) :
    fileStep l (.append r) = some { l with
      segs := l.segs.modify c fun s => s.append l.gen l.off r
      off := l.off + r.scratch.length } := by
  simp only [fileStep, hc, hs, bind_some, if_pos (And.intro hr hfits)]

theorem run_forgery {p q : List Byte} (hz : replicate (2 ^ 20) 0#8 = p ++ q)
    (hp : p.length = hdr) (hq : 200 ≤ q.length) :
    run fileStep .new forgery = some (forgedFiles q) := by
  have hlen : hdr ≤ (p ++ q).length := by
    rw [length_append, hp]
    exact le_add_right _ _
  have hfits : ∀ (gen : Nat) (q' : List Byte), 200 ≤ q'.length →
      hdr + 200 ≤ (segHeader gen ++ q').length := by
    intro gen q' hq'
    rw [length_append, length_segHeader]
    omega
  have hforging : forgingRec.scratch.length = 96 := rfl
  have hlater : laterRec.scratch.length = 48 := rfl
  let rest := frame 1 forgingRec ++ q.drop (frame 1 forgingRec).length
  have hrest : 200 ≤ rest.length := by
    rw [length_append, length_drop]
    omega
  -- the record that forges one in its value, in generation 1
  have h3 : fileStep ⟨[⟨p ++ q, none, []⟩, ⟨p ++ q, none, []⟩], none, 0, 0⟩ (.activate 0 1) =
      some ⟨[⟨segHeader 1 ++ q, some 1, []⟩, ⟨p ++ q, none, []⟩], some 0, 1, hdr⟩ := by
    rw [fileStep_activate rfl hlen (by decide), modify_zero_cons, activate_file hp]
  have h4 : fileStep ⟨[⟨segHeader 1 ++ q, some 1, []⟩, ⟨p ++ q, none, []⟩], some 0, 1, hdr⟩
      (.append forgingRec) =
      some ⟨[⟨segHeader 1 ++ rest, some 1, [forgingRec]⟩, ⟨p ++ q, none, []⟩], some 0, 1,
        hdr + forgingRec.scratch.length⟩ := by
    rw [fileStep_append rfl rfl (by decide) (by have := hfits 1 q hq; dsimp only; omega),
      modify_zero_cons, append_file]
  have h5 : fileStep ⟨[⟨segHeader 1 ++ rest, some 1, [forgingRec]⟩, ⟨p ++ q, none, []⟩], some 0, 1,
      hdr + forgingRec.scratch.length⟩ (.activate 1 2) =
      some ⟨[⟨segHeader 1 ++ rest, some 1, [forgingRec]⟩, ⟨segHeader 2 ++ q, some 2, []⟩], some 1,
        2, hdr⟩ := by
    rw [fileStep_activate rfl hlen (by decide), modify_succ_cons, modify_zero_cons,
      activate_file hp]
  -- the slot is taken again: a shorter record ends where the forged one begins
  have h6 : fileStep ⟨[⟨segHeader 1 ++ rest, some 1, [forgingRec]⟩, ⟨segHeader 2 ++ q, some 2, []⟩],
      some 1, 2, hdr⟩ (.activate 0 3) =
      some ⟨[⟨segHeader 3 ++ rest, some 3, []⟩, ⟨segHeader 2 ++ q, some 2, []⟩], some 0, 3,
        hdr⟩ := by
    rw [fileStep_activate rfl (by have := hfits 1 rest hrest; dsimp only; omega) (by decide),
      modify_zero_cons, activate_file (length_segHeader 1)]
  have h7 : fileStep ⟨[⟨segHeader 3 ++ rest, some 3, []⟩, ⟨segHeader 2 ++ q, some 2, []⟩], some 0,
      3, hdr⟩ (.append laterRec) = some (forgedFiles q) := by
    rw [fileStep_append rfl rfl (by decide) (by have := hfits 3 rest hrest; dsimp only; omega),
      modify_zero_cons, append_file, drop_forgingRec]
    rfl
  have h1 : fileStep .new (.provision (2 ^ 20)) = some ⟨[⟨p ++ q, none, []⟩], none, 0, 0⟩ := by
    rw [← hz]
    rfl
  have h2 : fileStep ⟨[⟨p ++ q, none, []⟩], none, 0, 0⟩ (.provision (2 ^ 20)) =
      some ⟨[⟨p ++ q, none, []⟩, ⟨p ++ q, none, []⟩], none, 0, 0⟩ := by
    rw [← hz]
    rfl
  simp only [forgery, run, h1, h2, h3, h4, h5, h6, h7, bind_some]

/-- **A record nobody wrote is delivered.** The value of an older record holds a frame of the
coming generation, and the scan takes it for the record behind the last one. -/
theorem forged_record_delivered :
    ∃ l, run fileStep .new forgery = some l ∧
      forgedRec ∈ (pcWalScan (l.segs.map file) (replicate (maxRec + 16) 0#8)).recs ∧
      forgedRec ∉ l.inOrder.flatMap fun p => p.2.recs := by
  have hz : replicate (2 ^ 20) 0#8 =
      replicate hdr 0#8 ++ replicate (2 ^ 20 - hdr) 0#8 := by
    rw [replicate_append_replicate]
    rfl
  have hrun := run_forgery hz length_replicate (by rw [length_replicate]; decide)
  have hsound := sound_run hrun
  refine ⟨_, hrun, ?_, ?_⟩
  · rw [hsound.pcWalScan]
    refine mem_scanAll hsound.listed (mem_cons_of_mem _ mem_cons_self) (fun buf => ?_) _
    exact reads_frame buf _ (by decide) (by decide)
  · change forgedRec ∉ [laterRec]
    decide

/-- One record in a segment that is recycled: the frame in the older value lies right behind it, but
is of a generation to come. -/
def recycled : List FileAct :=
  [.provision 104, .activate 0 1, .append forgingRec, .activate 0 2, .append laterRec]

set_option maxRecDepth 4000 in
theorem scan_exact_iff_recycled : ∃ l, run fileStep .new recycled = some l ∧
      (pcWalScan (l.segs.map file) []).recs = [laterRec] :=
  ⟨_, rfl, (@scan_exact_iff recycled _ rfl []).mpr
    ⟨fun ⟨_, h⟩ => absurd h.gen (by decide +kernel), trivial⟩⟩

end Perfcached.Wal
