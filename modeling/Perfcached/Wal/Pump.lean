import Mathlib
import Perfcached.Lib.Machine

/-!
# Perfcached.Wal.Pump

The log's writer (`src/wal.c`): the segments and their spans, rotation, and what a
pass of the pump does with the records it drained.

A record is its sequence and its length here; what its bytes are is the concern of the
format. A slot of the segment ring is its span and generation in memory (`seg_first`,
`seg_last`, `seg_gen`), and what its file holds of the generation in its header. Writes and
syncs of this module succeed: the first that is refused stops the log for good
(`wal_storage_failed`), which is a step of its own where it matters.

The counters that only the statistics and the warnings read are left out.
-/

namespace Perfcached.Wal

/-- A record on its way to the log: its sequence, and its length with the record
header. -/
structure Entry where
  seq : Nat
  len : Nat
  deriving DecidableEq

/-- A slot of the segment ring. -/
structure Slot where
  /-- `seg_first`: 0 for none. -/
  first : Nat
  /-- `seg_last`: 0 while the span is open. -/
  last : Nat
  /-- `seg_gen`. -/
  gen : Nat
  /-- The generation in the file's header: 0 for none. -/
  fileGen : Nat
  /-- The sequences of the records the file holds of that generation, in order. -/
  recs : List Nat
  deriving DecidableEq

/-- A slot that was provisioned and never used. -/
def Slot.fresh : Slot := ⟨0, 0, 0, 0, []⟩

/-- What `CONTROL` records of a slot. -/
structure Span where
  gen : Nat
  first : Nat
  last : Nat
  deriving DecidableEq

/-- `CONTROL`. -/
structure Ctrl where
  seq : Nat
  spans : List Span
  deriving DecidableEq

/-- A record that was destroyed: the newest completed snapshot's marker then, and whether
an overrun was counted for it. -/
structure Gone where
  seq : Nat
  marker : Nat
  counted : Bool
  deriving DecidableEq

/-- The state of the log's writer. -/
structure WalState where
  segBytes : Nat
  slots : List Slot
  /-- The active slot. -/
  cur : Option Nat
  gen : Nat
  /-- The end of the active segment, with what is queued for it. -/
  off : Nat
  seq : Nat
  pendingHi : Nat
  syncedSeq : Nat
  /-- `pc_rdb_safe_marker`, and whether there are snapshots at all. -/
  marker : Nat
  haveRdb : Bool
  overruns : Nat
  /-- `CONTROL` on the disk; nothing when it is absent or torn. -/
  ctrl : Option Ctrl
  /-- The records written to the active descriptor since it was last synced. -/
  dirty : List Nat
  /-- The records written and covered by a later sync. -/
  durable : List Nat
  /-- The records destroyed so far. -/
  gone : List Gone
  deriving DecidableEq

/-- `PC_WAL_HDR`. -/
def hdr : Nat := 8

def WalState.slot (w : WalState) (i : Nat) : Slot := w.slots.getD i .fresh

def WalState.modifySlot (w : WalState) (i : Nat) (f : Slot → Slot) : WalState :=
  { w with slots := w.slots.modify i f }

def WalState.modifyCur (w : WalState) (f : Slot → Slot) : WalState :=
  { w with slots := w.cur.elim w.slots fun i => w.slots.modify i f }

def WalState.ctrlWrite (w : WalState) : WalState :=
  { w with ctrl := some ⟨w.seq, w.slots.map fun s => ⟨s.gen, s.first, s.last⟩⟩ }

/-- `wal_sync_commit`, of a sync the device took; `claim` moves the watermark. -/
def WalState.syncCommit (w : WalState) (claim : Bool) : WalState :=
  { w with
    durable := w.durable ++ w.dirty
    dirty := []
    syncedSeq := if claim then w.pendingHi else w.syncedSeq }

/-- `seg_hot`: records of the segment postdate the marker. -/
def WalState.segHot (w : WalState) (i : Nat) (marker : Nat) : Bool :=
  let s := w.slot i
  let last := if s.last ≠ 0 then s.last else w.pendingHi
  decide (0 < s.first) && decide (s.first ≤ last) && decide (marker < last)

/-- The choice of `next_slot`, over the slots so far. -/
def WalState.olderSlot (w : WalState) (best : Option Nat) (i : Nat) : Option Nat :=
  if w.cur = some i then best
  else
    match best with
    | none => some i
    | some b => if (w.slot i).gen < (w.slot b).gen then some i else some b

/-- `next_slot`: the oldest generation among the slots that are not active. -/
def WalState.nextSlot (w : WalState) : Nat :=
  ((List.range w.slots.length).foldl w.olderSlot none).getD 0

/-- The slot's records are about to be overwritten. -/
def WalState.destroy (w : WalState) (i : Nat) (counted : Bool) : WalState :=
  { w with
    overruns := if counted then w.overruns + 1 else w.overruns
    gone := w.gone ++ (w.slot i).recs.map fun n => ⟨n, w.marker, counted⟩ }

/-- `seg_activate`: a fresh generation in the slot's file; what the file held before is
fenced off by it. -/
def WalState.activate (w : WalState) (i gen : Nat) : WalState :=
  let w := w.modifySlot i fun _ => ⟨w.pendingHi + 1, 0, gen, gen, []⟩
  { w with gen, cur := some i, off := hdr }.ctrlWrite

/-- `seg_rotate`. -/
def WalState.rotate (w : WalState) : WalState :=
  let w := (w.syncCommit false).modifyCur fun s => { s with last := w.pendingHi }
  let i := w.nextSlot
  let counted := decide ((w.slot i).gen ≠ 0) && w.haveRdb && w.segHot i w.marker
  (w.destroy i counted).activate i ((w.gen + 1) % 2 ^ 32)

def WalState.seqNote (w : WalState) (seq : Nat) : WalState :=
  if seq ≤ w.pendingHi ∧ w.pendingHi ≠ 0 then w else { w with pendingHi := seq }

/-- `append_rec`, of a record that fits the active segment. -/
def WalState.put (w : WalState) (e : Entry) : WalState :=
  { w.modifyCur fun s => { s with recs := s.recs ++ [e.seq] } with
    off := w.off + e.len
    dirty := w.dirty ++ [e.seq] }

/-- The record does not fit the active segment. -/
def WalState.full (w : WalState) (e : Entry) : Prop := w.segBytes < w.off + e.len
  deriving Decidable

/-- One record of the batch: noted, and appended, to the next segment where the active
one is full. -/
def WalState.append (w : WalState) (e : Entry) : WalState :=
  let w := w.seqNote e.seq
  (if w.full e then w.rotate else w).put e

/-- The batch, sorted: three records that all fit the active segment are checksummed at
once. -/
def WalState.appendAll : WalState → List Entry → WalState
  | w, a :: b :: c :: es =>
    if w.off + a.len + b.len + c.len ≤ w.segBytes then
      appendAll ((((((w.seqNote a.seq).seqNote b.seq).seqNote c.seq).put a).put b).put c) es
    else appendAll (w.append a) (b :: c :: es)
  | w, a :: es => appendAll (w.append a) es
  | w, [] => w

/-! ### The pieces of a pass -/

section Lemmas

variable (w : WalState)

@[simp] theorem seqNote_pendingHi (n : Nat) : (w.seqNote n).pendingHi = max w.pendingHi n := by
  unfold WalState.seqNote
  split
  · omega
  · change n = _
    omega

theorem seqNote_eq (n : Nat) : w.seqNote n = { w with pendingHi := max w.pendingHi n } := by
  unfold WalState.seqNote
  split
  · rw [max_eq_left (by omega)]
  · rw [max_eq_right (by omega)]

theorem seqNote_put (n : Nat) (e : Entry) : (w.put e).seqNote n = (w.seqNote n).put e := by
  rw [seqNote_eq, seqNote_eq]
  rfl

theorem append_of_fits {e : Entry} (h : w.off + e.len ≤ w.segBytes) :
    w.append e = (w.seqNote e.seq).put e := by
  rw [WalState.append, if_neg]
  rw [seqNote_eq, WalState.full]
  exact not_lt.mpr h

@[simp] theorem put_off (e : Entry) : (w.put e).off = w.off + e.len := rfl

@[simp] theorem put_segBytes (e : Entry) : (w.put e).segBytes = w.segBytes := rfl

@[simp] theorem seqNote_off (n : Nat) : (w.seqNote n).off = w.off := by rw [seqNote_eq]

@[simp] theorem seqNote_segBytes (n : Nat) : (w.seqNote n).segBytes = w.segBytes := by
  rw [seqNote_eq]

end Lemmas

/-- The batch goes record by record, three at once or not. -/
theorem appendAll_eq (w : WalState) (es : List Entry) :
    w.appendAll es = es.foldl WalState.append w := by
  fun_induction WalState.appendAll w es with
  | case1 w a b c es hfit ih =>
    have ha : w.append a = (w.seqNote a.seq).put a := append_of_fits w (by omega)
    have hb : ((w.seqNote a.seq).put a).append b =
        (((w.seqNote a.seq).seqNote b.seq).put a).put b := by
      rw [append_of_fits _ (by simp; omega), seqNote_put]
    have hc : ((((w.seqNote a.seq).seqNote b.seq).put a).put b).append c =
        (((((w.seqNote a.seq).seqNote b.seq).seqNote c.seq).put a).put b).put c := by
      rw [append_of_fits _ (by simp; omega), seqNote_put, seqNote_put]
    rw [ih, List.foldl_cons, List.foldl_cons, List.foldl_cons, ha, hb, hc]
  | case2 w a b c es hfit ih =>
    rw [ih]
    rfl
  | case3 w a es _ ih =>
    rw [ih]
    rfl
  | case4 w => rfl

end Perfcached.Wal
