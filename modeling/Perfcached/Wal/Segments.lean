import Perfcached.Lib.Greatest
import Perfcached.Wal.Pump

/-!
# Perfcached.Wal.Segments

The recycling rule over the life of a log directory (`src/wal.c`).

A segment is recycled or retired by its span: `seg_hot` says whether the span holds a
sequence above the last completed snapshot's marker. The spans are kept in memory, written
to `CONTROL` where a sync is paid already, and read back by `pc_wal_init`, which closes what
a crash left open.

The machine of this module is a log directory over its whole life: a process appends, rotates,
grows and retires, takes snapshots, stops or dies at any of its writes, and the next one starts
from what the disk holds. The size of a segment is the configuration's and stays.

A span starts above `pending_hi`, which counts the record that caused the rotation already,
though that record is the first of the new segment. So the span of a segment that received
nothing newer is empty, and the rule reads it as cold (`cold_segment_holds_record`). Where
every span is closed at or above its start, a cold segment holds nothing above the marker
(`cold_segment_covered`).
-/

namespace Perfcached.Wal

open Machine List Option Nat

/-! ### What a stopped log leaves, and how the next process starts -/

/-- A segment file: the generation in its header, 0 for none, and the sequences of the
records it holds of that generation. -/
structure SegFile where
  gen : Nat
  recs : List Nat
  deriving DecidableEq

/-- The log's directory while no process runs. -/
structure Disk where
  segBytes : Nat
  files : List SegFile
  /-- `CONTROL`; nothing when it is absent or torn. -/
  ctrl : Option Ctrl
  /-- The completed snapshot's marker, and whether there are snapshots at all. -/
  marker : Nat
  haveRdb : Bool
  gone : List Gone
  deriving DecidableEq

def Disk.new (segBytes : Nat) (haveRdb : Bool) : Disk := ⟨segBytes, [], none, 0, haveRdb, []⟩

/-- The file of a slot; one that is missing is provisioned. -/
def Disk.file (d : Disk) (i : Nat) : SegFile := d.files.getD i ⟨0, []⟩

def Disk.spans (d : Disk) : List Span := d.ctrl.elim [] Ctrl.spans

/-- A slot's span of `CONTROL`: zeros where it has none. -/
def Disk.span (d : Disk) (i : Nat) : Span := d.spans.getD i ⟨0, 0, 0⟩

/-- The sequence that is resumed: the one of `CONTROL`, and at least what the replay
read. -/
def Disk.seq (d : Disk) : Nat := (d.files.flatMap SegFile.recs).foldl max (d.ctrl.elim 0 Ctrl.seq)

/-- The slots: as configured, as recorded, and up to the last file that has a header. -/
def Disk.nseg (d : Disk) (segments : Nat) : Nat :=
  max (max segments d.spans.length) (d.files.reverse.dropWhile fun f => f.gen = 0).length

/-- The highest generation among the headers. -/
def Disk.bestGen (d : Disk) : Nat := (d.files.map SegFile.gen).foldl max 0

/-- A span that `CONTROL` holds open is closed at the resumed sequence, or is empty. -/
def Disk.closed (d : Disk) (s : Span) : Span :=
  if s.first ≠ 0 ∧ s.last = 0 then
    if s.first ≤ d.seq then { s with last := d.seq } else { s with first := 0 }
  else s

def Disk.slot (d : Disk) (i : Nat) : Slot :=
  let s := d.closed (d.span i)
  let f := d.file i
  ⟨s.first, s.last, if s.gen = 0 then f.gen else s.gen, f.gen, f.recs⟩

/-- `pc_wal_init` up to the activation. The checkpoint after a recovery that brought
something back has the resumed sequence for its marker. -/
def Disk.resume (d : Disk) (segments : Nat) (checkpoint : Bool) : WalState where
  segBytes := d.segBytes
  slots := (List.range (d.nseg segments)).map d.slot
  cur := none
  gen := 0
  off := 0
  seq := d.seq
  pendingHi := d.seq
  syncedSeq := d.seq
  marker := if checkpoint then d.seq else d.marker
  haveRdb := d.haveRdb
  overruns := 0
  ctrl := d.ctrl
  dirty := []
  durable := d.files.flatMap SegFile.recs
  gone := d.gone

/-- Whether the start counts an overrun for the slot it takes. -/
def WalState.startCounts (w : WalState) (i : Nat) : Bool := w.haveRdb && w.segHot i w.marker

/-- A new header was written over the slot's records, and nothing else yet. -/
def WalState.header (w : WalState) (i gen : Nat) (counted : Bool) : WalState :=
  (w.destroy i counted).modifySlot i fun s => { s with fileGen := gen, recs := [] }

/-! ### A process of the log -/

/-- A running log. -/
structure Up where
  /-- `nseg_min`. -/
  segments : Nat
  /-- What the active file held before its activation, while the header is not synced. -/
  undo : Option SegFile
  w : WalState
  deriving DecidableEq

/-- What a slot's file holds. -/
def Slot.file (s : Slot) : SegFile := ⟨s.fileGen, s.recs⟩

/-- What `CONTROL` records of a slot. -/
def Slot.span (s : Slot) : Span := ⟨s.gen, s.first, s.last⟩

/-- What a crash takes of the active file: its new header while that is not synced, and the
records past the first `kept`. -/
structure Loss where
  header : Bool
  kept : Nat
  deriving DecidableEq

def Up.activeFile (u : Up) (l : Loss) (s : Slot) : SegFile :=
  let f := if l.header then u.undo.getD s.file else s.file
  ⟨f.gen, f.recs.take l.kept⟩

/-- The file of a slot, with what becomes of the active one. -/
def WalState.left (w : WalState) (active : Slot → SegFile) (i : Nat) (s : Slot) : SegFile :=
  if w.cur = some i then active s else s.file

def WalState.disk (w : WalState) (active : Slot → SegFile) : Disk where
  segBytes := w.segBytes
  files := w.slots.mapIdx (w.left active)
  ctrl := w.ctrl
  marker := w.marker
  haveRdb := w.haveRdb
  gone := w.gone

def WalState.closeCur (w : WalState) : WalState :=
  w.modifyCur fun s => { s with last := w.pendingHi }

/-- Whether a rotation counts an overrun for the slot it takes. -/
def WalState.rotateCounts (w : WalState) (i : Nat) : Bool :=
  decide ((w.slot i).gen ≠ 0) && w.haveRdb && w.segHot i w.marker

def Up.append (u : Up) (e : Entry) : Up where
  segments := u.segments
  undo :=
    let w := u.w.seqNote e.seq
    let closed := (w.syncCommit false).closeCur
    if w.full e then some (closed.slot closed.nextSlot).file else u.undo
  w := u.w.append e

def WalState.growAdopt (w : WalState) : WalState :=
  { w with slots := w.slots ++ [Slot.fresh] }.ctrlWrite

/-- The slot `shrink_check` retires: the highest that is cold and not active. -/
def WalState.retireSlot (w : WalState) : Option Nat :=
  (List.range w.slots.length).reverse.find? fun i =>
    decide (w.cur ≠ some i) && !w.segHot i w.marker

/-- The top slot takes the place of a retired one. -/
def WalState.moveTop (w : WalState) (k : Nat) : WalState :=
  let top := w.slots.length - 1
  { w with
    slots := (w.slots.modify k fun _ => w.slot top).dropLast
    cur := if w.cur = some top then some k else w.cur }

/-- A retired slot's file is gone, and it is provisioned again. -/
def WalState.reprovision (w : WalState) (k : Nat) : WalState := w.modifySlot k fun _ => .fresh

/-- `shrink_check`, from the retired file's end on; the top file is renamed or, where that
fails, the slot is provisioned again. -/
def WalState.retire (w : WalState) (k : Nat) (renamed : Bool) : WalState :=
  let w := w.destroy k false
  if k = w.slots.length - 1 ∨ renamed then (w.moveTop k).ctrlWrite else w.reprovision k

/-- The slot `shrink_check` retires, where it retires one. -/
def Up.retires (u : Up) : Option Nat :=
  if u.segments < u.w.slots.length ∧ u.w.haveRdb then u.w.retireSlot else none

/-- How a process ends. -/
inductive Stop
  /-- `pc_wal_shutdown`. -/
  | shutdown
  /-- A crash between two writes. -/
  | crash (l : Loss)
  /-- A crash inside a write of `CONTROL`. -/
  | tornControl (l : Loss)
  /-- A crash in a rotation, its header written and `CONTROL` not yet. -/
  | rotating (e : Entry)
  /-- A crash in a retire, before `CONTROL` and before or after the rename. -/
  | retiring (renamed : Bool) (l : Loss)
  deriving DecidableEq

def Up.stop (u : Up) : Stop → Option Disk
  | .shutdown => some (u.w.closeCur.ctrlWrite.disk Slot.file)
  | .crash l => some (u.w.disk (u.activeFile l))
  | .tornControl l => some { u.w.disk (u.activeFile l) with ctrl := none }
  | .rotating e =>
    let w := ((u.w.seqNote e.seq).syncCommit false).closeCur
    let i := w.nextSlot
    if u.w.full e then
      some ((w.header i ((w.gen + 1) % 2 ^ 32) (w.rotateCounts i)).disk Slot.file)
    else none
  | .retiring renamed l =>
    u.retires.map fun k =>
      let w := u.w.destroy k false
      (if renamed then w.moveTop k else w.reprovision k).disk (u.activeFile l)

/-! ### The life of the directory -/

/-- A log directory, with or without a process. -/
inductive Life
  | up (u : Up)
  | down (d : Disk)
  deriving DecidableEq

/-- What happens to a log. -/
inductive LifeAct
  /-- A producer stamps a record. -/
  | stamp
  /-- The pump appends a record that was stamped. -/
  | append (e : Entry)
  /-- The pump syncs. -/
  | sync
  /-- A snapshot with that marker is completed. -/
  | snapshot (m : Nat)
  | grow
  | retire (renamed : Bool)
  | stop (how : Stop)
  /-- `pc_wal_init`, with or without the checkpoint before it. -/
  | start (segments : Nat) (checkpoint : Bool)
  /-- A crash in `pc_wal_init`, its header written and `CONTROL` not yet. -/
  | startCut (segments : Nat) (checkpoint : Bool)
  deriving DecidableEq

def Disk.start (d : Disk) (segments : Nat) (checkpoint : Bool) : Up where
  segments := segments
  undo :=
    let w := d.resume segments checkpoint
    some (w.slot w.nextSlot).file
  w :=
    let w := d.resume segments checkpoint
    let i := w.nextSlot
    (w.destroy i (w.startCounts i)).activate i ((d.bestGen + 1) % 2 ^ 32)

/-- The directory a start leaves that did not get to `CONTROL`. -/
def Disk.startCut (d : Disk) (segments : Nat) (checkpoint : Bool) : Disk :=
  let w := d.resume segments checkpoint
  let i := w.nextSlot
  (w.header i ((d.bestGen + 1) % 2 ^ 32) (w.startCounts i)).disk Slot.file

def lifeStep : Life → LifeAct → Option Life
  | .up u, .stamp => some (.up { u with w := { u.w with seq := u.w.seq + 1 } })
  | .up u, .append e =>
    if 0 < e.seq ∧ e.seq ≤ u.w.seq then some (.up (u.append e)) else none
  | .up u, .sync => some (.up { u with undo := none, w := u.w.syncCommit true })
  | .up u, .snapshot m =>
    if m ≤ u.w.seq then some (.up { u with w := { u.w with marker := m } }) else none
  | .up u, .grow =>
    if u.w.slots.length < 256 then some (.up { u with w := u.w.growAdopt }) else none
  | .up u, .retire renamed => u.retires.map fun k => .up { u with w := u.w.retire k renamed }
  | .up u, .stop how => (u.stop how).map .down
  | .down d, .start segments checkpoint =>
    if 2 ≤ segments then some (.up (d.start segments checkpoint)) else none
  | .down d, .startCut segments checkpoint =>
    if 2 ≤ segments then some (.down (d.startCut segments checkpoint)) else none
  | _, _ => none

/-! ### The condition on the steps -/

/-- The active span, closed at `hi`, is not empty, or the segment is. -/
def WalState.Closes (w : WalState) (hi : Nat) : Prop :=
  ∀ c ∈ w.cur, (w.slot c).recs = [] ∨ (w.slot c).first ≤ hi
  deriving Decidable

/-- What a start needs of the directory: `CONTROL` reads where a segment holds a record, and
a span it holds open starts at or below the resumed sequence where its segment does. -/
def Disk.Readable (d : Disk) : Prop :=
  (d.ctrl = none → ∀ f ∈ d.files, f.recs = []) ∧
    ∀ i < d.files.length, (d.span i).first ≠ 0 → (d.span i).last = 0 →
      (d.file i).recs = [] ∨ (d.span i).first ≤ d.seq

instance (d : Disk) : Decidable d.Readable := inferInstanceAs (Decidable (_ ∧ _))

/-- A step that keeps the recycling rule sound: spans are closed at or above their start, no
generation is 0, `CONTROL` is there when it is needed, and no crash separates the move of a
segment that holds records from its span. -/
def LifeOk : Life → LifeAct → Prop
  | .up u, .append e =>
    u.w.full e → u.w.Closes (max u.w.pendingHi e.seq) ∧ (u.w.gen + 1) % 2 ^ 32 ≠ 0
  | .up u, .stop .shutdown => u.w.Closes u.w.pendingHi
  | .up u, .stop (.retiring true l) =>
    let top := u.w.slots.length - 1
    u.retires = some top ∨ (u.w.left (u.activeFile l) top (u.w.slot top)).recs = []
  | .down d, .start _ _ => d.Readable ∧ (d.bestGen + 1) % 2 ^ 32 ≠ 0
  | .down d, .startCut _ _ => d.Readable
  | _, _ => True

instance (l : Life) : DecidablePred (LifeOk l) := fun a => by
  unfold LifeOk
  split <;> infer_instance

/-! ### The slots -/

/-- A closed slot's span bounds its records. -/
def Slot.Bounded (s : Slot) : Prop :=
  s.recs = [] ∨ 0 < s.gen ∧ 0 < s.first ∧ s.first ≤ s.last ∧ ∀ n ∈ s.recs, n ≤ s.last

open Slot

theorem Slot.bounded_fresh : fresh.Bounded := .inl rfl

/-- The active slot's span is open, and `hi` bounds its records. -/
def Slot.Open (s : Slot) (hi : Nat) : Prop :=
  0 < s.gen ∧ 0 < s.first ∧ s.last = 0 ∧ ∀ n ∈ s.recs, n ≤ hi

/-- One slot is active and open, and every other one has its records bounded. -/
structure WalState.InOrder (w : WalState) : Prop where
  active : ∃ c < w.slots.length, w.cur = some c
  each : ∀ i s, w.slots[i]? = some s → if w.cur = some i then s.Open w.pendingHi else s.Bounded

def WalState.AllBounded (w : WalState) : Prop := ∀ s ∈ w.slots, s.Bounded

/-- No record was destroyed that a snapshot lacked, unless it was counted. -/
def GoneOk (haveRdb : Bool) (gone : List Gone) : Prop :=
  haveRdb = true → ∀ g ∈ gone, g.counted = false → g.seq ≤ g.marker

variable {w : WalState} {i : Nat} {s : Slot}

open WalState

theorem slot_eq (h : w.slots[i]? = some s) : w.slot i = s := by
  rw [slot, getD_eq_getElem?_getD, h]
  rfl

/-- A slot that is not there is as a new one. -/
theorem slot_bounded (h : ∀ s, w.slots[i]? = some s → s.Bounded) : (w.slot i).Bounded := by
  cases hs : w.slots[i]? with
  | none =>
    rw [slot, getD_eq_getElem?_getD, hs]
    exact bounded_fresh
  | some s =>
    rw [slot_eq hs]
    exact h s hs

theorem WalState.AllBounded.slot (h : w.AllBounded) (i : Nat) : (w.slot i).Bounded :=
  slot_bounded fun s hs => h s (mem_of_getElem? hs)

theorem WalState.InOrder.slot (h : w.InOrder) (hi : w.cur ≠ some i) : (w.slot i).Bounded := by
  refine slot_bounded fun s hs => ?_
  have hok := h.each i s hs
  rwa [if_neg hi] at hok

theorem getElem?_modifyCur (w : WalState) (f : Slot → Slot) (i : Nat) :
    (w.modifyCur f).slots[i]? = w.slots[i]?.map fun s => if w.cur = some i then f s else s := by
  unfold modifyCur
  cases w.cur with
  | none => exact Option.map_id'.symm
  | some c =>
    change (w.slots.modify c f)[i]? = _
    rw [getElem?_modify]
    simp only [some.injEq]
    rfl

theorem length_modifyCur (w : WalState) (f : Slot → Slot) :
    (w.modifyCur f).slots.length = w.slots.length := by
  unfold modifyCur
  cases w.cur with
  | none => rfl
  | some c => exact length_modify _ _ _

/-- Where the slot at `i` was before the top one took the place of `k`. -/
def WalState.movedFrom (w : WalState) (k i : Nat) : Nat := if i = k then w.slots.length - 1 else i

variable {k : Nat}

theorem length_moveTop (w : WalState) (k : Nat) :
    (w.moveTop k).slots.length = w.slots.length - 1 := by
  change ((w.slots.modify k _).dropLast).length = _
  rw [length_dropLast, length_modify]

theorem getElem?_moveTop (h : (w.moveTop k).slots[i]? = some s) :
    i < w.slots.length - 1 ∧ w.slots[w.movedFrom k i]? = some s := by
  change ((w.slots.modify k _).dropLast)[i]? = _ at h
  rw [getElem?_dropLast, length_modify] at h
  obtain ⟨hlt, h⟩ := ite_none_right_eq_some.mp h
  refine ⟨hlt, ?_⟩
  rw [getElem?_modify] at h
  obtain ⟨t, ht, rfl⟩ := map_eq_some_iff.mp h
  unfold movedFrom
  by_cases hik : k = i
  · rw [if_pos hik.symm, if_pos hik, WalState.slot, getD_eq_getElem?_getD,
      getElem?_eq_getElem (by omega)]
    rfl
  · rw [if_neg (Ne.symm hik), ht, if_neg hik]

theorem moveTop_cur (hcur : w.cur ≠ some k) (hi : i < w.slots.length - 1) :
    (w.moveTop k).cur = some i ↔ w.cur = some (w.movedFrom k i) := by
  change (if _ then _ else _) = _ ↔ _
  unfold movedFrom
  by_cases htop : w.cur = some (w.slots.length - 1)
  · rw [if_pos htop, htop, some.injEq, some.injEq]
    split <;> omega
  · rw [if_neg htop]
    split
    · rename_i hik
      exact ⟨fun h => absurd (hik ▸ h) hcur, fun h => absurd h htop⟩
    · exact Iff.rfl

theorem moveTop_left (active : Slot → SegFile) (hcur : w.cur ≠ some k)
    (hi : i < w.slots.length - 1) :
    (w.moveTop k).left active i s = w.left active (w.movedFrom k i) s := by
  unfold left
  simp only [moveTop_cur hcur hi]

open Up

theorem retires_spec {u : Up} (h : u.retires = some k) :
    u.segments < u.w.slots.length ∧ k < u.w.slots.length ∧ u.w.cur ≠ some k ∧
      u.w.segHot k u.w.marker = false := by
  obtain ⟨hmin, h⟩ := ite_none_right_eq_some.mp h
  have hmem := mem_of_find?_eq_some h
  have hp := find?_some h
  rw [mem_reverse, mem_range] at hmem
  rw [Bool.and_eq_true, decide_eq_true_eq, Bool.not_eq_true_eq_eq_false] at hp
  exact ⟨hmin.1, hmem, hp.1, hp.2⟩

/-- **The rule.** Where its records are bounded by its span, a slot that is cold for a marker
holds nothing above it. -/
theorem le_of_cold {m : Nat} (h : (w.slot i).Bounded) (hcold : w.segHot i m = false) :
    ∀ n ∈ (w.slot i).recs, n ≤ m := by
  intro n hn
  obtain hnil | ⟨-, hfirst, hspan, hle⟩ := h
  · rw [hnil] at hn
    cases hn
  · have hlast : (w.slot i).last ≠ 0 := by omega
    have hn' := hle n hn
    simp only [segHot, if_pos hlast, decide_eq_true hfirst, decide_eq_true hspan,
      Bool.and_self, Bool.true_and, decide_eq_false_iff_not] at hcold
    omega

section

variable (h : GoneOk w.haveRdb w.gone)
include h

/-- An uncounted overwrite of a bounded slot destroys nothing a snapshot lacks. -/
theorem GoneOk.destroy {counted : Bool} (hb : (w.slot i).Bounded)
    (hcold : w.haveRdb = true → counted = false →
      (w.slot i).gen = 0 ∨ w.segHot i w.marker = false) :
    GoneOk (w.destroy i counted).haveRdb (w.destroy i counted).gone := by
  intro hrdb g hg hcounted
  rcases mem_append.mp hg with hg | hg
  · exact h hrdb g hg hcounted
  · obtain ⟨n, hn, rfl⟩ := mem_map.mp hg
    rcases hcold hrdb hcounted with hgen | hcold
    · obtain hnil | ⟨hpos, -⟩ := hb
      · rw [hnil] at hn
        cases hn
      · omega
    · exact le_of_cold hb hcold n hn

theorem GoneOk.rotated (hb : (w.slot i).Bounded) :
    GoneOk (w.destroy i (w.rotateCounts i)).haveRdb (w.destroy i (w.rotateCounts i)).gone := by
  refine h.destroy hb fun hrdb hcounted => ?_
  rw [rotateCounts, hrdb, Bool.and_true, Bool.and_eq_false_iff] at hcounted
  exact hcounted.imp_left fun hgen => by simpa using hgen

end

/-! ### The next slot -/

theorem olderSlot_some (l : List Nat) (best : Option Nat) {P : Nat → Prop}
    (hbest : ∀ b, best = some b → P b) (hl : ∀ i ∈ l, w.cur ≠ some i → P i) :
    ∀ b, l.foldl w.olderSlot best = some b → P b := by
  induction l generalizing best with
  | nil => exact hbest
  | cons i l ih =>
    refine ih _ ?_ fun j hj => hl j (mem_cons_of_mem _ hj)
    intro b hb
    have hi := hl i mem_cons_self
    unfold olderSlot at hb
    split at hb
    · exact hbest b hb
    · split at hb
      · cases hb
        exact hi ‹_›
      · split at hb <;> cases hb
        · exact hi ‹_›
        · exact hbest _ rfl

theorem olderSlot_isSome (l : List Nat) (best : Option Nat)
    (h : best.isSome ∨ ∃ i ∈ l, w.cur ≠ some i) : (l.foldl w.olderSlot best).isSome := by
  induction l generalizing best with
  | nil => simpa using h
  | cons i l ih =>
    refine ih _ ?_
    unfold olderSlot
    by_cases hcur : w.cur = some i
    · rw [if_pos hcur]
      refine h.imp_right ?_
      rintro ⟨j, hj, hne⟩
      rcases mem_cons.mp hj with rfl | hj
      · exact absurd hcur hne
      · exact ⟨j, hj, hne⟩
    · rw [if_neg hcur]
      left
      split
      · rfl
      · split <;> rfl

/-- With two slots there is one to go on with. -/
theorem nextSlot_spec (h : 2 ≤ w.slots.length) :
    w.nextSlot < w.slots.length ∧ w.cur ≠ some w.nextSlot := by
  have hother : ∃ i ∈ range w.slots.length, w.cur ≠ some i := by
    by_cases h0 : w.cur = some 0
    · exact ⟨1, mem_range.mpr (by omega), by rw [h0]; simp⟩
    · exact ⟨0, mem_range.mpr (by omega), h0⟩
  obtain ⟨b, hb⟩ := isSome_iff_exists.mp (olderSlot_isSome _ none (.inr hother))
  have hspec := olderSlot_some (P := fun i => i < w.slots.length ∧ w.cur ≠ some i)
    (range w.slots.length) none nofun
    (fun i hi hne => ⟨mem_range.mp hi, hne⟩) b hb
  rw [nextSlot, hb]
  exact hspec

/-! ### The invariant -/

/-- A running log: its active segment is open, every other one is bounded by its span, and
`CONTROL` has the span of every segment that holds a record. -/
structure Up.Sound (u : Up) : Prop where
  min : 2 ≤ u.segments
  two : 2 ≤ u.w.slots.length
  slots : u.w.InOrder
  ctrl : ∃ c, u.w.ctrl = some c ∧ ∀ i s, u.w.slots[i]? = some s →
    (u.w.cur ≠ some i ∧ s.recs = []) ∨ c.spans[i]? = some s.span
  gone : GoneOk u.w.haveRdb u.w.gone

/-- A span that `CONTROL` has for a file: open, or a bound of the file's records. -/
def Span.Covers (s : Span) (f : SegFile) : Prop :=
  0 < s.gen ∧ 0 < s.first ∧ (s.last = 0 ∨ s.first ≤ s.last ∧ ∀ n ∈ f.recs, n ≤ s.last)

/-- A directory: where `CONTROL` reads, it covers every file that holds a record. -/
structure Disk.Sound (d : Disk) : Prop where
  ctrl : ∀ c, d.ctrl = some c → ∀ (i : Nat) (f : SegFile), d.files[i]? = some f →
    f.recs = [] ∨ ∃ s : Span, c.spans[i]? = some s ∧ s.Covers f
  gone : GoneOk d.haveRdb d.gone

def Life.Sound : Life → Prop
  | .up u => u.Sound
  | .down d => d.Sound

theorem Slot.Bounded.covers (h : s.Bounded) (hne : s.recs ≠ []) : s.span.Covers s.file := by
  obtain hnil | ⟨hgen, hfirst, hspan, hle⟩ := h
  · exact absurd hnil hne
  · exact ⟨hgen, hfirst, .inr ⟨hspan, hle⟩⟩

theorem ctrlWrite_spans (w : WalState) (h : w.slots[i]? = some s) :
    ∃ c, w.ctrlWrite.ctrl = some c ∧ c.spans[i]? = some s.span := by
  refine ⟨_, rfl, ?_⟩
  rw [getElem?_map, h]
  rfl

variable {undo : Option SegFile}

/-- A log whose `CONTROL` was just written. -/
theorem Up.Sound.of_ctrlWrite {segments : Nat} (min : 2 ≤ segments) (two : 2 ≤ w.slots.length)
    (slots : w.InOrder) (gone : GoneOk w.haveRdb w.gone) :
    Sound ⟨segments, undo, w.ctrlWrite⟩ where
  min := min
  two := two
  slots := ⟨slots.active, slots.each⟩
  ctrl := by
    refine ⟨_, rfl, fun i s hs => .inr ?_⟩
    obtain ⟨c, hc, hspan⟩ := ctrlWrite_spans w hs
    cases hc
    exact hspan
  gone := gone

variable {d : Disk}

/-- Some files were overwritten, and `CONTROL` was not. -/
theorem Disk.Sound.overwritten {d' : Disk} (h : d.Sound) (hctrl : d'.ctrl = d.ctrl)
    (hfiles : ∀ (i : Nat) (f : SegFile), d'.files[i]? = some f →
      f.recs = [] ∨ d.files[i]? = some f)
    (hgone : GoneOk d'.haveRdb d'.gone) : d'.Sound where
  ctrl := by
    intro c hc i f hf
    rcases hfiles i f hf with hnil | hf
    · exact .inl hnil
    · exact h.ctrl c (hctrl.symm.trans hc) i f hf
  gone := hgone

theorem disk_file_files (w : WalState) : (w.disk file).files = w.slots.map file := by
  refine ext_getElem? fun i => ?_
  change (w.slots.mapIdx _)[i]? = _
  rw [getElem?_mapIdx, getElem?_map]
  unfold left
  simp only [ite_self]

/-- A header was written: its file holds nothing, and every other one is as it was. -/
theorem header_files {gen : Nat} {counted : Bool} {f : SegFile}
    (hf : ((w.header k gen counted).disk file).files[i]? = some f) :
    f.recs = [] ∨ (w.slots.map file)[i]? = some f := by
  rw [disk_file_files, getElem?_map] at hf
  obtain ⟨s, hs, rfl⟩ := map_eq_some_iff.mp hf
  change (w.slots.modify k _)[i]? = some s at hs
  rw [getElem?_modify] at hs
  obtain ⟨t, ht, rfl⟩ := map_eq_some_iff.mp hs
  split
  · exact .inl rfl
  · right
    rw [getElem?_map, ht]
    rfl

theorem closeCur_files (w : WalState) : w.closeCur.slots.map file = w.slots.map file := by
  refine ext_getElem? fun i => ?_
  rw [getElem?_map, getElem?_map, closeCur, getElem?_modifyCur]
  cases w.slots[i]? with
  | none => rfl
  | some s => dsimp only [Option.map]; split <;> rfl

theorem closeCur_slot (hi : w.cur ≠ some i) : w.closeCur.slot i = w.slot i := by
  rw [slot, slot, getD_eq_getElem?_getD, getD_eq_getElem?_getD, closeCur, getElem?_modifyCur]
  simp only [if_neg hi, Option.map_id']

/-- An activation, of a log whose slots are all closed. -/
theorem Up.Sound.activate {segments : Nat} {gen : Nat} (min : 2 ≤ segments)
    (two : 2 ≤ w.slots.length) (hi : i < w.slots.length) (hgen : 0 < gen) (hb : w.AllBounded)
    (gone : GoneOk w.haveRdb w.gone) : Sound ⟨segments, undo, w.activate i gen⟩ := by
  refine Sound.of_ctrlWrite min ?_ ⟨⟨i, ?_, rfl⟩, fun j s hs => ?_⟩ gone
  · change 2 ≤ (w.slots.modify i _).length
    rw [length_modify]
    exact two
  · change i < (w.slots.modify i _).length
    rw [length_modify]
    exact hi
  · change (w.slots.modify i _)[j]? = some s at hs
    rw [getElem?_modify] at hs
    obtain ⟨t, ht, rfl⟩ := map_eq_some_iff.mp hs
    change if some i = some j then _ else _
    simp only [some.injEq]
    split
    · exact ⟨hgen, succ_pos _, rfl, forall_mem_nil _⟩
    · exact hb t (mem_of_getElem? ht)

/-! ### What a process does -/

section Steps

variable {u : Up} (h : u.Sound)
include h

/-- A change that leaves the slots, `CONTROL` and the destroyed records. -/
theorem Up.Sound.raise {hi seq syncedSeq marker : Nat} {dirty durable : List Nat}
    (hhi : u.w.pendingHi ≤ hi) :
    Sound ⟨u.segments, undo,
      { u.w with pendingHi := hi, seq, syncedSeq, marker, dirty, durable }⟩ where
  min := h.min
  two := h.two
  slots := by
    refine ⟨h.slots.active, fun i s hs => ?_⟩
    have hok := h.slots.each i s hs
    change if u.w.cur = some i then _ else _
    split at hok
    · rw [if_pos ‹_›]
      exact ⟨hok.1, hok.2.1, hok.2.2.1, fun n hn => (hok.2.2.2 n hn).trans hhi⟩
    · rwa [if_neg ‹_›]
  ctrl := h.ctrl
  gone := h.gone

theorem Up.Sound.put {e : Entry} (he : e.seq ≤ u.w.pendingHi) :
    Sound { u with w := u.w.put e } := by
  obtain ⟨k, hk, hspans⟩ := h.ctrl
  have hslots (i : Nat) : (u.w.put e).slots[i]? = u.w.slots[i]?.map fun s =>
      if u.w.cur = some i then { s with recs := s.recs ++ [e.seq] } else s :=
    getElem?_modifyCur _ _ i
  have hlen : (u.w.put e).slots.length = u.w.slots.length := length_modifyCur _ _
  obtain ⟨c, hlt, hc⟩ := h.slots.active
  refine ⟨h.min, hlen ▸ h.two, ⟨⟨c, hlen ▸ hlt, hc⟩, fun i t ht => ?_⟩,
    ⟨k, hk, fun i t ht => ?_⟩, h.gone⟩
  · rw [hslots] at ht
    obtain ⟨s, hs, rfl⟩ := map_eq_some_iff.mp ht
    have hok := h.slots.each i s hs
    change if u.w.cur = some i then _ else _
    split at hok
    · simp only [if_pos ‹u.w.cur = some i›]
      refine ⟨hok.1, hok.2.1, hok.2.2.1, fun n hn => ?_⟩
      rcases mem_append.mp hn with hn | hn
      · exact hok.2.2.2 n hn
      · rw [mem_singleton.mp hn]
        exact he
    · simp only [if_neg ‹_›]
      exact hok
  · rw [hslots] at ht
    obtain ⟨s, hs, rfl⟩ := map_eq_some_iff.mp ht
    refine (hspans i s hs).imp (fun hn => ⟨hn.1, ?_⟩) fun hspan => ?_
    · rw [if_neg hn.1]
      exact hn.2
    · split <;> exact hspan

theorem Up.Sound.closeCur (hclose : u.w.Closes u.w.pendingHi) : u.w.closeCur.AllBounded := by
  intro t ht
  obtain ⟨i, ht⟩ := mem_iff_getElem?.mp ht
  rw [WalState.closeCur, getElem?_modifyCur] at ht
  obtain ⟨s, hs, rfl⟩ := map_eq_some_iff.mp ht
  have hok := h.slots.each i s hs
  split at hok
  · rw [if_pos ‹_›]
    have hspan := hclose i ‹_›
    rw [slot_eq hs] at hspan
    exact hspan.imp_right fun hspan => ⟨hok.1, hok.2.1, hspan, hok.2.2.2⟩
  · rwa [if_neg ‹_›]

theorem Up.Sound.rotate (undo : Option SegFile) (hclose : u.w.Closes u.w.pendingHi)
    (hgen : (u.w.gen + 1) % 2 ^ 32 ≠ 0) : Sound ⟨u.segments, undo, u.w.rotate⟩ := by
  have hb : (u.w.syncCommit false).closeCur.AllBounded := h.closeCur hclose
  have htwo : 2 ≤ (u.w.syncCommit false).closeCur.slots.length := by
    rw [WalState.closeCur, length_modifyCur]
    exact h.two
  obtain ⟨hi, -⟩ := nextSlot_spec htwo
  refine Sound.activate h.min htwo hi (pos_of_ne_zero hgen) hb ?_
  exact GoneOk.rotated (w := (u.w.syncCommit false).closeCur) h.gone (hb.slot _)

theorem Up.Sound.append {e : Entry}
    (hok : u.w.full e → u.w.Closes (max u.w.pendingHi e.seq) ∧ (u.w.gen + 1) % 2 ^ 32 ≠ 0) :
    (u.append e).Sound := by
  have hnote : Up.Sound { u with w := u.w.seqNote e.seq } := by
    rw [seqNote_eq]
    exact h.raise (le_max_left _ _)
  have hle : e.seq ≤ (u.w.seqNote e.seq).pendingHi := by
    rw [seqNote_pendingHi]
    exact le_max_right _ _
  unfold Up.append WalState.append
  by_cases hfull : (u.w.seqNote e.seq).full e
  · have hok := hok (by rwa [seqNote_eq] at hfull)
    simp only [if_pos hfull]
    refine (hnote.rotate _ ?_ ?_).put hle
    · rw [seqNote_eq]
      exact hok.1
    · rw [seqNote_eq]
      exact hok.2
  · simp only [if_neg hfull]
    exact hnote.put hle

theorem Up.Sound.growAdopt : Sound { u with w := u.w.growAdopt } := by
  obtain ⟨c, hlt, hc⟩ := h.slots.active
  have hlen : (u.w.slots ++ [fresh]).length = u.w.slots.length + 1 := length_append
  refine Sound.of_ctrlWrite h.min ?_ ⟨⟨c, ?_, hc⟩, fun i t ht => ?_⟩ h.gone
  · exact hlen ▸ h.two.trans (le_succ _)
  · exact hlen ▸ hlt.trans (lt_succ_self _)
  · change (u.w.slots ++ [fresh])[i]? = some t at ht
    rcases lt_or_ge i u.w.slots.length with hil | hil
    · rw [getElem?_append_left hil] at ht
      exact h.slots.each i t ht
    · rw [getElem?_append_right hil] at ht
      have hi : u.w.cur ≠ some i := fun hi => by
        rw [some.inj (hc.symm.trans hi)] at hlt
        omega
      change if u.w.cur = some i then _ else _
      rw [if_neg hi, mem_singleton.mp (mem_of_getElem? ht)]
      exact bounded_fresh

theorem Up.Sound.bounded (hi : u.w.cur ≠ some i) : (u.w.slot i).Bounded := h.slots.slot hi

omit h in
/-- The top slot takes the place of one that is not active. -/
theorem WalState.InOrder.moveTop (h : w.InOrder) (hk : k < w.slots.length)
    (hcur : w.cur ≠ some k) : (w.moveTop k).InOrder where
  active := by
    obtain ⟨c, hlt, hc⟩ := h.active
    have hck : c ≠ k := fun he => hcur (he ▸ hc)
    rw [length_moveTop]
    by_cases htop : c = w.slots.length - 1
    · refine ⟨k, by omega, (moveTop_cur hcur (by omega)).mpr ?_⟩
      rw [movedFrom, if_pos rfl, ← htop, hc]
    · refine ⟨c, by omega, (moveTop_cur hcur (by omega)).mpr ?_⟩
      rw [movedFrom, if_neg hck, hc]
  each := by
    intro i s hs
    obtain ⟨hlt, hs⟩ := getElem?_moveTop hs
    simp only [moveTop_cur hcur hlt]
    exact h.each _ s hs

/-- A slot that is cold and not active is retired. -/
theorem Up.Sound.destroy (hk : u.retires = some k) :
    Sound { u with w := u.w.destroy k false } where
  min := h.min
  two := h.two
  slots := ⟨h.slots.active, h.slots.each⟩
  ctrl := h.ctrl
  gone := by
    obtain ⟨-, -, hcur, hcold⟩ := retires_spec hk
    exact h.gone.destroy (h.bounded hcur) fun _ _ => .inr hcold

theorem Up.Sound.retire (hk : u.retires = some k) (renamed : Bool) :
    Sound { u with w := u.w.retire k renamed } := by
  obtain ⟨hmin, hlt, hcur, -⟩ := retires_spec hk
  have hd := h.destroy hk
  unfold WalState.retire
  dsimp only
  split
  · refine Sound.of_ctrlWrite h.min ?_ (hd.slots.moveTop hlt hcur) hd.gone
    rw [length_moveTop]
    have hmin' := h.min
    change 2 ≤ u.w.slots.length - 1
    omega
  · have hlen : (u.w.slots.modify k fun _ => fresh).length = u.w.slots.length := length_modify _ _ _
    obtain ⟨a, hlta, ha⟩ := h.slots.active
    obtain ⟨c, hc, hspans⟩ := h.ctrl
    refine ⟨h.min, hlen ▸ h.two, ⟨⟨a, hlen ▸ hlta, ha⟩, fun i t ht => ?_⟩,
      ⟨c, hc, fun i t ht => ?_⟩, hd.gone⟩
    all_goals
      change (u.w.slots.modify k _)[i]? = some t at ht
      rw [getElem?_modify] at ht
      obtain ⟨s, hs, rfl⟩ := map_eq_some_iff.mp ht
      by_cases hik : k = i
    · change if u.w.cur = some i then _ else _
      rw [if_neg (hik ▸ hcur), if_pos hik]
      exact bounded_fresh
    · rw [if_neg hik]
      exact h.slots.each i s hs
    · rw [if_pos hik]
      exact .inl ⟨hik ▸ hcur, rfl⟩
    · rw [if_neg hik]
      exact hspans i s hs

/-! ### What a process leaves -/

/-- The directory after a crash between two writes, whatever it takes of the active file. -/
theorem Up.Sound.disk (active : Slot → SegFile) : (u.w.disk active).Sound where
  ctrl := by
    intro c hc i f hf
    change (u.w.slots.mapIdx _)[i]? = some f at hf
    rw [getElem?_mapIdx] at hf
    obtain ⟨s, hs, rfl⟩ := map_eq_some_iff.mp hf
    obtain ⟨c', hc', hspans⟩ := h.ctrl
    obtain rfl := some.inj (hc.symm.trans hc')
    have hok := h.slots.each i s hs
    unfold left
    split at hok
    · rw [if_pos ‹_›]
      exact .inr ⟨s.span, (hspans i s hs).resolve_left fun hn => hn.1 ‹_›, hok.1, hok.2.1,
        .inl hok.2.2.1⟩
    · rw [if_neg ‹_›]
      by_cases hnil : s.recs = []
      · exact .inl hnil
      · exact .inr ⟨s.span, (hspans i s hs).resolve_left fun hn => hnil hn.2, hok.covers hnil⟩
  gone := h.gone

theorem Up.Sound.shutdown (hclose : u.w.Closes u.w.pendingHi) :
    (u.w.closeCur.ctrlWrite.disk file).Sound where
  ctrl := by
    intro c hc i f hf
    rw [disk_file_files, getElem?_map] at hf
    obtain ⟨s, hs, rfl⟩ := map_eq_some_iff.mp hf
    obtain ⟨c', hc', hspan⟩ := ctrlWrite_spans u.w.closeCur hs
    obtain rfl := some.inj (hc.symm.trans hc')
    by_cases hnil : s.recs = []
    · exact .inl hnil
    · exact .inr ⟨s.span, hspan, (h.closeCur hclose s (mem_of_getElem? hs)).covers hnil⟩
  gone := h.gone

/-- A crash between a rotation's header and its `CONTROL`. -/
theorem Up.Sound.rotating (gen : Nat) :
    ((u.w.closeCur.header u.w.closeCur.nextSlot gen
      (u.w.closeCur.rotateCounts u.w.closeCur.nextSlot)).disk file).Sound := by
  have hne : u.w.cur ≠ some u.w.closeCur.nextSlot := by
    refine (nextSlot_spec (w := u.w.closeCur) ?_).2
    rw [WalState.closeCur, length_modifyCur]
    exact h.two
  refine (h.disk file).overwritten rfl (fun i f hf => ?_) ?_
  · have hf := header_files hf
    rwa [closeCur_files, ← disk_file_files] at hf
  · refine GoneOk.rotated (w := u.w.closeCur) h.gone ?_
    rw [closeCur_slot hne]
    exact h.bounded hne

/-- A crash in a retire, `CONTROL` not written: each file left holds nothing or was there. -/
theorem Up.Sound.retiring {slots : List Slot} {cur : Option Nat} (hk : u.retires = some k)
    (active : Slot → SegFile) (hw : { u.w.destroy k false with slots, cur } = w)
    (hleft : ∀ i s, w.slots[i]? = some s → (w.left active i s).recs = [] ∨
      u.w.slots[i]? = some s ∧ w.left active i s = u.w.left active i s) :
    (w.disk active).Sound := by
  subst hw
  refine (h.disk active).overwritten rfl (fun i f hf => ?_) (h.destroy hk).gone
  change (slots.mapIdx _)[i]? = some f at hf
  change _ ∨ (u.w.slots.mapIdx _)[i]? = some f
  rw [getElem?_mapIdx] at hf ⊢
  obtain ⟨s, hs, rfl⟩ := map_eq_some_iff.mp hf
  refine (hleft i s hs).imp_right fun ⟨hs, hl⟩ => ?_
  rw [hs, hl]
  rfl

theorem Up.Sound.unlinked (hk : u.retires = some k) (active : Slot → SegFile) :
    (((u.w.destroy k false).reprovision k).disk active).Sound := by
  obtain ⟨-, -, hcur, -⟩ := retires_spec hk
  refine h.retiring hk active rfl fun i s hs => ?_
  change (u.w.slots.modify k _)[i]? = some s at hs
  rw [getElem?_modify] at hs
  obtain ⟨t, ht, rfl⟩ := map_eq_some_iff.mp hs
  split
  · rename_i hik
    left
    change (if u.w.cur = some i then _ else _ : SegFile).recs = []
    rw [if_neg (hik ▸ hcur)]
    rfl
  · exact .inr ⟨ht, rfl⟩

/-- A crash in a retire after the rename of a file that holds no record. -/
theorem Up.Sound.renamed (hk : u.retires = some k) (active : Slot → SegFile)
    (hempty : k = u.w.slots.length - 1 ∨
      (u.w.left active (u.w.slots.length - 1) (u.w.slot (u.w.slots.length - 1))).recs = []) :
    (((u.w.destroy k false).moveTop k).disk active).Sound := by
  obtain ⟨-, -, hcur, -⟩ := retires_spec hk
  refine h.retiring hk active rfl fun i s hs => ?_
  obtain ⟨hlt, hs⟩ := getElem?_moveTop hs
  rw [moveTop_left (w := u.w.destroy k false) active hcur hlt]
  change i < u.w.slots.length - 1 at hlt
  unfold movedFrom at hs ⊢
  split at hs
  · rename_i hik
    left
    rw [if_pos hik]
    have hslot : u.w.slot (u.w.slots.length - 1) = s := slot_eq hs
    have hempty := hempty.resolve_left (by omega)
    rwa [hslot] at hempty
  · rw [if_neg ‹_›]
    exact .inr ⟨hs, rfl⟩

end Steps

/-! ### How the next process starts -/

/-- The resumed sequence bounds what the files hold. -/
theorem Disk.le_seq {n : Nat} {f : SegFile} (hf : d.files[i]? = some f) (hn : n ∈ f.recs) :
    n ≤ d.seq :=
  (Greatest.le_foldl_max_iff (fun x => x) _ _ _).mpr
    (.inr ⟨n, mem_flatMap.mpr ⟨f, mem_of_getElem? hf, hn⟩, le_refl n⟩)

/-- The slots as `pc_wal_init` finds them: an open span is closed at the resumed sequence,
which bounds its records. -/
theorem Disk.Sound.slot (h : d.Sound) (hr : d.Readable) (i : Nat) : (d.slot i).Bounded := by
  by_cases hnil : (d.file i).recs = []
  · exact .inl hnil
  · have hi : i < d.files.length := by
      by_contra hi
      rw [Disk.file, getD_eq_getElem?_getD, getElem?_eq_none (by omega)] at hnil
      exact hnil rfl
    have hf : d.files[i]? = some (d.file i) := by
      rw [Disk.file, getD_eq_getElem?_getD, getElem?_eq_getElem hi]
      rfl
    obtain ⟨c, hc⟩ : ∃ c, d.ctrl = some c := by
      cases hc : d.ctrl with
      | none => exact absurd (hr.1 hc _ (mem_of_getElem? hf)) hnil
      | some c => exact ⟨c, rfl⟩
    obtain ⟨s, hs, hgen, hfirst, hcov⟩ := (h.ctrl c hc i _ hf).resolve_left hnil
    have hspan : d.span i = s := by
      rw [Disk.span, Disk.spans, hc, getD_eq_getElem?_getD]
      change (c.spans[i]?).getD _ = s
      rw [hs]
      rfl
    have hgen' : 0 < if s.gen = 0 then (d.file i).gen else s.gen := by
      rw [if_neg hgen.ne']
      exact hgen
    by_cases hlast : s.last = 0
    · have hle : s.first ≤ d.seq := by
        have hopen := hr.2 i hi
        rw [hspan] at hopen
        exact (hopen hfirst.ne' hlast).resolve_left hnil
      have hclosed : d.closed s = { s with last := d.seq } := by
        rw [Disk.closed, if_pos ⟨hfirst.ne', hlast⟩, if_pos hle]
      right
      simp only [Disk.slot, hspan, hclosed]
      exact ⟨hgen', hfirst, hle, fun n hn => Disk.le_seq hf hn⟩
    · have hclosed : d.closed s = s := by
        rw [Disk.closed, if_neg fun hn => hlast hn.2]
      right
      simp only [Disk.slot, hspan, hclosed]
      obtain ⟨hle, hrecs⟩ := hcov.resolve_left hlast
      exact ⟨hgen', hfirst, hle, hrecs⟩

section Start

variable {d : Disk} (h : d.Sound) (hr : d.Readable) {segments : Nat} (hseg : 2 ≤ segments)
  (checkpoint : Bool)
include h hr

theorem Disk.Sound.resume : (d.resume segments checkpoint).AllBounded := by
  intro s hs
  obtain ⟨i, -, rfl⟩ := mem_map.mp hs
  exact h.slot hr i

include hseg

theorem Disk.Sound.resume_next (hw : d.resume segments checkpoint = w) :
    2 ≤ w.slots.length ∧ w.nextSlot < w.slots.length ∧
      GoneOk (w.destroy w.nextSlot (w.startCounts w.nextSlot)).haveRdb
        (w.destroy w.nextSlot (w.startCounts w.nextSlot)).gone := by
  have htwo : 2 ≤ w.slots.length := by
    rw [← hw]
    change 2 ≤ ((range (d.nseg segments)).map d.slot).length
    rw [length_map, length_range, Disk.nseg]
    omega
  have hb : w.AllBounded := hw ▸ h.resume hr checkpoint
  have hgone : GoneOk w.haveRdb w.gone := hw ▸ h.gone
  refine ⟨htwo, (nextSlot_spec htwo).1, hgone.destroy (hb.slot _) fun hrdb hcounted => .inr ?_⟩
  rwa [startCounts, hrdb, Bool.true_and] at hcounted

/-- `pc_wal_init`. -/
theorem Disk.Sound.start (hgen : (d.bestGen + 1) % 2 ^ 32 ≠ 0) :
    (d.start segments checkpoint).Sound := by
  obtain ⟨htwo, hi, hgone⟩ := h.resume_next hr hseg checkpoint rfl
  exact Sound.activate hseg htwo hi (pos_of_ne_zero hgen) (h.resume hr checkpoint) hgone

/-- A crash in `pc_wal_init`. -/
theorem Disk.Sound.startCut : (d.startCut segments checkpoint).Sound := by
  obtain ⟨-, -, hgone⟩ := h.resume_next hr hseg checkpoint rfl
  refine h.overwritten rfl (fun i f hf => ?_) hgone
  rcases header_files hf with hnil | hf
  · exact .inl hnil
  · -- a file that was there, or one that was provisioned
    rw [getElem?_map] at hf
    obtain ⟨s, hs, rfl⟩ := map_eq_some_iff.mp hf
    change ((range (d.nseg segments)).map d.slot)[i]? = some s at hs
    rw [getElem?_map] at hs
    obtain ⟨j, hj, rfl⟩ := map_eq_some_iff.mp hs
    obtain ⟨_, rfl⟩ := List.getElem?_eq_some_iff.mp hj
    rw [getElem_range]
    change (d.file i).recs = [] ∨ d.files[i]? = some (d.file i)
    rw [Disk.file, getD_eq_getElem?_getD]
    cases d.files[i]? with
    | none => exact .inl rfl
    | some f => exact .inr rfl

end Start

/-! ### Whole lives -/

theorem Up.Sound.stop {u : Up} (h : u.Sound) {how : Stop} (hok : LifeOk (.up u) (.stop how))
    (hd : u.stop how = some d) : d.Sound := by
  cases how with
  | shutdown =>
    cases hd
    exact h.shutdown hok
  | crash l =>
    cases hd
    exact h.disk _
  | tornControl l =>
    cases hd
    exact ⟨(nofun), h.gone⟩
  | rotating e =>
    obtain ⟨-, ⟨⟩⟩ := ite_none_right_eq_some.mp hd
    have hnote : Up.Sound ⟨u.segments, u.undo, (u.w.seqNote e.seq).syncCommit false⟩ := by
      rw [seqNote_eq]
      exact h.raise (le_max_left _ _)
    exact hnote.rotating _
  | retiring renamed l =>
    obtain ⟨k, hk, rfl⟩ := map_eq_some_iff.mp hd
    cases renamed with
    | false => exact h.unlinked hk _
    | true =>
      refine h.renamed hk _ (hok.imp_left fun htop => ?_)
      exact some.inj (hk.symm.trans htop)

/-- Every step that meets the condition keeps the invariant. -/
theorem Life.Sound.step {l l' : Life} {a : LifeAct} (h : l.Sound) (hok : LifeOk l a)
    (hs : lifeStep l a = some l') : l'.Sound := by
  cases l with
  | up u =>
    have h : u.Sound := h
    cases a with
    | stamp =>
      cases hs
      exact h.raise le_rfl
    | append e =>
      obtain ⟨-, ⟨⟩⟩ := ite_none_right_eq_some.mp hs
      exact h.append hok
    | sync =>
      cases hs
      exact h.raise le_rfl
    | snapshot m =>
      obtain ⟨-, ⟨⟩⟩ := ite_none_right_eq_some.mp hs
      exact h.raise le_rfl
    | grow =>
      obtain ⟨-, ⟨⟩⟩ := ite_none_right_eq_some.mp hs
      exact h.growAdopt
    | retire renamed =>
      obtain ⟨k, hk, rfl⟩ := map_eq_some_iff.mp hs
      exact h.retire hk renamed
    | stop how =>
      obtain ⟨d, hd, rfl⟩ := map_eq_some_iff.mp hs
      exact h.stop hok hd
    | start | startCut => cases hs
  | down d =>
    have h : d.Sound := h
    cases a with
    | start segments checkpoint =>
      obtain ⟨hseg, ⟨⟩⟩ := ite_none_right_eq_some.mp hs
      exact h.start hok.1 hseg checkpoint hok.2
    | startCut segments checkpoint =>
      obtain ⟨hseg, ⟨⟩⟩ := ite_none_right_eq_some.mp hs
      exact h.startCut hok hseg checkpoint
    | stamp | append e | sync | snapshot m | grow | retire renamed | stop how => cases hs

theorem sound_new (segBytes : Nat) (haveRdb : Bool) : (Disk.new segBytes haveRdb).Sound where
  ctrl := nofun
  gone := nofun

/-- **A segment judged cold holds nothing above the marker**, in every state that a log
directory reaches by steps that meet the condition; and what was destroyed without being
counted was in the last completed snapshot. -/
theorem cold_segment_covered {segBytes : Nat} {haveRdb : Bool} {as : List LifeAct} {u : Up}
    (hok : Along lifeStep LifeOk (.down (.new segBytes haveRdb)) as)
    (hrun : run lifeStep (.down (.new segBytes haveRdb)) as = some (.up u)) :
    (∀ i m, u.w.cur ≠ some i → u.w.segHot i m = false → ∀ n ∈ (u.w.slot i).recs, n ≤ m) ∧
      (u.w.haveRdb = true → ∀ g ∈ u.w.gone, g.counted = false → g.seq ≤ g.marker) := by
  have h : u.Sound := run_invariant (I := Life.Sound) (s := .down (.new segBytes haveRdb))
    (fun _ _ _ h hok hs => h.step hok hs) (sound_new segBytes haveRdb) hok hrun
  exact ⟨fun i m hi hcold => le_of_cold (h.bounded hi) hcold, h.gone⟩

/-- A record of 250000 bytes; a segment of 1 MB takes four. -/
def bigRecord (n : Nat) : LifeAct := .append ⟨n, 250000⟩

/-- Two segments of 1 MB, and five producers that publish late: record 10 causes the first
rotation, and only older ones follow it into its segment. -/
def lateBatch : List LifeAct :=
  .start 2 false :: List.replicate 10 .stamp ++ [6, 7, 8, 9, 10, 1, 2, 3, 4].map bigRecord

def lateLap : List LifeAct :=
  lateBatch ++ List.replicate 3 .stamp ++ [5, 11, 12, 13].map bigRecord

/-- **The span leaves out the record that caused the rotation.** The segment that holds
record 10 is cold for every marker, and its recycle destroys the record uncounted though no
snapshot was ever taken. -/
theorem cold_segment_holds_record :
    (∃ u, run lifeStep (.down (.new (2 ^ 20) true)) lateBatch = some (.up u) ∧
      u.w.cur ≠ some 1 ∧ u.w.segHot 1 0 = false ∧ 10 ∈ (u.w.slot 1).recs) ∧
    ∃ u, run lifeStep (.down (.new (2 ^ 20) true)) lateLap = some (.up u) ∧
      u.w.haveRdb = true ∧ ⟨10, 0, false⟩ ∈ u.w.gone :=
  ⟨⟨_, rfl, by decide, by decide, by decide⟩, _, rfl, by decide, by decide⟩

/-- A rotation, a clean shutdown and a start; every span is closed above its start. -/
def cleanRestart : List LifeAct :=
  .start 2 false :: List.replicate 6 .stamp ++ [1, 2, 3, 4, 5, 6].map bigRecord ++
    [.stop .shutdown, .start 2 true]

theorem cold_segment_covered_restart :
    ∃ u, run lifeStep (.down (.new (2 ^ 20) true)) cleanRestart = some (.up u) ∧
      u.w.segHot 1 5 = true ∧ u.w.segHot 1 6 = false ∧ ∀ n ∈ (u.w.slot 1).recs, n ≤ 6 :=
  ⟨_, rfl, by decide, by decide,
    (@cold_segment_covered (2 ^ 20) true cleanRestart _ (by decide) rfl).1 1 6 (by decide)
      (by decide)⟩

end Perfcached.Wal
