import Perfcached.Cluster.Replay
import Perfcached.Lib.Machine

/-!
# Perfcached.Cluster.Takeover

The replay filter's senders (`src/clreplay.c`).

A frame names its sender, the sender's incarnation, the sealing thread's stream and that stream's
sequence. Per sender the newest incarnation heard is kept, and a lower one takes over when that
has gone quiet for `CLREPLAY_STALE_MS`: a process whose clock stepped back.

A call is one step here. The locks are left out with the rest of what only matters between
threads, and so are the counters that only the statistics read.
-/

namespace Perfcached.Cluster

open List Option BitVec

def clreplaySenders : Nat := 512

def clreplayStreams : Nat := 256

def clreplayStaleMs : Int := 60000

/-! ### Senders -/

/-- `struct clwire_id`. -/
structure ClwireId where
  incarn : Nat
  seq : Nat
  ip : BitVec 32
  port : BitVec 16
  stream : Nat
  deriving DecidableEq

/-- `struct sender`. -/
structure Sender where
  key : BitVec 64
  incarn : Nat
  seenMs : Int
  w : Nat → Option Win

/-- A slot of the table at start. -/
def Sender.free : Sender := ⟨0, 0, 0, fun _ => none⟩

/-- The key of a sender's slot. -/
def ClwireId.key (id : ClwireId) : BitVec 64 :=
  1#64 <<< 48 ||| id.ip.setWidth 64 <<< 16 ||| id.port.setWidth 64

/-- The slot looked at in the `i`-th probe for a key. -/
def probe (key : BitVec 64) (i : Nat) : Nat :=
  (((key * 0x9E3779B97F4A7C15#64) >>> 40).toNat + i) % clreplaySenders

/-- The loop of `sender_of`, from the `i`-th probe with `n` left: the sender's slot, or the first
free one, which it claims. -/
def senderFrom (tab : Nat → Sender) (key : BitVec 64) : Nat → Nat → Option Nat
  | _, 0 => none
  | i, n + 1 =>
    if (tab (probe key i)).key = key then some (probe key i)
    else if (tab (probe key i)).key ≠ 0 then senderFrom tab key (i + 1) n
    else some (probe key i)

def senderOf (tab : Nat → Sender) (key : BitVec 64) : Option Nat :=
  senderFrom tab key 0 clreplaySenders

/-- The window of the frame's stream as the frame finds it: a missing one is allocated, if there
is room. -/
def Sender.window (s : Sender) (id : ClwireId) (room : Bool) : Option Win :=
  match s.w id.stream with
  | some w => some w
  | none => if room then some (Win.fresh id.incarn) else none

/-- `clreplay_admit` once the frame's incarnation is the one kept. -/
def Sender.onStream (s : Sender) (id : ClwireId) (now : Int) (lower room : Bool) :
    Verdict × Sender :=
  match s.window id room with
  | none => (.full, s)
  | some w =>
    if id.incarn < w.incarn ∧ lower = false then (.incarn, s)
    else
      -- another incarnation is a new process on this stream
      let r := winAdmit (if id.incarn ≠ w.incarn then Win.fresh id.incarn else w) id.seq
      (r.1, { s with
        w := fun st => if st = id.stream then some r.2 else s.w st
        seenMs := if r.1 = .ok ∧ 1000 ≤ now - s.seenMs then now else s.seenMs })

/-- `clreplay_admit`, in the sender's slot. A lower incarnation is stored over the kept one when
that has gone quiet; a higher one is exchanged for it. -/
def Sender.hear (s : Sender) (id : ClwireId) (now : Int) (room : Bool) : Verdict × Sender :=
  if clreplayStreams ≤ id.stream then (.full, s)
  else if id.incarn < s.incarn then
    if now - s.seenMs < clreplayStaleMs then (.incarn, s)
    else { s with incarn := id.incarn }.onStream id now true room
  else { s with incarn := max s.incarn id.incarn }.onStream id now false room

/-- A slot as its sender's. -/
def Sender.claim (s : Sender) (key : BitVec 64) : Sender := { s with key := key }

/-- `clreplay_admit`; `room` says whether a window can be allocated. -/
def clreplayAdmit (tab : Nat → Sender) (id : ClwireId) (now : Int) (room : Bool) :
    Verdict × (Nat → Sender) :=
  match senderOf tab id.key with
  | none => (.full, tab)
  | some j =>
    let r := ((tab j).claim id.key).hear id now room
    (r.1, fun i => if i = j then r.2 else tab i)

theorem ClwireId.getLsbD_key (id : ClwireId) {i : Nat} (hi : i < 48) :
    id.key.getLsbD i = ((decide (16 ≤ i) && id.ip.getLsbD (i - 16)) || id.port.getLsbD i) := by
  have htop : ∀ i < 48, (1#64 <<< 48).getLsbD i = false := by decide
  have h64 : i < 64 := by omega
  have h64' : i - 16 < 64 := by omega
  simp only [ClwireId.key, getLsbD_or, getLsbD_shiftLeft, getLsbD_setWidth,
    htop i hi, h64, h64', decide_true, Bool.true_and, Bool.false_or, ← decide_not, Nat.not_lt]

variable {id : ClwireId}

theorem ClwireId.key_inj {id' : ClwireId} (h : id.key = id'.key) :
    id.ip = id'.ip ∧ id.port = id'.port := by
  have hbit : ∀ i, id.key.getLsbD i = id'.key.getLsbD i := fun i => by rw [h]
  constructor
  · apply eq_of_getLsbD_eq
    intro i hi
    have := hbit (i + 16)
    rw [id.getLsbD_key (by omega), id'.getLsbD_key (by omega)] at this
    simpa [hi] using this
  · apply eq_of_getLsbD_eq
    intro i hi
    have hlow : ¬ 16 ≤ i := by omega
    have := hbit i
    rw [id.getLsbD_key (by omega), id'.getLsbD_key (by omega)] at this
    simpa [hlow] using this

variable {tab : Nat → Sender} {j : Nat}

/-- `sender_of` finds the sender's slot or a free one. -/
theorem senderFrom_some {key : BitVec 64} {i n : Nat} (h : senderFrom tab key i n = some j) :
    (tab j).key = key ∨ (tab j).key = 0 := by
  fun_induction senderFrom tab key i n with
  | case1 => exact nomatch h
  | case2 i n hkey => exact .inl (some.inj h ▸ hkey)
  | case3 i n hkey hused ih => exact ih h
  | case4 i n hkey hfree => exact .inr (some.inj h ▸ of_not_not hfree)

theorem clreplayAdmit_none (h : senderOf tab id.key = none) (now : Int) (room : Bool) :
    clreplayAdmit tab id now room = (.full, tab) := by
  rw [clreplayAdmit, h]

theorem clreplayAdmit_some (h : senderOf tab id.key = some j) (now : Int) (room : Bool) :
    clreplayAdmit tab id now room = ((((tab j).claim id.key).hear id now room).1,
      fun i => if i = j then (((tab j).claim id.key).hear id now room).2 else tab i) := by
  rw [clreplayAdmit, h]

/-! ### Runs of calls -/

/-- A call's arguments: the frame, the time, and whether a window can be allocated. -/
structure Arrival where
  id : ClwireId
  now : Int
  room : Bool
  deriving DecidableEq

/-- The filter, with the frames it has answered `ok`. -/
structure Filter where
  tab : Nat → Sender
  taken : List ClwireId

def Filter.start : Filter := ⟨fun _ => Sender.free, []⟩

/-- The frames taken, after an answer. -/
def takenAfter (taken : List ClwireId) (id : ClwireId) (v : Verdict) : List ClwireId :=
  if v = .ok then taken ++ [id] else taken

def Filter.step (f : Filter) (c : Arrival) : Option Filter :=
  let r := clreplayAdmit f.tab c.id c.now c.room
  some ⟨r.2, takenAfter f.taken c.id r.1⟩

/-- A frame of the same sender, incarnation and stream. -/
def ClwireId.Sibling (id g : ClwireId) : Prop :=
  (g.ip = id.ip ∧ g.port = id.port) ∧ g.incarn = id.incarn ∧ g.stream = id.stream
  deriving Decidable

/-- The frame's incarnation is below the kept one, which has gone quiet: the frame takes over. -/
def Sender.TakesOver (s : Sender) (id : ClwireId) (now : Int) : Prop :=
  id.stream < clreplayStreams ∧ id.incarn < s.incarn ∧ clreplayStaleMs ≤ now - s.seenMs

/-- No other stream has a window of an incarnation above the frame's. -/
def Sender.Alone (s : Sender) (id : ClwireId) : Prop :=
  ∀ (st : Nat) (w : Win), st ≠ id.stream → s.w st = some w → w.incarn ≤ id.incarn

/-- A call that takes over finds no other stream of the sender ahead of it. -/
def Filter.Whole (f : Filter) (c : Arrival) : Prop :=
  ∀ j, senderOf f.tab c.id.key = some j → (f.tab j).TakesOver c.id c.now → (f.tab j).Alone c.id

/-- A window's numbers are those of frames taken on a sender's stream. -/
def Told (taken : List ClwireId) (key : BitVec 64) (st : Nat) (w : Win) : Prop :=
  ∃ ns, Marks w ns ∧
    ∀ n ∈ ns, ∃ g ∈ taken, g.key = key ∧ g.incarn = w.incarn ∧ g.stream = st ∧ g.seq = n

theorem Told.fresh (taken : List ClwireId) (key : BitVec 64) (st incarn : Nat) :
    Told taken key st (Win.fresh incarn) :=
  ⟨[], Marks.fresh incarn, by simp⟩

variable {taken : List ClwireId} {st : Nat} {w : Win}

theorem Told.mono {key : BitVec 64} (h : Told taken key st w) (id : ClwireId) (v : Verdict) :
    Told (takenAfter taken id v) key st w := by
  obtain ⟨ns, hmarks, hns⟩ := h
  refine ⟨ns, hmarks, fun n hn => ?_⟩
  obtain ⟨g, hg, heq⟩ := hns n hn
  refine ⟨g, ?_, heq⟩
  unfold takenAfter
  split
  · exact mem_append_left _ hg
  · exact hg

theorem winAdmit_incarn (w : Win) (seq : Nat) : (winAdmit w seq).2.incarn = w.incarn := by
  simp only [winAdmit]
  split_ifs <;> rfl

/-- A frame of a window's incarnation is offered to it: the window stays told, and a refusal has
its reason among the frames taken. -/
theorem Told.hear (h : Told taken id.key id.stream w) (hinc : w.incarn = id.incarn) :
    Told (takenAfter taken id (winAdmit w id.seq).1) id.key id.stream (winAdmit w id.seq).2 ∧
      ((winAdmit w id.seq).1 = .ok ∨ ((winAdmit w id.seq).1 = .dup ∧ id ∈ taken) ∨
        ((winAdmit w id.seq).1 = .old ∧
          ∃ g ∈ taken, id.Sibling g ∧ id.seq + clreplayWin ≤ g.seq)) := by
  have hsib : ∀ g : ClwireId, g.key = id.key → g.incarn = w.incarn → g.stream = id.stream →
      id.Sibling g := fun g hkey hg hst => ⟨ClwireId.key_inj hkey, hg.trans hinc, hst⟩
  have hmono := h.mono id
  obtain ⟨ns, hmarks, hns⟩ := h
  rcases hmarks.hear id.seq with ⟨hok, hmarks', -, -⟩ | ⟨heq, n, hn, hold⟩ | ⟨heq, hmem, -⟩
  · refine ⟨⟨ns ++ [id.seq], hmarks', fun n hn => ?_⟩, .inl hok⟩
    rw [takenAfter, if_pos hok, winAdmit_incarn]
    rcases mem_append.mp hn with hn | hn
    · obtain ⟨g, hg, hrest⟩ := hns n hn
      exact ⟨g, mem_append_left _ hg, hrest⟩
    · exact ⟨id, by simp, rfl, hinc.symm, rfl, (mem_singleton.mp hn).symm⟩
  · obtain ⟨g, hg, hkey, hg', hst, rfl⟩ := hns n hn
    rw [heq]
    exact ⟨hmono .old, .inr (.inr ⟨rfl, g, hg, hsib g hkey hg' hst, hold⟩)⟩
  · obtain ⟨g, hg, hkey, hg', hst, hseq⟩ := hns id.seq hmem
    obtain ⟨⟨hip, hport⟩, hincarn, -⟩ := hsib g hkey hg' hst
    have hgid : g = id := by
      cases g
      cases id
      simp_all
    rw [heq]
    exact ⟨hmono .dup, .inr (.inl ⟨rfl, hgid ▸ hg⟩)⟩

/-- The windows of a sender: told, and of no incarnation above the kept one. -/
structure Sender.Inv (taken : List ClwireId) (s : Sender) : Prop where
  kept : ∀ (st : Nat) (w : Win), s.w st = some w → w.incarn ≤ s.incarn
  told : ∀ (st : Nat) (w : Win), s.w st = some w → Told taken s.key st w

/-- Why a frame of the kept incarnation is not taken. -/
def Excused (taken : List ClwireId) (id : ClwireId) (v : Verdict) : Prop :=
  v = .ok ∨ v = .full ∨ (v = .dup ∧ id ∈ taken) ∨
    (v = .old ∧ ∃ g ∈ taken, id.Sibling g ∧ id.seq + clreplayWin ≤ g.seq)

variable {s : Sender} {room : Bool}

open Sender

theorem Sender.window_none (h : s.window id room = none) : s.w id.stream = none := by
  unfold window at h
  split at h
  · exact nomatch h
  · assumption

theorem Sender.window_some (h : s.window id room = some w) :
    s.w id.stream = some w ∨ w = Win.fresh id.incarn := by
  unfold window at h
  split at h
  · rename_i w' hst
    exact .inl (hst.trans h)
  · split at h
    · exact .inr (some.inj h).symm
    · exact nomatch h

/-- The part of a call within a stream, where the kept incarnation is the frame's. Only the window
of the frame's own stream may be of a higher one, and only if the frame takes over. -/
theorem Sender.onStream_inv (now : Int) (lower room : Bool) (hkey : s.key = id.key)
    (hinc : s.incarn = id.incarn)
    (htold : ∀ (st : Nat) (w : Win), s.w st = some w → Told taken s.key st w)
    (hother : ∀ (st : Nat) (w : Win), st ≠ id.stream → s.w st = some w → w.incarn ≤ s.incarn)
    (hown : lower = true ∨ ∀ w, s.w id.stream = some w → w.incarn ≤ s.incarn) :
    (s.onStream id now lower room).2.Inv (takenAfter taken id (s.onStream id now lower room).1) ∧
      Excused taken id (s.onStream id now lower room).1 := by
  unfold onStream
  cases hw : s.window id room with
  | none =>
    refine ⟨⟨fun st w hst => ?_, fun st w hst => (htold st w hst).mono id _⟩, .inr (.inl rfl)⟩
    refine hother st w (fun heq => ?_) hst
    have hnone := window_none hw
    rw [← heq, hst] at hnone
    exact nomatch hnone
  | some w =>
    have hcases := window_some hw
    have hnot : ¬ (id.incarn < w.incarn ∧ lower = false) := by
      rintro ⟨hlt, hlow⟩
      rcases hcases with hst | rfl
      · have hle := hown.resolve_left (by simp [hlow]) w hst
        omega
      · exact Nat.lt_irrefl _ hlt
    -- the window the sequence is offered to
    have hwin : ∃ w', (if id.incarn ≠ w.incarn then Win.fresh id.incarn else w) = w' ∧
        w'.incarn = id.incarn ∧ Told taken id.key id.stream w' := by
      refine ⟨_, rfl, ?_⟩
      split
      · exact ⟨rfl, Told.fresh ..⟩
      · rename_i heq
        refine ⟨(of_not_not heq).symm, ?_⟩
        rcases hcases with hst | rfl
        · exact hkey ▸ htold _ _ hst
        · exact Told.fresh ..
    obtain ⟨w', hw', hinc', htold'⟩ := hwin
    obtain ⟨hafter, hwhy⟩ := htold'.hear hinc'
    simp only [if_neg hnot, hw']
    refine ⟨⟨fun st v hst => ?_, fun st v hst => ?_⟩, hwhy.imp_right Or.inr⟩
    · by_cases heq : st = id.stream
      · simp only [if_pos heq, some.injEq] at hst
        rw [← hst, winAdmit_incarn, hinc']
        exact Nat.le_of_eq hinc.symm
      · simp only [if_neg heq] at hst
        exact hother st v heq hst
    · by_cases heq : st = id.stream
      · simp only [if_pos heq, some.injEq] at hst
        rw [← hst, heq, hkey]
        exact hafter
      · simp only [if_neg heq] at hst
        exact (htold st v hst).mono id _

/-- **A call in the sender's slot.** If a call that takes over finds no other stream ahead, the
windows stay told and below the kept incarnation, and a frame of the kept incarnation is only
refused with reason. -/
theorem Sender.Inv.hear (h : s.Inv taken) {now : Int} (hkey : s.key = id.key)
    (halone : s.TakesOver id now → s.Alone id) :
    (s.hear id now room).2.Inv (takenAfter taken id (s.hear id now room).1) ∧
      (s.incarn = id.incarn → Excused taken id (s.hear id now room).1) := by
  have hsame : ∀ v : Verdict, s.Inv (takenAfter taken id v) :=
    fun v => ⟨h.kept, fun st w hst => (h.told st w hst).mono id v⟩
  unfold Sender.hear
  by_cases hst : clreplayStreams ≤ id.stream
  · rw [if_pos hst]
    exact ⟨hsame .full, fun _ => .inr (.inl rfl)⟩
  · rw [if_neg hst]
    by_cases hlow : id.incarn < s.incarn
    · rw [if_pos hlow]
      by_cases hquiet : now - s.seenMs < clreplayStaleMs
      · rw [if_pos hquiet]
        exact ⟨hsame .incarn, fun heq => absurd hlow (by omega)⟩
      · rw [if_neg hquiet]
        have hothers := halone ⟨Nat.lt_of_not_le hst, hlow, Int.not_lt.mp hquiet⟩
        have := Sender.onStream_inv (s := { s with incarn := id.incarn }) now true room hkey rfl
          h.told hothers (.inl rfl)
        exact ⟨this.1, fun _ => this.2⟩
    · rw [if_neg hlow]
      have hmax : max s.incarn id.incarn = id.incarn := by omega
      have hkept : ∀ (st : Nat) (w : Win), s.w st = some w → w.incarn ≤ max s.incarn id.incarn :=
        fun st w hw => Nat.le_trans (h.kept st w hw) (Nat.le_max_left _ _)
      have := Sender.onStream_inv (s := { s with incarn := max s.incarn id.incarn }) now false room
        hkey hmax h.told (fun st w _ hw => hkept st w hw) (.inr fun w hw => hkept _ w hw)
      exact ⟨this.1, fun _ => this.2⟩

/-- Every slot: a free one has no window. -/
structure Filter.Inv (f : Filter) : Prop where
  slot : ∀ j, (f.tab j).Inv f.taken
  free : ∀ (j st : Nat), (f.tab j).key = 0 → (f.tab j).w st = none

open Cluster.Filter

theorem Filter.inv_start : start.Inv where
  slot _ := ⟨nofun, nofun⟩
  free _ _ _ := rfl

variable {f : Filter}

/-- The slot found for a frame, with the frame's key in it. -/
theorem Filter.Inv.claimed (h : f.Inv) (hj : senderOf f.tab id.key = some j) :
    ((f.tab j).claim id.key).Inv f.taken := by
  refine ⟨(h.slot j).kept, fun st w hst => ?_⟩
  rcases senderFrom_some hj with hkey | hfree
  · exact hkey ▸ (h.slot j).told st w hst
  · exact nomatch (h.free j st hfree).symm.trans hst

theorem Filter.Inv.hear (h : f.Inv) {c : Arrival} (hwhole : f.Whole c)
    (hj : senderOf f.tab c.id.key = some j) :
    (((f.tab j).claim c.id.key).hear c.id c.now c.room).2.Inv
        (takenAfter f.taken c.id (clreplayAdmit f.tab c.id c.now c.room).1) ∧
      ((f.tab j).incarn = c.id.incarn →
        Excused f.taken c.id (clreplayAdmit f.tab c.id c.now c.room).1) := by
  rw [clreplayAdmit_some hj]
  exact (h.claimed hj).hear rfl (hwhole j hj)

theorem Sender.admit_key (s : Sender) (id : ClwireId) (now : Int) (room : Bool) :
    (s.hear id now room).2.key = s.key := by
  have hon : ∀ (s : Sender) (lower : Bool), (s.onStream id now lower room).2.key = s.key := by
    intro s lower
    unfold onStream
    split
    · rfl
    · split <;> rfl
  unfold hear
  split
  · rfl
  · split
    · split
      · rfl
      · exact hon _ _
    · exact hon _ _

theorem ClwireId.key_ne_zero (id : ClwireId) : id.key ≠ 0 := by
  intro h
  have hbit : id.key.getLsbD 48 = true := by simp [ClwireId.key]
  rw [h] at hbit
  exact nomatch hbit

theorem Filter.Inv.step {f' : Filter} {c : Arrival} (h : f.Inv) (hwhole : f.Whole c)
    (hstep : f.step c = some f') : f'.Inv := by
  cases hstep
  cases hj : senderOf f.tab c.id.key with
  | none =>
    rw [clreplayAdmit_none hj]
    exact h
  | some j =>
    have hslot := (h.hear hwhole hj).1
    have hkey := ((f.tab j).claim c.id.key).admit_key c.id c.now c.room
    rw [clreplayAdmit_some hj] at hslot ⊢
    constructor
    · intro i
      by_cases hi : i = j
      · simpa only [if_pos hi] using hslot
      · simp only [if_neg hi]
        exact ⟨(h.slot i).kept, fun st w hst => ((h.slot i).told st w hst).mono c.id _⟩
    · intro i st hzero
      by_cases hi : i = j
      · simp only [if_pos hi, hkey] at hzero
        exact absurd hzero c.id.key_ne_zero
      · simp only [if_neg hi] at hzero ⊢
        exact h.free i st hzero

/-- The incarnation kept of a frame's sender. -/
def Filter.kept (f : Filter) (id : ClwireId) : Option Nat :=
  (senderOf f.tab id.key).map fun j => (f.tab j).incarn

/-- **A live sender is not locked out.** In every run in which a frame that takes over finds no
other stream of its sender ahead of it, a frame of the incarnation now kept is let through, or
was taken before, or a frame taken on its stream under that incarnation is a window above it. -/
theorem kept_refused_with_reason {calls : List Arrival} {f : Filter}
    (hwhole : Machine.Along step Whole start calls)
    (hrun : Machine.run step start calls = some f) (c : Arrival)
    (hkept : f.kept c.id = some c.id.incarn) :
    Excused f.taken c.id (clreplayAdmit f.tab c.id c.now c.room).1 := by
  have hinv : f.Inv := Machine.run_invariant (fun _ _ _ h hok hs => h.step hok hs)
    inv_start hwhole hrun
  obtain ⟨j, hj, hinc⟩ := map_eq_some_iff.mp hkept
  have hno : f.Whole c := by
    intro j' hj' htake
    obtain rfl : j = j' := some.inj (hj.symm.trans hj')
    exact absurd htake.2.1 (by omega)
  exact (hinv.hear hno hj).2 hinc

/-! ### Takeovers -/

/-- A call changes the window of the frame's stream only. -/
theorem Sender.admit_other (s : Sender) (hne : st ≠ id.stream) (now : Int) (room : Bool) :
    (s.hear id now room).2.w st = s.w st := by
  have hon : ∀ (s : Sender) (lower : Bool), (s.onStream id now lower room).2.w st = s.w st := by
    intro s lower
    unfold onStream
    split
    · rfl
    · split
      · rfl
      · exact if_neg hne
  unfold hear
  split
  · rfl
  · split
    · split
      · rfl
      · exact hon _ _
    · exact hon _ _

theorem clreplayAdmit_other (tab : Nat → Sender) (hne : st ≠ id.stream) (now : Int) (room : Bool)
    (i : Nat) : ((clreplayAdmit tab id now room).2 i).w st = (tab i).w st := by
  cases hj : senderOf tab id.key with
  | none => rw [clreplayAdmit_none hj]
  | some j =>
    rw [clreplayAdmit_some hj]
    by_cases hi : i = j
    · subst hi
      simp only [if_true]
      exact admit_other _ hne now room
    · simp only [if_neg hi]

/-- A frame of the kept incarnation on a stream whose window is of a higher one is refused. -/
theorem Sender.refuses (hst : id.stream < clreplayStreams) (hkept : s.incarn = id.incarn)
    (hw : s.w id.stream = some w) (hhigh : id.incarn < w.incarn) (now : Int) (room : Bool) :
    (s.hear id now room).1 = .incarn := by
  have hwin : ∀ i : Nat, ({ s with incarn := i } : Sender).window id room = some w := by
    intro i
    simp only [window, hw]
  simp [hear, onStream, Nat.not_le.mpr hst, hkept, hwin, hhigh]

/-- **A takeover locks the other streams out**: whatever the sender, once a frame of a lower
incarnation has taken over on one stream, every frame of that incarnation on another stream with
a window of a higher one is refused. -/
theorem Sender.takeover_locks_out {id' : ClwireId} {now now' : Int} {room' : Bool}
    (htake : s.TakesOver id now) (hne : id'.stream ≠ id.stream) (hst : id'.stream < clreplayStreams)
    (hsame : id'.incarn = id.incarn) (hw : s.w id'.stream = some w) (hhigh : id.incarn < w.incarn) :
    ((s.hear id now room).2.hear id' now' room').1 = .incarn := by
  have hkept : (s.hear id now room).2.incarn = id.incarn := by
    obtain ⟨hlt, hlow, hquiet⟩ := htake
    have hon : ∀ (s : Sender), (s.onStream id now true room).2.incarn = s.incarn := by
      intro s
      unfold onStream
      split
      · rfl
      · split <;> rfl
    rw [hear, if_neg (Nat.not_le.mpr hlt), if_pos hlow, if_neg (Int.not_lt.mpr hquiet), hon]
  exact refuses hst (hkept.trans hsame.symm) ((s.admit_other hne now room).trans hw)
    (hsame ▸ hhigh) now' room'

/-- A frame of one host and port, with its incarnation, stream and sequence. -/
def frame (incarn stream seq : Nat) : ClwireId := ⟨incarn, seq, 0x7f000001, 17001, stream⟩

/-- Stream 2 is heard under incarnation 50 and stream 1 under 200; after a minute of silence a frame
of incarnation 100 takes over on stream 1, with stream 2 below it. -/
def lowerStream : List Arrival :=
  [⟨frame 50 2 1, 0, true⟩, ⟨frame 200 1 1, 1, true⟩, ⟨frame 100 1 1, 60001, true⟩]

theorem lowerStream_whole : Machine.Along step Whole start lowerStream := by
  refine ⟨fun j _ htake => absurd htake.2.1 (Nat.not_lt_zero _), fun j hj htake => ?_,
    fun j hj _ st w hne hw => ?_, trivial⟩
  · obtain rfl := some.inj (hj.symm.trans (by decide +kernel : _ = some 426))
    exact absurd htake.2.1 (by decide +kernel)
  · -- the first frame is the only one before on another stream
    have hfirst : ((clreplayAdmit start.tab (frame 50 2 1) 0 true).2 j).w st = some w :=
      (clreplayAdmit_other _ (show st ≠ (frame 200 1 1).stream from hne) 1 true j).symm.trans hw
    by_cases hst : st = 2
    · subst hst
      obtain rfl := some.inj (hj.symm.trans (by decide +kernel : _ = some 426))
      have hinc : (((clreplayAdmit start.tab (frame 50 2 1) 0 true).2 426).w 2).map Win.incarn =
          some 50 := by decide +kernel
      rw [hfirst, map_some, some.injEq] at hinc
      exact hinc ▸ (by decide : 50 ≤ 100)
    · have hnone := clreplayAdmit_other start.tab (show st ≠ (frame 50 2 1).stream from hst)
        0 true j
      exact nomatch hnone.symm.trans hfirst

theorem kept_refused_with_reason_lower_stream :
    ∃ f : Filter, Machine.run step start lowerStream = some f ∧
      f.kept (frame 100 2 1) = some 100 ∧
      (clreplayAdmit f.tab (frame 100 2 1) 60002 true).1 = .ok ∧
      Excused f.taken (frame 100 2 1) (clreplayAdmit f.tab (frame 100 2 1) 60002 true).1 :=
  ⟨_, rfl, by decide +kernel, by decide +kernel,
    kept_refused_with_reason lowerStream_whole rfl ⟨frame 100 2 1, 60002, true⟩ (by decide +kernel)⟩

/-- The sender of incarnation 200 was heard on streams 1 and 2 and restarts with incarnation 100:
its first frame on stream 1 takes over, its first frame on stream 2 is refused. -/
theorem stream_locked_out_by_takeover : ∃ f : Filter, Machine.run step start
        [⟨frame 200 1 1, 0, true⟩, ⟨frame 200 2 1, 0, true⟩, ⟨frame 100 1 1, 60000, true⟩] =
          some f ∧
      f.kept (frame 100 2 1) = some 100 ∧
      (clreplayAdmit f.tab (frame 100 2 1) 60001 true).1 = .incarn ∧
      ∀ g ∈ f.taken, ¬ (frame 100 2 1).Sibling g := by
  exact ⟨_, rfl, by decide +kernel, by decide +kernel, by decide +kernel⟩

end Perfcached.Cluster
