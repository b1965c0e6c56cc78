import Mathlib.Data.Finmap
import Perfcached.Rdb.Writer
import Perfcached.Store.Table

/-!
# Perfcached.Rdb.Save

Writing a snapshot (`walk_cb` and `rdb_save` of `src/rdb.c`), from the point where
the temporary file is open.

`image` is the byte string a save that meets no failure puts into its stream. The
code gets there through a buffer that may be refused, a failure flag that cuts
walks short, and two passes over a collection that is being resized; `Carries` and
`Emits` are the rules that follow a state predicate through that code once, for
whatever the predicate says about the writer. They are used for both results about
a save: when it ends (`snapshot_ends`), and what the file then holds (`rdbSave_clear`).
-/

namespace Perfcached.Rdb

open Bytes While List Option

/-- `PC_RDB_MAGIC`, "PCRD". -/
def magic : Nat := 0x44524350

/-- `PC_RDB_FMT`. -/
def fmt : Nat := 3

/-- `struct walk_ctx` less the writer: the clocks at the start of the walk, and the
other table of a resize in progress. -/
structure WalkCtx where
  nowTicks : Nat
  nowWall : Nat
  other : Option Table
  otherOld : Bool

/-- The other table's copy is the one to write: of a key's two copies only the newer
is written, on a tie the live table's. -/
def WalkCtx.superseded (c : WalkCtx) (k : Key) (ver : Nat) : Bool :=
  match c.other with
  | none => false
  | some t =>
    match htGetver c.nowTicks t k with
    | some ov => if c.otherOld then ver < ov else ver ≤ ov
    | none => false

/-- The expiry of a record as the snapshot states it, in wall-clock seconds. -/
def WalkCtx.wall (c : WalkCtx) (r : Rec) : Nat :=
  if r.expires ≠ 0 then c.nowWall + (r.expires - c.nowTicks) else 0

/-- The puts of a record, in `walk_cb`'s order. -/
def putEntry (ω : Nat → Int) (fuel : Nat) (c : WalkCtx) (k : Key) (r : Rec) (w : Wr) :
    Option Wr := do
  let w ← put8 ω fuel w 2
  let w ← put32 ω fuel w k.length
  let w ← put32 ω fuel w r.emitVal.length
  let w ← put64 ω fuel w (c.wall r)
  let w ← put64 ω fuel w r.ver
  let w ← put8 ω fuel w (r.rflags &&& fCarry).toNat
  let w ← wrPut ω fuel w k
  wrPut ω fuel w r.emitVal

/-- `walk_cb`: whether the walk is to stop, and the writer. -/
def walkCb (ω : Nat → Int) (fuel : Nat) (c : WalkCtx) (k : Key) (r : Rec) (w : Wr) :
    Option (Bool × Wr) :=
  if w.failed then some (true, w)
  else if r.expired c.nowTicks then some (false, w)
  else if c.superseded k r.ver then some (false, w)
  else (putEntry ω fuel c k r w).map fun w => (false, w)

/-- `pcache_ht_iter_meta` with `walk_cb`, over the records of a table. -/
def iterMeta (ω : Nat → Int) (fuel : Nat) (c : WalkCtx) :
    List (Sigma fun _ : Key => Rec) → Wr → Option Wr
  | [], w => some w
  | ⟨k, r⟩ :: es, w =>
    match walkCb ω fuel c k r w with
    | none => none
    | some (true, w) => some w
    | some (false, w) => iterMeta ω fuel c es w

/-- What `rdb_save` reads from its surroundings: the WAL sequence at the start of the
walk, the wall clock for the header, then the clocks of the walk. -/
structure SaveEnv where
  lastSeq : Nat
  headWall : Nat
  nowTicks : Nat
  nowWall : Nat

/-- The walks of one collection: a draining resize's old table first. -/
def saveTables (ω : Nat → Int) (fuel : Nat) (env : SaveEnv) (c : Collection) (w : Wr) :
    Option Wr := do
  let w ← match c.draining with
    | some old =>
      iterMeta ω fuel ⟨env.nowTicks, env.nowWall, some c.table, false⟩ old.entries w
    | none => some w
  iterMeta ω fuel ⟨env.nowTicks, env.nowWall, c.draining, true⟩ c.table.entries w

/-- The body of `rdb_save`'s loop for a live, durable collection. -/
def saveCollection (ω : Nat → Int) (fuel : Nat) (env : SaveEnv) (c : Collection) (w : Wr) :
    Option Wr := do
  let w ← put8 ω fuel w 1
  let w ← put8 ω fuel w c.name.length
  let w ← wrPut ω fuel w c.name
  saveTables ω fuel env c w

/-- The loop of `rdb_save` over the collections. -/
def saveCollections (ω : Nat → Int) (fuel : Nat) (env : SaveEnv) :
    List Collection → Wr → Option Wr
  | [], w => some w
  | c :: cs, w =>
    if w.failed then some w
    else if !c.isLive || !c.durable then saveCollections ω fuel env cs w
    else saveCollection ω fuel env c w >>= saveCollections ω fuel env cs

/-- The puts of the header. -/
def saveHeader (ω : Nat → Int) (fuel : Nat) (env : SaveEnv) (w : Wr) : Option Wr := do
  let w ← put32 ω fuel w magic
  let w ← put32 ω fuel w fmt
  let w ← put64 ω fuel w env.lastSeq
  put64 ω fuel w env.headWall

/-- The answers of the calls that publish the file (true: it succeeded). -/
structure Sys where
  fdatasync : Bool
  close : Bool
  rename : Bool
  dirsync : Bool

/-- What a save leaves: its answer, and the file that now stands under the
snapshot's name, when the rename happened. -/
structure SaveOut where
  rc : Int
  renamed : Option (List Byte)

/-- The publication of a file that was written: synced, closed, renamed, and the
directory synced. -/
def publish (sys : Sys) (file : List Byte) : SaveOut :=
  if !sys.fdatasync then ⟨-1, none⟩
  else if !sys.close || !sys.rename then ⟨-1, none⟩
  else if !sys.dirsync then ⟨-1, some file⟩
  else ⟨0, some file⟩

/-- The end of `rdb_save`: the checksum, appended without being fed back, the last
flush, and the publication. When the buffer is full and the flush before the
checksum is refused, the four bytes go past it and are offered all the same. -/
def finish (ω : Nat → Int) (sys : Sys) (w : Wr) : SaveOut :=
  let w := if bufSize < w.buf.length + 4 then wrFlush ω w else w
  match flushLoop ω (w.buf ++ leBytes 4 w.crc.toNat) w.sink 0 with
  | (cleared, k) => if w.failed || !cleared then ⟨-1, none⟩ else publish sys k.file

def rdbSave (ω : Nat → Int) (fuel : Nat) (sys : Sys) (env : SaveEnv) (cs : List Collection) :
    Option SaveOut := do
  let w ← saveHeader ω fuel env Wr.init
  let w ← saveCollections ω fuel env cs w
  let w ← put8 ω fuel w 0xFF
  some (finish ω sys w)

/-! ### The image of a snapshot -/

def entryBytes (c : WalkCtx) (k : Key) (r : Rec) : List Byte :=
  leBytes 1 2 ++ leBytes 4 k.length ++ leBytes 4 r.emitVal.length ++ leBytes 8 (c.wall r) ++
    leBytes 8 r.ver ++ leBytes 1 (r.rflags &&& fCarry).toNat ++ k ++ r.emitVal

/-- A walk writes the record: it is live, and its key's newer copy. -/
def WalkCtx.writes (c : WalkCtx) (e : Sigma fun _ : Key => Rec) : Bool :=
  !e.2.expired c.nowTicks && !c.superseded e.1 e.2.ver

def walkBytes (c : WalkCtx) (es : List (Sigma fun _ : Key => Rec)) : List Byte :=
  (es.filter c.writes).flatMap fun e => entryBytes c e.1 e.2

def tablesBytes (env : SaveEnv) (c : Collection) : List Byte :=
  (match c.draining with
    | some old => walkBytes ⟨env.nowTicks, env.nowWall, some c.table, false⟩ old.entries
    | none => []) ++
  walkBytes ⟨env.nowTicks, env.nowWall, c.draining, true⟩ c.table.entries

def collectionBytes (env : SaveEnv) (c : Collection) : List Byte :=
  leBytes 1 1 ++ leBytes 1 c.name.length ++ c.name ++ tablesBytes env c

/-- The bytes of the collections that are saved. -/
def collectionsBytes (env : SaveEnv) (cs : List Collection) : List Byte :=
  (cs.filter fun c => c.isLive && c.durable).flatMap (collectionBytes env)

def headerBytes (env : SaveEnv) : List Byte :=
  leBytes 4 magic ++ leBytes 4 fmt ++ leBytes 8 env.lastSeq ++ leBytes 8 env.headWall

/-- Everything a save puts, its checksum apart. -/
def image (env : SaveEnv) (cs : List Collection) : List Byte :=
  headerBytes env ++ collectionsBytes env cs ++ leBytes 1 0xFF

/-! ### Following a predicate through the puts

`Good b w` is a property of the writer after the bytes `b` have been put. -/

/-- A predicate that every put of the stream keeps, that a failed writer keeps
whatever was meant to follow, and under which puts of up to `L` bytes in all
return. -/
structure Carries (ω : Nat → Int) (fuel L : Nat) (Good : List Byte → Wr → Prop) : Prop where
  keeps : ∀ {b p w w'}, Good b w → wrPut ω fuel w p = some w' → Good (b ++ p) w'
  halted : ∀ {b w}, Good b w → w.failed = true → ∀ o, Good (b ++ o) w
  returns : ∀ {b p w}, Good b w → (b ++ p).length ≤ L → ∃ w', wrPut ω fuel w p = some w'

/-- The code `f` puts `out`: it keeps the predicate, and returns if `L` allows. -/
def Emits (L : Nat) (Good : List Byte → Wr → Prop) (f : Wr → Option Wr) (out : List Byte) : Prop :=
  ∀ b w, Good b w → (∀ w', f w = some w' → Good (b ++ out) w') ∧
    ((b ++ out).length ≤ L → ∃ w', f w = some w')

variable {L : Nat}

theorem emits_skip {Good : List Byte → Wr → Prop} : Emits L Good some [] := by
  intro b w hg
  refine ⟨?_, fun _ => ⟨w, rfl⟩⟩
  rintro w' ⟨⟩
  rw [append_nil]
  exact hg

theorem Emits.bind {Good : List Byte → Wr → Prop} {f g : Wr → Option Wr} {o o' : List Byte}
    (hf : Emits L Good f o) (hg : Emits L Good g o') :
    Emits L Good (fun w => f w >>= g) (o ++ o') := by
  intro b w hw
  obtain ⟨hkeep, hret⟩ := hf b w hw
  rw [← append_assoc]
  constructor
  · intro w' he
    obtain ⟨w1, h1, h2⟩ := bind_eq_some_iff.mp he
    exact (hg _ w1 (hkeep w1 h1)).1 w' h2
  · intro hL
    obtain ⟨w1, h1⟩ := hret (by simp only [length_append] at hL ⊢; omega)
    obtain ⟨w2, h2⟩ := (hg _ w1 (hkeep w1 h1)).2 hL
    exact ⟨w2, bind_eq_some_iff.mpr ⟨w1, h1, h2⟩⟩

section Emitting

variable {ω : Nat → Int} {fuel L : Nat} {Good : List Byte → Wr → Prop}

theorem wrPut_emits (h : Carries ω fuel L Good) (p : List Byte) :
    Emits L Good (fun w => wrPut ω fuel w p) p :=
  fun _ _ hg => ⟨fun _ he => h.keeps hg he, fun hL => h.returns hg hL⟩

theorem put64_emits (h : Carries ω fuel L Good) (v : Nat) :
    Emits L Good (fun w => put64 ω fuel w v) (leBytes 8 v) := by
  rw [show (8 : Nat) = 4 + 4 from rfl, leBytes_add]
  exact (wrPut_emits h (leBytes 4 v)).bind (wrPut_emits h (leBytes 4 (v / 2 ^ 32)))

theorem putEntry_emits (h : Carries ω fuel L Good) (c : WalkCtx) (k : Key) (r : Rec) :
    Emits L Good (putEntry ω fuel c k r) (entryBytes c k r) := by
  exact (wrPut_emits h _).bind <| (wrPut_emits h _).bind <| (wrPut_emits h _).bind <|
    (put64_emits h _).bind <|
    (put64_emits h _).bind <| (wrPut_emits h _).bind <| (wrPut_emits h _).bind (wrPut_emits h _)

/-- One callback, on a writer that has not failed. -/
theorem walkCb_running {c : WalkCtx} {k : Key} {r : Rec} {w : Wr} (hw : w.failed = false) :
    walkCb ω fuel c k r w =
      (if c.writes ⟨k, r⟩ then putEntry ω fuel c k r w else some w).map (false, ·) := by
  unfold walkCb WalkCtx.writes
  cases r.expired c.nowTicks <;> cases c.superseded k r.ver <;> simp [hw]

section

variable (h : Carries ω fuel L Good)
include h

/-- A loop that a failed writer ends at its next item, and that passes items over. -/
theorem emits_loop {α : Type} {loop : List α → Wr → Option Wr} {keep : α → Bool}
    {body : α → Wr → Option Wr} {out : α → List Byte} (hnil : loop [] = some)
    (hcons : ∀ x xs w, loop (x :: xs) w = if w.failed then some w
      else if keep x then body x w >>= loop xs else loop xs w)
    (hbody : ∀ x, Emits L Good (body x) (out x)) (xs : List α) :
    Emits L Good (loop xs) ((xs.filter keep).flatMap out) := by
  induction xs with
  | nil =>
    rw [hnil]
    exact emits_skip
  | cons x xs ih =>
    intro b w hg
    rw [hcons]
    cases hw : w.failed with
    | true =>
      refine ⟨?_, fun _ => ⟨w, rfl⟩⟩
      rintro w' ⟨⟩
      exact h.halted hg hw _
    | false =>
      cases hk : keep x with
      | false =>
        rw [filter_cons_of_neg (by simp [hk])]
        exact ih b w hg
      | true =>
        rw [filter_cons_of_pos hk, flatMap_cons]
        exact (hbody x).bind ih b w hg

theorem iterMeta_emits (c : WalkCtx) (es : List (Sigma fun _ : Key => Rec)) :
    Emits L Good (iterMeta ω fuel c es) (walkBytes c es) := by
  have hcons : ∀ (e : Sigma fun _ : Key => Rec) es w, iterMeta ω fuel c (e :: es) w =
      if w.failed then some w
      else if c.writes e then putEntry ω fuel c e.1 e.2 w >>= iterMeta ω fuel c es
      else iterMeta ω fuel c es w := by
    intro e es w
    rw [iterMeta]
    cases hw : w.failed with
    | true => simp [walkCb, hw]
    | false =>
      rw [walkCb_running hw]
      cases c.writes e with
      | false => rfl
      | true => cases putEntry ω fuel c e.1 e.2 w <;> rfl
  exact emits_loop h rfl hcons (fun e => putEntry_emits h c e.1 e.2) es

section

variable (env : SaveEnv)

theorem saveTables_emits (c : Collection) :
    Emits L Good (saveTables ω fuel env c) (tablesBytes env c) := by
  unfold saveTables tablesBytes
  cases c.draining with
  | none => exact emits_skip.bind (iterMeta_emits h _ _)
  | some old => exact (iterMeta_emits h _ _).bind (iterMeta_emits h _ _)

theorem saveCollection_emits (c : Collection) :
    Emits L Good (saveCollection ω fuel env c) (collectionBytes env c) := by
  exact (wrPut_emits h _).bind <| (wrPut_emits h _).bind <| (wrPut_emits h _).bind
    (saveTables_emits h env c)

theorem saveCollections_emits (cs : List Collection) :
    Emits L Good (saveCollections ω fuel env cs) (collectionsBytes env cs) := by
  refine emits_loop h rfl (fun c cs w => ?_) (saveCollection_emits h env) cs
  rw [saveCollections, ← Bool.not_and]
  cases c.isLive && c.durable <;> rfl

theorem saveHeader_emits : Emits L Good (saveHeader ω fuel env) (headerBytes env) := by
  exact (wrPut_emits h _).bind <| (wrPut_emits h _).bind <| (put64_emits h _).bind (put64_emits h _)

end

end

/-- Everything before the last tag. -/
def saveBody (ω : Nat → Int) (fuel : Nat) (env : SaveEnv) (cs : List Collection) (w : Wr) :
    Option Wr :=
  saveHeader ω fuel env w >>= saveCollections ω fuel env cs

theorem saveBody_emits (h : Carries ω fuel L Good) (env : SaveEnv) (cs : List Collection) :
    Emits L Good (saveBody ω fuel env cs) (headerBytes env ++ collectionsBytes env cs) :=
  (saveHeader_emits h env).bind (saveCollections_emits h env cs)

theorem rdbSave_eq (ω : Nat → Int) (fuel : Nat) (sys : Sys) (env : SaveEnv) (cs : List Collection) :
    rdbSave ω fuel sys env cs =
      (saveBody ω fuel env cs Wr.init >>= fun w => put8 ω fuel w 0xFF).map (finish ω sys) := by
  unfold rdbSave saveBody
  cases saveHeader ω fuel env Wr.init with
  | none => rfl
  | some w =>
    simp only [bind_eq_bind, bind_some]
    cases saveCollections ω fuel env cs w with
    | none => rfl
    | some w =>
      simp only [bind_some]
      cases put8 ω fuel w 0xFF <;> rfl

end Emitting

/-! ### When a save ends -/

/-- Whatever `write()` answers, the bytes stay in the buffer until it is full. -/
theorem carries_buffered (ω : Nat → Int) (fuel : Nat) : Carries ω (fuel + 2) (bufSize - 1)
      (fun b w => b.length < bufSize → w.buf = b ∧ w.failed = false) where
  keeps := by
    intro b p w w' hg he hlen
    rw [length_append] at hlen
    obtain ⟨hbuf, hrun⟩ := hg (by omega)
    obtain ⟨w1, h1, hbuf1, hrun1⟩ := wrPut_small ω fuel (w := w) (p := p) (by rw [hbuf]; omega)
    rw [wrPut_det he h1, hbuf1, hrun1, hbuf]
    exact ⟨rfl, hrun⟩
  halted := by
    intro b w hg hw o hlen
    rw [length_append] at hlen
    have := (hg (by omega)).2
    rw [hw] at this
    cases this
  returns := by
    intro b p w hg hL
    have hpos := bufSize_pos
    rw [length_append] at hL
    obtain ⟨hbuf, -⟩ := hg (by omega)
    obtain ⟨w1, h1, -⟩ := wrPut_small ω fuel (w := w) (p := p) (by rw [hbuf]; omega)
    exact ⟨w1, h1⟩

variable {ω : Nat → Int}

/-- While every `write()` is refused, the writer holds every byte so far, or its
buffer is full for good. -/
theorem carries_refusing (hω : ∀ i, ω i ≤ 0) (fuel : Nat) : Carries ω (fuel + 1) 0
      (fun b w => (w.buf.length = b.length ∧ b.length < bufSize ∧ w.failed = false) ∨
        w.buf.length = bufSize) where
  keeps := by
    intro b p w w' hg he
    -- a put that returns had room
    have hroom : w.buf.length + p.length ≤ bufSize := by
      by_contra hover
      rw [wrPut_full_refusing hω (by omega)] at he
      cases he
    rcases hg with ⟨hbuf, hlt, hrun⟩ | hfull
    · by_cases hsmall : w.buf.length + p.length < bufSize
      · obtain ⟨w1, h1, hbuf1, hrun1⟩ := wrPut_small ω 0 hsmall
        rw [wrPut_det he h1]
        refine .inl ⟨?_, ?_, hrun1.trans hrun⟩
        · rw [hbuf1, length_append, length_append, hbuf]
        · rw [length_append]
          omega
      · have hp : p ≠ [] := by
          rintro rfl
          rw [length_nil] at hsmall
          omega
        rw [wrPut_det he (wrPut_fits ω 0 hroom hp)]
        have hfill : ((w.count p).fill p).buf.length = bufSize := by
          rw [Wr.fill_length]
          change min (w.buf.length + p.length) bufSize = bufSize
          omega
        rw [if_pos hfill]
        rcases wrFlush_cases ω ((w.count p).fill p) with ⟨j, hj, -⟩ | ⟨j, taken, -, hf⟩
        · rw [hfill] at hj
          exact absurd (Drains.cleared hj Drains.none) (not_drains_of_refusing hω)
        · rw [hf]
          exact .inr hfill
    · obtain rfl : p = [] := eq_nil_of_length_eq_zero (by omega)
      obtain rfl := wrPut_det he (show wrPut ω 1 w [] = some (w.count []) from rfl)
      exact .inr hfull
  halted := by
    rintro b w (⟨-, -, hrun⟩ | hfull) hw o
    · rw [hw] at hrun
      cases hrun
    · exact .inr hfull
  returns := by
    intro b p w _ hL
    obtain rfl : p = [] := by
      rw [length_append] at hL
      exact eq_nil_of_length_eq_zero (by omega)
    exact ⟨w.count [], rfl⟩

theorem image_length (env : SaveEnv) (cs : List Collection) :
    (image env cs).length = (headerBytes env ++ collectionsBytes env cs).length + 1 := by
  rw [image, length_append, length_leBytes]

variable {env : SaveEnv} {cs : List Collection}

/-- A snapshot that fits the buffer is saved, or given up, under every behaviour of
`write()`. -/
theorem rdbSave_ends_of_fits (ω : Nat → Int) (sys : Sys) (h : (image env cs).length ≤ bufSize) :
    ∃ out, rdbSave ω 2 sys env cs = some out := by
  rw [image_length] at h
  obtain ⟨hkeep, hret⟩ := saveBody_emits (carries_buffered ω 0) env cs [] Wr.init
    (fun _ => ⟨rfl, rfl⟩)
  rw [nil_append] at hkeep hret
  obtain ⟨w, hw⟩ := hret (by omega)
  obtain ⟨hbuf, -⟩ := hkeep w hw (by omega)
  have hput := wrPut_fits ω (w := w) (p := leBytes 1 0xFF) 0
    (by rw [hbuf, length_leBytes]; omega) (by simp [leBytes])
  rw [rdbSave_eq, hw]
  exact ⟨_, by rw [bind_eq_bind, bind_some, put8, hput]; rfl⟩

/-- A longer snapshot spins while every `write()` is refused: the failure flag cuts
the walks short, but the last tag still has to get past the full buffer. -/
theorem rdbSave_spins_of_refused (hω : ∀ i, ω i ≤ 0) (sys : Sys)
    (h : bufSize < (image env cs).length) (fuel : Nat) : rdbSave ω fuel sys env cs = none := by
  rw [image_length] at h
  rw [rdbSave_eq]
  cases fuel with
  | zero => rfl
  | succ fuel =>
    cases hb : saveBody ω (fuel + 1) env cs Wr.init with
    | none => rfl
    | some w =>
      have hg := (saveBody_emits (carries_refusing hω fuel) env cs [] Wr.init
        (.inl ⟨rfl, bufSize_pos, rfl⟩)).1 w hb
      rw [nil_append] at hg
      have hnone := wrPut_full_refusing hω (w := w) (p := leBytes 1 0xFF)
        (by rw [length_leBytes]; omega) (fuel + 1)
      rw [bind_eq_bind, bind_some, put8, hnone]
      rfl

/-- **Snapshots end, but for the full buffer.** A flush returns, after at most one
`write()` a byte. A put returns exactly when `write()` comes to take the full buffers
in its way, whether or not an earlier call was refused. And the contents that are
saved or given up under every behaviour of `write()` are those whose image fits the
buffer. -/
theorem snapshot_ends (ω : Nat → Int) (w : Wr) (p : List Byte) (sys : Sys) (env : SaveEnv)
    (cs : List Collection) :
    (wrFlush ω w).sink.calls ≤ w.sink.calls + w.buf.length ∧
    ((∃ fuel w', wrPut ω fuel w p = some w') ↔
      Drains ω (fullBuffers w.buf.length p.length) w.sink.calls) ∧
    ((∀ ω, ∃ fuel out, rdbSave ω fuel sys env cs = some out) ↔
      (image env cs).length ≤ bufSize) := by
  refine ⟨wrFlush_calls_le ω w, wrPut_returns_iff ω w p, ?_, ?_⟩
  · intro hends
    by_contra hlong
    obtain ⟨fuel, out, he⟩ := hends fun _ => -1
    rw [rdbSave_spins_of_refused (fun _ => by decide) sys (by omega)] at he
    cases he
  · intro hfits ω
    exact ⟨2, rdbSave_ends_of_fits ω sys hfits⟩

/-- One durable collection that holds one key. -/
def oneKey (r : Rec) : Collection where
  name := [0x63#8]
  isLive := true
  durable := true
  table := AList.singleton [0x6B#8] r
  draining := none

theorem oneKey_image_length (env : SaveEnv) (v : List Byte) :
    (image env [oneKey ⟨v, 0, 0#8, 1⟩]).length = v.length + 55 := by
  rw [image_length, collectionsBytes]
  simp [headerBytes, collectionBytes, tablesBytes, walkBytes, oneKey, AList.singleton,
    WalkCtx.writes, WalkCtx.superseded, Rec.expired, entryBytes, Rec.emitVal]
  omega

/-- A disk that fills up: every `write()` answers -1, and the save of one value of
64 KB never returns. -/
theorem rdbSave_spins_on_full_disk :
    ¬ ∃ fuel out, rdbSave (fun _ => -1) fuel ⟨true, true, true, true⟩
      ⟨1, 1700000000, 10, 1700000000⟩ [oneKey ⟨replicate 65536 0#8, 0, 0#8, 1⟩] =
        some out := by
  rintro ⟨fuel, out, he⟩
  rw [rdbSave_spins_of_refused (fun _ => by decide) _ ?_] at he
  · cases he
  · rw [oneKey_image_length, length_replicate]
    decide

/-! ### What a save writes -/

variable {fuel : Nat}

/-- Where no `write()` is refused, every byte put is in the file or the buffer, and
in the checksum. -/
theorem carries_clear (hω : ∀ i, 0 < ω i) (hf : L < fuel) :
    Carries ω fuel L
      (fun b w => w.failed = false ∧ w.sink.file ++ w.buf = b ∧ w.crc = pcCrc32c 0#32 b ∧
        w.buf.length < bufSize) where
  keeps := by
    rintro b p w w' ⟨hrun, hbytes, hcrc, hroom⟩ he
    obtain ⟨w1, h1, htook⟩ := wrPut_clear hω (Nat.lt_succ_self p.length) hroom
    rw [wrPut_det he h1]
    refine ⟨htook.failed.trans hrun, ?_, ?_, htook.room⟩
    · rw [htook.bytes, ← hbytes]
      rfl
    · rw [htook.crc, pcCrc32c_append, ← hcrc]
      rfl
  halted := by
    rintro b w ⟨hrun, -⟩ hw
    rw [hw] at hrun
    cases hrun
  returns := by
    rintro b p w ⟨-, -, -, hroom⟩ hL
    rw [length_append] at hL
    obtain ⟨w', hw', -⟩ := wrPut_clear hω (show p.length < fuel by omega) hroom
    exact ⟨w', hw'⟩

/-- The file of a snapshot: its image and the image's checksum. -/
def snapshotFile (env : SaveEnv) (cs : List Collection) : List Byte :=
  image env cs ++ leBytes 4 (pcCrc32c 0#32 (image env cs)).toNat

section

variable (hω : ∀ i, 0 < ω i)
include hω

/-- The last flush, where no `write()` is refused. -/
theorem finish_clear (sys : Sys) {w : Wr} (hrun : w.failed = false) :
    finish ω sys w = publish sys (w.sink.file ++ w.buf ++ leBytes 4 w.crc.toNat) := by
  unfold finish
  split
  · obtain ⟨j, he⟩ := wrFlush_clear hω w
    obtain ⟨i, hl⟩ := flushLoop_clear hω ((w.cleared j).buf ++ leBytes 4 (w.cleared j).crc.toNat)
      (w.cleared j).sink
    simp only [he, hl]
    simp [Wr.cleared, hrun]
  · obtain ⟨i, hl⟩ := flushLoop_clear hω (w.buf ++ leBytes 4 w.crc.toNat) w.sink
    simp only [hl]
    simp [hrun]

/-- The whole run of puts, where no `write()` is refused. -/
theorem rdbSave_emits (hf : L < fuel) (sys : Sys) (env : SaveEnv) (cs : List Collection) :
    (∀ out, rdbSave ω fuel sys env cs = some out → out = publish sys (snapshotFile env cs)) ∧
    ((image env cs).length ≤ L → ∃ out, rdbSave ω fuel sys env cs = some out) := by
  obtain ⟨hkeep, hret⟩ := ((saveBody_emits (carries_clear hω hf) env cs).bind
    (wrPut_emits (carries_clear hω hf) (leBytes 1 0xFF))) [] Wr.init ⟨rfl, rfl, rfl, bufSize_pos⟩
  rw [rdbSave_eq]
  constructor
  · intro out hout
    obtain ⟨w, hw, rfl⟩ := map_eq_some_iff.mp hout
    obtain ⟨hrun, hbytes, hcrc, -⟩ := hkeep w hw
    rw [finish_clear hω sys hrun, hbytes, hcrc]
    rfl
  · intro hL
    obtain ⟨w, hw⟩ := hret hL
    exact ⟨_, map_eq_some_iff.mpr ⟨w, hw, rfl⟩⟩

/-- **What a save writes**: where no `write()` is refused, however short each is, the
save ends, and the file it publishes is the snapshot's image and checksum. -/
theorem rdbSave_clear (sys : Sys) (hf : (image env cs).length < fuel) :
    rdbSave ω fuel sys env cs = some (publish sys (snapshotFile env cs)) := by
  obtain ⟨hout, hret⟩ := rdbSave_emits hω hf sys env cs
  obtain ⟨out, he⟩ := hret le_rfl
  rw [he, hout out he]

/-- A save that returns has written that file, under whatever bound. -/
theorem rdbSave_clear_file {sys : Sys} {rc : Int} {file : List Byte}
    (h : rdbSave ω fuel sys env cs = some ⟨rc, some file⟩) : file = snapshotFile env cs := by
  cases fuel with
  | zero => cases h
  | succ fuel =>
    have hpub := (rdbSave_emits hω fuel.succ_pos sys env cs).1 _ h
    unfold publish at hpub
    split at hpub
    · cases hpub
    · split at hpub
      · cases hpub
      · split at hpub
        · cases hpub
          rfl
        · cases hpub
          rfl

end

end Perfcached.Rdb
