import Perfcached.Rdb.Save
import Perfcached.Store.Registry

/-!
# Perfcached.Recover.Load

Loading a snapshot (`wall_to_ticks` and `rdb_load` of `src/recover.c`).

The file is opened, its size taken, and its bytes read with one `read()`, whose
answer is a parameter. `rdbLoad` then goes tag by tag over the bytes it has not
consumed yet; a field that would lie past the end of the file reads as zeros.

The tick counter moves on while a load runs, and the code reads it afresh for each
record, against a wall clock it read once at the start: `LoadClock.tick j` is the
counter when record number `j` of the file is handled.
-/

namespace Perfcached.Recover

open Bytes Rdb List

/-- `wall_to_ticks`: wall-clock seconds to absolute ticks, in 32 bits; 1 is "already
expired", 0 "never". As a `time_t`, a value of 2^63 or more is before the epoch. -/
def wallToTicks (ticks nowWall wall : Nat) : Nat :=
  if wall = 0 then 0
  else if 2 ^ 63 ≤ wall ∨ wall ≤ nowWall then 1
  else (ticks + (wall - nowWall)) % 2 ^ 32

/-- The clocks of a load. -/
structure LoadClock where
  nowWall : Nat
  tick : Nat → Nat
  tick_lt : ∀ j, tick j < 2 ^ 32

/-- What a load changes: the tables, the version clock, and the counts of
`struct pc_recover_stats`; `seen` counts the records handled. -/
structure LoadSt where
  reg : List Collection
  clock : Nat
  seen : Nat
  marker : Nat
  rdbWall : Nat
  verHigh : Nat
  rdbRecords : Nat
  skippedNocol : Nat
  skippedCache : Nat
  skippedExpired : Nat
  fmtNewer : Nat

/-- A record of the file. -/
structure FileRec where
  key : Key
  val : List Byte
  wall : Nat
  ver : Nat
  fl : Byte

/-- The `tag == 2` branch of `rdb_load` after the record's bytes: `ht` is the slot of
the collection it belongs to. -/
def loadRecord (A : Arena) (clk : LoadClock) (ht : Option Nat) (cache : Bool) (st : LoadSt)
    (f : FileRec) : LoadSt :=
  let ticks := clk.tick st.seen
  let st := { st with seen := st.seen + 1 }
  match ht.bind fun i => st.reg[i]?.map fun c => (i, c) with
  | none => if cache then { st with skippedCache := st.skippedCache + 1 } else st
  | some (i, c) =>
    let exp := wallToTicks ticks clk.nowWall f.wall
    if exp = 1 then { st with skippedExpired := st.skippedExpired + 1 }
    else
      match htStoreEx A ticks st.clock c.table f.key f.val exp f.fl with
      | (.ok, t, clock) =>
        -- the store stamped a fresh tick; the record's own version goes over it
        { st with
          reg := st.reg.set i { c with table := htSetver t f.key f.ver }
          clock
          verHigh := max f.ver st.verHigh
          rdbRecords := st.rdbRecords + 1 }
      | (_, t, clock) => { st with reg := st.reg.set i { c with table := t }, clock }

/-- `PC_RDB_RHDR`. -/
def rhdr (fmt : Nat) : Nat := if 3 ≤ fmt then 25 else if 2 ≤ fmt then 24 else 16

/-- The record at the head of `d`, past its tag. -/
def fileRec (fmt : Nat) (d : List Byte) : FileRec where
  key := (d.drop (rhdr fmt)).take (rd 4 d)
  val := ((d.drop (rhdr fmt)).drop (rd 4 d)).take (rd 4 (d.drop 4))
  wall := rd 8 (d.drop 8)
  ver := if 2 ≤ fmt then rd 8 (d.drop 16) else 0
  fl := if 3 ≤ fmt then BitVec.ofNat 8 (rd 1 (d.drop 24)) &&& fCarry else 0#8

/-- The loop of `rdb_load` over the rest of the file, checksum included: its answer
(0, or -1 at an unknown tag) and the state. -/
def loadLoop (A : Arena) (clk : LoadClock) (fmt : Nat) (ht : Option Nat) (cache : Bool)
    (st : LoadSt) (d : List Byte) : Int × LoadSt :=
  match d with
  | [] => (0, st)
  | tag :: d =>
    if d.length < 4 then (0, st)
    else if tag = 0xFF#8 then (0, st)
    else if tag = 1#8 then
      let cl := rd 1 d
      let slot := storeFind st.reg ((d.drop 1).take cl)
      let st := if slot.isNone then { st with skippedNocol := st.skippedNocol + 1 } else st
      -- a collection that is not durable starts empty
      let cache := (slot.bind fun i => st.reg[i]?).any fun c => !c.durable
      loadLoop A clk fmt (if cache then none else slot) cache st (d.drop (1 + cl))
    else if tag = 2#8 then
      let st := loadRecord A clk ht cache st (fileRec fmt d)
      loadLoop A clk fmt ht cache st
        ((d.drop (rhdr fmt)).drop ((rd 4 d + rd 4 (d.drop 4)) % 2 ^ 32))
    else (-1, st)
termination_by d.length
decreasing_by
  · rw [List.length_cons, List.length_drop]
    omega
  · rw [List.length_cons, List.length_drop, List.length_drop]
    omega

/-- The most one `read()` returns on Linux. -/
def readMax : Nat := 2147479552

/-- The answer of the one `read()`, asked for `n` bytes: any `ρ` is within the
contract. -/
def readRes (ρ : Int) (n : Nat) : Int := min ρ (min n readMax : Nat)

/-- `rdb_load` of a file that is there: 0 loaded, -1 refused, -2 a newer format. -/
def rdbLoad (A : Arena) (clk : LoadClock) (ρ : Int) (file : List Byte) (st : LoadSt) :
    Int × LoadSt :=
  let n := file.length
  if n < 28 then (-1, st)
  else if readRes ρ n ≠ n then (-1, st)
  else
    let fmt := rd 4 (file.drop 4)
    if rd 4 file = magic ∧ Rdb.fmt < fmt then (-2, { st with fmtNewer := fmt })
    else if rd 4 file ≠ magic ∨ fmt < 1 ∨
        (pcCrc32c 0#32 (file.take (n - 4))).toNat ≠ rd 4 (file.drop (n - 4)) then (-1, st)
    else
      loadLoop A clk fmt none false
        { st with marker := rd 8 (file.drop 8), rdbWall := rd 8 (file.drop 16) } (file.drop 24)

/-! ### Reading the image back -/

/-- A record as a save writes it. -/
def savedRec (c : WalkCtx) (k : Key) (r : Rec) : FileRec where
  key := k
  val := r.emitVal
  wall := c.wall r
  ver := r.ver
  fl := r.rflags &&& fCarry

/-- The fields of a record fit their places in the file. -/
structure FitsFile (c : WalkCtx) (k : Key) (r : Rec) : Prop where
  size : k.length + r.emitVal.length < 2 ^ 32
  wall : c.wall r < 2 ^ 64
  ver : r.ver < 2 ^ 64

/-- The bytes of a record past its tag, up to its key. -/
def entryHeader (c : WalkCtx) (k : Key) (r : Rec) : List Byte :=
  leBytes 4 k.length ++ (leBytes 4 r.emitVal.length ++ (leBytes 8 (c.wall r) ++
    (leBytes 8 r.ver ++ leBytes 1 (r.rflags &&& fCarry).toNat)))

theorem entryBytes_eq (c : WalkCtx) (k : Key) (r : Rec) (q : List Byte) :
    entryBytes c k r ++ q = 2#8 :: (entryHeader c k r ++ (k ++ (r.emitVal ++ q))) := by
  simp only [entryBytes, entryHeader, append_assoc]
  rfl

variable {c : WalkCtx}

theorem fileRec_entry {k : Key} {r : Rec} (h : FitsFile c k r) (q : List Byte) :
    rd 4 (entryHeader c k r ++ q) = k.length ∧
    rd 4 ((entryHeader c k r ++ q).drop 4) = r.emitVal.length ∧
    rd 8 ((entryHeader c k r ++ q).drop 8) = c.wall r ∧
    rd 8 ((entryHeader c k r ++ q).drop 16) = r.ver ∧
    rd 1 ((entryHeader c k r ++ q).drop 24) = (r.rflags &&& fCarry).toNat := by
  have hsize := h.size
  simp only [entryHeader, append_assoc]
  refine ⟨rd_append_of_lt (by norm_num; omega) _, ?_, ?_, ?_, ?_⟩
  · change rd 4 (drop (4 + 0) _) = _
    rw [drop_leBytes_add, drop_zero]
    exact rd_append_of_lt (by norm_num; omega) _
  · change rd 8 (drop (4 + (4 + 0)) _) = _
    rw [drop_leBytes_add, drop_leBytes_add, drop_zero]
    exact rd_append_of_lt h.wall _
  · change rd 8 (drop (4 + (4 + (8 + 0))) _) = _
    rw [drop_leBytes_add, drop_leBytes_add, drop_leBytes_add, drop_zero]
    exact rd_append_of_lt h.ver _
  · change rd 1 (drop (4 + (4 + (8 + (8 + 0)))) _) = _
    rw [drop_leBytes_add, drop_leBytes_add, drop_leBytes_add, drop_leBytes_add, drop_zero]
    exact rd_append_of_lt (r.rflags &&& fCarry).isLt _

section

variable (A : Arena) (clk : LoadClock) (ht : Option Nat) (cache : Bool)
include ht

/-- A saved record is read back, and the loop goes on behind it. -/
theorem loadLoop_entry (st : LoadSt) {k : Key} {r : Rec} (h : FitsFile c k r) (q : List Byte)
    (hq : 4 ≤ q.length) :
    loadLoop A clk 3 ht cache st (entryBytes c k r ++ q) =
      loadLoop A clk 3 ht cache (loadRecord A clk ht cache st (savedRec c k r)) q := by
  obtain ⟨hk, hv, hwall, hver, hfl⟩ := fileRec_entry h (k ++ (r.emitVal ++ q))
  have hlen : (entryHeader c k r).length = 25 := by simp [entryHeader]
  have hrest : (entryHeader c k r ++ (k ++ (r.emitVal ++ q))).drop 25 = k ++ (r.emitVal ++ q) :=
    drop_left' hlen
  have hrec : fileRec 3 (entryHeader c k r ++ (k ++ (r.emitVal ++ q))) = savedRec c k r := by
    simp only [fileRec, savedRec, rhdr, le_refl, if_true, hk, hv, hwall, hver, hfl, hrest,
      take_left, drop_left, show 2 ≤ 3 from by decide]
    simp [BitVec.and_assoc]
  rw [entryBytes_eq, loadLoop, if_neg, if_neg (by decide), if_neg (by decide), if_pos rfl]
  · simp only [hrec, hk, hv, rhdr, le_refl, if_true, hrest]
    rw [Nat.mod_eq_of_lt h.size, ← drop_drop, drop_left, drop_left]
  · simp only [length_append]
    omega

/-- Saved records are read back one after the other. -/
theorem loadLoop_entries (st : LoadSt) {es : List (Sigma fun _ : Key => Rec)}
    (h : ∀ e ∈ es, FitsFile c e.1 e.2) (q : List Byte) (hq : 4 ≤ q.length) :
    loadLoop A clk 3 ht cache st (es.flatMap (fun e => entryBytes c e.1 e.2) ++ q) =
      loadLoop A clk 3 ht cache
        ((es.map fun e => savedRec c e.1 e.2).foldl (loadRecord A clk ht cache) st) q := by
  induction es generalizing st with
  | nil => rfl
  | cons e es ih =>
    rw [flatMap_cons, append_assoc,
      loadLoop_entry A clk ht cache st (h e mem_cons_self) _ (by simp; omega),
      ih _ (fun e' he' => h e' (mem_cons_of_mem _ he')), map_cons, foldl_cons]

/-- A collection's name sends the records behind it to its slot. -/
theorem loadLoop_collection {st : LoadSt} {name : List Byte} {i : Nat} {c : Collection}
    (hname : name.length < 256) (hfind : storeFind st.reg name = some i)
    (hslot : st.reg[i]? = some c) (hd : c.durable) (q : List Byte) (hq : 4 ≤ q.length) :
    loadLoop A clk 3 ht cache st (leBytes 1 1 ++ leBytes 1 name.length ++ name ++ q) =
      loadLoop A clk 3 (some i) false st q := by
  have hrd : rd 1 (leBytes 1 name.length ++ (name ++ q)) = name.length :=
    rd_append_of_lt (by norm_num; exact hname) _
  have hdrop : ∀ m, (leBytes 1 name.length ++ (name ++ q)).drop (1 + m) = (name ++ q).drop m :=
    fun m => drop_leBytes_add 1 m _ _
  rw [show leBytes 1 1 ++ leBytes 1 name.length ++ name ++ q =
    1#8 :: (leBytes 1 name.length ++ (name ++ q)) by simp only [append_assoc]; rfl]
  rw [loadLoop, if_neg, if_neg (by decide), if_pos rfl]
  · simp only [hrd, hdrop, drop_left]
    rw [show (leBytes 1 name.length ++ (name ++ q)).drop 1 = name ++ q from hdrop 0,
      take_left, hfind]
    simp [hslot, hd]
  · simp only [length_append]
    omega

theorem loadLoop_end (st : LoadSt) (q : List Byte) :
    loadLoop A clk 3 ht cache st (leBytes 1 0xFF ++ q) = (0, st) := by
  rw [show leBytes 1 0xFF ++ q = 0xFF#8 :: q from rfl, loadLoop]
  simp

end

end Perfcached.Recover
