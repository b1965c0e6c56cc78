import Perfcached.Recover.Load
import Perfcached.Wal.Format

/-!
# Perfcached.Recover.Replay

Replaying the log (`tomb_get`, `tomb_note`, `replay_cb` and `pc_recover` of
`src/recover.c`).

The tombstone table is the finite map its hash table holds; its memory is assumed
to be there. What `replay_cb` calls outside the record path is a parameter
(`ReplayEnv`): the collection set's own operations, and whether the acknowledgement
ledger counts a numbered delete as new.
-/

namespace Perfcached.Recover

open Bytes Wal

/-- `tombs`: the version of the newest delete replayed, by tombstone key. -/
abbrev Tombs := AList fun _ : List Byte => Nat

/-- `tomb_key`: the collection, a NUL, the key. -/
def tombKey (col key : List Byte) : List Byte := col ++ 0#8 :: key

/-- `tomb_get`: 0 when there is none. -/
def tombGet (tombs : Tombs) (tk : List Byte) : Nat := (tombs.lookup tk).getD 0

def tombNote (tombs : Tombs) (tk : List Byte) (ver : Nat) : Tombs :=
  match tombs.lookup tk with
  | some v => if v < ver then tombs.insert tk ver else tombs
  | none => tombs.insert tk ver

/-- What a replay runs in. -/
structure ReplayEnv where
  arena : Arena
  ticks : Nat
  nowWall : Nat
  /-- `pc_ack_applied` answers `CLACK_NEW`, after the calls before it. -/
  ackNew : List (Nat × Nat × Nat) → Nat × Nat × Nat → Bool
  rename : List Collection → List Byte → List Byte → List Collection
  drop : List Collection → List Byte → List Collection
  noteDrop : List Collection → List Byte → List Collection
  create : List Collection → List Byte → Byte → List Collection

/-- What a replay changes, and the counts of `struct pc_recover_stats`. -/
structure ReplaySt where
  reg : List Collection
  clock : Nat
  tombs : Tombs
  acks : List (Nat × Nat × Nat)
  rdbOk : Bool
  marker : Nat
  lastSeq : Nat
  verHigh : Nat
  applied : Nat
  older : Nat
  skipped : Nat
  skippedCache : Nat
  belowMarker : Nat
  ackReplayed : Nat
  unkPending : Nat
  unknown : Nat
  unknownCovered : Nat
  unknownType : Nat

/-- An unknown type's record: counted until a known one bounds it. -/
def replayUnknown (st : ReplaySt) (type : Nat) : ReplaySt :=
  { st with
    unknownType := if st.unkPending = 0 ∧ st.unknown = 0 ∧ st.unknownCovered = 0 then type
      else st.unknownType
    unkPending := st.unkPending + 1
    skipped := st.skipped + 1 }

/-- The bookkeeping every known record gets, whatever becomes of it. -/
def replayNote (env : ReplayEnv) (st : ReplaySt) (t : RecType) (r : WalRec) : ReplaySt :=
  let st :=
    if st.unkPending = 0 then st
    else if st.rdbOk ∧ r.seq ≤ st.marker then
      { st with unknownCovered := st.unknownCovered + st.unkPending, unkPending := 0 }
    else { st with unknown := st.unknown + st.unkPending, unkPending := 0 }
  let st := { st with lastSeq := max st.lastSeq r.seq }
  -- a numbered delete is counted wherever it lies
  if t = .delN ∧ r.val.length = delNVLen then
    let call := (rd 8 (r.val.drop 8), rd 4 (r.val.drop 16), rd 8 (r.val.drop 20))
    { st with
      acks := st.acks ++ [call]
      ackReplayed := if env.ackNew st.acks call then st.ackReplayed + 1 else st.ackReplayed }
  else st

/-- What the record path of a replay reads and writes, beside the table. -/
structure Path where
  table : Table
  clock : Nat
  tombs : Tombs
  verHigh : Nat
  applied : Nat
  older : Nat
  skipped : Nat

/-- The record path of a state, in a table. -/
def ReplaySt.path (st : ReplaySt) (t : Table) : Path where
  table := t
  clock := st.clock
  tombs := st.tombs
  verHigh := st.verHigh
  applied := st.applied
  older := st.older
  skipped := st.skipped

/-- The state after a record path that ran in the table of slot `i`. -/
def ReplaySt.put (st : ReplaySt) (i : Nat) (c : Collection) (s : Path) : ReplaySt :=
  { st with
    reg := st.reg.set i { c with table := s.table }
    clock := s.clock
    tombs := s.tombs
    verHigh := s.verHigh
    applied := s.applied
    older := s.older
    skipped := s.skipped }

/-- A delete at version `ver`: remembered, and it removes only an older record. -/
def replayDelete (env : ReplayEnv) (s : Path) (r : WalRec) (ver : Nat) : Path × Bool :=
  let s := { s with tombs := tombNote s.tombs (tombKey r.col r.key) ver }
  if (htGetver env.ticks s.table r.key).any (ver ≤ ·) then ({ s with older := s.older + 1 }, false)
  else
    let (t, clock) := htRemove s.clock s.table r.key
    ({ s with table := t, clock }, true)

/-- The `UPSERT` cases of `replay_cb`. -/
def replayUpsert (env : ReplayEnv) (s : Path) (r : WalRec) (exp : Nat) : Path :=
  if exp = 1 then { s with skipped := s.skipped + 1 }
  else if r.ver ≠ 0 then
    if r.ver ≤ tombGet s.tombs (tombKey r.col r.key) then { s with older := s.older + 1 }
    else
      match htStoreVer env.arena env.ticks s.clock s.table r.key r.val exp (r.flags &&& fCarry)
          r.ver with
      | (.older, t, clock) => { s with table := t, clock, older := s.older + 1 }
      | (.full, t, clock) => { s with table := htDropOlder t r.key r.ver, clock }
      | (.tooBig, t, clock) => { s with table := t, clock }
      | (.ok, t, clock) =>
        { s with table := t, clock, verHigh := max s.verHigh r.ver, applied := s.applied + 1 }
  else
    match htStoreEx env.arena env.ticks s.clock s.table r.key r.val exp (r.flags &&& fCarry) with
    | (.ok, t, clock) =>
      { s with
        table := htSetver t r.key r.ver, clock
        verHigh := max s.verHigh r.ver, applied := s.applied + 1 }
    | (_, t, clock) => { s with table := t, clock }

/-- The `DEL` cases of `replay_cb`: the version rides as the value. -/
def replayDel (env : ReplayEnv) (s : Path) (t : RecType) (r : WalRec) : Path :=
  if r.val.length ≠ delVerLen ∧ ¬ (t = .delN ∧ r.val.length = delNVLen) then
    let (t, clock) := htRemove s.clock s.table r.key
    { s with table := t, clock, applied := s.applied + 1 }
  else
    let ver := rd 8 r.val
    match replayDelete env s r ver with
    | (s, false) => s
    | (s, true) => { s with verHigh := max s.verHigh ver, applied := s.applied + 1 }

/-- The `TOUCH` cases of `replay_cb`. -/
def replayTouch (env : ReplayEnv) (s : Path) (r : WalRec) (exp : Nat) : Path :=
  if exp = 1 ∧ r.ver ≠ 0 then
    -- re-armed into the past: a delete at this version
    match replayDelete env s r r.ver with
    | (s, false) => s
    | (s, true) => { s with applied := s.applied + 1 }
  else if exp = 1 then
    let (t, clock) := htRemove s.clock s.table r.key
    { s with table := t, clock, applied := s.applied + 1 }
  else if r.ver ≠ 0 ∧ (htGetver env.ticks s.table r.key).any (r.ver ≤ ·) then
    { s with older := s.older + 1 }
  else
    match htTouch env.ticks s.clock s.table r.key exp with
    | (true, t, clock) =>
      if r.ver ≠ 0 then
        { s with
          table := htSetver t r.key r.ver, clock
          verHigh := max s.verHigh r.ver, applied := s.applied + 1 }
      else { s with table := t, clock, applied := s.applied + 1 }
    | (false, t, clock) => { s with table := t, clock, applied := s.applied + 1 }

/-- The switch of `replay_cb` over the record types, in the collection's table. -/
def replayRecord (env : ReplayEnv) (s : Path) (t : RecType) (r : WalRec) : Path :=
  let exp := wallToTicks env.ticks env.nowWall r.wall
  match t with
  | .upsert | .upsertV => replayUpsert env s r exp
  | .del | .delN => replayDel env s t r
  | .touch | .touchV => replayTouch env s r exp
  | _ => { s with skipped := s.skipped + 1 }

/-- The collection set's own records. -/
def replayCollections (env : ReplayEnv) (st : ReplaySt) (t : RecType) (r : WalRec) : ReplaySt :=
  match t with
  | .colRename =>
    if 0 < r.val.length ∧ (storeFind st.reg r.col).isSome then
      { st with reg := env.rename st.reg r.col r.val }
    else st
  | .colDrop =>
    if (storeFind st.reg r.col).isSome then { st with reg := env.drop st.reg r.col }
    else { st with reg := env.noteDrop st.reg r.col }
  | .colCreate =>
    match storeFind st.reg r.col, r.val with
    | none, [mode] => { st with reg := env.create st.reg r.col mode }
    | _, _ => st
  | _ => st

def replayCb (env : ReplayEnv) (st : ReplaySt) (r : WalRec) : ReplaySt :=
  match RecType.ofCode r.type with
  | none => replayUnknown st r.type
  | some t =>
    let st := replayNote env st t r
    if r.seq ≤ st.marker then { st with belowMarker := st.belowMarker + 1 }
    else if t = .colRename ∨ t = .colDrop ∨ t = .colCreate then replayCollections env st t r
    else
      match (storeFind st.reg r.col).bind fun i => st.reg[i]?.map fun c => (i, c) with
      | none => { st with skipped := st.skipped + 1 }
      | some (i, c) =>
        if !c.durable then { st with skippedCache := st.skippedCache + 1 }
        else st.put i c (replayRecord env (st.path c.table) t r)

/-- `pc_wal_scan` with `replay_cb`, over the records it delivers. -/
def replay (env : ReplayEnv) (st : ReplaySt) (log : List WalRec) : ReplaySt :=
  log.foldl (replayCb env) st

/-- The statistics of a recovery at its start. -/
def loadStart (reg : List Collection) (clock : Nat) : LoadSt where
  reg := reg
  clock := clock
  seen := 0
  marker := 0
  rdbWall := 0
  verHigh := 0
  rdbRecords := 0
  skippedNocol := 0
  skippedCache := 0
  skippedExpired := 0
  fmtNewer := 0

/-- What a replay starts from, after a load that answered `rc`: a refused snapshot
leaves the marker at 0. -/
def afterLoad (rc : Int) (st : LoadSt) : ReplaySt where
  reg := st.reg
  clock := st.clock
  tombs := ∅
  acks := []
  rdbOk := decide (rc = 0)
  marker := if rc < 0 then 0 else st.marker
  lastSeq := 0
  verHigh := st.verHigh
  applied := 0
  older := 0
  skipped := 0
  skippedCache := 0
  belowMarker := 0
  ackReplayed := 0
  unkPending := 0
  unknown := 0
  unknownCovered := 0
  unknownType := 0

/-- `pc_recover`, up to the end of the replay; no answer where the snapshot is of a
newer format. -/
def pcRecover (env : ReplayEnv) (clk : LoadClock) (ρ : Int) (file : Option (List Byte))
    (reg : List Collection) (clock : Nat) (log : List WalRec) : Option ReplaySt :=
  let (rc, st) := match file with
    | some file => rdbLoad env.arena clk ρ file (loadStart reg clock)
    | none => (1, loadStart reg clock)
  if rc = -2 then none else some (replay env (afterLoad rc st) log)

end Perfcached.Recover
