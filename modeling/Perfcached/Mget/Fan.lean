import Perfcached.Json.Writer
import Perfcached.Lib.Decimal
import Perfcached.Lib.Machine

/-!
# Perfcached.Mget.Fan

A multi-key read that waits on lookups at other nodes: the functions of `src/mgetfan.c`, how the
verb builds such a read (`op_mget_fan`, `src/verbs.c`) and how the RESP door answers it
(`mget_answer`, `src/proto.c`).

The state is that of one worker: its reads, and the map from the slot of a request to the keys that
wait on a request of that slot. The chain of a slot runs through the keys in the source; here it is
a list. A read is named by a number of its own and not by its address, which may be given out again
once the read is freed.

What the rest of the node decides is a choice made anew for each completion (`Around`): the modes of
the collection, the clock, whether memory is there, and which request a retry begins. What a
completion does is also noted in a history, from which nothing reads.
-/

namespace Perfcached.Fan

open Bytes Decimal Json Function

/-- `PC_MK_*`. -/
inductive KeyState where
  | absent | hit | wait | unanswered
  deriving DecidableEq

/-- `struct mkey`. The bytes of the key are there once the key has waited. -/
structure MKey where
  req : Nat
  st : KeyState
  retried : Bool
  target : Bool
  key : Option (List Byte)
  val : List Byte
  exp : Nat
  deriving DecidableEq

/-- `struct pc_mget`. -/
structure Mget where
  conn : Nat
  keys : List MKey
  waiting : Nat
  unanswered : Nat
  deadline : Int

/-- `struct pc_pull_done`, as far as a pull goes. -/
structure PullDone where
  isPull : Bool
  req : Nat
  found : Bool
  typed : Bool
  timedout : Bool
  val : List Byte
  ttlLeft : Nat
  deriving DecidableEq

/-- What the rest of the node answers while a completion is handled. `begun` is the request that
`pc_pull_begin` returns, 0 for none. -/
structure Around where
  table : Bool
  strict : Bool
  mem : Bool
  shard : Bool
  grace : Bool
  proxy : Bool
  now : Int
  begun : Nat
  ticks : Nat

/-! ### Building a read -/

/-- What the verb finds for one key: a value of its own, nothing, or a lookup that was begun, with
what `pc_mget_wait` then meets. -/
inductive Local where
  | hit (val : List Byte) (exp : Nat)
  | absent
  | wait (req : Nat) (key : List Byte) (target busy nomem : Bool)

/-- `PC_MGET_MAX_REMOTE`. -/
def maxRemote : Nat := 1000

/-- `pc_mget_hit`, `pc_mget_absent` or `pc_mget_wait` for the next key; none when `pc_mget_wait`
refuses and the verb gives the read up. -/
def Mget.add (m : Mget) : Local → Option Mget
  | .hit val exp => some { m with keys := m.keys ++ [⟨0, .hit, false, false, none, val, exp⟩] }
  | .absent => some { m with keys := m.keys ++ [⟨0, .absent, false, false, none, [], 0⟩] }
  | .wait req key target busy nomem =>
    if m.waiting ≥ maxRemote ∨ busy = true ∨ nomem = true then none
    else
      some { m with
        keys := m.keys ++ [⟨req, .wait, false, target, some key, [], 0⟩]
        waiting := m.waiting + 1 }

/-- The keys of `op_mget_fan`, one after the other. -/
def Mget.addAll (m : Mget) : List Local → Option Mget
  | [] => some m
  | l :: ls => (m.add l).bind fun m => m.addAll ls

def mgetNew (conn : Nat) (deadline : Int) : Mget := ⟨conn, [], 0, 0, deadline⟩

/-! ### The worker -/

/-- `struct mref`: a read and the number of one of its keys. -/
abbrev Ref := Nat × Nat

/-- What a completion did, for the history. -/
inductive Obs where
  /-- The key was asked for once more. -/
  | asked (id i : Nat)
  /-- The key, which waited on request `req`, has settled; `done` says that the read is handed back
  as done. -/
  | settled (id i req : Nat) (d : PullDone) (st : KeyState) (done : Bool)

structure Worker where
  nheads : Nat
  heads : Nat → List Ref
  mgets : Nat → Option Mget
  live : List Nat
  nextId : Nat
  log : List Obs

def Worker.start (nheads : Nat) : Worker := ⟨nheads, fun _ => [], fun _ => none, [], 0, []⟩

/-- `head_of`, as an index. -/
def Worker.headOf (w : Worker) (req : Nat) : Nat := req % 65536 % w.nheads

def linkRef (heads : Nat → List Ref) (h : Nat) (r : Ref) : Nat → List Ref :=
  update heads h (r :: heads h)

def unlinkRef (heads : Nat → List Ref) (h : Nat) (r : Ref) : Nat → List Ref :=
  update heads h ((heads h).erase r)

/-- `link_key` for key `i` of read `id`, which waits on `req`. -/
def Worker.linkKey (w : Worker) (id i req : Nat) : Worker :=
  { w with heads := linkRef w.heads (w.headOf req) (id, i) }

def Worker.unlinkKey (w : Worker) (id i req : Nat) : Worker :=
  { w with heads := unlinkRef w.heads (w.headOf req) (id, i) }

def Worker.key (w : Worker) (r : Ref) : Option MKey := (w.mgets r.1).bind fun m => m.keys[r.2]?

def Worker.findKey (w : Worker) (req : Nat) : Option Ref :=
  if req = 0 then none
  else
    (w.heads (w.headOf req)).find? fun r =>
      (w.key r).any fun k => decide (k.req = req ∧ k.st = .wait)

def Mget.waitingKey (m : Mget) (i : Nat) : Option MKey :=
  (m.keys[i]?).filter fun k => decide (k.st = .wait)

/-- `pc_mget_attach`, where the map is there. -/
def Worker.attach (w : Worker) (m : Mget) : Worker :=
  let id := w.nextId
  let w' := (List.range m.keys.length).foldl (fun w i =>
    (m.waitingKey i).elim w fun k => w.linkKey id i k.req) w
  { w' with
    mgets := update w.mgets id (some m)
    live := id :: w.live
    nextId := w.nextId + 1 }

/-- `pc_mget_free`. -/
def Worker.free (w : Worker) (id : Nat) : Worker :=
  match w.mgets id with
  | none => w
  | some m =>
    let w' := (List.range m.keys.length).foldl (fun w i =>
      (m.waitingKey i).elim w fun k => w.unlinkKey id i k.req) w
    { w' with mgets := update w.mgets id none, live := w.live.erase id }

/-- `pc_mget_drop_conn`. -/
def Worker.dropConn (w : Worker) (conn : Nat) : Worker :=
  (w.live.filter fun id => (w.mgets id).any fun m => m.conn == conn).foldl Worker.free w

/-! ### A pull's answer -/

/-- `unanswered`. -/
def Mget.setUnanswered (m : Mget) (i : Nat) (k : MKey) : Mget :=
  { m with keys := m.keys.set i { k with st := .unanswered }, unanswered := m.unanswered + 1 }

/-- `MGET_RETRY_ROOM_MS`. -/
def retryRoomMs : Int := 2

/-- `ask_all`, up to the link. -/
def Mget.askAll (m : Mget) (i : Nat) (k : MKey) (e : Around) : Option Mget :=
  if e.now + retryRoomMs > m.deadline then none
  else if e.begun = 0 then none
  else
    some { m with
      keys := m.keys.set i { k with req := e.begun, retried := true, target := false, st := .wait }
      waiting := m.waiting + 1 }

def Mget.settle (m : Mget) (i : Nat) (k : MKey) (d : PullDone) (e : Around) : Mget :=
  let absent := { m with keys := m.keys.set i { k with st := .absent } }
  if d.found = true then
    if e.table = true ∧ d.typed = true ∧ e.strict = true then absent
    else if e.mem = false then m.setUnanswered i k
    else
      let exp := if d.ttlLeft = 0 then 0 else e.ticks + d.ttlLeft
      { m with keys := m.keys.set i { k with st := .hit, val := d.val, exp := exp } }
  else if d.timedout = true then m.setUnanswered i k
  else if e.table = true ∧ e.shard = true then
    if k.retried = false ∧ e.grace = true then (m.askAll i k e).getD (m.setUnanswered i k)
    else absent
  else if e.table = true ∧ e.proxy = true ∧ k.target = true ∧ k.retried = false then
    (m.askAll i k e).getD (m.setUnanswered i k)
  else absent

/-- `pc_mget_pull_done` once the key is found. -/
def Worker.pullDoneAt (w : Worker) (id i : Nat) (m : Mget) (k : MKey) (d : PullDone) (e : Around) :
    Worker :=
  let w := w.unlinkKey id i k.req
  let k₀ := { k with req := 0 }
  let m := { m with keys := m.keys.set i k₀, waiting := m.waiting - 1 }
  let m := m.settle i k₀ d e
  let w := { w with mgets := update w.mgets id (some m) }
  match m.keys[i]? with
  | none => w
  | some k' =>
    if k'.st = .wait then { w.linkKey id i k'.req with log := .asked id i :: w.log }
    else
      { w with log := .settled id i k.req d k'.st (decide (m.waiting = 0)) :: w.log }

/-- `pc_mget_pull_done`. -/
def Worker.pullDone (w : Worker) (d : PullDone) (e : Around) : Worker :=
  if d.isPull = false then w
  else
    match w.findKey d.req with
    | none => w
    | some (id, i) =>
      match w.mgets id with
      | none => w
      | some m =>
        match m.keys[i]? with
        | none => w
        | some k => w.pullDoneAt id i m k d e

/-! ### Runs -/

/-- What happens at a worker: a client's read is built and attached, if it waits on anything (with
`mem` whether the map is there); a completion arrives, of any request, again or not; a connection is
dropped; a read is answered and freed, or given up. -/
inductive Act where
  | read (conn : Nat) (deadline : Int) (found : List Local) (mem : Bool)
  | complete (d : PullDone) (e : Around)
  | dropConn (conn : Nat)
  | free (id : Nat)

def Worker.step (w : Worker) : Act → Option Worker
  | .read conn deadline found mem =>
    match (mgetNew conn deadline).addAll found with
    | none => some w
    | some m => if m.waiting = 0 ∨ mem = false then some w else some (w.attach m)
  | .complete d e => some (w.pullDone d e)
  | .dropConn conn => some (w.dropConn conn)
  | .free id => some (w.free id)

/-! ### The reply over RESP -/

def respNil (mem : Nat → Bool) (w : Jw) : Jw := w.raw mem (chars "$-1\r\n")

def respBulk (mem : Nat → Bool) (w : Jw) (p : List Byte) : Jw :=
  ((((w.raw mem (chars "$")).raw mem (natText p.length)).raw mem (chars "\r\n")).raw mem p).raw mem
    (chars "\r\n")

def respArr (mem : Nat → Bool) (w : Jw) (n : Nat) : Jw :=
  ((w.raw mem (chars "*")).raw mem (natText n)).raw mem (chars "\r\n")

def Mget.resp (mem : Nat → Bool) (m : Mget) (w : Jw) : Jw :=
  if m.unanswered ≠ 0 then
    ((w.raw mem (chars "-TRYAGAIN mget: ")).raw mem (natText m.unanswered)).raw mem
      (chars " key(s) not answered\r\n")
  else
    m.keys.foldl (fun w k => if k.st = .hit then respBulk mem w k.val else respNil mem w)
      (respArr mem w m.keys.length)

def jwReplyCap : Nat := (1 <<< 20) + 4096

/-- `mget_answer` on a RESP connection: the bytes that go out. `buf` says whether the worker has its
scratch buffer. -/
def mgetAnswer (mem : Nat → Bool) (buf : Bool) (m : Mget) : List Byte :=
  if buf = false then chars "-ERR out of memory\r\n"
  else
    let w := m.resp mem ⟨[], jwReplyCap, false, false⟩
    if w.overflow = true then chars "-ERR reply too large\r\n" else w.out

end Perfcached.Fan
