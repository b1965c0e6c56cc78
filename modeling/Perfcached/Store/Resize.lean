import Perfcached.Store.Clock

/-!
# Perfcached.Store.Resize

A resize of a collection, with the requests of one key that run while it does
(`src/store.c`, `src/verbs.c`, `src/core/pcache_htable.c`).

Passes of the maintenance thread copy the live table's records into the new table; the registry's
pointer is swapped; further passes drain what requests that had resolved the old table wrote there
since; the old table is then let go. After the swap the new table reads through to the old one: a
read that misses, or that hits an older copy, looks there, and a write first carries the key over.

A step is what the source does at once: a load of a pointer, a look at a bucket under its lock or
its seqlock. Between two steps of a request or of the copier any other may run. The copier's walk
hands a record to its callback without a lock, so that reading a record and storing its copy are
two steps.

Every request carries the versions of the SETs that had completed when it began, and a state the
versions of those that have completed so far; nothing reads them. Writes of other keys move the
clocks. Left out are the records' write ticks, events, statistics and what a pass spends its
budget on.
-/

namespace Perfcached.Resize

open Bytes Machine

/-- The table that was live when the resize started, and the one it makes. -/
inductive Side
  | old
  | new
  deriving DecidableEq

/-- `rs_to`, `rs_swapped` and `rs_closing`. -/
inductive Phase
  | idle
  | filling
  | swapped
  | closing
  | ended
  deriving DecidableEq

/-- `reg[i].ht`: the table a request resolves. -/
def Phase.live : Phase → Side
  | .idle | .filling => .old
  | .swapped | .closing | .ended => .new

/-- `reg[i].rs_to`. -/
def Phase.rsTo : Phase → Option Side
  | .idle | .ended => none
  | .filling => some .new
  | .swapped | .closing => some .old

/-- `pc_store_resize_shadow`. -/
def Phase.resizeShadow (p : Phase) (ht : Side) : Option Side := if p.live = ht then p.rsTo else none

/-- Whether `drain_from` of the table is set. It is the old table then. -/
def Phase.drains (p : Phase) (ht : Side) : Bool := p = .swapped ∧ ht = .new

/-! ### Requests -/

/-- Where a `drain_forget` stands. -/
inductive Forget
  | load
  | getver
  | drop (ver : Nat)
  deriving DecidableEq

/-- Where a SET stands; from its store on it has the version stored, none if it was refused. -/
inductive SetPc
  | resolved
  | carrying
  | fetched (nver now : Nat)
  | storing
  | forget (ver : Option Nat) (f : Forget)
  | done (ver : Option Nat)
  deriving DecidableEq

/-- A SET moves on in its `drain_forget`, or answers. -/
def SetPc.after (ver : Option Nat) : Option Forget → SetPc
  | some f => .forget ver f
  | none => .done ver

/-- The versions of the completed SETs, with this one's if it has just answered. -/
def SetPc.note (finished : List Nat) : SetPc → List Nat
  | .done (some ver) => finished ++ [ver]
  | _ => finished

/-- Where a read stands in `fetch_main`. -/
inductive GetPc
  | resolved
  | looked (r : Option Rec)
  | missed
  | hit (r : Rec)
  | newer (ro : Rec)
  | again
  | done (answer : Option Rec)
  deriving DecidableEq

/-- Where a delete stands in `store_remove`. -/
inductive DelPc
  | resolved
  | shadow (sh : Side)
  | own
  | done
  deriving DecidableEq

/-- A request of the key, with the table it resolved. -/
inductive Req
  | set (v : List Byte) (expires tid : Nat) (on : Side) (prior : List Nat) (pc : SetPc)
  | get (now : Nat) (on : Side) (prior : List Nat) (pc : GetPc)
  | del (tid : Nat) (on : Side) (pc : DelPc)
  deriving DecidableEq

def Req.running : Req → Bool
  | .set _ _ _ _ _ (.done _) => false
  | .get _ _ _ (.done _) => false
  | .del _ _ .done => false
  | _ => true

def Req.on : Req → Side
  | .set _ _ _ on _ _ => on
  | .get _ on _ _ => on
  | .del _ on _ => on

def Req.isSet : Req → Bool
  | .set .. => true
  | _ => false

/-- Where the copier stands between the records of its walk. -/
inductive Copier
  | rest
  | held (r : Rec)
  | forget (f : Forget)
  deriving DecidableEq

/-- The copier moves on in its `drain_forget`, or to the walk's next record. -/
def Copier.after : Option Forget → Copier
  | some f => .forget f
  | none => .rest

/-! ### The state -/

/-- A collection under resize. `seen` says that the current pass has come by the key, `calm` that
no request on the old table was running when the pass began. -/
structure Resizing where
  phase : Phase
  old : Table
  new : Table
  clocks : Clocks
  copier : Copier
  pass : Nat
  seen : Bool
  calm : Bool
  reqs : List Req
  finished : List Nat

def Resizing.start (t : Table) (c : Clocks) : Resizing :=
  ⟨.idle, t, ∅, c, .rest, 0, false, true, [], []⟩

def Resizing.table (s : Resizing) : Side → Table
  | .old => s.old
  | .new => s.new

def Resizing.put (s : Resizing) (t : Table) : Side → Resizing
  | .old => { s with old := t }
  | .new => { s with new := t }

/-- No request on the old table is running. -/
def Resizing.oldQuiet (s : Resizing) : Bool := s.reqs.all fun q => !(q.running && q.on = .old)

section Steps

variable (ed : Edition) (A : Arena) (k : Key) (s : Resizing)

/-- `fetch_core`: the record a look at one table finds. -/
def fetchCore (now : Nat) (t : Table) : Option Rec := (t.lookup k).filter fun r => !r.expired now

/-- What `fetch_core` answers for a hit: whether it is a native counter. -/
def hitRc (r : Rec) : Bool := r.isInt && r.val.length = 8

/-- A record's copy goes into the new table, at its own version (`pcache_ht_store_copy`, and the
store of `drain_carry`). -/
def Resizing.storeCopy (now : Nat) (r : Rec) : Resizing :=
  let x := storeBody A now s.clocks.shared s.new k r.emitVal r.expires
    (r.rflags &&& (fPassive ||| fCarry)) (some r.ver)
  { s with new := x.2.1, clocks := { s.clocks with shared := x.2.2 } }

/-- A step of `drain_forget` on table `ht`: the drained table, and what is left to do. -/
def Resizing.forget (ht : Side) : Forget → Table × Option Forget
  | .load => (s.old, if s.phase.drains ht then some .getver else none)
  | .getver =>
    match htGetver 0 (s.table ht) k with
    | some ver => (s.old, if ver = 0 then none else some (.drop ver))
    | none => (s.old, none)
  | .drop ver => ((htRemoveBelow s.clocks.shared s.old k (ver + 1)).table, none)

/-- The next step of a SET: `store_impl`, with `drain_carry` before the store. -/
def Resizing.setNext (now : Nat) (v : List Byte) (expires tid : Nat) (on : Side) :
    SetPc → Option (Resizing × SetPc)
  | .resolved =>
    if 0xFFFF < k.length ∨ cellMax < recSize k v then some (s, .forget none .load)
    else some (s, if s.phase.drains on then .carrying else .storing)
  | .carrying => some (s, .fetched (((fetchCore k now (s.table on)).map Rec.ver).getD 0) now)
  | .fetched nver now =>
    match s.old.lookup k with
    | some r =>
      if r.expired now = false ∧ nver < r.ver then some (s.storeCopy A k now r, .storing)
      else some (s, .storing)
    | none => some (s, .storing)
  | .storing =>
    let x := htStoreEx A now (s.clocks.base ed tid) (s.table on) k v expires 0#8
    if x.1 = .ok then
      some ({ s.put x.2.1 on with clocks := s.clocks.ticked ed tid x.2.2 },
        .forget ((x.2.1.lookup k).map Rec.ver) .load)
    else some (s, .forget none .load)
  | .forget ver f =>
    let x := s.forget k on f
    some ({ s with old := x.1 }, .after ver x.2)
  | .done _ => none

/-- The next step of a read: `fetch_main`. -/
def Resizing.getNext (now : Nat) (on : Side) : GetPc → Option GetPc
  | .resolved => some (.looked (fetchCore k now (s.table on)))
  | .looked r =>
    if s.phase.drains on then
      match r with
      | none => some .missed
      | some r => some (.hit r)
    else some (.done r)
  | .missed => some (.done (fetchCore k now s.old))
  | .hit r =>
    match fetchCore k now s.old with
    | some ro => if r.ver < ro.ver then some (.newer ro) else some (.done (some r))
    | none => some (.done (some r))
  | .newer ro =>
    match fetchCore k now s.old with
    | some r => if hitRc r = hitRc ro then some (.done (some r)) else some .again
    | none => some .again
  | .again => some (.done (fetchCore k now (s.table on)))
  | .done _ => none

/-- `pcache_ht_remove` of one table. -/
def Resizing.remove (tid : Nat) (ht : Side) : Resizing :=
  let r := removeImpl (s.clocks.base ed tid) (s.table ht) k 0 false
  { s.put r.table ht with
    clocks := (s.clocks.ticked ed tid r.clock).publish ed (r.delVer.getD 0) }

/-- The next step of a delete: `store_remove`. -/
def Resizing.delNext (tid : Nat) (on : Side) : DelPc → Option (Resizing × DelPc)
  | .resolved =>
    match s.phase.resizeShadow on with
    | some sh => some (s, .shadow sh)
    | none => some (s, .own)
  | .shadow sh => some (s.remove ed k tid sh, .own)
  | .own => some (s.remove ed k tid on, .done)
  | .done => none

def Resizing.next (i now : Nat) : Option Resizing :=
  match s.reqs[i]? with
  | some (.set v expires tid on prior pc) =>
    (s.setNext ed A k now v expires tid on pc).map fun x =>
      { x.1 with
        reqs := s.reqs.set i (.set v expires tid on prior x.2)
        finished := x.2.note s.finished }
  | some (.get now on prior pc) =>
    (s.getNext k now on pc).map fun pc => { s with reqs := s.reqs.set i (.get now on prior pc) }
  | some (.del tid on pc) =>
    (s.delNext ed k tid on pc).map fun x =>
      { x.1 with reqs := s.reqs.set i (.del tid on x.2) }
  | none => none

/-- The next step of the copier with the record its walk handed over (`rs_copy_cb`). -/
def Resizing.copy (now : Nat) : Option Resizing :=
  match s.copier with
  | .rest => none
  | .held r =>
    if r.expired now then some { s with copier := .rest, clocks := s.clocks.publish ed r.ver }
    else some { s.storeCopy A k now r with copier := .forget .load }
  | .forget f =>
    let x := s.forget k .new f
    some { s with old := x.1, copier := .after x.2 }

end Steps

/-- What can happen: the resize's own steps, the begin of a request, the next step of one, and
writes of other keys. -/
inductive Act
  | start
  | walk
  | copy (now : Nat)
  | endPass
  | swap
  | close
  | finish
  | beginSet (tid : Nat) (v : List Byte) (expires : Nat)
  | beginGet (now : Nat)
  | beginDel (tid : Nat)
  | next (i now : Nat)
  | elsewhere (tid n m : Nat)

/-- `RS_PRE_PASSES` and `RS_POST_PASSES`. -/
def rsPasses : Nat := 2

/-- The walk of the pass is through, and the copier is between records. -/
def Resizing.passDone (s : Resizing) : Bool := s.seen && s.copier = .rest

/-- One step. A pass that ends while a snapshot's walk holds the registry is followed by another. -/
def Resizing.step (ed : Edition) (A : Arena) (k : Key) (s : Resizing) : Act → Option Resizing
  | .start =>
    if s.phase = .idle then
      some { s with phase := .filling, new := ∅, copier := .rest, pass := 0, seen := false }
    else none
  | .walk =>
    if (s.phase = .filling ∨ s.phase = .swapped) ∧ s.copier = .rest then
      some { s with
        seen := true
        copier := match s.old.lookup k with
          | some r => .held r
          | none => .rest }
    else none
  | .copy now => s.copy ed A k now
  | .endPass =>
    if (s.phase = .filling ∨ s.phase = .swapped) ∧ s.passDone then
      some { s with pass := s.pass + 1, seen := false, calm := s.oldQuiet }
    else none
  | .swap =>
    if s.phase = .filling ∧ s.passDone ∧ rsPasses ≤ s.pass + 1 then
      some { s with phase := .swapped, pass := 0, seen := false, calm := s.oldQuiet }
    else none
  | .close =>
    if s.phase = .swapped ∧ s.passDone ∧ rsPasses ≤ s.pass + 1 then
      some { s with phase := .closing }
    else none
  | .finish => if s.phase = .closing then some { s with phase := .ended, old := ∅ } else none
  | .beginSet tid v expires =>
    some { s with reqs := s.reqs ++ [.set v expires tid s.phase.live s.finished .resolved] }
  | .beginGet now =>
    some { s with reqs := s.reqs ++ [.get now s.phase.live s.finished .resolved] }
  | .beginDel tid => some { s with reqs := s.reqs ++ [.del tid s.phase.live .resolved] }
  | .next i now => s.next ed A k i now
  | .elsewhere tid n m =>
    some { s with clocks :=
      { shared := s.clocks.shared + m
        lt := fun i => if i = tid then s.clocks.lt i + n else s.clocks.lt i } }

end Perfcached.Resize
