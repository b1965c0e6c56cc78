import Perfcached.Cluster.Clack
import Perfcached.Lib.Bytes
import Perfcached.Lib.Slots

/-!
# Perfcached.Cluster.Retain

Retained tombstones (`src/clretain.c`).

Every tombstone a node plants is remembered for `retain_s` seconds, at most `max` of them, in 64
shards. A shard's entries stand in planting order; the expiries that may go early are on a second
list, and the numbered deletes on a list of their space, in arrival order. Each call works under
the shard's lock: `Part` is what it sees there, the shard and the figures of the whole table.

A list that is threaded through the entries is the list of their names here, and an entry is known
by its name: the hash chains lead to an entry by its name, and no name has two. The counts of what
was noted, dropped early and forgotten, which only the statistics read, are left out.
-/

namespace Perfcached.Cluster

open Bytes

/-- A collection and a key in it. -/
abbrev Name := List Byte × List Byte

def nShard : Nat := 64

def splMax : Nat := 2052

/-- `sizeof (struct ent)`. -/
def entSize : Nat := 88

def hashOf (name : Name) : BitVec 32 :=
  (name.1 ++ 0#8 :: name.2).foldl (fun h b => (h ^^^ b.setWidth 32) * 16777619#32) 2166136261#32

def shardOf (name : Name) : Nat := (hashOf name).toNat % nShard

/-- Whether an entry stands for an expiry. -/
inductive Expiry
  /-- A delete. -/
  | no
  /-- An expiry that may go early. -/
  | early
  /-- An expiry that keeps the time rule. -/
  | kept
  deriving DecidableEq

/-- `struct ent`. -/
structure Ent where
  name : Name
  ver : Nat
  tS : Nat
  isLocal : Bool
  expiry : Expiry
  spi : Nat
  nseq : Nat
  deriving DecidableEq

/-- `struct spl`: one space's entries in a shard, by name. -/
structure Spl where
  space : Key
  list : List Name

/-- `struct shard`. -/
structure Shard where
  ents : List Ent
  xlist : List Name
  sp : List Spl
  capsp : Nat

/-- A row of `FG`: how far a space was forgotten and when, and what was dropped unconfirmed. -/
structure Fg where
  space : Key
  through : Nat
  atS : Nat
  lost : Nat

/-- The figures of the whole table. -/
structure Books where
  n : Nat
  locals : Nat
  exp : Nat
  num : Nat
  bytes : Nat
  lostUptoS : Nat
  timeHiS : Nat
  fg : List Fg

/-- What `clretain_init` was given. -/
structure RetainConf where
  retainS : Nat
  max : Nat

/-- `R_on`; there is memory for the tables. -/
def RetainConf.on (c : RetainConf) : Bool := 0 < c.retainS && 0 < c.max

/-- A shard under its lock. -/
structure Part where
  sh : Shard
  bk : Books

/-- `now_s - t_s`, of 32 bits. -/
def age (nowS tS : Nat) : Nat := (nowS + 2 ^ 32 - tS) % 2 ^ 32

def Shard.find (s : Shard) (name : Name) : Option Ent := Slots.find Ent.name name s.ents

/-! ### The lists of the spaces -/

/-- `spl_slot` of a space that has one. -/
def Shard.splSlot (s : Shard) (k : Key) : Option Nat := s.sp.findIdx? fun l => l.space = k

/-- `spl_slot` with `make`: the space's slot, an emptied one, or a new one if there is room. -/
def Shard.splMake (s : Shard) (k : Key) (alloc : Bool) : Option (Shard × Nat) :=
  match s.splSlot k with
  | some i => some (s, i)
  | none =>
    match s.sp.findIdx? fun l => l.list = [] with
    | some i => some ({ s with sp := s.sp.modify i fun l => { l with space := k } }, i)
    | none =>
      let cap := Slots.room s.sp.length s.capsp splMax
      if s.sp.length = s.capsp ∧ (s.sp.length = cap ∨ alloc = false) then none
      else some ({ s with sp := s.sp ++ [⟨k, []⟩], capsp := cap }, s.sp.length)

def Part.slistUnlink (p : Part) (e : Ent) : Part × Ent :=
  (⟨{ p.sh with sp := p.sh.sp.modify e.spi fun l => { l with list := l.list.erase e.name } },
    { p.bk with num := p.bk.num - 1 }⟩, { e with nseq := 0 })

def Part.slistAppend (p : Part) (e : Ent) (spi seq : Nat) : Part × Ent :=
  (⟨{ p.sh with sp := p.sh.sp.modify spi fun l => { l with list := l.list ++ [e.name] } },
    { p.bk with num := p.bk.num + 1 }⟩, { e with spi, nseq := seq })

/-- `ent_number`: the entry now stands for the delete noted under this number, 0 for none. -/
def Part.entNumber (p : Part) (e : Ent) (k : Key) (seq : Nat) (alloc : Bool) : Part × Ent :=
  let (p, e) := if e.nseq ≠ 0 then p.slistUnlink e else (p, e)
  if seq = 0 then (p, e)
  else
    match p.sh.splMake k alloc with
    | none => (p, e)
    | some (sh, i) => Part.slistAppend { p with sh } e i seq

/-! ### An entry goes -/

/-- The row of a space in `FG`, made if there is room. -/
def fgRow (fg : List Fg) (k : Key) : List Fg :=
  if (fg.any fun r => r.space = k) ∨ splMax ≤ fg.length then fg else fg ++ [⟨k, 0, 0, 0⟩]

/-- `lost_note`: a numbered entry is dropped without anyone's confirmation. -/
def Part.lostNote (p : Part) (e : Ent) : Part :=
  match p.sh.sp[e.spi]? with
  | none => p
  | some l =>
    let fg := Slots.update Fg.space l.space (fun r => { r with lost := max r.lost e.nseq })
      (fgRow p.bk.fg l.space)
    { p with bk := { p.bk with fg } }

def Books.lostAt (b : Books) (tS : Nat) : Books := { b with lostUptoS := max b.lostUptoS tS }

def Books.timeDropped (b : Books) (tS : Nat) : Books := { b with timeHiS := max b.timeHiS tS }

def Ent.size (e : Ent) : Nat := entSize + (e.name.1.length + 1 + e.name.2.length)

def Part.entDrop (p : Part) (e : Ent) : Part :=
  let p : Part :=
    ⟨{ p.sh with
        ents := p.sh.ents.filter fun x => x.name ≠ e.name
        xlist := if e.expiry = .early then p.sh.xlist.erase e.name else p.sh.xlist },
      { p.bk with
        n := p.bk.n - 1
        locals := if e.isLocal then p.bk.locals - 1 else p.bk.locals
        exp := if e.expiry ≠ .no then p.bk.exp - 1 else p.bk.exp
        bytes := p.bk.bytes - e.size }⟩
  if e.nseq ≠ 0 then (p.slistUnlink e).1 else p

/-! ### A tombstone is noted -/

/-- A call of `note_in`. -/
structure Note where
  name : Name
  ver : Nat
  nowS : Nat
  isLocal : Bool
  expiry : Expiry
  space : Key
  seq : Nat

def clretainNote (name : Name) (ver nowS : Nat) : Note := ⟨name, ver, nowS, false, .no, (0, 0), 0⟩

def clretainNoteN (name : Name) (ver nowS : Nat) (space : Key) (seq : Nat) : Note :=
  ⟨name, ver, nowS, false, .no, space, seq⟩

def clretainNoteExpiry (name : Name) (ver nowS : Nat) (keep : Bool) : Note :=
  ⟨name, ver, nowS, false, if keep then .kept else .early, (0, 0), 0⟩

def clretainNoteLocal (name : Name) (ver nowS : Nat) : Note :=
  ⟨name, ver, nowS, true, .no, (0, 0), 0⟩

/-- What `note_in` takes. -/
def Note.taken (nt : Note) (c : RetainConf) : Bool :=
  c.on && nt.ver ≠ 0 && nt.name.1.length ≤ 255 && nt.name.2.length ≤ 4096

/-- The kind of an entry that is noted again. -/
def Part.renote (p : Part) (e : Ent) (nt : Note) : Part × Ent :=
  let (p, e) : Part × Ent :=
    if !nt.isLocal && e.isLocal then
      ({ p with bk := { p.bk with locals := p.bk.locals - 1 } }, { e with isLocal := false })
    else (p, e)
  let unlinked := p.sh.xlist.erase e.name
  match e.expiry, nt.expiry with
  | .early, .no =>
    (⟨{ p.sh with xlist := unlinked }, { p.bk with exp := p.bk.exp - 1 }⟩, { e with expiry := .no })
  | .kept, .no => ({ p with bk := { p.bk with exp := p.bk.exp - 1 } }, { e with expiry := .no })
  | .early, .kept => ({ p with sh := { p.sh with xlist := unlinked } }, { e with expiry := .kept })
  | .early, .early => ({ p with sh := { p.sh with xlist := unlinked ++ [e.name] } }, e)
  | .no, _ | .kept, _ => (p, e)

/-- A tombstone of a name that has an entry. -/
def Part.noteAgain (p : Part) (e : Ent) (nt : Note) (alloc : Bool) : Part :=
  -- a newer delete takes the entry over, numbered or not; the same one again adds a number
  let (p, e) :=
    if e.ver < nt.ver ∨ (nt.ver = e.ver ∧ nt.seq ≠ 0 ∧ e.nseq = 0) then
      p.entNumber e nt.space nt.seq alloc
    else (p, e)
  let (p, e) := p.renote { e with ver := max e.ver nt.ver, tS := nt.nowS } nt
  { p with sh := { p.sh with ents := (p.sh.ents.filter fun x => x.name ≠ e.name) ++ [e] } }

/-- The victim of the cap: the shard's oldest expiry, or its oldest entry for a delete. -/
def Shard.victim (s : Shard) (nt : Note) : Option Ent :=
  match s.xlist with
  | x :: _ => s.find x
  | [] => if nt.expiry = .early then none else s.ents.head?

/-- What the table says of an entry that the cap takes. -/
def Part.lose (c : RetainConf) (p : Part) (o : Ent) (nowS : Nat) : Part :=
  let p := if age nowS o.tS < c.retainS then { p with bk := p.bk.lostAt o.tS } else p
  if o.nseq ≠ 0 then p.lostNote o else p

/-- Room under the cap; `none` where there is none to give. -/
def Part.makeRoom (c : RetainConf) (p : Part) (nt : Note) : Option Part :=
  if c.max ≤ p.bk.n ∧ p.sh.ents ≠ [] then
    (p.sh.victim nt).map fun o => (p.lose c o nt.nowS).entDrop o
  else some p

def Note.ent (nt : Note) : Ent := ⟨nt.name, nt.ver, nt.nowS, nt.isLocal, nt.expiry, 0, 0⟩

/-- The entry of a name that has none. -/
def Part.plant (p : Part) (nt : Note) (alloc : Bool) : Part :=
  let (p, e) := if nt.seq ≠ 0 then p.entNumber nt.ent nt.space nt.seq alloc else (p, nt.ent)
  ⟨{ p.sh with
      ents := p.sh.ents ++ [e]
      xlist := if nt.expiry = .early then p.sh.xlist ++ [e.name] else p.sh.xlist },
    { p.bk with
      n := p.bk.n + 1
      locals := if nt.isLocal then p.bk.locals + 1 else p.bk.locals
      exp := if nt.expiry ≠ .no then p.bk.exp + 1 else p.bk.exp
      bytes := p.bk.bytes + e.size }⟩

/-- `note_in`, in the shard of its name; `mem` and `alloc` say whether there is memory for the
entry and for a longer table of spaces. -/
def Part.noteIn (c : RetainConf) (p : Part) (nt : Note) (mem alloc : Bool) : Part :=
  if nt.taken c then
    match p.sh.find nt.name with
    | some e => p.noteAgain e nt alloc
    | none =>
      match p.makeRoom c nt with
      | none => { p with bk := p.bk.lostAt nt.nowS }
      | some p => if mem then p.plant nt alloc else { p with bk := p.bk.lostAt nt.nowS }
  else p

/-! ### Entries are forgotten -/

/-- The loop of `clretain_forget` over one slot, and how many went. Each turn drops an entry of
the slot's list, so there are at most as many turns as it has entries. -/
def Part.forgetLoop (i upto : Nat) : Nat → Part → Nat → Part × Nat
  | 0, p, n => (p, n)
  | turns + 1, p, n =>
    match (p.sh.sp[i]?.bind fun l => l.list.head?).bind p.sh.find with
    | none => (p, n)
    | some e => if e.nseq ≤ upto then forgetLoop i upto turns (p.entDrop e) (n + 1) else (p, n)

/-- `clretain_forget` in one shard. -/
def Part.forget (p : Part) (k : Key) (upto : Nat) : Part × Nat :=
  match p.sh.splSlot k with
  | none => (p, 0)
  | some i => Part.forgetLoop i upto ((p.sh.sp[i]?.elim [] Spl.list).length) p 0

/-- The end of `clretain_forget`: how far the space was forgotten, and when. -/
def Books.forgot (b : Books) (k : Key) (upto nowS n : Nat) : Books :=
  if n = 0 then b
  else
    { b with
      fg := Slots.update Fg.space k
        (fun r => { r with through := max r.through upto, atS := nowS }) (fgRow b.fg k) }

/-- `clretain_expire` in one shard. -/
def Part.expireLoop (c : RetainConf) (nowS : Nat) : Nat → Part → Part
  | 0, p => p
  | turns + 1, p =>
    match p.sh.ents.head? with
    | none => p
    | some e =>
      if c.retainS ≤ age nowS e.tS then
        let p := if e.nseq ≠ 0 then p.lostNote e else { p with bk := p.bk.timeDropped e.tS }
        expireLoop c nowS turns (p.entDrop e)
      else p

def Part.expire (c : RetainConf) (p : Part) (nowS : Nat) : Part :=
  if c.on then Part.expireLoop c nowS p.sh.ents.length p else p

/-- `clretain_expire_expiries` in one shard. -/
def Part.expireExpiriesLoop (nowS holdS : Nat) : Nat → Part → Part
  | 0, p => p
  | turns + 1, p =>
    match p.sh.xlist.head?.bind p.sh.find with
    | none => p
    | some e =>
      if holdS ≤ age nowS e.tS then expireExpiriesLoop nowS holdS turns (p.entDrop e) else p

def Part.expireExpiries (c : RetainConf) (p : Part) (nowS holdS : Nat) : Part :=
  if c.on then Part.expireExpiriesLoop nowS holdS p.sh.xlist.length p else p

/-- `clretain_get`, in the shard of its name. -/
def clretainGet (c : RetainConf) (s : Shard) (name : Name) (nowS : Nat) : Nat :=
  match s.find name with
  | some e => if c.on ∧ age nowS e.tS < c.retainS then e.ver else 0
  | none => 0

end Perfcached.Cluster
