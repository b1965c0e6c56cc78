import Perfcached.Lib.Bitmap
import Perfcached.Lib.Bytes
import Perfcached.Lib.Machine
import Perfcached.Lib.Roll
import Perfcached.Lib.Watermark

/-!
# Perfcached.Pubsub.Interest

Which relays a peer wants (`psinterest.h`, and its two ends in `pubsub.c` and `clps.c`).

A node keeps a Bloom filter of the channels it holds subscriptions for and the patterns as
texts. A first subscription is numbered and told to its peers in an update; a last leave is
told to nobody and drops out when the filter is rebuilt. A peer keeps a view of the node: the
last full state it applied and which updates since then arrived. It skips a publish only while
the view covers the version the node's heartbeat carried.

The machine has the node and one peer. Whatever the node sent may arrive at any time, in any
order, again, or never. The wire format of the messages is left out.
-/

namespace Perfcached.Pubsub

open Bytes (Byte)

abbrev Name := List Byte

/-! ### The filter -/

/-- The bits of a filter, eight to a word. -/
abbrev Filter := Bitmap.Words 8

def psbBits : Nat := 2 ^ 18

def psbK : Nat := 4

/-- Two hashes of a name: FNV-1a, finished with splitmix64's mixer. -/
def psbHash (s : Name) : BitVec 32 × BitVec 32 :=
  let h := s.foldl (fun h c => (h ^^^ c.setWidth 64) * 1099511628211#64) 1469598103934665603#64
  let h := h ^^^ (h >>> 30)
  let h := h * 0xbf58476d1ce4e5b9#64
  let h := h ^^^ (h >>> 27)
  let h := h * 0x94d049bb133111eb#64
  let h := h ^^^ (h >>> 31)
  (h.setWidth 32, (h >>> 32).setWidth 32 ||| 1#32)

/-- The bits of a name: `h1 + i * h2`, within the filter. -/
def psbProbes (h : BitVec 32 × BitVec 32) : List Nat :=
  (List.range psbK).map fun i => (h.1 + BitVec.ofNat 32 i * h.2).toNat % psbBits

def psbAdd (bits : Filter) (h : BitVec 32 × BitVec 32) : Filter :=
  Bitmap.markAll bits (psbProbes h)

def psbTest (bits : Filter) (h : BitVec 32 × BitVec 32) : Bool :=
  Bitmap.testAll bits (psbProbes h)

theorem psbTest_psbAdd_self (bits : Filter) (h : BitVec 32 × BitVec 32) :
    psbTest (psbAdd bits h) h = true :=
  Bitmap.testAll_markAll_self (by decide) bits _

theorem psbTest_psbAdd {bits : Filter} {h : BitVec 32 × BitVec 32} (ht : psbTest bits h = true)
    (h' : BitVec 32 × BitVec 32) : psbTest (psbAdd bits h') h = true :=
  Bitmap.testAll_markAll (by decide) ht _

theorem psbTest_zero (h : BitVec 32 × BitVec 32) : psbTest Bitmap.zero h = false := by
  simp [psbTest, Bitmap.testAll, psbProbes, psbK, List.range_succ]

/-! ### The version -/

/-- `[epoch 16][rebuild 16][adds 32]`, from the low bits of the three counters. -/
def psvMake (epoch rebuild adds : Nat) : Nat :=
  epoch % 2 ^ 16 * 2 ^ 48 + rebuild % 2 ^ 16 * 2 ^ 32 + adds % 2 ^ 32

def psvEpoch (v : Nat) : Nat := v / 2 ^ 48 % 2 ^ 16

def psvAdds (v : Nat) : Nat := v % 2 ^ 32

/-- An update count that did not wrap is read back from the version. -/
theorem psvAdds_psvMake {epoch rebuild adds : Nat} (h : adds < 2 ^ 32) :
    psvAdds (psvMake epoch rebuild adds) = adds := by
  unfold psvAdds psvMake
  omega

/-! ### A view of the node -/

structure View where
  /-- The full state applied. -/
  base : Nat
  /-- Every update up to this one is in. -/
  upto : Nat
  /-- Bit `i`: update `upto + 1 + i` is in. -/
  above : BitVec 64
  full : Bool

def psvFullApplies (v : View) (ver : Nat) : Bool :=
  !v.full || psvEpoch ver != psvEpoch v.base || v.upto ≤ psvAdds ver

def psvFull (ver : Nat) : View :=
  { base := ver, upto := psvAdds ver, above := 0#64, full := true }

/-- An update arrived: the view after it, and whether its content is to be applied. -/
def psvAdd (v : View) (ver : Nat) : View × Bool :=
  let a := psvAdds ver
  if !v.full || psvEpoch ver != psvEpoch v.base then (v, false)
  else if a ≤ v.upto then (v, true)
  else
    let d := a - v.upto - 1
    let above := if d < 64 then v.above ||| 1#64 <<< d else v.above
    let r := Watermark.settle 64 v.upto above
    ({ v with upto := r.1, above := r.2 }, true)

/-- May the peer filter against a node whose heartbeat says `hb`? -/
def psvCovered (v : View) (hb : Nat) : Bool :=
  v.full && hb != 0 && psvEpoch hb == psvEpoch v.base && psvAdds hb ≤ v.upto

/-- The updates in the view. -/
def View.Has (v : View) (a : Nat) : Prop := Watermark.Has v.upto v.above a

/-! ### The node -/

/-- What is subscribed to. -/
inductive Topic where
  | channel (name : Name)
  | pattern (name : Name)
deriving DecidableEq

/-- A name some workers hold. -/
structure Shared where
  topic : Topic
  owners : List Nat

/-- The content of an update: the probes of a channel, the text of a pattern. -/
inductive Content where
  | probes (h : BitVec 32 × BitVec 32)
  | text (name : Name)

inductive Msg where
  | alive (ver : Nat)
  | add (ver : Nat) (content : Content)
  | full (ver : Nat) (everything : Bool) (bloom : Filter) (pats : List Name)

/-- The node's side. `names` is its two indexes of shared names in one list. -/
structure Node where
  names : List Shared
  epoch : Nat
  rebuild : Nat
  adds : Nat
  bloom : Filter
  /-- A name left since the rebuild. -/
  removed : Bool

namespace Node

def version (n : Node) : Nat := psvMake n.epoch n.rebuild n.adds

def Holds (n : Node) (t : Topic) : Prop := t ∈ n.names.map Shared.topic
  deriving Decidable

def setOwners (n : Node) (t : Topic) (f : List Nat → List Nat) : List Shared :=
  n.names.map fun e => if e.topic = t then { e with owners := f e.owners } else e

def owners (n : Node) (t : Topic) : List Nat :=
  ((n.names.find? fun e => e.topic = t).map Shared.owners).getD []

/-- The update for a first subscription; a pattern too long to send is counted and not sent. -/
def interestAdd (ver : Nat) : Topic → Option Msg
  | .channel name => some (.add ver (.probes (psbHash name)))
  | .pattern name => if 4096 < name.length then none else some (.add ver (.text name))

def sharedJoin (n : Node) (t : Topic) (worker : Nat) : Node × Option Msg :=
  if n.Holds t then
    ({ n with names := n.setOwners t fun ws => if worker ∈ ws then ws else worker :: ws }, none)
  else
    -- the node's first
    let n' : Node :=
      { n with
        names := { topic := t, owners := [worker] } :: n.names
        bloom := match t with
          | .channel name => psbAdd n.bloom (psbHash name)
          | .pattern _ => n.bloom
        adds := n.adds + 1 }
    (n', interestAdd n'.version t)

def sharedLeave (n : Node) (t : Topic) (worker : Nat) : Node :=
  if ((n.owners t).filter (· ≠ worker)).isEmpty then
    { n with names := n.names.filter (fun e => e.topic ≠ t), removed := true }
  else { n with names := n.setOwners t (·.filter (· ≠ worker)) }

def channels (n : Node) : List Name :=
  n.names.filterMap fun e => match e.topic with
    | .channel name => some name
    | .pattern _ => none

def patterns (n : Node) : List Name :=
  n.names.filterMap fun e => match e.topic with
    | .channel _ => none
    | .pattern name => some name

/-- The patterns as they are packed, `none` when they do not fit. -/
def intPats (cap : Nat) : Nat → List Name → Option (List Name)
  | _, [] => some []
  | used, x :: xs =>
    if cap < used + 2 + x.length then none
    else (intPats cap (used + 2 + x.length) xs).map (x :: ·)

/-- Bytes of a full state before its patterns. -/
def psfHdr : Nat := 8 + 1 + psbBits / 8 + 2

/-- Room for the patterns beside the filter: a datagram's, at most `PSF_PATTERNS_MAX`. -/
def patsCap : Nat := min (65000 - 3 - psfHdr) 30000

def interestFull (n : Node) : Msg :=
  match intPats patsCap 0 n.patterns with
  | none => .full n.version true n.bloom []
  | some ps => if 0xffff < ps.length then .full n.version true n.bloom []
      else .full n.version false n.bloom ps

/-- The filter, built again from the channels held. -/
def rebuilt (n : Node) : Filter :=
  n.channels.foldl (fun bits name => psbAdd bits (psbHash name)) Bitmap.zero

def interestTick (n : Node) : Node :=
  { n with bloom := n.rebuilt, rebuild := n.rebuild + 1, removed := false }

end Node

/-! ### The peer -/

inductive Mode where
  | all
  | filter
  | broadcast
deriving DecidableEq

/-- What a peer keeps of the node. `pats` are the patterns of the fleet's index that have the
node's bit. -/
structure Peer where
  pv : View
  hb : Nat
  bloom : Option Filter
  everything : Bool
  pats : List Name
  mode : Mode

namespace Peer

def fresh : Peer :=
  { pv := { base := 0, upto := 0, above := 0#64, full := false }
    hb := 0, bloom := none, everything := false, pats := [], mode := .all }

/-- The mode the fields call for. -/
def evalMode (p : Peer) : Mode :=
  if p.hb = 0 then .all
  else if p.bloom.isNone || p.everything || !psvCovered p.pv p.hb then .broadcast
  else .filter

def evaluate (p : Peer) : Peer := { p with mode := p.evalMode }

def learn (p : Peer) (ver : Nat) : Peer :=
  if p.hb = 0 ∨ psvEpoch ver ≠ psvEpoch p.hb ∨ psvAdds p.hb < psvAdds ver then
    { p with hb := ver }
  else p

/-- The peer wants everything again, or its slot is being freed. -/
def forget (p : Peer) : Peer := { fresh with bloom := p.bloom }

def heartbeat (p : Peer) (iv : Nat) : Peer :=
  if iv = 0 then (if p.hb ≠ 0 ∨ p.mode ≠ .all then p.forget else p)
  else evaluate { p with hb := iv }

/-- A pattern goes into the index, where there is room for it; one that cannot be held marks
the view as wanting everything. -/
def fpatAdd (room : Name → Bool) (p : Peer) (name : Name) : Peer :=
  if room name then { p with pats := name :: p.pats } else { p with everything := true }

def applyContent (room : Name → Bool) (p : Peer) : Content → Peer
  | .probes h => { p with bloom := p.bloom.map fun b => psbAdd b h }
  | .text name => p.fpatAdd room name

def handleIntAdd (p : Peer) (ver : Nat) (content : Content) (room : Name → Bool) : Peer :=
  if ver = 0 then p
  else
    let r := psvAdd p.pv ver
    let p' := { p with pv := r.1 }
    evaluate ((if r.2 then p'.applyContent room content else p').learn ver)

def handleIntFull (p : Peer) (ver : Nat) (everything : Bool) (bloom : Filter)
    (pats : List Name) (mem : Bool) (room : Name → Bool) : Peer :=
  if ver = 0 ∨ psvFullApplies p.pv ver = false then p
  else if p.bloom.isNone && !mem then p
  else
    let p' := { p with bloom := some bloom, pats := [], everything := everything }
    evaluate ({ pats.foldl (fpatAdd room) p' with pv := psvFull ver }.learn ver)

def handle (p : Peer) (mem : Bool) (room : Name → Bool) : Msg → Peer
  | .alive ver => p.heartbeat ver
  | .add ver content => p.handleIntAdd ver content room
  | .full ver everything bloom pats => p.handleIntFull ver everything bloom pats mem room

/-- The topic is in the filter or among the patterns. -/
def Includes (p : Peer) : Topic → Prop
  | .channel name => ∃ b, p.bloom = some b ∧ psbTest b (psbHash name) = true
  | .pattern name => name ∈ p.pats

/-- May a publish on `chan` skip the node? -/
def skips (glob : Name → Name → Bool) (p : Peer) (chan : Name) : Bool :=
  p.mode = .filter && !(p.pats.any fun x => glob x chan) &&
    (p.bloom.elim false fun b => !psbTest b (psbHash chan))

end Peer

/-! ### The two together -/

structure State where
  node : Node
  peer : Peer
  /-- All that the node ever sent. -/
  sent : List Msg
  /-- The number of each topic's last first subscription; nothing reads it. -/
  num : Topic → Nat

def start (epoch : Nat) : State :=
  { node := { names := [], epoch := epoch, rebuild := 0, adds := 0, bloom := Bitmap.zero,
              removed := false }
    peer := Peer.fresh
    sent := []
    num := fun _ => 0 }

inductive Act where
  | join (t : Topic) (worker : Nat)
  | leave (t : Topic) (worker : Nat)
  | tick
  | beat
  /-- The node answers a request for its full state. -/
  | request
  /-- A message arrives: `mem` and `room` say what memory the peer finds for it. -/
  | deliver (i : Nat) (mem : Bool) (room : Name → Bool)
  | forget

def step (s : State) : Act → Option State
  | .join t worker =>
    let r := s.node.sharedJoin t worker
    some { s with
      node := r.1
      sent := r.2.toList ++ s.sent
      num := if s.node.Holds t then s.num
        else Function.update s.num t (s.node.adds + 1) }
  | .leave t worker =>
    if worker ∈ s.node.owners t then some { s with node := s.node.sharedLeave t worker }
    else none
  | .tick => if s.node.removed then some { s with node := s.node.interestTick } else none
  | .beat => some { s with sent := .alive s.node.version :: s.sent }
  | .request => some { s with sent := s.node.interestFull :: s.sent }
  | .deliver i mem room =>
    (s.sent[i]?).map fun m => { s with peer := s.peer.handle mem room m }
  | .forget => some { s with peer := s.peer.forget }

end Perfcached.Pubsub
