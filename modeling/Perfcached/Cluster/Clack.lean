import Perfcached.Lib.Slots
import Perfcached.Lib.Window

/-!
# Perfcached.Cluster.Clack

Watermarks of numbered deletes (`src/clack.c`).

An origin numbers its deletes 1, 2, 3, ... within a numbering space. A member keeps, per space,
the contiguous mark of what it applied, the durable mark of what its log has synced, and the
numbers it holds ahead of the mark in a window of bits. The WAL sequences that brought the mark
up are folded into one maximum, and (mark, maximum) pairs wait for the sync that covers them.

The C code's numbers are 64 bits wide. No sum here can leave them where the delete numbers are
below 2^63: only `mark + CLACK_WIN` and `mark + 1` are computed, and above 2^63 nothing is held
ahead of the mark. The counters that only the statistics read are left out.
-/

namespace Perfcached.Cluster

open Window

def clackSpaces : Nat := 1026

def clackWin : Nat := 4096

def clackPend : Nat := 16

/-- The answers of the calls. -/
inductive Answer
  | new
  | dup
  | far
  | full
  | bad
  deriving DecidableEq

/-- `struct pend`. -/
structure Pend where
  seq : Nat
  w : Nat
  deriving DecidableEq

/-- `struct space`. -/
structure Space where
  oid : Nat
  incarn : Nat
  nahead : Nat
  mark : Nat
  dmark : Nat
  hi : Nat
  wmax : Nat
  wahead : Nat
  pend : List Pend
  ahead : Nat → Bool

/-- `struct clack`. -/
structure Clack where
  durableOnApply : Bool
  synced : Nat
  spaces : List Space

/-- A space as `get` makes it. -/
def Space.zero (oid incarn : Nat) : Space := ⟨oid, incarn, 0, 0, 0, 0, 0, 0, [], fun _ => false⟩

def clackNew (durableOnApply : Bool) : Clack := ⟨durableOnApply, 0, []⟩

def Space.bit (sp : Space) (seq : Nat) : Bool := sp.ahead (seq % clackWin)

def Space.bitSet (sp : Space) (seq : Nat) (on : Bool) : Space :=
  { sp with ahead := setBit clackWin sp.ahead seq on }

/-- A held number leaves the window. -/
def Space.release (sp : Space) (seq : Nat) : Space :=
  { sp.bitSet seq false with nahead := sp.nahead - 1 }

/-- The loop over the held numbers that the mark connects to, and whether it took one. Each
turn takes one, so there are at most `nahead`. -/
def Space.connectLoop : Nat → Space → Bool → Space × Bool
  | 0, sp, took => (sp, took)
  | n + 1, sp, took =>
    if sp.nahead ≠ 0 ∧ sp.bit (sp.mark + 1) then
      connectLoop n { sp.release (sp.mark + 1) with mark := sp.mark + 1 } true
    else (sp, took)

/-- The held numbers that the mark connects to. -/
def Space.connect (sp : Space) : Space × Bool := sp.connectLoop sp.nahead false

def Clack.confirm (a : Clack) (sp : Space) : Space :=
  if a.durableOnApply ∨ sp.wmax ≤ a.synced then { sp with dmark := sp.mark, pend := [] }
  else
    match sp.pend.getLast? with
    | none => { sp with pend := [⟨sp.mark, sp.wmax⟩] }
    | some t =>
      if t.w = sp.wmax then { sp with pend := sp.pend.dropLast ++ [⟨sp.mark, t.w⟩] }
      else if sp.pend.length = clackPend then
        { sp with pend := sp.pend.dropLast ++ [⟨sp.mark, sp.wmax⟩] }
      else { sp with pend := sp.pend ++ [⟨sp.mark, sp.wmax⟩] }

/-- `clack_applied`, of a space that is there. -/
def Clack.appliedTo (a : Clack) (sp : Space) (seq walseq : Nat) : Answer × Space :=
  if seq ≤ sp.mark ∨ (seq - sp.mark ≤ clackWin ∧ sp.bit seq) then (.dup, sp)
  else
    let sp := { sp with hi := max sp.hi seq }
    if clackWin < seq - sp.mark then (.far, sp)
    else if seq ≠ sp.mark + 1 then
      (.new, { sp.bitSet seq true with nahead := sp.nahead + 1, wahead := max sp.wahead walseq })
    else
      -- the next in line: it, and every held number it now connects
      let w := max walseq sp.wmax
      let (sp, took) := Space.connect { sp with mark := seq }
      let w := if took then max w sp.wahead else w
      (.new, a.confirm { sp with wahead := if sp.nahead = 0 then 0 else sp.wahead, wmax := w })

/-- `clack_synced`, of one space. -/
def Space.sync (sp : Space) (walseq : Nat) : Space :=
  { sp with
    dmark := (sp.pend.takeWhile fun p => p.w ≤ walseq).foldl (fun d p => max d p.seq) sp.dmark
    pend := sp.pend.dropWhile fun p => p.w ≤ walseq }

/-- `clack_gap`, of a space that is there. -/
def Space.gap (sp : Space) : Option (Nat × Nat) :=
  if sp.hi ≤ sp.mark then none
  else
    let held := (List.range' (sp.mark + 2) (clackWin - 1)).find? sp.bit
    some (sp.mark + 1, if sp.nahead = 0 then sp.hi else held.elim sp.hi fun s => s - 1)

/-- `clack_restore`, of a space that is there. -/
def Space.restore (sp : Space) (mark : Nat) : Space :=
  { sp with
    ahead := fun _ => false
    nahead := 0
    pend := []
    mark := mark
    dmark := mark
    hi := mark
    wmax := 0
    wahead := 0 }

/-- The held numbers at or below a floor leave the window. -/
def Space.clearTo (sp : Space) (floor : Nat) : Space :=
  if clackWin < floor - sp.mark then { sp with ahead := fun _ => false, nahead := 0 }
  else
    (List.range' (sp.mark + 1) (floor - sp.mark)).foldl
      (fun sp s => if sp.nahead ≠ 0 ∧ sp.bit s then sp.release s else sp) sp

/-- `clack_floor`, of a space that is there. -/
def Clack.floorTo (a : Clack) (sp : Space) (floor : Nat) : Answer × Space :=
  if floor ≤ sp.mark then (.dup, sp)
  else
    let sp := sp.clearTo floor
    let sp := { sp with
      mark := floor
      hi := max sp.hi floor
      dmark := max sp.dmark floor
      pend := sp.pend.filter fun p => floor < p.seq }
    let (sp, took) := sp.connect
    -- those that connect wait for their records
    let sp := if took then a.confirm { sp with wmax := max sp.wmax sp.wahead } else sp
    (.new, { sp with wahead := if sp.nahead = 0 then 0 else sp.wahead })

/-! ### The spaces -/

/-- A numbering space's name. -/
abbrev Key := Nat × Nat

def Space.key (sp : Space) : Key := (sp.oid, sp.incarn)

def Clack.find (a : Clack) (k : Key) : Option Space := Slots.find Space.key k a.spaces

/-- `get`: the space, made if there is room for it and memory. -/
def Clack.get (a : Clack) (k : Key) (alloc : Bool) : Option (Clack × Space) :=
  match a.find k with
  | some sp => some (a, sp)
  | none =>
    if a.spaces.length = clackSpaces ∨ alloc = false then none
    else some ({ a with spaces := a.spaces ++ [.zero k.1 k.2] }, .zero k.1 k.2)

/-- A call that changes one space. -/
def Clack.change (a : Clack) (k : Key) (alloc : Bool)
    (f : Clack → Space → Answer × Space) : Answer × Clack :=
  match a.get k alloc with
  | none => (.full, a)
  | some (a, sp) =>
    let r := f a sp
    (r.1, { a with spaces := Slots.update Space.key k (fun _ => r.2) a.spaces })

def clackApplied (a : Clack) (k : Key) (alloc : Bool) (seq walseq : Nat) : Answer × Clack :=
  if seq = 0 then (.bad, a) else a.change k alloc fun a sp => a.appliedTo sp seq walseq

def clackSynced (a : Clack) (walseq : Nat) : Clack :=
  if walseq ≤ a.synced then a
  else { a with synced := walseq, spaces := a.spaces.map fun sp => sp.sync walseq }

def clackMark (a : Clack) (k : Key) : Option Nat := (a.find k).map Space.dmark

def clackGap (a : Clack) (k : Key) : Option (Nat × Nat) := (a.find k).bind Space.gap

def clackRestore (a : Clack) (k : Key) (alloc : Bool) (mark : Nat) : Answer × Clack :=
  a.change k alloc fun _ sp => (.new, sp.restore mark)

def clackFloor (a : Clack) (k : Key) (alloc : Bool) (floor : Nat) : Answer × Clack :=
  a.change k alloc fun a sp => a.floorTo sp floor

/-- `clack_drop`: the last space takes the place of the one forgotten. -/
def clackDrop (a : Clack) (k : Key) : Clack :=
  { a with spaces := Slots.remove Space.key k a.spaces }

end Perfcached.Cluster
