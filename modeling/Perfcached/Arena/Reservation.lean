import Perfcached.Arena.Cells

/-!
# Perfcached.Arena.Reservation

The slots of the reservation and the memory given back (`slot_take`, `chunk_retire`,
`pcache_region_alloc`, `pcache_region_free`, `commit_ahead` and `giveback_tick` in
`src/core/pcache_arena.c`).

The reservation is cut into slots, and eight of them are a group, the unit that is committed and
given back. Chunks are carved from below, up to the chunk frontier, and index regions from above,
down to the region frontier. What is free below is in a warm or a cold map, what is free above in
the zone's two maps, and what is between the frontiers is the tail. Past the reservation there are
pages and regions from the host's allocator.

A give-back marks groups under the lock, tells the host to take their pages without it, and does the
bookkeeping under the lock again. Each of the three is a step here, with a step for each call to the
host. Whatever else the source reads at such a step is a choice of it: which slots have been free
for long enough, the ticks, and what the host answers.
-/

namespace Perfcached.Reservation

open Arena (pcacheSlot)

/-- `PCACHE_GROUP_SLOTS`. -/
def groupSlots : Nat := 8

/-- `PCACHE_HPS`, the bytes of a group. -/
def hps : Nat := pcacheSlot * groupSlots

/-- `PCACHE_PAGE_SLOTS`. -/
def pageSlots : Nat := 16

/-- What a page takes from the host: its slots, and one for the alignment. -/
def pageBytes : Nat := (pageSlots + 1) * pcacheSlot

/-- `PCACHE_AHEAD_GROUPS`. -/
def aheadGroups : Nat := 4

def punchRunsMax : Nat := 256

/-- One bit for each slot or group. -/
abbrev Bits := Nat → Bool

/-- `len` bits from `lo` on are written. -/
def fill (m : Bits) (lo len : Nat) (v : Bool) : Bits := fun i =>
  if lo ≤ i ∧ i < lo + len then v else m i

def bitSet (m : Bits) (i : Nat) : Bits := fill m i 1 true

def bitClr (m : Bits) (i : Nat) : Bits := fill m i 1 false

def bitFirst (m : Bits) (n : Nat) : Option Nat := (List.range n).find? m

/-- What a run of groups is made of: chunks' slots, the tail's or the region zone's. -/
inductive RunKind
  | chunk | tail | zone
  deriving DecidableEq

/-- `struct punch_run`. -/
structure Run where
  g0 : Nat
  n : Nat
  kind : RunKind
  deriving DecidableEq

/-- A give-back between its first and its third phase: its runs, how many of them the host has
taken, and whether it refused one. -/
structure Flight where
  runs : List Run
  done : Nat
  refused : Bool
  deriving DecidableEq

/-- `pcache_arena_t`, as far as slots are concerned. The frontiers are in slots, and `tailNext` and
`aheadFrom` in groups. `chunk` is the slots whose header has a class, and `region` those that were
handed out as a region and not given back. -/
structure State where
  rslots : Nat
  maxBytes : Nat
  hoff : Nat
  rtop : Nat
  chunk : Bits
  rwarm : Bits
  rcold : Bits
  region : Bits
  zwarm : Bits
  zcold : Bits
  hcommit : Bits
  nfreeWarm : Int
  nfreeCold : Int
  nzfreeWarm : Int
  nzfreeCold : Int
  bytes : Int
  coldBytes : Int
  regionsBytes : Int
  /-- The free slots of every page. -/
  pages : List Nat
  /-- The regions outside the reservation. -/
  regions : List Nat
  /-- Those whose bytes are counted and whose memory the host has not answered for. -/
  pending : List Nat
  tailNext : Nat
  tailDone : Bool
  aheadFrom : Nat
  tailFlLo : Nat
  tailFlHi : Nat
  givebackOff : Bool
  flight : Option Flight

namespace State

/-! ### Commits -/

/-- `group_commit`; `grant` is what the host answers for a group. -/
def groupCommit (grant : Nat → Bool) (s : State) (g : Nat) : Option State :=
  if s.hcommit g then some s
  else if grant g then some { s with hcommit := bitSet s.hcommit g }
  else none

/-- `groups_commit`. A refusal leaves the groups before it committed. -/
def groupsCommit (grant : Nat → Bool) : List Nat → State → Bool × State
  | [], s => (true, s)
  | g :: gs, s =>
    match s.groupCommit grant g with
    | some s' => groupsCommit grant gs s'
    | none => (false, s)

/-- The groups that touch the slots from `lo` to `hi`. -/
def groupsOf (lo hi : Nat) : List Nat :=
  List.range' (lo / groupSlots) ((hi + groupSlots - 1) / groupSlots - lo / groupSlots)

def slotsOf (g : Nat) : List Nat := List.range' (g * groupSlots) groupSlots

/-- A cold slot of a group that is back is warm. -/
def thaw (s : State) (i : Nat) : State :=
  if s.rcold i then
    { s with
      rcold := bitClr s.rcold i
      rwarm := bitSet s.rwarm i
      nfreeCold := s.nfreeCold - 1
      nfreeWarm := s.nfreeWarm + 1
      coldBytes := s.coldBytes - pcacheSlot
      bytes := s.bytes + pcacheSlot }
  else s

def groupRecommit (grant : Nat → Bool) (s : State) (g : Nat) : Option State :=
  (s.groupCommit grant g).map fun s => (slotsOf g).foldl thaw s

/-- A cold slot of a region group that is back is warm. -/
def zthaw (s : State) (i : Nat) : State :=
  if s.zcold i then
    { s with
      zcold := bitClr s.zcold i
      zwarm := bitSet s.zwarm i
      nzfreeCold := s.nzfreeCold - 1
      nzfreeWarm := s.nzfreeWarm + 1
      coldBytes := s.coldBytes - pcacheSlot
      bytes := s.bytes + pcacheSlot }
  else s

def zgroupRecommit (grant : Nat → Bool) (s : State) (g : Nat) : Option State :=
  (s.groupCommit grant g).map fun s => (slotsOf g).foldl zthaw s

def tailInflight (s : State) (lo hi : Nat) : Bool :=
  s.tailFlLo < s.tailFlHi && lo < s.tailFlHi && s.tailFlLo < hi

/-! ### Chunks -/

/-- A warm slot becomes a chunk. -/
def takeWarm (s : State) (i : Nat) : State :=
  { s with
    rwarm := bitClr s.rwarm i
    nfreeWarm := s.nfreeWarm - 1
    chunk := bitSet s.chunk i }

/-- The lowest resident free slot. -/
def takeFree (s : State) : Option State := (bitFirst s.rwarm s.rslots).map s.takeWarm

/-- The lowest punched-out one, with its group. -/
def takeCold (grant : Nat → Bool) (s : State) : Option State :=
  (bitFirst s.rcold s.rslots).bind fun i =>
    (s.groupRecommit grant (i / groupSlots)).map fun s => s.takeWarm i

/-- The slot at the frontier becomes a chunk. -/
def carveUp (s : State) : State :=
  { s with
    hoff := s.hoff + 1
    bytes := s.bytes + pcacheSlot
    chunk := bitSet s.chunk s.hoff }

/-- The slot at the frontier. -/
def takeFrontier (grant : Nat → Bool) (s : State) : Option State :=
  if s.hoff + 1 ≤ s.rtop ∧ s.tailInflight s.hoff (s.hoff + 1) = false then
    (s.groupCommit grant (s.hoff / groupSlots)).map carveUp
  else none

/-- The page with the fewest free slots that has one. -/
def bestPage (pages : List Nat) : Option Nat :=
  (List.range pages.length).foldl (fun best j =>
    let nfree := pages.getD j 0
    if nfree ≠ 0 ∧ best.all (fun b => nfree < pages.getD b 0) then some j else best) none

def pageAdd (s : State) : State :=
  { s with
    pages := pageSlots :: s.pages
    bytes := s.bytes + pageBytes
    nfreeWarm := s.nfreeWarm + pageSlots }

/-- A slot of a page. -/
def takeFromPage (s : State) (j : Nat) : State :=
  { s with pages := s.pages.modify j (· - 1), nfreeWarm := s.nfreeWarm - 1 }

/-- The bytes would be past the ceiling. -/
def pastCeiling (s : State) (need : Nat) : Bool :=
  s.maxBytes ≠ 0 && (s.maxBytes : Int) < s.bytes + need

/-- A slot of the fullest page, or of a new one, under the ceiling. -/
def takePage (malloc : Bool) (s : State) : Option State :=
  match bestPage s.pages with
  | some j => some (s.takeFromPage j)
  | none =>
    if s.pastCeiling pageBytes then none
    else if malloc then some (s.pageAdd.takeFromPage 0)
    else none

/-- `slot_take`, with the chunk that `carve_chunk` cuts of the slot. -/
def slotTake (grant : Nat → Bool) (malloc : Bool) (s : State) : Option State :=
  s.takeFree <|> s.takeCold grant <|> s.takeFrontier grant <|> s.takePage malloc

/-- `chunk_retire` of a slot of the reservation. -/
def retire (s : State) (i : Nat) : Option State :=
  if s.chunk i then
    some { s with
      chunk := bitClr s.chunk i
      rwarm := bitSet s.rwarm i
      nfreeWarm := s.nfreeWarm + 1 }
  else none

/-- `chunk_retire` of a slot of a page. -/
def retirePage (s : State) (j : Nat) : Option State :=
  match s.pages[j]? with
  | some nfree =>
    if nfree < pageSlots then
      some { s with pages := s.pages.modify j (· + 1), nfreeWarm := s.nfreeWarm + 1 }
    else none
  | none => none

/-! ### Regions -/

def regionSlots (size : Nat) : Nat := (size + pcacheSlot - 1) / pcacheSlot

/-- What a region costs outside the reservation: a header, and the alignment. -/
def regionNeed (size : Nat) : Nat := size + 16 + 64

def takeZone (s : State) (i : Nat) : State :=
  { s with
    zwarm := bitClr s.zwarm i
    nzfreeWarm := s.nzfreeWarm - 1
    regionsBytes := s.regionsBytes + pcacheSlot
    region := bitSet s.region i }

/-- A retired slot: a resident one, or a punched one with its group. -/
def regionReuse (grant : Nat → Bool) (s : State) : Option State :=
  match bitFirst s.zwarm s.rslots with
  | some i => some (s.takeZone i)
  | none =>
    (bitFirst s.zcold s.rslots).bind fun i =>
      (s.zgroupRecommit grant (i / groupSlots)).map fun s => s.takeZone i

/-- The region frontier goes down by `n` slots. -/
def carveDown (s : State) (n : Nat) : State :=
  { s with
    rtop := s.rtop - n
    bytes := s.bytes + n * pcacheSlot
    regionsBytes := s.regionsBytes + n * pcacheSlot
    region := fill s.region (s.rtop - n) n true }

/-- The region's bytes are counted before the host is asked for it, under the ceiling. -/
def regionOutside (s : State) (size : Nat) : State :=
  if s.pastCeiling (regionNeed size) then s
  else
    { s with
      bytes := s.bytes + regionNeed size
      pending := regionNeed size :: s.pending }

/-- A region at the frontier, or outside the reservation. -/
def regionCarve (grant : Nat → Bool) (size : Nat) (s : State) : State :=
  let n := regionSlots size
  if s.hoff + n ≤ s.rtop ∧ s.tailInflight (s.rtop - n) s.rtop = false then
    match groupsCommit grant (groupsOf (s.rtop - n) s.rtop) s with
    | (true, s') => s'.carveDown n
    | (false, s') => s'.regionOutside size
  else s.regionOutside size

/-- `pcache_region_alloc`, up to the host's answer for a region outside. -/
def regionAlloc (grant : Nat → Bool) (size : Nat) (s : State) : State :=
  if regionSlots size = 1 then (s.regionReuse grant).getD (s.regionCarve grant size)
  else s.regionCarve grant size

/-- The host's answer for a region outside. -/
def regionSettle (malloc : Bool) (j : Nat) (s : State) : Option State :=
  match s.pending[j]? with
  | some need =>
    some (if malloc then
      { s with
        pending := s.pending.eraseIdx j
        regions := need :: s.regions
        regionsBytes := s.regionsBytes + need }
    else { s with pending := s.pending.eraseIdx j, bytes := s.bytes - need })
  | none => none

/-- The slot at the region frontier goes to the tail, if it is free. -/
def raiseStep (s : State) : Option State :=
  if s.rtop < s.rslots then
    if s.zwarm s.rtop then
      some { s with
        zwarm := bitClr s.zwarm s.rtop
        nzfreeWarm := s.nzfreeWarm - 1
        bytes := s.bytes - pcacheSlot
        rtop := s.rtop + 1 }
    else if s.zcold s.rtop then
      some { s with
        zcold := bitClr s.zcold s.rtop
        nzfreeCold := s.nzfreeCold - 1
        coldBytes := s.coldBytes - pcacheSlot
        rtop := s.rtop + 1 }
    else none
  else none

/-- The loop of `zone_raise_locked`. -/
def raiseLoop : Nat → State → State
  | 0, s => s
  | n + 1, s =>
    match s.raiseStep with
    | some s' => raiseLoop n s'
    | none => s

/-- `zone_raise_locked`. The tail walk is sent back over what the tail gained. -/
def zoneRaise (s : State) : State :=
  let s' := raiseLoop (s.rslots - s.rtop) s
  if s.rtop < s'.rtop then
    { s' with tailNext := min s'.tailNext (s.rtop / groupSlots), tailDone := false }
  else s'

def freeSlot (s : State) (i : Nat) : State :=
  if s.zwarm i || s.zcold i then s
  else
    { s with
      zwarm := bitSet s.zwarm i
      nzfreeWarm := s.nzfreeWarm + 1
      regionsBytes := s.regionsBytes - pcacheSlot
      region := bitClr s.region i }

/-- `pcache_region_free` of a region that its owner has; one outside the reservation is left as it
is. -/
def regionFree (s : State) : Option (Nat × Nat) → Option State
  | none => some s
  | some (i, n) =>
    if (List.range' i n).all s.region then
      some ((List.range' i n).foldl freeSlot s).zoneRaise
    else none

/-! ### The window ahead -/

/-- The loop of `commit_ahead`. -/
def aheadLoop (grant : Nat → Bool) : List Nat → State → State
  | [], s => s
  | g :: gs, s =>
    if s.rtop < (g + 1) * groupSlots then s
    else
      let s := { s with
        aheadFrom := if s.aheadFrom = 0 ∨ g < s.aheadFrom then g else s.aheadFrom }
      match s.groupCommit grant g with
      | some s' => aheadLoop grant gs s'
      | none => s

/-- `commit_ahead`; `wanted` is `ahead_wanted`, and not a tier with a pool. -/
def commitAhead (wanted : Bool) (grant : Nat → Bool) (s : State) : State :=
  if wanted then aheadLoop grant (List.range' (s.hoff / groupSlots) (aheadGroups + 1)) s else s

end State

end Perfcached.Reservation
