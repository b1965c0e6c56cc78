import Perfcached.Arena.Cells

/-!
# Perfcached.Arena.Alloc

Allocation, free and reclaim in the arena (`src/core/pcache_arena.c`).

A thread has, for each class, a private stack of cells and the rest of the chunk it cut last; it
takes a cell from there without a lock. When both are empty it refills its stack under the arena
lock from the chunks on the class's avail stack, or cuts a new chunk. A cell goes home in four
steps: onto its chunk's list, into the chunk's count, and, where the count left zero, the chunk is
flagged and put on the avail stack. The reclaim tick, under the lock, retires chunks whose cells are
all home; a retired slot may be cut again for any class.

Each atomic operation is a step, also inside the lock. What a thread does to its own state comes
with the atomic operation before it: `bump_home` moves on past a cell when it sends it home. A
retry of a compare-and-swap is not a step. A count is an `Int`: a cell on its chunk's list can be
taken before it is counted, so the count is short of the list by one for each thread between the
two, and may be below zero.

Which slot a cut takes is left open, and so is when a thread sends private cells home: after enough
frees (`PCACHE_PRIVATE_MAX`), or when told to (`pcache_arena_flush_private`).
-/

namespace Perfcached.Arena

/-- `pcache_chunk_t`. -/
structure Chunk where
  /-- the class it is cut for; `none` is `PCACHE_CLS_FREE` -/
  cls : Option Cls
  cells : Nat
  /-- the cells at home, the last that came first -/
  freeHead : List Nat
  nfree : Int
  inAvail : Bool
  deriving DecidableEq

/-- A thread's state for a class: the cells not handed out yet of the chunk it cut (`bump` and
`left`), and its stack. -/
structure Private where
  bump : List Nat
  stack : List Nat
  deriving DecidableEq

/-- Where a thread stands in `cell_home`, with the class it read from the chunk. -/
inductive Pc
  | idle
  /-- with the cell in hand -/
  | push (cell : Nat) (c : Cls)
  /-- the cell is on the list; the count comes -/
  | count (ch : Nat) (c : Cls)
  /-- the count is 1; the compare-and-swap of the flag comes -/
  | announce (ch : Nat) (c : Cls)
  /-- the flag is set; the push on the avail stack comes -/
  | link (ch : Nat) (c : Cls)
  deriving DecidableEq

structure Thread where
  cls : Cls → Private
  pc : Pc

/-- Where the holder of the arena lock stands. -/
inductive Locked (n : Nat)
  /-- `pcache_cell_alloc` at the top of its loop, with `got` cells so far -/
  | refill (t : Fin n) (c : Cls) (got : Nat)
  /-- a chunk is off the avail stack, its flag not cleared yet -/
  | availPopped (t : Fin n) (c : Cls) (got : Nat) (ch : Nat)
  /-- a cell is off its chunk's list and not counted yet -/
  | cellPopped (t : Fin n) (c : Cls) (got : Nat) (ch cell : Nat)
  /-- the same in `pcache_cell_alloc_dense` -/
  | densePopped (c : Cls) (ch cell : Nat)
  /-- the tick before the classes `cs` -/
  | tick (cs : List Cls)
  /-- before the next chunk of a class's avail stack, which the tick took whole -/
  | scan (c : Cls) (cs : List Cls) (kept : Nat) (chs : List Nat)
  /-- the chunk's count is loaded -/
  | decided (c : Cls) (cs : List Cls) (kept : Nat) (ch : Nat) (retire : Bool) (chs : List Nat)
  /-- before the class's current chunk -/
  | current (c : Cls) (cs : List Cls) (kept : Nat)
  /-- its flag was clear -/
  | unflagged (c : Cls) (cs : List Cls) (kept : Nat) (ch : Nat)
  /-- and its cells all home -/
  | drained (c : Cls) (cs : List Cls) (ch : Nat)
  deriving DecidableEq

structure State (n : Nat) where
  slots : Nat → Chunk
  avail : Cls → List Nat
  cur : Cls → Option Nat
  threads : Fin n → Thread
  locked : Option (Locked n)
  /-- the cells callers hold, with the class they were asked for -/
  held : List (Nat × Cls)

def Locked.thread {n : Nat} : Locked n → Option (Fin n × Cls)
  | .refill t c _ | .availPopped t c _ _ | .cellPopped t c _ _ _ => some (t, c)
  | _ => none

variable {n : Nat}

namespace State

def setChunk (s : State n) (ch : Nat) (v : Chunk) : State n :=
  { s with slots := Function.update s.slots ch v }

def setPc (s : State n) (t : Fin n) (pc : Pc) : State n :=
  { s with threads := Function.update s.threads t { s.threads t with pc } }

def setPrivate (s : State n) (t : Fin n) (c : Cls) (p : Private) : State n :=
  let th := s.threads t
  { s with
    threads := Function.update s.threads t { th with cls := Function.update th.cls c p } }

def setStack (s : State n) (t : Fin n) (c : Cls) (stack : List Nat) : State n :=
  s.setPrivate t c ⟨((s.threads t).cls c).bump, stack⟩

def setBump (s : State n) (t : Fin n) (c : Cls) (bump : List Nat) : State n :=
  s.setPrivate t c ⟨bump, ((s.threads t).cls c).stack⟩

def setAvail (s : State n) (c : Cls) (chs : List Nat) : State n :=
  { s with avail := Function.update s.avail c chs }

def setCur (s : State n) (c : Cls) (ch : Option Nat) : State n :=
  { s with cur := Function.update s.cur c ch }

def setLocked (s : State n) (l : Option (Locked n)) : State n := { s with locked := l }

def setHeld (s : State n) (held : List (Nat × Cls)) : State n := { s with held }

/-- The thread is in no call. -/
def Idle (s : State n) (t : Fin n) : Prop :=
  (s.threads t).pc = .idle ∧ ∀ l ∈ s.locked, l.thread.map Prod.fst ≠ some t
  deriving Decidable

/-- The class of a cell: of its chunk, and in its first byte from when the chunk was cut. -/
def clsOf (s : State n) (cell : Nat) : Option Cls := (s.slots (cellChunk cell)).cls

/-- `cell_home` begins: it reads the class of the chunk. -/
def cellHome (s : State n) (t : Fin n) (cell : Nat) : Option (State n) :=
  (s.clsOf cell).map fun c => s.setPc t (.push cell c)

def chunkRetire (s : State n) (ch : Nat) : State n :=
  let v := s.slots ch
  { s.setChunk ch { v with cls := none, freeHead := [], nfree := 0, inAvail := false } with
    cur := match v.cls with
      | some c => if s.cur c = some ch then Function.update s.cur c none else s.cur
      | none => s.cur }

/-- `carve_chunk`: the whole chunk belongs to the thread. -/
def carveChunk (s : State n) (t : Fin n) (c : Cls) (slot : Nat) : State n :=
  (s.setChunk slot ⟨some c, cells c, [], 0, false⟩).setBump t c (cellsOf slot c)

end State

def pcacheRefillBatch : Nat := 32

/-- The next step of `cell_home`. -/
def homeStep (s : State n) (t : Fin n) : Option (State n) :=
  match (s.threads t).pc with
  | .idle => none
  | .push cell c =>
    let ch := cellChunk cell
    let v := s.slots ch
    some ((s.setChunk ch { v with freeHead := cell :: v.freeHead }).setPc t (.count ch c))
  | .count ch c =>
    let v := s.slots ch
    some ((s.setChunk ch { v with nfree := v.nfree + 1 }).setPc t
      (if v.nfree + 1 = 1 then .announce ch c else .idle))
  | .announce ch c =>
    let v := s.slots ch
    if v.inAvail = true then some (s.setPc t .idle)
    else some ((s.setChunk ch { v with inAvail := true }).setPc t (.link ch c))
  | .link ch c => some ((s.setAvail c (ch :: s.avail c)).setPc t .idle)

/-- The next step of the holder of the lock. `keep` is `reclaim_keep`, and `slot` the free slot that
a cut finds, if any. -/
def lockedStep (keep : Nat) (slot : Option Nat) (s : State n) (l : Locked n) : Option (State n) :=
  match l with
  | .refill t c got =>
    if got < pcacheRefillBatch then
      match s.cur c, s.avail c with
      | some ch, _ =>
        let v := s.slots ch
        match v.freeHead with
        | cell :: rest =>
          some ((s.setChunk ch { v with freeHead := rest }).setLocked
            (some (.cellPopped t c got ch cell)))
        | [] => some (s.setCur c none)
      | none, ch :: rest =>
        some ((s.setAvail c rest).setLocked (some (.availPopped t c got ch)))
      | none, [] =>
        if got = 0 then
          match slot with
          | some slot =>
            if (s.slots slot).cls = none then some ((s.carveChunk t c slot).setLocked none)
            else none
          | none => some (s.setLocked none)
        else some (s.setLocked none)
    else some (s.setLocked none)
  | .availPopped t c got ch =>
    some (((s.setChunk ch { s.slots ch with inAvail := false }).setCur c (some ch)).setLocked
      (some (.refill t c got)))
  | .cellPopped t c got ch cell =>
    let v := s.slots ch
    some (((s.setChunk ch { v with nfree := v.nfree - 1 }).setStack t c
      (cell :: ((s.threads t).cls c).stack)).setLocked (some (.refill t c (got + 1))))
  | .densePopped c ch cell =>
    let v := s.slots ch
    some (((s.setChunk ch { v with nfree := v.nfree - 1 }).setHeld
      ((cell, c) :: s.held)).setLocked none)
  | .tick [] => some (s.setLocked none)
  | .tick (c :: cs) => some ((s.setAvail c []).setLocked (some (.scan c cs 0 (s.avail c))))
  | .scan c cs kept [] => some (s.setLocked (some (.current c cs kept)))
  | .scan c cs kept (ch :: chs) =>
    let v := s.slots ch
    if v.nfree = v.cells then
      some (s.setLocked (some (.decided c cs (kept + 1) ch (decide (keep ≤ kept)) chs)))
    else some (s.setLocked (some (.decided c cs kept ch false chs)))
  | .decided c cs kept ch true chs =>
    some ((s.chunkRetire ch).setLocked (some (.scan c cs kept chs)))
  | .decided c cs kept ch false chs =>
    some ((s.setAvail c (ch :: s.avail c)).setLocked (some (.scan c cs kept chs)))
  | .current c cs kept =>
    match s.cur c with
    | some ch =>
      if (s.slots ch).inAvail = true then some (s.setLocked (some (.tick cs)))
      else some (s.setLocked (some (.unflagged c cs kept ch)))
    | none => some (s.setLocked (some (.tick cs)))
  | .unflagged c cs kept ch =>
    let v := s.slots ch
    if v.nfree = v.cells ∧ keep ≤ kept then some (s.setLocked (some (.drained c cs ch)))
    else some (s.setLocked (some (.tick cs)))
  | .drained _ cs ch => some ((s.chunkRetire ch).setLocked (some (.tick cs)))

inductive Act (n : Nat)
  /-- `pcache_cell_alloc` from the private stack -/
  | takeStack (t : Fin n) (c : Cls)
  /-- `pcache_cell_alloc` from the chunk cut last -/
  | takeBump (t : Fin n) (c : Cls)
  /-- `pcache_cell_alloc` takes the lock -/
  | refill (t : Fin n) (c : Cls)
  /-- `pcache_cell_alloc_dense` takes the lock and pops a cell of a chunk it picks -/
  | dense (c : Cls) (ch : Nat)
  /-- `pcache_arena_reclaim_tick` takes the lock -/
  | tick
  /-- the holder of the lock goes on -/
  | locked (slot : Option Nat)
  /-- `pcache_cell_free` of a cell asked for with a class -/
  | free (t : Fin n) (cell : Nat) (c : Cls)
  /-- `pcache_cell_free_global` -/
  | freeGlobal (t : Fin n) (cell : Nat) (c : Cls)
  /-- a cell of the private stack is sent home -/
  | donate (t : Fin n) (c : Cls)
  /-- `bump_home` of one cell -/
  | bumpHome (t : Fin n) (c : Cls)
  /-- `cell_home` goes on -/
  | home (t : Fin n)
  deriving DecidableEq

def step (keep : Nat) (s : State n) : Act n → Option (State n)
  | .takeStack t c =>
    if s.Idle t then
      match ((s.threads t).cls c).stack with
      | cell :: rest => some ((s.setStack t c rest).setHeld ((cell, c) :: s.held))
      | [] => none
    else none
  | .takeBump t c =>
    let p := (s.threads t).cls c
    if s.Idle t ∧ p.stack = [] then
      match p.bump with
      | cell :: rest => some ((s.setBump t c rest).setHeld ((cell, c) :: s.held))
      | [] => none
    else none
  | .refill t c =>
    let p := (s.threads t).cls c
    if s.Idle t ∧ p.stack = [] ∧ p.bump = [] ∧ s.locked = none then
      some (s.setLocked (some (.refill t c 0)))
    else none
  | .dense c ch =>
    let v := s.slots ch
    if s.locked = none ∧ ch ∈ s.avail c ∧ 0 < v.nfree ∧ v.nfree < v.cells then
      match v.freeHead with
      | cell :: rest =>
        some ((s.setChunk ch { v with freeHead := rest }).setLocked (some (.densePopped c ch cell)))
      | [] => none
    else none
  | .tick =>
    if s.locked = none then some (s.setLocked (some (.tick (List.finRange 27)))) else none
  | .locked slot => s.locked.bind (lockedStep keep slot s)
  | .free t cell c =>
    if s.Idle t ∧ (cell, c) ∈ s.held then
      (s.clsOf cell).map fun c' =>
        (s.setStack t c' (cell :: ((s.threads t).cls c').stack)).setHeld (s.held.erase (cell, c))
    else none
  | .freeGlobal t cell c =>
    if s.Idle t ∧ (cell, c) ∈ s.held then
      (s.setHeld (s.held.erase (cell, c))).cellHome t cell
    else none
  | .donate t c =>
    if s.Idle t then
      match ((s.threads t).cls c).stack with
      | cell :: rest => (s.setStack t c rest).cellHome t cell
      | [] => none
    else none
  | .bumpHome t c =>
    if s.Idle t then
      match ((s.threads t).cls c).bump with
      | cell :: rest => (s.setBump t c rest).cellHome t cell
      | [] => none
    else none
  | .home t => homeStep s t

/-- No slot is cut. -/
def init : State n :=
  ⟨fun _ => ⟨none, 0, [], 0, false⟩, fun _ => [], fun _ => none,
    fun _ => ⟨fun _ => ⟨[], []⟩, .idle⟩, none, []⟩

end Perfcached.Arena
