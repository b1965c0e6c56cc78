import Perfcached.Arena.Reservation
import Perfcached.Lib.Machine

/-!
# Perfcached.Arena.Giveback

The three phases of a give-back (`giveback_tick` in `src/core/pcache_arena.c`), and the arena as a
machine of all that is done to it.

The first phase walks the groups below the chunk frontier, those of the region zone and those of the
tail. A group that qualifies goes off its map and onto a run of consecutive groups; a group of the
tail stays as it is, and the extent of those is what no carve may enter until the third phase. The
pages whose slots are all free go at once.
-/

namespace Perfcached.Reservation

open Arena (pcacheSlot)

/-- What a give-back finds: whether it is on and the cool-off has passed, which slots and pages have
been free for the quiet window, whether the window ahead is wanted, and the bounds on its work. -/
structure Tick where
  due : Bool
  quiet : Nat → Bool
  zquiet : Nat → Bool
  pageQuiet : Nat → Bool
  wanted : Bool
  step : Nat
  floor : Nat
  keep : Nat

/-- The first phase under way: the runs, the last one first, and the bytes they are. -/
structure Plan where
  state : State
  runs : List Run
  planned : Nat

/-- A group goes onto the last run if it extends it, or starts a new one. -/
def addRun (kind : RunKind) (g : Nat) : List Run → List Run
  | [] => [⟨g, 1, kind⟩]
  | r :: rs =>
    if r.kind = kind ∧ r.g0 + r.n = g then { r with n := r.n + 1 } :: rs
    else ⟨g, 1, kind⟩ :: r :: rs

def floorAllows (floor : Nat) (s : State) (amount : Nat) : Bool :=
  floor = 0 || ((amount : Int) ≤ s.bytes && (floor : Int) ≤ s.bytes - amount)

/-- What a walk does with a group. -/
inductive Look
  | stop | skip | take

def walk (look : Plan → Nat → Look) (skip take : Plan → Nat → Plan) : List Nat → Plan → Plan
  | [], P => P
  | g :: gs, P =>
    match look P g with
    | .stop => P
    | .skip => walk look skip take gs (skip P g)
    | .take => walk look skip take gs (take P g)

namespace Plan

/-- The tick's share is spent, or the floor is reached. -/
def spent (T : Tick) (P : Plan) : Bool :=
  T.step < P.planned + hps || !floorAllows T.floor P.state (P.planned + hps)

/-- A group below the chunk frontier: all its slots warm, and quiet. -/
def lookChunk (T : Tick) (P : Plan) (g : Nat) : Look :=
  if punchRunsMax ≤ P.runs.length then .stop
  else if (State.slotsOf g).all fun i => P.state.rwarm i && T.quiet i then
    if P.spent T then .stop else .take
  else .skip

def takeChunk (P : Plan) (g : Nat) : Plan where
  state :=
    { P.state with
      rwarm := fill P.state.rwarm (g * groupSlots) groupSlots false
      nfreeWarm := P.state.nfreeWarm - groupSlots }
  runs := addRun .chunk g P.runs
  planned := P.planned + hps

/-- A group of the region zone, as long as two groups' worth is warm. -/
def lookZone (T : Tick) (P : Plan) (g : Nat) : Look :=
  if punchRunsMax ≤ P.runs.length ∨ P.state.nzfreeWarm < 2 * groupSlots then .stop
  else if (State.slotsOf g).all fun i => P.state.zwarm i && T.zquiet i then
    if P.spent T then .stop else .take
  else .skip

def takeZone (P : Plan) (g : Nat) : Plan where
  state :=
    { P.state with
      zwarm := fill P.state.zwarm (g * groupSlots) groupSlots false
      nzfreeWarm := P.state.nzfreeWarm - groupSlots }
  runs := addRun .zone g P.runs
  planned := P.planned + hps

/-- A group of the tail, if it is committed. -/
def lookTail (T : Tick) (P : Plan) (g : Nat) : Look :=
  if punchRunsMax ≤ P.runs.length ∨ T.step < P.planned + hps then .stop
  else if P.state.hcommit g then .take
  else .skip

def skipTail (P : Plan) (g : Nat) : Plan :=
  { P with state := { P.state with tailNext := g + 1 } }

def takeTail (P : Plan) (g : Nat) : Plan where
  state := { P.state with tailNext := g + 1 }
  runs := addRun .tail g P.runs
  planned := P.planned + hps

/-- The groups of chunks, unless the host has refused one before. -/
def pickChunks (T : Tick) (P : Plan) : Plan :=
  if P.state.givebackOff then P
  else walk (lookChunk T) (fun P _ => P) takeChunk (List.range (P.state.hoff / groupSlots)) P

/-- The groups of the region zone. -/
def pickZone (T : Tick) (P : Plan) : Plan :=
  if P.state.givebackOff = false ∧ 2 * groupSlots < P.state.nzfreeWarm then
    let g := P.state.rtop / groupSlots
    walk (lookZone T) (fun P _ => P) takeZone (List.range' g (P.state.rslots / groupSlots - g)) P
  else P

/-- A window ahead that is not wanted any more: the tail walk goes back to it. -/
def dropWindow (T : Tick) (P : Plan) : Plan :=
  if P.state.aheadFrom ≠ 0 ∧ T.wanted = false then
    { P with state :=
        { P.state with
          tailNext := min P.state.tailNext P.state.aheadFrom
          tailDone := false
          aheadFrom := 0 } }
  else P

/-- The first group of the tail: past the chunk frontier, and past the window ahead while it is
wanted. -/
def tailFrom (T : Tick) (s : State) : Nat :=
  let lo := (s.hoff + groupSlots - 1) / groupSlots
  if T.wanted then max lo (s.hoff / groupSlots + (aheadGroups + 1)) else lo

/-- The groups of the tail. -/
def pickTail (T : Tick) (P : Plan) : Plan :=
  if P.state.givebackOff = false ∧ P.state.tailDone = false then
    let hi := P.state.rtop / groupSlots
    let g := max P.state.tailNext (tailFrom T P.state)
    let P := walk (lookTail T) skipTail takeTail (List.range' g (hi - g))
      { P with state := { P.state with tailNext := g } }
    if hi ≤ P.state.tailNext then { P with state := { P.state with tailDone := true } } else P
  else P

/-- The pages whose slots are all free go to the host, but for those that are kept. What is left of
them stands first. -/
def pickPages (T : Tick) : Nat → Nat → List Nat → Plan → List Nat × Plan
  | _, _, [], P => ([], P)
  | j, kept, pg :: rest, P =>
    if pg < pageSlots ∨ T.pageQuiet j = false then
      let q := pickPages T (j + 1) kept rest P
      (pg :: q.1, q.2)
    else if kept < T.keep then
      let q := pickPages T (j + 1) (kept + 1) rest P
      (pg :: q.1, q.2)
    else if T.step < P.planned + pageBytes then (pg :: rest, P)
    else if floorAllows T.floor P.state (P.planned + pageBytes) then
      pickPages T (j + 1) kept rest
        { P with
          state :=
            { P.state with
              nfreeWarm := P.state.nfreeWarm - pageSlots
              bytes := P.state.bytes - pageBytes }
          planned := P.planned + pageBytes }
    else
      let q := pickPages T (j + 1) kept rest P
      (pg :: q.1, q.2)

end Plan

/-- A run of the tail widens the extent in flight. -/
def widen (fl : Nat × Nat) (r : Run) : Nat × Nat :=
  if r.kind = .tail then
    let lo := r.g0 * groupSlots
    let hi := (r.g0 + r.n) * groupSlots
    (if fl.2 = fl.1 ∨ lo < fl.1 then lo else fl.1, if fl.2 < hi then hi else fl.2)
  else fl

def tailExtent (runs : List Run) : Nat × Nat := runs.foldl widen (0, 0)

/-- The first phase of `giveback_tick`. -/
def beginGiveback (T : Tick) (s : State) : State :=
  if T.due then
    let P := (((⟨s, [], 0⟩ : Plan).pickChunks T).pickZone T).dropWindow T |>.pickTail T
    let q := P.pickPages T 0 0 P.state.pages
    let s' := { q.2.state with pages := q.1 }
    if q.2.runs = [] ∧ q.1.length = P.state.pages.length then s'
    else
      let runs := q.2.runs.reverse
      let fl := tailExtent runs
      { s' with tailFlLo := fl.1, tailFlHi := fl.2, flight := some ⟨runs, 0, false⟩ }
  else s

/-- One call to the host, with its answer. A refusal is the last. -/
def punch (ok : Bool) (s : State) : Option State :=
  match s.flight with
  | some f =>
    if f.done < f.runs.length ∧ f.refused = false then
      some { s with flight := some (if ok then { f with done := f.done + 1 }
        else { f with refused := true }) }
    else none
  | none => none

def Run.groups (r : Run) : List (RunKind × Nat) := (List.range' r.g0 r.n).map fun g => (r.kind, g)

def groupsIn (runs : List Run) : List (RunKind × Nat) := runs.flatMap Run.groups

/-- The host took a group: it is cold. -/
def State.landGroup (s : State) : RunKind × Nat → State
  | (.tail, g) => { s with hcommit := bitClr s.hcommit g }
  | (.zone, g) =>
    { s with
      hcommit := bitClr s.hcommit g
      zcold := fill s.zcold (g * groupSlots) groupSlots true
      nzfreeCold := s.nzfreeCold + groupSlots
      coldBytes := s.coldBytes + hps
      bytes := s.bytes - hps }
  | (.chunk, g) =>
    { s with
      hcommit := bitClr s.hcommit g
      rcold := fill s.rcold (g * groupSlots) groupSlots true
      nfreeCold := s.nfreeCold + groupSlots
      coldBytes := s.coldBytes + hps
      bytes := s.bytes - hps }

/-- The host did not take a group: it is warm as before. -/
def State.backGroup (s : State) : RunKind × Nat → State
  | (.tail, _) => { s with tailDone := false }
  | (.zone, g) =>
    { s with
      zwarm := fill s.zwarm (g * groupSlots) groupSlots true
      nzfreeWarm := s.nzfreeWarm + groupSlots }
  | (.chunk, g) =>
    { s with
      rwarm := fill s.rwarm (g * groupSlots) groupSlots true
      nfreeWarm := s.nfreeWarm + groupSlots }

/-- The third phase. -/
def finish (s : State) : Option State :=
  match s.flight with
  | some f =>
    if f.refused ∨ f.done = f.runs.length then
      let s := { s with tailFlLo := 0, tailFlHi := 0, flight := none }
      let s := (groupsIn (f.runs.take f.done)).foldl State.landGroup s
      let s :=
        if f.done < f.runs.length then
          (groupsIn (f.runs.drop f.done)).foldl State.backGroup { s with givebackOff := true }
        else s
      some s.zoneRaise
    else none
  | none => none

/-! ### The machine -/

/-- What is done to the arena, and what the host answers. -/
inductive Act
  | carve (grant : Nat → Bool) (malloc : Bool)
  | retire (i : Nat)
  | retirePage (j : Nat)
  | regionAlloc (grant : Nat → Bool) (size : Nat)
  | regionSettle (malloc : Bool) (j : Nat)
  | regionFree (owned : Option (Nat × Nat))
  | commitAhead (wanted : Bool) (grant : Nat → Bool)
  | beginGiveback (T : Tick)
  | punch (ok : Bool)
  | finish

/-- One step. A give-back begins when none is in flight: the ticks are one thread's. -/
def step (s : State) : Act → Option State
  | .carve grant malloc => some ((s.slotTake grant malloc).getD s)
  | .retire i => s.retire i
  | .retirePage j => s.retirePage j
  | .regionAlloc grant size => some (s.regionAlloc grant size)
  | .regionSettle malloc j => s.regionSettle malloc j
  | .regionFree owned => s.regionFree owned
  | .commitAhead wanted grant => some (s.commitAhead wanted grant)
  | .beginGiveback T => if s.flight.isSome then none else some (Reservation.beginGiveback T s)
  | .punch ok => Reservation.punch ok s
  | .finish => Reservation.finish s

/-- The arena as `pcache_arena_init` leaves it, with the first `commit` groups committed. -/
def start (rslots maxBytes commit : Nat) : State where
  rslots
  maxBytes
  hoff := 0
  rtop := rslots
  chunk _ := false
  rwarm _ := false
  rcold _ := false
  region _ := false
  zwarm _ := false
  zcold _ := false
  hcommit g := g < commit
  nfreeWarm := 0
  nfreeCold := 0
  nzfreeWarm := 0
  nzfreeCold := 0
  bytes := 0
  coldBytes := 0
  regionsBytes := 0
  pages := []
  regions := []
  pending := []
  tailNext := 0
  tailDone := false
  aheadFrom := 0
  tailFlLo := 0
  tailFlHi := 0
  givebackOff := false
  flight := none

end Perfcached.Reservation
