import Mathlib.Algebra.BigOperators.Fin
import Mathlib.Algebra.Order.BigOperators.Group.Finset
import Perfcached.Arena.Alloc
import Perfcached.Lib.Machine
import Perfcached.Lib.Shelves

/-!
# Perfcached.Arena.Census

Where every cell is, and which chunks are on the avail stacks.

A cell of a chunk is in one place (`Place`), and a chunk whose flag is set is announced in one place
(`Notice`): on an avail stack, in the hands of the freeing thread that set the flag, or with the
holder of the lock. Both are families of lists in which every item is once. With them go the
classes (`Fits`: who has a cell or a chunk has it under the class it is cut for) and the counts
(`Counted`: what is on a chunk's list and not counted yet is in the hands of a freeing thread).

The classes are what a retirement can break. A freeing thread that has counted its cell and not set
the flag yet still has the chunk in hand when the others drain it; `Quiet` says that there is none.
-/

namespace Perfcached.Arena

open Machine Shelves List Option Function Finset Prod

variable {n : Nat}

/-! ### Places -/

/-- Where a cell may be. -/
inductive Place (n : Nat)
  /-- with a caller -/
  | held
  | stack (t : Fin n) (c : Cls)
  | bump (t : Fin n) (c : Cls)
  /-- on the list of a chunk -/
  | home (ch : Nat)
  /-- with the thread that sends it home -/
  | hand (t : Fin n)
  /-- with the holder of the lock, between its chunk's list and a private stack or a caller -/
  | popped
  deriving DecidableEq

/-- Where a chunk may be announced. -/
inductive Notice (n : Nat)
  | avail (c : Cls)
  | link (t : Fin n)
  | locked
  deriving DecidableEq

def Pc.cell : Pc → Option Nat
  | .push cell _ => some cell
  | _ => none

def Pc.linking : Pc → Option Nat
  | .link ch _ => some ch
  | _ => none

/-- The chunk whose flag it is about to set. -/
def Pc.announcing : Pc → Option Nat
  | .announce ch _ => some ch
  | _ => none

def Pc.counting (ch : Nat) : Pc → Nat
  | .count ch' _ => if ch' = ch then 1 else 0
  | _ => 0

def Locked.cell : Locked n → Option Nat
  | .cellPopped _ _ _ _ cell | .densePopped _ _ cell => some cell
  | _ => none

def Locked.pending (ch : Nat) : Locked n → Nat
  | .cellPopped _ _ _ ch' _ | .densePopped _ ch' _ => if ch' = ch then 1 else 0
  | _ => 0

def Locked.chunks : Locked n → List Nat
  | .availPopped _ _ _ ch => [ch]
  | .scan _ _ _ chs => chs
  | .decided _ _ _ ch _ chs => ch :: chs
  | _ => []

/-- The cells in a place. -/
def contents (s : State n) : Place n → List Nat
  | .held => s.held.map Prod.fst
  | .stack t c => ((s.threads t).cls c).stack
  | .bump t c => ((s.threads t).cls c).bump
  | .home ch => (s.slots ch).freeHead
  | .hand t => (s.threads t).pc.cell.toList
  | .popped => (s.locked.bind Locked.cell).toList

/-- The chunks announced in a place. -/
def notices (s : State n) : Notice n → List Nat
  | .avail c => s.avail c
  | .link t => (s.threads t).pc.linking.toList
  | .locked => (s.locked.map Locked.chunks).getD []

/-- What each slot is cut for. -/
def State.cut (s : State n) (ch : Nat) : Option Cls := (s.slots ch).cls

/-- A cell of a slot that is cut. -/
def IsCell (cut : Nat → Option Cls) (a : Nat) : Prop :=
  ∃ c, cut (cellChunk a) = some c ∧ a ∈ cellsOf (cellChunk a) c

/-! ### Classes -/

/-- What a thread in `cell_home` has is of the class it read. -/
def Pc.Fits (cut : Nat → Option Cls) : Pc → Prop
  | .idle => True
  | .push cell c => cut (cellChunk cell) = some c
  | .count ch c | .announce ch c | .link ch c => cut ch = some c

/-- What the holder of the lock has is of the class it works on. -/
def Locked.Fits (cut : Nat → Option Cls) : Locked n → Prop
  | .refill _ _ _ | .tick _ | .current _ _ _ => True
  | .availPopped _ c _ ch => cut ch = some c
  | .cellPopped _ c _ ch cell | .densePopped c ch cell => cut ch = some c ∧ cellChunk cell = ch
  | .scan c _ _ chs => ∀ ch ∈ chs, cut ch = some c
  | .decided c _ _ ch _ chs => cut ch = some c ∧ ∀ ch ∈ chs, cut ch = some c
  | .unflagged c _ _ ch | .drained c _ ch => cut ch = some c

structure Thread.Fits (cut : Nat → Option Cls) (th : Thread) : Prop where
  stack : ∀ c, ∀ a ∈ (th.cls c).stack, cut (cellChunk a) = some c
  bump : ∀ c, ∀ a ∈ (th.cls c).bump, cut (cellChunk a) = some c
  pc : th.pc.Fits cut

structure Fits (s : State n) : Prop where
  held : ∀ p ∈ s.held, s.cut (cellChunk p.1) = some p.2
  threads : ∀ t, (s.threads t).Fits s.cut
  locked : ∀ l ∈ s.locked, l.Fits s.cut
  avail : ∀ c, ∀ ch ∈ s.avail c, s.cut ch = some c
  cur : ∀ c, ∀ ch ∈ s.cur c, s.cut ch = some c
  home : ∀ ch, ∀ a ∈ (s.slots ch).freeHead, cellChunk a = ch
  cells : ∀ ch c, s.cut ch = some c → (s.slots ch).cells = cells c

/-! ### Counts -/

/-- The threads that put a cell on the chunk's list and have not counted it. -/
def counting (s : State n) (ch : Nat) : Nat := ∑ t, (s.threads t).pc.counting ch

/-- The count is what is on the list, but for what is under way. -/
def Counted (s : State n) (ch : Nat) : Prop :=
  (s.slots ch).nfree + counting s ch =
    (s.slots ch).freeHead.length + ((s.locked.map (Locked.pending ch)).getD 0 : Nat)

/-- What the holder of the lock has made sure of. -/
def Ready (s : State n) : Locked n → Prop
  | .refill t c _ | .availPopped t c _ _ | .cellPopped t c _ _ _ =>
    ((s.threads t).cls c).bump = []
  | .decided _ _ _ ch true _ | .drained _ _ ch => (s.slots ch).nfree = (s.slots ch).cells
  | _ => True

structure Inv (s : State n) : Prop where
  places : Shelved (contents s) (IsCell s.cut)
  notices : Shelved (notices s) fun ch => (s.slots ch).inAvail = true
  fits : Fits s
  counted : ∀ ch, Counted s ch
  ready : ∀ l ∈ s.locked, Ready s l

/-! ### The parts of the state -/

section Parts

variable {s : State n} {t : Fin n} {c : Cls} {ch : Nat} {v : Chunk} {q : Private} {pc : Pc}

open State

@[simp] theorem cls_setPc (t' : Fin n) :
    ((s.setPc t pc).threads t').cls = (s.threads t').cls := by
  by_cases h : t' = t
  · subst h
    simp [setPc]
  · simp [setPc, h]

@[simp] theorem pc_setPrivate (t' : Fin n) :
    ((s.setPrivate t c q).threads t').pc = (s.threads t').pc := by
  by_cases h : t' = t
  · subst h
    simp [setPrivate]
  · simp [setPrivate, h]

theorem cls_setPrivate (t' : Fin n) (c' : Cls) : ((s.setPrivate t c q).threads t').cls c' =
    if t' = t ∧ c' = c then q else (s.threads t').cls c' := by
  by_cases h : t' = t
  · subst h
    simp [setPrivate, update_apply]
  · simp [setPrivate, h]

/-- Only what is in the thread's hand changes. -/
@[simp] theorem contents_setPc (p : Place n) :
    contents (s.setPc t pc) p = if p = .hand t then pc.cell.toList else contents s p := by
  cases p with
  | hand t' =>
    by_cases h : t' = t
    · subst h
      simp [contents, setPc]
    · simp [contents, setPc, h]
  | stack | bump => simp [contents]
  | held | home | popped => simp [contents, setPc]

/-- Only the cells at home in the chunk change. -/
@[simp] theorem contents_setChunk (p : Place n) :
    contents (s.setChunk ch v) p = if p = .home ch then v.freeHead else contents s p := by
  cases p with
  | home ch' =>
    by_cases h : ch' = ch
    · subst h
      simp [contents, setChunk]
    · simp [contents, setChunk, h]
  | held | stack | bump | hand | popped => simp [contents, setChunk]

@[simp] theorem contents_setPrivate (p : Place n) :
    contents (s.setPrivate t c q) p =
      if p = .stack t c then q.stack else if p = .bump t c then q.bump else contents s p := by
  cases p with
  | stack => simp [contents, cls_setPrivate, apply_ite Private.stack]
  | bump => simp [contents, cls_setPrivate, apply_ite Private.bump]
  | hand => simp [contents]
  | held | home | popped => simp [contents, setPrivate]

@[simp] theorem contents_setStack (xs : List Nat) (p : Place n) :
    contents (s.setStack t c xs) p = if p = .stack t c then xs else contents s p := by
  rw [setStack, contents_setPrivate]
  by_cases h : p = .bump t c
  · subst h
    simp [contents]
  · rw [if_neg h]

@[simp] theorem contents_setBump (xs : List Nat) (p : Place n) :
    contents (s.setBump t c xs) p = if p = .bump t c then xs else contents s p := by
  rw [setBump, contents_setPrivate]
  by_cases h : p = .stack t c
  · subst h
    simp [contents]
  · rw [if_neg h]

@[simp] theorem contents_setAvail (chs : List Nat) : contents (s.setAvail c chs) = contents s := rfl

@[simp] theorem contents_setCur (o : Option Nat) : contents (s.setCur c o) = contents s := rfl

@[simp] theorem contents_setHeld (held : List (Nat × Cls)) (p : Place n) :
    contents (s.setHeld held) p = if p = .held then held.map fst else contents s p := by
  cases p <;> simp [contents, setHeld]

@[simp] theorem contents_setLocked (l : Option (Locked n)) (p : Place n) :
    contents (s.setLocked l) p =
      if p = .popped then (l.bind Locked.cell).toList else contents s p := by
  cases p <;> simp [contents, setLocked]

/-- Only what the thread announces changes. -/
@[simp] theorem notices_setPc (q : Notice n) :
    notices (s.setPc t pc) q = if q = .link t then pc.linking.toList else notices s q := by
  cases q with
  | link t' =>
    by_cases h : t' = t
    · subst h
      simp [notices, setPc]
    · simp [notices, setPc, h]
  | avail | locked => simp [notices, setPc]

@[simp] theorem notices_setChunk : notices (s.setChunk ch v) = notices s := rfl

theorem contents_setPc_same (hcell : pc.cell = (s.threads t).pc.cell) :
    contents (s.setPc t pc) = contents s := by
  funext p
  by_cases hp : p = .hand t
  · rw [contents_setPc, hp, if_pos rfl, hcell]
    rfl
  · rw [contents_setPc, if_neg hp]

theorem contents_setChunk_same (hhead : v.freeHead = (s.slots ch).freeHead) :
    contents (s.setChunk ch v) = contents s := by
  funext p
  by_cases hp : p = .home ch
  · rw [contents_setChunk, hp, if_pos rfl, hhead]
    rfl
  · rw [contents_setChunk, if_neg hp]

theorem notices_setPc_same (hlink : pc.linking = (s.threads t).pc.linking) :
    notices (s.setPc t pc) = notices s := by
  funext q
  by_cases hq : q = .link t
  · rw [notices_setPc, hq, if_pos rfl, hlink]
    rfl
  · rw [notices_setPc, if_neg hq]

/-- A step of `cell_home` that leaves its cell where it is. -/
theorem contents_home_same (hhead : v.freeHead = (s.slots ch).freeHead)
    (hcell : pc.cell = (s.threads t).pc.cell) :
    contents ((s.setChunk ch v).setPc t pc) = contents s := by
  rw [contents_setPc_same (s := s.setChunk ch v) hcell, contents_setChunk_same hhead]

theorem notices_home_same (hlink : pc.linking = (s.threads t).pc.linking) :
    notices ((s.setChunk ch v).setPc t pc) = notices s := by
  rw [notices_setPc_same (s := s.setChunk ch v) hlink, notices_setChunk]

@[simp] theorem notices_setPrivate : notices (s.setPrivate t c q) = notices s := by
  funext q'
  cases q' with
  | link => simp [notices]
  | avail | locked => rfl

@[simp] theorem notices_setAvail (chs : List Nat) (q : Notice n) :
    notices (s.setAvail c chs) q = if q = .avail c then chs else notices s q := by
  cases q with
  | avail c' =>
    by_cases h : c' = c
    · subst h
      simp [notices, setAvail]
    · simp [notices, setAvail, h]
  | link | locked => simp [notices, setAvail]

@[simp] theorem notices_setCur (o : Option Nat) : notices (s.setCur c o) = notices s := rfl

@[simp] theorem notices_setHeld (held : List (Nat × Cls)) : notices (s.setHeld held) = notices s :=
  rfl

@[simp] theorem notices_setLocked (l : Option (Locked n)) (q : Notice n) :
    notices (s.setLocked l) q =
      if q = .locked then (l.map Locked.chunks).getD [] else notices s q := by
  cases q <;> simp [notices, setLocked]

theorem slots_setChunk_self : (s.setChunk ch v).slots ch = v := by
  simp [setChunk]

theorem slots_setChunk_ne {ch' : Nat} (h : ch' ≠ ch) :
    (s.setChunk ch v).slots ch' = s.slots ch' := by
  simp [setChunk, h]

theorem threads_setPc_self : (s.setPc t pc).threads t = ⟨(s.threads t).cls, pc⟩ :=
  update_self t _ s.threads

theorem threads_setPrivate_self : (s.setPrivate t c q).threads t =
    { s.threads t with cls := update (s.threads t).cls c q } :=
  update_self t _ s.threads

/-- What a thread's place in `cell_home` adds up to. -/
theorem sum_update (f : Fin n → Thread) (th : Thread) (g : Thread → Nat) :
    (∑ t', g (update f t th t')) + g (f t) = (∑ t', g (f t')) + g th := by
  rw [← add_sum_erase univ (fun t' => g (update f t th t'))
      (mem_univ t), ← add_sum_erase univ (fun t' => g (f t'))
      (mem_univ t)]
  have hrest : ∑ t' ∈ univ.erase t, g (update f t th t') =
      ∑ t' ∈ univ.erase t, g (f t') := by
    refine sum_congr rfl fun t' ht' => ?_
    rw [update_of_ne (ne_of_mem_erase ht')]
  rw [hrest, update_self]
  omega

theorem counting_setPc (ch : Nat) : counting (s.setPc t pc) ch + (s.threads t).pc.counting ch =
      counting s ch + pc.counting ch :=
  sum_update s.threads { s.threads t with pc } fun th => th.pc.counting ch

theorem cut_setChunk (hcls : v.cls = s.cut ch) : (s.setChunk ch v).cut = s.cut := by
  funext ch'
  by_cases h : ch' = ch
  · subst h
    simp [cut, setChunk] at hcls ⊢
    exact hcls
  · simp [cut, setChunk, h]

theorem Pc.Fits.mono {cut cut' : Nat → Option Cls} (h : pc.Fits cut)
    (hmono : ∀ ch c, cut ch = some c → cut' ch = some c) : pc.Fits cut' := by
  cases pc with
  | idle => trivial
  | push | count | announce | link => exact hmono _ _ h

theorem Thread.Fits.mono {cut cut' : Nat → Option Cls} {th : Thread} (h : th.Fits cut)
    (hmono : ∀ ch c, cut ch = some c → cut' ch = some c) : th.Fits cut' :=
  ⟨fun c a ha => hmono _ _ (h.stack c a ha), fun c a ha => hmono _ _ (h.bump c a ha),
    h.pc.mono hmono⟩

theorem Thread.Fits.setPrivate {cut : Nat → Option Cls} {th : Thread} (h : th.Fits cut)
    (hstack : ∀ a ∈ q.stack, cut (cellChunk a) = some c)
    (hbump : ∀ a ∈ q.bump, cut (cellChunk a) = some c) :
    Thread.Fits cut { th with cls := update th.cls c q } :=
  ⟨(forall_update_iff th.cls
      fun c q => ∀ a ∈ q.stack, cut (cellChunk a) = some c).mpr ⟨hstack, fun c' _ => h.stack c'⟩,
    (forall_update_iff th.cls
      fun c q => ∀ a ∈ q.bump, cut (cellChunk a) = some c).mpr ⟨hbump, fun c' _ => h.bump c'⟩,
    h.pc⟩

section

variable (h : Fits s)
include h

theorem Fits.setPc (hpc : pc.Fits s.cut) : Fits (s.setPc t pc) :=
  ⟨h.held, (forall_update_iff s.threads fun _ th => th.Fits s.cut).mpr
    ⟨⟨(h.threads t).stack, (h.threads t).bump, hpc⟩, fun t' _ => h.threads t'⟩, h.locked, h.avail,
    h.cur, h.home, h.cells⟩

theorem Fits.setPrivate (hstack : ∀ a ∈ q.stack, s.cut (cellChunk a) = some c)
    (hbump : ∀ a ∈ q.bump, s.cut (cellChunk a) = some c) : Fits (s.setPrivate t c q) :=
  ⟨h.held, (forall_update_iff s.threads fun _ th => th.Fits s.cut).mpr
    ⟨(h.threads t).setPrivate hstack hbump, fun t' _ => h.threads t'⟩, h.locked, h.avail, h.cur,
    h.home, h.cells⟩

theorem Fits.setAvail {chs : List Nat} (hchs : ∀ ch ∈ chs, s.cut ch = some c) :
    Fits (s.setAvail c chs) :=
  ⟨h.held, h.threads, h.locked,
    (forall_update_iff s.avail fun c chs => ∀ ch ∈ chs, s.cut ch = some c).mpr
      ⟨hchs, fun c' _ => h.avail c'⟩, h.cur, h.home, h.cells⟩

theorem Fits.setCur {o : Option Nat} (ho : ∀ ch ∈ o, s.cut ch = some c) : Fits (s.setCur c o) :=
  ⟨h.held, h.threads, h.locked, h.avail,
    (forall_update_iff s.cur fun c o => ∀ ch ∈ o, s.cut ch = some c).mpr
      ⟨ho, fun c' _ => h.cur c'⟩, h.home, h.cells⟩

theorem Fits.setLocked {l : Option (Locked n)} (hl : ∀ l' ∈ l, l'.Fits s.cut) :
    Fits (s.setLocked l) :=
  ⟨h.held, h.threads, hl, h.avail, h.cur, h.home, h.cells⟩

theorem Fits.setHeld {held : List (Nat × Cls)}
    (hheld : ∀ p ∈ held, s.cut (cellChunk p.1) = some p.2) : Fits (s.setHeld held) :=
  ⟨hheld, h.threads, h.locked, h.avail, h.cur, h.home, h.cells⟩

/-- A chunk keeps its class and has only its own cells at home. -/
theorem Fits.setChunk (hcls : v.cls = s.cut ch) (hcells : v.cells = (s.slots ch).cells)
    (hhome : ∀ a ∈ v.freeHead, cellChunk a = ch) : Fits (s.setChunk ch v) := by
  have hcut := cut_setChunk hcls
  refine ⟨hcut ▸ h.held, hcut ▸ h.threads, hcut ▸ h.locked, hcut ▸ h.avail, hcut ▸ h.cur, ?_, ?_⟩
  · exact (forall_update_iff s.slots fun ch v => ∀ a ∈ v.freeHead, cellChunk a = ch).mpr
      ⟨hhome, fun ch' _ => h.home ch'⟩
  · rw [hcut]
    exact (forall_update_iff s.slots
      fun ch v => ∀ c, s.cut ch = some c → v.cells = Arena.cells c).mpr
      ⟨fun c hc => hcells.trans (h.cells ch c hc), fun ch' _ => h.cells ch'⟩

end

end Parts

/-! ### Steps of a thread on its own state -/

section Own

variable {keep : Nat} {s s' : State n} {t : Fin n} {c : Cls} {cell : Nat}

/-- The rest of the state is as it was. -/
structure Own (s s' : State n) (t : Fin n) : Prop where
  slots : s'.slots = s.slots
  avail : s'.avail = s.avail
  cur : s'.cur = s.cur
  locked : s'.locked = s.locked
  others : ∀ t', t' ≠ t → s'.threads t' = s.threads t'

/-- What the holder of the lock relies on: a bump that is empty, a chunk that is full. -/
theorem Ready.congr {l : Locked n} (h : Ready s l) (hbump : ∀ t c, l.thread = some (t, c) →
      ((s'.threads t).cls c).bump = ((s.threads t).cls c).bump)
    (hfull : ∀ ch, l.pending ch = 0 → (s.slots ch).nfree = (s.slots ch).cells →
      (s'.slots ch).nfree = (s'.slots ch).cells) : Ready s' l := by
  cases l with
  | refill t c | availPopped t c | cellPopped t c => exact (hbump t c rfl).trans h
  | decided c cs kept ch retire chs =>
    cases retire with
    | false => trivial
    | true => exact hfull ch rfl h
  | drained c cs ch => exact hfull ch rfl h
  | densePopped | tick | scan | current | unflagged => trivial

/-- A thread that is not in a call is not the one that refills. -/
theorem State.Idle.ne (h : s.Idle t) {l : Locked n} (hl : l ∈ s.locked) {t' : Fin n} {c' : Cls}
    (ht' : l.thread = some (t', c')) : t' ≠ t := by
  intro heq
  subst heq
  exact h.2 l hl (by rw [ht']; rfl)

/-- A thread in no call moves a cell between places of its own and its caller. -/
theorem Inv.own (h : Inv s) (hidle : s.Idle t) (hown : Own s s' t)
    (hlink : (s'.threads t).pc.linking = none)
    (hcount : ∀ ch, (s'.threads t).pc.counting ch = 0)
    (hplaces : Shelved (contents s') (IsCell s.cut))
    (hheld : ∀ p ∈ s'.held, s.cut (cellChunk p.1) = some p.2)
    (hthread : (s'.threads t).Fits s.cut) : Inv s' := by
  have hcut : s'.cut = s.cut := by
    funext ch
    rw [State.cut, State.cut, hown.slots]
  have hthreads : ∀ t', (s'.threads t').Fits s.cut := by
    intro t'
    by_cases ht : t' = t
    · rwa [ht]
    · rw [hown.others t' ht]
      exact h.fits.threads t'
  refine ⟨hcut ▸ hplaces, ?_, ?_, ?_, ?_⟩
  -- the thread had no chunk to link, and has none now
  · refine h.notices.congr (fun q => ?_) fun ch => by rw [hown.slots]
    cases q with
    | avail c => rw [Arena.notices, Arena.notices, hown.avail]
    | link t' =>
      rw [Arena.notices, Arena.notices]
      by_cases ht : t' = t
      · rw [ht, hlink, hidle.1]
        rfl
      · rw [hown.others t' ht]
    | locked => rw [Arena.notices, Arena.notices, hown.locked]
  · refine ⟨?_, ?_, ?_, ?_, ?_, ?_, ?_⟩
    · rwa [hcut]
    · rwa [hcut]
    · rw [hcut, hown.locked]
      exact h.fits.locked
    · rw [hcut, hown.avail]
      exact h.fits.avail
    · rw [hcut, hown.cur]
      exact h.fits.cur
    · rw [hown.slots]
      exact h.fits.home
    · rw [hcut, hown.slots]
      exact h.fits.cells
  · intro ch
    have hsum : counting s' ch = counting s ch := by
      refine sum_congr rfl fun t' _ => ?_
      by_cases ht : t' = t
      · rw [ht, hcount, hidle.1]
        rfl
      · rw [hown.others t' ht]
    rw [Counted, hown.slots, hsum, hown.locked]
    exact h.counted ch
  · intro l hl
    rw [hown.locked] at hl
    -- it is another thread's bump that a refill relies on
    refine (h.ready l hl).congr (fun t' c' ht' => ?_) fun ch _ hfull => ?_
    · rw [hown.others t' (hidle.ne hl ht')]
    · rwa [hown.slots]

/-- A thread's stack and bump are its own. -/
theorem own_setPrivate (q : Private) : Own s (s.setPrivate t c q) t :=
  ⟨rfl, rfl, rfl, rfl, fun _ ht => update_of_ne ht _ _⟩

theorem Own.trans {s₁ : State n} (hown : Own s s₁ t) (hown' : Own s₁ s' t) : Own s s' t :=
  ⟨hown'.slots.trans hown.slots, hown'.avail.trans hown.avail, hown'.cur.trans hown.cur,
    hown'.locked.trans hown.locked, fun t' ht => (hown'.others t' ht).trans (hown.others t' ht)⟩

theorem Own.setHeld (hown : Own s s' t) (held : List (Nat × Cls)) : Own s (s'.setHeld held) t :=
  ⟨hown.slots, hown.avail, hown.cur, hown.locked, hown.others⟩

theorem Own.setPc (hown : Own s s' t) (pc : Pc) : Own s (s'.setPc t pc) t :=
  ⟨hown.slots, hown.avail, hown.cur, hown.locked,
    fun t' ht => (update_of_ne ht _ _).trans (hown.others t' ht)⟩

/-- A cell is taken from a place, and is in none. -/
structure Taken (s s₁ : State n) (t : Fin n) (p : Place n) (cell : Nat) : Prop where
  own : Own s s₁ t
  pc : (s₁.threads t).pc = (s.threads t).pc
  perm : (contents s p).Perm (cell :: contents s₁ p)
  rest : ∀ r, r ≠ p → contents s₁ r = contents s r
  held : ∀ p ∈ s₁.held, s.cut (cellChunk p.1) = some p.2
  thread : (s₁.threads t).Fits s.cut

/-- The top cell of a private stack. -/
theorem taken_stack {rest : List Nat} (h : Inv s)
    (hstack : ((s.threads t).cls c).stack = cell :: rest) :
    Taken s (s.setStack t c rest) t (.stack t c) cell := by
  have hfits : Fits (s.setStack t c rest) := by
    refine h.fits.setPrivate (fun a ha => ?_) ((h.fits.threads t).bump c)
    exact (h.fits.threads t).stack c a (hstack ▸ mem_cons_of_mem _ ha)
  have hp : contents s (.stack t c) = cell :: rest := hstack
  exact ⟨own_setPrivate _, pc_setPrivate t, by simp [hp], fun r hr => by simp [hr], h.fits.held,
    hfits.threads t⟩

/-- The next cell of a private bump. -/
theorem taken_bump {rest : List Nat} (h : Inv s)
    (hbump : ((s.threads t).cls c).bump = cell :: rest) :
    Taken s (s.setBump t c rest) t (.bump t c) cell := by
  have hfits : Fits (s.setBump t c rest) := by
    refine h.fits.setPrivate ((h.fits.threads t).stack c) fun a ha => ?_
    exact (h.fits.threads t).bump c a (hbump ▸ mem_cons_of_mem _ ha)
  have hp : contents s (.bump t c) = cell :: rest := hbump
  exact ⟨own_setPrivate _, pc_setPrivate t, by simp [hp], fun r hr => by simp [hr], h.fits.held,
    hfits.threads t⟩

/-- A cell that its caller gives up. -/
theorem taken_held (h : Inv s) (t : Fin n) (hmem : (cell, c) ∈ s.held) :
    Taken s (s.setHeld (s.held.erase (cell, c))) t .held cell := by
  refine ⟨⟨rfl, rfl, rfl, rfl, fun _ _ => rfl⟩, rfl, ?_, fun r hr => by simp [hr],
    fun p hp => h.fits.held p (mem_of_mem_erase hp), h.fits.threads t⟩
  rw [contents_setHeld, if_pos rfl]
  exact (perm_cons_erase hmem).map fst

section Taken

variable {s₁ : State n} {p : Place n}

section

variable (h : Inv s) (hidle : s.Idle t) (htaken : Taken s s₁ t p cell)
include h hidle htaken

/-- It goes to a caller. -/
theorem Inv.hold (hp : p ≠ .held) (hc : s.cut (cellChunk cell) = some c) :
    Inv (s₁.setHeld ((cell, c) :: s₁.held)) := by
  have hpc : (s₁.threads t).pc = .idle := htaken.pc.trans hidle.1
  refine h.own hidle (htaken.own.setHeld _) (congrArg Pc.linking hpc)
    (fun ch => congrArg (Pc.counting ch) hpc) ?_ (forall_mem_cons.mpr ⟨hc, htaken.held⟩)
    htaken.thread
  refine h.places.move p .held cell hp ?_ ?_ fun r hr hr' => ?_
  · rw [contents_setHeld, if_neg hp]
    exact htaken.perm
  · rw [contents_setHeld, if_pos rfl, ← htaken.rest .held hp.symm]
    rfl
  · rw [contents_setHeld, if_neg hr', htaken.rest r hr]

/-- It goes on the private stack of its class. -/
theorem Inv.stacked (hp : p ≠ .stack t c) (hc : s.cut (cellChunk cell) = some c) :
    Inv (s₁.setStack t c (cell :: ((s₁.threads t).cls c).stack)) := by
  have hpc : ((s₁.setStack t c (cell :: ((s₁.threads t).cls c).stack)).threads t).pc = .idle :=
    (pc_setPrivate t).trans (htaken.pc.trans hidle.1)
  refine h.own hidle (htaken.own.trans (own_setPrivate _)) (congrArg Pc.linking hpc)
    (fun ch => congrArg (Pc.counting ch) hpc) ?_ htaken.held ?_
  · refine h.places.move p (.stack t c) cell hp ?_ ?_ fun r hr hr' => ?_
    · rw [contents_setStack, if_neg hp]
      exact htaken.perm
    · rw [contents_setStack, if_pos rfl, ← htaken.rest (.stack t c) hp.symm]
      rfl
    · rw [contents_setStack, if_neg hr', htaken.rest r hr]
  · rw [State.setStack, threads_setPrivate_self]
    exact htaken.thread.setPrivate (forall_mem_cons.mpr ⟨hc, htaken.thread.stack c⟩)
      (htaken.thread.bump c)

/-- It is in the hand of the thread that sends it home. -/
theorem Inv.cellHome (hp : p ≠ .hand t) (hstep : s₁.cellHome t cell = some s') : Inv s' := by
  obtain ⟨c, hc, rfl⟩ := map_eq_some_iff.mp hstep
  rw [State.clsOf, htaken.own.slots] at hc
  have hpc : ((s₁.setPc t (.push cell c)).threads t).pc = .push cell c :=
    congrArg Thread.pc threads_setPc_self
  refine h.own hidle (htaken.own.setPc _) (congrArg Pc.linking hpc)
    (fun ch => congrArg (Pc.counting ch) hpc) ?_ htaken.held ?_
  · refine h.places.move p (.hand t) cell hp ?_ ?_ fun r hr hr' => ?_
    · rw [contents_setPc, if_neg hp]
      exact htaken.perm
    · have hhand : contents s (.hand t) = [] := by
        rw [contents, hidle.1]
        rfl
      rw [contents_setPc, if_pos rfl, hhand]
      rfl
    · rw [contents_setPc, if_neg hr', htaken.rest r hr]
  · rw [threads_setPc_self]
    exact ⟨htaken.thread.stack, htaken.thread.bump, hc⟩

end

end Taken

end Own

/-! ### A cell goes home -/

section Home

variable {s s' : State n} {t : Fin n} {c : Cls} {ch a : Nat} {v : Chunk} {pc : Pc}

/-- The cells at home are among those the chunk is cut into. -/
theorem Inv.mem_cellsOf (h : Inv s) (hcut : s.cut ch = some c) (ha : a ∈ (s.slots ch).freeHead) :
    a ∈ cellsOf ch c := by
  obtain ⟨c', hc', hmem⟩ := h.places.mem (p := .home ch) ha
  rw [h.fits.home ch a ha] at hc' hmem
  rwa [some.inj (hc'.symm.trans hcut)] at hmem

/-- A chunk has no more cells at home than it is cut into. -/
theorem Inv.length_home_le (h : Inv s) (hcut : s.cut ch = some c) :
    (s.slots ch).freeHead.length ≤ (s.slots ch).cells := by
  have hsub : (s.slots ch).freeHead ⊆ cellsOf ch c := fun a ha => h.mem_cellsOf hcut ha
  have hle := (subperm_of_subset (h.places.nodup (.home ch)) hsub).length_le
  rwa [length_cellsOf, ← h.fits.cells ch c hcut] at hle

theorem counting_le (t : Fin n) (ch : Nat) : (s.threads t).pc.counting ch ≤ counting s ch :=
  single_le_sum (f := fun t => (s.threads t).pc.counting ch) (fun _ _ => Nat.zero_le _)
    (mem_univ t)

/-- A step of `cell_home` on its chunk. -/
theorem Inv.homeward (h : Inv s) (hcls : v.cls = s.cut ch) (hcells : v.cells = (s.slots ch).cells)
    (hhome : ∀ a ∈ v.freeHead, cellChunk a = ch) (hpc : pc.Fits s.cut)
    (hcount : v.nfree + pc.counting ch + (s.slots ch).freeHead.length =
      (s.slots ch).nfree + (s.threads t).pc.counting ch + v.freeHead.length)
    (hother : ∀ ch', ch' ≠ ch → pc.counting ch' = (s.threads t).pc.counting ch')
    (hfull : ∀ l ∈ s.locked, l.pending ch = 0 → (s.slots ch).nfree = (s.slots ch).cells →
      v.nfree = v.cells)
    (hplaces : Shelved (contents ((s.setChunk ch v).setPc t pc)) (IsCell s.cut))
    (hnotices : Shelved (Arena.notices ((s.setChunk ch v).setPc t pc)) fun ch' =>
      ((s.setChunk ch v).slots ch').inAvail = true) :
    Inv ((s.setChunk ch v).setPc t pc) := by
  have hcut : (s.setChunk ch v).cut = s.cut := cut_setChunk hcls
  refine ⟨?_, hnotices, (h.fits.setChunk hcls hcells hhome).setPc (hcut ▸ hpc), ?_, ?_⟩
  · show Shelved _ (IsCell (s.setChunk ch v).cut)
    rwa [hcut]
  · intro ch'
    have hsum : counting ((s.setChunk ch v).setPc t pc) ch' + (s.threads t).pc.counting ch' =
        counting s ch' + pc.counting ch' := counting_setPc ch'
    have hold := h.counted ch'
    unfold Counted at hold ⊢
    by_cases heq : ch' = ch
    · subst heq
      have hv : ((s.setChunk ch' v).setPc t pc).slots ch' = v := slots_setChunk_self
      rw [hv]
      simp only [State.setPc, State.setChunk] at hsum hold ⊢
      omega
    · have hv : ((s.setChunk ch v).setPc t pc).slots ch' = s.slots ch' := slots_setChunk_ne heq
      rw [hother ch' heq] at hsum
      rw [hv]
      simp only [State.setPc, State.setChunk] at hsum hold ⊢
      omega
  · intro l hl
    refine (h.ready l hl).congr (fun t' c' _ => ?_) fun ch' hpending hnfree => ?_
    · rw [cls_setPc]
      rfl
    · by_cases heq : ch' = ch
      · subst heq
        have hv : ((s.setChunk ch' v).setPc t pc).slots ch' = v := slots_setChunk_self
        rw [hv]
        exact hfull l hl hpending hnfree
      · have hv : ((s.setChunk ch v).setPc t pc).slots ch' = s.slots ch' := slots_setChunk_ne heq
        rwa [hv]

/-- Only the flag of a chunk matters to its notices. -/
theorem inAvail_setChunk (hflag : v.inAvail = (s.slots ch).inAvail) (ch' : Nat) :
    ((s.setChunk ch v).slots ch').inAvail = true ↔ (s.slots ch').inAvail = true := by
  by_cases heq : ch' = ch
  · rw [heq, slots_setChunk_self, hflag]
  · rw [slots_setChunk_ne heq]

section

variable (h : Inv s)
include h

/-- The cell is on the list, and not counted yet. -/
theorem Inv.push {cell : Nat} (hpc : (s.threads t).pc = .push cell c) :
    Inv ((s.setChunk (cellChunk cell) { s.slots (cellChunk cell) with
      freeHead := cell :: (s.slots (cellChunk cell)).freeHead }).setPc t
        (.count (cellChunk cell) c)) := by
  have hfits := (h.fits.threads t).pc
  rw [hpc] at hfits
  have hhand : contents s (.hand t) = [cell] := by
    rw [contents, hpc]
    rfl
  refine h.homeward rfl rfl (forall_mem_cons.mpr ⟨rfl, h.fits.home _⟩) hfits ?_ ?_
    (fun _ _ _ => id) ?_ ?_
  · simp [hpc, Pc.counting]
    omega
  · intro ch' hne
    simp [hpc, Pc.counting, hne.symm]
  · exact h.places.move (.hand t) (.home (cellChunk cell)) cell (by simp)
      (by simp [hhand, Pc.cell]) (by simp; rfl) fun r hr hr' => by simp [hr, hr']
  · rw [notices_home_same (by rw [hpc]; rfl)]
    exact h.notices.congr (fun _ => rfl) (inAvail_setChunk rfl)

/-- The chunk's list and its notices stay as they are. -/
theorem Inv.count (hpc : (s.threads t).pc = .count ch c) (hpc' : pc.Fits s.cut)
    (hcell : pc.cell = none) (hlink : pc.linking = none) (hcount : ∀ ch, pc.counting ch = 0) :
    Inv ((s.setChunk ch { s.slots ch with nfree := (s.slots ch).nfree + 1 }).setPc t pc) := by
  have hfits := (h.fits.threads t).pc
  rw [hpc] at hfits
  have hold : ∀ ch', (s.threads t).pc.counting ch' = if ch = ch' then 1 else 0 := by
    intro ch'
    rw [hpc]
    rfl
  refine h.homeward rfl rfl (h.fits.home ch) hpc' ?_ ?_ ?_ ?_ ?_
  · rw [hold, hcount, if_pos rfl]
    simp
  · intro ch' hne
    rw [hold, hcount, if_neg hne.symm]
  · -- the count is not full: the cell on the list is not in it
    intro l hl hpending hfull
    have hcounted := h.counted ch
    have hle := h.length_home_le hfits
    have hone := counting_le (s := s) t ch
    simp only [Counted, mem_def.mp hl, map_some, getD_some, hpending, hfull] at hcounted
    rw [hold, if_pos rfl] at hone
    omega
  · rw [contents_home_same (by rfl) (by rw [hcell, hpc]; rfl)]
    exact h.places
  · rw [notices_home_same (by rw [hlink, hpc]; rfl)]
    exact h.notices.congr (fun _ => rfl) (inAvail_setChunk rfl)

/-- Another thread has set the flag first. -/
theorem Inv.unannounced (hpc : (s.threads t).pc = .announce ch c) : Inv (s.setPc t .idle) := by
  -- a step on its chunk that leaves the chunk
  have hsame : (s.setChunk ch (s.slots ch)).setPc t .idle = s.setPc t .idle := by
    rw [State.setChunk, update_eq_self]
  rw [← hsame]
  refine h.homeward rfl rfl (h.fits.home ch) trivial ?_ ?_ (fun _ _ _ => id) ?_ ?_
  · rw [hpc]
    rfl
  · intro ch' _
    rw [hpc]
    rfl
  · rw [contents_home_same (by rfl) (by rw [hpc]; rfl)]
    exact h.places
  · rw [notices_home_same (by rw [hpc]; rfl)]
    exact h.notices.congr (fun _ => rfl) (inAvail_setChunk rfl)

/-- The thread that sets the flag has the chunk to link. -/
theorem Inv.announce (hpc : (s.threads t).pc = .announce ch c)
    (hflag : ¬ (s.slots ch).inAvail = true) :
    Inv ((s.setChunk ch { s.slots ch with inAvail := true }).setPc t (.link ch c)) := by
  have hfits := (h.fits.threads t).pc
  rw [hpc] at hfits
  refine h.homeward rfl rfl (h.fits.home ch) hfits ?_ ?_ (fun _ _ _ => id) ?_ ?_
  · rw [hpc]
    rfl
  · intro ch' _
    rw [hpc]
    rfl
  · rw [contents_home_same (by rfl) (by rw [hpc]; rfl)]
    exact h.places
  · have hnone : Arena.notices s (.link t) = [] := by
      rw [Arena.notices, hpc]
      rfl
    -- the flag was clear, so the chunk was announced nowhere
    refine h.notices.put (.link t) [ch] (nodup_singleton ch) ?_ ?_ ?_ ?_
    · exact forall_mem_singleton.mpr hflag
    · simp [hnone, Pc.linking]
    · intro q hq
      simp [hq]
    · intro ch'
      by_cases heq : ch' = ch
      · simp [heq, slots_setChunk_self]
      · simp [heq, slots_setChunk_ne]

/-- The chunk goes on the avail stack of the class the thread read. -/
theorem Inv.link (hpc : (s.threads t).pc = .link ch c) :
    Inv ((s.setAvail c (ch :: s.avail c)).setPc t .idle) := by
  have hfits := (h.fits.threads t).pc
  rw [hpc] at hfits
  have hfits' : Fits (s.setAvail c (ch :: s.avail c)) :=
    h.fits.setAvail (forall_mem_cons.mpr ⟨hfits, h.fits.avail c⟩)
  refine ⟨?_, ?_, hfits'.setPc trivial, ?_, ?_⟩
  · have hsame : contents ((s.setAvail c (ch :: s.avail c)).setPc t .idle) = contents s :=
      contents_setPc_same (congrArg Pc.cell hpc).symm
    rw [hsame]
    exact h.places
  · have hlink : Arena.notices s (.link t) = [ch] := by
      rw [Arena.notices, hpc]
      rfl
    exact h.notices.move (.link t) (.avail c) ch (by simp)
      (by simp [hlink, Pc.linking]) (by simp; rfl) fun r hr hr' => by simp [hr, hr']
  · intro ch'
    have hsum : counting ((s.setAvail c (ch :: s.avail c)).setPc t .idle) ch' +
        (s.threads t).pc.counting ch' = counting s ch' + Pc.counting ch' .idle := counting_setPc ch'
    rw [hpc] at hsum
    have hcounted := h.counted ch'
    rwa [Counted, ← show counting ((s.setAvail c (ch :: s.avail c)).setPc t .idle) ch' =
      counting s ch' from hsum] at hcounted
  · intro l hl
    refine (h.ready l hl).congr (fun t' c' _ => ?_) fun _ _ => id
    rw [cls_setPc]
    rfl

/-- Every step of `cell_home`. -/
theorem Inv.home (hstep : homeStep s t = some s') : Inv s' := by
  have hfits := (h.fits.threads t).pc
  unfold homeStep at hstep
  split at hstep
  · cases hstep
  · rename_i cell c hpc
    cases hstep
    exact h.push hpc
  · rename_i ch c hpc
    cases hstep
    rw [hpc] at hfits
    split
    · exact h.count hpc hfits rfl rfl fun _ => rfl
    · exact h.count hpc trivial rfl rfl fun _ => rfl
  · rename_i ch c hpc
    dsimp only at hstep
    split at hstep
    · cases hstep
      exact h.unannounced hpc
    · rename_i hflag
      cases hstep
      exact h.announce hpc hflag
  · rename_i ch c hpc
    cases hstep
    exact h.link hpc

end

end Home

end Perfcached.Arena
