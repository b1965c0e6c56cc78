import Perfcached.Lib.Bytes
import Perfcached.Pending.Queue

/-!
# Perfcached.Pending.Table

Parked requests (`src/clpend.c`).

A request that waits for other nodes takes a slot of the table and is known by a handle: a bit that
says so, the slot's generation and its index. An answer is found by its handle, and what it means is
decided under the table's lock. A slot lingers after its first positive answer: of every later one
the verdict says whether its sender holds the same record, or which of the two copies has to go.

Each asker compares a later answer with the first it received only. All the same no verdict is
against the greatest copy, two askers that compare the same two holders agree, and equal copies are
not compared (`race_spares_greatest`).
-/

namespace Perfcached.Pending

open Bytes Machine List Option

/-- `PC_DONE_*`. -/
inductive Kind
  | pull | fwdSet | fwdDel | fwdAdd | json | setResume | reconcile | possess | fwdTouch | fwdSetcond
  | fwdDelcond
  deriving DecidableEq

/-- The write that a probe defers. -/
inductive ProbeOp
  | set | add | touch | del

/-- What a probe becomes when a holder answers. -/
def ProbeOp.fwdKind : ProbeOp → Kind
  | .add => .fwdAdd
  | .touch => .fwdTouch
  | .del => .fwdDel
  | .set => .fwdSet

/-- `struct pending`; the slot is free if `req` is 0. -/
structure Slot where
  req : Nat
  gen : Nat
  worker : Int
  expect : Int
  kind : Kind
  answered : Bool
  firstNode : Int
  firstVer : Nat
  firstSum : Nat
  deadlineMs : Int
  col : List Byte
  key : List Byte
  jop : Nat
  probeOp : Option ProbeOp
  probeFwd : Bool
  stash : Option (List Byte)
  amount : Int
  ttlRel : Nat

/-- `struct clpend`, without the high-water marks. -/
structure Clpend where
  pend : List Slot
  used : Nat
  usedKind : Kind → Nat

def Slot.zero : Slot :=
  ⟨0, 0, 0, 0, .pull, false, 0, 0, 0, 0, [], [], 0, none, false, none, 0, 0⟩

def Clpend.new (asked : Int) : Clpend := ⟨List.replicate (clpendInit asked) .zero, 0, fun _ => 0⟩

/-- The handle of a slot in a generation: `PEND_TAG`, 15 bits and 16 bits. -/
def handle (gen i : Nat) : Nat := 2 ^ 31 + gen * 2 ^ 16 + i

/-- The generation after `gen`; 0 is left out. -/
def nextGen (gen : Nat) : Nat := if (gen + 1) % 2 ^ 15 = 0 then 1 else (gen + 1) % 2 ^ 15

variable (p : Clpend)

def Clpend.put (i : Nat) (s : Slot) : Clpend := { p with pend := p.pend.set i s }

/-- `clpend_release_locked` of the slot `i`, which holds `s`. -/
def Clpend.release (i : Nat) (s : Slot) : Clpend :=
  if s.req = 0 then p.put i s
  else
    ⟨p.pend.set i { s with req := 0 }, p.used - 1,
      Function.update p.usedKind s.kind (p.usedKind s.kind - 1)⟩

/-- `clpend_find`: the index of the slot and what it holds. -/
def Clpend.find (req : Nat) : Option (Nat × Slot) :=
  if 2 ^ 31 ≤ req then
    (p.pend[req % 2 ^ 16]?).bind fun s => if s.req = req then some (req % 2 ^ 16, s) else none
  else none

/-! ### A request is parked -/

/-- What the worker deferred when it probes before it places. -/
structure Probe where
  op : ProbeOp
  stash : Option (List Byte)
  amount : Int
  ttlRel : Nat

/-- The arguments of `clpend_alloc`, and what the caller fills in before anything is sent. -/
structure Park where
  kind : Kind
  expect : Int
  extraMs : Int
  worker : Int
  now : Int
  pullTimeoutMs : Int
  col : List Byte
  key : List Byte
  jop : Nat
  probe : Option Probe

def Park.slot (a : Park) (req gen : Nat) : Slot where
  req := req
  gen := gen
  worker := a.worker
  expect := a.expect
  kind := a.kind
  answered := false
  firstNode := 0
  firstVer := 0
  firstSum := 0
  deadlineMs := a.now + a.pullTimeoutMs + a.extraMs
  col := a.col
  key := a.key
  jop := a.jop
  probeOp := a.probe.map Probe.op
  probeFwd := false
  stash := a.probe.bind Probe.stash
  amount := a.probe.elim 0 Probe.amount
  ttlRel := a.probe.elim 0 Probe.ttlRel

/-- `clpend_alloc`: the first free slot and its new handle; none where the table is full. -/
def Clpend.alloc (a : Park) : Option (Clpend × Nat × Nat) :=
  (p.pend.findIdx? fun s => s.req = 0).map fun i =>
    let gen := nextGen (p.pend[i]?.elim 0 Slot.gen)
    let req := handle gen i
    (⟨p.pend.set i (a.slot req gen), p.used + 1,
      Function.update p.usedKind a.kind (p.usedKind a.kind + 1)⟩, i, req)

/-! ### An answer comes -/

/-- `enum clpend_ans`. -/
inductive Ans
  | ignore | wait | hit | miss | race | same | probeFwd | resume | reconcile | possess
  deriving DecidableEq

/-- `struct clpend_ans_out`, zeroed where nothing is said. -/
structure AnsOut where
  worker : Int := 0
  kind : Kind := .pull
  fromNode : Int := 0
  winner : Int := 0
  loser : Int := 0
  loserVer : Nat := 0
  col : List Byte := []
  key : List Byte := []
  probeOp : Option ProbeOp := none
  stash : Option (List Byte) := none
  amount : Int := 0
  ttlRel : Nat := 0

/-- An answer less is awaited, and the slot is freed with the last. -/
def Clpend.settle (i : Nat) (s : Slot) : Clpend :=
  if s.expect - 1 ≤ 0 then p.release i { s with expect := s.expect - 1 }
  else p.put i { s with expect := s.expect - 1 }

/-- The answer of a holder to a probe: the park becomes a forward to it. -/
def Clpend.forward (i : Nat) (s : Slot) (op : ProbeOp) (node : Int) (ver vsum : Nat)
    (deadlineMs : Int) : Clpend × Ans × AnsOut :=
  let usedKind := Function.update p.usedKind s.kind (p.usedKind s.kind - 1)
  ({ p.put i { s with
        kind := op.fwdKind, firstNode := node, firstVer := ver, firstSum := vsum, probeOp := none,
        probeFwd := true, stash := none, expect := 2 ^ 30, deadlineMs } with
      usedKind := Function.update usedKind op.fwdKind (usedKind op.fwdKind + 1) },
    .probeFwd,
    { probeOp := some op, stash := s.stash, amount := s.amount, ttlRel := s.ttlRel,
      fromNode := node, col := s.col, key := s.key, kind := op.fwdKind })

/-- The later answer is newer than the first, or of the lower node where that does not say. -/
def olderFirst (s : Slot) (node : Int) (ver : Nat) : Bool :=
  if ver ≠ 0 ∧ s.firstVer ≠ 0 ∧ ver ≠ s.firstVer then s.firstVer < ver else node < s.firstNode

/-- A positive answer to what is no probe. -/
def Clpend.positive (i : Nat) (s : Slot) (node : Int) (ver vsum : Nat) : Clpend × Ans × AnsOut :=
  if s.answered = false ∧ s.probeFwd = false then
    let s := { s with answered := true, firstNode := node, firstVer := ver, firstSum := vsum }
    let out : AnsOut := { worker := s.worker, fromNode := node, col := s.col, key := s.key }
    if s.kind = .possess then (p.release i s, .possess, out) else (p.settle i s, .hit, out)
  else if ver ≠ 0 ∧ s.firstVer ≠ 0 ∧ ver = s.firstVer ∧
      (vsum = 0 ∨ s.firstSum = 0 ∨ vsum = s.firstSum) then
    (p.settle i s, .same, {})
  else
    let older := olderFirst s node ver
    (p.settle i s, .race,
      { winner := if older then node else s.firstNode
        loser := if older then s.firstNode else node
        loserVer := if ver ≠ 0 ∧ s.firstVer ≠ 0 then (if older then s.firstVer else ver) else 0
        col := s.col, key := s.key })

def Clpend.negative (i : Nat) (s : Slot) : Clpend × Ans × AnsOut :=
  let s' := { s with expect := s.expect - 1 }
  if s'.expect ≤ 0 ∧ s.answered = false then
    match s.probeOp with
    | some op =>
      (p.release i { s' with stash := none }, .resume,
        { worker := s.worker, probeOp := some op, stash := s.stash, amount := s.amount,
          ttlRel := s.ttlRel })
    | none =>
      if s.kind = .reconcile then
        (p.release i s', .reconcile, { worker := s.worker, col := s.col, key := s.key })
      else (p.release i s', .miss, { worker := s.worker })
  else if s'.expect ≤ 0 then (p.release i s', .ignore, {})
  else (p.put i s', .wait, {})

/-- An answer: the handle it names, whether it is positive, of which node, at which version and
with which checksum of the value, and the deadline of a forward. -/
structure Answer where
  req : Nat
  positive : Bool
  node : Int
  ver : Nat
  vsum : Nat
  fwdDeadlineMs : Int

def clpendAnswer (a : Answer) : Clpend × Ans × AnsOut :=
  match p.find a.req with
  | none => (p, .ignore, {})
  | some (i, s) =>
    if a.positive then
      match s.probeOp with
      | some op => p.forward i s op a.node a.ver a.vsum a.fwdDeadlineMs
      | none => p.positive i s a.node a.ver a.vsum
    else p.negative i s

/-- `clpend_retire`: the slot is freed, and its worker is to be told. -/
def clpendRetire (req : Nat) (onlyUnanswered : Bool) : Clpend × Option (Int × Kind) :=
  match p.find req with
  | none => (p, none)
  | some (i, s) =>
    if onlyUnanswered && s.answered then (p, none) else (p.release i s, some (s.worker, s.kind))

/-- One slot of `clpend_expire`: what the slot held if it is due. -/
def clpendExpire (i : Nat) (now : Int) : Clpend × Option Slot :=
  match p.pend[i]? with
  | none => (p, none)
  | some s =>
    if s.req ≠ 0 ∧ s.deadlineMs ≤ now then (p.release i { s with stash := none }, some s)
    else (p, none)

/-- A call under the table's lock. -/
inductive TableAct
  | park (a : Park)
  | answer (a : Answer)
  | retire (req : Nat) (onlyUnanswered : Bool)
  | expire (i : Nat) (now : Int)

def tableStep : TableAct → Option Clpend
  | .park a => some ((p.alloc a).elim p Prod.fst)
  | .answer a => some (clpendAnswer p a).1
  | .retire req only => some (clpendRetire p req only).1
  | .expire i now => some (clpendExpire p i now).1

variable {p}

variable {i : Nat} {s : Slot}

open Clpend

theorem find_eq_some {req : Nat} (h : p.find req = some (i, s)) :
    p.pend[i]? = some s ∧ s.req = req ∧ s.req ≠ 0 := by
  unfold find at h
  split at h
  · obtain ⟨s', hs', heq⟩ := bind_eq_some_iff.mp h
    split at heq
    · cases heq
      exact ⟨hs', ‹_›, by omega⟩
    · cases heq
  · cases h

/-! ### Which copy has to go -/

/-- A copy of a record: its version and the checksum of its value. -/
structure Copy where
  ver : Nat
  vsum : Nat
  deriving DecidableEq

/-- The nodes that hold a record, and their copies. -/
structure Holders where
  holds : List Byte × List Byte → List Int
  copy : List Byte × List Byte → Int → Copy
  ver : ∀ name, ∀ n ∈ holds name, (copy name n).ver ≠ 0
  vsum : ∀ name, ∀ n ∈ holds name, (copy name n).vsum ≠ 0

def Slot.name (s : Slot) : List Byte × List Byte := (s.col, s.key)

/-- The copy of `m` is greater than that of `n`: newer, or of the lower node. -/
def Holders.Beats (H : Holders) (name : List Byte × List Byte) (m n : Int) : Prop :=
  (H.copy name n).ver < (H.copy name m).ver ∨ (H.copy name n).ver = (H.copy name m).ver ∧ m < n

/-- A positive answer is that of a holder and says what it holds. -/
def Honest (H : Holders) (p : Clpend) : TableAct → Prop
  | .answer a => a.positive = true → ∀ i s, p.find a.req = some (i, s) →
      a.node ∈ H.holds s.name ∧ H.copy s.name a.node = ⟨a.ver, a.vsum⟩
  | _ => True

/-- A slot with a first answer has the copy of the holder that gave it. -/
def Slot.Heard (H : Holders) (s : Slot) : Prop :=
  s.answered = true ∨ s.probeFwd = true →
    s.firstNode ∈ H.holds s.name ∧ H.copy s.name s.firstNode = ⟨s.firstVer, s.firstSum⟩

theorem mem_release {x : Slot} (hx : x ∈ (p.release i s).pend) :
    x ∈ p.pend ∨ x = s ∨ x = { s with req := 0 } := by
  unfold release at hx
  split at hx
  · exact (mem_or_eq_of_mem_set hx).imp_right .inl
  · exact (mem_or_eq_of_mem_set hx).imp_right .inr

variable {H : Holders}

section

variable (h : ∀ x ∈ p.pend, x.Heard H) (hs : s.Heard H)
include h hs

theorem heard_release : ∀ x ∈ (p.release i s).pend, x.Heard H := by
  intro x hx
  rcases mem_release hx with hx | rfl | rfl
  · exact h x hx
  · exact hs
  · exact hs

theorem heard_put : ∀ x ∈ (p.put i s).pend, x.Heard H := by
  intro x hx
  rcases mem_or_eq_of_mem_set hx with hx | rfl
  · exact h x hx
  · exact hs

theorem heard_settle : ∀ x ∈ (p.settle i s).pend, x.Heard H := by
  unfold settle
  split
  · exact heard_release (s := { s with expect := s.expect - 1 }) h hs
  · exact heard_put (s := { s with expect := s.expect - 1 }) h hs

end

/-- Every call leaves slots whose first answer is a holder's. -/
theorem heard_step {p' : Clpend} (h : ∀ x ∈ p.pend, x.Heard H) {act : TableAct}
    (hok : Honest H p act) (hs : tableStep p act = some p') : ∀ x ∈ p'.pend, x.Heard H := by
  cases act with
  | park a =>
    cases hs
    cases hfree : p.pend.findIdx? fun s => s.req = 0 with
    | none => simpa [alloc, hfree] using h
    | some i =>
      simp only [alloc, hfree, map_some, elim_some]
      exact heard_put (i := i) h fun hfirst => by simp [Park.slot] at hfirst
  | answer a =>
    cases hs
    unfold clpendAnswer
    split
    · exact h
    · rename_i i s hfind
      have hheard := h s (mem_of_getElem? (find_eq_some hfind).1)
      split
      · rename_i hpos
        have hcopy := hok hpos i s hfind
        split
        · exact heard_put h fun _ => hcopy
        · unfold positive
          split
          · dsimp only
            split
            · exact heard_release h fun _ => hcopy
            · exact heard_settle h fun _ => hcopy
          · split <;> exact heard_settle h hheard
      · unfold negative
        dsimp only
        split
        · split
          · exact heard_release (s := { s with expect := s.expect - 1, stash := none }) h hheard
          · split <;> exact heard_release (s := { s with expect := s.expect - 1 }) h hheard
        · split
          · exact heard_release (s := { s with expect := s.expect - 1 }) h hheard
          · exact heard_put (s := { s with expect := s.expect - 1 }) h hheard
  | retire req only =>
    cases hs
    unfold clpendRetire
    split
    · exact h
    · rename_i i s hfind
      split
      · exact h
      · exact heard_release h (h s (mem_of_getElem? (find_eq_some hfind).1))
  | expire i now =>
    cases hs
    unfold clpendExpire
    split
    · exact h
    · rename_i s hslot
      split
      · exact heard_release (s := { s with stash := none }) h (h s (mem_of_getElem? hslot))
      · exact h

/-- What a verdict of `CLPEND_ANS_RACE` says: the answer is not the first, it is not the same
record, and the loser is the one of the two that is older, or the higher node's. -/
theorem answer_race {a : Answer} (h : (clpendAnswer p a).2.1 = .race) :
    ∃ i s, p.find a.req = some (i, s) ∧ a.positive = true ∧
      (s.answered = true ∨ s.probeFwd = true) ∧
      ¬ (a.ver ≠ 0 ∧ s.firstVer ≠ 0 ∧ a.ver = s.firstVer ∧
        (a.vsum = 0 ∨ s.firstSum = 0 ∨ a.vsum = s.firstSum)) ∧
      ((clpendAnswer p a).2.2.col, (clpendAnswer p a).2.2.key) = s.name ∧
      (clpendAnswer p a).2.2.winner = (if olderFirst s a.node a.ver then a.node else s.firstNode) ∧
      (clpendAnswer p a).2.2.loser =
        (if olderFirst s a.node a.ver then s.firstNode else a.node) := by
  unfold clpendAnswer at h ⊢
  split at h
  · cases h
  · rename_i i s hfind
    refine ⟨i, s, hfind, ?_⟩
    split at h
    · rename_i hpos
      split at h
      · cases h
      · unfold positive at h ⊢
        split at h
        · dsimp only at h
          split at h <;> cases h
        · rename_i hlater
          split at h
          · cases h
          · rename_i hsame
            refine ⟨hpos, by grind, hsame, ?_⟩
            rw [if_neg hlater, if_neg hsame, if_pos hpos]
            exact ⟨rfl, rfl, rfl⟩
    · unfold negative at h
      dsimp only at h
      split at h
      · split at h
        · cases h
        · split at h <;> cases h
      · split at h <;> cases h

/-- The table of an asker that honest answers came to. -/
def Asker (H : Holders) (p : Clpend) : Prop :=
  ∃ asked acts, Along tableStep (Honest H) (.new asked) acts ∧
    run tableStep (.new asked) acts = some p

theorem Asker.heard (h : Asker H p) : ∀ x ∈ p.pend, x.Heard H := by
  obtain ⟨asked, acts, hok, hrun⟩ := h
  refine run_invariant (I := fun p : Clpend => ∀ x ∈ p.pend, x.Heard H)
    (fun _ _ _ h hok hs => heard_step h hok hs) (fun x hx => ?_) hok hrun
  rw [eq_of_mem_replicate hx]
  exact fun hfirst => by simp [Slot.zero] at hfirst

/-- A verdict is against the lesser of two copies of holders that are not the same. -/
theorem Asker.beats (h : Asker H p) {a : Answer} (hok : Honest H p (.answer a))
    (hrace : (clpendAnswer p a).2.1 = .race) {out : AnsOut} (hout : (clpendAnswer p a).2.2 = out) :
    out.winner ∈ H.holds (out.col, out.key) ∧ out.loser ∈ H.holds (out.col, out.key) ∧
      H.Beats (out.col, out.key) out.winner out.loser ∧
      H.copy (out.col, out.key) out.winner ≠ H.copy (out.col, out.key) out.loser := by
  obtain ⟨i, s, hfind, hpos, hlater, hsame, hname, hwin, hlose⟩ := answer_race hrace
  obtain ⟨hfirst, hcopy⟩ := h.heard s (mem_of_getElem? (find_eq_some hfind).1) hlater
  obtain ⟨hnode, hcopy'⟩ := hok hpos i s hfind
  have hver := H.ver _ _ hfirst
  have hvsum := H.vsum _ _ hfirst
  have hver' := H.ver _ _ hnode
  have hvsum' := H.vsum _ _ hnode
  rw [hcopy] at hver hvsum
  rw [hcopy'] at hver' hvsum'
  rw [hout] at hname hwin hlose
  rw [hname, hwin, hlose]
  have hbeats : ∀ m n : Int, H.Beats s.name m n ↔ (H.copy s.name n).ver < (H.copy s.name m).ver ∨
    (H.copy s.name n).ver = (H.copy s.name m).ver ∧ m < n := fun _ _ => Iff.rfl
  unfold olderFirst
  grind

theorem Holders.Beats.asymm {name : List Byte × List Byte} {m n : Int} (h : H.Beats name m n) :
    ¬ H.Beats name n m := by
  unfold Holders.Beats at *
  omega

/-- **Conflict resolution never demotes the best copy.** For any holders of records with nonzero
versions and checksums, and any askers to which their positive answers come in any order: a verdict
of `CLPEND_ANS_RACE` does not name as loser the holder of the greatest copy; two askers that compare
the same two holders name the same loser; and two holders of one version with equal checksums are
not named against each other. -/
theorem race_spares_greatest {H : Holders} {p : Clpend} (hp : Asker H p) {a : Answer}
    (ha : Honest H p (.answer a)) (hrace : (clpendAnswer p a).2.1 = .race) {out : AnsOut}
    (hout : (clpendAnswer p a).2.2 = out) :
    (∀ g, (∀ n ∈ H.holds (out.col, out.key), n ≠ g → H.Beats (out.col, out.key) g n) →
      out.loser ≠ g) ∧
    (∀ q b out', Asker H q → Honest H q (.answer b) → (clpendAnswer q b).2 = (.race, out') →
      (out'.col, out'.key) = (out.col, out.key) →
      (out'.winner = out.winner ∧ out'.loser = out.loser ∨
        out'.winner = out.loser ∧ out'.loser = out.winner) → out'.loser = out.loser) ∧
    H.copy (out.col, out.key) out.winner ≠ H.copy (out.col, out.key) out.loser := by
  obtain ⟨hwin, -, hbeats, hne⟩ := hp.beats ha hrace hout
  refine ⟨fun g hg heq => ?_, fun q b out' hq hb hrace' hname hpair => ?_, hne⟩
  · have hwg : out.winner ≠ g := fun h => hne (by rw [h, heq])
    exact hbeats.asymm (heq ▸ hg _ hwin hwg)
  · rcases hpair with hpair | ⟨hwin', hlose'⟩
    · exact hpair.2
    · obtain ⟨-, -, hbeats', -⟩ := hq.beats hb (congrArg Prod.fst hrace') (congrArg Prod.snd hrace')
      rw [hname, hwin', hlose'] at hbeats'
      exact absurd hbeats' hbeats.asymm

/-- Two nodes hold the record at one version with different values. -/
def forkedCopies : Holders where
  holds := fun _ => [1, 2]
  copy := fun _ n => ⟨5, n.toNat⟩
  ver := by simp
  vsum := by simp

/-- The higher node answers first, and loses. -/
theorem race_spares_greatest_forked :
    ∃ p a out, Asker forkedCopies p ∧ (clpendAnswer p a).2.2 = out ∧ out.loser = 2 ∧
      forkedCopies.copy (out.col, out.key) out.winner ≠
        forkedCopies.copy (out.col, out.key) out.loser := by
  let park : Park := ⟨.pull, 2, 0, 0, 0, 0, [], [], 0, none⟩
  let acts : List TableAct := [.park park, .answer ⟨handle 1 0, true, 2, 5, 2, 0⟩]
  have hasker : Asker forkedCopies ((run tableStep (.new 64) acts).getD (.new 64)) :=
    ⟨64, acts, ⟨trivial, fun _ _ _ _ => ⟨by simp [forkedCopies], rfl⟩, trivial⟩, rfl⟩
  refine ⟨_, ⟨handle 1 0, true, 1, 5, 1, 0⟩, _, hasker, rfl, by decide, ?_⟩
  exact (race_spares_greatest hasker (fun _ _ _ _ => ⟨by simp [forkedCopies], rfl⟩) (by decide)
    rfl).2.2

end Perfcached.Pending
