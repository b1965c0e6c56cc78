import Mathlib

/-!
# Perfcached.Cluster.Term

The mastership term (`src/clterm.c`) and the staging of a map change past the standby
(`src/clsync.c`).

A node with a state directory stores a term before it acts under it. `ok` says whether that
succeeds: a store that fails leaves the file as it was. The staging machine hands out a sequence
for every change, once; what only the statistics count is left out.
-/

namespace Perfcached.Cluster

/-! ### The term -/

/-- `T`: the highest term seen, and the one in the file. -/
structure Term where
  term : Nat
  disk : Nat
  deriving DecidableEq

def pcTermMaxJump : Nat := 1000000

/-- `pc_term_init` with a file that holds `disk` (0 at the first boot). -/
def pcTermInit (disk : Nat) : Term := ⟨disk, disk⟩

def pcTermPlausible (T : Term) (seen : Nat) : Bool :=
  decide (seen ≤ T.term ∨ seen - T.term ≤ pcTermMaxJump)

def pcTermObserve (T : Term) (ok : Bool) (seen : Nat) : Term :=
  if seen ≤ T.term then T
  else if pcTermPlausible T seen = true ∧ ok = true then ⟨seen, seen⟩
  else T

/-- `pc_term_claim`; `none` is its 0. The term is a `uint32_t`. -/
def pcTermClaim (T : Term) (ok : Bool) : Option Nat × Term :=
  let next := (T.term + 1) % 2 ^ 32
  if next < T.term then (none, T)
  else if ok = true then (some next, ⟨next, next⟩)
  else (none, T)

def pcTermMustStepdown (isMaster : Bool) (mine theirs : Nat) : Bool :=
  isMaster && decide (mine < theirs)

theorem pcTermObserve_cases (T : Term) (ok : Bool) (seen : Nat) :
    pcTermObserve T ok seen = T ∨ T.term < seen ∧ pcTermObserve T ok seen = ⟨seen, seen⟩ := by
  unfold pcTermObserve
  split
  · exact .inl rfl
  · rename_i hle
    split
    · exact .inr ⟨Nat.lt_of_not_le hle, rfl⟩
    · exact .inl rfl

/-- A claim gives the term after the highest seen, stored. -/
theorem pcTermClaim_cases (T : Term) (ok : Bool) : pcTermClaim T ok = (none, T) ∨
      pcTermClaim T ok = (some (T.term + 1), ⟨T.term + 1, T.term + 1⟩) := by
  simp only [pcTermClaim]
  by_cases hwrap : (T.term + 1) % 2 ^ 32 < T.term
  · rw [if_pos hwrap]
    exact .inl rfl
  · have hnext : (T.term + 1) % 2 ^ 32 = T.term + 1 := by omega
    rw [if_neg hwrap, hnext]
    split
    · exact .inr rfl
    · exact .inl rfl

/-! ### Epochs -/

/-- The epoch of a map: its term and its sequence. -/
abbrev Epoch := Nat × Nat

/-- `pc_clmap_epoch_cmp` is above zero. -/
def Newer (e e' : Epoch) : Prop := e'.1 < e.1 ∨ e'.1 = e.1 ∧ e'.2 < e.2
  deriving Decidable

/-- The epoch is newer than that of the node's map, or the node has none. -/
def isNewer (mine : Option Epoch) (e : Epoch) : Bool := mine.all fun e' => decide (Newer e e')

/-! ### The staging machine -/

/-- `PC_CLSYNC_*`. -/
inductive ClsyncState
  | idle
  | staged
  | acked
  deriving DecidableEq

/-- `struct pc_clsync`; `hold` is what `hold_pending` guards. -/
structure Clsync where
  state : ClsyncState
  haveBackup : Bool
  term : Nat
  publishedSeq : Nat
  nextSeq : Nat
  stagedSeq : Nat
  hold : Option (Nat × Nat)
  deriving DecidableEq

def pcClsyncInit (term publishedSeq : Nat) : Clsync :=
  ⟨.idle, false, term, publishedSeq, (publishedSeq + 1) % 2 ^ 32, 0, none⟩

def pcClsyncSetBackup (s : Clsync) (haveBackup : Bool) : Clsync := { s with haveBackup }

/-- `pc_clsync_stage`; `none` is -1. -/
def pcClsyncStage (s : Clsync) : Option Clsync :=
  if s.state = .idle then
    some
      { s with
        stagedSeq := s.nextSeq
        nextSeq := (s.nextSeq + 1) % 2 ^ 32
        state := if s.haveBackup then .staged else .acked }
  else none

def pcClsyncAck (s : Clsync) (term seq : Nat) : Clsync :=
  if s.state = .staged ∧ term = s.term ∧ seq = s.stagedSeq then { s with state := .acked } else s

def pcClsyncPublished (s : Clsync) : Clsync :=
  if s.state = .acked then { s with publishedSeq := s.stagedSeq, state := .idle } else s

def pcClsyncAbort (s : Clsync) : Clsync := { s with state := .idle }

def pcClsyncHold (s : Clsync) (term seq : Nat) : Clsync := { s with hold := some (term, seq) }

def pcClsyncSaw (s : Clsync) (term seq : Nat) : Clsync :=
  match s.hold with
  | some (t, q) => if t < term ∨ (term = t ∧ q ≤ seq) then { s with hold := none } else s
  | none => s

def pcClsyncOwed (s : Clsync) : Bool := s.hold.isSome

/-- What the fleet was seen to reach matters to the standby's side only. -/
theorem pcClsyncSaw_fields (s : Clsync) (term seq : Nat) :
    (pcClsyncSaw s term seq).state = s.state ∧ (pcClsyncSaw s term seq).term = s.term ∧
      (pcClsyncSaw s term seq).nextSeq = s.nextSeq ∧
      (pcClsyncSaw s term seq).stagedSeq = s.stagedSeq := by
  unfold pcClsyncSaw
  split
  · split <;> exact ⟨rfl, rfl, rfl, rfl⟩
  · exact ⟨rfl, rfl, rfl, rfl⟩

/-- An ack moves on a change in flight only. -/
theorem pcClsyncAck_fields (s : Clsync) (term seq : Nat) :
    ((pcClsyncAck s term seq).state = .idle ↔ s.state = .idle) ∧
      (pcClsyncAck s term seq).term = s.term ∧ (pcClsyncAck s term seq).nextSeq = s.nextSeq ∧
      (pcClsyncAck s term seq).stagedSeq = s.stagedSeq := by
  unfold pcClsyncAck
  split
  · rename_i h
    simp [h.1]
  · exact ⟨Iff.rfl, rfl, rfl, rfl⟩

end Perfcached.Cluster
