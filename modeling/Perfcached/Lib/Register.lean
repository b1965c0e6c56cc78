import Mathlib.Order.Lattice
import Mathlib.Tactic.Common

/-!
# Perfcached.Lib.Register

A versioned register with a tombstone.

Writes carry versions and may arrive in any order. A `put` lands only over an older
version and above the newest delete seen; a `del` removes only an older value, and is
remembered; a `touch` changes a value that is there and older, and gives it its
version. Where a put or a delete carries the highest version, it decides: the order
of arrival does not matter (`run_top_put`, `run_top_del`). In rising order of versions
every write takes effect (`run_rising`). A touch that arrives before everything else
leaves no trace (`run_touch_first`).
-/

namespace Perfcached.Register

open List

universe u

variable {α : Type u}

/-- The value with its version, and the version of the newest delete (0: none). -/
structure Reg (α : Type u) where
  cell : Option (Nat × α)
  tomb : Nat

/-- A write of the register. -/
inductive Op (α : Type u)
  | put (ver : Nat) (a : α)
  | del (ver : Nat)
  | touch (ver : Nat) (f : α → α)

/-- The version a write carries. -/
def Op.ver : Op α → Nat
  | put v _ => v
  | del v => v
  | touch v _ => v

def Reg.empty : Reg α := ⟨none, 0⟩

def step (s : Reg α) : Op α → Reg α
  | .put v a =>
    if v ≤ s.tomb then s
    else if s.cell.any (v ≤ ·.1) then s
    else { s with cell := some (v, a) }
  | .del v =>
    { cell := if s.cell.any (v ≤ ·.1) then s.cell else none, tomb := max s.tomb v }
  | .touch v f =>
    match s.cell with
    | some (w, a) => if v ≤ w then s else { s with cell := some (v, f a) }
    | none => s

def run (s : Reg α) (ops : List (Op α)) : Reg α := ops.foldl step s

@[simp] theorem run_nil (s : Reg α) : run s [] = s := rfl

theorem run_append (s : Reg α) (ops ops' : List (Op α)) :
    run s (ops ++ ops') = run (run s ops) ops' := foldl_append

@[simp] theorem run_cons (s : Reg α) (o : Op α) (ops : List (Op α)) :
    run s (o :: ops) = run (step s o) ops := rfl

/-- Everything in the register is older than `v`. -/
structure Below (s : Reg α) (v : Nat) : Prop where
  cell : ∀ w a, s.cell = some (w, a) → w < v
  tomb : s.tomb < v

variable {v : Nat}

theorem below_empty (h : 0 < v) : Below (Reg.empty : Reg α) v :=
  ⟨nofun, h⟩

variable {s : Reg α}

theorem Below.not_any (h : Below s v) : s.cell.any (fun p => decide (v ≤ p.1)) = false := by
  cases hc : s.cell with
  | none => rfl
  | some p => simpa using h.cell p.1 p.2 hc

variable {o : Op α}

theorem step_below (h : Below s v) (ho : o.ver < v) : Below (step s o) v := by
  cases o with
  | put w a =>
    simp only [step]
    split
    · exact h
    · split
      · exact h
      · refine ⟨?_, h.tomb⟩
        rintro w' a' ⟨⟩
        exact ho
  | del w =>
    refine ⟨?_, max_lt h.tomb ho⟩
    intro w' a' he
    obtain ⟨-, he⟩ := Option.ite_none_right_eq_some.mp he
    exact h.cell w' a' he
  | touch w f =>
    simp only [step]
    split
    · next hc =>
      split
      · exact h
      · refine ⟨?_, h.tomb⟩
        rintro w' a' ⟨⟩
        exact ho
    · exact h

variable {ops : List (Op α)}

theorem run_below (h : Below s v) (ho : ∀ o ∈ ops, o.ver < v) : Below (run s ops) v :=
  foldlRecOn (motive := (Below · v)) ops step h fun _ hs o hmem => step_below hs (ho o hmem)

variable {a : α}

/-- A value outlives the writes that are not newer. -/
theorem step_cell (h : s.cell = some (v, a)) (ho : o.ver ≤ v) : (step s o).cell = some (v, a) := by
  cases o with
  | put w | del w | touch w =>
    have hw : w ≤ v := ho
    simp [step, h, hw]

theorem run_cell (h : s.cell = some (v, a)) (ho : ∀ o ∈ ops, o.ver ≤ v) :
    (run s ops).cell = some (v, a) :=
  foldlRecOn (motive := fun s => s.cell = some (v, a)) ops step h
    fun _ hs o hmem => step_cell hs (ho o hmem)

/-- A delete holds against the writes that are not newer. -/
theorem step_dead (h : s.cell = none) (ht : v ≤ s.tomb) (ho : o.ver ≤ v) :
    (step s o).cell = none ∧ v ≤ (step s o).tomb := by
  cases o with
  | put w a =>
    have hw : w ≤ s.tomb := le_trans ho ht
    simp [step, hw, h, ht]
  | del w => exact ⟨by simp [step, h], le_trans ht (le_max_left s.tomb w)⟩
  | touch w f => simp [step, h, ht]

theorem run_dead (h : s.cell = none) (ht : v ≤ s.tomb) (ho : ∀ o ∈ ops, o.ver ≤ v) :
    (run s ops).cell = none :=
  (foldlRecOn (motive := fun s => s.cell = none ∧ v ≤ s.tomb) ops step ⟨h, ht⟩
    fun _ hs o hmem => step_dead hs.1 hs.2 (ho o hmem)).1

/-- A write that carries the highest version finds older ones only, and none that is newer comes
after it. -/
theorem run_top (hs : Below s o.ver) (hmem : o ∈ ops) (htop : ∀ o' ∈ ops, o'.ver < o.ver ∨ o' = o) :
    ∃ s₁ ops', Below s₁ o.ver ∧ run s ops = run (step s₁ o) ops' ∧ ∀ o' ∈ ops', o'.ver ≤ o.ver := by
  induction ops generalizing s with
  | nil => cases hmem
  | cons o₁ ops ih =>
    obtain ⟨htop₁, htop⟩ := forall_mem_cons.mp htop
    rcases htop₁ with hlt | rfl
    · rcases mem_cons.mp hmem with rfl | hmem
      · exact absurd hlt (lt_irrefl _)
      · exact ih (step_below hs hlt) hmem htop
    · refine ⟨s, ops, hs, rfl, fun o' h' => ?_⟩
      rcases htop o' h' with hlt | rfl
      · exact hlt.le
      · exact le_rfl

/-- A put that carries the highest version decides, whenever it arrives. -/
theorem run_top_put (hs : Below s v) (hmem : Op.put v a ∈ ops)
    (htop : ∀ o ∈ ops, o.ver < v ∨ o = .put v a) : (run s ops).cell = some (v, a) := by
  obtain ⟨s₁, ops', hs₁, hrun, hrest⟩ := run_top hs hmem htop
  rw [hrun]
  refine run_cell ?_ hrest
  have ht : ¬ v ≤ s₁.tomb := not_le.mpr hs₁.tomb
  have hold := Below.not_any (v := v) hs₁
  simp [step, ht, hold]

/-- A delete that carries the highest version decides, whenever it arrives. -/
theorem run_top_del (hs : Below s v) (hmem : Op.del v ∈ ops)
    (htop : ∀ o ∈ ops, o.ver < v ∨ o = .del v) : (run s ops).cell = none := by
  obtain ⟨s₁, ops', hs₁, hrun, hrest⟩ := run_top hs hmem htop
  rw [hrun]
  refine run_dead ?_ (le_max_right s₁.tomb v) hrest
  have hold := Below.not_any (v := v) hs₁
  simp [step, hold]

/-- What a write does to a register without versions. -/
def apply (c : Option α) : Op α → Option α
  | .put _ a => some a
  | .del _ => none
  | .touch _ f => c.map f

/-- A write newer than everything in the register takes effect. -/
theorem step_of_below (h : Below s o.ver) :
    (step s o).cell.map Prod.snd = apply (s.cell.map Prod.snd) o := by
  cases o with
  | put v a =>
    have ht : ¬ v ≤ s.tomb := not_le.mpr h.tomb
    have hold := Below.not_any (v := v) h
    simp [step, apply, ht, hold]
  | del v =>
    have hold := Below.not_any (v := v) h
    simp [step, apply, hold]
  | touch v f =>
    cases hc : s.cell with
    | none => simp [step, apply, hc]
    | some p =>
      have hv : ¬ v ≤ p.1 := not_le.mpr (h.cell p.1 p.2 hc)
      simp [step, apply, hc, hv]

/-- In rising order of versions every write takes effect. -/
theorem run_rising (hs : ∀ o ∈ ops, Below s o.ver)
    (hrise : ops.Pairwise fun o o' => o.ver < o'.ver) :
    (run s ops).cell.map Prod.snd = ops.foldl apply (s.cell.map Prod.snd) := by
  induction ops generalizing s with
  | nil => rfl
  | cons o ops ih =>
    rw [pairwise_cons] at hrise
    rw [run_cons, foldl_cons, ← step_of_below (hs o mem_cons_self)]
    refine ih (fun o' h' => ?_) hrise.2
    exact step_below (hs o' (mem_cons_of_mem _ h')) (hrise.1 o' h')

/-- A touch that arrives before everything else leaves no trace. -/
theorem run_touch_first (v : Nat) (f : α → α) (ops : List (Op α)) :
    run Reg.empty (.touch v f :: ops) = run Reg.empty ops := rfl

/-- Newer than what there is, it does leave one if it arrives last. -/
theorem run_touch_first_ne_last {f : α → α} (hbelow : Below (run Reg.empty ops) v)
    (hsome : (run Reg.empty ops).cell.isSome) :
    (run Reg.empty (.touch v f :: ops)).cell ≠ (run Reg.empty (ops ++ [.touch v f])).cell := by
  obtain ⟨⟨w, a⟩, hcell⟩ := Option.isSome_iff_exists.mp hsome
  have hw := hbelow.cell w a hcell
  rw [run_touch_first, run_append, run_cons, run_nil, step, hcell]
  simp only [if_neg (Nat.not_le.mpr hw), ne_eq, Option.some.injEq, Prod.mk.injEq]
  omega

end Perfcached.Register
