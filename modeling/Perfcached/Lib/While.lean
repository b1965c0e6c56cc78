import Mathlib.Tactic.Common

/-!
# Perfcached.Lib.While

Loops that need not end.

A loop is a body `σ → Pass σ ρ`: one pass either goes round again from a new
state or leaves with a result. `run` iterates a body under a bound on the number
of passes; `Returns body s r` says that *some* bound is enough and the loop then
leaves with `r`. A loop that spins returns nothing, under no bound.

The rules are the ones a proof about a loop uses: one pass of unfolding
(`returns_leave`, `returns_again`), the bound may be raised (`run_mono`), what
a loop returns does not depend on it (`Returns.det`), and a loop with an invariant and
a variant leaves under any bound above the variant (`run_of_variant`).
-/

namespace Perfcached.While

universe u v

variable {σ : Type u} {ρ : Type v}

/-- What one pass of a loop body does. -/
inductive Pass (σ : Type u) (ρ : Type v)
  /-- Go round again from `s`. -/
  | again (s : σ)
  /-- Leave the loop with `r`. -/
  | leave (r : ρ)

/-- At most `n` passes of the loop; `none` is "still running". -/
def run (body : σ → Pass σ ρ) : Nat → σ → Option ρ
  | 0, _ => none
  | n + 1, s =>
    match body s with
    | .again s' => run body n s'
    | .leave r => some r

/-- The loop, entered at `s`, leaves with `r`. -/
def Returns (body : σ → Pass σ ρ) (s : σ) (r : ρ) : Prop := ∃ n, run body n s = some r

/-- The loop, entered at `s`, leaves. -/
def Ends (body : σ → Pass σ ρ) (s : σ) : Prop := ∃ r, Returns body s r

variable {body : σ → Pass σ ρ} {s s' : σ} {r r' : ρ}

/-- More fuel does not change a result. -/
theorem run_mono {n m : Nat} (h : run body n s = some r) (hnm : n ≤ m) : run body m s = some r := by
  induction n generalizing s m with
  | zero => simp [run] at h
  | succ n ih =>
    obtain ⟨m, rfl⟩ : ∃ k, m = k + 1 := ⟨m - 1, by omega⟩
    rw [run] at h ⊢
    cases hb : body s with
    | again s' =>
      rw [hb] at h
      exact ih h (by omega)
    | leave r' =>
      rw [hb] at h
      exact h

theorem Returns.det (h : Returns body s r) (h' : Returns body s r') : r = r' := by
  obtain ⟨n, hn⟩ := h
  obtain ⟨m, hm⟩ := h'
  have h1 := run_mono hn (Nat.le_max_left n m)
  have h2 := run_mono hm (Nat.le_max_right n m)
  rw [h1] at h2
  exact Option.some.inj h2

theorem returns_leave (h : body s = .leave r) : Returns body s r :=
  ⟨1, by rw [run, h]⟩

theorem returns_again (h : body s = .again s') : Returns body s r ↔ Returns body s' r := by
  constructor
  · rintro ⟨n, hn⟩
    cases n with
    | zero => simp [run] at hn
    | succ n =>
      rw [run, h] at hn
      exact ⟨n, hn⟩
  · rintro ⟨n, hn⟩
    exact ⟨n + 1, by rw [run, h]; exact hn⟩

theorem ends_leave (h : body s = .leave r) : Ends body s := ⟨r, returns_leave h⟩

theorem ends_again (h : body s = .again s') : Ends body s ↔ Ends body s' :=
  exists_congr fun _ => returns_again h

/-- A pass keeps the invariant and lowers the variant, or leaves as it should. -/
def Pass.Meets (I : σ → Prop) (v : σ → Nat) (Q : ρ → Prop) (s : σ) : Pass σ ρ → Prop
  | .again s' => I s' ∧ v s' < v s
  | .leave r => Q r

/-- The rule of a loop with an invariant and a variant. -/
theorem run_of_variant {I : σ → Prop} {v : σ → Nat} {Q : ρ → Prop}
    (hbody : ∀ s, I s → (body s).Meets I v Q s) {n : Nat} (hI : I s) (hn : v s < n) :
    ∃ r, run body n s = some r ∧ Q r := by
  induction n generalizing s with
  | zero => exact absurd hn (Nat.not_lt_zero _)
  | succ n ih =>
    have hpass := hbody s hI
    rw [run]
    cases hb : body s with
    | again s' =>
      rw [hb] at hpass
      exact ih hpass.1 (Nat.lt_of_lt_of_le hpass.2 (Nat.le_of_lt_succ hn))
    | leave r =>
      rw [hb] at hpass
      exact ⟨r, rfl, hpass⟩

end Perfcached.While
