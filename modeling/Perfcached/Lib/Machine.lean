import Mathlib.Tactic.Common

/-!
# Perfcached.Lib.Machine

Runs of a state machine.

A machine is a partial step function: a step that is not enabled has no result. `Along`
says that every step of a run meets a condition in the state it is taken in. An
invariant that every such step keeps holds after every such run (`run_invariant`).
-/

namespace Perfcached.Machine

open List Option

universe u v

variable {S : Type u} {A : Type v}

def run (step : S → A → Option S) (s : S) : List A → Option S
  | [] => some s
  | a :: as => (step s a).bind fun s' => run step s' as

theorem run_trans {step : S → A → Option S} {s s' s'' : S} {as bs : List A}
    (h : run step s as = some s') (h' : run step s' bs = some s'') :
    run step s (as ++ bs) = some s'' := by
  induction as generalizing s with
  | nil =>
    cases h
    exact h'
  | cons a as ih =>
    obtain ⟨s₁, hs₁, hrest⟩ := bind_eq_some_iff.mp h
    exact bind_eq_some_iff.mpr ⟨s₁, hs₁, ih hrest⟩

/-- Every step of the run meets `ok`, in the state it is taken in. -/
def Along (step : S → A → Option S) (ok : S → A → Prop) (s : S) : List A → Prop
  | [] => True
  | a :: as => ok s a ∧ ((step s a).elim True fun s' => Along step ok s' as)

instance decidableAlong (step : S → A → Option S) (ok : S → A → Prop)
    [∀ s a, Decidable (ok s a)] : ∀ s as, Decidable (Along step ok s as)
  | _, [] => isTrue trivial
  | s, a :: as =>
    have : Decidable ((step s a).elim True fun s' => Along step ok s' as) :=
      match step s a with
      | some s' => decidableAlong step ok s' as
      | none => isTrue trivial
    inferInstanceAs (Decidable (_ ∧ _))

variable {step : S → A → Option S} {ok : S → A → Prop}

/-- An invariant of the steps holds after every run. -/
theorem run_invariant {I : S → Prop}
    (hstep : ∀ s a s', I s → ok s a → step s a = some s' → I s') {s s' : S} {as : List A}
    (hI : I s) (hok : Along step ok s as) (hrun : run step s as = some s') : I s' := by
  induction as generalizing s with
  | nil =>
    cases hrun
    exact hI
  | cons a as ih =>
    obtain ⟨s₁, hs₁, hrest⟩ := bind_eq_some_iff.mp hrun
    have hrest' := hok.2
    rw [hs₁] at hrest'
    exact ih (hstep s a s₁ hI hok.1 hs₁) hrest' hrest

/-- What an invariant says of the steps holds of every step of a run. -/
theorem along_of_invariant {I : S → Prop} {ok' : S → A → Prop}
    (hstep : ∀ s a s', I s → ok s a → step s a = some s' → I s')
    (hok' : ∀ s a, I s → ok s a → ok' s a) {s : S} {as : List A} (hI : I s)
    (hok : Along step ok s as) : Along step ok' s as := by
  induction as generalizing s with
  | nil => trivial
  | cons a as ih =>
    refine ⟨hok' s a hI hok.1, ?_⟩
    have hrest := hok.2
    cases hs : step s a with
    | none => trivial
    | some s' =>
      rw [hs] at hrest
      exact ih (hstep s a s' hI hok.1 hs) hrest

/-- A condition that every action of the run meets, whatever the state. -/
theorem along_of_forall {p : A → Prop} (step : S → A → Option S) (s : S) {as : List A}
    (h : ∀ a ∈ as, p a) : Along step (fun _ a => p a) s as := by
  induction as generalizing s with
  | nil => trivial
  | cons a as ih =>
    refine ⟨h a mem_cons_self, ?_⟩
    cases step s a with
    | none => trivial
    | some s' => exact ih s' fun b hb => h b (mem_cons_of_mem a hb)

theorem along_true (step : S → A → Option S) (s : S) (as : List A) :
    Along step (fun _ _ => True) s as :=
  along_of_forall step s fun _ _ => trivial

theorem Along.and {ok' : S → A → Prop} {s : S} {as : List A} (h : Along step ok s as)
    (h' : Along step ok' s as) : Along step (fun s a => ok s a ∧ ok' s a) s as := by
  induction as generalizing s with
  | nil => trivial
  | cons a as ih =>
    have hrest := h.2
    have hrest' := h'.2
    refine ⟨⟨h.1, h'.1⟩, ?_⟩
    cases hs : step s a with
    | none => trivial
    | some s' =>
      rw [hs] at hrest hrest'
      exact ih hrest hrest'

/-- Where every step from the invariant has a result that keeps it, every run has one. -/
theorem run_total {I : S → Prop}
    (hstep : ∀ s a, I s → ok s a → ∃ s', step s a = some s' ∧ I s') {s : S} (hI : I s)
    {as : List A} (hok : Along step ok s as) : ∃ s', run step s as = some s' ∧ I s' := by
  induction as generalizing s with
  | nil => exact ⟨s, rfl, hI⟩
  | cons a as ih =>
    obtain ⟨s₁, hs₁, hI₁⟩ := hstep s a hI hok.1
    have hrest := hok.2
    rw [hs₁] at hrest
    obtain ⟨s', hrun, hI'⟩ := ih hI₁ hrest
    exact ⟨s', by rw [run, hs₁]; exact hrun, hI'⟩

end Perfcached.Machine
