import Mathlib.Tactic.Common

/-!
# Perfcached.Lib.Roll

Members that come and go, each entry numbered.

Entering gives a member the next number; leaving takes no number. A record says of some
numbers that it has them and shows some members; it is sound when it shows every present
member whose number it has (`Sound`). A sound record stays sound however the members come and
go afterwards, since a member that enters has a number the record does not.
-/

namespace Perfcached

open Function

/-- Who is present, the number of each one's last entry and how many entries there were. -/
structure Roll (α : Type*) where
  present : α → Prop
  num : α → Nat
  count : Nat

namespace Roll

variable {α : Type*} [DecidableEq α] {r : Roll α} {x : α} {gets gets' : Nat → Prop}
  {shows shows' : α → Prop}

def enter (r : Roll α) (x : α) : Roll α :=
  { present := fun y => y = x ∨ r.present y
    num := update r.num x (r.count + 1)
    count := r.count + 1 }

def leave (r : Roll α) (x : α) : Roll α :=
  { r with present := fun y => y ≠ x ∧ r.present y }

/-- The present members have numbers that were given. -/
def Numbered (r : Roll α) : Prop := ∀ x, r.present x → r.num x ≤ r.count

omit [DecidableEq α] in
theorem Numbered.leave (h : r.Numbered) : (r.leave x).Numbered :=
  fun y hy => h y hy.2

theorem Numbered.enter (h : r.Numbered) : (r.enter x).Numbered := by
  intro y hy
  by_cases heq : y = x
  · subst heq
    simp [Roll.enter]
  · have hold := h y (hy.resolve_left heq)
    simp only [Roll.enter, update_of_ne heq]
    omega

/-- The record has only numbers that were given, and shows every present member whose number
it has. -/
structure Sound (r : Roll α) (gets : Nat → Prop) (shows : α → Prop) : Prop where
  given : ∀ a, gets a → a ≤ r.count
  shown : ∀ x, r.present x → gets (r.num x) → shows x

omit [DecidableEq α] in
theorem Sound.leave (h : r.Sound gets shows) : (r.leave x).Sound gets shows :=
  ⟨h.given, fun y hy => h.shown y hy.2⟩

theorem Sound.enter (h : r.Sound gets shows) : (r.enter x).Sound gets shows := by
  refine ⟨fun a ha => Nat.le_succ_of_le (h.given a ha), fun y hy hgets => ?_⟩
  by_cases heq : y = x
  · -- its number is one the record cannot have
    subst heq
    simp only [Roll.enter, update_self] at hgets
    have := h.given _ hgets
    omega
  · simp only [Roll.enter, update_of_ne heq] at hgets
    exact h.shown y (hy.resolve_left heq) hgets

/-- The entry itself, as a record of its one number. -/
theorem Numbered.sound_enter (h : r.Numbered) : (r.enter x).Sound (· = r.count + 1) (· = x) := by
  refine ⟨fun a ha => Nat.le_of_eq ha, fun y hy hgets => ?_⟩
  by_contra heq
  have hold := h y (hy.resolve_left heq)
  simp only [Roll.enter, update_of_ne heq] at hgets
  omega

omit [DecidableEq α] in
theorem Sound.mono (h : r.Sound gets shows) (hgets : ∀ a, gets' a → gets a)
    (hshows : ∀ x, shows x → shows' x) : r.Sound gets' shows' :=
  ⟨fun a ha => h.given a (hgets a ha), fun x hx ha => hshows x (h.shown x hx (hgets _ ha))⟩

omit [DecidableEq α] in
theorem Sound.or (h : r.Sound gets shows) (h' : r.Sound gets' shows') :
    r.Sound (fun a => gets a ∨ gets' a) (fun x => shows x ∨ shows' x) :=
  ⟨fun a ha => ha.elim (h.given a) (h'.given a),
    fun x hx ha => ha.imp (h.shown x hx) (h'.shown x hx)⟩

end Roll

end Perfcached
