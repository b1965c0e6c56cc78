import Mathlib.Tactic.Common

/-!
# Perfcached.Lib.Bitmap

Bits kept in machine words.

Bit `b` of a map is bit `b % w` of word `b / w`. A bit is set and cleared by a mask within its
word, a whole word is overwritten at once; the `test_*` lemmas say what a later read of any bit
sees.
-/

namespace Perfcached.Bitmap

open Nat

variable {w : Nat}

/-- The words of a map. -/
abbrev Words (w : Nat) := Nat → BitVec w

/-- Word `j`, overwritten. -/
def put (bs : Words w) (j : Nat) (x : BitVec w) : Words w := fun i => if i = j then x else bs i

/-- The mask of a bit within its word. -/
def mask (w b : Nat) : BitVec w := 1#w <<< (b % w)

def test (bs : Words w) (b : Nat) : Bool := (bs (b / w)).getLsbD (b % w)

def mark (bs : Words w) (b : Nat) : Words w := put bs (b / w) (bs (b / w) ||| mask w b)

def unmark (bs : Words w) (b : Nat) : Words w := put bs (b / w) (bs (b / w) &&& ~~~ mask w b)

def zero : Words w := fun _ => 0#w

/-- A bit is told by its word and its place in it. -/
theorem eq_iff {b c : Nat} : c = b ↔ c / w = b / w ∧ c % w = b % w := by
  constructor
  · rintro rfl
    exact ⟨rfl, rfl⟩
  · rintro ⟨hdiv, hmod⟩
    rw [← div_add_mod c w, ← div_add_mod b w, hdiv, hmod]

theorem getLsbD_mask (hw : 0 < w) (b i : Nat) : (mask w b).getLsbD i = decide (i = b % w) := by
  have hlt := Nat.mod_lt b hw
  by_cases hi : i = b % w
  · simp [mask, hi, hlt]
  · rcases Nat.lt_or_gt_of_ne hi with hlow | hhigh
    · simp [mask, hi, hlow]
    · have hsub : i - b % w ≠ 0 := Nat.sub_ne_zero_of_lt hhigh
      simp [mask, hi, hsub]

@[simp] theorem test_zero (c : Nat) : test (zero : Words w) c = false := by
  simp [test, zero]

theorem test_put (bs : Words w) (j : Nat) (x : BitVec w) (c : Nat) :
    test (put bs j x) c = if c / w = j then x.getLsbD (c % w) else test bs c := by
  by_cases h : c / w = j <;> simp [test, put, h]

theorem test_put_zero (bs : Words w) (j c : Nat) :
    test (put bs j 0#w) c = (decide (c / w ≠ j) && test bs c) := by
  by_cases h : c / w = j <;> simp [test_put, h]

theorem test_mark (hw : 0 < w) (bs : Words w) (b c : Nat) :
    test (mark bs b) c = (decide (c = b) || test bs c) := by
  have heq := @eq_iff w b c
  rw [mark, test_put]
  by_cases hdiv : c / w = b / w
  · simp [heq, hdiv, getLsbD_mask hw, test, Bool.or_comm]
  · simp [heq, hdiv]

theorem test_unmark (hw : 0 < w) (bs : Words w) (b c : Nat) :
    test (unmark bs b) c = (decide (c ≠ b) && test bs c) := by
  have heq := @eq_iff w b c
  rw [unmark, test_put]
  by_cases hdiv : c / w = b / w
  · have hlt := mod_lt c hw
    rw [if_pos hdiv, BitVec.getLsbD_and, BitVec.getLsbD_not, getLsbD_mask hw]
    simp [heq, hdiv, test, hlt, Bool.and_comm]
  · simp [heq, hdiv]

/-! ### Several bits at once -/

def markAll (bs : Words w) (ps : List Nat) : Words w := ps.foldl mark bs

def testAll (bs : Words w) (ps : List Nat) : Bool := ps.all (test bs)

theorem test_markAll (hw : 0 < w) (bs : Words w) (ps : List Nat) (c : Nat) :
    test (markAll bs ps) c = (decide (c ∈ ps) || test bs c) := by
  induction ps generalizing bs with
  | nil => simp [markAll]
  | cons p ps ih =>
    have hstep : markAll bs (p :: ps) = markAll (mark bs p) ps := rfl
    rw [hstep, ih, test_mark hw]
    by_cases hp : c = p <;> simp [hp]

theorem testAll_markAll_self (hw : 0 < w) (bs : Words w) (ps : List Nat) :
    testAll (markAll bs ps) ps = true := by
  simp only [testAll, List.all_eq_true]
  intro c hc
  simp [test_markAll hw, hc]

theorem testAll_markAll (hw : 0 < w) {bs : Words w} {qs : List Nat} (h : testAll bs qs = true)
    (ps : List Nat) : testAll (markAll bs ps) qs = true := by
  simp only [testAll, List.all_eq_true] at h ⊢
  intro c hc
  simp [test_markAll hw, h c hc]

end Perfcached.Bitmap
