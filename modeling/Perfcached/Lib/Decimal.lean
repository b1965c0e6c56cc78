import Mathlib.Data.Nat.Digits.Lemmas
import Perfcached.Lib.Bytes

/-!
# Perfcached.Lib.Decimal

Integers as decimal texts.

`parse` reads a text that is a sign, or none, and digits as the integer it stands for, of any size.
A reader with machine words keeps the value of the digits so far in a word that wraps; what it has
at the end is the word of the value (`word_eq`).
-/

namespace Perfcached.Decimal

open Bytes List Nat

def isDigit (b : Byte) : Bool := decide (48 ≤ b.toNat ∧ b.toNat ≤ 57)

/-- The number that digits stand for, after `n`. -/
def valueFrom (n : Nat) (ds : List Byte) : Nat := ds.foldl (fun n d => n * 10 + (d.toNat - 48)) n

def value (ds : List Byte) : Nat := valueFrom 0 ds

/-- The same in a word. -/
def wordFrom {w : Nat} (v : BitVec w) (ds : List Byte) : BitVec w :=
  ds.foldl (fun v d => v * 10 + BitVec.ofNat w (d.toNat - 48)) v

/-- Whether a text begins with a minus, and what follows the sign if there is one. -/
def sign : List Byte → Bool × List Byte
  | [] => (false, [])
  | c :: ds =>
    if c.toNat = 45 then (true, ds) else if c.toNat = 43 then (false, ds) else (false, c :: ds)

/-- A 64-bit integer. -/
abbrev Signed64 (x : Int) : Prop := -2 ^ 63 ≤ x ∧ x < 2 ^ 63

def signed (neg : Bool) (n : Nat) : Int := if neg then -n else n

def parse (s : List Byte) : Option Int :=
  if (sign s).2 ≠ [] ∧ (sign s).2.all isDigit = true then
    some (signed (sign s).1 (value (sign s).2))
  else none

theorem mul_pow_le_valueFrom (n : Nat) (ds : List Byte) : n * 10 ^ ds.length ≤ valueFrom n ds := by
  induction ds generalizing n with
  | nil => simp [valueFrom]
  | cons d ds ih =>
    have hrest := ih (n * 10 + (d.toNat - 48))
    rw [length_cons, pow_succ, mul_comm _ 10, ← mul_assoc]
    exact (Nat.mul_le_mul_right _ (by omega)).trans hrest

theorem le_valueFrom (n : Nat) (ds : List Byte) : n ≤ valueFrom n ds :=
  (Nat.le_mul_of_pos_right n (by positivity)).trans (mul_pow_le_valueFrom n ds)

theorem wordFrom_ofNat (w n : Nat) (ds : List Byte) :
    wordFrom (BitVec.ofNat w n) ds = BitVec.ofNat w (valueFrom n ds) := by
  induction ds generalizing n with
  | nil => rfl
  | cons d ds ih =>
    rw [valueFrom, foldl_cons, ← valueFrom, ← ih, BitVec.ofNat_add, BitVec.ofNat_mul]
    rfl

theorem word_eq (w : Nat) (ds : List Byte) :
    wordFrom (0 : BitVec w) ds = BitVec.ofNat w (value ds) := wordFrom_ofNat w 0 ds

theorem ofInt_signed (w : Nat) (neg : Bool) (n : Nat) :
    BitVec.ofInt w (signed neg n) = if neg then -BitVec.ofNat w n else BitVec.ofNat w n := by
  cases neg with
  | false => exact BitVec.ofInt_natCast w n
  | true =>
    rw [signed, if_pos rfl, if_pos rfl, BitVec.ofInt_neg, BitVec.ofInt_natCast]

/-- A text with a byte that is neither a digit nor the sign is none. -/
theorem parse_eq_none {s : List Byte} {b : Byte} (hb : b ∈ s) (hdigit : isDigit b = false)
    (hminus : b.toNat ≠ 45) (hplus : b.toNat ≠ 43) : parse s = none := by
  have hmem : b ∈ (sign s).2 := by
    cases s with
    | nil => cases hb
    | cons c ds =>
      rw [sign]
      rcases mem_cons.mp hb with rfl | hb
      · rw [if_neg hminus, if_neg hplus]
        exact mem_cons_self
      · split
        · exact hb
        · split
          · exact hb
          · exact mem_cons_of_mem _ hb
  rw [parse, if_neg]
  intro hall
  rw [all_eq_true.mp hall.2 b hmem] at hdigit
  cases hdigit

/-! ### Writing -/

def digitByte (d : Nat) : Byte := BitVec.ofNat 8 (48 + d)

/-- A number as `"%llu"` prints it. -/
def natText (n : Nat) : List Byte :=
  if n = 0 then [digitByte 0] else (Nat.digits 10 n).reverse.map digitByte

theorem toNat_digitByte {d : Nat} (h : d < 10) : (digitByte d).toNat = 48 + d := by
  rw [digitByte, BitVec.toNat_ofNat]
  omega

theorem natText_ne_nil (n : Nat) : natText n ≠ [] := by
  unfold natText
  split
  · simp
  · simpa using digits_ne_nil_iff_ne_zero.mpr ‹_›

theorem isDigit_natText (n : Nat) : ∀ b ∈ natText n, isDigit b = true := by
  have hdigit : ∀ d < 10, isDigit (digitByte d) = true := by
    intro d hd
    rw [isDigit, toNat_digitByte hd, decide_eq_true_eq]
    omega
  intro b hb
  unfold natText at hb
  split at hb
  · rw [mem_singleton.mp hb]
    exact hdigit 0 (by omega)
  · obtain ⟨d, hd, rfl⟩ := mem_map.mp hb
    exact hdigit d (digits_lt_base (by omega) (mem_reverse.mp hd))

theorem value_digits (n : Nat) : value ((Nat.digits 10 n).reverse.map digitByte) = n := by
  induction n using Nat.strongRecOn with
  | _ n ih =>
    rcases Nat.eq_zero_or_pos n with rfl | hn
    · rfl
    rw [digits_def' (by omega) hn, reverse_cons, map_append, value, valueFrom, foldl_append]
    have hrest := ih (n / 10) (by omega)
    rw [value, valueFrom] at hrest
    rw [hrest, map_singleton, foldl_cons, foldl_nil, toNat_digitByte (mod_lt _ (by omega))]
    omega

theorem value_natText (n : Nat) : value (natText n) = n := by
  unfold natText
  split
  · subst n
    rfl
  · exact value_digits n

/-- The text of a number has no leading zero, except that of 0. -/
theorem head_natText {n : Nat} (h : (natText n).head? = some 48) : (natText n).length = 1 := by
  unfold natText at *
  split_ifs at h ⊢ with hn
  · rfl
  · have hne := digits_ne_nil_iff_ne_zero (b := 10).mpr hn
    rw [head?_map, head?_reverse, getLast?_eq_some_getLast hne, Option.map_some,
      Option.some.injEq] at h
    have hbyte := congrArg BitVec.toNat h
    rw [toNat_digitByte (digits_lt_base (by omega) (getLast_mem hne))] at hbyte
    have hlast := getLast_digit_ne_zero 10 hn
    change _ = 48 at hbyte
    omega

theorem length_natText_le {n k : Nat} (hk : 0 < k) (h : n < 10 ^ k) : (natText n).length ≤ k := by
  unfold natText
  split
  · exact hk
  · rw [length_map, length_reverse]
    exact (digits_length_le_iff (by omega) n).mpr h

/-- An integer as `"%lld"` prints it. -/
def intText (x : Int) : List Byte := (if x < 0 then [45] else []) ++ natText x.natAbs

/-- A 64-bit integer prints in at most twenty bytes. -/
theorem length_intText_le {x : Int} (h : Signed64 x) : (intText x).length ≤ 20 := by
  have habs : x.natAbs < 10 ^ 19 := by omega
  have hdigits := length_natText_le (by decide) habs
  rw [intText, length_append]
  split
  · rw [length_singleton]
    omega
  · rw [length_nil]
    omega

/-- A text that begins with a digit has no sign. -/
theorem sign_of_digit {b : Byte} {s : List Byte} (h : isDigit b = true) :
    sign (b :: s) = (false, b :: s) := by
  simp only [isDigit, decide_eq_true_eq] at h
  rw [sign, if_neg (by omega), if_neg (by omega)]

theorem sign_natText (n : Nat) : sign (natText n) = (false, natText n) := by
  cases h : natText n with
  | nil => exact absurd h (natText_ne_nil n)
  | cons b s => exact sign_of_digit (isDigit_natText n b (by simp [h]))

theorem parse_natText (n : Nat) : parse (natText n) = some (n : Int) := by
  rw [parse, sign_natText, if_pos ⟨natText_ne_nil n, all_eq_true.mpr (isDigit_natText n)⟩,
    value_natText]
  rfl

end Perfcached.Decimal
